import MpiBugs.Features
import Mathlib.Logic.Function.Basic

/-!
# What the generators share

The tables of `generator_utils.py`, the labels of features, and the calls of
`make_file`, each of which writes one file.

* `directory_append`: a file holds what the last call for it has written;
* `directory_flatMap`: a file that one round of a loop writes.
-/

namespace MpiBugs.Generators

/-- For a primitive and a number, its declarations, its call, and so on. -/
structure Tables where
  init : Text → Text → Text
  start : Text → Text → Text
  operation : Text → Text → Text
  fini : Text → Text → Text
  free : Text → Text → Text
  write : Text → Text → Text

/-- `'Yes' if p else 'Lacking'` -/
def yesIf (p : Prop) [Decidable p] : Characterization := if p then .Yes else .Lacking

@[simp] theorem yesIf_eq_yes_iff (p : Prop) [Decidable p] : yesIf p = .Yes ↔ p := by
  by_cases h : p <;> simp [yesIf, h]

theorem yesIf_eq_iff (p q : Prop) [Decidable p] [Decidable q] : yesIf p = yesIf q ↔ (p ↔ q) := by
  by_cases hp : p <;> by_cases hq : q <;> simp [yesIf, hp, hq]

/-- A call of `make_file`: the name of the file, and what is known of the
dictionary. -/
structure Call (φ π : Type) where
  filename : φ
  replace : π

section Directory

variable {φ π : Type} [DecidableEq φ]

/-- The files after these calls. -/
def directory (calls : List (Call φ π)) : φ → Option π :=
  calls.foldl (fun files call => Function.update files call.filename (some call.replace))
    fun _ => none

theorem directory_concat (calls : List (Call φ π)) (call : Call φ π) :
    directory (calls ++ [call]) =
      Function.update (directory calls) call.filename (some call.replace) := by
  rw [directory, List.foldl_append]
  rfl

/-- **The last call for a file counts.** -/
theorem directory_append (calls calls' : List (Call φ π)) (f : φ) :
    directory (calls ++ calls') f = (directory calls' f).or (directory calls f) := by
  induction calls' using List.reverseRecOn with
  | nil => simp [directory]
  | append_singleton calls' call ih =>
    rw [← List.append_assoc, directory_concat, directory_concat]
    by_cases hf : f = call.filename
    · subst hf
      simp
    · rw [Function.update_of_ne hf, Function.update_of_ne hf, ih]

theorem directory_none {calls : List (Call φ π)} {f : φ} (h : ∀ call ∈ calls, call.filename ≠ f) :
    directory calls f = none := by
  induction calls using List.reverseRecOn with
  | nil => rfl
  | append_singleton calls call ih =>
    rw [directory_concat, Function.update_of_ne (Ne.symm (h call (by simp)))]
    exact ih fun c hc => h c (by simp [hc])

/-- A file that one round of a loop writes, and no other does. -/
theorem directory_flatMap {α : Type} [DecidableEq α] {l : List α} {round : α → List (Call φ π)}
    {f : φ} {a : α} {p : π} (ha : a ∈ l) (hown : directory (round a) f = some p)
    (hother : ∀ b, b ≠ a → directory (round b) f = none) :
    directory (l.flatMap round) f = some p := by
  have hnone : ∀ l : List α, a ∉ l → directory (l.flatMap round) f = none := by
    intro l
    induction l with
    | nil => exact fun _ => rfl
    | cons b l ih =>
      intro hnot
      rw [List.flatMap_cons, directory_append, ih fun h => hnot (List.mem_cons_of_mem _ h),
        hother b fun h => hnot (by simp [h])]
      rfl
  induction l with
  | nil => cases ha
  | cons b l ih =>
    rw [List.flatMap_cons, directory_append]
    by_cases hl : a ∈ l
    · rw [ih hl]
      rfl
    · obtain rfl : a = b := (List.mem_cons.mp ha).resolve_right hl
      rw [hnone l hl, hown]
      rfl

end Directory

end MpiBugs.Generators
