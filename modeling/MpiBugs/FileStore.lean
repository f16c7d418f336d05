import MpiBugs.Regex
import Mathlib.Logic.Function.Basic

/-!
# Files and runs

A directory of files that remember who wrote them, the operations of a program
on it, and runs of a system whose steps may depend on the history.

* `applyAll_frame`: what no operation names is unchanged;
* `applyAll_puts`, `applyAll_origin`: where the files of a directory come from;
* `Run.invariant`: what holds at the start and is kept by every step holds in
  every state reached.
-/

namespace MpiBugs.FileStore

variable {κ η ι : Type}

/-- A file and the one who wrote it. -/
structure File (ι : Type) where
  content : Text
  writer : ι
  deriving DecidableEq, Repr

abbrev Store (κ ι : Type) := κ → Option (File ι)

/-- The directory without files. -/
def empty : Store κ ι := fun _ => none

/-- One step at the file system. -/
inductive Op (κ : Type)
  | put (k : κ) (content : Text)
  | remove (k : κ)
  | rename (k k' : κ)
  deriving DecidableEq, Repr

/-- Open for writing (which truncates), then write. -/
def write (k : κ) (content : Text) : List (Op κ) := [.put k [], .put k content]

section Apply

variable [DecidableEq κ] (i : ι)

def apply (s : Store κ ι) : Op κ → Store κ ι
  | .put k content => Function.update s k (some ⟨content, i⟩)
  | .remove k => Function.update s k none
  | .rename k k' =>
    match s k with
    | none => s
    | some f => Function.update (Function.update s k none) k' (some f)

def applyAll (s : Store κ ι) (ops : List (Op κ)) : Store κ ι := ops.foldl (apply i) s

@[simp] theorem applyAll_nil (s : Store κ ι) : applyAll i s [] = s := rfl

@[simp] theorem applyAll_cons (s : Store κ ι) (op : Op κ) (ops : List (Op κ)) :
    applyAll i s (op :: ops) = applyAll i (apply i s op) ops := rfl

@[simp] theorem apply_remove (s : Store κ ι) (k : κ) :
    apply i s (.remove k) = Function.update s k none := rfl

theorem applyAll_append (s : Store κ ι) (ops ops' : List (Op κ)) :
    applyAll i s (ops ++ ops') = applyAll i (applyAll i s ops) ops' := List.foldl_append

@[simp] theorem applyAll_write (s : Store κ ι) (k : κ) (content : Text) :
    applyAll i s (write k content) = Function.update s k (some ⟨content, i⟩) := by
  simp [write, apply]

/-- The files an operation may change. -/
def Op.names : Op κ → List κ
  | .put k _ => [k]
  | .remove k => [k]
  | .rename k k' => [k, k']

theorem apply_frame {s : Store κ ι} {op : Op κ} {k : κ} (h : k ∉ op.names) :
    apply i s op k = s k := by
  cases op with
  | put k' content => exact Function.update_of_ne (by simpa [Op.names] using h) _ _
  | remove k' => exact Function.update_of_ne (by simpa [Op.names] using h) _ _
  | rename k₁ k₂ =>
    simp only [Op.names, List.mem_cons, List.not_mem_nil, or_false, not_or] at h
    cases hfile : s k₁ with
    | none => simp only [apply, hfile]
    | some f => simp only [apply, hfile, Function.update_of_ne h.1, Function.update_of_ne h.2]

/-- **What no operation names is unchanged.** -/
theorem applyAll_frame {ops : List (Op κ)} {k : κ} (h : ∀ op ∈ ops, k ∉ op.names)
    (s : Store κ ι) : applyAll i s ops k = s k := by
  induction ops generalizing s with
  | nil => rfl
  | cons op ops ih =>
    obtain ⟨hop, hops⟩ := List.forall_mem_cons.mp h
    rw [applyAll_cons, ih hops, apply_frame i hop]

/-- After operations that only put files, a file is one of theirs or untouched. -/
theorem applyAll_puts {ops : List (Op κ)} (h : ∀ op ∈ ops, ∃ k content, op = .put k content)
    (s : Store κ ι) (k : κ) :
    (∃ content, .put k content ∈ ops ∧ applyAll i s ops k = some ⟨content, i⟩) ∨
      ((∀ content, .put k content ∉ ops) ∧ applyAll i s ops k = s k) := by
  induction ops generalizing s with
  | nil => exact Or.inr ⟨by simp, rfl⟩
  | cons op ops ih =>
    obtain ⟨⟨k', content', rfl⟩, hops⟩ := List.forall_mem_cons.mp h
    rw [applyAll_cons]
    rcases ih hops (apply i s (.put k' content')) with ⟨content, hm, hk⟩ | ⟨hno, hk⟩
    · exact Or.inl ⟨content, List.mem_cons_of_mem _ hm, hk⟩
    · by_cases hkk : k = k'
      · subst hkk
        refine Or.inl ⟨content', List.mem_cons_self .., ?_⟩
        rw [hk, apply, Function.update_self]
      · refine Or.inr ⟨?_, ?_⟩
        · intro c hm
          rcases List.mem_cons.mp hm with hm | hm
          · exact hkk (Op.put.inj hm).1
          · exact hno c hm
        · rw [hk, apply, Function.update_of_ne hkk]

/-- Every file in the end is new or was there before, perhaps under another name. -/
theorem applyAll_origin {ops : List (Op κ)} {s : Store κ ι} {k : κ} {f : File ι}
    (h : applyAll i s ops k = some f) : f.writer = i ∨ ∃ k', s k' = some f := by
  induction ops generalizing s with
  | nil => exact Or.inr ⟨k, h⟩
  | cons op ops ih =>
    rw [applyAll_cons] at h
    rcases ih h with hi | ⟨k', hk'⟩
    · exact Or.inl hi
    · cases op with
      | put k₁ content =>
        rw [apply, Function.update_apply] at hk'
        split at hk'
        · exact Or.inl (by rw [← Option.some.inj hk'])
        · exact Or.inr ⟨k', hk'⟩
      | remove k₁ =>
        rw [apply, Function.update_apply] at hk'
        split at hk'
        · cases hk'
        · exact Or.inr ⟨k', hk'⟩
      | rename k₁ k₂ =>
        cases hfile : s k₁ with
        | none =>
          simp only [apply, hfile] at hk'
          exact Or.inr ⟨k', hk'⟩
        | some g =>
          simp only [apply, hfile, Function.update_apply] at hk'
          split at hk'
          · obtain rfl := Option.some.inj hk'
            exact Or.inr ⟨k₁, hfile⟩
          · split at hk'
            · cases hk'
            · exact Or.inr ⟨k', hk'⟩

/-- The operation on a directory of which the first one is a part. -/
def Op.map (f : κ → η) : Op κ → Op η
  | .put k content => .put (f k) content
  | .remove k => .remove (f k)
  | .rename k k' => .rename (f k) (f k')

end Apply

/-! ## Runs -/

/-- A system whose steps may look at the events so far. -/
structure System (σ ε : Type) where
  init : σ
  step : List ε → σ → ε → σ → Prop

variable {σ ε : Type}

/-- The runs all of whose steps are admitted, with their events and last state. -/
inductive Run (S : System σ ε) (admitted : List ε → σ → ε → Prop) : List ε → σ → Prop
  | start : Run S admitted [] S.init
  | next {past : List ε} {s s' : σ} {e : ε} : Run S admitted past s → admitted past s e →
      S.step past s e s' → Run S admitted (past ++ [e]) s'

/-- **Invariants of runs.** -/
theorem Run.invariant {S : System σ ε} {admitted : List ε → σ → ε → Prop}
    {Inv : List ε → σ → Prop} (hinit : Inv [] S.init)
    (hstep : ∀ past s e s', Inv past s → admitted past s e → S.step past s e s' →
      Inv (past ++ [e]) s')
    {past : List ε} {s : σ} (h : Run S admitted past s) : Inv past s := by
  induction h with
  | start => exact hinit
  | next _ hadm hs ih => exact hstep _ _ _ _ ih hadm hs

/-- An event of the past keeps its number. -/
theorem getElem?_past {past : List ε} {n : Nat} {a : ε} (h : past[n]? = some a) (e : ε) :
    (past ++ [e])[n]? = some a := by
  have hn : n < past.length := (List.getElem?_eq_some_iff.mp h).1
  rw [List.getElem?_append_left hn, h]

end MpiBugs.FileStore
