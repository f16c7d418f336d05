import Mathlib.Data.List.Basic
import Mathlib.Data.List.Nodup

/-!
# Names made of words

Names that are joined by a separator which they may contain themselves.

* `phrases_unique`: phrases whose first words are never inner words can be told apart
  when they are strung together;
* `joined_unique`: so can names that are such phrases, when they are joined.
-/

namespace MpiBugs.Words

variable {α : Type}

/-- A first word, and inner words. -/
def Phrase (inner : α → Prop) : List α → Prop
  | [] => False
  | w :: ws => ¬ inner w ∧ ∀ v ∈ ws, inner v

instance (inner : α → Prop) [DecidablePred inner] : DecidablePred (Phrase inner)
  | [] => inferInstanceAs (Decidable False)
  | w :: ws => inferInstanceAs (Decidable (¬ inner w ∧ ∀ v ∈ ws, inner v))

/-- What follows inner words is not one. -/
def Starts (inner : α → Prop) (s : List α) : Prop := ∀ w ∈ s.head?, ¬ inner w

theorem inner_unique {inner : α → Prop} {u v s t : List α} (hu : ∀ w ∈ u, inner w)
    (hv : ∀ w ∈ v, inner w) (hs : Starts inner s) (ht : Starts inner t) (h : u ++ s = v ++ t) :
    u = v ∧ s = t := by
  induction u generalizing v with
  | nil =>
    cases v with
    | nil => exact ⟨rfl, h⟩
    | cons w v =>
      obtain rfl : s = w :: (v ++ t) := h
      exact absurd (hv w List.mem_cons_self) (hs w rfl)
  | cons w u ih =>
    cases v with
    | nil =>
      obtain rfl : t = w :: (u ++ s) := h.symm
      exact absurd (hu w List.mem_cons_self) (ht w rfl)
    | cons w' v =>
      obtain ⟨rfl, htail⟩ := List.cons.inj h
      obtain ⟨rfl, hst⟩ := ih (fun x hx => hu x (List.mem_cons_of_mem _ hx))
        (fun x hx => hv x (List.mem_cons_of_mem _ hx)) htail
      exact ⟨rfl, hst⟩

theorem starts_flatten {inner : α → Prop} {ls : List (List α)} (h : ∀ l ∈ ls, Phrase inner l) :
    Starts inner ls.flatten := by
  cases ls with
  | nil => exact nofun
  | cons l ls =>
    have hl := h l List.mem_cons_self
    cases l with
    | nil => exact hl.elim
    | cons w ws =>
      intro x hx
      obtain rfl : w = x := Option.some.inj hx
      exact hl.1

/-- **Phrases can be told apart.** -/
theorem phrases_unique {inner : α → Prop} {ls ms : List (List α)} (hl : ∀ l ∈ ls, Phrase inner l)
    (hm : ∀ m ∈ ms, Phrase inner m) (h : ls.flatten = ms.flatten) : ls = ms := by
  induction ls generalizing ms with
  | nil =>
    cases ms with
    | nil => rfl
    | cons m ms =>
      have hphrase := hm m List.mem_cons_self
      cases m with
      | nil => exact hphrase.elim
      | cons w ws => cases h
  | cons l ls ih =>
    have hphrase := hl l List.mem_cons_self
    cases l with
    | nil => exact hphrase.elim
    | cons w ws =>
      cases ms with
      | nil => cases h
      | cons m ms =>
        have hphrase' := hm m List.mem_cons_self
        cases m with
        | nil => exact hphrase'.elim
        | cons w' ws' =>
          have hls : ∀ l ∈ ls, Phrase inner l := fun x hx => hl x (List.mem_cons_of_mem _ hx)
          have hms : ∀ m ∈ ms, Phrase inner m := fun x hx => hm x (List.mem_cons_of_mem _ hx)
          obtain ⟨rfl, htail⟩ := List.cons.inj h
          obtain ⟨rfl, hrest⟩ := inner_unique hphrase.2 hphrase'.2 (starts_flatten hls)
            (starts_flatten hms) htail
          rw [ih hls hms hrest]

section

variable [DecidableEq α]

/-- A name, and the names that are joined to it. -/
def joined (sep : α) (x : List α) (ps : List (List α)) : List α := x ++ ps.flatMap (sep :: ·)

theorem splitOn_joined (sep : α) (x : List α) (ps : List (List α)) :
    (joined sep x ps).splitOn sep = ((x :: ps).map (·.splitOn sep)).flatten := by
  induction ps generalizing x with
  | nil => simp [joined]
  | cons p ps ih =>
    have hcons : joined sep x (p :: ps) = x ++ sep :: joined sep p ps := by
      simp [joined]
    have hsplit : (x ++ sep :: joined sep p ps).splitOn sep =
        x.splitOn sep ++ (joined sep p ps).splitOn sep :=
      List.splitOnP_append_cons x _ (beq_self_eq_true sep)
    rw [hcons, hsplit, ih]
    rfl

theorem splitOn_injective (sep : α) : Function.Injective (List.splitOn sep) := by
  intro x y h
  have hback : ∀ z : List α, [sep].intercalate (z.splitOn sep) = z :=
    fun z => List.intercalate_splitOn sep
  rw [← hback x, h, hback y]

/-- **Names that are phrases can be read back** from what they are joined to. -/
theorem joined_unique {inner : List α → Prop} {sep : α} {x y : List α} {ps qs : List (List α)}
    (hps : ∀ p ∈ x :: ps, Phrase inner (p.splitOn sep))
    (hqs : ∀ q ∈ y :: qs, Phrase inner (q.splitOn sep)) (h : joined sep x ps = joined sep y qs) :
    x = y ∧ ps = qs := by
  have hsplit := congrArg (List.splitOn sep) h
  rw [splitOn_joined, splitOn_joined] at hsplit
  have hall := phrases_unique (List.forall_mem_map.mpr hps) (List.forall_mem_map.mpr hqs) hsplit
  exact List.cons.inj ((splitOn_injective sep).list_map hall)

end

end MpiBugs.Words
