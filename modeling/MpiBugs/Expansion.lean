import MpiBugs.Rewriting
import Mathlib.Logic.Relation
import Mathlib.Data.Fintype.Card
import Mathlib.Data.Set.Finite.Lattice
import Mathlib.Tactic.Common

/-!
# Documents with holes, and their full expansion

A document is a list of pieces, some of them holes with a name; a dictionary
gives some names a document of their own. The full expansion replaces every
hole by the full expansion of its value.

* `Expands.unique`, `Expands.holes`: the expansion is determined by the
  document, and has no holes;
* `expands_of_acyclic`: if finitely many names are defined and no value leads
  back to its own name, every closed document has an expansion;
* `Expands.mem_iff`: its pieces are those that the document leads to;
* `ExpandsIn.subst`: replacing all holes of one name at once keeps the
  expansion and makes it smaller, in whatever order the names are taken;
  `ExpandsIn.replaced`: so does replacing some of them;
* `exists_expands_called`: only the names that a document leads to matter.
-/

namespace MpiBugs.Expansion

open Rewriting (Replaced)

/-- A piece of a document: a hole, or something that stays. -/
inductive Piece (ν τ : Type)
  | inert (t : τ)
  | hole (x : ν)
  deriving DecidableEq

abbrev Document (ν τ : Type) := List (Piece ν τ)

variable {ν τ : Type}

/-- The names of the holes, in order. -/
def holes : Document ν τ → List ν
  | [] => []
  | .inert _ :: ps => holes ps
  | .hole x :: ps => x :: holes ps

/-- All holes named `x` are replaced by `v`. -/
def subst [DecidableEq ν] (x : ν) (v : Document ν τ) : Document ν τ → Document ν τ
  | [] => []
  | .inert t :: ps => .inert t :: subst x v ps
  | .hole y :: ps => if y = x then v ++ subst x v ps else .hole y :: subst x v ps

@[simp] theorem holes_append (ps qs : Document ν τ) : holes (ps ++ qs) = holes ps ++ holes qs := by
  induction ps with
  | nil => rfl
  | cons p ps ih =>
    cases p with
    | inert t => exact ih
    | hole x => exact congrArg (x :: ·) ih

theorem mem_holes (ps : Document ν τ) (x : ν) : x ∈ holes ps ↔ .hole x ∈ ps := by
  induction ps with
  | nil => simp [holes]
  | cons p ps ih =>
    cases p with
    | inert t => simp [holes, ih]
    | hole y => simp [holes, ih]

/-- `qs` is the expansion of `ps`, and takes `k` replacements of one hole. -/
inductive ExpandsIn (d : ν → Option (Document ν τ)) : Nat → Document ν τ → Document ν τ → Prop
  | nil : ExpandsIn d 0 [] []
  | inert {k ps qs} (t : τ) : ExpandsIn d k ps qs →
      ExpandsIn d k (.inert t :: ps) (.inert t :: qs)
  | hole {j k x v w ps qs} : d x = some v → ExpandsIn d j v w → ExpandsIn d k ps qs →
      ExpandsIn d (j + k + 1) (.hole x :: ps) (w ++ qs)

/-- **The full expansion**: every hole is replaced by the full expansion of the
value of its name, and everything else is left in place. -/
def Expands (d : ν → Option (Document ν τ)) (ps qs : Document ν τ) : Prop :=
  ∃ k, ExpandsIn d k ps qs

variable {d : ν → Option (Document ν τ)}

theorem ExpandsIn.append {j k : Nat} {ps us qs vs : Document ν τ} (hp : ExpandsIn d j ps us)
    (hq : ExpandsIn d k qs vs) : ExpandsIn d (j + k) (ps ++ qs) (us ++ vs) := by
  induction hp with
  | nil => rw [Nat.zero_add]; exact hq
  | inert t _ ih => exact .inert t ih
  | @hole i j x v w ps us hx hv _ _ ih =>
    have h := ExpandsIn.hole hx hv ih
    rw [show i + j + 1 + k = i + (j + k) + 1 by omega, List.append_assoc]
    exact h

theorem ExpandsIn.unique {j k : Nat} {ps qs qs' : Document ν τ} (h : ExpandsIn d j ps qs)
    (h' : ExpandsIn d k ps qs') : qs = qs' := by
  induction h generalizing k qs' with
  | nil => cases h' with | nil => rfl
  | inert t _ ih => cases h' with | inert _ h' => rw [ih h']
  | hole hx _ _ ihv ih =>
    cases h' with
    | hole hx' hv' h' =>
      rw [hx] at hx'
      obtain rfl := Option.some.inj hx'
      rw [ihv hv', ih h']

theorem ExpandsIn.holes {k : Nat} {ps qs : Document ν τ} (h : ExpandsIn d k ps qs) :
    holes qs = [] := by
  induction h with
  | nil => rfl
  | inert t _ ih => exact ih
  | hole _ _ _ ihv ih => rw [holes_append, ihv, ih]; rfl

theorem Expands.unique {ps qs qs' : Document ν τ} (h : Expands d ps qs) (h' : Expands d ps qs') :
    qs = qs' :=
  let ⟨_, h⟩ := h
  let ⟨_, h'⟩ := h'
  h.unique h'

theorem Expands.holes {ps qs : Document ν τ} (h : Expands d ps qs) : holes qs = [] :=
  let ⟨_, h⟩ := h
  h.holes

/-- A document without holes is its own expansion. -/
theorem ExpandsIn.of_closed {k : Nat} {ps qs : Document ν τ} (h : ExpandsIn d k ps qs)
    (hps : Expansion.holes ps = []) : qs = ps := by
  induction h with
  | nil => rfl
  | inert t _ ih => rw [ih hps]
  | hole _ _ _ _ _ => cases hps

theorem expandsIn_self {ps : Document ν τ} (hps : Expansion.holes ps = []) : ExpandsIn d 0 ps ps := by
  induction ps with
  | nil => exact .nil
  | cons p ps ih =>
    cases p with
    | inert t => exact .inert t (ih hps)
    | hole x => cases hps

/-- The hole in front of an expanding document is defined. -/
theorem ExpandsIn.defined {k : Nat} {ps qs : Document ν τ} (h : ExpandsIn d k ps qs) {x : ν}
    (hx : x ∈ Expansion.holes ps) : ∃ v, d x = some v := by
  induction h with
  | nil => cases hx
  | inert t _ ih => exact ih hx
  | hole hy _ _ _ ih =>
    rcases List.mem_cons.mp hx with rfl | hx
    · exact ⟨_, hy⟩
    · exact ih hx

/-- **Replacing all holes of one name keeps the expansion**, and takes away the
replacements of those holes. -/
theorem ExpandsIn.subst [DecidableEq ν] {k : Nat} {x : ν} {v ps qs : Document ν τ}
    (hx : d x = some v) (h : ExpandsIn d k ps qs) :
    ∃ j, j ≤ k ∧ (x ∈ Expansion.holes ps → j < k) ∧ ExpandsIn d j (subst x v ps) qs := by
  induction h with
  | nil => exact ⟨0, Nat.le_refl _, fun h => (List.not_mem_nil h).elim, .nil⟩
  | inert t _ ih =>
    obtain ⟨j, hle, hlt, hj⟩ := ih
    exact ⟨j, hle, hlt, .inert t hj⟩
  | @hole i k y w u ps qs hy hw _ _ ih =>
    obtain ⟨j, hle, hlt, hj⟩ := ih
    by_cases hyx : y = x
    · subst hyx
      rw [hx] at hy
      obtain rfl := Option.some.inj hy
      refine ⟨i + j, by omega, fun _ => by omega, ?_⟩
      rw [Expansion.subst, if_pos rfl]
      exact hw.append hj
    · refine ⟨i + j + 1, by omega, fun h => ?_, ?_⟩
      · have := hlt (List.mem_of_ne_of_mem (Ne.symm hyx) h)
        omega
      · rw [Expansion.subst, if_neg hyx]
        exact .hole hy hw hj

/-! ## Acyclic dictionaries -/

/-- The value of `x` mentions `y`. -/
def Mentions (d : ν → Option (Document ν τ)) (x y : ν) : Prop := ∃ v, d x = some v ∧ y ∈ holes v

/-- No chain of mentions leads from a name back to itself. -/
def Acyclic (d : ν → Option (Document ν τ)) : Prop := ∀ x, ¬ Relation.TransGen (Mentions d) x x

/-- Every hole of the document is defined. -/
def Closed (d : ν → Option (Document ν τ)) (ps : Document ν τ) : Prop :=
  ∀ x ∈ holes ps, (d x).isSome

instance (d : ν → Option (Document ν τ)) (ps : Document ν τ) : Decidable (Closed d ps) :=
  inferInstanceAs (Decidable (∀ x ∈ holes ps, (d x).isSome))

/-- A rank that falls along every mention leaves no cycle. -/
theorem acyclic_of_rank (rank : ν → Nat) (h : ∀ x y, Mentions d x y → rank y < rank x) :
    Acyclic d := by
  have hlt : ∀ {x y}, Relation.TransGen (Mentions d) x y → rank y < rank x := by
    intro x y hxy
    induction hxy with
    | single hy => exact h _ _ hy
    | tail _ hz ih => exact Nat.lt_trans (h _ _ hz) ih
  exact fun x hx => Nat.lt_irrefl _ (hlt hx)

/-- A document expands if the values of its holes do. -/
theorem expands_of_values {ps : Document ν τ}
    (h : ∀ x ∈ holes ps, ∃ v w, d x = some v ∧ Expands d v w) : ∃ qs, Expands d ps qs := by
  induction ps with
  | nil => exact ⟨[], 0, .nil⟩
  | cons p ps ih =>
    cases p with
    | inert t =>
      obtain ⟨qs, k, hk⟩ := ih h
      exact ⟨_, k, .inert t hk⟩
    | hole x =>
      obtain ⟨v, w, hx, j, hj⟩ := h x (List.mem_cons_self ..)
      obtain ⟨qs, k, hk⟩ := ih fun y hy => h y (List.mem_cons_of_mem _ hy)
      exact ⟨_, _, .hole hx hj hk⟩

/-- Among finitely many defined names, being led to is well-founded. -/
theorem wellFounded_of_acyclic (hfin : {x | (d x).isSome}.Finite) (hacyc : Acyclic d) :
    WellFounded fun y x : {x | (d x).isSome} => Mentions d x.1 y.1 := by
  have hfinite : Finite {x | (d x).isSome} := hfin
  let led (y x : {x | (d x).isSome}) : Prop := Relation.TransGen (Mentions d) x.1 y.1
  have hirrefl : Std.Irrefl led := ⟨fun x => hacyc x.1⟩
  have htrans : IsTrans _ led := ⟨fun _ _ _ hyx hzy => hzy.trans hyx⟩
  have hled : WellFounded led := Finite.wellFounded_of_trans_of_irrefl led
  exact Subrelation.wf (fun h => Relation.TransGen.single h) hled

/-- **Acyclic dictionaries expand every closed document.** -/
theorem expands_of_acyclic (hfin : {x | (d x).isSome}.Finite) (hacyc : Acyclic d)
    (hvalues : ∀ x v, d x = some v → Closed d v) {ps : Document ν τ} (hps : Closed d ps) :
    ∃ qs, Expands d ps qs := by
  have hvalue : ∀ x : {x | (d x).isSome}, ∃ v w, d x.1 = some v ∧ Expands d v w := by
    intro x
    -- a name comes after the names that its value mentions
    induction x using (wellFounded_of_acyclic hfin hacyc).induction with
    | _ x ih =>
      obtain ⟨v, hv⟩ := Option.isSome_iff_exists.mp x.2
      have hclosed := hvalues x.1 v hv
      obtain ⟨w, hw⟩ := expands_of_values fun y hy => ih ⟨y, hclosed y hy⟩ ⟨v, hv, hy⟩
      exact ⟨v, w, hv, hw⟩
  exact expands_of_values fun x hx => hvalue ⟨x, hps x hx⟩

/-! ## Names without a value -/

/-- The names in a document or in a value. -/
def usedNames (d : ν → Option (Document ν τ)) (ps : Document ν τ) : Set ν :=
  {x | x ∈ holes ps ∨ ∃ y, Mentions d y x}

open Classical in
/-- The names of a set that lack a value are given the empty one. -/
noncomputable def padded (d : ν → Option (Document ν τ)) (used : Set ν) (x : ν) :
    Option (Document ν τ) :=
  (d x).or (if x ∈ used then some [] else none)

theorem usedNames_finite (hfin : {x | (d x).isSome}.Finite) (ps : Document ν τ) :
    (usedNames d ps).Finite := by
  have hmentioned : (⋃ y ∈ {y | (d y).isSome}, {x | Mentions d y x}).Finite := by
    refine hfin.biUnion fun y hy => ?_
    obtain ⟨v, hv⟩ := Option.isSome_iff_exists.mp hy
    refine (List.finite_toSet (holes v)).subset ?_
    rintro x ⟨v', hv', hx⟩
    rw [hv] at hv'
    rwa [← Option.some.inj hv'] at hx
  refine ((List.finite_toSet (holes ps)).union hmentioned).subset fun x hx => ?_
  rcases hx with hx | ⟨y, v, hv, hx⟩
  · exact .inl hx
  · exact .inr (Set.mem_biUnion (show (d y).isSome by rw [hv]; rfl) ⟨v, hv, hx⟩)

theorem padded_of_some (used : Set ν) {x : ν} {v : Document ν τ} (h : d x = some v) :
    padded d used x = some v := by
  rw [padded, h]
  rfl

theorem padded_isSome {used : Set ν} {x : ν} (h : x ∈ used) : (padded d used x).isSome := by
  simp [padded, h]

theorem padded_cases {used : Set ν} {x : ν} {v : Document ν τ} (h : padded d used x = some v) :
    d x = some v ∨ v = [] ∧ x ∈ used := by
  cases hx : d x with
  | some u =>
    rw [padded_of_some used hx] at h
    exact .inl h
  | none => exact .inr (by simpa [padded, hx, and_comm, eq_comm] using h)

theorem Mentions.of_padded {used : Set ν} {x y : ν} (h : Mentions (padded d used) x y) :
    Mentions d x y := by
  obtain ⟨v, hv, hy⟩ := h
  rcases padded_cases hv with hv | ⟨rfl, _⟩
  · exact ⟨v, hv, hy⟩
  · cases hy

/-- Every document expands once the names that lack a value are given the empty
one. -/
theorem exists_expands_padded (hfin : {x | (d x).isSome}.Finite) (hacyc : Acyclic d)
    (ps : Document ν τ) : ∃ d' : ν → Option (Document ν τ),
      (∀ x v, d x = some v → d' x = some v) ∧ ∃ qs, Expands d' ps qs := by
  have hfin' : {x | (padded d (usedNames d ps) x).isSome}.Finite := by
    refine (hfin.union (usedNames_finite hfin ps)).subset fun x hx => ?_
    obtain ⟨v, hv⟩ := Option.isSome_iff_exists.mp hx
    rcases padded_cases hv with h | ⟨_, h⟩
    · exact .inl (by rw [Set.mem_ofPred_eq, h]; rfl)
    · exact .inr h
  have hacyc' : Acyclic (padded d (usedNames d ps)) :=
    fun x hx => hacyc x (Relation.TransGen.mono (fun _ _ => Mentions.of_padded) x x hx)
  refine ⟨padded d (usedNames d ps), fun x v => padded_of_some _,
    expands_of_acyclic hfin' hacyc' ?_ fun x hx => padded_isSome (.inl hx)⟩
  intro x v hv y hy
  have hmentions : Mentions d x y := Mentions.of_padded ⟨v, hv, hy⟩
  exact padded_isSome (.inr ⟨x, hmentions⟩)

/-! ## The pieces of an expansion -/

/-- The piece is in the document, or in a value that the document leads to. -/
inductive Reaches (d : ν → Option (Document ν τ)) : Document ν τ → τ → Prop
  | here {ps t} : .inert t ∈ ps → Reaches d ps t
  | there {ps x v t} : .hole x ∈ ps → d x = some v → Reaches d v t → Reaches d ps t

theorem reaches_inert {ps : Document ν τ} {t u : τ} :
    Reaches d (.inert u :: ps) t ↔ t = u ∨ Reaches d ps t := by
  constructor
  · intro h
    cases h with
    | here h =>
      rcases List.mem_cons.mp h with h | h
      · exact .inl (Piece.inert.inj h)
      · exact .inr (.here h)
    | there h hx hv =>
      rcases List.mem_cons.mp h with h | h
      · cases h
      · exact .inr (.there h hx hv)
  · rintro (rfl | h)
    · exact .here (List.mem_cons_self ..)
    · cases h with
      | here h => exact .here (List.mem_cons_of_mem _ h)
      | there h hx hv => exact .there (List.mem_cons_of_mem _ h) hx hv

theorem reaches_hole {ps : Document ν τ} {x : ν} {t : τ} :
    Reaches d (.hole x :: ps) t ↔ (∃ v, d x = some v ∧ Reaches d v t) ∨ Reaches d ps t := by
  constructor
  · intro h
    cases h with
    | here h =>
      rcases List.mem_cons.mp h with h | h
      · cases h
      · exact .inr (.here h)
    | there h hx hv =>
      rcases List.mem_cons.mp h with h | h
      · obtain rfl := Piece.hole.inj h
        exact .inl ⟨_, hx, hv⟩
      · exact .inr (.there h hx hv)
  · rintro (⟨v, hx, hv⟩ | h)
    · exact .there (List.mem_cons_self ..) hx hv
    · cases h with
      | here h => exact .here (List.mem_cons_of_mem _ h)
      | there h hx hv => exact .there (List.mem_cons_of_mem _ h) hx hv

theorem reaches_nil {t : τ} : ¬ Reaches d [] t := by
  intro h
  cases h with
  | here h => cases h
  | there h _ _ => cases h

/-- **The pieces of the expansion** are those that the document leads to. -/
theorem Expands.mem_iff {ps qs : Document ν τ} (h : Expands d ps qs) (t : τ) :
    .inert t ∈ qs ↔ Reaches d ps t := by
  obtain ⟨k, h⟩ := h
  induction h with
  | nil => simp [reaches_nil]
  | inert u _ ih => rw [List.mem_cons, reaches_inert, ih, Piece.inert.injEq]
  | @hole j k x v w ps qs hx _ _ ihv ih =>
    rw [List.mem_append, reaches_hole, ih, ihv]
    refine or_congr_left ⟨fun h => ⟨v, hx, h⟩, ?_⟩
    rintro ⟨v', hx', h⟩
    rw [hx] at hx'
    rwa [Option.some.inj hx']

/-- Expanding two documents one after the other. -/
theorem ExpandsIn.append_inv {k : Nat} {ps qs us : Document ν τ}
    (h : ExpandsIn d k (ps ++ qs) us) :
    ∃ i j vs ws, us = vs ++ ws ∧ ExpandsIn d i ps vs ∧ ExpandsIn d j qs ws := by
  induction ps generalizing k us with
  | nil => exact ⟨0, k, [], us, rfl, .nil, h⟩
  | cons p ps ih =>
    cases h with
    | inert t h =>
      obtain ⟨i, j, vs, ws, rfl, hi, hj⟩ := ih h
      exact ⟨i, j, _, ws, rfl, .inert t hi, hj⟩
    | hole hx hv h =>
      obtain ⟨i, j, vs, ws, rfl, hi, hj⟩ := ih h
      exact ⟨_, j, _, ws, by rw [List.append_assoc], .hole hx hv hi, hj⟩

/-! ## Replacing some of the holes -/

/-- **Replacing some holes of a name keeps the expansion**, and takes away as
many replacements. -/
theorem ExpandsIn.replaced {k n : Nat} {x : ν} {v ps ps' qs : Document ν τ} (hx : d x = some v)
    (hps : Replaced (.hole x) v n ps ps') (h : ExpandsIn d k ps qs) :
    ∃ j, j + n ≤ k ∧ ExpandsIn d j ps' qs := by
  induction hps generalizing k qs with
  | nil => exact ⟨k, Nat.le_refl _, h⟩
  | keep p _ ih =>
    cases h with
    | inert t h =>
      obtain ⟨j, hj, h⟩ := ih h
      exact ⟨j, hj, .inert t h⟩
    | hole hy hv h =>
      obtain ⟨j, hj, h⟩ := ih h
      exact ⟨_, by omega, .hole hy hv h⟩
  | hit _ ih =>
    cases h with
    | hole hy hv h =>
      rw [hx] at hy
      obtain rfl := Option.some.inj hy
      obtain ⟨j, hj, h⟩ := ih h
      exact ⟨_, by omega, hv.append h⟩

/-- What remains expands to what the document expands to. -/
theorem Expands.of_replaced {n : Nat} {x : ν} {v ps ps' qs : Document ν τ} (hx : d x = some v)
    (hps : Replaced (.hole x) v n ps ps') (h : Expands d ps' qs) : Expands d ps qs := by
  induction hps generalizing qs with
  | nil => exact h
  | keep p _ ih =>
    obtain ⟨k, h⟩ := h
    cases h with
    | inert t h =>
      obtain ⟨j, hj⟩ := ih ⟨_, h⟩
      exact ⟨j, .inert t hj⟩
    | hole hy hv h =>
      obtain ⟨j, hj⟩ := ih ⟨_, h⟩
      exact ⟨_, .hole hy hv hj⟩
  | hit _ ih =>
    obtain ⟨k, h⟩ := h
    obtain ⟨i, j, vs, ws, rfl, hi, hj⟩ := h.append_inv
    obtain ⟨k, hk⟩ := ih ⟨_, hj⟩
    exact ⟨_, .hole hx hi hk⟩

/-! ## The names that a document leads to -/

/-- A hole of the name is in the document, or in a value that it leads to. -/
inductive Calls (d : ν → Option (Document ν τ)) (ps : Document ν τ) : ν → Prop
  | here {x} : x ∈ holes ps → Calls d ps x
  | there {x y v} : Calls d ps x → d x = some v → y ∈ holes v → Calls d ps y

open Classical in
/-- The values of the names that the document leads to. -/
noncomputable def called (d : ν → Option (Document ν τ)) (ps : Document ν τ) (x : ν) :
    Option (Document ν τ) :=
  if Calls d ps x then d x else none

theorem called_of_calls {ps : Document ν τ} {x : ν} (h : Calls d ps x) : called d ps x = d x :=
  if_pos h

theorem of_called {ps v : Document ν τ} {x : ν} (h : called d ps x = some v) :
    Calls d ps x ∧ d x = some v := by
  unfold called at h
  split_ifs at h with hx
  exact ⟨hx, h⟩

/-- A document expands if the names that it leads to have no cycle, once those
of them that lack a value are given the empty one. -/
theorem exists_expands_called (hfin : {x | (d x).isSome}.Finite) {ps : Document ν τ}
    (hacyc : ∀ x, Calls d ps x → ¬ Relation.TransGen (Mentions d) x x) :
    ∃ d' : ν → Option (Document ν τ),
      (∀ x v, Calls d ps x → d x = some v → d' x = some v) ∧ ∃ qs, Expands d' ps qs := by
  have hfin' : {x | (called d ps x).isSome}.Finite := by
    refine hfin.subset fun x hx => ?_
    obtain ⟨v, hv⟩ := Option.isSome_iff_exists.mp hx
    exact Option.isSome_iff_exists.mpr ⟨v, (of_called hv).2⟩
  have hmentions : ∀ x y, Mentions (called d ps) x y → Calls d ps x ∧ Mentions d x y := by
    rintro x y ⟨v, hv, hy⟩
    exact ⟨(of_called hv).1, v, (of_called hv).2, hy⟩
  have hacyc' : Acyclic (called d ps) := by
    intro x hx
    have hcalls : Calls d ps x := by
      obtain ⟨y, hy, _⟩ := Relation.TransGen.head'_iff.mp hx
      exact (hmentions x y hy).1
    exact hacyc x hcalls (Relation.TransGen.mono (fun x y h => (hmentions x y h).2) x x hx)
  obtain ⟨d', hmore, hexpands⟩ := exists_expands_padded hfin' hacyc' ps
  exact ⟨d', fun x v hx hv => hmore x v ((called_of_calls hx).trans hv), hexpands⟩

end MpiBugs.Expansion
