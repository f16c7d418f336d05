import Mathlib.Data.Nat.ModEq
import Mathlib.Order.Basic
import Mathlib.Tactic.Common

/-!
# Rows in sections, with a header every so many rows

A loop over the keys of sorted rows opens a section whenever the key changes,
and writes the header again on every `m`-th row. The state it carries is the
key of the last section and the rows since the last header; where both fall
together the header wins.

* `count_changes`: on sorted keys, one section per key is called for;
* `inPlace_iff`: every row comes under the section of its own key iff no key
  but the last has a multiple of `m` rows.
-/

namespace MpiBugs.Sections

structure State (κ : Type) where
  previous : Option κ
  count : Nat
  deriving DecidableEq, Repr

section

variable {κ : Type} [DecidableEq κ]

/-- The state in which the row of `k` is written. -/
def advance (m : Nat) (s : State κ) (k : κ) : State κ :=
  if s.previous ≠ some k ∨ s.count + 1 = m then
    ⟨if s.count + 1 ≠ m then some k else s.previous, 0⟩
  else ⟨s.previous, s.count + 1⟩

/-- Every row is written under the section of its own key. -/
def InPlace (m : Nat) : State κ → List κ → Prop
  | _, [] => True
  | s, k :: ks => (advance m s k).previous = some k ∧ InPlace m (advance m s k) ks

/-- The keys at which the key changes. -/
def changes : Option κ → List κ → List κ
  | _, [] => []
  | p, k :: ks => if p = some k then changes p ks else k :: changes (some k) ks

theorem advance_other {m : Nat} {s : State κ} {k : κ} (h : s.previous ≠ some k) :
    advance m s k = ⟨if s.count + 1 ≠ m then some k else s.previous, 0⟩ :=
  if_pos (Or.inl h)

/-- A new section is opened unless a header is due. -/
theorem advance_previous_iff {m : Nat} {s : State κ} {k : κ} (h : s.previous ≠ some k) :
    (advance m s k).previous = some k ↔ s.count + 1 ≠ m := by
  rw [advance_other h]
  by_cases hm : s.count + 1 = m
  · simp [hm, h]
  · simp [hm]

theorem succ_mod (i : Nat) {m : Nat} (hm : 2 ≤ m) :
    (i + 1) % m = if i % m + 1 = m then 0 else i % m + 1 := by
  have hlt : i % m < m := Nat.mod_lt _ (by omega)
  have hmod : (i + 1) % m = (i % m + 1) % m := (Nat.mod_add_mod i m 1).symm
  split
  · next h => rw [hmod, h, Nat.mod_self]
  · next h => rw [hmod, Nat.mod_eq_of_lt (by omega)]

/-- The counter goes round within a section. -/
theorem advance_mod {m : Nat} (hm : 2 ≤ m) (p : κ) (i : Nat) :
    advance m ⟨some p, i % m⟩ p = ⟨some p, (i + 1) % m⟩ := by
  rw [succ_mod i hm, advance]
  by_cases h : i % m + 1 = m
  · simp [h]
  · simp [h]

theorem header_due_iff (i : Nat) {m : Nat} (hm : 2 ≤ m) : i % m + 1 = m ↔ m ∣ i + 1 := by
  rw [Nat.dvd_iff_mod_eq_zero, succ_mod i hm]
  split
  · next h => simp [h]
  · next h => simp [h]

end

variable {κ : Type} [LinearOrder κ]

private theorem count_changes_some {ks : List κ} {p : κ} (hks : (p :: ks).Pairwise (· ≤ ·))
    (k : κ) : (changes (some p) ks).count k = if p < k ∧ k ∈ ks then 1 else 0 := by
  induction ks generalizing p with
  | nil => simp [changes]
  | cons q ks ih =>
    obtain ⟨hp, hks⟩ := List.pairwise_cons.mp hks
    by_cases hpq : p = q
    · rw [changes, if_pos (congrArg some hpq), hpq, ih hks]
      refine if_congr (and_congr_right fun hlt => ?_) rfl rfl
      simp [ne_of_gt hlt]
    · have hlt : p < q := lt_of_le_of_ne (hp q (List.mem_cons_self ..)) hpq
      rw [changes, if_neg (by simpa using hpq), List.count_cons, ih hks]
      by_cases hqk : q = k
      · simp [← hqk, hlt]
      · have hiff : (q < k ∧ k ∈ ks) ↔ (p < k ∧ k ∈ q :: ks) := by
          have hk : k ∈ ks → q < k :=
            fun hk => lt_of_le_of_ne ((List.pairwise_cons.mp hks).1 k hk) hqk
          rw [List.mem_cons, or_iff_right (Ne.symm hqk)]
          exact ⟨fun h => ⟨lt_trans hlt h.1, h.2⟩, fun h => ⟨hk h.2, h.2⟩⟩
        rw [if_congr hiff rfl rfl, beq_false_of_ne hqk]
        rfl

/-- **Sorted keys change to each key once.** -/
theorem count_changes {ks : List κ} (hks : ks.Pairwise (· ≤ ·)) (k : κ) :
    (changes none ks).count k = if k ∈ ks then 1 else 0 := by
  cases ks with
  | nil => simp [changes]
  | cons q ks =>
    rw [changes, if_neg (by simp), List.count_cons, count_changes_some hks]
    by_cases hqk : q = k
    · simp [← hqk]
    · have hiff : (q < k ∧ k ∈ ks) ↔ k ∈ q :: ks := by
        have hk : k ∈ ks → q < k :=
          fun hk => lt_of_le_of_ne ((List.pairwise_cons.mp hks).1 k hk) hqk
        rw [List.mem_cons, or_iff_right (Ne.symm hqk)]
        exact ⟨And.right, fun h => ⟨hk h, h⟩⟩
      rw [if_congr hiff rfl rfl, beq_false_of_ne hqk]
      rfl

/-- The rows of `k`, if others follow them, do not come out at a multiple of `m`. -/
def Uneven (m : Nat) (ks : List κ) (k : κ) : Prop := (∃ k' ∈ ks, k < k') → ¬ m ∣ ks.count k

theorem exists_later_cons {ks : List κ} {q k : κ} (h : q ≤ k) :
    (∃ k' ∈ q :: ks, k < k') ↔ ∃ k' ∈ ks, k < k' := by
  simp [not_lt.mpr h]

theorem uneven_cons {m : Nat} {ks : List κ} {q k : κ} (h : q < k) :
    Uneven m (q :: ks) k ↔ Uneven m ks k := by
  rw [Uneven, Uneven, exists_later_cons (le_of_lt h), List.count_cons_of_ne (ne_of_lt h)]

theorem uneven_cons_self {m : Nat} {ks : List κ} {q : κ} :
    Uneven m (q :: ks) q ↔ ((∃ k ∈ ks, q < k) → ¬ m ∣ 0 + 1 + ks.count q) := by
  rw [Uneven, exists_later_cons (le_refl q), List.count_cons_self, Nat.zero_add, Nat.add_comm]

/-- The first key and the ones after it. -/
theorem uneven_all_cons {m : Nat} {ks : List κ} {q : κ} (hks : (q :: ks).Pairwise (· ≤ ·)) :
    (∀ k ∈ q :: ks, Uneven m (q :: ks) k) ↔
      Uneven m (q :: ks) q ∧ ∀ k ∈ ks, q < k → Uneven m ks k := by
  rw [List.forall_mem_cons]
  refine and_congr_right fun hq => forall₂_congr fun k hk => ?_
  rcases eq_or_lt_of_le ((List.pairwise_cons.mp hks).1 k hk) with rfl | hlt
  · simp [hq]
  · simp [hlt, uneven_cons hlt]

/-- From a section of `p` with `i + 1` rows so far. -/
private theorem inPlace_some_iff {m : Nat} (hm : 2 ≤ m) {ks : List κ} {p : κ} (i : Nat)
    (hks : (p :: ks).Pairwise (· ≤ ·)) :
    InPlace m ⟨some p, i % m⟩ ks ↔ ((∃ k ∈ ks, p < k) → ¬ m ∣ i + 1 + ks.count p) ∧
      ∀ k ∈ ks, p < k → Uneven m ks k := by
  induction ks generalizing p i with
  | nil => simp [InPlace]
  | cons q ks ih =>
    obtain ⟨hp, hks⟩ := List.pairwise_cons.mp hks
    by_cases hpq : p = q
    · -- one more row of the section
      rw [hpq, InPlace, advance_mod hm, ih (i + 1) hks, exists_later_cons (le_refl q),
        List.count_cons_self, List.forall_mem_cons]
      have hcount : i + 1 + (ks.count q + 1) = i + 1 + 1 + ks.count q := by omega
      have hrest : (∀ k ∈ ks, q < k → Uneven m (q :: ks) k) ↔ ∀ k ∈ ks, q < k → Uneven m ks k :=
        forall₃_congr fun k _ hk => uneven_cons hk
      rw [hcount, hrest]
      simp
    · -- the first row of the next one
      have hlt : p < q := lt_of_le_of_ne (hp q (List.mem_cons_self ..)) hpq
      have hprev : (State.mk (some p) (i % m)).previous ≠ some q := by simpa using hpq
      have hnot : p ∉ q :: ks := by
        intro h
        rcases List.mem_cons.mp h with h | h
        · exact hpq h
        · exact absurd ((List.pairwise_cons.mp hks).1 p h) (not_le.mpr hlt)
      have hlater : ∃ k ∈ q :: ks, p < k := ⟨q, List.mem_cons_self .., hlt⟩
      have hall : (∀ k ∈ q :: ks, p < k → Uneven m (q :: ks) k) ↔
          ∀ k ∈ q :: ks, Uneven m (q :: ks) k :=
        forall₂_congr fun k hk => forall_prop_of_true
          (lt_of_le_of_ne (hp k hk) fun h => hnot (h ▸ hk))
      rw [InPlace, advance_previous_iff hprev, advance_other hprev, List.count_eq_zero_of_not_mem hnot,
        Nat.add_zero, hall, uneven_all_cons hks, uneven_cons_self, ← ih 0 hks]
      show i % m + 1 ≠ m ∧ InPlace m ⟨if i % m + 1 ≠ m then some q else some p, 0⟩ ks ↔ _
      rw [imp_iff_right hlater, ← header_due_iff i hm]
      by_cases hdue : i % m + 1 = m
      · simp [hdue]
      · simp [hdue, Nat.zero_mod]

/-- **Every row is in place iff no key but the last has a multiple of `m` rows.** -/
theorem inPlace_iff {m : Nat} (hm : 2 ≤ m) {ks : List κ} (hks : ks.Pairwise (· ≤ ·)) :
    InPlace m ⟨none, 0⟩ ks ↔ ∀ k ∈ ks, Uneven m ks k := by
  cases ks with
  | nil => simp [InPlace]
  | cons q ks =>
    have hfirst : advance m ⟨none, 0⟩ q = ⟨some q, 0 % m⟩ := by
      rw [advance_other (by simp), if_pos (by simp only; omega), Nat.zero_mod]
    rw [InPlace, hfirst, inPlace_some_iff hm 0 hks, uneven_all_cons hks, uneven_cons_self]
    simp

end MpiBugs.Sections
