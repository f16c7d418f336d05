import Mathlib.Algebra.Order.Round
import Mathlib.Data.Rat.Floor
import Mathlib.Tactic.Linarith
import Mathlib.Tactic.FieldSimp
import Mathlib.Tactic.Positivity

/-!
# Rounding half to even

Rounding to integers and to a number of decimal digits, over any ordered field
with a floor.

* `le_roundEven_iff`, `roundEven_le_iff`: between which bounds a number lies that
  rounds to a given integer, and which of the bounds themselves do;
* `roundEven_sub`: rounding what is missing to an even integer.
-/

namespace MpiBugs.Rounding

variable {K : Type*} [Field K] [LinearOrder K] [FloorRing K]

/-- The nearest integer, the even one of two. -/
def roundEven (x : K) : ℤ :=
  if 2 * x < 2 * ⌊x⌋ + 1 ∨ 2 * x = 2 * ⌊x⌋ + 1 ∧ Even ⌊x⌋ then ⌊x⌋ else ⌊x⌋ + 1

/-- The nearest number with `n` digits after the point. -/
def roundTo (x : K) (n : ℕ) : K := roundEven (x * 10 ^ n) / 10 ^ n

/-- Rounding towards zero. -/
def trunc (x : K) : ℤ := if 0 ≤ x then ⌊x⌋ else ⌈x⌉

variable [IsStrictOrderedRing K]

theorem le_roundEven_iff (k : ℤ) (x : K) :
    k ≤ roundEven x ↔ 2 * (k : K) - 1 < 2 * x ∨ 2 * x = 2 * k - 1 ∧ Even k := by
  have hlow := Int.floor_le x
  have hhigh := Int.lt_floor_add_one x
  unfold roundEven
  generalize ⌊x⌋ = f at hlow hhigh
  have hcast : ∀ m n : ℤ, m ≤ n → (m : K) ≤ n := fun m n h => by exact_mod_cast h
  rcases lt_trichotomy k (f + 1) with hk | rfl | hk
  · -- both candidates are large enough
    have hkf := hcast k f (by omega)
    refine iff_of_true ?_ (Or.inl (by linarith))
    split <;> omega
  · have hparity : Even (f + 1) ↔ ¬ Even f := Int.even_add_one
    split_ifs with h
    · refine iff_of_false (by omega) ?_
      rw [hparity]
      push_cast
      rintro (hlt | ⟨heq, hodd⟩)
      · rcases h with h | h <;> linarith
      · rcases h with h | h
        · linarith
        · exact hodd h.2
    · rw [not_or, not_lt, not_and] at h
      refine iff_of_true le_rfl ?_
      push_cast
      rcases h.1.lt_or_eq with hlt | heq
      · exact Or.inl (by linarith)
      · exact Or.inr ⟨by linarith, hparity.mpr (h.2 heq.symm)⟩
  · have hkf := hcast (f + 2) k (by omega)
    push_cast at hkf
    refine iff_of_false (by split <;> omega) ?_
    rintro (hlt | ⟨heq, _⟩) <;> linarith

theorem roundEven_le_iff (k : ℤ) (x : K) :
    roundEven x ≤ k ↔ 2 * x < 2 * (k : K) + 1 ∨ 2 * x = 2 * k + 1 ∧ Even k := by
  rw [← not_lt, ← Int.add_one_le_iff, le_roundEven_iff]
  push_cast
  rw [not_or, not_lt, not_and, Int.even_add_one, not_not]
  constructor
  · rintro ⟨hle, heven⟩
    rcases hle.lt_or_eq with hlt | heq
    · exact Or.inl (by linarith)
    · exact Or.inr ⟨by linarith, heven (by linarith)⟩
  · rintro (hlt | ⟨heq, heven⟩)
    · exact ⟨by linarith, fun h => by linarith⟩
    · exact ⟨by linarith, fun _ => heven⟩

@[simp] theorem roundEven_intCast (k : ℤ) : roundEven (k : K) = k :=
  le_antisymm ((roundEven_le_iff k _).mpr (Or.inl (by linarith)))
    ((le_roundEven_iff k _).mpr (Or.inl (by linarith)))

theorem roundEven_mono {x y : K} (h : x ≤ y) : roundEven x ≤ roundEven y := by
  rw [le_roundEven_iff]
  rcases (le_roundEven_iff (roundEven x) x).mp le_rfl with hlt | ⟨heq, heven⟩
  · exact Or.inl (by linarith)
  · rcases h.lt_or_eq with hlt | rfl
    · exact Or.inl (by linarith)
    · exact Or.inr ⟨heq, heven⟩

/-- **Ties go to the even side from both ends.** -/
theorem roundEven_sub {k : ℤ} (hk : Even k) (x : K) : roundEven (k - x) = k - roundEven x := by
  apply le_antisymm
  · rw [roundEven_le_iff]
    push_cast
    rcases (le_roundEven_iff (roundEven x) x).mp le_rfl with hlt | ⟨heq, heven⟩
    · exact Or.inl (by linarith)
    · exact Or.inr ⟨by linarith, hk.sub heven⟩
  · rw [le_roundEven_iff]
    push_cast
    rcases (roundEven_le_iff (roundEven x) x).mp le_rfl with hlt | ⟨heq, heven⟩
    · exact Or.inl (by linarith)
    · exact Or.inr ⟨by linarith, hk.sub heven⟩

/-- A number with few digits is its own rounding. -/
@[simp] theorem roundTo_self (k : ℤ) (n : ℕ) : roundTo ((k : K) / 10 ^ n) n = k / 10 ^ n := by
  have hpow : (10 : K) ^ n ≠ 0 := by positivity
  rw [roundTo, div_mul_cancel₀ _ hpow, roundEven_intCast]

/-- `n` hundreds and something, all above zero. -/
theorem trunc_eq_iff {x : K} {n : ℤ} (hn : 0 < n) : trunc x = n ↔ (n : K) ≤ x ∧ x < n + 1 := by
  have hcast : (0 : K) < n := by exact_mod_cast hn
  unfold trunc
  split_ifs with hx
  · exact Int.floor_eq_iff
  · rw [not_le] at hx
    refine iff_of_false ?_ (fun h => by linarith [h.1])
    intro h
    have hceil : ⌈x⌉ ≤ 0 := Int.ceil_le.mpr (by exact_mod_cast hx.le)
    omega

end MpiBugs.Rounding
