import MpiBugs.Rounding
import MpiBugs.Batch

/-!
# Percentages and scores

`percent` of `MBI.py` over exact rationals, and the values it deals with: a score
is a number, or one of the texts `1`, `100` and `(error)`.

* `percent_one`: a score out of one in terms of ten-thousandths;
* `percent_one_isNumber_iff`: the scores that are numbers;
* `percent_faithful`: percentages of a part are monotone, between 0 and 100, and
  agree with the complementary ones and the scores.
-/

namespace MpiBugs.Percent

open Rounding Batch

/-- What the tables deal with. -/
inductive Value
  | int (n : ℤ)
  | float (q : ℚ)
  | str (t : Text)
  deriving DecidableEq, Repr

/-- What goes wrong with a text where a number is expected. -/
inductive ScoreError
  | TypeError
  | ValueError
  deriving DecidableEq, Repr

def Value.number : Value → Option ℚ
  | int n => some n
  | float q => some q
  | str _ => none

/-- `v > w` -/
def Value.gt : Value → Value → Except ScoreError Bool
  | .str s, .str t => .ok (decide (t < s))
  | v, w =>
    match v.number, w.number with
    | some p, some q => .ok (decide (q < p))
    | _, _ => .error .TypeError

/-- `float(v)`, where the only texts are those of `percent`. -/
def Value.toFloat : Value → Except ScoreError ℚ
  | int n => .ok n
  | float q => .ok q
  | str t => if t.all isDigit && !t.isEmpty then .ok (Batch.int t) else .error .ValueError

def errorText : Text := "(error)".toList

def percent (num den : ℚ) (compl one : Bool) : Value :=
  if den = 0 then .str errorText
  else
    let res := if compl then roundTo (100 - num / den * 100) 2 else roundTo (num / den * 100) 2
    if trunc res = 100 then .str (if one then "1".toList else "100".toList)
    else .float (if one then roundTo (res / 100) 4 else res)

/-- The ten-thousandths of a ratio. -/
def tenThousandths (x : ℚ) : ℤ := roundEven (x * 10000)

theorem roundTo_percent (x : ℚ) : roundTo (x * 100) 2 = (tenThousandths x : ℚ) / 100 := by
  have hscale : x * 100 * 10 ^ 2 = x * 10000 := by ring
  rw [roundTo, hscale, tenThousandths]
  norm_num

/-- A percentage from 100 to 101 counts as 100. -/
theorem trunc_hundredths (a : ℤ) : trunc ((a : ℚ) / 100) = 100 ↔ 10000 ≤ a ∧ a < 10100 := by
  rw [trunc_eq_iff (by omega), le_div_iff₀ (by norm_num), div_lt_iff₀ (by norm_num)]
  norm_num
  norm_cast

/-- **A score out of one.**  Everything from 1 to 1.01 is written as 1. -/
theorem percent_one {num den : ℚ} (hden : den ≠ 0) :
    percent num den false true =
      if 10000 ≤ tenThousandths (num / den) ∧ tenThousandths (num / den) < 10100
      then .str "1".toList else .float (tenThousandths (num / den) / 10000) := by
  simp only [percent, hden, roundTo_percent, trunc_hundredths, ↓reduceIte, Bool.false_eq_true]
  generalize tenThousandths (num / den) = a
  have hself : roundTo ((a : ℚ) / 100 / 100) 4 = a / 10000 := by
    have hdigits : (a : ℚ) / 100 / 100 = a / 10 ^ 4 := by ring
    rw [hdigits, roundTo_self]
    norm_num
  rw [hself]

/-- **A percentage.** -/
theorem percent_hundred {num den : ℚ} (hden : den ≠ 0) :
    percent num den false false =
      if 10000 ≤ tenThousandths (num / den) ∧ tenThousandths (num / den) < 10100
      then .str "100".toList else .float (tenThousandths (num / den) / 100) := by
  simp only [percent, hden, roundTo_percent, trunc_hundredths, ↓reduceIte, Bool.false_eq_true]

/-- The complementary ratio. -/
theorem percent_compl (num den : ℚ) (one : Bool) :
    percent num den true one = percent (den - num) den false one := by
  by_cases hden : den = 0
  · simp [percent, hden]
  · have hratio : 100 - num / den * 100 = (den - num) / den * 100 := by
      field_simp
    simp only [percent, hden, hratio, ↓reduceIte, Bool.false_eq_true]

def Value.isNumber (v : Value) : Bool := v.number.isSome

theorem percent_one_isNumber_iff (num den : ℚ) :
    (percent num den false true).isNumber = true ↔
      den ≠ 0 ∧ ¬ (10000 ≤ tenThousandths (num / den) ∧ tenThousandths (num / den) < 10100) := by
  by_cases hden : den = 0
  · simp [percent, hden, Value.isNumber, Value.number]
  · rw [percent_one hden]
    split_ifs with h <;> simp [hden, h, Value.isNumber, Value.number]

/-- Where there is a score it can be read as a number. -/
theorem toFloat_percent (num : ℚ) {den : ℚ} (hden : den ≠ 0) (compl : Bool) :
    ∃ q, (percent num den compl true).toFloat = .ok q := by
  unfold percent
  rw [if_neg hden]
  generalize (if compl = true then roundTo (100 - num / den * 100) 2
    else roundTo (num / den * 100) 2) = res
  dsimp only
  by_cases hres : trunc res = 100
  · have hone : (Value.str "1".toList).toFloat = .ok 1 := by decide +kernel
    rw [if_pos hres]
    exact ⟨1, hone⟩
  · rw [if_neg hres]
    exact ⟨_, rfl⟩

/-- Numbers can be compared. -/
theorem gt_of_numbers {v w : Value} (hv : v.isNumber = true) (hw : w.isNumber = true) :
    ∃ b, v.gt w = .ok b := by
  cases w with
  | str t => cases hw
  | int n =>
    cases v with
    | str t => cases hv
    | int m => exact ⟨_, rfl⟩
    | float p => exact ⟨_, rfl⟩
  | float q =>
    cases v with
    | str t => cases hv
    | int m => exact ⟨_, rfl⟩
    | float p => exact ⟨_, rfl⟩

/-- A text and a number cannot. -/
theorem gt_of_text {v w : Value} (hv : v.isNumber = false) (hw : w.isNumber = true) :
    v.gt w = .error .TypeError := by
  cases v with
  | int m => cases hv
  | float p => cases hv
  | str s =>
    cases w with
    | str t => cases hw
    | int n => rfl
    | float q => rfl

/-! ## Percentages of a part -/

theorem tenThousandths_mono {x y : ℚ} (h : x ≤ y) : tenThousandths x ≤ tenThousandths y :=
  roundEven_mono (by linarith)

theorem tenThousandths_compl (x : ℚ) : tenThousandths (1 - x) = 10000 - tenThousandths x := by
  have hscale : (1 - x) * 10000 = ((10000 : ℤ) : ℚ) - x * 10000 := by
    push_cast
    ring
  rw [tenThousandths, hscale, roundEven_sub (by decide), tenThousandths]

theorem tenThousandths_bounds {x : ℚ} (h0 : 0 ≤ x) (h1 : x ≤ 1) :
    0 ≤ tenThousandths x ∧ tenThousandths x ≤ 10000 := by
  have hzero : tenThousandths 0 = 0 := by
    rw [tenThousandths, zero_mul, ← Int.cast_zero, roundEven_intCast]
  have hone : tenThousandths 1 = 10000 := by
    rw [← sub_zero (1 : ℚ), tenThousandths_compl, hzero]
    rfl
  have hlow := tenThousandths_mono h0
  have hhigh := tenThousandths_mono h1
  omega

/-- **What a percentage and a score denote**, the texts included. -/
theorem toFloat_of_part {num den : ℚ} (hden : 0 < den) (h0 : 0 ≤ num) (hle : num ≤ den) :
    (percent num den false false).toFloat = .ok (tenThousandths (num / den) / 100) ∧
      (percent num den false true).toFloat = .ok (tenThousandths (num / den) / 10000) := by
  have hratio : num / den ≤ 1 := (div_le_one hden).mpr hle
  obtain ⟨-, hhigh⟩ := tenThousandths_bounds (div_nonneg h0 hden.le) hratio
  rw [percent_hundred hden.ne', percent_one hden.ne']
  generalize tenThousandths (num / den) = a at hhigh
  by_cases hfull : 10000 ≤ a
  · -- only the whole is written as a text
    obtain rfl : a = 10000 := by omega
    have hhundred : (Value.str "100".toList).toFloat = .ok 100 := by decide +kernel
    have hone : (Value.str "1".toList).toFloat = .ok 1 := by decide +kernel
    rw [if_pos (by omega), if_pos (by omega), hhundred, hone]
    norm_num
  · rw [if_neg (by omega), if_neg (by omega)]
    exact ⟨rfl, rfl⟩

/-- What the complementary ones denote. -/
theorem toFloat_of_rest {num den : ℚ} (hden : 0 < den) (h0 : 0 ≤ num) (hle : num ≤ den) :
    (percent num den true false).toFloat = .ok (100 - tenThousandths (num / den) / 100) ∧
      (percent num den true true).toFloat =
        .ok ((100 - tenThousandths (num / den) / 100) / 100) := by
  have hcompl : (den - num) / den = 1 - num / den := by
    field_simp
  obtain ⟨hhundred, hone⟩ :=
    @toFloat_of_part (den - num) den hden (sub_nonneg.mpr hle) (sub_le_self den h0)
  rw [hcompl, tenThousandths_compl, ← percent_compl] at hhundred hone
  rw [hhundred, hone]
  push_cast
  constructor
  · congr 1
    ring
  · congr 1
    ring

/-- **A percentage is a faithful ratio.** -/
theorem percent_faithful {num den : ℤ} (hden : 0 < den) (h0 : 0 ≤ num) (hle : num ≤ den) :
    ∃ q, (percent num den false false).toFloat = .ok q ∧ 0 ≤ q ∧ q ≤ 100 ∧
      (∀ num' : ℤ, num ≤ num' → num' ≤ den →
        ∃ q', (percent num' den false false).toFloat = .ok q' ∧ q ≤ q') ∧
      (percent num den true false).toFloat = .ok (100 - q) ∧
      (percent num den false true).toFloat = .ok (q / 100) ∧
      (percent num den true true).toFloat = .ok ((100 - q) / 100) := by
  have hden' : (0 : ℚ) < den := by exact_mod_cast hden
  have h0' : (0 : ℚ) ≤ num := by exact_mod_cast h0
  have hle' : (num : ℚ) ≤ den := by exact_mod_cast hle
  obtain ⟨hhundred, hone⟩ := toFloat_of_part hden' h0' hle'
  obtain ⟨hrest, hrestOne⟩ := toFloat_of_rest hden' h0' hle'
  have hbounds := tenThousandths_bounds (div_nonneg h0' hden'.le) ((div_le_one hden').mpr hle')
  have hlow : (0 : ℚ) ≤ tenThousandths (num / den) := by exact_mod_cast hbounds.1
  have hhigh : (tenThousandths (num / den) : ℚ) ≤ 10000 := by exact_mod_cast hbounds.2
  refine ⟨_, hhundred, by positivity, by linarith, ?_, hrest, ?_, hrestOne⟩
  · intro num' hnum hle
    have hnum' : (num : ℚ) ≤ num' := by exact_mod_cast hnum
    have hle' : (num' : ℚ) ≤ den := by exact_mod_cast hle
    refine ⟨_, (toFloat_of_part hden' (h0'.trans hnum') hle').1, ?_⟩
    have hmono : tenThousandths (num / den) ≤ tenThousandths (num' / den) :=
      tenThousandths_mono (div_le_div_of_nonneg_right hnum' hden'.le)
    have hcast : (tenThousandths (num / den) : ℚ) ≤ tenThousandths (num' / den) := by
      exact_mod_cast hmono
    linarith
  · rw [hone]
    congr 1
    ring

/-- A third, and the whole of three. -/
theorem percent_faithful_three :
    (∃ q, (percent (1 : ℤ) (3 : ℤ) false false).toFloat = .ok q ∧
      (percent (1 : ℤ) (3 : ℤ) true false).toFloat = .ok (100 - q)) ∧
      ∃ q, (percent (3 : ℤ) (3 : ℤ) false false).toFloat = .ok q ∧ q ≤ 100 := by
  obtain ⟨q, hq, -, -, -, hcompl, -, -⟩ := @percent_faithful 1 3 (by decide) (by decide) (by decide)
  obtain ⟨q', hq', -, hle, -, -, -, -⟩ := @percent_faithful 3 3 (by decide) (by decide) (by decide)
  exact ⟨⟨q, hq, hcompl⟩, ⟨q', hq', hle⟩⟩

end MpiBugs.Percent
