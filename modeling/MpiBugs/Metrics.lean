import MpiBugs.Categorize
import MpiBugs.Percent

/-!
# The metrics of the tables

The scores `cmd_latex` writes in `results-summary.tex` and `results-metrics.tex`,
and its search for the best of them, for the numbers of results a tool has in
each category.

* `f1_right_iff`: the results for which the F1 score that is printed is that of
  the README;
* `search_completes_iff`: the lists of results over which the search for the best
  scores completes.
-/

namespace MpiBugs.Metrics

open Rounding Percent Categorize

/-- The number of tests in each result category of `results['total'][toolname]`. -/
abbrev Counts := ResCategory → ℕ

namespace Counts

variable (c : Counts)

def TP : ℕ := c .TRUE_POS
def TN : ℕ := c .TRUE_NEG
def FP : ℕ := c .FALSE_POS
def FN : ℕ := c .FALSE_NEG
def port : ℕ := c .unimplemented
def fail : ℕ := c .failure
def othr : ℕ := c .other
def tout : ℕ := c .timeout

def total : ℕ := c.TP + c.TN + c.FP + c.FN + c.port + c.fail + c.othr + c.tout

end Counts

/-! ## The scores -/

section

variable (c : Counts)

def coverage : Value := percent c.port c.total true true

def completion : Value := percent (c.port + c.fail + c.othr + c.tout : ℕ) c.total true true

def specificity : Value := percent c.TN (c.TN + c.FP : ℕ) false true

def «recall» : Value := percent c.TP (c.TP + c.FN : ℕ) false true

def precision : Value := percent c.TP (c.TP + c.FP : ℕ) false true

/-- `percent(2*precision*recall,(precision+recall),one=True)`, from the precision
and recall that are recomputed without rounding. -/
def F1 : Value :=
  let precision : ℚ := c.TN / (c.TP + c.FP : ℕ)
  let «recall» : ℚ := c.TP / (c.TP + c.FN : ℕ)
  percent (2 * precision * «recall») (precision + «recall») false true

def accuracy : Value := percent (c.TP + c.TN : ℕ) c.total false true

/-- The F1 entry of both tables. -/
def F1Entry : Value := if c.TP + c.FP > 0 ∧ c.TP + c.FN > 0 then F1 c else .str errorText

end

/-- A line of `results-metrics.tex`. -/
structure MetricsRow where
  coverage : Value
  completion : Value
  specificity : Value
  «recall» : Value
  precision : Value
  F1 : Value
  accuracy : Value
  deriving DecidableEq, Repr

def metricsRow (c : Counts) : MetricsRow :=
  ⟨coverage c, completion c, specificity c, «recall» c, precision c, F1Entry c, accuracy c⟩

/-! ## The best scores -/

structure Best where
  TP : Value
  TN : Value
  FP : Value
  FN : Value
  coverage : Value
  completion : Value
  specificity : Value
  «recall» : Value
  precision : Value
  F1 : Value
  accuracy : Value
  deriving DecidableEq, Repr

def Best.initial : Best :=
  ⟨.int 0, .int 0, .int 999999, .int 9999999, .int 0, .int 0, .int 0, .int 0, .int 0, .int 0,
   .int 0⟩

/-- `if new > best: best = new` -/
def higher (best new : Value) : Except ScoreError Value := do
  if ← new.gt best then return new else return best

/-- `if new < best: best = new` -/
def lower (best new : Value) : Except ScoreError Value := do
  if ← best.gt new then return new else return best

/-- The same as `higher`, for a score that is converted first. -/
def higherFloat (best new : Value) : Except ScoreError Value := do
  higher best (.float (← new.toFloat))

/-- The tools that are considered as a best score. -/
def Considered (c : Counts) : Prop := c.TN + c.FP ≠ 0 ∧ c.TP + c.FN ≠ 0 ∧ c.TP + c.FP ≠ 0

instance (c : Counts) : Decidable (Considered c) := inferInstanceAs (Decidable (_ ∧ _))

/-- What the search does with the numbers of results. -/
def bestCounts (best : Best) (c : Counts) : Except ScoreError Best := do
  let TP ← higher best.TP (.int c.TP)
  let TN ← higher best.TN (.int c.TN)
  let FP ← lower best.FP (.int c.FP)
  let FN ← lower best.FN (.int c.FN)
  return { best with TP := TP, TN := TN, FP := FP, FN := FN }

/-- What it does with the scores. -/
def bestRatios (best : Best) (c : Counts) : Except ScoreError Best := do
  let coverage ← higherFloat best.coverage (coverage c)
  let completion ← higherFloat best.completion (completion c)
  let specificity ← higherFloat best.specificity (specificity c)
  let «recall» ← higherFloat best.recall («recall» c)
  let precision ← higherFloat best.precision (precision c)
  let F1 ← higher best.F1 (F1 c)
  let accuracy ← higher best.accuracy (accuracy c)
  return { best with
    coverage := coverage, completion := completion, specificity := specificity,
    «recall» := «recall», precision := precision, F1 := F1, accuracy := accuracy }

/-- One tool in the search for the best values. -/
def bestStep (best : Best) (c : Counts) : Except ScoreError Best := do
  let best ← bestCounts best c
  if Considered c then bestRatios best c else return best

/-- `if best[key] == 1.0: best[key] = "1"` -/
def clean (v : Value) : Value := if v.number = some 1 then .str "1".toList else v

def Best.clean (b : Best) : Best :=
  ⟨Metrics.clean b.TP, Metrics.clean b.TN, Metrics.clean b.FP, Metrics.clean b.FN,
   Metrics.clean b.coverage, Metrics.clean b.completion, Metrics.clean b.specificity,
   Metrics.clean b.recall, Metrics.clean b.precision, Metrics.clean b.F1,
   Metrics.clean b.accuracy⟩

/-- The best values, over the tools in their order. -/
def bestSearch (cs : List Counts) : Except ScoreError Best := do
  return (← cs.foldlM bestStep .initial).clean

/-- An entry of `results-summary.tex`, with the value at which it is in bold. -/
structure Cell where
  val : Value
  target : Option Value
  deriving DecidableEq, Repr

/-- A line of `results-summary.tex`. -/
structure SummaryRow where
  port : Cell
  tout : Cell
  fail : Cell
  TP : Cell
  TN : Cell
  FP : Cell
  FN : Cell
  coverage : Cell
  completion : Cell
  specificity : Cell
  «recall» : Cell
  precision : Cell
  F1 : Cell
  accuracy : Cell
  deriving DecidableEq, Repr

def summaryRow (best : Best) (c : Counts) : SummaryRow where
  port := ⟨.int c.port, some (.int 0)⟩
  tout := ⟨.int c.tout, some (.int 0)⟩
  fail := ⟨.int (c.fail + c.othr : ℕ), some (.int 0)⟩
  TP := ⟨.int c.TP, some best.TP⟩
  TN := ⟨.int c.TN, some best.TN⟩
  FP := ⟨.int c.FP, some best.FP⟩
  FN := ⟨.int c.FN, some best.FN⟩
  coverage := ⟨coverage c, some best.coverage⟩
  completion := ⟨completion c, some best.completion⟩
  specificity := ⟨specificity c, some best.specificity⟩
  «recall» := ⟨«recall» c, some best.recall⟩
  precision := ⟨precision c, some best.precision⟩
  F1 := ⟨F1Entry c, if c.TP + c.FP > 0 ∧ c.TP + c.FN > 0 then some best.F1 else none⟩
  accuracy := ⟨accuracy c, some best.accuracy⟩

/-! ## Scores as ratios of counts -/

/-- `n / d` is rounded to one of the ten-thousandths from `a` to `b`. -/
def RoundsWithin (a b : ℤ) (n d : ℕ) : Prop :=
  ((2 * a - 1) * d < 20000 * n ∨ (2 * a - 1) * d = 20000 * n ∧ Even a) ∧
    (20000 * n < (2 * b + 1) * d ∨ 20000 * n = (2 * b + 1) * d ∧ Even b)

instance (a b : ℤ) (n d : ℕ) : Decidable (RoundsWithin a b n d) :=
  inferInstanceAs (Decidable (_ ∧ _))

theorem roundsWithin_iff (a b : ℤ) (n : ℕ) {d : ℕ} (hd : d ≠ 0) :
    RoundsWithin a b n d ↔
      a ≤ tenThousandths (n / d) ∧ tenThousandths ((n : ℚ) / d) ≤ b := by
  have hpos : (0 : ℚ) < d := by exact_mod_cast Nat.pos_of_ne_zero hd
  have htwice : 2 * ((n : ℚ) / d * 10000) = 20000 * n / d := by ring
  unfold RoundsWithin tenThousandths
  rw [le_roundEven_iff, roundEven_le_iff, htwice, lt_div_iff₀ hpos, div_lt_iff₀ hpos,
    div_eq_iff hpos.ne', div_eq_iff hpos.ne', eq_comm (a := (20000 * n : ℚ))]
  norm_cast

/-- The score of `n` out of `d` is a number unless it is rounded to 1. -/
theorem percent_isNumber_iff (n : ℕ) {d : ℕ} (hd : d ≠ 0) :
    (percent n d false true).isNumber = true ↔ ¬ RoundsWithin 10000 10099 n d := by
  have hden : (d : ℚ) ≠ 0 := by exact_mod_cast hd
  rw [percent_one_isNumber_iff, roundsWithin_iff _ _ _ hd, and_iff_right hden,
    ← Int.lt_add_one_iff (b := 10099)]
  norm_num

/-- Only the ratio counts. -/
theorem percent_congr {n d n' d' : ℚ} (hzero : d = 0 ↔ d' = 0) (hratio : n / d = n' / d')
    (one : Bool) : percent n d false one = percent n' d' false one := by
  simp only [percent, hzero, hratio]

/-- The harmonic mean of two ratios is a ratio of counts. -/
theorem percent_harmonic (x y : ℕ) {u v : ℕ} (hu : u ≠ 0) (hv : v ≠ 0) :
    percent (2 * (x / u) * (y / v)) (x / u + y / v) false true =
      percent (2 * x * y : ℕ) (x * v + y * u : ℕ) false true := by
  have hu' : (u : ℚ) ≠ 0 := by exact_mod_cast hu
  have hv' : (v : ℚ) ≠ 0 := by exact_mod_cast hv
  have hsum : (x / u + y / v : ℚ) = (x * v + y * u : ℕ) / (u * v) := by
    push_cast
    field_simp
  have hprod : (2 * (x / u) * (y / v) : ℚ) = (2 * x * y : ℕ) / (u * v) := by
    push_cast
    field_simp
  apply percent_congr
  · rw [hsum, div_eq_zero_iff, or_iff_left (mul_ne_zero hu' hv')]
  · rw [hsum, hprod, div_div_div_cancel_right₀ (mul_ne_zero hu' hv')]

/-- What `F1` is a ratio of. -/
def F1Num (c : Counts) : ℕ := 2 * c.TN * c.TP
def F1Den (c : Counts) : ℕ := c.TN * (c.TP + c.FN) + c.TP * (c.TP + c.FP)

theorem F1_eq {c : Counts} (hprecision : c.TP + c.FP ≠ 0) (hrecall : c.TP + c.FN ≠ 0) :
    F1 c = percent (F1Num c) (F1Den c) false true :=
  percent_harmonic c.TN c.TP hprecision hrecall

theorem F1Den_eq_zero_iff {c : Counts} (hprecision : c.TP + c.FP ≠ 0) (hrecall : c.TP + c.FN ≠ 0) :
    F1Den c = 0 ↔ c.TN = 0 ∧ c.TP = 0 := by
  rw [F1Den, Nat.add_eq_zero_iff, Nat.mul_eq_zero, Nat.mul_eq_zero, or_iff_left hrecall,
    or_iff_left hprecision]

/-! ## The F1 score -/

/-- The F1 score of the README, as `percent` gives it. -/
def readmeF1 (c : Counts) : Value :=
  let P : ℚ := c.TP / (c.TP + c.FP : ℕ)
  let R : ℚ := c.TP / (c.TP + c.FN : ℕ)
  percent (2 * P * R) (P + R) false true

/-- A score from 0 to 1, or an error where there is neither precision nor recall. -/
def InRange (c : Counts) (v : Value) : Prop :=
  ((c.TP : ℚ) / (c.TP + c.FP : ℕ) + (c.TP : ℚ) / (c.TP + c.FN : ℕ) = 0 ∧ v = .str errorText) ∨
    ∃ q, v.toFloat = .ok q ∧ 0 ≤ q ∧ q ≤ 1

/-- Both tables have the F1 score of the README. -/
structure F1Right (best : Best) (c : Counts) : Prop where
  summary : (summaryRow best c).F1.val = readmeF1 c
  metrics : (metricsRow c).F1 = readmeF1 c
  inRange : InRange c (metricsRow c).F1

/-- There are about as many true negatives as true positives: as the formula has
`TN` for `TP` in the precision, what it gives is then rounded to the F1 score. -/
def TNFits (c : Counts) : Prop :=
  if c.TP = 0 then c.TN = 0
  else
    let a := tenThousandths ((2 * c.TP : ℕ) / (2 * c.TP + c.FP + c.FN : ℕ))
    RoundsWithin a (if a = 10000 then 10099 else a) (F1Num c) (F1Den c)

instance (c : Counts) : Decidable (TNFits c) := by unfold TNFits; infer_instance

theorem readmeF1_eq {c : Counts} (hTP : c.TP ≠ 0) :
    readmeF1 c = percent (2 * c.TP : ℕ) (2 * c.TP + c.FP + c.FN : ℕ) false true := by
  have hTP' : (c.TP : ℚ) ≠ 0 := by exact_mod_cast hTP
  have hsum : c.TP * (c.TP + c.FN) + c.TP * (c.TP + c.FP) =
      c.TP * (2 * c.TP + c.FP + c.FN) := by ring
  have hprod : 2 * c.TP * c.TP = c.TP * (2 * c.TP) := by ring
  refine (percent_harmonic c.TP c.TP (by omega) (by omega)).trans ?_
  rw [hsum, hprod]
  apply percent_congr
  · rw [Nat.cast_mul, mul_eq_zero, or_iff_right hTP']
  · rw [Nat.cast_mul, Nat.cast_mul c.TP (2 * c.TP + c.FP + c.FN), mul_div_mul_left _ _ hTP']

theorem tenThousandths_mem {n d : ℕ} (hle : n ≤ d) :
    0 ≤ tenThousandths (n / d) ∧ tenThousandths ((n : ℚ) / d) ≤ 10000 := by
  have hcast : (n : ℚ) ≤ d := by exact_mod_cast hle
  have hone : (n : ℚ) / d ≤ 1 := div_le_one_of_le₀ hcast (by positivity)
  have hzero : (0 : ℚ) ≤ n / d := by positivity
  have h₀ : roundEven (0 : ℚ) = 0 := by exact_mod_cast roundEven_intCast (K := ℚ) 0
  have h₁ : roundEven (10000 : ℚ) = 10000 := by exact_mod_cast roundEven_intCast (K := ℚ) 10000
  unfold tenThousandths
  constructor
  · calc 0 = roundEven (0 : ℚ) := h₀.symm
      _ ≤ _ := roundEven_mono (by positivity)
  · calc roundEven ((n : ℚ) / d * 10000) ≤ roundEven 10000 := roundEven_mono (by linarith)
      _ = 10000 := h₁

/-- When a score is that of a ratio up to 1. -/
theorem percent_eq_iff {n d n' d' : ℕ} (hd : d ≠ 0) (hd' : d' ≠ 0) (hle : n' ≤ d') :
    percent n d false true = percent n' d' false true ↔
      RoundsWithin (tenThousandths (n' / d'))
        (if tenThousandths ((n' : ℚ) / d') = 10000 then 10099 else tenThousandths (n' / d')) n d := by
  have hden : (d : ℚ) ≠ 0 := by exact_mod_cast hd
  have hden' : (d' : ℚ) ≠ 0 := by exact_mod_cast hd'
  obtain ⟨hlow, hhigh⟩ := tenThousandths_mem hle
  rw [percent_one hden, percent_one hden', roundsWithin_iff _ _ _ hd]
  generalize tenThousandths ((n : ℚ) / d) = a
  generalize tenThousandths ((n' : ℚ) / d') = b at hlow hhigh
  have hfloat : ∀ x y : ℤ, Value.float (x / 10000) = Value.float (y / 10000) ↔ x = y := by
    intro x y
    rw [Value.float.injEq, div_left_inj' (by norm_num), Int.cast_inj]
  by_cases hb : b = 10000
  · subst hb
    rw [if_pos (show (10000 : ℤ) ≤ 10000 ∧ (10000 : ℤ) < 10100 by omega), if_pos rfl]
    split_ifs with ha
    · exact iff_of_true rfl (by omega)
    · exact iff_of_false (fun h => by cases h) (by omega)
  · rw [if_neg (show ¬ (10000 ≤ b ∧ b < 10100) by omega), if_neg hb]
    split_ifs with ha
    · exact iff_of_false (fun h => by cases h) (by omega)
    · rw [hfloat]
      omega

theorem inRange_readmeF1 (c : Counts) : InRange c (readmeF1 c) := by
  by_cases hTP : c.TP = 0
  · left
    simp [readmeF1, hTP, percent]
  · right
    have hden : ((2 * c.TP + c.FP + c.FN : ℕ) : ℚ) ≠ 0 := by exact_mod_cast (by omega)
    obtain ⟨hlow, hhigh⟩ := @tenThousandths_mem (2 * c.TP) (2 * c.TP + c.FP + c.FN) (by omega)
    rw [readmeF1_eq hTP, percent_one hden]
    generalize tenThousandths ((2 * c.TP : ℕ) / (2 * c.TP + c.FP + c.FN : ℕ)) = a at hlow hhigh
    split_ifs with ha
    · exact ⟨1, by decide, by norm_num, le_rfl⟩
    · have hlow' : (0 : ℚ) ≤ a := by exact_mod_cast hlow
      have hhigh' : (a : ℚ) ≤ 10000 := by exact_mod_cast hhigh
      exact ⟨a / 10000, rfl, by positivity, by linarith⟩

/-- **When the F1 score that is printed is that of the README.** -/
theorem f1_right_iff (best : Best) (c : Counts) (hprecision : c.TP + c.FP > 0)
    (hrecall : c.TP + c.FN > 0) : F1Right best c ↔ TNFits c := by
  have hentry : (metricsRow c).F1 = F1 c := if_pos ⟨hprecision, hrecall⟩
  have hright : F1Right best c ↔ F1 c = readmeF1 c := by
    constructor
    · intro h
      rw [← hentry, h.metrics]
    · intro h
      refine ⟨hentry.trans h, hentry.trans h, ?_⟩
      rw [hentry, h]
      exact inRange_readmeF1 c
  have heq := F1_eq (c := c) (by omega) (by omega)
  have hzero := F1Den_eq_zero_iff (c := c) (by omega) (by omega)
  rw [hright]
  by_cases hTP : c.TP = 0
  · -- no detection at all: an error, unless a true negative makes it a score of zero
    have herror : readmeF1 c = .str errorText := by simp [readmeF1, hTP, percent]
    rw [herror, heq, TNFits, if_pos hTP]
    by_cases hTN : c.TN = 0
    · have hden : F1Den c = 0 := hzero.mpr ⟨hTN, hTP⟩
      exact iff_of_true (by simp [hden, percent]) hTN
    · have hden : (F1Den c : ℚ) ≠ 0 := by
        exact_mod_cast fun h => hTN (hzero.mp h).1
      have htext : "1".toList ≠ errorText := by decide
      refine iff_of_false ?_ hTN
      rw [percent_one hden]
      split_ifs
      · exact fun h => htext (Value.str.inj h)
      · exact fun h => by cases h
  · have hden : F1Den c ≠ 0 := fun h => hTP (hzero.mp h).2
    rw [readmeF1_eq hTP, heq, TNFits, if_neg hTP]
    exact percent_eq_iff hden (by omega) (by omega)

/-- The results of a tool that always comes to a diagnosis. -/
def sampleCounts (TP TN FP FN : ℕ) : Counts
  | .TRUE_POS => TP
  | .TRUE_NEG => TN
  | .FALSE_POS => FP
  | .FALSE_NEG => FN
  | _ => 0

/-- As many true negatives as true positives. -/
theorem f1_right_balanced :
    F1Right .initial (sampleCounts 3 3 1 2) ↔ TNFits (sampleCounts 3 3 1 2) :=
  f1_right_iff .initial (sampleCounts 3 3 1 2) (by decide) (by decide)

/-- A tool with many true negatives, that fails once. -/
def failsOnce : Counts := Function.update (sampleCounts 1 5 0 0) .failure 1

/-- **The formula has a wrong numerator:** half the score for a tool with few true
negatives, and a score above 1 for one with many; the table has both. -/
theorem f1_wrong :
    (metricsRow (sampleCounts 3 1 1 1)).F1 = .float (3 / 8) ∧
      readmeF1 (sampleCounts 3 1 1 1) = .float (3 / 4) ∧
      (metricsRow failsOnce).F1 = .float (16667 / 10000) ∧
      readmeF1 failsOnce = .str "1".toList ∧
      (bestSearch [sampleCounts 3 1 1 1, failsOnce]).toOption.isSome = true ∧
      ¬ F1Right .initial (sampleCounts 3 1 1 1) := by
  have hprinted : (metricsRow (sampleCounts 3 1 1 1)).F1 = .float (3 / 8) := by decide +kernel
  have hreadme : readmeF1 (sampleCounts 3 1 1 1) = .float (3 / 4) := by decide +kernel
  refine ⟨hprinted, hreadme, by decide +kernel, by decide +kernel, by decide +kernel, ?_⟩
  intro h
  have hsame := h.metrics
  rw [hprinted, hreadme, Value.float.injEq] at hsame
  norm_num at hsame

/-! ## The search for the best scores -/

/-- All best values so far are numbers. -/
structure Best.Numbers (b : Best) : Prop where
  TP : b.TP.isNumber = true
  TN : b.TN.isNumber = true
  FP : b.FP.isNumber = true
  FN : b.FN.isNumber = true
  coverage : b.coverage.isNumber = true
  completion : b.completion.isNumber = true
  specificity : b.specificity.isNumber = true
  «recall» : b.recall.isNumber = true
  precision : b.precision.isNumber = true
  F1 : b.F1.isNumber = true
  accuracy : b.accuracy.isNumber = true

theorem higher_numbers {best : Value} (new : Value) (hbest : best.isNumber = true)
    (hnew : new.isNumber = true) : ∃ v, higher best new = .ok v ∧ v.isNumber = true := by
  obtain ⟨b, hb⟩ := gt_of_numbers hnew hbest
  unfold higher
  rw [hb]
  cases b with
  | true => exact ⟨new, rfl, hnew⟩
  | false => exact ⟨best, rfl, hbest⟩

theorem lower_numbers {best : Value} (new : Value) (hbest : best.isNumber = true)
    (hnew : new.isNumber = true) : ∃ v, lower best new = .ok v ∧ v.isNumber = true := by
  obtain ⟨b, hb⟩ := gt_of_numbers hbest hnew
  unfold lower
  rw [hb]
  cases b with
  | true => exact ⟨new, rfl, hnew⟩
  | false => exact ⟨best, rfl, hbest⟩

theorem higher_text {best new : Value} (hbest : best.isNumber = true)
    (hnew : new.isNumber = false) : higher best new = .error .TypeError := by
  unfold higher
  rw [gt_of_text hnew hbest]
  rfl

theorem higherFloat_percent {best : Value} (hbest : best.isNumber = true) (num : ℚ) {den : ℕ}
    (hden : den ≠ 0) (compl : Bool) :
    ∃ v, higherFloat best (percent num den compl true) = .ok v ∧ v.isNumber = true := by
  have hden' : (den : ℚ) ≠ 0 := by exact_mod_cast hden
  obtain ⟨q, hq⟩ := toFloat_percent num hden' compl
  obtain ⟨v, hv⟩ := higher_numbers (.float q) hbest rfl
  unfold higherFloat
  rw [hq]
  exact ⟨v, hv⟩

theorem bestCounts_numbers {best : Best} (hb : best.Numbers) (c : Counts) :
    ∃ b, bestCounts best c = .ok b ∧ b.Numbers := by
  obtain ⟨v₁, h₁, hn₁⟩ := higher_numbers (.int c.TP) hb.TP rfl
  obtain ⟨v₂, h₂, hn₂⟩ := higher_numbers (.int c.TN) hb.TN rfl
  obtain ⟨v₃, h₃, hn₃⟩ := lower_numbers (.int c.FP) hb.FP rfl
  obtain ⟨v₄, h₄, hn₄⟩ := lower_numbers (.int c.FN) hb.FN rfl
  refine ⟨{ best with TP := v₁, TN := v₂, FP := v₃, FN := v₄ }, ?_, ?_⟩
  · simp only [bestCounts, h₁, h₂, h₃, h₄]
    rfl
  · exact ⟨hn₁, hn₂, hn₃, hn₄, hb.coverage, hb.completion, hb.specificity, hb.recall,
      hb.precision, hb.F1, hb.accuracy⟩

/-- The tool has a score in every column. -/
def Comparable (c : Counts) : Prop := (F1 c).isNumber = true ∧ (accuracy c).isNumber = true

theorem bestRatios_numbers {best : Best} (hb : best.Numbers) {c : Counts} (hc : Considered c) :
    (Comparable c → ∃ b, bestRatios best c = .ok b ∧ b.Numbers) ∧
      (¬ Comparable c → bestRatios best c = .error .TypeError) := by
  obtain ⟨hspecificity, hrecall, hprecision⟩ := hc
  have htotal : c.total ≠ 0 := by
    unfold Counts.total
    omega
  obtain ⟨v₁, h₁, hn₁⟩ := higherFloat_percent hb.coverage c.port htotal true
  obtain ⟨v₂, h₂, hn₂⟩ :=
    higherFloat_percent hb.completion (c.port + c.fail + c.othr + c.tout : ℕ) htotal true
  obtain ⟨v₃, h₃, hn₃⟩ := higherFloat_percent hb.specificity c.TN hspecificity false
  obtain ⟨v₄, h₄, hn₄⟩ := higherFloat_percent hb.recall c.TP hrecall false
  obtain ⟨v₅, h₅, hn₅⟩ := higherFloat_percent hb.precision c.TP hprecision false
  have hstart : bestRatios best c = (do
      let F1 ← higher best.F1 (F1 c)
      let accuracy ← higher best.accuracy (accuracy c)
      return { best with
        coverage := v₁, completion := v₂, specificity := v₃, «recall» := v₄, precision := v₅,
        F1 := F1, accuracy := accuracy }) := by
    simp only [bestRatios, coverage, completion, specificity, «recall», precision, h₁, h₂, h₃, h₄,
      h₅]
    rfl
  rw [hstart]
  cases hF1 : (F1 c).isNumber with
  | false =>
    rw [higher_text hb.F1 hF1]
    exact ⟨fun h => absurd h.1 (by simp [hF1]), fun _ => rfl⟩
  | true =>
    obtain ⟨v₆, h₆, hn₆⟩ := higher_numbers (F1 c) hb.F1 hF1
    rw [h₆]
    cases haccuracy : (accuracy c).isNumber with
    | false =>
      refine ⟨fun h => absurd h.2 (by simp [haccuracy]), fun _ => ?_⟩
      show (do let _ ← higher best.accuracy (accuracy c); _) = _
      rw [higher_text hb.accuracy haccuracy]
      rfl
    | true =>
      obtain ⟨v₇, h₇, hn₇⟩ := higher_numbers (accuracy c) hb.accuracy haccuracy
      refine ⟨fun _ => ⟨{ best with
        coverage := v₁, completion := v₂, specificity := v₃, «recall» := v₄, precision := v₅,
        F1 := v₆, accuracy := v₇ }, ?_, ?_⟩, fun h => absurd ⟨hF1, haccuracy⟩ h⟩
      · show (do let _ ← higher best.accuracy (accuracy c); _) = _
        rw [h₇]
        rfl
      · exact ⟨hb.TP, hb.TN, hb.FP, hb.FN, hn₁, hn₂, hn₃, hn₄, hn₅, hn₆, hn₇⟩

/-- One tool: the search goes on with numbers, or fails. -/
theorem bestStep_numbers {best : Best} (hb : best.Numbers) (c : Counts) :
    ((Considered c → Comparable c) → ∃ b, bestStep best c = .ok b ∧ b.Numbers) ∧
      (¬ (Considered c → Comparable c) → bestStep best c = .error .TypeError) := by
  obtain ⟨b, hcounts, hnumbers⟩ := bestCounts_numbers hb c
  have hstart : bestStep best c = if Considered c then bestRatios b c else .ok b := by
    unfold bestStep
    rw [hcounts]
    rfl
  rw [hstart]
  by_cases hc : Considered c
  · rw [if_pos hc]
    obtain ⟨hgood, hbad⟩ := bestRatios_numbers hnumbers hc
    exact ⟨fun h => hgood (h hc), fun h => hbad fun h' => h fun _ => h'⟩
  · rw [if_neg hc]
    exact ⟨fun _ => ⟨b, rfl, hnumbers⟩, fun h => absurd (fun h' => absurd h' hc) h⟩

/-- The search from any numbers. -/
theorem foldlM_bestStep (cs : List Counts) : ∀ {best : Best}, best.Numbers →
    ((∃ b, cs.foldlM bestStep best = .ok b) ↔ ∀ c ∈ cs, Considered c → Comparable c) := by
  induction cs with
  | nil => exact fun _ => iff_of_true ⟨_, rfl⟩ (by simp)
  | cons c cs ih =>
    intro best hb
    obtain ⟨hgood, hbad⟩ := bestStep_numbers hb c
    rw [List.foldlM_cons, List.forall_mem_cons]
    by_cases hc : Considered c → Comparable c
    · obtain ⟨b, hstep, hnumbers⟩ := hgood hc
      rw [hstep, and_iff_right hc]
      exact ih hnumbers
    · rw [hbad hc]
      refine iff_of_false ?_ (fun h => hc h.1)
      rintro ⟨b, h⟩
      cases h

/-- A tool that has no true diagnosis at all, or whose F1 score or accuracy is
rounded to 1, cannot be compared; one with an empty denominator need not be. -/
def Rankable (c : Counts) : Prop :=
  Considered c → (c.TP ≠ 0 ∨ c.TN ≠ 0) ∧ ¬ RoundsWithin 10000 10099 (F1Num c) (F1Den c) ∧
    ¬ RoundsWithin 10000 10099 (c.TP + c.TN) c.total

instance (c : Counts) : Decidable (Rankable c) := inferInstanceAs (Decidable (_ → _))

theorem comparable_iff {c : Counts} (hc : Considered c) :
    Comparable c ↔ (c.TP ≠ 0 ∨ c.TN ≠ 0) ∧ ¬ RoundsWithin 10000 10099 (F1Num c) (F1Den c) ∧
      ¬ RoundsWithin 10000 10099 (c.TP + c.TN) c.total := by
  obtain ⟨hspecificity, hrecall, hprecision⟩ := hc
  have htotal : c.total ≠ 0 := by
    unfold Counts.total
    omega
  have hzero := F1Den_eq_zero_iff hprecision hrecall
  rw [Comparable, F1_eq hprecision hrecall, accuracy, percent_isNumber_iff _ htotal, ← and_assoc]
  refine and_congr_left' ?_
  by_cases hden : F1Den c = 0
  · refine iff_of_false (by simp [hden, percent_one_isNumber_iff]) ?_
    have h := hzero.mp hden
    omega
  · rw [percent_isNumber_iff _ hden, and_iff_right]
    by_contra h
    exact hden (hzero.mpr (by omega))

/-- **When the search for the best scores completes,** whatever the tools. -/
theorem search_completes_iff (cs : List Counts) :
    (∃ best, bestSearch cs = .ok best) ↔ ∀ c ∈ cs, Rankable c := by
  have hinitial : Best.initial.Numbers := ⟨rfl, rfl, rfl, rfl, rfl, rfl, rfl, rfl, rfl, rfl, rfl⟩
  have hclean : (∃ best, bestSearch cs = .ok best) ↔ ∃ b, cs.foldlM bestStep .initial = .ok b := by
    unfold bestSearch
    cases cs.foldlM bestStep .initial with
    | error e => exact iff_of_false (by rintro ⟨_, h⟩; cases h) (by rintro ⟨_, h⟩; cases h)
    | ok b => exact iff_of_true ⟨b.clean, rfl⟩ ⟨b, rfl⟩
  rw [hclean, foldlM_bestStep cs hinitial]
  refine forall₂_congr fun c _ => ?_
  exact forall_congr' fun hc => comparable_iff hc

/-- **A perfect tool makes the search fail, and so does one that is always wrong.** -/
theorem search_fails :
    (∃ best, bestSearch [sampleCounts 3 4 1 1] = .ok best) ∧
      bestSearch [sampleCounts 2 2 0 0] = .error .TypeError ∧
      bestSearch [sampleCounts 0 0 1 1] = .error .TypeError ∧
      ¬ ∃ best, bestSearch [sampleCounts 2 2 0 0] = .ok best := by
  have hperfect : bestSearch [sampleCounts 2 2 0 0] = .error .TypeError := by decide +kernel
  have hgood : (bestSearch [sampleCounts 3 4 1 1]).toOption.isSome = true := by decide +kernel
  refine ⟨?_, hperfect, by decide +kernel, ?_⟩
  · cases hsearch : bestSearch [sampleCounts 3 4 1 1] with
    | error e => rw [hsearch] at hgood; cases hgood
    | ok best => exact ⟨best, rfl⟩
  · rintro ⟨best, h⟩
    rw [hperfect] at h
    cases h

end MpiBugs.Metrics
