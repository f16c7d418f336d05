import MpiBugs.Metrics

/-!
# The two summaries of `cmd_html`

The metrics in `summary.html` and those printed on the console, and the numbers
of results printed there, for the numbers of results a tool has in each category.

* `console_agrees_iff`: the summaries agree iff there is no inconclusive run, or
  there are as many of them as of failures and the robustness is rounded to the
  same value with and without them.
-/

namespace MpiBugs.Console

open Rounding Percent Categorize Metrics

structure Summary where
  coverage : Value
  robustness : Value
  «recall» : Value
  specificity : Value
  precision : Value
  accuracy : Value
  deriving DecidableEq, Repr

section

variable (c : Counts)

/-- The tables of `summary.html`; the robustness is out of the categories it lists. -/
def htmlSummary : Summary :=
  let total := c.TP + c.TN + c.FP + c.FN + c.tout + c.port + c.fail + c.othr
  let totalPort := c.TP + c.TN + c.FP + c.FN + c.tout + c.fail
  { coverage := percent c.port total true false
    robustness := percent (c.tout + c.fail : ℕ) totalPort true false
    «recall» := percent c.TP (c.TP + c.FN : ℕ) false false
    specificity := percent c.TN (c.TN + c.FP : ℕ) false false
    precision := percent c.TP (c.TP + c.FP : ℕ) false false
    accuracy := percent (c.TP + c.TN : ℕ) (c.TP + c.TN + c.FP + c.FN : ℕ) false false }

/-- The console; the robustness is out of the total without the coverage issues. -/
def consoleSummary : Summary :=
  let passed := c.TP + c.TN
  let total := passed + c.FP + c.FN + c.tout + c.port + c.fail + c.othr
  { coverage := percent c.port total true false
    robustness := percent (c.tout + c.fail : ℕ) (total - c.port : ℕ) true false
    «recall» := percent c.TP (c.TP + c.FN : ℕ) false false
    specificity := percent c.TN (c.TN + c.FP : ℕ) false false
    precision := percent c.TP (c.TP + c.FP : ℕ) false false
    accuracy := percent (c.TP + c.TN : ℕ) (c.TP + c.TN + c.FP + c.FN : ℕ) false false }

/-- A number printed next to the name of a category. -/
structure Printed where
  category : ResCategory
  label : Text
  count : ℕ
  deriving DecidableEq

/-- A line that is only printed if the category has a test. -/
def lineIf (category : ResCategory) (label : String) (count : ℕ) : List Printed :=
  if c category > 0 then [⟨category, label.toList, count⟩] else []

/-- The numbers on the console: a line for each category with an error or
without a diagnosis, and those of the robustness. -/
def consoleCounts : List Printed :=
  lineIf c .FALSE_POS "false positives" c.FP ++ lineIf c .FALSE_NEG "false negatives" c.FN ++
    lineIf c .timeout "timeouts" c.tout ++ lineIf c .unimplemented "API coverage issues" c.port ++
    lineIf c .failure "tool failures" c.fail ++
    -- the number printed here is that of the failures
    lineIf c .other "inconclusive runs (output parsing failure)" c.fail ++
    [⟨.timeout, "timeouts".toList, c.tout⟩, ⟨.failure, "failures".toList, c.fail⟩]

end

/-- The two summaries agree, and the numbers printed are those of the categories. -/
structure Agrees (c : Counts) : Prop where
  metrics : htmlSummary c = consoleSummary c
  counts : ∀ p ∈ consoleCounts c, p.count = c p.category

/-! ## Percentages of counts -/

/-- **Equal percentages** are those of ratios with the same nearest ten-thousandth. -/
theorem percent_hundred_eq_iff {n d n' d' : ℕ} (hd : d ≠ 0) (hd' : d' ≠ 0) (hle : n ≤ d)
    (hle' : n' ≤ d') :
    percent n d false false = percent n' d' false false ↔
      ∃ a : ℤ, RoundsWithin a a n d ∧ RoundsWithin a a n' d' := by
  have hmem := tenThousandths_mem hle
  have hmem' := tenThousandths_mem hle'
  have hiff : percent n d false false = percent n' d' false false ↔
      tenThousandths ((n : ℚ) / d) = tenThousandths ((n' : ℚ) / d') := by
    rw [percent_hundred (by exact_mod_cast hd), percent_hundred (by exact_mod_cast hd')]
    generalize tenThousandths ((n : ℚ) / d) = a at hmem
    generalize tenThousandths ((n' : ℚ) / d') = b at hmem'
    split_ifs with ha hb hb
    · exact iff_of_true rfl (by omega)
    · exact iff_of_false (fun h => by cases h) (by omega)
    · exact iff_of_false (fun h => by cases h) (by omega)
    · rw [Value.float.injEq, div_left_inj' (by norm_num), Int.cast_inj]
  rw [hiff]
  simp only [roundsWithin_iff _ _ _ hd, roundsWithin_iff _ _ _ hd']
  constructor
  · intro h
    exact ⟨_, ⟨le_rfl, le_rfl⟩, h.le, h.ge⟩
  · rintro ⟨a, ⟨hlow, hhigh⟩, hlow', hhigh'⟩
    omega

/-! ## Where the summaries agree -/

/-- The diagnoses out of the runs without coverage issue, and with the
inconclusive runs added to both, have the same nearest ten-thousandth. -/
def SameRobustness (c : Counts) : Prop :=
  let diagnoses := c.TP + c.TN + c.FP + c.FN
  let runs := diagnoses + c.tout + c.fail
  ∃ a : ℤ, RoundsWithin a a diagnoses runs ∧
    RoundsWithin a a (diagnoses + c.othr) (runs + c.othr)

theorem counts_agree_iff (c : Counts) :
    (∀ p ∈ consoleCounts c, p.count = c p.category) ↔ c.othr = 0 ∨ c.fail = c.othr := by
  have hline : ∀ (category : ResCategory) (label : String) (n : ℕ),
      (∀ p ∈ lineIf c category label n, p.count = c p.category) ↔
        (c category > 0 → n = c category) := by
    intro category label n
    unfold lineIf
    split
    · rename_i h
      simp [h]
    · rename_i h
      simp [h]
  have hother : (c .other > 0 → c.fail = c .other) ↔ c.othr = 0 ∨ c.fail = c.othr := by
    show (c.othr > 0 → c.fail = c.othr) ↔ _
    omega
  simp only [consoleCounts, List.forall_mem_append, List.forall_mem_cons, hline, hother]
  simp [Counts.FP, Counts.FN, Counts.tout, Counts.port, Counts.fail]

theorem summary_eq_iff (c : Counts) :
    htmlSummary c = consoleSummary c ↔
      (htmlSummary c).robustness = (consoleSummary c).robustness := by
  constructor
  · intro h
    rw [h]
  · intro h
    unfold htmlSummary consoleSummary at h ⊢
    simp only [Summary.mk.injEq, true_and, and_true]
    exact h

/-- The robustness of both summaries as a ratio of diagnoses. -/
theorem robustness_eq (c : Counts) :
    (htmlSummary c).robustness = percent (c.TP + c.TN + c.FP + c.FN : ℕ)
        (c.TP + c.TN + c.FP + c.FN + c.tout + c.fail : ℕ) false false ∧
      (consoleSummary c).robustness = percent (c.TP + c.TN + c.FP + c.FN + c.othr : ℕ)
        (c.TP + c.TN + c.FP + c.FN + c.tout + c.fail + c.othr : ℕ) false false := by
  constructor
  · simp only [htmlSummary]
    rw [percent_compl]
    congr 1
    push_cast
    ring
  · simp only [consoleSummary]
    have hsub : c.TP + c.TN + c.FP + c.FN + c.tout + c.port + c.fail + c.othr - c.port =
        c.TP + c.TN + c.FP + c.FN + c.tout + c.fail + c.othr := by omega
    rw [hsub, percent_compl]
    congr 1
    push_cast
    ring

/-- **When the two summaries agree,** for all numbers of results. -/
theorem console_agrees_iff (c : Counts) :
    Agrees c ↔ c.othr = 0 ∨ (c.fail = c.othr ∧ SameRobustness c) := by
  have hagrees : Agrees c ↔ htmlSummary c = consoleSummary c ∧
      ∀ p ∈ consoleCounts c, p.count = c p.category :=
    ⟨fun h => ⟨h.metrics, h.counts⟩, fun ⟨h, h'⟩ => ⟨h, h'⟩⟩
  obtain ⟨hhtml, hconsole⟩ := robustness_eq c
  rw [hagrees, counts_agree_iff, summary_eq_iff, hhtml, hconsole]
  by_cases hother : c.othr = 0
  · simp [hother]
  · by_cases hfail : c.fail = c.othr
    · simp only [hother, hfail, or_true, and_true, false_or, true_and]
      rw [percent_hundred_eq_iff (by omega) (by omega) (by omega) (by omega), SameRobustness, hfail]
    · simp [hother, hfail]

/-- One correct diagnosis, one timeout and one inconclusive run. -/
def oneInconclusive : Counts
  | .TRUE_POS | .timeout | .other => 1
  | _ => 0

/-- **An inconclusive run** changes the robustness, and is counted as a failure. -/
theorem inconclusive_disagrees :
    (htmlSummary oneInconclusive).robustness = .float 50 ∧
      (consoleSummary oneInconclusive).robustness = .float (6667 / 100) ∧
      (∃ p ∈ consoleCounts oneInconclusive, p.category = .other ∧ p.count = 0) ∧
      oneInconclusive .other = 1 ∧ ¬ Agrees oneInconclusive := by
  have hhtml : (htmlSummary oneInconclusive).robustness = .float 50 := by decide +kernel
  have hconsole : (consoleSummary oneInconclusive).robustness = .float (6667 / 100) := by
    decide +kernel
  refine ⟨hhtml, hconsole, by decide +kernel, rfl, fun h => ?_⟩
  rw [h.metrics, hconsole, Value.float.injEq] at hhtml
  norm_num at hhtml

end MpiBugs.Console
