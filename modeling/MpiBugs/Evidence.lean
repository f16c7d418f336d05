import MpiBugs.Verdicts
import MpiBugs.Categorize

/-!
# What a verdict rests on

A wrapper should report an error, or a success, only where it has found the text
of one, and a success only where it has found no error.

* `no_evidence_iff`: without any of the patterns a wrapper searches for there is
  no verdict, except from PARCOACH;
* `error_not_masked_iff`: the outputs with an error diagnostic for which the
  verdict is not a success.
-/

namespace MpiBugs.Evidence

open Regex FileStore TextFile RunCmd Wrappers Verdicts Categorize

/-- The output of the tool as `parse` reads it. -/
def output (w : Workdir) : Text := universalNewlines ((w.file (.log .txt)).getD [])

/-- The report of the tool as `parse` reads it, empty where it reads none. -/
def report (tool : Tool) (w : Workdir) : Text := readReport tool (tool.report.bind w.file)

/-- The files without which a wrapper gives up are there. -/
def Recorded (tool : Tool) (w : Workdir) : Prop :=
  (w.file (.log .txt)).isSome ∧ ∀ f ∈ tool.report, (w.file f).isSome

instance (tool : Tool) (w : Workdir) : Decidable (Recorded tool w) :=
  inferInstanceAs (Decidable (_ ∧ _))

/-- What is returned when no branch is taken. -/
def fallback (tool : Tool) (w : Workdir) : Text :=
  if tool = .must ∧ (w.file (.log .timeout)).isSome then timeout else tool.inconclusive

/-- `parse` in terms of what it reads. -/
theorem parse_eq (tool : Tool) (w : Workdir) :
    tool.parse w =
      if Recorded tool w then
        (cascade (output w) (report tool w) tool.rules).getD (fallback tool w)
      else Wrappers.failure := by
  by_cases hrec : Recorded tool w
  · rw [if_pos hrec]
    obtain ⟨txt, htxt⟩ := Option.isSome_iff_exists.mp hrec.1
    have hreports := hrec.2
    unfold Tool.parse output report readReport fallback
    cases hreport : tool.report with
    | none =>
      have hnil : universalNewlines [] = [] := rfl
      simp only [htxt, hnil, ↓reduceIte, Option.getD_some]
      cases cascade (universalNewlines txt) [] tool.rules <;> rfl
    | some f =>
      obtain ⟨r, hr⟩ := Option.isSome_iff_exists.mp (hreports f hreport)
      simp only [htxt, hr, reduceCtorEq, ↓reduceIte, Option.bind_some, Option.getD_some]
      cases cascade (universalNewlines txt) (universalNewlines r) tool.rules <;> rfl
  · rw [if_neg hrec]
    unfold Tool.parse
    cases htxt : w.file (.log .txt) with
    | none => rfl
    | some txt =>
      cases hreport : tool.report with
      | none => exact absurd ⟨by simp [htxt], by simp [hreport]⟩ hrec
      | some f =>
        cases hf : w.file f with
        | none => simp only [hf]
        | some r => exact absurd ⟨by simp [htxt], by simp [hreport, hf]⟩ hrec

/-! ## No evidence, no verdict -/

/-- None of the patterns the wrapper searches for is there. -/
def Unexplained (tool : Tool) (w : Workdir) : Prop :=
  ∀ r ∈ tool.rules, r.hit (output w) (report tool w) = none

instance (tool : Tool) (w : Workdir) : Decidable (Unexplained tool w) :=
  inferInstanceAs (Decidable (∀ r ∈ tool.rules, _))

/-- The outcomes that say nothing about the program. -/
def toolOutcomes : List Text := [timeout, Wrappers.failure, unimplemented, other]

/-- The categories that credit a tool with a diagnosis, right or wrong. -/
def diagnoses : List ResCategory := [.TRUE_POS, .FALSE_POS, .TRUE_NEG, .FALSE_NEG]

/-- No verdict comes back, and the test counts as no diagnosis of the tool. -/
def Uncredited (tool : Tool) (w : Workdir) : Prop :=
  tool.parse w ∈ toolOutcomes ∧
    ∀ testID expected result, categorize tool w testID expected = .ok result →
      result.resCategory ∉ diagnoses

theorem judge_not_mem_diagnoses {outcome : Text} (h : outcome ∈ toolOutcomes) (elapsed : Text)
    (expected : Expect) : (judge outcome elapsed expected).1 ∉ diagnoses := by
  unfold judge
  by_cases h₁ : outcome = timeout
  · rw [if_pos h₁]
    exact (by decide : ResCategory.timeout ∉ diagnoses)
  rw [if_neg h₁]
  by_cases h₂ : outcome = Wrappers.failure
  · rw [if_pos h₂]
    decide
  rw [if_neg h₂]
  by_cases h₃ : outcome = unimplemented
  · rw [if_pos h₃]
    decide
  rw [if_neg h₃]
  by_cases h₄ : outcome = other
  · rw [if_pos h₄]
    decide
  · simp only [toolOutcomes, List.mem_cons, h₁, h₂, h₃, h₄, List.not_mem_nil, or_self] at h

theorem uncredited_iff (tool : Tool) (w : Workdir) :
    Uncredited tool w ↔ tool.parse w ∈ toolOutcomes := by
  refine ⟨(·.1), fun h => ⟨h, ?_⟩⟩
  intro testID expected result hresult
  obtain ⟨elapsed, hcategory⟩ := categorize_resCategory hresult
  rw [hcategory]
  exact judge_not_mem_diagnoses h elapsed expected

/-- **Without any known text in the output there is no verdict,** unless it is
PARCOACH that has been run. -/
theorem no_evidence_iff (tool : Tool) (w : Workdir) (hnone : Unexplained tool w) :
    Uncredited tool w ↔ (tool = .parcoach → w.file (.log .txt) = none) := by
  rw [uncredited_iff, parse_eq, (cascade_eq_none_iff _).mpr hnone, Option.getD_none]
  by_cases hrec : Recorded tool w
  · rw [if_pos hrec]
    have htxt : w.file (.log .txt) ≠ none := by
      intro h
      simpa [h] using hrec.1
    by_cases hp : tool = .parcoach
    · subst hp
      have hdeadlock : "deadlock".toList ∉ toolOutcomes := by decide
      exact iff_of_false hdeadlock (fun h => htxt (h rfl))
    · refine iff_of_true ?_ (fun h => absurd h hp)
      unfold fallback
      split
      · exact List.mem_cons_self ..
      · have hother : tool.inconclusive = other := by
          cases tool <;> first | rfl | exact absurd rfl hp
        rw [hother]
        decide
  · rw [if_neg hrec]
    refine iff_of_true (by decide) ?_
    rintro rfl
    by_contra htxt
    exact hrec ⟨Option.isSome_iff_ne_none.mpr htxt, by simp [Tool.report]⟩

/-- The files of a run with the given output and report that took three seconds. -/
def sampleFiles (txt : Text) (html : Option Text) : Workdir :=
  workdir false fun
    | .log .txt => some txt
    | .log .elapsed => some "3".toList
    | .html => html
    | _ => none

/-- MUST on an output it knows nothing about. -/
theorem no_evidence_must :
    Uncredited .must (sampleFiles "Segmentation fault".toList (some [])) ↔
      (Tool.must = .parcoach →
        (sampleFiles "Segmentation fault".toList (some [])).file (.log .txt) = none) :=
  no_evidence_iff .must (sampleFiles "Segmentation fault".toList (some [])) (by decide)

/-- **PARCOACH detects an error by crashing.** -/
theorem crash_parcoach :
    Unexplained .parcoach (sampleFiles "Segmentation fault".toList none) ∧
      Tool.parcoach.parse (sampleFiles "Segmentation fault".toList none) = "deadlock".toList ∧
      (categorize .parcoach (sampleFiles "Segmentation fault".toList none) "test_0".toList
        .ERROR).toOption.map (·.resCategory) = some .TRUE_POS ∧
      ¬ Uncredited .parcoach (sampleFiles "Segmentation fault".toList none) := by
  have hparse : Tool.parcoach.parse (sampleFiles "Segmentation fault".toList none) =
      "deadlock".toList := by decide
  refine ⟨by decide, hparse, by decide, ?_⟩
  rw [uncredited_iff, hparse]
  decide

/-! ## Success and errors in one output -/

def success : Text := "OK".toList

/-- An error diagnostic: neither a success nor a word about the tool. -/
def isError : Verdict → Bool
  | .is t => decide (t ∉ success :: toolOutcomes)
  | .group _ => true

/-- A pattern is there that the wrapper maps to an error verdict. -/
def ErrorShown (tool : Tool) (w : Workdir) : Prop :=
  ∃ r ∈ tool.rules, isError r.verdict = true ∧ (r.hit (output w) (report tool w)).isSome = true

instance (tool : Tool) (w : Workdir) : Decidable (ErrorShown tool w) :=
  inferInstanceAs (Decidable (∃ r ∈ tool.rules, _))

theorem fallback_ne_success (tool : Tool) (w : Workdir) : fallback tool w ≠ success := by
  have htimeout : timeout ≠ success := by decide
  have hinc : ∀ t : Tool, t.inconclusive ≠ success := by
    intro t
    cases t <;> decide
  unfold fallback
  split
  · exact htimeout
  · exact hinc tool

theorem parse_eq_success_iff (tool : Tool) (w : Workdir) :
    tool.parse w = success ↔
      Recorded tool w ∧ cascade (output w) (report tool w) tool.rules = some success := by
  rw [parse_eq]
  by_cases hrec : Recorded tool w
  · rw [if_pos hrec]
    cases hc : cascade (output w) (report tool w) tool.rules with
    | none => simp [fallback_ne_success]
    | some v => simp [hrec]
  · have hfailure : Wrappers.failure ≠ success := by decide
    simp [hrec, hfailure]

section Cascade

variable {o h : Text}

/-- The branch that is taken, and that none before it is. -/
theorem split_of_cascade {rs : List Rule} {v : Text} (hv : cascade o h rs = some v) :
    ∃ pre r post m, rs = pre ++ r :: post ∧ (∀ q ∈ pre, q.hit o h = none) ∧
      r.hit o h = some m ∧ v = r.verdict.text m := by
  induction rs with
  | nil => cases hv
  | cons r rs ih =>
    rw [cascade] at hv
    cases hr : r.hit o h with
    | some m =>
      rw [hr] at hv
      exact ⟨[], r, rs, m, rfl, by simp, hr, (Option.some.inj hv).symm⟩
    | none =>
      rw [hr] at hv
      obtain ⟨pre, q, post, m, rfl, hpre, hq, ht⟩ := ih hv
      refine ⟨r :: pre, q, post, m, rfl, ?_, hq, ht⟩
      intro p hp
      rcases List.mem_cons.mp hp with rfl | hp
      · exact hr
      · exact hpre p hp

/-- The verdict is not read off the output. -/
def isFixed : Verdict → Bool
  | .is _ => true
  | .group _ => false

/-- All verdicts are fixed, and no error stands below a success. -/
def ErrorsFirst (rs : List Rule) : Prop :=
  (∀ r ∈ rs, isFixed r.verdict = true) ∧
    rs.Pairwise fun r q => r.verdict = .is success → isError q.verdict = false

instance (rs : List Rule) : Decidable (ErrorsFirst rs) := inferInstanceAs (Decidable (_ ∧ _))

theorem errorsFirst_ne_success {rs : List Rule} (hrs : ErrorsFirst rs)
    (herr : ∃ r ∈ rs, isError r.verdict = true ∧ (r.hit o h).isSome = true) :
    cascade o h rs ≠ some success := by
  intro hv
  obtain ⟨pre, r, post, m, rfl, hpre, hr, ht⟩ := split_of_cascade hv
  have hfixed := hrs.1 r (by simp)
  obtain ⟨t, htext⟩ : ∃ t, r.verdict = .is t := by
    cases hverdict : r.verdict with
    | is t => exact ⟨t, rfl⟩
    | group n => rw [hverdict] at hfixed; cases hfixed
  rw [htext] at ht
  obtain rfl : success = t := ht
  have hbelow := (List.pairwise_cons.mp (List.pairwise_append.mp hrs.2).2.1).1
  obtain ⟨q, hq, hqe, hqh⟩ := herr
  rcases List.mem_append.mp hq with hq | hq
  · simp [hpre q hq] at hqh
  · rcases List.mem_cons.mp hq with rfl | hq
    · rw [htext] at hqe
      exact absurd hqe (by decide)
    · rw [hbelow q hq htext] at hqe
      cases hqe

/-- Only one branch returns `t`: it comes back iff that branch is the first. -/
theorem cascade_only {pre post : List Rule} {r : Rule} {t : Text}
    (hpre : ∀ q ∈ pre, Avoids t q = true) (hpost : ∀ q ∈ post, Avoids t q = true)
    (ht : r.verdict = .is t) :
    cascade o h (pre ++ r :: post) = some t ↔
      (r.hit o h).isSome = true ∧ ∀ q ∈ pre, q.hit o h = none := by
  cases hr : r.hit o h with
  | some m => simp [cascade_middle hpre hr ht]
  | none =>
    refine iff_of_false ?_ (by simp)
    rw [cascade_append, cascade, hr]
    cases hc : cascade o h pre with
    | none => exact cascade_ne hpost
    | some v =>
      intro hv
      rw [Option.some_or] at hv
      exact cascade_ne hpre (hc.trans hv)

end Cascade

def noErrorsMark : Text := "No errors found".toList
def propertiesMark : Text := "The standard properties hold for all executions".toList

/-- ITAC's first diagnostic of the kind is one about `OK`. -/
def NamesOK (upper lower : String) (o : Text) : Prop :=
  ∃ m ∈ search (itacPattern upper lower) o, m.group 1 = some success

/-- The outputs in which no success hides an error.  Aislinn looks for its
success text before all errors but one, CIVL before six of its patterns; ITAC
returns whatever stands in the diagnostic, which may be `OK`. -/
def Unmasked : Tool → Text → Prop
  | .aislinn, o => raceMark <:+: o ∨ ¬ noErrorsMark <:+: o
  | .civl, o => (∃ r ∈ civlRules.take 11, (r.hit o []).isSome = true) ∨ ¬ propertiesMark <:+: o
  | .itac, o =>
    (search compilePattern o).isSome = true ∨ raceMark <:+: o ∨
      if (search (itacPattern "ERROR: " "error") o).isSome = true
      then ¬ NamesOK "ERROR: " "error" o
      else ¬ NamesOK "WARNING: " "warning" o
  | _, _ => True

theorem found_lit_isSome_iff (w v o h : Text) :
    ((found (lit w) v).hit o h).isSome = true ↔ w <:+: o := by
  rw [found_hit, search_lit_isSome]

theorem aislinn_success_iff (o : Text) :
    cascade o [] Tool.aislinn.rules = some success ↔ ¬ Unmasked .aislinn o := by
  have hrules : Tool.aislinn.rules = [raceRule] ++ found (lit noErrorsMark) success ::
      Tool.aislinn.rules.drop 2 := rfl
  rw [hrules, cascade_only (by decide) (by decide) rfl]
  simp only [List.mem_singleton, forall_eq, raceRule, found_lit_eq_none_iff, found_lit_isSome_iff,
    Unmasked, not_or, not_not, and_comm]

theorem civl_success_iff (o : Text) :
    cascade o [] Tool.civl.rules = some success ↔ ¬ Unmasked .civl o := by
  have hrules : Tool.civl.rules = civlRules.take 11 ++ found (lit propertiesMark) success ::
      civlRules.drop 12 := rfl
  rw [hrules, cascade_only (by decide) (by decide) rfl]
  simp only [found_lit_isSome_iff, Unmasked, not_or, not_not, not_exists, not_and,
    Bool.not_eq_true, Option.isSome_eq_false_iff, Option.isNone_iff_eq_none, and_comm]

/-- The verdict of a branch that returns a group of its match. -/
theorem group_eq_success_iff (m : Match) (n : ℕ) :
    Verdict.text m (.group n) = success ↔ m.group n = some success := by
  have hnil : [] ≠ success := by decide
  cases hg : m.group n with
  | none => simpa [Verdict.text, hg] using hnil
  | some t => simp [Verdict.text, hg]

theorem itac_success_iff (o : Text) (herr : ∃ r ∈ Tool.itac.rules, isError r.verdict = true ∧
      (r.hit o []).isSome = true) :
    cascade o [] Tool.itac.rules = some success ↔ ¬ Unmasked .itac o := by
  have hcompile : compileRule.hit o [] = search compilePattern o := found_hit ..
  have hrace : (raceRule.hit o []).isSome = true ↔ raceMark <:+: o := found_lit_isSome_iff ..
  have hnames : ∀ upper lower, Rule.hit ⟨false, [itacPattern upper lower], .group 1⟩ o [] =
      search (itacPattern upper lower) o := fun _ _ => by simp [Rule.hit]
  have hne : unimplemented ≠ success ∧ raceMark ≠ success := by decide
  have hrest : isError (.is unimplemented) = false ∧ isError (.is success) = false ∧
      isError (.is timeout) = false := by decide
  simp only [Unmasked]
  rw [← hrace, ← hcompile]
  simp only [Tool.rules, itacRules, cascade]
  cases hc : compileRule.hit o [] with
  | some m => exact iff_of_false (fun hv => hne.1 (Option.some.inj hv)) (by simp)
  | none =>
    cases hr : raceRule.hit o [] with
    | some m => exact iff_of_false (fun hv => hne.2 (Option.some.inj hv)) (by simp)
    | none =>
      rw [hnames, hnames]
      cases he : search (itacPattern "ERROR: " "error") o with
      | some m => simp [NamesOK, he, group_eq_success_iff]
      | none =>
        cases hw : search (itacPattern "WARNING: " "warning") o with
        | some m => simp [NamesOK, hw, group_eq_success_iff]
        | none =>
          -- the other branches are no errors
          obtain ⟨r, hmem, hre, hrh⟩ := herr
          simp only [Tool.rules, itacRules, List.mem_cons, List.not_mem_nil, or_false] at hmem
          exfalso
          rcases hmem with rfl | rfl | rfl | rfl | rfl | rfl
          · simp [hc] at hrh
          · simp [hr] at hrh
          · simp [hnames, he] at hrh
          · simp [hnames, hw] at hrh
          · exact Bool.false_ne_true (hrest.2.1.symm.trans hre)
          · exact Bool.false_ne_true (hrest.2.2.symm.trans hre)

/-- Nothing is masked where nothing has been recorded. -/
theorem recorded_of_masked {tool : Tool} {w : Workdir} (hreport : tool.report = none)
    (hnil : Unmasked tool []) (hmasked : ¬ Unmasked tool (output w)) : Recorded tool w := by
  refine ⟨?_, by simp [hreport]⟩
  by_contra htxt
  rw [Bool.not_eq_true, Option.isSome_eq_false_iff, Option.isNone_iff_eq_none] at htxt
  unfold output at hmasked
  rw [htxt] at hmasked
  exact hmasked hnil

/-- **The outputs with an error that do not come back as a success.** -/
theorem error_not_masked_iff (tool : Tool) (w : Workdir) (herr : ErrorShown tool w) :
    tool.parse w ≠ success ↔ Unmasked tool (output w) := by
  rw [Ne, parse_eq_success_iff, not_iff_comm, Iff.comm]
  have hfirst : ErrorsFirst tool.rules →
      ¬ (Recorded tool w ∧ cascade (output w) (report tool w) tool.rules = some success) :=
    fun hrs hv => errorsFirst_ne_success hrs herr hv.2
  have hmasked : tool.report = none → Unmasked tool [] →
      (cascade (output w) [] tool.rules = some success ↔ ¬ Unmasked tool (output w)) →
      (Recorded tool w ∧ cascade (output w) [] tool.rules = some success ↔
        ¬ Unmasked tool (output w)) := by
    intro hreport hnil hiff
    rw [hiff]
    exact ⟨(·.2), fun hm => ⟨recorded_of_masked hreport hnil hm, hm⟩⟩
  cases tool with
  | aislinn =>
    exact hmasked rfl (Or.inr (by decide)) (aislinn_success_iff _)
  | civl =>
    exact hmasked rfl (Or.inr (by decide)) (civl_success_iff _)
  | itac =>
    have hnil : search (itacPattern "ERROR: " "error") [] = none ∧
        search (itacPattern "WARNING: " "warning") [] = none := by decide
    exact hmasked rfl (Or.inr (Or.inr (by simp [NamesOK, hnil]))) (itac_success_iff _ herr)
  | hermes => exact iff_of_false (hfirst (by decide)) (not_not_intro trivial)
  | isp => exact iff_of_false (hfirst (by decide)) (not_not_intro trivial)
  | mpisv => exact iff_of_false (hfirst (by decide)) (not_not_intro trivial)
  | must => exact iff_of_false (hfirst (by decide)) (not_not_intro trivial)
  | parcoach => exact iff_of_false (hfirst (by decide)) (not_not_intro trivial)
  | simgrid => exact iff_of_false (hfirst (by decide)) (not_not_intro trivial)
  | smpi => exact iff_of_false (hfirst (by decide)) (not_not_intro trivial)
  | smpivg => exact iff_of_false (hfirst (by decide)) (not_not_intro trivial)

/-- ISP on a resource leak in a run without deadlocks. -/
theorem error_not_masked_isp :
    Tool.isp.parse (sampleFiles "resource leaks detected\nISP detected no deadlocks".toList none) ≠
        success ↔
      Unmasked .isp (output
        (sampleFiles "resource leaks detected\nISP detected no deadlocks".toList none)) :=
  error_not_masked_iff .isp
    (sampleFiles "resource leaks detected\nISP detected no deadlocks".toList none)
    ⟨ispRules[4], List.getElem_mem .., by decide, by decide⟩

/-- **Aislinn, CIVL and ITAC report a success for an output with an error.** -/
theorem error_masked :
    (ErrorShown .aislinn (sampleFiles
        "INFO: Found error 'Deadlock'\nNo errors found".toList none) ∧
      Tool.aislinn.parse (sampleFiles
        "INFO: Found error 'Deadlock'\nNo errors found".toList none) = success) ∧
    (ErrorShown .civl (sampleFiles ("kind: MPI_ERROR, certainty: PROVEABLE\n" ++
        "The standard properties hold for all executions").toList none) ∧
      Tool.civl.parse (sampleFiles ("kind: MPI_ERROR, certainty: PROVEABLE\n" ++
        "The standard properties hold for all executions").toList none) = success) ∧
    (ErrorShown .itac (sampleFiles "ERROR: OK: error".toList none) ∧
      Tool.itac.parse (sampleFiles "ERROR: OK: error".toList none) = success) := by
  refine ⟨⟨?_, by decide⟩, ⟨?_, by decide⟩, ?_, by decide⟩
  · exact ⟨aislinnRules[2], List.getElem_mem .., by decide, by decide⟩
  · exact ⟨civlRules[15], List.getElem_mem .., by decide, by decide⟩
  · exact ⟨itacRules[2], List.getElem_mem .., by decide, by decide⟩

end MpiBugs.Evidence
