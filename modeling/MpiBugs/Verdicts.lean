import MpiBugs.Wrappers

/-!
# What becomes of compilation failures and timeouts

The verdicts of the eleven wrappers on the two outcomes that `run_cmd` marks
itself.

* `compile_failure_iff`: the tools and compiler outputs for which a compilation
  failure is reported as a coverage issue;
* `timeout_reported_iff`: the tools and outputs for which an interrupted run
  without diagnostic is reported as a timeout.
-/

namespace MpiBugs.Verdicts

open Regex FileStore TextFile Header RunCmd Wrappers

/-! ## First branches -/

section Cascade

variable {o h : Text}

theorem cascade_append (rs qs : List Rule) :
    cascade o h (rs ++ qs) = (cascade o h rs).or (cascade o h qs) := by
  induction rs with
  | nil => rfl
  | cons r rs ih =>
    simp only [List.cons_append, cascade]
    cases r.hit o h with
    | none => exact ih
    | some m => rfl

theorem cascade_eq_none_iff (rs : List Rule) :
    cascade o h rs = none ↔ ∀ r ∈ rs, r.hit o h = none := by
  induction rs with
  | nil => simp [cascade]
  | cons r rs ih =>
    rw [cascade]
    cases hr : r.hit o h with
    | none => simp [ih, hr]
    | some m => simp [hr]

theorem of_cascade_eq_some {rs : List Rule} {v : Text} (hv : cascade o h rs = some v) :
    ∃ r ∈ rs, ∃ m, r.hit o h = some m ∧ v = r.verdict.text m := by
  induction rs with
  | nil => cases hv
  | cons r rs ih =>
    rw [cascade] at hv
    cases hr : r.hit o h with
    | none =>
      rw [hr] at hv
      obtain ⟨q, hq, hm⟩ := ih hv
      exact ⟨q, List.mem_cons_of_mem _ hq, hm⟩
    | some m =>
      rw [hr] at hv
      exact ⟨r, List.mem_cons_self .., m, hr, (Option.some.inj hv).symm⟩

/-- The branch returns a fixed text, another one than `t`. -/
def Avoids (t : Text) (r : Rule) : Bool :=
  match r.verdict with
  | .is u => u != t
  | .group _ => false

theorem cascade_ne {rs : List Rule} {t : Text} (hrs : ∀ r ∈ rs, Avoids t r = true) :
    cascade o h rs ≠ some t := by
  intro hv
  obtain ⟨r, hr, m, _, ht⟩ := of_cascade_eq_some hv
  have havoid := hrs r hr
  unfold Avoids at havoid
  cases hr : r.verdict with
  | group n => simp [hr] at havoid
  | is u =>
    rw [hr] at ht
    simp [hr, Verdict.text] at havoid ht
    exact havoid ht.symm

/-- Before a branch that is taken only branches with other verdicts: the verdict
of that branch is returned iff none of them is taken. -/
theorem cascade_middle {pre post : List Rule} {r : Rule} {t : Text} {m : Match}
    (hpre : ∀ q ∈ pre, Avoids t q = true) (hr : r.hit o h = some m) (ht : r.verdict = .is t) :
    cascade o h (pre ++ r :: post) = some t ↔ ∀ q ∈ pre, q.hit o h = none := by
  have hlast : cascade o h (r :: post) = some t := by
    rw [cascade, hr, ht]
    rfl
  rw [cascade_append, hlast, ← cascade_eq_none_iff]
  cases hc : cascade o h pre with
  | none => simp
  | some v =>
    have hne : v ≠ t := by
      rintro rfl
      exact cascade_ne hpre hc
    simp [hne]

end Cascade

theorem found_hit (p : Regex) (v o h : Text) : (found p v).hit o h = search p o := by
  simp [Rule.hit, found]

theorem found_lit_eq_none_iff (w v o h : Text) :
    (found (lit w) v).hit o h = none ↔ ¬ w <:+: o := by
  rw [found_hit, ← search_lit_isSome, Bool.not_eq_true, Option.isSome_eq_false_iff,
    Option.isNone_iff_eq_none]

/-! ## The files `run_cmd` leaves -/

/-- The files of a test after a run, and the report of the tool, if there is one. -/
def leftFiles {ι : Type} (report : Option Text) (s : Store LogFile ι) : ResultFile → Option Text
  | .log f => (s f).map (·.content)
  | _ => report

/-- The same files, seen from the logs directory or from the main one. -/
def workdir (fromRoot : Bool) (files : ResultFile → Option Text) : Workdir :=
  if fromRoot then ⟨fun _ => none, files⟩ else ⟨files, fun _ => none⟩

@[simp] theorem workdir_file (fromRoot : Bool) (files : ResultFile → Option Text)
    (f : ResultFile) : (workdir fromRoot files).file f = files f := by
  cases fromRoot <;> simp [workdir, Workdir.file]

/-! ## Compilation failures -/

theorem compilePattern_found (u : Text) {x : Text} (hx : '\n' ∉ x) (v : Text) :
    (search compilePattern
      (u ++ ("Compilation of ".toList ++ (x ++ (" raised an error (retcode: ".toList ++ v))))).isSome := by
  rw [search_isSome_iff]
  refine ⟨u, _, ⟨v, []⟩, rfl, ?_⟩
  have hdot : ∀ c ∈ x, (c != '\n') = true := by
    intro c hc
    rw [bne_iff_ne]
    rintro rfl
    exact hx hc
  refine Steps.seq (t := ⟨x ++ (" raised an error (retcode: ".toList ++ v), []⟩) ?_
    (Steps.seq (t := ⟨" raised an error (retcode: ".toList ++ v, []⟩) ?_ ?_)
  · exact (steps_lit_iff ..).mpr ⟨rfl, rfl⟩
  · exact (steps_star_cls_iff ..).mpr ⟨x, rfl, hdot, rfl⟩
  · exact (steps_lit_iff ..).mpr ⟨rfl, rfl⟩

/-- The failure `run_cmd` notes at the end of the output is found there. -/
theorem compilePattern_failureOutput (c : Call) :
    (search compilePattern (universalNewlines (failureOutput c))).isSome := by
  have hsplit : failureOutput c = buildOutput c ++ ("Compilation of ".toList ++
      ((c.binary.text ++ ".c".toList) ++ (" raised an error (retcode: ".toList ++
        (intText c.compilerCode ++ ")".toList)))) := by
    have hjoin : ".c raised an error (retcode: ".toList =
        ".c".toList ++ " raised an error (retcode: ".toList := by decide
    simp only [failureOutput, hjoin, List.append_assoc]
  have h₁ : OneLine "Compilation of ".toList := by decide
  have h₂ : OneLine (c.binary.text ++ ".c".toList) := by
    rw [oneLine_append]
    exact ⟨c.binary.oneLine, by decide⟩
  have h₃ : OneLine " raised an error (retcode: ".toList := by decide
  have hhead : ∀ t : Text, ("Compilation of ".toList ++ t).head? ≠ some '\n' := by
    intro t
    rw [String.toList_ofList]
    simp
  rw [hsplit, universalNewlines_append_right _ (hhead _), universalNewlines_append h₁,
    universalNewlines_append h₂, universalNewlines_append h₃]
  exact compilePattern_found _ (fun hm => (h₂ _ hm).1 rfl) _

/-- When a wrapper gets to see the failure: MUST and MPI-SV give up before, for
want of a report; Hermes does not look for it; Aislinn and PARCOACH look for
other texts before. -/
def SeesFailure : Tool → Text → Prop
  | .must, _ | .mpisv, _ | .hermes, _ => False
  | .parcoach, output => ¬ raceMark <:+: output
  | .aislinn, output => ∀ d ∈ aislinnDiagnostics, ¬ d.1 <:+: output
  | _, _ => True

/-- Without a report the verdict of the cascade is returned, if it gives one. -/
theorem parse_of_cascade {tool : Tool} {fromRoot : Bool} {files : ResultFile → Option Text}
    {txt v : Text} (hreport : tool.report = none) (htxt : files (.log .txt) = some txt)
    (hv : cascade (universalNewlines txt) [] tool.rules = some v) :
    tool.parse (workdir fromRoot files) = v := by
  have hnil : universalNewlines [] = [] := rfl
  simp only [Tool.parse, workdir_file, htxt, hreport, hnil, hv]

/-- Of a tool without report no verdict comes back that no branch returns. -/
theorem parse_ne {tool : Tool} {fromRoot : Bool} {files : ResultFile → Option Text} {txt t : Text}
    (hreport : tool.report = none) (hmust : tool ≠ .must) (htxt : files (.log .txt) = some txt)
    (hc : cascade (universalNewlines txt) [] tool.rules ≠ some t) (ht : tool.inconclusive ≠ t) :
    tool.parse (workdir fromRoot files) ≠ t := by
  cases hv : cascade (universalNewlines txt) [] tool.rules with
  | some v =>
    rw [parse_of_cascade hreport htxt hv]
    rintro rfl
    exact hc hv
  | none =>
    have hnil : universalNewlines [] = [] := rfl
    simpa only [Tool.parse, workdir_file, htxt, hreport, hnil, hv, hmust, false_and,
      ↓reduceIte] using ht

/-- The files of a test that has been run once, in an empty directory. -/
def firstRun (host : Host) (c : Call) : Store LogFile ℕ :=
  applyAll 0 empty (runCmd host c (empty : Store LogFile ℕ)).1

theorem firstRun_failure (host : Host) {c : Call} (hf : compileFails c = true) :
    leftFiles none (firstRun host c) (.log .txt) = some (failureOutput c) := by
  unfold firstRun
  rcases runCmd_cases host c 0 empty with ⟨hhit, _⟩ | ⟨_, heff⟩
  · obtain ⟨t, _, _, ht, _⟩ := (lookup_eq_hit_iff host c _).mp hhit
    cases ht
  · generalize applyAll 0 empty (runCmd host c (empty : Store LogFile ℕ)).1 = s' at heff ⊢
    generalize (runCmd host c (empty : Store LogFile ℕ)).2 = r at heff
    cases heff with
    | failed _ _ ht => simp only [leftFiles, ht, Option.map_some]
    | completed hno => rw [hno] at hf; cases hf
    | aborted _ hno => rw [hno] at hf; cases hf

/-- A wrapper whose first branch is the compilation failure takes it. -/
theorem parse_compileRule {tool : Tool} {rs : List Rule} {fromRoot : Bool}
    {files : ResultFile → Option Text} {txt : Text} (hreport : tool.report = none)
    (hrules : tool.rules = compileRule :: rs) (htxt : files (.log .txt) = some txt)
    (hm : (search compilePattern (universalNewlines txt)).isSome) :
    tool.parse (workdir fromRoot files) = unimplemented := by
  obtain ⟨m, hm⟩ := Option.isSome_iff_exists.mp hm
  apply parse_of_cascade hreport htxt
  rw [hrules, cascade, compileRule, found_hit, hm]
  rfl

/-- The cascade in front of a branch that is taken, for a tool without report. -/
theorem parse_middle {tool : Tool} {pre post : List Rule} {r : Rule} {fromRoot : Bool}
    {files : ResultFile → Option Text} {txt : Text} {m : Match} (hreport : tool.report = none)
    (hrules : tool.rules = pre ++ r :: post)
    (hpre : ∀ q ∈ pre, Avoids unimplemented q = true)
    (htxt : files (.log .txt) = some txt) (hr : r.hit (universalNewlines txt) [] = some m)
    (hv : r.verdict = .is unimplemented) :
    tool.parse (workdir fromRoot files) = unimplemented ↔
      ∀ q ∈ pre, q.hit (universalNewlines txt) [] = none := by
  have hmiddle := @cascade_middle _ _ pre post r _ m hpre hr hv
  rw [← hrules] at hmiddle
  rw [← hmiddle]
  obtain ⟨v, hcascade⟩ : ∃ v, cascade (universalNewlines txt) [] tool.rules = some v := by
    cases hc : cascade (universalNewlines txt) [] tool.rules with
    | some v => exact ⟨v, rfl⟩
    | none =>
      have hnone := (cascade_eq_none_iff tool.rules).mp hc r (by simp [hrules])
      rw [hr] at hnone
      cases hnone
  rw [parse_of_cascade hreport htxt hcascade, hcascade, Option.some.injEq]

/-- **Where a compilation failure is reported as a coverage issue,** starting
from an empty log directory. -/
theorem compile_failure_iff (host : Host) (tool : Tool) {c : Call} (hf : compileFails c = true)
    (fromRoot : Bool) :
    tool.parse (workdir fromRoot (leftFiles none (firstRun host c))) = unimplemented ↔
      SeesFailure tool (universalNewlines (failureOutput c)) := by
  have htxt := firstRun_failure host hf
  have hseen := compilePattern_failureOutput c
  have hreport : leftFiles none (firstRun host c) .html = none ∧
      leftFiles none (firstRun host c) .kleeInfo = none := ⟨rfl, rfl⟩
  generalize leftFiles none (firstRun host c) = files at htxt hreport
  have hfirst : ∀ {rs : List Rule}, tool.report = none → tool.rules = compileRule :: rs →
      tool.parse (workdir fromRoot files) = unimplemented := fun h₁ h₂ =>
    parse_compileRule h₁ h₂ htxt hseen
  obtain ⟨m, hm⟩ := Option.isSome_iff_exists.mp hseen
  have hfailure : Wrappers.failure ≠ unimplemented := by decide
  cases tool with
  | civl => exact iff_of_true (hfirst rfl rfl) trivial
  | isp => exact iff_of_true (hfirst rfl rfl) trivial
  | itac => exact iff_of_true (hfirst rfl rfl) trivial
  | simgrid => exact iff_of_true (hfirst rfl rfl) trivial
  | smpi => exact iff_of_true (hfirst rfl rfl) trivial
  | smpivg => exact iff_of_true (hfirst rfl rfl) trivial
  | must =>
    refine iff_of_false ?_ id
    simpa only [Tool.parse, workdir_file, htxt, Tool.report, hreport.1] using hfailure
  | mpisv =>
    refine iff_of_false ?_ id
    simpa only [Tool.parse, workdir_file, htxt, Tool.report, hreport.2] using hfailure
  | hermes =>
    -- no branch of this cascade says so, nor does its end
    refine iff_of_false ?_ id
    have havoid : ∀ q ∈ Tool.hermes.rules, Avoids unimplemented q = true := by decide
    exact parse_ne rfl (by decide) htxt (cascade_ne havoid) (by decide)
  | parcoach =>
    have hrules : Tool.parcoach.rules = [raceRule] ++ compileRule ::
        [prints "0 warning(s) issued" "OK",
         prints "missing info for external function" "UNIMPLEMENTED"] := rfl
    have hpre : ∀ q ∈ [raceRule], Avoids unimplemented q = true := by decide
    have hhit : compileRule.hit (universalNewlines (failureOutput c)) [] = some m := by
      rw [compileRule, found_hit, hm]
    rw [parse_middle rfl hrules hpre htxt hhit rfl]
    simp only [List.mem_singleton, forall_eq, raceRule, found_lit_eq_none_iff, SeesFailure]
  | aislinn =>
    have hrules : Tool.aislinn.rules = aislinnDiagnostics.map (fun d => found (lit d.1) d.2) ++
        ⟨false, [unknownPattern, compilePattern], .is unimplemented⟩ ::
          [prints "Traceback (most recent call last):" "failure"] := rfl
    have hpre : ∀ q ∈ aislinnDiagnostics.map (fun d => found (lit d.1) d.2),
        Avoids unimplemented q = true := by decide
    obtain ⟨m', hhit⟩ : ∃ m', Rule.hit ⟨false, [unknownPattern, compilePattern],
        .is unimplemented⟩ (universalNewlines (failureOutput c)) [] = some m' := by
      rw [← Option.isSome_iff_exists]
      simp [Rule.hit, hm]
    rw [parse_middle rfl hrules hpre htxt hhit rfl]
    simp only [List.forall_mem_map, found_lit_eq_none_iff, SeesFailure]

/-- Mc SimGrid on a compilation failure. -/
theorem compile_failure_simgrid :
    Tool.simgrid.parse (workdir false
        (leftFiles none (firstRun sampleHost (sampleCall [] 1)))) = unimplemented ↔
      SeesFailure .simgrid (universalNewlines (failureOutput (sampleCall [] 1))) :=
  compile_failure_iff sampleHost .simgrid (by decide) false

/-- **MUST takes a compilation failure for one of its own.** -/
theorem compile_failure_must : compileFails (sampleCall [] 1) = true ∧
    Tool.must.parse (workdir false (leftFiles none (firstRun sampleHost (sampleCall [] 1)))) =
      Wrappers.failure ∧
    Wrappers.failure ≠ unimplemented := by
  refine ⟨by decide, by decide, by decide⟩

/-! ## Timeouts -/

/-- A verdict about the program: none of those about the tool. -/
def Verdict.diagnostic : Verdict → Bool
  | .is t => t != timeout && t != Wrappers.failure && t != unimplemented
  | .group _ => true

/-- No error or success diagnostic the wrapper searches for is there. -/
def Silent (tool : Tool) (output report : Text) : Prop :=
  ∀ r ∈ tool.rules, Verdict.diagnostic r.verdict = true → r.hit output report = none

instance (tool : Tool) (output report : Text) : Decidable (Silent tool output report) :=
  inferInstanceAs (Decidable (∀ r ∈ tool.rules, _))

/-- Nothing is there that the wrapper takes for a failure of the tool or an
unsupported feature. -/
def NoExcuse (tool : Tool) (output report : Text) : Prop :=
  ∀ r ∈ tool.rules, r.verdict = .is Wrappers.failure ∨ r.verdict = .is unimplemented →
    r.hit output report = none

/-- The report as a wrapper reads it, if it does. -/
def readReport (tool : Tool) (report : Option Text) : Text :=
  if tool.report = none then [] else universalNewlines (report.getD [])

/-- When a wrapper reports an interrupted run as such: MUST if there is a report,
and five others if the tool was killed by signal 15 after 300 seconds. -/
def SeesTimeout (tool : Tool) (output : Text) (report : Option Text) : Prop :=
  NoExcuse tool output (readReport tool report) ∧
    match tool with
    | .must => report.isSome = true
    | .hermes | .isp | .itac | .smpi | .smpivg => killedMark <:+: output
    | _ => False

/-- What a silent branch before the last one returns is an excuse. -/
theorem excuse_of_silent {tool : Tool} {o h : Text} (hs : Silent tool o h) {r : Rule}
    (hr : r ∈ tool.rules) (hne : r.verdict ≠ .is timeout) {m : Match} (hm : r.hit o h = some m) :
    r.verdict = .is Wrappers.failure ∨ r.verdict = .is unimplemented := by
  have hno : Verdict.diagnostic r.verdict = false := by
    cases hd : Verdict.diagnostic r.verdict with
    | false => rfl
    | true => rw [hs r hr hd] at hm; cases hm
  cases hv : r.verdict with
  | group n => rw [hv] at hno; cases hno
  | is t =>
    rw [hv] at hno hne
    simp only [Verdict.diagnostic, Bool.and_eq_false_iff, bne_eq_false_iff_eq] at hno
    rcases hno with (rfl | rfl) | rfl
    · exact absurd rfl hne
    · exact Or.inl rfl
    · exact Or.inr rfl

theorem timeout_ne : timeout ≠ Wrappers.failure ∧ timeout ≠ unimplemented := by decide

/-- A silent cascade without a branch for timeouts does not report one. -/
theorem silent_cascade_ne {tool : Tool} {o h : Text} (hs : Silent tool o h) {rs : List Rule}
    (hsub : ∀ r ∈ rs, r ∈ tool.rules) (hne : ∀ r ∈ rs, r.verdict ≠ .is timeout) :
    cascade o h rs ≠ some timeout := by
  intro hv
  obtain ⟨r, hr, m, hm, ht⟩ := of_cascade_eq_some hv
  rcases excuse_of_silent hs (hsub r hr) (hne r hr) hm with hx | hx
  · rw [hx] at ht
    exact timeout_ne.1 ht
  · rw [hx] at ht
    exact timeout_ne.2 ht

/-- A silent cascade whose branches before `rs` are no excuse goes on with `rs`. -/
theorem silent_prefix_none {tool : Tool} {o h : Text} (hs : Silent tool o h) {pre : List Rule}
    (hsub : ∀ r ∈ pre, r ∈ tool.rules) (hne : ∀ r ∈ pre, r.verdict ≠ .is timeout)
    (hx : NoExcuse tool o h) : cascade o h pre = none := by
  rw [cascade_eq_none_iff]
  intro r hr
  cases hm : r.hit o h with
  | none => rfl
  | some m =>
    rw [hx r (hsub r hr) (excuse_of_silent hs (hsub r hr) (hne r hr) hm)] at hm
    cases hm

/-- **A cascade that ends with the signal line.** -/
theorem killed_cascade_iff {tool : Tool} {o h : Text} (hs : Silent tool o h) {pre : List Rule}
    (hrules : tool.rules = pre ++ [killedRule]) (hne : ∀ r ∈ pre, r.verdict ≠ .is timeout) :
    cascade o h tool.rules = some timeout ↔ NoExcuse tool o h ∧ killedMark <:+: o := by
  have hsub : ∀ r ∈ pre, r ∈ tool.rules := fun r hr => by simp [hrules, hr]
  have hkilled : cascade o h [killedRule] = some timeout ↔ killedMark <:+: o := by
    rw [← not_iff_not, ← found_lit_eq_none_iff killedMark timeout o h, cascade]
    change ¬ _ ↔ killedRule.hit o h = none
    cases killedRule.hit o h with
    | none => simp [cascade]
    | some m => simp [killedRule, found, Verdict.text]
  constructor
  · intro hv
    have hpre : cascade o h pre = none := by
      cases hc : cascade o h pre with
      | none => rfl
      | some v =>
        rw [hrules, cascade_append, hc, Option.some_or, Option.some.injEq] at hv
        exact absurd (hv ▸ hc) (silent_cascade_ne hs hsub hne)
    refine ⟨?_, ?_⟩
    · intro r hr hx
      rw [hrules, List.mem_append, List.mem_singleton] at hr
      rcases hr with hr | rfl
      · exact (cascade_eq_none_iff pre).mp hpre r hr
      · exfalso
        rcases hx with hx | hx
        · exact timeout_ne.1 (Verdict.is.inj hx)
        · exact timeout_ne.2 (Verdict.is.inj hx)
    · rwa [hrules, cascade_append, hpre, Option.none_or, hkilled] at hv
  · rintro ⟨hx, hk⟩
    rw [hrules, cascade_append, silent_prefix_none hs hsub hne hx, Option.none_or]
    exact hkilled.mpr hk

theorem parse_eq_iff {tool : Tool} {fromRoot : Bool} {files : ResultFile → Option Text}
    {txt t : Text} (hreport : tool.report = none) (hmust : tool ≠ .must)
    (htxt : files (.log .txt) = some txt) (ht : tool.inconclusive ≠ t) :
    tool.parse (workdir fromRoot files) = t ↔
      cascade (universalNewlines txt) [] tool.rules = some t :=
  ⟨fun h => by_contra fun hc => parse_ne hreport hmust htxt hc ht h,
    parse_of_cascade hreport htxt⟩

/-- The verdict of a tool with its report. -/
theorem parse_report {tool : Tool} {fromRoot : Bool} {files : ResultFile → Option Text}
    {txt r : Text} {f : ResultFile} (hreport : tool.report = some f)
    (htxt : files (.log .txt) = some txt) (hr : files f = some r) :
    tool.parse (workdir fromRoot files) =
      (cascade (universalNewlines txt) (universalNewlines r) tool.rules).getD
        (if tool = .must ∧ (files (.log .timeout)).isSome = true then timeout
          else tool.inconclusive) := by
  simp only [Tool.parse, workdir_file, htxt, hreport, hr]
  cases cascade (universalNewlines txt) (universalNewlines r) tool.rules <;> rfl

/-! ### The kinds of wrappers -/

section Kinds

variable {fromRoot : Bool} {files : ResultFile → Option Text} {txt : Text}

/-- A tool without report that has no branch for timeouts. -/
theorem parse_ne_timeout {tool : Tool} (hreport : tool.report = none) (hmust : tool ≠ .must)
    (hinc : tool.inconclusive ≠ timeout) (htxt : files (.log .txt) = some txt)
    (hs : Silent tool (universalNewlines txt) [])
    (hne : ∀ r ∈ tool.rules, r.verdict ≠ .is timeout) :
    tool.parse (workdir fromRoot files) ≠ timeout :=
  parse_ne hreport hmust htxt (silent_cascade_ne hs (fun _ hr => hr) hne) hinc

/-- A tool without report that looks for the signal line last. -/
theorem parse_killed_iff {tool : Tool} (pre : List Rule) (hreport : tool.report = none)
    (hmust : tool ≠ .must) (hinc : tool.inconclusive ≠ timeout)
    (htxt : files (.log .txt) = some txt) (hs : Silent tool (universalNewlines txt) [])
    (hrules : tool.rules = pre ++ [killedRule]) (hne : ∀ r ∈ pre, r.verdict ≠ .is timeout) :
    tool.parse (workdir fromRoot files) = timeout ↔
      NoExcuse tool (universalNewlines txt) [] ∧ killedMark <:+: universalNewlines txt := by
  rw [parse_eq_iff hreport hmust htxt hinc]
  exact killed_cascade_iff hs hrules hne

/-- MPI-SV has a report, and no branch for timeouts. -/
theorem parse_mpisv_ne_timeout {report : Option Text} (htxt : files (.log .txt) = some txt)
    (hreport : files .kleeInfo = report)
    (hs : Silent .mpisv (universalNewlines txt) (readReport .mpisv report)) :
    Tool.mpisv.parse (workdir fromRoot files) ≠ timeout := by
  have hfailure : Wrappers.failure ≠ timeout := timeout_ne.1.symm
  have hother : other ≠ timeout := by decide
  cases report with
  | none => simpa only [Tool.parse, workdir_file, htxt, Tool.report, hreport] using hfailure
  | some r =>
    have hne := silent_cascade_ne hs (fun _ hr => hr) (by decide)
    change cascade _ (universalNewlines r) _ ≠ _ at hne
    rw [parse_report rfl htxt hreport]
    cases hc : cascade (universalNewlines txt) (universalNewlines r) Tool.mpisv.rules with
    | none => exact hother
    | some v =>
      rintro rfl
      exact hne hc

/-- MUST has a report, and falls back on the time-out file. -/
theorem parse_must_timeout_iff {report : Option Text} (htxt : files (.log .txt) = some txt)
    (hreport : files .html = report) (htimeout : (files (.log .timeout)).isSome = true)
    (hs : Silent .must (universalNewlines txt) (readReport .must report)) :
    Tool.must.parse (workdir fromRoot files) = timeout ↔
      SeesTimeout .must (universalNewlines txt) report := by
  have hfailure : Wrappers.failure ≠ timeout := timeout_ne.1.symm
  cases report with
  | none =>
    refine iff_of_false ?_ (fun h => Bool.false_ne_true h.2)
    simpa only [Tool.parse, workdir_file, htxt, Tool.report, hreport] using hfailure
  | some r =>
    have hne := silent_cascade_ne hs (fun _ hr => hr) (by decide)
    have hnone := fun hx => silent_prefix_none hs (fun _ hr => hr) (by decide) hx
    change cascade _ (universalNewlines r) _ ≠ _ at hne
    rw [parse_report rfl htxt hreport]
    cases hc : cascade (universalNewlines txt) (universalNewlines r) Tool.must.rules with
    | none =>
      exact iff_of_true (if_pos ⟨rfl, htimeout⟩)
        ⟨fun q hq _ => (cascade_eq_none_iff _).mp hc q hq, rfl⟩
    | some v =>
      refine iff_of_false (fun hv => hne ?_) (fun h => ?_)
      · rw [hc]
        exact congrArg some hv
      · have hn : cascade (universalNewlines txt) (universalNewlines r) Tool.must.rules =
          none := hnone h.1
        rw [hc] at hn
        cases hn

end Kinds

/-- What an interrupted run leaves. -/
theorem timeout_files {host : Host} {c : Call} {ι : Type} {i : ι} {s : Store LogFile ι}
    (hran : (runCmd host c s).2 = .ran) (ht : timesOut c = true) {output : Text}
    (hout : transcript host c = some output) (report : Option Text) :
    leftFiles report (applyAll i s (runCmd host c s).1) (.log .txt) = some output ∧
      (leftFiles report (applyAll i s (runCmd host c s).1) (.log .timeout)).isSome = true := by
  rcases runCmd_cases host c i s with ⟨_, hcached, _⟩ | ⟨_, heff⟩
  · rw [hcached] at hran
    cases hran
  · generalize applyAll i s (runCmd host c s).1 = s' at heff ⊢
    rw [hran] at heff
    cases heff with
    | failed hf => simp [timesOut, hf] at ht
    | completed _ hout' _ htxt _ htimeout =>
      rw [hout] at hout'
      obtain rfl := Option.some.inj hout'
      simp [leftFiles, htxt, htimeout, timeoutFile, ht]
    | aborted hr => rcases hr with hr | hr <;> cases hr

/-- **Where an interrupted run is reported as a timeout,** if no error or success
diagnostic is there. -/
theorem timeout_reported_iff (host : Host) (tool : Tool) {c : Call} {ι : Type} {i : ι}
    {s : Store LogFile ι} (hran : (runCmd host c s).2 = .ran) (ht : timesOut c = true)
    {output : Text} (hout : transcript host c = some output) (report : Option Text)
    (hs : Silent tool (universalNewlines output) (readReport tool report)) (fromRoot : Bool) :
    tool.parse (workdir fromRoot
        (leftFiles report (applyAll i s (runCmd host c s).1))) = timeout ↔
      SeesTimeout tool (universalNewlines output) report := by
  obtain ⟨htxt, htimeout⟩ := timeout_files (i := i) hran ht hout report
  have hhtml : leftFiles report (applyAll i s (runCmd host c s).1) .html = report := rfl
  have hklee : leftFiles report (applyAll i s (runCmd host c s).1) .kleeInfo = report := rfl
  generalize leftFiles report (applyAll i s (runCmd host c s).1) = files at htxt htimeout hhtml hklee
  have hother : other ≠ timeout := by decide
  cases tool with
  | aislinn =>
    exact iff_of_false (parse_ne_timeout rfl (by decide) hother htxt hs (by decide)) (·.2)
  | civl =>
    exact iff_of_false (parse_ne_timeout rfl (by decide) hother htxt hs (by decide)) (·.2)
  | simgrid =>
    exact iff_of_false (parse_ne_timeout rfl (by decide) hother htxt hs (by decide)) (·.2)
  | parcoach =>
    have hinc : Tool.parcoach.inconclusive ≠ timeout := by decide
    exact iff_of_false (parse_ne_timeout rfl (by decide) hinc htxt hs (by decide)) (·.2)
  | hermes =>
    exact parse_killed_iff hermesRules.dropLast rfl (by decide) hother htxt hs rfl (by decide)
  | isp =>
    exact parse_killed_iff ispRules.dropLast rfl (by decide) hother htxt hs rfl (by decide)
  | itac =>
    exact parse_killed_iff itacRules.dropLast rfl (by decide) hother htxt hs rfl (by decide)
  | smpi =>
    exact parse_killed_iff (compileRule :: smpiRules) rfl (by decide) hother htxt hs rfl
      (by decide)
  | smpivg =>
    exact parse_killed_iff (compileRule ::
      found (chars "ERROR SUMMARY: " ++ cls (· != '0')) Wrappers.failure :: smpiRules)
      rfl (by decide) hother htxt hs rfl (by decide)
  | mpisv => exact iff_of_false (parse_mpisv_ne_timeout htxt hklee hs) (·.2)
  | must => exact parse_must_timeout_iff htxt hhtml htimeout hs

def slowOutput : Text := commandOutput slowCall ++ status sampleHost slowCall (-15)

/-- ISP, stopped after 300 seconds. -/
theorem timeout_reported_isp :
    Tool.isp.parse (workdir false (leftFiles none (firstRun sampleHost slowCall))) = timeout ↔
      SeesTimeout .isp (universalNewlines slowOutput) none :=
  @timeout_reported_iff sampleHost .isp slowCall ℕ 0 empty (by decide +kernel)
    (by decide +kernel) slowOutput (by decide +kernel) none (by decide +kernel) false

/-- **PARCOACH reports a deadlock for a run that was stopped.** -/
theorem timeout_parcoach :
    (runCmd sampleHost slowCall (empty : Store LogFile ℕ)).2 = .ran ∧
      timesOut slowCall = true ∧
      transcript sampleHost slowCall = some slowOutput ∧
      Silent .parcoach (universalNewlines slowOutput) [] ∧
      Tool.parcoach.parse (workdir false (leftFiles none (firstRun sampleHost slowCall))) =
        "deadlock".toList ∧
      "deadlock".toList ≠ timeout := by
  refine ⟨by decide +kernel, by decide +kernel, by decide +kernel, by decide +kernel,
    by decide +kernel, by decide +kernel⟩

end MpiBugs.Verdicts
