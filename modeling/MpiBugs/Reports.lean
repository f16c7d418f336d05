import MpiBugs.RunCmd

/-!
# Reports in a shared directory

`Tool.run` of MUST and MPI-SV: around `run_cmd` the tool leaves its report under
one name for all tests, and the wrapper then gives it the name of the test.

* `step_provenance`: what one run, complete or killed, must find and do for the
  reports to stay those of the recorded outputs;
* `run_provenance`: a run of the directory all of whose steps do so never has a
  report of another run beside an output.
-/

namespace MpiBugs.Reports

open FileStore TextFile RunCmd

inductive ReportTool
  | must | mpisv
  deriving DecidableEq, Repr

/-- The files of the logs directory.  `shared` is `MUST_Output.html`, or the
directory `klee-last` points at; `report` is `{cachefile}.html`, or
`{cachefile}-klee-out`.  A klee directory stands for the `info` file in it. -/
inductive Path
  | log (cachefile : Text) (f : LogFile)
  | report (cachefile : Text)
  | shared
  deriving DecidableEq, Repr

/-- One run of a test: its call of `run_cmd`, the report the tool creates before
it ends, if any, and the number of operations before the process was killed, if
it was. -/
structure TestRun where
  cachefile : Text
  call : Call
  report : Option Text
  killed : Option Nat
  deriving DecidableEq

section

variable (host : Host) {ι : Type}

/-- The files of the test itself. -/
def own (e : TestRun) (s : Store Path ι) : Store LogFile ι := s ∘ Path.log e.cachefile

/-- The report the tool creates, if it is run at all. -/
def created (e : TestRun) : Option Text :=
  if !compileFails e.call && e.call.started then e.report else none

/-- A test with another source on record loses its output first. -/
def evict (e : TestRun) (s : Store Path ι) : List (Op Path) :=
  if lookup host e.call (own e s) = .stale then [.remove (.log e.cachefile .txt)] else []

/-- The files that the tool and `run_cmd` write. -/
def puts (e : TestRun) : List (Op Path) :=
  (created e).toList.map (.put .shared) ++
    (fresh host e.call).1.map (Op.map (Path.log e.cachefile))

/-- The operations during `run_cmd`. -/
def body (e : TestRun) (s : Store Path ι) : List (Op Path) :=
  if lookup host e.call (own e s) = .hit then [] else evict host e s ++ puts host e

def result (e : TestRun) (s : Store Path ι) : Result := (runCmd host e.call (own e s)).2

/-- The operations after `run_cmd`, on the directory as it then is. -/
def tidy (tool : ReportTool) (e : TestRun) (ran : Bool) (s : Store Path ι) : List (Op Path) :=
  match tool with
  | .must => if (s .shared).isSome then [.rename .shared (.report e.cachefile)] else []
  | .mpisv =>
    if (s .shared).isSome ∧ (s (.report e.cachefile)).isNone then
      [.rename .shared (.report e.cachefile)]
    else if ran then [.remove .shared]
    else []

/-- Whether the call of `run_cmd` returns. -/
def returns (e : TestRun) (s : Store Path ι) : Bool :=
  result host e s = .cached ∨ result host e s = .ran

/-- `Tool.run`, undisturbed. -/
def steps (tool : ReportTool) (e : TestRun) (i : ι) (s : Store Path ι) : List (Op Path) :=
  body host e s ++
    if returns host e s then
      tidy tool e (result host e s = .ran) (applyAll i s (body host e s))
    else []

/-- What is carried out of it. -/
def carriedOut (tool : ReportTool) (e : TestRun) (i : ι) (s : Store Path ι) : List (Op Path) :=
  match e.killed with
  | none => steps host tool e i s
  | some n => (steps host tool e i s).take n

/-- Runs of tests one after the other, in a directory that starts empty. -/
def testRuns (tool : ReportTool) : System (Store Path ℕ) TestRun where
  init := empty
  step past s e s' := s' = applyAll past.length s (carriedOut host tool e past.length s)

/-- The run gets to the end of `Tool.run`. -/
def Finishes (tool : ReportTool) (e : TestRun) (i : ι) (s : Store Path ι) : Prop :=
  returns host e s = true ∧ carriedOut host tool e i s = steps host tool e i s

/-- The run gets to open the output file for writing. -/
def Opens (tool : ReportTool) (e : TestRun) (i : ι) (s : Store Path ι) : Prop :=
  ∃ content, .put (.log e.cachefile .txt) content ∈ carriedOut host tool e i s

/-! ## The operations during `run_cmd` -/

section Body

variable (e : TestRun) (i : ι) (s : Store Path ι)

theorem puts_put : ∀ op ∈ puts host e, ∃ k content, op = Op.put k content := by
  intro op hop
  unfold puts at hop
  rcases List.mem_append.mp hop with hop | hop
  · obtain ⟨r, _, rfl⟩ := List.mem_map.mp hop
    exact ⟨_, _, rfl⟩
  · obtain ⟨op', hop', rfl⟩ := List.mem_map.mp hop
    obtain ⟨k, content, rfl⟩ := fresh_puts host e.call op' hop'
    exact ⟨_, _, rfl⟩

/-- What is put is a file of the test, or the shared report. -/
theorem put_mem_puts_iff (k : Path) (content : Text) :
    .put k content ∈ puts host e ↔ (k = .shared ∧ created e = some content) ∨
      ∃ f, k = .log e.cachefile f ∧ .put f content ∈ (fresh host e.call).1 := by
  unfold puts
  rw [List.mem_append, List.mem_map, List.mem_map]
  constructor
  · rintro (⟨r, hr, heq⟩ | ⟨op, hop, heq⟩)
    · obtain ⟨rfl, rfl⟩ := Op.put.inj heq
      exact Or.inl ⟨rfl, Option.mem_toList.mp hr⟩
    · obtain ⟨f, content', rfl⟩ := fresh_puts host e.call op hop
      obtain ⟨rfl, rfl⟩ := Op.put.inj heq
      exact Or.inr ⟨f, rfl, hop⟩
  · rintro (⟨rfl, hr⟩ | ⟨f, rfl, hop⟩)
    · exact Or.inl ⟨content, Option.mem_toList.mpr hr, rfl⟩
    · exact Or.inr ⟨_, hop, rfl⟩

/-- Evicting changes nothing but the output of the test, which it removes. -/
theorem evict_frame (m : ℕ) {k : Path} (hk : k ≠ .log e.cachefile .txt) :
    applyAll i s ((evict host e s).take m) k = s k := by
  apply applyAll_frame
  intro op hop
  have hop := List.mem_of_mem_take hop
  unfold evict at hop
  split at hop
  · rw [List.mem_singleton] at hop
    subst hop
    simpa [Op.names] using hk
  · simp at hop

theorem evict_txt (m : ℕ) :
    applyAll i s ((evict host e s).take m) (.log e.cachefile .txt) = none ∨
      applyAll i s ((evict host e s).take m) (.log e.cachefile .txt) =
        s (.log e.cachefile .txt) := by
  unfold evict
  split
  · cases m with
    | zero => exact Or.inr rfl
    | succ m => exact Or.inl (by simp)
  · exact Or.inr (by simp)

/-- Up to any moment during `run_cmd`, a file is what was put there, or what it
was, unless it is the output of the test and has been removed. -/
theorem body_take (hmiss : lookup host e.call (own e s) ≠ .hit) (n : ℕ) (k : Path) :
    (∃ content, .put k content ∈ (body host e s).take n ∧
        applyAll i s ((body host e s).take n) k = some ⟨content, i⟩) ∨
      ((∀ content, .put k content ∉ (body host e s).take n) ∧
        (applyAll i s ((body host e s).take n) k = s k ∨
          (k = .log e.cachefile .txt ∧ applyAll i s ((body host e s).take n) k = none))) := by
  rw [body, if_neg hmiss, List.take_append, applyAll_append]
  have hevict : ∀ content, .put k content ∉ (evict host e s).take n := by
    intro content hm
    have hm := List.mem_of_mem_take hm
    unfold evict at hm
    split at hm <;> simp at hm
  generalize n - (evict host e s).length = m
  have hputs : ∀ op ∈ (puts host e).take m, ∃ k content, op = Op.put k content := fun op hop =>
    puts_put host e op (List.mem_of_mem_take hop)
  rcases applyAll_puts i hputs (applyAll i s ((evict host e s).take n)) k with
    ⟨content, hm, hk⟩ | ⟨hno, hk⟩
  · exact Or.inl ⟨content, List.mem_append_right _ hm, hk⟩
  · refine Or.inr ⟨?_, ?_⟩
    · intro content hm
      rcases List.mem_append.mp hm with hm | hm
      · exact hevict content hm
      · exact hno content hm
    · rw [hk]
      by_cases hkt : k = .log e.cachefile .txt
      · subst hkt
        rcases evict_txt host e i s n with h | h
        · exact Or.inr ⟨rfl, h⟩
        · exact Or.inl h
      · exact Or.inl (evict_frame host e i s n hkt)

theorem body_hit (hhit : lookup host e.call (own e s) = .hit) : body host e s = [] := if_pos hhit

/-- During `run_cmd` no test's report changes, nor another test's files. -/
theorem body_frame (n : ℕ) {k : Path} (hshared : k ≠ .shared)
    (hlog : ∀ f, k ≠ .log e.cachefile f) :
    applyAll i s ((body host e s).take n) k = s k := by
  by_cases hhit : lookup host e.call (own e s) = .hit
  · simp [body_hit host e s hhit]
  · rcases body_take host e i s hhit n k with ⟨content, hm, _⟩ | ⟨_, h | ⟨rfl, _⟩⟩
    · have hm := List.mem_of_mem_take hm
      rw [body, if_neg hhit, List.mem_append] at hm
      rcases hm with hm | hm
      · unfold evict at hm
        split at hm <;> simp at hm
      · rcases (put_mem_puts_iff host e k content).mp hm with ⟨rfl, _⟩ | ⟨f, rfl, _⟩
        · exact absurd rfl hshared
        · exact absurd rfl (hlog f)
    · exact h
    · exact absurd rfl (hlog .txt)

/-- The shared report after the tool has run: its own, if it made one. -/
def sharedAfter (e : TestRun) (i : ι) (s : Store Path ι) : Option (File ι) :=
  match created e with
  | some r => some ⟨r, i⟩
  | none => s .shared

theorem body_shared (hmiss : lookup host e.call (own e s) ≠ .hit) :
    applyAll i s (body host e s) .shared = sharedAfter e i s := by
  unfold sharedAfter
  have htake := body_take host e i s hmiss (body host e s).length .shared
  rw [List.take_length] at htake
  have hmem : ∀ content, .put .shared content ∈ body host e s ↔ created e = some content := by
    intro content
    have hno : .put .shared content ∉ evict host e s := by
      intro hm
      unfold evict at hm
      split at hm <;> simp at hm
    rw [body, if_neg hmiss, List.mem_append, put_mem_puts_iff]
    simp [hno]
  rcases htake with ⟨content, hm, hk⟩ | ⟨hno, hk | ⟨h, _⟩⟩
  · rw [hk, (hmem content).mp hm]
  · cases hc : created e with
    | some r => exact absurd ((hmem r).mpr hc) (hno r)
    | none => exact hk
  · cases h

/-- If `run_cmd` returns and was not answered from the cache, the output is new. -/
theorem body_txt (hmiss : lookup host e.call (own e s) ≠ .hit) (hret : returns host e s = true) :
    ∃ content, applyAll i s (body host e s) (.log e.cachefile .txt) = some ⟨content, i⟩ := by
  have hcached : result host e s ≠ .cached := fun h => hmiss ((cached_iff host e.call _).mp h)
  have hran : (fresh host e.call).2 = .ran := by
    have h : result host e s = .ran := by simpa [returns, hcached] using hret
    cases hl : lookup host e.call (own e s) with
    | hit => exact absurd hl hmiss
    | stale => simpa [result, runCmd, hl] using h
    | miss => simpa [result, runCmd, hl] using h
  obtain ⟨content, hc⟩ := fresh_ran host e.call hran
  have hm : .put (.log e.cachefile .txt) content ∈ body host e s := by
    rw [body, if_neg hmiss]
    exact List.mem_append_right _ ((put_mem_puts_iff host e _ _).mpr (Or.inr ⟨_, rfl, hc⟩))
  have htake := body_take host e i s hmiss (body host e s).length (.log e.cachefile .txt)
  rw [List.take_length] at htake
  rcases htake with ⟨content', _, hk⟩ | ⟨hno, _⟩
  · exact ⟨content', hk⟩
  · exact absurd hm (hno content)

end Body

/-! ## The operations after it -/

section Tidy

variable (tool : ReportTool) (e : TestRun) (ran : Bool) (i : ι) (s : Store Path ι)

/-- MUST's report replaces an older one, MPI-SV's does not. -/
def kept (tool : ReportTool) (shared report : Option (File ι)) : Option (File ι) :=
  match tool with
  | .must => shared.or report
  | .mpisv => report.or shared

/-- The report kept is one of the two. -/
theorem kept_cases {tool : ReportTool} {shared report : Option (File ι)} {f : File ι}
    (h : kept tool shared report = some f) : shared = some f ∨ report = some f := by
  cases tool with
  | must => exact (Option.or_eq_some_iff.mp h).imp_right And.right
  | mpisv => exact (Option.or_eq_some_iff.mp h).symm.imp_left And.right

theorem kept_eq_none_iff {tool : ReportTool} {shared report : Option (File ι)} :
    kept tool shared report = none ↔ shared = none ∧ report = none := by
  cases tool with
  | must => exact Option.or_eq_none_iff
  | mpisv => exact Option.or_eq_none_iff.trans and_comm

theorem kept_shared {tool : ReportTool} {report : Option (File ι)}
    (h : tool = .mpisv → report = none) (f : File ι) : kept tool (some f) report = some f := by
  cases tool with
  | must => rfl
  | mpisv => rw [h rfl, kept, Option.none_or]

theorem tidy_report : applyAll i s (tidy tool e ran s) (.report e.cachefile) =
    kept tool (s .shared) (s (.report e.cachefile)) := by
  cases tool with
  | must => cases h : s .shared <;> simp [tidy, kept, h, apply]
  | mpisv =>
    cases h : s .shared with
    | none => cases ran <;> simp [tidy, kept, h, apply]
    | some f =>
      cases hr : s (.report e.cachefile) with
      | none => simp [tidy, kept, h, hr, apply]
      | some r => cases ran <;> simp [tidy, kept, h, hr, apply]

theorem tidy_frame {k : Path} (hshared : k ≠ .shared) (hreport : k ≠ .report e.cachefile) :
    applyAll i s (tidy tool e ran s) k = s k := by
  apply applyAll_frame
  intro op hop
  have hop : op = .rename .shared (.report e.cachefile) ∨ op = .remove .shared := by
    unfold tidy at hop
    split at hop
    · split at hop <;> simp at hop
      exact Or.inl hop
    · split at hop
      · simp at hop
        exact Or.inl hop
      · split at hop <;> simp at hop
        exact Or.inr hop
  rcases hop with rfl | rfl <;> simp [Op.names, hshared, hreport]

theorem tidy_length : (tidy tool e ran s).length ≤ 1 := by
  unfold tidy
  split
  · split <;> simp
  · split
    · simp
    · split <;> simp

end Tidy

/-- A run that does not finish stops during `run_cmd`. -/
theorem carriedOut_unfinished {tool : ReportTool} {e : TestRun} {i : ι} {s : Store Path ι}
    (h : ¬ Finishes host tool e i s) :
    ∃ n, carriedOut host tool e i s = (body host e s).take n := by
  cases hret : returns host e s with
  | false =>
    have hsteps : steps host tool e i s = body host e s := by simp [steps, hret]
    cases hk : e.killed with
    | none => exact ⟨_, by rw [carriedOut, hk, hsteps, List.take_length]⟩
    | some n => exact ⟨n, by rw [carriedOut, hk, hsteps]⟩
  | true =>
    have hne : carriedOut host tool e i s ≠ steps host tool e i s := fun heq => h ⟨hret, heq⟩
    cases hk : e.killed with
    | none => exact absurd (by rw [carriedOut, hk]) hne
    | some n =>
      have hcarried : carriedOut host tool e i s = (steps host tool e i s).take n := by
        rw [carriedOut, hk]
      have hlt : n < (steps host tool e i s).length := by
        by_contra hle
        exact hne (by rw [hcarried, List.take_of_length_le (by omega)])
      have hlen := tidy_length tool e (result host e s = .ran) (applyAll i s (body host e s))
      have hsteps : steps host tool e i s = body host e s ++
          tidy tool e (result host e s = .ran) (applyAll i s (body host e s)) := by
        rw [steps, hret, if_pos rfl]
      rw [hsteps, List.length_append] at hlt
      exact ⟨n, by rw [hcarried, hsteps, List.take_append_of_le_length (by omega)]⟩

/-- What a run that finishes has carried out. -/
theorem applyAll_finished {tool : ReportTool} {e : TestRun} {i : ι} {s : Store Path ι}
    (h : Finishes host tool e i s) : applyAll i s (carriedOut host tool e i s) =
      applyAll i (applyAll i s (body host e s))
        (tidy tool e (result host e s = .ran) (applyAll i s (body host e s))) := by
  rw [h.2, steps, h.1, if_pos rfl, applyAll_append]

/-! ## Whose report it is -/

/-- Every file was written by a run so far, an output by a run of its test. -/
def Sound (past : List TestRun) (s : Store Path ℕ) : Prop :=
  (∀ k f, s k = some f → f.writer < past.length) ∧
    ∀ c t, s (.log c .txt) = some t → ∃ e, past[t.writer]? = some e ∧ e.cachefile = c

/-- The report beside an output is of the run that recorded it. -/
def Provenance (s : Store Path ℕ) : Prop :=
  ∀ c t r, s (.log c .txt) = some t → s (.report c) = some r → t.writer = r.writer

/-- The invariant of the runs. -/
def Tracked (past : List TestRun) (s : Store Path ℕ) : Prop := Sound past s ∧ Provenance s

/-- What a run must find and do for the provenance to stay. -/
structure Keeps (tool : ReportTool) (past : List TestRun) (s : Store Path ℕ) (e : TestRun) :
    Prop where
  /-- a cached run finds no shared report, or that of the run on record -/
  cached : lookup host e.call (own e s) = .hit → Finishes host tool e past.length s →
    (tool = .mpisv → s (.report e.cachefile) = none) → ∀ f t, s .shared = some f →
      s (.log e.cachefile .txt) = some t → t.writer = f.writer
  /-- a new run creates a report, or there is none yet under either name; for
  MPI-SV there is none yet under the name of the test -/
  recorded : lookup host e.call (own e s) ≠ .hit → Finishes host tool e past.length s →
    (tool = .mpisv → s (.report e.cachefile) = none) ∧
      (created e = none → s .shared = none ∧ s (.report e.cachefile) = none)
  /-- a run killed after it has opened the output finds no report of the test -/
  killed : ¬ Finishes host tool e past.length s → Opens host tool e past.length s →
    s (.report e.cachefile) = none

section Step

variable {host} {tool : ReportTool} {past : List TestRun} {s : Store Path ℕ} {e : TestRun}

/-- Of other tests a run changes neither output nor report. -/
theorem after_frame {k : Path} (hshared : k ≠ .shared) (hreport : k ≠ .report e.cachefile)
    (hlog : ∀ f, k ≠ .log e.cachefile f) :
    applyAll past.length s (carriedOut host tool e past.length s) k = s k := by
  by_cases hfin : Finishes host tool e past.length s
  · have hbody := body_frame host e past.length s (body host e s).length hshared hlog
    rw [List.take_length] at hbody
    rw [applyAll_finished host hfin, tidy_frame _ _ _ _ _ hshared hreport, hbody]
  · obtain ⟨n, hn⟩ := carriedOut_unfinished host hfin
    rw [hn, body_frame host e past.length s n hshared hlog]

/-- The output of the test after a run: new, as it was, or gone. -/
theorem after_txt : (∃ content, applyAll past.length s (carriedOut host tool e past.length s)
      (.log e.cachefile .txt) = some ⟨content, past.length⟩) ∨
    applyAll past.length s (carriedOut host tool e past.length s) (.log e.cachefile .txt) =
      s (.log e.cachefile .txt) ∨
    applyAll past.length s (carriedOut host tool e past.length s) (.log e.cachefile .txt) = none := by
  have htake : ∀ n, (∃ content, applyAll past.length s ((body host e s).take n)
        (.log e.cachefile .txt) = some ⟨content, past.length⟩) ∨
      applyAll past.length s ((body host e s).take n) (.log e.cachefile .txt) =
        s (.log e.cachefile .txt) ∨
      applyAll past.length s ((body host e s).take n) (.log e.cachefile .txt) = none := by
    intro n
    by_cases hhit : lookup host e.call (own e s) = .hit
    · simp [body_hit host e s hhit]
    · rcases body_take host e past.length s hhit n (.log e.cachefile .txt) with
        ⟨content, _, hk⟩ | ⟨_, hk | ⟨_, hk⟩⟩
      · exact Or.inl ⟨content, hk⟩
      · exact Or.inr (Or.inl hk)
      · exact Or.inr (Or.inr hk)
  by_cases hfin : Finishes host tool e past.length s
  · have hall := htake (body host e s).length
    rw [List.take_length] at hall
    rwa [applyAll_finished host hfin, tidy_frame _ _ _ _ _ (by simp) (by simp)]
  · obtain ⟨n, hn⟩ := carriedOut_unfinished host hfin
    rw [hn]
    exact htake n

theorem sound_step (hsound : Sound past s) :
    Sound (past ++ [e]) (applyAll past.length s (carriedOut host tool e past.length s)) := by
  have hold : ∀ c t, s (.log c .txt) = some t →
      ∃ e', (past ++ [e])[t.writer]? = some e' ∧ e'.cachefile = c := by
    intro c t ht
    obtain ⟨e', he', hc⟩ := hsound.2 c t ht
    exact ⟨e', getElem?_past he' e, hc⟩
  constructor
  · intro k f hf
    rw [List.length_append, List.length_singleton]
    rcases applyAll_origin past.length hf with hw | ⟨k', hk'⟩
    · omega
    · have := hsound.1 k' f hk'
      omega
  · intro c t ht
    by_cases hc : c = e.cachefile
    · subst hc
      rcases @after_txt host tool past s e with ⟨content, h⟩ | h | h
      · rw [h] at ht
        obtain rfl := Option.some.inj ht
        exact ⟨e, by simp, rfl⟩
      · exact hold _ t (h ▸ ht)
      · rw [h] at ht
        cases ht
    · rw [after_frame (by simp) (by simp) (by simpa using fun h => hc h)] at ht
      exact hold c t ht

/-- Only the test that was run matters. -/
theorem provenance_iff_own (hprov : Provenance s) :
    Provenance (applyAll past.length s (carriedOut host tool e past.length s)) ↔
      ∀ t r, applyAll past.length s (carriedOut host tool e past.length s)
          (.log e.cachefile .txt) = some t →
        applyAll past.length s (carriedOut host tool e past.length s)
          (.report e.cachefile) = some r → t.writer = r.writer := by
  constructor
  · exact fun h t r => h e.cachefile t r
  · intro h c t r ht hr
    by_cases hc : c = e.cachefile
    · subst hc
      exact h t r ht hr
    · rw [after_frame (by simp) (by simp) (by simpa using fun h => hc h)] at ht
      rw [after_frame (by simp) (by simpa using hc) (by simp)] at hr
      exact hprov c t r ht hr

/-- A cached run that finishes gives the test the shared report, if it takes it. -/
theorem provenance_cached (hprov : Provenance s) (hhit : lookup host e.call (own e s) = .hit)
    (hfin : Finishes host tool e past.length s) :
    Provenance (applyAll past.length s (carriedOut host tool e past.length s)) ↔
      ((tool = .mpisv → s (.report e.cachefile) = none) → ∀ f t, s .shared = some f →
        s (.log e.cachefile .txt) = some t → t.writer = f.writer) := by
  rw [provenance_iff_own hprov, applyAll_finished host hfin, body_hit host e s hhit,
    applyAll_nil, tidy_frame _ _ _ _ _ (by simp) (by simp), tidy_report]
  cases tool with
  | must =>
    constructor
    · intro h _ f t hf ht
      exact h t f ht (by simp [kept, hf])
    · intro h t r ht hr
      cases hf : s .shared with
      | none => exact hprov _ t r ht (by simpa [kept, hf] using hr)
      | some f =>
        obtain rfl : f = r := by simpa [kept, hf] using hr
        exact h (by simp) f t hf ht
  | mpisv =>
    constructor
    · intro h hnone f t hf ht
      exact h t f ht (by simp [kept, hf, hnone rfl])
    · intro h t r ht hr
      cases hrep : s (.report e.cachefile) with
      | none => exact h (fun _ => hrep) r t (by simpa [kept, hrep] using hr) ht
      | some r' =>
        obtain rfl : r' = r := by simpa [kept, hrep] using hr
        exact hprov _ t r' ht hrep

/-- A new run that finishes has a new output, so its report must be new. -/
theorem provenance_recorded (hsound : Sound past s) (hprov : Provenance s)
    (hmiss : lookup host e.call (own e s) ≠ .hit) (hfin : Finishes host tool e past.length s) :
    Provenance (applyAll past.length s (carriedOut host tool e past.length s)) ↔
      (tool = .mpisv → s (.report e.cachefile) = none) ∧
        (created e = none → s .shared = none ∧ s (.report e.cachefile) = none) := by
  obtain ⟨content, htxt⟩ := body_txt host e past.length s hmiss hfin.1
  have hshared := body_shared host e past.length s hmiss
  have hreport := body_frame host e past.length s (body host e s).length
    (k := .report e.cachefile) (by simp) (by simp)
  rw [List.take_length] at hreport
  have hold : ∀ k f, s k = some f → past.length ≠ f.writer := by
    intro k f hf
    have := hsound.1 k f hf
    omega
  rw [provenance_iff_own hprov, applyAll_finished host hfin,
    tidy_frame _ _ _ _ _ (by simp) (by simp), tidy_report, htxt, hshared, hreport]
  constructor
  · intro h
    have hnew : ∀ r, kept tool (sharedAfter e past.length s) (s (.report e.cachefile)) = some r →
        past.length = r.writer := fun r hr => h _ r rfl hr
    constructor
    · rintro rfl
      cases hrep : s (.report e.cachefile) with
      | none => rfl
      | some r => exact absurd (hnew r (by simp [kept, hrep])) (hold _ r hrep)
    · intro hc
      have hafter : sharedAfter e past.length s = s .shared := by simp [sharedAfter, hc]
      rw [hafter] at hnew
      -- what is kept would be old, so nothing is
      have hnone : kept tool (s .shared) (s (.report e.cachefile)) = none := by
        cases hkept : kept tool (s .shared) (s (.report e.cachefile)) with
        | none => rfl
        | some f =>
          rcases kept_cases hkept with hf | hf
          · exact absurd (hnew f hkept) (hold _ f hf)
          · exact absurd (hnew f hkept) (hold _ f hf)
      exact kept_eq_none_iff.mp hnone
  · rintro ⟨hmpisv, hnone⟩ t r ht hr
    obtain rfl := Option.some.inj ht
    cases hc : created e with
    | some c =>
      have hafter : sharedAfter e past.length s = some ⟨c, past.length⟩ := by
        simp [sharedAfter, hc]
      rw [hafter, kept_shared hmpisv] at hr
      obtain rfl := Option.some.inj hr
      rfl
    | none =>
      obtain ⟨hf, hrep⟩ := hnone hc
      have hafter : sharedAfter e past.length s = none := by simp [sharedAfter, hc, hf]
      rw [hafter, kept_eq_none_iff.mpr ⟨rfl, hrep⟩] at hr
      cases hr

/-- A run that does not finish leaves the report of the test alone. -/
theorem provenance_killed (hsound : Sound past s) (hprov : Provenance s)
    (hfin : ¬ Finishes host tool e past.length s) :
    Provenance (applyAll past.length s (carriedOut host tool e past.length s)) ↔
      (Opens host tool e past.length s → s (.report e.cachefile) = none) := by
  obtain ⟨n, hn⟩ := carriedOut_unfinished host hfin
  have hreport := body_frame host e past.length s n (k := .report e.cachefile) (by simp) (by simp)
  have hcase : (∃ content, .put (.log e.cachefile .txt) content ∈ (body host e s).take n ∧
        applyAll past.length s ((body host e s).take n) (.log e.cachefile .txt) =
          some ⟨content, past.length⟩) ∨
      ((∀ content, .put (.log e.cachefile .txt) content ∉ (body host e s).take n) ∧
        ∀ t, applyAll past.length s ((body host e s).take n) (.log e.cachefile .txt) = some t →
          s (.log e.cachefile .txt) = some t) := by
    by_cases hhit : lookup host e.call (own e s) = .hit
    · exact Or.inr (by simp [body_hit host e s hhit])
    · rcases body_take host e past.length s hhit n (.log e.cachefile .txt) with
        h | ⟨hno, hk | ⟨_, hk⟩⟩
      · exact Or.inl h
      · exact Or.inr ⟨hno, fun t ht => hk ▸ ht⟩
      · exact Or.inr ⟨hno, fun t ht => by rw [hk] at ht; cases ht⟩
  rw [provenance_iff_own hprov, Opens, hn, hreport]
  rcases hcase with ⟨content, hm, hk⟩ | ⟨hno, hk⟩
  · constructor
    · intro h _
      cases hrep : s (.report e.cachefile) with
      | none => rfl
      | some r =>
        have hw := h _ r hk hrep
        have := hsound.1 _ r hrep
        simp only at hw
        omega
    · intro h t r _ hr
      rw [h ⟨content, hm⟩] at hr
      cases hr
  · constructor
    · rintro _ ⟨content, hm⟩
      exact absurd hm (hno content)
    · intro _ t r ht hr
      exact hprov _ t r (hk t ht) hr

/-- **Exactly the runs that keep the reports those of the outputs.** -/
theorem step_provenance (hsound : Sound past s) (hprov : Provenance s) :
    Provenance (applyAll past.length s (carriedOut host tool e past.length s)) ↔
      Keeps host tool past s e := by
  by_cases hfin : Finishes host tool e past.length s
  · by_cases hhit : lookup host e.call (own e s) = .hit
    · rw [provenance_cached hprov hhit hfin]
      exact ⟨fun h => ⟨fun _ _ => h, fun hmiss => absurd hhit hmiss, fun hno => absurd hfin hno⟩,
        fun h => h.cached hhit hfin⟩
    · rw [provenance_recorded hsound hprov hhit hfin]
      exact ⟨fun h => ⟨fun hh => absurd hh hhit, fun _ _ => h, fun hno => absurd hfin hno⟩,
        fun h => h.recorded hhit hfin⟩
  · rw [provenance_killed hsound hprov hfin]
    exact ⟨fun h => ⟨fun _ hf => absurd hf hfin, fun _ hf => absurd hf hfin, fun _ => h⟩,
      fun h => h.killed hfin⟩

end Step

/-- **In every run whose steps keep to that, a report is of the run that recorded
the output beside it.** -/
theorem run_provenance {tool : ReportTool} {past : List TestRun} {s : Store Path ℕ}
    (h : Run (testRuns host tool) (Keeps host tool) past s) {c : Text} {t r : File ℕ}
    (ht : s (.log c .txt) = some t) (hr : s (.report c) = some r) :
    t.writer = r.writer ∧ ∃ e, past[r.writer]? = some e ∧ e.cachefile = c := by
  have hinv : Tracked past s := by
    refine h.invariant ?_ ?_
    · refine ⟨⟨fun k f hf => ?_, fun c t ht => ?_⟩, fun c t r ht => ?_⟩
      · cases hf
      · cases ht
      · cases ht
    · rintro past s e s' ⟨hsound, hprov⟩ hkeep rfl
      exact ⟨sound_step hsound, (step_provenance hsound hprov).mpr hkeep⟩
  have hw := hinv.2 c t r ht hr
  exact ⟨hw, hw ▸ hinv.1.2 c t ht⟩

end

/-! ## A good run of MUST, then a source that does not compile -/

/-- The first run of a test, whose tool leaves a report. -/
def goodRun : TestRun := ⟨['a'], sampleCall [] 0, some ['o', 'k'], none⟩

/-- The same test with another source, which does not compile. -/
def brokenRun : TestRun := ⟨['a'], sampleCall ['a'] 1, none, none⟩

def runsAll (host : Host) (tool : ReportTool) :
    ℕ → Store Path ℕ → List TestRun → Store Path ℕ
  | _, s, [] => s
  | n, s, e :: es => runsAll host tool (n + 1) (applyAll n s (carriedOut host tool e n s)) es

/-- Another test, which does not compile. -/
def otherRun : TestRun := ⟨['b'], sampleCall ['a'] 1, none, none⟩

/-- The first test with a source that leaves another report. -/
def changedRun : TestRun := ⟨['a'], sampleCall ['b'] 0, some ['n', 'o'], none⟩

/-- That version is run twice. -/
def cleanRuns : List TestRun := [goodRun, otherRun, changedRun, changedRun]

theorem cleanRuns_run : Run (testRuns sampleHost .must) (Keeps sampleHost .must) cleanRuns
    (runsAll sampleHost .must 0 empty cleanRuns) := by
  have hfirst : Run (testRuns sampleHost .must) (Keeps sampleHost .must) [goodRun]
      (runsAll sampleHost .must 0 empty [goodRun]) := by
    refine .next .start ⟨?_, ?_, ?_⟩ rfl
    · exact fun hhit => absurd hhit (by decide +kernel)
    · exact fun _ _ => ⟨nofun, fun h => absurd h (by decide +kernel)⟩
    · exact fun hno => absurd ⟨by decide +kernel, rfl⟩ hno
  have hother : Run (testRuns sampleHost .must) (Keeps sampleHost .must) [goodRun, otherRun]
      (runsAll sampleHost .must 0 empty [goodRun, otherRun]) := by
    refine .next hfirst ⟨?_, ?_, ?_⟩ rfl
    · exact fun hhit => absurd hhit (by decide +kernel)
    · -- the report of the first run has got its own name
      exact fun _ _ => ⟨nofun, fun _ => ⟨by decide +kernel, by decide +kernel⟩⟩
    · exact fun hno => absurd ⟨by decide +kernel, rfl⟩ hno
  have hchanged : Run (testRuns sampleHost .must) (Keeps sampleHost .must)
      [goodRun, otherRun, changedRun]
      (runsAll sampleHost .must 0 empty [goodRun, otherRun, changedRun]) := by
    refine .next hother ⟨?_, ?_, ?_⟩ rfl
    · exact fun hhit => absurd hhit (by decide +kernel)
    · exact fun _ _ => ⟨nofun, fun h => absurd h (by decide +kernel)⟩
    · exact fun hno => absurd ⟨by decide +kernel, rfl⟩ hno
  have hshared : runsAll sampleHost .must 0 empty [goodRun, otherRun, changedRun] .shared = none := by
    decide +kernel
  refine .next hchanged ⟨?_, ?_, ?_⟩ rfl
  · exact fun _ _ _ f t hf => absurd (hshared.symm.trans hf) nofun
  · exact fun hmiss => absurd (by decide +kernel) hmiss
  · exact fun hno => absurd ⟨by decide +kernel, rfl⟩ hno

/-- After these runs output and report are of one of them. -/
theorem goodRun_provenance : ∃ t r,
    runsAll sampleHost .must 0 empty cleanRuns (.log ['a'] .txt) = some t ∧
      runsAll sampleHost .must 0 empty cleanRuns (.report ['a']) = some r ∧
      t.writer = r.writer ∧ ∃ e, cleanRuns[r.writer]? = some e ∧ e.cachefile = ['a'] := by
  have htxt : (runsAll sampleHost .must 0 empty cleanRuns (.log ['a'] .txt)).isSome := by
    decide +kernel
  obtain ⟨t, ht⟩ := Option.isSome_iff_exists.mp htxt
  have hr : runsAll sampleHost .must 0 empty cleanRuns (.report ['a']) = some ⟨['n', 'o'], 2⟩ := by
    decide +kernel
  exact ⟨t, _, ht, hr, run_provenance sampleHost cleanRuns_run ht hr⟩

/-- **The broken version's output stands beside the report of the good one.** -/
theorem brokenRun_contaminated :
    Run (testRuns sampleHost .must) (fun _ _ _ => True) [goodRun, brokenRun]
        (runsAll sampleHost .must 0 empty [goodRun, brokenRun]) ∧
      runsAll sampleHost .must 0 empty [goodRun, brokenRun] (.log ['a'] .txt) =
        some ⟨failureOutput brokenRun.call, 1⟩ ∧
      runsAll sampleHost .must 0 empty [goodRun, brokenRun] (.report ['a']) =
        some ⟨['o', 'k'], 0⟩ := by
  refine ⟨.next (.next .start trivial rfl) trivial rfl, by decide +kernel, by decide +kernel⟩

end MpiBugs.Reports
