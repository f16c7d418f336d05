import MpiBugs.HtmlReport
import MpiBugs.Verdicts
import MpiBugs.Metrics

/-!
# The accounts of the LaTeX tables

The loop of `cmd_latex` that files every test under its result, for each tool:
under the category of the test, among all tests and, if an error is expected,
among those.

* `gather_eq`: what the loop files, in terms of the tests;
* `gather_accounted`: the accounts balance.
-/

namespace MpiBugs.Accounting

open TextFile Wrappers Categorize HtmlReport

/-- The first keys of `results`: those of `error_scope`, and two more. -/
inductive Scope
  | category (c : Category)
  | total
  | error
  deriving DecidableEq, Repr

/-- The last keys: the result categories, and two more where all tests, or all
tests with an error, are filed. -/
inductive Bucket
  | result (r : ResCategory)
  | error
  | OK
  deriving DecidableEq, Repr

/-- The dictionaries `results` and `timing`; durations are the texts that are
read as numbers. -/
structure Stats where
  results : Scope → Tool → Bucket → Option (List Text)
  timing : Scope → Tool → Option (List Text)

inductive LatexError
  | KeyError
  | exception (message : Text)
  /-- raised by `float(elapsed)` -/
  | notANumber (elapsed : Text)
  deriving DecidableEq, Repr

/-! ## The data structure -/

/-- The keys of `results[scope][toolname]`. -/
def hasBucket : Scope → Bucket → Bool
  | .category _, .result _ => true
  | .category _, _ => false
  | _, _ => true

@[simp] theorem hasBucket_result (s : Scope) (r : ResCategory) : hasBucket s (.result r) = true := by
  cases s <;> rfl

/-- `results[scope][toolname] = {...}`, with empty lists -/
def Stats.clear (st : Stats) (s : Scope) (tool : Tool) : Stats :=
  { results := fun s' t' b =>
      if s' = s ∧ t' = tool then (if hasBucket s b then some [] else none) else st.results s' t' b
    timing := fun s' t' => if s' = s ∧ t' = tool then some [] else st.timing s' t' }

/-- `results[error] = {}` -/
def Stats.drop (st : Stats) (s : Scope) : Stats :=
  { results := fun s' t b => if s' = s then none else st.results s' t b
    timing := fun s' t => if s' = s then none else st.timing s' t }

def initTool (c : Category) (st : Stats) (tool : Tool) : Stats :=
  ((st.clear (.category c) tool).clear .total tool).clear .error tool

def initScope (used : List Tool) (st : Stats) (c : Category) : Stats :=
  used.foldl (initTool c) (st.drop (.category c))

/-- The loop that initializes the data structure. -/
def initial (used : List Tool) : Stats :=
  Category.all.foldl (initScope used) ⟨fun _ _ _ => none, fun _ _ => none⟩

/-! ## Gathering -/

/-- `results[scope][toolname][bucket].append(test_ID)` -/
def Stats.append (st : Stats) (s : Scope) (tool : Tool) (b : Bucket) (x : Text) :
    Except LatexError Stats :=
  match st.results s tool b with
  | none => .error .KeyError
  | some xs => .ok { st with results := fun s' t' b' =>
      if s' = s ∧ t' = tool ∧ b' = b then some (xs ++ [x]) else st.results s' t' b' }

/-- `timing[scope][toolname].append(float(elapsed))` -/
def Stats.appendTime (st : Stats) (s : Scope) (tool : Tool) (elapsed : Text) :
    Except LatexError Stats :=
  match st.timing s tool with
  | none => .error .KeyError
  | some xs =>
    if readsFloat elapsed then
      .ok { st with timing := fun s' t' =>
        if s' = s ∧ t' = tool then some (xs ++ [elapsed]) else st.timing s' t' }
    else .error (.notANumber elapsed)

/-- The result is filed under the category of the test and among all tests. -/
def recordResult (t : Test) (tool : Tool) (r : Categorized) (st : Stats) :
    Except LatexError Stats := do
  let category := Scope.category t.detail.category
  let st ← st.append category tool (.result r.resCategory) (testID t)
  let st ← st.append .total tool (.result r.resCategory) (testID t)
  let st ← st.appendTime category tool r.elapsed
  st.appendTime .total tool r.elapsed

/-- The test is counted as a correct or an erroneous one. -/
def recordExpected (t : Test) (tool : Tool) (r : Categorized) (st : Stats) :
    Except LatexError Stats :=
  if t.expect = .OK then st.append .total tool .OK (testID t)
  else do
    let st ← st.append .total tool .error (testID t)
    let st ← st.append .error tool (.result r.resCategory) (testID t)
    st.appendTime .error tool r.elapsed

/-- One test and one tool. -/
def record (logs : Logs) (t : Test) (st : Stats) (tool : Tool) : Except LatexError Stats :=
  match categorize tool (logs.files tool (testID t)) (testID t) t.expect with
  | .error e => .error (.exception e)
  | .ok r => recordResult t tool r st >>= recordExpected t tool r

def recordAll (used : List Tool) (logs : Logs) (st : Stats) (t : Test) : Except LatexError Stats :=
  used.foldlM (record logs t) st

/-- All data from the caches. -/
def gather (used : List Tool) (logs : Logs) (todo : List Test) : Except LatexError Stats :=
  todo.foldlM (recordAll used logs) (initial used)

/-! ## What is filed where -/

/-- The result of a tool on a test, if it can be counted. -/
def resultOf (logs : Logs) (tool : Tool) (t : Test) : Option Categorized :=
  match categorize tool (logs.files tool (testID t)) (testID t) t.expect with
  | .error _ => none
  | .ok r => if readsFloat r.elapsed then some r else none

/-- The scopes a test belongs to. -/
def inScope (t : Test) : Scope → Bool
  | .category c => c = t.detail.category
  | .total => true
  | .error => t.expect ≠ .OK

/-- Whether a test is in the list, for a tool. -/
def filed (logs : Logs) (tool : Tool) : Scope → Bucket → Test → Bool
  | s, .result r, t => inScope t s && (resultOf logs tool t).any (r = ·.resCategory)
  | .total, .error, t => t.expect ≠ .OK
  | .total, .OK, t => t.expect = .OK
  | _, _, _ => false

/-- The dictionaries when the tests `seen tool` have been filed for each tool. -/
def accounts (used : List Tool) (logs : Logs) (seen : Tool → List Test) : Stats where
  results s tool b :=
    if tool ∈ used ∧ hasBucket s b then
      some (((seen tool).filter (filed logs tool s b)).map testID) else none
  timing s tool :=
    if tool ∈ used then
      some (((seen tool).filter (inScope · s)).filterMap
        fun t => (resultOf logs tool t).map (·.elapsed)) else none

theorem Stats.ext' {st st' : Stats} (hr : ∀ s tool b, st.results s tool b = st'.results s tool b)
    (ht : ∀ s tool, st.timing s tool = st'.timing s tool) : st = st' := by
  cases st
  cases st'
  congr
  · funext s tool b
    exact hr s tool b
  · funext s tool
    exact ht s tool

theorem of_resultOf {logs : Logs} {tool : Tool} {t : Test} {r : Categorized}
    (h : resultOf logs tool t = some r) :
    categorize tool (logs.files tool (testID t)) (testID t) t.expect = .ok r ∧
      readsFloat r.elapsed = true := by
  unfold resultOf at h
  cases hc : categorize tool (logs.files tool (testID t)) (testID t) t.expect with
  | error e => simp [hc] at h
  | ok q =>
    simp only [hc] at h
    split at h
    · rename_i hf
      cases h
      exact ⟨rfl, hf⟩
    · cases h

section

variable {used : List Tool} {logs : Logs} {t : Test} {tool : Tool}

/-- What one more test of a tool adds to the lists. -/
theorem accounts_results (seen : Tool → List Test) (s : Scope) (t' : Tool) (b : Bucket) :
    (accounts used logs (Function.update seen tool (seen tool ++ [t]))).results s t' b =
      if t' = tool ∧ filed logs tool s b t = true then
        ((accounts used logs seen).results s t' b).map (· ++ [testID t])
      else (accounts used logs seen).results s t' b := by
  by_cases ht : t' = tool
  · subst ht
    by_cases hf : filed logs t' s b t = true
    · simp only [accounts, Function.update_self, hf, and_self, ↓reduceIte]
      split <;> simp [List.filter_append, hf]
    · simp [accounts, List.filter_append, hf]
  · simp [accounts, ht]

/-- And to the durations. -/
theorem accounts_timing {r : Categorized} (hr : resultOf logs tool t = some r)
    (seen : Tool → List Test) (s : Scope) (t' : Tool) :
    (accounts used logs (Function.update seen tool (seen tool ++ [t]))).timing s t' =
      if t' = tool ∧ inScope t s = true then
        ((accounts used logs seen).timing s t').map (· ++ [r.elapsed])
      else (accounts used logs seen).timing s t' := by
  by_cases ht : t' = tool
  · subst ht
    by_cases hs : inScope t s = true
    · simp only [accounts, Function.update_self, hs, and_self, ↓reduceIte]
      split <;> simp [List.filter_append, hs, hr]
    · simp [accounts, List.filter_append, hs]
  · simp [accounts, ht]

end

/-! ## One test and one tool -/

/-- One more text in a list that is there. -/
def Stats.add (st : Stats) (s : Scope) (tool : Tool) (b : Bucket) (x : Text) : Stats :=
  { st with results := fun s' t' b' =>
      if s' = s ∧ t' = tool ∧ b' = b then (st.results s' t' b').map (· ++ [x]) else st.results s' t' b' }

def Stats.addTime (st : Stats) (s : Scope) (tool : Tool) (x : Text) : Stats :=
  { st with timing := fun s' t' =>
      if s' = s ∧ t' = tool then (st.timing s' t').map (· ++ [x]) else st.timing s' t' }

section

variable {st : Stats} {s : Scope} {tool : Tool} {b : Bucket} {x : Text}

@[simp] theorem add_results_isSome (s' : Scope) (t' : Tool) (b' : Bucket) :
    ((st.add s tool b x).results s' t' b').isSome = (st.results s' t' b').isSome := by
  simp only [Stats.add]
  split <;> simp

@[simp] theorem add_timing : (st.add s tool b x).timing = st.timing := rfl

@[simp] theorem addTime_results : (st.addTime s tool x).results = st.results := rfl

@[simp] theorem addTime_timing_isSome (s' : Scope) (t' : Tool) :
    ((st.addTime s tool x).timing s' t').isSome = (st.timing s' t').isSome := by
  simp only [Stats.addTime]
  split <;> simp

theorem append_eq (h : (st.results s tool b).isSome = true) :
    st.append s tool b x = .ok (st.add s tool b x) := by
  obtain ⟨xs, hxs⟩ := Option.isSome_iff_exists.mp h
  unfold Stats.append
  rw [hxs]
  refine congrArg Except.ok (Stats.ext' (fun s' t' b' => ?_) (fun s' t' => rfl))
  simp only [Stats.add]
  split_ifs with hkey
  · obtain ⟨rfl, rfl, rfl⟩ := hkey
    rw [hxs, Option.map_some]
  · rfl

theorem appendTime_eq (hfloat : readsFloat x = true) (h : (st.timing s tool).isSome = true) :
    st.appendTime s tool x = .ok (st.addTime s tool x) := by
  obtain ⟨xs, hxs⟩ := Option.isSome_iff_exists.mp h
  unfold Stats.appendTime
  simp only [hxs, hfloat, ↓reduceIte]
  refine congrArg Except.ok (Stats.ext' (fun s' t' b' => rfl) (fun s' t' => ?_))
  simp only [Stats.addTime]
  split_ifs with hkey
  · obtain ⟨rfl, rfl⟩ := hkey
    rw [hxs, Option.map_some]
  · rfl

end

section

variable {used : List Tool} {logs : Logs} {t : Test} {tool : Tool}

/-- Every list of the tool is there. -/
def Ready (st : Stats) (tool : Tool) : Prop :=
  (∀ s b, hasBucket s b = true → (st.results s tool b).isSome = true) ∧
    ∀ s, (st.timing s tool).isSome = true

theorem recordResult_eq {st : Stats} (hst : Ready st tool) {r : Categorized}
    (hfloat : readsFloat r.elapsed = true) :
    recordResult t tool r st =
      .ok ((((st.add (.category t.detail.category) tool (.result r.resCategory) (testID t)).add
        .total tool (.result r.resCategory) (testID t)).addTime (.category t.detail.category) tool
        r.elapsed).addTime .total tool r.elapsed) := by
  obtain ⟨hresults, htiming⟩ := hst
  simp only [recordResult, bind, Except.bind, append_eq, appendTime_eq, hresults, htiming, hfloat,
    hasBucket_result, add_results_isSome, add_timing, addTime_timing_isSome]

theorem recordExpected_eq {st : Stats} (hst : Ready st tool) {r : Categorized}
    (hfloat : readsFloat r.elapsed = true) :
    recordExpected t tool r st =
      .ok (if t.expect = .OK then st.add .total tool .OK (testID t)
        else ((st.add .total tool .error (testID t)).add .error tool (.result r.resCategory)
          (testID t)).addTime .error tool r.elapsed) := by
  obtain ⟨hresults, htiming⟩ := hst
  unfold recordExpected
  split
  · exact append_eq (hresults .total .OK rfl)
  · have h₁ := hresults .total .error rfl
    have h₂ := hresults .error (.result r.resCategory) rfl
    simp only [bind, Except.bind, append_eq, appendTime_eq, h₁, h₂, htiming, hfloat,
      add_results_isSome, add_timing]

theorem Ready.add {st : Stats} (hst : Ready st tool) (s : Scope) (b : Bucket) (x : Text) :
    Ready (st.add s tool b x) tool := by
  simpa [Ready] using hst

theorem Ready.addTime {st : Stats} (hst : Ready st tool) (s : Scope) (x : Text) :
    Ready (st.addTime s tool x) tool := by
  simpa [Ready] using hst

theorem accounts_ready (htool : tool ∈ used) (logs : Logs) (seen : Tool → List Test) :
    Ready (accounts used logs seen) tool := by
  constructor
  · intro s b hb
    simp [accounts, htool, hb]
  · simp [accounts, htool]

/-- **One test is filed for one tool.** -/
theorem record_accounts (htool : tool ∈ used) {r : Categorized}
    (hr : resultOf logs tool t = some r) (seen : Tool → List Test) :
    record logs t (accounts used logs seen) tool =
      .ok (accounts used logs (Function.update seen tool (seen tool ++ [t]))) := by
  obtain ⟨hcategorize, hfloat⟩ := of_resultOf hr
  have hready := accounts_ready htool logs seen
  have hnew := @accounts_results used logs t tool seen
  have hnewTime := @accounts_timing used logs t tool r hr seen
  generalize accounts used logs (Function.update seen tool (seen tool ++ [t])) = new
    at hnew hnewTime ⊢
  generalize accounts used logs seen = old at hready hnew hnewTime ⊢
  have hready' := (((hready.add (.category t.detail.category) (.result r.resCategory)
    (testID t)).add .total (.result r.resCategory) (testID t)).addTime
    (.category t.detail.category) r.elapsed).addTime .total r.elapsed
  simp only [record, hcategorize, recordResult_eq hready hfloat]
  show recordExpected t tool r _ = _
  rw [recordExpected_eq hready' hfloat]
  refine congrArg Except.ok (Stats.ext' (fun s t' b => ?_) (fun s t' => ?_))
  · rw [hnew]
    cases hexpect : t.expect with
    | OK => cases s <;> cases b <;> simp [Stats.add, Stats.addTime, filed, inScope, hr, hexpect, and_left_comm]
    | ERROR =>
      cases s <;> cases b <;>
        simp [Stats.add, Stats.addTime, filed, inScope, hr, hexpect, and_left_comm]
  · rw [hnewTime]
    cases hexpect : t.expect with
    | OK => cases s <;> simp [Stats.add, Stats.addTime, inScope, hexpect, and_comm]
    | ERROR => cases s <;> simp [Stats.add, Stats.addTime, inScope, hexpect, and_comm]

end

/-! ## The loops -/

/-- The lists of the scopes in `P` are there, and empty. -/
def Cleared (used : List Tool) (P : Scope → Prop) [DecidablePred P] (st : Stats) : Prop :=
  (∀ s tool b, st.results s tool b =
      if tool ∈ used ∧ P s ∧ hasBucket s b = true then some [] else none) ∧
    ∀ s tool, st.timing s tool = if tool ∈ used ∧ P s then some [] else none

theorem Cleared.congr {used : List Tool} {P Q : Scope → Prop} [DecidablePred P] [DecidablePred Q]
    {st : Stats} (h : Cleared used P st) (hPQ : ∀ s, P s ↔ Q s) : Cleared used Q st := by
  simpa only [Cleared, hPQ] using h

/-- The scopes that a round of the first loop sets. -/
def touches (c : Category) (s : Scope) : Prop := s = .category c ∨ s = .total ∨ s = .error

instance (c : Category) : DecidablePred (touches c) :=
  fun _ => inferInstanceAs (Decidable (_ ∨ _ ∨ _))

theorem initTool_results (c : Category) (st : Stats) (u : Tool) (s : Scope) (tool : Tool)
    (b : Bucket) : (initTool c st u).results s tool b =
      if tool = u ∧ touches c s then (if hasBucket s b then some [] else none)
      else st.results s tool b := by
  cases s with
  | category d => by_cases h : tool = u <;> by_cases hd : d = c <;>
      simp [initTool, Stats.clear, touches, h, hd]
  | total => by_cases h : tool = u <;> simp [initTool, Stats.clear, touches, h]
  | error => by_cases h : tool = u <;> simp [initTool, Stats.clear, touches, h]

theorem initTool_timing (c : Category) (st : Stats) (u : Tool) (s : Scope) (tool : Tool) :
    (initTool c st u).timing s tool =
      if tool = u ∧ touches c s then some [] else st.timing s tool := by
  cases s <;> by_cases h : tool = u <;> simp [initTool, Stats.clear, touches, h]

/-- All tools of one round. -/
theorem foldl_initTool (c : Category) (used : List Tool) : ∀ st : Stats,
    (∀ s tool b, (used.foldl (initTool c) st).results s tool b =
        if tool ∈ used ∧ touches c s then (if hasBucket s b then some [] else none)
        else st.results s tool b) ∧
      ∀ s tool, (used.foldl (initTool c) st).timing s tool =
        if tool ∈ used ∧ touches c s then some [] else st.timing s tool := by
  induction used with
  | nil => exact fun st => ⟨by simp, by simp⟩
  | cons u used ih =>
    intro st
    obtain ⟨hresults, htiming⟩ := ih (initTool c st u)
    constructor
    · intro s tool b
      rw [List.foldl_cons, hresults, initTool_results]
      by_cases hs : touches c s
      · by_cases hu : tool = u <;> by_cases hmem : tool ∈ used <;> simp [hs, hu, hmem]
      · simp [hs]
    · intro s tool
      rw [List.foldl_cons, htiming, initTool_timing]
      by_cases hs : touches c s
      · by_cases hu : tool = u <;> by_cases hmem : tool ∈ used <;> simp [hs, hu, hmem]
      · simp [hs]

/-- One round of the first loop. -/
theorem initScope_cleared {used : List Tool} {P : Scope → Prop} [DecidablePred P] {st : Stats}
    (h : Cleared used P st) (c : Category) :
    Cleared used (fun s => touches c s ∨ P s) (initScope used st c) := by
  obtain ⟨hresults, htiming⟩ := h
  obtain ⟨hfold, hfoldTime⟩ := foldl_initTool c used (st.drop (.category c))
  constructor
  · intro s tool b
    rw [initScope, hfold]
    by_cases hs : touches c s
    · by_cases hmem : tool ∈ used
      · simp [hs, hmem]
      · by_cases hd : s = .category c <;> simp [hs, hmem, Stats.drop, hd, hresults]
    · have hd : s ≠ .category c := fun hd => hs (Or.inl hd)
      simp [hs, Stats.drop, hd, hresults]
  · intro s tool
    rw [initScope, hfoldTime]
    by_cases hs : touches c s
    · by_cases hmem : tool ∈ used
      · simp [hs, hmem]
      · by_cases hd : s = .category c <;> simp [hs, hmem, Stats.drop, hd, htiming]
    · have hd : s ≠ .category c := fun hd => hs (Or.inl hd)
      simp [hs, Stats.drop, hd, htiming]

/-- **After the first loop every list is there, and empty.** -/
theorem initial_eq (used : List Tool) (logs : Logs) :
    initial used = accounts used logs (fun _ => []) := by
  have hfold : ∀ (cs : List Category) (P : Scope → Prop) [DecidablePred P] (st : Stats),
      Cleared used P st →
      Cleared used (fun s => (∃ c ∈ cs, touches c s) ∨ P s) (cs.foldl (initScope used) st) := by
    intro cs
    induction cs with
    | nil => exact fun P _ st h => by simpa using h
    | cons c cs ih =>
      intro P _ st h
      refine (ih _ _ (initScope_cleared h c)).congr fun s => ?_
      rw [List.exists_mem_cons_iff, ← or_assoc, or_comm (b := touches c s)]
  have hall : ∀ s, ∃ c ∈ Category.all, touches c s := by
    intro s
    cases s with
    | category c => exact ⟨c, Category.mem_all c, Or.inl rfl⟩
    | total => exact ⟨.FOK, Category.mem_all _, Or.inr (Or.inl rfl)⟩
    | error => exact ⟨.FOK, Category.mem_all _, Or.inr (Or.inr rfl)⟩
  obtain ⟨hresults, htiming⟩ := hfold Category.all (fun _ => False) ⟨fun _ _ _ => none,
    fun _ _ => none⟩ ⟨by simp, by simp⟩
  refine Stats.ext' (fun s tool b => ?_) (fun s tool => ?_)
  · rw [initial, hresults]
    simp [accounts, hall]
  · rw [initial, htiming]
    simp [accounts, hall]

section

variable {used : List Tool} {logs : Logs}

/-- Only the tools in use have accounts. -/
theorem accounts_congr {seen seen' : Tool → List Test} (h : ∀ tool ∈ used, seen tool = seen' tool) :
    accounts used logs seen = accounts used logs seen' := by
  refine Stats.ext' (fun s tool b => ?_) (fun s tool => ?_)
  · by_cases hmem : tool ∈ used
    · simp only [accounts, h tool hmem]
    · simp [accounts, hmem]
  · by_cases hmem : tool ∈ used
    · simp only [accounts, h tool hmem]
    · simp [accounts, hmem]

/-- One test is filed for some of the tools. -/
theorem foldlM_record {t : Test} (tools : List Tool) : ∀ seen : Tool → List Test, tools.Nodup →
    (∀ tool ∈ tools, tool ∈ used) → (∀ tool ∈ tools, (resultOf logs tool t).isSome = true) →
    tools.foldlM (record logs t) (accounts used logs seen) =
      .ok (accounts used logs fun tool => if tool ∈ tools then seen tool ++ [t] else seen tool) := by
  induction tools with
  | nil => exact fun seen _ _ _ => by simp [pure, Except.pure]
  | cons u tools ih =>
    intro seen hnodup hused hresult
    obtain ⟨hu, hnodup⟩ := List.nodup_cons.mp hnodup
    obtain ⟨hmem, hused⟩ := List.forall_mem_cons.mp hused
    obtain ⟨hr, hresult⟩ := List.forall_mem_cons.mp hresult
    obtain ⟨r, hr⟩ := Option.isSome_iff_exists.mp hr
    rw [List.foldlM_cons, record_accounts hmem hr]
    show tools.foldlM (record logs t) _ = _
    rw [ih _ hnodup hused hresult]
    refine congrArg Except.ok (accounts_congr fun tool _ => ?_)
    by_cases htool : tool = u
    · subst htool
      simp [hu]
    · simp [htool]

/-- All results of the tests can be counted. -/
def Available (used : List Tool) (logs : Logs) (todo : List Test) : Prop :=
  ∀ t ∈ todo, ∀ tool ∈ used, (resultOf logs tool t).isSome = true

instance (used : List Tool) (logs : Logs) (todo : List Test) :
    Decidable (Available used logs todo) :=
  inferInstanceAs (Decidable (∀ t ∈ todo, _))

/-- One test is filed for all tools. -/
theorem recordAll_accounts (hnodup : used.Nodup) {t : Test}
    (ht : ∀ tool ∈ used, (resultOf logs tool t).isSome = true) {done : List Test} :
    recordAll used logs (accounts used logs fun _ => done) t =
      .ok (accounts used logs fun _ => done ++ [t]) := by
  rw [recordAll, foldlM_record used _ hnodup (fun _ h => h) ht]
  exact congrArg Except.ok (accounts_congr fun tool hmem => if_pos hmem)

theorem foldlM_recordAll (hnodup : used.Nodup) (todo : List Test) : ∀ done : List Test,
    Available used logs todo →
    todo.foldlM (recordAll used logs) (accounts used logs fun _ => done) =
      .ok (accounts used logs fun _ => done ++ todo) := by
  induction todo with
  | nil => exact fun done _ => by simp [pure, Except.pure]
  | cons t todo ih =>
    intro done havailable
    obtain ⟨ht, htodo⟩ := List.forall_mem_cons.mp havailable
    rw [List.foldlM_cons, recordAll_accounts hnodup ht]
    show todo.foldlM (recordAll used logs) _ = _
    rw [ih (done ++ [t]) htodo, List.append_assoc, List.singleton_append]

/-- **What the loop has filed in the end.** -/
theorem gather_eq (hnodup : used.Nodup) {todo : List Test} (h : Available used logs todo) :
    gather used logs todo = .ok (accounts used logs fun _ => todo) := by
  rw [gather, initial_eq used logs]
  exact foldlM_recordAll hnodup todo [] h

/-- A result that cannot be counted stops the loop. -/
theorem record_error {t : Test} {tool : Tool} (htool : tool ∈ used)
    (hr : resultOf logs tool t = none) (seen : Tool → List Test) :
    ∃ e, record logs t (accounts used logs seen) tool = .error e := by
  unfold record
  unfold resultOf at hr
  cases hc : categorize tool (logs.files tool (testID t)) (testID t) t.expect with
  | error e => exact ⟨_, rfl⟩
  | ok r =>
    have hfloat : readsFloat r.elapsed = false := by
      rw [hc] at hr
      by_contra h
      simp [h] at hr
    obtain ⟨hresults, htiming⟩ := accounts_ready htool logs seen
    obtain ⟨ys, hys⟩ := Option.isSome_iff_exists.mp (htiming (.category t.detail.category))
    refine ⟨.notANumber r.elapsed, ?_⟩
    have hresult : recordResult t tool r (accounts used logs seen) =
        .error (.notANumber r.elapsed) := by
      simp only [recordResult, bind, Except.bind, append_eq, hresults, hasBucket_result,
        add_results_isSome]
      simp only [Stats.appendTime, add_timing, hys, hfloat, Bool.false_eq_true, ↓reduceIte]
    simp only [hresult]
    rfl

theorem of_foldlM_record {t : Test} (tools : List Tool) : ∀ (seen : Tool → List Test) (st : Stats),
    (∀ tool ∈ tools, tool ∈ used) →
    tools.foldlM (record logs t) (accounts used logs seen) = .ok st →
    ∀ tool ∈ tools, (resultOf logs tool t).isSome = true := by
  induction tools with
  | nil => simp
  | cons u tools ih =>
    intro seen st hused hst
    obtain ⟨hu, hused⟩ := List.forall_mem_cons.mp hused
    rw [List.foldlM_cons] at hst
    cases hr : resultOf logs u t with
    | none =>
      obtain ⟨e, he⟩ := record_error hu hr seen
      rw [he] at hst
      cases hst
    | some r =>
      rw [record_accounts hu hr] at hst
      exact List.forall_mem_cons.mpr ⟨by rw [hr]; rfl, ih _ st hused hst⟩

/-- **The loop completes iff every result can be counted:** no key is missing. -/
theorem gather_ok_iff (hnodup : used.Nodup) (todo : List Test) :
    (∃ st, gather used logs todo = .ok st) ↔ Available used logs todo := by
  refine ⟨?_, fun h => ⟨_, gather_eq hnodup h⟩⟩
  rw [gather, initial_eq used logs]
  generalize ([] : List Test) = done
  induction todo generalizing done with
  | nil => simp [Available]
  | cons t todo ih =>
    rintro ⟨st, hst⟩
    rw [List.foldlM_cons] at hst
    cases hone : recordAll used logs (accounts used logs fun _ => done) t with
    | error e =>
      rw [hone] at hst
      cases hst
    | ok st' =>
      have ht := of_foldlM_record used _ st' (fun _ h => h) hone
      rw [recordAll_accounts hnodup ht] at hst
      exact List.forall_mem_cons.mpr ⟨ht, ih (done ++ [t]) ⟨st, hst⟩⟩

end

/-! ## The balance -/

/-- The number of elements of each class add up. -/
theorem sum_length_filter {α β : Type} [DecidableEq β] {classes : List β} (hnodup : classes.Nodup)
    (f : α → β) (hf : ∀ a, f a ∈ classes) (p : α → Bool) (xs : List α) :
    (classes.map fun c => (xs.filter fun a => decide (c = f a) && p a).length).sum =
      (xs.filter p).length := by
  have hone : ∀ (b : β) (cs : List β), (cs.map fun c => if c = b then 1 else 0).sum = cs.count b := by
    intro b cs
    induction cs with
    | nil => rfl
    | cons c cs ih =>
      simp only [List.map_cons, List.sum_cons, ih, List.count_cons, beq_iff_eq]
      omega
  have hcount : ∀ a, classes.count (f a) = 1 := fun a => List.count_eq_one_of_mem hnodup (hf a)
  induction xs with
  | nil => simp
  | cons a xs ih =>
    by_cases hp : p a = true
    · have hsplit : ∀ c, ((a :: xs).filter fun a => decide (c = f a) && p a).length =
          (if c = f a then 1 else 0) + (xs.filter fun a => decide (c = f a) && p a).length := by
        intro c
        by_cases hc : c = f a <;> simp [hc, hp, Nat.add_comm]
      simp only [hsplit, List.sum_map_add, hone, hcount, ih]
      simp [hp, Nat.add_comm]
    · simpa [hp] using ih

def resCategories : List ResCategory :=
  [.timeout, .failure, .unimplemented, .other, .TRUE_NEG, .FALSE_POS, .FALSE_NEG, .TRUE_POS]

theorem mem_resCategories (r : ResCategory) : r ∈ resCategories := by cases r <;> decide

/-- `results[scope][toolname][bucket]` -/
def Stats.list (st : Stats) (s : Scope) (tool : Tool) (b : Bucket) : List Text :=
  (st.results s tool b).getD []

/-- The accounts of the tools in use balance. -/
structure Accounted (used : List Tool) (todo : List Test) (st : Stats) : Prop where
  categories : ∀ tool ∈ used, ∀ r,
    (Category.all.map fun c => (st.list (.category c) tool (.result r)).length).sum =
      (st.list .total tool (.result r)).length
  tests : ∀ tool ∈ used,
    (resCategories.map fun r => (st.list .total tool (.result r)).length).sum = todo.length
  parts : ∀ tool ∈ used, ∀ r,
    (st.list (.category .FOK) tool (.result r) ++ st.list .error tool (.result r)).Perm
      (st.list .total tool (.result r))
  faulty : ∀ tool ∈ used, ∀ s, ∀ r ∈ [ResCategory.TRUE_POS, .FALSE_NEG],
    ∀ x ∈ st.list s tool (.result r), ∃ t ∈ todo, testID t = x ∧ t.expect = .ERROR
  correct : ∀ tool ∈ used, ∀ s, ∀ r ∈ [ResCategory.TRUE_NEG, .FALSE_POS],
    ∀ x ∈ st.list s tool (.result r), ∃ t ∈ todo, testID t = x ∧ t.expect = .OK
  same : ∀ tool ∈ used, ∀ tool' ∈ used, ∀ b ∈ [Bucket.OK, .error],
    st.list .total tool b = st.list .total tool' b

section

variable {used : List Tool} {logs : Logs} {todo : List Test} {tool : Tool}

theorem accounts_list (htool : tool ∈ used) (s : Scope) (b : Bucket) :
    (accounts used logs fun _ => todo).list s tool b =
      (todo.filter (filed logs tool s b)).map testID := by
  unfold Stats.list accounts
  by_cases hb : hasBucket s b = true
  · simp [htool, hb]
  · have hfiled : ∀ t, filed logs tool s b t = false := by
      cases s <;> cases b <;> first | exact fun _ => rfl | exact absurd rfl hb
    simp [hb, hfiled]

/-- The result of a test that can be counted. -/
def resCategoryOf (logs : Logs) (tool : Tool) (t : Test) : ResCategory :=
  ((resultOf logs tool t).map (·.resCategory)).getD .other

theorem filed_result (s : Scope) (r : ResCategory) {t : Test}
    (h : (resultOf logs tool t).isSome = true) :
    filed logs tool s (.result r) t = (inScope t s && decide (r = resCategoryOf logs tool t)) := by
  obtain ⟨q, hq⟩ := Option.isSome_iff_exists.mp h
  cases s <;> simp [filed, resCategoryOf, hq]

/-- Only an expected error is detected or missed, only a correct code confirmed
or accused. -/
theorem judge_expected (outcome elapsed : Text) (expected : Expect) :
    ((judge outcome elapsed expected).1 ∈ [ResCategory.TRUE_POS, .FALSE_NEG] → expected = .ERROR) ∧
      ((judge outcome elapsed expected).1 ∈ [ResCategory.TRUE_NEG, .FALSE_POS] → expected = .OK) := by
  unfold judge
  cases expected with
  | OK => split_ifs <;> simp
  | ERROR => split_ifs <;> simp

theorem filter_filed (havailable : Available used logs todo) (htool : tool ∈ used) (s : Scope)
    (r : ResCategory) : todo.filter (filed logs tool s (.result r)) =
      todo.filter fun t => inScope t s && decide (r = resCategoryOf logs tool t) :=
  List.filter_congr fun t ht => filed_result s r (havailable t ht tool htool)

theorem sum_categories (havailable : Available used logs todo) (htool : tool ∈ used)
    (r : ResCategory) :
    (Category.all.map fun c =>
      ((accounts used logs fun _ => todo).list (.category c) tool (.result r)).length).sum =
        ((accounts used logs fun _ => todo).list .total tool (.result r)).length := by
  simp only [accounts_list htool, List.length_map, filter_filed havailable htool, inScope,
    Bool.true_and]
  exact sum_length_filter (by decide) (fun t : Test => t.detail.category)
    (fun t => Category.mem_all t.detail.category) _ todo

theorem sum_results (havailable : Available used logs todo) (htool : tool ∈ used) :
    (resCategories.map fun r =>
      ((accounts used logs fun _ => todo).list .total tool (.result r)).length).sum =
        todo.length := by
  have hclasses : resCategories.Nodup := by decide
  have hsum := sum_length_filter hclasses (resCategoryOf logs tool)
    (fun t => mem_resCategories (resCategoryOf logs tool t)) (fun _ => true) todo
  simpa [accounts_list htool, filter_filed havailable htool, inScope] using hsum

/-- The tests expected to be correct are those of the category `FOK`. -/
theorem parts_perm (havailable : Available used logs todo) (htool : tool ∈ used)
    (hexpect : ∀ t ∈ todo, t.expect = .OK ↔ t.detail = .OK) (r : ResCategory) :
    ((accounts used logs fun _ => todo).list (.category .FOK) tool (.result r) ++
      (accounts used logs fun _ => todo).list .error tool (.result r)).Perm
        ((accounts used logs fun _ => todo).list .total tool (.result r)) := by
  have hcorrect : todo.filter (filed logs tool (.category .FOK) (.result r)) =
      (todo.filter (filed logs tool .total (.result r))).filter (·.expect = .OK) := by
    rw [filter_filed havailable htool, filter_filed havailable htool, List.filter_filter]
    refine List.filter_congr fun t ht => ?_
    have hFOK : decide (Category.FOK = t.detail.category) = decide (t.expect = .OK) := by
      rw [decide_eq_decide, eq_comm, Detail.category_eq_FOK_iff, hexpect t ht]
    simp only [inScope, hFOK, Bool.true_and]
  have hfaulty : todo.filter (filed logs tool .error (.result r)) =
      (todo.filter (filed logs tool .total (.result r))).filter fun t => !decide (t.expect = .OK) := by
    rw [filter_filed havailable htool, filter_filed havailable htool, List.filter_filter]
    refine List.filter_congr fun t _ => ?_
    simp [inScope]
  rw [accounts_list htool, accounts_list htool, accounts_list htool, ← List.map_append, hcorrect,
    hfaulty]
  exact List.Perm.map testID (List.filter_append_perm ..)

/-- What is filed under a result is a test with that result. -/
theorem filed_expected (havailable : Available used logs todo) (htool : tool ∈ used) {s : Scope}
    {r : ResCategory} {x : Text}
    (hx : x ∈ (accounts used logs fun _ => todo).list s tool (.result r)) :
    ∃ t ∈ todo, testID t = x ∧ (r ∈ [ResCategory.TRUE_POS, .FALSE_NEG] → t.expect = .ERROR) ∧
      (r ∈ [ResCategory.TRUE_NEG, .FALSE_POS] → t.expect = .OK) := by
  rw [accounts_list htool, List.mem_map] at hx
  obtain ⟨t, ht, hid⟩ := hx
  rw [filter_filed havailable htool, List.mem_filter, Bool.and_eq_true, decide_eq_true_iff] at ht
  obtain ⟨hmem, -, hr⟩ := ht
  obtain ⟨q, hq⟩ := Option.isSome_iff_exists.mp (havailable t hmem tool htool)
  obtain ⟨elapsed, helapsed⟩ := categorize_resCategory (of_resultOf hq).1
  have hjudged : r = (judge (tool.parse (logs.files tool (testID t))) elapsed t.expect).1 := by
    rw [hr, ← helapsed, resCategoryOf, hq]
    rfl
  rw [hjudged]
  exact ⟨t, hmem, hid, judge_expected ..⟩

end

/-- **The accounts balance,** for all tests that are expected to be correct iff
their label says so. -/
theorem gather_accounted {used : List Tool} (hnodup : used.Nodup) {logs : Logs} {todo : List Test}
    (hexpect : ∀ t ∈ todo, t.expect = .OK ↔ t.detail = .OK) {st : Stats}
    (hst : gather used logs todo = .ok st) : Accounted used todo st := by
  have havailable := (gather_ok_iff hnodup todo).mp ⟨st, hst⟩
  rw [gather_eq hnodup havailable] at hst
  obtain rfl := Except.ok.inj hst
  constructor
  · exact fun tool htool => sum_categories havailable htool
  · exact fun tool htool => sum_results havailable htool
  · exact fun tool htool => parts_perm havailable htool hexpect
  · intro tool htool s r hr x hx
    obtain ⟨t, ht, hid, hfaulty, _⟩ := filed_expected havailable htool hx
    exact ⟨t, ht, hid, hfaulty hr⟩
  · intro tool htool s r hr x hx
    obtain ⟨t, ht, hid, _, hcorrect⟩ := filed_expected havailable htool hx
    exact ⟨t, ht, hid, hcorrect hr⟩
  · intro tool htool tool' htool' b hb
    rw [accounts_list htool, accounts_list htool']
    simp only [List.mem_cons, List.not_mem_nil, or_false] at hb
    rcases hb with rfl | rfl <;> rfl

/-- The numbers from which the metrics of a tool are computed. -/
def Stats.counts (st : Stats) (tool : Tool) : Metrics.Counts :=
  fun r => (st.list .total tool (.result r)).length

/-- They are about all tests. -/
theorem Accounted.total_counts {used : List Tool} {todo : List Test} {st : Stats}
    (h : Accounted used todo st) {tool : Tool} (htool : tool ∈ used) :
    (st.counts tool).total = todo.length := by
  rw [← h.tests tool htool]
  simp only [Metrics.Counts.total, Metrics.Counts.TP, Metrics.Counts.TN, Metrics.Counts.FP,
    Metrics.Counts.FN, Metrics.Counts.port, Metrics.Counts.fail, Metrics.Counts.othr,
    Metrics.Counts.tout, Stats.counts, resCategories, List.map_cons, List.map_nil, List.sum_cons,
    List.sum_nil]
  omega

/-- A correct code and an erroneous one. -/
def sampleTodo : List Test :=
  [⟨"a_ok.c".toList, 0, "mpirun -np 2 ${EXE}".toList, .OK, .OK⟩,
   ⟨"b_nok.c".toList, 0, "mpirun -np 2 ${EXE}".toList, .ERROR, .CallMatching⟩]

/-- Every tool has printed what ISP prints for a correct code. -/
def sampleLogs : Logs where
  files _ _ := Verdicts.workdir false fun
    | .log .txt => some "ISP detected no deadlocks".toList
    | .log .elapsed => some "0.5".toList
    | _ => none
  kleeOut _ _ := false

theorem gather_accounted_sample : Accounted [.isp, .must] sampleTodo
    (accounts [.isp, .must] sampleLogs fun _ => sampleTodo) :=
  gather_accounted (by decide) (by decide) (gather_eq (by decide) (by decide +kernel))

end MpiBugs.Accounting
