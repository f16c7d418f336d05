import MpiBugs.Accounting
import MpiBugs.Console
import MpiBugs.Reporting

/-!
# The accounts of the HTML report

The lists `results` and the sums `total_elapsed` that `cmd_html` keeps while it
writes the rows, beside those of `cmd_latex`.

* `tallies_ok_iff`: what the loop has counted in the end, if it completes;
* `cmdHtml_tallies`: it completes where the rows are written;
* `reports_agree`: the two commands count the same tests under the same results.
-/

namespace MpiBugs.HtmlAccounts

open Regex TextFile Header Wrappers Categorize HtmlReport Accounting Reporting

/-! ## The loop -/

/-- `results` and `total_elapsed`, the latter as the numbers that are added. -/
structure Totals where
  results : Tool → ResCategory → List Text
  totalElapsed : Tool → List Text

def noTotals : Totals := ⟨fun _ _ => [], fun _ => []⟩

/-- What is kept of a test. -/
def line (t : Test) (r : Categorized) : Text :=
  testID t ++ " expected ".toList ++ t.detail.key ++ ", outcome: ".toList ++ r.diagnostic

def Totals.append (s : Totals) (tool : Tool) (c : ResCategory) (x : Text) : Totals :=
  { s with results := fun tool' c' =>
      if tool' = tool ∧ c' = c then s.results tool' c' ++ [x] else s.results tool' c' }

def Totals.addElapsed (s : Totals) (tool : Tool) (x : Text) : Totals :=
  { s with totalElapsed := fun tool' =>
      if tool' = tool then s.totalElapsed tool' ++ [x] else s.totalElapsed tool' }

/-- One test and one tool. -/
def tally (logs : Logs) (t : Test) (s : Totals) (tool : Tool) : Except ReportError Totals :=
  match categorize tool (logs.files tool (testID t)) (testID t) t.expect with
  | .error e => .error (.exception e)
  | .ok r =>
    let s := s.append tool r.resCategory (line t r)
    if r.resCategory ≠ .timeout ∧ readsFloat r.elapsed = false then .error (.notANumber r.elapsed)
    else if (search npPattern t.cmd).isNone then .error .noProcessCount
    else .ok (if r.resCategory ≠ .timeout then s.addElapsed tool r.elapsed else s)

def tallyAll (used : List Tool) (logs : Logs) (s : Totals) (t : Test) : Except ReportError Totals :=
  used.foldlM (tally logs t) s

/-- The loop over the tests, in the order of the report. -/
def tallies (used : List Tool) (logs : Logs) (todo : List Test) : Except ReportError Totals :=
  (sorted todo).foldlM (tallyAll used logs) noTotals

/-! ## Loops that may fail -/

/-- A loop whose rounds fail or do what `g` says. -/
theorem foldlM_ok_iff {σ α ε : Type} {f : σ → α → Except ε σ} {g : σ → α → σ} {p : α → Prop}
    (h : ∀ s s' x, f s x = .ok s' ↔ p x ∧ g s x = s') (xs : List α) (s s' : σ) :
    xs.foldlM f s = .ok s' ↔ (∀ x ∈ xs, p x) ∧ xs.foldl g s = s' := by
  induction xs generalizing s with
  | nil => simp [pure, Except.pure]
  | cons x xs ih =>
    rw [List.foldlM_cons, List.forall_mem_cons, List.foldl_cons]
    cases hx : f s x with
    | error e =>
      have hno : ¬ p x := fun hp => by
        rw [(h s _ x).mpr ⟨hp, rfl⟩] at hx
        cases hx
      simp [bind, Except.bind, hno]
    | ok u =>
      obtain ⟨hp, hu⟩ := (h s u x).mp hx
      show xs.foldlM f u = .ok s' ↔ _
      rw [ih, hu]
      simp only [hp, true_and]

section

variable {used : List Tool} {logs : Logs}

/-! ## What is counted -/

/-- The result of a tool on a test, if there is one. -/
def resultAt (logs : Logs) (tool : Tool) (t : Test) : Option Categorized :=
  (categorize tool (logs.files tool (testID t)) (testID t) t.expect).toOption

/-- What the round needs. -/
def Countable (logs : Logs) (t : Test) (tool : Tool) : Prop :=
  (∃ r, resultAt logs tool t = some r ∧
    (r.resCategory ≠ .timeout → readsFloat r.elapsed = true)) ∧ NamesProcesses t.cmd

/-- What the round counts. -/
def counted (logs : Logs) (t : Test) (s : Totals) (tool : Tool) : Totals :=
  match resultAt logs tool t with
  | none => s
  | some r =>
    let s := s.append tool r.resCategory (line t r)
    if r.resCategory ≠ .timeout then s.addElapsed tool r.elapsed else s

theorem tally_ok_iff (t : Test) (s s' : Totals) (tool : Tool) :
    tally logs t s tool = .ok s' ↔ Countable logs t tool ∧ counted logs t s tool = s' := by
  unfold tally Countable counted resultAt
  rw [← search_npPattern_iff]
  cases categorize tool (logs.files tool (testID t)) (testID t) t.expect with
  | error e => simp [Except.toOption]
  | ok r =>
    by_cases hlate : r.resCategory = .timeout
    · cases search npPattern t.cmd <;> simp [Except.toOption, hlate]
    · cases hfloat : readsFloat r.elapsed <;> cases search npPattern t.cmd <;>
        simp [Except.toOption, hlate, hfloat]

/-- **The rows need the same**: a cell is written iff the test is counted. -/
theorem toolCell_ok_iff (t : Test) (tool : Tool) :
    (∃ cell, toolCell logs t tool = .ok cell) ↔ Countable logs t tool := by
  unfold toolCell Countable resultAt
  rw [← search_npPattern_iff]
  cases categorize tool (logs.files tool (testID t)) (testID t) t.expect with
  | error e => simp [Except.toOption]
  | ok r =>
    by_cases hlate : r.resCategory = .timeout
    · cases search npPattern t.cmd <;> simp [Except.toOption, hlate]
    · cases hfloat : readsFloat r.elapsed <;> cases search npPattern t.cmd <;>
        simp [Except.toOption, hlate, hfloat]

theorem tallies_ok_iff (todo : List Test) (s : Totals) :
    tallies used logs todo = .ok s ↔ (∀ t ∈ todo, ∀ tool ∈ used, Countable logs t tool) ∧
      (sorted todo).foldl (fun s t => used.foldl (counted logs t) s) noTotals = s := by
  have hround : ∀ s s' t, tallyAll used logs s t = .ok s' ↔
      (∀ tool ∈ used, Countable logs t tool) ∧ used.foldl (counted logs t) s = s' :=
    fun s s' t => foldlM_ok_iff (fun s s' tool => tally_ok_iff t s s' tool) used s s'
  rw [tallies, foldlM_ok_iff hround]
  simp only [(sorted_perm todo).mem_iff]

/-- **The loop completes where the report is written.** -/
theorem cmdHtml_tallies (todo : List Test) :
    (∃ doc, cmdHtml used logs todo = .ok doc) ↔ ∃ s, tallies used logs todo = .ok s := by
  have hloop : (∃ doc, cmdHtml used logs todo = .ok doc) ↔
      ∃ items, testLoop used logs ⟨none, 0⟩ (sorted todo) = .ok items := by
    unfold cmdHtml
    cases testLoop used logs ⟨none, 0⟩ (sorted todo) <;> simp
  have hrow : ∀ t, (∃ text, row used logs t = .ok text) ↔
      ∀ tool ∈ used, Countable logs t tool := by
    intro t
    simp only [← toolCell_ok_iff, ← mapM_ok_iff, row]
    cases used.mapM (toolCell logs t) <;> simp
  rw [hloop, testLoop_rows_ok_iff]
  simp only [hrow, (sorted_perm todo).mem_iff, tallies_ok_iff, exists_and_left,
    exists_eq', and_true]

/-! ## What is counted in the end -/

/-- What a loop over distinct keys does to the part of one key, if only its own
round changes it. -/
theorem foldl_of_own {σ κ β : Type} {f : σ → κ → σ} {v : σ → β} {g : β → β} {k : κ}
    (hown : ∀ s, v (f s k) = g (v s)) (hother : ∀ s k', k' ≠ k → v (f s k') = v s)
    {ks : List κ} (hnodup : ks.Nodup) (hk : k ∈ ks) (s : σ) : v (ks.foldl f s) = g (v s) := by
  have hkeep : ∀ (ks : List κ) (s : σ), k ∉ ks → v (ks.foldl f s) = v s := by
    intro ks
    induction ks with
    | nil => exact fun s _ => rfl
    | cons k' ks ih =>
      intro s hnot
      rw [List.mem_cons, not_or] at hnot
      rw [List.foldl_cons, ih _ hnot.2, hother s k' (Ne.symm hnot.1)]
  induction ks generalizing s with
  | nil => cases hk
  | cons k' ks ih =>
    obtain ⟨hnot, hnodup⟩ := List.nodup_cons.mp hnodup
    rw [List.foldl_cons]
    by_cases h : k' = k
    · subst h
      rw [hkeep ks _ hnot, hown]
    · rw [ih hnodup ((List.mem_cons.mp hk).resolve_left (Ne.symm h)), hother s k' h]

/-- What is added round after round. -/
theorem foldl_append {σ α β : Type} {f : σ → α → σ} {v : σ → List β} {g : α → List β}
    (h : ∀ s x, v (f s x) = v s ++ g x) (xs : List α) (s : σ) :
    v (xs.foldl f s) = v s ++ xs.flatMap g := by
  induction xs generalizing s with
  | nil => simp
  | cons x xs ih => rw [List.foldl_cons, ih, h, List.flatMap_cons, List.append_assoc]

/-- The line of a test, under its result. -/
def linesOf (logs : Logs) (tool : Tool) (c : ResCategory) (t : Test) : List Text :=
  match resultAt logs tool t with
  | none => []
  | some r => if c = r.resCategory then [line t r] else []

/-- Its duration, if it is counted. -/
def timesOf (logs : Logs) (tool : Tool) (t : Test) : List Text :=
  match resultAt logs tool t with
  | none => []
  | some r => if r.resCategory ≠ .timeout then [r.elapsed] else []

variable {tool : Tool}

theorem counted_results (t : Test) (s : Totals) (tool' : Tool) (c : ResCategory) :
    (counted logs t s tool').results tool c =
      if tool = tool' then s.results tool c ++ linesOf logs tool c t else s.results tool c := by
  unfold counted linesOf
  split_ifs with htool
  · subst htool
    cases resultAt logs tool t with
    | none => simp
    | some r =>
      by_cases hc : c = r.resCategory
      · by_cases hlate : r.resCategory = .timeout <;>
          simp [Totals.append, Totals.addElapsed, hc, hlate]
      · simp only [if_neg hc, List.append_nil]
        split <;> simp [Totals.append, Totals.addElapsed, hc]
  · cases resultAt logs tool' t with
    | none => rfl
    | some r =>
      by_cases hlate : r.resCategory = .timeout <;>
        simp [Totals.append, Totals.addElapsed, hlate, htool]

theorem counted_totalElapsed (t : Test) (s : Totals) (tool' : Tool) :
    (counted logs t s tool').totalElapsed tool =
      if tool = tool' then s.totalElapsed tool ++ timesOf logs tool t
      else s.totalElapsed tool := by
  unfold counted timesOf
  split_ifs with htool
  · subst htool
    cases resultAt logs tool t with
    | none => simp
    | some r =>
      by_cases hlate : r.resCategory = .timeout <;>
        simp [Totals.append, Totals.addElapsed, hlate]
  · cases resultAt logs tool' t with
    | none => rfl
    | some r =>
      by_cases hlate : r.resCategory = .timeout <;>
        simp [Totals.append, Totals.addElapsed, hlate, htool]

/-- **What the loop has counted for a tool.** -/
theorem tallies_eq (hnodup : used.Nodup) (htool : tool ∈ used) {todo : List Test} {s : Totals}
    (hs : tallies used logs todo = .ok s) :
    (∀ c, s.results tool c = (sorted todo).flatMap (linesOf logs tool c)) ∧
      s.totalElapsed tool = (sorted todo).flatMap (timesOf logs tool) := by
  obtain ⟨-, hloop⟩ := (tallies_ok_iff todo s).mp hs
  subst hloop
  constructor
  · intro c
    have hround : ∀ s t, (used.foldl (counted logs t) s).results tool c =
        s.results tool c ++ linesOf logs tool c t := fun s t =>
      foldl_of_own (v := fun s => s.results tool c) (g := (· ++ linesOf logs tool c t))
        (fun s => by rw [counted_results, if_pos rfl])
        (fun s tool' h => by rw [counted_results, if_neg (Ne.symm h)]) hnodup htool s
    exact foldl_append (v := fun s => s.results tool c) hround (sorted todo) noTotals
  · have hround : ∀ s t, (used.foldl (counted logs t) s).totalElapsed tool =
        s.totalElapsed tool ++ timesOf logs tool t := fun s t =>
      foldl_of_own (v := fun s => s.totalElapsed tool) (g := (· ++ timesOf logs tool t))
        (fun s => by rw [counted_totalElapsed, if_pos rfl])
        (fun s tool' h => by rw [counted_totalElapsed, if_neg (Ne.symm h)]) hnodup htool s
    exact foldl_append (v := fun s => s.totalElapsed tool) hround (sorted todo) noTotals

/-! ## Beside the LaTeX tables -/

/-- The line of a test, if there is a result. -/
def lineOf (logs : Logs) (tool : Tool) (t : Test) : Text :=
  ((resultAt logs tool t).map (line t)).getD []

/-- Its duration. -/
def elapsedOf (logs : Logs) (tool : Tool) (t : Test) : Text :=
  ((resultAt logs tool t).map (·.elapsed)).getD []

/-- The numbers of tests, by result. -/
def Totals.counts (s : Totals) (tool : Tool) : Metrics.Counts :=
  fun r => (s.results tool r).length

theorem resultAt_of_resultOf {t : Test} {r : Categorized} (h : resultOf logs tool t = some r) :
    resultAt logs tool t = some r := by
  rw [resultAt, (of_resultOf h).1]
  rfl

/-- Tests that are filed are counted under the same result. -/
theorem linesOf_of_filed {t : Test} (h : (resultOf logs tool t).isSome = true) (c : ResCategory) :
    linesOf logs tool c t =
      if filed logs tool .total (.result c) t then [lineOf logs tool t] else [] := by
  obtain ⟨r, hr⟩ := Option.isSome_iff_exists.mp h
  simp [linesOf, filed, inScope, lineOf, resultAt_of_resultOf hr, hr]

/-- Those with a result in time add their duration. -/
theorem timesOf_of_filed {t : Test} (h : (resultOf logs tool t).isSome = true) :
    timesOf logs tool t =
      if resCategoryOf logs tool t ≠ .timeout then [elapsedOf logs tool t] else [] := by
  obtain ⟨r, hr⟩ := Option.isSome_iff_exists.mp h
  simp [timesOf, resCategoryOf, elapsedOf, resultAt_of_resultOf hr, hr]

theorem flatMap_ite {α β : Type} (p : α → Prop) [DecidablePred p] (f : α → β) (xs : List α) :
    (xs.flatMap fun x => if p x then [f x] else []) = (xs.filter (decide <| p ·)).map f := by
  induction xs with
  | nil => rfl
  | cons x xs ih => by_cases hx : p x <;> simp [hx, ih]

/-- The two reports are about the same results. -/
structure Agree (logs : Logs) (todo : List Test) (st : Stats) (s : Totals) (tool : Tool) :
    Prop where
  /-- the same tests under every result -/
  results : ∀ c, ∃ ts : List Test, ts.Sublist todo ∧
    st.list .total tool (.result c) = ts.map testID ∧
      (s.results tool c).Perm (ts.map (lineOf logs tool))
  /-- hence the same numbers in the metrics -/
  counts : s.counts tool = st.counts tool
  /-- the durations of the timeouts are left out -/
  elapsed : ∃ times, st.timing .total tool = some times ∧
    (s.totalElapsed tool ++
      (todo.filter (resCategoryOf logs tool · = .timeout)).map (elapsedOf logs tool)).Perm times

theorem countable_iff {t : Test} (h : (resultOf logs tool t).isSome = true) :
    Countable logs t tool ↔ NamesProcesses t.cmd := by
  obtain ⟨r, hr⟩ := Option.isSome_iff_exists.mp h
  exact and_iff_right ⟨r, resultAt_of_resultOf hr, fun _ => (of_resultOf hr).2⟩

/-- The durations that are filed among all tests. -/
theorem timing_total {todo : List Test} (h : ∀ t ∈ todo, (resultOf logs tool t).isSome = true) :
    ((todo.filter (inScope · .total)).filterMap fun t => (resultOf logs tool t).map (·.elapsed)) =
      todo.map (elapsedOf logs tool) := by
  have hall : todo.filter (inScope · .total) = todo := List.filter_eq_self.mpr fun t _ => rfl
  rw [hall, ← List.filterMap_eq_map]
  refine List.filterMap_congr fun t ht => ?_
  obtain ⟨r, hr⟩ := Option.isSome_iff_exists.mp (h t ht)
  simp [elapsedOf, resultAt_of_resultOf hr, hr]

/-- **What is filed and what is counted agree.** -/
theorem accounts_agree (hnodup : used.Nodup) {todo : List Test}
    (havailable : Available used logs todo) {s : Totals} (hs : tallies used logs todo = .ok s)
    (htool : tool ∈ used) : Agree logs todo (accounts used logs fun _ => todo) s tool := by
  obtain ⟨hresults, htimes⟩ := tallies_eq hnodup htool hs
  have hsome : ∀ t ∈ todo, (resultOf logs tool t).isSome = true :=
    fun t ht => havailable t ht tool htool
  have hsorted : ∀ t ∈ sorted todo, (resultOf logs tool t).isSome = true :=
    fun t ht => hsome t ((sorted_perm todo).mem_iff.mp ht)
  have hlines : ∀ c, (s.results tool c).Perm
      ((todo.filter (filed logs tool .total (.result c))).map (lineOf logs tool)) := by
    intro c
    rw [hresults c, List.flatMap_congr fun t ht => linesOf_of_filed (hsorted t ht) c, flatMap_ite]
    simp only [Bool.decide_eq_true]
    exact ((sorted_perm todo).filter _).map _
  have hintime : (s.totalElapsed tool).Perm
      ((todo.filter (resCategoryOf logs tool · ≠ .timeout)).map (elapsedOf logs tool)) := by
    rw [htimes, List.flatMap_congr fun t ht => timesOf_of_filed (hsorted t ht), flatMap_ite]
    exact ((sorted_perm todo).filter _).map _
  constructor
  · exact fun c => ⟨_, List.filter_sublist, accounts_list htool _ _, hlines c⟩
  · funext c
    simp only [Totals.counts, Stats.counts, accounts_list htool, (hlines c).length_eq,
      List.length_map]
  · refine ⟨_, if_pos htool, ?_⟩
    rw [timing_total hsome]
    have hsplit := List.filter_append_perm (resCategoryOf logs tool · ≠ .timeout) todo
    simp only [decide_not, Bool.not_not] at hsplit hintime
    exact ((hintime.append_right _).trans (by rw [← List.map_append])).trans (hsplit.map _)

/-- **Where the tables can be written, the HTML report can be written iff every
command names its number of processes, and then they agree.** -/
theorem reports_agree (hnodup : used.Nodup) {todo : List Test} {st : Stats}
    (hst : gather used logs todo = .ok st) :
    ((∃ doc, cmdHtml used logs todo = .ok doc) ↔
      used = [] ∨ ∀ t ∈ todo, NamesProcesses t.cmd) ∧
    ∀ doc, cmdHtml used logs todo = .ok doc →
      ∃ s, tallies used logs todo = .ok s ∧ ∀ tool ∈ used, Agree logs todo st s tool := by
  have havailable := (gather_ok_iff hnodup todo).mp ⟨st, hst⟩
  rw [gather_eq hnodup havailable] at hst
  obtain rfl := Except.ok.inj hst
  constructor
  · simp only [cmdHtml_tallies, tallies_ok_iff, exists_and_left, exists_eq', and_true]
    constructor
    · intro hall
      cases hused : used with
      | nil => exact Or.inl rfl
      | cons tool rest =>
        have htool : tool ∈ used := hused ▸ List.mem_cons_self ..
        exact Or.inr fun t ht =>
          (countable_iff (havailable t ht tool htool)).mp (hall t ht tool htool)
    · rintro (rfl | hnp) t ht tool htool
      · cases htool
      · exact (countable_iff (havailable t ht tool htool)).mpr (hnp t ht)
  · intro doc hdoc
    obtain ⟨s, hs⟩ := (cmdHtml_tallies todo).mp ⟨doc, hdoc⟩
    exact ⟨s, hs, fun tool htool => accounts_agree hnodup havailable hs htool⟩

end

/-- Two tools, a correct code and an erroneous one. -/
theorem reports_agree_sample :
    ((∃ doc, cmdHtml [.isp, .must] sampleLogs Accounting.sampleTodo = .ok doc) ↔
      ([.isp, .must] : List Tool) = [] ∨ ∀ t ∈ Accounting.sampleTodo, NamesProcesses t.cmd) ∧
    ∀ doc, cmdHtml [.isp, .must] sampleLogs Accounting.sampleTodo = .ok doc →
      ∃ s, tallies [.isp, .must] sampleLogs Accounting.sampleTodo = .ok s ∧
        ∀ tool ∈ [Tool.isp, .must], Agree sampleLogs Accounting.sampleTodo
          (accounts [.isp, .must] sampleLogs fun _ => Accounting.sampleTodo) s tool :=
  reports_agree (by decide) (gather_eq (by decide) (by decide +kernel))

end MpiBugs.HtmlAccounts
