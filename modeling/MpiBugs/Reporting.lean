import MpiBugs.HtmlReport
import MpiBugs.RoundTrip

/-!
# Accepted tests and their report

What the loops of `cmd_html` ask of a test that the header parser has let
through.

* `command_accepted`: the parser takes any command;
* `toolCell_of_timed`: the only lookup that can still fail once a test is timed
  is that of its number of processes, which nothing uses;
* `testLoop_ok_iff`: the loop completes iff no tool is used or every command
  has `-np` and a number.
-/

namespace MpiBugs.Reporting

open Regex TextFile Header Wrappers Categorize HtmlReport RoundTrip

/-- The command has `-np`, one blank and a digit. -/
def NamesProcesses (cmd : Text) : Prop := ∃ d, '0' ≤ d ∧ d ≤ '9' ∧ "-np ".toList ++ [d] <:+: cmd

/-- The elapsed time of the test is recorded, and it is a number. -/
def Timed (logs : Logs) (t : Test) (tool : Tool) : Prop :=
  ∃ elapsed, (logs.files tool (testID t)).file (.log .elapsed) = some elapsed ∧
    readsFloat (universalNewlines elapsed) = true

/-- A test of a file that `parse_one_code` reads. -/
def Accepted (t : Test) : Prop := ∃ filename text ts, parseOneCode filename text = .ok ts ∧ t ∈ ts

/-! ## Accepted commands -/

/-- **Any command is accepted**, with any outcome. -/
theorem command_accepted (filename : Text) (c : PlainText) (a : Announced) :
    Accepted ⟨filename, 0, c.text, a.expect, a.detail⟩ := by
  have hread := parseOneCode_headerFile filename [] [] [⟨c, a, []⟩] (by simp)
  exact ⟨filename, _, _, hread, List.mem_singleton.mpr rfl⟩

/-! ## Process counts -/

theorem blank_literal : ("-np ".toList : Text) = "-np".toList ++ [' '] := by decide

/-- A number begins with a digit. -/
theorem steps_plus_digit {s t : State} (h : Steps (plus asciiDigit) s t) :
    ∃ d, '0' ≤ d ∧ d ≤ '9' ∧ ∃ u, s.rest = d :: u := by
  simp only [plus, asciiDigit, append_eq_seq, steps_seq_iff, steps_cls_iff] at h
  obtain ⟨_, ⟨d, hd, hs, _⟩, _⟩ := h
  simp only [Bool.and_eq_true, decide_eq_true_eq] at hd
  exact ⟨d, hd.1, hd.2, _, hs⟩

theorem steps_digit {d : Char} (h0 : '0' ≤ d) (h9 : d ≤ '9') (u : Text) (g : List (Nat × Text)) :
    Steps (plus asciiDigit) ⟨d :: u, g⟩ ⟨u, g⟩ := by
  have hd : ('0' ≤ d && d ≤ '9') = true := by simp [h0, h9]
  simp only [plus, asciiDigit, append_eq_seq, steps_seq_iff]
  refine ⟨⟨u, g⟩, (steps_cls_iff _ _ _).mpr ⟨d, hd, rfl, rfl⟩, ?_⟩
  exact (steps_star_cls_iff _ _ _ _).mpr ⟨[], rfl, by simp, rfl⟩

/-- **The search for the number of processes succeeds on `-np` and a digit.** -/
theorem search_npPattern_iff (cmd : Text) :
    (search npPattern cmd).isSome ↔ NamesProcesses cmd := by
  rw [search_isSome_iff]
  constructor
  · rintro ⟨a, u, t, rfl, h⟩
    simp only [npPattern, chars, append_eq_seq, steps_seq_iff, steps_lit_iff] at h
    obtain ⟨v, ⟨hv, _⟩, w, ⟨hw, _⟩, hdigits⟩ := h
    obtain ⟨d, h0, h9, x, hx⟩ := steps_plus_digit hdigits
    refine ⟨d, h0, h9, a, x, ?_⟩
    rw [blank_literal, hv, hw, hx]
    simp
  · rintro ⟨d, h0, h9, a, x, rfl⟩
    refine ⟨a, "-np".toList ++ ([' '] ++ d :: x), ⟨x, []⟩, by rw [blank_literal]; simp, ?_⟩
    simp only [npPattern, chars, append_eq_seq, steps_seq_iff, steps_lit_iff]
    exact ⟨⟨[' '] ++ d :: x, []⟩, ⟨rfl, rfl⟩, ⟨d :: x, []⟩, ⟨rfl, rfl⟩, steps_digit h0 h9 x []⟩

/-! ## The loops -/

theorem categorize_of_timed {logs : Logs} {t : Test} {tool : Tool} (h : Timed logs t tool) :
    ∃ r, categorize tool (logs.files tool (testID t)) (testID t) t.expect = .ok r ∧
      readsFloat r.elapsed = true := by
  obtain ⟨elapsed, hfile, hnumber⟩ := h
  unfold categorize
  simp only [hfile]
  exact ⟨_, rfl, hnumber⟩

/-- **A timed test is reported for a tool iff its command has a number of
processes**, which is then dropped. -/
theorem toolCell_of_timed {logs : Logs} {t : Test} {tool : Tool} (h : Timed logs t tool) :
    (NamesProcesses t.cmd → ∃ cell, toolCell logs t tool = .ok cell) ∧
      (¬ NamesProcesses t.cmd → toolCell logs t tool = .error .noProcessCount) := by
  obtain ⟨r, hr, hnumber⟩ := categorize_of_timed h
  unfold toolCell
  rw [← search_npPattern_iff, hr]
  cases hnp : search npPattern t.cmd with
  | none => simp [hnumber]
  | some m => simp [hnumber]

/-- A loop that collects results completes iff each of its rounds does. -/
theorem mapM_ok_iff {α β ε : Type} (f : α → Except ε β) (l : List α) :
    (∃ r, l.mapM f = .ok r) ↔ ∀ x ∈ l, ∃ y, f x = .ok y := by
  induction l with
  | nil => simp [pure, Except.pure]
  | cons x l ih =>
    rw [List.mapM_cons, List.forall_mem_cons, ← ih]
    cases hx : f x with
    | error e => simp [bind, Except.bind]
    | ok y =>
      cases hl : l.mapM f with
      | error e => simp [bind, Except.bind]
      | ok ys => simp [bind, Except.bind, pure, Except.pure]

section Loop

variable {used : List Tool} {logs : Logs}

theorem row_ok_iff {t : Test} (h : ∀ tool ∈ used, Timed logs t tool) :
    (∃ text, row used logs t = .ok text) ↔ used = [] ∨ NamesProcesses t.cmd := by
  have hcells : (∃ text, row used logs t = .ok text) ↔
      ∃ cells, used.mapM (toolCell logs t) = .ok cells := by
    unfold row
    cases used.mapM (toolCell logs t) with
    | error e => simp
    | ok cells => simp
  rw [hcells, mapM_ok_iff]
  constructor
  · intro hall
    cases hused : used with
    | nil => exact Or.inl rfl
    | cons tool rest =>
      refine Or.inr (not_not.mp fun hnp => ?_)
      have hmem : tool ∈ used := hused ▸ List.mem_cons_self ..
      obtain ⟨cell, hcell⟩ := hall tool hmem
      rw [(toolCell_of_timed (h tool hmem)).2 hnp] at hcell
      cases hcell
  · rintro (rfl | hnp) tool hmem
    · cases hmem
    · exact (toolCell_of_timed (h tool hmem)).1 hnp

/-- The loop fails where its first row does. -/
theorem testLoop_ok_cons_iff (s : LoopState) (t : Test) (ts : List Test) :
    (∃ items, testLoop used logs s (t :: ts) = .ok items) ↔
      (∃ text, row used logs t = .ok text) ∧
        ∃ items, testLoop used logs (beforeRow s t).2 ts = .ok items := by
  rw [testLoop]
  cases row used logs t with
  | error e => simp
  | ok text =>
    cases h : testLoop used logs (beforeRow s t).2 ts with
    | error e => simp [h]
    | ok rest => simp [h]

theorem testLoop_rows_ok_iff (s : LoopState) (ts : List Test) :
    (∃ items, testLoop used logs s ts = .ok items) ↔
      ∀ t ∈ ts, ∃ text, row used logs t = .ok text := by
  induction ts generalizing s with
  | nil => simp [testLoop]
  | cons t ts ih => rw [testLoop_ok_cons_iff, ih, List.forall_mem_cons]

/-- **The loop over the tests completes iff no tool is used or every command has
a number of processes.** -/
theorem testLoop_ok_iff {todo : List Test} (h : ∀ t ∈ todo, ∀ tool ∈ used, Timed logs t tool) :
    (∃ items, testLoop used logs ⟨none, 0⟩ (sorted todo) = .ok items) ↔
      used = [] ∨ ∀ t ∈ todo, NamesProcesses t.cmd := by
  rw [testLoop_rows_ok_iff]
  constructor
  · intro hall
    by_cases hused : used = []
    · exact Or.inl hused
    · refine Or.inr fun t ht => ?_
      have hrow := hall t ((sorted_perm todo).mem_iff.mpr ht)
      exact ((row_ok_iff (h t ht)).mp hrow).resolve_left hused
  · intro hcond t ht
    have ht : t ∈ todo := (sorted_perm todo).mem_iff.mp ht
    rcases hcond with hused | hnp
    · exact (row_ok_iff (h t ht)).mpr (Or.inl hused)
    · exact (row_ok_iff (h t ht)).mpr (Or.inr (hnp t ht))

end Loop

/-! ## A test without a number of processes -/

/-- Every tool took one second. -/
def timedLogs : Logs :=
  ⟨fun _ _ => ⟨fun f => if f = .log .elapsed then some "1".toList else none, fun _ => none⟩,
    fun _ _ => false⟩

theorem timedLogs_timed (t : Test) (tool : Tool) : Timed timedLogs t tool :=
  ⟨"1".toList, rfl, by decide +kernel⟩

def serialCommand : PlainText :=
  ⟨"${EXE}".toList, by decide +kernel, by decide +kernel, by decide +kernel⟩

/-- A test whose command starts no `mpirun`. -/
def serialTest : Test := ⟨"gencodes/a.c".toList, 0, serialCommand.text, .OK, .OK⟩

/-- Two tests whose commands do. -/
def parallelTests : List Test :=
  [⟨"gencodes/b.c".toList, 0, "mpirun -np 4 ${EXE}".toList, .OK, .OK⟩,
    ⟨"gencodes/a.c".toList, 0, "mpirun -np 2 ${EXE}".toList, .OK, .OK⟩]

theorem testLoop_ok_parallel :
    ∃ items, testLoop [.itac, .must] timedLogs ⟨none, 0⟩ (sorted parallelTests) = .ok items := by
  refine (testLoop_ok_iff fun t _ tool _ => timedLogs_timed t tool).mpr (.inr fun t ht => ?_)
  rw [← search_npPattern_iff]
  simp only [parallelTests, List.mem_cons, List.not_mem_nil, or_false] at ht
  rcases ht with rfl | rfl <;> decide +kernel

theorem serialCommand_unnamed : ¬ NamesProcesses serialCommand.text := by
  rw [← search_npPattern_iff]
  decide +kernel

/-- An accepted test that the report cannot show. -/
theorem unreported_test :
    ¬ ∀ (todo : List Test) (used : List Tool) (logs : Logs), (∀ t ∈ todo, Accepted t) →
      (∀ t ∈ todo, ∀ tool ∈ used, Timed logs t tool) →
      ∃ items, testLoop used logs ⟨none, 0⟩ (sorted todo) = .ok items := by
  intro hreported
  have haccepted : ∀ t ∈ [serialTest], Accepted t := by
    intro t ht
    rw [List.mem_singleton.mp ht]
    exact command_accepted "gencodes/a.c".toList serialCommand .ok
  obtain ⟨items, hitems⟩ := hreported [serialTest] [.itac] timedLogs haccepted
    fun t _ tool _ => timedLogs_timed t tool
  have hrows := (testLoop_rows_ok_iff _ _).mp ⟨items, hitems⟩
  have hrow := hrows serialTest ((sorted_perm _).mem_iff.mpr (List.mem_singleton.mpr rfl))
  rcases (row_ok_iff fun tool _ => timedLogs_timed serialTest tool).mp hrow with h | h
  · cases h
  · exact serialCommand_unnamed h

end MpiBugs.Reporting
