import MpiBugs.Header

/-!
# Headers written and read back

The header as the generators' templates lay it out: the BEGIN line, a command
line and an outcome line for each test with its note lines, the END line, the
program before and after.  `parseOneCode_headerFile`: reading such a file gives
back the tests, in order, numbered from 0.
-/

namespace MpiBugs.RoundTrip

open TextFile Header

/-- Text for one line that holds no header marker. -/
structure PlainText where
  text : Text
  oneLine : OneLine text
  noBegin : ¬ beginMark <:+: text
  noEnd : ¬ endMark <:+: text

/-- What an outcome line announces: `OK`, or an error that is not `OK`. -/
inductive Announced
  | ok
  | error (d : Detail) (h : d ≠ .OK)

namespace Announced

def text : Announced → Text
  | ok => "OK".toList
  | error d _ => "ERROR: ".toList ++ d.key

def expect : Announced → Expect
  | ok => .OK
  | error _ _ => .ERROR

def detail : Announced → Detail
  | ok => .OK
  | error d _ => d

end Announced

structure Entry where
  cmd : PlainText
  outcome : Announced
  notes : List PlainText

/-- `  $ cmd` -/
def commandLine (e : Entry) : Text := "  $ ".toList ++ e.cmd.text

/-- `  | text` -/
def barLine (t : Text) : Text := "  | ".toList ++ t

def Entry.lines (e : Entry) : List Text :=
  commandLine e :: barLine e.outcome.text :: e.notes.map (fun n => barLine n.text)

def headerFile (before after : List PlainText) (entries : List Entry) : Text :=
  unlines (before.map PlainText.text ++ beginMark :: (entries.flatMap Entry.lines ++
    endMark :: after.map PlainText.text))

/-- The tests the header announces, the first of them numbered `k`. -/
def announcedTests (filename : Text) : Nat → List Entry → List Test
  | _, [] => []
  | k, e :: es =>
    ⟨filename, k, e.cmd.text, e.outcome.expect, e.outcome.detail⟩ ::
      announcedTests filename (k + 1) es

/-! ## Markers -/

theorem infix_cons_of_ne {d : Char} {w : Text} {c : Char} {t : Text} (h : c ≠ d)
    (hw : (d :: w) <:+: (c :: t)) : (d :: w) <:+: t := by
  rcases List.infix_cons_iff.mp hw with hp | hi
  · exact absurd (List.cons_prefix_cons.mp hp).1 (Ne.symm h)
  · exact hi

theorem infix_of_infix_concat {w l : Text} {c : Char} (hne : w ≠ []) (hc : c ∉ w)
    (h : w <:+: l ++ [c]) : w <:+: l := by
  rcases List.infix_concat_iff.mp h with ⟨u, hu⟩ | h
  · have hlast := congrArg List.getLast? hu
    rw [List.getLast?_append_of_ne_nil _ hne, List.getLast?_concat] at hlast
    exact absurd (List.mem_of_getLast? hlast) hc
  · exact h

theorem unmarked_of_not_infix {l : Text} (hl : '\n' ∉ l) (hb : ¬ beginMark <:+: l)
    (he : ¬ endMark <:+: l) : Unmarked (l ++ ['\n']) := by
  have hline := isLine_append_newline hl
  constructor
  · rw [Bool.eq_false_iff, ne_eq, isBegin_iff hline]
    exact fun h => hb (infix_of_infix_concat (by simp [beginMark_eq]) (by simp [beginMark_eq]) h)
  · rw [Bool.eq_false_iff, ne_eq, isEnd_iff hline]
    exact fun h => he (infix_of_infix_concat (by simp [endMark_eq]) (by simp [endMark_eq]) h)

theorem PlainText.unmarked (p : PlainText) : Unmarked (p.text ++ ['\n']) :=
  unmarked_of_not_infix p.oneLine.not_mem p.noBegin p.noEnd

/-- No marker starts in the indentation of a line. -/
theorem not_infix_indent {d : Char} {w t : Text} {c : Char} (hsp : ' ' ≠ d) (hc : c ≠ d)
    (h : ¬ (d :: w) <:+: t) : ¬ (d :: w) <:+: (' ' :: ' ' :: c :: ' ' :: t) := fun hw =>
  h (infix_cons_of_ne hsp (infix_cons_of_ne hc (infix_cons_of_ne hsp (infix_cons_of_ne hsp hw))))

private theorem indented_unmarked {c : Char} (hb : c ≠ 'B') (he : c ≠ 'E') (hn : c ≠ '\n')
    {t : Text} (ht : '\n' ∉ t) (htb : ¬ beginMark <:+: t) (hte : ¬ endMark <:+: t) :
    Unmarked (' ' :: ' ' :: c :: ' ' :: t ++ ['\n']) := by
  rw [beginMark_eq] at htb
  rw [endMark_eq] at hte
  refine unmarked_of_not_infix (by simp [ht, Ne.symm hn]) ?_ ?_
  · rw [beginMark_eq]
    exact not_infix_indent (by decide) hb htb
  · rw [endMark_eq]
    exact not_infix_indent (by decide) he hte

theorem commandLine_eq (e : Entry) : commandLine e = ' ' :: ' ' :: '$' :: ' ' :: e.cmd.text := by
  show "  $ ".toList ++ e.cmd.text = _
  rw [String.toList_ofList]
  rfl

theorem barLine_eq (t : Text) : barLine t = ' ' :: ' ' :: '|' :: ' ' :: t := by
  show "  | ".toList ++ t = _
  rw [String.toList_ofList]
  rfl

theorem commandLine_unmarked (e : Entry) : Unmarked (commandLine e ++ ['\n']) := by
  rw [commandLine_eq]
  exact indented_unmarked (by decide) (by decide) (by decide) e.cmd.oneLine.not_mem
    e.cmd.noBegin e.cmd.noEnd

theorem note_unmarked (n : PlainText) : Unmarked (barLine n.text ++ ['\n']) := by
  rw [barLine_eq]
  exact indented_unmarked (by decide) (by decide) (by decide) n.oneLine.not_mem n.noBegin n.noEnd

/-! ## Commands, notes and outcomes -/

theorem commandLine_isCommand (e : Entry) : isCommand (commandLine e ++ ['\n']) = true := by
  rw [commandLine_eq, isCommand_iff]
  exact ⟨[' ', ' '], ' ' :: e.cmd.text ++ ['\n'], rfl, by simp, by decide⟩

theorem commandLine_text (e : Entry) : commandText (commandLine e ++ ['\n']) = e.cmd.text := by
  have h := @commandText_eq [' ', ' '] (by simp) (by decide) (' ' :: e.cmd.text ++ ['\n'])
  rw [commandLine_eq]
  exact h.trans (content_append_newline e.cmd.oneLine.not_mem [])

theorem isCommand_barLine (t : Text) : isCommand (barLine t ++ ['\n']) = false := by
  rw [Bool.eq_false_iff, ne_eq, isCommand_iff, barLine_eq]
  rintro ⟨ws, u, h, _, hws⟩
  have h := congrArg (List.dropWhile isSpace) h
  rw [List.dropWhile_append_of_pos hws, List.dropWhile_cons_of_neg (by decide)] at h
  exact absurd (List.cons.inj (h.symm.trans rfl)).1 (by decide)

theorem Announced.ok_text : ok.text = ['O', 'K'] := String.toList_ofList

theorem Announced.error_text (d : Detail) (h : d ≠ .OK) :
    (error d h).text = 'E' :: 'R' :: 'R' :: 'O' :: 'R' :: ':' :: ' ' :: d.key :=
  congrArg (· ++ d.key) String.toList_ofList

theorem key_not_mem (d : Detail) {c : Char} (hc : c.isAlpha = false) : c ∉ d.key := fun h => by
  rw [d.key_alpha h] at hc
  cases hc

/-- The text of an outcome is letters, a colon and a blank. -/
theorem Announced.not_mem_text (a : Announced) {c : Char} (hc : c.isAlpha = false)
    (hcolon : c ≠ ':') (hblank : c ≠ ' ') : c ∉ a.text := by
  cases a with
  | ok =>
    rw [ok_text]
    intro h
    rcases List.mem_cons.mp h with rfl | h
    · exact absurd hc (by decide)
    · rw [List.mem_singleton.mp h] at hc
      exact absurd hc (by decide)
  | error d hd =>
    rw [error_text]
    simp only [List.mem_cons, hcolon, hblank, key_not_mem d hc, or_false]
    rintro (rfl | rfl | rfl | rfl | rfl) <;> exact absurd hc (by decide)

theorem readOutcome_barLine (a : Announced) :
    readOutcome (barLine a.text ++ ['\n']) = some (a.expect, a.detail) := by
  have hbars : ∀ c ∈ [' ', ' ', '|', ' '], isBar c := by decide
  rw [barLine_eq, readOutcome_eq_some_iff]
  cases a with
  | ok =>
    rw [Announced.ok_text]
    exact Or.inl ⟨readsOk_intro hbars ['\n'], rfl, rfl⟩
  | error d hd =>
    rw [Announced.error_text]
    refine Or.inr ⟨readsError_intro (t := ' ' :: d.key ++ ['\n']) hbars ?_, rfl⟩
    have hblank : (' ' :: d.key ++ ['\n']).dropWhile isBlank = d.key ++ ['\n'] := by
      obtain ⟨c, w, hw⟩ := List.exists_cons_of_ne_nil d.key_ne_nil
      have hc : isBlank c = false := by
        rw [isBlank, beq_eq_false_iff_ne]
        rintro rfl
        exact key_not_mem d (c := ' ') (by decide) (by rw [hw]; exact List.mem_cons_self ..)
      rw [hw]
      simp [isBlank] at hc
      simp [isBlank, hc]
    rw [hblank]
    exact content_append_newline (key_not_mem d (by decide)) []

/-! ## The round trip -/

/-- Markers contain underscores. -/
theorem not_infix_of_no_underscore {t : Text} (h : '_' ∉ t) :
    ¬ beginMark <:+: t ∧ ¬ endMark <:+: t := by
  constructor
  · exact fun hw => h (hw.subset (by simp [beginMark_eq]))
  · exact fun hw => h (hw.subset (by simp [endMark_eq]))

theorem outcome_oneLine (a : Announced) : OneLine (barLine a.text) := by
  rw [barLine_eq]
  simp only [oneLine_cons]
  refine ⟨by decide, by decide, by decide, by decide, fun c hc => ⟨?_, ?_⟩⟩
  · rintro rfl
    exact a.not_mem_text (by decide) (by decide) (by decide) hc
  · rintro rfl
    exact a.not_mem_text (by decide) (by decide) (by decide) hc

theorem entry_oneLine (e : Entry) : ∀ l ∈ e.lines, OneLine l := by
  intro l hl
  simp only [Entry.lines, List.mem_cons, List.mem_map] at hl
  rcases hl with rfl | rfl | ⟨n, _, rfl⟩
  · rw [commandLine_eq]
    simp only [oneLine_cons]
    exact ⟨by decide, by decide, by decide, by decide, e.cmd.oneLine⟩
  · exact outcome_oneLine e.outcome
  · rw [barLine_eq]
    simp only [oneLine_cons]
    exact ⟨by decide, by decide, by decide, by decide, n.oneLine⟩

/-- The lines of the file, as reading delivers them. -/
theorem readLines_headerFile (before after : List PlainText) (entries : List Entry) :
    readLines (headerFile before after entries) =
      before.map (·.text ++ ['\n']) ++ (beginMark ++ ['\n']) ::
        ((entries.flatMap Entry.lines).map (· ++ ['\n']) ++ (endMark ++ ['\n']) ::
          after.map (·.text ++ ['\n'])) := by
  unfold headerFile
  rw [readLines_unlines]
  · simp [Function.comp_def]
  · intro l hl
    simp only [List.mem_append, List.mem_cons, List.mem_map, List.mem_flatMap] at hl
    rcases hl with ⟨p, _, rfl⟩ | rfl | ⟨e, _, hl⟩ | rfl | ⟨p, _, rfl⟩
    · exact p.oneLine
    · rw [beginMark_eq]; decide
    · exact entry_oneLine e l hl
    · rw [endMark_eq]; decide
    · exact p.oneLine

/-- The command and outcome lines of an entry. -/
def pair (e : Entry) : Text × Text :=
  (commandLine e ++ ['\n'], barLine e.outcome.text ++ ['\n'])

theorem closed_notes (notes : List PlainText) {ls : List Text} {ps : List (Text × Text)}
    (h : Closed ls ps) : Closed (notes.map (barLine ·.text ++ ['\n']) ++ ls) ps := by
  induction notes with
  | nil => exact h
  | cons n notes ih => exact .note (note_unmarked n) (isCommand_barLine n.text) ih

theorem closed_entries (entries : List Entry) {ls : List Text} (h : Closed ls []) :
    Closed ((entries.flatMap Entry.lines).map (· ++ ['\n']) ++ ls) (entries.map pair) := by
  induction entries with
  | nil => exact h
  | cons e es ih =>
    have hnotes := closed_notes e.notes ih
    have htest : Closed _ (pair e :: es.map pair) :=
      .test (o := barLine e.outcome.text ++ ['\n']) (commandLine_unmarked e)
        (commandLine_isCommand e) hnotes
    simpa [Entry.lines, Function.comp_def] using htest

theorem readTests_entries (filename : Text) (entries : List Entry) : ∀ k : Nat,
    readTests filename k (entries.map pair) = some (announcedTests filename k entries) := by
  induction entries with
  | nil => intro k; rfl
  | cons e es ih =>
    intro k
    exact readTests_cons_iff.mpr ⟨_, _, _, readOutcome_barLine e.outcome, ih (k + 1),
      by rw [commandLine_text]; rfl⟩

/-- **Reading a header gives back the tests written in it.** -/
theorem parseOneCode_headerFile (filename : Text) (before after : List PlainText)
    (entries : List Entry) (hne : entries ≠ []) :
    parseOneCode filename (headerFile before after entries) =
      .ok (announcedTests filename 0 entries) := by
  rw [parseOneCode_ok_iff]
  refine ⟨entries.map pair, ?_, by simpa using hne, readTests_entries filename entries 0⟩
  have hafter : ∀ l ∈ after.map (·.text ++ ['\n']), Unmarked l := by
    intro l hl
    obtain ⟨p, _, rfl⟩ := List.mem_map.mp hl
    exact p.unmarked
  have hclosed := closed_entries entries (.close end_line.1 end_line.2 hafter)
  refine ⟨before.map (·.text ++ ['\n']), _, readLines_headerFile before after entries, ?_,
    .plain begin_line.1 begin_line.2 hclosed⟩
  intro l hl
  obtain ⟨p, _, rfl⟩ := List.mem_map.mp hl
  exact p.unmarked

/-- `mpirun -np 2 ${EXE}` -/
def twoProcesses : PlainText where
  text := "mpirun -np 2 $\x7bEXE\x7d".toList
  oneLine := by rw [String.toList_ofList]; decide
  noBegin := (not_infix_of_no_underscore (by rw [String.toList_ofList]; decide)).1
  noEnd := (not_infix_of_no_underscore (by rw [String.toList_ofList]; decide)).2

/-- A file with two tests, the second of them erroneous. -/
theorem parseOneCode_two_tests :
    parseOneCode "a.c".toList (headerFile [] [twoProcesses]
      [⟨twoProcesses, .ok, [twoProcesses]⟩,
       ⟨twoProcesses, .error .CallMatching (by decide), []⟩]) =
      .ok [⟨"a.c".toList, 0, twoProcesses.text, .OK, .OK⟩,
        ⟨"a.c".toList, 1, twoProcesses.text, .ERROR, .CallMatching⟩] :=
  parseOneCode_headerFile _ _ _ _ (by simp)

end MpiBugs.RoundTrip
