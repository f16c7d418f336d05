import MpiBugs.Details
import MpiBugs.TextFile

/-!
# The test header: `parse_one_code`

The reader of `MBI.py` that extracts the tests announced in the header of a
source file, its exceptions with their texts, and the grammar it accepts.

* `scan_inside_iff`, `scan_before_iff`: what the line loop accepts from each of
  its states;
* `parseOneCode_ok_iff`: the files accepted are those that `HasHeader`, and the
  tests returned are those of its pairs of lines.
-/

namespace MpiBugs.Header

open Regex TextFile

/-! ## The patterns -/

/-- `\s` on Unicode text. -/
def isSpace (c : Char) : Bool :=
  (9 ≤ c.toNat && c.toNat ≤ 13) || (28 ≤ c.toNat && c.toNat ≤ 32) || c.toNat == 0x85 ||
  c.toNat == 0xa0 || c.toNat == 0x1680 || (0x2000 ≤ c.toNat && c.toNat ≤ 0x200a) ||
  c.toNat == 0x2028 || c.toNat == 0x2029 || c.toNat == 0x202f || c.toNat == 0x205f ||
  c.toNat == 0x3000

/-- `[ |]` -/
def isBar (c : Char) : Bool := c == ' ' || c == '|'

def isBlank (c : Char) : Bool := c == ' '

def beginMark : Text := "BEGIN_MBI_TESTS".toList
def endMark : Text := "END_MBI_TESTS".toList

/-- `.*mark.*` -/
def markPattern (mark : Text) : Regex := many dot ++ (lit mark ++ many dot)

/-- `\s+\$ ?(.*)`; the loop tests the same pattern without the group first. -/
def commandPattern : Regex :=
  plus (cls isSpace) ++ (lit ['$'] ++ (opt (lit [' ']) ++ group 1 (many dot)))

/-- `\s+\$ ?.*` -/
def commandTest : Regex := plus (cls isSpace) ++ (lit ['$'] ++ (opt (lit [' ']) ++ many dot))

/-- `[ |]*OK *` -/
def okPattern : Regex := many (cls isBar) ++ (lit "OK".toList ++ many (cls isBlank))

/-- `[ |]*ERROR: *(.*)` -/
def errorPattern : Regex :=
  many (cls isBar) ++ (lit "ERROR:".toList ++ (many (cls isBlank) ++ group 1 (many dot)))

/-! ## The reader -/

inductive ParseError
  | headerTwice (lineNum : Nat) (line : Text)
  | unexpectedEnd (lineNum : Nat) (line : Text)
  | badOutcome (filename : Text) (lineNum : Nat) (line nextline : Text)
  | unknownDetail (filename : Text) (lineNum : Nat) (detail : Text)
  | noHeader (filename : Text)
  | notEnded (filename : Text)
  | noTest (filename : Text)
  /-- raised by `next(input)` at the end of the file -/
  | stopIteration
  deriving DecidableEq, Repr

def natText (n : Nat) : Text := (toString n).toList

/-- The text of the exception. -/
def ParseError.message : ParseError → Text
  | headerTwice n l =>
    "MBI_TESTS header appears a second time at line ".toList ++ natText n ++ ": \n".toList ++ l
  | unexpectedEnd n l =>
    "Unexpected end of MBI_TESTS header at line ".toList ++ natText n ++ ": \n".toList ++ l
  | badOutcome f n l l' =>
    "\n".toList ++ f ++ ":".toList ++ natText n ++
      ": MBI parse error: Test not followed by a proper 'ERROR' line:\n".toList ++ l ++ l'
  | unknownDetail f n d =>
    "\n".toList ++ f ++ ":".toList ++ natText n ++
      ": MBI parse error: Detailled outcome ".toList ++ d ++
      " is not one of the allowed ones.".toList
  | noHeader f => "MBI_TESTS header not found in file '".toList ++ f ++ "'.".toList
  | notEnded f => "MBI_TESTS header not properly ended in file '".toList ++ f ++ "'.".toList
  | noTest f => "No test found in ".toList ++ f ++ ". Please fix it.".toList
  | stopIteration => []

/-- `state`: 0 before the header, 1 in it, 2 after it. -/
inductive Phase
  | before | inside | after
  deriving DecidableEq, Repr

def isBegin (line : Text) : Bool := (matchStart (markPattern beginMark) line).isSome
def isEnd (line : Text) : Bool := (matchStart (markPattern endMark) line).isSome
def isCommand (line : Text) : Bool := (matchStart commandTest line).isSome

/-- The first half of the loop body: the markers. -/
def marker (phase : Phase) (lineNum : Nat) (line : Text) : Except ParseError Phase :=
  if isBegin line then
    if phase = .before then .ok .inside else .error (.headerTwice lineNum line)
  else if isEnd line then
    if phase = .inside then .ok .after else .error (.unexpectedEnd lineNum line)
  else .ok phase

/-- `m.group(1)` of the command line. -/
def commandText (line : Text) : Text :=
  ((matchStart commandPattern line).bind (·.group 1)).getD []

/-- The expectation and detail read off the line after a command. -/
def outcome (filename : Text) (lineNum : Nat) (line nextline : Text) :
    Except ParseError (Expect × Detail) :=
  if (matchStart okPattern nextline).isSome then .ok (.OK, .OK)
  else
    match matchStart errorPattern nextline with
    | none => .error (.badOutcome filename lineNum line nextline)
    | some m =>
      let detail := (m.group 1).getD []
      match Detail.ofKey detail with
      | none => .error (.unknownDetail filename lineNum detail)
      | some d => .ok (.ERROR, d)

/-- The line loop; `next(input)` takes the outcome line out of the same
iterator, and `line_num` only counts the tests read. -/
def scan (filename : Text) :
    Phase → Nat → Nat → List Test → List Text → Except ParseError (Phase × List Test)
  | phase, _, _, res, [] => .ok (phase, res)
  | phase, lineNum, testNum, res, line :: rest =>
    match marker phase lineNum line with
    | .error e => .error e
    | .ok phase =>
      if phase = .inside ∧ isCommand line then
        match rest with
        | [] => .error .stopIteration
        | nextline :: rest =>
          match outcome filename lineNum line nextline with
          | .error e => .error e
          | .ok (expect, detail) =>
            scan filename phase (lineNum + 1) (testNum + 1)
              (res ++ [⟨filename, testNum, commandText line, expect, detail⟩]) rest
      else scan filename phase lineNum testNum res rest

/-- `parse_one_code` on a file with this text. -/
def parseOneCode (filename text : Text) : Except ParseError (List Test) :=
  match scan filename .before 1 0 [] (readLines text) with
  | .error e => .error e
  | .ok (.before, _) => .error (.noHeader filename)
  | .ok (.inside, _) => .error (.notEnded filename)
  | .ok (.after, res) => if res.length = 0 then .error (.noTest filename) else .ok res

/-! ## What the patterns match -/

private theorem matchStart_isSome_iff (r : Regex) (s : Text) :
    (matchStart r s).isSome ↔ ∃ t, Steps r ⟨s, []⟩ t := by
  rw [matchStart_isSome, first_isSome_iff]

theorem markPattern_iff {mark l : Text} (hm : mark ≠ []) (hl : IsLine l) :
    (matchStart (markPattern mark) l).isSome ↔ mark <:+: l := by
  rw [matchStart_isSome_iff]
  constructor
  · rintro ⟨t, h⟩
    simp only [markPattern, many, dot, append_eq_seq, steps_seq_iff, steps_star_cls_iff,
      steps_lit_iff] at h
    obtain ⟨s₁, ⟨u, hu, _, _⟩, s₂, ⟨hs₁, _⟩, _⟩ := h
    exact ⟨u, s₂.rest, by rw [List.append_assoc, ← hs₁, ← hu]⟩
  · rintro ⟨u, v, rfl⟩
    rw [List.append_assoc] at hl ⊢
    have hu : '\n' ∉ u := hl.not_mem_left (by simp [hm])
    have hdot : ∀ c ∈ u, (c != '\n') = true := by
      intro c hc
      rw [bne_iff_ne]
      rintro rfl
      exact hu hc
    refine ⟨⟨v, []⟩, Steps.seq (t := ⟨mark ++ v, []⟩) ?_ (Steps.seq (t := ⟨v, []⟩) ?_ ?_)⟩
    · exact (steps_star_cls_iff ..).mpr ⟨u, rfl, hdot, rfl⟩
    · exact (steps_lit_iff ..).mpr ⟨rfl, rfl⟩
    · exact Steps.starNil _

theorem beginMark_eq :
    beginMark = ['B', 'E', 'G', 'I', 'N', '_', 'M', 'B', 'I', '_', 'T', 'E', 'S', 'T', 'S'] :=
  String.toList_ofList

theorem endMark_eq :
    endMark = ['E', 'N', 'D', '_', 'M', 'B', 'I', '_', 'T', 'E', 'S', 'T', 'S'] :=
  String.toList_ofList

theorem isBegin_iff {l : Text} (hl : IsLine l) : isBegin l ↔ beginMark <:+: l := by
  have hm : beginMark ≠ [] := by simp [beginMark_eq]
  rw [isBegin, markPattern_iff hm hl]

theorem isEnd_iff {l : Text} (hl : IsLine l) : isEnd l ↔ endMark <:+: l := by
  have hm : endMark ≠ [] := by simp [endMark_eq]
  rw [isEnd, markPattern_iff hm hl]

/-- Blanks, a dollar, and the rest. -/
theorem isCommand_iff (l : Text) :
    isCommand l ↔ ∃ ws t, l = ws ++ '$' :: t ∧ ws ≠ [] ∧ ∀ c ∈ ws, isSpace c := by
  rw [isCommand, matchStart_isSome_iff]
  constructor
  · rintro ⟨t, h⟩
    simp only [commandTest, plus, many, append_eq_seq, steps_seq_iff, steps_star_cls_iff,
      steps_cls_iff, steps_lit_iff] at h
    obtain ⟨s₁, ⟨s₀, ⟨c, hc, hs₀, _⟩, u, hu, hall, _⟩, s₂, ⟨hs₁, _⟩, _⟩ := h
    refine ⟨c :: u, s₂.rest, ?_, by simp, ?_⟩
    · rw [hs₀, hu, hs₁]
      rfl
    · intro d hd
      rcases List.mem_cons.mp hd with rfl | hd
      · exact hc
      · exact hall d hd
  · rintro ⟨ws, t, rfl, hne, hall⟩
    obtain ⟨c, ws, rfl⟩ := List.exists_cons_of_ne_nil hne
    have hc := hall c (List.mem_cons_self ..)
    have hws := fun d hd => hall d (List.mem_cons_of_mem c hd)
    refine ⟨⟨t, []⟩, Steps.seq (t := ⟨'$' :: t, []⟩)
      (Steps.seq (Steps.cls hc) ((steps_star_cls_iff ..).mpr ⟨ws, rfl, hws, rfl⟩))
      (Steps.seq (t := ⟨t, []⟩) ((steps_lit_iff ..).mpr ⟨rfl, rfl⟩)
        (Steps.seq (Steps.altRight (Steps.eps _)) (Steps.starNil _)))⟩

theorem begin_line : isBegin (beginMark ++ ['\n']) = true ∧
    isCommand (beginMark ++ ['\n']) = false := by
  constructor
  · rw [isBegin_iff (isLine_append_newline (by simp [beginMark_eq]))]
    exact ⟨[], ['\n'], rfl⟩
  · rw [Bool.eq_false_iff, ne_eq, isCommand_iff]
    rintro ⟨ws, t, h, _, _⟩
    have hmem : '$' ∈ beginMark ++ ['\n'] := by simp [h]
    simp [beginMark_eq] at hmem

theorem end_line : isBegin (endMark ++ ['\n']) = false ∧
    isEnd (endMark ++ ['\n']) = true := by
  have hline := isLine_append_newline (l := endMark) (by simp [endMark_eq])
  constructor
  · rw [Bool.eq_false_iff, ne_eq, isBegin_iff hline]
    intro h
    have hlen := h.length_le
    simp [beginMark_eq, endMark_eq] at hlen
  · rw [isEnd_iff hline]
    exact ⟨[], ['\n'], rfl⟩

/-- Leading blanks and bars, then `OK`: what follows is not looked at. -/
def ReadsOk (l : Text) : Prop := ∃ u t, l = u ++ "OK".toList ++ t ∧ ∀ c ∈ u, isBar c

/-- Leading blanks and bars, then `ERROR:`, blanks, and the key up to the end of the line. -/
def ReadsError (l : Text) (d : Detail) : Prop :=
  ∃ u t, l = u ++ "ERROR:".toList ++ t ∧ (∀ c ∈ u, isBar c) ∧
    content (t.dropWhile isBlank) = d.key

theorem readsOk_intro {u : Text} (hu : ∀ c ∈ u, isBar c) (t : Text) :
    ReadsOk (u ++ 'O' :: 'K' :: t) :=
  ⟨u, t, by rw [String.toList_ofList, List.append_assoc]; rfl, hu⟩

theorem readsError_intro {u : Text} (hu : ∀ c ∈ u, isBar c) {t : Text} {d : Detail}
    (hd : content (t.dropWhile isBlank) = d.key) :
    ReadsError (u ++ 'E' :: 'R' :: 'R' :: 'O' :: 'R' :: ':' :: t) d :=
  ⟨u, t, by rw [String.toList_ofList, List.append_assoc]; rfl, hu, hd⟩

theorem okPattern_iff (l : Text) : (matchStart okPattern l).isSome ↔ ReadsOk l := by
  rw [matchStart_isSome_iff]
  constructor
  · rintro ⟨t, h⟩
    simp only [okPattern, many, append_eq_seq, steps_seq_iff, steps_star_cls_iff,
      steps_lit_iff] at h
    obtain ⟨s₁, ⟨u, hu, hall, _⟩, s₂, ⟨hs₁, _⟩, _⟩ := h
    exact ⟨u, s₂.rest, by rw [List.append_assoc, ← hs₁, ← hu], hall⟩
  · rintro ⟨u, t, rfl, hall⟩
    rw [List.append_assoc]
    refine ⟨⟨t, []⟩, Steps.seq (t := ⟨"OK".toList ++ t, []⟩)
      ((steps_star_cls_iff ..).mpr ⟨u, rfl, hall, rfl⟩)
      (Steps.seq (t := ⟨t, []⟩) ((steps_lit_iff ..).mpr ⟨rfl, rfl⟩) (Steps.starNil _))⟩

private theorem dropWhile_run {p : Char → Bool} {u : Text} (hu : ∀ c ∈ u, p c = true) {d : Char}
    (hd : p d = false) (t : Text) : (u ++ d :: t).dropWhile p = d :: t := by
  rw [List.dropWhile_append_of_pos hu, List.dropWhile_cons_of_neg (by simp [hd])]

private theorem dropBars_ok {u : Text} (hu : ∀ c ∈ u, isBar c) (t : Text) :
    (u ++ "OK".toList ++ t).dropWhile isBar = 'O' :: 'K' :: t := by
  rw [List.append_assoc, String.toList_ofList]
  exact dropWhile_run hu (by decide) ('K' :: t)

private theorem dropBars_error {u : Text} (hu : ∀ c ∈ u, isBar c) (t : Text) :
    (u ++ "ERROR:".toList ++ t).dropWhile isBar = 'E' :: 'R' :: 'R' :: 'O' :: 'R' :: ':' :: t := by
  rw [List.append_assoc, String.toList_ofList]
  exact dropWhile_run hu (by decide) _

/-- The text of a command: one blank after the dollar is not part of it. -/
def dropBlank : Text → Text
  | ' ' :: t => t
  | t => t

theorem commandText_eq {ws : Text} (hne : ws ≠ []) (hws : ∀ c ∈ ws, isSpace c) (t : Text) :
    commandText (ws ++ '$' :: t) = content (dropBlank t) := by
  obtain ⟨c, ws, rfl⟩ := List.exists_cons_of_ne_nil hne
  have hc := hws c (List.mem_cons_self ..)
  have hws' := fun d hd => hws d (List.mem_cons_of_mem c hd)
  have hspaces : (run (plus (cls isSpace)) ⟨c :: ws ++ '$' :: t, []⟩).head? =
      some ⟨'$' :: t, []⟩ := by
    refine head?_seq (head?_cls hc (ws ++ '$' :: t) []) ?_
    rw [head?_many_cls, dropWhile_run hws' (by decide)]
  have hopt : (run (opt (lit [' '])) ⟨t, []⟩).head? = some ⟨dropBlank t, []⟩ := by
    unfold dropBlank
    split
    · exact head?_opt_taken (head?_lit [' '] _ [])
    · rename_i hno
      refine head?_opt_skipped ((run_eq_nil_iff _ _).mpr fun s h => ?_)
      exact hno s.rest ((steps_lit_iff ..).mp h).1
  have h := head?_seq hspaces (head?_seq (head?_lit ['$'] t [])
    (head?_seq hopt (head?_group_many_cls 1 (· != '\n') (dropBlank t) [])))
  have hfirst : first commandPattern (c :: ws ++ '$' :: t) = some
      ⟨(dropBlank t).dropWhile (· != '\n'), [(1, content (dropBlank t))]⟩ := h
  rw [commandText, matchStart, hfirst]
  simp [Match.group]

/-- What the line after a command announces, if it is read at all. -/
def readOutcome (l : Text) : Option (Expect × Detail) := (outcome [] 0 [] l).toOption

theorem outcome_eq_ok_iff (filename : Text) (n : Nat) (line l : Text) (p : Expect × Detail) :
    outcome filename n line l = .ok p ↔ readOutcome l = some p := by
  unfold readOutcome outcome
  split
  · simp [Except.toOption]
  · split
    · simp [Except.toOption]
    · rename_i m _
      cases h : Detail.ofKey ((m.group 1).getD []) <;> simp only [h, Except.toOption] <;> simp

private theorem first_errorPattern {u : Text} (hu : ∀ c ∈ u, isBar c) (t : Text) :
    first errorPattern (u ++ "ERROR:".toList ++ t) = some
      ⟨(t.dropWhile isBlank).dropWhile (· != '\n'), [(1, content (t.dropWhile isBlank))]⟩ := by
  have hbars : (run (many (cls isBar)) ⟨u ++ "ERROR:".toList ++ t, []⟩).head? =
      some ⟨"ERROR:".toList ++ t, []⟩ := by
    rw [head?_many_cls, dropBars_error hu, String.toList_ofList]
    rfl
  exact head?_seq hbars (head?_seq (head?_lit _ t []) (head?_seq (head?_many_cls isBlank t [])
    (head?_group_many_cls 1 (· != '\n') _ [])))

private theorem errorPattern_isSome {l : Text} (h : (matchStart errorPattern l).isSome) :
    ∃ u t, l = u ++ "ERROR:".toList ++ t ∧ ∀ c ∈ u, isBar c := by
  rw [matchStart_isSome_iff] at h
  obtain ⟨t, h⟩ := h
  simp only [errorPattern, many, append_eq_seq, steps_seq_iff, steps_star_cls_iff,
    steps_lit_iff] at h
  obtain ⟨s₁, ⟨u, hu, hall, _⟩, s₂, ⟨hs₁, _⟩, _⟩ := h
  exact ⟨u, s₂.rest, by rw [List.append_assoc, ← hs₁, ← hu], hall⟩

theorem not_readsOk_of_error {u : Text} (hu : ∀ c ∈ u, isBar c) (t : Text) :
    ¬ ReadsOk (u ++ "ERROR:".toList ++ t) := by
  rintro ⟨v, t', h, hv⟩
  have h := congrArg (List.dropWhile isBar) h
  rw [dropBars_error hu, dropBars_ok hv] at h
  simp at h

/-- **The outcome lines that are read, and what they are read as.** -/
theorem readOutcome_eq_some_iff (l : Text) (e : Expect) (d : Detail) :
    readOutcome l = some (e, d) ↔
      (ReadsOk l ∧ e = .OK ∧ d = .OK) ∨ (ReadsError l d ∧ e = .ERROR) := by
  by_cases hok : ReadsOk l
  · have hne : ∀ d, ¬ ReadsError l d := by
      rintro d ⟨u, t, rfl, hu, _⟩
      exact not_readsOk_of_error hu t hok
    simp only [readOutcome, outcome, (okPattern_iff l).mpr hok, ↓reduceIte, Except.toOption,
      Option.some.injEq, Prod.mk.injEq, hok, true_and, hne, false_and, or_false]
    exact ⟨fun h => ⟨h.1.symm, h.2.symm⟩, fun h => ⟨h.1.symm, h.2.symm⟩⟩
  · have hok' : (matchStart okPattern l).isSome = false := by
      rw [Bool.eq_false_iff]
      exact fun h => hok ((okPattern_iff l).mp h)
    simp only [readOutcome, outcome, hok', Bool.false_eq_true, ↓reduceIte, hok, false_and,
      false_or]
    cases hm : matchStart errorPattern l with
    | none =>
      simp only [Except.toOption, reduceCtorEq, false_iff, not_and]
      rintro ⟨u, t, rfl, hu, _⟩
      rw [matchStart, first_errorPattern hu] at hm
      simp at hm
    | some m =>
      obtain ⟨u, t, rfl, hu⟩ := errorPattern_isSome (by rw [hm]; rfl)
      have hg : m.group 1 = some (content (t.dropWhile isBlank)) := by
        rw [matchStart, first_errorPattern hu, Option.map_some, Option.some.injEq] at hm
        simp [← hm, Match.group]
      have hread : ReadsError (u ++ "ERROR:".toList ++ t) d ↔
          Detail.ofKey (content (t.dropWhile isBlank)) = some d := by
        rw [Detail.ofKey_eq_some_iff]
        constructor
        · rintro ⟨v, t', h, hv, hd⟩
          have h := congrArg (List.dropWhile isBar) h
          rw [dropBars_error hu, dropBars_error hv] at h
          simp only [List.cons.injEq, true_and] at h
          rw [h, hd]
        · exact fun h => ⟨u, t, rfl, hu, h⟩
      simp only [hg, Option.getD_some, hread]
      cases Detail.ofKey (content (t.dropWhile isBlank)) with
      | none => simp [Except.toOption]
      | some d' =>
        simp only [Except.toOption, Option.some.injEq, Prod.mk.injEq]
        exact ⟨fun h => ⟨h.2, h.1.symm⟩, fun h => ⟨h.2.symm, h.1⟩⟩

/-! ## What the loop accepts -/

/-- No marker on this line. -/
def Unmarked (l : Text) : Prop := isBegin l = false ∧ isEnd l = false

/-- The lines after the BEGIN line, up to the end of the file, with the pairs of
command and outcome lines among them.  Outcome lines may be anything here. -/
inductive Closed : List Text → List (Text × Text) → Prop
  | close {e : Text} {post : List Text} : isBegin e = false → isEnd e = true →
      (∀ l ∈ post, Unmarked l) → Closed (e :: post) []
  | note {l : Text} {ls : List Text} {ps : List (Text × Text)} : Unmarked l →
      isCommand l = false → Closed ls ps → Closed (l :: ls) ps
  | test {c o : Text} {ls : List Text} {ps : List (Text × Text)} : Unmarked c →
      isCommand c = true → Closed ls ps → Closed (c :: o :: ls) ((c, o) :: ps)

/-- From the BEGIN line on.  The loop also takes that line for a command if it
looks like one. -/
inductive Opened : List Text → List (Text × Text) → Prop
  | plain {b : Text} {rest : List Text} {ps : List (Text × Text)} : isBegin b = true →
      isCommand b = false → Closed rest ps → Opened (b :: rest) ps
  | command {b o : Text} {rest : List Text} {ps : List (Text × Text)} : isBegin b = true →
      isCommand b = true → Closed rest ps → Opened (b :: o :: rest) ((b, o) :: ps)

/-- A file with one header and these command and outcome lines in it. -/
def HasHeader (ls : List Text) (ps : List (Text × Text)) : Prop :=
  ∃ pre rest, ls = pre ++ rest ∧ (∀ l ∈ pre, Unmarked l) ∧ Opened rest ps

/-- The pairs are determined by the lines. -/
theorem closed_unique {rest : List Text} {ps qs : List (Text × Text)} (h : Closed rest ps)
    (h' : Closed rest qs) : ps = qs := by
  induction h generalizing qs with
  | close _ he _ =>
    cases h' with
    | close => rfl
    | note hl => rw [hl.2] at he; cases he
    | test hl => rw [hl.2] at he; cases he
  | note hl hc _ ih =>
    cases h' with
    | close _ he => rw [hl.2] at he; cases he
    | note _ _ h' => exact ih h'
    | test _ hc' => rw [hc] at hc'; cases hc'
  | test hl hc _ ih =>
    cases h' with
    | close _ he => rw [hl.2] at he; cases he
    | note _ hc' => rw [hc] at hc'; cases hc'
    | test _ _ h' => rw [ih h']

/-- A file has one header in this sense. -/
theorem hasHeader_unique {ls : List Text} {ps qs : List (Text × Text)} (h : HasHeader ls ps)
    (h' : HasHeader ls qs) : ps = qs := by
  obtain ⟨pre, rest, hlines, hpre, hopen⟩ := h
  obtain ⟨pre', rest', hlines', hpre', hopen'⟩ := h'
  have hsplit := hlines.symm.trans hlines'
  have hno : ∀ {xs : List Text}, (∀ l ∈ xs, Unmarked l) → ∀ l ∈ xs, ¬ isBegin l = true := by
    intro xs hxs l hl hb
    rw [(hxs l hl).1] at hb
    cases hb
  cases hopen with
  | plain hb hc hclosed =>
    cases hopen' with
    | plain hb' _ hclosed' =>
      obtain ⟨_, _, rfl⟩ := split_unique hsplit hb hb' (hno hpre) (hno hpre')
      exact closed_unique hclosed hclosed'
    | command hb' hc' _ =>
      obtain ⟨_, rfl, _⟩ := split_unique hsplit hb hb' (hno hpre) (hno hpre')
      rw [hc] at hc'
      cases hc'
  | command hb hc hclosed =>
    cases hopen' with
    | plain hb' hc' _ =>
      obtain ⟨_, rfl, _⟩ := split_unique hsplit hb hb' (hno hpre) (hno hpre')
      rw [hc] at hc'
      cases hc'
    | command hb' _ hclosed' =>
      obtain ⟨_, rfl, hrest⟩ := split_unique hsplit hb hb' (hno hpre) (hno hpre')
      obtain ⟨rfl, rfl⟩ := List.cons.inj hrest
      rw [closed_unique hclosed hclosed']

/-- The tests made of pairs of command and outcome lines, if all are read. -/
def readTests (filename : Text) : Nat → List (Text × Text) → Option (List Test)
  | _, [] => some []
  | k, (c, o) :: ps =>
    match readOutcome o, readTests filename (k + 1) ps with
    | some (e, d), some ts => some (⟨filename, k, commandText c, e, d⟩ :: ts)
    | _, _ => none

theorem readTests_cons_iff {filename : Text} {k : Nat} {c o : Text} {ps : List (Text × Text)}
    {ts : List Test} : readTests filename k ((c, o) :: ps) = some ts ↔
      ∃ e d us, readOutcome o = some (e, d) ∧ readTests filename (k + 1) ps = some us ∧
        ts = ⟨filename, k, commandText c, e, d⟩ :: us := by
  rw [readTests]
  constructor
  · intro h
    split at h
    · rename_i e d us he hus
      exact ⟨e, d, us, he, hus, (Option.some.inj h).symm⟩
    · cases h
  · rintro ⟨e, d, us, he, hus, rfl⟩
    simp [he, hus]

theorem marker_unmarked {l : Text} (h : Unmarked l) (phase : Phase) (n : Nat) :
    marker phase n l = .ok phase := by
  simp [marker, h.1, h.2]

section Scan

variable (filename : Text) (n k : Nat) (res : List Test)

@[simp] theorem scan_nil (phase : Phase) : scan filename phase n k res [] = .ok (phase, res) := by
  rw [scan]

/-- A line that is no command of the header only moves the phase. -/
theorem scan_marker {l : Text} {phase p : Phase} (hm : marker phase n l = .ok p)
    (hc : p = .inside → isCommand l = false) (ls : List Text) :
    scan filename phase n k res (l :: ls) = scan filename p n k res ls := by
  have hno : ¬ (p = .inside ∧ isCommand l = true) := by
    rintro ⟨hp, hl⟩
    rw [hc hp] at hl
    cases hl
  rw [scan, hm]
  simp only [hno, ↓reduceIte]

theorem scan_error {l : Text} {phase : Phase} {e : ParseError} (hm : marker phase n l = .error e)
    (ls : List Text) : scan filename phase n k res (l :: ls) = .error e := by
  rw [scan, hm]

theorem scan_skip {l : Text} {phase : Phase} (h : Unmarked l)
    (hc : phase = .inside → isCommand l = false) (ls : List Text) :
    scan filename phase n k res (l :: ls) = scan filename phase n k res ls :=
  scan_marker filename n k res (marker_unmarked h phase n) hc ls

theorem scan_close {e : Text} (hb : isBegin e = false) (he : isEnd e = true) (ls : List Text) :
    scan filename .inside n k res (e :: ls) = scan filename .after n k res ls :=
  scan_marker filename n k res (by simp [marker, hb, he]) (by simp) ls

theorem scan_open {b : Text} (hb : isBegin b = true) (hc : isCommand b = false)
    (ls : List Text) :
    scan filename .before n k res (b :: ls) = scan filename .inside n k res ls :=
  scan_marker filename n k res (by simp [marker, hb]) (fun _ => hc) ls

/-- A command line and its outcome, whichever phase the line was met in. -/
theorem scan_command {l : Text} {phase : Phase} (hm : marker phase n l = .ok .inside)
    (hc : isCommand l = true) {phase' : Phase} {out : List Test} (ls : List Text) :
    scan filename phase n k res (l :: ls) = .ok (phase', out) ↔
      ∃ o rest e d, ls = o :: rest ∧ readOutcome o = some (e, d) ∧
        scan filename .inside (n + 1) (k + 1)
          (res ++ [⟨filename, k, commandText l, e, d⟩]) rest = .ok (phase', out) := by
  rw [scan, hm]
  simp only [hc, and_self, ↓reduceIte]
  cases ls with
  | nil => simp
  | cons o rest =>
    simp only
    cases h : outcome filename n l o with
    | error err =>
      have hnone : ∀ p, readOutcome o ≠ some p := by
        intro p hp
        rw [← outcome_eq_ok_iff filename n l o p, h] at hp
        cases hp
      simp [hnone]
    | ok p =>
      obtain ⟨e, d⟩ := p
      have hp := (outcome_eq_ok_iff filename n l o (e, d)).mp h
      simp [hp]

/-- **After the header** no marker may follow. -/
theorem scan_after_iff (ls : List Text) (phase : Phase) (out : List Test) :
    scan filename .after n k res ls = .ok (phase, out) ↔
      (phase = .after ∧ out = res) ∧ ∀ l ∈ ls, Unmarked l := by
  induction ls with
  | nil =>
    simp only [scan_nil, Except.ok.injEq, Prod.mk.injEq, List.not_mem_nil, false_implies, implies_true,
      and_true]
    exact ⟨fun ⟨h, h'⟩ => ⟨h.symm, h'.symm⟩, fun ⟨h, h'⟩ => ⟨h.symm, h'.symm⟩⟩
  | cons l ls ih =>
    by_cases hl : Unmarked l
    · rw [scan_skip filename n k res hl (by simp), ih]
      simp [hl]
    · have herr : ∃ e, marker .after n l = .error e := by
        unfold marker
        cases hb : isBegin l
        · cases he : isEnd l
          · exact absurd ⟨hb, he⟩ hl
          · exact ⟨_, rfl⟩
        · exact ⟨_, rfl⟩
      obtain ⟨e, he⟩ := herr
      simp [scan_error filename n k res he, hl]

end Scan

/-- **Inside the header** the rest of the file must be `Closed`. -/
theorem scan_inside_iff (filename : Text) (m : Nat) :
    ∀ (ls : List Text) (n k : Nat) (res out : List Test), ls.length ≤ m →
      (scan filename .inside n k res ls = .ok (.after, out) ↔
        ∃ ps ts, Closed ls ps ∧ readTests filename k ps = some ts ∧ out = res ++ ts) := by
  induction m with
  | zero =>
    intro ls n k res out hlen
    rw [List.eq_nil_of_length_eq_zero (Nat.le_zero.mp hlen)]
    simp only [scan_nil, Except.ok.injEq, Prod.mk.injEq, reduceCtorEq, false_and, false_iff]
    rintro ⟨ps, ts, h, _⟩
    cases h
  | succ m ih =>
    intro ls n k res out hlen
    cases ls with
    | nil =>
      simp only [scan_nil, Except.ok.injEq, Prod.mk.injEq, reduceCtorEq, false_and, false_iff]
      rintro ⟨ps, ts, h, _⟩
      cases h
    | cons l ls =>
      simp only [List.length_cons, Nat.add_le_add_iff_right] at hlen
      cases hb : isBegin l with
      | true =>
        have herr : scan filename .inside n k res (l :: ls) = .error (.headerTwice n l) :=
          scan_error filename n k res (by simp [marker, hb]) ls
        simp only [herr, reduceCtorEq, false_iff]
        rintro ⟨ps, ts, h, _⟩
        cases h with
        | close h => rw [hb] at h; cases h
        | note h => rw [h.1] at hb; cases hb
        | test h => rw [h.1] at hb; cases hb
      | false =>
        cases he : isEnd l with
        | true =>
          rw [scan_close filename n k res hb he, scan_after_iff]
          constructor
          · rintro ⟨⟨_, rfl⟩, hpost⟩
            exact ⟨[], [], .close hb he hpost, rfl, (List.append_nil _).symm⟩
          · rintro ⟨ps, ts, h, hts, rfl⟩
            cases h with
            | close _ _ hpost =>
              cases hts
              exact ⟨⟨rfl, List.append_nil _⟩, hpost⟩
            | note h => rw [h.2] at he; cases he
            | test h => rw [h.2] at he; cases he
        | false =>
          cases hc : isCommand l with
          | false =>
            rw [scan_skip filename n k res ⟨hb, he⟩ (fun _ => hc), ih ls n k res out hlen]
            constructor
            · rintro ⟨ps, ts, h, hts⟩
              exact ⟨ps, ts, .note ⟨hb, he⟩ hc h, hts⟩
            · rintro ⟨ps, ts, h, hts⟩
              cases h with
              | close _ h => rw [he] at h; cases h
              | note _ _ h => exact ⟨ps, ts, h, hts⟩
              | test _ h => rw [hc] at h; cases h
          | true =>
            rw [scan_command filename n k res (marker_unmarked ⟨hb, he⟩ _ n) hc]
            constructor
            · rintro ⟨o, rest, e, d, rfl, ho, h⟩
              rw [ih rest _ _ _ out (by simp at hlen; omega)] at h
              obtain ⟨ps, ts, h, hts, rfl⟩ := h
              exact ⟨(l, o) :: ps, _, .test ⟨hb, he⟩ hc h,
                readTests_cons_iff.mpr ⟨e, d, ts, ho, hts, rfl⟩, by simp⟩
            · rintro ⟨ps, ts, h, hts, rfl⟩
              cases h with
              | close _ h => rw [he] at h; cases h
              | note _ h => rw [hc] at h; cases h
              | @test _ o rest ps _ _ h =>
                obtain ⟨e, d, us, ho, hus, rfl⟩ := readTests_cons_iff.mp hts
                refine ⟨o, rest, e, d, rfl, ho, ?_⟩
                rw [ih rest _ _ _ _ (by simp at hlen; omega)]
                exact ⟨ps, us, h, hus, by simp⟩

theorem hasHeader_cons_iff (l : Text) (ls : List Text) (ps : List (Text × Text)) :
    HasHeader (l :: ls) ps ↔ (Unmarked l ∧ HasHeader ls ps) ∨ Opened (l :: ls) ps := by
  constructor
  · rintro ⟨pre, rest, h, hpre, hrest⟩
    cases pre with
    | nil => exact Or.inr (by rw [h]; exact hrest)
    | cons l' pre =>
      obtain ⟨rfl, rfl⟩ := List.cons.inj h
      exact Or.inl ⟨hpre l (List.mem_cons_self ..), pre, rest, rfl,
        fun x hx => hpre x (List.mem_cons_of_mem _ hx), hrest⟩
  · rintro (⟨hl, pre, rest, rfl, hpre, hrest⟩ | h)
    · refine ⟨l :: pre, rest, rfl, ?_, hrest⟩
      intro x hx
      rcases List.mem_cons.mp hx with rfl | hx
      · exact hl
      · exact hpre x hx
    · exact ⟨[], l :: ls, rfl, by simp, h⟩

/-- **Before the header.** -/
theorem scan_before_iff (filename : Text) (n k : Nat) (res : List Test) (ls : List Text)
    (out : List Test) :
    scan filename .before n k res ls = .ok (.after, out) ↔
      ∃ ps ts, HasHeader ls ps ∧ readTests filename k ps = some ts ∧ out = res ++ ts := by
  induction ls with
  | nil =>
    simp only [scan_nil, Except.ok.injEq, Prod.mk.injEq, reduceCtorEq, false_and, false_iff]
    rintro ⟨ps, ts, ⟨pre, rest, h, _, ho⟩, _⟩
    obtain ⟨rfl, rfl⟩ := List.append_eq_nil_iff.mp h.symm
    cases ho
  | cons l ls ih =>
    cases hb : isBegin l with
    | false =>
      have hno : ∀ ps, ¬ Opened (l :: ls) ps := by
        intro ps h
        cases h with
        | plain h => rw [hb] at h; cases h
        | command h => rw [hb] at h; cases h
      cases he : isEnd l with
      | false =>
        rw [scan_skip filename n k res ⟨hb, he⟩ (by simp), ih]
        simp [hasHeader_cons_iff, hno, Unmarked, hb, he]
      | true =>
        have herr : scan filename .before n k res (l :: ls) = .error (.unexpectedEnd n l) :=
          scan_error filename n k res (by simp [marker, hb, he]) ls
        simp [herr, hasHeader_cons_iff, hno, Unmarked, he]
    | true =>
      have hopen : ∀ ps, HasHeader (l :: ls) ps ↔ Opened (l :: ls) ps := by
        simp [hasHeader_cons_iff, Unmarked, hb]
      simp only [hopen]
      cases hc : isCommand l with
      | false =>
        rw [scan_open filename n k res hb hc, scan_inside_iff filename _ ls n k res out le_rfl]
        constructor
        · rintro ⟨ps, ts, h, hts⟩
          exact ⟨ps, ts, .plain hb hc h, hts⟩
        · rintro ⟨ps, ts, h, hts⟩
          cases h with
          | plain _ _ h => exact ⟨ps, ts, h, hts⟩
          | command _ h => rw [hc] at h; cases h
      | true =>
        have hm : marker .before n l = .ok .inside := by simp [marker, hb]
        rw [scan_command filename n k res hm hc]
        constructor
        · rintro ⟨o, rest, e, d, rfl, ho, h⟩
          rw [scan_inside_iff filename _ rest _ _ _ out le_rfl] at h
          obtain ⟨ps, ts, h, hts, rfl⟩ := h
          exact ⟨(l, o) :: ps, _, .command hb hc h,
            readTests_cons_iff.mpr ⟨e, d, ts, ho, hts, rfl⟩, by simp⟩
        · rintro ⟨ps, ts, h, hts, rfl⟩
          cases h with
          | plain _ h => rw [hc] at h; cases h
          | @command _ o rest ps _ _ h =>
            obtain ⟨e, d, us, ho, hus, rfl⟩ := readTests_cons_iff.mp hts
            refine ⟨o, rest, e, d, rfl, ho, ?_⟩
            rw [scan_inside_iff filename _ rest _ _ _ _ le_rfl]
            exact ⟨ps, us, h, hus, by simp⟩

theorem readTests_eq_nil_iff {filename : Text} {k : Nat} {ps : List (Text × Text)}
    {ts : List Test} (h : readTests filename k ps = some ts) : ts = [] ↔ ps = [] := by
  cases ps with
  | nil => cases h; simp
  | cons p ps =>
    obtain ⟨c, o⟩ := p
    obtain ⟨e, d, us, _, _, rfl⟩ := readTests_cons_iff.mp h
    simp

/-- **The files `parse_one_code` accepts, and what it returns on them.** -/
theorem parseOneCode_ok_iff (filename text : Text) (ts : List Test) :
    parseOneCode filename text = .ok ts ↔
      ∃ ps, HasHeader (readLines text) ps ∧ ps ≠ [] ∧ readTests filename 0 ps = some ts := by
  have hscan := scan_before_iff filename 1 0 [] (readLines text)
  unfold parseOneCode
  constructor
  · intro h
    split at h
    · cases h
    · cases h
    · cases h
    · rename_i res hres
      split at h
      · cases h
      · rename_i hne
        obtain ⟨ps, us, hps, hus, rfl⟩ := (hscan res).mp hres
        simp only [Except.ok.injEq] at h hne
        subst h
        exact ⟨ps, hps, fun hnil => hne (by rw [(readTests_eq_nil_iff hus).mpr hnil]; rfl), hus⟩
  · rintro ⟨ps, hps, hne, hts⟩
    have hlen : ts.length ≠ 0 := fun h =>
      hne ((readTests_eq_nil_iff hts).mp (List.eq_nil_of_length_eq_zero h))
    simp only [(hscan ts).mpr ⟨ps, ts, hps, hts, rfl⟩, hlen, ↓reduceIte]

end MpiBugs.Header
