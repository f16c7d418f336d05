import MpiBugs.Header

/-!
# Two checks on the header reader

What the tests and the exceptions of `parse_one_code` promise their users.

* `expect_iff_detail_iff`: expectation and detail of a test agree unless an
  outcome line announces the error `OK`, which is a key of `possible_details`;
* `lineNum_located_iff`: the line number of an exception, which counts the tests
  read, is that of the offending line iff this is the first line of the file.
-/

namespace MpiBugs.HeaderChecks

open TextFile Header

/-! ## Expectation and detail -/

/-- The two fields of a test say the same, and so does the category it is filed in. -/
def Agrees (t : Test) : Prop :=
  (t.expect = .OK ↔ t.detail = .OK) ∧ (t.expect = .OK ↔ t.detail.category = .FOK)

theorem agrees_iff (t : Test) : Agrees t ↔ (t.expect = .OK ↔ t.detail = .OK) := by
  simp [Agrees]

theorem readsError_unique {o : Text} {d d' : Detail} (h : ReadsError o d)
    (h' : ReadsError o d') : d = d' := by
  have hd := (readOutcome_eq_some_iff o .ERROR d).mpr (Or.inr ⟨h, rfl⟩)
  have hd' := (readOutcome_eq_some_iff o .ERROR d').mpr (Or.inr ⟨h', rfl⟩)
  rw [hd, Option.some.injEq, Prod.mk.injEq] at hd'
  exact hd'.2

/-- A test read off one outcome line. -/
theorem readOutcome_agrees_iff {o : Text} {e : Expect} {d : Detail}
    (h : readOutcome o = some (e, d)) : (e = .OK ↔ d = .OK) ↔ ¬ ReadsError o .OK := by
  rcases (readOutcome_eq_some_iff o e d).mp h with ⟨hok, rfl, rfl⟩ | ⟨herr, rfl⟩
  · have hno : ¬ ReadsError o .OK := by
      intro herr
      obtain ⟨u, t, rfl, hu, _⟩ := herr
      exact not_readsOk_of_error hu t hok
    simp [hno]
  · have hd : ReadsError o .OK ↔ d = .OK :=
      ⟨fun hok => readsError_unique herr hok, fun hd => hd ▸ herr⟩
    rw [hd]
    simp

/-- A list of pairs, all of them read. -/
theorem readTests_agree_iff {filename : Text} (ps : List (Text × Text)) :
    ∀ {k : Nat} {ts : List Test}, readTests filename k ps = some ts →
      ((∀ t ∈ ts, Agrees t) ↔ ∀ p ∈ ps, ¬ ReadsError p.2 .OK) := by
  induction ps with
  | nil =>
    intro k ts h
    cases h
    simp
  | cons p ps ih =>
    intro k ts h
    obtain ⟨c, o⟩ := p
    obtain ⟨e, d, us, ho, hus, rfl⟩ := readTests_cons_iff.mp h
    rw [List.forall_mem_cons, List.forall_mem_cons, ih hus, agrees_iff]
    show (e = .OK ↔ d = .OK) ∧ _ ↔ _
    rw [readOutcome_agrees_iff ho]

/-- **When expectation and detail agree in every test of an accepted file.** -/
theorem expect_iff_detail_iff {filename text : Text} {ts : List Test}
    (h : parseOneCode filename text = .ok ts) :
    (∀ t ∈ ts, Agrees t) ↔
      ∀ ps, HasHeader (readLines text) ps → ∀ p ∈ ps, ¬ ReadsError p.2 .OK := by
  obtain ⟨ps, hps, _, hread⟩ := (parseOneCode_ok_iff filename text ts).mp h
  rw [readTests_agree_iff ps hread]
  constructor
  · intro hno qs hqs
    rwa [hasHeader_unique hqs hps]
  · exact fun hno => hno ps hps

/-- A file whose only test has this outcome line. -/
def oneOutcome (o : Text) : Text :=
  unlines [beginMark, [' ', ' ', '$', ' ', 'c'], [' ', ' ', '|', ' '] ++ o, endMark]

theorem call_ordering_agrees :
    (∀ t ∈ [(⟨['a'], 0, ['c'], .ERROR, .CallMatching⟩ : Test)], Agrees t) ↔
      ∀ ps, HasHeader (readLines (oneOutcome "ERROR: CallMatching".toList)) ps →
        ∀ p ∈ ps, ¬ ReadsError p.2 .OK :=
  @expect_iff_detail_iff ['a'] (oneOutcome "ERROR: CallMatching".toList) _ (by decide +kernel)

/-- **The error `OK` is accepted:** a test expected to fail is filed with the
correct executions. -/
theorem error_ok_filed_correct :
    parseOneCode ['a'] (oneOutcome "ERROR: OK".toList) =
        .ok [⟨['a'], 0, ['c'], .ERROR, .OK⟩] ∧
      ¬ ∀ t ∈ [(⟨['a'], 0, ['c'], .ERROR, .OK⟩ : Test)], Agrees t := by
  refine ⟨by decide +kernel, fun h => ?_⟩
  have hagree := (h _ (List.mem_cons_self ..)).1
  cases hagree.mpr rfl

/-! ## Line numbers -/

/-- The line number in the text of an exception, where it has one. -/
def lineNum : ParseError → Option Nat
  | .headerTwice n _ | .unexpectedEnd n _ | .badOutcome _ n _ _ | .unknownDetail _ n _ => some n
  | .noHeader _ | .notEnded _ | .noTest _ | .stopIteration => none

/-- The offending line, where the text of the exception quotes it. -/
def quoted : ParseError → Option Text
  | .headerTwice _ l | .unexpectedEnd _ l | .badOutcome _ _ l _ => some l
  | _ => none

theorem message_lineNum {e : ParseError} {n : Nat} (h : lineNum e = some n) :
    ∃ u v, e.message = u ++ (natText n ++ v) := by
  cases e with
  | headerTwice m l =>
    cases h
    refine ⟨"MBI_TESTS header appears a second time at line ".toList, ": \n".toList ++ l, ?_⟩
    show _ ++ natText n ++ _ ++ l = _
    rw [List.append_assoc, List.append_assoc]
  | unexpectedEnd m l =>
    cases h
    refine ⟨"Unexpected end of MBI_TESTS header at line ".toList, ": \n".toList ++ l, ?_⟩
    show _ ++ natText n ++ _ ++ l = _
    rw [List.append_assoc, List.append_assoc]
  | badOutcome f m l l' =>
    cases h
    refine ⟨"\n".toList ++ f ++ ":".toList,
      ": MBI parse error: Test not followed by a proper 'ERROR' line:\n".toList ++ (l ++ l'), ?_⟩
    show _ ++ natText n ++ _ ++ l ++ l' = _
    rw [List.append_assoc, List.append_assoc, List.append_assoc]
  | unknownDetail f m d =>
    cases h
    refine ⟨"\n".toList ++ f ++ ":".toList, ": MBI parse error: Detailled outcome ".toList ++
      (d ++ " is not one of the allowed ones.".toList), ?_⟩
    show _ ++ natText n ++ _ ++ d ++ _ = _
    rw [List.append_assoc, List.append_assoc, List.append_assoc]
  | noHeader | notEnded | noTest | stopIteration => cases h

/-- The phase after the markers of a line, unless they are refused. -/
def nextPhase (phase : Phase) (line : Text) : Option Phase := (marker phase 0 line).toOption

/-- The loop, entered in this phase, raises an exception with a line number
after so many tests; the offending line is given by its number among the lines
left, from 1 on. -/
inductive Stops : Phase → List Text → Nat → Nat → Prop
  | marker {phase : Phase} {l : Text} {ls : List Text} : nextPhase phase l = none →
      Stops phase (l :: ls) 0 1
  | outcome {phase : Phase} {l o : Text} {ls : List Text} : nextPhase phase l = some .inside →
      isCommand l = true → readOutcome o = none → Stops phase (l :: o :: ls) 0 1
  | skip {phase phase' : Phase} {l : Text} {ls : List Text} {tests line : Nat} :
      nextPhase phase l = some phase' → ¬ (phase' = .inside ∧ isCommand l = true) →
      Stops phase' ls tests line → Stops phase (l :: ls) tests (line + 1)
  | test {phase : Phase} {l o : Text} {ls : List Text} {tests line : Nat}
      {p : Expect × Detail} : nextPhase phase l = some .inside → isCommand l = true →
      readOutcome o = some p → Stops .inside ls tests line →
      Stops phase (l :: o :: ls) (tests + 1) (line + 2)

/-- The line of this number in the file, from 1 on, is the one the reader refuses. -/
def Offends (ls : List Text) (line : Nat) : Prop := ∃ tests, Stops .before ls tests line

/-- What the markers of a line do. -/
theorem marker_cases (phase : Phase) (n : Nat) (l : Text) :
    (∃ p, nextPhase phase l = some p ∧ marker phase n l = .ok p) ∨
      (nextPhase phase l = none ∧
        ∃ e, marker phase n l = .error e ∧ lineNum e = some n ∧ quoted e = some l) := by
  unfold nextPhase marker
  split
  · split
    · exact Or.inl ⟨_, rfl, rfl⟩
    · exact Or.inr ⟨rfl, _, rfl, rfl, rfl⟩
  · split
    · split
      · exact Or.inl ⟨_, rfl, rfl⟩
      · exact Or.inr ⟨rfl, _, rfl, rfl, rfl⟩
    · exact Or.inl ⟨_, rfl, rfl⟩

theorem marker_of_nextPhase {phase phase' : Phase} {l : Text}
    (h : nextPhase phase l = some phase') (n : Nat) : marker phase n l = .ok phase' := by
  rcases marker_cases phase n l with ⟨p, hp, hm⟩ | ⟨hnone, _⟩
  · rw [h, Option.some.injEq] at hp
    rw [hm, hp]
  · rw [h] at hnone
    cases hnone

/-- What the line after a command does. -/
theorem outcome_cases (filename : Text) (n : Nat) (l o : Text) :
    (∃ p, readOutcome o = some p) ∨
      (readOutcome o = none ∧ ∃ e, outcome filename n l o = .error e ∧ lineNum e = some n ∧
        ∀ l' ∈ quoted e, l' = l) := by
  unfold readOutcome outcome
  split
  · exact Or.inl ⟨_, rfl⟩
  · split
    · refine Or.inr ⟨rfl, _, rfl, rfl, ?_⟩
      intro l' hl'
      exact (Option.some.inj hl').symm
    · rename_i m _
      cases h : Detail.ofKey ((m.group 1).getD []) with
      | none =>
        refine Or.inr ⟨by simp only [h]; rfl, .unknownDetail filename n ((m.group 1).getD []),
          by simp only [h], rfl, ?_⟩
        intro l' hl'
        cases hl'
      | some d => exact Or.inl ⟨(.ERROR, d), by simp only [h]; rfl⟩

theorem nextPhase_of_marker {phase phase' : Phase} {n : Nat} {l : Text}
    (h : marker phase n l = .ok phase') : nextPhase phase l = some phase' := by
  rcases marker_cases phase n l with ⟨p, hp, hm⟩ | ⟨_, e, he, _⟩
  · rw [h, Except.ok.injEq] at hm
    rw [hp, hm]
  · rw [h] at he
    cases he

section Stops

variable (filename : Text)

/-- A test takes two lines. -/
theorem stops_bound {phase : Phase} {ls : List Text} {tests line : Nat}
    (h : Stops phase ls tests line) : 2 * tests + 1 ≤ line := by
  induction h with
  | marker | outcome => omega
  | skip _ _ _ ih => omega
  | test _ _ _ _ ih => omega

/-- One line is refused, and so many tests stand before it. -/
theorem stops_unique {phase : Phase} {ls : List Text} {tests line tests' line' : Nat}
    (h : Stops phase ls tests line) (h' : Stops phase ls tests' line') :
    tests = tests' ∧ line = line' := by
  induction h generalizing tests' line' with
  | marker hm =>
    cases h' with
    | marker | outcome => exact ⟨rfl, rfl⟩
    | skip hm' => rw [hm] at hm'; cases hm'
    | test hm' => rw [hm] at hm'; cases hm'
  | outcome hm hc ho =>
    cases h' with
    | marker | outcome => exact ⟨rfl, rfl⟩
    | skip hm' hno =>
      rw [hm, Option.some.injEq] at hm'
      exact absurd ⟨hm'.symm, hc⟩ hno
    | test _ _ ho' => rw [ho] at ho'; cases ho'
  | skip hm hno _ ih =>
    cases h' with
    | marker hm' => rw [hm] at hm'; cases hm'
    | outcome hm' hc =>
      rw [hm, Option.some.injEq] at hm'
      exact absurd ⟨hm', hc⟩ hno
    | skip hm' _ h' =>
      rw [hm, Option.some.injEq] at hm'
      obtain ⟨ht, hl⟩ := ih (hm' ▸ h')
      exact ⟨ht, by rw [hl]⟩
    | test hm' hc =>
      rw [hm, Option.some.injEq] at hm'
      exact absurd ⟨hm', hc⟩ hno
  | test hm hc ho _ ih =>
    cases h' with
    | marker hm' => rw [hm] at hm'; cases hm'
    | outcome _ _ ho' => rw [ho] at ho'; cases ho'
    | skip hm' hno =>
      rw [hm, Option.some.injEq] at hm'
      exact absurd ⟨hm'.symm, hc⟩ hno
    | test _ _ _ h' =>
      obtain ⟨ht, hl⟩ := ih h'
      exact ⟨by rw [ht], by rw [hl]⟩

/-- **Where it stops the reader reports** the number of tests read before,
counted on from where it started, and quotes the offending line. -/
theorem scan_of_stops {phase : Phase} {ls : List Text} {tests line : Nat}
    (h : Stops phase ls tests line) : ∀ (n k : Nat) (res : List Test),
      ∃ e, scan filename phase n k res ls = .error e ∧ lineNum e = some (n + tests) ∧
        ∀ l ∈ quoted e, ls[line - 1]? = some l := by
  induction h with
  | @marker phase l ls hm =>
    intro n k res
    rcases marker_cases phase n l with ⟨p, hp, _⟩ | ⟨_, e, he, hn, hq⟩
    · rw [hm] at hp
      cases hp
    · refine ⟨e, scan_error filename n k res he ls, hn, fun l' hl' => ?_⟩
      rw [hq] at hl'
      cases hl'
      rfl
  | @outcome phase l o ls hm hc ho =>
    intro n k res
    rcases outcome_cases filename n l o with ⟨p, hp⟩ | ⟨_, e, he, hn, hq⟩
    · rw [ho] at hp
      cases hp
    · refine ⟨e, ?_, hn, fun l' hl' => ?_⟩
      · rw [scan, marker_of_nextPhase hm]
        simp [hc, he]
      · rw [hq l' hl']
        rfl
  | @skip phase phase' l ls tests line hm hno hstop ih =>
    intro n k res
    obtain ⟨e, he, hn, hq⟩ := ih n k res
    have hpos := stops_bound hstop
    refine ⟨e, ?_, hn, fun l' hl' => ?_⟩
    · rw [scan, marker_of_nextPhase hm]
      simp only [hno, ↓reduceIte, he]
    · rw [show line + 1 - 1 = line - 1 + 1 by omega, List.getElem?_cons_succ]
      exact hq l' hl'
  | @test phase l o ls tests line p hm hc ho hstop ih =>
    intro n k res
    obtain ⟨x, d⟩ := p
    obtain ⟨e, he, hn, hq⟩ := ih (n + 1) (k + 1)
      (res ++ [⟨filename, k, commandText l, x, d⟩])
    have hpos := stops_bound hstop
    refine ⟨e, ?_, by rw [hn, Nat.add_assoc, Nat.add_comm 1], fun l' hl' => ?_⟩
    · rw [scan, marker_of_nextPhase hm]
      simp only [hc, and_self, ↓reduceIte, (outcome_eq_ok_iff filename n l o (x, d)).mpr ho, he]
    · rw [show line + 2 - 1 = line - 1 + 1 + 1 by omega, List.getElem?_cons_succ,
        List.getElem?_cons_succ]
      exact hq l' hl'

/-- **Only there:** an exception of the loop with a line number has an offending line. -/
theorem exists_stops {e : ParseError} {phase : Phase} {n k : Nat} {res : List Test}
    {ls : List Text} (h : scan filename phase n k res ls = .error e) {m : Nat}
    (hm : lineNum e = some m) : ∃ tests line, Stops phase ls tests line := by
  fun_induction scan filename phase n k res ls with
  | case1 => cases h
  | case2 phase n k res l ls err hmark =>
    rcases marker_cases phase n l with ⟨p, _, hp⟩ | ⟨hnone, _⟩
    · rw [hmark] at hp
      cases hp
    · exact ⟨0, 1, .marker hnone⟩
  | case3 => cases h; cases hm
  | case4 phase n k res l phase' hmark hin o ls err hout =>
    obtain ⟨rfl, hc⟩ := hin
    refine ⟨0, 1, .outcome (nextPhase_of_marker hmark) hc ?_⟩
    cases ho : readOutcome o with
    | none => rfl
    | some p =>
      rw [(outcome_eq_ok_iff filename n l o p).mpr ho] at hout
      cases hout
  | case5 phase n k res l phase' hmark hin o ls x d hout ih =>
    obtain ⟨rfl, hc⟩ := hin
    obtain ⟨tests, line, hstop⟩ := ih h
    exact ⟨tests + 1, line + 2, .test (nextPhase_of_marker hmark) hc
      ((outcome_eq_ok_iff filename n l o (x, d)).mp hout) hstop⟩
  | case6 phase n k res l ls phase' hmark hno ih =>
    obtain ⟨tests, line, hstop⟩ := ih h
    exact ⟨tests, line + 1, .skip (nextPhase_of_marker hmark) hno hstop⟩

end Stops

theorem offends_unique {ls : List Text} {i j : Nat} (h : Offends ls i) (h' : Offends ls j) :
    i = j := by
  obtain ⟨t, h⟩ := h
  obtain ⟨t', h'⟩ := h'
  exact (stops_unique h h').2

/-- The number reported is one more than the tests read before the offending
line, and the line quoted is that line. -/
theorem reported {filename text : Text} {e : ParseError} {n : Nat}
    (h : parseOneCode filename text = .error e) (hn : lineNum e = some n) :
    ∃ tests line, Stops .before (readLines text) tests line ∧ n = 1 + tests ∧
      ∀ l ∈ quoted e, (readLines text)[line - 1]? = some l := by
  have hscan : scan filename .before 1 0 [] (readLines text) = .error e := by
    unfold parseOneCode at h
    split at h
    · rename_i err herr
      cases h
      exact herr
    · cases h
      cases hn
    · cases h
      cases hn
    · split at h
      · cases h
        cases hn
      · cases h
  obtain ⟨tests, line, hstop⟩ := exists_stops filename hscan hn
  obtain ⟨e', he', hn', hq⟩ := scan_of_stops filename hstop 1 0 []
  rw [hscan, Except.error.injEq] at he'
  subst he'
  rw [hn, Option.some.injEq] at hn'
  exact ⟨tests, line, hstop, hn', hq⟩

/-- **When the line number of an exception is that of the offending line:** only
on the first line of the file. -/
theorem lineNum_located_iff {filename text : Text} {e : ParseError} {n : Nat}
    (h : parseOneCode filename text = .error e) (hn : lineNum e = some n) :
    Offends (readLines text) n ↔ Offends (readLines text) 1 := by
  obtain ⟨tests, line, hstop, rfl, _⟩ := reported h hn
  have hbound := stops_bound hstop
  constructor
  · intro hoff
    have hline := offends_unique hoff ⟨tests, hstop⟩
    have hnone : tests = 0 := by omega
    rwa [hnone] at hoff
  · intro hoff
    have hline := offends_unique hoff ⟨tests, hstop⟩
    have hnone : tests = 0 := by omega
    rwa [hnone]

/-- A second header after one test. -/
def headerTwiceFile : Text :=
  unlines [beginMark, [' ', ' ', '$', ' ', 'c'], [' ', ' ', '|', ' ', 'O', 'K'], beginMark]

theorem headerTwice_located :
    Offends (readLines headerTwiceFile) 2 ↔ Offends (readLines headerTwiceFile) 1 :=
  @lineNum_located_iff ['a'] headerTwiceFile (.headerTwice 2 (beginMark ++ ['\n'])) 2
    (by decide +kernel) rfl

/-- **On the second line** it is reported on the first, which is a plain one. -/
theorem second_line_misplaced :
    ∃ e, parseOneCode ['a'] (unlines [['x'], endMark]) = .error e ∧ lineNum e = some 1 ∧
      Offends (readLines (unlines [['x'], endMark])) 2 ∧
      ¬ Offends (readLines (unlines [['x'], endMark])) 1 := by
  have hlines : readLines (unlines [['x'], endMark]) = [['x', '\n'], endMark ++ ['\n']] := by
    decide +kernel
  have hskip : nextPhase .before ['x', '\n'] = some .before := by decide +kernel
  have hstop : nextPhase .before (endMark ++ ['\n']) = none := by decide +kernel
  have hoff : Offends [['x', '\n'], endMark ++ ['\n']] 2 :=
    ⟨0, .skip hskip (by simp) (.marker hstop)⟩
  rw [hlines]
  refine ⟨.unexpectedEnd 1 (endMark ++ ['\n']), by decide +kernel, rfl, hoff, fun h => ?_⟩
  cases offends_unique hoff h

end MpiBugs.HeaderChecks
