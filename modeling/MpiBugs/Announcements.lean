import MpiBugs.Expected
import MpiBugs.Features
import MpiBugs.RoundTrip
import MpiBugs.Pieces

/-!
# What a generator announces, the runner reads

From the dictionary of a generator to the test that is run: `make_file` expands the template,
`parse_one_code` reads the file that is written.

* `firstLoop_closed_expands`, `secondLoop_fills`: both loops succeed, and what they make of the
  pieces of a template;
* `noMark_filled`: line numbers do not make a header marker;
* `outcome_announced`: the file announces one test, with the outcome of the dictionary;
* `outcome_listed`: the tables count it under that outcome, with the features of its labels.
-/

namespace MpiBugs.Announcements

open Regex TextFile Header Expansion Rewriting MakeFile RoundTrip

/-! ## The first loop -/

section

variable {τ : Type} [Passive τ] {replace : Replace} {value : Name → Option (Document Name τ)}

/-- **The first loop expands** what has an expansion. -/
theorem firstLoop_closed_expands (hgives : Gives replace value)
    (hstable : ∀ x v, value x = some v → Stable (textOf v)) (k : Nat) :
    ∀ ps us, ExpandsIn value k ps us → ∀ fuel, k < fuel →
      firstLoop replace fuel (textOf ps) = some (.ok (textOf us)) := by
  induction k using Nat.strong_induction_on with
  | _ k ih =>
    intro ps us h fuel hfuel
    obtain ⟨fuel, rfl⟩ : ∃ n, fuel = n + 1 := ⟨fuel - 1, by omega⟩
    cases hholes : holes ps with
    | nil => rw [firstLoop_closed hholes, h.of_closed hholes]
    | cons x xs =>
      have hx : x ∈ holes ps := by rw [hholes]; exact List.mem_cons_self ..
      obtain ⟨v, hv⟩ := h.defined hx
      obtain ⟨j, _, hlt, hj⟩ := h.subst hv
      have := hlt hx
      rw [firstLoop_round hgives hstable hholes, hv]
      exact ih j (hlt hx) _ _ hj fuel (by omega)

end

/-! ## The second loop -/

/-- What the loop makes of a piece. -/
inductive Filled : Fixed → Fixed → Prop
  | same (p : Fixed) : Filled p p
  | number {t : Text} {plain : ∀ c ∈ t, plainChar c = true} {noAt : '@' ∉ t} (n : Nat) :
      Filled (.line t plain noAt) (.lit (natText n) (noHole_natText n) (natText_head n))

theorem Filled.trans {p q s : Fixed} (h : Filled p q) (h' : Filled q s) : Filled p s := by
  cases h with
  | same => exact h'
  | number n =>
    cases h' with
    | same => exact .number n

theorem filled_fill (target : Text) (n : Nat) (p : Fixed) : Filled p (p.fill target n) := by
  cases p with
  | line t plain noAt =>
    rw [Fixed.fill]
    split
    · exact .number n
    · exact .same _
  | lit | stray => exact .same _

/-- Every target is a marker that some line of the text shows. -/
def Resolvable (ps : List Fixed) : Prop :=
  ∀ t ∈ targets ps, Marker t ∧ ∃ n, FirstWith (Shows t) (split (fixedText ps)) n

/-- **The second loop fills in numbers**, if the lines that it looks for are there. -/
theorem secondLoop_fills (filename : Text) (fuel : Nat) :
    ∀ ps, (targets ps).length < fuel → Resolvable ps → NoHoleAfterMarker (fixedText ps) →
      ∃ f : Fixed → Fixed, (∀ p, Filled p (f p)) ∧
        secondLoop filename fuel (fixedText ps) = some (.ok (fixedText (ps.map f))) := by
  induction fuel with
  | zero => intro ps h; omega
  | succ fuel ih =>
    intro ps hfuel hres hno
    rw [secondLoop]
    cases hts : targets ps with
    | nil => exact ⟨id, .same, by rw [lineStep_closed hts, List.map_id]⟩
    | cons t ts =>
      have hmem : t ∈ targets ps := by rw [hts]; exact List.mem_cons_self
      obtain ⟨hmarker, n, hn⟩ := hres t hmem
      have hstep := lineStep_found hts ((findLine_marker hmarker _ filename n).mpr hn)
      obtain ⟨_, hrewrites⟩ := lineStep_marker hmarker hstep
      have hd := digits_natText n
      have hlines := lines_agree hmarker hd hrewrites hno
      have hlt : (targets (ps.map (Fixed.fill t n))).length < fuel := by
        rw [targets_fill, hts, List.filter_cons_of_neg (by simp)]
        rw [hts, List.length_cons] at hfuel
        have := List.length_filter_le (fun u => decide (u ≠ t)) ts
        omega
      -- the other markers are still shown, each by the same line
      have hres' : Resolvable (ps.map (Fixed.fill t n)) := by
        intro u hu
        rw [targets_fill] at hu
        obtain ⟨hu, j, hj⟩ := hres u (List.mem_of_mem_filter hu)
        exact ⟨hu, j, hj.congr (hlines.imp fun l l' hl => hl.shows u hu)⟩
      obtain ⟨f, hf, hloop⟩ :=
        ih _ hlt hres' (noHoleAfterMarker_step hmarker hd hrewrites hno)
      refine ⟨f ∘ Fixed.fill t n, fun p => (filled_fill t n p).trans (hf _), ?_⟩
      rw [hstep, ← List.map_map]
      exact hloop

/-! ## Header markers -/

/-- No header marker anywhere. -/
def NoMark (t : Text) : Prop := ¬ beginMark <:+: t ∧ ¬ endMark <:+: t

theorem infix_around {w a b : Text} {c : Char} (hc : c ∉ w) (h : w <:+: a ++ c :: b) :
    w <:+: a ∨ w <:+: b := by
  obtain ⟨s, t, h⟩ := h
  rcases List.append_eq_append_iff.mp h with ⟨u, rfl, _⟩ | ⟨u, hu, hcb⟩
  · exact .inl ⟨s, u, rfl⟩
  · cases u with
    | nil => exact .inl ⟨s, [], by simpa using hu⟩
    | cons d u =>
      obtain ⟨rfl, rfl⟩ := List.cons.inj hcb
      rcases List.append_eq_append_iff.mp hu with ⟨v, rfl, hv⟩ | ⟨v, rfl, hv⟩
      · exact absurd (by simp [hv]) hc
      · cases v with
        | nil =>
          obtain rfl : c :: u = w := hv
          exact absurd List.mem_cons_self hc
        | cons e v =>
          obtain ⟨rfl, rfl⟩ := List.cons.inj hv
          exact .inr ⟨v, t, rfl⟩

theorem infix_around_digits {w d : Text} (hw : ∀ c ∈ w, c.isDigit = false) (hd : Digits d)
    (b : Text) : ∀ a, w <:+: a ++ (d ++ b) → w <:+: a ∨ w <:+: b := by
  obtain ⟨hne, hdigits⟩ := hd
  induction d with
  | nil => exact absurd rfl hne
  | cons c d ih =>
    intro a h
    have hc : c ∉ w := fun hmem => by
      have hdigit := hdigits c List.mem_cons_self
      rw [hw c hmem] at hdigit
      cases hdigit
    rcases infix_around hc h with h | h
    · exact .inl h
    · cases d with
      | nil => exact .inr h
      | cons e d =>
        rcases ih (List.cons_ne_nil e d) (fun c hc => hdigits c (List.mem_cons_of_mem _ hc)) [] h
          with h | h
        · exact .inl (h.trans (List.nil_infix))
        · exact .inr h

variable {f : Fixed → Fixed}

/-- **What has no digits is not made by filling in numbers.** -/
theorem infix_filled (hf : ∀ p, Filled p (f p)) {w : Text} (hw : ∀ c ∈ w, c.isDigit = false)
    (ps : List Fixed) : ∀ a, w <:+: a ++ fixedText (ps.map f) → w <:+: a ++ fixedText ps := by
  induction ps with
  | nil => exact fun a h => h
  | cons p ps ih =>
    intro a h
    rw [List.map_cons, fixedText] at h
    rw [fixedText]
    have hp := hf p
    generalize f p = q at hp h
    cases hp with
    | same =>
      rw [← List.append_assoc] at h ⊢
      exact ih _ h
    | number n =>
      rcases infix_around_digits hw (digits_natText n) _ a h with h | h
      · exact h.trans (List.infix_append' [] a _)
      · have htail : w <:+: fixedText ps := ih [] h
        exact htail.trans ((List.suffix_append _ _).trans (List.suffix_append a _)).isInfix

theorem noMark_filled (hf : ∀ p, Filled p (f p)) {ps : List Fixed} (h : NoMark (fixedText ps)) :
    NoMark (fixedText (ps.map f)) := by
  have hbegin : ∀ c ∈ beginMark, c.isDigit = false := by rw [beginMark_eq]; decide
  have hend : ∀ c ∈ endMark, c.isDigit = false := by rw [endMark_eq]; decide
  exact ⟨fun hw => h.1 (infix_filled hf hbegin ps [] hw),
    fun hw => h.2 (infix_filled hf hend ps [] hw)⟩

theorem not_mem_filled (hf : ∀ p, Filled p (f p)) {ps : List Fixed} {c : Char}
    (hc : c.isDigit = false) (h : c ∉ fixedText ps) : c ∉ fixedText (ps.map f) := by
  intro hmem
  have hw : ∀ d ∈ [c], d.isDigit = false := by simpa using hc
  obtain ⟨s, t, hst⟩ := List.append_of_mem hmem
  have hin : [c] <:+: [] ++ fixedText (ps.map f) := ⟨s, t, by simp [hst]⟩
  exact h ((infix_filled hf hw ps [] hin).subset (by simp))

/-! ## Lines -/

theorem unlines_append (ls ls' : List Text) : unlines (ls ++ ls') = unlines ls ++ unlines ls' :=
  List.flatMap_append

theorem unlines_modifyHead (c : Char) {ls : List Text} (h : ls ≠ []) :
    unlines (ls.modifyHead (c :: ·)) = c :: unlines ls := by
  cases ls with
  | nil => exact absurd rfl h
  | cons l ls => rfl

theorem split_newline (t : Text) : split ('\n' :: t) = [] :: split t := splitOn_cons_self t

theorem split_cons {c : Char} (hc : c ≠ '\n') (t : Text) :
    split (c :: t) = (split t).modifyHead (c :: ·) := splitOn_cons_of_ne hc t

theorem split_ne_nil (t : Text) : split t ≠ [] := List.splitOn_ne_nil _ _

theorem unlines_split (t : Text) : unlines (split t) = t ++ ['\n'] := by
  induction t with
  | nil => rfl
  | cons c t ih =>
    by_cases hc : c = '\n'
    · subst hc
      rw [split_newline]
      exact congrArg ('\n' :: ·) ih
    · rw [split_cons hc, unlines_modifyHead c (split_ne_nil t), ih]
      rfl

theorem split_append (s t : Text) : split (s ++ '\n' :: t) = split s ++ split t := by
  induction s with
  | nil => exact split_newline t
  | cons c s ih =>
    by_cases hc : c = '\n'
    · subst hc
      rw [List.cons_append, split_newline, ih, split_newline, List.cons_append]
    · obtain ⟨l, ls, hls⟩ := List.exists_cons_of_ne_nil (split_ne_nil s)
      rw [List.cons_append, split_cons hc, ih, split_cons hc, hls]
      rfl

theorem split_of_not_mem {l : Text} (h : '\n' ∉ l) : split l = [l] := by
  induction l with
  | nil => rfl
  | cons c l ih =>
    rw [List.mem_cons, not_or] at h
    rw [split_cons (Ne.symm h.1), ih h.2]
    rfl

theorem newline_not_mem_split {t l : Text} (hl : l ∈ split t) : '\n' ∉ l := by
  induction t generalizing l with
  | nil =>
    rw [split, List.splitOn_nil, List.mem_singleton] at hl
    rw [hl]
    exact List.not_mem_nil
  | cons c t ih =>
    by_cases hc : c = '\n'
    · subst hc
      rw [split_newline, List.mem_cons] at hl
      rcases hl with rfl | hl
      · exact List.not_mem_nil
      · exact ih hl
    · obtain ⟨k, ks, hks⟩ := List.exists_cons_of_ne_nil (split_ne_nil t)
      rw [split_cons hc, hks, List.modifyHead_cons, List.mem_cons] at hl
      rcases hl with rfl | hl
      · rw [List.mem_cons, not_or]
        exact ⟨Ne.symm hc, ih (by rw [hks]; exact List.mem_cons_self)⟩
      · exact ih (by rw [hks]; exact List.mem_cons_of_mem _ hl)

/-- The lines of a text without markers are plain. -/
theorem exists_plainLines {t : Text} (hmark : NoMark t) (hreturn : '\r' ∉ t) :
    ∃ ls : List PlainText, ls.map PlainText.text = split t := by
  have hplain : ∀ l ∈ split t, ∃ p : PlainText, p.text = l := by
    intro l hl
    have hin : l <:+: t := infix_of_mem_splitOn hl
    have hnewline : '\n' ∉ l := newline_not_mem_split hl
    refine ⟨⟨l, fun c hc => ⟨?_, ?_⟩, fun h => hmark.1 (h.trans hin),
      fun h => hmark.2 (h.trans hin)⟩, rfl⟩
    · rintro rfl
      exact hnewline hc
    · rintro rfl
      exact hreturn (hin.subset hc)
  generalize split t = lines at hplain
  induction lines with
  | nil => exact ⟨[], rfl⟩
  | cons l lines ih =>
    obtain ⟨⟨p, rfl⟩, hrest⟩ := List.forall_mem_cons.mp hplain
    obtain ⟨ls, rfl⟩ := ih hrest
    exact ⟨p :: ls, rfl⟩

/-! ## The templates -/

theorem errormsg_chars : ∀ c ∈ "errormsg".toList, nameChar c = true := by decide

def outcomeName : Name := ⟨"outcome".toList, by decide⟩
def errormsgName : Name := ⟨"errormsg".toList, errormsg_chars⟩

/-- A text of the script without `@`. -/
abbrev plainPiece (t : Text) (hat : '@' ∉ t) (hbrace : t.head? ≠ some '\x7b') : Piece Name Fixed :=
  .inert (.lit t (noHole_of_no_at hat) hbrace)

/-- The template of a generator: a description and a feature block, the header with one test,
which is run with this command, and the program. -/
structure Template where
  before : Document Name Fixed
  cmd : PlainText
  noAt : '@' ∉ cmd.text
  after : Document Name Fixed

namespace Template

variable (T : Template)

/-- `BEGIN_MBI_TESTS`, the command, and the bar before the outcome. -/
def opening : Text := '\n' :: unlines [beginMark, "  $ ".toList ++ T.cmd.text] ++ "  | ".toList

def bar : Text := '\n' :: "  | ".toList

def closing : Text := '\n' :: unlines [endMark]

theorem opening_no_at : '@' ∉ T.opening := by
  have hbegin : '@' ∉ beginMark := by rw [beginMark_eq]; decide
  simp [opening, unlines, hbegin, T.noAt]

theorem bar_no_at : '@' ∉ bar := by decide

theorem closing_no_at : '@' ∉ closing := by
  rw [closing, endMark_eq]
  decide

theorem opening_no_brace : T.opening.head? ≠ some '\x7b' := by simp [opening]

theorem bar_no_brace : bar.head? ≠ some '\x7b' := by simp [bar]

theorem closing_no_brace : closing.head? ≠ some '\x7b' := by simp [closing]

def document : Document Name Fixed :=
  T.before ++ plainPiece T.opening T.opening_no_at T.opening_no_brace :: .hole outcomeName ::
    plainPiece bar bar_no_at bar_no_brace :: .hole errormsgName ::
      plainPiece closing closing_no_at closing_no_brace ::
        (T.after ++ [plainPiece ['\n'] (by decide) (by decide)])

end Template

/-- A line of the feature block, where the characterization is written or looked up. -/
structure FeatureLine where
  feature : Feature
  chara : Characterization ⊕ Name
  blanks : Nat

theorem chara_no_at (c : Characterization) : '@' ∉ c.key := by cases c <;> decide

theorem chara_no_brace (c : Characterization) : c.key.head? ≠ some '\x7b' := by
  cases c <;> decide

def charaPiece (c : Characterization) : Piece Name Fixed :=
  plainPiece c.key (chara_no_at c) (chara_no_brace c)

namespace FeatureLine

/-- A tab, the feature, a colon and a blank. -/
def label (l : FeatureLine) : Text := '\n' :: '\t' :: (l.feature.key ++ [':', ' '])

theorem label_no_at (l : FeatureLine) : '@' ∉ l.label := by
  have hkey : '@' ∉ l.feature.key := by cases l.feature <;> decide
  simp [label, hkey]

theorem label_no_brace (l : FeatureLine) : l.label.head? ≠ some '\x7b' := by simp [label]

def blankText (l : FeatureLine) : Text := List.replicate l.blanks ' '

theorem blankText_no_at (l : FeatureLine) : '@' ∉ l.blankText := by simp [blankText]

theorem blankText_no_brace (l : FeatureLine) : l.blankText.head? ≠ some '\x7b' := by
  intro h
  have hmem := List.mem_of_head? h
  simp [blankText] at hmem

def document (l : FeatureLine) : Document Name Fixed :=
  [plainPiece l.label l.label_no_at l.label_no_brace, l.chara.elim charaPiece .hole,
    plainPiece l.blankText l.blankText_no_at l.blankText_no_brace]

end FeatureLine

/-- A description, and the feature block behind it. -/
structure Block where
  intro : Document Name Fixed
  features : List FeatureLine

namespace Block

def opening : Text := '\n' :: "BEGIN_MPI_FEATURES".toList

def closing : Text := '\n' :: "END_MPI_FEATURES\n".toList

theorem opening_no_at : '@' ∉ opening := by decide

theorem opening_no_brace : opening.head? ≠ some '\x7b' := by simp [opening]

theorem closing_no_at : '@' ∉ closing := by decide

theorem closing_no_brace : closing.head? ≠ some '\x7b' := by simp [closing]

def document (B : Block) : Document Name Fixed :=
  B.intro ++ plainPiece opening opening_no_at opening_no_brace ::
    (B.features.flatMap FeatureLine.document ++
      [plainPiece closing closing_no_at closing_no_brace])

end Block

/-! ## Reading what is written -/

section

variable {value : Name → Option (Document Name Fixed)} {T : Template} {a : Announced}

/-- What the dictionary and the template have to be like. -/
structure Presentable (value : Name → Option (Document Name Fixed)) (T : Template) : Prop where
  closed : Closed value T.document
  before : ∀ us, Expands value T.before us → NoMark (textOf us) ∧ '\r' ∉ textOf us
  after : ∀ us, Expands value T.after us → NoMark (textOf us) ∧ '\r' ∉ textOf us
  note : ∀ us, Expands value [.hole errormsgName] us → NoMark (textOf us) ∧ OneLine (textOf us)
  resolvable : ∀ us, Expands value T.document us → Resolvable (pieces us) ∧
    NoHoleAfterMarker (textOf us)

theorem pieces_append (ps qs : Document Name Fixed) :
    pieces (ps ++ qs) = pieces ps ++ pieces qs := by
  induction ps with
  | nil => rfl
  | cons p ps ih =>
    cases p with
    | inert i => exact congrArg (i :: ·) ih
    | hole x => exact ih

theorem fixedText_append (ps qs : List Fixed) :
    fixedText (ps ++ qs) = fixedText ps ++ fixedText qs := by
  induction ps with
  | nil => rfl
  | cons p ps ih => rw [List.cons_append, fixedText, ih, fixedText, List.append_assoc]

theorem outcome_no_at (a : Announced) : '@' ∉ a.text :=
  a.not_mem_text (by decide) (by decide) (by decide)

theorem outcome_no_brace (a : Announced) : a.text.head? ≠ some '\x7b' := fun h =>
  a.not_mem_text (by decide) (by decide) (by decide) (List.mem_of_head? h)

/-- The value of `outcome`. -/
def outcomeDocument (a : Announced) : Document Name Fixed :=
  [plainPiece a.text (outcome_no_at a) (outcome_no_brace a)]

/-- The expansion of a template. -/
theorem expands_document {us : Document Name Fixed} (h : Expands value T.document us)
    (houtcome : value outcomeName = some (outcomeDocument a)) :
    ∃ ub ue ua, Expands value T.before ub ∧ Expands value [.hole errormsgName] ue ∧
      Expands value T.after ua ∧ pieces us = pieces ub ++
        (.lit T.opening (noHole_of_no_at T.opening_no_at) T.opening_no_brace ::
          .lit a.text (noHole_of_no_at (outcome_no_at a)) (outcome_no_brace a) ::
            .lit Template.bar (noHole_of_no_at Template.bar_no_at) Template.bar_no_brace ::
              (pieces ue ++ .lit Template.closing (noHole_of_no_at Template.closing_no_at)
                Template.closing_no_brace :: (pieces ua ++
                  [.lit ['\n'] (noHole_of_no_at (by decide)) (by decide)]))) := by
  obtain ⟨k, h⟩ := h
  rw [Template.document] at h
  obtain ⟨_, _, ub, rest, rfl, hb, hrest⟩ := h.append_inv
  clear h
  cases hrest with
  | inert _ h =>
  cases h with
  | hole hout hw h =>
  rw [houtcome] at hout
  obtain rfl := Option.some.inj hout
  obtain rfl := hw.of_closed rfl
  cases h with
  | inert _ h =>
  cases h with
  | hole hnote hw h =>
  cases h with
  | inert _ h =>
  obtain ⟨_, _, ua, nl, rfl, ha, hlast⟩ := h.append_inv
  obtain rfl := hlast.of_closed rfl
  refine ⟨ub, _, ua, ⟨_, hb⟩, ⟨_, .hole hnote hw .nil⟩, ⟨_, ha⟩, ?_⟩
  simp only [pieces_append, pieces, outcomeDocument, List.cons_append, List.nil_append,
    List.append_nil]

theorem filled_lit {f : Fixed → Fixed} (hf : ∀ p, Filled p (f p)) (t : Text) (hno : NoHole t)
    (hbrace : t.head? ≠ some '\x7b') : (f (.lit t hno hbrace)).text = t := by
  have hp := hf (.lit t hno hbrace)
  generalize f (.lit t hno hbrace) = q at hp
  cases hp
  rfl

/-- The parts of the file. -/
theorem headerFile_eq (before after : List PlainText) (note : PlainText) {b q : Text}
    (hbefore : unlines (before.map PlainText.text) = b ++ ['\n'])
    (hafter : unlines (after.map PlainText.text) = q ++ ['\n']) :
    b ++ T.opening ++ a.text ++ Template.bar ++ note.text ++ Template.closing ++ q ++ ['\n'] =
      headerFile before after [⟨T.cmd, a, [note]⟩] := by
  simp only [headerFile, unlines_append, hbefore]
  simp [Entry.lines, unlines, commandLine, barLine, Template.opening, Template.bar,
    Template.closing]
  exact hafter.symm

/-- What is written: a file with this header, made of the lines that the expansions of the parts
have, with numbers filled in. -/
structure Written (value : Name → Option (Document Name Fixed)) (T : Template) (a : Announced)
    (z : Text) where
  fill : Fixed → Fixed
  filled : ∀ p, Filled p (fill p)
  before : List PlainText
  note : PlainText
  after : List PlainText
  beforeLines : ∃ us, Expands value T.before us ∧
    before.map PlainText.text = split (fixedText ((pieces us).map fill))
  noteText : ∃ us, Expands value [.hole errormsgName] us ∧
    note.text = fixedText ((pieces us).map fill)
  afterLines : ∃ us, Expands value T.after us ∧
    after.map PlainText.text = split (fixedText ((pieces us).map fill))
  eq : z = headerFile before after [⟨T.cmd, a, [note]⟩]

variable {d : List (Name × Document Name Fixed)} {replace : Replace} {filename : Text}

/-- The dictionary that is given to `make_file` has these documents for values, which are fit for
`re.sub` and lead to each other without a cycle. -/
structure Dictionary (d : List (Name × Document Name Fixed)) (replace : Replace)
    (filename : Text) : Prop where
  gives : Gives (withFilename replace filename) fun x => d.lookup x
  stable : ∀ x v, d.lookup x = some v → Stable (textOf v)
  closed : ∀ x v, d.lookup x = some v → Closed (fun x => d.lookup x) v
  acyclic : Acyclic fun x => d.lookup x

/-- `make_file` ends without an error, and writes such a file. -/
theorem exists_written (hd : Dictionary d replace filename)
    (hT : Presentable (fun x => d.lookup x) T)
    (houtcome : d.lookup outcomeName = some (outcomeDocument a)) :
    ∃ fuel z, makeFile (textOf T.document) filename replace fuel =
        some (.ok (shortFilename filename, z)) ∧
      Nonempty (Written (fun x => d.lookup x) T a z) := by
  obtain ⟨us, k, hus⟩ := expands_of_acyclic (lookup_finite d) hd.acyclic hd.closed hT.closed
  have hexpands : Expands (fun x => d.lookup x) T.document us := ⟨k, hus⟩
  have hfirst := firstLoop_closed_expands hd.gives hd.stable k _ _ hus (k + 1) (by omega)
  obtain ⟨hres, hno⟩ := hT.resolvable us hexpands
  rw [textOf_pieces hexpands.holes] at hfirst hno
  obtain ⟨f, hf, hsecond⟩ := secondLoop_fills (shortFilename filename)
    ((targets (pieces us)).length + 1) (pieces us) (Nat.lt_succ_self _) hres hno
  have hfirst := firstLoop_mono hfirst (Nat.le_max_left _ ((targets (pieces us)).length + 1))
  have hsecond := secondLoop_mono hsecond (Nat.le_max_right (k + 1) _)
  obtain ⟨ub, ue, ua, hub, hue, hua, hpieces⟩ := expands_document hexpands houtcome
  obtain ⟨hbmark, hbreturn⟩ := hT.before ub hub
  obtain ⟨hamark, hareturn⟩ := hT.after ua hua
  obtain ⟨hemark, heline⟩ := hT.note ue hue
  rw [textOf_pieces hub.holes] at hbmark hbreturn
  rw [textOf_pieces hua.holes] at hamark hareturn
  rw [textOf_pieces hue.holes] at hemark heline
  obtain ⟨before, hbefore⟩ := exists_plainLines (noMark_filled hf hbmark)
    (not_mem_filled hf (by decide) hbreturn)
  obtain ⟨after, hafter⟩ := exists_plainLines (noMark_filled hf hamark)
    (not_mem_filled hf (by decide) hareturn)
  have hnote : OneLine (fixedText ((pieces ue).map f)) := by
    intro c hc
    constructor
    · rintro rfl
      exact not_mem_filled hf (by decide) (fun h => (heline _ h).1 rfl) hc
    · rintro rfl
      exact not_mem_filled hf (by decide) (fun h => (heline _ h).2 rfl) hc
  let note : PlainText := ⟨_, hnote, (noMark_filled hf hemark).1, (noMark_filled hf hemark).2⟩
  refine ⟨max (k + 1) ((targets (pieces us)).length + 1), fixedText ((pieces us).map f), ?_,
    ⟨f, hf, before, note, after, ⟨ub, hub, hbefore⟩, ⟨ue, hue, rfl⟩, ⟨ua, hua, hafter⟩, ?_⟩⟩
  · simp only [makeFile, expandTemplate, hfirst, hsecond, Option.map_some, Except.map]
  · rw [← headerFile_eq before after note (by rw [hbefore, unlines_split])
      (by rw [hafter, unlines_split]), hpieces]
    simp only [List.map_append, List.map_cons, List.map_nil, fixedText_append, fixedText,
      filled_lit hf, List.append_nil, List.append_assoc]
    rfl

/-- A file with one test is read so. -/
theorem parseOneCode_oneTest (file : Text) (before after : List PlainText) (e : Entry) :
    parseOneCode file (headerFile before after [e]) =
      .ok [⟨file, 0, e.cmd.text, e.outcome.expect, e.outcome.detail⟩] := by
  have hplain : ∀ ls : List PlainText, ∀ l ∈ ls.map (·.text ++ ['\n']), Unmarked l := by
    intro ls l hl
    obtain ⟨p, -, rfl⟩ := List.mem_map.mp hl
    exact p.unmarked
  have hclosed := closed_entries [e] (.close end_line.1 end_line.2 (hplain after))
  rw [parseOneCode_ok_iff]
  exact ⟨[pair e], ⟨_, _, readLines_headerFile before after [e], hplain before,
    .plain begin_line.1 begin_line.2 hclosed⟩, by simp, readTests_entries file [e] 0⟩

/-- Every hole is replaced once. -/
def unfolded {τ : Type} (value : Name → Option (Document Name τ)) :
    Document Name τ → Document Name τ
  | [] => []
  | .inert t :: ps => .inert t :: unfolded value ps
  | .hole x :: ps => (value x).getD [] ++ unfolded value ps

theorem expands_unfolded {τ : Type} {value : Name → Option (Document Name τ)}
    {ps us : Document Name τ} (h : Expands value ps us) : Expands value (unfolded value ps) us := by
  obtain ⟨k, h⟩ := h
  induction h with
  | nil => exact ⟨0, .nil⟩
  | inert t _ ih =>
    obtain ⟨j, hj⟩ := ih
    exact ⟨j, .inert t hj⟩
  | hole hx hv _ _ ih =>
    obtain ⟨j, hj⟩ := ih
    rw [unfolded, hx]
    exact ⟨_, hv.append hj⟩

theorem filename_chars : ∀ c ∈ "filename".toList, nameChar c = true := by decide

def filenameName : Name := ⟨"filename".toList, filename_chars⟩
def featureName : Name := ⟨"p2pfeature".toList, by decide⟩

def markerPiece : Piece Name Fixed :=
  .inert (.line "MBIERROR".toList (by decide) (by decide))

theorem cFile_no_at : '@' ∉ "a.c".toList := by decide

theorem cFile_head : "a.c".toList.head? ≠ some '\x7b' := by decide

theorem callMatching_ne_ok : Detail.CallMatching ≠ .OK := by decide

/-- A message with the file and the line of the error. -/
def sampleDictionary : List (Name × Document Name Fixed) :=
  [(filenameName, [plainPiece "a.c".toList cFile_no_at cFile_head]),
    (outcomeName, outcomeDocument (.error .CallMatching callMatching_ne_ok)),
    (errormsgName, [plainPiece "Mismatch at ".toList (by decide) (by decide),
      .hole filenameName, plainPiece [':'] (by decide) (by decide), markerPiece]),
    (featureName, [charaPiece .Yes])]

def sampleReplacements : Replace :=
  [("outcome".toList, "ERROR: CallMatching".toList),
    ("errormsg".toList, "Mismatch at @\x7bfilename\x7d@:@\x7bline:MBIERROR\x7d@".toList),
    ("p2pfeature".toList, "Yes".toList)]

def twoLines : Block where
  intro := [plainPiece "/* Origin: ".toList (by decide) (by decide),
    .hole filenameName]
  features := [⟨.P2Pbasic, .inr featureName, 1⟩, ⟨.COLLbasic, .inl .Lacking, 0⟩]

def twoFeatures : Template where
  before := twoLines.document
  cmd := twoProcesses
  noAt := by decide
  after := [plainPiece "*/\nMPI_Send(); /* MBIERROR */".toList (by decide)
    (by decide)]

/-- Two rounds expand all of the sample. -/
theorem eq_unfolded {ps us : Document Name Fixed}
    (h : Expands (fun x => sampleDictionary.lookup x) ps us)
    (hps : holes (unfolded (fun x => sampleDictionary.lookup x)
      (unfolded (fun x => sampleDictionary.lookup x) ps)) = []) :
    us = unfolded (fun x => sampleDictionary.lookup x)
      (unfolded (fun x => sampleDictionary.lookup x) ps) := by
  obtain ⟨k, h⟩ := expands_unfolded (expands_unfolded h)
  exact h.of_closed hps

theorem sampleDictionary_ok : Dictionary sampleDictionary sampleReplacements "a.c".toList := by
  have htexts : withFilename sampleReplacements "a.c".toList =
      sampleDictionary.map fun e => (e.1.text, textOf e.2) := by decide
  have hback : ∀ e ∈ sampleDictionary, '\\' ∉ textOf e.2 := by decide
  have hclosed : ∀ e ∈ sampleDictionary, ∀ x ∈ holes e.2, (sampleDictionary.lookup x).isSome := by
    decide
  have hrank : ∀ e ∈ sampleDictionary, ∀ x ∈ holes e.2,
      (if x = errormsgName then 1 else 0) < (if e.1 = errormsgName then 1 else 0) := by
    decide
  constructor
  · rw [htexts]
    exact gives_texts sampleDictionary
  · exact fun x v hv => stable_of_no_backslash (hback _ (lookup_mem hv))
  · exact fun x v hv => hclosed _ (lookup_mem hv)
  · exact acyclic_of_rank (fun x => if x = errormsgName then 1 else 0)
      fun x y ⟨v, hv, hy⟩ => hrank _ (lookup_mem hv) y hy

theorem twoFeatures_presentable :
    Presentable (fun x => sampleDictionary.lookup x) twoFeatures := by
  refine ⟨by decide, fun us h => ?_, fun us h => ?_, fun us h => ?_, fun us h => ⟨?_, ?_⟩⟩
  · rw [eq_unfolded h (by decide)]
    exact ⟨⟨by decide +kernel, by decide +kernel⟩, by decide +kernel⟩
  · rw [eq_unfolded h (by decide)]
    exact ⟨⟨by decide, by decide⟩, by decide⟩
  · rw [eq_unfolded h (by decide)]
    exact ⟨⟨by decide, by decide⟩, by unfold OneLine; decide⟩
  · rw [eq_unfolded h (by decide)]
    intro t ht
    have htargets : ∀ t ∈ targets (pieces (unfolded (fun x => sampleDictionary.lookup x)
        (unfolded (fun x => sampleDictionary.lookup x) twoFeatures.document))),
        t = "MBIERROR".toList := by decide
    obtain rfl := htargets t ht
    have hmarker : Marker "MBIERROR".toList := ⟨[], by decide, by decide⟩
    exact ⟨hmarker, 13, (findLine_marker hmarker _ "a.c".toList 13).mp (by decide)⟩
  · rw [eq_unfolded h (by decide)]
    exact noHoleAfterMarker_of_pairs (by decide +kernel)

/-- What begins a line begins the text, or comes after a line feed. -/
theorem infix_of_split {t k : Text} {ks : List Text} (h : split t = k :: ks) :
    k <+: t ∧ ∀ l ∈ ks, '\n' :: l <:+: t := by
  induction t generalizing k ks with
  | nil =>
    obtain ⟨rfl, rfl⟩ := List.cons.inj h
    exact ⟨List.prefix_rfl, nofun⟩
  | cons c t ih =>
    obtain ⟨k', ks', hsplit⟩ := List.exists_cons_of_ne_nil (split_ne_nil t)
    obtain ⟨hk, hks⟩ := ih hsplit
    have hlater : ∀ l ∈ ks', '\n' :: l <:+: c :: t :=
      fun l hl => (hks l hl).trans (List.suffix_cons c t).isInfix
    by_cases hc : c = '\n'
    · subst hc
      rw [split_newline] at h
      obtain ⟨rfl, rfl⟩ := List.cons.inj h
      refine ⟨List.nil_prefix, fun l hl => ?_⟩
      rw [hsplit] at hl
      rcases List.mem_cons.mp hl with rfl | hl
      · exact (List.cons_prefix_cons.mpr ⟨rfl, hk⟩).isInfix
      · exact hlater l hl
    · rw [split_cons hc, hsplit] at h
      obtain ⟨rfl, rfl⟩ := List.cons.inj h
      exact ⟨List.cons_prefix_cons.mpr ⟨rfl, hk⟩, hlater⟩

/-- No line begins with `w`. -/
theorem not_prefix_of_mem_split {t w : Text} (h : ¬ '\n' :: w <:+: '\n' :: t) {l : Text}
    (hl : l ∈ split t) : ¬ w <+: l := by
  intro hw
  obtain ⟨k, ks, hsplit⟩ := List.exists_cons_of_ne_nil (split_ne_nil t)
  obtain ⟨hk, hks⟩ := infix_of_split hsplit
  rw [hsplit] at hl
  rcases List.mem_cons.mp hl with rfl | hl
  · exact h (List.cons_prefix_cons.mpr ⟨rfl, hw.trans hk⟩).isInfix
  · have hin := (hks l hl).trans (List.suffix_cons '\n' t).isInfix
    exact h ((List.cons_prefix_cons.mpr ⟨rfl, hw⟩).isInfix.trans hin)

/-- What has no digits and begins the text does so already before numbers are filled in. -/
theorem prefix_filled (hf : ∀ p, Filled p (f p)) {w : Text} (hw : ∀ c ∈ w, c.isDigit = false)
    (ps : List Fixed) : ∀ a, w <+: a ++ fixedText (ps.map f) → w <+: a ++ fixedText ps := by
  induction ps with
  | nil => exact fun a h => h
  | cons p ps ih =>
    intro a h
    rw [List.map_cons, fixedText] at h
    rw [fixedText]
    have hp := hf p
    generalize f p = q at hp h
    cases hp with
    | same =>
      rw [← List.append_assoc] at h ⊢
      exact ih _ h
    | number n =>
      refine List.IsPrefix.trans ?_ (List.prefix_append a _)
      rcases List.prefix_or_prefix_of_prefix h (List.prefix_append a _) with h' | ⟨v, rfl⟩
      · exact h'
      · cases v with
        | nil => rw [List.append_nil]
        | cons c v =>
          obtain ⟨hne, hdigits⟩ := digits_natText n
          obtain ⟨e, t, ht⟩ := List.exists_cons_of_ne_nil hne
          rw [List.prefix_append_right_inj, Fixed.text, ht] at h
          obtain rfl : c = e := (List.cons_prefix_cons.mp h).1
          have hdigit := hdigits c (by rw [ht]; exact List.mem_cons_self)
          rw [hw c (by simp)] at hdigit
          cases hdigit

/-- Nothing is filled in where there is no placeholder. -/
theorem fixedText_map_of_no_at (hf : ∀ p, Filled p (f p)) {ps : List Fixed}
    (h : '@' ∉ fixedText ps) : fixedText (ps.map f) = fixedText ps := by
  induction ps with
  | nil => rfl
  | cons p ps ih =>
    rw [fixedText, List.mem_append, not_or] at h
    rw [List.map_cons, fixedText, ih h.2, fixedText]
    have hp := hf p
    generalize f p = q at hp
    cases hp with
    | same => rfl
    | number n => exact absurd (by simp [Fixed.text, lineHole]) h.1

/-! ## The categories -/

def barMark : Text := "  | ".toList
def errorWord : Text := "ERROR: ".toList
def okWord : Text := "OK".toList

theorem prefix_line_iff {w t : Text} (hw : '\n' ∉ w) : w <+: t ++ ['\n'] ↔ w <+: t := by
  rw [List.prefix_concat_iff]
  constructor
  · rintro (rfl | h)
    · exact absurd (by simp) hw
    · exact h
  · exact .inr

theorem barMark_newline : '\n' ∉ barMark := by decide

theorem prefix_barLine_iff {w : Text} (hw : '\n' ∉ w) (t : Text) :
    barMark ++ w <+: barLine t ++ ['\n'] ↔ w <+: t := by
  rw [prefix_line_iff (by simp [hw, barMark_newline])]
  exact List.prefix_append_right_inj barMark

theorem lineCategory_outcome (a : Announced) :
    Expected.lineCategory (barLine a.text ++ ['\n']) = some a.detail.category := by
  have herrors : ∀ d ∈ Detail.all, d ≠ .OK →
      Expected.lineCategory (barLine ("ERROR: ".toList ++ d.key) ++ ['\n']) = some d.category := by
    decide
  cases a with
  | ok => decide
  | error d hd => exact herrors d d.mem_all hd

variable {before after : List PlainText} {cmd note : PlainText}

/-- The only lines with a bar are those of the outcome and of the note. -/
theorem bar_lines (hbefore : ∀ p ∈ before, ¬ barMark <+: p.text)
    (hafter : ∀ p ∈ after, ¬ barMark <+: p.text) {l : Text}
    (hl : l ∈ readLines (headerFile before after [⟨cmd, a, [note]⟩])) (hbar : barMark <+: l) :
    l = barLine a.text ++ ['\n'] ∨ l = barLine note.text ++ ['\n'] := by
  rw [readLines_headerFile] at hl
  simp only [List.mem_append, List.mem_map, List.mem_cons, List.flatMap_cons, List.flatMap_nil,
    List.append_nil, Entry.lines, List.map_cons, List.map_nil, List.not_mem_nil, or_false] at hl
  rcases hl with ⟨p, hp, rfl⟩ | rfl | (rfl | rfl | rfl) | rfl | ⟨p, hp, rfl⟩
  · exact absurd ((prefix_line_iff barMark_newline).mp hbar) (hbefore p hp)
  · exact absurd hbar (by decide)
  · rw [commandLine_eq] at hbar
    exact absurd hbar (by simp [barMark])
  · exact .inl rfl
  · exact .inr rfl
  · exact absurd hbar (by decide)
  · exact absurd ((prefix_line_iff barMark_newline).mp hbar) (hafter p hp)

/-- The second reader finds the category of the outcome, and no other. -/
theorem expected_headerFile (hbefore : ∀ p ∈ before, ¬ barMark <+: p.text)
    (hafter : ∀ p ∈ after, ¬ barMark <+: p.text) (herror : ¬ errorWord <+: note.text)
    (hok : okWord <+: note.text → a = .ok ∧ note.text = okWord) (file : Text) :
    ∃ cs, Expected.parseFileExpected file (headerFile before after [⟨cmd, a, [note]⟩]) = .ok cs ∧
      cs ≠ [] ∧ ∀ c ∈ cs, c = a.detail.category := by
  let z := headerFile before after [⟨cmd, a, [note]⟩]
  have herrorPrefix : Expected.errorPrefix = barMark ++ errorWord := by decide
  have hokPrefix : Expected.okPrefix = barMark ++ okWord := by decide
  have hcategory : ∀ l ∈ Expected.errorLines (readLines z) ++ Expected.okLines (readLines z),
      Expected.lineCategory l = some a.detail.category := by
    intro l hl
    rcases List.mem_append.mp hl with hl | hl
    · obtain ⟨hl, hprefix⟩ := List.mem_filter.mp hl
      rw [List.isPrefixOf_iff_prefix, herrorPrefix] at hprefix
      rcases bar_lines hbefore hafter hl ((List.prefix_append _ _).trans hprefix) with rfl | rfl
      · exact lineCategory_outcome a
      · exact absurd ((prefix_barLine_iff (by decide) _).mp hprefix) herror
    · obtain ⟨hl, hprefix⟩ := List.mem_filter.mp hl
      rw [List.isPrefixOf_iff_prefix, hokPrefix] at hprefix
      rcases bar_lines hbefore hafter hl ((List.prefix_append _ _).trans hprefix) with rfl | rfl
      · exact lineCategory_outcome a
      · obtain ⟨rfl, hnote⟩ := hok ((prefix_barLine_iff (by decide) _).mp hprefix)
        rw [hnote]
        exact lineCategory_outcome .ok
  have hmem : barLine a.text ++ ['\n'] ∈
      Expected.errorLines (readLines z) ++ Expected.okLines (readLines z) := by
    have hline : barLine a.text ++ ['\n'] ∈ readLines z := by
      rw [readLines_headerFile]
      simp [Entry.lines]
    rw [List.mem_append, Expected.errorLines, Expected.okLines, List.mem_filter, List.mem_filter,
      List.isPrefixOf_iff_prefix, List.isPrefixOf_iff_prefix, herrorPrefix, hokPrefix,
      prefix_barLine_iff (by decide), prefix_barLine_iff (by decide)]
    cases a with
    | ok => exact .inr ⟨hline, List.prefix_rfl⟩
    | error d hd => exact .inl ⟨hline, List.prefix_append _ _⟩
  generalize hres : Expected.errorLines (readLines z) ++ Expected.okLines (readLines z) = res
    at hcategory hmem
  have hlength : res.length ≠ 0 := fun h => by
    rw [List.length_eq_zero_iff.mp h] at hmem
    cases hmem
  refine ⟨List.replicate res.length a.detail.category, ?_, ?_,
    fun c hc => List.eq_of_mem_replicate hc⟩
  · rw [Expected.parseFileExpected, hres, if_neg hlength, Expected.mapM_categoryOf,
      List.map_replicate]
    exact List.eq_replicate_iff.mpr ⟨List.length_map _, fun o ho => by
      obtain ⟨l, hl, rfl⟩ := List.mem_map.mp ho
      exact hcategory l hl⟩
  · simpa using hlength


/-! ## The features -/

/-- The characterization that a line has, or that is looked up. -/
def FeatureLine.shown (labels : Name → Characterization) (l : FeatureLine) : Characterization :=
  l.chara.elim id labels

/-- The line without its line feed. -/
def FeatureLine.text (labels : Name → Characterization) (l : FeatureLine) : Text :=
  '\t' :: (l.feature.key ++ ([':', ' '] ++ ((l.shown labels).key ++ l.blankText)))

/-- The dictionary has these labels. -/
def Labelled (value : Name → Option (Document Name Fixed)) (B : Block)
    (labels : Name → Characterization) : Prop :=
  ∀ l ∈ B.features, ∀ x, l.chara = .inr x → value x = some [charaPiece (labels x)]

variable {B : Block} {labels : Name → Characterization}

/-- A line of the block is expanded to its text. -/
theorem expands_line {l : FeatureLine} {us : Document Name Fixed} {k : Nat}
    (hlabel : ∀ x, l.chara = .inr x → value x = some [charaPiece (labels x)])
    (h : ExpandsIn value k l.document us) {f : Fixed → Fixed} (hf : ∀ p, Filled p (f p)) :
    fixedText ((pieces us).map f) = '\n' :: l.text labels := by
  rw [FeatureLine.document] at h
  cases hchara : l.chara with
  | inl c =>
    rw [hchara] at h
    obtain rfl := h.of_closed rfl
    simp [pieces, charaPiece, fixedText, filled_lit hf, FeatureLine.text, FeatureLine.shown, hchara,
      FeatureLine.label]
  | inr x =>
    rw [hchara] at h
    cases h with
    | inert _ h =>
    cases h with
    | hole hx hw h =>
    rw [hlabel x hchara] at hx
    obtain rfl := Option.some.inj hx
    obtain rfl := hw.of_closed rfl
    obtain rfl := h.of_closed rfl
    simp [pieces, charaPiece, fixedText, filled_lit hf, FeatureLine.text, FeatureLine.shown, hchara,
      FeatureLine.label]

theorem expands_features {ls : List FeatureLine} {us : Document Name Fixed} {k : Nat}
    (hlabels : ∀ l ∈ ls, ∀ x, l.chara = .inr x → value x = some [charaPiece (labels x)])
    (h : ExpandsIn value k (ls.flatMap FeatureLine.document) us) {f : Fixed → Fixed}
    (hf : ∀ p, Filled p (f p)) :
    fixedText ((pieces us).map f) = ls.flatMap fun l => '\n' :: l.text labels := by
  induction ls generalizing k us with
  | nil =>
    cases h
    rfl
  | cons l ls ih =>
    obtain ⟨hl, hls⟩ := List.forall_mem_cons.mp hlabels
    rw [List.flatMap_cons] at h
    obtain ⟨_, _, u, us, rfl, hu, hus⟩ := h.append_inv
    rw [pieces_append, List.map_append, fixedText_append, expands_line hl hu hf, ih hls hus,
      List.flatMap_cons]

/-- The block in the text before the header. -/
theorem expands_block {us : Document Name Fixed} (h : Expands value B.document us)
    (hlabels : Labelled value B labels) :
    ∃ ui, Expands value B.intro ui ∧ ∀ f : Fixed → Fixed, (∀ p, Filled p (f p)) →
      fixedText ((pieces us).map f) = fixedText ((pieces ui).map f) ++ (Block.opening ++
        (B.features.flatMap (fun l => '\n' :: l.text labels) ++ Block.closing)) := by
  obtain ⟨k, h⟩ := h
  rw [Block.document] at h
  obtain ⟨_, _, ui, rest, rfl, hi, hrest⟩ := h.append_inv
  clear h
  cases hrest with
  | inert _ h =>
  obtain ⟨_, _, uf, last, rfl, hfeatures, hlast⟩ := h.append_inv
  obtain rfl := hlast.of_closed rfl
  refine ⟨ui, ⟨_, hi⟩, fun f hf => ?_⟩
  simp only [pieces_append, pieces, List.map_append, List.map_cons, List.map_nil, fixedText_append,
    fixedText, filled_lit hf, expands_features hlabels hfeatures hf, List.append_nil]

theorem feature_chars (f : Feature) : ∀ c ∈ f.key, Features.isName c = true := by
  cases f <;> decide

theorem chara_chars (c : Characterization) : ∀ d ∈ c.key, Features.isWord d = true := by
  cases c <;> decide

theorem blankText_chars (l : FeatureLine) : ∀ c ∈ l.blankText, c = ' ' :=
  fun _ hc => List.eq_of_mem_replicate hc

theorem FeatureLine.newline_not_mem (l : FeatureLine) : '\n' ∉ l.text labels := by
  have hfeature : '\n' ∉ l.feature.key := fun h => absurd (feature_chars _ _ h) (by decide)
  have hchara : '\n' ∉ (l.shown labels).key := fun h => absurd (chara_chars _ _ h) (by decide)
  have hblank : '\n' ∉ l.blankText := fun h => absurd (blankText_chars l _ h) (by decide)
  simp [FeatureLine.text, hfeature, hchara, hblank]

theorem FeatureLine.written (l : FeatureLine) : Features.Written (l.text labels ++ ['\n'])
    l.feature.key (l.shown labels).key := by
  refine ⟨['\t'], l.blankText ++ ['\n'], by simp [FeatureLine.text], by decide, ?_,
    feature_chars _, chara_chars _, ?_⟩
  · intro c hc
    rcases List.mem_append.mp hc with hc | hc
    · rw [blankText_chars l c hc]
      decide
    · rw [List.mem_singleton.mp hc]
      decide
  · cases l.shown labels <;> decide

/-- The lines of the block. -/
theorem split_features (ls : List FeatureLine) (rest : Text) :
    ∀ s, split (s ++ (ls.flatMap (fun l => '\n' :: l.text labels) ++ '\n' :: rest)) =
      split s ++ (ls.map (FeatureLine.text labels) ++ split rest) := by
  induction ls with
  | nil => exact fun s => split_append s rest
  | cons l ls ih =>
    intro s
    rw [List.flatMap_cons, List.cons_append, List.cons_append, split_append, List.append_assoc, ih,
      split_of_not_mem l.newline_not_mem]
    rfl

/-- What the block says. -/
def Block.entries (B : Block) (labels : Name → Characterization) :
    List (Feature × Characterization) :=
  B.features.map fun l => (l.feature, l.shown labels)

theorem reads_features (ls : List FeatureLine) :
    Features.Reads (ls.map fun l => l.text labels ++ ['\n'])
      (ls.map fun l => (l.feature, l.shown labels)) := by
  induction ls with
  | nil => exact .nil
  | cons l ls ih => exact .entry l.written ih

/-- The third reader finds the features of the block. -/
theorem features_headerFile {t : Text} {entries : List Entry} (hlines : before.map PlainText.text =
      split (t ++ (Block.opening ++
        (B.features.flatMap (fun l => '\n' :: l.text labels) ++ Block.closing))))
    (hblock : ¬ "BEGIN_MPI_FEATURES".toList <:+: t)
    (hfew : (Features.withChara .Yes (B.entries labels)).length ≤ 4) (file : Text) :
    Features.parseFileFeatures file (headerFile before after entries) =
      .ok (Features.withChara .Yes (B.entries labels),
        Features.withChara .Lacking (B.entries labels)) := by
  rw [Features.parseFileFeatures_ok_iff]
  refine ⟨_, _, ?_, reads_features B.features, rfl, rfl, hfew⟩
  have hsplit : before.map PlainText.text = split t ++ ("BEGIN_MPI_FEATURES".toList ::
      (B.features.map (FeatureLine.text labels) ++ ["END_MPI_FEATURES".toList, []])) := by
    rw [hlines, Block.opening, Block.closing, List.cons_append, split_append,
      split_features]
    have hbegin : split "BEGIN_MPI_FEATURES".toList = ["BEGIN_MPI_FEATURES".toList] := by
      decide
    have hend : split "END_MPI_FEATURES\n".toList = ["END_MPI_FEATURES".toList, []] := by
      decide
    rw [hbegin, hend]
    rfl
  have hbegin : Features.beginLine = "BEGIN_MPI_FEATURES".toList ++ ['\n'] := by decide
  have hend : Features.endLine = "END_MPI_FEATURES".toList ++ ['\n'] := by decide
  have hmap : before.map (·.text ++ ['\n']) = (before.map PlainText.text).map (· ++ ['\n']) := by
    rw [List.map_map]
    rfl
  rw [readLines_headerFile, hmap, hsplit, List.map_append, List.map_cons, List.map_append,
    List.map_map, ← hbegin]
  refine ⟨(split t).map (· ++ ['\n']), _, by
    rw [List.map_cons, ← hend, List.append_assoc, List.cons_append, List.append_assoc,
      List.cons_append]; rfl, fun hmem => ?_, fun hmem => ?_⟩
  · obtain ⟨l, hl, heq⟩ := List.mem_map.mp hmem
    rw [hbegin] at heq
    obtain rfl := List.append_cancel_right heq
    exact hblock (infix_of_mem_splitOn hl)
  · obtain ⟨l, _, heq⟩ := List.mem_map.mp hmem
    rw [hend] at heq
    have hhead := congrArg List.head? heq
    cases hhead

/-- What the tables need beyond that. -/
structure Listable (value : Name → Option (Document Name Fixed)) (T : Template) (B : Block)
    (a : Announced) (labels : Name → Characterization) : Prop where
  block : T.before = B.document
  labelled : Labelled value B labels
  few : (Features.withChara .Yes (B.entries labels)).length ≤ 4
  intro : ∀ us, Expands value B.intro us → ¬ "BEGIN_MPI_FEATURES".toList <:+: textOf us
  before : ∀ us, Expands value T.before us → ¬ '\n' :: barMark <:+: '\n' :: textOf us
  after : ∀ us, Expands value T.after us → ¬ '\n' :: barMark <:+: '\n' :: textOf us
  note : ∀ us, Expands value [.hole errormsgName] us → ¬ errorWord <+: textOf us ∧
    (okWord <+: textOf us → a = .ok ∧ textOf us = okWord)

/-- No line of the file begins with a bar, if no line of the expansion does. -/
theorem not_barMark_of_lines {ls : List PlainText} {us : Document Name Fixed}
    (hf : ∀ p, Filled p (f p)) (hus : holes us = [])
    (hbar : ¬ '\n' :: barMark <:+: '\n' :: textOf us)
    (hlines : ls.map PlainText.text = split (fixedText ((pieces us).map f))) :
    ∀ p ∈ ls, ¬ barMark <+: p.text := by
  intro p hp
  have hdigits : ∀ c ∈ '\n' :: barMark, c.isDigit = false := by decide
  have hmem : p.text ∈ split (fixedText ((pieces us).map f)) := by
    rw [← hlines]
    exact List.mem_map_of_mem hp
  refine not_prefix_of_mem_split (fun h => hbar ?_) hmem
  rw [textOf_pieces hus]
  exact infix_filled hf hdigits _ ['\n'] h

theorem twoFeatures_listable : Listable (fun x => sampleDictionary.lookup x) twoFeatures
    twoLines (.error .CallMatching (by decide)) fun _ => .Yes := by
  refine ⟨rfl, ?_, by decide, fun us h => ?_, fun us h => ?_, fun us h => ?_, fun us h => ?_⟩
  · have hlines : ∀ l ∈ twoLines.features, ∀ x, l.chara = .inr x → x = featureName := by
      intro l hl
      simp only [twoLines, List.mem_cons, List.not_mem_nil, or_false] at hl
      rcases hl with rfl | rfl
      · exact fun x hx => (Sum.inr.inj hx).symm
      · exact nofun
    intro l hl x hx
    rw [hlines l hl x hx]
    rfl
  · rw [eq_unfolded h (by decide)]
    decide
  · rw [eq_unfolded h (by decide)]
    decide +kernel
  · rw [eq_unfolded h (by decide)]
    decide
  · rw [eq_unfolded h (by decide)]
    have hok : ¬ okWord <+: textOf (unfolded (fun x => sampleDictionary.lookup x)
        (unfolded (fun x => sampleDictionary.lookup x) [.hole errormsgName])) := by decide
    exact ⟨by decide, fun h => absurd h hok⟩

end

end MpiBugs.Announcements
