import MpiBugs.Header
import Mathlib.Data.List.DropRight

/-!
# The second header reader

`parse_file_expected` of `gen_latex.py`: a filter over all lines of a file, the
`ERROR` lines first and the `OK` lines after them.

* `expectation_okLine`: an `OK` line never announces an error;
* `expected_agrees_iff`: on a file that both readers accept they agree iff the
  file's expectation lines are `Aligned` with the outcome lines of its header.
-/

namespace MpiBugs.Expected

open Regex TextFile Header

/-! ## The reader -/

def errorPrefix : Text := "  | ERROR: ".toList
def okPrefix : Text := "  | OK".toList

/-- `[| ]*ERROR: ` -/
def errorNoise : Regex := many (cls isBar) ++ lit "ERROR: ".toList

/-- `str.strip` -/
def strip (t : Text) : Text := (t.dropWhile isSpace).rdropWhile isSpace

/-- What is left of an expectation line; the second pattern is the `okPattern`
of the other reader. -/
def expectation (line : Text) : Text :=
  sub okPattern (fun _ => "OK".toList) (sub errorNoise (fun _ => []) (strip line))

inductive ExpectedError
  | noHeader (file : Text)
  | unexpected (file expected : Text)
  deriving DecidableEq, Repr

def ExpectedError.message : ExpectedError → Text
  | noHeader f => "No 'ERROR' nor 'OK' header in ".toList ++ f
  | unexpected f t =>
    "Unexpected expectation header in ".toList ++ f ++ ": '".toList ++ t ++ "'".toList

def errorLines (ls : List Text) : List Text := ls.filter (errorPrefix.isPrefixOf ·)
def okLines (ls : List Text) : List Text := ls.filter (okPrefix.isPrefixOf ·)

def categoryOf (file expected : Text) : Except ExpectedError Category :=
  match Detail.ofKey expected with
  | none => .error (.unexpected file expected)
  | some d => .ok d.category

/-- `parse_file_expected` on a file with this text. -/
def parseFileExpected (file text : Text) : Except ExpectedError (List Category) :=
  let res := errorLines (readLines text) ++ okLines (readLines text)
  if res.length = 0 then .error (.noHeader file)
  else (res.map expectation).mapM (categoryOf file)

/-! ## Expectation lines -/

/-- The category an expectation line announces. -/
def lineCategory (l : Text) : Option Category := (Detail.ofKey (expectation l)).map Detail.category

theorem rdropWhile_append {p : Char → Bool} {u : Text} (hu : u.rdropWhile p = u) (t : Text) :
    ∃ v, (u ++ t).rdropWhile p = u ++ v := by
  induction t using List.reverseRecOn with
  | nil => exact ⟨[], by simp [hu]⟩
  | append_singleton t c ih =>
    rw [← List.append_assoc]
    by_cases hc : p c
    · rw [List.rdropWhile_concat_pos _ _ _ hc]
      exact ih
    · rw [List.rdropWhile_concat_neg _ _ _ hc, List.append_assoc]
      exact ⟨_, rfl⟩

theorem okPrefix_eq : okPrefix = [' ', ' ', '|', ' ', 'O', 'K'] := String.toList_ofList

theorem strip_okLine {l : Text} (h : okPrefix <+: l) :
    ∃ t, strip l = '|' :: ' ' :: 'O' :: 'K' :: t := by
  obtain ⟨t, rfl⟩ := h
  have hdrop : (okPrefix ++ t).dropWhile isSpace = ['|', ' ', 'O', 'K'] ++ t := by
    rw [okPrefix_eq]
    rfl
  rw [strip, hdrop]
  exact rdropWhile_append (by decide) t

theorem errorNoise_none {s : Text} (h : (s.dropWhile isBar).head? ≠ some 'E') :
    first errorNoise s = none := by
  rw [first_eq_none_iff]
  intro t ht
  simp only [errorNoise, many, append_eq_seq, steps_seq_iff, steps_star_cls_iff,
    steps_lit_iff] at ht
  obtain ⟨s₁, ⟨u, hu, hall, _⟩, hs₁, _⟩ := ht
  rw [String.toList_ofList] at hs₁
  refine h ?_
  rw [hu, hs₁, List.dropWhile_append_of_pos hall]
  rfl

theorem consuming_errorNoise : Consuming errorNoise := by
  intro s t h
  simp only [errorNoise, many, append_eq_seq, steps_seq_iff, steps_star_cls_iff,
    steps_lit_iff] at h
  obtain ⟨s₁, ⟨u, hu, _, _⟩, hs₁, _⟩ := h
  rw [String.toList_ofList] at hs₁
  have hlen := congrArg List.length (hu.trans (congrArg (u ++ ·) hs₁))
  simp at hlen
  omega

theorem consuming_okPattern : Consuming okPattern := by
  intro s t h
  simp only [okPattern, many, append_eq_seq, steps_seq_iff, steps_star_cls_iff,
    steps_lit_iff] at h
  obtain ⟨s₁, ⟨u, hu, _, _⟩, s₂, ⟨hs₁, _⟩, v, hv, _⟩ := h
  rw [String.toList_ofList] at hs₁
  have hlen := congrArg List.length (hu.trans (congrArg (u ++ ·) (hs₁.trans
    (congrArg (['O', 'K'] ++ ·) hv))))
  simp at hlen
  omega

/-- **An `OK` line reads as text that begins with `OK`.** -/
theorem expectation_okLine {l : Text} (h : okPrefix <+: l) :
    ∃ t, expectation l = 'O' :: 'K' :: t := by
  obtain ⟨t, ht⟩ := strip_okLine h
  -- no `ERROR: ` starts within the first four characters
  have hskip : Skips errorNoise ['|', ' ', 'O', 'K'] t :=
    ⟨errorNoise_none (by simp [isBar]), errorNoise_none (by simp [isBar]),
      errorNoise_none (by simp [isBar]), errorNoise_none (by simp [isBar]), trivial⟩
  have hnoise : sub errorNoise (fun _ => []) (strip l) =
      ['|', ' ', 'O', 'K'] ++ sub errorNoise (fun _ => []) t := by
    rw [ht]
    exact sub_of_skips consuming_errorNoise _ hskip
  generalize sub errorNoise (fun _ => []) t = y at hnoise
  have hfirst : first okPattern (['|', ' ', 'O', 'K'] ++ y) = some ⟨y.dropWhile isBlank, []⟩ := by
    refine head?_seq (head?_many_cls isBar _ []) (head?_seq (t := ⟨y, []⟩) ?_
      (head?_many_cls isBlank _ []))
    rw [String.toList_ofList]
    exact head?_lit ['O', 'K'] y []
  refine ⟨sub okPattern (fun _ => "OK".toList) (y.dropWhile isBlank), ?_⟩
  rw [expectation, hnoise, sub_of_first consuming_okPattern _ hfirst, String.toList_ofList]
  rfl

theorem ofKey_ok {t : Text} {d : Detail} (h : Detail.ofKey ('O' :: 'K' :: t) = some d) :
    d = .OK := by
  have hkeys : ∀ d ∈ Detail.all, d.key.take 2 = ['O', 'K'] → d = .OK := by decide +kernel
  have hd := (Detail.ofKey_eq_some_iff _ _).mp h
  exact hkeys d (Detail.mem_all d) (by rw [← hd]; rfl)

/-- The category of an `OK` line, if it has one. -/
theorem lineCategory_okLine {l : Text} {c : Category} (h : okPrefix <+: l)
    (hc : lineCategory l = some c) : c = .FOK := by
  obtain ⟨t, ht⟩ := expectation_okLine h
  obtain ⟨d, hd, rfl⟩ := Option.map_eq_some_iff.mp hc
  rw [ht] at hd
  rw [ofKey_ok hd]
  rfl

/-! ## The two readers compared -/

/-- The category an outcome line of the header gives its test. -/
def outcomeCategory (o : Text) : Option Category :=
  (readOutcome o).map (fun p => p.2.category)

/-- The expectation lines `ls` of a file and the outcome lines `os` of its
header: as many of the one as of the other, the `ERROR` lines of the file have the
categories of the first outcome lines, and no later outcome line expects an error. -/
structure Aligned (ls os : List Text) : Prop where
  count : (errorLines ls).length + (okLines ls).length = os.length
  errors : List.Forall₂ (fun l o => lineCategory l = outcomeCategory o) (errorLines ls)
    (os.take (errorLines ls).length)
  oks : ∀ o ∈ os.drop (errorLines ls).length, ∃ e, readOutcome o = some (e, .OK)

theorem categoryOf_eq_ok_iff (file : Text) (l : Text) (c : Category) :
    categoryOf file (expectation l) = .ok c ↔ lineCategory l = some c := by
  unfold categoryOf lineCategory
  cases Detail.ofKey (expectation l) with
  | none => simp
  | some d => simp

theorem mapM_categoryOf (file : Text) (ls : List Text) (cs : List Category) :
    (ls.map expectation).mapM (categoryOf file) = .ok cs ↔ ls.map lineCategory = cs.map some := by
  induction ls generalizing cs with
  | nil =>
    cases cs with
    | nil => simp [pure, Except.pure]
    | cons c cs => simp [pure, Except.pure]
  | cons l ls ih =>
    rw [List.map_cons, List.mapM_cons, List.map_cons]
    cases hl : categoryOf file (expectation l) with
    | error e =>
      have hnone : ∀ c, lineCategory l ≠ some c := by
        intro c hc
        rw [← categoryOf_eq_ok_iff file, hl] at hc
        cases hc
      cases cs with
      | nil => simp [bind, Except.bind]
      | cons c cs => simp [bind, Except.bind, hnone]
    | ok c =>
      have hc := (categoryOf_eq_ok_iff file l c).mp hl
      cases hrest : (ls.map expectation).mapM (categoryOf file) with
      | error e =>
        have hno : ∀ cs : List Category, ls.map lineCategory ≠ cs.map some := by
          intro cs hcs
          rw [← ih, hrest] at hcs
          cases hcs
        cases cs with
        | nil => simp [bind, Except.bind]
        | cons c' cs => simp [bind, Except.bind, hno]
      | ok cs' =>
        have hcs := (ih cs').mp hrest
        cases cs with
        | nil => simp [bind, Except.bind, pure, Except.pure]
        | cons c' cs =>
          simp only [bind, Except.bind, pure, Except.pure, Except.ok.injEq, List.cons.injEq, hc,
            hcs, List.map_cons, Option.some.injEq]
          rw [List.map_inj_right (fun _ _ => Option.some.inj)]

theorem parseFileExpected_ok {file text : Text} {cs : List Category}
    (h : parseFileExpected file text = .ok cs) :
    (errorLines (readLines text) ++ okLines (readLines text)).map lineCategory = cs.map some := by
  unfold parseFileExpected at h
  simp only at h
  split at h
  · cases h
  · exact (mapM_categoryOf file _ cs).mp h

theorem readTests_categories {filename : Text} {k : Nat} {ps : List (Text × Text)}
    {ts : List Test} (h : readTests filename k ps = some ts) :
    (ps.map (·.2)).map outcomeCategory = (ts.map (·.detail.category)).map some := by
  induction ps generalizing k ts with
  | nil => cases h; rfl
  | cons p ps ih =>
    obtain ⟨c, o⟩ := p
    obtain ⟨e, d, us, ho, hus, rfl⟩ := readTests_cons_iff.mp h
    simp only [List.map_cons, outcomeCategory, ho, Option.map_some, List.cons.injEq, true_and]
    exact ih hus

/-- The categories of the `OK` lines, all of which are read. -/
theorem okLines_categories {ls : List Text} (hread : ∀ l ∈ okLines ls, (lineCategory l).isSome) :
    (okLines ls).map lineCategory = List.replicate (okLines ls).length (some Category.FOK) := by
  rw [List.eq_replicate_iff]
  refine ⟨List.length_map .., ?_⟩
  intro c hc
  obtain ⟨l, hl, rfl⟩ := List.mem_map.mp hc
  obtain ⟨c, hc⟩ := Option.isSome_iff_exists.mp (hread l hl)
  have hpre : okPrefix <+: l := List.isPrefixOf_iff_prefix.mp (List.mem_filter.mp hl).2
  rw [hc, lineCategory_okLine hpre hc]

theorem outcomeCategory_eq_FOK_iff (o : Text) :
    outcomeCategory o = some .FOK ↔ ∃ e, readOutcome o = some (e, .OK) := by
  unfold outcomeCategory
  rw [Option.map_eq_some_iff]
  constructor
  · rintro ⟨⟨e, d⟩, h, hd⟩
    rw [Detail.category_eq_FOK_iff] at hd
    exact ⟨e, by rw [h, ← hd]⟩
  · rintro ⟨e, h⟩
    exact ⟨(e, .OK), h, rfl⟩

theorem map_eq_map_iff_forall₂ {α β γ : Type} {f : α → γ} {g : β → γ} (xs : List α) (ys : List β) :
    xs.map f = ys.map g ↔ List.Forall₂ (fun x y => f x = g y) xs ys := by
  rw [← List.forall₂_eq_eq_eq, List.forall₂_map_left_iff, List.forall₂_map_right_iff]

/-- The whole-file filter gives the categories of the outcome lines. -/
theorem aligned_iff {ls os : List Text} (hread : ∀ l ∈ okLines ls, (lineCategory l).isSome) :
    (errorLines ls ++ okLines ls).map lineCategory = os.map outcomeCategory ↔ Aligned ls os := by
  rw [List.map_append, okLines_categories hread]
  have hsplit : os.map outcomeCategory =
      (os.take (errorLines ls).length).map outcomeCategory ++
        (os.drop (errorLines ls).length).map outcomeCategory := by
    rw [← List.map_append, List.take_append_drop]
  constructor
  · intro h
    have hcount : (errorLines ls).length + (okLines ls).length = os.length := by
      have hlen := congrArg List.length h
      simpa using hlen
    rw [hsplit] at h
    obtain ⟨herr, hok⟩ := List.append_inj h (by simp; omega)
    refine ⟨hcount, (map_eq_map_iff_forall₂ _ _).mp herr, fun o ho => ?_⟩
    rw [← outcomeCategory_eq_FOK_iff]
    exact List.eq_of_mem_replicate (hok ▸ List.mem_map_of_mem ho)
  · rintro ⟨hcount, herr, hok⟩
    rw [hsplit, (map_eq_map_iff_forall₂ _ _).mpr herr]
    congr 1
    symm
    rw [List.eq_replicate_iff]
    refine ⟨by simp; omega, fun c hc => ?_⟩
    obtain ⟨o, ho, rfl⟩ := List.mem_map.mp hc
    exact (outcomeCategory_eq_FOK_iff o).mpr (hok o ho)

/-- **Where the two readers agree.** -/
theorem expected_agrees_iff {file text : Text} {ts : List Test} {cs : List Category}
    (hts : parseOneCode file text = .ok ts) (hcs : parseFileExpected file text = .ok cs) :
    cs = ts.map (·.detail.category) ↔
      ∃ ps, HasHeader (readLines text) ps ∧ Aligned (readLines text) (ps.map (·.2)) := by
  obtain ⟨ps, hps, _, hread⟩ := (parseOneCode_ok_iff file text ts).mp hts
  have hlines := parseFileExpected_ok hcs
  have hsome : ∀ l ∈ okLines (readLines text), (lineCategory l).isSome := by
    intro l hl
    have hmem := List.mem_map_of_mem (f := lineCategory)
      (List.mem_append_right (errorLines (readLines text)) hl)
    rw [hlines] at hmem
    obtain ⟨c, _, hc⟩ := List.mem_map.mp hmem
    rw [← hc]
    rfl
  have hiff : cs = ts.map (·.detail.category) ↔ Aligned (readLines text) (ps.map (·.2)) := by
    rw [← aligned_iff hsome, hlines, readTests_categories hread,
      List.map_inj_right (fun _ _ => Option.some.inj)]
  rw [hiff]
  constructor
  · exact fun h => ⟨ps, hps, h⟩
  · rintro ⟨qs, hqs, h⟩
    rwa [hasHeader_unique hps hqs]

/-- A single erroneous test: the readers agree, its line being aligned with itself. -/
def oneError : Text :=
  unlines [beginMark, [' ', ' ', '$', ' ', 'c'], errorPrefix ++ Detail.key .CallMatching, endMark]

theorem oneError_agrees : ([.DMatch] : List Category) =
    ([⟨['a'], 0, ['c'], .ERROR, .CallMatching⟩] : List Test).map (·.detail.category) ↔
      ∃ ps, HasHeader (readLines oneError) ps ∧ Aligned (readLines oneError) (ps.map (·.2)) :=
  @expected_agrees_iff ['a'] oneError _ _ (by decide +kernel) (by decide +kernel)

/-- A correct test whose note also reads `OK`, as the generators write it. -/
def okTwice : Text :=
  unlines [beginMark, [' ', ' ', '$', ' ', 'c'], okPrefix, okPrefix, endMark]

/-- **The readers disagree:** one test for the one, two for the other. -/
theorem okTwice_disagrees :
    parseOneCode ['a'] okTwice = .ok [⟨['a'], 0, ['c'], .OK, .OK⟩] ∧
      parseFileExpected ['a'] okTwice = .ok [.FOK, .FOK] ∧
      ([.FOK, .FOK] : List Category) ≠
        ([⟨['a'], 0, ['c'], .OK, .OK⟩] : List Test).map (·.detail.category) := by
  refine ⟨by decide +kernel, by decide +kernel, by decide⟩

end MpiBugs.Expected
