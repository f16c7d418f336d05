import MpiBugs.Header

/-!
# The header grammar

The grammar of test headers in its own terms (one BEGIN line, later one END
line, commands between them each followed at once by a proper outcome line),
against what `parse_one_code` accepts.

* `okContinued_iff`, `keyThenBlanks_iff`: the outcome lines on which the two
  differ: text after `OK` is not looked at, blanks after a key are not allowed;
* `accepts_iff_grammar_iff`: on a given file the two agree iff it is in neither
  of the two kinds `TooLax` and `TooStrict`.
-/

namespace MpiBugs.HeaderGrammar

open TextFile Header

def ContainsBegin (l : Text) : Prop := beginMark <:+: l
def ContainsEnd (l : Text) : Prop := endMark <:+: l

/-- Blanks, then `$`. -/
def CommandLine (l : Text) : Prop := ∃ ws t, l = ws ++ '$' :: t ∧ ws ≠ [] ∧ ∀ c ∈ ws, isSpace c

/-- After leading blanks and bars and apart from trailing blanks, exactly `OK`,
or `ERROR:` followed by a key. -/
def ProperOutcome (l : Text) : Prop :=
  ∃ u w v, content l = u ++ (w ++ v) ∧ (∀ c ∈ u, isBar c) ∧ (∀ c ∈ v, isBlank c) ∧
    (w = ['O', 'K'] ∨
      ∃ s d, w = 'E' :: 'R' :: 'R' :: 'O' :: 'R' :: ':' :: (s ++ Detail.key d) ∧
        ∀ c ∈ s, isBlank c)

/-- The lines `ls` fit the grammar, with these parts. -/
structure Fits (ls pre : List Text) (b : Text) (mid : List Text) (e : Text)
    (post : List Text) : Prop where
  lines : ls = pre ++ b :: (mid ++ e :: post)
  beginLine : ContainsBegin b
  endLine : ContainsEnd e
  oneBegin : ∀ l ∈ pre ++ (mid ++ e :: post), ¬ ContainsBegin l
  oneEnd : ∀ l ∈ pre ++ b :: (mid ++ post), ¬ ContainsEnd l
  hasCommand : ∃ c ∈ mid, CommandLine c
  outcomes : ∀ u c v, mid = u ++ c :: v → CommandLine c →
    ∃ o, (v ++ e :: post).head? = some o ∧ ProperOutcome o

def Grammar (ls : List Text) : Prop := ∃ pre b mid e post, Fits ls pre b mid e post

/-- An outcome line that goes on after `OK`. -/
def OkContinued (l : Text) : Prop :=
  ∃ u t, content l = u ++ 'O' :: 'K' :: t ∧ (∀ c ∈ u, isBar c) ∧ ∃ c ∈ t, isBlank c = false

/-- An outcome line with blanks after its key. -/
def KeyThenBlanks (l : Text) : Prop :=
  ∃ u s d v, content l = u ++ 'E' :: 'R' :: 'R' :: 'O' :: 'R' :: ':' :: (s ++ Detail.key d ++ v) ∧
    (∀ c ∈ u, isBar c) ∧ (∀ c ∈ s, isBlank c) ∧ (∀ c ∈ v, isBlank c) ∧ v ≠ []

/-! ## Outcome lines -/

theorem content_split (l : Text) : l = content l ++ l.dropWhile (· != '\n') :=
  List.takeWhile_append_dropWhile.symm

/-- The rest of a line, cut anywhere before its terminator. -/
theorem content_suffix {l x y : Text} (h : content l = x ++ y) :
    l = x ++ (y ++ l.dropWhile (· != '\n')) ∧ content (y ++ l.dropWhile (· != '\n')) = y := by
  have hy : '\n' ∉ y := by
    intro hm
    have hc : '\n' ∈ content l := by rw [h]; exact List.mem_append_right _ hm
    have := List.mem_takeWhile_imp hc
    simp at this
  constructor
  · rw [← List.append_assoc, ← h]
    exact content_split l
  · cases hd : l.dropWhile (· != '\n') with
    | nil => rw [List.append_nil, content_of_not_mem hy]
    | cons c t =>
      have hc := List.head_dropWhile_not (· != '\n') (l := l) (by simp [hd])
      simp only [hd, List.head_cons, bne_eq_false_iff_eq] at hc
      rw [hc, content_append_newline hy]

theorem content_prepend {u : Text} (hu : '\n' ∉ u) (t : Text) :
    content (u ++ t) = u ++ content t := by
  unfold content
  rw [List.takeWhile_append_of_pos]
  intro c hc
  rw [bne_iff_ne]
  rintro rfl
  exact hu hc

theorem bars_no_newline {u : Text} (hu : ∀ c ∈ u, isBar c) : '\n' ∉ u := fun h =>
  absurd (hu _ h) (by decide)

/-- The line without its leading blanks and bars and without its terminator. -/
def stripBars (l : Text) : Text := (content l).dropWhile isBar

theorem stripBars_eq_iff {c : Char} (hc : isBar c = false) (l x : Text) :
    stripBars l = c :: x ↔ ∃ u, content l = u ++ c :: x ∧ ∀ d ∈ u, isBar d := by
  constructor
  · intro h
    refine ⟨(content l).takeWhile isBar, ?_, fun d hd => List.mem_takeWhile_imp hd⟩
    rw [← h]
    exact List.takeWhile_append_dropWhile.symm
  · rintro ⟨u, h, hu⟩
    rw [stripBars, h, List.dropWhile_append_of_pos hu, List.dropWhile_cons_of_neg (by simp [hc])]

theorem readsOk_iff (l : Text) : ReadsOk l ↔ ∃ t, stripBars l = 'O' :: 'K' :: t := by
  constructor
  · rintro ⟨u, t, rfl, hu⟩
    refine ⟨content t, (stripBars_eq_iff (by decide) _ _).mpr ⟨u, ?_, hu⟩⟩
    rw [String.toList_ofList, List.append_assoc, content_prepend (bars_no_newline hu)]
    exact congrArg _ (content_prepend (u := ['O', 'K']) (by decide) t)
  · rintro ⟨t, h⟩
    obtain ⟨u, h, hu⟩ := (stripBars_eq_iff (by decide) _ _).mp h
    rw [(content_suffix h).1]
    exact readsOk_intro hu _

theorem dropBlanks_key {s : Text} (hs : ∀ c ∈ s, isBlank c) (d : Detail) (t : Text) :
    (s ++ d.key ++ t).dropWhile isBlank = d.key ++ t := by
  obtain ⟨c, w, hw⟩ := List.exists_cons_of_ne_nil d.key_ne_nil
  have hc : isBlank c = false := by
    rw [isBlank, beq_eq_false_iff_ne]
    rintro rfl
    exact absurd (d.key_alpha (by rw [hw]; exact List.mem_cons_self ..)) (by decide)
  rw [List.append_assoc, List.dropWhile_append_of_pos hs, hw, List.cons_append,
    List.dropWhile_cons_of_neg (by simp [hc])]

theorem readsError_iff (l : Text) (d : Detail) :
    ReadsError l d ↔ ∃ s, stripBars l = 'E' :: 'R' :: 'R' :: 'O' :: 'R' :: ':' :: (s ++ d.key) ∧
      ∀ c ∈ s, isBlank c := by
  constructor
  · rintro ⟨u, t, rfl, hu, hd⟩
    refine ⟨t.takeWhile isBlank, (stripBars_eq_iff (by decide) _ _).mpr ⟨u, ?_, hu⟩,
      fun c hc => List.mem_takeWhile_imp hc⟩
    have ht : content t = t.takeWhile isBlank ++ d.key := by
      rw [← hd, ← content_prepend, List.takeWhile_append_dropWhile]
      intro h
      exact absurd (List.mem_takeWhile_imp h) (by decide)
    rw [String.toList_ofList, List.append_assoc, content_prepend (bars_no_newline hu), ← ht]
    exact congrArg _ (content_prepend (u := ['E', 'R', 'R', 'O', 'R', ':']) (by decide) t)
  · rintro ⟨s, h, hs⟩
    obtain ⟨u, h, hu⟩ := (stripBars_eq_iff (by decide) _ _).mp h
    have hsplit : content l = (u ++ 'E' :: 'R' :: 'R' :: 'O' :: 'R' :: ':' :: s) ++ d.key := by
      rw [h]
      simp
    obtain ⟨hl, hkey⟩ := content_suffix hsplit
    rw [hl, List.append_assoc]
    refine readsError_intro (t := s ++ (d.key ++ l.dropWhile (· != '\n'))) hu ?_
    rw [← List.append_assoc, dropBlanks_key hs, hkey]

theorem readOutcome_isSome_iff (l : Text) :
    (readOutcome l).isSome ↔ ReadsOk l ∨ ∃ d, ReadsError l d := by
  rw [Option.isSome_iff_exists]
  constructor
  · rintro ⟨⟨e, d⟩, h⟩
    rcases (readOutcome_eq_some_iff l e d).mp h with ⟨h, _⟩ | ⟨h, _⟩
    · exact Or.inl h
    · exact Or.inr ⟨d, h⟩
  · rintro (h | ⟨d, h⟩)
    · exact ⟨_, (readOutcome_eq_some_iff l .OK .OK).mpr (Or.inl ⟨h, rfl, rfl⟩)⟩
    · exact ⟨_, (readOutcome_eq_some_iff l .ERROR d).mpr (Or.inr ⟨h, rfl⟩)⟩

theorem properOutcome_iff (l : Text) :
    ProperOutcome l ↔ (∃ v, stripBars l = 'O' :: 'K' :: v ∧ ∀ c ∈ v, isBlank c) ∨
      ∃ s d v, stripBars l = 'E' :: 'R' :: 'R' :: 'O' :: 'R' :: ':' :: (s ++ Detail.key d ++ v) ∧
        (∀ c ∈ s, isBlank c) ∧ ∀ c ∈ v, isBlank c := by
  constructor
  · rintro ⟨u, w, v, h, hu, hv, rfl | ⟨s, d, rfl, hs⟩⟩
    · exact Or.inl ⟨v, (stripBars_eq_iff (by decide) _ _).mpr ⟨u, h, hu⟩, hv⟩
    · exact Or.inr ⟨s, d, v, (stripBars_eq_iff (by decide) _ _).mpr ⟨u, h, hu⟩, hs, hv⟩
  · rintro (⟨v, h, hv⟩ | ⟨s, d, v, h, hs, hv⟩)
    · obtain ⟨u, h, hu⟩ := (stripBars_eq_iff (by decide) _ _).mp h
      exact ⟨u, _, v, h, hu, hv, Or.inl rfl⟩
    · obtain ⟨u, h, hu⟩ := (stripBars_eq_iff (by decide) _ _).mp h
      exact ⟨u, _, v, h, hu, hv, Or.inr ⟨s, d, rfl, hs⟩⟩

theorem okContinued_iff (l : Text) :
    OkContinued l ↔ ∃ t, stripBars l = 'O' :: 'K' :: t ∧ ∃ c ∈ t, isBlank c = false := by
  constructor
  · rintro ⟨u, t, h, hu, ht⟩
    exact ⟨t, (stripBars_eq_iff (by decide) _ _).mpr ⟨u, h, hu⟩, ht⟩
  · rintro ⟨t, h, ht⟩
    obtain ⟨u, h, hu⟩ := (stripBars_eq_iff (by decide) _ _).mp h
    exact ⟨u, t, h, hu, ht⟩

theorem keyThenBlanks_iff (l : Text) :
    KeyThenBlanks l ↔ ∃ s d v,
      stripBars l = 'E' :: 'R' :: 'R' :: 'O' :: 'R' :: ':' :: (s ++ Detail.key d ++ v) ∧
        (∀ c ∈ s, isBlank c) ∧ (∀ c ∈ v, isBlank c) ∧ v ≠ [] := by
  constructor
  · rintro ⟨u, s, d, v, h, hu, hs, hv, hne⟩
    exact ⟨s, d, v, (stripBars_eq_iff (by decide) _ _).mpr ⟨u, h, hu⟩, hs, hv, hne⟩
  · rintro ⟨s, d, v, h, hs, hv, hne⟩
    obtain ⟨u, h, hu⟩ := (stripBars_eq_iff (by decide) _ _).mp h
    exact ⟨u, s, d, v, h, hu, hs, hv, hne⟩

/-- **What the reader lets pass too much:** text after `OK`. -/
theorem proper_iff_not_continued {l : Text} (h : (readOutcome l).isSome) :
    ProperOutcome l ↔ ¬ OkContinued l := by
  rw [okContinued_iff, properOutcome_iff]
  rw [readOutcome_isSome_iff, readsOk_iff] at h
  rcases h with ⟨t, ht⟩ | ⟨d, hd⟩
  · constructor
    · rintro (⟨v, hv, hblank⟩ | ⟨s, d, v, hv, _⟩) ⟨t', ht', c, hc, hcb⟩
      · rw [hv] at ht'
        simp only [List.cons.injEq, true_and] at ht'
        rw [hblank c (ht' ▸ hc)] at hcb
        cases hcb
      · rw [ht] at hv
        simp at hv
    · intro hno
      refine Or.inl ⟨t, ht, fun c hc => ?_⟩
      cases hb : isBlank c with
      | true => rfl
      | false => exact absurd ⟨t, ht, c, hc, hb⟩ hno
  · obtain ⟨s, hs, hblank⟩ := (readsError_iff l d).mp hd
    constructor
    · rintro _ ⟨t, ht, _⟩
      rw [hs] at ht
      simp at ht
    · exact fun _ => Or.inr ⟨s, d, [], by rw [hs, List.append_nil], hblank, by simp⟩

/-- **What the reader refuses too much:** blanks after a key. -/
theorem read_iff_not_keyThenBlanks {l : Text} (h : ProperOutcome l) :
    (readOutcome l).isSome ↔ ¬ KeyThenBlanks l := by
  rw [keyThenBlanks_iff, readOutcome_isSome_iff, readsOk_iff]
  simp only [readsError_iff]
  rcases (properOutcome_iff l).mp h with ⟨v, hv, _⟩ | ⟨s, d, v, hv, hs, hblank⟩
  · simp [hv]
  · constructor
    · rintro (⟨t, ht⟩ | ⟨d', s', hd', hs'⟩) ⟨s₂, d₂, v₂, h₂, hs₂, hv₂, hne⟩
      · rw [ht] at hv
        simp at hv
      · rw [hd'] at h₂
        simp only [List.cons.injEq, true_and] at h₂
        have hdrop := congrArg (List.dropWhile isBlank) h₂
        rw [dropBlanks_key hs₂, ← List.append_nil (s' ++ d'.key), dropBlanks_key hs',
          List.append_nil] at hdrop
        obtain ⟨c, w, rfl⟩ := List.exists_cons_of_ne_nil hne
        have hc := hv₂ c (List.mem_cons_self ..)
        have halpha := d'.key_alpha (c := c) (by rw [hdrop]; simp)
        rw [isBlank, beq_iff_eq] at hc
        rw [hc] at halpha
        exact absurd halpha (by decide)
    · intro hno
      have hnil : v = [] := by
        by_contra hne
        exact hno ⟨s, d, v, hv, hs, hblank, hne⟩
      exact Or.inr ⟨d, s, by rw [hv, hnil, List.append_nil], hs⟩

/-! ## Kinds of lines -/

theorem isLine_content {l : Text} (hl : IsLine l) : l = content l ∨ l = content l ++ ['\n'] := by
  have hsplit := content_split l
  cases hd : l.dropWhile (· != '\n') with
  | nil => rw [hd, List.append_nil] at hsplit; exact Or.inl hsplit
  | cons c t =>
    have hc := List.head_dropWhile_not (· != '\n') (l := l) (by simp [hd])
    simp only [hd, List.head_cons, bne_eq_false_iff_eq] at hc
    rw [hd, hc] at hsplit
    cases t with
    | nil => exact Or.inr hsplit
    | cons d t =>
      rw [hsplit, ← List.singleton_append, ← List.append_assoc] at hl
      exact absurd (hl.not_mem_left (by simp)) (by simp)

theorem unmarked_iff {l : Text} (hl : IsLine l) :
    Unmarked l ↔ ¬ ContainsBegin l ∧ ¬ ContainsEnd l := by
  rw [Unmarked, Bool.eq_false_iff, Bool.eq_false_iff, ne_eq, ne_eq, isBegin_iff hl, isEnd_iff hl]
  rfl

/-- A proper outcome line has neither underscores nor dollars. -/
theorem ProperOutcome.not_mem {l : Text} (h : ProperOutcome l) (hl : IsLine l) {c : Char}
    (hc : c = '_' ∨ c = '$') : c ∉ l := by
  have halpha : c.isAlpha = false := by rcases hc with rfl | rfl <;> decide
  have hbar : isBar c = false := by rcases hc with rfl | rfl <;> decide
  have hblank : isBlank c = false := by rcases hc with rfl | rfl <;> decide
  have hcolon : c ≠ ':' := by rcases hc with rfl | rfl <;> decide
  have hnl : c ≠ '\n' := by rcases hc with rfl | rfl <;> decide
  have hclass : ∀ {p : Char → Bool} {u : Text}, p c = false → (∀ d ∈ u, p d = true) → c ∉ u := by
    intro p u hp hu hm
    rw [hu c hm] at hp
    cases hp
  have hlet : ∀ {d : Char}, d.isAlpha = true → c ≠ d := by
    rintro d hd rfl
    rw [hd] at halpha
    cases halpha
  have hcontent : c ∉ content l := by
    obtain ⟨u, w, v, h, hu, hv, hw⟩ := h
    rw [h, List.mem_append, List.mem_append]
    rintro (hm | hm | hm)
    · exact hclass hbar hu hm
    · rcases hw with rfl | ⟨s, d, rfl, hs⟩
      · simp only [List.mem_cons, List.not_mem_nil, or_false] at hm
        rcases hm with rfl | rfl <;> exact hlet (by decide) rfl
      · simp only [List.mem_cons, List.mem_append] at hm
        rcases hm with rfl | rfl | rfl | rfl | rfl | rfl | hm | hm
        · exact hlet (by decide) rfl
        · exact hlet (by decide) rfl
        · exact hlet (by decide) rfl
        · exact hlet (by decide) rfl
        · exact hlet (by decide) rfl
        · exact hcolon rfl
        · exact hclass hblank hs hm
        · exact hclass halpha (fun _ => d.key_alpha) hm
    · exact hclass hblank hv hm
  rcases isLine_content hl with h' | h'
  · rwa [h']
  · rw [h', List.mem_append]
    simp [hcontent, hnl]

theorem ProperOutcome.unmarked {l : Text} (h : ProperOutcome l) (hl : IsLine l) : Unmarked l := by
  have hno := h.not_mem hl (Or.inl rfl)
  rw [unmarked_iff hl]
  exact ⟨fun hw => hno (hw.subset (by simp [beginMark_eq])),
    fun hw => hno (hw.subset (by simp [endMark_eq]))⟩

theorem ProperOutcome.not_command {l : Text} (h : ProperOutcome l) (hl : IsLine l) :
    isCommand l = false := by
  rw [Bool.eq_false_iff, ne_eq, isCommand_iff]
  rintro ⟨ws, t, rfl, _⟩
  exact h.not_mem hl (Or.inr rfl) (by simp)

/-- A line read as an outcome is no command line. -/
theorem read_not_command {l : Text} (hl : IsLine l) (h : (readOutcome l).isSome) :
    isCommand l = false := by
  rw [Bool.eq_false_iff, ne_eq, isCommand_iff]
  rintro ⟨ws, t, rfl, _, hws⟩
  have hnl : '\n' ∉ ws := hl.not_mem_left (by simp)
  have hcontent : content (ws ++ '$' :: t) = ws ++ '$' :: content t := by
    rw [content_prepend hnl]
    exact congrArg _ (content_prepend (u := ['$']) (by decide) t)
  have hhead : ∃ c x, stripBars (ws ++ '$' :: t) = c :: x ∧ (c = 'O' ∨ c = 'E') := by
    rw [readOutcome_isSome_iff, readsOk_iff] at h
    rcases h with ⟨x, hx⟩ | ⟨d, hd⟩
    · exact ⟨_, _, hx, Or.inl rfl⟩
    · obtain ⟨s, hs, _⟩ := (readsError_iff _ d).mp hd
      exact ⟨_, _, hs, Or.inr rfl⟩
  obtain ⟨c, x, hx, hc⟩ := hhead
  have hcbar : isBar c = false := by rcases hc with rfl | rfl <;> decide
  obtain ⟨u, hu, hbars⟩ := (stripBars_eq_iff hcbar _ _).mp hx
  -- skip blanks and bars in both readings of the line
  have hskip := congrArg (List.dropWhile (fun c => isSpace c || isBar c)) (hcontent.symm.trans hu)
  rw [List.dropWhile_append_of_pos (by intro d hd; simp [hws d hd]),
    List.dropWhile_append_of_pos (by intro d hd; simp [hbars d hd]),
    List.dropWhile_cons_of_neg (by decide),
    List.dropWhile_cons_of_neg (by rcases hc with rfl | rfl <;> decide)] at hskip
  rcases hc with rfl | rfl <;> simp at hskip

/-! ## Between the markers -/

/-- The lines between the two markers, with their pairs of command and outcome lines. -/
inductive Body : List Text → List (Text × Text) → Prop
  | nil : Body [] []
  | note {l : Text} {ls : List Text} {ps : List (Text × Text)} : Unmarked l →
      isCommand l = false → Body ls ps → Body (l :: ls) ps
  | test {c o : Text} {ls : List Text} {ps : List (Text × Text)} : Unmarked c →
      isCommand c = true → Body ls ps → Body (c :: o :: ls) ((c, o) :: ps)

theorem closed_iff (rest : List Text) (ps : List (Text × Text)) :
    Closed rest ps ↔ ∃ mid e post, rest = mid ++ e :: post ∧ Body mid ps ∧
      isBegin e = false ∧ isEnd e = true ∧ ∀ l ∈ post, Unmarked l := by
  constructor
  · intro h
    induction h with
    | close hb he hpost => exact ⟨[], _, _, rfl, .nil, hb, he, hpost⟩
    | note hl hc _ ih =>
      obtain ⟨mid, e, post, rfl, hmid, h⟩ := ih
      exact ⟨_ :: mid, e, post, rfl, .note hl hc hmid, h⟩
    | test hl hc _ ih =>
      obtain ⟨mid, e, post, rfl, hmid, h⟩ := ih
      exact ⟨_ :: _ :: mid, e, post, rfl, .test hl hc hmid, h⟩
  · rintro ⟨mid, e, post, rfl, hmid, hb, he, hpost⟩
    induction hmid with
    | nil => exact .close hb he hpost
    | note hl hc _ ih => exact .note hl hc ih
    | test hl hc _ ih => exact .test hl hc ih

/-- The pairs of a body are a command line of it and the line after it. -/
theorem body_pair {mid : List Text} {ps : List (Text × Text)} (h : Body mid ps)
    {p : Text × Text} (hp : p ∈ ps) :
    isCommand p.1 = true ∧ ∃ u v, mid = u ++ p.1 :: p.2 :: v := by
  induction h with
  | nil => simp at hp
  | @note l ls ps _ _ _ ih =>
    obtain ⟨hc, u, v, rfl⟩ := ih hp
    exact ⟨hc, l :: u, v, rfl⟩
  | @test c o ls ps _ hc _ ih =>
    rcases List.mem_cons.mp hp with rfl | hp
    · exact ⟨hc, [], ls, rfl⟩
    · obtain ⟨hc, u, v, rfl⟩ := ih hp
      exact ⟨hc, c :: o :: u, v, rfl⟩

/-- If no outcome line looks like a command, every command line starts a pair. -/
theorem pair_of_command {mid : List Text} {ps : List (Text × Text)} (h : Body mid ps)
    (hno : ∀ p ∈ ps, isCommand p.2 = false) {u v : List Text} {c : Text}
    (hsplit : mid = u ++ c :: v) (hc : isCommand c = true) :
    ∃ o w, v = o :: w ∧ (c, o) ∈ ps := by
  induction h generalizing u with
  | nil => simp at hsplit
  | @note l ls ps _ hl _ ih =>
    cases u with
    | nil =>
      obtain ⟨rfl, _⟩ := List.cons.inj hsplit
      rw [hl] at hc
      cases hc
    | cons l' u => exact ih hno (List.cons.inj hsplit).2
  | @test c' o ls ps _ _ _ ih =>
    have htail : ∀ p ∈ ps, isCommand p.2 = false := fun p hp => hno p (List.mem_cons_of_mem _ hp)
    match u with
    | [] =>
      obtain ⟨rfl, rfl⟩ := List.cons.inj hsplit
      exact ⟨o, ls, rfl, List.mem_cons_self ..⟩
    | [l] =>
      have ho : o = c := (List.cons.inj (List.cons.inj hsplit).2).1
      have hcmd := hno _ (List.mem_cons_self ..)
      rw [ho, hc] at hcmd
      cases hcmd
    | _ :: _ :: u =>
      obtain ⟨o', w, hw, hm⟩ := ih htail (List.cons.inj (List.cons.inj hsplit).2).2
      exact ⟨o', w, hw, List.mem_cons_of_mem _ hm⟩

theorem body_unmarked {mid : List Text} {ps : List (Text × Text)} (h : Body mid ps)
    (hout : ∀ p ∈ ps, Unmarked p.2) : ∀ l ∈ mid, Unmarked l := by
  induction h with
  | nil => simp
  | note hl _ _ ih => exact List.forall_mem_cons.mpr ⟨hl, ih hout⟩
  | test hc _ _ ih =>
    obtain ⟨ho, hps⟩ := List.forall_mem_cons.mp hout
    exact List.forall_mem_cons.mpr ⟨hc, List.forall_mem_cons.mpr ⟨ho, ih hps⟩⟩

/-! ## Files that fit the grammar -/

theorem commandLine_iff (l : Text) : CommandLine l ↔ isCommand l = true := (isCommand_iff l).symm

/-- The body of a file that fits, with proper outcome lines throughout. -/
theorem body_of_proper {e : Text} {post : List Text} (he : ¬ Unmarked e) (m : Nat) :
    ∀ mid : List Text, mid.length ≤ m → (∀ l ∈ mid ++ e :: post, IsLine l) →
      (∀ l ∈ mid, Unmarked l) →
      (∀ u c v, mid = u ++ c :: v → CommandLine c →
        ∃ o, (v ++ e :: post).head? = some o ∧ ProperOutcome o) →
      ∃ qs, Body mid qs ∧ ∀ q ∈ qs, ProperOutcome q.2 := by
  induction m with
  | zero =>
    intro mid hlen _ _ _
    rw [List.eq_nil_of_length_eq_zero (Nat.le_zero.mp hlen)]
    exact ⟨[], .nil, by simp⟩
  | succ m ih =>
    intro mid hlen hline hun hout
    match mid with
    | [] => exact ⟨[], .nil, by simp⟩
    | l :: ls =>
      simp only [List.length_cons, Nat.add_le_add_iff_right] at hlen
      obtain ⟨hl, hls⟩ := List.forall_mem_cons.mp hun
      have hsuffix : ∀ u c v, ls = u ++ c :: v → CommandLine c →
          ∃ o, (v ++ e :: post).head? = some o ∧ ProperOutcome o := by
        intro u c v h hc
        exact hout (l :: u) c v (by rw [h]; rfl) hc
      have hline' : ∀ x ∈ ls ++ e :: post, IsLine x := fun x hx =>
        hline x (List.mem_cons_of_mem _ hx)
      cases hc : isCommand l with
      | false =>
        obtain ⟨qs, hqs, hproper⟩ := ih ls hlen hline' hls hsuffix
        exact ⟨qs, .note hl hc hqs, hproper⟩
      | true =>
        obtain ⟨o, ho, hproper⟩ := hout [] l ls rfl ((commandLine_iff l).mpr hc)
        match ls with
        | [] =>
          -- the line after the command is the END line, which is no outcome
          obtain rfl : e = o := Option.some.inj ho
          exact absurd (hproper.unmarked (hline' e (by simp))) he
        | o' :: ls =>
          obtain rfl : o' = o := Option.some.inj ho
          obtain ⟨qs, hqs, hrest⟩ := ih ls (by simp at hlen; omega)
            (fun x hx => hline' x (List.mem_cons_of_mem _ hx))
            (List.forall_mem_cons.mp hls).2
            (fun u c v h hc => hsuffix (o' :: u) c v (by rw [h]; rfl) hc)
          exact ⟨(l, o') :: qs, .test hl hc hqs, List.forall_mem_cons.mpr ⟨hproper, hrest⟩⟩

section Parts

variable {ls pre : List Text} {b : Text} {mid : List Text} {e : Text} {post : List Text}

theorem Fits.isLine (h : Fits ls pre b mid e post) (hls : ∀ l ∈ ls, IsLine l) :
    (∀ l ∈ pre, IsLine l) ∧ IsLine b ∧ (∀ l ∈ mid, IsLine l) ∧ IsLine e ∧
      ∀ l ∈ post, IsLine l := by
  rw [h.lines] at hls
  simp only [List.mem_append, List.mem_cons] at hls
  refine ⟨fun l hl => hls l (by simp [hl]), hls b (by simp), fun l hl => hls l (by simp [hl]),
    hls e (by simp), fun l hl => hls l (by simp [hl])⟩

/-- The markers of a file that fits, as the reader sees them. -/
theorem Fits.markers (h : Fits ls pre b mid e post) (hls : ∀ l ∈ ls, IsLine l) :
    (∀ l ∈ pre, Unmarked l) ∧ isBegin b = true ∧ (∀ l ∈ mid, Unmarked l) ∧
      isBegin e = false ∧ isEnd e = true ∧ ∀ l ∈ post, Unmarked l := by
  obtain ⟨hpre, hb, hmid, he, hpost⟩ := h.isLine hls
  refine ⟨fun l hl => ?_, (isBegin_iff hb).mpr h.beginLine, fun l hl => ?_, ?_,
    (isEnd_iff he).mpr h.endLine, fun l hl => ?_⟩
  · exact (unmarked_iff (hpre l hl)).mpr ⟨h.oneBegin l (by simp [hl]), h.oneEnd l (by simp [hl])⟩
  · exact (unmarked_iff (hmid l hl)).mpr ⟨h.oneBegin l (by simp [hl]), h.oneEnd l (by simp [hl])⟩
  · rw [Bool.eq_false_iff, ne_eq, isBegin_iff he]
    exact h.oneBegin e (by simp)
  · exact (unmarked_iff (hpost l hl)).mpr ⟨h.oneBegin l (by simp [hl]), h.oneEnd l (by simp [hl])⟩

theorem Fits.body (h : Fits ls pre b mid e post) (hls : ∀ l ∈ ls, IsLine l) :
    ∃ qs, Body mid qs ∧ qs ≠ [] ∧ ∀ q ∈ qs, ProperOutcome q.2 := by
  obtain ⟨_, _, hmid, he, hpost⟩ := h.isLine hls
  obtain ⟨_, _, hun, _, hend, _⟩ := h.markers hls
  have hmarked : ¬ Unmarked e := fun hu => by rw [hu.2] at hend; cases hend
  obtain ⟨qs, hqs, hproper⟩ := body_of_proper hmarked mid.length mid le_rfl
    (by
      intro l hl
      rcases List.mem_append.mp hl with hl | hl
      · exact hmid l hl
      · rcases List.mem_cons.mp hl with rfl | hl
        · exact he
        · exact hpost l hl) hun h.outcomes
  refine ⟨qs, hqs, ?_, hproper⟩
  rintro rfl
  obtain ⟨c, hc, hcmd⟩ := h.hasCommand
  obtain ⟨u, v, hsplit⟩ := List.append_of_mem hc
  obtain ⟨o, w, _, hm⟩ := pair_of_command hqs (by simp) hsplit ((commandLine_iff c).mp hcmd)
  simp at hm

/-- Conversely the markers and a body with proper outcomes make a file that fits. -/
theorem fits_of_body {qs : List (Text × Text)} (hlines : ls = pre ++ b :: (mid ++ e :: post))
    (hls : ∀ l ∈ ls, IsLine l) (hpre : ∀ l ∈ pre, Unmarked l) (hb : isBegin b = true)
    (hbe : ¬ ContainsEnd b) (hmid : Body mid qs) (hne : qs ≠ [])
    (hproper : ∀ q ∈ qs, ProperOutcome q.2) (heb : isBegin e = false) (he : isEnd e = true)
    (hpost : ∀ l ∈ post, Unmarked l) : Fits ls pre b mid e post := by
  have hline : ∀ l, l ∈ pre ∨ l = b ∨ l ∈ mid ∨ l = e ∨ l ∈ post → IsLine l := by
    intro l hl
    exact hls l (by rw [hlines]; simpa using hl)
  have hout : ∀ q ∈ qs, IsLine q.2 := by
    intro q hq
    obtain ⟨_, u, v, hsplit⟩ := body_pair hmid hq
    exact hline _ (by simp [hsplit])
  have hun : ∀ l ∈ mid, Unmarked l :=
    body_unmarked hmid (fun q hq => (hproper q hq).unmarked (hout q hq))
  have hplain : ∀ l, l ∈ pre ∨ l ∈ mid ∨ l ∈ post → ¬ ContainsBegin l ∧ ¬ ContainsEnd l := by
    rintro l (hl | hl | hl)
    · exact (unmarked_iff (hline l (by simp [hl]))).mp (hpre l hl)
    · exact (unmarked_iff (hline l (by simp [hl]))).mp (hun l hl)
    · exact (unmarked_iff (hline l (by simp [hl]))).mp (hpost l hl)
  refine ⟨hlines, ?_, ?_, ?_, ?_, ?_, ?_⟩
  · exact (isBegin_iff (hline b (by simp))).mp hb
  · exact (isEnd_iff (hline e (by simp))).mp he
  · intro l hl
    simp only [List.mem_append, List.mem_cons] at hl
    rcases hl with hl | hl | rfl | hl
    · exact (hplain l (by simp [hl])).1
    · exact (hplain l (by simp [hl])).1
    · intro h
      have := (isBegin_iff (hline l (by simp))).mpr h
      rw [heb] at this
      cases this
    · exact (hplain l (by simp [hl])).1
  · intro l hl
    simp only [List.mem_append, List.mem_cons] at hl
    rcases hl with hl | rfl | hl | hl
    · exact (hplain l (by simp [hl])).2
    · exact hbe
    · exact (hplain l (by simp [hl])).2
    · exact (hplain l (by simp [hl])).2
  · obtain ⟨q, qs, rfl⟩ := List.exists_cons_of_ne_nil hne
    obtain ⟨hc, u, v, hsplit⟩ := body_pair hmid (List.mem_cons_self ..)
    exact ⟨q.1, by simp [hsplit], (commandLine_iff _).mpr hc⟩
  · intro u c v hsplit hc
    obtain ⟨o, w, rfl, hm⟩ := pair_of_command hmid
      (fun q hq => (hproper q hq).not_command (hout q hq)) hsplit ((commandLine_iff c).mp hc)
    exact ⟨o, rfl, hproper _ hm⟩

end Parts

/-! ## Files the reader accepts -/

/-- The reader's reading of the lines: the lines before the BEGIN line, that
line, what follows it, and the command and outcome lines found. -/
structure ReadAs (ls pre : List Text) (b : Text) (rest : List Text)
    (ps : List (Text × Text)) : Prop where
  lines : ls = pre ++ b :: rest
  unmarked : ∀ l ∈ pre, Unmarked l
  opened : Opened (b :: rest) ps
  nonempty : ps ≠ []
  read : ∀ p ∈ ps, (readOutcome p.2).isSome

theorem readTests_isSome_iff (filename : Text) (k : Nat) (ps : List (Text × Text)) :
    (∃ ts, readTests filename k ps = some ts) ↔ ∀ p ∈ ps, (readOutcome p.2).isSome := by
  induction ps generalizing k with
  | nil => simp [readTests]
  | cons p ps ih =>
    obtain ⟨c, o⟩ := p
    rw [List.forall_mem_cons, ← ih (k + 1)]
    simp only [readTests_cons_iff, Option.isSome_iff_exists]
    constructor
    · rintro ⟨_, e, d, us, ho, hus, _⟩
      exact ⟨⟨(e, d), ho⟩, us, hus⟩
    · rintro ⟨⟨⟨e, d⟩, ho⟩, us, hus⟩
      exact ⟨_, e, d, us, ho, hus, rfl⟩

theorem accepted_iff (filename text : Text) :
    (∃ ts, parseOneCode filename text = .ok ts) ↔
      ∃ pre b rest ps, ReadAs (readLines text) pre b rest ps := by
  simp only [parseOneCode_ok_iff]
  constructor
  · rintro ⟨ts, ps, ⟨pre, rest, hlines, hpre, hopen⟩, hne, hts⟩
    have hread := (readTests_isSome_iff filename 0 ps).mp ⟨ts, hts⟩
    cases hopen with
    | plain hb hc h => exact ⟨pre, _, _, ps, hlines, hpre, .plain hb hc h, hne, hread⟩
    | command hb hc h => exact ⟨pre, _, _, _, hlines, hpre, .command hb hc h, hne, hread⟩
  · rintro ⟨pre, b, rest, ps, h⟩
    obtain ⟨ts, hts⟩ := (readTests_isSome_iff filename 0 ps).mpr h.read
    exact ⟨ts, ps, ⟨pre, b :: rest, h.lines, h.unmarked, h.opened⟩, h.nonempty, hts⟩

theorem Opened.isBegin {b : Text} {rest : List Text} {ps : List (Text × Text)}
    (h : Opened (b :: rest) ps) : Header.isBegin b = true := by
  cases h with
  | plain hb => exact hb
  | command hb => exact hb

/-- **On a file that fits the reader finds the pairs of the grammar,** and one
more if the BEGIN line looks like a command. -/
theorem readAs_of_fits {ls pre : List Text} {b : Text} {mid : List Text} {e : Text}
    {post pre' : List Text} {b' : Text} {rest : List Text} {qs ps : List (Text × Text)}
    (hls : ∀ l ∈ ls, IsLine l) (h : Fits ls pre b mid e post) (hqs : Body mid qs)
    (h' : ReadAs ls pre' b' rest ps) :
    b' = b ∧ ((isCommand b = false ∧ ps = qs) ∨
      (isCommand b = true ∧ ∃ o mid', mid = o :: mid' ∧ ps = (b, o) :: qs)) := by
  obtain ⟨hpre, hb, hun, heb, he, hpost⟩ := h.markers hls
  obtain ⟨rfl, rfl, rfl⟩ := Regex.split_unique (P := fun l => isBegin l = true)
    (h.lines.symm.trans h'.lines) hb (Opened.isBegin h'.opened)
    (fun l hl => by simp [(hpre l hl).1]) (fun l hl => by simp [(h'.unmarked l hl).1])
  refine ⟨rfl, ?_⟩
  have hopen := h'.opened
  cases hmid : mid with
  | nil =>
    obtain ⟨c, hc, _⟩ := h.hasCommand
    rw [hmid] at hc
    simp at hc
  | cons o mid' =>
    rw [hmid] at hopen hqs
    cases hopen with
    | plain _ hc hclosed =>
      refine Or.inl ⟨hc, closed_unique hclosed ?_⟩
      exact (closed_iff _ _).mpr ⟨_, e, post, rfl, hqs, heb, he, hpost⟩
    | @command _ _ _ ps' _ hc hclosed =>
      refine Or.inr ⟨hc, o, mid', rfl, ?_⟩
      have ho : isCommand o = false :=
        read_not_command ((h.isLine hls).2.2.1 o (by simp [hmid]))
          (h'.read (_, o) (List.mem_cons_self ..))
      cases hqs with
      | test _ ho' => rw [ho] at ho'; cases ho'
      | note _ _ hqs =>
        have hclosed' := (closed_iff _ _).mpr ⟨mid', e, post, rfl, hqs, heb, he, hpost⟩
        rw [closed_unique hclosed hclosed']

/-- Accepted and outside the grammar: the BEGIN line also contains the END mark,
or an outcome line goes on after `OK`; where the BEGIN line looks like a command,
also if it is the only one, or if its outcome line is a marker. -/
def TooLax (ls : List Text) : Prop :=
  ∃ pre b rest ps, ReadAs ls pre b rest ps ∧
    (ContainsEnd b ∨
      (isCommand b = false ∧ ∃ p ∈ ps, OkContinued p.2) ∨
      (isCommand b = true ∧
        (ps.tail = [] ∨ (∃ p ∈ ps.tail, OkContinued p.2) ∨
          ∃ p, ps.head? = some p ∧ ¬ Unmarked p.2)))

/-- In the grammar and refused: an outcome line has blanks after its key, or the
BEGIN line looks like a command and no outcome line follows it. -/
def TooStrict (ls : List Text) : Prop :=
  ∃ pre b mid e post, Fits ls pre b mid e post ∧
    ((∃ u c o v, mid = u ++ c :: o :: v ∧ CommandLine c ∧ KeyThenBlanks o) ∨
      (CommandLine b ∧ ∀ o, mid.head? = some o → (readOutcome o).isSome = false))

/-- A reading with proper outcomes, and a plain start, is one of a file that fits. -/
theorem grammar_of_readAs {ls pre : List Text} {b : Text} {rest : List Text}
    {ps : List (Text × Text)} (hls : ∀ l ∈ ls, IsLine l) (h : ReadAs ls pre b rest ps)
    (hbe : ¬ ContainsEnd b) (hplain : isCommand b = false → ∀ p ∈ ps, ¬ OkContinued p.2)
    (hcmd : isCommand b = true → ps.tail ≠ [] ∧ (∀ p ∈ ps.tail, ¬ OkContinued p.2) ∧
      ∀ p, ps.head? = some p → Unmarked p.2) : Grammar ls := by
  have hread := h.read
  have hne := h.nonempty
  cases h.opened with
  | plain hb hc hclosed =>
    obtain ⟨mid, e, post, rfl, hmid, heb, he, hpost⟩ := (closed_iff _ _).mp hclosed
    have hproper : ∀ p ∈ ps, ProperOutcome p.2 := fun p hp =>
      (proper_iff_not_continued (hread p hp)).mpr (hplain hc p hp)
    exact ⟨pre, b, mid, e, post,
      fits_of_body h.lines hls h.unmarked hb hbe hmid hne hproper heb he hpost⟩
  | @command _ o rest ps' hb hc hclosed =>
    obtain ⟨hne', hok, hmark⟩ := hcmd hc
    obtain ⟨mid, e, post, rfl, hmid, heb, he, hpost⟩ := (closed_iff _ _).mp hclosed
    have ho : isCommand o = false :=
      read_not_command (hls o (by simp [h.lines])) (hread (_, o) (List.mem_cons_self ..))
    have hproper : ∀ p ∈ ps', ProperOutcome p.2 := fun p hp =>
      (proper_iff_not_continued (hread p (List.mem_cons_of_mem _ hp))).mpr (hok p hp)
    -- the outcome line of the BEGIN line is a note between the markers
    exact ⟨pre, b, o :: mid, e, post,
      fits_of_body h.lines hls h.unmarked hb hbe (.note (hmark _ rfl) ho hmid) hne' hproper
        heb he hpost⟩

/-- An accepted file fits the grammar unless it is too lax. -/
theorem grammar_iff_of_readAs {ls pre : List Text} {b : Text} {rest : List Text}
    {ps : List (Text × Text)} (hls : ∀ l ∈ ls, IsLine l) (h : ReadAs ls pre b rest ps) :
    Grammar ls ↔ ¬ TooLax ls := by
  constructor
  · rintro ⟨pre₁, b₁, mid, e, post, hfit⟩ ⟨pre₂, b₂, rest₂, ps₂, h₂, hcond⟩
    obtain ⟨qs, hqs, hne, hproper⟩ := hfit.body hls
    have hcont : ∀ q ∈ qs, (readOutcome q.2).isSome → ¬ OkContinued q.2 := fun q hq hr =>
      (proper_iff_not_continued hr).mp (hproper q hq)
    obtain ⟨rfl, hcase⟩ := readAs_of_fits hls hfit hqs h₂
    have hread := h₂.read
    have hnoEnd : ¬ ContainsEnd b₂ := hfit.oneEnd b₂ (by simp)
    rcases hcase with ⟨hc, rfl⟩ | ⟨hc, o, mid', rfl, rfl⟩
    · rcases hcond with hb | ⟨_, p, hp, hok⟩ | ⟨hc', _⟩
      · exact hnoEnd hb
      · exact hcont p hp (hread p hp) hok
      · rw [hc] at hc'
        cases hc'
    · rcases hcond with hb | ⟨hc', _⟩ | ⟨_, hnil | ⟨p, hp, hok⟩ | ⟨p, hp, hmark⟩⟩
      · exact hnoEnd hb
      · rw [hc] at hc'
        cases hc'
      · exact hne hnil
      · exact hcont p hp (hread p (List.mem_cons_of_mem _ hp)) hok
      · obtain rfl := Option.some.inj hp
        exact hmark ((hfit.markers hls).2.2.1 o (List.mem_cons_self ..))
  · intro hno
    have hcond := fun hc => hno ⟨pre, b, rest, ps, h, hc⟩
    refine grammar_of_readAs hls h (fun hb => hcond (Or.inl hb))
      (fun hc p hp hok => hcond (Or.inr (Or.inl ⟨hc, p, hp, hok⟩)))
      (fun hc => ⟨fun hnil => hcond (Or.inr (Or.inr ⟨hc, Or.inl hnil⟩)),
        fun p hp hok => hcond (Or.inr (Or.inr ⟨hc, Or.inr (Or.inl ⟨p, hp, hok⟩)⟩)),
        fun p hp => ?_⟩)
    by_contra hmark
    exact hcond (Or.inr (Or.inr ⟨hc, Or.inr (Or.inr ⟨p, hp, hmark⟩)⟩))

/-- A file that fits is accepted unless the reader is too strict on it. -/
theorem readAs_iff_of_fits {ls pre : List Text} {b : Text} {mid : List Text} {e : Text}
    {post : List Text} (hls : ∀ l ∈ ls, IsLine l) (h : Fits ls pre b mid e post) :
    (∃ pre b rest ps, ReadAs ls pre b rest ps) ↔ ¬ TooStrict ls := by
  constructor
  · rintro ⟨pre₁, b₁, rest, ps, hread⟩ ⟨pre₂, b₂, mid₂, e₂, post₂, hfit, hcond⟩
    obtain ⟨qs, hqs, _, hproper⟩ := hfit.body hls
    have hline := (hfit.isLine hls).2.2.1
    have hpairs : ∀ q ∈ qs, isCommand q.2 = false ∧ ((readOutcome q.2).isSome →
        ¬ KeyThenBlanks q.2) := by
      intro q hq
      obtain ⟨_, u, v, hsplit⟩ := body_pair hqs hq
      exact ⟨(hproper q hq).not_command (hline _ (by simp [hsplit])),
        (read_iff_not_keyThenBlanks (hproper q hq)).mp⟩
    obtain ⟨rfl, hcase⟩ := readAs_of_fits hls hfit hqs hread
    have hall := hread.read
    have hsub : ∀ q ∈ qs, q ∈ ps := by
      rcases hcase with ⟨_, rfl⟩ | ⟨_, _, _, _, rfl⟩
      · exact fun q hq => hq
      · exact fun q hq => List.mem_cons_of_mem _ hq
    rcases hcond with ⟨u, c, o, v, hsplit, hc, ho⟩ | ⟨hc, hnone⟩
    · obtain ⟨o', w, hv, hm⟩ :=
        pair_of_command hqs (fun q hq => (hpairs q hq).1) hsplit ((commandLine_iff c).mp hc)
      obtain rfl := (List.cons.inj hv).1
      exact (hpairs _ hm).2 (hall _ (hsub _ hm)) ho
    · rw [commandLine_iff] at hc
      rcases hcase with ⟨hc', _⟩ | ⟨_, o, mid', rfl, rfl⟩
      · rw [hc'] at hc
        cases hc
      · have ho := hall _ (List.mem_cons_self ..)
        rw [hnone o rfl] at ho
        cases ho
  · intro hno
    have hcond := fun hc => hno ⟨pre, b, mid, e, post, h, hc⟩
    obtain ⟨hpre, hb, hun, heb, he, hpost⟩ := h.markers hls
    obtain ⟨qs, hqs, hne, hproper⟩ := h.body hls
    have hread : ∀ q ∈ qs, (readOutcome q.2).isSome := by
      intro q hq
      rw [read_iff_not_keyThenBlanks (hproper q hq)]
      intro hkey
      obtain ⟨hc, u, v, hsplit⟩ := body_pair hqs hq
      exact hcond (Or.inl ⟨u, q.1, q.2, v, hsplit, (commandLine_iff _).mpr hc, hkey⟩)
    cases hc : isCommand b with
    | false =>
      have hclosed := (closed_iff _ _).mpr ⟨mid, e, post, rfl, hqs, heb, he, hpost⟩
      exact ⟨pre, b, _, qs, h.lines, hpre, .plain hb hc hclosed, hne, hread⟩
    | true =>
      have hfirst : ∃ o, mid.head? = some o ∧ (readOutcome o).isSome := by
        by_contra hnone
        refine hcond (Or.inr ⟨(commandLine_iff b).mpr hc, fun o ho => ?_⟩)
        rw [Bool.eq_false_iff]
        exact fun hr => hnone ⟨o, ho, hr⟩
      obtain ⟨o, ho, hr⟩ := hfirst
      cases hmid : mid with
      | nil => rw [hmid] at ho; cases ho
      | cons o' mid' =>
        rw [hmid, List.head?_cons, Option.some.injEq] at ho
        subst ho
        have hnocmd := read_not_command ((h.isLine hls).2.2.1 o' (by simp [hmid])) hr
        rw [hmid] at hqs
        cases hqs with
        | test _ hc' => rw [hnocmd] at hc'; cases hc'
        | note _ _ hqs =>
          have hclosed := (closed_iff _ _).mpr ⟨mid', e, post, rfl, hqs, heb, he, hpost⟩
          refine ⟨pre, b, _, (b, o') :: qs, ?_, hpre, .command hb hc hclosed, by simp,
            List.forall_mem_cons.mpr ⟨hr, hread⟩⟩
          rw [h.lines, hmid]
          rfl

/-- **Where `parse_one_code` and the grammar agree:** on every file that is in
neither of the two kinds. -/
theorem accepts_iff_grammar_iff (filename text : Text) :
    ((∃ ts, parseOneCode filename text = .ok ts) ↔ Grammar (readLines text)) ↔
      ¬ TooLax (readLines text) ∧ ¬ TooStrict (readLines text) := by
  have hls : ∀ l ∈ readLines text, IsLine l := fun l hl => isLine_of_mem_readLines hl
  rw [accepted_iff]
  constructor
  · intro hiff
    constructor
    · rintro hlax
      obtain ⟨pre, b, rest, ps, h, _⟩ := id hlax
      exact (grammar_iff_of_readAs hls h).mp (hiff.mp ⟨pre, b, rest, ps, h⟩) hlax
    · rintro hstrict
      obtain ⟨pre, b, mid, e, post, h, _⟩ := id hstrict
      exact (readAs_iff_of_fits hls h).mp (hiff.mpr ⟨pre, b, mid, e, post, h⟩) hstrict
  · rintro ⟨hlax, hstrict⟩
    constructor
    · rintro ⟨pre, b, rest, ps, h⟩
      exact (grammar_iff_of_readAs hls h).mpr hlax
    · rintro ⟨pre, b, mid, e, post, h⟩
      exact (readAs_iff_of_fits hls h).mpr hstrict

/-- The four lines `BEGIN_MBI_TESTS`, `  $ c`, `  | OKAY`, `END_MBI_TESTS`. -/
def okayFile : Text :=
  unlines [beginMark, [' ', ' ', '$', ' ', 'c'], [' ', ' ', '|', ' ', 'O', 'K', 'A', 'Y'], endMark]

theorem readLines_okayFile : readLines okayFile =
    [beginMark ++ ['\n'], [' ', ' ', '$', ' ', 'c', '\n'],
      [' ', ' ', '|', ' ', 'O', 'K', 'A', 'Y', '\n'], endMark ++ ['\n']] := by
  unfold okayFile
  rw [readLines_unlines]
  · rfl
  · simp only [List.forall_mem_cons, beginMark_eq, endMark_eq]
    decide

theorem readAs_okayFile : ReadAs (readLines okayFile) [] (beginMark ++ ['\n'])
    [[' ', ' ', '$', ' ', 'c', '\n'], [' ', ' ', '|', ' ', 'O', 'K', 'A', 'Y', '\n'],
      endMark ++ ['\n']]
    [([' ', ' ', '$', ' ', 'c', '\n'], [' ', ' ', '|', ' ', 'O', 'K', 'A', 'Y', '\n'])] where
  lines := readLines_okayFile
  unmarked := by simp
  opened := by
    refine .plain begin_line.1 begin_line.2
      (.test ?_ ((isCommand_iff _).mpr ⟨[' ', ' '], _, rfl, by simp, by decide⟩)
        (.close end_line.1 end_line.2 (by simp)))
    have hbegin : '_' ∈ beginMark := by simp [beginMark_eq]
    have hend : '_' ∈ endMark := by simp [endMark_eq]
    rw [unmarked_iff (by simp [IsLine])]
    exact ⟨fun h => absurd (h.subset hbegin) (by decide),
      fun h => absurd (h.subset hend) (by decide)⟩
  nonempty := by simp
  read := by
    simp only [List.forall_mem_cons, List.not_mem_nil, false_implies, implies_true, and_true]
    rw [readOutcome_isSome_iff]
    exact Or.inl (readsOk_intro (u := [' ', ' ', '|', ' ']) (by decide) ['A', 'Y', '\n'])

/-- An expectation `OKAY` is taken for `OK`: the reader accepts more than the grammar. -/
theorem okayFile_accepted_outside_grammar :
    (∃ ts, parseOneCode "a.c".toList okayFile = .ok ts) ∧ ¬ Grammar (readLines okayFile) := by
  have hls : ∀ l ∈ readLines okayFile, IsLine l := fun l hl => isLine_of_mem_readLines hl
  refine ⟨(accepted_iff _ _).mpr ⟨_, _, _, _, readAs_okayFile⟩, ?_⟩
  rw [grammar_iff_of_readAs hls readAs_okayFile, not_not]
  refine ⟨_, _, _, _, readAs_okayFile, Or.inr (Or.inl ⟨begin_line.2, _, List.mem_cons_self .., ?_⟩)⟩
  exact ⟨[' ', ' ', '|', ' '], ['A', 'Y'], rfl, by decide, 'A', by decide, by decide⟩

end MpiBugs.HeaderGrammar
