import MpiBugs.Expected

/-!
# The feature block of a program

`parse_file_features` of `gen_latex.py`: the lines between the two markers of
the feature block, stripped and matched one by one.

* `matchLine_strip_iff`: the lines that count are `Written` ones, a feature, a
  colon, a blank and a characterization; all others are skipped;
* `blockLoop_ok_iff`: what is read of a block;
* `parseFileFeatures_spec`: what is accepted and returned, and that the lists
  are complete iff each feature has exactly one line.
-/

namespace MpiBugs

/-- `possible_features` -/
inductive Feature
  | P2Pbasic | P2Pnonblocking | P2Ppersistent
  | COLLbasic | COLLnonblocking | COLLpersistent | COLLtools
  | RMA
  deriving DecidableEq, Repr

/-- `possible_characterization` -/
inductive Characterization
  | Lacking | Yes
  deriving DecidableEq, Repr

/-- A key is looked up in a list that has all of them. -/
theorem find?_key_iff {α : Type} {all : List α} {key : α → Text} (hall : ∀ a, a ∈ all)
    (hinj : ∀ a ∈ all, ∀ b ∈ all, key a = key b → a = b) (t : Text) (a : α) :
    all.find? (fun b => key b == t) = some a ↔ t = key a := by
  constructor
  · intro h
    have ha := List.find?_some h
    exact (eq_of_beq ha).symm
  · rintro rfl
    cases h : all.find? (fun b => key b == key a) with
    | none => simpa using List.find?_eq_none.mp h a (hall a)
    | some b =>
      have hb := List.find?_some h
      rw [hinj b (hall b) a (hall a) (eq_of_beq hb)]

namespace Feature

def all : List Feature :=
  [P2Pbasic, P2Pnonblocking, P2Ppersistent, COLLbasic, COLLnonblocking, COLLpersistent,
   COLLtools, RMA]

def key : Feature → Text
  | P2Pbasic => "P2P!basic".toList
  | P2Pnonblocking => "P2P!nonblocking".toList
  | P2Ppersistent => "P2P!persistent".toList
  | COLLbasic => "COLL!basic".toList
  | COLLnonblocking => "COLL!nonblocking".toList
  | COLLpersistent => "COLL!persistent".toList
  | COLLtools => "COLL!tools".toList
  | RMA => "RMA".toList

def ofKey (t : Text) : Option Feature := all.find? (fun f => f.key == t)

theorem mem_all (f : Feature) : f ∈ all := by cases f <;> decide

theorem ofKey_eq_some_iff (t : Text) (f : Feature) : ofKey t = some f ↔ t = f.key :=
  find?_key_iff mem_all (by decide) t f

end Feature

namespace Characterization

def all : List Characterization := [Lacking, Yes]

def key : Characterization → Text
  | Lacking => "Lacking".toList
  | Yes => "Yes".toList

def ofKey (t : Text) : Option Characterization := all.find? (fun c => c.key == t)

theorem mem_all (c : Characterization) : c ∈ all := by cases c <;> decide

theorem ofKey_eq_some_iff (t : Text) (c : Characterization) : ofKey t = some c ↔ t = c.key :=
  find?_key_iff mem_all (by decide) t c

end Characterization

namespace Features

open Regex TextFile Header Expected

theorem lawfulBEq_text : LawfulBEq Text := inferInstance

/-- Whether a text is in a list of texts. -/
scoped instance (priority := 2000) decidableMemTexts (t : Text) (ts : List Text) :
    Decidable (t ∈ ts) :=
  @List.instDecidableMemOfLawfulBEq Text _ lawfulBEq_text t ts

/-! ## The reader -/

def beginLine : Text := "BEGIN_MPI_FEATURES\n".toList
def endLine : Text := "END_MPI_FEATURES\n".toList

/-- `[a-zA-Z0-9]` -/
def isWord (c : Char) : Bool :=
  ('a' ≤ c && c ≤ 'z') || ('A' ≤ c && c ≤ 'Z') || ('0' ≤ c && c ≤ '9')

/-- `[!a-zA-Z0-9]` -/
def isName (c : Char) : Bool := c == '!' || isWord c

/-- `^ *([!a-zA-Z0-9]*): ([a-zA-Z0-9]*)`, without the `$` after it -/
def featurePattern : Regex :=
  many (cls isBlank) ++
    (group 1 (many (cls isName)) ++ (lit [':', ' '] ++ group 2 (many (cls isWord))))

/-- `$` -/
def atEnd (t : Text) : Bool := t == [] || t == ['\n']

/-- The two groups, if the line matches. -/
def matchLine (line : Text) : Option (Text × Text) :=
  match (run featurePattern ⟨line, []⟩).find? (fun t => atEnd t.rest) with
  | none => none
  | some t =>
    let m : Match := ⟨line, t.rest, t.groups⟩
    match m.group 1, m.group 2 with
    | some feat, some chara => some (feat, chara)
    | _, _ => none

inductive FeatureError
  | noBlock (file : Text)
  | noEnd (file : Text)
  | unknownFeature (file feat : Text)
  | unknownCharacterization (file feat chara : Text)
  | tooMany (file : Text) (correct : List Feature)
  deriving DecidableEq, Repr

/-- A list of features as an f-string shows it. -/
def listText (fs : List Feature) : Text :=
  '[' :: (List.intercalate ", ".toList (fs.map fun f => '\'' :: (f.key ++ ['\''])) ++ [']'])

def FeatureError.message : FeatureError → Text
  | noBlock f => "Impossible to find the feature block in ".toList ++ f
  | noEnd f => "Impossible to find the end of the feature block in ".toList ++ f
  | unknownFeature f feat =>
    "ERROR: file ".toList ++ f ++ " contains an unknown feature: '".toList ++ feat ++ "'".toList
  | unknownCharacterization f feat chara =>
    "ERROR: file ".toList ++ f ++ " have feature ".toList ++ feat ++
      " with unknown characterization: '".toList ++ chara ++ "'".toList
  | tooMany f correct =>
    "ERROR: file ".toList ++ f ++ " has more than one 4 features: ".toList ++ listText correct

/-- One line of the block; a line that does not match says nothing. -/
def readEntry (file line : Text) : Except FeatureError (Option (Feature × Characterization)) :=
  match matchLine (strip line) with
  | none => .ok none
  | some (feat, chara) =>
    match Feature.ofKey feat with
    | none => .error (.unknownFeature file feat)
    | some f =>
      match Characterization.ofKey chara with
      | none => .error (.unknownCharacterization file feat chara)
      | some c => .ok (some (f, c))

def blockLoop (file : Text) : List Feature → List Feature → List Text →
    Except FeatureError (List Feature × List Feature)
  | _, _, [] => .error (.noEnd file)
  | correct, lacking, line :: lines =>
    if line = endLine then .ok (correct, lacking)
    else
      match readEntry file line with
      | .error e => .error e
      | .ok none => blockLoop file correct lacking lines
      | .ok (some (f, .Yes)) => blockLoop file (correct ++ [f]) lacking lines
      | .ok (some (f, .Lacking)) => blockLoop file correct (lacking ++ [f]) lines

/-- `parse_file_features` on a file with this text; the loop over the block
starts with the begin line itself. -/
def parseFileFeatures (file text : Text) : Except FeatureError (List Feature × List Feature) :=
  match (readLines text).dropWhile (· != beginLine) with
  | [] => .error (.noBlock file)
  | block =>
    match blockLoop file [] [] block with
    | .error e => .error e
    | .ok (correct, lacking) =>
      if correct.length > 4 then .error (.tooMany file correct) else .ok (correct, lacking)

/-! ## Lines that count -/

/-- The line is `feat: chara`, but for white space around it. -/
def Written (l feat chara : Text) : Prop :=
  ∃ u t, l = u ++ (feat ++ ([':', ' '] ++ (chara ++ t))) ∧ (∀ c ∈ u, isSpace c) ∧
    (∀ c ∈ t, isSpace c) ∧ (∀ c ∈ feat, isName c) ∧ (∀ c ∈ chara, isWord c) ∧ chara ≠ []

theorem isWord_not_space {c : Char} (h : isWord c = true) : isSpace c = false := by
  have hnum (a : Char) : (a ≤ c ↔ a.toNat ≤ c.toNat) ∧ (c ≤ a ↔ c.toNat ≤ a.toNat) :=
    ⟨Iff.rfl, Iff.rfl⟩
  simp only [isWord, Bool.or_eq_true, Bool.and_eq_true, decide_eq_true_eq, (hnum _).1,
    (hnum _).2] at h
  simp [isSpace]
  simp at h
  omega

theorem isName_not_space {c : Char} (h : isName c = true) : isSpace c = false := by
  rcases Bool.or_eq_true .. ▸ h with hbang | hword
  · rw [eq_of_beq hbang]
    decide
  · exact isWord_not_space hword

theorem strip_split (l : Text) :
    ∃ a b, l = a ++ (strip l ++ b) ∧ (∀ c ∈ a, isSpace c) ∧ ∀ c ∈ b, isSpace c := by
  refine ⟨l.takeWhile isSpace, (l.dropWhile isSpace).rtakeWhile isSpace, ?_, ?_, ?_⟩
  · rw [strip, List.rdropWhile_append_rtakeWhile, List.takeWhile_append_dropWhile]
  · exact fun c hc => List.mem_takeWhile_imp hc
  · exact fun c hc => List.mem_rtakeWhile_imp hc

/-- What is left of a line does not end in white space. -/
theorem strip_last {l x : Text} {c : Char} (h : strip l = x ++ [c]) : isSpace c = false := by
  have hself : (strip l).rdropWhile isSpace = strip l := List.rdropWhile_idempotent _ _
  rw [h, List.rdropWhile_eq_self_iff] at hself
  simpa using hself (by simp)

theorem strip_core {u x t : Text} {c d : Char} (hu : ∀ c ∈ u, isSpace c) (ht : ∀ c ∈ t, isSpace c)
    (hc : isSpace c = false) (hd : isSpace d = false) {y : Text} (hx : x = c :: y)
    {z : Text} (hz : x = z ++ [d]) : strip (u ++ (x ++ t)) = x := by
  have hdrop : (u ++ (x ++ t)).dropWhile isSpace = x ++ t := by
    rw [List.dropWhile_append_of_pos hu, hx, List.cons_append,
      List.dropWhile_cons_of_neg (by simp [hc])]
  rw [strip, hdrop]
  clear hdrop
  induction t using List.reverseRecOn with
  | nil => rw [List.append_nil, hz, List.rdropWhile_concat_neg _ _ _ (by simp [hd])]
  | append_singleton t e ih =>
    rw [← List.append_assoc, List.rdropWhile_concat_pos _ _ _ (ht e (by simp))]
    exact ih fun c hc => ht c (by simp [hc])

theorem take_of_append (u t : Text) : (u ++ t).take ((u ++ t).length - t.length) = u := by
  simp

/-- **The matches of the pattern**, wherever they end. -/
theorem steps_featurePattern_iff (l : Text) (t : State) :
    Steps featurePattern ⟨l, []⟩ t ↔ ∃ u feat chara,
      l = u ++ (feat ++ ([':', ' '] ++ (chara ++ t.rest))) ∧ (∀ c ∈ u, isBlank c) ∧
        (∀ c ∈ feat, isName c) ∧ (∀ c ∈ chara, isWord c) ∧
        t.groups = [(2, chara), (1, feat)] := by
  simp only [featurePattern, many, append_eq_seq, steps_seq_iff, steps_star_cls_iff,
    steps_group_iff, steps_lit_iff]
  constructor
  · rintro ⟨a, ⟨u, hu, hblank, hga⟩, b, ⟨b', ⟨feat, hfeat, hname, hgb⟩, hb⟩, d, ⟨hd, hgd⟩, e,
      ⟨chara, hchara, hword, hge⟩, ht⟩
    subst hb ht
    simp only at hu hga hd hgd
    refine ⟨u, feat, chara, ?_, hblank, hname, hword, ?_⟩
    · rw [hu, hfeat, hd, hchara]
    · rw [hge, hgd, hgb, hga, hchara, hfeat, take_of_append, take_of_append]
  · rintro ⟨u, feat, chara, rfl, hblank, hname, hword, hgroups⟩
    obtain ⟨rest, groups⟩ := t
    simp only at hgroups ⊢
    refine ⟨⟨feat ++ ([':', ' '] ++ (chara ++ rest)), []⟩, ⟨u, rfl, hblank, rfl⟩,
      ⟨[':', ' '] ++ (chara ++ rest), [(1, feat)]⟩,
      ⟨⟨[':', ' '] ++ (chara ++ rest), []⟩, ⟨feat, rfl, hname, rfl⟩, by rw [take_of_append]⟩,
      ⟨chara ++ rest, [(1, feat)]⟩, ⟨rfl, rfl⟩,
      ⟨rest, [(1, feat)]⟩, ⟨chara, rfl, hword, rfl⟩, ?_⟩
    rw [take_of_append, hgroups]

/-- A line can be read as a feature and a characterization in one way. -/
theorem parts_unique {u feat chara t u' feat' chara' t' : Text}
    (h : u ++ (feat ++ ([':', ' '] ++ (chara ++ t))) = u' ++ (feat' ++ ([':', ' '] ++ (chara' ++ t'))))
    (hu : ∀ c ∈ u, isBlank c) (hu' : ∀ c ∈ u', isBlank c) (hf : ∀ c ∈ feat, isName c)
    (hf' : ∀ c ∈ feat', isName c) (hc : ∀ c ∈ chara, isWord c) (hc' : ∀ c ∈ chara', isWord c)
    (ht : atEnd t = true) (ht' : atEnd t' = true) : feat = feat' ∧ chara = chara' := by
  have hcolon {u f : Text} (hu : ∀ c ∈ u, isBlank c) (hf : ∀ c ∈ f, isName c) :
      ∀ c ∈ u ++ f, ¬ c = ':' := by
    rintro c hc rfl
    rcases List.mem_append.mp hc with hc | hc
    · exact absurd (hu _ hc) (by decide)
    · exact absurd (hf _ hc) (by decide)
  have hblanks {u f : Text} (hu : ∀ c ∈ u, isBlank c) (hf : ∀ c ∈ f, isName c) :
      (u ++ f).dropWhile isBlank = f := by
    rw [List.dropWhile_append_of_pos hu, List.dropWhile_eq_self_iff]
    intro hlen
    have hhead := hf _ (List.getElem_mem hlen)
    intro hb
    rw [eq_of_beq hb] at hhead
    exact absurd hhead (by decide)
  have hword {c t : Text} (hc : ∀ x ∈ c, isWord x) (ht : atEnd t = true) :
      (c ++ t).takeWhile isWord = c := by
    rw [List.takeWhile_append_of_pos hc]
    rcases Bool.or_eq_true .. ▸ ht with ht | ht
    · rw [eq_of_beq ht, List.takeWhile_nil, List.append_nil]
    · rw [eq_of_beq ht, List.takeWhile_cons_of_neg (by decide), List.append_nil]
  have hsplit : (u ++ feat) ++ ':' :: (' ' :: (chara ++ t)) =
      (u' ++ feat') ++ ':' :: (' ' :: (chara' ++ t')) := by simpa using h
  obtain ⟨hfeat, _, hrest⟩ := split_unique (P := (· = ':')) hsplit rfl rfl (hcolon hu hf)
    (hcolon hu' hf')
  constructor
  · rw [← hblanks hu hf, hfeat, hblanks hu' hf']
  · rw [← hword hc ht, (List.cons.inj hrest).2, hword hc' ht']

/-- **What a match finds**: blanks, a feature, a characterization, and the end. -/
theorem matchLine_iff (l feat chara : Text) :
    matchLine l = some (feat, chara) ↔ ∃ u t, l = u ++ (feat ++ ([':', ' '] ++ (chara ++ t))) ∧
      (∀ c ∈ u, isBlank c) ∧ (∀ c ∈ feat, isName c) ∧ (∀ c ∈ chara, isWord c) ∧
      atEnd t = true := by
  have hgroups (s : State) (f c : Text) (h : s.groups = [(2, c), (1, f)]) :
      (⟨l, s.rest, s.groups⟩ : Match).group 1 = some f ∧
        (⟨l, s.rest, s.groups⟩ : Match).group 2 = some c := by
    rw [h]
    exact ⟨rfl, rfl⟩
  unfold matchLine
  cases hfind : (run featurePattern ⟨l, []⟩).find? (fun t => atEnd t.rest) with
  | none =>
    simp only [reduceCtorEq, false_iff]
    rintro ⟨u, t, hl, hu, hf, hc, ht⟩
    have hsteps := (steps_featurePattern_iff l ⟨t, [(2, chara), (1, feat)]⟩).mpr
      ⟨u, feat, chara, hl, hu, hf, hc, rfl⟩
    have hnone := List.find?_eq_none.mp hfind _ ((mem_run_iff _ _ _).mpr hsteps)
    exact hnone ht
  | some s =>
    have hend := List.find?_some hfind
    have hsteps := (mem_run_iff _ _ _).mp (List.mem_of_find?_eq_some hfind)
    obtain ⟨u, f, c, hl, hu, hf, hc, hg⟩ := (steps_featurePattern_iff l s).mp hsteps
    obtain ⟨h1, h2⟩ := hgroups s f c hg
    simp only [h1, h2, Option.some.injEq, Prod.mk.injEq]
    constructor
    · rintro ⟨rfl, rfl⟩
      exact ⟨u, s.rest, hl, hu, hf, hc, hend⟩
    · rintro ⟨u', t', hl', hu', hf', hc', ht'⟩
      exact parts_unique (hl.symm.trans hl') hu hu' hf hf' hc hc' hend ht'

/-- **The lines that count.** -/
theorem matchLine_strip_iff (l feat chara : Text) :
    matchLine (strip l) = some (feat, chara) ↔ Written l feat chara := by
  have hspaces {t : Text} (ht : atEnd t = true) : ∀ c ∈ t, isSpace c := by
    rcases Bool.or_eq_true .. ▸ ht with ht | ht
    · rw [eq_of_beq ht]
      simp
    · rw [eq_of_beq ht]
      decide
  have hblank {u : Text} (hu : ∀ c ∈ u, isBlank c) : ∀ c ∈ u, isSpace c := by
    intro c hc
    rw [eq_of_beq (hu c hc)]
    decide
  rw [matchLine_iff]
  constructor
  · rintro ⟨u, t, hl, hu, hf, hc, ht⟩
    obtain ⟨a, b, hab, ha, hb⟩ := strip_split l
    refine ⟨a ++ u, t ++ b, ?_, ?_, ?_, hf, hc, ?_⟩
    · rw [hab, hl]
      simp only [List.append_assoc]
    · exact fun c hc => (List.mem_append.mp hc).elim (ha c) (hblank hu c)
    · exact fun c hc => (List.mem_append.mp hc).elim (hspaces ht c) (hb c)
    · -- otherwise the stripped line ends with a blank or a line feed
      rintro rfl
      rcases Bool.or_eq_true .. ▸ ht with ht | ht
      · rw [eq_of_beq ht] at hl
        have hlast : strip l = (u ++ (feat ++ [':'])) ++ [' '] := by simpa using hl
        exact absurd (strip_last hlast) (by decide)
      · rw [eq_of_beq ht] at hl
        have hlast : strip l = (u ++ (feat ++ [':', ' '])) ++ ['\n'] := by simpa using hl
        exact absurd (strip_last hlast) (by decide)
  · rintro ⟨u, t, rfl, hu, ht, hf, hc, hne⟩
    obtain ⟨z, d, hz⟩ := List.eq_nil_or_concat chara |>.resolve_left hne
    have hd : isSpace d = false := isWord_not_space (hc d (by simp [hz]))
    have hstrip : strip (u ++ ((feat ++ ([':', ' '] ++ chara)) ++ t)) =
        feat ++ ([':', ' '] ++ chara) := by
      cases hfeat : feat with
      | nil => exact strip_core hu ht (by decide) hd rfl (z := [':', ' '] ++ z) (by simp [hz])
      | cons c f =>
        have hcn : isSpace c = false := isName_not_space (hf c (by simp [hfeat]))
        exact strip_core hu ht hcn hd rfl (z := c :: f ++ ([':', ' '] ++ z)) (by simp [hz])
    refine ⟨[], [], ?_, by simp, hf, hc, rfl⟩
    rw [List.append_assoc, List.append_assoc] at hstrip
    rw [hstrip]
    simp

/-! ## The block -/

/-- The entries of the lines of a block. A line that is not written as an entry
is skipped; one that is has to name a feature and a characterization. -/
inductive Reads : List Text → List (Feature × Characterization) → Prop
  | nil : Reads [] []
  | skip {l ls es} (h : ∀ feat chara, ¬ Written l feat chara) (hs : Reads ls es) : Reads (l :: ls) es
  | entry {l f c ls es} (h : Written l (Feature.key f) (Characterization.key c))
      (hs : Reads ls es) : Reads (l :: ls) ((f, c) :: es)

/-- The features that the entries give this characterization. -/
def withChara (c : Characterization) (es : List (Feature × Characterization)) : List Feature :=
  (es.filter fun e => e.2 == c).map Prod.fst

@[simp] theorem withChara_nil (c : Characterization) : withChara c [] = [] := rfl

@[simp] theorem withChara_cons (c d : Characterization) (f : Feature)
    (es : List (Feature × Characterization)) :
    withChara c ((f, d) :: es) = (if d = c then [f] else []) ++ withChara c es := by
  by_cases h : d = c
  · simp [withChara, h]
  · simp [withChara, h]

/-- The lines between the first begin line and the end line that follows it. -/
def HasBlock (lines block : List Text) : Prop :=
  ∃ before after, lines = before ++ beginLine :: (block ++ endLine :: after) ∧
    beginLine ∉ before ∧ endLine ∉ block

theorem matchLine_none_iff (l : Text) :
    matchLine (strip l) = none ↔ ∀ feat chara, ¬ Written l feat chara := by
  simp only [← matchLine_strip_iff]
  cases h : matchLine (strip l) with
  | none => simp
  | some p => simpa using ⟨p.1, p.2, rfl⟩

theorem readEntry_none_iff (file l : Text) :
    readEntry file l = .ok none ↔ ∀ feat chara, ¬ Written l feat chara := by
  rw [← matchLine_none_iff, readEntry]
  cases matchLine (strip l) with
  | none => simp
  | some p =>
    obtain ⟨feat, chara⟩ := p
    simp only
    cases Feature.ofKey feat with
    | none => simp
    | some f => cases Characterization.ofKey chara <;> simp

theorem readEntry_some_iff (file l : Text) (f : Feature) (c : Characterization) :
    readEntry file l = .ok (some (f, c)) ↔ Written l f.key c.key := by
  rw [← matchLine_strip_iff, readEntry]
  cases matchLine (strip l) with
  | none => simp
  | some p =>
    obtain ⟨feat, chara⟩ := p
    simp only [Option.some.injEq, Prod.mk.injEq, ← Feature.ofKey_eq_some_iff,
      ← Characterization.ofKey_eq_some_iff]
    cases Feature.ofKey feat with
    | none => simp
    | some f => cases Characterization.ofKey chara <;> simp

/-- One round of the loop, on a line that does not end the block. -/
theorem blockLoop_cons_iff (file : Text) (correct lacking : List Feature) {l : Text}
    (hl : l ≠ endLine) (ls : List Text) (p : List Feature × List Feature) :
    blockLoop file correct lacking (l :: ls) = .ok p ↔
      ((∀ feat chara, ¬ Written l feat chara) ∧ blockLoop file correct lacking ls = .ok p) ∨
        ∃ f c, Written l (Feature.key f) (Characterization.key c) ∧
          blockLoop file (correct ++ if c = .Yes then [f] else [])
            (lacking ++ if c = .Lacking then [f] else []) ls = .ok p := by
  simp only [← readEntry_none_iff file l, ← readEntry_some_iff file l]
  rw [blockLoop, if_neg hl]
  cases readEntry file l with
  | error e => simp
  | ok r =>
    cases r with
    | none => simp
    | some e =>
      obtain ⟨f, c⟩ := e
      cases c with
      | Yes => simp
      | Lacking => simp

/-- **What the loop over the block returns.** -/
theorem blockLoop_ok_iff (file : Text) (correct lacking : List Feature) (lines : List Text)
    (p : List Feature × List Feature) :
    blockLoop file correct lacking lines = .ok p ↔ ∃ block after es,
      lines = block ++ endLine :: after ∧ endLine ∉ block ∧ Reads block es ∧
        p = (correct ++ withChara .Yes es, lacking ++ withChara .Lacking es) := by
  induction lines generalizing correct lacking with
  | nil => simp [blockLoop]
  | cons l ls ih =>
    by_cases hend : l = endLine
    · rw [blockLoop, if_pos hend, Except.ok.injEq]
      constructor
      · rintro rfl
        exact ⟨[], ls, [], by rw [hend]; rfl, by simp, .nil, by simp⟩
      · rintro ⟨block, after, es, hls, hnot, hreads, hp⟩
        cases hreads with
        | nil => simpa using hp.symm
        | skip | entry => exact absurd ((List.cons.inj hls).1 ▸ hend) (fun h => hnot (by simp [h]))
    · rw [blockLoop_cons_iff file correct lacking hend ls p]
      simp only [ih]
      constructor
      · rintro (⟨hskip, block, after, es, rfl, hnot, hreads, rfl⟩ |
          ⟨f, c, hentry, block, after, es, rfl, hnot, hreads, rfl⟩)
        · exact ⟨l :: block, after, es, rfl, by simp [hnot, Ne.symm hend], .skip hskip hreads, rfl⟩
        · refine ⟨l :: block, after, (f, c) :: es, rfl, by simp [hnot, Ne.symm hend],
            .entry hentry hreads, ?_⟩
          simp only [withChara_cons, List.append_assoc]
      · rintro ⟨block, after, es, hls, hnot, hreads, rfl⟩
        cases hreads with
        | nil => exact absurd (List.cons.inj hls).1 hend
        | skip hskip hreads =>
          obtain ⟨rfl, htail⟩ := List.cons.inj hls
          exact Or.inl ⟨hskip, _, after, es, htail, fun h => hnot (by simp [h]), hreads, rfl⟩
        | @entry _ f c _ es hentry hreads =>
          obtain ⟨rfl, htail⟩ := List.cons.inj hls
          refine Or.inr ⟨f, c, hentry, _, after, es, htail, fun h => hnot (by simp [h]), hreads, ?_⟩
          simp only [withChara_cons, List.append_assoc]

/-- The begin line is no entry. -/
theorem not_written_beginLine (feat chara : Text) : ¬ Written beginLine feat chara := by
  have hnone : matchLine (strip beginLine) = none := by decide
  exact (matchLine_none_iff beginLine).mp hnone feat chara

theorem beginLine_ne_endLine : beginLine ≠ endLine := by decide

/-- The lines from the first begin line on. -/
theorem dropWhile_begin_iff (lines rest : List Text) :
    lines.dropWhile (· != beginLine) = beginLine :: rest ↔
      ∃ before, lines = before ++ beginLine :: rest ∧ beginLine ∉ before := by
  constructor
  · intro h
    refine ⟨lines.takeWhile (· != beginLine), ?_, ?_⟩
    · rw [← h, List.takeWhile_append_dropWhile]
    · intro hmem
      simpa using List.mem_takeWhile_imp hmem
  · rintro ⟨before, rfl, hnot⟩
    rw [List.dropWhile_append_of_pos, List.dropWhile_cons_of_neg (by simp)]
    rintro l hl
    simp only [bne_iff_ne]
    rintro rfl
    exact hnot hl

/-- The lists that the entries make, if they are not too long. -/
def Lists (es : List (Feature × Characterization)) (correct lacking : List Feature) : Prop :=
  correct = withChara .Yes es ∧ lacking = withChara .Lacking es ∧ correct.length ≤ 4

/-- The loop over the block, begun at the begin line. -/
theorem blockLoop_begin_iff (file : Text) (rest : List Text) (p : List Feature × List Feature) :
    blockLoop file [] [] (beginLine :: rest) = .ok p ↔ ∃ block after es,
      rest = block ++ endLine :: after ∧ endLine ∉ block ∧ Reads block es ∧
        p = (withChara .Yes es, withChara .Lacking es) := by
  rw [blockLoop_cons_iff file [] [] beginLine_ne_endLine rest p, blockLoop_ok_iff]
  simp only [not_written_beginLine, not_false_eq_true, implies_true, true_and, false_and,
    exists_false, or_false, List.nil_append]

/-- **What is accepted, and what is returned.** -/
theorem parseFileFeatures_ok_iff (file text : Text) (correct lacking : List Feature) :
    parseFileFeatures file text = .ok (correct, lacking) ↔ ∃ block es,
      HasBlock (readLines text) block ∧ Reads block es ∧ Lists es correct lacking := by
  constructor
  · intro h
    unfold parseFileFeatures at h
    cases hdrop : (readLines text).dropWhile (· != beginLine) with
    | nil => simp [hdrop] at h
    | cons l rest =>
      obtain rfl : l = beginLine := by
        have hhead := List.head?_dropWhile_not (· != beginLine) (readLines text)
        simpa [hdrop] using hhead
      obtain ⟨before, hlines, hbefore⟩ := (dropWhile_begin_iff _ _).mp hdrop
      simp only [hdrop] at h
      cases hloop : blockLoop file [] [] (beginLine :: rest) with
      | error e => simp [hloop] at h
      | ok p =>
        obtain ⟨block, after, es, rfl, hnot, hreads, rfl⟩ := (blockLoop_begin_iff _ _ _).mp hloop
        simp only [hloop] at h
        by_cases hmany : (withChara .Yes es).length > 4
        · simp [hmany] at h
        · rw [if_neg hmany, Except.ok.injEq, Prod.mk.injEq] at h
          obtain ⟨rfl, rfl⟩ := h
          exact ⟨block, es, ⟨before, after, hlines, hbefore, hnot⟩, hreads, rfl, rfl, by omega⟩
  · rintro ⟨block, es, ⟨before, after, hlines, hbefore, hnot⟩, hreads, rfl, rfl, hfew⟩
    have hdrop := (dropWhile_begin_iff _ _).mpr ⟨before, hlines, hbefore⟩
    have hloop := (blockLoop_begin_iff file _ _).mpr ⟨block, after, es, rfl, hnot, hreads, rfl⟩
    have hmany : ¬ (withChara .Yes es).length > 4 := by omega
    unfold parseFileFeatures
    simp only [hdrop, hloop, if_neg hmany]

/-! ## Complete blocks -/

/-- Each possible feature is in one of the lists, once. -/
structure Complete (correct lacking : List Feature) : Prop where
  disjoint : correct.Disjoint lacking
  correct_nodup : correct.Nodup
  lacking_nodup : lacking.Nodup
  count_one : ∀ f, (correct ++ lacking).count f = 1

theorem withChara_perm (es : List (Feature × Characterization)) :
    (withChara .Yes es ++ withChara .Lacking es).Perm (es.map Prod.fst) := by
  have hnot : (fun e : Feature × Characterization => e.2 == .Lacking) =
      fun e => !(e.2 == .Yes) := by
    funext e
    cases e.2 <;> rfl
  unfold withChara
  rw [← List.map_append, hnot]
  exact (List.filter_append_perm _ _).map _

/-- **The lists are complete iff each feature has exactly one entry.** -/
theorem complete_iff (es : List (Feature × Characterization)) :
    Complete (withChara .Yes es) (withChara .Lacking es) ↔
      ∀ f, (es.map Prod.fst).count f = 1 := by
  simp only [← (withChara_perm es).count_eq]
  constructor
  · exact fun h => h.count_one
  · intro h
    have hnodup : (withChara .Yes es ++ withChara .Lacking es).Nodup :=
      List.nodup_iff_count_le_one.mpr fun f => le_of_eq (h f)
    obtain ⟨hyes, hlacking, hdisjoint⟩ := List.nodup_append'.mp hnodup
    exact ⟨hdisjoint, hyes, hlacking, h⟩

/-- **A file is accepted iff it has a feature block whose entries name features
and characterizations, at most four of them `Yes`**; lines that are no entry are
skipped. The lists are those of the entries, and complete iff each feature has
exactly one. -/
theorem parseFileFeatures_spec (file text : Text) (correct lacking : List Feature) :
    (parseFileFeatures file text = .ok (correct, lacking) ↔ ∃ block es,
      HasBlock (readLines text) block ∧ Reads block es ∧ Lists es correct lacking) ∧
    (parseFileFeatures file text = .ok (correct, lacking) ∧ Complete correct lacking ↔
      ∃ block es, HasBlock (readLines text) block ∧ Reads block es ∧ Lists es correct lacking ∧
        ∀ f, (es.map Prod.fst).count f = 1) := by
  refine ⟨parseFileFeatures_ok_iff file text correct lacking, ?_⟩
  rw [parseFileFeatures_ok_iff]
  constructor
  · rintro ⟨⟨block, es, hblock, hreads, rfl, rfl, hfew⟩, hcomplete⟩
    exact ⟨block, es, hblock, hreads, ⟨rfl, rfl, hfew⟩, (complete_iff es).mp hcomplete⟩
  · rintro ⟨block, es, hblock, hreads, ⟨rfl, rfl, hfew⟩, hone⟩
    exact ⟨⟨block, es, hblock, hreads, rfl, rfl, hfew⟩, (complete_iff es).mpr hone⟩

/-- A block of which one line is no entry, another one is written twice, and
most are missing. -/
def sampleBlock : Text :=
  unlines ["BEGIN_MPI_FEATURES".toList, "  RMA: Yes".toList, "  RMA: Lacking".toList,
    "  P2P!persistent: @\x7bpersfeature\x7d0@".toList, "END_MPI_FEATURES".toList]

/-- A file with missing, repeated and ill-formed lines that is accepted. -/
theorem incomplete_accepted :
    parseFileFeatures [] sampleBlock = .ok ([.RMA], [.RMA]) ∧ ¬ Complete [.RMA] [.RMA] := by
  refine ⟨by decide, fun h => ?_⟩
  exact absurd (h.count_one .RMA) (by decide)

end Features

end MpiBugs
