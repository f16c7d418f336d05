import MpiBugs.Expansion
import MpiBugs.RegexSyntax

/-!
# Filling in the templates of the generators

The first loop of `make_file` (`generator_utils.py`), which replaces the
placeholders without a colon by their values until none is left.

* `sub_textOf`: one round replaces exactly the holes of one name;
* `search_textOf`: the placeholder found is the first hole;
* `firstLoop_expands`: with acyclic values the loop ends, without an error,
  in the full expansion of the template.
-/

namespace MpiBugs.MakeFile

open Regex Expansion

/-! ## The code -/

inductive FileError
  | exception (message : Text)
  | regex (e : RegexError)
  deriving DecidableEq, Repr

def undefinedMessage (target : Text) : Text :=
  "Variable ".toList ++ target ++ " used in template, but not defined.".toList

/-- What `replace` maps names to; the first entry of a name counts. -/
abbrev Replace := List (Text × Text)

def nameClass (c : Char) : Bool := c != '@' && c != ':'

/-- `@\{([^@:]*)\}@`; the condition of the loop is the same without group. -/
def placeholder : Regex :=
  chars "@\x7b" ++ group 1 (many (cls nameClass)) ++ chars "\x7d@"

/-- The pattern substituted for a name, which is spliced in as it is. -/
def targetPattern (target : Text) : Text :=
  "@\\\x7b".toList ++ target ++ "\\\x7d@".toList

/-- The first loop, for at most `fuel` rounds. -/
def firstLoop (replace : Replace) : Nat → Text → Option (Except FileError Text)
  | 0, _ => none
  | fuel + 1, output =>
    match search placeholder output with
    | none => some (.ok output)
    | some m =>
      let target := (m.group 1).getD []
      match replace.lookup target with
      | none => some (.error (.exception (undefinedMessage target)))
      | some value =>
        match subText (targetPattern target) value output with
        | .error e => some (.error (.regex e))
        | .ok output => firstLoop replace fuel output

def shortFilename (filename : Text) : Text := sub (chars "_MPI_") (fun _ => "_".toList) filename

/-- `replace['filename'] = filename`. -/
def withFilename (replace : Replace) (filename : Text) : Replace :=
  ("filename".toList, shortFilename filename) :: replace

/-- `make_file` up to the end of its first loop. -/
def expandTemplate (template filename : Text) (replace : Replace) (fuel : Nat) :
    Option (Except FileError Text) :=
  firstLoop (withFilename replace filename) fuel template

/-! ## Templates as documents -/

/-- The text has no `@` with a brace behind it. -/
def NoHole (t : Text) : Prop := ¬ ['@', '\x7b'] <:+: t

instance (t : Text) : Decidable (NoHole t) := inferInstanceAs (Decidable (¬ _))

/-- A character of a name: any that patterns read as itself, but for the ones
that delimit names. -/
def nameChar (c : Char) : Bool := plainChar c && c != '@' && c != ':' && c != '\x7d'

/-- The name of a placeholder. -/
structure Name where
  text : Text
  plain : ∀ c ∈ text, nameChar c = true
  deriving DecidableEq

/-- What the loop leaves in place: literal text, and line targets. -/
inductive Inert
  | lit (t : Text) (noHole : NoHole t) (noBrace : t.head? ≠ some '\x7b')
  | line (target : Text) (noHole : NoHole target)

abbrev Doc := Document Name Inert
abbrev Values := List (Name × Doc)

def Name.hole (x : Name) : Text := '@' :: '\x7b' :: (x.text ++ ['\x7d', '@'])

def Inert.render : Inert → Text
  | lit t _ _ => t
  | line t _ => '@' :: '\x7b' :: 'l' :: 'i' :: 'n' :: 'e' :: ':' :: (t ++ ['\x7d', '@'])

/-- The text of a document. -/
def render : Doc → Text
  | [] => []
  | .inert i :: ps => i.render ++ render ps
  | .hole x :: ps => x.hole ++ render ps

def Values.value (d : Values) (x : Name) : Option Doc := List.lookup x d

/-- The dictionary of the texts of the values. -/
def Values.render (d : Values) : Replace := d.map fun e => (e.1.text, MakeFile.render e.2)

/-- Letters, digits and underscores make names. -/
theorem nameChar_of_word {c : Char} (h : c.isAlphanum = true ∨ c = '_') : nameChar c = true := by
  rcases h with h | rfl
  · have hne : ∀ d : Char, d.isAlphanum = false → (c == d) = false := by
      intro d hd
      refine beq_false_of_ne fun hcd => ?_
      rw [hcd, hd] at h
      cases h
    simp [nameChar, plainChar, repeatChar, unreadChar, hne, bne]
  · decide

theorem name_no_at (x : Name) : ∀ c ∈ x.text, c ≠ '@' ∧ c ≠ ':' ∧ c ≠ '\x7d' := by
  intro c hc
  have h := x.plain c hc
  simp only [nameChar, Bool.and_eq_true, bne_iff_ne] at h
  exact ⟨h.1.1.2, h.1.2, h.2⟩

/-! ## Where a placeholder can start -/

/-- Every match of `r` starts with `@` and a brace, and ends at the next `@`. -/
def Braced (r : Regex) : Prop := ∀ s t, Steps r ⟨s, []⟩ t →
  ∃ u, '@' ∉ u ∧ s = '@' :: '\x7b' :: (u ++ '\x7d' :: '@' :: t.rest)

/-- Every match of `r` is a name between the delimiters. -/
def HoleShaped (r : Regex) : Prop := ∀ s t, Steps r ⟨s, []⟩ t →
  ∃ u, (∀ c ∈ u, c ≠ '@' ∧ c ≠ ':') ∧ s = '@' :: '\x7b' :: (u ++ '\x7d' :: '@' :: t.rest)

private theorem chars_open : chars "@\x7b" = lit ['@', '\x7b'] := by
  rw [chars, String.toList_ofList]

private theorem chars_close : chars "\x7d@" = lit ['\x7d', '@'] := by
  rw [chars, String.toList_ofList]

theorem steps_placeholder_iff (s : Text) (t : State) : Steps placeholder ⟨s, []⟩ t ↔
    ∃ u, (∀ c ∈ u, c ≠ '@' ∧ c ≠ ':') ∧ s = '@' :: '\x7b' :: (u ++ '\x7d' :: '@' :: t.rest) ∧
      t.groups = [(1, u)] := by
  have hclass (c : Char) : nameClass c = true ↔ c ≠ '@' ∧ c ≠ ':' := by simp [nameClass]
  simp only [placeholder, append_eq_seq, chars_open, chars_close, steps_seq_iff, steps_lit_iff,
    steps_group_iff, many, steps_star_cls_iff, hclass]
  constructor
  · rintro ⟨t₂, ⟨t₁, ⟨hs, hg₁⟩, _, ⟨u, hu, hclass, hg₂⟩, rfl⟩, ht, hg⟩
    refine ⟨u, hclass, ?_, ?_⟩
    · rw [hs, hu, ht]
      rfl
    · rw [hg, hg₂, hg₁, hu]
      simp
  · rintro ⟨u, hu, rfl, hg⟩
    let close : Text := '\x7d' :: '@' :: t.rest
    exact ⟨⟨close, [(1, u)]⟩, ⟨⟨u ++ close, []⟩, ⟨rfl, rfl⟩, ⟨close, []⟩, ⟨u, rfl, hu, rfl⟩,
      by simp⟩, rfl, hg⟩

theorem HoleShaped.braced {r : Regex} (h : HoleShaped r) : Braced r := by
  intro s t hst
  obtain ⟨u, hu, hs⟩ := h s t hst
  exact ⟨u, fun hat => (hu _ hat).1 rfl, hs⟩

theorem holeShaped_placeholder : HoleShaped placeholder := by
  intro s t h
  obtain ⟨u, hu, hs, _⟩ := (steps_placeholder_iff _ _).mp h
  exact ⟨u, hu, hs⟩

theorem holeShaped_hole (x : Name) : HoleShaped (lit x.hole) := by
  intro s t h
  obtain ⟨hs, _⟩ := (steps_lit_iff _ _ _).mp h
  refine ⟨x.text, fun c hc => ⟨(name_no_at x c hc).1, (name_no_at x c hc).2.1⟩, ?_⟩
  simpa [Name.hole] using hs

variable {r : Regex}

theorem noHole_cons (c : Char) (t : Text) :
    NoHole (c :: t) ↔ ¬ (c = '@' ∧ t.head? = some '\x7b') ∧ NoHole t := by
  rw [NoHole, NoHole, List.infix_cons_iff, not_or]
  refine and_congr_left fun _ => not_congr ?_
  cases t with
  | nil => simp
  | cons d t => simp [eq_comm]

/-- **No placeholder starts inside a text without hole.** -/
theorem skips_of_noHole (hr : Braced r) {w s : Text} (hw : NoHole w)
    (hs : s.head? ≠ some '\x7b') : Skips r w s := by
  induction w with
  | nil => trivial
  | cons c w ih =>
    obtain ⟨hc, hw⟩ := (noHole_cons c w).mp hw
    refine ⟨(first_eq_none_iff _ _).mpr fun t ht => ?_, ih hw⟩
    obtain ⟨u, _, heq⟩ := hr _ _ ht
    obtain ⟨hat, heq⟩ := List.cons.inj heq
    have hhead : (w ++ s).head? = some '\x7b' := by
      show (w.append s).head? = some '\x7b'
      rw [heq]
      rfl
    cases w with
    | nil => exact hs hhead
    | cons d w => exact hc ⟨hat, hhead⟩

/-- A line target is no placeholder: the name would end at the colon. -/
theorem first_line (hr : HoleShaped r) (s : Text) :
    first r ('@' :: '\x7b' :: (['l', 'i', 'n', 'e'] ++ ':' :: s)) = none := by
  refine (first_eq_none_iff _ _).mpr fun t ht => ?_
  obtain ⟨u, hu, heq⟩ := hr _ _ ht
  have hline := (List.cons.inj (List.cons.inj heq).2).2
  rcases List.append_eq_append_iff.mp hline with ⟨w, rfl, hw⟩ | ⟨w, hu', hw⟩
  · cases w with
    | nil => cases hw
    | cons c w =>
      obtain ⟨rfl, _⟩ := List.cons.inj hw
      exact (hu ':' (by simp)).2 rfl
  · cases w with
    | nil => cases hw
    | cons c w =>
      obtain ⟨rfl, _⟩ := List.cons.inj hw
      have hmem : '\x7d' ∈ ['l', 'i', 'n', 'e'] := by rw [hu']; simp
      exact absurd hmem (by decide)

theorem noHole_of_no_at {t : Text} (ht : '@' ∉ t) : NoHole t :=
  fun h => ht (h.subset (List.mem_cons_self ..))

/-- What follows the `@` of a placeholder or of a line target has no hole. -/
theorem noHole_close {t : Text} (ht : NoHole t) : NoHole (t ++ ['\x7d', '@']) := by
  induction t with
  | nil => exact (by decide : NoHole ['\x7d', '@'])
  | cons c t ih =>
    obtain ⟨hc, ht⟩ := (noHole_cons c t).mp ht
    refine (noHole_cons c _).mpr ⟨?_, ih ht⟩
    cases t with
    | nil => simp
    | cons d t => exact hc

theorem skips_inert (hr : HoleShaped r) (i : Inert) {s : Text} (hs : s.head? ≠ some '\x7b') :
    Skips r i.render s := by
  cases i with
  | lit t hno _ => exact skips_of_noHole hr.braced hno hs
  | line t hno =>
    have hfirst := first_line hr (t ++ ['\x7d', '@'] ++ s)
    refine ⟨hfirst, skips_of_noHole hr.braced ?_ hs⟩
    have hclose := noHole_close hno
    simp [noHole_cons, hclose]

/-- Pieces in which no placeholder of a dictionary starts, and which complete
no `@` before them. -/
class Passive (τ : Type) where
  text : τ → Text
  noBrace : ∀ i, (text i).head? ≠ some '\x7b'
  skips : ∀ {r : Regex}, HoleShaped r → ∀ i {s : Text}, s.head? ≠ some '\x7b' → Skips r (text i) s

instance : Passive Inert where
  text := Inert.render
  noBrace i := by
    cases i with
    | lit t h hb => exact hb
    | line t h => simp [Inert.render]
  skips := skips_inert

section

variable {τ : Type} [Passive τ]

/-- The text of a document, whatever its pieces are. -/
def textOf : Document Name τ → Text
  | [] => []
  | .inert i :: ps => Passive.text i ++ textOf ps
  | .hole x :: ps => x.hole ++ textOf ps

theorem textOf_append (ps qs : Document Name τ) : textOf (ps ++ qs) = textOf ps ++ textOf qs := by
  induction ps with
  | nil => rfl
  | cons p ps ih =>
    cases p with
    | inert i => simp only [List.cons_append, textOf, ih, List.append_assoc]
    | hole x => simp only [List.cons_append, textOf, ih, List.append_assoc]

/-- No document starts with a brace. -/
theorem textOf_head (ps : Document Name τ) : (textOf ps).head? ≠ some '\x7b' := by
  induction ps with
  | nil => simp [textOf]
  | cons p ps ih =>
    cases p with
    | hole x => simp [textOf, Name.hole]
    | inert i =>
      have hi := Passive.noBrace i
      rw [textOf]
      cases htext : Passive.text i with
      | nil => exact ih
      | cons c t => rwa [htext] at hi

end

theorem render_eq_textOf (ps : Doc) : render ps = textOf ps := by
  induction ps with
  | nil => rfl
  | cons p ps ih =>
    cases p with
    | inert i => exact congrArg (i.render ++ ·) ih
    | hole x => exact congrArg (x.hole ++ ·) ih

theorem noHole_name (x : Name) : NoHole ('\x7b' :: (x.text ++ ['\x7d', '@'])) := by
  have htext : NoHole x.text := noHole_of_no_at fun h => (name_no_at x _ h).1 rfl
  exact (noHole_cons _ _).mpr ⟨by simp, noHole_close htext⟩

/-- Two names with their closing brace agree if what follows does. -/
theorem name_unique {x y : Name} {s t : Text}
    (h : x.text ++ '\x7d' :: s = y.text ++ '\x7d' :: t) : x = y := by
  have hno (z : Name) : ∀ c ∈ z.text, ¬ c = '\x7d' := fun c hc => (name_no_at z c hc).2.2
  obtain ⟨htext, _⟩ := split_unique (P := (· = '\x7d')) h rfl rfl (hno x) (hno y)
  obtain ⟨u, _⟩ := x
  obtain ⟨v, _⟩ := y
  subst htext
  rfl

/-- Nothing matches inside the text of another placeholder. -/
theorem skips_hole_ne {x y : Name} (h : y ≠ x) {s : Text} (hs : s.head? ≠ some '\x7b') :
    Skips (lit x.hole) y.hole s := by
  refine ⟨(first_eq_none_iff _ _).mpr fun t ht => ?_,
    skips_of_noHole (holeShaped_hole x).braced (noHole_name y) hs⟩
  obtain ⟨heq, _⟩ := (steps_lit_iff _ _ _).mp ht
  apply h
  apply name_unique (s := '@' :: s) (t := '@' :: t.rest)
  simpa [Name.hole] using heq

theorem first_placeholder {name : Text} (hclass : ∀ c ∈ name, c ≠ '@' ∧ c ≠ ':') (s : Text) :
    first placeholder ('@' :: '\x7b' :: (name ++ ['\x7d', '@']) ++ s) = some ⟨s, [(1, name)]⟩ := by
  apply first_of_unique
  · exact (steps_placeholder_iff _ _).mpr ⟨name, hclass, by simp, rfl⟩
  · intro ⟨rest, groups⟩ ht
    obtain ⟨u, hu, heq, hg⟩ := (steps_placeholder_iff _ _).mp ht
    -- the name ends with the brace before the next `@`
    have hno : ∀ v : Text, (∀ c ∈ v, c ≠ '@' ∧ c ≠ ':') → ∀ c ∈ v ++ ['\x7d'], ¬ c = '@' := by
      intro v hv c hc
      rcases List.mem_append.mp hc with hc | hc
      · exact (hv c hc).1
      · rw [List.mem_singleton.mp hc]
        decide
    have hsplit : (name ++ ['\x7d']) ++ '@' :: s = (u ++ ['\x7d']) ++ '@' :: rest := by
      simpa using heq
    obtain ⟨htext, _, hrest⟩ :=
      split_unique (P := (· = '@')) hsplit rfl rfl (hno _ hclass) (hno _ hu)
    rw [List.append_cancel_right htext, hrest]
    exact congrArg (State.mk rest) hg

/-! ## One round of the loop -/

section

variable {τ : Type} [Passive τ]

/-- **Substitution replaces exactly the holes of that name.** -/
theorem sub_textOf (x : Name) (v ps : Document Name τ) :
    sub (lit x.hole) (fun _ => textOf v) (textOf ps) = textOf (subst x v ps) := by
  have hcons : Consuming (lit x.hole) := consuming_lit (List.cons_ne_nil _ _)
  induction ps with
  | nil => exact sub_nil hcons _
  | cons p ps ih =>
    cases p with
    | inert i =>
      have hskip := Passive.skips (holeShaped_hole x) i (textOf_head ps)
      simp only [textOf, subst]
      rw [sub_of_skips hcons _ hskip, ih]
    | hole y =>
      by_cases hyx : y = x
      · subst hyx
        have hfirst : first (lit y.hole) (y.hole ++ textOf ps) = some ⟨textOf ps, []⟩ :=
          head?_lit _ _ _
        simp only [textOf, subst, if_pos]
        rw [sub_of_first hcons _ hfirst, ih, textOf_append]
      · have hskip := skips_hole_ne hyx (textOf_head ps)
        simp only [textOf, subst, if_neg hyx]
        rw [sub_of_skips hcons _ hskip, ih]

/-- **The placeholder found is the first hole**, if there is one. -/
theorem search_textOf (ps : Document Name τ) :
    (search placeholder (textOf ps)).map (fun m => m.group 1) =
      (holes ps).head?.map fun x => some x.text := by
  induction ps with
  | nil =>
    have hfirst : first placeholder [] = none := by
      refine (first_eq_none_iff _ _).mpr fun t ht => ?_
      obtain ⟨u, _, heq⟩ := holeShaped_placeholder _ _ ht
      cases heq
    simp [search, matchStart, hfirst, textOf, holes]
  | cons p ps ih =>
    cases p with
    | inert i =>
      have hskip := Passive.skips holeShaped_placeholder i (textOf_head ps)
      simp only [textOf, holes]
      rw [search_of_skips hskip, ih]
    | hole x =>
      simp only [textOf, holes]
      have hclass : ∀ c ∈ x.text, c ≠ '@' ∧ c ≠ ':' :=
        fun c hc => ⟨(name_no_at x c hc).1, (name_no_at x c hc).2.1⟩
      rw [Name.hole, search_of_first (first_placeholder hclass (textOf ps))]
      rfl

end

/-- The pattern made for a name spells its placeholder. -/
theorem literally_target (x : Name) : Literally (targetPattern x.text) x.hole := by
  have hplain : ∀ c ∈ x.text, plainChar c = true := by
    intro c hc
    have h := x.plain c hc
    simp only [nameChar, Bool.and_eq_true] at h
    exact h.1.1.1
  have hopen : "@\\\x7b".toList = ['@', '\\', '\x7b'] := by rw [String.toList_ofList]
  have hclose : "\\\x7d@".toList = ['\\', '\x7d', '@'] := by rw [String.toList_ofList]
  have hend : Literally ['\\', '\x7d', '@'] ['\x7d', '@'] :=
    .escaped (by decide) (.plain (by decide) .nil)
  have hname := Literally.plain_append hplain hend
  rw [targetPattern, hopen, hclose, List.append_assoc]
  exact .plain (by decide) (.escaped (by decide) hname)

/-- The dictionary has the texts of these documents under these names, and
nothing under other names; other keys do not matter. -/
def Renders (replace : Replace) (d : Values) : Prop :=
  ∀ x : Name, replace.lookup x.text = (d.value x).map render

/-! ## The whole loop -/

section

variable {τ : Type} [Passive τ] {replace : Replace} {value : Name → Option (Document Name τ)}

/-- What a name is replaced by is the text of its value. -/
def Gives (replace : Replace) (value : Name → Option (Document Name τ)) : Prop :=
  ∀ x : Name, replace.lookup x.text = (value x).map textOf

/-- The dictionary of the texts of the values. -/
theorem gives_texts (d : List (Name × Document Name τ)) :
    Gives (d.map fun e => (e.1.text, textOf e.2)) (fun x => d.lookup x) := by
  intro x
  induction d with
  | nil => rfl
  | cons e d ih =>
    obtain ⟨y, v⟩ := e
    by_cases hxy : x = y
    · subst hxy
      simp
    · have htext : x.text ≠ y.text := by
        intro h
        obtain ⟨u, _⟩ := x
        obtain ⟨u', _⟩ := y
        exact hxy (by subst h; rfl)
      simpa [List.lookup_cons, beq_false_of_ne hxy, beq_false_of_ne htext] using ih

/-- **A round of the loop**: the first hole raises, or its value takes the place
of all holes of its name. -/
theorem firstLoop_round (hgives : Gives replace value)
    (hstable : ∀ x v, value x = some v → Stable (textOf v)) {ps : Document Name τ} {x : Name}
    {xs : List Name} (hholes : holes ps = x :: xs) (fuel : Nat) :
    firstLoop replace (fuel + 1) (textOf ps) =
      match value x with
      | none => some (.error (.exception (undefinedMessage x.text)))
      | some v => firstLoop replace fuel (textOf (subst x v ps)) := by
  have hsearch := search_textOf ps
  rw [hholes] at hsearch
  obtain ⟨m, hm, hgroup⟩ : ∃ m, search placeholder (textOf ps) = some m ∧
      m.group 1 = some x.text := by simpa using hsearch
  have hlookup := hgives x
  cases hv : value x with
  | none =>
    rw [hv] at hlookup
    simp only [firstLoop, hm, hgroup, Option.getD_some, hlookup, Option.map_none]
  | some v =>
    rw [hv] at hlookup
    have hsub : subText (targetPattern x.text) (textOf v) (textOf ps) =
        .ok (textOf (subst x v ps)) := by
      rw [subText_stable (literally_target x) (hstable x v hv), sub_textOf]
    simp only [firstLoop, hm, hgroup, Option.getD_some, hlookup, Option.map_some, hsub]

theorem firstLoop_closed {ps : Document Name τ} (hholes : holes ps = []) (fuel : Nat) :
    firstLoop replace (fuel + 1) (textOf ps) = some (.ok (textOf ps)) := by
  have hsearch := search_textOf ps
  rw [hholes] at hsearch
  have hnone : search placeholder (textOf ps) = none := by simpa using hsearch
  rw [firstLoop, hnone]

end

/-- **The loop runs as long as holes are left**, at most once for every
replacement that the expansion takes. -/
theorem firstLoop_expandsIn {replace : Replace} {d : Values} (hreplace : Renders replace d)
    (hback : ∀ x v, d.value x = some v → '\\' ∉ render v) (k : Nat) :
    ∀ ps qs, ExpandsIn d.value k ps qs → ∀ fuel, k < fuel →
      firstLoop replace fuel (render ps) = some (.ok (render qs)) := by
  have htexts : render = textOf := funext render_eq_textOf
  have hgives : Gives replace d.value := fun x => by rw [hreplace, htexts]
  have hstable : ∀ x v, d.value x = some v → Stable (textOf v) := by
    intro x v hv
    rw [← htexts]
    exact stable_of_no_backslash (hback x v hv)
  rw [htexts]
  induction k using Nat.strong_induction_on with
  | _ k ih =>
    intro ps qs h fuel hfuel
    obtain ⟨fuel, rfl⟩ : ∃ n, fuel = n + 1 := ⟨fuel - 1, by omega⟩
    cases hholes : holes ps with
    | nil => rw [firstLoop_closed hholes, h.of_closed hholes]
    | cons x xs =>
      have hx : x ∈ holes ps := by rw [hholes]; exact List.mem_cons_self ..
      obtain ⟨v, hv⟩ := h.defined hx
      obtain ⟨j, _, hlt, hj⟩ := h.subst hv
      have := hlt hx
      rw [firstLoop_round hgives hstable hholes, hv]
      exact ih j (hlt hx) _ _ hj fuel (by omega)

/-- What a dictionary has to be like for the loop to expand templates. -/
structure WellFormed (d : Values) : Prop where
  closed : ∀ x v, d.value x = some v → Closed d.value v
  noBackslash : ∀ x v, d.value x = some v → '\\' ∉ render v
  acyclic : Acyclic d.value

theorem renders_render (d : Values) : Renders d.render d := by
  intro x
  rw [Values.render, funext render_eq_textOf]
  exact gives_texts d x

theorem lookup_mem {α β : Type} [BEq α] [LawfulBEq α] {d : List (α × β)} {x : α} {v : β}
    (h : d.lookup x = some v) : (x, v) ∈ d := by
  obtain ⟨l, r, rfl, _⟩ := List.lookup_eq_some_iff.mp h
  simp

theorem lookup_finite {α β : Type} [BEq α] [LawfulBEq α] (d : List (α × β)) :
    {x | (d.lookup x).isSome}.Finite := by
  refine (List.finite_toSet (d.map Prod.fst)).subset fun x hx => ?_
  obtain ⟨v, hv⟩ := Option.isSome_iff_exists.mp hx
  exact List.mem_map.mpr ⟨(x, v), lookup_mem hv, rfl⟩

/-- **The first loop expands templates in full**: it ends, raises nothing, and
its result is the one expansion of the template, in which no placeholder of the
dictionary is left. -/
theorem firstLoop_expands {replace : Replace} {filename : Text} {d : Values} {template : Doc}
    (hreplace : Renders (withFilename replace filename) d) (hd : WellFormed d)
    (htemplate : Closed d.value template) :
    ∃! result, Expands d.value template result ∧ holes result = [] ∧
      ∃ rounds, ∀ fuel, rounds < fuel →
        expandTemplate (render template) filename replace fuel = some (.ok (render result)) := by
  obtain ⟨result, hresult⟩ := expands_of_acyclic (lookup_finite d) hd.acyclic hd.closed htemplate
  refine ⟨result, ⟨hresult, hresult.holes, ?_⟩, fun other hother => hother.1.unique hresult⟩
  obtain ⟨rounds, hrounds⟩ := hresult
  exact ⟨rounds, firstLoop_expandsIn hreplace hd.noBackslash rounds _ _ hrounds⟩

def holeOf (s : String) (h : ∀ c ∈ s.toList, nameChar c = true) : Piece Name Inert :=
  .hole ⟨s.toList, h⟩

def litOf (s : String) (h : NoHole s.toList ∧ s.toList.head? ≠ some '\x7b') : Piece Name Inert :=
  .inert (.lit s.toList h.1 h.2)

def lineOf (s : String) (h : NoHole s.toList) : Piece Name Inert := .inert (.line s.toList h)

/-- A message that mentions the call, the file and the line of the error; the
entry of the file name is the one `make_file` adds. -/
def sampleValues : Values :=
  [(⟨"filename".toList, by decide +kernel⟩, [litOf "Call_Send.c" (by decide +kernel)]),
    (⟨"errormsg".toList, by decide +kernel⟩,
      [holeOf "c" (by decide +kernel), litOf " at " (by decide +kernel),
        holeOf "filename" (by decide +kernel), litOf ":" (by decide +kernel),
        lineOf "MBIERROR" (by decide +kernel)]),
    (⟨"c".toList, by decide +kernel⟩, [litOf "MPI_Send" (by decide +kernel)])]

def sampleTemplate : Doc :=
  [holeOf "errormsg" (by decide +kernel), litOf "\n" (by decide +kernel),
    holeOf "c" (by decide +kernel), litOf "(buf); /* MBIERROR */" (by decide +kernel)]

def sampleReplace : Replace :=
  [("errormsg".toList, "@\x7bc\x7d@ at @\x7bfilename\x7d@:@\x7bline:MBIERROR\x7d@".toList),
    ("c".toList, "MPI_Send".toList)]

theorem sampleValues_renders :
    Renders (withFilename sampleReplace "Call_MPI_Send.c".toList) sampleValues := by
  have htexts : withFilename sampleReplace "Call_MPI_Send.c".toList = sampleValues.render := by
    decide +kernel
  rw [htexts]
  exact renders_render sampleValues

theorem sampleValues_wellFormed : WellFormed sampleValues := by
  have hclosed : ∀ e ∈ sampleValues, ∀ x ∈ holes e.2, (sampleValues.value x).isSome := by
    decide +kernel
  have hback : ∀ e ∈ sampleValues, '\\' ∉ render e.2 := by decide +kernel
  have hrank : ∀ e ∈ sampleValues, ∀ x ∈ holes e.2,
      (if x.text = "errormsg".toList then 1 else 0) <
        (if e.1.text = "errormsg".toList then 1 else 0) := by decide +kernel
  constructor
  · exact fun x v hv => hclosed _ (lookup_mem hv)
  · exact fun x v hv => hback _ (lookup_mem hv)
  · exact acyclic_of_rank (fun x => if x.text = "errormsg".toList then 1 else 0)
      fun x y ⟨v, hv, hy⟩ => hrank _ (lookup_mem hv) y hy

/-- The message of the sample is filled in. -/
theorem firstLoop_expands_sample : ∃! result,
    Expands sampleValues.value sampleTemplate result ∧ holes result = [] ∧
      ∃ rounds, ∀ fuel, rounds < fuel →
        expandTemplate (render sampleTemplate) "Call_MPI_Send.c".toList sampleReplace fuel =
          some (.ok (render result)) :=
  firstLoop_expands sampleValues_renders sampleValues_wellFormed (by decide +kernel)

example : expandTemplate (render sampleTemplate) "Call_MPI_Send.c".toList sampleReplace 5 =
    some (.ok ("MPI_Send at Call_Send.c:@\x7bline:MBIERROR\x7d@\n".toList ++
      "MPI_Send(buf); /* MBIERROR */".toList)) := by
  decide +kernel

end MpiBugs.MakeFile
