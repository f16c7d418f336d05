import MpiBugs.Literal

/-!
# Openings and placeholders

What the loops of `make_file` make of a text with placeholders inside others,
with openings that are never closed and with `@`s that belong to two of them. A
text is read once from the left, with a stack of the openings that are not yet
closed; what is read is a sequence of placeholders and strays.

* `mark_of_infix`, `upToHole_reading`: the placeholders that stand in a text and
  those that are read;
* `noHole_iff`: a text has no opening iff nothing is read in it.
-/

namespace MpiBugs.Openings

open Regex MakeFile Expansion Rewriting

/-! ## The reader -/

/-- What is read besides the placeholders of the first loop: one with a colon,
and an opening that closes nothing. -/
inductive Mark
  | line (name : Text)
  | stray
  deriving DecidableEq

abbrev Event := Piece Text Mark

/-- The placeholder of this name. -/
def mark (u : Text) : Event := if ':' ∈ u then .inert (.line u) else .hole u

/-- An opening: the name up to here, in which the placeholders inside stand for
their values, and whether an `@` is or may come to stand before it. -/
structure Frame where
  name : Text
  behind : Bool
  deriving DecidableEq

/-- What was read last: an `@` that may open a placeholder, the `@` that closed
one, a brace inside one, or something else. -/
inductive Last
  | other
  | brace
  | opening (behind : Bool)
  | closed
  deriving DecidableEq

structure Reader where
  stack : List Frame
  last : Last
  deriving DecidableEq

def start : Reader := ⟨[], .other⟩

/-- What names stand for inside others, and which of them may have an `@` before
their placeholder. -/
structure Rules where
  word : Text → Option Text
  behind : Text → Bool

/-- A character that neither opens nor closes a placeholder. -/
def take (stack : List Frame) (behind : Bool) (c : Char) : Reader :=
  if c = '@' then ⟨stack, .opening behind⟩
  else match stack with
    | [] => ⟨[], .other⟩
    | f :: fs => ⟨{ f with name := f.name ++ [c] } :: fs, if c = '\x7d' then .brace else .other⟩

/-- The name that the frame ends up with may stand behind an `@` if it does. -/
def Frame.allowed (rules : Rules) (f : Frame) : Bool :=
  !f.behind || rules.behind f.name.dropLast

/-- The `@` behind the brace of the innermost opening. -/
def close (rules : Rules) (f : Frame) (fs : List Frame) : Option (Reader × List Event) :=
  let u := f.name.dropLast
  if f.allowed rules then
    match fs with
    | [] => some (⟨[], .closed⟩, [mark u])
    | g :: gs => (rules.word u).map fun w =>
      (⟨{ g with name := g.name ++ w } :: gs, .closed⟩, [mark u])
  else none

/-- Openings that nothing closes any more. They count as one. -/
def strays : List Frame → List Event
  | [] => []
  | _ :: _ => [.inert .stray]

/-- One character. Nothing is read where the code would depend on what is put in
for the placeholder just closed. -/
def read (rules : Rules) (s : Reader) (c : Char) : Option (Reader × List Event) :=
  match s.last, s.stack with
  | .other, fs => some (take fs false c, [])
  | .closed, fs => if c = '\x7b' then none else some (take fs true c, [])
  | .brace, [] => none
  | .brace, f :: fs => if c = '@' then close rules f fs else some (take (f :: fs) false c, [])
  | .opening b, fs =>
    if c = '\x7b' then some (⟨⟨[], b⟩ :: fs, .other⟩, [])
    else some (take [] true c, strays fs)

def run (rules : Rules) : Reader → Text → Option (Reader × List Event)
  | s, [] => some (s, [])
  | s, c :: t => (read rules s c).bind fun r =>
    (run rules r.1 t).map fun r' => (r'.1, r.2 ++ r'.2)

/-- What is read in a text. At its end the openings are strays. -/
def reading (rules : Rules) (t : Text) : Option (List Event) :=
  (run rules start t).map fun r => r.2 ++ strays r.1.stack

variable {rules : Rules} {s s' p p' q : Reader} {t u v : Text} {c : Char} {es o : List Event}
  {fs fs' : List Frame} {b b' : Bool}

theorem take_at : take fs b '@' = ⟨fs, .opening b⟩ := rfl

theorem take_nil (hc : c ≠ '@') : take [] b c = start := if_neg hc

theorem take_name {f : Frame} (hc : c ≠ '@') : take (f :: fs) b c =
    ⟨{ f with name := f.name ++ [c] } :: fs, if c = '\x7d' then .brace else .other⟩ := if_neg hc

@[simp] theorem read_other : read rules ⟨fs, .other⟩ c = some (take fs false c, []) := rfl

@[simp] theorem read_closed : read rules ⟨fs, .closed⟩ c =
    if c = '\x7b' then none else some (take fs true c, []) := rfl

@[simp] theorem read_brace {f : Frame} : read rules ⟨f :: fs, .brace⟩ c =
    if c = '@' then close rules f fs else some (take (f :: fs) false c, []) := rfl

@[simp] theorem read_opening : read rules ⟨fs, .opening b⟩ c =
    if c = '\x7b' then some (⟨⟨[], b⟩ :: fs, .other⟩, []) else some (take [] true c, strays fs) := rfl

theorem close_nil_iff {f : Frame} : close rules f [] = some (p, es) ↔
    f.allowed rules = true ∧ p = ⟨[], .closed⟩ ∧ es = [mark f.name.dropLast] := by
  cases h : f.allowed rules <;> simp [close, h, eq_comm]

theorem close_cons_iff {f g : Frame} : close rules f (g :: fs) = some (p, es) ↔
    f.allowed rules = true ∧ ∃ w, rules.word f.name.dropLast = some w ∧
      p = ⟨{ g with name := g.name ++ w } :: fs, .closed⟩ ∧ es = [mark f.name.dropLast] := by
  cases h : f.allowed rules <;> simp [close, h, eq_comm]

/-- Closing reads the name, and nothing directly behind its `@` opens. -/
theorem of_close {f : Frame} (h : close rules f fs = some (p, es)) :
    (∃ gs, p = ⟨gs, .closed⟩) ∧ es = [mark f.name.dropLast] := by
  cases fs with
  | nil =>
    obtain ⟨_, rfl, rfl⟩ := close_nil_iff.mp h
    exact ⟨⟨[], rfl⟩, rfl⟩
  | cons g gs =>
    obtain ⟨_, w, _, rfl, rfl⟩ := close_cons_iff.mp h
    exact ⟨⟨_, rfl⟩, rfl⟩

theorem run_cons_iff : run rules s (c :: t) = some (q, es) ↔
    ∃ p e es', read rules s c = some (p, e) ∧ run rules p t = some (q, es') ∧ es = e ++ es' := by
  rw [run]
  constructor
  · intro h
    obtain ⟨⟨p, e⟩, hp, h⟩ := Option.bind_eq_some_iff.mp h
    obtain ⟨⟨q', es'⟩, hq, h⟩ := Option.map_eq_some_iff.mp h
    obtain ⟨rfl, rfl⟩ := Prod.mk.inj h
    exact ⟨p, e, es', hp, hq, rfl⟩
  · rintro ⟨p, e, es', hp, hq, rfl⟩
    simp [hp, hq]

theorem run_append_iff : run rules s (t ++ u) = some (q, es) ↔
    ∃ p e es', run rules s t = some (p, e) ∧ run rules p u = some (q, es') ∧ es = e ++ es' := by
  induction t generalizing s es with
  | nil => simp [run]
  | cons c t ih =>
    simp only [List.cons_append, run_cons_iff, ih]
    constructor
    · rintro ⟨p, e, _, hp, ⟨p', e', es', hp', hq, rfl⟩, rfl⟩
      exact ⟨p', e ++ e', es', ⟨p, e, e', hp, hp', rfl⟩, hq, by rw [List.append_assoc]⟩
    · rintro ⟨p', _, es', ⟨p, e, e', hp, hp', rfl⟩, hq, rfl⟩
      exact ⟨p, e, e' ++ es', hp, ⟨p', e', es', hp', hq, rfl⟩, by rw [List.append_assoc]⟩

/-- What one character does. -/
inductive Step (rules : Rules) : Reader → Char → Reader → List Event → Prop
  | closed {f : Frame} {fs : List Frame} {p : Reader} {e : List Event} :
      close rules f fs = some (p, e) → Step rules ⟨f :: fs, .brace⟩ '@' p e
  | opened {fs : List Frame} {b : Bool} :
      Step rules ⟨fs, .opening b⟩ '\x7b' ⟨⟨[], b⟩ :: fs, .other⟩ []
  | given {fs : List Frame} {b : Bool} {c : Char} : c ≠ '\x7b' →
      Step rules ⟨fs, .opening b⟩ c (take [] true c) (strays fs)
  | taken {fs : List Frame} {l : Last} {b : Bool} {c : Char} : (∀ b, l ≠ .opening b) →
      (l = .brace → c ≠ '@') → Step rules ⟨fs, l⟩ c (take fs b c) []

theorem step_of_read (h : read rules s c = some (p, es)) : Step rules s c p es := by
  obtain ⟨fs, l⟩ := s
  cases l with
  | other =>
    obtain ⟨rfl, rfl⟩ := Prod.mk.inj (Option.some.inj h)
    exact .taken (by simp) (by simp)
  | closed =>
    rw [read_closed] at h
    split_ifs at h
    obtain ⟨rfl, rfl⟩ := Prod.mk.inj (Option.some.inj h)
    exact .taken (by simp) (by simp)
  | opening b =>
    rw [read_opening] at h
    split_ifs at h with hc
    · obtain ⟨rfl, rfl⟩ := Prod.mk.inj (Option.some.inj h)
      exact hc ▸ .opened
    · obtain ⟨rfl, rfl⟩ := Prod.mk.inj (Option.some.inj h)
      exact .given hc
  | brace =>
    cases fs with
    | nil => cases h
    | cons f fs =>
      rw [read_brace] at h
      split_ifs at h with hc
      · exact hc ▸ .closed h
      · obtain ⟨rfl, rfl⟩ := Prod.mk.inj (Option.some.inj h)
        exact .taken (by simp) fun _ => hc

/-! ## A placeholder -/

/-- What stands before a new placeholder: the openings around it, whether there
may be an `@`, and the openings that its `@` gives up. -/
inductive Opens : Reader → List Frame → Bool → List Event → Prop
  | other {fs : List Frame} : Opens ⟨fs, .other⟩ fs false []
  | closed {fs : List Frame} : Opens ⟨fs, .closed⟩ fs true []
  | opening {fs : List Frame} {b : Bool} : Opens ⟨fs, .opening b⟩ [] true (strays fs)

/-- The characters of a name and its closing brace. -/
theorem run_name (hu : '@' ∉ u) {f : Frame} {l : Last} (hl : l = .other ∨ l = .brace) :
    run rules ⟨f :: fs, l⟩ (u ++ ['\x7d']) =
      some (⟨{ f with name := f.name ++ (u ++ ['\x7d']) } :: fs, .brace⟩, []) := by
  have hread : ∀ c ≠ '@', ∀ (f : Frame) (l : Last), l = .other ∨ l = .brace →
      read rules ⟨f :: fs, l⟩ c = some (⟨{ f with name := f.name ++ [c] } :: fs,
        if c = '\x7d' then .brace else .other⟩, []) := by
    rintro c hc f l (rfl | rfl)
    · rw [read_other, take_name hc]
    · rw [read_brace, if_neg hc, take_name hc]
  induction u generalizing f l with
  | nil => simp [run, hread '\x7d' (by decide) f l hl]
  | cons c u ih =>
    rw [List.mem_cons, not_or] at hu
    rw [List.cons_append, run, hread c (Ne.symm hu.1) f l hl, Option.bind_some,
      ih hu.2 (by split <;> simp)]
    simp

/-- **A placeholder is read.** -/
theorem run_hole (hu : '@' ∉ u) (h : run rules s (holeText u) = some (p, es)) :
    ∃ fs b e, Opens s fs b e ∧ close rules ⟨u ++ ['\x7d'], b⟩ fs = some (p, [mark u]) ∧
      es = e ++ [mark u] := by
  have hopened : ∀ fs b es, run rules ⟨⟨[], b⟩ :: fs, .other⟩ (u ++ ['\x7d', '@']) = some (p, es) →
      close rules ⟨u ++ ['\x7d'], b⟩ fs = some (p, [mark u]) ∧ es = [mark u] := by
    intro fs b es h
    rw [show u ++ ['\x7d', '@'] = (u ++ ['\x7d']) ++ ['@'] by simp] at h
    obtain ⟨q, e, es', hq, hp, rfl⟩ := run_append_iff.mp h
    rw [run_name hu (.inl rfl)] at hq
    obtain ⟨rfl, rfl⟩ := Prod.mk.inj (Option.some.inj hq)
    obtain ⟨p', e', _, hp', hnil, rfl⟩ := run_cons_iff.mp hp
    obtain ⟨rfl, rfl⟩ := Prod.mk.inj (Option.some.inj hnil)
    rw [read_brace, if_pos rfl] at hp'
    obtain ⟨_, rfl⟩ := of_close hp'
    exact ⟨by simpa using hp', by simp⟩
  obtain ⟨q, e, _, hq, hrest, rfl⟩ := run_cons_iff.mp h
  obtain ⟨q', e', es₂, hq', hname, rfl⟩ := run_cons_iff.mp hrest
  -- after the first `@` the brace opens
  have hbrace : ∀ fs b, q = ⟨fs, .opening b⟩ →
      close rules ⟨u ++ ['\x7d'], b⟩ fs = some (p, [mark u]) ∧ e' ++ es₂ = [mark u] := by
    rintro fs b rfl
    rw [read_opening, if_pos rfl] at hq'
    obtain ⟨rfl, rfl⟩ := Prod.mk.inj (Option.some.inj hq')
    exact hopened fs b es₂ hname
  obtain ⟨fs, l⟩ := s
  cases l with
  | other =>
    obtain ⟨rfl, rfl⟩ := Prod.mk.inj (Option.some.inj hq)
    obtain ⟨hclose, hes⟩ := hbrace fs false rfl
    exact ⟨fs, false, [], .other, hclose, by rw [hes]⟩
  | closed =>
    rw [read_closed, if_neg (by decide)] at hq
    obtain ⟨rfl, rfl⟩ := Prod.mk.inj (Option.some.inj hq)
    obtain ⟨hclose, hes⟩ := hbrace fs true rfl
    exact ⟨fs, true, [], .closed, hclose, by rw [hes]⟩
  | opening b =>
    rw [read_opening, if_neg (by decide)] at hq
    obtain ⟨rfl, rfl⟩ := Prod.mk.inj (Option.some.inj hq)
    obtain ⟨hclose, hes⟩ := hbrace [] true rfl
    exact ⟨[], true, strays fs, .opening, hclose, by rw [hes]⟩
  | brace =>
    -- the first `@` closes the placeholder before, and the brace is not read
    cases fs with
    | nil => cases hq
    | cons f fs =>
      rw [read_brace, if_pos rfl] at hq
      obtain ⟨⟨gs, rfl⟩, _⟩ := of_close hq
      rw [read_closed, if_pos rfl] at hq'
      cases hq'

/-! ## What stands in the text -/

/-- **A placeholder that stands in the text is read.** -/
theorem mark_of_infix (h : reading rules t = some es) (hu : '@' ∉ u) (hin : holeText u <:+: t) :
    mark u ∈ es := by
  obtain ⟨⟨p, e⟩, hrun, rfl⟩ := Option.map_eq_some_iff.mp h
  obtain ⟨a, b, rfl⟩ := hin
  obtain ⟨_, _, _, hleft, _, rfl⟩ := run_append_iff.mp hrun
  obtain ⟨_, _, _, _, hhole, rfl⟩ := run_append_iff.mp hleft
  obtain ⟨_, _, _, _, _, rfl⟩ := run_hole hu hhole
  simp

/-- What is read up to the first placeholder of the first loop. -/
def UpToHole (P : Event → Prop) : List Event → Prop
  | [] => True
  | .hole x :: _ => P (.hole x)
  | .inert (.line u) :: es => P (.inert (.line u)) ∧ UpToHole P es
  | .inert .stray :: es => UpToHole P es

theorem upToHole_head {P : Event → Prop} (h : UpToHole P es) {x : Text} {xs : List Text}
    (hx : holes es = x :: xs) : P (.hole x) := by
  induction es with
  | nil => cases hx
  | cons e es ih =>
    cases e with
    | hole y =>
      obtain ⟨rfl, _⟩ := List.cons.inj hx
      exact h
    | inert m =>
      cases m with
      | line u => exact ih h.2 hx
      | stray => exact ih h hx

theorem upToHole_lines {P : Event → Prop} (h : UpToHole P es) (hx : holes es = []) :
    ∀ u, .inert (.line u) ∈ es → P (.inert (.line u)) := by
  induction es with
  | nil => simp
  | cons e es ih =>
    cases e with
    | hole y => cases hx
    | inert m =>
      intro u hu
      cases m with
      | line w =>
        rcases List.mem_cons.mp hu with heq | hu
        · rw [heq]
          exact h.1
        · exact ih h.2 hx u hu
      | stray =>
        rcases List.mem_cons.mp hu with heq | hu
        · cases heq
        · exact ih h hx u hu

/-- The innermost name is what the text `t`, read so far, ends with. -/
inductive Spelled (t : Text) : Reader → Prop
  | outside {l : Last} : (∀ b, l ≠ .opening b) → Spelled t ⟨[], l⟩
  | opening {fs : List Frame} {b : Bool} : ['@'] <:+ t → Spelled t ⟨fs, .opening b⟩
  | name {f : Frame} {fs : List Frame} {l : Last} : l = .other ∨ l = .brace → '@' ∉ f.name →
      (l = .brace → f.name.getLast? = some '\x7d') → '@' :: '\x7b' :: f.name <:+ t →
        Spelled t ⟨f :: fs, l⟩

/-- The placeholder stands in the text. -/
def Stands (t : Text) (e : Event) : Prop := ∃ u, e = mark u ∧ '@' ∉ u ∧ holeText u <:+: t

theorem spelled_outside : Spelled (t ++ [c]) (take [] b c) := by
  by_cases hc : c = '@'
  · rw [hc, take_at]
    exact .opening (List.suffix_append t ['@'])
  · rw [take_nil hc]
    exact .outside (by simp)

theorem spelled_take (h : Spelled t s) (hl : ∀ b, s.last ≠ .opening b) :
    Spelled (t ++ [c]) (take s.stack b c) := by
  cases h with
  | opening _ => exact absurd rfl (hl _)
  | outside _ => exact spelled_outside
  | @name f fs l _ hat _ hsuffix =>
    obtain ⟨a, rfl⟩ := hsuffix
    by_cases hc : c = '@'
    · rw [hc, take_at]
      exact .opening (List.suffix_append _ ['@'])
    · rw [take_name hc]
      refine .name (by split <;> simp) (by simp [hat, Ne.symm hc]) ?_ ⟨a, by simp⟩
      split_ifs with hbrace
      · simp [hbrace]
      · simp

theorem spelled_step (hlines : ∀ u, ':' ∈ u → rules.word u = none) (h : Spelled t s)
    (hstep : Step rules s c p es) :
    (es = [] ∨ es = [.inert .stray]) ∧ Spelled (t ++ [c]) p ∨
      ∃ u, es = [mark u] ∧ Stands (t ++ [c]) (mark u) ∧ (':' ∈ u → Spelled (t ++ [c]) p) := by
  cases hstep with
  | @opened fs b =>
    cases h with
    | outside hl => exact absurd rfl (hl b)
    | name hl => rcases hl with hl | hl <;> cases hl
    | opening hat =>
      obtain ⟨a, rfl⟩ := hat
      exact .inl ⟨.inl rfl, .name (.inl rfl) (by simp) (by simp) ⟨a, by simp⟩⟩
  | @given fs b =>
    refine .inl ⟨?_, spelled_outside⟩
    cases fs with
    | nil => exact .inl rfl
    | cons => exact .inr rfl
  | taken hl _ => exact .inl ⟨.inl rfl, spelled_take h hl⟩
  | @closed f fs _ _ hclose =>
    cases h with
    | name _ hat hbrace hsuffix =>
      obtain ⟨u, hu⟩ := List.getLast?_eq_some_iff.mp (hbrace rfl)
      obtain ⟨a, rfl⟩ := hsuffix
      have hname : f.name.dropLast = u := by rw [hu, List.dropLast_concat]
      have hstands : Stands (a ++ '@' :: '\x7b' :: f.name ++ ['@']) (mark u) := by
        rw [hu, List.mem_append, not_or] at hat
        exact ⟨u, rfl, hat.1, a, [], by simp [holeText, hu]⟩
      right
      cases fs with
      | nil =>
        obtain ⟨_, rfl, rfl⟩ := close_nil_iff.mp hclose
        exact ⟨u, by rw [hname], hstands, fun _ => .outside (by simp)⟩
      | cons g fs =>
        obtain ⟨_, w, hw, rfl, rfl⟩ := close_cons_iff.mp hclose
        refine ⟨u, by rw [hname], hstands, fun hcolon => ?_⟩
        rw [hname, hlines u hcolon] at hw
        cases hw

theorem upToHole_run (hlines : ∀ u, ':' ∈ u → rules.word u = none) {r : Text}
    (h : Spelled r s) (hrun : run rules s t = some (p, es)) :
    UpToHole (Stands (r ++ t)) es := by
  induction t generalizing r s es with
  | nil =>
    obtain ⟨_, rfl⟩ := Prod.mk.inj (Option.some.inj hrun)
    trivial
  | cons c t ih =>
    obtain ⟨q, e, es, hq, hp, rfl⟩ := run_cons_iff.mp hrun
    have hrest : Spelled (r ++ [c]) q → UpToHole (Stands (r ++ c :: t)) es := by
      intro hspelled
      have h := ih hspelled hp
      rwa [List.append_assoc] at h
    rcases spelled_step hlines h (step_of_read hq) with ⟨rfl | rfl, hspelled⟩ | ⟨u, rfl, hstands, hcolon⟩
    · exact hrest hspelled
    · exact hrest hspelled
    · have hstands : Stands (r ++ c :: t) (mark u) := by
        obtain ⟨u', hu', hat, hin⟩ := hstands
        refine ⟨u', hu', hat, hin.trans ⟨[], t, by simp⟩⟩
      unfold mark at hstands ⊢
      split_ifs at hstands ⊢ with h
      · exact ⟨hstands, hrest (hcolon h)⟩
      · exact hstands

theorem upToHole_strays {P : Event → Prop} (h : UpToHole P es) : UpToHole P (es ++ strays fs) := by
  induction es with
  | nil => cases fs <;> trivial
  | cons e es ih =>
    cases e with
    | hole x => exact h
    | inert m =>
      cases m with
      | line u => exact ⟨h.1, ih h.2⟩
      | stray => exact ih h

/-- **The placeholders read stand in the text**, up to the first one that is
filled in. -/
theorem upToHole_reading (hlines : ∀ u, ':' ∈ u → rules.word u = none)
    (h : reading rules t = some es) : UpToHole (Stands t) es := by
  obtain ⟨⟨p, e⟩, hrun, rfl⟩ := Option.map_eq_some_iff.mp h
  exact upToHole_strays (upToHole_run (r := []) hlines (.outside (by simp)) hrun)

/-! ## Texts without openings -/

/-- What a reader knows of the text `t` read so far. -/
structure Shown (t : Text) (s : Reader) : Prop where
  opening : ∀ b, s.last = .opening b → ['@'] <:+ t
  opened : s.stack ≠ [] → ['@', '\x7b'] <:+: t

theorem shown_take (hfs : fs ≠ [] → ['@', '\x7b'] <:+: t) : Shown (t ++ [c]) (take fs b c) := by
  have hopened : fs ≠ [] → ['@', '\x7b'] <:+: t ++ [c] :=
    fun h => (hfs h).trans (List.prefix_append t [c]).isInfix
  by_cases hc : c = '@'
  · subst hc
    exact ⟨fun _ _ => List.suffix_append t ['@'], hopened⟩
  · cases fs with
    | nil =>
      rw [take_nil hc]
      exact ⟨by simp [start], by simp [start]⟩
    | cons f fs =>
      rw [take_name hc]
      refine ⟨fun b hb => ?_, fun _ => hopened (by simp)⟩
      simp only at hb
      split at hb <;> cases hb

theorem shown_step (h : Shown t s) (hstep : Step rules s c p es) :
    Shown (t ++ [c]) p ∧ (es ≠ [] → ['@', '\x7b'] <:+: t) := by
  cases hstep with
  | opened =>
    obtain ⟨a, rfl⟩ := h.opening _ rfl
    exact ⟨⟨by simp, fun _ => ⟨a, [], by simp⟩⟩, by simp⟩
  | @given fs b =>
    refine ⟨shown_take (by simp), fun hstrays => h.opened fun hfs => hstrays ?_⟩
    rw [show fs = [] from hfs]
    rfl
  | taken => exact ⟨shown_take h.opened, by simp⟩
  | @closed f fs _ _ hclose =>
    have hin := h.opened (by simp)
    have hkept : ['@', '\x7b'] <:+: t ++ ['@'] := hin.trans (List.prefix_append t ['@']).isInfix
    obtain ⟨⟨gs, rfl⟩, _⟩ := of_close hclose
    exact ⟨⟨by simp, fun _ => hkept⟩, fun _ => hin⟩

theorem shown_run {r : Text} (h : Shown r s) (hrun : run rules s t = some (p, es)) :
    Shown (r ++ t) p ∧ (es ≠ [] → ['@', '\x7b'] <:+: r ++ t) := by
  induction t generalizing r s es with
  | nil =>
    obtain ⟨rfl, rfl⟩ := Prod.mk.inj (Option.some.inj hrun)
    exact ⟨by simpa using h, by simp⟩
  | cons c t ih =>
    obtain ⟨q, e, es, hq, hp, rfl⟩ := run_cons_iff.mp hrun
    obtain ⟨hshown, he⟩ := shown_step h (step_of_read hq)
    obtain ⟨hend, hes⟩ := ih hshown hp
    rw [List.append_assoc] at hend hes
    refine ⟨hend, fun hne => ?_⟩
    by_cases hnil : e = []
    · exact hes fun h => hne (by rw [hnil, h]; rfl)
    · exact (he hnil).trans (List.prefix_append r (c :: t)).isInfix

/-- An opening stays open until something is read. -/
theorem open_step (hs : s.stack ≠ []) (hstep : Step rules s c p es) : es ≠ [] ∨ p.stack ≠ [] := by
  cases hstep with
  | opened => exact .inr (by simp)
  | @given fs =>
    obtain ⟨f, fs, rfl⟩ := List.exists_cons_of_ne_nil hs
    exact .inl (by simp [strays])
  | @taken fs =>
    obtain ⟨f, fs, rfl⟩ := List.exists_cons_of_ne_nil hs
    right
    by_cases hc : c = '@'
    · rw [hc, take_at]
      exact hs
    · simp [take_name hc]
  | closed hclose => exact .inl (by simp [(of_close hclose).2])

theorem open_run (hs : s.stack ≠ []) (hrun : run rules s t = some (p, es)) :
    es ≠ [] ∨ p.stack ≠ [] := by
  induction t generalizing s es with
  | nil =>
    obtain ⟨rfl, rfl⟩ := Prod.mk.inj (Option.some.inj hrun)
    exact .inr hs
  | cons c t ih =>
    obtain ⟨q, e, es, hq, hp, rfl⟩ := run_cons_iff.mp hrun
    rcases open_step hs (step_of_read hq) with he | hstack
    · exact .inl (by simp [he])
    · exact (ih hstack hp).imp_left fun hes => by simp [hes]

/-- The brace behind an `@` opens, or the `@` has closed something. -/
theorem opened_run {t : Text} (hrun : run rules s ('@' :: '\x7b' :: t) = some (p, es)) :
    es ≠ [] ∨ p.stack ≠ [] := by
  obtain ⟨q, e, _, hq, hrest, rfl⟩ := run_cons_iff.mp hrun
  obtain ⟨q', e', es, hq', hp, rfl⟩ := run_cons_iff.mp hrest
  have hopening : (∃ gs b, q = ⟨gs, .opening b⟩) → e ++ (e' ++ es) ≠ [] ∨ p.stack ≠ [] := by
    rintro ⟨gs, b, rfl⟩
    rw [read_opening, if_pos rfl] at hq'
    obtain ⟨rfl, rfl⟩ := Prod.mk.inj (Option.some.inj hq')
    exact (open_run (by simp) hp).imp_left fun hes => by simp [hes]
  have hstep := step_of_read hq
  cases hstep with
  | given => exact hopening ⟨_, _, rfl⟩
  | taken => exact hopening ⟨_, _, rfl⟩
  | closed hclose => exact .inl (by simp [(of_close hclose).2])

/-- **A text has no opening** iff nothing is read in it. -/
theorem noHole_iff (h : reading rules t = some es) : NoHole t ↔ es = [] := by
  obtain ⟨⟨p, e⟩, hrun, rfl⟩ := Option.map_eq_some_iff.mp h
  constructor
  · intro hno
    obtain ⟨hshown, he⟩ := shown_run (r := []) ⟨by simp [start], by simp [start]⟩ hrun
    have hnil : e = [] := by_contra fun hne => hno (he hne)
    have hstack : p.stack = [] := by_contra fun hne => hno (hshown.opened hne)
    simp [hnil, hstack, strays]
  · rintro hes ⟨a, b, rfl⟩
    obtain ⟨hnil, hstrays⟩ := List.append_eq_nil_iff.mp hes
    rw [List.append_assoc] at hrun
    obtain ⟨q, e₁, e₂, _, hopen, rfl⟩ := run_append_iff.mp hrun
    rcases opened_run hopen with hne | hne
    · exact hne (List.append_eq_nil_iff.mp hnil).2
    · obtain ⟨f, fs, hstack⟩ := List.exists_cons_of_ne_nil hne
      rw [hstack] at hstrays
      cases hstrays

end MpiBugs.Openings
