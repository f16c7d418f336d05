import MpiBugs.LineTargets

/-!
# Documents with line placeholders and strays

What the second loop of `make_file` does with a text that is made of literal
text, of line placeholders and of openings whose next `@` has no closing brace
before it, where no two of these share an `@`.

* `search_fixedText`: the line placeholder found is the first one;
* `sub_fixedText`: a substitution fills in the placeholders of one target;
* `lineStep_closed`, `lineStep_found`: a round of the loop.
-/

namespace MpiBugs.MakeFile

open Regex Expansion Rewriting
open Header (natText)
open Batch (natText_digits)

/-! ## Documents with strays -/

/-- What the first loop leaves in place. -/
inductive Fixed
  | lit (t : Text) (noHole : NoHole t) (noBrace : t.head? ≠ some '\x7b')
  | line (target : Text) (plain : ∀ c ∈ target, plainChar c = true) (noAt : '@' ∉ target)
  | stray (t : Text) (noAt : '@' ∉ t) (unclosed : t.getLast? ≠ some '\x7d')

namespace Fixed

def text : Fixed → Text
  | lit t _ _ => t
  | line t _ _ => lineHole t
  | stray t _ _ => '@' :: '\x7b' :: (t ++ ['@'])

theorem noBrace (p : Fixed) : p.text.head? ≠ some '\x7b' := by
  cases p with
  | lit t _ h => exact h
  | line t _ _ => simp [text, lineHole]
  | stray t _ _ => simp [text]

end Fixed

variable {r : Regex}

theorem noHole_brace {t : Text} (ht : '@' ∉ t) : NoHole ('\x7b' :: (t ++ ['@'])) := by
  have hlast : NoHole (t ++ ['@']) := by
    induction t with
    | nil => decide
    | cons c t ih =>
      rw [List.mem_cons, not_or] at ht
      exact (noHole_cons _ _).mpr ⟨fun h => ht.1 h.1.symm, ih ht.2⟩
  exact (noHole_cons _ _).mpr ⟨by simp, hlast⟩

/-- Nothing with braces matches in a stray. -/
theorem skips_stray (hr : Braced r) {t s : Text} (ht : '@' ∉ t) (hlast : t.getLast? ≠ some '\x7d')
    (hs : s.head? ≠ some '\x7b') : Skips r ('@' :: '\x7b' :: (t ++ ['@'])) s := by
  refine ⟨(first_eq_none_iff _ _).mpr fun st hst => ?_, skips_of_noHole hr (noHole_brace ht) hs⟩
  obtain ⟨u, hu, heq⟩ := hr _ _ hst
  have hsplit : t ++ '@' :: s = (u ++ ['\x7d']) ++ '@' :: st.rest := by
    have h := (List.cons.inj (List.cons.inj heq).2).2
    simpa using h
  have hno : ∀ {v : Text}, '@' ∉ v → ∀ c ∈ v, ¬ c = '@' := fun hv c hc h => hv (h ▸ hc)
  obtain ⟨rfl, _⟩ := split_unique (P := (· = '@')) hsplit rfl rfl (hno ht) (hno (by simp [hu]))
  exact hlast (by rw [List.getLast?_concat])

theorem noHole_lineHole {t : Text} (ht : '@' ∉ t) : NoHole (lineHole t).tail := by
  have h := noHole_brace (t := 'l' :: 'i' :: 'n' :: 'e' :: ':' :: (t ++ ['\x7d'])) (by simp [ht])
  simpa [lineHole] using h

instance : Passive Fixed where
  text := Fixed.text
  noBrace := Fixed.noBrace
  skips {r} hr p s hs := by
    cases p with
    | lit t hno _ => exact skips_of_noHole hr.braced hno hs
    | line t _ hat =>
      have hfirst := first_line hr (t ++ ['\x7d', '@'] ++ s)
      exact ⟨hfirst, skips_of_noHole hr.braced (noHole_lineHole hat) hs⟩
    | stray t hat hlast => exact skips_stray hr.braced hat hlast hs

/-! ## The second loop -/

/-- The text of pieces one after the other. -/
def fixedText : List Fixed → Text
  | [] => []
  | p :: ps => p.text ++ fixedText ps

/-- The targets of the line placeholders, in order. -/
def targets : List Fixed → List Text
  | [] => []
  | .line t _ _ :: ps => t :: targets ps
  | _ :: ps => targets ps

theorem fixedText_head (ps : List Fixed) : (fixedText ps).head? ≠ some '\x7b' := by
  induction ps with
  | nil => simp [fixedText]
  | cons p ps ih =>
    have hp := p.noBrace
    rw [fixedText]
    cases htext : p.text with
    | nil => exact ih
    | cons c t => rwa [htext] at hp

theorem noHole_natText (n : Nat) : NoHole (natText n) :=
  noHole_of_no_at (not_mem_of_isDigit (natText_digits n) (by decide))

theorem natText_head (n : Nat) : (natText n).head? ≠ some '\x7b' := by
  intro h
  have hdigit := natText_digits n _ (List.mem_of_head? h)
  cases hdigit

/-- A number put in for the placeholders of one target. -/
def Fixed.fill (target : Text) (n : Nat) : Fixed → Fixed
  | .line t ht hat =>
    if t = target then .lit (natText n) (noHole_natText n) (natText_head n) else .line t ht hat
  | p => p

theorem targets_fill (target : Text) (n : Nat) (ps : List Fixed) :
    targets (ps.map (Fixed.fill target n)) = (targets ps).filter (· ≠ target) := by
  induction ps with
  | nil => rfl
  | cons p ps ih =>
    cases p with
    | lit => exact ih
    | stray => exact ih
    | line t ht hat =>
      rw [List.map_cons, Fixed.fill]
      by_cases h : t = target
      · rw [if_pos h]
        show targets (ps.map (Fixed.fill target n)) = (t :: targets ps).filter (· ≠ target)
        rw [ih, List.filter_cons_of_neg (by simp [h])]
      · rw [if_neg h, targets, targets, ih, List.filter_cons_of_pos (by simp [h])]

theorem plain_of_mem_targets (ps : List Fixed) :
    ∀ t ∈ targets ps, (∀ c ∈ t, plainChar c = true) ∧ '@' ∉ t := by
  induction ps with
  | nil => simp [targets]
  | cons p ps ih =>
    cases p with
    | lit => exact ih
    | stray => exact ih
    | line t hplain hat => exact List.forall_mem_cons.mpr ⟨⟨hplain, hat⟩, ih⟩

/-- A text up to its only closing brace and `@`. -/
theorem braced_unique {t u s v : Text} (ht : '@' ∉ t) (hu : '@' ∉ u)
    (h : t ++ '\x7d' :: '@' :: s = u ++ '\x7d' :: '@' :: v) : t = u ∧ s = v := by
  have hsplit : (t ++ ['\x7d']) ++ '@' :: s = (u ++ ['\x7d']) ++ '@' :: v := by simpa using h
  have hno : ∀ {w : Text}, '@' ∉ w → ∀ c ∈ w ++ ['\x7d'], ¬ c = '@' := by
    rintro w hw c hc rfl
    simp [hw] at hc
  obtain ⟨heq, _, hsv⟩ := split_unique (P := (· = '@')) hsplit rfl rfl (hno ht) (hno hu)
  exact ⟨List.append_cancel_right heq, hsv⟩

theorem braced_lineHole {t : Text} (ht : '@' ∉ t) : Braced (lit (lineHole t)) := by
  intro s st hst
  obtain ⟨hs, _⟩ := (steps_lit_iff _ _ _).mp hst
  refine ⟨'l' :: 'i' :: 'n' :: 'e' :: ':' :: t, by simp [ht], ?_⟩
  simpa [lineHole] using hs

theorem skips_lineHole_ne {t u s : Text} (ht : '@' ∉ t) (hu : '@' ∉ u) (hne : u ≠ t)
    (hs : s.head? ≠ some '\x7b') : Skips (lit (lineHole t)) (lineHole u) s := by
  refine ⟨(first_eq_none_iff _ _).mpr fun st hst => ?_,
    skips_of_noHole (braced_lineHole ht) (noHole_lineHole hu) hs⟩
  obtain ⟨heq, _⟩ := (steps_lit_iff _ _ _).mp hst
  have hsplit : u ++ '\x7d' :: '@' :: s = t ++ '\x7d' :: '@' :: st.rest := by
    simpa [lineHole] using heq
  exact hne (braced_unique hu ht hsplit).1

/-- **A substitution puts the number in for the placeholders of its target.** -/
theorem sub_fixedText {target : Text} (hat : '@' ∉ target) (n : Nat) (ps : List Fixed) :
    sub (lit (lineHole target)) (fun _ => natText n) (fixedText ps) =
      fixedText (ps.map (Fixed.fill target n)) := by
  have hcons : Consuming (lit (lineHole target)) := consuming_lit (lineHole_ne_nil _)
  induction ps with
  | nil => exact sub_nil hcons _
  | cons p ps ih =>
    have hhead := fixedText_head ps
    rw [List.map_cons, fixedText, fixedText, ← ih]
    cases p with
    | lit t hno hb => exact sub_of_skips hcons _ (skips_of_noHole (braced_lineHole hat) hno hhead)
    | stray t ht hlast => exact sub_of_skips hcons _ (skips_stray (braced_lineHole hat) ht hlast hhead)
    | line t hplain ht =>
      by_cases heq : t = target
      · subst heq
        have hfirst : first (lit (lineHole t)) (lineHole t ++ fixedText ps) =
            some ⟨fixedText ps, []⟩ := head?_lit _ _ _
        rw [Fixed.fill, if_pos rfl]
        exact sub_of_first hcons _ hfirst
      · rw [Fixed.fill, if_neg heq]
        exact sub_of_skips hcons _ (skips_lineHole_ne hat ht heq hhead)

theorem braced_linePlaceholder : Braced linePlaceholder := by
  intro s t h
  obtain ⟨kind, target, hkind, _, htarget, hs, _⟩ := (steps_linePlaceholder_iff _ _).mp h
  exact ⟨kind ++ ':' :: target, by simp [hkind, htarget], by rw [hs]; simp⟩

theorem first_lineHole {t : Text} (ht : '@' ∉ t) (s : Text) :
    first linePlaceholder (lineHole t ++ s) = some ⟨s, [(2, t), (1, ['l', 'i', 'n', 'e'])]⟩ := by
  refine first_of_unique (steps_linePlaceholder ht s) fun ⟨rest, groups⟩ hst => ?_
  obtain ⟨kind, target, _, hcolon, htarget, heq, hg⟩ := (steps_linePlaceholder_iff _ _).mp hst
  have hkind : ['l', 'i', 'n', 'e'] ++ ':' :: (t ++ '\x7d' :: '@' :: s) =
      kind ++ ':' :: (target ++ '\x7d' :: '@' :: rest) := by
    simpa [lineHole] using heq
  obtain ⟨rfl, _, hrest⟩ := split_unique (P := (· = ':')) hkind rfl rfl (by decide)
    fun c hc h => hcolon (h ▸ hc)
  obtain ⟨rfl, rfl⟩ := braced_unique ht htarget hrest
  exact congrArg (State.mk s) hg

/-- **The line placeholder found is the first one**, if there is one. -/
theorem search_fixedText (ps : List Fixed) :
    (search linePlaceholder (fixedText ps)).map (fun m => (m.group 1, m.group 2)) =
      (targets ps).head?.map fun t => (some ['l', 'i', 'n', 'e'], some t) := by
  induction ps with
  | nil =>
    have hfirst : first linePlaceholder [] = none := by
      refine (first_eq_none_iff _ _).mpr fun t ht => ?_
      obtain ⟨u, _, heq⟩ := braced_linePlaceholder _ _ ht
      cases heq
    simp [search, matchStart, hfirst, fixedText, targets]
  | cons p ps ih =>
    have hhead := fixedText_head ps
    rw [fixedText]
    cases p with
    | lit t hno hb =>
      rw [Fixed.text, search_of_skips (skips_of_noHole braced_linePlaceholder hno hhead), ih]
      rfl
    | stray t ht hlast =>
      rw [Fixed.text, search_of_skips (skips_stray braced_linePlaceholder ht hlast hhead), ih]
      rfl
    | line t hplain ht =>
      rw [Fixed.text, search_of_first (first_lineHole ht (fixedText ps))]
      rfl

theorem lineStep_closed {filename : Text} {ps : List Fixed} (hps : targets ps = []) :
    lineStep filename (fixedText ps) = none := by
  have hsearch := search_fixedText ps
  rw [hps] at hsearch
  exact (lineStep_eq_none_iff _ _).mpr (by simpa using hsearch)

/-- A round in which the line is found. -/
theorem lineStep_found {filename t : Text} {ts : List Text} {ps : List Fixed} {n : Nat}
    (hts : targets ps = t :: ts) (hfind : findLine (fixedText ps) t filename = .ok n) :
    lineStep filename (fixedText ps) = some (.ok (t, n, fixedText (ps.map (Fixed.fill t n)))) := by
  have hsearch := search_fixedText ps
  rw [hts] at hsearch
  obtain ⟨m, hm, hkind, htarget⟩ : ∃ m, search linePlaceholder (fixedText ps) = some m ∧
      m.group 1 = some ['l', 'i', 'n', 'e'] ∧ m.group 2 = some t := by simpa using hsearch
  have hmem : t ∈ targets ps := by rw [hts]; exact List.mem_cons_self
  obtain ⟨hplain, hat⟩ := plain_of_mem_targets ps t hmem
  have hline : ['l', 'i', 'n', 'e'] = "line".toList := by rw [String.toList_ofList]
  have hback : '\\' ∉ natText n := not_mem_of_isDigit (natText_digits n) (by decide)
  have hsub : subText (linePattern t) (natText n) (fixedText ps) =
      .ok (fixedText (ps.map (Fixed.fill t n))) := by
    rw [subText_literally (literally_linePattern hplain) hback, sub_fixedText hat]
  simp [lineStep, hm, hkind, htarget, ← hline, hfind, hsub]

/-- The pieces of a document without holes. -/
def pieces : Document Name Fixed → List Fixed
  | [] => []
  | .inert p :: ps => p :: pieces ps
  | .hole _ :: ps => pieces ps

theorem textOf_pieces {ps : Document Name Fixed} (hps : holes ps = []) :
    textOf ps = fixedText (pieces ps) := by
  induction ps with
  | nil => rfl
  | cons q ps ih =>
    cases q with
    | inert q => exact congrArg (q.text ++ ·) (ih hps)
    | hole x => cases hps

end MpiBugs.MakeFile
