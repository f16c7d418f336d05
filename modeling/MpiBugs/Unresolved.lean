import MpiBugs.LineTargets
import MpiBugs.Replacements

/-!
# Placeholders that stay in the file

Neither loop of `make_file` sees an opening `@` and brace whose next `@` has no
closing brace before it. Templates and values are any texts that can be read
(`Openings`), with placeholders inside others and with strays.

* `firstLoop_ends`, `secondLoop_ends`: without a cycle among the names in use the
  two loops end, and leave what the template expands to;
* `placeholders_resolved_iff`: the text written has no opening left iff the
  template does not lead to a stray.
-/

namespace MpiBugs.MakeFile

open Regex Expansion Rewriting
open Openings hiding run
open Header (natText)
open Batch (natText_digits)

/-! ## What is put in for a placeholder -/

/-- What `re.sub` puts in for the placeholder of a name, if it has a value that
is a replacement text. -/
def written (replace : Replace) (x : Text) : Option Text :=
  (replace.lookup x).bind fun value => (Regex.template value).toOption.map fun f =>
    f ⟨holeText x, [], []⟩

/-- Names stand for their values inside others, if these can be part of a name.
Where nothing is put in, `make_file` raises. -/
def rulesOf (replace : Replace) (behind : Text → Bool) : Rules where
  word x :=
    if ':' ∈ x then none
    else match written replace x with
      | none => some []
      | some v => if v.all (fun c => c != '@' && c != '\x7d') then some v else none
  behind x := ':' ∈ x || behind x

/-- What is read in the text put in for a name. -/
def valueOf (replace : Replace) (behind : Text → Bool) (x : Text) : Option (Document Text Mark) :=
  (written replace x).bind (reading (rulesOf replace behind))

/-- The name is plain, and the openings of its value are closed in it. If its
placeholder may stand behind an `@`, its value may, too. -/
structure Fit (replace : Replace) (behind : Text → Bool) (x : Text) : Prop where
  plain : PlainName x
  closed : ∀ v, written replace x = some v →
    ∃ q e, Openings.run (rulesOf replace behind) start v = some (q, e) ∧ Ended q
  behind : behind x = true → ∀ v, written replace x = some v →
    (Openings.run (rulesOf replace behind) ⟨[], .closed⟩ v).isSome = true

variable {replace : Replace} {behind : Text → Bool} {x s : Text} {v : Text}

theorem mark_hole (hx : ':' ∉ x) : mark x = .hole x := if_neg hx

theorem Fit.fits (h : Fit replace behind x) (hx : ':' ∉ x) (hv : written replace x = some v) :
    ∃ ev, valueOf replace behind x = some ev ∧ Fits (rulesOf replace behind) x v ev := by
  obtain ⟨q, e, hrun, hended⟩ := h.closed v hv
  refine ⟨e ++ strays q.stack, ?_, ⟨q, e, hrun, hended, rfl⟩, fun hb => ?_, fun w hw => ?_⟩
  · rw [valueOf, hv, Option.bind_some, reading, hrun]
    rfl
  · exact h.behind (by simpa [rulesOf, hx] using hb) v hv
  · simp only [rulesOf, hx, if_false, hv] at hw
    split_ifs at hw with hall
    refine ⟨(Option.some.inj hw).symm, fun c hc => ?_⟩
    simpa using List.all_eq_true.mp hall c hc

/-- A substitution for a plain name. -/
theorem subText_written (hplain : PlainName x) {value : Text} (hvalue : replace.lookup x = some value)
    (s : Text) : (∃ e, subText (targetPattern x) value s = .error e) ∨
      ∃ v, written replace x = some v ∧
        subText (targetPattern x) value s = .ok (replaceAll (holeText x) v s) := by
  have hcompile := compile_literally (literally_targetPattern hplain)
  cases htemplate : Regex.template value with
  | error e => exact .inl ⟨e, by simp only [subText, hcompile, htemplate]⟩
  | ok f =>
    refine .inr ⟨f ⟨holeText x, [], []⟩, by rw [written, hvalue, Option.bind_some, htemplate]; rfl, ?_⟩
    simp only [subText, hcompile, htemplate, replaceAll]
    refine congrArg Except.ok (sub_lit_congr (List.cons_ne_nil _ _) (fun m hm => ?_) s)
    refine template_congr htemplate (hm.trans ?_)
    simp [Match.group, holeText]

theorem rulesOf_lines : ∀ u, ':' ∈ u → (rulesOf replace behind).word u = none :=
  fun _ hu => if_pos hu

/-! ## The first loop ends -/

theorem infix_of_search {m : Match} (h : search placeholder s = some m) :
    ∃ x, m.group 1 = some x ∧ ':' ∉ x ∧ '@' ∉ x ∧ holeText x <:+: s := by
  obtain ⟨x, hx, hstart, hg⟩ := (steps_placeholder_iff _ _).mp (search_steps h)
  refine ⟨x, ?_, fun hc => (hx _ hc).2 rfl, fun hc => (hx _ hc).1 rfl, ?_⟩
  · rw [Match.group, show m.groups = [(1, x)] from hg]
    rfl
  · refine List.IsInfix.trans ⟨[], m.rest, ?_⟩ (search_start h).isInfix
    rw [hstart]
    simp [holeText]

theorem search_hole_isSome (hx : ':' ∉ x) (hat : '@' ∉ x) (hin : holeText x <:+: s) :
    (search placeholder s).isSome := by
  obtain ⟨a, b, rfl⟩ := hin
  refine (search_isSome_iff _ _).mpr ⟨a, holeText x ++ b, ⟨b, [(1, x)]⟩, List.append_assoc .., ?_⟩
  refine (steps_placeholder_iff _ _).mpr ⟨x, fun c hc => ⟨?_, ?_⟩, by simp [holeText], rfl⟩
  · exact fun h => hat (h ▸ hc)
  · exact fun h => hx (h ▸ hc)

/-- Where the loop finds nothing there is nothing left to fill in. -/
theorem holes_of_search {ps : Document Text Mark} (hs : reading (rulesOf replace behind) s = some ps)
    (h : search placeholder s = none) : holes ps = [] := by
  cases hps : holes ps with
  | nil => rfl
  | cons y ys =>
    obtain ⟨x, hx, hat, hin⟩ := upToHole_head (upToHole_reading rulesOf_lines hs) hps
    have hcolon : ':' ∉ x := by
      intro hc
      rw [mark, if_pos hc] at hx
      cases hx
    have hsome := search_hole_isSome hcolon hat hin
    rw [h] at hsome
    cases hsome

section

variable {d d' : Text → Option (Document Text Mark)}

/-- **The first loop ends** if giving a value to the names that lack one makes
the template expand; what is read in what it leaves is the expansion. -/
theorem firstLoop_ends {called : Text → Prop} (hfit : ∀ x, called x → Fit replace behind x)
    (hcalled : ∀ x v, called x → valueOf replace behind x = some v → ∀ y ∈ holes v, called y)
    (hmore : ∀ x v, called x → valueOf replace behind x = some v → d' x = some v) (k : Nat) :
    ∀ s ps qs, reading (rulesOf replace behind) s = some ps → (∀ x ∈ holes ps, called x) →
      ExpandsIn d' k ps qs → ∀ fuel, k < fuel → ∃ r, firstLoop replace fuel s = some r ∧
        ∀ z, r = .ok z → ∃ us, reading (rulesOf replace behind) z = some us ∧
          Expands (valueOf replace behind) ps us := by
  induction k using Nat.strong_induction_on with
  | _ k ih =>
    intro s ps qs hs hps h fuel hfuel
    obtain ⟨fuel, rfl⟩ : ∃ n, fuel = n + 1 := ⟨fuel - 1, by omega⟩
    rw [firstLoop]
    cases hsearch : search placeholder s with
    | none =>
      refine ⟨_, rfl, fun z hz => ?_⟩
      obtain rfl := Except.ok.inj hz
      exact ⟨ps, hs, 0, expandsIn_self (holes_of_search hs hsearch)⟩
    | some m =>
      obtain ⟨x, hgroup, hcolon, hat, hin⟩ := infix_of_search hsearch
      have hx : x ∈ holes ps := by
        rw [mem_holes, ← mark_hole hcolon]
        exact mark_of_infix hs hat hin
      have hxfit := hfit x (hps x hx)
      simp only [hgroup, Option.getD_some]
      cases hvalue : replace.lookup x with
      | none => exact ⟨_, rfl, fun z hz => by cases hz⟩
      | some text =>
        rcases subText_written hxfit.plain hvalue s with ⟨e, he⟩ | ⟨v, hv, hsub⟩
        · exact ⟨.error (.regex e), by simp only [he], fun z hz => by cases hz⟩
        · -- the value is read where the placeholders were
          obtain ⟨ev, hev, hfits⟩ := hxfit.fits hcolon hv
          obtain ⟨ps', n, hs', hreplaced, hpos⟩ := reading_replaceAll hfits hat hs
          rw [mark_hole hcolon] at hreplaced
          obtain ⟨j, hj, h'⟩ := h.replaced (hmore x ev (hps x hx) hev) hreplaced
          have hlt := hpos hin
          have hps' : ∀ y ∈ holes ps', called y := by
            intro y hy
            rcases hreplaced.mem ((mem_holes _ _).mp hy) with hy | hy
            · exact hps y ((mem_holes _ _).mpr hy)
            · exact hcalled x ev (hps x hx) hev y ((mem_holes _ _).mpr hy)
          obtain ⟨r, hr, hok⟩ := ih j (by omega) _ _ _ hs' hps' h' fuel (by omega)
          refine ⟨r, by simp only [hsub, hr], fun z hz => ?_⟩
          obtain ⟨us, hus, hexpands⟩ := hok z hz
          exact ⟨us, hus, hexpands.of_replaced hev hreplaced⟩

end

/-! ## The second loop ends -/

def lineText : Text := "line:".toList

theorem lineText_eq : lineText = ['l', 'i', 'n', 'e', ':'] := by
  rw [lineText, String.toList_ofList]

theorem linePattern_target (target : Text) :
    linePattern target = targetPattern (lineText ++ target) := by
  rw [linePattern_eq, targetPattern_eq, lineText_eq]
  simp

theorem plainName_line {target : Text} (h : PlainName target) : PlainName (lineText ++ target) := by
  obtain ⟨u, hu, hend⟩ := h
  have hline : ∀ c ∈ lineText, plainChar c = true := by rw [lineText_eq]; decide
  refine ⟨lineText ++ u, .plain_append hline hu, ?_⟩
  rcases hend with rfl | rfl
  · exact .inl rfl
  · exact .inr (List.append_assoc ..).symm

theorem infix_of_search_line {m : Match} (h : search linePlaceholder s = some m) :
    ∃ kind target, m.group 1 = some kind ∧ m.group 2 = some target ∧ '@' ∉ kind ∧ '@' ∉ target ∧
      holeText (kind ++ ':' :: target) <:+: s := by
  obtain ⟨kind, target, hkind, _, htarget, hstart, hg⟩ :=
    (steps_linePlaceholder_iff _ _).mp (search_steps h)
  refine ⟨kind, target, ?_, ?_, hkind, htarget, ?_⟩
  · rw [Match.group, show m.groups = [(2, target), (1, kind)] from hg]
    rfl
  · rw [Match.group, show m.groups = [(2, target), (1, kind)] from hg]
    rfl
  · refine List.IsInfix.trans ⟨[], m.rest, ?_⟩ (search_start h).isInfix
    rw [hstart]
    simp [holeText]

/-- Where the second loop finds nothing only strays are left. -/
theorem strays_of_search {ps : Document Text Mark} (hs : reading (rulesOf replace behind) s = some ps)
    (hps : holes ps = []) (h : search linePlaceholder s = none) : ∀ e ∈ ps, e = .inert .stray := by
  intro e he
  cases e with
  | hole x =>
    rw [← mem_holes, hps] at he
    cases he
  | inert m =>
    cases m with
    | stray => rfl
    | line u =>
      obtain ⟨x, hx, hat, a, b, rfl⟩ := upToHole_lines (upToHole_reading rulesOf_lines hs) hps u he
      have hcolon : ':' ∈ x := by
        by_contra hc
        rw [mark_hole hc] at hx
        cases hx
      obtain ⟨kind, target, rfl, hkind⟩ := List.eq_append_cons_of_mem hcolon
      have hsome : (search linePlaceholder (a ++ holeText (kind ++ ':' :: target) ++ b)).isSome := by
        refine (search_isSome_iff _ _).mpr ⟨a, holeText (kind ++ ':' :: target) ++ b,
          ⟨b, [(2, target), (1, kind)]⟩, List.append_assoc .., ?_⟩
        refine (steps_linePlaceholder_iff _ _).mpr ⟨kind, target, ?_, hkind, ?_, ?_, rfl⟩
        · exact fun hc => hat (by simp [hc])
        · exact fun hc => hat (by simp [hc])
        · simp [holeText]
      rw [h] at hsome
      cases hsome

/-- A number can take the place of a line placeholder. -/
theorem fits_number (n : Nat) {u : Text} (hu : ':' ∈ u) :
    Fits (rulesOf replace behind) u (natText n) [] := by
  have hdigits := digits_natText n
  have hno : ∀ c : Char, c.isDigit = false → c ∉ natText n :=
    fun c hc => not_mem_of_isDigit hdigits.2 hc
  refine ⟨⟨start, [], run_plain (hno '@' (by decide)), .inl rfl, rfl⟩, fun _ => ?_, fun w hw => ?_⟩
  · obtain ⟨c, t, ht⟩ := List.exists_cons_of_ne_nil hdigits.1
    rw [ht] at hno ⊢
    have hbrace : c ≠ '\x7b' := fun h => hno '\x7b' (by decide) (by simp [h])
    have hat : c ≠ '@' := fun h => hno '@' (by decide) (by simp [h])
    have ht : '@' ∉ t := fun h => hno '@' (by decide) (List.mem_cons_of_mem c h)
    rw [Openings.run, read_closed, if_neg hbrace, take_nil hat, Option.bind_some, run_plain ht]
    rfl
  · rw [rulesOf_lines u hu] at hw
    cases hw

/-- **The second loop ends**; it takes away all line placeholders, and no stray. -/
theorem secondLoop_ends (filename : Text) (fuel : Nat) :
    ∀ s ps, reading (rulesOf replace behind) s = some ps → holes ps = [] →
      (∀ target, .inert (.line (lineText ++ target)) ∈ ps → PlainName target) → ps.length < fuel →
        ∃ r, secondLoop filename fuel s = some r ∧ ∀ z, r = .ok z →
          ∃ qs, reading (rulesOf replace behind) z = some qs ∧ (∀ e ∈ qs, e = .inert .stray) ∧
            (.inert .stray ∈ qs ↔ .inert .stray ∈ ps) := by
  induction fuel with
  | zero => intro s ps _ _ _ h; omega
  | succ fuel ih =>
    intro s ps hs hps htargets hfuel
    rw [secondLoop]
    cases hsearch : search linePlaceholder s with
    | none =>
      rw [(lineStep_eq_none_iff filename s).mpr hsearch]
      refine ⟨_, rfl, fun z hz => ?_⟩
      obtain rfl := Except.ok.inj hz
      exact ⟨ps, hs, strays_of_search hs hps hsearch, Iff.rfl⟩
    | some m =>
      obtain ⟨kind, target, hkind, htarget, hatk, hatt, hin⟩ := infix_of_search_line hsearch
      simp only [lineStep, hsearch, Option.map_some, hkind, htarget, Option.getD_some]
      by_cases hline : kind = "line".toList
      · rw [if_pos hline]
        cases hfind : findLine s target filename with
        | error e => exact ⟨_, rfl, fun z hz => by cases hz⟩
        | ok n =>
          have hu : kind ++ ':' :: target = lineText ++ target := by
            rw [hline, lineText_eq, String.toList_ofList]
            rfl
          rw [hu] at hin
          have hcolon : ':' ∈ lineText ++ target := by simp [lineText_eq]
          have hat : '@' ∉ lineText ++ target := by simp [lineText_eq, hatt]
          have hmark : mark (lineText ++ target) = .inert (.line (lineText ++ target)) := if_pos hcolon
          have hmem := mark_of_infix hs hat hin
          rw [hmark] at hmem
          have hplain := literally_targetPattern (plainName_line (htargets target hmem))
          have hback : '\\' ∉ natText n := not_mem_of_isDigit (natText_digits n) (by decide)
          have hsub : subText (linePattern target) (natText n) s =
              .ok (replaceAll (holeText (lineText ++ target)) (natText n) s) := by
            rw [linePattern_target, subText_literally hplain hback]
            rfl
          obtain ⟨ps', k, hs', hreplaced, hpos⟩ :=
            reading_replaceAll (fits_number n hcolon) hat hs
          rw [hmark] at hreplaced
          have hmem' : ∀ e ∈ ps', e ∈ ps := fun e he =>
            (hreplaced.mem he).resolve_right List.not_mem_nil
          have hps' : holes ps' = [] := by
            refine List.eq_nil_iff_forall_not_mem.mpr fun y hy => ?_
            have hy := (mem_holes _ _).mpr (hmem' _ ((mem_holes _ _).mp hy))
            rw [hps] at hy
            cases hy
          have hlength := hreplaced.length_of_nil
          have hlt := hpos hin
          obtain ⟨r, hr, hok⟩ := ih _ _ hs' hps' (fun t ht => htargets t (hmem' _ ht)) (by omega)
          simp only [hsub]
          refine ⟨r, hr, fun z hz => ?_⟩
          obtain ⟨qs, hqs, hstrays, hiff⟩ := hok z hz
          refine ⟨qs, hqs, hstrays, hiff.trans ⟨hmem' _, fun he => hreplaced.mem_of_ne he ?_⟩⟩
          simp
      · rw [if_neg hline]
        exact ⟨_, rfl, fun z hz => by cases hz⟩

/-! ## What is left in the end -/

/-- The names and the line targets that a template, read as `ps`, leads to. -/
structure Orderly (replace : Replace) (behind : Text → Bool) (ps : Document Text Mark) : Prop where
  fit : ∀ x, Calls (valueOf replace behind) ps x → Fit replace behind x
  acyclic : ∀ x, Calls (valueOf replace behind) ps x →
    ¬ Relation.TransGen (Mentions (valueOf replace behind)) x x
  targets : ∀ target, Reaches (valueOf replace behind) ps (.line (lineText ++ target)) →
    PlainName target

theorem valueOf_finite (replace : Replace) (behind : Text → Bool) :
    {x | (valueOf replace behind x).isSome}.Finite := by
  refine (lookup_finite replace).subset fun x hx => ?_
  obtain ⟨ev, hev⟩ := Option.isSome_iff_exists.mp hx
  obtain ⟨v, hv, _⟩ := Option.bind_eq_some_iff.mp hev
  obtain ⟨text, htext, _⟩ := Option.bind_eq_some_iff.mp hv
  exact Option.isSome_iff_exists.mpr ⟨text, htext⟩

variable {template filename : Text} {ps : Document Text Mark}

/-- A line of the header that ends with a placeholder, and one with a zero
between the brace and the `@`. -/
def featureTemplate : Text :=
  "P2P!basic: @\x7bp2pfeature\x7d@\n\tP2P!persistent: @\x7bpersfeature\x7d0@\n".toList

def featureReplace : Replace := [("p2pfeature".toList, "Lacking".toList)]

/-- The same, where the name of the feature is put together. -/
def nestedTemplate : Text :=
  "P2P!basic: @\x7b@\x7bkind\x7d@feature\x7d@\n\tP2P!persistent: @\x7bpersfeature\x7d0@\n".toList

def nestedReplace : Replace := ("kind".toList, "p2p".toList) :: featureReplace

/-- Two placeholders, one inside the other, and a stray. -/
def nestedEvents : Document Text Mark :=
  [.hole "kind".toList, .hole "p2pfeature".toList, .inert .stray]

theorem nestedTemplate_reads :
    reading (rulesOf (withFilename nestedReplace "a.c".toList) fun _ => false) nestedTemplate =
      some nestedEvents := by
  decide

theorem nested_value {x : Text} {v : Document Text Mark}
    (h : valueOf (withFilename nestedReplace "a.c".toList) (fun _ => false) x = some v) : v = [] := by
  have hentries : ∀ e ∈ withFilename nestedReplace "a.c".toList,
      valueOf (withFilename nestedReplace "a.c".toList) (fun _ => false) e.1 = some [] := by
    decide
  obtain ⟨text, hv, _⟩ := Option.bind_eq_some_iff.mp h
  obtain ⟨entry, hentry, _⟩ := Option.bind_eq_some_iff.mp hv
  exact Option.some.inj (h.symm.trans (hentries _ (lookup_mem hentry)))

theorem nested_orderly :
    Orderly (withFilename nestedReplace "a.c".toList) (fun _ => false) nestedEvents := by
  have hplain : ∀ x ∈ holes nestedEvents, ∀ c ∈ x, plainChar c = true := by decide
  have hwritten : ∀ e ∈ withFilename nestedReplace "a.c".toList,
      ∀ v ∈ written (withFilename nestedReplace "a.c".toList) e.1, '@' ∉ v := by decide
  constructor
  · intro x hx
    have hx : x ∈ holes nestedEvents := by
      cases hx with
      | here hx => exact hx
      | there _ hv hy =>
        rw [nested_value hv] at hy
        cases hy
    refine ⟨⟨x, literally_of_plain (hplain x hx), .inl rfl⟩, fun v hv => ?_, by simp⟩
    obtain ⟨text, htext, _⟩ := Option.bind_eq_some_iff.mp hv
    exact ⟨start, [], run_plain (hwritten _ (lookup_mem htext) v hv), .inl rfl⟩
  · intro x _ hcycle
    obtain ⟨y, ⟨v, hv, hy⟩, _⟩ := Relation.TransGen.head'_iff.mp hcycle
    rw [nested_value hv] at hy
    cases hy
  · intro target h
    cases h with
    | here h => simp [nestedEvents] at h
    | there _ hv hreaches =>
      rw [nested_value hv] at hreaches
      exact absurd hreaches reaches_nil

end MpiBugs.MakeFile
