import MpiBugs.Openings

/-!
# Replacing placeholders

A placeholder of a text that is read (`Openings`) is replaced wherever it stands.

* `sim_run`: a reader behind what was put in follows the one behind the
  placeholder;
* `reading_replaceAll`: what is read in the placeholders is replaced by what is
  read in the text put in.
-/

namespace MpiBugs.Openings

open Regex MakeFile Expansion Rewriting

variable {rules : Rules} {s s' p p' q : Reader} {t u v : Text} {c : Char} {es o : List Event}
  {fs fs' : List Frame} {b b' : Bool}

/-! ## Readers that do the same -/

/-- What stands before the placeholder matters less. -/
structure Frame.Below (f f' : Frame) : Prop where
  name : f'.name = f.name
  behind : f'.behind = true → f.behind = true

/-- After a placeholder less is read than after what it stands for. -/
inductive Last.Below : Last → Last → Prop
  | refl (l : Last) : Below l l
  | opening : Below (.opening true) (.opening false)
  | closed : Below .closed .other

/-- The second reader does what the first one does; the events of `o` are still
to come from it. -/
inductive Sim : Reader → Reader → List Event → Prop
  | below {fs fs' : List Frame} {l l' : Last} : List.Forall₂ Frame.Below fs fs' → Last.Below l l' →
      Sim ⟨fs, l⟩ ⟨fs', l'⟩ []
  | owed {fs : List Frame} {b : Bool} : Sim ⟨[], .closed⟩ ⟨fs, .opening b⟩ (strays fs)

theorem Sim.refl (s : Reader) : Sim s s [] :=
  .below (List.forall₂_same.mpr fun _ _ => ⟨rfl, id⟩) (.refl _)

theorem sim_take (h : List.Forall₂ Frame.Below fs fs') (hb : b' = true → b = true) (c : Char) :
    Sim (take fs b c) (take fs' b' c) [] := by
  by_cases hc : c = '@'
  · rw [hc, take_at, take_at]
    refine .below h ?_
    cases b with
    | false =>
      rw [Bool.eq_false_iff.mpr fun h => absurd (hb h) (by decide)]
      exact .refl _
    | true =>
      cases b' with
      | false => exact .opening
      | true => exact .refl _
  · cases h with
    | nil =>
      rw [take_nil hc, take_nil hc]
      exact .refl _
    | cons hf h =>
      rw [take_name hc, take_name hc]
      exact .below (.cons ⟨congrArg (· ++ [c]) hf.name, hf.behind⟩ h) (.refl _)

theorem strays_below (h : List.Forall₂ Frame.Below fs fs') :
    strays fs' = strays fs := by
  cases h <;> rfl

theorem sim_close {f f' : Frame} (hf : f.Below f') (h : List.Forall₂ Frame.Below fs fs')
    (hclose : close rules f fs = some (p, es)) :
    ∃ p', close rules f' fs' = some (p', es) ∧ Sim p p' [] := by
  have hallowed : f.allowed rules = true → f'.allowed rules = true := by
    simp only [Frame.allowed, hf.name, Bool.or_eq_true, Bool.not_eq_true']
    refine Or.imp_left fun hb => ?_
    exact Bool.eq_false_iff.mpr fun hb' => by simp [hf.behind hb'] at hb
  cases h with
  | nil =>
    obtain ⟨hf', rfl, rfl⟩ := close_nil_iff.mp hclose
    exact ⟨_, close_nil_iff.mpr ⟨hallowed hf', rfl, by rw [hf.name]⟩, .refl _⟩
  | @cons g g' gs gs' hg hgs =>
    obtain ⟨hf', w, hw, rfl, rfl⟩ := close_cons_iff.mp hclose
    have hbelow : Frame.Below { g with name := g.name ++ w } { g' with name := g'.name ++ w } :=
      ⟨congrArg (· ++ w) hg.name, hg.behind⟩
    exact ⟨_, close_cons_iff.mpr ⟨hallowed hf', w, by rw [hf.name]; exact hw, rfl, by rw [hf.name]⟩,
      .below (.cons hbelow hgs) (.refl _)⟩

/-- **One character**: the second reader follows the first. -/
theorem sim_read (hsim : Sim s s' o) (h : read rules s c = some (p, es)) :
    ∃ p' es' o', read rules s' c = some (p', es') ∧ Sim p p' o' ∧ o ++ es = es' ++ o' := by
  cases hsim with
  | @owed fs b =>
    -- the openings of the second reader are given up now
    rw [read_closed] at h
    split_ifs at h with hc
    obtain ⟨rfl, rfl⟩ := Prod.mk.inj (Option.some.inj h)
    exact ⟨take [] true c, strays fs, [], by simp [hc], .refl _, by simp⟩
  | @below fs fs' l l' hfs hl =>
    have htake : ∀ b b' : Bool, (b' = true → b = true) → some (take fs b c, []) = some (p, es) →
        ∃ p' es' o', some (take fs' b' c, []) = some (p', es') ∧ Sim p p' o' ∧
          [] ++ es = es' ++ o' := by
      intro b b' hb heq
      obtain ⟨rfl, rfl⟩ := Prod.mk.inj (Option.some.inj heq)
      exact ⟨_, [], [], rfl, sim_take hfs hb c, rfl⟩
    have hopening : ∀ b b' : Bool, (b' = true → b = true) →
        read rules ⟨fs, .opening b⟩ c = some (p, es) → ∃ p' es' o',
          read rules ⟨fs', .opening b'⟩ c = some (p', es') ∧ Sim p p' o' ∧ [] ++ es = es' ++ o' := by
      intro b b' hb h
      rw [read_opening] at h ⊢
      split_ifs at h ⊢ with hc
      · obtain ⟨rfl, rfl⟩ := Prod.mk.inj (Option.some.inj h)
        exact ⟨_, [], [], rfl, .below (.cons ⟨rfl, hb⟩ hfs) (.refl _), rfl⟩
      · obtain ⟨rfl, rfl⟩ := Prod.mk.inj (Option.some.inj h)
        exact ⟨_, strays fs', [], rfl, .refl _, by simp [strays_below hfs]⟩
    cases hl with
    | opening => exact hopening true false (fun _ => rfl) h
    | closed =>
      rw [read_closed] at h
      split_ifs at h with hc
      exact htake true false (fun _ => rfl) h
    | refl =>
      cases l with
      | opening b => exact hopening b b id h
      | other => exact htake false false id h
      | closed =>
        rw [read_closed] at h ⊢
        split_ifs at h ⊢ with hc
        exact htake true true id h
      | brace =>
        cases hfs with
        | nil => cases h
        | @cons f f' fs fs' hf hfs =>
          rw [read_brace] at h ⊢
          split_ifs at h ⊢ with hc
          · obtain ⟨p', hp', hsim⟩ := sim_close hf hfs h
            exact ⟨p', es, [], hp', hsim, by simp⟩
          · exact htake false false id h

theorem sim_run (hsim : Sim s s' o) (h : run rules s t = some (p, es)) :
    ∃ p' es' o', run rules s' t = some (p', es') ∧ Sim p p' o' ∧ o ++ es = es' ++ o' := by
  induction t generalizing s s' o es with
  | nil =>
    obtain ⟨rfl, rfl⟩ := Prod.mk.inj (Option.some.inj h)
    exact ⟨s', [], o, rfl, hsim, by simp⟩
  | cons c t ih =>
    obtain ⟨q, e, es, hq, hp, rfl⟩ := run_cons_iff.mp h
    obtain ⟨q', e', o', hq', hsim', he⟩ := sim_read hsim hq
    obtain ⟨p', es', o'', hp', hsim'', hes⟩ := ih hsim' hp
    refine ⟨p', e' ++ es', o'', run_cons_iff.mpr ⟨q', e', es', hq', hp', rfl⟩, hsim'', ?_⟩
    rw [← List.append_assoc, he, List.append_assoc, hes, List.append_assoc]

theorem Sim.strays (h : Sim s s' o) : o ++ strays s.stack = strays s'.stack := by
  cases h with
  | below hfs _ => exact (strays_below hfs).symm
  | owed => simp [Openings.strays]

/-- A brace is last in a name only. -/
theorem take_ne_brace : take fs b c ≠ ⟨[], .brace⟩ := by
  by_cases hc : c = '@'
  · simp [hc, take_at]
  · cases fs with
    | nil => simp [take_nil hc, start]
    | cons f fs => simp [take_name hc]

theorem step_ne_brace (h : Step rules s c p es) : p ≠ ⟨[], .brace⟩ := by
  cases h with
  | opened => simp
  | given | taken => exact take_ne_brace
  | closed hclose =>
    obtain ⟨⟨gs, rfl⟩, _⟩ := of_close hclose
    simp

theorem run_ne_brace (h : run rules s t = some (p, es)) (hs : s ≠ ⟨[], .brace⟩) :
    p ≠ ⟨[], .brace⟩ := by
  induction t generalizing s es with
  | nil =>
    obtain ⟨rfl, _⟩ := Prod.mk.inj (Option.some.inj h)
    exact hs
  | cons c t ih =>
    obtain ⟨q, e, es', hq, hp, _⟩ := run_cons_iff.mp h
    exact ih hp (step_ne_brace (step_of_read hq))

/-! ## What is put in -/

/-- Where what follows cannot close anything. -/
def Ended (q : Reader) : Prop := q.stack = [] ∨ ∃ b, q.last = .opening b

/-- The text `v` can take the place of the placeholder `u`: its openings are
closed in it, it can stand behind an `@` if the name may, and it is what the
name stands for inside other names. -/
structure Fits (rules : Rules) (u v : Text) (ev : List Event) : Prop where
  reads : ∃ q e, run rules start v = some (q, e) ∧ Ended q ∧ ev = e ++ strays q.stack
  behind : rules.behind u = true → (run rules ⟨[], .closed⟩ v).isSome = true
  word : ∀ w, rules.word u = some w → w = v ∧ ∀ c ∈ v, c ≠ '@' ∧ c ≠ '\x7d'

variable {ev : List Event}

/-- A reader with no opening, behind a placeholder or not. -/
def base (b : Bool) : Reader := ⟨[], if b = true then .closed else .other⟩

theorem ended_of_sim (h : Sim s s' o) (hended : Ended s') : Ended s := by
  cases h with
  | owed => exact .inl rfl
  | below hfs hl =>
    rcases hended with hnil | ⟨b, hb⟩
    · obtain rfl : _ = [] := hnil
      cases hfs
      exact .inl rfl
    · obtain rfl : _ = Last.opening b := hb
      cases hl with
      | refl => exact .inr ⟨b, rfl⟩
      | opening => exact .inr ⟨true, rfl⟩

theorem Fits.run_base (h : Fits rules u v ev) (hb : b = true → rules.behind u = true) :
    ∃ q e, run rules (base b) v = some (q, e) ∧ Ended q ∧ ev = e ++ strays q.stack := by
  obtain ⟨q, e, hq, hended, rfl⟩ := h.reads
  cases b with
  | false => exact ⟨q, e, hq, hended, rfl⟩
  | true =>
    obtain ⟨⟨q', e'⟩, hq'⟩ := Option.isSome_iff_exists.mp (h.behind (hb rfl))
    have hsim : Sim ⟨[], .closed⟩ start [] := .below .nil .closed
    obtain ⟨q₂, e₂, o, hq₂, hsim, he⟩ := sim_run hsim hq'
    obtain ⟨rfl, rfl⟩ := Prod.mk.inj (Option.some.inj (hq.symm.trans hq₂))
    refine ⟨q', e', hq', ended_of_sim hsim hended, ?_⟩
    rw [← hsim.strays, ← List.append_assoc, ← he, List.nil_append]

theorem opens_base {e : List Event} (h : Opens s [] b e) (hsim : Sim s s' o) :
    Sim (base b) s' (o ++ e) := by
  cases h with
  | other | closed =>
    rw [List.append_nil]
    exact hsim
  | @opening fs b =>
    cases hsim with
    | @below _ fs' _ l' hfs hl =>
      rw [List.nil_append, ← strays_below hfs]
      cases hl with
      | refl | opening => exact .owed

/-- A word inside a name. -/
theorem run_word (hv : ∀ c ∈ v, c ≠ '@' ∧ c ≠ '\x7d') {f : Frame} :
    run rules ⟨f :: fs, .other⟩ v = some (⟨{ f with name := f.name ++ v } :: fs, .other⟩, []) := by
  induction v generalizing f with
  | nil => simp [run]
  | cons c v ih =>
    obtain ⟨⟨hat, hbrace⟩, hv⟩ := List.forall_mem_cons.mp hv
    rw [run, read_other, take_name hat, if_neg hbrace, Option.bind_some, ih hv]
    simp

/-- Outside of names nothing is read without an `@`. -/
theorem run_plain (hv : '@' ∉ v) : run rules start v = some (start, []) := by
  induction v with
  | nil => rfl
  | cons c v ih =>
    rw [List.mem_cons, not_or] at hv
    rw [run, start, read_other, take_nil (Ne.symm hv.1), Option.bind_some, ih hv.2]
    rfl

theorem sim_ended {q : Reader} (hsim : Sim q q' o) (hended : Ended q) (hq : q ≠ ⟨[], .brace⟩) :
    Sim ⟨[], .closed⟩ q' (o ++ strays q.stack) := by
  cases hsim with
  | owed =>
    rw [strays, List.append_nil]
    exact .owed
  | @below fs fs' l l' hfs hl =>
    rcases hended with hnil | ⟨b, hb⟩
    · obtain rfl : fs = [] := hnil
      cases hfs
      cases hl with
      | opening => exact .owed
      | closed => exact .below .nil .closed
      | refl =>
        cases l with
        | other => exact .below .nil .closed
        | closed => exact .refl _
        | opening => exact .owed
        | brace => exact absurd rfl hq
    · obtain rfl : l = .opening b := hb
      rw [← strays_below hfs]
      cases hl with
      | refl | opening => exact .owed

/-- **What is put in is read where the placeholder was.** -/
theorem run_value (hfits : Fits rules u v ev) {e : List Event} (hopens : Opens s fs b e)
    (hclose : close rules ⟨u ++ ['\x7d'], b⟩ fs = some (p, [mark u])) (hsim : Sim s s' o) :
    ∃ p' es' o', run rules s' v = some (p', es') ∧ Sim p p' o' ∧
      o ++ (e ++ ev) = es' ++ o' := by
  have hname : (u ++ ['\x7d']).dropLast = u := List.dropLast_concat
  have hbehind {f : Frame} (hf : f.allowed rules = true) (hu : f.name.dropLast = u) :
      f.behind = true → rules.behind u = true := by
    intro hb
    simpa [Frame.allowed, hb, hu] using hf
  cases fs with
  | nil =>
    obtain ⟨hallowed, rfl, _⟩ := close_nil_iff.mp hclose
    obtain ⟨q, e₁, hq, hended, rfl⟩ := hfits.run_base (hbehind hallowed hname)
    obtain ⟨q', es', o', hq', hsim', hes⟩ := sim_run (opens_base hopens hsim) hq
    have hstart : base b ≠ ⟨[], .brace⟩ := by cases b <;> simp [base]
    refine ⟨q', es', _, hq', sim_ended hsim' hended (run_ne_brace hq hstart), ?_⟩
    rw [← List.append_assoc, ← List.append_assoc, hes, List.append_assoc]
  | cons g gs =>
    -- inside another name the value is a word
    obtain ⟨hallowed, w, hw, rfl, _⟩ := close_cons_iff.mp hclose
    rw [hname] at hw
    obtain ⟨rfl, hword⟩ := hfits.word w hw
    obtain ⟨q, e₁, hq, _, rfl⟩ := hfits.reads
    rw [run_plain fun hat => (hword _ hat).1 rfl] at hq
    obtain ⟨rfl, rfl⟩ := Prod.mk.inj (Option.some.inj hq)
    have hbelow {f f' : Frame} {hs hs' : List Frame} (hf : f.Below f')
        (h : List.Forall₂ Frame.Below hs hs') {l : Last} (hl : Last.Below .closed l) :
        Sim ⟨{ f with name := f.name ++ w } :: hs, .closed⟩
          ⟨{ f' with name := f'.name ++ w } :: hs', l⟩ [] :=
      .below (.cons ⟨congrArg (· ++ w) hf.name, hf.behind⟩ h) hl
    cases hopens with
    | other =>
      cases hsim with
      | below hfs hl =>
        cases hfs with
        | cons hg hgs =>
          cases hl with
          | refl => exact ⟨_, [], [], run_word hword, hbelow hg hgs .closed, rfl⟩
    | closed =>
      cases hsim with
      | below hfs hl =>
        cases hfs with
        | @cons _ g' _ gs' hg hgs =>
          cases hl with
          | closed => exact ⟨_, [], [], run_word hword, hbelow hg hgs .closed, rfl⟩
          | refl =>
            cases w with
            | nil => exact ⟨⟨g' :: gs', .closed⟩, [], [], rfl, by simpa using hbelow hg hgs (.refl _), rfl⟩
            | cons c w =>
              obtain ⟨⟨hat, hclosing⟩, hrest⟩ := List.forall_mem_cons.mp hword
              have hc : c ≠ '\x7b' := by
                rintro rfl
                have hsome := hfits.behind (hbehind hallowed hname rfl)
                simp [run] at hsome
              refine ⟨_, [], [], ?_, hbelow hg hgs .closed, rfl⟩
              rw [run, read_closed, if_neg hc, take_name hat, if_neg hclosing, Option.bind_some,
                run_word hrest]
              simp

theorem replaceAll_keep (h : ¬ holeText u <+: c :: t) :
    replaceAll (holeText u) v (c :: t) = c :: replaceAll (holeText u) v t := by
  refine sub_of_none (consuming_lit (List.cons_ne_nil _ _)) _ ?_
  exact (first_eq_none_iff _ _).mpr fun q hq => h ⟨q.rest, ((steps_lit_iff ..).mp hq).1.symm⟩

/-- **The whole text**: every placeholder that stands in it is read as what is
put in for it. -/
theorem run_replaceAll (hfits : Fits rules u v ev) (hu : '@' ∉ u)
    (hrun : run rules s t = some (p, es)) (hsim : Sim s s' o) :
    ∃ p' es' o' es₁ n, run rules s' (replaceAll (holeText u) v t) = some (p', es') ∧
      Sim p p' o' ∧ Replaced (mark u) ev n es es₁ ∧ o ++ es₁ = es' ++ o' ∧
        (holeText u <:+: t → 0 < n) := by
  have hne : holeText u ≠ [] := List.cons_ne_nil _ _
  induction hlen : t.length using Nat.strong_induction_on generalizing t s s' o es with
  | _ k ih =>
    subst hlen
    by_cases hprefix : holeText u <+: t
    · obtain ⟨t, rfl⟩ := hprefix
      obtain ⟨q, e, es₂, hhole, hp, rfl⟩ := run_append_iff.mp hrun
      obtain ⟨fs, b, e, hopens, hclose, rfl⟩ := run_hole hu hhole
      obtain ⟨q', es', o', hq', hsim', hes⟩ := run_value hfits hopens hclose hsim
      have hlt : t.length < (holeText u ++ t).length := by
        have := List.length_pos_of_ne_nil hne
        rw [List.length_append]
        omega
      obtain ⟨p', es'', o'', es₁, n, hp', hsim'', hreplaced, hes', _⟩ := ih _ hlt hp hsim' rfl
      refine ⟨p', es' ++ es'', o'', e ++ (ev ++ es₁), n + 1, ?_, hsim'', ?_, ?_, fun _ => n.succ_pos⟩
      · rw [replaceAll_hole]
        exact run_append_iff.mpr ⟨q', es', es'', hq', hp', rfl⟩
      · rw [List.append_assoc]
        exact hreplaced.hit.append_left e
      · calc
          o ++ (e ++ (ev ++ es₁)) = o ++ (e ++ ev) ++ es₁ := by simp
          _ = es' ++ (o' ++ es₁) := by rw [hes, List.append_assoc]
          _ = es' ++ es'' ++ o'' := by rw [hes', List.append_assoc]
    · cases t with
      | nil =>
        obtain ⟨rfl, rfl⟩ := Prod.mk.inj (Option.some.inj hrun)
        have hnil : replaceAll (holeText u) v [] = [] := sub_nil (consuming_lit hne) _
        refine ⟨s', [], o, [], 0, by rw [hnil]; rfl, hsim, .nil, by simp, fun h => ?_⟩
        exact absurd (List.infix_nil.mp h) hne
      | cons c t =>
        obtain ⟨q, e, es₂, hq, hp, rfl⟩ := run_cons_iff.mp hrun
        obtain ⟨q', e', o', hq', hsim', he⟩ := sim_read hsim hq
        obtain ⟨p', es'', o'', es₁, n, hp', hsim'', hreplaced, hes', hpos⟩ :=
          ih t.length (by simp) hp hsim' rfl
        refine ⟨p', e' ++ es'', o'', e ++ es₁, n, ?_, hsim'', hreplaced.append_left e, ?_, fun h => ?_⟩
        · rw [replaceAll_keep hprefix]
          exact run_cons_iff.mpr ⟨q', e', es'', hq', hp', rfl⟩
        · rw [← List.append_assoc, he, List.append_assoc, hes', List.append_assoc]
        · exact hpos ((List.infix_cons_iff.mp h).resolve_left hprefix)

/-- **A replacement replaces what is read.** -/
theorem reading_replaceAll (hfits : Fits rules u v ev) (hu : '@' ∉ u)
    (h : reading rules t = some es) : ∃ es' n, reading rules (replaceAll (holeText u) v t) = some es' ∧
      Replaced (mark u) ev n es es' ∧ (holeText u <:+: t → 0 < n) := by
  obtain ⟨⟨p, e⟩, hrun, rfl⟩ := Option.map_eq_some_iff.mp h
  obtain ⟨p', e', o, e₁, n, hrun', hsim, hreplaced, he, hpos⟩ :=
    run_replaceAll hfits hu hrun (Sim.refl start)
  refine ⟨e₁ ++ strays p.stack, n, ?_, hreplaced.append_right _, hpos⟩
  rw [reading, hrun', Option.map_some, ← hsim.strays, ← List.append_assoc, ← he, List.nil_append]

end MpiBugs.Openings
