import Mathlib.Data.List.Perm.Basic
import Mathlib.Tactic.Common

/-!
# Systems whose events commute

A system in which two different events that are possible in a state can be taken in
either order, up to a relation between states that the events respect. One run to
an end then decides about all runs.

* `exists_rest`: a run is the beginning of a reordering of every complete run;
* `Ends.of_run`: no run is longer than a complete one, and all ends are the same.
-/

namespace MpiBugs.Interleaving

variable {σ ε : Type}

/-- The state after a run along the events, if they are possible. -/
def run (next : σ → ε → Option σ) : σ → List ε → Option σ
  | s, [] => some s
  | s, e :: es => (next s e).bind fun s' => run next s' es

/-- No event is possible. -/
def Stuck (next : σ → ε → Option σ) (s : σ) : Prop := ∀ e, next s e = none

/-- Every run comes to an end, and each end has the property. -/
structure Ends (next : σ → ε → Option σ) (s : σ) (P : σ → Prop) : Prop where
  bounded : ∃ n, ∀ es t, run next s es = some t → es.length ≤ n
  ends : ∀ es t, run next s es = some t → Stuck next t → P t

/-- Different events commute in the states of the invariant, up to `Same`. -/
structure Commuting (next : σ → ε → Option σ) (Inv : σ → Prop) (Same : σ → σ → Prop) : Prop where
  same : Equivalence Same
  keeps : ∀ {s e s'}, Inv s → next s e = some s' → Inv s'
  respects : ∀ {s t e s'}, Same s t → next s e = some s' → ∃ t', next t e = some t' ∧ Same s' t'
  diamond : ∀ {s e e' s₁ s₂}, Inv s → e ≠ e' → next s e = some s₁ → next s e' = some s₂ →
    ∃ t₁ t₂, next s₁ e' = some t₁ ∧ next s₂ e = some t₂ ∧ Same t₁ t₂

variable {next : σ → ε → Option σ} {Inv : σ → Prop} {Same : σ → σ → Prop} {P : σ → Prop}

theorem run_cons_iff {s t : σ} {e : ε} {es : List ε} :
    run next s (e :: es) = some t ↔ ∃ s', next s e = some s' ∧ run next s' es = some t :=
  Option.bind_eq_some_iff

theorem run_append {s t : σ} {es es' : List ε} (h : run next s es = some t) :
    run next s (es ++ es') = run next t es' := by
  induction es generalizing s with
  | nil => rw [Option.some.inj h]; rfl
  | cons e es ih =>
    obtain ⟨s', hs', hrun⟩ := run_cons_iff.mp h
    rw [List.cons_append, run, hs']
    exact ih hrun

/-- A run is possible from a state that is the same. -/
theorem Commuting.run_same (h : Commuting next Inv Same) {s s' t : σ} {es : List ε}
    (hs : Same s s') (hrun : run next s es = some t) :
    ∃ t', run next s' es = some t' ∧ Same t t' := by
  induction es generalizing s s' with
  | nil => exact ⟨s', rfl, Option.some.inj hrun ▸ hs⟩
  | cons e es ih =>
    obtain ⟨u, hu, hrun⟩ := run_cons_iff.mp hrun
    obtain ⟨u', hu', hsame⟩ := h.respects hs hu
    obtain ⟨t', ht', hend⟩ := ih hsame hrun
    exact ⟨t', run_cons_iff.mpr ⟨u', hu', ht'⟩, hend⟩

theorem Commuting.stuck_same (h : Commuting next Inv Same) {s t : σ} (hs : Same s t)
    (hstuck : Stuck next s) : Stuck next t := by
  intro e
  by_contra hne
  obtain ⟨t', ht'⟩ := Option.ne_none_iff_exists'.mp hne
  obtain ⟨s', hs', -⟩ := h.respects (h.same.symm hs) ht'
  rw [hstuck e] at hs'
  cases hs'

/-- **An event that is possible can be taken first** in a run to an end. -/
theorem Commuting.take_first (h : Commuting next Inv Same) {s s₁ t : σ} {e : ε} {es : List ε}
    (hinv : Inv s) (hrun : run next s es = some t) (hstuck : Stuck next t)
    (he : next s e = some s₁) :
    ∃ es₁ t₁, es.Perm (e :: es₁) ∧ run next s₁ es₁ = some t₁ ∧ Same t t₁ := by
  induction es generalizing s s₁ with
  | nil =>
    obtain rfl := Option.some.inj hrun
    rw [hstuck e] at he
    cases he
  | cons e' es ih =>
    obtain ⟨s', hs', hrun⟩ := run_cons_iff.mp hrun
    by_cases heq : e' = e
    · subst heq
      obtain rfl := Option.some.inj (hs'.symm.trans he)
      exact ⟨es, t, List.Perm.refl _, hrun, h.same.refl t⟩
    · obtain ⟨u, v, hu, hv, huv⟩ := h.diamond hinv heq hs' he
      obtain ⟨es₁, t₁, hperm, hrun₁, hsame⟩ := ih (h.keeps hinv hs') hrun hu
      obtain ⟨t₂, hrun₂, hsame₂⟩ := h.run_same huv hrun₁
      refine ⟨e' :: es₁, t₂, ?_, run_cons_iff.mpr ⟨v, hv, hrun₂⟩, h.same.trans hsame hsame₂⟩
      exact (hperm.cons e').trans (List.Perm.swap ..)

/-- **Every run can be completed**, to the end of the complete run. -/
theorem Commuting.exists_rest (h : Commuting next Inv Same) {s t t' : σ} {es es' : List ε}
    (hinv : Inv s) (hrun : run next s es = some t) (hstuck : Stuck next t)
    (hrun' : run next s es' = some t') :
    ∃ rest t₁, es.Perm (es' ++ rest) ∧ run next t' rest = some t₁ ∧ Same t t₁ := by
  induction es' generalizing s t es with
  | nil =>
    obtain rfl := Option.some.inj hrun'
    exact ⟨es, t, List.Perm.refl _, hrun, h.same.refl t⟩
  | cons e es' ih =>
    obtain ⟨s', hs', hrun'⟩ := run_cons_iff.mp hrun'
    obtain ⟨es₁, t₁, hperm, hrun₁, hsame⟩ := h.take_first hinv hrun hstuck hs'
    obtain ⟨rest, t₂, hperm₂, hrun₂, hsame₂⟩ :=
      ih (h.keeps hinv hs') hrun₁ (h.stuck_same hsame hstuck) hrun'
    exact ⟨rest, t₂, hperm.trans (hperm₂.cons e), hrun₂, h.same.trans hsame hsame₂⟩

/-- **One complete run decides about all.** -/
theorem Ends.of_run (h : Commuting next Inv Same) {s t : σ} {es : List ε} (hinv : Inv s)
    (hrun : run next s es = some t) (hstuck : Stuck next t) (hP : ∀ t', Same t t' → P t') :
    Ends next s P := by
  constructor
  · refine ⟨es.length, fun es' t' hrun' => ?_⟩
    obtain ⟨rest, -, hperm, -, -⟩ := h.exists_rest hinv hrun hstuck hrun'
    have hlen := hperm.length_eq
    rw [List.length_append] at hlen
    omega
  · intro es' t' hrun' hstuck'
    obtain ⟨rest, t₁, -, hrest, hsame⟩ := h.exists_rest hinv hrun hstuck hrun'
    cases rest with
    | nil => exact hP t' (Option.some.inj hrest ▸ hsame)
    | cons e rest =>
      obtain ⟨u, hu, -⟩ := run_cons_iff.mp hrest
      rw [hstuck' e] at hu
      cases hu

theorem Ends.mono {s : σ} {Q : σ → Prop} (h : Ends next s P) (hPQ : ∀ t, P t → Q t) :
    Ends next s Q :=
  ⟨h.bounded, fun es t hrun hstuck => hPQ t (h.ends es t hrun hstuck)⟩

/-- Every run can go on to an end. -/
theorem Ends.exists_end {s t : σ} {es : List ε} (h : Ends next s P)
    (hrun : run next s es = some t) :
    ∃ rest u, run next s (es ++ rest) = some u ∧ Stuck next u ∧ P u := by
  obtain ⟨n, hn⟩ := h.bounded
  obtain ⟨k, hk⟩ := Nat.le.dest (hn es t hrun)
  induction k generalizing es t with
  | zero =>
    refine ⟨[], t, by rwa [List.append_nil], ?_⟩
    have hstuck : Stuck next t := by
      intro e
      by_contra hne
      obtain ⟨u, hu⟩ := Option.ne_none_iff_exists'.mp hne
      have hrun' : run next s (es ++ [e]) = (next t e).bind fun s' => run next s' [] :=
        run_append hrun
      rw [hu] at hrun'
      have hlen := hn _ u hrun'
      rw [List.length_append, List.length_singleton] at hlen
      omega
    exact ⟨hstuck, h.ends es t hrun hstuck⟩
  | succ k ih =>
    by_cases hstuck : Stuck next t
    · exact ⟨[], t, by rwa [List.append_nil], hstuck, h.ends es t hrun hstuck⟩
    · obtain ⟨e, hne⟩ := not_forall.mp hstuck
      obtain ⟨u, hu⟩ := Option.ne_none_iff_exists'.mp hne
      have hrun' : run next s (es ++ [e]) = some u := by
        rw [run_append hrun, run, hu]
        rfl
      obtain ⟨rest, v, hv, hend⟩ := ih hrun' (by
        rw [List.length_append, List.length_singleton]
        omega)
      exact ⟨e :: rest, v, by rwa [List.append_assoc] at hv, hend⟩

/-- What all ends have in common, some end has. -/
theorem Ends.compatible {s : σ} {Q : σ → Prop} (hP : Ends next s P) (hQ : Ends next s Q) :
    ∃ t, P t ∧ Q t := by
  have hnil : run next s [] = some s := rfl
  obtain ⟨es, t, hrun, hstuck, ht⟩ := hP.exists_end hnil
  exact ⟨t, ht, hQ.ends _ t hrun hstuck⟩

end MpiBugs.Interleaving
