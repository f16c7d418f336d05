import MpiBugs.MessagePassing
import MpiBugs.Interleaving
import Mathlib.Algebra.BigOperators.Group.Finset.Basic
import Mathlib.Algebra.Order.BigOperators.Group.Finset
import Mathlib.Algebra.GroupWithZero.Nat

/-!
# Runs of message passing come to an end

Each call is made once and each receive is matched once, whatever the program and
the library.

* `run_length`: what a run has used up;
* `ends_of_stuck`: so it is enough to look at the states without a step left.
-/

namespace MpiBugs.Termination

open MessagePassing Interleaving

section

variable {ι δ : Type} [DecidableEq ι] [Fintype ι] {st : State ι δ}

/-- The calls that are left. -/
def left (st : State ι δ) : Nat := ∑ i, (st.rest i).length

theorem left_act {i : ι} {op : Op ι δ} {ops : List (Op ι δ)} (hrest : st.rest i = op :: ops) :
    left (st.act i op ops) + 1 = left st := by
  have hothers : ∑ j ∈ Finset.univ.erase i, ((st.act i op ops).rest j).length =
      ∑ j ∈ Finset.univ.erase i, (st.rest j).length := by
    refine Finset.sum_congr rfl fun j hj => ?_
    rw [act_rest_ne st (Finset.ne_of_mem_erase hj)]
  rw [left, left, ← Finset.add_sum_erase _ _ (Finset.mem_univ i),
    ← Finset.add_sum_erase _ _ (Finset.mem_univ i), hothers, act_rest_self, hrest, List.length_cons]
  omega

end

variable {ι δ : Type} [DecidableEq ι] [DecidableEq δ] [Fintype ι] {lib : Library ι}
  {program : ι → List (Op ι δ)} {st st' : State ι δ}

theorem reachable_of_run {es : List (Event ι)} (h : Reachable lib program st)
    (hrun : run (next lib) st es = some st') : Reachable lib program st' := by
  induction es generalizing st with
  | nil => exact Option.some.inj hrun ▸ h
  | cons e es ih =>
    obtain ⟨st₁, hnext, hrun⟩ := run_cons_iff.mp hrun
    exact ih (h.tail ⟨e, hnext⟩) hrun

/-- **A step uses up a call or matches a message.** -/
theorem run_length {es : List (Event ι)} (h : run (next lib) st es = some st') :
    es.length + left st' + st.matched.length = left st + st'.matched.length := by
  induction es generalizing st with
  | nil =>
    obtain rfl := Option.some.inj h
    rw [List.length_nil]
    omega
  | cons e es ih =>
    obtain ⟨st₁, hnext, hrun⟩ := run_cons_iff.mp h
    have hlength := ih hrun
    rcases next_cases hnext with ⟨i, op, ops, hrest, -, rfl⟩ | ⟨m, r, -, -, -, -, -, rfl⟩
    · have hleft := left_act hrest
      have hmatched : (st.act i op ops).matched = st.matched := rfl
      rw [hmatched] at hlength
      rw [List.length_cons]
      omega
    · have hleft : left (st.deliver m r) = left st := rfl
      have hmatched : (st.deliver m r).matched.length = st.matched.length + 1 := rfl
      rw [List.length_cons]
      omega

/-- No receive is matched twice. -/
theorem matched_length_le (h : Reachable lib program st) :
    st.matched.length ≤ ∑ i, (Local.run (program i)).inbox.length := by
  have hnodup := (reachable_matching h).receivedOnce
  have hsub : st.received.toFinset ⊆ Finset.univ.biUnion fun i =>
      (Finset.range (Local.run (program i)).inbox.length).image fun k => (i, k) := by
    intro r hr
    obtain ⟨e, he, rfl⟩ := List.mem_map.mp (List.mem_toFinset.mp hr)
    obtain ⟨-, rcv, -, hrcv, -⟩ := (reachable_matching h).fits e he
    obtain ⟨hlt, -⟩ := List.getElem?_eq_some_iff.mp hrcv
    have hle := (reachable_posted h e.2.1).2.length_le
    simp only [Finset.mem_biUnion, Finset.mem_univ, true_and, Finset.mem_image, Finset.mem_range]
    exact ⟨e.2.1, e.2.2, hlt.trans_le hle, rfl⟩
  calc st.matched.length = st.received.toFinset.card := by
        rw [List.toFinset_card_of_nodup hnodup, State.received, List.length_map]
    _ ≤ _ := Finset.card_le_card hsub
    _ ≤ ∑ i, ((Finset.range (Local.run (program i)).inbox.length).image fun k => (i, k)).card :=
        Finset.card_biUnion_le
    _ ≤ ∑ i, (Local.run (program i)).inbox.length := by
        refine Finset.sum_le_sum fun i _ => ?_
        exact Finset.card_image_le.trans_eq (Finset.card_range _)

/-- **What holds without a step left holds at the end of every run**, and every run ends. -/
theorem ends_of_stuck {P : State ι δ → Prop}
    (h : ∀ st, Reachable lib program st → (∀ st', ¬ Step lib st st') → P st) :
    Ends (next lib) (initial program) P := by
  have hreach {es : List (Event ι)} {st : State ι δ}
      (hrun : run (next lib) (initial program) es = some st) :
      Reachable lib program st := reachable_of_run Relation.ReflTransGen.refl hrun
  constructor
  · refine ⟨left (initial program) + ∑ i, (Local.run (program i)).inbox.length,
      fun es st hrun => ?_⟩
    have hlength := run_length hrun
    have hmatched := matched_length_le (hreach hrun)
    have hnone : (initial program).matched.length = 0 := rfl
    omega
  · intro es st hrun hstuck
    refine h st (hreach hrun) fun st' ⟨e, he⟩ => ?_
    rw [hstuck e] at he
    cases he

end MpiBugs.Termination
