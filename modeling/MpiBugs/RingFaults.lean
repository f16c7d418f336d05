import MpiBugs.Ring
import MpiBugs.Termination

/-!
# The ring programs with a fault

`MissingWaitandStartGenerator.py`: from the correct ring one wait, one start or the
release of one request is left out, in all ranks. For every number of ranks, library
and order of events:

* `completed_ends`: however the requests are waited for and freed, all ranks finish and
  each receives the message of the rank before;
* `starved_ends`: without its start no message is ever sent, and no rank gets on;
* `ring_faults`: only the missing start shows.
-/

namespace MpiBugs.RingFaults

open MessagePassing Interleaving Termination MpiBugs.Ring

variable {nprocs : Nat}

/-! ## The programs -/

/-- `MissingWait_{s}_{r}_nok.c`, without `@{fini1}@` -/
def missingWait (s : SendCall) (r : RecvCall) (rank : Fin nprocs) :
    List (Op (Fin nprocs) (Fin nprocs)) :=
  posts s r rank ++ ((r.calls rank 2).fini ++
    ((s.calls rank 1).free ++ (r.calls rank 2).free) ++ [.finalize])

/-- `RequestLeak_{s}_{r}_nok.c`, without `@{free1}@` -/
def requestLeak (s : SendCall) (r : RecvCall) (rank : Fin nprocs) :
    List (Op (Fin nprocs) (Fin nprocs)) :=
  posts s r rank ++ ((s.calls rank 1).fini ++ (r.calls rank 2).fini ++
    (r.calls rank 2).free ++ [.finalize])

/-- `MissingStart_{s}_{r}_nok.c`, without `@{start1}@` -/
def missingStart (s : SendCall) (r : RecvCall) (rank : Fin nprocs) :
    List (Op (Fin nprocs) (Fin nprocs)) :=
  (s.calls rank 1).operation ++ ((r.calls rank 2).operation ++ (r.calls rank 2).start) ++
    completion s r rank

/-- A wait, or the release of a request. -/
def Completing (op : Op (Fin nprocs) (Fin nprocs)) : Prop :=
  (∃ req, op = .wait req) ∨ ∃ req, op = .free req

/-- The ring, with any calls that complete its requests. -/
def withCompletion (s : SendCall) (r : RecvCall)
    (calls : Fin nprocs → List (Op (Fin nprocs) (Fin nprocs))) (rank : Fin nprocs) :
    List (Op (Fin nprocs) (Fin nprocs)) :=
  posts s r rank ++ (calls rank ++ [.finalize])

/-! ## One rank -/

/-- An active request is the first message or the first receive of its rank. -/
def ZeroNumbered (l : Local (Fin nprocs) (Fin nprocs)) : Prop :=
  ∀ req comm num pers, l.handle req = .active comm num pers → num = 0

theorem completing_keeps {op : Op (Fin nprocs) (Fin nprocs)} (hop : Completing op)
    (l : Local (Fin nprocs) (Fin nprocs)) :
    (l.exec op).outbox = l.outbox ∧ (l.exec op).inbox = l.inbox ∧
      (ZeroNumbered l → ZeroNumbered (l.exec op)) := by
  have hset : ∀ (req : Nat) (handle : Handle (Fin nprocs) (Fin nprocs)),
      (∀ comm num pers, handle ≠ .active comm num pers) → ZeroNumbered l →
        ZeroNumbered ⟨Function.update l.handle req handle, l.outbox, l.inbox⟩ := by
    intro req handle hne h req' comm num pers hhandle
    by_cases hreq : req' = req
    · subst hreq
      simp only [Function.update_self] at hhandle
      exact absurd hhandle (hne comm num pers)
    · simp only [Function.update_of_ne hreq] at hhandle
      exact h req' comm num pers hhandle
  rcases hop with ⟨req, rfl⟩ | ⟨req, rfl⟩
  · rw [Local.exec]
    split
    · exact ⟨rfl, rfl, hset req _ (by simp)⟩
    · exact ⟨rfl, rfl, hset req _ (by simp)⟩
    · exact ⟨rfl, rfl, id⟩
  · exact ⟨rfl, rfl, hset req _ (by simp)⟩

theorem zeroNumbered_posts (s : SendCall) (r : RecvCall) (rank : Fin nprocs) :
    ZeroNumbered (Local.run (posts s r rank)) := by
  intro req comm num pers hhandle
  cases s <;> cases r <;>
    simp only [posts, SendCall.calls, RecvCall.calls, nonblocking, persistent, Local.run,
      List.append_nil, List.cons_append, List.nil_append, List.foldl_cons, List.foldl_nil,
      Local.exec, Local.issue, Local.initial, Function.update_apply] at hhandle <;>
    grind

/-- **The calls behind the posts keep what is posted**, and the numbers. -/
theorem run_completing {s : SendCall} {r : RecvCall} {rank : Fin nprocs}
    {calls : List (Op (Fin nprocs) (Fin nprocs))} (h : ∀ op ∈ calls, Completing op) :
    (Local.run (posts s r rank ++ calls)).outbox = [message rank] ∧
      (Local.run (posts s r rank ++ calls)).inbox = [receive rank] ∧
      ZeroNumbered (Local.run (posts s r rank ++ calls)) := by
  induction calls using List.reverseRecOn with
  | nil =>
    rw [List.append_nil]
    exact ⟨(run_posts s r rank).1, (run_posts s r rank).2, zeroNumbered_posts s r rank⟩
  | append_singleton calls op ih =>
    have hkeeps := completing_keeps (h op (by simp)) (Local.run (posts s r rank ++ calls))
    obtain ⟨hout, hin, hzero⟩ := ih fun op' hop' => h op' (List.mem_append_left _ hop')
    rw [← List.append_assoc, Local.run_concat]
    exact ⟨hkeeps.1.trans hout, hkeeps.2.1.trans hin, hkeeps.2.2 hzero⟩

/-! ## The ranks together -/

section

variable {s : SendCall} {r : RecvCall} {calls : Fin nprocs → List (Op (Fin nprocs) (Fin nprocs))}
  {lib : Library (Fin nprocs)} {st : State (Fin nprocs) (Fin nprocs)} {rank : Fin nprocs}

theorem run_withCompletion (hcalls : ∀ rank, ∀ op ∈ calls rank, Completing op) (rank : Fin nprocs) :
    (Local.run (withCompletion s r calls rank)).outbox = [message rank] ∧
      (Local.run (withCompletion s r calls rank)).inbox = [receive rank] := by
  have hrun := @run_completing nprocs s r rank _ (hcalls rank)
  rw [withCompletion, ← List.append_assoc, Local.run_concat]
  exact ⟨hrun.1, hrun.2.1⟩

theorem fits_ring (hcalls : ∀ rank, ∀ op ∈ calls rank, Completing op)
    (h : Reachable lib (withCompletion s r calls) st) {m i : Ident (Fin nprocs)}
    (hmatch : (m, i) ∈ st.matched) : ∃ rank, m = (src rank, 0) ∧ i = (rank, 0) := by
  obtain ⟨msg, rcv, hmsg, hrcv, _, haccepts⟩ := (reachable_matching h).fits _ hmatch
  have hout := (reachable_posted h m.1).1
  have hin := (reachable_posted h i.1).2
  rw [(run_withCompletion hcalls m.1).1] at hout
  rw [(run_withCompletion hcalls i.1).2] at hin
  have hm := getElem?_of_prefix hout hmsg
  have hi := getElem?_of_prefix hin hrcv
  simp only [List.getElem?_singleton, Option.ite_none_right_eq_some, Option.some.injEq] at hm hi
  obtain ⟨hm, rfl⟩ := hm
  obtain ⟨hi, rfl⟩ := hi
  exact ⟨i.1, Prod.ext ((accepts_iff i.1 m.1).mp haccepts) hm, Prod.ext rfl hi⟩

/-- A rank without a step left has posted its send and its receive. -/
theorem posted_of_stuck (h : Reachable lib (withCompletion s r calls) st)
    (hstuck : ∀ st', ¬ Step lib st st') (rank : Fin nprocs) :
    ∃ q, st.loc rank = Local.run (posts s r rank ++ q) ∧
      calls rank ++ [.finalize] = q ++ st.rest rank := by
  obtain ⟨p, hp, hloc⟩ := reachable_local h rank
  have hposts : posts s r rank <+: p := by
    refine prefix_of_head?_not_mem hp fun op hop hmem => ?_
    rcases head_of_stuck hstuck hop with ⟨req, rfl⟩ | rfl
    · exact (posts_post hmem).1 req rfl
    · exact (posts_post hmem).2 rfl
  obtain ⟨q, rfl⟩ := hposts
  rw [withCompletion, List.append_assoc, List.append_cancel_left_eq] at hp
  exact ⟨q, hloc, hp⟩

/-- Of the calls behind the posts, those that have been made complete requests. -/
theorem completing_of_rest {q rest : List (Op (Fin nprocs) (Fin nprocs))}
    (h : calls rank ++ [.finalize] = q ++ rest) (hrest : rest ≠ [])
    (hcalls : ∀ op ∈ calls rank, Completing op) : ∀ op ∈ q, Completing op := by
  obtain ⟨rest, op, rfl⟩ := List.eq_nil_or_concat rest |>.resolve_left hrest
  rw [List.concat_eq_append, ← List.append_assoc] at h
  obtain ⟨h, -⟩ := List.append_inj' h rfl
  exact fun op hop => hcalls op (h ▸ List.mem_append_left _ hop)

theorem loc_of_stuck (hcalls : ∀ rank, ∀ op ∈ calls rank, Completing op)
    (h : Reachable lib (withCompletion s r calls) st) (hstuck : ∀ st', ¬ Step lib st st')
    (rank : Fin nprocs) :
    (st.loc rank).outbox = [message rank] ∧ (st.loc rank).inbox = [receive rank] ∧
      ZeroNumbered (st.loc rank) := by
  obtain ⟨q, hloc, hq⟩ := posted_of_stuck h hstuck rank
  by_cases hrest : st.rest rank = []
  · rw [hrest, List.append_nil] at hq
    rw [hloc, ← hq, ← List.append_assoc, Local.run_concat]
    exact run_completing (hcalls rank)
  · rw [hloc]
    exact run_completing (completing_of_rest hq hrest (hcalls rank))

theorem matched_ring (hcalls : ∀ rank, ∀ op ∈ calls rank, Completing op)
    (h : Reachable lib (withCompletion s r calls) st) (hstuck : ∀ st', ¬ Step lib st st')
    (rank : Fin nprocs) : ((src rank, 0), (rank, 0)) ∈ st.matched := by
  have hloc := loc_of_stuck hcalls h hstuck
  by_contra hnot
  -- both ends are posted, and neither is matched with anything else
  have hmsg : (st.loc (src rank)).outbox[0]? = some (message (src rank)) := by
    rw [(hloc (src rank)).1]
    rfl
  have hrcv : (st.loc rank).inbox[0]? = some (receive rank) := by
    rw [(hloc rank).2.1]
    rfl
  have hsent : (src rank, 0) ∉ st.sent := by
    intro hmem
    obtain ⟨⟨m, i⟩, hmatch, rfl⟩ := List.mem_map.mp hmem
    obtain ⟨rank', hm, rfl⟩ := fits_ring hcalls h hmatch
    have hsrc : src rank = src rank' := congrArg Prod.fst hm
    have hrank : rank = rank' := by rw [← dest_src rank, hsrc, dest_src]
    subst hrank
    exact hnot (hm ▸ hmatch)
  have hreceived : (rank, 0) ∉ st.received := by
    intro hmem
    obtain ⟨⟨m, i⟩, hmatch, rfl⟩ := List.mem_map.mp hmem
    obtain ⟨rank', rfl, hi⟩ := fits_ring hcalls h hmatch
    obtain rfl := congrArg Prod.fst hi
    exact hnot hmatch
  exact hstuck _ (step_deliver hmsg hrcv ⟨dest_src rank, (accepts_iff rank (src rank)).mpr rfl,
    ⟨hsent, hreceived⟩, fun k hk => absurd hk (Nat.not_lt_zero k),
    fun k hk => absurd hk (Nat.not_lt_zero k)⟩)

/-- Then every wait returns. -/
theorem waits_return (hcalls : ∀ rank, ∀ op ∈ calls rank, Completing op)
    (h : Reachable lib (withCompletion s r calls) st) (hstuck : ∀ st', ¬ Step lib st st')
    (rank : Fin nprocs) (req : Nat) : Complete lib st rank ((st.loc rank).handle req) := by
  cases hhandle : (st.loc rank).handle req with
  | null | inactive => trivial
  | active comm num pers =>
    obtain rfl := (loc_of_stuck hcalls h hstuck rank).2.2 req comm num pers hhandle
    cases comm with
    | send m =>
      have hmatch := matched_ring hcalls h hstuck (dest rank)
      rw [src_dest] at hmatch
      exact .inr (List.mem_map_of_mem hmatch)
    | recv rcv => exact List.mem_map_of_mem (matched_ring hcalls h hstuck rank)

theorem finished_ring (hcalls : ∀ rank, ∀ op ∈ calls rank, Completing op)
    (h : Reachable lib (withCompletion s r calls) st) (hstuck : ∀ st', ¬ Step lib st st')
    (rank : Fin nprocs) : st.rest rank = [] := by
  have hrest : ∀ rank, st.rest rank = [] ∨ st.rest rank = [.finalize] := by
    intro rank
    cases hrest : st.rest rank with
    | nil => exact .inl rfl
    | cons op ops =>
      right
      rcases stuck_cases hstuck hrest with ⟨req, rfl, hwait⟩ | ⟨rfl, -⟩
      · exact absurd (waits_return hcalls h hstuck rank req) hwait
      · -- the end of the program is its only `MPI_Finalize`
        obtain ⟨q, -, hq⟩ := posted_of_stuck h hstuck rank
        rw [hrest] at hq
        rcases List.eq_nil_or_concat ops with rfl | ⟨ops, op, rfl⟩
        · rfl
        · rw [List.concat_eq_append, ← List.cons_append, ← List.append_assoc] at hq
          obtain ⟨hq, -⟩ := List.append_inj' hq rfl
          rcases hcalls rank .finalize (hq ▸ by simp) with ⟨req, hreq⟩ | ⟨req, hreq⟩
          · cases hreq
          · cases hreq
  rcases hrest rank with hnil | hfinalize
  · exact hnil
  · rcases stuck_cases hstuck hfinalize with ⟨req, hreq, _⟩ | ⟨_, _, other, hnil, hfin⟩
    · cases hreq
    · exact absurd (hrest other) (not_or.mpr ⟨hnil, hfin⟩)

end

/-- All ranks are finished, and each has the message of the rank before. -/
def Completed (st : State (Fin nprocs) (Fin nprocs)) : Prop :=
  (∀ rank, st.rest rank = []) ∧
    st.matched.Perm ((List.finRange nprocs).map fun rank => ((predecessor rank, 0), (rank, 0)))

/-- **However the requests are completed**, every run of the ring does. -/
theorem completed_ends (lib : Library (Fin nprocs)) (s : SendCall) (r : RecvCall)
    {calls : Fin nprocs → List (Op (Fin nprocs) (Fin nprocs))}
    (hcalls : ∀ rank, ∀ op ∈ calls rank, Completing op) :
    Ends (next lib) (initial (withCompletion s r calls)) Completed := by
  refine ends_of_stuck fun st h hstuck => ⟨finished_ring hcalls h hstuck, ?_⟩
  have hinj : Function.Injective fun rank : Fin nprocs => ((predecessor rank, 0), (rank, 0)) :=
    fun a b hab => congrArg (fun e => e.2.1) hab
  refine (List.perm_ext_iff_of_nodup (List.Nodup.of_map _ (reachable_matching h).receivedOnce)
    ((List.nodup_finRange nprocs).map hinj)).mpr fun e => ?_
  simp only [List.mem_map, List.mem_finRange, true_and]
  constructor
  · intro he
    obtain ⟨rank, hm, hi⟩ := fits_ring hcalls h he
    exact ⟨rank, by rw [← src_eq]; exact (Prod.ext hm hi).symm⟩
  · rintro ⟨rank, rfl⟩
    rw [← src_eq]
    exact matched_ring hcalls h hstuck rank

/-! ## Without a start -/

/-- Nothing is matched, and every rank waits for its receive. -/
def Starved (st : State (Fin nprocs) (Fin nprocs)) : Prop :=
  st.matched = [] ∧ ∀ rank, st.rest rank = [.wait 2, .free 1, .free 2, .finalize]

/-- The calls before the first wait. -/
def requests (r : RecvCall) (rank : Fin nprocs) : List (Op (Fin nprocs) (Fin nprocs)) :=
  (SendCall.sendInit.calls rank 1).operation ++
    ((r.calls rank 2).operation ++ (r.calls rank 2).start)

theorem requests_spec (r : RecvCall) (rank : Fin nprocs) :
    (∀ op ∈ requests r rank, (∀ req, op ≠ .wait req) ∧ op ≠ .finalize) ∧
      (Local.run (requests r rank)).handle 1 = .inactive (.send (message rank)) ∧
      ∃ pers, (Local.run (requests r rank ++ [.wait 1])).handle 2 =
        .active (.recv (receive rank)) 0 pers := by
  cases r with
  | irecv =>
    exact ⟨by simp [requests, SendCall.calls, RecvCall.calls, nonblocking, persistent], rfl,
      false, rfl⟩
  | recvInit =>
    exact ⟨by simp [requests, SendCall.calls, RecvCall.calls, persistent], rfl, true, rfl⟩

/-- **Without its start no message is sent**, and every run ends before the receives. -/
theorem starved_ends (lib : Library (Fin nprocs)) (r : RecvCall) :
    Ends (next lib) (initial (missingStart .sendInit r)) Starved := by
  refine ends_of_stuck fun st h hstuck => ?_
  have hsilent : st.matched = [] := by
    refine List.eq_nil_iff_forall_not_mem.mpr fun e he => ?_
    obtain ⟨msg, -, hmsg, -⟩ := (reachable_matching h).fits e he
    have hout := (reachable_posted h e.1.1).1
    have hnone : (Local.run (missingStart .sendInit r e.1.1)).outbox = [] := by cases r <;> rfl
    rw [hnone, List.prefix_nil] at hout
    rw [hout] at hmsg
    cases hmsg
  refine ⟨hsilent, fun rank => ?_⟩
  obtain ⟨hnonblocking, hinactive, pers, hactive⟩ := requests_spec r rank
  obtain ⟨p, hp, hloc⟩ := reachable_local h rank
  have hsplit : requests r rank ++ completion .sendInit r rank = p ++ st.rest rank := hp
  have hrequests : requests r rank <+: p := by
    refine prefix_of_head?_not_mem hsplit fun op hop hmem => ?_
    rcases head_of_stuck hstuck hop with ⟨req, rfl⟩ | rfl
    · exact (hnonblocking _ hmem).1 req rfl
    · exact (hnonblocking _ hmem).2 rfl
  obtain ⟨q, rfl⟩ := hrequests
  rw [List.append_assoc, List.append_cancel_left_eq, completion_eq] at hsplit
  rcases q with _ | ⟨x, _ | ⟨y, q⟩⟩
  · -- the wait for a request that is not active returns
    rcases stuck_cases hstuck hsplit.symm with ⟨req, hreq, hwait⟩ | ⟨hfin, -⟩
    · obtain rfl := Op.wait.inj hreq
      rw [hloc, List.append_nil, hinactive] at hwait
      exact absurd trivial hwait
    · cases hfin
  · exact (List.cons.inj hsplit).2.symm
  · -- behind the second wait something would be matched
    obtain ⟨rfl, htail⟩ := List.cons.inj hsplit
    obtain ⟨rfl, -⟩ := List.cons.inj htail
    have hpast : missingStart .sendInit r rank =
        (requests r rank ++ [.wait 1]) ++ .wait 2 :: q ++ st.rest rank := by
      rw [hp]
      simp
    have hcomplete := reachable_waited h hpast
    rw [hactive] at hcomplete
    obtain ⟨e, he, -⟩ := List.mem_map.mp hcomplete
    rw [hsilent] at he
    cases he

/-! ## The generator's programs -/

/-- **Of the faults only the missing start shows.** The ring without the wait for its send,
and the one that does not free the request of it, complete in every run like the correct
one; without the start every run deadlocks. -/
theorem ring_faults (lib : Library (Fin nprocs)) (s : SendCall) (r : RecvCall) :
    Ends (next lib) (initial (missingWait s r)) Completed ∧
      Ends (next lib) (initial (requestLeak .sendInit r)) Completed ∧
      Ends (next lib) (initial (missingStart .sendInit r)) Starved := by
  have hwait : ∀ rank : Fin nprocs, ∀ op ∈ (r.calls rank 2).fini ++
      ((s.calls rank 1).free ++ (r.calls rank 2).free), Completing op := by
    intro rank op hop
    cases s <;> cases r <;>
      simp only [SendCall.calls, RecvCall.calls, nonblocking, persistent, List.cons_append,
        List.nil_append, List.mem_cons, List.not_mem_nil, or_false] at hop <;>
      rcases hop with rfl | rfl | rfl <;> simp [Completing]
  have hfree : ∀ rank : Fin nprocs, ∀ op ∈ (SendCall.sendInit.calls rank 1).fini ++
      (r.calls rank 2).fini ++ (r.calls rank 2).free, Completing op := by
    intro rank op hop
    cases r <;>
      simp only [SendCall.calls, RecvCall.calls, nonblocking, persistent, List.cons_append,
        List.nil_append, List.mem_cons, List.not_mem_nil, or_false] at hop <;>
      rcases hop with rfl | rfl | rfl <;> simp [Completing]
  exact ⟨completed_ends lib s r hwait, completed_ends lib .sendInit r hfree, starved_ends lib r⟩

end MpiBugs.RingFaults
