import MpiBugs.MessagePassing
import Mathlib.Data.List.FinRange
import Mathlib.Algebra.GroupWithZero.Nat
import Mathlib.Algebra.Order.BigOperators.Group.Finset

/-!
# The message races

`P2PMatchingANYSRCGenerator.py`: rank 0 receives from any source as often as there
are other ranks, each of which sends it its number, and then checks that the last
one received was 3.

* `root_cases`, `sender_cases`: where a rank is in its program;
* `received_spec`: the receives are matched in their order;
* `step_of_pending`, `no_infinite_run`: every run gets to the check;
* `order_perm`: the values received by then, in any order;
* `exists_order`: each order is that of some run;
* `message_race`: the programs race, and do nothing worse.
-/

namespace MpiBugs.MessageRace

open MessagePassing

/-! ## The programs -/

section Program

variable {nprocs : Nat} [NeZero nprocs]

def stag : Nat := 42

/-- `buf2`, the number of the rank, is sent to rank 0. -/
def message (rank : Fin nprocs) : Message (Fin nprocs) (Fin nprocs) := ⟨0, stag, rank⟩

/-- `src=MPI_ANY_SOURCE`, `rtag = MPI_ANY_TAG` -/
def receive : Receive (Fin nprocs) := ⟨none, none⟩

/-- The entries of one call in the tables of `generator_utils.py`. -/
structure Calls (nprocs : Nat) where
  operation : List (Op (Fin nprocs) (Fin nprocs))
  fini : List (Op (Fin nprocs) (Fin nprocs))

/-- A blocking call posts and waits. -/
def blocking (c : Comm (Fin nprocs) (Fin nprocs)) (n : Nat) : Calls nprocs where
  operation := [.post c n, .wait n]
  fini := []

def nonblocking (c : Comm (Fin nprocs) (Fin nprocs)) (n : Nat) : Calls nprocs where
  operation := [.post c n]
  fini := [.wait n]

/-- `send + isend` -/
inductive SendCall
  | MPI_Send
  | MPI_Isend
  deriving DecidableEq, Repr

/-- `recv + irecv` -/
inductive RecvCall
  | MPI_Recv
  | MPI_Irecv
  deriving DecidableEq, Repr

def SendCall.calls (rank : Fin nprocs) (n : Nat) : SendCall → Calls nprocs
  | MPI_Send => blocking (.send (message rank)) n
  | MPI_Isend => nonblocking (.send (message rank)) n

def RecvCall.calls (n : Nat) : RecvCall → Calls nprocs
  | MPI_Recv => blocking (.recv receive) n
  | MPI_Irecv => nonblocking (.recv receive) n

/-- So many rounds of the loop of rank 0. -/
def rounds (r : RecvCall) (m : Nat) : List (Op (Fin nprocs) (Fin nprocs)) :=
  (List.replicate m ((r.calls 1).operation ++ (r.calls 1).fini)).flatten

/-- The calls of `P2PMessageRace_{r}_{s}_nok.c` on one rank. -/
def program (s : SendCall) (r : RecvCall) (rank : Fin nprocs) : List (Op (Fin nprocs) (Fin nprocs)) :=
  (if rank = 0 then rounds r (nprocs - 1)
    else (s.calls rank 2).operation ++ (s.calls rank 2).fini) ++ [.finalize]

end Program

/-! ## The check -/

section Check

variable {nprocs : Nat}

/-- The values that `buf1` has received, in the order of reception. -/
def order (st : State (Fin nprocs) (Fin nprocs)) : List (Fin nprocs) :=
  st.matched.reverse.filterMap fun e => ((st.loc e.1.1).outbox[e.1.2]?).map Message.data

def buf1 (st : State (Fin nprocs) (Fin nprocs)) : Int :=
  match (order st).getLast? with
  | none => -1
  | some rank => rank.val

/-- `if (buf1 != 3) { printf("MBI_MSG_RACE: ..."); fflush(stdout); abort(); }` -/
inductive Check
  | pending
  | passed
  | aborted
  deriving DecidableEq, Repr

structure Config (nprocs : Nat) where
  st : State (Fin nprocs) (Fin nprocs)
  check : Check

inductive Move (nprocs : Nat)
  | comm (e : Event (Fin nprocs))
  /-- rank 0 checks `buf1` -/
  | check

variable [NeZero nprocs]

/-- Rank 0 is behind its loop, and has not checked yet. -/
def Config.AtCheck (c : Config nprocs) : Prop := c.check = .pending ∧ c.st.rest 0 = [.finalize]

instance (c : Config nprocs) : Decidable c.AtCheck := inferInstanceAs (Decidable (_ ∧ _))

/-- Rank 0 checks before it goes on; after the abort nothing happens. -/
def Config.Allows (c : Config nprocs) : Event (Fin nprocs) → Prop
  | .act i => c.check ≠ .aborted ∧ ¬ (i = 0 ∧ c.AtCheck)
  | .deliver _ _ => c.check ≠ .aborted

instance (c : Config nprocs) (e : Event (Fin nprocs)) : Decidable (c.Allows e) :=
  match e with
  | .act _ => inferInstanceAs (Decidable (_ ∧ _))
  | .deliver _ _ => inferInstanceAs (Decidable (_ ≠ _))

def Config.next (lib : Library (Fin nprocs)) (c : Config nprocs) : Move nprocs → Option (Config nprocs)
  | .comm e =>
    if c.Allows e then (MessagePassing.next lib c.st e).map fun st => ⟨st, c.check⟩ else none
  | .check =>
    if c.AtCheck then some ⟨c.st, if buf1 c.st = 3 then .passed else .aborted⟩ else none

def Config.Step (lib : Library (Fin nprocs)) (c c' : Config nprocs) : Prop :=
  ∃ m, c.next lib m = some c'

def start (s : SendCall) (r : RecvCall) : Config nprocs := ⟨initial (program s r), .pending⟩

/-- The states of the runs of the program, in every interleaving. -/
def Occurs (lib : Library (Fin nprocs)) (s : SendCall) (r : RecvCall) (c : Config nprocs) : Prop :=
  Relation.ReflTransGen (Config.Step lib) (start s r) c

/-- The ranks that send. -/
def senders (nprocs : Nat) [NeZero nprocs] : List (Fin nprocs) := (List.finRange nprocs).erase 0

end Check

/-! ## One rank -/

section Rank

variable {nprocs : Nat} {s : SendCall} {r : RecvCall} {rank : Fin nprocs}

theorem rounds_succ (r : RecvCall) (m : Nat) :
    @rounds nprocs r (m + 1) = .post (.recv receive) 1 :: .wait 1 :: rounds r m := by
  rw [rounds, List.replicate_succ, List.flatten_cons]
  cases r <;> rfl

theorem rounds_add (r : RecvCall) (k m : Nat) :
    @rounds nprocs r (k + m) = rounds r k ++ rounds r m := by
  rw [rounds, List.replicate_add, List.flatten_append]
  rfl

theorem length_rounds (r : RecvCall) (m : Nat) : (@rounds nprocs r m).length = 2 * m := by
  induction m with
  | zero => rfl
  | succ m ih =>
    rw [rounds_succ, List.length_cons, List.length_cons, ih]
    omega

/-- What the loop leaves behind. -/
theorem run_rounds (r : RecvCall) (m : Nat) :
    (Local.run (@rounds nprocs r m)).outbox = [] ∧
      (Local.run (@rounds nprocs r m)).inbox = List.replicate m receive := by
  induction m with
  | zero => exact ⟨rfl, rfl⟩
  | succ m ih =>
    have hone : @rounds nprocs r (m + 1) =
        rounds r m ++ [.post (.recv receive) 1] ++ [.wait 1] := by
      rw [rounds_add, rounds_succ r 0]
      simp [rounds]
    have hwait : (Local.run (@rounds nprocs r (m + 1))).outbox =
          (Local.run (rounds r m)).outbox ∧
        (Local.run (@rounds nprocs r (m + 1))).inbox =
          (Local.run (rounds r m)).inbox ++ [receive] := by
      rw [hone, Local.run_concat, Local.run_concat]
      simp [Local.exec, Local.issue]
    rw [hwait.1, hwait.2, ih.1, ih.2, List.replicate_succ']
    exact ⟨rfl, rfl⟩

/-- In the middle of a round, the receive is the one that is waited for. -/
theorem run_posted (r : RecvCall) (m : Nat) :
    (Local.run (@rounds nprocs r m ++ [.post (.recv receive) 1])).inbox =
        List.replicate (m + 1) receive ∧
      (Local.run (@rounds nprocs r m ++ [.post (.recv receive) 1])).handle 1 =
        .active (.recv receive) m false := by
  obtain ⟨-, hinbox⟩ := @run_rounds nprocs r m
  rw [Local.run_concat]
  simp [Local.exec, Local.issue, hinbox, List.replicate_succ']

/-- A point of the loop is between two rounds, in the middle of one, or at the end. -/
theorem rounds_split {m : Nat} {p q : List (Op (Fin nprocs) (Fin nprocs))}
    (h : rounds r m ++ [.finalize] = p ++ q) :
    (∃ k l, k + l = m ∧ p = rounds r k ∧ q = rounds r l ++ [.finalize]) ∨
      (∃ k l, k + l + 1 = m ∧ p = rounds r k ++ [.post (.recv receive) 1] ∧
        q = .wait 1 :: (rounds r l ++ [.finalize])) ∨
      p = rounds r m ++ [.finalize] ∧ q = [] := by
  induction m generalizing p with
  | zero =>
    cases p with
    | nil => exact .inl ⟨0, 0, rfl, rfl, h.symm⟩
    | cons a p =>
      obtain ⟨rfl, htail⟩ := List.cons.inj h
      obtain ⟨rfl, rfl⟩ := List.append_eq_nil_iff.mp htail.symm
      exact .inr (.inr ⟨rfl, rfl⟩)
  | succ m ih =>
    rw [rounds_succ, List.cons_append, List.cons_append] at h
    rcases p with _ | ⟨a, _ | ⟨b, p⟩⟩
    · refine .inl ⟨0, m + 1, Nat.zero_add _, rfl, ?_⟩
      rw [rounds_succ]
      exact h.symm
    · obtain ⟨rfl, htail⟩ := List.cons.inj h
      exact .inr (.inl ⟨0, m, by omega, rfl, htail.symm⟩)
    · obtain ⟨rfl, htail⟩ := List.cons.inj h
      obtain ⟨rfl, hrest⟩ := List.cons.inj htail
      rcases ih hrest with ⟨k, l, hkl, rfl, rfl⟩ | ⟨k, l, hkl, rfl, rfl⟩ | ⟨rfl, rfl⟩
      · exact .inl ⟨k + 1, l, by omega, (rounds_succ r k).symm, rfl⟩
      · exact .inr (.inl ⟨k + 1, l, by omega, by rw [rounds_succ]; rfl, rfl⟩)
      · exact .inr (.inr ⟨by rw [rounds_succ]; rfl, rfl⟩)

/-- The receives take every message. -/
theorem accepts_receive (i : Fin nprocs) (msg : Message (Fin nprocs) (Fin nprocs)) :
    Accepts receive i msg := by
  constructor
  · intro j hj
    cases hj
  · intro t ht
    cases ht

variable [NeZero nprocs]

theorem program_zero (s : SendCall) (r : RecvCall) :
    program s r (0 : Fin nprocs) = rounds r (nprocs - 1) ++ [.finalize] := by
  rw [program, if_pos rfl]

theorem program_sender (s : SendCall) (r : RecvCall) (h : rank ≠ 0) :
    program s r rank = [.post (.send (message rank)) 2, .wait 2, .finalize] := by
  rw [program, if_neg h]
  cases s <;> rfl

end Rank

/-! ## The ranks together -/

section Ranks

variable {nprocs : Nat} [NeZero nprocs] {s : SendCall} {r : RecvCall}
  {lib : Library (Fin nprocs)} {st : State (Fin nprocs) (Fin nprocs)}

/-- A sender has not begun, or it has posted its message. -/
theorem sender_cases (h : Reachable lib (program s r) st) {i : Fin nprocs} (hi : i ≠ 0) :
    (st.rest i = [.post (.send (message i)) 2, .wait 2, .finalize] ∧ st.loc i = Local.initial) ∨
      (st.loc i).outbox = [message i] := by
  obtain ⟨p, hp, hloc⟩ := reachable_local h i
  rw [program_sender s r hi] at hp
  cases p with
  | nil => exact .inl ⟨hp.symm, hloc⟩
  | cons a p =>
    right
    obtain ⟨rfl, htail⟩ := List.cons.inj hp
    have hlower := (Local.run_grows
      (List.prefix_append [Op.post (Comm.send (message i)) 2] p)).1
    have hupper := (reachable_posted h i).1
    rw [program_sender s r hi] at hupper
    rw [List.singleton_append, ← hloc] at hlower
    exact hupper.eq_of_length_le hlower.length_le

theorem outbox_eq_some (h : Reachable lib (program s r) st) {i : Fin nprocs} {k : Nat}
    {msg : Message (Fin nprocs) (Fin nprocs)} (hk : (st.loc i).outbox[k]? = some msg) :
    i ≠ 0 ∧ k = 0 ∧ msg = message i := by
  have hk := getElem?_of_prefix (reachable_posted h i).1 hk
  by_cases hi : i = 0
  · subst hi
    rw [program_zero, Local.run_concat] at hk
    have hk : (Local.run (rounds r (nprocs - 1))).outbox[k]? = some msg := hk
    rw [(run_rounds r _).1] at hk
    cases hk
  · rw [program_sender s r hi] at hk
    have hk : [message i][k]? = some msg := hk
    refine ⟨hi, ?_⟩
    simpa [List.getElem?_singleton, eq_comm] using hk

theorem inbox_eq_some (h : Reachable lib (program s r) st) {k : Nat} {rcv : Receive (Fin nprocs)}
    (hk : (st.loc 0).inbox[k]? = some rcv) : k < nprocs - 1 ∧ rcv = receive := by
  have hgrow := (reachable_posted h 0).2
  rw [program_zero, Local.run_concat] at hgrow
  have hk : (Local.run (rounds r (nprocs - 1))).inbox[k]? = some rcv := getElem?_of_prefix hgrow hk
  rw [(run_rounds r _).2, List.getElem?_replicate] at hk
  split at hk
  · exact ⟨‹_›, (Option.some.inj hk).symm⟩
  · cases hk

/-- A message goes to rank 0, which receives whatever comes. -/
theorem matched_eq (h : Reachable lib (program s r) st) {m i : Ident (Fin nprocs)}
    (hmatch : (m, i) ∈ st.matched) : m.1 ≠ 0 ∧ m.2 = 0 ∧ i.1 = 0 ∧ i.2 < nprocs - 1 := by
  obtain ⟨msg, rcv, hmsg, hrcv, hdest, -⟩ := (reachable_matching h).fits _ hmatch
  obtain ⟨hm, hk, rfl⟩ := outbox_eq_some h hmsg
  have hi : i.1 = 0 := hdest.symm
  rw [hi] at hrcv
  exact ⟨hm, hk, hi, (inbox_eq_some h hrcv).1⟩

/-- **The receives are matched in their order**: each of them accepts what the
ones before it do. -/
theorem received_spec (h : Reachable lib (program s r) st) :
    st.received.reverse = (List.range st.matched.length).map fun k => (0, k) := by
  induction h with
  | refl => rfl
  | @tail st st' hrun hstep ih =>
    obtain ⟨e, he⟩ := hstep
    rcases next_cases he with ⟨j, op, ops, -, -, rfl⟩ | ⟨m, i, msg, rcv, hmsg, hrcv, hcan, rfl⟩
    · exact ih
    · have hmem (j : Nat) : (0, j) ∈ st.received ↔ j < st.matched.length := by
        rw [← List.mem_reverse, ih]
        simp
      obtain ⟨-, -, rfl⟩ := outbox_eq_some hrun hmsg
      obtain ⟨i, k⟩ := i
      obtain rfl : i = 0 := hcan.dest.symm
      have hlt : ¬ k < st.matched.length := (hmem k).not.mp hcan.pending.2
      have hle : ∀ j < k, j < st.matched.length := by
        -- an earlier receive has been posted, and would do
        intro j hj
        have hlen : j < (st.loc 0).inbox.length :=
          hj.trans (List.getElem?_eq_some_iff.mp hrcv).1
        have hother := List.getElem?_eq_getElem hlen
        refine (hmem j).mp (hcan.asPosted j hj _ hother ?_)
        rw [(inbox_eq_some hrun hother).2]
        exact accepts_receive _ _
      have hk : k = st.matched.length := by
        rcases Nat.eq_zero_or_pos k with rfl | hpos
        · omega
        · have hpred := hle (k - 1) (by omega)
          omega
      have hreceived : (st.deliver m (0, k)).received.reverse = st.received.reverse ++ [(0, k)] :=
        List.reverse_cons
      have hlength : (st.deliver m (0, k)).matched.length = st.matched.length + 1 := rfl
      rw [hreceived, hlength, ih, hk, List.range_succ, List.map_append]
      rfl

theorem mem_received (h : Reachable lib (program s r) st) (k : Nat) :
    (0, k) ∈ st.received ↔ k < st.matched.length := by
  rw [← List.mem_reverse, received_spec h]
  simp

/-- The values come from different ranks, none of them 0. -/
theorem order_eq (h : Reachable lib (program s r) st) :
    order st = (st.sent.map Prod.fst).reverse ∧ (order st).Nodup ∧ ∀ i ∈ order st, i ≠ 0 := by
  have hdata : ∀ e ∈ st.matched.reverse,
      ((st.loc e.1.1).outbox[e.1.2]?).map Message.data = some e.1.1 := by
    intro e he
    obtain ⟨msg, -, hmsg, -, -, -⟩ := (reachable_matching h).fits e (List.mem_reverse.mp he)
    obtain ⟨-, -, hmessage⟩ := outbox_eq_some h hmsg
    rw [hmsg, hmessage]
    rfl
  have horder : order st = (st.sent.map Prod.fst).reverse := by
    rw [order, List.filterMap_congr hdata, State.sent, List.map_map, ← List.map_reverse]
    exact congrFun List.filterMap_eq_map _
  have hzero : ∀ m ∈ st.sent, m.1 ≠ 0 ∧ m.2 = 0 := by
    intro m hm
    obtain ⟨e, he, rfl⟩ := List.mem_map.mp hm
    exact ⟨(matched_eq h he).1, (matched_eq h he).2.1⟩
  refine ⟨horder, ?_, ?_⟩
  · rw [horder, List.nodup_reverse]
    refine (reachable_matching h).sentOnce.map_on fun m hm m' hm' hfst => ?_
    exact Prod.ext hfst ((hzero m hm).2.trans (hzero m' hm').2.symm)
  · intro i hi
    rw [horder, List.mem_reverse] at hi
    obtain ⟨m, hm, rfl⟩ := List.mem_map.mp hi
    exact (hzero m hm).1

theorem order_length (h : Reachable lib (program s r) st) :
    (order st).length = st.matched.length := by
  rw [(order_eq h).1]
  simp [State.sent]

/-- The message of a rank is matched when its value has been received. -/
theorem mem_order (h : Reachable lib (program s r) st) (i : Fin nprocs) :
    i ∈ order st ↔ (i, 0) ∈ st.sent := by
  rw [(order_eq h).1, List.mem_reverse, List.mem_map]
  constructor
  · rintro ⟨m, hm, rfl⟩
    obtain ⟨e, he, rfl⟩ := List.mem_map.mp hm
    rwa [← (matched_eq h he).2.1]
  · exact fun hi => ⟨(i, 0), hi, rfl⟩

theorem nodup_senders : (senders nprocs).Nodup := (List.nodup_finRange nprocs).erase 0

theorem mem_senders (i : Fin nprocs) : i ∈ senders nprocs ↔ i ≠ 0 := by
  rw [senders, (List.nodup_finRange nprocs).mem_erase_iff]
  simp

theorem length_senders : (senders nprocs).length = nprocs - 1 := by
  rw [senders, List.length_erase_of_mem (List.mem_finRange 0), List.length_finRange]

/-- As many values as senders: these are all. -/
theorem perm_of_length (h : Reachable lib (program s r) st)
    (hlen : nprocs - 1 ≤ st.matched.length) : (order st).Perm (senders nprocs) := by
  obtain ⟨-, hnodup, hzero⟩ := order_eq h
  have hsub : order st ⊆ senders nprocs := fun i hi => (mem_senders i).mpr (hzero i hi)
  refine (hnodup.subperm hsub).perm_of_length_le ?_
  rw [length_senders, order_length h]
  exact hlen

theorem matched_le (h : Reachable lib (program s r) st) : st.matched.length ≤ nprocs - 1 := by
  obtain ⟨-, hnodup, hzero⟩ := order_eq h
  have hsub : order st ⊆ senders nprocs := fun i hi => (mem_senders i).mpr (hzero i hi)
  rw [← order_length h, ← length_senders]
  exact (hnodup.subperm hsub).length_le

/-- A message that is pending can be matched with the next receive. -/
theorem canMatch (h : Reachable lib (program s r) st) {i : Fin nprocs} (hi : (i, 0) ∉ st.sent) :
    CanMatch st (i, 0) (0, st.matched.length) (message i) receive := by
  refine ⟨rfl, accepts_receive _ _, ⟨hi, ?_⟩, ?_, ?_⟩
  · rw [mem_received h]
    exact Nat.lt_irrefl _
  · exact fun k hk => absurd hk (Nat.not_lt_zero k)
  · exact fun k hk _ _ _ => (mem_received h k).mpr hk

/-- **Behind a round its receive is matched.** -/
theorem received_of_waited (h : Reachable lib (program s r) st) {k : Nat}
    {t : List (Op (Fin nprocs) (Fin nprocs))}
    (hp : program s r 0 = rounds r k ++ t ++ st.rest 0) : k ≤ st.matched.length := by
  cases k with
  | zero => exact Nat.zero_le _
  | succ k =>
    have hsplit : program s r 0 = (rounds r k ++ [.post (.recv receive) 1]) ++
        .wait 1 :: t ++ st.rest 0 := by
      rw [hp, rounds_add, rounds_succ r 0]
      simp [rounds]
    have hcomplete := reachable_waited h hsplit
    rw [(run_posted r k).2] at hcomplete
    exact (mem_received h k).mp hcomplete

/-- **Where rank 0 is**: the receives of its rounds are matched. -/
theorem root_cases (h : Reachable lib (program s r) st) :
    (∃ k l, k + l = nprocs - 1 ∧ st.rest 0 = rounds r l ++ [.finalize] ∧
        st.loc 0 = Local.run (rounds r k) ∧ k ≤ st.matched.length) ∨
      (∃ k l, k + l + 1 = nprocs - 1 ∧ st.rest 0 = .wait 1 :: (rounds r l ++ [.finalize]) ∧
        st.loc 0 = Local.run (rounds r k ++ [.post (.recv receive) 1]) ∧
        k ≤ st.matched.length) ∨
      st.rest 0 = [] := by
  obtain ⟨p, hp, hloc⟩ := reachable_local h 0
  have hsplit : rounds r (nprocs - 1) ++ [.finalize] = p ++ st.rest 0 := by
    rw [← hp, program_zero]
  rcases rounds_split hsplit with ⟨k, l, hkl, rfl, hrest⟩ | ⟨k, l, hkl, rfl, hrest⟩ | ⟨-, hrest⟩
  · have hle := received_of_waited (k := k) (t := []) h (by rw [hp, List.append_nil])
    exact .inl ⟨k, l, hkl, hrest, hloc, hle⟩
  · exact .inr (.inl ⟨k, l, hkl, hrest, hloc, received_of_waited h hp⟩)
  · exact .inr (.inr hrest)

/-- **Behind the loop, the values of all other ranks have been received.** -/
theorem order_perm (h : Reachable lib (program s r) st)
    (hpast : st.rest 0 = [.finalize] ∨ st.rest 0 = []) : (order st).Perm (senders nprocs) := by
  apply perm_of_length h
  rcases hpast with hrest | hrest
  · apply received_of_waited (t := []) h
    rw [hrest, program_zero, List.append_nil]
  · apply received_of_waited (t := [.finalize]) h
    rw [hrest, program_zero, List.append_nil]

theorem finalize_last (h : Reachable lib (program s r) st) {op : Op (Fin nprocs) (Fin nprocs)}
    (hrest : st.rest 0 = [op]) : op = .finalize := by
  obtain ⟨p, hp, -⟩ := reachable_local h 0
  rw [program_zero, hrest] at hp
  exact (List.singleton_inj.mp (List.append_inj' hp rfl).2).symm

/-- Then nobody waits any more. -/
theorem complete_of_past (h : Reachable lib (program s r) st)
    (hpast : st.rest 0 = [.finalize] ∨ st.rest 0 = []) {i : Fin nprocs} {req : Nat}
    {ops : List (Op (Fin nprocs) (Fin nprocs))} (hrest : st.rest i = .wait req :: ops) :
    Complete lib st i ((st.loc i).handle req) := by
  have hi : i ≠ 0 := by
    rintro rfl
    rcases hpast with hpast | hpast <;> simp [hpast] at hrest
  have hsent : (i, 0) ∈ st.sent := by
    rw [← mem_order h, (order_perm h hpast).mem_iff]
    exact (mem_senders i).mpr hi
  obtain ⟨p, hp, hloc⟩ := reachable_local h i
  rw [program_sender s r hi, hrest] at hp
  rcases p with _ | ⟨a, _ | ⟨b, p⟩⟩
  · cases hp
  · obtain ⟨rfl, htail⟩ := List.cons.inj hp
    obtain ⟨hreq, -⟩ := List.cons.inj htail
    obtain rfl := Op.wait.inj hreq
    rw [hloc]
    exact .inr hsent
  · obtain ⟨-, htail⟩ := List.cons.inj hp
    obtain ⟨-, hfinalize⟩ := List.cons.inj htail
    have hmem : Op.wait req ∈ p ++ .wait req :: ops := by simp
    rw [← List.append_eq, ← hfinalize] at hmem
    simp at hmem

end Ranks

/-! ## Runs with the check -/

section Runs

variable {nprocs : Nat} [NeZero nprocs] {s : SendCall} {r : RecvCall}
  {lib : Library (Fin nprocs)} {c c' : Config nprocs}

/-- **What can happen**: a rank makes its next call, a message is matched, or
rank 0 checks. -/
theorem step_cases (h : Config.Step lib c c') :
    (∃ i op ops, c.st.rest i = op :: ops ∧ Enabled lib c.st i op ∧ ¬ (i = 0 ∧ c.AtCheck) ∧
        c' = ⟨c.st.act i op ops, c.check⟩) ∨
      (∃ m i msg rcv, (c.st.loc m.1).outbox[m.2]? = some msg ∧
        (c.st.loc i.1).inbox[i.2]? = some rcv ∧ CanMatch c.st m i msg rcv ∧
        c' = ⟨c.st.deliver m i, c.check⟩) ∨
      c.AtCheck ∧ c' = ⟨c.st, if buf1 c.st = 3 then .passed else .aborted⟩ := by
  obtain ⟨m, hm⟩ := h
  cases m with
  | comm e =>
    rw [Config.next] at hm
    split at hm
    · rename_i hallows
      obtain ⟨st, hst, rfl⟩ := Option.map_eq_some_iff.mp hm
      cases e with
      | act i =>
        obtain ⟨op, ops, hrest, henabled, rfl⟩ := next_act hst
        exact .inl ⟨i, op, ops, hrest, henabled, hallows.2, rfl⟩
      | deliver m i =>
        obtain ⟨msg, rcv, hmsg, hrcv, hcan, rfl⟩ := next_deliver hst
        exact .inr (.inl ⟨m, i, msg, rcv, hmsg, hrcv, hcan, rfl⟩)
    · cases hm
  | check =>
    rw [Config.next] at hm
    split at hm
    · exact .inr (.inr ⟨‹_›, (Option.some.inj hm).symm⟩)
    · cases hm

theorem config_act {i : Fin nprocs} {op : Op (Fin nprocs) (Fin nprocs)}
    {ops : List (Op (Fin nprocs) (Fin nprocs))} (hpending : c.check = .pending)
    (hrest : c.st.rest i = op :: ops) (hat : i = 0 → op ≠ .finalize)
    (henabled : Enabled lib c.st i op) : Config.Step lib c ⟨c.st.act i op ops, .pending⟩ := by
  have hallows : c.Allows (.act i) := by
    refine ⟨by rw [hpending]; decide, fun hcheck => ?_⟩
    obtain ⟨rfl, -, hfinalize⟩ := hcheck
    rw [hrest] at hfinalize
    exact hat rfl (List.cons.inj hfinalize).1
  refine ⟨.comm (.act i), ?_⟩
  rw [Config.next, if_pos hallows]
  simp only [next, hrest, if_pos henabled, Option.map_some, hpending]

theorem config_deliver {m i : Ident (Fin nprocs)} {msg : Message (Fin nprocs) (Fin nprocs)}
    {rcv : Receive (Fin nprocs)} (hpending : c.check = .pending)
    (hmsg : (c.st.loc m.1).outbox[m.2]? = some msg)
    (hrcv : (c.st.loc i.1).inbox[i.2]? = some rcv) (hcan : CanMatch c.st m i msg rcv) :
    Config.Step lib c ⟨c.st.deliver m i, .pending⟩ := by
  have hallows : c.Allows (.deliver m i) := by
    rw [Config.Allows, hpending]
    decide
  refine ⟨.comm (.deliver m i), ?_⟩
  rw [Config.next, if_pos hallows]
  simp only [next, hmsg, hrcv, if_pos hcan, Option.map_some, hpending]

theorem config_check (h : c.AtCheck) :
    Config.Step lib c ⟨c.st, if buf1 c.st = 3 then .passed else .aborted⟩ := by
  refine ⟨.check, ?_⟩
  rw [Config.next, if_pos h]

/-- The calls of a run with the check are those of a run without. -/
theorem reachable_st (h : Occurs lib s r c) : Reachable lib (program s r) c.st := by
  induction h with
  | refl => exact .refl
  | tail _ hstep ih =>
    rcases step_cases hstep with ⟨i, op, ops, hrest, henabled, -, rfl⟩ |
      ⟨m, i, msg, rcv, hmsg, hrcv, hcan, rfl⟩ | ⟨-, rfl⟩
    · exact ih.tail (step_act hrest henabled)
    · exact ih.tail (step_deliver hmsg hrcv hcan)
    · exact ih

/-- **Rank 0 goes on only behind the check**, and is behind its loop then. -/
theorem check_position (h : Occurs lib s r c) :
    (c.check = .pending → c.st.rest 0 ≠ []) ∧
      (c.check ≠ .pending → c.st.rest 0 = [.finalize] ∨ c.st.rest 0 = []) := by
  induction h with
  | refl =>
    refine ⟨fun _ => ?_, fun hcheck => absurd rfl hcheck⟩
    show program s r 0 ≠ []
    rw [program_zero]
    exact List.append_ne_nil_of_right_ne_nil _ (List.cons_ne_nil _ _)
  | @tail c c' hrun hstep ih =>
    rcases step_cases hstep with ⟨i, op, ops, hrest, -, hat, rfl⟩ |
      ⟨m, i, _, _, _, _, _, rfl⟩ | ⟨hat, rfl⟩
    · dsimp only
      by_cases hi : 0 = i
      · subst hi
        rw [act_rest_self]
        constructor
        · rintro hpending rfl
          exact hat ⟨rfl, hpending, by rw [hrest, finalize_last (reachable_st hrun) hrest]⟩
        · intro hcheck
          rcases ih.2 hcheck with hpast | hpast
          · rw [hrest] at hpast
            exact .inr (List.cons.inj hpast).2
          · rw [hrest] at hpast
            cases hpast
      · rw [act_rest_ne _ hi]
        exact ih
    · exact ih
    · have hrest : c.st.rest 0 = [.finalize] := hat.2
      refine ⟨fun _ => ?_, fun _ => .inl hrest⟩
      show c.st.rest 0 ≠ []
      rw [hrest]
      exact List.cons_ne_nil _ _

/-- **Nobody blocks before the check.** -/
theorem step_of_pending (h : Occurs lib s r c) (hpending : c.check = .pending) :
    ∃ c', Config.Step lib c c' := by
  have hst := reachable_st h
  rcases root_cases hst with ⟨k, l, -, hrest, -, -⟩ | ⟨k, l, hkl, hrest, hloc, hle⟩ | hrest
  · cases l with
    | zero => exact ⟨_, config_check ⟨hpending, hrest⟩⟩
    | succ l =>
      rw [rounds_succ, List.cons_append] at hrest
      exact ⟨_, config_act hpending hrest (by simp) trivial⟩
  · by_cases hreceived : (0, k) ∈ c.st.received
    · refine ⟨_, config_act hpending hrest (by simp) ?_⟩
      rw [Enabled, hloc, (run_posted r k).2]
      exact hreceived
    -- the receive waits, so some message has not been matched
    obtain ⟨i, hi, hpend⟩ : ∃ i, i ≠ 0 ∧ (i, 0) ∉ c.st.sent := by
      by_contra hall
      push Not at hall
      have hsub : senders nprocs ⊆ order c.st := by
        intro i hi
        exact (mem_order hst i).mpr (hall i ((mem_senders i).mp hi))
      have hlen := (nodup_senders.subperm hsub).length_le
      rw [length_senders, order_length hst] at hlen
      exact hreceived ((mem_received hst k).mpr (by omega))
    rcases sender_cases hst hi with ⟨hbegin, -⟩ | houtbox
    · exact ⟨_, config_act hpending hbegin (fun h0 => absurd h0 hi) trivial⟩
    · have hmsg : (c.st.loc i).outbox[0]? = some (message i) := by
        rw [houtbox]
        rfl
      have hrcv : (c.st.loc 0).inbox[k]? = some receive := by
        rw [hloc, (run_posted r k).1, List.getElem?_replicate, if_pos (Nat.lt_succ_self k)]
      have hk : k = c.st.matched.length := by
        rw [mem_received hst] at hreceived
        omega
      have hcan := canMatch hst hpend
      rw [← hk] at hcan
      exact ⟨_, config_deliver hpending hmsg hrcv hcan⟩
  · exact absurd hrest ((check_position h).1 hpending)

/-! ## Every run ends -/

/-- The calls and the receptions to come, and the check. -/
def Config.measure (c : Config nprocs) : Nat :=
  (∑ i, (c.st.rest i).length) + (nprocs - 1 - c.st.matched.length) +
    if c.check = .pending then 1 else 0

theorem measure_step (h : Occurs lib s r c) (hstep : Config.Step lib c c') :
    c'.measure < c.measure := by
  have hnext := matched_le (reachable_st (h.tail hstep))
  rcases step_cases hstep with ⟨i, op, ops, hrest, -, -, rfl⟩ |
    ⟨m, i, _, _, _, _, _, rfl⟩ | ⟨hat, rfl⟩
  · have hsum : ∑ j, ((c.st.act i op ops).rest j).length < ∑ j, (c.st.rest j).length := by
      refine Finset.sum_lt_sum (fun j _ => ?_) ⟨i, Finset.mem_univ i, ?_⟩
      · by_cases hji : j = i
        · subst hji
          rw [act_rest_self, hrest]
          exact Nat.le_succ _
        · rw [act_rest_ne _ hji]
      · rw [act_rest_self, hrest]
        exact Nat.lt_succ_self _
    exact Nat.add_lt_add_right (Nat.add_lt_add_right hsum _) _
  · have hlen : (c.st.deliver m i).matched.length = c.st.matched.length + 1 := rfl
    have hnext : (c.st.deliver m i).matched.length ≤ nprocs - 1 := hnext
    simp only [Config.measure, hlen] at hnext ⊢
    show (∑ j, (c.st.rest j).length) + _ + _ < _
    omega
  · have hpending : c.check = .pending := hat.1
    have hchecked : (if buf1 c.st = 3 then Check.passed else .aborted) ≠ .pending := by
      split <;> decide
    simp only [Config.measure, hpending, if_neg hchecked, if_true]
    omega

/-- **No run goes on for ever.** -/
theorem no_infinite_run (run : Nat → Config nprocs) (h0 : run 0 = start s r) :
    ¬ ∀ k, Config.Step lib (run k) (run (k + 1)) := by
  intro hsteps
  have hoccurs : ∀ k, Occurs lib s r (run k) := by
    intro k
    induction k with
    | zero => rw [h0]; exact .refl
    | succ k ih => exact ih.tail (hsteps k)
  have hdown : ∀ k, (run k).measure + k ≤ (run 0).measure := by
    intro k
    induction k with
    | zero => exact le_rfl
    | succ k ih =>
      have hlt := measure_step (hoccurs k) (hsteps k)
      omega
  have hlast := hdown ((run 0).measure + 1)
  omega

/-! ## Every order of reception -/

/-- The values of `l` have been received, and the other ranks have not begun. -/
structure Scheduled (lib : Library (Fin nprocs)) (s : SendCall) (r : RecvCall)
    (l : List (Fin nprocs)) (c : Config nprocs) : Prop where
  occurs : Occurs lib s r c
  pending : c.check = .pending
  order : order c.st = l
  root : ∃ m, l.length + m = nprocs - 1 ∧ c.st.rest 0 = rounds r m ++ [.finalize]
  others : ∀ i, i ≠ 0 → i ∉ l → c.st.rest i = program s r i

theorem scheduled_nil (lib : Library (Fin nprocs)) (s : SendCall) (r : RecvCall) :
    Scheduled lib s r [] (start s r) where
  occurs := .refl
  pending := rfl
  order := rfl
  root := ⟨nprocs - 1, Nat.zero_add _, program_zero s r⟩
  others _ _ _ := rfl

/-- As long as a rank is missing, there is a round left. -/
theorem scheduled_lt {l : List (Fin nprocs)} (h : Scheduled lib s r l c) {i : Fin nprocs}
    (hi : i ≠ 0) (hl : i ∉ l) : l.length < nprocs - 1 := by
  by_contra hge
  have hst := reachable_st h.occurs
  have hlen : nprocs - 1 ≤ c.st.matched.length := by
    rw [← order_length hst, h.order]
    exact Nat.not_lt.mp hge
  have hperm := perm_of_length hst hlen
  rw [h.order] at hperm
  exact hl (hperm.mem_iff.mpr ((mem_senders i).mpr hi))

/-- After the values of `l`, the rank `i` has posted its message and rank 0 the
next receive. -/
structure Posted (lib : Library (Fin nprocs)) (s : SendCall) (r : RecvCall)
    (l : List (Fin nprocs)) (i : Fin nprocs) (c : Config nprocs) : Prop where
  occurs : Occurs lib s r c
  pending : c.check = .pending
  order : order c.st = l
  root : ∃ m, l.length + m + 1 = nprocs - 1 ∧
    c.st.rest 0 = .wait 1 :: (rounds r m ++ [.finalize])
  sent : (c.st.loc i).outbox = [message i]
  others : ∀ j, j ≠ 0 → j ∉ l ++ [i] → c.st.rest j = program s r j

theorem posted_of_scheduled {l : List (Fin nprocs)} (h : Scheduled lib s r l c) {i : Fin nprocs}
    (hi : i ≠ 0) (hl : i ∉ l) : ∃ c', Posted lib s r l i c' := by
  obtain ⟨m, hm, hroot⟩ := h.root
  have hst := reachable_st h.occurs
  have hsend := h.others i hi hl
  rw [program_sender s r hi] at hsend
  have hlt := scheduled_lt h hi hl
  obtain ⟨m, rfl⟩ := Nat.exists_eq_succ_of_ne_zero (show m ≠ 0 by omega)
  rw [rounds_succ, List.cons_append, List.cons_append] at hroot
  let c₁ : Config nprocs :=
    ⟨c.st.act i (.post (.send (message i)) 2) [.wait 2, .finalize], .pending⟩
  have hoccurs₁ : Occurs lib s r c₁ :=
    h.occurs.tail (config_act h.pending hsend (fun h0 => absurd h0 hi) trivial)
  have hroot₁ : c₁.st.rest 0 = _ := (act_rest_ne c.st hi.symm _ _).trans hroot
  let c₂ : Config nprocs := ⟨c₁.st.act 0 (.post (.recv receive) 1)
    (.wait 1 :: (rounds r m ++ [.finalize])), .pending⟩
  have hoccurs₂ : Occurs lib s r c₂ := hoccurs₁.tail (config_act rfl hroot₁ (by simp) trivial)
  have hst₂ := reachable_st hoccurs₂
  refine ⟨c₂, hoccurs₂, rfl, ?_, ⟨m, by omega, act_rest_self ..⟩, ?_, ?_⟩
  · -- nothing has been matched
    rw [← h.order, (order_eq hst₂).1, (order_eq hst).1]
    rfl
  · rcases sender_cases hst₂ hi with ⟨hbegin, -⟩ | houtbox
    · have hrest : c₂.st.rest i = [.wait 2, .finalize] :=
        (act_rest_ne c₁.st hi _ _).trans (act_rest_self ..)
      rw [hrest] at hbegin
      simp at hbegin
    · exact houtbox
  · intro j hj hjl
    rw [List.mem_append, List.mem_singleton, not_or] at hjl
    have hrest : c₂.st.rest j = c.st.rest j :=
      (act_rest_ne c₁.st hj _ _).trans (act_rest_ne c.st hjl.2 _ _)
    rw [hrest]
    exact h.others j hj hjl.1

/-- The receive that waits is the next one. -/
theorem posted_loc {l : List (Fin nprocs)} {i : Fin nprocs} (h : Posted lib s r l i c) :
    c.st.loc 0 = Local.run (rounds r l.length ++ [.post (.recv receive) 1]) := by
  obtain ⟨m, hm, hroot⟩ := h.root
  have hst := reachable_st h.occurs
  rcases root_cases hst with ⟨k, n, -, hrest, -, -⟩ | ⟨k, n, hkn, hrest, hloc, -⟩ | hrest
  · rw [hroot] at hrest
    cases n with
    | zero => simp [rounds] at hrest
    | succ n =>
      rw [rounds_succ] at hrest
      cases hrest
  · rw [hroot, List.cons_inj_right, List.append_left_inj] at hrest
    have hmn : m = n := by
      have hlength := congrArg List.length hrest
      rw [length_rounds, length_rounds] at hlength
      omega
    rw [hloc, show k = l.length by omega]
  · rw [hroot] at hrest
    cases hrest

theorem scheduled_of_posted {l : List (Fin nprocs)} {i : Fin nprocs} (h : Posted lib s r l i c)
    (hl : i ∉ l) : ∃ c', Scheduled lib s r (l ++ [i]) c' := by
  obtain ⟨m, hm, hroot⟩ := h.root
  have hst := reachable_st h.occurs
  have hlen : c.st.matched.length = l.length := by rw [← order_length hst, h.order]
  have hpend : (i, 0) ∉ c.st.sent := by
    rw [← mem_order hst, h.order]
    exact hl
  have hloc := posted_loc h
  obtain ⟨hinbox, hhandle⟩ := @run_posted nprocs r l.length
  have hmsg : (c.st.loc i).outbox[0]? = some (message i) := by
    rw [h.sent]
    rfl
  have hrcv : (c.st.loc 0).inbox[l.length]? = some receive := by
    rw [hloc, hinbox, List.getElem?_replicate, if_pos (Nat.lt_succ_self _)]
  have hcan : CanMatch c.st (i, 0) (0, l.length) (message i) receive := hlen ▸ canMatch hst hpend
  let c₁ : Config nprocs := ⟨c.st.deliver (i, 0) (0, l.length), .pending⟩
  have hoccurs₁ : Occurs lib s r c₁ := h.occurs.tail (config_deliver h.pending hmsg hrcv hcan)
  have hwait : Enabled lib c₁.st 0 (.wait 1) := by
    show Complete lib c₁.st 0 ((c.st.loc 0).handle 1)
    rw [hloc, hhandle]
    exact List.mem_cons_self ..
  let c₂ : Config nprocs := ⟨c₁.st.act 0 (.wait 1) (rounds r m ++ [.finalize]), .pending⟩
  have hoccurs₂ : Occurs lib s r c₂ := hoccurs₁.tail (config_act rfl hroot (by simp) hwait)
  refine ⟨c₂, hoccurs₂, rfl, ?_, ⟨m, ?_, act_rest_self ..⟩, ?_⟩
  · have hsent : c₂.st.sent = (i, 0) :: c.st.sent := rfl
    rw [(order_eq (reachable_st hoccurs₂)).1, hsent, List.map_cons, List.reverse_cons,
      ← (order_eq hst).1, h.order]
  · rw [List.length_append, List.length_singleton]
    omega
  · intro j hj hjl
    exact (act_rest_ne c₁.st hj _ _).trans (h.others j hj hjl)

/-- **Every order of reception occurs.** -/
theorem exists_order (lib : Library (Fin nprocs)) (s : SendCall) (r : RecvCall)
    {l : List (Fin nprocs)} (hnodup : l.Nodup) (hzero : ∀ i ∈ l, i ≠ 0) :
    ∃ c, Scheduled lib s r l c := by
  induction l using List.reverseRecOn with
  | nil => exact ⟨_, scheduled_nil lib s r⟩
  | append_singleton l i ih =>
    obtain ⟨hlnodup, -, hdisjoint⟩ := List.nodup_append.mp hnodup
    obtain ⟨c, hc⟩ := ih hlnodup fun j hj => hzero j (List.mem_append_left _ hj)
    have hi : i ≠ 0 := hzero i (by simp)
    have hl : i ∉ l := fun hmem => hdisjoint i hmem i (List.mem_singleton_self i) rfl
    obtain ⟨c', hc'⟩ := posted_of_scheduled hc hi hl
    exact scheduled_of_posted hc' hl

/-- With all values, rank 0 is at its check. -/
theorem exists_check (lib : Library (Fin nprocs)) (s : SendCall) (r : RecvCall)
    {l : List (Fin nprocs)} (hperm : l.Perm (senders nprocs)) :
    ∃ c, Occurs lib s r c ∧ c.AtCheck ∧ order c.st = l := by
  obtain ⟨c, hc⟩ := exists_order lib s r (hperm.nodup_iff.mpr nodup_senders)
    fun i hi => (mem_senders i).mp (hperm.mem_iff.mp hi)
  obtain ⟨m, hm, hroot⟩ := hc.root
  obtain rfl : m = 0 := by
    rw [hperm.length_eq, length_senders] at hm
    omega
  exact ⟨c, hc.occurs, ⟨hc.pending, hroot⟩, hc.order⟩

theorem rank_ne_zero {k : Nat} (hk : k ≠ 0) (hlt : k < nprocs) :
    (⟨k, hlt⟩ : Fin nprocs) ≠ 0 := by
  intro h0
  exact hk (congrArg Fin.val h0)

/-- Each value may be the last one. -/
theorem exists_last (lib : Library (Fin nprocs)) (s : SendCall) (r : RecvCall) {i : Fin nprocs}
    (hi : i ≠ 0) :
    ∃ c, Occurs lib s r c ∧ c.check = if (i.val : Int) = 3 then .passed else .aborted := by
  have hperm : ((senders nprocs).erase i ++ [i]).Perm (senders nprocs) := by
    refine (List.perm_append_singleton _ _).trans ?_
    exact (List.perm_cons_erase ((mem_senders i).mpr hi)).symm
  obtain ⟨c, hoccurs, hat, horder⟩ := exists_check lib s r hperm
  refine ⟨_, hoccurs.tail (config_check hat), ?_⟩
  have hbuf : buf1 c.st = i.val := by
    rw [buf1, horder, List.getLast?_concat]
  show (if buf1 c.st = 3 then Check.passed else .aborted) = _
  rw [hbuf]

end Runs

/-- **The message races race, and do nothing worse.** In every interleaving rank 0
gets to its check, having received the value of each other rank once; every order
of reception occurs, so that the check may fail and may pass. -/
theorem message_race (nprocs : Nat) [NeZero nprocs] (h : 4 ≤ nprocs) (s : SendCall) (r : RecvCall)
    (lib : Library (Fin nprocs)) :
    (∀ c, Occurs lib s r c → c.check = .pending → ∃ c', Config.Step lib c c') ∧
      (∀ run : Nat → Config nprocs, run 0 = start s r →
        ¬ ∀ k, Config.Step lib (run k) (run (k + 1))) ∧
      (∀ c, Occurs lib s r c → c.AtCheck ∨ c.check ≠ .pending →
        (order c.st).Perm (senders nprocs) ∧ ∀ i req ops, c.st.rest i = .wait req :: ops →
          Complete lib c.st i ((c.st.loc i).handle req)) ∧
      (∀ l, l.Perm (senders nprocs) → ∃ c, Occurs lib s r c ∧ c.AtCheck ∧ order c.st = l) ∧
      (∃ c, Occurs lib s r c ∧ c.check = .aborted) ∧ ∃ c, Occurs lib s r c ∧ c.check = .passed := by
  refine ⟨fun c hc => step_of_pending hc, fun run h0 => no_infinite_run run h0, ?_,
    fun l hl => exists_check lib s r hl, ?_, ?_⟩
  · intro c hc hchecked
    have hpast : c.st.rest 0 = [.finalize] ∨ c.st.rest 0 = [] := by
      rcases hchecked with hat | hchecked
      · exact .inl hat.2
      · exact (check_position hc).2 hchecked
    exact ⟨order_perm (reachable_st hc) hpast,
      fun i req ops hrest => complete_of_past (reachable_st hc) hpast hrest⟩
  · exact exists_last lib s r (rank_ne_zero one_ne_zero (by omega))
  · exact exists_last lib s r (rank_ne_zero three_ne_zero (by omega))

/-- Four processes, unbuffered. -/
theorem message_race_four :
    (∃ c, Occurs ⟨fun _ => false, true⟩ SendCall.MPI_Send RecvCall.MPI_Recv c ∧ c.AtCheck ∧
      order c.st = ([3, 1, 2] : List (Fin 4))) ∧
      ∃ c : Config 4, Occurs ⟨fun _ => false, true⟩ .MPI_Send .MPI_Recv c ∧ c.check = .aborted := by
  obtain ⟨-, -, -, horder, haborted, -⟩ :=
    message_race 4 le_rfl .MPI_Send .MPI_Recv ⟨fun _ => false, true⟩
  exact ⟨horder [3, 1, 2] (by decide), haborted⟩

end MpiBugs.MessageRace
