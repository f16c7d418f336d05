import MpiBugs.MessagePassing
import Mathlib.Data.List.FinRange

/-!
# The ring programs labelled OK

`MissingWaitandStartGenerator.py`: every rank sends its number to the next one
and receives from the one before, with non-blocking or persistent calls.

* `src_eq`, `dest_src`, `src_dest`: the neighbours, for every number of ranks;
* `program_local`: what a rank has posted at each point of its program;
* `received_of_stuck`: without a step left, everything is matched;
* `ring_deadlock_free`: some step is possible until all ranks are finished, and
  then each has the message of the rank before, once.
-/

namespace MpiBugs.Ring

open MessagePassing

variable {nprocs : Nat}

/-! ## The program -/

/-- `(rank == nprocs - 1) ? (0) : (rank + 1)` -/
def dest (rank : Fin nprocs) : Fin nprocs :=
  ⟨if rank.val = nprocs - 1 then 0 else rank.val + 1, by split <;> omega⟩

/-- `(rank == 0) ? (nprocs - 1) : (rank - 1)` -/
def src (rank : Fin nprocs) : Fin nprocs :=
  ⟨if rank.val = 0 then nprocs - 1 else rank.val - 1, by split <;> omega⟩

def stag : Nat := 0

def rtag : Nat := 0

/-- The entries of one call in the tables of `generator_utils.py`. -/
structure Calls (nprocs : Nat) where
  operation : List (Op (Fin nprocs) (Fin nprocs))
  start : List (Op (Fin nprocs) (Fin nprocs))
  fini : List (Op (Fin nprocs) (Fin nprocs))
  free : List (Op (Fin nprocs) (Fin nprocs))

def nonblocking (c : Comm (Fin nprocs) (Fin nprocs)) (n : Nat) : Calls nprocs where
  operation := [.post c n]
  start := []
  fini := [.wait n]
  free := [.free n]

def persistent (c : Comm (Fin nprocs) (Fin nprocs)) (n : Nat) : Calls nprocs where
  operation := [.init c n]
  start := [.start n]
  fini := [.wait n]
  free := [.free n]

/-- `isend + psend` -/
inductive SendCall
  | isend
  | sendInit
  deriving DecidableEq, Repr

/-- `irecv + precv` -/
inductive RecvCall
  | irecv
  | recvInit
  deriving DecidableEq, Repr

/-- What the rank sends: the number of the rank, from `buf1`. -/
def message (rank : Fin nprocs) : Message (Fin nprocs) (Fin nprocs) := ⟨dest rank, stag, rank⟩

def receive (rank : Fin nprocs) : Receive (Fin nprocs) := ⟨some (src rank), some rtag⟩

def SendCall.calls (rank : Fin nprocs) (n : Nat) : SendCall → Calls nprocs
  | isend => nonblocking (.send (message rank)) n
  | sendInit => persistent (.send (message rank)) n

def RecvCall.calls (rank : Fin nprocs) (n : Nat) : RecvCall → Calls nprocs
  | irecv => nonblocking (.recv (receive rank)) n
  | recvInit => persistent (.recv (receive rank)) n

/-- `@{operation1}@` to `@{start2}@` -/
def posts (s : SendCall) (r : RecvCall) (rank : Fin nprocs) : List (Op (Fin nprocs) (Fin nprocs)) :=
  (s.calls rank 1).operation ++ (s.calls rank 1).start ++
    ((r.calls rank 2).operation ++ (r.calls rank 2).start)

/-- `@{fini1}@` to the end. -/
def completion (s : SendCall) (r : RecvCall) (rank : Fin nprocs) :
    List (Op (Fin nprocs) (Fin nprocs)) :=
  (s.calls rank 1).fini ++ (r.calls rank 2).fini ++
    ((s.calls rank 1).free ++ (r.calls rank 2).free) ++ [.finalize]

/-- The calls of `P2PCallMatching_{s}_{r}_ok.c` on one rank. -/
def program (s : SendCall) (r : RecvCall) (rank : Fin nprocs) : List (Op (Fin nprocs) (Fin nprocs)) :=
  posts s r rank ++ completion s r rank

/-! ## The neighbours -/

theorem dest_src (rank : Fin nprocs) : dest (src rank) = rank := by
  have hlt := rank.isLt
  apply Fin.ext
  simp only [dest, src]
  split <;> split <;> omega

theorem src_dest (rank : Fin nprocs) : src (dest rank) = rank := by
  have hlt := rank.isLt
  apply Fin.ext
  simp only [dest, src]
  split <;> split <;> omega

/-- The rank before, around the ring. -/
def predecessor (rank : Fin nprocs) : Fin nprocs :=
  ⟨(rank.val + (nprocs - 1)) % nprocs, Nat.mod_lt _ rank.pos⟩

theorem src_eq (rank : Fin nprocs) : src rank = predecessor rank := by
  have hlt := rank.isLt
  apply Fin.ext
  show (if rank.val = 0 then nprocs - 1 else rank.val - 1) = (rank.val + (nprocs - 1)) % nprocs
  split
  · rename_i hzero
    rw [hzero, Nat.zero_add, Nat.mod_eq_of_lt (by omega)]
  · rename_i hpos
    have hsum : rank.val + (nprocs - 1) = rank.val - 1 + nprocs := by omega
    rw [hsum, Nat.add_mod_right, Nat.mod_eq_of_lt (by omega)]

theorem accepts_iff (rank sender : Fin nprocs) :
    Accepts (receive rank) sender (message sender) ↔ sender = src rank := by
  simp only [Accepts, receive, message, rtag, stag, Option.mem_some_iff]
  grind

/-! ## One rank -/

variable {s : SendCall} {r : RecvCall} {rank : Fin nprocs}

theorem run_posts (s : SendCall) (r : RecvCall) (rank : Fin nprocs) :
    (Local.run (posts s r rank)).outbox = [message rank] ∧
      (Local.run (posts s r rank)).inbox = [receive rank] := by
  cases s <;> cases r <;> exact ⟨rfl, rfl⟩

theorem run_program (s : SendCall) (r : RecvCall) (rank : Fin nprocs) :
    (Local.run (program s r rank)).outbox = [message rank] ∧
      (Local.run (program s r rank)).inbox = [receive rank] := by
  cases s <;> cases r <;> exact ⟨rfl, rfl⟩

/-- The calls that can block are behind those that post. -/
theorem posts_post {op : Op (Fin nprocs) (Fin nprocs)} (h : op ∈ posts s r rank) :
    (∀ req, op ≠ .wait req) ∧ op ≠ .finalize := by
  cases s <;> cases r <;> simp [posts, SendCall.calls, RecvCall.calls, nonblocking, persistent] at h <;>
    grind

theorem completion_eq (s : SendCall) (r : RecvCall) (rank : Fin nprocs) :
    completion s r rank = [.wait 1, .wait 2, .free 1, .free 2, .finalize] := by
  cases s <;> cases r <;> rfl

theorem handle_posts (s : SendCall) (r : RecvCall) (rank : Fin nprocs) :
    ∃ pers, (Local.run (posts s r rank)).handle 1 = .active (.send (message rank)) 0 pers := by
  cases s <;> cases r
  · exact ⟨false, rfl⟩
  · exact ⟨false, rfl⟩
  · exact ⟨true, rfl⟩
  · exact ⟨true, rfl⟩

theorem handle_posts_wait (s : SendCall) (r : RecvCall) (rank : Fin nprocs) :
    ∃ pers, (Local.run (posts s r rank ++ [.wait 1])).handle 2 =
      .active (.recv (receive rank)) 0 pers := by
  cases s <;> cases r
  · exact ⟨false, rfl⟩
  · exact ⟨true, rfl⟩
  · exact ⟨false, rfl⟩
  · exact ⟨true, rfl⟩

/-- A wait is for the send or the receive of the rank. -/
theorem handle_wait {p ops : List (Op (Fin nprocs) (Fin nprocs))} {req : Nat}
    (h : program s r rank = p ++ .wait req :: ops) :
    (∃ pers, (Local.run p).handle req = .active (.send (message rank)) 0 pers) ∨
      ∃ pers, (Local.run p).handle req = .active (.recv (receive rank)) 0 pers := by
  have hposts : Op.wait req ∉ posts s r rank := fun hmem => (posts_post hmem).1 req rfl
  obtain ⟨b, rfl⟩ := prefix_of_head?_not_mem h (by simpa using hposts)
  rw [program, List.append_assoc, List.append_cancel_left_eq, completion_eq] at h
  rcases b with _ | ⟨x, _ | ⟨y, b⟩⟩
  · obtain ⟨hreq, _⟩ := List.cons.inj h
    obtain rfl := Op.wait.inj hreq
    rw [List.append_nil]
    exact .inl (handle_posts s r rank)
  · obtain ⟨rfl, htail⟩ := List.cons.inj h
    obtain ⟨hreq, _⟩ := List.cons.inj htail
    obtain rfl := Op.wait.inj hreq
    exact .inr (handle_posts_wait s r rank)
  · have hmem : Op.wait req ∈ b ++ .wait req :: ops := by simp
    obtain ⟨_, h⟩ := List.cons.inj h
    obtain ⟨_, h⟩ := List.cons.inj h
    rw [← List.append_eq, ← h] at hmem
    simp at hmem

/-- Behind `MPI_Finalize` there is nothing. -/
theorem finalize_last {p ops : List (Op (Fin nprocs) (Fin nprocs))}
    (h : program s r rank = p ++ .finalize :: ops) : ops = [] := by
  have hsplit : (posts s r rank ++ [.wait 1, .wait 2, .free 1, .free 2]) ++ [.finalize] =
      p ++ .finalize :: ops := by
    rw [← h, program, completion_eq]
    simp
  have hlast : Op.finalize ∉ posts s r rank ++ [.wait 1, .wait 2, .free 1, .free 2] := by
    simpa using fun hmem => (posts_post hmem).2 rfl
  obtain ⟨b, rfl⟩ := prefix_of_head?_not_mem hsplit (by simpa using hlast)
  have hlen := congrArg List.length hsplit
  simp only [List.length_append, List.length_cons, List.length_nil] at hlen
  exact List.length_eq_zero_iff.mp (by omega)

/-! ## The ranks together -/

variable {lib : Library (Fin nprocs)} {st : State (Fin nprocs) (Fin nprocs)}

theorem outbox_eq_some (h : Reachable lib (program s r) st) {k : Nat}
    {msg : Message (Fin nprocs) (Fin nprocs)} (hk : (st.loc rank).outbox[k]? = some msg) :
    k = 0 ∧ msg = message rank := by
  have hgrow := (reachable_posted h rank).1
  rw [(run_program s r rank).1] at hgrow
  simpa [List.getElem?_singleton, eq_comm] using getElem?_of_prefix hgrow hk

theorem inbox_eq_some (h : Reachable lib (program s r) st) {k : Nat}
    {rcv : Receive (Fin nprocs)} (hk : (st.loc rank).inbox[k]? = some rcv) :
    k = 0 ∧ rcv = receive rank := by
  have hgrow := (reachable_posted h rank).2
  rw [(run_program s r rank).2] at hgrow
  simpa [List.getElem?_singleton, eq_comm] using getElem?_of_prefix hgrow hk

/-- **A message can only go to the next rank**, the first to the first receive. -/
theorem matched_eq (h : Reachable lib (program s r) st) {m i : Ident (Fin nprocs)}
    (hmatch : (m, i) ∈ st.matched) : ∃ rank, m = (src rank, 0) ∧ i = (rank, 0) := by
  obtain ⟨msg, rcv, hmsg, hrcv, _, haccepts⟩ := (reachable_matching h).fits _ hmatch
  obtain ⟨hm, rfl⟩ := outbox_eq_some h hmsg
  obtain ⟨hi, rfl⟩ := inbox_eq_some h hrcv
  exact ⟨i.1, Prod.ext ((accepts_iff i.1 m.1).mp haccepts) hm, Prod.ext rfl hi⟩

/-- A rank before a wait or the end has posted its send and its receive. -/
theorem posted (h : Reachable lib (program s r) st)
    (hhead : ∀ op ∈ (st.rest rank).head?, (∃ req, op = .wait req) ∨ op = .finalize) :
    (st.loc rank).outbox = [message rank] ∧ (st.loc rank).inbox = [receive rank] := by
  obtain ⟨p, hp, hloc⟩ := reachable_local h rank
  have hposts : posts s r rank <+: p := by
    refine prefix_of_head?_not_mem hp fun op hop hmem => ?_
    rcases hhead op hop with ⟨req, rfl⟩ | rfl
    · exact (posts_post hmem).1 req rfl
    · exact (posts_post hmem).2 rfl
  have hlower := Local.run_grows hposts
  have hupper := reachable_posted h rank
  rw [(run_posts s r rank).1, (run_posts s r rank).2, ← hloc] at hlower
  rw [(run_program s r rank).1, (run_program s r rank).2] at hupper
  exact ⟨hupper.1.eq_of_length_le hlower.1.length_le, hupper.2.eq_of_length_le hlower.2.length_le⟩

theorem head_of_stuck (hstuck : ∀ st', ¬ Step lib st st') {op : Op (Fin nprocs) (Fin nprocs)}
    (hop : op ∈ (st.rest rank).head?) : (∃ req, op = .wait req) ∨ op = .finalize := by
  obtain ⟨ops, hrest⟩ := List.head?_eq_some_iff.mp hop
  rcases stuck_cases hstuck hrest with ⟨req, hreq, _⟩ | ⟨hfin, _⟩
  · exact .inl ⟨req, hreq⟩
  · exact .inr hfin

/-- Without a step left, everything is matched. -/
theorem matched_of_stuck (h : Reachable lib (program s r) st) (hstuck : ∀ st', ¬ Step lib st st')
    (rank : Fin nprocs) : ((src rank, 0), (rank, 0)) ∈ st.matched := by
  have hposted : ∀ i, (st.loc i).outbox = [message i] ∧ (st.loc i).inbox = [receive i] :=
    fun i => posted h fun op hop => head_of_stuck hstuck hop
  by_contra hnot
  -- both ends are posted, and neither is matched with anything else
  have hmsg : (st.loc (src rank)).outbox[0]? = some (message (src rank)) := by
    rw [(hposted (src rank)).1]
    rfl
  have hrcv : (st.loc rank).inbox[0]? = some (receive rank) := by
    rw [(hposted rank).2]
    rfl
  have hsent : (src rank, 0) ∉ st.sent := by
    intro hmem
    obtain ⟨⟨m, i⟩, hmatch, rfl⟩ := List.mem_map.mp hmem
    obtain ⟨rank', hm, rfl⟩ := matched_eq h hmatch
    have hsrc : src rank = src rank' := congrArg Prod.fst hm
    have hrank : rank = rank' := by rw [← dest_src rank, hsrc, dest_src]
    subst hrank
    exact hnot (hm ▸ hmatch)
  have hreceived : (rank, 0) ∉ st.received := by
    intro hmem
    obtain ⟨⟨m, i⟩, hmatch, rfl⟩ := List.mem_map.mp hmem
    obtain ⟨rank', rfl, hi⟩ := matched_eq h hmatch
    obtain rfl := congrArg Prod.fst hi
    exact hnot hmatch
  refine hstuck _ (step_deliver (m := (src rank, 0)) (r := (rank, 0)) hmsg hrcv ⟨dest_src rank,
    (accepts_iff rank (src rank)).mpr rfl, ⟨hsent, hreceived⟩, ?_, ?_⟩)
  · exact fun k hk => absurd hk (Nat.not_lt_zero k)
  · exact fun k hk => absurd hk (Nat.not_lt_zero k)

/-- Then every wait returns. -/
theorem complete_of_stuck (h : Reachable lib (program s r) st) (hstuck : ∀ st', ¬ Step lib st st')
    {req : Nat} {ops : List (Op (Fin nprocs) (Fin nprocs))} (hrest : st.rest rank = .wait req :: ops) :
    Complete lib st rank ((st.loc rank).handle req) := by
  obtain ⟨p, hp, hloc⟩ := reachable_local h rank
  rw [hrest] at hp
  rw [hloc]
  rcases handle_wait hp with ⟨pers, hhandle⟩ | ⟨pers, hhandle⟩
  · have hmatch := matched_of_stuck h hstuck (dest rank)
    rw [src_dest] at hmatch
    rw [hhandle]
    exact .inr (List.mem_map_of_mem hmatch)
  · rw [hhandle]
    exact List.mem_map_of_mem (matched_of_stuck h hstuck rank)

theorem rest_of_stuck (h : Reachable lib (program s r) st) (hstuck : ∀ st', ¬ Step lib st st')
    (rank : Fin nprocs) : st.rest rank = [] ∨ st.rest rank = [.finalize] := by
  cases hrest : st.rest rank with
  | nil => exact .inl rfl
  | cons op ops =>
    right
    rcases stuck_cases hstuck hrest with ⟨req, rfl, hwait⟩ | ⟨rfl, _⟩
    · exact absurd (complete_of_stuck h hstuck hrest) hwait
    · obtain ⟨p, hp, _⟩ := reachable_local h rank
      rw [hrest] at hp
      rw [finalize_last hp]

/-- **Without a step left, all ranks are finished.** -/
theorem finished_of_stuck (h : Reachable lib (program s r) st) (hstuck : ∀ st', ¬ Step lib st st')
    (rank : Fin nprocs) : st.rest rank = [] := by
  rcases rest_of_stuck h hstuck rank with hrest | hrest
  · exact hrest
  · rcases stuck_cases hstuck hrest with ⟨req, hreq, _⟩ | ⟨_, _, other, hnil, hfin⟩
    · cases hreq
    · exact absurd (rest_of_stuck h hstuck other) (not_or.mpr ⟨hnil, hfin⟩)

/-- Behind the second wait the receive is matched. -/
theorem matched_of_finished (h : Reachable lib (program s r) st) (hrest : st.rest rank = []) :
    ((src rank, 0), (rank, 0)) ∈ st.matched := by
  have hsplit : program s r rank = posts s r rank ++ [.wait 1] ++
      .wait 2 :: [.free 1, .free 2, .finalize] ++ st.rest rank := by
    rw [hrest, program, completion_eq]
    simp
  have hcomplete := reachable_waited h hsplit
  obtain ⟨pers, hhandle⟩ := handle_posts_wait s r rank
  rw [hhandle] at hcomplete
  obtain ⟨⟨m, i⟩, hmatch, hi⟩ := List.mem_map.mp hcomplete
  obtain ⟨rank', rfl, rfl⟩ := matched_eq h hmatch
  obtain rfl := congrArg Prod.fst hi
  exact hmatch

theorem matched_perm (h : Reachable lib (program s r) st) (hfinished : ∀ rank, st.rest rank = []) :
    st.matched.Perm ((List.finRange nprocs).map fun rank => ((predecessor rank, 0), (rank, 0))) := by
  have hinj : Function.Injective fun rank : Fin nprocs => ((predecessor rank, 0), (rank, 0)) :=
    fun a b hab => congrArg (fun e => e.2.1) hab
  refine (List.perm_ext_iff_of_nodup (List.Nodup.of_map _ (reachable_matching h).receivedOnce)
    ((List.nodup_finRange nprocs).map hinj)).mpr fun e => ?_
  simp only [List.mem_map, List.mem_finRange, true_and]
  constructor
  · intro he
    obtain ⟨rank, hm, hi⟩ := matched_eq h he
    exact ⟨rank, by rw [← src_eq]; exact (Prod.ext hm hi).symm⟩
  · rintro ⟨rank, rfl⟩
    rw [← src_eq]
    exact matched_of_finished h (hfinished rank)

/-- **The ring programs labelled OK do not deadlock**, whatever is buffered and
however the ranks are scheduled; when all ranks are finished, each has received
the message of the rank before, and every message has been received once. -/
theorem ring_deadlock_free (nprocs : Nat) (s : SendCall) (r : RecvCall) (lib : Library (Fin nprocs))
    (st : State (Fin nprocs) (Fin nprocs)) (h : Reachable lib (program s r) st) :
    ((∃ rank, st.rest rank ≠ []) → ∃ st', Step lib st st') ∧
      ((∀ rank, st.rest rank = []) →
        (∀ rank, (st.loc rank).outbox = [message rank] ∧ (st.loc rank).inbox = [receive rank]) ∧
          st.matched.Perm
            ((List.finRange nprocs).map fun rank => ((predecessor rank, 0), (rank, 0)))) := by
  constructor
  · rintro ⟨rank, hrest⟩
    by_contra hstuck
    exact hrest (finished_of_stuck h (not_exists.mp hstuck) rank)
  · intro hfinished
    refine ⟨fun rank => posted h fun op hop => ?_, matched_perm h hfinished⟩
    rw [hfinished rank] at hop
    cases hop

/-- Two ranks, unbuffered. -/
theorem ring_deadlock_free_pair :
    ∃ st : State (Fin 2) (Fin 2), (∀ rank : Fin 2, st.rest rank = []) ∧
      (∀ rank : Fin 2, (st.loc rank).outbox = [message rank] ∧
        (st.loc rank).inbox = [receive rank]) ∧
      st.matched.Perm [((1, 0), (0, 0)), ((0, 0), (1, 0))] := by
  have hrun : ∃ st ∈ runEvents ⟨fun _ => false, true⟩
      (initial fun rank : Fin 2 => program .isend .recvInit rank)
      [.act 0, .act 0, .act 1, .act 1, .act 0, .act 1, .deliver (0, 0) (1, 0), .act 0,
        .deliver (1, 0) (0, 0), .act 0, .act 0, .act 0, .act 1, .act 1, .act 1, .act 1, .act 0,
        .act 1], ∀ rank, st.rest rank = [] := by decide
  obtain ⟨st, hst, hfinished⟩ := hrun
  have hreach := reachable_run Relation.ReflTransGen.refl hst
  exact ⟨st, hfinished, (ring_deadlock_free 2 _ _ _ st hreach).2 hfinished⟩

end MpiBugs.Ring
