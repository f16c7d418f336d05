import MpiBugs.Epochs
import Mathlib.Data.Fintype.Basic

/-!
# One-sided communication

The programs of `RMALocalConcurrencyGenerator.py`, `RMAGlobalConcurrencyGenerator.py` and
`RMAP2PGlobalConcurrencyGenerator.py`. A put or a get takes place at any time until the
epoch is closed; a statement of the program takes place at once.

* `local_concurrency`: the programs on one buffer race iff their headers say so;
* `global_concurrency`: as do all of those on one window;
* `receive_apart`: the receive beside a put or a get does not, whatever its header says.
-/

namespace MpiBugs.RemoteMemory

open Interleaving Epochs

/-! ## The tables -/

/-- The variables of a rank. -/
inductive Variable
  | W
  | localbuf (n : Nat)
  | load
  | buf (n : Nat)
  deriving DecidableEq, Repr

/-- The keys of `epoch`. -/
inductive Epoch
  | MPI_Win_fence | MPI_Win_lock | MPI_Win_lock_all
  deriving DecidableEq, Repr

inductive Operation
  | MPI_Put | MPI_Get | store | load | loadstore
  deriving DecidableEq, Repr

section

variable {nprocs : Nat}

abbrev Loc (nprocs : Nat) := Fin nprocs × Variable

abbrev Act (nprocs : Nat) := Action (Loc nprocs) Int

/-- `epoch[e]`; the locks are shared, so that they are granted at once. -/
def Epoch.opening : Epoch → List (Act nprocs)
  | MPI_Win_fence => [.sync]
  | MPI_Win_lock | MPI_Win_lock_all => []

/-- `finEpoch[e]` -/
def Epoch.closing : Epoch → List (Act nprocs)
  | MPI_Win_fence => [.sync]
  | MPI_Win_lock | MPI_Win_lock_all => [.flush]

/-- `MPI_Win_free` is collective. -/
def winFree : List (Act nprocs) := [.sync]

/-- `operation[p](n)` -/
def Operation.action (rank target : Fin nprocs) (n : Nat) : Operation → Act nprocs
  | MPI_Put => .later (move (target, .W) (rank, .localbuf n) id)
  | MPI_Get => .later (move (rank, .localbuf n) (target, .W) id)
  | store => .now (assign (rank, .localbuf n) 8)
  | load => .now (move (rank, .load) (rank, .localbuf n) fun x => x.tmod 2)
  | loadstore => .now (move (rank, .localbuf n) (rank, .localbuf n) fun x =>
      if x.tmod 2 = 0 then x + 1 else x)

end

/-! ## One buffer -/

section Local

variable {nprocs : Nat}

/-- `(rank + 1) % nprocs` -/
def neighbour (rank : Fin nprocs) : Fin nprocs := ⟨(rank.val + 1) % nprocs, Nat.mod_lt _ rank.pos⟩

/-- A file of `RMALocalConcurrencyGenerator.py`: the operations of rank 0, and whether it is
labelled `LocalConcurrency`. -/
structure LocalFile where
  operations : List Operation
  erroneous : Bool
  deriving DecidableEq, Repr

/-- The loops of the generator, for one epoch. -/
def localFiles : List LocalFile :=
  [Operation.MPI_Get].flatMap (fun p1 =>
    [Operation.MPI_Put, .store, .load, .MPI_Get, .loadstore].flatMap (fun p2 =>
      ⟨[p1, p2], true⟩ ::
        if p2 ∈ [Operation.store, .load, .loadstore] then [⟨[p2, p1], false⟩] else []) ++
      [⟨[p1], false⟩]) ++
  [Operation.MPI_Put].flatMap fun p1 => [Operation.store].flatMap fun p2 =>
    [⟨[p1, p2], true⟩, ⟨[p2, p1], false⟩, ⟨[p1], false⟩]

def LocalFile.program (e : Epoch) (f : LocalFile) (rank : Fin nprocs) : List (Act nprocs) :=
  e.opening ++
    (if rank.val = 0 then f.operations.map (Operation.action rank (neighbour rank) 1) else []) ++
    e.closing ++ winFree

theorem syncs_operations (rank target : Fin nprocs) (n : Nat) (ops : List Operation) :
    syncs (ops.map (Operation.action rank target n)) = 0 := by
  induction ops with
  | nil => rfl
  | cons p ops ih => cases p <;> exact ih

/-- The epoch is open: nothing has been accessed. -/
theorem exists_opened [NeZero nprocs] (e : Epoch) (body : Fin nprocs → List (Act nprocs))
    (mem : Loc nprocs → Int) :
    ∃ es c, run next (start (fun rank => e.opening ++ body rank) mem) es = some c ∧
      ∀ rank, (c.proc rank).rest = body rank ∧ (c.proc rank).pending = [] := by
  cases e with
  | MPI_Win_fence =>
    refine ⟨[.sync], _, run_cons_iff.mpr ⟨_, next_sync_iff.mpr ⟨fun rank => ?_, rfl⟩, rfl⟩,
      fun rank => ⟨rfl, rfl⟩⟩
    exact Proc.atSync_iff.mpr ⟨⟨body rank, rfl⟩, rfl⟩
  | MPI_Win_lock | MPI_Win_lock_all => exact ⟨[], _, rfl, fun rank => ⟨rfl, rfl⟩⟩

theorem local_safe {e : Epoch} {f : LocalFile}
    (htidy : ∀ rank : Fin nprocs, Tidy (f.program e rank)) (mem : Loc nprocs → Int) :
    Safe (start (f.program e) mem) ∧ Balanced (start (f.program e) mem) := by
  have hsilent : ∀ rank : Fin nprocs, rank.val ≠ 0 → accesses (f.program e rank) = [] := by
    intro rank hrank
    rw [LocalFile.program, if_neg hrank]
    cases e <;> rfl
  constructor
  · refine safe_start htidy (fun i j hij => apart_of_accesses fun a ha b hb => ?_) mem
    rcases Nat.eq_zero_or_pos i.val with hi | hi
    · rw [hsilent j fun hj => hij (Fin.ext (hi.trans hj.symm))] at hb
      cases hb
    · rw [hsilent i hi.ne'] at ha
      cases ha
  · have hsyncs : ∀ rank : Fin nprocs, syncs (f.program e rank) =
        syncs (e.opening : List (Act nprocs)) + syncs (e.closing : List (Act nprocs)) +
          syncs (winFree : List (Act nprocs)) := by
      intro rank
      rw [LocalFile.program, syncs_append, syncs_append, syncs_append]
      split
      · rw [syncs_operations]
        rfl
      · rfl
    exact fun i j => (hsyncs i).trans (hsyncs j).symm

/-- Rank 0 starts a get or a put and then touches its buffer. -/
theorem local_racy [NeZero nprocs] (e : Epoch) {p1 p2 : Operation} {a b : Access (Loc nprocs) Int}
    (h1 : p1.action 0 (neighbour 0) 1 = .later a)
    (h2 : p2.action 0 (neighbour 0) 1 = .now b ∨ p2.action 0 (neighbour 0) 1 = .later b)
    (hconflict : Conflict a b) (erroneous : Bool) (mem : Loc nprocs → Int) :
    Racy (start (LocalFile.program e ⟨[p1, p2], erroneous⟩) mem) := by
  have hprogram : LocalFile.program e ⟨[p1, p2], erroneous⟩ = fun rank : Fin nprocs => e.opening ++
      ((if rank.val = 0 then [p1, p2].map (Operation.action rank (neighbour rank) 1) else []) ++
        e.closing ++ winFree) := by
    funext rank
    simp only [LocalFile.program, List.append_assoc]
  obtain ⟨es, c, hrun, hopen⟩ := exists_opened e (fun rank : Fin nprocs =>
    (if rank.val = 0 then [p1, p2].map (Operation.action rank (neighbour rank) 1) else []) ++
      e.closing ++ winFree) mem
  rw [hprogram]
  have hrest : (c.proc 0).rest =
      .later a :: p2.action 0 (neighbour 0) 1 :: (e.closing ++ winFree) := by
    rw [(hopen 0).1, if_pos (Fin.val_zero nprocs), ← h1]
    rfl
  exact racy_of_run hrun (racy_of_own hrest h2 (hopen 0).2 hconflict)

theorem erroneous_cases : ∀ f ∈ localFiles, f.erroneous = true →
    f = ⟨[.MPI_Get, .MPI_Put], true⟩ ∨ f = ⟨[.MPI_Get, .store], true⟩ ∨
    f = ⟨[.MPI_Get, .load], true⟩ ∨ f = ⟨[.MPI_Get, .MPI_Get], true⟩ ∨
    f = ⟨[.MPI_Get, .loadstore], true⟩ ∨ f = ⟨[.MPI_Put, .store], true⟩ := by
  decide

theorem correct_cases : ∀ f ∈ localFiles, f.erroneous = false →
    f = ⟨[.store, .MPI_Get], false⟩ ∨ f = ⟨[.load, .MPI_Get], false⟩ ∨
    f = ⟨[.loadstore, .MPI_Get], false⟩ ∨ f = ⟨[.MPI_Get], false⟩ ∨
    f = ⟨[.store, .MPI_Put], false⟩ ∨ f = ⟨[.MPI_Put], false⟩ := by
  decide

/-- **Local concurrency.** On any number of ranks, the programs labelled so come to a race,
and the others never do: all their runs end, with the same memory. -/
theorem local_concurrency [NeZero nprocs] (e : Epoch) {f : LocalFile} (hf : f ∈ localFiles)
    (mem : Loc nprocs → Int) :
    (Racy (start (f.program e) mem) ↔ f.erroneous = true) ∧
      (f.erroneous = false →
        ∃ m, Ends next (start (f.program e) mem) fun t => Finished t ∧ t.mem = m) := by
  have hracy : f.erroneous = true → Racy (start (f.program e) mem) := by
    intro herroneous
    rcases erroneous_cases f hf herroneous with rfl | rfl | rfl | rfl | rfl | rfl
    · exact local_racy e rfl (.inr rfl) (by simp [Conflict, move]) true mem
    · exact local_racy e rfl (.inl rfl) (by simp [Conflict, move, assign]) true mem
    · exact local_racy e rfl (.inl rfl) (by simp [Conflict, move]) true mem
    · exact local_racy e rfl (.inr rfl) (by simp [Conflict, move]) true mem
    · exact local_racy e rfl (.inl rfl) (by simp [Conflict, move]) true mem
    · exact local_racy e rfl (.inl rfl) (by simp [Conflict, move, assign]) true mem
  have hsafe : f.erroneous = false →
      Safe (start (f.program e) mem) ∧ Balanced (start (f.program e) mem) := by
    intro hcorrect
    refine local_safe (fun rank => ?_) mem
    rw [LocalFile.program]
    split
    · rcases correct_cases f hf hcorrect with rfl | rfl | rfl | rfl | rfl | rfl <;> cases e <;>
        simp [Epoch.opening, Epoch.closing, winFree, Operation.action, Tidy, exposed]
    · cases e <;> simp [Epoch.opening, Epoch.closing, winFree, Tidy]
  refine ⟨⟨fun h => ?_, hracy⟩, fun h => ends_of_safe (hsafe h).1 (hsafe h).2⟩
  by_contra hcorrect
  obtain ⟨es, t, hrun, hrace⟩ := h
  exact raceFree_of_safe (hsafe (Bool.eq_false_iff.mpr hcorrect)).1 hrun hrace

theorem local_concurrency_put :
    Racy (start (LocalFile.program .MPI_Win_fence ⟨[.MPI_Get, .MPI_Put], true⟩)
      fun _ : Loc 2 => 4) :=
  (local_concurrency .MPI_Win_fence (by decide) _).1.mpr rfl

end Local

/-! ## One window -/

section Global

variable {n : Nat}

/-- A file of `RMAGlobalConcurrencyGenerator.py`: what ranks 0 and 2 do, and whether the
target adds to its window. -/
structure GlobalFile where
  operation1 : Option Operation
  operation2 : Operation
  addStore : Bool
  deriving DecidableEq, Repr

/-- The loops of the generator, for one epoch. -/
def globalFiles : List GlobalFile :=
  [Operation.MPI_Put].flatMap fun p1 => [Operation.MPI_Get, .MPI_Put].flatMap fun p2 =>
    [⟨some p1, p2, false⟩, ⟨none, p2, true⟩]

def target : Fin (n + 3) := ⟨1, by omega⟩

/-- `W++` -/
def increment : Act (n + 3) := .now (move (target, .W) (target, .W) (· + 1))

/-- With at least three ranks. -/
def GlobalFile.program (e : Epoch) (f : GlobalFile) (rank : Fin (n + 3)) : List (Act (n + 3)) :=
  e.opening ++
    ((if rank.val = 0 then f.operation1.toList.map (Operation.action rank target 1)
      else if rank.val = 2 then [f.operation2.action rank target 2] else []) ++
    (if f.addStore = true ∧ rank = target then [increment] else []) ++ e.closing ++ winFree)

theorem global_cases : ∀ f ∈ globalFiles,
    (f.operation2 = .MPI_Get ∨ f.operation2 = .MPI_Put) ∧
      (f.operation1 = some .MPI_Put ∨ f.operation1 = none ∧ f.addStore = true) := by
  decide

/-- **Global concurrency.** All programs labelled so come to a race, of two ranks, and on
the window of the target. -/
theorem global_concurrency (e : Epoch) {f : GlobalFile} (hf : f ∈ globalFiles)
    (mem : Loc (n + 3) → Int) : Racy (start (f.program e) mem) ∧
      ∃ i j, i ≠ j ∧ RacesAt (start (f.program e) mem) i j (target, .W) := by
  obtain ⟨es, c, hrun, hopen⟩ := exists_opened e (fun rank : Fin (n + 3) =>
    (if rank.val = 0 then f.operation1.toList.map (Operation.action rank target 1)
      else if rank.val = 2 then [f.operation2.action rank target 2] else []) ++
    (if f.addStore = true ∧ rank = target then [increment] else []) ++ e.closing ++ winFree) mem
  obtain ⟨hsecond, hfirst⟩ := global_cases f hf
  let second : Fin (n + 3) := ⟨2, by omega⟩
  have hrest2 : ∃ as, (c.proc second).rest = f.operation2.action second target 2 :: as :=
    ⟨_, (hopen second).1⟩
  obtain ⟨as, hrest2⟩ := hrest2
  -- the other access is by rank 0 or by the target
  obtain ⟨i, x, a, hi, ⟨bs, hrest⟩, hx, ha⟩ : ∃ (i : Fin (n + 3)) (x : Act (n + 3))
      (a : Access (Loc (n + 3)) Int), i ≠ second ∧ (∃ bs, (c.proc i).rest = x :: bs) ∧
        (x = .now a ∨ x = .later a) ∧ a.dst = (target, .W) := by
    rcases hfirst with hput | ⟨hnone, hstore⟩
    · let first : Fin (n + 3) := ⟨0, by omega⟩
      refine ⟨first, _, move (target, .W) (first, .localbuf 1) id, by simp [first, second], ?_,
        .inr rfl, rfl⟩
      rw [(hopen first).1, hput]
      exact ⟨_, rfl⟩
    · refine ⟨target, _, move (target, .W) (target, .W) (· + 1), by simp [second, target], ?_,
        .inl rfl, rfl⟩
      have hadd : f.addStore = true ∧ (target : Fin (n + 3)) = target := ⟨hstore, rfl⟩
      rw [(hopen target).1, if_pos hadd]
      exact ⟨_, rfl⟩
  have hidle : ∀ rank, (c.proc rank).pending = [] := fun rank => (hopen rank).2
  have hraces : RacesAt (start (f.program e) mem) i second (target, .W) := by
    refine racesAt_of_run hrun ?_
    rcases hsecond with hget | hput
    · rw [hget] at hrest2
      exact racesAt_of_others hi hrest hrest2 hx (.inr rfl) hidle ha (.inr List.mem_cons_self)
    · rw [hput] at hrest2
      exact racesAt_of_others hi hrest hrest2 hx (.inr rfl) hidle ha (.inl rfl)
  exact ⟨racy_of_racesAt hi hraces, i, second, hi, hraces⟩

theorem global_concurrency_store :
    Racy (start (GlobalFile.program .MPI_Win_lock ⟨none, .MPI_Put, true⟩) fun _ : Loc 3 => 4) ∧
      ∃ i j, i ≠ j ∧ RacesAt (start (GlobalFile.program .MPI_Win_lock ⟨none, .MPI_Put, true⟩)
        fun _ : Loc 3 => 4) i j (target, .W) :=
  global_concurrency .MPI_Win_lock (by decide) _

end Global

/-! ## A receive beside the window -/

section Beside

variable {n : Nat}

/-- `send + isend` -/
inductive SendCall
  | MPI_Send | MPI_Isend
  deriving DecidableEq, Repr

/-- `operation[s](2)`: the message is read where it is received; the call that blocks waits
for it. -/
def SendCall.operation : SendCall → List (Act (n + 4))
  | MPI_Send => [.flush]
  | MPI_Isend => []

def SendCall.fini : SendCall → List (Act (n + 4))
  | MPI_Send => []
  | MPI_Isend => [.flush]

/-- `recv + irecv` -/
inductive RecvCall
  | MPI_Recv | MPI_Irecv
  deriving DecidableEq, Repr

/-- `operation[r](3)`: the message that rank 2 sends from `buf2` is put into `buf3`. -/
def RecvCall.operation (rank src : Fin (n + 4)) : RecvCall → List (Act (n + 4))
  | MPI_Recv => [.later (move (rank, .buf 3) (src, .buf 2) id), .flush]
  | MPI_Irecv => [.later (move (rank, .buf 3) (src, .buf 2) id)]

def RecvCall.fini : RecvCall → List (Act (n + 4))
  | MPI_Recv => []
  | MPI_Irecv => [.flush]

/-- `GlobalConcurrency_{p}_{s}_{r}_nok.c`, with at least four ranks. The lock of rank 0 is
the only one. -/
def beside (p : Operation) (s : SendCall) (r : RecvCall) (rank : Fin (n + 4)) :
    List (Act (n + 4)) :=
  (if rank.val = 0 then [p.action rank ⟨1, by omega⟩ 1, .flush]
  else if rank.val = 2 then s.operation ++ s.fini
  else if rank.val = 1 then r.operation rank ⟨2, by omega⟩ ++ r.fini else []) ++ winFree

/-- What the ranks access: rank 0 its buffer and the window, rank 1 what it receives. -/
theorem mem_accesses_beside {p : Operation} (hp : p = .MPI_Put ∨ p = .MPI_Get) {s : SendCall}
    {r : RecvCall} {rank : Fin (n + 4)} {a : Access (Loc (n + 4)) Int}
    (ha : a ∈ accesses (beside p s r rank)) :
    (rank.val = 0 ∧ p.action rank ⟨1, by omega⟩ 1 = .later a) ∨
      (rank.val = 1 ∧ a = move (rank, .buf 3) (⟨2, by omega⟩, .buf 2) id) := by
  rw [beside] at ha
  split at ha
  · rename_i hzero
    left
    rcases hp with rfl | rfl <;>
      exact ⟨hzero, by simpa [accesses, Operation.action, winFree, eq_comm] using ha⟩
  · split at ha
    · cases s <;> cases ha
    · split at ha
      · rename_i hone
        right
        cases r <;>
          exact ⟨hone, by simpa [accesses, RecvCall.operation, RecvCall.fini, winFree] using ha⟩
      · cases ha

/-- Neither `localbuf1` nor the window is received into, or sent. -/
theorem not_conflict_receive {p : Operation} (hp : p = .MPI_Put ∨ p = .MPI_Get)
    {rank target dst src : Fin (n + 4)} {a : Access (Loc (n + 4)) Int}
    (ha : p.action rank target 1 = .later a) :
    ¬ Conflict a (move (dst, .buf 3) (src, .buf 2) id) := by
  rcases hp with rfl | rfl <;>
  · obtain rfl := Action.later.inj ha
    simp [Conflict, move]

/-- **The receive does not touch the window**: the programs never race, although they are
labelled `GlobalConcurrency`, and all their runs end with the same memory. -/
theorem receive_apart {p : Operation} (hp : p = .MPI_Put ∨ p = .MPI_Get) (s : SendCall)
    (r : RecvCall) (mem : Loc (n + 4) → Int) :
    ¬ Racy (start (beside p s r) mem) ∧
      ∃ m, Ends next (start (beside p s r) mem) fun t => Finished t ∧ t.mem = m := by
  have htidy : ∀ rank : Fin (n + 4), Tidy (beside p s r rank) := by
    intro rank
    rw [beside]
    rcases hp with rfl | rfl <;> cases s <;> cases r <;> split_ifs <;>
      simp [winFree, Operation.action, SendCall.operation, SendCall.fini, RecvCall.operation,
        RecvCall.fini, Tidy, exposed]
  have hsyncs : ∀ rank : Fin (n + 4), syncs (beside p s r rank) = 1 := by
    intro rank
    rw [beside]
    rcases hp with rfl | rfl <;> cases s <;> cases r <;> split_ifs <;> rfl
  have hsafe : Safe (start (beside p s r) mem) := by
    refine safe_start htidy (fun i j hij => apart_of_accesses fun a ha b hb => ?_) mem
    rcases mem_accesses_beside hp ha with ⟨hi, ha⟩ | ⟨hi, ha⟩ <;>
      rcases mem_accesses_beside hp hb with ⟨hj, hb⟩ | ⟨hj, hb⟩
    · exact absurd (Fin.ext (hi.trans hj.symm)) hij
    · subst hb
      exact not_conflict_receive hp ha
    · subst ha
      exact fun hconflict => not_conflict_receive hp hb hconflict.symm
    · exact absurd (Fin.ext (hi.trans hj.symm)) hij
  refine ⟨fun ⟨es, t, hrun, hrace⟩ => raceFree_of_safe hsafe hrun hrace, ends_of_safe hsafe ?_⟩
  exact fun i j => (hsyncs i).trans (hsyncs j).symm

theorem receive_apart_put :
    ¬ Racy (start (beside .MPI_Put .MPI_Isend .MPI_Irecv) fun _ : Loc 4 => 4) :=
  (receive_apart (.inl rfl) .MPI_Isend .MPI_Irecv _).1

end Beside

end MpiBugs.RemoteMemory
