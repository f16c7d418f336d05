import MpiBugs.Catalogue
import MpiBugs.Epochs
import Mathlib.Data.Fintype.Basic

/-!
# Buffers in use

The programs of `P2PLocalConcurrencyGenerator.py` and `CollLocalConcurrencyGenerator.py`, which
write to a buffer between a call and its completion. A call that does not block accesses its
buffers at any time until it is waited for.

* `p2p_races`: a program is written iff it races, and its description names the buffers;
* `coll_races`: all programs with a collective race, some of them on the root only.
-/

namespace MpiBugs.LocalBuffers

open Interleaving Epochs Catalogue

/-- The variables of a rank, and what the network holds of them. -/
inductive Variable
  | buf (n : Nat)
  | val | sum | outbuf | inbuf | sbuf | rbuf | rank
  | network
  deriving DecidableEq, Repr

abbrev Loc (nprocs : Nat) := Fin nprocs × Variable

abbrev Act (nprocs : Nat) := Action (Loc nprocs) Int

/-! ## One rank -/

section

variable {nprocs : Nat}

/-- Only variables of the rank are accessed. -/
def Own (rank : Fin nprocs) (as : List (Act nprocs)) : Prop :=
  ∀ a ∈ accesses as, a.dst.1 = rank ∧ ∀ x ∈ a.srcs, x.1 = rank

theorem apart_of_own {i j : Fin nprocs} (hij : i ≠ j) {as bs : List (Act nprocs)} (ha : Own i as)
    (hb : Own j bs) : Apart as bs := by
  refine apart_of_accesses fun a hmem b hmem' => ?_
  obtain ⟨hdst, hsrcs⟩ := ha a hmem
  obtain ⟨hdst', hsrcs'⟩ := hb b hmem'
  rintro (h | h | h)
  · exact hij (hdst.symm.trans ((congrArg Prod.fst h).trans hdst'))
  · exact hij (hdst.symm.trans (hsrcs' _ h))
  · exact hij ((hsrcs _ h).symm.trans hdst')

variable {program : Fin nprocs → List (Act nprocs)} {mem : Loc nprocs → Int}

theorem not_racesOn_start {rank : Fin nprocs} (h : Tidy (program rank)) :
    ¬ RacesOn (start program mem) rank :=
  not_racesOn (alone_of_idle h rfl)

/-- **Without shared variables** a race is one of a rank with itself. -/
theorem not_racy_start (hown : ∀ rank, Own rank (program rank)) (h : ∀ rank, Tidy (program rank)) :
    ¬ Racy (start program mem) := fun ⟨_, _, hrun, hrace⟩ =>
  raceFree_of_safe (safe_start h (fun i j hij => apart_of_own hij (hown i) (hown j)) mem) hrun hrace

theorem racesOn_start {rank : Fin nprocs} {a b : Access (Loc nprocs) Int} {as : List (Act nprocs)}
    (h : program rank = .later a :: .now b :: as) (hconflict : Conflict a b) :
    RacesOn (start program mem) rank :=
  racesOn_of_own h (.inl rfl) rfl hconflict

end

/-! ## Point to point -/

section Messages

variable {n : Nat}

/-- A send reads its buffer. -/
def send (rank : Fin (n + 2)) : Access (Loc (n + 2)) Int := move (rank, .network) (rank, .buf 1) id

/-- A receive writes what arrives. -/
def recv (arrived : Int) (rank : Fin (n + 2)) : Access (Loc (n + 2)) Int :=
  assign (rank, .buf 2) arrived

/-- `operation[s]("1")` and `operation[r]("2")`: a call that blocks returns when its buffer may be
used again, and one that is persistent starts nothing. -/
def operation (arrived : Int) (rank : Fin (n + 2)) : Primitive → List (Act (n + 2))
  | .MPI_Send => [.later (send rank), .flush]
  | .MPI_Isend => [.later (send rank)]
  | .MPI_Recv => [.later (recv arrived rank), .flush]
  | .MPI_Irecv => [.later (recv arrived rank)]
  | _ => []

/-- `start[s]("1")` and `start[r]("2")` -/
def startCall (arrived : Int) (rank : Fin (n + 2)) : Primitive → List (Act (n + 2))
  | .MPI_Send_init => [.later (send rank)]
  | .MPI_Recv_init => [.later (recv arrived rank)]
  | _ => []

/-- `write[s]("1")` and `write[r]("2")` -/
def write (rank : Fin (n + 2)) : Primitive → List (Act (n + 2))
  | .MPI_Isend | .MPI_Send_init => [.now (assign (rank, .buf 1) 4)]
  | .MPI_Irecv | .MPI_Recv_init => [.now (move (rank, .buf 2) (rank, .buf 2) (· + 1))]
  | _ => []

/-- `fini[s]("1")` and `fini[r]("2")` -/
def fini : Primitive → List (Act (n + 2))
  | .MPI_Isend | .MPI_Send_init | .MPI_Irecv | .MPI_Recv_init => [.flush]
  | _ => []

def side (arrived : Int) (rank : Fin (n + 2)) (c : Primitive) : List (Act (n + 2)) :=
  operation arrived rank c ++ startCall arrived rank c ++ write rank c ++ fini c

/-- The program of the template, with at least two ranks. -/
def p2p (s r : Primitive) (arrived : Int) (rank : Fin (n + 2)) : List (Act (n + 2)) :=
  if rank = 0 then side arrived rank s else if rank = 1 then side arrived rank r else []

/-- The calls whose buffers the descriptions name. -/
def named (s r : Primitive) : List Primitive :=
  (if s ∈ primitives.send ∧ r ∈ primitives.irecv ++ primitives.precv then [r] else []) ++
  (if s ∈ primitives.isend ++ primitives.psend ∧ r ∈ primitives.recv then [s] else []) ++
  if s ∈ primitives.isend ++ primitives.psend ∧ r ∈ primitives.irecv ++ primitives.precv then
    [s, r] else []

/-- The calls of the loops. -/
def calls : List Primitive :=
  primitives.send ++ primitives.isend ++ primitives.psend ++
    (primitives.irecv ++ primitives.precv ++ primitives.recv)

/-- The calls that do not block. -/
def Pending (c : Primitive) : Prop := c ∉ primitives.send ++ primitives.recv

instance : DecidablePred Pending := fun _ => inferInstanceAs (Decidable (¬ _))

theorem calls_cases {c : Primitive} (hc : c ∈ calls) : c = .MPI_Send ∨ c = .MPI_Isend ∨
    c = .MPI_Send_init ∨ c = .MPI_Irecv ∨ c = .MPI_Recv_init ∨ c = .MPI_Recv := by
  simpa [calls, primitives] using hc

theorem own_side (arrived : Int) (rank : Fin (n + 2)) {c : Primitive} (hc : c ∈ calls) :
    Own rank (side arrived rank c) := by
  rcases calls_cases hc with rfl | rfl | rfl | rfl | rfl | rfl <;>
    simp [Own, side, operation, startCall, write, fini, send, recv, move, assign, accesses]

theorem tidy_side (arrived : Int) (rank : Fin (n + 2)) {c : Primitive} (hc : c ∈ calls)
    (h : ¬ Pending c) : Tidy (side arrived rank c) := by
  rcases calls_cases hc with rfl | rfl | rfl | rfl | rfl | rfl
  case inl | inr.inr.inr.inr.inr =>
    simp [side, operation, startCall, write, fini, Tidy, exposed]
  all_goals exact absurd (by decide) h

theorem side_eq (arrived : Int) (rank : Fin (n + 2)) {c : Primitive} (hc : c ∈ calls)
    (h : Pending c) : ∃ a b, side arrived rank c = [.later a, .now b, .flush] ∧ Conflict a b := by
  rcases calls_cases hc with rfl | rfl | rfl | rfl | rfl | rfl
  · exact absurd h (by decide)
  · exact ⟨_, _, rfl, by simp [Conflict, send, move, assign]⟩
  · exact ⟨_, _, rfl, by simp [Conflict, send, move, assign]⟩
  · exact ⟨_, _, rfl, by simp [Conflict, recv, move, assign]⟩
  · exact ⟨_, _, rfl, by simp [Conflict, recv, move, assign]⟩
  · exact absurd h (by decide)

variable {s r : Primitive} {arrived : Int} {mem : Loc (n + 2) → Int}

/-- **A rank races on its buffer** iff its call does not block. -/
theorem racesOn_p2p_iff {rank : Fin (n + 2)} {c : Primitive} (hc : c ∈ calls)
    (h : p2p s r arrived rank = side arrived rank c) :
    RacesOn (start (p2p s r arrived) mem) rank ↔ Pending c := by
  constructor
  · intro hraces
    by_contra hblocks
    exact not_racesOn_start (h ▸ tidy_side arrived rank hc hblocks) hraces
  · intro hpending
    obtain ⟨a, b, hside, hconflict⟩ := side_eq arrived rank hc hpending
    exact racesOn_start (h.trans hside) hconflict

@[simp] theorem p2p_zero : p2p s r arrived 0 = side arrived (0 : Fin (n + 2)) s := if_pos rfl

@[simp] theorem p2p_one : p2p s r arrived 1 = side arrived (1 : Fin (n + 2)) r := by
  rw [p2p, if_neg (by simp), if_pos rfl]

theorem not_racesOn_p2p {rank : Fin (n + 2)} (h0 : rank ≠ 0) (h1 : rank ≠ 1) :
    ¬ RacesOn (start (p2p s r arrived) mem) rank := by
  refine not_racesOn_start ?_
  rw [p2p, if_neg h0, if_neg h1]
  trivial

theorem racy_p2p_iff (hs : s ∈ calls) (hr : r ∈ calls) :
    Racy (start (p2p (n := n) s r arrived) mem) ↔ Pending s ∨ Pending r := by
  constructor
  · intro hracy
    by_contra hblock
    rw [not_or] at hblock
    refine not_racy_start (fun rank => ?_) (fun rank => ?_) hracy
    · rw [p2p]
      split_ifs
      · exact own_side arrived rank hs
      · exact own_side arrived rank hr
      · exact nofun
    · rw [p2p]
      split_ifs
      · exact tidy_side arrived rank hs hblock.1
      · exact tidy_side arrived rank hr hblock.2
      · trivial
  · rintro (hpending | hpending)
    · exact racy_of_racesOn ((racesOn_p2p_iff hs p2p_zero).mpr hpending)
    · exact racy_of_racesOn ((racesOn_p2p_iff hr p2p_one).mpr hpending)

/-- **Point to point.** On any number of ranks, the generator writes a program iff it comes to a
race, and its description names the call of each rank that races with itself, and no other. -/
theorem p2p_races (hs : s ∈ primitives.send ++ primitives.isend ++ primitives.psend)
    (hr : r ∈ primitives.irecv ++ primitives.precv ++ primitives.recv) (arrived : Int)
    (mem : Loc (n + 2) → Int) :
    (Racy (start (p2p s r arrived) mem) ↔
      (⟨.P2PLocalConcurrency, [r, s, .nok]⟩ : Name) ∈ names (p2pLocalConcurrency primitives)) ∧
    (RacesOn (start (p2p s r arrived) mem) 0 ↔ s ∈ named s r) ∧
    (RacesOn (start (p2p s r arrived) mem) 1 ↔ r ∈ named s r) ∧
    ∀ rank, rank ≠ 0 → rank ≠ 1 → ¬ RacesOn (start (p2p s r arrived) mem) rank := by
  have hs' : s ∈ calls := List.mem_append_left _ hs
  have hr' : r ∈ calls := List.mem_append_right _ hr
  have htable : ∀ s ∈ primitives.send ++ primitives.isend ++ primitives.psend,
      ∀ r ∈ primitives.irecv ++ primitives.precv ++ primitives.recv,
      (Pending s ∨ Pending r ↔ (⟨.P2PLocalConcurrency, [r, s, .nok]⟩ : Name) ∈
        names (p2pLocalConcurrency primitives)) ∧
      (Pending s ↔ s ∈ named s r) ∧ (Pending r ↔ r ∈ named s r) := by decide
  obtain ⟨hwritten, hnamed, hnamed'⟩ := htable s hs r hr
  rw [racy_p2p_iff hs' hr', racesOn_p2p_iff hs' p2p_zero, racesOn_p2p_iff hr' p2p_one]
  exact ⟨hwritten, hnamed, hnamed', fun rank h0 h1 => not_racesOn_p2p h0 h1⟩

/-- A receive that does not block. -/
theorem p2p_races_irecv :
    (Racy (start (p2p .MPI_Send .MPI_Irecv 0) fun _ : Loc 3 => 4) ↔
      (⟨.P2PLocalConcurrency, [Primitive.MPI_Irecv, Primitive.MPI_Send, .nok]⟩ : Name) ∈
        names (p2pLocalConcurrency primitives)) ∧
    (RacesOn (start (p2p .MPI_Send .MPI_Irecv 0) fun _ : Loc 3 => 4) 0 ↔
      Primitive.MPI_Send ∈ named .MPI_Send .MPI_Irecv) ∧
    (RacesOn (start (p2p .MPI_Send .MPI_Irecv 0) fun _ : Loc 3 => 4) 1 ↔
      Primitive.MPI_Irecv ∈ named .MPI_Send .MPI_Irecv) ∧
    ∀ rank, rank ≠ 0 → rank ≠ 1 →
      ¬ RacesOn (start (p2p .MPI_Send .MPI_Irecv 0) fun _ : Loc 3 => 4) rank :=
  p2p_races (by decide) (by decide) 0 _

end Messages

/-! ## Collectives -/

section Collectives

variable {n : Nat}

/-- The buffer that is sent and the one that is received into, in `operation[c]("1")`. -/
def buffers : Primitive → Variable × Variable
  | .MPI_Ibcast => (.buf 1, .buf 1)
  | .MPI_Ireduce | .MPI_Iallreduce => (.val, .sum)
  | .MPI_Igather => (.val, .buf 1)
  | .MPI_Iscatter => (.buf 1, .val)
  | .MPI_Iscan | .MPI_Iexscan => (.outbuf, .inbuf)
  | .MPI_Iallgather => (.val, .rbuf)
  | .MPI_Iallgatherv => (.rank, .rbuf)
  | _ => (.sbuf, .rbuf)

/-- `int root = 0` -/
def root : Fin (n + 1) := 0

/-- Whether the rank sends. -/
def Sends (rank : Fin (n + 1)) (c : Primitive) : Prop :=
  c ∈ [Primitive.MPI_Ibcast, .MPI_Iscatter] → rank = root

/-- Whether it receives. -/
def Receives (rank : Fin (n + 1)) (c : Primitive) : Prop :=
  (c ∈ [Primitive.MPI_Ireduce, .MPI_Igather] → rank = root) ∧ (c = .MPI_Ibcast → rank ≠ root)

instance (rank : Fin (n + 1)) (c : Primitive) : Decidable (Sends rank c) :=
  inferInstanceAs (Decidable (_ → _))

instance (rank : Fin (n + 1)) (c : Primitive) : Decidable (Receives rank c) :=
  inferInstanceAs (Decidable (_ ∧ _))

/-- What the collective does with the buffers of a rank; `combine` is what it makes of the values
of all ranks. -/
def collective (combine : Fin (n + 1) → Int → Int) (rank : Fin (n + 1)) (c : Primitive) :
    Access (Loc (n + 1)) Int :=
  let dst := (rank, if Receives rank c then (buffers c).2 else .network)
  if Sends rank c then move dst (rank, (buffers c).1) (combine rank)
  else assign dst (combine rank 0)

/-- `write[c]("1")` -/
def writeColl (rank : Fin (n + 1)) : Primitive → Access (Loc (n + 1)) Int
  | .MPI_Ireduce | .MPI_Iallreduce => move (rank, .sum) (rank, .sum) (· + 1)
  | .MPI_Ibcast | .MPI_Iscatter => move (rank, .buf 1) (rank, .buf 1) (· + 1)
  | .MPI_Igather => assign (rank, .val) 3
  | .MPI_Iscan | .MPI_Iexscan => move (rank, .outbuf) (rank, .outbuf) (· + 1)
  | .MPI_Iallgather => move (rank, .val) (rank, .val) (· + 1)
  | _ => move (rank, .rbuf) (rank, .rbuf) (· + 1)

/-- The program of the template. -/
def coll (combine : Fin (n + 1) → Int → Int) (c : Primitive) (rank : Fin (n + 1)) :
    List (Act (n + 1)) :=
  [.later (collective combine rank c), .now (writeColl rank c), .flush]

/-- The buffer that is written is in use, but for two collectives on the root only. -/
theorem conflict_coll_iff (combine : Fin (n + 1) → Int → Int) (rank : Fin (n + 1)) {c : Primitive}
    (hc : c ∈ primitives.icoll ++ primitives.pcoll) :
    Conflict (collective combine rank c) (writeColl rank c) ↔
      (c ∈ [Primitive.MPI_Ireduce, .MPI_Iscatter] → rank = root) := by
  have hcases : c = .MPI_Ibcast ∨ c = .MPI_Ireduce ∨ c = .MPI_Igather ∨ c = .MPI_Iscatter ∨
      c = .MPI_Iscan ∨ c = .MPI_Iexscan ∨ c = .MPI_Iallgather ∨ c = .MPI_Iallreduce ∨
      c = .MPI_Iallgatherv ∨ c = .MPI_Ialltoall ∨ c = .MPI_Ialltoallv := by
    simpa [primitives] using hc
  by_cases hroot : rank = root <;>
    rcases hcases with rfl | rfl | rfl | rfl | rfl | rfl | rfl | rfl | rfl | rfl | rfl <;>
      simp [Conflict, collective, writeColl, Sends, Receives, buffers, move, assign, hroot]

/-- **Collectives.** On any number of ranks, all programs come to a race: every rank races with
itself, or the root only where the buffer that is written is used by the root only. -/
theorem coll_races (combine : Fin (n + 1) → Int → Int) {c : Primitive}
    (hc : c ∈ primitives.icoll ++ primitives.pcoll) (mem : Loc (n + 1) → Int) :
    Racy (start (coll combine c) mem) ∧ ∀ rank, RacesOn (start (coll combine c) mem) rank ↔
      (c ∈ [Primitive.MPI_Ireduce, .MPI_Iscatter] → rank = root) := by
  have hraces : ∀ rank, RacesOn (start (coll combine c) mem) rank ↔
      (c ∈ [Primitive.MPI_Ireduce, .MPI_Iscatter] → rank = root) := by
    intro rank
    rw [← conflict_coll_iff combine rank hc]
    constructor
    · intro hraces
      by_contra hapart
      refine not_racesOn_start ?_ hraces
      simp [coll, Tidy, exposed, hapart]
    · exact fun hconflict => racesOn_start rfl hconflict
  exact ⟨racy_of_racesOn ((hraces root).mpr fun _ => rfl), hraces⟩

/-- A reduction by three ranks. -/
theorem coll_races_reduce :
    Racy (start (coll (fun _ => id) .MPI_Ireduce) fun _ : Loc 3 => 4) ∧
      ∀ rank, RacesOn (start (coll (fun _ => id) .MPI_Ireduce) fun _ : Loc 3 => 4) rank ↔
        (Primitive.MPI_Ireduce ∈ [Primitive.MPI_Ireduce, .MPI_Iscatter] → rank = root) :=
  coll_races (fun _ => id) (by decide) _

end Collectives

end MpiBugs.LocalBuffers
