import Mathlib.Algebra.Group.Nat.Defs
import Mathlib.Data.Nat.Basic
import Mathlib.Tactic.Common
import MpiBugs.Regex

/-!
# The buffers of the calls

The declarations and the calls in the tables of `generator_utils.py`, for the
point-to-point primitives and the collectives with fixed counts: which variables
a call is given, how many elements of each it accesses in the sense of MPI, and
how many there are. Up to 2^29 processes the sizes are those that C computes
(`dbs_fits`).

* `inBounds_iff`: a call stays inside its buffers iff they `Fit`.
-/

namespace MpiBugs.Buffers

/-- The primitives of the tables whose counts are fixed. -/
inductive Primitive
  | MPI_Bcast | MPI_Barrier | MPI_Reduce | MPI_Gather | MPI_Scatter | MPI_Allreduce
  | MPI_Scan | MPI_Exscan | MPI_Allgather | MPI_Alltoall
  | MPI_Ibarrier | MPI_Ireduce | MPI_Iallreduce | MPI_Ibcast | MPI_Igather | MPI_Iscatter
  | MPI_Iscan | MPI_Iexscan | MPI_Iallgather | MPI_Ialltoall
  | MPI_Send | MPI_Ssend | MPI_Bsend | MPI_Recv | MPI_Probe
  | MPI_Isend | MPI_Irecv | MPI_Send_init | MPI_Recv_init
  deriving DecidableEq, Repr

/-- The variables, without their number. -/
inductive Buffer
  | buf | val | sum | outbuf | inbuf | sbuf | rbuf
  deriving DecidableEq, Repr

/-- How a variable is declared. -/
inductive Declared
  /-- `int v` -/
  | int
  /-- `int v[buff_size]` -/
  | array
  /-- `int *v = (int*)malloc(dbs)` -/
  | malloc
  deriving DecidableEq, Repr

inductive Count
  | one | buff_size
  deriving DecidableEq, Repr

/-- What the calls do with their buffers. The second count of a gather and the
first one of a scatter are those for each process. -/
inductive Call
  | send (buffer : Buffer) (count : Count)
  | recv (buffer : Buffer) (count : Count)
  | bcast (buffer : Buffer) (count : Count)
  | reduce (sendbuf recvbuf : Buffer) (count : Count)
  | allreduce (sendbuf recvbuf : Buffer) (count : Count)
  | scan (sendbuf recvbuf : Buffer) (count : Count)
  | exscan (sendbuf recvbuf : Buffer) (count : Count)
  | gather (sendbuf : Buffer) (sendcount : Count) (recvbuf : Buffer) (recvcount : Count)
  | scatter (sendbuf : Buffer) (sendcount : Count) (recvbuf : Buffer) (recvcount : Count)
  | allgather (sendbuf : Buffer) (sendcount : Count) (recvbuf : Buffer) (recvcount : Count)
  | alltoall (sendbuf : Buffer) (sendcount : Count) (recvbuf : Buffer) (recvcount : Count)
  /-- no buffer -/
  | synchronize
  deriving DecidableEq, Repr

namespace Primitive

/-- The buffers that `init[p](n)` declares. -/
def init : Primitive → List (Buffer × Declared)
  | MPI_Bcast => [(.buf, .array)]
  | MPI_Barrier => []
  | MPI_Reduce => [(.sum, .int), (.val, .int)]
  | MPI_Gather => [(.val, .int), (.buf, .array)]
  | MPI_Scatter => [(.val, .int), (.buf, .array)]
  | MPI_Allreduce => [(.sum, .int), (.val, .int)]
  | MPI_Scan => [(.outbuf, .array), (.inbuf, .array)]
  | MPI_Exscan => [(.outbuf, .array), (.inbuf, .array)]
  | MPI_Allgather => [(.val, .int), (.rbuf, .malloc)]
  | MPI_Alltoall => [(.sbuf, .malloc), (.rbuf, .malloc)]
  | MPI_Ibarrier => []
  | MPI_Ireduce => [(.sum, .int), (.val, .int)]
  | MPI_Iallreduce => [(.sum, .int), (.val, .int)]
  | MPI_Ibcast => [(.buf, .array)]
  | MPI_Igather => [(.val, .int), (.buf, .array)]
  | MPI_Iscatter => [(.val, .int), (.buf, .array)]
  | MPI_Iscan => [(.outbuf, .array), (.inbuf, .array)]
  | MPI_Iexscan => [(.outbuf, .array), (.inbuf, .array)]
  | MPI_Iallgather => [(.val, .int), (.rbuf, .malloc)]
  | MPI_Ialltoall => [(.sbuf, .malloc), (.rbuf, .malloc)]
  | MPI_Send => [(.buf, .int)]
  | MPI_Ssend => [(.buf, .int)]
  | MPI_Bsend => [(.buf, .int)]
  | MPI_Recv => [(.buf, .int)]
  | MPI_Probe => []
  | MPI_Isend => [(.buf, .int)]
  | MPI_Irecv => [(.buf, .int)]
  | MPI_Send_init => [(.buf, .int)]
  | MPI_Recv_init => [(.buf, .int)]

/-- The call of `operation[p](n)`. -/
def operation : Primitive → Call
  | MPI_Bcast => .bcast .buf .buff_size
  | MPI_Barrier => .synchronize
  | MPI_Reduce => .reduce .val .sum .one
  | MPI_Gather => .gather .val .one .buf .one
  | MPI_Scatter => .scatter .buf .one .val .one
  | MPI_Allreduce => .allreduce .val .sum .one
  | MPI_Scan => .scan .outbuf .inbuf .buff_size
  | MPI_Exscan => .exscan .outbuf .inbuf .buff_size
  | MPI_Allgather => .allgather .val .one .rbuf .one
  | MPI_Alltoall => .alltoall .sbuf .one .rbuf .one
  | MPI_Ibarrier => .synchronize
  | MPI_Ireduce => .reduce .val .sum .one
  | MPI_Iallreduce => .allreduce .val .sum .one
  | MPI_Ibcast => .bcast .buf .buff_size
  | MPI_Igather => .gather .val .one .buf .one
  | MPI_Iscatter => .scatter .buf .one .val .one
  | MPI_Iscan => .scan .outbuf .inbuf .buff_size
  | MPI_Iexscan => .exscan .outbuf .inbuf .buff_size
  | MPI_Iallgather => .allgather .val .one .rbuf .one
  | MPI_Ialltoall => .alltoall .sbuf .one .rbuf .one
  | MPI_Send => .send .buf .buff_size
  | MPI_Ssend => .send .buf .buff_size
  | MPI_Bsend => .send .buf .buff_size
  | MPI_Recv => .recv .buf .buff_size
  | MPI_Probe => .synchronize
  | MPI_Isend => .send .buf .buff_size
  | MPI_Irecv => .recv .buf .buff_size
  | MPI_Send_init => .send .buf .buff_size
  | MPI_Recv_init => .recv .buf .buff_size

end Primitive

/-- Where a call is made: the communicator, the caller, the root, and the value
of `buff_size`. -/
structure Setting where
  nprocs : Nat
  rank : Nat
  root : Nat
  buffSize : Nat

section Setting

variable (e : Setting)

def Count.value : Count → Nat
  | one => 1
  | buff_size => e.buffSize

/-- The size in bytes of an `int`; all the buffers are of this type. -/
def sizeofInt : Nat := 4

/-- `sizeof(int)*nprocs` -/
def Setting.dbs : Nat := sizeofInt * e.nprocs

/-- The bytes of a variable. -/
def Declared.bytes : Declared → Nat
  | int => sizeofInt
  | array => e.buffSize * sizeofInt
  | malloc => e.dbs

/-- The buffers that a call reads or writes, and how many elements of each. -/
def Call.accesses : Call → List (Buffer × Nat)
  | send buffer count | recv buffer count | bcast buffer count => [(buffer, count.value e)]
  | reduce sendbuf recvbuf count =>
    (sendbuf, count.value e) :: if e.rank = e.root then [(recvbuf, count.value e)] else []
  | allreduce sendbuf recvbuf count | scan sendbuf recvbuf count =>
    [(sendbuf, count.value e), (recvbuf, count.value e)]
  | exscan sendbuf recvbuf count =>
    -- the first process receives nothing
    (sendbuf, count.value e) :: if e.rank = 0 then [] else [(recvbuf, count.value e)]
  | gather sendbuf sendcount recvbuf recvcount =>
    (sendbuf, sendcount.value e) ::
      if e.rank = e.root then [(recvbuf, e.nprocs * recvcount.value e)] else []
  | scatter sendbuf sendcount recvbuf recvcount =>
    (recvbuf, recvcount.value e) ::
      if e.rank = e.root then [(sendbuf, e.nprocs * sendcount.value e)] else []
  | allgather sendbuf sendcount recvbuf recvcount =>
    [(sendbuf, sendcount.value e), (recvbuf, e.nprocs * recvcount.value e)]
  | alltoall sendbuf sendcount recvbuf recvcount =>
    [(sendbuf, e.nprocs * sendcount.value e), (recvbuf, e.nprocs * recvcount.value e)]
  | synchronize => []

/-- All elements that the call accesses lie inside the variable declared. -/
def InBounds (p : Primitive) : Prop :=
  ∀ a ∈ p.operation.accesses e, ∃ d, (a.1, d) ∈ p.init ∧ a.2 * sizeofInt ≤ d.bytes e

/-- What the buffers have room for: one element in a message, and `buff_size`
processes at the root of a gather or a scatter. -/
def Fits : Primitive → Prop
  | .MPI_Send | .MPI_Ssend | .MPI_Bsend | .MPI_Recv
  | .MPI_Isend | .MPI_Irecv | .MPI_Send_init | .MPI_Recv_init => e.buffSize ≤ 1
  | .MPI_Gather | .MPI_Scatter | .MPI_Igather | .MPI_Iscatter =>
    e.rank = e.root → e.nprocs ≤ e.buffSize
  | _ => True

end Setting

/-! ## Room for the elements -/

section Setting

variable {e : Setting}

/-- Up to 2^29 processes the size is the one that C computes. -/
theorem dbs_fits (h : e.nprocs < 2 ^ 29) : e.dbs < 2 ^ 31 := by
  simp only [Setting.dbs, sizeofInt]
  omega

theorem bytes_int_iff (k : Nat) : k * sizeofInt ≤ Declared.int.bytes e ↔ k ≤ 1 := by
  simp only [Declared.bytes, sizeofInt]
  omega

theorem sizeofInt_le_bytes : sizeofInt ≤ Declared.int.bytes e := le_refl _

theorem bytes_array_iff (k : Nat) : k * sizeofInt ≤ Declared.array.bytes e ↔ k ≤ e.buffSize := by
  simp only [Declared.bytes, sizeofInt]
  omega

theorem bytes_malloc_iff (k : Nat) : k * sizeofInt ≤ Declared.malloc.bytes e ↔ k ≤ e.nprocs := by
  simp only [Declared.bytes, Setting.dbs, sizeofInt]
  omega

/-- An access that depends on the role of the process. -/
theorem forall_mem_cons_ite {α : Type} {P : α → Prop} {c : Prop} [Decidable c] (x y : α) :
    (∀ a ∈ x :: (if c then [y] else []), P a) ↔ P x ∧ (c → P y) := by
  by_cases h : c <;> simp [h]

theorem forall_mem_cons_ite_not {α : Type} {P : α → Prop} {c : Prop} [Decidable c] (x y : α) :
    (∀ a ∈ x :: (if c then [] else [y]), P a) ↔ P x ∧ (¬ c → P y) := by
  by_cases h : c <;> simp [h]

/-- **A call stays inside its buffers iff they fit.** -/
theorem inBounds_iff (p : Primitive) (e : Setting) : InBounds e p ↔ Fits e p := by
  unfold InBounds
  cases p <;>
    simp only [Fits, Primitive.operation, Primitive.init, Call.accesses, Count.value,
      forall_mem_cons_ite, forall_mem_cons_ite_not] <;>
    simp [bytes_int_iff, sizeofInt_le_bytes, bytes_array_iff, bytes_malloc_iff]

end Setting

/-- With `buff_size` 128, as in `P2PMatchingGenerator.py`, a send reads 128 elements
of one. -/
theorem send_overruns :
    ¬ ∀ (p : Primitive) (e : Setting), 1 ≤ e.nprocs → e.rank < e.nprocs → e.root < e.nprocs →
      1 ≤ e.buffSize → InBounds e p := by
  intro hall
  obtain ⟨d, hd, hbytes⟩ := hall .MPI_Send ⟨2, 0, 0, 128⟩ (by decide) (by decide) (by decide)
    (by decide) (.buf, 128) (by decide)
  obtain ⟨_, rfl⟩ := Prod.mk.inj (List.mem_singleton.mp hd)
  exact absurd hbytes (by decide)

end MpiBugs.Buffers
