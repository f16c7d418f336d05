import MpiBugs.Communication
import Mathlib.Data.Fintype.Basic

/-!
# Programs of two processes

The point-to-point calls in the tables of `generator_utils.py`, and programs in which
each of two ranks sends at most one message, to be received from a source that is named.
What such a program does depends on few choices of the library, so that one run for each
of them can be computed.

* `ends_of_check`: what is computed holds of all runs, under every library;
* `completes_iff`: a program that may complete always does, if it never deadlocks else.
-/

namespace MpiBugs.TwoProcesses

open MessagePassing Communication Interleaving

/-! ## The tables -/

/-- `allsend` -/
inductive SendCall
  | MPI_Send | MPI_Isend | MPI_Ssend | MPI_Bsend | MPI_Send_init
  deriving DecidableEq, Repr

/-- `allrecv` -/
inductive RecvCall
  | MPI_Recv | MPI_Irecv | MPI_Recv_init
  deriving DecidableEq, Repr

instance : Fintype SendCall where
  elems := {.MPI_Send, .MPI_Isend, .MPI_Ssend, .MPI_Bsend, .MPI_Send_init}
  complete := by intro s; cases s <;> decide

instance : Fintype RecvCall where
  elems := {.MPI_Recv, .MPI_Irecv, .MPI_Recv_init}
  complete := by intro r; cases r <;> decide

def send : List SendCall := [.MPI_Send]

def ssend : List SendCall := [.MPI_Ssend]

def bsend : List SendCall := [.MPI_Bsend]

def isend : List SendCall := [.MPI_Isend]

def recv : List RecvCall := [.MPI_Recv]

def irecv : List RecvCall := [.MPI_Irecv]

/-- The variables of the templates that the calls use. -/
structure Vars (nprocs : Nat) where
  dest : Fin nprocs
  src : Fin nprocs
  stag : Nat := 0
  rtag : Option Nat := some 0

theorem ranks_ne_zero : 2 ≠ 0 := by decide

-- the zero is the one that the numerals of `Fin` ask for
scoped instance neZero_two : @NeZero Nat (@Zero.ofOfNat0 Nat (instOfNatNat 0)) 2 :=
  ⟨ranks_ne_zero⟩

/-- `dest=1, src=1` on rank 0, and `dest=0, src=0` on rank 1 -/
def opposite (rank : Fin 2) : Vars 2 :=
  if rank = 0 then { dest := 1, src := 1 } else { dest := 0, src := 0 }

abbrev Calls (nprocs : Nat) (κ : Type) := List (Call (Fin nprocs) (Fin nprocs) κ)

section Tables

variable {nprocs : Nat} {κ : Type}

/-- `buf{n}=rank` -/
def SendCall.comm (v : Vars nprocs) (rank : Fin nprocs) : Comm (Fin nprocs) (Fin nprocs) :=
  .send ⟨v.dest, v.stag, rank⟩

def RecvCall.comm (v : Vars nprocs) : Comm (Fin nprocs) (Fin nprocs) := .recv ⟨some v.src, v.rtag⟩

/-- `operation[s](n)`; a blocking call posts and waits, and `MPI_Bsend` leaves the
message in the attached buffer. -/
def SendCall.operation (v : Vars nprocs) (rank : Fin nprocs) (n : Nat) : SendCall → Calls nprocs κ
  | MPI_Send | MPI_Ssend => [.op (.post (comm v rank) n), .op (.wait n)]
  | MPI_Isend | MPI_Bsend => [.op (.post (comm v rank) n)]
  | MPI_Send_init => [.op (.init (comm v rank) n)]

def SendCall.start (n : Nat) : SendCall → Calls nprocs κ
  | MPI_Send_init => [.op (.start n)]
  | _ => []

def SendCall.fini (n : Nat) : SendCall → Calls nprocs κ
  | MPI_Isend | MPI_Send_init => [.op (.wait n)]
  | _ => []

/-- `free[s](n)`; `MPI_Buffer_detach` waits until the message has left the buffer. -/
def SendCall.free (n : Nat) : SendCall → Calls nprocs κ
  | MPI_Isend | MPI_Send_init => [.op (.free n)]
  | MPI_Bsend => [.op (.wait n)]
  | _ => []

def RecvCall.operation (v : Vars nprocs) (n : Nat) : RecvCall → Calls nprocs κ
  | MPI_Recv => [.op (.post (comm v) n), .op (.wait n)]
  | MPI_Irecv => [.op (.post (comm v) n)]
  | MPI_Recv_init => [.op (.init (comm v) n)]

def RecvCall.start (n : Nat) : RecvCall → Calls nprocs κ
  | MPI_Recv_init => [.op (.start n)]
  | _ => []

def RecvCall.fini (n : Nat) : RecvCall → Calls nprocs κ
  | MPI_Irecv | MPI_Recv_init => [.op (.wait n)]
  | _ => []

def RecvCall.free (n : Nat) : RecvCall → Calls nprocs κ
  | MPI_Irecv | MPI_Recv_init => [.op (.free n)]
  | _ => []

/-- `MPI_Probe(src, 0, newcom, &sta);` -/
def probe (v : Vars nprocs) : Calls nprocs κ := [.probe ⟨some v.src, some 0⟩]

/-- `MPI_Ssend` completes only with its receive, the others as the library has it. -/
def SendCall.library (lib : Implementation (Fin nprocs) κ) :
    SendCall → Implementation (Fin nprocs) κ
  | MPI_Ssend => { lib with eager := fun _ => false }
  | _ => lib

end Tables

/-! ## How a program ends -/

section Ends

variable {ι δ κ : Type}

def Finished (c : Config ι δ κ) : Prop := ∀ i, c.rest i = []

theorem finished_same {c c' : Config ι δ κ} (h : Same c c') : Finished c ↔ Finished c' := by
  rw [Finished, Finished, h.rest]

variable [DecidableEq ι] [DecidableEq δ] [DecidableEq κ] [Fintype ι]

instance (c : Config ι δ κ) : Decidable (Finished c) := inferInstanceAs (Decidable (∀ _, _ = []))

/-- In every run all ranks finish. -/
def Completes (lib : Implementation ι κ) (program : ι → List (Call ι δ κ)) : Prop :=
  Ends (next lib) (start program) Finished

/-- In every run some rank is left waiting. -/
def Deadlocks (lib : Implementation ι κ) (program : ι → List (Call ι δ κ)) : Prop :=
  Ends (next lib) (start program) fun c => ¬ Finished c

variable {lib : Implementation ι κ} {program : ι → List (Call ι δ κ)}

theorem not_deadlocks (h : Completes lib program) : ¬ Deadlocks lib program := by
  intro hdeadlocks
  obtain ⟨t, hfinished, hnot⟩ := h.compatible hdeadlocks
  exact hnot hfinished

theorem completes_iff {p : Prop} [Decidable p] (h : p → Completes lib program)
    (hnot : ¬ p → Deadlocks lib program) : Completes lib program ↔ p :=
  ⟨fun hcompletes => by_contra fun hp => not_deadlocks hcompletes (hnot hp), h⟩

end Ends

/-! ## Two processes -/

section Check

variable {κ : Type} [DecidableEq κ]

/-- What the library chooses: whether it buffers the message of each rank. -/
structure Choices (κ : Type) where
  eager0 : Bool
  eager1 : Bool
  finalizeWaits : Bool
  waits : κ → Fin 2 → Fin 2 → Bool

def Choices.library (ch : Choices κ) : Implementation (Fin 2) κ where
  eager := fun m => if m.1 = 0 then ch.eager0 else ch.eager1
  finalizeWaits := ch.finalizeWaits
  waits := ch.waits

/-- Each rank sends at most one message, and no receive is from any source. -/
def Single (program : Fin 2 → Calls 2 κ) : Prop :=
  ∀ i, (Local.run (ops (program i))).outbox.length ≤ 1 ∧
    ∀ rcv ∈ (Local.run (ops (program i))).inbox, rcv.source ≠ none

instance (program : Fin 2 → Calls 2 κ) : Decidable (Single program) :=
  inferInstanceAs (Decidable (∀ _, _ ∧ _))

/-- Each call is made once, and each message matched once. -/
def fuel (program : Fin 2 → Calls 2 κ) : Nat := (program 0).length + (program 1).length + 2

/-- The end of one run. -/
def Choices.final (ch : Choices κ) (program : Fin 2 → Calls 2 κ) : Config (Fin 2) (Fin 2) κ :=
  settle ch.library (fuel program) (start program)

def Choices.check (ch : Choices κ) (program : Fin 2 → Calls 2 κ)
    (P : Config (Fin 2) (Fin 2) κ → Prop) [DecidablePred P] : Bool :=
  decide (Single program) && settled ch.library (ch.final program) && decide (P (ch.final program))

/-- **One run for each choice is enough.** -/
theorem ends_of_check {P : Config (Fin 2) (Fin 2) κ → Prop} [DecidablePred P]
    (hP : ∀ c c', Same c c' → P c → P c') {ch : Choices κ} {program : Fin 2 → Calls 2 κ}
    {lib : Implementation (Fin 2) κ} (hagree : Agree program lib ch.library)
    (h : ch.check program P = true) : Ends (next lib) (start program) P := by
  rw [Choices.check, Bool.and_eq_true, Bool.and_eq_true, decide_eq_true_eq, decide_eq_true_eq] at h
  obtain ⟨⟨hsingle, hsettled⟩, hend⟩ := h
  exact (ends_of_settled (fun i => (hsingle i).2) hagree rfl hsettled).mono fun c hsame =>
    hP _ _ hsame hend

/-- Where there are no collectives. -/
theorem ends_of_choices {P : Config (Fin 2) (Fin 2) Empty → Prop} [DecidablePred P]
    (hP : ∀ c c', Same c c' → P c → P c') {program : Fin 2 → Calls 2 Empty}
    {lib : Implementation (Fin 2) Empty}
    (h : Choices.check ⟨lib.eager (0, 0), lib.eager (1, 0), lib.finalizeWaits, nofun⟩ program P =
      true) :
    Ends (next lib) (start program) P := by
  have hsingle := h
  rw [Choices.check, Bool.and_eq_true, Bool.and_eq_true, decide_eq_true_eq] at hsingle
  refine ends_of_check hP ⟨nofun, rfl, fun i k hk => ?_⟩ h
  obtain rfl : k = 0 := by
    have hlen := (hsingle.1.1 i).1
    omega
  match i with
  | 0 => rfl
  | 1 => rfl

end Check

end MpiBugs.TwoProcesses
