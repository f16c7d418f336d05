import MpiBugs.TwoProcesses

/-!
# Point-to-point programs that match, or do not

The programs of `P2PProbeGenerator.py`, `ongoing/P2PBufferingGenerator.py`,
`P2PMatchingGenerator.py` and of the tags in `P2PArgGenerator.py`, under every library
and every order of events.

* `probe_runs`: to probe before sending deadlocks, to probe for what is sent does not;
* `buffering_labels`: what the library has to buffer;
* `tag_runs`: the receive gets the message iff the tags fit;
* `unmatched_runs`: sends that nobody receives go unnoticed where they are buffered.
-/

namespace MpiBugs.PointToPoint

open MessagePassing Communication Interleaving TwoProcesses

/-- There are no collectives in these programs. -/
abbrev Program := Fin 2 → Calls 2 Empty

def finalize : Calls 2 Empty := [.op .finalize]

/-! ## Probes -/

namespace Probe

/-- `@{free1a}@` to the end. -/
def ending (s : SendCall) (r : RecvCall) : Calls 2 Empty :=
  s.free 1 ++ r.free 2 ++ (r.free 3 ++ s.free 4) ++ finalize

/-- The calls of rank 1, in both programs. -/
def second (s : SendCall) (r : RecvCall) : Calls 2 Empty :=
  probe (opposite 1) ++ r.operation (opposite 1) 3 ++ s.operation (opposite 1) 1 4 ++
    (r.fini 3 ++ s.fini 4)

/-- `P2PCallMatching_{p}_{r}_{s}_nok.c` -/
def nok (s : SendCall) (r : RecvCall) : Program := fun rank =>
  (if rank = 0 then
    probe (opposite 0) ++ s.operation (opposite 0) 0 1 ++ r.operation (opposite 0) 2 ++
      (s.fini 1 ++ r.fini 2)
  else second s r) ++ ending s r

/-- `P2PCallMatching_{p}_{r}_{s}_ok.c` -/
def ok (s : SendCall) (r : RecvCall) : Program := fun rank =>
  (if rank = 0 then
    s.operation (opposite 0) 0 1 ++ probe (opposite 0) ++ r.operation (opposite 0) 2 ++
      (s.fini 1 ++ r.fini 2)
  else second s r) ++ ending s r

end Probe

/-- Both messages have arrived. -/
def Exchanged (c : Config (Fin 2) (Fin 2) Empty) : Prop :=
  Finished c ∧ c.matched.Perm [((0, 0), (1, 0)), ((1, 0), (0, 0))]

instance (c : Config (Fin 2) (Fin 2) Empty) : Decidable (Exchanged c) :=
  inferInstanceAs (Decidable (_ ∧ _))

theorem exchanged_same {c c' : Config (Fin 2) (Fin 2) Empty} (h : Same c c') (hc : Exchanged c) :
    Exchanged c' :=
  ⟨(finished_same h).mp hc.1, h.matched.symm.trans hc.2⟩

theorem probe_ok_check : ∀ s ∈ send ++ isend, ∀ r ∈ recv ++ irecv, ∀ eager0 eager1 w : Bool,
    Choices.check ⟨eager0, eager1, w, nofun⟩ (Probe.ok s r) Exchanged = true := by
  decide +kernel

theorem probe_nok_check : ∀ s ∈ send ++ isend, ∀ r ∈ recv ++ irecv, ∀ eager0 eager1 w : Bool,
    Choices.check ⟨eager0, eager1, w, nofun⟩ (Probe.nok s r)
      (fun c => ∀ rank, c.rest rank = Probe.nok s r rank) = true := by
  decide +kernel

section

variable (lib : Implementation (Fin 2) Empty)

/-- **A probe for what is sent afterwards deadlocks** before any other call, and the
programs labelled OK exchange both messages, in every run. -/
theorem probe_runs {s : SendCall} (hs : s ∈ send ++ isend) {r : RecvCall} (hr : r ∈ recv ++ irecv) :
    Ends (next lib) (start (Probe.ok s r)) Exchanged ∧
      Ends (next lib) (start (Probe.nok s r)) fun c => c.rest = Probe.nok s r := by
  constructor
  · exact ends_of_choices (fun c c' => exchanged_same)
      (probe_ok_check s hs r hr _ _ lib.finalizeWaits)
  · refine (ends_of_choices (fun c c' hsame hc => ?_)
      (probe_nok_check s hs r hr _ _ lib.finalizeWaits)).mono fun c hc => funext hc
    exact fun rank => (congrFun hsame.rest rank).symm.trans (hc rank)

end

/-- A library that buffers nothing. -/
def zeroBuffer : Implementation (Fin 2) Empty := ⟨⟨fun _ => false, true⟩, nofun⟩

theorem probe_runs_blocking :
    Ends (next zeroBuffer) (start (Probe.ok .MPI_Send .MPI_Recv)) Exchanged ∧
      Ends (next zeroBuffer) (start (Probe.nok .MPI_Send .MPI_Recv))
        fun c => c.rest = Probe.nok .MPI_Send .MPI_Recv :=
  probe_runs zeroBuffer (by decide) (by decide)

/-! ## Buffering -/

/-- The files that `ongoing/P2PBufferingGenerator.py` writes, in its order. -/
inductive BufferingFile
  /-- `P2PBuffering_{s}_{r}_{s}_{r}_nok.c` -/
  | buffering
  /-- `P2PCallMatching_{r}_{s}_{r}_{s}_nok.c` -/
  | receiveFirst
  /-- `P2PCallMatching_{s}_{r}_{r}_{s}_ok.c` -/
  | correct
  deriving DecidableEq, Repr

namespace BufferingFile

inductive Outcome
  | OK | CallMatching | BufferingHazard
  deriving DecidableEq, Repr

/-- Every run does what the header says. -/
def Outcome.Describes (lib : Implementation (Fin 2) Empty) (program : Program) : Outcome → Prop
  | OK => Completes lib program
  | _ => Deadlocks lib program

/-- Of the run with `$zero_buffer`. -/
def outcome1 : BufferingFile → Outcome
  | buffering => .BufferingHazard
  | receiveFirst => .CallMatching
  | correct => .OK

/-- Of the run with `$infty_buffer`; it is set for the first file and kept in the
dictionary for the others. -/
def outcome2 : BufferingFile → Outcome
  | _ => .OK

def sendFirst (s : SendCall) (r : RecvCall) (rank : Fin 2) : Calls 2 Empty :=
  s.operation (opposite rank) rank 1 ++ s.fini 1 ++ (r.operation (opposite rank) 2 ++ r.fini 2)

def recvFirst (s : SendCall) (r : RecvCall) (rank : Fin 2) : Calls 2 Empty :=
  r.operation (opposite rank) 2 ++ r.fini 2 ++ (s.operation (opposite rank) rank 1 ++ s.fini 1)

def program (s : SendCall) (r : RecvCall) (f : BufferingFile) : Program := fun rank =>
  (match f with
    | buffering => sendFirst s r rank
    | receiveFirst => recvFirst s r rank
    | correct => if rank = 0 then sendFirst s r rank else recvFirst s r rank) ++
    (s.free 1 ++ r.free 2) ++ finalize

end BufferingFile

/-- What the library has to buffer for the program to complete: one of the first sends,
or all that it wants, or nothing would help. -/
def BufferingFile.Buffered (lib : Implementation (Fin 2) Empty) : BufferingFile → Prop
  | buffering => lib.eager (0, 0) = true ∨ lib.eager (1, 0) = true
  | receiveFirst => False
  | correct => True

instance (lib : Implementation (Fin 2) Empty) (f : BufferingFile) : Decidable (f.Buffered lib) :=
  match f with
  | .buffering => inferInstanceAs (Decidable (_ ∨ _))
  | .receiveFirst => isFalse id
  | .correct => isTrue trivial

instance : Fintype BufferingFile where
  elems := {.buffering, .receiveFirst, .correct}
  complete := by intro f; cases f <;> decide

theorem buffering_check : ∀ s ∈ send ++ isend, ∀ r ∈ recv ++ irecv, ∀ f : BufferingFile,
    ∀ eager0 eager1 w : Bool, let ch : Choices Empty := ⟨eager0, eager1, w, nofun⟩
      ch.check (f.program s r) (fun c => Finished c ↔ f.Buffered ch.library) = true := by
  decide +kernel

theorem buffering_completes_iff (lib : Implementation (Fin 2) Empty) {s : SendCall}
    (hs : s ∈ send ++ isend) {r : RecvCall} (hr : r ∈ recv ++ irecv) (f : BufferingFile) :
    (f.Buffered lib → Completes lib (f.program s r)) ∧
      (¬ f.Buffered lib → Deadlocks lib (f.program s r)) := by
  have hcheck := buffering_check s hs r hr f (lib.eager (0, 0)) (lib.eager (1, 0)) lib.finalizeWaits
  have hends : Ends (next lib) (start (f.program s r)) _ :=
    ends_of_choices (fun _ _ hsame hc => (finished_same hsame).symm.trans hc) hcheck
  have hbuffered : f.Buffered lib ↔ f.Buffered (Choices.library
      ⟨lib.eager (0, 0), lib.eager (1, 0), lib.finalizeWaits, nofun⟩) := by
    cases f <;> exact Iff.rfl
  rw [hbuffered]
  exact ⟨fun h => hends.mono fun c hc => hc.mpr h, fun h => hends.mono fun c hc => mt hc.mp h⟩

/-- **The headers of the buffering programs.** A program completes iff what it needs is
buffered, in every run, and else always deadlocks. So without buffering all headers are right,
and with buffering all but the one that two receives first inherit. -/
theorem buffering_labels {s : SendCall} (hs : s ∈ send ++ isend) {r : RecvCall}
    (hr : r ∈ recv ++ irecv) (f : BufferingFile) :
    (∀ lib, (Completes lib (f.program s r) ↔ f.Buffered lib) ∧
      (Deadlocks lib (f.program s r) ↔ ¬ f.Buffered lib)) ∧
    (∀ lib, (∀ m, lib.eager m = false) → f.outcome1.Describes lib (f.program s r)) ∧
    ((∀ lib, (∀ m, lib.eager m = true) → f.outcome2.Describes lib (f.program s r)) ↔
      f ≠ .receiveFirst) := by
  have hiff := fun lib => buffering_completes_iff lib hs hr f
  refine ⟨fun lib => ⟨completes_iff (hiff lib).1 (hiff lib).2, ?_, (hiff lib).2⟩,
    fun lib hzero => ?_, ?_⟩
  · exact fun hdeadlocks hbuffered => not_deadlocks ((hiff lib).1 hbuffered) hdeadlocks
  · cases f with
    | buffering => exact (hiff lib).2 (by simp [BufferingFile.Buffered, hzero])
    | receiveFirst => exact (hiff lib).2 id
    | correct => exact (hiff lib).1 trivial
  · cases f with
    | buffering => exact iff_of_true (fun lib hall => (hiff lib).1 (.inl (hall _))) (by decide)
    | receiveFirst =>
      refine iff_of_false (fun hall => ?_) (by decide)
      exact not_deadlocks (hall ⟨⟨fun _ => true, true⟩, nofun⟩ fun _ => rfl) ((hiff _).2 id)
    | correct => exact iff_of_true (fun lib _ => (hiff lib).1 trivial) (by decide)

theorem receiveFirst_mislabelled :
    ¬ ∀ lib, (∀ m, lib.eager m = true) → BufferingFile.receiveFirst.outcome2.Describes lib
      (BufferingFile.receiveFirst.program .MPI_Send .MPI_Recv) :=
  fun hall =>
    (@buffering_labels .MPI_Send (by decide) .MPI_Recv (by decide) .receiveFirst).2.2.mp hall rfl

/-! ## Tags -/

/-- The files of `P2PArgGenerator.py` that differ in their tags. -/
inductive TagFile
  /-- `P2PTagMatching_{p1}_{p2}_nok.c` -/
  | nok
  /-- `P2PTagMatching_{p1}_{p2}_ok.c` -/
  | ok
  deriving DecidableEq, Repr

namespace TagFile

/-- `src=0, dest=1`, and the tags as `@{change_arg}@` leaves them. -/
def vars : TagFile → Vars 2
  | nok => { dest := 1, src := 0, stag := 0, rtag := some 1 }
  | ok => { dest := 1, src := 0, rtag := none }

/-- `@{free1}@` to the end. -/
def ending (p1 : SendCall) (p2 : RecvCall) : Calls 2 Empty := p1.free 1 ++ p2.free 2 ++ finalize

def program (p1 : SendCall) (p2 : RecvCall) (f : TagFile) : Program := fun rank =>
  (if rank = 0 then p1.operation f.vars rank 1 ++ p1.start 1 ++ p1.fini 1
  else p2.operation f.vars 2 ++ p2.start 2 ++ p2.fini 2) ++ ending p1 p2

end TagFile

/-- The message has arrived. -/
def Received (c : Config (Fin 2) (Fin 2) Empty) : Prop :=
  Finished c ∧ c.matched.Perm [((0, 0), (1, 0))]

instance (c : Config (Fin 2) (Fin 2) Empty) : Decidable (Received c) :=
  inferInstanceAs (Decidable (_ ∧ _))

/-- The receive waits for ever; the sender finishes if nobody waits for it either. -/
def LeftWaiting (p1 : SendCall) (p2 : RecvCall) (lib : Implementation (Fin 2) Empty)
    (c : Config (Fin 2) (Fin 2) Empty) : Prop :=
  c.matched = [] ∧ c.rest 1 = .op (.wait 2) :: TagFile.ending p1 p2 ∧
    (c.rest 0 = [] ↔ lib.eager (0, 0) = true ∧ lib.finalizeWaits = false)

instance (p1 : SendCall) (p2 : RecvCall) (lib : Implementation (Fin 2) Empty)
    (c : Config (Fin 2) (Fin 2) Empty) : Decidable (LeftWaiting p1 p2 lib c) :=
  inferInstanceAs (Decidable (_ ∧ _ ∧ _))

theorem tag_ok_check : ∀ p1 p2, ∀ eager0 eager1 w : Bool,
    Choices.check ⟨eager0, eager1, w, nofun⟩ (TagFile.ok.program p1 p2) Received = true := by
  decide +kernel

theorem tag_nok_check : ∀ p1 p2, ∀ eager0 eager1 w : Bool,
    let ch : Choices Empty := ⟨eager0, eager1, w, nofun⟩
    ch.check (TagFile.nok.program p1 p2) (LeftWaiting p1 p2 ch.library) = true := by
  decide +kernel

/-- **The message is received iff the tags fit.** For each pair of primitives, the program
with `MPI_ANY_TAG` hands over the message in every run, and with the other tag nothing is
ever matched. -/
theorem tag_runs (lib : Implementation (Fin 2) Empty) (p1 : SendCall) (p2 : RecvCall) :
    Ends (next (p1.library lib)) (start (TagFile.ok.program p1 p2)) Received ∧
      Ends (next (p1.library lib)) (start (TagFile.nok.program p1 p2))
        (LeftWaiting p1 p2 (p1.library lib)) := by
  constructor
  · refine ends_of_choices (fun c c' hsame hc => ?_) (tag_ok_check p1 p2 _ _ _)
    exact ⟨(finished_same hsame).mp hc.1, hsame.matched.symm.trans hc.2⟩
  · refine ends_of_choices (fun c c' hsame hc => ?_) (tag_nok_check p1 p2 _ _ _)
    obtain ⟨hmatched, hreceiver, hsender⟩ := hc
    exact ⟨(hmatched ▸ hsame.matched).nil_eq.symm, hsame.rest ▸ hreceiver, hsame.rest ▸ hsender⟩

/-! ## Calls that are not matched -/

/-- `send + ssend + bsend + recv + irecv + isend` -/
inductive Primitive
  | sends (s : SendCall)
  | receives (r : RecvCall)
  deriving DecidableEq, Repr

/-- The files of `P2PMatchingGenerator.py`. -/
inductive UnmatchedFile
  /-- `P2PCallMatching_{p}_nok.c` -/
  | one (p : Primitive)
  /-- `P2PCallMatching_{p}_{p}_nok.c` -/
  | two (p : Primitive)
  /-- `P2PCallMatching_{r}_{s}_nok.c` -/
  | conditional (s : SendCall) (r : RecvCall)
  deriving DecidableEq, Repr

namespace UnmatchedFile

/-- `src=0, dest=1`, on both ranks -/
def vars : Vars 2 := { dest := 1, src := 0 }

def itsRaining : Bool := false

/-- `operation[p](n)` and `fini[p](n)` -/
def calls (rank : Fin 2) (n : Nat) : Primitive → Calls 2 Empty
  | .sends s => s.operation vars rank n ++ s.fini n
  | .receives r => r.operation vars n ++ r.fini n

def program (f : UnmatchedFile) : Program := fun rank =>
  (match f with
    | one p => if rank = 0 then calls rank 1 p else []
    | two p => if rank = 0 then calls rank 1 p else if rank = 1 then calls rank 1 p else []
    | conditional s r =>
      if rank = 0 then calls rank 1 (.sends s)
      else if rank = 1 ∧ itsRaining = true then calls rank 2 (.receives r) else []) ++ finalize

/-- The loops of the generator. -/
def files : List UnmatchedFile :=
  ((send ++ ssend ++ bsend).map Primitive.sends ++ (recv ++ irecv).map Primitive.receives ++
      isend.map Primitive.sends).flatMap (fun p => [one p, two p]) ++
    (send ++ isend ++ ssend ++ bsend).flatMap fun s => (recv ++ irecv).map (conditional s)

def library (lib : Implementation (Fin 2) Empty) : UnmatchedFile → Implementation (Fin 2) Empty
  | one (.sends s) | two (.sends s) | conditional s _ => s.library lib
  | _ => lib

/-- The call returns although nobody answers it. -/
def Returns (lib : Implementation (Fin 2) Empty) (rank : Fin 2) : Primitive → Prop
  | .sends s => s = .MPI_Bsend ∨ lib.eager (rank, 0) = true
  | .receives _ => False

instance (lib : Implementation (Fin 2) Empty) (rank : Fin 2) (p : Primitive) :
    Decidable (Returns lib rank p) :=
  match p with
  | .sends _ => inferInstanceAs (Decidable (_ ∨ _))
  | .receives _ => isFalse id

/-- All calls of the program do. -/
def Unnoticed (lib : Implementation (Fin 2) Empty) : UnmatchedFile → Prop
  | one p => Returns lib 0 p
  | two p => Returns lib 0 p ∧ Returns lib 1 p
  | conditional s _ => Returns lib 0 (.sends s)

instance (lib : Implementation (Fin 2) Empty) (f : UnmatchedFile) : Decidable (f.Unnoticed lib) :=
  match f with
  | one p => inferInstanceAs (Decidable (Returns lib 0 p))
  | two _ => inferInstanceAs (Decidable (_ ∧ _))
  | conditional s _ => inferInstanceAs (Decidable (Returns lib 0 (.sends s)))

theorem unnoticed_congr {lib lib' : Implementation (Fin 2) Empty}
    (h : ∀ rank, lib.eager (rank, 0) = lib'.eager (rank, 0)) (f : UnmatchedFile) :
    f.Unnoticed lib ↔ f.Unnoticed lib' := by
  have hreturns : ∀ rank p, Returns lib rank p ↔ Returns lib' rank p := by
    intro rank p
    cases p with
    | sends s => rw [Returns, Returns, h]
    | receives r => exact Iff.rfl
  cases f with
  | one p => exact hreturns 0 p
  | two p => exact and_congr (hreturns 0 p) (hreturns 1 p)
  | conditional s r => exact hreturns 0 (.sends s)

end UnmatchedFile

theorem unmatched_check : ∀ f ∈ UnmatchedFile.files, ∀ eager0 eager1 w : Bool,
    let ch : Choices Empty := ⟨eager0, eager1, w, nofun⟩
    ch.check f.program (fun c => c.matched = [] ∧ (Finished c ↔ f.Unnoticed ch.library)) =
      true := by
  decide +kernel

/-- **Calls that are not matched** deadlock in every run, or go unnoticed in every run: iff
they are sends of which none has to wait. -/
theorem unmatched_runs (lib : Implementation (Fin 2) Empty) {f : UnmatchedFile}
    (hf : f ∈ UnmatchedFile.files) :
    Ends (next (f.library lib)) (start f.program) fun c =>
      c.matched = [] ∧ (Finished c ↔ f.Unnoticed (f.library lib)) := by
  have hends : Ends (next (f.library lib)) (start f.program) _ :=
    ends_of_choices (fun c c' hsame hc => ?_) (unmatched_check f hf _ _ _)
  · refine hends.mono fun c hc => ⟨hc.1, hc.2.trans (f.unnoticed_congr fun rank => ?_)⟩
    match rank with
    | 0 => rfl
    | 1 => rfl
  · exact ⟨(hc.1 ▸ hsame.matched).nil_eq.symm, (finished_same hsame).symm.trans hc.2⟩

/-- Two buffered sends that nobody receives. -/
theorem unmatched_runs_bsend :
    Ends (next zeroBuffer) (start (UnmatchedFile.two (.sends .MPI_Bsend)).program) fun c =>
      c.matched = [] ∧ Finished c :=
  (@unmatched_runs zeroBuffer (.two (.sends .MPI_Bsend)) (by decide)).mono fun _ hc =>
    ⟨hc.1, hc.2.mpr ⟨.inl rfl, .inl rfl⟩⟩

end MpiBugs.PointToPoint
