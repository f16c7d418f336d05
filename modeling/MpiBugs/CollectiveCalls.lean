import MpiBugs.TwoProcesses

/-!
# Programs whose collectives match, or do not

The programs of `CollMatchingGenerator.py` and `CollP2PMatchingGenerator.py`, under every
library and every order of events. Whether such a program deadlocks is up to the library:
it depends on which ranks wait for which others in a collective, beyond those whose data
they need.

* `collMatching_ends`, `collP2P_ends`: which waits a deadlock takes;
* `collMatching_labels`, `collP2P_labels`: where the header is right for every library.
-/

namespace MpiBugs.CollectiveCalls

open MessagePassing Communication Interleaving TwoProcesses

/-! ## The collectives -/

/-- `coll + icoll + ibarrier` -/
inductive Collective
  | MPI_Barrier | MPI_Bcast | MPI_Reduce | MPI_Gather | MPI_Scatter | MPI_Scan | MPI_Exscan
  | MPI_Allgather | MPI_Allreduce | MPI_Allgatherv | MPI_Alltoall | MPI_Alltoallv
  | MPI_Ibcast | MPI_Ireduce | MPI_Igather | MPI_Iscatter | MPI_Iscan | MPI_Iexscan
  | MPI_Iallgather | MPI_Iallreduce | MPI_Iallgatherv | MPI_Ialltoall | MPI_Ialltoallv
  | MPI_Ibarrier
  deriving DecidableEq, Repr

namespace Collective

def coll : List Collective :=
  [MPI_Barrier, MPI_Bcast, MPI_Reduce, MPI_Gather, MPI_Scatter, MPI_Scan, MPI_Exscan,
    MPI_Allgather, MPI_Allreduce, MPI_Allgatherv, MPI_Alltoall, MPI_Alltoallv]

/-- `operation[c](n)`; a blocking collective is entered and left. -/
def operation (n : Nat) (c : Collective) : Calls 2 Collective :=
  if c ∈ coll then [.enter c n, .leave n] else [.enter c n]

/-- `fini[c](n)` -/
def fini (n : Nat) (c : Collective) : Calls 2 Collective := if c ∈ coll then [] else [.leave n]

/-- `free[c]` frees a request; the other ones free buffers, if anything. -/
def freesRequest : Collective → Bool
  | MPI_Ibarrier | MPI_Ireduce | MPI_Iallreduce | MPI_Ibcast | MPI_Igather | MPI_Iscatter
  | MPI_Iscan | MPI_Iexscan => true
  | _ => false

/-- `free[c](n)` -/
def free (n : Nat) (c : Collective) : Calls 2 Collective :=
  if c.freesRequest then [.op (.free n)] else []

def root : Fin 2 := 0

/-- The first rank cannot have its result without the second one. -/
def Needs (i j : Fin 2) : Collective → Prop
  | MPI_Reduce | MPI_Gather | MPI_Ireduce | MPI_Igather => i = root
  | MPI_Bcast | MPI_Scatter | MPI_Ibcast | MPI_Iscatter => j = root
  | MPI_Scan | MPI_Exscan | MPI_Iscan | MPI_Iexscan => j < i
  | _ => True

theorem operation_fini (n : Nat) (c : Collective) :
    operation n c ++ fini n c = [.enter c n, .leave n] := by
  rw [operation, fini]
  split
  · rfl
  · rfl

end Collective

/-! ## Shapes of programs -/

section Shape

variable {κ : Type}

/-- The collectives of a rank, each waited for at once, then the requests that are freed. -/
def shape (collectives : Fin 2 → List (κ × Nat)) (requests : List Nat) (rank : Fin 2) : Calls 2 κ :=
  (collectives rank).flatMap (fun e => [.enter e.1 e.2, .leave e.2]) ++
    requests.map (fun n => .op (.free n)) ++ [.op .finalize]

theorem shape_rename {κ' : Type} (f : κ → κ') (collectives : Fin 2 → List (κ × Nat))
    (requests : List Nat) (rank : Fin 2) :
    (shape collectives requests rank).map (Call.rename f) =
      shape (fun rank => (collectives rank).map fun e => (f e.1, e.2)) requests rank := by
  simp [shape, List.map_flatMap, List.flatMap_map, Call.rename, Function.comp_def]

end Shape

/-! ## The files of `CollMatchingGenerator.py` -/

inductive MatchingFile
  /-- `CollCorrect_{c1}_{c2}.c` -/
  | correctTwo (c1 c2 : Collective)
  /-- `CollCorrect_{c1}.c` -/
  | correct (c1 : Collective)
  /-- `CollCallOrder_{c1}_{c2}_nok.c` -/
  | callOrder (c1 c2 : Collective)
  /-- `CollCallOrder_{c1}_none_nok.c` -/
  | noneNok (c1 : Collective)
  /-- `CollCallOrder_{c1}_none_ok.c` -/
  | noneOk (c1 : Collective)
  deriving DecidableEq, Repr

namespace MatchingFile

/-- `@{operation1a}@` to `@{fini2a}@`, or the same with `b`: the collectives and the numbers
they are given. The condition is `rank % 2`, for the last file `nprocs<256`. -/
def calls (rank : Fin 2) : MatchingFile → List (Collective × Nat)
  | correctTwo c1 c2 => [(c1, 1), (c2, 2)]
  | correct c1 => [(c1, 1)]
  | callOrder c1 c2 => if rank = 1 then [(c1, 1), (c2, 2)] else [(c2, 2), (c1, 1)]
  | noneNok c1 => if rank = 1 then [(c1, 1)] else []
  | noneOk c1 => [(c1, 1)]

/-- What the last round of the inner loop leaves. -/
def leftover (c1 : Collective) : List (Collective × Nat) :=
  if c1 = .MPI_Ibarrier then [(c1, 1)] else [(.MPI_Ibarrier, 2), (c1, 1)]

/-- `@{free1}@` and `@{free2}@` -/
def frees : MatchingFile → List (Collective × Nat)
  | correctTwo c1 c2 => [(c1, 1), (c2, 2)]
  | correct c1 => [(c1, 1)]
  | callOrder c1 c2 => [(c2, 2), (c1, 1)]
  | noneNok c1 | noneOk c1 => leftover c1

def program (f : MatchingFile) (rank : Fin 2) : Calls 2 Collective :=
  (f.calls rank).flatMap (fun e => e.1.operation e.2 ++ e.1.fini e.2) ++
    f.frees.flatMap (fun e => e.1.free e.2) ++ [.op .finalize]

/-- The numbers of the requests that it frees. -/
def requests (f : MatchingFile) : List Nat :=
  (f.frees.filter fun e => e.1.freesRequest).map Prod.snd

theorem program_eq (f : MatchingFile) :
    f.program = shape (fun rank => f.calls rank) f.requests := by
  funext rank
  have hfree : ∀ es : List (Collective × Nat), es.flatMap (fun e => e.1.free e.2) =
      ((es.filter fun e => e.1.freesRequest).map Prod.snd).map fun n => .op (.free n) := by
    intro es
    induction es with
    | nil => rfl
    | cons e es ih =>
      rw [List.flatMap_cons, ih, Collective.free, List.filter_cons]
      split
      · rfl
      · rfl
  rw [program, shape, requests, hfree]
  simp only [Collective.operation_fini]

theorem requests_mem (f : MatchingFile) :
    f.requests ∈ ([[], [1], [2], [1, 2], [2, 1]] : List (List Nat)) := by
  cases f with
  | correctTwo c1 c2 | callOrder c1 c2 =>
    cases h1 : c1.freesRequest <;> cases h2 : c2.freesRequest <;> simp [requests, frees, h1, h2]
  | correct c1 => cases h1 : c1.freesRequest <;> simp [requests, frees, h1]
  | noneNok c1 | noneOk c1 =>
    have hbarrier : Collective.MPI_Ibarrier.freesRequest = true := rfl
    by_cases hc : c1 = .MPI_Ibarrier
    · simp [requests, frees, leftover, hc, hbarrier]
    · cases h1 : c1.freesRequest <;> simp [requests, frees, leftover, hc, hbarrier, h1]

/-- The waits that make the program deadlock. -/
def Blocks (lib : Implementation (Fin 2) Collective) : MatchingFile → Prop
  | callOrder c1 c2 => lib.waits c1 0 1 = true ∨ lib.waits c1 1 0 = true ∨
      lib.waits c2 0 1 = true ∨ lib.waits c2 1 0 = true
  | noneNok c1 => lib.waits c1 1 0 = true
  | _ => False

end MatchingFile

/-- What a library does with two collectives. -/
def two (w a b c d : Bool) : Choices Bool where
  eager0 := true
  eager1 := true
  finalizeWaits := w
  waits := fun kind i _ => match kind, i with
    | true, 0 => a
    | true, 1 => b
    | false, 0 => c
    | false, 1 => d

/-- And with one. -/
def one (w a b : Bool) : Choices Unit where
  eager0 := true
  eager1 := true
  finalizeWaits := w
  waits := fun _ i _ => match i with
    | 0 => a
    | 1 => b

theorem correctTwo_check : ∀ k, ∀ requests ∈ [[], [1], [2], [1, 2], [2, 1]], ∀ w a b c d : Bool,
    (two w a b c d).check (shape (fun _ => [(true, 1), (k, 2)]) requests) Finished = true := by
  decide +kernel

/-- The first collectives of the ranks are not the same. -/
def Mismatched {κ : Type} (c : Config (Fin 2) (Fin 2) κ) : Prop :=
  ∃ e ∈ (c.entered 0).head?, ∃ e' ∈ (c.entered 1).head?, e.1 ≠ e'.1

instance {κ : Type} [DecidableEq κ] (c : Config (Fin 2) (Fin 2) κ) : Decidable (Mismatched c) :=
  inferInstanceAs (Decidable (∃ e ∈ _, ∃ e' ∈ _, _))

theorem callOrder_check : ∀ requests ∈ [[], [1], [2], [1, 2], [2, 1]], ∀ w a b c d : Bool,
    (two w a b c d).check
      (shape (fun rank => if rank = 1 then [(true, 1), (false, 2)] else [(false, 2), (true, 1)])
        requests)
      (fun t => Mismatched t ∧
        (Finished t ↔ ¬ (a = true ∨ b = true ∨ c = true ∨ d = true))) = true := by
  decide +kernel

theorem correct_check : ∀ requests ∈ [[], [1], [2], [1, 2], [2, 1]], ∀ w a b : Bool,
    (one w a b).check (shape (fun _ => [((), 1)]) requests) Finished = true := by
  decide +kernel

theorem none_check : ∀ requests ∈ [[], [1], [2], [1, 2], [2, 1]], ∀ w a b : Bool,
    (one w a b).check (shape (fun rank => if rank = 1 then [((), 1)] else []) requests)
      (fun t => Finished t ↔ ¬ b = true) = true := by
  decide +kernel

/-! ## How they end -/

theorem finished_rename {κ κ' : Type} (f : κ → κ') (c : Config (Fin 2) (Fin 2) κ) :
    Finished (c.rename f) ↔ Finished c := by
  simp only [Finished, Config.rename, List.map_eq_nil_iff]

theorem mismatched_rename {κ κ' : Type} {f : κ → κ'} (hf : Function.Injective f)
    {c : Config (Fin 2) (Fin 2) κ} (h : Mismatched c) : Mismatched (c.rename f) := by
  obtain ⟨e, he, e', he', hne⟩ := h
  refine ⟨(f e.1, e.2), ?_, (f e'.1, e'.2), ?_, fun h => hne (hf h)⟩
  · simp only [Config.rename, List.head?_map, Option.mem_def.mp he, Option.map_some, Option.mem_def]
  · simp only [Config.rename, List.head?_map, Option.mem_def.mp he', Option.map_some,
      Option.mem_def]

theorem outbox_shape {κ : Type} (collectives : Fin 2 → List (κ × Nat)) (requests : List Nat)
    (rank : Fin 2) : (Local.run (ops (shape collectives requests rank))).outbox = [] := by
  have hfree : ∀ (requests : List Nat) (l : Local (Fin 2) (Fin 2)), l.outbox = [] →
      (((requests.map Op.free) ++ [Op.finalize]).foldl Local.exec l).outbox = [] := by
    intro requests
    induction requests with
    | nil => exact fun l h => h
    | cons n requests ih => exact fun l h => ih _ h
  have hops : ops (shape collectives requests rank) = requests.map Op.free ++ [.finalize] := by
    have hnone : ∀ es : List (κ × Nat),
        ops (es.flatMap fun e => [.enter e.1 e.2, .leave e.2]) =
          ([] : List (Op (Fin 2) (Fin 2))) := by
      intro es
      induction es with
      | nil => rfl
      | cons e es ih => exact ih
    rw [ops, shape, List.filterMap_append, List.filterMap_append, ← ops, hnone, List.filterMap_map]
    simp [Call.op?, Function.comp_def]
  rw [hops]
  exact hfree requests _ rfl

/-- What is computed for collectives without a name holds for those of the library. -/
theorem ends_of_shape {κ : Type} [DecidableEq κ] {f : κ → Collective} (hf : Function.Injective f)
    {lib : Implementation (Fin 2) Collective} {ch : Choices κ}
    (hfinalize : lib.finalizeWaits = ch.finalizeWaits)
    (hwaits : ∀ kind, ∀ i j : Fin 2, j ≠ i → lib.waits (f kind) i j = ch.waits kind i j)
    {collectives : Fin 2 → List (κ × Nat)} {requests : List Nat}
    {P : Config (Fin 2) (Fin 2) κ → Prop} [DecidablePred P] (hP : ∀ c c', Same c c' → P c → P c')
    (h : ch.check (shape collectives requests) P = true) :
    Ends (next lib)
      (start (shape (fun rank => (collectives rank).map fun e => (f e.1, e.2)) requests))
      fun t => ∃ t', P t' ∧ t'.rename f = t := by
  have hagree : Agree (shape collectives requests) (lib.comap f) ch.library := by
    refine ⟨fun i e _ j hj => hwaits e.1 i j hj, hfinalize, fun i k hk => ?_⟩
    rw [outbox_shape] at hk
    exact absurd hk (Nat.not_lt_zero k)
  have hrename : (start (shape collectives requests)).rename f =
      start (shape (fun rank => (collectives rank).map fun e => (f e.1, e.2)) requests) := by
    simp only [start, Config.rename, shape_rename, List.map_nil]
  rw [← hrename]
  exact ends_rename hf (ends_of_check hP hagree h)

/-- Every rank that needs the data of another one waits for it. -/
def Conforms (lib : Implementation (Fin 2) Collective) : Prop :=
  ∀ i j c, j ≠ i → c.Needs i j → lib.waits c i j = true

/-- The choices of the library for two collectives, and for one. -/
def twoOf (lib : Implementation (Fin 2) Collective) (f : Bool → Collective) : Choices Bool :=
  two lib.finalizeWaits (lib.waits (f true) 0 1) (lib.waits (f true) 1 0) (lib.waits (f false) 0 1)
    (lib.waits (f false) 1 0)

def oneOf (lib : Implementation (Fin 2) Collective) (c : Collective) : Choices Unit :=
  one lib.finalizeWaits (lib.waits c 0 1) (lib.waits c 1 0)

theorem twoOf_waits (lib : Implementation (Fin 2) Collective) (f : Bool → Collective)
    (kind : Bool) :
    ∀ i j : Fin 2, j ≠ i → lib.waits (f kind) i j = (twoOf lib f).waits kind i j := by
  intro i j hj
  match kind, i, j with
  | true, 0, 1 | true, 1, 0 | false, 0, 1 | false, 1, 0 => rfl
  | _, 0, 0 | _, 1, 1 => exact absurd rfl hj

theorem oneOf_waits (lib : Implementation (Fin 2) Collective) (c : Collective) (kind : Unit) :
    ∀ i j : Fin 2, j ≠ i → lib.waits c i j = (oneOf lib c).waits kind i j := by
  intro i j hj
  match i, j with
  | 0, 1 | 1, 0 => rfl
  | 0, 0 | 1, 1 => exact absurd rfl hj

/-- Two collectives are the same, or not, as two names are. -/
theorem exists_names (c1 c2 : Collective) :
    ∃ (f : Bool → Collective) (k : Bool), Function.Injective f ∧ f true = c1 ∧ f k = c2 := by
  have hinj : ∀ c c' : Collective, c ≠ c' →
      Function.Injective fun b => if b = true then c else c' := by
    intro c c' hne b b' h
    cases b <;> cases b' <;> grind
  by_cases h : c1 = c2
  · obtain ⟨c', hne⟩ : ∃ c', c1 ≠ c' := by
      by_cases hbarrier : c1 = .MPI_Barrier
      · exact ⟨.MPI_Bcast, by rw [hbarrier]; decide⟩
      · exact ⟨_, hbarrier⟩
    exact ⟨_, true, hinj c1 c' hne, rfl, h⟩
  · exact ⟨_, false, hinj c1 c2 h, rfl, rfl⟩

theorem collMatching_ends (lib : Implementation (Fin 2) Collective) {f : MatchingFile}
    (hf : ∀ c1 c2, f = .callOrder c1 c2 → c1 ≠ c2) :
    Ends (next lib) (start f.program) fun t =>
      (Finished t ↔ ¬ f.Blocks lib) ∧ ∀ c1 c2, f = .callOrder c1 c2 → Mismatched t := by
  rw [f.program_eq]
  have hrequests := f.requests_mem
  have hfinished : ∀ {κ : Type} (c c' : Config (Fin 2) (Fin 2) κ),
      Same c c' → Finished c → Finished c' :=
    fun _ _ hsame => (finished_same hsame).mp
  cases f with
  | correctTwo c1 c2 =>
    obtain ⟨f, k, hinj, rfl, rfl⟩ := exists_names c1 c2
    refine (ends_of_shape hinj rfl (twoOf_waits lib f) hfinished
      (correctTwo_check k _ hrequests _ _ _ _ _)).mono ?_
    rintro t ⟨t', ht', rfl⟩
    exact ⟨iff_of_true ((finished_rename f t').mpr ht') id, nofun⟩
  | correct c1 | noneOk c1 =>
    refine (ends_of_shape (Function.injective_of_subsingleton fun _ : Unit => c1) rfl
      (oneOf_waits lib c1) hfinished (correct_check _ hrequests _ _ _)).mono ?_
    rintro t ⟨t', ht', rfl⟩
    exact ⟨iff_of_true ((finished_rename _ t').mpr ht') id, nofun⟩
  | callOrder c1 c2 =>
    have hne := hf c1 c2 rfl
    have hinj : Function.Injective fun b => if b = true then c1 else c2 := by
      intro b b' h
      cases b <;> cases b' <;> grind
    have hcalls : (fun rank => (MatchingFile.callOrder c1 c2).calls rank) = fun rank : Fin 2 =>
        (if rank = 1 then [(true, 1), (false, 2)] else [(false, 2), (true, 1)]).map
          fun e => ((if e.1 = true then c1 else c2), e.2) := by
      funext rank
      rw [MatchingFile.calls]
      split
      · rfl
      · rfl
    have hcheck := callOrder_check _ hrequests lib.finalizeWaits (lib.waits c1 0 1)
      (lib.waits c1 1 0) (lib.waits c2 0 1) (lib.waits c2 1 0)
    rw [hcalls]
    refine (ends_of_shape hinj rfl (twoOf_waits lib _) (fun c c' hsame hc => ?_) hcheck).mono ?_
    · refine ⟨?_, (finished_same hsame).symm.trans hc.2⟩
      rw [Mismatched, ← hsame.entered]
      exact hc.1
    · rintro t ⟨t', ht', rfl⟩
      exact ⟨(finished_rename _ t').trans ht'.2, fun _ _ _ => mismatched_rename hinj ht'.1⟩
  | noneNok c1 =>
    have hcalls : (fun rank => (MatchingFile.noneNok c1).calls rank) = fun rank : Fin 2 =>
        (if rank = 1 then [((), 1)] else []).map fun e => (c1, e.2) := by
      funext rank
      rw [MatchingFile.calls]
      split
      · rfl
      · rfl
    have hcheck := none_check _ hrequests lib.finalizeWaits (lib.waits c1 0 1) (lib.waits c1 1 0)
    rw [hcalls]
    refine (ends_of_shape (Function.injective_of_subsingleton fun _ : Unit => c1) rfl
      (oneOf_waits lib c1) (fun _ _ hsame hc => (finished_same hsame).symm.trans hc) hcheck).mono ?_
    rintro t ⟨t', ht', rfl⟩
    exact ⟨(finished_rename _ t').trans ht', nofun⟩

/-- `OK`, or `ERROR: CallMatching` -/
def MatchingFile.labelledOK : MatchingFile → Bool
  | callOrder _ _ | noneNok _ => false
  | _ => true

/-- Every run does what the header says. -/
def MatchingFile.Describes (lib : Implementation (Fin 2) Collective) (f : MatchingFile) : Prop :=
  if f.labelledOK then Completes lib f.program else Deadlocks lib f.program

theorem needs_or (c : Collective) : c.Needs 0 1 ∨ c.Needs 1 0 := by
  cases c <;> simp [Collective.Needs, Collective.root]

/-- The library in which no rank waits longer than it has to. -/
theorem exists_conforms : ∃ lib, Conforms lib ∧ ∀ i j c, lib.waits c i j = true ↔ c.Needs i j := by
  classical
  exact ⟨⟨⟨fun _ => true, false⟩, fun c i j => decide (c.Needs i j)⟩,
    fun i j c _ h => decide_eq_true h, fun i j c => decide_eq_true_iff⟩

/-- **The order of collectives.** In every run of a program of the wrong order the first
collectives do not match, and a program deadlocks iff a rank waits in them for the other.
The headers are right for all libraries that conform but for a collective of odd ranks
in which these need nothing of the others. -/
theorem collMatching_labels {f : MatchingFile} (hf : ∀ c1 c2, f = .callOrder c1 c2 → c1 ≠ c2) :
    (∀ lib : Implementation (Fin 2) Collective, Ends (next lib) (start f.program) fun t =>
      (Finished t ↔ ¬ f.Blocks lib) ∧ ∀ c1 c2, f = .callOrder c1 c2 → Mismatched t) ∧
    ((∀ lib, Conforms lib → f.Describes lib) ↔ ∀ c1, f = .noneNok c1 → c1.Needs 1 0) := by
  have hends := fun lib => collMatching_ends lib hf
  have hcompletes : ∀ lib, ¬ f.Blocks lib → Completes lib f.program :=
    fun lib h => (hends lib).mono fun t ht => ht.1.mpr h
  have hdeadlocks : ∀ lib, f.Blocks lib → Deadlocks lib f.program :=
    fun lib h => (hends lib).mono fun t ht hfinished => ht.1.mp hfinished h
  refine ⟨hends, ?_⟩
  cases f with
  | correctTwo | correct | noneOk => exact iff_of_true (fun lib _ => hcompletes lib id) nofun
  | callOrder c1 c2 =>
    refine iff_of_true (fun lib hconforms => hdeadlocks lib ?_) nofun
    rcases needs_or c1 with h | h
    · exact .inl (hconforms 0 1 c1 (by decide) h)
    · exact .inr (.inl (hconforms 1 0 c1 (by decide) h))
  | noneNok c1 =>
    constructor
    · intro hall c hc
      obtain rfl := MatchingFile.noneNok.inj hc
      by_contra hneeds
      obtain ⟨lib, hconforms, hwaits⟩ := exists_conforms
      refine not_deadlocks (hcompletes lib fun h => hneeds ?_) (hall lib hconforms)
      exact (hwaits 1 0 c1).mp h
    · exact fun hneeds lib hconforms =>
        hdeadlocks lib (hconforms 1 0 c1 (by decide) (hneeds c1 rfl))

/-- A broadcast and a reduction in the wrong order. -/
theorem bcast_reduce_order :
    (∀ lib : Implementation (Fin 2) Collective,
      Ends (next lib) (start (MatchingFile.callOrder .MPI_Bcast .MPI_Reduce).program) Mismatched) ∧
    ∀ lib, Conforms lib →
      Deadlocks lib (MatchingFile.callOrder .MPI_Bcast .MPI_Reduce).program := by
  have hlabels := @collMatching_labels (.callOrder .MPI_Bcast .MPI_Reduce) fun c1 c2 h => by
    cases h
    decide
  exact ⟨fun lib => (hlabels.1 lib).mono fun t ht => ht.2 _ _ rfl, hlabels.2.mpr nofun⟩

/-! ## A collective beside a message -/

section

variable {κ : Type}

/-- Rank 0 enters the collective before it sends, and rank 1 after it has received. -/
def beside (k : κ) (s : SendCall) (r : RecvCall) (rank : Fin 2) : Calls 2 κ :=
  (if rank = 0 then [.enter k 3, .leave 3] ++ (s.operation (opposite 0) rank 1 ++ s.fini 1)
  else r.operation (opposite 1) 2 ++ r.fini 2 ++ [.enter k 3, .leave 3]) ++
    (s.free 1 ++ r.free 2) ++ [.op .finalize]

theorem beside_rename {κ' : Type} (f : κ → κ') (k : κ) (s : SendCall) (r : RecvCall)
    (rank : Fin 2) :
    (beside k s r rank).map (Call.rename f) = beside (f k) s r rank := by
  match rank with
  | 0 | 1 => cases s <;> cases r <;> rfl

end

/-- `CollP2PCallMatching_{r}_{s}_{c}_nok.c` -/
def collP2P (s : SendCall) (r : RecvCall) (c : Collective) (rank : Fin 2) : Calls 2 Collective :=
  (if rank = 0 then c.operation 3 ++ c.fini 3 ++ (s.operation (opposite 0) rank 1 ++ s.fini 1)
  else r.operation (opposite 1) 2 ++ r.fini 2 ++ (c.operation 3 ++ c.fini 3)) ++
    (s.free 1 ++ r.free 2 ++ c.free 3) ++ [.op .finalize]

theorem collP2P_eq (s : SendCall) (r : RecvCall) {c : Collective} (hc : c ∈ Collective.coll) :
    collP2P s r c = beside c s r := by
  have hfree : ∀ c ∈ Collective.coll, c.freesRequest = false := by decide
  funext rank
  simp only [collP2P, beside, Collective.operation_fini, Collective.free, hfree c hc,
    Bool.false_eq_true, if_false, List.append_nil]

/-- Nothing has been received, or all. -/
def Settled (blocked : Bool) {κ : Type} (t : Config (Fin 2) (Fin 2) κ) : Prop :=
  if blocked then ¬ Finished t ∧ t.matched = []
  else Finished t ∧ t.matched.Perm [((0, 0), (1, 0))]

instance (blocked : Bool) {κ : Type} [DecidableEq κ] (t : Config (Fin 2) (Fin 2) κ) :
    Decidable (Settled blocked t) :=
  match blocked with
  | true => inferInstanceAs (Decidable (¬ _ ∧ _))
  | false => inferInstanceAs (Decidable (_ ∧ _))

theorem beside_check : ∀ s ∈ send ++ isend, ∀ r ∈ recv ++ irecv, ∀ eager0 w a b : Bool,
    Choices.check { one w a b with eager0 } (beside () s r) (Settled a) = true := by
  decide +kernel

theorem settled_same {κ : Type} {blocked : Bool} {t t' : Config (Fin 2) (Fin 2) κ}
    (hsame : Same t t') (h : Settled blocked t) : Settled blocked t' := by
  cases blocked with
  | true => exact ⟨fun hfinished => h.1 ((finished_same hsame).mpr hfinished),
      (h.2 ▸ hsame.matched).nil_eq.symm⟩
  | false => exact ⟨(finished_same hsame).mp h.1, hsame.matched.symm.trans h.2⟩

theorem settled_rename {κ κ' : Type} {f : κ → κ'} {blocked : Bool} {t : Config (Fin 2) (Fin 2) κ}
    (h : Settled blocked t) : Settled blocked (t.rename f) := by
  cases blocked with
  | true => exact ⟨fun hfinished => h.1 ((finished_rename f t).mp hfinished), h.2⟩
  | false => exact ⟨(finished_rename f t).mpr h.1, h.2⟩

theorem collP2P_ends (lib : Implementation (Fin 2) Collective) {s : SendCall}
    (hs : s ∈ send ++ isend) {r : RecvCall} (hr : r ∈ recv ++ irecv) {c : Collective}
    (hc : c ∈ Collective.coll) :
    Ends (next lib) (start (collP2P s r c)) (Settled (lib.waits c 0 1)) := by
  have hagree : Agree (beside () s r) (lib.comap fun _ => c)
      (Choices.library { oneOf lib c with eager0 := lib.eager (0, 0) }) := by
    refine ⟨fun i e _ j hj => oneOf_waits lib c e.1 i j hj, rfl, fun i k hk => ?_⟩
    have hlength : (Local.run (ops (beside () s r i))).outbox.length = if i = 0 then 1 else 0 := by
      match i with
      | 0 | 1 => cases s <;> cases r <;> first | rfl | exact absurd hs (by decide)
    rw [hlength] at hk
    match i, k with
    | 0, 0 => rfl
    | 1, k => exact absurd hk (Nat.not_lt_zero k)
  have hends := ends_of_check (fun _ _ => settled_same) hagree
    (beside_check s hs r hr (lib.eager (0, 0)) lib.finalizeWaits (lib.waits c 0 1)
      (lib.waits c 1 0))
  have hrename : (start (beside () s r)).rename (fun _ => c) = start (beside c s r) := by
    simp only [start, Config.rename, beside_rename, List.map_nil]
  rw [collP2P_eq s r hc, ← hrename]
  refine (ends_rename (Function.injective_of_subsingleton _) hends).mono ?_
  rintro t ⟨t', ht', rfl⟩
  exact settled_rename ht'

/-- **A collective beside a message** deadlocks, with nothing received, iff rank 0 waits for
rank 1 in it, and else the message arrives. So the header is right for all libraries that
conform iff rank 0 needs the data of rank 1. -/
theorem collP2P_labels {s : SendCall} (hs : s ∈ send ++ isend) {r : RecvCall}
    (hr : r ∈ recv ++ irecv) {c : Collective} (hc : c ∈ Collective.coll) :
    (∀ lib : Implementation (Fin 2) Collective,
      Ends (next lib) (start (collP2P s r c)) (Settled (lib.waits c 0 1))) ∧
    ((∀ lib, Conforms lib → Deadlocks lib (collP2P s r c)) ↔ c.Needs 0 1) := by
  have hends := fun lib => collP2P_ends lib hs hr hc
  refine ⟨hends, fun hall => ?_, fun hneeds lib hconforms => ?_⟩
  · by_contra hneeds
    obtain ⟨lib, hconforms, hwaits⟩ := exists_conforms
    have hnot : lib.waits c 0 1 = false :=
      Bool.eq_false_iff.mpr fun h => hneeds ((hwaits 0 1 c).mp h)
    have hsettled := hends lib
    rw [hnot] at hsettled
    exact not_deadlocks (hsettled.mono fun t ht => ht.1) (hall lib hconforms)
  · have hsettled := hends lib
    rw [hconforms 0 1 c (by decide) hneeds] at hsettled
    exact hsettled.mono fun t ht => ht.1

/-- Beside a broadcast some libraries do not deadlock. -/
theorem bcast_beside :
    ¬ ∀ lib, Conforms lib → Deadlocks lib (collP2P .MPI_Send .MPI_Recv .MPI_Bcast) := by
  intro hall
  have hneeds := (@collP2P_labels .MPI_Send (by decide) .MPI_Recv (by decide) .MPI_Bcast
    (by decide)).2.mp hall
  exact absurd hneeds (by decide : (1 : Fin 2) ≠ 0)

end MpiBugs.CollectiveCalls
