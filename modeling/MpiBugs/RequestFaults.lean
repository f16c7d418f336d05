import MpiBugs.Generators

/-!
# Programs with one fault in the life of a request

The loops of `MissingWaitandStartGenerator.py`. From the dictionary of a correct
program the generator makes the erroneous ones, one after the other, by replacing
the text of one slot and restoring the one replaced before.

* `p2pRound_faults`, `collRound_faults`: in which slots the programs of a round
  differ from the correct one;
* `missingStart_faults`: a persistent collective without its start has two;
* `faults_iff`: all programs have one fault iff there is no persistent collective.
-/

namespace MpiBugs.RequestFaults

open Generators
open scoped Features

structure Lists where
  isend : List Text
  psend : List Text
  irecv : List Text
  precv : List Text
  pcoll : List Text
  icoll : List Text
  ibarrier : List Text

/-- The slots of the template that hold code, in its order. -/
inductive Slot
  | init1 | init2
  | operation1 | start1 | operation2 | start2
  | fini1 | fini2
  | free1 | free2
  deriving DecidableEq, Repr

/-- The names in the dictionary: `s` and `r`, or `c`. -/
inductive Primitives
  | p2p (s r : Text)
  | collective (c : Text)
  deriving DecidableEq, Repr

/-- The dictionary `patterns`, which is also `replace`. -/
structure Patterns where
  primitives : Primitives
  ip2pfeature : Characterization
  persfeature : Characterization
  icollfeature : Characterization
  cpersfeature : Characterization
  shortdesc : Text := []
  longdesc : Text := []
  outcome : Detail := .OK
  code : Slot → Text

/-- `OK`, or `ERROR: ` and the detail -/
def outcomeText (d : Detail) : Text := if d = .OK then "OK".toList else "ERROR: ".toList ++ d.key

/-- The error message of each program is its outcome. -/
def Patterns.errormsg (p : Patterns) : Text := outcomeText p.outcome

/-- The names of the files: what is wrong, and with which calls. -/
structure FileName where
  detail : Detail
  primitives : Primitives
  deriving DecidableEq, Repr

def Primitives.text : Primitives → Text
  | p2p s r => s ++ '_' :: r
  | collective c => c

def FileName.text (f : FileName) : Text :=
  if f.detail = .OK then "P2PCallMatching_".toList ++ f.primitives.text ++ "_ok.c".toList
  else f.detail.key ++ '_' :: (f.primitives.text ++ "_nok.c".toList)

/-- The text that stands for a call that is left out. -/
def missing (t : Text) : Text := " /* MBIERROR MISSING: ".toList ++ t ++ " */".toList

/-- What stands for the release of a request that is not waited for. -/
def notFreed (t : Text) : Text :=
  " /* MISSING: ".toList ++ t ++ " (to not free the buffer before an internal wait */".toList

/-- `Missing …. @{p}@ at @{filename}@:@{line:MBIERROR}@ has no …` -/
def hasNo (what name call : Text) : Text :=
  "Missing ".toList ++ what ++ ". @\x7b".toList ++ name ++
    "\x7d@ at @\x7bfilename\x7d@:@\x7bline:MBIERROR\x7d@ has no ".toList ++ call

section Generator

variable (T : Tables) (L : Lists)

/-- The code of the correct program. -/
def code : Primitives → Slot → Text
  | .p2p s _, .init1 => T.init s ['1']
  | .p2p _ r, .init2 => T.init r ['2']
  | .p2p s _, .start1 => T.start s ['1']
  | .p2p _ r, .start2 => T.start r ['2']
  | .p2p s _, .operation1 => T.operation s ['1']
  | .p2p _ r, .operation2 => T.operation r ['2']
  | .p2p s _, .fini1 => T.fini s ['1']
  | .p2p _ r, .fini2 => T.fini r ['2']
  | .p2p s _, .free1 => T.free s ['1']
  | .p2p _ r, .free2 => T.free r ['2']
  | .collective c, .init1 => T.init c ['1']
  | .collective c, .operation1 => T.operation c ['1']
  | .collective c, .start1 => T.start c ['1']
  | .collective c, .fini1 => T.fini c ['1']
  | .collective c, .free1 => T.free c ['1']
  | .collective _, _ => []

def Patterns.set (p : Patterns) (slot : Slot) (t : Text) : Patterns :=
  { p with code := Function.update p.code slot t }

/-- A round of the first loop. -/
def p2pRound (s r : Text) : List (Call FileName Patterns) :=
  let patterns : Patterns := {
    primitives := .p2p s r
    persfeature := yesIf (s ∈ L.psend ∨ r ∈ L.precv)
    ip2pfeature := yesIf (s ∈ L.isend ∨ r ∈ L.irecv)
    icollfeature := .Lacking
    cpersfeature := .Lacking
    code := code T (.p2p s r) }
  let startPers := patterns.code .start1
  let wait := patterns.code .fini1
  let Reqfree := patterns.code .free1
  let correct := { patterns with
    shortdesc := "Correct matching".toList
    longdesc := "No error".toList
    outcome := .OK }
  let missingWait := { correct with
    shortdesc := "Missing wait".toList
    longdesc := hasNo "Wait".toList "s".toList "completion.".toList
    outcome := .MissingWait }.set .fini1 (missing wait)
  let missingStart := ({ missingWait with
    shortdesc := "Missing start".toList
    longdesc := hasNo "start".toList "s".toList "start".toList
    outcome := .MissingStart }.set .fini1 (T.fini s ['1'])).set .start1 (missing startPers)
  let requestLeak := ({ missingStart with
    shortdesc := "Missing free".toList
    longdesc := hasNo "free".toList "s".toList "free".toList
    outcome := .RequestLeak }.set .start1 (T.start s ['1'])).set .free1 (missing Reqfree)
  [⟨⟨.OK, .p2p s r⟩, correct⟩, ⟨⟨.MissingWait, .p2p s r⟩, missingWait⟩] ++
    if s ∈ L.psend then
      [⟨⟨.MissingStart, .p2p s r⟩, missingStart⟩, ⟨⟨.RequestLeak, .p2p s r⟩, requestLeak⟩]
    else []

/-- A round of the loop over the collectives. -/
def collRound (c : Text) : List (Call FileName Patterns) :=
  let patterns : Patterns := {
    primitives := .collective c
    persfeature := .Lacking
    ip2pfeature := .Lacking
    cpersfeature := yesIf (c ∈ L.pcoll)
    icollfeature := yesIf (c ∈ L.icoll ++ L.ibarrier)
    code := code T (.collective c) }
  let opstart := patterns.code .start1
  let opwait := patterns.code .fini1
  let opfree := patterns.code .free1
  let missingWait := ({ patterns with
    shortdesc := "Missing wait".toList
    longdesc := hasNo "Wait".toList "c".toList "completion".toList
    outcome := .MissingWait }.set .fini1 (missing opwait)).set .free1
      (notFreed (patterns.code .free1))
  let missingStart := ({ missingWait with
    shortdesc := "Missing start functio".toList
    longdesc := hasNo "Start".toList "c".toList "start".toList
    outcome := .MissingStart }.set .fini1 (T.fini c ['1'])).set .start1 (missing opstart)
  let requestLeak := ({ missingStart with
    shortdesc := "Missing free".toList
    longdesc := hasNo "free".toList "c".toList "free".toList
    outcome := .RequestLeak }.set .start1 (T.start c ['1'])).set .free1 (missing opfree)
  [⟨⟨.MissingWait, .collective c⟩, missingWait⟩] ++
    if c ∈ L.pcoll then
      [⟨⟨.MissingStart, .collective c⟩, missingStart⟩, ⟨⟨.RequestLeak, .collective c⟩, requestLeak⟩]
    else []

def generate : List (Call FileName Patterns) :=
  (L.isend ++ L.psend).flatMap (fun s => (L.irecv ++ L.precv).flatMap (p2pRound T L s)) ++
    (L.pcoll ++ L.icoll ++ L.ibarrier).flatMap (collRound T L)

end Generator

/-! ## Faults -/

/-- The slots that an outcome says are faulty. Without its wait the request of a
collective is not freed either. -/
def faulty : Detail → Primitives → List Slot
  | .MissingWait, .p2p _ _ => [.fini1]
  | .MissingWait, .collective _ => [.fini1, .free1]
  | .MissingStart, _ => [.start1]
  | .RequestLeak, _ => [.free1]
  | _, _ => []

/-- The program differs from the correct one in the slots of its outcome. -/
def OneFault (T : Tables) (p : Patterns) : Prop :=
  ∀ slot, p.code slot ≠ code T p.primitives slot ↔ slot ∈ faulty p.outcome p.primitives

/-- A text with something before it is another text. -/
theorem append_ne {a : Text} (h : a ≠ []) (t b : Text) : a ++ t ++ b ≠ t := by
  intro heq
  have hlen := congrArg List.length heq
  have hpos := List.length_pos_of_ne_nil h
  rw [List.length_append, List.length_append] at hlen
  omega

theorem missing_ne (t : Text) : missing t ≠ t := append_ne (by decide) t _

theorem notFreed_ne (t : Text) : notFreed t ≠ t := append_ne (by decide) t _

section Generator

variable {T : Tables} {L : Lists}

@[simp] theorem set_code (p : Patterns) (slot slot' : Slot) (t : Text) :
    (p.set slot t).code slot' = if slot' = slot then t else p.code slot' := by
  show Function.update p.code slot t slot' = _
  rw [Function.update_apply]

@[simp] theorem set_primitives (p : Patterns) (slot : Slot) (t : Text) :
    (p.set slot t).primitives = p.primitives := rfl

@[simp] theorem set_outcome (p : Patterns) (slot : Slot) (t : Text) :
    (p.set slot t).outcome = p.outcome := rfl

/-- **The programs of a round of the first loop have one fault each.** -/
theorem p2pRound_faults (s r : Text) : ∀ call ∈ p2pRound T L s r, OneFault T call.replace := by
  intro call hcall
  rw [p2pRound, List.mem_append] at hcall
  rcases hcall with hcall | hcall
  · rcases List.mem_pair.mp hcall with rfl | rfl
    · intro slot
      simp [faulty]
    · intro slot
      cases slot <;> simp [faulty, code, missing_ne]
  · by_cases hs : s ∈ L.psend
    · rw [if_pos hs] at hcall
      rcases List.mem_pair.mp hcall with rfl | rfl
      · intro slot
        cases slot <;> simp [faulty, code, missing_ne]
      · intro slot
        cases slot <;> simp [faulty, code, missing_ne]
    · rw [if_neg hs] at hcall
      cases hcall

/-- **The programs of a round over the collectives have one fault each, unless
the start is missing**: then the request is not freed either. -/
theorem collRound_faults (c : Text) : ∀ call ∈ collRound T L c,
    call.replace.primitives = .collective c ∧
      (OneFault T call.replace ↔ call.replace.outcome ≠ .MissingStart) := by
  intro call hcall
  rw [collRound, List.mem_append] at hcall
  rcases hcall with hcall | hcall
  · obtain rfl := List.mem_singleton.mp hcall
    refine ⟨rfl, iff_of_true (fun slot => ?_) (by simp)⟩
    cases slot <;> simp [faulty, code, missing_ne, notFreed_ne]
  · by_cases hc : c ∈ L.pcoll
    · rw [if_pos hc] at hcall
      rcases List.mem_pair.mp hcall with rfl | rfl
      · refine ⟨rfl, iff_of_false (fun hone => ?_) (by simp)⟩
        have hfree := hone .free1
        simp [faulty, code, notFreed_ne] at hfree
      · refine ⟨rfl, iff_of_true (fun slot => ?_) (by simp)⟩
        cases slot <;> simp [faulty, code, missing_ne]
    · rw [if_neg hc] at hcall
      cases hcall

/-- The calls of the first loop, and those of the second. -/
theorem mem_generate_iff (call : Call FileName Patterns) :
    call ∈ generate T L ↔
      (∃ s ∈ L.isend ++ L.psend, ∃ r ∈ L.irecv ++ L.precv, call ∈ p2pRound T L s r) ∨
        ∃ c ∈ L.pcoll ++ L.icoll ++ L.ibarrier, call ∈ collRound T L c := by
  simp only [generate, List.mem_append, List.mem_flatMap]

/-- The outcomes of a collective, of which only one is not persistent. -/
theorem collRound_outcome {c : Text} {call : Call FileName Patterns}
    (h : call ∈ collRound T L c) (hstart : call.replace.outcome = .MissingStart) : c ∈ L.pcoll := by
  by_contra hc
  rw [collRound, if_neg hc, List.append_nil] at h
  obtain rfl := List.mem_singleton.mp h
  simp at hstart

/-- **A persistent collective without its start has two faults.** -/
theorem missingStart_faults {c : Text} (h : c ∈ L.pcoll) :
    ∃ call ∈ generate T L, call.replace.outcome = .MissingStart ∧ ¬ OneFault T call.replace := by
  have hround : ∃ call ∈ collRound T L c, call.replace.outcome = .MissingStart := by
    rw [collRound, if_pos h]
    exact ⟨_, List.mem_cons_of_mem _ (List.mem_cons_self ..), rfl⟩
  obtain ⟨call, hcall, hstart⟩ := hround
  refine ⟨call, (mem_generate_iff call).mpr (Or.inr ⟨c, by simp [h], hcall⟩), hstart, ?_⟩
  exact fun hone => (collRound_faults c call hcall).2.mp hone hstart

/-- **All erroneous programs have one fault each iff there is no persistent
collective.** -/
theorem faults_iff (T : Tables) (L : Lists) :
    (∀ call ∈ generate T L, call.replace.outcome ≠ .OK → OneFault T call.replace) ↔
      L.pcoll = [] := by
  constructor
  · intro hall
    refine List.eq_nil_iff_forall_not_mem.mpr fun c hc => ?_
    obtain ⟨call, hcall, hstart, hfaults⟩ := @missingStart_faults T L c hc
    exact hfaults (hall call hcall (by simp [hstart]))
  · intro hnone call hcall _
    rcases (mem_generate_iff call).mp hcall with ⟨s, _, r, _, hround⟩ | ⟨c, _, hround⟩
    · exact p2pRound_faults s r call hround
    · refine (collRound_faults c call hround).2.mpr fun hstart => ?_
      have hc := collRound_outcome hround hstart
      rw [hnone] at hc
      cases hc

end Generator

/-! ## A persistent barrier -/

/-- The entries of a collective that is started and completed by its request. -/
def persistentTables : Tables where
  init _ n := "MPI_Request req".toList ++ n ++ "=MPI_REQUEST_NULL;".toList
  start _ n := "MPI_Start(&req".toList ++ n ++ ");".toList
  operation _ n := "MPI_Barrier_init(newcom, MPI_INFO_NULL, &req".toList ++ n ++ ");".toList
  fini _ n := "MPI_Wait(&req".toList ++ n ++ ", MPI_STATUS_IGNORE);".toList
  free _ n := "MPI_Request_free(&req".toList ++ n ++ ");".toList
  write _ _ := []

def persistentLists : Lists := ⟨[], [], [], [], ["MPI_Barrier_init".toList], [], []⟩

/-- Without its start the barrier is not freed either. -/
theorem persistent_faults :
    ¬ ∀ (T : Tables) (L : Lists), ∀ call ∈ generate T L, call.replace.outcome ≠ .OK →
      OneFault T call.replace := by
  intro hall
  obtain ⟨call, hcall, hstart, hfaults⟩ :=
    @missingStart_faults persistentTables persistentLists _ (List.mem_singleton.mpr rfl)
  exact hfaults (hall _ _ call hcall (by simp [hstart]))

end MpiBugs.RequestFaults
