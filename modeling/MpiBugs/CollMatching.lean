import MpiBugs.Generators

/-!
# Programs with one collective

The loops of `CollMatchingGenerator.py`. All variants of a collective share one
dictionary, which the inner loop over the second collective builds anew; the two
programs with a single collective are made from what its last round leaves.

* `innerLoop_concat`: what the inner loop leaves;
* `singles_agree_iff`: when those two programs are the same for two choices of
  the other collectives.
-/

namespace MpiBugs.CollMatching

open Generators
open scoped Features

structure Lists where
  coll : List Text
  icoll : List Text
  ibarrier : List Text

def Lists.all (L : Lists) : List Text := L.coll ++ L.icoll ++ L.ibarrier

/-- The names of the files, which differ as these do. -/
inductive FileName
  /-- `CollCorrect_{c1}_{c2}.c` -/
  | correctTwo (c1 c2 : Text)
  /-- `CollCorrect_{c1}.c` -/
  | correct (c1 : Text)
  /-- `CollCallOrder_{c1}_{c2}_nok.c` -/
  | callOrder (c1 c2 : Text)
  /-- `CollCallOrder_{c1}_none_nok.c` -/
  | noneNok (c1 : Text)
  /-- `CollCallOrder_{c1}_none_ok.c` -/
  | noneOk (c1 : Text)
  deriving DecidableEq, Repr

/-- The dictionary `patterns`, which is also `replace`. -/
structure Patterns where
  c1 : Text := []
  c2 : Text := []
  collfeature : Characterization := .Lacking
  icollfeature : Characterization := .Lacking
  init1 : Text := []
  init2 : Text := []
  fini1a : Text := []
  fini2a : Text := []
  fini1b : Text := []
  fini2b : Text := []
  free1 : Text := []
  free2 : Text := []
  operation1a : Text := []
  operation1b : Text := []
  operation2a : Text := []
  operation2b : Text := []
  change_cond : Text := []
  shortdesc : Text := []
  longdesc : Text := []
  outcome : Text := []
  errormsg : Text := []
  /-- set once, and used by no template -/
  free2a : Option Text := none

def callMatching : Text := "ERROR: CallMatching".toList

section Generator

variable (T : Tables) (L : Lists)

/-- The dictionary with which a round of the inner loop begins. -/
def patterns (c1 c2 : Text) : Patterns where
  c1 := c1
  c2 := c2
  collfeature := yesIf (c1 ∈ L.coll ∨ c2 ∈ L.coll)
  icollfeature := yesIf (c1 ∈ L.icoll ++ L.ibarrier ∨ c2 ∈ L.icoll ++ L.ibarrier)
  init1 := T.init c1 ['1']
  init2 := T.init c2 ['2']
  fini1a := T.fini c1 ['1']
  fini2a := T.fini c2 ['2']
  fini1b := T.fini c1 ['1']
  fini2b := T.fini c2 ['2']
  free1 := T.free c1 ['1']
  free2 := T.free c2 ['2']
  operation1a := T.operation c1 ['1']
  operation1b := T.operation c1 ['1']
  operation2a := T.operation c2 ['2']
  operation2b := T.operation c2 ['2']
  change_cond := "rank % 2".toList

/-- The two programs of one round, and the dictionary it leaves. -/
def round (c1 c2 : Text) : List (Call FileName Patterns) × Patterns :=
  let replace := { patterns T L c1 c2 with
    shortdesc := "Correct collective ordering".toList
    outcome := "OK".toList
    errormsg := [] }
  if c1 = c2 then
    let twice := { replace with longdesc := "All ranks call ".toList ++ c1 ++ " twice".toList }
    let once := { twice with
      longdesc := "All ranks call ".toList ++ c1 ++ " once".toList
      init2 := []
      operation2a := []
      operation2b := []
      fini2a := []
      fini2b := []
      free2 := [] }
    ([⟨.correctTwo c1 c2, twice⟩, ⟨.correct c1, once⟩], once)
  else
    let correct := { replace with
      longdesc := "All ranks call ".toList ++ c1 ++ " and then ".toList ++ c2 }
    let incorrect := { correct with
      shortdesc := "Incorrect collective ordering".toList
      longdesc := "Odd ranks call ".toList ++ c1 ++ " and then ".toList ++ c2 ++
        " while even ranks call these collectives in the other order".toList
      outcome := callMatching
      errormsg := "Collective mistmatch. @\x7bc1\x7d@ at @\x7bfilename\x7d@:@\x7bline:MBIERROR1\x7d@ is matched with @\x7bc2\x7d@ line @\x7bfilename\x7d@:@\x7bline:MBIERROR2\x7d@.".toList
      operation1b := T.operation c2 ['2']
      operation2b := T.operation c1 ['1']
      fini1a := T.fini c1 ['1']
      fini2a := T.fini c2 ['2']
      fini1b := T.fini c2 ['2']
      fini2b := T.fini c1 ['1']
      free1 := T.free c2 ['2']
      free2 := T.free c1 ['1'] }
    ([⟨.correctTwo c1 c2, correct⟩, ⟨.callOrder c1 c2, incorrect⟩], incorrect)

def innerLoop (c1 : Text) (c2s : List Text) : List (Call FileName Patterns) × Patterns :=
  c2s.foldl (fun s c2 => (s.1 ++ (round T L c1 c2).1, (round T L c1 c2).2)) ([], {})

/-- One collective, called by half of the ranks. -/
def oneNok (c1 : Text) (p : Patterns) : Patterns :=
  { p with
    shortdesc := "Incorrect collective ordering".toList
    longdesc := "Odd ranks call ".toList ++ c1 ++
      " while even ranks do not call any collective".toList
    outcome := callMatching
    errormsg := "Collective mistmatch. @\x7bc1\x7d@ at @\x7bfilename\x7d@:@\x7bline:MBIERROR1\x7d@ is not matched.".toList
    operation1b := []
    operation2b := []
    operation2a := []
    fini1b := []
    fini2a := []
    fini2b := [] }

/-- The same under a condition that does not depend on the rank; `c2` still is the
last collective of the inner loop. -/
def oneOk (c1 : Text) (p : Patterns) : Patterns :=
  { p with
    shortdesc := "Correct collective ordering".toList
    longdesc := "All ranks call ".toList ++ c1 ++ " and then ".toList ++ p.c2 ++
      " or inversely".toList
    outcome := "OK".toList
    errormsg := []
    change_cond := "nprocs<256".toList
    operation2b := []
    operation2a := []
    fini2b := []
    free2a := some [] }

/-- A round of the outer loop. -/
def outerRound (c1 : Text) : List (Call FileName Patterns) :=
  let (calls, p) := innerLoop T L c1 L.all
  calls ++ [⟨.noneNok c1, oneNok c1 p⟩, ⟨.noneOk c1, oneOk c1 (oneNok c1 p)⟩]

def generate : List (Call FileName Patterns) := L.all.flatMap (outerRound T L)

end Generator

/-! ## Parts of a program -/

/-- The parts of the text that are filled in, but for the description. -/
structure Parts where
  header : Characterization × Characterization
  declarations : Text × Text
  /-- the condition, and in each branch the calls and what completes them -/
  change_cond : Text
  calls : List Text
  frees : Text × Text
  deriving DecidableEq, Repr

def Patterns.parts (p : Patterns) : Parts where
  header := (p.collfeature, p.icollfeature)
  declarations := (p.init1, p.init2)
  change_cond := p.change_cond
  calls := [p.operation1a, p.fini1a, p.operation2a, p.fini2a,
    p.operation1b, p.fini1b, p.operation2b, p.fini2b]
  frees := (p.free1, p.free2)

/-- The program in a file in the end. -/
def program (T : Tables) (L : Lists) (f : FileName) : Option Parts :=
  (directory (generate T L) f).map Patterns.parts

/-- The collective of the last round, in every inner loop. -/
def Lists.last (L : Lists) (c1 : Text) : Text := L.all.getLastD c1

/-- Nothing is declared or freed for `d`, nor is anything freed for `c1`. -/
structure Blank (T : Tables) (c1 d : Text) : Prop where
  init : T.init d ['2'] = []
  free : T.free d ['2'] = []
  free_one : T.free c1 ['1'] = []

/-- The last collectives leave the same declarations and frees. -/
def SameEnd (T : Tables) (c1 d d' : Text) : Prop :=
  (d = c1 ∧ d' = c1) ∨ (d = c1 ∧ d' ≠ c1 ∧ Blank T c1 d') ∨ (d ≠ c1 ∧ d' = c1 ∧ Blank T c1 d) ∨
    (d ≠ c1 ∧ d' ≠ c1 ∧ T.init d ['2'] = T.init d' ['2'] ∧ T.free d ['2'] = T.free d' ['2'])

/-- The last collectives leave the same labels. -/
structure SameLabels (L L' : Lists) (c1 : Text) : Prop where
  coll : (c1 ∈ L.coll ∨ L.last c1 ∈ L.coll) ↔ (c1 ∈ L'.coll ∨ L'.last c1 ∈ L'.coll)
  icoll : (c1 ∈ L.icoll ++ L.ibarrier ∨ L.last c1 ∈ L.icoll ++ L.ibarrier) ↔
    (c1 ∈ L'.icoll ++ L'.ibarrier ∨ L'.last c1 ∈ L'.icoll ++ L'.ibarrier)

/-! ## What the inner loop leaves -/

section Generator

variable {T : Tables} {L : Lists}

/-- **The inner loop leaves the dictionary of its last round.** -/
theorem innerLoop_concat (c1 d : Text) (c2s : List Text) :
    (innerLoop T L c1 (c2s ++ [d])).2 = (round T L c1 d).2 := by
  rw [innerLoop, List.foldl_append]
  rfl

theorem innerLoop_last {c1 : Text} (h : c1 ∈ L.all) :
    (innerLoop T L c1 L.all).2 = (round T L c1 (L.last c1)).2 := by
  obtain ⟨c2s, d, hd⟩ := List.eq_nil_or_concat L.all |>.resolve_left (List.ne_nil_of_mem h)
  have hlast : L.last c1 = d := by simp [Lists.last, hd]
  rw [hlast, hd, List.concat_eq_append, innerLoop_concat]

/-- No round of the inner loop writes a program with a single collective. -/
theorem innerLoop_filename (c1 : Text) (c2s : List Text) :
    ∀ call ∈ (innerLoop T L c1 c2s).1, ∀ c, call.filename ≠ .noneNok c ∧ call.filename ≠ .noneOk c := by
  induction c2s using List.reverseRecOn with
  | nil => simp [innerLoop]
  | append_singleton c2s d ih =>
    intro call hcall c
    have hcalls : (innerLoop T L c1 (c2s ++ [d])).1 =
        (innerLoop T L c1 c2s).1 ++ (round T L c1 d).1 := by
      rw [innerLoop, List.foldl_append]
      rfl
    rw [hcalls, List.mem_append] at hcall
    rcases hcall with hcall | hcall
    · exact ih call hcall c
    · by_cases hd : c1 = d
      · rw [round, if_pos hd] at hcall
        rcases List.mem_pair.mp hcall with rfl | rfl <;> simp
      · rw [round, if_neg hd] at hcall
        rcases List.mem_pair.mp hcall with rfl | rfl <;> simp

/-- The two programs are made from what the inner loop leaves. -/
theorem directory_generate {c1 : Text} (h : c1 ∈ L.all) :
    directory (generate T L) (.noneNok c1) =
        some (oneNok c1 (round T L c1 (L.last c1)).2) ∧
      directory (generate T L) (.noneOk c1) =
        some (oneOk c1 (oneNok c1 (round T L c1 (L.last c1)).2)) := by
  have hround (b : Text) (f : FileName) : directory (outerRound T L b) f =
      (directory [⟨.noneNok b, oneNok b (innerLoop T L b L.all).2⟩,
        ⟨.noneOk b, oneOk b (oneNok b (innerLoop T L b L.all).2)⟩] f).or
          (directory (innerLoop T L b L.all).1 f) := directory_append _ _ f
  have hinner (b c : Text) : directory (innerLoop T L b L.all).1 (.noneNok c) = none ∧
      directory (innerLoop T L b L.all).1 (.noneOk c) = none :=
    ⟨directory_none fun call hcall => (innerLoop_filename b L.all call hcall c).1,
      directory_none fun call hcall => (innerLoop_filename b L.all call hcall c).2⟩
  rw [← innerLoop_last h]
  constructor
  · refine directory_flatMap h ?_ fun b hb => ?_
    · rw [hround]
      simp [directory]
    · rw [hround, (hinner b c1).1]
      simp [directory, Ne.symm hb]
  · refine directory_flatMap h ?_ fun b hb => ?_
    · rw [hround]
      simp [directory]
    · rw [hround, (hinner b c1).2]
      simp [directory, Ne.symm hb]

/-- What the last round leaves of the labels, the declarations and the frees. -/
theorem round_leaves (c1 d : Text) :
    (round T L c1 d).2.collfeature = yesIf (c1 ∈ L.coll ∨ d ∈ L.coll) ∧
    (round T L c1 d).2.icollfeature =
      yesIf (c1 ∈ L.icoll ++ L.ibarrier ∨ d ∈ L.icoll ++ L.ibarrier) ∧
    (round T L c1 d).2.init1 = T.init c1 ['1'] ∧
    (round T L c1 d).2.operation1a = T.operation c1 ['1'] ∧
    (round T L c1 d).2.fini1a = T.fini c1 ['1'] ∧
    (round T L c1 d).2.change_cond = "rank % 2".toList := by
  by_cases h : c1 = d
  · rw [round, if_pos h]
    exact ⟨rfl, rfl, rfl, rfl, rfl, rfl⟩
  · rw [round, if_neg h]
    exact ⟨rfl, rfl, rfl, rfl, rfl, rfl⟩

def endOf (T : Tables) (c1 d : Text) : Text × Text × Text :=
  if d = c1 then ([], T.free c1 ['1'], []) else (T.init d ['2'], T.free d ['2'], T.free c1 ['1'])

theorem round_end (c1 d : Text) :
    ((round T L c1 d).2.init2, (round T L c1 d).2.free1, (round T L c1 d).2.free2) =
      endOf T c1 d := by
  by_cases h : c1 = d
  · rw [round, if_pos h, endOf, if_pos h.symm]
    rfl
  · rw [round, if_neg h, endOf, if_neg (Ne.symm h)]
    rfl

/-- **When the last rounds leave the same declarations and frees.** -/
theorem endOf_eq_iff (c1 d d' : Text) : endOf T c1 d = endOf T c1 d' ↔ SameEnd T c1 d d' := by
  have hblank (d : Text) : (([], T.free c1 ['1'], []) : Text × Text × Text) =
      (T.init d ['2'], T.free d ['2'], T.free c1 ['1']) ↔ Blank T c1 d := by
    simp only [Prod.mk.injEq]
    constructor
    · rintro ⟨hinit, hfree, hone⟩
      exact ⟨hinit.symm, by rw [← hfree, ← hone], hone.symm⟩
    · rintro ⟨hinit, hfree, hone⟩
      exact ⟨hinit.symm, by rw [hfree, hone], hone.symm⟩
  by_cases h : d = c1
  · by_cases h' : d' = c1
    · simp [endOf, SameEnd, h, h']
    · simp only [endOf, SameEnd, if_pos h, if_neg h', hblank]
      simp [h, h']
  · by_cases h' : d' = c1
    · simp only [endOf, SameEnd, if_neg h, if_pos h', eq_comm (b := (([], T.free c1 ['1'], []) : Text × Text × Text)), hblank]
      simp [h, h']
    · simp [endOf, SameEnd, h, h']

end Generator

/-! ## Two choices of the other collectives -/

section TwoRuns

variable {T : Tables} {L L' : Lists} {c1 : Text}

/-- The parts of both programs are the labels, the ends and texts of `c1`. -/
theorem single_parts (d : Text) :
    (oneNok c1 (round T L c1 d).2).parts =
      ⟨(yesIf (c1 ∈ L.coll ∨ d ∈ L.coll),
          yesIf (c1 ∈ L.icoll ++ L.ibarrier ∨ d ∈ L.icoll ++ L.ibarrier)),
        (T.init c1 ['1'], (endOf T c1 d).1), "rank % 2".toList,
        [T.operation c1 ['1'], T.fini c1 ['1'], [], [], [], [], [], []], (endOf T c1 d).2⟩ ∧
    (oneOk c1 (oneNok c1 (round T L c1 d).2)).parts =
      { (oneNok c1 (round T L c1 d).2).parts with change_cond := "nprocs<256".toList } := by
  obtain ⟨hcoll, hicoll, hinit, hoperation, hfini, hcond⟩ := @round_leaves T L c1 d
  refine ⟨?_, rfl⟩
  rw [← hcoll, ← hicoll, ← hinit, ← hoperation, ← hfini, ← hcond, ← @round_end T L c1 d]
  rfl

/-- **The programs with one collective are the same iff the last collectives
leave the same labels, declarations and frees.** -/
theorem singles_agree_iff (h : c1 ∈ L.all) (h' : c1 ∈ L'.all) :
    (program T L (.noneNok c1) = program T L' (.noneNok c1) ∧
      program T L (.noneOk c1) = program T L' (.noneOk c1)) ↔
    SameLabels L L' c1 ∧ SameEnd T c1 (L.last c1) (L'.last c1) := by
  have hlabels : SameLabels L L' c1 ↔
      yesIf (c1 ∈ L.coll ∨ L.last c1 ∈ L.coll) = yesIf (c1 ∈ L'.coll ∨ L'.last c1 ∈ L'.coll) ∧
      yesIf (c1 ∈ L.icoll ++ L.ibarrier ∨ L.last c1 ∈ L.icoll ++ L.ibarrier) =
        yesIf (c1 ∈ L'.icoll ++ L'.ibarrier ∨ L'.last c1 ∈ L'.icoll ++ L'.ibarrier) := by
    rw [yesIf_eq_iff, yesIf_eq_iff]
    exact ⟨fun h => ⟨h.coll, h.icoll⟩, fun h => ⟨h.1, h.2⟩⟩
  have hend : endOf T c1 (L.last c1) = endOf T c1 (L'.last c1) ↔
      (endOf T c1 (L.last c1)).1 = (endOf T c1 (L'.last c1)).1 ∧
        (endOf T c1 (L.last c1)).2 = (endOf T c1 (L'.last c1)).2 := Prod.ext_iff
  obtain ⟨hnok, hok⟩ := directory_generate (T := T) h
  obtain ⟨hnok', hok'⟩ := directory_generate (T := T) h'
  obtain ⟨hparts, hpartsOk⟩ := @single_parts T L c1 (L.last c1)
  obtain ⟨hparts', hpartsOk'⟩ := @single_parts T L' c1 (L'.last c1)
  simp only [program, hnok, hok, hnok', hok', Option.map_some, Option.some.injEq]
  rw [hpartsOk, hpartsOk', hparts, hparts', hlabels, ← endOf_eq_iff, hend]
  simp only [Parts.mk.injEq, Prod.mk.injEq, true_and, and_self]

end TwoRuns

/-! ## A broadcast, with and without a barrier after it -/

def bcast : Text := "MPI_Bcast".toList

def ibarrier : Text := "MPI_Ibarrier".toList

/-- The entries of the two collectives. -/
def sampleTables : Tables where
  init c n :=
    if c = bcast then "int buf".toList ++ n ++ "[buff_size];".toList
    else "MPI_Request req".toList ++ n ++ "=MPI_REQUEST_NULL; MPI_Status stat".toList ++ n ++
      ";".toList
  start _ _ := []
  operation c n :=
    if c = bcast then "MPI_Bcast(buf".toList ++ n ++ ", buff_size, type, root, newcom);".toList
    else "MPI_Ibarrier(newcom, &req".toList ++ n ++ ");".toList
  fini c n :=
    if c = bcast then []
    else "MPI_Wait(&req".toList ++ n ++ ", &stat".toList ++ n ++ ");".toList
  free c n :=
    if c = bcast then []
    else "if(req".toList ++ n ++ " != MPI_REQUEST_NULL) MPI_Request_free(&req".toList ++ n ++
      ");".toList
  write _ _ := []

def bcastOnly : Lists := ⟨[bcast], [], []⟩

def bcastAndBarrier : Lists := ⟨[bcast], [], [ibarrier]⟩

theorem singles_agree_sample :
    (program sampleTables bcastOnly (.noneNok bcast) =
        program sampleTables bcastAndBarrier (.noneNok bcast) ∧
      program sampleTables bcastOnly (.noneOk bcast) =
        program sampleTables bcastAndBarrier (.noneOk bcast)) ↔
    SameLabels bcastOnly bcastAndBarrier bcast ∧
      SameEnd sampleTables bcast (bcastOnly.last bcast) (bcastAndBarrier.last bcast) :=
  singles_agree_iff (by decide +kernel) (by decide +kernel)

/-- With the barrier, the program with one broadcast declares and frees its
request, and is labelled nonblocking. -/
theorem leaked_barrier :
    ¬ ∀ (T : Tables) (L L' : Lists) (c1 : Text), c1 ∈ L.all → c1 ∈ L'.all →
      (c1 ∈ L.coll ↔ c1 ∈ L'.coll) → (c1 ∈ L.icoll ↔ c1 ∈ L'.icoll) →
      (c1 ∈ L.ibarrier ↔ c1 ∈ L'.ibarrier) →
      program T L (.noneNok c1) = program T L' (.noneNok c1) ∧
        program T L (.noneOk c1) = program T L' (.noneOk c1) := by
  intro hsame
  have hdiffer : program sampleTables bcastOnly (.noneNok bcast) ≠
      program sampleTables bcastAndBarrier (.noneNok bcast) := by decide +kernel
  exact hdiffer (hsame sampleTables bcastOnly bcastAndBarrier bcast (by decide +kernel)
    (by decide +kernel) (by decide +kernel) (by decide +kernel) (by decide +kernel)).1

end MpiBugs.CollMatching
