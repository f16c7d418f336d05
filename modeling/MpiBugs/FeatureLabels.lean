import MpiBugs.Generators

/-!
# Labels of the point-to-point programs

The loop of `P2PLocalConcurrencyGenerator.py` and the second loop of
`P2PMatchingGenerator.py`, each of which computes the labels of a program from
the pair of calls it makes.

* `localRound_labels_iff`, `matchingRound_labels_iff`: the pairs whose programs
  are labelled by the calls they make;
* `labels_iff`: both, for the programs that are written.
-/

namespace MpiBugs.FeatureLabels

open Generators
open scoped Features

/-- The families of calls of `generator_utils.py`. -/
structure Lists where
  send : List Text
  ssend : List Text
  bsend : List Text
  isend : List Text
  psend : List Text
  recv : List Text
  irecv : List Text
  precv : List Text

inductive Family
  | send | ssend | bsend | isend | psend | recv | irecv | precv
  deriving DecidableEq, Repr

def Lists.of (L : Lists) : Family → List Text
  | .send => L.send
  | .ssend => L.ssend
  | .bsend => L.bsend
  | .isend => L.isend
  | .psend => L.psend
  | .recv => L.recv
  | .irecv => L.irecv
  | .precv => L.precv

/-- No call is in two families. -/
def Lists.Apart (L : Lists) : Prop := ∀ f g, f ≠ g → (L.of f).Disjoint (L.of g)

inductive FileName
  /-- `P2PLocalConcurrency_{r}_{s}_nok.c` -/
  | localConcurrency (r s : Text)
  /-- `P2PCallMatching_{r}_{s}_nok.c` -/
  | callMatching (r s : Text)
  deriving DecidableEq, Repr

/-- The labels as they stand in the header of a program. -/
structure Labels where
  basic : Text
  nonblocking : Text
  persistent : Text
  deriving DecidableEq, Repr

/-- The code of a program, from the tables. -/
structure Code where
  init1 : Text
  init2 : Text
  operation1 : Text
  operation2 : Text
  fini1 : Text
  fini2 : Text
  start1 : Text := []
  start2 : Text := []
  write1 : Text := []
  write2 : Text := []

/-- The dictionary `patterns`, which is also `replace`. -/
structure Patterns where
  s : Text
  r : Text
  p2pfeature : Characterization
  ip2pfeature : Characterization
  persfeature : Option Characterization
  code : Code
  change_cond : Text := []
  shortdesc : Text := []
  longdesc : Text := []
  outcome : Text := []
  errormsg : Text := []

section Generators

variable (T : Tables) (L : Lists)

/-- The dictionary with which a round of the local concurrency programs begins. -/
def localPatterns (s r : Text) : Patterns where
  s := s
  r := r
  p2pfeature := yesIf (s ∈ L.send)
  ip2pfeature := yesIf (r ∈ L.irecv)
  persfeature := some (yesIf (r ∈ L.precv))
  code := {
    init1 := T.init s ['1']
    init2 := T.init r ['2']
    fini1 := T.fini s ['1']
    fini2 := T.fini r ['2']
    start1 := T.start s ['1']
    start2 := T.start r ['2']
    operation1 := T.operation s ['1']
    operation2 := T.operation r ['2']
    write1 := T.write s ['1']
    write2 := T.write r ['2'] }
  shortdesc := " Local Concurrency with a P2P".toList
  outcome := "ERROR: LocalConcurrency".toList

/-- A round of the local concurrency programs. -/
def localRound (s r : Text) : List (Call FileName Patterns) :=
  let patterns := localPatterns T L s r
  (if s ∈ L.send ∧ r ∈ L.irecv ++ L.precv then
    [⟨.localConcurrency r s, { patterns with
      longdesc := "The message buffer in ".toList ++ r ++
        " is modified before the call has been completed.".toList
      errormsg := "Local Concurrency with a P2P. The receive buffer in @\x7br\x7d@ is modified at @\x7bfilename\x7d@:@\x7bline:MBIERROR2\x7d@ whereas there is no guarantee the message has been received.".toList }⟩]
    else []) ++
  (if s ∈ L.isend ++ L.psend ∧ r ∈ L.recv then
    [⟨.localConcurrency r s, { patterns with
      longdesc := "The message buffer in ".toList ++ s ++
        " is modified before the call has been completed.".toList
      errormsg := "Local Concurrency with a P2P. The send buffer in @\x7bs\x7d@ is modified at @\x7bfilename\x7d@:@\x7bline:MBIERROR1\x7d@ whereas there is no guarantee the message has been sent.".toList }⟩]
    else []) ++
  (if s ∈ L.isend ++ L.psend ∧ r ∈ L.irecv ++ L.precv then
    [⟨.localConcurrency r s, { patterns with
      longdesc := "The message buffer in ".toList ++ s ++ " and ".toList ++ r ++
        " are modified before the calls have completed.".toList
      errormsg := "Local Concurrency with a P2P. The message buffers in @\x7bs\x7d@ and @\x7br\x7d@ are modified at @\x7bfilename\x7d@:@\x7bline:MBIERROR1\x7d@ and @\x7bfilename\x7d@:@\x7bline:MBIERROR2\x7d@ whereas there is no guarantee the calls have been completed.".toList }⟩]
    else [])

/-- The programs of `P2PLocalConcurrencyGenerator.py`. -/
def localPrograms : List (Call FileName Patterns) :=
  (L.send ++ L.isend ++ L.psend).flatMap fun s =>
    (L.irecv ++ L.precv ++ L.recv).flatMap (localRound T L s)

/-- A round of the call matching programs; there is no `persfeature`. -/
def matchingRound (s r : Text) : List (Call FileName Patterns) :=
  [⟨.callMatching r s, {
    s := s
    r := r
    p2pfeature := yesIf (s ∈ L.send ∨ r ∈ L.recv)
    ip2pfeature := yesIf (s ∈ L.isend ∨ r ∈ L.irecv)
    persfeature := none
    code := {
      init1 := T.init s ['1']
      init2 := T.init r ['2']
      fini1 := T.fini s ['1']
      fini2 := T.fini r ['2']
      operation1 := T.operation s ['1']
      operation2 := T.operation r ['2'] }
    change_cond := "(rank == 1) && (its_raining)".toList
    shortdesc := "Point to point @\x7br\x7d@ is never called.".toList
    longdesc := "Point to point @\x7br\x7d@ is never executed. Process 1 calls MPI_Finalize and causes a deadlock.".toList
    outcome := "ERROR: CallMatching".toList
    errormsg := "P2P mistmatch. @\x7br\x7d@ at @\x7bfilename\x7d@:@\x7bline:MBIERROR2\x7d@ is never called because of the conditional (@\x7bchange_cond\x7d@).".toList }⟩]

/-- The programs of the loop over a send and a receive of `P2PMatchingGenerator.py`. -/
def matchingPrograms : List (Call FileName Patterns) :=
  (L.send ++ L.isend ++ L.ssend ++ L.bsend).flatMap fun s =>
    (L.recv ++ L.irecv).flatMap (matchingRound T L s)

end Generators

/-- The labels of the local concurrency programs. -/
def localLabels (p : Patterns) : Labels :=
  ⟨p.p2pfeature.key, p.ip2pfeature.key, (p.persfeature.map Characterization.key).getD []⟩

/-- The labels of the call matching programs; the last one is not replaced, because
of the `0` in the template. -/
def matchingLabels (p : Patterns) : Labels :=
  ⟨p.p2pfeature.key, p.ip2pfeature.key, "@\x7bpersfeature\x7d0@".toList⟩

/-! ## Labels and calls -/

def Lists.basic (L : Lists) : List Text := L.send ++ L.ssend ++ L.bsend ++ L.recv

def Lists.nonblocking (L : Lists) : List Text := L.isend ++ L.irecv

def Lists.persistent (L : Lists) : List Text := L.psend ++ L.precv

def yes : Text := Characterization.key .Yes

/-- Each label is `Yes` iff one of the calls is of its kind. -/
structure Right (L : Lists) (s r : Text) (l : Labels) : Prop where
  basic : l.basic = yes ↔ s ∈ L.basic ∨ r ∈ L.basic
  nonblocking : l.nonblocking = yes ↔ s ∈ L.nonblocking ∨ r ∈ L.nonblocking
  persistent : l.persistent = yes ↔ s ∈ L.persistent ∨ r ∈ L.persistent

theorem key_eq_yes_iff (c : Characterization) : c.key = yes ↔ c = .Yes := by
  cases c <;> decide

theorem persfeature_ne_yes : ("@\x7bpersfeature\x7d0@".toList : Text) ≠ yes := by decide

section Apart

variable {L : Lists}

/-- A call of one family is in no other. -/
theorem Lists.Apart.mem_iff (h : L.Apart) {c : Text} {f : Family} (hc : c ∈ L.of f) :
    (c ∈ L.send ↔ f = .send) ∧ (c ∈ L.ssend ↔ f = .ssend) ∧ (c ∈ L.bsend ↔ f = .bsend) ∧
      (c ∈ L.isend ↔ f = .isend) ∧ (c ∈ L.psend ↔ f = .psend) ∧ (c ∈ L.recv ↔ f = .recv) ∧
      (c ∈ L.irecv ↔ f = .irecv) ∧ (c ∈ L.precv ↔ f = .precv) := by
  have hiff (g : Family) : c ∈ L.of g ↔ f = g := by
    constructor
    · intro hg
      by_contra hne
      exact h f g hne hc hg
    · rintro rfl
      exact hc
  exact ⟨hiff .send, hiff .ssend, hiff .bsend, hiff .isend, hiff .psend, hiff .recv, hiff .irecv,
    hiff .precv⟩

/-- The kind of the calls of a family. -/
def Family.kind : Family → Feature
  | .send | .ssend | .bsend | .recv => .P2Pbasic
  | .isend | .irecv => .P2Pnonblocking
  | .psend | .precv => .P2Ppersistent

/-- What the labels should be, from the families of the two calls. -/
theorem right_iff (h : L.Apart) {s r : Text} {f g : Family} (hs : s ∈ L.of f) (hr : r ∈ L.of g)
    (l : Labels) : Right L s r l ↔
      (l.basic = yes ↔ f.kind = .P2Pbasic ∨ g.kind = .P2Pbasic) ∧
      (l.nonblocking = yes ↔ f.kind = .P2Pnonblocking ∨ g.kind = .P2Pnonblocking) ∧
      (l.persistent = yes ↔ f.kind = .P2Ppersistent ∨ g.kind = .P2Ppersistent) := by
  have hkind {c : Text} {f : Family} (hc : c ∈ L.of f) :
      (c ∈ L.basic ↔ f.kind = .P2Pbasic) ∧ (c ∈ L.nonblocking ↔ f.kind = .P2Pnonblocking) ∧
        (c ∈ L.persistent ↔ f.kind = .P2Ppersistent) := by
    simp only [Lists.basic, Lists.nonblocking, Lists.persistent, List.mem_append, h.mem_iff hc]
    cases f <;> decide
  rw [← (hkind hs).1, ← (hkind hs).2.1, ← (hkind hs).2.2, ← (hkind hr).1, ← (hkind hr).2.1,
    ← (hkind hr).2.2]
  exact ⟨fun h => ⟨h.basic, h.nonblocking, h.persistent⟩, fun h => ⟨h.1, h.2.1, h.2.2⟩⟩

variable (T : Tables)

/-- The programs that are written for a pair. -/
theorem mem_localRound {s r : Text} {call : Call FileName Patterns}
    (h : call ∈ localRound T L s r) :
    ((s ∈ L.send ∧ r ∈ L.irecv ++ L.precv) ∨ (s ∈ L.isend ++ L.psend ∧ r ∈ L.recv) ∨
      (s ∈ L.isend ++ L.psend ∧ r ∈ L.irecv ++ L.precv)) ∧
    call.replace.s = s ∧ call.replace.r = r ∧ localLabels call.replace =
      ⟨(yesIf (s ∈ L.send)).key, (yesIf (r ∈ L.irecv)).key, (yesIf (r ∈ L.precv)).key⟩ := by
  have hone {p : Prop} [Decidable p] {c : Call FileName Patterns}
      (hc : call ∈ if p then [c] else []) : p ∧ call = c := by
    by_cases hp : p
    · rw [if_pos hp] at hc
      exact ⟨hp, List.mem_singleton.mp hc⟩
    · rw [if_neg hp] at hc
      cases hc
  rw [localRound, List.mem_append, List.mem_append] at h
  rcases h with (h | h) | h
  · obtain ⟨hp, rfl⟩ := hone h
    exact ⟨Or.inl hp, rfl, rfl, rfl⟩
  · obtain ⟨hp, rfl⟩ := hone h
    exact ⟨Or.inr (Or.inl hp), rfl, rfl, rfl⟩
  · obtain ⟨hp, rfl⟩ := hone h
    exact ⟨Or.inr (Or.inr hp), rfl, rfl, rfl⟩

/-- **The labels of a local concurrency program**: they miss a blocking receive,
and a send that is nonblocking or persistent if the receive is not. -/
theorem localRound_labels_iff (h : L.Apart) {s r : Text} {call : Call FileName Patterns}
    (hcall : call ∈ localRound T L s r) :
    Right L s r (localLabels call.replace) ↔
      r ∉ L.recv ∧ (s ∈ L.isend → r ∈ L.irecv) ∧ (s ∈ L.psend → r ∈ L.precv) := by
  obtain ⟨hpair, _, _, hlabels⟩ := mem_localRound T hcall
  have hfamilies : ∃ f g, (f = .send ∨ f = .isend ∨ f = .psend) ∧
      (g = .irecv ∨ g = .precv ∨ g = .recv ∧ f ≠ .send) ∧ s ∈ L.of f ∧ r ∈ L.of g := by
    simp only [List.mem_append] at hpair
    rcases hpair with ⟨hs, hr | hr⟩ | ⟨hs | hs, hr⟩ | ⟨hs | hs, hr | hr⟩
    · exact ⟨.send, .irecv, by simp, by simp, hs, hr⟩
    · exact ⟨.send, .precv, by simp, by simp, hs, hr⟩
    · exact ⟨.isend, .recv, by simp, by simp, hs, hr⟩
    · exact ⟨.psend, .recv, by simp, by simp, hs, hr⟩
    · exact ⟨.isend, .irecv, by simp, by simp, hs, hr⟩
    · exact ⟨.isend, .precv, by simp, by simp, hs, hr⟩
    · exact ⟨.psend, .irecv, by simp, by simp, hs, hr⟩
    · exact ⟨.psend, .precv, by simp, by simp, hs, hr⟩
  obtain ⟨f, g, hf, hg, hs, hr⟩ := hfamilies
  rw [right_iff h hs hr, hlabels]
  simp only [key_eq_yes_iff, yesIf_eq_yes_iff, h.mem_iff hs, h.mem_iff hr]
  rcases hf with rfl | rfl | rfl <;> rcases hg with rfl | rfl | ⟨rfl, hne⟩ <;>
    simp_all [Family.kind]

/-- **The labels of a call matching program**: they miss a synchronous or
buffered send if the receive is not blocking. -/
theorem matchingRound_labels_iff (h : L.Apart) {s r : Text}
    (hs : s ∈ L.send ++ L.isend ++ L.ssend ++ L.bsend) (hr : r ∈ L.recv ++ L.irecv)
    {call : Call FileName Patterns} (hcall : call ∈ matchingRound T L s r) :
    Right L s r (matchingLabels call.replace) ↔ (s ∈ L.ssend ++ L.bsend → r ∈ L.recv) := by
  obtain rfl := List.mem_singleton.mp hcall
  have hfamily : ∃ f, (f = .send ∨ f = .isend ∨ f = .ssend ∨ f = .bsend) ∧ s ∈ L.of f := by
    simp only [List.mem_append] at hs
    rcases hs with ((hs | hs) | hs) | hs
    · exact ⟨.send, by simp, hs⟩
    · exact ⟨.isend, by simp, hs⟩
    · exact ⟨.ssend, by simp, hs⟩
    · exact ⟨.bsend, by simp, hs⟩
  have hfamily' : ∃ g, (g = .recv ∨ g = .irecv) ∧ r ∈ L.of g := by
    simp only [List.mem_append] at hr
    rcases hr with hr | hr
    · exact ⟨.recv, by simp, hr⟩
    · exact ⟨.irecv, by simp, hr⟩
  obtain ⟨f, hf, hs⟩ := hfamily
  obtain ⟨g, hg, hr⟩ := hfamily'
  rw [right_iff h hs hr]
  simp only [matchingLabels, persfeature_ne_yes, key_eq_yes_iff, yesIf_eq_yes_iff, List.mem_append,
    h.mem_iff hs, h.mem_iff hr]
  rcases hf with rfl | rfl | rfl | rfl <;> rcases hg with rfl | rfl <;> simp [Family.kind]

end Apart

/-- **When the labels of a program are right**, from its calls. -/
theorem labels_iff (T : Tables) {L : Lists} (h : L.Apart) :
    (∀ call ∈ localPrograms T L,
      Right L call.replace.s call.replace.r (localLabels call.replace) ↔
        call.replace.r ∉ L.recv ∧ (call.replace.s ∈ L.isend → call.replace.r ∈ L.irecv) ∧
          (call.replace.s ∈ L.psend → call.replace.r ∈ L.precv)) ∧
    (∀ call ∈ matchingPrograms T L,
      Right L call.replace.s call.replace.r (matchingLabels call.replace) ↔
        (call.replace.s ∈ L.ssend ++ L.bsend → call.replace.r ∈ L.recv)) := by
  constructor
  · intro call hcall
    obtain ⟨s, _, hcall⟩ := List.mem_flatMap.mp hcall
    obtain ⟨r, _, hcall⟩ := List.mem_flatMap.mp hcall
    obtain ⟨_, hs, hr, _⟩ := mem_localRound T hcall
    rw [hs, hr]
    exact localRound_labels_iff T h hcall
  · intro call hcall
    obtain ⟨s, hs, hcall⟩ := List.mem_flatMap.mp hcall
    obtain ⟨r, hr, hcall⟩ := List.mem_flatMap.mp hcall
    have hlabels := matchingRound_labels_iff T h hs hr hcall
    obtain rfl := List.mem_singleton.mp hcall
    exact hlabels

/-! ## The lists of the scripts -/

def sampleLists : Lists where
  send := ["MPI_Send".toList]
  ssend := ["MPI_Ssend".toList]
  bsend := ["MPI_Bsend".toList]
  isend := ["MPI_Isend".toList]
  psend := ["MPI_Send_init".toList]
  recv := ["MPI_Recv".toList]
  irecv := ["MPI_Irecv".toList]
  precv := ["MPI_Recv_init".toList]

theorem sampleLists_apart : sampleLists.Apart := by
  let all : List Family := [.send, .ssend, .bsend, .isend, .psend, .recv, .irecv, .precv]
  have hmem : ∀ f, f ∈ all := fun f => by cases f <;> decide
  have hall : ∀ f ∈ all, ∀ g ∈ all, f ≠ g → ∀ c ∈ sampleLists.of f, c ∉ sampleLists.of g := by
    decide +kernel
  exact fun f g hne c hf hg => hall f (hmem f) g (hmem g) hne c hf hg

/-- Tables with one kind of call. -/
def sampleTables : Tables where
  init _ n := "int buf".toList ++ n ++ "=rank;".toList
  start _ _ := []
  operation c n := c ++ "(&buf".toList ++ n ++ ", buff_size, type, 0, 0, newcom);".toList
  fini _ _ := []
  free _ _ := []
  write _ n := "buf".toList ++ n ++ "=4;".toList

theorem labels_sample :
    (∀ call ∈ localPrograms sampleTables sampleLists,
      Right sampleLists call.replace.s call.replace.r (localLabels call.replace) ↔
        call.replace.r ∉ sampleLists.recv ∧
          (call.replace.s ∈ sampleLists.isend → call.replace.r ∈ sampleLists.irecv) ∧
          (call.replace.s ∈ sampleLists.psend → call.replace.r ∈ sampleLists.precv)) ∧
    (∀ call ∈ matchingPrograms sampleTables sampleLists,
      Right sampleLists call.replace.s call.replace.r (matchingLabels call.replace) ↔
        (call.replace.s ∈ sampleLists.ssend ++ sampleLists.bsend →
          call.replace.r ∈ sampleLists.recv)) :=
  labels_iff sampleTables sampleLists_apart

/-- `MPI_Isend` with `MPI_Recv` is labelled neither blocking nor nonblocking. -/
theorem unlabelled_isend :
    ¬ ∀ (T : Tables) (L : Lists), L.Apart →
      (∀ call ∈ localPrograms T L,
        Right L call.replace.s call.replace.r (localLabels call.replace)) ∧
      ∀ call ∈ matchingPrograms T L,
        Right L call.replace.s call.replace.r (matchingLabels call.replace) := by
  intro hall
  have hright := (hall sampleTables sampleLists sampleLists_apart).1
  have hwritten : ∃ call ∈ localPrograms sampleTables sampleLists,
      call.replace.r ∈ sampleLists.recv ∧ (localLabels call.replace).basic ≠ yes := by
    decide +kernel
  obtain ⟨call, hcall, hrecv, hbasic⟩ := hwritten
  refine hbasic ((hright call hcall).basic.mpr (Or.inr ?_))
  exact List.mem_append_right _ hrecv

end MpiBugs.FeatureLabels
