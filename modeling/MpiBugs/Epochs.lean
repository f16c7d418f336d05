import MpiBugs.Interleaving
import Mathlib.Algebra.BigOperators.Group.Finset.Basic
import Mathlib.Algebra.Order.BigOperators.Group.Finset
import Mathlib.Algebra.GroupWithZero.Nat
import Mathlib.Data.List.Pairwise
import Mathlib.Logic.Function.Basic
import Mathlib.Logic.Function.Iterate

/-!
# Accesses that take place later

Processes over one memory. An access takes place at once, or at any time until its
process waits for it: alone, or together with all others. Two accesses that are possible
in one state and touch the same location are a race.

* `safe_next`: a program that keeps accesses apart does so in every state;
* `not_race`: then there is never a race,
* `ends_of_safe`: and every run ends with the same memory;
* `racesOn_of_own`, `racesAt_of_others`: where there is one;
* `not_racesOn`: a process that keeps its accesses apart does not race with itself,
  whatever the others do.
-/

namespace MpiBugs.Epochs

open Interleaving

/-! ## Accesses -/

/-- A location is assigned a value that depends on the locations that are read. -/
structure Access (ℓ v : Type) where
  dst : ℓ
  srcs : List ℓ
  value : (ℓ → v) → v
  reads : ∀ m m', (∀ x ∈ srcs, m x = m' x) → value m = value m'

/-- An assignment of the value of another location. -/
def move {ℓ v : Type} (dst src : ℓ) (f : v → v) : Access ℓ v where
  dst := dst
  srcs := [src]
  value := fun m => f (m src)
  reads := fun _ _ h => congrArg f (h src List.mem_cons_self)

/-- Of a constant. -/
def assign {ℓ v : Type} (dst : ℓ) (value : v) : Access ℓ v where
  dst := dst
  srcs := []
  value := fun _ => value
  reads := fun _ _ _ => rfl

section

variable {ℓ v : Type}

/-- One writes what the other one reads or writes. -/
def Conflict (a b : Access ℓ v) : Prop := a.dst = b.dst ∨ a.dst ∈ b.srcs ∨ b.dst ∈ a.srcs

theorem Conflict.symm {a b : Access ℓ v} : Conflict a b → Conflict b a
  | .inl h => .inl h.symm
  | .inr (.inl h) => .inr (.inr h)
  | .inr (.inr h) => .inr (.inl h)

variable [DecidableEq ℓ]

def Access.run (a : Access ℓ v) (m : ℓ → v) : ℓ → v := Function.update m a.dst (a.value m)

theorem run_comm {a b : Access ℓ v} (h : ¬ Conflict a b) (m : ℓ → v) :
    a.run (b.run m) = b.run (a.run m) := by
  obtain ⟨hdst, hb, ha⟩ : a.dst ≠ b.dst ∧ a.dst ∉ b.srcs ∧ b.dst ∉ a.srcs := by
    simpa [Conflict, not_or] using h
  have hvalue {x y : Access ℓ v} (hx : x.dst ∉ y.srcs) : y.value (x.run m) = y.value m := by
    refine y.reads _ _ fun z hz => ?_
    rw [Access.run, Function.update_of_ne]
    rintro rfl
    exact hx hz
  rw [Access.run, hvalue ha, Access.run, Access.run, hvalue hb, Access.run,
    Function.update_comm hdst]

/-- What is done to the memory, if anything. -/
def perform (a? : Option (Access ℓ v)) (m : ℓ → v) : ℓ → v := a?.elim m fun a => a.run m

theorem perform_comm {a? b? : Option (Access ℓ v)} (h : ∀ a ∈ a?, ∀ b ∈ b?, ¬ Conflict a b)
    (m : ℓ → v) : perform a? (perform b? m) = perform b? (perform a? m) := by
  cases a? with
  | none => rfl
  | some a =>
    cases b? with
    | none => rfl
    | some b => exact run_comm (h a rfl b rfl) m

end

/-! ## One process -/

inductive Action (ℓ v : Type)
  | now (a : Access ℓ v)
  | later (a : Access ℓ v)
  /-- waits for the accesses of the process -/
  | flush
  /-- and for all processes to do so -/
  | sync

/-- The accesses that are pending have a number each. -/
structure Proc (ℓ v : Type) where
  rest : List (Action ℓ v)
  issued : Nat
  pending : List (Nat × Access ℓ v)

inductive Move
  /-- the next action -/
  | go
  /-- a pending access takes place -/
  | take (n : Nat)

section

variable {ℓ v : Type}

namespace Proc

def start (as : List (Action ℓ v)) : Proc ℓ v := ⟨as, 0, []⟩

/-- The access that a move performs, and what is left. -/
def next (p : Proc ℓ v) : Move → Option (Option (Access ℓ v) × Proc ℓ v)
  | .go =>
    match p.rest with
    | .now a :: as => some (some a, { p with rest := as })
    | .later a :: as => some (none, ⟨as, p.issued + 1, p.pending ++ [(p.issued, a)]⟩)
    | .flush :: as => if p.pending = [] then some (none, { p with rest := as }) else none
    | _ => none
  | .take n => (p.pending.find? fun e => e.1 = n).map fun e =>
      (some e.2, { p with pending := p.pending.filter fun e => e.1 ≠ n })

/-- The next action is a synchronization, and nothing is pending. -/
def atSync (p : Proc ℓ v) : Bool :=
  match p.rest, p.pending with
  | .sync :: _, [] => true
  | _, _ => false

def passed (p : Proc ℓ v) : Proc ℓ v := { p with rest := p.rest.tail }

/-- What a move can do. -/
inductive Moves (p : Proc ℓ v) : Move → Option (Access ℓ v) → Proc ℓ v → Prop
  | now {a as} (hrest : p.rest = .now a :: as) : Moves p .go (some a) { p with rest := as }
  | later {a as} (hrest : p.rest = .later a :: as) :
    Moves p .go none ⟨as, p.issued + 1, p.pending ++ [(p.issued, a)]⟩
  | flush {as} (hrest : p.rest = .flush :: as) (hpending : p.pending = []) :
    Moves p .go none { p with rest := as }
  | take {n a} (hfind : (p.pending.find? fun e => e.1 = n) = some (n, a)) :
    Moves p (.take n) (some a) { p with pending := p.pending.filter fun e => e.1 ≠ n }

theorem next_iff {p p' : Proc ℓ v} {m : Move} {a? : Option (Access ℓ v)} :
    p.next m = some (a?, p') ↔ Moves p m a? p' := by
  constructor
  · intro h
    cases m with
    | go =>
      rw [next] at h
      split at h
      · cases h
        exact .now ‹_›
      · cases h
        exact .later ‹_›
      · split at h
        · cases h
          exact .flush ‹_› ‹_›
        · cases h
      · cases h
    | take n =>
      obtain ⟨⟨k, a⟩, hfind, h⟩ := Option.map_eq_some_iff.mp h
      have hk := List.find?_some hfind
      obtain rfl : k = n := of_decide_eq_true hk
      cases h
      exact .take hfind
  · intro h
    cases h with
    | now hrest | later hrest => simp only [next, hrest]
    | flush hrest hpending => simp only [next, hrest, hpending, if_true]
    | take hfind => simp only [next, hfind, Option.map_some]

theorem atSync_iff {p : Proc ℓ v} :
    p.atSync = true ↔ (∃ as, p.rest = .sync :: as) ∧ p.pending = [] := by
  rw [atSync]
  split
  · simp_all
  · simp_all

theorem next_of_atSync {p : Proc ℓ v} (h : p.atSync = true) (m : Move) : p.next m = none := by
  obtain ⟨⟨as, hrest⟩, hpending⟩ := atSync_iff.mp h
  cases m with
  | go => simp only [next, hrest]
  | take n => simp only [next, hpending, List.find?_nil, Option.map_none]

end Proc

/-! ## What is ahead of a process -/

/-- The accesses before the next wait. -/
def exposed : List (Action ℓ v) → List (Access ℓ v)
  | .now a :: as | .later a :: as => a :: exposed as
  | _ => []

/-- The accesses before the next synchronization. -/
def phase : List (Action ℓ v) → List (Access ℓ v)
  | .now a :: as | .later a :: as => a :: phase as
  | .flush :: as => phase as
  | _ => []

/-- What comes after it. -/
def behind : List (Action ℓ v) → List (Action ℓ v)
  | .sync :: as => as
  | _ :: as => behind as
  | [] => []

/-- A process does not touch what its own accesses may still do. -/
def Tidy : List (Action ℓ v) → Prop
  | .later a :: as => (∀ b ∈ exposed as, ¬ Conflict a b) ∧ Tidy as
  | _ :: as => Tidy as
  | [] => True

/-- Two processes do not touch the same between two synchronizations. -/
def Apart (as bs : List (Action ℓ v)) : Prop :=
  ∀ k, ∀ a ∈ phase (behind^[k] as), ∀ b ∈ phase (behind^[k] bs), ¬ Conflict a b

def accesses : List (Action ℓ v) → List (Access ℓ v)
  | .now a :: as | .later a :: as => a :: accesses as
  | _ :: as => accesses as
  | [] => []

theorem phase_subset (as : List (Action ℓ v)) :
    phase as ⊆ accesses as ∧ accesses (behind as) ⊆ accesses as := by
  induction as with
  | nil => exact ⟨List.Subset.refl _, List.Subset.refl _⟩
  | cons a as ih =>
    cases a with
    | now a | later a =>
      exact ⟨List.cons_subset_cons a ih.1, List.subset_cons_of_subset a ih.2⟩
    | flush => exact ih
    | sync => exact ⟨List.nil_subset _, List.Subset.refl _⟩

/-- Processes that never touch the same stay apart. -/
theorem apart_of_accesses {as bs : List (Action ℓ v)}
    (h : ∀ a ∈ accesses as, ∀ b ∈ accesses bs, ¬ Conflict a b) : Apart as bs := by
  have hlater : ∀ k (as : List (Action ℓ v)), phase (behind^[k] as) ⊆ accesses as := by
    intro k
    induction k with
    | zero => exact fun as => (phase_subset as).1
    | succ k ih =>
      intro as
      rw [Function.iterate_succ_apply]
      exact List.Subset.trans (ih (behind as)) (phase_subset as).2
  exact fun k a ha b hb => h a (hlater k as ha) b (hlater k bs hb)

/-- The accesses of the process that may take place before the next one. -/
def Proc.ahead (p : Proc ℓ v) : List (Access ℓ v) := p.pending.map Prod.snd ++ phase p.rest

/-- One process does not race with itself. -/
structure Alone (p : Proc ℓ v) : Prop where
  tidy : Tidy p.rest
  waiting : ∀ e ∈ p.pending, ∀ b ∈ exposed p.rest, ¬ Conflict e.2 b
  pairs : p.pending.Pairwise fun e e' => e.1 ≠ e'.1 ∧ ¬ Conflict e.2 e'.2
  numbered : ∀ e ∈ p.pending, e.1 < p.issued

theorem Tidy.tail {a : Action ℓ v} {as : List (Action ℓ v)} (h : Tidy (a :: as)) : Tidy as := by
  cases a with
  | later a => exact h.2
  | now | flush | sync => exact h

theorem alone_of_idle {p : Proc ℓ v} (htidy : Tidy p.rest) (hpending : p.pending = []) :
    Alone p := by
  refine ⟨htidy, ?_, ?_, ?_⟩ <;> rw [hpending]
  · exact nofun
  · exact List.Pairwise.nil
  · exact nofun

/-- **A move makes no race**, and less is ahead. -/
theorem alone_move {p p' : Proc ℓ v} {m : Move} {a? : Option (Access ℓ v)} (halone : Alone p)
    (h : p.next m = some (a?, p')) :
    Alone p' ∧ behind p'.rest = behind p.rest ∧ p'.ahead ⊆ p.ahead ∧ ∀ a ∈ a?, a ∈ p.ahead := by
  obtain ⟨htidy, hwaiting, hpairs, hnumbered⟩ := halone
  cases Proc.next_iff.mp h with
  | @now a as hrest =>
    rw [hrest] at htidy hwaiting
    simp only [Proc.ahead, hrest, phase, behind, Option.mem_some_iff, forall_eq', true_and]
    refine ⟨⟨htidy, fun e he b hb => hwaiting e he b (List.mem_cons_of_mem a hb), hpairs,
      hnumbered⟩, ?_, ?_⟩
    · exact List.append_subset.mpr ⟨List.subset_append_left .., fun b hb =>
        List.mem_append_right _ (List.mem_cons_of_mem a hb)⟩
    · exact List.mem_append_right _ List.mem_cons_self
  | @later a as hrest =>
    rw [hrest] at htidy hwaiting
    simp only [Proc.ahead, hrest, phase, behind, List.map_append, List.append_assoc, true_and]
    refine ⟨⟨htidy.2, ?_, ?_, ?_⟩, List.Subset.refl _, nofun⟩
    · intro e he b hb
      rcases List.mem_append.mp he with he | he
      · exact hwaiting e he b (List.mem_cons_of_mem a hb)
      · obtain rfl := List.mem_singleton.mp he
        exact htidy.1 b hb
    · refine List.pairwise_append.mpr ⟨hpairs, List.pairwise_singleton _ _, fun e he e' he' => ?_⟩
      obtain rfl := List.mem_singleton.mp he'
      exact ⟨(hnumbered e he).ne, hwaiting e he a List.mem_cons_self⟩
    · intro e he
      rcases List.mem_append.mp he with he | he
      · exact (hnumbered e he).trans (Nat.lt_succ_self _)
      · obtain rfl := List.mem_singleton.mp he
        exact Nat.lt_succ_self _
  | @flush as hrest hpending =>
    rw [hrest] at htidy
    simp only [Proc.ahead, hrest, phase, behind, true_and]
    exact ⟨alone_of_idle htidy hpending, List.Subset.refl _, nofun⟩
  | @take n a hfind =>
    refine ⟨⟨htidy, fun e he => hwaiting e (List.mem_of_mem_filter he), hpairs.filter _,
      fun e he => hnumbered e (List.mem_of_mem_filter he)⟩, rfl, ?_, ?_⟩
    · exact List.append_subset.mpr ⟨fun b hb => List.mem_append_left _
        (List.map_subset _ (fun _ => List.mem_of_mem_filter) hb), List.subset_append_right ..⟩
    · intro b hb
      obtain rfl := Option.some.inj hb
      exact List.mem_append_left _ (List.mem_map_of_mem (List.mem_of_find?_eq_some hfind))

theorem find_of_ne {n n' : Nat} (hne : n ≠ n') (pending : List (Nat × Access ℓ v)) :
    (pending.filter fun e => e.1 ≠ n).find? (fun e => e.1 = n') =
      pending.find? fun e => e.1 = n' := by
  rw [List.find?_filter]
  congr 1
  funext e
  by_cases he : e.1 = n'
  · simp [he, hne.symm]
  · simp [he]

theorem go_take_comm {p p₁ p₂ : Proc ℓ v} {n : Nat} {a? b? : Option (Access ℓ v)} (halone : Alone p)
    (h : p.next .go = some (a?, p₁)) (h' : p.next (.take n) = some (b?, p₂)) :
    (∀ a ∈ a?, ∀ b ∈ b?, ¬ Conflict a b) ∧
      ∃ q, p₁.next (.take n) = some (b?, q) ∧ p₂.next .go = some (a?, q) := by
  cases Proc.next_iff.mp h' with
  | @take _ b hfind =>
    have hmem := List.mem_of_find?_eq_some hfind
    cases Proc.next_iff.mp h with
    | @now a as hrest =>
      refine ⟨fun a' ha b' hb => ?_, _, Proc.next_iff.mpr (.take hfind),
        Proc.next_iff.mpr (.now hrest)⟩
      obtain rfl := Option.some.inj ha
      obtain rfl := Option.some.inj hb
      have hwaiting := halone.waiting _ hmem a (by rw [hrest]; exact List.mem_cons_self)
      exact fun hab => hwaiting hab.symm
    | @later a as hrest =>
      have hissued : p.issued ≠ n := (halone.numbered _ hmem).ne'
      refine ⟨nofun, ⟨as, p.issued + 1, (p.pending.filter fun e => e.1 ≠ n) ++ [(p.issued, a)]⟩, ?_,
        Proc.next_iff.mpr (.later hrest)⟩
      simp [Proc.next, List.find?_append, hfind, List.filter_append, hissued]
    | flush hrest hpending =>
      rw [hpending] at hfind
      cases hfind

/-- **Two moves of one process** can be made in either order. -/
theorem moves_comm {p p₁ p₂ : Proc ℓ v} {m m' : Move} {a? b? : Option (Access ℓ v)}
    (halone : Alone p) (hne : m ≠ m') (h : p.next m = some (a?, p₁))
    (h' : p.next m' = some (b?, p₂)) :
    (∀ a ∈ a?, ∀ b ∈ b?, ¬ Conflict a b) ∧
      ∃ q, p₁.next m' = some (b?, q) ∧ p₂.next m = some (a?, q) := by
  cases m with
  | go =>
    cases m' with
    | go => exact absurd rfl hne
    | take n => exact go_take_comm halone h h'
  | take n =>
    cases m' with
    | go =>
      obtain ⟨hconflict, q, hq, hq'⟩ := go_take_comm halone h' h
      exact ⟨fun a ha b hb hab => hconflict b hb a ha hab.symm, q, hq', hq⟩
    | take n' =>
      have hn : n ≠ n' := fun h => hne (congrArg Move.take h)
      cases Proc.next_iff.mp h with
      | @take _ a hfind =>
        cases Proc.next_iff.mp h' with
        | @take _ b hfind' =>
          refine ⟨fun a' ha b' hb => ?_, { p with pending :=
            (p.pending.filter fun e => e.1 ≠ n).filter fun e => e.1 ≠ n' }, ?_, ?_⟩
          · obtain rfl := Option.some.inj ha
            obtain rfl := Option.some.inj hb
            have : Std.Symm fun e e' : Nat × Access ℓ v => e.1 ≠ e'.1 ∧ ¬ Conflict e.2 e'.2 :=
              ⟨fun _ _ h => ⟨h.1.symm, fun hconflict => h.2 hconflict.symm⟩⟩
            refine (halone.pairs.forall (List.mem_of_find?_eq_some hfind)
              (List.mem_of_find?_eq_some hfind') ?_).2
            exact fun h => hn (congrArg Prod.fst h)
          · exact Proc.next_iff.mpr (.take ((find_of_ne hn _).trans hfind'))
          · rw [List.filter_comm]
            exact Proc.next_iff.mpr (.take ((find_of_ne hn.symm _).trans hfind))

/-! ## How long a process goes on -/

def Proc.size (p : Proc ℓ v) : Nat := 2 * p.rest.length + p.pending.length

def syncs : List (Action ℓ v) → Nat
  | .sync :: as => syncs as + 1
  | _ :: as => syncs as
  | [] => 0

theorem syncs_append (as bs : List (Action ℓ v)) : syncs (as ++ bs) = syncs as + syncs bs := by
  induction as with
  | nil => rw [List.nil_append, syncs, Nat.zero_add]
  | cons a as ih =>
    rw [List.cons_append]
    cases a with
    | sync => rw [syncs, syncs, ih, Nat.add_right_comm]
    | now | later | flush => exact ih

theorem size_move {p p' : Proc ℓ v} {m : Move} {a? : Option (Access ℓ v)}
    (h : p.next m = some (a?, p')) : p'.size < p.size ∧ syncs p'.rest = syncs p.rest := by
  cases Proc.next_iff.mp h with
  | now hrest | flush hrest =>
    simp only [Proc.size, hrest, List.length_cons, syncs, and_true]
    omega
  | later hrest =>
    simp only [Proc.size, hrest, List.length_cons, List.length_append, List.length_nil, syncs,
      and_true]
    omega
  | @take n a hfind =>
    have hshorter : (p.pending.filter fun e => e.1 ≠ n).length < p.pending.length := by
      refine List.length_filter_lt_length_iff_exists.mpr ⟨_, List.mem_of_find?_eq_some hfind, ?_⟩
      simp
    exact ⟨Nat.add_lt_add_left hshorter _, rfl⟩

/-- **A process that cannot move** is finished, or before a synchronization. -/
theorem rest_of_stuck {p : Proc ℓ v} (h : ∀ m, p.next m = none) :
    p.rest = [] ∨ p.atSync = true := by
  have hpending : p.pending = [] := by
    cases hpending : p.pending with
    | nil => rfl
    | cons e es =>
      have hnone := h (.take e.1)
      simp [Proc.next, hpending] at hnone
  have hgo := h .go
  cases hrest : p.rest with
  | nil => exact .inl rfl
  | cons a as =>
    right
    cases a with
    | sync => exact Proc.atSync_iff.mpr ⟨⟨as, hrest⟩, hpending⟩
    | now | later => simp [Proc.next, hrest] at hgo
    | flush => simp [Proc.next, hrest, hpending] at hgo

end

/-! ## All processes -/

structure Config (ι ℓ v : Type) where
  mem : ℓ → v
  proc : ι → Proc ℓ v

inductive Event (ι : Type)
  | own (i : ι) (m : Move)
  | sync

variable {ι ℓ v : Type}

def start (program : ι → List (Action ℓ v)) (mem : ℓ → v) : Config ι ℓ v :=
  ⟨mem, fun i => .start (program i)⟩

def Finished (c : Config ι ℓ v) : Prop := ∀ i, (c.proc i).rest = []

/-- The access that the event performs. -/
def performs (c : Config ι ℓ v) : Event ι → Option (Access ℓ v)
  | .own i m => ((c.proc i).next m).bind Prod.fst
  | .sync => none

/-- Two accesses that are possible conflict. -/
def Race (c : Config ι ℓ v) : Prop :=
  ∃ e e' a a', e ≠ e' ∧ performs c e = some a ∧ performs c e' = some a' ∧ Conflict a a'

/-- The invariant of programs without a race. -/
structure Safe (c : Config ι ℓ v) : Prop where
  alone : ∀ i, Alone (c.proc i)
  others : ∀ i j, i ≠ j → ∀ a ∈ (c.proc i).ahead, ∀ b ∈ (c.proc j).ahead, ¬ Conflict a b
  apart : ∀ i j, i ≠ j → Apart (behind (c.proc i).rest) (behind (c.proc j).rest)

theorem safe_start {program : ι → List (Action ℓ v)} (htidy : ∀ i, Tidy (program i))
    (hapart : ∀ i j, i ≠ j → Apart (program i) (program j)) (mem : ℓ → v) :
    Safe (start program mem) where
  alone := fun i => alone_of_idle (htidy i) rfl
  others := fun i j hij => hapart i j hij 0
  apart := fun i j hij k => hapart i j hij (k + 1)

theorem not_conflict {c : Config ι ℓ v} (hsafe : Safe c) {e e' : Event ι} {a a' : Access ℓ v}
    (hne : e ≠ e') (h : performs c e = some a) (h' : performs c e' = some a') :
    ¬ Conflict a a' := by
  cases e with
  | sync => cases h
  | own i m =>
    cases e' with
    | sync => cases h'
    | own j m' =>
      obtain ⟨⟨_, p⟩, hnext, rfl⟩ := Option.bind_eq_some_iff.mp h
      obtain ⟨⟨_, p'⟩, hnext', rfl⟩ := Option.bind_eq_some_iff.mp h'
      rcases eq_or_ne i j with rfl | hij
      · have hm : m ≠ m' := fun h => hne (congrArg (Event.own i) h)
        exact (moves_comm (hsafe.alone i) hm hnext hnext').1 a rfl a' rfl
      · exact hsafe.others i j hij a ((alone_move (hsafe.alone i) hnext).2.2.2 a rfl) a'
          ((alone_move (hsafe.alone j) hnext').2.2.2 a' rfl)

/-- **There is no race.** -/
theorem not_race {c : Config ι ℓ v} (hsafe : Safe c) : ¬ Race c := by
  rintro ⟨e, e', a, a', hne, ha, ha', hconflict⟩
  exact not_conflict hsafe hne ha ha' hconflict

section

variable [DecidableEq ι] [DecidableEq ℓ] [Fintype ι] {c c' c₁ c₂ : Config ι ℓ v} {e e' : Event ι}

def next (c : Config ι ℓ v) : Event ι → Option (Config ι ℓ v)
  | .own i m => ((c.proc i).next m).map fun r => ⟨perform r.1 c.mem, Function.update c.proc i r.2⟩
  | .sync => if ∀ i, (c.proc i).atSync then some ⟨c.mem, fun i => (c.proc i).passed⟩ else none

theorem next_own_iff {i : ι} {m : Move} : next c (.own i m) = some c' ↔
    ∃ a? p, (c.proc i).next m = some (a?, p) ∧
      c' = ⟨perform a? c.mem, Function.update c.proc i p⟩ := by
  rw [next, Option.map_eq_some_iff]
  constructor
  · rintro ⟨⟨a?, p⟩, h, rfl⟩
    exact ⟨a?, p, h, rfl⟩
  · rintro ⟨a?, p, h, rfl⟩
    exact ⟨(a?, p), h, rfl⟩

theorem next_sync_iff : next c .sync = some c' ↔
    (∀ i, (c.proc i).atSync) ∧ c' = ⟨c.mem, fun i => (c.proc i).passed⟩ := by
  rw [next]
  split
  · rw [Option.some_inj]
    exact ⟨fun h => ⟨‹_›, h.symm⟩, fun h => h.2.symm⟩
  · exact ⟨nofun, fun h => absurd h.1 ‹_›⟩

/-- **A safe program stays so.** -/
theorem safe_next (hsafe : Safe c) (h : next c e = some c') : Safe c' := by
  cases e with
  | own i m =>
    obtain ⟨a?, p, hmove, rfl⟩ := next_own_iff.mp h
    obtain ⟨halone, hbehind, hahead, -⟩ := alone_move (hsafe.alone i) hmove
    have hall : ∀ j, Alone (Function.update c.proc i p j) ∧
        behind (Function.update c.proc i p j).rest = behind (c.proc j).rest ∧
        (Function.update c.proc i p j).ahead ⊆ (c.proc j).ahead := by
      intro j
      rcases eq_or_ne j i with rfl | hj
      · rw [Function.update_self]
        exact ⟨halone, hbehind, hahead⟩
      · rw [Function.update_of_ne hj]
        exact ⟨hsafe.alone j, rfl, List.Subset.refl _⟩
    refine ⟨fun j => (hall j).1, fun j k hjk a ha b hb => ?_, fun j k hjk => ?_⟩
    · exact hsafe.others j k hjk a ((hall j).2.2 ha) b ((hall k).2.2 hb)
    · rw [(hall j).2.1, (hall k).2.1]
      exact hsafe.apart j k hjk
  | sync =>
    obtain ⟨hsync, rfl⟩ := next_sync_iff.mp h
    have hrest : ∀ i,
        (c.proc i).rest = .sync :: (c.proc i).rest.tail ∧ (c.proc i).pending = [] := by
      intro i
      obtain ⟨⟨as, has⟩, hpending⟩ := Proc.atSync_iff.mp (hsync i)
      rw [has]
      exact ⟨rfl, hpending⟩
    have hbehind : ∀ i, behind (c.proc i).rest = (c.proc i).rest.tail := fun i => by
      rw [(hrest i).1]
      rfl
    have hahead : ∀ i, (c.proc i).passed.ahead = phase (c.proc i).rest.tail := fun i => by
      simp only [Proc.ahead, Proc.passed, (hrest i).2, List.map_nil, List.nil_append]
    refine ⟨fun i => ?_, fun i j hij => ?_, fun i j hij k => ?_⟩
    · have htidy := (hsafe.alone i).tidy
      rw [(hrest i).1] at htidy
      exact alone_of_idle htidy.tail (hrest i).2
    · have hapart := hsafe.apart i j hij 0
      rw [hbehind, hbehind] at hapart
      show ∀ a ∈ (c.proc i).passed.ahead, ∀ b ∈ (c.proc j).passed.ahead, ¬ Conflict a b
      rw [hahead, hahead]
      exact hapart
    · have hapart := hsafe.apart i j hij (k + 1)
      rw [hbehind, hbehind] at hapart
      exact hapart

theorem safe_run {es : List (Event ι)} (hsafe : Safe c) (h : run next c es = some c') :
    Safe c' := by
  induction es generalizing c with
  | nil => exact Option.some.inj h ▸ hsafe
  | cons e es ih =>
    obtain ⟨c₁, hnext, hrun⟩ := run_cons_iff.mp h
    exact ih (safe_next hsafe hnext) hrun

/-! ## One memory at the end -/

/-- Events that are possible in one state can be taken in either order. -/
theorem diamond (hsafe : Safe c) (hne : e ≠ e') (h : next c e = some c₁)
    (h' : next c e' = some c₂) :
    ∃ t, next c₁ e' = some t ∧ next c₂ e = some t := by
  cases e with
  | sync =>
    obtain ⟨hsync, -⟩ := next_sync_iff.mp h
    cases e' with
    | sync => exact absurd rfl hne
    | own j m =>
      obtain ⟨a?, p, hmove, -⟩ := next_own_iff.mp h'
      rw [Proc.next_of_atSync (hsync j)] at hmove
      cases hmove
  | own i m =>
    obtain ⟨a?, p, hmove, rfl⟩ := next_own_iff.mp h
    cases e' with
    | sync =>
      obtain ⟨hsync, -⟩ := next_sync_iff.mp h'
      rw [Proc.next_of_atSync (hsync i)] at hmove
      cases hmove
    | own j m' =>
      obtain ⟨b?, q, hmove', rfl⟩ := next_own_iff.mp h'
      rcases eq_or_ne i j with rfl | hij
      · have hm : m ≠ m' := fun h => hne (congrArg (Event.own i) h)
        obtain ⟨hconflict, r, hr, hr'⟩ := moves_comm (hsafe.alone i) hm hmove hmove'
        refine ⟨⟨perform b? (perform a? c.mem), Function.update c.proc i r⟩,
          next_own_iff.mpr ⟨b?, r, ?_, ?_⟩, next_own_iff.mpr ⟨a?, r, ?_, ?_⟩⟩
        · simpa only [Function.update_self] using hr
        · simp only [Function.update_idem]
        · simpa only [Function.update_self] using hr'
        · simp only [Function.update_idem, perform_comm hconflict]
      · have hconflict : ∀ a ∈ a?, ∀ b ∈ b?, ¬ Conflict a b := fun a ha b hb =>
          hsafe.others i j hij a ((alone_move (hsafe.alone i) hmove).2.2.2 a ha) b
            ((alone_move (hsafe.alone j) hmove').2.2.2 b hb)
        refine ⟨⟨perform b? (perform a? c.mem), Function.update (Function.update c.proc i p) j q⟩,
          next_own_iff.mpr ⟨b?, q, ?_, rfl⟩, next_own_iff.mpr ⟨a?, p, ?_, ?_⟩⟩
        · simpa only [Function.update_of_ne hij.symm] using hmove'
        · simpa only [Function.update_of_ne hij] using hmove
        · simp only [Function.update_comm hij, perform_comm hconflict]

theorem commuting : Commuting (next (ι := ι) (ℓ := ℓ) (v := v)) Safe Eq where
  same := ⟨fun _ => rfl, Eq.symm, Eq.trans⟩
  keeps := safe_next
  respects := by
    rintro s _ e s' rfl h
    exact ⟨s', h, rfl⟩
  diamond := by
    intro c e e' c₁ c₂ hsafe hne h h'
    obtain ⟨t, ht, ht'⟩ := diamond hsafe hne h h'
    exact ⟨t, t, ht, ht', rfl⟩

theorem run_bounded [Nonempty ι] {es : List (Event ι)} (h : run next c es = some c') :
    es.length + ∑ i, (c'.proc i).size ≤ ∑ i, (c.proc i).size := by
  induction es generalizing c with
  | nil =>
    obtain rfl := Option.some.inj h
    rw [List.length_nil, Nat.zero_add]
  | cons e es ih =>
    obtain ⟨c₁, hnext, hrun⟩ := run_cons_iff.mp h
    have hless : ∑ i, (c₁.proc i).size < ∑ i, (c.proc i).size := by
      cases e with
      | own i m =>
        obtain ⟨a?, p, hmove, rfl⟩ := next_own_iff.mp hnext
        refine Finset.sum_lt_sum (fun j _ => ?_) ⟨i, Finset.mem_univ i, ?_⟩
        · rcases eq_or_ne j i with rfl | hj
          · simpa only [Function.update_self] using (size_move hmove).1.le
          · simp only [Function.update_of_ne hj, le_refl]
        · simpa only [Function.update_self] using (size_move hmove).1
      | sync =>
        obtain ⟨hsync, rfl⟩ := next_sync_iff.mp hnext
        refine Finset.sum_lt_sum_of_nonempty Finset.univ_nonempty fun i _ => ?_
        obtain ⟨⟨as, hrest⟩, -⟩ := Proc.atSync_iff.mp (hsync i)
        simp only [Proc.size, Proc.passed, hrest, List.tail_cons, List.length_cons]
        omega
    have hrest := ih hrun
    rw [List.length_cons]
    omega

/-- As many synchronizations are ahead of each process. -/
def Balanced (c : Config ι ℓ v) : Prop := ∀ i j, syncs (c.proc i).rest = syncs (c.proc j).rest

theorem balanced_next (hbalanced : Balanced c) (h : next c e = some c') : Balanced c' := by
  cases e with
  | own i m =>
    obtain ⟨a?, p, hmove, rfl⟩ := next_own_iff.mp h
    have hall : ∀ j, syncs (Function.update c.proc i p j).rest = syncs (c.proc j).rest := by
      intro j
      rcases eq_or_ne j i with rfl | hj
      · rw [Function.update_self]
        exact (size_move hmove).2
      · rw [Function.update_of_ne hj]
    exact fun j k => (hall j).trans ((hbalanced j k).trans (hall k).symm)
  | sync =>
    obtain ⟨hsync, rfl⟩ := next_sync_iff.mp h
    have hall : ∀ i, syncs (c.proc i).rest = syncs (c.proc i).passed.rest + 1 := by
      intro i
      obtain ⟨⟨as, hrest⟩, -⟩ := Proc.atSync_iff.mp (hsync i)
      simp only [Proc.passed, hrest, List.tail_cons, syncs]
    intro i j
    have hij := hbalanced i j
    rw [hall, hall] at hij
    exact Nat.succ.inj hij

theorem balanced_run {es : List (Event ι)} (hbalanced : Balanced c) (h : run next c es = some c') :
    Balanced c' := by
  induction es generalizing c with
  | nil => exact Option.some.inj h ▸ hbalanced
  | cons e es ih =>
    obtain ⟨c₁, hnext, hrun⟩ := run_cons_iff.mp h
    exact ih (balanced_next hbalanced hnext) hrun

theorem finished_of_stuck (hbalanced : Balanced c) (hstuck : Stuck next c) : Finished c := by
  have hrest : ∀ i, (c.proc i).rest = [] ∨ (c.proc i).atSync = true := by
    refine fun i => rest_of_stuck fun m => ?_
    have hnone := hstuck (.own i m)
    rwa [next, Option.map_eq_none_iff] at hnone
  intro i
  refine (hrest i).resolve_right fun hi => ?_
  obtain ⟨⟨as, has⟩, -⟩ := Proc.atSync_iff.mp hi
  have hsync : ∀ j, (c.proc j).atSync = true := by
    refine fun j => (hrest j).resolve_left fun hj => ?_
    have hcount := hbalanced i j
    rw [has, hj] at hcount
    cases hcount
  have hnone := hstuck .sync
  rw [next, if_pos hsync] at hnone
  cases hnone

/-- **A safe program has one result**: every run ends, all processes are finished, and the
memory is the same. -/
theorem ends_of_safe [Nonempty ι] (hsafe : Safe c) (hbalanced : Balanced c) :
    ∃ m, Ends next c fun t => Finished t ∧ t.mem = m := by
  have hends : Ends next c Finished := by
    refine ⟨⟨∑ i, (c.proc i).size, fun es t hrun => ?_⟩, fun es t hrun hstuck => ?_⟩
    · have hbound := run_bounded hrun
      omega
    · exact finished_of_stuck (balanced_run hbalanced hrun) hstuck
  have hnil : run next c [] = some c := rfl
  obtain ⟨es, t, hrun, hstuck, hfinished⟩ := hends.exists_end hnil
  refine ⟨t.mem, Ends.of_run commuting hsafe hrun hstuck ?_⟩
  rintro _ rfl
  exact ⟨hfinished, rfl⟩

theorem raceFree_of_safe (hsafe : Safe c) {es : List (Event ι)} (h : run next c es = some c') :
    ¬ Race c' := not_race (safe_run hsafe h)

/-! ## Races -/

/-- Some run comes to a race. -/
def Racy (c : Config ι ℓ v) : Prop := ∃ es t, run next c es = some t ∧ Race t

theorem racy_of_run {es : List (Event ι)} (hrun : run next c es = some c') (h : Racy c') :
    Racy c := by
  obtain ⟨es', t, hrun', hrace⟩ := h
  exact ⟨es ++ es', t, (run_append hrun).trans hrun', hrace⟩

/-- An action that accesses the memory can be brought to do so, by its process alone. -/
theorem exists_performs {i : ι} {x : Action ℓ v} {as : List (Action ℓ v)} {a : Access ℓ v}
    (hrest : (c.proc i).rest = x :: as) (hx : x = .now a ∨ x = .later a)
    (hpending : (c.proc i).pending = []) :
    ∃ es t m, run next c es = some t ∧ performs t (.own i m) = some a ∧
      ∀ j, j ≠ i → t.proc j = c.proc j := by
  rcases hx with rfl | rfl
  · exact ⟨[], c, .go, rfl, by simp only [performs, Proc.next, hrest, Option.bind_some],
      fun _ _ => rfl⟩
  · have hgo : (c.proc i).next .go =
        some (none, ⟨as, (c.proc i).issued + 1, [((c.proc i).issued, a)]⟩) := by
      simp only [Proc.next, hrest, hpending, List.nil_append]
    refine ⟨[.own i .go], _, .take (c.proc i).issued,
      run_cons_iff.mpr ⟨_, next_own_iff.mpr ⟨_, _, hgo, rfl⟩, rfl⟩, ?_, fun j hj => ?_⟩
    · simp [performs, Proc.next]
    · simp only [Function.update_of_ne hj]

/-- Some run comes to where one process may write the location and another may access it. -/
def RacesAt (c : Config ι ℓ v) (i j : ι) (l : ℓ) : Prop :=
  ∃ es t m m' a b, run next c es = some t ∧ performs t (.own i m) = some a ∧
    performs t (.own j m') = some b ∧ a.dst = l ∧ (b.dst = l ∨ l ∈ b.srcs)

theorem racesAt_of_run {i j : ι} {l : ℓ} {es : List (Event ι)} (hrun : run next c es = some c')
    (h : RacesAt c' i j l) : RacesAt c i j l := by
  obtain ⟨es', t, m, m', a, b, hrun', hraces⟩ := h
  exact ⟨es ++ es', t, m, m', a, b, (run_append hrun).trans hrun', hraces⟩

/-- **Two processes race** where both are about to access a location. -/
theorem racesAt_of_others {i j : ι} (hij : i ≠ j) {x y : Action ℓ v} {as bs : List (Action ℓ v)}
    {a b : Access ℓ v} {l : ℓ} (hi : (c.proc i).rest = x :: as) (hj : (c.proc j).rest = y :: bs)
    (hx : x = .now a ∨ x = .later a) (hy : y = .now b ∨ y = .later b)
    (hpending : ∀ i, (c.proc i).pending = []) (ha : a.dst = l) (hb : b.dst = l ∨ l ∈ b.srcs) :
    RacesAt c i j l := by
  obtain ⟨es, t, m, hrun, hfirst, hsame⟩ := exists_performs hi hx (hpending i)
  rw [← hsame j hij.symm] at hj
  obtain ⟨es', t', m', hrun', hsecond, hsame'⟩ :=
    exists_performs hj hy (by rw [hsame j hij.symm, hpending])
  refine racesAt_of_run hrun ⟨es', t', m, m', a, b, hrun', ?_, hsecond, ha, hb⟩
  rw [performs, hsame' i hij]
  exact hfirst

theorem racy_of_racesAt {i j : ι} (hij : i ≠ j) {l : ℓ} (h : RacesAt c i j l) : Racy c := by
  obtain ⟨es, t, m, m', a, b, hrun, ha, hb, rfl, htouches⟩ := h
  have hconflict : Conflict a b := htouches.imp Eq.symm .inl
  exact ⟨es, t, hrun, .own i m, .own j m', a, b, fun h => hij (Event.own.inj h).1, ha, hb,
    hconflict⟩

/-- Some run comes to a race of a process with itself. -/
def RacesOn (c : Config ι ℓ v) (i : ι) : Prop :=
  ∃ es t m m' a a', run next c es = some t ∧ m ≠ m' ∧ performs t (.own i m) = some a ∧
    performs t (.own i m') = some a' ∧ Conflict a a'

theorem racy_of_racesOn {i : ι} (h : RacesOn c i) : Racy c := by
  obtain ⟨es, t, m, m', a, a', hrun, hne, ha, ha', hconflict⟩ := h
  exact ⟨es, t, hrun, .own i m, .own i m', a, a', fun h => hne (Event.own.inj h).2, ha, ha',
    hconflict⟩

/-- **One process races** with what it has left pending. -/
theorem racesOn_of_own {i : ι} {y : Action ℓ v} {as : List (Action ℓ v)} {a b : Access ℓ v}
    (hi : (c.proc i).rest = .later a :: y :: as) (hy : y = .now b ∨ y = .later b)
    (hpending : (c.proc i).pending = []) (h : Conflict a b) : RacesOn c i := by
  have hgo : (c.proc i).next .go =
      some (none, ⟨y :: as, (c.proc i).issued + 1, [((c.proc i).issued, a)]⟩) := by
    simp only [Proc.next, hi, hpending, List.nil_append]
  have hnext : next c (.own i .go) = some ⟨c.mem, Function.update c.proc i _⟩ :=
    next_own_iff.mpr ⟨_, _, hgo, rfl⟩
  rcases hy with rfl | rfl
  · refine ⟨[.own i .go], _, .take (c.proc i).issued, .go, a, b,
      run_cons_iff.mpr ⟨_, hnext, rfl⟩, nofun, ?_, ?_, h⟩
    · simp [performs, Proc.next]
    · simp [performs, Proc.next]
  · refine ⟨[.own i .go, .own i .go], _, .take (c.proc i).issued, .take ((c.proc i).issued + 1), a,
      b, run_cons_iff.mpr ⟨_, hnext, run_cons_iff.mpr ⟨_, next_own_iff.mpr ⟨none, ⟨as,
      (c.proc i).issued + 2, [((c.proc i).issued, a), ((c.proc i).issued + 1, b)]⟩, ?_, rfl⟩,
      rfl⟩⟩, ?_, ?_, ?_, h⟩
    · simp [Proc.next]
    · simp
    · simp [performs, Proc.next]
    · simp [performs, Proc.next]

theorem racy_of_own {i : ι} {y : Action ℓ v} {as : List (Action ℓ v)} {a b : Access ℓ v}
    (hi : (c.proc i).rest = .later a :: y :: as) (hy : y = .now b ∨ y = .later b)
    (hpending : (c.proc i).pending = []) (h : Conflict a b) : Racy c :=
  racy_of_racesOn (racesOn_of_own hi hy hpending h)

/-- A process keeps to itself, whatever the others do. -/
theorem alone_next {i : ι} (halone : Alone (c.proc i)) (h : next c e = some c') :
    Alone (c'.proc i) := by
  cases e with
  | own j m =>
    obtain ⟨a?, p, hmove, rfl⟩ := next_own_iff.mp h
    show Alone (Function.update c.proc j p i)
    rcases eq_or_ne i j with rfl | hij
    · rw [Function.update_self]
      exact (alone_move halone hmove).1
    · rwa [Function.update_of_ne hij]
  | sync =>
    obtain ⟨hsync, rfl⟩ := next_sync_iff.mp h
    obtain ⟨⟨as, hrest⟩, hpending⟩ := Proc.atSync_iff.mp (hsync i)
    have htidy := halone.tidy
    rw [hrest] at htidy
    refine alone_of_idle ?_ hpending
    show Tidy (c.proc i).rest.tail
    rw [hrest]
    exact htidy.tail

/-- **A tidy process never races with itself.** -/
theorem not_racesOn {i : ι} (halone : Alone (c.proc i)) : ¬ RacesOn c i := by
  rintro ⟨es, t, m, m', a, a', hrun, hne, ha, ha', hconflict⟩
  have halone_run : ∀ es : List (Event ι), ∀ c : Config ι ℓ v, Alone (c.proc i) →
      run next c es = some t → Alone (t.proc i) := by
    intro es
    induction es with
    | nil => exact fun c halone hrun => Option.some.inj hrun ▸ halone
    | cons e es ih =>
      intro c halone hrun
      obtain ⟨c₁, hnext, hrun⟩ := run_cons_iff.mp hrun
      exact ih c₁ (alone_next halone hnext) hrun
  obtain ⟨⟨_, p⟩, hnext, rfl⟩ := Option.bind_eq_some_iff.mp ha
  obtain ⟨⟨_, p'⟩, hnext', rfl⟩ := Option.bind_eq_some_iff.mp ha'
  exact (moves_comm (halone_run es c halone hrun) hne hnext hnext').1 a rfl a' rfl hconflict

end

end MpiBugs.Epochs
