import Mathlib.Data.Fintype.Basic
import Mathlib.Data.Fintype.Pi
import Mathlib.Logic.Function.Basic
import Mathlib.Logic.Relation
import Mathlib.Tactic.Common

/-!
# Point-to-point message passing

Ranks that run straight-line programs of MPI calls, and messages that are
matched with receives at any time after both have been posted: in the order in
which they were posted, for messages between the same two ranks and for the
receives of one rank. A send is complete when it is matched or, if the library
buffers it (eager), at once; a receive is complete when it is matched.

* `next_cases`: what a step can do;
* `reachable_local`: the local state of a rank is that of the calls it has made;
* `reachable_matching`: nothing is matched twice, nor with what it does not accept;
* `reachable_waited`: behind a wait its request is complete;
* `stuck_cases`: only waits and the end of the program can block.
-/

namespace MpiBugs.MessagePassing

/-! ## Programs -/

structure Message (ι δ : Type) where
  dest : ι
  tag : Nat
  data : δ
  deriving DecidableEq, Repr

/-- A receive; `none` is `MPI_ANY_SOURCE` or `MPI_ANY_TAG`. -/
structure Receive (ι : Type) where
  source : Option ι
  tag : Option Nat
  deriving DecidableEq, Repr

/-- A communication that a request can stand for. -/
inductive Comm (ι δ : Type)
  | send (m : Message ι δ)
  | recv (r : Receive ι)
  deriving DecidableEq, Repr

/-- A call; requests are named by numbers. -/
inductive Op (ι δ : Type)
  /-- `MPI_Isend`, `MPI_Irecv` -/
  | post (c : Comm ι δ) (req : Nat)
  /-- `MPI_Send_init`, `MPI_Recv_init` -/
  | init (c : Comm ι δ) (req : Nat)
  | start (req : Nat)
  | wait (req : Nat)
  /-- `MPI_Request_free` of a request that is not null -/
  | free (req : Nat)
  | finalize
  deriving DecidableEq, Repr

/-- An active request has the number of its message, or of its receive. -/
inductive Handle (ι δ : Type)
  | null
  | inactive (c : Comm ι δ)
  | active (c : Comm ι δ) (num : Nat) (persistent : Bool)

/-- What one rank knows: its requests, the messages it has sent and the
receives it has posted. -/
structure Local (ι δ : Type) where
  handle : Nat → Handle ι δ
  outbox : List (Message ι δ)
  inbox : List (Receive ι)

variable {ι δ : Type}

def Local.initial : Local ι δ := ⟨fun _ => .null, [], []⟩

/-- A communication starts under a request. -/
def Local.issue (l : Local ι δ) (req : Nat) (persistent : Bool) : Comm ι δ → Local ι δ
  | .send m => ⟨Function.update l.handle req (.active (.send m) l.outbox.length persistent),
      l.outbox ++ [m], l.inbox⟩
  | .recv r => ⟨Function.update l.handle req (.active (.recv r) l.inbox.length persistent),
      l.outbox, l.inbox ++ [r]⟩

/-- The effect of a call on its rank. A start of a request that is not inactive
is an error of the program, and starts nothing. -/
def Local.exec (l : Local ι δ) : Op ι δ → Local ι δ
  | .post c req => l.issue req false c
  | .init c req => ⟨Function.update l.handle req (.inactive c), l.outbox, l.inbox⟩
  | .start req =>
    match l.handle req with
    | .inactive c => l.issue req true c
    | _ => l
  | .wait req =>
    match l.handle req with
    | .active c _ true => ⟨Function.update l.handle req (.inactive c), l.outbox, l.inbox⟩
    | .active _ _ false => ⟨Function.update l.handle req .null, l.outbox, l.inbox⟩
    | _ => l
  | .free req => ⟨Function.update l.handle req .null, l.outbox, l.inbox⟩
  | .finalize => l

def Local.run (ops : List (Op ι δ)) : Local ι δ := ops.foldl Local.exec Local.initial

theorem Local.run_concat (p : List (Op ι δ)) (op : Op ι δ) :
    Local.run (p ++ [op]) = (Local.run p).exec op := by
  rw [Local.run, List.foldl_append]
  rfl

theorem Local.issue_grows (l : Local ι δ) (req : Nat) (persistent : Bool) (c : Comm ι δ) :
    l.outbox <+: (l.issue req persistent c).outbox ∧ l.inbox <+: (l.issue req persistent c).inbox := by
  cases c with
  | send m => exact ⟨List.prefix_append _ _, List.prefix_refl _⟩
  | recv r => exact ⟨List.prefix_refl _, List.prefix_append _ _⟩

/-- Calls only add messages and receives. -/
theorem Local.exec_grows (l : Local ι δ) (op : Op ι δ) :
    l.outbox <+: (l.exec op).outbox ∧ l.inbox <+: (l.exec op).inbox := by
  have hsame : l.outbox <+: l.outbox ∧ l.inbox <+: l.inbox :=
    ⟨List.prefix_refl _, List.prefix_refl _⟩
  cases op with
  | post c req => exact l.issue_grows req false c
  | start req =>
    rw [exec]
    split
    · exact l.issue_grows req true _
    · exact hsame
  | wait req =>
    rw [exec]
    split
    · exact hsame
    · exact hsame
    · exact hsame
  | init | free | finalize => exact hsame

theorem Local.run_grows {p q : List (Op ι δ)} (h : p <+: q) :
    (Local.run p).outbox <+: (Local.run q).outbox ∧ (Local.run p).inbox <+: (Local.run q).inbox := by
  obtain ⟨t, rfl⟩ := h
  induction t using List.reverseRecOn with
  | nil => rw [List.append_nil]; exact ⟨List.prefix_refl _, List.prefix_refl _⟩
  | append_singleton t op ih =>
    rw [← List.append_assoc, Local.run_concat]
    have hop := Local.exec_grows (Local.run (p ++ t)) op
    exact ⟨ih.1.trans hop.1, ih.2.trans hop.2⟩

theorem getElem?_of_prefix {α : Type} {xs ys : List α} (h : xs <+: ys) {k : Nat} {a : α}
    (ha : xs[k]? = some a) : ys[k]? = some a := by
  obtain ⟨zs, rfl⟩ := h
  obtain ⟨hk, _⟩ := List.getElem?_eq_some_iff.mp ha
  rw [List.getElem?_append_left hk, ha]

/-- What stands behind all of `xs` is reached after `xs`. -/
theorem prefix_of_head?_not_mem {α : Type} {xs ys p q : List α} (h : xs ++ ys = p ++ q)
    (hq : ∀ a ∈ q.head?, a ∉ xs) : xs <+: p := by
  rcases List.append_eq_append_iff.mp h with ⟨b, hb, _⟩ | ⟨c, hc, hcq⟩
  · exact ⟨b, hb.symm⟩
  · cases c with
    | nil => rw [hc, List.append_nil]
    | cons a c =>
      have hhead : a ∈ q.head? := by rw [hcq]; rfl
      exact absurd (by rw [hc]; simp) (hq a hhead)

/-! ## Steps -/

/-- The message, or the receive, of that number of that rank. -/
abbrev Ident (ι : Type) := ι × Nat

/-- What an implementation may choose: the sends it buffers, and whether
`MPI_Finalize` waits for the other ranks. -/
structure Library (ι : Type) where
  eager : Ident ι → Bool
  finalizeWaits : Bool

structure State (ι δ : Type) where
  rest : ι → List (Op ι δ)
  loc : ι → Local ι δ
  matched : List (Ident ι × Ident ι)

def initial (program : ι → List (Op ι δ)) : State ι δ := ⟨program, fun _ => .initial, []⟩

/-- The messages, and the receives, that have been matched. -/
def State.sent (st : State ι δ) : List (Ident ι) := st.matched.map Prod.fst

def State.received (st : State ι δ) : List (Ident ι) := st.matched.map Prod.snd

/-- The receive takes a message of that sender. -/
def Accepts (r : Receive ι) (sender : ι) (m : Message ι δ) : Prop :=
  (∀ i ∈ r.source, i = sender) ∧ ∀ t ∈ r.tag, t = m.tag

/-- The message `m` of that text may be matched with the receive `r`: neither
overtakes another one that would do. -/
structure CanMatch (st : State ι δ) (m r : Ident ι) (msg : Message ι δ) (rcv : Receive ι) : Prop where
  dest : msg.dest = r.1
  accepts : Accepts rcv m.1 msg
  pending : m ∉ st.sent ∧ r ∉ st.received
  inOrder : ∀ k < m.2, ∀ other ∈ (st.loc m.1).outbox[k]?,
    other.dest = r.1 → Accepts rcv m.1 other → (m.1, k) ∈ st.sent
  asPosted : ∀ k < r.2, ∀ other ∈ (st.loc r.1).inbox[k]?,
    Accepts other m.1 msg → (r.1, k) ∈ st.received

/-- A wait on that request returns. -/
def Complete (lib : Library ι) (st : State ι δ) (i : ι) : Handle ι δ → Prop
  | .active (.send _) num _ => lib.eager (i, num) = true ∨ (i, num) ∈ st.sent
  | .active (.recv _) num _ => (i, num) ∈ st.received
  | _ => True

/-- The rank can make the call. -/
def Enabled (lib : Library ι) (st : State ι δ) (i : ι) : Op ι δ → Prop
  | .wait req => Complete lib st i ((st.loc i).handle req)
  | .finalize => lib.finalizeWaits = true → ∀ j, st.rest j = [] ∨ st.rest j = [.finalize]
  | _ => True

def State.deliver (st : State ι δ) (m r : Ident ι) : State ι δ :=
  ⟨st.rest, st.loc, (m, r) :: st.matched⟩

section

variable {lib : Library ι} {st st' : State ι δ}

/-- **Nothing is matched twice**, and what is matched fits. -/
structure Matching (st : State ι δ) : Prop where
  sentOnce : st.sent.Nodup
  receivedOnce : st.received.Nodup
  fits : ∀ e ∈ st.matched, ∃ msg rcv, (st.loc e.1.1).outbox[e.1.2]? = some msg ∧
    (st.loc e.2.1).inbox[e.2.2]? = some rcv ∧ msg.dest = e.2.1 ∧ Accepts rcv e.1.1 msg

theorem matching_deliver {m r : Ident ι} {msg : Message ι δ} {rcv : Receive ι}
    (hmsg : (st.loc m.1).outbox[m.2]? = some msg) (hrcv : (st.loc r.1).inbox[r.2]? = some rcv)
    (hcan : CanMatch st m r msg rcv) (h : Matching st) : Matching (st.deliver m r) := by
  refine ⟨List.nodup_cons.mpr ⟨hcan.pending.1, h.sentOnce⟩,
    List.nodup_cons.mpr ⟨hcan.pending.2, h.receivedOnce⟩, fun e he => ?_⟩
  rcases List.mem_cons.mp he with rfl | he
  · exact ⟨msg, rcv, hmsg, hrcv, hcan.dest, hcan.accepts⟩
  · exact h.fits e he

theorem complete_mono {i : ι} {h : Handle ι δ} (hsent : st.sent ⊆ st'.sent)
    (hreceived : st.received ⊆ st'.received) (hc : Complete lib st i h) : Complete lib st' i h := by
  cases h with
  | null => trivial
  | inactive c => trivial
  | active c num persistent =>
    cases c with
    | send m => exact hc.imp_right fun h => hsent h
    | recv r => exact hreceived hc

end

section

variable [DecidableEq ι]

def State.act (st : State ι δ) (i : ι) (op : Op ι δ) (ops : List (Op ι δ)) : State ι δ :=
  ⟨Function.update st.rest i ops, Function.update st.loc i ((st.loc i).exec op), st.matched⟩

@[simp] theorem act_rest_self (st : State ι δ) (i : ι) (op : Op ι δ) (ops : List (Op ι δ)) :
    (st.act i op ops).rest i = ops := Function.update_self ..

@[simp] theorem act_loc_self (st : State ι δ) (i : ι) (op : Op ι δ) (ops : List (Op ι δ)) :
    (st.act i op ops).loc i = (st.loc i).exec op := Function.update_self ..

theorem act_rest_ne (st : State ι δ) {i j : ι} (h : j ≠ i) (op : Op ι δ) (ops : List (Op ι δ)) :
    (st.act i op ops).rest j = st.rest j := Function.update_of_ne h ..

theorem act_loc_ne (st : State ι δ) {i j : ι} (h : j ≠ i) (op : Op ι δ) (ops : List (Op ι δ)) :
    (st.act i op ops).loc j = st.loc j := Function.update_of_ne h ..

theorem matching_act {st : State ι δ} {i : ι} (op : Op ι δ) (ops : List (Op ι δ)) (h : Matching st) :
    Matching (st.act i op ops) := by
  refine ⟨h.sentOnce, h.receivedOnce, fun e he => ?_⟩
  obtain ⟨msg, rcv, hmsg, hrcv, hdest, haccepts⟩ := h.fits e he
  have hgrow : ∀ j, (st.loc j).outbox <+: ((st.act i op ops).loc j).outbox ∧
      (st.loc j).inbox <+: ((st.act i op ops).loc j).inbox := by
    intro j
    by_cases hji : j = i
    · subst hji
      rw [act_loc_self]
      exact Local.exec_grows _ op
    · rw [act_loc_ne _ hji]
      exact ⟨List.prefix_refl _, List.prefix_refl _⟩
  exact ⟨msg, rcv, getElem?_of_prefix (hgrow e.1.1).1 hmsg, getElem?_of_prefix (hgrow e.2.1).2 hrcv,
    hdest, haccepts⟩

end

inductive Event (ι : Type)
  | act (i : ι)
  | deliver (m r : Ident ι)

section

variable [DecidableEq ι] [DecidableEq δ] [Fintype ι]

instance (r : Receive ι) (sender : ι) (m : Message ι δ) : Decidable (Accepts r sender m) :=
  inferInstanceAs (Decidable (_ ∧ _))

instance (st : State ι δ) (m r : Ident ι) (msg : Message ι δ) (rcv : Receive ι) :
    Decidable (CanMatch st m r msg rcv) :=
  decidable_of_iff (msg.dest = r.1 ∧ Accepts rcv m.1 msg ∧ (m ∉ st.sent ∧ r ∉ st.received) ∧
    (∀ k < m.2, ∀ other ∈ (st.loc m.1).outbox[k]?,
      other.dest = r.1 → Accepts rcv m.1 other → (m.1, k) ∈ st.sent) ∧
    ∀ k < r.2, ∀ other ∈ (st.loc r.1).inbox[k]?, Accepts other m.1 msg → (r.1, k) ∈ st.received)
    ⟨fun ⟨h₁, h₂, h₃, h₄, h₅⟩ => ⟨h₁, h₂, h₃, h₄, h₅⟩, fun ⟨h₁, h₂, h₃, h₄, h₅⟩ => ⟨h₁, h₂, h₃, h₄, h₅⟩⟩

instance (lib : Library ι) (st : State ι δ) (i : ι) (h : Handle ι δ) :
    Decidable (Complete lib st i h) :=
  match h with
  | .active (.send _) num _ => inferInstanceAs (Decidable (lib.eager (i, num) = true ∨ _))
  | .active (.recv _) num _ => inferInstanceAs (Decidable ((i, num) ∈ st.received))
  | .null => isTrue trivial
  | .inactive _ => isTrue trivial

instance (lib : Library ι) (st : State ι δ) (i : ι) (op : Op ι δ) : Decidable (Enabled lib st i op) :=
  match op with
  | .wait _ => inferInstanceAs (Decidable (Complete lib st i _))
  | .finalize => inferInstanceAs (Decidable (_ → _))
  | .post _ _ => isTrue trivial
  | .init _ _ => isTrue trivial
  | .start _ => isTrue trivial
  | .free _ => isTrue trivial

def next (lib : Library ι) (st : State ι δ) : Event ι → Option (State ι δ)
  | .act i =>
    match st.rest i with
    | [] => none
    | op :: ops => if Enabled lib st i op then some (st.act i op ops) else none
  | .deliver m r =>
    match (st.loc m.1).outbox[m.2]?, (st.loc r.1).inbox[r.2]? with
    | some msg, some rcv => if CanMatch st m r msg rcv then some (st.deliver m r) else none
    | _, _ => none

def Step (lib : Library ι) (st st' : State ι δ) : Prop := ∃ e, next lib st e = some st'

/-- The states of the runs of the program. -/
def Reachable (lib : Library ι) (program : ι → List (Op ι δ)) (st : State ι δ) : Prop :=
  Relation.ReflTransGen (Step lib) (initial program) st

/-- A run along the events, if they are possible. -/
def runEvents (lib : Library ι) (st : State ι δ) : List (Event ι) → Option (State ι δ)
  | [] => some st
  | e :: es => (next lib st e).bind fun st => runEvents lib st es

variable {lib : Library ι} {program : ι → List (Op ι δ)} {st st' : State ι δ}

theorem next_act {i : ι} (h : next lib st (.act i) = some st') :
    ∃ op ops, st.rest i = op :: ops ∧ Enabled lib st i op ∧ st' = st.act i op ops := by
  rw [next] at h
  cases hrest : st.rest i with
  | nil => simp [hrest] at h
  | cons op ops =>
    simp only [hrest] at h
    split at h
    · exact ⟨op, ops, rfl, ‹_›, (Option.some.inj h).symm⟩
    · cases h

theorem next_deliver {m r : Ident ι} (h : next lib st (.deliver m r) = some st') :
    ∃ msg rcv, (st.loc m.1).outbox[m.2]? = some msg ∧ (st.loc r.1).inbox[r.2]? = some rcv ∧
      CanMatch st m r msg rcv ∧ st' = st.deliver m r := by
  rw [next] at h
  split at h
  · rename_i msg rcv hmsg hrcv
    split at h
    · exact ⟨msg, rcv, hmsg, hrcv, ‹_›, (Option.some.inj h).symm⟩
    · cases h
  · cases h

/-- **What a step can do**: one rank makes its next call, or a message is matched. -/
theorem next_cases {e : Event ι} (h : next lib st e = some st') :
    (∃ i op ops, st.rest i = op :: ops ∧ Enabled lib st i op ∧ st' = st.act i op ops) ∨
      ∃ m r msg rcv, (st.loc m.1).outbox[m.2]? = some msg ∧ (st.loc r.1).inbox[r.2]? = some rcv ∧
        CanMatch st m r msg rcv ∧ st' = st.deliver m r := by
  cases e with
  | act i => exact .inl ⟨i, next_act h⟩
  | deliver m r => exact .inr ⟨m, r, next_deliver h⟩

theorem step_act {i : ι} {op : Op ι δ} {ops : List (Op ι δ)} (hrest : st.rest i = op :: ops)
    (h : Enabled lib st i op) : Step lib st (st.act i op ops) :=
  ⟨.act i, by simp only [next, hrest, if_pos h]⟩

theorem step_deliver {m r : Ident ι} {msg : Message ι δ} {rcv : Receive ι}
    (hmsg : (st.loc m.1).outbox[m.2]? = some msg) (hrcv : (st.loc r.1).inbox[r.2]? = some rcv)
    (h : CanMatch st m r msg rcv) : Step lib st (st.deliver m r) :=
  ⟨.deliver m r, by simp only [next, hmsg, hrcv, if_pos h]⟩

theorem reachable_run {es : List (Event ι)} (hst : Reachable lib program st)
    (h : runEvents lib st es = some st') : Reachable lib program st' := by
  induction es generalizing st with
  | nil => exact Option.some.inj h ▸ hst
  | cons e es ih =>
    obtain ⟨st₁, h₁, h⟩ := Option.bind_eq_some_iff.mp h
    exact ih (hst.tail ⟨e, h₁⟩) h

/-! ## Invariants -/

/-- **The local state is that of the calls made so far.** -/
theorem reachable_local (h : Reachable lib program st) (i : ι) :
    ∃ p, program i = p ++ st.rest i ∧ st.loc i = Local.run p := by
  induction h with
  | refl => exact ⟨[], rfl, rfl⟩
  | tail _ hstep ih =>
    obtain ⟨p, hp, hloc⟩ := ih
    obtain ⟨e, he⟩ := hstep
    rcases next_cases he with ⟨j, op, ops, hrest, _, rfl⟩ | ⟨m, r, _, _, _, _, _, rfl⟩
    · by_cases hij : i = j
      · subst hij
        exact ⟨p ++ [op], by rw [hp, hrest]; simp, by rw [act_loc_self, hloc, Local.run_concat]⟩
      · exact ⟨p, by rw [hp, act_rest_ne _ hij], by rw [act_loc_ne _ hij, hloc]⟩
    · exact ⟨p, hp, hloc⟩

/-- A rank has posted no more than its whole program does. -/
theorem reachable_posted (h : Reachable lib program st) (i : ι) :
    (st.loc i).outbox <+: (Local.run (program i)).outbox ∧
      (st.loc i).inbox <+: (Local.run (program i)).inbox := by
  obtain ⟨p, hp, hloc⟩ := reachable_local h i
  rw [hloc]
  exact Local.run_grows ⟨st.rest i, hp.symm⟩

theorem reachable_matching (h : Reachable lib program st) : Matching st := by
  induction h with
  | refl => exact ⟨List.nodup_nil, List.nodup_nil, fun e he => by cases he⟩
  | tail _ hstep ih =>
    obtain ⟨e, he⟩ := hstep
    rcases next_cases he with ⟨j, op, ops, _, _, rfl⟩ | ⟨m, r, _, _, hmsg, hrcv, hcan, rfl⟩
    · exact matching_act op ops ih
    · exact matching_deliver hmsg hrcv hcan ih

/-- **Behind a wait its request is complete.** -/
theorem reachable_waited (h : Reachable lib program st) {i : ι} {p q : List (Op ι δ)} {req : Nat}
    (hp : program i = p ++ .wait req :: q ++ st.rest i) :
    Complete lib st i ((Local.run p).handle req) := by
  induction h generalizing q with
  | refl =>
    have hlen := congrArg List.length (show program i = p ++ .wait req :: q ++ program i from hp)
    simp only [List.length_append, List.length_cons] at hlen
    omega
  | @tail st st' hrun hstep ih =>
    obtain ⟨e, he⟩ := hstep
    rcases next_cases he with ⟨j, op, ops, hrest, henabled, rfl⟩ | ⟨m, r, _, _, _, _, _, rfl⟩
    · have hsame : Complete lib st i ((Local.run p).handle req) := by
        by_cases hij : i = j
        · subst hij
          rw [act_rest_self] at hp
          rcases List.eq_nil_or_concat q with rfl | ⟨q, op', rfl⟩
          · -- the wait is the call just made
            obtain ⟨p', hp', hloc⟩ := reachable_local hrun i
            rw [hrest] at hp'
            obtain ⟨rfl, hop⟩ : p' = p ∧ op = .wait req := by
              have hsplit : (p' ++ [op]) ++ ops = (p ++ [.wait req]) ++ ops := by
                rw [← hp, hp']
                simp
              have heq := List.append_cancel_right hsplit
              obtain ⟨hpp, hop⟩ := List.append_inj' heq rfl
              exact ⟨hpp, List.singleton_inj.mp hop⟩
            rw [hop, Enabled, hloc] at henabled
            exact henabled
          · refine ih (q := q) ?_
            obtain ⟨p', hp', _⟩ := reachable_local hrun i
            rw [hrest] at hp' ⊢
            have hsplit : (p' ++ [op]) ++ ops = (p ++ .wait req :: q ++ [op']) ++ ops := by
              rw [List.append_assoc, List.singleton_append, ← hp', hp]
              simp
            have heq := List.append_cancel_right hsplit
            obtain ⟨hpp, _⟩ := List.append_inj' heq rfl
            rw [hp', hpp]
        · rw [act_rest_ne _ hij] at hp
          exact ih hp
      exact complete_mono (fun _ h => h) (fun _ h => h) hsame
    · exact complete_mono (List.subset_cons_self _ _) (List.subset_cons_self _ _) (ih hp)

/-- **Only a wait or the end of the program blocks.** -/
theorem stuck_cases (hstuck : ∀ st', ¬ Step lib st st') {i : ι} {op : Op ι δ} {ops : List (Op ι δ)}
    (hrest : st.rest i = op :: ops) :
    (∃ req, op = .wait req ∧ ¬ Complete lib st i ((st.loc i).handle req)) ∨
      op = .finalize ∧ lib.finalizeWaits = true ∧ ∃ j, st.rest j ≠ [] ∧ st.rest j ≠ [.finalize] := by
  have henabled : ¬ Enabled lib st i op := fun h => hstuck _ (step_act hrest h)
  cases op with
  | wait req => exact .inl ⟨req, rfl, henabled⟩
  | finalize =>
    right
    rw [Enabled, Classical.not_imp] at henabled
    obtain ⟨hwaits, hj⟩ := henabled
    simp only [not_forall, not_or] at hj
    exact ⟨rfl, hwaits, hj⟩
  | post c req => exact absurd trivial henabled
  | init c req => exact absurd trivial henabled
  | start req => exact absurd trivial henabled
  | free req => exact absurd trivial henabled

end

end MpiBugs.MessagePassing
