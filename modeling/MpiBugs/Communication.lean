import MpiBugs.MessagePassing
import MpiBugs.Interleaving
import Mathlib.Data.List.Enum

/-!
# Messages, probes and collectives

Ranks whose programs also probe for messages and take part in collectives of one
communicator. The collectives of a rank are numbered in the order in which it enters
them; to leave one, a rank may have to wait until others have entered the one of that
number, which must be of the same kind.

* `next_base`: seen from the messages, this is message passing;
* `commuting`: without `MPI_ANY_SOURCE` all events commute;
* `ends_congr`: a library matters only by the messages and collectives of a program;
* `ends_rename`: nor does it matter what the collectives are called;
* `ends_of_settled`: what a program does is what one schedule of it does.
-/

namespace MpiBugs.Communication

open MessagePassing Interleaving

/-! ## Programs -/

inductive Call (ι δ κ : Type)
  | op (o : Op ι δ)
  /-- `MPI_Probe` -/
  | probe (r : Receive ι)
  /-- a collective begins, under that request -/
  | enter (kind : κ) (req : Nat)
  /-- and is waited for -/
  | leave (req : Nat)
  deriving DecidableEq, Repr

variable {ι δ κ : Type}

/-- What an implementation may choose: also who waits for whom in a collective. -/
structure Implementation (ι κ : Type) extends Library ι where
  waits : κ → ι → ι → Bool

structure Config (ι δ κ : Type) where
  rest : ι → List (Call ι δ κ)
  loc : ι → Local ι δ
  entered : ι → List (κ × Nat)
  matched : List (Ident ι × Ident ι)

def start (program : ι → List (Call ι δ κ)) : Config ι δ κ :=
  ⟨program, fun _ => .initial, fun _ => [], []⟩

def Call.op? : Call ι δ κ → Option (Op ι δ)
  | .op o => some o
  | _ => none

/-- The effect of a call on the messages of its rank. -/
def Call.exec (l : Local ι δ) : Call ι δ κ → Local ι δ
  | .op o => l.exec o
  | _ => l

/-- And on its collectives. -/
def Call.join (entered : List (κ × Nat)) : Call ι δ κ → List (κ × Nat)
  | .enter kind req => entered ++ [(kind, req)]
  | _ => entered

/-- The point-to-point calls. -/
def ops (calls : List (Call ι δ κ)) : List (Op ι δ) := calls.filterMap Call.op?

/-- The collectives. -/
def enters (calls : List (Call ι δ κ)) : List (κ × Nat) := calls.foldl Call.join []

theorem join_grows (entered : List (κ × Nat)) (calls : List (Call ι δ κ)) :
    entered <+: calls.foldl Call.join entered := by
  induction calls generalizing entered with
  | nil => exact List.prefix_refl _
  | cons call calls ih =>
    refine List.IsPrefix.trans ?_ (ih _)
    cases call with
    | enter kind req => exact List.prefix_append _ _
    | op | probe | leave => exact List.prefix_refl _

/-- The state as far as messages are concerned. -/
def Config.base (c : Config ι δ κ) : State ι δ := ⟨fun i => ops (c.rest i), c.loc, c.matched⟩

/-- A message for the rank is there which none of its receives will take. -/
def Probed (c : Config ι δ κ) (i : ι) (r : Receive ι) : Prop :=
  ∃ j, ∃ m ∈ (c.loc j).outbox.zipIdx, m.1.dest = i ∧ Accepts r j m.1 ∧ (j, m.2) ∉ c.base.sent ∧
    ∀ p ∈ (c.loc i).inbox.zipIdx, Accepts p.1 j m.1 → (i, p.2) ∈ c.base.received

/-- The collectives under that request may be left. -/
def Released (lib : Implementation ι κ) (c : Config ι δ κ) (i : ι) (req : Nat) : Prop :=
  ∀ e ∈ (c.entered i).zipIdx, e.1.2 = req → ∀ j, j ≠ i →
    lib.waits e.1.1 i j = true → ((c.entered j)[e.2]?).map Prod.fst = some e.1.1

def Enabled (lib : Implementation ι κ) (c : Config ι δ κ) (i : ι) : Call ι δ κ → Prop
  | .op (.wait req) => Complete lib.toLibrary c.base i ((c.loc i).handle req)
  | .op .finalize => lib.finalizeWaits = true → ∀ j, c.rest j = [] ∨ c.rest j = [.op .finalize]
  | .op _ => True
  | .probe r => Probed c i r
  | .enter _ _ => True
  | .leave req => Released lib c i req

def Config.deliver (c : Config ι δ κ) (m r : Ident ι) : Config ι δ κ :=
  { c with matched := (m, r) :: c.matched }

/-- The same but for the order in which messages have been matched. -/
structure Same (c c' : Config ι δ κ) : Prop where
  rest : c.rest = c'.rest
  loc : c.loc = c'.loc
  entered : c.entered = c'.entered
  matched : c.matched.Perm c'.matched

theorem same_equivalence : Equivalence (Same : Config ι δ κ → Config ι δ κ → Prop) where
  refl _ := ⟨rfl, rfl, rfl, List.Perm.refl _⟩
  symm h := ⟨h.rest.symm, h.loc.symm, h.entered.symm, h.matched.symm⟩
  trans h h' := ⟨h.rest.trans h'.rest, h.loc.trans h'.loc, h.entered.trans h'.entered,
    h.matched.trans h'.matched⟩

section

variable {lib : Implementation ι κ} {c c' : Config ι δ κ}

theorem Same.sent (h : Same c c') : c.base.sent ⊆ c'.base.sent :=
  (h.matched.map Prod.fst).subset

theorem Same.received (h : Same c c') : c.base.received ⊆ c'.base.received :=
  (h.matched.map Prod.snd).subset

/-! ## What goes on does not get in the way -/

/-- A message and a receive still fit where more has been posted and matched. -/
theorem canMatch_mono {st st' : State ι δ} {m r : Ident ι} {msg : Message ι δ} {rcv : Receive ι}
    (h : CanMatch st m r msg rcv) (hsent : st.sent ⊆ st'.sent)
    (hreceived : st.received ⊆ st'.received)
    (hpending : m ∉ st'.sent ∧ r ∉ st'.received)
    (hout : ∀ k < m.2, (st'.loc m.1).outbox[k]? = (st.loc m.1).outbox[k]?)
    (hin : ∀ k < r.2, (st'.loc r.1).inbox[k]? = (st.loc r.1).inbox[k]?) :
    CanMatch st' m r msg rcv := by
  refine ⟨h.dest, h.accepts, hpending, fun k hk other hother hdest haccepts => ?_,
    fun k hk other hother haccepts => ?_⟩
  · rw [hout k hk] at hother
    exact hsent (h.inOrder k hk other hother hdest haccepts)
  · rw [hin k hk] at hother
    exact hreceived (h.asPosted k hk other hother haccepts)

/-- A message that was there is still there, unless one of the receives takes it. -/
theorem probed_mono {i : ι} {r : Receive ι} (h : Probed c i r)
    (hout : ∀ j, (c.loc j).outbox <+: (c'.loc j).outbox)
    (hin : (c'.loc i).inbox = (c.loc i).inbox) (hreceived : c.base.received ⊆ c'.base.received)
    (hsent : ∀ j k msg, (c.loc j).outbox[k]? = some msg → msg.dest = i → (j, k) ∈ c'.base.sent →
      (∀ p ∈ (c.loc i).inbox.zipIdx, Accepts p.1 j msg → (i, p.2) ∈ c.base.received) →
      (j, k) ∈ c.base.sent) : Probed c' i r := by
  obtain ⟨j, ⟨msg, k⟩, hmsg, hdest, haccepts, hpending, hother⟩ := h
  rw [List.mem_zipIdx_iff_getElem?] at hmsg
  refine ⟨j, (msg, k), ?_, hdest, haccepts, fun hk => hpending ?_, ?_⟩
  · rw [List.mem_zipIdx_iff_getElem?]
    exact getElem?_of_prefix (hout j) hmsg
  · exact hsent j k msg hmsg hdest hk hother
  · rw [hin]
    exact fun p hp hacc => hreceived (hother p hp hacc)

/-- What a rank can do it can still do where others have gone on. -/
theorem enabled_mono {i : ι} {call : Call ι δ κ} (h : Enabled lib c i call)
    (hloc : c'.loc i = c.loc i) (hown : c'.entered i = c.entered i)
    (hentered : ∀ j, c.entered j <+: c'.entered j) (hsent : c.base.sent ⊆ c'.base.sent)
    (hreceived : c.base.received ⊆ c'.base.received)
    (hrest : ∀ j, c.rest j = [] ∨ c.rest j = [.op .finalize] →
      c'.rest j = [] ∨ c'.rest j = [.op .finalize])
    (hprobe : ∀ r, Probed c i r → Probed c' i r) : Enabled lib c' i call := by
  cases call with
  | op o =>
    cases o with
    | wait req =>
      show Complete lib.toLibrary c'.base i ((c'.loc i).handle req)
      rw [hloc]
      exact complete_mono hsent hreceived h
    | finalize => exact fun hwaits j => hrest j (h hwaits j)
    | post | init | start | free => trivial
  | probe r => exact hprobe r h
  | enter kind req => trivial
  | leave req =>
    intro e he hreq j hji hj
    rw [hown] at he
    have hsame := h e he hreq j hji hj
    rw [Option.map_eq_some_iff] at hsame ⊢
    obtain ⟨x, hx, hkind⟩ := hsame
    exact ⟨x, getElem?_of_prefix (hentered j) hx, hkind⟩

theorem enabled_same {i : ι} {call : Call ι δ κ} (hsame : Same c c') (h : Enabled lib c i call) :
    Enabled lib c' i call := by
  have hloc := hsame.loc
  refine enabled_mono h (congrFun hloc i).symm (congrFun hsame.entered i).symm
    (fun j => (congrFun hsame.entered j) ▸ List.prefix_refl _) hsame.sent hsame.received
    (fun j => (congrFun hsame.rest j) ▸ id) fun r hr => ?_
  refine probed_mono hr (fun j => (congrFun hloc j) ▸ List.prefix_refl _)
    (by rw [hloc]) hsame.received fun j k msg _ _ hk _ => ?_
  exact (same_equivalence.symm hsame).sent hk

/-- To match a message does not get in the way of a call. -/
theorem enabled_deliver {m r : Ident ι} {msg : Message ι δ} {rcv : Receive ι}
    (hmsg : (c.loc m.1).outbox[m.2]? = some msg) (hrcv : (c.loc r.1).inbox[r.2]? = some rcv)
    (hcan : CanMatch c.base m r msg rcv) {i : ι} {call : Call ι δ κ} (h : Enabled lib c i call) :
    Enabled lib (c.deliver m r) i call := by
  refine enabled_mono h rfl rfl (fun j => List.prefix_refl _) (List.subset_cons_self ..)
    (List.subset_cons_self ..) (fun j => id) fun r' hr' => ?_
  refine probed_mono hr' (fun j => List.prefix_refl _) rfl (List.subset_cons_self ..) ?_
  intro j k other hother hdest hsent hprobe
  rcases List.mem_cons.mp hsent with heq | hsent
  · -- the message that is matched is taken by a receive that was waiting for it
    exfalso
    subst heq
    obtain rfl := Option.some.inj (hmsg.symm.trans hother)
    obtain rfl : i = r.1 := hdest.symm.trans hcan.dest
    refine hcan.pending.2 (hprobe (rcv, r.2) ?_ hcan.accepts)
    rw [List.mem_zipIdx_iff_getElem?]
    exact hrcv
  · exact hsent

/-- Of two receives for one message, and of two messages for one receive, one comes first. -/
theorem deliver_unique {m r m' r' : Ident ι} {msg msg' : Message ι δ} {rcv rcv' : Receive ι}
    (hmsg : (c.loc m.1).outbox[m.2]? = some msg) (hrcv : (c.loc r.1).inbox[r.2]? = some rcv)
    (hcan : CanMatch c.base m r msg rcv)
    (hmsg' : (c.loc m'.1).outbox[m'.2]? = some msg') (hrcv' : (c.loc r'.1).inbox[r'.2]? = some rcv')
    (hcan' : CanMatch c.base m' r' msg' rcv') (hnamed : rcv.source ≠ none) : m = m' ↔ r = r' := by
  obtain ⟨i, k⟩ := m
  obtain ⟨i', k'⟩ := m'
  obtain ⟨j, l⟩ := r
  obtain ⟨j', l'⟩ := r'
  constructor
  · intro h
    obtain ⟨rfl, rfl⟩ := Prod.mk.inj h
    obtain rfl := Option.some.inj (hmsg.symm.trans hmsg')
    obtain rfl : j = j' := hcan.dest.symm.trans hcan'.dest
    rcases Nat.lt_trichotomy l l' with hlt | rfl | hlt
    · exact absurd (hcan'.asPosted l hlt rcv hrcv hcan.accepts) hcan.pending.2
    · rfl
    · exact absurd (hcan.asPosted l' hlt rcv' hrcv' hcan'.accepts) hcan'.pending.2
  · intro h
    obtain ⟨rfl, rfl⟩ := Prod.mk.inj h
    obtain rfl := Option.some.inj (hrcv.symm.trans hrcv')
    obtain ⟨source, hsource⟩ := Option.ne_none_iff_exists'.mp hnamed
    obtain rfl : source = i := hcan.accepts.1 source hsource
    obtain rfl : source = i' := hcan'.accepts.1 source hsource
    rcases Nat.lt_trichotomy k k' with hlt | rfl | hlt
    · exact absurd (hcan'.inOrder k hlt msg hmsg hcan.dest hcan.accepts) hcan.pending.1
    · rfl
    · exact absurd (hcan.inOrder k' hlt msg' hmsg' hcan'.dest hcan'.accepts) hcan'.pending.1

end

section

variable [DecidableEq ι]

def Config.act (c : Config ι δ κ) (i : ι) (call : Call ι δ κ) (calls : List (Call ι δ κ)) :
    Config ι δ κ where
  rest := Function.update c.rest i calls
  loc := Function.update c.loc i (call.exec (c.loc i))
  entered := Function.update c.entered i (call.join (c.entered i))
  matched := c.matched

variable {lib : Implementation ι κ} {c : Config ι δ κ} {i j : ι} {call call' : Call ι δ κ}
  {calls calls' : List (Call ι δ κ)}

theorem loc_act_ne (h : j ≠ i) : (c.act i call calls).loc j = c.loc j := Function.update_of_ne h ..

theorem entered_act_ne (h : j ≠ i) : (c.act i call calls).entered j = c.entered j :=
  Function.update_of_ne h ..

theorem rest_act_ne (h : j ≠ i) : (c.act i call calls).rest j = c.rest j :=
  Function.update_of_ne h ..

/-- Calls only add messages, receives and collectives. -/
theorem act_grows (c : Config ι δ κ) (i : ι) (call : Call ι δ κ) (calls : List (Call ι δ κ))
    (j : ι) :
    (c.loc j).outbox <+: ((c.act i call calls).loc j).outbox ∧
      (c.loc j).inbox <+: ((c.act i call calls).loc j).inbox ∧
      c.entered j <+: (c.act i call calls).entered j := by
  by_cases hj : j = i
  · subst hj
    have hloc : (c.act j call calls).loc j = call.exec (c.loc j) := Function.update_self ..
    have hentered : (c.act j call calls).entered j = call.join (c.entered j) :=
      Function.update_self ..
    rw [hloc, hentered]
    cases call with
    | op o => exact ⟨(Local.exec_grows _ o).1, (Local.exec_grows _ o).2, List.prefix_refl _⟩
    | enter kind req => exact ⟨List.prefix_refl _, List.prefix_refl _, List.prefix_append _ _⟩
    | probe | leave => exact ⟨List.prefix_refl _, List.prefix_refl _, List.prefix_refl _⟩
  · rw [loc_act_ne hj, entered_act_ne hj]
    exact ⟨List.prefix_refl _, List.prefix_refl _, List.prefix_refl _⟩

/-- A call of another rank does not get in the way of a call. -/
theorem enabled_act (hji : j ≠ i) (hrest : c.rest i = call :: calls) (h : Enabled lib c j call') :
    Enabled lib (c.act i call calls) j call' := by
  refine enabled_mono h (loc_act_ne hji) (entered_act_ne hji)
    (fun k => (act_grows c i call calls k).2.2) (List.Subset.refl _) (List.Subset.refl _) ?_ ?_
  · intro k hk
    by_cases hki : k = i
    · subst hki
      left
      rw [hrest] at hk
      rcases hk with hk | hk
      · cases hk
      · obtain ⟨-, rfl⟩ := List.cons.inj hk
        exact Function.update_self ..
    · rw [rest_act_ne hki]
      exact hk
  · exact fun r hr => probed_mono hr (fun k => (act_grows c i call calls k).1)
      (by rw [loc_act_ne hji]) (List.Subset.refl _) fun _ _ _ _ _ hk _ => hk

/-- Nor of the matching of a message. -/
theorem canMatch_act {m r : Ident ι} {msg : Message ι δ} {rcv : Receive ι}
    (hmsg : (c.loc m.1).outbox[m.2]? = some msg) (hrcv : (c.loc r.1).inbox[r.2]? = some rcv)
    (h : CanMatch c.base m r msg rcv) : CanMatch (c.act i call calls).base m r msg rcv := by
  have hsame : ∀ {α : Type} {xs ys : List α} {n : Nat} {a : α}, xs <+: ys → xs[n]? = some a →
      ∀ k < n, ys[k]? = xs[k]? := by
    intro α xs ys n a hprefix hn k hk
    obtain ⟨hlen, -⟩ := List.getElem?_eq_some_iff.mp hn
    have hxs := List.getElem?_eq_getElem (hk.trans hlen)
    rw [hxs]
    exact getElem?_of_prefix hprefix hxs
  exact canMatch_mono h (List.Subset.refl _) (List.Subset.refl _) h.pending
    (hsame (act_grows c i call calls m.1).1 hmsg) (hsame (act_grows c i call calls r.1).2.1 hrcv)

theorem act_comm (hij : i ≠ j) :
    (c.act i call calls).act j call' calls' = (c.act j call' calls').act i call calls := by
  simp only [Config.act, Function.update_of_ne hij, Function.update_of_ne hij.symm,
    Function.update_comm hij]

end

/-! ## What a program can post -/

/-- The number of an active send is that of a message. -/
def WellNumbered (l : Local ι δ) : Prop :=
  ∀ req m num pers, l.handle req = .active (.send m) num pers → num < l.outbox.length

theorem wellNumbered_issue {l : Local ι δ} (h : WellNumbered l) (req : Nat) (pers : Bool)
    (comm : Comm ι δ) : WellNumbered (l.issue req pers comm) := by
  intro req' m num pers' hhandle
  by_cases hreq : req' = req
  · subst hreq
    cases comm with
    | send msg =>
      simp only [Local.issue, Function.update_self, Handle.active.injEq] at hhandle
      obtain ⟨-, rfl, -⟩ := hhandle
      simp [Local.issue]
    | recv rcv => simp [Local.issue] at hhandle
  · cases comm with
    | send msg =>
      simp only [Local.issue, Function.update_of_ne hreq] at hhandle
      have hlt := h req' m num pers' hhandle
      simp only [Local.issue, List.length_append]
      omega
    | recv rcv =>
      simp only [Local.issue, Function.update_of_ne hreq] at hhandle
      exact h req' m num pers' hhandle

theorem wellNumbered_exec {l : Local ι δ} (h : WellNumbered l) (o : Op ι δ) :
    WellNumbered (l.exec o) := by
  have hset : ∀ (req : Nat) (handle : Handle ι δ),
      (∀ m num pers, handle ≠ .active (.send m) num pers) →
      WellNumbered ⟨Function.update l.handle req handle, l.outbox, l.inbox⟩ := by
    intro req handle hne req' m num pers hhandle
    by_cases hreq : req' = req
    · subst hreq
      simp only [Function.update_self] at hhandle
      exact absurd hhandle (hne m num pers)
    · simp only [Function.update_of_ne hreq] at hhandle
      exact h req' m num pers hhandle
  cases o with
  | post comm req => exact wellNumbered_issue h req false comm
  | init comm req => exact hset req _ (by simp)
  | start req =>
    rw [Local.exec]
    split
    · exact wellNumbered_issue h req true _
    · exact h
  | wait req =>
    rw [Local.exec]
    split
    · exact hset req _ (by simp)
    · exact hset req _ (by simp)
    · exact h
  | free req => exact hset req _ (by simp)
  | finalize => exact h

theorem wellNumbered_run (os : List (Op ι δ)) : WellNumbered (Local.run os) := by
  induction os using List.reverseRecOn with
  | nil =>
    intro req m num pers hhandle
    cases hhandle
  | append_singleton os o ih =>
    rw [Local.run_concat]
    exact wellNumbered_exec ih o

section

variable [DecidableEq ι] [DecidableEq δ] [Fintype ι]

/-- What message passing reaches with the point-to-point calls, and the collectives
so far are those of the program. -/
structure Reached (lib : Implementation ι κ) (program : ι → List (Call ι δ κ)) (c : Config ι δ κ) :
    Prop where
  posted : Reachable lib.toLibrary (fun i => ops (program i)) c.base
  joined : ∀ i, (c.rest i).foldl Call.join (c.entered i) = enters (program i)

/-- No rank receives from any source. -/
def Named (program : ι → List (Call ι δ κ)) : Prop :=
  ∀ i, ∀ rcv ∈ (Local.run (ops (program i))).inbox, rcv.source ≠ none

/-- The two libraries treat the messages and the collectives of the program alike. -/
structure Agree (program : ι → List (Call ι δ κ)) (lib lib' : Implementation ι κ) : Prop where
  waits : ∀ i, ∀ e ∈ enters (program i), ∀ j, j ≠ i → lib.waits e.1 i j = lib'.waits e.1 i j
  finalizeWaits : lib.finalizeWaits = lib'.finalizeWaits
  eager : ∀ i, ∀ k < (Local.run (ops (program i))).outbox.length,
    lib.eager (i, k) = lib'.eager (i, k)

variable {lib lib' : Implementation ι κ} {program : ι → List (Call ι δ κ)} {c : Config ι δ κ}

theorem reached_start (lib : Implementation ι κ) (program : ι → List (Call ι δ κ)) :
    Reached lib program (start program) := ⟨Relation.ReflTransGen.refl, fun _ => rfl⟩

theorem named_of_reached (hnamed : Named program) (h : Reached lib program c) {i : ι} {k : Nat}
    {rcv : Receive ι} (hk : (c.loc i).inbox[k]? = some rcv) : rcv.source ≠ none := by
  have hgrow := (reachable_posted h.posted i).2
  have hget := getElem?_of_prefix hgrow hk
  exact hnamed i rcv (List.mem_of_getElem? hget)

theorem mem_enters (h : Reached lib program c) {i : ι} {e : κ × Nat} (he : e ∈ c.entered i) :
    e ∈ enters (program i) := by
  rw [← h.joined i]
  exact (join_grows _ _).subset he

theorem enabled_congr (hagree : Agree program lib lib') (h : Reached lib program c) (i : ι)
    (call : Call ι δ κ) : Enabled lib c i call ↔ Enabled lib' c i call := by
  cases call with
  | op o =>
    cases o with
    | wait req =>
      show Complete _ _ _ _ ↔ Complete _ _ _ _
      cases hhandle : (c.loc i).handle req with
      | null | inactive => exact Iff.rfl
      | active comm num pers =>
        cases comm with
        | recv rcv => exact Iff.rfl
        | send m =>
          obtain ⟨p, -, hloc⟩ := reachable_local h.posted i
          have hlt := wellNumbered_run p req m num pers (hloc ▸ hhandle)
          have hle := (reachable_posted h.posted i).1.length_le
          simp only [Complete, hagree.eager i num (hlt.trans_le (hloc ▸ hle))]
    | finalize => simp only [Enabled, hagree.finalizeWaits]
    | post | init | start | free => exact Iff.rfl
  | probe | enter => exact Iff.rfl
  | leave req =>
    refine forall₂_congr fun e he => forall₃_congr fun _ j hji => ?_
    rw [hagree.waits i e.1 (mem_enters h (List.fst_mem_of_mem_zipIdx he)) j hji]

end

section

variable [DecidableEq ι] [DecidableEq δ] [DecidableEq κ] [Fintype ι]

instance (c : Config ι δ κ) (i : ι) (r : Receive ι) : Decidable (Probed c i r) :=
  inferInstanceAs (Decidable (∃ j, ∃ m ∈ (c.loc j).outbox.zipIdx, _ ∧ _ ∧ _ ∧ _))

instance (lib : Implementation ι κ) (c : Config ι δ κ) (i : ι) (req : Nat) :
    Decidable (Released lib c i req) :=
  inferInstanceAs (Decidable (∀ e ∈ (c.entered i).zipIdx, _ → ∀ _, _ → _ → _))

instance (lib : Implementation ι κ) (c : Config ι δ κ) (i : ι) (call : Call ι δ κ) :
    Decidable (Enabled lib c i call) :=
  match call with
  | .op (.wait _) => inferInstanceAs (Decidable (Complete lib.toLibrary c.base i _))
  | .op .finalize => inferInstanceAs (Decidable (_ → _))
  | .op (.post _ _) => isTrue trivial
  | .op (.init _ _) => isTrue trivial
  | .op (.start _) => isTrue trivial
  | .op (.free _) => isTrue trivial
  | .probe r => inferInstanceAs (Decidable (Probed c i r))
  | .enter _ _ => isTrue trivial
  | .leave req => inferInstanceAs (Decidable (Released lib c i req))

def next (lib : Implementation ι κ) (c : Config ι δ κ) : Event ι → Option (Config ι δ κ)
  | .act i =>
    match c.rest i with
    | [] => none
    | call :: calls => if Enabled lib c i call then some (c.act i call calls) else none
  | .deliver m r =>
    match (c.loc m.1).outbox[m.2]?, (c.loc r.1).inbox[r.2]? with
    | some msg, some rcv => if CanMatch c.base m r msg rcv then some (c.deliver m r) else none
    | _, _ => none

variable {lib : Implementation ι κ} {c c' : Config ι δ κ}

theorem next_act_iff {i : ι} : next lib c (.act i) = some c' ↔
    ∃ call calls, c.rest i = call :: calls ∧ Enabled lib c i call ∧ c' = c.act i call calls := by
  constructor
  · intro h
    rw [next] at h
    cases hrest : c.rest i with
    | nil => simp [hrest] at h
    | cons call calls =>
      simp only [hrest] at h
      split at h
      · exact ⟨call, calls, rfl, ‹_›, (Option.some.inj h).symm⟩
      · cases h
  · rintro ⟨call, calls, hrest, henabled, rfl⟩
    simp only [next, hrest, if_pos henabled]

theorem next_deliver_iff {m r : Ident ι} : next lib c (.deliver m r) = some c' ↔
    ∃ msg rcv, (c.loc m.1).outbox[m.2]? = some msg ∧ (c.loc r.1).inbox[r.2]? = some rcv ∧
      CanMatch c.base m r msg rcv ∧ c' = c.deliver m r := by
  constructor
  · intro h
    rw [next] at h
    split at h
    · rename_i msg rcv hmsg hrcv
      split at h
      · exact ⟨msg, rcv, hmsg, hrcv, ‹_›, (Option.some.inj h).symm⟩
      · cases h
    · cases h
  · rintro ⟨msg, rcv, hmsg, hrcv, hcan, rfl⟩
    simp only [next, hmsg, hrcv, if_pos hcan]

/-! ## Message passing is a part of it -/

/-- **Seen from the messages**, a step is one of message passing, or none. -/
theorem next_base {e : Event ι} (h : next lib c e = some c') :
    MessagePassing.next lib.toLibrary c.base e = some c'.base ∨ c'.base = c.base := by
  cases e with
  | act i =>
    obtain ⟨call, calls, hrest, henabled, rfl⟩ := next_act_iff.mp h
    have hops : ∀ j, ops (Function.update c.rest i calls j) =
        Function.update (fun j => ops (c.rest j)) i (ops calls) j := by
      intro j
      by_cases hj : j = i
      · subst hj
        rw [Function.update_self, Function.update_self]
      · rw [Function.update_of_ne hj, Function.update_of_ne hj]
    cases call with
    | op o =>
      left
      have hbase : c.base.rest i = o :: ops calls := by
        simp [Config.base, ops, hrest, Call.op?]
      have henabled : MessagePassing.Enabled lib.toLibrary c.base i o := by
        cases o with
        | wait req => exact henabled
        | finalize =>
          intro hwaits j
          rcases henabled hwaits j with hj | hj
          · exact .inl (by simp [Config.base, ops, hj])
          · exact .inr (by simp [Config.base, ops, hj, Call.op?])
        | post | init | start | free => trivial
      simp only [MessagePassing.next, hbase, if_pos henabled]
      rw [Option.some_inj]
      simp only [State.act, Config.base, Config.act, hops, Call.exec]
    | probe r | enter kind req | leave req =>
      right
      have hsame : ops calls = ops (c.rest i) := by
        rw [hrest]
        exact (List.filterMap_cons_none rfl).symm
      simp only [Config.base, Config.act, hops, hsame, Call.exec, Function.update_eq_self]
  | deliver m r =>
    left
    obtain ⟨msg, rcv, hmsg, hrcv, hcan, rfl⟩ := next_deliver_iff.mp h
    have hmsg : (c.base.loc m.1).outbox[m.2]? = some msg := hmsg
    have hrcv : (c.base.loc r.1).inbox[r.2]? = some rcv := hrcv
    simp only [MessagePassing.next, hmsg, hrcv, if_pos hcan]
    rfl

variable {program : ι → List (Call ι δ κ)}

theorem reached_next {e : Event ι} (h : Reached lib program c) (hnext : next lib c e = some c') :
    Reached lib program c' := by
  constructor
  · rcases next_base hnext with hstep | hsame
    · exact Relation.ReflTransGen.tail h.posted ⟨e, hstep⟩
    · rw [hsame]
      exact h.posted
  · intro i
    rw [← h.joined i]
    cases e with
    | deliver m r =>
      obtain ⟨msg, rcv, -, -, -, rfl⟩ := next_deliver_iff.mp hnext
      rfl
    | act j =>
      obtain ⟨call, calls, hrest, -, rfl⟩ := next_act_iff.mp hnext
      by_cases hij : i = j
      · subst hij
        rw [hrest]
        simp only [Config.act, Function.update_self, List.foldl_cons]
      · rw [rest_act_ne hij, entered_act_ne hij]

/-! ## Events commute -/

theorem next_same {e : Event ι} {c₁ : Config ι δ κ} (hsame : Same c c')
    (h : next lib c e = some c₁) : ∃ c₂, next lib c' e = some c₂ ∧ Same c₁ c₂ := by
  cases e with
  | act i =>
    obtain ⟨call, calls, hrest, henabled, rfl⟩ := next_act_iff.mp h
    refine ⟨c'.act i call calls, next_act_iff.mpr ⟨call, calls, hsame.rest ▸ hrest,
      enabled_same hsame henabled, rfl⟩, ?_⟩
    refine ⟨?_, ?_, ?_, hsame.matched⟩
    · simp only [Config.act, hsame.rest]
    · simp only [Config.act, hsame.loc]
    · simp only [Config.act, hsame.entered]
  | deliver m r =>
    obtain ⟨msg, rcv, hmsg, hrcv, hcan, rfl⟩ := next_deliver_iff.mp h
    have hloc := hsame.loc
    have hsym := same_equivalence.symm hsame
    refine ⟨c'.deliver m r, next_deliver_iff.mpr ⟨msg, rcv, hloc ▸ hmsg, hloc ▸ hrcv, ?_, rfl⟩,
      hsame.rest, hloc, hsame.entered, hsame.matched.cons _⟩
    refine canMatch_mono hcan hsame.sent hsame.received
      ⟨fun hm => hcan.pending.1 (hsym.sent hm), fun hr => hcan.pending.2 (hsym.received hr)⟩ ?_ ?_
    · exact fun k _ => congrArg (fun loc => (loc m.1).outbox[k]?) hloc.symm
    · exact fun k _ => congrArg (fun loc => (loc r.1).inbox[k]?) hloc.symm

theorem diamond_act_deliver {i : ι} {m r : Ident ι} {c₁ c₂ : Config ι δ κ}
    (hact : next lib c (.act i) = some c₁) (hdeliver : next lib c (.deliver m r) = some c₂) :
    ∃ c₃, next lib c₁ (.deliver m r) = some c₃ ∧ next lib c₂ (.act i) = some c₃ := by
  obtain ⟨call, calls, hrest, henabled, rfl⟩ := next_act_iff.mp hact
  obtain ⟨msg, rcv, hmsg, hrcv, hcan, rfl⟩ := next_deliver_iff.mp hdeliver
  have hgrow := act_grows c i call calls
  exact ⟨(c.act i call calls).deliver m r,
    next_deliver_iff.mpr ⟨msg, rcv, getElem?_of_prefix (hgrow m.1).1 hmsg,
      getElem?_of_prefix (hgrow r.1).2.1 hrcv, canMatch_act hmsg hrcv hcan, rfl⟩,
    next_act_iff.mpr ⟨call, calls, hrest, enabled_deliver hmsg hrcv hcan henabled, rfl⟩⟩

/-- **Without `MPI_ANY_SOURCE`, events commute.** -/
theorem commuting (hnamed : Named program) :
    Commuting (next (κ := κ) lib) (Reached lib program) Same where
  same := same_equivalence
  keeps := reached_next
  respects := next_same
  diamond := by
    intro c e e' c₁ c₂ hreached hne h h'
    have hrefl := same_equivalence.refl (α := Config ι δ κ)
    cases e with
    | act i =>
      cases e' with
      | act j =>
        have hij : i ≠ j := fun h => hne (congrArg Event.act h)
        obtain ⟨call, calls, hrest, henabled, rfl⟩ := next_act_iff.mp h
        obtain ⟨call', calls', hrest', henabled', rfl⟩ := next_act_iff.mp h'
        refine ⟨_, _,
          next_act_iff.mpr ⟨call', calls', ?_, enabled_act hij.symm hrest henabled', rfl⟩,
          next_act_iff.mpr ⟨call, calls, ?_, enabled_act hij hrest' henabled, rfl⟩, ?_⟩
        · rw [rest_act_ne hij.symm, hrest']
        · rw [rest_act_ne hij, hrest]
        · rw [act_comm hij]
          exact hrefl _
      | deliver m r =>
        obtain ⟨c₃, h₁, h₂⟩ := diamond_act_deliver h h'
        exact ⟨c₃, c₃, h₁, h₂, hrefl _⟩
    | deliver m r =>
      cases e' with
      | act j =>
        obtain ⟨c₃, h₁, h₂⟩ := diamond_act_deliver h' h
        exact ⟨c₃, c₃, h₂, h₁, hrefl _⟩
      | deliver m' r' =>
        obtain ⟨msg, rcv, hmsg, hrcv, hcan, rfl⟩ := next_deliver_iff.mp h
        obtain ⟨msg', rcv', hmsg', hrcv', hcan', rfl⟩ := next_deliver_iff.mp h'
        have hunique := deliver_unique hmsg hrcv hcan hmsg' hrcv' hcan'
          (named_of_reached hnamed hreached hrcv)
        have hm : m ≠ m' := fun hm => hne (by rw [hm, hunique.mp hm])
        have hr : r ≠ r' := fun hr => hm (hunique.mpr hr)
        have hmono {x y a b : Ident ι} {msg : Message ι δ} {rcv : Receive ι}
            (hcan : CanMatch c.base x y msg rcv) (hx : x ≠ a) (hy : y ≠ b) :
            CanMatch (c.deliver a b).base x y msg rcv := by
          refine canMatch_mono hcan (List.subset_cons_self ..) (List.subset_cons_self ..)
            ⟨?_, ?_⟩ (fun _ _ => rfl) (fun _ _ => rfl)
          · exact fun h => (List.mem_cons.mp h).elim hx hcan.pending.1
          · exact fun h => (List.mem_cons.mp h).elim hy hcan.pending.2
        refine ⟨_, _,
          next_deliver_iff.mpr ⟨msg', rcv', hmsg', hrcv', hmono hcan' hm.symm hr.symm, rfl⟩,
          next_deliver_iff.mpr ⟨msg, rcv, hmsg, hrcv, hmono hcan hm hr, rfl⟩, rfl, rfl, rfl, ?_⟩
        exact List.Perm.swap ..

/-! ## Libraries that agree -/

theorem next_congr {lib' : Implementation ι κ} (hagree : Agree program lib lib')
    (h : Reached lib program c) (e : Event ι) : next lib c e = next lib' c e := by
  refine Option.ext fun c' => ?_
  cases e with
  | act i =>
    have hiff := fun call => enabled_congr hagree h i call
    simp only [next_act_iff, hiff]
  | deliver m r => simp only [next_deliver_iff]

theorem run_congr {lib' : Implementation ι κ} (hagree : Agree program lib lib')
    {es : List (Event ι)} (h : Reached lib program c) :
    run (next lib) c es = run (next lib') c es ∧
      ∀ c', run (next lib) c es = some c' → Reached lib program c' := by
  induction es generalizing c with
  | nil => exact ⟨rfl, fun c' hrun => Option.some.inj hrun ▸ h⟩
  | cons e es ih =>
    rw [run, run, ← next_congr hagree h e]
    cases hnext : next lib c e with
    | none => exact ⟨rfl, fun c' hrun => by cases hrun⟩
    | some c₁ => exact ih (reached_next h hnext)

/-- **Only the messages of the program count.** -/
theorem ends_congr {lib' : Implementation ι κ} (hagree : Agree program lib lib')
    {P : Config ι δ κ → Prop} (h : Ends (next lib') (start program) P) :
    Ends (next lib) (start program) P := by
  have hstart := reached_start lib program
  have hrun := fun es => @run_congr ι δ κ _ _ _ _ lib _ program lib' hagree es hstart
  obtain ⟨n, hn⟩ := h.bounded
  refine ⟨⟨n, fun es t ht => hn es t ((hrun es).1 ▸ ht)⟩, fun es t ht hstuck => ?_⟩
  refine h.ends es t ((hrun es).1 ▸ ht) fun e => ?_
  rw [← next_congr hagree ((hrun es).2 t ht) e]
  exact hstuck e

end

/-! ## The names of the collectives -/

section Rename

variable {κ' : Type} (f : κ → κ')

def Call.rename : Call ι δ κ → Call ι δ κ'
  | .op o => .op o
  | .probe r => .probe r
  | .enter kind req => .enter (f kind) req
  | .leave req => .leave req

def Config.rename (c : Config ι δ κ) : Config ι δ κ' where
  rest := fun i => (c.rest i).map (Call.rename f)
  loc := c.loc
  entered := fun i => (c.entered i).map fun e => (f e.1, e.2)
  matched := c.matched

/-- The library, as the program before the renaming meets it. -/
def Implementation.comap (lib : Implementation ι κ') : Implementation ι κ where
  toLibrary := lib.toLibrary
  waits := fun kind => lib.waits (f kind)

variable {f}

theorem ops_rename (calls : List (Call ι δ κ)) : ops (calls.map (Call.rename f)) = ops calls := by
  have hop : Call.op? ∘ Call.rename f = (Call.op? : Call ι δ κ → _) := by
    funext call
    cases call <;> rfl
  rw [ops, List.filterMap_map, hop, ops]

theorem base_rename (c : Config ι δ κ) : (c.rename f).base = c.base := by
  simp only [Config.base, Config.rename, ops_rename]

theorem released_rename (hf : Function.Injective f) {lib : Implementation ι κ'} (c : Config ι δ κ)
    (i : ι) (req : Nat) : Released lib (c.rename f) i req ↔ Released (lib.comap f) c i req := by
  have hkind : ∀ (j : ι) (k : Nat) (kind : κ),
      (((c.rename f).entered j)[k]?).map Prod.fst = some (f kind) ↔
        ((c.entered j)[k]?).map Prod.fst = some kind := by
    intro j k kind
    simp only [Config.rename, List.getElem?_map, Option.map_map]
    cases (c.entered j)[k]? with
    | none => simp
    | some e => simp [hf.eq_iff]
  constructor
  · intro h e he hreq j hji hj
    refine (hkind j e.2 e.1.1).mp (h ((f e.1.1, e.1.2), e.2) ?_ hreq j hji hj)
    rw [List.mem_zipIdx_iff_getElem?] at he ⊢
    simp only [Config.rename, List.getElem?_map, he, Option.map_some]
  · intro h e he hreq j hji hj
    rw [List.mem_zipIdx_iff_getElem?] at he
    simp only [Config.rename, List.getElem?_map, Option.map_eq_some_iff] at he
    obtain ⟨e', he', hname⟩ := he
    have hmem : (e', e.2) ∈ (c.entered i).zipIdx := List.mem_zipIdx_iff_getElem?.mpr he'
    rw [← hname] at hj hreq ⊢
    exact (hkind j e.2 e'.1).mpr (h (e', e.2) hmem hreq j hji hj)

theorem enabled_rename (hf : Function.Injective f) {lib : Implementation ι κ'} (c : Config ι δ κ)
    (i : ι) (call : Call ι δ κ) :
    Enabled lib (c.rename f) i (call.rename f) ↔ Enabled (lib.comap f) c i call := by
  cases call with
  | op o =>
    cases o with
    | wait req =>
      show Complete _ (c.rename f).base i _ ↔ Complete _ c.base i _
      rw [base_rename]
      exact Iff.rfl
    | finalize =>
      have hlast : ∀ calls : List (Call ι δ κ),
          calls.map (Call.rename f) = [.op .finalize] ↔ calls = [.op .finalize] := by
        intro calls
        rw [List.map_eq_singleton_iff]
        constructor
        · rintro ⟨call, rfl, hcall⟩
          cases call with
          | op o => rw [Call.op.inj hcall]
          | probe | enter | leave => cases hcall
        · rintro rfl
          exact ⟨_, rfl, rfl⟩
      simp only [Enabled, Config.rename, List.map_eq_nil_iff, hlast]
      exact Iff.rfl
    | post | init | start | free => exact Iff.rfl
  | probe r =>
    show Probed (c.rename f) i r ↔ Probed c i r
    simp only [Probed, base_rename]
    exact Iff.rfl
  | enter kind req => exact Iff.rfl
  | leave req => exact released_rename hf c i req

theorem act_rename [DecidableEq ι] (c : Config ι δ κ) (i : ι) (call : Call ι δ κ)
    (calls : List (Call ι δ κ)) :
    (c.act i call calls).rename f =
      (c.rename f).act i (call.rename f) (calls.map (Call.rename f)) := by
  have hexec : (call.rename f).exec (c.loc i) = call.exec (c.loc i) := by cases call <;> rfl
  have hjoin : (call.rename f).join ((c.entered i).map fun e => (f e.1, e.2)) =
      (call.join (c.entered i)).map fun e => (f e.1, e.2) := by
    cases call with
    | enter kind req => simp [Call.rename, Call.join]
    | op | probe | leave => rfl
  simp only [Config.rename, Config.act, hexec, hjoin, Config.mk.injEq, true_and, and_true]
  constructor
  · funext j
    by_cases hj : j = i
    · subst hj
      simp only [Function.update_self]
    · simp only [Function.update_of_ne hj]
  · funext j
    by_cases hj : j = i
    · subst hj
      simp only [Function.update_self]
    · simp only [Function.update_of_ne hj]

section

variable [DecidableEq ι] [DecidableEq δ] [DecidableEq κ] [DecidableEq κ'] [Fintype ι]

theorem next_rename (hf : Function.Injective f) (lib : Implementation ι κ') (c : Config ι δ κ)
    (e : Event ι) : next lib (c.rename f) e = (next (lib.comap f) c e).map (Config.rename f) := by
  cases e with
  | act i =>
    cases hrest : c.rest i with
    | nil => simp [next, Config.rename, hrest]
    | cons call calls =>
      have hrename : (c.rename f).rest i = call.rename f :: calls.map (Call.rename f) := by
        simp [Config.rename, hrest]
      simp only [next, hrest, hrename, enabled_rename hf, ← act_rename]
      split
      · rfl
      · rfl
  | deliver m r =>
    have hloc : (c.rename f).loc = c.loc := rfl
    simp only [next, base_rename, hloc]
    cases (c.loc m.1).outbox[m.2]? with
    | none => rfl
    | some msg =>
      cases (c.loc r.1).inbox[r.2]? with
      | none => rfl
      | some rcv =>
        dsimp only
        split
        · rfl
        · rfl

theorem run_rename (hf : Function.Injective f) (lib : Implementation ι κ') (c : Config ι δ κ)
    (es : List (Event ι)) :
    run (next lib) (c.rename f) es = (run (next (lib.comap f)) c es).map (Config.rename f) := by
  induction es generalizing c with
  | nil => rfl
  | cons e es ih =>
    rw [run, run, next_rename hf]
    cases next (lib.comap f) c e with
    | none => rfl
    | some c' => exact ih c'

/-- **What the collectives are called does not matter**, as long as the names differ. -/
theorem ends_rename (hf : Function.Injective f) {lib : Implementation ι κ'} {c : Config ι δ κ}
    {P : Config ι δ κ → Prop} (h : Ends (next (lib.comap f)) c P) :
    Ends (next lib) (c.rename f) fun t => ∃ t', P t' ∧ t'.rename f = t := by
  constructor
  · obtain ⟨n, hn⟩ := h.bounded
    refine ⟨n, fun es t hrun => ?_⟩
    rw [run_rename hf, Option.map_eq_some_iff] at hrun
    obtain ⟨t', hrun, -⟩ := hrun
    exact hn es t' hrun
  · intro es t hrun hstuck
    rw [run_rename hf, Option.map_eq_some_iff] at hrun
    obtain ⟨t', hrun, rfl⟩ := hrun
    refine ⟨t', h.ends es t' hrun fun e => ?_, rfl⟩
    have hnone := hstuck e
    rw [next_rename hf, Option.map_eq_none_iff] at hnone
    exact hnone

end

end Rename

/-! ## One schedule -/

section Schedule

variable {n : Nat} {δ κ : Type} [DecidableEq δ] [DecidableEq κ]

/-- The events that may be possible. -/
def candidates (c : Config (Fin n) δ κ) : List (Event (Fin n)) :=
  (List.finRange n).map .act ++
    (List.finRange n).flatMap fun i => (List.finRange n).flatMap fun j =>
      (List.range (c.loc i).outbox.length).flatMap fun k =>
        (List.range (c.loc j).inbox.length).map fun l => .deliver (i, k) (j, l)

/-- The first event that is possible is taken, so many times. -/
def settle (lib : Implementation (Fin n) κ) : Nat → Config (Fin n) δ κ → Config (Fin n) δ κ
  | 0, c => c
  | fuel + 1, c =>
    match (candidates c).findSome? (next lib c) with
    | none => c
    | some c' => settle lib fuel c'

/-- None of them is possible. -/
def settled (lib : Implementation (Fin n) κ) (c : Config (Fin n) δ κ) : Bool :=
  (candidates c).all fun e => (next lib c e).isNone

variable {lib : Implementation (Fin n) κ} {c c' : Config (Fin n) δ κ}

theorem mem_candidates {e : Event (Fin n)} (h : next lib c e = some c') : e ∈ candidates c := by
  cases e with
  | act i => exact List.mem_append_left _ (List.mem_map_of_mem (List.mem_finRange i))
  | deliver m r =>
    obtain ⟨msg, rcv, hmsg, hrcv, -, -⟩ := next_deliver_iff.mp h
    refine List.mem_append_right _ (List.mem_flatMap.mpr ⟨m.1, List.mem_finRange _,
      List.mem_flatMap.mpr ⟨r.1, List.mem_finRange _, List.mem_flatMap.mpr ⟨m.2, ?_, ?_⟩⟩⟩)
    · exact List.mem_range.mpr (List.getElem?_eq_some_iff.mp hmsg).1
    · exact List.mem_map.mpr ⟨r.2, List.mem_range.mpr (List.getElem?_eq_some_iff.mp hrcv).1, rfl⟩

theorem stuck_of_settled (h : settled lib c = true) : Stuck (next lib) c := by
  intro e
  by_contra hne
  obtain ⟨c', hc'⟩ := Option.ne_none_iff_exists'.mp hne
  have hnone := List.all_eq_true.mp h e (mem_candidates hc')
  rw [hc'] at hnone
  cases hnone

theorem exists_run_settle (lib : Implementation (Fin n) κ) (fuel : Nat) (c : Config (Fin n) δ κ) :
    ∃ es, run (next lib) c es = some (settle lib fuel c) := by
  induction fuel generalizing c with
  | zero => exact ⟨[], rfl⟩
  | succ fuel ih =>
    rw [settle]
    cases hfirst : (candidates c).findSome? (next lib c) with
    | none => exact ⟨[], rfl⟩
    | some c' =>
      obtain ⟨e, -, he⟩ := List.exists_of_findSome?_eq_some hfirst
      obtain ⟨es, hes⟩ := ih c'
      exact ⟨e :: es, run_cons_iff.mpr ⟨c', he, hes⟩⟩

/-- **What a program does is what one schedule of it does**, with a library that treats
its messages and collectives alike. -/
theorem ends_of_settled {program : Fin n → List (Call (Fin n) δ κ)} (hnamed : Named program)
    {lib lib' : Implementation (Fin n) κ} (hagree : Agree program lib lib') {fuel : Nat}
    {t : Config (Fin n) δ κ} (hsettle : settle lib' fuel (start program) = t)
    (hsettled : settled lib' t = true) : Ends (next lib) (start program) (Same t) := by
  obtain ⟨es, hes⟩ := exists_run_settle lib' fuel (start program)
  rw [hsettle] at hes
  exact ends_congr hagree (Ends.of_run (commuting hnamed) (reached_start lib' program) hes
    (stuck_of_settled hsettled) fun c hsame => hsame)

end Schedule

end MpiBugs.Communication
