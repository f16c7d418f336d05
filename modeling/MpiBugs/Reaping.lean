import MpiBugs.RunCmd

/-!
# The end of the tool

From the start of the tool to the last `process.poll()` of `run_cmd`: what the
calls of `subprocess` and `os` find when the processes of the tool may end or go
between any two of them. The answers of the polls are those a `Call` is run with.

* `watch_spec`: how the loop around the tool ends under a schedule;
* `ended_attempt`, `attempt_received`: what a sequence of calls under one `try` does
  to the tool, and what a tool that outlives it has been sent;
* `recorded_iff`: a run is recorded iff the tool has ended when it is polled last;
* `unrecorded_killed`: what is lost is a tool that was sent all the signals.
-/

namespace MpiBugs.Reaping

open FileStore RunCmd

/-! ## The processes of the tool -/

inductive Signal
  | SIGTERM | SIGKILL
  deriving DecidableEq, Repr

inductive Child
  | running
  /-- ended, and not waited for -/
  | zombie (rc : Int)
  /-- waited for: `Popen.returncode` -/
  | reaped (rc : Int)
  deriving DecidableEq, Repr

/-- The process that was started, and its process group. -/
structure Group where
  child : Child
  /-- whether other processes of the group are left -/
  others : Bool
  /-- the signals sent to the child, the last one first -/
  received : List Signal
  deriving DecidableEq, Repr

/-- What may happen between two calls. -/
inductive Event
  | exits (rc : Int)
  | forks
  /-- the other processes are gone -/
  | gone
  deriving DecidableEq, Repr

inductive OSError
  | ProcessLookupError
  deriving DecidableEq, Repr

namespace Group

/-- `subprocess.Popen(.., preexec_fn=os.setsid)` -/
def start : Group := ⟨.running, false, []⟩

def Ended (g : Group) : Prop := g.child ≠ .running

def happen (g : Group) : Event → Group
  | .exits rc =>
    match g.child with
    | .running => { g with child := .zombie rc }
    | _ => g
  | .forks =>
    match g.child with
    | .running => { g with others := true }
    | _ => g
  | .gone => { g with others := false }

def after (g : Group) (events : List Event) : Group := events.foldl happen g

/-- `process.poll()` -/
def poll (g : Group) : Option Int × Group :=
  match g.child with
  | .running => (none, g)
  | .zombie rc => (some rc, { g with child := .reaped rc })
  | .reaped rc => (some rc, g)

/-- A signal that finds the child. -/
def signal (g : Group) (sig : Signal) : Group :=
  match g.child with
  | .running => { g with received := sig :: g.received }
  | _ => g

/-- `os.killpg(pgid, sig)`: a child that is not waited for is still in its group. -/
def killpg (g : Group) (sig : Signal) : Except OSError Group :=
  match g.child with
  | .reaped _ => if g.others then .ok g else .error .ProcessLookupError
  | _ => .ok (g.signal sig)

/-- `os.kill(pid, sig)` -/
def kill (g : Group) (sig : Signal) : Except OSError Group :=
  match g.child with
  | .reaped _ => .error .ProcessLookupError
  | _ => .ok (g.signal sig)

/-- `process.terminate()` polls first. -/
def terminate (g : Group) : Group :=
  match g.poll with
  | (some _, g) => g
  | (none, g) => g.signal .SIGTERM

end Group

/-! ## The calls -/

inductive Act
  | killpg (sig : Signal)
  | terminate
  | sleep
  | kill (sig : Signal)
  deriving DecidableEq, Repr

def act (g : Group) : Act → Except OSError Group
  | .killpg sig => g.killpg sig
  | .terminate => .ok g.terminate
  | .sleep => .ok g
  | .kill sig => g.kill sig

/-- Calls, and what happens before each. -/
abbrev Steps := List (List Event × Act)

/-- `try: .. except ProcessLookupError: pass` -/
def attempt (g : Group) : Steps → Group
  | [] => g
  | (events, a) :: steps =>
    match act (g.after events) a with
    | .error .ProcessLookupError => g.after events
    | .ok g => attempt g steps

/-- `must_filter` of `must.py`, once it has found the deadlock. Its `os.getpgid` does not
fail: a round only starts while the tool is not waited for. -/
def mustFilter (terminate killpg : List Event) : Steps :=
  [(terminate, .terminate), (killpg, .killpg .SIGTERM)]

/-- A tool that obeys is not there any more for the second signal. -/
example : attempt .start (mustFilter [] [.exits (-15)]) = ⟨.zombie (-15), false, [.SIGTERM]⟩ := by
  decide

/-- One completed round of the loop around the tool: a read that waits forever
completes none. -/
structure Round where
  line : Option Text
  /-- `read_line_lambda` on this line -/
  lambda : Steps
  clock : ℚ
  /-- what happens before the poll -/
  poll : List Event
  /-- what is read if the poll says the tool has ended -/
  rest : List Text
  deriving DecidableEq

/-- What happens before each call. -/
structure Schedule where
  rounds : List Round
  killpgTerm : List Event
  terminate : List Event
  killpgKill : List Event
  kill : List Event
  poll : List Event
  deriving DecidableEq

/-- The signals after the loop. -/
def cleanup (σ : Schedule) : Steps :=
  [(σ.killpgTerm, .killpg .SIGTERM), (σ.terminate, .terminate), ([], .sleep),
   (σ.killpgKill, .killpg .SIGKILL), (σ.kill, .kill .SIGKILL)]

def roundGroup (g : Group) (r : Round) : Group := (attempt g r.lambda).after r.poll

/-- The rounds as the loop sees them, and what it leaves. -/
def watch (timeout : Nat) (g : Group) : List Round → List Tick × Group
  | [] => ([], g)
  | r :: rounds =>
    if (timeout : ℚ) < r.clock then ([⟨r.line, r.clock, none⟩], roundGroup g r)
    else
      match (roundGroup g r).poll with
      | (some _, g) => ([⟨r.line, r.clock, some r.rest⟩], g)
      | (none, g) =>
        let later := watch timeout g rounds
        (⟨r.line, r.clock, none⟩ :: later.1, later.2)

/-- From the first signal to `rc = process.poll()`. -/
def lastPoll (σ : Schedule) (g : Group) : Option Int × Group :=
  ((attempt g (cleanup σ)).after σ.poll).poll

/-- A call with the answers its polls get under a schedule. -/
def under (c : Call) (σ : Schedule) : Call :=
  let watched := watch c.timeout .start σ.rounds
  { c with ticks := watched.1, rc := (lastPoll σ watched.2).1 }

/-! ## When the tool has ended -/

/-- The tool ends among these events. -/
def Exits (events : List Event) : Prop := ∃ rc, .exits rc ∈ events

@[simp] theorem exits_nil : ¬ Exits [] := by
  simp [Exits]

@[simp] theorem exits_append (es es' : List Event) :
    Exits (es ++ es') ↔ Exits es ∨ Exits es' := by
  simp only [Exits, List.mem_append, exists_or]

theorem exits_cons (e : Event) (es : List Event) :
    Exits (e :: es) ↔ Exits [e] ∨ Exits es := exits_append [e] es

theorem ended_happen (g : Group) (e : Event) : (g.happen e).Ended ↔ g.Ended ∨ Exits [e] := by
  unfold Group.Ended Group.happen Exits
  cases e with
  | exits rc =>
    cases h : g.child <;> simp [h]
  | forks =>
    cases h : g.child <;> simp [h]
  | gone => simp

theorem ended_after (g : Group) (events : List Event) :
    (g.after events).Ended ↔ g.Ended ∨ Exits events := by
  induction events generalizing g with
  | nil => simp [Group.after]
  | cons e es ih =>
    have hstep : g.after (e :: es) = (g.happen e).after es := rfl
    rw [hstep, ih, ended_happen, exits_cons e es, or_assoc]

theorem poll_eq_none_iff (g : Group) : g.poll.1 = none ↔ ¬ g.Ended := by
  unfold Group.poll Group.Ended
  cases h : g.child <;> simp

theorem ended_poll (g : Group) : g.poll.2.Ended ↔ g.Ended := by
  unfold Group.poll Group.Ended
  cases h : g.child <;> simp [h]

theorem ended_signal (g : Group) (sig : Signal) : (g.signal sig).Ended ↔ g.Ended := by
  unfold Group.signal Group.Ended
  cases h : g.child <;> simp [h]

/-- The signals a call sends. -/
def Act.sent : Act → List Signal
  | killpg sig => [sig]
  | terminate => [.SIGTERM]
  | sleep => []
  | kill sig => [sig]

/-- **One call on a tool that runs** succeeds, and only sends. -/
theorem act_running {g : Group} (h : ¬ g.Ended) (a : Act) :
    act g a = .ok { g with received := a.sent ++ g.received } := by
  have hchild : g.child = .running := not_not.mp h
  cases a with
  | killpg sig => simp only [act, Group.killpg, Group.signal, hchild, Act.sent, List.singleton_append]
  | terminate =>
    simp only [act, Group.terminate, Group.poll, Group.signal, hchild, Act.sent,
      List.singleton_append]
  | sleep => rfl
  | kill sig => simp only [act, Group.kill, Group.signal, hchild, Act.sent, List.singleton_append]

/-- A call does not bring the tool back. -/
theorem act_ended {g g' : Group} {a : Act} (h : g.Ended) (hact : act g a = .ok g') : g'.Ended := by
  cases a with
  | sleep =>
    cases hact
    exact h
  | terminate =>
    have hpoll := (ended_poll g).mpr h
    have hsome : g.poll.1 ≠ none := fun hnone => (poll_eq_none_iff g).mp hnone h
    simp only [act, Group.terminate] at hact
    split at hact
    · rename_i heq
      cases hact
      rwa [heq] at hpoll
    · rename_i heq
      exact absurd (congrArg Prod.fst heq) hsome
  | killpg sig =>
    simp only [act, Group.killpg] at hact
    split at hact
    · split at hact
      · cases hact
        exact h
      · cases hact
    · cases hact
      exact (ended_signal g sig).mpr h
  | kill sig =>
    simp only [act, Group.kill] at hact
    split at hact
    · cases hact
    · cases hact
      exact (ended_signal g sig).mpr h

/-- **All the calls of a `try`:** the tool has ended after them iff it has before or
ends among them, also where an error skips the rest. -/
theorem ended_attempt (steps : Steps) (g : Group) :
    (attempt g steps).Ended ↔ g.Ended ∨ Exits (steps.flatMap Prod.fst) := by
  induction steps generalizing g with
  | nil => simp [attempt]
  | cons step steps ih =>
    obtain ⟨events, a⟩ := step
    rw [List.flatMap_cons, exits_append, ← or_assoc, ← ended_after]
    unfold attempt
    by_cases h : (g.after events).Ended
    · refine iff_of_true ?_ (Or.inl h)
      split
      · exact h
      · rename_i g' hact
        exact (ih g').mpr (Or.inl (act_ended h hact))
    · rw [act_running h a]
      exact ih _

/-- The signals of a sequence of calls, the last one first. -/
def sent : Steps → List Signal
  | [] => []
  | (_, a) :: steps => sent steps ++ a.sent

theorem after_received (g : Group) (events : List Event) : (g.after events).received = g.received := by
  induction events generalizing g with
  | nil => rfl
  | cons e es ih =>
    refine (ih (g.happen e)).trans ?_
    unfold Group.happen
    cases e with
    | exits rc => cases g.child <;> rfl
    | forks => cases g.child <;> rfl
    | gone => rfl

/-- **A tool that outlives the calls** has been sent every signal. -/
theorem attempt_received {steps : Steps} {g : Group} (h : ¬ (attempt g steps).Ended) :
    (attempt g steps).received = sent steps ++ g.received := by
  induction steps generalizing g with
  | nil => rfl
  | cons step steps ih =>
    obtain ⟨events, a⟩ := step
    have hnot : ¬ (g.after events).Ended := by
      intro hended
      refine h ((ended_attempt _ g).mpr ?_)
      rw [List.flatMap_cons, exits_append, ← or_assoc, ← ended_after]
      exact Or.inl hended
    have hstep : attempt g ((events, a) :: steps) =
        attempt { g.after events with received := a.sent ++ (g.after events).received } steps := by
      rw [attempt, act_running hnot a]
    rw [hstep] at h ⊢
    rw [ih h, after_received, sent, List.append_assoc]

/-! ## The loop -/

/-- The time is over in one of these rounds. -/
def TimesOut (timeout : Nat) (rounds : List Round) : Prop :=
  ∃ r ∈ rounds, (timeout : ℚ) < r.clock

/-- What happens up to the round in which the time is over. -/
def watchedEvents (timeout : Nat) : List Round → List Event
  | [] => []
  | r :: rounds =>
    r.lambda.flatMap Prod.fst ++ r.poll ++
      if (timeout : ℚ) < r.clock then [] else watchedEvents timeout rounds

theorem ended_roundGroup (g : Group) (r : Round) :
    (roundGroup g r).Ended ↔ g.Ended ∨ Exits (r.lambda.flatMap Prod.fst ++ r.poll) := by
  rw [roundGroup, ended_after, ended_attempt, exits_append, or_assoc]

/-- **The loop around the tool** is left once the tool has ended or the time is
over, and the tool has ended then iff it does so up to there. -/
theorem watch_spec (timeout : Nat) (rounds : List Round) {g : Group} (output : Text)
    (h : ¬ g.Ended) :
    (loop timeout output (watch timeout g rounds).1 ≠ .waiting ↔
        Exits (watchedEvents timeout rounds) ∨ TimesOut timeout rounds) ∧
      ((watch timeout g rounds).2.Ended ↔ Exits (watchedEvents timeout rounds)) := by
  induction rounds generalizing g output with
  | nil => exact ⟨by simp [watch, loop, watchedEvents, TimesOut], by simp [watch, watchedEvents, h]⟩
  | cons r rounds ih =>
    have hround := ended_roundGroup g r
    rw [or_iff_right h] at hround
    unfold watch watchedEvents
    by_cases htime : (timeout : ℚ) < r.clock
    · simp only [if_pos htime]
      rw [List.append_nil, ← hround]
      refine ⟨iff_of_true ?_ (Or.inr ⟨r, List.mem_cons_self, htime⟩), Iff.rfl⟩
      simp [loop, htime]
    · simp only [if_neg htime]
      rw [exits_append, ← hround]
      have htimes : TimesOut timeout (r :: rounds) ↔ TimesOut timeout rounds := by
        simp [TimesOut, htime]
      rw [htimes]
      have hnone := poll_eq_none_iff (roundGroup g r)
      have hsame := ended_poll (roundGroup g r)
      rcases hpoll : (roundGroup g r).poll with ⟨_ | rc, g'⟩
      · rw [hpoll] at hnone hsame
        have hnot : ¬ (roundGroup g r).Ended := hnone.mp rfl
        obtain ⟨hloop, hended⟩ := ih (output ++ r.line.getD []) (mt hsame.mp hnot)
        rw [or_iff_right hnot]
        refine ⟨?_, hended⟩
        rw [← hloop, loop]
        simp only [if_neg htime]
      · rw [hpoll] at hnone hsame
        have hended : (roundGroup g r).Ended := not_not.mp (mt hnone.mpr (by simp))
        refine ⟨iff_of_true ?_ (Or.inl (Or.inl hended)), iff_of_true (hsame.mpr hended) (Or.inl hended)⟩
        simp [loop, htime]

/-! ## The record of a run -/

/-- The call returns and leaves its own files. -/
structure Records (host : Host) {ι : Type} (c : Call) (i : ι) (s : Store LogFile ι) : Prop where
  returns : (runCmd host c s).2 = .ran
  elapsed : applyAll i s (runCmd host c s).1 .elapsed = some ⟨host.seconds c.endClock, i⟩
  txt : ∃ o, transcript host c = some o ∧ applyAll i s (runCmd host c s).1 .txt = some ⟨o, i⟩
  md5sum : applyAll i s (runCmd host c s).1 .md5sum = some ⟨host.hexdigest c.source, i⟩

section Host

variable (host : Host) {ι : Type}

theorem records_iff {c : Call} {i : ι} {s : Store LogFile ι} (hmiss : lookup host c s ≠ .hit)
    (hcompiles : compileFails c = false) :
    Records host c i s ↔ ∃ o, transcript host c = some o := by
  constructor
  · rintro ⟨_, _, ⟨o, ho, _⟩, _⟩
    exact ⟨o, ho⟩
  · rintro ⟨o, ho⟩
    rcases runCmd_cases host c i s with ⟨hhit, _⟩ | ⟨_, heff⟩
    · exact absurd hhit hmiss
    · generalize hr : (runCmd host c s).2 = r at heff
      cases heff with
      | failed hfails => rw [hcompiles] at hfails; cases hfails
      | completed _ ho' helapsed htxt hmd5sum _ =>
        exact ⟨hr, helapsed, ⟨_, ho', htxt⟩, hmd5sum⟩
      | aborted _ _ hnone => rw [ho] at hnone; cases hnone

theorem transcript_isSome_iff {c : Call} (hcompiles : compileFails c = false) :
    (∃ o, transcript host c = some o) ↔
      c.started = true ∧ loop c.timeout (commandOutput c) c.ticks ≠ .waiting ∧ c.rc ≠ none := by
  simp only [transcript, hcompiles]
  cases c.started <;> cases loop c.timeout (commandOutput c) c.ticks <;> cases c.rc <;> simp

/-- What happens from the first signal to the last poll. -/
def cleanupEvents (σ : Schedule) : List Event :=
  σ.killpgTerm ++ σ.terminate ++ σ.killpgKill ++ σ.kill ++ σ.poll

theorem ended_lastPoll (σ : Schedule) (g : Group) :
    (lastPoll σ g).1 ≠ none ↔ g.Ended ∨ Exits (cleanupEvents σ) := by
  rw [lastPoll, ne_eq, poll_eq_none_iff, not_not, ended_after, ended_attempt]
  simp only [cleanup, cleanupEvents, List.flatMap_cons, List.flatMap_nil, List.append_nil,
    List.nil_append, exits_append, or_assoc]

/-- **When a run is recorded:** the tool is started, and it ends while the loop
watches it, or the time is over and it has ended when it is polled last. -/
theorem recorded_iff {c : Call} {σ : Schedule} {i : ι} {s : Store LogFile ι}
    (hmiss : lookup host c s ≠ .hit) (hcompiles : compileFails c = false) :
    Records host (under c σ) i s ↔
      c.started = true ∧ (Exits (watchedEvents c.timeout σ.rounds) ∨
        TimesOut c.timeout σ.rounds ∧ Exits (cleanupEvents σ)) := by
  have hrunning : ¬ Group.start.Ended := fun h => h rfl
  obtain ⟨hloop, hended⟩ :=
    watch_spec c.timeout σ.rounds (commandOutput (under c σ)) hrunning
  have hrc := ended_lastPoll σ (watch c.timeout .start σ.rounds).2
  rw [hended] at hrc
  have hmiss' : lookup host (under c σ) s ≠ .hit := hmiss
  have hcompiles' : compileFails (under c σ) = false := hcompiles
  rw [records_iff host hmiss' hcompiles', transcript_isSome_iff host hcompiles']
  refine and_congr Iff.rfl ?_
  refine (and_congr hloop hrc).trans ?_
  rw [or_and_left]

/-- **What is lost** is a tool that was sent all the signals and is still there. -/
theorem unrecorded_killed {c : Call} {σ : Schedule} (h : (under c σ).rc = none) :
    (attempt (watch c.timeout .start σ.rounds).2 (cleanup σ)).received =
      [.SIGKILL, .SIGKILL, .SIGTERM, .SIGTERM] ++
        (watch c.timeout .start σ.rounds).2.received := by
  have hnot := mt (ended_lastPoll σ (watch c.timeout .start σ.rounds).2).mpr (not_not.mpr h)
  rw [attempt_received]
  · rfl
  · rw [ended_attempt]
    refine mt (Or.imp_right ?_) hnot
    simp only [cleanup, cleanupEvents, List.flatMap_cons, List.flatMap_nil, List.append_nil,
      List.nil_append, exits_append]
    tauto

end Host

/-- One round, in which the time is over. -/
def lateSchedule (killpgKill poll : List Event) : Schedule where
  rounds := [⟨none, [], 3001 / 10, [.forks], []⟩]
  killpgTerm := []
  terminate := []
  killpgKill := killpgKill
  kill := []
  poll := poll

/-- A tool that is stopped by the first signal, with all it has forked. -/
theorem recorded_terminated :
    Records sampleHost (under slowCall (lateSchedule [.exits (-15), .gone] [])) 0
      empty := by
  have hlookup : lookup sampleHost slowCall (empty (ι := ℕ)) ≠ .hit := by
    rw [ne_eq, lookup_eq_hit_iff]
    rintro ⟨_, _, _, htxt, _⟩
    cases htxt
  refine (recorded_iff sampleHost hlookup (by decide)).mpr ⟨rfl, Or.inr ⟨?_, ?_⟩⟩
  · exact ⟨_, List.mem_cons_self, by decide +kernel⟩
  · exact ⟨-15, by decide⟩

/-- **A tool that has been killed but has not ended yet** makes the call raise: the
time-out is on record, and nothing else. -/
theorem killed_not_recorded :
    compileFails slowCall = false ∧
      runCmd sampleHost (under slowCall (lateSchedule [] [.gone])) (empty (ι := ℕ)) =
        (write .timeout "300.2 seconds".toList, .raised) ∧
      (attempt (watch 300 .start (lateSchedule [] [.gone]).rounds).2
        (cleanup (lateSchedule [] [.gone]))).received = [.SIGKILL, .SIGKILL, .SIGTERM, .SIGTERM] ∧
      ¬ Records sampleHost (under slowCall (lateSchedule [] [.gone])) 0 empty := by
  have hrun : runCmd sampleHost (under slowCall (lateSchedule [] [.gone]))
      (empty (ι := ℕ)) = (write .timeout "300.2 seconds".toList, .raised) := by decide +kernel
  refine ⟨by decide, hrun, by decide +kernel, ?_⟩
  rintro ⟨hreturns, _⟩
  rw [hrun] at hreturns
  cases hreturns

end MpiBugs.Reaping
