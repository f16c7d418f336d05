import MpiBugs.FileStore
import MpiBugs.Header
import Mathlib.Data.Rat.Defs
import Mathlib.Algebra.Order.Ring.Rat

/-!
# Running one test

`run_cmd` of `MBIutils.py` as the operations it makes on the four files of a
test, given what is there and what its environment answers.

* `runCmd_cases`: what one call leaves behind, path by path;
* `cached_coherent`: in a run in which no compilation fails while the digest of
  another source is on record, a cached answer is one for the current source;
* `stale_answer`: wherever a compilation does fail so, the source on record is
  next answered with the failure.
-/

namespace MpiBugs.RunCmd

open FileStore TextFile Header

/-- The name of a test program, which fits on a line. -/
structure Name where
  text : Text
  oneLine : OneLine text
  deriving DecidableEq

/-- The files of a test, `{cachefile}.txt` and so on. -/
inductive LogFile
  | txt | elapsed | md5sum | timeout
  deriving DecidableEq, Repr

/-- `hashlib.md5(..).hexdigest()`, and the text of a number of seconds. -/
structure Host where
  hexdigest : Text → Text
  seconds : ℚ → Text

/-- One round of the loop around the tool: the line read, if the poll announced
one, the seconds since the start, and, if the process has ended, what it had
still written. -/
structure Tick where
  line : Option Text
  clock : ℚ
  ended : Option (List Text)
  deriving DecidableEq

/-- The arguments of a call, the source it finds, and what the compiler, the
tool and the clock answer. -/
structure Call where
  source : Text
  buildcmd : Option Text
  execcmd : Text
  binary : Name
  timeout : Nat
  batchinfo : Text
  compilerOutput : Text
  compilerCode : Int
  compileClock : ℚ
  /-- whether the tool could be started at all -/
  started : Bool
  ticks : List Tick
  timeoutClock : ℚ
  endClock : ℚ
  /-- `process.poll()` after the signals -/
  rc : Option Int
  deriving DecidableEq

inductive Result
  /-- returns False -/
  | cached
  /-- returns True -/
  | ran
  | raised
  /-- still waiting for the tool -/
  | waiting
  deriving DecidableEq, Repr

def intText (n : Int) : Text := (toString n).toList

/-! ## The output -/

/-- The output before the tool is run. -/
def buildOutput (c : Call) : Text :=
  match c.buildcmd with
  | none =>
    "No need to compile ".toList ++ c.binary.text ++ ".c (batchinfo:".toList ++ c.batchinfo ++
      ")\n\n".toList
  | some buildcmd =>
    "Compiling ".toList ++ c.binary.text ++ ".c (batchinfo:".toList ++ c.batchinfo ++
      ")\n\n".toList ++ "$ ".toList ++ buildcmd ++ "\n".toList ++ c.compilerOutput

def compileFails (c : Call) : Bool := c.buildcmd.isSome && c.compilerCode != 0

def failureOutput (c : Call) : Text :=
  buildOutput c ++ "Compilation of ".toList ++ c.binary.text ++ ".c raised an error (retcode: ".toList ++
    intText c.compilerCode ++ ")".toList

def commandOutput (c : Call) : Text :=
  buildOutput c ++ "\n\nExecuting the command\n $ ".toList ++ c.execcmd ++ "\n".toList

inductive LoopEnd
  | waiting
  | timeout (output : Text)
  | ended (output : Text)
  deriving DecidableEq

/-- The loop around the tool. -/
def loop (timeout : Nat) : Text → List Tick → LoopEnd
  | _, [] => .waiting
  | output, tick :: ticks =>
    let output := output ++ tick.line.getD []
    if (timeout : ℚ) < tick.clock then .timeout output
    else
      match tick.ended with
      | some more => .ended (output ++ more.flatten)
      | none => loop timeout output ticks

section Host

variable (host : Host) {ι : Type}

def status (c : Call) (rc : Int) : Text :=
  (if rc < 0 then "Command killed by signal ".toList ++ intText (-rc)
    else "Command return code: ".toList ++ intText rc) ++
  ", elapsed time: ".toList ++ host.seconds c.endClock ++ "\n".toList

/-! ## The operations -/

/-- From the signals on. -/
def finish (c : Call) (output : Text) : List (Op LogFile) × Result :=
  match c.rc with
  | none => ([], .raised)
  | some rc =>
    (write .elapsed (host.seconds c.endClock) ++ write .txt (output ++ status host c rc) ++
      write .md5sum (host.hexdigest c.source), .ran)

def execute (c : Call) : List (Op LogFile) × Result :=
  match c.started with
  | false => ([], .raised)
  | true =>
    match loop c.timeout (commandOutput c) c.ticks with
    | .waiting => ([], .waiting)
    | .timeout output =>
      let rest := finish host c output
      (write .timeout (host.seconds c.timeoutClock ++ " seconds".toList) ++ rest.1, rest.2)
    | .ended output => finish host c output

/-- Past the cache. -/
def fresh (c : Call) : List (Op LogFile) × Result :=
  match compileFails c with
  | true =>
    (write .elapsed (host.seconds c.compileClock) ++ write .txt (failureOutput c), .ran)
  | false => execute host c

inductive Lookup
  | hit | stale | miss
  deriving DecidableEq, Repr

/-- The test at the top: all three files there, and the digest the same. -/
def lookup (c : Call) (s : Store LogFile ι) : Lookup :=
  match s .txt, s .elapsed, s .md5sum with
  | some _, some _, some m => if m.content = host.hexdigest c.source then .hit else .stale
  | _, _, _ => .miss

/-- `run_cmd`: the operations on the files, and how the call ends. -/
def runCmd (c : Call) (s : Store LogFile ι) : List (Op LogFile) × Result :=
  match lookup host c s with
  | .hit => ([], .cached)
  | .stale => let rest := fresh host c; (.remove .txt :: rest.1, rest.2)
  | .miss => fresh host c

/-! ## What a call leaves behind -/

/-- The text a call records in `{cachefile}.txt` if it gets that far. -/
def transcript (c : Call) : Option Text :=
  match compileFails c with
  | true => some (failureOutput c)
  | false =>
    match c.started, loop c.timeout (commandOutput c) c.ticks, c.rc with
    | true, .timeout output, some rc => some (output ++ status host c rc)
    | true, .ended output, some rc => some (output ++ status host c rc)
    | _, _, _ => none

/-- Whether the call stops the tool because its time is over. -/
def timesOut (c : Call) : Bool :=
  !compileFails c && c.started &&
    match loop c.timeout (commandOutput c) c.ticks with
    | .timeout _ => true
    | _ => false

/-- What is left of the time-out file. -/
def timeoutFile (c : Call) (i : ι) (before : Option (File ι)) : Option (File ι) :=
  if timesOut c then some ⟨host.seconds c.timeoutClock ++ " seconds".toList, i⟩ else before

/-- The effect of a call that is not answered from the cache, by its end. -/
inductive Effect (c : Call) (i : ι) (s s' : Store LogFile ι) : Result → Prop
  | failed : compileFails c = true → s' .elapsed = some ⟨host.seconds c.compileClock, i⟩ →
      s' .txt = some ⟨failureOutput c, i⟩ → s' .md5sum = s .md5sum → s' .timeout = s .timeout →
      Effect c i s s' .ran
  | completed {o : Text} : compileFails c = false → transcript host c = some o →
      s' .elapsed = some ⟨host.seconds c.endClock, i⟩ → s' .txt = some ⟨o, i⟩ →
      s' .md5sum = some ⟨host.hexdigest c.source, i⟩ →
      s' .timeout = timeoutFile host c i (s .timeout) → Effect c i s s' .ran
  | aborted {r : Result} : r = .raised ∨ r = .waiting → compileFails c = false →
      transcript host c = none → s' .elapsed = s .elapsed → s' .txt = s .txt →
      s' .md5sum = s .md5sum → s' .timeout = timeoutFile host c i (s .timeout) →
      Effect c i s s' r

theorem fresh_effect (c : Call) (i : ι) (s : Store LogFile ι) :
    Effect host c i s (applyAll i s (fresh host c).1) (fresh host c).2 := by
  cases hf : compileFails c with
  | true =>
    simp only [fresh, hf]
    apply Effect.failed hf <;> simp [applyAll_append, Function.update]
  | false =>
    simp only [fresh, hf, execute]
    cases hst : c.started with
    | false => apply Effect.aborted (Or.inl rfl) hf <;> simp [transcript, timeoutFile, timesOut, hf, hst]
    | true =>
      cases hl : loop c.timeout (commandOutput c) c.ticks with
      | waiting =>
        apply Effect.aborted (Or.inr rfl) hf <;>
          simp [transcript, timeoutFile, timesOut, hf, hst, hl]
      | timeout output =>
        cases hrc : c.rc with
        | none =>
          simp only [finish, hrc]
          apply Effect.aborted (Or.inl rfl) hf <;>
            simp [transcript, timeoutFile, timesOut, hf, hst, hl, hrc, Function.update]
        | some rc =>
          simp only [finish, hrc]
          apply Effect.completed (o := output ++ status host c rc) hf <;>
            simp [transcript, timeoutFile, timesOut, hf, hst, hl, hrc, applyAll_append,
              Function.update]
      | ended output =>
        cases hrc : c.rc with
        | none =>
          simp only [finish, hrc]
          apply Effect.aborted (Or.inl rfl) hf <;>
            simp [transcript, timeoutFile, timesOut, hf, hst, hl, hrc]
        | some rc =>
          simp only [finish, hrc]
          apply Effect.completed (o := output ++ status host c rc) hf <;>
            simp [transcript, timeoutFile, timesOut, hf, hst, hl, hrc, applyAll_append,
              Function.update]

/-- Past the cache files are only written. -/
theorem fresh_puts (c : Call) : ∀ op ∈ (fresh host c).1, ∃ k content, op = .put k content := by
  have hwrite : ∀ (k : LogFile) (content : Text), ∀ op ∈ write k content,
      ∃ k content, op = Op.put k content := by
    intro k content op hop
    simp only [write, List.mem_cons, List.not_mem_nil, or_false] at hop
    rcases hop with rfl | rfl
    · exact ⟨_, _, rfl⟩
    · exact ⟨_, _, rfl⟩
  have hfinish : ∀ output, ∀ op ∈ (finish host c output).1, ∃ k content, op = Op.put k content := by
    intro output op hop
    unfold finish at hop
    cases hrc : c.rc with
    | none => simp [hrc] at hop
    | some rc =>
      simp only [hrc, List.mem_append] at hop
      rcases hop with (hop | hop) | hop <;> exact hwrite _ _ op hop
  intro op hop
  unfold fresh execute at hop
  split at hop
  · rcases List.mem_append.mp hop with hop | hop <;> exact hwrite _ _ op hop
  · split at hop
    · simp at hop
    · split at hop
      · simp at hop
      · rcases List.mem_append.mp hop with hop | hop
        · exact hwrite _ _ op hop
        · exact hfinish _ op hop
      · exact hfinish _ op hop

/-- A call past the cache that returns writes the output. -/
theorem fresh_ran (c : Call) (h : (fresh host c).2 = .ran) :
    ∃ content, .put .txt content ∈ (fresh host c).1 := by
  have heff := fresh_effect host c () (fun _ => none)
  rw [h] at heff
  have htxt : ∃ f, applyAll () (fun _ => none) (fresh host c).1 .txt = some f := by
    generalize applyAll () (fun _ => none) (fresh host c).1 = s' at heff
    cases heff with
    | failed _ _ ht => exact ⟨_, ht⟩
    | completed _ _ _ ht => exact ⟨_, ht⟩
    | aborted hr => rcases hr with hr | hr <;> cases hr
  obtain ⟨f, hf⟩ := htxt
  rcases applyAll_puts () (fresh_puts host c) (fun _ => none) .txt with ⟨content, hm, _⟩ | ⟨_, hk⟩
  · exact ⟨content, hm⟩
  · rw [hf] at hk
    cases hk

theorem lookup_eq_hit_iff (c : Call) (s : Store LogFile ι) :
    lookup host c s = .hit ↔ ∃ t e m, s .txt = some t ∧ s .elapsed = some e ∧
      s .md5sum = some m ∧ m.content = host.hexdigest c.source := by
  unfold lookup
  cases s .txt <;> cases s .elapsed <;> cases s .md5sum <;> simp

/-- The directory on which a call past the cache starts. -/
def evicted (c : Call) (s : Store LogFile ι) : Store LogFile ι :=
  if lookup host c s = .stale then Function.update s .txt none else s

/-- **What one call does:** answer from the cache and change nothing, or act on
the evicted directory. -/
theorem runCmd_cases (c : Call) (i : ι) (s : Store LogFile ι) :
    (lookup host c s = .hit ∧ (runCmd host c s).2 = .cached ∧
      applyAll i s (runCmd host c s).1 = s) ∨
    (lookup host c s ≠ .hit ∧
      Effect host c i (evicted host c s) (applyAll i s (runCmd host c s).1)
        (runCmd host c s).2) := by
  have heff := fresh_effect host c i (evicted host c s)
  cases h : lookup host c s with
  | hit => exact Or.inl ⟨rfl, by simp [runCmd, h], by simp [runCmd, h]⟩
  | stale =>
    refine Or.inr ⟨by simp, ?_⟩
    simpa [runCmd, h, evicted] using heff
  | miss =>
    refine Or.inr ⟨by simp, ?_⟩
    simpa [runCmd, h, evicted] using heff

theorem Effect.not_cached {c : Call} {i : ι} {s s' : Store LogFile ι} {r : Result}
    (h : Effect host c i s s' r) : r ≠ .cached := by
  cases h with
  | failed => simp
  | completed => simp
  | aborted hr => rcases hr with rfl | rfl <;> simp

theorem cached_iff (c : Call) (s : Store LogFile ι) :
    (runCmd host c s).2 = .cached ↔ lookup host c s = .hit := by
  have hfresh := (fresh_effect host c () (fun _ => none)).not_cached
  cases h : lookup host c s <;> simp [runCmd, h, hfresh]

/-! ## Sequences of calls on one test -/

/-- One call after another, on a directory that starts empty; the writer of a
file is the number of the call. -/
def calls : System (Store LogFile ℕ) Call where
  init := empty
  step past s c s' := s' = applyAll past.length s (runCmd host c s).1

/-- The digest on record, if there is one and the compilation fails, is that of
the source. -/
def KeepsDigest (s : Store LogFile ℕ) (c : Call) : Prop :=
  compileFails c = true → ∀ m, s .md5sum = some m → m.content = host.hexdigest c.source

/-- The output on record is that of a call whose source has the digest on record. -/
def Coherent (past : List Call) (s : Store LogFile ℕ) : Prop :=
  ∀ t e m, s .txt = some t → s .elapsed = some e → s .md5sum = some m →
    ∃ c, past[t.writer]? = some c ∧ transcript host c = some t.content ∧
      m.content = host.hexdigest c.source

theorem coherent_step {past : List Call} {s : Store LogFile ℕ} {c : Call}
    (hinv : Coherent host past s) (hkeep : KeepsDigest host s c) :
    Coherent host (past ++ [c]) (applyAll past.length s (runCmd host c s).1) := by
  have hlast : (past ++ [c])[past.length]? = some c := by simp
  have hold : ∀ s', s' = s → Coherent host (past ++ [c]) s' := by
    rintro s' rfl t e m ht he hm
    obtain ⟨c', hc', h⟩ := hinv t e m ht he hm
    exact ⟨c', getElem?_past hc' c, h⟩
  rcases runCmd_cases host c past.length s with ⟨_, _, hs'⟩ | ⟨hmiss, heff⟩
  · exact hold _ hs'
  · generalize applyAll past.length s (runCmd host c s).1 = s' at heff ⊢
    generalize (runCmd host c s).2 = r at heff
    intro t e m ht he hm
    cases heff with
    | failed hf _ ht' hm' _ =>
      rw [ht'] at ht
      obtain rfl := Option.some.inj ht
      have hs : s .md5sum = some m := by
        rw [← hm, hm', evicted]
        split
        · exact (Function.update_of_ne (by decide) _ _).symm
        · rfl
      exact ⟨c, hlast, by simp [transcript, hf], hkeep hf m hs⟩
    | completed _ hout _ ht' hm' _ =>
      rw [ht'] at ht
      rw [hm'] at hm
      obtain rfl := Option.some.inj ht
      obtain rfl := Option.some.inj hm
      exact ⟨c, hlast, hout, rfl⟩
    | aborted _ _ _ he' ht' hm' _ =>
      rw [ht', evicted] at ht
      rw [he', evicted] at he
      rw [hm', evicted] at hm
      split at ht
      · rw [Function.update_self] at ht
        cases ht
      · rename_i hstale
        rw [if_neg hstale] at he hm
        obtain ⟨c', hc', h⟩ := hinv t e m ht he hm
        exact ⟨c', getElem?_past hc' c, h⟩

theorem run_coherent {past : List Call} {s : Store LogFile ℕ}
    (h : Run (calls host) (fun _ => KeepsDigest host) past s) : Coherent host past s := by
  refine h.invariant ?_ ?_
  · intro t e m ht
    cases ht
  · rintro past s c s' hinv hkeep rfl
    exact coherent_step host hinv hkeep

/-- **A cached answer is one for the current source,** in every run in which no
compilation fails while the digest of another source is on record. -/
theorem cached_coherent (hmd5 : Function.Injective host.hexdigest) {past : List Call}
    {s : Store LogFile ℕ} (h : Run (calls host) (fun _ => KeepsDigest host) past s) {c : Call}
    (hc : (runCmd host c s).2 = .cached) :
    ∃ f c', s .txt = some f ∧ past[f.writer]? = some c' ∧ c'.source = c.source ∧
      transcript host c' = some f.content := by
  obtain ⟨t, e, m, ht, he, hm, hdigest⟩ := (lookup_eq_hit_iff host c s).mp ((cached_iff host c s).mp hc)
  obtain ⟨c', hc', hout, hm'⟩ := run_coherent host h t e m ht he hm
  exact ⟨t, c', ht, hc', hmd5 (hm'.symm.trans hdigest), hout⟩

/-- Where the condition is broken, the source on record is answered with the
failure of the other one. -/
theorem stale_answer {c a : Call} {i : ι} {s : Store LogFile ι} {m : File ι}
    (hf : compileFails c = true) (hm : s .md5sum = some m)
    (hother : m.content ≠ host.hexdigest c.source) (ha : host.hexdigest a.source = m.content) :
    (runCmd host a (applyAll i s (runCmd host c s).1)).2 = .cached ∧
      applyAll i s (runCmd host c s).1 .txt = some ⟨failureOutput c, i⟩ := by
  rcases runCmd_cases host c i s with ⟨hhit, _⟩ | ⟨_, heff⟩
  · obtain ⟨_, _, m', _, _, hm', hdigest⟩ := (lookup_eq_hit_iff host c s).mp hhit
    rw [hm] at hm'
    obtain rfl := Option.some.inj hm'
    exact absurd hdigest hother
  · generalize applyAll i s (runCmd host c s).1 = s' at heff ⊢
    generalize (runCmd host c s).2 = r at heff
    cases heff with
    | failed _ he ht hm' _ =>
      refine ⟨(cached_iff host a s').mpr ((lookup_eq_hit_iff host a s').mpr ?_), ht⟩
      refine ⟨_, _, m, ht, he, ?_, ha.symm⟩
      rw [hm', evicted]
      split
      · rw [Function.update_of_ne (by decide), hm]
      · exact hm
    | completed hno => rw [hno] at hf; cases hf
    | aborted _ hno => rw [hno] at hf; cases hf

end Host

/-! ## A good version, a broken one, and the good one again -/

def emptyDigest : Text := "d41d8cd98f00b204e9800998ecf8427e".toList
def aDigest : Text := "0cc175b9c0f1b6a831c399e269772661".toList

/-- A clock that counts tenths of a second. -/
def tenths (q : ℚ) : Text :=
  natText ((10 * q).num.toNat / 10) ++ '.' :: natText ((10 * q).num.toNat % 10)

/-- The digests of the empty file and of the file `a`; other files are told apart too. -/
def sampleHost : Host where
  hexdigest t := if t = [] then emptyDigest else if t = ['a'] then aDigest else 'x' :: t
  seconds := tenths

theorem sampleHost_injective : Function.Injective sampleHost.hexdigest := by
  have hne : aDigest ≠ emptyDigest := by decide +kernel
  have hempty : emptyDigest.head? = some 'd' := by decide +kernel
  have ha : aDigest.head? = some '0' := by decide +kernel
  have hx : ∀ t : Text, 'x' :: t ≠ emptyDigest ∧ 'x' :: t ≠ aDigest := by
    intro t
    constructor
    · intro h
      rw [← h, List.head?_cons] at hempty
      exact absurd hempty (by decide)
    · intro h
      rw [← h, List.head?_cons] at ha
      exact absurd ha (by decide)
  apply Function.LeftInverse.injective
    (g := fun d => if d = emptyDigest then [] else if d = aDigest then ['a'] else d.tail)
  intro t
  unfold sampleHost
  by_cases h₀ : t = []
  · simp only [h₀, ↓reduceIte]
  · by_cases h₁ : t = ['a']
    · simp only [h₁, hne, ↓reduceIte, reduceCtorEq]
    · simp only [h₀, h₁, hx, ↓reduceIte, List.tail_cons]

/-- A call on this source, compiled with this code, whose tool ends after a second. -/
def sampleCall (source : Text) (compilerCode : Int) : Call where
  source := source
  buildcmd := some "mpicc".toList
  execcmd := "mpirun".toList
  binary := ⟨['a'], by decide⟩
  timeout := 300
  batchinfo := "1/1".toList
  compilerOutput := []
  compilerCode := compilerCode
  compileClock := 1 / 2
  started := true
  ticks := [⟨none, 1, some []⟩]
  timeoutClock := 1
  endClock := 6 / 5
  rc := some 0

/-- The tool runs for more than its 300 seconds, prints nothing and is stopped. -/
def slowCall : Call :=
  { sampleCall [] 0 with
    ticks := [⟨none, 3001 / 10, none⟩]
    timeoutClock := 3002 / 10
    endClock := 3004 / 10
    rc := some (-15) }

def runAll (host : Host) : ℕ → Store LogFile ℕ → List Call → Store LogFile ℕ
  | _, s, [] => s
  | n, s, c :: cs => runAll host (n + 1) (applyAll n s (runCmd host c s).1) cs

/-- A version that does not compile, one that is run twice, and another one. -/
def versions : List Call :=
  [sampleCall ['b'] 1, sampleCall [] 0, sampleCall [] 0, sampleCall ['a'] 0]

theorem versions_run : Run (calls sampleHost) (fun _ => KeepsDigest sampleHost) versions
    (runAll sampleHost 0 empty versions) := by
  refine .next (.next (.next (.next .start ?_ rfl) ?_ rfl) ?_ rfl) ?_ rfl
  · rintro _ m hm
    cases hm
  · exact fun h => absurd h (by decide)
  · exact fun h => absurd h (by decide)
  · exact fun h => absurd h (by decide)

/-- The last version is answered from the cache. -/
theorem cached_coherent_twice :
    ∃ f c', runAll sampleHost 0 empty versions .txt = some f ∧
      versions[f.writer]? = some c' ∧ c'.source = (sampleCall ['a'] 0).source ∧
      transcript sampleHost c' = some f.content :=
  cached_coherent sampleHost sampleHost_injective versions_run (by decide +kernel)

/-- **The broken version's failure is answered for the good one.** -/
theorem broken_version_cached :
    Run (calls sampleHost) (fun _ _ _ => True) [sampleCall [] 0, sampleCall ['a'] 1]
        (runAll sampleHost 0 empty [sampleCall [] 0, sampleCall ['a'] 1]) ∧
      (runCmd sampleHost (sampleCall [] 0)
        (runAll sampleHost 0 empty [sampleCall [] 0, sampleCall ['a'] 1])).2 = .cached ∧
      runAll sampleHost 0 empty [sampleCall [] 0, sampleCall ['a'] 1] .txt =
        some ⟨failureOutput (sampleCall ['a'] 1), 1⟩ ∧
      (sampleCall ['a'] 1).source ≠ (sampleCall [] 0).source := by
  refine ⟨.next (.next .start trivial rfl) trivial rfl, by decide +kernel, by decide +kernel,
    by decide⟩

end MpiBugs.RunCmd
