import MpiBugs.Verdicts
import MpiBugs.Categorize

/-!
# Runs that may be interrupted

Sequences of calls of `run_cmd` on one test, any of which may be killed between
two of its file operations (the HARD TIMEOUT of `cmd_run`).

* `output_timed`: where there is an output there is its elapsed time, and so
  `categorize` never raises;
* `marker_describes_iff`: the time-out file, which is never removed, is that of
  the last run iff no run that ends in time comes after one that did not.
-/

namespace MpiBugs.Recorded

open FileStore RunCmd Wrappers Verdicts Categorize

/-- A call, and the number of file operations after which it was killed, if it was. -/
structure Attempt where
  call : Call
  killedAfter : Option Nat

variable (host : Host) {ι : Type}

/-- The operations carried out. -/
def Attempt.ops (s : Store LogFile ι) (a : Attempt) : List (Op LogFile) :=
  match a.killedAfter with
  | none => (runCmd host a.call s).1
  | some n => (runCmd host a.call s).1.take n

/-- The call returned True. -/
def Attempt.Returns (s : Store LogFile ι) (a : Attempt) : Prop :=
  a.killedAfter = none ∧ (runCmd host a.call s).2 = .ran

/-- From the files `s`, the next attempt having number `n`. -/
def replay : Nat → Store LogFile ℕ → List Attempt → Store LogFile ℕ
  | _, s, [] => s
  | n, s, a :: as => replay (n + 1) (applyAll n s (a.ops host s)) as

/-- The files after these attempts, from an empty directory on. -/
def after (as : List Attempt) : Store LogFile ℕ := replay host 0 empty as

theorem replay_append (a : Attempt) (as : List Attempt) : ∀ (n : Nat) (s : Store LogFile ℕ),
    replay host n s (as ++ [a]) =
      applyAll (n + as.length) (replay host n s as) (a.ops host (replay host n s as)) := by
  induction as with
  | nil => intro n s; rfl
  | cons b as ih =>
    intro n s
    show replay host (n + 1) _ (as ++ [a]) = _
    rw [ih, List.length_cons, Nat.add_assoc, Nat.add_comm 1]
    rfl

theorem after_append (as : List Attempt) (a : Attempt) :
    after host (as ++ [a]) = applyAll as.length (after host as) (a.ops host (after host as)) := by
  rw [after, replay_append, Nat.zero_add]
  rfl

/-- Without kills these are the runs of `run_cmd`. -/
theorem replay_calls (cs : List Call) : ∀ (n : Nat) (s : Store LogFile ℕ),
    replay host n s (cs.map fun c => ⟨c, none⟩) = runAll host n s cs := by
  induction cs with
  | nil => intro n s; rfl
  | cons c cs ih => intro n s; exact ih _ _

/-! ## What an attempt leaves behind -/

/-- Nothing, or the first operations past the cache, perhaps after the removal of the output. -/
theorem ops_cases (s : Store LogFile ι) (a : Attempt) :
    a.ops host s = [] ∨ ∃ n, a.ops host s = (fresh host a.call).1.take n ∨
      (a.ops host s = .remove .txt :: (fresh host a.call).1.take n) := by
  have htake : ∃ n, a.ops host s = (runCmd host a.call s).1.take n := by
    unfold Attempt.ops
    cases a.killedAfter with
    | none => exact ⟨(runCmd host a.call s).1.length, List.take_length.symm⟩
    | some n => exact ⟨n, rfl⟩
  obtain ⟨n, hn⟩ := htake
  rw [hn]
  cases h : lookup host a.call s with
  | hit => exact Or.inl (by simp [runCmd, h])
  | miss => exact Or.inr ⟨n, Or.inl (by simp [runCmd, h])⟩
  | stale =>
    cases n with
    | zero => exact Or.inl rfl
    | succ n => exact Or.inr ⟨n, Or.inr (by simp [runCmd, h])⟩

section Files

variable (i : ι) (s : Store LogFile ι)

/-- A file left by the first operations past the cache. -/
theorem isSome_fresh_iff (c : Call) (n : Nat) (k : LogFile) :
    (applyAll i s ((fresh host c).1.take n) k).isSome = true ↔
      (s k).isSome = true ∨ ∃ content, .put k content ∈ (fresh host c).1.take n := by
  have hputs : ∀ op ∈ (fresh host c).1.take n, ∃ k content, op = .put k content :=
    fun op hop => fresh_puts host c op (List.mem_of_mem_take hop)
  rcases applyAll_puts i hputs s k with ⟨content, hm, hk⟩ | ⟨hno, hk⟩
  · rw [hk]
    exact ⟨fun _ => Or.inr ⟨content, hm⟩, fun _ => rfl⟩
  · rw [hk]
    simp only [hno, exists_false, or_false]

/-- No operation removes another file than the output. -/
theorem isSome_ops_iff {k : LogFile} (hk : k ≠ .txt) (a : Attempt) :
    (applyAll i s (a.ops host s) k).isSome = true ↔
      (s k).isSome = true ∨ ∃ content, .put k content ∈ a.ops host s := by
  rcases ops_cases host s a with h | ⟨n, h | h⟩
  · simp [h]
  · rw [h, isSome_fresh_iff]
  · rw [h, applyAll_cons, isSome_fresh_iff, apply_remove, Function.update_of_ne hk]
    simp

theorem isSome_txt {a : Attempt} (h : (applyAll i s (a.ops host s) .txt).isSome = true) :
    (s .txt).isSome = true ∨ ∃ content, .put .txt content ∈ a.ops host s := by
  rcases ops_cases host s a with ho | ⟨n, ho | ho⟩
  · rw [ho] at h
    exact Or.inl h
  · rw [ho, isSome_fresh_iff] at h
    rwa [ho]
  · rw [ho, applyAll_cons, isSome_fresh_iff, apply_remove, Function.update_self] at h
    rcases h with h | ⟨content, h⟩
    · cases h
    · exact Or.inr ⟨content, by rw [ho]; exact List.mem_cons_of_mem _ h⟩

end Files

/-! ## The elapsed time of an output -/

/-- What comes late in a list is only taken with all that comes before. -/
theorem mem_take_append {α : Type} {l l' : List α} {n : Nat} {x : α}
    (hx : x ∈ (l ++ l').take n) (hl : x ∉ l) {y : α} (hy : y ∈ l) : y ∈ (l ++ l').take n := by
  rw [List.take_append] at hx ⊢
  rcases List.mem_append.mp hx with hx | hx
  · exact absurd (List.mem_of_mem_take hx) hl
  · have hn : l.length ≤ n := by
      by_contra hlt
      rw [show n - l.length = 0 by omega, List.take_zero] at hx
      cases hx
    rw [List.take_of_length_le hn]
    exact List.mem_append_left _ hy

/-- **The elapsed time is written before the output,** on every path. -/
theorem elapsed_before_output (c : Call) :
    (∀ t, .put .txt t ∉ (fresh host c).1) ∨ ∃ l l' e, (fresh host c).1 = l ++ l' ∧
      (∀ t, .put .txt t ∉ l) ∧ .put .elapsed e ∈ l := by
  have hfinish : ∀ output, (∀ t, .put .txt t ∉ (finish host c output).1) ∨
      ∃ l' e, (finish host c output).1 = write .elapsed e ++ l' := by
    intro output
    unfold finish
    cases c.rc with
    | none => exact Or.inl (by simp)
    | some rc => exact Or.inr ⟨_, _, List.append_assoc ..⟩
  have hwrite : ∀ e : Text, (∀ t, Op.put LogFile.txt t ∉ write .elapsed e) ∧
      Op.put LogFile.elapsed e ∈ write .elapsed e := by
    intro e
    simp [write]
  unfold fresh execute
  cases compileFails c with
  | true => exact Or.inr ⟨_, _, _, rfl, (hwrite _).1, (hwrite _).2⟩
  | false =>
    cases c.started with
    | false => exact Or.inl (by simp)
    | true =>
      cases loop c.timeout (commandOutput c) c.ticks with
      | waiting => exact Or.inl (by simp)
      | timeout output =>
        rcases hfinish output with hno | ⟨l', e, h⟩
        · exact Or.inl (by simp [write, hno])
        · refine Or.inr ⟨write .timeout (host.seconds c.timeoutClock ++ " seconds".toList) ++
            write .elapsed e, l', e, ?_, ?_, List.mem_append_right _ (hwrite e).2⟩
          · simp only [h, List.append_assoc]
          · simp [write]
      | ended output =>
        rcases hfinish output with hno | ⟨l', e, h⟩
        · exact Or.inl hno
        · exact Or.inr ⟨write .elapsed e, l', e, h, (hwrite e).1, (hwrite e).2⟩

/-- However early a call is killed. -/
theorem elapsed_written {s : Store LogFile ι} {a : Attempt} {t : Text}
    (h : .put .txt t ∈ a.ops host s) : ∃ e, .put .elapsed e ∈ a.ops host s := by
  have hfresh : ∀ n, .put .txt t ∈ (fresh host a.call).1.take n →
      ∃ e, .put .elapsed e ∈ (fresh host a.call).1.take n := by
    intro n hn
    rcases elapsed_before_output host a.call with hno | ⟨l, l', e, hl, hno, he⟩
    · exact absurd (List.mem_of_mem_take hn) (hno t)
    · rw [hl] at hn ⊢
      exact ⟨e, mem_take_append hn (hno t) he⟩
  rcases ops_cases host s a with ho | ⟨n, ho | ho⟩
  · rw [ho] at h
    cases h
  · rw [ho] at h ⊢
    exact hfresh n h
  · rw [ho] at h ⊢
    rcases List.mem_cons.mp h with h | h
    · cases h
    · obtain ⟨e, he⟩ := hfresh n h
      exact ⟨e, List.mem_cons_of_mem _ he⟩

/-- Where there is an output there is an elapsed time. -/
def Timed (s : Store LogFile ι) : Prop := (s .txt).isSome = true → (s .elapsed).isSome = true

theorem timed_step {s : Store LogFile ι} (hs : Timed s) (a : Attempt) (i : ι) :
    Timed (applyAll i s (a.ops host s)) := by
  intro ht
  rw [isSome_ops_iff host i s (by decide)]
  rcases isSome_txt host i s ht with ht | ⟨t, ht⟩
  · exact Or.inl (hs ht)
  · exact Or.inr (elapsed_written host ht)

theorem timed_after (as : List Attempt) : Timed (after host as) := by
  induction as using List.reverseRecOn with
  | nil => intro h; cases h
  | append_singleton as a ih =>
    rw [after_append]
    exact timed_step host ih a as.length

/-- Without an output every wrapper gives up. -/
theorem parse_no_output (tool : Tool) {w : Workdir} (h : w.file (.log .txt) = none) :
    tool.parse w = Wrappers.failure := by
  rw [Tool.parse, h]

/-- **An output on record has its elapsed time,** whatever calls were made and
wherever they were killed; so every test can be categorized for every tool. -/
theorem output_timed (as : List Attempt) :
    ((after host as .txt).isSome = true → (after host as .elapsed).isSome = true) ∧
      ∀ (tool : Tool) (fromRoot : Bool) (report : Option Text) (testID : Text)
        (expected : Expect), ∃ result,
          categorize tool (workdir fromRoot (leftFiles report (after host as))) testID expected =
            .ok result := by
  have htimed := timed_after host as
  refine ⟨htimed, fun tool fromRoot report testID expected => ?_⟩
  have hno : ¬ ∃ e, categorize tool (workdir fromRoot (leftFiles report (after host as))) testID
      expected = .error e := by
    rw [categorize_error_iff]
    rintro ⟨helapsed, hparse⟩
    rw [workdir_file, leftFiles, Option.map_eq_none_iff] at helapsed
    have htxt : after host as .txt = none := by
      cases h : after host as .txt with
      | none => rfl
      | some f =>
        have he := htimed (by rw [h]; rfl)
        rw [helapsed] at he
        cases he
    exact hparse (parse_no_output tool (by rw [workdir_file, leftFiles, htxt]; rfl))
  cases h : categorize tool (workdir fromRoot (leftFiles report (after host as))) testID expected with
  | ok result => exact ⟨result, rfl⟩
  | error e => exact absurd ⟨e, h⟩ hno

/-! ## The time-out file -/

/-- The operations before the time-out file is opened. -/
def opsBefore (s : Store LogFile ι) (c : Call) : Nat := if lookup host c s = .stale then 1 else 0

/-- The attempt starts the tool, stops it because its time is over, and lives
long enough to leave the marker. -/
structure Marks (s : Store LogFile ι) (a : Attempt) : Prop where
  fresh : lookup host a.call s ≠ .hit
  timesOut : timesOut a.call = true
  alive : ∀ n, a.killedAfter = some n → opsBefore host s a.call < n

theorem finish_no_marker (c : Call) (output content : Text) :
    .put .timeout content ∉ (finish host c output).1 := by
  unfold finish
  cases c.rc <;> simp [write]

theorem fresh_marker_iff (c : Call) (n : Nat) :
    (∃ content, .put .timeout content ∈ (fresh host c).1.take n) ↔ timesOut c = true ∧ 0 < n := by
  have hmore : ∀ output content, .put .timeout content ∉ (finish host c output).1.take n :=
    fun output content hm => finish_no_marker host c output content (List.mem_of_mem_take hm)
  unfold fresh execute timesOut
  cases hf : compileFails c with
  | true =>
    simp only [Bool.not_true, Bool.false_and, Bool.false_eq_true, false_and, iff_false]
    rintro ⟨content, hm⟩
    have hm := List.mem_of_mem_take hm
    simp [write] at hm
  | false =>
    cases c.started with
    | false => simp
    | true =>
      cases loop c.timeout (commandOutput c) c.ticks with
      | waiting => simp
      | ended output => simp [hmore]
      | timeout output =>
        cases n with
        | zero => simp
        | succ n => simp [write]

/-- **Who leaves the marker.** -/
theorem marks_iff (s : Store LogFile ι) (a : Attempt) :
    (∃ content, .put .timeout content ∈ a.ops host s) ↔ Marks host s a := by
  have hmarks : ∀ m, (opsBefore host s a.call < m ↔
      ∀ n, a.killedAfter = some n → opsBefore host s a.call < n) →
      (Marks host s a ↔ lookup host a.call s ≠ .hit ∧ timesOut a.call = true ∧
        opsBefore host s a.call < m) := by
    intro m hm
    rw [hm]
    exact ⟨fun h => ⟨h.fresh, h.timesOut, h.alive⟩, fun ⟨h, h', h''⟩ => ⟨h, h', h''⟩⟩
  have htake : ∃ m, a.ops host s = (runCmd host a.call s).1.take m ∧
      (opsBefore host s a.call < m ↔
        ∀ n, a.killedAfter = some n → opsBefore host s a.call < n) := by
    unfold Attempt.ops
    cases a.killedAfter with
    | none =>
      have hle : opsBefore host s a.call ≤ 1 := by
        unfold opsBefore
        split <;> omega
      exact ⟨(runCmd host a.call s).1.length + 2, (List.take_of_length_le (Nat.le_add_right _ 2)).symm,
        iff_of_true (by omega) (by simp)⟩
    | some m => exact ⟨m, rfl, by simp⟩
  obtain ⟨m, hops, hm⟩ := htake
  rw [hmarks m hm, hops]
  cases h : lookup host a.call s with
  | hit => simp [runCmd, h]
  | miss =>
    have hrun : (runCmd host a.call s).1 = (fresh host a.call).1 := by simp [runCmd, h]
    rw [hrun, fresh_marker_iff]
    simp [opsBefore, h]
  | stale =>
    have hrun : (runCmd host a.call s).1 = .remove .txt :: (fresh host a.call).1 := by
      simp [runCmd, h]
    rw [hrun]
    cases m with
    | zero => simp
    | succ m =>
      have hfresh := fresh_marker_iff host a.call m
      have hone : opsBefore host s a.call = 1 := if_pos h
      simp only [List.take_succ_cons, List.mem_cons, reduceCtorEq, false_or, hfresh, hone,
        ne_eq, not_false_eq_true, true_and, Nat.lt_add_left_iff_pos]

theorem marker_after_iff (as : List Attempt) :
    (after host as .timeout).isSome = true ↔
      ∃ past b, past ++ [b] <+: as ∧ Marks host (after host past) b := by
  induction as using List.reverseRecOn with
  | nil =>
    refine iff_of_false (by intro h; cases h) ?_
    rintro ⟨past, b, h, _⟩
    have hlen := h.length_le
    simp at hlen
  | append_singleton as a ih =>
    rw [after_append, isSome_ops_iff host as.length _ (by decide), ih, marks_iff]
    constructor
    · rintro (⟨past, b, h, hb⟩ | ha)
      · exact ⟨past, b, h.trans (List.prefix_append as [a]), hb⟩
      · exact ⟨as, a, List.prefix_rfl, ha⟩
    · rintro ⟨past, b, h, hb⟩
      rcases List.prefix_concat_iff.mp h with h | h
      · obtain ⟨rfl, hba⟩ := List.append_inj' h rfl
        obtain rfl := List.singleton_inj.mp hba
        exact Or.inr hb
      · exact Or.inl ⟨past, b, h, hb⟩

/-- After each call that returned True the marker is there iff this call
exceeded its timeout. -/
def Describes (as : List Attempt) : Prop :=
  ∀ past a, past ++ [a] <+: as → a.Returns host (after host past) →
    ((after host (past ++ [a]) .timeout).isSome = true ↔ timesOut a.call = true)

/-- No call that returns True within its timeout comes after one that left the marker. -/
def NoneAfterMarker (as : List Attempt) : Prop :=
  ∀ past a, past ++ [a] <+: as → a.Returns host (after host past) → timesOut a.call = false →
    ∀ past' b, past' ++ [b] <+: past → ¬ Marks host (after host past') b

theorem marks_of_returns {s : Store LogFile ι} {a : Attempt} (h : a.Returns host s) :
    Marks host s a ↔ timesOut a.call = true := by
  obtain ⟨hlive, hran⟩ := h
  refine ⟨fun hm => hm.timesOut, fun ht => ⟨fun hhit => ?_, ht, fun n hn => ?_⟩⟩
  · rw [(cached_iff host a.call s).mpr hhit] at hran
    cases hran
  · rw [hlive] at hn
    cases hn

/-- **When the marker describes the last run,** for every sequence of attempts. -/
theorem marker_describes_iff (as : List Attempt) :
    Describes host as ↔ NoneAfterMarker host as := by
  have hstep : ∀ past a, a.Returns host (after host past) →
      (((after host (past ++ [a]) .timeout).isSome = true ↔ timesOut a.call = true) ↔
        (timesOut a.call = false → ¬ (after host past .timeout).isSome = true)) := by
    intro past a hret
    rw [after_append, isSome_ops_iff host past.length _ (by decide), marks_iff,
      marks_of_returns host hret]
    cases timesOut a.call <;> simp
  constructor
  · intro h past a has hret hno past' b hb hmark
    refine (hstep past a hret).mp (h past a has hret) hno ?_
    exact (marker_after_iff host past).mpr ⟨past', b, hb, hmark⟩
  · intro h past a has hret
    rw [hstep past a hret]
    intro hno hsome
    obtain ⟨past', b, hb, hmark⟩ := (marker_after_iff host past).mp hsome
    exact h past a has hret hno past' b hb hmark

/-- **A run that ends at once** after one that timed out, on another source. -/
theorem marker_left_behind :
    (Attempt.mk (sampleCall ['a'] 0) none).Returns sampleHost
        (after sampleHost [⟨slowCall, none⟩]) ∧
      timesOut (sampleCall ['a'] 0) = false ∧
      (after sampleHost [⟨slowCall, none⟩, ⟨sampleCall ['a'] 0, none⟩] .timeout).isSome = true := by
  refine ⟨⟨rfl, by decide +kernel⟩, by decide +kernel, by decide +kernel⟩

end MpiBugs.Recorded
