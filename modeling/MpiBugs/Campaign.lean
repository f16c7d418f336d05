import MpiBugs.CacheKeys
import MpiBugs.Interleaving
import MpiBugs.Recorded
import Mathlib.Algebra.BigOperators.Fin
import Mathlib.Algebra.Order.BigOperators.Group.Finset

/-!
# Campaigns

`cmd_run` of `MBI.py` for the runners `1/M`, ..., `M/M`, which take their file
operations in any order in one logs directory, and campaigns that are resumed.
The file operations are those of `run_cmd`; what a wrapper does with files of
its own is left out.

* `runners_end`: runners whose tests have different keys leave what each of them
  would have left alone;
* `batches_end`: so do the batches of one listing, in every interleaving;
* `resumed_iff`: a test is answered from the cache iff it has been run to the end;
* `gather_keeps`: the run after the batches runs what they did not complete.
-/

namespace MpiBugs.Campaign

open FileStore TextFile Header Batch Listing HtmlReport CacheKeys RunCmd Recorded Interleaving
  Rewriting

/-! ## Operations in their place -/

section Files

variable {κ η ι : Type} [DecidableEq κ] [DecidableEq η] (i : ι)

/-- What an operation leaves under its names is decided by what was there. -/
theorem apply_local {s s' : Store κ ι} {op : Op κ} (h : ∀ k ∈ op.names, s k = s' k) :
    ∀ k ∈ op.names, apply i s op k = apply i s' op k := by
  cases op with
  | put k content | remove k =>
    intro k' hk'
    obtain rfl := List.mem_singleton.mp hk'
    simp only [apply, Function.update_self]
  | rename k₁ k₂ =>
    have h₁ : s k₁ = s' k₁ := h k₁ (by simp [Op.names])
    intro k hk
    have hs := h k hk
    cases hfile : s' k₁ with
    | none => simp only [apply, h₁, hfile, hs]
    | some f => simp only [apply, h₁, hfile, Function.update_apply, hs]

theorem applyAll_local {K : Set κ} {ops : List (Op κ)} (hK : ∀ op ∈ ops, ∀ k ∈ op.names, k ∈ K)
    {s s' : Store κ ι} (h : ∀ k ∈ K, s k = s' k) :
    ∀ k ∈ K, applyAll i s ops k = applyAll i s' ops k := by
  induction ops generalizing s s' with
  | nil => exact h
  | cons op ops ih =>
    obtain ⟨hop, hops⟩ := List.forall_mem_cons.mp hK
    refine ih hops fun k hk => ?_
    by_cases hname : k ∈ op.names
    · exact apply_local i (fun k hk => h k (hop k hk)) k hname
    · rw [apply_frame i hname, apply_frame i hname, h k hk]

/-- Operations under other names. -/
theorem apply_map {f : κ → η} (hf : Function.Injective f) (s : Store η ι) (op : Op κ) :
    apply i s (op.map f) ∘ f = apply i (s ∘ f) op := by
  cases op with
  | put k content => exact Function.update_comp_eq_of_injective s hf k _
  | remove k => exact Function.update_comp_eq_of_injective s hf k _
  | rename k₁ k₂ =>
    cases hfile : s (f k₁) with
    | none => simp only [Op.map, apply, hfile, Function.comp_apply]
    | some g =>
      simp only [Op.map, apply, hfile, Function.comp_apply]
      rw [Function.update_comp_eq_of_injective _ hf, Function.update_comp_eq_of_injective _ hf]

theorem applyAll_map {f : κ → η} (hf : Function.Injective f) (ops : List (Op κ)) :
    ∀ s : Store η ι, applyAll i s (ops.map (Op.map f)) ∘ f = applyAll i (s ∘ f) ops := by
  induction ops with
  | nil => exact fun s => rfl
  | cons op ops ih =>
    intro s
    rw [List.map_cons, applyAll_cons, ih, apply_map i hf, applyAll_cons]

end Files

/-! ## One runner -/

/-- The files of the logs directory, `{cachefile}.txt` and so on. -/
abbrev Path := Text × LogFile

/-- A test of the todo list: its key, and how the process fares that runs it. -/
structure Job where
  key : Text
  attempt : Attempt

section

variable (host : Host) {ρ : Type}

/-- The files of one test. -/
def own (key : Text) (s : Store Path ρ) : Store LogFile ρ := s ∘ Prod.mk key

/-- What `run_cmd` does with the files of the test. -/
def Job.ops (job : Job) (s : Store Path ρ) : List (Op Path) :=
  (job.attempt.ops host (own job.key s)).map (Op.map (Prod.mk job.key))

/-- The loop of `cmd_run`, undisturbed: one process after the other. -/
def cmdRun (i : ρ) (s : Store Path ρ) (todo : List Job) : Store Path ρ :=
  todo.foldl (fun s job => applyAll i s (job.ops host s)) s

/-- A runner: what its current process has still to do, and the tests that are left. -/
structure Runner where
  doing : List (Op Path)
  todo : List Job

/-- What runner `i` would leave if the others stopped. -/
def Runner.finish (i : ρ) (r : Runner) (s : Store Path ρ) : Store Path ρ :=
  cmdRun host i (applyAll i s r.doing) r.todo

/-- The runner keeps to these keys. -/
structure Runner.Within (K : Set Text) (r : Runner) : Prop where
  doing : ∀ op ∈ r.doing, ∀ p ∈ op.names, p.1 ∈ K
  todo : ∀ job ∈ r.todo, job.key ∈ K

variable {host}

theorem Job.ops_names (job : Job) (s : Store Path ρ) :
    ∀ op ∈ job.ops host s, ∀ p ∈ op.names, p.1 = job.key := by
  intro op hop p hp
  obtain ⟨op, -, rfl⟩ := List.mem_map.mp hop
  cases op <;> simp only [Op.map, Op.names, List.mem_cons, List.not_mem_nil, or_false] at hp
  · rw [hp]
  · rw [hp]
  · rcases hp with rfl | rfl <;> rfl

theorem own_job (i : ρ) (job : Job) (s : Store Path ρ) :
    own job.key (applyAll i s (job.ops host s)) =
      applyAll i (own job.key s) (job.attempt.ops host (own job.key s)) :=
  applyAll_map i (Prod.mk_right_injective job.key) _ s

theorem own_other (i : ρ) {job : Job} {key : Text} (hkey : job.key ≠ key) (s : Store Path ρ) :
    own key (applyAll i s (job.ops host s)) = own key s := by
  funext f
  exact applyAll_frame i (fun op hop hp => hkey (job.ops_names s op hop _ hp).symm) s

/-- Files of no test of the list stay. -/
theorem cmdRun_other (i : ρ) {key : Text} (todo : List Job) (h : ∀ job ∈ todo, job.key ≠ key) :
    ∀ s, own key (cmdRun host i s todo) = own key s := by
  induction todo with
  | nil => exact fun s => rfl
  | cons job todo ih =>
    obtain ⟨hjob, htodo⟩ := List.forall_mem_cons.mp h
    intro s
    exact (ih htodo _).trans (own_other i hjob s)

/-- The files under some keys are all that counts for these keys. -/
theorem cmdRun_congr (i : ρ) {K : Set Text} (todo : List Job) :
    ∀ {s s' : Store Path ρ}, (∀ k ∈ K, own k s = own k s') →
      ∀ k ∈ K, own k (cmdRun host i s todo) = own k (cmdRun host i s' todo) := by
  induction todo with
  | nil => exact fun h => h
  | cons job todo ih =>
    intro s s' h
    refine ih fun k hk => ?_
    by_cases hkey : job.key = k
    · subst hkey
      rw [own_job, own_job, h _ hk]
    · rw [own_other i hkey, own_other i hkey, h k hk]

/-- **A test of the list leaves what it would leave alone.** -/
theorem cmdRun_alone (i : ρ) (todo : List Job) (hnodup : (todo.map Job.key).Nodup) :
    ∀ s, ∀ job ∈ todo, own job.key (cmdRun host i s todo) =
      applyAll i (own job.key s) (job.attempt.ops host (own job.key s)) := by
  induction todo with
  | nil => exact fun s job hjob => absurd hjob List.not_mem_nil
  | cons first todo ih =>
    rw [List.map_cons, List.nodup_cons] at hnodup
    obtain ⟨hfirst, hnodup⟩ := hnodup
    intro s job hjob
    have hcons : cmdRun host i s (first :: todo) =
        cmdRun host i (applyAll i s (first.ops host s)) todo := rfl
    rw [hcons]
    rcases List.mem_cons.mp hjob with rfl | hjob
    · rw [cmdRun_other i todo, own_job]
      intro other hother hkey
      exact hfirst (hkey ▸ List.mem_map_of_mem hother)
    · have hkey : first.key ≠ job.key := fun h => hfirst (h ▸ List.mem_map_of_mem hjob)
      rw [ih hnodup _ job hjob, own_other i hkey]

/-- What a runner would leave is decided by the files of its keys. -/
theorem finish_congr {K : Set Text} (i : ρ) {r : Runner} (hr : r.Within K) {s s' : Store Path ρ}
    (h : ∀ k ∈ K, own k s = own k s') :
    ∀ k ∈ K, own k (r.finish host i s) = own k (r.finish host i s') := by
  have hdoing : ∀ k ∈ K, own k (applyAll i s r.doing) = own k (applyAll i s' r.doing) := by
    intro k hk
    funext f
    refine applyAll_local (K := {p : Path | p.1 ∈ K}) i hr.doing (fun p hp => ?_) (k, f) hk
    exact congrFun (h p.1 hp) p.2
  exact cmdRun_congr i r.todo hdoing

/-- A process takes at most nine file operations. -/
theorem ops_length (s : Store LogFile ρ) (a : Attempt) : (a.ops host s).length ≤ 9 := by
  have hfinish : ∀ output, (finish host a.call output).1.length ≤ 6 := by
    intro output
    unfold finish
    cases a.call.rc <;> simp [write]
  have hfresh : (fresh host a.call).1.length ≤ 8 := by
    unfold fresh execute
    split
    · simp [write]
    · split
      · simp
      · split
        · simp
        · simp only [List.length_append]
          have := hfinish ‹_›
          simp only [write, List.length_cons, List.length_nil]
          omega
        · exact (hfinish _).trans (by omega)
  have hrun : (runCmd host a.call s).1.length ≤ 9 := by
    unfold runCmd
    split
    · simp
    · simp only [List.length_cons]
      omega
    · omega
  unfold Attempt.ops
  split
  · exact hrun
  · exact (List.length_take_le' _ _).trans hrun

end

/-! ## All runners -/

section

variable (host : Host) {ρ : Type} [DecidableEq ρ]

/-- The logs directory and the runners. -/
structure State (ρ : Type) where
  store : Store Path ρ
  runner : ρ → Runner

/-- Runner `i` goes on: by one operation of its process, or by a process for the next test. -/
def next (st : State ρ) (i : ρ) : Option (State ρ) :=
  match st.runner i with
  | ⟨op :: ops, todo⟩ =>
    some ⟨apply i st.store op, Function.update st.runner i ⟨ops, todo⟩⟩
  | ⟨[], job :: todo⟩ =>
    some ⟨st.store, Function.update st.runner i ⟨job.ops host st.store, todo⟩⟩
  | ⟨[], []⟩ => none

/-- All runners at the beginning of their todo lists. -/
def start (s : Store Path ρ) (todo : ρ → List Job) : State ρ := ⟨s, fun i => ⟨[], todo i⟩⟩

/-- The keys of the runners are different. -/
def Apart (K : ρ → Set Text) : Prop := ∀ i j, i ≠ j → ∀ k ∈ K i, k ∉ K j

variable {host}

/-- What a step does. -/
theorem next_cases {st st' : State ρ} {j : ρ} (h : next host st j = some st') :
    (∀ i, i ≠ j → st'.runner i = st.runner i) ∧
    ((∃ op ops todo, st.runner j = ⟨op :: ops, todo⟩ ∧ st'.runner j = ⟨ops, todo⟩ ∧
      st'.store = apply j st.store op) ∨
    ∃ job todo, st.runner j = ⟨[], job :: todo⟩ ∧ st'.runner j = ⟨job.ops host st.store, todo⟩ ∧
      st'.store = st.store) := by
  rw [next] at h
  split at h
  · obtain rfl := Option.some.inj h
    exact ⟨fun i hi => Function.update_of_ne hi _ _,
      .inl ⟨_, _, _, ‹_›, Function.update_self .., rfl⟩⟩
  · obtain rfl := Option.some.inj h
    exact ⟨fun i hi => Function.update_of_ne hi _ _,
      .inr ⟨_, _, ‹_›, Function.update_self .., rfl⟩⟩
  · cases h

theorem next_none_iff {st : State ρ} {i : ρ} : next host st i = none ↔ st.runner i = ⟨[], []⟩ := by
  rw [next]
  split <;> simp [*]

section Runs

variable {K : ρ → Set Text} {st st' : State ρ}

/-- The runners keep to their keys. -/
def Separate (K : ρ → Set Text) (st : State ρ) : Prop := ∀ i, (st.runner i).Within (K i)

theorem separate_next (hst : Separate K st) {j : ρ} (h : next host st j = some st') :
    Separate K st' := by
  obtain ⟨hothers, hown⟩ := next_cases h
  intro i
  by_cases hij : i = j
  · subst hij
    have hi := hst i
    rcases hown with ⟨op, ops, todo, hrunner, hrunner', -⟩ | ⟨job, todo, hrunner, hrunner', -⟩
    · rw [hrunner] at hi
      rw [hrunner']
      exact ⟨fun op hop => hi.doing op (List.mem_cons_of_mem _ hop), hi.todo⟩
    · rw [hrunner] at hi
      rw [hrunner']
      refine ⟨fun op hop p hp => ?_, fun job hjob => hi.todo job (List.mem_cons_of_mem _ hjob)⟩
      rw [job.ops_names _ op hop p hp]
      exact hi.todo job List.mem_cons_self
  · rw [hothers i hij]
    exact hst i

/-- A step changes no files but those of its runner's keys. -/
theorem store_next (hst : Separate K st) {j : ρ} (h : next host st j = some st') {k : Text}
    (hk : k ∉ K j) : own k st'.store = own k st.store := by
  rcases (next_cases h).2 with ⟨op, ops, todo, hrunner, -, hstore⟩ | ⟨job, todo, -, -, hstore⟩
  · have hj := hst j
    rw [hrunner] at hj
    funext f
    rw [own, hstore]
    exact apply_frame j fun hp => hk (hj.doing op List.mem_cons_self (k, f) hp)
  · rw [hstore]

/-- **A step keeps what each runner would leave** of the files of its keys. -/
theorem finish_next (hK : Apart K) (hst : Separate K st) {j : ρ} (h : next host st j = some st')
    (i : ρ) {k : Text} (hk : k ∈ K i) :
    own k ((st'.runner i).finish host i st'.store) =
      own k ((st.runner i).finish host i st.store) := by
  obtain ⟨hothers, hown⟩ := next_cases h
  by_cases hij : i = j
  · subst hij
    rcases hown with ⟨op, ops, todo, hrunner, hrunner', hstore⟩ |
      ⟨job, todo, hrunner, hrunner', hstore⟩
    · rw [hrunner, hrunner', hstore]
      rfl
    · rw [hrunner, hrunner', hstore]
      rfl
  · rw [hothers i hij]
    exact finish_congr i (hst i) (fun k hk => store_next hst h (hK i j hij k hk)) k hk

/-- Along a run. -/
theorem finish_run (hK : Apart K) {es : List ρ} (hst : Separate K st)
    (hrun : run (next host) st es = some st') :
    (∀ i, ∀ k ∈ K i, own k ((st'.runner i).finish host i st'.store) =
      own k ((st.runner i).finish host i st.store)) ∧
    ∀ k, (∀ i, k ∉ K i) → own k st'.store = own k st.store := by
  induction es generalizing st with
  | nil =>
    obtain rfl := Option.some.inj hrun
    exact ⟨fun i k hk => rfl, fun k hk => rfl⟩
  | cons j es ih =>
    obtain ⟨u, hu, hrun⟩ := run_cons_iff.mp hrun
    obtain ⟨hfinish, hframe⟩ := ih (separate_next hst hu) hrun
    refine ⟨fun i k hk => (hfinish i k hk).trans (finish_next hK hst hu i hk), fun k hk => ?_⟩
    exact (hframe k hk).trans (store_next hst hu (hk j))

end Runs

/-! ## Runs to the end -/

theorem stuck_iff {st : State ρ} : Stuck (next host) st ↔ ∀ i, st.runner i = ⟨[], []⟩ :=
  forall_congr' fun _ => next_none_iff

section

variable [Fintype ρ]

/-- More than the number of steps that are left. -/
def weight (st : State ρ) : Nat :=
  ∑ i, ((st.runner i).doing.length + 10 * (st.runner i).todo.length)

theorem weight_next {st st' : State ρ} {j : ρ} (h : next host st j = some st') :
    weight st' < weight st := by
  obtain ⟨hothers, hown⟩ := next_cases h
  have hless : (st'.runner j).doing.length + 10 * (st'.runner j).todo.length <
      (st.runner j).doing.length + 10 * (st.runner j).todo.length := by
    rcases hown with ⟨op, ops, todo, hrunner, hrunner', -⟩ | ⟨job, todo, hrunner, hrunner', -⟩
    · simp only [hrunner, hrunner', List.length_cons]
      omega
    · have hops : (job.ops host st.store).length ≤ 9 := by
        rw [Job.ops, List.length_map]
        exact ops_length _ _
      simp only [hrunner, hrunner', List.length_cons, List.length_nil]
      omega
  refine Finset.sum_lt_sum (fun i _ => ?_) ⟨j, Finset.mem_univ j, hless⟩
  by_cases hij : i = j
  · subst hij
    exact hless.le
  · rw [hothers i hij]

theorem weight_run {es : List ρ} {st st' : State ρ} (h : run (next host) st es = some st') :
    es.length + weight st' ≤ weight st := by
  induction es generalizing st with
  | nil =>
    obtain rfl := Option.some.inj h
    rw [List.length_nil, Nat.zero_add]
  | cons j es ih =>
    obtain ⟨u, hu, h⟩ := run_cons_iff.mp h
    have hrest := ih h
    have hstep := weight_next hu
    rw [List.length_cons]
    omega

/-- What becomes of the directory: each test leaves what it would leave alone, and other files
stay. -/
structure Alone (host : Host) (s : Store Path ρ) (todo : ρ → List Job) (s' : Store Path ρ) :
    Prop where
  tests : ∀ i, ∀ job ∈ todo i, own job.key s' =
    applyAll i (own job.key s) (job.attempt.ops host (own job.key s))
  others : ∀ k, (∀ i, ∀ job ∈ todo i, job.key ≠ k) → own k s' = own k s

/-- **Runners at once leave what they leave alone**, in whatever order they take their steps. -/
theorem runners_end {todo : ρ → List Job} (hnodup : ∀ i, ((todo i).map Job.key).Nodup)
    (hapart : ∀ i j, i ≠ j → ∀ job ∈ todo i, ∀ job' ∈ todo j, job.key ≠ job'.key)
    (s : Store Path ρ) :
    Ends (next host) (start s todo) fun t =>
      (∀ i, t.runner i = ⟨[], []⟩) ∧ Alone host s todo t.store := by
  let K (i : ρ) : Set Text := {k | ∃ job ∈ todo i, job.key = k}
  have hK : Apart K := by
    rintro i j hij k ⟨job, hjob, rfl⟩ ⟨job', hjob', hkey⟩
    exact hapart i j hij job hjob job' hjob' hkey.symm
  have hstart : Separate K (start s todo) := fun i =>
    ⟨fun op hop => absurd hop List.not_mem_nil, fun job hjob => ⟨job, hjob, rfl⟩⟩
  refine ⟨⟨weight (start s todo), fun es t hrun => ?_⟩, fun es t hrun hstuck => ?_⟩
  · have hweight := weight_run hrun
    omega
  · have hidle := stuck_iff.mp hstuck
    obtain ⟨hfinish, hframe⟩ := finish_run hK hstart hrun
    refine ⟨hidle, fun i job hjob => ?_, fun k hk => ?_⟩
    · have hkey := hfinish i job.key ⟨job, hjob, rfl⟩
      rw [hidle i] at hkey
      exact hkey.trans (cmdRun_alone i (todo i) (hnodup i) s job hjob)
    · refine hframe k fun i => ?_
      rintro ⟨job, hjob, hkey⟩
      exact hk i job hjob hkey

end

end

/-! ## The batches of one listing -/

/-- The numbers of the tests of a file grow. -/
theorem readTests_ids {filename : Text} (ps : List (Text × Text)) :
    ∀ {k : Nat} {ts : List Test}, readTests filename k ps = some ts →
      (∀ t ∈ ts, k ≤ t.id) ∧ ts.Pairwise fun t t' => t.id < t'.id := by
  induction ps with
  | nil =>
    intro k ts h
    obtain rfl := Option.some.inj h
    exact ⟨nofun, .nil⟩
  | cons p ps ih =>
    obtain ⟨c, o⟩ := p
    intro k ts h
    obtain ⟨e, d, us, -, hus, rfl⟩ := readTests_cons_iff.mp h
    obtain ⟨hle, hpairs⟩ := ih hus
    refine ⟨List.forall_mem_cons.mpr ⟨Nat.le_refl k, fun t ht => ?_⟩, hpairs.cons fun t ht => ?_⟩
    · exact Nat.le_of_succ_le (hle t ht)
    · exact hle t ht

/-- They are different tests. -/
def Differ (t t' : Test) : Prop := (t.filename, t.id) ≠ (t'.filename, t'.id)

theorem readTodo_differ {text : Text → Text} {files : List Text} (hfiles : files.Nodup) :
    ∀ {todo ts : List Test}, readTodo text todo files = .ok ts → todo.Pairwise Differ →
      (∀ t ∈ todo, t.filename ∉ files) → ts.Pairwise Differ := by
  induction files with
  | nil =>
    intro todo ts h hpairs _
    rwa [← Except.ok.inj h]
  | cons file files ih =>
    obtain ⟨hfile, hfiles⟩ := List.nodup_cons.mp hfiles
    intro todo ts h hpairs hnot
    rw [readTodo] at h
    cases hparse : parseOneCode file (text file) with
    | error e =>
      rw [hparse] at h
      cases h
    | ok tests =>
      rw [hparse] at h
      have hnames := (parseOneCode_tests hparse).1
      obtain ⟨ps, -, -, hread⟩ := (parseOneCode_ok_iff _ _ _).mp hparse
      refine ih hfiles h (List.pairwise_append.mpr ⟨hpairs, ?_, ?_⟩) ?_
      · exact (readTests_ids ps hread).2.imp fun hlt heq => hlt.ne (Prod.mk.inj heq).2
      · intro t ht t' ht' heq
        exact hnot t ht ((Prod.mk.inj heq).1 ▸ hnames t' ht' ▸ List.mem_cons_self)
      · intro t ht
        rcases List.mem_append.mp ht with ht | ht
        · exact fun hmem => hnot t ht (List.mem_cons_of_mem _ hmem)
        · rw [hnames t ht]
          exact hfile

/-- Every name has `.c` as its extension, and nowhere else. -/
def Plain (d : Directory) : Prop :=
  ∀ name ∈ d.names, ∃ stem, name = stem ++ ".c".toList ∧ ¬ ".c".toList <:+: stem

theorem key_inj {d : Directory} (hplain : Plain d) {t t' : Test} {f g : Text} (hf : f ∈ d.names)
    (hg : g ∈ d.names) (htf : t.filename = d.filename f) (htg : t'.filename = d.filename g)
    (hkey : runKey t = runKey t') : f = g ∧ t.id = t'.id := by
  obtain ⟨hsame, hid⟩ := (testID_eq_iff hf hg htf htg).mp hkey
  refine ⟨?_, hid⟩
  obtain ⟨stem, rfl, hstem⟩ := hplain f hf
  obtain ⟨stem', rfl, hstem'⟩ := hplain g hg
  have hsub := (Regex.sub_lit_eq_iff dotC_ne_nil _ _).mpr hsame
  rw [← sub_plain hstem, ← sub_plain hstem']
  exact congrArg (· ++ ".c".toList) hsub

/-- A batch is read from its slice of the listing. -/
theorem batch_tests {d : Directory} {text : Text → Text} {pos runners : Nat} {todo : List Test}
    (h : extractAllTodo text d.filenames (batchArgument pos runners) = .ok todo)
    (hpos : 0 < pos) (hle : pos ≤ runners) :
    (∀ t ∈ todo, ∃ f ∈ selected d.names pos runners, t.filename = d.filename f) ∧
      todo.Pairwise Differ := by
  have hbatch := readBatch_batchArgument hpos hle
  obtain ⟨chosen, hchosen, -, htests, -⟩ := todo_spec h
  rw [chooseFiles, hbatch] at hchosen
  obtain rfl := Except.ok.inj hchosen
  refine ⟨htests, ?_⟩
  rw [extractAllTodo_eq text _ hbatch] at h
  have hnodup : d.filenames.Nodup := d.nodup.map (filename_injective d)
  exact readTodo_differ (hnodup.sublist (selected_sublist _ hpos _)) h .nil
    fun _ ht => absurd ht List.not_mem_nil

/-- The jobs of a batch, with what happens to the process of each test. -/
def jobs (attempt : Test → Attempt) (todo : List Test) : List Job :=
  todo.map fun t => ⟨runKey t, attempt t⟩

theorem jobs_nodup {d : Directory} (hplain : Plain d) {text : Text → Text} {pos runners : Nat}
    {todo : List Test}
    (h : extractAllTodo text d.filenames (batchArgument pos runners) = .ok todo)
    (hpos : 0 < pos) (hle : pos ≤ runners) (attempt : Test → Attempt) :
    ((jobs attempt todo).map Job.key).Nodup := by
  obtain ⟨htests, hdiffer⟩ := batch_tests h hpos hle
  have hnames := (selected_sublist d.names hpos runners).subset
  rw [jobs, List.map_map, List.Nodup, List.pairwise_map]
  refine hdiffer.imp_of_mem fun {t t'} ht ht' hne hkey => hne ?_
  obtain ⟨f, hf, htf⟩ := htests t ht
  obtain ⟨g, hg, htg⟩ := htests t' ht'
  obtain ⟨rfl, hid⟩ := key_inj hplain (hnames hf) (hnames hg) htf htg hkey
  rw [htf, htg, hid]

theorem slices_apart {d : Directory} {runners : Nat} {i j : Fin runners} (hij : i ≠ j) {f : Text}
    (hf : f ∈ selected d.names (i + 1) runners) : f ∉ selected d.names (j + 1) runners := by
  have hnodup := d.nodup.sublist (flatten_slices_sublist d.names runners)
  have hdisjoint := (List.nodup_flatten.mp hnodup).2
  rw [slices, List.pairwise_map, List.pairwise_iff_getElem] at hdisjoint
  intro hg
  rcases Nat.lt_or_gt_of_ne (Fin.val_ne_of_ne hij) with hlt | hlt
  · have h := hdisjoint i j (by simp) (by simp) hlt
    simp only [List.getElem_range] at h
    exact h hf hg
  · have h := hdisjoint j i (by simp) (by simp) hlt
    simp only [List.getElem_range] at h
    exact h hg hf

theorem jobs_apart {d : Directory} (hplain : Plain d) {text : Text → Text} {runners : Nat}
    {tests : Fin runners → List Test} (htests : ∀ i,
      extractAllTodo text d.filenames (batchArgument (i.val + 1) runners) = .ok (tests i))
    (attempt : Test → Attempt) {i j : Fin runners} (hij : i ≠ j) :
    ∀ job ∈ jobs attempt (tests i), ∀ job' ∈ jobs attempt (tests j), job.key ≠ job'.key := by
  have hnames : ∀ k : Fin runners, ∀ t ∈ tests k,
      ∃ f ∈ selected d.names (k + 1) runners, f ∈ d.names ∧ t.filename = d.filename f := by
    intro k t ht
    obtain ⟨f, hf, htf⟩ := (batch_tests (htests k) (Nat.succ_pos _) k.2).1 t ht
    exact ⟨f, hf, (selected_sublist d.names (Nat.succ_pos _) runners).subset hf, htf⟩
  intro job hjob job' hjob' hkey
  obtain ⟨t, ht, rfl⟩ := List.mem_map.mp hjob
  obtain ⟨t', ht', rfl⟩ := List.mem_map.mp hjob'
  obtain ⟨f, hf, hfd, htf⟩ := hnames i t ht
  obtain ⟨g, hg, hgd, htg⟩ := hnames j t' ht'
  obtain ⟨rfl, -⟩ := key_inj hplain hfd hgd htf htg hkey
  exact slices_apart hij hf hg

/-- **The batches at once**: in every interleaving of the `M` runners, wherever their processes
are killed, each test leaves what it would leave alone. -/
theorem batches_end (host : Host) {d : Directory} (hplain : Plain d) {text : Text → Text}
    {runners : Nat} {tests : Fin runners → List Test} (htests : ∀ i,
      extractAllTodo text d.filenames (batchArgument (i.val + 1) runners) = .ok (tests i))
    (attempt : Test → Attempt) (s : Store Path (Fin runners)) :
    Ends (next host) (start s fun i => jobs attempt (tests i)) fun t =>
      (∀ i, t.runner i = ⟨[], []⟩) ∧ Alone host s (fun i => jobs attempt (tests i)) t.store :=
  runners_end (fun i => jobs_nodup hplain (htests i) (Nat.succ_pos _) i.2 attempt)
    (fun _ _ hij => jobs_apart hplain htests attempt hij) s

/-- Three programs for two runners, the second of which is in no batch. -/
def threeFiles : Directory where
  path := "gencodes".toList
  names := ["a.c".toList, "b.c".toList, "d.c".toList]
  nodup := by decide
  named := by decide

theorem threeFiles_plain : Plain threeFiles := by
  have hstems : threeFiles.names = ["a".toList, "b".toList, "d".toList].map (· ++ ".c".toList) := by
    decide +kernel
  have hno : ∀ stem ∈ ["a".toList, "b".toList, "d".toList], ¬ ".c".toList <:+: stem := by
    decide +kernel
  intro name hname
  rw [hstems] at hname
  obtain ⟨stem, hstem, rfl⟩ := List.mem_map.mp hname
  exact ⟨stem, rfl, hno stem hstem⟩

def sampleTests : Fin 2 → List Test
  | 0 => [⟨"gencodes/a.c".toList, 0, ['c'], .OK, .OK⟩]
  | 1 => [⟨"gencodes/d.c".toList, 0, ['c'], .OK, .OK⟩]

theorem sampleTests_read : ∀ i : Fin 2,
    extractAllTodo sampleText threeFiles.filenames (batchArgument (i.val + 1) 2) =
      .ok (sampleTests i)
  | 0 => by
    show extractAllTodo sampleText threeFiles.filenames (batchArgument 1 2) =
      .ok [⟨"gencodes/a.c".toList, 0, ['c'], .OK, .OK⟩]
    decide +kernel
  | 1 => by
    show extractAllTodo sampleText threeFiles.filenames (batchArgument 2 2) =
      .ok [⟨"gencodes/d.c".toList, 0, ['c'], .OK, .OK⟩]
    decide +kernel

/-- The first process is killed before it writes the output. -/
def sampleAttempt (t : Test) : Attempt :=
  ⟨sampleCall [] 0, if t.filename = "gencodes/a.c".toList then some 3 else none⟩

theorem batches_end_two :
    Ends (next sampleHost) (start empty fun i => jobs sampleAttempt (sampleTests i)) fun t =>
      (∀ i, t.runner i = ⟨[], []⟩) ∧
        Alone sampleHost empty (fun i => jobs sampleAttempt (sampleTests i)) t.store :=
  batches_end sampleHost threeFiles_plain sampleTests_read sampleAttempt empty

/-! ## Campaigns that are resumed -/

section

variable (host : Host) {ι : Type}

/-- The process runs a test that is not in the cache, to its end: it records an output and the
digest of the source. -/
structure Completes (s : Store LogFile ι) (a : Attempt) : Prop where
  fresh : lookup host a.call s ≠ .hit
  compiled : compileFails a.call = false
  recorded : (transcript host a.call).isSome = true
  all : a.ops host s = (runCmd host a.call s).1

/-- No digest is on record, though its file may be there. -/
def Unrecorded (s : Store LogFile ι) : Prop := ∀ m, s .md5sum = some m → m.content = []

variable {host}

theorem unrecorded_ops (i : ι) {ops : List (Op LogFile)}
    (h : ∀ op ∈ ops, .md5sum ∈ op.names → op = .put .md5sum []) {s : Store LogFile ι}
    (hs : Unrecorded s) : Unrecorded (applyAll i s ops) := by
  induction ops generalizing s with
  | nil => exact hs
  | cons op ops ih =>
    obtain ⟨hop, hops⟩ := List.forall_mem_cons.mp h
    refine ih hops fun m hm => ?_
    by_cases hname : .md5sum ∈ op.names
    · rw [hop hname, apply, Function.update_self] at hm
      rw [← Option.some.inj hm]
    · rw [apply_frame i hname] at hm
      exact hs m hm

/-- **The digest is written last**, after the output is recorded. -/
theorem digest_last (c : Call) :
    (∀ op ∈ (fresh host c).1, .md5sum ∉ op.names) ∨
    (compileFails c = false ∧ (transcript host c).isSome = true ∧ ∃ pre,
      (fresh host c).1 = pre ++ write .md5sum (host.hexdigest c.source) ∧
      ∀ op ∈ pre, .md5sum ∉ op.names) := by
  have hwrite : ∀ {k : LogFile} {content : Text}, k ≠ .md5sum → ∀ op ∈ write k content,
      .md5sum ∉ op.names := by
    intro k content hk op hop
    simp only [write, List.mem_cons, List.not_mem_nil, or_false] at hop
    rcases hop with rfl | rfl <;> simpa [Op.names] using hk.symm
  cases hf : compileFails c with
  | true =>
    left
    simp only [fresh, hf]
    intro op hop
    rcases List.mem_append.mp hop with hop | hop
    · exact hwrite (by decide) op hop
    · exact hwrite (by decide) op hop
  | false =>
    simp only [fresh, execute, transcript, hf]
    cases hst : c.started with
    | false => exact .inl fun _ hop => absurd hop List.not_mem_nil
    | true =>
      cases hl : loop c.timeout (commandOutput c) c.ticks with
      | waiting => exact .inl fun _ hop => absurd hop List.not_mem_nil
      | timeout output =>
        cases hrc : c.rc with
        | none =>
          left
          simp only [finish, hrc, List.append_nil]
          exact hwrite (by decide)
        | some rc =>
          right
          simp only [finish, hrc]
          refine ⟨trivial, rfl, _, (List.append_assoc _ _ _).symm, fun op hop => ?_⟩
          rcases List.mem_append.mp hop with hop | hop
          · exact hwrite (by decide) op hop
          · rcases List.mem_append.mp hop with hop | hop
            · exact hwrite (by decide) op hop
            · exact hwrite (by decide) op hop
      | ended output =>
        cases hrc : c.rc with
        | none =>
          left
          simp only [finish, hrc]
          exact fun _ hop => absurd hop List.not_mem_nil
        | some rc =>
          right
          simp only [finish, hrc]
          refine ⟨trivial, rfl, _, rfl, fun op hop => ?_⟩
          rcases List.mem_append.mp hop with hop | hop
          · exact hwrite (by decide) op hop
          · exact hwrite (by decide) op hop

/-- An attempt that does not complete at most opens the file of the digest. -/
theorem digest_ops {s : Store LogFile ι} {a : Attempt} (h : ¬ Completes host s a) :
    ∀ op ∈ a.ops host s, .md5sum ∈ op.names → op = .put .md5sum [] := by
  have htake : ∃ n, a.ops host s = (runCmd host a.call s).1.take n := by
    unfold Attempt.ops
    cases a.killedAfter with
    | none => exact ⟨_, List.take_length.symm⟩
    | some n => exact ⟨n, rfl⟩
  by_cases hhit : lookup host a.call s = .hit
  · have hnil : (runCmd host a.call s).1 = [] := by simp [runCmd, hhit]
    obtain ⟨n, hn⟩ := htake
    rw [hn, hnil, List.take_nil]
    exact fun _ hop => absurd hop List.not_mem_nil
  -- past the cache: the eviction, if any, then the writes
  obtain ⟨evicted, hevicted, hops⟩ : ∃ evicted : List (Op LogFile),
      (∀ op ∈ evicted, .md5sum ∉ op.names) ∧
        (runCmd host a.call s).1 = evicted ++ (fresh host a.call).1 := by
    cases hlookup : lookup host a.call s with
    | hit => exact absurd hlookup hhit
    | stale => exact ⟨[.remove .txt], by simp [Op.names], by simp [runCmd, hlookup]⟩
    | miss => exact ⟨[], by simp, by simp [runCmd, hlookup]⟩
  obtain ⟨n, hn⟩ := htake
  rcases digest_last a.call with hno | ⟨hcompiled, hrecorded, pre, hpre, hno⟩
  · intro op hop hname
    rw [hn, hops] at hop
    rcases List.mem_append.mp (List.mem_of_mem_take hop) with hop | hop
    · exact absurd hname (hevicted op hop)
    · exact absurd hname (hno op hop)
  · have hlast : (runCmd host a.call s).1 = (evicted ++ (pre ++ [.put .md5sum []])) ++
        [.put .md5sum (host.hexdigest a.call.source)] := by
      rw [hops, hpre, write]
      simp only [List.append_assoc, List.cons_append, List.nil_append]
    have hshort : n ≤ (evicted ++ (pre ++ [Op.put LogFile.md5sum []])).length := by
      by_contra hlong
      refine h ⟨hhit, hcompiled, hrecorded, ?_⟩
      rw [hn, List.take_of_length_le]
      rw [hlast, List.length_append, List.length_singleton]
      omega
    intro op hop hname
    rw [hn, hlast, List.take_append_of_le_length hshort] at hop
    rcases List.mem_append.mp (List.mem_of_mem_take hop) with hop | hop
    · exact absurd hname (hevicted op hop)
    · rcases List.mem_append.mp hop with hop | hop
      · exact absurd hname (hno op hop)
      · exact List.mem_singleton.mp hop

theorem ops_of_hit {s : Store LogFile ι} {a : Attempt} (h : lookup host a.call s = .hit) :
    a.ops host s = [] := by
  have hnil : (runCmd host a.call s).1 = [] := by simp [runCmd, h]
  unfold Attempt.ops
  cases a.killedAfter with
  | none => exact hnil
  | some n => simp only [hnil, List.take_nil]

/-- What is on record after an attempt that completes. -/
theorem completes_hit {s : Store LogFile ι} {a : Attempt} (h : Completes host s a) (i : ι)
    {c : Call} (hc : c.source = a.call.source) :
    lookup host c (applyAll i s (a.ops host s)) = .hit ∧ ∃ o, transcript host a.call = some o ∧
      applyAll i s (a.ops host s) .txt = some ⟨o, i⟩ := by
  rw [h.all]
  rcases runCmd_cases host a.call i s with ⟨hhit, -⟩ | ⟨-, heff⟩
  · exact absurd hhit h.fresh
  · generalize applyAll i s (runCmd host a.call s).1 = s' at heff ⊢
    generalize (runCmd host a.call s).2 = r at heff
    cases heff with
    | failed hfails =>
      rw [h.compiled] at hfails
      cases hfails
    | completed _ hout helapsed htxt hmd5 _ =>
      refine ⟨(lookup_eq_hit_iff host c s').mpr ⟨_, _, _, htxt, helapsed, hmd5, ?_⟩, _, hout, htxt⟩
      rw [hc]
    | aborted _ _ hnone =>
      have hrecorded := h.recorded
      rw [hnone] at hrecorded
      cases hrecorded

theorem not_hit_of_unrecorded (hdigest : ∀ t, host.hexdigest t ≠ []) {s : Store LogFile ι}
    (hs : Unrecorded s) (c : Call) : lookup host c s ≠ .hit := by
  intro hhit
  obtain ⟨_, _, m, _, _, hm, hcontent⟩ := (lookup_eq_hit_iff host c s).mp hhit
  exact hdigest _ (hcontent.symm.trans (hs m hm))

end

section

variable {host : Host} {source : Text}

/-- What is answered from the cache stays. -/
theorem after_hit {as : List Attempt} {c : Call} (hc : c.source = source)
    (hhit : lookup host c (after host as) = .hit) (later : List Attempt)
    (hlater : ∀ a ∈ later, a.call.source = source) : after host (as ++ later) = after host as := by
  induction later using List.reverseRecOn with
  | nil => rw [List.append_nil]
  | append_singleton later a ih =>
    have hearlier := ih fun b hb => hlater b (List.mem_append_left _ hb)
    have ha : lookup host a.call (after host (as ++ later)) = .hit := by
      rw [hearlier, lookup_eq_hit_iff, hlater a (by simp), ← hc]
      exact (lookup_eq_hit_iff host c _).mp hhit
    rw [← List.append_assoc, after_append, ops_of_hit ha, applyAll_nil, hearlier]

/-- **What a resumed test is answered with**: for attempts on one source, wherever they were
killed, the test is answered from the cache iff one of them has completed, and then with the
output of that one, which nothing changes any more. -/
theorem resumed_iff (hdigest : ∀ t, host.hexdigest t ≠ []) {as : List Attempt}
    (hsource : ∀ a ∈ as, a.call.source = source) {c : Call} (hc : c.source = source) :
    ((runCmd host c (after host as)).2 = .cached ↔
      ∃ past a later, as = past ++ a :: later ∧ Completes host (after host past) a) ∧
    ∀ past a later, as = past ++ a :: later → Completes host (after host past) a →
      after host as = after host (past ++ [a]) ∧
        ∃ o, transcript host a.call = some o ∧ after host as .txt = some ⟨o, past.length⟩ := by
  have hkeeps : ∀ past a later, as = past ++ a :: later → Completes host (after host past) a →
      lookup host c (after host as) = .hit ∧ after host as = after host (past ++ [a]) ∧
        ∃ o, transcript host a.call = some o ∧ after host as .txt = some ⟨o, past.length⟩ := by
    rintro past a later rfl hcompletes
    have ha : c.source = a.call.source := hc.trans (hsource a (by simp)).symm
    have hrecord := completes_hit hcompletes past.length ha
    rw [← after_append] at hrecord
    have hsame : after host (past ++ a :: later) = after host (past ++ [a]) := by
      rw [List.append_cons]
      exact after_hit hc hrecord.1 later fun b hb => hsource b (by simp [hb])
    rw [hsame]
    exact ⟨hrecord.1, rfl, hrecord.2⟩
  have hnone : (¬ ∃ past a later, as = past ++ a :: later ∧ Completes host (after host past) a) →
      Unrecorded (after host as) := by
    clear hkeeps hsource
    induction as using List.reverseRecOn with
    | nil => exact fun _ m hm => nomatch hm
    | append_singleton as a ih =>
      intro hno
      rw [after_append]
      refine unrecorded_ops _ (digest_ops fun hcompletes => hno ⟨as, a, [], rfl, hcompletes⟩) ?_
      refine ih fun ⟨past, b, later, has, hb⟩ => hno ⟨past, b, later ++ [a], ?_, hb⟩
      rw [has, List.append_assoc, List.cons_append]
  refine ⟨?_, fun past a later has ha => (hkeeps past a later has ha).2⟩
  rw [cached_iff]
  constructor
  · intro hhit
    by_contra hno
    exact not_hit_of_unrecorded hdigest (hnone hno) c hhit
  · rintro ⟨past, a, later, has, ha⟩
    exact (hkeeps past a later has ha).1

theorem sampleHost_digest : ∀ t, sampleHost.hexdigest t ≠ [] := by
  intro t
  have hempty : emptyDigest ≠ [] := by decide +kernel
  have ha : aDigest ≠ [] := by decide +kernel
  unfold sampleHost
  simp only
  split
  · exact hempty
  · split
    · exact ha
    · exact List.cons_ne_nil _ _

/-- The test is killed once and then run to the end. -/
def killedOnce : List Attempt := [⟨sampleCall [] 0, some 3⟩, ⟨sampleCall [] 0, none⟩]

theorem resumed_iff_killed :
    ((runCmd sampleHost (sampleCall [] 0) (after sampleHost killedOnce)).2 = .cached ↔
      ∃ past a later, killedOnce = past ++ a :: later ∧
        Completes sampleHost (after sampleHost past) a) ∧
    ∀ past a later, killedOnce = past ++ a :: later →
      Completes sampleHost (after sampleHost past) a →
      after sampleHost killedOnce = after sampleHost (past ++ [a]) ∧
        ∃ o, transcript sampleHost a.call = some o ∧
          after sampleHost killedOnce .txt = some ⟨o, past.length⟩ :=
  resumed_iff sampleHost_digest (by simp [killedOnce, sampleCall]) rfl

end

/-! ## The run after the batches -/

/-- A test that was run once, from no files on, is in the cache iff it completed. -/
theorem hit_once_iff {host : Host} {ι : Type} (hdigest : ∀ t, host.hexdigest t ≠ []) (i : ι)
    {a : Attempt} {c : Call} (hc : c.source = a.call.source) :
    lookup host c (applyAll i (empty : Store LogFile ι) (a.ops host (empty : Store LogFile ι))) =
      .hit ↔ Completes host (empty : Store LogFile ι) a := by
  refine ⟨fun hhit => ?_, fun h => (completes_hit h i hc).1⟩
  by_contra hno
  have hempty : Unrecorded (empty : Store LogFile ι) := fun m hm => nomatch hm
  exact not_hit_of_unrecorded hdigest (unrecorded_ops i (digest_ops hno) hempty) c hhit

/-- The todo list of the batch `1/1` has the tests of all batches. -/
theorem batch_subset {d : Directory} {text : Text → Text} {pos runners : Nat}
    {tests todo : List Test} (hpos : 0 < pos) (hle : pos ≤ runners)
    (htests : extractAllTodo text d.filenames (batchArgument pos runners) = .ok tests)
    (htodo : extractAllTodo text d.filenames (batchArgument 1 1) = .ok todo) :
    ∀ t ∈ tests, t ∈ todo := by
  rw [extractAllTodo_eq text _ (readBatch_batchArgument hpos hle)] at htests
  rw [extractAllTodo_eq text _ (readBatch_batchArgument Nat.one_pos Nat.le.refl),
    selected_one] at htodo
  rcases readTodo_spec text (selected d.filenames pos runners) [] with
    ⟨-, ts, hts, hmem⟩ | ⟨-, e, he⟩
  · obtain rfl := Except.ok.inj (hts.symm.trans htests)
    rcases readTodo_spec text d.filenames [] with ⟨-, us, hus, hmem'⟩ | ⟨-, e, he⟩
    · obtain rfl := Except.ok.inj (hus.symm.trans htodo)
      intro t ht
      rcases (hmem t).mp ht with hnil | ⟨f, hf, us, hparse, hus⟩
      · cases hnil
      · exact (hmem' t).mpr
          (.inr ⟨f, (selected_sublist d.filenames hpos runners).subset hf, us, hparse, hus⟩)
    · rw [he] at htodo
      cases htodo
  · rw [he] at htests
    cases htests

/-- **The run after the batches** has every test that a batch has run. When their turn comes it
answers from the cache exactly those that completed in a batch, whose files it leaves as they
are. -/
theorem gather_keeps {host : Host} (hdigest : ∀ t, host.hexdigest t ≠ []) {d : Directory}
    (hplain : Plain d) {text : Text → Text} {runners : Nat} {tests : Fin runners → List Test}
    (htests : ∀ i,
      extractAllTodo text d.filenames (batchArgument (i.val + 1) runners) = .ok (tests i))
    {todo : List Test} (htodo : extractAllTodo text d.filenames (batchArgument 1 1) = .ok todo)
    {attempt again : Test → Attempt}
    (hsource : ∀ test, (again test).call.source = (attempt test).call.source)
    {es : List (Fin runners)} {t : State (Fin runners)}
    (hrun : run (next host) (start empty fun i => jobs attempt (tests i)) es = some t)
    (hstuck : Stuck (next host) t) (runner : Fin runners) :
    (∀ i, ∀ test ∈ tests i, test ∈ todo) ∧
      ∀ before test after, todo = before ++ test :: after →
        ((runCmd host (again test).call
            (own (runKey test) (cmdRun host runner t.store (jobs again before)))).2 = .cached ↔
          ∃ i, test ∈ tests i ∧
            Completes host (empty : Store LogFile (Fin runners)) (attempt test)) ∧
        ∀ i, test ∈ tests i →
          Completes host (empty : Store LogFile (Fin runners)) (attempt test) →
            own (runKey test) (cmdRun host runner t.store (jobs again todo)) =
              own (runKey test) t.store := by
  have hends := @runners_end host (Fin runners) _ _ _
    (fun i => jobs_nodup hplain (htests i) (Nat.succ_pos _) i.2 attempt)
    (fun _ _ hij => jobs_apart hplain htests attempt hij) empty
  obtain ⟨-, halone⟩ := hends.ends es t hrun hstuck
  have hmem : ∀ i, ∀ test ∈ tests i, test ∈ todo :=
    fun i => batch_subset (Nat.succ_pos _) i.2 (htests i) htodo
  have hnodup := jobs_nodup hplain htodo Nat.one_pos Nat.le.refl again
  have hkeys : (todo.map runKey).Nodup := by
    rw [jobs, List.map_map] at hnodup
    exact hnodup
  refine ⟨hmem, fun before test after hsplit => ?_⟩
  have htest : test ∈ todo := by simp [hsplit]
  -- the tests before it leave its files alone
  have hpoint : own (runKey test) (cmdRun host runner t.store (jobs again before)) =
      own (runKey test) t.store := by
    refine cmdRun_other runner _ (fun job hjob hkey => ?_) _
    obtain ⟨u, hu, rfl⟩ := List.mem_map.mp hjob
    rw [hsplit, List.map_append, List.map_cons] at hkeys
    exact (List.nodup_append.mp hkeys).2.2 _ (List.mem_map_of_mem hu) _ List.mem_cons_self hkey
  have hown : ∀ i, test ∈ tests i → own (runKey test) t.store = applyAll i empty
      ((attempt test).ops host (empty : Store LogFile (Fin runners))) := fun i hi =>
    halone.tests i ⟨runKey test, attempt test⟩ (List.mem_map_of_mem hi)
  have hhit : ∀ i, test ∈ tests i →
      (lookup host (again test).call (own (runKey test) t.store) = .hit ↔
        Completes host (empty : Store LogFile (Fin runners)) (attempt test)) := by
    intro i hi
    rw [hown i hi]
    exact hit_once_iff hdigest i (hsource test)
  refine ⟨?_, fun i hi hcompletes => ?_⟩
  · rw [hpoint, cached_iff]
    by_cases hbatch : ∃ i, test ∈ tests i
    · obtain ⟨i, hi⟩ := hbatch
      exact (hhit i hi).trans ⟨fun h => ⟨i, hi, h⟩, fun ⟨_, _, h⟩ => h⟩
    · -- a test of no batch has left no files
      have hnone : own (runKey test) t.store = empty := by
        refine halone.others (runKey test) fun i job hjob hkey => hbatch ⟨i, ?_⟩
        obtain ⟨u, hu, rfl⟩ := List.mem_map.mp hjob
        rwa [← List.inj_on_of_nodup_map hkeys (hmem i u hu) htest hkey]
      rw [hnone]
      have hempty : Unrecorded (empty : Store LogFile (Fin runners)) := fun m hm => nomatch hm
      refine iff_of_false (not_hit_of_unrecorded hdigest hempty _) ?_
      exact fun ⟨i, hi, _⟩ => hbatch ⟨i, hi⟩
  · rw [cmdRun_alone runner (jobs again todo) hnodup t.store ⟨runKey test, again test⟩
      (List.mem_map_of_mem htest), ops_of_hit ((hhit i hi).mpr hcompletes), applyAll_nil]

def anew (_ : Test) : Attempt := ⟨sampleCall [] 0, none⟩

def threeTests : List Test := threeFiles.filenames.map fun f => ⟨f, 0, ['c'], .OK, .OK⟩

/-- After the two runners the first two tests are run, and the last is answered from the cache. -/
theorem gather_keeps_two : ∃ es t,
    run (next sampleHost) (start empty fun i => jobs sampleAttempt (sampleTests i)) es = some t ∧
      (∀ i, ∀ test ∈ sampleTests i, test ∈ threeTests) ∧
      ∀ before test after, threeTests = before ++ test :: after →
        ((runCmd sampleHost (anew test).call
            (own (runKey test) (cmdRun sampleHost 0 t.store (jobs anew before)))).2 = .cached ↔
          ∃ i, test ∈ sampleTests i ∧
            Completes sampleHost (empty : Store LogFile (Fin 2)) (sampleAttempt test)) ∧
        ∀ i, test ∈ sampleTests i →
          Completes sampleHost (empty : Store LogFile (Fin 2)) (sampleAttempt test) →
            own (runKey test) (cmdRun sampleHost 0 t.store (jobs anew threeTests)) =
              own (runKey test) t.store := by
  have hends := @runners_end sampleHost (Fin 2) _ _ _
    (fun i => jobs_nodup threeFiles_plain (sampleTests_read i) (Nat.succ_pos _) i.2 sampleAttempt)
    (fun _ _ hij => jobs_apart threeFiles_plain sampleTests_read sampleAttempt hij) empty
  have hnil : run (next sampleHost) (start empty fun i => jobs sampleAttempt (sampleTests i)) [] =
    some (start empty fun i => jobs sampleAttempt (sampleTests i)) := rfl
  obtain ⟨es, t, hrun, hstuck, -⟩ := hends.exists_end hnil
  have htodo : extractAllTodo sampleText threeFiles.filenames (batchArgument 1 1) =
      .ok threeTests := by decide +kernel
  have hsource : ∀ test, (anew test).call.source = (sampleAttempt test).call.source := fun _ => rfl
  exact ⟨_, t, hrun, gather_keeps sampleHost_digest threeFiles_plain
    sampleTests_read htodo hsource hrun hstuck 0⟩

end MpiBugs.Campaign
