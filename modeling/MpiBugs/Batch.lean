import MpiBugs.Header

/-!
# Choosing the files of one runner

`extract_all_todo`: the batch argument `N/M`, the slice of the file names it
selects, and the todo list read from them.

* `readBatch_batchArgument`: the argument is read back;
* `flatten_slices_sublist`: no file is in two batches;
* `batches_partition_iff`: every file is in one of them iff there is one runner
  or no file.
-/

namespace MpiBugs.Batch

open Regex TextFile Header

/-! ## The batch argument -/

/-- The zeros of the decimal digits of Unicode. -/
def digitZeros : List Nat :=
  [0x30, 0x660, 0x6f0, 0x7c0, 0x966, 0x9e6, 0xa66, 0xae6, 0xb66, 0xbe6, 0xc66, 0xce6, 0xd66,
   0xde6, 0xe50, 0xed0, 0xf20, 0x1040, 0x1090, 0x17e0, 0x1810, 0x1946, 0x19d0, 0x1a80, 0x1a90,
   0x1b50, 0x1bb0, 0x1c40, 0x1c50, 0xa620, 0xa8d0, 0xa900, 0xa9d0, 0xa9f0, 0xaa50, 0xabf0,
   0xff10, 0x104a0, 0x10d30, 0x11066, 0x110f0, 0x11136, 0x111d0, 0x112f0, 0x11450, 0x114d0,
   0x11650, 0x116c0, 0x11730, 0x118e0, 0x11950, 0x11c50, 0x11d50, 0x11da0, 0x16a60, 0x16ac0,
   0x16b50, 0x1d7ce, 0x1d7d8, 0x1d7e2, 0x1d7ec, 0x1d7f6, 0x1e140, 0x1e2f0, 0x1e950, 0x1fbf0]

def digitValue (c : Char) : Option Nat :=
  (digitZeros.find? (fun z => z ≤ c.toNat && c.toNat < z + 10)).map (c.toNat - ·)

/-- `\d` -/
def isDigit (c : Char) : Bool := (digitValue c).isSome

/-- `int` on a run of digits. -/
def int (t : Text) : Nat := t.foldl (fun n c => 10 * n + (digitValue c).getD 0) 0

/-- `(\d+)/(\d+)` -/
def batchPattern : Regex :=
  group 1 (plus (cls isDigit)) ++ (lit ['/'] ++ group 2 (plus (cls isDigit)))

inductive BatchError
  /-- raised by `match.group(1)`, after the message on the standard output -/
  | noMatch
  | assertion
  | parse (e : ParseError)
  deriving DecidableEq, Repr

/-- `pos` and `runner_count`, with the two assertions. -/
def readBatch (batch : Text) : Except BatchError (Nat × Nat) :=
  match matchStart batchPattern batch with
  | none => .error .noMatch
  | some m =>
    let pos := int ((m.group 1).getD [])
    let runnerCount := int ((m.group 2).getD [])
    if pos > 0 then
      if pos ≤ runnerCount then .ok (pos, runnerCount) else .error .assertion
    else .error .assertion

/-! ## The slice -/

variable {α : Type}

/-- `xs[lo:hi]` for bounds that are not negative. -/
def slice (xs : List α) (lo hi : Nat) : List α := (xs.drop lo).take (hi - lo)

def batchSize (files runnerCount : Nat) : Nat := files / runnerCount + 1

/-- The file names of batch `pos`. -/
def selected (filenames : List α) (pos runnerCount : Nat) : List α :=
  let batch := batchSize filenames.length runnerCount
  slice filenames (batch * (pos - 1)) (batch * pos - 1)

def chooseFiles (batch : Text) (filenames : List α) : Except BatchError (List α) :=
  match readBatch batch with
  | .error e => .error e
  | .ok (pos, runnerCount) => .ok (selected filenames pos runnerCount)

/-- The loop over the chosen files; `text` gives the content of a file. -/
def readTodo (text : Text → Text) : List Test → List Text → Except BatchError (List Test)
  | todo, [] => .ok todo
  | todo, filename :: rest =>
    match parseOneCode filename (text filename) with
    | .error e => .error (.parse e)
    | .ok tests => readTodo text (todo ++ tests) rest

/-- `extract_all_todo`, the file names in the order of the listing: the sorted
list is bound to another variable and not used. -/
def extractAllTodo (text : Text → Text) (filenames : List Text) (batch : Text) :
    Except BatchError (List Test) :=
  match chooseFiles batch filenames with
  | .error e => .error e
  | .ok chosen => readTodo text [] chosen

/-! ## Reading the argument -/

/-- The argument `N/M` as a user writes it. -/
def batchArgument (pos runnerCount : Nat) : Text := natText pos ++ '/' :: natText runnerCount

theorem natText_eq (n : Nat) : natText n = Nat.toDigits 10 n := by
  rw [natText, Nat.toString_eq_ofList_toDigits, String.toList_ofList]

theorem digitValue_of_isDigit {c : Char} (h : c.isDigit = true) :
    digitValue c = some (c.toNat - '0'.toNat) := by
  have hc : 48 ≤ c.toNat ∧ c.toNat ≤ 57 := by simpa [Char.isDigit, UInt32.le_iff_toNat_le] using h
  have hfind : digitZeros.find? (fun z => z ≤ c.toNat && c.toNat < z + 10) = some 48 := by
    rw [digitZeros, List.find?_cons_of_pos]
    simp only [Bool.and_eq_true, decide_eq_true_eq]
    omega
  rw [digitValue, hfind]
  rfl

theorem natText_digits (n : Nat) : ∀ c ∈ natText n, c.isDigit = true := by
  intro c hc
  rw [natText_eq] at hc
  exact Nat.isDigit_of_mem_toDigits (by decide) (by decide) hc

theorem int_natText (n : Nat) : int (natText n) = n := by
  have hfold : ∀ (t : Text) (k : Nat), (∀ c ∈ t, c.isDigit = true) →
      t.foldl (fun n c => 10 * n + (digitValue c).getD 0) k = Nat.ofDigitChars 10 t k := by
    intro t
    induction t with
    | nil => intro k _; simp
    | cons c t ih =>
      intro k ht
      obtain ⟨hc, ht⟩ := List.forall_mem_cons.mp ht
      rw [List.foldl_cons, Nat.ofDigitChars_cons, digitValue_of_isDigit hc]
      exact ih _ ht
  rw [int, hfold _ _ (natText_digits n), natText_eq, Nat.ofDigitChars_ten_toDigits]

/-- A group of at least one character of a class, up to the first other character. -/
theorem head?_group_plus_cls (n : Nat) {p : Char → Bool} {u t : Text} (hne : u ≠ [])
    (hu : ∀ c ∈ u, p c = true) (ht : ∀ c, t.head? = some c → p c = false)
    (g : List (Nat × Text)) :
    (run (group n (plus (cls p))) ⟨u ++ t, g⟩).head? = some ⟨t, (n, u) :: g⟩ := by
  obtain ⟨c, u, rfl⟩ := List.exists_cons_of_ne_nil hne
  obtain ⟨hc, hu⟩ := List.forall_mem_cons.mp hu
  have hdrop : (u ++ t).dropWhile p = t := by
    rw [List.dropWhile_append_of_pos hu]
    cases t with
    | nil => rfl
    | cons d t => rw [List.dropWhile_cons_of_neg (by simp [ht d rfl])]
  have hplus : (run (plus (cls p)) ⟨c :: u ++ t, g⟩).head? = some ⟨t, g⟩ := by
    refine head?_seq (head?_cls hc (u ++ t) g) ?_
    rw [head?_many_cls, hdrop]
  have hlen : (c :: u ++ t).length - t.length = (c :: u).length := by
    rw [List.length_append]
    omega
  rw [head?_group hplus]
  simp only [hlen, List.take_left]

theorem readBatch_batchArgument {pos runnerCount : Nat} (hpos : 0 < pos)
    (hle : pos ≤ runnerCount) :
    readBatch (batchArgument pos runnerCount) = .ok (pos, runnerCount) := by
  have hne : ∀ n, natText n ≠ [] := fun n => by rw [natText_eq]; exact Nat.toDigits_ne_nil
  have hdigits : ∀ n, ∀ c ∈ natText n, isDigit c = true := by
    intro n c hc
    rw [isDigit, digitValue_of_isDigit (natText_digits n c hc)]
    rfl
  have hslash : isDigit '/' = false := by decide
  have hfirst : first batchPattern (batchArgument pos runnerCount) =
      some ⟨[], [(2, natText runnerCount), (1, natText pos)]⟩ := by
    have h₁ := head?_group_plus_cls 1 (hne pos) (hdigits pos) (t := '/' :: natText runnerCount)
      (by intro c hc; cases hc; exact hslash) []
    have h₂ := head?_group_plus_cls 2 (hne runnerCount) (hdigits runnerCount) (t := [])
      (by intro c hc; cases hc) [(1, natText pos)]
    rw [List.append_nil] at h₂
    exact head?_seq h₁ (head?_seq (head?_lit ['/'] _ _) h₂)
  have hmatch : matchStart batchPattern (batchArgument pos runnerCount) =
      some ⟨batchArgument pos runnerCount, [], [(2, natText runnerCount), (1, natText pos)]⟩ := by
    rw [matchStart, hfirst]
    rfl
  rw [readBatch, hmatch]
  simp [Match.group, int_natText, hpos, hle]

/-! ## The batches together -/

/-- The slices of `M` runners, in order. -/
def slices (filenames : List α) (runners : Nat) : List (List α) :=
  (List.range runners).map fun k => selected filenames (k + 1) runners

/-- Batch `k + 1` starts at `k` times the batch size and lacks one file. -/
theorem selected_eq (filenames : List α) (k runners : Nat) :
    selected filenames (k + 1) runners =
      (filenames.drop (batchSize filenames.length runners * k)).take
        (filenames.length / runners) := by
  have hsize : batchSize filenames.length runners * (k + 1) - 1 -
      batchSize filenames.length runners * k = filenames.length / runners := by
    rw [Nat.mul_add, Nat.mul_one, batchSize]
    generalize filenames.length / runners = size
    generalize (size + 1) * k = start
    omega
  simp only [selected, slice, Nat.add_sub_cancel, hsize]

/-- Parts taken from consecutive blocks are a sublist. -/
theorem blocks_sublist (b w : Nat) (hw : w ≤ b) (m : Nat) : ∀ xs : List α,
    ((List.range m).map fun k => (xs.drop (b * k)).take w).flatten.Sublist xs := by
  induction m with
  | zero => intro xs; simp
  | succ m ih =>
    intro xs
    have hrest : ((List.range m).map fun k => (xs.drop (b * (k + 1))).take w) =
        (List.range m).map fun k => ((xs.drop b).drop (b * k)).take w := by
      apply List.map_congr_left
      intro k _
      rw [List.drop_drop, Nat.mul_add, Nat.mul_one, Nat.add_comm b]
    rw [List.range_succ_eq_map, List.map_cons, List.map_map, List.flatten_cons]
    simp only [Function.comp_def, Nat.succ_eq_add_one, Nat.mul_zero, List.drop_zero, hrest]
    have hblock := (List.take_sublist_take_left (l := xs) hw).append (ih (xs.drop b))
    rwa [List.take_append_drop] at hblock

/-- **No file is in two batches.** -/
theorem flatten_slices_sublist (filenames : List α) (runners : Nat) :
    (slices filenames runners).flatten.Sublist filenames := by
  unfold slices
  simp only [selected_eq]
  exact blocks_sublist _ _ (by unfold batchSize; omega) runners filenames

/-- Parts that leave out the end of the first block are too short. -/
theorem blocks_length_lt (b w m : Nat) (xs : List α) (hw : w < b) (hb : b ≤ xs.length) :
    ((List.range m).map fun k => (xs.drop (b * k)).take w).flatten.length < xs.length := by
  have hbound : ∀ j, ((List.range j).map fun k => (xs.drop (b * k)).take w).flatten.length + 1 ≤
      max 1 (min xs.length (b * j)) := by
    intro j
    induction j with
    | zero => simp
    | succ j ih =>
      rw [List.range_succ, List.map_append, List.flatten_append, List.length_append]
      simp only [List.map_cons, List.map_nil, List.flatten_cons, List.flatten_nil,
        List.append_nil, List.length_take, List.length_drop, Nat.mul_add, Nat.mul_one]
      have hj : b * j = 0 ∨ b ≤ b * j := by
        cases j with
        | zero => exact Or.inl (Nat.mul_zero b)
        | succ j => exact Or.inr (Nat.le_mul_of_pos_right b (Nat.succ_pos j))
      omega
  have hm := hbound m
  omega

/-- **With two runners a file is lost.** -/
theorem flatten_slices_length_lt {filenames : List α} {runners : Nat} (hr : 2 ≤ runners)
    (hne : filenames ≠ []) : (slices filenames runners).flatten.length < filenames.length := by
  have hpos : 0 < filenames.length := List.length_pos_of_ne_nil hne
  have hdiv : filenames.length / runners < filenames.length := Nat.div_lt_self hpos hr
  unfold slices
  simp only [selected_eq]
  exact blocks_length_lt _ _ runners filenames (Nat.lt_succ_self _) hdiv

theorem mapM_chooseFiles (filenames : List α) (runners : Nat) :
    (List.range runners).mapM (fun k => chooseFiles (batchArgument (k + 1) runners) filenames) =
      .ok (slices filenames runners) := by
  have hstep : ∀ ks : List Nat, (∀ k ∈ ks, k < runners) →
      ks.mapM (fun k => chooseFiles (batchArgument (k + 1) runners) filenames) =
        .ok (ks.map fun k => selected filenames (k + 1) runners) := by
    intro ks hks
    induction ks with
    | nil => rfl
    | cons k ks ih =>
      obtain ⟨hk, hks⟩ := List.forall_mem_cons.mp hks
      rw [List.mapM_cons, ih hks, chooseFiles, readBatch_batchArgument (Nat.succ_pos k) hk]
      rfl
  exact hstep _ (fun k hk => List.mem_range.mp hk)

/-- **When the batches `1/M`, …, `M/M` are a partition of the files.** -/
theorem batches_partition_iff (filenames : List α) {runners : Nat} (hr : 1 ≤ runners) :
    (∃ chosen, (List.range runners).mapM
        (fun k => chooseFiles (batchArgument (k + 1) runners) filenames) = .ok chosen ∧
      chosen.flatten.Perm filenames) ↔ runners = 1 ∨ filenames = [] := by
  simp only [mapM_chooseFiles, Except.ok.injEq, exists_eq_left']
  constructor
  · intro hperm
    by_contra hno
    rw [not_or] at hno
    have hlt := @flatten_slices_length_lt _ filenames runners (by omega) hno.2
    have hlen := hperm.length_eq
    omega
  · rintro (rfl | rfl)
    · simp [slices, selected_eq]
    · rw [List.sublist_nil.mp (flatten_slices_sublist ([] : List α) runners)]

def sampleFiles : List Text := ["gencodes/a.c".toList, "gencodes/b.c".toList]

/-- One runner gets both of two files. -/
theorem one_runner_partition : ∃ chosen, (List.range 1).mapM
    (fun k => chooseFiles (batchArgument (k + 1) 1) sampleFiles) = .ok chosen ∧
      chosen.flatten.Perm sampleFiles :=
  (batches_partition_iff sampleFiles (by decide)).mpr (Or.inl rfl)

/-- Of two files, two runners test the first only. -/
theorem two_runners_lose : (List.range 2).mapM
    (fun k => chooseFiles (batchArgument (k + 1) 2) sampleFiles) =
        .ok [["gencodes/a.c".toList], []] ∧
      ¬ ([["gencodes/a.c".toList], []] : List (List Text)).flatten.Perm sampleFiles := by
  refine ⟨by decide +kernel, fun h => ?_⟩
  exact absurd h.length_eq (by decide)

end MpiBugs.Batch
