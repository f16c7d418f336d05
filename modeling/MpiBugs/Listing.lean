import MpiBugs.Batch
import Mathlib.Data.Finset.Card
import Mathlib.Data.Finset.Dedup

/-!
# The order of a directory listing

`extract_all_todo` on two runners that list the same files in different orders.
The sorted list is bound to the wrong variable, so the slice is one of the
listing as it came.

* `exists_order`: any part of the right size can be brought into a given window;
* `order_free_iff`: the batch is the same for all orders iff there is one
  runner, or the slice is empty, or it cannot avoid a file that is refused.
-/

namespace MpiBugs.Listing

open Header Batch

/-! ## Windows of a list of different things -/

section Windows

variable {α : Type} [DecidableEq α]

/-- An order in which the elements of a set may be listed. -/
structure Lists (l : List α) (files : Finset α) : Prop where
  nodup : l.Nodup
  all : l.toFinset = files

theorem Lists.mem_iff {l : List α} {files : Finset α} (h : Lists l files) (x : α) :
    x ∈ l ↔ x ∈ files := by
  rw [← h.all, List.mem_toFinset]

theorem Lists.length {l : List α} {files : Finset α} (h : Lists l files) :
    l.length = files.card := by
  rw [← h.all, List.toFinset_card_of_nodup h.nodup]

/-- **Every part of a set can be listed in every window** of its size. -/
theorem exists_order {files part : Finset α} (hpart : part ⊆ files) {start : Nat}
    (hfit : start + part.card ≤ files.card) :
    ∃ l, Lists l files ∧ (l.drop start).take part.card = part.toList := by
  have hrest : (files \ part).toList.length = files.card - part.card := by
    rw [Finset.length_toList, Finset.card_sdiff_of_subset hpart]
  have hstart : ((files \ part).toList.take start).length = start := by
    rw [List.length_take, hrest]
    omega
  refine ⟨(files \ part).toList.take start ++ (part.toList ++ (files \ part).toList.drop start),
    ⟨?_, ?_⟩, ?_⟩
  · have hperm : ((files \ part).toList.take start ++
        (part.toList ++ (files \ part).toList.drop start)).Perm
        (part.toList ++ (files \ part).toList) := by
      rw [← List.append_assoc]
      refine (List.perm_append_comm.append_right _).trans ?_
      rw [List.append_assoc, List.take_append_drop]
    rw [hperm.nodup_iff, List.nodup_append]
    refine ⟨Finset.nodup_toList _, Finset.nodup_toList _, ?_⟩
    rintro x hx _ hy rfl
    rw [Finset.mem_toList] at hx
    rw [Finset.mem_toList, Finset.mem_sdiff] at hy
    exact hy.2 hx
  · ext x
    have hsplit : x ∈ (files \ part).toList.take start ∨ x ∈ (files \ part).toList.drop start ↔
        x ∈ files \ part := by
      rw [← List.mem_append, List.take_append_drop, Finset.mem_toList]
    simp only [List.mem_toFinset, List.mem_append, Finset.mem_toList]
    rw [or_left_comm, hsplit, Finset.mem_sdiff]
    constructor
    · rintro (hx | hx)
      · exact hpart hx
      · exact hx.1
    · intro hx
      by_cases hp : x ∈ part
      · exact Or.inl hp
      · exact Or.inr ⟨hx, hp⟩
  · rw [List.drop_left' hstart, ← Finset.length_toList part, List.take_left]

/-- A part with an element can be exchanged for another of the same size without it. -/
theorem exists_other {files part : Finset α} (hpart : part ⊆ files) (hne : part.Nonempty)
    (hlt : part.card < files.card) :
    ∃ other, other ⊆ files ∧ other.card = part.card ∧ ∃ x ∈ part, x ∉ other := by
  obtain ⟨x, hx⟩ := hne
  obtain ⟨y, hy, hno⟩ := Finset.exists_mem_notMem_of_card_lt_card hlt
  refine ⟨insert y (part.erase x), ?_, ?_, x, hx, ?_⟩
  · rw [Finset.insert_subset_iff]
    exact ⟨hy, (Finset.erase_subset x part).trans hpart⟩
  · rw [Finset.card_insert_of_notMem (fun h => hno (Finset.mem_of_mem_erase h)),
      Finset.card_erase_add_one hx]
  · rw [Finset.mem_insert, not_or]
    refine ⟨?_, Finset.notMem_erase x part⟩
    rintro rfl
    exact hno hx

end Windows

/-! ## The slice of one runner -/

/-- The number of files in the slice of runner `pos`. -/
def sliceLength (n pos runners : Nat) : Nat :=
  min (n / runners) (n - batchSize n runners * (pos - 1))

theorem selected_window {α : Type} (l : List α) {pos : Nat} (hpos : 0 < pos) (runners : Nat) :
    selected l pos runners = (l.drop (batchSize l.length runners * (pos - 1))).take
      (sliceLength l.length pos runners) := by
  obtain ⟨k, rfl⟩ : ∃ k, pos = k + 1 := ⟨pos - 1, by omega⟩
  rw [selected_eq, Nat.add_sub_cancel, List.take_eq_take_iff, List.length_drop, sliceLength,
    Nat.add_sub_cancel]
  omega

theorem length_selected {α : Type} (l : List α) {pos : Nat} (hpos : 0 < pos) (runners : Nat) :
    (selected l pos runners).length = sliceLength l.length pos runners := by
  rw [selected_window l hpos, List.length_take, List.length_drop, sliceLength]
  omega

theorem selected_one {α : Type} (l : List α) : selected l 1 1 = l := by
  rw [selected_eq l 0 1, Nat.mul_zero, List.drop_zero, Nat.div_one, List.take_length]

theorem selected_sublist {α : Type} (l : List α) {pos : Nat} (hpos : 0 < pos) (runners : Nat) :
    (selected l pos runners).Sublist l := by
  rw [selected_window l hpos]
  exact (List.take_sublist _ _).trans (List.drop_sublist _ _)

/-- With two runners no slice has all the files. -/
theorem sliceLength_lt {n pos runners : Nat} (hr : 2 ≤ runners)
    (h : 0 < sliceLength n pos runners) : sliceLength n pos runners < n := by
  have hpos : 0 < n := by
    rw [sliceLength] at h
    omega
  have hdiv : n / runners < n := Nat.div_lt_self hpos hr
  exact lt_of_le_of_lt (Nat.min_le_left _ _) hdiv

theorem readBatch_bounds {batch : Text} {pos runners : Nat}
    (h : readBatch batch = .ok (pos, runners)) : 0 < pos ∧ pos ≤ runners := by
  unfold readBatch at h
  split at h
  · cases h
  · simp only at h
    split at h
    · split at h
      · rename_i hpos hle
        obtain ⟨rfl, rfl⟩ := Prod.mk.inj (Except.ok.inj h)
        exact ⟨hpos, hle⟩
      · cases h
    · cases h

/-! ## The tests of a slice -/

/-- The file is accepted by `parse_one_code`. -/
def Accepted (text : Text → Text) (filename : Text) : Prop :=
  (parseOneCode filename (text filename)).toOption.isSome = true

instance (text : Text → Text) : DecidablePred (Accepted text) :=
  fun _ => inferInstanceAs (Decidable (_ = true))

theorem accepted_iff (text : Text → Text) (filename : Text) :
    Accepted text filename ↔ ∃ ts, parseOneCode filename (text filename) = .ok ts := by
  unfold Accepted
  cases parseOneCode filename (text filename) <;> simp [Except.toOption]

theorem readTests_filename {filename : Text} (ps : List (Text × Text)) :
    ∀ {k : Nat} {ts : List Test}, readTests filename k ps = some ts →
      ∀ t ∈ ts, t.filename = filename := by
  induction ps with
  | nil =>
    intro k ts h
    cases h
    simp
  | cons p ps ih =>
    intro k ts h
    obtain ⟨c, o⟩ := p
    obtain ⟨e, d, us, _, hus, rfl⟩ := readTests_cons_iff.mp h
    exact List.forall_mem_cons.mpr ⟨rfl, ih hus⟩

/-- **The tests of a file** carry its name, and there is at least one. -/
theorem parseOneCode_tests {filename text : Text} {ts : List Test}
    (h : parseOneCode filename text = .ok ts) :
    (∀ t ∈ ts, t.filename = filename) ∧ ∃ t, t ∈ ts := by
  obtain ⟨ps, _, hne, hts⟩ := (parseOneCode_ok_iff filename text ts).mp h
  refine ⟨readTests_filename ps hts, List.exists_mem_of_ne_nil ts fun hnil => ?_⟩
  exact hne ((readTests_eq_nil_iff hts).mp hnil)

/-- The loop over the slice ends iff every file in it is accepted. -/
theorem readTodo_spec (text : Text → Text) (files : List Text) : ∀ todo : List Test,
    ((∀ f ∈ files, Accepted text f) ∧ ∃ ts, readTodo text todo files = .ok ts ∧
      ∀ t, t ∈ ts ↔ t ∈ todo ∨
        ∃ f ∈ files, ∃ us, parseOneCode f (text f) = .ok us ∧ t ∈ us) ∨
    ((¬ ∀ f ∈ files, Accepted text f) ∧ ∃ e, readTodo text todo files = .error e) := by
  induction files with
  | nil => intro todo; exact Or.inl ⟨by simp, todo, rfl, by simp⟩
  | cons f files ih =>
    intro todo
    rw [readTodo, List.forall_mem_cons, accepted_iff]
    cases hf : parseOneCode f (text f) with
    | error e => exact Or.inr ⟨by simp, _, rfl⟩
    | ok us =>
      rcases ih (todo ++ us) with ⟨hall, ts, hts, hmem⟩ | ⟨hno, e, he⟩
      · refine Or.inl ⟨⟨⟨us, rfl⟩, hall⟩, ts, hts, fun t => ?_⟩
        rw [hmem, List.mem_append, List.exists_mem_cons_iff, hf]
        simp only [Except.ok.injEq, exists_eq_left']
        rw [or_assoc]
      · exact Or.inr ⟨fun h => hno h.2, e, he⟩

/-- Two calls put the same set of tests in `todo`; one that raises puts none. -/
def SameTests (r r' : Except BatchError (List Test)) : Prop :=
  match r, r' with
  | .ok ts, .ok ts' => ∀ t, t ∈ ts ↔ t ∈ ts'
  | .error _, .error _ => True
  | _, _ => False

/-- A file with tests is found again in every slice with the same tests. -/
theorem mem_of_sameTests {text : Text → Text} {fs fs' : List Text} {ts ts' : List Test}
    (hall : ∀ f ∈ fs, Accepted text f)
    (hts : ∀ t, t ∈ ts ↔ t ∈ ([] : List Test) ∨
      ∃ f ∈ fs, ∃ us, parseOneCode f (text f) = .ok us ∧ t ∈ us)
    (hts' : ∀ t, t ∈ ts' ↔ t ∈ ([] : List Test) ∨
      ∃ f ∈ fs', ∃ us, parseOneCode f (text f) = .ok us ∧ t ∈ us)
    (hsame : ∀ t, t ∈ ts ↔ t ∈ ts') {f : Text} (hf : f ∈ fs) : f ∈ fs' := by
  obtain ⟨us, hus⟩ := (accepted_iff text f).mp (hall f hf)
  obtain ⟨hname, t, ht⟩ := parseOneCode_tests hus
  have hmem := (hts' t).mp ((hsame t).mp ((hts t).mpr (Or.inr ⟨f, hf, us, hus, ht⟩)))
  rcases hmem with hmem | ⟨f', hf', us', hus', ht'⟩
  · cases hmem
  · have hname' := (parseOneCode_tests hus').1 t ht'
    rw [hname t ht] at hname'
    rwa [hname']

/-- **Slices with the same tests** are the same, unless both have a file that is refused. -/
theorem sameTests_iff (text : Text → Text) (files files' : List Text) :
    SameTests (readTodo text [] files) (readTodo text [] files') ↔
      ((∀ f ∈ files, Accepted text f) ∧ ∀ f, f ∈ files ↔ f ∈ files') ∨
        ((¬ ∀ f ∈ files, Accepted text f) ∧ ¬ ∀ f ∈ files', Accepted text f) := by
  rcases readTodo_spec text files [] with ⟨hall, ts, hts, hmem⟩ | ⟨hno, e, he⟩
  · rcases readTodo_spec text files' [] with ⟨hall', ts', hts', hmem'⟩ | ⟨hno', e', he'⟩
    · rw [hts, hts']
      show (∀ t, t ∈ ts ↔ t ∈ ts') ↔ _
      constructor
      · intro hsame
        exact Or.inl ⟨hall, fun f => ⟨mem_of_sameTests hall hmem hmem' hsame,
          mem_of_sameTests hall' hmem' hmem fun t => (hsame t).symm⟩⟩
      · rintro (⟨_, hfiles⟩ | ⟨hno, _⟩)
        · intro t
          simp only [hmem, hmem', hfiles]
        · exact absurd hall hno
    · rw [hts, he']
      show False ↔ _
      rw [false_iff, not_or]
      refine ⟨fun ⟨_, hfiles⟩ => hno' fun f hf => hall f ((hfiles f).mpr hf), fun h => h.1 hall⟩
  · rcases readTodo_spec text files' [] with ⟨hall', ts', hts', hmem'⟩ | ⟨hno', e', he'⟩
    · rw [he, hts']
      show False ↔ _
      rw [false_iff, not_or]
      exact ⟨fun h => hno h.1, fun h => h.2 hall'⟩
    · rw [he, he']
      show True ↔ _
      rw [true_iff]
      exact Or.inr ⟨hno, hno'⟩

/-! ## Two orders -/

/-- The batch does not depend on the order of the listing. -/
def OrderFree (text : Text → Text) (files : Finset Text) (batch : Text) : Prop :=
  ∀ l l', Lists l files → Lists l' files →
    SameTests (extractAllTodo text l batch) (extractAllTodo text l' batch)

theorem extractAllTodo_eq (text : Text → Text) (l : List Text) {batch : Text}
    {pos runners : Nat} (h : readBatch batch = .ok (pos, runners)) :
    extractAllTodo text l batch = readTodo text [] (selected l pos runners) := by
  rw [extractAllTodo, chooseFiles, h]

/-- Where few files are accepted every slice has one that is refused. -/
theorem refused_of_few {text : Text → Text} {files : Finset Text} {pos runners : Nat}
    (hpos : 0 < pos)
    (hfew : (files.filter (Accepted text)).card < sliceLength files.card pos runners)
    {l : List Text} (hl : Lists l files) : ¬ ∀ f ∈ selected l pos runners, Accepted text f := by
  intro hall
  have hsub := selected_sublist l hpos runners
  have hcard : (selected l pos runners).toFinset.card = sliceLength files.card pos runners := by
    rw [List.toFinset_card_of_nodup (hl.nodup.sublist hsub), length_selected l hpos, hl.length]
  have hle : (selected l pos runners).toFinset.card ≤ (files.filter (Accepted text)).card := by
    apply Finset.card_le_card
    intro f hf
    rw [List.mem_toFinset] at hf
    exact Finset.mem_filter.mpr ⟨(hl.mem_iff f).mp (hsub.subset hf), hall f hf⟩
  omega

/-- A part of the size of the slice is the slice of some order. -/
theorem exists_slice {files part : Finset Text} {pos runners : Nat} (hpos : 0 < pos)
    (hpart : part ⊆ files) (hcard : part.card = sliceLength files.card pos runners)
    (hsome : 0 < part.card) :
    ∃ l, Lists l files ∧ selected l pos runners = part.toList := by
  have hfit : batchSize files.card runners * (pos - 1) + part.card ≤ files.card := by
    rw [hcard, sliceLength] at hsome ⊢
    omega
  obtain ⟨l, hl, hwindow⟩ := exists_order hpart hfit
  refine ⟨l, hl, ?_⟩
  rw [selected_window l hpos, hl.length, ← hcard, hwindow]

/-- **When the batch of a runner does not depend on the order** in which the
files are listed. -/
theorem order_free_iff (text : Text → Text) (files : Finset Text) {batch : Text}
    {pos runners : Nat} (h : readBatch batch = .ok (pos, runners)) :
    OrderFree text files batch ↔
      runners = 1 ∨ sliceLength files.card pos runners = 0 ∨
        (files.filter (Accepted text)).card < sliceLength files.card pos runners := by
  obtain ⟨hpos, hle⟩ := readBatch_bounds h
  constructor
  · intro hfree
    by_contra hcond
    simp only [not_or, Nat.not_lt] at hcond
    obtain ⟨hone, hempty, hmany⟩ := hcond
    -- a slice of accepted files, and another one without one of them
    obtain ⟨part, hacc, hcard⟩ := Finset.exists_subset_card_eq hmany
    have hpart : part ⊆ files := hacc.trans (Finset.filter_subset _ _)
    have hsome : 0 < part.card := by omega
    have hlt : part.card < files.card := by
      rw [hcard]
      exact sliceLength_lt (by omega) (by omega)
    obtain ⟨other, hother, hsame, x, hx, hno⟩ :=
      exists_other hpart (Finset.card_pos.mp hsome) hlt
    obtain ⟨l, hl, hsel⟩ := exists_slice hpos hpart hcard hsome
    obtain ⟨l', hl', hsel'⟩ := exists_slice hpos hother (hsame.trans hcard) (by omega)
    have htests := hfree l l' hl hl'
    rw [extractAllTodo_eq text l h, extractAllTodo_eq text l' h, hsel, hsel', sameTests_iff]
      at htests
    rcases htests with ⟨_, hmem⟩ | ⟨hrefused, _⟩
    · have hx' := (hmem x).mp (Finset.mem_toList.mpr hx)
      exact hno (Finset.mem_toList.mp hx')
    · refine hrefused fun f hf => ?_
      exact (Finset.mem_filter.mp (hacc (Finset.mem_toList.mp hf))).2
  · intro hcond l l' hl hl'
    rw [extractAllTodo_eq text l h, extractAllTodo_eq text l' h, sameTests_iff]
    rcases hcond with rfl | hempty | hfew
    · obtain rfl : pos = 1 := by omega
      have hmem : ∀ f, f ∈ l ↔ f ∈ l' := fun f => by rw [hl.mem_iff, hl'.mem_iff]
      rw [selected_one, selected_one]
      by_cases hall : ∀ f ∈ l, Accepted text f
      · exact Or.inl ⟨hall, hmem⟩
      · exact Or.inr ⟨hall, fun hall' => hall fun f hf => hall' f ((hmem f).mp hf)⟩
    · have hnil : ∀ {l : List Text}, Lists l files → selected l pos runners = [] := by
        intro l hl
        rw [← List.length_eq_zero_iff, length_selected l hpos, hl.length, hempty]
      rw [hnil hl, hnil hl']
      exact Or.inl ⟨by simp, by simp⟩
    · exact Or.inr ⟨refused_of_few hpos hfew hl, refused_of_few hpos hfew hl'⟩

theorem not_order_free {text : Text → Text} {files : Finset Text} {batch : Text}
    {l l' : List Text} {ts ts' : List Test} (hl : Lists l files) (hl' : Lists l' files)
    (hts : extractAllTodo text l batch = .ok ts) (hts' : extractAllTodo text l' batch = .ok ts')
    {t : Test} (ht : t ∈ ts) (hno : t ∉ ts') : ¬ OrderFree text files batch := by
  intro hfree
  have hsame := hfree l l' hl hl'
  rw [hts, hts'] at hsame
  exact hno ((hsame t).mp ht)

/-- Every file has one test, expected to be correct. -/
def sampleText : Text → Text := fun _ =>
  TextFile.unlines [beginMark, [' ', ' ', '$', ' ', 'c'], [' ', ' ', '|', ' ', 'O', 'K'], endMark]

def twoFiles : Finset Text := {['a'], ['b']}

theorem one_runner_order_free :
    OrderFree sampleText twoFiles (batchArgument 1 1) ↔
      1 = 1 ∨ sliceLength twoFiles.card 1 1 = 0 ∨
        (twoFiles.filter (Accepted sampleText)).card < sliceLength twoFiles.card 1 1 :=
  order_free_iff sampleText twoFiles (readBatch_batchArgument (by decide) le_rfl)

/-- **Two runners, two orders:** the first runner gets one file or the other. -/
theorem order_matters : ¬ OrderFree sampleText twoFiles (batchArgument 1 2) := by
  have hab : Lists [['a'], ['b']] twoFiles := ⟨by simp, by ext f; simp [twoFiles]⟩
  have hba : Lists [['b'], ['a']] twoFiles := ⟨by simp, by ext f; simp [twoFiles, or_comm]⟩
  have ha : extractAllTodo sampleText [['a'], ['b']] (batchArgument 1 2) =
      .ok [⟨['a'], 0, ['c'], .OK, .OK⟩] := by decide +kernel
  have hb : extractAllTodo sampleText [['b'], ['a']] (batchArgument 1 2) =
      .ok [⟨['b'], 0, ['c'], .OK, .OK⟩] := by decide +kernel
  exact not_order_free hab hba ha hb (List.mem_cons_self ..) (by simp)

end MpiBugs.Listing
