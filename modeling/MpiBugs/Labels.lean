import MpiBugs.Features
import Mathlib.Data.Finset.Card
import Mathlib.Data.Finset.Lattice.Lemmas

/-!
# Counting files by label

`generate_labels` and `generate_errors` of `gen_latex.py`: loops over the files
of several categories, with a list of the files that have been counted.

* `parseFilesPerExpected_eq`: the files of each category;
* `visit_counted`, `visitFiles_counted`, `visitAll_counted`: one visit counts a
  file under one key unless it is already counted, a run of visits counts each
  file once;
* `generateLabels_counted`, `generateErrors_counted`: the tables.
-/

namespace MpiBugs.Labels

open Header Expected Features

/-! ## Files per category -/

/-- The lists of `[file, test]` of each category. -/
abbrev FilesPerExpected := Category → List (Text × Nat)

inductive LabelError
  | expected (e : ExpectedError)
  | features (e : FeatureError)
  deriving DecidableEq, Repr

/-- The tests of one file, the next of them numbered `test`. -/
def addTests (file : Text) : Nat → List Category → FilesPerExpected → FilesPerExpected
  | _, [], result => result
  | test, c :: cs, result =>
    addTests file (test + 1) cs (Function.update result c (result c ++ [(file, test)]))

section Files

variable (read : Text → Text)

def addFiles : List Text → FilesPerExpected → Except LabelError FilesPerExpected
  | [], result => .ok result
  | file :: files, result =>
    match parseFileExpected file (read file) with
    | .error e => .error (.expected e)
    | .ok cs => addFiles files (addTests file 0 cs result)

/-- `parse_files_per_expected`; `read` gives the text of a file. -/
def parseFilesPerExpected (files : List Text) : Except LabelError FilesPerExpected :=
  addFiles read files fun _ => []

/-! ## Counting -/

structure Counts where
  total : Nat
  feature : Feature → Nat

def Counts.zero : Counts := ⟨0, fun _ => 0⟩

/-- `count[feat] += 1` for each of the features -/
def addFeatures (features : List Feature) (count : Feature → Nat) : Feature → Nat :=
  features.foldl (fun count feat => Function.update count feat (count feat + 1)) count

def Counts.add (count : Counts) (features : List Feature) : Counts :=
  ⟨count.total + 1, addFeatures features count.feature⟩

/-- The files seen so far, and the dictionaries of counts under their keys. -/
structure Tally (κ : Type) where
  seen : List Text
  counts : κ → Counts

def Tally.empty {κ : Type} : Tally κ := ⟨[], fun _ => .zero⟩

/-- The body of the inner loops: the file is counted under `k`, unless it has
been seen. -/
def visit {κ : Type} [DecidableEq κ] (k : κ) (t : Tally κ) (file : Text) :
    Except LabelError (Tally κ) :=
  if file ∈ t.seen then .ok t
  else
    match parseFileFeatures file (read file) with
    | .error e => .error (.features e)
    | .ok (features, _) =>
      .ok ⟨t.seen ++ [file], Function.update t.counts k ((t.counts k).add features)⟩

/-- One of the inner loops. -/
def visitFiles {κ : Type} [DecidableEq κ] (k : κ) (t : Tally κ) (tests : List (Text × Nat)) :
    Except LabelError (Tally κ) :=
  tests.foldlM (fun t test => visit read k t test.1) t

/-- The dictionary in which the files of a detail are counted: `OK` or `Error`. -/
def labelKey (detail : Detail) : Expect := if detail = .OK then .OK else .ERROR

/-- `generate_labels`, with both dictionaries. -/
def generateLabels (files : List Text) : Except LabelError (Expect → Counts) := do
  let filesPerExpected ← parseFilesPerExpected read files
  let t ← Detail.all.foldlM (fun t detail =>
    visitFiles read (labelKey detail) t (filesPerExpected detail.category)) .empty
  return t.counts

/-- `get_counts` -/
def getCounts (filesPerExpected : FilesPerExpected) (categories : List Category) :
    Except LabelError Counts := do
  let t ← categories.foldlM (fun t category =>
    visitFiles read () t (filesPerExpected category)) .empty
  return t.counts ()

/-- The categories that the last row counts. -/
def totalCategories : List Category :=
  [.AInvalidParam, .BResLeak, .BReqLifecycle, .BLocalConcurrency, .CMatch, .DRace, .DMatch,
   .DGlobalConcurrency, .FOK]

/-- The rows of the table of errors, and the categories they count. -/
def errorRows : List (Text × List Category) :=
  [("Invalid Parameter".toList, [.AInvalidParam]),
   ("Resource Leak".toList, [.BResLeak]),
   ("Request lifecycle".toList, [.BReqLifecycle]),
   ("Local concurrency".toList, [.BLocalConcurrency]),
   ("Parameter matching".toList, [.CMatch]),
   ("Message Race".toList, [.DRace]),
   ("Call ordering".toList, [.DMatch]),
   ("Global concurrency".toList, [.DGlobalConcurrency]),
   ("Correct codes".toList, [.FOK]),
   ("Total".toList, totalCategories)]

/-- `generate_errors` -/
def generateErrors (files : List Text) : Except LabelError (List (Text × Counts)) := do
  let filesPerExpected ← parseFilesPerExpected read files
  errorRows.mapM fun (title, categories) => do
    let count ← getCounts read filesPerExpected categories
    return (title, count)

/-! ## What is counted -/

/-- The categories of the headers of a file. -/
def categoriesOf (file : Text) : List Category :=
  (parseFileExpected file (read file)).toOption.getD []

/-- The features with a `Yes`. -/
def featuresOf (file : Text) : List Feature :=
  ((parseFileFeatures file (read file)).toOption.map Prod.fst).getD []

/-- A file with a header, and with features of which none is repeated. -/
structure Labelled (file : Text) : Prop where
  expected : ∃ cs, parseFileExpected file (read file) = .ok cs
  features : ∃ correct lacking, parseFileFeatures file (read file) = .ok (correct, lacking) ∧
    correct.Nodup

/-- The counts are those of a set of files. -/
structure Counts.Of (count : Counts) (s : Finset Text) : Prop where
  total : count.total = s.card
  feature : ∀ feat, count.feature feat = (s.filter fun file => feat ∈ featuresOf read file).card

/-- The files with a header of this category. -/
def having (files : List Text) (c : Category) : Finset Text :=
  files.toFinset.filter fun file => c ∈ categoriesOf read file

/-- The files with a header that expects an error. -/
def incorrect (files : List Text) : Finset Text :=
  files.toFinset.filter fun file => ∃ c ∈ categoriesOf read file, c ≠ .FOK

end Files

/-! ## Files of each category -/

section Files

variable {read : Text → Text}

theorem Labelled.categories {file : Text} (h : Labelled read file) :
    parseFileExpected file (read file) = .ok (categoriesOf read file) := by
  obtain ⟨cs, hcs⟩ := h.expected
  simp [categoriesOf, hcs, Except.toOption]

/-- The tests of a file that have this category. -/
def testsOf (read : Text → Text) (c : Category) (file : Text) : List (Text × Nat) :=
  ((categoriesOf read file).zipIdx.filter fun p => p.1 == c).map fun p => (file, p.2)

theorem addTests_eq (file : Text) (test : Nat) (cs : List Category) (result : FilesPerExpected)
    (c : Category) : addTests file test cs result c =
      result c ++ ((cs.zipIdx test).filter fun p => p.1 == c).map fun p => (file, p.2) := by
  induction cs generalizing test result with
  | nil => simp [addTests]
  | cons d cs ih =>
    rw [addTests, ih, List.zipIdx_cons]
    by_cases h : d = c
    · subst h
      simp [Function.update_self]
    · rw [Function.update_of_ne (Ne.symm h)]
      simp [h]

theorem addFiles_eq {files : List Text} (h : ∀ file ∈ files, Labelled read file)
    (result : FilesPerExpected) :
    addFiles read files result = .ok fun c => result c ++ files.flatMap (testsOf read c) := by
  induction files generalizing result with
  | nil => simp [addFiles]
  | cons file files ih =>
    have hfile := (h file (List.mem_cons_self ..)).categories
    rw [addFiles, hfile]
    simp only
    rw [ih fun f hf => h f (List.mem_cons_of_mem _ hf)]
    simp only [addTests_eq, List.append_assoc, List.flatMap_cons, testsOf]

/-- **The files of each category**, in order, with the numbers of the tests. -/
theorem parseFilesPerExpected_eq {files : List Text} (h : ∀ file ∈ files, Labelled read file) :
    parseFilesPerExpected read files = .ok fun c => files.flatMap (testsOf read c) := by
  rw [parseFilesPerExpected, addFiles_eq h]
  simp

/-- A file is among those of a category iff it has a header of it. -/
theorem mem_testsOf_iff (files : List Text) (c : Category) (file : Text) :
    file ∈ ((files.flatMap (testsOf read c)).map Prod.fst) ↔ file ∈ having read files c := by
  simp only [having, Finset.mem_filter, List.mem_toFinset, List.mem_map, List.mem_flatMap, testsOf,
    List.mem_filter, Prod.exists, exists_and_right, exists_eq_right, beq_iff_eq]
  constructor
  · rintro ⟨i, f, hf, d, j, ⟨hmem, rfl⟩, heq⟩
    obtain ⟨rfl, rfl⟩ := Prod.mk.inj heq
    exact ⟨hf, List.fst_mem_of_mem_zipIdx hmem⟩
  · rintro ⟨hf, hc⟩
    obtain ⟨i, hi, rfl⟩ := List.getElem_of_mem hc
    refine ⟨i, file, hf, _, i, ⟨?_, rfl⟩, rfl⟩
    rw [List.mem_zipIdx_iff_getElem?]
    exact List.getElem?_eq_getElem hi

/-! ## Each file once -/

theorem addFeatures_apply {features : List Feature} (h : features.Nodup) (count : Feature → Nat)
    (feat : Feature) :
    addFeatures features count feat = count feat + if feat ∈ features then 1 else 0 := by
  unfold addFeatures
  induction features generalizing count with
  | nil => simp
  | cons f fs ih =>
    obtain ⟨hf, hfs⟩ := List.nodup_cons.mp h
    rw [List.foldl_cons, ih hfs]
    by_cases heq : feat = f
    · subst heq
      simp [hf]
    · simp [heq]

/-- One more file. -/
theorem Counts.Of.add {count : Counts} {s : Finset Text} (h : count.Of read s) {file : Text}
    (hfile : file ∉ s) (hnodup : (featuresOf read file).Nodup) :
    (count.add (featuresOf read file)).Of read (insert file s) := by
  constructor
  · rw [Finset.card_insert_of_notMem hfile, ← h.total]
    rfl
  · intro feat
    show addFeatures _ _ feat = _
    rw [addFeatures_apply hnodup, h.feature, Finset.filter_insert]
    by_cases hfeat : feat ∈ featuresOf read file
    · rw [if_pos hfeat, if_pos hfeat, Finset.card_insert_of_notMem]
      exact fun hmem => hfile (Finset.mem_of_mem_filter _ hmem)
    · rw [if_neg hfeat, if_neg hfeat, Nat.add_zero]

section Tally

variable {κ : Type}

/-- The tally has seen these files, and counts those of `S k` under `k`. -/
structure Counted (read : Text → Text) (t : Tally κ) (visited : Finset Text)
    (S : κ → Finset Text) : Prop where
  seen : ∀ file, file ∈ t.seen ↔ file ∈ visited
  sub : ∀ k, S k ⊆ visited
  counts : ∀ k, (t.counts k).Of read (S k)

theorem Counted.empty (read : Text → Text) :
    Counted read (.empty : Tally κ) ∅ fun _ => ∅ := by
  constructor
  · intro file
    simp [Tally.empty]
  · exact fun k => subset_rfl
  · exact fun k => ⟨rfl, fun feat => rfl⟩

variable [DecidableEq κ]

/-- What a visit of these files under `k` does to the sets. -/
def after (k : κ) (files seen : Finset Text) (S : κ → Finset Text) : κ → Finset Text :=
  Function.update S k (S k ∪ (files \ seen))

theorem after_empty (k : κ) (seen : Finset Text) (S : κ → Finset Text) : after k ∅ seen S = S := by
  simp [after]

/-- Two visits under one key are one. -/
theorem after_after (k : κ) (files files' seen : Finset Text) (S : κ → Finset Text) :
    after k files' (files ∪ seen) (after k files seen S) = after k (files ∪ files') seen S := by
  funext k'
  by_cases h : k' = k
  · subst h
    simp only [after, Function.update_self]
    ext file
    simp only [Finset.mem_union, Finset.mem_sdiff]
    tauto
  · simp only [after, Function.update_of_ne h]

theorem Labelled.parsed {file : Text} (h : Labelled read file) :
    ∃ lacking, parseFileFeatures file (read file) = .ok (featuresOf read file, lacking) ∧
      (featuresOf read file).Nodup := by
  obtain ⟨correct, lacking, hparse, hnodup⟩ := h.features
  have hfeatures : featuresOf read file = correct := by
    simp [featuresOf, hparse, Except.toOption]
  rw [hfeatures]
  exact ⟨lacking, hparse, hnodup⟩

/-- **A visit counts a file unless it has been seen.** -/
theorem visit_counted {t : Tally κ} {seen : Finset Text} {S : κ → Finset Text}
    (ht : Counted read t seen S) (k : κ) {file : Text} (h : Labelled read file) :
    ∃ t', visit read k t file = .ok t' ∧
      Counted read t' ({file} ∪ seen) (after k {file} seen S) := by
  unfold visit
  by_cases hseen : file ∈ t.seen
  · have hmem := (ht.seen file).mp hseen
    rw [if_pos hseen, Finset.union_eq_right.mpr (Finset.singleton_subset_iff.mpr hmem)]
    have hnone : after k {file} seen S = S := by
      rw [after, Finset.sdiff_eq_empty_iff_subset.mpr (Finset.singleton_subset_iff.mpr hmem),
        Finset.union_empty, Function.update_eq_self]
    rw [hnone]
    exact ⟨t, rfl, ht⟩
  · obtain ⟨lacking, hparse, hnodup⟩ := h.parsed
    have hmem : file ∉ seen := fun hm => hseen ((ht.seen file).mpr hm)
    have hone : after k {file} seen S = Function.update S k (insert file (S k)) := by
      rw [after, Finset.sdiff_eq_self_of_disjoint (Finset.disjoint_singleton_left.mpr hmem),
        Finset.union_comm, ← Finset.insert_eq]
    rw [if_neg hseen, hparse, hone]
    refine ⟨_, rfl, ?_, ?_, ?_⟩
    · intro f
      simp [ht.seen, or_comm]
    · intro k'
      by_cases hk : k' = k
      · subst hk
        simpa using Finset.insert_subset_insert file (ht.sub k')
      · simpa [Function.update_of_ne hk] using
          (ht.sub k').trans (Finset.subset_insert file seen)
    · intro k'
      by_cases hk : k' = k
      · subst hk
        simpa using (ht.counts k').add (fun hm => hmem (ht.sub k' hm)) hnodup
      · simpa [Function.update_of_ne hk] using ht.counts k'

/-- **A run of visits under one key counts each file once.** -/
theorem visitFiles_counted {t : Tally κ} {seen : Finset Text} {S : κ → Finset Text}
    (ht : Counted read t seen S) (k : κ) {tests : List (Text × Nat)}
    (h : ∀ test ∈ tests, Labelled read test.1) :
    ∃ t', visitFiles read k t tests = .ok t' ∧
      Counted read t' ((tests.map Prod.fst).toFinset ∪ seen)
        (after k (tests.map Prod.fst).toFinset seen S) := by
  induction tests generalizing t seen S with
  | nil =>
    refine ⟨t, rfl, ?_⟩
    simpa [after_empty] using ht
  | cons test tests ih =>
    obtain ⟨t₁, hvisit, ht₁⟩ := visit_counted ht k (h test (List.mem_cons_self ..))
    obtain ⟨t₂, hrest, ht₂⟩ := ih ht₁ fun e he => h e (List.mem_cons_of_mem _ he)
    refine ⟨t₂, ?_, ?_⟩
    · rw [visitFiles, List.foldlM_cons, hvisit]
      exact hrest
    · rw [after_after, Finset.union_left_comm, ← Finset.union_assoc, ← Finset.insert_eq,
        ← List.toFinset_cons, ← List.map_cons (f := Prod.fst)] at ht₂
      exact ht₂

/-- The loop over the lists of files, all under one key. -/
theorem visitAll_counted {δ : Type} (key : δ → κ) (tests : δ → List (Text × Nat)) {t : Tally κ}
    {seen : Finset Text} {S : κ → Finset Text} (ht : Counted read t seen S) {k : κ} {ds : List δ}
    (hkey : ∀ d ∈ ds, key d = k) (h : ∀ d ∈ ds, ∀ test ∈ tests d, Labelled read test.1) :
    ∃ t', ds.foldlM (fun t d => visitFiles read (key d) t (tests d)) t = .ok t' ∧
      Counted read t' (((ds.flatMap tests).map Prod.fst).toFinset ∪ seen)
        (after k ((ds.flatMap tests).map Prod.fst).toFinset seen S) := by
  induction ds generalizing t seen S with
  | nil =>
    refine ⟨t, rfl, ?_⟩
    simpa [after_empty] using ht
  | cons d ds ih =>
    obtain ⟨t₁, hvisit, ht₁⟩ := visitFiles_counted ht k (h d (List.mem_cons_self ..))
    obtain ⟨t₂, hrest, ht₂⟩ := ih ht₁ (fun e he => hkey e (List.mem_cons_of_mem _ he))
      fun e he => h e (List.mem_cons_of_mem _ he)
    refine ⟨t₂, ?_, ?_⟩
    · rw [List.foldlM_cons, hkey d (List.mem_cons_self ..), hvisit]
      exact hrest
    · rw [List.flatMap_cons, List.map_append, List.toFinset_append, Finset.union_assoc,
        Finset.union_left_comm, ← after_after]
      exact ht₂

end Tally

/-! ## The tables -/

/-- A file that is read has a header. -/
theorem categoriesOf_ne_nil {file : Text} (h : Labelled read file) :
    categoriesOf read file ≠ [] := by
  intro hnil
  have hparse := h.categories
  have hmap := parseFileExpected_ok hparse
  rw [hnil, List.map_nil, List.map_eq_nil_iff] at hmap
  simp [parseFileExpected, hmap] at hparse

section Tables

variable {files : List Text} (h : ∀ file ∈ files, Labelled read file)

/-- The files of these categories. -/
theorem tests_toFinset {δ : Type} (category : δ → Category) (ds : List δ) :
    ((ds.flatMap fun d => files.flatMap (testsOf read (category d))).map Prod.fst).toFinset =
      files.toFinset.filter fun file => ∃ d ∈ ds, category d ∈ categoriesOf read file := by
  ext file
  have hone := fun c => @mem_testsOf_iff read files c file
  simp only [having, Finset.mem_filter] at hone
  simp only [List.mem_toFinset, List.map_flatMap, List.mem_flatMap, Finset.mem_filter]
  simp only [List.map_flatMap, List.mem_flatMap, List.mem_toFinset] at hone
  constructor
  · rintro ⟨d, hd, hfile⟩
    obtain ⟨hmem, hc⟩ := (hone (category d)).mp hfile
    exact ⟨hmem, d, hd, hc⟩
  · rintro ⟨hmem, d, hd, hc⟩
    exact ⟨d, hd, (hone (category d)).mpr ⟨hmem, hc⟩⟩

include h in
theorem tests_labelled (c : Category) :
    ∀ test ∈ files.flatMap (testsOf read c), Labelled read test.1 := by
  intro test htest
  have hmem := (mem_testsOf_iff files c test.1).mp (List.mem_map_of_mem htest)
  exact h test.1 (List.mem_toFinset.mp (Finset.mem_of_mem_filter _ hmem))

/-- The details before the last one, which is `OK`. -/
theorem details_split : Detail.all = Detail.all.dropLast ++ [.OK] := by decide

theorem mem_errors_iff (c : Category) :
    (∃ d ∈ Detail.all.dropLast, d.category = c) ↔ c ≠ .FOK := by
  have hall : ∀ c ∈ Category.all, (∃ d ∈ Detail.all.dropLast, d.category = c) ↔ c ≠ .FOK := by
    decide
  exact hall c (Category.mem_all c)

/-- The files of the details that are errors. -/
theorem errors_filter : (files.toFinset.filter fun file =>
    ∃ d ∈ Detail.all.dropLast, d.category ∈ categoriesOf read file) = incorrect read files := by
  ext file
  simp only [incorrect, Finset.mem_filter, ← mem_errors_iff]
  constructor
  · rintro ⟨hfile, d, hd, hc⟩
    exact ⟨hfile, _, hc, d, hd, rfl⟩
  · rintro ⟨hfile, _, hc, d, hd, rfl⟩
    exact ⟨hfile, d, hd, hc⟩

include h in
/-- A file that is labelled but not incorrect has the label `OK`. -/
theorem correct_filter : (files.toFinset.filter fun file =>
    ∃ d ∈ [Detail.OK], d.category ∈ categoriesOf read file) \ incorrect read files =
      files.toFinset \ incorrect read files := by
  ext file
  simp only [incorrect, Finset.mem_sdiff, Finset.mem_filter, List.mem_singleton, exists_eq_left]
  constructor
  · exact fun hf => ⟨hf.1.1, hf.2⟩
  · rintro ⟨hfile, hnone⟩
    refine ⟨⟨hfile, ?_⟩, hnone⟩
    obtain ⟨c, hc⟩ := List.exists_mem_of_ne_nil _
      (categoriesOf_ne_nil (h file (List.mem_toFinset.mp hfile)))
    have hok : c = .FOK := by
      by_contra hne
      exact hnone ⟨hfile, c, hc, hne⟩
    rw [hok] at hc
    exact hc

include h in
/-- **The table of labels**: each file is counted once, among the incorrect ones
if one of its headers expects an error. -/
theorem generateLabels_counted :
    ∃ counts, generateLabels read files = .ok counts ∧
      (counts .ERROR).Of read (incorrect read files) ∧
      (counts .OK).Of read (files.toFinset \ incorrect read files) := by
  -- first the details that are errors, then `OK`
  have hkey : ∀ d ∈ Detail.all.dropLast, labelKey d = .ERROR := by decide
  have hkeyOK : ∀ d ∈ [Detail.OK], labelKey d = .OK := by decide
  have hlabelled (ds : List Detail) : ∀ d ∈ ds, ∀ test ∈ files.flatMap (testsOf read d.category),
      Labelled read test.1 := fun d _ => tests_labelled h d.category
  obtain ⟨t₁, hfold₁, ht₁⟩ := visitAll_counted _ _ (Counted.empty read) hkey (hlabelled _)
  obtain ⟨t₂, hfold₂, ht₂⟩ := visitAll_counted _ _ ht₁ hkeyOK (hlabelled _)
  rw [tests_toFinset, tests_toFinset, errors_filter, Finset.union_empty] at ht₂
  refine ⟨t₂.counts, ?_, ?_, ?_⟩
  · have hfold : Detail.all.foldlM (fun t (d : Detail) => visitFiles read (labelKey d) t
        (files.flatMap (testsOf read d.category))) Tally.empty = .ok t₂ := by
      rw [details_split, List.foldlM_append, hfold₁]
      exact hfold₂
    rw [generateLabels, parseFilesPerExpected_eq h]
    simp only [bind, Except.bind, hfold]
    rfl
  · have hcount := ht₂.counts .ERROR
    simpa [after, Function.update_of_ne] using hcount
  · have hcount := ht₂.counts .OK
    rw [after, Function.update_self, correct_filter h] at hcount
    simpa [after, Function.update_of_ne] using hcount

include h in
/-- A row of the table of errors counts the files of its categories. -/
theorem getCounts_counted (categories : List Category) :
    ∃ count, getCounts read (fun c => files.flatMap (testsOf read c)) categories = .ok count ∧
      count.Of read
        (files.toFinset.filter fun file => ∃ c ∈ categories, c ∈ categoriesOf read file) := by
  obtain ⟨t, hfold, ht⟩ := visitAll_counted (fun _ => ()) (fun c => files.flatMap (testsOf read c))
    (Counted.empty read) (fun (c : Category) (_ : c ∈ categories) => rfl)
    fun c _ => tests_labelled h c
  have hset : ((categories.flatMap fun c => files.flatMap (testsOf read c)).map Prod.fst).toFinset =
      files.toFinset.filter fun file => ∃ c ∈ categories, c ∈ categoriesOf read file :=
    tests_toFinset id categories
  rw [hset] at ht
  refine ⟨t.counts (), ?_, ?_⟩
  · rw [getCounts]
    simp only [bind, Except.bind, hfold]
    rfl
  · have hcount := ht.counts ()
    simpa [after] using hcount

theorem getCounts_single (c : Category) :
    (files.toFinset.filter fun file => ∃ c' ∈ [c], c' ∈ categoriesOf read file) =
      having read files c := by
  ext file
  simp [having]

theorem mem_totalCategories (c : Category) : c ∈ totalCategories := by cases c <;> decide

include h in
/-- The row of all categories counts all files. -/
theorem getCounts_total :
    (files.toFinset.filter fun file => ∃ c ∈ totalCategories, c ∈ categoriesOf read file) =
      files.toFinset := by
  refine Finset.filter_true_of_mem fun file hfile => ?_
  obtain ⟨c, hc⟩ := List.exists_mem_of_ne_nil _
    (categoriesOf_ne_nil (h file (List.mem_toFinset.mp hfile)))
  exact ⟨c, mem_totalCategories c, hc⟩

theorem mapM_ok {α β ε : Type} {f : α → Except ε β} {g : α → β} {l : List α}
    (h : ∀ x ∈ l, f x = .ok (g x)) : l.mapM f = .ok (l.map g) := by
  induction l with
  | nil => rfl
  | cons x l ih =>
    rw [List.mapM_cons, h x (List.mem_cons_self ..), ih fun y hy => h y (List.mem_cons_of_mem _ hy)]
    rfl

include h in
/-- **The table of errors**: each row counts the files of its category, and the
last one all files. -/
theorem generateErrors_counted :
    ∃ count : List Category → Counts,
      generateErrors read files = .ok (errorRows.map fun r => (r.1, count r.2)) ∧
      (∀ c, (count [c]).Of read (having read files c)) ∧
      (count totalCategories).Of read files.toFinset := by
  have hrows := getCounts_counted h
  choose count hcount hof using hrows
  refine ⟨count, ?_, ?_, ?_⟩
  · rw [generateErrors, parseFilesPerExpected_eq h]
    refine mapM_ok fun row _ => ?_
    simp only [bind, Except.bind, hcount]
    rfl
  · intro c
    have hone := hof [c]
    rw [getCounts_single] at hone
    exact hone
  · have hall := hof totalCategories
    rw [getCounts_total h] at hall
    exact hall

include h in
/-- **Both tables count each file once.** -/
theorem tables_counted :
    (∃ counts, generateLabels read files = .ok counts ∧
      (counts .OK).total + (counts .ERROR).total = files.toFinset.card ∧
      (counts .ERROR).Of read (incorrect read files) ∧
      (counts .OK).Of read (files.toFinset \ incorrect read files)) ∧
    ∃ count : List Category → Counts,
      generateErrors read files = .ok (errorRows.map fun r => (r.1, count r.2)) ∧
      (∀ c, (count [c]).Of read (having read files c)) ∧
      (count totalCategories).Of read files.toFinset := by
  refine ⟨?_, generateErrors_counted h⟩
  obtain ⟨counts, hlabels, hERROR, hOK⟩ := generateLabels_counted h
  refine ⟨counts, hlabels, ?_, hERROR, hOK⟩
  rw [hOK.total, hERROR.total]
  exact Finset.card_sdiff_add_card_eq_card (Finset.filter_subset _ _)

end Tables

end Files

/-! ## Files with two categories -/

def sampleRead (_ : Text) : Text :=
  TextFile.unlines ["BEGIN_MPI_FEATURES".toList, "  RMA: Yes".toList,
    "END_MPI_FEATURES".toList, "  | ERROR: CallMatching".toList, "  | OK".toList]

/-- The first file is listed twice. -/
def sampleFiles : List Text := [['a'], ['a'], ['b']]

theorem sampleFiles_labelled : ∀ file ∈ sampleFiles, Labelled sampleRead file := by
  have hexpected : ∀ file ∈ sampleFiles,
      parseFileExpected file (sampleRead file) = .ok [.DMatch, .FOK] := by decide +kernel
  have hfeatures : ∀ file ∈ sampleFiles,
      parseFileFeatures file (sampleRead file) = .ok ([.RMA], []) := by decide +kernel
  exact fun file hfile => ⟨⟨_, hexpected file hfile⟩, _, _, hfeatures file hfile, by decide⟩

theorem tables_sample :
    (∃ counts, generateLabels sampleRead sampleFiles = .ok counts ∧
      (counts .OK).total + (counts .ERROR).total = sampleFiles.toFinset.card ∧
      (counts .ERROR).Of sampleRead (incorrect sampleRead sampleFiles) ∧
      (counts .OK).Of sampleRead (sampleFiles.toFinset \ incorrect sampleRead sampleFiles)) ∧
    ∃ count : List Category → Counts,
      generateErrors sampleRead sampleFiles = .ok (errorRows.map fun r => (r.1, count r.2)) ∧
      (∀ c, (count [c]).Of sampleRead (having sampleRead sampleFiles c)) ∧
      (count totalCategories).Of sampleRead sampleFiles.toFinset :=
  tables_counted sampleFiles_labelled

end MpiBugs.Labels
