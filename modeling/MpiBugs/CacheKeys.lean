import MpiBugs.HtmlReport
import MpiBugs.Listing

/-!
# The keys of the caches

`cmd_run` and `cmd_html` of `MBI.py` name the cached result of a test by the base
name of its file, with every `.c` deleted from it, and by the number of the test.

* `cachefile_eq_iff`: the two parts can be read back from a key;
* `binary_eq_iff`: which base names are not told apart;
* `keys_distinct_iff`: the keys of a batch are distinct iff no two of its names
  are the same but for occurrences of `.c`;
* `keys_distinct_of_plain`: names in which `.c` is the extension only.
-/

namespace MpiBugs.CacheKeys

open Regex Header Batch Listing HtmlReport Rewriting

/-! ## The keys -/

/-- `cachefile = f'{binary}_{id}'` of the tools. -/
def cachefile (binary : Text) (id : Nat) : Text := binary ++ '_' :: natText id

/-- The `binary` that `cmd_run` hands to the tool. -/
def runBinary (t : Test) : Text := sub (chars ".c") (fun _ => []) (basename t.filename)

/-- The key of a test that is run; that of a test in a report is its `testID`. -/
def runKey (t : Test) : Text := cachefile (runBinary t) t.id

theorem runKey_eq_testID : runKey = testID := rfl

theorem natText_no_underscore (n : Nat) : '_' ∉ natText n := by
  intro h
  have hdigit := natText_digits n '_' h
  exact absurd hdigit (by decide)

/-- **The two parts can be read back**: the last underscore stands before the number. -/
theorem cachefile_eq_iff (b b' : Text) (n n' : Nat) :
    cachefile b n = cachefile b' n' ↔ b = b' ∧ n = n' := by
  constructor
  · intro h
    have hreverse := congrArg List.reverse h
    simp only [cachefile, List.reverse_append, List.reverse_cons, List.append_assoc,
      List.singleton_append] at hreverse
    have hdigits : ∀ m, ∀ c ∈ (natText m).reverse, c ≠ '_' := by
      rintro m c hc rfl
      exact natText_no_underscore m (List.mem_reverse.mp hc)
    obtain ⟨hnum, -, hb⟩ := split_unique (P := (· = '_')) hreverse rfl rfl (hdigits n) (hdigits n')
    refine ⟨List.reverse_injective hb, ?_⟩
    rw [← int_natText n, ← int_natText n', List.reverse_injective hnum]
  · rintro ⟨rfl, rfl⟩
    rfl

theorem dotC_ne_nil : ".c".toList ≠ [] := by decide

/-- **The base names that are not told apart.** -/
theorem binary_eq_iff (t t' : Test) :
    binary t = binary t' ↔ SameBut ".c".toList (basename t.filename) (basename t'.filename) :=
  sub_lit_eq_iff dotC_ne_nil _ _

/-- No two tests have the same key. -/
def KeysDistinct (key : Test → Text) (todo : List Test) : Prop :=
  ∀ t ∈ todo, ∀ t' ∈ todo, (t.filename, t.id) ≠ (t'.filename, t'.id) → key t ≠ key t'

/-! ## The tests of a directory -/

/-- The files `*.c` of a directory. -/
structure Directory where
  path : Text
  names : List Text
  nodup : names.Nodup
  named : ∀ name ∈ names, '/' ∉ name ∧ ".c".toList <:+ name

def Directory.filename (d : Directory) (name : Text) : Text := d.path ++ '/' :: name

/-- The listing of the directory. -/
def Directory.filenames (d : Directory) : List Text := d.names.map d.filename

theorem basename_filename (d : Directory) {name : Text} (h : '/' ∉ name) :
    basename (d.filename name) = name := by
  have hname : ∀ c ∈ name.reverse, (c != '/') = true := by
    intro c hc
    rw [bne_iff_ne]
    rintro rfl
    exact h (List.mem_reverse.mp hc)
  rw [basename, Directory.filename, List.rtakeWhile, List.reverse_append, List.reverse_cons,
    List.append_assoc, List.takeWhile_append_of_pos hname]
  simp

/-- The slice of a listing is one of the names. -/
theorem selected_map {α β : Type} (f : α → β) (l : List α) (pos runners : Nat) :
    selected (l.map f) pos runners = (selected l pos runners).map f := by
  simp [selected, slice]

/-- Among the tests of a file there is one with the first number. -/
theorem readTests_first {filename : Text} {k : Nat} {ps : List (Text × Text)} {ts : List Test}
    (h : readTests filename k ps = some ts) (hne : ps ≠ []) : ∃ t ∈ ts, t.id = k := by
  obtain ⟨⟨c, o⟩, ps, rfl⟩ := List.exists_cons_of_ne_nil hne
  obtain ⟨e, d, us, -, -, rfl⟩ := readTests_cons_iff.mp h
  exact ⟨_, List.mem_cons_self .., rfl⟩

theorem parseOneCode_first {filename text : Text} {ts : List Test}
    (h : parseOneCode filename text = .ok ts) : ∃ t ∈ ts, t.id = 0 := by
  obtain ⟨ps, -, hne, hts⟩ := (parseOneCode_ok_iff filename text ts).mp h
  exact readTests_first hts hne

/-- **What is in a todo list**: each test is of a file of the batch, and each of
these files has a test with the number 0. -/
theorem todo_spec {d : Directory} {text : Text → Text} {batch : Text} {todo : List Test}
    (h : extractAllTodo text d.filenames batch = .ok todo) :
    ∃ chosen, chooseFiles batch d.names = .ok chosen ∧ (∀ f ∈ chosen, f ∈ d.names) ∧
      (∀ t ∈ todo, ∃ f ∈ chosen, t.filename = d.filename f) ∧
      ∀ f ∈ chosen, ∃ t ∈ todo, t.filename = d.filename f ∧ t.id = 0 := by
  cases hbatch : readBatch batch with
  | error e => simp [extractAllTodo, chooseFiles, hbatch] at h
  | ok p =>
    obtain ⟨pos, runners⟩ := p
    rw [extractAllTodo_eq text _ hbatch, Directory.filenames, selected_map] at h
    obtain ⟨hpos, -⟩ := readBatch_bounds hbatch
    refine ⟨selected d.names pos runners, by simp [chooseFiles, hbatch], ?_, ?_⟩
    · exact fun f hf => (selected_sublist d.names hpos runners).subset hf
    rcases readTodo_spec text ((selected d.names pos runners).map d.filename) [] with
      ⟨hall, ts, hts, hmem⟩ | ⟨-, e, he⟩
    · obtain rfl : ts = todo := Except.ok.inj (hts.symm.trans h)
      constructor
      · intro t ht
        rcases (hmem t).mp ht with hnil | ⟨path, hpath, us, hus, htus⟩
        · cases hnil
        obtain ⟨f, hf, rfl⟩ := List.mem_map.mp hpath
        exact ⟨f, hf, (parseOneCode_tests hus).1 t htus⟩
      · intro f hf
        have hpath := List.mem_map_of_mem (f := d.filename) hf
        obtain ⟨us, hus⟩ := (accepted_iff text _).mp (hall _ hpath)
        obtain ⟨t, ht, hid⟩ := parseOneCode_first hus
        refine ⟨t, (hmem t).mpr (.inr ⟨_, hpath, us, hus, ht⟩), ?_, hid⟩
        exact (parseOneCode_tests hus).1 t ht
    · rw [he] at h
      cases h

/-! ## Distinct keys -/

theorem filename_injective (d : Directory) : Function.Injective d.filename := by
  intro f g h
  exact (List.cons.inj (List.append_cancel_left h)).2

/-- The keys of two tests of the directory. -/
theorem testID_eq_iff {d : Directory} {t t' : Test} {f g : Text} (hf : f ∈ d.names)
    (hg : g ∈ d.names) (htf : t.filename = d.filename f) (htg : t'.filename = d.filename g) :
    testID t = testID t' ↔ SameBut ".c".toList f g ∧ t.id = t'.id := by
  have hbinary : binary t = binary t' ↔ SameBut ".c".toList f g := by
    rw [binary_eq_iff, htf, htg, basename_filename d (d.named f hf).1,
      basename_filename d (d.named g hg).1]
  rw [← hbinary]
  exact cachefile_eq_iff ..

/-- Names that are told apart give distinct keys, whatever the numbers are. -/
theorem distinct_of_names {d : Directory} {chosen : List Text} {todo : List Test}
    (hnames : ∀ f ∈ chosen, f ∈ d.names)
    (htests : ∀ t ∈ todo, ∃ f ∈ chosen, t.filename = d.filename f)
    (h : ∀ f ∈ chosen, ∀ g ∈ chosen, f ≠ g → ¬ SameBut ".c".toList f g) :
    KeysDistinct testID todo := by
  intro t ht t' ht' hne hkey
  obtain ⟨f, hf, htf⟩ := htests t ht
  obtain ⟨g, hg, htg⟩ := htests t' ht'
  obtain ⟨hsame, hid⟩ := (testID_eq_iff (hnames f hf) (hnames g hg) htf htg).mp hkey
  refine h f hf g hg ?_ hsame
  rintro rfl
  exact hne (by rw [htf, htg, hid])

/-- Names that are not told apart collide in their first tests. -/
theorem names_of_distinct {d : Directory} {chosen : List Text} {todo : List Test}
    (hnames : ∀ f ∈ chosen, f ∈ d.names)
    (hfirst : ∀ f ∈ chosen, ∃ t ∈ todo, t.filename = d.filename f ∧ t.id = 0)
    (h : KeysDistinct testID todo) :
    ∀ f ∈ chosen, ∀ g ∈ chosen, f ≠ g → ¬ SameBut ".c".toList f g := by
  intro f hf g hg hne hsame
  obtain ⟨t, ht, htf, hid⟩ := hfirst f hf
  obtain ⟨t', ht', htg, hid'⟩ := hfirst g hg
  refine h t ht t' ht' ?_ ((testID_eq_iff (hnames f hf) (hnames g hg) htf htg).mpr
    ⟨hsame, hid.trans hid'.symm⟩)
  intro heq
  rw [htf, htg] at heq
  exact hne (filename_injective d (Prod.mk.inj heq).1)

/-- **When the keys of a batch are distinct**, those of `cmd_run` and those of
`cmd_html`. -/
theorem keys_distinct_iff {d : Directory} {text : Text → Text} {batch : Text} {todo : List Test}
    (h : extractAllTodo text d.filenames batch = .ok todo) :
    ∃ chosen, chooseFiles batch d.names = .ok chosen ∧
      ∀ key, key = runKey ∨ key = testID → (KeysDistinct key todo ↔
        ∀ f ∈ chosen, ∀ g ∈ chosen, f ≠ g → ¬ SameBut ".c".toList f g) := by
  obtain ⟨chosen, hchosen, hnames, htests, hfirst⟩ := todo_spec h
  refine ⟨chosen, hchosen, fun key hkey => ?_⟩
  obtain rfl : key = testID := by
    rcases hkey with rfl | rfl
    · exact runKey_eq_testID
    · rfl
  exact ⟨names_of_distinct hnames hfirst, distinct_of_names hnames htests⟩

/-- Two programs, the files of one directory. -/
def plainDirectory : Directory where
  path := "gencodes".toList
  names := ["a.c".toList, "b.c".toList]
  nodup := by decide
  named := by decide

theorem keys_distinct_iff_plain :
    ∃ chosen, chooseFiles (batchArgument 1 1) plainDirectory.names = .ok chosen ∧
      ∀ key, key = runKey ∨ key = testID → (KeysDistinct key
          [⟨"gencodes/a.c".toList, 0, ['c'], .OK, .OK⟩,
            ⟨"gencodes/b.c".toList, 0, ['c'], .OK, .OK⟩] ↔
        ∀ f ∈ chosen, ∀ g ∈ chosen, f ≠ g → ¬ SameBut ".c".toList f g) := by
  have htodo : extractAllTodo sampleText plainDirectory.filenames (batchArgument 1 1) =
      .ok [⟨"gencodes/a.c".toList, 0, ['c'], .OK, .OK⟩,
        ⟨"gencodes/b.c".toList, 0, ['c'], .OK, .OK⟩] := by decide +kernel
  exact keys_distinct_iff htodo

/-- A program whose name has the extension twice. -/
def doubledDirectory : Directory where
  path := "gencodes".toList
  names := ["a.c".toList, "a.c.c".toList]
  nodup := by decide
  named := by decide

/-- **Two tests with one key:** `a_0` is the result of `a.c` and that of `a.c.c`. -/
theorem keys_collide :
    ∃ todo, extractAllTodo sampleText doubledDirectory.filenames (batchArgument 1 1) = .ok todo ∧
      ¬ KeysDistinct runKey todo ∧ ¬ KeysDistinct testID todo := by
  have htodo : extractAllTodo sampleText doubledDirectory.filenames (batchArgument 1 1) =
      .ok [⟨"gencodes/a.c".toList, 0, ['c'], .OK, .OK⟩,
        ⟨"gencodes/a.c.c".toList, 0, ['c'], .OK, .OK⟩] := by decide +kernel
  have hcollide : ¬ KeysDistinct testID
      [⟨"gencodes/a.c".toList, 0, ['c'], .OK, .OK⟩,
        ⟨"gencodes/a.c.c".toList, 0, ['c'], .OK, .OK⟩] := by
    intro h
    exact h _ (List.mem_cons_self ..) _ (List.mem_cons_of_mem _ (List.mem_cons_self ..))
      (by decide) (by decide +kernel)
  exact ⟨_, htodo, by rw [runKey_eq_testID]; exact hcollide, hcollide⟩

/-! ## Names with the extension only -/

theorem not_dotC_starts {c : Char} {stem : Text} (h : ¬ ".c".toList <:+: c :: stem) :
    ¬ ".c".toList <+: c :: (stem ++ ".c".toList) := by
  intro hstarts
  cases stem with
  | nil => exact absurd (List.cons_prefix_cons.mp hstarts).2 (by decide)
  | cons d stem =>
    refine h (List.IsPrefix.isInfix ?_)
    have hlong : ".c".toList.length ≤ (c :: d :: stem).length := by
      rw [show ".c".toList.length = 2 from by decide]
      simp
    exact List.prefix_of_prefix_length_le hstarts (List.prefix_append _ _) hlong

/-- From such a name the extension is deleted, and nothing else. -/
theorem sub_plain {stem : Text} (h : ¬ ".c".toList <:+: stem) :
    sub (chars ".c") (fun _ => []) (stem ++ ".c".toList) = stem := by
  induction stem with
  | nil =>
    have hext := sub_lit_append dotC_ne_nil []
    rw [List.append_nil, sub_nil (consuming_lit dotC_ne_nil)] at hext
    exact hext
  | cons c stem ih =>
    have htail : ¬ ".c".toList <:+: stem :=
      fun hin => h (hin.trans (List.suffix_cons c stem).isInfix)
    have hkeep := sub_lit_cons dotC_ne_nil (not_dotC_starts h)
    exact hkeep.trans (congrArg (c :: ·) (ih htail))

/-- **Plain names have distinct keys.** -/
theorem keys_distinct_of_plain {d : Directory} {text : Text → Text} {batch : Text}
    {todo : List Test} (h : extractAllTodo text d.filenames batch = .ok todo)
    (hplain : ∀ name ∈ d.names, ∃ stem, name = stem ++ ".c".toList ∧ ¬ ".c".toList <:+: stem) :
    KeysDistinct testID todo := by
  obtain ⟨chosen, -, hnames, htests, -⟩ := todo_spec h
  refine distinct_of_names hnames htests fun f hf g hg hne hsame => hne ?_
  obtain ⟨stem, rfl, hstem⟩ := hplain f (hnames f hf)
  obtain ⟨stem', rfl, hstem'⟩ := hplain g (hnames g hg)
  have hsub := (sub_lit_eq_iff dotC_ne_nil _ _).mpr hsame
  rw [← sub_plain hstem, ← sub_plain hstem']
  exact congrArg (· ++ ".c".toList) hsub

end MpiBugs.CacheKeys
