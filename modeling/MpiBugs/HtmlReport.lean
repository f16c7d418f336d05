import MpiBugs.Categorize
import MpiBugs.Sections
import Mathlib.Data.List.Lex
import Mathlib.Data.List.Sort
import Mathlib.Data.String.Basic

/-!
# The table of the HTML report

The two loops with which `cmd_html` writes the table of contents and the rows
of the tests in `summary.html`.

* `category_le_of_sortKey_le`: the tests are sorted by category;
* `testLoop_rows`, `testLoop_sections`: where the loop puts the rows, and which
  sections it opens;
* `report_sectioned_iff`: the report is sectioned by category iff no category
  but the last has a multiple of 25 tests.
-/

namespace MpiBugs

/-- Categories in the order of their keys. -/
instance : LinearOrder Category where
  le c d := c.key ≤ d.key
  lt c d := c.key < d.key
  le_refl c := le_refl c.key
  le_trans _ _ _ := le_trans
  le_antisymm _ _ h h' := Category.key_injective (le_antisymm h h')
  le_total c d := le_total c.key d.key
  lt_iff_le_not_ge _ _ := lt_iff_le_not_ge
  toDecidableLE c d := inferInstanceAs (Decidable (c.key ≤ d.key))
  toDecidableEq := instDecidableEqCategory

namespace HtmlReport

open Regex TextFile Header Wrappers Categorize

/-! ## Rows -/

/-- What the report looks at: the files of each test, and whether MPI-SV has
left a directory. -/
structure Logs where
  files : Tool → Text → Workdir
  kleeOut : Tool → Text → Bool

inductive ReportError
  | exception (message : Text)
  /-- raised by `float(elapsed)` -/
  | notANumber (elapsed : Text)
  /-- raised by `np.group(0)` -/
  | noProcessCount
  deriving DecidableEq, Repr

def basename (filename : Text) : Text := filename.rtakeWhile (· != '/')

def binary (t : Test) : Text := sub (chars ".c") (fun _ => []) (basename t.filename)

def testID (t : Test) : Text := binary t ++ '_' :: natText t.id

/-- `(?:-np) [0-9]+` -/
def npPattern : Regex := chars "-np" ++ (lit [' '] ++ plus asciiDigit)

def firstCell (t : Test) : Text :=
  "<td><a href='gencodes/".toList ++ binary t ++ ".c.txt' target='MBI_details'>".toList ++
    binary t ++ "</a>&nbsp;<a href='gencodes/".toList ++ binary t ++
    ".c'><img title='Download source' src='img/html.svg' height='24' /></a>".toList ++
    (if t.id ≠ 0 then " (test ".toList ++ natText (t.id + 1) ++ ") ".toList else []) ++
    "</td>".toList

/-- The page with more information, if there is one. -/
def extra (logs : Logs) (t : Test) (tool : Tool) : Option Text :=
  let path := "logs/".toList ++ toolname tool ++ '/' :: testID t
  if logs.kleeOut tool (testID t) then some (path ++ "-klee-out".toList)
  else if ((logs.files tool (testID t)).logs .html).isSome then some (path ++ ".html".toList)
  else none

def resultCell (logs : Logs) (t : Test) (tool : Tool) (r : Categorized) : Text :=
  "<td align='center'><a href='logs/".toList ++ toolname tool ++ '/' :: testID t ++
    ".txt' target='MBI_details'><img title='".toList ++ displayedName tool ++ ' ' ::
    r.diagnostic ++ " (returned ".toList ++ r.outcome ++ ")' src='img/".toList ++
    r.resCategory.key ++ ".svg' width='24' /></a> (".toList ++ r.outcome ++ ")".toList ++
    (match extra logs t tool with
      | some page =>
        "&nbsp;<a href='".toList ++ page ++
          "' target='MBI_details'><img title='more info' src='img/html.svg' height='24' /></a>".toList
      | none => []) ++
    "</td>".toList

/-- One round of the loop over the tools. -/
def toolCell (logs : Logs) (t : Test) (tool : Tool) : Except ReportError Text :=
  match categorize tool (logs.files tool (testID t)) (testID t) t.expect with
  | .error e => .error (.exception e)
  | .ok r =>
    if r.resCategory ≠ .timeout ∧ readsFloat r.elapsed = false then .error (.notANumber r.elapsed)
    else if (search npPattern t.cmd).isNone then .error .noProcessCount
    else .ok (resultCell logs t tool r)

def row (used : List Tool) (logs : Logs) (t : Test) : Except ReportError Text :=
  match used.mapM (toolCell logs t) with
  | .error e => .error e
  | .ok cells => .ok ("     <tr>".toList ++ firstCell t ++ cells.flatten ++ "</tr>\n".toList)

/-! ## The two loops -/

/-- What is written, a few lines of HTML at a time. -/
inductive Item
  | openContents
  | entry (d : Detail)
  | closeEntry
  | closeContents
  | heading (d : Detail)
  | openTable
  | closeTable
  | header
  | row (t : Test) (text : Text)
  deriving DecidableEq, Repr

/-- The name of the anchor that a heading sets and its entry refers to. -/
def anchor (d : Detail) : Text := if d ≠ .OK then d.category.key else "OK".toList

def scope (d : Detail) : Text := " (scope: ".toList ++ d.category.errorScope ++ ")".toList

/-- The text of an item, for these tools. -/
def Item.text (used : List Tool) : Item → Text
  | openContents => "<h2>Table of contents</h2>\n<ul>\n".toList
  | entry d =>
    " <li><a href='#".toList ++ anchor d ++ "'>".toList ++ d.category.displayedName ++
      "</a>".toList ++ (if d ≠ .OK then scope d else []) ++ "\n".toList
  | closeEntry => " </li>\n".toList
  | closeContents =>
    "  </ul>\n <li><a href='#metrics'>Summary metrics</a></li></ul>\n".toList
  | heading d =>
    "  <a name='".toList ++ anchor d ++ "'/><h3>".toList ++
      (if d ≠ .OK then d.category.displayedName ++ " errors".toList ++ scope d
        else "Correct codes".toList) ++ "</h3>\n".toList
  | openTable => "  <table border=1>\n".toList
  | closeTable => "</table>\n".toList
  | header =>
    "   <tr><td>Test</td>".toList ++
      (used.map fun tool => "<td>&nbsp;".toList ++ displayedName tool ++ "&nbsp;</td>".toList).flatten ++
      "</tr>\n".toList
  | row _ t => t

/-- The key by which the tests are sorted. -/
def sortKey (t : Test) : Text :=
  t.detail.category.key ++ '|' :: (t.detail.key ++ '|' :: (t.filename ++ '|' :: natText t.id))

def sorted (todo : List Test) : List Test := todo.insertionSort fun s t => sortKey s ≤ sortKey t

/-- The table of contents; `none` stands for the empty `previous_detail`. -/
def contentsLoop : Option Category → List Test → List Item
  | _, [] => []
  | previousDetail, t :: ts =>
    if previousDetail ≠ some t.detail.category then
      (if previousDetail ≠ none then [.closeEntry] else []) ++ .entry t.detail ::
        contentsLoop (some t.detail.category) ts
    else contentsLoop previousDetail ts

/-- `previous_detail` and `testcount` -/
abbrev LoopState := Sections.State Category

/-- What the second loop writes before a row, and its state then. -/
def beforeRow (s : LoopState) (t : Test) : List Item × LoopState :=
  let testcount := s.count + 1
  if s.previous ≠ some t.detail.category ∨ testcount = 25 then
    let (items, previousDetail) :=
      if testcount ≠ 25 then
        ((if s.previous ≠ none then [.closeTable] else []) ++ [.heading t.detail, .openTable],
          some t.detail.category)
      else ([], s.previous)
    (items ++ [.header], ⟨previousDetail, 0⟩)
  else ([], ⟨s.previous, testcount⟩)

def testLoop (used : List Tool) (logs : Logs) : LoopState → List Test → Except ReportError (List Item)
  | _, [] => .ok []
  | s, t :: ts =>
    let (items, s) := beforeRow s t
    match row used logs t with
    | .error e => .error e
    | .ok text =>
      match testLoop used logs s ts with
      | .error e => .error e
      | .ok rest => .ok (items ++ .row t text :: rest)

/-- The table of contents, and what comes after it. -/
def document (todo : List Test) (body : List Item) : List Item :=
  .openContents :: (contentsLoop none (sorted todo) ++ .closeContents :: body)

/-- `summary.html`, from the table of contents to the end of the tests. -/
def cmdHtml (used : List Tool) (logs : Logs) (todo : List Test) : Except ReportError (List Item) :=
  match testLoop used logs ⟨none, 0⟩ (sorted todo) with
  | .error e => .error e
  | .ok items => .ok (document todo (items ++ [.closeTable]))

/-! ## Sections -/

/-- Where an item stands: after a heading, or inside its table. -/
inductive Place
  | outside
  | headed (c : Category)
  | inside (c : Category)
  deriving DecidableEq, Repr

def Place.after : Place → Item → Place
  | _, .heading d => .headed d.category
  | .headed c, .openTable => .inside c
  | _, .closeTable => .outside
  | p, _ => p

/-- The rows, each with its place. -/
def rows : Place → List Item → List (Place × Test)
  | _, [] => []
  | p, .row t _ :: is => (p, t) :: rows p is
  | p, i :: is => rows (p.after i) is

/-- The sections: a heading and its table. -/
def sections : List Item → List Category
  | .heading d :: .openTable :: is => d.category :: sections is
  | _ :: is => sections is
  | [] => []

/-- The entries of the table of contents. -/
def entries : List Item → List Category
  | .entry d :: is => d.category :: entries is
  | _ :: is => entries is
  | [] => []

def categories (todo : List Test) : List Category := todo.map (·.detail.category)

/-- **The report is sectioned by category**: a category of the todo list has one
entry in the table of contents and one section, others have none; there is a row
for every test, and it is inside the section of the category of that test. -/
structure Sectioned (todo : List Test) (doc : List Item) : Prop where
  entries : ∀ c, (entries doc).count c = if c ∈ categories todo then 1 else 0
  sections : ∀ c, (sections doc).count c = if c ∈ categories todo then 1 else 0
  tests : List.Perm ((rows .outside doc).map Prod.snd) todo
  rows : ∀ r ∈ rows .outside doc, r.1 = .inside r.2.detail.category

/-- **An entry of the table of contents refers to the headings of its category.** -/
theorem anchor_eq_iff (d e : Detail) : anchor d = anchor e ↔ d.category = e.category := by
  have hall : ∀ a ∈ Detail.all, ∀ b ∈ Detail.all, anchor a = anchor b ↔ a.category = b.category := by
    decide +kernel
  exact hall d (Detail.mem_all d) e (Detail.mem_all e)

/-! ## Sorted tests -/

theorem append_lt_append {u v : Text} (h : u < v) (hpre : ¬ u <+: v) (s t : Text) :
    u ++ s < v ++ t := by
  induction u generalizing v with
  | nil => exact absurd List.nil_prefix hpre
  | cons c u ih =>
    cases v with
    | nil => exact absurd h (List.not_lt_nil _)
    | cons d v =>
      rw [List.cons_append, List.cons_append, List.cons_lt_cons_iff]
      rcases List.cons_lt_cons_iff.mp h with hlt | ⟨rfl, hlt⟩
      · exact Or.inl hlt
      · exact Or.inr ⟨rfl, ih hlt fun hp => hpre (List.cons_prefix_cons.mpr ⟨rfl, hp⟩)⟩

/-- No key of a category begins with another one. -/
theorem key_incomparable {c d : Category} (h : c < d) : ¬ c.key <+: d.key := by
  have hkeys : ∀ a ∈ Category.all, ∀ b ∈ Category.all, a.key <+: b.key → a = b := by
    decide +kernel
  intro hp
  exact ne_of_lt h (hkeys c (Category.mem_all c) d (Category.mem_all d) hp)

/-- **Tests are sorted by category first.** -/
theorem category_le_of_sortKey_le {s t : Test} (h : sortKey s ≤ sortKey t) :
    s.detail.category ≤ t.detail.category := by
  by_contra hlt
  have hlt : t.detail.category < s.detail.category := not_le.mp hlt
  have hkey : t.detail.category.key < s.detail.category.key := hlt
  exact not_lt.mpr h (append_lt_append hkey (key_incomparable hlt) _ _)

theorem sorted_perm (todo : List Test) : (sorted todo).Perm todo := List.perm_insertionSort _ _

theorem categories_sorted (todo : List Test) :
    (categories (sorted todo)).Pairwise (· ≤ ·) := by
  have htotal : Std.Total fun s t : Test => sortKey s ≤ sortKey t := ⟨fun _ _ => le_total _ _⟩
  have htrans : IsTrans Test fun s t => sortKey s ≤ sortKey t := ⟨fun _ _ _ => le_trans⟩
  have hsorted : (sorted todo).Pairwise fun s t => sortKey s ≤ sortKey t :=
    List.pairwise_insertionSort _ _
  exact List.pairwise_map.mpr (hsorted.imp category_le_of_sortKey_le)

/-! ## The table of contents -/

theorem entries_contents (p : Option Category) (ts : List Test) (is : List Item) :
    entries (contentsLoop p ts ++ is) = Sections.changes p (categories ts) ++ entries is := by
  induction ts generalizing p with
  | nil => rfl
  | cons t ts ih =>
    by_cases h : p = some t.detail.category
    · simp only [contentsLoop, categories, List.map_cons, Sections.changes, h]
      simpa [h, categories] using ih (some t.detail.category)
    · have ih := ih (some t.detail.category)
      by_cases hp : p = none
      · simp [contentsLoop, categories, Sections.changes, hp, entries] at ih ⊢
        exact ih
      · simp [contentsLoop, categories, Sections.changes, h, hp, entries] at ih ⊢
        exact ih

/-- The table of contents has no row and no heading. -/
theorem contents_plain (p : Option Category) (ts : List Test) (is : List Item) :
    sections (contentsLoop p ts ++ is) = sections is ∧
      rows .outside (contentsLoop p ts ++ is) = rows .outside is := by
  induction ts generalizing p with
  | nil => exact ⟨rfl, rfl⟩
  | cons t ts ih =>
    by_cases h : p = some t.detail.category
    · simpa [contentsLoop, h] using ih (some t.detail.category)
    · by_cases hp : p = none
      · simpa [contentsLoop, hp, sections, rows, Place.after] using ih (some t.detail.category)
      · simpa [contentsLoop, h, hp, sections, rows, Place.after] using ih (some t.detail.category)

theorem document_entries (todo : List Test) (body : List Item) :
    entries (document todo body) =
      Sections.changes none (categories (sorted todo)) ++ entries body := by
  show entries (contentsLoop none (sorted todo) ++ .closeContents :: body) = _
  rw [entries_contents]
  rfl

theorem document_sections (todo : List Test) (body : List Item) :
    sections (document todo body) = sections body :=
  (contents_plain none (sorted todo) (.closeContents :: body)).1

theorem document_rows (todo : List Test) (body : List Item) :
    rows .outside (document todo body) = rows .outside body :=
  (contents_plain none (sorted todo) (.closeContents :: body)).2

/-! ## The loop over the tests -/

def placeOf (s : LoopState) : Place :=
  match s.previous with
  | none => .outside
  | some c => .inside c

/-- The three things the loop does before a row: nothing, write the header once
more, or open a section. -/
theorem beforeRow_cases (s : LoopState) (t : Test) :
    (s.previous = some t.detail.category ∧ s.count + 1 ≠ 25 ∧
      beforeRow s t = ([], ⟨s.previous, s.count + 1⟩)) ∨
    (s.count + 1 = 25 ∧ beforeRow s t = ([.header], ⟨s.previous, 0⟩)) ∨
    (s.previous ≠ some t.detail.category ∧ s.count + 1 ≠ 25 ∧
      beforeRow s t =
        ((if s.previous ≠ none then [.closeTable] else []) ++
          [.heading t.detail, .openTable, .header], ⟨some t.detail.category, 0⟩)) := by
  by_cases hdue : s.count + 1 = 25
  · refine Or.inr (Or.inl ⟨hdue, ?_⟩)
    simp only [beforeRow]
    rw [if_pos (Or.inr hdue), if_neg (not_not.mpr hdue)]
    rfl
  · by_cases hsame : s.previous = some t.detail.category
    · refine Or.inl ⟨hsame, hdue, ?_⟩
      simp only [beforeRow]
      rw [if_neg (by simp [hsame, hdue])]
    · refine Or.inr (Or.inr ⟨hsame, hdue, ?_⟩)
      simp only [beforeRow]
      rw [if_pos (Or.inl hsame), if_pos hdue, List.append_assoc]
      rfl

theorem beforeRow_state (s : LoopState) (t : Test) :
    (beforeRow s t).2 = Sections.advance 25 s t.detail.category := by
  unfold Sections.advance
  obtain ⟨hsame, hdue, heq⟩ | ⟨hdue, heq⟩ | ⟨hnew, hdue, heq⟩ := beforeRow_cases s t
  · rw [heq, if_neg (by simp [hsame, hdue])]
  · rw [heq, if_pos (Or.inr hdue), if_neg (not_not.mpr hdue)]
  · rw [heq, if_pos (Or.inl hnew), if_pos hdue]

/-- What is written before a row leaves the loop's place. -/
theorem beforeRow_rows (s : LoopState) (t : Test) (is : List Item) :
    rows (placeOf s) ((beforeRow s t).1 ++ is) = rows (placeOf (beforeRow s t).2) is := by
  obtain ⟨_, _, heq⟩ | ⟨_, heq⟩ | ⟨_, _, heq⟩ := beforeRow_cases s t
  · rw [heq]
    rfl
  · rw [heq]
    cases h : s.previous <;> simp [rows, placeOf, h, Place.after]
  · rw [heq]
    cases h : s.previous <;> simp [rows, placeOf, h, Place.after]

theorem beforeRow_sections (s : LoopState) (t : Test) (text : Text) (is : List Item) :
    sections ((beforeRow s t).1 ++ .row t text :: is) =
      (if s.previous ≠ some t.detail.category ∧ s.count + 1 ≠ 25 then [t.detail.category] else []) ++
        sections is := by
  obtain ⟨hsame, _, heq⟩ | ⟨hdue, heq⟩ | ⟨hnew, hdue, heq⟩ := beforeRow_cases s t
  · rw [heq, if_neg (by simp [hsame])]
    rfl
  · rw [heq, if_neg (by simp [hdue])]
    rfl
  · rw [if_pos (And.intro hnew hdue), heq]
    cases h : s.previous <;> simp [sections]

theorem beforeRow_entries (s : LoopState) (t : Test) (is : List Item) :
    entries ((beforeRow s t).1 ++ is) = entries is := by
  obtain ⟨_, _, heq⟩ | ⟨_, heq⟩ | ⟨_, _, heq⟩ := beforeRow_cases s t
  · rw [heq]
    rfl
  · rw [heq]
    rfl
  · rw [heq]
    cases h : s.previous <;> simp [entries]

section TestLoop

variable {used : List Tool} {logs : Logs}

/-- A round of the loop that does not fail, and the rest of it. -/
theorem testLoop_cons {s : LoopState} {t : Test} {ts : List Test} {items : List Item}
    (h : testLoop used logs s (t :: ts) = .ok items) :
    ∃ text rest, testLoop used logs (Sections.advance 25 s t.detail.category) ts = .ok rest ∧
      items = (beforeRow s t).1 ++ .row t text :: rest := by
  rw [testLoop] at h
  simp only [beforeRow_state] at h
  cases htext : row used logs t with
  | error e => simp [htext] at h
  | ok text =>
    simp only [htext] at h
    cases hrest : testLoop used logs (Sections.advance 25 s t.detail.category) ts with
    | error e => simp [hrest] at h
    | ok rest =>
      simp only [hrest] at h
      exact ⟨text, rest, rfl, (Except.ok.inj h).symm⟩

/-- **The rows are all in place iff the loop never misses a change of category.** -/
theorem testLoop_rows {s : LoopState} {ts : List Test} {items : List Item}
    (h : testLoop used logs s ts = .ok items) :
    (rows (placeOf s) (items ++ [.closeTable])).map Prod.snd = ts ∧
      ((∀ r ∈ rows (placeOf s) (items ++ [.closeTable]), r.1 = .inside r.2.detail.category) ↔
        Sections.InPlace 25 s (categories ts)) := by
  induction ts generalizing s items with
  | nil =>
    obtain rfl := Except.ok.inj h
    simp [rows, Sections.InPlace, categories]
  | cons t ts ih =>
    obtain ⟨text, rest, hrest, rfl⟩ := testLoop_cons h
    obtain ⟨hsnd, hplace⟩ := ih hrest
    rw [List.append_assoc, beforeRow_rows, beforeRow_state]
    have hhere (s : LoopState) (c : Category) : placeOf s = .inside c ↔ s.previous = some c := by
      unfold placeOf
      cases s.previous <;> simp
    constructor
    · exact congrArg (t :: ·) hsnd
    · simp only [List.cons_append, rows, List.forall_mem_cons, hhere, hplace]
      rfl

/-- **If no change is missed, one section is opened at each.** -/
theorem testLoop_sections {s : LoopState} {ts : List Test} {items : List Item}
    (h : testLoop used logs s ts = .ok items) (hin : Sections.InPlace 25 s (categories ts)) :
    sections (items ++ [.closeTable]) = Sections.changes s.previous (categories ts) := by
  induction ts generalizing s items with
  | nil =>
    obtain rfl := Except.ok.inj h
    rfl
  | cons t ts ih =>
    obtain ⟨text, rest, hrest, rfl⟩ := testLoop_cons h
    obtain ⟨hhere, hin⟩ := hin
    have hrest := ih hrest hin
    rw [List.append_assoc, List.cons_append, beforeRow_sections, hrest, hhere]
    by_cases hsame : s.previous = some t.detail.category
    · simp [Sections.changes, hsame, categories]
    · have hdue := (Sections.advance_previous_iff hsame).mp hhere
      simp [Sections.changes, hsame, hdue, categories]

theorem testLoop_entries {s : LoopState} {ts : List Test} {items : List Item}
    (h : testLoop used logs s ts = .ok items) : entries (items ++ [.closeTable]) = [] := by
  induction ts generalizing s items with
  | nil =>
    obtain rfl := Except.ok.inj h
    rfl
  | cons t ts ih =>
    obtain ⟨text, rest, hrest, rfl⟩ := testLoop_cons h
    rw [List.append_assoc, beforeRow_entries]
    show entries (rest ++ [.closeTable]) = []
    exact ih hrest

end TestLoop

/-! ## The report -/

theorem cmdHtml_ok {used : List Tool} {logs : Logs} {todo : List Test} {doc : List Item}
    (h : cmdHtml used logs todo = .ok doc) :
    ∃ items, testLoop used logs ⟨none, 0⟩ (sorted todo) = .ok items ∧
      doc = document todo (items ++ [.closeTable]) := by
  unfold cmdHtml at h
  cases hitems : testLoop used logs ⟨none, 0⟩ (sorted todo) with
  | error e => simp [hitems] at h
  | ok items =>
    rw [hitems] at h
    exact ⟨items, rfl, (Except.ok.inj h).symm⟩

/-- **The report is sectioned by category iff no category but the last has a
multiple of 25 tests.** -/
theorem report_sectioned_iff {used : List Tool} {logs : Logs} {todo : List Test} {doc : List Item}
    (h : cmdHtml used logs todo = .ok doc) :
    Sectioned todo doc ↔ ∀ c ∈ categories todo, Sections.Uneven 25 (categories todo) c := by
  obtain ⟨items, hloop, rfl⟩ := cmdHtml_ok h
  have hperm : (categories (sorted todo)).Perm (categories todo) := (sorted_perm todo).map _
  have hcond : (∀ c ∈ categories todo, Sections.Uneven 25 (categories todo) c) ↔
      Sections.InPlace 25 ⟨none, 0⟩ (categories (sorted todo)) := by
    rw [Sections.inPlace_iff (by decide) (categories_sorted todo)]
    simp only [Sections.Uneven, hperm.mem_iff, hperm.count_eq]
  obtain ⟨htests, hplace⟩ := testLoop_rows hloop
  have hrows : rows .outside (document todo (items ++ [.closeTable])) =
      rows (placeOf ⟨none, 0⟩) (items ++ [.closeTable]) := document_rows todo _
  rw [hcond, ← hplace, ← hrows]
  constructor
  · exact fun hdoc => hdoc.rows
  · intro hin
    have hcount := Sections.count_changes (categories_sorted todo)
    simp only [hperm.mem_iff] at hcount
    have hinPlace := hplace.mp (hrows ▸ hin)
    constructor
    · intro c
      rw [document_entries, testLoop_entries hloop, List.append_nil]
      exact hcount c
    · intro c
      rw [document_sections, testLoop_sections hloop hinPlace]
      exact hcount c
    · rw [hrows, htests]
      exact sorted_perm todo
    · exact hin

/-! ## A change of category that is missed -/

def sampleTest (c : Char) (d : Detail) : Test :=
  ⟨"gencodes/".toList ++ c :: ".c".toList, 0, "mpirun -np 2 ${EXE}".toList,
    if d = .OK then .OK else .ERROR, d⟩

/-- 25 tests of one category, and one of the next. -/
def sampleTodo : List Test :=
  "abcdefghijklmnopqrstuvwxy".toList.map (sampleTest · .InvalidTag) ++ [sampleTest 'z' .TypeLeak]

/-- Nothing has been run. -/
def noLogs : Logs := ⟨fun _ _ => ⟨fun _ => none, fun _ => none⟩, fun _ _ => false⟩

def sampleDoc : List Item := (cmdHtml [.itac] noLogs sampleTodo).toOption.getD []

theorem cmdHtml_sample : cmdHtml [.itac] noLogs sampleTodo = .ok sampleDoc := by
  have hok : (cmdHtml [.itac] noLogs sampleTodo).toOption.isSome = true := by decide +kernel
  unfold sampleDoc
  cases h : cmdHtml [.itac] noLogs sampleTodo with
  | ok doc => rfl
  | error e => simp [h, Except.toOption] at hok

theorem report_sectioned_sample :
    Sectioned sampleTodo sampleDoc ↔
      ∀ c ∈ categories sampleTodo, Sections.Uneven 25 (categories sampleTodo) c :=
  report_sectioned_iff cmdHtml_sample

/-- The one test of the second category is in the table of the first, and its
category has an entry in the table of contents but no section. -/
theorem missed_section : cmdHtml [.itac] noLogs sampleTodo = .ok sampleDoc ∧
    ¬ Sectioned sampleTodo sampleDoc := by
  refine ⟨cmdHtml_sample, fun h => ?_⟩
  have hmissing : (sections sampleDoc).count .BResLeak = 0 := by decide +kernel
  have hpresent : Category.BResLeak ∈ categories sampleTodo := by decide +kernel
  have hcount := h.sections .BResLeak
  rw [hmissing, if_pos hpresent] at hcount
  cases hcount

end HtmlReport

end MpiBugs
