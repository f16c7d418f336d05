import MpiBugs.Batch
import MpiBugs.MakeFile
import MpiBugs.Rewriting

/-!
# Line references

The second loop of `make_file` (`generator_utils.py`), which replaces the
placeholders `@{line:T}@` by the number of the line on which `find_line` sees
the marker `T`.

* `makeFile_ok_iff`: what is written is what the two loops leave;
* `line_references_stay`: a number put in is right in the text written;
* `line_references_whole`: when the line it names carries the marker itself,
  and not only a longer one.
-/

namespace MpiBugs.MakeFile

open Regex Rewriting
open Header (natText)
open Batch (natText_eq natText_digits)

/-! ## The code -/

def split (content : Text) : List Text := content.splitOn '\n'

def notFoundMessage (target filename : Text) : Text :=
  "Line target ".toList ++ target ++ " not found in ".toList ++ filename ++ ".".toList

def unknownKind (kind target : Text) : Text :=
  "Unknown variable kind: ".toList ++ kind ++ ":".toList ++ target

/-- `[^:]` with the target behind it, spliced in as it is: a repetition at its
start counts for the class. -/
def findPattern (target : Text) : Except RegexError Regex :=
  let (q, t) := quantify (cls (· != ':')) target
  match compile t with
  | .error e => .error e
  | .ok r => .ok (q ++ r)

def findLoop (r : Regex) (message : Text) : Nat → List Text → Except FileError Nat
  | _, [] => .error (.exception message)
  | res, line :: lines =>
    if (search r line).isSome then .ok res else findLoop r message (res + 1) lines

def findLine (content target filename : Text) : Except FileError Nat :=
  match findPattern target with
  | .error e => .error (.regex e)
  | .ok r => findLoop r (notFoundMessage target filename) 1 (split content)

/-- `@\{([^:@]*):([^@]*)\}@`. -/
def linePlaceholder : Regex :=
  chars "@\x7b" ++ (group 1 (many (cls nameClass)) ++
    (chars ":" ++ (group 2 (many (cls (· != '@'))) ++ chars "\x7d@")))

def linePattern (target : Text) : Text :=
  "@\\\x7bline:".toList ++ target ++ "\\\x7d@".toList

/-- One round of the second loop: the target, its number and the text after it. -/
def lineStep (filename output : Text) : Option (Except FileError (Text × Nat × Text)) :=
  (search linePlaceholder output).map fun m =>
    let kind := (m.group 1).getD []
    let target := (m.group 2).getD []
    if kind = "line".toList then
      match findLine output target filename with
      | .error e => .error e
      | .ok n =>
        match subText (linePattern target) (natText n) output with
        | .error e => .error (.regex e)
        | .ok output => .ok (target, n, output)
    else .error (.exception (unknownKind kind target))

def secondLoop (filename : Text) : Nat → Text → Option (Except FileError Text)
  | 0, _ => none
  | fuel + 1, output =>
    match lineStep filename output with
    | none => some (.ok output)
    | some (.error e) => some (.error e)
    | some (.ok (_, _, output)) => secondLoop filename fuel output

/-- `make_file`: the name and the text of the file written. The warning about
a file that is overwritten changes neither. -/
def makeFile (template filename : Text) (replace : Replace) (fuel : Nat) :
    Option (Except FileError (Text × Text)) :=
  match expandTemplate template filename replace fuel with
  | none => none
  | some (.error e) => some (.error e)
  | some (.ok output) =>
    (secondLoop (shortFilename filename) fuel output).map
      fun r => r.map fun output => (shortFilename filename, output)

/-! ## Runs of the second loop -/

/-- The loop, started with a text, puts in these numbers and ends with a text. -/
inductive Resolves (filename : Text) : Text → List (Text × Nat) → Text → Prop
  | done {x} : lineStep filename x = none → Resolves filename x [] x
  | step {x target n y tr z} : lineStep filename x = some (.ok (target, n, y)) →
      Resolves filename y tr z → Resolves filename x ((target, n) :: tr) z

theorem secondLoop_ok_iff (filename x z : Text) :
    (∃ fuel, secondLoop filename fuel x = some (.ok z)) ↔ ∃ tr, Resolves filename x tr z := by
  constructor
  · rintro ⟨fuel, h⟩
    induction fuel generalizing x with
    | zero => cases h
    | succ fuel ih =>
      rw [secondLoop] at h
      cases hstep : lineStep filename x with
      | none =>
        rw [hstep] at h
        obtain rfl : x = z := by simpa using h
        exact ⟨[], .done hstep⟩
      | some r =>
        rw [hstep] at h
        cases r with
        | error e => simp at h
        | ok s =>
          obtain ⟨target, n, y⟩ := s
          obtain ⟨tr, htr⟩ := ih y h
          exact ⟨_, .step hstep htr⟩
  · rintro ⟨tr, h⟩
    induction h with
    | done hstep => exact ⟨1, by rw [secondLoop, hstep]⟩
    | step hstep _ ih =>
      obtain ⟨fuel, h⟩ := ih
      exact ⟨fuel + 1, by rw [secondLoop, hstep, ← h]⟩

theorem secondLoop_mono {filename x : Text} {r : Except FileError Text} {j k : Nat}
    (h : secondLoop filename j x = some r) (hjk : j ≤ k) : secondLoop filename k x = some r := by
  induction j generalizing x k with
  | zero => cases h
  | succ j ih =>
    obtain ⟨k, rfl⟩ := Nat.exists_eq_succ_of_ne_zero (n := k) (by omega)
    rw [secondLoop] at h ⊢
    cases hstep : lineStep filename x with
    | none => rwa [hstep] at h
    | some s =>
      rw [hstep] at h
      cases s with
      | error e => exact h
      | ok s => exact ih h (by omega)

theorem firstLoop_mono {replace : Replace} {x : Text} {r : Except FileError Text} {j k : Nat}
    (h : firstLoop replace j x = some r) (hjk : j ≤ k) : firstLoop replace k x = some r := by
  induction j generalizing x k with
  | zero => cases h
  | succ j ih =>
    obtain ⟨k, rfl⟩ := Nat.exists_eq_succ_of_ne_zero (n := k) (by omega)
    rw [firstLoop] at h ⊢
    cases hsearch : search placeholder x with
    | none => rwa [hsearch] at h
    | some m =>
      rw [hsearch] at h
      simp only at h ⊢
      cases hvalue : replace.lookup ((m.group 1).getD []) with
      | none => rwa [hvalue] at h
      | some value =>
        rw [hvalue] at h
        simp only at h ⊢
        cases hsub : subText (targetPattern ((m.group 1).getD [])) value x with
        | error e => rwa [hsub] at h
        | ok y =>
          rw [hsub] at h
          exact ih h (by omega)

/-- `make_file` writes `z`: its first loop leaves `x`, from which the second
one gets to `z` by putting in the numbers of `tr`. -/
structure Writes (template filename : Text) (replace : Replace) (x : Text)
    (tr : List (Text × Nat)) (z : Text) : Prop where
  expands : ∃ fuel, expandTemplate template filename replace fuel = some (.ok x)
  resolves : Resolves (shortFilename filename) x tr z

/-- **The files written** are those of the two loops. -/
theorem makeFile_ok_iff (template filename : Text) (replace : Replace) (name z : Text) :
    (∃ fuel, makeFile template filename replace fuel = some (.ok (name, z))) ↔
      name = shortFilename filename ∧ ∃ x tr, Writes template filename replace x tr z := by
  constructor
  · rintro ⟨fuel, h⟩
    rw [makeFile] at h
    cases hx : expandTemplate template filename replace fuel with
    | none => simp [hx] at h
    | some r =>
      cases r with
      | error e => simp [hx] at h
      | ok x =>
        simp only [hx, Option.map_eq_some_iff] at h
        obtain ⟨r, hr, h⟩ := h
        cases r with
        | error e => cases h
        | ok y =>
          obtain ⟨rfl, rfl⟩ : shortFilename filename = name ∧ y = z := by
            simpa [Except.map] using h
          obtain ⟨tr, htr⟩ := (secondLoop_ok_iff _ _ _).mp ⟨fuel, hr⟩
          exact ⟨rfl, x, tr, ⟨fuel, hx⟩, htr⟩
  · rintro ⟨rfl, x, tr, ⟨j, hj⟩, htr⟩
    obtain ⟨k, hk⟩ := (secondLoop_ok_iff _ _ _).mpr ⟨tr, htr⟩
    have hj' : expandTemplate template filename replace (max j k) = some (.ok x) :=
      firstLoop_mono hj (Nat.le_max_left j k)
    have hk' := secondLoop_mono hk (Nat.le_max_right j k)
    exact ⟨max j k, by simp [makeFile, hj', hk', Except.map]⟩

/-! ## Markers -/

def markerText : Text := "MBIERROR".toList

/-- `MBIERROR` and digits. -/
def Marker (t : Text) : Prop := ∃ ds : Text, t = markerText ++ ds ∧ ∀ c ∈ ds, c.isDigit = true

def lineHole (target : Text) : Text :=
  '@' :: '\x7b' :: 'l' :: 'i' :: 'n' :: 'e' :: ':' :: (target ++ ['\x7d', '@'])

/-- No line placeholder of a marker directly follows a marker. -/
def NoHoleAfterMarker (t : Text) : Prop :=
  ∀ m target, Marker m → Marker target → ¬ (m ++ lineHole target) <:+: t

/-- No two line placeholders share their `@`. -/
def Separate (t : Text) : Prop := ¬ "\x7d@\x7bline:".toList <:+: t

/-- What `find_line` looks for: the target after something else than a colon. -/
def Shows (target line : Text) : Prop :=
  ∃ a c b, line = a ++ c :: (target ++ b) ∧ c ≠ ':'

/-- No letter or digit comes first. -/
def WordEnd (t : Text) : Prop := ∀ c ∈ t.head?, c.isAlphanum = false

/-- The line has the target as a whole marker. -/
def Carries (target line : Text) : Prop := ∃ a b, line = a ++ (target ++ b) ∧ WordEnd b

/-- It has it so outside the placeholders of the target. -/
def CarriesOutside (target line : Text) : Prop :=
  ∃ a b, line = a ++ (target ++ b) ∧ WordEnd b ∧
    ¬ ("@\x7bline:".toList <:+ a ∧ "\x7d@".toList <+: b)

private theorem markerText_eq : markerText = ['M', 'B', 'I', 'E', 'R', 'R', 'O', 'R'] := by
  show "MBIERROR".toList = _
  rw [String.toList_ofList]

private theorem lineOpen_eq : "@\x7bline:".toList = ['@', '\x7b', 'l', 'i', 'n', 'e', ':'] := by
  rw [String.toList_ofList]

private theorem lineClose_eq : "\x7d@".toList = ['\x7d', '@'] := by rw [String.toList_ofList]

private theorem shared_eq :
    "\x7d@\x7bline:".toList = ['\x7d', '@', '\x7b', 'l', 'i', 'n', 'e', ':'] := by
  rw [String.toList_ofList]

section

variable {m target d x y l l' : Text}

/-- Digits, at least one. -/
def Digits (d : Text) : Prop := d ≠ [] ∧ ∀ c ∈ d, c.isDigit = true

theorem digits_natText (n : Nat) : Digits (natText n) :=
  ⟨by rw [natText_eq]; exact Nat.toDigits_ne_nil, natText_digits n⟩

theorem not_mem_of_isDigit {c : Char} {ds : Text} (hds : ∀ c ∈ ds, c.isDigit = true)
    (hc : c.isDigit = false) : c ∉ ds := by
  intro h
  rw [hds c h] at hc
  cases hc

/-- A character other than a digit, a capital of the marker. -/
theorem Marker.not_mem (hm : Marker m) {c : Char} (hc : c.isDigit = false)
    (hmarker : c ∉ ['M', 'B', 'I', 'E', 'R', 'R', 'O', 'R']) : c ∉ m := by
  obtain ⟨ds, rfl, hds⟩ := hm
  rw [markerText_eq, List.mem_append, not_or]
  exact ⟨hmarker, not_mem_of_isDigit hds hc⟩

theorem Marker.head (hm : Marker m) : ∃ t, m = 'M' :: t := by
  obtain ⟨ds, rfl, _⟩ := hm
  rw [markerText_eq]
  exact ⟨_, rfl⟩

/-- What comes before a digit of a marker is a marker. -/
theorem Marker.of_append {w v : Text} (hm : Marker (w ++ v)) {c : Char} (hv : v.head? = some c)
    (hc : c.isDigit = true) : Marker w := by
  obtain ⟨ds, heq, hds⟩ := hm
  rcases List.append_eq_append_iff.mp heq with ⟨bs, hbs, rfl⟩ | ⟨bs, rfl, rfl⟩
  · cases bs with
    | nil => exact ⟨[], by rw [hbs]; simp, by simp⟩
    | cons b bs =>
      -- the digit would be a letter of the marker
      obtain rfl : b = c := by simpa using hv
      have hmem : b ∈ markerText := by rw [hbs]; simp
      have hletters : ∀ b ∈ markerText, b.isDigit = false := by rw [markerText_eq]; decide
      rw [hletters b hmem] at hc
      cases hc
  · exact ⟨bs, rfl, fun c hc => hds c (List.mem_append_left _ hc)⟩

theorem NoHoleAfterMarker.inside (h : NoHoleAfterMarker x) (hl : l <:+: x) : NoHoleAfterMarker l :=
  fun m target hm htarget hin => h m target hm htarget (hin.trans hl)

theorem Separate.inside (h : Separate x) (hl : l <:+: x) : Separate l := fun hin => h (hin.trans hl)

theorem lineHole_ne_nil (target : Text) : lineHole target ≠ [] := List.cons_ne_nil _ _

/-- Only after the colon does a capital `M` stand in a placeholder. -/
theorem before_marker_in_lineHole (htarget : Marker target) {p q : Text}
    (h : lineHole target = p ++ 'M' :: q) :
    p = "@\x7bline:".toList ∧ 'M' :: q = target ++ ['\x7d', '@'] := by
  obtain ⟨ds, rfl, hds⟩ := htarget
  have hno : 'M' ∉ ['B', 'I', 'E', 'R', 'R', 'O', 'R'] ++ ds ++ ['\x7d', '@'] := by
    have := not_mem_of_isDigit hds (show 'M'.isDigit = false by decide)
    simp [this]
  have hsplit : ['@', '\x7b', 'l', 'i', 'n', 'e', ':'] ++
      'M' :: (['B', 'I', 'E', 'R', 'R', 'O', 'R'] ++ ds ++ ['\x7d', '@']) = p ++ 'M' :: q := by
    rw [← h, lineHole, markerText_eq]
    simp
  have hopen : 'M' ∉ ['@', '\x7b', 'l', 'i', 'n', 'e', ':'] := by decide
  obtain ⟨rfl, _, rfl⟩ := (List.append_cons_inj_of_notMem hopen hno).mp hsplit
  rw [lineOpen_eq, markerText_eq]
  simp

/-- No digit comes first. -/
def NoDigit (t : Text) : Prop := ∀ c ∈ t.head?, c.isDigit = false

theorem WordEnd.noDigit {b : Text} (hb : WordEnd b) : NoDigit b := by
  intro c hc
  have h := hb c hc
  rw [Char.isAlphanum, Bool.or_eq_false_iff] at h
  exact h.2

/-- A marker takes all the digits there are. -/
theorem marker_unique {b b' : Text} (hm : Marker m) (htarget : Marker target) (hb : NoDigit b)
    (hb' : NoDigit b') (h : m ++ b = target ++ b') : m = target ∧ b = b' := by
  have hlonger : ∀ {ds ds' b b' : Text}, (∀ c ∈ ds', c.isDigit = true) → NoDigit b →
      ∀ w, ds' = ds ++ w → b = w ++ b' → w = [] := by
    intro ds ds' b b' hds' hb w hw hbw
    cases w with
    | nil => rfl
    | cons c w =>
      have hdigit := hds' c (by rw [hw]; simp)
      rw [hb c (by rw [hbw]; rfl)] at hdigit
      cases hdigit
  obtain ⟨ds, rfl, hds⟩ := hm
  obtain ⟨ds', rfl, hds'⟩ := htarget
  rw [List.append_assoc, List.append_assoc] at h
  rcases List.append_eq_append_iff.mp (List.append_cancel_left h) with ⟨w, hw, hbw⟩ | ⟨w, hw, hbw⟩
  · obtain rfl := hlonger hds' hb w hw hbw
    exact ⟨by rw [hw, List.append_nil], hbw⟩
  · obtain rfl := hlonger hds hb' w hw hbw
    exact ⟨by rw [hw, List.append_nil], hbw.symm⟩

/-! ## One substitution -/

section

variable {a b : Text}

/-- Before a text that does not start with a digit, no number is cut through. -/
theorem cut_before (hd : Digits d) (h : Rewrites d (lineHole target) y x) {a' t : Text}
    (hy : y = a' ++ t) (ht : NoDigit t) : ∃ a s, x = a ++ s ∧
      Rewrites (lineHole target) d a a' ∧ Rewrites (lineHole target) d s t := by
  rcases h.cut hy with ⟨a, s, hx, ha, hs⟩ | ⟨_, p₁, p₂, t₀, _, rfl, hp, _, hp₂⟩
  · exact ⟨a, s, hx, ha.symm, hs.symm⟩
  · obtain ⟨c, p₂, rfl⟩ := List.exists_cons_of_ne_nil hp₂
    have hdigit := hd.2 c (by rw [hp]; simp)
    rw [ht c rfl] at hdigit
    cases hdigit

/-- Texts without digits are kept, backwards. -/
theorem keep_back (hd : Digits d) {w t s : Text} (h : Rewrites (lineHole target) d s (w ++ t))
    (hw : ∀ c ∈ w, c.isDigit = false) : ∃ s', s = w ++ s' ∧ Rewrites (lineHole target) d s' t := by
  obtain ⟨s', hs, hrest⟩ := h.symm.keep_left rfl hd.1 fun c hc hmem => by
    have hdigit := hd.2 c (List.mem_of_head? hc)
    rw [hw c hmem] at hdigit
    cases hdigit
  exact ⟨s', hs, hrest.symm⟩

/-- Markers are kept, backwards: none gets a digit. -/
theorem marker_back (htarget : Marker target) (hd : Digits d) (hm : Marker m) {t s : Text}
    (h : Rewrites (lineHole target) d s (m ++ t)) (hno : NoHoleAfterMarker s) :
    ∃ s', s = m ++ s' ∧ Rewrites (lineHole target) d s' t := by
  rcases h.symm.keep_or_hit rfl hd.1 with ⟨s', hs, hrest⟩ | ⟨w₁, w₂, z, rfl, hne, hhead, hs⟩
  · exact ⟨s', hs, hrest.symm⟩
  · obtain ⟨c, w₂, rfl⟩ := List.exists_cons_of_ne_nil hne
    have hdigit := hd.2 c (List.mem_of_head? hhead.symm)
    refine absurd ?_ (hno w₁ target (hm.of_append rfl hdigit) htarget)
    exact ⟨[], z, by rw [hs, List.nil_append, List.append_assoc]⟩

/-- After a marker the same character comes on both sides. -/
theorem head_after_marker (htarget : Marker target) (hm : Marker m) {s t : Text}
    (h : Rewrites (lineHole target) d s t) (hno : NoHoleAfterMarker (m ++ s)) :
    t.head? = s.head? := by
  cases h with
  | nil => rfl
  | keep c _ => rfl
  | @hit s t _ =>
    refine absurd ?_ (hno m target hm htarget)
    exact ⟨[], s, by rw [List.nil_append, List.append_assoc]⟩

/-- **A marker of the new text was there before.** -/
theorem back (htarget : Marker target) (hd : Digits d) (hm : Marker m)
    (h : Rewrites (lineHole target) d x y) (hno : NoHoleAfterMarker x) {a' b' : Text}
    (hy : y = a' ++ (m ++ b')) : ∃ a b, x = a ++ (m ++ b) ∧ Rewrites (lineHole target) d a a' ∧
      Rewrites (lineHole target) d b b' ∧ b'.head? = b.head? := by
  have hcut : NoDigit (m ++ b') := by
    obtain ⟨t, rfl⟩ := hm.head
    intro c hc
    obtain rfl : 'M' = c := by simpa using hc
    decide
  obtain ⟨a, s, rfl, ha, hs⟩ := cut_before hd h.symm hy hcut
  have hsuffix : s <:+: a ++ s := (List.suffix_append a s).isInfix
  obtain ⟨b, rfl, hb⟩ := marker_back htarget hd hm hs (hno.inside hsuffix)
  exact ⟨a, b, rfl, ha, hb, head_after_marker htarget hm hb (hno.inside hsuffix)⟩

/-- **A marker is there in the new text**, unless it was the target of a
placeholder. -/
theorem forth (htarget : Marker target) (hm : Marker m) (h : Rewrites (lineHole target) d x y)
    (hno : NoHoleAfterMarker x) (hx : x = a ++ (m ++ b)) :
    (∃ a' b', y = a' ++ (m ++ b') ∧ Rewrites (lineHole target) d a a' ∧
      Rewrites (lineHole target) d b b' ∧ b'.head? = b.head?) ∨
    ∃ a₀ b₀, a = a₀ ++ "@\x7bline:".toList ∧ m ++ b = target ++ ("\x7d@".toList ++ b₀) := by
  rcases h.cut hx with ⟨a', s', rfl, ha, hs⟩ | ⟨a₀, p₁, p₂, b₀, rfl, hb, hp, _, hp₂⟩
  · obtain ⟨b', rfl, hb⟩ := hs.keep_left rfl (lineHole_ne_nil _) fun c hc hmem => by
      obtain rfl : '@' = c := by simpa [lineHole] using hc
      exact hm.not_mem (by decide) (by decide) hmem
    have hno' := hno.inside (show m ++ b <:+: x by rw [hx]; exact (List.suffix_append ..).isInfix)
    exact .inl ⟨a', b', rfl, ha, hb, head_after_marker htarget hm hb hno'⟩
  · right
    obtain ⟨c, p₂, rfl⟩ := List.exists_cons_of_ne_nil hp₂
    obtain ⟨t, ht⟩ := hm.head
    obtain rfl : 'M' = c := by
      rw [ht] at hb
      exact (List.cons.inj hb).1
    obtain ⟨rfl, hp₂⟩ := before_marker_in_lineHole htarget hp
    refine ⟨a₀, b₀, rfl, ?_⟩
    rw [hb, hp₂, lineClose_eq]
    simp

/-- **A substitution puts no placeholder behind a marker.** -/
theorem noHoleAfterMarker_step (htarget : Marker target) (hd : Digits d)
    (h : Rewrites (lineHole target) d x y) (hno : NoHoleAfterMarker x) : NoHoleAfterMarker y := by
  rintro m t hm ht ⟨a', v, hy⟩
  have hopen : ∀ c ∈ "@\x7bline:".toList, c.isDigit = false := by rw [lineOpen_eq]; decide
  have hclose : ∀ c ∈ "\x7d@".toList, c.isDigit = false := by rw [lineClose_eq]; decide
  have hhole : lineHole t ++ v = "@\x7bline:".toList ++ (t ++ ("\x7d@".toList ++ v)) := by
    rw [lineOpen_eq, lineClose_eq, lineHole]
    simp
  rw [List.append_assoc, List.append_assoc, hhole] at hy
  obtain ⟨a, b, hx, _, hb, _⟩ := back htarget hd hm h hno hy.symm
  -- the parts of the placeholder are kept one after the other
  obtain ⟨b₁, rfl, hb₁⟩ := keep_back hd hb hopen
  have hin : b₁ <:+: x := ⟨a ++ (m ++ "@\x7bline:".toList), [], by rw [hx]; simp⟩
  obtain ⟨b₂, rfl, hb₂⟩ := marker_back htarget hd ht hb₁ (hno.inside hin)
  obtain ⟨b₃, rfl, _⟩ := keep_back hd hb₂ hclose
  refine hno m t hm ht ⟨a, b₃, ?_⟩
  rw [hx, lineHole, lineOpen_eq, lineClose_eq]
  simp

theorem separate_step (hd : Digits d) (h : Rewrites (lineHole target) d x y) (hx : Separate x) :
    Separate y := by
  rintro ⟨a', t, hy⟩
  have hshared : ∀ c ∈ "\x7d@\x7bline:".toList, c.isDigit = false := by rw [shared_eq]; decide
  have hcut : NoDigit ("\x7d@\x7bline:".toList ++ t) := by
    intro c hc
    refine hshared c ?_
    rw [shared_eq] at hc ⊢
    exact List.mem_of_head? hc
  rw [List.append_assoc] at hy
  obtain ⟨a, s, rfl, _, hs⟩ := cut_before hd h.symm hy.symm hcut
  obtain ⟨s', rfl, _⟩ := keep_back hd hs hshared
  exact hx ⟨a, s', by rw [List.append_assoc]⟩

theorem shows_iff_getLast : Shows m l ↔
    ∃ a b, l = a ++ (m ++ b) ∧ ∃ c ∈ a.getLast?, c ≠ ':' := by
  constructor
  · rintro ⟨a, c, b, rfl, hc⟩
    exact ⟨a ++ [c], b, by simp, c, by simp, hc⟩
  · rintro ⟨a, b, rfl, c, hc, hne⟩
    obtain ⟨a, rfl⟩ := List.getLast?_eq_some_iff.mp hc
    exact ⟨a, c, b, by simp, hne⟩

/-- Neither a placeholder nor a number ends with a colon. -/
theorem before_colon_iff (hd : Digits d) {a' : Text} (h : Rewrites (lineHole target) d a a') :
    (∃ c ∈ a.getLast?, c ≠ ':') ↔ ∃ c ∈ a'.getLast?, c ≠ ':' := by
  rcases h.getLast? (lineHole_ne_nil target) hd.1 with heq | ⟨ha, ha'⟩
  · rw [heq]
  · have hat : a.getLast? = some '@' := by
      rw [ha, show lineHole target = '@' :: '\x7b' :: 'l' :: 'i' :: 'n' :: 'e' :: ':' ::
        (target ++ ['\x7d']) ++ ['@'] by simp [lineHole], List.getLast?_concat]
    have hdigit : a'.getLast? = some (d.getLast hd.1) := by
      rw [ha', List.getLast?_eq_some_getLast hd.1]
    have hcolon : d.getLast hd.1 ≠ ':' := by
      intro heq
      have h := hd.2 _ (List.getLast_mem hd.1)
      rw [heq] at h
      cases h
    constructor
    · exact fun _ => ⟨_, hdigit, hcolon⟩
    · exact fun _ => ⟨'@', hat, by decide⟩

/-- **What `find_line` sees of a marker stays.** -/
theorem shows_step (htarget : Marker target) (hd : Digits d) (hm : Marker m)
    (h : Rewrites (lineHole target) d l l') (hno : NoHoleAfterMarker l) :
    Shows m l ↔ Shows m l' := by
  rw [shows_iff_getLast, shows_iff_getLast]
  constructor
  · rintro ⟨a, b, hl, hc⟩
    rcases forth htarget hm h hno hl with ⟨a', b', hl', ha, _, _⟩ | ⟨a₀, b₀, rfl, _⟩
    · exact ⟨a', b', hl', (before_colon_iff hd ha).mp hc⟩
    · -- the target of a placeholder comes after a colon
      obtain ⟨c, hc, hne⟩ := hc
      rw [lineOpen_eq, List.getLast?_append] at hc
      exact absurd (Option.some.inj hc).symm hne
  · rintro ⟨a', b', hl', hc⟩
    obtain ⟨a, b, hl, ha, _, _⟩ := back htarget hd hm h hno hl'
    exact ⟨a, b, hl, (before_colon_iff hd ha).mpr hc⟩

theorem wordEnd_congr {b b' : Text} (h : b'.head? = b.head?) : WordEnd b' ↔ WordEnd b := by
  rw [WordEnd, WordEnd, h]

theorem noDigit_close (b : Text) : NoDigit ("\x7d@".toList ++ b) := by
  rw [lineClose_eq]
  intro c hc
  obtain rfl : '\x7d' = c := by simpa using hc
  decide

/-- A whole marker outside the placeholders stays. -/
theorem carriesOutside_forth (htarget : Marker target) (hd : Digits d) (hm : Marker m)
    (h : Rewrites (lineHole target) d l l') (hno : NoHoleAfterMarker l)
    (hl : CarriesOutside m l) : CarriesOutside m l' := by
  obtain ⟨a, b, hl, hb, hout⟩ := hl
  rcases forth htarget hm h hno hl with ⟨a', b', hl', ha, hb', hhead⟩ | ⟨a₀, b₀, rfl, heq⟩
  · refine ⟨a', b', hl', (wordEnd_congr hhead).mpr hb, ?_⟩
    rintro ⟨⟨a₁, rfl⟩, b₁, rfl⟩
    have hopen : ∀ c ∈ "@\x7bline:".toList, c.isDigit = false := by rw [lineOpen_eq]; decide
    have hclose : ∀ c ∈ "\x7d@".toList, c.isDigit = false := by rw [lineClose_eq]; decide
    have hcut : NoDigit "@\x7bline:".toList := by
      rw [lineOpen_eq]
      intro c hc
      obtain rfl : '@' = c := by simpa using hc
      decide
    obtain ⟨a₂, s, rfl, _, hs⟩ := cut_before hd ha.symm rfl hcut
    rw [← List.append_nil "@\x7bline:".toList] at hs
    obtain ⟨s', rfl, hs'⟩ := keep_back hd hs hopen
    obtain rfl := (hs'.nil_iff (lineHole_ne_nil _) hd.1).mpr rfl
    obtain ⟨b₂, rfl, _⟩ := keep_back hd hb' hclose
    exact hout ⟨⟨a₂, by rw [List.append_nil]⟩, b₂, rfl⟩
  · obtain ⟨_, rfl⟩ := marker_unique hm htarget hb.noDigit (noDigit_close b₀) heq
    exact absurd ⟨⟨a₀, rfl⟩, b₀, rfl⟩ hout

/-- The start of a placeholder is kept, if the one before does not end in its `@`. -/
theorem open_kept (htarget : Marker target) {a₀ a' : Text}
    (h : Rewrites (lineHole target) d (a₀ ++ "@\x7bline:".toList) a')
    (hsep : Separate (a₀ ++ "@\x7bline:".toList)) : "@\x7bline:".toList <:+ a' := by
  rcases h.cut rfl with ⟨a₁, s, rfl, _, hs⟩ | ⟨a₁, p₁, p₂, b₀, rfl, hopen, hp, hp₁, hp₂⟩
  · have hno : '\x7d' ∉ "@\x7bline:".toList := by rw [lineOpen_eq]; decide
    rw [hs.eq_of_absent fun hin => hno (hin.subset (by simp [lineHole]))]
    exact List.suffix_append ..
  · obtain ⟨c, p₁, rfl⟩ := List.exists_cons_of_ne_nil hp₁
    obtain ⟨c', p₂, rfl⟩ := List.exists_cons_of_ne_nil hp₂
    obtain rfl : '@' = c' := by
      rw [lineOpen_eq] at hopen
      exact (List.cons.inj hopen).1
    have hat : '@' ∉ target := htarget.not_mem (by decide) (by decide)
    have hinner : '@' ∉ '\x7b' :: 'l' :: 'i' :: 'n' :: 'e' :: ':' :: (target ++ ['\x7d']) := by
      simp [hat]
    have hsplit : '\x7b' :: 'l' :: 'i' :: 'n' :: 'e' :: ':' :: (target ++ ['\x7d']) ++ '@' :: [] =
        p₁ ++ '@' :: p₂ := by
      refine Eq.trans ?_ (List.cons.inj hp).2
      simp
    obtain ⟨rfl, _, _⟩ := (List.append_cons_inj_of_notMem hinner List.not_mem_nil).mp hsplit
    refine absurd ⟨a₁ ++ c :: '\x7b' :: 'l' :: 'i' :: 'n' :: 'e' :: ':' :: target, [], ?_⟩ hsep
    rw [shared_eq, lineOpen_eq]
    simp

/-- The end of a placeholder is kept, if the next one does not start in its `@`. -/
theorem close_kept {b₀ b' : Text} (h : Rewrites (lineHole target) d ("\x7d@".toList ++ b₀) b')
    (hsep : Separate ("\x7d@".toList ++ b₀)) : "\x7d@".toList <+: b' := by
  rw [lineClose_eq] at h hsep ⊢
  obtain ⟨s, rfl, hs⟩ := h.keep_left (show _ = ['\x7d'] ++ '@' :: b₀ from rfl)
    (lineHole_ne_nil target) (by simp [lineHole])
  generalize ht : '@' :: b₀ = t at hs
  cases hs with
  | nil => cases ht
  | keep c _ =>
    obtain ⟨rfl, _⟩ := List.cons.inj ht
    exact ⟨_, rfl⟩
  | @hit t s _ =>
    refine absurd ⟨[], target ++ ['\x7d', '@'] ++ t, ?_⟩ hsep
    rw [shared_eq, show ['\x7d', '@'] ++ b₀ = '\x7d' :: '@' :: b₀ from rfl, ht]
    simp [lineHole]

/-- Where no placeholders share an `@`, none is made of parts of others. -/
theorem carriesOutside_back (htarget : Marker target) (hd : Digits d) (hm : Marker m)
    (h : Rewrites (lineHole target) d l l') (hno : NoHoleAfterMarker l) (hsep : Separate l)
    (hl' : CarriesOutside m l') : CarriesOutside m l := by
  obtain ⟨a', b', hl', hb', hout⟩ := hl'
  obtain ⟨a, b, hl, ha, hb, hhead⟩ := back htarget hd hm h hno hl'
  refine ⟨a, b, hl, (wordEnd_congr hhead).mp hb', ?_⟩
  rintro ⟨⟨a₀, rfl⟩, b₀, rfl⟩
  have hleft : a₀ ++ "@\x7bline:".toList <:+: l := by
    rw [hl]
    exact (List.prefix_append ..).isInfix
  have hright : "\x7d@".toList ++ b₀ <:+: l := by
    rw [hl, ← List.append_assoc]
    exact (List.suffix_append ..).isInfix
  exact hout ⟨open_kept htarget ha (hsep.inside hleft), close_kept hb (hsep.inside hright)⟩

end

/-! ## The whole run -/

/-- `l'` is what the substitutions make of the line `l`. -/
structure Agree (l l' : Text) : Prop where
  shows : ∀ m, Marker m → (Shows m l ↔ Shows m l')
  carries : ∀ m, Marker m → CarriesOutside m l → CarriesOutside m l'
  separate : Separate l → Separate l'
  carriesBack : Separate l → ∀ m, Marker m → CarriesOutside m l' → CarriesOutside m l

theorem Agree.refl (l : Text) : Agree l l :=
  ⟨fun _ _ => Iff.rfl, fun _ _ => id, id, fun _ _ _ => id⟩

theorem Agree.trans {l l' l'' : Text} (h : Agree l l') (h' : Agree l' l'') : Agree l l'' where
  shows m hm := (h.shows m hm).trans (h'.shows m hm)
  carries m hm hl := h'.carries m hm (h.carries m hm hl)
  separate hl := h'.separate (h.separate hl)
  carriesBack hl m hm hl'' := h.carriesBack hl m hm (h'.carriesBack (h.separate hl) m hm hl'')

theorem agree_step (htarget : Marker target) (hd : Digits d)
    (h : Rewrites (lineHole target) d l l') (hno : NoHoleAfterMarker l) : Agree l l' where
  shows _ hm := shows_step htarget hd hm h hno
  carries _ hm hl := carriesOutside_forth htarget hd hm h hno hl
  separate hl := separate_step hd h hl
  carriesBack hl _ hm hl' := carriesOutside_back htarget hd hm h hno hl hl'

/-- **One substitution, line by line.** -/
theorem lines_agree (htarget : Marker target) (hd : Digits d)
    (h : Rewrites (lineHole target) d x y) (hno : NoHoleAfterMarker x) :
    List.Forall₂ Agree (split x) (split y) := by
  have hnl : '\n' ∉ lineHole target := by
    have := htarget.not_mem (c := '\n') (by decide) (by decide)
    simp [lineHole, this]
  have hlines := h.splitOn hnl (not_mem_of_isDigit hd.2 (by decide))
  have hboth := (List.forall₂_and_left _ _).mpr
    ⟨fun l hl => hno.inside (infix_of_mem_splitOn hl), hlines⟩
  exact hboth.imp fun l l' ⟨hl, h⟩ => agree_step htarget hd h hl

theorem forall₂_trans {ls ls' ls'' : List Text} (h : List.Forall₂ Agree ls ls')
    (h' : List.Forall₂ Agree ls' ls'') : List.Forall₂ Agree ls ls'' := by
  induction h generalizing ls'' with
  | nil => exact h'
  | cons hl _ ih =>
    cases h' with
    | cons hl' h' => exact .cons (hl.trans hl') (ih h')

/-! ## What the code does for a marker -/

theorem Marker.plain (hm : Marker m) : ∀ c ∈ m, plainChar c = true := by
  obtain ⟨ds, rfl, hds⟩ := hm
  have hletters : ∀ c ∈ markerText, plainChar c = true := by rw [markerText_eq]; decide
  intro c hc
  rcases List.mem_append.mp hc with hc | hc
  · exact hletters c hc
  · have h := nameChar_of_word (.inl (show c.isAlphanum = true by simp [Char.isAlphanum, hds c hc]))
    simp only [nameChar, Bool.and_eq_true] at h
    exact h.1.1.1

theorem linePattern_eq (m : Text) : linePattern m =
    ['@', '\\', '\x7b', 'l', 'i', 'n', 'e', ':'] ++ m ++ ['\\', '\x7d', '@'] := by
  have hopen : "@\\\x7bline:".toList = ['@', '\\', '\x7b', 'l', 'i', 'n', 'e', ':'] := by
    rw [String.toList_ofList]
  have hclose : "\\\x7d@".toList = ['\\', '\x7d', '@'] := by rw [String.toList_ofList]
  exact congrArg₂ (fun a b => a ++ m ++ b) hopen hclose

/-- The pattern made for a plain target spells its placeholder. -/
theorem literally_linePattern (hm : ∀ c ∈ m, plainChar c = true) :
    Literally (linePattern m) (lineHole m) := by
  have hend : Literally ['\\', '\x7d', '@'] ['\x7d', '@'] :=
    .escaped (by decide) (.plain (by decide) .nil)
  have hline : ∀ c ∈ ['l', 'i', 'n', 'e', ':'], plainChar c = true := by decide
  have htarget := Literally.plain_append hline (.plain_append hm hend)
  have h : Literally ('@' :: '\\' :: '\x7b' :: _) ('@' :: '\x7b' :: _) :=
    .plain (by decide) (.escaped (by decide) htarget)
  rw [linePattern_eq, List.append_assoc]
  exact h

theorem findPattern_marker (hm : Marker m) : findPattern m = .ok (cls (· != ':') ++ lit m) := by
  have hquantify : quantify (cls (· != ':')) m = (cls (· != ':'), m) := by
    obtain ⟨t, rfl⟩ := hm.head
    rfl
  simp only [findPattern, hquantify, compile_literally (literally_of_plain hm.plain)]

theorem search_marker_iff (m line : Text) :
    (search (cls (· != ':') ++ lit m) line).isSome ↔ Shows m line := by
  rw [search_isSome_iff]
  constructor
  · rintro ⟨a, u, t, rfl, h⟩
    obtain ⟨s, hs, ht⟩ := (steps_seq_iff _ _ _ _).mp h
    obtain ⟨c, hc, hu, _⟩ := (steps_cls_iff _ _ _).mp hs
    obtain ⟨hrest, _⟩ := (steps_lit_iff _ _ _).mp ht
    exact ⟨a, c, t.rest, by rw [show u = c :: s.rest from hu, hrest], by simpa using hc⟩
  · rintro ⟨a, c, b, rfl, hc⟩
    refine ⟨a, c :: (m ++ b), ⟨b, []⟩, rfl, .seq (.cls (by simpa using hc)) ?_⟩
    exact (steps_lit_iff _ _ _).mpr ⟨rfl, rfl⟩

/-- The loop counts on to the first line that has a match. -/
theorem findLoop_ok_iff {r : Regex} {q : Text → Prop}
    (hq : ∀ line, (search r line).isSome ↔ q line) (message : Text) (ls : List Text) (k n : Nat) :
    findLoop r message k ls = .ok n ↔ ∃ j, FirstWith q ls j ∧ n + 1 = k + j := by
  induction ls generalizing k with
  | nil =>
    constructor
    · intro h; cases h
    · rintro ⟨j, h, _⟩; cases h
  | cons line ls ih =>
    rw [findLoop]
    by_cases hline : q line
    · rw [if_pos ((hq line).mpr hline), Except.ok.injEq]
      constructor
      · intro h
        exact ⟨1, .here hline, by omega⟩
      · rintro ⟨j, hj, hn⟩
        have := hj.unique (.here hline)
        omega
    · rw [if_neg fun h => hline ((hq line).mp h), ih]
      constructor
      · rintro ⟨j, hj, hn⟩
        exact ⟨j + 1, .there hline hj, by omega⟩
      · rintro ⟨j, hj, hn⟩
        cases hj with
        | here h => exact absurd h hline
        | @there _ _ j _ hj => exact ⟨j, hj, by omega⟩

/-- **`find_line` finds the first line that shows the marker.** -/
theorem findLine_marker (hm : Marker m) (content filename : Text) (n : Nat) :
    findLine content m filename = .ok n ↔ FirstWith (Shows m) (split content) n := by
  simp only [findLine, findPattern_marker hm, findLoop_ok_iff (search_marker_iff m)]
  constructor
  · rintro ⟨j, hj, hn⟩
    obtain rfl : n = j := by omega
    exact hj
  · exact fun h => ⟨n, h, by omega⟩

/-- A round of the loop finds a line and puts in its number. -/
theorem lineStep_marker {filename : Text} {n : Nat} (hm : Marker m)
    (h : lineStep filename x = some (.ok (m, n, y))) :
    FirstWith (Shows m) (split x) n ∧ Rewrites (lineHole m) (natText n) x y := by
  have hback : '\\' ∉ natText n := not_mem_of_isDigit (natText_digits n) (by decide)
  rw [lineStep, Option.map_eq_some_iff] at h
  obtain ⟨found, _, h⟩ := h
  simp only at h
  split at h
  · cases hline : findLine x ((found.group 2).getD []) filename with
    | error e => simp [hline] at h
    | ok k =>
      simp only [hline] at h
      cases hsub : subText (linePattern ((found.group 2).getD [])) (natText k) x with
      | error e => simp [hsub] at h
      | ok z =>
        simp only [hsub, Except.ok.injEq, Prod.mk.injEq] at h
        obtain ⟨htarget, rfl, rfl⟩ := h
        rw [htarget] at hline hsub
        rw [subText_literally (literally_linePattern hm.plain) hback, Except.ok.injEq] at hsub
        refine ⟨(findLine_marker hm x filename k).mp hline, ?_⟩
        rw [← hsub]
        exact rewrites_sub (lineHole_ne_nil m) _ _
  · cases h

/-- **Every text of a run agrees with the last one**, line by line, and each
number is that of the first line that shows the marker in the text written. -/
theorem resolves_agree {filename : Text} {tr : List (Text × Nat)} {z : Text}
    (h : Resolves filename x tr z) (hmarkers : ∀ e ∈ tr, Marker e.1)
    (hno : NoHoleAfterMarker x) :
    List.Forall₂ Agree (split x) (split z) ∧
      ∀ e ∈ tr, FirstWith (Shows e.1) (split z) e.2 := by
  induction h with
  | done _ => exact ⟨List.forall₂_same.mpr fun l _ => Agree.refl l, fun e he => by cases he⟩
  | @step x target n y tr z hstep _ ih =>
    have htarget : Marker target := hmarkers _ (List.mem_cons_self ..)
    obtain ⟨hfirst, hrewrites⟩ := lineStep_marker htarget hstep
    have hd := digits_natText n
    obtain ⟨hlines, hrest⟩ := ih (fun e he => hmarkers e (List.mem_cons_of_mem _ he))
      (noHoleAfterMarker_step htarget hd hrewrites hno)
    have hall := forall₂_trans (lines_agree htarget hd hrewrites hno) hlines
    refine ⟨hall, fun e he => ?_⟩
    rcases List.mem_cons.mp he with rfl | he
    · exact hfirst.congr (hall.imp fun l l' hl => hl.shows _ htarget)
    · exact hrest e he

end

/-! ## The references of the files written -/

variable {filename x z : Text} {tr : List (Text × Nat)}

/-- **Line references stay true in the file written**, whatever the text with
which the second loop starts: each number put in is the one `find_line` gives on
the final text. -/
theorem line_references_stay (h : Resolves filename x tr z)
    (hmarkers : ∀ e ∈ tr, Marker e.1) (hno : NoHoleAfterMarker x) :
    ∀ e ∈ tr, findLine z e.1 filename = .ok e.2 ∧ FirstWith (Shows e.1) (split z) e.2 := by
  intro e he
  have hfirst := (resolves_agree h hmarkers hno).2 e he
  exact ⟨(findLine_marker (hmarkers e he) _ _ _).mpr hfirst, hfirst⟩

/-- The line of that number, counted from one, has the target as a whole marker. -/
def LineCarries (content : Text) (n : Nat) (target : Text) : Prop :=
  ∃ l, (split content)[n - 1]? = some l ∧ Carries target l

/-- The first line that shows the target has it as a whole marker, outside the
placeholders that are still there. -/
def FirstCarries (content target : Text) : Prop :=
  ∃ n l, FirstWith (Shows target) (split content) n ∧ (split content)[n - 1]? = some l ∧
    CarriesOutside target l

theorem lineStep_eq_none_iff (filename output : Text) :
    lineStep filename output = none ↔ search linePlaceholder output = none :=
  Option.map_eq_none_iff

theorem Resolves.final (h : Resolves filename x tr z) : search linePlaceholder z = none := by
  induction h with
  | done hstep => exact (lineStep_eq_none_iff _ _).mp hstep
  | step _ _ ih => exact ih

/-- What the second loop looks for. -/
theorem steps_linePlaceholder_iff (s : Text) (t : State) : Steps linePlaceholder ⟨s, []⟩ t ↔
    ∃ kind target, '@' ∉ kind ∧ ':' ∉ kind ∧ '@' ∉ target ∧
      s = '@' :: '\x7b' :: (kind ++ ':' :: (target ++ '\x7d' :: '@' :: t.rest)) ∧
      t.groups = [(2, target), (1, kind)] := by
  have hopen : chars "@\x7b" = lit ['@', '\x7b'] := by rw [chars, String.toList_ofList]
  have hcolon : chars ":" = lit [':'] := by rw [chars, String.toList_ofList]
  have hclose : chars "\x7d@" = lit ['\x7d', '@'] := by rw [chars, String.toList_ofList]
  have hkind (u : Text) : (∀ c ∈ u, nameClass c = true) ↔ '@' ∉ u ∧ ':' ∉ u := by
    simp only [nameClass, Bool.and_eq_true, bne_iff_ne]
    exact ⟨fun h => ⟨fun hmem => (h _ hmem).1 rfl, fun hmem => (h _ hmem).2 rfl⟩,
      fun h c hc => ⟨fun heq => h.1 (heq ▸ hc), fun heq => h.2 (heq ▸ hc)⟩⟩
  have htarget (u : Text) : (∀ c ∈ u, (c != '@') = true) ↔ '@' ∉ u := by
    simp only [bne_iff_ne]
    exact ⟨fun h hmem => h _ hmem rfl, fun h c hc heq => h (heq ▸ hc)⟩
  simp only [linePlaceholder, append_eq_seq, hopen, hcolon, hclose, steps_seq_iff, steps_lit_iff,
    steps_group_iff, many, steps_star_cls_iff, hkind, htarget]
  constructor
  · rintro ⟨t₁, ⟨hs, hg₁⟩, t₂, ⟨t₂', ⟨kind, hkind, hclass, hg₂⟩, rfl⟩, t₃, ⟨ht₂, hg₃⟩, t₄,
      ⟨t₄', ⟨target, htarget, hat, hg₄⟩, rfl⟩, ht₄, hg⟩
    refine ⟨kind, target, hclass.1, hclass.2, hat, ?_, ?_⟩
    · rw [hs, hkind, ht₂, htarget, ht₄]
      rfl
    · rw [hg, hg₄, hg₃, hg₂, hg₁, htarget, hkind]
      simp
  · rintro ⟨kind, target, hk, hcolon, ht, rfl, hg⟩
    let close : Text := '\x7d' :: '@' :: t.rest
    exact ⟨⟨kind ++ ':' :: (target ++ close), []⟩, ⟨rfl, rfl⟩,
      ⟨':' :: (target ++ close), [(1, kind)]⟩,
      ⟨⟨':' :: (target ++ close), []⟩, ⟨kind, rfl, ⟨hk, hcolon⟩, rfl⟩, by simp⟩,
      ⟨target ++ close, [(1, kind)]⟩, ⟨rfl, rfl⟩, ⟨close, [(2, target), (1, kind)]⟩,
      ⟨⟨close, [(1, kind)]⟩, ⟨target, rfl, ht, rfl⟩, by simp⟩, rfl, hg⟩

/-- The loop looks for the placeholders of plain targets. -/
theorem steps_linePlaceholder {m : Text} (hat : '@' ∉ m) (b : Text) :
    Steps linePlaceholder ⟨lineHole m ++ b, []⟩ ⟨b, [(2, m), (1, ['l', 'i', 'n', 'e'])]⟩ :=
  (steps_linePlaceholder_iff _ _).mpr
    ⟨['l', 'i', 'n', 'e'], m, by decide, by decide, hat, by simp [lineHole], rfl⟩

/-- A text that the loop ends with has no line placeholder of a marker. -/
theorem no_lineHole {m : Text} (hm : Marker m) (hz : search linePlaceholder z = none) :
    ¬ lineHole m <:+: z := by
  rintro ⟨a, b, rfl⟩
  have hsearch : (search linePlaceholder (a ++ lineHole m ++ b)).isSome :=
    (search_isSome_iff _ _).mpr
      ⟨a, lineHole m ++ b, _, List.append_assoc ..,
        steps_linePlaceholder (hm.not_mem (by decide) (by decide)) b⟩
  rw [hz] at hsearch
  cases hsearch

private theorem getElem?_of_forall₂ {ls ls' : List Text} (h : List.Forall₂ Agree ls ls') {i : Nat}
    {l : Text} : (ls[i]? = some l → ∃ l', ls'[i]? = some l' ∧ Agree l l') ∧
      (ls'[i]? = some l → ∃ l', ls[i]? = some l' ∧ Agree l' l) := by
  induction h generalizing i with
  | nil => simp
  | @cons l₁ l₁' ls ls' hl _ ih =>
    cases i with
    | zero =>
      constructor
      · intro h
        obtain rfl : l₁ = l := by simpa using h
        exact ⟨l₁', rfl, hl⟩
      · intro h
        obtain rfl : l₁' = l := by simpa using h
        exact ⟨l₁, rfl, hl⟩
    | succ i => exact ih

/-- Without placeholders a marker is outside of them. -/
theorem carriesOutside_of_carries {m l : Text} (hl : Carries m l) (hno : ¬ lineHole m <:+: l) :
    CarriesOutside m l := by
  obtain ⟨a, b, rfl, hb⟩ := hl
  refine ⟨a, b, rfl, hb, ?_⟩
  rintro ⟨⟨a₀, rfl⟩, b₀, rfl⟩
  refine hno ⟨a₀, b₀, ?_⟩
  rw [lineOpen_eq, lineClose_eq, lineHole]
  simp

/-- **Which references point at their own marker**: those whose first line has
it as a whole marker already when the first loop is done. -/
theorem line_references_whole (h : Resolves filename x tr z)
    (hmarkers : ∀ e ∈ tr, Marker e.1) (hno : NoHoleAfterMarker x) :
    ∀ e ∈ tr, (FirstCarries x e.1 → LineCarries z e.2 e.1) ∧
      (Separate x → LineCarries z e.2 e.1 → FirstCarries x e.1) := by
  intro e he
  have hm := hmarkers e he
  obtain ⟨hlines, hall⟩ := resolves_agree h hmarkers hno
  have hfirst : FirstWith (Shows e.1) (split x) e.2 :=
    (hall e he).congr (hlines.flip.imp fun l' l hl => (hl.shows _ hm).symm)
  constructor
  · rintro ⟨n, l, hn, hget, hl⟩
    obtain rfl := hn.unique hfirst
    obtain ⟨l', hget', hagree⟩ := (getElem?_of_forall₂ hlines).1 hget
    obtain ⟨a, b, hl', hb, _⟩ := hagree.carries _ hm hl
    exact ⟨l', hget', a, b, hl', hb⟩
  · rintro hsep ⟨l', hget', hl'⟩
    obtain ⟨l, hget, hagree⟩ := (getElem?_of_forall₂ hlines).2 hget'
    have hin : l' <:+: z := infix_of_mem_splitOn (List.mem_of_getElem? hget')
    have hin' : l <:+: x := infix_of_mem_splitOn (List.mem_of_getElem? hget)
    have hout := carriesOutside_of_carries hl'
      fun hhole => no_lineHole hm h.final (hhole.trans hin)
    exact ⟨e.2, l, hfirst, hget, hagree.carriesBack (hsep.inside hin') _ hm hout⟩

/-! ## A file with two markers -/

instance (t : Text) : Decidable (WordEnd t) :=
  decidable_of_iff (t.head?.all (fun c => !c.isAlphanum) = true) (by cases t <;> simp [WordEnd])

theorem carries_iff_tails (target line : Text) :
    Carries target line ↔ ∃ t ∈ line.tails, target <+: t ∧ WordEnd (t.drop target.length) := by
  constructor
  · rintro ⟨a, b, rfl, hb⟩
    refine ⟨target ++ b, (List.mem_tails _ _).mpr (List.suffix_append ..), List.prefix_append .., ?_⟩
    rwa [List.drop_left]
  · rintro ⟨t, ht, ⟨b, rfl⟩, hb⟩
    obtain ⟨a, rfl⟩ := (List.mem_tails _ _).mp ht
    rw [List.drop_left] at hb
    exact ⟨a, b, rfl, hb⟩

instance (target line : Text) : Decidable (Carries target line) :=
  decidable_of_iff _ (carries_iff_tails target line).symm

theorem mem_zip_tail (a b : Text) (c d : Char) :
    (c, d) ∈ (a ++ c :: d :: b).zip (a ++ c :: d :: b).tail := by
  induction a with
  | nil => simp
  | cons e a ih =>
    cases a with
    | nil => simp
    | cons f a => exact List.mem_cons_of_mem _ ih

/-- It is enough to look at the characters before the `@`s. -/
theorem noHoleAfterMarker_of_pairs (h : ∀ p ∈ x.zip x.tail, p.2 = '@' →
    p.1.isDigit = false ∧ p.1 ≠ 'R') : NoHoleAfterMarker x := by
  rintro m t ⟨ds, rfl, hds⟩ _ ⟨a, b, rfl⟩
  obtain ⟨m, c, hm, hc⟩ : ∃ m c, markerText ++ ds = m ++ [c] ∧ (c.isDigit = true ∨ c = 'R') := by
    rcases List.eq_nil_or_concat ds with rfl | ⟨ds, c, rfl⟩
    · exact ⟨['M', 'B', 'I', 'E', 'R', 'R', 'O'], 'R', by rw [markerText_eq]; rfl, .inr rfl⟩
    · exact ⟨markerText ++ ds, c, by simp, .inl (hds c (by simp))⟩
  have hpair := mem_zip_tail (a ++ m) ((lineHole t).tail ++ b) c '@'
  rw [show a ++ m ++ c :: '@' :: ((lineHole t).tail ++ b) =
    a ++ (markerText ++ ds ++ lineHole t) ++ b by rw [hm, lineHole]; simp] at hpair
  obtain ⟨hdigit, hne⟩ := h _ hpair rfl
  rcases hc with hc | hc
  · rw [hc] at hdigit
    cases hdigit
  · exact hne hc

def sampleLines : Text :=
  "/* MBIERROR1 */\n/* MBIERROR */\n".toList ++
    "at @\x7bline:MBIERROR1\x7d@ and @\x7bline:MBIERROR\x7d@\n".toList

def sampleTrace : List (Text × Nat) := [("MBIERROR1".toList, 1), ("MBIERROR".toList, 1)]

def sampleWritten : Text := "/* MBIERROR1 */\n/* MBIERROR */\nat 1 and 1\n".toList

theorem sampleLines_writes :
    Writes sampleLines "a.c".toList [] sampleLines sampleTrace sampleWritten := by
  constructor
  · exact ⟨1, by decide⟩
  · have h₁ : lineStep (shortFilename "a.c".toList) sampleLines = some (.ok ("MBIERROR1".toList, 1,
        "/* MBIERROR1 */\n/* MBIERROR */\nat 1 and @\x7bline:MBIERROR\x7d@\n".toList)) := by
      decide
    have h₂ : lineStep (shortFilename "a.c".toList)
        "/* MBIERROR1 */\n/* MBIERROR */\nat 1 and @\x7bline:MBIERROR\x7d@\n".toList =
          some (.ok ("MBIERROR".toList, 1, sampleWritten)) := by decide
    have h₃ : lineStep (shortFilename "a.c".toList) sampleWritten = none := by decide
    exact .step h₁ (.step h₂ (.done h₃))

theorem sampleTrace_markers : ∀ e ∈ sampleTrace, Marker e.1 := by
  have h : ∀ e ∈ sampleTrace, markerText <+: e.1 ∧
      ∀ c ∈ e.1.drop markerText.length, c.isDigit = true := by decide
  intro e he
  obtain ⟨⟨ds, hds⟩, hdigits⟩ := h e he
  rw [← hds, List.drop_left] at hdigits
  exact ⟨ds, hds.symm, hdigits⟩

theorem sampleLines_noHole : NoHoleAfterMarker sampleLines :=
  noHoleAfterMarker_of_pairs (by decide)

/-- Both numbers of the sample are what `find_line` gives at the end. -/
theorem line_references_stay_sample :
    (findLine sampleWritten "MBIERROR1".toList (shortFilename "a.c".toList) = .ok 1 ∧
        FirstWith (Shows "MBIERROR1".toList) (split sampleWritten) 1) ∧
      findLine sampleWritten "MBIERROR".toList (shortFilename "a.c".toList) = .ok 1 ∧
        FirstWith (Shows "MBIERROR".toList) (split sampleWritten) 1 := by
  have h := line_references_stay sampleLines_writes.resolves sampleTrace_markers sampleLines_noHole
  exact ⟨h _ List.mem_cons_self, h _ (List.mem_cons_of_mem _ List.mem_cons_self)⟩

/-- The first line has the marker with the digit as a whole. -/
theorem line_references_whole_sample :
    (FirstCarries sampleLines "MBIERROR1".toList → LineCarries sampleWritten 1 "MBIERROR1".toList) ∧
      (Separate sampleLines → LineCarries sampleWritten 1 "MBIERROR1".toList →
        FirstCarries sampleLines "MBIERROR1".toList) :=
  line_references_whole sampleLines_writes.resolves sampleTrace_markers sampleLines_noHole _
    List.mem_cons_self

/-- The marker without a digit is resolved to the line of the other one. -/
theorem line_reference_misled :
    Writes sampleLines "a.c".toList [] sampleLines sampleTrace sampleWritten ∧
      (markerText, 1) ∈ sampleTrace ∧ ¬ LineCarries sampleWritten 1 markerText := by
  refine ⟨sampleLines_writes, by decide, ?_⟩
  rintro ⟨l, hl, hcarries⟩
  have h : ∀ l ∈ (split sampleWritten)[1 - 1]?, ¬ Carries markerText l := by decide
  exact h l hl hcarries

end MpiBugs.MakeFile
