import MpiBugs.Regex
import Mathlib.Data.List.TakeWhile

/-!
# Text files read line by line

Universal newlines, the lines of a text with their terminators, and the text a
list of lines makes: `readLines_unlines` says that writing lines and reading
them back is the identity.
-/

namespace MpiBugs.TextFile

/-- Universal newlines: a carriage return, alone or before a line feed, reads as
a line feed. -/
def universalNewlines : Text → Text
  | [] => []
  | '\r' :: '\n' :: s => '\n' :: universalNewlines s
  | c :: s => (if c = '\r' then '\n' else c) :: universalNewlines s

/-- Cut after every line feed; the last line may lack one. -/
def splitLines : Text → List Text
  | [] => []
  | c :: s =>
    if c = '\n' then [c] :: splitLines s
    else
      match splitLines s with
      | [] => [[c]]
      | l :: ls => (c :: l) :: ls

/-- The lines over which a file opened for reading iterates. -/
def readLines (s : Text) : List Text := splitLines (universalNewlines s)

/-- A line without its terminator. -/
def content (l : Text) : Text := l.takeWhile (· != '\n')

/-- Text that fits on one line. -/
def OneLine (s : Text) : Prop := ∀ c ∈ s, c ≠ '\n' ∧ c ≠ '\r'

instance (s : Text) : Decidable (OneLine s) := inferInstanceAs (Decidable (∀ c ∈ s, _))

/-- A line as reading delivers it: no line feed but at its end. -/
def IsLine (l : Text) : Prop := '\n' ∉ l.dropLast

/-- Each line followed by a line feed. -/
def unlines (ls : List Text) : Text := ls.flatMap (· ++ ['\n'])

@[simp] theorem oneLine_nil : OneLine [] := by intro c hc; simp at hc

@[simp] theorem oneLine_cons (c : Char) (s : Text) :
    OneLine (c :: s) ↔ (c ≠ '\n' ∧ c ≠ '\r') ∧ OneLine s := by
  simp [OneLine]

@[simp] theorem oneLine_append (s t : Text) : OneLine (s ++ t) ↔ OneLine s ∧ OneLine t := by
  induction s with
  | nil => simp
  | cons c s ih => simp [ih, and_assoc]

theorem universalNewlines_append {s : Text} (hs : OneLine s) (t : Text) :
    universalNewlines (s ++ t) = s ++ universalNewlines t := by
  induction s with
  | nil => rfl
  | cons c s ih =>
    rw [oneLine_cons] at hs
    rw [List.cons_append, universalNewlines, if_neg hs.1.2, ih hs.2, List.cons_append]
    intro _ h
    exact absurd h hs.1.2

/-- A text may be cut anywhere but between a carriage return and its line feed. -/
theorem universalNewlines_append_right (s : Text) {t : Text} (ht : t.head? ≠ some '\n') :
    universalNewlines (s ++ t) = universalNewlines s ++ universalNewlines t := by
  induction s using universalNewlines.induct with
  | case1 => rfl
  | case2 s ih => simpa [universalNewlines] using ih
  | case3 c s hno ih =>
    have hno' : ∀ u, c = '\r' → s ++ t = '\n' :: u → False := by
      intro u hc hu
      cases s with
      | nil => exact ht (by rw [← List.nil_append t, hu]; rfl)
      | cons d s =>
        obtain ⟨rfl, _⟩ := List.cons.inj hu
        exact hno s hc rfl
    rw [List.cons_append, universalNewlines.eq_3 _ _ hno', universalNewlines.eq_3 _ _ hno, ih,
      List.cons_append]

theorem universalNewlines_newline (t : Text) :
    universalNewlines ('\n' :: t) = '\n' :: universalNewlines t := by
  simp [universalNewlines]

theorem splitLines_append {l : Text} (hl : '\n' ∉ l) (t : Text) :
    splitLines (l ++ '\n' :: t) = (l ++ ['\n']) :: splitLines t := by
  induction l with
  | nil => simp [splitLines]
  | cons c l ih =>
    simp only [List.mem_cons, not_or] at hl
    rw [List.cons_append, splitLines, if_neg (Ne.symm hl.1), ih hl.2]
    rfl

theorem OneLine.not_mem {s : Text} (h : OneLine s) : '\n' ∉ s := fun hm => (h _ hm).1 rfl

/-- **Writing lines and reading them back.** -/
theorem readLines_unlines (ls : List Text) (h : ∀ l ∈ ls, OneLine l) :
    readLines (unlines ls) = ls.map (· ++ ['\n']) := by
  induction ls with
  | nil => rfl
  | cons l ls ih =>
    have hl := h l (List.mem_cons_self ..)
    have := ih (fun l' hl' => h l' (List.mem_cons_of_mem _ hl'))
    unfold readLines unlines at *
    rw [List.flatMap_cons, List.append_assoc, universalNewlines_append hl, List.singleton_append,
      universalNewlines_newline, splitLines_append hl.not_mem, this]
    rfl

theorem content_append_newline {l : Text} (h : '\n' ∉ l) (t : Text) :
    content (l ++ '\n' :: t) = l := by
  induction l with
  | nil => simp [content]
  | cons c l ih =>
    simp only [List.mem_cons, not_or] at h
    simp only [content, List.cons_append, List.takeWhile_cons, bne_iff_ne, ne_eq,
      Ne.symm h.1, not_false_eq_true, ↓reduceIte]
    exact congrArg _ (ih h.2)

theorem content_of_not_mem {l : Text} (h : '\n' ∉ l) : content l = l := by
  unfold content
  rw [List.takeWhile_eq_self_iff]
  intro c hc
  simp only [bne_iff_ne, ne_eq]
  rintro rfl
  exact h hc

theorem isLine_cons {c : Char} {l : Text} (hc : c ≠ '\n') (hl : IsLine l) : IsLine (c :: l) := by
  cases l with
  | nil => simp [IsLine]
  | cons d l =>
    rw [IsLine, List.dropLast_cons_cons]
    exact List.not_mem_cons_of_ne_of_not_mem (Ne.symm hc) hl

theorem isLine_of_mem_splitLines (s : Text) : ∀ l ∈ splitLines s, IsLine l := by
  induction s with
  | nil => simp [splitLines]
  | cons c s ih =>
    intro l hl
    rw [splitLines] at hl
    split at hl
    · rcases List.mem_cons.mp hl with rfl | hl
      · simp [IsLine]
      · exact ih l hl
    · rename_i hc
      cases hs : splitLines s with
      | nil =>
        rw [hs, List.mem_singleton] at hl
        simp [hl, IsLine]
      | cons l' ls =>
        rw [hs] at hl ih
        rcases List.mem_cons.mp hl with rfl | hl
        · exact isLine_cons hc (ih l' (List.mem_cons_self ..))
        · exact ih l (List.mem_cons_of_mem _ hl)

theorem isLine_of_mem_readLines {s l : Text} (h : l ∈ readLines s) : IsLine l :=
  isLine_of_mem_splitLines _ l h

/-- What stands before something else on a line holds no line feed. -/
theorem IsLine.not_mem_left {u v : Text} (h : IsLine (u ++ v)) (hv : v ≠ []) : '\n' ∉ u := by
  rw [IsLine, List.dropLast_append_of_ne_nil hv] at h
  exact fun hu => h (List.mem_append_left _ hu)

theorem isLine_append_newline {l : Text} (h : '\n' ∉ l) : IsLine (l ++ ['\n']) := by
  rwa [IsLine, List.dropLast_concat]

end MpiBugs.TextFile
