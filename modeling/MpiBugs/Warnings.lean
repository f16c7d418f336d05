import MpiBugs.Batch
import MpiBugs.Verdicts

/-!
# The warnings PARCOACH counts

The branch of PARCOACH's `parse` that takes a run without warnings for a correct
one: its pattern `0 warning\(s\) issued` is not anchored on the left.

* `natText_last_zero_iff`: the numbers whose decimal text ends in a zero;
* `parcoach_ok_iff`: `OK` stands for a count of 0 unless the count is another
  multiple of ten, or the pattern is found outside the summary.
-/

namespace MpiBugs.Warnings

open Regex TextFile Header Batch RunCmd Wrappers Verdicts

/-! ## The last digit -/

theorem natText_of_lt {n : Nat} (h : n < 10) : natText n = [Nat.digitChar n] := by
  rw [natText_eq, Nat.toDigits_of_lt_base h]

theorem natText_of_le {n : Nat} (h : 10 ≤ n) :
    natText n = natText (n / 10) ++ [Nat.digitChar (n % 10)] := by
  rw [natText_eq, natText_eq, Nat.toDigits_of_base_le (by decide) h]

theorem int_append_zero (t : Text) : int (t ++ ['0']) = 10 * int t := by
  have hzero : digitValue '0' = some 0 := digitValue_of_isDigit (by decide)
  rw [int, List.foldl_append, List.foldl_cons, List.foldl_nil, hzero]
  rfl

theorem natText_ne_nil (n : Nat) : natText n ≠ [] := by
  rw [natText_eq]
  exact Nat.toDigits_ne_nil

/-- **A decimal text ends in a zero** iff the number is a multiple of ten. -/
theorem natText_last_zero_iff (n : Nat) : (∃ t, natText n = t ++ ['0']) ↔ n % 10 = 0 := by
  constructor
  · rintro ⟨t, ht⟩
    have hint := congrArg int ht
    rw [int_natText, int_append_zero] at hint
    omega
  · intro hn
    rcases Nat.lt_or_ge n 10 with hlt | hge
    · obtain rfl : n = 0 := by omega
      exact ⟨[], natText_of_lt hlt⟩
    · refine ⟨natText (n / 10), ?_⟩
      rw [natText_of_le hge, hn]
      rfl

/-! ## The summary -/

/-- What follows the count. -/
def issued : Text := " warning(s) issued".toList

/-- A count, with a blank before it, stands here. -/
structure Summary (output a : Text) (n : Nat) (b : Text) : Prop where
  split : output = a ++ ' ' :: (natText n ++ (issued ++ b))

/-- There is one summary in the output, and its count is `n`. -/
def OnlySummary (output : Text) (n : Nat) : Prop :=
  (∃ a b, Summary output a n b) ∧
    ∀ a m b a' m' b', Summary output a m b → Summary output a' m' b' → a = a' ∧ m = m'

/-- The pattern is found where no summary is: the zero does not end a count. -/
def StrayZero (output : Text) : Prop :=
  ∃ u v, output = u ++ '0' :: (issued ++ v) ∧ ∀ a m, u ++ ['0'] ≠ a ++ ' ' :: natText m

theorem zeroIssued_eq : "0 warning(s) issued".toList = '0' :: issued := by decide

/-- Where the pattern is found. -/
theorem zero_found_iff {output : Text} {n : Nat} (h : OnlySummary output n) :
    '0' :: issued <:+: output ↔ n % 10 = 0 ∨ StrayZero output := by
  obtain ⟨⟨a, b, hsum⟩, honly⟩ := h
  constructor
  · rintro ⟨u, v, huv⟩
    have hsplit : output = u ++ '0' :: (issued ++ v) := by
      rw [← huv, List.append_assoc]
      rfl
    by_cases hcount : ∃ a' m, u ++ ['0'] = a' ++ ' ' :: natText m
    · obtain ⟨a', m, hm⟩ := hcount
      have hsum' : Summary output a' m v := by
        constructor
        calc output = (u ++ ['0']) ++ (issued ++ v) := by rw [hsplit, List.append_assoc]; rfl
          _ = a' ++ ' ' :: (natText m ++ (issued ++ v)) := by
            rw [hm, List.append_assoc]
            rfl
      obtain ⟨_, rfl⟩ := honly _ _ _ _ _ _ hsum hsum'
      have hlast : (natText n).getLast? = some '0' := by
        have hends := congrArg List.getLast? hm
        rw [List.getLast?_concat, List.getLast?_append_of_ne_nil _ (List.cons_ne_nil _ _),
          List.getLast?_cons_of_ne_nil (natText_ne_nil n)] at hends
        exact hends.symm
      exact Or.inl ((natText_last_zero_iff n).mp (List.getLast?_eq_some_iff.mp hlast))
    · refine Or.inr ⟨u, v, hsplit, fun a' m hm => hcount ⟨a', m, hm⟩⟩
  · rintro (hn | ⟨u, v, hsplit, _⟩)
    · obtain ⟨t, ht⟩ := (natText_last_zero_iff n).mpr hn
      refine ⟨a ++ ' ' :: t, b, ?_⟩
      rw [hsum.split, ht]
      simp only [List.append_assoc, List.cons_append, List.nil_append]
    · refine ⟨u, v, ?_⟩
      rw [hsplit, List.append_assoc]
      rfl

theorem issued_eq : issued = " warning".toList ++ '(' :: "s) issued".toList := by decide

theorem natText_no_paren (n : Nat) : (natText n).count '(' = 0 := by
  rw [List.count_eq_zero]
  intro h
  exact absurd (natText_digits n '(' h) (by decide)

theorem count_issued : issued.count '(' = 1 := by decide

/-- A text is cut at its last blank in one way. -/
theorem last_blank_unique {a a' u u' : Text} (h : a ++ ' ' :: u = a' ++ ' ' :: u')
    (hu : ' ' ∉ u) (hu' : ' ' ∉ u') : a = a' ∧ u = u' := by
  have hrev := congrArg List.reverse h
  simp only [List.reverse_append, List.reverse_cons, List.append_assoc, List.singleton_append]
    at hrev
  obtain ⟨hr, _, hl⟩ := split_unique (P := (· = ' ')) hrev rfl rfl
    (fun x hx hb => hu (hb ▸ List.mem_reverse.mp hx))
    (fun x hx hb => hu' (hb ▸ List.mem_reverse.mp hx))
  exact ⟨List.reverse_injective hl, List.reverse_injective hr⟩

theorem natText_no_blank (n : Nat) : ' ' ∉ natText n :=
  fun h => absurd (natText_digits n ' ' h) (by decide)

/-- Without another parenthesis there is no other summary. -/
theorem onlySummary_of_paren {a b : Text} (ha : '(' ∉ a) (hb : '(' ∉ b) (n : Nat) :
    OnlySummary (a ++ ' ' :: (natText n ++ (issued ++ b))) n := by
  have hcount : (a ++ ' ' :: (natText n ++ (issued ++ b))).count '(' = 1 := by
    simp [List.count_append, natText_no_paren, count_issued, List.count_eq_zero.mpr ha,
      List.count_eq_zero.mpr hb]
  have hall : ∀ a' m b', Summary (a ++ ' ' :: (natText n ++ (issued ++ b))) a' m b' →
      a' = a ∧ m = n := by
    intro a' m b' hsum
    have hsplit := hsum.split
    rw [hsplit] at hcount
    have ha' : '(' ∉ a' := by
      rw [← List.count_eq_zero]
      simp [List.count_append, natText_no_paren, count_issued] at hcount
      omega
    have hleft : ∀ {a : Text} {k : Nat}, '(' ∉ a →
        ∀ x ∈ a ++ ' ' :: (natText k ++ " warning".toList), ¬ x = '(' := by
      rintro a k ha x hx rfl
      rw [List.mem_append, List.mem_cons, List.mem_append] at hx
      rcases hx with hx | hx | hx | hx
      · exact ha hx
      · exact absurd hx (by decide)
      · exact absurd (natText_digits k '(' hx) (by decide)
      · exact absurd hx (by decide)
    have hcut : ∀ (a b : Text) (k : Nat), a ++ ' ' :: (natText k ++ (issued ++ b)) =
        (a ++ ' ' :: (natText k ++ " warning".toList)) ++ '(' :: ("s) issued".toList ++ b) := by
      intro a b k
      simp only [issued_eq, List.append_assoc, List.cons_append]
    rw [hcut, hcut] at hsplit
    obtain ⟨hhead, _, _⟩ :=
      split_unique (P := (· = '(')) hsplit rfl rfl (hleft ha) (hleft ha')
    have hblank : a ++ ' ' :: natText n = a' ++ ' ' :: natText m := by
      refine (List.append_left_inj " warning".toList).mp ?_
      simpa only [List.append_assoc, List.cons_append] using hhead
    obtain ⟨rfl, htext⟩ := last_blank_unique hblank (natText_no_blank n) (natText_no_blank m)
    have hint := congrArg int htext
    rw [int_natText, int_natText] at hint
    exact ⟨rfl, hint.symm⟩
  refine ⟨⟨a, b, ⟨rfl⟩⟩, fun a₁ m₁ b₁ a₂ m₂ b₂ h₁ h₂ => ?_⟩
  obtain ⟨rfl, rfl⟩ := hall _ _ _ h₁
  obtain ⟨rfl, rfl⟩ := hall _ _ _ h₂
  exact ⟨rfl, rfl⟩

/-! ## The verdict -/

/-- Without a race mark and without a compilation failure. -/
theorem parcoach_parse_iff {fromRoot : Bool} {files : ResultFile → Option Text} {txt : Text}
    (htxt : files (.log .txt) = some txt) (hrace : ¬ raceMark <:+: universalNewlines txt)
    (hcompile : search compilePattern (universalNewlines txt) = none) :
    Tool.parcoach.parse (workdir fromRoot files) = "OK".toList ↔
      '0' :: issued <:+: universalNewlines txt := by
  have hinc : Tool.parcoach.inconclusive ≠ "OK".toList := by decide
  rw [parse_eq_iff rfl (by decide) htxt hinc]
  have hpre : cascade (universalNewlines txt) [] [raceRule, compileRule] = none := by
    rw [cascade_eq_none_iff]
    intro r hr
    rcases List.mem_cons.mp hr with rfl | hr
    · exact (found_lit_eq_none_iff ..).mpr hrace
    · rw [List.mem_singleton.mp hr, compileRule, found_hit, hcompile]
  have hzero := found_lit_eq_none_iff ('0' :: issued) "OK".toList (universalNewlines txt) []
  have hrules : Tool.parcoach.rules = [raceRule, compileRule] ++
      found (lit ('0' :: issued)) "OK".toList ::
        [prints "missing info for external function" "UNIMPLEMENTED"] := by
    rw [← zeroIssued_eq]
    rfl
  rw [hrules, cascade_append, hpre, Option.none_or, cascade]
  cases hhit : (found (lit ('0' :: issued)) "OK".toList).hit (universalNewlines txt) [] with
  | some m =>
    refine iff_of_true rfl ?_
    by_contra hno
    rw [hzero.mpr hno] at hhit
    cases hhit
  | none => exact iff_of_false (cascade_ne (by decide)) (hzero.mp hhit)

/-- **When `OK` stands for a count of 0,** for every output with one summary. -/
theorem parcoach_ok_iff {fromRoot : Bool} {files : ResultFile → Option Text} {txt : Text}
    {n : Nat} (htxt : files (.log .txt) = some txt)
    (hrace : ¬ raceMark <:+: universalNewlines txt)
    (hcompile : search compilePattern (universalNewlines txt) = none)
    (honly : OnlySummary (universalNewlines txt) n) :
    (Tool.parcoach.parse (workdir fromRoot files) = "OK".toList ↔ n = 0) ↔
      n = 0 ∨ (n % 10 ≠ 0 ∧ ¬ StrayZero (universalNewlines txt)) := by
  rw [parcoach_parse_iff htxt hrace hcompile, zero_found_iff honly]
  by_cases hn : n = 0
  · simp [hn]
  · simp [hn]

/-- An output that is one line with the count. -/
def countLine (n : Nat) : Text := ' ' :: (natText n ++ (issued ++ ['\n']))

def logOnly (txt : Text) : ResultFile → Option Text
  | .log .txt => some txt
  | _ => none

theorem onlySummary_countLine (n : Nat) : OnlySummary (countLine n) n :=
  onlySummary_of_paren (a := []) (b := ['\n']) (by simp) (by simp) n

theorem three_warnings : (Tool.parcoach.parse (workdir false (logOnly (countLine 3))) =
    "OK".toList ↔ 3 = 0) ↔ 3 = 0 ∨ (3 % 10 ≠ 0 ∧ ¬ StrayZero (universalNewlines (countLine 3))) := by
  have htext : universalNewlines (countLine 3) = countLine 3 := by decide
  refine @parcoach_ok_iff _ _ (countLine 3) 3 rfl (by decide) (by decide) ?_
  rw [htext]
  exact onlySummary_countLine 3

/-- **Ten warnings are taken for none.** -/
theorem ten_warnings_ok :
    ¬ raceMark <:+: universalNewlines (countLine 10) ∧
      search compilePattern (universalNewlines (countLine 10)) = none ∧
      OnlySummary (universalNewlines (countLine 10)) 10 ∧
      Tool.parcoach.parse (workdir false (logOnly (countLine 10))) = "OK".toList := by
  have htext : universalNewlines (countLine 10) = countLine 10 := by decide
  refine ⟨by decide, by decide, ?_, by decide⟩
  rw [htext]
  exact onlySummary_countLine 10

end MpiBugs.Warnings
