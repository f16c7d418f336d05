import MpiBugs.Decimal
import MpiBugs.Metrics
import Mathlib.Data.Set.Finite.Lemmas

/-!
# The entries in bold

`bold_if` and the table `results-summary.tex`: the best values found by one loop
are compared as texts with the values that a second loop computes again.

* `Searched.run`: what the search for the best values has found after any number
  of tools;
* `bold_iff`: in every column the best entries are those in bold iff some tool
  is below each of the two starting values, and in no ratio column all the tools
  that are considered score zero.
-/

namespace MpiBugs.Bold

open Decimal Rounding Percent Categorize Metrics

/-! ## Texts -/

/-- `str(val)` -/
def text : Value → Text
  | .int n => RunCmd.intText n
  | .float q => floatText q
  | .str t => t

/-- `bold_if` -/
def boldIf (val target : Value) : Text :=
  if text val = text target then "\x7b\\bf ".toList ++ text val ++ "\x7d".toList else text val

/-- An entry as it is written. -/
def cellText (cell : Cell) : Text :=
  match cell.target with
  | some target => boldIf cell.val target
  | none => text cell.val

/-- The entry is in bold. -/
def IsBold (cell : Cell) : Prop :=
  ∃ target, cell.target = some target ∧ text cell.val = text target

theorem cellText_eq {cell : Cell} (h : IsBold cell) :
    cellText cell = "\x7b\\bf ".toList ++ text cell.val ++ "\x7d".toList := by
  obtain ⟨target, htarget, htext⟩ := h
  simp only [cellText, htarget, boldIf, if_pos htext]

theorem cellText_plain {cell : Cell} (h : ¬ IsBold cell) : cellText cell = text cell.val := by
  unfold cellText
  cases htarget : cell.target with
  | none => rfl
  | some target => exact if_neg fun htext => h ⟨target, htarget, htext⟩

/-- The number an entry shows. -/
def displayed (v : Value) : ℚ := v.toFloat.toOption.getD 0

/-- A score of so many ten-thousandths. -/
def score (a : ℤ) : Value := if a = 10000 then .str "1".toList else .float (a / 10000)

theorem one_eq : "1".toList = ['1'] := String.toList_ofList

theorem toFloat_score (a : ℤ) : (score a).toFloat = .ok (a / 10000) := by
  unfold score
  split
  · rename_i h
    have hone : (Value.str "1".toList).toFloat = .ok 1 := by decide
    rw [hone, h]
    norm_num
  · rfl

theorem text_score {a : ℤ} (h : 0 ≤ a) (hne : a ≠ 10000) :
    text (score a) = decimalText 4 a.toNat := by
  have hcast : ((a.toNat : ℤ) : ℚ) = a := by rw [Int.toNat_of_nonneg h]
  rw [score, if_neg hne, text, ← floatText_natCast, ← hcast, Int.cast_natCast]

theorem decimalText_point (places n : ℕ) : '.' ∈ decimalText places n := by
  simp [decimalText]

/-- **Equal texts of scores** are those of equal scores. -/
theorem text_score_inj {a b : ℤ} (ha : 0 ≤ a) (hb : 0 ≤ b) :
    text (score a) = text (score b) ↔ a = b := by
  have hone : ∀ {c : ℤ}, 0 ≤ c → c ≠ 10000 → text (score c) ≠ text (score 10000) := by
    intro c hc hne h
    have hpoint := decimalText_point 4 c.toNat
    have htext : text (score 10000) = ['1'] := one_eq
    rw [← text_score hc hne, h, htext] at hpoint
    exact absurd hpoint (by decide)
  constructor
  · intro h
    by_cases ha' : a = 10000
    · by_contra hne
      rw [ha'] at h hne
      exact hone hb (Ne.symm hne) h.symm
    · by_cases hb' : b = 10000
      · rw [hb'] at h
        exact absurd h (hone ha ha')
      · rw [text_score ha ha', text_score hb hb'] at h
        have hnat := decimalText_injective h
        omega
  · rintro rfl
    rfl

/-- A score that is never written as the number 0 the search starts with. -/
theorem text_score_ne_zero {a : ℤ} (h : 0 ≤ a) : text (score a) ≠ text (.int 0) := by
  have hzero : text (.int 0) = ['0'] := by decide
  rw [hzero]
  by_cases hone : a = 10000
  · rw [hone]
    show "1".toList ≠ ['0']
    rw [one_eq]
    decide
  · intro htext
    have hpoint := decimalText_point 4 a.toNat
    rw [← text_score h hone, htext] at hpoint
    exact absurd hpoint (by decide)

theorem text_int_inj (n m : ℕ) : text (.int n) = text (.int m) ↔ n = m := by
  constructor
  · intro h
    have hnat : Batch.int (Header.natText n) = Batch.int (Header.natText m) := congrArg Batch.int h
    rwa [Batch.int_natText, Batch.int_natText] at hnat
  · rintro rfl
    rfl

/-! ## What the cleaning changes -/

theorem text_clean_int (n : ℕ) : text (clean (.int n)) = text (.int n) := by
  unfold clean
  split
  · rename_i h
    have hone : n = 1 := by
      have hcast : ((n : ℤ) : ℚ) = 1 := Option.some.inj h
      exact_mod_cast hcast
    rw [hone]
    decide
  · rfl

theorem clean_float (a : ℤ) : clean (.float (a / 10000)) = score a := by
  have hiff : (Value.float (a / 10000)).number = some 1 ↔ a = 10000 := by
    show some ((a : ℚ) / 10000) = some 1 ↔ _
    rw [Option.some.injEq, div_eq_one_iff_eq (by norm_num)]
    norm_cast
  simp only [clean, hiff, score]

/-! ## The running optimum -/

theorem gt_eq {v w : Value} {p q : ℚ} (hv : v.number = some p) (hw : w.number = some q) :
    v.gt w = .ok (decide (q < p)) := by
  cases v with
  | str t => cases hv
  | int m =>
    cases w with
    | str t => cases hw
    | int n => cases hv; cases hw; rfl
    | float y => cases hv; cases hw; rfl
  | float x =>
    cases w with
    | str t => cases hw
    | int n => cases hv; cases hw; rfl
    | float y => cases hv; cases hw; rfl

theorem higher_eq {best new : Value} {p q : ℚ} (hb : best.number = some p)
    (hn : new.number = some q) : higher best new = .ok (if p < q then new else best) := by
  unfold higher
  rw [gt_eq hn hb]
  by_cases h : p < q
  · rw [if_pos h, decide_eq_true h]
    rfl
  · rw [if_neg h, decide_eq_false h]
    rfl

theorem lower_eq {best new : Value} {p q : ℚ} (hb : best.number = some p)
    (hn : new.number = some q) : lower best new = .ok (if q < p then new else best) := by
  unfold lower
  rw [gt_eq hb hn]
  by_cases h : q < p
  · rw [if_pos h, decide_eq_true h]
    rfl
  · rw [if_neg h, decide_eq_false h]
    rfl

/-- The largest number so far, 0 to begin with. -/
def Most (v : Value) (ns : List ℕ) : Prop :=
  ∃ n : ℕ, v = .int n ∧ (∀ m ∈ ns, m ≤ n) ∧ (n = 0 ∨ n ∈ ns)

/-- The smallest number so far, or the one the search starts with. -/
def Least (start : ℕ) (v : Value) (ns : List ℕ) : Prop :=
  ∃ n : ℕ, v = .int n ∧ n ≤ start ∧ (∀ m ∈ ns, n ≤ m) ∧ (n = start ∨ n ∈ ns)

/-- The highest of the scores so far, if it is above 0. -/
def Top (v : Value) (as : List ℤ) : Prop :=
  (v = .int 0 ∧ ∀ a ∈ as, a ≤ 0) ∨
    ∃ a ∈ as, v = .float (a / 10000) ∧ 0 < a ∧ ∀ b ∈ as, b ≤ a

theorem most_step {v : Value} {ns : List ℕ} (h : Most v ns) (n : ℕ) :
    ∃ v', higher v (.int n) = .ok v' ∧ Most v' (ns ++ [n]) := by
  obtain ⟨m, rfl, hall, hmem⟩ := h
  refine ⟨_, higher_eq rfl rfl, ?_⟩
  simp only [Int.cast_natCast, Nat.cast_lt]
  split
  · rename_i hlt
    refine ⟨n, rfl, ?_, Or.inr (by simp)⟩
    simp only [List.forall_mem_append, List.forall_mem_singleton, le_rfl, and_true]
    exact fun k hk => (hall k hk).trans hlt.le
  · rename_i hge
    refine ⟨m, rfl, ?_, hmem.imp_right fun hm => List.mem_append_left _ hm⟩
    simp only [List.forall_mem_append, List.forall_mem_singleton]
    exact ⟨hall, by omega⟩

theorem least_step {start : ℕ} {v : Value} {ns : List ℕ} (h : Least start v ns) (n : ℕ) :
    ∃ v', lower v (.int n) = .ok v' ∧ Least start v' (ns ++ [n]) := by
  obtain ⟨m, rfl, hstart, hall, hmem⟩ := h
  refine ⟨_, lower_eq rfl rfl, ?_⟩
  simp only [Int.cast_natCast, Nat.cast_lt]
  split
  · rename_i hlt
    refine ⟨n, rfl, by omega, ?_, Or.inr (by simp)⟩
    simp only [List.forall_mem_append, List.forall_mem_singleton, le_rfl, and_true]
    exact fun k hk => hlt.le.trans (hall k hk)
  · rename_i hge
    refine ⟨m, rfl, hstart, ?_, hmem.imp_right fun hm => List.mem_append_left _ hm⟩
    simp only [List.forall_mem_append, List.forall_mem_singleton]
    exact ⟨hall, by omega⟩

theorem top_step {v : Value} {as : List ℤ} (h : Top v as) (a : ℤ) :
    ∃ v', higher v (.float (a / 10000)) = .ok v' ∧ Top v' (as ++ [a]) := by
  rcases h with ⟨rfl, hall⟩ | ⟨b, hb, rfl, hpos, hall⟩
  · refine ⟨_, higher_eq rfl rfl, ?_⟩
    have hlt : ((0 : ℤ) : ℚ) < a / 10000 ↔ 0 < a := by
      rw [Int.cast_zero, div_pos_iff_of_pos_right (by norm_num), Int.cast_pos]
    simp only [hlt]
    split
    · rename_i ha
      refine Or.inr ⟨a, by simp, rfl, ha, ?_⟩
      simp only [List.forall_mem_append, List.forall_mem_singleton, le_rfl, and_true]
      exact fun b hb => (hall b hb).trans ha.le
    · rename_i ha
      refine Or.inl ⟨rfl, ?_⟩
      simp only [List.forall_mem_append, List.forall_mem_singleton]
      exact ⟨hall, not_lt.mp ha⟩
  · refine ⟨_, higher_eq rfl rfl, ?_⟩
    have hlt : (b : ℚ) / 10000 < a / 10000 ↔ b < a := by
      rw [div_lt_div_iff_of_pos_right (by norm_num), Int.cast_lt]
    simp only [hlt]
    split
    · rename_i ha
      refine Or.inr ⟨a, by simp, rfl, hpos.trans ha, ?_⟩
      simp only [List.forall_mem_append, List.forall_mem_singleton, le_rfl, and_true]
      exact fun c hc => (hall c hc).trans ha.le
    · rename_i ha
      refine Or.inr ⟨b, List.mem_append_left _ hb, rfl, hpos, ?_⟩
      simp only [List.forall_mem_append, List.forall_mem_singleton]
      exact ⟨hall, not_lt.mp ha⟩

/-! ## The ratio columns -/

inductive Ratio
  | coverage | completion | specificity | «recall» | precision | F1 | accuracy
  deriving DecidableEq, Repr

namespace Ratio

/-- A score is the ratio of two counts. -/
def num (c : Counts) : Ratio → ℕ
  | coverage => c.total - c.port
  | completion => c.TP + c.TN + c.FP + c.FN
  | specificity => c.TN
  | «recall» | precision => c.TP
  | F1 => F1Num c
  | accuracy => c.TP + c.TN

def den (c : Counts) : Ratio → ℕ
  | coverage | completion | accuracy => c.total
  | specificity => c.TN + c.FP
  | «recall» => c.TP + c.FN
  | precision => c.TP + c.FP
  | F1 => F1Den c

/-- The ten-thousandths of the score. -/
def tenths (c : Counts) (r : Ratio) : ℤ := tenThousandths ((r.num c : ℚ) / r.den c)

def value (c : Counts) : Ratio → Value
  | coverage => Metrics.coverage c
  | completion => Metrics.completion c
  | specificity => Metrics.specificity c
  | «recall» => Metrics.recall c
  | precision => Metrics.precision c
  | F1 => Metrics.F1 c
  | accuracy => Metrics.accuracy c

def best (b : Best) : Ratio → Value
  | coverage => b.coverage
  | completion => b.completion
  | specificity => b.specificity
  | «recall» => b.recall
  | precision => b.precision
  | F1 => b.F1
  | accuracy => b.accuracy

def cell (row : SummaryRow) : Ratio → Cell
  | coverage => row.coverage
  | completion => row.completion
  | specificity => row.specificity
  | «recall» => row.recall
  | precision => row.precision
  | F1 => row.F1
  | accuracy => row.accuracy

end Ratio

/-- Every score is a ratio of counts. -/
theorem value_eq {c : Counts} (hc : Considered c) (r : Ratio) :
    r.value c = percent (r.num c) (r.den c) false true := by
  obtain ⟨_, hrecall, hprecision⟩ := hc
  have hport : c.port ≤ c.total := by
    unfold Counts.total
    omega
  cases r with
  | coverage =>
    show percent c.port c.total true true = percent (c.total - c.port : ℕ) c.total false true
    rw [percent_compl, Nat.cast_sub hport]
  | completion =>
    show percent _ c.total true true = percent (c.TP + c.TN + c.FP + c.FN : ℕ) c.total false true
    rw [percent_compl]
    congr 1
    unfold Counts.total
    push_cast
    ring
  | F1 => exact F1_eq hprecision hrecall
  | specificity | «recall» | precision | accuracy => rfl

theorem den_ne_zero {c : Counts} (hc : Considered c) (hcomp : Comparable c) (r : Ratio) :
    r.den c ≠ 0 := by
  obtain ⟨hspecificity, hrecall, hprecision⟩ := id hc
  have htotal : c.total ≠ 0 := by
    unfold Counts.total
    omega
  cases r with
  | coverage | completion | accuracy => exact htotal
  | specificity => exact hspecificity
  | «recall» => exact hrecall
  | precision => exact hprecision
  | F1 =>
    intro hzero
    have h := (F1Den_eq_zero_iff hprecision hrecall).mp hzero
    have hsome := ((comparable_iff hc).mp hcomp).1
    omega

theorem tenths_nonneg (c : Counts) (r : Ratio) : 0 ≤ r.tenths c := by
  unfold Ratio.tenths tenThousandths
  rw [le_roundEven_iff]
  have hratio : (0 : ℚ) ≤ (r.num c : ℚ) / r.den c := by positivity
  refine Or.inl ?_
  push_cast
  linarith

/-- The F1 score may be above 1, but is not written as 1. -/
theorem tenths_range {c : Counts} (hc : Considered c) (hcomp : Comparable c) (r : Ratio) :
    10000 ≤ r.tenths c ∧ r.tenths c < 10100 ↔ r.tenths c = 10000 := by
  have hsmall : r.num c ≤ r.den c → r.tenths c ≤ 10000 := fun h => (tenThousandths_mem h).2
  cases r with
  | F1 =>
    have hnumber := hcomp.1
    rw [← Ratio.value, value_eq hc, percent_one_isNumber_iff] at hnumber
    have hno := hnumber.2
    refine iff_of_false hno fun h => hno ?_
    rw [show tenThousandths (((Ratio.F1).num c : ℚ) / (Ratio.F1).den c) = 10000 from h]
    omega
  | coverage =>
    have h := hsmall (Nat.sub_le _ _)
    omega
  | completion | accuracy =>
    have h := hsmall (by simp only [Ratio.num, Ratio.den, Counts.total]; omega)
    omega
  | specificity | «recall» | precision =>
    have h := hsmall (by simp only [Ratio.num, Ratio.den]; omega)
    omega

/-- The scores of a tool in a search that completes. -/
theorem value_eq_score {c : Counts} (hc : Considered c) (hcomp : Comparable c) (r : Ratio) :
    r.value c = score (r.tenths c) := by
  have hden : (r.den c : ℚ) ≠ 0 := by exact_mod_cast den_ne_zero hc hcomp r
  have hrange := tenths_range hc hcomp r
  unfold Ratio.tenths at hrange ⊢
  rw [value_eq hc, percent_one hden, score]
  simp only [hrange]

/-! ## The search -/

theorem higherFloat_score (best : Value) (a : ℤ) :
    higherFloat best (score a) = higher best (.float (a / 10000)) := by
  unfold higherFloat
  rw [toFloat_score]
  rfl

/-- The tools that count in the ratio columns. -/
def considered (cs : List Counts) : List Counts := cs.filter (Considered ·)

/-- The best values after the search has seen some of the tools. -/
structure Searched (past : List Counts) (b : Best) : Prop where
  TP : Most b.TP (past.map Counts.TP)
  TN : Most b.TN (past.map Counts.TN)
  FP : Least 999999 b.FP (past.map Counts.FP)
  FN : Least 9999999 b.FN (past.map Counts.FN)
  ratio : ∀ r : Ratio, Top (r.best b) ((considered past).map fun c => r.tenths c)

theorem searched_initial : Searched [] .initial where
  TP := ⟨0, rfl, by simp, Or.inl rfl⟩
  TN := ⟨0, rfl, by simp, Or.inl rfl⟩
  FP := ⟨999999, rfl, le_rfl, by simp, Or.inl rfl⟩
  FN := ⟨9999999, rfl, le_rfl, by simp, Or.inl rfl⟩
  ratio r := Or.inl ⟨by cases r <;> rfl, by simp [considered]⟩

theorem bestRatios_searched {past : List Counts} {b : Best} {c : Counts} (hc : Considered c)
    (hcomp : Comparable c)
    (hb : ∀ r : Ratio, Top (r.best b) ((considered past).map fun c => r.tenths c)) :
    ∃ b', bestRatios b c = .ok b' ∧
      (b'.TP = b.TP ∧ b'.TN = b.TN ∧ b'.FP = b.FP ∧ b'.FN = b.FN) ∧
      ∀ r : Ratio, Top (r.best b') ((considered (past ++ [c])).map fun c => r.tenths c) := by
  have hlist : considered (past ++ [c]) = considered past ++ [c] := by
    simp [considered, hc]
  have hvalue := value_eq_score hc hcomp
  have hstep : ∀ r : Ratio, ∃ v, higher (r.best b) (.float (r.tenths c / 10000)) = .ok v ∧
      Top v ((considered (past ++ [c])).map fun c => r.tenths c) := by
    intro r
    rw [hlist, List.map_append]
    exact top_step (hb r) (r.tenths c)
  choose v hv htop using hstep
  have hfloat : ∀ r : Ratio, higherFloat (r.best b) (r.value c) = .ok (v r) := by
    intro r
    rw [hvalue, higherFloat_score]
    exact hv r
  have hnumber : ∀ r : Ratio, (r.value c).isNumber = true →
      higher (r.best b) (r.value c) = .ok (v r) := by
    intro r hr
    rw [hvalue, score] at hr
    split at hr
    · cases hr
    · rename_i hne
      rw [hvalue, score, if_neg hne]
      exact hv r
  have h₁ := hfloat .coverage
  have h₂ := hfloat .completion
  have h₃ := hfloat .specificity
  have h₄ := hfloat .recall
  have h₅ := hfloat .precision
  have h₆ := hnumber .F1 hcomp.1
  have h₇ := hnumber .accuracy hcomp.2
  simp only [Ratio.best, Ratio.value] at h₁ h₂ h₃ h₄ h₅ h₆ h₇
  refine ⟨{ b with
    coverage := v .coverage, completion := v .completion, specificity := v .specificity,
    «recall» := v .recall, precision := v .precision, F1 := v .F1, accuracy := v .accuracy },
    ?_, ⟨rfl, rfl, rfl, rfl⟩, ?_⟩
  · simp only [bestRatios, h₁, h₂, h₃, h₄, h₅, h₆, h₇]
    rfl
  · intro r
    cases r with
    | coverage => exact htop .coverage
    | completion => exact htop .completion
    | specificity => exact htop .specificity
    | «recall» => exact htop .recall
    | precision => exact htop .precision
    | F1 => exact htop .F1
    | accuracy => exact htop .accuracy

/-- **One tool.** -/
theorem Searched.step {past : List Counts} {b : Best} (h : Searched past b) {c : Counts}
    (hcomp : Considered c → Comparable c) :
    ∃ b', bestStep b c = .ok b' ∧ Searched (past ++ [c]) b' := by
  obtain ⟨v₁, h₁, hTP⟩ := most_step h.TP c.TP
  obtain ⟨v₂, h₂, hTN⟩ := most_step h.TN c.TN
  obtain ⟨v₃, h₃, hFP⟩ := least_step h.FP c.FP
  obtain ⟨v₄, h₄, hFN⟩ := least_step h.FN c.FN
  have hmap : ∀ f : Counts → ℕ, (past ++ [c]).map f = past.map f ++ [f c] := fun f => by simp
  have hcounts : bestCounts b c = .ok { b with TP := v₁, TN := v₂, FP := v₃, FN := v₄ } := by
    simp only [bestCounts, h₁, h₂, h₃, h₄]
    rfl
  have hratio : ∀ r : Ratio, Top (r.best { b with TP := v₁, TN := v₂, FP := v₃, FN := v₄ })
      ((considered past).map fun c => r.tenths c) := by
    intro r
    cases r with
    | coverage => exact h.ratio .coverage
    | completion => exact h.ratio .completion
    | specificity => exact h.ratio .specificity
    | «recall» => exact h.ratio .recall
    | precision => exact h.ratio .precision
    | F1 => exact h.ratio .F1
    | accuracy => exact h.ratio .accuracy
  have hstep : bestStep b c = if Considered c
      then bestRatios { b with TP := v₁, TN := v₂, FP := v₃, FN := v₄ } c
      else .ok { b with TP := v₁, TN := v₂, FP := v₃, FN := v₄ } := by
    unfold bestStep
    rw [hcounts]
    rfl
  rw [hstep]
  by_cases hc : Considered c
  · rw [if_pos hc]
    obtain ⟨b', hb', ⟨hb₁, hb₂, hb₃, hb₄⟩, htop⟩ := bestRatios_searched hc (hcomp hc) hratio
    refine ⟨b', hb', ⟨?_, ?_, ?_, ?_, htop⟩⟩
    · rwa [hb₁, hmap]
    · rwa [hb₂, hmap]
    · rwa [hb₃, hmap]
    · rwa [hb₄, hmap]
  · have hlist : considered (past ++ [c]) = considered past := by
      simp [considered, hc]
    rw [if_neg hc]
    refine ⟨_, rfl, ⟨?_, ?_, ?_, ?_, ?_⟩⟩
    · rwa [hmap]
    · rwa [hmap]
    · rwa [hmap]
    · rwa [hmap]
    · intro r
      rw [hlist]
      exact hratio r

/-- **All tools.** -/
theorem Searched.run (cs : List Counts) : ∀ {past : List Counts} {b : Best}, Searched past b →
    (∀ c ∈ cs, Considered c → Comparable c) →
    ∃ b', cs.foldlM bestStep b = .ok b' ∧ Searched (past ++ cs) b' := by
  induction cs with
  | nil => exact fun h _ => ⟨_, rfl, by rwa [List.append_nil]⟩
  | cons c cs ih =>
    intro past b h hcomp
    obtain ⟨hc, hcs⟩ := List.forall_mem_cons.mp hcomp
    obtain ⟨b₁, hstep, hb₁⟩ := h.step hc
    obtain ⟨b₂, hrun, hb₂⟩ := ih hb₁ hcs
    refine ⟨b₂, ?_, by rwa [List.append_assoc] at hb₂⟩
    rw [List.foldlM_cons, hstep]
    exact hrun

/-- What a search that completes has found. -/
theorem searched_of_ok {cs : List Counts} {best : Best} (h : bestSearch cs = .ok best) :
    (∀ c ∈ cs, Considered c → Comparable c) ∧ ∃ b, best = b.clean ∧ Searched cs b := by
  have hcomp : ∀ c ∈ cs, Considered c → Comparable c := fun c hc hcons =>
    (comparable_iff hcons).mpr ((search_completes_iff cs).mp ⟨best, h⟩ c hc hcons)
  obtain ⟨b, hb, hsearched⟩ := searched_initial.run cs hcomp
  refine ⟨hcomp, b, ?_, hsearched⟩
  unfold bestSearch at h
  rw [hb] at h
  exact (Except.ok.inj h).symm

/-! ## The columns -/

/-- If only the best are marked, and with one of them all that equal it, then the
best are marked once anything is. -/
theorem marked_iff_best {α β : Type} [LinearOrder β] {ts : List α} (hne : ts ≠ [])
    {marked : α → Prop} {key : α → β} (hbest : ∀ c ∈ ts, marked c → ∀ d ∈ ts, key d ≤ key c)
    (hequal : ∀ c ∈ ts, marked c → ∀ d, key d = key c → marked d) :
    (∀ c ∈ ts, marked c ↔ ¬ ∃ d ∈ ts, key c < key d) ↔ ∃ c ∈ ts, marked c := by
  obtain ⟨c, hc⟩ := List.exists_mem_of_ne_nil ts hne
  obtain ⟨m, hm, hmax⟩ := Set.exists_max_image {c | c ∈ ts} key ts.finite_toSet ⟨c, hc⟩
  constructor
  · intro h
    refine ⟨m, hm, (h m hm).mpr ?_⟩
    rintro ⟨d, hd, hlt⟩
    exact absurd (hmax d hd) (not_le.mpr hlt)
  · rintro ⟨t, ht, hmarked⟩ c hc
    constructor
    · rintro hc' ⟨d, hd, hlt⟩
      exact absurd (hbest c hc hc' d hd) (not_le.mpr hlt)
    · intro hnone
      have hle : key t ≤ key c := not_lt.mp fun hlt => hnone ⟨t, ht, hlt⟩
      exact hequal t ht hmarked c (le_antisymm (hbest t ht hmarked c hc) hle)

/-- In this column the entries in bold are those of the tools to which none is
preferred. -/
def BoldIsBest (ts : List Counts) (cell : Counts → Cell) (better : ℚ → ℚ → Prop) : Prop :=
  ∀ c ∈ ts, IsBold (cell c) ↔
    ¬ ∃ d ∈ ts, better (displayed (cell d).val) (displayed (cell c).val)

/-- **Bold means best:** in the columns of the counts among all the tools, in
those of the ratios among the tools that are considered. -/
structure BoldMeansBest (cs : List Counts) (best : Best) : Prop where
  TP : BoldIsBest cs (fun c => (summaryRow best c).TP) (· > ·)
  TN : BoldIsBest cs (fun c => (summaryRow best c).TN) (· > ·)
  FP : BoldIsBest cs (fun c => (summaryRow best c).FP) (· < ·)
  FN : BoldIsBest cs (fun c => (summaryRow best c).FN) (· < ·)
  ratio : ∀ r : Ratio, BoldIsBest (considered cs) (fun c => r.cell (summaryRow best c)) (· > ·)

theorem displayed_int (n : ℕ) : displayed (.int n) = n := rfl

theorem displayed_score (a : ℤ) : displayed (score a) = a / 10000 := by
  unfold displayed
  rw [toFloat_score]
  rfl

theorem isBold_count (n m : ℕ) : IsBold ⟨.int n, some (clean (.int m))⟩ ↔ n = m := by
  unfold IsBold
  simp only [Option.some.injEq, exists_eq_left', text_clean_int, text_int_inj]

/-- The columns `TP` and `TN`. -/
theorem most_bold {cs : List Counts} (hne : cs ≠ []) {f : Counts → ℕ} {v : Value}
    (h : Most v (cs.map f)) :
    BoldIsBest cs (fun c => ⟨.int (f c), some (clean v)⟩) (· > ·) := by
  obtain ⟨n, rfl, hall, hmem⟩ := h
  rw [List.forall_mem_map] at hall
  unfold BoldIsBest
  simp only [isBold_count, displayed_int, gt_iff_lt, Nat.cast_lt]
  refine (marked_iff_best hne ?_ ?_).mpr ?_
  · rintro c _ rfl
    exact hall
  · rintro c _ rfl d hd
    exact hd
  · rcases hmem with rfl | hmem
    · obtain ⟨c, hc⟩ := List.exists_mem_of_ne_nil cs hne
      exact ⟨c, hc, Nat.le_zero.mp (hall c hc)⟩
    · exact List.mem_map.mp hmem

/-- The columns `FP` and `FN`. -/
theorem least_bold {cs : List Counts} (hne : cs ≠ []) {f : Counts → ℕ} {start : ℕ} {v : Value}
    (h : Least start v (cs.map f)) :
    BoldIsBest cs (fun c => ⟨.int (f c), some (clean v)⟩) (· < ·) ↔ ∃ c ∈ cs, f c ≤ start := by
  obtain ⟨n, rfl, hstart, hall, hmem⟩ := h
  rw [List.forall_mem_map] at hall
  unfold BoldIsBest
  simp only [isBold_count, displayed_int, Nat.cast_lt]
  have hmarked : (∀ c ∈ cs, f c = n ↔ ¬ ∃ d ∈ cs, f d < f c) ↔ ∃ c ∈ cs, f c = n := by
    refine @marked_iff_best _ _ _ _ hne _ (fun c => OrderDual.toDual (f c)) ?_ ?_
    · rintro c _ rfl
      exact hall
    · rintro c _ rfl d hd
      exact hd
  rw [hmarked]
  constructor
  · rintro ⟨c, hc, rfl⟩
    exact ⟨c, hc, hstart⟩
  · rintro ⟨c, hc, hle⟩
    rcases hmem with rfl | hmem
    · exact ⟨c, hc, le_antisymm hle (hall c hc)⟩
    · exact List.mem_map.mp hmem

/-- The entry of a tool that is considered. -/
theorem cell_eq {best : Best} {c : Counts} (hc : Considered c) (r : Ratio) :
    r.cell (summaryRow best c) = ⟨r.value c, some (r.best best)⟩ := by
  obtain ⟨_, hrecall, hprecision⟩ := hc
  cases r with
  | F1 =>
    have hpos : c.TP + c.FP > 0 ∧ c.TP + c.FN > 0 := by omega
    show (⟨F1Entry c, if _ then _ else _⟩ : Cell) = _
    rw [if_pos hpos, F1Entry, if_pos hpos]
    rfl
  | coverage | completion | specificity | «recall» | precision | accuracy => rfl

theorem best_clean (b : Best) (r : Ratio) : r.best b.clean = clean (r.best b) := by
  cases r <;> rfl

theorem isBold_score {a b : ℤ} (ha : 0 ≤ a) (hb : 0 ≤ b) :
    IsBold ⟨score a, some (clean (.float (b / 10000)))⟩ ↔ a = b := by
  unfold IsBold
  simp only [Option.some.injEq, exists_eq_left', clean_float, text_score_inj ha hb]

theorem not_isBold_zero {a : ℤ} (ha : 0 ≤ a) : ¬ IsBold ⟨score a, some (clean (.int 0))⟩ := by
  rintro ⟨target, htarget, htext⟩
  obtain rfl := Option.some.inj htarget
  have hclean : text (clean (.int 0)) = text (.int 0) := text_clean_int 0
  rw [hclean] at htext
  exact text_score_ne_zero ha htext

/-- A score above zero, after rounding. -/
theorem tenths_pos_iff {c : Counts} {r : Ratio} (hden : r.den c ≠ 0) :
    0 < r.tenths c ↔ r.den c < 20000 * r.num c := by
  have hpos : (0 : ℚ) < r.den c := by exact_mod_cast Nat.pos_of_ne_zero hden
  have htwice : 2 * ((r.num c : ℚ) / r.den c * 10000) = 20000 * r.num c / r.den c := by ring
  have hodd : ¬ Even (1 : ℤ) := by decide
  unfold Ratio.tenths tenThousandths
  rw [← Int.add_one_le_iff, le_roundEven_iff, zero_add, htwice, lt_div_iff₀ hpos]
  simp only [hodd, and_false, or_false]
  norm_num
  norm_cast

/-- The columns of the ratios. -/
theorem top_bold {cs : List Counts} {best b : Best} {r : Ratio} (hbest : best = b.clean)
    (hcomp : ∀ c ∈ cs, Considered c → Comparable c)
    (h : Top (r.best b) ((considered cs).map fun c => r.tenths c)) :
    BoldIsBest (considered cs) (fun c => r.cell (summaryRow best c)) (· > ·) ↔
      (considered cs ≠ [] → ∃ c ∈ considered cs, 0 < r.tenths c) := by
  have hcell : ∀ c ∈ considered cs,
      r.cell (summaryRow best c) = ⟨score (r.tenths c), some (clean (r.best b))⟩ := by
    intro c hc
    obtain ⟨hmem, hcons⟩ := List.mem_filter.mp hc
    have hcons := of_decide_eq_true hcons
    rw [cell_eq hcons, value_eq_score hcons (hcomp c hmem hcons), hbest, best_clean]
  have hcolumn : BoldIsBest (considered cs) (fun c => r.cell (summaryRow best c)) (· > ·) ↔
      ∀ c ∈ considered cs, IsBold ⟨score (r.tenths c), some (clean (r.best b))⟩ ↔
        ¬ ∃ d ∈ considered cs, r.tenths c < r.tenths d := by
    refine forall₂_congr fun c hc => ?_
    beta_reduce
    rw [hcell c hc]
    refine iff_congr Iff.rfl (not_congr (exists_congr fun d => and_congr_right fun hd => ?_))
    rw [hcell d hd, displayed_score, displayed_score, gt_iff_lt,
      div_lt_div_iff_of_pos_right (by norm_num), Int.cast_lt]
  rw [hcolumn]
  by_cases hne : considered cs = []
  · simp [hne]
  · rw [imp_iff_right hne]
    rcases h with ⟨hzero, hall⟩ | ⟨a, ha, hfloat, hpos, hall⟩
    · -- the search still has the 0 it starts with, and nothing is in bold
      rw [List.forall_mem_map] at hall
      have hnone : ¬ ∃ c ∈ considered cs, 0 < r.tenths c := by
        rintro ⟨c, hc, hlt⟩
        exact absurd (hall c hc) (not_le.mpr hlt)
      refine iff_of_false (fun hbold => ?_) hnone
      obtain ⟨c, hc⟩ := List.exists_mem_of_ne_nil _ hne
      rw [hzero] at hbold
      refine not_isBold_zero (tenths_nonneg c r) ((hbold c hc).mpr ?_)
      rintro ⟨d, hd, hlt⟩
      exact hnone ⟨d, hd, (tenths_nonneg c r).trans_lt hlt⟩
    · obtain ⟨t, ht, rfl⟩ := List.mem_map.mp ha
      rw [List.forall_mem_map] at hall
      simp only [hfloat, isBold_score (tenths_nonneg _ r) (tenths_nonneg t r)]
      refine iff_of_true ((marked_iff_best hne ?_ ?_).mpr ⟨t, ht, rfl⟩) ⟨t, ht, hpos⟩
      · intro c _ heq
        rw [heq]
        exact hall
      · intro c _ heq d hd
        exact hd.trans heq

/-- **When bold means best:** some tool is within each starting value of the
counts, and in every column of ratios one of the tools considered has a score
that is not rounded to zero, if there are any such tools. -/
theorem bold_iff {cs : List Counts} {best : Best} (hne : cs ≠ []) (h : bestSearch cs = .ok best) :
    BoldMeansBest cs best ↔
      (∃ c ∈ cs, c.FP ≤ 999999) ∧ (∃ c ∈ cs, c.FN ≤ 9999999) ∧
        ∀ r : Ratio, (∃ c ∈ cs, Considered c) →
          ∃ c ∈ cs, Considered c ∧ r.den c < 20000 * r.num c := by
  obtain ⟨hcomp, b, rfl, hb⟩ := searched_of_ok h
  have hTP : BoldIsBest cs (fun c => (summaryRow b.clean c).TP) (· > ·) := most_bold hne hb.TP
  have hTN : BoldIsBest cs (fun c => (summaryRow b.clean c).TN) (· > ·) := most_bold hne hb.TN
  have hFP : BoldIsBest cs (fun c => (summaryRow b.clean c).FP) (· < ·) ↔ _ := least_bold hne hb.FP
  have hFN : BoldIsBest cs (fun c => (summaryRow b.clean c).FN) (· < ·) ↔ _ := least_bold hne hb.FN
  have hsome : considered cs ≠ [] ↔ ∃ c ∈ cs, Considered c := by
    unfold considered
    rw [ne_eq, List.filter_eq_nil_iff]
    push Not
    simp only [decide_eq_true_eq]
  have hratio : ∀ r : Ratio,
      BoldIsBest (considered cs) (fun c => r.cell (summaryRow b.clean c)) (· > ·) ↔
        ((∃ c ∈ cs, Considered c) → ∃ c ∈ cs, Considered c ∧ r.den c < 20000 * r.num c) := by
    intro r
    rw [top_bold rfl hcomp (hb.ratio r), hsome]
    refine imp_congr_right fun _ => exists_congr fun c => ?_
    simp only [considered, List.mem_filter, decide_eq_true_eq, and_assoc]
    refine and_congr_right fun hc => and_congr_right fun hcons => ?_
    exact tenths_pos_iff (den_ne_zero hcons (hcomp c hc hcons) r)
  constructor
  · rintro ⟨_, _, h₁, h₂, h₃⟩
    exact ⟨hFP.mp h₁, hFN.mp h₂, fun r => (hratio r).mp (h₃ r)⟩
  · rintro ⟨h₁, h₂, h₃⟩
    exact ⟨hTP, hTN, hFP.mpr h₁, hFN.mpr h₂, fun r => (hratio r).mpr (h₃ r)⟩

/-- Two tools with some of everything. -/
def twoTools : List Counts := [sampleCounts 3 4 1 1, sampleCounts 5 2 3 1]

theorem bold_two_tools :
    ∃ best, bestSearch twoTools = .ok best ∧
      (BoldMeansBest twoTools best ↔
        (∃ c ∈ twoTools, c.FP ≤ 999999) ∧ (∃ c ∈ twoTools, c.FN ≤ 9999999) ∧
          ∀ r : Ratio, (∃ c ∈ twoTools, Considered c) →
            ∃ c ∈ twoTools, Considered c ∧ r.den c < 20000 * r.num c) := by
  have hrankable : ∀ c ∈ twoTools, Rankable c := by decide
  obtain ⟨best, hbest⟩ := (search_completes_iff _).mpr hrankable
  exact ⟨best, hbest, bold_iff (List.cons_ne_nil _ _) hbest⟩

/-- **A tool that is alone with its score of 0.0 is not in bold:** the search has
the number 0 still. -/
theorem zero_not_bold :
    ∃ best, bestSearch [sampleCounts 1 0 1 1] = .ok best ∧
      cellText (summaryRow best (sampleCounts 1 0 1 1)).specificity = "0.0".toList ∧
      ¬ BoldMeansBest [sampleCounts 1 0 1 1] best := by
  have hzero : text (percent 0 1 false true) ≠ text (.int 0) := by decide +kernel
  refine ⟨⟨.str "1".toList, .int 0, .str "1".toList, .str "1".toList, .str "1".toList,
    .str "1".toList, .int 0, .float (1 / 2), .float (1 / 2), .int 0, .float (3333 / 10000)⟩,
    by decide +kernel, by decide +kernel, ?_⟩
  intro h
  have hcolumn := h.ratio .specificity (sampleCounts 1 0 1 1)
    (List.mem_filter.mpr ⟨List.mem_cons_self, by decide⟩)
  obtain ⟨target, htarget, htext⟩ := hcolumn.mpr (by simp [considered])
  obtain rfl := Option.some.inj htarget
  exact hzero htext

end MpiBugs.Bold
