import MpiBugs.Batch
import MpiBugs.Decimal
import MpiBugs.Rounding
import MpiBugs.RunCmd

/-!
# Durations

`seconds2human` and the total time of a tool in the tables of `cmd_latex`: both
split a number of seconds into days, hours, minutes and seconds.

* `split_spec`: the parts add up, each within its range;
* `read_seconds2human`, `read_totalTime`: the quantities read off the two texts;
* `durations_iff`: both show the duration iff it is less than a day, as the total
  time leaves out the days.
-/

namespace MpiBugs.Durations

open Decimal Rounding RunCmd

inductive TimeUnit
  | days | hours | minutes | seconds
  deriving DecidableEq, Repr

/-! ## The two texts -/

structure Parts where
  days : ℤ
  hours : ℤ
  minutes : ℤ
  seconds : ℚ

/-- The four assignments both functions start with. -/
def split (secs : ℚ) : Parts :=
  let days := ⌊secs / 86400⌋
  let hours := ⌊(secs - days * 86400) / 3600⌋
  let minutes := ⌊(secs - days * 86400 - hours * 3600) / 60⌋
  let seconds := secs - days * 86400 - hours * 3600 - minutes * 60
  ⟨days, hours, minutes, seconds⟩

/-- `seconds2human` -/
def seconds2human (secs : ℚ) : Text :=
  let p := split secs
  (if p.days ≠ 0 then intText p.days ++ " days, ".toList else []) ++
    ((if p.hours ≠ 0 then intText p.hours ++ " hours, ".toList else []) ++
    ((if p.minutes ≠ 0 then intText p.minutes ++ " minutes, ".toList else []) ++
    (if p.seconds ≠ 0 then
      floatText ((trunc (p.seconds * 100) : ℤ) / 100) ++ " seconds".toList else [])))

/-- The cell `Total time` of a tool. -/
def totalTime (secs : ℚ) : Text :=
  let p := split secs
  "&".toList ++
    ((if p.hours > 0 then intText p.hours ++ "h".toList else []) ++
    ((if p.hours > 0 ∨ p.minutes > 0 then intText p.minutes ++ "m".toList else []) ++
    (intText (trunc p.seconds) ++ "s".toList)))

/-! ## The parts -/

theorem remainder_bounds (x : ℚ) {b : ℚ} (hb : 0 < b) :
    0 ≤ x - ⌊x / b⌋ * b ∧ x - ⌊x / b⌋ * b < b := by
  have hlow := Int.floor_le (x / b)
  have hhigh := Int.lt_floor_add_one (x / b)
  rw [le_div_iff₀ hb] at hlow
  rw [div_lt_iff₀ hb] at hhigh
  constructor
  · linarith
  · linarith

/-- The part of a quantity below `n * b` that counts units of `b`. -/
theorem part_bounds {x b : ℚ} (hb : 0 < b) {n : ℤ} (h : 0 ≤ x ∧ x < n * b) :
    0 ≤ ⌊x / b⌋ ∧ ⌊x / b⌋ < n := by
  constructor
  · exact Int.floor_nonneg.mpr (div_nonneg h.1 hb.le)
  · rw [Int.floor_lt, div_lt_iff₀ hb]
    exact h.2

/-- **The parts of a duration.** -/
structure Parts.Split (p : Parts) (secs : ℚ) : Prop where
  sum : p.days * 86400 + p.hours * 3600 + p.minutes * 60 + p.seconds = secs
  hours : 0 ≤ p.hours ∧ p.hours < 24
  minutes : 0 ≤ p.minutes ∧ p.minutes < 60
  seconds : 0 ≤ p.seconds ∧ p.seconds < 60

theorem split_spec (secs : ℚ) : (split secs).Split secs := by
  have hday := remainder_bounds secs (b := 86400) (by norm_num)
  have hhour := remainder_bounds (secs - ⌊secs / 86400⌋ * 86400) (b := 3600) (by norm_num)
  have hminute := remainder_bounds (secs - ⌊secs / 86400⌋ * 86400 -
    ⌊(secs - ⌊secs / 86400⌋ * 86400) / 3600⌋ * 3600) (b := 60) (by norm_num)
  refine ⟨by simp only [split]; ring, ?_, ?_, hminute⟩
  · exact part_bounds (n := 24) (by norm_num) ⟨hday.1, by norm_num; exact hday.2⟩
  · exact part_bounds (n := 60) (by norm_num) ⟨hhour.1, by norm_num; exact hhour.2⟩

theorem days_nonneg {secs : ℚ} (h : 0 ≤ secs) : 0 ≤ (split secs).days :=
  Int.floor_nonneg.mpr (div_nonneg h (by norm_num))

theorem days_eq_zero_iff {secs : ℚ} (h : 0 ≤ secs) : (split secs).days = 0 ↔ secs < 86400 := by
  have hdays : (split secs).days = ⌊secs / 86400⌋ := rfl
  rw [hdays, Int.floor_eq_zero_iff, Set.mem_Ico, div_lt_one (by norm_num)]
  exact and_iff_right (div_nonneg h (by norm_num))

/-! ## Reading the texts -/

def unitOf : Char → Option TimeUnit
  | 'd' => some .days
  | 'h' => some .hours
  | 'm' => some .minutes
  | 's' => some .seconds
  | _ => none

/-- The quantities a duration shows. -/
def shownUnits (t : Text) : List (TimeUnit × ℚ) := readUnits unitOf t

def TimeUnit.size : TimeUnit → ℚ
  | days => 86400
  | hours => 3600
  | minutes => 60
  | seconds => 1

/-- The quantities added up, in seconds. -/
def total (shown : List (TimeUnit × ℚ)) : ℚ := (shown.map fun p => p.1.size * p.2).sum

/-- Nothing is left that makes a larger unit; there is none above the days. -/
def InRange : TimeUnit × ℚ → Prop
  | (.days, q) => 0 ≤ q
  | (.hours, q) => 0 ≤ q ∧ q < 24
  | (.minutes, q) => 0 ≤ q ∧ q < 60
  | (.seconds, q) => 0 ≤ q ∧ q < 60

section Read

variable (shown : List (TimeUnit × ℚ))

theorem intText_eq {n : ℤ} (h : 0 ≤ n) : intText n = Nat.toDigits 10 n.toNat := by
  obtain ⟨k, rfl⟩ := Int.eq_ofNat_of_zero_le h
  exact Batch.natText_eq k

theorem toNat_cast {n : ℤ} (h : 0 ≤ n) : (n.toNat : ℚ) = n := by
  have hcast : ((n.toNat : ℤ) : ℚ) = n := by rw [Int.toNat_of_nonneg h]
  rw [← hcast, Int.cast_natCast]

/-- A whole number and its unit. -/
theorem read_int {n : ℤ} (hn : 0 ≤ n) {u : TimeUnit} {w a b : Text} {c : Char}
    (hw : w = a ++ c :: b)
    (ha : ∀ x ∈ a, x.isDigit = false ∧ x ≠ '.' ∧ unitOf x = none)
    (hc : c.isDigit = false ∧ c ≠ '.' ∧ unitOf c = some u)
    (hb : ∀ x ∈ b, x.isDigit = false ∧ x ≠ '.') :
    (intText n ++ w).foldl (readChar unitOf) ⟨shown, none⟩ = ⟨shown ++ [(u, (n : ℚ))], none⟩ := by
  have hvalue : numberValue (n.toNat, none) = n := by
    rw [numberValue, Option.getD_none, pow_zero, div_one]
    exact toNat_cast hn
  rw [List.foldl_append, intText_eq hn, read_toDigits, hw,
    read_unit unitOf shown ha hc hb, hvalue]

theorem read_days {n : ℤ} (hn : 0 ≤ n) :
    (intText n ++ " days, ".toList).foldl (readChar unitOf) ⟨shown, none⟩ =
      ⟨shown ++ [(.days, (n : ℚ))], none⟩ :=
  read_int shown hn (a := [' ']) (c := 'd') (b := ['a', 'y', 's', ',', ' '])
    (by decide +kernel) (by decide) (by decide) (by decide)

theorem read_hours {n : ℤ} (hn : 0 ≤ n) :
    (intText n ++ " hours, ".toList).foldl (readChar unitOf) ⟨shown, none⟩ =
      ⟨shown ++ [(.hours, (n : ℚ))], none⟩ :=
  read_int shown hn (a := [' ']) (c := 'h') (b := ['o', 'u', 'r', 's', ',', ' '])
    (by decide +kernel) (by decide) (by decide) (by decide)

theorem read_minutes {n : ℤ} (hn : 0 ≤ n) :
    (intText n ++ " minutes, ".toList).foldl (readChar unitOf) ⟨shown, none⟩ =
      ⟨shown ++ [(.minutes, (n : ℚ))], none⟩ :=
  read_int shown hn (a := [' ']) (c := 'm')
    (b := ['i', 'n', 'u', 't', 'e', 's', ',', ' '])
    (by decide +kernel) (by decide) (by decide) (by decide)

/-- Hundredths of a second. -/
theorem read_seconds {n : ℤ} (hn : 0 ≤ n) :
    (floatText ((n : ℚ) / 100) ++ " seconds".toList).foldl (readChar unitOf) ⟨shown, none⟩ =
      ⟨shown ++ [(.seconds, (n : ℚ) / 100)], none⟩ := by
  have htext : floatText ((n : ℚ) / 100) = decimalText 4 (n.toNat * 100) := by
    rw [← floatText_natCast]
    congr 1
    push_cast
    rw [toNat_cast hn]
    ring
  obtain ⟨p, hp, hvalue⟩ := read_decimalText unitOf shown 4 (n.toNat * 100)
  have hword : " seconds".toList = [' '] ++ 's' :: ['e', 'c', 'o', 'n', 'd', 's'] := by
    decide +kernel
  have hq : numberValue p = n / 100 := by
    rw [hvalue]
    push_cast
    rw [toNat_cast hn]
    ring
  rw [htext, List.foldl_append, hp, hword, read_unit unitOf shown (by decide) (u := .seconds)
    (by decide) (by decide), hq]

/-- A part that is only written if it is not left out. -/
theorem read_optional {t : Text} {us : List (TimeUnit × ℚ)} (P : Prop) [Decidable P]
    (ht : t.foldl (readChar unitOf) ⟨shown, none⟩ = ⟨shown ++ us, none⟩) :
    (if P then t else []).foldl (readChar unitOf) ⟨shown, none⟩ =
      ⟨shown ++ if P then us else [], none⟩ := by
  by_cases h : P
  · rw [if_pos h, if_pos h, ht]
  · rw [if_neg h, if_neg h, List.append_nil]
    rfl

end Read

theorem trunc_of_nonneg {x : ℚ} (h : 0 ≤ x) : trunc x = ⌊x⌋ := if_pos h

/-- **What `seconds2human` shows.** -/
theorem shown_seconds2human {secs : ℚ} (h : 0 ≤ secs) :
    shownUnits (seconds2human secs) =
      (if (split secs).days ≠ 0 then [(.days, ((split secs).days : ℚ))] else []) ++
      (if (split secs).hours ≠ 0 then [(.hours, ((split secs).hours : ℚ))] else []) ++
      (if (split secs).minutes ≠ 0 then [(.minutes, ((split secs).minutes : ℚ))] else []) ++
      (if (split secs).seconds ≠ 0 then
        [(.seconds, (⌊(split secs).seconds * 100⌋ : ℚ) / 100)] else []) := by
  have hdays := days_nonneg h
  obtain ⟨_, hhours, hminutes, hseconds⟩ := split_spec secs
  have hcenti : 0 ≤ (split secs).seconds * 100 := by linarith [hseconds.1]
  unfold shownUnits readUnits seconds2human
  dsimp only
  rw [trunc_of_nonneg hcenti]
  generalize split secs = p at hdays hhours hminutes hseconds hcenti
  simp only [List.foldl_append]
  rw [read_optional [] _ (read_days [] hdays), read_optional _ _ (read_hours _ hhours.1),
    read_optional _ _ (read_minutes _ hminutes.1),
    read_optional _ _ (read_seconds _ (Int.floor_nonneg.mpr hcenti))]
  rfl

/-- **What the total time shows.** -/
theorem shown_totalTime (secs : ℚ) :
    shownUnits (totalTime secs) =
      (if (split secs).hours > 0 then [(.hours, ((split secs).hours : ℚ))] else []) ++
      (if (split secs).hours > 0 ∨ (split secs).minutes > 0 then
        [(.minutes, ((split secs).minutes : ℚ))] else []) ++
      [(.seconds, (⌊(split secs).seconds⌋ : ℚ))] := by
  obtain ⟨_, hhours, hminutes, hseconds⟩ := split_spec secs
  unfold shownUnits readUnits totalTime
  dsimp only
  rw [trunc_of_nonneg hseconds.1]
  generalize split secs = p at hhours hminutes hseconds
  have hhour := fun shown => read_int shown hhours.1 (u := .hours) (w := "h".toList) (c := 'h')
    (a := []) (b := []) (by decide +kernel) (by simp) (by decide) (by simp)
  have hminute := fun shown => read_int shown hminutes.1 (u := .minutes) (w := "m".toList)
    (c := 'm') (a := []) (b := []) (by decide +kernel) (by simp) (by decide) (by simp)
  have hsecond := fun shown => read_int shown (Int.floor_nonneg.mpr hseconds.1) (u := .seconds)
    (w := "s".toList) (c := 's') (a := []) (b := []) (by decide +kernel) (by simp)
    (by decide) (by simp)
  have hamp : "&".toList.foldl (readChar unitOf) ⟨[], none⟩ = ⟨[], none⟩ := by
    rw [String.toList_ofList]
    rfl
  rw [List.foldl_append, hamp, List.foldl_append, read_optional [] _ (hhour []),
    List.foldl_append, read_optional _ _ (hminute _), hsecond]
  rfl

/-- A part that is left out only if it is zero. -/
theorem total_optional (u : TimeUnit) (n : ℚ) (P : Prop) [Decidable P] (h : ¬ P → n = 0) :
    total (if P then [(u, n)] else []) = u.size * n := by
  by_cases hP : P
  · simp [total, hP]
  · simp [total, hP, h hP]

theorem mem_optional {α : Type} {x y : α} {P : Prop} [Decidable P]
    (h : x ∈ if P then [y] else []) : P ∧ x = y := by
  by_cases hP : P
  · rw [if_pos hP, List.mem_singleton] at h
    exact ⟨hP, h⟩
  · rw [if_neg hP] at h
    cases h

theorem total_append (us vs : List (TimeUnit × ℚ)) : total (us ++ vs) = total us + total vs := by
  simp [total]

/-! ## What they show -/

/-- The text shows the duration up to hundredths of a second. -/
structure HumanFaithful (secs : ℚ) : Prop where
  sum : total (shownUnits (seconds2human secs)) = (⌊secs * 100⌋ : ℚ) / 100
  range : ∀ q ∈ shownUnits (seconds2human secs), InRange q

/-- The cell shows the duration in whole seconds. -/
def TotalFaithful (secs : ℚ) : Prop := total (shownUnits (totalTime secs)) = ⌊secs⌋

theorem floor_parts {p : Parts} {secs : ℚ} (h : p.Split secs) (k : ℕ) :
    ⌊secs * k⌋ = (p.days * 86400 + p.hours * 3600 + p.minutes * 60) * k + ⌊p.seconds * k⌋ := by
  rw [← h.sum]
  have hsplit : (p.days * 86400 + p.hours * 3600 + p.minutes * 60 + p.seconds : ℚ) * k =
      ((p.days * 86400 + p.hours * 3600 + p.minutes * 60) * k : ℤ) + p.seconds * k := by
    push_cast
    ring
  rw [hsplit, Int.floor_intCast_add]

/-- **`seconds2human` is faithful** for every duration. -/
theorem human_faithful {secs : ℚ} (h : 0 ≤ secs) : HumanFaithful secs := by
  have hspec := split_spec secs
  have hdays := days_nonneg h
  have hfloor := floor_parts hspec 100
  rw [Nat.cast_ofNat] at hfloor
  obtain ⟨_, hhours, hminutes, hseconds⟩ := id hspec
  constructor
  · rw [shown_seconds2human h]
    generalize split secs = p at hfloor
    rw [total_append, total_append, total_append, total_optional, total_optional, total_optional,
      total_optional, hfloor]
    · simp only [TimeUnit.size]
      push_cast
      ring
    · intro hzero
      rw [not_not.mp hzero]
      simp
    · intro hzero
      rw [not_not.mp hzero, Int.cast_zero]
    · intro hzero
      rw [not_not.mp hzero, Int.cast_zero]
    · intro hzero
      rw [not_not.mp hzero, Int.cast_zero]
  · intro q hq
    rw [shown_seconds2human h, List.mem_append, List.mem_append, List.mem_append] at hq
    rcases hq with ((hq | hq) | hq) | hq
    · obtain ⟨_, rfl⟩ := mem_optional hq
      show (0 : ℚ) ≤ _
      exact_mod_cast hdays
    · obtain ⟨_, rfl⟩ := mem_optional hq
      show (0 : ℚ) ≤ _ ∧ _ < (24 : ℚ)
      exact_mod_cast hhours
    · obtain ⟨_, rfl⟩ := mem_optional hq
      show (0 : ℚ) ≤ _ ∧ _ < (60 : ℚ)
      exact_mod_cast hminutes
    · obtain ⟨_, rfl⟩ := mem_optional hq
      have hlow : (0 : ℤ) ≤ ⌊(split secs).seconds * 100⌋ :=
        Int.floor_nonneg.mpr (by linarith [hseconds.1])
      have hhigh := Int.floor_le ((split secs).seconds * 100)
      have hlow' : (0 : ℚ) ≤ ⌊(split secs).seconds * 100⌋ := by exact_mod_cast hlow
      exact ⟨by linarith, by linarith [hseconds.2]⟩

/-- The total time leaves out whole days. -/
theorem total_totalTime (secs : ℚ) :
    total (shownUnits (totalTime secs)) = ⌊secs⌋ - (split secs).days * 86400 := by
  have hspec := split_spec secs
  have hfloor := floor_parts hspec 1
  rw [Nat.cast_one, mul_one, mul_one] at hfloor
  obtain ⟨_, hhours, hminutes, _⟩ := hspec
  rw [shown_totalTime, hfloor]
  generalize split secs = p at hhours hminutes
  rw [total_append, total_append, total_optional, total_optional]
  · simp only [total, TimeUnit.size, List.map_cons, List.map_nil, List.sum_cons, List.sum_nil]
    push_cast
    ring
  · intro hzero
    have hnone : p.minutes = 0 := by omega
    rw [hnone, Int.cast_zero]
  · intro hzero
    have hnone : p.hours = 0 := by omega
    rw [hnone, Int.cast_zero]

/-- **When both texts show the duration:** the total time does below one day. -/
theorem durations_iff {timings : List ℚ} (h : 0 ≤ timings.sum) :
    (HumanFaithful timings.sum ∧ TotalFaithful timings.sum) ↔ timings.sum < 86400 := by
  rw [and_iff_right (human_faithful h), TotalFaithful, total_totalTime, ← days_eq_zero_iff h]
  constructor
  · intro hsum
    have hzero : ((split timings.sum).days : ℚ) = 0 := by linarith
    exact_mod_cast hzero
  · intro hzero
    rw [hzero]
    simp

theorem durations_of_an_hour :
    (HumanFaithful [3600, 1 / 4].sum ∧ TotalFaithful [3600, 1 / 4].sum) ↔
      [3600, (1 / 4 : ℚ)].sum < 86400 :=
  durations_iff (by norm_num)

/-- **Three hundred timeouts of 300 seconds** are shown as one hour. -/
theorem campaign_shown :
    (List.replicate 300 (300 : ℚ)).sum = 90000 ∧
      totalTime (List.replicate 300 (300 : ℚ)).sum = "&1h0m0s".toList ∧
      total (shownUnits (totalTime (List.replicate 300 (300 : ℚ)).sum)) = 3600 ∧
      ¬ TotalFaithful (List.replicate 300 (300 : ℚ)).sum := by
  have hsum : (List.replicate 300 (300 : ℚ)).sum = 90000 := by
    rw [List.sum_replicate]
    norm_num
  have hdays : (split 90000).days = 1 := by decide +kernel
  have htotal : total (shownUnits (totalTime 90000)) = 3600 := by
    rw [total_totalTime, hdays]
    norm_num
  rw [hsum]
  refine ⟨rfl, by decide +kernel, htotal, ?_⟩
  rw [TotalFaithful, htotal]
  norm_num

end MpiBugs.Durations
