import MpiBugs.Regex
import Mathlib.Data.Rat.Floor
import Mathlib.Tactic.Linarith
import Mathlib.Tactic.FieldSimp
import Mathlib.Tactic.Ring

/-!
# Decimal texts

The shortest text of a number with a given number of digits after the point, at
least one of them printed, and reading numbers with units back from a text.

* `decimalText_injective`: such texts are equal only for equal numbers;
* `read_decimalText`: read as a number it is the number.
-/

namespace MpiBugs.Decimal

/-! ## Digits -/

theorem digitChar_injective : ∀ d < 10, ∀ e < 10, Nat.digitChar d = Nat.digitChar e → d = e := by
  decide

theorem isDigit_digitChar : ∀ d < 10, (Nat.digitChar d).isDigit = true := by decide

theorem value_digitChar : ∀ d < 10, (Nat.digitChar d).toNat - 48 = d := by decide

/-- The digits of `m / 10 ^ k` after the point, without zeros at the end. -/
def fracText : Nat → Nat → List Char
  | 0, _ => []
  | k + 1, m =>
    Nat.digitChar (m / 10 ^ k) :: if m % 10 ^ k = 0 then [] else fracText k (m % 10 ^ k)

/-- The text of `n / 10 ^ places`. -/
def decimalText (places n : Nat) : List Char :=
  Nat.toDigits 10 (n / 10 ^ places) ++ '.' :: fracText places (n % 10 ^ places)

theorem digit_lt {k m : Nat} (h : m < 10 ^ (k + 1)) : m / 10 ^ k < 10 := by
  rw [Nat.div_lt_iff_lt_mul (by positivity), ← Nat.pow_succ']
  exact h

theorem fracText_injective (k : Nat) : ∀ {m m' : Nat}, m < 10 ^ k → m' < 10 ^ k →
    fracText k m = fracText k m' → m = m' := by
  induction k with
  | zero => intro m m' hm hm' _; omega
  | succ k ih =>
    intro m m' hm hm' h
    obtain ⟨hdigit, hrest⟩ := List.cons.inj h
    have hquot := digitChar_injective _ (digit_lt hm) _ (digit_lt hm') hdigit
    have hne : ∀ r, r < 10 ^ k → r ≠ 0 → fracText k r ≠ [] := by
      intro r hr hr0
      cases k with
      | zero => omega
      | succ k => exact List.cons_ne_nil _ _
    have hmod : m % 10 ^ k = m' % 10 ^ k := by
      have hlt := Nat.mod_lt m (show 10 ^ k > 0 by positivity)
      have hlt' := Nat.mod_lt m' (show 10 ^ k > 0 by positivity)
      by_cases h0 : m % 10 ^ k = 0
      · by_cases h0' : m' % 10 ^ k = 0
        · rw [h0, h0']
        · rw [if_pos h0, if_neg h0'] at hrest
          exact absurd hrest.symm (hne _ hlt' h0')
      · by_cases h0' : m' % 10 ^ k = 0
        · rw [if_neg h0, if_pos h0'] at hrest
          exact absurd hrest (hne _ hlt h0)
        · rw [if_neg h0, if_neg h0'] at hrest
          exact ih hlt hlt' hrest
    rw [← Nat.div_add_mod m (10 ^ k), ← Nat.div_add_mod m' (10 ^ k), hquot, hmod]

theorem toDigits_digits {n : Nat} : ∀ c ∈ Nat.toDigits 10 n, c.isDigit = true :=
  fun _ hc => Nat.isDigit_of_mem_toDigits (by decide) (by decide) hc

theorem toDigits_injective {n m : Nat} (h : Nat.toDigits 10 n = Nat.toDigits 10 m) : n = m := by
  rw [← Nat.ofDigitChars_ten_toDigits (n := n), h, Nat.ofDigitChars_ten_toDigits]

/-- **Equal texts are texts of equal numbers.** -/
theorem decimalText_injective {places n m : Nat} (h : decimalText places n = decimalText places m) :
    n = m := by
  have hdigits : ∀ k, ∀ c ∈ Nat.toDigits 10 k, ¬ c.isDigit = false := by
    intro k c hc
    simp [toDigits_digits c hc]
  obtain ⟨hwhole, _, hfrac⟩ := Regex.split_unique (P := fun c => c.isDigit = false) h rfl rfl
    (hdigits _) (hdigits _)
  have hquot := toDigits_injective hwhole
  have hmod := fracText_injective places (Nat.mod_lt n (by positivity))
    (Nat.mod_lt m (by positivity)) hfrac
  rw [← Nat.div_add_mod n (10 ^ places), ← Nat.div_add_mod m (10 ^ places), hquot, hmod]

/-! ## Reading numbers and their units -/

variable {υ : Type}

/-- What has been read: the quantities, and the digits of a number that has no
unit yet, with the number of those after the point. -/
structure Reading (υ : Type) where
  shown : List (υ × ℚ)
  pending : Option (Nat × Option Nat)

/-- The value of some digits. -/
def numberValue (p : Nat × Option Nat) : ℚ := p.1 / 10 ^ p.2.getD 0

/-- A number counts with the first unit after it; other characters say nothing. -/
def readChar (unit : Char → Option υ) (r : Reading υ) (c : Char) : Reading υ :=
  if c.isDigit then
    match r.pending with
    | none => ⟨r.shown, some (c.toNat - 48, none)⟩
    | some (n, k) => ⟨r.shown, some (10 * n + (c.toNat - 48), k.map (· + 1))⟩
  else if c = '.' then ⟨r.shown, r.pending.map fun p => (p.1, some 0)⟩
  else
    match r.pending, unit c with
    | some p, some u => ⟨r.shown ++ [(u, numberValue p)], none⟩
    | _, _ => r

/-- The quantities shown in a text. -/
def readUnits (unit : Char → Option υ) (t : List Char) : List (υ × ℚ) :=
  (t.foldl (readChar unit) ⟨[], none⟩).shown

section Read

variable (unit : Char → Option υ) (shown : List (υ × ℚ))

theorem readChar_digit (p : Option (Nat × Option Nat)) {d : Nat} (hd : d < 10) :
    readChar unit ⟨shown, p⟩ (Nat.digitChar d) =
      match p with
      | none => ⟨shown, some (d, none)⟩
      | some (n, k) => ⟨shown, some (10 * n + d, k.map (· + 1))⟩ := by
  unfold readChar
  rw [if_pos (isDigit_digitChar d hd), value_digitChar d hd]

theorem read_toDigits (n : Nat) :
    (Nat.toDigits 10 n).foldl (readChar unit) ⟨shown, none⟩ = ⟨shown, some (n, none)⟩ := by
  induction n using Nat.strong_induction_on with
  | _ n ih =>
    rcases Nat.lt_or_ge n 10 with hlt | hge
    · rw [Nat.toDigits_of_lt_base hlt]
      exact readChar_digit unit shown none hlt
    · rw [Nat.toDigits_of_base_le (by decide) hge, List.foldl_append, ih (n / 10) (by omega),
        List.foldl_cons, List.foldl_nil, readChar_digit unit shown _ (Nat.mod_lt n (by decide))]
      have hn : 10 * (n / 10) + n % 10 = n := Nat.div_add_mod n 10
      simp only [hn, Option.map_none]

theorem read_fracText (k : Nat) : ∀ {m : Nat}, m < 10 ^ k → ∀ n j, ∃ p,
    (fracText k m).foldl (readChar unit) ⟨shown, some (n, some j)⟩ = ⟨shown, some p⟩ ∧
      numberValue p = n / 10 ^ j + m / 10 ^ (k + j) := by
  induction k with
  | zero =>
    intro m hm n j
    obtain rfl : m = 0 := by omega
    exact ⟨(n, some j), rfl, by simp [numberValue]⟩
  | succ k ih =>
    intro m hm n j
    have hsplit : ((10 ^ k * (m / 10 ^ k) + m % 10 ^ k : ℕ) : ℚ) = m := by
      rw [Nat.div_add_mod]
    push_cast at hsplit
    rw [fracText, List.foldl_cons, readChar_digit unit shown _ (digit_lt hm)]
    simp only [Option.map_some]
    split
    · rename_i hzero
      refine ⟨_, rfl, ?_⟩
      rw [← hsplit, hzero]
      simp only [numberValue, Option.getD_some]
      push_cast
      field_simp
      ring
    · obtain ⟨p, hp, hvalue⟩ :=
        ih (Nat.mod_lt m (show 10 ^ k > 0 by positivity)) (10 * n + m / 10 ^ k) (j + 1)
      refine ⟨p, hp, ?_⟩
      rw [hvalue, ← hsplit]
      push_cast
      field_simp
      ring

/-- **Reading a decimal text.** -/
theorem read_decimalText (places n : Nat) : ∃ p,
    (decimalText places n).foldl (readChar unit) ⟨shown, none⟩ = ⟨shown, some p⟩ ∧
      numberValue p = n / 10 ^ places := by
  obtain ⟨p, hp, hvalue⟩ := read_fracText unit shown places
    (Nat.mod_lt n (show 10 ^ places > 0 by positivity)) (n / 10 ^ places) 0
  refine ⟨p, ?_, ?_⟩
  · rw [decimalText, List.foldl_append, read_toDigits]
    exact hp
  · have hsplit : ((10 ^ places * (n / 10 ^ places) + n % 10 ^ places : ℕ) : ℚ) = n := by
      rw [Nat.div_add_mod]
    push_cast at hsplit
    rw [hvalue, ← hsplit]
    field_simp
    ring

/-- **A unit after a number:** the characters before it say nothing, those after
it come too late. -/
theorem read_unit {u : υ} {before after : List Char} {c : Char}
    (hbefore : ∀ x ∈ before, x.isDigit = false ∧ x ≠ '.' ∧ unit x = none)
    (hc : c.isDigit = false ∧ c ≠ '.' ∧ unit c = some u)
    (hafter : ∀ x ∈ after, x.isDigit = false ∧ x ≠ '.') (p : Nat × Option Nat) :
    (before ++ c :: after).foldl (readChar unit) ⟨shown, some p⟩ =
      ⟨shown ++ [(u, numberValue p)], none⟩ := by
  have hskip : ∀ (t : List Char) (r : Reading υ), (∀ x ∈ t, readChar unit r x = r) →
      t.foldl (readChar unit) r = r := by
    intro t r ht
    induction t with
    | nil => rfl
    | cons x t ih =>
      obtain ⟨hx, ht⟩ := List.forall_mem_cons.mp ht
      rw [List.foldl_cons, hx, ih ht]
  have hunit : readChar unit ⟨shown, some p⟩ c = ⟨shown ++ [(u, numberValue p)], none⟩ := by
    simp [readChar, hc]
  rw [List.foldl_append, hskip before, List.foldl_cons, hunit, hskip after]
  · intro x hx
    simp [readChar, hafter x hx]
  · intro x hx
    simp [readChar, hbefore x hx]

end Read

/-! ## Floats -/

/-- The text of a number with at most four digits after the point. -/
def floatText (q : ℚ) : List Char :=
  (if q < 0 then ['-'] else []) ++ decimalText 4 ⌊|q| * 10000⌋.toNat

theorem floatText_natCast (n : Nat) : floatText (n / 10000) = decimalText 4 n := by
  have hpos : (0 : ℚ) ≤ n / 10000 := by positivity
  rw [floatText, if_neg (not_lt.mpr hpos), abs_of_nonneg hpos, div_mul_cancel₀ _ (by norm_num),
    Int.floor_natCast]
  rfl

end MpiBugs.Decimal
