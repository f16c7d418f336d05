import Mathlib.Data.List.Forall2
import Mathlib.Data.List.Infix
import Mathlib.Tactic.Common

/-!
# Replacing occurrences in a sequence

`Rewrites p d xs ys`: some disjoint occurrences of `p` in `xs` are replaced by
`d`, which gives `ys`. The relation is symmetric in the two sides.

* `Rewrites.cut`: a cut of one side is a cut of the other, unless it goes
  through a replaced part;
* `Rewrites.keep_or_hit`: a part is kept, or a replaced part starts in it;
* `Replaced`: occurrences of one element are replaced, and counted;
* `Rewrites.splitOn`: pieces between separators are rewritten piece by piece;
* `FirstWith.congr`: where pieces agree, the first of a kind is the same;
* `SameBut`: two sequences are the same but for occurrences of a third.
-/

namespace MpiBugs.Rewriting

variable {α : Type}

/-- `ys` is `xs` with some occurrences of `p` replaced by `d`. -/
inductive Rewrites (p d : List α) : List α → List α → Prop
  | nil : Rewrites p d [] []
  | hit {xs ys} : Rewrites p d xs ys → Rewrites p d (p ++ xs) (d ++ ys)
  | keep {xs ys} (a : α) : Rewrites p d xs ys → Rewrites p d (a :: xs) (a :: ys)

namespace Rewrites

variable {p d xs ys : List α}

theorem symm (h : Rewrites p d xs ys) : Rewrites d p ys xs := by
  induction h with
  | nil => exact .nil
  | hit _ ih => exact .hit ih
  | keep a _ ih => exact .keep a ih

theorem nil_iff (hp : p ≠ []) (hd : d ≠ []) (h : Rewrites p d xs ys) : xs = [] ↔ ys = [] := by
  cases h with
  | nil => exact Iff.rfl
  | hit _ => simp [hp, hd]
  | keep a _ => simp

/-- Where `p` does not occur nothing is replaced. -/
theorem eq_of_absent (h : Rewrites p d xs ys) (hxs : ¬ p <:+: xs) : ys = xs := by
  induction h with
  | nil => rfl
  | hit _ _ => exact absurd (List.prefix_append _ _).isInfix hxs
  | keep b _ ih => rw [ih fun hin => hxs (hin.trans (List.suffix_cons _ _).isInfix)]

/-- **Cuts correspond**, but for those inside a replaced part. -/
theorem cut {as bs : List α} (h : Rewrites p d xs ys) (hxs : xs = as ++ bs) :
    (∃ as' bs', ys = as' ++ bs' ∧ Rewrites p d as as' ∧ Rewrites p d bs bs') ∨
      ∃ as₀ p₁ p₂ bs₀, as = as₀ ++ p₁ ∧ bs = p₂ ++ bs₀ ∧ p = p₁ ++ p₂ ∧ p₁ ≠ [] ∧ p₂ ≠ [] := by
  induction h generalizing as with
  | nil =>
    obtain ⟨rfl, rfl⟩ := List.append_eq_nil_iff.mp hxs.symm
    exact .inl ⟨[], [], rfl, .nil, .nil⟩
  | @keep xs ys a h ih =>
    cases as with
    | nil =>
      rw [List.nil_append] at hxs
      exact .inl ⟨[], a :: ys, rfl, .nil, hxs ▸ .keep a h⟩
    | cons b as =>
      obtain ⟨rfl, htail⟩ := List.cons.inj hxs
      rcases ih htail with ⟨as', bs', rfl, hl, hr⟩ | ⟨as₀, p₁, p₂, bs₀, rfl, hrest⟩
      · exact .inl ⟨a :: as', bs', rfl, .keep a hl, hr⟩
      · exact .inr ⟨a :: as₀, p₁, p₂, bs₀, rfl, hrest⟩
  | @hit xs ys h ih =>
    rcases List.append_eq_append_iff.mp hxs with ⟨as₁, rfl, has⟩ | ⟨p₂, hp, hbs⟩
    · -- the replaced part is before the cut
      rcases ih has with ⟨as', bs', rfl, hl, hr⟩ | ⟨as₀, p₁, p₂, bs₀, rfl, hrest⟩
      · exact .inl ⟨d ++ as', bs', by rw [List.append_assoc], .hit hl, hr⟩
      · exact .inr ⟨p ++ as₀, p₁, p₂, bs₀, by rw [List.append_assoc], hrest⟩
    · by_cases has : as = []
      · subst has
        refine .inl ⟨[], d ++ ys, rfl, .nil, ?_⟩
        rw [hbs, ← show p = p₂ from hp]
        exact .hit h
      · by_cases hp₂ : p₂ = []
        · subst hp₂
          rw [List.append_nil] at hp
          rw [List.nil_append] at hbs
          have hl := hit (p := p) (d := d) .nil
          rw [List.append_nil, List.append_nil] at hl
          exact .inl ⟨d, ys, rfl, hp ▸ hl, hbs ▸ h⟩
        · exact .inr ⟨[], as, p₂, xs, rfl, hbs, hp, has, hp₂⟩

/-- A part is kept, or a replaced part starts in it. -/
theorem keep_or_hit {ws bs : List α} (h : Rewrites p d xs ys) (hxs : xs = ws ++ bs) (hp : p ≠ []) :
    (∃ bs', ys = ws ++ bs' ∧ Rewrites p d bs bs') ∨
      ∃ ws₁ ws₂ zs, ws = ws₁ ++ ws₂ ∧ ws₂ ≠ [] ∧ ws₂.head? = p.head? ∧ ys = ws₁ ++ (d ++ zs) := by
  induction ws generalizing xs ys with
  | nil => exact .inl ⟨ys, rfl, by rwa [← show xs = bs from hxs]⟩
  | cons w ws ih =>
    cases h with
    | nil => cases hxs
    | @hit xs ys h =>
      obtain ⟨a, p, rfl⟩ := List.exists_cons_of_ne_nil hp
      obtain ⟨rfl, _⟩ := List.cons.inj hxs
      exact .inr ⟨[], a :: ws, ys, rfl, by simp, rfl, rfl⟩
    | keep b h =>
      obtain ⟨rfl, htail⟩ := List.cons.inj hxs
      rcases ih h htail with ⟨bs', rfl, hbs⟩ | ⟨ws₁, ws₂, zs, rfl, hne, hhead, rfl⟩
      · exact .inl ⟨bs', rfl, hbs⟩
      · exact .inr ⟨b :: ws₁, ws₂, zs, rfl, hne, hhead, rfl⟩

/-- A part in which no occurrence can start is kept. -/
theorem keep_left {ws bs : List α} (h : Rewrites p d xs ys) (hxs : xs = ws ++ bs) (hp : p ≠ [])
    (hws : ∀ a ∈ p.head?, a ∉ ws) : ∃ bs', ys = ws ++ bs' ∧ Rewrites p d bs bs' := by
  rcases h.keep_or_hit hxs hp with hkeep | ⟨ws₁, ws₂, zs, rfl, hne, hhead, _⟩
  · exact hkeep
  · obtain ⟨a, ws₂, rfl⟩ := List.exists_cons_of_ne_nil hne
    exact absurd (List.mem_append_right _ (List.mem_cons_self ..)) (hws a hhead.symm)

/-- What stands last is kept, or is the end of a replaced part. -/
theorem getLast? (hp : p ≠ []) (hd : d ≠ []) (h : Rewrites p d xs ys) :
    ys.getLast? = xs.getLast? ∨ xs.getLast? = p.getLast? ∧ ys.getLast? = d.getLast? := by
  induction h with
  | nil => exact .inl rfl
  | @hit xs ys h ih =>
    by_cases hxs : xs = []
    · have hys := (h.nil_iff hp hd).mp hxs
      simp [hxs, hys]
    · have hys : ys ≠ [] := fun hys => hxs ((h.nil_iff hp hd).mpr hys)
      rwa [List.getLast?_append_of_ne_nil _ hxs, List.getLast?_append_of_ne_nil _ hys]
  | @keep xs ys a h ih =>
    by_cases hxs : xs = []
    · have hys := (h.nil_iff hp hd).mp hxs
      simp [hxs, hys]
    · have hys : ys ≠ [] := fun hys => hxs ((h.nil_iff hp hd).mpr hys)
      rw [show a :: xs = [a] ++ xs from rfl, show a :: ys = [a] ++ ys from rfl]
      rwa [List.getLast?_append_of_ne_nil _ hxs, List.getLast?_append_of_ne_nil _ hys]

end Rewrites

/-! ## Counted replacements of one element -/

/-- `n` occurrences of `a` are replaced by `bs`. -/
inductive Replaced (a : α) (bs : List α) : Nat → List α → List α → Prop
  | nil : Replaced a bs 0 [] []
  | keep {n xs ys} (b : α) : Replaced a bs n xs ys → Replaced a bs n (b :: xs) (b :: ys)
  | hit {n xs ys} : Replaced a bs n xs ys → Replaced a bs (n + 1) (a :: xs) (bs ++ ys)

namespace Replaced

variable {a : α} {bs xs ys : List α} {n : Nat}

theorem append_left (h : Replaced a bs n xs ys) (zs : List α) :
    Replaced a bs n (zs ++ xs) (zs ++ ys) := by
  induction zs with
  | nil => exact h
  | cons b zs ih => exact .keep b ih

theorem append_right (h : Replaced a bs n xs ys) (zs : List α) :
    Replaced a bs n (xs ++ zs) (ys ++ zs) := by
  induction h with
  | nil => simpa using append_left .nil zs
  | keep b _ ih => exact .keep b ih
  | hit _ ih =>
    rw [List.append_assoc]
    exact .hit ih

theorem mem (h : Replaced a bs n xs ys) {b : α} (hb : b ∈ ys) : b ∈ xs ∨ b ∈ bs := by
  induction h with
  | nil => cases hb
  | keep c _ ih =>
    rcases List.mem_cons.mp hb with rfl | hb
    · exact .inl List.mem_cons_self
    · exact (ih hb).imp_left (List.mem_cons_of_mem c)
  | hit _ ih =>
    rcases List.mem_append.mp hb with hb | hb
    · exact .inr hb
    · exact (ih hb).imp_left (List.mem_cons_of_mem a)

theorem mem_of_ne (h : Replaced a bs n xs ys) {b : α} (hb : b ∈ xs) (hne : b ≠ a) : b ∈ ys := by
  induction h with
  | nil => cases hb
  | keep c _ ih =>
    rcases List.mem_cons.mp hb with rfl | hb
    · exact List.mem_cons_self
    · exact List.mem_cons_of_mem c (ih hb)
  | hit _ ih => exact List.mem_append_right bs (ih (List.mem_of_ne_of_mem hne hb))

/-- Deleting makes the sequence shorter. -/
theorem length_of_nil (h : Replaced a [] n xs ys) : ys.length + n = xs.length := by
  induction h with
  | nil => rfl
  | keep b _ ih => simp only [List.length_cons, ← ih]; omega
  | hit _ ih => simp only [List.nil_append, List.length_cons, ← ih]; omega

end Replaced

/-! ## Pieces between separators -/

section

variable [DecidableEq α] {p d xs ys : List α} {a : α}

theorem splitOn_cons_of_ne {x : α} (hx : x ≠ a) (xs : List α) :
    (x :: xs).splitOn a = (xs.splitOn a).modifyHead (x :: ·) := by
  rw [List.splitOn_cons_eq_if_modifyHead, beq_false_of_ne hx]
  rfl

theorem splitOn_cons_self (xs : List α) : (a :: xs).splitOn a = [] :: xs.splitOn a := by
  rw [List.splitOn_cons_eq_if_modifyHead, beq_self_eq_true]
  rfl

/-- A part without separator belongs to the first piece. -/
theorem splitOn_append_left (hp : a ∉ p) (xs : List α) :
    (p ++ xs).splitOn a = (xs.splitOn a).modifyHead (p ++ ·) := by
  induction p with
  | nil =>
    show xs.splitOn a = (xs.splitOn a).modifyHead id
    rw [List.modifyHead_id]
    rfl
  | cons b p ih =>
    rw [List.mem_cons, not_or] at hp
    rw [List.cons_append, splitOn_cons_of_ne (Ne.symm hp.1), ih hp.2, List.modifyHead_modifyHead]
    rfl

private theorem forall₂_modifyHead {β : Type} {R : β → β → Prop} {f g : β → β} {xs ys : List β}
    (hfg : ∀ x y, R x y → R (f x) (g y)) (h : List.Forall₂ R xs ys) :
    List.Forall₂ R (xs.modifyHead f) (ys.modifyHead g) := by
  cases h with
  | nil => exact .nil
  | cons hxy h => exact .cons (hfg _ _ hxy) h

/-- **The pieces are rewritten one by one** if nothing replaced has a separator. -/
theorem Rewrites.splitOn (hp : a ∉ p) (hd : a ∉ d) (h : Rewrites p d xs ys) :
    List.Forall₂ (Rewrites p d) (xs.splitOn a) (ys.splitOn a) := by
  induction h with
  | nil => exact .cons .nil .nil
  | hit _ ih =>
    rw [splitOn_append_left hp, splitOn_append_left hd]
    exact forall₂_modifyHead (fun _ _ h => .hit h) ih
  | keep b _ ih =>
    by_cases hb : b = a
    · rw [hb, splitOn_cons_self, splitOn_cons_self]
      exact .cons .nil ih
    · rw [splitOn_cons_of_ne hb, splitOn_cons_of_ne hb]
      exact forall₂_modifyHead (fun _ _ h => .keep b h) ih

private theorem head_splitOn_prefix (xs : List α) : ∀ l ∈ (xs.splitOn a).head?, l <+: xs := by
  induction xs with
  | nil => simp
  | cons x xs ih =>
    intro l hl
    by_cases hx : x = a
    · rw [hx, splitOn_cons_self] at hl
      obtain rfl : [] = l := by simpa using hl
      exact List.nil_prefix
    · obtain ⟨k, ks, hks⟩ := List.exists_cons_of_ne_nil (List.splitOn_ne_nil a xs)
      rw [splitOn_cons_of_ne hx, hks] at hl
      rw [hks] at ih
      obtain rfl : x :: k = l := by simpa using hl
      exact List.cons_prefix_cons.mpr ⟨rfl, ih k rfl⟩

theorem infix_of_mem_splitOn {l : List α} (hl : l ∈ xs.splitOn a) : l <:+: xs := by
  induction xs generalizing l with
  | nil =>
    rw [List.splitOn_nil, List.mem_singleton] at hl
    rw [hl]
  | cons x xs ih =>
    by_cases hx : x = a
    · rw [hx, splitOn_cons_self, List.mem_cons] at hl
      rcases hl with rfl | hl
      · exact List.nil_infix
      · exact (ih hl).trans (List.suffix_cons x xs).isInfix
    · obtain ⟨k, ks, hks⟩ := List.exists_cons_of_ne_nil (List.splitOn_ne_nil a xs)
      have hk : k <+: xs := head_splitOn_prefix xs k (by rw [hks]; rfl)
      rw [splitOn_cons_of_ne hx, hks, List.modifyHead_cons, List.mem_cons] at hl
      rcases hl with rfl | hl
      · exact (List.cons_prefix_cons.mpr ⟨rfl, hk⟩).isInfix
      · exact (ih (by rw [hks]; exact List.mem_cons_of_mem _ hl)).trans (List.suffix_cons x xs).isInfix

end

/-! ## The first of a kind -/

/-- The `n`-th element, counted from one, is the first with `q`. -/
inductive FirstWith (q : α → Prop) : List α → Nat → Prop
  | here {x xs} : q x → FirstWith q (x :: xs) 1
  | there {x xs n} : ¬ q x → FirstWith q xs n → FirstWith q (x :: xs) (n + 1)

variable {β : Type} {q : α → Prop} {q' : β → Prop}

theorem FirstWith.unique {xs : List α} {m n : Nat} (h : FirstWith q xs m) (h' : FirstWith q xs n) :
    m = n := by
  induction h generalizing n with
  | here hx =>
    cases h' with
    | here _ => rfl
    | there hx' _ => exact absurd hx hx'
  | there hx _ ih =>
    cases h' with
    | here hx' => exact absurd hx' hx
    | there _ h' => rw [ih h']

theorem FirstWith.pos {xs : List α} {n : Nat} (h : FirstWith q xs n) : 0 < n := by
  cases h with
  | here _ => exact Nat.one_pos
  | there _ _ => exact Nat.succ_pos _

/-- **Where pieces agree, the first of a kind is the same.** -/
theorem FirstWith.congr {xs : List α} {ys : List β} {n : Nat}
    (h : List.Forall₂ (fun x y => q x ↔ q' y) xs ys) (hn : FirstWith q xs n) :
    FirstWith q' ys n := by
  induction hn generalizing ys with
  | here hx =>
    cases h with
    | cons hxy _ => exact .here (hxy.mp hx)
  | there hx _ ih =>
    cases h with
    | cons hxy h => exact .there (fun hy => hx (hxy.mpr hy)) (ih h)

/-! ## The same but for occurrences -/

/-- Read from the left, both sides have the same elements outside the
occurrences of `p`. -/
inductive SameBut (p : List α) : List α → List α → Prop
  | nil : SameBut p [] []
  | left {xs ys} : SameBut p xs ys → SameBut p (p ++ xs) ys
  | right {xs ys} : SameBut p xs ys → SameBut p xs (p ++ ys)
  | keep {a xs ys} : ¬ p <+: a :: xs → ¬ p <+: a :: ys → SameBut p xs ys →
      SameBut p (a :: xs) (a :: ys)

end MpiBugs.Rewriting
