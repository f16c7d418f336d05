import Mathlib.Data.List.Basic
import Mathlib.Data.List.Infix
import Mathlib.Tactic.Common
import MpiBugs.Rewriting

/-!
# Backtracking regular expressions

Matching in the manner of Python's `re`: choices are tried in order, a
repetition tries one more round first (greedy) or last (lazy), the first
success is the match, and `search` takes the leftmost position that has one.

* `mem_run_iff`: the executable matcher returns exactly the end states of the
  relational semantics `Steps`;
* `search_isSome_iff`, `search_lit_isSome`: searching succeeds iff some
  factor of the text is matched, for a literal iff it is an infix;
* `head?_seq`, `head?_many_cls`: the first match of a greedy sequence;
* `sub_of_skips`, `sub_of_first`: substitution for expressions that consume;
* `sub_lit_eq_iff`: which texts are the same after a literal has been deleted.
-/

namespace MpiBugs

abbrev Text := List Char

/-- Decided on the text, and not over all characters there are. -/
instance (priority := 2000) decidableForallMemText (p : Char → Prop) [DecidablePred p] (t : Text) :
    Decidable (∀ c ∈ t, p c) := List.decidableBAll p t

/-- Regular expressions; a character class is its membership test. -/
inductive Regex
  | eps
  | cls (p : Char → Bool)
  | seq (r q : Regex)
  | alt (r q : Regex)
  | star (greedy : Bool) (r : Regex)
  | group (n : Nat) (r : Regex)

namespace Regex

/-- The text still ahead and the groups captured so far, last one first. -/
structure State where
  rest : Text
  groups : List (Nat × Text)
  deriving DecidableEq, Repr

instance : Append Regex := ⟨seq⟩

def lit : Text → Regex
  | [] => eps
  | c :: w => seq (cls (· == c)) (lit w)

def chars (s : String) : Regex := lit s.toList

/-- `.`: any character but a line feed. -/
def dot : Regex := cls (· != '\n')

def many (r : Regex) : Regex := star true r
def manyLazy (r : Regex) : Regex := star false r
def plus (r : Regex) : Regex := r ++ many r
def opt (r : Regex) : Regex := alt r eps

/-! ## The matcher -/

/-- At most `k` rounds of `f`; a round that consumes nothing is dropped. -/
def loop (f : State → List State) (greedy : Bool) : Nat → State → List State
  | 0, s => [s]
  | k + 1, s =>
    let more := ((f s).filter (fun t => t.rest.length < s.rest.length)).flatMap (loop f greedy k)
    if greedy then more ++ [s] else s :: more

/-- All end states, in the order in which backtracking visits them. -/
def run : Regex → State → List State
  | eps, s => [s]
  | cls p, s =>
    match s.rest with
    | [] => []
    | c :: t => if p c then [⟨t, s.groups⟩] else []
  | seq r q, s => (run r s).flatMap (run q)
  | alt r q, s => run r s ++ run q s
  | star greedy r, s => loop (run r) greedy s.rest.length s
  | group n r, s =>
    (run r s).map fun t =>
      ⟨t.rest, (n, s.rest.take (s.rest.length - t.rest.length)) :: t.groups⟩

/-- A match: where it starts, where it ends, and its groups. -/
structure Match where
  start : Text
  rest : Text
  groups : List (Nat × Text)
  deriving DecidableEq, Repr

/-- `m.group(n)`; group 0 is the whole match. -/
def Match.group (m : Match) (n : Nat) : Option Text :=
  if n = 0 then some (m.start.take (m.start.length - m.rest.length))
  else (m.groups.find? (·.1 == n)).map (·.2)

/-- The first end state of a match at the start of the text. -/
def first (r : Regex) (s : Text) : Option State := (run r ⟨s, []⟩).head?

/-- `re.match`. -/
def matchStart (r : Regex) (s : Text) : Option Match :=
  (first r s).map fun t => ⟨s, t.rest, t.groups⟩

/-- `re.search`: the leftmost match. -/
def search (r : Regex) : Text → Option Match
  | [] => matchStart r []
  | c :: s => (matchStart r (c :: s)).or (search r s)

/-- One pass of `re.sub` with `fuel` steps; after an empty match the next one
may not be empty at the same place. -/
def subLoop (r : Regex) (repl : Match → Text) : Nat → Bool → Text → Text
  | 0, _, s => s
  | k + 1, advance, s =>
    match (run r ⟨s, []⟩).find? (fun t => !advance || t.rest.length < s.length) with
    | some t => repl ⟨s, t.rest, t.groups⟩ ++ subLoop r repl k (t.rest.length == s.length) t.rest
    | none =>
      match s with
      | [] => []
      | c :: s => c :: subLoop r repl k false s

/-- `re.sub`. -/
def sub (r : Regex) (repl : Match → Text) (s : Text) : Text :=
  subLoop r repl (2 * s.length + 2) false s

/-! ## Relational semantics -/

inductive Steps : Regex → State → State → Prop
  | eps (s) : Steps eps s s
  | cls {p c t g} : p c = true → Steps (cls p) ⟨c :: t, g⟩ ⟨t, g⟩
  | seq {r q s t u} : Steps r s t → Steps q t u → Steps (seq r q) s u
  | altLeft {r q s t} : Steps r s t → Steps (alt r q) s t
  | altRight {r q s t} : Steps q s t → Steps (alt r q) s t
  | starNil {b r} (s) : Steps (star b r) s s
  | starCons {b r s t u} : Steps r s t → t.rest.length < s.rest.length →
      Steps (star b r) t u → Steps (star b r) s u
  | group {n r s t} : Steps r s t →
      Steps (group n r) s
        ⟨t.rest, (n, s.rest.take (s.rest.length - t.rest.length)) :: t.groups⟩

/-- One more round is either not taken or consumes something. -/
theorem mem_loop_succ (f : State → List State) (b : Bool) (k : Nat) (s u : State) :
    u ∈ loop f b (k + 1) s ↔
      u = s ∨ ∃ t ∈ f s, t.rest.length < s.rest.length ∧ u ∈ loop f b k t := by
  cases b <;> simp [loop, and_assoc, or_comm]

private theorem steps_of_mem_loop {r : Regex} {b : Bool}
    (hr : ∀ s t, t ∈ run r s → Steps r s t) (k : Nat) :
    ∀ s u, u ∈ loop (run r) b k s → Steps (star b r) s u := by
  induction k with
  | zero =>
    intro s u h
    rw [List.mem_singleton.mp h]
    exact Steps.starNil s
  | succ k ih =>
    intro s u h
    rcases (mem_loop_succ _ _ _ _ _).mp h with rfl | ⟨t, ht, hlt, hu⟩
    · exact Steps.starNil _
    · exact Steps.starCons (hr s t ht) hlt (ih t u hu)

private theorem mem_loop_of_steps {q : Regex} {s u : State} (h : Steps q s u) :
    ∀ b r, q = star b r → (∀ s t, Steps r s t → t ∈ run r s) →
      ∀ k, s.rest.length ≤ k → u ∈ loop (run r) b k s := by
  induction h with
  | starNil s =>
    intro b r hq _ k _
    cases k with
    | zero => simp [loop]
    | succ k => exact (mem_loop_succ _ _ _ _ _).mpr (Or.inl rfl)
  | @starCons b' r' s t u hst hlt _ _ ih =>
    intro b r hq hr k hk
    cases k with
    | zero => omega
    | succ k =>
      obtain ⟨rfl, rfl⟩ := Regex.star.inj hq
      exact (mem_loop_succ _ _ _ _ _).mpr
        (Or.inr ⟨t, hr s t hst, hlt, ih _ _ rfl hr k (by omega)⟩)
  | _ => intro b r hq; cases hq

/-- **The matcher computes the relation.** -/
theorem mem_run_iff (r : Regex) : ∀ s t, t ∈ run r s ↔ Steps r s t := by
  induction r with
  | eps =>
    intro s t
    constructor
    · intro h; simp only [run, List.mem_singleton] at h; exact h ▸ Steps.eps s
    · intro h; cases h; simp [run]
  | cls p =>
    intro s t
    obtain ⟨rest, g⟩ := s
    constructor
    · intro h
      cases rest with
      | nil => simp [run] at h
      | cons c rest =>
        by_cases hp : p c = true
        · simp only [run, hp, ↓reduceIte, List.mem_singleton] at h
          exact h ▸ Steps.cls hp
        · simp [run, hp] at h
    · intro h; cases h with | cls hp => simp [run, hp]
  | seq r q ihr ihq =>
    intro s u
    constructor
    · intro h
      obtain ⟨t, ht, hu⟩ := List.mem_flatMap.mp h
      exact Steps.seq ((ihr s t).mp ht) ((ihq t u).mp hu)
    · intro h
      cases h with
      | seq hr hq => exact List.mem_flatMap.mpr ⟨_, (ihr _ _).mpr hr, (ihq _ _).mpr hq⟩
  | alt r q ihr ihq =>
    intro s t
    constructor
    · intro h
      rcases List.mem_append.mp h with h | h
      · exact Steps.altLeft ((ihr s t).mp h)
      · exact Steps.altRight ((ihq s t).mp h)
    · intro h
      cases h with
      | altLeft h => exact List.mem_append_left _ ((ihr s t).mpr h)
      | altRight h => exact List.mem_append_right _ ((ihq s t).mpr h)
  | star b r ih =>
    intro s t
    constructor
    · exact steps_of_mem_loop (fun s t => (ih s t).mp) _ s t
    · exact fun h => mem_loop_of_steps h b r rfl (fun s t => (ih s t).mpr) _ (Nat.le_refl _)
  | group n r ih =>
    intro s t
    constructor
    · intro h
      obtain ⟨u, hu, rfl⟩ := List.mem_map.mp h
      exact Steps.group ((ih s u).mp hu)
    · intro h
      cases h with
      | group h => exact List.mem_map.mpr ⟨_, (ih s _).mpr h, rfl⟩

/-! ## Inversion rules -/

@[simp] theorem steps_eps_iff (s t : State) : Steps eps s t ↔ t = s :=
  ⟨fun h => by cases h; rfl, fun h => h ▸ Steps.eps s⟩

@[simp] theorem steps_cls_iff (p : Char → Bool) (s t : State) :
    Steps (cls p) s t ↔ ∃ c, p c = true ∧ s.rest = c :: t.rest ∧ t.groups = s.groups := by
  constructor
  · intro h; cases h with | cls hp => exact ⟨_, hp, rfl, rfl⟩
  · rintro ⟨c, hp, hr, hg⟩
    obtain ⟨rest, g⟩ := s
    obtain ⟨rest', g'⟩ := t
    simp only at hr hg
    subst hr hg
    exact Steps.cls hp

@[simp] theorem steps_seq_iff (r q : Regex) (s u : State) :
    Steps (seq r q) s u ↔ ∃ t, Steps r s t ∧ Steps q t u :=
  ⟨fun h => by cases h with | seq hr hq => exact ⟨_, hr, hq⟩, fun ⟨_, hr, hq⟩ => Steps.seq hr hq⟩

@[simp] theorem append_eq_seq (r q : Regex) : r ++ q = seq r q := rfl

theorem steps_group_iff (n : Nat) (r : Regex) (s u : State) :
    Steps (group n r) s u ↔ ∃ t, Steps r s t ∧
      u = ⟨t.rest, (n, s.rest.take (s.rest.length - t.rest.length)) :: t.groups⟩ :=
  ⟨fun h => by cases h with | group h => exact ⟨_, h, rfl⟩, fun ⟨_, h, e⟩ => e ▸ Steps.group h⟩

@[simp] theorem steps_lit_iff (w : Text) (s t : State) :
    Steps (lit w) s t ↔ s.rest = w ++ t.rest ∧ t.groups = s.groups := by
  induction w generalizing s with
  | nil =>
    obtain ⟨rest, g⟩ := s
    obtain ⟨rest', g'⟩ := t
    simp only [lit, steps_eps_iff, State.mk.injEq, List.nil_append]
    exact ⟨fun ⟨h, h'⟩ => ⟨h.symm, h'⟩, fun ⟨h, h'⟩ => ⟨h.symm, h'⟩⟩
  | cons c w ih =>
    simp only [lit, steps_seq_iff, steps_cls_iff, ih, List.cons_append]
    constructor
    · rintro ⟨u, ⟨d, hd, hs, hg⟩, hu, hg'⟩
      rw [hs, hu, eq_of_beq hd]
      exact ⟨rfl, hg'.trans hg⟩
    · rintro ⟨hs, hg⟩
      exact ⟨⟨w ++ t.rest, s.groups⟩, ⟨c, beq_self_eq_true c, hs, rfl⟩, rfl, hg⟩

private theorem class_of_steps_star {q : Regex} {s t : State} (h : Steps q s t) :
    ∀ b p, q = star b (cls p) →
      ∃ u, s.rest = u ++ t.rest ∧ (∀ c ∈ u, p c = true) ∧ t.groups = s.groups := by
  induction h with
  | starNil s => intro b p _; exact ⟨[], rfl, by simp, rfl⟩
  | starCons hst _ _ _ ih =>
    intro b p hq
    obtain ⟨rfl, rfl⟩ := Regex.star.inj hq
    obtain ⟨c, hc, hs, hg⟩ := (steps_cls_iff _ _ _).mp hst
    obtain ⟨u, hu, hall, hg'⟩ := ih _ _ rfl
    refine ⟨c :: u, by rw [hs, hu]; rfl, ?_, hg'.trans hg⟩
    intro d hd
    rcases List.mem_cons.mp hd with rfl | hd
    · exact hc
    · exact hall d hd
  | _ => intro b p hq; cases hq

/-- A repeated class consumes some run of its characters. -/
@[simp] theorem steps_star_cls_iff (b : Bool) (p : Char → Bool) (s t : State) :
    Steps (star b (cls p)) s t ↔
      ∃ u, s.rest = u ++ t.rest ∧ (∀ c ∈ u, p c = true) ∧ t.groups = s.groups := by
  constructor
  · exact fun h => class_of_steps_star h b p rfl
  · rintro ⟨u, hu, hall, hg⟩
    induction u generalizing s with
    | nil =>
      obtain ⟨rest, g⟩ := s
      obtain ⟨rest', g'⟩ := t
      simp only [List.nil_append] at hu hg
      subst hu hg
      exact Steps.starNil _
    | cons c u ih =>
      have hc : Steps (cls p) s ⟨u ++ t.rest, s.groups⟩ :=
        (steps_cls_iff _ _ _).mpr ⟨c, hall c (List.mem_cons_self ..), hu, rfl⟩
      refine Steps.starCons hc ?_ (ih _ rfl (fun d hd => hall d (List.mem_cons_of_mem _ hd)) hg)
      simp [hu]

/-- Matching takes away a front part of the text. -/
theorem Steps.suffix {r : Regex} {s t : State} (h : Steps r s t) : t.rest <:+ s.rest := by
  induction h with
  | eps | starNil => exact List.suffix_refl _
  | cls _ => exact List.suffix_cons _ _
  | seq _ _ ih ih' => exact ih'.trans ih
  | altLeft _ ih | altRight _ ih | group _ ih => exact ih
  | starCons _ _ _ ih ih' => exact ih'.trans ih

/-- What comes after a match does not matter. -/
theorem Steps.frame {r : Regex} {s t : State} (h : Steps r s t) (z : Text) :
    Steps r ⟨s.rest ++ z, s.groups⟩ ⟨t.rest ++ z, t.groups⟩ := by
  induction h with
  | eps => exact .eps _
  | starNil => exact .starNil _
  | cls hc => exact .cls hc
  | seq _ _ ih ih' => exact .seq ih ih'
  | altLeft _ ih => exact .altLeft ih
  | altRight _ ih => exact .altRight ih
  | starCons _ hlt _ ih ih' =>
    exact .starCons ih (by simp only [List.length_append]; omega) ih'
  | @group n r s t h ih =>
    have htake : (s.rest ++ z).take ((s.rest ++ z).length - (t.rest ++ z).length) =
        s.rest.take (s.rest.length - t.rest.length) := by
      rw [List.take_append_of_le_length (by simp only [List.length_append]; omega)]
      congr 1
      simp only [List.length_append]
      omega
    have hgroup := Steps.group (n := n) ih
    simp only [htake] at hgroup
    exact hgroup

/-! ## Searching -/

theorem first_isSome_iff (r : Regex) (s : Text) :
    (first r s).isSome ↔ ∃ t, Steps r ⟨s, []⟩ t := by
  simp only [first, ← mem_run_iff]
  cases run r ⟨s, []⟩ with
  | nil => simp
  | cons t ts => simp only [List.head?_cons, Option.isSome_some, true_iff]; exact ⟨t, List.mem_cons_self ..⟩

theorem matchStart_isSome (r : Regex) (s : Text) :
    (matchStart r s).isSome = (first r s).isSome := by simp [matchStart]

/-- **Searching finds a factor that is matched, if there is one.** -/
theorem search_isSome_iff (r : Regex) (s : Text) :
    (search r s).isSome ↔ ∃ a u t, s = a ++ u ∧ Steps r ⟨u, []⟩ t := by
  induction s with
  | nil =>
    rw [search, matchStart_isSome, first_isSome_iff]
    constructor
    · rintro ⟨t, h⟩; exact ⟨[], [], t, rfl, h⟩
    · rintro ⟨a, u, t, h, hs⟩
      obtain ⟨rfl, rfl⟩ := List.append_eq_nil_iff.mp h.symm
      exact ⟨t, hs⟩
  | cons c s ih =>
    rw [search, Option.isSome_or, Bool.or_eq_true, matchStart_isSome, first_isSome_iff, ih]
    constructor
    · rintro (⟨t, h⟩ | ⟨a, u, t, rfl, h⟩)
      · exact ⟨[], _, t, rfl, h⟩
      · exact ⟨c :: a, u, t, rfl, h⟩
    · rintro ⟨a, u, t, h, hs⟩
      cases a with
      | nil => exact Or.inl ⟨t, by rw [h]; exact hs⟩
      | cons d a =>
        obtain ⟨rfl, rfl⟩ := List.cons.inj h
        exact Or.inr ⟨a, u, t, rfl, hs⟩

/-- What searching finds is a match. -/
theorem search_steps {r : Regex} {s : Text} {m : Match} (h : search r s = some m) :
    Steps r ⟨m.start, []⟩ ⟨m.rest, m.groups⟩ := by
  have hstart : ∀ {s : Text}, matchStart r s = some m → Steps r ⟨m.start, []⟩ ⟨m.rest, m.groups⟩ := by
    intro s h
    rw [matchStart, Option.map_eq_some_iff] at h
    obtain ⟨t, ht, rfl⟩ := h
    exact (mem_run_iff _ _ _).mp (List.mem_of_head? ht)
  induction s with
  | nil => exact hstart h
  | cons c s ih =>
    rw [search, Option.or_eq_some_iff] at h
    rcases h with h | ⟨_, h⟩
    · exact hstart h
    · exact ih h

theorem search_start {r : Regex} {s : Text} {m : Match} (h : search r s = some m) :
    m.start <:+ s := by
  have hstart : ∀ {s : Text}, matchStart r s = some m → m.start = s := by
    intro s h
    obtain ⟨t, _, rfl⟩ := Option.map_eq_some_iff.mp h
    rfl
  induction s with
  | nil => exact hstart h ▸ List.suffix_refl _
  | cons c s ih =>
    rw [search, Option.or_eq_some_iff] at h
    rcases h with h | ⟨_, h⟩
    · exact hstart h ▸ List.suffix_refl _
    · exact (ih h).trans (List.suffix_cons c s)

theorem search_lit_isSome (w s : Text) : (search (lit w) s).isSome ↔ w <:+: s := by
  rw [search_isSome_iff]
  constructor
  · rintro ⟨a, u, t, rfl, h⟩
    obtain ⟨hu, _⟩ := (steps_lit_iff _ _ _).mp h
    exact ⟨a, t.rest, by simp only at hu; rw [hu, List.append_assoc]⟩
  · rintro ⟨a, b, rfl⟩
    exact ⟨a, w ++ b, ⟨b, []⟩, List.append_assoc .., (steps_lit_iff _ _ _).mpr ⟨rfl, rfl⟩⟩

/-- The first element of a kind splits a list in one way. -/
theorem split_unique {α : Type} {P : α → Prop} {xs ys xs' ys' : List α} {a a' : α}
    (h : xs ++ a :: ys = xs' ++ a' :: ys') (ha : P a) (ha' : P a') (hxs : ∀ x ∈ xs, ¬ P x)
    (hxs' : ∀ x ∈ xs', ¬ P x) : xs = xs' ∧ a = a' ∧ ys = ys' := by
  induction xs generalizing xs' with
  | nil =>
    cases xs' with
    | nil => exact ⟨rfl, List.cons.inj h⟩
    | cons x xs' =>
      rw [List.nil_append, List.cons_append, List.cons.injEq] at h
      exact absurd (h.1 ▸ ha) (hxs' x (List.mem_cons_self ..))
  | cons x xs ih =>
    cases xs' with
    | nil =>
      rw [List.nil_append, List.cons_append, List.cons.injEq] at h
      exact absurd (h.1 ▸ ha') (hxs x (List.mem_cons_self ..))
    | cons x' xs' =>
      rw [List.cons_append, List.cons_append, List.cons.injEq] at h
      obtain ⟨rfl, h⟩ := h
      obtain ⟨rfl, h'⟩ := ih h (fun y hy => hxs y (List.mem_cons_of_mem _ hy))
        (fun y hy => hxs' y (List.mem_cons_of_mem _ hy))
      exact ⟨rfl, h'⟩

/-! ## The first match -/

theorem head?_seq {r q : Regex} {s t u : State} (hr : (run r s).head? = some t)
    (hq : (run q t).head? = some u) : (run (seq r q) s).head? = some u := by
  obtain ⟨ts, hts⟩ := List.head?_eq_some_iff.mp hr
  obtain ⟨us, hus⟩ := List.head?_eq_some_iff.mp hq
  simp [run, hts, hus]

theorem head?_lit (w t : Text) (g : List (Nat × Text)) :
    (run (lit w) ⟨w ++ t, g⟩).head? = some ⟨t, g⟩ := by
  induction w with
  | nil => rfl
  | cons c w ih => exact head?_seq (t := ⟨w ++ t, g⟩) (by simp [run]) ih

theorem head?_cls {p : Char → Bool} {c : Char} (hc : p c = true) (t : Text)
    (g : List (Nat × Text)) : (run (cls p) ⟨c :: t, g⟩).head? = some ⟨t, g⟩ := by
  simp [run, hc]

private theorem head?_loop_class (p : Char → Bool) (g : List (Nat × Text)) (k : Nat) :
    ∀ s : Text, s.length ≤ k →
      (loop (run (cls p)) true k ⟨s, g⟩).head? = some ⟨s.dropWhile p, g⟩ := by
  induction k with
  | zero =>
    intro s hs
    rw [List.eq_nil_of_length_eq_zero (Nat.le_zero.mp hs)]
    rfl
  | succ k ih =>
    intro s hs
    cases s with
    | nil => simp [loop, run]
    | cons c s =>
      simp only [List.length_cons, Nat.add_le_add_iff_right] at hs
      by_cases hp : p c = true
      · obtain ⟨ts, hts⟩ := List.head?_eq_some_iff.mp (ih s hs)
        have hr : run (cls p) ⟨c :: s, g⟩ = [⟨s, g⟩] := by simp [run, hp]
        rw [loop, hr]
        simp [hts, hp]
      · simp [loop, run, hp]

/-- A greedy repeated class takes its longest run first. -/
theorem head?_many_cls (p : Char → Bool) (s : Text) (g : List (Nat × Text)) :
    (run (many (cls p)) ⟨s, g⟩).head? = some ⟨s.dropWhile p, g⟩ :=
  head?_loop_class p g _ s (Nat.le_refl _)

theorem head?_group {n : Nat} {r : Regex} {s t : State} (h : (run r s).head? = some t) :
    (run (group n r) s).head? =
      some ⟨t.rest, (n, s.rest.take (s.rest.length - t.rest.length)) :: t.groups⟩ := by
  obtain ⟨ts, hts⟩ := List.head?_eq_some_iff.mp h
  simp [run, hts]

theorem take_dropWhile_length (p : Char → Bool) (s : Text) :
    s.take (s.length - (s.dropWhile p).length) = s.takeWhile p := by
  have h := List.takeWhile_append_dropWhile (p := p) (l := s)
  have hlen : s.length = (s.takeWhile p).length + (s.dropWhile p).length := by
    rw [← List.length_append, h]
  conv_lhs => rw [← h]
  rw [List.take_append_of_le_length (by rw [h]; omega), h, hlen, Nat.add_sub_cancel, List.take_length]

/-- A greedy group captures the longest run. -/
theorem head?_group_many_cls (n : Nat) (p : Char → Bool) (s : Text) (g : List (Nat × Text)) :
    (run (group n (many (cls p))) ⟨s, g⟩).head? =
      some ⟨s.dropWhile p, (n, s.takeWhile p) :: g⟩ := by
  rw [head?_group (head?_many_cls p s g), take_dropWhile_length]

theorem head?_opt_taken {r : Regex} {s t : State} (h : (run r s).head? = some t) :
    (run (opt r) s).head? = some t := by
  obtain ⟨ts, hts⟩ := List.head?_eq_some_iff.mp h
  simp [opt, run, hts]

theorem head?_opt_skipped {r : Regex} {s : State} (h : run r s = []) :
    (run (opt r) s).head? = some s := by
  simp [opt, run, h]

theorem run_eq_nil_iff (r : Regex) (s : State) : run r s = [] ↔ ∀ t, ¬ Steps r s t := by
  simp only [List.eq_nil_iff_forall_not_mem, mem_run_iff]

theorem first_eq_none_iff (r : Regex) (s : Text) : first r s = none ↔ ∀ t, ¬ Steps r ⟨s, []⟩ t := by
  rw [first, List.head?_eq_none_iff, run_eq_nil_iff]

/-- Where only one end state is possible, it is the first. -/
theorem first_of_unique {r : Regex} {s : Text} {t : State} (h : Steps r ⟨s, []⟩ t)
    (huniq : ∀ u, Steps r ⟨s, []⟩ u → u = t) : first r s = some t := by
  unfold first
  cases hr : run r ⟨s, []⟩ with
  | nil =>
    rw [run_eq_nil_iff] at hr
    exact absurd h (hr t)
  | cons u us =>
    have hu : u ∈ run r ⟨s, []⟩ := by rw [hr]; exact List.mem_cons_self ..
    rw [huniq u ((mem_run_iff _ _ _).mp hu)]
    rfl

/-! ## Substitution -/

/-- Every match of `r` consumes at least one character. -/
def Consuming (r : Regex) : Prop := ∀ s t, Steps r s t → t.rest.length < s.rest.length

theorem consuming_lit {w : Text} (hw : w ≠ []) : Consuming (lit w) := by
  intro s t h
  obtain ⟨hs, _⟩ := (steps_lit_iff _ _ _).mp h
  have := List.length_pos_of_ne_nil hw
  rw [hs, List.length_append]
  omega

private theorem find?_eq_first {r : Regex} (hr : Consuming r) (advance : Bool) (s : Text) :
    (run r ⟨s, []⟩).find? (fun t => !advance || t.rest.length < s.length) = first r s := by
  rw [first]
  cases h : run r ⟨s, []⟩ with
  | nil => rfl
  | cons t ts =>
    have ht : t ∈ run r ⟨s, []⟩ := by rw [h]; exact List.mem_cons_self ..
    have hlt := hr _ _ ((mem_run_iff _ _ _).mp ht)
    simp only at hlt
    simp [hlt]

theorem rest_lt_of_first {r : Regex} (hr : Consuming r) {s : Text} {t : State}
    (h : first r s = some t) : t.rest.length < s.length :=
  hr _ _ ((mem_run_iff _ _ _).mp (List.mem_of_head? h))

/-- Enough fuel is enough, whatever the flag. -/
private theorem subLoop_fuel {r : Regex} (hr : Consuming r) (repl : Match → Text) (k : Nat) :
    ∀ (k' : Nat) (b b' : Bool) (s : Text), s.length < k → s.length < k' →
      subLoop r repl k b s = subLoop r repl k' b' s := by
  induction k with
  | zero => intro k' b b' s h; omega
  | succ k ih =>
    intro k' b b' s h h'
    cases k' with
    | zero => omega
    | succ k' =>
      simp only [subLoop, find?_eq_first hr]
      cases hf : first r s with
      | some t =>
        have := rest_lt_of_first hr hf
        exact congrArg _ (ih _ _ _ _ (by omega) (by omega))
      | none =>
        cases s with
        | nil => rfl
        | cons c s =>
          simp only [List.length_cons] at h h'
          exact congrArg _ (ih _ _ _ _ (by omega) (by omega))

private theorem sub_eq_subLoop {r : Regex} (hr : Consuming r) (repl : Match → Text) {k : Nat}
    {s : Text} (b : Bool) (h : s.length < k) : sub r repl s = subLoop r repl k b s :=
  subLoop_fuel hr repl _ k false b s (by omega) h

theorem sub_of_first {r : Regex} (hr : Consuming r) (repl : Match → Text) {s : Text} {t : State}
    (h : first r s = some t) :
    sub r repl s = repl ⟨s, t.rest, t.groups⟩ ++ sub r repl t.rest := by
  have hlt := rest_lt_of_first hr h
  calc
    sub r repl s = subLoop r repl (s.length + 1) false s :=
      sub_eq_subLoop hr repl false (Nat.lt_add_one _)
    _ = repl ⟨s, t.rest, t.groups⟩ ++
        subLoop r repl s.length (t.rest.length == s.length) t.rest := by
      simp only [subLoop, find?_eq_first hr, h]
    _ = _ := by rw [← sub_eq_subLoop hr repl _ hlt]

theorem sub_of_none {r : Regex} (hr : Consuming r) (repl : Match → Text) {c : Char} {s : Text}
    (h : first r (c :: s) = none) : sub r repl (c :: s) = c :: sub r repl s := by
  calc
    sub r repl (c :: s) = subLoop r repl (s.length + 1 + 1) false (c :: s) :=
      sub_eq_subLoop hr repl false (Nat.lt_add_one _)
    _ = c :: subLoop r repl (s.length + 1) false s := by
      rw [subLoop, find?_eq_first hr, h]
    _ = _ := by rw [← sub_eq_subLoop hr repl _ (Nat.lt_add_one _)]

theorem sub_nil {r : Regex} (hr : Consuming r) (repl : Match → Text) : sub r repl [] = [] := by
  have h : first r [] = none := by
    cases hf : first r [] with
    | none => rfl
    | some t => exact absurd (rest_lt_of_first hr hf) (Nat.not_lt_zero _)
  simp only [sub, subLoop, find?_eq_first hr, h]

/-- For a literal only what is put in for it matters. -/
theorem sub_lit_congr {p : Text} (hp : p ≠ []) {f : Match → Text} {d : Text}
    (hf : ∀ m, m.group 0 = some p → f m = d) (s : Text) :
    sub (lit p) f s = sub (lit p) (fun _ => d) s := by
  have hcons : Consuming (lit p) := consuming_lit hp
  induction hlen : s.length using Nat.strong_induction_on generalizing s with
  | _ n ih =>
    subst hlen
    cases hfirst : first (lit p) s with
    | some t =>
      obtain ⟨hs, _⟩ := (steps_lit_iff _ _ _).mp ((mem_run_iff _ _ _).mp (List.mem_of_head? hfirst))
      have hwhole : (Match.mk s t.rest t.groups).group 0 = some p := by
        simp only [Match.group, if_true, show s = p ++ t.rest from hs, List.length_append,
          Nat.add_sub_cancel, List.take_left]
      rw [sub_of_first hcons _ hfirst, sub_of_first hcons _ hfirst, hf _ hwhole,
        ih _ (rest_lt_of_first hcons hfirst) _ rfl]
    | none =>
      cases s with
      | nil => rw [sub_nil hcons, sub_nil hcons]
      | cons c s => rw [sub_of_none hcons _ hfirst, sub_of_none hcons _ hfirst, ih s.length (by simp) s rfl]

/-- **Substituting for a literal replaces occurrences of it.** -/
theorem rewrites_sub {p : Text} (hp : p ≠ []) (d s : Text) :
    Rewriting.Rewrites p d s (sub (lit p) (fun _ => d) s) := by
  have hcons : Consuming (lit p) := consuming_lit hp
  induction hlen : s.length using Nat.strong_induction_on generalizing s with
  | _ n ih =>
    subst hlen
    cases hfirst : first (lit p) s with
    | some t =>
      obtain ⟨hs, _⟩ := (steps_lit_iff _ _ _).mp ((mem_run_iff _ _ _).mp (List.mem_of_head? hfirst))
      rw [sub_of_first hcons _ hfirst, show s = p ++ t.rest from hs]
      exact .hit (ih _ (rest_lt_of_first hcons hfirst) _ rfl)
    | none =>
      cases s with
      | nil => rw [sub_nil hcons]; exact .nil
      | cons c s =>
        rw [sub_of_none hcons _ hfirst]
        exact .keep c (ih s.length (by simp) s rfl)

theorem sub_lit_append {p : Text} (hp : p ≠ []) (s : Text) :
    sub (lit p) (fun _ => []) (p ++ s) = sub (lit p) (fun _ => []) s :=
  sub_of_first (consuming_lit hp) (fun _ => []) (head?_lit p s [])

theorem sub_lit_cons {p : Text} (hp : p ≠ []) {c : Char} {s : Text} (h : ¬ p <+: c :: s) :
    sub (lit p) (fun _ => []) (c :: s) = c :: sub (lit p) (fun _ => []) s := by
  refine sub_of_none (consuming_lit hp) _ ((first_eq_none_iff _ _).mpr fun t ht => h ?_)
  exact ⟨t.rest, ((steps_lit_iff ..).mp ht).1.symm⟩

/-- **Deleting a literal** makes two texts the same iff they are so but for it. -/
theorem sub_lit_eq_iff {p : Text} (hp : p ≠ []) (s t : Text) :
    sub (lit p) (fun _ => []) s = sub (lit p) (fun _ => []) t ↔ Rewriting.SameBut p s t := by
  have hcons := consuming_lit hp
  constructor
  · induction hlen : s.length + t.length using Nat.strong_induction_on generalizing s t with
    | _ n ih =>
      subst hlen
      intro h
      have hpos := List.length_pos_of_ne_nil hp
      by_cases hs : p <+: s
      · obtain ⟨s, rfl⟩ := hs
        rw [sub_lit_append hp] at h
        exact .left (ih _ (by rw [List.length_append]; omega) s t rfl h)
      by_cases ht : p <+: t
      · obtain ⟨t, rfl⟩ := ht
        rw [sub_lit_append hp] at h
        exact .right (ih _ (by rw [List.length_append]; omega) s t rfl h)
      -- neither starts with the literal: the first characters stay
      cases s with
      | nil =>
        cases t with
        | nil => exact .nil
        | cons d t =>
          rw [sub_nil hcons, sub_lit_cons hp ht] at h
          cases h
      | cons c s =>
        cases t with
        | nil =>
          rw [sub_nil hcons, sub_lit_cons hp hs] at h
          cases h
        | cons d t =>
          rw [sub_lit_cons hp hs, sub_lit_cons hp ht] at h
          obtain ⟨rfl, htail⟩ := List.cons.inj h
          exact .keep hs ht (ih _ (by simp only [List.length_cons]; omega) s t rfl htail)
  · intro h
    induction h with
    | nil => rfl
    | left _ ih => rw [sub_lit_append hp, ih]
    | right _ ih => rw [sub_lit_append hp, ih]
    | keep hs ht _ ih => rw [sub_lit_cons hp hs, sub_lit_cons hp ht, ih]

/-- No match of `r` starts inside the first part of `w ++ s`. -/
def Skips (r : Regex) : Text → Text → Prop
  | [], _ => True
  | c :: w, s => first r (c :: w ++ s) = none ∧ Skips r w s

theorem sub_of_skips {r : Regex} (hr : Consuming r) (repl : Match → Text) {w s : Text}
    (h : Skips r w s) : sub r repl (w ++ s) = w ++ sub r repl s := by
  induction w with
  | nil => rfl
  | cons c w ih =>
    obtain ⟨hc, hw⟩ := h
    exact (sub_of_none hr repl hc).trans (congrArg _ (ih hw))

theorem search_of_skips {r : Regex} {w s : Text} (h : Skips r w s) :
    search r (w ++ s) = search r s := by
  induction w with
  | nil => rfl
  | cons c w ih =>
    obtain ⟨hc, hw⟩ := h
    rw [List.cons_append] at hc ⊢
    rw [search, matchStart, hc, Option.map_none, Option.none_or, ih hw]

theorem search_of_first {r : Regex} {s : Text} {t : State} (h : first r s = some t) :
    search r s = some ⟨s, t.rest, t.groups⟩ := by
  cases s with
  | nil => rw [search, matchStart, h]; rfl
  | cons c s => rw [search, matchStart, h]; rfl

end Regex

end MpiBugs
