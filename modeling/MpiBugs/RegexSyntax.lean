import MpiBugs.Regex

/-!
# Reading patterns and replacement texts

What `re.sub(pattern, repl, string)` makes of the texts of its first two
arguments. Of the syntax of patterns this reads single characters, a brace that
opens no repetition among them, escaped punctuation, `.` and the repetitions
`*`, `+` and `?`; a pattern with anything else is `unsupported`. Replacement texts are read in full, for patterns
without groups.

* `compile_literally`: a pattern that spells a text compiles to its literal;
* `subText_stable`: substituting for such a pattern a replacement whose
  backslashes escape nothing puts in the replacement as it stands;
* `stable_of_template`: no other replacement does;
* `compile_parses`: what a pattern that compiles is made of.
-/

namespace MpiBugs.Regex

inductive RegexError
  | trailingBackslash
  | misplacedRepeat
  | badEscape (c : Char)
  | missingGroupName
  | invalidGroup
  | octalTooLarge
  | unsupported (c : Char)
  deriving DecidableEq, Repr

/-! ## Patterns -/

def repeatChar (c : Char) : Bool := c == '*' || c == '+' || c == '?'

/-- Characters that open syntax which is not read here. -/
def unreadChar (c : Char) : Bool :=
  c == '^' || c == '$' || c == '[' || c == '(' || c == ')' || c == '|'

/-- A character that a pattern reads as itself, whatever comes after it. -/
def plainChar (c : Char) : Bool :=
  !(c == '\\' || c == '.' || c == '\x7b' || repeatChar c || unreadChar c)

/-- Digits, with a comma among them if none has been read, up to a closing brace. -/
def bounds : Bool → Text → Bool
  | _, [] => false
  | comma, c :: t =>
    if c.isDigit then bounds comma t
    else if c == ',' && !comma then bounds true t
    else c == '\x7d'

/-- What comes after an opening brace makes it a repetition. -/
def opensRepeat (t : Text) : Bool := t.head? != some '\x7d' && bounds false t

/-- One item of a pattern, before its repetition. -/
def atom (c : Char) (t : Text) : Except RegexError (Regex × Text) :=
  if plainChar c then .ok (cls (· == c), t)
  else if c == '.' then .ok (dot, t)
  else if repeatChar c then .error .misplacedRepeat
  else if unreadChar c then .error (.unsupported c)
  else if c == '\x7b' then
    if opensRepeat t then .error (.unsupported c) else .ok (cls (· == c), t)
  else
    match t with
    | [] => .error .trailingBackslash
    | d :: t => if d.isAlphanum then .error (.unsupported d) else .ok (cls (· == d), t)

def quantify (r : Regex) : Text → Regex × Text
  | '*' :: '?' :: t => (manyLazy r, t)
  | '+' :: '?' :: t => (r ++ manyLazy r, t)
  | '?' :: '?' :: t => (alt eps r, t)
  | '*' :: t => (many r, t)
  | '+' :: t => (plus r, t)
  | '?' :: t => (opt r, t)
  | t => (r, t)

def compileLoop : Nat → Text → Except RegexError Regex
  | _, [] => .ok eps
  | 0, c :: _ => .error (.unsupported c)
  | k + 1, c :: t =>
    match atom c t with
    | .error e => .error e
    | .ok (r, t) =>
      let (q, t) := quantify r t
      match compileLoop k t with
      | .error e => .error e
      | .ok rest => .ok (q ++ rest)

/-- `re.compile`; every round of the loop reads a character. -/
def compile (p : Text) : Except RegexError Regex := compileLoop p.length p

/-- The pattern `p` spells the text `w`. -/
inductive Literally : Text → Text → Prop
  | nil : Literally [] []
  | plain {c p w} (h : plainChar c = true) : Literally p w → Literally (c :: p) (c :: w)
  | brace {p w} (h : opensRepeat p = false) : Literally p w →
      Literally ('\x7b' :: p) ('\x7b' :: w)
  | escaped {c p w} (h : c.isAlphanum = false) : Literally p w → Literally ('\\' :: c :: p) (c :: w)

/-- Plain characters in front. -/
theorem Literally.plain_append {w q v : Text} (h : ∀ c ∈ w, plainChar c = true)
    (hq : Literally q v) : Literally (w ++ q) (w ++ v) := by
  induction w with
  | nil => exact hq
  | cons c w ih =>
    obtain ⟨hc, hw⟩ := List.forall_mem_cons.mp h
    exact .plain hc (ih hw)

theorem literally_of_plain {w : Text} (h : ∀ c ∈ w, plainChar c = true) : Literally w w := by
  have hw := Literally.plain_append h .nil
  rwa [List.append_nil] at hw

theorem bounds_backslash (p s : Text) (comma : Bool) :
    bounds comma (p ++ '\\' :: s) = bounds comma p := by
  induction p generalizing comma with
  | nil => rfl
  | cons c p ih => simp only [List.cons_append, bounds, ih]

/-- Bounds do not go on past a backslash. -/
theorem opensRepeat_backslash (p s : Text) : opensRepeat (p ++ '\\' :: s) = opensRepeat p := by
  rw [opensRepeat, opensRepeat, bounds_backslash]
  cases p with
  | nil => rfl
  | cons c p => rfl

/-- An escaped character after a literal pattern. -/
theorem Literally.append_escaped {p w q v : Text} {c : Char} (hp : Literally p w)
    (hc : c.isAlphanum = false) (hq : Literally q v) :
    Literally (p ++ '\\' :: c :: q) (w ++ c :: v) := by
  induction hp with
  | nil => exact .escaped hc hq
  | plain h _ ih => exact .plain h ih
  | brace h _ ih => exact .brace ((opensRepeat_backslash _ _).trans h) ih
  | escaped h _ ih => exact .escaped h ih

/-- What follows an item of a literal pattern is no repetition. -/
private theorem quantify_literally {p w : Text} (h : Literally p w) (r : Regex) :
    quantify r p = (r, p) := by
  cases h with
  | nil => rfl
  | plain hc _ =>
    unfold quantify
    split
    case h_7 => rfl
    all_goals
      rename_i heq
      obtain ⟨rfl, _⟩ := List.cons.inj heq
      exact absurd hc (by decide)
  | brace _ _ => rfl
  | escaped _ _ => rfl

private theorem compileLoop_literally {p w : Text} (h : Literally p w) :
    ∀ k, p.length ≤ k → compileLoop k p = .ok (lit w) := by
  induction h with
  | nil => intro k _; cases k <;> rfl
  | @plain c p w hc hp ih =>
    intro k hk
    cases k with
    | zero => simp at hk
    | succ k =>
      have hrest := ih k (by simpa using hk)
      have hatom : atom c p = .ok (cls (· == c), p) := if_pos hc
      simp only [compileLoop, hatom, quantify_literally hp, hrest]
      rfl
  | @brace p w hb hp ih =>
    intro k hk
    cases k with
    | zero => simp at hk
    | succ k =>
      have hrest := ih k (by simpa using hk)
      have hatom : atom '\x7b' p = .ok (cls (· == '\x7b'), p) := by
        have hbrace : atom '\x7b' p =
            if opensRepeat p then .error (.unsupported '\x7b') else .ok (cls (· == '\x7b'), p) := rfl
        rw [hbrace, hb]
        rfl
      simp only [compileLoop, hatom, quantify_literally hp, hrest]
      rfl
  | @escaped c p w hc hp ih =>
    intro k hk
    cases k with
    | zero => simp at hk
    | succ k =>
      have hrest := ih k (by simp only [List.length_cons] at hk; omega)
      have hatom : atom '\\' (c :: p) = .ok (cls (· == c), p) := by
        have hback : atom '\\' (c :: p) =
            if c.isAlphanum then .error (.unsupported c) else .ok (cls (· == c), p) := rfl
        rw [hback, hc]
        rfl
      simp only [compileLoop, hatom, quantify_literally hp, hrest]
      rfl

/-- **A pattern that spells a text compiles to its literal.** -/
theorem compile_literally {p w : Text} (h : Literally p w) : compile p = .ok (lit w) :=
  compileLoop_literally h _ (Nat.le_refl _)

/-! ## Replacement texts -/

/-- A part of a replacement: characters, or the whole match. -/
inductive Part
  | text (t : Text)
  | whole
  deriving DecidableEq, Repr

def Part.fill (m : Match) : Part → Text
  | text t => t
  | whole => (m.group 0).getD []

def isOctal (c : Char) : Bool := '0' ≤ c && c ≤ '7'

def octalValue (ds : Text) : Nat := ds.foldl (fun n d => 8 * n + (d.toNat - '0'.toNat)) 0

/-- The escapes of single characters, `\a` to `\v`. -/
def charEscapes : List (Char × Nat) :=
  [('a', 7), ('b', 8), ('f', 12), ('n', 10), ('r', 13), ('t', 9), ('v', 11), ('\\', 92)]

/-- `\g<..>`, after the `g`: with no groups in the pattern only 0 is one. -/
def groupEscape : Text → Except RegexError (Part × Text)
  | '<' :: t =>
    let name := t.takeWhile (· != '>')
    match t.dropWhile (· != '>') with
    | [] => .error .missingGroupName
    | _ :: t =>
      if name.isEmpty then .error .missingGroupName
      else if name.all (· == '0') then .ok (.whole, t)
      else .error .invalidGroup
  | _ => .error .missingGroupName

/-- An escape that starts with a digit other than 0: three octal digits name a
character, all else is a reference to a group. -/
def digitEscape (c : Char) (t : Text) : Except RegexError (Part × Text) :=
  match t with
  | d :: e :: t =>
    if isOctal c && isOctal d && isOctal e then
      if octalValue [c, d, e] > 255 then .error .octalTooLarge
      else .ok (.text [Char.ofNat (octalValue [c, d, e])], t)
    else .error .invalidGroup
  | _ => .error .invalidGroup

/-- What follows a backslash. -/
def escape : Text → Except RegexError (Part × Text)
  | [] => .error .trailingBackslash
  | c :: t =>
    if c == 'g' then groupEscape t
    else if c == '0' then
      let ds := (t.takeWhile isOctal).take 2
      .ok (.text [Char.ofNat (octalValue ds % 256)], t.drop ds.length)
    else if c.isDigit then digitEscape c t
    else
      match charEscapes.lookup c with
      | some n => .ok (.text [Char.ofNat n], t)
      | none => if c.isAlpha then .error (.badEscape c) else .ok (.text ['\\', c], t)

def templateLoop : Nat → Text → Except RegexError (List Part)
  | _, [] => .ok []
  | 0, _ => .ok []
  | k + 1, c :: t =>
    if c == '\\' then
      match escape t with
      | .error e => .error e
      | .ok (p, t) => (templateLoop k t).map (p :: ·)
    else (templateLoop k t).map (.text [c] :: ·)

/-- A replacement text, read as the function it stands for. -/
def template (repl : Text) : Except RegexError (Match → Text) :=
  (templateLoop repl.length repl).map fun parts m => parts.flatMap (Part.fill m)

/-- `re.sub` of a pattern and a replacement given as texts. -/
def subText (pattern repl s : Text) : Except RegexError Text :=
  match compile pattern with
  | .error e => .error e
  | .ok r =>
    match template repl with
    | .error e => .error e
    | .ok f => .ok (sub r f s)

/-! ## Replacements that stand for themselves -/

/-- Every backslash has a character behind it that is neither a letter nor a
digit nor a backslash. -/
def Stable : Text → Prop
  | [] => True
  | c :: t => (c = '\\' → ∃ d ∈ t.head?, d.isAlphanum = false ∧ d ≠ '\\') ∧ Stable t

theorem stable_of_no_backslash {t : Text} (h : '\\' ∉ t) : Stable t := by
  induction t with
  | nil => trivial
  | cons c t ih =>
    rw [List.mem_cons, not_or] at h
    exact ⟨fun hc => absurd hc.symm h.1, ih h.2⟩

/-- An escape that stands for itself. -/
theorem escape_stable {d : Char} (hd : d.isAlphanum = false) (hne : d ≠ '\\') (t : Text) :
    escape (d :: t) = .ok (.text ['\\', d], t) := by
  have hother : ∀ c : Char, c.isAlphanum = true → (d == c) = false := by
    intro c hc
    refine beq_false_of_ne fun heq => ?_
    rw [heq, hc] at hd
    cases hd
  have hdigit : d.isDigit = false := (Bool.or_eq_false_iff.mp hd).2
  have halpha : d.isAlpha = false := (Bool.or_eq_false_iff.mp hd).1
  have hlookup : charEscapes.lookup d = none := by
    simp [charEscapes, List.lookup_cons, hother, beq_false_of_ne hne]
  simp [escape, hother, hdigit, halpha, hlookup]

theorem groupEscape_whole {t t' : Text} {p : Part} (h : groupEscape t = .ok (p, t')) :
    p = .whole := by
  unfold groupEscape at h
  split at h
  · simp only at h
    split at h
    · cases h
    · split at h
      · cases h
      · split at h
        · exact (Prod.mk.inj (Except.ok.inj h)).1.symm
        · cases h
  · cases h

theorem digitEscape_shorter {c : Char} {t t' : Text} {p : Part}
    (h : digitEscape c t = .ok (p, t')) : ∃ e, p = .text [e] ∧ t'.length < t.length := by
  unfold digitEscape at h
  split at h
  · split at h
    · split at h
      · cases h
      · obtain ⟨rfl, rfl⟩ := Prod.mk.inj (Except.ok.inj h)
        exact ⟨_, rfl, by simp only [List.length_cons]; omega⟩
    · cases h
  · cases h

/-- All other escapes are shorter than what they are written as, or put in the
whole match. -/
theorem escape_cases {t t' : Text} {p : Part} (h : escape t = .ok (p, t')) :
    p = .whole ∨ (∃ d, t = d :: t' ∧ p = .text ['\\', d] ∧ d.isAlphanum = false ∧ d ≠ '\\') ∨
      ∃ e, p = .text [e] ∧ t'.length < t.length := by
  cases t with
  | nil => cases h
  | cons c t =>
    rw [escape] at h
    split at h
    · exact .inl (groupEscape_whole h)
    · split at h
      · obtain ⟨rfl, rfl⟩ := Prod.mk.inj (Except.ok.inj h)
        refine .inr (.inr ⟨_, rfl, ?_⟩)
        rw [List.length_drop, List.length_cons]
        omega
      · split at h
        · obtain ⟨e, rfl, hlt⟩ := digitEscape_shorter h
          exact .inr (.inr ⟨e, rfl, by rw [List.length_cons]; omega⟩)
        · rename_i hdigit
          cases hlookup : charEscapes.lookup c with
          | some n =>
            rw [hlookup] at h
            obtain ⟨rfl, rfl⟩ := Prod.mk.inj (Except.ok.inj h)
            exact .inr (.inr ⟨_, rfl, Nat.lt_succ_self _⟩)
          | none =>
            rw [hlookup] at h
            simp only at h
            split at h
            · cases h
            · rename_i halpha
              obtain ⟨rfl, rfl⟩ := Prod.mk.inj (Except.ok.inj h)
              refine .inr (.inl ⟨c, rfl, rfl, ?_, ?_⟩)
              · rw [Char.isAlphanum, Bool.eq_false_iff.mpr halpha, Bool.eq_false_iff.mpr hdigit]
                rfl
              · rintro rfl
                exact absurd hlookup (by decide)

private theorem templateLoop_stable (n : Nat) : ∀ t : Text, Stable t → t.length ≤ n →
    ∃ parts, templateLoop n t = .ok parts ∧ ∀ m, parts.flatMap (Part.fill m) = t := by
  induction n using Nat.strong_induction_on with
  | _ n ih =>
    intro t ht hn
    cases n with
    | zero =>
      obtain rfl := List.eq_nil_of_length_eq_zero (Nat.le_zero.mp hn)
      exact ⟨[], rfl, fun _ => rfl⟩
    | succ n =>
      cases t with
      | nil => exact ⟨[], rfl, fun _ => rfl⟩
      | cons c t =>
        obtain ⟨hc, ht⟩ := ht
        rw [List.length_cons] at hn
        by_cases hback : c = '\\'
        · obtain ⟨d, hd, halnum, hne⟩ := hc hback
          obtain ⟨t, rfl⟩ := List.head?_eq_some_iff.mp hd
          obtain ⟨parts, hparts, hfill⟩ := ih n (by omega) t ht.2
            (by rw [List.length_cons] at hn; omega)
          refine ⟨.text ['\\', d] :: parts, ?_, fun m => ?_⟩
          · simp only [templateLoop, hback, beq_self_eq_true, if_true,
              escape_stable halnum hne, hparts, Except.map]
          · rw [List.flatMap_cons, hfill, hback]
            rfl
        · obtain ⟨parts, hparts, hfill⟩ := ih n (by omega) t ht (by omega)
          refine ⟨.text [c] :: parts, ?_, fun m => ?_⟩
          · simp only [templateLoop, beq_false_of_ne hback, hparts, Except.map]
            rfl
          · rw [List.flatMap_cons, hfill]
            rfl

/-- **A stable replacement stands for itself.** -/
theorem template_stable {t : Text} (h : Stable t) : template t = .ok fun _ => t := by
  obtain ⟨parts, hparts, hfill⟩ := templateLoop_stable _ t h (Nat.le_refl _)
  rw [template, hparts]
  exact congrArg Except.ok (funext hfill)

/-- **A literal pattern and a stable replacement.** -/
theorem subText_stable {p w repl : Text} (hp : Literally p w) (hrepl : Stable repl) (s : Text) :
    subText p repl s = .ok (sub (lit w) (fun _ => repl) s) := by
  simp only [subText, compile_literally hp, template_stable hrepl]

theorem subText_literally {p w repl : Text} (hp : Literally p w) (hrepl : '\\' ∉ repl) (s : Text) :
    subText p repl s = .ok (sub (lit w) (fun _ => repl) s) :=
  subText_stable hp (stable_of_no_backslash hrepl) s

private theorem map_eq_ok {ε α β : Type} {f : α → β} {x : Except ε α} {y : β}
    (h : x.map f = .ok y) : ∃ a, x = .ok a ∧ f a = y := by
  cases x with
  | error e => cases h
  | ok a => exact ⟨a, rfl, Except.ok.inj h⟩

/-- Of the match only its text is put in. -/
theorem template_congr {t : Text} {f : Match → Text} (h : template t = .ok f) {m m' : Match}
    (hm : m.group 0 = m'.group 0) : f m = f m' := by
  obtain ⟨parts, _, rfl⟩ := map_eq_ok h
  refine List.flatMap_congr fun p _ => ?_
  cases p with
  | text t => rfl
  | whole => simp only [Part.fill, hm]

/-- The text that the parts put in. -/
private theorem length_fill_cons (m : Match) (t : Text) (parts : List Part) :
    ((Part.text t :: parts).flatMap (Part.fill m)).length =
      t.length + (parts.flatMap (Part.fill m)).length := by
  rw [List.flatMap_cons, List.length_append]
  rfl

/-- The parts of a replacement: they put in the whole match, or are no longer
than the replacement, and shorter if it is not stable. -/
theorem templateLoop_length (n : Nat) : ∀ (t : Text) parts, t.length ≤ n →
    templateLoop n t = .ok parts → .whole ∈ parts ∨
      ∀ m, (parts.flatMap (Part.fill m)).length ≤ t.length ∧
        (¬ Stable t → (parts.flatMap (Part.fill m)).length < t.length) := by
  induction n using Nat.strong_induction_on with
  | _ n ih =>
    intro t parts hn h
    cases t with
    | nil =>
      obtain rfl : [] = parts := by
        cases n <;> exact Except.ok.inj h
      exact .inr fun m => ⟨Nat.le_refl _, fun hstable => absurd trivial hstable⟩
    | cons c t =>
      cases n with
      | zero => simp at hn
      | succ n =>
        rw [List.length_cons] at hn
        rw [templateLoop] at h
        by_cases hback : c = '\\'
        · rw [hback, beq_self_eq_true, if_pos rfl] at h
          cases hescape : escape t with
          | error e => simp [hescape] at h
          | ok r =>
            obtain ⟨p, t'⟩ := r
            simp only [hescape] at h
            obtain ⟨rest, hrest, rfl⟩ := map_eq_ok h
            rcases escape_cases hescape with rfl | ⟨d, rfl, rfl, halnum, hne⟩ | ⟨e, rfl, hlt⟩
            · exact .inl (List.mem_cons_self ..)
            · rw [List.length_cons] at hn
              refine (ih n (by omega) t' rest (by omega) hrest).imp (List.mem_cons_of_mem _) ?_
              intro hlen m
              obtain ⟨hle, hlt⟩ := hlen m
              simp only [length_fill_cons, List.length_cons, List.length_nil]
              refine ⟨by omega, fun hstable => ?_⟩
              have := hlt fun ht' => hstable
                ⟨fun _ => ⟨d, rfl, halnum, hne⟩, fun hd => absurd hd hne, ht'⟩
              omega
            · refine (ih n (by omega) t' rest (by omega) hrest).imp (List.mem_cons_of_mem _) ?_
              intro hlen m
              obtain ⟨hle, _⟩ := hlen m
              simp only [length_fill_cons, List.length_cons, List.length_nil]
              exact ⟨by omega, fun _ => by omega⟩
        · rw [beq_false_of_ne hback, if_neg (by decide)] at h
          obtain ⟨rest, hrest, rfl⟩ := map_eq_ok h
          refine (ih n (by omega) t rest (by omega) hrest).imp (List.mem_cons_of_mem _) ?_
          intro hlen m
          obtain ⟨hle, hlt⟩ := hlen m
          simp only [length_fill_cons, List.length_cons, List.length_nil]
          refine ⟨by omega, fun hstable => ?_⟩
          have := hlt fun ht => hstable ⟨fun hc => absurd hc hback, ht⟩
          omega

/-- **Nothing else stands for itself** where the match has an `@` that the
replacement lacks, or any other character. -/
theorem stable_of_template {t : Text} {f : Match → Text} (h : template t = .ok f) {m : Match}
    {c : Char} (hc : c ∈ (m.group 0).getD []) (ht : c ∉ t) (hm : f m = t) : Stable t := by
  obtain ⟨parts, hparts, rfl⟩ := map_eq_ok h
  rcases templateLoop_length _ t parts (Nat.le_refl _) hparts with hwhole | hlen
  · refine absurd ?_ ht
    rw [← hm]
    exact List.mem_flatMap.mpr ⟨_, hwhole, hc⟩
  · by_contra hstable
    have hlt := (hlen m).2 hstable
    simp only [hm] at hlt
    omega

/-! ## What a pattern is made of -/

/-- An item of a pattern, without a repetition, and what it matches. -/
inductive Atom : Text → Regex → Prop
  | plain {c} (h : plainChar c = true) : Atom [c] (cls (· == c))
  | brace : Atom ['\x7b'] (cls (· == '\x7b'))
  | escaped {c} (h : c.isAlphanum = false) : Atom ['\\', c] (cls (· == c))
  | dot : Atom ['.'] dot

/-- `q` is `r` with the repetition `u`. -/
inductive Repeated (r : Regex) : Text → Regex → Prop
  | star {u} (b : Bool) : Repeated r u (star b r)
  | plus {u} (b : Bool) : Repeated r u (r ++ star b r)
  | opt {u} : Repeated r u (alt r eps)
  | optLazy {u} : Repeated r u (alt eps r)

inductive Parses : Text → Regex → Prop
  | nil : Parses [] eps
  | single {p t r rest} : Atom p r → (p = ['\x7b'] → opensRepeat t = false) → Parses t rest →
      Parses (p ++ t) (r ++ rest)
  | repeated {p u t r q rest} : Atom p r → u ≠ [] → (∀ c ∈ u, repeatChar c = true) →
      Repeated r u q → Parses t rest → Parses (p ++ (u ++ t)) (q ++ rest)

theorem atom_ok {c : Char} {t t' : Text} {r : Regex} (h : atom c t = .ok (r, t')) :
    ∃ p, c :: t = p ++ t' ∧ Atom p r ∧ (p = ['\x7b'] → opensRepeat t' = false) := by
  unfold atom at h
  split at h
  · rename_i hc
    obtain ⟨rfl, rfl⟩ := Prod.mk.inj (Except.ok.inj h)
    refine ⟨[c], rfl, .plain hc, fun hb => ?_⟩
    rw [(List.cons.inj hb).1] at hc
    cases hc
  · split at h
    · rename_i hdot
      obtain ⟨rfl, rfl⟩ := Prod.mk.inj (Except.ok.inj h)
      exact ⟨['.'], by rw [eq_of_beq hdot]; rfl, .dot, fun hb => by cases hb⟩
    · split at h
      · cases h
      · split at h
        · cases h
        · split at h
          · rename_i hbrace
            obtain rfl := eq_of_beq hbrace
            split at h
            · cases h
            · rename_i hopens
              obtain ⟨rfl, rfl⟩ := Prod.mk.inj (Except.ok.inj h)
              exact ⟨['\x7b'], rfl, .brace, fun _ => Bool.eq_false_iff.mpr hopens⟩
          · rename_i hplain hdot hrepeat hunread hbrace
            have hback : c = '\\' := by
              simpa [plainChar, hdot, hrepeat, hunread, hbrace] using hplain
            split at h
            · cases h
            · split at h
              · cases h
              · rename_i halnum
                obtain ⟨rfl, rfl⟩ := Prod.mk.inj (Except.ok.inj h)
                exact ⟨['\\', _], by rw [hback]; rfl, .escaped (Bool.eq_false_iff.mpr halnum),
                  fun hb => by cases hb⟩

theorem quantify_cases {r q : Regex} {t t' : Text} (h : quantify r t = (q, t')) :
    q = r ∧ t' = t ∨
      ∃ u, t = u ++ t' ∧ u ≠ [] ∧ (∀ c ∈ u, repeatChar c = true) ∧ Repeated r u q := by
  unfold quantify at h
  split at h <;> obtain ⟨rfl, rfl⟩ := Prod.mk.inj h
  · exact .inr ⟨['*', '?'], rfl, by simp, by decide, .star false⟩
  · exact .inr ⟨['+', '?'], rfl, by simp, by decide, .plus false⟩
  · exact .inr ⟨['?', '?'], rfl, by simp, by decide, .optLazy⟩
  · exact .inr ⟨['*'], rfl, by simp, by decide, .star true⟩
  · exact .inr ⟨['+'], rfl, by simp, by decide, .plus true⟩
  · exact .inr ⟨['?'], rfl, by simp, by decide, .opt⟩
  · exact .inl ⟨rfl, rfl⟩

private theorem compileLoop_parses (k : Nat) : ∀ p r, compileLoop k p = .ok r → Parses p r := by
  induction k with
  | zero =>
    intro p r h
    cases p with
    | nil =>
      obtain rfl := Except.ok.inj h
      exact .nil
    | cons c p => cases h
  | succ k ih =>
    intro p r h
    cases p with
    | nil =>
      obtain rfl := Except.ok.inj h
      exact .nil
    | cons c p =>
      rw [compileLoop] at h
      cases hatom : atom c p with
      | error e => simp [hatom] at h
      | ok s =>
        obtain ⟨r₁, t⟩ := s
        simp only [hatom] at h
        cases hquantify : quantify r₁ t with
        | mk q t' =>
          rw [hquantify] at h
          simp only at h
          cases hrest : compileLoop k t' with
          | error e => simp [hrest] at h
          | ok rest =>
            simp only [hrest] at h
            obtain rfl := Except.ok.inj h
            obtain ⟨w, hw, hitem, hbrace⟩ := atom_ok hatom
            have hparses := ih t' rest hrest
            rw [hw]
            rcases quantify_cases hquantify with ⟨rfl, rfl⟩ | ⟨u, rfl, hne, hu, hrepeated⟩
            · exact .single hitem hbrace hparses
            · exact .repeated hitem hne hu hrepeated hparses

/-- **A pattern that compiles is a sequence of items.** -/
theorem compile_parses {p : Text} {r : Regex} (h : compile p = .ok r) : Parses p r :=
  compileLoop_parses _ p r h

end MpiBugs.Regex
