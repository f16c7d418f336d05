import MpiBugs.MakeFile

/-!
# When substitution is literal

The first loop of `make_file` splices a name into a pattern and its value into
a replacement text. Here it is compared with the loop that replaces the
placeholder, character by character, by the value.

* `PlainName`, `Stable`: the names and values that `re.sub` takes as they are;
* `substitution_literal_iff`: the two loops agree on all templates iff the
  entries of the dictionary are such.
-/

namespace MpiBugs.MakeFile

open Regex Rewriting

/-- `str.replace`. -/
def replaceAll (old new s : Text) : Text := sub (lit old) (fun _ => new) s

def holeText (name : Text) : Text := '@' :: '\x7b' :: (name ++ ['\x7d', '@'])

/-- The first loop with the placeholder replaced by the characters of the value. -/
def literalLoop (replace : Replace) : Nat → Text → Option (Except FileError Text)
  | 0, _ => none
  | fuel + 1, output =>
    match search placeholder output with
    | none => some (.ok output)
    | some m =>
      let target := (m.group 1).getD []
      match replace.lookup target with
      | none => some (.error (.exception (undefinedMessage target)))
      | some value => literalLoop replace fuel (replaceAll (holeText target) value output)

/-- A name that a placeholder can have. -/
def Findable (name : Text) : Prop := ∀ c ∈ name, nameClass c = true

/-- As a pattern the name spells itself. A backslash at its end is read well,
too: it makes the next one, that of the closing brace, stand for itself. -/
def PlainName (name : Text) : Prop :=
  ∃ u : Text, Literally u u ∧ (name = u ∨ name = u ++ ['\\'])

/-- The pattern made for the name is of the syntax that is read. -/
def Readable (name : Text) : Prop := ∀ c, compile (targetPattern name) ≠ .error (.unsupported c)

/-! ## Plain names and stable values -/

private theorem open_eq : "@\\\x7b".toList = ['@', '\\', '\x7b'] := by rw [String.toList_ofList]

private theorem close_eq : "\\\x7d@".toList = ['\\', '\x7d', '@'] := by rw [String.toList_ofList]

theorem targetPattern_eq (name : Text) :
    targetPattern name = '@' :: '\\' :: '\x7b' :: (name ++ ['\\', '\x7d', '@']) := by
  rw [targetPattern, open_eq, close_eq]
  simp

/-- **The pattern made for a plain name spells its placeholder.** -/
theorem literally_targetPattern {name : Text} (h : PlainName name) :
    Literally (targetPattern name) (holeText name) := by
  obtain ⟨u, hu, rfl | rfl⟩ := h
  · rw [targetPattern_eq, holeText]
    have hat : Literally ['@'] ['@'] := .plain (by decide) .nil
    have hclose := hu.append_escaped (c := '\x7d') (by decide) hat
    exact .plain (by decide) (.escaped (by decide) hclose)
  · rw [targetPattern_eq, holeText, List.append_assoc, List.append_assoc]
    have hend : Literally ['\x7d', '@'] ['\x7d', '@'] :=
      .plain (by decide) (.plain (by decide) .nil)
    have hclose := hu.append_escaped (c := '\\') (by decide) hend
    exact .plain (by decide) (.escaped (by decide) hclose)

theorem literal_length {p w : Text} (h : Literally p w) : w.length ≤ p.length := by
  induction h with
  | nil => exact Nat.le_refl _
  | plain _ _ ih => simpa using ih
  | brace _ _ ih => simpa using ih
  | escaped _ _ ih => simp only [List.length_cons]; omega

/-- A pattern as long as what it spells escapes nothing. -/
theorem no_backslash_of_length {p w : Text} (h : Literally p w) (hlen : p.length = w.length) :
    '\\' ∉ p := by
  induction h with
  | nil => simp
  | plain hc _ ih =>
    refine List.not_mem_cons_of_ne_of_not_mem ?_ (ih (by simpa using hlen))
    rintro rfl
    exact absurd hc (by decide)
  | brace _ _ ih =>
    exact List.not_mem_cons_of_ne_of_not_mem (by decide) (ih (by simpa using hlen))
  | escaped _ h _ =>
    have := literal_length h
    simp only [List.length_cons] at hlen
    omega

theorem literally_cons {c d : Char} {p w : Text} (h : Literally (c :: p) (d :: w)) :
    (plainChar c = true ∨ c = '\x7b' ∧ opensRepeat p = false) ∧ Literally p w ∨
      c = '\\' ∧ ∃ q, p = d :: q ∧ Literally q w := by
  cases h with
  | plain hc h => exact .inl ⟨.inl hc, h⟩
  | brace hb h => exact .inl ⟨.inr ⟨rfl, hb⟩, h⟩
  | escaped _ h => exact .inr ⟨rfl, _, rfl, h⟩

/-- Only the pattern made for a plain name does. -/
theorem plainName_of_literally {name : Text}
    (h : Literally (targetPattern name) (holeText name)) : PlainName name := by
  have hname : Literally (name ++ ['\\', '\x7d', '@']) (name ++ ['\x7d', '@']) := by
    rw [targetPattern_eq, holeText] at h
    rcases literally_cons h with ⟨_, h⟩ | ⟨hat, _⟩
    · rcases literally_cons h with ⟨hback | ⟨hback, _⟩, _⟩ | ⟨_, q, hq, h⟩
      · exact absurd hback (by decide)
      · exact absurd hback (by decide)
      · rwa [← (List.cons.inj hq).2] at h
    · exact absurd hat (by decide)
  clear h
  induction name with
  | nil => exact ⟨[], .nil, .inl rfl⟩
  | cons c name ih =>
    rcases literally_cons hname with ⟨hc, h⟩ | ⟨rfl, q, hq, h⟩
    · obtain ⟨u, hu, hend⟩ := ih h
      refine ⟨c :: u, ?_, hend.imp (congrArg (c :: ·)) (congrArg (c :: ·))⟩
      rcases hc with hc | ⟨rfl, hb⟩
      · exact .plain hc hu
      · refine .brace ?_ hu
        have hb := (opensRepeat_backslash name ['\x7d', '@']).symm.trans hb
        rcases hend with rfl | rfl
        · exact hb
        · rwa [opensRepeat_backslash] at hb
    · cases name with
      | nil => exact ⟨[], .nil, .inr rfl⟩
      | cons d name =>
        -- another backslash comes next, and one more at the end
        obtain ⟨rfl, rfl⟩ := List.cons.inj hq
        exact absurd (by simp) (no_backslash_of_length h (by simp))

theorem findable_of_search {s : Text} {m : Match} (h : search placeholder s = some m) :
    Findable ((m.group 1).getD []) := by
  obtain ⟨u, hu, _, hg⟩ := (steps_placeholder_iff _ _).mp (search_steps h)
  have hgroup : m.group 1 = some u := by
    rw [Match.group, show m.groups = [(1, u)] from hg]
    rfl
  intro c hc
  rw [hgroup] at hc
  obtain ⟨hat, hcolon⟩ := hu c hc
  simp [nameClass, hat, hcolon]

/-- **Plain names and stable values are substituted literally.** -/
theorem firstLoop_literal {replace : Replace}
    (h : ∀ name value, Findable name → replace.lookup name = some value →
      PlainName name ∧ Stable value) (fuel : Nat) (template : Text) :
    firstLoop replace fuel template = literalLoop replace fuel template := by
  induction fuel generalizing template with
  | zero => rfl
  | succ fuel ih =>
    rw [firstLoop, literalLoop]
    cases hsearch : search placeholder template with
    | none => rfl
    | some m =>
      simp only
      cases hvalue : replace.lookup ((m.group 1).getD []) with
      | none => rfl
      | some value =>
        obtain ⟨hname, hstable⟩ := h _ _ (findable_of_search hsearch) hvalue
        simp only [subText_stable (literally_targetPattern hname) hstable]
        exact ih _

/-! ## The texts that a pattern matches -/

/-- The expression matches the text `w`, whatever comes after it. -/
def Matches (r : Regex) (w : Text) : Prop := ∀ z g, Steps r ⟨w ++ z, g⟩ ⟨z, g⟩

variable {r q : Regex} {w v : Text}

theorem matches_cls {p : Char → Bool} {c : Char} (hc : p c = true) : Matches (cls p) [c] :=
  fun _ _ => .cls hc

theorem Matches.seq (hr : Matches r w) (hq : Matches q v) : Matches (r ++ q) (w ++ v) := by
  intro z g
  rw [List.append_assoc]
  exact .seq (hr _ _) (hq _ _)

theorem Matches.star {c : Char} (hr : Matches r [c]) (b : Bool) : Matches (star b r) [c] :=
  fun z g => .starCons (hr z g) (Nat.lt_succ_self _) (.starNil _)

/-- A repeated item matches two texts. -/
theorem repeated_two {u : Text} {c : Char} (h : Repeated r u q) (hr : Matches r [c]) :
    ∃ w₁ w₂, w₁ ≠ w₂ ∧ (∀ d ∈ w₁, d = c) ∧ (∀ d ∈ w₂, d = c) ∧ Matches q w₁ ∧ Matches q w₂ := by
  have hnil : Matches eps [] := fun z g => .eps _
  cases h with
  | star b => exact ⟨[], [c], by simp, by simp, by simp, fun z g => .starNil _, hr.star b⟩
  | plus b =>
    have hone : Matches (r ++ Regex.star b r) ([c] ++ []) := hr.seq fun z g => .starNil _
    exact ⟨[c], [c, c], by simp, by simp, by simp, hone, hr.seq (hr.star b)⟩
  | opt =>
    exact ⟨[], [c], by simp, by simp, by simp, fun z g => .altRight (hnil z g),
      fun z g => .altLeft (hr z g)⟩
  | optLazy =>
    exact ⟨[], [c], by simp, by simp, by simp, fun z g => .altLeft (hnil z g),
      fun z g => .altRight (hr z g)⟩

/-- Two texts that end with their only `@`. -/
def Ambiguous (r : Regex) : Prop := ∃ w₁ w₂ : Text, w₁ ≠ w₂ ∧ '@' ∉ w₁ ∧ '@' ∉ w₂ ∧
  Matches r (w₁ ++ ['@']) ∧ Matches r (w₂ ++ ['@'])

/-- What is known of a pattern `p` that ends in a brace and an `@`, or is the `@`. -/
structure Closing (mid : Text) (r : Regex) : Prop where
  texts : (∃ w, '@' ∉ w ∧ Literally (mid ++ ['@']) (w ++ ['@']) ∧ Matches r (w ++ ['@'])) ∨
    Ambiguous r
  ends : ∀ s t, Steps r s t → ∃ u, s.rest = u ++ '@' :: t.rest ∧
    (mid = [] → u = []) ∧ (mid ≠ [] → u.getLast? = some '\x7d')

theorem Closing.inhabited {mid : Text} (h : Closing mid r) :
    ∃ w, '@' ∉ w ∧ Matches r (w ++ ['@']) := by
  rcases h.texts with ⟨w, hw, _, hmatches⟩ | ⟨w, _, _, hw, _, hmatches, _⟩
  · exact ⟨w, hw, hmatches⟩
  · exact ⟨w, hw, hmatches⟩

theorem Ambiguous.cons {p : Text} (h : Ambiguous r) (hq : Matches q p) (hp : '@' ∉ p) :
    Ambiguous (q ++ r) := by
  obtain ⟨w₁, w₂, hne, h₁, h₂, hm₁, hm₂⟩ := h
  refine ⟨p ++ w₁, p ++ w₂, fun h => hne (List.append_cancel_left h), by simp [hp, h₁],
    by simp [hp, h₂], ?_, ?_⟩
  · rw [List.append_assoc]
    exact hq.seq hm₁
  · rw [List.append_assoc]
    exact hq.seq hm₂

/-- An item behind which the texts differ, or not. -/
theorem ambiguous_seq {w₁ w₂ : Text} (hne : w₁ ≠ w₂) (h₁ : '@' ∉ w₁) (h₂ : '@' ∉ w₂)
    (hm₁ : Matches q w₁) (hm₂ : Matches q w₂) (hr : ∃ w, '@' ∉ w ∧ Matches r (w ++ ['@'])) :
    Ambiguous (q ++ r) := by
  obtain ⟨w, hw, hm⟩ := hr
  refine ⟨w₁ ++ w, w₂ ++ w, fun h => hne (List.append_cancel_right h), by simp [hw, h₁],
    by simp [hw, h₂], ?_, ?_⟩
  · rw [List.append_assoc]
    exact hm₁.seq hm
  · rw [List.append_assoc]
    exact hm₂.seq hm

private theorem split_last {xs ys mid : Text} {a : Char} (h : xs ++ ys = mid ++ [a]) :
    ys = [] ∧ xs = mid ++ [a] ∨ ∃ mid', ys = mid' ++ [a] ∧ mid = xs ++ mid' := by
  rcases List.eq_nil_or_concat ys with rfl | ⟨ys, b, rfl⟩
  · exact .inl ⟨rfl, by rwa [List.append_nil] at h⟩
  · rw [List.concat_eq_append, ← List.append_assoc] at h
    obtain ⟨hmid, hb⟩ := List.append_inj' h rfl
    exact .inr ⟨ys, by rw [List.concat_eq_append, hb], hmid.symm⟩

private theorem getLast_of_append {xs ys : Text} {a : Char} (h : (xs ++ ys).getLast? = some a)
    (hys : ys ≠ []) : ys.getLast? = some a := by
  rwa [List.getLast?_append_of_ne_nil _ hys] at h

/-- The ends of a sequence are those of its last part. -/
private theorem ends_seq {mid mid' : Text} {s t : State} (hmid : mid = w ++ mid') (hne : mid' ≠ [])
    (hrest : ∀ s t, Steps r s t → ∃ u, s.rest = u ++ '@' :: t.rest ∧
      (mid' = [] → u = []) ∧ (mid' ≠ [] → u.getLast? = some '\x7d'))
    (h : Steps (q ++ r) s t) : ∃ u, s.rest = u ++ '@' :: t.rest ∧
      (mid = [] → u = []) ∧ (mid ≠ [] → u.getLast? = some '\x7d') := by
  obtain ⟨s', hq, hr⟩ := (steps_seq_iff _ _ _ _).mp h
  obtain ⟨u, hu, _, hlast⟩ := hrest _ _ hr
  obtain ⟨v, hv⟩ := hq.suffix
  refine ⟨v ++ u, by rw [← hv, hu, List.append_assoc], fun h => ?_, fun _ => ?_⟩
  · rw [hmid, List.append_eq_nil_iff] at h
    exact absurd h.2 hne
  · rw [List.getLast?_append, hlast hne]
    rfl

/-- The last item is the `@` itself. -/
private theorem closing_last {p mid : Text} (hatom : Atom p r) (hp : p = mid ++ ['@'])
    (hlast : mid ≠ [] → mid.getLast? = some '\x7d') : Closing mid (r ++ eps) := by
  cases hatom with
  | @plain c hc =>
    obtain ⟨rfl, hat⟩ := List.append_inj' (show [] ++ [c] = mid ++ ['@'] from hp) rfl
    obtain rfl : c = '@' := by simpa using hat
    have hmatches : Matches (cls (· == '@') ++ eps) (['@'] ++ []) :=
      (matches_cls (by decide)).seq fun z g => .eps _
    refine ⟨.inl ⟨[], by simp, .plain (by decide) .nil, hmatches⟩, fun s t h => ?_⟩
    obtain ⟨s', hs, ht⟩ := (steps_seq_iff _ _ _ _).mp h
    obtain ⟨d, hd, hrest, _⟩ := (steps_cls_iff _ _ _).mp hs
    obtain rfl : d = '@' := by simpa using hd
    obtain rfl := (steps_eps_iff _ _).mp ht
    exact ⟨[], hrest, fun _ => rfl, fun h => absurd rfl h⟩
  | @escaped c hc =>
    obtain ⟨hmid, _⟩ := List.append_inj' (show ['\\'] ++ [c] = mid ++ ['@'] from hp) rfl
    have h := hlast (by simp [← hmid])
    rw [← hmid] at h
    exact absurd h (by decide)
  | brace =>
    obtain ⟨_, hat⟩ := List.append_inj' (show [] ++ ['\x7b'] = mid ++ ['@'] from hp) rfl
    exact absurd hat (by decide)
  | dot =>
    obtain ⟨_, hat⟩ := List.append_inj' (show [] ++ ['.'] = mid ++ ['@'] from hp) rfl
    exact absurd hat (by decide)

/-- An item in front. -/
private theorem closing_cons {p mid : Text} {rest : Regex} (hatom : Atom p r)
    (hbrace : p = ['\x7b'] → opensRepeat (mid ++ ['@']) = false) (hp : '@' ∉ p)
    (hlast : (p ++ mid).getLast? = some '\x7d') (h : Closing mid rest) :
    Closing (p ++ mid) (r ++ rest) := by
  have hcls : ∀ {q : Text} {c : Char}, q.getLast? = some c → r = cls (· == c) → c ≠ '@' →
      (∀ w, Literally (mid ++ ['@']) (w ++ ['@']) →
        Literally (q ++ (mid ++ ['@'])) (c :: (w ++ ['@']))) → p = q →
      Closing (p ++ mid) (r ++ rest) := by
    rintro q c hq rfl hc hspell rfl
    have hmatches : Matches (cls (· == c)) [c] := matches_cls (beq_self_eq_true c)
    refine ⟨?_, fun s t hst => ?_⟩
    · rcases h.texts with ⟨w, hw, hliterally, hm⟩ | hambiguous
      · refine .inl ⟨c :: w, by simp [hw, Ne.symm hc], ?_, hmatches.seq hm⟩
        rw [List.append_assoc]
        exact hspell w hliterally
      · exact .inr (hambiguous.cons hmatches (by simpa using Ne.symm hc))
    · by_cases hmid : mid = []
      · subst hmid
        obtain ⟨s', hs, ht⟩ := (steps_seq_iff _ _ _ _).mp hst
        obtain ⟨d, hd, hrest, _⟩ := (steps_cls_iff _ _ _).mp hs
        obtain ⟨u, hu, hnil, _⟩ := h.ends _ _ ht
        obtain rfl := hnil rfl
        rw [List.append_nil, hq] at hlast
        refine ⟨[d], by rw [hrest, hu]; rfl, fun h => ?_, fun _ => ?_⟩
        · rw [List.append_nil] at h
          rw [h] at hq
          cases hq
        · rw [eq_of_beq hd, ← hlast]
          rfl
      · exact ends_seq rfl hmid h.ends hst
  cases hatom with
  | @plain c hc =>
    exact hcls rfl rfl (by simpa using Ne.symm (List.ne_of_not_mem_cons hp)) (fun w => .plain hc) rfl
  | brace => exact hcls rfl rfl (by decide) (fun w => .brace (hbrace rfl)) rfl
  | @escaped c hc =>
    exact hcls rfl rfl (by rintro rfl; simp at hp) (fun w => .escaped hc) rfl
  | dot =>
    have hmid : mid ≠ [] := by
      rintro rfl
      exact absurd hlast (by decide)
    have hne : ['a'] ≠ ['b'] := by decide
    refine ⟨.inr (ambiguous_seq hne (by decide) (by decide)
      (matches_cls (by decide)) (matches_cls (by decide)) h.inhabited), fun s t hst => ?_⟩
    exact ends_seq rfl hmid h.ends hst

theorem parses_nil {p : Text} (h : Parses p r) (hp : p = []) : r = eps := by
  cases h with
  | nil => rfl
  | single hatom _ _ => cases hatom <;> cases hp
  | repeated hatom _ _ _ _ => cases hatom <;> cases hp

/-- **What a pattern that ends in a brace and an `@` matches.** -/
theorem closing_of_parses {p mid : Text} (h : Parses p r) (hp : p = mid ++ ['@'])
    (hat : '@' ∉ mid) (hlast : mid ≠ [] → mid.getLast? = some '\x7d') : Closing mid r := by
  induction h generalizing mid with
  | nil => simp at hp
  | @single p t r rest hatom hbrace hparses ih =>
    rcases split_last hp with ⟨rfl, hatom_eq⟩ | ⟨mid', rfl, rfl⟩
    · rw [parses_nil hparses rfl]
      exact closing_last hatom hatom_eq hlast
    · rw [List.mem_append, not_or] at hat
      have hne : p ++ mid' ≠ [] := by
        cases hatom <;> simp
      exact closing_cons hatom hbrace hat.1 (hlast hne)
        (ih rfl hat.2 fun hmid => getLast_of_append (hlast hne) hmid)
  | @repeated p u t r q rest hatom hne hu hrepeated _ ih =>
    rw [← List.append_assoc] at hp
    have hrepeat : repeatChar '@' = false ∧ repeatChar '\x7d' = false := by decide
    rcases split_last hp with ⟨rfl, hitem⟩ | ⟨mid', rfl, rfl⟩
    · have h : (p ++ u).getLast? = some '@' := by rw [hitem, List.getLast?_concat]
      have h := hu _ (List.mem_of_getLast? (getLast_of_append h hne))
      rw [hrepeat.1] at h
      cases h
    · rw [List.mem_append, List.mem_append, not_or, not_or] at hat
      have hmid : mid' ≠ [] := by
        rintro rfl
        have h := hlast (by simp [hne])
        rw [List.append_nil] at h
        have h := hu _ (List.mem_of_getLast? (getLast_of_append h hne))
        rw [hrepeat.2] at h
        cases h
      have hclosing := ih rfl hat.2 fun hmid => getLast_of_append (hlast (by simp [hne])) hmid
      obtain ⟨c, hc, hm⟩ : ∃ c, c ≠ '@' ∧ Matches r [c] := by
        cases hatom with
        | @plain c hc => exact ⟨c, by rintro rfl; simp at hat, matches_cls (beq_self_eq_true c)⟩
        | @escaped c hc => exact ⟨c, by rintro rfl; simp at hat, matches_cls (beq_self_eq_true c)⟩
        | brace => exact ⟨'\x7b', by decide, matches_cls (by decide)⟩
        | dot => exact ⟨'a', by decide, matches_cls (by decide)⟩
      obtain ⟨w₁, w₂, hw, h₁, h₂, hm₁, hm₂⟩ := repeated_two hrepeated hm
      refine ⟨.inr (ambiguous_seq hw (fun h => hc (h₁ _ h).symm) (fun h => hc (h₂ _ h).symm) hm₁ hm₂
        hclosing.inhabited), fun s t hst => ?_⟩
      exact ends_seq rfl hmid hclosing.ends hst

/-- The pattern made for a name, behind its first `@`. -/
def targetMid (name : Text) : Text := '\\' :: '\x7b' :: (name ++ ['\\', '\x7d'])

theorem target_parses {name : Text} (h : compile (targetPattern name) = .ok r) :
    ∃ q, r = cls (· == '@') ++ q ∧ Parses (targetMid name ++ ['@']) q := by
  have hp : targetPattern name = '@' :: (targetMid name ++ ['@']) := by
    rw [targetPattern_eq, targetMid]
    simp
  have hparses := compile_parses h
  generalize targetPattern name = p at hparses hp
  cases hparses with
  | nil => cases hp
  | single hatom _ hrest =>
    cases hatom with
    | plain _ =>
      obtain ⟨rfl, rfl⟩ := List.cons.inj hp
      exact ⟨_, rfl, hrest⟩
    | escaped _ => exact absurd (List.cons.inj hp).1 (by decide)
    | brace => exact absurd (List.cons.inj hp).1 (by decide)
    | dot => exact absurd (List.cons.inj hp).1 (by decide)
  | @repeated p u _ _ _ _ hatom hne hu _ _ =>
    obtain ⟨c, u, rfl⟩ := List.exists_cons_of_ne_nil hne
    cases hatom with
    | plain _ =>
      obtain ⟨_, htail⟩ := List.cons.inj hp
      obtain rfl : c = '\\' := (List.cons.inj htail).1
      exact absurd (hu '\\' (List.mem_cons_self ..)) (by decide)
    | escaped _ => exact absurd (List.cons.inj hp).1 (by decide)
    | brace => exact absurd (List.cons.inj hp).1 (by decide)
    | dot => exact absurd (List.cons.inj hp).1 (by decide)

/-- Matches of the pattern made for a name start with an `@` and end with a
brace and an `@`. -/
def Delimited (r : Regex) : Prop :=
  ∀ s t, Steps r s t → ∃ u, s.rest = '@' :: (u ++ '\x7d' :: '@' :: t.rest)

/-- **A pattern that is made for a name** spells one text or matches two. -/
theorem target_cases {name : Text} (hname : '@' ∉ name)
    (h : compile (targetPattern name) = .ok r) : Delimited r ∧
      ((∃ w, '@' ∉ w ∧ Literally (targetPattern name) ('@' :: (w ++ ['@'])) ∧
          Matches r ('@' :: (w ++ ['@']))) ∨
        ∃ w₁ w₂ : Text, w₁ ≠ w₂ ∧ '@' ∉ w₁ ∧ '@' ∉ w₂ ∧ Matches r ('@' :: (w₁ ++ ['@'])) ∧
          Matches r ('@' :: (w₂ ++ ['@']))) := by
  obtain ⟨q, rfl, hparses⟩ := target_parses h
  have hat : '@' ∉ targetMid name := by simp [targetMid, hname]
  have hlast : (targetMid name).getLast? = some '\x7d' := by
    rw [show targetMid name = '\\' :: '\x7b' :: (name ++ ['\\']) ++ ['\x7d'] by simp [targetMid],
      List.getLast?_concat]
  have hclosing := closing_of_parses hparses rfl hat fun _ => hlast
  have hcls : Matches (cls (· == '@')) ['@'] := matches_cls (by decide)
  constructor
  · intro s t hst
    obtain ⟨s', hs, ht⟩ := (steps_seq_iff _ _ _ _).mp hst
    obtain ⟨c, hc, hrest, _⟩ := (steps_cls_iff _ _ _).mp hs
    obtain ⟨u, hu, _, hbrace⟩ := hclosing.ends _ _ ht
    obtain ⟨u, rfl⟩ := List.getLast?_eq_some_iff.mp (hbrace (by simp [targetMid]))
    refine ⟨u, ?_⟩
    rw [hrest, hu, eq_of_beq hc]
    simp
  · refine hclosing.texts.imp ?_ ?_
    · rintro ⟨w, hw, hliterally, hm⟩
      refine ⟨w, hw, ?_, hcls.seq hm⟩
      rw [targetPattern_eq, show '\\' :: '\x7b' :: (name ++ ['\\', '\x7d', '@']) =
        targetMid name ++ ['@'] by simp [targetMid]]
      exact .plain (by decide) hliterally
    · rintro ⟨w₁, w₂, hne, h₁, h₂, hm₁, hm₂⟩
      exact ⟨w₁, w₂, hne, h₁, h₂, hcls.seq hm₁, hcls.seq hm₂⟩

theorem Delimited.consuming (h : Delimited r) : Consuming r := by
  intro s t hst
  obtain ⟨u, hu⟩ := h s t hst
  rw [hu]
  simp only [List.length_cons, List.length_append]
  omega

/-- On a text whose only `@`s are its ends a match is the whole of it. -/
theorem Delimited.rest_nil (h : Delimited r) {mid : Text} (hmid : '@' ∉ mid) {g : List (Nat × Text)}
    {t : State} (hst : Steps r ⟨'@' :: (mid ++ ['@']), g⟩ t) : t.rest = [] := by
  obtain ⟨u, hu⟩ := h _ _ hst
  have hsplit : mid ++ '@' :: [] = (u ++ ['\x7d']) ++ '@' :: t.rest := by
    refine (List.cons.inj hu).2.trans ?_
    simp
  exact ((List.append_cons_inj_of_notMem hmid List.not_mem_nil).mp hsplit).2.2.symm

/-- Where the matches of one such text and another one behind it can end. -/
theorem Delimited.rest_two (h : Delimited r) {mid mid' : Text} (hmid : '@' ∉ mid)
    (hmid' : '@' ∉ mid') {g : List (Nat × Text)} {t : State}
    (hst : Steps r ⟨'@' :: (mid ++ ['@']) ++ '@' :: (mid' ++ ['@']), g⟩ t) :
    t.rest = '@' :: (mid' ++ ['@']) ∨ t.rest = [] := by
  obtain ⟨u, hu⟩ := h _ _ hst
  have hsplit : mid ++ ('@' :: '@' :: (mid' ++ ['@'])) = (u ++ ['\x7d']) ++ '@' :: t.rest := by
    rw [show mid ++ ('@' :: '@' :: (mid' ++ ['@'])) =
      mid ++ ['@'] ++ '@' :: (mid' ++ ['@']) by simp]
    refine (List.cons.inj hu).2.trans ?_
    simp
  rcases List.append_eq_append_iff.mp hsplit with ⟨w, hw, hrest⟩ | ⟨w, hw, hrest⟩
  · cases w with
    | nil => exact .inl (List.cons.inj hrest).2.symm
    | cons c w =>
      right
      obtain ⟨rfl, htail⟩ := List.cons.inj hrest
      cases w with
      | nil => exact absurd (List.append_inj' hw rfl).2 (by decide)
      | cons d w =>
        have hend := (List.cons.inj htail).2
        exact ((List.append_cons_inj_of_notMem hmid' List.not_mem_nil).mp hend.symm.symm).2.2.symm
  · cases w with
    | nil => exact .inl (List.cons.inj hrest).2
    | cons c w =>
      obtain ⟨rfl, _⟩ := List.cons.inj hrest
      exact absurd (by rw [hw]; simp) hmid

/-! ## Runs on single placeholders -/

variable {replace : Replace} {name value : Text}

theorem Findable.no_at (h : Findable name) : ∀ c ∈ name, c ≠ '@' ∧ c ≠ ':' := by
  intro c hc
  simpa [nameClass] using h c hc

theorem search_hole (hname : Findable name) (s : Text) :
    ∃ m, search placeholder (holeText name ++ s) = some m ∧ m.group 1 = some name :=
  ⟨_, search_of_first (first_placeholder hname.no_at s), rfl⟩

theorem search_no_at {s : Text} (hs : '@' ∉ s) : search placeholder s = none := by
  rw [Option.eq_none_iff_forall_ne_some]
  intro m hm
  have hsome : (search placeholder s).isSome := by rw [hm]; rfl
  obtain ⟨a, u, t, rfl, ht⟩ := (search_isSome_iff _ _).mp hsome
  obtain ⟨w, _, hw⟩ := holeShaped_placeholder _ _ ht
  exact hs (by rw [hw]; simp)

theorem firstLoop_hole (hname : Findable name) (hvalue : replace.lookup name = some value)
    (fuel : Nat) (s : Text) : firstLoop replace (fuel + 1) (holeText name ++ s) =
      match subText (targetPattern name) value (holeText name ++ s) with
      | .error e => some (.error (.regex e))
      | .ok output => firstLoop replace fuel output := by
  obtain ⟨m, hm, hgroup⟩ := search_hole hname s
  cases hsub : subText (targetPattern name) value (holeText name ++ s) with
  | error e => simp only [firstLoop, hm, hgroup, Option.getD_some, hvalue, hsub]
  | ok output => simp only [firstLoop, hm, hgroup, Option.getD_some, hvalue, hsub]

theorem literalLoop_hole (hname : Findable name) (hvalue : replace.lookup name = some value)
    (fuel : Nat) (s : Text) : literalLoop replace (fuel + 1) (holeText name ++ s) =
      literalLoop replace fuel (replaceAll (holeText name) value (holeText name ++ s)) := by
  obtain ⟨m, hm, hgroup⟩ := search_hole hname s
  simp only [literalLoop, hm, hgroup, Option.getD_some, hvalue]

theorem replaceAll_hole (name value s : Text) :
    replaceAll (holeText name) value (holeText name ++ s) =
      value ++ replaceAll (holeText name) value s := by
  have hcons : Consuming (lit (holeText name)) := consuming_lit (List.cons_ne_nil _ _)
  have hfirst : first (lit (holeText name)) (holeText name ++ s) = some ⟨s, []⟩ := head?_lit _ _ _
  rw [replaceAll, sub_of_first hcons _ hfirst]
  rfl

/-- A round that is the last one changes nothing. -/
theorem firstLoop_one {s y : Text} (h : firstLoop replace 1 s = some (.ok y)) : y = s := by
  rw [firstLoop] at h
  split at h
  · exact (Except.ok.inj (Option.some.inj h)).symm
  · simp only at h
    split at h
    · cases h
    · split at h
      · cases h
      · cases h

theorem literalLoop_one {s y : Text} (h : literalLoop replace 1 s = some (.ok y)) : y = s := by
  rw [literalLoop] at h
  split at h
  · exact (Except.ok.inj (Option.some.inj h)).symm
  · simp only at h
    split at h
    · cases h
    · cases h

theorem holeText_eq (name : Text) : holeText name = '@' :: ('\x7b' :: (name ++ ['\x7d']) ++ ['@']) := by
  simp [holeText]

/-- A text whose only `@`s are its ends has no placeholder but itself. -/
theorem hole_absent {w : Text} (hw : '@' ∉ w) (hne : '@' :: (w ++ ['@']) ≠ holeText name) :
    ¬ holeText name <:+: '@' :: (w ++ ['@']) := by
  rintro ⟨a, b, h⟩
  rw [holeText_eq] at h hne
  have hsplit : ∀ {u v : Text}, u ++ '@' :: v = w ++ ['@'] → u = w ∧ v = [] := by
    intro u v h
    obtain ⟨hu, _, hv⟩ := (List.append_cons_inj_of_notMem hw List.not_mem_nil).mp h.symm
    exact ⟨hu.symm, hv.symm⟩
  cases a with
  | nil =>
    have htail : '\x7b' :: (name ++ ['\x7d']) ++ '@' :: b = w ++ ['@'] := by
      simpa using (List.cons.inj h).2
    obtain ⟨hmid, _⟩ := hsplit htail
    exact hne (by rw [hmid])
  | cons c a =>
    have htail := (List.cons.inj h).2
    have hnil := (hsplit (v := '\x7b' :: (name ++ ['\x7d']) ++ ['@'] ++ b) (by simpa using htail)).2
    cases hnil

/-- The template that is one placeholder becomes its value. -/
theorem literalLoop_single (hname : Findable name) (hvalue : replace.lookup name = some value)
    (hat : '@' ∉ value) : literalLoop replace 2 (holeText name) = some (.ok value) := by
  have hhole := literalLoop_hole hname hvalue 1 []
  have hreplace := replaceAll_hole name value []
  have hnil : replaceAll (holeText name) value [] = [] :=
    sub_nil (consuming_lit (List.cons_ne_nil _ _)) _
  rw [List.append_nil] at hhole hreplace
  rw [hhole, hreplace, hnil, List.append_nil, literalLoop, search_no_at hat]

/-- The template that is one placeholder: its value comes out only if the
pattern matches the placeholder and the value is stable. -/
theorem single_hole (hname : Findable name) (hread : Readable name)
    (hvalue : replace.lookup name = some value) (hat : '@' ∉ value)
    (h : firstLoop replace 2 (holeText name) = literalLoop replace 2 (holeText name)) :
    ∃ r, compile (targetPattern name) = .ok r ∧ (∃ t, Steps r ⟨holeText name, []⟩ t) ∧
      Stable value := by
  rw [literalLoop_single hname hvalue hat] at h
  have hfirst := firstLoop_hole hname hvalue 1 []
  rw [List.append_nil, h, subText] at hfirst
  cases hcompile : compile (targetPattern name) with
  | error e =>
    cases e with
    | unsupported c => exact absurd hcompile (hread c)
    | _ => simp [hcompile] at hfirst
  | ok r =>
    simp only [hcompile] at hfirst
    cases htemplate : Regex.template value with
    | error e => simp [htemplate] at hfirst
    | ok f =>
      simp only [htemplate] at hfirst
      have hsub := firstLoop_one hfirst.symm
      have hno : '@' ∉ name := fun h => (hname.no_at _ h).1 rfl
      obtain ⟨hdelimited, _⟩ := target_cases hno hcompile
      cases hr : first r (holeText name) with
      | none =>
        -- the `@` would still be there
        rw [holeText, sub_of_none hdelimited.consuming _ hr] at hsub
        exact absurd (by rw [hsub]; simp) hat
      | some t =>
        have hst := (mem_run_iff _ _ _).mp (List.mem_of_head? hr)
        have hrest : t.rest = [] := by
          have hwhole := hst
          rw [holeText_eq] at hwhole
          exact hdelimited.rest_nil (by simp [hno]) hwhole
        rw [sub_of_first hdelimited.consuming _ hr, hrest, sub_nil hdelimited.consuming,
          List.append_nil] at hsub
        have hgroup : '@' ∈ ((Match.mk (holeText name) [] t.groups).group 0).getD [] := by
          simp [Match.group, holeText]
        exact ⟨r, rfl, ⟨t, hst⟩, stable_of_template htemplate hgroup hat hsub.symm⟩

/-- **A pattern that matches another text as well takes that one, too.** -/
theorem two_holes {w : Text} (hname : Findable name) (hvalue : replace.lookup name = some value)
    (hat : '@' ∉ value) (hstable : Stable value) (hcompile : compile (targetPattern name) = .ok r)
    (hhole : ∃ t, Steps r ⟨holeText name, []⟩ t) (hw : '@' ∉ w)
    (hm : Matches r ('@' :: (w ++ ['@']))) (hne : '@' :: (w ++ ['@']) ≠ holeText name) :
    ∃ template, firstLoop replace 2 template ≠ literalLoop replace 2 template := by
  have hno : '@' ∉ name := fun h => (hname.no_at _ h).1 rfl
  obtain ⟨hdelimited, _⟩ := target_cases hno hcompile
  let other : Text := '@' :: (w ++ ['@'])
  have hnil := sub_nil hdelimited.consuming fun _ => value
  -- the other text is replaced as a whole
  have hother : sub r (fun _ => value) other = value := by
    have hsome : (first r other).isSome :=
      (first_isSome_iff _ _).mpr ⟨⟨[], []⟩, by simpa using hm [] []⟩
    obtain ⟨t, ht⟩ := Option.isSome_iff_exists.mp hsome
    have hst := (mem_run_iff _ _ _).mp (List.mem_of_head? ht)
    rw [sub_of_first hdelimited.consuming _ ht, hdelimited.rest_nil hw hst, hnil, List.append_nil]
  have hsub : '@' ∉ sub r (fun _ => value) (holeText name ++ other) := by
    obtain ⟨t₀, ht₀⟩ := hhole
    have hsome : (first r (holeText name ++ other)).isSome :=
      (first_isSome_iff _ _).mpr ⟨_, ht₀.frame other⟩
    obtain ⟨t, ht⟩ := Option.isSome_iff_exists.mp hsome
    have hst := (mem_run_iff _ _ _).mp (List.mem_of_head? ht)
    rw [sub_of_first hdelimited.consuming _ ht]
    rw [holeText_eq] at hst
    rcases hdelimited.rest_two (by simp [hno]) hw hst with hrest | hrest
    · rw [hrest, show '@' :: (w ++ ['@']) = other from rfl, hother]
      simp [hat]
    · rw [hrest, hnil]
      simp [hat]
  refine ⟨holeText name ++ other, fun heq => ?_⟩
  rw [firstLoop_hole hname hvalue, subText] at heq
  simp only [hcompile, template_stable hstable] at heq
  rw [firstLoop, search_no_at hsub, literalLoop_hole hname hvalue, replaceAll_hole] at heq
  have hresult := literalLoop_one heq.symm
  apply hsub
  rw [hresult]
  have hkept : replaceAll (holeText name) value other = other :=
    (rewrites_sub (List.cons_ne_nil _ _) value other).eq_of_absent (hole_absent hw hne)
  rw [hkept]
  simp [other]

/-- **When substitution is literal**: the loop does on all templates what
replacing by the characters of the values does iff the names that a placeholder
can have are plain and their values stable. -/
theorem substitution_literal_iff (replace : Replace) (filename : Text)
    (hat : ∀ name value, (withFilename replace filename).lookup name = some value → '@' ∉ value)
    (hread : ∀ name, Findable name → ((withFilename replace filename).lookup name).isSome →
      Readable name) :
    (∀ template fuel, expandTemplate template filename replace fuel =
      literalLoop (withFilename replace filename) fuel template) ↔
    ∀ name value, Findable name → (withFilename replace filename).lookup name = some value →
      PlainName name ∧ Stable value := by
  constructor
  · intro h name value hname hvalue
    have hnoat := hat name value hvalue
    have hno : '@' ∉ name := fun h => (hname.no_at _ h).1 rfl
    obtain ⟨r, hcompile, hhole, hstable⟩ :=
      single_hole hname (hread name hname (by rw [hvalue]; rfl)) hvalue hnoat (h (holeText name) 2)
    refine ⟨?_, hstable⟩
    have hall : ∀ w : Text, '@' ∉ w → Matches r ('@' :: (w ++ ['@'])) →
        '@' :: (w ++ ['@']) = holeText name := by
      intro w hw hm
      by_contra hne
      obtain ⟨template, htemplate⟩ := two_holes hname hvalue hnoat hstable hcompile hhole hw hm hne
      exact htemplate (h template 2)
    rcases (target_cases hno hcompile).2 with ⟨w, hw, hliterally, hm⟩ | ⟨w₁, w₂, hne, h₁, h₂, hm₁, hm₂⟩
    · rw [hall w hw hm] at hliterally
      exact plainName_of_literally hliterally
    · have heq := (hall w₁ h₁ hm₁).trans (hall w₂ h₂ hm₂).symm
      exact absurd (List.append_cancel_right (List.cons.inj heq).2) hne
  · exact fun h template fuel => firstLoop_literal h fuel template

theorem readable_of_plain {name : Text} (h : PlainName name) : Readable name := by
  intro c
  rw [compile_literally (literally_targetPattern h)]
  simp

/-- A call, and the same call with an escape sequence in its argument. -/
def callReplace (call : Text) : Replace := [("call".toList, call)]

theorem substitution_literal_iff_sample :
    (∀ template fuel, expandTemplate template "a.c".toList (callReplace "MPI_Init();".toList) fuel =
      literalLoop (withFilename (callReplace "MPI_Init();".toList) "a.c".toList) fuel template) ↔
    ∀ name value, Findable name →
      (withFilename (callReplace "MPI_Init();".toList) "a.c".toList).lookup name = some value →
        PlainName name ∧ Stable value := by
  have hvalues : ∀ e ∈ withFilename (callReplace "MPI_Init();".toList) "a.c".toList, '@' ∉ e.2 := by
    decide +kernel
  have hnames : ∀ e ∈ withFilename (callReplace "MPI_Init();".toList) "a.c".toList,
      ∀ c ∈ e.1, plainChar c = true := by
    decide +kernel
  refine substitution_literal_iff _ _ (fun name value h => hvalues _ (lookup_mem h)) ?_
  intro name _ h
  obtain ⟨value, hvalue⟩ := Option.isSome_iff_exists.mp h
  exact readable_of_plain ⟨name, literally_of_plain (hnames _ (lookup_mem hvalue)), .inl rfl⟩

/-- The escape sequence of the argument comes out as a line feed. -/
theorem substitution_not_literal :
    expandTemplate "@\x7bcall\x7d@".toList "a.c".toList
        (callReplace "printf(\"%d\\n\", rank);".toList) 2 =
      some (.ok "printf(\"%d\n\", rank);".toList) ∧
    literalLoop (withFilename (callReplace "printf(\"%d\\n\", rank);".toList) "a.c".toList) 2
        "@\x7bcall\x7d@".toList =
      some (.ok "printf(\"%d\\n\", rank);".toList) ∧
    "printf(\"%d\n\", rank);".toList ≠ "printf(\"%d\\n\", rank);".toList := by
  refine ⟨?_, ?_, ?_⟩ <;> decide +kernel

end MpiBugs.MakeFile
