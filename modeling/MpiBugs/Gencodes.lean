import MpiBugs.Announcements
import MpiBugs.Campaign
import MpiBugs.Catalogue
import MpiBugs.Reporting
import MpiBugs.Words

/-!
# Generating the codes

`cmd_gencodes` of `MBI.py`: the directory that the generators fill, in the order in which
they are listed, and what `extract_all_todo` then finds in it.

* `filename_unique`: files with different names in the catalogue have different names on the disk;
* `gencodes_kept`: whatever the order, every file is written once, under a name that
  tells whether an error is expected;
* `gencodes_read`: every batch of the directory can be read, tests have different keys,
  and the reports can be written.
-/

namespace MpiBugs.Gencodes

open Header RoundTrip Generators Catalogue CacheKeys Batch Listing HtmlReport Words
open MakeFile (shortFilename)

/-! ## Names on the disk -/

/-- What is left of a part. -/
def short (p : Part) : Text :=
  if "MPI_".toList.isPrefixOf p.name then p.name.drop 4 else p.name

def primitivesNamed : List Primitive :=
  [.MPI_Barrier, .MPI_Bcast, .MPI_Reduce, .MPI_Gather, .MPI_Scatter, .MPI_Scan, .MPI_Exscan,
   .MPI_Allgather, .MPI_Allreduce, .MPI_Allgatherv, .MPI_Alltoall, .MPI_Alltoallv, .MPI_Ibcast,
   .MPI_Ireduce, .MPI_Igather, .MPI_Iscatter, .MPI_Iscan, .MPI_Iexscan, .MPI_Iallgather,
   .MPI_Iallreduce, .MPI_Iallgatherv, .MPI_Ialltoall, .MPI_Ialltoallv, .MPI_Ibarrier,
   .MPI_Comm_split, .MPI_Op_create, .MPI_Comm_group, .MPI_Comm_dup, .MPI_Type_contiguous,
   .MPI_Comm_create, .MPI_Group_excl, .MPI_Cart_get, .MPI_Cart_create, .MPI_Send, .MPI_Ssend,
   .MPI_Bsend, .MPI_Isend, .MPI_Send_init, .MPI_Recv, .MPI_Irecv, .MPI_Recv_init, .MPI_Probe,
   .MPI_Win_fence, .MPI_Win_lock, .MPI_Win_lock_all, .MPI_Get, .MPI_Put, .store, .load,
   .loadstore]

def families : List Family :=
  [.CollInvalidOtherArg, .CollRootMatching, .CollRootNeg, .CollRootTooLarge, .CollDataMatching,
   .CollDataNull, .CollOpMatching, .CollOpNull, .CollComMatching, .CollComNull,
   .CollLocalConcurrency, .CollCorrect, .CollCallOrder, .CollP2PCallMatching, .CollInvalidCom,
   .CollInvalidDim, .P2PCallMatching, .MissingWait, .MissingStart, .RequestLeak, .P2PDataMatching,
   .P2PDatatypeNull, .P2PInvalidDatatype, .P2PTagMatching, .P2PInvalidTag, .P2PComMatching,
   .P2PInvalidCom, .P2PInvalidDest, .P2PInvalidSrc, .P2PLocalConcurrency, .P2PMessageRace,
   .GlobalConcurrency, .RMADatatypeNull, .RMAInvalidDatatype, .MBI_LocalConcurrency,
   .CallParamCorrect, .Resleak, .Resleak_multiple]

def parts : List Part := .none :: .ok :: .nok :: primitivesNamed.map .primitive

theorem mem_families (f : Family) : f ∈ families := by cases f <;> decide

theorem mem_parts (p : Part) : p ∈ parts := by
  cases p with
  | primitive p => cases p <;> decide
  | none | ok | nok => decide

/-- The words with which no part starts. -/
def innerWords : List Text :=
  ["LocalConcurrency".toList, "multiple".toList, "init".toList, "split".toList, "create".toList,
   "group".toList, "dup".toList, "contiguous".toList, "excl".toList, "get".toList, "fence".toList,
   "lock".toList, "all".toList]

/-- Nowhere in the text, nor after it, a prefix of `MPI` can follow an underscore. -/
def unprefixed : Text → Bool
  | [] => true
  | [c] => c != '_'
  | c :: d :: t => !(c == '_' && d == 'M') && unprefixed (d :: t)

theorem families_spelled : (families.map Family.name).Nodup ∧ ∀ f ∈ families,
    Phrase (· ∈ innerWords) (f.name.splitOn '_') ∧ unprefixed f.name = true ∧
      '.' ∉ f.name ∧ '/' ∉ f.name ∧ ¬ "_nok".toList <:+ f.name := by
  decide +kernel

theorem parts_spelled : (parts.map short).Nodup ∧ ∀ p ∈ parts,
    Phrase (· ∈ innerWords) ((short p).splitOn '_') ∧ unprefixed ('_' :: short p) = true ∧
      '.' ∉ short p ∧ '/' ∉ short p ∧ ("_nok".toList <:+ '_' :: short p ↔ p = .nok) := by
  decide +kernel

/-! ## Without the prefixes -/

theorem mpi_ne_nil : "_MPI_".toList ≠ [] := by decide

theorem shortFilename_hit (s : Text) :
    shortFilename ("_MPI_".toList ++ s) = '_' :: shortFilename s := by
  have hone : "_".toList = ['_'] := by decide
  have hhit := Regex.sub_of_first (Regex.consuming_lit mpi_ne_nil) (fun _ => "_".toList)
    (Regex.head?_lit "_MPI_".toList s [])
  rw [hone] at hhit
  rw [shortFilename, hone]
  exact hhit

theorem shortFilename_keep {c : Char} {s : Text} (h : ¬ "_MPI_".toList <+: c :: s) :
    shortFilename (c :: s) = c :: shortFilename s := by
  refine Regex.sub_of_none (Regex.consuming_lit mpi_ne_nil) _
    ((Regex.first_eq_none_iff _ _).mpr fun t ht => h ?_)
  exact ⟨t.rest, ((Regex.steps_lit_iff ..).mp ht).1.symm⟩

theorem shortFilename_append {u : Text} (h : unprefixed u = true) (s : Text) :
    shortFilename (u ++ s) = u ++ shortFilename s := by
  have hmpi : "_MPI_".toList = ['_', 'M', 'P', 'I', '_'] := by decide
  induction u with
  | nil => rfl
  | cons c u ih =>
    cases u with
    | nil =>
      refine shortFilename_keep fun hp => ?_
      rw [hmpi] at hp
      have hc : '_' = c := (List.cons_prefix_cons.mp hp).1
      simp [unprefixed, ← hc] at h
    | cons d u =>
      rw [unprefixed, Bool.and_eq_true] at h
      have hkeep : ¬ "_MPI_".toList <+: c :: (d :: u ++ s) := by
        rw [hmpi]
        intro hp
        obtain ⟨hc, hp⟩ := List.cons_prefix_cons.mp hp
        obtain ⟨hd, -⟩ := List.cons_prefix_cons.mp hp
        simp [← hc, ← hd] at h
      exact (shortFilename_keep hkeep).trans (congrArg (c :: ·) (ih h.2))

theorem unprefixed_tail {c : Char} {t : Text} (h : unprefixed (c :: t) = true) :
    unprefixed t = true := by
  cases t with
  | nil => rfl
  | cons d t => exact (Bool.and_eq_true_iff.mp h).2

theorem shortFilename_part (p : Part) (s : Text) :
    shortFilename ('_' :: p.name ++ s) = '_' :: short p ++ shortFilename s := by
  obtain ⟨-, hfree, -⟩ := parts_spelled.2 p (mem_parts p)
  by_cases hprefix : "MPI_".toList.isPrefixOf p.name = true
  · obtain ⟨t, ht⟩ := List.isPrefixOf_iff_prefix.mp hprefix
    have hshort : short p = t := by
      rw [short, if_pos hprefix, ← ht]
      exact List.drop_left' (by decide)
    have hname : '_' :: p.name ++ s = "_MPI_".toList ++ (t ++ s) := by
      rw [← ht]
      rfl
    rw [hshort] at hfree ⊢
    rw [hname, shortFilename_hit]
    exact congrArg ('_' :: ·) (shortFilename_append (unprefixed_tail hfree) s)
  · have hshort : short p = p.name := if_neg hprefix
    rw [hshort] at hfree ⊢
    exact shortFilename_append hfree s

/-- **The name on the disk.** -/
theorem shortFilename_filename (n : Name) :
    shortFilename n.filename = joined '_' n.family.name (n.parts.map short) ++ ".c".toList := by
  have hparts : ∀ ps : List Part, shortFilename ((ps.map Part.name).flatMap ('_' :: ·) ++
      ".c".toList) = (ps.map short).flatMap ('_' :: ·) ++ ".c".toList := by
    intro ps
    induction ps with
    | nil => decide +kernel
    | cons p ps ih =>
      rw [List.map_cons, List.flatMap_cons, List.append_assoc, shortFilename_part, ih]
      simp
  obtain ⟨-, hfamily, -⟩ := families_spelled.2 n.family (mem_families n.family)
  rw [Name.filename, joined, List.append_assoc, shortFilename_append hfamily, hparts,
    ← List.append_assoc]
  rfl

/-- **Different files have different names on the disk.** -/
theorem filename_unique {n n' : Name}
    (h : shortFilename n.filename = shortFilename n'.filename) : n = n' := by
  rw [shortFilename_filename, shortFilename_filename] at h
  have hphrase : ∀ n : Name, ∀ t ∈ n.family.name :: n.parts.map short,
      Phrase (· ∈ innerWords) (t.splitOn '_') := by
    intro n t ht
    rcases List.mem_cons.mp ht with rfl | ht
    · exact (families_spelled.2 _ (mem_families _)).1
    · obtain ⟨p, -, rfl⟩ := List.mem_map.mp ht
      exact (parts_spelled.2 p (mem_parts p)).1
  obtain ⟨hfamily, hparts⟩ := joined_unique (hphrase n) (hphrase n') (List.append_cancel_right h)
  have hinj : Function.Injective short := fun p q hpq =>
    List.inj_on_of_nodup_map parts_spelled.1 (mem_parts p) (mem_parts q) hpq
  cases n with
  | mk f ps =>
    cases n' with
    | mk f' ps' =>
      obtain rfl : f = f' :=
        List.inj_on_of_nodup_map families_spelled.1 (mem_families f) (mem_families f') hfamily
      obtain rfl : ps = ps' := hinj.list_map hparts
      rfl

/-- A suffix that starts with a separator is one of the last part. -/
theorem suffix_part {w x v : Text} (hv : '_' ∉ v) :
    '_' :: v <:+ x ++ '_' :: w ↔ '_' :: v <:+ '_' :: w := by
  refine ⟨fun h => ?_, fun h => h.trans (List.suffix_append x _)⟩
  rcases List.suffix_or_suffix_of_suffix h (List.suffix_append x ('_' :: w)) with h | h
  · exact h
  · rcases List.suffix_cons_iff.mp h with heq | hin
    · rw [heq]
    · exact absurd (hin.subset List.mem_cons_self) hv

/-- **The mark of a name is its last part.** -/
theorem suffix_nok_iff (n : Name) :
    "_nok.c".toList <:+ shortFilename n.filename ↔ n.parts.getLast? = some .nok := by
  have hmark : "_nok.c".toList = "_nok".toList ++ ".c".toList := by decide
  have hnok : "_nok".toList = '_' :: "nok".toList := by decide
  rw [shortFilename_filename, hmark, List.suffix_append_self_iff]
  rcases List.eq_nil_or_concat n.parts with hnil | ⟨ps, p, hconcat⟩
  · have hfamily := (families_spelled.2 n.family (mem_families n.family)).2.2.2.2
    simpa [hnil, joined] using hfamily
  · obtain ⟨-, -, -, -, hpart⟩ := parts_spelled.2 p (mem_parts p)
    have hjoined : joined '_' n.family.name (n.parts.map short) =
        joined '_' n.family.name (ps.map short) ++ '_' :: short p := by
      simp [joined, hconcat]
    rw [hjoined, hnok, suffix_part (by decide), ← hnok, hpart, hconcat]
    simp

/-- The extension is at the end only. -/
theorem plain_filename (n : Name) : ∃ stem, shortFilename n.filename = stem ++ ".c".toList ∧
    '.' ∉ stem ∧ '/' ∉ stem := by
  refine ⟨_, shortFilename_filename n, ?_⟩
  obtain ⟨-, -, hdot, hslash, -⟩ := families_spelled.2 n.family (mem_families n.family)
  have hparts : ∀ p : Part, '.' ∉ '_' :: short p ∧ '/' ∉ '_' :: short p := by
    intro p
    obtain ⟨-, -, hdot, hslash, -⟩ := parts_spelled.2 p (mem_parts p)
    simp [hdot, hslash]
  simp only [joined, List.mem_append, List.mem_flatMap, List.mem_map, not_or, not_exists, not_and]
  refine ⟨⟨hdot, ?_⟩, hslash, ?_⟩
  · rintro _ ⟨p, -, rfl⟩
    exact (hparts p).1
  · rintro _ ⟨p, -, rfl⟩
    exact (hparts p).2

/-! ## The directory -/

/-- What is known of a file: the command of its template, and the outcome. -/
structure Contents where
  np : Nat
  outcome : Announced

/-- The calls of `make_file` by a generator. -/
def calls (T : Primitives) (g : Generator) : List (Call Text Contents) :=
  (g.codes T).map fun x => ⟨shortFilename x.filename.filename, ⟨g.np, x.replace⟩⟩

/-- `cmd_gencodes`, which starts from an empty directory. -/
def cmdGencodes (T : Primitives) (generators : List Generator) : Text → Option Contents :=
  directory (generators.flatMap (calls T))

section

variable {φ π : Type} [DecidableEq φ]

/-- The files that `make_file` warns about: they are there already. -/
def overwritten : List φ → List (Call φ π) → List φ
  | _, [] => []
  | present, call :: calls =>
    (if call.filename ∈ present then [call.filename] else []) ++
      overwritten (call.filename :: present) calls

theorem overwritten_eq_nil {present : List φ} {calls : List (Call φ π)}
    (h : (present ++ calls.map Call.filename).Nodup) : overwritten present calls = [] := by
  induction calls generalizing present with
  | nil => rfl
  | cons call calls ih =>
    rw [List.map_cons] at h
    have hperm : (present ++ call.filename :: calls.map Call.filename).Perm
        (call.filename :: present ++ calls.map Call.filename) := List.perm_middle
    have hnodup := hperm.nodup_iff.mp h
    have hnew : call.filename ∉ present := fun hmem =>
      (List.nodup_cons.mp hnodup).1 (List.mem_append_left _ hmem)
    rw [overwritten, if_neg hnew, ih hnodup]
    rfl

/-- **Files that are written once** are there in the end. -/
theorem directory_eq_some_iff {calls : List (Call φ π)} (h : (calls.map Call.filename).Nodup)
    (f : φ) (p : π) : directory calls f = some p ↔ ⟨f, p⟩ ∈ calls := by
  induction calls using List.reverseRecOn with
  | nil => simp [directory]
  | append_singleton calls call ih =>
    rw [List.map_append] at h
    obtain ⟨hcalls, -, hnew⟩ := List.nodup_append.mp h
    rw [directory_concat, List.mem_append, List.mem_singleton]
    by_cases hf : f = call.filename
    · subst hf
      have hnot : (⟨call.filename, p⟩ : Call φ π) ∉ calls := fun hmem =>
        hnew _ (List.mem_map_of_mem hmem) call.filename (List.mem_singleton.mpr rfl) rfl
      rw [Function.update_self, Option.some_inj]
      constructor
      · rintro rfl
        exact Or.inr rfl
      · exact fun hor => (congrArg Call.replace (hor.resolve_left hnot)).symm
    · rw [Function.update_of_ne hf, ih hcalls]
      refine (or_iff_left fun heq => hf ?_).symm
      exact congrArg Call.filename heq

theorem directory_isSome_iff {calls : List (Call φ π)} (h : (calls.map Call.filename).Nodup)
    (f : φ) : (directory calls f).isSome = true ↔ f ∈ calls.map Call.filename := by
  simp only [Option.isSome_iff_exists, directory_eq_some_iff h, List.mem_map]
  constructor
  · rintro ⟨p, hcall⟩
    exact ⟨_, hcall, rfl⟩
  · rintro ⟨⟨f, p⟩, hcall, rfl⟩
    exact ⟨p, hcall⟩

end

section

variable {T : Primitives} (hT : T.Separate) {generators : List Generator}

include hT

theorem calls_nodup (h : generators.Nodup) :
    ((generators.flatMap (calls T)).map Call.filename).Nodup := by
  have hmap : (generators.flatMap (calls T)).map Call.filename =
      (names (generators.flatMap (·.codes T))).map fun n => shortFilename n.filename := by
    simp [calls, names, List.map_flatMap, Function.comp_def]
  rw [hmap]
  exact (catalogue_nodup hT h).map fun n n' => filename_unique

theorem cmdGencodes_eq_some_iff (h : generators.Perm Generator.all) (f : Text) (c : Contents) :
    cmdGencodes T generators f = some c ↔ ∃ g : Generator, ∃ x ∈ g.codes T,
      f = shortFilename x.filename.filename ∧ c = ⟨g.np, x.replace⟩ := by
  have hnodup : generators.Nodup := h.nodup_iff.mpr (by decide)
  have hmem : ∀ g, g ∈ generators := fun g => h.mem_iff.mpr (Generator.mem_all g)
  rw [cmdGencodes, directory_eq_some_iff (calls_nodup hT hnodup)]
  simp only [calls, List.mem_flatMap, List.mem_map, hmem, true_and, Call.mk.injEq]
  constructor
  · rintro ⟨g, x, hx, rfl, rfl⟩
    exact ⟨g, x, hx, rfl, rfl⟩
  · rintro ⟨g, x, hx, rfl, rfl⟩
    exact ⟨g, x, hx, rfl, rfl⟩

/-- **Every file is kept, in whatever order the generators are run**: `make_file` never warns
that it overwrites one, and the name tells whether an error is expected. -/
theorem gencodes_kept (h : generators.Perm Generator.all) :
    overwritten [] (generators.flatMap (calls T)) = [] ∧
    (∀ f c, cmdGencodes T generators f = some c ↔ ∃ g : Generator, ∃ x ∈ g.codes T,
      f = shortFilename x.filename.filename ∧ c = ⟨g.np, x.replace⟩) ∧
    ∀ f c, cmdGencodes T generators f = some c →
      (c.outcome.expect = .ERROR ↔ "_nok.c".toList <:+ f) := by
  have hnodup : generators.Nodup := h.nodup_iff.mpr (by decide)
  refine ⟨overwritten_eq_nil (calls_nodup hT hnodup), cmdGencodes_eq_some_iff hT h, ?_⟩
  intro f c hf
  obtain ⟨g, x, hx, rfl, rfl⟩ := (cmdGencodes_eq_some_iff hT h f c).mp hf
  rw [suffix_nok_iff]
  exact codes_marked T g x hx

end

/-- The tables as they stand, the generators in the reverse order. -/
theorem gencodes_kept_reverse :
    overwritten [] (Generator.all.reverse.flatMap (calls primitives)) = [] ∧
    (∀ f c, cmdGencodes primitives Generator.all.reverse f = some c ↔
      ∃ g : Generator, ∃ x ∈ g.codes primitives,
        f = shortFilename x.filename.filename ∧ c = ⟨g.np, x.replace⟩) ∧
    ∀ f c, cmdGencodes primitives Generator.all.reverse f = some c →
      (c.outcome.expect = .ERROR ↔ "_nok.c".toList <:+ f) :=
  gencodes_kept primitives_separate Generator.all.reverse_perm

/-! ## Reading it back -/

theorem noUnderscore_command (n : Nat) :
    ∀ c ∈ "mpirun -np ".toList ++ natText n ++ " $\x7bEXE\x7d".toList,
      c ≠ '_' ∧ c ≠ '\n' ∧ c ≠ '\r' := by
  have hends : ∀ c ∈ "mpirun -np ".toList ++ " $\x7bEXE\x7d".toList,
      c ≠ '_' ∧ c ≠ '\n' ∧ c ≠ '\r' := by decide +kernel
  have hdigit : ∀ c : Char, c.isDigit = true → c ≠ '_' ∧ c ≠ '\n' ∧ c ≠ '\r' := by
    rintro c hc
    refine ⟨?_, ?_, ?_⟩ <;> rintro rfl <;> exact absurd hc (by decide)
  intro c hc
  simp only [List.mem_append] at hc hends
  rcases hc with (hc | hc) | hc
  · exact hends c (Or.inl hc)
  · exact hdigit c (natText_digits n c hc)
  · exact hends c (Or.inr hc)

/-- `mpirun -np {np} ${EXE}` -/
def command (np : Nat) : PlainText where
  text := "mpirun -np ".toList ++ natText np ++ " $\x7bEXE\x7d".toList
  oneLine := fun c hc => (noUnderscore_command np c hc).2
  noBegin := (not_infix_of_no_underscore fun h => (noUnderscore_command np _ h).1 rfl).1
  noEnd := (not_infix_of_no_underscore fun h => (noUnderscore_command np _ h).1 rfl).2

theorem command_names (np : Nat) : Reporting.NamesProcesses (command np).text := by
  have hne : natText np ≠ [] := by
    rw [natText_eq]
    exact Nat.toDigits_ne_nil
  obtain ⟨c, ds, hc⟩ := List.exists_cons_of_ne_nil hne
  have hdigit : c.isDigit = true := natText_digits np c (hc ▸ List.mem_cons_self)
  have hrange : '0' ≤ c ∧ c ≤ '9' := by
    simpa [Char.isDigit, Char.le_def] using hdigit
  have hstart : "mpirun -np ".toList = "mpirun ".toList ++ "-np ".toList := by decide +kernel
  have htext : (command np).text =
      "mpirun ".toList ++ ("-np ".toList ++ [c]) ++ (ds ++ " $\x7bEXE\x7d".toList) := by
    have hcommand : (command np).text =
        "mpirun -np ".toList ++ natText np ++ " $\x7bEXE\x7d".toList := rfl
    rw [hcommand, hstart, hc]
    simp only [List.append_assoc, List.cons_append, List.nil_append]
  rw [htext]
  exact ⟨c, hrange.1, hrange.2, List.infix_append ..⟩

/-- The test that a file announces. -/
def announced (d : Directory) (name : Text) (c : Contents) : Test :=
  ⟨d.filename name, 0, (command c.np).text, c.outcome.expect, c.outcome.detail⟩

/-- The directory holds what the generators write. That each file has the header of its template,
with its own entries filled in and no other marker before or behind it, is taken for granted. -/
structure Holds (files : Text → Option Contents) (d : Directory) (text : Text → Text) : Prop where
  names : ∀ name, name ∈ d.names ↔ (files name).isSome = true
  filled : ∀ name c, files name = some c → ∃ before after notes,
    text (d.filename name) = headerFile before after [⟨command c.np, c.outcome, notes⟩]

/-- **Every batch can be read.** -/
theorem readTodo_holds {files : Text → Option Contents} {d : Directory} {text : Text → Text}
    (h : Holds files d text) {ns : List Text} (hns : ∀ name ∈ ns, name ∈ d.names)
    (todo : List Test) :
    readTodo text todo (ns.map d.filename) =
      .ok (todo ++ ns.filterMap fun name => (files name).map (announced d name)) := by
  induction ns generalizing todo with
  | nil => simp [readTodo]
  | cons name ns ih =>
    obtain ⟨hname, hns⟩ := List.forall_mem_cons.mp hns
    obtain ⟨c, hc⟩ := Option.isSome_iff_exists.mp ((h.names name).mp hname)
    obtain ⟨before, after, notes, htext⟩ := h.filled name c hc
    rw [List.map_cons, readTodo, htext, Announcements.parseOneCode_oneTest]
    simp only [ih hns, List.filterMap_cons, hc, Option.map_some, List.append_assoc]
    rfl

section

variable {T : Primitives} (hT : T.Separate) {generators : List Generator}
  (hgenerators : generators.Perm Generator.all) {d : Directory} {text : Text → Text}
  (hd : Holds (cmdGencodes T generators) d text)

include hT hgenerators hd

theorem plain_holds : Campaign.Plain d := by
  intro name hname
  obtain ⟨c, hc⟩ := Option.isSome_iff_exists.mp ((hd.names name).mp hname)
  obtain ⟨g, x, -, rfl, -⟩ := (cmdGencodes_eq_some_iff hT hgenerators name c).mp hc
  obtain ⟨stem, hstem, hdot, -⟩ := plain_filename x.filename
  exact ⟨stem, hstem, fun hin => hdot (hin.subset (by decide))⟩

/-- **What the runners find**: every batch of the directory, however it is listed, is read without
an error and has the tests that the generators announce. They have different keys, name their
number of processes, and are expected to be correct iff they are labelled so. -/
theorem gencodes_read {pos runners : Nat} (hpos : 0 < pos) (hle : pos ≤ runners) :
    ∃ todo, extractAllTodo text d.filenames (batchArgument pos runners) = .ok todo ∧
      (todo = (selected d.names pos runners).filterMap fun name =>
        (cmdGencodes T generators name).map (announced d name)) ∧
      KeysDistinct runKey todo ∧
      ∀ t ∈ todo, Reporting.NamesProcesses t.cmd ∧ (t.expect = .OK ↔ t.detail = .OK) := by
  have hbatch := readBatch_batchArgument hpos hle
  have hread : extractAllTodo text d.filenames (batchArgument pos runners) =
      .ok ((selected d.names pos runners).filterMap fun name =>
        (cmdGencodes T generators name).map (announced d name)) := by
    rw [extractAllTodo_eq text _ hbatch, Directory.filenames, selected_map]
    exact readTodo_holds hd (selected_sublist d.names hpos runners).subset []
  refine ⟨_, hread, rfl, ?_, fun t ht => ?_⟩
  · rw [runKey_eq_testID]
    exact keys_distinct_of_plain hread (plain_holds hT hgenerators hd)
  · obtain ⟨name, -, ht⟩ := List.mem_filterMap.mp ht
    obtain ⟨c, -, rfl⟩ := Option.map_eq_some_iff.mp ht
    refine ⟨command_names c.np, ?_⟩
    show c.outcome.expect = .OK ↔ c.outcome.detail = .OK
    cases c.outcome with
    | ok => exact iff_of_true rfl rfl
    | error detail h => exact iff_of_false (show Expect.ERROR ≠ .OK by decide) h

end

section

variable {T : Primitives} (hT : T.Separate)

/-- The directory that is filled in the order of the catalogue. -/
def gencodes : Directory where
  path := "gencodes".toList
  names := (Generator.all.flatMap (calls T)).map Call.filename
  nodup := calls_nodup hT (by decide)
  named := by
    intro name hname
    obtain ⟨call, hcall, rfl⟩ := List.mem_map.mp hname
    obtain ⟨g, -, hcall⟩ := List.mem_flatMap.mp hcall
    obtain ⟨x, -, rfl⟩ := List.mem_map.mp hcall
    obtain ⟨stem, hstem, -, hslash⟩ := plain_filename x.filename
    exact ⟨by simp [hstem, hslash], ⟨stem, hstem.symm⟩⟩

/-- With headers only. -/
def headers (T : Primitives) (path : Text) : Text :=
  match cmdGencodes T Generator.all (basename path) with
  | some c => headerFile [] [] [⟨command c.np, c.outcome, []⟩]
  | none => []

theorem gencodes_holds : Holds (cmdGencodes T Generator.all) (gencodes hT) (headers T) := by
  have hnames : ∀ name, name ∈ (gencodes hT).names ↔
      (cmdGencodes T Generator.all name).isSome = true :=
    fun name => (directory_isSome_iff (calls_nodup hT (by decide)) name).symm
  refine ⟨hnames, fun name c hc => ⟨[], [], [], ?_⟩⟩
  have hname : name ∈ (gencodes hT).names := (hnames name).mpr (by rw [hc]; rfl)
  rw [headers, basename_filename (gencodes hT) ((gencodes hT).named name hname).1, hc]

end

/-- Two of three runners. -/
theorem gencodes_read_second :
    ∃ todo, extractAllTodo (headers primitives) (gencodes primitives_separate).filenames
        (batchArgument 2 3) = .ok todo ∧
      (todo = (selected (gencodes primitives_separate).names 2 3).filterMap fun name =>
        (cmdGencodes primitives Generator.all name).map
          (announced (gencodes primitives_separate) name)) ∧
      KeysDistinct runKey todo ∧
      ∀ t ∈ todo, Reporting.NamesProcesses t.cmd ∧ (t.expect = .OK ↔ t.detail = .OK) :=
  gencodes_read primitives_separate (List.Perm.refl _) (gencodes_holds primitives_separate)
    (by decide) (by decide)

end MpiBugs.Gencodes
