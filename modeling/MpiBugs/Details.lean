import MpiBugs.Regex
import Mathlib.Data.List.Nodup

/-!
# Error labels

The detailed outcomes a test header may announce (`possible_details`), the
category each of them belongs to, and the names and scopes of the categories
as the reports display them; the tests a header announces. The scripts'
dictionaries are functions on the enumerations of their keys, so every lookup
the scripts make succeeds.
-/

namespace MpiBugs

/-- The keys of `possible_details`. -/
inductive Detail
  | InvalidCommunicator | InvalidDatatype | InvalidRoot | InvalidTag | InvalidWindow
  | InvalidOperator | InvalidOtherArg | ActualDatatype | InvalidSrcDest
  | CommunicatorLeak | DatatypeLeak | GroupLeak | OperatorLeak | TypeLeak | RequestLeak
  | MissingStart | MissingWait
  | LocalConcurrency
  | CallMatching
  | CommunicatorMatching | DatatypeMatching | OperatorMatching | RootMatching | TagMatching
  | MessageRace
  | GlobalConcurrency
  | OK
  deriving DecidableEq, Repr

/-- The values of `possible_details`, which are also the keys of `error_scope`. -/
inductive Category
  | AInvalidParam | BResLeak | BReqLifecycle | BLocalConcurrency | CMatch | DRace | DMatch
  | DGlobalConcurrency | FOK
  deriving DecidableEq, Repr

namespace Detail

def all : List Detail :=
  [InvalidCommunicator, InvalidDatatype, InvalidRoot, InvalidTag, InvalidWindow,
   InvalidOperator, InvalidOtherArg, ActualDatatype, InvalidSrcDest,
   CommunicatorLeak, DatatypeLeak, GroupLeak, OperatorLeak, TypeLeak, RequestLeak,
   MissingStart, MissingWait, LocalConcurrency, CallMatching,
   CommunicatorMatching, DatatypeMatching, OperatorMatching, RootMatching, TagMatching,
   MessageRace, GlobalConcurrency, OK]

def key : Detail → Text
  | InvalidCommunicator => "InvalidCommunicator".toList
  | InvalidDatatype => "InvalidDatatype".toList
  | InvalidRoot => "InvalidRoot".toList
  | InvalidTag => "InvalidTag".toList
  | InvalidWindow => "InvalidWindow".toList
  | InvalidOperator => "InvalidOperator".toList
  | InvalidOtherArg => "InvalidOtherArg".toList
  | ActualDatatype => "ActualDatatype".toList
  | InvalidSrcDest => "InvalidSrcDest".toList
  | CommunicatorLeak => "CommunicatorLeak".toList
  | DatatypeLeak => "DatatypeLeak".toList
  | GroupLeak => "GroupLeak".toList
  | OperatorLeak => "OperatorLeak".toList
  | TypeLeak => "TypeLeak".toList
  | RequestLeak => "RequestLeak".toList
  | MissingStart => "MissingStart".toList
  | MissingWait => "MissingWait".toList
  | LocalConcurrency => "LocalConcurrency".toList
  | CallMatching => "CallMatching".toList
  | CommunicatorMatching => "CommunicatorMatching".toList
  | DatatypeMatching => "DatatypeMatching".toList
  | OperatorMatching => "OperatorMatching".toList
  | RootMatching => "RootMatching".toList
  | TagMatching => "TagMatching".toList
  | MessageRace => "MessageRace".toList
  | GlobalConcurrency => "GlobalConcurrency".toList
  | OK => "OK".toList

/-- `detail in possible_details`, giving the key found. -/
def ofKey (t : Text) : Option Detail := all.find? (fun d => d.key == t)

theorem mem_all (d : Detail) : d ∈ all := by cases d <;> decide

theorem keys_nodup : (all.map key).Nodup := by decide

theorem key_injective {d e : Detail} (h : d.key = e.key) : d = e :=
  List.inj_on_of_nodup_map keys_nodup (mem_all d) (mem_all e) h

/-- **Looking a key up finds the label it names.** -/
theorem ofKey_eq_some_iff (t : Text) (d : Detail) : ofKey t = some d ↔ t = d.key := by
  constructor
  · intro h
    unfold ofKey at h
    have hd := List.find?_some h
    exact (eq_of_beq hd).symm
  · rintro rfl
    unfold ofKey
    cases h : all.find? (fun e => e.key == d.key) with
    | none => simpa using List.find?_eq_none.mp h d (mem_all d)
    | some e =>
      have he := List.find?_some h
      rw [key_injective (eq_of_beq he)]

@[simp] theorem ofKey_key (d : Detail) : ofKey d.key = some d := (ofKey_eq_some_iff _ _).mpr rfl

private theorem all_keys_alpha :
    ∀ d ∈ all, d.key ≠ [] ∧ ∀ c ∈ d.key, c.isAlpha = true := by decide

theorem key_ne_nil (d : Detail) : d.key ≠ [] := (all_keys_alpha d (mem_all d)).1

theorem key_alpha (d : Detail) {c : Char} (hc : c ∈ d.key) : c.isAlpha = true :=
  (all_keys_alpha d (mem_all d)).2 c hc

/-- `possible_details`, which both `MBI.py` and `gen_latex.py` carry. -/
def category : Detail → Category
  | InvalidCommunicator | InvalidDatatype | InvalidRoot | InvalidTag | InvalidWindow
  | InvalidOperator | InvalidOtherArg | ActualDatatype | InvalidSrcDest => .AInvalidParam
  | CommunicatorLeak | DatatypeLeak | GroupLeak | OperatorLeak | TypeLeak
  | RequestLeak => .BResLeak
  | MissingStart | MissingWait => .BReqLifecycle
  | LocalConcurrency => .BLocalConcurrency
  | CallMatching => .DMatch
  | CommunicatorMatching | DatatypeMatching | OperatorMatching | RootMatching
  | TagMatching => .CMatch
  | MessageRace => .DRace
  | GlobalConcurrency => .DGlobalConcurrency
  | OK => .FOK

@[simp] theorem category_eq_FOK_iff (d : Detail) : d.category = .FOK ↔ d = OK := by
  cases d <;> simp [category]

end Detail

namespace Category

def key : Category → Text
  | AInvalidParam => "AInvalidParam".toList
  | BResLeak => "BResLeak".toList
  | BReqLifecycle => "BReqLifecycle".toList
  | BLocalConcurrency => "BLocalConcurrency".toList
  | CMatch => "CMatch".toList
  | DRace => "DRace".toList
  | DMatch => "DMatch".toList
  | DGlobalConcurrency => "DGlobalConcurrency".toList
  | FOK => "FOK".toList

def all : List Category :=
  [AInvalidParam, BResLeak, BReqLifecycle, BLocalConcurrency, CMatch, DRace, DMatch,
   DGlobalConcurrency, FOK]

theorem mem_all (c : Category) : c ∈ all := by cases c <;> decide

theorem key_injective {c d : Category} (h : c.key = d.key) : c = d := by
  have hkeys : (all.map key).Nodup := by decide
  exact List.inj_on_of_nodup_map hkeys (mem_all c) (mem_all d) h

/-- `error_scope` -/
def errorScope : Category → Text
  | AInvalidParam => "single call".toList
  | BResLeak | BReqLifecycle | BLocalConcurrency => "single process".toList
  | CMatch | DRace | DMatch | DGlobalConcurrency => "multi-processes".toList
  | FOK => "correct executions".toList

/-- `displayed_name` of `MBI.py`, on categories -/
def displayedName : Category → Text
  | AInvalidParam => "Invalid parameter".toList
  | BResLeak => "Resource leak".toList
  | BReqLifecycle => "Request lifecycle".toList
  | BLocalConcurrency => "Local concurrency".toList
  | CMatch => "Parameter matching".toList
  | DMatch => "Call ordering".toList
  | DRace => "Message race".toList
  | DGlobalConcurrency => "Global concurrency".toList
  | FOK => "Correct execution".toList

end Category

/-! ## Tests -/

/-- The `expect` field of a test. -/
inductive Expect
  | OK | ERROR
  deriving DecidableEq, Repr

/-- One entry of the `todo` list. -/
structure Test where
  filename : Text
  id : Nat
  cmd : Text
  expect : Expect
  detail : Detail
  deriving DecidableEq, Repr

end MpiBugs
