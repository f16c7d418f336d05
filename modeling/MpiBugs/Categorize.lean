import MpiBugs.Batch
import MpiBugs.Expected
import MpiBugs.Wrappers

/-!
# The result of a tool on a test

`categorize` of `MBI.py`: the verdict of the tool compared with what the test
expects.

* `categorize_error_iff`: the only tests that cannot be categorized are those
  with an output but no elapsed time.
-/

namespace MpiBugs.Categorize

open Regex TextFile Header RunCmd Wrappers

/-- The names of the tools on the command line. -/
def toolname : Tool → Text
  | .aislinn => "aislinn".toList
  | .civl => "civl".toList
  | .hermes => "hermes".toList
  | .isp => "isp".toList
  | .itac => "itac".toList
  | .mpisv => "mpisv".toList
  | .must => "must".toList
  | .parcoach => "parcoach".toList
  | .simgrid => "simgrid".toList
  | .smpi => "smpi".toList
  | .smpivg => "smpivg".toList

/-- `displayed_name` of `MBI.py`, on tools -/
def displayedName : Tool → Text
  | .aislinn => "Aislinn".toList
  | .civl => "CIVL".toList
  | .hermes => "Hermes".toList
  | .isp => "ISP".toList
  | .itac => "ITAC".toList
  | .mpisv => "MPI-SV".toList
  | .must => "MUST".toList
  | .parcoach => "PARCOACH".toList
  | .simgrid => "Mc SimGrid".toList
  | .smpi => "SMPI".toList
  | .smpivg => "SMPI+VG".toList

inductive ResCategory
  | timeout | failure | unimplemented | other | TRUE_NEG | FALSE_POS | FALSE_NEG | TRUE_POS
  deriving DecidableEq, Repr

def ResCategory.key : ResCategory → Text
  | timeout => "timeout".toList
  | failure => "failure".toList
  | unimplemented => "unimplemented".toList
  | other => "other".toList
  | TRUE_NEG => "TRUE_NEG".toList
  | FALSE_POS => "FALSE_POS".toList
  | FALSE_NEG => "FALSE_NEG".toList
  | TRUE_POS => "TRUE_POS".toList

/-- The result category and its diagnostic, for a verdict and an expectation. -/
def judge (outcome elapsed : Text) (expected : Expect) : ResCategory × Text :=
  if outcome = Wrappers.timeout then
    (.timeout, "timeout after ".toList ++ elapsed ++ " sec".toList)
  else if outcome = Wrappers.failure then (.failure, "tool error, or test not run".toList)
  else if outcome = Wrappers.unimplemented then (.unimplemented, "coverage issue".toList)
  else if outcome = Wrappers.other then (.other, "inconclusive run".toList)
  else
    match expected with
    | .OK =>
      if outcome = "OK".toList then (.TRUE_NEG, "correctly reported no error".toList)
      else (.FALSE_POS, "reported an error in a correct code".toList)
    | .ERROR =>
      if outcome = "OK".toList then (.FALSE_NEG, "failed to detect an error".toList)
      else (.TRUE_POS, "correctly detected an error".toList)

/-- What `categorize` returns. -/
structure Categorized where
  resCategory : ResCategory
  elapsed : Text
  diagnostic : Text
  outcome : Text
  deriving DecidableEq, Repr

def missingElapsed (testID : Text) : Text :=
  "Invalid test result: ".toList ++ testID ++ ".txt exists but not ".toList ++ testID ++
    ".elapsed".toList

/-- `categorize` on the files of one test. -/
def categorize (tool : Tool) (files : Workdir) (testID : Text) (expected : Expect) :
    Except Text Categorized :=
  let outcome := tool.parse files
  let result (elapsed : Text) : Categorized :=
    let (category, diagnostic) := judge outcome elapsed expected
    ⟨category, elapsed, diagnostic, outcome⟩
  match files.file (.log .elapsed) with
  | some elapsed => .ok (result (universalNewlines elapsed))
  | none =>
    if outcome = Wrappers.failure then .ok (result "0".toList)
    else .error (missingElapsed testID)

/-- **Categorizing fails iff the elapsed time of an actual outcome is missing.** -/
theorem categorize_error_iff (tool : Tool) (files : Workdir) (testID : Text) (expected : Expect) :
    (∃ e, categorize tool files testID expected = .error e) ↔
      files.file (.log .elapsed) = none ∧ tool.parse files ≠ Wrappers.failure := by
  unfold categorize
  cases files.file (.log .elapsed) with
  | some elapsed => simp
  | none =>
    by_cases h : tool.parse files = Wrappers.failure
    · simp [h]
    · simp [h]

/-- The category of a result is that of its outcome. -/
theorem categorize_resCategory {tool : Tool} {w : Workdir} {testID : Text} {expected : Expect}
    {result : Categorized} (h : categorize tool w testID expected = .ok result) :
    ∃ elapsed, result.resCategory = (judge (tool.parse w) elapsed expected).1 := by
  unfold categorize at h
  cases hfile : w.file (.log .elapsed) with
  | some elapsed =>
    simp only [hfile] at h
    exact ⟨universalNewlines elapsed, by rw [← Except.ok.inj h]⟩
  | none =>
    simp only [hfile] at h
    by_cases hf : tool.parse w = Wrappers.failure
    · rw [if_pos hf] at h
      exact ⟨"0".toList, by rw [← Except.ok.inj h]⟩
    · rw [if_neg hf] at h
      cases h

/-! ## Numbers of seconds -/

/-- Decimal digits, with single underscores between them. -/
def digitpart : Regex :=
  cls Batch.isDigit ++ many (opt (lit ['_']) ++ cls Batch.isDigit)

def sign : Regex := opt (cls fun c => c == '+' || c == '-')

def exponent : Regex := cls (fun c => c == 'e' || c == 'E') ++ (sign ++ digitpart)

def floatnumber : Regex :=
  alt (digitpart ++ opt (lit ['.'] ++ opt digitpart)) (lit ['.'] ++ digitpart) ++ opt exponent

/-- `inf`, `infinity` and `nan`, in either case. -/
def special : Regex :=
  let word (w : String) : Regex := w.toList.foldr (fun c r => cls (·.toLower == c) ++ r) eps
  alt (word "inf") (alt (word "infinity") (word "nan"))

/-- Whether `float` accepts the text. -/
def readsFloat (t : Text) : Bool :=
  (run (sign ++ alt floatnumber special) ⟨Expected.strip t, []⟩).any (·.rest.isEmpty)

end MpiBugs.Categorize
