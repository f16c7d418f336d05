import MpiBugs.RunCmd

/-!
# The verdicts of the tools

`Tool.parse` of the eleven wrappers.  Each reads the files of a test, wherever
they are, and goes through its own cascade of patterns; the first that is found
gives the verdict.
-/

namespace MpiBugs.Wrappers

open Regex FileStore TextFile Header RunCmd

/-! ## Cascades -/

/-- The text a branch returns: its own, or a group of the match. -/
inductive Verdict
  | is (text : Text)
  | group (n : Nat)
  deriving DecidableEq, Repr

/-- One branch: patterns, any of which may be found, in the output or in the
tool's report. -/
structure Rule where
  inReport : Bool
  patterns : List Regex
  verdict : Verdict

def Rule.hit (r : Rule) (output report : Text) : Option Match :=
  r.patterns.findSome? (fun p => search p (if r.inReport then report else output))

def Verdict.text (m : Match) : Verdict → Text
  | is t => t
  | group n => (m.group n).getD []

/-- The first branch that is taken. -/
def cascade (output report : Text) : List Rule → Option Text
  | [] => none
  | r :: rs =>
    match r.hit output report with
    | some m => some (r.verdict.text m)
    | none => cascade output report rs

def timeout : Text := "timeout".toList
def failure : Text := "failure".toList
def unimplemented : Text := "UNIMPLEMENTED".toList
def other : Text := "other".toList

/-- `if re.search(pattern, output): return verdict` -/
def found (pattern : Regex) (verdict : Text) : Rule := ⟨false, [pattern], .is verdict⟩

/-- The same for a plain text. -/
def prints (text verdict : String) : Rule := found (chars text) verdict.toList

/-- The same in the report. -/
def reports (text verdict : String) : Rule := ⟨true, [chars text], .is verdict.toList⟩

/-! ## Patterns that several wrappers share -/

/-- `Compilation of .*? raised an error \(retcode: ` -/
def compilePattern : Regex :=
  chars "Compilation of " ++ (manyLazy dot ++ chars " raised an error (retcode: ")

def raceMark : Text := "MBI_MSG_RACE".toList
def killedMark : Text := "Command killed by signal 15, elapsed time: 300".toList

def compileRule : Rule := found compilePattern unimplemented
def raceRule : Rule := found (lit raceMark) raceMark
def killedRule : Rule := found (lit killedMark) timeout

def asciiDigit : Regex := cls (fun c => '0' ≤ c && c ≤ '9')

/-- What Hermes has inherited from ISP. -/
def ispErrors : List Rule :=
  [found (chars "Rank " ++ (asciiDigit ++
      chars ": WARNING: Waited on non-existant request in")) "mpierr".toList,
   found (chars "Rank " ++ (asciiDigit ++ (chars ": Invalid rank in MPI_" ++
      (manyLazy dot ++ chars " at ")))) "mpierr".toList,
   prints "Fatal error in PMPI" "mpierr",
   prints "Fatal error in MPI" "mpierr"]

/-- The end of the cascades of SMPI and SMPI+VG. -/
def smpiRules : List Rule :=
  [prints "MC is currently not supported here" "failure",
   raceRule,
   prints "DEADLOCK DETECTED" "deadlock",
   prints "returned MPI_ERR" "mpierr",
   prints "Not yet implemented" "UNIMPLEMENTED",
   prints "CRASH IN THE PROGRAM" "segfault",
   prints "Probable memory leaks in your code: SMPI detected" "resleak",
   prints "No property violation found" "OK",
   prints "Command return code: 0," "OK"]

/-! ## The wrappers -/

inductive Tool
  | aislinn | civl | hermes | isp | itac | mpisv | must | parcoach | simgrid | smpi | smpivg
  deriving DecidableEq, Repr

/-- What Aislinn looks for before it looks for a compilation failure. -/
def aislinnDiagnostics : List (Text × Text) :=
  [(raceMark, raceMark),
   ("No errors found".toList, "OK".toList),
   ("INFO: Found error 'Deadlock'".toList, "deadlock".toList),
   ("INFO: Found error 'Pending message'".toList, "Pending message".toList),
   ("INFO: Found error 'Invalid color'".toList, "Invalid color".toList),
   ("INFO: Found error 'Invalid communicator'".toList, "Invalid communicator".toList),
   ("INFO: Found error 'Invalid count'".toList, "Invalid count".toList),
   ("INFO: Found error 'Invalid datatype'".toList, "Invalid datatype".toList),
   ("INFO: Found error 'Invalid group'".toList, "Invalid group".toList),
   ("INFO: Found error 'Invalid operation'".toList, "Invalid operation".toList),
   ("INFO: Found error 'Invalid rank'".toList, "Invalid rank".toList),
   ("INFO: Found error 'Invalid request'".toList, "Invalid request".toList),
   ("INFO: Found error 'Invalid tag'".toList, "Invalid tag".toList),
   ("INFO: Found error 'Invalid write'".toList, "concurrency error".toList),
   ("INFO: Found error 'Request is not persistent'".toList, "Request is not persistent".toList),
   ("INFO: Found error 'Pending request'".toList, "Pending request".toList),
   ("INFO: Found error 'Collective operation: root mismatch'".toList,
     "Collective operation: root mismatch".toList),
   ("INFO: Found error 'Collective operation mismatch'".toList,
     "Collective operation mismatch".toList),
   ("INFO: Found error 'Mixing blocking and nonblocking collective operation'".toList,
     "Mixing blocking and nonblocking collective operation".toList)]

def unknownPattern : Regex := chars "Unk" ++ (opt (chars "n") ++ chars "own function call")

def aislinnRules : List Rule :=
  aislinnDiagnostics.map (fun d => found (lit d.1) d.2) ++
  [⟨false, [unknownPattern, compilePattern], .is unimplemented⟩,
   prints "Traceback (most recent call last):" "failure"]

def civlRules : List Rule :=
  [compileRule,
   prints "cannot be invoked without MPI_Init() being called before" "mpierr",
   prints "DEADLOCK" "deadlock",
   raceRule,
   found (chars "reaches an MPI collective routine " ++ (manyLazy dot ++
     chars " while at least one of others are collectively reaching MPI_"))
     "collective mismatch".toList,
   prints "which has an inconsistent datatype specification with at least one of others"
     "datatype mismatch",
   prints "of MPI routines is not consistent with the specified MPI_Datatype" "datatype mismatch",
   prints "which has a different root with at least one of others" "root mismatch",
   prints "has a different MPI_Op" "various",
   prints "MPI message leak" "resleak",
   prints "MEMORY_LEAK" "resleak",
   prints "The standard properties hold for all executions" "OK",
   prints "A CIVL internal error has occurred" "failure",
   ⟨false, [chars "kind: UNDEFINED_VALUE, certainty: MAYBE",
     chars "kind: UNDEFINED_VALUE, certainty: PROVEABLE"], .is "UNDEFINED_VALUE".toList⟩,
   ⟨false, [chars "kind: DEREFERENCE, certainty: MAYBE",
     chars "kind: DEREFERENCE, certainty: PROVEABLE"], .is "DEREFERENCE".toList⟩,
   ⟨false, [chars "kind: MPI_ERROR, certainty: MAYBE",
     chars "kind: MPI_ERROR, certainty: PROVEABLE"], .is "MPI_ERROR".toList⟩,
   prints "This feature is not yet implemented" "UNIMPLEMENTED",
   found (chars "doesn" ++ (dot ++ chars "t have a definition")) unimplemented,
   prints "Undeclared identifier" "UNIMPLEMENTED",
   -- an error that CIVL reports when a communicator is tested for inequality
   prints "Error: Incompatible types for operator NEQ:\nstruct MPI_Comm\nstruct MPI_Comm\nat"
     "failure",
   found (chars "Exception in thread \"main\" java" ++ (dot ++ (chars "lang" ++ (dot ++
     chars "ArrayIndexOutOfBoundsException")))) failure]

def hermesRules : List Rule :=
  [raceRule, prints "Detected a DEADLOCK in interleaving" "deadlock"] ++ ispErrors ++
  [found (chars "isp" ++ (dot ++ (chars "exe: ServerSocket" ++ (dot ++
     (chars "cpp:220: int ServerSocket::Receive" ++ (manyLazy dot ++
       (chars ": Assertion `iter != _cli_socks" ++ (dot ++ chars "end")))))))) failure,
   killedRule]

def ispRules : List Rule :=
  [compileRule,
   prints "ISP detected deadlock!!!" "deadlock",
   prints "Detected a DEADLOCK in interleaving" "deadlock",
   raceRule,
   prints "resource leaks detected" "resleak",
   prints "Attempting to use an MPI routine after finalizing MPI" "mpierr"] ++ ispErrors ++
  [prints "ISP detected no deadlocks" "OK",
   killedRule]

/-- `KIND: (.*?): (fatal )?kind`, whose first group is the verdict -/
def itacPattern (upper lower : String) : Regex :=
  chars upper ++ (group 1 (manyLazy dot) ++ (chars ": " ++
    (opt (group 2 (chars "fatal ")) ++ chars lower)))

def itacRules : List Rule :=
  [compileRule,
   raceRule,
   ⟨false, [itacPattern "ERROR: " "error"], .group 1⟩,
   ⟨false, [itacPattern "WARNING: " "warning"], .group 1⟩,
   prints "Command return code: 0," "OK",
   killedRule]

def mpisvRules : List Rule :=
  [⟨false, [compilePattern, chars "failed external call"], .is unimplemented⟩,
   prints "found deadlock" "deadlock",
   raceRule,
   found (chars "klee: " ++ (manyLazy dot ++ (chars " Assertion `" ++ (manyLazy dot ++
     (chars " failed" ++ dot))))) failure,
   reports "No Violation detected by MPI-SV" "OK"]

def mustRules : List Rule :=
  [reports "deadlock" "deadlock",
   reports "not freed" "resleak",
   reports "conflicting roots" "various",
   ⟨true, [chars "unknown datatype", chars "has to be a non-negative integer",
     chars "must use equal type signatures"], .is "conflicting roots".toList⟩,
   raceRule,
   compileRule,
   prints "caught MPI error" "mpierr",
   reports "Error" "mpierr",
   reports "MUST detected no MPI usage errors nor any suspicious behavior during this application run"
     "OK",
   prints "internal ABORT - process " "failure"]

def parcoachRules : List Rule :=
  [raceRule,
   compileRule,
   prints "0 warning(s) issued" "OK",
   prints "missing info for external function" "UNIMPLEMENTED"]

def simgridRules : List Rule :=
  [compileRule,
   raceRule,
   prints "MC is currently not supported here" "failure",
   prints "DEADLOCK DETECTED" "deadlock",
   prints "returned MPI_ERR" "mpierr",
   prints "Not yet implemented" "UNIMPLEMENTED",
   prints "CRASH IN THE PROGRAM" "failure",
   prints "Probable memory leaks in your code: SMPI detected" "resleak",
   prints "No property violation found" "OK"]

def Tool.rules : Tool → List Rule
  | aislinn => aislinnRules
  | civl => civlRules
  | hermes => hermesRules
  | isp => ispRules
  | itac => itacRules
  | mpisv => mpisvRules
  | must => mustRules
  | parcoach => parcoachRules
  | simgrid => simgridRules
  | smpi => compileRule :: smpiRules ++ [killedRule]
  | smpivg =>
    compileRule :: found (chars "ERROR SUMMARY: " ++ cls (· != '0')) failure :: smpiRules ++
      [killedRule]

/-! ## Reading the files -/

/-- What `parse` may look at: the files of `run_cmd`, and the tool's report. -/
inductive ResultFile
  | log (f : LogFile)
  | html
  | kleeInfo
  deriving DecidableEq, Repr

/-- The files of one test as seen from the current directory: here, or under
`logs/` and the name of the tool. -/
structure Workdir where
  here : ResultFile → Option Text
  logs : ResultFile → Option Text

def Workdir.file (w : Workdir) (f : ResultFile) : Option Text := (w.here f).or (w.logs f)

/-- The report without which a wrapper gives up. -/
def Tool.report : Tool → Option ResultFile
  | must => some .html
  | mpisv => some .kleeInfo
  | _ => none

/-- What is returned when no pattern is found. -/
def Tool.inconclusive : Tool → Text
  | parcoach => "deadlock".toList
  | _ => other

/-- `parse`.  All wrappers but MUST's look for the time-out file as well, but
what they then set is never read. -/
def Tool.parse (tool : Tool) (w : Workdir) : Text :=
  match w.file (.log .txt) with
  | none => failure
  | some txt =>
    let judge (report : Text) : Text :=
      match cascade (universalNewlines txt) (universalNewlines report) tool.rules with
      | some verdict => verdict
      | none =>
        if tool = .must ∧ (w.file (.log .timeout)).isSome then timeout else tool.inconclusive
    match tool.report with
    | none => judge []
    | some f =>
      match w.file f with
      | none => failure
      | some report => judge report

end MpiBugs.Wrappers
