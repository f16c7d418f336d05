import MpiBugs.Generators
import Mathlib.Tactic.Ring

/-!
# Programs that leak resources

The loop of `ResleakGenerator.py`: three programs for each call that creates a
handle, put together from eight slots of text. A slot is a list of tokens, of
which some open or close a block; the program is what they parse to.

* `run_straight`, `run_multiple`: the programs;
* `innerLoop_spec`, `outerLoop_spec`: what the two loops create, free and access;
* `leaks_claimed`: each program leaks what it claims;
* `sound_iff`: only the program with several leaks stays in bounds.
-/

namespace MpiBugs.ResourceLeaks

/-! ## C programs with arrays of handles -/

/-- The arrays of handles. -/
inductive Handles
  | com | op | grp | type
  deriving DecidableEq, Repr

/-- Calls on the handle at index `j`, and on the group of all processes. -/
inductive Action
  /-- the tested call, which creates the handle -/
  | create (a : Handles)
  | free (a : Handles)
  /-- `if(a[j] != MPI_COMM_NULL) MPI_Comm_free(&a[j]);` -/
  | freeUnlessNull (a : Handles)
  /-- `MPI_Comm_group(MPI_COMM_WORLD, &a[j]);` before the tested call -/
  | group (a : Handles)
  /-- `a[j]` as an argument -/
  | read (a : Handles)
  | groupFree (a : Handles)
  | worldgroup
  | worldgroupFree
  deriving DecidableEq, Repr

inductive Token
  /-- `size=PARAM_PER_ITERATION;` -/
  | change_size
  /-- a declaration `a[size]` -/
  | declare (a : Handles)
  | act (a : Action)
  /-- `for (i = 0; i < ITERATIONS; i++) {` -/
  | for_i
  /-- `for (j = 0; j < PARAM_PER_ITERATION; j++) {` -/
  | for_j
  /-- `if (j < PARAM_PER_ITERATION - PARAM_LOST_PER_ITERATION) {` -/
  | if_kept
  /-- a closing brace -/
  | close
  deriving DecidableEq, Repr

inductive Code
  | skip
  | change_size
  | declare (a : Handles)
  | act (a : Action)
  | seq (c d : Code)
  | for_i (body : Code)
  | for_j (body : Code)
  | if_kept (body : Code)
  deriving DecidableEq, Repr

/-- The code before a block, and what opens the block. -/
abbrev Block := Code × (Code → Code)

/-- The code of the tokens, with the blocks that are open and the code since the
last one; `none` if the braces do not match. -/
def parseLoop : List Block → Code → List Token → Option Code
  | [], code, [] => some code
  | _ :: _, _, [] => none
  | blocks, code, .change_size :: ts => parseLoop blocks (.seq code .change_size) ts
  | blocks, code, .declare a :: ts => parseLoop blocks (.seq code (.declare a)) ts
  | blocks, code, .act a :: ts => parseLoop blocks (.seq code (.act a)) ts
  | blocks, code, .for_i :: ts => parseLoop ((code, .for_i) :: blocks) .skip ts
  | blocks, code, .for_j :: ts => parseLoop ((code, .for_j) :: blocks) .skip ts
  | blocks, code, .if_kept :: ts => parseLoop ((code, .if_kept) :: blocks) .skip ts
  | (before, block) :: blocks, code, .close :: ts => parseLoop blocks (.seq before (block code)) ts
  | [], _, .close :: _ => none

def parse (ts : List Token) : Option Code := parseLoop [] .skip ts

/-- The constants of the template. -/
structure Constants where
  iterations : Nat
  perIteration : Nat
  lostPerIteration : Nat
  iterations_pos : 1 ≤ iterations
  lost_pos : 1 ≤ lostPerIteration
  lost_le : lostPerIteration ≤ perIteration

/-- The variables of a process, the handles that are not null, and its history. -/
structure State where
  i : Int
  j : Int
  size : Nat
  /-- the lengths of the arrays that are declared -/
  length : Handles → Option Nat
  live : Handles → Int → Bool
  /-- the indices at which an array is accessed, with its length -/
  accesses : List (Int × Nat)
  /-- by the tested call, and of the handles it has created -/
  created : Nat
  freed : Nat
  /-- the groups made for the tested call that are not freed -/
  helpers : Int

/-- `int i=1, j=1, size=1;` -/
def State.start : State where
  i := 1
  j := 1
  size := 1
  length _ := none
  live _ _ := false
  accesses := []
  created := 0
  freed := 0
  helpers := 0

def State.access (s : State) (a : Handles) : State :=
  { s with accesses := s.accesses ++ [(s.j, (s.length a).getD 0)] }

def State.setLive (s : State) (a : Handles) (b : Bool) : State :=
  { s with live := Function.update s.live a (Function.update (s.live a) s.j b) }

def State.release (s : State) (a : Handles) : State :=
  { (s.access a).setLive a false with freed := s.freed + 1 }

def Action.exec (s : State) : Action → State
  | create a => { (s.access a).setLive a true with created := s.created + 1 }
  | free a => s.release a
  | freeUnlessNull a => if (s.access a).live a s.j then (s.access a).release a else s.access a
  | group a => { s.access a with helpers := s.helpers + 1 }
  | read a => s.access a
  | groupFree a => { s.access a with helpers := s.helpers - 1 }
  | worldgroup => { s with helpers := s.helpers + 1 }
  | worldgroupFree => { s with helpers := s.helpers - 1 }

def Code.exec (K : Constants) : Code → State → State
  | skip, s => s
  | change_size, s => { s with size := K.perIteration }
  | declare a, s => { s with length := Function.update s.length a (some s.size) }
  | act a, s => a.exec s
  | seq c d, s => d.exec K (c.exec K s)
  | for_i body, s =>
    { (List.range K.iterations).foldl (fun s (i : Nat) => body.exec K { s with i := i }) s with
      i := K.iterations }
  | for_j body, s =>
    { (List.range K.perIteration).foldl (fun s (j : Nat) => body.exec K { s with j := j }) s with
      j := K.perIteration }
  | if_kept body, s =>
    if s.j < (K.perIteration : Int) - K.lostPerIteration then body.exec K s else s

/-! ## The generator -/

/-- `tcoll` -/
inductive Tool
  | MPI_Comm_split | MPI_Op_create | MPI_Comm_group | MPI_Comm_dup | MPI_Type_contiguous
  | MPI_Comm_create | MPI_Group_excl
  deriving DecidableEq, Repr

namespace Tool

/-- `init`, `operation`, `fini` and `free` of the tables -/
def init : Tool → List Token
  | MPI_Comm_split => [.declare .com]
  | MPI_Op_create => [.declare .op]
  | MPI_Comm_group => [.declare .grp]
  | MPI_Comm_dup => [.declare .com]
  | MPI_Type_contiguous => [.declare .type]
  | MPI_Comm_create => [.declare .com, .declare .grp]
  | MPI_Group_excl => [.declare .grp, .act .worldgroup]

def operation : Tool → List Token
  | MPI_Comm_split => [.act (.create .com)]
  | MPI_Op_create => [.act (.create .op)]
  | MPI_Comm_group => [.act (.create .grp)]
  | MPI_Comm_dup => [.act (.create .com)]
  | MPI_Type_contiguous => [.act (.create .type)]
  | MPI_Comm_create =>
    [.act (.group .grp), .act (.read .grp), .act (.create .com), .act (.groupFree .grp)]
  | MPI_Group_excl => [.act (.create .grp)]

def fini : Tool → List Token
  | MPI_Comm_split => [.act (.freeUnlessNull .com)]
  | MPI_Op_create => [.act (.free .op)]
  | MPI_Comm_group => [.act (.free .grp)]
  | MPI_Comm_dup => [.act (.free .com)]
  | MPI_Type_contiguous => [.act (.free .type)]
  | MPI_Comm_create => [.act (.free .com)]
  | MPI_Group_excl => [.act (.free .grp)]

def free : Tool → List Token
  | MPI_Group_excl => [.act .worldgroupFree]
  | _ => []

/-- `error`, the detail of the outcome -/
def error : Tool → Detail
  | MPI_Comm_split | MPI_Comm_create | MPI_Comm_dup => .CommunicatorLeak
  | MPI_Op_create => .OperatorLeak
  | MPI_Comm_group | MPI_Group_excl => .GroupLeak
  | MPI_Type_contiguous => .TypeLeak

end Tool

/-- The dictionary `patterns`, which is also `replace`; comments are no tokens. -/
structure Patterns where
  call : Tool
  outcome : Detail
  change_size : List Token
  init : List Token
  loop : List Token
  operation : List Token
  cond : List Token
  fini : List Token
  end_ : List Token
  free : List Token

/-- The slots in the order of the template. -/
def Patterns.tokens (p : Patterns) : List Token :=
  p.change_size ++ p.init ++ p.loop ++ p.operation ++ p.cond ++ p.fini ++ p.end_ ++ p.free

/-- The programs of a call. -/
inductive Program
  | CallParamCorrect | Resleak | Resleak_multiple
  deriving DecidableEq, Repr

def correct (call : Tool) : Patterns where
  call := call
  outcome := .OK
  operation := call.operation
  init := call.init
  fini := call.fini
  free := call.free
  loop := []
  cond := []
  change_size := []
  end_ := []

def leak (call : Tool) : Patterns :=
  { correct call with
    outcome := call.error
    fini := [] }

def multiple (call : Tool) : Patterns :=
  { leak call with
    outcome := call.error
    change_size := [.change_size]
    loop := [.for_i, .for_j]
    cond := [.if_kept]
    fini := call.fini
    end_ := [.close, .close, .close] }

/-- The dictionary with which each of them is written, made from that of the one before. -/
def patterns (call : Tool) : Program → Patterns
  | .CallParamCorrect => correct call
  | .Resleak => leak call
  | .Resleak_multiple => multiple call

/-- The process at the end of a program. -/
def run (K : Constants) (call : Tool) (p : Program) : Option State :=
  (parse (patterns call p).tokens).map fun code => code.exec K .start

/-- The handles that a program should leak. -/
def claimed (K : Constants) : Program → Nat
  | .CallParamCorrect => 0
  | .Resleak => 1
  | .Resleak_multiple => K.iterations * K.lostPerIteration

/-- Every access is at an index of the array. -/
def InBounds (s : State) : Prop := ∀ a ∈ s.accesses, 0 ≤ a.1 ∧ a.1 < a.2

def leaked (s : State) : Int := s.created - s.freed

/-! ## Straight code -/

/-- The tokens that neither open nor close a block. -/
def Token.stmt : Token → Option Code
  | change_size => some .change_size
  | declare a => some (.declare a)
  | act a => some (.act a)
  | _ => none

/-- The code of such tokens. -/
def straight (code : Code) (ts : List Token) : Code :=
  ts.foldl (fun code t => .seq code (t.stmt.getD .skip)) code

theorem parseLoop_straight (blocks : List Block) (code : Code) {ts : List Token}
    (h : ∀ t ∈ ts, t.stmt.isSome = true) (rest : List Token) :
    parseLoop blocks code (ts ++ rest) = parseLoop blocks (straight code ts) rest := by
  induction ts generalizing code with
  | nil => rfl
  | cons t ts ih =>
    have ht := h t (List.mem_cons_self ..)
    have ih := ih (.seq code (t.stmt.getD .skip)) fun u hu => h u (List.mem_cons_of_mem _ hu)
    cases t with
    | change_size | declare | act =>
      rw [List.cons_append, parseLoop]
      exact ih
    | for_i | for_j | if_kept | close => simp [Token.stmt] at ht

/-- The texts of the tables are straight code. -/
theorem tables_straight (call : Tool) : (∀ t ∈ call.init, t.stmt.isSome = true) ∧
    (∀ t ∈ call.operation, t.stmt.isSome = true) ∧ (∀ t ∈ call.fini, t.stmt.isSome = true) ∧
    ∀ t ∈ call.free, t.stmt.isSome = true := by
  cases call <;> decide

/-- What straight code does. -/
def execAll (K : Constants) (ts : List Token) (s : State) : State :=
  ts.foldl (fun s t => (t.stmt.getD .skip).exec K s) s

theorem exec_straight (K : Constants) (code : Code) (ts : List Token) (s : State) :
    (straight code ts).exec K s = execAll K ts (code.exec K s) := by
  induction ts generalizing code with
  | nil => rfl
  | cons t ts ih => exact ih (.seq code (t.stmt.getD .skip))

/-- **The correct program and the one with a leak.** -/
theorem run_straight (K : Constants) (call : Tool) :
    run K call .CallParamCorrect =
        some (execAll K (call.init ++ call.operation ++ call.fini ++ call.free) .start) ∧
      run K call .Resleak =
        some (execAll K (call.init ++ call.operation ++ call.free) .start) := by
  obtain ⟨hinit, hoperation, hfini, hfree⟩ := tables_straight call
  have hrun {ts : List Token} (h : ∀ t ∈ ts, t.stmt.isSome = true) :
      (parse ts).map (fun code => code.exec K .start) = some (execAll K ts .start) := by
    have hparse := parseLoop_straight [] .skip h []
    rw [List.append_nil] at hparse
    rw [parse, hparse, parseLoop, Option.map_some, exec_straight]
    rfl
  constructor
  · rw [← hrun (by simpa [or_imp, forall_and] using ⟨hinit, hoperation, hfini, hfree⟩)]
    simp [run, patterns, correct, Patterns.tokens]
  · rw [← hrun (by simpa [or_imp, forall_and] using ⟨hinit, hoperation, hfree⟩)]
    simp [run, patterns, leak, correct, Patterns.tokens]

/-- The body of the loops: the call, and its release unless it is to be lost. -/
def body (call : Tool) : Code :=
  .seq (straight .skip call.operation) (.if_kept (straight .skip call.fini))

/-- **The program with several leaks.** -/
theorem run_multiple (K : Constants) (call : Tool) :
    run K call .Resleak_multiple = some (execAll K call.free
      ((Code.for_i (.seq .skip (.for_j (body call)))).exec K
        (execAll K (.change_size :: call.init) .start))) := by
  obtain ⟨hinit, hoperation, hfini, hfree⟩ := tables_straight call
  have htokens : (patterns call .Resleak_multiple).tokens = .change_size :: call.init ++
      ([.for_i, .for_j] ++ (call.operation ++ ([.if_kept] ++ (call.fini ++
        ([.close, .close, .close] ++ (call.free ++ [])))))) := by
    simp [patterns, multiple, leak, correct, Patterns.tokens]
  have hfirst : ∀ t ∈ Token.change_size :: call.init, t.stmt.isSome = true := by
    simpa [Token.stmt] using hinit
  rw [run, parse, htokens, parseLoop_straight _ _ hfirst]
  simp only [List.cons_append, List.nil_append, parseLoop]
  rw [parseLoop_straight _ _ hoperation]
  simp only [parseLoop]
  rw [parseLoop_straight _ _ hfini]
  simp only [parseLoop]
  rw [parseLoop_straight _ _ hfree, parseLoop, Option.map_some, exec_straight]
  simp only [Code.exec, exec_straight, body]

/-! ## What the calls do -/

/-- The array of the handles that the call creates. -/
def Tool.main : Tool → Handles
  | .MPI_Comm_split | .MPI_Comm_dup | .MPI_Comm_create => .com
  | .MPI_Op_create => .op
  | .MPI_Comm_group | .MPI_Group_excl => .grp
  | .MPI_Type_contiguous => .type

/-- The arrays of the call have this length. -/
def Declared (call : Tool) (n : Nat) (s : State) : Prop :=
  ∀ a, .declare a ∈ call.init → s.length a = some n

/-- From `s` to `s'` so many handles are created and freed, no array is declared,
no helper is left, and no access is out of bounds. -/
structure After (s s' : State) (created freed : Nat) : Prop where
  length : s'.length = s.length
  created : s'.created = s.created + created
  freed : s'.freed = s.freed + freed
  helpers : s'.helpers = s.helpers
  inBounds : InBounds s → InBounds s'

theorem After.refl (s : State) : After s s 0 0 := ⟨rfl, rfl, rfl, rfl, id⟩

theorem After.trans {s t u : State} {c f c' f' : Nat} (h : After s t c f) (h' : After t u c' f') :
    After s u (c + c') (f + f') := by
  constructor
  · rw [h'.length, h.length]
  · rw [h'.created, h.created, Nat.add_assoc]
  · rw [h'.freed, h.freed, Nat.add_assoc]
  · rw [h'.helpers, h.helpers]
  · exact h'.inBounds ∘ h.inBounds

/-- The loop variables are no part of it. -/
theorem After.index {s t : State} {c f : Nat} (h : After s t c f) (i j : Int) :
    After s { t with i := i, j := j } c f :=
  ⟨h.length, h.created, h.freed, h.helpers, h.inBounds⟩

/-- The array that an action accesses. -/
def Action.handles : Action → Option Handles
  | create a | free a | freeUnlessNull a | group a | read a | groupFree a => some a
  | worldgroup | worldgroupFree => none

theorem access_inBounds {s : State} {a : Handles} {n : Nat} (ha : s.length a = some n)
    (h0 : 0 ≤ s.j) (hn : s.j < n) (h : InBounds s) : InBounds (s.access a) := by
  intro b hb
  rcases List.mem_append.mp hb with hb | hb
  · exact h b hb
  · rw [List.mem_singleton.mp hb, ha]
    exact ⟨h0, hn⟩

/-- An action leaves the index and the arrays, and accesses its own at the index. -/
theorem exec_action (s : State) (act : Action) : (act.exec s).j = s.j ∧
    (act.exec s).length = s.length ∧
    ∀ n : Nat, (∀ a, act.handles = some a → s.length a = some n) → 0 ≤ s.j → s.j < n →
      InBounds s → InBounds (act.exec s) := by
  cases act with
  | create a | free a | group a | read a | groupFree a =>
    refine ⟨rfl, rfl, fun n ha h0 hn h => ?_⟩
    exact access_inBounds (ha a rfl) h0 hn h
  | freeUnlessNull a =>
    have hexec : (Action.freeUnlessNull a).exec s =
      if (s.access a).live a s.j then (s.access a).release a else s.access a := rfl
    rw [hexec]
    by_cases hlive : (s.access a).live a s.j = true
    · rw [if_pos hlive]
      refine ⟨rfl, rfl, fun n ha h0 hn h => ?_⟩
      exact access_inBounds (ha a rfl) h0 hn (access_inBounds (ha a rfl) h0 hn h)
    · rw [if_neg hlive]
      exact ⟨rfl, rfl, fun n ha h0 hn h => access_inBounds (ha a rfl) h0 hn h⟩
  | worldgroup | worldgroupFree => exact ⟨rfl, rfl, fun _ _ _ _ h => h⟩

/-- So does a list of actions. -/
theorem execAll_actions (K : Constants) (s : State) (acts : List Action) :
    (execAll K (acts.map .act) s).j = s.j ∧ (execAll K (acts.map .act) s).length = s.length ∧
    ∀ n : Nat, (∀ act ∈ acts, ∀ a, act.handles = some a → s.length a = some n) → 0 ≤ s.j →
      s.j < n → InBounds s → InBounds (execAll K (acts.map .act) s) := by
  induction acts generalizing s with
  | nil => exact ⟨rfl, rfl, fun _ _ _ _ h => h⟩
  | cons act acts ih =>
    obtain ⟨hj, hlength, hbounds⟩ := exec_action s act
    obtain ⟨hj', hlength', hbounds'⟩ := ih (act.exec s)
    refine ⟨hj'.trans hj, hlength'.trans hlength, fun n ha h0 hn h => ?_⟩
    refine hbounds' n ?_ (hj ▸ h0) (hj ▸ hn) ?_
    · rw [hlength]
      exact fun b hb => ha b (List.mem_cons_of_mem _ hb)
    · exact hbounds n (ha act (List.mem_cons_self ..)) h0 hn h

/-- The actions of the tested call and of the release, on arrays of the call. -/
theorem tables_actions (call : Tool) :
    (∃ acts : List Action, call.operation = acts.map .act ∧
      ∀ act ∈ acts, ∀ a, act.handles = some a → .declare a ∈ call.init) ∧
    ∃ acts : List Action, call.fini = acts.map .act ∧
      ∀ act ∈ acts, ∀ a, act.handles = some a → .declare a ∈ call.init := by
  cases call with
  | MPI_Comm_split =>
    exact ⟨⟨[.create .com], rfl, by simp [Action.handles, Tool.init]⟩,
      ⟨[.freeUnlessNull .com], rfl, by simp [Action.handles, Tool.init]⟩⟩
  | MPI_Op_create =>
    exact ⟨⟨[.create .op], rfl, by simp [Action.handles, Tool.init]⟩,
      ⟨[.free .op], rfl, by simp [Action.handles, Tool.init]⟩⟩
  | MPI_Comm_group | MPI_Group_excl =>
    exact ⟨⟨[.create .grp], rfl, by simp [Action.handles, Tool.init]⟩,
      ⟨[.free .grp], rfl, by simp [Action.handles, Tool.init]⟩⟩
  | MPI_Comm_dup =>
    exact ⟨⟨[.create .com], rfl, by simp [Action.handles, Tool.init]⟩,
      ⟨[.free .com], rfl, by simp [Action.handles, Tool.init]⟩⟩
  | MPI_Type_contiguous =>
    exact ⟨⟨[.create .type], rfl, by simp [Action.handles, Tool.init]⟩,
      ⟨[.free .type], rfl, by simp [Action.handles, Tool.init]⟩⟩
  | MPI_Comm_create =>
    exact ⟨⟨[.group .grp, .read .grp, .create .com, .groupFree .grp], rfl,
        by simp [Action.handles, Tool.init]⟩,
      ⟨[.free .com], rfl, by simp [Action.handles, Tool.init]⟩⟩

/-- **The tested call creates a handle**, and nothing else remains of it. -/
theorem operation_after (K : Constants) {call : Tool} {n : Nat} {s : State}
    (h : Declared call n s) (h0 : 0 ≤ s.j) (hn : s.j < n) :
    After s (execAll K call.operation s) 1 0 ∧ (execAll K call.operation s).j = s.j ∧
      (execAll K call.operation s).live call.main s.j = true := by
  obtain ⟨⟨acts, hacts, hhandles⟩, -⟩ := tables_actions call
  obtain ⟨hj, hlength, hbounds⟩ := execAll_actions K s acts
  rw [← hacts] at hj hlength hbounds
  have hin := hbounds n (fun act hact a ha => h a (hhandles act hact a ha)) h0 hn
  refine ⟨⟨hlength, ?_, ?_, ?_, hin⟩, hj, ?_⟩
  · cases call <;> rfl
  · cases call <;> rfl
  · cases call with
    | MPI_Comm_create => exact Int.add_sub_cancel s.helpers 1
    | _ => rfl
  · cases call <;>
      simp [execAll, Tool.operation, Tool.main, Token.stmt, Code.exec, Action.exec,
        State.access, State.setLive]

/-- **The release frees a handle**, when there is one at the index. -/
theorem fini_after (K : Constants) {call : Tool} {n : Nat} {s : State}
    (h : Declared call n s) (h0 : 0 ≤ s.j) (hn : s.j < n)
    (hlive : s.live call.main s.j = true) : After s (execAll K call.fini s) 0 1 := by
  obtain ⟨-, ⟨acts, hacts, hhandles⟩⟩ := tables_actions call
  obtain ⟨-, hlength, hbounds⟩ := execAll_actions K s acts
  rw [← hacts] at hlength hbounds
  have hin := hbounds n (fun act hact a ha => h a (hhandles act hact a ha)) h0 hn
  cases call with
  | MPI_Comm_split =>
    have hexec : execAll K Tool.MPI_Comm_split.fini s =
        if s.live .com s.j then (s.access .com).release .com else s.access .com := rfl
    have hlive : s.live .com s.j = true := hlive
    rw [hexec, if_pos hlive] at hlength hin ⊢
    exact ⟨hlength, rfl, rfl, rfl, hin⟩
  | _ => exact ⟨hlength, rfl, rfl, rfl, hin⟩

/-! ## The loops -/

theorem Declared.after {call : Tool} {n c f : Nat} {s t : State} (h : Declared call n s)
    (ht : After s t c f) : Declared call n t := by
  intro a ha
  rw [ht.length]
  exact h a ha

/-- **The body creates a handle**, and frees it if it is to be kept. -/
theorem body_after (K : Constants) {call : Tool} {n : Nat} {s : State}
    (h : Declared call n s) (h0 : 0 ≤ s.j) (hn : s.j < n) :
    After s ((body call).exec K s) 1
      (if s.j < (K.perIteration : Int) - K.lostPerIteration then 1 else 0) := by
  obtain ⟨hoperation, hj, hlive⟩ := operation_after K h h0 hn
  have hbody : (body call).exec K s =
      if (execAll K call.operation s).j < (K.perIteration : Int) - K.lostPerIteration then
        execAll K call.fini (execAll K call.operation s)
      else execAll K call.operation s := by
    simp only [body, Code.exec, exec_straight]
  rw [hbody, hj]
  by_cases hkept : s.j < (K.perIteration : Int) - K.lostPerIteration
  · rw [if_pos hkept, if_pos hkept]
    have hfini := fini_after K (h.after hoperation) (hj.symm ▸ h0) (hj.symm ▸ hn)
      (hj.symm ▸ hlive)
    exact hoperation.trans hfini
  · rw [if_neg hkept, if_neg hkept]
    exact hoperation

/-- What the inner loop has done before the round of `m`. -/
theorem innerLoop_spec (K : Constants) {call : Tool} {s : State}
    (h : Declared call K.perIteration s) (m : Nat) (hm : m ≤ K.perIteration) :
    After s ((List.range m).foldl (fun s (j : Nat) => (body call).exec K { s with j := j }) s)
      m (min m (K.perIteration - K.lostPerIteration)) := by
  have hlost := K.lost_le
  induction m with
  | zero =>
    rw [Nat.zero_min]
    exact .refl s
  | succ m ih =>
    rw [List.range_succ, List.foldl_concat]
    have ih := ih (Nat.le_of_succ_le hm)
    let t := (List.range m).foldl (fun s (j : Nat) => (body call).exec K { s with j := j }) s
    have hbefore : After s { t with j := m } m (min m (K.perIteration - K.lostPerIteration)) :=
      ih.index t.i m
    have hround := body_after K (h.after hbefore) (Int.natCast_nonneg m) (by show (m : Int) < _; omega)
    have hfreed : min m (K.perIteration - K.lostPerIteration) +
        (if (m : Int) < (K.perIteration : Int) - K.lostPerIteration then 1 else 0) =
        min (m + 1) (K.perIteration - K.lostPerIteration) := by
      split <;> omega
    rw [← hfreed]
    exact hbefore.trans hround

/-- What the outer loop has done before the round of `m`. -/
theorem outerLoop_spec (K : Constants) {call : Tool} {s : State}
    (h : Declared call K.perIteration s) (m : Nat) :
    After s ((List.range m).foldl
        (fun s (i : Nat) => (Code.seq .skip (.for_j (body call))).exec K { s with i := i }) s)
      (m * K.perIteration) (m * (K.perIteration - K.lostPerIteration)) := by
  induction m with
  | zero =>
    rw [Nat.zero_mul, Nat.zero_mul]
    exact .refl s
  | succ m ih =>
    rw [List.range_succ, List.foldl_concat, Nat.succ_mul, Nat.succ_mul]
    let t := (List.range m).foldl
      (fun s (i : Nat) => (Code.seq .skip (.for_j (body call))).exec K { s with i := i }) s
    have hbefore : After s { t with i := m } (m * K.perIteration)
        (m * (K.perIteration - K.lostPerIteration)) := ih.index m t.j
    have hround := innerLoop_spec K (h.after hbefore) K.perIteration le_rfl
    rw [Nat.min_eq_right (Nat.sub_le ..)] at hround
    exact hbefore.trans (hround.index _ K.perIteration)

/-! ## The programs -/

/-- The state in which the loops are entered. -/
theorem declared_multiple (K : Constants) (call : Tool) :
    let s := execAll K (.change_size :: call.init) .start
    Declared call K.perIteration s ∧ s.created = 0 ∧ s.freed = 0 ∧ s.accesses = [] := by
  refine ⟨?_, ?_, ?_, ?_⟩
  · intro a ha
    cases call <;> cases a <;>
      simp [Tool.init, execAll, Token.stmt, Code.exec, Action.exec, Function.update] at ha ⊢
  · cases call <;> rfl
  · cases call <;> rfl
  · cases call <;> rfl

/-- **The program with several leaks** stays in bounds and loses what it claims. -/
theorem multiple_sound (K : Constants) (call : Tool) :
    ∃ s, run K call .Resleak_multiple = some s ∧ InBounds s ∧
      leaked s = claimed K .Resleak_multiple := by
  obtain ⟨hdeclared, hcreated, hfreed, haccesses⟩ := declared_multiple K call
  have hloop := outerLoop_spec K hdeclared K.iterations
  have hfree (s : State) : (execAll K call.free s).created = s.created ∧
      (execAll K call.free s).freed = s.freed ∧
      (execAll K call.free s).accesses = s.accesses := by
    cases call <;> exact ⟨rfl, rfl, rfl⟩
  refine ⟨_, run_multiple K call, ?_, ?_⟩
  · have hin := hloop.inBounds (by simp [InBounds, haccesses])
    rw [InBounds, (hfree _).2.2]
    exact hin
  · have hlost := K.lost_le
    rw [leaked, (hfree _).1, (hfree _).2.1]
    have hleaked : (K.iterations * K.perIteration : Nat) -
        (K.iterations * (K.perIteration - K.lostPerIteration) : Nat) =
        ((K.iterations * K.lostPerIteration : Nat) : Int) := by
      push_cast [Nat.cast_sub hlost]
      ring
    have hcreated := hloop.created.trans (by rw [hcreated, Nat.zero_add])
    have hfreed := hloop.freed.trans (by rw [hfreed, Nat.zero_add])
    exact (congrArg₂ (fun c f : Nat => (c : Int) - f) hcreated hfreed).trans hleaked

/-- **The other two** lose what they claim too, but access the only handle of the
array at the index 1. -/
theorem straight_outOfBounds (K : Constants) (call : Tool) :
    (∃ s, run K call .CallParamCorrect = some s ∧ leaked s = 0 ∧ (1, 1) ∈ s.accesses) ∧
      ∃ s, run K call .Resleak = some s ∧ leaked s = 1 ∧ (1, 1) ∈ s.accesses := by
  obtain ⟨hcorrect, hleak⟩ := run_straight K call
  refine ⟨⟨_, hcorrect, ?_, ?_⟩, ⟨_, hleak, ?_, ?_⟩⟩
  · cases call <;> rfl
  · cases call <;> exact List.mem_cons_self ..
  · cases call <;> rfl
  · cases call <;> exact List.mem_cons_self ..

/-- **The handles lost are those claimed**, in every program. -/
theorem leaks_claimed (K : Constants) (call : Tool) (p : Program) :
    ∃ s, run K call p = some s ∧ leaked s = claimed K p := by
  cases p with
  | CallParamCorrect =>
    obtain ⟨s, hs, hleaked, -⟩ := (straight_outOfBounds K call).1
    exact ⟨s, hs, hleaked⟩
  | Resleak =>
    obtain ⟨s, hs, hleaked, -⟩ := (straight_outOfBounds K call).2
    exact ⟨s, hs, hleaked⟩
  | Resleak_multiple =>
    obtain ⟨s, hs, -, hleaked⟩ := multiple_sound K call
    exact ⟨s, hs, hleaked⟩

theorem not_inBounds {s : State} (h : (1, 1) ∈ s.accesses) : ¬ InBounds s := by
  intro hin
  exact absurd (hin (1, 1) h).2 (by decide)

/-- **A program is in bounds and leaks what it claims exactly when it is the one
with several leaks.** -/
theorem sound_iff (K : Constants) (call : Tool) (p : Program) :
    ∃ s, run K call p = some s ∧
      ((InBounds s ∧ leaked s = claimed K p) ↔ p = .Resleak_multiple) := by
  cases p with
  | CallParamCorrect =>
    obtain ⟨s, hs, -, haccess⟩ := (straight_outOfBounds K call).1
    exact ⟨s, hs, iff_of_false (fun h => not_inBounds haccess h.1) (by decide)⟩
  | Resleak =>
    obtain ⟨s, hs, -, haccess⟩ := (straight_outOfBounds K call).2
    exact ⟨s, hs, iff_of_false (fun h => not_inBounds haccess h.1) (by decide)⟩
  | Resleak_multiple =>
    obtain ⟨s, hs, hin, hleaked⟩ := multiple_sound K call
    exact ⟨s, hs, iff_of_true ⟨hin, hleaked⟩ rfl⟩

/-- The values of the template: the correct use of `MPI_Op_create` writes behind
its array. -/
theorem correct_overruns : ¬ ∀ (K : Constants) (call : Tool) (p : Program),
    ∃ s, run K call p = some s ∧ InBounds s ∧ leaked s = claimed K p := by
  intro h
  let K : Constants := ⟨100, 3, 1, by decide, by decide, by decide⟩
  obtain ⟨s, hs, hin, -⟩ := h K .MPI_Op_create .CallParamCorrect
  obtain ⟨t, ht, -, haccess⟩ := (straight_outOfBounds K .MPI_Op_create).1
  obtain rfl : s = t := Option.some.inj (hs.symm.trans ht)
  exact not_inBounds haccess hin

end MpiBugs.ResourceLeaks
