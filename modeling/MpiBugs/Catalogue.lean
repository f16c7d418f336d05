import MpiBugs.Generators
import MpiBugs.RoundTrip
import MpiBugs.Words

/-!
# The catalogue of the generators

The calls of `make_file` in the loops of all generators, for any tables of primitives:
the name of the file, and the outcome in its header.

* `codes_nodup`: a generator writes a file once;
* `codes_disjoint`: no two generators write the same file.
-/

namespace MpiBugs.Catalogue

open Header RoundTrip Generators

/-! ## Names -/

/-- The names in the tables of `generator_utils.py`. -/
inductive Primitive
  | MPI_Barrier | MPI_Bcast | MPI_Reduce | MPI_Gather | MPI_Scatter | MPI_Scan | MPI_Exscan
  | MPI_Allgather | MPI_Allreduce | MPI_Allgatherv | MPI_Alltoall | MPI_Alltoallv
  | MPI_Ibcast | MPI_Ireduce | MPI_Igather | MPI_Iscatter | MPI_Iscan | MPI_Iexscan
  | MPI_Iallgather | MPI_Iallreduce | MPI_Iallgatherv | MPI_Ialltoall | MPI_Ialltoallv
  | MPI_Ibarrier
  | MPI_Comm_split | MPI_Op_create | MPI_Comm_group | MPI_Comm_dup | MPI_Type_contiguous
  | MPI_Comm_create | MPI_Group_excl | MPI_Cart_get | MPI_Cart_create
  | MPI_Send | MPI_Ssend | MPI_Bsend | MPI_Isend | MPI_Send_init
  | MPI_Recv | MPI_Irecv | MPI_Recv_init | MPI_Probe
  | MPI_Win_fence | MPI_Win_lock | MPI_Win_lock_all
  | MPI_Get | MPI_Put | store | load | loadstore
  deriving DecidableEq, Repr

def Primitive.name : Primitive → Text
  | .MPI_Barrier => "MPI_Barrier".toList
  | .MPI_Bcast => "MPI_Bcast".toList
  | .MPI_Reduce => "MPI_Reduce".toList
  | .MPI_Gather => "MPI_Gather".toList
  | .MPI_Scatter => "MPI_Scatter".toList
  | .MPI_Scan => "MPI_Scan".toList
  | .MPI_Exscan => "MPI_Exscan".toList
  | .MPI_Allgather => "MPI_Allgather".toList
  | .MPI_Allreduce => "MPI_Allreduce".toList
  | .MPI_Allgatherv => "MPI_Allgatherv".toList
  | .MPI_Alltoall => "MPI_Alltoall".toList
  | .MPI_Alltoallv => "MPI_Alltoallv".toList
  | .MPI_Ibcast => "MPI_Ibcast".toList
  | .MPI_Ireduce => "MPI_Ireduce".toList
  | .MPI_Igather => "MPI_Igather".toList
  | .MPI_Iscatter => "MPI_Iscatter".toList
  | .MPI_Iscan => "MPI_Iscan".toList
  | .MPI_Iexscan => "MPI_Iexscan".toList
  | .MPI_Iallgather => "MPI_Iallgather".toList
  | .MPI_Iallreduce => "MPI_Iallreduce".toList
  | .MPI_Iallgatherv => "MPI_Iallgatherv".toList
  | .MPI_Ialltoall => "MPI_Ialltoall".toList
  | .MPI_Ialltoallv => "MPI_Ialltoallv".toList
  | .MPI_Ibarrier => "MPI_Ibarrier".toList
  | .MPI_Comm_split => "MPI_Comm_split".toList
  | .MPI_Op_create => "MPI_Op_create".toList
  | .MPI_Comm_group => "MPI_Comm_group".toList
  | .MPI_Comm_dup => "MPI_Comm_dup".toList
  | .MPI_Type_contiguous => "MPI_Type_contiguous".toList
  | .MPI_Comm_create => "MPI_Comm_create".toList
  | .MPI_Group_excl => "MPI_Group_excl".toList
  | .MPI_Cart_get => "MPI_Cart_get".toList
  | .MPI_Cart_create => "MPI_Cart_create".toList
  | .MPI_Send => "MPI_Send".toList
  | .MPI_Ssend => "MPI_Ssend".toList
  | .MPI_Bsend => "MPI_Bsend".toList
  | .MPI_Isend => "MPI_Isend".toList
  | .MPI_Send_init => "MPI_Send_init".toList
  | .MPI_Recv => "MPI_Recv".toList
  | .MPI_Irecv => "MPI_Irecv".toList
  | .MPI_Recv_init => "MPI_Recv_init".toList
  | .MPI_Probe => "MPI_Probe".toList
  | .MPI_Win_fence => "MPI_Win_fence".toList
  | .MPI_Win_lock => "MPI_Win_lock".toList
  | .MPI_Win_lock_all => "MPI_Win_lock_all".toList
  | .MPI_Get => "MPI_Get".toList
  | .MPI_Put => "MPI_Put".toList
  | .store => "store".toList
  | .load => "load".toList
  | .loadstore => "loadstore".toList

/-- What follows in the name of a file. -/
inductive Part
  | primitive (p : Primitive)
  | none | ok | nok
  deriving DecidableEq, Repr

instance : Coe Primitive Part := ⟨.primitive⟩

def Part.name : Part → Text
  | .primitive p => p.name
  | .none => "none".toList
  | .ok => "ok".toList
  | .nok => "nok".toList

/-- How it starts. -/
inductive Family
  | CollInvalidOtherArg | CollRootMatching | CollRootNeg | CollRootTooLarge | CollDataMatching
  | CollDataNull | CollOpMatching | CollOpNull
  | CollComMatching | CollComNull
  | CollLocalConcurrency
  | CollCorrect | CollCallOrder
  | CollP2PCallMatching
  | CollInvalidCom | CollInvalidDim
  | P2PCallMatching | MissingWait | MissingStart | RequestLeak
  | P2PDataMatching | P2PDatatypeNull | P2PInvalidDatatype | P2PTagMatching | P2PInvalidTag
  | P2PComMatching | P2PInvalidCom | P2PInvalidDest | P2PInvalidSrc
  | P2PLocalConcurrency
  | P2PMessageRace
  | GlobalConcurrency
  | RMADatatypeNull | RMAInvalidDatatype
  | MBI_LocalConcurrency
  | CallParamCorrect | Resleak | Resleak_multiple
  deriving DecidableEq, Repr

def Family.name : Family → Text
  | .CollInvalidOtherArg => "CollInvalidOtherArg".toList
  | .CollRootMatching => "CollRootMatching".toList
  | .CollRootNeg => "CollRootNeg".toList
  | .CollRootTooLarge => "CollRootTooLarge".toList
  | .CollDataMatching => "CollDataMatching".toList
  | .CollDataNull => "CollDataNull".toList
  | .CollOpMatching => "CollOpMatching".toList
  | .CollOpNull => "CollOpNull".toList
  | .CollComMatching => "CollComMatching".toList
  | .CollComNull => "CollComNull".toList
  | .CollLocalConcurrency => "CollLocalConcurrency".toList
  | .CollCorrect => "CollCorrect".toList
  | .CollCallOrder => "CollCallOrder".toList
  | .CollP2PCallMatching => "CollP2PCallMatching".toList
  | .CollInvalidCom => "CollInvalidCom".toList
  | .CollInvalidDim => "CollInvalidDim".toList
  | .P2PCallMatching => "P2PCallMatching".toList
  | .MissingWait => "MissingWait".toList
  | .MissingStart => "MissingStart".toList
  | .RequestLeak => "RequestLeak".toList
  | .P2PDataMatching => "P2PDataMatching".toList
  | .P2PDatatypeNull => "P2PDatatypeNull".toList
  | .P2PInvalidDatatype => "P2PInvalidDatatype".toList
  | .P2PTagMatching => "P2PTagMatching".toList
  | .P2PInvalidTag => "P2PInvalidTag".toList
  | .P2PComMatching => "P2PComMatching".toList
  | .P2PInvalidCom => "P2PInvalidCom".toList
  | .P2PInvalidDest => "P2PInvalidDest".toList
  | .P2PInvalidSrc => "P2PInvalidSrc".toList
  | .P2PLocalConcurrency => "P2PLocalConcurrency".toList
  | .P2PMessageRace => "P2PMessageRace".toList
  | .GlobalConcurrency => "GlobalConcurrency".toList
  | .RMADatatypeNull => "RMADatatypeNull".toList
  | .RMAInvalidDatatype => "RMAInvalidDatatype".toList
  | .MBI_LocalConcurrency => "MBI_LocalConcurrency".toList
  | .CallParamCorrect => "CallParamCorrect".toList
  | .Resleak => "Resleak".toList
  | .Resleak_multiple => "Resleak_multiple".toList

/-- `f'{family}_{...}.c'` -/
structure Name where
  family : Family
  parts : List Part
  deriving DecidableEq, Repr

def Name.filename (n : Name) : Text :=
  Words.joined '_' n.family.name (n.parts.map Part.name) ++ ".c".toList

abbrev Code := Call Name Announced

def error (d : Detail) (h : d ≠ .OK := by decide) : Announced := .error d h

theorem callMatching_ne_ok : Detail.CallMatching ≠ .OK := by decide

/-! ## Tables -/

/-- The tables of `generator_utils.py`, in its order. -/
structure Primitives where
  coll : List Primitive
  icoll : List Primitive
  ibarrier : List Primitive
  coll4op : List Primitive
  icoll4op : List Primitive
  coll4root : List Primitive
  icoll4root : List Primitive
  pcoll : List Primitive
  tcoll : List Primitive
  tcoll4color : List Primitive
  tcoll4topo : List Primitive
  allsend : List Primitive
  allrecv : List Primitive
  send : List Primitive
  ssend : List Primitive
  bsend : List Primitive
  isend : List Primitive
  psend : List Primitive
  recv : List Primitive
  irecv : List Primitive
  precv : List Primitive
  probe : List Primitive
  /-- the keys of the dictionary that replaces the list -/
  epoch : List Primitive
  rma : List Primitive
  get : List Primitive
  put : List Primitive
  store : List Primitive
  load : List Primitive
  loadstore : List Primitive
  /-- the dictionary `error`, for the keys in `tcoll` -/
  error : Primitive → {d : Detail // d ≠ .OK}

/-- As they stand. -/
def primitives : Primitives where
  coll := [.MPI_Barrier, .MPI_Bcast, .MPI_Reduce, .MPI_Gather, .MPI_Scatter, .MPI_Scan, .MPI_Exscan,
    .MPI_Allgather, .MPI_Allreduce, .MPI_Allgatherv, .MPI_Alltoall, .MPI_Alltoallv]
  icoll := [.MPI_Ibcast, .MPI_Ireduce, .MPI_Igather, .MPI_Iscatter, .MPI_Iscan, .MPI_Iexscan,
    .MPI_Iallgather, .MPI_Iallreduce, .MPI_Iallgatherv, .MPI_Ialltoall, .MPI_Ialltoallv]
  ibarrier := [.MPI_Ibarrier]
  coll4op := [.MPI_Reduce, .MPI_Allreduce]
  icoll4op := [.MPI_Ireduce, .MPI_Iallreduce]
  coll4root := [.MPI_Reduce, .MPI_Bcast, .MPI_Gather, .MPI_Scatter]
  icoll4root := [.MPI_Ireduce, .MPI_Ibcast, .MPI_Igather, .MPI_Iscatter]
  pcoll := []
  tcoll := [.MPI_Comm_split, .MPI_Op_create, .MPI_Comm_group, .MPI_Comm_dup, .MPI_Type_contiguous,
    .MPI_Comm_create, .MPI_Group_excl]
  tcoll4color := [.MPI_Comm_split]
  tcoll4topo := [.MPI_Cart_get]
  allsend := [.MPI_Send, .MPI_Isend, .MPI_Ssend, .MPI_Bsend, .MPI_Send_init]
  allrecv := [.MPI_Recv, .MPI_Irecv, .MPI_Recv_init]
  send := [.MPI_Send]
  ssend := [.MPI_Ssend]
  bsend := [.MPI_Bsend]
  isend := [.MPI_Isend]
  psend := [.MPI_Send_init]
  recv := [.MPI_Recv]
  irecv := [.MPI_Irecv]
  precv := [.MPI_Recv_init]
  probe := [.MPI_Probe]
  epoch := [.MPI_Win_fence, .MPI_Win_lock, .MPI_Win_lock_all]
  rma := [.MPI_Get, .MPI_Put]
  get := [.MPI_Get]
  put := [.MPI_Put]
  store := [.store]
  load := [.load]
  loadstore := [.loadstore]
  error
    | .MPI_Comm_split | .MPI_Comm_create | .MPI_Comm_dup => ⟨.CommunicatorLeak, by decide⟩
    | .MPI_Op_create => ⟨.OperatorLeak, by decide⟩
    | .MPI_Comm_group | .MPI_Group_excl => ⟨.GroupLeak, by decide⟩
    | _ => ⟨.TypeLeak, by decide⟩

/-! ## The generators -/

/-- The files `scripts/*Generator.py`. -/
inductive Generator
  | CollArg | CollCom | CollLocalConcurrency | CollMatching | CollP2PMatching | CollTopo
  | MissingWaitandStart | P2PArg | P2PCom | P2PLocalConcurrency | P2PMatchingANYSRC | P2PMatching
  | P2PProbe | RMAGlobalConcurrency | RMAInvalidArg | RMALocalConcurrency
  | RMAP2PGlobalConcurrency | Resleak
  deriving DecidableEq, Repr

namespace Generator

def all : List Generator :=
  [CollArg, CollCom, CollLocalConcurrency, CollMatching, CollP2PMatching, CollTopo,
   MissingWaitandStart, P2PArg, P2PCom, P2PLocalConcurrency, P2PMatchingANYSRC, P2PMatching,
   P2PProbe, RMAGlobalConcurrency, RMAInvalidArg, RMALocalConcurrency, RMAP2PGlobalConcurrency,
   Resleak]

theorem mem_all (g : Generator) : g ∈ all := by cases g <;> decide

/-- `mpirun -np` in the template. -/
def np : Generator → Nat
  | P2PMatchingANYSRC | RMAP2PGlobalConcurrency => 4
  | RMAGlobalConcurrency => 3
  | _ => 2

end Generator

/-- `for c in cs:` -/
def loop (cs : List Primitive) (body : Primitive → List Code) : List Code := cs.flatMap body

section

variable (T : Primitives)

def collArg : List Code :=
  (loop T.tcoll4color fun c =>
    [⟨⟨.CollInvalidOtherArg, [c, .nok]⟩, error .InvalidOtherArg⟩]) ++
  (loop (T.coll4root ++ T.icoll4root) fun c =>
    [⟨⟨.CollRootMatching, [c, .nok]⟩, error .RootMatching⟩,
     ⟨⟨.CollRootNeg, [c, .nok]⟩, error .InvalidRoot⟩,
     ⟨⟨.CollRootTooLarge, [c, .nok]⟩, error .InvalidRoot⟩]) ++
  (loop (T.coll ++ T.icoll) fun c =>
    if c ≠ .MPI_Barrier then
      [⟨⟨.CollDataMatching, [c, .nok]⟩, error .DatatypeMatching⟩,
       ⟨⟨.CollDataNull, [c, .nok]⟩, error .InvalidDatatype⟩]
    else []) ++
  (loop (T.coll4op ++ T.icoll4op) fun c =>
    [⟨⟨.CollOpMatching, [c, .nok]⟩, error .OperatorMatching⟩,
     ⟨⟨.CollOpNull, [c, .nok]⟩, error .InvalidOperator⟩])

def collCom : List Code :=
  loop (T.coll ++ T.icoll ++ T.ibarrier) fun c =>
    [⟨⟨.CollComMatching, [c, .ok]⟩, .ok⟩,
     ⟨⟨.CollComMatching, [c, .nok]⟩, error .CommunicatorMatching⟩,
     ⟨⟨.CollComNull, [c, .nok]⟩, error .InvalidCommunicator⟩]

def collLocalConcurrency : List Code :=
  loop (T.icoll ++ T.pcoll) fun c =>
    [⟨⟨.CollLocalConcurrency, [c, .nok]⟩, error .LocalConcurrency⟩]

def collMatching : List Code :=
  loop (T.coll ++ T.icoll ++ T.ibarrier) fun c1 =>
    (loop (T.coll ++ T.icoll ++ T.ibarrier) fun c2 =>
      if c1 = c2 then
        [⟨⟨.CollCorrect, [c1, c2]⟩, .ok⟩,
         ⟨⟨.CollCorrect, [c1]⟩, .ok⟩]
      else
        [⟨⟨.CollCorrect, [c1, c2]⟩, .ok⟩,
         ⟨⟨.CollCallOrder, [c1, c2, .nok]⟩, error .CallMatching callMatching_ne_ok⟩]) ++
    [⟨⟨.CollCallOrder, [c1, .none, .nok]⟩, error .CallMatching callMatching_ne_ok⟩,
     ⟨⟨.CollCallOrder, [c1, .none, .ok]⟩, .ok⟩]

def collP2PMatching : List Code :=
  loop (T.send ++ T.isend) fun s => loop (T.recv ++ T.irecv) fun r => loop T.coll fun c =>
    [⟨⟨.CollP2PCallMatching, [r, s, c, .nok]⟩, error .CallMatching callMatching_ne_ok⟩]

def collTopo : List Code :=
  loop T.tcoll4topo fun c =>
    [⟨⟨.CollCorrect, [c, .ok]⟩, .ok⟩,
     ⟨⟨.CollInvalidCom, [c, .nok]⟩, error .InvalidCommunicator⟩,
     ⟨⟨.CollComNull, [c, .nok]⟩, error .InvalidCommunicator⟩,
     ⟨⟨.CollInvalidDim, [Primitive.MPI_Cart_create, .nok]⟩, error .InvalidOtherArg⟩]

def missingWaitandStart : List Code :=
  (loop (T.isend ++ T.psend) fun s => loop (T.irecv ++ T.precv) fun r =>
    [⟨⟨.P2PCallMatching, [s, r, .ok]⟩, .ok⟩,
     ⟨⟨.MissingWait, [s, r, .nok]⟩, error .MissingWait⟩] ++
    if s ∈ T.psend then
      [⟨⟨.MissingStart, [s, r, .nok]⟩, error .MissingStart⟩,
       ⟨⟨.RequestLeak, [s, r, .nok]⟩, error .RequestLeak⟩]
    else []) ++
  loop (T.pcoll ++ T.icoll ++ T.ibarrier) fun c =>
    ⟨⟨.MissingWait, [c, .nok]⟩, error .MissingWait⟩ ::
    if c ∈ T.pcoll then
      [⟨⟨.MissingStart, [c, .nok]⟩, error .MissingStart⟩,
       ⟨⟨.RequestLeak, [c, .nok]⟩, error .RequestLeak⟩]
    else []

def p2pArg : List Code :=
  (loop T.allsend fun p1 => loop T.allrecv fun p2 =>
    [⟨⟨.P2PDataMatching, [p1, p2, .nok]⟩, error .DatatypeMatching⟩,
     ⟨⟨.P2PDatatypeNull, [p1, p2, .nok]⟩, error .InvalidDatatype⟩,
     ⟨⟨.P2PInvalidDatatype, [p1, p2, .nok]⟩, error .InvalidDatatype⟩]) ++
  loop T.allsend fun p1 => loop T.allrecv fun p2 =>
    [⟨⟨.P2PTagMatching, [p1, p2, .nok]⟩, error .TagMatching⟩,
     ⟨⟨.P2PInvalidTag, [p1, p2, .nok]⟩, error .InvalidTag⟩,
     ⟨⟨.P2PTagMatching, [p1, p2, .ok]⟩, .ok⟩]

def p2pCom : List Code :=
  loop (T.send ++ T.isend ++ T.psend) fun p1 => loop (T.recv ++ T.irecv ++ T.precv) fun p2 =>
    [⟨⟨.P2PComMatching, [p1, p2, .nok]⟩, error .CommunicatorMatching⟩,
     ⟨⟨.P2PInvalidCom, [p1, p2, .nok]⟩, error .InvalidCommunicator⟩,
     ⟨⟨.P2PInvalidDest, [p1, p2, .nok]⟩, error .InvalidSrcDest⟩,
     ⟨⟨.P2PInvalidSrc, [p1, p2, .nok]⟩, error .InvalidSrcDest⟩]

def p2pLocalConcurrency : List Code :=
  loop (T.send ++ T.isend ++ T.psend) fun s => loop (T.irecv ++ T.precv ++ T.recv) fun r =>
    (if s ∈ T.send ∧ r ∈ T.irecv ++ T.precv then
      [⟨⟨.P2PLocalConcurrency, [r, s, .nok]⟩, error .LocalConcurrency⟩] else []) ++
    (if s ∈ T.isend ++ T.psend ∧ r ∈ T.recv then
      [⟨⟨.P2PLocalConcurrency, [r, s, .nok]⟩, error .LocalConcurrency⟩] else []) ++
    if s ∈ T.isend ++ T.psend ∧ r ∈ T.irecv ++ T.precv then
      [⟨⟨.P2PLocalConcurrency, [r, s, .nok]⟩, error .LocalConcurrency⟩] else []

def p2pMatchingANYSRC : List Code :=
  loop (T.send ++ T.isend) fun s => loop (T.recv ++ T.irecv) fun r =>
    [⟨⟨.P2PMessageRace, [r, s, .nok]⟩, error .MessageRace⟩]

def p2pMatching : List Code :=
  (loop (T.send ++ T.ssend ++ T.bsend ++ T.recv ++ T.irecv ++ T.isend) fun p =>
    [⟨⟨.P2PCallMatching, [p, .nok]⟩, error .CallMatching callMatching_ne_ok⟩,
     ⟨⟨.P2PCallMatching, [p, p, .nok]⟩, error .CallMatching callMatching_ne_ok⟩]) ++
  loop (T.send ++ T.isend ++ T.ssend ++ T.bsend) fun s => loop (T.recv ++ T.irecv) fun r =>
    [⟨⟨.P2PCallMatching, [r, s, .nok]⟩, error .CallMatching callMatching_ne_ok⟩]

def p2pProbe : List Code :=
  loop T.probe fun p => loop (T.send ++ T.isend) fun s => loop (T.recv ++ T.irecv) fun r =>
    [⟨⟨.P2PCallMatching, [p, r, s, .nok]⟩, error .CallMatching callMatching_ne_ok⟩,
     ⟨⟨.P2PCallMatching, [p, r, s, .ok]⟩, .ok⟩]

def rmaGlobalConcurrency : List Code :=
  loop T.epoch fun e => loop T.put fun p1 => loop (T.get ++ T.put) fun p2 =>
    [⟨⟨.GlobalConcurrency, [e, p1, p2, .nok]⟩, error .GlobalConcurrency⟩,
     ⟨⟨.GlobalConcurrency, [e, p2, Primitive.store, .nok]⟩, error .GlobalConcurrency⟩]

def rmaInvalidArg : List Code :=
  loop T.epoch fun e => loop T.rma fun p =>
    [⟨⟨.RMADatatypeNull, [e, p, .nok]⟩, error .InvalidDatatype⟩,
     ⟨⟨.RMAInvalidDatatype, [e, p, .nok]⟩, error .InvalidDatatype⟩]

def rmaLocalConcurrency : List Code :=
  (loop T.epoch fun e => loop T.get fun p1 =>
    (loop (T.put ++ T.store ++ T.load ++ T.get ++ T.loadstore) fun p2 =>
      ⟨⟨.MBI_LocalConcurrency, [e, p1, p2, .nok]⟩, error .LocalConcurrency⟩ ::
      if p2 ∈ T.store ++ T.load ++ T.loadstore then
        [⟨⟨.MBI_LocalConcurrency, [e, p2, p1, .ok]⟩, .ok⟩]
      else []) ++
    [⟨⟨.MBI_LocalConcurrency, [e, p1, .ok]⟩, .ok⟩]) ++
  loop T.epoch fun e => loop T.put fun p1 => loop T.store fun p2 =>
    [⟨⟨.MBI_LocalConcurrency, [e, p1, p2, .nok]⟩, error .LocalConcurrency⟩,
     ⟨⟨.MBI_LocalConcurrency, [e, p2, p1, .ok]⟩, .ok⟩,
     ⟨⟨.MBI_LocalConcurrency, [e, p1, .ok]⟩, .ok⟩]

def rmaP2PGlobalConcurrency : List Code :=
  loop (T.put ++ T.get) fun p => loop (T.send ++ T.isend) fun s =>
    loop (T.recv ++ T.irecv) fun r =>
      [⟨⟨.GlobalConcurrency, [p, s, r, .nok]⟩, error .GlobalConcurrency⟩]

def resleak : List Code :=
  loop T.tcoll fun call =>
    [⟨⟨.CallParamCorrect, [call]⟩, .ok⟩,
     ⟨⟨.Resleak, [call, .nok]⟩, .error (T.error call).1 (T.error call).2⟩,
     ⟨⟨.Resleak_multiple, [call, .nok]⟩, .error (T.error call).1 (T.error call).2⟩]

/-- What a generator writes, one file after the other. -/
def Generator.codes : Generator → List Code
  | CollArg => collArg T
  | CollCom => collCom T
  | CollLocalConcurrency => collLocalConcurrency T
  | CollMatching => collMatching T
  | CollP2PMatching => collP2PMatching T
  | CollTopo => collTopo T
  | MissingWaitandStart => missingWaitandStart T
  | P2PArg => p2pArg T
  | P2PCom => p2pCom T
  | P2PLocalConcurrency => p2pLocalConcurrency T
  | P2PMatchingANYSRC => p2pMatchingANYSRC T
  | P2PMatching => p2pMatching T
  | P2PProbe => p2pProbe T
  | RMAGlobalConcurrency => rmaGlobalConcurrency T
  | RMAInvalidArg => rmaInvalidArg T
  | RMALocalConcurrency => rmaLocalConcurrency T
  | RMAP2PGlobalConcurrency => rmaP2PGlobalConcurrency T
  | Resleak => resleak T

end

/-! ## What is in a name -/

def names (codes : List Code) : List Name := codes.map Call.filename

/-- All files are such. -/
def All (P : Code → Prop) (codes : List Code) : Prop := ∀ x ∈ codes, P x

section

variable {P : Code → Prop} {cs : List Primitive} {body : Primitive → List Code}

@[simp] theorem all_nil : All P [] := nofun

@[simp] theorem all_cons (x : Code) (xs : List Code) : All P (x :: xs) ↔ P x ∧ All P xs :=
  List.forall_mem_cons

@[simp] theorem all_append (xs ys : List Code) : All P (xs ++ ys) ↔ All P xs ∧ All P ys :=
  List.forall_mem_append

@[simp] theorem all_ite (p : Prop) [Decidable p] (xs ys : List Code) :
    All P (if p then xs else ys) ↔ (p → All P xs) ∧ (¬ p → All P ys) := by
  split <;> simp [*]

@[simp] theorem all_loop : All P (loop cs body) ↔ ∀ c ∈ cs, All P (body c) := by
  simp only [All, loop, List.mem_flatMap]
  constructor
  · exact fun h c hc x hx => h x ⟨c, hc, hx⟩
  · rintro h x ⟨c, hc, hx⟩
    exact h c hc x hx

/-- As far as their names are concerned. -/
theorem all_names (Q : Name → Prop) {codes : List Code} (h : All (fun x => Q x.filename) codes) :
    ∀ n ∈ names codes, Q n :=
  List.forall_mem_map.mpr h

@[simp] theorem names_nil : names [] = [] := rfl

@[simp] theorem names_cons (x : Code) (xs : List Code) : names (x :: xs) = x.filename :: names xs :=
  rfl

@[simp] theorem names_ite (p : Prop) [Decidable p] (xs ys : List Code) :
    names (if p then xs else ys) = if p then names xs else names ys := by
  split <;> rfl

@[simp] theorem names_append (xs ys : List Code) : names (xs ++ ys) = names xs ++ names ys :=
  List.map_append

theorem nodup_append {xs ys : List Code} (Q : Name → Prop) (hx : (names xs).Nodup)
    (hy : (names ys).Nodup) (hQx : All (fun x => ¬ Q x.filename) xs)
    (hQy : All (fun x => Q x.filename) ys) : (names (xs ++ ys)).Nodup := by
  rw [names_append]
  exact hx.append hy fun n hn hn' =>
    all_names (¬ Q ·) hQx n hn (all_names Q hQy n hn')

/-- **A loop writes no name twice** where the names show which round has written them. -/
theorem nodup_loop (key : Name → Option Part) (hcs : cs.Nodup)
    (hbody : ∀ c ∈ cs, (names (body c)).Nodup)
    (hkey : ∀ c ∈ cs, All (fun x => key x.filename = some (.primitive c)) (body c)) :
    (names (loop cs body)).Nodup := by
  rw [names, loop, List.map_flatMap, List.nodup_flatMap]
  refine ⟨hbody, hcs.imp_of_mem fun {c c'} hc hc' hne n hn hn' => hne ?_⟩
  have hsame : some (Part.primitive c) = some (.primitive c') :=
    (all_names (key · = _) (hkey c hc) n hn).symm.trans (all_names (key · = _) (hkey c' hc') n hn')
  cases hsame
  rfl

theorem nodup_loop_single (hcs : cs.length ≤ 1) (hbody : ∀ c ∈ cs, (names (body c)).Nodup) :
    (names (loop cs body)).Nodup := by
  match cs, hcs with
  | [], _ => exact List.nodup_nil
  | [c], _ => simpa [loop] using hbody c

end

/-! ## No name twice -/

/-- No table repeats a name, tables that are gone through together share none, and there
is at most one store, one put and one topology. -/
structure Primitives.Separate (T : Primitives) : Prop where
  collectives : (T.coll ++ T.icoll ++ T.ibarrier ++ T.pcoll ++ T.tcoll4topo).Nodup
  operators : (T.coll4op ++ T.icoll4op).Nodup
  roots : (T.coll4root ++ T.icoll4root).Nodup
  tools : T.tcoll.Nodup
  colors : T.tcoll4color.Nodup
  topology : T.tcoll4topo.length ≤ 1
  allsend : T.allsend.Nodup
  allrecv : T.allrecv.Nodup
  messages : (T.send ++ T.ssend ++ T.bsend ++ T.isend ++ T.psend ++ T.recv ++ T.irecv ++
    T.precv ++ T.probe).Nodup
  epochs : (T.epoch ++ T.put ++ T.get).Nodup
  rma : T.rma.Nodup
  accesses : (T.put ++ T.get ++ T.store ++ T.load ++ T.loadstore).Nodup
  put : T.put.length ≤ 1
  store : T.store.length ≤ 1
  /-- it is written as such in the names -/
  stored : Primitive.store ∉ T.get ++ T.put

theorem primitives_separate : primitives.Separate := by
  constructor <;> decide

/-- Tables of some that have no repetitions. -/
theorem nodup_of_count {l l' : List Primitive} (h : l.Nodup) (hle : ∀ c, l'.count c ≤ l.count c) :
    l'.Nodup :=
  List.nodup_iff_count_le_one.mpr fun c => (hle c).trans (List.nodup_iff_count_le_one.mp h c)

section

variable {T : Primitives} (h : T.Separate)

include h

theorem Primitives.Separate.colls : (T.coll ++ T.icoll ++ T.ibarrier).Nodup :=
  nodup_of_count h.collectives fun c => by simp only [List.count_append]; omega

theorem Primitives.Separate.sends : (T.send ++ T.isend).Nodup :=
  nodup_of_count h.messages fun c => by simp only [List.count_append]; omega

theorem Primitives.Separate.recvs : (T.recv ++ T.irecv).Nodup :=
  nodup_of_count h.messages fun c => by simp only [List.count_append]; omega

theorem Primitives.Separate.epoch : T.epoch.Nodup :=
  nodup_of_count h.epochs fun c => by simp only [List.count_append]; omega

theorem collArg_nodup : (names (collArg T)).Nodup := by
  have hcoll : (T.coll ++ T.icoll).Nodup :=
    nodup_of_count h.collectives fun c => by simp only [List.count_append]; omega
  refine nodup_append (·.family ∈ [.CollOpMatching, .CollOpNull]) (nodup_append
    (·.family ∈ [.CollDataMatching, .CollDataNull]) (nodup_append
    (·.family ∈ [.CollRootMatching, .CollRootNeg, .CollRootTooLarge]) ?_ ?_ ?_ ?_) ?_ ?_ ?_)
    ?_ ?_ ?_
  · exact nodup_loop (·.parts[0]?) h.colors (by simp) (by simp)
  · exact nodup_loop (·.parts[0]?) h.roots (by simp) (by simp)
  · simp
  · simp
  · refine nodup_loop (·.parts[0]?) hcoll (fun c _ => ?_) (by simp)
    split <;> simp
  · simp
  · simp
  · exact nodup_loop (·.parts[0]?) h.operators (by simp) (by simp)
  · simp
  · simp

theorem collCom_nodup : (names (collCom T)).Nodup :=
  nodup_loop (·.parts[0]?) h.colls (by simp) (by simp)

theorem collLocalConcurrency_nodup : (names (collLocalConcurrency T)).Nodup := by
  have hcolls : (T.icoll ++ T.pcoll).Nodup :=
    nodup_of_count h.collectives fun c => by simp only [List.count_append]; omega
  exact nodup_loop (·.parts[0]?) hcolls (by simp) (by simp)

theorem collMatching_nodup : (names (collMatching T)).Nodup := by
  refine nodup_loop (·.parts[0]?) h.colls (fun c1 _ => ?_) (by simp)
  refine nodup_append (·.parts[1]? = some .none) ?_ (by simp) (by simp) (by simp)
  -- the second collective is the first one, where only one is named
  refine nodup_loop (fun n => n.parts[1]?.or n.parts[0]?) h.colls (fun c2 _ => ?_) ?_
  · split <;> simp
  · simp +contextual

theorem collP2PMatching_nodup : (names (collP2PMatching T)).Nodup := by
  have hcoll : T.coll.Nodup :=
    nodup_of_count h.collectives fun c => by simp only [List.count_append]; omega
  refine nodup_loop (·.parts[1]?) h.sends (fun s _ => ?_) (by simp)
  refine nodup_loop (·.parts[0]?) h.recvs (fun r _ => ?_) (by simp)
  exact nodup_loop (·.parts[2]?) hcoll (by simp) (by simp)

theorem collTopo_nodup : (names (collTopo T)).Nodup :=
  nodup_loop_single h.topology (by simp)

theorem missingWaitandStart_nodup : (names (missingWaitandStart T)).Nodup := by
  have hsends : (T.isend ++ T.psend).Nodup :=
    nodup_of_count h.messages fun c => by simp only [List.count_append]; omega
  have hrecvs : (T.irecv ++ T.precv).Nodup :=
    nodup_of_count h.messages fun c => by simp only [List.count_append]; omega
  have hcolls : (T.pcoll ++ T.icoll ++ T.ibarrier).Nodup :=
    nodup_of_count h.collectives fun c => by simp only [List.count_append]; omega
  refine nodup_append (·.parts.length = 2) ?_ ?_ (by simp) (by simp)
  · refine nodup_loop (·.parts[0]?) hsends (fun s _ => ?_) (by simp)
    refine nodup_loop (·.parts[1]?) hrecvs (fun r _ => ?_) (by simp)
    split <;> simp
  · refine nodup_loop (·.parts[0]?) hcolls (fun c _ => ?_) (by simp)
    split <;> simp

theorem p2pArg_nodup : (names (p2pArg T)).Nodup := by
  refine nodup_append (·.family ∈ [.P2PTagMatching, .P2PInvalidTag]) ?_ ?_ (by simp) (by simp)
  · refine nodup_loop (·.parts[0]?) h.allsend (fun p1 _ => ?_) (by simp)
    exact nodup_loop (·.parts[1]?) h.allrecv (by simp) (by simp)
  · refine nodup_loop (·.parts[0]?) h.allsend (fun p1 _ => ?_) (by simp)
    exact nodup_loop (·.parts[1]?) h.allrecv (by simp) (by simp)

theorem p2pCom_nodup : (names (p2pCom T)).Nodup := by
  have hsends : (T.send ++ T.isend ++ T.psend).Nodup :=
    nodup_of_count h.messages fun c => by simp only [List.count_append]; omega
  have hrecvs : (T.recv ++ T.irecv ++ T.precv).Nodup :=
    nodup_of_count h.messages fun c => by simp only [List.count_append]; omega
  refine nodup_loop (·.parts[0]?) hsends (fun p1 _ => ?_) (by simp)
  exact nodup_loop (·.parts[1]?) hrecvs (by simp) (by simp)

theorem p2pLocalConcurrency_nodup : (names (p2pLocalConcurrency T)).Nodup := by
  have hsends : (T.send ++ T.isend ++ T.psend).Nodup :=
    nodup_of_count h.messages fun c => by simp only [List.count_append]; omega
  have hrecvs : (T.irecv ++ T.precv ++ T.recv).Nodup :=
    nodup_of_count h.messages fun c => by simp only [List.count_append]; omega
  refine nodup_loop (·.parts[1]?) hsends (fun s _ => ?_) (by simp)
  refine nodup_loop (·.parts[0]?) hrecvs (fun r _ => ?_) (by simp)
  -- at most one of the conditions holds
  rw [List.append_assoc] at hsends
  have hs : s ∈ T.send → s ∉ T.isend ++ T.psend := fun hs => List.disjoint_of_nodup_append hsends hs
  have hr : r ∈ T.irecv ++ T.precv → r ∉ T.recv := fun hr => List.disjoint_of_nodup_append hrecvs hr
  simp only [names_append, names_ite]
  split_ifs with h₁ h₂ h₃ h₃ h₂ h₃ h₃
  · exact absurd h₂.1 (hs h₁.1)
  · exact absurd h₂.1 (hs h₁.1)
  · exact absurd h₃.1 (hs h₁.1)
  · exact List.nodup_singleton _
  · exact absurd h₂.2 (hr h₃.2)
  · exact List.nodup_singleton _
  · exact List.nodup_singleton _
  · exact List.nodup_nil

theorem p2pMatchingANYSRC_nodup : (names (p2pMatchingANYSRC T)).Nodup := by
  refine nodup_loop (·.parts[1]?) h.sends (fun s _ => ?_) (by simp)
  exact nodup_loop (·.parts[0]?) h.recvs (by simp) (by simp)

theorem p2pMatching_nodup : (names (p2pMatching T)).Nodup := by
  have hsingles : (T.send ++ T.ssend ++ T.bsend ++ T.recv ++ T.irecv ++ T.isend).Nodup :=
    nodup_of_count h.messages fun c => by simp only [List.count_append]; omega
  have hpairs : (T.recv ++ T.irecv ++ (T.send ++ T.isend ++ T.ssend ++ T.bsend)).Nodup :=
    nodup_of_count h.messages fun c => by simp only [List.count_append]; omega
  obtain ⟨hrecvs, hsends, hapart⟩ := List.nodup_append.mp hpairs
  refine nodup_append (fun n => n.parts[0]? ≠ n.parts[1]? ∧ n.parts.length = 3) ?_ ?_ (by simp) ?_
  · exact nodup_loop (·.parts[0]?) hsingles (by simp) (by simp)
  · refine nodup_loop (·.parts[1]?) hsends (fun s _ => ?_) (by simp)
    exact nodup_loop (·.parts[0]?) h.recvs (by simp) (by simp)
  · rw [all_loop]
    intro s hs
    rw [all_loop]
    intro r hr
    simpa using hapart r hr s hs

theorem p2pProbe_nodup : (names (p2pProbe T)).Nodup := by
  have hprobe : T.probe.Nodup :=
    nodup_of_count h.messages fun c => by simp only [List.count_append]; omega
  refine nodup_loop (·.parts[0]?) hprobe (fun p _ => ?_) (by simp)
  refine nodup_loop (·.parts[2]?) h.sends (fun s _ => ?_) (by simp)
  exact nodup_loop (·.parts[1]?) h.recvs (by simp) (by simp)

theorem rmaGlobalConcurrency_nodup : (names (rmaGlobalConcurrency T)).Nodup := by
  have hops : (T.get ++ T.put).Nodup :=
    nodup_of_count h.epochs fun c => by simp only [List.count_append]; omega
  refine nodup_loop (·.parts[0]?) h.epoch (fun e _ => ?_) (by simp)
  refine nodup_loop_single h.put fun p1 h1 => ?_
  have hstored : ∀ p ∈ T.get ++ T.put, p ≠ .store := fun p hp heq => h.stored (heq ▸ hp)
  refine nodup_loop (fun n => if n.parts[2]? = some (.primitive .store) then n.parts[1]?
    else n.parts[2]?) hops (fun p2 h2 => ?_) fun p2 h2 => ?_
  · simp [hstored p2 h2]
  · simp [hstored p2 h2]

theorem rmaInvalidArg_nodup : (names (rmaInvalidArg T)).Nodup := by
  refine nodup_loop (·.parts[0]?) h.epoch (fun e _ => ?_) (by simp)
  exact nodup_loop (·.parts[1]?) h.rma (by simp) (by simp)

theorem rmaLocalConcurrency_nodup : (names (rmaLocalConcurrency T)).Nodup := by
  have hget : T.get.Nodup :=
    nodup_of_count h.accesses fun c => by simp only [List.count_append]; omega
  have hops : (T.put ++ T.store ++ T.load ++ T.get ++ T.loadstore).Nodup :=
    nodup_of_count h.accesses fun c => by simp only [List.count_append]; omega
  -- the call of the window is the second one in the files that are correct
  let call : Name → Option Part := fun n =>
    if n.parts.length = 4 ∧ n.parts[3]? = some .ok then n.parts[2]? else n.parts[1]?
  refine nodup_append (fun n => ∃ p ∈ T.put, call n = some (.primitive p)) ?_ ?_ ?_ ?_
  · refine nodup_loop (·.parts[0]?) h.epoch (fun e _ => ?_) (by simp)
    refine nodup_loop call hget (fun p1 _ => ?_) (by simp [call])
    refine nodup_append (·.parts.length = 3) ?_ (by simp) (by simp) (by simp)
    refine nodup_loop (fun n => if n.parts[3]? = some .ok then n.parts[1]? else n.parts[2]?) hops
      (fun p2 _ => ?_) (by simp)
    split <;> simp
  · refine nodup_loop (·.parts[0]?) h.epoch (fun e _ => ?_) (by simp)
    refine nodup_loop_single h.put fun p1 _ => ?_
    exact nodup_loop_single h.store (by simp)
  · have hputs : (T.get ++ T.put).Nodup :=
      nodup_of_count h.accesses fun c => by simp only [List.count_append]; omega
    obtain ⟨-, -, hapart⟩ := List.nodup_append.mp hputs
    simp +contextual [call, hapart]
  · simp +contextual [call]

theorem rmaP2PGlobalConcurrency_nodup : (names (rmaP2PGlobalConcurrency T)).Nodup := by
  have hops : (T.put ++ T.get).Nodup :=
    nodup_of_count h.epochs fun c => by simp only [List.count_append]; omega
  refine nodup_loop (·.parts[0]?) hops (fun p _ => ?_) (by simp)
  refine nodup_loop (·.parts[1]?) h.sends (fun s _ => ?_) (by simp)
  exact nodup_loop (·.parts[2]?) h.recvs (by simp) (by simp)

theorem resleak_nodup : (names (resleak T)).Nodup :=
  nodup_loop (·.parts[0]?) h.tools (by simp) (by simp)

/-- **A generator writes a file once.** -/
theorem codes_nodup (g : Generator) : (names (g.codes T)).Nodup := by
  cases g with
  | CollArg => exact collArg_nodup h
  | CollCom => exact collCom_nodup h
  | CollLocalConcurrency => exact collLocalConcurrency_nodup h
  | CollMatching => exact collMatching_nodup h
  | CollP2PMatching => exact collP2PMatching_nodup h
  | CollTopo => exact collTopo_nodup h
  | MissingWaitandStart => exact missingWaitandStart_nodup h
  | P2PArg => exact p2pArg_nodup h
  | P2PCom => exact p2pCom_nodup h
  | P2PLocalConcurrency => exact p2pLocalConcurrency_nodup h
  | P2PMatchingANYSRC => exact p2pMatchingANYSRC_nodup h
  | P2PMatching => exact p2pMatching_nodup h
  | P2PProbe => exact p2pProbe_nodup h
  | RMAGlobalConcurrency => exact rmaGlobalConcurrency_nodup h
  | RMAInvalidArg => exact rmaInvalidArg_nodup h
  | RMALocalConcurrency => exact rmaLocalConcurrency_nodup h
  | RMAP2PGlobalConcurrency => exact rmaP2PGlobalConcurrency_nodup h
  | Resleak => exact resleak_nodup h

end

/-! ## Nor by two generators -/

/-- The start of a name, the number of its parts, and whether it says that the code is correct. -/
def Name.shape (n : Name) : Family × Nat × Bool := (n.family, n.parts.length, n.parts.contains .ok)

def Generator.shapes : Generator → List (Family × Nat × Bool)
  | CollArg =>
    [(.CollInvalidOtherArg, 2, false), (.CollRootMatching, 2, false), (.CollRootNeg, 2, false),
     (.CollRootTooLarge, 2, false), (.CollDataMatching, 2, false), (.CollDataNull, 2, false),
     (.CollOpMatching, 2, false), (.CollOpNull, 2, false)]
  | CollCom => [(.CollComMatching, 2, true), (.CollComMatching, 2, false), (.CollComNull, 2, false)]
  | CollLocalConcurrency => [(.CollLocalConcurrency, 2, false)]
  | CollMatching =>
    [(.CollCorrect, 2, false), (.CollCorrect, 1, false), (.CollCallOrder, 3, false),
     (.CollCallOrder, 3, true)]
  | CollP2PMatching => [(.CollP2PCallMatching, 4, false)]
  | CollTopo =>
    [(.CollCorrect, 2, true), (.CollInvalidCom, 2, false), (.CollComNull, 2, false),
     (.CollInvalidDim, 2, false)]
  | MissingWaitandStart =>
    [(.P2PCallMatching, 3, true), (.MissingWait, 3, false), (.MissingStart, 3, false),
     (.RequestLeak, 3, false), (.MissingWait, 2, false), (.MissingStart, 2, false),
     (.RequestLeak, 2, false)]
  | P2PArg =>
    [(.P2PDataMatching, 3, false), (.P2PDatatypeNull, 3, false), (.P2PInvalidDatatype, 3, false),
     (.P2PTagMatching, 3, false), (.P2PInvalidTag, 3, false), (.P2PTagMatching, 3, true)]
  | P2PCom =>
    [(.P2PComMatching, 3, false), (.P2PInvalidCom, 3, false), (.P2PInvalidDest, 3, false),
     (.P2PInvalidSrc, 3, false)]
  | P2PLocalConcurrency => [(.P2PLocalConcurrency, 3, false)]
  | P2PMatchingANYSRC => [(.P2PMessageRace, 3, false)]
  | P2PMatching => [(.P2PCallMatching, 2, false), (.P2PCallMatching, 3, false)]
  | P2PProbe => [(.P2PCallMatching, 4, false), (.P2PCallMatching, 4, true)]
  | RMAGlobalConcurrency => [(.GlobalConcurrency, 4, false)]
  | RMAInvalidArg => [(.RMADatatypeNull, 3, false), (.RMAInvalidDatatype, 3, false)]
  | RMALocalConcurrency =>
    [(.MBI_LocalConcurrency, 4, false), (.MBI_LocalConcurrency, 4, true),
     (.MBI_LocalConcurrency, 3, true)]
  | RMAP2PGlobalConcurrency => [(.GlobalConcurrency, 4, false)]
  | Resleak => [(.CallParamCorrect, 1, false), (.Resleak, 2, false), (.Resleak_multiple, 2, false)]

theorem codes_shapes (T : Primitives) (g : Generator) :
    All (·.filename.shape ∈ g.shapes) (g.codes T) := by
  cases g <;>
    simp [Generator.codes, Generator.shapes, Name.shape, collArg, collCom, collLocalConcurrency,
      collMatching, collP2PMatching, collTopo, missingWaitandStart, p2pArg, p2pCom,
      p2pLocalConcurrency, p2pMatchingANYSRC, p2pMatching, p2pProbe, rmaGlobalConcurrency,
      rmaInvalidArg, rmaLocalConcurrency, rmaP2PGlobalConcurrency, resleak]

/-- **The end of the name tells whether an error is expected.** -/
theorem codes_marked (T : Primitives) (g : Generator) :
    All (fun x => x.replace.expect = .ERROR ↔ x.filename.parts.getLast? = some .nok)
      (g.codes T) := by
  cases g <;>
    simp [Generator.codes, error, Announced.expect, collArg, collCom, collLocalConcurrency,
      collMatching, collP2PMatching, collTopo, missingWaitandStart, p2pArg, p2pCom,
      p2pLocalConcurrency, p2pMatchingANYSRC, p2pMatching, p2pProbe, rmaGlobalConcurrency,
      rmaInvalidArg, rmaLocalConcurrency, rmaP2PGlobalConcurrency, resleak]

/-- The generators that share a shape. -/
def Beside (g g' : Generator) : Prop :=
  g = .CollCom ∧ g' = .CollTopo ∨ g = .RMAGlobalConcurrency ∧ g' = .RMAP2PGlobalConcurrency

instance (g g' : Generator) : Decidable (Beside g g') := inferInstanceAs (Decidable (_ ∨ _))

theorem shapes_disjoint : ∀ g ∈ Generator.all, ∀ g' ∈ Generator.all, g ≠ g' → ¬ Beside g g' →
    ¬ Beside g' g → ∀ s ∈ g.shapes, s ∉ g'.shapes := by
  decide +kernel

/-- The first part of a name. -/
def FirstIn (cs : List Primitive) (n : Name) : Prop := ∃ c ∈ cs, n.parts[0]? = some (.primitive c)

theorem firstIn_disjoint {cs cs' : List Primitive} (h : cs.Disjoint cs') {n : Name}
    (hn : FirstIn cs n) : ¬ FirstIn cs' n := by
  rintro ⟨c', hc', hfirst'⟩
  obtain ⟨c, hc, hfirst⟩ := hn
  obtain rfl : c = c' := by simpa using hfirst.symm.trans hfirst'
  exact h hc hc'

section

variable {T : Primitives} (h : T.Separate)

include h

theorem beside_disjoint {g g' : Generator} (hbeside : Beside g g') {n : Name}
    (hn : n ∈ names (g.codes T)) : n ∉ names (g'.codes T) := by
  intro hn'
  rcases hbeside with ⟨rfl, rfl⟩ | ⟨rfl, rfl⟩
  · have hcolls : ((T.coll ++ T.icoll ++ T.ibarrier) ++ T.tcoll4topo).Nodup :=
      nodup_of_count h.collectives fun c => by simp only [List.count_append]; omega
    have hfirst :
        All (fun x => FirstIn (T.coll ++ T.icoll ++ T.ibarrier) x.filename) (collCom T) := by
      simp +contextual [collCom, FirstIn]
    have hfirst' : All (fun x => x.filename.family = .CollComNull →
        FirstIn T.tcoll4topo x.filename) (collTopo T) := by
      simp +contextual [collTopo, FirstIn]
    have hfamily :
        All (fun x => x.filename.family ∈ [.CollComMatching, .CollComNull]) (collCom T) := by
      simp [collCom]
    have hfamily' : All (fun x => x.filename.family ≠ .CollComMatching) (collTopo T) := by
      simp [collTopo]
    have hnull : n.family = .CollComNull := by
      have hother := all_names (·.family ≠ _) hfamily' n hn'
      simpa [hother] using all_names (·.family ∈ _) hfamily n hn
    have hlast := all_names (fun n => n.family = .CollComNull → FirstIn T.tcoll4topo n) hfirst' n
      hn' hnull
    exact firstIn_disjoint (List.disjoint_of_nodup_append hcolls) (all_names _ hfirst n hn) hlast
  · have hops : (T.epoch ++ (T.put ++ T.get)).Nodup := by
      rw [← List.append_assoc]
      exact h.epochs
    have hfirst : All (fun x => FirstIn T.epoch x.filename) (rmaGlobalConcurrency T) := by
      simp +contextual [rmaGlobalConcurrency, FirstIn]
    have hfirst' : All (fun x => FirstIn (T.put ++ T.get) x.filename)
        (rmaP2PGlobalConcurrency T) := by
      simp +contextual [rmaP2PGlobalConcurrency, FirstIn]
    exact firstIn_disjoint (List.disjoint_of_nodup_append hops) (all_names _ hfirst n hn)
      (all_names _ hfirst' n hn')

/-- **No two generators write the same file.** -/
theorem codes_disjoint {g g' : Generator} (hne : g ≠ g') {n : Name}
    (hn : n ∈ names (g.codes T)) : n ∉ names (g'.codes T) := by
  by_cases hbeside : Beside g g'
  · exact beside_disjoint h hbeside hn
  by_cases hbeside' : Beside g' g
  · exact fun hn' => beside_disjoint h hbeside' hn' hn
  · intro hn'
    exact shapes_disjoint g (Generator.mem_all g) g' (Generator.mem_all g') hne hbeside hbeside' _
      (all_names (·.shape ∈ _) (codes_shapes T g) n hn)
      (all_names (·.shape ∈ _) (codes_shapes T g') n hn')

/-- All that the generators write, in the order of a listing. -/
theorem catalogue_nodup {generators : List Generator} (hnodup : generators.Nodup) :
    (names (generators.flatMap (·.codes T))).Nodup := by
  rw [names, List.map_flatMap, List.nodup_flatMap]
  refine ⟨fun g _ => codes_nodup h g, hnodup.imp fun {g g'} hne n hn hn' => ?_⟩
  exact codes_disjoint h hne hn hn'

end

end MpiBugs.Catalogue
