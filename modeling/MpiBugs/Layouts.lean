import MpiBugs.Buffers
import Mathlib.Algebra.Group.Int.Defs
import Mathlib.Algebra.Group.Nat.Defs
import Mathlib.Data.List.FinRange
import Mathlib.Logic.Function.Basic

/-!
# Layouts of the vector collectives

The loops with which `generator_utils.py` fills the counts and the displacements
of `MPI_Alltoallv`, `MPI_Allgatherv` and their nonblocking versions. An array of
`malloc(dbs)` has an element for each process; the numbers are those of the
integers, and up to 2^28 processes these are the ones that C computes
(`values_fit`).

* `fill_eq`: such a loop stores the value of each index;
* `tiles_ascending`, `tiles_descending`: segments of two elements, in the order
  of the processes or in the other one, tile a buffer;
* `layouts_sound`: the segments of all four calls.
-/

namespace MpiBugs.Layouts

open Buffers

/-! ## Segments -/

section Segments

variable {n : Nat}

/-- Element `k` is in the segment of process `i`. -/
def InSegment (displs counts : Fin n → Int) (i : Fin n) (k : Int) : Prop :=
  displs i ≤ k ∧ k < displs i + counts i

/-- The segments lie in a buffer of this size. -/
def Inside (displs counts : Fin n → Int) (size : Int) : Prop :=
  ∀ i, 0 ≤ displs i ∧ 0 ≤ counts i ∧ displs i + counts i ≤ size

/-- No element is in two segments. -/
def Apart (displs counts : Fin n → Int) : Prop :=
  ∀ i j k, InSegment displs counts i k → InSegment displs counts j k → i = j

/-- The segments lie in the buffer, are apart, and leave no element out. -/
structure Tiles (displs counts : Fin n → Int) (size : Int) : Prop where
  inside : Inside displs counts size
  apart : Apart displs counts
  covers : ∀ k, 0 ≤ k → k < size → ∃ i, InSegment displs counts i k

/-- **Segments of two elements in ascending order tile a buffer.** -/
theorem tiles_ascending :
    Tiles (fun i : Fin n => (i : Int) * 2) (fun _ => 2) (2 * n) := by
  constructor
  · intro i
    have hi := i.isLt
    simp only
    omega
  · intro i j k hi hj
    simp only [InSegment] at hi hj
    ext
    omega
  · intro k h0 hk
    refine ⟨⟨(k / 2).toNat, by omega⟩, ?_⟩
    simp only [InSegment]
    omega

/-- **In descending order they do as well.** -/
theorem tiles_descending :
    Tiles (fun i : Fin n => ((n : Int) - ((i : Int) + 1)) * 2) (fun _ => 2) (2 * n) := by
  constructor
  · intro i
    have hi := i.isLt
    simp only
    omega
  · intro i j k hi hj
    simp only [InSegment] at hi hj
    ext
    omega
  · intro k h0 hk
    refine ⟨⟨(n - 1 - k / 2).toNat, by omega⟩, ?_⟩
    simp only [InSegment]
    omega

/-- Segments of one element, with gaps. -/
theorem apart_gathered :
    Inside (fun i : Fin n => 2 * ((n : Int) - ((i : Int) + 1))) (fun _ => 1) (2 * n) ∧
      Apart (fun i : Fin n => 2 * ((n : Int) - ((i : Int) + 1))) fun _ => 1 := by
  constructor
  · intro i
    have hi := i.isLt
    simp only
    omega
  · intro i j k hi hj
    simp only [InSegment] at hi hj
    ext
    omega

end Segments

/-! ## Arrays filled by a loop -/

/-- `for (int i = 0; i < nprocs; i++) a[i] = f(i);` -/
def fill {n : Nat} (f a : Fin n → Int) : Fin n → Int :=
  (List.finRange n).foldl (fun a i => Function.update a i (f i)) a

/-- After some rounds, the elements of these rounds are stored. -/
theorem fill_rounds {n : Nat} (f a : Fin n → Int) (l : List (Fin n)) (i : Fin n) :
    l.foldl (fun a i => Function.update a i (f i)) a i = if i ∈ l then f i else a i := by
  induction l using List.reverseRecOn with
  | nil => rfl
  | append_singleton l j ih =>
    rw [List.foldl_append, List.foldl_cons, List.foldl_nil]
    by_cases h : i = j
    · subst h
      simp
    · rw [Function.update_of_ne h, ih]
      simp [h]

/-- **The loop stores the value of each index.** -/
theorem fill_eq {n : Nat} (f a : Fin n → Int) : fill f a = f := by
  funext i
  rw [fill, fill_rounds, if_pos (List.mem_finRange i)]

/-! ## The four calls -/

section Calls

variable (nprocs : Nat)

/-- The arrays of `MPI_Alltoallv`. -/
structure Vectors where
  scounts : Fin nprocs → Int
  rcounts : Fin nprocs → Int
  sdispls : Fin nprocs → Int
  rdispls : Fin nprocs → Int

/-- The arrays of `MPI_Allgatherv`. -/
structure Gathered where
  rcounts : Fin nprocs → Int
  displs : Fin nprocs → Int

variable {nprocs}

/-- A round of the loop of `MPI_Alltoallv`. -/
def alltoallvRound (a : Vectors nprocs) (i : Fin nprocs) : Vectors nprocs where
  scounts := Function.update a.scounts i 2
  rcounts := Function.update a.rcounts i 2
  sdispls := Function.update a.sdispls i (((nprocs : Int) - ((i : Nat) + 1)) * 2)
  rdispls := Function.update a.rdispls i ((i : Nat) * 2)

/-- A round of the loop of `MPI_Ialltoallv`. -/
def ialltoallvRound (a : Vectors nprocs) (i : Fin nprocs) : Vectors nprocs where
  scounts := Function.update a.scounts i 2
  rcounts := Function.update a.rcounts i 2
  sdispls := Function.update a.sdispls i (((nprocs : Int) - ((i : Nat) + 1)) * 2)
  rdispls := Function.update a.rdispls i ((i : Nat) * 2)

/-- A round of the loop of `MPI_Allgatherv`. -/
def allgathervRound (a : Gathered nprocs) (i : Fin nprocs) : Gathered nprocs where
  rcounts := Function.update a.rcounts i 1
  displs := Function.update a.displs i (2 * ((nprocs : Int) - ((i : Nat) + 1)))

/-- A round of the loop of `MPI_Iallgatherv`. -/
def iallgathervRound (a : Gathered nprocs) (i : Fin nprocs) : Gathered nprocs where
  rcounts := Function.update a.rcounts i 1
  displs := Function.update a.displs i (2 * ((nprocs : Int) - ((i : Nat) + 1)))

/-- The arrays after the loop, whatever `malloc` has left in them. -/
def initAlltoallv (a : Vectors nprocs) : Vectors nprocs :=
  (List.finRange nprocs).foldl alltoallvRound a

def initIalltoallv (a : Vectors nprocs) : Vectors nprocs :=
  (List.finRange nprocs).foldl ialltoallvRound a

def initAllgatherv (a : Gathered nprocs) : Gathered nprocs :=
  (List.finRange nprocs).foldl allgathervRound a

def initIallgatherv (a : Gathered nprocs) : Gathered nprocs :=
  (List.finRange nprocs).foldl iallgathervRound a

/-! ## What the loops store -/

theorem initAlltoallv_eq (a : Vectors nprocs) :
    initAlltoallv a = ⟨fill (fun _ => 2) a.scounts, fill (fun _ => 2) a.rcounts,
      fill (fun i => ((nprocs : Int) - ((i : Nat) + 1)) * 2) a.sdispls,
      fill (fun i => (i : Nat) * 2) a.rdispls⟩ := by
  unfold initAlltoallv fill
  generalize List.finRange nprocs = l
  induction l generalizing a with
  | nil => rfl
  | cons i l ih => exact ih (alltoallvRound a i)

theorem initAllgatherv_eq (a : Gathered nprocs) :
    initAllgatherv a = ⟨fill (fun _ => 1) a.rcounts,
      fill (fun i => 2 * ((nprocs : Int) - ((i : Nat) + 1))) a.displs⟩ := by
  unfold initAllgatherv fill
  generalize List.finRange nprocs = l
  induction l generalizing a with
  | nil => rfl
  | cons i l ih => exact ih (allgathervRound a i)

/-- **The copied loops do the same.** -/
theorem nonblocking_eq : @initIalltoallv nprocs = initAlltoallv ∧
    @initIallgatherv nprocs = initAllgatherv := ⟨rfl, rfl⟩

end Calls

/-- `sizeof(int)*nprocs` -/
def dbs (nprocs : Nat) : Nat := sizeofInt * nprocs

/-- The elements in so many bytes. -/
def ints (bytes : Nat) : Nat := bytes / sizeofInt

/-- The arrays have an element for each process, the buffers two. -/
theorem ints_dbs (nprocs : Nat) : ints (dbs nprocs) = nprocs ∧ ints (dbs nprocs * 2) = 2 * nprocs := by
  simp only [ints, dbs, sizeofInt]
  omega

/-- No number of these programs is too large for an `int`. -/
theorem values_fit {nprocs : Nat} (h : nprocs < 2 ^ 28) (i : Fin nprocs) :
    dbs nprocs * 2 < 2 ^ 31 ∧ 0 ≤ ((nprocs : Int) - ((i : Nat) + 1)) * 2 ∧
      ((nprocs : Int) - ((i : Nat) + 1)) * 2 < 2 ^ 31 ∧ ((i : Nat) : Int) * 2 < 2 ^ 31 := by
  have hi := i.isLt
  simp only [dbs, sizeofInt]
  omega

/-- What an all-to-all has to satisfy: each process lays out its segments in its
buffers, and the counts of every two of them match. -/
structure Exchanges {nprocs : Nat} (a : Fin nprocs → Vectors nprocs) : Prop where
  send : ∀ r, Tiles (a r).sdispls (a r).scounts (ints (dbs nprocs * 2))
  recv : ∀ r, Tiles (a r).rdispls (a r).rcounts (ints (dbs nprocs * 2))
  counts : ∀ i j, (a i).scounts j = (a j).rcounts i

/-- What a gathering has to satisfy. -/
structure Gathers {nprocs : Nat} (a : Gathered nprocs) : Prop where
  inside : Inside a.displs a.rcounts (ints (dbs nprocs * 2))
  apart : Apart a.displs a.rcounts

theorem alltoallv_exchanges {nprocs : Nat} (a : Fin nprocs → Vectors nprocs) :
    Exchanges fun r => initAlltoallv (a r) := by
  have hsize : ((ints (dbs nprocs * 2) : Nat) : Int) = 2 * nprocs := by
    rw [(ints_dbs nprocs).2]
    rfl
  constructor
  · intro r
    simp only [initAlltoallv_eq, fill_eq, hsize]
    exact tiles_descending
  · intro r
    simp only [initAlltoallv_eq, fill_eq, hsize]
    exact tiles_ascending
  · intro i j
    simp only [initAlltoallv_eq, fill_eq]

theorem allgatherv_gathers {nprocs : Nat} (a : Gathered nprocs) : Gathers (initAllgatherv a) := by
  have hsize : ((ints (dbs nprocs * 2) : Nat) : Int) = 2 * nprocs := by
    rw [(ints_dbs nprocs).2]
    rfl
  constructor
  · simp only [initAllgatherv_eq, fill_eq, hsize]
    exact apart_gathered.1
  · simp only [initAllgatherv_eq, fill_eq]
    exact apart_gathered.2

/-- **The layouts of the four calls are sound**, for every number of processes. -/
theorem layouts_sound (nprocs : Nat) (a : Fin nprocs → Vectors nprocs) (g : Gathered nprocs) :
    Exchanges (fun r => initAlltoallv (a r)) ∧ Exchanges (fun r => initIalltoallv (a r)) ∧
      Gathers (initAllgatherv g) ∧ Gathers (initIallgatherv g) := by
  rw [nonblocking_eq.1, nonblocking_eq.2]
  exact ⟨alltoallv_exchanges a, alltoallv_exchanges a, allgatherv_gathers g, allgatherv_gathers g⟩

end MpiBugs.Layouts
