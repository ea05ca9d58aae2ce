import Caudium.Lib.File
import Mathlib.Data.List.Sort

/-!
# `PDB.Bucket`: blocks of one size

A bucket is a file of equal blocks with a free list in front of it.
`allocateEntry` takes the first free block, or the next one past the end
(`lastBlock`); `freeEntry` puts a block on the free list and stamps it with
`FREE`; `setEntry` writes a string that fits. Allocations and frees are logged
('A' / 'F'), and `restoreFromLog` rebuilds the free list and the end of the
file from a saved pair `({ last_block, free_blocks })` and the records logged
after it.

The restore does not replay the log. It computes the *net effect* first (the
blocks whose last record is 'A', the blocks whose last record is 'F'), then
walks the allocated ones in ascending order, extending the file up to each and
putting the blocks it skips on the free list, and last adds the freed ones.
-/

namespace Caudium.Pdb

open Lib (Bytes pwrite pread)

/-- `class Bucket`: the fields its operations read. -/
structure Bucket where
  size : Nat
  lastBlock : Nat
  freeBlocks : List Nat
  dirty : Bool
  file : Bytes
  deriving DecidableEq, Repr

/-- A log record of a bucket: its subtype and its block. -/
inductive BucketRec where
  /-- 'A': the block was handed out. -/
  | alloc (block : Nat)
  /-- 'F': the block was given back. -/
  | free (block : Nat)
  deriving DecidableEq, Repr

/-- The block a record is about. -/
def BucketRec.block : BucketRec → Nat
  | .alloc b => b
  | .free b => b

namespace Bucket

/-- `write_at`: the string goes to the start of the block. -/
def writeAt (b : Bucket) (offset : Nat) (ts : Bytes) : Bucket :=
  { b with file := pwrite b.file (offset * b.size) ts }

/-- `read_at`: the whole block. -/
def readAt (b : Bucket) (offset : Nat) : Bytes := pread b.file (offset * b.size) b.size

/-- `get_entry`. -/
def getEntry (b : Bucket) (offset : Nat) : Bytes := b.readAt offset

/-- What a freed block is stamped with: "FREE", or "F" in a block too small for it. -/
def freeMark (size : Nat) : Bytes :=
  if size < 4 then [70] else [70, 82, 69, 69]

/-- `free_entry`, with the record it logs. -/
def freeEntry (b : Bucket) (offset : Nat) : BucketRec × Bucket :=
  (.free offset,
    { b with freeBlocks := b.freeBlocks ++ [offset], dirty := true }.writeAt offset
      (freeMark b.size))

/-- `allocate_entry`: the block, the record it logs and the new state.
`free_blocks -= ({ b })` removes every occurrence of the block. -/
def allocateEntry (b : Bucket) : Nat × BucketRec × Bucket :=
  match b.freeBlocks with
  | f :: _ => (f, .alloc f, { b with freeBlocks := b.freeBlocks.filter (· ≠ f), dirty := true })
  | [] => (b.lastBlock, .alloc b.lastBlock, { b with lastBlock := b.lastBlock + 1, dirty := true })

/-- `set_entry`: refused when the string does not fit the block. -/
def setEntry (b : Bucket) (offset : Nat) (ts : Bytes) : Option Bucket :=
  if ts.length > b.size then none else some (b.writeAt offset ts)

/-- What `save_free_blocks` writes to the ".free" file. -/
def saveFreeBlocks (b : Bucket) : Nat × List Nat := (b.lastBlock, b.freeBlocks)

/-- `create`: the saved pair if there is one, the file as it stands. -/
def create (ms : Nat) (saved : Option (Nat × List Nat)) (file : Bytes) : Bucket :=
  { size := ms
    lastBlock := (saved.map Prod.fst).getD 0
    freeBlocks := (saved.map Prod.snd).getD []
    dirty := false
    file := file }

/-- `m[x] = 1` on a multiset. -/
def multisetAdd (m : List Nat) (x : Nat) : List Nat := m.insert x

/-- `m[x] = 0` on a multiset. -/
def multisetDel (m : List Nat) (x : Nat) : List Nat := m.filter (· ≠ x)

/-- The indices of a multiset, in ascending order. -/
def sortedIndices (m : List Nat) : List Nat := m.insertionSort (· ≤ ·)

/-- The first loop of `restore_from_log`: the multisets `alloced` and `freed`. -/
def netEffect (log : List BucketRec) : List Nat × List Nat :=
  log.foldl (fun acc entry =>
    match entry with
    | .alloc x => (multisetAdd acc.1 x, multisetDel acc.2 x)
    | .free x => (multisetDel acc.1 x, multisetAdd acc.2 x)) ([], [])

/-- One turn of the second loop: the allocated block `a` is past the end, or on
the free list, or neither. -/
def restoreAlloced (b : Bucket) (a : Nat) : Bucket :=
  if a ≥ b.lastBlock then
    { b with freeBlocks := b.freeBlocks ++ List.range' b.lastBlock (a - b.lastBlock)
             lastBlock := a + 1
             dirty := true }
  else if a ∈ b.freeBlocks then
    { b with freeBlocks := b.freeBlocks.filter (· ≠ a), dirty := true }
  else b

/-- The last part of `restore_from_log`: the freed blocks not yet on the list. -/
def restoreFreed (b : Bucket) (freed : List Nat) : Bucket :=
  let fr := (sortedIndices freed).filter (· ∉ b.freeBlocks)
  if fr = [] then b
  else
    fr.foldl (fun b' f => b'.writeAt f (freeMark b.size))
      { b with freeBlocks := b.freeBlocks ++ fr, dirty := true }

/-- `restore_from_log`. -/
def restoreFromLog (b : Bucket) (log : List BucketRec) : Bucket :=
  let (alloced, freed) := netEffect log
  restoreFreed ((sortedIndices alloced).foldl restoreAlloced b) freed

@[simp] theorem writeAt_size (b : Bucket) (o : Nat) (d : Bytes) : (b.writeAt o d).size = b.size :=
  rfl

/-- Everything an allocation does: the block comes off the free list, or the
file grows by one block. -/
theorem allocateEntry_cases (b : Bucket) :
    (∃ f fs, b.freeBlocks = f :: fs ∧ b.allocateEntry =
        (f, .alloc f, { b with freeBlocks := b.freeBlocks.filter (· ≠ f), dirty := true })) ∨
    (b.freeBlocks = [] ∧ b.allocateEntry = (b.lastBlock, .alloc b.lastBlock,
        { b with lastBlock := b.lastBlock + 1, dirty := true })) := by
  unfold allocateEntry
  cases hf : b.freeBlocks with
  | nil => exact Or.inr ⟨rfl, rfl⟩
  | cons f fs => exact Or.inl ⟨f, fs, rfl, rfl⟩

end Bucket

end Caudium.Pdb
