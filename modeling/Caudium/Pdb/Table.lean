import Caudium.Pdb.Bucket
import Caudium.Lib.Mapping
import Mathlib.Algebra.Group.Nat.Defs

/-!
# `PDB.Table` and `PDB.db`

A table is an index from keys to `({ bucket size, block })`; the strings live in
the buckets, which all the tables of a db share. The db keeps one log for both:
'B' records of the buckets (`BucketRec`) and 'T' records of the tables
(`TableRec`). The records are listed in the order the calls append them.

The operations act on the whole db, because a `set` that moves a value
allocates in one bucket, frees in another and writes the index. A bucket or a
table comes into being on first use, from what its files hold (`getBucket`,
`openTable`); `bucketOf` and `indexOf` read it whether or not that has
happened yet.
-/

namespace Caudium.Pdb

open Lib (Str Bytes Mapping)

/-- `index[key]`: a bucket size and a block of that bucket. -/
abbrev Entry := Nat × Nat

/-- A log record of a table. -/
inductive TableRec where
  /-- 'D': the key was deleted. -/
  | delete (key : Str)
  /-- 'C': the key was set to the entry. -/
  | change (key : Str) (entry : Entry)
  /-- 'P': the table was emptied. -/
  | purge
  deriving DecidableEq, Repr

/-- A log record of the db: of a bucket ('B'), or of a table ('T'). -/
inductive LogRec where
  | bucket (size : Nat) (entry : BucketRec)
  | table (name : Str) (entry : TableRec)
  deriving DecidableEq, Repr

/-- `class Table`: the fields its operations read. -/
structure Table where
  index : Mapping Str Entry
  dirty : Bool

/-- `class db`, with what its directory holds: the ".free" and data files of the
buckets and the ".INDEX" files of the tables. -/
structure Db where
  write : Bool
  compress : Bool
  buckets : Mapping Nat Bucket
  tables : Mapping Str Table
  log : List LogRec
  freeFiles : Mapping Nat (Nat × List Nat)
  bucketFiles : Mapping Nat Bytes
  indexFiles : Mapping Str (Mapping Str Entry)

/-- The value codec: `encode_value` / `decode_value` and, for a db in compress
mode, `Gz`. Inflating throws on a string that was not deflated. -/
structure Codec (V : Type) where
  encodeValue : V → Bytes
  decodeValue : Bytes → V
  deflate : Bytes → Bytes
  inflate : Bytes → Option Bytes

namespace Codec

variable {V : Type} (c : Codec V)

/-- The string `set` stores: deflated when that makes it shorter. -/
def toBlock (compress : Bool) (v : V) : Bytes :=
  let ts := c.encodeValue v
  if compress then
    let q := c.deflate ts
    if q.length < ts.length then q else ts
  else ts

/-- What `get` makes of a block: inflated when that does not throw. -/
def ofBlock (d : Bytes) : V := c.decodeValue ((c.inflate d).getD d)

end Codec

/-- `find_nearest_2x`, the table's `scheme`. A length past the last power falls
out of the loop and gives 0. -/
def findNearest2x (num : Nat) : Nat :=
  match (List.range' 4 28).find? (fun b => num ≤ 2 ^ b) with
  | some b => 2 ^ b
  | none => 0

/-- `Table.restore_from_log`: one record. -/
def restoreRec (index : Mapping Str Entry) : TableRec → Mapping Str Entry
  | .delete key => index.erase key
  | .change key entry => index.insert key entry
  | .purge => ∅

/-- `Table.restore_from_log`: the index it leaves. -/
def restoreFromLog (index : Mapping Str Entry) (log : List TableRec) : Mapping Str Entry :=
  log.foldl restoreRec index

/-- `tname -= "/"`. -/
def tableName (tname : Str) : Str := tname.filter (· ≠ '/')

namespace Db

/-- A db in write mode over an empty directory. -/
def fresh (compress : Bool) : Db :=
  { write := true, compress := compress, buckets := ∅, tables := ∅, log := []
    freeFiles := ∅, bucketFiles := ∅, indexFiles := ∅ }

/-- The db, its log read from here on. -/
def startLog (d : Db) : Db := { d with log := [] }

/-- `log`. -/
def logRec (d : Db) (r : LogRec) : Db := { d with log := d.log ++ [r] }

/-- The bucket of a size as it is, or as it would be opened. -/
def bucketOf (d : Db) (s : Nat) : Bucket :=
  (d.buckets.lookup s).getD
    (Bucket.create s (d.freeFiles.lookup s) ((d.bucketFiles.lookup s).getD []))

/-- The bucket object of a size has changed. -/
def putBucket (d : Db) (s : Nat) (b : Bucket) : Db := { d with buckets := d.buckets.insert s b }

/-- `get_bucket`. -/
def getBucket (d : Db) (s : Nat) : Bucket × Db :=
  match d.buckets.lookup s with
  | some b => (b, d)
  | none => (d.bucketOf s, d.putBucket s (d.bucketOf s))

/-- The table of a name as it is, or as it would be opened. -/
def tableOf (d : Db) (t : Str) : Table :=
  (d.tables.lookup t).getD { index := (d.indexFiles.lookup t).getD ∅, dirty := false }

/-- The table object of a name has changed. -/
def putTable (d : Db) (t : Str) (tbl : Table) : Db := { d with tables := d.tables.insert t tbl }

/-- `table`. -/
def openTable (d : Db) (t : Str) : Db :=
  match d.tables.lookup t with
  | some _ => d
  | none => d.putTable t (d.tableOf t)

/-- The index of a table. -/
def indexOf (d : Db) (t : Str) : Mapping Str Entry := (d.tableOf t).index

/-- `Table.delete`. -/
def delete (d : Db) (t key : Str) : Db :=
  if !d.write then d
  else
    match (d.indexOf t).lookup key with
    | none => d
    | some i =>
      let d := d.putTable t { index := (d.indexOf t).erase key, dirty := true }
      let d := d.logRec (.table t (.delete key))
      let (bucket, d) := d.getBucket i.1
      let (entry, bucket) := bucket.freeEntry i.2
      (d.logRec (.bucket bucket.size entry)).putBucket i.1 bucket

/-- `Table.set` where the key is live in a bucket of the right size: the block
is rewritten. -/
def setInPlace (d : Db) (t key : Str) (s : Nat) (bucket : Bucket) (i : Entry) (ts : Bytes) :
    Bool × Db :=
  let d := d.logRec (.table t (.delete key))
  match bucket.setEntry i.2 ts with
  | some bucket => (true, (d.putBucket s bucket).logRec (.table t (.change key i)))
  | none => (false, d)

/-- `Table.set` where a block has to be allocated: the new entry is logged, the
old one deleted (which logs too), and then the index written. -/
def setReplace (d : Db) (t key : Str) (s : Nat) (bucket : Bucket) (ts : Bytes) : Bool × Db :=
  let (of_, entry, bucket) := bucket.allocateEntry
  let d := (d.putBucket s bucket).logRec (.bucket bucket.size entry)
  match bucket.setEntry of_ ts with
  | some bucket =>
    let newEntry : Entry := (bucket.size, of_)
    let d := (d.putBucket s bucket).logRec (.table t (.change key newEntry))
    let d := d.delete t key
    (true, d.putTable t { index := (d.indexOf t).insert key newEntry, dirty := true })
  | none => (false, d)

/-- `Table.set`, on the string the value is stored as. -/
def setString (d : Db) (t key : Str) (ts : Bytes) : Bool × Db :=
  if !d.write then (false, d)
  else
    let s := findNearest2x ts.length
    let (bucket, d) := d.getBucket s
    match (d.indexOf t).lookup key with
    | some i =>
      if i.1 = bucket.size then d.setInPlace t key s bucket i ts
      else d.setReplace t key s bucket ts
    | none => d.setReplace t key s bucket ts

/-- `Table.purge`. -/
def purge (d : Db) (t : Str) : Db :=
  if !d.write then d
  else
    let d := (d.indexOf t).keys.foldl (fun d key => d.delete t key) d
    let d := { d with indexFiles := d.indexFiles.erase t }
    (d.putTable t { index := ∅, dirty := false }).logRec (.table t .purge)

variable {V : Type} (c : Codec V)

/-- `Table.set`. -/
def set (d : Db) (t key : Str) (v : V) : Bool × Db := d.setString t key (c.toBlock d.compress v)

/-- `Table.get`. -/
def get (d : Db) (t key : Str) : Option V × Db :=
  match (d.indexOf t).lookup key with
  | none => (none, d)
  | some i =>
    let (bucket, d) := d.getBucket i.1
    (some (c.ofBlock (bucket.getEntry i.2)), d)

end Db

/-- A call on a table of the db. -/
inductive TableOp (V : Type) where
  | set (tname key : Str) (v : V)
  | delete (tname key : Str)
  | purge (tname : Str)

/-- One call, the table looked up by its name. -/
def Db.apply {V : Type} (c : Codec V) (d : Db) : TableOp V → Db
  | .set tname key v => ((d.openTable (tableName tname)).set c (tableName tname) key v).2
  | .delete tname key => (d.openTable (tableName tname)).delete (tableName tname) key
  | .purge tname => (d.openTable (tableName tname)).purge (tableName tname)

/-- A sequence of calls. -/
def Db.run {V : Type} (c : Codec V) (d : Db) (ops : List (TableOp V)) : Db :=
  ops.foldl (Db.apply c) d

/-! ## What each part of a call changes -/

namespace Db

variable (d : Db)

theorem bucketOf_putBucket (s s' : Nat) (b : Bucket) :
    (d.putBucket s b).bucketOf s' = if s' = s then b else d.bucketOf s' := by
  unfold bucketOf putBucket
  rw [Lib.Mapping.lookup_insert_ite]
  split <;> rfl

@[simp] theorem indexOf_putBucket (s : Nat) (b : Bucket) (t : Str) :
    (d.putBucket s b).indexOf t = d.indexOf t := rfl

@[simp] theorem bucketOf_logRec (r : LogRec) (s : Nat) : (d.logRec r).bucketOf s = d.bucketOf s :=
  rfl

@[simp] theorem indexOf_logRec (r : LogRec) (t : Str) : (d.logRec r).indexOf t = d.indexOf t := rfl

theorem indexOf_putTable (t t' : Str) (tbl : Table) :
    (d.putTable t tbl).indexOf t' = if t' = t then tbl.index else d.indexOf t' := by
  unfold indexOf tableOf putTable
  rw [Lib.Mapping.lookup_insert_ite]
  split <;> rfl

/-- Removing a table's file changes no other table. -/
theorem indexOf_eraseFile {d : Db} {t t' : Str} (htt : t ≠ t') :
    ({ d with indexFiles := d.indexFiles.erase t' } : Db).indexOf t = d.indexOf t := by
  unfold indexOf tableOf
  rw [AList.lookup_erase_ne htt]

@[simp] theorem log_putBucket (s : Nat) (b : Bucket) : (d.putBucket s b).log = d.log := rfl

@[simp] theorem log_putTable (t : Str) (tbl : Table) : (d.putTable t tbl).log = d.log := rfl

@[simp] theorem log_logRec (r : LogRec) : (d.logRec r).log = d.log ++ [r] := rfl

@[simp] theorem write_putBucket (s : Nat) (b : Bucket) : (d.putBucket s b).write = d.write := rfl

@[simp] theorem write_putTable (t : Str) (tbl : Table) : (d.putTable t tbl).write = d.write := rfl

@[simp] theorem write_logRec (r : LogRec) : (d.logRec r).write = d.write := rfl

/-- Opening a bucket returns it and changes nothing that can be read. -/
theorem getBucket_spec (s : Nat) :
    (d.getBucket s).1 = d.bucketOf s ∧ (∀ s', (d.getBucket s).2.bucketOf s' = d.bucketOf s') ∧
    (∀ t, (d.getBucket s).2.indexOf t = d.indexOf t) ∧ (d.getBucket s).2.log = d.log ∧
    (d.getBucket s).2.write = d.write := by
  unfold getBucket
  cases h : d.buckets.lookup s with
  | some b => exact ⟨by simp [bucketOf, h], fun _ => rfl, fun _ => rfl, rfl, rfl⟩
  | none =>
    refine ⟨rfl, fun s' => ?_, fun _ => rfl, rfl, rfl⟩
    show (d.putBucket s (d.bucketOf s)).bucketOf s' = d.bucketOf s'
    rw [bucketOf_putBucket]
    split
    next he => rw [he]
    next => rfl

/-- Opening a table changes nothing that can be read. -/
theorem openTable_spec (t : Str) :
    (∀ s, (d.openTable t).bucketOf s = d.bucketOf s) ∧
    (∀ t', (d.openTable t).indexOf t' = d.indexOf t') ∧ (d.openTable t).log = d.log ∧
    (d.openTable t).write = d.write ∧ (d.openTable t).compress = d.compress := by
  unfold openTable
  cases h : d.tables.lookup t with
  | some b => exact ⟨fun _ => rfl, fun _ => rfl, rfl, rfl, rfl⟩
  | none =>
    refine ⟨fun _ => rfl, fun t' => ?_, rfl, rfl, rfl⟩
    show (d.putTable t (d.tableOf t)).indexOf t' = d.indexOf t'
    rw [indexOf_putTable]
    split
    next he => rw [he]; rfl
    next => rfl

/-- Everything `delete` does: nothing, or the key leaves the index and its block
goes back to its bucket. -/
theorem delete_cases (t key : Str) :
    (d.delete t key = d ∧ (d.write = false ∨ (d.indexOf t).lookup key = none)) ∨
    (d.write = true ∧ ∃ i, (d.indexOf t).lookup key = some i ∧
      (∀ t', (d.delete t key).indexOf t'
        = if t' = t then (d.indexOf t).erase key else d.indexOf t') ∧
      (∀ s, (d.delete t key).bucketOf s
        = if s = i.1 then ((d.bucketOf i.1).freeEntry i.2).2 else d.bucketOf s) ∧
      (d.delete t key).log = d.log ++
        [.table t (.delete key), .bucket (d.bucketOf i.1).size (.free i.2)] ∧
      (d.delete t key).write = true) := by
  cases hw : d.write with
  | false => exact Or.inl ⟨by simp [delete, hw], Or.inl rfl⟩
  | true =>
    cases hi : (d.indexOf t).lookup key with
    | none => exact Or.inl ⟨by simp [delete, hw, hi], Or.inr rfl⟩
    | some i =>
      refine Or.inr ⟨rfl, i, rfl, ?_⟩
      obtain ⟨hb, hbo, hio, hlog, hwr⟩ := getBucket_spec
        ((d.putTable t { index := (d.indexOf t).erase key, dirty := true }).logRec
          (.table t (.delete key))) i.1
      simp only [delete, hw, hi, Bool.not_true, Bool.false_eq_true, if_false]
      refine ⟨fun t' => ?_, fun s => ?_, ?_, ?_⟩
      · rw [indexOf_putBucket, indexOf_logRec, hio, indexOf_logRec, indexOf_putTable]
      · rw [bucketOf_putBucket, bucketOf_logRec, hbo, hb]
        rfl
      · rw [log_putBucket, log_logRec, hlog, log_logRec, log_putTable, hb, List.append_assoc]
        rfl
      · rw [write_putBucket, write_logRec, hwr, write_logRec, write_putTable, hw]

/-- The bucket a string of this length goes to. -/
def target (ts : Bytes) : Bucket := d.bucketOf (findNearest2x ts.length)

/-- `d'` reads like `d`, but for the bucket `b` of size `s` and the records
`recs` its log ends with. -/
structure Only (d' : Db) (s : Nat) (b : Bucket) (recs : List LogRec) : Prop where
  indexOf : ∀ t, d'.indexOf t = d.indexOf t
  bucketOf : ∀ s', d'.bucketOf s' = if s' = s then b else d.bucketOf s'
  log : d'.log = d.log ++ recs
  write : d'.write = true

/-- Everything a `set` of `ts` does in write mode: the state it leaves. -/
inductive SetOutcome (t key : Str) (ts : Bytes) : Db → Prop where
  /-- The key is live in a bucket of this size: its block is rewritten. -/
  | inPlace {d' : Db} {i : Entry} (hi : (d.indexOf t).lookup key = some i)
      (hsize : i.1 = (d.target ts).size) (hfit : ts.length ≤ (d.target ts).size)
      (h : d.Only d' (findNearest2x ts.length) ((d.target ts).writeAt i.2 ts)
        [.table t (.delete key), .table t (.change key i)]) : SetOutcome t key ts d'
  /-- The key is live in a bucket of this size, which the string does not fit. -/
  | refused {d' : Db} {i : Entry} (hi : (d.indexOf t).lookup key = some i)
      (hsize : i.1 = (d.target ts).size) (hlong : (d.target ts).size < ts.length)
      (h : d.Only d' (findNearest2x ts.length) (d.target ts) [.table t (.delete key)]) :
      SetOutcome t key ts d'
  /-- A block is allocated and written, then the old entry deleted and replaced. -/
  | replaced {d₁ : Db} (hne : ∀ i, (d.indexOf t).lookup key = some i → i.1 ≠ (d.target ts).size)
      (hfit : ts.length ≤ (d.target ts).size)
      (h : d.Only d₁ (findNearest2x ts.length)
        ((d.target ts).allocateEntry.2.2.writeAt (d.target ts).allocateEntry.1 ts)
        [.bucket (d.target ts).size (d.target ts).allocateEntry.2.1,
          .table t (.change key ((d.target ts).size, (d.target ts).allocateEntry.1))]) :
      SetOutcome t key ts ((d₁.delete t key).putTable t
        { index := ((d₁.delete t key).indexOf t).insert key
            ((d.target ts).size, (d.target ts).allocateEntry.1)
          dirty := true })
  /-- A block is allocated that the string does not fit. -/
  | wasted {d' : Db} (hne : ∀ i, (d.indexOf t).lookup key = some i → i.1 ≠ (d.target ts).size)
      (hlong : (d.target ts).size < ts.length)
      (h : d.Only d' (findNearest2x ts.length) (d.target ts).allocateEntry.2.2
        [.bucket (d.target ts).size (d.target ts).allocateEntry.2.1]) : SetOutcome t key ts d'

theorem setInPlace_outcome {t key : Str} {ts : Bytes} {i : Entry} (hw : d.write = true)
    (hi : (d.indexOf t).lookup key = some i) (hsize : i.1 = (d.target ts).size) :
    d.SetOutcome t key ts ((d.getBucket (findNearest2x ts.length)).2.setInPlace t key
      (findNearest2x ts.length) (d.target ts) i ts).2 := by
  obtain ⟨-, hbo, hio, hlog, hwr⟩ := d.getBucket_spec (findNearest2x ts.length)
  rcases Nat.lt_or_ge (d.target ts).size ts.length with hlong | hfit
  · have hset : (d.target ts).setEntry i.2 ts = none := by rw [Bucket.setEntry, if_pos hlong]
    simp only [setInPlace, hset]
    refine .refused hi hsize hlong ⟨hio, fun s' => ?_, ?_, ?_⟩
    · rw [bucketOf_logRec, hbo]
      split
      next he => rw [he]; rfl
      next => rfl
    · rw [log_logRec, hlog]
    · rw [write_logRec, hwr, hw]
  · have hset : (d.target ts).setEntry i.2 ts = some ((d.target ts).writeAt i.2 ts) := by
      rw [Bucket.setEntry, if_neg (Nat.not_lt.mpr hfit)]
    simp only [setInPlace, hset]
    refine .inPlace hi hsize hfit ⟨hio, fun s' => ?_, ?_, ?_⟩
    · rw [bucketOf_logRec, bucketOf_putBucket, bucketOf_logRec, hbo]
    · rw [log_logRec, log_putBucket, log_logRec, hlog, List.append_assoc]
      rfl
    · rw [write_logRec, write_putBucket, write_logRec, hwr, hw]

theorem setReplace_outcome {t key : Str} {ts : Bytes} (hw : d.write = true)
    (hne : ∀ i, (d.indexOf t).lookup key = some i → i.1 ≠ (d.target ts).size) :
    d.SetOutcome t key ts ((d.getBucket (findNearest2x ts.length)).2.setReplace t key
      (findNearest2x ts.length) (d.target ts) ts).2 := by
  obtain ⟨-, hbo, hio, hlog, hwr⟩ := d.getBucket_spec (findNearest2x ts.length)
  have hsize : (d.target ts).allocateEntry.2.2.size = (d.target ts).size := by
    rcases (d.target ts).allocateEntry_cases with ⟨f, fs, -, he⟩ | ⟨-, he⟩ <;> rw [he]
  rcases Nat.lt_or_ge (d.target ts).size ts.length with hlong | hfit
  · have hset : (d.target ts).allocateEntry.2.2.setEntry (d.target ts).allocateEntry.1 ts = none := by
      rw [Bucket.setEntry, hsize, if_pos hlong]
    simp only [setReplace, hset]
    refine .wasted hne hlong ⟨hio, fun s' => ?_, ?_, ?_⟩
    · rw [bucketOf_logRec, bucketOf_putBucket, hbo]
    · rw [log_logRec, log_putBucket, hlog, hsize]
    · rw [write_logRec, write_putBucket, hwr, hw]
  · have hset : (d.target ts).allocateEntry.2.2.setEntry (d.target ts).allocateEntry.1 ts
        = some ((d.target ts).allocateEntry.2.2.writeAt (d.target ts).allocateEntry.1 ts) := by
      rw [Bucket.setEntry, hsize, if_neg (Nat.not_lt.mpr hfit)]
    simp only [setReplace, hset, Bucket.writeAt_size, hsize]
    refine .replaced hne hfit ⟨hio, fun s' => ?_, ?_, ?_⟩
    · rw [bucketOf_logRec, bucketOf_putBucket, bucketOf_logRec, bucketOf_putBucket, hbo]
      split <;> rfl
    · rw [log_logRec, log_putBucket, log_logRec, log_putBucket, hlog, List.append_assoc]
      rfl
    · rw [write_logRec, write_putBucket, write_logRec, write_putBucket, hwr, hw]

theorem setString_outcome (t key : Str) (ts : Bytes) (hw : d.write = true) :
    d.SetOutcome t key ts (d.setString t key ts).2 := by
  obtain ⟨hb, -, hio, -, -⟩ := d.getBucket_spec (findNearest2x ts.length)
  simp only [setString, hw, Bool.not_true, Bool.false_eq_true, if_false]
  rw [hb, hio]
  cases hi : (d.indexOf t).lookup key with
  | none => exact setReplace_outcome d hw fun i h => by rw [hi] at h; cases h
  | some i =>
    dsimp only
    split
    next hsize => exact setInPlace_outcome d hw hi hsize
    next hsize =>
      exact setReplace_outcome d hw fun j h => by rw [hi] at h; cases h; exact hsize

/-- No part of a call changes the mode. -/
theorem compress_getBucket (s : Nat) : (d.getBucket s).2.compress = d.compress := by
  unfold getBucket
  split <;> rfl

theorem compress_delete (t key : Str) : (d.delete t key).compress = d.compress := by
  unfold delete
  split
  · rfl
  · split
    · rfl
    next i _ => exact compress_getBucket _ i.1

theorem compress_setReplace (t key : Str) (s : Nat) (b : Bucket) (ts : Bytes) :
    (d.setReplace t key s b ts).2.compress = d.compress := by
  unfold setReplace
  dsimp only
  split
  · exact compress_delete _ t key
  · rfl

theorem compress_setString (t key : Str) (ts : Bytes) :
    (d.setString t key ts).2.compress = d.compress := by
  have hget := d.compress_getBucket (findNearest2x ts.length)
  unfold setString
  split
  · rfl
  · dsimp only
    split
    · split
      · unfold setInPlace
        dsimp only
        split <;> exact hget
      · exact (compress_setReplace _ t key _ _ ts).trans hget
    · exact (compress_setReplace _ t key _ _ ts).trans hget

theorem compress_foldl_delete (t : Str) (keys : List Str) :
    ∀ d : Db, (keys.foldl (fun d key => d.delete t key) d).compress = d.compress := by
  induction keys with
  | nil => intro d; rfl
  | cons k keys ih => intro d; exact (ih (d.delete t k)).trans (d.compress_delete t k)

theorem compress_purge (t : Str) : (d.purge t).compress = d.compress := by
  unfold purge
  split
  · rfl
  · exact compress_foldl_delete t (d.indexOf t).keys d

theorem compress_apply {V : Type} (c : Codec V) (op : TableOp V) :
    (d.apply c op).compress = d.compress := by
  have hopen := fun t => (d.openTable_spec t).2.2.2.2
  cases op with
  | set tname key v => exact (compress_setString _ _ key _).trans (hopen _)
  | delete tname key => exact (compress_delete _ _ key).trans (hopen _)
  | purge tname => exact (compress_purge _ _).trans (hopen _)

theorem setString_readOnly (t key : Str) (ts : Bytes) (hw : d.write = false) :
    (d.setString t key ts).2 = d := by
  simp [setString, hw]

end Db

end Caudium.Pdb
