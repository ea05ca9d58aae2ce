import Caudium.Storage.Manager

/-!
# `Storage.Methods.Disk`

One file for each object, under the md5 of the namespace and the key put together,
and two indices in memory: `idx` has the path of every object by namespace and key,
`idx_sz` its size. The indices are written to two files of the directory from time
to time (`idx_sync`) and read back at start-up (`create`). A namespace that has no
index is listed from the directory, by what the files say of themselves.

The two index files are kept apart from the objects here, as what they decode to.
The directory scan of `list` reads the size index too; that mapping has no string
for a namespace, so nothing under a string key comes of it.
-/

namespace Caudium.Storage

open Lib (Str Mapping)

/-- The mapping that is written to a file. -/
structure Record where
  namespaceOf : Str
  key : Str
  value : Str
  deriving DecidableEq

/-- What is taken from elsewhere. -/
structure DiskEnv where
  /-- `Caudium.Crypto.hash_md5(data, 1)`. -/
  hashMd5 : Str → Str
  /-- `Stdio.append_path`. -/
  appendPath : Str → Str → Str
  /-- The source text that `encode` prints with "%O". -/
  encode : Record → Str
  /-- `decode`: compiles the text; `none` when it has no mapping with a value. -/
  decode : Str → Option Record
  /-- `Regexp(regexp)->match(key)`. -/
  reMatch : Str → Str → Bool

/-- The file names of different strings differ, and what was encoded is decoded. -/
structure DiskEnv.Lawful (env : DiskEnv) : Prop where
  hash_inj : Function.Injective env.hashMd5
  append_inj : ∀ path, Function.Injective (env.appendPath path)
  decode_encode : ∀ r, env.decode (env.encode r) = some r

/-- The backend and its directory. -/
structure Disk where
  path : Str
  idx : Mapping Str (Mapping Str Str)
  idxSz : Mapping Str (Mapping Str Int)
  /-- `_size`. -/
  sizes : Mapping Str Int
  /-- The object files, by full path. -/
  files : Mapping Str Str
  /-- The file "storage_index". -/
  storageIndex : Option (Mapping Str (Mapping Str Str))
  /-- The file "storage_size". -/
  storageSize : Option (Mapping Str (Mapping Str Int))

namespace Disk

variable (env : DiskEnv) (d : Disk)

/-! ## The indices -/

/-- `hash_path`. -/
def hashPath (ns key : Str) : Str := env.hashMd5 (ns ++ key)

/-- `idx[namespace][key] = path`. -/
def putPath (ns key p : Str) : Disk :=
  { d with idx := d.idx.insert ns ((rowOf d.idx ns).insert key p) }

/-- `idx_sz[namespace][key] = sz`. -/
def putSize (ns key : Str) (sz : Int) : Disk :=
  { d with idxSz := d.idxSz.insert ns (((d.idxSz.lookup ns).getD ∅).insert key sz) }

/-- The namespace gets empty indices, unless it has an index. -/
def openIdx (ns : Str) : Disk :=
  if (d.idx.lookup ns).isSome then d
  else { d with idx := d.idx.insert ns ∅, idxSz := d.idxSz.insert ns ∅ }

/-- `idx_path`. -/
def idxPath (ns key : Str) (given : Option Str) : Str × Disk :=
  let d := d.openIdx ns
  match given with
  | some p => (p, d.putPath ns key p)
  | none =>
    match copyIn d.idx ns key with
    | some p => (p, d)
    | none =>
      let p := env.appendPath d.path (hashPath env ns key)
      (p, d.putPath ns key p)

/-- `idx_size`. A size of 0 counts as none. -/
def idxSize (ns key : Str) (data : Option Str) : Int × Disk :=
  let d := if (d.idxSz.lookup ns).isSome then d else { d with idxSz := d.idxSz.insert ns ∅ }
  let old := ((d.idxSz.lookup ns).bind fun m => m.lookup key).getD 0
  if old ≠ 0 then (old, d)
  else
    match data with
    | some data => (data.length, d.putSize ns key data.length)
    | none =>
      let (objpath, d) := d.idxPath env ns key none
      let sz : Int := ((d.files.lookup objpath).getD []).length
      (sz, d.putSize ns key sz)

/-- `idx_rm`. -/
def idxRm (ns : Str) (key : Option Str) : Disk :=
  match key with
  | none =>
    if (d.idx.lookup ns).isSome then { d with idx := d.idx.erase ns, idxSz := d.idxSz.erase ns }
    else d
  | some key =>
    match copyIn d.idx ns key with
    | none => d
    | some _ =>
      { d with
        idx := d.idx.insert ns ((rowOf d.idx ns).erase key)
        idxSz := match d.idxSz.lookup ns with
          | some m => d.idxSz.insert ns (m.erase key)
          | none => d.idxSz }

/-! ## The calls -/

/-- `store`. -/
def store (ns key value : Str) : Disk :=
  let (objpath, d) := d.idxPath env ns key none
  let data := env.encode { namespaceOf := ns, key := key, value := value }
  let d := (d.idxSize env ns key (some data)).2
  { d with files := d.files.insert objpath data }

/-- `retrieve`. -/
def retrieve (ns key : Str) : Option Str × Disk :=
  let (objpath, d) := d.idxPath env ns key none
  match d.files.lookup objpath with
  | none => (none, d.idxRm ns (some key))
  | some s =>
    match env.decode s with
    | some r => (some r.value, d)
    | none =>
      let d := d.idxRm ns (some key)
      (none, { d with files := d.files.erase objpath })

/-- One file of the directory scan of `list`. -/
def scanFile (ns : Str) (r : List Str × Disk) (objpath : Str) : List Str × Disk :=
  match (r.2.files.lookup objpath).bind env.decode with
  | some obj =>
    (if obj.namespaceOf = ns then r.1 ++ [obj.key] else r.1,
      (r.2.idxPath env obj.namespaceOf obj.key (some objpath)).2)
  | none => r

/-- `list`. -/
def list (ns : Str) : List Str × Disk :=
  match d.idx.lookup ns with
  | some m => (m.keys, d)
  | none =>
    let r := d.files.keys.foldl (scanFile env ns) ([], d)
    if r.1 = [] then
      (r.1, { r.2 with idx := r.2.idx.insert ns ∅, idxSz := r.2.idxSz.insert ns ∅ })
    else r

/-- `unlink` of one key. -/
def unlinkKey (ns key : Str) : Disk :=
  let (objpath, d) := d.idxPath env ns key none
  let d := d.idxRm ns (some key)
  { d with files := d.files.erase objpath }

/-- `unlink`. -/
def unlink (ns : Str) (key : Option Str) : Disk :=
  match key with
  | some key => d.unlinkKey env ns key
  | none =>
    let (keys, d) := d.list env ns
    (keys.foldl (fun d key => d.unlinkKey env ns key) d).idxRm ns none

/-- `unlink_regexp`. -/
def unlinkRegexp (ns regexp : Str) : Disk :=
  let (keys, d) := d.list env ns
  (keys.filter (env.reMatch regexp)).foldl (fun d key => d.unlinkKey env ns key) d

/-- `size`. -/
def size (ns : Str) : Int × Disk :=
  match d.sizes.lookup ns with
  | some n => if n ≠ 0 then (n, d) else total
  | none => total
where
  total : Int × Disk :=
    let (keys, d) := d.list env ns
    let r := keys.foldl (fun (r : Int × Disk) key =>
      let (n, d) := r.2.idxSize env ns key none
      (r.1 + n, d)) (0, d)
    (r.1, { r.2 with sizes := r.2.sizes.insert ns r.1 })

/-- `idx_sync`. -/
def idxSync : Disk := { d with storageIndex := some d.idx, storageSize := some d.idxSz }

/-- An empty directory. -/
def empty (path : Str) : Disk where
  path := path
  idx := ∅
  idxSz := ∅
  sizes := ∅
  files := ∅
  storageIndex := none
  storageSize := none

/-- `create`, over a directory as an earlier run has left it. The files that the index
does not have are to be removed; the path is put in front of a full path there. -/
def create : Disk :=
  match d.storageIndex with
  | none => { d with idx := ∅, idxSz := ∅, sizes := ∅ }
  | some idx =>
    let f := idx.entries.flatMap fun e => e.2.entries.map fun e' => e'.2
    let r := d.files.keys.filter fun p => !f.contains p
    { d with
      idx := idx, idxSz := d.storageSize.getD ∅, sizes := ∅
      files := d.files.eraseAll (r.map (env.appendPath d.path)) }

end Disk

end Caudium.Storage
