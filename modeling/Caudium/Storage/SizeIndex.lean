import Caudium.Storage.Isolation
import Mathlib.Algebra.BigOperators.Group.List.Basic
import Mathlib.Algebra.Order.BigOperators.Group.List
import Mathlib.Algebra.Order.Group.Int
import Mathlib.Algebra.Ring.Int.Defs

/-!
# What the calls of the disk backend do to its index

A state is read key by key: the file name a key has in the index, the size it has in `idx_sz`, and
the files themselves. Each helper has one lemma that says what can be read behind it (`Reads`), and
so has each call; most helpers leave everything as it reads (`Shows`), since they only open a row or
store an entry that is there already.
-/

namespace Caudium.Storage

open Lib (Str Mapping)

namespace Disk

variable {env : DiskEnv} {d : Disk}

/-! ## What the index says -/

/-- `idx_sz[namespace][key]`, if there is such an entry. -/
def szAt (d : Disk) (ns key : Str) : Option Int := (d.idxSz.lookup ns).bind fun m => m.lookup key

/-- `_size[namespace]`. -/
def memo (d : Disk) (ns : Str) : Int := (d.sizes.lookup ns).getD 0

/-- The length of a file, 0 without one. -/
def fileLen (d : Disk) (p : Str) : Int := ((d.files.lookup p).getD []).length

/-- The lengths of the files of all keys a namespace has. -/
def rowTotal (env : DiskEnv) (d : Disk) (ns : Str) : Int :=
  ((rowOf d.idx ns).keys.map fun key => fileLen d (place env d.path ns key)).sum

/-- What holds in every state: the files lie where they should, what a file holds is in the index,
and so is every key with a size. -/
structure Kept (env : DiskEnv) (d : Disk) : Prop where
  placed : Placed env d
  filed : ∀ r, d.files.lookup (place env d.path r.namespaceOf r.key) = some (env.encode r) →
    (copyIn d.idx r.namespaceOf r.key).isSome
  sized : ∀ ns key, (szAt d ns key).isSome → (copyIn d.idx ns key).isSome

/-- What can be read in a state. -/
structure Reads (d : Disk) (idx : Str → Str → Option Str) (sz : Str → Str → Option Int)
    (files : Mapping Str Str) (sizes : Mapping Str Int) (path : Str) : Prop where
  idx : ∀ ns key, copyIn d.idx ns key = idx ns key
  sz : ∀ ns key, szAt d ns key = sz ns key
  files : d.files = files
  sizes : d.sizes = sizes
  path : d.path = path

/-- `d'` reads as `d`. -/
abbrev Shows (d d' : Disk) : Prop := Reads d' (copyIn d.idx) (szAt d) d.files d.sizes d.path

theorem Shows.refl (d : Disk) : Shows d d := ⟨fun _ _ => rfl, fun _ _ => rfl, rfl, rfl, rfl⟩

theorem Shows.trans {d₁ d₂ d₃ : Disk} (h : Shows d₁ d₂) (h' : Shows d₂ d₃) : Shows d₁ d₃ :=
  ⟨fun ns key => (h'.idx ns key).trans (h.idx ns key),
    fun ns key => (h'.sz ns key).trans (h.sz ns key), h'.files.trans h.files,
    h'.sizes.trans h.sizes, h'.path.trans h.path⟩

theorem mem_keys_row (idx : Mapping Str (Mapping Str Str)) (ns key : Str) :
    key ∈ (rowOf idx ns).keys ↔ (copyIn idx ns key).isSome := by
  rw [Lib.Mapping.mem_keys_iff, ← Option.isSome_iff_exists, lookup_rowOf]

theorem mem_keys_congr {idx idx' : Mapping Str (Mapping Str Str)} {ns : Str}
    (h : ∀ key, (copyIn idx ns key).isSome ↔ (copyIn idx' ns key).isSome) (key : Str) :
    key ∈ (rowOf idx ns).keys ↔ key ∈ (rowOf idx' ns).keys := by
  rw [mem_keys_row, mem_keys_row, h]

/-- A sum over the keys of a row depends on which keys there are. -/
theorem rowSum_congr {m m' : Mapping Str Str} (f : Str → Int)
    (h : ∀ key, key ∈ m.keys ↔ key ∈ m'.keys) : (m.keys.map f).sum = (m'.keys.map f).sum :=
  (((List.perm_ext_iff_of_nodup m.keys_nodup m'.keys_nodup).mpr h).map f).sum_eq

theorem rowSum_cons {m m' : Mapping Str Str} (f : Str → Int) {key : Str} (hnot : key ∉ m.keys)
    (h : ∀ k, k ∈ m'.keys ↔ k = key ∨ k ∈ m.keys) :
    (m'.keys.map f).sum = f key + (m.keys.map f).sum := by
  have hperm : m'.keys.Perm (key :: m.keys) := by
    refine (List.perm_ext_iff_of_nodup m'.keys_nodup ?_).mpr fun k => ?_
    · exact List.nodup_cons.mpr ⟨hnot, m.keys_nodup⟩
    · rw [h, List.mem_cons]
  rw [(hperm.map f).sum_eq, List.map_cons, List.sum_cons]

theorem rowTotal_congr {d d' : Disk} {ns : Str}
    (hidx : ∀ key, (copyIn d'.idx ns key).isSome ↔ (copyIn d.idx ns key).isSome)
    (hfiles : ∀ key, (copyIn d.idx ns key).isSome → fileLen d' (place env d'.path ns key) =
      fileLen d (place env d.path ns key)) : rowTotal env d' ns = rowTotal env d ns := by
  unfold rowTotal
  rw [rowSum_congr _ (mem_keys_congr hidx)]
  exact congrArg List.sum (List.map_congr_left fun key hkey => hfiles key ((mem_keys_row ..).mp hkey))

theorem memo_congr {d d' : Disk} (hsizes : d'.sizes = d.sizes) (ns : Str) :
    memo d' ns = memo d ns := by
  rw [memo, hsizes, memo]

/-! ## The parts of the calls -/

theorem copyIn_none {idx : Mapping Str (Mapping Str Str)} {ns : Str} (h : idx.lookup ns = none)
    (key : Str) : copyIn idx ns key = none := by
  rw [copyIn, h]
  rfl

/-- Empty rows for a namespace without keys. -/
theorem shows_emptyRows (h : Kept env d) {ns : Str} (hno : ∀ key, copyIn d.idx ns key = none) :
    Shows d { d with idx := d.idx.insert ns ∅, idxSz := d.idxSz.insert ns ∅ } := by
  refine ⟨fun ns' key => ?_, fun ns' key => ?_, rfl, rfl, rfl⟩
  · rw [copyIn_insert]
    split
    next he => rw [he, hno]; exact AList.lookup_empty key
    next => rfl
  · have hsz : szAt d ns key = none := by
      by_contra hne
      have hsome := h.sized ns key (Option.isSome_iff_ne_none.mpr hne)
      rw [hno] at hsome
      cases hsome
    unfold szAt
    dsimp only
    rw [Lib.Mapping.lookup_insert_ite]
    split
    next he => rw [he]; exact (AList.lookup_empty key).trans hsz.symm
    next => rfl

theorem openIdx_shows (h : Kept env d) (ns : Str) : Shows d (d.openIdx ns) := by
  unfold openIdx
  split
  next => exact .refl d
  next hno => exact shows_emptyRows h (copyIn_none (Option.not_isSome_iff_eq_none.mp hno))

theorem copyIn_putPath (ns key p ns' key' : Str) : copyIn (d.putPath ns key p).idx ns' key' =
    if ns' = ns ∧ key' = key then some p else copyIn d.idx ns' key' := by
  unfold putPath
  dsimp only
  rw [copyIn_insert]
  by_cases hns : ns' = ns
  · subst hns
    rw [if_pos rfl, Lib.Mapping.lookup_insert_ite, lookup_rowOf]
    simp
  · rw [if_neg hns, if_neg fun h => hns h.1]

theorem szAt_putSize (ns key : Str) (sz : Int) (ns' key' : Str) : szAt (d.putSize ns key sz) ns' key' =
    if ns' = ns ∧ key' = key then some sz else szAt d ns' key' := by
  unfold szAt putSize
  dsimp only
  rw [Lib.Mapping.lookup_insert_ite]
  by_cases hns : ns' = ns
  · subst hns
    rw [if_pos rfl, Option.bind_some, Lib.Mapping.lookup_insert_ite]
    by_cases hkey : key' = key
    · simp [hkey]
    · rw [if_neg hkey, if_neg fun h => hkey h.2]
      cases d.idxSz.lookup ns' with
      | none => exact AList.lookup_empty key'
      | some m => rfl
  · rw [if_neg hns, if_neg fun h => hns h.1]

/-- **`idx_path`** enters the key. -/
theorem idxPath_reads (h : Kept env d) (ns key : Str) :
    (d.idxPath env ns key none).1 = place env d.path ns key ∧
    Reads (d.idxPath env ns key none).2
      (fun ns' key' => if ns' = ns ∧ key' = key then some (place env d.path ns key)
        else copyIn d.idx ns' key')
      (szAt d) d.files d.sizes d.path := by
  have hopen := openIdx_shows h ns
  obtain ⟨hplace, -⟩ := idxPath_spec h.placed ns key none fun _ hp => nomatch hp
  refine ⟨hplace, ?_⟩
  unfold idxPath
  dsimp only
  cases hc : copyIn (d.openIdx ns).idx ns key with
  | some p =>
    refine ⟨fun ns' key' => ?_, hopen.sz, hopen.files, hopen.sizes, hopen.path⟩
    dsimp only
    rw [hopen.idx]
    split
    next he =>
      obtain ⟨rfl, rfl⟩ := he
      rw [hopen.idx] at hc
      rw [hc, h.placed.idx _ _ p hc]
    next => rfl
  | none =>
    refine ⟨fun ns' key' => ?_, hopen.sz, hopen.files, hopen.sizes, hopen.path⟩
    dsimp only
    rw [copyIn_putPath, hopen.idx, hopen.path]
    rfl

/-- Of a key of the index it only reads. -/
theorem idxPath_shows (h : Kept env d) {ns key : Str} (hkey : (copyIn d.idx ns key).isSome) :
    Shows d (d.idxPath env ns key none).2 := by
  obtain ⟨-, hreads⟩ := idxPath_reads h ns key
  refine ⟨fun ns' key' => ?_, hreads.sz, hreads.files, hreads.sizes, hreads.path⟩
  rw [hreads.idx]
  split
  next he =>
    obtain ⟨p, hp⟩ := Option.isSome_iff_exists.mp hkey
    rw [he.1, he.2, hp, h.placed.idx ns key p hp]
  next => rfl

theorem openSz_shows (d : Disk) (ns : Str) : Shows d (openSz d ns) := by
  unfold openSz
  split
  next => exact .refl d
  next hno =>
    refine ⟨fun _ _ => rfl, fun ns' key => ?_, rfl, rfl, rfl⟩
    unfold szAt
    dsimp only
    rw [Lib.Mapping.lookup_insert_ite]
    split
    next he =>
      rw [he, Option.not_isSome_iff_eq_none.mp hno]
      exact AList.lookup_empty key
    next => rfl

/-- What `idx_size` answers for a key. -/
def sizeValue (env : DiskEnv) (d : Disk) (ns key : Str) (data : Option Str) : Int :=
  if (szAt d ns key).getD 0 ≠ 0 then (szAt d ns key).getD 0
  else
    match data with
    | some data => data.length
    | none => fileLen d (place env d.path ns key)

/-- **`idx_size`** of a key of the index enters what it answers; a known size stays. -/
theorem idxSize_reads (h : Kept env d) {ns key : Str} (hkey : (copyIn d.idx ns key).isSome)
    (data : Option Str) :
    (d.idxSize env ns key data).1 = sizeValue env d ns key data ∧
    Reads (d.idxSize env ns key data).2 (copyIn d.idx)
      (fun ns' key' => if ns' = ns ∧ key' = key then some (sizeValue env d ns key data)
        else szAt d ns' key')
      d.files d.sizes d.path := by
  have hopen := openSz_shows d ns
  have hkept : Kept env (openSz d ns) := by
    refine ⟨(openSz_same h.placed ns).placed, fun r hr => ?_, fun ns' key' hs => ?_⟩
    · rw [hopen.idx]
      rw [hopen.files, hopen.path] at hr
      exact h.filed r hr
    · rw [hopen.sz] at hs
      rw [hopen.idx]
      exact h.sized ns' key' hs
  have hold : ((openSz d ns).idxSz.lookup ns).bind (fun m => m.lookup key) = szAt d ns key :=
    hopen.sz ns key
  unfold idxSize sizeValue
  rw [← openSz]
  dsimp only
  rw [hold]
  split
  next hne =>
    refine ⟨rfl, hopen.idx, fun ns' key' => ?_, hopen.files, hopen.sizes, hopen.path⟩
    rw [hopen.sz]
    split
    next he =>
      cases hs : szAt d ns key with
      | none => rw [hs] at hne; exact absurd rfl hne
      | some sz => rw [he.1, he.2, hs]; rfl
    next => rfl
  next =>
    cases data with
    | some data =>
      refine ⟨rfl, hopen.idx, fun ns' key' => ?_, hopen.files, hopen.sizes, hopen.path⟩
      dsimp only
      rw [szAt_putSize, hopen.sz]
    | none =>
      obtain ⟨hplace, -⟩ := idxPath_reads hkept ns key
      have hshow := hopen.trans (idxPath_shows hkept (by rw [hopen.idx]; exact hkey))
      have hlen : ((((openSz d ns).idxPath env ns key none).2.files.lookup
          ((openSz d ns).idxPath env ns key none).1).getD []).length
            = fileLen d (place env d.path ns key) := by
        rw [hshow.files, hplace, hopen.path]
        rfl
      refine ⟨hlen, hshow.idx, fun ns' key' => ?_, hshow.files, hshow.sizes, hshow.path⟩
      dsimp only
      rw [szAt_putSize, hshow.sz, hlen]

/-- **`idx_rm`** of a key takes its entries. -/
theorem idxRm_reads (h : Kept env d) (ns key : Str) : Reads (d.idxRm ns (some key))
    (fun ns' key' => if ns' = ns ∧ key' = key then none else copyIn d.idx ns' key')
    (fun ns' key' => if ns' = ns ∧ key' = key then none else szAt d ns' key')
    d.files d.sizes d.path := by
  unfold idxRm
  dsimp only
  cases hc : copyIn d.idx ns key with
  | none =>
    have hno : szAt d ns key = none := by
      by_contra hne
      have hsome := h.sized ns key (Option.isSome_iff_ne_none.mpr hne)
      rw [hc] at hsome
      cases hsome
    refine ⟨fun ns' key' => ?_, fun ns' key' => ?_, rfl, rfl, rfl⟩
    · dsimp only
      split
      next he => rw [he.1, he.2, hc]
      next => rfl
    · dsimp only
      split
      next he => rw [he.1, he.2, hno]
      next => rfl
  | some p =>
    refine ⟨fun ns' key' => ?_, fun ns' key' => ?_, rfl, rfl, rfl⟩
    · dsimp only
      rw [copyIn_insert]
      by_cases hns : ns' = ns
      · subst hns
        rw [if_pos rfl, Lib.Mapping.lookup_erase_ite, lookup_rowOf]
        simp
      · rw [if_neg hns, if_neg fun he => hns he.1]
    · unfold szAt
      dsimp only
      cases hm : d.idxSz.lookup ns with
      | none =>
        dsimp only
        split
        next he => rw [he.1, hm]; rfl
        next => rfl
      | some m =>
        dsimp only
        rw [Lib.Mapping.lookup_insert_ite]
        by_cases hns : ns' = ns
        · subst hns
          rw [if_pos rfl, hm, Option.bind_some, Option.bind_some, Lib.Mapping.lookup_erase_ite]
          simp
        · rw [if_neg hns, if_neg fun he => hns he.1]

/-! ## The calls -/

theorem Kept.of_shows {d' : Disk} (h : Kept env d) (hplaced : Placed env d') (hs : Shows d d') :
    Kept env d' := by
  refine ⟨hplaced, fun r hr => ?_, fun ns key hsz => ?_⟩
  · rw [hs.idx]
    rw [hs.files, hs.path] at hr
    exact h.filed r hr
  · rw [hs.idx]
    rw [hs.sz] at hsz
    exact h.sized ns key hsz

/-- Behind `idx_path` there is one more key at most. -/
theorem kept_idxPath (h : Kept env d) (ns key : Str) : Kept env (d.idxPath env ns key none).2 := by
  obtain ⟨-, hpath⟩ := idxPath_reads h ns key
  refine ⟨(idxPath_spec h.placed ns key none fun _ hp => nomatch hp).2.placed, fun r hr => ?_,
    fun ns' key' hs => ?_⟩
  · rw [hpath.idx]
    rw [hpath.files, hpath.path] at hr
    split
    next => rfl
    next => exact h.filed r hr
  · rw [hpath.sz] at hs
    rw [hpath.idx]
    split
    next => rfl
    next => exact h.sized ns' key' hs

/-- The text of a record. -/
def recordOf (env : DiskEnv) (ns key value : Str) : Str :=
  env.encode { namespaceOf := ns, key := key, value := value }

/-- **A `store`.** -/
theorem store_reads (h : Kept env d) (ns key value : Str) : Reads (d.store env ns key value)
    (fun ns' key' => if ns' = ns ∧ key' = key then some (place env d.path ns key)
      else copyIn d.idx ns' key')
    (fun ns' key' => if ns' = ns ∧ key' = key then
        some (sizeValue env d ns key (some (recordOf env ns key value)))
      else szAt d ns' key')
    (d.files.insert (place env d.path ns key) (recordOf env ns key value)) d.sizes d.path := by
  obtain ⟨hplace, hpath⟩ := idxPath_reads h ns key
  have hkey : (copyIn (d.idxPath env ns key none).2.idx ns key).isSome := by
    rw [hpath.idx, if_pos ⟨rfl, rfl⟩]
    rfl
  obtain ⟨-, hsize⟩ := idxSize_reads (kept_idxPath h ns key) hkey (some (recordOf env ns key value))
  have hvalue : sizeValue env (d.idxPath env ns key none).2 ns key (some (recordOf env ns key value))
      = sizeValue env d ns key (some (recordOf env ns key value)) := by
    unfold sizeValue
    rw [hpath.sz]
  refine ⟨fun ns' key' => ?_, fun ns' key' => ?_, ?_, ?_, ?_⟩
  · exact (hsize.idx ns' key').trans (hpath.idx ns' key')
  · refine (hsize.sz ns' key').trans ?_
    rw [hvalue, hpath.sz]
  · show AList.insert (d.idxPath env ns key none).1 _ _ = _
    rw [hplace]
    exact congrArg _ (hsize.files.trans hpath.files)
  · exact hsize.sizes.trans hpath.sizes
  · exact hsize.path.trans hpath.path

/-- **An `unlink`** of a key. -/
theorem unlinkKey_reads (h : Kept env d) (ns key : Str) : Reads (d.unlinkKey env ns key)
    (fun ns' key' => if ns' = ns ∧ key' = key then none else copyIn d.idx ns' key')
    (fun ns' key' => if ns' = ns ∧ key' = key then none else szAt d ns' key')
    (d.files.erase (place env d.path ns key)) d.sizes d.path := by
  obtain ⟨hplace, hpath⟩ := idxPath_reads h ns key
  have hrm := idxRm_reads (kept_idxPath h ns key) ns key
  refine ⟨fun ns' key' => ?_, fun ns' key' => ?_, ?_, ?_, ?_⟩
  · refine (hrm.idx ns' key').trans ?_
    split
    next => rfl
    next hne => rw [hpath.idx, if_neg hne]
  · refine (hrm.sz ns' key').trans ?_
    rw [hpath.sz]
  · show AList.erase (d.idxPath env ns key none).1 _ = _
    rw [hplace]
    exact congrArg _ (hrm.files.trans hpath.files)
  · exact hrm.sizes.trans hpath.sizes
  · exact hrm.path.trans hpath.path

theorem encode_inj (hlaw : env.Lawful) {r r' : Record} (h : env.encode r = env.encode r') : r = r' :=
  Option.some.inj ((hlaw.decode_encode r).symm.trans (h ▸ hlaw.decode_encode r'))

theorem kept_store (hlaw : env.Lawful) (h : Kept env d) (ns key value : Str) :
    Kept env (d.store env ns key value) := by
  have hreads := store_reads h ns key value
  refine ⟨(store_spec h.placed ns key value).1, fun r hr => ?_, fun ns' key' hs => ?_⟩
  · rw [hreads.idx]
    rw [hreads.files, hreads.path, Lib.Mapping.lookup_insert_ite] at hr
    split
    next => rfl
    next hne =>
      split at hr
      next =>
        have hrec := encode_inj hlaw (Option.some.inj hr)
        rw [← hrec] at hne
        exact absurd ⟨rfl, rfl⟩ hne
      next => exact h.filed r hr
  · rw [hreads.sz] at hs
    rw [hreads.idx]
    split
    next => rfl
    next hne =>
      rw [if_neg hne] at hs
      exact h.sized ns' key' hs

theorem kept_unlinkKey (h : Kept env d) (ns key : Str) : Kept env (d.unlinkKey env ns key) := by
  have hreads := unlinkKey_reads h ns key
  refine ⟨(unlinkKey_spec h.placed ns key).1, fun r hr => ?_, fun ns' key' hs => ?_⟩
  · rw [hreads.idx]
    rw [hreads.files, hreads.path, Lib.Mapping.lookup_erase_ite] at hr
    split at hr
    next => cases hr
    next hne =>
      rw [if_neg]
      · exact h.filed r hr
      · intro he
        exact hne (by rw [he.1, he.2])
  · rw [hreads.sz] at hs
    rw [hreads.idx]
    split
    next he => rw [if_pos he] at hs; cases hs
    next hne =>
      rw [if_neg hne] at hs
      exact h.sized ns' key' hs

/-- **A `retrieve`** enters the key if it has a file, and takes it out if it has none. -/
theorem retrieve_reads (hlaw : env.Lawful) (h : Kept env d) (ns key : Str) :
    Kept env (d.retrieve env ns key).2 ∧
    if (d.files.lookup (place env d.path ns key)).isSome then
      Reads (d.retrieve env ns key).2
        (fun ns' key' => if ns' = ns ∧ key' = key then some (place env d.path ns key)
          else copyIn d.idx ns' key')
        (szAt d) d.files d.sizes d.path
    else
      Reads (d.retrieve env ns key).2
        (fun ns' key' => if ns' = ns ∧ key' = key then none else copyIn d.idx ns' key')
        (fun ns' key' => if ns' = ns ∧ key' = key then none else szAt d ns' key')
        d.files d.sizes d.path := by
  obtain ⟨hplace, hpath⟩ := idxPath_reads h ns key
  have hkept := kept_idxPath h ns key
  have hrm := idxRm_reads hkept ns key
  unfold retrieve
  dsimp only
  rw [hpath.files, hplace]
  cases hl : d.files.lookup (place env d.path ns key) with
  | some s =>
    obtain ⟨r, rfl, -⟩ := h.placed.files _ s hl
    dsimp only
    rw [hlaw.decode_encode]
    exact ⟨hkept, hpath⟩
  | none =>
    dsimp only
    refine ⟨⟨(idxRm_same hkept.placed ns (some key)).placed, fun r hr => ?_, fun ns' key' hs => ?_⟩,
      ?_, ?_, hrm.files.trans hpath.files, hrm.sizes.trans hpath.sizes, hrm.path.trans hpath.path⟩
    · rw [hrm.files, hrm.path, hpath.files, hpath.path] at hr
      rw [hrm.idx]
      split
      next he =>
        rw [he.1, he.2, hl] at hr
        cases hr
      next hne =>
        rw [hpath.idx, if_neg hne]
        exact h.filed r hr
    · rw [hrm.sz] at hs
      rw [hrm.idx]
      split
      next he => rw [if_pos he] at hs; cases hs
      next hne =>
        rw [if_neg hne] at hs
        exact hkept.sized ns' key' hs
    · intro ns' key'
      rw [hrm.idx]
      split
      next => rfl
      next hne => rw [hpath.idx, if_neg hne]
    · intro ns' key'
      rw [hrm.sz, hpath.sz]

/-- No file is of a namespace without an index. -/
theorem Kept.no_file (h : Kept env d) {ns : Str} (hidx : d.idx.lookup ns = none) {p : Str}
    {r : Record} (hp : d.files.lookup p = some (env.encode r)) (hplace : p = place env d.path
      r.namespaceOf r.key) : r.namespaceOf ≠ ns := by
  intro he
  have hsome := h.filed r (hplace ▸ hp)
  rw [copyIn, he, hidx] at hsome
  cases hsome

/-- **A `list`** has the keys of the index, and changes nothing that can be read. -/
theorem list_reads (hlaw : env.Lawful) (h : Kept env d) (ns : Str) :
    (d.list env ns).1 = (rowOf d.idx ns).keys ∧ Shows d (d.list env ns).2 := by
  unfold list
  cases hidx : d.idx.lookup ns with
  | some m => exact ⟨by rw [rowOf, hidx]; rfl, .refl d⟩
  | none =>
    have hrow : (rowOf d.idx ns).keys = [] := by
      rw [rowOf, hidx]
      rfl
    have hscan : ∀ (ps : List Str) (d' : Disk), (∀ p ∈ ps, (d.files.lookup p).isSome) →
        Placed env d' → Shows d d' →
        (ps.foldl (scanFile env ns) ([], d')).1 = [] ∧
          Placed env (ps.foldl (scanFile env ns) ([], d')).2 ∧
          Shows d (ps.foldl (scanFile env ns) ([], d')).2 := by
      intro ps
      induction ps with
      | nil => intro d' _ hp hs; exact ⟨rfl, hp, hs⟩
      | cons p ps ih =>
        intro d' hps hp hs
        rw [List.forall_mem_cons] at hps
        obtain ⟨s, hl⟩ := Option.isSome_iff_exists.mp hps.1
        obtain ⟨r, rfl, hplace⟩ := h.placed.files p s hl
        have hl' : d'.files.lookup p = some (env.encode r) := by rw [hs.files, hl]
        have hone : scanFile env ns ([], d') p
            = ([], (d'.idxPath env r.namespaceOf r.key (some p)).2) := by
          unfold scanFile
          dsimp only
          rw [hl', Option.bind_some, hlaw.decode_encode]
          dsimp only
          rw [if_neg (h.no_file hidx hl hplace)]
        have hkept := h.of_shows hp hs
        have hkey : (copyIn d'.idx r.namespaceOf r.key).isSome := by
          rw [hs.idx]
          exact h.filed r (hplace ▸ hl)
        -- the path that is entered is the one that is there
        have hsame : Shows d' (d'.idxPath env r.namespaceOf r.key (some p)).2 := by
          have hopen := openIdx_shows hkept r.namespaceOf
          unfold idxPath
          dsimp only
          refine ⟨fun ns' key' => ?_, hopen.sz, hopen.files, hopen.sizes, hopen.path⟩
          rw [copyIn_putPath, hopen.idx]
          split
          next he =>
            obtain ⟨q, hq⟩ := Option.isSome_iff_exists.mp hkey
            rw [he.1, he.2, hq, hp.idx _ _ q hq, hs.path, hplace]
          next => rfl
        have hplaced := (idxPath_spec hp r.namespaceOf r.key (some p) fun q hq => by
          rw [← Option.mem_some.mp hq, hs.path]; exact hplace).2.placed
        rw [List.foldl_cons, hone]
        exact ih _ hps.2 hplaced (hs.trans hsame)
    obtain ⟨hnone, hp, hs⟩ := hscan d.files.keys d
      (fun p hp => AList.lookup_isSome.mpr (AList.mem_keys.mpr hp)) h.placed (.refl d)
    dsimp only
    rw [if_pos hnone, hrow]
    refine ⟨hnone, hs.trans (shows_emptyRows (h.of_shows hp hs) fun key => ?_)⟩
    rw [hs.idx, copyIn_none hidx]

theorem kept_list (hlaw : env.Lawful) (h : Kept env d) (ns : Str) : Kept env (d.list env ns).2 :=
  h.of_shows (list_same hlaw h.placed ns).placed (list_reads hlaw h ns).2

/-- `idx_rm` of a namespace without keys. -/
theorem idxRm_none_shows (h : Kept env d) {ns : Str} (hno : ∀ key, copyIn d.idx ns key = none) :
    Shows d (d.idxRm ns none) := by
  have hsz : ∀ key, szAt d ns key = none := by
    intro key
    by_contra hne
    have hsome := h.sized ns key (Option.isSome_iff_ne_none.mpr hne)
    rw [hno] at hsome
    cases hsome
  unfold idxRm
  dsimp only
  split
  next =>
    refine ⟨fun ns' key => ?_, fun ns' key => ?_, rfl, rfl, rfl⟩
    · rw [copyIn, Lib.Mapping.lookup_erase_ite]
      split
      next he => rw [he, hno]; rfl
      next => rfl
    · unfold szAt
      dsimp only
      rw [Lib.Mapping.lookup_erase_ite]
      split
      next he => rw [he]; exact (hsz key).symm
      next => rfl
  next => exact .refl d

/-- `d'` is `d` without these keys of the namespace, and without their files. -/
structure Dropped (env : DiskEnv) (ns : Str) (keys : List Str) (d d' : Disk) : Prop where
  kept : Kept env d'
  idx : ∀ ns' key, copyIn d'.idx ns' key = if ns' = ns ∧ key ∈ keys then none else copyIn d.idx ns' key
  sz : ∀ ns' key, szAt d' ns' key = if ns' = ns ∧ key ∈ keys then none else szAt d ns' key
  files : ∀ p, d'.files.lookup p =
    if ∃ key ∈ keys, p = place env d.path ns key then none else d.files.lookup p
  sizes : d'.sizes = d.sizes
  path : d'.path = d.path

/-- The loop of an `unlink`. -/
theorem unlinkKeys_reads (ns : Str) (keys : List Str) : ∀ d : Disk, Kept env d →
    Dropped env ns keys d (keys.foldl (fun d key => d.unlinkKey env ns key) d) := by
  induction keys with
  | nil => intro d h; exact ⟨h, by simp, by simp, by simp, rfl, rfl⟩
  | cons key keys ih =>
    intro d h
    have hone := unlinkKey_reads h ns key
    have hrest := ih _ (kept_unlinkKey h ns key)
    refine ⟨hrest.kept, fun ns' key' => ?_, fun ns' key' => ?_, fun p => ?_,
      hrest.sizes.trans hone.sizes, hrest.path.trans hone.path⟩
    · rw [List.foldl_cons, hrest.idx, hone.idx]
      by_cases hns : ns' = ns
      · by_cases hkey : key' = key
        · simp [hns, hkey]
        · simp [hns, hkey]
      · simp [hns]
    · rw [List.foldl_cons, hrest.sz, hone.sz]
      by_cases hns : ns' = ns
      · by_cases hkey : key' = key
        · simp [hns, hkey]
        · simp [hns, hkey]
      · simp [hns]
    · rw [List.foldl_cons, hrest.files, hone.path, hone.files, Lib.Mapping.lookup_erase_ite]
      by_cases hp : p = place env d.path ns key
      · simp [hp]
      · simp [hp]

/-- **An `unlink`** of a namespace. -/
theorem unlink_reads (hlaw : env.Lawful) (h : Kept env d) (ns : Str) :
    Kept env (d.unlink env ns none) ∧
    (∀ ns' key, copyIn (d.unlink env ns none).idx ns' key =
      if ns' = ns then none else copyIn d.idx ns' key) ∧
    (∀ ns' key, szAt (d.unlink env ns none) ns' key = if ns' = ns then none else szAt d ns' key) ∧
    (∀ p, (d.unlink env ns none).files.lookup p =
      if ∃ key ∈ (rowOf d.idx ns).keys, p = place env d.path ns key then none
      else d.files.lookup p) ∧
    (d.unlink env ns none).sizes = d.sizes ∧ (d.unlink env ns none).path = d.path := by
  obtain ⟨hkeys, hlist⟩ := list_reads hlaw h ns
  obtain ⟨hkept, hidx, hsz, hfiles, hsizes, hpath⟩ :=
    unlinkKeys_reads ns (d.list env ns).1 _ (kept_list hlaw h ns)
  have hmem : ∀ key, key ∈ (d.list env ns).1 ↔ (copyIn d.idx ns key).isSome := by
    intro key
    rw [hkeys, mem_keys_row]
  have hgone : ∀ ns' key, (if ns' = ns ∧ key ∈ (d.list env ns).1 then none
      else copyIn (d.list env ns).2.idx ns' key) = if ns' = ns then none else copyIn d.idx ns' key := by
    intro ns' key
    rw [hlist.idx]
    by_cases hns : ns' = ns
    · subst hns
      rw [if_pos rfl]
      split
      next => rfl
      next hno => exact Option.not_isSome_iff_eq_none.mp fun hs => hno ⟨rfl, (hmem key).mpr hs⟩
    · rw [if_neg hns, if_neg fun he => hns he.1]
  have hrm := idxRm_none_shows hkept fun key =>
    (hidx ns key).trans ((hgone ns key).trans (if_pos rfl))
  refine ⟨hkept.of_shows (idxRm_same hkept.placed ns none).placed hrm, fun ns' key => ?_,
    fun ns' key => ?_, fun p => ?_, ?_, ?_⟩
  · exact (hrm.idx ns' key).trans ((hidx ns' key).trans (hgone ns' key))
  · refine (hrm.sz ns' key).trans ((hsz ns' key).trans ?_)
    rw [hlist.sz]
    by_cases hns : ns' = ns
    · subst hns
      rw [if_pos rfl]
      split
      next => rfl
      next hno =>
        refine Option.not_isSome_iff_eq_none.mp fun hs => hno ⟨rfl, ?_⟩
        exact (hmem key).mpr (h.sized ns' key hs)
    · rw [if_neg hns, if_neg fun he => hns he.1]
  · show (AList.lookup p (Disk.files _)) = _
    rw [show (d.unlink env ns none).files = _ from hrm.files, hfiles, hlist.path, hlist.files, hkeys]
  · exact hrm.sizes.trans (hsizes.trans hlist.sizes)
  · exact hrm.path.trans (hpath.trans hlist.path)

theorem kept_idxSize (h : Kept env d) {ns key : Str} (hkey : (copyIn d.idx ns key).isSome) :
    Kept env (d.idxSize env ns key none).2 := by
  obtain ⟨-, hreads⟩ := idxSize_reads h hkey none
  refine ⟨(idxSize_same h.placed ns key none).placed, fun r hr => ?_, fun ns' key' hs => ?_⟩
  · rw [hreads.idx]
    rw [hreads.files, hreads.path] at hr
    exact h.filed r hr
  · rw [hreads.sz] at hs
    rw [hreads.idx]
    split at hs
    next he => rw [he.1, he.2]; exact hkey
    next => exact h.sized ns' key' hs

/-- **The loop of `size`** adds up what `idx_size` answers for each key, and enters it. -/
theorem sizeLoop_reads (env : DiskEnv) (ns : Str) (keys : List Str) (hnodup : keys.Nodup) :
    ∀ (acc : Int) (d : Disk), Kept env d → (∀ key ∈ keys, (copyIn d.idx ns key).isSome) →
      (keys.foldl (fun (r : Int × Disk) key =>
        (r.1 + (r.2.idxSize env ns key none).1, (r.2.idxSize env ns key none).2)) (acc, d)).1 =
        acc + (keys.map fun key => sizeValue env d ns key none).sum ∧
      Reads (keys.foldl (fun (r : Int × Disk) key =>
          (r.1 + (r.2.idxSize env ns key none).1, (r.2.idxSize env ns key none).2)) (acc, d)).2
        (copyIn d.idx)
        (fun ns' key => if ns' = ns ∧ key ∈ keys then some (sizeValue env d ns key none)
          else szAt d ns' key)
        d.files d.sizes d.path := by
  induction keys with
  | nil =>
    intro acc d _ _
    exact ⟨by simp, ⟨fun _ _ => rfl, by simp, rfl, rfl, rfl⟩⟩
  | cons key keys ih =>
    intro acc d h hall
    rw [List.forall_mem_cons] at hall
    obtain ⟨hnot, hrest⟩ := List.nodup_cons.mp hnodup
    obtain ⟨hvalue, hone⟩ := idxSize_reads h hall.1 none
    obtain ⟨hsum, hreads⟩ := ih hrest (acc + (d.idxSize env ns key none).1) _ (kept_idxSize h hall.1)
      fun key' hkey' => by rw [hone.idx]; exact hall.2 key' hkey'
    -- the entry of one key does not change what is answered for another
    have hother : ∀ key' ∈ keys, sizeValue env (d.idxSize env ns key none).2 ns key' none
        = sizeValue env d ns key' none := by
      intro key' hkey'
      have hne : ¬ (ns = ns ∧ key' = key) := fun he => hnot (he.2 ▸ hkey')
      unfold sizeValue fileLen
      rw [hone.sz, if_neg hne, hone.files, hone.path]
    rw [List.foldl_cons]
    refine ⟨?_, fun ns' key' => ?_, fun ns' key' => ?_, hreads.files.trans hone.files,
      hreads.sizes.trans hone.sizes, hreads.path.trans hone.path⟩
    · rw [hsum, hvalue, List.map_cons, List.sum_cons, List.map_congr_left hother]
      omega
    · rw [hreads.idx, hone.idx]
    · rw [hreads.sz, hone.sz]
      by_cases hin : ns' = ns ∧ key' ∈ keys
      · rw [if_pos hin, if_pos ⟨hin.1, List.mem_cons_of_mem key hin.2⟩, hother key' hin.2]
      · rw [if_neg hin]
        by_cases he : ns' = ns ∧ key' = key
        · rw [if_pos he, if_pos ⟨he.1, he.2 ▸ List.mem_cons_self ..⟩, he.2]
        · rw [if_neg he, if_neg]
          intro hc
          rcases List.mem_cons.mp hc.2 with hk | hk
          · exact he ⟨hc.1, hk⟩
          · exact hin ⟨hc.1, hk⟩

theorem total_reads (hlaw : env.Lawful) (h : Kept env d) (ns : Str) :
    (size.total env d ns).1 =
      ((rowOf d.idx ns).keys.map fun key => sizeValue env d ns key none).sum ∧
    Reads (size.total env d ns).2 (copyIn d.idx)
      (fun ns' key => if ns' = ns ∧ key ∈ (rowOf d.idx ns).keys then
          some (sizeValue env d ns key none)
        else szAt d ns' key)
      d.files (d.sizes.insert ns (size.total env d ns).1) d.path := by
  obtain ⟨hkeys, hlist⟩ := list_reads hlaw h ns
  have hnodup : (d.list env ns).1.Nodup := by
    rw [hkeys]
    exact (rowOf d.idx ns).keys_nodup
  obtain ⟨hsum, hreads⟩ := sizeLoop_reads env ns (d.list env ns).1 hnodup 0 _
    (kept_list hlaw h ns) fun key hkey => by
      rw [hlist.idx]
      rw [hkeys] at hkey
      exact (mem_keys_row ..).mp hkey
  have hvalue : ∀ key, sizeValue env (d.list env ns).2 ns key none = sizeValue env d ns key none := by
    intro key
    unfold sizeValue fileLen
    rw [hlist.sz, hlist.files, hlist.path]
  have hfst : (size.total env d ns).1 =
      ((rowOf d.idx ns).keys.map fun key => sizeValue env d ns key none).sum := by
    refine Eq.trans hsum ?_
    rw [hkeys, List.map_congr_left fun key _ => hvalue key]
    omega
  refine ⟨hfst, fun ns' key => (hreads.idx ns' key).trans (hlist.idx ns' key), fun ns' key => ?_,
    hreads.files.trans hlist.files, ?_, hreads.path.trans hlist.path⟩
  · refine (hreads.sz ns' key).trans ?_
    rw [hvalue, hlist.sz, hkeys]
  · have hsizes := hreads.sizes.trans hlist.sizes
    exact congrArg (fun sizes => AList.insert ns (size.total env d ns).1 sizes) hsizes

/-- What `size` answers: what it has answered before, or the sum. -/
theorem size_fst (hlaw : env.Lawful) (h : Kept env d) (ns : Str) : (d.size env ns).1 =
    if memo d ns ≠ 0 then memo d ns
    else ((rowOf d.idx ns).keys.map fun key => sizeValue env d ns key none).sum := by
  rw [← (total_reads hlaw h ns).1]
  unfold size memo
  cases d.sizes.lookup ns with
  | none => rfl
  | some n =>
    dsimp only [Option.getD_some]
    split
    next => rfl
    next => rfl

end Disk

end Caudium.Storage
