import Caudium.CachePmod.FastStorage
import Caudium.Lib.Runs

/-!
# `Cache.Cache`: two tiers

A cache puts an object into RAM, or, when it is larger than `max_object_ram`,
onto disk; an object that is larger than `max_object_disk` too it ignores.
`retrieve` asks RAM and then disk, and moves a disk hit that is small enough into
RAM. So what it answers is the RAM entry's object, or, where RAM has no entry,
what the disk tier answers (`answer`), and a `retrieve` leaves every answer as
it was (`answer_retrieve`).

`Step` gives the calls as the steps of a machine, with the object most recently
stored under each name beside the cache.
-/

namespace Caudium.CachePmod

open Lib (Str Mapping)

/-- `class Cache`. -/
structure Cache (V S : Type) where
  ramCache : FastStorage V S
  diskCache : SlowStorage S
  maxObjectRam : Int
  maxObjectDisk : Int
  defaultTtl : Int
  lastAccess : Int

namespace Cache

variable {V S : Type} (env : Env V S) (now : Int) (c : Cache V S)

/-- `create`, over an empty storage. -/
def create (maxObjectRam maxObjectDisk defaultTtl : Int) : Cache V S :=
  { ramCache := .create, diskCache := .fresh, maxObjectRam := maxObjectRam
    maxObjectDisk := maxObjectDisk, defaultTtl := defaultTtl, lastAccess := 0 }

/-- `set_sizes`. -/
def setSizes (maxObjectRam maxObjectDisk : Int) : Cache V S :=
  { c with maxObjectRam := maxObjectRam, maxObjectDisk := maxObjectDisk }

/-- `store`. -/
def store (m : Meta V S) : Cache V S :=
  let m := if m.expires = 0 then { m with expires := now + c.defaultTtl } else m
  let c := { c with lastAccess := now }
  if m.size > c.maxObjectRam then
    if m.size > c.maxObjectDisk then c
    else { c with diskCache := (c.diskCache.store env now m).2 }
  else { c with ramCache := c.ramCache.store env now m }

/-- `retrieve`, without a callback: the object, `none` for 0 and for no answer. -/
def retrieve (name : Str) : Option (Object V S) × Cache V S :=
  let c := { c with lastAccess := now }
  let (object, ram) := c.ramCache.retrieve env now name
  let c := { c with ramCache := ram }
  match object with
  | some m => (m.object, c)
  | none =>
    let (object, disk) := c.diskCache.retrieve env now name
    let c := { c with diskCache := disk }
    match object with
    | some m =>
      if m.size < c.maxObjectRam then
        (m.object, { c with
          ramCache := c.ramCache.store env now m
          diskCache := c.diskCache.refresh env name })
      else (m.object, c)
    | none => (none, c)

/-- `refresh`. -/
def refresh (name : Str) : Cache V S :=
  { c with
    lastAccess := now
    ramCache := c.ramCache.refresh env name
    diskCache := c.diskCache.refresh env name }

/-- `free_ram`. -/
def freeRam (n : Int) (order : List Str) : Cache V S :=
  let (disk, ram) := c.ramCache.free env now n order c.diskCache
  { c with ramCache := ram, diskCache := disk }

/-- `flush`. -/
def flush (regexp : Option Str) : Cache V S :=
  { c with
    lastAccess := now
    ramCache := c.ramCache.flush env regexp
    diskCache := c.diskCache.flush env regexp }

@[simp] theorem maxObjectRam_store (m : Meta V S) :
    (c.store env now m).maxObjectRam = c.maxObjectRam := by
  unfold store
  dsimp only
  generalize (if m.expires = 0 then { m with expires := now + c.defaultTtl } else m) = m
  split
  · split <;> rfl
  · rfl

@[simp] theorem maxObjectRam_retrieve (name : Str) :
    (c.retrieve env now name).2.maxObjectRam = c.maxObjectRam := by
  unfold retrieve
  dsimp only
  split
  · rfl
  · split
    · split <;> rfl
    · rfl

/-! ## What the two tiers hold of a name -/

/-- The RAM entry of a name. -/
def ramCopy (name : Str) : Option (Meta V S) := c.ramCache.thecache.lookup (env.getHash name)

/-- What the disk tier would answer for a name. -/
def diskCopy (name : Str) : Option (Object V S) := c.diskCache.peek env (env.getHash name)

/-- What a `retrieve` answers. -/
def answer (name : Str) : Option (Object V S) :=
  match c.ramCopy env name with
  | some m => m.object
  | none => c.diskCopy env name

/-- Both tiers file what they hold under its own hash, and RAM holds variables. -/
structure Filed : Prop where
  ram : c.ramCache.Filed
  disk : c.diskCache.Filed env

theorem create_filed (maxObjectRam maxObjectDisk defaultTtl : Int) :
    (create (V := V) (S := S) maxObjectRam maxObjectDisk defaultTtl).Filed env :=
  ⟨fun _ _ h => (nomatch h), fun _ _ h => (nomatch h)⟩

/-- A mapping as `cachelib` makes them for a value: a variable without a hash. -/
structure Storable (m : Meta V S) : Prop where
  type : m.type = .var
  hash : m.hash = none

variable {env now c}

/-! ## `retrieve` -/

/-- A `retrieve` answers `answer`. -/
theorem retrieve_fst (hlaw : env.Lawful) (hf : c.Filed env) (name : Str) :
    (c.retrieve env now name).1 = c.answer env name := by
  unfold retrieve answer ramCopy
  dsimp only
  cases hl : c.ramCache.thecache.lookup (env.getHash name) with
  | some m =>
    rw [FastStorage.retrieve_some env now _ (hf.ram _ _ hl).1 hl]
  | none =>
    rw [FastStorage.retrieve_none env now _ hl]
    dsimp only
    have hpeek := (c.diskCache.retrieve_spec env now hlaw hf.disk name).1
    cases hd : (c.diskCache.retrieve env now name).1 with
    | none =>
      rw [hd] at hpeek
      exact hpeek
    | some m =>
      rw [hd] at hpeek
      dsimp only
      split <;> exact hpeek

/-- What a `retrieve` does to the RAM entry of one hash: nothing but to its
counters, or the disk tier's record has been copied there. -/
inductive Retrieved (env : Env V S) (c c' : Cache V S) (h : Str) : Prop where
  | same (hram : c'.ramCache.thecache.lookup h = c.ramCache.thecache.lookup h)
  | counted {m : Meta V S} {k : Nat} {t : Int} (hram : c.ramCache.thecache.lookup h = some m)
      (hram' : c'.ramCache.thecache.lookup h = some { m with hits := k, lastRetrieval := t })
  | promoted {m m' : Meta V S} (hram : c.ramCache.thecache.lookup h = none)
      (hmeta : c.diskCache.metaAt env h = some m) (hobj : m'.object = c.diskCache.peek env h)
      (hsome : m'.object ≠ none) (htype : m'.type = .var) (hhash : m'.hash = some h)
      (hmark : m'.diskCache = m.diskCache) (hram' : c'.ramCache.thecache.lookup h = some m')

theorem retrieve_effect (now : Int) (hlaw : env.Lawful) (hf : c.Filed env) (name : Str) :
    SlowStorage.SameRecords env c.diskCache (c.retrieve env now name).2.diskCache ∧
    ∀ h, Retrieved env c (c.retrieve env now name).2 h := by
  unfold retrieve
  dsimp only
  -- a hit in RAM counts; a miss there may bring the object up from disk
  cases hl : c.ramCache.thecache.lookup (env.getHash name) with
  | some m =>
    rw [FastStorage.retrieve_some env now _ (hf.ram _ _ hl).1 hl]
    refine ⟨⟨fun _ => rfl, fun h m' hm' => ⟨m', hm', rfl, rfl⟩⟩, fun h => ?_⟩
    by_cases hh : h = env.getHash name
    · subst hh
      exact .counted hl (AList.lookup_insert _)
    · exact .same (AList.lookup_insert_ne hh)
  | none =>
    rw [FastStorage.retrieve_none env now _ hl]
    dsimp only
    have hsame := c.diskCache.retrieve_same env now hlaw hf.disk name
    obtain ⟨hpeek, -, -, hmeta⟩ := c.diskCache.retrieve_spec env now hlaw hf.disk name
    cases hd : (c.diskCache.retrieve env now name).1 with
    | none => exact ⟨hsame, fun h => .same rfl⟩
    | some m =>
      rw [hd] at hpeek
      obtain ⟨m₀, k, hm₀, htype, hsome, hm⟩ := hmeta m hd
      dsimp only
      split
      -- small enough for RAM: moved up, and refreshed from disk
      next hsmall =>
        refine ⟨hsame.trans env (SlowStorage.refresh_same env _ name), fun h => ?_⟩
        have hhash : m.hash = some (env.getHash name) := by
          rw [hm]
          exact hf.disk _ m₀ hm₀
        have hstore := FastStorage.lookup_store env now
          { c.ramCache with misses := c.ramCache.misses + 1 } (m := m)
          (by rw [hm]; exact htype) (show m.hash.getD _ = env.getHash name by rw [hhash]; rfl) h
        by_cases hh : h = env.getHash name
        · subst hh
          rw [if_pos rfl] at hstore
          have htouch : (m.touch env now).hash = some (env.getHash name) := by
            unfold Meta.touch
            rw [hhash]
            rfl
          exact .promoted hl hm₀ (show (m.touch env now).object = _ from hpeek) hsome
            (by rw [hm]; exact htype) htouch (by rw [hm]; rfl) hstore
        · rw [if_neg hh] at hstore
          exact .same hstore
      next => exact ⟨hsame, fun h => .same rfl⟩

theorem retrieve_filed (hlaw : env.Lawful) (hf : c.Filed env) (name : Str) :
    (c.retrieve env now name).2.Filed env := by
  obtain ⟨hsame, heff⟩ := retrieve_effect now hlaw hf name
  refine ⟨fun h m hm => ?_, hsame.filed env hf.disk⟩
  cases heff h with
  | same hram => exact hf.ram h m (hram ▸ hm)
  | counted hram hram' =>
    obtain rfl := Option.some.inj (hram'.symm.trans hm)
    obtain ⟨htype, hhash⟩ := hf.ram h _ hram
    exact ⟨htype, hhash⟩
  | promoted _ _ _ _ htype hhash _ hram' =>
    obtain rfl := Option.some.inj (hram'.symm.trans hm)
    exact ⟨htype, hhash⟩

/-- A `retrieve` leaves every answer as it was. -/
theorem answer_retrieve (hlaw : env.Lawful) (hf : c.Filed env) (name name' : Str) :
    (c.retrieve env now name).2.answer env name' = c.answer env name' := by
  obtain ⟨hsame, heff⟩ := retrieve_effect now hlaw hf name
  unfold answer ramCopy diskCopy
  cases heff (env.getHash name') with
  | same hram => rw [hram, hsame.peek]
  | counted hram hram' => rw [hram, hram']
  | promoted hram _ hobj _ _ _ _ hram' =>
    rw [hram, hram']
    exact hobj

/-! ## `store`, `refresh`, `free_ram` -/

/-- Where a `store` puts a mapping. -/
inductive Stored (env : Env V S) (c c' : Cache V S) (m : Meta V S) : Prop where
  /-- Into RAM. -/
  | ram {m' : Meta V S} (hsize : m.size ≤ c.maxObjectRam) (hdisk : c'.diskCache = c.diskCache)
      (htype : m'.type = .var) (hhash : m'.hash = some (env.getHash m.name))
      (hobj : m'.object = m.object) (hmark : m'.diskCache = m.diskCache)
      (hram : ∀ h, c'.ramCache.thecache.lookup h
        = if h = env.getHash m.name then some m' else c.ramCache.thecache.lookup h)
  /-- Onto disk. -/
  | disk {m' : Meta V S} (hlarge : c.maxObjectRam < m.size) (hsize : m.size ≤ c.maxObjectDisk)
      (hram : c'.ramCache = c.ramCache)
      (hother : ∀ h ≠ env.getHash m.name, c'.diskCache.metaAt env h = c.diskCache.metaAt env h ∧
        c'.diskCache.objectAt env h = c.diskCache.objectAt env h)
      (henc : SlowStorage.Encodes env m) (htype : m'.type = .var)
      (hhash : m'.hash = some (env.getHash m.name)) (hprog : m'.program = m.program)
      (hmeta : c'.diskCache.metaAt env (env.getHash m.name) = some m')
      (hobj : c'.diskCache.objectAt env (env.getHash m.name) = m.object)
      (hmark : m'.diskCache = true)
  /-- Nowhere: too large for both, or not for the disk tier. -/
  | nowhere (hlarge : c.maxObjectRam < m.size)
      (hwhy : c.maxObjectDisk < m.size ∨ ¬ SlowStorage.Encodes env m)
      (hram : c'.ramCache = c.ramCache)
      (hdisk : ∀ h, c'.diskCache.metaAt env h = c.diskCache.metaAt env h ∧
        c'.diskCache.objectAt env h = c.diskCache.objectAt env h)

theorem store_stored (now : Int) (hlaw : env.Lawful) {m : Meta V S} (hm : Storable m) :
    Stored env c (c.store env now m) m := by
  -- the mapping with its time of expiry, which no branch looks at
  obtain ⟨m₁, hm₁, hname, htype, hhash, hobj, hmark, hsize, hprog⟩ : ∃ m₁ : Meta V S,
      m₁ = (if m.expires = 0 then { m with expires := now + c.defaultTtl } else m) ∧
      m₁.name = m.name ∧ m₁.type = .var ∧ m₁.hash = none ∧ m₁.object = m.object ∧
      m₁.diskCache = m.diskCache ∧ m₁.size = m.size ∧ m₁.program = m.program := by
    refine ⟨_, rfl, ?_⟩
    split <;> exact ⟨rfl, hm.type, hm.hash, rfl, rfl, rfl, rfl⟩
  have henc : SlowStorage.Encodes env m₁ ↔ SlowStorage.Encodes env m := by
    unfold SlowStorage.Encodes
    rw [hmark, hobj]
  have hget : m₁.hash.getD (env.getHash m₁.name) = env.getHash m.name := by
    rw [hhash, hname]
    rfl
  have htouch : (m₁.touch env now).hash = some (env.getHash m.name) := congrArg some hget
  unfold store
  dsimp only
  rw [← hm₁, hsize]
  split
  next hlarge =>
    split
    next hhuge => exact .nowhere hlarge (Or.inl hhuge) rfl fun _ => ⟨rfl, rfl⟩
    next hfit =>
      obtain ⟨hother, hown⟩ := c.diskCache.store_variable env now hlaw htype hget
      rcases hown with ⟨he, ⟨n, hmeta⟩, ho⟩ | ⟨hno, hmeta, ho⟩
      · exact .disk hlarge (Int.not_lt.mp hfit) rfl hother (henc.mp he)
          (show (Meta.type { m₁.touch env now with size := n, object := none }) = _ from htype)
          htouch hprog hmeta (ho.trans hobj) he.1
      · refine .nowhere hlarge (Or.inr fun he => hno (henc.mpr he)) rfl fun h => ?_
        by_cases hh : h = env.getHash m.name
        · subst hh
          exact ⟨hmeta, ho⟩
        · exact hother h hh
  next hsmall =>
    exact .ram (Int.not_lt.mp hsmall) rfl (show (m₁.touch env now).type = _ from htype) htouch hobj hmark
      (FastStorage.lookup_store env now c.ramCache htype hget)

theorem store_filed (hlaw : env.Lawful) (hf : c.Filed env) {m : Meta V S} (hm : Storable m) :
    (c.store env now m).Filed env := by
  cases store_stored (c := c) now hlaw hm with
  | ram _ hdisk htype hhash _ _ hram =>
    refine ⟨fun h m₁ hm₁ => ?_, by rw [hdisk]; exact hf.disk⟩
    rw [hram] at hm₁
    split at hm₁
    next hh =>
      obtain rfl := Option.some.inj hm₁
      exact ⟨htype, hh ▸ hhash⟩
    next => exact hf.ram h m₁ hm₁
  | disk _ _ hram hother _ _ hhash _ hmeta =>
    refine ⟨by rw [hram]; exact hf.ram, fun h m₁ hm₁ => ?_⟩
    by_cases hh : h = env.getHash m.name
    · subst hh
      obtain rfl := Option.some.inj (hmeta.symm.trans hm₁)
      exact hhash
    · exact hf.disk h m₁ ((hother h hh).1 ▸ hm₁)
  | nowhere _ _ hram hdisk =>
    exact ⟨by rw [hram]; exact hf.ram, fun h m₁ hm₁ => hf.disk h m₁ ((hdisk h).1 ▸ hm₁)⟩

/-- A `store` under another hash changes neither tier's reading. -/
theorem store_other (now : Int) (hlaw : env.Lawful) {m : Meta V S} (hm : Storable m) {h : Str}
    (hne : h ≠ env.getHash m.name) :
    (c.store env now m).ramCache.thecache.lookup h = c.ramCache.thecache.lookup h ∧
    (c.store env now m).diskCache.peek env h = c.diskCache.peek env h := by
  cases store_stored (c := c) now hlaw hm with
  | ram _ hdisk _ _ _ _ hram => exact ⟨by rw [hram, if_neg hne], by rw [hdisk]⟩
  | disk _ _ hram hother =>
    exact ⟨by rw [hram], SlowStorage.peek_congr env (hother h hne).1 (hother h hne).2⟩
  | nowhere _ _ hram hdisk =>
    exact ⟨by rw [hram], SlowStorage.peek_congr env (hdisk h).1 (hdisk h).2⟩

theorem refresh_filed (hf : c.Filed env) (name : Str) : (c.refresh env now name).Filed env := by
  refine ⟨fun h m hm => ?_, (SlowStorage.refresh_same env _ name).filed env hf.disk⟩
  rw [show (c.refresh env now name).ramCache = c.ramCache.refresh env name from rfl,
    FastStorage.lookup_refresh] at hm
  split at hm
  · cases hm
  · exact hf.ram h m hm

theorem freeRam_freed (now : Int) (hlaw : env.Lawful) (hf : c.Filed env) (n : Int) (order : List Str)
    (h : Str) :
    FastStorage.Freed env now c.ramCache c.diskCache (c.freeRam env now n order).diskCache
      (c.freeRam env now n order).ramCache h :=
  FastStorage.free_freed env now c.ramCache hlaw n order c.diskCache hf.ram h

theorem freeRam_filed (hlaw : env.Lawful) (hf : c.Filed env) (n : Int) (order : List Str) :
    (c.freeRam env now n order).Filed env := by
  have hfreed := freeRam_freed now hlaw hf n order
  refine ⟨FastStorage.Freed.filed env now hf.ram hfreed, fun h m hm => ?_⟩
  cases hfreed h with
  | kept _ hmeta => exact hf.disk h m (hmeta ▸ hm)
  | dropped _ _ _ hmeta => exact hf.disk h m (hmeta ▸ hm)
  | moved hm₁ _ _ hmeta =>
    obtain rfl := Option.some.inj (hmeta.symm.trans hm)
    rw [Meta.touch]
    dsimp only
    rw [(hf.ram h _ hm₁).2]
    rfl

end Cache

/-! ## Sequences of calls -/

/-- A call on a cache, at a time. -/
inductive Op (V S : Type) where
  | store (now : Int) (m : Meta V S)
  | retrieve (now : Int) (name : Str)
  | refresh (now : Int) (name : Str)
  | freeRam (now n : Int) (order : List Str)
  | setSizes (maxObjectRam maxObjectDisk : Int)

/-- The names a call is about are `names`, and what it stores is a variable. -/
def Op.About {V S : Type} (names : Set Str) : Op V S → Prop
  | .store _ m => m.name ∈ names ∧ Cache.Storable m
  | .retrieve _ name => name ∈ names
  | .refresh _ name => name ∈ names
  | .freeRam _ _ _ => True
  | .setSizes _ _ => True

namespace Cache

variable {V S : Type} (env : Env V S)

/-- One call. The order `free_ram` takes is one of the entries that have not
expired. -/
def step (c : Cache V S) : Op V S → Option (Cache V S)
  | .store now m => some (c.store env now m)
  | .retrieve now name => some (c.retrieve env now name).2
  | .refresh now name => some (c.refresh env now name)
  | .freeRam now n order =>
    if order.isPerm (c.ramCache.expireCache now).thecache.keys then
      some (c.freeRam env now n order)
    else none
  | .setSizes maxObjectRam maxObjectDisk => some (c.setSizes maxObjectRam maxObjectDisk)

variable {env}

theorem step_freeRam {c c' : Cache V S} {now n : Int} {order : List Str}
    (hs : c.step env (.freeRam now n order) = some c') : c' = c.freeRam env now n order := by
  rw [step] at hs
  split at hs
  · exact (Option.some.inj hs).symm
  · cases hs

/-- A step keeps what both tiers hold filed. -/
theorem step_filed (hlaw : env.Lawful) {names : Set Str} {c c' : Cache V S} {op : Op V S}
    (hop : op.About names) (hf : c.Filed env) (hs : c.step env op = some c') : c'.Filed env := by
  cases op with
  | store now m => obtain rfl := Option.some.inj hs; exact store_filed hlaw hf hop.2
  | retrieve now name => obtain rfl := Option.some.inj hs; exact retrieve_filed hlaw hf name
  | refresh now name => obtain rfl := Option.some.inj hs; exact refresh_filed hf name
  | freeRam now n order =>
    obtain rfl := step_freeRam hs
    exact freeRam_filed hlaw hf n order
  | setSizes a b => obtain rfl := Option.some.inj hs; exact ⟨hf.ram, hf.disk⟩

end Cache

end Caudium.CachePmod
