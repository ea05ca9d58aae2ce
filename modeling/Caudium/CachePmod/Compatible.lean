import Caudium.CachePmod.Cache

/-!
# `Cache.Compatible`: `cache_set`, `cache_lookup`, `cache_expire`

The old interface files everything in one cache under composed names,
`in://what`. `cache_expire(in)` flushes with the expression `^in://`; but neither
tier files anything under its name. RAM matches the expression against the
hexadecimal hashes and, for a hash that matches, calls `refresh`, which hashes it
once more; the disk tier matches it against its paths. The hash of a hash is no
composed name's hash (`flush_keeps`: a hash has no ':'), so an expiry leaves
every answer as it was, and `cache_expire_iff` follows: a namespace is expired
exactly when there was nothing in it.

Values stored this way have size 0, so they all go into RAM and the disk tier
stays empty.
-/

namespace Caudium.CachePmod

open Lib (Str Mapping runFrom inv_of_runFrom)

/-! ## `cachelib` -/

/-- The `type` argument of `go`, with the size it measures. -/
inductive GoType where
  | file (size : Int)
  | pike
  | program
  | string (size : Int)
  | image (size : Int)

/-- `meta->expires`: an `exp` before now is taken as seconds from now. -/
def goExpires (now exp : Int) : Int :=
  if exp = -1 then -1
  else if exp = 0 then 0
  else if exp < now ∧ exp > 0 then exp + now
  else if exp > now then exp
  else 0

/-- Whether a value of this type may go to disk. -/
def PikeType.onDisk : PikeType → Bool
  | .float | .int | .array | .multiset | .mapping | .program => true
  | .object | .function | .other => false

variable {V S : Type}

/-- `go`. -/
def go (env : Env V S) (now : Int) (type : GoType) (obj : Option (Object V S)) (name : Str)
    (exp : Int) : Meta V S :=
  let pike := env.pikeType obj
  { name := name
    object := obj
    type := match type with
      | .file _ => .stdio
      | .pike | .program | .string _ => .var
      | .image _ => .image
    size := match type with
      | .file size | .string size | .image size => size
      | .pike | .program => 0
    expires := goExpires now exp
    diskCache := match type with
      | .pike => pike.onDisk
      | _ => true
    program := match type with
      | .pike => pike = .program
      | .program => true
      | _ => false
    createTime := 0
    lastRetrieval := 0
    hits := 0
    hash := none }

/-- `cache_pike_object`. -/
def cachePikeObject (env : Env V S) (now : Int) (var : Option (Object V S)) (name : Str)
    (exp : Int) : Meta V S := go env now .pike var name exp

/-! ## The old interface -/

/-- `sprintf("%s://%s", in, what)`. -/
def composed (space what : Str) : Str := space ++ "://".toList ++ what

/-- `sprintf("^%s://", in)`. -/
def expiry (space : Str) : Str := '^' :: (space ++ "://".toList)

namespace Cache

variable (env : Env V S) (now : Int) (c : Cache V S)

/-- `cache_set`. A `what` that is a string is true, the empty one included. -/
def cacheSet (space what : Str) (value : Option (Object V S)) (tm : Int) : Cache V S :=
  c.store env now (cachePikeObject env now value (composed space what) tm)

/-- `cache_lookup`: the value, `none` for 0. -/
def cacheLookup (space what : Str) : Option (Object V S) × Cache V S :=
  c.retrieve env now (composed space what)

/-- `cache_expire`. -/
def cacheExpire (space : Str) : Cache V S := c.flush env now (some (expiry space))

end Cache

/-- A call of the old interface, or the RAM tier's `expire_cache` call-out. -/
inductive CompatOp (V S : Type) where
  | set (now : Int) (space what : Str) (value : Option (Object V S)) (tm : Int)
  | lookup (now : Int) (space what : Str)
  | expireCache (now : Int)

/-- The names a call is about are `names`. -/
def CompatOp.About (names : Set (Str × Str)) : CompatOp V S → Prop
  | .set _ space what _ _ => (space, what) ∈ names
  | .lookup _ space what => (space, what) ∈ names
  | .expireCache _ => True

/-- The call sets the composed name. -/
def CompatOp.Sets (space what : Str) : CompatOp V S → Prop
  | .set _ space' what' _ _ => composed space' what' = composed space what
  | _ => False

/-- The composed names. -/
def composedNames (names : Set (Str × Str)) : Set Str :=
  {n | ∃ p ∈ names, n = composed p.1 p.2}

/-- The names whose digests are taken: the composed ones and, by a flush, their
hashes. -/
def digested (env : Env V S) (names : Set (Str × Str)) : Set Str :=
  composedNames names ∪ env.getHash '' composedNames names

namespace Cache

/-- One call. -/
def compatStep (env : Env V S) (c : Cache V S) : CompatOp V S → Option (Cache V S)
  | .set now space what value tm => some (c.cacheSet env now space what value tm)
  | .lookup now space what => some (c.cacheLookup env now space what).2
  | .expireCache now => some { c with ramCache := c.ramCache.expireCache now }

variable {env : Env V S} {names : Set (Str × Str)} {c c' : Cache V S} {now : Int}

/-- Everything is in RAM, under the hashes of composed names. -/
structure RamOnly (env : Env V S) (names : Set (Str × Str)) (c : Cache V S) : Prop where
  filed : c.Filed env
  room : 0 ≤ c.maxObjectRam
  disk : c.diskCache.storage = ∅
  named : ∀ h m, c.ramCache.thecache.lookup h = some m →
    ∃ n ∈ composedNames names, h = env.getHash n

theorem metaAt_empty {d : SlowStorage S} (h : d.storage = ∅) (hash : Str) :
    d.metaAt env hash = none := by
  rw [SlowStorage.metaAt, h]
  rfl

theorem RamOnly.diskCopy (h : c.RamOnly env names) (name : Str) : c.diskCopy env name = none := by
  rw [Cache.diskCopy, SlowStorage.peek, metaAt_empty h.disk]

/-- A `cache_set` goes into RAM. -/
theorem cacheSet_spec (now : Int) (hlaw : env.Lawful) (h : c.RamOnly env names) (space what : Str)
    (value : Option (Object V S)) (tm : Int) :
    (c.cacheSet env now space what value tm).diskCache = c.diskCache ∧
    ∃ m : Meta V S, m.object = value ∧
      ∀ h', (c.cacheSet env now space what value tm).ramCache.thecache.lookup h'
        = if h' = env.getHash (composed space what) then some m
          else c.ramCache.thecache.lookup h' := by
  have hsize : (cachePikeObject env now value (composed space what) tm).size = 0 := rfl
  cases store_stored (c := c) now hlaw
    (m := cachePikeObject env now value (composed space what) tm) ⟨rfl, rfl⟩ with
  | @ram m' _ hdisk _ _ hobj _ hram => exact ⟨hdisk, m', hobj, hram⟩
  | disk hlarge => rw [hsize] at hlarge; exact absurd h.room (Int.not_le.mpr hlarge)
  | nowhere hlarge => rw [hsize] at hlarge; exact absurd h.room (Int.not_le.mpr hlarge)

/-- A `cache_lookup` counts a hit in RAM, and changes nothing else there. -/
theorem cacheLookup_spec (now : Int) (hlaw : env.Lawful) (h : c.RamOnly env names) (space what : Str) :
    (c.cacheLookup env now space what).2.diskCache.storage = ∅ ∧
    ∀ h', (c.cacheLookup env now space what).2.ramCache.thecache.lookup h'
        = c.ramCache.thecache.lookup h' ∨
      ∃ m k t, c.ramCache.thecache.lookup h' = some m ∧
        (c.cacheLookup env now space what).2.ramCache.thecache.lookup h'
          = some { m with hits := k, lastRetrieval := t } := by
  constructor
  · unfold cacheLookup retrieve
    dsimp only
    split
    · exact h.disk
    · rw [SlowStorage.retrieve, metaAt_empty h.disk]
      exact h.disk
  · intro h'
    cases (retrieve_effect now hlaw h.filed (composed space what)).2 h' with
    | same hram => exact Or.inl hram
    | counted hram hram' => exact Or.inr ⟨_, _, _, hram, hram'⟩
    | promoted _ hmeta => rw [metaAt_empty h.disk] at hmeta; cases hmeta

theorem compatStep_ramOnly (hlaw : env.Lawful) {op : CompatOp V S} (hop : op.About names)
    (h : c.RamOnly env names) (hs : c.compatStep env op = some c') : c'.RamOnly env names := by
  cases op with
  | set now space what value tm =>
    obtain rfl := Option.some.inj hs
    obtain ⟨hdisk, m, -, hram⟩ := cacheSet_spec now hlaw h space what value tm
    refine ⟨store_filed hlaw h.filed ⟨rfl, rfl⟩, ?_, by rw [hdisk]; exact h.disk, fun h' m' hm' => ?_⟩
    · rw [cacheSet, maxObjectRam_store]
      exact h.room
    · rw [hram] at hm'
      split at hm'
      next he => exact ⟨_, ⟨_, hop, rfl⟩, he⟩
      next => exact h.named h' m' hm'
  | lookup now space what =>
    obtain rfl := Option.some.inj hs
    obtain ⟨hdisk, hram⟩ := cacheLookup_spec now hlaw h space what
    refine ⟨retrieve_filed hlaw h.filed _, ?_, hdisk, fun h' m' hm' => ?_⟩
    · rw [cacheLookup, maxObjectRam_retrieve]
      exact h.room
    · rcases hram h' with hsame | ⟨m, k, t, hm, -⟩
      · exact h.named h' m' (hsame ▸ hm')
      · exact h.named h' m hm
  | expireCache now =>
    obtain rfl := Option.some.inj hs
    have hsub : ∀ h' m', (c.ramCache.expireCache now).thecache.lookup h' = some m' →
        c.ramCache.thecache.lookup h' = some m' := by
      intro h' m' hm'
      rcases c.ramCache.lookup_expireCache now h' with hk | ⟨_, _, _, hnone⟩
      · exact hk ▸ hm'
      · rw [hnone] at hm'
        cases hm'
    exact ⟨⟨fun h' m' hm' => h.filed.ram h' m' (hsub h' m' hm'), h.filed.disk⟩, h.room, h.disk,
      fun h' m' hm' => h.named h' m' (hsub h' m' hm')⟩

/-! ## Flushing -/

/-- Refreshing keys whose own hashes are other ones leaves an entry. -/
theorem lookup_foldl_refresh (env : Env V S) (h : Str) (keys : List Str) :
    ∀ r : FastStorage V S, (∀ key ∈ keys, env.getHash key ≠ h) →
      (keys.foldl (fun r key => r.refresh env key) r).thecache.lookup h = r.thecache.lookup h := by
  induction keys with
  | nil => exact fun r _ => rfl
  | cons key keys ih =>
    intro r hne
    rw [List.foldl_cons, ih _ fun k hk => hne k (List.mem_cons_of_mem _ hk),
      FastStorage.lookup_refresh, if_neg fun e => hne key (List.mem_cons_self ..) e.symm]

/-- A composed name has a ':'. -/
theorem colon_mem_composed (space what : Str) : ':' ∈ composed space what := by
  simp [composed]

/-- **An expiry changes no entry**: what it matches are hashes, and the hash of a
hash is not that of a composed name. -/
theorem flush_keeps (hinj : Set.InjOn env.hashMd5 (digested env names)) (h : c.RamOnly env names)
    (regexp : Str) (h' : Str) (hnamed : ∃ n ∈ composedNames names, h' = env.getHash n) :
    (c.flush env now (some regexp)).ramCache.thecache.lookup h'
      = c.ramCache.thecache.lookup h' := by
  refine lookup_foldl_refresh env h' _ c.ramCache fun key hkey he => ?_
  obtain ⟨m, hm⟩ := (Lib.Mapping.mem_keys_iff _ _).mp (List.mem_of_mem_filter hkey)
  obtain ⟨n, hn, rfl⟩ := h.named key m hm
  obtain ⟨n', hn', rfl⟩ := hnamed
  have hsame : env.getHash n = n' :=
    env.getHash_inj hinj (Or.inr ⟨n, hn, rfl⟩) (Or.inl hn') he
  obtain ⟨p, -, rfl⟩ := hn'
  have hmem := colon_mem_composed p.1 p.2
  rw [← hsame] at hmem
  exact (mem_hex_ne hmem).2 rfl

theorem flush_ramOnly (h : c.RamOnly env names) (regexp : Str) :
    (c.flush env now (some regexp)).RamOnly env names := by
  have hdisk : (c.flush env now (some regexp)).diskCache.storage = ∅ := by
    show c.diskCache.storage.eraseAll (c.diskCache.storage.keys.filter _) = ∅
    rw [h.disk]
    rfl
  -- a flush only ever takes entries away
  have hsub : ∀ h' m', (c.flush env now (some regexp)).ramCache.thecache.lookup h' = some m' →
      c.ramCache.thecache.lookup h' = some m' := by
    intro h' m'
    have hfold : ∀ (keys : List Str) (r : FastStorage V S),
        (keys.foldl (fun r key => r.refresh env key) r).thecache.lookup h' = some m' →
          r.thecache.lookup h' = some m' := by
      intro keys
      induction keys with
      | nil => exact fun r hm => hm
      | cons key keys ih =>
        intro r hm
        have := ih _ hm
        rw [FastStorage.lookup_refresh] at this
        split at this
        · cases this
        · exact this
    exact hfold _ c.ramCache
  refine ⟨⟨fun h' m' hm' => h.filed.ram h' m' (hsub h' m' hm'), fun h' m' hm' => ?_⟩, h.room, hdisk,
    fun h' m' hm' => h.named h' m' (hsub h' m' hm')⟩
  rw [metaAt_empty hdisk] at hm'
  cases hm'

/-! ## Misses -/

/-- RAM holds no true value under the name. -/
def Misses (env : Env V S) (c : Cache V S) (name : Str) : Prop :=
  ∀ m, c.ramCopy env name = some m → m.object = none

theorem lookup_eq_none_iff (hlaw : env.Lawful) (h : c.RamOnly env names) (space what : Str) :
    (c.cacheLookup env now space what).1 = none ↔ c.Misses env (composed space what) := by
  rw [cacheLookup, retrieve_fst hlaw h.filed, answer, Misses, h.diskCopy]
  cases c.ramCopy env (composed space what) with
  | none => exact iff_of_true rfl fun _ hm => nomatch hm
  | some m => exact ⟨fun hm m' he => Option.some.inj he ▸ hm, fun hm => hm m rfl⟩

/-- A name that misses goes on missing until it is set. -/
theorem compatStep_misses (hlaw : env.Lawful) (hinj : Set.InjOn env.hashMd5 (digested env names))
    {space what : Str} (hn : (space, what) ∈ names) {op : CompatOp V S} (hop : op.About names)
    (hno : ¬ op.Sets space what) (hI : c.RamOnly env names)
    (h : c.Misses env (composed space what)) (hs : c.compatStep env op = some c') :
    c'.Misses env (composed space what) := by
  cases op with
  | set now space' what' value tm =>
    obtain rfl := Option.some.inj hs
    obtain ⟨-, m, -, hram⟩ := cacheSet_spec now hlaw hI space' what' value tm
    have hhash : env.getHash (composed space what) ≠ env.getHash (composed space' what') := by
      intro e
      exact hno (env.getHash_inj hinj (Or.inl ⟨_, hn, rfl⟩) (Or.inl ⟨_, hop, rfl⟩) e).symm
    intro m' hm'
    rw [ramCopy, hram, if_neg hhash] at hm'
    exact h m' hm'
  | lookup now space' what' =>
    obtain rfl := Option.some.inj hs
    obtain ⟨-, hram⟩ := cacheLookup_spec now hlaw hI space' what'
    intro m' hm'
    rcases hram (env.getHash (composed space what)) with hsame | ⟨m, k, t, hm, hm₁⟩
    · exact h m' (hsame.symm.trans hm')
    · obtain rfl := Option.some.inj (hm₁.symm.trans hm')
      exact h m hm
  | expireCache now =>
    obtain rfl := Option.some.inj hs
    intro m' hm'
    rcases c.ramCache.lookup_expireCache now (env.getHash (composed space what)) with
      hk | ⟨_, _, _, hnone⟩
    · exact h m' (hk.symm.trans hm')
    · exact nomatch hnone.symm.trans hm'

/-- **Namespace expiry, with its exact condition.** After any calls of the old
interface on a new cache: `cache_expire(in)` makes every `cache_lookup(in, ..)`
miss until the name is set again, and leaves the lookups in namespaces its
expression does not match as they were, exactly when RAM held no true value of
the namespace to begin with. -/
theorem cache_expire_iff (hlaw : env.Lawful)
    (hinj : Set.InjOn env.hashMd5 (digested env names)) {maxObjectRam : Int}
    (hroom : 0 ≤ maxObjectRam) (maxObjectDisk defaultTtl : Int) (ops : List (CompatOp V S))
    (hops : ∀ op ∈ ops, op.About names)
    (hr : runFrom (compatStep env) (create maxObjectRam maxObjectDisk defaultTtl) ops = some c)
    (now : Int) (space : Str) :
    ((∀ what later c', (space, what) ∈ names →
        (∀ op ∈ later, op.About names ∧ ¬ op.Sets space what) →
        runFrom (compatStep env) (c.cacheExpire env now space) later = some c' →
          ∀ now', (c'.cacheLookup env now' space what).1 = none) ∧
      (∀ space' what, (space', what) ∈ names → space' ≠ space →
        env.regexpMatch (expiry space) (space' ++ "://".toList) = false → ∀ now',
          ((c.cacheExpire env now space).cacheLookup env now' space' what).1
            = (c.cacheLookup env now' space' what).1)) ↔
    ∀ what, (space, what) ∈ names → c.Misses env (composed space what) := by
  have hI₀ : (create (V := V) (S := S) maxObjectRam maxObjectDisk defaultTtl).RamOnly env names :=
    ⟨create_filed env .., hroom, rfl, fun _ _ h => nomatch h⟩
  have hI : c.RamOnly env names :=
    inv_of_runFrom (fun _ _ _ hop hI hs => compatStep_ramOnly hlaw hop hI hs) ops _ c hops hI₀ hr
  have hI' : (c.cacheExpire env now space).RamOnly env names := flush_ramOnly hI _
  -- the expression is matched against hashes, so the flush keeps every copy
  have hkeep : ∀ space' what, (space', what) ∈ names →
      (c.cacheExpire env now space).ramCopy env (composed space' what)
        = c.ramCopy env (composed space' what) :=
    fun space' what hn => flush_keeps hinj hI _ _ ⟨_, ⟨_, hn, rfl⟩, rfl⟩
  constructor
  -- the empty run and a single lookup give the condition
  · intro hand what hn
    obtain ⟨hmiss, -⟩ := hand
    have hread := hmiss what [] _ hn (fun _ h => nomatch h) rfl 0
    rw [lookup_eq_none_iff hlaw hI', Misses, hkeep space what hn] at hread
    exact hread
  · intro hnone
    refine ⟨fun what later c' hn hlater hrun now' => ?_, fun space' what hn _ _ now' => ?_⟩
    · have hmiss : (c.cacheExpire env now space).Misses env (composed space what) := by
        rw [Misses, hkeep space what hn]
        exact hnone what hn
      obtain ⟨hIc, hm⟩ := inv_of_runFrom
        (P := fun c => c.RamOnly env names ∧ c.Misses env (composed space what))
        (fun _ _ _ hop hP hs => ⟨compatStep_ramOnly hlaw hop.1 hP.1 hs,
          compatStep_misses hlaw hinj hn hop.1 hop.2 hP.1 hP.2 hs⟩) later _ c' hlater
        ⟨hI', hmiss⟩ hrun
      exact (lookup_eq_none_iff hlaw hIc space what).mpr hm
    · rw [cacheLookup, cacheLookup, retrieve_fst hlaw hI'.filed, retrieve_fst hlaw hI.filed, answer,
        answer, hkeep space' what hn, hI.diskCopy, hI'.diskCopy]

/-- The digests of "in://a" and of its hash differ. -/
theorem sampleEnv_injOn :
    Set.InjOn sampleEnv.hashMd5 (digested sampleEnv {("in".toList, "a".toList)}) := by
  have hmem : ∀ x ∈ digested sampleEnv {("in".toList, "a".toList)},
      x = "in://a".toList ∨ x = sampleEnv.getHash "in://a".toList := by
    intro x hor
    obtain ⟨p, rfl, rfl⟩ | ⟨_, ⟨p, rfl, rfl⟩, rfl⟩ := hor
    · exact Or.inl rfl
    · exact Or.inr rfl
  intro m hm n hn h
  rcases hmem m hm with rfl | rfl <;> rcases hmem n hn with rfl | rfl
  · rfl
  · exact absurd h (by decide)
  · exact absurd h (by decide)
  · rfl

/-- The cache that has 7 under "in://a". -/
def setA : Cache Nat Encoded :=
  (create 100 1000 60).cacheSet sampleEnv 1 "in".toList "a".toList (some (.value 7)) 0

theorem cache_expire_iff_setA :
    ((∀ what later c', ("in".toList, what) ∈ ({("in".toList, "a".toList)} : Set (Str × Str)) →
        (∀ op ∈ later, op.About {("in".toList, "a".toList)} ∧ ¬ op.Sets "in".toList what) →
        runFrom (compatStep sampleEnv) (setA.cacheExpire sampleEnv 2 "in".toList) later = some c' →
          ∀ now', (c'.cacheLookup sampleEnv now' "in".toList what).1 = none) ∧
      (∀ space' what, (space', what) ∈ ({("in".toList, "a".toList)} : Set (Str × Str)) →
        space' ≠ "in".toList →
        sampleEnv.regexpMatch (expiry "in".toList) (space' ++ "://".toList) = false → ∀ now',
          ((setA.cacheExpire sampleEnv 2 "in".toList).cacheLookup sampleEnv now' space' what).1
            = (setA.cacheLookup sampleEnv now' space' what).1)) ↔
    ∀ what, ("in".toList, what) ∈ ({("in".toList, "a".toList)} : Set (Str × Str)) →
      setA.Misses sampleEnv (composed "in".toList what) :=
  cache_expire_iff sampleEnv_lawful sampleEnv_injOn (by decide) 1000 60
    [.set 1 "in".toList "a".toList (some (.value 7)) 0]
    (fun op hop => by
      obtain rfl := List.mem_singleton.mp hop
      exact rfl)
    rfl 2 "in".toList

/-- Set, expired, and still found. -/
theorem expire_finds_nothing :
    ¬ ∀ c, runFrom (compatStep sampleEnv) (create 100 1000 60)
        [.set 1 "in".toList "a".toList (some (.value 7)) 0] = some c →
      ((c.cacheExpire sampleEnv 2 "in".toList).cacheLookup sampleEnv 3 "in".toList "a".toList).1
        = none := by
  intro h
  exact nomatch h _ rfl

end Cache

end Caudium.CachePmod
