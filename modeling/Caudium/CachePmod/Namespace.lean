import Caudium.CachePmod.Managed

/-!
# A running namespace

A cache, its disk tier over the storage manager, and what runs beside the calls: the expiry of both
tiers, `expire_data_sync` and the call-outs of the manager. What an event does to the disk tier is a
list of its calls (`Namespace.calls`), so that whatever each of them keeps, every run keeps. The
cache is the one of `Cache.step` (`step_call`).
-/

namespace Caudium.CachePmod

open Lib (Str Mapping runFrom)

/-! ## The calls of the disk tier that a cache makes -/

namespace FastStorage

variable {V S : Type} (env : Env V S) (now : Int) (r : FastStorage V S)

/-- Of a turn in the loop of `free`. -/
def freeOneCalls (m : Meta V S) : List (TierCall V S) :=
  if m.diskCache then [.store now (if m.type = .stdio then m.getStdio else m)] else []

/-- Of the loop of `free`. -/
def freeLoopCalls (n : Int) : List Str → Int → SlowStorage S → FastStorage V S →
    List (TierCall V S)
  | [], _, _, _ => []
  | hash :: rest, freed, d, r =>
    if freed ≥ n then []
    else
      match r.thecache.lookup hash with
      | none => freeLoopCalls n rest freed d r
      | some m =>
        let after := r.freeOne env now hash m d
        freeOneCalls now m ++ freeLoopCalls n rest (freed + after.1) after.2.1 after.2.2

/-- Of `free`. -/
def freeCalls (n : Int) (order : List Str) (d : SlowStorage S) : List (TierCall V S) :=
  let usage := r.ramUsage
  let r := r.expireCache now
  if usage - r.ramUsage > n then [] else freeLoopCalls env now n order 0 d r

end FastStorage

namespace Cache

variable {V S : Type} (env : Env V S) (c : Cache V S)

/-- Of `store`. -/
def storeCalls (now : Int) (m : Meta V S) : List (TierCall V S) :=
  let m := if m.expires = 0 then { m with expires := now + c.defaultTtl } else m
  if m.size > c.maxObjectRam then
    if m.size > c.maxObjectDisk then [] else [.store now m]
  else []

/-- Of `retrieve`. -/
def retrieveCalls (now : Int) (name : Str) : List (TierCall V S) :=
  match (c.ramCache.retrieve env now name).1 with
  | some _ => []
  | none =>
    .retrieve now name ::
      match (c.diskCache.retrieve env now name).1 with
      | some m => if m.size < c.maxObjectRam then [.refresh name] else []
      | none => []

def calls : Op V S → List (TierCall V S)
  | .store now m => c.storeCalls now m
  | .retrieve now name => c.retrieveCalls env now name
  | .refresh _ name => [.refresh name]
  | .freeRam now n order => c.ramCache.freeCalls env now n order c.diskCache
  | .setSizes _ _ => []

end Cache

/-! ## The namespace -/

/-- A cache, whether its disk tier is in an expiry, what the manager has of it, and `in_sync`. -/
structure Namespace (V S : Type) where
  cache : Cache V S
  inExpire : Bool
  kept : Kept S
  inSync : Bool

/-- What happens in a namespace. -/
inductive Event (V S : Type) where
  | call (op : Op V S)
  | freeDisk (n : Int) (run : ExpireRun) (names : List (Str × Int))
  | expireRam (now : Int)
  | expireDisk (run : ExpireRun)
  | expireDataSync
  | sync (key : Str)

namespace Namespace

variable {V S : Type} (env : Env V S) (s : Namespace V S)

/-- Over an empty storage. -/
def create (maxObjectRam maxObjectDisk defaultTtl : Int) : Namespace V S :=
  { cache := .create maxObjectRam maxObjectDisk defaultTtl
    inExpire := false, kept := ⟨∅, ∅, []⟩, inSync := false }

def tier : ManagedTier S :=
  { toSlowStorage := s.cache.diskCache, inExpire := s.inExpire, kept := s.kept, inSync := s.inSync }

/-- The cache has become `c`, over the tier `t`. -/
def upon (c : Cache V S) (t : ManagedTier S) : Namespace V S :=
  { cache := { c with diskCache := t.toSlowStorage }
    inExpire := t.inExpire, kept := t.kept, inSync := t.inSync }

/-- What an event makes of the cache, but for what it does to the disk tier. -/
def front (c : Cache V S) : Event V S → Option (Cache V S)
  | .call op => c.step env op
  | .expireRam now => some { c with ramCache := c.ramCache.expireCache now }
  | _ => some c

/-- The calls of the disk tier in an event. -/
def calls (c : Cache V S) : Event V S → List (TierCall V S)
  | .call op => c.calls env op
  | .freeDisk n run names => [.free n run names]
  | .expireRam _ => []
  | .expireDisk run => [.expire run]
  | .expireDataSync => [.expireDataSync]
  | .sync key => [.sync key]

def step (s : Namespace V S) (e : Event V S) : Option (Namespace V S) :=
  (front env s.cache e).bind fun c =>
    (runFrom (ManagedTier.step env) s.tier (calls env s.cache e)).map (upon c)

end Namespace

/-! ## The calls are those of the cache -/

/-- The calls bring the disk tier to `d`. -/
def ManagedTier.Makes {V S : Type} (env : Env V S) (t : ManagedTier S) (calls : List (TierCall V S))
    (d : SlowStorage S) : Prop :=
  ∃ t', runFrom (ManagedTier.step env) t calls = some t' ∧ t'.toSlowStorage = d

section Makes

variable {V S : Type} {env : Env V S} {now : Int}

theorem makes_nil {t : ManagedTier S} : t.Makes env [] t.toSlowStorage := ⟨t, rfl, rfl⟩

theorem makes_store (t : ManagedTier S) (m : Meta V S) :
    t.Makes env [.store now m] (t.toSlowStorage.store env now m).2 := ⟨_, rfl, rfl⟩

theorem makes_refresh (t : ManagedTier S) (name : Str) :
    t.Makes env [.refresh name] (t.toSlowStorage.refresh env name) := ⟨_, rfl, rfl⟩

theorem makes_append {t : ManagedTier S} {calls calls' : List (TierCall V S)}
    {d d' : SlowStorage S} (h : t.Makes env calls d)
    (h' : ∀ t' : ManagedTier S, t'.toSlowStorage = d → t'.Makes env calls' d') :
    t.Makes env (calls ++ calls') d' := by
  obtain ⟨t₁, hrun, hd⟩ := h
  obtain ⟨t₂, hrun', hd'⟩ := h' t₁ hd
  exact ⟨t₂, by rw [Lib.runFrom_append, hrun]; exact hrun', hd'⟩

theorem makes_freeOne (t : ManagedTier S) (r : FastStorage V S) (hash : Str) (m : Meta V S) :
    t.Makes env (FastStorage.freeOneCalls now m)
      (r.freeOne env now hash m t.toSlowStorage).2.1 := by
  unfold FastStorage.freeOneCalls FastStorage.freeOne
  split
  · split
    · exact makes_store t m.getStdio
    · exact makes_store t m
  · exact makes_nil

theorem makes_freeLoop (n : Int) (order : List Str) :
    ∀ (freed : Int) (t : ManagedTier S) (r : FastStorage V S),
      t.Makes env (FastStorage.freeLoopCalls env now n order freed t.toSlowStorage r)
        (FastStorage.freeLoop env now n order freed t.toSlowStorage r).1 := by
  induction order with
  | nil => exact fun freed t r => makes_nil
  | cons hash rest ih =>
    intro freed t r
    rw [FastStorage.freeLoopCalls, FastStorage.freeLoop]
    split
    · exact makes_nil
    · cases r.thecache.lookup hash with
      | none => exact ih freed t r
      | some m =>
        refine makes_append (makes_freeOne t r hash m) fun t' ht' => ?_
        dsimp only
        rw [← ht']
        exact ih _ t' _

theorem makes_free (n : Int) (order : List Str) (t : ManagedTier S) (r : FastStorage V S) :
    t.Makes env (r.freeCalls env now n order t.toSlowStorage)
      (r.free env now n order t.toSlowStorage).1 := by
  unfold FastStorage.freeCalls FastStorage.free
  dsimp only
  split
  · exact makes_nil
  · exact makes_freeLoop n order 0 t (r.expireCache now)

theorem makes_retrieve (s : Namespace V S) (name : Str) :
    s.tier.Makes env (s.cache.retrieveCalls env now name)
      (s.cache.retrieve env now name).2.diskCache := by
  unfold Cache.retrieveCalls Cache.retrieve
  dsimp only
  cases (s.cache.ramCache.retrieve env now name).1 with
  | some m => exact makes_nil
  | none =>
    dsimp only
    cases (s.cache.diskCache.retrieve env now name).1 with
    | none => exact ⟨_, rfl, rfl⟩
    | some m =>
      dsimp only
      split
      · exact ⟨_, rfl, rfl⟩
      · exact ⟨_, rfl, rfl⟩

theorem makes_calls {s : Namespace V S} {op : Op V S} {c : Cache V S}
    (hs : s.cache.step env op = some c) : s.tier.Makes env (s.cache.calls env op) c.diskCache := by
  cases op with
  | store now m =>
    rw [← Option.some.inj hs]
    unfold Cache.calls Cache.storeCalls Cache.store
    dsimp only
    generalize (if m.expires = 0 then { m with expires := now + s.cache.defaultTtl } else m) = m
    split
    · split
      · exact makes_nil
      · exact makes_store s.tier _
    · exact makes_nil
  | retrieve now name =>
    rw [← Option.some.inj hs]
    exact makes_retrieve s name
  | refresh now name =>
    rw [← Option.some.inj hs]
    exact makes_refresh s.tier name
  | freeRam now n order =>
    rw [Cache.step_freeRam hs]
    exact makes_free n order s.tier s.cache.ramCache
  | setSizes maxObjectRam maxObjectDisk =>
    rw [← Option.some.inj hs]
    exact makes_nil

/-- A call does in a namespace what it does to a cache. -/
theorem Namespace.step_call (s : Namespace V S) (op : Op V S) :
    (s.step env (.call op)).map cache = s.cache.step env op := by
  show ((s.cache.step env op).bind fun c => _).map cache = _
  cases hs : s.cache.step env op with
  | none => rfl
  | some c =>
    obtain ⟨t, hrun, ht⟩ := makes_calls hs
    show ((runFrom (ManagedTier.step env) s.tier (s.cache.calls env op)).map (upon c)).map cache = _
    rw [hrun]
    show some { c with diskCache := t.toSlowStorage } = some c
    rw [ht]

end Makes

end Caudium.CachePmod
