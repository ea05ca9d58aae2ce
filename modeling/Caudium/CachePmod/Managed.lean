import Caudium.CachePmod.Cache
import Caudium.CachePmod.Expiry

/-!
# The disk tier over the storage manager

The storage of the disk tier is a client of the storage manager: what is stored goes into RAM and
comes down to the backend with a call-out, what is unlinked is gone from both, and `list` says what
the backend has, since the manager's `sync_all` without a namespace copies nothing.

Each call of the tier comes here with the client calls that it makes (`storeCalls`,
`retrieveCalls` and so on), and the lemmas say that these are what the call does to the storage. So
the tier reads in the manager what it has stored (`Overlaid.step`).
-/

namespace Caudium.CachePmod

open Lib (Str Mapping)

/-- A call of the storage client. -/
inductive ClientCall (S : Type) where
  | store (key : Str) (val : S)
  | unlink (key : Str)

/-- What the manager has of a namespace: the copies in RAM, what the backend has, and the call-outs
of `sync`. -/
structure Kept (S : Type) where
  copies : Mapping Str S
  below : Mapping Str S
  callOuts : List Str

namespace Kept

variable {S : Type} (k : Kept S)

def retrieve (key : Str) : Option S := (k.copies.lookup key).or (k.below.lookup key)

def call : ClientCall S → Kept S
  | .store key val =>
    { k with copies := k.copies.insert key val, callOuts := k.callOuts ++ [key] }
  | .unlink key => { k with copies := k.copies.erase key, below := k.below.erase key }

def calls (cs : List (ClientCall S)) : Kept S := cs.foldl call k

def sync (key : Str) : Kept S :=
  match k.copies.lookup key with
  | some val => { k with below := k.below.insert key val }
  | none => k

/-- `list`. -/
def list : List Str := k.below.keys

end Kept

/-- What a client call does to the storage. -/
def ClientCall.apply {S : Type} (storage : Mapping Str S) : ClientCall S → Mapping Str S
  | .store key val => storage.insert key val
  | .unlink key => storage.erase key

/-! ## The client calls of the tier's calls -/

namespace SlowStorage

variable {V S : Type} (env : Env V S) (now : Int) (d : SlowStorage S)

/-- Of `store`. -/
def storeCalls (m : Meta V S) : List (ClientCall S) :=
  match encoded env m with
  | some data =>
    let hash := filedUnder env m
    [.store (objectPath hash) data,
      .store (metaPath hash)
        (env.encodeMeta { m.touch env now with size := env.sizeof data, object := none })]
  | none => []

/-- Of `refresh`. -/
def refreshCalls (name : Str) : List (ClientCall S) := [.unlink (env.getHash name)]

/-- Of `retrieve`. -/
def retrieveCalls (name : Str) : List (ClientCall S) :=
  let hash := env.getHash name
  match d.metaAt env hash with
  | none => []
  | some m =>
    match m.type with
    | .var =>
      let m := { m with
        hits := m.hits + 1, lastRetrieval := now, object := d.objectAt env hash }
      if m.program && !env.isProgram m.object then refreshCalls env hash
      else
        match m.object with
        | none => refreshCalls env name
        | some _ => [.store (metaPath (m.hash.getD [])) (env.encodeMeta m)]
    | _ => []

theorem storage_storeCalls (m : Meta V S) : (d.store env now m).2.storage =
    (storeCalls env now m).foldl ClientCall.apply d.storage := by
  rw [store_eq, storeCalls]
  cases encoded env m with
  | none =>
    dsimp only
    split
    · rfl
    · exact storage_noteExpires d _
  | some data => exact storage_noteExpires (d.write env (m.touch env now) data).2 _

theorem storage_retrieveCalls (name : Str) : (d.retrieve env now name).2.storage =
    (d.retrieveCalls env now name).foldl ClientCall.apply d.storage := by
  cases hm : d.metaAt env (env.getHash name) with
  | none =>
    simp only [retrieve, retrieveCalls, hm]
    rfl
  | some m =>
    simp only [retrieve, retrieveCalls, hm]
    cases m.type with
    | stdio => rfl
    | image => rfl
    | other => rfl
    | var =>
      have hobj : ({ d with hits := d.hits + 1 } : SlowStorage S).objectAt env (env.getHash name)
          = d.objectAt env (env.getHash name) := rfl
      dsimp only
      rw [hobj]
      split
      · rfl
      · cases d.objectAt env (env.getHash name) with
        | none => rfl
        | some o => rfl

end SlowStorage

namespace DiskTier

variable {V S : Type} (env : Env V S) (d : DiskTier S)

/-- The records of some hashes are unlinked. -/
def unlinks (hashes : List Str) : List (ClientCall S) :=
  hashes.flatMap fun hash => [.unlink (objectPath hash), .unlink (metaPath hash)]

/-- The hashes that the loop of `expire_cache` drops. -/
def expireHashes (starttime : Int) : DiskTier S → List Turn → List Str
  | _, [] => []
  | d, t :: ts =>
    if t.limitTime - starttime > expireRunLimit then []
    else if d.due t then
      match d.metaAt env t.hash with
      | none => []
      | some m => t.hash :: expireHashes starttime (d.drop t.hash m.size) ts
    else expireHashes starttime d ts

/-- Of `store_expiration`. -/
def storeExpirationCalls : List (ClientCall S) :=
  [.store expirationPath (env.encodeExpiration d.expirationData)]

/-- Of `expire_cache`. -/
def expireCalls (run : ExpireRun) : List (ClientCall S) :=
  if d.inExpire then []
  else
    let r := expireLoop env run.starttime { d with inExpire := true } run.turns
    unlinks (expireHashes env run.starttime { d with inExpire := true } run.turns) ++
      if r.1 = .threw then [] else r.2.storeExpirationCalls env

/-- The hashes that the second loop of `free` drops. -/
def evictHashes (n : Int) : Int → DiskTier S → List Str → List Str
  | _, _, [] => []
  | freed, d, hash :: hashes =>
    if n ≤ freed then []
    else hash :: evictHashes n (freed + d.sizeAt env hash) (d.drop hash (d.sizeAt env hash)) hashes

/-- Of `free`. -/
def freeCalls (n : Int) (run : ExpireRun) (names : List (Str × Int)) : List (ClientCall S) :=
  let r := d.expireCache env run
  d.expireCalls env run ++
    if r.1 = .threw then []
    else if d.diskUsage - r.2.diskUsage > n then []
    else
      match (r.2.survey env names).bind fun s => sortByRate s.1 s.2 with
      | none => []
      | some ranking =>
        let hashes := ranking.map Prod.fst
        unlinks (evictHashes env n 0 r.2 hashes) ++
          (evictLoop env n 0 r.2 hashes).storeExpirationCalls env

theorem expireLoop_eq (starttime : Int) (turns : List Turn) : ∀ d : DiskTier S,
    (expireLoop env starttime d turns).2 = d.dropAll env (expireHashes env starttime d turns) := by
  induction turns with
  | nil => exact fun d => rfl
  | cons t ts ih =>
    intro d
    rw [expireLoop, expireHashes]
    split
    · rfl
    · split
      · cases hm : d.metaAt env t.hash with
        | none => rfl
        | some m =>
          dsimp only
          rw [dropAll_cons, sizeAt, hm]
          exact ih (d.drop t.hash m.size)
      · exact ih d

theorem evictLoop_eq (n : Int) (hashes : List Str) : ∀ (freed : Int) (d : DiskTier S),
    evictLoop env n freed d hashes = d.dropAll env (evictHashes env n freed d hashes) := by
  induction hashes with
  | nil => exact fun freed d => rfl
  | cons hash hashes ih =>
    intro freed d
    rw [evictLoop, evictHashes]
    split
    · rfl
    · rw [dropAll_cons]
      exact ih _ _

theorem storage_unlinks (hashes : List Str) : ∀ d : DiskTier S, (d.dropAll env hashes).storage =
    (unlinks hashes).foldl ClientCall.apply d.storage := by
  induction hashes with
  | nil => exact fun d => rfl
  | cons hash hashes ih =>
    intro d
    rw [dropAll_cons, ih]
    rfl

theorem storage_expireCalls (run : ExpireRun) : (d.expireCache env run).2.storage =
    (d.expireCalls env run).foldl ClientCall.apply d.storage := by
  unfold expireCache expireCalls
  cases d.inExpire with
  | true => rfl
  | false =>
    have hstorage := storage_unlinks env
      (expireHashes env run.starttime { d with inExpire := true } run.turns)
      { d with inExpire := true }
    rw [← expireLoop_eq] at hstorage
    simp only [Bool.false_eq_true, if_false, List.foldl_append]
    rw [← hstorage]
    split
    · rfl
    · rfl

theorem storage_freeCalls (n : Int) (run : ExpireRun) (names : List (Str × Int)) :
    (d.free env n run names).tier.storage =
      (d.freeCalls env n run names).foldl ClientCall.apply d.storage := by
  unfold free freeCalls
  dsimp only
  rw [List.foldl_append, ← storage_expireCalls]
  split
  · rfl
  · split
    · rfl
    · cases ((d.expireCache env run).2.survey env names).bind fun s => sortByRate s.1 s.2 with
      | none => rfl
      | some ranking =>
        dsimp only
        rw [List.foldl_append, ← storage_unlinks, ← evictLoop_eq]
        rfl

end DiskTier

/-! ## The tier -/

/-- The disk tier, the storage manager's part of its namespace, and `in_sync`. -/
structure ManagedTier (S : Type) extends DiskTier S where
  kept : Kept S
  inSync : Bool

/-- A call of the tier, or a call-out of the manager. -/
inductive TierCall (V S : Type) where
  | store (now : Int) (m : Meta V S)
  | retrieve (now : Int) (name : Str)
  | refresh (name : Str)
  | expire (run : ExpireRun)
  | free (n : Int) (run : ExpireRun) (names : List (Str × Int))
  | expireDataSync
  | sync (key : Str)

namespace ManagedTier

variable {V S : Type} (env : Env V S) (t : ManagedTier S)

def fresh : ManagedTier S :=
  { toDiskTier := DiskTier.fresh, kept := ⟨∅, ∅, []⟩, inSync := false }

/-- The tier has become `d`, with some client calls. -/
def after (d : DiskTier S) (calls : List (ClientCall S)) : ManagedTier S :=
  { t with toDiskTier := d, kept := t.kept.calls calls }

/-- `z` of `expire_data_sync`: the second parts of the names; `none` if a name has none. -/
def listedHashes : Option (List Str) := t.kept.list.mapM fun name => (name.splitOn '/')[1]?

def expireDataSync : ManagedTier S :=
  if t.inSync then t
  else
    match t.listedHashes with
    | none => { t with inSync := true }
    | some z =>
      let x := t.expirationData.keys.filter fun hash => hash ∉ z
      { t with expirationData := t.expirationData.eraseAll x }

/-- One call. What `free` lists is what the backend has after the expiry. -/
def step (t : ManagedTier S) : TierCall V S → Option (ManagedTier S)
  | .store now m => some (t.after
      { t.toDiskTier with toSlowStorage := (t.toSlowStorage.store env now m).2 }
      (SlowStorage.storeCalls env now m))
  | .retrieve now name => some (t.after
      { t.toDiskTier with toSlowStorage := (t.toSlowStorage.retrieve env now name).2 }
      (t.retrieveCalls env now name))
  | .refresh name => some (t.after
      { t.toDiskTier with toSlowStorage := t.toSlowStorage.refresh env name }
      (SlowStorage.refreshCalls env name))
  | .expire run =>
    if t.Covers run then some (t.after (t.expireCache env run).2 (t.expireCalls env run)) else none
  | .free n run names =>
    if t.Covers run ∧ (names.map Prod.fst).Perm (t.kept.calls (t.expireCalls env run)).list then
      some (t.after (t.free env n run names).tier (t.freeCalls env n run names))
    else none
  | .expireDataSync => some t.expireDataSync
  | .sync key =>
    if key ∈ t.kept.callOuts then
      some { t with kept := { t.kept with callOuts := t.kept.callOuts.erase key }.sync key }
    else none

/-- The storage is what the manager answers. -/
def Overlaid : Prop := ∀ key, t.storage.lookup key = t.kept.retrieve key

end ManagedTier

/-! ## What the manager answers -/

namespace Kept

variable {S : Type} {k : Kept S} {storage : Mapping Str S}

theorem overlaid_call (h : ∀ key, storage.lookup key = k.retrieve key) (c : ClientCall S)
    (key : Str) : (c.apply storage).lookup key = (k.call c).retrieve key := by
  cases c with
  | store key' val =>
    show (storage.insert key' val).lookup key = ((k.copies.insert key' val).lookup key).or _
    rw [Lib.Mapping.lookup_insert_ite, Lib.Mapping.lookup_insert_ite, h]
    split
    · rfl
    · rfl
  | unlink key' =>
    show (storage.erase key').lookup key = ((k.copies.erase key').lookup key).or
      ((k.below.erase key').lookup key)
    rw [Lib.Mapping.lookup_erase_ite, Lib.Mapping.lookup_erase_ite, Lib.Mapping.lookup_erase_ite, h]
    split
    · rfl
    · rfl

theorem overlaid_calls (cs : List (ClientCall S)) : ∀ (storage : Mapping Str S) (k : Kept S),
    (∀ key, storage.lookup key = k.retrieve key) →
      ∀ key, (cs.foldl ClientCall.apply storage).lookup key = (k.calls cs).retrieve key := by
  induction cs with
  | nil => exact fun storage k h => h
  | cons c cs ih => exact fun storage k h => ih (c.apply storage) (k.call c) (overlaid_call h c)

theorem retrieve_sync (key key' : Str) : (k.sync key).retrieve key' = k.retrieve key' := by
  rw [sync]
  cases hcopy : k.copies.lookup key with
  | none => rfl
  | some val =>
    show (k.copies.lookup key').or ((k.below.insert key val).lookup key') = _
    rw [Lib.Mapping.lookup_insert_ite]
    split
    next he =>
      rw [he, retrieve, hcopy]
      rfl
    next => rfl

end Kept

namespace ManagedTier

variable {V S : Type} {env : Env V S} {t : ManagedTier S}

theorem overlaid_fresh : (fresh : ManagedTier S).Overlaid := fun _ => rfl

theorem Overlaid.after (h : t.Overlaid) {d : DiskTier S} {calls : List (ClientCall S)}
    (hd : d.storage = calls.foldl ClientCall.apply t.storage) : (t.after d calls).Overlaid := by
  intro key
  show d.storage.lookup key = _
  rw [hd]
  exact Kept.overlaid_calls calls t.storage t.kept h key

/-- **The manager is transparent** to the tier. -/
theorem Overlaid.step (h : t.Overlaid) {c : TierCall V S} {t' : ManagedTier S}
    (hs : step env t c = some t') : t'.Overlaid := by
  cases c with
  | store now m =>
    rw [← Option.some.inj hs]
    exact h.after (t.storage_storeCalls env now m)
  | retrieve now name =>
    rw [← Option.some.inj hs]
    exact h.after (t.storage_retrieveCalls env now name)
  | refresh name =>
    rw [← Option.some.inj hs]
    exact h.after rfl
  | expire run =>
    rw [ManagedTier.step] at hs
    split at hs
    · rw [← Option.some.inj hs]
      exact h.after (t.storage_expireCalls env run)
    · cases hs
  | free n run names =>
    rw [ManagedTier.step] at hs
    split at hs
    · rw [← Option.some.inj hs]
      exact h.after (t.storage_freeCalls env n run names)
    · cases hs
  | expireDataSync =>
    rw [← Option.some.inj hs, expireDataSync]
    split
    · exact h
    · split
      · exact h
      · exact h
  | sync key =>
    rw [ManagedTier.step] at hs
    split at hs
    · rw [← Option.some.inj hs]
      have hkept := @Kept.retrieve_sync S
        { t.kept with callOuts := t.kept.callOuts.erase key } key
      exact fun key' => (h key').trans (hkept key').symm
    · cases hs

end ManagedTier

end Caudium.CachePmod
