import Caudium.CachePmod.Namespace
import Caudium.CachePmod.Shaped

/-!
# Every record with an expiry has its entry

`expiration_data` is to have, for each record of the disk tier whose `expires` is set, an entry with
that value; expiry goes by the entries. Three things take an entry away, or change it, and leave the
record: `refresh`, which unlinks a key that is no record's; a `store` that writes nothing; and
`expire_data_sync`, when the record has not yet come down to the backend.

`ManagedTier.Meets` says of each call of the tier that it is none of these, `Sound.step` that all
other calls keep the entries, and `always_covered` that so do all other runs of a namespace.
-/

namespace Caudium.CachePmod

open Lib (Str Mapping Always EachStep)

namespace SlowStorage

variable {V S : Type} (env : Env V S) (now : Int) (d : SlowStorage S)

/-- The record of each hash whose expiry is set has its entry. -/
def Covered : Prop := ∀ hash m, d.metaAt env hash = some m → m.expires ≠ 0 →
  d.expirationData.lookup hash = some m.expires

/-- There is no record of the hash whose expiry is set. -/
def NoExpiry (hash : Str) : Prop := ∀ m, d.metaAt env hash = some m → m.expires = 0

/-- A `store` writes the record, or leaves the entry of the one there is as it was. -/
def StoreMeets (m : Meta V S) : Prop := encoded env m = none → m.type ≠ .stdio → m.expires ≠ 0 →
  ∀ m₀, d.metaAt env (filedUnder env m) = some m₀ → m₀.expires ≠ 0 → m₀.expires = m.expires

/-- A `retrieve` comes to no object that it refreshes, or its expiry is not set. A program that does
not decode is refreshed under the name that its hash is. -/
def RetrieveMeets (name : Str) : Prop :=
  ∀ m, d.metaAt env (env.getHash name) = some m → m.type = .var →
    if m.program && !env.isProgram (d.objectAt env (env.getHash name)) then
      d.NoExpiry env (env.getHash (env.getHash name))
    else d.objectAt env (env.getHash name) = none → d.NoExpiry env (env.getHash name)

variable {env d}

/-- Records with an expiry that were there before, and whose entries are as they were. -/
theorem Covered.mono (h : d.Covered env) {d' : SlowStorage S}
    (hd : ∀ hash m, d'.metaAt env hash = some m → m.expires ≠ 0 →
      (∃ m₀, d.metaAt env hash = some m₀ ∧ m₀.expires = m.expires) ∧
        d'.expirationData.lookup hash = d.expirationData.lookup hash) : d'.Covered env := by
  intro hash m hm hset
  obtain ⟨⟨m₀, hm₀, hexpires⟩, hentry⟩ := hd hash m hm hset
  rw [hentry, ← hexpires]
  exact h hash m₀ hm₀ (hexpires ▸ hset)

theorem lookup_erase_of_noExpiry {hash hash' : Str} (hno : d.NoExpiry env hash)
    {m : Meta V S} (hm : d.metaAt env hash' = some m) (hset : m.expires ≠ 0) :
    (d.expirationData.erase hash).lookup hash' = d.expirationData.lookup hash' := by
  rw [Lib.Mapping.lookup_erase_ite, if_neg]
  intro h
  subst h
  exact hset (hno m hm)

theorem Covered.refresh (h : d.Covered env) {name : Str}
    (hno : d.NoExpiry env (env.getHash name)) : (d.refresh env name).Covered env :=
  h.mono fun hash m hm hset => by
    rw [metaAt_refresh] at hm
    exact ⟨⟨m, hm, rfl⟩, lookup_erase_of_noExpiry hno hm hset⟩

theorem expiration_noteExpires (m : Meta V S) (hash : Str) :
    (d.noteExpires m).expirationData.lookup hash =
      if m.expires ≠ 0 ∧ hash = m.hash.getD [] then some m.expires
      else d.expirationData.lookup hash := by
  rw [noteExpires]
  split
  next hnot => rw [if_neg fun h => h.1 hnot]
  next hset =>
    show (d.expirationData.insert (m.hash.getD []) m.expires).lookup hash = _
    rw [Lib.Mapping.lookup_insert_ite]
    simp [hset]

theorem Covered.store (hlaw : env.Lawful) (h : d.Covered env) {m : Meta V S}
    (hmeets : d.StoreMeets env m) : (d.store env now m).2.Covered env := by
  intro hash m₁ hm₁ hset
  rw [metaAt_store env now d hlaw] at hm₁
  rw [store_eq]
  cases hencoded : encoded env m with
  | some data =>
    rw [hencoded] at hm₁
    dsimp only at hm₁ ⊢
    rw [expiration_noteExpires]
    show (if m.expires ≠ 0 ∧ hash = filedUnder env m then _ else d.expirationData.lookup hash) = _
    split at hm₁
    next he =>
      obtain rfl := Option.some.inj hm₁
      exact if_pos ⟨hset, he⟩
    next hne =>
      rw [if_neg fun hc => hne hc.2]
      exact h hash m₁ hm₁ hset
  | none =>
    rw [hencoded] at hm₁
    dsimp only at hm₁ ⊢
    split
    · exact h hash m₁ hm₁ hset
    next htype =>
      rw [expiration_noteExpires]
      show (if m.expires ≠ 0 ∧ hash = filedUnder env m then some m.expires
        else d.expirationData.lookup hash) = _
      split
      next hc => rw [hmeets hencoded htype hc.1 m₁ (hc.2 ▸ hm₁) hset]
      next => exact h hash m₁ hm₁ hset

/-- The entries after a `retrieve`: as they were, but for a name that it has refreshed. -/
theorem retrieve_expiration (name : Str) (hmeets : d.RetrieveMeets env name) :
    (d.retrieve env now name).2.expirationData = d.expirationData ∨
      ∃ hash, d.NoExpiry env hash ∧
        (d.retrieve env now name).2.expirationData = d.expirationData.erase hash := by
  cases hm : d.metaAt env (env.getHash name) with
  | none => exact .inl (by simp only [retrieve, hm])
  | some m =>
    simp only [retrieve, hm]
    cases htype : m.type with
    | stdio => exact .inl rfl
    | image => exact .inl rfl
    | other => exact .inl rfl
    | var =>
      have hobj : ({ d with hits := d.hits + 1 } : SlowStorage S).objectAt env (env.getHash name)
          = d.objectAt env (env.getHash name) := rfl
      have hno := hmeets m hm htype
      dsimp only
      rw [hobj]
      split
      next hprogram =>
        rw [if_pos hprogram] at hno
        exact .inr ⟨_, hno, rfl⟩
      next hprogram =>
        rw [if_neg hprogram] at hno
        cases hobject : d.objectAt env (env.getHash name) with
        | none => exact .inr ⟨_, hno hobject, rfl⟩
        | some o => exact .inl rfl

theorem Covered.retrieve (hlaw : env.Lawful) (hf : d.Filed env) (h : d.Covered env) {name : Str}
    (hmeets : d.RetrieveMeets env name) : (d.retrieve env now name).2.Covered env := by
  obtain ⟨-, -, hmeta, -⟩ := d.retrieve_spec env now hlaw hf name
  refine h.mono fun hash m hm hset => ?_
  -- the record is as it was but for its counters
  obtain ⟨m₀, hm₀, hexpires⟩ : ∃ m₀, d.metaAt env hash = some m₀ ∧ m₀.expires = m.expires := by
    rcases hmeta hash with hsame | ⟨m₀, k, o, hm₀, hnew⟩
    · exact ⟨m, hsame ▸ hm, rfl⟩
    · rw [hnew] at hm
      obtain rfl := Option.some.inj hm
      exact ⟨m₀, hm₀, rfl⟩
  refine ⟨⟨m₀, hm₀, hexpires⟩, ?_⟩
  rcases d.retrieve_expiration now name hmeets with hsame | ⟨hash', hno, herase⟩
  · rw [hsame]
  · rw [herase]
    exact lookup_erase_of_noExpiry hno hm₀ (hexpires ▸ hset)

end SlowStorage

namespace DiskTier

variable {V S : Type} {env : Env V S} {d : DiskTier S}

/-- What holds of the records and their entries. -/
structure Sound (env : Env V S) (d : DiskTier S) : Prop where
  filed : d.Filed env
  covered : d.Covered env

theorem Sound.dropAll (h : d.Sound env) (hashes : List Str) : (d.dropAll env hashes).Sound env := by
  have hmeta : ∀ hash m, (d.dropAll env hashes).metaAt env hash = some m →
      hash ∉ hashes ∧ d.metaAt env hash = some m := by
    intro hash m hm
    rw [metaAt_dropAll] at hm
    split at hm
    · cases hm
    next hnot => exact ⟨hnot, hm⟩
  refine ⟨fun hash m hm => h.filed hash m (hmeta hash m hm).2, h.covered.mono fun hash m hm _ => ?_⟩
  obtain ⟨hnot, hm⟩ := hmeta hash m hm
  exact ⟨⟨m, hm, rfl⟩, by rw [expiration_dropAll, if_neg hnot]⟩

theorem Sound.storeExpiration (h : d.Sound env) : (d.storeExpiration env).Sound env := by
  have hmeta : ∀ hash, (d.storeExpiration env).metaAt env hash = d.metaAt env hash := fun hash =>
    SlowStorage.metaAt_congr env (AList.lookup_insert_ne (expirationPath_ne hash).2)
  exact ⟨fun hash m hm => h.filed hash m (hmeta hash ▸ hm),
    h.covered.mono fun hash m hm _ => ⟨⟨m, hmeta hash ▸ hm, rfl⟩, rfl⟩⟩

theorem Sound.latch (h : d.Sound env) (inExpire : Bool) : Sound env { d with inExpire } :=
  ⟨h.filed, h.covered⟩

theorem Sound.expireCache (h : d.Sound env) (run : ExpireRun) :
    (d.expireCache env run).2.Sound env := by
  rw [DiskTier.expireCache]
  split
  · exact h
  · have hloop : Sound env
        (expireLoop env run.starttime { d with inExpire := true } run.turns).2 := by
      rw [expireLoop_eq]
      exact (h.latch true).dropAll _
    dsimp only
    split
    · exact hloop
    · exact hloop.storeExpiration.latch false

/-- Where the records are covered, a clean run of the expiry leaves none that is due. -/
theorem Sound.expires (h : d.Sound env) {d' : DiskTier S} {run : ExpireRun}
    (hclean : Clean d d' run) (hturns : d.Covers run) {hash : Str} {m : Meta V S} (hm : d.metaAt env hash = some m)
    (hset : m.expires ≠ 0) (hends : m.expires ≠ -1)
    (hdue : ∀ t ∈ run.turns, t.hash = hash → m.expires ≤ t.now) : d'.metaAt env hash = none := by
  have hentry := h.covered hash m hm hset
  have hmem : hash ∈ run.turns.map Turn.hash :=
    hturns.mem_iff.mpr ((Lib.Mapping.mem_keys_iff _ _).mpr ⟨_, hentry⟩)
  obtain ⟨t, ht, rfl⟩ := List.mem_map.mp hmem
  have hgone := (hclean.records t ht (by simp [due, hentry, hends, hdue t ht rfl])).2
  rw [SlowStorage.metaAt, hgone]
  rfl

theorem Sound.free (h : d.Sound env) (n : Int) (run : ExpireRun) (names : List (Str × Int)) :
    (d.free env n run names).tier.Sound env := by
  have hexpire := h.expireCache run
  unfold DiskTier.free
  dsimp only
  split
  · exact hexpire
  · split
    · exact hexpire
    · cases ((d.expireCache env run).2.survey env names).bind fun s => sortByRate s.1 s.2 with
      | none => exact hexpire
      | some ranking =>
        dsimp only
        rw [evictLoop_eq]
        exact (hexpire.dropAll _).storeExpiration

end DiskTier

namespace ManagedTier

variable {V S : Type} (env : Env V S)

/-- A call changes no entry of a record that stays. -/
def Meets (t : ManagedTier S) : TierCall V S → Prop
  | .store _ m => t.StoreMeets env m
  | .retrieve _ name => t.RetrieveMeets env name
  | .refresh name => t.NoExpiry env (env.getHash name)
  | .expireDataSync => t.inSync = false → ∀ z, t.listedHashes = some z →
      ∀ hash m, t.metaAt env hash = some m → m.expires ≠ 0 → hash ∈ z
  | .expire _ => True
  | .free _ _ _ => True
  | .sync _ => True

variable {env} {t : ManagedTier S}

theorem sound_expireDataSync (h : t.toDiskTier.Sound env) (hmeets : Meets env t .expireDataSync) :
    t.expireDataSync.toDiskTier.Sound env := by
  rw [expireDataSync]
  split
  · exact h
  next hsync =>
    cases hlisted : t.listedHashes with
    | none => exact ⟨h.filed, h.covered⟩
    | some z =>
      refine ⟨h.filed, h.covered.mono fun hash m hm hset => ⟨⟨m, hm, rfl⟩, ?_⟩⟩
      have hz : hash ∈ z := hmeets (Bool.eq_false_iff.mpr hsync) z hlisted hash m hm hset
      dsimp only
      rw [Lib.Mapping.lookup_eraseAll, if_neg]
      intro hx
      exact of_decide_eq_true (List.mem_filter.mp hx).2 hz

/-- A call that meets its condition keeps the records filed and covered. -/
theorem sound_step (hlaw : env.Lawful) (h : t.toDiskTier.Sound env) {c : TierCall V S}
    (hmeets : t.Meets env c) {t' : ManagedTier S} (hs : step env t c = some t') :
    t'.toDiskTier.Sound env := by
  cases c with
  | store now m =>
    rw [← Option.some.inj hs]
    exact ⟨SlowStorage.filed_store hlaw h.filed now m, h.covered.store now hlaw hmeets⟩
  | retrieve now name =>
    rw [← Option.some.inj hs]
    exact ⟨(t.retrieve_same env now hlaw h.filed name).filed env h.filed,
      h.covered.retrieve now hlaw h.filed hmeets⟩
  | refresh name =>
    rw [← Option.some.inj hs]
    exact ⟨(t.refresh_same env name).filed env h.filed, h.covered.refresh hmeets⟩
  | expire run =>
    rw [step] at hs
    split at hs
    · rw [← Option.some.inj hs]
      exact h.expireCache run
    · cases hs
  | free n run names =>
    rw [step] at hs
    split at hs
    · rw [← Option.some.inj hs]
      exact h.free n run names
    · cases hs
  | expireDataSync =>
    rw [← Option.some.inj hs]
    exact sound_expireDataSync h hmeets
  | sync key =>
    rw [step] at hs
    split at hs
    · rw [← Option.some.inj hs]
      exact h
    · cases hs

end ManagedTier

/-! ## Runs of a namespace -/

namespace Namespace

variable {V S : Type} (env : Env V S)

/-- **Each record that can be retrieved** and whose expiry is set has its entry. -/
def Covered (s : Namespace V S) : Prop :=
  ∀ hash m, (s.kept.retrieve (metaPath hash)).bind env.decodeMeta = some m → m.expires ≠ 0 →
    s.cache.diskCache.expirationData.lookup hash = some m.expires

/-- Each call of the disk tier in an event meets its condition. -/
def Meets (s : Namespace V S) (e : Event V S) : Prop :=
  EachStep (ManagedTier.step env) (ManagedTier.Meets env) s.tier (calls env s.cache e)

/-- What every event keeps. -/
structure Inv (s : Namespace V S) : Prop where
  overlaid : s.tier.Overlaid
  sound : s.tier.toDiskTier.Sound env

variable {env}

theorem inv_create (maxObjectRam maxObjectDisk defaultTtl : Int) :
    (create maxObjectRam maxObjectDisk defaultTtl : Namespace V S).Inv env where
  overlaid := ManagedTier.overlaid_fresh
  sound := ⟨fun _ _ hm => (nomatch hm), fun _ _ hm => (nomatch hm)⟩

theorem Inv.covered {s : Namespace V S} (h : s.Inv env) : s.Covered env := by
  intro hash m hm
  have hstored : s.tier.storage.lookup (metaPath hash) = s.kept.retrieve (metaPath hash) :=
    h.overlaid (metaPath hash)
  rw [← hstored] at hm
  exact h.sound.covered hash m hm

theorem Inv.step (hlaw : env.Lawful) {s s' : Namespace V S} {e : Event V S} (h : s.Inv env)
    (hmeets : s.Meets env e) (hs : s.step env e = some s') : s'.Inv env := by
  obtain ⟨c, -, hs⟩ := Option.bind_eq_some_iff.mp hs
  obtain ⟨t, hrun, rfl⟩ := Option.map_eq_some_iff.mp hs
  have hkeeps : t.Overlaid ∧ t.toDiskTier.Sound env :=
    Lib.inv_of_eachStep (P := fun t : ManagedTier S => t.Overlaid ∧ t.toDiskTier.Sound env)
      (fun t call t' ht hcall hs' =>
        ⟨ht.1.step hs', ManagedTier.sound_step hlaw ht.2 hcall hs'⟩)
      _ ⟨h.overlaid, h.sound⟩ hmeets hrun
  exact ⟨hkeeps.1, hkeeps.2⟩

/-- In every run each of whose calls meets its condition, every record that can be retrieved is
covered in every state. -/
theorem always_covered (hlaw : env.Lawful) (maxObjectRam maxObjectDisk defaultTtl : Int)
    (events : List (Event V S)) (hmeets : EachStep (step env) (Meets env)
      (create maxObjectRam maxObjectDisk defaultTtl) events) :
    Always (step env) (Covered env) (create maxObjectRam maxObjectDisk defaultTtl) events :=
  Always.mono (fun _ h => Inv.covered h) events _
    (Lib.always_of_step (fun _ _ _ h hm hs => Inv.step hlaw h hm hs) events _
      (inv_create maxObjectRam maxObjectDisk defaultTtl) hmeets)

/-- A variable that is too large for RAM and expires at 90. -/
def large : Meta Nat Encoded := { expiringMeta true with size := 500, expires := 90 }

/-- The record has come down to the backend when the entries are compared with what it has. -/
theorem covered_synced :
    Always (step sampleEnv) (Covered sampleEnv) (create 100 1000 60)
      [.call (.store 1 large), .sync (metaPath (sampleEnv.getHash "a".toList)),
        .expireDataSync] := by
  refine always_covered sampleEnv_lawful 100 1000 60 _ ⟨⟨nofun, fun _ _ => trivial⟩, ?_⟩
  intro s₁ hs₁
  obtain rfl := Option.some.inj hs₁
  refine ⟨⟨trivial, fun _ _ => trivial⟩, fun s₂ hs₂ => ?_⟩
  obtain rfl := Option.some.inj hs₂
  refine ⟨⟨fun _ z hz hash m hm _ => ?_, fun _ _ => trivial⟩, fun _ _ => trivial⟩
  obtain rfl := Option.some.inj hz
  have hstored : (SlowStorage.fresh.store sampleEnv 1 large).2.metaAt sampleEnv hash = some m := hm
  rw [SlowStorage.metaAt_store sampleEnv 1 SlowStorage.fresh sampleEnv_lawful] at hstored
  by_cases hhash : hash = SlowStorage.filedUnder sampleEnv large
  · rw [hhash]
    exact List.mem_cons_self
  · cases (if_neg hhash).symm.trans hstored

/-- A large object is stored and then refreshed: its record stays, its entry does not. -/
theorem refresh_strands :
    ¬ Always (step sampleEnv) (Covered sampleEnv) (create 100 1000 60)
      [.call (.store 1 large), .call (.refresh 2 "a".toList)] := by
  intro h
  have hcovered := ((h.2 _ rfl).2 _ rfl) (sampleEnv.getHash "a".toList)
    { large with
      createTime := 1, size := 8, object := none, hash := some (sampleEnv.getHash "a".toList) }
    rfl (by decide)
  exact nomatch hcovered

end Namespace

end Caudium.CachePmod
