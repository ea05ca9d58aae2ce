import Caudium.CachePmod.Expiry

/-!
# What there is in the storage of a disk tier

Whatever calls were made, the keys in the storage of a tier have three shapes: the object and the
mapping of a hash, and the expiration data (`Shaped`). Every mapping is filed under its hash and its
size is that of a string. A call puts in its own record or only removes (`Within`), and what only
removes keeps all of this (`Shaped.mono`).

The mappings that are stored carry no hash or the one of their name: the callers set it in no other
way.
-/

namespace Caudium.CachePmod

open Lib (Str Mapping runFrom)

/-- A hash that a name can be taken apart at. -/
def Plain (hash : Str) : Prop := hash ≠ [] ∧ '/' ∉ hash

theorem splitOn_path {hash rest : Str} (h : Plain hash) :
    ('/' :: (hash ++ '/' :: rest)).splitOn '/' = [] :: hash :: rest.splitOn '/' := by
  have hhead : ([] ++ '/' :: (hash ++ '/' :: rest)).splitOn '/' =
      [] :: (hash ++ '/' :: rest).splitOn '/' :=
    List.splitOn_append_cons_self_of_not_mem List.not_mem_nil _
  rw [List.nil_append] at hhead
  rw [hhead, List.splitOn_append_cons_self_of_not_mem h.2]

theorem nameParts_objectPath {hash : Str} (h : Plain hash) :
    nameParts (objectPath hash) = [hash, "object".toList] := by
  have hsplit : (objectPath hash).splitOn '/' = [[], hash, "object".toList] := splitOn_path h
  rw [nameParts, hsplit]
  simp [h.1]

theorem nameParts_metaPath {hash : Str} (h : Plain hash) :
    nameParts (metaPath hash) = [hash, "meta".toList] := by
  have hsplit : (metaPath hash).splitOn '/' = [[], hash, "meta".toList] := splitOn_path h
  rw [nameParts, hsplit]
  simp [h.1]

theorem nameParts_expirationPath : nameParts expirationPath = ["expiration_data".toList] := by
  decide

namespace SlowStorage

variable {V S : Type} (env : Env V S)

/-- The storage of a tier. -/
structure Shaped (d : SlowStorage S) : Prop where
  keys : ∀ k, (d.storage.lookup k).isSome → k = expirationPath ∨
    ∃ hash, Plain hash ∧ (k = objectPath hash ∨ k = metaPath hash)
  filed : d.Filed env
  sized : ∀ hash m, d.metaAt env hash = some m → 0 ≤ m.size

theorem fresh_shaped : (fresh : SlowStorage S).Shaped env :=
  ⟨fun _ h => (nomatch h), fun _ _ h => (nomatch h), fun _ _ h => (nomatch h)⟩

/-- What is in a storage is in another one, the expiration data apart. -/
def Within (d' d : SlowStorage S) : Prop :=
  ∀ k v, d'.storage.lookup k = some v → k = expirationPath ∨ d.storage.lookup k = some v

theorem Within.refl (d : SlowStorage S) : d.Within d := fun _ _ h => Or.inr h

theorem Within.trans {d₁ d₂ d₃ : SlowStorage S} (h : d₁.Within d₂) (h' : d₂.Within d₃) :
    d₁.Within d₃ := by
  intro k v hk
  rcases h k v hk with he | hk
  · exact Or.inl he
  · exact h' k v hk

variable {env}

theorem Within.metaAt {d' d : SlowStorage S} (h : d'.Within d) {hash : Str} {m : Meta V S}
    (hm : d'.metaAt env hash = some m) : d.metaAt env hash = some m := by
  obtain ⟨v, hv, hdec⟩ := Option.bind_eq_some_iff.mp hm
  have hold := (h _ v hv).resolve_left (expirationPath_ne hash).2
  rw [SlowStorage.metaAt, hold]
  exact hdec

theorem Within.filed {d' d : SlowStorage S} (h : d'.Within d) (hf : d.Filed env) : d'.Filed env :=
  fun hash m hm => hf hash m (h.metaAt hm)

/-- What only removes keeps the shape. -/
theorem Shaped.mono {d d' : SlowStorage S} (h : d.Shaped env) (hw : d'.Within d) :
    d'.Shaped env := by
  refine ⟨fun k hk => ?_, hw.filed h.filed, fun hash m hm => h.sized hash m (hw.metaAt hm)⟩
  obtain ⟨v, hv⟩ := Option.isSome_iff_exists.mp hk
  rcases hw k v hv with he | hold
  · exact Or.inl he
  · exact h.keys k (by rw [hold]; rfl)

theorem within_refresh (d : SlowStorage S) (name : Str) : (d.refresh env name).Within d := by
  intro k v hk
  unfold SlowStorage.refresh at hk
  exact Or.inr (Lib.Mapping.lookup_erase_some hk).2

theorem within_flush (d : SlowStorage S) (regexp : Option Str) : (d.flush env regexp).Within d := by
  intro k v hk
  unfold SlowStorage.flush at hk
  cases regexp with
  | none =>
    dsimp only at hk
    rw [Lib.Mapping.lookup_insert_ite] at hk
    split at hk
    next he => exact Or.inl he
    next => cases hk
  | some regexp =>
    dsimp only at hk
    rw [Lib.Mapping.lookup_eraseAll] at hk
    split at hk
    next => cases hk
    next => exact Or.inr hk

/-- A mapping whose hash, if it has one, is its name's, and whose name has a digest. -/
structure Hashed (env : Env V S) (m : Meta V S) : Prop where
  hash : m.hash = none ∨ m.hash = some (env.getHash m.name)
  digest : env.hashMd5 m.name ≠ []

theorem Hashed.filedUnder {m : Meta V S} (h : Hashed env m) :
    filedUnder env m = env.getHash m.name := by
  rcases h.hash with hnone | hsome
  · rw [SlowStorage.filedUnder, hnone]
    rfl
  · rw [SlowStorage.filedUnder, hsome]
    rfl

theorem Hashed.plain {m : Meta V S} (h : Hashed env m) : Plain (env.getHash m.name) := by
  refine ⟨fun he => ?_, fun hmem => (mem_hex_ne hmem).1 rfl⟩
  cases hbytes : env.hashMd5 m.name with
  | nil => exact h.digest hbytes
  | cons b bs =>
    rw [Env.getHash, hbytes] at he
    cases he

theorem storage_write (d : SlowStorage S) (m : Meta V S) (data : S) (k : Str)
    (hk : ((d.write env m data).2.storage.lookup k).isSome) :
    k = objectPath (m.hash.getD []) ∨ k = metaPath (m.hash.getD []) ∨
      (d.storage.lookup k).isSome := by
  unfold write at hk
  dsimp only at hk
  rw [Lib.Mapping.lookup_insert_ite, Lib.Mapping.lookup_insert_ite] at hk
  split at hk
  next he => exact Or.inr (Or.inl he)
  next =>
    split at hk
    next he => exact Or.inl he
    next => exact Or.inr (Or.inr hk)

theorem filed_store (hlaw : env.Lawful) {d : SlowStorage S} (hf : d.Filed env) (now : Int)
    (m : Meta V S) : (d.store env now m).2.Filed env := by
  intro hash m' hm'
  rw [metaAt_store env now d hlaw] at hm'
  split at hm'
  next =>
    split at hm'
    next he =>
      obtain rfl := Option.some.inj hm'
      exact congrArg some he.symm
    next => exact hf hash m' hm'
  next => exact hf hash m' hm'

theorem Shaped.store (hlaw : env.Lawful) {d : SlowStorage S} (h : d.Shaped env) (now : Int)
    {m : Meta V S} (hm : Hashed env m) : (d.store env now m).2.Shaped env := by
  have hmeta := metaAt_store env now d hlaw m
  have heq := store_eq env now d m
  cases henc : encoded env m with
  | none =>
    rw [henc] at hmeta heq
    dsimp only at hmeta heq
    refine h.mono fun k v hk => Or.inr ?_
    rw [heq] at hk
    split at hk
    next => exact hk
    next => rwa [storage_noteExpires] at hk
  | some data =>
    rw [henc] at hmeta heq
    dsimp only at hmeta heq
    refine ⟨fun k hk => ?_, filed_store hlaw h.filed now m, fun hash m' hm' => ?_⟩
    · rw [heq, storage_noteExpires] at hk
      have hget : (m.touch env now).hash.getD [] = env.getHash m.name := hm.filedUnder
      rcases storage_write d _ data k hk with he | he | hold
      · exact Or.inr ⟨_, hm.plain, Or.inl (hget ▸ he)⟩
      · exact Or.inr ⟨_, hm.plain, Or.inr (hget ▸ he)⟩
      · exact h.keys k hold
    · rw [hmeta] at hm'
      split at hm'
      next =>
        obtain rfl := Option.some.inj hm'
        exact Int.natCast_nonneg _
      next => exact h.sized hash m' hm'

/-- A `retrieve` writes to the key of the mapping it found, if anywhere. -/
theorem storage_retrieve (d : SlowStorage S) (hf : d.Filed env) (now : Int) (name k : Str)
    (hk : ((d.retrieve env now name).2.storage.lookup k).isSome) : (d.storage.lookup k).isSome := by
  have hgone : ∀ n, ((d.storage.erase n).lookup k).isSome → (d.storage.lookup k).isSome := by
    intro n hn
    rw [Lib.Mapping.lookup_erase_ite] at hn
    split at hn
    next => cases hn
    next => exact hn
  unfold retrieve at hk
  cases hm : d.metaAt env (env.getHash name) with
  | none => simpa [hm] using hk
  | some m =>
    have hthere : (d.storage.lookup (metaPath (env.getHash name))).isSome := by
      obtain ⟨v, hv, -⟩ := Option.bind_eq_some_iff.mp hm
      rw [hv]
      rfl
    cases htype : m.type with
    | stdio => simpa [hm, htype] using hk
    | image => simpa [hm, htype] using hk
    | other => simpa [hm, htype] using hk
    | var =>
      simp only [hm, htype] at hk
      split at hk
      next => exact hgone _ hk
      next =>
        split at hk
        next => exact hgone _ hk
        next =>
          have hhash : m.hash.getD [] = env.getHash name := by rw [hf _ _ hm]; rfl
          rw [Lib.Mapping.lookup_insert_ite, hhash] at hk
          split at hk
          next he => rwa [he]
          next => exact hk

theorem Shaped.retrieve (hlaw : env.Lawful) {d : SlowStorage S} (h : d.Shaped env) (now : Int)
    (name : Str) : (d.retrieve env now name).2.Shaped env := by
  obtain ⟨-, -, hmeta, -⟩ := d.retrieve_spec env now hlaw h.filed name
  refine ⟨fun k hk => h.keys k (storage_retrieve d h.filed now name k hk), fun hash m' hm' => ?_,
    fun hash m' hm' => ?_⟩
  · rcases hmeta hash with he | ⟨m, hits, o, hm, he⟩
    · exact h.filed hash m' (he ▸ hm')
    · rw [he, Option.some.injEq] at hm'
      subst hm'
      exact h.filed hash m hm
  · rcases hmeta hash with he | ⟨m, hits, o, hm, he⟩
    · exact h.sized hash m' (he ▸ hm')
    · rw [he, Option.some.injEq] at hm'
      subst hm'
      exact h.sized hash m hm

end SlowStorage

namespace DiskTier

open SlowStorage (Shaped Hashed)

variable {V S : Type} {env : Env V S}

theorem within_dropAll (d : DiskTier S) (hashes : List Str) :
    (d.dropAll env hashes).Within d.toSlowStorage := by
  intro k v hk
  rw [lookup_dropAll] at hk
  split at hk
  next => cases hk
  next => exact Or.inr hk

theorem within_storeExpiration (d : DiskTier S) :
    (d.storeExpiration env).Within d.toSlowStorage := by
  intro k v hk
  unfold storeExpiration at hk
  rw [Lib.Mapping.lookup_insert_ite] at hk
  split at hk
  next he => exact Or.inl he
  next => exact Or.inr hk

theorem within_expireCache (d : DiskTier S) (run : ExpireRun) :
    (d.expireCache env run).2.Within d.toSlowStorage := by
  obtain ⟨hashes, hdrop⟩ := expireLoop_drops env run.starttime run.turns { d with inExpire := true }
  have hloop : (expireLoop env run.starttime { d with inExpire := true } run.turns).2.Within
      d.toSlowStorage := by
    rw [hdrop]
    exact within_dropAll { d with inExpire := true } hashes
  unfold expireCache
  dsimp only
  split
  next => exact .refl _
  next =>
    split
    next => exact hloop
    next => exact (within_storeExpiration _).trans hloop

theorem within_free (d : DiskTier S) (n : Int) (run : ExpireRun) (names : List (Str × Int)) :
    (d.free env n run names).tier.Within d.toSlowStorage := by
  have hexpired : (d.expireCache env run).2.Within d.toSlowStorage := within_expireCache d run
  unfold free
  dsimp only
  split
  next => exact hexpired
  next =>
    split
    next => exact hexpired
    next =>
      split
      next => exact hexpired
      next ranking _ =>
        obtain ⟨k, hk⟩ := evictLoop_drops env n (ranking.map Prod.fst) 0 (d.expireCache env run).2
        show ((evictLoop env n 0 _ _).storeExpiration env).Within d.toSlowStorage
        rw [hk]
        exact (within_storeExpiration _).trans ((within_dropAll _ _).trans hexpired)

/-- What a call stores is hashed. -/
def Call.Hashed (env : Env V S) : Call V S → Prop
  | .store _ m => SlowStorage.Hashed env m
  | _ => True

theorem step_shaped (hlaw : env.Lawful) {d d' : DiskTier S} {c : Call V S} (hc : c.Hashed env)
    (h : d.Shaped env) (hs : d.step env c = some d') : d'.Shaped env := by
  cases c with
  | store now m => obtain rfl := Option.some.inj hs; exact Shaped.store hlaw h now hc
  | retrieve now name => obtain rfl := Option.some.inj hs; exact Shaped.retrieve hlaw h now name
  | refresh name => obtain rfl := Option.some.inj hs; exact h.mono (SlowStorage.within_refresh _ name)
  | flush regexp => obtain rfl := Option.some.inj hs; exact h.mono (SlowStorage.within_flush _ regexp)
  | expire run =>
    rw [step] at hs
    split at hs
    next => obtain rfl := Option.some.inj hs; exact h.mono (within_expireCache d run)
    next => cases hs
  | free n run names =>
    rw [step] at hs
    split at hs
    next => obtain rfl := Option.some.inj hs; exact h.mono (within_free d n run names)
    next => cases hs

/-- **Every storage a run of calls comes to is shaped.** -/
theorem run_shaped (hlaw : env.Lawful) {calls : List (Call V S)} (hcalls : ∀ c ∈ calls, c.Hashed env)
    {d d' : DiskTier S} (h : d.Shaped env) (hrun : runFrom (step env) d calls = some d') :
    d'.Shaped env :=
  Lib.inv_of_runFrom (P := fun d : DiskTier S => d.Shaped env)
    (fun _ _ _ hc h hs => step_shaped hlaw hc h hs) calls d d' hcalls h hrun

end DiskTier

end Caudium.CachePmod
