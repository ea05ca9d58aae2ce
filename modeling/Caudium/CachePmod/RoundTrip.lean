import Caudium.CachePmod.Shaped

/-!
# What comes back from the disk tier

`store` and `retrieve` each have a switch over the type. In the one of `retrieve` an object of type
"stdio" is put into the mapping and is a miss all the same, since the return is in the branch of
"variable", and the branch of "image" is inside that one. So what comes back is a variable
(`roundTrip_iff`). It comes back from any later state, as long as its two records are there:
`Held` is kept by every call that does not take them.
-/

namespace Caudium.CachePmod

open Lib (Str Mapping Always EachStep)

namespace DiskTier

variable {V S : Type} (env : Env V S)

/-- A mapping of a type `store` takes, with an object it writes. -/
structure Accepted (m : Meta V S) : Prop where
  encoded : (SlowStorage.encoded env m).isSome
  object : m.object.isSome

/-- What is stored of it: of a file, what can be read from it. -/
def content (m : Meta V S) : Option (Object V S) :=
  match m.object with
  | some (.file data) => some (if m.type = .stdio then .data data else .file data)
  | o => o

/-- A tier behind a `store`. -/
def stored (d : DiskTier S) (now : Int) (m : Meta V S) : DiskTier S :=
  { d with toSlowStorage := (d.toSlowStorage.store env now m).2 }

/-- Both records of a hash are there. -/
def Has (d : DiskTier S) (hash : Str) : Prop :=
  (d.storage.lookup (objectPath hash)).isSome ∧ (d.storage.lookup (metaPath hash)).isSome

/-- A call that neither stores under a hash nor takes its records. -/
def Spares (hash : Str) (d : DiskTier S) : Call V S → Prop
  | .store _ m => SlowStorage.filedUnder env m ≠ hash
  | .retrieve _ _ => True
  | .refresh _ => True
  | c => ∀ d', d.step env c = some d' → d'.Has hash

/-- A `retrieve` at any time returns a mapping with the object. -/
def Answers (name : Str) (o : Option (Object V S)) (d : DiskTier S) : Prop :=
  ∀ now, ∃ m, (d.toSlowStorage.retrieve env now name).1 = some m ∧ m.object = o

/-- After a `store`, every `retrieve` of the name answers what was stored, whatever else is called. -/
def RoundTrips (d : DiskTier S) (now : Int) (m : Meta V S) : Prop :=
  ∀ calls, EachStep (step env) (Spares env (env.getHash m.name)) (d.stored env now m) calls →
    Always (step env) (Answers env m.name (content m)) (d.stored env now m) calls

/-- The records of a hash are there, and an object can be read from them. -/
structure Held (hash : Str) (o : Object V S) (d : DiskTier S) : Prop where
  filed : d.Filed env
  has : d.Has hash
  peek : d.peek env hash = some o

variable {env}

theorem Held.answers {name : Str} {o : Object V S} {d : DiskTier S} (hlaw : env.Lawful)
    (h : Held env (env.getHash name) o d) : Answers env name (some o) d := by
  intro now
  obtain ⟨hobj, -⟩ := d.toSlowStorage.retrieve_spec env now hlaw h.filed name
  rw [h.peek] at hobj
  obtain ⟨m, hm, ho⟩ := Option.bind_eq_some_iff.mp hobj
  exact ⟨m, hm, ho⟩

/-- What only removes, and not the records of the hash, holds what was held. -/
theorem Held.within {hash : Str} {o : Object V S} {d d' : DiskTier S} (h : Held env hash o d)
    (hw : d'.Within d.toSlowStorage) (hhas : d'.Has hash) : Held env hash o d' := by
  obtain ⟨hobj, hmeta⟩ := expirationPath_ne hash
  have hsame : ∀ k ≠ expirationPath, (d'.storage.lookup k).isSome →
      d'.storage.lookup k = d.storage.lookup k := by
    intro k hk hthere
    obtain ⟨v, hv⟩ := Option.isSome_iff_exists.mp hthere
    rw [hv, (hw k v hv).resolve_left hk]
  refine ⟨hw.filed h.filed, hhas, ?_⟩
  rw [← h.peek]
  apply SlowStorage.peek_congr
  · exact SlowStorage.metaAt_congr env (hsame _ hmeta hhas.2)
  · exact SlowStorage.objectAt_congr env (hsame _ hobj hhas.1)

/-- A `store`, a `refresh` and a `retrieve` take no record. -/
theorem has_store {d : SlowStorage S} {k : Str} (now : Int) (m : Meta V S)
    (h : (d.storage.lookup k).isSome) : ((d.store env now m).2.storage.lookup k).isSome := by
  rw [SlowStorage.store_eq]
  split
  next data _ =>
    rw [SlowStorage.storage_noteExpires, SlowStorage.write, Lib.Mapping.lookup_insert_ite,
      Lib.Mapping.lookup_insert_ite]
    split
    next => rfl
    next =>
      split
      next => rfl
      next => exact h
  next =>
    split
    next => exact h
    next => rwa [SlowStorage.storage_noteExpires]

theorem has_refresh {d : SlowStorage S} {rest : Str} (name : Str)
    (h : (d.storage.lookup ('/' :: rest)).isSome) :
    ((d.refresh env name).storage.lookup ('/' :: rest)).isSome := by
  rwa [SlowStorage.storage_refresh]

theorem has_retrieve {d : SlowStorage S} {rest : Str} (now : Int) (name : Str)
    (h : (d.storage.lookup ('/' :: rest)).isSome) :
    ((d.retrieve env now name).2.storage.lookup ('/' :: rest)).isSome := by
  unfold SlowStorage.retrieve
  dsimp only
  split
  next => exact h
  next m _ =>
    split
    next =>
      split
      next => exact has_refresh (d := { d with hits := d.hits + 1 }) _ h
      next =>
        split
        next => exact has_refresh (d := { d with hits := d.hits + 1 }) _ h
        next =>
          dsimp only
          rw [Lib.Mapping.lookup_insert_ite]
          split
          next => rfl
          next => exact h
    next => exact h

/-- **A call that spares the records leaves the object to be read.** -/
theorem step_held (hlaw : env.Lawful) {hash : Str} {o : Object V S} {d d' : DiskTier S}
    {c : Call V S} (h : Held env hash o d) (hc : Spares env hash d c)
    (hs : d.step env c = some d') : Held env hash o d' := by
  cases c with
  | store now m =>
    obtain rfl := Option.some.inj hs
    have hne : ¬ hash = SlowStorage.filedUnder env m := fun he => hc he.symm
    refine ⟨SlowStorage.filed_store hlaw h.filed now m,
      ⟨has_store now m h.has.1, has_store now m h.has.2⟩, ?_⟩
    rw [← h.peek]
    apply SlowStorage.peek_congr
    · show (d.toSlowStorage.store env now m).2.metaAt env hash = _
      rw [SlowStorage.metaAt_store env now _ hlaw]
      split
      next => exact if_neg hne
      next => rfl
    · show (d.toSlowStorage.store env now m).2.objectAt env hash = _
      rw [SlowStorage.objectAt_store]
      split
      next => exact if_neg hne
      next => rfl
  | retrieve now name =>
    obtain rfl := Option.some.inj hs
    have hsame := SlowStorage.retrieve_same env now d.toSlowStorage hlaw h.filed name
    exact ⟨hsame.filed env h.filed, ⟨has_retrieve now name h.has.1, has_retrieve now name h.has.2⟩,
      (hsame.peek hash).trans h.peek⟩
  | refresh name =>
    obtain rfl := Option.some.inj hs
    exact h.within (SlowStorage.within_refresh _ name)
      ⟨has_refresh name h.has.1, has_refresh name h.has.2⟩
  | flush regexp =>
    have hhas := hc d' hs
    obtain rfl := Option.some.inj hs
    exact h.within (SlowStorage.within_flush _ regexp) hhas
  | expire run =>
    have hhas := hc d' hs
    rw [step] at hs
    split at hs
    next => obtain rfl := Option.some.inj hs; exact h.within (within_expireCache d run) hhas
    next => cases hs
  | free n run names =>
    have hhas := hc d' hs
    rw [step] at hs
    split at hs
    next => obtain rfl := Option.some.inj hs; exact h.within (within_free d n run names) hhas
    next => cases hs

/-- What is read behind a `store` that writes a record. -/
theorem peek_stored (hlaw : env.Lawful) (d : DiskTier S) (now : Int) {m : Meta V S} {data : S}
    (henc : SlowStorage.encoded env m = some data)
    (hhash : SlowStorage.filedUnder env m = env.getHash m.name) :
    (d.stored env now m).peek env (env.getHash m.name) =
      if m.type = Kind.var ∧ (m.program = true → env.isProgram (env.decodeValue data) = true) then
        env.decodeValue data
      else none := by
  have hmeta := SlowStorage.metaAt_store env now d.toSlowStorage hlaw m (env.getHash m.name)
  have hobj := SlowStorage.objectAt_store env now d.toSlowStorage m (env.getHash m.name)
  rw [henc] at hmeta hobj
  dsimp only at hmeta hobj
  rw [if_pos hhash.symm] at hmeta hobj
  have hstored : (d.stored env now m).toSlowStorage = (d.toSlowStorage.store env now m).2 := rfl
  rw [hstored, SlowStorage.peek, hmeta, hobj]
  rfl

theorem has_stored (d : DiskTier S) (now : Int) {m : Meta V S} {data : S}
    (henc : SlowStorage.encoded env m = some data)
    (hhash : SlowStorage.filedUnder env m = env.getHash m.name) :
    (d.stored env now m).Has (env.getHash m.name) := by
  have hstore := SlowStorage.store_eq env now d.toSlowStorage m
  rw [henc] at hstore
  have hget : (m.touch env now).hash.getD [] = env.getHash m.name := hhash
  have hlookup : ∀ k, (d.stored env now m).storage.lookup k
      = ((d.storage.insert (objectPath (env.getHash m.name)) data).insert
          (metaPath (env.getHash m.name)) (env.encodeMeta
            { m.touch env now with size := env.sizeof data, object := none })).lookup k := by
    intro k
    show (d.toSlowStorage.store env now m).2.storage.lookup k = _
    rw [hstore, SlowStorage.storage_noteExpires, SlowStorage.write, ← hget]
  constructor
  · rw [hlookup, AList.lookup_insert_ne (objectPath_ne_metaPath _ _), AList.lookup_insert]
    rfl
  · rw [hlookup, AList.lookup_insert]
    rfl

/-- **What comes back**: a variable, if it is no program that does not come back as one. -/
theorem roundTrip_iff (hlaw : env.Lawful) {d : DiskTier S} (hf : d.Filed env) (now : Int)
    {m : Meta V S} (hacc : Accepted env m)
    (hhash : SlowStorage.filedUnder env m = env.getHash m.name) :
    RoundTrips env d now m ↔ m.type = .var ∧ (m.program = true → env.isProgram m.object = true) := by
  obtain ⟨data, henc⟩ := Option.isSome_iff_exists.mp hacc.encoded
  obtain ⟨o, ho⟩ := Option.isSome_iff_exists.mp hacc.object
  have hpeek := peek_stored hlaw d now henc hhash
  have hdecode : m.type = .var → env.decodeValue data = m.object := by
    intro htype
    rw [SlowStorage.encoded, htype] at henc
    dsimp only at henc
    split at henc
    next => exact hlaw.decodeValue _ _ henc
    next => cases henc
  have hfiled : (d.stored env now m).Filed env := SlowStorage.filed_store hlaw hf now m
  constructor
  · intro h
    have hfirst := (h [] trivial).head
    obtain ⟨m', hm', hobj⟩ := hfirst now
    obtain ⟨hspec, -⟩ := (d.stored env now m).toSlowStorage.retrieve_spec env now hlaw hfiled m.name
    rw [hm', Option.bind_some, hobj, hpeek] at hspec
    have hsome : content m ≠ none := by
      rw [content, ho]
      cases o with
      | file data => exact nofun
      | data s => exact nofun
      | value v => exact nofun
    split at hspec
    next hok => exact ⟨hok.1, hdecode hok.1 ▸ hok.2⟩
    next => exact absurd hspec hsome
  · intro ⟨htype, hprogram⟩
    have hcontent : content m = some o := by
      rw [content, ho]
      cases o with
      | file data => simp [htype]
      | data s => rfl
      | value v => rfl
    have hheld : Held env (env.getHash m.name) o (d.stored env now m) := by
      refine ⟨hfiled, has_stored d now henc hhash, ?_⟩
      rw [hpeek, hdecode htype, if_pos ⟨htype, hprogram⟩, ho]
    intro calls hspares
    have hrun := Lib.always_of_step (P := Held env (env.getHash m.name) o)
      (fun d c d' h hc hs => step_held hlaw h hc hs) calls _ hheld hspares
    rw [hcontent]
    exact hrun.mono (fun d h => h.answers hlaw) calls

end DiskTier

/-- What `cachelib` makes for a page, a file of which 8 bytes can be read. -/
def samplePage : Meta Nat Encoded :=
  { name := "a".toList, object := some (.file (.value (some (.value 7)))), type := .stdio, size := 8
    expires := 0, diskCache := true, program := false, createTime := 0, lastRetrieval := 0, hits := 0
    hash := none }

theorem roundTrip_iff_variable :
    DiskTier.RoundTrips sampleEnv DiskTier.fresh 0 (expiringMeta true) ↔
      (expiringMeta true).type = .var ∧ ((expiringMeta true).program = true →
        sampleEnv.isProgram (expiringMeta true).object = true) :=
  DiskTier.roundTrip_iff sampleEnv_lawful (SlowStorage.fresh_shaped sampleEnv).filed 0 ⟨rfl, rfl⟩ rfl

/-- A page is stored, and the next `retrieve` is a miss. -/
theorem page_misses : DiskTier.Accepted sampleEnv samplePage ∧
    ¬ DiskTier.RoundTrips sampleEnv DiskTier.fresh 0 samplePage := by
  refine ⟨⟨rfl, rfl⟩, fun h => ?_⟩
  obtain ⟨m, hm, -⟩ := (h [] trivial).head 1
  cases hm

end Caudium.CachePmod
