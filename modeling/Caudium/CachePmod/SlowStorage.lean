import Caudium.CachePmod.Meta

/-!
# `Cache.SlowStorage`: the disk tier

A record is two storage entries, the object and the mapping without it. What a
`retrieve` would answer is `peek`: the mapping has to decode, be of type
"variable" (the return stands in that branch), and its object be other than 0.

`refresh` unlinks the bare hash, which is not one of the two keys, so it removes
no record (`storage_refresh`).
-/

namespace Caudium.CachePmod

open Lib (Str Mapping)

/-- `SlowStorage`: the storage of its namespace and what it keeps of it. -/
structure SlowStorage (S : Type) where
  storage : Mapping Str S
  diskUsage : Int
  expirationData : Mapping Str Int
  hits : Nat
  misses : Nat

namespace SlowStorage

variable {V S : Type} (env : Env V S) (now : Int) (d : SlowStorage S)

/-- Over an empty storage. -/
def fresh : SlowStorage S :=
  { storage := ∅, diskUsage := 0, expirationData := ∅, hits := 0, misses := 0 }

/-- The two entries of a record, written; the mapping loses its object on the way. -/
def write (m : Meta V S) (data : S) : Meta V S × SlowStorage S :=
  let m := { m with size := env.sizeof data, object := none }
  let hash := m.hash.getD []
  (m, { d with
    storage := (d.storage.insert (objectPath hash) data).insert (metaPath hash) (env.encodeMeta m)
    diskUsage := d.diskUsage + m.size })

/-- `if(meta->expires) expiration_data[meta->hash] = meta->expires`. -/
def noteExpires (m : Meta V S) : SlowStorage S :=
  if m.expires = 0 then d
  else { d with expirationData := d.expirationData.insert (m.hash.getD []) m.expires }

/-- `store`, with what it leaves of the caller's mapping. -/
def store (m : Meta V S) : Meta V S × SlowStorage S :=
  let m := m.touch env now
  match m.type with
  | .stdio =>
    match m.object with
    | some (.file data) => ((d.write env m data).1, (d.write env m data).2.noteExpires m)
    | _ => (m, d)  -- throws: nothing else can be read
  | .var =>
    match (if m.diskCache then env.encodeValue m.object else none) with
    | some data => ((d.write env m data).1, (d.write env m data).2.noteExpires m)
    | none => (m, d.noteExpires m)
  | .image =>
    match (if m.diskCache then env.pnmEncode m.object else none) with
    | some data => ((d.write env m data).1, (d.write env m data).2.noteExpires m)
    | none => (m, d.noteExpires m)
  | .other => (m, d.noteExpires m)

/-- `refresh`. -/
def refresh (name : Str) : SlowStorage S :=
  let n := env.getHash name
  { d with storage := d.storage.erase n, expirationData := d.expirationData.erase n }

/-- The mapping stored for a hash, as it decodes. -/
def metaAt (hash : Str) : Option (Meta V S) :=
  (d.storage.lookup (metaPath hash)).bind env.decodeMeta

/-- The object stored for a hash, as it decodes. -/
def objectAt (hash : Str) : Option (Object V S) :=
  (d.storage.lookup (objectPath hash)).bind env.decodeValue

/-- `retrieve`. The branch for images stands inside the one for variables and is
never taken; a record of another type than "variable" is a miss. -/
def retrieve (name : Str) : Option (Meta V S) × SlowStorage S :=
  let hash := env.getHash name
  match d.metaAt env hash with
  | none => (none, { d with misses := d.misses + 1 })
  | some m =>
    let d := { d with hits := d.hits + 1 }
    match m.type with
    | .var =>
      let m := { m with
        hits := m.hits + 1, lastRetrieval := now, object := d.objectAt env hash }
      if m.program && !env.isProgram m.object then (none, d.refresh env hash)
      else
        match m.object with
        | none => (none, d.refresh env name)
        | some _ => (some m, { d with
            storage := d.storage.insert (metaPath (m.hash.getD [])) (env.encodeMeta m) })
    | _ => (none, { d with misses := d.misses + 1 })

/-- `flush`, of the keys an expression matches, or of everything. -/
def flush (regexp : Option Str) : SlowStorage S :=
  match regexp with
  | some regexp =>
    { d with storage := d.storage.eraseAll (d.storage.keys.filter (env.regexpMatch regexp)) }
  | none =>
    { d with
      diskUsage := 0
      storage := (∅ : Mapping Str S).insert "/expiration_data".toList (env.encodeExpiration ∅)
      expirationData := ∅ }

/-- The object a `retrieve` of a name with this hash would answer. -/
def peek (hash : Str) : Option (Object V S) :=
  match d.metaAt env hash with
  | none => none
  | some m =>
    if m.type = .var ∧ (m.program = true → env.isProgram (d.objectAt env hash) = true) then
      d.objectAt env hash
    else none

/-- Every mapping on disk is filed under its own hash. -/
def Filed : Prop :=
  ∀ hash m, d.metaAt env hash = some m → m.hash = some hash

/-! ## Reading after each operation -/

theorem metaAt_congr {d d' : SlowStorage S} {hash : Str}
    (h : d'.storage.lookup (metaPath hash) = d.storage.lookup (metaPath hash)) :
    d'.metaAt env hash = d.metaAt env hash := by
  rw [metaAt, h, metaAt]

theorem objectAt_congr {d d' : SlowStorage S} {hash : Str}
    (h : d'.storage.lookup (objectPath hash) = d.storage.lookup (objectPath hash)) :
    d'.objectAt env hash = d.objectAt env hash := by
  rw [objectAt, h, objectAt]

theorem peek_congr {d d' : SlowStorage S} {hash : Str}
    (hm : d'.metaAt env hash = d.metaAt env hash)
    (ho : d'.objectAt env hash = d.objectAt env hash) : d'.peek env hash = d.peek env hash := by
  rw [peek, hm, ho, peek]

@[simp] theorem storage_noteExpires (m : Meta V S) : (d.noteExpires m).storage = d.storage := by
  unfold noteExpires
  split <;> rfl

@[simp] theorem metaAt_noteExpires (m : Meta V S) (hash : Str) :
    (d.noteExpires m).metaAt env hash = d.metaAt env hash :=
  metaAt_congr env (by rw [storage_noteExpires])

@[simp] theorem objectAt_noteExpires (m : Meta V S) (hash : Str) :
    (d.noteExpires m).objectAt env hash = d.objectAt env hash :=
  objectAt_congr env (by rw [storage_noteExpires])

/-- The keys of a refresh are no record's. -/
theorem storage_refresh (name rest : Str) :
    (d.refresh env name).storage.lookup ('/' :: rest) = d.storage.lookup ('/' :: rest) :=
  AList.lookup_erase_ne (getHash_ne_path env name rest).symm

@[simp] theorem metaAt_refresh (name hash : Str) :
    (d.refresh env name).metaAt env hash = d.metaAt env hash :=
  metaAt_congr env (d.storage_refresh env name _)

@[simp] theorem objectAt_refresh (name hash : Str) :
    (d.refresh env name).objectAt env hash = d.objectAt env hash :=
  objectAt_congr env (d.storage_refresh env name _)

/-- **A refresh of the disk tier removes nothing that can be retrieved.** -/
@[simp] theorem peek_refresh (name hash : Str) :
    (d.refresh env name).peek env hash = d.peek env hash :=
  peek_congr env (d.metaAt_refresh env name hash) (d.objectAt_refresh env name hash)

/-- A write shows at its own hash and at no other. -/
theorem metaAt_write (hlaw : env.Lawful) (m : Meta V S) (data : S) (hash : Str) :
    (d.write env m data).2.metaAt env hash
      = if hash = m.hash.getD [] then some { m with size := env.sizeof data, object := none }
        else d.metaAt env hash := by
  unfold metaAt write
  dsimp only
  rw [Lib.Mapping.lookup_insert_ite]
  by_cases hh : hash = m.hash.getD []
  · rw [if_pos hh, if_pos (metaPath_inj.mpr hh)]
    exact hlaw.decodeMeta _
  · rw [if_neg hh, if_neg fun e => hh (metaPath_inj.mp e),
      AList.lookup_insert_ne (objectPath_ne_metaPath _ _).symm]

theorem objectAt_write (m : Meta V S) (data : S) (hash : Str) :
    (d.write env m data).2.objectAt env hash
      = if hash = m.hash.getD [] then env.decodeValue data else d.objectAt env hash := by
  unfold objectAt write
  dsimp only
  rw [AList.lookup_insert_ne (objectPath_ne_metaPath _ _), Lib.Mapping.lookup_insert_ite]
  by_cases hh : hash = m.hash.getD []
  · rw [if_pos hh, if_pos (objectPath_inj.mpr hh)]
    rfl
  · rw [if_neg hh, if_neg fun e => hh (objectPath_inj.mp e)]

/-- A mapping written back under its hash shows there and nowhere else. -/
theorem metaAt_insert (hlaw : env.Lawful) (m : Meta V S) (hash' hash : Str) :
    ({ d with storage := d.storage.insert (metaPath hash') (env.encodeMeta m) } :
        SlowStorage S).metaAt env hash = if hash = hash' then some m else d.metaAt env hash := by
  unfold metaAt
  dsimp only
  rw [Lib.Mapping.lookup_insert_ite]
  by_cases hh : hash = hash'
  · rw [if_pos hh, if_pos (metaPath_inj.mpr hh)]
    exact hlaw.decodeMeta _
  · rw [if_neg hh, if_neg fun e => hh (metaPath_inj.mp e)]

theorem objectAt_insert (m : Meta V S) (hash' hash : Str) :
    ({ d with storage := d.storage.insert (metaPath hash') (env.encodeMeta m) } :
        SlowStorage S).objectAt env hash = d.objectAt env hash :=
  objectAt_congr env (AList.lookup_insert_ne (objectPath_ne_metaPath _ _))

/-- Whether a `store` of a variable writes a record: it may go to disk and it
encodes. -/
def Encodes (m : Meta V S) : Prop := m.diskCache = true ∧ (env.encodeValue m.object).isSome

/-- Everything a `store` of a variable does to what can be read: the record of
its hash, when it writes one, and nothing else. -/
theorem store_variable (hlaw : env.Lawful) {m : Meta V S} {hash : Str} (htype : m.type = .var)
    (hhash : m.hash.getD (env.getHash m.name) = hash) :
    (∀ h ≠ hash, (d.store env now m).2.metaAt env h = d.metaAt env h ∧
      (d.store env now m).2.objectAt env h = d.objectAt env h) ∧
    ((Encodes env m ∧ (∃ n, (d.store env now m).2.metaAt env hash = some
        { m.touch env now with size := n, object := none }) ∧
        (d.store env now m).2.objectAt env hash = m.object) ∨
      (¬ Encodes env m ∧ (d.store env now m).2.metaAt env hash = d.metaAt env hash ∧
        (d.store env now m).2.objectAt env hash = d.objectAt env hash)) := by
  have hstore : d.store env now m
      = match (if m.diskCache then env.encodeValue m.object else none) with
        | some data => ((d.write env (m.touch env now) data).1,
            (d.write env (m.touch env now) data).2.noteExpires (m.touch env now))
        | none => (m.touch env now, d.noteExpires (m.touch env now)) := by
    unfold store
    dsimp only
    rw [show (m.touch env now).type = .var from htype]
    rfl
  have hget : (m.touch env now).hash.getD [] = hash := hhash
  rw [hstore]
  cases henc : (if m.diskCache then env.encodeValue m.object else none) with
  | none =>
    have hno : ¬ Encodes env m := by
      intro hand
      obtain ⟨hd, he⟩ := hand
      rw [if_pos hd] at henc
      rw [henc] at he
      cases he
    exact ⟨fun h _ => ⟨metaAt_noteExpires env d _ h, objectAt_noteExpires env d _ h⟩,
      Or.inr ⟨hno, metaAt_noteExpires env d _ hash, objectAt_noteExpires env d _ hash⟩⟩
  | some data =>
    have hyes : m.diskCache = true ∧ env.encodeValue m.object = some data := by
      split at henc
      next hd => exact ⟨hd, henc⟩
      next => cases henc
    have hmeta : ∀ h, ((d.write env (m.touch env now) data).2.noteExpires
        (m.touch env now)).metaAt env h
          = if h = hash then some { m.touch env now with size := env.sizeof data, object := none }
            else d.metaAt env h := by
      intro h
      rw [metaAt_noteExpires, metaAt_write env d hlaw, hget]
    have hobj : ∀ h, ((d.write env (m.touch env now) data).2.noteExpires
        (m.touch env now)).objectAt env h
          = if h = hash then env.decodeValue data else d.objectAt env h := by
      intro h
      rw [objectAt_noteExpires, objectAt_write env d, hget]
    refine ⟨fun h hne => ⟨by rw [hmeta, if_neg hne], by rw [hobj, if_neg hne]⟩, Or.inl ⟨?_, ?_, ?_⟩⟩
    · exact ⟨hyes.1, by rw [hyes.2]; rfl⟩
    · exact ⟨_, by rw [hmeta, if_pos rfl]⟩
    · rw [hobj, if_pos rfl]
      exact hlaw.decodeValue _ _ hyes.2

/-- A `retrieve` answers what `peek` says and leaves every `peek` as it was; the
mapping it returns is the filed one with its object. -/
theorem retrieve_spec (hlaw : env.Lawful) (hf : d.Filed env) (name : Str) :
    ((d.retrieve env now name).1.bind Meta.object = d.peek env (env.getHash name)) ∧
    (∀ h, (d.retrieve env now name).2.objectAt env h = d.objectAt env h) ∧
    (∀ h, (d.retrieve env now name).2.metaAt env h = d.metaAt env h ∨
      ∃ m k o, d.metaAt env h = some m ∧ (d.retrieve env now name).2.metaAt env h
        = some { m with hits := k, lastRetrieval := now, object := o }) ∧
    (∀ m, (d.retrieve env now name).1 = some m → ∃ m₀ k, d.metaAt env (env.getHash name) = some m₀ ∧
      m₀.type = .var ∧ m.object ≠ none ∧
      m = { m₀ with hits := k, lastRetrieval := now, object := m.object }) := by
  cases hm : d.metaAt env (env.getHash name) with
  | none =>
    simp only [retrieve, peek, hm]
    exact ⟨rfl, fun _ => rfl, fun _ => Or.inl rfl, fun _ h => nomatch h⟩
  | some m =>
    simp only [retrieve, peek, hm]
    cases htype : m.type with
    | stdio => exact ⟨rfl, fun _ => rfl, fun _ => Or.inl rfl, fun _ h => nomatch h⟩
    | image => exact ⟨rfl, fun _ => rfl, fun _ => Or.inl rfl, fun _ h => nomatch h⟩
    | other => exact ⟨rfl, fun _ => rfl, fun _ => Or.inl rfl, fun _ h => nomatch h⟩
    | var =>
      dsimp only
      have hobjAt : ({ d with hits := d.hits + 1 } : SlowStorage S).objectAt env (env.getHash name)
          = d.objectAt env (env.getHash name) := rfl
      rw [hobjAt]
      split
      -- a program that does not decode is refreshed away, and was no hit of `peek` either
      next hprog =>
        rw [Bool.and_eq_true, Bool.not_eq_true'] at hprog
        refine ⟨?_, fun h => objectAt_refresh env _ _ h, fun h => Or.inl (metaAt_refresh env _ _ h),
          fun _ h => nomatch h⟩
        rw [if_neg]
        · rfl
        · intro hand
          obtain ⟨-, hc⟩ := hand
          rw [hc hprog.1] at hprog
          cases hprog.2
      next hprog =>
        have hok : m.program = true →
            env.isProgram (d.objectAt env (env.getHash name)) = true := by
          intro hp
          simpa [hp] using hprog
        rw [if_pos ⟨rfl, hok⟩]
        cases hobj : d.objectAt env (env.getHash name) with
        | none =>
          exact ⟨rfl, fun h => objectAt_refresh env _ _ h,
            fun h => Or.inl (metaAt_refresh env _ _ h), fun _ h => nomatch h⟩
        | some o =>
          have hhash : m.hash.getD [] = env.getHash name := by rw [hf _ _ hm]; rfl
          refine ⟨rfl, fun h => objectAt_insert env _ _ _ h, fun h => ?_, fun m' hm' => ?_⟩
          · dsimp only
            rw [metaAt_insert env { d with hits := d.hits + 1 } hlaw, hhash]
            by_cases hh : h = env.getHash name
            · exact Or.inr ⟨m, m.hits + 1, some o, by rw [hh, hm], by rw [if_pos hh, htype]⟩
            · exact Or.inl (if_neg hh)
          · obtain rfl := Option.some.inj hm'
            exact ⟨m, m.hits + 1, rfl, htype, by simp, by rw [htype]⟩

/-- `d'` answers as `d`, from mappings with the same hash and disk mark. -/
structure SameRecords (d d' : SlowStorage S) : Prop where
  peek : ∀ h, d'.peek env h = d.peek env h
  marks : ∀ h m', d'.metaAt env h = some m' →
    ∃ m, d.metaAt env h = some m ∧ m'.hash = m.hash ∧ m'.diskCache = m.diskCache

theorem SameRecords.filed {d d' : SlowStorage S} (h : SameRecords env d d') (hf : d.Filed env) :
    d'.Filed env := by
  intro hash m' hm'
  obtain ⟨m, hm, hhash, -⟩ := h.marks hash m' hm'
  rw [hhash]
  exact hf hash m hm

theorem refresh_same (name : Str) : SameRecords env d (d.refresh env name) :=
  ⟨d.peek_refresh env name, fun h m' hm' => ⟨m', by rwa [metaAt_refresh] at hm', rfl, rfl⟩⟩

theorem SameRecords.trans {d₁ d₂ d₃ : SlowStorage S} (h : SameRecords env d₁ d₂)
    (h' : SameRecords env d₂ d₃) : SameRecords env d₁ d₃ := by
  refine ⟨fun hash => (h'.peek hash).trans (h.peek hash), fun hash m₃ hm₃ => ?_⟩
  obtain ⟨m₂, hm₂, hhash, hmark⟩ := h'.marks hash m₃ hm₃
  obtain ⟨m₁, hm₁, hhash', hmark'⟩ := h.marks hash m₂ hm₂
  exact ⟨m₁, hm₁, hhash.trans hhash', hmark.trans hmark'⟩

theorem retrieve_same (hlaw : env.Lawful) (hf : d.Filed env) (name : Str) :
    SameRecords env d (d.retrieve env now name).2 := by
  obtain ⟨-, hobj, hmeta, -⟩ := d.retrieve_spec env now hlaw hf name
  refine ⟨fun h => ?_, fun h m' hm' => ?_⟩
  · rcases hmeta h with hm | ⟨m, k, o, hm, hm'⟩
    · exact peek_congr env hm (hobj h)
    · rw [SlowStorage.peek, hm', SlowStorage.peek, hm, hobj h]
  · rcases hmeta h with hm | ⟨m, k, o, hm, hm₁⟩
    · exact ⟨m', hm ▸ hm', rfl, rfl⟩
    · rw [hm₁, Option.some.injEq] at hm'
      subst hm'
      exact ⟨m, hm, rfl, rfl⟩

end SlowStorage

end Caudium.CachePmod
