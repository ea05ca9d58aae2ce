import Caudium.CachePmod.Cache

/-!
# Superseded objects

A store into RAM hides whatever the disk tier has of the name, and an entry only
leaves RAM, short of expiring, by becoming the disk tier's record. So an older
object can come back in one way: a store that does not go into RAM, because the
object is too large for it, leaves the RAM entry of the name where it is, and a
store that goes nowhere leaves the disk tier's record too.

`step_current_iff` says that one step keeps every answer current exactly when it
is not such a store, and `current_iff` carries this over whole runs.
-/

namespace Caudium.CachePmod

open Lib (Str Mapping Always EachStep always_iff_eachStep)

/-- A cache and the object most recently stored under each name. -/
structure Watched (V S : Type) where
  cache : Cache V S
  latest : Str → Option (Object V S)

namespace Watched

variable {V S : Type} (env : Env V S) (names : Set Str)

/-- A new cache, nothing stored. -/
def start (maxObjectRam maxObjectDisk defaultTtl : Int) : Watched V S :=
  { cache := .create maxObjectRam maxObjectDisk defaultTtl, latest := fun _ => none }

/-- One call. -/
def step (w : Watched V S) (op : Op V S) : Option (Watched V S) :=
  (w.cache.step env op).map fun cache =>
    { cache := cache
      latest := match op with
        | .store _ m => Function.update w.latest m.name m.object
        | _ => w.latest }

/-- Every `retrieve` answers nothing or the most recent object. -/
def Current (w : Watched V S) : Prop :=
  ∀ now, ∀ name ∈ names, (w.cache.retrieve env now name).1 = none ∨
    (w.cache.retrieve env now name).1 = w.latest name

/-- The call is a store of a true object that may go to disk, a `retrieve`, a
`set_sizes`, or a `free_ram` at a time when nothing in RAM has expired. -/
def InScope (w : Watched V S) : Op V S → Prop
  | .store _ m => m.name ∈ names ∧ Cache.Storable m ∧ m.object ≠ none ∧ m.diskCache = true
  | .retrieve _ name => name ∈ names
  | .refresh _ _ => False
  | .freeRam now _ _ =>
    ∀ h m, w.cache.ramCache.thecache.lookup h = some m → ¬ FastStorage.Expired now m
  | .setSizes _ _ => True

/-- A store that does not go into RAM finds there no entry of the name with
another object, and one that goes nowhere finds none on disk either. -/
def NothingLeft (w : Watched V S) : Op V S → Prop
  | .store _ m =>
    w.cache.maxObjectRam < m.size →
      match w.cache.ramCopy env m.name with
      | some m' => m'.object = m.object
      | none => w.cache.maxObjectDisk < m.size →
          w.cache.diskCopy env m.name = none ∨ w.cache.diskCopy env m.name = m.object
  | _ => True

end Watched

/-! ## What both tiers hold may go to disk -/

namespace Cache

variable {V S : Type} {env : Env V S} {c c' : Cache V S} {now : Int}

/-- What RAM and disk hold may go to disk, and RAM holds true objects. -/
structure Movable (env : Env V S) (c : Cache V S) : Prop where
  filed : c.Filed env
  ram : ∀ h m, c.ramCache.thecache.lookup h = some m → m.object ≠ none ∧ m.diskCache = true
  disk : ∀ h m, c.diskCache.metaAt env h = some m → m.diskCache = true

/-- In a movable cache everything RAM holds encodes. -/
theorem Movable.encodes (hI : c.Movable env)
    (henc : ∀ o : Object V S, (env.encodeValue (some o)).isSome) {h : Str} {m : Meta V S}
    (hm : c.ramCache.thecache.lookup h = some m) : SlowStorage.Encodes env m := by
  obtain ⟨hobj, hmark⟩ := hI.ram h m hm
  refine ⟨hmark, ?_⟩
  cases ho : m.object with
  | none => exact absurd ho hobj
  | some o => exact henc o

theorem Movable.store (hlaw : env.Lawful) (hI : c.Movable env) {m : Meta V S} (hm : Storable m)
    (hobj : m.object ≠ none) (hmark : m.diskCache = true) : (c.store env now m).Movable env := by
  refine ⟨store_filed hlaw hI.filed hm, fun h m₁ hm₁ => ?_, fun h m₁ hm₁ => ?_⟩
  · cases store_stored (c := c) now hlaw hm with
    | ram _ _ _ _ hobj' hmark' hram =>
      rw [hram] at hm₁
      split at hm₁
      · obtain rfl := Option.some.inj hm₁
        exact ⟨hobj' ▸ hobj, hmark'.trans hmark⟩
      · exact hI.ram h m₁ hm₁
    | disk _ _ hram => exact hI.ram h m₁ (hram ▸ hm₁)
    | nowhere _ _ hram => exact hI.ram h m₁ (hram ▸ hm₁)
  · cases store_stored (c := c) now hlaw hm with
    | ram _ hdisk => exact hI.disk h m₁ (hdisk ▸ hm₁)
    | disk _ _ _ hother _ _ _ _ hmeta _ hmark' =>
      by_cases hh : h = env.getHash m.name
      · subst hh
        obtain rfl := Option.some.inj (hmeta.symm.trans hm₁)
        exact hmark'
      · exact hI.disk h m₁ ((hother h hh).1 ▸ hm₁)
    | nowhere _ _ _ hdisk => exact hI.disk h m₁ ((hdisk h).1 ▸ hm₁)

theorem Movable.retrieve (hlaw : env.Lawful) (hI : c.Movable env) (name : Str) :
    (c.retrieve env now name).2.Movable env := by
  obtain ⟨hsame, heff⟩ := retrieve_effect now hlaw hI.filed name
  refine ⟨retrieve_filed hlaw hI.filed name, fun h m₁ hm₁ => ?_, fun h m₁ hm₁ => ?_⟩
  · cases heff h with
    | same hram => exact hI.ram h m₁ (hram ▸ hm₁)
    | counted hram hram' =>
      obtain rfl := Option.some.inj (hram'.symm.trans hm₁)
      obtain ⟨hobj, hmark⟩ := hI.ram h _ hram
      exact ⟨hobj, hmark⟩
    | promoted _ hmeta _ hsome _ _ hmark hram' =>
      obtain rfl := Option.some.inj (hram'.symm.trans hm₁)
      exact ⟨hsome, hmark.trans (hI.disk h _ hmeta)⟩
  · obtain ⟨m, hm, -, hmark⟩ := hsame.marks h m₁ hm₁
    exact hmark.trans (hI.disk h m hm)

theorem Movable.freeRam (hlaw : env.Lawful) (hI : c.Movable env) (n : Int) (order : List Str) :
    (c.freeRam env now n order).Movable env := by
  have hfreed := freeRam_freed now hlaw hI.filed n order
  refine ⟨freeRam_filed hlaw hI.filed n order, fun h m₁ hm₁ => ?_, fun h m₁ hm₁ => ?_⟩
  · cases hfreed h with
    | kept hram => exact hI.ram h m₁ (hram ▸ hm₁)
    | dropped _ _ hram => rw [hram] at hm₁; cases hm₁
    | moved _ _ hram => rw [hram] at hm₁; cases hm₁
  · cases hfreed h with
    | kept _ hmeta => exact hI.disk h m₁ (hmeta ▸ hm₁)
    | dropped _ _ _ hmeta => exact hI.disk h m₁ (hmeta ▸ hm₁)
    | moved hm _ _ hmeta =>
      obtain rfl := Option.some.inj (hmeta.symm.trans hm₁)
      exact (hI.ram h _ hm).2

/-- Freeing an entry that has not expired and encodes leaves the name's answer,
or none: the record now on disk is of the same object. -/
theorem answer_freeRam (hlaw : env.Lawful) (hI : c.Movable env)
    (henc : ∀ o : Object V S, (env.encodeValue (some o)).isSome)
    (hlive : ∀ h m, c.ramCache.thecache.lookup h = some m → ¬ FastStorage.Expired now m)
    (n : Int) (order : List Str) (name : Str) :
    (c.freeRam env now n order).answer env name = c.answer env name ∨
      (c.freeRam env now n order).answer env name = none := by
  unfold answer ramCopy diskCopy
  cases freeRam_freed now hlaw hI.filed n order (env.getHash name) with
  | kept hram hmeta hobj =>
    rw [hram, SlowStorage.peek_congr env hmeta hobj]
    exact Or.inl rfl
  | dropped hm hwhy =>
    rcases hwhy with hexp | hno
    · exact absurd hexp (hlive _ _ hm)
    · exact absurd (hI.encodes henc hm) hno
  | moved hm _ hram hmeta hobj =>
    rw [hm, hram]
    dsimp only
    rw [SlowStorage.peek, hmeta, hobj]
    dsimp only
    split
    · exact Or.inl rfl
    · exact Or.inr rfl

end Cache

/-! ## One step, and runs -/

namespace Watched

variable {V S : Type} {env : Env V S} {names : Set Str} {w w' : Watched V S} {op : Op V S}

theorem current_iff_answer (hlaw : env.Lawful) (hf : w.cache.Filed env) :
    w.Current env names ↔ ∀ name ∈ names, w.cache.answer env name = none ∨
      w.cache.answer env name = w.latest name := by
  constructor
  · intro h name hn
    have hread := h 0 name hn
    rwa [Cache.retrieve_fst hlaw hf] at hread
  · intro h now name hn
    rw [Cache.retrieve_fst hlaw hf]
    exact h name hn

theorem step_movable (hlaw : env.Lawful) (hI : w.cache.Movable env) (hop : w.InScope names op)
    (hs : w.step env op = some w') : w'.cache.Movable env := by
  obtain ⟨c, hc, rfl⟩ := Option.map_eq_some_iff.mp hs
  cases op with
  | store now m => obtain rfl := Option.some.inj hc; exact hI.store hlaw hop.2.1 hop.2.2.1 hop.2.2.2
  | retrieve now name => obtain rfl := Option.some.inj hc; exact hI.retrieve hlaw name
  | refresh now name => exact hop.elim
  | freeRam now n order =>
    obtain rfl := Cache.step_freeRam hc
    exact hI.freeRam hlaw n order
  | setSizes a b =>
    obtain rfl := Option.some.inj hc
    exact ⟨⟨hI.filed.ram, hI.filed.disk⟩, hI.ram, hI.disk⟩

/-- The answer for the name of a `store`, after it: current exactly when nothing
older is left where it will be found. -/
theorem store_current_iff (hlaw : env.Lawful) (hI : w.cache.Movable env)
    (henc : ∀ o : Object V S, (env.encodeValue (some o)).isSome) {now : Int} {m : Meta V S}
    (hm : Cache.Storable m) (hobj : m.object ≠ none) (hmark : m.diskCache = true) :
    ((w.cache.store env now m).answer env m.name = none ∨
      (w.cache.store env now m).answer env m.name = m.object) ↔
    w.NothingLeft env (.store now m) := by
  have hencm : SlowStorage.Encodes env m := by
    refine ⟨hmark, ?_⟩
    cases ho : m.object with
    | none => exact absurd ho hobj
    | some o => exact henc o
  -- a RAM copy always has an object, so "nothing" is never its answer
  have hram : ∀ m', w.cache.ramCopy env m.name = some m' →
      ((m'.object = none ∨ m'.object = m.object) ↔ m'.object = m.object) := by
    intro m' hm'
    exact or_iff_right (hI.ram _ m' hm').1
  unfold NothingLeft Cache.answer
  dsimp only
  cases Cache.store_stored (c := w.cache) now hlaw hm with
  | ram hsize _ _ _ hobj' _ hram' =>
    refine iff_of_true (Or.inr ?_) fun hlarge => absurd hlarge (Int.not_lt.mpr hsize)
    rw [Cache.ramCopy, hram', if_pos rfl]
    exact hobj'
  -- on disk, behind whatever copy RAM has of the name
  | disk hlarge hsize hram' _ _ htype _ _ hmeta hobj' =>
    rw [Cache.ramCopy, hram', ← Cache.ramCopy]
    cases hc : w.cache.ramCopy env m.name with
    | some m' => exact (hram m' hc).trans ⟨fun h _ => h, fun h => h hlarge⟩
    | none =>
      refine iff_of_true ?_ fun _ hhuge => absurd hhuge (Int.not_lt.mpr hsize)
      dsimp only
      rw [Cache.diskCopy, SlowStorage.peek, hmeta, hobj']
      dsimp only
      split
      · exact Or.inr rfl
      · exact Or.inl rfl
  -- filed in neither tier: whatever was there stays
  | nowhere hlarge hwhy hram' hdisk =>
    rw [Cache.ramCopy, hram', ← Cache.ramCopy]
    cases hc : w.cache.ramCopy env m.name with
    | some m' => exact (hram m' hc).trans ⟨fun h _ => h, fun h => h hlarge⟩
    | none =>
      have hhuge := hwhy.resolve_right (not_not_intro hencm)
      have hpeek : (w.cache.store env now m).diskCopy env m.name = w.cache.diskCopy env m.name :=
        SlowStorage.peek_congr env (hdisk _).1 (hdisk _).2
      dsimp only
      rw [hpeek]
      exact ⟨fun h _ _ => h, fun h => h hlarge hhuge⟩

/-- One step keeps every answer current exactly when it leaves nothing behind. -/
theorem step_current_iff (hlaw : env.Lawful) (hinj : Set.InjOn env.hashMd5 names)
    (henc : ∀ o : Object V S, (env.encodeValue (some o)).isSome) (hI : w.cache.Movable env)
    (hP : w.Current env names) (hop : w.InScope names op) (hs : w.step env op = some w') :
    w'.Current env names ↔ w.NothingLeft env op := by
  have hI' := step_movable hlaw hI hop hs
  rw [current_iff_answer hlaw hI.filed] at hP
  rw [current_iff_answer hlaw hI'.filed]
  obtain ⟨c, hc, rfl⟩ := Option.map_eq_some_iff.mp hs
  -- only a `store` can leave something behind; the others keep every answer
  cases op with
  | store now m =>
    obtain rfl := Option.some.inj hc
    obtain ⟨hname, hm, hobj, hmark⟩ := hop
    rw [← store_current_iff hlaw hI henc hm hobj hmark]
    constructor
    · intro h
      have hown := h m.name hname
      dsimp only at hown
      rwa [Function.update_self] at hown
    · intro hown name hn
      dsimp only
      by_cases hne : name = m.name
      · subst hne
        rw [Function.update_self]
        exact hown
      · rw [Function.update_of_ne hne]
        have hhash : env.getHash name ≠ env.getHash m.name :=
          fun e => hne (env.getHash_inj hinj hn hname e)
        obtain ⟨hram, hpeek⟩ := Cache.store_other (c := w.cache) now hlaw hm hhash
        unfold Cache.answer Cache.ramCopy Cache.diskCopy
        rw [hram, hpeek]
        exact hP name hn
  | retrieve now name =>
    obtain rfl := Option.some.inj hc
    refine iff_of_true (fun name' hn => ?_) trivial
    dsimp only
    rw [Cache.answer_retrieve hlaw hI.filed]
    exact hP name' hn
  | refresh now name => exact hop.elim
  | freeRam now n order =>
    obtain rfl := Cache.step_freeRam hc
    refine iff_of_true (fun name hn => ?_) trivial
    dsimp only
    rcases Cache.answer_freeRam hlaw hI henc hop n order name with h | h
    · rw [h]
      exact hP name hn
    · exact Or.inl h
  | setSizes a b =>
    obtain rfl := Option.some.inj hc
    exact iff_of_true hP trivial

/-- **The law of the two tiers, with its exact condition.** Over any run of
stores, `retrieve`s, `free_ram`s and `set_sizes` of a new cache in which nothing
expires, every `retrieve` answers nothing or the most recent object of its name,
in every state reached, exactly when no store leaves an older object behind. -/
theorem current_iff (hlaw : env.Lawful) (hinj : Set.InjOn env.hashMd5 names)
    (henc : ∀ o : Object V S, (env.encodeValue (some o)).isSome)
    (maxObjectRam maxObjectDisk defaultTtl : Int) (ops : List (Op V S))
    (hops : EachStep (step env) (InScope names) (start maxObjectRam maxObjectDisk defaultTtl) ops) :
    Always (step env) (Current env names) (start maxObjectRam maxObjectDisk defaultTtl) ops ↔
      EachStep (step env) (NothingLeft env) (start maxObjectRam maxObjectDisk defaultTtl) ops := by
  refine always_iff_eachStep (I := fun w => w.cache.Movable env) ?_ ?_ ?_ ops _ ?_ ?_ hops
  · intro w op hs
    cases op with
    | store now m => cases hs
    | _ => exact trivial
  · exact fun w op w' hI _ hop _ hs => step_movable hlaw hI hop hs
  · exact fun w op w' hI hP hop hs => step_current_iff hlaw hinj henc hI hP hop hs
  · exact ⟨Cache.create_filed env .., fun _ _ h => (nomatch h), fun _ _ h => (nomatch h)⟩
  · exact (current_iff_answer hlaw (Cache.create_filed env ..)).mpr fun _ _ => Or.inl rfl

end Watched

/-- A value under the name "a", as `cachelib` hands it over. -/
def sampleMeta (object size : Nat) : Meta Nat Encoded :=
  { name := "a".toList, object := some (.value object), type := .var, size := size, expires := 0
    diskCache := true, program := false, createTime := 0, lastRetrieval := 0, hits := 0
    hash := none }

theorem sampleMeta_inScope (w : Watched Nat Encoded) (now : Int) (object size : Nat) :
    w.InScope {"a".toList} (.store now (sampleMeta object size)) :=
  ⟨rfl, ⟨rfl, rfl⟩, by simp [sampleMeta], rfl⟩

theorem current_iff_sample :
    Always (Watched.step sampleEnv) (Watched.Current sampleEnv {"a".toList})
      (Watched.start 100 1000 60) [.store 1 (sampleMeta 7 10), .store 2 (sampleMeta 8 500)] ↔
    EachStep (Watched.step sampleEnv) (Watched.NothingLeft sampleEnv)
      (Watched.start 100 1000 60) [.store 1 (sampleMeta 7 10), .store 2 (sampleMeta 8 500)] :=
  Watched.current_iff sampleEnv_lawful (Set.injOn_singleton _ _) (fun _ => rfl) 100 1000 60 _
    ⟨sampleMeta_inScope _ 1 7 10, fun _ _ => ⟨sampleMeta_inScope _ 2 8 500, fun _ _ => trivial⟩⟩

/-- A small object and then one too large for RAM under the same name: RAM still
answers with the first. -/
theorem superseded_from_ram :
    ¬ Always (Watched.step sampleEnv) (Watched.Current sampleEnv {"a".toList})
      (Watched.start 100 1000 60) [.store 1 (sampleMeta 7 10), .store 2 (sampleMeta 8 500)] := by
  intro h
  have hread := ((h.2 _ rfl).2 _ rfl) 3 "a".toList rfl
  rcases hread with hread | hread
  · cases hread
  · cases hread

end Caudium.CachePmod
