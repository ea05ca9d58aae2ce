import Caudium.CachePmod.Cache

/-!
# Explicit invalidation

`Cache.refresh` drops the RAM entry of a name. Of the disk tier it asks the same,
but the disk tier unlinks the bare hash while its records lie under two paths
made of it, so a record there stays and the next `retrieve` finds it.

A name of which neither tier holds anything stays that way until it is stored
again, whatever else happens (`step_gone`); so invalidation works exactly when
there is no record to be left behind (`refresh_iff`).
-/

namespace Caudium.CachePmod

open Lib (Str Mapping runFrom runFrom_cons inv_of_runFrom)

/-- The call stores the name. -/
def Op.Stores {V S : Type} (name : Str) : Op V S → Prop
  | .store _ m => m.name = name
  | _ => False

namespace Cache

variable {V S : Type} {env : Env V S} {names : Set Str} {c c' : Cache V S} {now : Int}

/-- Neither tier holds anything a `retrieve` of the name could answer. -/
structure Gone (env : Env V S) (c : Cache V S) (name : Str) : Prop where
  ram : c.ramCopy env name = none
  disk : c.diskCopy env name = none

theorem Gone.answer {name : Str} (h : c.Gone env name) : c.answer env name = none := by
  rw [Cache.answer, h.ram]
  exact h.disk

/-- A name that is gone stays gone through every call that does not store it. -/
theorem step_gone (hlaw : env.Lawful) (hinj : Set.InjOn env.hashMd5 names) {name : Str}
    (hn : name ∈ names) {op : Op V S} (hop : op.About names) (hno : ¬ op.Stores name)
    (hf : c.Filed env) (h : c.Gone env name) (hs : c.step env op = some c') :
    c'.Gone env name := by
  cases op with
  | store now m =>
    obtain rfl := Option.some.inj hs
    have hhash : env.getHash name ≠ env.getHash m.name :=
      fun e => hno (env.getHash_inj hinj hop.1 hn e.symm)
    obtain ⟨hram, hpeek⟩ := store_other (c := c) now hlaw hop.2 hhash
    exact ⟨hram.trans h.ram, hpeek.trans h.disk⟩
  | retrieve now name' =>
    obtain rfl := Option.some.inj hs
    obtain ⟨hsame, heff⟩ := retrieve_effect now hlaw hf name'
    refine ⟨?_, (hsame.peek _).trans h.disk⟩
    cases heff (env.getHash name) with
    | same hram => exact hram.trans h.ram
    | counted hram =>
      rw [← ramCopy, h.ram] at hram
      cases hram
    -- there is nothing on disk to promote
    | promoted _ _ hobj hsome => exact absurd (hobj.trans h.disk) hsome
  | refresh now name' =>
    obtain rfl := Option.some.inj hs
    refine ⟨?_, (SlowStorage.peek_refresh env c.diskCache name' _).trans h.disk⟩
    refine (FastStorage.lookup_refresh env c.ramCache name' _).trans ?_
    split
    · rfl
    · exact h.ram
  -- nor anything in RAM to drop or to move
  | freeRam now n order =>
    obtain rfl := step_freeRam hs
    cases freeRam_freed now hlaw hf n order (env.getHash name) with
    | kept hram hmeta hobj =>
      exact ⟨hram.trans h.ram, (SlowStorage.peek_congr env hmeta hobj).trans h.disk⟩
    | dropped hm =>
      rw [← ramCopy, h.ram] at hm
      cases hm
    | moved hm =>
      rw [← ramCopy, h.ram] at hm
      cases hm
  | setSizes a b =>
    obtain rfl := Option.some.inj hs
    exact ⟨h.ram, h.disk⟩

theorem run_gone (hlaw : env.Lawful) (hinj : Set.InjOn env.hashMd5 names) {name : Str}
    (hn : name ∈ names) (ops : List (Op V S)) (hops : ∀ op ∈ ops, op.About names ∧ ¬ op.Stores name)
    (hf : c.Filed env) (h : c.Gone env name) (hr : runFrom (step env) c ops = some c') :
    c'.Filed env ∧ c'.Gone env name :=
  inv_of_runFrom (P := fun c => c.Filed env ∧ c.Gone env name)
    (fun _ _ _ hop hI hs => ⟨step_filed hlaw hop.1 hI.1 hs,
      step_gone hlaw hinj hn hop.1 hop.2 hI.1 hI.2 hs⟩) ops c c' hops ⟨hf, h⟩ hr

theorem run_filed (hlaw : env.Lawful) (ops : List (Op V S)) (hops : ∀ op ∈ ops, op.About names)
    (hf : c.Filed env) (hr : runFrom (step env) c ops = some c') : c'.Filed env :=
  inv_of_runFrom (fun _ _ _ hop hI hs => step_filed hlaw hop hI hs) ops c c' hops hf hr

/-- After a `refresh` the RAM entry of the name is gone and the disk tier answers
as before. -/
theorem answer_refresh_self (name : Str) :
    (c.refresh env now name).answer env name = c.diskCopy env name := by
  have hram : (c.refresh env now name).ramCopy env name = none :=
    (FastStorage.lookup_refresh env c.ramCache name _).trans (if_pos rfl)
  rw [answer, hram]
  exact SlowStorage.peek_refresh env c.diskCache name _

/-- A `refresh` changes no other name's answer. -/
theorem answer_refresh_other (hinj : Set.InjOn env.hashMd5 names) {name other : Str}
    (hn : name ∈ names) (ho : other ∈ names) (hne : other ≠ name) :
    (c.refresh env now name).answer env other = c.answer env other := by
  have hhash : env.getHash other ≠ env.getHash name :=
    fun e => hne (env.getHash_inj hinj ho hn e)
  have hram : (c.refresh env now name).ramCopy env other = c.ramCopy env other :=
    (FastStorage.lookup_refresh env c.ramCache name _).trans (if_neg hhash)
  have hdisk : (c.refresh env now name).diskCopy env other = c.diskCopy env other :=
    SlowStorage.peek_refresh env c.diskCache name _
  rw [answer, hram, hdisk, answer]

/-- **Invalidation, with its exact condition.** In every state a new cache
reaches by stores of variables, `retrieve`s, `refresh`es, `free_ram`s and
`set_sizes`: a `refresh` of a name makes every later `retrieve` of it answer
nothing until it is stored again, and leaves every other name's answer as it was,
exactly when the disk tier has no record of it that reads. -/
theorem refresh_iff (hlaw : env.Lawful) (hinj : Set.InjOn env.hashMd5 names)
    (maxObjectRam maxObjectDisk defaultTtl : Int) (ops : List (Op V S))
    (hops : ∀ op ∈ ops, op.About names)
    (hr : runFrom (step env) (create maxObjectRam maxObjectDisk defaultTtl) ops = some c)
    (now : Int) {name : Str} (hn : name ∈ names) :
    ((∀ later c', (∀ op ∈ later, op.About names ∧ ¬ op.Stores name) →
        runFrom (step env) (c.refresh env now name) later = some c' →
          ∀ now', (c'.retrieve env now' name).1 = none) ∧
      (∀ other ∈ names, other ≠ name → ∀ now',
        ((c.refresh env now name).retrieve env now' other).1 = (c.retrieve env now' other).1)) ↔
    c.diskCopy env name = none := by
  have hf : c.Filed env := run_filed hlaw ops hops (create_filed env ..) hr
  have hf' : (c.refresh env now name).Filed env := refresh_filed hf name
  constructor
  · intro hand
    obtain ⟨hmiss, -⟩ := hand
    have hread := hmiss [] _ (fun _ h => nomatch h) rfl 0
    rwa [retrieve_fst hlaw hf', answer_refresh_self] at hread
  · intro hnone
    refine ⟨fun later c' hlater hrun now' => ?_, fun other ho hne now' => ?_⟩
    · have hgone : (c.refresh env now name).Gone env name :=
        ⟨(FastStorage.lookup_refresh env c.ramCache name _).trans (if_pos rfl),
          (SlowStorage.peek_refresh env c.diskCache name _).trans hnone⟩
      obtain ⟨hfc, hg⟩ := run_gone hlaw hinj hn later hlater hf' hgone hrun
      rw [retrieve_fst hlaw hfc]
      exact hg.answer
    · rw [retrieve_fst hlaw hf', retrieve_fst hlaw hf]
      exact answer_refresh_other hinj hn ho hne

/-- The value 7 of size 10 under the name "a". -/
def storedA : Meta Nat Encoded :=
  { name := "a".toList, object := some (.value 7), type := .var, size := 10, expires := -1
    diskCache := true, program := false, createTime := 0, lastRetrieval := 0, hits := 0
    hash := none }

/-- The cache that has stored it in RAM. -/
def ramOnly : Cache Nat Encoded := (create 100 1000 60).store sampleEnv 1 storedA

theorem refresh_iff_ramOnly :
    ((∀ later c', (∀ op ∈ later, op.About {"a".toList} ∧ ¬ op.Stores "a".toList) →
        runFrom (step sampleEnv) (ramOnly.refresh sampleEnv 2 "a".toList) later = some c' →
          ∀ now', (c'.retrieve sampleEnv now' "a".toList).1 = none) ∧
      (∀ other ∈ ({"a".toList} : Set Str), other ≠ "a".toList → ∀ now',
        ((ramOnly.refresh sampleEnv 2 "a".toList).retrieve sampleEnv now' other).1
          = (ramOnly.retrieve sampleEnv now' other).1)) ↔
    ramOnly.diskCopy sampleEnv "a".toList = none :=
  refresh_iff sampleEnv_lawful (Set.injOn_singleton _ _) 100 1000 60 [.store 1 storedA]
    (fun op hop => by
      obtain rfl := List.mem_singleton.mp hop
      exact ⟨rfl, rfl, rfl⟩)
    rfl 2 rfl

/-- The hash of "a". -/
def hashA : Str := "0cc175b9c0f1b6a831c399e269772661".toList

/-- Stored, moved to disk by `free_ram`, invalidated: the value is still there. -/
theorem refresh_keeps_disk_record :
    ¬ ∀ c, runFrom (step sampleEnv) (create 100 1000 60)
        [.store 1 storedA, .freeRam 2 1 [hashA]] = some c →
      ((c.refresh sampleEnv 3 "a".toList).retrieve sampleEnv 4 "a".toList).1 = none := by
  intro h
  exact nomatch h _ rfl

end Cache

end Caudium.CachePmod
