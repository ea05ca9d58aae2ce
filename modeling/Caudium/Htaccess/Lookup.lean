import Caudium.Htaccess.Files
import Caudium.Lib.Mapping

/-!
# The .htaccess file of a path (`new_find_htaccess_file`)

The walk goes from one '/' of a virtual path to the next and remembers the last .htaccess file it
came by, until a directory is not there. What it knows behind each '/' goes into a cache: a file, or
-1 if there is none so far, the latter as an option. A later walk takes an entry for the turn it has
been written in, unless it says -1 where a file is known already; an entry for the whole path saves
the walk.

What carries the proof is that an entry is about the whole way to its '/' (`SoundCache`): the last
directory on it with a file. A walk that takes entries is then where one without would be
(`walk_spec`).
-/

namespace Caudium.Htaccess

open Lib (Str Mapping)
open Http (splitOn)

variable {F : Type}

/-- A path, or `none` for -1. -/
abbrev Found := Option Str

abbrev FileCache := Mapping Str Found

/-- The turns of the walk, from `subvpath` on, with `path` known. -/
def walk (fs : Files F) (useCache cacheAll : Bool) :
    List Str → Str → Found → FileCache → Found × FileCache
  | [], _, path, cache => (path, cache)
  | segment :: segments, subvpath, path, cache =>
    let subvpath := subvpath ++ segment ++ ['/']
    let cached := if useCache then cache.lookup subvpath else none
    match cached.filter fun p => p.isSome || path.isNone with
    | some p => walk fs useCache cacheAll segments subvpath p cache
    | none =>
      match fs.realFile subvpath with
      | none => (path, cache)
      | some p =>
        let fname := p ++ fs.file
        let path := if fs.fileStat fname = some .file then some fname else path
        let cache := if path.isSome || cacheAll then cache.insert subvpath path else cache
        walk fs useCache cacheAll segments subvpath path cache

/-- What comes of the path that was found: the path and the file. -/
def openFound (fs : Files F) (path : Found) : Option (Str × F) :=
  path.bind fun path =>
    if fs.fileStat path = some .file then (fs.openFile path).map (path, ·) else none

/-- The way without an entry for the whole path. -/
def findFrom (fs : Files F) (useCache cacheAll : Bool) (vpath : Str) (cache : FileCache) :
    Option (Str × F) × FileCache :=
  let r := walk fs useCache cacheAll (splitOn '/' vpath) [] none cache
  (openFound fs r.1, r.2)

/-- An entry for the whole path: an answer, or whether the walk goes by the cache. -/
def fromEntry (fs : Files F) (cacheAll : Bool) (path : Found) : Option (Str × F) ⊕ Bool :=
  match path with
  | none => if cacheAll then .inl none else .inr true
  | some path =>
    match fs.fileStat path with
    | some .device => .inl none
    | some _ =>
      match fs.openFile path with
      | some f => .inl (some (path, f))
      -- Invalid cache entry.
      | none => .inr false
    | none => if cacheAll then .inl none else .inr true

/-- `new_find_htaccess_file`; `noCache` is the pragma, `cacheAll` the option. -/
def newFindHtaccessFile (fs : Files F) (noCache cacheAll : Bool) (vpath : Str)
    (cache : FileCache) : Option (Str × F) × FileCache :=
  if vpath = [] then (none, cache)
  else if noCache then findFrom fs false cacheAll vpath cache
  else
    match cache.lookup vpath with
    | none => findFrom fs true cacheAll vpath cache
    | some path =>
      match fromEntry fs cacheAll path with
      | .inl answer => (answer, cache)
      | .inr useCache => findFrom fs useCache cacheAll vpath cache

/-! ## What an entry is about -/

/-- The access file of the deepest directory that has one, opened. -/
def Files.access (fs : Files F) (v : Str) : Option (Str × F) :=
  (fs.deepest v).bind fun path => (fs.openFile path).map (path, ·)

/-- Each entry is about the whole way. -/
def SoundCache (fs : Files F) (cache : FileCache) : Prop :=
  ∀ v path, cache.lookup v = some path → path = fs.deepest v

variable {fs : FileSystem F}

theorem soundCache_empty (fs : Files F) : SoundCache fs ∅ := nofun

theorem SoundCache.insert {fs : Files F} {cache : FileCache} (h : SoundCache fs cache) {v : Str}
    {path : Found} (hpath : path = fs.deepest v) : SoundCache fs (cache.insert v path) :=
  Lib.Mapping.forall_insert h hpath

theorem SoundCache.erase {fs : Files F} {cache : FileCache} (h : SoundCache fs cache) (v : Str) :
    SoundCache fs (cache.erase v) := Lib.Mapping.forall_erase h

/-- One turn past a directory that is there. -/
theorem turn_deepest {before segment p : Str} (hsegment : '/' ∉ segment)
    (hreal : fs.realFile (before ++ segment ++ ['/']) = some p) :
    (if fs.fileStat (p ++ fs.file) = some .file then some (p ++ fs.file) else fs.deepest before) =
      fs.deepest (before ++ segment ++ ['/']) := by
  rw [deepest_append fs before hsegment, fileIn_there hreal]
  split
  next => rfl
  next => rfl

/-- **The walk** finds what is there, and leaves entries that are right. -/
theorem walk_spec {useCache cacheAll : Bool} {segments : List Str} :
    (∀ segment ∈ segments, '/' ∉ segment) → ∀ {before : Str} {cache : FileCache},
      SoundCache fs.toFiles cache →
      (walk fs.toFiles useCache cacheAll segments before (fs.deepest before) cache).1 =
        fs.deepest (before ++ segments.flatMap (· ++ ['/'])) ∧
      SoundCache fs.toFiles
        (walk fs.toFiles useCache cacheAll segments before (fs.deepest before) cache).2 := by
  induction segments with
  | nil =>
    intro _ before cache hcache
    rw [List.flatMap_nil, List.append_nil]
    exact ⟨rfl, hcache⟩
  | cons segment segments ih =>
    intro hsegments before cache hcache
    obtain ⟨hsegment, hrest⟩ := List.forall_mem_cons.mp hsegments
    have hjoin : before ++ (segment :: segments).flatMap (· ++ ['/']) =
        before ++ segment ++ ['/'] ++ segments.flatMap (· ++ ['/']) := by
      rw [List.flatMap_cons, List.append_assoc, List.append_assoc, List.append_assoc]
    rw [walk, hjoin]
    dsimp only
    split
    next p hcached =>
      -- An entry that is taken is about the whole way to this turn.
      have hentry : cache.lookup (before ++ segment ++ ['/']) = some p := by
        have hknown := (Option.filter_eq_some_iff.mp hcached).1
        split at hknown
        next => exact hknown
        next => cases hknown
      rw [hcache _ p hentry]
      exact ih hrest hcache
    next =>
      split
      next hgone =>
        refine ⟨?_, hcache⟩
        rw [deepest_missing hrest hgone, deepest_append fs before hsegment, fileIn_missing hgone,
          Option.none_or]
      next p hreal =>
        rw [turn_deepest hsegment hreal]
        refine ih hrest ?_
        split
        next => exact hcache.insert rfl
        next => exact hcache

theorem openFound_deepest (fs : Files F) (v : Str) :
    openFound fs (fs.deepest v) = fs.access v := by
  rw [openFound, Files.access]
  refine Option.bind_congr fun path hpath => ?_
  rw [if_pos (fileStat_deepest hpath)]

theorem access_file (fs : Files F) (v : Str) :
    (fs.access v).map Prod.snd = ((fs.deepest v).map fs.openFile).join := by
  rw [Files.access]
  cases fs.deepest v with
  | none => rfl
  | some path =>
    rw [Option.bind_some, Option.map_map]
    exact congrFun Option.map_id _

/-- What a walk finds: it goes one '/' too far. -/
theorem findFrom_spec {useCache cacheAll : Bool} {vpath : Str} {cache : FileCache}
    (hcache : SoundCache fs.toFiles cache) :
    (findFrom fs.toFiles useCache cacheAll vpath cache).1 = fs.access (vpath ++ ['/']) ∧
      SoundCache fs.toFiles (findFrom fs.toFiles useCache cacheAll vpath cache).2 := by
  have hsegments : ∀ segment ∈ splitOn '/' vpath, '/' ∉ segment :=
    fun _ hsegment => Lib.not_mem_of_mem_splitOn hsegment
  obtain ⟨hpath, hsound⟩ : _ ∧ SoundCache fs.toFiles
      (findFrom fs.toFiles useCache cacheAll vpath cache).2 :=
    walk_spec hsegments hcache
  rw [List.nil_append, splitOn, Lib.flatMap_splitOn] at hpath
  refine ⟨?_, hsound⟩
  rw [← openFound_deepest, ← hpath]
  rfl

/-- What an entry for the whole path answers. -/
theorem fromEntry_spec {fs : Files F} {cacheAll : Bool} {v : Str} {answer : Option (Str × F)}
    (h : fromEntry fs cacheAll (fs.deepest v) = .inl answer) : answer = fs.access v := by
  rw [Files.access]
  cases hpath : fs.deepest v with
  | none =>
    rw [hpath, fromEntry] at h
    split at h
    next => exact (Sum.inl.inj h).symm
    next => cases h
  | some path =>
    rw [hpath, fromEntry, fileStat_deepest hpath] at h
    dsimp only at h
    split at h
    next f hopen =>
      rw [Option.bind_some, hopen]
      exact (Sum.inl.inj h).symm
    next => cases h

/-! ## Calls, one after the other -/

/-- A call, for a path that ends in '/'. -/
structure Call where
  dir : Str
  noCache : Bool
  cacheAll : Bool

def Call.vpath (c : Call) : Str := c.dir ++ ['/']

def Call.find (c : Call) (fs : Files F) (cache : FileCache) : Option (Str × F) × FileCache :=
  newFindHtaccessFile fs c.noCache c.cacheAll c.vpath cache

/-- What happens to a cache: a call, or an entry that is dropped from it. -/
inductive Step
  | call (c : Call)
  | drop (v : Str)

def Step.next (fs : Files F) (cache : FileCache) : Step → FileCache
  | .call c => (c.find fs cache).2
  | .drop v => cache.erase v

/-- What one step after the other leaves of an empty cache. -/
def afterSteps (fs : Files F) (steps : List Step) : FileCache :=
  steps.foldl (Step.next fs) ∅

/-- **One call**: an entry answers for the path, a walk for the path with one more '/'. -/
theorem find_spec (fs : FileSystem F) (c : Call) {cache : FileCache}
    (hcache : SoundCache fs.toFiles cache) :
    ((c.find fs.toFiles cache).1 = fs.access c.vpath ∨
      (c.find fs.toFiles cache).1 = fs.access (c.vpath ++ ['/'])) ∧
    SoundCache fs.toFiles (c.find fs.toFiles cache).2 := by
  have hvpath : c.vpath ≠ [] := List.append_ne_nil_of_right_ne_nil _ nofun
  have hwalk : ∀ useCache,
      (findFrom fs.toFiles useCache c.cacheAll c.vpath cache).1 = fs.access (c.vpath ++ ['/']) ∧
        SoundCache fs.toFiles (findFrom fs.toFiles useCache c.cacheAll c.vpath cache).2 :=
    fun _ => findFrom_spec hcache
  rw [Call.find, newFindHtaccessFile, if_neg hvpath]
  split
  next => exact (hwalk _).imp_left Or.inr
  next =>
    split
    next => exact (hwalk _).imp_left Or.inr
    next path hentry =>
      split
      next answer hanswer =>
        rw [hcache _ path hentry] at hanswer
        exact ⟨Or.inl (fromEntry_spec hanswer), hcache⟩
      next => exact (hwalk _).imp_left Or.inr

theorem Step.next_sound {cache : FileCache} (hcache : SoundCache fs.toFiles cache) (step : Step) :
    SoundCache fs.toFiles (step.next fs.toFiles cache) :=
  match step with
  | .call c => (find_spec fs c hcache).2
  | .drop v => hcache.erase v

theorem afterSteps_sound (fs : FileSystem F) (steps : List Step) :
    SoundCache fs.toFiles (afterSteps fs.toFiles steps) :=
  List.foldlRecOn steps _ (soundCache_empty _) fun _ hcache step _ => step.next_sound hcache

/-- The file is the same, with or without one more '/'. -/
theorem access_slash (v : Str) :
    (fs.access (v ++ ['/', '/'])).map Prod.snd = (fs.access (v ++ ['/'])).map Prod.snd := by
  rw [access_file, access_file, deepest_twice]

theorem find_file (c : Call) {cache : FileCache} (hcache : SoundCache fs.toFiles cache) :
    (c.find fs.toFiles cache).1.map Prod.snd = (fs.access c.vpath).map Prod.snd := by
  rcases (find_spec fs c hcache).1 with h | h
  · rw [h]
  · rw [h, Call.vpath, List.append_assoc]
    exact access_slash c.dir

/-- **The lookup** finds the file of the deepest directory that has one, whatever was looked up
before: the file is the one that an empty cache leads to. -/
theorem lookup_transparent (fs : FileSystem F) (steps : List Step) (c : Call) :
    (c.find fs.toFiles (afterSteps fs.toFiles steps)).1.map Prod.snd =
        (fs.deepest c.vpath).bind fs.openFile ∧
      (c.find fs.toFiles (afterSteps fs.toFiles steps)).1.map Prod.snd =
        (c.find fs.toFiles ∅).1.map Prod.snd := by
  have hafter := find_file c (afterSteps_sound fs steps)
  have hempty := find_file c (soundCache_empty fs.toFiles)
  refine ⟨?_, hafter.trans hempty.symm⟩
  rw [hafter, access_file, ← Option.bind_id_eq_join, Option.bind_map]
  rfl

/-- On a disk also the path to the file is, unless the directory was asked for with two '/'. -/
theorem disk_find (disk : Disk F) (file : Str) (steps : List Step) {c : Call}
    (h : c.dir.getLast? ≠ some '/') :
    (c.find (disk.files file) (afterSteps (disk.files file) steps)).1 =
      (disk.files file).access c.vpath := by
  have hsound : SoundCache (disk.files file) (afterSteps (disk.files file) steps) :=
    afterSteps_sound (disk.fileSystem file) steps
  have hdeepest : (disk.files file).deepest (c.vpath ++ ['/']) =
      (disk.files file).deepest c.vpath := by
    rw [Call.vpath, List.append_assoc]
    exact deepest_same (disk.fileSystem file) (realFile_slash disk h)
  rcases (find_spec (disk.fileSystem file) c hsound).1 with hfind | hfind
  · exact hfind
  · refine hfind.trans ?_
    change (disk.files file).access (c.vpath ++ ['/']) = _
    rw [Files.access, Files.access, hdeepest]

end Caudium.Htaccess
