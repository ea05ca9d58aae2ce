import Mathlib.Data.List.TakeWhile
import Caudium.Lib.Mapping
import Caudium.Lib.Search

/-!
# `try_get_file`

A file of the server as a string, for the tags that include one. What was read is
kept in the cache "file:" + `id->site_id`. The argument is the key of the look-up; on
the way it is split at the first '?', and its path alone is the key under which the
result is stored. The cache is asked for requests without authentication only, and
everything that is read is stored.
-/

namespace Caudium.BaseServer

open Lib (Str Mapping cut)

/-! ## The call -/

/-- What is read of the request and the other arguments, with the credentials in `α`. -/
structure TryGetFile (α : Type) where
  s : Str
  siteId : Str
  /-- `id->auth`. -/
  auth : Option α
  /-- `id->pragma["no-cache"]`. -/
  noCache : Bool
  status : Bool
  nocache : Bool

/-- What `get_file` is asked for. -/
structure Fake (α : Type) where
  siteId : Str
  notQuery : Str
  /-- The query of the argument, if it has one; that of the request is not looked at. -/
  query : Option Str
  auth : Option α

/-- What is read of the mapping that `get_file` returns. -/
structure Got where
  error : Int
  data : Option Str
  /-- What `file->read()` gives. -/
  file : Option Str
  raw : Bool

/-- `(< 0, 200, 201, 202, 203 >)[m->error]`. -/
def Got.ok (m : Got) : Bool := m.error ∈ [0, 200, 201, 202, 203]

/-- A raw reply without its headers. -/
def body (res : Str) : Str :=
  match cut res ['\n', '\n'] with
  | some (_, rest) => rest
  | none =>
    match cut res ['\n'] with
    | some (_, rest) => rest
    | none => res

/-- The string of a reply. -/
def Got.string (m : Got) : Str :=
  let res := m.data.getD [] ++ m.file.getD []
  if m.raw then body (res.filter (· ≠ '\r')) else res

/-- What stands before the first '?'. -/
def pathOf (s : Str) : Str := s.takeWhile (· ≠ '?')

/-- What stands after it. -/
def queryOf (s : Str) : Option Str := (s.dropWhile (· ≠ '?')).tail?

/-- What `try_get_file` returns. -/
inductive Result
  /-- 0. -/
  | zero
  /-- 1. -/
  | one
  | string (s : Str)
  deriving DecidableEq

/-- The cache, by `site_id` and key. -/
abbrev FileCache := Mapping (Str × Str) Str

variable {α : Type}

namespace TryGetFile

/-- The key of the look-up. -/
def key (c : TryGetFile α) : Str × Str := (c.siteId, c.s)

/-- The key that a result is stored under. -/
def storeKey (c : TryGetFile α) : Str × Str := (c.siteId, pathOf c.s)

/-- The cache is asked. -/
def reads (c : TryGetFile α) : Bool := !c.noCache && !c.nocache && c.auth.isNone

/-- What the cache has for the call. -/
def hit (cache : FileCache) (c : TryGetFile α) : Option Str :=
  if c.reads then cache.lookup c.key else none

def fake (c : TryGetFile α) : Fake α where
  siteId := c.siteId
  notQuery := pathOf c.s
  query := queryOf c.s
  auth := c.auth

/-- The string that the call reads. -/
def fetched (getFile : Fake α → Option Got) (c : TryGetFile α) : Option Str :=
  match getFile c.fake with
  | none => none
  | some m => if m.ok then some m.string else none

end TryGetFile

/-- `try_get_file`. -/
def tryGetFile (getFile : Fake α → Option Got) (cache : FileCache) (c : TryGetFile α) :
    Result × FileCache :=
  match c.hit cache with
  | some res => (.string res, cache)
  | none =>
    match c.fetched getFile with
    | none => (.zero, cache)
    | some res =>
      if c.status then (.one, cache)
      else (.string res, cache.insert c.storeKey res)

/-! ## Keys -/

theorem not_mem_pathOf (s : Str) : '?' ∉ pathOf s := by
  intro h
  have hne := List.mem_takeWhile_imp h
  simp at hne

theorem pathOf_of_not_mem {s : Str} (h : '?' ∉ s) : pathOf s = s := by
  refine List.takeWhile_eq_self_iff.mpr fun c hc => ?_
  have hne : c ≠ '?' := fun he => h (he ▸ hc)
  simp [hne]

/-- Every key of the cache is a path. -/
def PathKeys (cache : FileCache) : Prop :=
  ∀ site s v, cache.lookup (site, s) = some v → '?' ∉ s

theorem PathKeys.insert {cache : FileCache} (h : PathKeys cache) (c : TryGetFile α) (v : Str) :
    PathKeys (cache.insert c.storeKey v) := by
  intro site s w hl
  rcases Lib.Mapping.lookup_insert_cases hl with ⟨he, -⟩ | ⟨-, hl⟩
  · rw [show s = pathOf c.s from congrArg Prod.snd he]
    exact not_mem_pathOf c.s
  · exact h site s w hl

/-- The keys of both kinds of access to the cache are the same for a path. -/
theorem storeKey_eq_key {c : TryGetFile α} (h : '?' ∉ c.s) : c.storeKey = c.key := by
  rw [TryGetFile.storeKey, TryGetFile.key, pathOf_of_not_mem h]

/-- An argument with a query is never found. -/
theorem hit_of_mem {cache : FileCache} (h : PathKeys cache) {c : TryGetFile α} (hq : '?' ∈ c.s) :
    c.hit cache = none := by
  unfold TryGetFile.hit
  split
  · cases hl : cache.lookup c.key with
    | none => rfl
    | some v => exact absurd hq (h c.siteId c.s v hl)
  · rfl

end Caudium.BaseServer
