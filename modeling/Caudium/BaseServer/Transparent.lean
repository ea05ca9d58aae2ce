import Caudium.Lib.Runs
import Caudium.BaseServer.TryGetFile

/-!
# Which fetch an answer from the cache comes from

Beside the cache a run keeps the argument whose fetch has stored each entry, and for
every answer from the cache the argument of the call and that of the fetch. The key
of an entry is the path of its fetch (`Origins`), so an answer comes from another
argument exactly when the fetch had a query: `cache_transparent_iff`.
-/

namespace Caudium.BaseServer

open Lib (Str Mapping Always EachStep always_iff_eachStep)

variable {α : Type}

/-- A call, and the `get_file` it finds. -/
structure Fetch (α : Type) where
  call : TryGetFile α
  getFile : Fake α → Option Got

/-- The cache with the origin of its entries, and the answers from it. -/
structure Served where
  cache : FileCache
  origin : Mapping (Str × Str) Str
  /-- The argument of the call and of the fetch that stored the answer. -/
  answers : List (Str × Option Str)

def Served.empty : Served := ⟨∅, ∅, []⟩

/-- The call stores what it has read. -/
def Fetch.stores (cache : FileCache) (f : Fetch α) : Bool :=
  f.call.hit cache = none && (f.call.fetched f.getFile).isSome && !f.call.status

/-- One call. -/
def serve (t : Served) (f : Fetch α) : Option Served :=
  some {
    cache := (tryGetFile f.getFile t.cache f.call).2
    origin := if f.stores t.cache then t.origin.insert f.call.storeKey f.call.s else t.origin
    answers := if f.call.hit t.cache = none then t.answers
      else t.answers ++ [(f.call.s, t.origin.lookup f.call.key)] }

/-- Every answer from the cache was stored by a fetch of the argument itself. -/
def Served.Transparent (t : Served) : Prop := ∀ a ∈ t.answers, a.2 = some a.1

/-- The call is not answered with an entry that a fetch with a query has stored. -/
def NotMixed (t : Served) (f : Fetch α) : Prop :=
  f.call.hit t.cache ≠ none → ∀ o, t.origin.lookup f.call.key = some o → '?' ∉ o

/-- Every entry has an origin, whose path is its key. -/
def Served.Origins (t : Served) : Prop :=
  ∀ k v, t.cache.lookup k = some v → ∃ o, t.origin.lookup k = some o ∧ pathOf o = k.2

/-! ## One call -/

theorem tryGetFile_cache (cache : FileCache) (f : Fetch α) :
    (f.stores cache = false ∧ (tryGetFile f.getFile cache f.call).2 = cache) ∨
      ∃ res, f.stores cache = true ∧
        (tryGetFile f.getFile cache f.call).2 = cache.insert f.call.storeKey res := by
  rw [tryGetFile, Fetch.stores]
  cases hhit : f.call.hit cache with
  | some v => exact Or.inl ⟨by simp, rfl⟩
  | none =>
    cases hfetched : f.call.fetched f.getFile with
    | none => exact Or.inl ⟨by simp, rfl⟩
    | some res =>
      cases hstatus : f.call.status with
      | true => exact Or.inl ⟨by simp, rfl⟩
      | false => exact Or.inr ⟨res, by simp, rfl⟩

theorem serve_origins {t t' : Served} {f : Fetch α} (h : t.Origins) (hs : serve t f = some t') :
    t'.Origins := by
  obtain rfl := Option.some.inj hs
  intro k v hl
  dsimp only at hl ⊢
  obtain ⟨hstores, hcache⟩ | ⟨res, hstores, hcache⟩ := tryGetFile_cache t.cache f
  · rw [hcache] at hl
    rw [hstores, if_neg Bool.false_ne_true]
    exact h k v hl
  · rw [hcache, Lib.Mapping.lookup_insert_ite] at hl
    rw [hstores, if_pos rfl, Lib.Mapping.lookup_insert_ite]
    split
    next hk => exact ⟨f.call.s, rfl, by rw [hk]; rfl⟩
    next hk =>
      rw [if_neg hk] at hl
      exact h k v hl

/-- The origin of an entry is its key unless it has a query. -/
theorem origin_eq_iff {o s : Str} (h : pathOf o = s) : o = s ↔ '?' ∉ o := by
  constructor
  · intro he hq
    rw [he, ← h] at hq
    exact not_mem_pathOf o hq
  · intro hq
    rw [← h, pathOf_of_not_mem hq]

theorem serve_transparent_iff {t t' : Served} {f : Fetch α} (h : t.Origins)
    (ht : t.Transparent) (hs : serve t f = some t') : t'.Transparent ↔ NotMixed t f := by
  obtain rfl := Option.some.inj hs
  unfold Served.Transparent NotMixed
  dsimp only
  by_cases hhit : f.call.hit t.cache = none
  · rw [if_pos hhit]
    exact iff_of_true ht fun hne => absurd hhit hne
  · -- the answer is the entry under the argument
    obtain ⟨v, hv⟩ := Option.ne_none_iff_exists'.mp hhit
    have hl : t.cache.lookup f.call.key = some v := by
      unfold TryGetFile.hit at hv
      split at hv
      · exact hv
      · cases hv
    obtain ⟨o, ho, hpath⟩ := h f.call.key v hl
    have hone : (∀ a ∈ t.answers ++ [(f.call.s, t.origin.lookup f.call.key)], a.2 = some a.1) ↔
        o = f.call.s := by
      rw [List.forall_mem_append, List.forall_mem_singleton, ho, Option.some.injEq]
      exact and_iff_right ht
    rw [if_neg hhit, hone, origin_eq_iff (s := f.call.s) hpath]
    constructor
    · intro hq _ o' ho'
      rw [ho, Option.some.injEq] at ho'
      rw [← ho']
      exact hq
    · exact fun hmixed => hmixed hhit o ho

/-- **When the cache is transparent.** In a sequence of calls every answer from the cache
was stored by an earlier fetch of its own argument if and only if no call is answered with
an entry that a fetch with a query has stored. -/
theorem cache_transparent_iff (calls : List (Fetch α)) :
    Always serve Served.Transparent .empty calls ↔ EachStep serve NotMixed .empty calls := by
  have hempty : Served.empty.Origins := by
    intro k v hl
    rw [Served.empty, AList.lookup_empty] at hl
    cases hl
  refine always_iff_eachStep (I := Served.Origins) (H := fun _ _ => True)
    (fun t f hs => nomatch hs) (fun t f t' h _ _ _ hs => serve_origins h hs)
    (fun t f t' h ht _ hs => serve_transparent_iff h ht hs) calls .empty hempty ?_ ?_
  · exact fun a ha => nomatch ha
  · exact Lib.eachStep_of_forall (fun _ _ => trivial) calls Served.empty

/-- The files of a site that prints its query. -/
def printsQuery (f : Fake Unit) : Option Got := some ⟨0, some (f.query.getD []), none, false⟩

/-- "/page?a=1" and then "/page". -/
def mixedCalls : List (Fetch Unit) :=
  [⟨⟨"/page?a=1".toList, [], none, false, false, false⟩, printsQuery⟩,
    ⟨⟨"/page".toList, [], none, false, false, false⟩, printsQuery⟩]

/-- The page is answered with what was read with the query. -/
theorem mixedCalls_fail :
    ¬ ∀ calls : List (Fetch Unit), Always serve Served.Transparent .empty calls := by
  intro h
  obtain ⟨-, hrest⟩ := h mixedCalls
  obtain ⟨-, hlast⟩ := hrest _ rfl
  have hanswer := hlast _ rfl ("/page".toList, some "/page?a=1".toList) (List.mem_singleton_self _)
  exact absurd (Option.some.inj hanswer) (by decide)

end Caudium.BaseServer
