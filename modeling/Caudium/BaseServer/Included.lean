import Caudium.Lib.Runs
import Caudium.BaseServer.TryGetFile

/-!
# Whose files a request without authentication gets

The cache of `try_get_file` is read for requests without authentication only, but
what an authenticated request has read is stored too. `noninterfering_iff` says for
which sites nobody sees the difference: where a file that an authenticated request
can read is the same for everyone, with any query.

The answer to a call that asks for the status is looked at as a truth value: it is
the string instead of 1 when the cache has the file.
-/

namespace Caudium.BaseServer

open Lib (Str Mapping outputs outputs_public outputs_secret outputs_purge)

variable {α : Type} {getFile : Fake α → Option Got}

/-! ## The sites where nothing leaks -/

/-- The string that a request with these credentials reads. -/
def read (getFile : Fake α → Option Got) (siteId s : Str) (auth : Option α) : Option Str :=
  (⟨s, siteId, auth, false, false, false⟩ : TryGetFile α).fetched getFile

/-- What the caller learns from the answer. -/
def observe (c : TryGetFile α) (r : Result) : Result :=
  if c.status ∧ r ≠ .zero then .one else r

/-- One call, with what is learned of it. -/
def answer (getFile : Fake α → Option Got) (cache : FileCache) (c : TryGetFile α) :
    Result × FileCache :=
  let r := tryGetFile getFile cache c
  (observe c r.1, r.2)

/-- A request without authentication. -/
def TryGetFile.isPublic (c : TryGetFile α) : Bool := c.auth.isNone

/-- What requests without authentication learn is the same when the calls of the others
are left out. -/
def NonInterfering (getFile : Fake α → Option Got) : Prop :=
  ∀ calls, outputs (answer getFile) TryGetFile.isPublic ∅ calls =
    outputs (answer getFile) TryGetFile.isPublic ∅ (calls.filter TryGetFile.isPublic)

/-- A file that an authenticated request can read is there for everyone, and every string
that is read of its path without authentication is the same. -/
def PublicFiles (getFile : Fake α → Option Got) : Prop :=
  ∀ site s u a, read getFile site s (some u) = some a →
    read getFile site (pathOf s) none = some a ∧
      ∀ s' b, pathOf s' = pathOf s → read getFile site s' none = some b → b = a

/-! ## Single calls -/

theorem tryGetFile_hit {cache : FileCache} {c : TryGetFile α} {v : Str}
    (h : c.hit cache = some v) : tryGetFile getFile cache c = (.string v, cache) := by
  rw [tryGetFile, h]

theorem tryGetFile_miss {cache : FileCache} {c : TryGetFile α} (h : c.hit cache = none) :
    tryGetFile getFile cache c =
      match read getFile c.siteId c.s c.auth with
      | none => (.zero, cache)
      | some res =>
        if c.status then (.one, cache) else (.string res, cache.insert c.storeKey res) := by
  rw [tryGetFile, h]
  rfl

theorem answer_hit {cache : FileCache} {c : TryGetFile α} {a : Str} (hstatus : c.status = false)
    (h : c.hit cache = some a) : answer getFile cache c = (.string a, cache) := by
  rw [answer, tryGetFile_hit h, observe, hstatus, if_neg (fun hs => nomatch hs.1)]

theorem answer_read {cache : FileCache} {c : TryGetFile α} {a : Str} (hstatus : c.status = false)
    (h : c.hit cache = none) (hread : read getFile c.siteId c.s c.auth = some a) :
    answer getFile cache c = (.string a, cache.insert c.storeKey a) := by
  rw [answer, tryGetFile_miss h, hread, hstatus, observe, hstatus]
  rfl

theorem answer_none {cache : FileCache} {c : TryGetFile α} (h : c.hit cache = none)
    (hread : read getFile c.siteId c.s c.auth = none) :
    answer getFile cache c = (.zero, cache) := by
  rw [answer, tryGetFile_miss h, hread, observe, if_neg fun hs => hs.2 rfl]

/-- The call of a request with these credentials. -/
def plain (site s : Str) (auth : Option α) : TryGetFile α := ⟨s, site, auth, false, false, false⟩

/-- A call that does not ask the cache. -/
def forced (site s : Str) : TryGetFile α := ⟨s, site, none, false, false, true⟩

/-- A plain call of a path is answered from the cache. -/
theorem answer_path (cache : FileCache) (site s a : Str) :
    answer getFile (cache.insert (site, pathOf s) a) (plain site (pathOf s) none) =
      (.string a, cache.insert (site, pathOf s) a) :=
  answer_hit rfl (AList.lookup_insert _)

/-! ## A leak -/

/-- An authenticated request leaves its file in the cache, for everyone. -/
theorem publicFiles_of_noninterfering (h : NonInterfering getFile) : PublicFiles getFile := by
  intro site s u a hread
  have hstore : ∀ cache, (answer getFile cache (plain site s (some u))).2 =
      cache.insert (site, pathOf s) a :=
    fun cache => congrArg Prod.snd (answer_read (c := plain site s (some u)) rfl rfl hread)
  constructor
  · -- the file is read with authentication and asked for without
    have hseq := h [plain site s (some u), plain site (pathOf s) none]
    change outputs _ _ _ _ = outputs _ _ ∅ [plain site (pathOf s) none] at hseq
    rw [outputs_secret rfl, hstore, outputs_public rfl, answer_path, outputs_public rfl] at hseq
    cases hr : read getFile site (pathOf s) none with
    | none =>
      rw [answer_none rfl hr] at hseq
      cases hseq
    | some b =>
      rw [answer_read rfl rfl hr] at hseq
      cases hseq
      rfl
  · -- another string was read of the path before
    intro s' b hpath hread'
    have hstore' : answer getFile ∅ (forced site s') =
        (.string b, AList.insert (site, pathOf s) b ∅) := by
      rw [answer_read rfl rfl hread', ← hpath]
      rfl
    have hseq := h [forced site s', plain site s (some u), plain site (pathOf s) none]
    change outputs _ _ _ _ = outputs _ _ ∅ [forced site s', plain site (pathOf s) none] at hseq
    rw [outputs_public rfl, hstore', outputs_secret rfl, hstore, outputs_public rfl, answer_path,
      outputs_public rfl, hstore', outputs_public rfl, answer_path] at hseq
    cases hseq
    rfl

/-! ## No leak -/

/-- Everything that is read of a path is this string, and without authentication it is
there. -/
def Fixed (getFile : Fake α → Option Got) (site path a : Str) : Prop :=
  read getFile site path none = some a ∧
    ∀ s auth b, pathOf s = path → read getFile site s auth = some b → b = a

theorem fixed_of_publicFiles (h : PublicFiles getFile) {site s a : Str} {u : α}
    (hread : read getFile site s (some u) = some a) : Fixed getFile site (pathOf s) a := by
  obtain ⟨hplain, hsame⟩ := h site s u a hread
  refine ⟨hplain, fun s' auth b hpath hread' => ?_⟩
  cases auth with
  | none => exact hsame s' b hpath hread'
  | some u' =>
    obtain ⟨hplain', -⟩ := h site s' u' b hread'
    rw [hpath, hplain] at hplain'
    exact (Option.some.inj hplain').symm

/-- What the cache has under a path was read of it without authentication, or is the one
string of the path. -/
def Stored (getFile : Fake α → Option Got) (cache : FileCache) : Prop :=
  ∀ site path v, cache.lookup (site, path) = some v →
    ∃ s auth, pathOf s = path ∧ read getFile site s auth = some v

/-- The caches of the run with and without the authenticated calls. -/
structure Related (getFile : Fake α → Option Got) (cache cache' : FileCache) : Prop where
  stored : Stored getFile cache
  stored' : Stored getFile cache'
  same : ∀ site path, cache.lookup (site, path) = cache'.lookup (site, path) ∨
    ∃ a, Fixed getFile site path a

theorem Stored.insert {cache : FileCache} (h : Stored getFile cache) {c : TryGetFile α} {a : Str}
    (hread : read getFile c.siteId c.s c.auth = some a) :
    Stored getFile (cache.insert c.storeKey a) := by
  intro site path v hl
  rcases Lib.Mapping.lookup_insert_cases hl with ⟨hk, rfl⟩ | ⟨-, hl⟩
  · obtain ⟨rfl, rfl⟩ := Prod.mk.inj hk
    exact ⟨c.s, c.auth, rfl, hread⟩
  · exact h site path v hl

theorem Stored.pathKeys {cache : FileCache} (h : Stored getFile cache) : PathKeys cache := by
  intro site s v hl
  obtain ⟨s', auth, rfl, -⟩ := h site s v hl
  exact not_mem_pathOf s'

/-- A call leaves in the cache what was read. -/
theorem answer_stored {cache : FileCache} (h : Stored getFile cache) (c : TryGetFile α) :
    Stored getFile (answer getFile cache c).2 := by
  rw [answer]
  cases hhit : c.hit cache with
  | some v => rw [tryGetFile_hit hhit]; exact h
  | none =>
    rw [tryGetFile_miss hhit]
    cases hread : read getFile c.siteId c.s c.auth with
    | none => exact h
    | some a =>
      dsimp only
      split
      · exact h
      · exact h.insert hread

/-- What a call leaves under the other paths. -/
theorem answer_frame (cache : FileCache) (c : TryGetFile α) {k : Str × Str} (hk : k ≠ c.storeKey) :
    (answer getFile cache c).2.lookup k = cache.lookup k := by
  rw [answer]
  cases hhit : c.hit cache with
  | some v => rw [tryGetFile_hit hhit]
  | none =>
    rw [tryGetFile_miss hhit]
    cases read getFile c.siteId c.s c.auth with
    | none => rfl
    | some a =>
      dsimp only
      split
      · rfl
      · exact AList.lookup_insert_ne hk

/-- An authenticated call makes a difference only where a path has one string. -/
theorem related_secret (h : PublicFiles getFile) {cache cache' : FileCache}
    (hrel : Related getFile cache cache') {c : TryGetFile α} (hc : c.isPublic = false) :
    Related getFile (answer getFile cache c).2 cache' where
  stored := answer_stored hrel.stored c
  stored' := hrel.stored'
  same site path := by
    obtain ⟨s, siteId, auth, noCache, status, nocache⟩ := c
    cases auth with
    | none => cases hc
    | some u =>
      cases hread : read getFile siteId s (some u) with
      | none =>
        -- nothing is stored
        have hhit : (⟨s, siteId, some u, noCache, status, nocache⟩ : TryGetFile α).hit cache =
            none := by
          rw [TryGetFile.hit, TryGetFile.reads]
          simp
        rw [answer_none hhit hread]
        exact hrel.same site path
      | some a =>
        by_cases hk : (site, path) = (siteId, pathOf s)
        · obtain ⟨rfl, rfl⟩ := Prod.mk.inj hk
          exact Or.inr ⟨a, fixed_of_publicFiles h hread⟩
        · rw [answer_frame cache _ hk]
          exact hrel.same site path

/-- Where a path has one string the answer to a public call of it is that string, from the
cache or not. -/
theorem answer_fixed {cache : FileCache} (h : Stored getFile cache) {c : TryGetFile α} {a : Str}
    (hc : c.isPublic = true) (hfixed : Fixed getFile c.siteId c.s a) :
    (answer getFile cache c).1 = if c.status then .one else .string a := by
  have hread : read getFile c.siteId c.s c.auth = some a := by
    rw [Option.isNone_iff_eq_none.mp hc]
    exact hfixed.1
  rw [answer]
  cases hhit : c.hit cache with
  | some v =>
    have hv : v = a := by
      unfold TryGetFile.hit at hhit
      split at hhit
      · obtain ⟨s', auth, hpath, hread'⟩ := h c.siteId c.s v hhit
        exact hfixed.2 s' auth v hpath hread'
      · cases hhit
    rw [tryGetFile_hit hhit, hv, observe]
    cases c.status <;> rfl
  | none =>
    rw [tryGetFile_miss hhit, hread, observe]
    cases c.status <;> rfl

/-- A call that finds the same in both caches has the same answer and leaves them related. -/
theorem answer_same {cache cache' : FileCache} (hrel : Related getFile cache cache')
    {c : TryGetFile α} (hhit : c.hit cache = c.hit cache') :
    (answer getFile cache c).1 = (answer getFile cache' c).1 ∧
      Related getFile (answer getFile cache c).2 (answer getFile cache' c).2 := by
  have hstored := answer_stored hrel.stored c
  have hstored' := answer_stored hrel.stored' c
  rw [answer, answer] at *
  cases h : c.hit cache with
  | some v =>
    rw [tryGetFile_hit h, tryGetFile_hit (hhit ▸ h)]
    exact ⟨rfl, hrel⟩
  | none =>
    rw [tryGetFile_miss h, tryGetFile_miss (hhit ▸ h)] at *
    cases hread : read getFile c.siteId c.s c.auth with
    | none => exact ⟨rfl, hrel⟩
    | some a =>
      rw [hread] at hstored hstored'
      cases hstatus : c.status with
      | true => exact ⟨rfl, hrel⟩
      | false =>
        rw [hstatus] at hstored hstored'
        refine ⟨rfl, hstored, hstored', fun site path => ?_⟩
        change (cache.insert c.storeKey a).lookup _ = (cache'.insert c.storeKey a).lookup _ ∨ _
        rw [Lib.Mapping.lookup_insert_ite, Lib.Mapping.lookup_insert_ite]
        split
        · exact Or.inl rfl
        · exact hrel.same site path

theorem related_public {cache cache' : FileCache} (hrel : Related getFile cache cache')
    {c : TryGetFile α} (hc : c.isPublic = true) :
    (answer getFile cache c).1 = (answer getFile cache' c).1 ∧
      Related getFile (answer getFile cache c).2 (answer getFile cache' c).2 := by
  by_cases hs : '?' ∈ c.s
  · refine answer_same hrel ?_
    rw [hit_of_mem hrel.stored.pathKeys hs, hit_of_mem hrel.stored'.pathKeys hs]
  · obtain hsame | ⟨a, hfixed⟩ := hrel.same c.siteId c.s
    · refine answer_same hrel ?_
      unfold TryGetFile.hit TryGetFile.key
      rw [hsame]
    · refine ⟨?_, answer_stored hrel.stored c, answer_stored hrel.stored' c, fun site path => ?_⟩
      · rw [answer_fixed hrel.stored hc hfixed, answer_fixed hrel.stored' hc hfixed]
      · by_cases hk : (site, path) = c.storeKey
        · rw [storeKey_eq_key hs] at hk
          obtain ⟨rfl, rfl⟩ := Prod.mk.inj hk
          exact Or.inr ⟨a, hfixed⟩
        · rw [answer_frame cache c hk, answer_frame cache' c hk]
          exact hrel.same site path

/-- **When included files do not leak.** Requests without authentication learn the same with
and without the calls of authenticated requests in between, in every sequence of calls, if
and only if the files that authenticated requests can read are public. -/
theorem noninterfering_iff (getFile : Fake α → Option Got) :
    NonInterfering getFile ↔ PublicFiles getFile := by
  constructor
  · exact publicFiles_of_noninterfering
  · intro h calls
    have hempty : Stored getFile ∅ := by
      intro site path v hl
      rw [AList.lookup_empty] at hl
      cases hl
    refine outputs_purge (R := Related getFile) ?_ ?_ calls ∅ ∅
      ⟨hempty, hempty, fun _ _ => Or.inl rfl⟩
    · exact fun cache cache' c hrel hc => related_secret h hrel hc
    · exact fun cache cache' c hrel hc => related_public hrel hc

/-- A site with one file, for known users only. -/
def membersOnly (f : Fake Unit) : Option Got :=
  f.auth.map fun _ => ⟨0, some "secret".toList, none, false⟩

/-- What a member has included is then included for everyone. -/
theorem secret_leaks : ¬ NonInterfering membersOnly := by
  intro h
  have hpublic := publicFiles_of_noninterfering h
  obtain ⟨hread, -⟩ := hpublic [] "/members.txt".toList () "secret".toList rfl
  cases hread

end Caudium.BaseServer
