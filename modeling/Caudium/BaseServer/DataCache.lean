import Mathlib.Algebra.Order.Floor.Ring
import Mathlib.Data.Rat.Floor
import Caudium.Lib.Loop
import Caudium.Lib.Runs
import Caudium.Lib.Total

/-!
# The RAM cache (`DataCache`, configuration.pike)

The cache keeps the length of all its data in `current_size`. Whatever takes an entry out
subtracts its length, so the difference between the counter and the data (`drift`) stays as it
is; only `set` can change it, by the length of an entry that it replaces (`drift_set`). So the
counter is right throughout a run exactly when no `set` replaces an entry that has data
(`accurate_iff`), and then the loop of `init_from_variables` ends. Otherwise the loop can be left
with an empty cache and a counter above the limit, and goes on forever.
-/

namespace Caudium.BaseServer

open Lib (Str Mapping whileLoop whileLoop_stop whileLoop_live Always EachStep)
open Lib.Mapping (total weightAt total_erase total_insert)

variable {μ : Type}

/-! ## The cache -/

/-- `({ data, meta })`. -/
structure Cached (μ : Type) where
  data : Str
  info : μ

/-- `strlen(data)`. -/
def Cached.size (e : Cached μ) : Int := e.data.length

structure DataCache (μ : Type) where
  cache : Mapping Str (Cached μ)
  currentSize : Int
  maxSize : Int
  gcSize : Int
  maxFileSize : Int
  hits : Nat
  misses : Nat

/-- `indices`, in the order of the hash table. -/
structure Indices (μ : Type) where
  run : Mapping Str (Cached μ) → List Str
  perm : ∀ cache, (run cache).Perm cache.keys

/-- What `(int)(max_size * (1 - gc_cleanup))` is for a `gc_cleanup` between 0 and 1. -/
structure Cleanup where
  gcSize : Nat → Nat
  gcSize_le : ∀ size, gcSize size ≤ size

/-- The `gc_cleanup` of an exact arithmetic. -/
def Cleanup.exact (g : ℚ) (h : 0 ≤ g) : Cleanup where
  gcSize size := ⌊size * (1 - g)⌋₊
  gcSize_le size := by
    have hle : (size : ℚ) * (1 - g) ≤ size := by
      have hsize : (0 : ℚ) ≤ size := Nat.cast_nonneg size
      nlinarith
    calc ⌊size * (1 - g)⌋₊ ≤ ⌊(size : ℚ)⌋₊ := Nat.floor_le_floor hle
      _ = size := Nat.floor_natCast size

namespace DataCache

/-- An entry is taken out and its length off the counter. -/
def remove (s : DataCache μ) (url : Str) : DataCache μ :=
  { s with currentSize := s.currentSize - weightAt Cached.size s.cache url
           cache := s.cache.erase url }

/-- The loop of `clear_some_cache` over the keys `q`. -/
def clearLoop : List Str → DataCache μ → DataCache μ
  | [], s => s
  | url :: q, s => if s.gcSize < s.currentSize then clearLoop q (s.remove url) else s

def clearSomeCache (indices : Indices μ) (s : DataCache μ) : DataCache μ :=
  s.clearLoop (indices.run s.cache)

def expireEntry (url : Str) (s : DataCache μ) : DataCache μ :=
  if (s.cache.lookup url).isSome then s.remove url else s

/-- `set` before the entry is put in. -/
def makeRoom (indices : Indices μ) (data : Str) (s : DataCache μ) : DataCache μ :=
  let s := { s with currentSize := s.currentSize + data.length }
  if s.maxSize < s.currentSize then s.clearSomeCache indices else s

/-- `set`; the call-out that it starts is an `expireEntry` later on. -/
def set (indices : Indices μ) (url data : Str) (info : μ) (s : DataCache μ) : DataCache μ :=
  let s := s.makeRoom indices data
  { s with cache := s.cache.insert url ⟨data, info⟩ }

def get (url : Str) (s : DataCache μ) : Option (Cached μ) × DataCache μ :=
  match s.cache.lookup url with
  | some res => (some res, { s with hits := s.hits + 1 })
  | none => (none, { s with misses := s.misses + 1 })

/-- `init_from_variables` before its loop. -/
def limit (size : Nat) (fsize : Int) (cleanup : Cleanup) (s : DataCache μ) : DataCache μ :=
  { s with maxSize := size, maxFileSize := fsize, gcSize := cleanup.gcSize size }

/-- `current_size > max_size`. -/
def tooLarge (s : DataCache μ) : Bool := decide (s.maxSize < s.currentSize)

/-- `init_from_variables`; `none` where the loop is still running after more turns than there
are entries: then it runs forever (`limit_forever`). -/
def initFromVariables (indices : Indices μ) (size : Nat) (fsize : Int) (cleanup : Cleanup)
    (s : DataCache μ) : Option (DataCache μ) :=
  let s := whileLoop tooLarge (clearSomeCache indices) (s.cache.keys.length + 1)
    (s.limit size fsize cleanup)
  if s.tooLarge then none else some s

/-- `DataCache(size, fsize, gc_cleanup)`. -/
def create (indices : Indices μ) (size : Nat) (fsize : Int) (cleanup : Cleanup) :
    Option (DataCache μ) :=
  initFromVariables indices size fsize cleanup ⟨∅, 0, 0, 0, 0, 0, 0⟩

end DataCache

/-- A call of the cache. -/
inductive CacheCall (μ : Type)
  | set (indices : Indices μ) (url data : Str) (info : μ)
  | expireEntry (url : Str)
  | get (url : Str)
  | initFromVariables (indices : Indices μ) (size : Nat) (fsize : Int) (cleanup : Cleanup)

def cacheStep (s : DataCache μ) : CacheCall μ → Option (DataCache μ)
  | .set indices url data info => some (s.set indices url data info)
  | .expireEntry url => some (s.expireEntry url)
  | .get url => some (s.get url).2
  | .initFromVariables indices size fsize cleanup => s.initFromVariables indices size fsize cleanup

namespace DataCache

/-! ## The counter and the data -/

/-- How far the counter is above the data. -/
def drift (s : DataCache μ) : Int := s.currentSize - total Cached.size s.cache

/-- `current_size` is the length of all data. -/
def Accurate (s : DataCache μ) : Prop := s.currentSize = total Cached.size s.cache

/-- Whatever the new size, the loop of `init_from_variables` ends. -/
def EvictionEnds (s : DataCache μ) : Prop :=
  ∀ (indices : Indices μ) (size : Nat) (fsize : Int) (cleanup : Cleanup),
    ∃ n, (whileLoop tooLarge (clearSomeCache indices) n (s.limit size fsize cleanup)).tooLarge =
      false

theorem accurate_iff_drift {s : DataCache μ} : s.Accurate ↔ s.drift = 0 := by
  rw [Accurate, drift]
  omega

theorem size_nonneg (e : Cached μ) : 0 ≤ e.size := Int.natCast_nonneg _

theorem weightAt_nonneg (m : Mapping Str (Cached μ)) (url : Str) :
    0 ≤ weightAt Cached.size m url := by
  unfold weightAt
  split
  · exact size_nonneg _
  · exact Int.le_refl 0

@[simp] theorem drift_remove (s : DataCache μ) (url : Str) : (s.remove url).drift = s.drift := by
  simp only [drift, remove, total_erase]
  omega

theorem drift_clearLoop (q : List Str) (s : DataCache μ) : (s.clearLoop q).drift = s.drift := by
  induction q generalizing s with
  | nil => rfl
  | cons url q ih =>
    rw [clearLoop]
    split
    · rw [ih, drift_remove]
    · rfl

theorem drift_expireEntry (s : DataCache μ) (url : Str) : (s.expireEntry url).drift = s.drift := by
  unfold expireEntry
  split
  · exact drift_remove s url
  · rfl

theorem drift_get (s : DataCache μ) (url : Str) : (s.get url).2.drift = s.drift := by
  unfold get
  split <;> rfl

/-! ## What an eviction leaves -/

/-- The entries before `url` do not bring a counter of `size` down to `gc_size`, so that `url`
goes as well. -/
def Goes (s : DataCache μ) (size : Int) (q : List Str) (url : Str) : Prop :=
  ∃ before behind, q = before ++ url :: behind ∧
    s.gcSize < size - (before.map (weightAt Cached.size s.cache)).sum

theorem lookup_clearLoop_none {url : Str} (q : List Str) {s : DataCache μ}
    (h : s.cache.lookup url = none) : (s.clearLoop q).cache.lookup url = none := by
  induction q generalizing s with
  | nil => exact h
  | cons u q ih =>
    rw [clearLoop]
    split
    · refine ih ?_
      show (s.cache.erase u).lookup url = none
      rw [Lib.Mapping.lookup_erase_ite, h, ite_self]
    · exact h

theorem sum_weights_nonneg (m : Mapping Str (Cached μ)) (q : List Str) :
    0 ≤ (q.map (weightAt Cached.size m)).sum :=
  List.sum_nonneg fun x hx => by
    obtain ⟨url, -, rfl⟩ := List.mem_map.mp hx
    exact weightAt_nonneg m url

theorem goes_head {s : DataCache μ} {size : Int} {url : Str} {q : List Str}
    (h : s.gcSize < size) : s.Goes size (url :: q) url :=
  ⟨[], q, rfl, by simpa using h⟩

/-- Behind an entry that was taken out, the rest goes as before. -/
theorem goes_cons {s : DataCache μ} {u url : Str} {q : List Str} (hne : url ≠ u) (hu : u ∉ q) :
    s.Goes s.currentSize (u :: q) url ↔
      (s.remove u).Goes (s.remove u).currentSize q url := by
  have hsum : ∀ before : List Str, (∀ v ∈ before, v ∈ q) →
      before.map (weightAt Cached.size (s.remove u).cache) =
        before.map (weightAt Cached.size s.cache) := by
    intro before hsub
    refine List.map_congr_left fun v hv => ?_
    have hvu : v ≠ u := fun heq => hu (heq ▸ hsub v hv)
    rw [weightAt, weightAt, show (s.remove u).cache = s.cache.erase u from rfl,
      AList.lookup_erase_ne hvu]
  constructor
  · intro h
    obtain ⟨before, behind, heq, hlt⟩ := h
    cases before with
    | nil =>
      rw [List.nil_append, List.cons.injEq] at heq
      exact absurd heq.1.symm hne
    | cons v before =>
      rw [List.cons_append, List.cons.injEq] at heq
      obtain ⟨rfl, rfl⟩ := heq
      refine ⟨before, behind, rfl, ?_⟩
      rw [hsum before fun v hv => List.mem_append_left _ hv]
      rw [List.map_cons, List.sum_cons] at hlt
      show s.gcSize < s.currentSize - weightAt Cached.size s.cache u - _
      omega
  · intro h
    obtain ⟨before, behind, rfl, hlt⟩ := h
    refine ⟨u :: before, behind, rfl, ?_⟩
    rw [hsum before fun v hv => List.mem_append_left _ hv] at hlt
    have hlt : s.gcSize < s.currentSize - weightAt Cached.size s.cache u -
      (before.map (weightAt Cached.size s.cache)).sum := hlt
    rw [List.map_cons, List.sum_cons]
    omega

open Classical in
/-- What is found after an eviction. -/
theorem lookup_clearLoop (url : Str) (q : List Str) (hq : q.Nodup) :
    ∀ s : DataCache μ, (s.clearLoop q).cache.lookup url =
      if s.Goes s.currentSize q url then none else s.cache.lookup url := by
  induction q with
  | nil =>
    intro s
    rw [if_neg]
    · rfl
    · intro h
      obtain ⟨before, behind, heq, -⟩ := h
      simp at heq
  | cons u q ih =>
    intro s
    obtain ⟨hu, hq⟩ := List.nodup_cons.mp hq
    rw [clearLoop]
    by_cases hlt : s.gcSize < s.currentSize
    · rw [if_pos hlt]
      by_cases hne : url = u
      · subst hne
        rw [if_pos (goes_head hlt)]
        exact lookup_clearLoop_none q (AList.lookup_erase url _)
      · rw [ih hq, ← goes_cons hne hu]
        show (if _ then none else (s.cache.erase u).lookup url) = _
        rw [AList.lookup_erase_ne hne]
    · rw [if_neg hlt, if_neg]
      -- the counter is below already, and what comes before only takes off
      intro h
      obtain ⟨before, behind, -, hgoes⟩ := h
      have hnonneg := sum_weights_nonneg s.cache before
      omega

/-- An eviction that leaves the counter above `gc_size` leaves nothing. -/
theorem clearLoop_all (q : List Str) (s : DataCache μ) :
    (s.clearLoop q).currentSize ≤ s.gcSize ∨
      ∀ url ∈ q, (s.clearLoop q).cache.lookup url = none := by
  induction q generalizing s with
  | nil => exact Or.inr fun url hurl => nomatch hurl
  | cons u q ih =>
    rw [clearLoop]
    split
    · rcases ih (s.remove u) with hle | hall
      · exact Or.inl hle
      · refine Or.inr fun url hurl => ?_
        rcases List.mem_cons.mp hurl with rfl | hmem
        · exact lookup_clearLoop_none q (AList.lookup_erase url _)
        · exact hall url hmem
    next hle => exact Or.inl (Int.not_lt.mp hle)

@[simp] theorem clearLoop_limits (q : List Str) (s : DataCache μ) :
    (s.clearLoop q).gcSize = s.gcSize ∧ (s.clearLoop q).maxSize = s.maxSize := by
  induction q generalizing s with
  | nil => exact ⟨rfl, rfl⟩
  | cons u q ih =>
    rw [clearLoop]
    split
    · exact ih (s.remove u)
    · exact ⟨rfl, rfl⟩

theorem mem_indices {indices : Indices μ} {s : DataCache μ} {url : Str} :
    url ∈ indices.run s.cache ↔ ∃ e, s.cache.lookup url = some e := by
  rw [(indices.perm s.cache).mem_iff, Lib.Mapping.mem_keys_iff]

theorem nodup_indices (indices : Indices μ) (s : DataCache μ) :
    (indices.run s.cache).Nodup :=
  (indices.perm s.cache).nodup_iff.mpr s.cache.keys_nodup

/-- `clear_some_cache` gets the counter down to `gc_size`, or nothing is left. -/
theorem clearSomeCache_spec (indices : Indices μ) (s : DataCache μ) :
    (s.clearSomeCache indices).currentSize ≤ s.gcSize ∨
      ∀ url, (s.clearSomeCache indices).cache.lookup url = none := by
  rcases clearLoop_all (indices.run s.cache) s with hle | hall
  · exact Or.inl hle
  · refine Or.inr fun url => ?_
    cases hl : s.cache.lookup url with
    | none => exact lookup_clearLoop_none _ hl
    | some e => exact hall url (mem_indices.2 ⟨e, hl⟩)

/-! ## `set` -/

/-- `set` replaces an entry that has data: there is one, and it does not go when room is made. -/
def Replaces (indices : Indices μ) (url data : Str) (s : DataCache μ) : Prop :=
  ∃ e, s.cache.lookup url = some e ∧ e.data ≠ [] ∧
    ¬ (s.maxSize < s.currentSize + data.length ∧
      s.Goes (s.currentSize + data.length) (indices.run s.cache) url)

theorem drift_makeRoom (indices : Indices μ) (data : Str) (s : DataCache μ) :
    (s.makeRoom indices data).drift = s.drift + data.length := by
  unfold makeRoom
  dsimp only
  split
  · rw [clearSomeCache, drift_clearLoop]
    simp only [drift]
    omega
  · simp only [drift]
    omega

/-- The length of an entry that is replaced stays in the counter. -/
theorem drift_set (indices : Indices μ) (url data : Str) (info : μ) (s : DataCache μ) :
    (s.set indices url data info).drift =
      s.drift + weightAt Cached.size (s.makeRoom indices data).cache url := by
  have hroom := drift_makeRoom indices data s
  simp only [drift, set, total_insert, Cached.size] at hroom ⊢
  omega

open Classical in
/-- What is found once room is made. -/
theorem lookup_makeRoom (indices : Indices μ) (url data : Str) (s : DataCache μ) :
    (s.makeRoom indices data).cache.lookup url =
      if s.maxSize < s.currentSize + data.length ∧
        s.Goes (s.currentSize + data.length) (indices.run s.cache) url then none
      else s.cache.lookup url := by
  unfold makeRoom
  dsimp only
  by_cases hlt : s.maxSize < s.currentSize + data.length
  · rw [if_pos hlt, clearSomeCache, lookup_clearLoop url _ (nodup_indices indices _)]
    show (if s.Goes (s.currentSize + data.length) (indices.run s.cache) url then none
      else s.cache.lookup url) = _
    simp only [hlt, true_and]
  · rw [if_neg hlt, if_neg fun h => hlt h.1]

theorem weightAt_makeRoom {indices : Indices μ} {url data : Str} {s : DataCache μ} :
    weightAt Cached.size (s.makeRoom indices data).cache url = 0 ↔
      ¬ s.Replaces indices url data := by
  classical
  rw [weightAt, lookup_makeRoom]
  by_cases hgoes : s.maxSize < s.currentSize + data.length ∧
      s.Goes (s.currentSize + data.length) (indices.run s.cache) url
  · rw [if_pos hgoes]
    refine iff_of_true rfl fun hreplaces => ?_
    obtain ⟨_, _, _, hnot⟩ := hreplaces
    exact hnot hgoes
  · rw [if_neg hgoes]
    cases hl : s.cache.lookup url with
    | none =>
      refine iff_of_true rfl fun hreplaces => ?_
      obtain ⟨e, he, -⟩ := hreplaces
      rw [hl] at he
      cases he
    | some e =>
      have hzero : e.size = 0 ↔ e.data = [] := by
        rw [Cached.size, Int.natCast_eq_zero, List.length_eq_zero_iff]
      constructor
      · intro hsize h
        obtain ⟨e', he, hdata, -⟩ := h
        rw [hl] at he
        obtain rfl := Option.some.inj he
        exact hdata (hzero.mp hsize)
      · intro hnot
        by_contra hsize
        exact hnot ⟨e, hl, fun hnil => hsize (hzero.mpr hnil), hgoes⟩

/-! ## `init_from_variables` -/

theorem drift_whileLoop (indices : Indices μ) (n : Nat) (s : DataCache μ) :
    (whileLoop tooLarge (clearSomeCache indices) n s).drift = s.drift := by
  induction n generalizing s with
  | zero => rfl
  | succ n ih =>
    cases hlive : s.tooLarge with
    | false => rw [whileLoop_stop hlive]
    | true => rw [whileLoop_live hlive, ih]; exact drift_clearLoop _ s

/-- In an empty cache nothing is taken out. -/
theorem clearSomeCache_empty (indices : Indices μ) {s : DataCache μ}
    (h : ∀ url, s.cache.lookup url = none) : s.clearSomeCache indices = s := by
  have hnil : indices.run s.cache = [] := by
    refine List.eq_nil_iff_forall_not_mem.mpr fun url hurl => ?_
    obtain ⟨e, he⟩ := mem_indices.1 hurl
    rw [h url] at he
    cases he
  rw [clearSomeCache, hnil]
  rfl

theorem whileLoop_empty (indices : Indices μ) {s : DataCache μ}
    (h : ∀ url, s.cache.lookup url = none) (n : Nat) :
    whileLoop tooLarge (clearSomeCache indices) n s = s := by
  induction n with
  | zero => rfl
  | succ n ih =>
    cases hlive : s.tooLarge with
    | false => exact whileLoop_stop hlive _
    | true => rw [whileLoop_live hlive, clearSomeCache_empty indices h, ih]

/-- The first turn ends the loop, or leaves an empty cache. -/
theorem turn_spec (indices : Indices μ) {s : DataCache μ} (hle : s.gcSize ≤ s.maxSize) :
    (s.clearSomeCache indices).tooLarge = false ∨
      ∀ url, (s.clearSomeCache indices).cache.lookup url = none := by
  rcases clearSomeCache_spec indices s with hsmall | hempty
  · refine Or.inl (decide_eq_false ?_)
    rw [clearSomeCache, (clearLoop_limits _ s).2]
    exact Int.not_lt.mpr (Int.le_trans hsmall hle)
  · exact Or.inr hempty

/-- A loop that still runs after a turn runs forever. -/
theorem limit_forever (indices : Indices μ) (size : Nat) (fsize : Int) (cleanup : Cleanup)
    {s : DataCache μ} {n : Nat}
    (h : (whileLoop tooLarge (clearSomeCache indices) (n + 1)
      (s.limit size fsize cleanup)).tooLarge = true) (m : Nat) :
    (whileLoop tooLarge (clearSomeCache indices) m (s.limit size fsize cleanup)).tooLarge =
      true := by
  have hle : (s.limit size fsize cleanup).gcSize ≤ (s.limit size fsize cleanup).maxSize :=
    Int.ofNat_le.mpr (cleanup.gcSize_le size)
  generalize s.limit size fsize cleanup = t at h hle ⊢
  cases hlive : t.tooLarge with
  | false =>
    rw [whileLoop_stop hlive, hlive] at h
    cases h
  | true =>
    rw [whileLoop_live hlive] at h
    rcases turn_spec indices hle with hdone | hempty
    · rw [whileLoop_stop hdone, hdone] at h
      cases h
    · rw [whileLoop_empty indices hempty] at h
      cases m with
      | zero => exact hlive
      | succ m => rw [whileLoop_live hlive, whileLoop_empty indices hempty, h]

/-- `initFromVariables` has no result exactly where its loop goes on. -/
theorem initFromVariables_eq_none {indices : Indices μ} {size : Nat} {fsize : Int}
    {cleanup : Cleanup} {s : DataCache μ} :
    s.initFromVariables indices size fsize cleanup = none ↔
      ∀ n, (whileLoop tooLarge (clearSomeCache indices) n (s.limit size fsize cleanup)).tooLarge =
        true := by
  unfold initFromVariables
  dsimp only
  constructor
  · intro h
    split at h
    next hrun => exact limit_forever indices size fsize cleanup hrun
    next => cases h
  · intro h
    rw [if_pos (h _)]

theorem drift_initFromVariables {indices : Indices μ} {size : Nat} {fsize : Int}
    {cleanup : Cleanup} {s s' : DataCache μ}
    (h : s.initFromVariables indices size fsize cleanup = some s') : s'.drift = s.drift := by
  unfold initFromVariables at h
  dsimp only at h
  split at h
  · cases h
  · rw [← Option.some.inj h, drift_whileLoop]
    rfl

/-- With the right counter the loop ends: an empty cache has a counter of 0. -/
theorem evictionEnds_of_accurate {s : DataCache μ} (h : s.Accurate) : s.EvictionEnds := by
  intro indices size fsize cleanup
  have hle : (s.limit size fsize cleanup).gcSize ≤ (s.limit size fsize cleanup).maxSize :=
    Int.ofNat_le.mpr (cleanup.gcSize_le size)
  cases hlive : (s.limit size fsize cleanup).tooLarge with
  | false => exact ⟨0, hlive⟩
  | true =>
    refine ⟨1, ?_⟩
    rw [whileLoop_live hlive]
    rcases turn_spec indices hle with hdone | hempty
    · exact hdone
    · have hdrift : ((s.limit size fsize cleanup).clearSomeCache indices).drift = 0 := by
        rw [clearSomeCache, drift_clearLoop]
        exact accurate_iff_drift.1 h
      rw [drift, Lib.Mapping.total_eq_zero Cached.size
        fun url e he => by rw [hempty url] at he; cases he] at hdrift
      have hmax : ((s.limit size fsize cleanup).clearSomeCache indices).maxSize = (size : Int) :=
        (clearLoop_limits _ _).2
      refine decide_eq_false (Int.not_lt.mpr ?_)
      show ((s.limit size fsize cleanup).clearSomeCache indices).currentSize ≤
        ((s.limit size fsize cleanup).clearSomeCache indices).maxSize
      omega

theorem create_spec {indices : Indices μ} {size : Nat} {fsize : Int} {cleanup : Cleanup}
    {s : DataCache μ} (h : create indices size fsize cleanup = some s) : s.Accurate := by
  rw [accurate_iff_drift, drift_initFromVariables h]
  rfl

end DataCache

/-! ## Runs -/

open DataCache

/-- A `set` must not replace an entry that has data. -/
def Fresh (s : DataCache μ) : CacheCall μ → Prop
  | .set indices url data _ => ¬ s.Replaces indices url data
  | _ => True

/-- A call keeps the counter right if and only if it replaces nothing. -/
theorem accurate_step {s s' : DataCache μ} {c : CacheCall μ} (h : s.Accurate)
    (hstep : cacheStep s c = some s') : s'.Accurate ↔ Fresh s c := by
  rw [accurate_iff_drift] at h
  rw [accurate_iff_drift]
  cases c with
  | set indices url data info =>
    rw [← Option.some.inj hstep, drift_set, h, Int.zero_add]
    exact weightAt_makeRoom
  | expireEntry url =>
    rw [← Option.some.inj hstep, drift_expireEntry]
    exact iff_of_true h trivial
  | get url =>
    rw [← Option.some.inj hstep, drift_get]
    exact iff_of_true h trivial
  | initFromVariables indices size fsize cleanup =>
    rw [drift_initFromVariables hstep]
    exact iff_of_true h trivial

theorem accurate_iff (calls : List (CacheCall μ)) {s : DataCache μ} (h : s.Accurate) :
    Always cacheStep Accurate s calls ↔ EachStep cacheStep Fresh s calls := by
  refine Lib.always_iff_eachStep (I := fun _ => True) (H := fun _ _ => True) ?_
    (fun _ _ _ _ _ _ _ _ => trivial) (fun s c s' _ hacc _ hs => accurate_step hacc hs) calls s
    trivial h (Lib.eachStep_of_forall (fun _ _ => trivial) calls s)
  intro s c hnone
  cases c with
  | set => cases hnone
  | expireEntry | get | initFromVariables => exact trivial

/-- **When the RAM cache counts right.** In every run of a new cache, with any limits: the
counter is the length of all data in every state if and only if no `set` of the run replaces an
entry that has data; and in such a run the loop of `init_from_variables` ends in every state, for
every new size. -/
theorem datacache_accounting (indices : Indices μ) (size : Nat) (fsize : Int) (cleanup : Cleanup)
    (s : DataCache μ) (h : create indices size fsize cleanup = some s)
    (calls : List (CacheCall μ)) :
    (Always cacheStep Accurate s calls ↔ EachStep cacheStep Fresh s calls) ∧
      (EachStep cacheStep Fresh s calls →
        Always cacheStep (fun s => s.Accurate ∧ s.EvictionEnds) s calls) := by
  have hiff := accurate_iff calls (create_spec h)
  refine ⟨hiff, fun hfresh => ?_⟩
  exact (hiff.mpr hfresh).mono (fun s hacc => ⟨hacc, evictionEnds_of_accurate hacc⟩) calls s

/-- The keys in the order of the mapping. -/
def Indices.keys (μ : Type) : Indices μ where
  run cache := cache.keys
  perm _ := List.Perm.refl _

/-- A cache of a hundred characters. -/
def smallCache : DataCache Unit :=
  ⟨∅, 0, 100, 50, 100, 0, 0⟩

/-- The half of a size. -/
def Cleanup.half : Cleanup where
  gcSize size := size / 2
  gcSize_le size := Nat.div_le_self size 2

theorem create_smallCache :
    create (Indices.keys Unit) 100 100 Cleanup.half = some smallCache := rfl

theorem small_cache_accounting :
    Always cacheStep Accurate smallCache [.set (Indices.keys Unit) ['/'] ['a', 'b'] ()] :=
  (datacache_accounting (Indices.keys Unit) 100 100 Cleanup.half smallCache create_smallCache
    [.set (Indices.keys Unit) ['/'] ['a', 'b'] ()]).1.mpr
    ⟨fun ⟨_, he, _, _⟩ => absurd he (by simp [smallCache]), fun _ _ => trivial⟩

/-- A page is put in twice and the cache is made empty: the loop never ends. -/
theorem set_twice_never_ends :
    ¬ ∀ (s : DataCache Unit) (calls : List (CacheCall Unit)),
      create (Indices.keys Unit) 100 100 Cleanup.half = some s →
      Always cacheStep (fun s => s.Accurate ∧ s.EvictionEnds) s calls := by
  intro h
  have hrun := h smallCache [.set (Indices.keys Unit) ['/'] ['a', 'b'] (),
    .set (Indices.keys Unit) ['/'] ['a', 'b'] ()] create_smallCache
  have hlast := ((hrun.2 _ rfl).2 _ rfl).2
  obtain ⟨n, hn⟩ := hlast (Indices.keys Unit) 0 0 Cleanup.half
  rw [limit_forever (n := 1)] at hn
  · cases hn
  · decide

end Caudium.BaseServer
