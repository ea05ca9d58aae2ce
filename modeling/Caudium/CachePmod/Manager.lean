import Caudium.Lib.Mapping
import Mathlib.Algebra.Order.BigOperators.Group.List
import Mathlib.Algebra.Ring.Int.Defs

/-!
# The size watcher of the cache manager (`Manager.pike`)

`watch_size` goes over the caches twice, once for the RAM and once for the disk. A tier that is over
its maximum is to be relieved by its bigger caches: those that are above the average share what is
too much, in equal parts.

The average is rounded down, so the bigger caches are none exactly when all caches have one size
(`exists_above_average`), and one cache alone always has. The excess is then divided by 0, the run
ends there, and with it the `call_out` that would start the next one. For the disk the excess is
taken the wrong way around (`max_disk_size - disk_total`), and every request is negative
(`freeEach_neg`). What is left of the promise is `watches_iff`.
-/

namespace Caudium.CachePmod

open Lib (Str Mapping)

/-! ## Averages -/

/-- Some number is above the average, rounded down, exactly when they are not all the same. -/
theorem exists_above_average (l : List Int) :
    (∃ x ∈ l, l.sum / l.length < x) ↔ ∃ x ∈ l, ∃ y ∈ l, x ≠ y := by
  constructor
  · intro ⟨x, hx, hlt⟩
    by_contra hsame
    push Not at hsame
    have hsum : l.sum = l.length * x := by
      rw [List.eq_replicate_of_mem fun y hy => (hsame x hx y hy).symm]
      simp
    have hpos : (l.length : Int) ≠ 0 := by
      have := List.length_pos_of_mem hx
      omega
    rw [hsum, Int.mul_ediv_cancel_left x hpos] at hlt
    omega
  · intro ⟨x, hx, y, hy, hne⟩
    by_contra hle
    push Not at hle
    have hpos : (l.length : Int) ≠ 0 := by
      have := List.length_pos_of_mem hx
      omega
    -- one of the two is below the average, and nothing is above it
    have hbelow : ∃ z ∈ l, z < l.sum / l.length := by
      have hxle := hle x hx
      have hyle := hle y hy
      rcases Int.lt_or_le x y with h | h
      · exact ⟨x, hx, by omega⟩
      · exact ⟨y, hy, by omega⟩
    have hlt : l.sum < l.length * (l.sum / l.length) := by
      have h := List.sum_lt_sum id (fun _ => l.sum / l.length) hle hbelow
      simpa using h
    have hmul := Int.mul_ediv_self_le (x := l.sum) hpos
    omega

/-! ## The code -/

/-- What a cache answers to `ram_usage` and to `disk_usage`, each when it is asked. -/
structure Usage where
  ram : Int
  disk : Int

/-- The manager, as far as `watch_size` reads it. Caches and maxima come with the start. -/
structure Manager where
  reallyStarted : Bool
  maxRamSize : Int
  maxDiskSize : Int
  caches : Mapping Str Usage
  idle : reallyStarted = false → caches = ∅ ∧ maxRamSize = 0 ∧ maxDiskSize = 0

/-- What a run of `watch_size` does: the caches it asks to free and the bytes it asks for, and
whether it comes to a `call_out`. -/
structure WatchRun where
  freeRam : List (Str × Int)
  freeDisk : List (Str × Int)
  callOut : Bool
  deriving DecidableEq, Repr

/-- `a / b`: rounded down, and a throw for 0. -/
def intDiv (a b : Int) : Option Int := if b = 0 then none else some (a.fdiv b)

/-- The sum of all sizes. -/
def sizeTotal (sizes : List (Str × Int)) : Int := (sizes.map Prod.snd).sum

/-- `big_caches`: the names of the caches above the average. -/
def bigCaches (sizes : List (Str × Int)) : Option (List Str) :=
  (intDiv (sizeTotal sizes) sizes.length).map fun averageSize =>
    (sizes.filter fun s => averageSize < s.2).map Prod.fst

/-- The big caches, each with its part of what must be freed. -/
def freeEach (sizes : List (Str × Int)) (mustFree : Int) : Option (List (Str × Int)) := do
  let big ← bigCaches sizes
  let each ← intDiv mustFree big.length
  return big.map fun nspace => (nspace, each)

namespace Manager

variable (m : Manager)

/-- `cache_ram_sizes`. -/
def cacheRamSizes : List (Str × Int) := m.caches.entries.map fun c => (c.1, c.2.ram)

/-- `cache_disk_sizes`. -/
def cacheDiskSizes : List (Str × Int) := m.caches.entries.map fun c => (c.1, c.2.disk)

/-- The first half of `watch_size`. -/
def watchRam : Option (List (Str × Int)) :=
  let ramTotal := sizeTotal m.cacheRamSizes
  if m.maxRamSize < ramTotal then freeEach m.cacheRamSizes (ramTotal - m.maxRamSize) else some []

/-- The second half, a copy but for the order in the subtraction. -/
def watchDisk : Option (List (Str × Int)) :=
  let diskTotal := sizeTotal m.cacheDiskSizes
  if m.maxDiskSize < diskTotal then freeEach m.cacheDiskSizes (m.maxDiskSize - diskTotal)
  else some []

/-- `watch_size`. -/
def watchSize : WatchRun :=
  if !m.reallyStarted then { freeRam := [], freeDisk := [], callOut := true }
  else
    match m.watchRam with
    | none => { freeRam := [], freeDisk := [], callOut := false }
    | some ram =>
      match m.watchDisk with
      | none => { freeRam := ram, freeDisk := [], callOut := false }
      | some disk => { freeRam := ram, freeDisk := disk, callOut := true }

end Manager

/-! ## What it asks for -/

/-- Two caches have different sizes. -/
def Uneven (sizes : List (Str × Int)) : Prop := ∃ s ∈ sizes, ∃ t ∈ sizes, s.2 ≠ t.2

/-- How many caches are above the average. -/
def bigCount (sizes : List (Str × Int)) : Nat :=
  (sizes.filter fun s => sizeTotal sizes / sizes.length < s.2).length

/-- A tier over its maximum is relieved: something is asked for, and no more than the excess. -/
def Relieves (sizes : List (Str × Int)) (maxSize : Int) (asked : List (Str × Int)) : Prop :=
  maxSize < sizeTotal sizes →
    (∃ r ∈ asked, 0 < r.2) ∧ (asked.map Prod.snd).sum ≤ sizeTotal sizes - maxSize

theorem bigCount_pos (sizes : List (Str × Int)) : 0 < bigCount sizes ↔ Uneven sizes := by
  have h := exists_above_average (sizes.map Prod.snd)
  simp only [List.mem_map, List.length_map, exists_exists_and_eq_and] at h
  rw [bigCount, List.length_pos_iff_exists_mem]
  simp only [List.mem_filter, decide_eq_true_eq]
  exact h

/-- **The one thing `freeEach` does**: it throws where all sizes are the same, and else gives each
big cache the same part. -/
theorem freeEach_eq (sizes : List (Str × Int)) (mustFree : Int) :
    freeEach sizes mustFree = none ∧ ¬ Uneven sizes ∨
    ∃ big : List Str, freeEach sizes mustFree
      = some (big.map fun nspace => (nspace, mustFree / bigCount sizes)) ∧
      big.length = bigCount sizes ∧ Uneven sizes := by
  by_cases hlen : (sizes.length : Int) = 0
  · refine Or.inl ⟨by rw [freeEach, bigCaches, intDiv, if_pos hlen]; rfl, fun h => ?_⟩
    obtain ⟨s, hs, -⟩ := h
    have := List.length_pos_of_mem hs
    omega
  · have hbig : bigCaches sizes = some ((sizes.filter fun s =>
        sizeTotal sizes / sizes.length < s.2).map Prod.fst) := by
      rw [bigCaches, intDiv, if_neg hlen, Int.fdiv_eq_ediv_of_nonneg _ (by omega)]
      rfl
    have hcount : ((sizes.filter fun s => sizeTotal sizes / sizes.length < s.2).map
        Prod.fst).length = bigCount sizes := List.length_map _
    have heach : freeEach sizes mustFree = (intDiv mustFree (bigCount sizes)).bind fun each =>
        some (((sizes.filter fun s => sizeTotal sizes / sizes.length < s.2).map Prod.fst).map
          fun nspace => (nspace, each)) := by
      rw [freeEach, hbig, ← hcount]
      rfl
    rw [heach, intDiv]
    by_cases hzero : bigCount sizes = 0
    · refine Or.inl ⟨by simp [hzero], fun h => ?_⟩
      have := (bigCount_pos sizes).mpr h
      omega
    · refine Or.inr ⟨_, ?_, hcount, (bigCount_pos sizes).mp (by omega)⟩
      rw [if_neg (by omega), Int.fdiv_eq_ediv_of_nonneg _ (by omega)]
      rfl

/-- What the parts come to. -/
theorem sum_parts (big : List Str) (part : Int) :
    ((big.map fun nspace => (nspace, part)).map Prod.snd).sum = big.length * part := by
  rw [List.map_map, show (Prod.snd ∘ fun nspace : Str => (nspace, part)) = fun _ => part from rfl]
  simp

/-- A tier is relieved of a positive excess exactly when it comes to at least 1 for each big cache. -/
theorem relieves_freeEach {sizes : List (Str × Int)} {maxSize : Int}
    (hover : maxSize < sizeTotal sizes) :
    (∃ asked, freeEach sizes (sizeTotal sizes - maxSize) = some asked ∧
      Relieves sizes maxSize asked) ↔
      Uneven sizes ∧ bigCount sizes ≤ sizeTotal sizes - maxSize := by
  rcases freeEach_eq sizes (sizeTotal sizes - maxSize) with
    ⟨hnone, heven⟩ | ⟨big, hsome, hlen, hun⟩
  · simp [hnone, heven]
  · have hpos := (bigCount_pos sizes).mpr hun
    rw [hsome]
    constructor
    · intro ⟨asked, hasked, hrel⟩
      obtain rfl := Option.some.inj hasked
      obtain ⟨⟨r, hr, hr0⟩, _⟩ := hrel hover
      obtain ⟨nspace, -, rfl⟩ := List.mem_map.mp hr
      refine ⟨hun, ?_⟩
      have hone : 1 ≤ (sizeTotal sizes - maxSize) / bigCount sizes := hr0
      have := (Int.le_ediv_iff_mul_le (by omega)).mp hone
      omega
    · intro ⟨_, hle⟩
      refine ⟨_, rfl, fun _ => ⟨?_, ?_⟩⟩
      · obtain ⟨nspace, hmem⟩ := List.length_pos_iff_exists_mem.mp (hlen ▸ hpos)
        refine ⟨_, List.mem_map.mpr ⟨nspace, hmem, rfl⟩, ?_⟩
        have : 1 ≤ (sizeTotal sizes - maxSize) / bigCount sizes :=
          (Int.le_ediv_iff_mul_le (by omega)).mpr (by omega)
        exact this
      · rw [sum_parts, hlen]
        exact Int.mul_ediv_self_le (by omega)

/-- What is asked for a negative excess is negative. -/
theorem freeEach_neg {sizes : List (Str × Int)} {mustFree : Int} {asked : List (Str × Int)}
    (hneg : mustFree < 0) (h : freeEach sizes mustFree = some asked) : ∀ r ∈ asked, r.2 < 0 := by
  intro r hr
  rcases freeEach_eq sizes mustFree with ⟨hnone, -⟩ | ⟨big, hsome, -, hun⟩
  · rw [hnone] at h
    cases h
  · rw [hsome, Option.some.injEq] at h
    subst h
    obtain ⟨nspace, -, rfl⟩ := List.mem_map.mp hr
    have hpos := (bigCount_pos sizes).mpr hun
    exact Int.ediv_neg_of_neg_of_pos hneg (by omega)

namespace Manager

variable (m : Manager)

/-- What the watcher is for: it comes to its `call_out`, and it relieves both tiers. -/
structure Watches : Prop where
  callOut : m.watchSize.callOut = true
  ram : Relieves m.cacheRamSizes m.maxRamSize m.watchSize.freeRam
  disk : Relieves m.cacheDiskSizes m.maxDiskSize m.watchSize.freeDisk

/-- A manager that is not started has nothing to watch. -/
theorem idle_totals (h : m.reallyStarted = false) :
    sizeTotal m.cacheRamSizes ≤ m.maxRamSize ∧ sizeTotal m.cacheDiskSizes ≤ m.maxDiskSize := by
  obtain ⟨hcaches, hram, hdisk⟩ := m.idle h
  unfold cacheRamSizes cacheDiskSizes
  rw [hcaches, hram, hdisk]
  exact ⟨Int.le_refl 0, Int.le_refl 0⟩

/-- The disk is relieved exactly when there is nothing to relieve it of. -/
theorem watchDisk_relieves :
    (∃ asked, m.watchDisk = some asked ∧ Relieves m.cacheDiskSizes m.maxDiskSize asked) ↔
      sizeTotal m.cacheDiskSizes ≤ m.maxDiskSize := by
  unfold watchDisk
  dsimp only
  by_cases hover : m.maxDiskSize < sizeTotal m.cacheDiskSizes
  · rw [if_pos hover]
    refine iff_of_false (fun ⟨asked, hasked, hrel⟩ => ?_) (by omega)
    obtain ⟨⟨r, hr, hr0⟩, -⟩ := hrel hover
    have := freeEach_neg (by omega) hasked r hr
    omega
  · rw [if_neg hover]
    exact iff_of_true ⟨[], rfl, fun h => absurd h hover⟩ (by omega)

theorem watchRam_relieves :
    (∃ asked, m.watchRam = some asked ∧ Relieves m.cacheRamSizes m.maxRamSize asked) ↔
      (sizeTotal m.cacheRamSizes ≤ m.maxRamSize ∨ Uneven m.cacheRamSizes ∧
        bigCount m.cacheRamSizes ≤ sizeTotal m.cacheRamSizes - m.maxRamSize) := by
  unfold watchRam
  dsimp only
  by_cases hover : m.maxRamSize < sizeTotal m.cacheRamSizes
  · rw [if_pos hover, relieves_freeEach hover]
    exact ⟨Or.inr, fun h => h.resolve_left (by omega)⟩
  · rw [if_neg hover]
    exact iff_of_true ⟨[], rfl, fun h => absurd h hover⟩ (Or.inl (by omega))

/-- **When the watcher keeps its promise.** -/
theorem watches_iff : m.Watches ↔
    (sizeTotal m.cacheRamSizes ≤ m.maxRamSize ∨ Uneven m.cacheRamSizes ∧
      bigCount m.cacheRamSizes ≤ sizeTotal m.cacheRamSizes - m.maxRamSize) ∧
    sizeTotal m.cacheDiskSizes ≤ m.maxDiskSize := by
  rw [← watchRam_relieves, ← watchDisk_relieves]
  cases hstart : m.reallyStarted with
  | false =>
    obtain ⟨hram, hdisk⟩ := m.idle_totals hstart
    refine iff_of_true ⟨by simp [watchSize, hstart], ?_, ?_⟩
      ⟨m.watchRam_relieves.mpr (Or.inl hram), m.watchDisk_relieves.mpr hdisk⟩
    · exact fun h => absurd h (by omega)
    · exact fun h => absurd h (by omega)
  | true =>
    constructor
    · intro ⟨hcall, hram, hdisk⟩
      simp only [watchSize, hstart, Bool.not_true, Bool.false_eq_true, if_false] at hcall hram hdisk
      cases hr : m.watchRam with
      | none => simp [hr] at hcall
      | some ram =>
        cases hd : m.watchDisk with
        | none => simp [hr, hd] at hcall
        | some disk =>
          simp only [hr, hd] at hram hdisk
          exact ⟨⟨ram, rfl, hram⟩, ⟨disk, rfl, hdisk⟩⟩
    · intro ⟨⟨ram, hr, hram⟩, ⟨disk, hd, hdisk⟩⟩
      have hrun : m.watchSize = { freeRam := ram, freeDisk := disk, callOut := true } := by
        simp [watchSize, hstart, hr, hd]
      exact ⟨by rw [hrun], by rwa [hrun], by rwa [hrun]⟩

/-- One cache, of 10 bytes in RAM where 5 are allowed. -/
def oneCache : Manager :=
  { reallyStarted := true
    maxRamSize := 5
    maxDiskSize := 5
    caches := (∅ : Mapping Str Usage).insert "DEFAULT".toList { ram := 10, disk := 0 }
    idle := fun h => nomatch h }

/-- One cache is never above the average, and the watcher stops for good. -/
theorem oneCache_stops : ¬ oneCache.Watches := by
  intro h
  have hcall : oneCache.watchSize.callOut = false := by decide
  rw [h.callOut] at hcall
  cases hcall

end Manager

end Caudium.CachePmod
