import Caudium.Pdb.Bucket
import Caudium.Lib.Runs
import Mathlib.Data.List.Induction

/-!
# `restore_from_log` and the block allocator

The state of a bucket after a restore is a function of three sets: the blocks
saved as free, the blocks whose last record is 'A' and those whose last record
is 'F'. `restoreFromLog_spec` computes it:

> the end of the file is the saved end or one past the highest 'A' block, and
> a block is free when it is an 'F' block, or was free (or skipped over) and is
> not an 'A' block.

Nothing extends the file to the *'F'* blocks. When the highest block handed out
since the save was also given back, the restored free list holds a block at or
past the end of the file, which `allocateEntry` then hands out twice: once from
the list and once as the end. `alloc_inv_iff` says that this is the only way
the allocator invariant is ever lost.
-/

namespace Caudium.Pdb

open Lib (runFrom Always EachStep always_iff_eachStep eachStep_of_forall)

/-! ## The net effect of a log -/

/-- The last record about a block. -/
def lastRec (log : List BucketRec) (x : Nat) : Option BucketRec :=
  (log.filter (·.block = x)).getLast?

theorem lastRec_nil (x : Nat) : lastRec [] x = none := rfl

theorem lastRec_concat (log : List BucketRec) (e : BucketRec) (x : Nat) :
    lastRec (log ++ [e]) x = if e.block = x then some e else lastRec log x := by
  unfold lastRec
  rw [List.filter_append]
  by_cases h : e.block = x
  · simp [h]
  · simp [h]

theorem lastRec_concat_alloc (log : List BucketRec) (y x : Nat) :
    lastRec (log ++ [.alloc y]) x = if y = x then some (.alloc y) else lastRec log x :=
  lastRec_concat log (.alloc y) x

theorem lastRec_concat_free (log : List BucketRec) (y x : Nat) :
    lastRec (log ++ [.free y]) x = if y = x then some (.free y) else lastRec log x :=
  lastRec_concat log (.free y) x

/-- The last record of a block is the one added, or one from before about another block
than the one added. -/
theorem lastRec_concat_eq_some {log : List BucketRec} {e r : BucketRec} {x : Nat}
    (h : lastRec (log ++ [e]) x = some r) :
    e.block = x ∧ e = r ∨ e.block ≠ x ∧ lastRec log x = some r := by
  rw [lastRec_concat] at h
  split at h
  next hx => exact Or.inl ⟨hx, Option.some.inj h⟩
  next hx => exact Or.inr ⟨hx, h⟩

theorem lastRec_concat_eq_none {log : List BucketRec} {e : BucketRec} {x : Nat}
    (h : lastRec (log ++ [e]) x = none) : e.block ≠ x ∧ lastRec log x = none := by
  rw [lastRec_concat] at h
  split at h
  · cases h
  next hx => exact ⟨hx, h⟩

/-- The last record about a block is about that block. -/
theorem lastRec_block {log : List BucketRec} {x : Nat} {e : BucketRec}
    (h : lastRec log x = some e) : e.block = x := by
  have hmem := List.mem_of_getLast? h
  simpa using (List.mem_filter.mp hmem).2

/-- A block has no record, or its last one is an 'A', or its last one is an 'F'. -/
theorem lastRec_cases (log : List BucketRec) (x : Nat) :
    lastRec log x = none ∨ lastRec log x = some (.alloc x) ∨ lastRec log x = some (.free x) := by
  cases h : lastRec log x with
  | none => exact Or.inl rfl
  | some e =>
    have hb := lastRec_block h
    cases e with
    | alloc y => obtain rfl : y = x := hb; exact Or.inr (Or.inl rfl)
    | free y => obtain rfl : y = x := hb; exact Or.inr (Or.inr rfl)

namespace Bucket

theorem mem_multisetAdd (m : List Nat) (y x : Nat) : x ∈ multisetAdd m y ↔ y = x ∨ x ∈ m := by
  rw [multisetAdd, List.mem_insert_iff, eq_comm]

theorem mem_multisetDel (m : List Nat) (y x : Nat) : x ∈ multisetDel m y ↔ x ∈ m ∧ y ≠ x := by
  rw [multisetDel, List.mem_filter, decide_eq_true_eq, ne_comm]

theorem netEffect_concat_alloc (log : List BucketRec) (y : Nat) :
    netEffect (log ++ [.alloc y])
      = (multisetAdd (netEffect log).1 y, multisetDel (netEffect log).2 y) := by
  unfold netEffect
  rw [List.foldl_concat]

theorem netEffect_concat_free (log : List BucketRec) (y : Nat) :
    netEffect (log ++ [.free y])
      = (multisetDel (netEffect log).1 y, multisetAdd (netEffect log).2 y) := by
  unfold netEffect
  rw [List.foldl_concat]

/-- `alloced` collects the blocks whose last record is 'A', `freed` those whose
last record is 'F'; neither repeats a block. -/
theorem netEffect_spec (log : List BucketRec) :
    (∀ x, x ∈ (netEffect log).1 ↔ lastRec log x = some (.alloc x)) ∧
    (∀ x, x ∈ (netEffect log).2 ↔ lastRec log x = some (.free x)) ∧
    (netEffect log).1.Nodup ∧ (netEffect log).2.Nodup := by
  induction log using List.reverseRecOn with
  | nil => simp [netEffect, lastRec_nil]
  | append_singleton log e ih =>
    -- the record appended last decides its block and no other
    obtain ⟨hA, hF, hAn, hFn⟩ := ih
    cases e with
    | alloc y =>
      rw [netEffect_concat_alloc]
      refine ⟨fun x => ?_, fun x => ?_, hAn.insert, hFn.filter _⟩
      · rw [mem_multisetAdd, lastRec_concat_alloc, hA]
        by_cases h : y = x
        · simp [h]
        · simp [h]
      · rw [mem_multisetDel, lastRec_concat_alloc, hF]
        by_cases h : y = x
        · simp [h]
        · simp [h]
    | free y =>
      rw [netEffect_concat_free]
      refine ⟨fun x => ?_, fun x => ?_, hAn.filter _, hFn.insert⟩
      · rw [mem_multisetDel, lastRec_concat_free, hA]
        by_cases h : y = x
        · simp [h]
        · simp [h]
      · rw [mem_multisetAdd, lastRec_concat_free, hF]
        by_cases h : y = x
        · simp [h]
        · simp [h]

theorem mem_sortedIndices (m : List Nat) (x : Nat) : x ∈ sortedIndices m ↔ x ∈ m :=
  List.mem_insertionSort _

/-- The indices of a multiset without repeats ascend strictly. -/
theorem sortedIndices_pairwise {m : List Nat} (h : m.Nodup) :
    (sortedIndices m).Pairwise (· < ·) := by
  have hle : (sortedIndices m).Pairwise (· ≤ ·) := List.pairwise_insertionSort _ m
  have hnd : (sortedIndices m).Nodup := (List.perm_insertionSort _ m).nodup_iff.mpr h
  exact (hle.and hnd).imp fun hab => Nat.lt_of_le_of_ne hab.1 hab.2

/-! ## The walk over the allocated blocks -/

/-- The walk's invariant, after the blocks of `done`, from the saved end `L₀`
and the saved free blocks `F₀`. -/
structure Walk (L₀ : Nat) (F₀ done : List Nat) (b : Bucket) : Prop where
  le : L₀ ≤ b.lastBlock
  lt : ∀ d ∈ done, d < b.lastBlock
  top : b.lastBlock = L₀ ∨ ∃ d ∈ done, b.lastBlock = d + 1
  free : ∀ x, x ∈ b.freeBlocks ↔ (x ∈ F₀ ∨ (L₀ ≤ x ∧ x < b.lastBlock)) ∧ x ∉ done
  nodup : b.freeBlocks.Nodup

theorem Walk.free_lt {L₀ : Nat} {F₀ done : List Nat} {b : Bucket} (hF₀ : ∀ f ∈ F₀, f < L₀)
    (h : Walk L₀ F₀ done b) {x : Nat} (hx : x ∈ b.freeBlocks) : x < b.lastBlock := by
  have hle := h.le
  rcases ((h.free x).mp hx).1 with hsaved | hskipped
  · have := hF₀ x hsaved
    omega
  · exact hskipped.2

/-- A block past the end: the file grows up to it, and the blocks skipped become free. -/
theorem Walk.extend {L₀ a : Nat} {F₀ done : List Nat} {b : Bucket}
    (hF₀ : ∀ f ∈ F₀, f < L₀) (ha : ∀ d ∈ done, d < a) (h : Walk L₀ F₀ done b)
    (hge : b.lastBlock ≤ a) :
    Walk L₀ F₀ (done ++ [a]) { b with
      freeBlocks := b.freeBlocks ++ List.range' b.lastBlock (a - b.lastBlock)
      lastBlock := a + 1
      dirty := true } := by
  have hle := h.le
  refine ⟨show L₀ ≤ a + 1 by omega, ?_, Or.inr ⟨a, by simp, rfl⟩, fun x => ?_, ?_⟩
  · intro d hd
    show d < a + 1
    rcases List.mem_append.mp hd with hd | hd
    · have := ha d hd
      omega
    · have : d = a := by simpa using hd
      omega
  · have hiff := h.free x
    show x ∈ b.freeBlocks ++ List.range' b.lastBlock (a - b.lastBlock) ↔
      (x ∈ F₀ ∨ (L₀ ≤ x ∧ x < a + 1)) ∧ x ∉ done ++ [a]
    rw [List.mem_append, List.mem_range'_1, hiff, List.mem_append, List.mem_singleton]
    constructor
    -- a block that was free, one that an earlier step skipped, one skipped now
    · intro hor
      obtain ⟨hx | hx, hn⟩ | hx := hor
      · have := hF₀ x hx
        exact ⟨Or.inl hx, by rintro (hd | rfl); exacts [hn hd, by omega]⟩
      · exact ⟨Or.inr ⟨hx.1, by omega⟩, by rintro (hd | rfl); exacts [hn hd, by omega]⟩
      · refine ⟨Or.inr ⟨by omega, by omega⟩, ?_⟩
        intro hor
        obtain hd | rfl := hor
        · have := h.lt x hd
          omega
        · omega
    · intro hand
      obtain ⟨hx | hx, hn⟩ := hand
      · exact Or.inl ⟨Or.inl hx, fun hd => hn (Or.inl hd)⟩
      · have hxa : x ≠ a := fun e => hn (Or.inr e)
        by_cases hlt : x < b.lastBlock
        · exact Or.inl ⟨Or.inr ⟨hx.1, hlt⟩, fun hd => hn (Or.inl hd)⟩
        · exact Or.inr ⟨by omega, by omega⟩
  · refine List.Nodup.append h.nodup List.nodup_range' ?_
    intro x hx hr
    rw [List.mem_range'_1] at hr
    have := h.free_lt hF₀ hx
    omega

/-- A block below the end comes off the free list. -/
theorem Walk.take {L₀ a : Nat} {F₀ done : List Nat} {b : Bucket} (h : Walk L₀ F₀ done b)
    (hlt : a < b.lastBlock) :
    Walk L₀ F₀ (done ++ [a])
      { b with freeBlocks := b.freeBlocks.filter (· ≠ a), dirty := true } := by
  refine ⟨h.le, ?_, ?_, fun x => ?_, h.nodup.filter _⟩
  · intro d hd
    rcases List.mem_append.mp hd with hd | hd
    · exact h.lt d hd
    · have : d = a := by simpa using hd
      exact this ▸ hlt
  · rcases h.top with ht | ⟨d, hd, ht⟩
    · exact Or.inl ht
    · exact Or.inr ⟨d, List.mem_append_left _ hd, ht⟩
  · rw [List.mem_filter, h.free x, List.mem_append, List.mem_singleton]
    simp only [decide_eq_true_eq, not_or]
    exact ⟨fun ⟨⟨h1, h2⟩, h3⟩ => ⟨h1, h2, h3⟩, fun ⟨h1, h2, h3⟩ => ⟨⟨h1, h2⟩, h3⟩⟩

/-- One turn of the walk, on a block above all earlier ones. -/
theorem restoreAlloced_walk {L₀ a : Nat} {F₀ done : List Nat} {b : Bucket}
    (hF₀ : ∀ f ∈ F₀, f < L₀) (ha : ∀ d ∈ done, d < a) (h : Walk L₀ F₀ done b) :
    Walk L₀ F₀ (done ++ [a]) (restoreAlloced b a) := by
  unfold restoreAlloced
  split
  next hge => exact h.extend hF₀ ha hge
  next hlt =>
    have htake := h.take (Nat.lt_of_not_ge hlt)
    split
    next => exact htake
    next hnot =>
      -- a block that is not on the list need not come off it
      have hsame : b.freeBlocks.filter (· ≠ a) = b.freeBlocks := by
        refine List.filter_eq_self.mpr fun x hx => ?_
        simpa using fun e : x = a => hnot (e ▸ hx)
      exact ⟨h.le, htake.lt, htake.top, fun x => hsame ▸ htake.free x, h.nodup⟩

theorem foldl_restoreAlloced_walk {L₀ : Nat} {F₀ : List Nat} (hF₀ : ∀ f ∈ F₀, f < L₀) :
    ∀ (l done : List Nat) (b : Bucket), l.Pairwise (· < ·) → (∀ d ∈ done, ∀ a ∈ l, d < a) →
      Walk L₀ F₀ done b → Walk L₀ F₀ (done ++ l) (l.foldl restoreAlloced b) := by
  intro l
  induction l with
  | nil => intro done b _ _ h; rwa [List.append_nil]
  | cons a l ih =>
    intro done b hp hlt h
    rw [List.foldl_cons, show done ++ a :: l = (done ++ [a]) ++ l by simp]
    rw [List.pairwise_cons] at hp
    refine ih (done ++ [a]) (restoreAlloced b a) hp.2 ?_
      (restoreAlloced_walk hF₀ (fun d hd => hlt d hd a (List.mem_cons_self ..)) h)
    intro d hd x hx
    rcases List.mem_append.mp hd with hd | hd
    · exact hlt d hd x (List.mem_cons_of_mem _ hx)
    · have : d = a := by simpa using hd
      exact this ▸ hp.1 x hx

/-! ## The restored state -/

theorem foldl_writeAt_frame (fr : List Nat) (d : Lib.Bytes) :
    ∀ b : Bucket, (fr.foldl (fun b' f => b'.writeAt f d) b).freeBlocks = b.freeBlocks ∧
      (fr.foldl (fun b' f => b'.writeAt f d) b).lastBlock = b.lastBlock ∧
      (fr.foldl (fun b' f => b'.writeAt f d) b).size = b.size := by
  induction fr with
  | nil => intro b; exact ⟨rfl, rfl, rfl⟩
  | cons f fr ih => intro b; exact ih (b.writeAt f d)

/-- Adding the freed blocks leaves the end of the file where it is. -/
theorem restoreFreed_spec (b : Bucket) {freed : List Nat} (hn : b.freeBlocks.Nodup)
    (hf : freed.Nodup) :
    (restoreFreed b freed).lastBlock = b.lastBlock ∧
    (∀ x, x ∈ (restoreFreed b freed).freeBlocks ↔ x ∈ b.freeBlocks ∨ x ∈ freed) ∧
    (restoreFreed b freed).freeBlocks.Nodup := by
  have hmem : ∀ x, x ∈ (sortedIndices freed).filter (· ∉ b.freeBlocks) ↔
      x ∈ freed ∧ x ∉ b.freeBlocks := by
    intro x
    rw [List.mem_filter, mem_sortedIndices]
    simp
  have hfr : ((sortedIndices freed).filter (· ∉ b.freeBlocks)).Nodup :=
    ((List.perm_insertionSort _ freed).nodup_iff.mpr hf).filter _
  simp only [restoreFreed]
  -- nothing new to free: the source returns before it writes
  split
  next hnil =>
    refine ⟨rfl, fun x => ⟨Or.inl, ?_⟩, hn⟩
    intro h
    obtain hx | hx := h
    · exact hx
    · by_contra hb
      have := (hmem x).mpr ⟨hx, hb⟩
      rw [hnil] at this
      exact absurd this (by simp)
  next =>
    obtain ⟨hfree, hlast, -⟩ := foldl_writeAt_frame
      ((sortedIndices freed).filter (· ∉ b.freeBlocks)) (freeMark b.size)
      { b with freeBlocks := b.freeBlocks ++ (sortedIndices freed).filter (· ∉ b.freeBlocks)
               dirty := true }
    refine ⟨hlast, fun x => ?_, ?_⟩
    · rw [hfree, List.mem_append, hmem]
      constructor
      · intro h
        obtain hx | hx := h
        exacts [Or.inl hx, Or.inr hx.1]
      · intro h
        obtain hx | hx := h
        · exact Or.inl hx
        · by_cases hb : x ∈ b.freeBlocks
          exacts [Or.inl hb, Or.inr ⟨hx, hb⟩]
    · rw [hfree]
      exact hn.append hfr fun x hx hx' => ((hmem x).mp hx').2 hx

/-- **What a restore computes**, from a saved pair whose free blocks lie below
its end. -/
theorem restoreFromLog_spec {b : Bucket} (log : List BucketRec)
    (hlt : ∀ f ∈ b.freeBlocks, f < b.lastBlock) (hn : b.freeBlocks.Nodup) :
    b.lastBlock ≤ (b.restoreFromLog log).lastBlock ∧
    (∀ a, lastRec log a = some (.alloc a) → a < (b.restoreFromLog log).lastBlock) ∧
    ((b.restoreFromLog log).lastBlock = b.lastBlock ∨
      ∃ a, lastRec log a = some (.alloc a) ∧ (b.restoreFromLog log).lastBlock = a + 1) ∧
    (∀ x, x ∈ (b.restoreFromLog log).freeBlocks ↔
      ((x ∈ b.freeBlocks ∨ (b.lastBlock ≤ x ∧ x < (b.restoreFromLog log).lastBlock)) ∧
        lastRec log x ≠ some (.alloc x)) ∨ lastRec log x = some (.free x)) ∧
    (b.restoreFromLog log).freeBlocks.Nodup := by
  obtain ⟨hA, hF, hAn, hFn⟩ := netEffect_spec log
  -- the allocated blocks first, in ascending order, then the freed ones
  have hwalk := foldl_restoreAlloced_walk hlt (sortedIndices (netEffect log).1) [] b
    (sortedIndices_pairwise hAn) (by simp)
    ⟨Nat.le_refl _, by simp, Or.inl rfl, fun x => by
      constructor
      · intro hx; exact ⟨Or.inl hx, by simp⟩
      · intro h
        obtain ⟨hx | hx, -⟩ := h
        · exact hx
        · omega, hn⟩
  rw [List.nil_append] at hwalk
  obtain ⟨hlast, hfree, hnd⟩ := restoreFreed_spec
    ((sortedIndices (netEffect log).1).foldl restoreAlloced b) hwalk.nodup hFn
  have hmemA : ∀ x, x ∈ sortedIndices (netEffect log).1 ↔ lastRec log x = some (.alloc x) :=
    fun x => (mem_sortedIndices _ x).trans (hA x)
  have hdef : b.restoreFromLog log
      = restoreFreed ((sortedIndices (netEffect log).1).foldl restoreAlloced b)
          (netEffect log).2 := rfl
  rw [hdef, hlast]
  refine ⟨hwalk.le, fun a ha => hwalk.lt a ((hmemA a).mpr ha), ?_, fun x => ?_, hnd⟩
  · rcases hwalk.top with ht | ⟨d, hd, ht⟩
    · exact Or.inl ht
    · exact Or.inr ⟨d, (hmemA d).mp hd, ht⟩
  · rw [hfree, hwalk.free, hmemA, hF]

end Bucket

/-! ## The allocator as a state machine -/

/-- A bucket, what was saved of it, the records logged since, and (not part of
the program) the blocks handed out and not given back. -/
structure BucketSys where
  bucket : Bucket
  saved : Nat × List Nat
  log : List BucketRec
  used : List Nat
  deriving Repr

/-- What can happen to a bucket. -/
inductive BucketOp where
  | allocate
  | free (offset : Nat)
  | save
  | reopen
  deriving DecidableEq, Repr

namespace BucketSys

/-- The empty bucket of a block size. -/
def empty (size : Nat) : BucketSys :=
  { bucket := Bucket.create size none [], saved := (0, []), log := [], used := [] }

/-- One event. Only a block in use can be given back; a reopened bucket starts
from the saved pair and the records logged since it was saved. -/
def step (s : BucketSys) : BucketOp → Option BucketSys
  | .allocate =>
    let (blk, entry, b) := s.bucket.allocateEntry
    some { s with bucket := b, log := s.log ++ [entry], used := blk :: s.used }
  | .free o =>
    if o ∈ s.used then
      let (entry, b) := s.bucket.freeEntry o
      some { s with bucket := b, log := s.log ++ [entry], used := s.used.filter (· ≠ o) }
    else none
  | .save =>
    some { s with bucket := { s.bucket with dirty := false }
                  saved := s.bucket.saveFreeBlocks
                  log := [] }
  | .reopen =>
    some { s with bucket :=
      (Bucket.create s.bucket.size (some s.saved) s.bucket.file).restoreFromLog s.log }

/-- The allocator invariant: the free list has no duplicates and lies below the
end of the file, and the next allocation does not return a block in use. -/
structure AllocInv (s : BucketSys) : Prop where
  nodup : s.bucket.freeBlocks.Nodup
  lt : ∀ f ∈ s.bucket.freeBlocks, f < s.bucket.lastBlock
  fresh : s.bucket.allocateEntry.1 ∉ s.used

/-- The step does not reopen a bucket whose top block is free: every block last
recorded as freed lies below the saved end, or below a block last recorded as
allocated. -/
def ReopenBelow (s : BucketSys) : BucketOp → Prop
  | .reopen => ∀ f, lastRec s.log f = some (.free f) →
      f < s.saved.1 ∨ ∃ a, lastRec s.log a = some (.alloc a) ∧ f < a
  | _ => True

/-- The side invariant: the saved pair is well formed, blocks in use are below
the end and not free, and the log accounts for the difference between the saved
state and the present one. -/
structure Tracks (s : BucketSys) : Prop where
  savedLt : ∀ f ∈ s.saved.2, f < s.saved.1
  savedNodup : s.saved.2.Nodup
  savedLe : s.saved.1 ≤ s.bucket.lastBlock
  usedLt : ∀ x ∈ s.used, x < s.bucket.lastBlock
  usedFree : ∀ x ∈ s.used, x ∉ s.bucket.freeBlocks
  recAlloc : ∀ x, lastRec s.log x = some (.alloc x) → x ∈ s.used
  recFree : ∀ x, lastRec s.log x = some (.free x) → x ∈ s.bucket.freeBlocks
  noRec : ∀ x, lastRec s.log x = none →
    (x ∈ s.bucket.freeBlocks ↔ x ∈ s.saved.2) ∧ (x < s.bucket.lastBlock → x < s.saved.1)

/-- A state the log accounts for, with a sound free list, satisfies the
invariant. -/
theorem allocInv_of_tracks {s : BucketSys} (h : Tracks s) (hn : s.bucket.freeBlocks.Nodup)
    (hlt : ∀ f ∈ s.bucket.freeBlocks, f < s.bucket.lastBlock) : AllocInv s := by
  refine ⟨hn, hlt, ?_⟩
  rcases s.bucket.allocateEntry_cases with ⟨f, fs, hf, he⟩ | ⟨-, he⟩
  · rw [he]
    exact fun hu => h.usedFree f hu (by simp [hf])
  · rw [he]
    exact fun hu => Nat.lt_irrefl _ (h.usedLt _ hu)

/-- Everything an allocation does to the system. -/
theorem step_allocate_cases {s s' : BucketSys} (hs : s.step .allocate = some s') :
    (∃ f ∈ s.bucket.freeBlocks, s' = { s with
        bucket := { s.bucket with freeBlocks := s.bucket.freeBlocks.filter (· ≠ f), dirty := true }
        log := s.log ++ [.alloc f], used := f :: s.used }) ∨
    (s.bucket.freeBlocks = [] ∧ s' = { s with
        bucket := { s.bucket with lastBlock := s.bucket.lastBlock + 1, dirty := true }
        log := s.log ++ [.alloc s.bucket.lastBlock], used := s.bucket.lastBlock :: s.used }) := by
  simp only [step, Option.some.injEq] at hs
  subst hs
  rcases s.bucket.allocateEntry_cases with ⟨f, fs, hf, he⟩ | ⟨hnil, he⟩
  · exact Or.inl ⟨f, by simp [hf], by rw [he]⟩
  · exact Or.inr ⟨hnil, by rw [he]⟩

/-- A block last recorded as allocated is still in use after one more allocation. -/
theorem Tracks.recAlloc_concat {s : BucketSys} (h : Tracks s) (f : Nat) :
    ∀ x, lastRec (s.log ++ [.alloc f]) x = some (.alloc x) → x ∈ f :: s.used := by
  intro x hx
  obtain ⟨rfl, -⟩ | ⟨-, hx⟩ := lastRec_concat_eq_some hx
  · exact List.mem_cons_self ..
  · exact List.mem_cons_of_mem _ (h.recAlloc x hx)

theorem step_allocate_tracks {s s' : BucketSys} (h : Tracks s) (hP : AllocInv s)
    (hs : s.step .allocate = some s') : Tracks s' ∧ AllocInv s' := by
  suffices hT : Tracks s' ∧ s'.bucket.freeBlocks.Nodup ∧
      ∀ f ∈ s'.bucket.freeBlocks, f < s'.bucket.lastBlock from
    ⟨hT.1, allocInv_of_tracks hT.1 hT.2.1 hT.2.2⟩
  rcases step_allocate_cases hs with ⟨f, hfmem, rfl⟩ | ⟨hnil, rfl⟩
  · -- the block comes off the free list
    have hsub : ∀ x, x ∈ s.bucket.freeBlocks.filter (· ≠ f) ↔ x ∈ s.bucket.freeBlocks ∧ x ≠ f := by
      intro x
      rw [List.mem_filter]
      simp
    refine ⟨⟨h.savedLt, h.savedNodup, h.savedLe, ?_, ?_, ?_, ?_, ?_⟩, hP.nodup.filter _, ?_⟩
    · intro x hx
      rcases List.mem_cons.mp hx with rfl | hx
      exacts [hP.lt _ hfmem, h.usedLt x hx]
    · intro x hx
      rw [hsub]
      rcases List.mem_cons.mp hx with rfl | hx
      · exact fun hc => hc.2 rfl
      · exact fun hc => h.usedFree x hx hc.1
    · exact h.recAlloc_concat _
    · intro x hx
      obtain ⟨-, he⟩ | ⟨hne, hx⟩ := lastRec_concat_eq_some hx
      · cases he
      · exact (hsub x).mpr ⟨h.recFree x hx, Ne.symm hne⟩
    · intro x hx
      obtain ⟨hne, hx⟩ := lastRec_concat_eq_none hx
      refine ⟨?_, (h.noRec x hx).2⟩
      rw [hsub, (h.noRec x hx).1]
      exact ⟨fun hc => hc.1, fun hc => ⟨hc, Ne.symm hne⟩⟩
    · intro x hx
      exact hP.lt x ((hsub x).mp hx).1
  · -- the file grows by one block
    have hfree : ∀ x, x ∉ s.bucket.freeBlocks := fun x => by simp [hnil]
    refine ⟨⟨h.savedLt, h.savedNodup, Nat.le_succ_of_le h.savedLe, ?_,
      fun x _ => hfree x, ?_, ?_, ?_⟩, hP.nodup, fun x hx => absurd hx (hfree x)⟩
    · intro x hx
      rcases List.mem_cons.mp hx with rfl | hx
      · exact Nat.lt_succ_self _
      · exact Nat.lt_succ_of_lt (h.usedLt x hx)
    · exact h.recAlloc_concat _
    · intro x hx
      obtain ⟨-, he⟩ | ⟨-, hx⟩ := lastRec_concat_eq_some hx
      · cases he
      · exact h.recFree x hx
    · intro x hx
      obtain ⟨hne, hx⟩ := lastRec_concat_eq_none hx
      refine ⟨(h.noRec x hx).1, fun hlt => (h.noRec x hx).2 ?_⟩
      exact Nat.lt_of_le_of_ne (Nat.le_of_lt_succ hlt) (Ne.symm hne)

theorem step_free_tracks {s s' : BucketSys} {o : Nat} (h : Tracks s) (hP : AllocInv s)
    (hs : s.step (.free o) = some s') : Tracks s' ∧ AllocInv s' := by
  simp only [step] at hs
  split at hs
  next ho =>
    simp only [Option.some.injEq] at hs
    subst hs
    have hon : o ∉ s.bucket.freeBlocks := h.usedFree o ho
    have hused : ∀ x, x ∈ s.used.filter (· ≠ o) ↔ x ∈ s.used ∧ x ≠ o := by
      intro x
      rw [List.mem_filter]
      simp
    have hfree : ∀ x, x ∈ s.bucket.freeBlocks ++ [o] ↔ x ∈ s.bucket.freeBlocks ∨ x = o := by
      intro x
      simp
    -- `AllocInv` follows from `Tracks` once the free list is known
    suffices hT : Tracks { s with
        bucket := (s.bucket.freeEntry o).2, log := s.log ++ [(s.bucket.freeEntry o).1],
        used := s.used.filter (· ≠ o) } from
      ⟨hT, allocInv_of_tracks hT
        (hP.nodup.append (List.nodup_singleton o) fun x hx hxo => by
          obtain rfl : x = o := by simpa using hxo
          exact hon hx)
        fun x hx => ((hfree x).mp hx).elim (hP.lt x) fun e => e ▸ h.usedLt o ho⟩
    refine ⟨h.savedLt, h.savedNodup, h.savedLe, ?_, ?_, ?_, ?_, ?_⟩
    · intro x hx
      exact h.usedLt x ((hused x).mp hx).1
    · intro x hx hf
      obtain ⟨hxu, hxo⟩ := (hused x).mp hx
      exact ((hfree x).mp hf).elim (h.usedFree x hxu) hxo
    · intro x hx
      obtain ⟨-, he⟩ | ⟨hne, hx⟩ := lastRec_concat_eq_some hx
      · cases he
      · exact (hused x).mpr ⟨h.recAlloc x hx, Ne.symm hne⟩
    · intro x hx
      refine (hfree x).mpr ?_
      obtain ⟨hxo, -⟩ | ⟨-, hx⟩ := lastRec_concat_eq_some hx
      · exact Or.inr hxo.symm
      · exact Or.inl (h.recFree x hx)
    · intro x hx
      obtain ⟨hne, hx⟩ := lastRec_concat_eq_none hx
      refine ⟨Iff.trans ?_ (h.noRec x hx).1, (h.noRec x hx).2⟩
      rw [show x ∈ (s.bucket.freeEntry o).2.freeBlocks ↔ _ from hfree x]
      exact ⟨fun hc => hc.elim id fun e => absurd e.symm hne, Or.inl⟩
  next => cases hs

theorem step_save_tracks {s s' : BucketSys} (h : Tracks s) (hP : AllocInv s)
    (hs : s.step .save = some s') : Tracks s' ∧ AllocInv s' := by
  simp only [step, Option.some.injEq] at hs
  subst hs
  refine ⟨⟨hP.lt, hP.nodup, Nat.le_refl _, h.usedLt, h.usedFree, ?_, ?_, ?_⟩,
    ⟨hP.nodup, hP.lt, hP.fresh⟩⟩
  · intro x hx; cases hx
  · intro x hx; cases hx
  · intro x _; exact ⟨Iff.rfl, id⟩

/-- The bucket that a reopen makes. -/
def restored (s : BucketSys) : Bucket :=
  (Bucket.create s.bucket.size (some s.saved) s.bucket.file).restoreFromLog s.log

theorem restored_spec {s : BucketSys} (h : Tracks s) :
    s.saved.1 ≤ s.restored.lastBlock ∧
    (∀ a, lastRec s.log a = some (.alloc a) → a < s.restored.lastBlock) ∧
    (s.restored.lastBlock = s.saved.1 ∨
      ∃ a, lastRec s.log a = some (.alloc a) ∧ s.restored.lastBlock = a + 1) ∧
    (∀ x, x ∈ s.restored.freeBlocks ↔
      ((x ∈ s.saved.2 ∨ (s.saved.1 ≤ x ∧ x < s.restored.lastBlock)) ∧
        lastRec s.log x ≠ some (.alloc x)) ∨ lastRec s.log x = some (.free x)) ∧
    s.restored.freeBlocks.Nodup :=
  Bucket.restoreFromLog_spec (b := Bucket.create s.bucket.size (some s.saved) s.bucket.file)
    s.log h.savedLt h.savedNodup

/-- With every freed block below the restored end, that is the end there was. -/
theorem restored_lastBlock {s : BucketSys} (h : Tracks s) (hC : ReopenBelow s .reopen) :
    s.restored.lastBlock = s.bucket.lastBlock := by
  obtain ⟨hge, halloc, htop, -, -⟩ := restored_spec h
  apply Nat.le_antisymm
  · rcases htop with ht | ⟨a, ha, ht⟩
    · have := h.savedLe
      omega
    · have := h.usedLt a (h.recAlloc a ha)
      omega
  · by_contra hlt
    -- the block below the present end has a record, and it is neither 'A' nor 'F'
    rcases lastRec_cases s.log (s.bucket.lastBlock - 1) with hx | hx | hx
    · have := (h.noRec _ hx).2 (by omega)
      omega
    · have := halloc _ hx
      omega
    · rcases hC _ hx with hsv | ⟨a, ha, hlt'⟩
      · omega
      · have := halloc a ha
        omega

/-- The same blocks are free then. -/
theorem mem_restored {s : BucketSys} (h : Tracks s) (hC : ReopenBelow s .reopen) (x : Nat) :
    x ∈ s.restored.freeBlocks ↔ x ∈ s.bucket.freeBlocks := by
  obtain ⟨-, -, -, hfree, -⟩ := restored_spec h
  rw [hfree x, restored_lastBlock h hC]
  rcases lastRec_cases s.log x with hx | hx | hx
  · rw [(h.noRec x hx).1, hx]
    constructor
    · intro hor
      obtain ⟨h1 | h1, -⟩ | h1 := hor
      · exact h1
      · have := (h.noRec x hx).2 (by omega)
        omega
      · cases h1
    · intro h1
      exact Or.inl ⟨Or.inl h1, by simp⟩
  · have hnf : x ∉ s.bucket.freeBlocks := h.usedFree x (h.recAlloc x hx)
    rw [hx]
    simp [hnf]
  · exact iff_of_true (Or.inr hx) (h.recFree x hx)

theorem restored_tracks {s : BucketSys} (h : Tracks s) (hC : ReopenBelow s .reopen) :
    Tracks { s with bucket := s.restored } := by
  have hlast := restored_lastBlock h hC
  have hfree := mem_restored h hC
  refine ⟨h.savedLt, h.savedNodup, (restored_spec h).1, ?_, ?_, h.recAlloc, ?_, ?_⟩
  · intro x hx
    rw [hlast]
    exact h.usedLt x hx
  · intro x hx
    rw [hfree]
    exact h.usedFree x hx
  · intro x hx
    rw [hfree]
    exact h.recFree x hx
  · intro x hx
    rw [hfree, hlast]
    exact h.noRec x hx

/-- A reopened bucket keeps the invariant exactly when no freed block is left at
or past the restored end; it then has the same end and the same free blocks as
before the restart. -/
theorem step_reopen_inv {s s' : BucketSys} (h : Tracks s) (hP : AllocInv s)
    (hs : s.step .reopen = some s') :
    (AllocInv s' ↔ ReopenBelow s .reopen) ∧ (ReopenBelow s .reopen → Tracks s') := by
  obtain rfl : { s with bucket := s.restored } = s' := Option.some.inj hs
  obtain ⟨-, -, htop, hfree, hnd⟩ := restored_spec h
  refine ⟨⟨fun hI f hf => ?_, fun hC => ?_⟩, restored_tracks h⟩
  · by_contra hcon
    rw [not_or] at hcon
    have hfl : f < s.restored.lastBlock := hI.lt f ((hfree f).mpr (Or.inr hf))
    rcases htop with ht | ⟨a, ha, ht⟩
    · exact hcon.1 (by omega)
    · refine hcon.2 ⟨a, ha, Nat.lt_of_le_of_ne (by omega) ?_⟩
      intro heq
      subst heq
      rw [hf] at ha
      cases ha
  · refine allocInv_of_tracks (restored_tracks h hC) hnd fun x hx => ?_
    change x < s.restored.lastBlock
    rw [restored_lastBlock h hC]
    exact hP.lt x ((mem_restored h hC x).mp hx)

theorem empty_tracks (size : Nat) : Tracks (empty size) :=
  ⟨by simp [empty], by simp [empty], Nat.zero_le _, by simp [empty], by simp [empty],
    fun x hx => by simp [empty, lastRec_nil] at hx, fun x hx => by simp [empty, lastRec_nil] at hx,
    fun x _ => by simp [empty, Bucket.create]⟩

theorem empty_allocInv (size : Nat) : AllocInv (empty size) :=
  allocInv_of_tracks (empty_tracks size) (by simp [empty, Bucket.create])
    (by simp [empty, Bucket.create])

/-- **The allocator invariant of a bucket.** Over any sequence of allocations,
frees of blocks in use, saves and reopens from an empty bucket, the free list is
free of duplicates and below the end of the file and no allocation returns a
block in use, in every state reached, exactly when no reopen finds the top
block of the file free. -/
theorem alloc_inv_iff (size : Nat) (ops : List BucketOp) :
    Always step AllocInv (empty size) ops ↔ EachStep step ReopenBelow (empty size) ops := by
  refine always_iff_eachStep (I := Tracks) (H := fun _ _ => True) ?_ ?_ ?_ ops (empty size)
    (empty_tracks size) (empty_allocInv size) (eachStep_of_forall (fun _ _ => trivial) ops _)
  · intro s a hs
    cases a with
    | reopen => simp [step] at hs
    | _ => exact trivial
  · intro s a s' hI hP _ hC hs
    cases a with
    | allocate => exact (step_allocate_tracks hI hP hs).1
    | free o => exact (step_free_tracks hI hP hs).1
    | save => exact (step_save_tracks hI hP hs).1
    | reopen => exact (step_reopen_inv hI hP hs).2 hC
  · intro s a s' hI hP _ hs
    cases a with
    | allocate => exact iff_of_true (step_allocate_tracks hI hP hs).2 trivial
    | free o => exact iff_of_true (step_free_tracks hI hP hs).2 trivial
    | save => exact iff_of_true (step_save_tracks hI hP hs).2 trivial
    | reopen => exact (step_reopen_inv hI hP hs).1

/-- Allocate a block, give it back, restart: the free list then holds block 0 in
a file of no blocks. -/
theorem reopen_top_free :
    ¬ Always step AllocInv (empty 16) [.allocate, .free 0, .reopen] := by
  intro h
  have hlt := (h.2 _ rfl).2 _ rfl |>.2 _ rfl |>.lt 0 (by decide)
  exact absurd hlt (by decide)

/-- After that restart two allocations in a row return the same block. -/
example : ((runFrom step (empty 16) [.allocate, .free 0, .reopen, .allocate, .allocate]).map
    BucketSys.used) = some [0, 0] := by decide

end BucketSys

end Caudium.Pdb
