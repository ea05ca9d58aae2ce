import Caudium.Pdb.Table

/-!
# No two live keys share a block

What a db is for is a mapping from (table, key) to the string last stored:
`Store`. `Sound d m` says that `d` realises `m`: every live entry points at a
block of its own, below the end of its bucket and off the free list, and that
block begins with the string `m` has.

A `set` that moves a key goes through three states, and the block it has
allocated is in none of them live, free or past the end: `Reserved`. The
allocation makes a reserved block, the delete of the old entry keeps it
reserved (the freed block is another one, so the "FREE" stamp falls elsewhere),
and writing the index turns it into a live one. `no_block_sharing` puts the
three clauses of the allocator's contract together for every sequence of calls.
-/

namespace Caudium.Pdb

open Lib (Str Bytes Mapping pwrite pread Holds)

/-! ## The size scheme and block ranges -/

/-- A string of at most 2^31 bytes gets a power of two that holds it. -/
theorem findNearest2x_fits {n : Nat} (h : n ≤ 2 ^ 31) :
    n ≤ findNearest2x n ∧ 16 ≤ findNearest2x n := by
  unfold findNearest2x
  cases hf : (List.range' 4 28).find? (fun b => n ≤ 2 ^ b) with
  | none =>
    have hall := List.find?_eq_none.mp hf 31 (by simp [List.mem_range'_1])
    exact absurd (decide_eq_true h) hall
  | some b =>
    have hle : n ≤ 2 ^ b := of_decide_eq_true (List.find?_some (p := fun b => n ≤ 2 ^ b) hf)
    have hb := List.mem_range'_1.mp (List.mem_of_find?_eq_some hf)
    exact ⟨hle, Nat.pow_le_pow_right (by decide : 0 < 2) hb.1⟩

/-- A longer string falls out of the loop. -/
theorem findNearest2x_long {n : Nat} (h : 2 ^ 31 < n) : findNearest2x n = 0 := by
  unfold findNearest2x
  have hnone : (List.range' 4 28).find? (fun b => n ≤ 2 ^ b) = none := by
    refine List.find?_eq_none.mpr fun b hb => ?_
    have hlt := List.mem_range'_1.mp hb
    have hpow : 2 ^ b ≤ 2 ^ 31 := Nat.pow_le_pow_right (by decide) (by omega)
    simp only [decide_eq_true_eq, Nat.not_le]
    omega
  rw [hnone]

/-- Different blocks of one size occupy disjoint ranges. -/
theorem blocks_disjoint {o o' s m n : Nat} (hne : o ≠ o') (hm : m ≤ s) (hn : n ≤ s) :
    o' * s + n ≤ o * s ∨ o * s + m ≤ o' * s := by
  rcases Nat.lt_or_gt_of_ne hne with hlt | hgt
  · have := Nat.mul_le_mul_right s (Nat.succ_le_of_lt hlt)
    rw [Nat.succ_mul] at this
    exact Or.inr (by omega)
  · have := Nat.mul_le_mul_right s (Nat.succ_le_of_lt hgt)
    rw [Nat.succ_mul] at this
    exact Or.inl (by omega)

theorem length_freeMark_le {s : Nat} (h : 0 < s) : (Bucket.freeMark s).length ≤ s := by
  unfold Bucket.freeMark
  split
  · exact h
  next hs => exact Nat.not_lt.mp hs

/-! ## What a db is for -/

/-- The string last stored under each key of each table. -/
abbrev Store := Str → Str → Option Bytes

namespace Store

/-- The key holds `v`. -/
def upd (m : Store) (t key : Str) (v : Option Bytes) : Store :=
  fun t' key' => if t' = t ∧ key' = key then v else m t' key'

/-- What one call does to the store: a `set` of a string past the size scheme is
refused. -/
def apply {V : Type} (c : Codec V) (compress : Bool) (m : Store) : TableOp V → Store
  | .set tname key v =>
    if (c.toBlock compress v).length ≤ 2 ^ 31 then
      m.upd (tableName tname) key (some (c.toBlock compress v))
    else m
  | .delete tname key => m.upd (tableName tname) key none
  | .purge tname => fun t key => if t = tableName tname then none else m t key

/-- What a sequence of calls leaves in an empty store. -/
def ofOps {V : Type} (c : Codec V) (compress : Bool) (ops : List (TableOp V)) : Store :=
  ops.foldl (apply c compress) fun _ _ => none

end Store

namespace Db

/-- `d` realises `m`, every live entry with a block of its own. -/
structure Sound (d : Db) (m : Store) : Prop where
  write : d.write = true
  size : ∀ s, (d.bucketOf s).size = s
  nodup : ∀ s, (d.bucketOf s).freeBlocks.Nodup
  below : ∀ s, ∀ o ∈ (d.bucketOf s).freeBlocks, o < (d.bucketOf s).lastBlock
  dead : ∀ t key, (d.indexOf t).lookup key = none → m t key = none
  alone : ∀ t key t' key' i, (d.indexOf t).lookup key = some i →
    (d.indexOf t').lookup key' = some i → t = t' ∧ key = key'
  room : ∀ t key i, (d.indexOf t).lookup key = some i → 16 ≤ i.1
  owned : ∀ t key i, (d.indexOf t).lookup key = some i → i.2 < (d.bucketOf i.1).lastBlock
  busy : ∀ t key i, (d.indexOf t).lookup key = some i → i.2 ∉ (d.bucketOf i.1).freeBlocks
  stored : ∀ t key i, (d.indexOf t).lookup key = some i →
    ∃ ts, m t key = some ts ∧ ts.length ≤ i.1 ∧ Holds (d.bucketOf i.1).file (i.2 * i.1) ts

/-- The block `i` holds `ts` and belongs to nobody: not live, not free, not past
the end. -/
structure Reserved (d : Db) (i : Entry) (ts : Bytes) : Prop where
  unused : ∀ t key, (d.indexOf t).lookup key ≠ some i
  owned : i.2 < (d.bucketOf i.1).lastBlock
  busy : i.2 ∉ (d.bucketOf i.1).freeBlocks
  room : 16 ≤ i.1
  fits : ts.length ≤ i.1
  holds : Holds (d.bucketOf i.1).file (i.2 * i.1) ts

variable {d : Db} {m : Store}

/-- Soundness depends on what can be read only. -/
theorem Sound.congr {d' : Db} (h : d.Sound m) (hw : d'.write = true)
    (hbo : ∀ s, d'.bucketOf s = d.bucketOf s)
    (hio : ∀ t key, (d'.indexOf t).lookup key = (d.indexOf t).lookup key) : d'.Sound m where
  write := hw
  size s := by rw [hbo]; exact h.size s
  nodup s := by rw [hbo]; exact h.nodup s
  below s := by rw [hbo]; exact h.below s
  dead t key hi := h.dead t key (by rw [← hio]; exact hi)
  alone t key t' key' i hi hi' :=
    h.alone t key t' key' i (by rw [← hio]; exact hi) (by rw [← hio]; exact hi')
  room t key i hi := h.room t key i (by rw [← hio]; exact hi)
  owned t key i hi := by rw [hbo]; exact h.owned t key i (by rw [← hio]; exact hi)
  busy t key i hi := by rw [hbo]; exact h.busy t key i (by rw [← hio]; exact hi)
  stored t key i hi := by rw [hbo]; exact h.stored t key i (by rw [← hio]; exact hi)

theorem Sound.openTable (h : d.Sound m) (t : Str) : (d.openTable t).Sound m := by
  obtain ⟨hbo, hio, -, hw, -⟩ := d.openTable_spec t
  exact h.congr (hw.trans h.write) hbo fun t' key => by rw [hio]

theorem sound_fresh (compress : Bool) : (fresh compress).Sound fun _ _ => none where
  write := rfl
  size _ := rfl
  nodup _ := List.nodup_nil
  below _ _ ho := nomatch ho
  dead _ _ _ := rfl
  alone _ _ _ _ _ hi _ := nomatch hi
  room _ _ _ hi := nomatch hi
  owned _ _ _ hi := nomatch hi
  busy _ _ _ hi := nomatch hi
  stored _ _ _ hi := nomatch hi

/-! ## Deleting -/

/-- Freeing a live block leaves the bytes of every other block of its size. -/
theorem freeEntry_frame (b : Bucket) (o o' : Nat) (ts : Bytes) (hne : o ≠ o') (hs : 16 ≤ b.size)
    (hlen : ts.length ≤ b.size) (h : Holds b.file (o' * b.size) ts) :
    Holds (b.freeEntry o).2.file (o' * b.size) ts :=
  h.pwrite_frame (blocks_disjoint hne (length_freeMark_le (by omega)) hlen)

/-- The buckets of `d'` are those of `d` with the block `i` freed. -/
def FreesBlock (d d' : Db) (i : Entry) : Prop :=
  ∀ s, d'.bucketOf s = if s = i.1 then ((d.bucketOf i.1).freeEntry i.2).2 else d.bucketOf s

namespace FreesBlock

variable {d' : Db} {i j : Entry}

theorem size_eq (hf : FreesBlock d d' i) (s : Nat) : (d'.bucketOf s).size = (d.bucketOf s).size := by
  rw [hf s]
  split
  next he => rw [he]; rfl
  next => rfl

theorem lastBlock_eq (hf : FreesBlock d d' i) (s : Nat) :
    (d'.bucketOf s).lastBlock = (d.bucketOf s).lastBlock := by
  rw [hf s]
  split
  next he => rw [he]; rfl
  next => rfl

theorem mem_freeBlocks (hf : FreesBlock d d' i) {s o : Nat} :
    o ∈ (d'.bucketOf s).freeBlocks ↔ o ∈ (d.bucketOf s).freeBlocks ∨ (s, o) = i := by
  rw [hf s]
  split
  next he =>
    subst he
    show o ∈ _ ++ [i.2] ↔ _
    rw [List.mem_append, List.mem_singleton, Prod.ext_iff]
    simp
  next he => exact (or_iff_left fun hso => he (congrArg Prod.fst hso)).symm

/-- A block that was busy still is, unless it is the one freed. -/
theorem busy (hf : FreesBlock d d' i) (hji : j ≠ i) (h : j.2 ∉ (d.bucketOf j.1).freeBlocks) :
    j.2 ∉ (d'.bucketOf j.1).freeBlocks := by
  intro hmem
  rcases hf.mem_freeBlocks.mp hmem with hmem | hmem
  · exact h hmem
  · exact hji hmem

theorem nodup (hf : FreesBlock d d' i) (hi : i.2 ∉ (d.bucketOf i.1).freeBlocks) {s : Nat}
    (h : (d.bucketOf s).freeBlocks.Nodup) : (d'.bucketOf s).freeBlocks.Nodup := by
  rw [hf s]
  split
  next he =>
    subst he
    show (_ ++ [i.2]).Nodup
    refine h.append (List.nodup_singleton _) fun o ho hsame => hi ?_
    rw [← List.mem_singleton.mp hsame]
    exact ho
  next => exact h

/-- Blocks other than the one freed keep their bytes: the "FREE" stamp falls elsewhere. -/
theorem holds (hf : FreesBlock d d' i) (hsize : ∀ s, (d.bucketOf s).size = s) (hji : j ≠ i)
    {ts : Bytes} (hroom : 16 ≤ j.1) (hlen : ts.length ≤ j.1)
    (h : Holds (d.bucketOf j.1).file (j.2 * j.1) ts) :
    Holds (d'.bucketOf j.1).file (j.2 * j.1) ts := by
  rw [hf j.1]
  split
  next he =>
    have hsz := hsize i.1
    have hframe := freeEntry_frame (d.bucketOf i.1) i.2 j.2 ts
      (fun e => hji (Prod.ext he e.symm)) (by rw [hsz, ← he]; exact hroom)
      (by rw [hsz, ← he]; exact hlen) (by rw [hsz, ← he]; exact h)
    rw [hsz] at hframe
    rw [he]
    exact hframe
  next => exact h

end FreesBlock

/-- Taking a key that is not there out of the store changes nothing. -/
theorem Store.upd_none {t key : Str} (h : m t key = none) : m.upd t key none = m := by
  funext t' key'
  unfold Store.upd
  split
  next hc => rw [hc.1, hc.2, h]
  next => rfl

/-- What is live after the key has left the index was live before, under another key. -/
theorem lookup_erased {d' : Db} {t key : Str}
    (hidx : ∀ t', d'.indexOf t' = if t' = t then (d.indexOf t).erase key else d.indexOf t')
    {t' key' : Str} {i : Entry} (hi : (d'.indexOf t').lookup key' = some i) :
    (d.indexOf t').lookup key' = some i ∧ ¬ (t' = t ∧ key' = key) := by
  rw [hidx] at hi
  split at hi
  next htt =>
    subst htt
    obtain ⟨hkk, hi⟩ := Lib.Mapping.lookup_erase_some hi
    exact ⟨hi, fun hc => hkk hc.2⟩
  next htt => exact ⟨hi, fun hc => htt hc.1⟩

/-- A delete takes the key out of the store. -/
theorem Sound.delete (h : d.Sound m) (t key : Str) : (d.delete t key).Sound (m.upd t key none) := by
  rcases d.delete_cases t key with ⟨he, hw⟩ | ⟨-, i, hi, hidx, hbo, -, hw⟩
  · have hnone : m t key = none := by
      rcases hw with hw | hw
      · rw [h.write] at hw; cases hw
      · exact h.dead t key hw
    rw [he, Store.upd_none hnone]
    exact h
  · have hf : FreesBlock d (d.delete t key) i := hbo
    -- no other key has the block that is freed
    have hother : ∀ {t' key' j}, ((d.delete t key).indexOf t').lookup key' = some j → j ≠ i := by
      intro t' key' j hj hji
      obtain ⟨hold, hne⟩ := lookup_erased hidx hj
      exact hne (h.alone t' key' t key j hold (hji ▸ hi))
    exact {
      write := hw
      size := fun s => (hf.size_eq s).trans (h.size s)
      nodup := fun s => hf.nodup (h.busy t key i hi) (h.nodup s)
      below := fun s o ho => by
        rw [hf.lastBlock_eq]
        rcases hf.mem_freeBlocks.mp ho with ho | rfl
        · exact h.below s o ho
        · exact h.owned t key _ hi
      dead := fun t' key' hn => by
        unfold Store.upd
        split
        · rfl
        next hc =>
          refine h.dead t' key' ?_
          rw [hidx] at hn
          split at hn
          next htt =>
            subst htt
            rwa [AList.lookup_erase_ne fun e => hc ⟨rfl, e⟩] at hn
          next => exact hn
      alone := fun t₁ k₁ t₂ k₂ j h₁ h₂ =>
        h.alone t₁ k₁ t₂ k₂ j (lookup_erased hidx h₁).1 (lookup_erased hidx h₂).1
      room := fun t' k' j hj => h.room t' k' j (lookup_erased hidx hj).1
      owned := fun t' k' j hj => by
        rw [hf.lastBlock_eq]
        exact h.owned t' k' j (lookup_erased hidx hj).1
      busy := fun t' k' j hj => hf.busy (hother hj) (h.busy t' k' j (lookup_erased hidx hj).1)
      stored := fun t' k' j hj => by
        obtain ⟨hold, hne⟩ := lookup_erased hidx hj
        obtain ⟨ts, hm, hlen, hts⟩ := h.stored t' k' j hold
        refine ⟨ts, by rw [Store.upd, if_neg hne]; exact hm, hlen, ?_⟩
        exact hf.holds h.size (hother hj) (h.room t' k' j hold) hlen hts }

/-- A delete does not touch a reserved block. -/
theorem Reserved.delete {i : Entry} {ts : Bytes} (h : d.Sound m) (r : d.Reserved i ts)
    (t key : Str) : (d.delete t key).Reserved i ts := by
  rcases d.delete_cases t key with ⟨he, -⟩ | ⟨-, j, hj, hidx, hbo, -, -⟩
  · rw [he]
    exact r
  · have hf : FreesBlock d (d.delete t key) j := hbo
    have hij : i ≠ j := fun e => r.unused t key (e ▸ hj)
    exact {
      unused := fun t' key' hi => r.unused t' key' (lookup_erased hidx hi).1
      owned := by rw [hf.lastBlock_eq]; exact r.owned
      busy := hf.busy hij r.busy
      room := r.room
      fits := r.fits
      holds := hf.holds h.size hij r.room r.fits r.holds }

/-! ## Setting -/

/-- What an allocation hands out: a block off the free list and below the end,
the other blocks as they were. -/
theorem allocateEntry_spec {b : Bucket} (hb : ∀ o ∈ b.freeBlocks, o < b.lastBlock)
    (hnd : b.freeBlocks.Nodup) :
    b.allocateEntry.2.2.size = b.size ∧ b.allocateEntry.2.2.file = b.file ∧
    b.allocateEntry.2.2.freeBlocks.Nodup ∧
    (∀ o ∈ b.allocateEntry.2.2.freeBlocks, o ∈ b.freeBlocks ∧ o ≠ b.allocateEntry.1) ∧
    b.lastBlock ≤ b.allocateEntry.2.2.lastBlock ∧
    b.allocateEntry.1 < b.allocateEntry.2.2.lastBlock ∧
    (b.allocateEntry.1 ∈ b.freeBlocks ∨ b.lastBlock ≤ b.allocateEntry.1) := by
  rcases b.allocateEntry_cases with ⟨f, fs, hf, he⟩ | ⟨hf, he⟩
  -- off the free list, or at the end of the file
  · rw [he]
    have hmem : f ∈ b.freeBlocks := by rw [hf]; exact List.mem_cons_self ..
    refine ⟨rfl, rfl, hnd.filter _, fun o ho => ?_, le_refl _, hb f hmem, Or.inl hmem⟩
    obtain ⟨ho, hne⟩ := List.mem_filter.mp ho
    exact ⟨ho, of_decide_eq_true hne⟩
  · rw [he]
    refine ⟨rfl, rfl, hnd, fun o ho => ?_, Nat.le_succ _, Nat.lt_succ_self _, Or.inr (le_refl _)⟩
    rw [hf] at ho
    cases ho

/-- The block a sound db allocates next is not live. -/
theorem Sound.alloc_unused (h : d.Sound m) (s : Nat) (t key : Str) :
    (d.indexOf t).lookup key ≠ some (s, (d.bucketOf s).allocateEntry.1) := by
  intro hi
  obtain ⟨-, -, -, -, -, -, hor⟩ := allocateEntry_spec (h.below s) (h.nodup s)
  rcases hor with hmem | hge
  · exact h.busy t key _ hi hmem
  · exact absurd (h.owned t key _ hi) (Nat.not_lt.mpr hge)

/-- An allocation, and a write to the allocated block that fits, keep the store. -/
theorem Sound.alloc {d' : Db} {s : Nat} {b : Bucket} {recs : List LogRec} (h : d.Sound m)
    (ho : d.Only d' s b recs) (hsize : b.size = s)
    (hfree : b.freeBlocks = (d.bucketOf s).allocateEntry.2.2.freeBlocks)
    (hlast : b.lastBlock = (d.bucketOf s).allocateEntry.2.2.lastBlock)
    (hfile : ∀ o ts, o ≠ (d.bucketOf s).allocateEntry.1 → ts.length ≤ s →
      Holds (d.bucketOf s).file (o * s) ts → Holds b.file (o * s) ts) : d'.Sound m := by
  obtain ⟨-, -, hnd, hsub, hle, -, -⟩ := allocateEntry_spec (h.below s) (h.nodup s)
  have hidx : ∀ {t key i}, (d'.indexOf t).lookup key = some i → (d.indexOf t).lookup key = some i :=
    fun hi => by rwa [ho.indexOf] at hi
  exact {
    write := ho.write
    size := fun s' => by
      rw [ho.bucketOf]
      split
      next he => rw [he]; exact hsize
      next => exact h.size s'
    nodup := fun s' => by
      rw [ho.bucketOf]
      split
      · rw [hfree]; exact hnd
      · exact h.nodup s'
    below := fun s' o hmem => by
      rw [ho.bucketOf] at hmem ⊢
      split at hmem
      next he =>
        rw [if_pos he, hlast]
        rw [hfree] at hmem
        exact Nat.lt_of_lt_of_le (h.below s o (hsub o hmem).1) hle
      next he => rw [if_neg he]; exact h.below s' o hmem
    dead := fun t key hn => h.dead t key (by rwa [ho.indexOf] at hn)
    alone := fun t key t' key' i hi hi' => h.alone t key t' key' i (hidx hi) (hidx hi')
    room := fun t key i hi => h.room t key i (hidx hi)
    owned := fun t key i hi => by
      have hlt := h.owned t key i (hidx hi)
      rw [ho.bucketOf]
      split
      next he =>
        rw [he] at hlt
        rw [hlast]
        exact Nat.lt_of_lt_of_le hlt hle
      next => exact hlt
    busy := fun t key i hi => by
      have hbusy := h.busy t key i (hidx hi)
      rw [ho.bucketOf]
      split
      next he =>
        rw [hfree]
        intro hmem
        rw [he] at hbusy
        exact hbusy (hsub _ hmem).1
      next => exact hbusy
    -- the block handed out is no live one, so the write misses every live block
    stored := fun t key i hi => by
      obtain ⟨ts, hm, hlen, hts⟩ := h.stored t key i (hidx hi)
      refine ⟨ts, hm, hlen, ?_⟩
      rw [ho.bucketOf]
      split
      next he =>
        rw [he] at hts hlen ⊢
        refine hfile i.2 ts (fun e => ?_) hlen hts
        exact h.alloc_unused s t key (by rw [← e, ← he]; exact hidx hi)
      next => exact hts }

/-- The index with a new entry. -/
theorem lookup_putEntry (d : Db) (t key : Str) (i : Entry) (dirty : Bool) (t' key' : Str) :
    ((d.putTable t { index := (d.indexOf t).insert key i, dirty := dirty }).indexOf t').lookup
        key' = if t' = t ∧ key' = key then some i else (d.indexOf t').lookup key' := by
  rw [indexOf_putTable]
  by_cases htt : t' = t
  · subst htt
    rw [if_pos rfl, Lib.Mapping.lookup_insert_ite]
    simp only [true_and]
  · rw [if_neg htt, if_neg fun hc => htt hc.1]

/-- Writing the index with a reserved block makes the block live. -/
theorem Sound.insert {i : Entry} {ts : Bytes} {t key : Str} {dirty : Bool}
    (h : d.Sound (m.upd t key none)) (r : d.Reserved i ts) :
    (d.putTable t { index := (d.indexOf t).insert key i, dirty := dirty }).Sound
      (m.upd t key (some ts)) := by
  have hcase : ∀ {t' key' : Str} {j : Entry},
      ((d.putTable t { index := (d.indexOf t).insert key i, dirty := dirty }).indexOf t').lookup
        key' = some j →
      (t' = t ∧ key' = key ∧ j = i) ∨
        (¬ (t' = t ∧ key' = key) ∧ (d.indexOf t').lookup key' = some j) := by
    intro t' key' j hj
    rw [lookup_putEntry] at hj
    split at hj
    next hc => exact Or.inl ⟨hc.1, hc.2, (Option.some.inj hj).symm⟩
    next hc => exact Or.inr ⟨hc, hj⟩
  exact {
    write := h.write
    size := h.size
    nodup := h.nodup
    below := h.below
    dead := fun t' key' hn => by
      rw [lookup_putEntry] at hn
      split at hn
      · cases hn
      next hc =>
        have hdead := h.dead t' key' hn
        rw [Store.upd, if_neg hc] at hdead ⊢
        exact hdead
    -- two names of one entry: both new, or both old, as the reserved block was unused
    alone := fun t₁ k₁ t₂ k₂ j h₁ h₂ => by
      rcases hcase h₁ with ⟨rfl, rfl, hj₁⟩ | ⟨-, old₁⟩
      · rcases hcase h₂ with ⟨rfl, rfl, -⟩ | ⟨-, old₂⟩
        · exact ⟨rfl, rfl⟩
        · exact absurd (hj₁ ▸ old₂) (r.unused _ _)
      · rcases hcase h₂ with ⟨rfl, rfl, hj₂⟩ | ⟨-, old₂⟩
        · exact absurd (hj₂ ▸ old₁) (r.unused _ _)
        · exact h.alone _ _ _ _ _ old₁ old₂
    room := fun t' k' j hj => by
      rcases hcase hj with ⟨-, -, rfl⟩ | ⟨-, hj⟩
      · exact r.room
      · exact h.room _ _ _ hj
    owned := fun t' k' j hj => by
      rcases hcase hj with ⟨-, -, rfl⟩ | ⟨-, hj⟩
      · exact r.owned
      · exact h.owned _ _ _ hj
    busy := fun t' k' j hj => by
      rcases hcase hj with ⟨-, -, rfl⟩ | ⟨-, hj⟩
      · exact r.busy
      · exact h.busy _ _ _ hj
    stored := fun t' k' j hj => by
      rcases hcase hj with ⟨rfl, rfl, rfl⟩ | ⟨hne, hj⟩
      · exact ⟨ts, by rw [Store.upd, if_pos ⟨rfl, rfl⟩], r.fits, r.holds⟩
      · have := h.stored _ _ _ hj
        rw [Store.upd, if_neg hne] at this ⊢
        exact this }

/-- A block rewritten in place holds the new string, and no other block changes. -/
theorem Sound.rewrite {d' : Db} {t key : Str} {i : Entry} {ts : Bytes} {recs : List LogRec}
    (h : d.Sound m) (hi : (d.indexOf t).lookup key = some i) (hfit : ts.length ≤ i.1)
    (ho : d.Only d' i.1 ((d.bucketOf i.1).writeAt i.2 ts) recs) :
    d'.Sound (m.upd t key (some ts)) := by
  have hidx : ∀ {t' key' j},
      (d'.indexOf t').lookup key' = some j → (d.indexOf t').lookup key' = some j :=
    fun hj => by rwa [ho.indexOf] at hj
  -- a write moves neither the free list nor the end of a bucket
  have hview : ∀ s, (d'.bucketOf s).size = (d.bucketOf s).size ∧
      (d'.bucketOf s).freeBlocks = (d.bucketOf s).freeBlocks ∧
      (d'.bucketOf s).lastBlock = (d.bucketOf s).lastBlock := by
    intro s
    rw [ho.bucketOf]
    split
    next he => rw [he]; exact ⟨rfl, rfl, rfl⟩
    next => exact ⟨rfl, rfl, rfl⟩
  exact {
    write := ho.write
    size := fun s => by rw [(hview s).1]; exact h.size s
    nodup := fun s => by rw [(hview s).2.1]; exact h.nodup s
    below := fun s => by rw [(hview s).2.1, (hview s).2.2]; exact h.below s
    dead := fun t' key' hn => by
      rw [ho.indexOf] at hn
      rw [Store.upd, if_neg]
      · exact h.dead t' key' hn
      · intro hand
        obtain ⟨rfl, rfl⟩ := hand
        rw [hi] at hn
        cases hn
    alone := fun t₁ k₁ t₂ k₂ j h₁ h₂ => h.alone t₁ k₁ t₂ k₂ j (hidx h₁) (hidx h₂)
    room := fun t' k' j hj => h.room t' k' j (hidx hj)
    owned := fun t' k' j hj => by rw [(hview _).2.2]; exact h.owned t' k' j (hidx hj)
    busy := fun t' k' j hj => by rw [(hview _).2.1]; exact h.busy t' k' j (hidx hj)
    stored := fun t' k' j hj => by
      have hj := hidx hj
      have hsz := h.size i.1
      by_cases hc : t' = t ∧ k' = key
      · obtain ⟨rfl, rfl⟩ := hc
        obtain rfl : i = j := Option.some.inj (hi.symm.trans hj)
        refine ⟨ts, by rw [Store.upd, if_pos ⟨rfl, rfl⟩], hfit, ?_⟩
        rw [ho.bucketOf, if_pos rfl]
        show Holds (pwrite _ (i.2 * (d.bucketOf i.1).size) ts) _ ts
        rw [hsz]
        exact Lib.holds_pwrite _ _ _
      · obtain ⟨ts', hm, hlen, hts⟩ := h.stored t' k' j hj
        refine ⟨ts', by rw [Store.upd, if_neg hc]; exact hm, hlen, ?_⟩
        rw [ho.bucketOf]
        split
        next he =>
          -- same bucket, other key: `alone` makes the block numbers differ
          have hne : i.2 ≠ j.2 := by
            intro e
            have hij : j = i := Prod.ext he e.symm
            exact hc (h.alone t' k' t key i (hij ▸ hj) hi)
          show Holds (pwrite _ (i.2 * (d.bucketOf i.1).size) ts) _ ts'
          rw [hsz, ← he]
          rw [← he] at hfit
          exact hts.pwrite_frame (blocks_disjoint hne hfit hlen)
        next => exact hts }

/-- An allocated block, written with a string that fits, is reserved. -/
theorem Sound.reserve {d₁ : Db} {s : Nat} {ts : Bytes} {recs : List LogRec} (h : d.Sound m)
    (hroom : 16 ≤ s) (hfit : ts.length ≤ s)
    (ho : d.Only d₁ s ((d.bucketOf s).allocateEntry.2.2.writeAt (d.bucketOf s).allocateEntry.1 ts)
      recs) :
    d₁.Sound m ∧ d₁.Reserved (s, (d.bucketOf s).allocateEntry.1) ts := by
  obtain ⟨hsize, hfile, -, hsub, -, hlt, -⟩ := allocateEntry_spec (h.below s) (h.nodup s)
  have hsz : (d.bucketOf s).allocateEntry.2.2.size = s := hsize.trans (h.size s)
  refine ⟨h.alloc ho hsz rfl rfl fun o e hne hlen he => ?_, ?_⟩
  · show Holds (pwrite _ (_ * (d.bucketOf s).allocateEntry.2.2.size) ts) _ e
    rw [hsz, hfile]
    exact he.pwrite_frame (blocks_disjoint hne.symm hfit hlen)
  · have hb : d₁.bucketOf s
        = (d.bucketOf s).allocateEntry.2.2.writeAt (d.bucketOf s).allocateEntry.1 ts := by
      rw [ho.bucketOf, if_pos rfl]
    exact {
      unused := fun t key hi => h.alloc_unused s t key (by rwa [ho.indexOf] at hi)
      owned := by rw [hb]; exact hlt
      busy := by rw [hb]; exact fun hmem => (hsub _ hmem).2 rfl
      room := hroom
      fits := hfit
      holds := by
        rw [hb]
        show Holds (pwrite _ (_ * (d.bucketOf s).allocateEntry.2.2.size) ts) _ ts
        rw [hsz]
        exact Lib.holds_pwrite _ _ _ }

/-- A `set` stores its string, or, when the string is past the size scheme,
changes nothing. -/
theorem Sound.setString (h : d.Sound m) (t key : Str) (ts : Bytes) :
    (d.setString t key ts).2.Sound
      (if ts.length ≤ 2 ^ 31 then m.upd t key (some ts) else m) := by
  have hsz : (d.target ts).size = findNearest2x ts.length := h.size _
  -- past the scheme, the bucket has size 0 and nothing live in it
  have hscheme : ts.length ≤ (d.target ts).size ↔ ts.length ≤ 2 ^ 31 := by
    rw [hsz]
    constructor
    · intro hle
      by_contra hlong
      rw [findNearest2x_long (Nat.not_le.mp hlong)] at hle
      omega
    · exact fun hle => (findNearest2x_fits hle).1
  generalize hd' : (d.setString t key ts).2 = d'
  have hout := d.setString_outcome t key ts h.write
  rw [hd'] at hout
  cases hout with
  | @inPlace _ i hi hsize hfit ho =>
    rw [if_pos (hscheme.mp hfit)]
    have his : findNearest2x ts.length = i.1 := (hsize.trans hsz).symm
    rw [target, his] at ho
    exact h.rewrite hi (hsize ▸ hfit) ho
  | @refused _ i hi hsize hlong ho =>
    have hroom := h.room t key i hi
    rw [hsize, hsz, findNearest2x_long] at hroom
    · omega
    · exact Nat.not_le.mp fun hle => absurd (hscheme.mpr hle) (Nat.not_le.mpr hlong)
  | @replaced d₁ hne hfit ho =>
    have hle := hscheme.mp hfit
    rw [if_pos hle]
    obtain ⟨h₁, r₁⟩ := h.reserve (findNearest2x_fits hle).2 (findNearest2x_fits hle).1 ho
    rw [hsz]
    exact (h₁.delete t key).insert (r₁.delete h₁ t key)
  | wasted hne hlong ho =>
    obtain ⟨hsize, hfile, -⟩ := allocateEntry_spec (h.below (findNearest2x ts.length)) (h.nodup _)
    rw [if_neg fun hle => absurd (hscheme.mpr hle) (Nat.not_le.mpr hlong)]
    refine h.alloc ho (hsize.trans (h.size _)) rfl rfl fun o e _ _ he => ?_
    rw [target, hfile]
    exact he

/-! ## Purging -/

theorem Sound.foldl_delete (t : Str) (keys : List Str) :
    ∀ (d : Db) (m : Store), d.Sound m →
      (keys.foldl (fun d key => d.delete t key) d).Sound
        (fun t' key' => if t' = t ∧ key' ∈ keys then none else m t' key') := by
  induction keys with
  | nil => intro d m h; simpa using h
  | cons k keys ih =>
    intro d m h
    have hrest := ih (d.delete t k) _ (h.delete t k)
    have hspec : (fun t' key' => if t' = t ∧ key' ∈ keys then none else m.upd t k none t' key')
        = (fun t' key' => if t' = t ∧ key' ∈ k :: keys then none else m t' key') := by
      funext t' key'
      unfold Store.upd
      by_cases htt : t' = t <;> by_cases hkk : key' = k <;> simp [htt, hkk]
    rw [hspec] at hrest
    exact hrest

theorem Sound.purge (h : d.Sound m) (t : Str) :
    (d.purge t).Sound (fun t' key => if t' = t then none else m t' key) := by
  simp only [Db.purge, h.write, Bool.not_true, Bool.false_eq_true, if_false]
  have hfold := Sound.foldl_delete t (d.indexOf t).keys d m h
  set d₁ := (d.indexOf t).keys.foldl (fun d key => d.delete t key) d
  have hgone : ∀ key, (if t = t ∧ key ∈ (d.indexOf t).keys then none else m t key) = none := by
    intro key
    split
    · rfl
    next hk =>
      refine h.dead t key (Option.eq_none_iff_forall_ne_some.mpr fun i hi => hk ⟨rfl, ?_⟩)
      exact (Lib.Mapping.mem_keys_iff _ _).mpr ⟨i, hi⟩
  have hempty : ∀ key, (d₁.indexOf t).lookup key = none := by
    intro key
    cases hi : (d₁.indexOf t).lookup key with
    | none => rfl
    | some i =>
      obtain ⟨ts, hts, -⟩ := hfold.stored t key i hi
      rw [hgone] at hts
      cases hts
  have hspec : (fun t' key => if t' = t ∧ key ∈ (d.indexOf t).keys then none else m t' key)
      = (fun t' key => if t' = t then none else m t' key) := by
    funext t' key
    by_cases htt : t' = t
    · subst htt
      rw [hgone, if_pos rfl]
    · simp [htt]
  rw [hspec] at hfold
  refine hfold.congr hfold.write (fun _ => rfl) fun t' key => ?_
  rw [indexOf_logRec, indexOf_putTable]
  split
  next htt => rw [htt, hempty]; rfl
  next htt => rw [indexOf_eraseFile htt]

end Db

/-! ## Sequences of calls -/

section Calls

variable {V : Type} (c : Codec V)

theorem Db.Sound.apply {d : Db} {m : Store} (h : d.Sound m) (op : TableOp V) :
    (d.apply c op).Sound (m.apply c d.compress op) := by
  cases op with
  | set tname key v =>
    have ho := (h.openTable (tableName tname)).setString (tableName tname) key
      (c.toBlock d.compress v)
    simp only [Db.apply, Db.set, (d.openTable_spec (tableName tname)).2.2.2.2]
    exact ho
  | delete tname key => exact (h.openTable (tableName tname)).delete (tableName tname) key
  | purge tname => exact (h.openTable (tableName tname)).purge (tableName tname)

theorem Db.run_sound {compress : Bool} (ops : List (TableOp V)) :
    ∀ (d : Db) (m : Store), d.compress = compress → d.Sound m →
      (d.run c ops).Sound (ops.foldl (Store.apply c compress) m) := by
  induction ops with
  | nil => intro d m _ h; exact h
  | cons op ops ih =>
    intro d m hc h
    subst hc
    exact ih (d.apply c op) _ (d.compress_apply c op) (h.apply c op)

/-- **No block sharing.** After any sequence of calls on the tables of a fresh
db: two live keys never have one block, the block of a live key is not on its
bucket's free list, and `get` finds a key exactly when the store of last sets
does, and then reads the key's block, which begins with the string last set. -/
theorem no_block_sharing (compress : Bool) (ops : List (TableOp V)) :
    (∀ t key t' key' i, (((Db.fresh compress).run c ops).indexOf t).lookup key = some i →
      (((Db.fresh compress).run c ops).indexOf t').lookup key' = some i → t = t' ∧ key = key') ∧
    (∀ t key i, (((Db.fresh compress).run c ops).indexOf t).lookup key = some i →
      i.2 ∉ (((Db.fresh compress).run c ops).bucketOf i.1).freeBlocks) ∧
    (∀ t key, match Store.ofOps c compress ops t key with
      | none => (((Db.fresh compress).run c ops).get c t key).1 = none
      | some ts => ∃ i, (((Db.fresh compress).run c ops).indexOf t).lookup key = some i ∧
          ts <+: (((Db.fresh compress).run c ops).bucketOf i.1).getEntry i.2 ∧
          (((Db.fresh compress).run c ops).get c t key).1
            = some (c.ofBlock ((((Db.fresh compress).run c ops).bucketOf i.1).getEntry i.2))) := by
  have h : ((Db.fresh compress).run c ops).Sound (Store.ofOps c compress ops) :=
    Db.run_sound c ops _ _ rfl (Db.sound_fresh compress)
  set d := (Db.fresh compress).run c ops
  refine ⟨h.alone, h.busy, fun t key => ?_⟩
  cases hi : (d.indexOf t).lookup key with
  | none =>
    rw [h.dead t key hi]
    simp [Db.get, hi]
  | some i =>
    obtain ⟨ts, hts, hlen, hholds⟩ := h.stored t key i hi
    have hsize := h.size i.1
    rw [hts]
    refine ⟨i, rfl, ?_, ?_⟩
    · rw [Bucket.getEntry, Bucket.readAt, hsize]
      exact hholds.prefix_pread hlen
    · simp [Db.get, hi, (d.getBucket_spec i.1).1]

end Calls

end Caudium.Pdb
