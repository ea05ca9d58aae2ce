import Caudium.Lib.ParallelSort
import Mathlib.Data.List.Zip
import Caudium.Lib.Tally
import Caudium.UltraLog.Totals

/-!
# Short tables (`compress_mapping`, ultrautil.c)

A table that is too long keeps its `maxsize` largest counts, and the others are added up under
"Other", which may be one of the keys that are kept, or of those that are not. The total stays the
same (`compressed`).
-/

namespace Caudium.UltraLog

open Lib (Str Mapping ParallelSort)
open Lib.Mapping (addAt addAll valueAt total)

def defaultMaxTableSize : Int := 50000

def other : Str := "Other".toList

/-- `compress_mapping`. `sort` is what `f_sort` does to the values, with the indices beside them. -/
def compressMapping (sort : ParallelSort Int Str) (map : Counts) (maxsize : Int) : Counts :=
  let (values, indices) := sort.run (map.entries.map Sigma.snd) map.keys
  let todelete := ((indices.length : Int) - maxsize).toNat
  let count := (values.take todelete).foldl (fun count v => wrap32 (count + v)) 0
  let new := ((indices.zip values).drop todelete).foldl (fun m e => m.insert e.1 e.2) ∅
  mapaddnum new other count

/-- `f_compress_mapping`. -/
def fCompressMapping (sort : ParallelSort Int Str) (map : Counts) (maxsize : Int) : Counts :=
  let maxsize := if maxsize ≤ 0 then defaultMaxTableSize else maxsize
  if (map.keys.length : Int) < maxsize then map else compressMapping sort map maxsize

/-! ## What is kept -/

/-- What a table makes of one that is too long: the total is the same, the keys are fewer, and those
of the smallest counts are dropped, whose counts are under `other`. -/
structure Compressed (map : Counts) (maxsize : Int) (new : Counts) : Prop where
  total : new.total id = map.total id
  size : (new.keys.length : Int) ≤ maxsize + 1
  counts : ∀ key, key ≠ other → key ∈ new → new.lookup key = map.lookup key
  smallest : ∃ dropped : List Str, (∀ key, key ≠ other → (key ∈ new ↔ key ∈ map ∧ key ∉ dropped)) ∧
    ∀ key ∈ dropped, ∀ key', key' ∉ dropped → ∀ v v',
      map.lookup key = some v → map.lookup key' = some v' → v ≤ v'

/-- A sum that 32 bits hold. -/
theorem foldl_wrap32 {l : List Int} {k : Int} (hk : 0 ≤ k) (hl : ∀ v ∈ l, 0 ≤ v)
    (hsmall : k + l.sum < 2 ^ 31) : l.foldl (fun count v => wrap32 (count + v)) k = k + l.sum := by
  induction l generalizing k with
  | nil => exact (Int.add_zero k).symm
  | cons v l ih =>
    have hv := hl v List.mem_cons_self
    have hrest : 0 ≤ l.sum := List.sum_nonneg fun x hx => hl x (List.mem_cons_of_mem v hx)
    rw [List.sum_cons] at hsmall ⊢
    have hwrap : wrap32 (k + v) = k + v := by
      rw [wrap32]
      omega
    rw [List.foldl_cons, hwrap, ih (by omega) (fun x hx => hl x (List.mem_cons_of_mem v hx))
      (by omega)]
    omega

/-- The sorted entries. -/
theorem exists_sorted (sort : ParallelSort Int Str) (map : Counts) :
    ∃ values indices, sort.run (map.entries.map Sigma.snd) map.keys = (values, indices) ∧
      values.length = indices.length ∧
      (indices.zip values).Perm (map.entries.map fun e => (e.1, e.2)) ∧
      (indices.zip values).Pairwise fun x y => x.2 ≤ y.2 := by
  have hlen : (map.entries.map Sigma.snd).length = map.keys.length := by
    rw [List.length_map, AList.keys, List.keys, List.length_map]
  have hvalues := sort.fst_length _ _ hlen
  have hindices := sort.snd_length _ _ hlen
  have hperm := (sort.perm _ _ hlen).map Prod.swap
  have hsorted := sort.sorted _ _ hlen
  refine ⟨_, _, rfl, by rw [hvalues, hindices, hlen], ?_, ?_⟩
  · rw [List.zip_swap, List.zip_swap] at hperm
    refine hperm.trans (List.Perm.of_eq ?_)
    exact List.zip_map' ..
  · rw [← List.pairwise_map (f := Prod.snd) (R := fun x y => x ≤ y), List.map_snd_zip]
    · exact hsorted
    · rw [hvalues, hindices, hlen]

variable {map : Counts} {pairs dropped kept : List (Str × Int)} {maxsize : Int}

/-- The pairs of the entries, in some order. -/
def PairsOf (map : Counts) (pairs : List (Str × Int)) : Prop :=
  pairs.Perm (map.entries.map fun e => (e.1, e.2))

theorem PairsOf.mem_iff (h : PairsOf map pairs) {key : Str} {v : Int} :
    (key, v) ∈ pairs ↔ map.lookup key = some v := by
  rw [List.Perm.mem_iff h, ← Option.mem_def, AList.mem_lookup_iff, List.mem_map]
  refine ⟨fun hmem => ?_, fun hmem => ⟨_, hmem, rfl⟩⟩
  obtain ⟨e, he, heq⟩ := hmem
  cases heq
  exact he

theorem PairsOf.keys_perm (h : PairsOf map pairs) : (pairs.map Prod.fst).Perm map.keys := by
  refine (List.Perm.map Prod.fst h).trans (List.Perm.of_eq ?_)
  rw [List.map_map]
  rfl

theorem PairsOf.sum_eq (h : PairsOf map pairs) : (pairs.map Prod.snd).sum = map.total id := by
  rw [(List.Perm.map Prod.snd h).sum_eq, List.map_map]
  rfl

/-- A table of the pairs that are kept, with what the others count under `other`. -/
def folded (dropped kept : List (Str × Int)) : Counts :=
  (addAll ∅ kept).addAt other (dropped.map Prod.snd).sum

/-- If the pairs that are dropped are no larger, and the others are at most `maxsize`, the table is
what a long one makes. -/
theorem folded_compressed (h : PairsOf map (dropped ++ kept))
    (hle : ∀ d ∈ dropped, ∀ e ∈ kept, d.2 ≤ e.2) (hsize : (kept.length : Int) ≤ maxsize) :
    Compressed map maxsize (folded dropped kept) := by
  have hnodup := h.keys_perm.nodup_iff.2 map.keys_nodup
  rw [List.map_append, List.nodup_append] at hnodup
  obtain ⟨-, hnodup, hdisjoint⟩ := hnodup
  have happart : ∀ key, key ∈ dropped.map Prod.fst → key ∉ kept.map Prod.fst :=
    fun key hd hk => hdisjoint key hd key hk rfl
  have hmem : ∀ key, key ≠ other → (key ∈ folded dropped kept ↔ key ∈ kept.map Prod.fst) := by
    intro key hkey
    rw [folded, Lib.Mapping.mem_addAt, Lib.Mapping.mem_addAll]
    exact ⟨fun hor => (hor.resolve_left hkey).resolve_left (AList.notMem_empty key),
      fun hk => .inr (.inr hk)⟩
  refine ⟨?_, ?_, fun key hkey hin => ?_, dropped.map Prod.fst, fun key hkey => ?_,
    fun key hd key' hk v v' hv hv' => ?_⟩
  · rw [folded, Lib.Mapping.total_addAt, Lib.Mapping.total_addAll, ← h.sum_eq, List.map_append,
      List.sum_append]
    show 0 + (kept.map Prod.snd).sum + _ = _
    omega
  · have hone := Lib.Mapping.length_keys_addAt (addAll ∅ kept) other (dropped.map Prod.snd).sum
    have hall := Lib.Mapping.length_keys_addAll (∅ : Counts) kept
    have hnone : (∅ : Counts).keys.length = 0 := rfl
    show (((addAll ∅ kept).addAt other (dropped.map Prod.snd).sum).keys.length : Int) ≤ _
    omega
  · obtain ⟨e, he, rfl⟩ := List.mem_map.1 ((hmem key hkey).1 hin)
    rw [(h.mem_iff).1 (List.mem_append_right dropped he), folded, Lib.Mapping.lookup_addAt,
      if_neg hkey, ← Lib.Mapping.foldl_insert_eq_addAll hnodup fun e _ => AList.notMem_empty e.1]
    refine Lib.Mapping.lookup_foldl_insert ∅ kept he fun e' he' heq => ?_
    exact congrArg Prod.snd (List.inj_on_of_nodup_map hnodup he' he heq)
  · rw [hmem key hkey, AList.mem_keys, ← h.keys_perm.mem_iff, List.map_append, List.mem_append]
    exact ⟨fun hk => ⟨.inr hk, fun hd => happart key hd hk⟩, fun hk => hk.1.resolve_left hk.2⟩
  · have hpair := List.mem_append.1 ((h.mem_iff).2 hv)
    have hpair' := List.mem_append.1 ((h.mem_iff).2 hv')
    have hin : (key, v) ∈ dropped :=
      hpair.resolve_right fun hin => happart key hd (List.mem_map_of_mem hin)
    have hin' : (key', v') ∈ kept := hpair'.resolve_left fun hin => hk (List.mem_map_of_mem hin)
    exact hle _ hin _ hin'

/-- A table that is as long as it may be, or longer. -/
theorem compressMapping_eq (sort : ParallelSort Int Str) (hcounts : ∀ e ∈ map.entries, 0 ≤ e.2)
    (htotal : map.total id < 2 ^ 31) (hsize : maxsize ≤ map.keys.length) (hpos : 0 < maxsize) :
    ∃ dropped kept, PairsOf map (dropped ++ kept) ∧ (∀ d ∈ dropped, ∀ e ∈ kept, d.2 ≤ e.2) ∧
      (kept.length : Int) = maxsize ∧
      compressMapping sort map maxsize = folded dropped kept := by
  obtain ⟨values, indices, hsort, hlen, hperm, hsorted⟩ := exists_sorted sort map
  have hpairs : PairsOf map (indices.zip values) := hperm
  have hlength : (indices.zip values).length = map.keys.length := by
    rw [← hpairs.keys_perm.length_eq, List.length_map]
  have hindices : indices.length = map.keys.length := by
    rw [← hlength, List.length_zip, hlen, Nat.min_self]
  have hkept := List.take_append_drop ((indices.length : Int) - maxsize).toNat (indices.zip values)
  refine ⟨(indices.zip values).take ((indices.length : Int) - maxsize).toNat,
    (indices.zip values).drop ((indices.length : Int) - maxsize).toNat, ?_, ?_, ?_, ?_⟩
  · rw [hkept]
    exact hpairs
  · rw [← hkept, List.pairwise_append] at hsorted
    exact hsorted.2.2
  · rw [List.length_drop, hlength]
    omega
  · have hnodup : (((indices.zip values).drop ((indices.length : Int) - maxsize).toNat).map
        Prod.fst).Nodup := by
      refine List.Nodup.sublist ?_ (hpairs.keys_perm.nodup_iff.2 map.keys_nodup)
      exact (List.drop_sublist ..).map Prod.fst
    have hsnd : (indices.zip values).map Prod.snd = values := List.map_snd_zip (Nat.le_of_eq hlen)
    have hnonneg : ∀ v ∈ values, 0 ≤ v := by
      intro v hv
      rw [← hsnd] at hv
      obtain ⟨e, he, rfl⟩ := List.mem_map.1 hv
      exact hcounts ⟨e.1, e.2⟩ (AList.mem_lookup_iff.1 (hpairs.mem_iff.1 he))
    have hsum : (values.take ((indices.length : Int) - maxsize).toNat).sum < 2 ^ 31 := by
      refine Int.lt_of_le_of_lt ?_ htotal
      rw [← hpairs.sum_eq, hsnd]
      exact (List.take_sublist ..).sum_le_sum hnonneg
    unfold compressMapping folded
    rw [hsort]
    dsimp only
    rw [Lib.Mapping.foldl_insert_eq_addAll hnodup fun e _ => AList.notMem_empty e.1,
      foldl_wrap32 (Int.le_refl 0) (fun v hv => hnonneg v (List.mem_of_mem_take hv)) (by omega),
      Int.zero_add, List.map_take, hsnd]
    rfl

/-- A table that is short enough stays as it is. -/
theorem compressed_self (hsize : (map.keys.length : Int) ≤ maxsize) : Compressed map maxsize map where
  total := rfl
  size := by omega
  counts _ _ _ := rfl
  smallest := by
    refine ⟨[], fun key _ => ?_, fun key hkey => ?_⟩
    · simp
    · cases hkey

/-- What `f_compress_mapping` returns has the same total, at most one key more than `maxsize`, and
of the counts that are not "Other" the largest as they were. -/
theorem compressed (sort : ParallelSort Int Str) {map : Counts} {maxsize : Int}
    (hcounts : ∀ e ∈ map.entries, 0 ≤ e.2) (htotal : map.total id < 2 ^ 31) (hpos : 0 < maxsize) :
    Compressed map maxsize (fCompressMapping sort map maxsize) := by
  unfold fCompressMapping
  rw [if_neg (Int.not_le.mpr hpos)]
  by_cases hshort : (map.keys.length : Int) < maxsize
  · rw [if_pos hshort]
    exact compressed_self (Int.le_of_lt hshort)
  · rw [if_neg hshort]
    obtain ⟨dropped, kept, hpairs, hle, hsize, heq⟩ :=
      compressMapping_eq sort hcounts htotal (Int.not_lt.mp hshort) hpos
    rw [heq]
    exact folded_compressed hpairs hle (Int.le_of_eq hsize)

/-- A table that has "Other" among its smallest counts. -/
def longTable : Counts :=
  ((∅ : Counts).insert "/index.html".toList 5).insert other 1 |>.insert "/logo.gif".toList 1

theorem compressed_longTable :
    Compressed longTable 1 (fCompressMapping (ParallelSort.stable Int Str) longTable 1) := by
  have hcounts : ∀ e ∈ longTable.entries, 0 ≤ e.2 := by decide
  exact compressed _ hcounts (by decide) Int.one_pos

end Caudium.UltraLog
