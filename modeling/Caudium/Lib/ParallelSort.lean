import Mathlib.Data.List.Sort
import Mathlib.Data.List.Lex

/-!
# Sorting two arrays by the first

A sort of an array of keys that rearranges a second array the same way
(`ParallelSort`). Nothing is said of the order among equal keys. `backwards` walks over
the two arrays from the end; what it gives of sorted keys is in falling order
(`backwards_sort`), and for keys that are lists a longer one then never comes behind its own
beginning (`Falling.apart`).
-/

namespace Lib

variable {κ β : Type}

/-- A sort of `keys` with `data` beside it. -/
structure ParallelSort (κ β : Type) [LE κ] where
  run : List κ → List β → List κ × List β
  fst_length : ∀ keys data, keys.length = data.length → (run keys data).1.length = keys.length
  snd_length : ∀ keys data, keys.length = data.length → (run keys data).2.length = keys.length
  perm : ∀ keys data, keys.length = data.length →
    ((run keys data).1.zip (run keys data).2).Perm (keys.zip data)
  sorted : ∀ keys data, keys.length = data.length → (run keys data).1.Pairwise (· ≤ ·)

/-- The stable sort. -/
def ParallelSort.stable (κ β : Type) [LinearOrder κ] : ParallelSort κ β where
  run keys data := ((keys.zip data).mergeSort fun x y => x.1 ≤ y.1).unzip
  fst_length keys data h := by
    simp [List.length_mergeSort, h]
  snd_length keys data h := by
    simp [List.length_mergeSort, h]
  perm keys data h := by
    rw [List.zip_unzip]
    exact List.mergeSort_perm _ _
  sorted keys data h := by
    rw [List.unzip_fst, List.pairwise_map]
    refine (List.pairwise_mergeSort (fun a b c hab hbc => ?_) (fun a b => ?_) _).imp fun hle => ?_
    · simp only [decide_eq_true_eq] at hab hbc ⊢
      exact hab.trans hbc
    · simp only [Bool.or_eq_true, decide_eq_true_eq]
      exact le_total _ _
    · simpa using hle

/-- The pairs below the index `j`, the last one first; an index that an array does not have is
an error. -/
def backwards (keys : List κ) (data : List β) : Nat → Option (List (κ × β))
  | 0 => some []
  | j + 1 =>
    match keys[j]?, data[j]? with
    | some k, some d => (backwards keys data j).map ((k, d) :: ·)
    | _, _ => none

theorem backwards_eq {keys : List κ} {data : List β} (h : keys.length = data.length) :
    ∀ {j : Nat}, j ≤ keys.length →
      backwards keys data j = some ((keys.zip data).take j).reverse := by
  intro j
  induction j with
  | zero => exact fun _ => rfl
  | succ j ih =>
    intro hj
    have hk : j < keys.length := hj
    have hd : j < data.length := by omega
    have hz : (keys.zip data)[j]? = some (keys[j], data[j]) := by
      rw [List.getElem?_eq_getElem (by rw [List.length_zip]; omega), List.getElem_zip]
    rw [backwards, List.getElem?_eq_getElem hk, List.getElem?_eq_getElem hd, List.take_add_one, hz]
    simp [ih (Nat.le_of_lt hj)]

/-- No pair has a smaller key than one behind it. -/
def Falling [LE κ] (l : List (κ × β)) : Prop := l.Pairwise fun x y => y.1 ≤ x.1

theorem backwards_sort [LE κ] (sort : ParallelSort κ β) {keys : List κ} {data : List β}
    (h : keys.length = data.length) :
    ∃ l, backwards (sort.run keys data).1 (sort.run keys data).2 (sort.run keys data).1.length =
        some l ∧ l.Perm (keys.zip data) ∧ Falling l := by
  have hlen : (sort.run keys data).1.length = (sort.run keys data).2.length := by
    rw [sort.fst_length _ _ h, sort.snd_length _ _ h]
  refine ⟨((sort.run keys data).1.zip (sort.run keys data).2).reverse, ?_, ?_, ?_⟩
  · rw [backwards_eq hlen (Nat.le_refl _), List.take_of_length_le]
    rw [List.length_zip]
    exact Nat.min_le_left _ _
  · exact (List.reverse_perm _).trans (sort.perm _ _ h)
  · rw [Falling, List.pairwise_reverse]
    have hsorted := sort.sorted _ _ h
    rw [← List.map_fst_zip (Nat.le_of_eq hlen), List.pairwise_map] at hsorted
    exact hsorted

variable {α : Type} [LinearOrder α]

theorem lt_extension {x y : List α} (h : x <+: y) (hne : x ≠ y) : x < y := by
  obtain ⟨t, rfl⟩ := h
  cases t with
  | nil => exact absurd (List.append_nil x).symm hne
  | cons c t =>
    have hlex := List.Lex.append_left (· < ·) (List.Lex.nil : List.Lex (· < ·) [] (c :: t)) x
    rw [List.append_nil] at hlex
    exact hlex

/-- In falling order no list comes before a longer one that it begins. -/
theorem Falling.apart {l : List (List α × β)} (h : Falling l) :
    l.Pairwise fun x y => ¬ (x.1 <+: y.1 ∧ x.1 ≠ y.1) := by
  refine List.Pairwise.imp (fun hle hpre => ?_) h
  exact absurd (lt_extension hpre.1 hpre.2) (not_lt.mpr hle)

/-- Of the lists that begin a text, the longer come first. -/
theorem Falling.longest_first {l : List (List α × β)} (h : Falling l) (text : List α) :
    (l.filter fun x => x.1.isPrefixOf text).Pairwise fun x y => y.1.length ≤ x.1.length := by
  have hfilter := List.Pairwise.filter (fun x : List α × β => x.1.isPrefixOf text) h.apart
  refine hfilter.imp_of_mem fun {x y} hx hy hnot => ?_
  have hpx := List.isPrefixOf_iff_prefix.mp (List.mem_filter.mp hx).2
  have hpy := List.isPrefixOf_iff_prefix.mp (List.mem_filter.mp hy).2
  -- two beginnings of one text: the shorter begins the longer
  by_contra hlt
  have hpre : x.1 <+: y.1 := List.prefix_of_prefix_length_le hpx hpy (by omega)
  refine hnot ⟨hpre, fun heq => ?_⟩
  rw [heq] at hlt
  exact hlt (Nat.le_refl _)

end Lib
