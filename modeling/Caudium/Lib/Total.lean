import Mathlib.Algebra.Order.BigOperators.Group.List
import Mathlib.Algebra.Order.Group.Int
import Caudium.Lib.Mapping
import Mathlib.Algebra.Ring.Int.Defs

/-!
# Totals over a mapping

The values of a mapping are weighed by a function, and `total` adds them up. A removal takes off
what the entry weighs that is there (`total_erase`), an insertion puts on what the new one weighs
and takes off the one it replaces (`total_insert`).
-/

namespace Lib.Mapping

variable {κ ν : Type} (weight : ν → Int)

/-- What all values weigh together. -/
def total (m : Mapping κ ν) : Int := (m.entries.map fun e => weight e.2).sum

variable [DecidableEq κ]

/-- What there is under a key weighs. -/
def weightAt (m : Mapping κ ν) (k : κ) : Int :=
  match m.lookup k with
  | some v => weight v
  | none => 0

theorem weightAt_some {m : Mapping κ ν} {k : κ} {v : ν} (h : m.lookup k = some v) :
    weightAt weight m k = weight v := by
  rw [weightAt, h]

theorem weightAt_none {m : Mapping κ ν} {k : κ} (h : m.lookup k = none) :
    weightAt weight m k = 0 := by
  rw [weightAt, h]

theorem total_erase (m : Mapping κ ν) (k : κ) :
    total weight (m.erase k) = total weight m - weightAt weight m k := by
  have hentries : ∀ l : List (Sigma fun _ : κ => ν),
      ((l.kerase k).map fun e => weight e.2).sum =
        (l.map fun e => weight e.2).sum - (match l.dlookup k with
          | some v => weight v
          | none => 0) := by
    intro l
    induction l with
    | nil => rfl
    | cons e l ih =>
      obtain ⟨k', v⟩ := e
      by_cases hk : k = k'
      · subst hk
        have hgone : List.kerase k (⟨k, v⟩ :: l) = l := List.kerase_cons_eq rfl
        rw [hgone, List.dlookup_cons_eq, List.map_cons, List.sum_cons]
        dsimp only
        omega
      · rw [List.kerase_cons_ne hk, List.dlookup_cons_ne l ⟨k', v⟩ hk, List.map_cons, List.sum_cons,
          List.map_cons, List.sum_cons, ih]
        omega
  exact hentries m.entries

theorem total_insert (m : Mapping κ ν) (k : κ) (v : ν) :
    total weight (m.insert k v) = total weight m - weightAt weight m k + weight v := by
  have hcons : total weight (m.insert k v) = weight v + total weight (m.erase k) := List.sum_cons
  rw [hcons, total_erase]
  omega

/-- Where nothing weighs anything, the total is 0. -/
theorem total_eq_zero {m : Mapping κ ν} (h : ∀ k v, m.lookup k = some v → weight v = 0) :
    total weight m = 0 := by
  refine List.sum_eq_zero fun x hx => ?_
  obtain ⟨e, he, rfl⟩ := List.mem_map.mp hx
  exact h e.1 e.2 (AList.mem_lookup_iff.mpr he)

theorem total_nonneg {m : Mapping κ ν} (h : ∀ k v, m.lookup k = some v → 0 ≤ weight v) :
    0 ≤ total weight m := by
  refine List.sum_nonneg fun x hx => ?_
  obtain ⟨e, he, rfl⟩ := List.mem_map.mp hx
  exact h e.1 e.2 (AList.mem_lookup_iff.mpr he)

/-- Replacing a value by one of the same weight changes nothing. -/
theorem total_insert_same {m : Mapping κ ν} {k : κ} {v v' : ν} (h : m.lookup k = some v)
    (hsame : weight v' = weight v) : total weight (m.insert k v') = total weight m := by
  rw [total_insert, weightAt_some weight h, hsame]
  omega

/-- Where a value weighs 1 or nothing, the total is the number of keys with those that do. -/
theorem total_eq_length_filter {m : Mapping κ ν} {p : ν → Bool} {q : κ → Bool}
    (h : ∀ k v, m.lookup k = some v → p v = q k) :
    total (fun v => if p v then 1 else 0) m = (m.keys.filter q).length := by
  have hentries : ∀ l : List (Sigma fun _ : κ => ν), (∀ e ∈ l, p e.2 = q e.1) →
      (l.map fun e => if p e.2 then (1 : Int) else 0).sum = ((l.map Sigma.fst).filter q).length := by
    intro l hl
    induction l with
    | nil => rfl
    | cons e l ih =>
      rw [List.forall_mem_cons] at hl
      rw [List.map_cons, List.sum_cons, ih hl.2, hl.1, List.map_cons, List.filter_cons]
      split
      next => rw [List.length_cons]; push_cast; omega
      next => omega
  exact hentries m.entries fun e he => h e.1 e.2 (AList.mem_lookup_iff.mpr he)

end Lib.Mapping
