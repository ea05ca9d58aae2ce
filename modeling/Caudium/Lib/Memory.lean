import Mathlib.Order.Basic

/-!
# Memory that is stored to

A `Memory α` is a row of cells, and how far from its start cells have been stored to. Stores
come in runs of consecutive cells (`storeList`). What is read back is what was stored last at
these places: the rules are one for the cells of a run (`read_storeList`) and one for the cells
beside it (`read_storeList_of_disjoint`).
-/

namespace Lib

/-- Cells, and one more than the highest that was stored to. -/
structure Memory (α : Type) where
  cell : Nat → α
  high : Nat

namespace Memory

variable {α : Type}

def store (m : Memory α) (k : Nat) (a : α) : Memory α :=
  { cell := fun i => if i = k then a else m.cell i, high := max m.high (k + 1) }

/-- Stores from `k` on. -/
def storeList (m : Memory α) (k : Nat) : List α → Memory α
  | [] => m
  | a :: as => (m.store k a).storeList (k + 1) as

/-- The `n` cells from `k` on. -/
def read (m : Memory α) (k : Nat) : Nat → List α
  | 0 => []
  | n + 1 => m.cell k :: m.read (k + 1) n

@[simp] theorem cell_store_same (m : Memory α) (k : Nat) (a : α) : (m.store k a).cell k = a :=
  if_pos rfl

theorem cell_store_ne (m : Memory α) {k k' : Nat} (h : k' ≠ k) (a : α) :
    (m.store k a).cell k' = m.cell k' := if_neg h

@[simp] theorem high_store (m : Memory α) (k : Nat) (a : α) :
    (m.store k a).high = max m.high (k + 1) := rfl

theorem read_add (m : Memory α) (k n n' : Nat) :
    m.read k (n + n') = m.read k n ++ m.read (k + n) n' := by
  induction n generalizing k with
  | zero => rw [Nat.zero_add]; rfl
  | succ n ih =>
    rw [Nat.add_right_comm, read, read, ih, List.cons_append]
    congr 3
    omega

theorem length_read (m : Memory α) (k n : Nat) : (m.read k n).length = n := by
  induction n generalizing k with
  | zero => rfl
  | succ n ih => rw [read, List.length_cons, ih]

theorem drop_read (m : Memory α) (k n i : Nat) : (m.read k n).drop i = m.read (k + i) (n - i) := by
  induction i generalizing k n with
  | zero => rfl
  | succ i ih =>
    cases n with
    | zero => rw [Nat.zero_sub]; rfl
    | succ n =>
      rw [read, List.drop_succ_cons, ih, Nat.add_sub_add_right]
      congr 1
      omega

/-- Reading depends on the cells read only. -/
theorem read_congr {m m' : Memory α} {k n : Nat}
    (h : ∀ i, k ≤ i → i < k + n → m.cell i = m'.cell i) : m.read k n = m'.read k n := by
  induction n generalizing k with
  | zero => rfl
  | succ n ih =>
    rw [read, read, h k (Nat.le_refl k) (by omega)]
    rw [ih fun i hi hlt => h i (by omega) (by omega)]

theorem read_store_of_disjoint (m : Memory α) {k k' n : Nat} (h : k < k' ∨ k' + n ≤ k) (a : α) :
    (m.store k a).read k' n = m.read k' n :=
  read_congr fun i hi hlt => m.cell_store_ne (by omega) a

theorem storeList_append (m : Memory α) (k : Nat) (as bs : List α) :
    m.storeList k (as ++ bs) = (m.storeList k as).storeList (k + as.length) bs := by
  induction as generalizing m k with
  | nil => rfl
  | cons a as ih =>
    rw [List.cons_append, storeList, storeList, ih, List.length_cons]
    congr 1
    omega

theorem storeList_singleton (m : Memory α) (k : Nat) (a : α) : m.storeList k [a] = m.store k a := rfl

theorem read_storeList_of_disjoint (m : Memory α) {k k' n : Nat} {as : List α}
    (h : k + as.length ≤ k' ∨ k' + n ≤ k) : (m.storeList k as).read k' n = m.read k' n := by
  induction as generalizing m k with
  | nil => rfl
  | cons a as ih =>
    rw [List.length_cons] at h
    rw [storeList, ih (m.store k a) (by omega)]
    exact m.read_store_of_disjoint (by omega) a

theorem read_storeList (m : Memory α) (k : Nat) (as : List α) :
    (m.storeList k as).read k as.length = as := by
  induction as generalizing m k with
  | nil => rfl
  | cons a as ih =>
    have hfirst : ((m.store k a).storeList (k + 1) as).read k 1 = (m.store k a).read k 1 :=
      read_storeList_of_disjoint _ (Or.inr (Nat.le_refl _))
    have hcell : ((m.store k a).storeList (k + 1) as).cell k = a :=
      (List.cons.inj hfirst).1.trans (m.cell_store_same k a)
    rw [storeList, List.length_cons, read, ih, hcell]

theorem high_storeList (m : Memory α) (k : Nat) (as : List α) :
    (m.storeList k as).high = if as = [] then m.high else max m.high (k + as.length) := by
  induction as generalizing m k with
  | nil => rfl
  | cons a as ih =>
    rw [storeList, ih, if_neg (List.cons_ne_nil a as), high_store, List.length_cons]
    cases as with
    | nil => rfl
    | cons b bs =>
      rw [if_neg (List.cons_ne_nil b bs), List.length_cons]
      omega

end Memory

end Lib
