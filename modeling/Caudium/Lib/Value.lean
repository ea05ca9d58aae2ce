import Caudium.Lib.Mapping
import Mathlib.Algebra.BigOperators.Fin

/-!
# Values

A `Value` is an integer or a string, or an array, a set or a map of values. The elements of
a set and the entries of a map come in the order in which their indices happen to be listed,
so equality of values (`Equal`) is equality up to that order, at every depth. What is
counted in a value without regard to the order, `weigh`, does not tell equal values apart.

Two values are the same key of a map only if they are the same number or the same string:
arrays, sets and maps are compared by identity, and of two that are built apart neither is
the other. In a proper value (`Proper`) no map has the same key twice, and building a map
from its entries (`aggregateMapping`) gives these entries.
-/

namespace Lib

/-- A value. -/
inductive Value where
  | int (n : Int)
  | str (s : Str)
  | arr (xs : List Value)
  | set (xs : List Value)
  | map (entries : List (Value × Value))

namespace Value

/-- Induction over values, with what holds of all the elements and of all the entries. -/
@[elab_as_elim, induction_eliminator]
theorem induct {P : Value → Prop} (int : ∀ n, P (.int n)) (str : ∀ s, P (.str s))
    (arr : ∀ xs, (∀ x ∈ xs, P x) → P (.arr xs)) (set : ∀ xs, (∀ x ∈ xs, P x) → P (.set xs))
    (map : ∀ es, (∀ e ∈ es, P e.1 ∧ P e.2) → P (.map es)) (v : Value) : P v :=
  @Value.rec P (fun xs => ∀ x ∈ xs, P x) (fun es => ∀ e ∈ es, P e.1 ∧ P e.2)
    (fun e => P e.1 ∧ P e.2) int str arr set map nofun (fun _ _ h hs => List.forall_mem_cons.mpr ⟨h, hs⟩) nofun
    (fun _ _ h hs => List.forall_mem_cons.mpr ⟨h, hs⟩) (fun _ _ h h' => ⟨h, h'⟩) v

/-! ## Equality -/

/-- The same value, but for the order of the elements of its sets and of the entries of its
maps. -/
inductive Equal : Value → Value → Prop
  | int (n : Int) : Equal (.int n) (.int n)
  | str (s : Str) : Equal (.str s) (.str s)
  | arr {xs ys : List Value} (h : xs.length = ys.length)
      (hx : ∀ i : Fin xs.length, Equal xs[i] ys[i.cast h]) : Equal (.arr xs) (.arr ys)
  | set {xs ys : List Value} (e : Fin xs.length ≃ Fin ys.length)
      (hx : ∀ i, Equal xs[i] ys[e i]) : Equal (.set xs) (.set ys)
  | map {xs ys : List (Value × Value)} (e : Fin xs.length ≃ Fin ys.length)
      (hkey : ∀ i, Equal xs[i].1 ys[e i].1) (hx : ∀ i, Equal xs[i].2 ys[e i].2) :
      Equal (.map xs) (.map ys)

@[refl] theorem Equal.refl (v : Value) : Equal v v := by
  induction v with
  | int n => exact .int n
  | str s => exact .str s
  | arr xs ih => exact .arr rfl fun i => ih _ (List.getElem_mem _)
  | set xs ih => exact .set (Equiv.refl _) fun i => ih _ (List.getElem_mem _)
  | map es ih =>
    exact .map (Equiv.refl _) (fun i => (ih _ (List.getElem_mem _)).1)
      fun i => (ih _ (List.getElem_mem _)).2

/-- Every string of the value has the property `p`, and if it has a set or a map then `t`. -/
inductive All (p : Str → Prop) (t : Prop) : Value → Prop
  | int (n : Int) : All p t (.int n)
  | str {s : Str} (h : p s) : All p t (.str s)
  | arr {xs : List Value} (h : ∀ x ∈ xs, All p t x) : All p t (.arr xs)
  | set {xs : List Value} (ht : t) (h : ∀ x ∈ xs, All p t x) : All p t (.set xs)
  | map {es : List (Value × Value)} (ht : t) (hkey : ∀ e ∈ es, All p t e.1)
      (h : ∀ e ∈ es, All p t e.2) : All p t (.map es)

/-! ## Counting -/

variable (leaf : Str → Nat) (table : Nat)

mutual

/-- The weights of the strings of a value, and `table` for each of its sets and maps. -/
def weigh : Value → Nat
  | .int _ => 0
  | .str s => leaf s
  | .arr xs => weighAll xs
  | .set xs => table + weighAll xs
  | .map es => table + weighEntries es

def weighAll : List Value → Nat
  | [] => 0
  | x :: xs => weigh x + weighAll xs

def weighEntries : List (Value × Value) → Nat
  | [] => 0
  | (k, x) :: es => weigh k + weigh x + weighEntries es

end

theorem weighAll_eq (xs : List Value) : weighAll leaf table xs = (xs.map (weigh leaf table)).sum := by
  induction xs with
  | nil => rw [weighAll, List.map_nil, List.sum_nil]
  | cons x xs ih => rw [weighAll, ih, List.map_cons, List.sum_cons]

theorem weighEntries_eq (es : List (Value × Value)) : weighEntries leaf table es =
    (es.map fun e => weigh leaf table e.1 + weigh leaf table e.2).sum := by
  induction es with
  | nil => rw [weighEntries, List.map_nil, List.sum_nil]
  | cons e es ih => rw [weighEntries, ih, List.map_cons, List.sum_cons]

/-- A sum over a list, through a matching with another list. -/
theorem sum_map_eq_of_equiv {α β : Type} {xs : List α} {ys : List β} (f : α → Nat) (g : β → Nat)
    (e : Fin xs.length ≃ Fin ys.length) (h : ∀ i, f xs[i] = g ys[e i]) :
    (xs.map f).sum = (ys.map g).sum := by
  have hsum : ∀ {γ : Type} (zs : List γ) (k : γ → Nat),
      (zs.map k).sum = ∑ i : Fin zs.length, k zs[i] := fun zs k => by
    rw [← List.sum_ofFn]
    congr 1
    exact (List.ofFn_getElem_eq_map zs k).symm
  rw [hsum, hsum]
  exact Fintype.sum_equiv e _ _ h

/-- Equal values weigh the same. -/
theorem Equal.weigh_eq {v w : Value} (h : Equal v w) : weigh leaf table v = weigh leaf table w := by
  induction h with
  | int n => rfl
  | str s => rfl
  | arr hl _ ih =>
    rw [weigh, weigh, weighAll_eq, weighAll_eq]
    exact sum_map_eq_of_equiv _ _ (finCongr hl) ih
  | set e _ ih =>
    rw [weigh, weigh, weighAll_eq, weighAll_eq]
    exact congrArg (table + ·) (sum_map_eq_of_equiv _ _ e ih)
  | map e _ _ ihkey ih =>
    rw [weigh, weigh, weighEntries_eq, weighEntries_eq]
    refine congrArg (table + ·) (sum_map_eq_of_equiv _ _ e fun i => ?_)
    rw [ihkey i, ih i]

/-! ## Maps -/

/-- Whether two values that were built apart are the same key. -/
def sameKey : Value → Value → Bool
  | .int n, .int m => n = m
  | .str s, .str t => s = t
  | _, _ => false

/-- No map in the value has the same key twice. -/
inductive Proper : Value → Prop
  | int (n : Int) : Proper (.int n)
  | str (s : Str) : Proper (.str s)
  | arr {xs : List Value} (h : ∀ x ∈ xs, Proper x) : Proper (.arr xs)
  | set {xs : List Value} (h : ∀ x ∈ xs, Proper x) : Proper (.set xs)
  | map {es : List (Value × Value)} (hkey : ∀ e ∈ es, Proper e.1) (h : ∀ e ∈ es, Proper e.2)
      (hne : es.Pairwise fun e f => sameKey e.1 f.1 = false) : Proper (.map es)

/-- `m[k] = v`. -/
def putEntry (es : List (Value × Value)) (k v : Value) : List (Value × Value) :=
  match es with
  | [] => [(k, v)]
  | e :: es => if sameKey e.1 k then (e.1, v) :: es else e :: putEntry es k v

/-- The entries of `aggregate_mapping(@xs)`: `xs` has the keys and the values by turns. The
call throws if there is a key without a value. -/
def aggregateMapping (es : List (Value × Value)) : List Value → Option (List (Value × Value))
  | [] => some es
  | [_] => none
  | k :: v :: xs => aggregateMapping (putEntry es k v) xs

theorem putEntry_new {es : List (Value × Value)} {k v : Value}
    (h : ∀ e ∈ es, sameKey e.1 k = false) : putEntry es k v = es ++ [(k, v)] := by
  induction es with
  | nil => rfl
  | cons e es ih =>
    have he := h e List.mem_cons_self
    rw [putEntry, he, if_neg Bool.false_ne_true, ih fun f hf => h f (List.mem_cons_of_mem _ hf),
      List.cons_append]

/-- An entry adds no more than its weight. -/
theorem weighEntries_putEntry_le (es : List (Value × Value)) (k v : Value) :
    weighEntries leaf table (putEntry es k v) ≤
      weighEntries leaf table es + (weigh leaf table k + weigh leaf table v) := by
  induction es with
  | nil =>
    simp only [putEntry, weighEntries]
    omega
  | cons e es ih =>
    rw [putEntry]
    split
    · simp only [weighEntries]
      omega
    · simp only [weighEntries]
      omega

theorem weighEntries_foldl_le (ds : List (Value × Value)) : ∀ es,
    weighEntries leaf table (ds.foldl (fun acc e => putEntry acc e.1 e.2) es) ≤
      weighEntries leaf table es + weighEntries leaf table ds := by
  induction ds with
  | nil => intro es; exact Nat.le_add_right _ _
  | cons d ds ih =>
    intro es
    have hput := weighEntries_putEntry_le leaf table es d.1 d.2
    have hds := ih (putEntry es d.1 d.2)
    rw [List.foldl_cons, weighEntries]
    omega

/-- The entries are put in one after the other. -/
theorem aggregateMapping_entries (es : List (Value × Value)) :
    ∀ fs, aggregateMapping fs (es.flatMap fun e => [e.1, e.2]) =
      some (es.foldl (fun acc e => putEntry acc e.1 e.2) fs) := by
  induction es with
  | nil => intro fs; rfl
  | cons e es ih => intro fs; exact ih (putEntry fs e.1 e.2)

/-- Entries with different keys are all kept. -/
theorem foldl_putEntry {es : List (Value × Value)} :
    ∀ {fs : List (Value × Value)}, (fs ++ es).Pairwise (fun e f => sameKey e.1 f.1 = false) →
      es.foldl (fun acc e => putEntry acc e.1 e.2) fs = fs ++ es := by
  induction es with
  | nil => intro fs _; exact (List.append_nil fs).symm
  | cons e es ih =>
    intro fs h
    have hnew : ∀ f ∈ fs, sameKey f.1 e.1 = false := fun f hf =>
      (List.pairwise_append.mp h).2.2 f hf e List.mem_cons_self
    rw [List.append_cons] at h ⊢
    rw [← ih h, ← putEntry_new hnew]
    rfl

end Value

end Lib
