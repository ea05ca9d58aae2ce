import Mathlib.Algebra.BigOperators.Group.List.Basic
import Caudium.Lib.Mapping
import Caudium.Lib.Tally
import Caudium.UltraLog.PageHits

/-!
# Merging tables (`do_map_addition`, ultrautil.c)

The tables of days are merged into those of months, and these into those of years. A table has
counts and tables below its keys, to any depth, and is said by what is at the end of each path of
keys (`Table.cell`). Merging tables of one shape adds these up, path by path, so it makes no
difference in which order they come and what was merged before (`merged_sum`).
-/

namespace Caudium.UltraLog

open Lib (Str Mapping)
open Lib.Mapping (mergeM)

/-! ## Tables -/

inductive Key where
  | string (s : Str)
  | integer (n : Int)
  deriving DecidableEq, Repr

/-- What is below a key: a count, or a mapping, down to a depth. -/
def Value : Nat → Type
  | 0 => Int
  | n + 1 => Int ⊕ Mapping Key (Value n)

abbrev Table (n : Nat) := Mapping Key (Value n)

/-- `mapaddintnum`, for what is under a key. -/
def addCount (old : Option Int) (count : Int) : Option Int := some (old.getD 0 + count)

/-- What is done for an entry whose value is a count or a mapping; `add` is `do_map_addition` for the
mappings below. There is no result where a count meets a mapping: one would be taken for the other. -/
def addEntry {n : Nat} (add : Table n → Table n → Option (Table n))
    (old : Option (Int ⊕ Table n)) (value : Int ⊕ Table n) : Option (Int ⊕ Table n) :=
  match value, old with
  | .inl count, none => some (.inl count)
  | .inl count, some (.inl sum) => some (.inl (sum + count))
  | .inr source, none => (add ∅ source).map .inr
  | .inr source, some (.inr table) => (add table source).map .inr
  | _, _ => none

/-- `do_map_addition`. -/
def addTable : (n : Nat) → Table n → Table n → Option (Table n)
  | 0 => mergeM addCount
  | n + 1 => mergeM (addEntry (addTable n))

/-- The tables of a list are merged into an empty one. -/
def mergeTables {n : Nat} (ts : List (Table n)) : Option (Table n) := ts.foldlM (addTable n) ∅

/-- Tables that are merged, some of them with others before. -/
inductive Plan (n : Nat) where
  | table (t : Table n)
  | merged (parts : List (Plan n))

mutual

/-- What becomes of the tables. -/
def Plan.run {n : Nat} : Plan n → Option (Table n)
  | .table t => some t
  | .merged parts => (Plan.runAll parts).bind mergeTables

def Plan.runAll {n : Nat} : List (Plan n) → Option (List (Table n))
  | [] => some []
  | plan :: plans => plan.run.bind fun t => (Plan.runAll plans).map (t :: ·)

end

mutual

/-- The tables that there are at first. -/
def Plan.tables {n : Nat} : Plan n → List (Table n)
  | .table t => [t]
  | .merged parts => Plan.allTables parts

def Plan.allTables {n : Nat} : List (Plan n) → List (Table n)
  | [] => []
  | plan :: plans => plan.tables ++ Plan.allTables plans

end

/-- Tables that have counts only are added up as `ultraparse` does it. -/
theorem addTable_zero (to' source : Table 0) :
    addTable 0 to' source = some (@doMapAddition Key _ to' source) :=
  foldlM_some (fun _ _ _ => rfl) to'

/-! ## What is at the end of a path -/

inductive Cell where
  | nothing
  | count (c : Int)
  | table
  deriving DecidableEq, Repr

/-- Counts are added up, and tables are there where one is. -/
def Cell.add : Cell → Cell → Cell
  | .nothing, b => b
  | a, .nothing => a
  | .count c, .count d => .count (c + d)
  | _, _ => .table

instance : Zero Cell := ⟨.nothing⟩

instance : Add Cell := ⟨Cell.add⟩

instance : AddCommMonoid Cell where
  zero_add a := by cases a <;> rfl
  add_zero a := by cases a <;> rfl
  add_comm a b := by
    cases a <;> cases b <;> try rfl
    exact congrArg Cell.count (Int.add_comm ..)
  add_assoc a b c := by
    cases a <;> cases b <;> cases c <;> try rfl
    exact congrArg Cell.count (Int.add_assoc ..)
  nsmul := nsmulRec

/-- What is at the end of a path below a key, or below none. -/
def Value.cell : (n : Nat) → Value n → List Key → Cell
  | 0, c, path => if path = [] then .count c else 0
  | _ + 1, .inl c, path => if path = [] then .count c else 0
  | _ + 1, .inr _, [] => .table
  | n + 1, .inr m, k :: path => (m.lookup k).elim 0 fun v => Value.cell n v path

def Table.cell {n : Nat} (t : Table n) : List Key → Cell
  | [] => 0
  | k :: path => (t.lookup k).elim 0 fun v => Value.cell n v path

/-- `shape` says of each path whether it leads to counts, or to tables. -/
def Cell.Is (leaf : Bool) : Cell → Prop
  | .nothing => True
  | .count _ => leaf = true
  | .table => leaf = false

def HasShape {n : Nat} (shape : List Key → Bool) (t : Table n) : Prop :=
  ∀ path, (t.cell path).Is (shape path)

/-- No path leads to a count in one of the tables and to a table in another. -/
def OneShape {n : Nat} (ts : List (Table n)) : Prop := ∃ shape, ∀ t ∈ ts, HasShape shape t

/-! ## Two tables -/

variable {n : Nat} {shape : List Key → Bool}

theorem Cell.Is.add {leaf : Bool} {a b : Cell} (ha : a.Is leaf) (hb : b.Is leaf) :
    (a + b).Is leaf := by
  cases a with
  | nothing => exact hb
  | count c =>
    cases b with
    | nothing => exact ha
    | count d => exact ha
    | table => exact hb
  | table =>
    cases b with
    | nothing => exact ha
    | count d => exact ha
    | table => exact ha

/-- What is at the end of a path below a key that may be missing. -/
def cellBelow (n : Nat) (value : Option (Value n)) (path : List Key) : Cell :=
  value.elim 0 fun v => Value.cell n v path

theorem cell_cons (t : Table n) (k : Key) (path : List Key) :
    t.cell (k :: path) = cellBelow n (t.lookup k) path := rfl

/-- What is under a key of one table can be merged into what is under it in the other one. -/
def Adds (n : Nat) (add : Option (Value n) → Value n → Option (Value n)) : Prop :=
  ∀ (shape : List Key → Bool) (old : Option (Value n)) (value : Value n),
    (∀ path, (cellBelow n old path).Is (shape path)) →
      (∀ path, (Value.cell n value path).Is (shape path)) →
        ∃ w, add old value = some w ∧
          ∀ path, Value.cell n w path = cellBelow n old path + Value.cell n value path

theorem adds_mergeM {add : Option (Value n) → Value n → Option (Value n)} (hadd : Adds n add)
    {t source : Table n} (ht : HasShape shape t) (hs : HasShape shape source) :
    ∃ r : Table n, mergeM add t source = some r ∧
      ∀ path, r.cell path = t.cell path + source.cell path := by
  have hstep : ∀ k v, source.lookup k = some v → ∃ w, add (t.lookup k) v = some w ∧
      ∀ path, Value.cell n w path = cellBelow n (t.lookup k) path + Value.cell n v path := by
    intro k v hv
    refine hadd (fun path => shape (k :: path)) _ v (fun path => ht (k :: path)) fun path => ?_
    have hcell := hs (k :: path)
    rw [cell_cons, hv] at hcell
    exact hcell
  obtain ⟨r, hr, hlookup⟩ := Lib.Mapping.exists_mergeM fun k v hv => (hstep k v hv).imp fun _ h => h.1
  refine ⟨r, hr, fun path => ?_⟩
  cases path with
  | nil => exact (add_zero 0).symm
  | cons k path =>
    rw [cell_cons, cell_cons, cell_cons, hlookup k]
    cases hv : source.lookup k with
    | none => exact (add_zero _).symm
    | some v =>
      obtain ⟨w, hw, hcell⟩ := hstep k v hv
      rw [Option.elim_some, hw]
      exact hcell path

theorem adds_addCount : Adds 0 addCount := by
  intro shape (old : Option Int) (value : Int) _ _
  refine ⟨old.getD 0 + value, rfl, fun path => ?_⟩
  cases old with
  | none =>
    show (if path = [] then Cell.count (0 + value) else 0) = 0 + if path = [] then .count value else 0
    rw [zero_add, zero_add]
  | some old =>
    show (if path = [] then Cell.count (old + value) else 0) =
      (if path = [] then .count old else 0) + if path = [] then .count value else 0
    split
    · rfl
    · rfl

theorem hasShape_empty : HasShape shape (∅ : Table n) := by
  intro path
  cases path with
  | nil => trivial
  | cons k path =>
    rw [cell_cons, AList.lookup_empty]
    trivial

theorem hasShape_insert {t : Table n} (ht : HasShape shape t) {k : Key} {v : Value n}
    (hv : ∀ path, (Value.cell n v path).Is (shape (k :: path))) :
    HasShape shape (AList.insert k v t) := by
  intro path
  cases path with
  | nil => trivial
  | cons k' path =>
    rw [cell_cons, Lib.Mapping.lookup_insert_ite]
    split
    · next hk =>
      rw [hk]
      exact hv path
    · exact ht (k' :: path)

/-- What is below a mapping is what is in the table. -/
theorem hasShape_below {t : Table n}
    (h : ∀ path, (Value.cell (n + 1) (.inr t) path).Is (shape path)) : HasShape shape t := by
  intro path
  cases path with
  | nil => trivial
  | cons k path => exact h (k :: path)

/-- What the table's merging gives, below a mapping. -/
theorem cell_below_add {old : Option (Value (n + 1))} {t source r : Table n}
    (hroot : cellBelow (n + 1) old [] + .table = .table)
    (hold : ∀ k path, cellBelow (n + 1) old (k :: path) = t.cell (k :: path))
    (hcell : ∀ path, r.cell path = t.cell path + source.cell path) (path : List Key) :
    Value.cell (n + 1) (.inr r) path =
      cellBelow (n + 1) old path + Value.cell (n + 1) (.inr source) path := by
  cases path with
  | nil => exact hroot.symm
  | cons k path =>
    rw [hold]
    exact hcell (k :: path)

theorem adds_addEntry {add : Table n → Table n → Option (Table n)}
    (hadd : ∀ {shape : List Key → Bool} {t source : Table n}, HasShape shape t →
      HasShape shape source → ∃ r : Table n, add t source = some r ∧
        ∀ path, r.cell path = t.cell path + source.cell path) :
    Adds (n + 1) (addEntry add) := by
  intro shape old value hold hvalue
  cases value with
  | inl count =>
    cases old with
    | none => exact ⟨.inl count, rfl, fun path => (zero_add _).symm⟩
    | some old =>
      cases old with
      | inl sum =>
        refine ⟨.inl (sum + count), rfl, fun path => ?_⟩
        show (if path = [] then Cell.count (sum + count) else 0) =
          (if path = [] then .count sum else 0) + if path = [] then .count count else 0
        split
        · rfl
        · rfl
      | inr table =>
        have htable : shape [] = false := hold []
        have hcount : shape [] = true := hvalue []
        rw [htable] at hcount
        cases hcount
  | inr source =>
    cases old with
    | none =>
      obtain ⟨r, hr, hcell⟩ := hadd hasShape_empty (hasShape_below hvalue)
      refine ⟨.inr r, ?_, cell_below_add rfl (fun k path => ?_) hcell⟩
      · show (add ∅ source).map _ = _
        rw [hr]
        rfl
      · rw [cell_cons, AList.lookup_empty]
        rfl
    | some old =>
      cases old with
      | inl sum =>
        have hcount : shape [] = true := hold []
        have htable : shape [] = false := hvalue []
        rw [htable] at hcount
        cases hcount
      | inr table =>
        obtain ⟨r, hr, hcell⟩ := hadd (hasShape_below hold) (hasShape_below hvalue)
        refine ⟨.inr r, ?_, cell_below_add rfl (fun k path => rfl) hcell⟩
        show (add table source).map _ = _
        rw [hr]
        rfl

/-- Two tables of one shape are added up, path by path. -/
theorem exists_addTable (n : Nat) {shape : List Key → Bool} {t source : Table n}
    (ht : HasShape shape t) (hs : HasShape shape source) : ∃ r : Table n,
      addTable n t source = some r ∧ ∀ path, r.cell path = t.cell path + source.cell path := by
  induction n generalizing shape with
  | zero => exact adds_mergeM adds_addCount ht hs
  | succ n ih => exact adds_mergeM (adds_addEntry fun ht hs => ih ht hs) ht hs

/-! ## Many tables -/

theorem exists_mergeTables {ts : List (Table n)} (hts : ∀ t ∈ ts, HasShape shape t) :
    ∃ r : Table n, mergeTables ts = some r ∧ HasShape shape r ∧
      ∀ path, r.cell path = (ts.map fun t => t.cell path).sum := by
  have hfold : ∀ (ts : List (Table n)) (acc : Table n), HasShape shape acc →
      (∀ t ∈ ts, HasShape shape t) → ∃ r : Table n, ts.foldlM (addTable n) acc = some r ∧
        HasShape shape r ∧
        ∀ path, r.cell path = acc.cell path + (ts.map fun t => t.cell path).sum := by
    intro ts
    induction ts with
    | nil => exact fun acc hacc _ => ⟨acc, rfl, hacc, fun path => (add_zero _).symm⟩
    | cons t ts ih =>
      intro acc hacc hall
      have ht := hall t List.mem_cons_self
      obtain ⟨r, hr, hcell⟩ := exists_addTable n hacc ht
      have hshape : HasShape shape r := fun path => by
        rw [hcell path]
        exact (hacc path).add (ht path)
      obtain ⟨r', hr', hshape', hcell'⟩ := ih r hshape fun t' ht' =>
        hall t' (List.mem_cons_of_mem t ht')
      refine ⟨r', ?_, hshape', fun path => ?_⟩
      · rw [List.foldlM_cons, hr]
        exact hr'
      · rw [hcell' path, hcell path, List.map_cons, List.sum_cons, add_assoc]
  obtain ⟨r, hr, hshape, hcell⟩ := hfold ts ∅ hasShape_empty hts
  refine ⟨r, hr, hshape, fun path => ?_⟩
  have hempty : Table.cell (∅ : Table n) path = 0 := by
    cases path with
    | nil => rfl
    | cons k path =>
      rw [cell_cons, AList.lookup_empty]
      rfl
  rw [hcell path, hempty, zero_add]

mutual

theorem Plan.exists_run {n : Nat} {shape : List Key → Bool} :
    (plan : Plan n) → (∀ t ∈ plan.tables, HasShape shape t) →
      ∃ r : Table n, plan.run = some r ∧ HasShape shape r ∧
        ∀ path, r.cell path = (plan.tables.map fun t => t.cell path).sum
  | .table t, h => by
    refine ⟨t, by rw [Plan.run], h t (by simp [Plan.tables]), fun path => ?_⟩
    simp [Plan.tables]
  | .merged parts, h => by
    rw [Plan.tables] at h
    obtain ⟨rs, hrs, hshape, hsum⟩ := Plan.exists_runAll parts h
    obtain ⟨r, hr, hshape', hsum'⟩ := exists_mergeTables hshape
    refine ⟨r, ?_, hshape', fun path => ?_⟩
    · rw [Plan.run, hrs]
      exact hr
    · rw [Plan.tables, hsum' path, hsum path]

theorem Plan.exists_runAll {n : Nat} {shape : List Key → Bool} :
    (plans : List (Plan n)) → (∀ t ∈ Plan.allTables plans, HasShape shape t) →
      ∃ rs : List (Table n), Plan.runAll plans = some rs ∧ (∀ r ∈ rs, HasShape shape r) ∧
        ∀ path, (rs.map fun r => Table.cell r path).sum =
          ((Plan.allTables plans).map fun t => Table.cell t path).sum
  | [], _ => by
    refine ⟨[], by rw [Plan.runAll], fun r hr => ?_, fun path => ?_⟩
    · cases hr
    · rw [Plan.allTables]
  | plan :: plans, h => by
    rw [Plan.allTables, List.forall_mem_append] at h
    obtain ⟨r, hr, hshape, hcell⟩ := plan.exists_run h.1
    obtain ⟨rs, hrs, hshapes, hsum⟩ := Plan.exists_runAll plans h.2
    refine ⟨r :: rs, ?_, List.forall_mem_cons.2 ⟨hshape, hshapes⟩, fun path => ?_⟩
    · rw [Plan.runAll, hr, Option.bind_some, hrs]
      rfl
    · rw [Plan.allTables, List.map_append, List.sum_append, List.map_cons, List.sum_cons,
        hcell path, hsum path]

end

def atNoon (count : Value 0) : Value 1 := .inr ((∅ : Table 0).insert (.integer 12) count)

/-- The hits of a page at noon. -/
def noonHits (count : Value 0) : Table 1 :=
  (∅ : Table 1).insert (.string "/index.html".toList) (atNoon count)

theorem hasShape_noonHits (count : Value 0) :
    HasShape (fun path => path.length != 1) (noonHits count) := by
  refine hasShape_insert hasShape_empty fun path => ?_
  have hhours : HasShape (fun path => path.length != 0)
      ((∅ : Table 0).insert (.integer 12) count) := by
    refine hasShape_insert hasShape_empty fun path => ?_
    cases path with
    | nil => rfl
    | cons _ _ => trivial
  cases path with
  | nil => rfl
  | cons k path => exact hhours (k :: path)

end Caudium.UltraLog
