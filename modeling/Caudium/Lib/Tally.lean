import Caudium.Lib.Total

/-!
# Adding up under keys

A mapping to numbers in which what is added under a key is added to what there is (`addAt`), or to
nothing. What is read after a list of additions is what was there and the sum of those under the
key (`valueAt_addAll`), so the order of the additions makes no difference.

A table counts a list if, whatever a property of keys is, the numbers under the keys with it add up
to how many elements have it (`Tallies`). One more element is an addition of 1 (`Tallies.concat`),
and a table whose entries are added up under other keys counts the list of the other keys
(`Tallies.rekey`). A table of tables counts pairs (`Tabulates`).
-/

namespace Lib.Mapping

section

variable {κ ν : Type} [DecidableEq κ] [AddCommMonoid ν]

/-- The number under a key, which is 0 if there is none. -/
def valueAt (m : Mapping κ ν) (k : κ) : ν := (m.lookup k).getD 0

def addAt (m : Mapping κ ν) (k : κ) (v : ν) : Mapping κ ν := m.insert k (m.valueAt k + v)

def addAll (m : Mapping κ ν) (l : List (κ × ν)) : Mapping κ ν :=
  l.foldl (fun m e => m.addAt e.1 e.2) m

theorem valueAt_of_lookup {m : Mapping κ ν} {k : κ} {v : ν} (h : m.lookup k = some v) :
    m.valueAt k = v := by
  rw [valueAt, h, Option.getD_some]

theorem valueAt_of_notMem {m : Mapping κ ν} {k : κ} (h : k ∉ m) : m.valueAt k = 0 := by
  rw [valueAt, AList.lookup_eq_none.2 h, Option.getD_none]

theorem lookup_addAt (m : Mapping κ ν) (k k' : κ) (v : ν) :
    (m.addAt k v).lookup k' = if k' = k then some (m.valueAt k + v) else m.lookup k' :=
  lookup_insert_ite m k k' _

theorem valueAt_addAt (m : Mapping κ ν) (k k' : κ) (v : ν) :
    (m.addAt k v).valueAt k' = m.valueAt k' + if k' = k then v else 0 := by
  rw [valueAt, lookup_addAt]
  by_cases h : k' = k
  · rw [if_pos h, if_pos h, Option.getD_some, h]
  · rw [if_neg h, if_neg h, add_zero]
    rfl

@[simp] theorem mem_addAt (m : Mapping κ ν) (k k' : κ) (v : ν) :
    k' ∈ m.addAt k v ↔ k' = k ∨ k' ∈ m :=
  AList.mem_insert m

/-- What is read after a list of additions. -/
theorem valueAt_addAll (m : Mapping κ ν) (l : List (κ × ν)) (k : κ) :
    (m.addAll l).valueAt k = m.valueAt k + ((l.filter fun e => e.1 = k).map Prod.snd).sum := by
  induction l generalizing m with
  | nil => exact (add_zero _).symm
  | cons e l ih =>
    rw [show m.addAll (e :: l) = (m.addAt e.1 e.2).addAll l from rfl, ih, valueAt_addAt, add_assoc]
    by_cases h : e.1 = k
    · rw [if_pos h.symm, List.filter_cons_of_pos (by simpa using h), List.map_cons, List.sum_cons]
    · rw [if_neg fun h' => h h'.symm, zero_add, List.filter_cons_of_neg (by simpa using h)]

theorem mem_addAll (m : Mapping κ ν) (l : List (κ × ν)) (k : κ) :
    k ∈ m.addAll l ↔ k ∈ m ∨ k ∈ l.map Prod.fst := by
  induction l generalizing m with
  | nil => simp [addAll]
  | cons e l ih =>
    rw [show m.addAll (e :: l) = (m.addAt e.1 e.2).addAll l from rfl, ih, mem_addAt, List.map_cons,
      List.mem_cons]
    tauto

/-- What is read under a key that has a number is that number. -/
theorem lookup_eq_valueAt {m : Mapping κ ν} {k : κ} (h : k ∈ m) :
    m.lookup k = some (m.valueAt k) := by
  obtain ⟨v, hv⟩ := Option.isSome_iff_exists.mp (AList.lookup_isSome.mpr h)
  rw [valueAt_of_lookup hv, hv]

/-- Additions of integers add to the total. -/
theorem total_addAt (m : Mapping κ Int) (k : κ) (v : Int) :
    total id (m.addAt k v) = total id m + v := by
  rw [addAt, total_insert]
  have hweight : weightAt id m k = m.valueAt k := by
    unfold weightAt valueAt
    cases m.lookup k <;> rfl
  rw [hweight]
  show _ + (m.valueAt k + v) = _
  omega

theorem total_addAll (m : Mapping κ Int) (l : List (κ × Int)) :
    total id (m.addAll l) = total id m + (l.map Prod.snd).sum := by
  induction l generalizing m with
  | nil => exact (Int.add_zero _).symm
  | cons e l ih =>
    rw [show m.addAll (e :: l) = (m.addAt e.1 e.2).addAll l from rfl, ih, total_addAt,
      List.map_cons, List.sum_cons, Int.add_assoc]

theorem length_keys_addAt (m : Mapping κ ν) (k : κ) (v : ν) :
    (m.addAt k v).keys.length ≤ m.keys.length + 1 := by
  rw [addAt, AList.keys_insert, List.length_cons]
  exact Nat.succ_le_succ List.erase_sublist.length_le

theorem length_keys_addAll (m : Mapping κ ν) (l : List (κ × ν)) :
    (m.addAll l).keys.length ≤ m.keys.length + l.length := by
  induction l generalizing m with
  | nil => exact Nat.le_refl _
  | cons e l ih =>
    refine (ih (m.addAt e.1 e.2)).trans ?_
    have hone := length_keys_addAt m e.1 e.2
    rw [List.length_cons]
    omega

/-- Entries under new keys are added to nothing. -/
theorem foldl_insert_eq_addAll {m : Mapping κ ν} {l : List (κ × ν)}
    (hnodup : (l.map Prod.fst).Nodup) (hnew : ∀ e ∈ l, e.1 ∉ m) :
    l.foldl (fun m e => m.insert e.1 e.2) m = m.addAll l := by
  induction l generalizing m with
  | nil => rfl
  | cons e l ih =>
    obtain ⟨hout, hrest⟩ := List.nodup_cons.1 hnodup
    have hadd : m.insert e.1 e.2 = m.addAt e.1 e.2 := by
      rw [addAt, valueAt_of_notMem (hnew e List.mem_cons_self), zero_add]
    rw [List.foldl_cons, hadd]
    refine ih hrest fun e' he' hmem => ?_
    obtain heq | hmem := (mem_addAt ..).1 hmem
    · exact hout (heq ▸ List.mem_map_of_mem he')
    · exact hnew e' (List.mem_cons_of_mem e he') hmem

end

variable {κ κ' μ μ' ν : Type}

/-! ## Weighing the entries -/

/-- What all entries weigh together. -/
def weigh (weight : κ → ν → Int) (m : Mapping κ ν) : Int :=
  (m.entries.map fun e => weight e.1 e.2).sum

/-- The numbers under the keys that have the property, together. -/
def countWhere (p : κ → Bool) (m : Mapping κ Int) : Int := weigh (fun k n => if p k then n else 0) m

/-- The numbers under the pairs of keys that have the property, together. -/
def countPairs (p : κ → μ → Bool) (t : Mapping κ (Mapping μ Int)) : Int :=
  weigh (fun k m => m.countWhere (p k)) t

/-- The table counts the elements of the list. -/
def Tallies (m : Mapping κ Int) (xs : List κ) : Prop := ∀ p, m.countWhere p = xs.countP p

/-- The table of tables counts the pairs of the list. -/
def Tabulates (t : Mapping κ (Mapping μ Int)) (xs : List (κ × μ)) : Prop :=
  ∀ p : κ → μ → Bool, t.countPairs p = xs.countP fun x => p x.1 x.2

theorem tallies_empty : Tallies (∅ : Mapping κ Int) [] := fun _ => rfl

theorem tabulates_empty : Tabulates (∅ : Mapping κ (Mapping μ Int)) [] := fun _ => rfl

variable [DecidableEq κ] [DecidableEq κ'] [DecidableEq μ] [DecidableEq μ']

theorem weigh_erase (weight : κ → ν → Int) (m : Mapping κ ν) (k : κ) :
    weigh weight (m.erase k) = weigh weight m - (m.lookup k).elim 0 (weight k) := by
  have hentries : ∀ l : List (Sigma fun _ : κ => ν),
      ((l.kerase k).map fun e => weight e.1 e.2).sum =
        (l.map fun e => weight e.1 e.2).sum - (l.dlookup k).elim 0 (weight k) := by
    intro l
    induction l with
    | nil => rfl
    | cons e l ih =>
      obtain ⟨k', v⟩ := e
      by_cases hk : k = k'
      · subst hk
        have hgone : List.kerase k (⟨k, v⟩ :: l) = l := List.kerase_cons_eq rfl
        rw [hgone, List.dlookup_cons_eq, List.map_cons, List.sum_cons]
        show _ = weight k v + _ - weight k v
        omega
      · rw [List.kerase_cons_ne hk, List.dlookup_cons_ne l ⟨k', v⟩ hk, List.map_cons, List.sum_cons,
          List.map_cons, List.sum_cons, ih]
        omega
  exact hentries m.entries

theorem weigh_insert (weight : κ → ν → Int) (m : Mapping κ ν) (k : κ) (v : ν) :
    weigh weight (m.insert k v) =
      weigh weight m - (m.lookup k).elim 0 (weight k) + weight k v := by
  have hcons : weigh weight (m.insert k v) = weight k v + weigh weight (m.erase k) := List.sum_cons
  rw [hcons, weigh_erase]
  omega

/-- Where the other entries weigh nothing, only what there is under the key does. -/
theorem weigh_single {weight : κ → ν → Int} {m : Mapping κ ν} {k : κ}
    (h : ∀ k' v, k' ≠ k → weight k' v = 0) : weigh weight m = (m.lookup k).elim 0 (weight k) := by
  have hrest : weigh weight (m.erase k) = 0 := by
    refine List.sum_eq_zero fun x hx => ?_
    obtain ⟨e, he, rfl⟩ := List.mem_map.mp hx
    refine h e.1 e.2 fun heq => ?_
    have hmem : e.1 ∈ m.erase k := AList.mem_keys.2 (List.mem_map_of_mem he)
    exact (AList.mem_erase.1 hmem).1 heq
  have herase := weigh_erase weight m k
  omega

/-! ## One table -/

theorem countWhere_addAt (p : κ → Bool) (m : Mapping κ Int) (k : κ) (n : Int) :
    (m.addAt k n).countWhere p = m.countWhere p + if p k then n else 0 := by
  have hold : (m.lookup k).elim 0 (fun n => if p k then n else 0) =
      if p k then m.valueAt k else 0 := by
    unfold valueAt
    cases m.lookup k with
    | none => simp
    | some v => rfl
  unfold countWhere
  rw [addAt, weigh_insert, hold]
  split
  · omega
  · omega

/-- What is read in the table is how often the key is in the list. -/
theorem Tallies.valueAt [BEq κ] [LawfulBEq κ] {m : Mapping κ Int} {xs : List κ} (h : Tallies m xs)
    (k : κ) : m.valueAt k = xs.count k := by
  have hsingle : m.countWhere (fun k' => k' == k) = m.valueAt k := by
    have hothers : ∀ (k' : κ) (n : Int), k' ≠ k → (if k' == k then n else 0) = 0 :=
      fun k' n hne => if_neg (by simpa using hne)
    rw [countWhere, weigh_single hothers]
    unfold Mapping.valueAt
    cases m.lookup k with
    | none => rfl
    | some n => exact if_pos (beq_self_eq_true k)
  rw [← hsingle, h]
  rfl

theorem Tallies.concat {m : Mapping κ Int} {xs : List κ} (h : Tallies m xs) (x : κ) :
    Tallies (m.addAt x 1) (xs ++ [x]) := by
  intro p
  rw [countWhere_addAt, h, List.countP_append, List.countP_singleton]
  split
  · rfl
  · rfl

/-- The entries are added up under other keys, those that have one. -/
def rekey (key : κ → Option κ') (to' : Mapping κ' Int) (m : Mapping κ Int) : Mapping κ' Int :=
  m.entries.foldl (fun t e => (key e.1).elim t fun k => t.addAt k e.2) to'

theorem countWhere_elim (p : κ' → Bool) (t : Mapping κ' Int) (key : Option κ') (n : Int) :
    (key.elim t fun k => t.addAt k n).countWhere p = t.countWhere p + if key.any p then n else 0 := by
  cases key with
  | none => exact (Int.add_zero _).symm
  | some k => exact countWhere_addAt p t k n

omit [DecidableEq κ] in
theorem countWhere_rekey (p : κ' → Bool) (key : κ → Option κ') (to' : Mapping κ' Int)
    (m : Mapping κ Int) :
    (rekey key to' m).countWhere p = to'.countWhere p + m.countWhere fun k => (key k).any p := by
  have hentries : ∀ (l : List (Sigma fun _ : κ => Int)) (t : Mapping κ' Int),
      (l.foldl (fun t e => (key e.1).elim t fun k => t.addAt k e.2) t).countWhere p =
        t.countWhere p + (l.map fun e => if (key e.1).any p then e.2 else 0).sum := by
    intro l
    induction l with
    | nil => exact fun t => (Int.add_zero _).symm
    | cons e l ih =>
      intro t
      rw [List.foldl_cons, ih, countWhere_elim, List.map_cons, List.sum_cons, Int.add_assoc]
  exact hentries m.entries to'

theorem countP_filterMap_any {α β : Type} (p : β → Bool) (f : α → Option β) (l : List α) :
    (l.filterMap f).countP p = l.countP fun a => (f a).any p := by
  rw [List.countP_filterMap]
  refine List.countP_congr fun a _ => ?_
  cases f a with
  | none => rfl
  | some b => rfl

omit [DecidableEq κ] in
theorem Tallies.rekey {to' : Mapping κ' Int} {m : Mapping κ Int} {ys : List κ'} {xs : List κ}
    (hto : Tallies to' ys) (hm : Tallies m xs) (key : κ → Option κ') :
    Tallies (rekey key to' m) (ys ++ xs.filterMap key) := by
  intro p
  rw [countWhere_rekey, hto, hm, List.countP_append, countP_filterMap_any]
  rfl

/-! ## Tables of tables -/

/-- A number is added in the table under the first key. -/
def addPair (t : Mapping κ (Mapping μ Int)) (k : κ) (x : μ) (n : Int) : Mapping κ (Mapping μ Int) :=
  t.insert k (((t.lookup k).getD ∅).addAt x n)

theorem countPairs_addPair (p : κ → μ → Bool) (t : Mapping κ (Mapping μ Int)) (k : κ) (x : μ)
    (n : Int) : (t.addPair k x n).countPairs p = t.countPairs p + if p k x then n else 0 := by
  have hold : (t.lookup k).elim 0 (fun m => m.countWhere (p k)) =
      ((t.lookup k).getD ∅).countWhere (p k) := by
    cases t.lookup k with
    | none => rfl
    | some m => rfl
  unfold countPairs
  rw [addPair, weigh_insert, hold, countWhere_addAt]
  omega

theorem Tabulates.valueAt [BEq κ] [LawfulBEq κ] [BEq μ] [LawfulBEq μ]
    {t : Mapping κ (Mapping μ Int)} {xs : List (κ × μ)} (h : Tabulates t xs) (k : κ) (x : μ) :
    ((t.lookup k).getD ∅).valueAt x = xs.count (k, x) := by
  have htable : Tallies ((t.lookup k).getD ∅) ((xs.filter fun y => y.1 = k).map Prod.snd) := by
    intro p
    have hone := h fun k' x => decide (k' = k) && p x
    have hothers : ∀ (k' : κ) (m : Mapping μ Int), k' ≠ k →
        m.countWhere (fun x => decide (k' = k) && p x) = 0 := by
      intro k' m hne
      rw [decide_eq_false hne]
      exact List.sum_eq_zero fun y hy => by
        obtain ⟨e, -, rfl⟩ := List.mem_map.mp hy
        rfl
    rw [countPairs, weigh_single hothers, decide_eq_true rfl] at hone
    rw [List.countP_map, List.countP_filter]
    refine Eq.trans ?_ (hone.trans (congrArg _ (List.countP_congr fun y _ => ?_)))
    · cases t.lookup k with
      | none => rfl
      | some m => rfl
    · rw [Bool.and_comm]
      rfl
  rw [htable.valueAt, List.count_eq_countP, List.count_eq_countP, List.countP_map,
    List.countP_filter]
  refine congrArg _ (List.countP_congr fun y _ => ?_)
  simp [Prod.ext_iff, and_comm]

theorem Tabulates.concat {t : Mapping κ (Mapping μ Int)} {xs : List (κ × μ)} (h : Tabulates t xs)
    (k : κ) (x : μ) : Tabulates (t.addPair k x 1) (xs ++ [(k, x)]) := by
  intro p
  rw [countPairs_addPair, h, List.countP_append, List.countP_singleton]
  split
  · rfl
  · rfl

omit [DecidableEq μ] in
/-- The numbers under the second keys of one first key are added up under another pair. -/
theorem countPairs_foldl (p : κ' → μ' → Bool) (k : κ') (key : μ → μ') (m : Mapping μ Int)
    (t : Mapping κ' (Mapping μ' Int)) :
    (m.entries.foldl (fun t e => t.addPair k (key e.1) e.2) t).countPairs p =
      t.countPairs p + m.countWhere fun x => p k (key x) := by
  have hentries : ∀ (l : List (Sigma fun _ : μ => Int)) (t : Mapping κ' (Mapping μ' Int)),
      (l.foldl (fun t e => t.addPair k (key e.1) e.2) t).countPairs p =
        t.countPairs p + (l.map fun e => if p k (key e.1) then e.2 else 0).sum := by
    intro l
    induction l with
    | nil => exact fun t => (Int.add_zero _).symm
    | cons e l ih =>
      intro t
      rw [List.foldl_cons, ih, countPairs_addPair, List.map_cons, List.sum_cons, Int.add_assoc]
  exact hentries m.entries t

end Lib.Mapping
