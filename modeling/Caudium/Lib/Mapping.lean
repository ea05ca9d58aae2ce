import Mathlib.Data.List.AList
import Mathlib.Data.List.Induction

/-!
# Finite mappings

A `Mapping κ ν` is a finite mapping with distinct keys (an association list
that carries the distinctness of its keys). Insertion, removal and lookup are
`AList`'s; this file adds the two case-split readings the proofs downstream
rewrite with (`lookup_insert_ite`, `lookup_erase_ite`) and removal of a whole
list of keys (`eraseAll`), the functional form of "for each of these keys,
delete it", and says what can be read in a mapping that was made by putting in the
entries of a list (`lookup_foldl_insert`). `mergeM` merges each entry of a mapping
into what another one has under its key, or into nothing, which may fail; since the
keys are distinct the order of the entries makes no difference (`exists_mergeM`).
-/

namespace Lib

/-- A string, as the sequence of its characters. -/
abbrev Str := List Char

/-- Strings are equal where they are found to be. -/
instance Str.lawfulBEq : LawfulBEq Str := List.instLawfulBEq

/-- A property of every character of a string is decided along the string, not over all the
characters there are. -/
instance (priority := high) Str.decidableForallMem (s : Str) (p : Char → Prop) [DecidablePred p] :
    Decidable (∀ c ∈ s, p c) :=
  List.decidableBAll p s

/-- A finite mapping from `κ` to `ν`. -/
abbrev Mapping (κ ν : Type) := AList fun _ : κ => ν

namespace Mapping

variable {κ ν : Type} [DecidableEq κ]

/-- Reading after an insertion: the new value at its key, the old one elsewhere. -/
theorem lookup_insert_ite (m : Mapping κ ν) (k k' : κ) (v : ν) :
    (m.insert k v).lookup k' = if k' = k then some v else m.lookup k' := by
  by_cases h : k' = k
  · subst h; rw [if_pos rfl, AList.lookup_insert]
  · rw [if_neg h, AList.lookup_insert_ne h]

/-- Reading after a removal. -/
theorem lookup_erase_ite (m : Mapping κ ν) (k k' : κ) :
    (m.erase k).lookup k' = if k' = k then none else m.lookup k' := by
  by_cases h : k' = k
  · subst h; rw [if_pos rfl, AList.lookup_erase]
  · rw [if_neg h, AList.lookup_erase_ne h]

/-- What is read after an insertion is the new value or was there. -/
theorem lookup_insert_cases {m : Mapping κ ν} {k k' : κ} {v w : ν}
    (h : (m.insert k v).lookup k' = some w) : k' = k ∧ w = v ∨ k' ≠ k ∧ m.lookup k' = some w := by
  rw [lookup_insert_ite] at h
  split at h
  next he => exact .inl ⟨he, (Option.some.inj h).symm⟩
  next hne => exact .inr ⟨hne, h⟩

/-- What is read after a removal is not under its key and was there. -/
theorem lookup_erase_some {m : Mapping κ ν} {k k' : κ} {w : ν}
    (h : (m.erase k).lookup k' = some w) : k' ≠ k ∧ m.lookup k' = some w := by
  rw [lookup_erase_ite] at h
  split at h
  next => cases h
  next hne => exact ⟨hne, h⟩

theorem lookup_erase_isSome {m : Mapping κ ν} {k k' : κ}
    (h : ((m.erase k).lookup k').isSome = true) : k' ≠ k ∧ (m.lookup k').isSome = true := by
  obtain ⟨w, hw⟩ := Option.isSome_iff_exists.mp h
  obtain ⟨hne, hw⟩ := lookup_erase_some hw
  exact ⟨hne, by rw [hw]; rfl⟩

/-- What holds of all entries holds after an insertion if it holds of the new one. -/
theorem forall_insert {P : κ → ν → Prop} {m : Mapping κ ν} {k : κ} {v : ν}
    (h : ∀ k v, m.lookup k = some v → P k v) (hnew : P k v) :
    ∀ k' v', (m.insert k v).lookup k' = some v' → P k' v' := by
  intro k' v' hl
  rcases lookup_insert_cases hl with ⟨rfl, rfl⟩ | ⟨-, hl⟩
  · exact hnew
  · exact h k' v' hl

theorem forall_erase {P : κ → ν → Prop} {m : Mapping κ ν} {k : κ}
    (h : ∀ k v, m.lookup k = some v → P k v) :
    ∀ k' v', (m.erase k).lookup k' = some v' → P k' v' :=
  fun k' v' hl => h k' v' (lookup_erase_some hl).2

/-- A key is listed exactly when it reads as something. -/
theorem mem_keys_iff (m : Mapping κ ν) (k : κ) : k ∈ m.keys ↔ ∃ v, m.lookup k = some v := by
  rw [← AList.mem_keys, ← AList.lookup_isSome, Option.isSome_iff_exists]

/-- Remove every key of a list. -/
def eraseAll (m : Mapping κ ν) (ks : List κ) : Mapping κ ν :=
  ks.foldl (fun acc k => acc.erase k) m

theorem lookup_eraseAll (ks : List κ) :
    ∀ (m : Mapping κ ν) (k : κ),
      (m.eraseAll ks).lookup k = if k ∈ ks then none else m.lookup k := by
  induction ks with
  | nil => intro m k; simp [eraseAll]
  | cons a ks ih =>
    intro m k
    rw [show m.eraseAll (a :: ks) = eraseAll (m.erase a) ks from rfl, ih, lookup_erase_ite]
    by_cases hk : k = a
    · subst hk; simp
    · simp [hk]

/-! ## Mappings made from a list -/

variable {α : Type} {f : α → κ} {g : α → ν}

/-- Entries under other keys change nothing. -/
theorem lookup_foldl_insert_of_ne {k : κ} (m : Mapping κ ν) :
    ∀ (xs : List α), (∀ x ∈ xs, f x ≠ k) →
      (xs.foldl (fun m x => m.insert (f x) (g x)) m).lookup k = m.lookup k := by
  intro xs
  induction xs using List.reverseRecOn with
  | nil => intro _; rfl
  | append_singleton xs y ih =>
    intro hne
    have hy : k ≠ f y := fun h => hne y List.mem_concat_self h.symm
    rw [List.foldl_append, List.foldl_cons, List.foldl_nil, lookup_insert_ite, if_neg hy]
    exact ih fun x hx => hne x (List.mem_append_left [y] hx)

/-- What was put in is found, if nothing else was put under its key. -/
theorem lookup_foldl_insert {x : α} (m : Mapping κ ν) :
    ∀ (xs : List α), x ∈ xs → (∀ y ∈ xs, f y = f x → g y = g x) →
      (xs.foldl (fun m x => m.insert (f x) (g x)) m).lookup (f x) = some (g x) := by
  intro xs
  induction xs using List.reverseRecOn with
  | nil => intro hx; cases hx
  | append_singleton xs y ih =>
    intro hx hsame
    rw [List.foldl_append, List.foldl_cons, List.foldl_nil, lookup_insert_ite]
    by_cases hxy : f x = f y
    · -- the last one is under the same key
      rw [if_pos hxy, hsame y List.mem_concat_self hxy.symm]
    · rw [if_neg hxy]
      have hmem : x ∈ xs := by
        obtain hmem | hmem := List.mem_append.mp hx
        · exact hmem
        · exact absurd (congrArg f (List.mem_singleton.mp hmem)) hxy
      exact ih hmem fun z hz => hsame z (List.mem_append_left [y] hz)

/-- What is read in a mapping into which another one's entries were put. -/
theorem lookup_foldl_entries {ν' : Type} (m : Mapping κ ν) (g : κ → ν → ν') (m' : Mapping κ ν')
    (k : κ) : (m.entries.foldl (fun acc e => acc.insert e.1 (g e.1 e.2)) m').lookup k =
      ((m.lookup k).map (g k)).or (m'.lookup k) := by
  cases hk : m.lookup k with
  | none =>
    have hne : ∀ e ∈ m.entries, e.1 ≠ k := by
      intro e he h
      subst h
      exact absurd (AList.mem_lookup_iff.mpr he) (by simp [hk])
    exact lookup_foldl_insert_of_ne _ _ hne
  | some v =>
    have hmem : (⟨k, v⟩ : Sigma fun _ : κ => ν) ∈ m.entries := AList.mem_lookup_iff.mp hk
    have huniq : ∀ e ∈ m.entries, e.1 = k → g e.1 e.2 = g k v := by
      intro h he heq
      obtain ⟨k', v'⟩ := h
      subst heq
      have hv : some v' = some v := (AList.mem_lookup_iff.mpr he).symm.trans hk
      rw [Option.some.inj hv]
    exact lookup_foldl_insert _ _ hmem huniq

/-- What is read in a mapping made of another one's entries. -/
theorem lookup_foldl_empty {ν' : Type} (m : Mapping κ ν) (g : κ → ν → ν') (k : κ) :
    (m.entries.foldl (fun acc e => acc.insert e.1 (g e.1 e.2)) (∅ : Mapping κ ν')).lookup k =
      (m.lookup k).map (g k) := by
  rw [lookup_foldl_entries, AList.lookup_empty, Option.or_none]

/-- Every value replaced. -/
def mapValues {ν' : Type} (m : Mapping κ ν) (g : ν → ν') : Mapping κ ν' :=
  m.entries.foldl (fun acc e => acc.insert e.1 (g e.2)) ∅

@[simp] theorem lookup_mapValues {ν' : Type} (m : Mapping κ ν) (g : ν → ν') (k : κ) :
    (m.mapValues g).lookup k = (m.lookup k).map g :=
  lookup_foldl_empty m (fun _ => g) k

/-! ## Merging one mapping into another -/

variable {ν' : Type}

/-- The entries of `source`, one after the other, each merged by `g` into what is under its key. -/
def mergeM (g : Option ν → ν' → Option ν) (m : Mapping κ ν) (source : Mapping κ ν') :
    Option (Mapping κ ν) :=
  source.entries.foldlM (fun m e => (g (m.lookup e.1) e.2).map fun w => m.insert e.1 w) m

/-- If each entry can be merged, all can, and under each key is what its entry was merged to. -/
theorem exists_mergeM {g : Option ν → ν' → Option ν} {m : Mapping κ ν} {source : Mapping κ ν'}
    (h : ∀ k v, source.lookup k = some v → ∃ w, g (m.lookup k) v = some w) :
    ∃ r, mergeM g m source = some r ∧
      ∀ k, r.lookup k = (source.lookup k).elim (m.lookup k) (g (m.lookup k)) := by
  have hlist : ∀ (l : List (Sigma fun _ : κ => ν')) (m : Mapping κ ν), l.NodupKeys →
      (∀ e ∈ l, ∃ w, g (m.lookup e.1) e.2 = some w) →
        ∃ r, l.foldlM (fun m e => (g (m.lookup e.1) e.2).map fun w => m.insert e.1 w) m = some r ∧
          ∀ k, r.lookup k = (l.dlookup k).elim (m.lookup k) (g (m.lookup k)) := by
    intro l
    induction l with
    | nil => exact fun m _ _ => ⟨m, rfl, fun _ => rfl⟩
    | cons e l ih =>
      intro m hnodup hall
      obtain ⟨hout, hrest⟩ := List.nodupKeys_cons.1 hnodup
      obtain ⟨w, hw⟩ := hall e List.mem_cons_self
      have hne : ∀ e' ∈ l, e'.1 ≠ e.1 := fun e' he' heq =>
        hout (heq ▸ List.mem_keys_of_mem he')
      obtain ⟨r, hr, hlookup⟩ := ih (m.insert e.1 w) hrest fun e' he' => by
        rw [AList.lookup_insert_ne (hne e' he')]
        exact hall e' (List.mem_cons_of_mem e he')
      refine ⟨r, ?_, fun k => ?_⟩
      · rw [List.foldlM_cons, hw]
        exact hr
      · rw [hlookup k]
        by_cases hk : k = e.1
        · subst hk
          rw [List.dlookup_eq_none.2 hout, Option.elim_none, AList.lookup_insert,
            List.dlookup_cons_eq, Option.elim_some, hw]
        · rw [AList.lookup_insert_ne hk, List.dlookup_cons_ne l e hk]
  exact hlist source.entries m source.nodupKeys fun e he =>
    h e.1 e.2 (AList.mem_lookup_iff.2 he)

end Mapping

end Lib
