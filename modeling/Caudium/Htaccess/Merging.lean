import Caudium.Htaccess.Record
import Caudium.Lib.Search
import Mathlib.Data.List.Sigma

/-!
# Records key by key

What a record has under a key after lines were filed into it and after another record was put into
it. A merge goes through where no key has a set in one of the records and a number other than 0 in
the other (`merge_isSome_iff`), and then adds (`lookup_merge`); the number of times a record was put
into another one can be read off the latter, under "all" (`mergeTimes_inj`).
-/

namespace Caudium.Htaccess

open Lib (Str Mapping cut)

/-! ## Merges -/

/-- A merge, entry by entry. -/
theorem foldlM_mergeKey {es : List (Sigma fun _ : Str => Item)} (hnodup : es.NodupKeys)
    (r : Record) :
    ((es.foldlM (fun r e => mergeKey r e.1 e.2) r).isSome ↔
      ∀ e ∈ es, (mergeItem (r.lookup e.1) e.2).isSome) ∧
    ∀ r', es.foldlM (fun r e => mergeKey r e.1 e.2) r = some r' → ∀ key, r'.lookup key =
      match es.dlookup key with
      | some item => mergeItem (r.lookup key) item
      | none => r.lookup key := by
  induction es generalizing r with
  | nil =>
    refine ⟨iff_of_true rfl nofun, fun r' h key => ?_⟩
    obtain rfl := Option.some.inj h
    rfl
  | cons e es ih =>
    obtain ⟨hnot, hrest⟩ := List.nodupKeys_cons.mp hnodup
    rw [List.foldlM_cons, mergeKey]
    cases hitem : mergeItem (r.lookup e.1) e.2 with
    | none =>
      refine ⟨iff_of_false nofun fun h => ?_, nofun⟩
      have := h e List.mem_cons_self
      rw [hitem] at this
      cases this
    | some item =>
      have hother : ∀ key, key ≠ e.1 → (r.insert e.1 item).lookup key = r.lookup key :=
        fun key hkey => AList.lookup_insert_ne hkey
      obtain ⟨hsome, hlook⟩ := ih hrest (r.insert e.1 item)
      refine ⟨?_, fun r' h key => ?_⟩
      · refine hsome.trans ?_
        rw [List.forall_mem_cons, hitem]
        constructor
        · intro h
          refine ⟨rfl, fun e' he' => ?_⟩
          have hne : e'.1 ≠ e.1 := fun he => hnot (he ▸ List.mem_keys_of_mem he')
          rw [← hother e'.1 hne]
          exact h e' he'
        · intro h e' he'
          have hne : e'.1 ≠ e.1 := fun he => hnot (he ▸ List.mem_keys_of_mem he')
          rw [hother e'.1 hne]
          exact h.2 e' he'
      · rw [hlook r' h key]
        by_cases hkey : key = e.1
        · subst hkey
          rw [List.dlookup_eq_none.mpr hnot, AList.lookup_insert, List.dlookup_cons_eq]
          exact hitem.symm
        · rw [hother key hkey, List.dlookup_cons_ne _ _ hkey]

/-- **A merge** adds what the second record has. -/
theorem lookup_merge {r t r' : Record} (h : merge r t = some r') (key : Str) : r'.lookup key =
    match t.lookup key with
    | some item => mergeItem (r.lookup key) item
    | none => r.lookup key :=
  (foldlM_mergeKey t.nodupKeys r).2 r' h key

theorem merge_isSome_iff {r t : Record} : (merge r t).isSome ↔
    ∀ key item, t.lookup key = some item → (mergeItem (r.lookup key) item).isSome := by
  refine (foldlM_mergeKey t.nodupKeys r).1.trans ?_
  constructor
  · intro h key item hkey
    exact h ⟨key, item⟩ (AList.mem_lookup_iff.mp hkey)
  · intro h e he
    exact h e.1 e.2 (AList.mem_lookup_iff.mpr he)

/-- Merge after merge with the same record. -/
def mergeTimes : Nat → Record → Record → Option Record
  | 0, r, _ => some r
  | n + 1, r, t => (merge r t).bind fun r => mergeTimes n r t

/-- What merges add to: the number, or how many members there are. -/
def Item.weight : Item → Int
  | .set items => items.length
  | .int n => n

theorem weight_mergeItem {old : Option Item} {item new : Item}
    (h : mergeItem old item = some new) :
    new.weight = (old.map Item.weight).getD 0 + item.weight := by
  cases old with
  | none =>
    obtain rfl := Option.some.inj h
    exact (Int.zero_add _).symm
  | some old =>
    rw [mergeItem] at h
    rw [Option.map_some, Option.getD_some]
    split at h
    next =>
      cases old with
      | set a =>
        cases item with
        | set b =>
          obtain rfl := Option.some.inj h
          show ((a ++ b).length : Int) = a.length + b.length
          rw [List.length_append]
          push_cast
          rfl
        | int b => cases h
      | int a =>
        cases item with
        | set b => cases h
        | int b =>
          obtain rfl := Option.some.inj h
          rfl
    next hzero =>
      obtain rfl := Option.some.inj h
      cases old with
      | set a => exact absurd rfl hzero
      | int a =>
        have hz : a = 0 := by simpa [Item.holds] using hzero
        rw [hz]
        exact (Int.zero_add _).symm

theorem weight_mergeTimes {key : Str} {t : Record} {item : Item} (ht : t.lookup key = some item)
    {n : Nat} : ∀ {r r' : Record}, mergeTimes n r t = some r' →
      ((r'.lookup key).map Item.weight).getD 0 =
        ((r.lookup key).map Item.weight).getD 0 + n * item.weight := by
  induction n with
  | zero =>
    intro r r' h
    obtain rfl := Option.some.inj h
    simp
  | succ n ih =>
    intro r r' h
    obtain ⟨r₁, hone, hrest⟩ := Option.bind_eq_some_iff.mp h
    rw [ih hrest]
    have hlook := lookup_merge hone key
    rw [ht] at hlook
    dsimp only at hlook
    have hsome := merge_isSome_iff.1 (Option.isSome_of_eq_some hone) key item ht
    obtain ⟨new, hnew⟩ := Option.isSome_iff_exists.mp hsome
    rw [hlook, hnew, Option.map_some, Option.getD_some, weight_mergeItem hnew]
    rw [Int.natCast_succ, Int.add_mul, Int.one_mul, Int.add_assoc, Int.add_comm item.weight]

/-- How often a record was put into another one can be told. -/
theorem mergeTimes_inj {key : Str} {r t r' : Record} {item : Item} (ht : t.lookup key = some item)
    (hw : item.weight ≠ 0) {m n : Nat} (hm : mergeTimes m r t = some r')
    (hn : mergeTimes n r t = some r') : m = n := by
  have h := (weight_mergeTimes ht hm).symm.trans (weight_mergeTimes ht hn)
  have hmul : (m : Int) * item.weight = n * item.weight := Int.add_left_cancel h
  exact Int.ofNat.inj (Int.eq_of_mul_eq_mul_right hw hmul)

/-! ## Lines -/

/-- The members of a set, and none of a number. -/
def members : Option Item → List Str
  | some (.set items) => items
  | _ => []

theorem items_getD (r : Record) (key : Str) : (r.items key).getD [] = members (r.lookup key) := by
  rw [Record.items]
  cases r.lookup key with
  | none => rfl
  | some item =>
    cases item with
    | set items => rfl
    | int n => rfl

/-- What an entry leaves under a key. -/
def Entry.under (key : Str) (old : Option Item) : Entry → Option Item
  | .items k new => if k = key ∧ new ≠ [] then some (.set (members old ++ new)) else old
  | .int k n => if k = key then some (.int n) else old

theorem lookup_addItems (k key : Str) (new : List Str) : ∀ r : Record,
    (new.foldl (addItem k) r).lookup key =
      if k = key ∧ new ≠ [] then some (.set (members (r.lookup key) ++ new)) else r.lookup key := by
  induction new with
  | nil => intro r; rw [if_neg fun h => h.2 rfl]; rfl
  | cons item new ih =>
    intro r
    rw [List.foldl_cons, ih, addItem, items_getD]
    by_cases hkey : k = key
    · subst hkey
      rw [AList.lookup_insert, if_pos (⟨rfl, List.cons_ne_nil _ _⟩ : k = k ∧ item :: new ≠ [])]
      cases new with
      | nil => rw [if_neg fun h => h.2 rfl]
      | cons item' new =>
        rw [if_pos ⟨rfl, List.cons_ne_nil _ _⟩, members, List.append_assoc, List.singleton_append]
    · rw [if_neg fun h => hkey h.1, if_neg fun h => hkey h.1,
        AList.lookup_insert_ne fun h => hkey h.symm]

theorem lookup_file (e : Entry) (r : Record) (key : Str) :
    (e.file r).lookup key = e.under key (r.lookup key) := by
  cases e with
  | items k new => exact lookup_addItems k key new r
  | int k n =>
    rw [Entry.file, Entry.under]
    split
    next h => rw [h, AList.lookup_insert]
    next h => exact AList.lookup_insert_ne fun he => h he.symm

/-- What lines say. -/
def entriesOf (lines : List Str) : List Entry := lines.filterMap fun line => readLine (squeeze line)

/-- What entries leave under a key. -/
def underAll (key : Str) (old : Option Item) (es : List Entry) : Option Item :=
  es.foldl (Entry.under key) old

theorem underAll_concat (key : Str) (old : Option Item) (es : List Entry) (e : Entry) :
    underAll key old (es ++ [e]) = e.under key (underAll key old es) := by
  rw [underAll, List.foldl_append]
  rfl

theorem lookup_lines (lines : List Str) (key : Str) : ∀ r : Record,
    (lines.foldl fileLine r).lookup key = underAll key (r.lookup key) (entriesOf lines) := by
  induction lines with
  | nil => intro r; rfl
  | cons line lines ih =>
    intro r
    rw [List.foldl_cons, ih, fileLine, entriesOf, entriesOf, List.filterMap_cons]
    cases readLine (squeeze line) with
    | none => rfl
    | some e =>
      dsimp only
      rw [lookup_file]
      rfl

/-- Two sequences of entries, one after the other, against the second alone: a number is the same,
a set stays one, and a key without entries has what it had. -/
theorem underAll_cases (key : Str) (old : Option Item) (es : List Entry) :
    (underAll key none es = none ∧ underAll key old es = old) ∨
    (∃ n, underAll key none es = some (.int n) ∧ underAll key old es = some (.int n)) ∨
    (∃ a b, underAll key none es = some (.set a) ∧ underAll key old es = some (.set b)) := by
  induction es using List.reverseRecOn with
  | nil => exact Or.inl ⟨rfl, rfl⟩
  | append_singleton es e ih =>
    rw [underAll_concat, underAll_concat]
    cases e with
    | items k new =>
      rw [Entry.under, Entry.under]
      by_cases h : k = key ∧ new ≠ []
      · rw [if_pos h, if_pos h]
        exact Or.inr (Or.inr ⟨_, _, rfl, rfl⟩)
      · rw [if_neg h, if_neg h]
        exact ih
    | int k n =>
      rw [Entry.under, Entry.under]
      by_cases h : k = key
      · rw [if_pos h, if_pos h]
        exact Or.inr (Or.inl ⟨n, rfl, rfl⟩)
      · rw [if_neg h, if_neg h]
        exact ih

/-- Without numbers the members of the second are put behind those of the first. -/
theorem underAll_sets {key : Str} (old : Option Item) {es : List Entry}
    (h : ∀ k n, .int k n ∈ es → k ≠ key) :
    (underAll key none es = none ∧ underAll key old es = old) ∨
    (∃ a, underAll key none es = some (.set a) ∧
      underAll key old es = some (.set (members old ++ a))) := by
  induction es using List.reverseRecOn with
  | nil => exact Or.inl ⟨rfl, rfl⟩
  | append_singleton es e ih =>
    have ih := ih fun k n hmem => h k n (List.mem_append_left _ hmem)
    rw [underAll_concat, underAll_concat]
    cases e with
    | items k new =>
      rw [Entry.under, Entry.under]
      by_cases hk : k = key ∧ new ≠ []
      · rw [if_pos hk, if_pos hk]
        refine Or.inr ?_
        rcases ih with ⟨hnone, hold⟩ | ⟨a, hsome, hold⟩
        · rw [hnone, hold]
          exact ⟨new, rfl, rfl⟩
        · rw [hsome, hold]
          exact ⟨a ++ new, rfl, by rw [members, List.append_assoc]⟩
      · rw [if_neg hk, if_neg hk]
        exact ih
    | int k n =>
      have hk : k ≠ key := h k n (List.mem_append_right _ List.mem_cons_self)
      rw [Entry.under, Entry.under, if_neg hk, if_neg hk]
      exact ih

/-- No set is empty. -/
theorem underAll_set {key : Str} {es : List Entry} {a : List Str}
    (h : underAll key none es = some (.set a)) : a ≠ [] := by
  induction es using List.reverseRecOn with
  | nil => cases h
  | append_singleton es e ih =>
    rw [underAll_concat] at h
    cases e with
    | items k new =>
      rw [Entry.under] at h
      split at h
      next hk =>
        rw [← Item.set.inj (Option.some.inj h)]
        exact List.append_ne_nil_of_right_ne_nil _ hk.2
      next => exact ih h
    | int k n =>
      rw [Entry.under] at h
      split at h
      next => cases h
      next => exact ih h

/-- The numbers there are. -/
theorem readLine_int {line key : Str} {n : Int} (h : readLine line = some (.int key n)) :
    key = "order".toList ∨ (key = "all".toList ∧ (n = 1 ∨ n = -1)) ∨
      (key = "valid-user".toList ∧ n = 1) := by
  unfold readLine at h
  split at h
  next => exact Or.inl (Entry.int.inj (Option.some.inj h)).1.symm
  next =>
    split at h
    next => cases h
    next =>
      split at h
      next => cases h
      next =>
        split at h
        next => cases h
        next =>
          split at h
          next data _ =>
            obtain ⟨hkey, hn⟩ := Entry.int.inj (Option.some.inj h)
            refine Or.inr (Or.inl ⟨hkey.symm, ?_⟩)
            split at hn
            next => exact Or.inl hn.symm
            next => exact Or.inr hn.symm
          next =>
            split at h
            next =>
              obtain ⟨hkey, hn⟩ := Entry.int.inj (Option.some.inj h)
              exact Or.inr (Or.inr ⟨hkey.symm, hn.symm⟩)
            next => cases h

theorem int_mem_entriesOf {lines : List Str} {key : Str} {n : Int}
    (h : .int key n ∈ entriesOf lines) : key = "order".toList ∨
      (key = "all".toList ∧ (n = 1 ∨ n = -1)) ∨ (key = "valid-user".toList ∧ n = 1) := by
  obtain ⟨line, -, hline⟩ := List.mem_filterMap.mp h
  exact readLine_int hline

/-- A number under a key was put there by an entry. -/
theorem underAll_int {key : Str} {es : List Entry} {n : Int}
    (h : underAll key none es = some (.int n)) : .int key n ∈ es := by
  induction es using List.reverseRecOn with
  | nil => cases h
  | append_singleton es e ih =>
    rw [underAll_concat] at h
    cases e with
    | items k new =>
      rw [Entry.under] at h
      split at h
      next => cases h
      next => exact List.mem_append_left _ (ih h)
    | int k m =>
      rw [Entry.under] at h
      split at h
      next hk =>
        rw [hk, Item.int.inj (Option.some.inj h)]
        exact List.mem_append_right _ List.mem_cons_self
      next => exact List.mem_append_left _ (ih h)

/-- The record of lines, with "all" given. -/
theorem lookup_recordOf (lines : List Str) (key : Str) : (recordOf lines).lookup key =
    if key = "all".toList ∧ underAll key none (entriesOf lines) = none then some (.int 1)
    else underAll key none (entriesOf lines) := by
  have hlook := lookup_lines lines key ∅
  have hall := lookup_lines lines "all".toList ∅
  rw [AList.lookup_empty] at hlook hall
  have hhas : (lines.foldl fileLine ∅).has "all".toList = true ↔
      underAll "all".toList none (entriesOf lines) ≠ none := by
    rw [Record.has, hall]
    cases hitem : underAll "all".toList none (entriesOf lines) with
    | none => exact iff_of_false nofun fun h => h rfl
    | some item =>
      refine iff_of_true ?_ nofun
      cases item with
      | set items => rfl
      | int n =>
        obtain h | ⟨-, hn⟩ | ⟨h, -⟩ := int_mem_entriesOf (underAll_int hitem)
        · exact absurd h (by decide)
        · rcases hn with rfl | rfl
          · rfl
          · rfl
        · exact absurd h (by decide)
  unfold recordOf
  dsimp only
  split
  next h =>
    rw [hlook, if_neg]
    intro ⟨hkey, hnone⟩
    exact hhas.mp h (hkey ▸ hnone)
  next h =>
    have hnone : underAll "all".toList none (entriesOf lines) = none := by
      by_contra hne
      exact h (hhas.mpr hne)
    by_cases hkey : key = "all".toList
    · subst hkey
      rw [AList.lookup_insert, if_pos ⟨rfl, hnone⟩]
    · rw [AList.lookup_insert_ne hkey, hlook, if_neg fun h => hkey h.1]

/-- What there is under "all": the choices of "satisfy", or a set. -/
theorem recordOf_all (lines : List Str) :
    (recordOf lines).lookup "all".toList = some (.int 1) ∨
    (recordOf lines).lookup "all".toList = some (.int (-1)) ∨
    ∃ a, a ≠ [] ∧ (recordOf lines).lookup "all".toList = some (.set a) := by
  rw [lookup_recordOf]
  cases hitem : underAll "all".toList none (entriesOf lines) with
  | none => exact Or.inl (if_pos ⟨rfl, rfl⟩)
  | some item =>
    rw [if_neg fun h => nomatch h.2]
    cases item with
    | set a => exact Or.inr (Or.inr ⟨a, underAll_set hitem, rfl⟩)
    | int n =>
      obtain h | ⟨-, rfl | rfl⟩ | ⟨h, -⟩ := int_mem_entriesOf (underAll_int hitem)
      · exact absurd h (by decide)
      · exact Or.inl rfl
      · exact Or.inr (Or.inl rfl)
      · exact absurd h (by decide)

end Caudium.Htaccess
