import Caudium.BaseServer.Registry

/-!
# When the lists are those of the live instances

`Consistent` is what the server relies on: a list has the live instances of its type
and priority, each once, there is one instance of "name#id" at most, and an instance
in a list is the one that is recorded.

Enabling looks for the old copy under the text of the id and never finds it
(`Tidy.noStr`), so nothing is taken out of the lists for it. `consistent_iff` says
which calls keep the lists right: those that do not enable an id over a live
instance, whose module has no extension twice, and whose `stop` does not throw.
-/

namespace Caudium.BaseServer

open Lib (Str Mapping Always EachStep always_iff_eachStep)

variable {env : Modules}

/-! ## The lists -/

theorem count_add (l : Lists) (me i : Instance) (k k' : Kind) (pr : Fin 10) :
    ((l.add me k) k' pr).count i =
      (l k' pr).count i + if i = me ∧ k' = k ∧ pr = me.priority then 1 else 0 := by
  rw [Lists.add]
  by_cases hk : k' = k ∧ pr = me.priority
  · rw [if_pos hk, List.count_append]
    by_cases hi : i = me
    · rw [if_pos ⟨hi, hk⟩, hi, List.count_singleton_self]
    · rw [if_neg fun h => hi h.1, List.count_singleton, if_neg (by simpa using Ne.symm hi)]
  · rw [if_neg hk, if_neg fun h => hk h.2, Nat.add_zero]

theorem count_addAll (type : Flag → Bool) (l : Lists) (me i : Instance) (k : Kind) (pr : Fin 10) :
    ((l.addAll type me) k pr).count i =
      (l k pr).count i + if i = me ∧ pr = me.priority then (adds type me).count k else 0 := by
  have hfold : ∀ (ks : List Kind) (l : Lists),
      ((ks.foldl (fun l k => l.add me k) l) k pr).count i =
        (l k pr).count i + if i = me ∧ pr = me.priority then ks.count k else 0 := by
    intro ks
    induction ks with
    | nil => intro l; simp
    | cons k₁ ks ih =>
      intro l
      rw [List.foldl_cons, ih, count_add, List.count_cons]
      by_cases hi : i = me ∧ pr = me.priority
      · by_cases hk : k = k₁
        · rw [if_pos ⟨hi.1, hk, hi.2⟩, if_pos hi, if_pos hi, if_pos (by simp [hk])]
          omega
        · rw [if_neg fun h => hk h.2.1, if_pos hi, if_pos hi, if_neg (by simpa using Ne.symm hk)]
          omega
      · rw [if_neg fun h => hi ⟨h.1, h.2.2⟩, if_neg hi, if_neg hi]
  exact hfold (adds type me) l

theorem count_removeAll (type : Flag → Bool) (l : Lists) (me i : Instance) (k : Kind)
    (pr : Fin 10) : ((l.removeAll type me) k pr).count i =
      if i = me ∧ type k.flag = true then 0 else (l k pr).count i := by
  rw [Lists.removeAll]
  by_cases ht : type k.flag = true
  · rw [if_pos ht]
    by_cases hi : i = me
    · rw [if_pos ⟨hi, ht⟩, List.count_eq_zero, hi]
      simp
    · rw [if_neg fun h => hi h.1, List.count_filter (by simpa using hi)]
  · rw [if_neg ht, if_neg fun h => ht h.2]

/-- An instance is added to lists of its types alone. -/
theorem flag_of_mem_adds {type : Flag → Bool} {me : Instance} {k : Kind} (h : k ∈ adds type me) :
    type k.flag = true := by
  simp only [adds, List.mem_append, List.mem_map, List.mem_filter] at h
  obtain ((h | h) | h) | ⟨f, ⟨-, hf⟩, rfl⟩ := h
  · split at h
    next ht => obtain ⟨e, -, rfl⟩ := List.mem_map.mp h; exact ht
    next => cases h
  · split at h
    next ht => obtain ⟨e, -, rfl⟩ := List.mem_map.mp h; exact ht
    next => cases h
  · split at h
    next ht =>
      rw [List.mem_singleton.mp h]
      exact (Bool.and_eq_true_iff.mp ht).1
    next => cases h
  · exact hf

/-! ## What the server relies on -/

/-- The lists that an instance is in while it is enabled. -/
def kindsOf (env : Modules) (i : Instance) : List Kind := adds (env.type i.name) i

/-- The lists and the records are those of the live instances. -/
structure Consistent (env : Modules) (r : Registry) : Prop where
  lists : ∀ k pr i, (r.lists k pr).count i =
    if i ∈ r.live ∧ pr = i.priority ∧ k ∈ kindsOf env i then 1 else 0
  one : ∀ i ∈ r.live, ∀ j ∈ r.live, i.name = j.name → i.id = j.id → i = j
  recorded : ∀ k pr, ∀ i ∈ r.lists k pr, r.copyOf i.name i.id = some i

/-- What holds whatever is done. -/
structure Tidy (r : Registry) : Prop where
  /-- The copies are recorded under numbers. -/
  noStr : ∀ name copies s, r.modules.lookup name = some copies → copies.lookup (.str s) = none
  held : ∀ name id i, r.copyOf name id = some i → i.name = name ∧ i.id = id ∧ i ∈ r.live
  fresh : ∀ i ∈ r.live, i.serial < r.next

/-- A call. -/
inductive RegistryCall
  | enable (name id : Str) (loads : Bool) (clone : Option Clone)
  | disable (name : Str) (id : Int) (stops : Bool)

/-- One call. -/
def registryStep (env : Modules) (r : Registry) : RegistryCall → Option Registry
  | .enable name id loads clone => some (r.enableModule env name (some id) loads clone)
  | .disable name id stops => some (r.disableModule env name id stops)

/-- The condition on a call: an enabled id has no live instance, or none in a list when the
start fails; no extension is given twice; a `stop` that throws is that of an instance in no
list. -/
def Safe (env : Modules) (r : Registry) : RegistryCall → Prop
  | .enable name id loads clone =>
    ∀ c, clone = some c → r.loadModule name loads ≠ none →
      if c.starts then
        (∀ j ∈ r.live, ¬ (j.name = name ∧ j.id = env.toInt id)) ∧
          (kindsOf env (r.cloned name (env.toInt id) c)).Nodup
      else ∀ j ∈ r.live, j.name = name → j.id = env.toInt id → kindsOf env j = []
  | .disable name id stops =>
    ∀ i, r.copyOf name id = some i → stops = false → kindsOf env i = []

variable {r r' : Registry}

theorem Consistent.mem_lists (h : Consistent env r) {k : Kind} {pr : Fin 10} {i : Instance} :
    i ∈ r.lists k pr ↔ i ∈ r.live ∧ pr = i.priority ∧ k ∈ kindsOf env i := by
  rw [← List.count_pos_iff, h.lists]
  split
  next hi => exact iff_of_true Nat.one_pos hi
  next hi => exact iff_of_false (Nat.lt_irrefl 0) hi

/-! ## The records -/

theorem lookup_getD (name : Str) (id : Int) :
    ((r.modules.lookup name).getD ∅).lookup (.int id) = r.copyOf name id := by
  rw [Registry.copyOf]
  cases r.modules.lookup name with
  | none => exact AList.lookup_empty _
  | some copies => rfl

theorem copyOf_setCopies (name name' : Str) (copies : Mapping Key Instance) (id : Int) :
    (r.setCopies name copies).copyOf name' id =
      if name' = name then copies.lookup (.int id) else r.copyOf name' id := by
  rw [Registry.copyOf, Registry.setCopies, Lib.Mapping.lookup_insert_ite]
  split <;> rfl

/-- Another registry with the same lists, instances and records. -/
structure SameRecords (r r' : Registry) : Prop where
  lists : r'.lists = r.lists
  live : r'.live = r.live
  next : r'.next = r.next
  copies : ∀ name id, r'.copyOf name id = r.copyOf name id

theorem SameRecords.consistent (hs : SameRecords r r') (h : Consistent env r) :
    Consistent env r' where
  lists k pr i := by rw [hs.lists, hs.live]; exact h.lists k pr i
  one := by rw [hs.live]; exact h.one
  recorded k pr i hi := by
    rw [hs.lists] at hi
    rw [hs.copies]
    exact h.recorded k pr i hi

theorem loadModule_spec (ht : Tidy r) {name : Str} {loads : Bool}
    (h : r.loadModule name loads = some r') : SameRecords r r' ∧ Tidy r' := by
  unfold Registry.loadModule at h
  split at h
  · obtain rfl := Option.some.inj h
    exact ⟨⟨rfl, rfl, rfl, fun _ _ => rfl⟩, ht⟩
  next hnone =>
    split at h
    · obtain rfl := Option.some.inj h
      have hlookup : r.modules.lookup name = none := by simpa using hnone
      have hcopies : ∀ name' id, (r.setCopies name ∅).copyOf name' id = r.copyOf name' id := by
        intro name' id
        rw [copyOf_setCopies]
        split
        next he => rw [he, Registry.copyOf, hlookup, AList.lookup_empty]; rfl
        next => rfl
      refine ⟨⟨rfl, rfl, rfl, hcopies⟩, ⟨fun name' copies s hl => ?_, fun name' id i hi => ?_, ht.fresh⟩⟩
      · rw [Registry.setCopies, Lib.Mapping.lookup_insert_ite] at hl
        split at hl
        · rw [← Option.some.inj hl]
          exact AList.lookup_empty _
        · exact ht.noStr name' copies s hl
      · rw [hcopies] at hi
        exact ht.held name' id i hi
    · cases h

/-! ## Enabling -/

/-- What is recorded after an entry of `copies` is set or removed. -/
def recordAt (r : Registry) (name : Str) (id : Int) (i : Option Instance) (name' : Str)
    (id' : Int) : Option Instance :=
  if name' = name ∧ id' = id then i else r.copyOf name' id'

/-- The look-up with the text of the id finds nothing. -/
theorem dropOld_eq (ht : Tidy r) (name s : Str) (r' : Registry) :
    r'.dropOld ((r.modules.lookup name).getD ∅) (some s) = r' := by
  have hnone : ((r.modules.lookup name).getD ∅).lookup (.str s) = none := by
    cases hl : r.modules.lookup name with
    | none => exact AList.lookup_empty _
    | some copies => exact ht.noStr name copies s hl
  rw [Registry.dropOld, hnone]

theorem not_live_cloned (ht : Tidy r) (name : Str) (id : Int) (c : Clone) :
    r.cloned name id c ∉ r.live :=
  fun h => Nat.lt_irrefl _ (ht.fresh _ h)

theorem getD_noStr (ht : Tidy r) (name s : Str) :
    ((r.modules.lookup name).getD ∅).lookup (.str s) = none := by
  cases hl : r.modules.lookup name with
  | none => exact AList.lookup_empty _
  | some copies => exact ht.noStr name copies s hl

theorem copyOf_record (name : Str) (id : Int) (copies : Mapping Key Instance) (i : Option Instance)
    (hset : copies.lookup (.int id) = i)
    (hframe : ∀ id' ≠ id, copies.lookup (.int id') = r.copyOf name id') (name' : Str) (id' : Int) :
    (r.setCopies name copies).copyOf name' id' = recordAt r name id i name' id' := by
  rw [copyOf_setCopies, recordAt]
  by_cases hname : name' = name
  · rw [if_pos hname, hname]
    by_cases hid : id' = id
    · rw [if_pos ⟨rfl, hid⟩, hid, hset]
    · rw [if_neg fun h => hid h.2, hframe id' hid]
  · rw [if_neg hname, if_neg fun h => hname h.1]

/-- What is known of the registry when an instance has been cloned and recorded, or
destructed again. -/
structure Recorded (r r' : Registry) (name : Str) (id : Int) (i : Option Instance) : Prop where
  next : r'.next = r.next + 1
  copies : ∀ name' id', r'.copyOf name' id' = recordAt r name id i name' id'
  noStr : ∀ name' copies s, r'.modules.lookup name' = some copies → copies.lookup (.str s) = none

theorem recorded_setCopies (ht : Tidy r) {name : Str} {id : Int} {copies : Mapping Key Instance}
    {i : Option Instance} (hmodules : r'.modules = r.modules.insert name copies)
    (hnext : r'.next = r.next + 1) (hset : copies.lookup (.int id) = i)
    (hframe : ∀ key ≠ Key.int id,
      copies.lookup key = ((r.modules.lookup name).getD ∅).lookup key) :
    Recorded r r' name id i where
  next := hnext
  copies name' id' := by
    have hcopy : r'.copyOf name' id' = (r.setCopies name copies).copyOf name' id' := by
      rw [Registry.copyOf, Registry.copyOf, hmodules]
      rfl
    rw [hcopy]
    refine copyOf_record name id copies i hset (fun id'' hid => ?_) name' id'
    rw [hframe (.int id'') fun h => hid (Key.int.inj h), lookup_getD]
  noStr name' copies' s hl := by
    rw [hmodules, Lib.Mapping.lookup_insert_ite] at hl
    split at hl
    · rw [← Option.some.inj hl, hframe (.str s) (fun h => nomatch h), getD_noStr ht]
    · exact ht.noStr name' copies' s hl

/-- A module that starts is recorded and added to its lists. -/
theorem enableClone_starts (ht : Tidy r) {c : Clone} (hc : c.starts = true) (name s : Str) :
    let me := r.cloned name (env.toInt s) c
    let r' := r.enableClone env name (some s) c
    Recorded r r' name (env.toInt s) (some me) ∧ r'.live = r.live ++ [me] ∧
      r'.lists = r.lists.addAll (env.type name) me := by
  unfold Registry.enableClone
  dsimp only
  rw [dropOld_eq ht, if_pos hc]
  refine ⟨recorded_setCopies ht rfl rfl (AList.lookup_insert _) fun key hkey => ?_, rfl, rfl⟩
  exact AList.lookup_insert_ne hkey

/-- One that does not start is destructed, and nothing is recorded any more. -/
theorem enableClone_fails (ht : Tidy r) {c : Clone} (hc : c.starts = false) (name s : Str) :
    let r' := r.enableClone env name (some s) c
    Recorded r r' name (env.toInt s) none ∧ r'.live = r.live ∧ r'.lists = r.lists := by
  unfold Registry.enableClone
  dsimp only
  rw [dropOld_eq ht, hc, if_neg Bool.false_ne_true]
  refine ⟨recorded_setCopies ht rfl rfl (AList.lookup_erase _ _) fun key hkey => ?_, ?_, rfl⟩
  · rw [AList.lookup_erase_ne hkey, AList.lookup_insert_ne hkey]
  · have hnew := not_live_cloned ht name (env.toInt s) c
    have hkeep : ∀ j ∈ r.live, decide (j ≠ r.cloned name (env.toInt s) c) = true :=
      fun j hj => decide_eq_true fun he => hnew (he ▸ hj)
    change (r.live ++ [_]).filter _ = r.live
    rw [List.filter_append, List.filter_eq_self.mpr hkeep]
    simp

theorem tidy_starts (ht : Tidy r) {c : Clone} (hc : c.starts = true) (name s : Str) :
    Tidy (r.enableClone env name (some s) c) := by
  obtain ⟨hrec, hlive, -⟩ := @enableClone_starts env _ ht _ hc name s
  refine ⟨hrec.noStr, fun name' id i hi => ?_, fun i hi => ?_⟩
  · rw [hrec.copies, recordAt] at hi
    rw [hlive]
    split at hi
    next hk =>
      obtain rfl := Option.some.inj hi
      exact ⟨hk.1.symm, hk.2.symm, List.mem_append_right _ (List.mem_singleton_self _)⟩
    next =>
      obtain ⟨hname, hid, hmem⟩ := ht.held name' id i hi
      exact ⟨hname, hid, List.mem_append_left _ hmem⟩
  · rw [hlive] at hi
    rw [hrec.next]
    obtain hi | hi := List.mem_append.mp hi
    · exact Nat.lt_succ_of_lt (ht.fresh i hi)
    · rw [List.mem_singleton.mp hi]
      exact Nat.lt_succ_self _

theorem tidy_fails (ht : Tidy r) {c : Clone} (hc : c.starts = false) (name s : Str) :
    Tidy (r.enableClone env name (some s) c) := by
  obtain ⟨hrec, hlive, -⟩ := @enableClone_fails env _ ht _ hc name s
  refine ⟨hrec.noStr, fun name' id i hi => ?_, fun i hi => ?_⟩
  · rw [hrec.copies, recordAt] at hi
    rw [hlive]
    split at hi
    · cases hi
    · exact ht.held name' id i hi
  · rw [hlive] at hi
    rw [hrec.next]
    exact Nat.lt_succ_of_lt (ht.fresh i hi)

theorem count_kindsOf (i : Instance) (k : Kind) (h : (kindsOf env i).Nodup) :
    (kindsOf env i).count k = if k ∈ kindsOf env i then 1 else 0 := by
  split
  next hk => exact List.count_eq_one_of_mem h hk
  next hk => exact List.count_eq_zero_of_not_mem hk

/-- A new instance is added to its lists, recorded and live: the lists are right exactly when
it is the only one of its name and id and is in no list twice. -/
theorem consistent_added_iff (h : Consistent env r) {me : Instance} (hnew : me ∉ r.live)
    (hlive : r'.live = r.live ++ [me]) (hlists : r'.lists = r.lists.addAll (env.type me.name) me)
    (hcopies : ∀ name id, r'.copyOf name id = recordAt r me.name me.id (some me) name id) :
    Consistent env r' ↔
      (∀ j ∈ r.live, ¬ (j.name = me.name ∧ j.id = me.id)) ∧ (kindsOf env me).Nodup := by
  have hmem : ∀ i, i ∈ r'.live ↔ i ∈ r.live ∨ i = me := by
    intro i
    rw [hlive, List.mem_append, List.mem_singleton]
  have hcount : ∀ k pr i, (r'.lists k pr).count i = (r.lists k pr).count i +
      if i = me ∧ pr = me.priority then (kindsOf env me).count k else 0 := by
    intro k pr i
    rw [hlists]
    exact count_addAll (env.type me.name) r.lists me i k pr
  constructor
  · intro hcons
    constructor
    · intro j hj hat
      have hone := hcons.one j ((hmem j).mpr (Or.inl hj)) me ((hmem me).mpr (Or.inr rfl)) hat.1 hat.2
      exact hnew (hone ▸ hj)
    · refine List.nodup_iff_count_le_one.mpr fun k => ?_
      have hlist := hcons.lists k me.priority me
      rw [hcount, if_pos ⟨rfl, rfl⟩] at hlist
      split at hlist <;> omega
  · intro hsafe
    obtain ⟨hnone, hnodup⟩ := hsafe
    refine ⟨fun k pr i => ?_, fun i hi j hj hname hid => ?_, fun k pr i hi => ?_⟩
    · rw [hcount, h.lists]
      by_cases hi : i = me
      · -- the new instance was in no list
        rw [hi, if_neg fun hin => hnew hin.1, Nat.zero_add, count_kindsOf me k hnodup]
        by_cases hpr : pr = me.priority
        · rw [if_pos ⟨rfl, hpr⟩]
          exact if_congr ⟨fun hk => ⟨(hmem me).mpr (Or.inr rfl), hpr, hk⟩, fun hk => hk.2.2⟩ rfl rfl
        · rw [if_neg fun hp => hpr hp.2, if_neg fun hp => hpr hp.2.1]
      · rw [if_neg (show ¬ (i = me ∧ pr = me.priority) from fun hp => hi hp.1), Nat.add_zero]
        exact if_congr (and_congr_left fun _ =>
          ⟨fun hin => (hmem i).mpr (Or.inl hin), fun hin => ((hmem i).mp hin).resolve_right hi⟩) rfl rfl
    · obtain hi | rfl := (hmem i).mp hi
      · obtain hj | rfl := (hmem j).mp hj
        · exact h.one i hi j hj hname hid
        · exact absurd ⟨hname, hid⟩ (hnone i hi)
      · obtain hj | rfl := (hmem j).mp hj
        · exact absurd ⟨hname.symm, hid.symm⟩ (hnone j hj)
        · rfl
    · rw [hcopies, recordAt]
      by_cases hi' : i = me
      · rw [hi', if_pos ⟨rfl, rfl⟩]
      · have hpos := List.count_pos_iff.mpr hi
        rw [hcount, if_neg fun hp => hi' hp.1, Nat.add_zero] at hpos
        have hold := List.count_pos_iff.mp hpos
        rw [if_neg (hnone i (h.mem_lists.mp hold).1)]
        exact h.recorded k pr i hold

/-- When the record of "name#id" goes and the lists and instances stay, they are right exactly
when no instance of that name and id is in a list. -/
theorem consistent_unrecorded_iff (h : Consistent env r) {name : Str} {id : Int}
    (hlists : r'.lists = r.lists) (hlive : r'.live = r.live)
    (hcopies : ∀ name' id', r'.copyOf name' id' = recordAt r name id none name' id') :
    Consistent env r' ↔
      ∀ j ∈ r.live, j.name = name → j.id = id → kindsOf env j = [] := by
  constructor
  · intro hcons j hj hname hid
    refine List.eq_nil_iff_forall_not_mem.mpr fun k hk => ?_
    have hmem : j ∈ r'.lists k j.priority := by
      rw [hlists]
      exact h.mem_lists.mpr ⟨hj, rfl, hk⟩
    have hrecorded := hcons.recorded k j.priority j hmem
    rw [hcopies, recordAt, if_pos ⟨hname, hid⟩] at hrecorded
    cases hrecorded
  · intro hnil
    refine ⟨by rw [hlists, hlive]; exact h.lists, by rw [hlive]; exact h.one, fun k pr i hi => ?_⟩
    rw [hlists] at hi
    obtain ⟨hin, -, hk⟩ := h.mem_lists.mp hi
    rw [hcopies, recordAt, if_neg]
    · exact h.recorded k pr i hi
    · intro hat
      rw [hnil i hin hat.1 hat.2] at hk
      cases hk

/-! ## Disabling -/

/-- The registry after the record is removed. -/
def unrecord (r : Registry) (name : Str) (copies : Mapping Key Instance) (id : Int) : Registry :=
  let rest := copies.erase (.int id)
  if rest.keys = [] then { r with modules := r.modules.erase name } else r.setCopies name rest

theorem unrecord_spec (ht : Tidy r) {name : Str} {copies : Mapping Key Instance} (id : Int)
    (hl : r.modules.lookup name = some copies) :
    (∀ name' id', (unrecord r name copies id).copyOf name' id' =
        recordAt r name id none name' id') ∧
      (∀ name' copies' s, (unrecord r name copies id).modules.lookup name' = some copies' →
        copies'.lookup (.str s) = none) := by
  have hcopy : ∀ id', r.copyOf name id' = copies.lookup (.int id') := by
    intro id'
    rw [Registry.copyOf, hl]
    rfl
  have hset : (copies.erase (.int id)).lookup (.int id) = none := AList.lookup_erase _ _
  have hframe : ∀ key ≠ Key.int id, (copies.erase (.int id)).lookup key = copies.lookup key :=
    fun key hkey => AList.lookup_erase_ne hkey
  unfold unrecord
  dsimp only
  split
  next hempty =>
    -- the module is unloaded with its last copy
    have hnone : ∀ key, (copies.erase (.int id)).lookup key = none := by
      intro key
      refine AList.lookup_eq_none.mpr fun hin => ?_
      rw [AList.mem_keys, hempty] at hin
      cases hin
    constructor
    · intro name' id'
      rw [Registry.copyOf, Lib.Mapping.lookup_erase_ite, recordAt]
      by_cases hname : name' = name
      · rw [if_pos hname, hname]
        by_cases hid : id' = id
        · rw [if_pos ⟨rfl, hid⟩]
          rfl
        · rw [if_neg fun h => hid h.2, hcopy, ← hframe _ fun h => hid (Key.int.inj h), hnone]
          rfl
      · rw [if_neg hname, if_neg fun h => hname h.1]
        rfl
    · intro name' copies' s hl'
      exact ht.noStr name' copies' s (Lib.Mapping.lookup_erase_some hl').2
  next =>
    constructor
    · exact copyOf_record name id _ none hset fun id' hid => by
        rw [hframe _ fun h => hid (Key.int.inj h), hcopy]
    · intro name' copies' s hl'
      rw [Registry.setCopies, Lib.Mapping.lookup_insert_ite] at hl'
      split at hl'
      · rw [← Option.some.inj hl', hframe (.str s) fun h => nomatch h]
        exact ht.noStr name copies s hl
      · exact ht.noStr name' copies' s hl'

/-- The registry after a `stop` that went well. -/
theorem consistent_removed (h : Consistent env r) (ht : Tidy r) {name : Str} {id : Int}
    {me : Instance} (hme : r.copyOf name id = some me)
    (hlive : r'.live = r.live.filter (· ≠ me))
    (hlists : r'.lists = r.lists.removeAll (env.type name) me)
    (hcopies : ∀ name' id', r'.copyOf name' id' = recordAt r name id none name' id') :
    Consistent env r' := by
  obtain ⟨rfl, rfl, -⟩ := ht.held name id me hme
  have hmem : ∀ i, i ∈ r'.live ↔ i ∈ r.live ∧ i ≠ me := by
    intro i
    rw [hlive, List.mem_filter, decide_eq_true_eq]
  have hcount : ∀ k pr i, (r'.lists k pr).count i =
      if i = me ∧ env.type me.name k.flag = true then 0 else (r.lists k pr).count i := by
    intro k pr i
    rw [hlists]
    exact count_removeAll (env.type me.name) r.lists me i k pr
  have hgone : ∀ k pr i, (r'.lists k pr).count i = if i = me then 0 else (r.lists k pr).count i := by
    intro k pr i
    rw [hcount]
    by_cases hi : i = me
    · -- the instance is in no list of another type
      rw [if_pos hi]
      split
      · rfl
      next hflag =>
        rw [h.lists, if_neg fun hin => hflag ⟨hi, ?_⟩]
        rw [← hi]
        exact flag_of_mem_adds hin.2.2
    · rw [if_neg hi, if_neg fun hin => hi hin.1]
  refine ⟨fun k pr i => ?_, fun i hi j hj => ?_, fun k pr i hi => ?_⟩
  · rw [hgone]
    by_cases hi : i = me
    · rw [if_pos hi, if_neg fun hin => ((hmem i).mp hin.1).2 hi]
    · rw [if_neg hi, h.lists]
      exact if_congr (and_congr_left fun _ =>
        ⟨fun hin => (hmem i).mpr ⟨hin, hi⟩, fun hin => ((hmem i).mp hin).1⟩) rfl rfl
  · exact h.one i ((hmem i).mp hi).1 j ((hmem j).mp hj).1
  · have hpos := List.count_pos_iff.mpr hi
    rw [hgone] at hpos
    split at hpos
    · exact absurd hpos (Nat.lt_irrefl 0)
    next hne =>
      have hrecorded := h.recorded k pr i (List.count_pos_iff.mp hpos)
      rw [hcopies, recordAt, if_neg, hrecorded]
      intro hat
      rw [hat.1, hat.2, hme] at hrecorded
      exact hne (Option.some.inj hrecorded).symm

/-! ## One call -/

theorem disableModule_eq (name : Str) (id : Int) (stops : Bool) {copies : Mapping Key Instance}
    (hl : r.modules.lookup name = some copies) :
    r.disableModule env name id stops =
      match r.copyOf name id with
      | none => unrecord r name copies id
      | some me =>
        if stops then { (unrecord r name copies id).destruct me with
          lists := (unrecord r name copies id).lists.removeAll (env.type name) me }
        else unrecord r name copies id := by
  rw [Registry.disableModule, Registry.copyOf, hl]
  rfl

theorem unrecord_same (r : Registry) (name : Str) (copies : Mapping Key Instance) (id : Int) :
    (unrecord r name copies id).lists = r.lists ∧ (unrecord r name copies id).live = r.live ∧
      (unrecord r name copies id).next = r.next := by
  unfold unrecord
  dsimp only
  split <;> exact ⟨rfl, rfl, rfl⟩

/-- Disabling keeps the lists right unless `stop` throws for an instance that is in one. -/
theorem disable_spec (ht : Tidy r) (h : Consistent env r) (name : Str) (id : Int) (stops : Bool) :
    Tidy (r.disableModule env name id stops) ∧
      (Consistent env (r.disableModule env name id stops) ↔ Safe env r (.disable name id stops)) := by
  cases hl : r.modules.lookup name with
  | none =>
    have hcopy : r.copyOf name id = none := by rw [Registry.copyOf, hl]; rfl
    rw [Registry.disableModule, hl]
    refine ⟨ht, iff_of_true h fun i hi => ?_⟩
    rw [hcopy] at hi
    cases hi
  | some copies =>
    obtain ⟨hcopies, hnoStr⟩ := unrecord_spec ht id hl
    obtain ⟨hlists, hlive, hnext⟩ := unrecord_same r name copies id
    have htidy : Tidy (unrecord r name copies id) := by
      refine ⟨hnoStr, fun name' id' i hi => ?_, by rw [hlive, hnext]; exact ht.fresh⟩
      rw [hcopies, recordAt] at hi
      rw [hlive]
      split at hi
      · cases hi
      · exact ht.held name' id' i hi
    have hunrecorded := consistent_unrecorded_iff h hlists hlive hcopies
    rw [disableModule_eq name id stops hl]
    cases hme : r.copyOf name id with
    | none =>
      refine ⟨htidy, iff_of_true (hunrecorded.mpr fun j hj hname hid => ?_) fun i hi => ?_⟩
      · -- an instance in a list is recorded
        refine List.eq_nil_iff_forall_not_mem.mpr fun k hk => ?_
        have hrecorded := h.recorded k j.priority j (h.mem_lists.mpr ⟨hj, rfl, hk⟩)
        rw [hname, hid, hme] at hrecorded
        cases hrecorded
      · rw [hme] at hi
        cases hi
    | some me =>
      obtain ⟨hname, hid, hmem⟩ := ht.held name id me hme
      cases stops with
      | false =>
        refine ⟨htidy, hunrecorded.trans ⟨fun hnil i hi _ => ?_, fun hsafe j hj hjn hji => ?_⟩⟩
        · rw [hme] at hi
          rw [← Option.some.inj hi]
          exact hnil me hmem hname hid
        · rw [h.one j hj me hmem (hjn.trans hname.symm) (hji.trans hid.symm)]
          exact hsafe me hme rfl
      | true =>
        refine ⟨⟨hnoStr, fun name' id' i hi => ?_, fun i hi => ?_⟩,
          iff_of_true (consistent_removed h ht hme ?_ ?_ hcopies) fun i _ hs => by cases hs⟩
        · obtain ⟨hn, hd, hi'⟩ := htidy.held name' id' i hi
          refine ⟨hn, hd, List.mem_filter.mpr ⟨hi', decide_eq_true fun he => ?_⟩⟩
          -- the instance has no record any more
          have hnone := hcopies name' id'
          rw [recordAt, if_pos ⟨by rw [← hn, he, hname], by rw [← hd, he, hid]⟩] at hnone
          cases hnone.symm.trans hi
        · exact htidy.fresh i (List.mem_filter.mp hi).1
        · exact congrArg (List.filter (· ≠ me)) hlive
        · exact congrArg (fun l => Lists.removeAll l (env.type name) me) hlists

/-- Enabling keeps the lists right exactly when the call is safe. -/
theorem enable_spec (ht : Tidy r) (h : Consistent env r) (name id : Str) (loads : Bool)
    (clone : Option Clone) :
    Tidy (r.enableModule env name (some id) loads clone) ∧
      (Consistent env (r.enableModule env name (some id) loads clone) ↔
        Safe env r (.enable name id loads clone)) := by
  rw [Registry.enableModule]
  cases hload : r.loadModule name loads with
  | none => exact ⟨ht, iff_of_true h fun c _ hne => absurd hload hne⟩
  | some r₁ =>
    obtain ⟨hsame, ht₁⟩ := loadModule_spec ht hload
    have h₁ := hsame.consistent h
    cases clone with
    | none => exact ⟨ht₁, iff_of_true h₁ fun c hc => nomatch hc⟩
    | some c =>
      have hclone : r₁.cloned name (env.toInt id) c = r.cloned name (env.toInt id) c := by
        rw [Registry.cloned, Registry.cloned, hsame.next]
      -- what `Safe` asks of this call, read in the registry with the module loaded
      have hsafe : Safe env r (.enable name id loads (some c)) ↔
          if c.starts then
            (∀ j ∈ r₁.live, ¬ (j.name = name ∧ j.id = env.toInt id)) ∧
              (kindsOf env (r₁.cloned name (env.toInt id) c)).Nodup
          else ∀ j ∈ r₁.live, j.name = name → j.id = env.toInt id → kindsOf env j = [] := by
        rw [hsame.live, hclone]
        constructor
        · exact fun hs => hs c rfl (by rw [hload]; exact Option.some_ne_none r₁)
        · intro hs c' hc' _
          rw [← Option.some.inj hc']
          exact hs
      rw [hsafe]
      cases hc : c.starts with
      | true =>
        obtain ⟨hrec, hlive, hlists⟩ := @enableClone_starts env _ ht₁ _ hc name id
        refine ⟨tidy_starts ht₁ hc name id, ?_⟩
        exact consistent_added_iff h₁ (not_live_cloned ht₁ name (env.toInt id) c) hlive hlists
          hrec.copies
      -- its `start` fails: the new copy goes, and the old one under the id went before it
      | false =>
        obtain ⟨hrec, hlive, hlists⟩ := @enableClone_fails env _ ht₁ _ hc name id
        exact ⟨tidy_fails ht₁ hc name id, consistent_unrecorded_iff h₁ hlists hlive hrec.copies⟩

/-! ## Runs -/

theorem registryStep_spec (ht : Tidy r) (h : Consistent env r) (c : RegistryCall)
    (hs : registryStep env r c = some r') :
    Tidy r' ∧ (Consistent env r' ↔ Safe env r c) := by
  cases c with
  | enable name id loads clone =>
    obtain rfl := Option.some.inj hs
    exact enable_spec ht h name id loads clone
  | disable name id stops =>
    obtain rfl := Option.some.inj hs
    exact disable_spec ht h name id stops

theorem tidy_empty : Tidy .empty where
  noStr name copies s hl := by
    rw [Registry.empty, AList.lookup_empty] at hl
    cases hl
  held name id i hi := by
    rw [Registry.copyOf, Registry.empty, AList.lookup_empty] at hi
    cases hi
  fresh i hi := nomatch hi

theorem consistent_empty (env : Modules) : Consistent env .empty where
  lists k pr i := by rw [if_neg fun hin => nomatch hin.1]; rfl
  one i hi := nomatch hi
  recorded k pr i hi := nomatch hi

/-- **When the module lists are right.** After every call of a sequence the lists have the
live instances of their type, each once and as it is recorded, and there is one instance
for each name and id, if and only if every call is safe. -/
theorem consistent_iff (env : Modules) (calls : List RegistryCall) :
    Always (registryStep env) (Consistent env) .empty calls ↔
      EachStep (registryStep env) (Safe env) .empty calls :=
  always_iff_eachStep (I := Tidy) (H := fun _ _ => True)
    (fun _ c hs => by cases c <;> cases hs)
    (fun _ c _ ht h _ _ hs => (registryStep_spec ht h c hs).1)
    (fun _ c _ ht h _ hs => (registryStep_spec ht h c hs).2)
    calls .empty tidy_empty (consistent_empty env)
    (Lib.eachStep_of_forall (fun _ _ => trivial) calls Registry.empty)

/-- A location module. -/
def locationOnly : Modules where
  type _ f := f = .location
  toInt _ := 0

/-- "filesystem#0" is enabled twice. -/
def enabledTwice : List RegistryCall :=
  let call := .enable "filesystem".toList "0".toList true (some ⟨[], [], false, 5, true⟩)
  [call, call]

/-- The first instance stays live, and in the lists. -/
theorem enabledTwice_fails : ¬ ∀ (env : Modules) (calls : List RegistryCall),
    Always (registryStep env) (Consistent env) .empty calls := by
  intro h
  obtain ⟨-, hrest⟩ := h locationOnly enabledTwice
  obtain ⟨-, hlast⟩ := hrest _ rfl
  have hone := (hlast _ rfl).one ⟨0, "filesystem".toList, 0, [], [], false, 5⟩
    (List.mem_cons_self ..) ⟨1, "filesystem".toList, 0, [], [], false, 5⟩
    (List.mem_cons_of_mem _ (List.mem_cons_self ..)) rfl rfl
  exact absurd (congrArg Instance.serial hone) (by decide)

end Caudium.BaseServer
