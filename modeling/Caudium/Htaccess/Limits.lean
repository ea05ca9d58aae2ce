import Caudium.Htaccess.Merging
import Caudium.Htaccess.Hosts
import Caudium.Lib.Runs
import Mathlib.Data.List.GetD

/-!
# Several sections

A method's record should be that of the sections that name it, each put in once. A section leaves
one record under all its new names, though, and whoever merges into it merges for all of them: a
step keeps the methods apart exactly when none of the methods it names shares its record
(`step_apart_iff`).

Two sections for one method add up the numbers of their records. "all" is 1 or -1 in each of them,
so that the sum is neither, and neither the hosts alone deny a request then nor do they alone let it
in: it is up to the users. That is what one section with the lines of both does too where the hosts
pass it on (`merged_iff`).
-/

namespace Caudium.Htaccess

open Lib (Str Mapping Always EachStep runFrom)
open Http (lowerCase)

/-! ## Section after section -/

/-- The sections so far, and the records they have left. -/
structure Reading where
  read : List Section
  st : Sections

def start : Reading where
  read := []
  st := { records := [], access := ∅ }

def Reading.step (s : Reading) (sec : Section) : Option Reading :=
  (parseLimit s.st sec).map fun st => { read := s.read ++ [sec], st := st }

/-- One more section for a method. -/
def putSection (r : Option Record) (sec : Section) : Option (Option Record) :=
  match r with
  | none => some (some sec.record)
  | some r => (merge r sec.record).map some

/-- What the sections that name a method come to. -/
def own (method : Str) (secs : List Section) : Option (Option Record) :=
  (secs.filter fun sec => method ∈ sec.methods).foldlM putSection none

/-- Each method has the record of its own sections. -/
def Apart (s : Reading) : Prop := ∀ method, own method s.read = some (s.st.recordOf method)

/-- Unless it throws, the section names no method that has its record with another one. -/
def Unshared (s : Reading) (sec : Section) : Prop :=
  (parseLimit s.st sec).isSome → ∀ method ∈ sec.methods, ∀ other i,
    s.st.access.lookup method = some i → s.st.access.lookup other = some i → other = method

/-- The records there are. -/
def Sections.Valid (st : Sections) : Prop :=
  ∀ method i, st.access.lookup method = some i → i < st.records.length

/-- How many of the methods have the record. -/
def uses (access : Mapping Str Nat) (methods : List Str) (i : Nat) : Nat :=
  methods.countP fun method => access.lookup method = some i

theorem Section.methods_nodup (sec : Section) : sec.methods.Nodup := by
  rw [Section.methods]
  split
  next => exact List.nodup_singleton _
  next => exact sec.distinct

theorem Sections.Valid.insert {st : Sections} (h : st.Valid) {new : Nat}
    (hnew : new < st.records.length) (m : Str) :
    Sections.Valid { st with access := st.access.insert m new } :=
  Lib.Mapping.forall_insert (P := fun _ i => i < st.records.length) h hnew

theorem Sections.Valid.set {st : Sections} (h : st.Valid) (j : Nat) (r : Record) :
    Sections.Valid { st with records := st.records.set j r } := by
  intro k i hk
  rw [List.length_set]
  exact h k i hk

/-- A record has been filed under the methods: the new ones have it at `new`, and an old one has it
merged into its own, once for each of the methods with that record. -/
structure Filed (t : Record) (new : Nat) (methods : List Str) (st st' : Sections) : Prop where
  access : ∀ k, st'.access.lookup k =
    if k ∈ methods ∧ st.access.lookup k = none then some new else st.access.lookup k
  length : st'.records.length = st.records.length
  records : ∀ i < st.records.length, ∃ r, st'.records[i]? = some r ∧
    mergeTimes (uses st.access methods i) (st.records.getD i ∅) t = some r

section Filed

variable {t : Record} {new : Nat} {m : Str} {methods : List Str} {st st' : Sections}

theorem Filed.nil : Filed t new [] st st := by
  refine ⟨fun k => ?_, rfl, fun i hi => ⟨st.records[i], List.getElem?_eq_getElem hi, ?_⟩⟩
  · rw [if_neg fun hk => absurd hk.1 List.not_mem_nil]
  · rw [List.getD_eq_getElem _ _ hi]
    rfl

/-- One method more, a new one. -/
theorem Filed.first (h : Filed t new methods { st with access := st.access.insert m new } st')
    (hnot : m ∉ methods) (hm : st.access.lookup m = none) : Filed t new (m :: methods) st st' := by
  have hlook : ∀ k, k ≠ m → (st.access.insert m new).lookup k = st.access.lookup k :=
    fun k hk => AList.lookup_insert_ne hk
  refine ⟨fun k => ?_, h.length, fun i hi => ?_⟩
  · rw [h.access]
    by_cases he : k = m
    · subst he
      rw [if_neg fun hk => hnot hk.1, if_pos ⟨List.mem_cons_self, hm⟩, AList.lookup_insert]
    · simp only [hlook k he, List.mem_cons, he, false_or]
  · obtain ⟨r, hr, htimes⟩ := h.records i hi
    have hcount : uses st.access (m :: methods) i = uses (st.access.insert m new) methods i := by
      rw [uses, uses, List.countP_cons_of_neg (by rw [hm]; simp)]
      refine List.countP_congr fun k hk => ?_
      rw [hlook k fun he => hnot (he ▸ hk)]
    refine ⟨r, hr, ?_⟩
    rw [hcount]
    exact htimes

/-- One method more, an old one. -/
theorem Filed.again {j : Nat} {r₁ : Record}
    (h : Filed t new methods { st with records := st.records.set j r₁ } st')
    (hnot : m ∉ methods) (hm : st.access.lookup m = some j)
    (hmerge : merge (st.records.getD j ∅) t = some r₁) : Filed t new (m :: methods) st st' := by
  have hset : ∀ {i}, i < st.records.length →
      (st.records.set j r₁).getD i ∅ = if j = i then r₁ else st.records.getD i ∅ := by
    intro i hi
    rw [List.getD_eq_getElem _ _ (by rwa [List.length_set]), List.getElem_set,
      List.getD_eq_getElem _ _ hi]
  refine ⟨fun k => ?_, by rw [h.length, List.length_set], fun i hi => ?_⟩
  · rw [h.access]
    by_cases he : k = m
    · subst he
      rw [if_neg fun hk => hnot hk.1, if_neg]
      rw [hm]
      exact fun hk => nomatch hk.2
    · simp only [List.mem_cons, he, false_or]
  · obtain ⟨r, hr, htimes⟩ := h.records i (by rwa [List.length_set])
    refine ⟨r, hr, ?_⟩
    rw [hset hi] at htimes
    by_cases he : j = i
    · subst he
      rw [if_pos rfl] at htimes
      rw [uses, List.countP_cons_of_pos (by rw [hm]; simp), mergeTimes, hmerge]
      exact htimes
    · rw [if_neg he] at htimes
      rw [uses, List.countP_cons_of_neg (by rw [hm]; simpa using he)]
      exact htimes

/-- The methods of a section, one after the other. -/
theorem foldlM_fileMethod (hnodup : methods.Nodup) (hvalid : st.Valid)
    (hnew : new < st.records.length) (h : methods.foldlM (fileMethod t new) st = some st') :
    Filed t new methods st st' := by
  induction methods generalizing st with
  | nil =>
    obtain rfl := Option.some.inj h
    exact .nil
  | cons m methods ih =>
    obtain ⟨hnot, hrest⟩ := List.nodup_cons.mp hnodup
    obtain ⟨st₁, hone, hmore⟩ := Option.bind_eq_some_iff.mp h
    unfold fileMethod at hone
    cases hm : st.access.lookup m with
    | none =>
      rw [hm] at hone
      obtain rfl := Option.some.inj hone
      exact (ih hrest (hvalid.insert hnew m) hnew hmore).first hnot hm
    | some j =>
      rw [hm] at hone
      obtain ⟨r₁, hmerge, rfl⟩ := Option.map_eq_some_iff.mp hone
      exact (ih hrest (hvalid.set j r₁) (by rwa [List.length_set]) hmore).again hnot hm hmerge

end Filed

/-- **One section**, method by method: a new one has its record, and an old one that of before with
the section merged in as often as the section has methods with that record. -/
theorem parseLimit_recordOf {st st' : Sections} {sec : Section} (hvalid : st.Valid)
    (h : parseLimit st sec = some st') : st'.Valid ∧
    (∀ k, st.access.lookup k = none →
      st'.recordOf k = if k ∈ sec.methods then some sec.record else none) ∧
    (∀ k i, st.access.lookup k = some i → ∃ r r', st.recordOf k = some r ∧
      st'.recordOf k = some r' ∧ mergeTimes (uses st.access sec.methods i) r sec.record = some r') := by
  have hlen : (st.records ++ [sec.record]).length = st.records.length + 1 := List.length_append
  have hvalid₀ : Sections.Valid { st with records := st.records ++ [sec.record] } := by
    intro k i hk
    have := hvalid k i hk
    rw [hlen]
    omega
  obtain ⟨haccess, hlen', hrecords⟩ :=
    foldlM_fileMethod sec.methods_nodup hvalid₀ (by rw [hlen]; omega) h
  refine ⟨fun k i hk => ?_, fun k hk => ?_, fun k i hk => ?_⟩
  · rw [hlen', hlen]
    rw [haccess] at hk
    split at hk
    next =>
      obtain rfl := Option.some.inj hk
      omega
    next =>
      have := hvalid k i hk
      omega
  · rw [Sections.recordOf, haccess]
    by_cases hmem : k ∈ sec.methods
    · rw [if_pos ⟨hmem, hk⟩, if_pos hmem]
      obtain ⟨r, hr, htimes⟩ := hrecords st.records.length (by rw [hlen]; omega)
      -- No method has had the new record.
      have hnone : uses st.access sec.methods st.records.length = 0 := by
        refine List.countP_eq_zero.mpr fun m _ hm => ?_
        have := hvalid m _ (of_decide_eq_true hm)
        omega
      rw [hnone, List.getD_append_right _ _ _ _ (Nat.le_refl _), Nat.sub_self] at htimes
      exact hr.trans htimes.symm
    · rw [if_neg fun h => hmem h.1, if_neg hmem, hk]
      rfl
  · have hi := hvalid k i hk
    obtain ⟨r', hr', htimes⟩ := hrecords i (by rw [hlen]; omega)
    rw [List.getD_append _ _ _ _ hi, List.getD_eq_getElem _ _ hi] at htimes
    refine ⟨st.records[i], r', ?_, ?_, htimes⟩
    · rw [Sections.recordOf, hk]
      exact List.getElem?_eq_getElem hi
    · rw [Sections.recordOf, haccess, if_neg fun h => ?_, hk]
      · exact hr'
      · rw [hk] at h
        cases h.2

theorem own_append (method : Str) (secs : List Section) (sec : Section) :
    own method (secs ++ [sec]) = if method ∈ sec.methods
      then (own method secs).bind fun r => putSection r sec else own method secs := by
  rw [own, List.filter_append, List.foldlM_append]
  split
  next h =>
    rw [List.filter_cons_of_pos (by simpa using h), List.filter_nil]
    show (own method secs).bind (fun r => [sec].foldlM putSection r) = _
    refine congrArg (own method secs).bind (funext fun r => ?_)
    rw [List.foldlM_cons]
    cases putSection r sec with
    | none => rfl
    | some r' => rfl
  next h =>
    rw [List.filter_cons_of_neg (by simpa using h), List.filter_nil]
    show (own method secs).bind (fun r => some r) = _
    cases own method secs with
    | none => rfl
    | some r => rfl

/-- "all" is there, and adds something. -/
theorem record_all (sec : Section) : ∃ item, sec.record.lookup "all".toList = some item ∧
    item.weight ≠ 0 := by
  rcases recordOf_all (linesOf sec.body) with h | h | ⟨a, ha, h⟩
  · exact ⟨_, h, by decide⟩
  · exact ⟨_, h, by decide⟩
  · refine ⟨_, h, fun hzero => ha ?_⟩
    exact List.length_eq_zero_iff.mp (Int.ofNat.inj hzero)

/-- With a record of its own a method is merged into once, if the section names it. -/
theorem uses_iff_unshared {s : Reading} {sec : Section} :
    (∀ k i, s.st.access.lookup k = some i →
      uses s.st.access sec.methods i = if k ∈ sec.methods then 1 else 0) ↔
    ∀ method ∈ sec.methods, ∀ other i, s.st.access.lookup method = some i →
      s.st.access.lookup other = some i → other = method := by
  constructor
  · intro h method hmem other i hmethod hother
    by_contra hne
    have hone := h method i hmethod
    have hother' := h other i hother
    rw [if_pos hmem] at hone
    split at hother'
    next hin =>
      rw [uses, List.countP_eq_length_filter] at hone
      obtain ⟨m, hm⟩ := List.length_eq_one_iff.mp hone
      have honly : ∀ m', m' ∈ sec.methods → s.st.access.lookup m' = some i → m' = m := by
        intro m' hm' hsame
        rw [← List.mem_singleton, ← hm]
        exact List.mem_filter.mpr ⟨hm', decide_eq_true hsame⟩
      exact hne ((honly other hin hother).trans (honly method hmem hmethod).symm)
    next => omega
  · intro h k i hk
    split
    next hmem =>
      have hcount : uses s.st.access sec.methods i = sec.methods.count k := by
        refine List.countP_congr fun m hm => ?_
        rw [decide_eq_true_eq, beq_iff_eq]
        constructor
        · intro hsame
          exact h k hmem m i hk hsame
        · intro he
          rw [he, hk]
      rw [hcount]
      exact List.count_eq_one_of_mem sec.methods_nodup hmem
    next hmem =>
      refine List.countP_eq_zero.mpr fun m hm hsame => hmem ?_
      rw [h m hm k i (of_decide_eq_true hsame) hk]
      exact hm

/-- **One step** keeps the methods apart exactly when they share no record. -/
theorem step_apart_iff {s s' : Reading} {sec : Section} (hvalid : s.st.Valid) (h : Apart s)
    (hs : s.step sec = some s') : (Apart s' ↔ Unshared s sec) ∧ s'.st.Valid := by
  obtain ⟨st', hst, rfl⟩ := Option.map_eq_some_iff.mp hs
  obtain ⟨hvalid', hnew, hold⟩ := parseLimit_recordOf hvalid hst
  obtain ⟨item, hitem, hweight⟩ := record_all sec
  refine ⟨?_, hvalid'⟩
  have hunshared : Unshared s sec ↔ ∀ method ∈ sec.methods, ∀ other i,
      s.st.access.lookup method = some i → s.st.access.lookup other = some i → other = method := by
    unfold Unshared
    rw [hst]
    exact ⟨fun hu => hu rfl, fun hu _ => hu⟩
  rw [hunshared, ← uses_iff_unshared]
  refine forall_congr' fun k => ?_
  rw [own_append, h k]
  cases hk : s.st.access.lookup k with
  | none =>
    have hnone : s.st.recordOf k = none := by
      rw [Sections.recordOf, hk]
      rfl
    refine iff_of_true ?_ nofun
    rw [hnew k hk, hnone]
    split
    · rfl
    · rfl
  | some i =>
    obtain ⟨r, r', hr, hr', htimes⟩ := hold k i hk
    have hown : (if k ∈ sec.methods then (some (some r)).bind fun r => putSection r sec
        else some (some r)) =
          (mergeTimes (if k ∈ sec.methods then 1 else 0) r sec.record).map some := by
      split
      next =>
        show (merge r sec.record).map some = _
        rw [mergeTimes]
        cases merge r sec.record with
        | none => rfl
        | some r₁ => rfl
      next => rfl
    rw [hr, hr', hown]
    constructor
    · intro happart j hj
      obtain rfl := Option.some.inj hj
      obtain ⟨r₁, hmerge, he⟩ := Option.map_eq_some_iff.mp happart
      rw [Option.some.inj he] at hmerge
      exact mergeTimes_inj hitem hweight htimes hmerge
    · intro huses
      rw [← huses i rfl, htimes]
      rfl

/-- **Sections that keep apart**: from no sections on, every method has the record of its own ones
exactly when no section shares. -/
theorem apart_iff (secs : List Section) :
    Always Reading.step Apart start secs ↔ EachStep Reading.step Unshared start secs := by
  apply Lib.always_iff_eachStep (I := fun s => s.st.Valid) (H := fun _ _ => True)
  · intro s sec hoff hsome
    rw [Reading.step, Option.map_eq_none_iff] at hoff
    rw [hoff] at hsome
    cases hsome
  · intro s sec s' hvalid h _ _ hs
    exact (step_apart_iff hvalid h hs).2
  · intro s sec s' hvalid h _ hs
    exact (step_apart_iff hvalid h hs).1
  · intro k i hk
    rw [start, AList.lookup_empty] at hk
    cases hk
  · intro method
    rw [start, Sections.recordOf, AList.lookup_empty]
    rfl
  · exact Lib.eachStep_of_forall (fun _ _ => trivial) secs _

/-! ## Two sections for one method -/

def forMethod (k body : Str) : Section where
  names := [k]
  distinct := List.nodup_singleton k
  body := body

/-- The record of a method, once the sections are read. -/
def recordAfter (secs : List Section) (k : Str) : Option Record :=
  (runFrom parseLimit { records := [], access := ∅ } secs).bind fun st => st.recordOf k

/-- The lines of one body and then those of the other. -/
def bothBodies (a b : Str) : Str := a ++ '\n' :: b

/-- Both sets, or both numbers. -/
def Item.SameKind : Item → Item → Prop
  | .set _, .set _ => True
  | .int _, .int _ => True
  | _, _ => False

/-- No key has a set on one side and a number, 0 apart, on the other. -/
def Compatible (r t : Record) : Prop :=
  ∀ key x y, r.lookup key = some x → t.lookup key = some y → x.holds = true → x.SameKind y

/-- What `htaccess` decides with this record for the method. -/
def decision (env : Env) (settings : Access) (id : Request) (k : Str) (r : Record) :
    Option Answer :=
  (htaccess env { settings with records := (∅ : Mapping Str Record).insert k r } id).map Prod.fst

/-- Two sections decide as one does. -/
def SameDecision (env : Env) (settings : Access) (id : Request) (k a b : Str) : Prop :=
  ∃ two one, recordAfter [forMethod k a, forMethod k b] k = some two ∧
    recordAfter [forMethod k (bothBodies a b)] k = some one ∧
    decision env settings id k two = decision env settings id k one

/-- Where they do: by "satisfy", as it stands in the lines together, the hosts leave it to the
users, or let in whom the users let in too. -/
def LeftToUsers (env : Env) (settings : Access) (id : Request) (a b : Str) : Prop :=
  let one := recordOf (linesOf (bothBodies a b))
  Compatible (recordOf (linesOf a)) (recordOf (linesOf b)) ∧
    (one.equals "all".toList 1 = true → hostOk env one id.remoteaddr = true) ∧
    (one.equals "all".toList (-1) = true → hostOk env one id.remoteaddr = true →
      (checkUser env settings one id).map Prod.fst = some .ok)

theorem recordAfter_one (k body : Str) :
    recordAfter [forMethod k body] k = some (recordOf (linesOf body)) := by
  have hrun : runFrom parseLimit { records := [], access := ∅ } [forMethod k body] =
      some { records := [recordOf (linesOf body)], access := (∅ : Mapping Str Nat).insert k 0 } :=
    rfl
  rw [recordAfter, hrun, Option.bind_some, Sections.recordOf, AList.lookup_insert]
  rfl

theorem recordAfter_two (k a b : Str) : recordAfter [forMethod k a, forMethod k b] k =
    merge (recordOf (linesOf a)) (recordOf (linesOf b)) := by
  have hone : parseLimit { records := [], access := ∅ } (forMethod k a) =
      some { records := [recordOf (linesOf a)], access := (∅ : Mapping Str Nat).insert k 0 } := rfl
  have htwo : parseLimit
      { records := [recordOf (linesOf a)], access := (∅ : Mapping Str Nat).insert k 0 }
      (forMethod k b) = (merge (recordOf (linesOf a)) (recordOf (linesOf b))).map fun r =>
        { records := [r, recordOf (linesOf b)], access := (∅ : Mapping Str Nat).insert k 0 } := by
    rw [parseLimit]
    show (fileMethod _ _ _ k).bind some = _
    rw [fileMethod, AList.lookup_insert]
    show Option.bind (Option.map _ (merge (recordOf (linesOf a)) (recordOf (linesOf b)))) some = _
    cases merge (recordOf (linesOf a)) (recordOf (linesOf b)) with
    | none => rfl
    | some r => rfl
  rw [recordAfter, Lib.runFrom_cons _ hone, runFrom, htwo]
  cases merge (recordOf (linesOf a)) (recordOf (linesOf b)) with
  | none => rfl
  | some r =>
    show ((some _ : Option Sections).bind _).bind _ = _
    rw [Option.bind_some, runFrom, Option.bind_some, Sections.recordOf, AList.lookup_insert]
    rfl

theorem linesOf_both (a b : Str) : entriesOf (linesOf (bothBodies a b)) =
    entriesOf (linesOf a) ++ entriesOf (linesOf b) := by
  have hlines : linesOf (bothBodies a b) = linesOf a ++ linesOf b :=
    List.splitOn_append_cons_self a b
  rw [hlines, entriesOf, List.filterMap_append]
  rfl

theorem merge_compatible {r t : Record} : (merge r t).isSome ↔ Compatible r t := by
  rw [merge_isSome_iff]
  refine forall_congr' fun key => ?_
  constructor
  · intro h x y hx hy hholds
    have hsome := h y hy
    rw [hx, mergeItem, if_pos hholds] at hsome
    cases x with
    | set a =>
      cases y with
      | set b => trivial
      | int b => cases hsome
    | int a =>
      cases y with
      | set b => cases hsome
      | int b => trivial
  · intro h y hy
    cases hx : r.lookup key with
    | none => rfl
    | some x =>
      have hkind := h x y hx hy
      rw [mergeItem]
      split
      next hholds =>
        have hsame := hkind hholds
        cases x with
        | set a =>
          cases y with
          | set b => rfl
          | int b => cases hsame
        | int a =>
          cases y with
          | set b => cases hsame
          | int b => rfl
      next => rfl

section Merged

variable {a b : Str} {two : Record}

/-- What the lines of both leave under a key, from what the first leave. -/
theorem lookup_both {key : Str} (hkey : key ≠ "all".toList) :
    (recordOf (linesOf (bothBodies a b))).lookup key =
      underAll key ((recordOf (linesOf a)).lookup key) (entriesOf (linesOf b)) := by
  rw [lookup_recordOf, if_neg fun h => hkey h.1, lookup_recordOf, if_neg fun h => hkey h.1,
    linesOf_both, underAll, List.foldl_append]
  rfl

theorem lookup_two (htwo : merge (recordOf (linesOf a)) (recordOf (linesOf b)) = some two)
    {key : Str} (hkey : key ≠ "all".toList) : two.lookup key =
      match underAll key none (entriesOf (linesOf b)) with
      | some item => mergeItem ((recordOf (linesOf a)).lookup key) item
      | none => (recordOf (linesOf a)).lookup key := by
  have h := lookup_merge htwo key
  rw [lookup_recordOf (linesOf b), if_neg fun h => hkey h.1] at h
  exact h

/-- The names and groups are the same. -/
theorem items_two (htwo : merge (recordOf (linesOf a)) (recordOf (linesOf b)) = some two)
    {key : Str} (hkey : key = "user".toList ∨ key = "group".toList) :
    two.items key = (recordOf (linesOf (bothBodies a b))).items key := by
  have hnot : ∀ lines : List Str, ∀ k n, .int k n ∈ entriesOf lines → k ≠ key := by
    intro lines k n hmem he
    obtain h | ⟨h, -⟩ | ⟨h, -⟩ := int_mem_entriesOf hmem
    · rw [← he, h] at hkey
      exact absurd hkey (by decide)
    · rw [← he, h] at hkey
      exact absurd hkey (by decide)
    · rw [← he, h] at hkey
      exact absurd hkey (by decide)
  have hall : key ≠ "all".toList := by
    intro heq
    subst heq
    exact absurd hkey (by decide)
  have hsame : two.lookup key = (recordOf (linesOf (bothBodies a b))).lookup key := by
    rw [lookup_two htwo hall, lookup_both hall]
    rcases underAll_sets ((recordOf (linesOf a)).lookup key) (hnot (linesOf b)) with
      ⟨hnone, hold⟩ | ⟨new, hset, hold⟩
    · rw [hnone, hold]
    · rw [hset, hold]
      dsimp only
      cases hx : (recordOf (linesOf a)).lookup key with
      | none => rfl
      | some x =>
        cases x with
        | set items => rfl
        | int n =>
          rw [lookup_recordOf, if_neg fun h => hall h.1] at hx
          exact absurd rfl (hnot (linesOf a) key n (underAll_int hx))
  rw [Record.items, hsame]
  rfl

/-- So is whether any valid user will do. -/
theorem validUser_two (htwo : merge (recordOf (linesOf a)) (recordOf (linesOf b)) = some two) :
    two.has "valid-user".toList =
      (recordOf (linesOf (bothBodies a b))).has "valid-user".toList := by
  have hall : "valid-user".toList ≠ "all".toList := by decide
  have hint : ∀ (lines : List Str) (n : Int),
      underAll "valid-user".toList none (entriesOf lines) = some (.int n) → n = 1 := by
    intro lines n h
    obtain h | ⟨h, -⟩ | ⟨-, hn⟩ := int_mem_entriesOf (underAll_int h)
    · exact absurd h (by decide)
    · exact absurd h (by decide)
    · exact hn
  have hsome := merge_isSome_iff.mp (Option.isSome_of_eq_some htwo) "valid-user".toList
  rw [lookup_recordOf (linesOf b), if_neg fun h => hall h.1] at hsome
  rw [Record.has, Record.has, lookup_two htwo hall, lookup_both hall]
  rcases underAll_cases "valid-user".toList ((recordOf (linesOf a)).lookup "valid-user".toList)
    (entriesOf (linesOf b)) with ⟨hnone, hold⟩ | ⟨n, hn, hold⟩ | ⟨new, all, hset, hold⟩
  · rw [hnone, hold]
  · have hitem := hsome _ hn
    rw [hn, hold]
    obtain rfl := hint _ n hn
    dsimp only
    cases hx : (recordOf (linesOf a)).lookup "valid-user".toList with
    | none => rfl
    | some x =>
      rw [hx] at hitem
      cases x with
      | set items => cases hitem
      | int m =>
        rw [lookup_recordOf, if_neg fun h => hall h.1] at hx
        obtain rfl := hint _ m hx
        rfl
  · have hitem := hsome _ hset
    rw [hset, hold]
    dsimp only
    cases hx : (recordOf (linesOf a)).lookup "valid-user".toList with
    | none => rfl
    | some x =>
      rw [hx] at hitem
      cases x with
      | set items => rfl
      | int m =>
        rw [lookup_recordOf, if_neg fun h => hall h.1] at hx
        obtain rfl := hint _ m hx
        cases hitem

/-- "satisfy" is neither for all nor for any. -/
theorem all_two (htwo : merge (recordOf (linesOf a)) (recordOf (linesOf b)) = some two) :
    two.equals "all".toList 1 = false ∧ two.equals "all".toList (-1) = false := by
  have hlook := lookup_merge htwo "all".toList
  have hsome := merge_isSome_iff.mp (Option.isSome_of_eq_some htwo) "all".toList
  rw [Record.equals, Record.equals, hlook]
  rcases recordOf_all (linesOf b) with hb | hb | ⟨y, hy, hb⟩
  · have hitem := hsome _ hb
    rw [hb]
    rcases recordOf_all (linesOf a) with ha | ha | ⟨x, hx, ha⟩
    · rw [ha]; decide
    · rw [ha]; decide
    · rw [ha] at hitem
      cases hitem
  · have hitem := hsome _ hb
    rw [hb]
    rcases recordOf_all (linesOf a) with ha | ha | ⟨x, hx, ha⟩
    · rw [ha]; decide
    · rw [ha]; decide
    · rw [ha] at hitem
      cases hitem
  · have hitem := hsome _ hb
    rw [hb]
    rcases recordOf_all (linesOf a) with ha | ha | ⟨x, hx, ha⟩
    · rw [ha] at hitem
      cases hitem
    · rw [ha] at hitem
      cases hitem
    · rw [ha]
      exact ⟨rfl, rfl⟩

end Merged

/-- What the users of a record come to depends on three keys of it. -/
theorem checkUser_congr {env : Env} {access : Access} {id : Request} {r r' : Record}
    (huser : r.items "user".toList = r'.items "user".toList)
    (hvalid : r.has "valid-user".toList = r'.has "valid-user".toList)
    (hgroup : r.items "group".toList = r'.items "group".toList) :
    checkUser env access r id = checkUser env access r' id := by
  unfold checkUser userOk
  rw [huser, hvalid, hgroup]

theorem ok_ne_denied : Answer.ok ≠ .denied ∧ Answer.ok ≠ .unresolved := by decide

theorem authRequired_ne_denied (aname : Str) :
    Answer.authRequired aname ≠ .denied ∧ Answer.authRequired aname ≠ .unresolved := by
  constructor
  · intro h
    cases h
  · intro h
    cases h

/-- The users never have a client denied for the host. -/
theorem checkUser_answer {env : Env} {access : Access} {id : Request} {r : Record}
    {answer : Answer} (h : (checkUser env access r id).map Prod.fst = some answer) :
    answer ≠ .denied ∧ answer ≠ .unresolved := by
  obtain ⟨p, hp, rfl⟩ := Option.map_eq_some_iff.mp h
  unfold checkUser at hp
  dsimp only at hp
  split at hp
  next =>
    split at hp
    next =>
      obtain rfl := Option.some.inj hp
      exact authRequired_ne_denied _
    next realauth _ =>
      obtain ⟨name, -, hp⟩ := Option.bind_eq_some_iff.mp hp
      obtain ⟨ok, -, hp⟩ := Option.bind_eq_some_iff.mp hp
      split at hp
      next =>
        obtain rfl := Option.some.inj hp
        exact ok_ne_denied
      next =>
        obtain ⟨password, -, hp⟩ := Option.bind_eq_some_iff.mp hp
        obtain rfl := Option.some.inj hp
        exact authRequired_ne_denied _
  next =>
    obtain rfl := Option.some.inj hp
    exact ok_ne_denied

/-- What is chosen for a method depends on the names there are. -/
theorem methodOf_insert (k method : Str) (r r' : Record) :
    methodOf ((∅ : Mapping Str Record).insert k r) method =
      methodOf ((∅ : Mapping Str Record).insert k r') method := by
  have hsome : ∀ x, (((∅ : Mapping Str Record).insert k r).lookup x).isSome =
      (((∅ : Mapping Str Record).insert k r').lookup x).isSome := by
    intro x
    rw [Lib.Mapping.lookup_insert_ite, Lib.Mapping.lookup_insert_ite]
    split
    · rfl
    · rfl
  unfold methodOf
  simp only [hsome]

/-- The request is checked against the record of the method. -/
def Checks (settings : Access) (id : Request) (k : Str) : Prop :=
  settings.redirect = none ∧
    methodOf ((∅ : Mapping Str Record).insert k ∅) (lowerCase id.method) = .ok k

theorem decision_eq {env : Env} {settings : Access} {id : Request} {k : Str}
    (h : Checks settings id k) (r : Record) : decision env settings id k r =
      (checkRecord env settings r id).map Prod.fst := by
  rw [decision, htaccess, h.1]
  dsimp only
  rw [verify, methodOf_insert k _ r ∅, h.2]
  dsimp only
  rw [AList.lookup_insert]
  rfl

/-- What two sections have left goes to the users, who are those of the one. -/
theorem decision_two {env : Env} {settings : Access} {id : Request} {k : Str}
    (h : Checks settings id k) {a b : Str} {two : Record}
    (htwo : merge (recordOf (linesOf a)) (recordOf (linesOf b)) = some two) :
    decision env settings id k two =
      (checkUser env settings (recordOf (linesOf (bothBodies a b))) id).map Prod.fst := by
  obtain ⟨hone, hany⟩ := all_two htwo
  have husers : checkUser env settings two id =
      checkUser env settings (recordOf (linesOf (bothBodies a b))) id :=
    checkUser_congr (items_two htwo (Or.inl rfl)) (validUser_two htwo)
      (items_two htwo (Or.inr rfl))
  rw [decision_eq h, checkRecord, hone, hany, Bool.and_false, Bool.and_false, ← husers]
  rfl

/-- **Two sections for one method** decide as one exactly where it is left to the users. -/
theorem merged_iff {env : Env} {settings : Access} {id : Request} {k : Str}
    (h : Checks settings id k) (a b : Str) :
    SameDecision env settings id k a b ↔ LeftToUsers env settings id a b := by
  unfold SameDecision LeftToUsers
  rw [recordAfter_two, recordAfter_one]
  dsimp only
  cases htwo : merge (recordOf (linesOf a)) (recordOf (linesOf b)) with
  | none =>
    refine iff_of_false (fun hsame => ?_) fun hleft => ?_
    · obtain ⟨_, _, hnone, -⟩ := hsame
      cases hnone
    · rw [← merge_compatible, htwo] at hleft
      cases hleft.1
  | some two =>
    have hcompatible := merge_compatible.1 (Option.isSome_of_eq_some htwo)
    have hsame : (∃ two' one', some two = some two' ∧
        some (recordOf (linesOf (bothBodies a b))) = some one' ∧
        decision env settings id k two' = decision env settings id k one') ↔
        (checkUser env settings (recordOf (linesOf (bothBodies a b))) id).map Prod.fst =
          (checkRecord env settings (recordOf (linesOf (bothBodies a b))) id).map Prod.fst := by
      rw [← decision_two h htwo, ← decision_eq h]
      constructor
      · intro hand
        obtain ⟨two', one', htwo', hone', hdecide⟩ := hand
        rw [Option.some.inj htwo', Option.some.inj hone']
        exact hdecide
      · intro hdecide
        exact ⟨two, _, rfl, rfl, hdecide⟩
    rw [hsame]
    generalize recordOf (linesOf (bothBodies a b)) = one
    rw [and_iff_right hcompatible, checkRecord]
    cases hostOk env one id.remoteaddr with
    | true =>
      rw [Bool.not_true, Bool.false_and, Bool.true_and, if_neg Bool.false_ne_true]
      split
      next hanyOne =>
        exact ⟨fun hd => ⟨fun _ => rfl, fun _ _ => hd⟩, fun hd => hd.2 hanyOne rfl⟩
      next hanyOne => exact iff_of_true rfl ⟨fun _ => rfl, fun ha => absurd ha hanyOne⟩
    | false =>
      rw [Bool.not_false, Bool.true_and, Bool.false_and]
      split
      next hallOne =>
        refine iff_of_false (fun hd => ?_) fun hd => Bool.false_ne_true (hd.1 hallOne)
        split at hd
        · exact (checkUser_answer hd).2 rfl
        · exact (checkUser_answer hd).1 rfl
      next hallOne =>
        exact iff_of_true rfl ⟨fun ha => absurd ha hallOne, fun _ hok => by cases hok⟩

/-- **Sections**: what keeps the methods of a file apart, and when two sections decide as one. -/
theorem limits_iff (env : Env) (secs : List Section) {settings : Access} {id : Request} {k : Str}
    (h : Checks settings id k) (a b : Str) :
    (Always Reading.step Apart start secs ↔ EachStep Reading.step Unshared start secs) ∧
    (SameDecision env settings id k a b ↔ LeftToUsers env settings id a b) :=
  ⟨apart_iff secs, merged_iff h a b⟩

/-- No one comes in. -/
def denyAll : Str := "deny from all".toList

theorem limits_iff_denyAll :
    (Always Reading.step Apart start [forMethod "get".toList denyAll] ↔
      EachStep Reading.step Unshared start [forMethod "get".toList denyAll]) ∧
    (SameDecision oneNameEnv (accessOf [] ∅) fromTen "get".toList denyAll denyAll ↔
      LeftToUsers oneNameEnv (accessOf [] ∅) fromTen denyAll denyAll) :=
  limits_iff oneNameEnv [forMethod "get".toList denyAll] ⟨rfl, rfl⟩ denyAll denyAll

/-- Said twice, everyone comes in. -/
theorem denied_twice_let_in :
    ¬ SameDecision oneNameEnv (accessOf [] ∅) fromTen "get".toList denyAll denyAll := by
  intro ⟨two, one, htwo, hone, hsame⟩
  have hin : (recordAfter [forMethod "get".toList denyAll, forMethod "get".toList denyAll]
      "get".toList).bind (decision oneNameEnv (accessOf [] ∅) fromTen "get".toList) = some .ok := by
    decide
  have hout : (recordAfter [forMethod "get".toList (bothBodies denyAll denyAll)] "get".toList).bind
      (decision oneNameEnv (accessOf [] ∅) fromTen "get".toList) = some .denied := by
    decide
  rw [htwo, Option.bind_some] at hin
  rw [hone, Option.bind_some] at hout
  rw [hin, hout] at hsame
  cases hsame

end Caudium.Htaccess
