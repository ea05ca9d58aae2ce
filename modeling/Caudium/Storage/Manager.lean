import Caudium.Lib.Mapping
import Caudium.Lib.Overlay
import Caudium.Lib.Runs

/-!
# `Storage.Manager`: a write-back map

The manager keeps what was stored in RAM (`storage`, a mapping of mappings) and
copies it to the backend later: every `store` leaves a `sync` call-out pending,
and `sync_all` copies a namespace. `retrieve` reads RAM first and the backend
where RAM has nothing, so the manager is the *overlay* of the two, and it is
transparent as long as every operation changes the overlay the way it would
change one plain map.

`unlink` removes from both layers. `unlink_regexp` removes from the backend
only, after copying everything down: a key it should remove and of which RAM
holds a copy is still retrieved. `transparent_iff` says that this is all that
can go wrong.
-/

namespace Caudium.Storage

open Lib (Str Mapping Plain overlay Always EachStep always_iff_eachStep eachStep_of_forall)

/-- A namespace and a key of it. -/
abbrev Path := Str × Str

instance Path.lawfulBEq : LawfulBEq Path := Prod.instLawfulBEq

/-! ## The backend -/

/-- A backend that is a plain map (`permstore`). -/
abbrev Backend := Plain Path Str

namespace Backend

variable (b : Backend)

/-- The backend's `store`. -/
def store (ns key val : Str) : Backend := Function.update b (ns, key) (some val)

/-- The backend's `retrieve`. -/
def retrieve (ns key : Str) : Option Str := b (ns, key)

/-- The backend's `unlink`: of a key, or of the whole namespace. -/
def unlink (ns : Str) (key : Option Str) : Backend :=
  Plain.removeWhere b fun p => p.1 = ns ∧ ∀ k ∈ key, p.2 = k

/-- The backend's `unlink_regexp`; `re.matches key` is `Regexp(re)->match(key)`. -/
def unlinkRegexp (re : Str → Str → Bool) (ns regexp : Str) : Backend :=
  Plain.removeWhere b fun p => p.1 = ns ∧ re regexp p.2

end Backend

/-! ## The manager -/

/-- `storage[namespace] && storage[namespace][key]`. A string is true, the empty
one included. -/
def copyIn (storage : Mapping Str (Mapping Str Str)) (ns key : Str) : Option Str :=
  (storage.lookup ns).bind fun m => m.lookup key

/-- `storage[namespace]`, or the empty mapping `store` puts there. -/
def rowOf (storage : Mapping Str (Mapping Str Str)) (ns : Str) : Mapping Str Str :=
  (storage.lookup ns).getD ∅

theorem lookup_rowOf (storage : Mapping Str (Mapping Str Str)) (ns key : Str) :
    (rowOf storage ns).lookup key = copyIn storage ns key := by
  unfold rowOf copyIn
  cases storage.lookup ns with
  | none => exact AList.lookup_empty key
  | some m => rfl

theorem copyIn_insert (storage : Mapping Str (Mapping Str Str)) (ns ns' key : Str)
    (m : Mapping Str Str) :
    copyIn (storage.insert ns m) ns' key
      = if ns' = ns then m.lookup key else copyIn storage ns' key := by
  unfold copyIn
  rw [Lib.Mapping.lookup_insert_ite]
  split <;> rfl

/-- The manager: its RAM copies, its backend, the call-outs not yet fired. -/
structure Manager where
  storage : Mapping Str (Mapping Str Str)
  permstore : Backend
  callOuts : List Path

namespace Manager

/-- `create`, over a backend. -/
def create (permstore : Backend) : Manager :=
  { storage := ∅, permstore := permstore, callOuts := [] }

variable (s : Manager)

/-- The RAM copy of a key. -/
def copy (ns key : Str) : Option Str := copyIn s.storage ns key

/-- `store`. -/
def store (ns key val : Str) : Manager :=
  { s with
    storage := s.storage.insert ns ((rowOf s.storage ns).insert key val)
    callOuts := s.callOuts ++ [(ns, key)] }

/-- `retrieve`. -/
def retrieve (ns key : Str) : Option Str :=
  match s.copy ns key with
  | some val => some val
  | none => s.permstore.retrieve ns key

/-- `sync`. -/
def sync (ns key : Str) : Manager :=
  match s.copy ns key with
  | some val => { s with permstore := s.permstore.store ns key val }
  | none => s

/-- `foreach(indices(storage[namespace]), string key) sync(namespace, key)`. -/
def syncNamespace (ns : Str) : Manager :=
  (rowOf s.storage ns).keys.foldl (fun s key => s.sync ns key) s

/-- `sync(namespace, key)` for an argument that may be missing: nothing is stored under 0. -/
def syncArg (ns : Option Str) (key : Str) : Manager :=
  match ns with
  | some ns => s.sync ns key
  | none => s

/-- `sync_all`. A namespace that was asked for is copied first. The loop over all of
them that follows syncs its keys in the argument again, not in its own `_namespace`. -/
def syncAll (ns : Option Str) : Manager :=
  if s.storage.keys = [] then s
  else
    let s := match ns with
      | some ns => s.syncNamespace ns
      | none => s
    s.storage.keys.foldl
      (fun s ns' => (rowOf s.storage ns').keys.foldl (fun s key => s.syncArg ns key) s) s

/-- `stop`; the backend's own `stop` leaves what it holds. -/
def stop (ns : Option Str) : Manager := s.syncAll ns

/-- `size`; `total` is the backend's. -/
def size (total : Backend → Str → Int) (ns : Str) : Int × Manager :=
  let s := s.syncAll none
  (total s.permstore ns, s)

/-- `list`; `listed` is the backend's, which may fail. -/
def list (listed : Backend → Str → Option (List Str)) (ns : Str) : List Str × Manager :=
  let s := s.syncAll none
  ((listed s.permstore ns).getD [], s)

/-- `unlink`. -/
def unlink (ns : Str) (key : Option Str) : Manager :=
  let storage := match key with
    | some key =>
      match s.copy ns key with
      | some _ => s.storage.insert ns ((rowOf s.storage ns).erase key)
      | none => s.storage
    | none => s.storage.erase ns
  { s with storage := storage, permstore := s.permstore.unlink ns key }

/-- `unlink_regexp`. -/
def unlinkRegexp (re : Str → Str → Bool) (ns regexp : Str) : Manager :=
  let s := s.syncAll (some ns)
  { s with permstore := s.permstore.unlinkRegexp re ns regexp }

/-- The RAM copies as one map. -/
def ram : Plain Path Str := fun p => s.copy p.1 p.2

/-- What the manager answers, as one map. -/
def view : Plain Path Str := fun p => s.retrieve p.1 p.2

/-- The manager is its RAM laid over its backend. -/
theorem view_eq : s.view = overlay s.ram s.permstore := by
  funext p
  unfold view retrieve overlay ram Backend.retrieve
  cases s.copy p.1 p.2 <;> rfl

/-! ## What each operation does to the two layers -/

theorem ram_store (ns key val : Str) :
    (s.store ns key val).ram = Function.update s.ram (ns, key) (some val) := by
  funext ⟨ns', key'⟩
  show copyIn (s.storage.insert ns ((rowOf s.storage ns).insert key val)) ns' key' = _
  rw [copyIn_insert, Lib.Mapping.lookup_insert_ite, lookup_rowOf, Function.update_apply]
  by_cases hn : ns' = ns
  · subst hn
    by_cases hk : key' = key <;> simp [hk, ram, copy]
  · simp [hn, ram, copy]

theorem view_store (ns key val : Str) :
    (s.store ns key val).view = Function.update s.view (ns, key) (some val) := by
  rw [view_eq, ram_store, view_eq]
  exact Lib.overlay_update_top s.ram s.permstore (ns, key) val

/-- Copying down changes neither RAM nor what the manager answers. -/
structure Copied (s s' : Manager) : Prop where
  storage : s'.storage = s.storage
  view : s'.view = s.view

theorem Copied.ram {s s' : Manager} (h : Copied s s') : s'.ram = s.ram := by
  unfold Manager.ram copy
  rw [h.storage]

theorem sync_copied (ns key : Str) : Copied s (s.sync ns key) := by
  unfold sync
  cases hc : s.copy ns key with
  | none => exact ⟨rfl, rfl⟩
  | some val =>
    refine ⟨rfl, ?_⟩
    rw [view_eq, view_eq]
    exact Lib.overlay_sync (k := (ns, key)) s.permstore hc

theorem foldl_copied {α : Type} {f : Manager → α → Manager} (hf : ∀ s a, Copied s (f s a))
    (as : List α) : ∀ s, Copied s (as.foldl f s) := by
  induction as with
  | nil => exact fun s => ⟨rfl, rfl⟩
  | cons a as ih =>
    intro s
    have h₁ := hf s a
    have h₂ := ih (f s a)
    exact ⟨h₂.storage.trans h₁.storage, h₂.view.trans h₁.view⟩

theorem syncNamespace_copied (ns : Str) : Copied s (s.syncNamespace ns) :=
  foldl_copied (fun s key => s.sync_copied ns key) _ s

theorem syncArg_copied (ns : Option Str) (key : Str) : Copied s (s.syncArg ns key) := by
  cases ns with
  | none => exact ⟨rfl, rfl⟩
  | some ns => exact s.sync_copied ns key

theorem syncAll_copied (ns : Option Str) : Copied s (s.syncAll ns) := by
  have hloop : ∀ (t : Manager) (ns' : Str), Copied t
      ((rowOf t.storage ns').keys.foldl (fun t key => t.syncArg ns key) t) :=
    fun t ns' => foldl_copied (fun t key => t.syncArg_copied ns key) _ t
  unfold syncAll
  split
  · exact ⟨rfl, rfl⟩
  · cases ns with
    | none => exact foldl_copied hloop _ s
    | some ns =>
      -- the source writes the namespace first and then goes over all of them
      have h₁ := s.syncNamespace_copied ns
      have h₂ := foldl_copied hloop (s.syncNamespace ns).storage.keys (s.syncNamespace ns)
      exact ⟨h₂.storage.trans h₁.storage, h₂.view.trans h₁.view⟩

theorem ram_unlink (ns : Str) (key : Option Str) :
    (s.unlink ns key).ram = s.ram.removeWhere fun p => p.1 = ns ∧ ∀ k ∈ key, p.2 = k := by
  -- a whole namespace, or one key of it, which may have no copy
  funext ⟨ns', key'⟩
  unfold Plain.removeWhere
  cases key with
  | none =>
    show copyIn (s.storage.erase ns) ns' key' = _
    unfold copyIn
    rw [Lib.Mapping.lookup_erase_ite]
    by_cases hn : ns' = ns <;> simp [hn, ram, copy, copyIn]
  | some key =>
    cases hc : s.copy ns key with
    | none =>
      have hram : (s.unlink ns (some key)).ram = s.ram := by
        simp only [unlink, hc]
        rfl
      rw [hram]
      by_cases hp : ns' = ns ∧ key' = key
      · obtain ⟨rfl, rfl⟩ := hp
        simpa [ram] using hc
      · simp [hp]
    | some val =>
      have hram : (s.unlink ns (some key)).ram (ns', key')
          = copyIn (s.storage.insert ns ((rowOf s.storage ns).erase key)) ns' key' := by
        simp only [unlink, hc]
        rfl
      rw [hram, copyIn_insert, Lib.Mapping.lookup_erase_ite, lookup_rowOf]
      by_cases hn : ns' = ns
      · subst hn
        by_cases hk : key' = key <;> simp [hk, ram, copy]
      · simp [hn, ram, copy]

/-- `unlink` removes from both layers. -/
theorem view_unlink (ns : Str) (key : Option Str) :
    (s.unlink ns key).view = s.view.removeWhere fun p => p.1 = ns ∧ ∀ k ∈ key, p.2 = k := by
  rw [view_eq, ram_unlink, view_eq]
  exact Lib.overlay_removeWhere s.ram s.permstore _

/-- `unlink_regexp` removes from the overlay what it should exactly when RAM has
a copy of none of it. -/
theorem view_unlinkRegexp_iff (re : Str → Str → Bool) (ns regexp : Str) :
    (s.unlinkRegexp re ns regexp).view
        = s.view.removeWhere (fun p => p.1 = ns ∧ re regexp p.2) ↔
      ∀ key, re regexp key = true → s.copy ns key = none := by
  have hcop := s.syncAll_copied (some ns)
  have hview : (s.unlinkRegexp re ns regexp).view
      = overlay s.ram ((s.syncAll (some ns)).permstore.removeWhere
          fun p => p.1 = ns ∧ re regexp p.2) := by
    rw [view_eq, ← hcop.ram]
    rfl
  rw [hview, ← hcop.view, view_eq, hcop.ram, Lib.overlay_removeWhere_base_iff]
  constructor
  · intro h key hk
    exact h (ns, key) (by simp [hk])
  · intro h hand hp
    obtain ⟨ns', key⟩ := hand
    simp only [decide_eq_true_eq] at hp
    obtain ⟨rfl, hk⟩ := hp
    exact h key hk

end Manager

/-! ## Sequences of calls -/

/-- A call, or the firing of a pending call-out. -/
inductive Op where
  | store (ns key val : Str)
  | retrieve (ns key : Str)
  | unlink (ns : Str) (key : Option Str)
  | unlinkRegexp (ns regexp : Str)
  /-- A pending `sync(namespace, key)` fires. -/
  | fire (ns key : Str)

/-- The manager and the plain map that has seen the same calls. -/
structure Sys where
  manager : Manager
  plain : Plain Path Str

namespace Sys

/-- A manager started over a backend. -/
def start (permstore : Backend) : Sys := { manager := .create permstore, plain := permstore }

/-- One step. A call-out fires when it is pending, and is then gone. -/
def step (re : Str → Str → Bool) (s : Sys) : Op → Option Sys
  | .store ns key val => some
    { manager := s.manager.store ns key val
      plain := Function.update s.plain (ns, key) (some val) }
  | .retrieve _ _ => some s
  | .unlink ns key => some
    { manager := s.manager.unlink ns key
      plain := s.plain.removeWhere fun p => p.1 = ns ∧ ∀ k ∈ key, p.2 = k }
  | .unlinkRegexp ns regexp => some
    { manager := s.manager.unlinkRegexp re ns regexp
      plain := s.plain.removeWhere fun p => p.1 = ns ∧ re regexp p.2 }
  | .fire ns key =>
    if (ns, key) ∈ s.manager.callOuts then
      let m := { s.manager with callOuts := s.manager.callOuts.erase (ns, key) }
      some { s with manager := m.sync ns key }
    else none

/-- Every `retrieve` answers what the plain map would. -/
def Transparent (s : Sys) : Prop := ∀ ns key, s.manager.retrieve ns key = s.plain (ns, key)

/-- The step is not an `unlink_regexp` that should remove a key RAM holds a copy of. -/
def NoCopyMatches (re : Str → Str → Bool) (s : Sys) : Op → Prop
  | .unlinkRegexp ns regexp => ∀ key, re regexp key = true → s.manager.copy ns key = none
  | _ => True

theorem transparent_iff_view (s : Sys) : Transparent s ↔ s.manager.view = s.plain :=
  ⟨fun h => funext fun p => h p.1 p.2, fun h ns key => congrFun h (ns, key)⟩

/-- One step keeps transparency exactly when it meets the condition. -/
theorem step_transparent_iff {re : Str → Str → Bool} {s s' : Sys} {op : Op}
    (h : Transparent s) (hs : s.step re op = some s') :
    Transparent s' ↔ NoCopyMatches re s op := by
  rw [transparent_iff_view] at h ⊢
  cases op with
  | store ns key val =>
    obtain rfl := Option.some.inj hs
    exact iff_of_true ((s.manager.view_store ns key val).trans (by rw [h])) trivial
  | retrieve ns key =>
    obtain rfl := Option.some.inj hs
    exact iff_of_true h trivial
  | unlink ns key =>
    obtain rfl := Option.some.inj hs
    exact iff_of_true ((s.manager.view_unlink ns key).trans (by rw [h])) trivial
  | unlinkRegexp ns regexp =>
    obtain rfl := Option.some.inj hs
    rw [← h]
    exact s.manager.view_unlinkRegexp_iff re ns regexp
  | fire ns key =>
    rw [step] at hs
    split at hs
    · obtain rfl := Option.some.inj hs
      have hview : ({ s.manager with callOuts := s.manager.callOuts.erase (ns, key) }
          : Manager).view = s.manager.view := rfl
      exact iff_of_true ((Manager.sync_copied _ ns key).view.trans (hview.trans h)) trivial
    · cases hs

/-- **The write-back law, with its exact condition.** Whatever the calls and
whenever the call-outs fire, the manager answers what one plain map would, in
every state reached, exactly when no `unlink_regexp` of the run meets a RAM copy
of a key it matches. -/
theorem transparent_iff (re : Str → Str → Bool) (permstore : Backend) (ops : List Op) :
    Always (step re) Transparent (start permstore) ops ↔
      EachStep (step re) (NoCopyMatches re) (start permstore) ops := by
  refine always_iff_eachStep (I := fun _ => True) (H := fun _ _ => True) ?_ ?_ ?_ ops
    (start permstore) trivial ?_ (eachStep_of_forall (fun _ _ => trivial) ops _)
  · intro s op hs
    cases op with
    | unlinkRegexp ns regexp => simp [step] at hs
    | _ => exact trivial
  · intros
    trivial
  · exact fun s op s' _ hP _ hs => step_transparent_iff hP hs
  · exact (transparent_iff_view _).mpr (by rw [Manager.view_eq]; rfl)

/-- A key stored and then removed by a matching expression is still retrieved. -/
theorem unlinkRegexp_keeps_copy :
    ¬ Always (step fun regexp key => regexp == key) Transparent (start fun _ => none)
      [.store "ns".toList "k".toList "v".toList, .unlinkRegexp "ns".toList "k".toList] := by
  intro h
  have hread := (h.2 _ rfl).2 _ rfl "ns".toList "k".toList
  exact absurd hread (by decide)

end Sys

end Caudium.Storage
