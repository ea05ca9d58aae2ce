import Caudium.Storage.Manager

/-!
# What a shutdown leaves in the backend

`stop`, `size` and `list` are to copy every RAM copy down before the backend is
used. `sync_all` without a namespace copies nothing (`syncAll_none`): its loop
over all namespaces calls `sync` with the missing argument. So the backend has
after `stop` what it had before, and a stored value is there exactly when
something else has brought it down: one of the call-outs of its key, an
`unlink_regexp` of its namespace, or a backend that held that value already.

`unsaved` follows one key through the calls and says whether its last value is
still to be copied (`Follows.step`, then `Follows.run`); `shutdown_iff` is the
law with that as its exact condition.
-/

namespace Caudium.Storage

open Lib (Str Mapping Plain overlay runFrom)

namespace Manager

variable (s : Manager)

/-! ## What copying does to the backend -/

theorem sync_permstore (ns key : Str) (p : Path) :
    (s.sync ns key).permstore p = if p = (ns, key) then s.view p else s.permstore p := by
  unfold sync
  by_cases hp : p = (ns, key)
  · subst hp
    rw [if_pos rfl, view_eq, overlay, ram]
    cases hc : s.copy ns key with
    | none => rfl
    | some val => exact Function.update_self (ns, key) (some val) s.permstore
  · rw [if_neg hp]
    cases s.copy ns key with
    | none => rfl
    | some val => exact Function.update_of_ne hp (some val) s.permstore

/-- `sync_all` without a namespace does nothing. -/
theorem syncAll_none : s.syncAll none = s := by
  unfold syncAll
  split
  · rfl
  · exact List.foldl_fixed' (fun ns => List.foldl_fixed' (fun key => rfl) (rowOf s.storage ns).keys)
      s.storage.keys

theorem foldl_keeps {α : Type} {P : Manager → Prop} {f : Manager → α → Manager}
    (hf : ∀ s a, P s → P (f s a)) (as : List α) : ∀ s, P s → P (as.foldl f s) := by
  induction as with
  | nil => exact fun s h => h
  | cons a as ih => exact fun s h => ih (f s a) (hf s a h)

/-- What holds after every `sync` within a namespace holds after `sync_all` of it. -/
theorem syncAll_keeps {P : Manager → Prop} {ns : Str} (hsync : ∀ s key, P s → P (s.sync ns key)) :
    P s → P (s.syncAll (some ns)) := by
  intro h
  unfold syncAll
  split
  · exact h
  · refine foldl_keeps (fun t ns' ht => ?_) _ _ (foldl_keeps hsync _ s h)
    exact foldl_keeps hsync _ t ht

/-- Copying down a namespace does not touch the others. -/
theorem syncAll_permstore_other {ns : Str} {p : Path} (hp : p.1 ≠ ns) :
    (s.syncAll (some ns)).permstore p = s.permstore p := by
  refine s.syncAll_keeps (P := fun t => t.permstore p = s.permstore p) (fun t key ht => ?_) rfl
  rw [sync_permstore, if_neg fun hk => hp (congrArg Prod.fst hk)]
  exact ht

/-- Copying down a key of a list leaves in the backend what the manager answers. -/
theorem foldl_sync_permstore {ns key : Str} (keys : List Str) :
    ∀ s : Manager, key ∈ keys →
      (keys.foldl (fun s key => s.sync ns key) s).permstore (ns, key) = s.view (ns, key) := by
  induction keys with
  | nil => exact fun s hmem => absurd hmem List.not_mem_nil
  | cons k keys ih =>
    intro s hmem
    rw [List.foldl_cons]
    have hview := (s.sync_copied ns k).view
    by_cases hk : key ∈ keys
    · rw [ih (s.sync ns k) hk, hview]
    · -- the last time the key is copied is now
      obtain rfl : key = k := (List.mem_cons.mp hmem).resolve_right hk
      have hkept : ∀ ks : List Str, key ∉ ks → ∀ t : Manager,
          (ks.foldl (fun s k => s.sync ns k) t).permstore (ns, key) = t.permstore (ns, key) := by
        intro ks
        induction ks with
        | nil => exact fun _ t => rfl
        | cons k' ks ihk =>
          intro hnot t
          rw [List.foldl_cons, ihk (fun h => hnot (List.mem_cons_of_mem _ h)), sync_permstore,
            if_neg fun h => hnot (List.mem_cons.mpr (Or.inl (congrArg Prod.snd h)))]
      rw [hkept keys hk, sync_permstore, if_pos rfl]

/-- A RAM copy of the namespace is in the backend after `sync_all`. -/
theorem syncAll_permstore_self {ns key val : Str} (h : s.ram (ns, key) = some val) :
    (s.syncAll (some ns)).permstore (ns, key) = some val := by
  have hview : s.view (ns, key) = some val := by rw [view_eq, overlay, h]; rfl
  have hrow : (rowOf s.storage ns).lookup key = some val := by rw [lookup_rowOf]; exact h
  have hkey : key ∈ (rowOf s.storage ns).keys :=
    (Lib.Mapping.mem_keys_iff _ _).mpr ⟨val, hrow⟩
  have hns : s.storage.keys ≠ [] := by
    intro hnil
    have hmem : ns ∈ s.storage.keys := by
      cases hl : s.storage.lookup ns with
      | some m => exact (Lib.Mapping.mem_keys_iff _ _).mpr ⟨m, hl⟩
      | none =>
        rw [rowOf, hl, Option.getD_none, AList.lookup_empty] at hrow
        cases hrow
    rw [hnil] at hmem
    exact absurd hmem List.not_mem_nil
  have hfirst : (s.syncNamespace ns).permstore (ns, key) = some val := by
    rw [syncNamespace, foldl_sync_permstore _ s hkey, hview]
  have hcop := s.syncNamespace_copied ns
  unfold syncAll
  rw [if_neg hns]
  -- the second pass copies the same values again
  have hagain : ∀ (t : Manager) (k : Str),
      t.permstore (ns, key) = some val ∧ t.view (ns, key) = some val →
      (t.syncArg (some ns) k).permstore (ns, key) = some val ∧
        (t.syncArg (some ns) k).view (ns, key) = some val := by
    intro t k ht
    refine ⟨?_, by rw [(t.syncArg_copied (some ns) k).view]; exact ht.2⟩
    show (t.sync ns k).permstore (ns, key) = some val
    rw [sync_permstore]
    split
    · exact ht.2
    · exact ht.1
  exact (foldl_keeps (fun t ns' ht => foldl_keeps hagain _ t ht) _ _
    ⟨hfirst, by rw [hcop.view]; exact hview⟩).1

end Manager

/-! ## One key through the calls -/

namespace Sys

section one

variable (re : Str → Str → Bool) (p : Path)

/-- What the key holds after a call that found it holding `v`. -/
def storedAfter (v : Option Str) : Op → Option Str
  | .store ns key val => if p = (ns, key) then some val else v
  | .unlink ns key => if p.1 = ns ∧ ∀ k ∈ key, p.2 = k then none else v
  | .unlinkRegexp ns regexp => if p.1 = ns ∧ re regexp p.2 = true then none else v
  | _ => v

/-- The value last stored under the key, unless it has been unlinked since. -/
def stored (ops : List Op) : Option Str := ops.foldl (storedAfter re p) none

/-- Whether the key's last value is still to be copied down, after a call made in
state `s`: a `store` of what the backend has already leaves nothing to copy. -/
def unsavedAfter (s : Sys) (unsaved : Bool) : Op → Bool
  | .store ns key val =>
    if p = (ns, key) then decide (s.manager.permstore p ≠ some val) else unsaved
  | .fire ns key => unsaved && decide (p ≠ (ns, key))
  | .unlinkRegexp ns _ => unsaved && decide (p.1 ≠ ns)
  | _ => unsaved

/-- Whether the key's last value is still to be copied down after a run. -/
def unsaved : Sys → Bool → List Op → Bool
  | _, late, [] => late
  | s, late, op :: ops =>
    match s.step re op with
    | some s' => unsaved s' (unsavedAfter p s late op) ops
    | none => late

end one

variable {re : Str → Str → Bool} {p : Path}

/-- The manager holds the key's value `v`, and the backend has it unless it is late. -/
structure Follows (p : Path) (v : Option Str) (late : Bool) (m : Manager) : Prop where
  ram : ∀ val, v = some val → m.ram p = some val
  down : ∀ val, v = some val → (m.permstore p = some val ↔ late = false)

/-- Nothing is asked of a key that is not there. -/
theorem follows_none (p : Path) (late : Bool) (m : Manager) : Follows p none late m where
  ram _ h := nomatch h
  down _ h := nomatch h

theorem follows_store {m : Manager} {v : Option Str} {late : Bool} (h : Follows p v late m)
    (ns key val : Str) :
    Follows p (if p = (ns, key) then some val else v)
      (if p = (ns, key) then decide (m.permstore p ≠ some val) else late)
      (m.store ns key val) := by
  have hram := m.ram_store ns key val
  by_cases hp : p = (ns, key)
  · rw [if_pos hp, if_pos hp]
    refine ⟨fun w hw => ?_, fun w hw => ?_⟩
    · rw [hram, hp, Function.update_self, hw]
    · show m.permstore p = some w ↔ _
      rw [decide_eq_false_iff_not, not_not, hw]
  · rw [if_neg hp, if_neg hp]
    refine ⟨fun w hw => ?_, h.down⟩
    rw [hram, Function.update_of_ne hp]
    exact h.ram w hw

theorem follows_unlink {m : Manager} {v : Option Str} {late : Bool} (h : Follows p v late m)
    (ns : Str) (key : Option Str) :
    Follows p (if p.1 = ns ∧ ∀ k ∈ key, p.2 = k then none else v) late (m.unlink ns key) := by
  by_cases hrem : p.1 = ns ∧ ∀ k ∈ key, p.2 = k
  · rw [if_pos hrem]
    exact follows_none p late _
  · rw [if_neg hrem]
    refine ⟨fun w hw => ?_, fun w hw => ?_⟩
    · rw [Manager.ram_unlink, Plain.removeWhere, decide_eq_false hrem]
      exact h.ram w hw
    · show (m.permstore.unlink ns key) p = some w ↔ _
      rw [Backend.unlink, Plain.removeWhere, decide_eq_false hrem]
      exact h.down w hw

/-- What is left of the namespace has been copied down. -/
theorem follows_unlinkRegexp {re : Str → Str → Bool} {m : Manager} {v : Option Str} {late : Bool}
    (h : Follows p v late m) (ns regexp : Str) :
    Follows p (if p.1 = ns ∧ re regexp p.2 = true then none else v)
      (late && decide (p.1 ≠ ns)) (m.unlinkRegexp re ns regexp) := by
  by_cases hrem : p.1 = ns ∧ re regexp p.2 = true
  · rw [if_pos hrem]
    exact follows_none p _ _
  · rw [if_neg hrem]
    refine ⟨fun w hw => ?_, fun w hw => ?_⟩
    · show (m.syncAll (some ns)).ram p = some w
      rw [(m.syncAll_copied (some ns)).ram]
      exact h.ram w hw
    · show (Backend.unlinkRegexp (m.syncAll (some ns)).permstore re ns regexp) p = some w ↔ _
      rw [Backend.unlinkRegexp, Plain.removeWhere, decide_eq_false hrem]
      show (m.syncAll (some ns)).permstore p = some w ↔ _
      by_cases hn : p.1 = ns
      · subst hn
        rw [m.syncAll_permstore_self (h.ram w hw)]
        simp
      · rw [m.syncAll_permstore_other hn, h.down w hw]
        simp [hn]

theorem follows_sync {m : Manager} {v : Option Str} {late : Bool} (h : Follows p v late m)
    (ns key : Str) : Follows p v (late && decide (p ≠ (ns, key))) (m.sync ns key) where
  ram w hw := by
    rw [(m.sync_copied ns key).ram]
    exact h.ram w hw
  down w hw := by
    rw [Manager.sync_permstore]
    by_cases hp : p = (ns, key)
    · rw [if_pos hp, Manager.view_eq, overlay, h.ram w hw]
      simp [hp]
    · rw [if_neg hp, h.down w hw]
      simp [hp]

/-- One call, or one call-out. -/
theorem Follows.step {s s' : Sys} {op : Op} {v : Option Str} {late : Bool}
    (h : Follows p v late s.manager) (hs : s.step re op = some s') :
    Follows p (storedAfter re p v op) (unsavedAfter p s late op) s'.manager := by
  cases op with
  | store ns key val =>
    obtain rfl := Option.some.inj hs
    exact follows_store h ns key val
  | retrieve ns key =>
    obtain rfl := Option.some.inj hs
    exact h
  | unlink ns key =>
    obtain rfl := Option.some.inj hs
    exact follows_unlink h ns key
  | unlinkRegexp ns regexp =>
    obtain rfl := Option.some.inj hs
    exact follows_unlinkRegexp h ns regexp
  | fire ns key =>
    rw [Sys.step] at hs
    split at hs
    · obtain rfl := Option.some.inj hs
      have hm : Follows p v late { s.manager with
        callOuts := s.manager.callOuts.erase (ns, key) } := ⟨h.ram, h.down⟩
      exact follows_sync hm ns key
    · cases hs

theorem Follows.run (ops : List Op) :
    ∀ {s s' : Sys} {v : Option Str} {late : Bool}, Follows p v late s.manager →
      runFrom (Sys.step re) s ops = some s' →
      Follows p (ops.foldl (storedAfter re p) v) (unsaved re p s late ops) s'.manager := by
  induction ops with
  | nil =>
    intro s s' v late h hrun
    obtain rfl := Option.some.inj hrun
    exact h
  | cons op ops ih =>
    intro s s' v late h hrun
    cases hs : s.step re op with
    | none =>
      rw [runFrom, hs] at hrun
      cases hrun
    | some s₁ =>
      rw [Lib.runFrom_cons ops hs] at hrun
      rw [List.foldl_cons, unsaved, hs]
      exact ih (h.step hs) hrun

/-! ## The shutdown -/

/-- The calls that copy everything down first. -/
inductive Closing where
  | stop
  | size (ns : Str)
  | list (ns : Str)

/-- The manager after such a call. -/
def Closing.run (total : Backend → Str → Int) (listed : Backend → Str → Option (List Str))
    (m : Manager) : Closing → Manager
  | .stop => m.stop none
  | .size ns => (m.size total ns).2
  | .list ns => (m.list listed ns).2

/-- **What a shutdown saves.** After any sequence of calls and call-outs, `stop`
(or `size`, or `list`) leaves in the backend the last value of every key stored and
not unlinked since if and only if none of these values was still to be copied. -/
theorem shutdown_iff (re : Str → Str → Bool) (total : Backend → Str → Int)
    (listed : Backend → Str → Option (List Str)) (permstore : Backend) (ops : List Op) (s : Sys)
    (hrun : runFrom (step re) (start permstore) ops = some s) (call : Closing) :
    (∀ p val, stored re p ops = some val →
        (call.run total listed s.manager).permstore p = some val) ↔
      ∀ p val, stored re p ops = some val → unsaved re p (start permstore) false ops = false := by
  have hsame : (call.run total listed s.manager).permstore = s.manager.permstore := by
    cases call <;> exact congrArg Manager.permstore s.manager.syncAll_none
  rw [hsame]
  refine forall_congr' fun p => forall_congr' fun val => forall_congr' fun hv => ?_
  exact ((follows_none p false (start permstore).manager).run ops hrun).down val hv

/-- One key, stored and copied down by its call-out. -/
theorem shutdown_iff_fired :
    (∀ p val, stored (fun _ _ => false) p
        [.store "ns".toList "k".toList "v".toList, .fire "ns".toList "k".toList] = some val →
        (Closing.run (fun _ _ => 0) (fun _ _ => none) (((Manager.create fun _ => none).store
          "ns".toList "k".toList "v".toList).sync "ns".toList "k".toList) .stop).permstore p
          = some val) ↔
      ∀ p val, stored (fun _ _ => false) p
        [.store "ns".toList "k".toList "v".toList, .fire "ns".toList "k".toList] = some val →
        unsaved (fun _ _ => false) p (start fun _ => none) false
          [.store "ns".toList "k".toList "v".toList, .fire "ns".toList "k".toList] = false :=
  shutdown_iff (fun _ _ => false) (fun _ _ => 0) (fun _ _ => none) (fun _ => none)
    [.store "ns".toList "k".toList "v".toList, .fire "ns".toList "k".toList]
    { manager := { ((Manager.create fun _ => none).store
        "ns".toList "k".toList "v".toList).sync "ns".toList "k".toList with callOuts := [] }
      plain := Function.update (fun _ => none) ("ns".toList, "k".toList) (some "v".toList) }
    rfl .stop

/-- A key stored just before the stop is not in the backend after it. -/
theorem stop_loses_store :
    ¬ ∀ p val, stored (fun _ _ => false) p [.store "ns".toList "k".toList "v".toList] = some val →
      (((Manager.create fun _ => none).store "ns".toList "k".toList "v".toList).stop none).permstore p
        = some val := by
  intro h
  exact absurd (h ("ns".toList, "k".toList) "v".toList (by decide)) (by decide)

end Sys

end Caudium.Storage
