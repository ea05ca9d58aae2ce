import Caudium.Lib.Runs
import Caudium.Storage.SizeIndex

/-!
# Stopping a cache

`watch_halflife` stops the caches that were not used for a while. Each writes out what it has and
stops its storage client, and with it the storage manager and the disk backend, which are those of
all caches. The backend writes its index and leaves a mark that stops `idx_sync` from starting
itself again; nobody takes the mark away.

Without an idle cache a call-out of `idx_sync` is always pending, and whatever is stored comes into
a written index, unless it is removed before (`keeps_syncing`).
-/

namespace Caudium.Storage

open Lib (Str Mapping)

/-- The storage manager over the disk backend, with its call-outs: those of `sync`, and how many
there are of `idx_sync`. The caches are here for their `last_access`. -/
structure Shared where
  storage : Mapping Str (Mapping Str Str)
  permstore : Disk
  syncs : List Path
  idxSyncs : Nat
  idxSyncStop : Bool
  caches : Mapping Str Int

namespace Shared

variable (env : DiskEnv)

/-- A manager that has just been created, with its backend over a directory. -/
def create (d : Disk) : Shared where
  storage := ∅
  permstore := d.create env
  syncs := []
  idxSyncs := 1
  idxSyncStop := false
  caches := ∅

variable (s : Shared)

/-! ## The manager's calls -/

def store (ns key val : Str) : Shared :=
  { s with
    storage := s.storage.insert ns ((rowOf s.storage ns).insert key val)
    syncs := s.syncs ++ [(ns, key)] }

/-- `retrieve`; the backend is asked where there is no copy. -/
def retrieve (ns key : Str) : Shared :=
  match copyIn s.storage ns key with
  | some _ => s
  | none => { s with permstore := (s.permstore.retrieve env ns key).2 }

def sync (ns key : Str) : Shared :=
  match copyIn s.storage ns key with
  | some val => { s with permstore := s.permstore.store env ns key val }
  | none => s

/-- `sync_all`. Without a namespace nothing is synced. -/
def syncAll (ns : Option Str) : Shared :=
  match ns with
  | none => s
  | some ns =>
    let syncKeys (ns' : Str) (s : Shared) : Shared :=
      (rowOf s.storage ns').keys.foldl (fun s key => s.sync env ns key) s
    s.storage.keys.foldl (fun s ns' => syncKeys ns' s) (syncKeys ns s)

def unlink (ns : Str) (key : Option Str) : Shared :=
  { s with
    storage := match key with
      | some key =>
        match copyIn s.storage ns key with
        | some _ => s.storage.insert ns ((rowOf s.storage ns).erase key)
        | none => s.storage
      | none => s.storage.erase ns
    permstore := s.permstore.unlink env ns key }

def unlinkRegexp (ns regexp : Str) : Shared :=
  let s := s.syncAll env (some ns)
  { s with permstore := s.permstore.unlinkRegexp env ns regexp }

def size (ns : Str) : Shared :=
  let s := s.syncAll env none
  { s with permstore := (s.permstore.size env ns).2 }

def list (ns : Str) : Shared :=
  let s := s.syncAll env none
  { s with permstore := (s.permstore.list env ns).2 }

/-- `idx_sync` of the backend. -/
def idxSync (stop : Bool) : Shared :=
  let idxSyncStop := s.idxSyncStop || stop
  { s with
    permstore := s.permstore.idxSync
    idxSyncStop
    idxSyncs := if idxSyncStop then s.idxSyncs else s.idxSyncs + 1 }

/-- `stop`, with the backend's. -/
def stop (ns : Option Str) : Shared := (s.syncAll env ns).idxSync true

/-! ## The caches -/

/-- `stop` of a cache; `puts` is what it stores before it stops its storage. -/
def stopCache (ns : Str) (puts : List (Str × Str)) : Shared :=
  (puts.foldl (fun s put => s.store ns put.1 put.2) s).stop env (some ns)

/-- `watch_halflife`. -/
def watchHalflife (time halflife : Int) (puts : Str → List (Str × Str)) : Shared :=
  s.caches.entries.foldl
    (fun s c => if c.2 < time - halflife then s.stopCache env c.1 (puts c.1) else s) s

end Shared

/-! ## What stays in an index -/

namespace Disk

variable {env : DiskEnv} {d : Disk} {ns key : Str}

/-- The index has the key. -/
def Has (d : Disk) (ns key : Str) : Prop := (copyIn d.idx ns key).isSome = true

theorem has_openIdx (h : d.Has ns key) (ns' : Str) : (d.openIdx ns').Has ns key := by
  rw [openIdx]
  split
  · exact h
  next hno =>
    show (copyIn (d.idx.insert ns' ∅) ns key).isSome = true
    rw [copyIn_insert]
    split
    next he =>
      -- there is no row for it
      rw [Has, he, copyIn, Option.not_isSome_iff_eq_none.mp hno] at h
      cases h
    next => exact h

theorem has_putPath (h : d.Has ns key) (ns' key' p : Str) : (d.putPath ns' key' p).Has ns key := by
  rw [Has, copyIn_putPath]
  split
  · rfl
  · exact h

theorem has_putPath_self (ns key p : Str) : (d.putPath ns key p).Has ns key := by
  rw [Has, copyIn_putPath, if_pos ⟨rfl, rfl⟩]
  rfl

theorem has_idxPath (h : d.Has ns key) (ns' key' : Str) (given : Option Str) :
    (d.idxPath env ns' key' given).2.Has ns key := by
  have hopen := has_openIdx h ns'
  unfold idxPath
  cases given with
  | some p => exact has_putPath hopen ns' key' p
  | none =>
    dsimp only
    split
    · exact hopen
    · exact has_putPath hopen ns' key' _

theorem has_idxPath_self (ns key : Str) : (d.idxPath env ns key none).2.Has ns key := by
  rw [idxPath]
  dsimp only
  split
  next p hp => rw [Has, hp]; rfl
  next => exact has_putPath_self ns key _

theorem has_idxSize (h : d.Has ns key) (ns' key' : Str) (data : Option Str) :
    (d.idxSize env ns' key' data).2.Has ns key := by
  have hopen : (openSz d ns').Has ns key := by
    rw [openSz]
    split
    · exact h
    · exact h
  unfold idxSize
  rw [← openSz]
  dsimp only
  split
  · exact hopen
  · cases data with
    | some data => exact hopen
    | none => exact has_idxPath hopen ns' key' none

theorem has_idxRm (h : d.Has ns key) {ns' : Str} {key' : Option Str}
    (hne : ns' = ns → ∃ k, key' = some k ∧ k ≠ key) : (d.idxRm ns' key').Has ns key := by
  cases key' with
  | none =>
    rw [idxRm]
    split
    · show (copyIn (d.idx.erase ns') ns key).isSome = true
      rw [copyIn, Mapping.lookup_erase_ite, if_neg]
      · exact h
      · intro he
        obtain ⟨k, hk, -⟩ := hne he.symm
        cases hk
    · exact h
  | some key' =>
    rw [idxRm]
    split
    · exact h
    · show (copyIn (d.idx.insert ns' _) ns key).isSome = true
      rw [copyIn_insert]
      split
      next he =>
        obtain ⟨k, hk, hkey⟩ := hne he.symm
        have hother : key ≠ key' := fun he' => hkey (he'.trans (Option.some.inj hk)).symm
        rw [Mapping.lookup_erase_ite, if_neg hother, lookup_rowOf, ← he]
        exact h
      next => exact h

theorem has_store (h : d.Has ns key) (ns' key' value : Str) :
    (d.store env ns' key' value).Has ns key :=
  has_idxSize (has_idxPath h ns' key' none) ns' key' _

theorem has_store_self (ns key value : Str) : (d.store env ns key value).Has ns key :=
  has_idxSize (has_idxPath_self ns key) ns key _

theorem has_retrieve (h : d.Has ns key) {ns' key' : Str} (hne : ns' = ns → key' ≠ key) :
    (d.retrieve env ns' key').2.Has ns key := by
  have hpath : (d.idxPath env ns' key' none).2.Has ns key := has_idxPath h ns' key' none
  have hrm := has_idxRm hpath fun he => ⟨key', rfl, hne he⟩
  rw [retrieve]
  dsimp only
  split
  · exact hrm
  · split
    · exact hpath
    · exact hrm

theorem has_scanFile {r : List Str × Disk} (h : r.2.Has ns key) (ns' objpath : Str) :
    (scanFile env ns' r objpath).2.Has ns key := by
  rw [scanFile]
  split
  · exact has_idxPath h _ _ _
  · exact h

theorem has_list (h : d.Has ns key) (ns' : Str) : (d.list env ns').2.Has ns key := by
  rw [list]
  cases hrow : d.idx.lookup ns' with
  | some m => exact h
  | none =>
    have hscan : (d.files.keys.foldl (scanFile env ns') ([], d)).2.Has ns key :=
      List.foldlRecOn (motive := fun r => r.2.Has ns key) d.files.keys (scanFile env ns') h
        fun r hr p _ => has_scanFile hr ns' p
    dsimp only
    split
    · show (copyIn (_ : Mapping Str (Mapping Str Str)) ns key).isSome = true
      rw [copyIn_insert, if_neg]
      · exact hscan
      · intro he
        rw [Has, he, copyIn, hrow] at h
        cases h
    · exact hscan

theorem has_unlinkKey (h : d.Has ns key) {ns' key' : Str} (hne : ns' = ns → key' ≠ key) :
    (d.unlinkKey env ns' key').Has ns key :=
  has_idxRm (has_idxPath h ns' key' none) fun he => ⟨key', rfl, hne he⟩

/-- `unlink` of other keys. -/
theorem has_unlink (h : d.Has ns key) {ns' : Str} {key' : Option Str}
    (hne : ns' = ns → ∃ k, key' = some k ∧ k ≠ key) : (d.unlink env ns' key').Has ns key := by
  cases key' with
  | some key' =>
    refine has_unlinkKey h fun he => ?_
    obtain ⟨k, hk, hkey⟩ := hne he
    exact Option.some.inj hk ▸ hkey
  | none =>
    have hother : ns' ≠ ns := fun he => by
      obtain ⟨k, hk, -⟩ := hne he
      cases hk
    have hkeys : ((d.list env ns').1.foldl (fun d key => d.unlinkKey env ns' key)
        (d.list env ns').2).Has ns key :=
      List.foldlRecOn (motive := fun d => Has d ns key) _ _ (has_list h ns')
        fun d hd key' _ => has_unlinkKey hd fun he => absurd he hother
    exact has_idxRm hkeys fun he => absurd he hother

theorem has_unlinkRegexp (h : d.Has ns key) {ns' regexp : Str}
    (hne : ns' = ns → env.reMatch regexp key = false) :
    (d.unlinkRegexp env ns' regexp).Has ns key := by
  refine List.foldlRecOn (motive := fun d => Has d ns key) _
    (fun d key => d.unlinkKey env ns' key) (has_list h ns')
    fun d hd key' hkey' => has_unlinkKey hd fun he hkey => ?_
  subst hkey
  have hmatch := (List.mem_filter.mp hkey').2
  rw [hne he] at hmatch
  cases hmatch

theorem has_size (h : d.Has ns key) (ns' : Str) : (d.size env ns').2.Has ns key := by
  have htotal : (size.total env d ns').2.Has ns key :=
    List.foldlRecOn (motive := fun r : Int × Disk => r.2.Has ns key) (d.list env ns').1 _
      (has_list h ns') fun r hr key' _ => has_idxSize hr ns' key' none
  rw [size]
  split
  · split
    · exact h
    · exact htotal
  · exact htotal

end Disk

namespace Shared

/-! ## Runs -/

inductive Event
  | store (ns key val : Str)
  | retrieve (ns key : Str)
  | unlink (ns : Str) (key : Option Str)
  | unlinkRegexp (ns regexp : Str)
  | size (ns : Str)
  | list (ns : Str)
  /-- A call-out. -/
  | sync (ns key : Str)
  /-- The other one. -/
  | idxSync
  /-- A cache is made or used. -/
  | use (ns : Str) (time : Int)
  | watchHalflife (time halflife : Int) (puts : Str → List (Str × Str))

variable (env : DiskEnv)

def step (s : Shared) : Event → Option Shared
  | .store ns key val => some (s.store ns key val)
  | .retrieve ns key => some (s.retrieve env ns key)
  | .unlink ns key => some (s.unlink env ns key)
  | .unlinkRegexp ns regexp => some (s.unlinkRegexp env ns regexp)
  | .size ns => some (s.size env ns)
  | .list ns => some (s.list env ns)
  | .sync ns key =>
    if (ns, key) ∈ s.syncs then
      some ({ s with syncs := s.syncs.erase (ns, key) }.sync env ns key)
    else none
  | .idxSync =>
    if 0 < s.idxSyncs then some ({ s with idxSyncs := s.idxSyncs - 1 }.idxSync false) else none
  | .use ns time => some { s with caches := s.caches.insert ns time }
  | .watchHalflife time halflife puts => some (s.watchHalflife env time halflife puts)

/-- A call-out of `idx_sync` is pending. -/
def Pending (s : Shared) : Prop := 0 < s.idxSyncs

/-- A written index has the record. -/
def Covered (s : Shared) (ns key : Str) : Prop :=
  (s.permstore.storageIndex.bind fun idx => copyIn idx ns key).isSome = true

/-- The call is one to remove the record, if it is there. -/
def Removes (ns key : Str) : Event → Prop
  | .unlink ns' key' => ns' = ns ∧ ∀ k ∈ key', k = key
  | .unlinkRegexp ns' regexp => ns' = ns ∧ env.reMatch regexp key = true
  | _ => False

/-- Every call-out is called some time. -/
structure Fair (states : Nat → Shared) (events : Nat → Event) : Prop where
  syncs : ∀ n ns key, (ns, key) ∈ (states n).syncs → ∃ m, n ≤ m ∧ events m = .sync ns key
  idxSyncs : ∀ n, 0 < (states n).idxSyncs → ∃ m, n ≤ m ∧ events m = .idxSync

/-- Every record that is stored comes into a written index, unless it is removed before. -/
def Covers (states : Nat → Shared) (events : Nat → Event) : Prop :=
  ∀ n ns key val, events n = .store ns key val → ∃ m, n < m ∧
    ((∃ k, n < k ∧ k < m ∧ Removes env ns key (events k)) ∨ (states m).Covered ns key)

/-- `watch_halflife` finds no idle cache. -/
def Meets (s : Shared) : Event → Prop
  | .watchHalflife time halflife _ =>
    ∀ ns lastAccess, s.caches.lookup ns = some lastAccess → time - halflife ≤ lastAccess
  | _ => True

/-! ## What the calls leave -/

variable {env} {s : Shared} {ns key : Str}

/-- There is a copy of the record in RAM. -/
def Copied (s : Shared) (ns key : Str) : Prop := (copyIn s.storage ns key).isSome = true

/-- What there was of the record is still there. -/
structure Stays (ns key : Str) (s s' : Shared) : Prop where
  copied : s.Copied ns key → s'.Copied ns key
  has : s.Copied ns key → s.permstore.Has ns key → s'.permstore.Has ns key

theorem Stays.refl (s : Shared) : Stays ns key s s := ⟨id, fun _ => id⟩

theorem Stays.trans {s₁ s₂ s₃ : Shared} (h : Stays ns key s₁ s₂) (h' : Stays ns key s₂ s₃) :
    Stays ns key s₁ s₃ :=
  ⟨fun hc => h'.copied (h.copied hc), fun hc hh => h'.has (h.copied hc) (h.has hc hh)⟩

theorem Stays.foldl {α : Type} {f : Shared → α → Shared} (hf : ∀ s a, Stays ns key s (f s a))
    (as : List α) : ∀ s, Stays ns key s (as.foldl f s) := by
  induction as with
  | nil => exact fun s => .refl s
  | cons a as ih => exact fun s => (hf s a).trans (ih (f s a))

theorem stays_store (s : Shared) (ns' key' val : Str) :
    Stays ns key s (s.store ns' key' val) := by
  refine ⟨fun hc => ?_, fun _ => id⟩
  show (copyIn (s.storage.insert ns' _) ns key).isSome = true
  rw [copyIn_insert]
  split
  next he =>
    rw [Lib.Mapping.lookup_insert_ite]
    split
    · rfl
    · rw [lookup_rowOf, ← he]
      exact hc
  next => exact hc

theorem copied_store (s : Shared) (ns key val : Str) : (s.store ns key val).Copied ns key := by
  show (copyIn (s.storage.insert ns _) ns key).isSome = true
  rw [copyIn_insert, if_pos rfl, Lib.Mapping.lookup_insert_ite, if_pos rfl]
  rfl

theorem stays_sync (s : Shared) (ns' key' : Str) : Stays ns key s (s.sync env ns' key') := by
  rw [sync]
  split
  · exact ⟨id, fun _ hh => Disk.has_store hh ns' key' _⟩
  · exact .refl s

/-- A record that has a copy is in the index behind its `sync`. -/
theorem has_sync (h : s.Copied ns key) : (s.sync env ns key).permstore.Has ns key := by
  obtain ⟨val, hval⟩ := Option.isSome_iff_exists.mp h
  rw [sync, hval]
  exact Disk.has_store_self ns key val

theorem stays_syncAll (s : Shared) (ns' : Option Str) : Stays ns key s (s.syncAll env ns') := by
  cases ns' with
  | none => exact .refl s
  | some ns' =>
    have hkeys : ∀ (t : Shared) (keys : List Str),
        Stays ns key t (keys.foldl (fun s key => s.sync env ns' key) t) :=
      fun t keys => .foldl (fun s key' => stays_sync s ns' key') keys t
    exact (hkeys s _).trans (.foldl (fun t _ => hkeys t _) _ _)

theorem stays_stopCache (s : Shared) (ns' : Str) (puts : List (Str × Str)) :
    Stays ns key s (s.stopCache env ns' puts) := by
  have hputs : Stays ns key s (puts.foldl (fun s put => s.store ns' put.1 put.2) s) :=
    .foldl (fun s put => stays_store s ns' put.1 put.2) puts s
  have hsync := hputs.trans (@stays_syncAll env ns key _ (some ns'))
  exact ⟨hsync.copied, hsync.has⟩

theorem stays_retrieve (s : Shared) (ns' key' : Str) : Stays ns key s (s.retrieve env ns' key') := by
  rw [retrieve]
  split
  · exact .refl s
  next hnone =>
    refine ⟨id, fun hc hh => Disk.has_retrieve hh fun hns hkey => ?_⟩
    rw [hns, hkey] at hnone
    rw [Copied, hnone] at hc
    cases hc

/-- `unlink` of other records. -/
theorem stays_unlink {ns' : Str} {key' : Option Str} (hne : ¬ (ns' = ns ∧ ∀ k ∈ key', k = key))
    (s : Shared) : Stays ns key s (s.unlink env ns' key') := by
  have hother : ns' = ns → ∃ k, key' = some k ∧ k ≠ key := fun hns => by
    by_contra hno
    exact hne ⟨hns, fun k hk => by_contra fun hkey => hno ⟨k, hk, hkey⟩⟩
  refine ⟨fun hc => ?_, fun _ hh => Disk.has_unlink hh hother⟩
  cases key' with
  | none =>
    show (copyIn (s.storage.erase ns') ns key).isSome = true
    rw [copyIn, Lib.Mapping.lookup_erase_ite, if_neg]
    · exact hc
    · intro hns
      obtain ⟨k, hk, -⟩ := hother hns.symm
      cases hk
  | some key' =>
    cases hcopy : copyIn s.storage ns' key' with
    | none =>
      have hstorage : (s.unlink env ns' (some key')).storage = s.storage := by
        simp [unlink, hcopy]
      rw [Copied, hstorage]
      exact hc
    | some val =>
      have hstorage : (s.unlink env ns' (some key')).storage =
          s.storage.insert ns' ((rowOf s.storage ns').erase key') := by
        simp [unlink, hcopy]
      rw [Copied, hstorage, copyIn_insert]
      split
      next hns =>
        obtain ⟨k, hk, hkey⟩ := hother hns.symm
        have hkeys : key ≠ key' := fun he => hkey (he.trans (Option.some.inj hk)).symm
        rw [Lib.Mapping.lookup_erase_ite, if_neg hkeys, lookup_rowOf, ← hns]
        exact hc
      next => exact hc

theorem stays_unlinkRegexp {ns' regexp : Str}
    (hne : ¬ (ns' = ns ∧ env.reMatch regexp key = true)) (s : Shared) :
    Stays ns key s (s.unlinkRegexp env ns' regexp) := by
  have hsync := @stays_syncAll env ns key s (some ns')
  refine ⟨hsync.copied, fun hc hh => Disk.has_unlinkRegexp (hsync.has hc hh) fun hns => ?_⟩
  exact Bool.eq_false_iff.mpr fun hmatch => hne ⟨hns, hmatch⟩

/-- Of every event that does not remove the record. -/
theorem stays_step {e : Event} (hkeeps : ¬ Removes env ns key e) {s' : Shared}
    (hs : step env s e = some s') : Stays ns key s s' := by
  cases e with
  | store ns' key' val => exact Option.some.inj hs ▸ stays_store s ns' key' val
  | retrieve ns' key' => exact Option.some.inj hs ▸ stays_retrieve s ns' key'
  | unlink ns' key' => exact Option.some.inj hs ▸ stays_unlink hkeeps s
  | unlinkRegexp ns' regexp => exact Option.some.inj hs ▸ stays_unlinkRegexp hkeeps s
  | size ns' => exact Option.some.inj hs ▸ ⟨id, fun _ hh => Disk.has_size hh ns'⟩
  | list ns' => exact Option.some.inj hs ▸ ⟨id, fun _ hh => Disk.has_list hh ns'⟩
  | sync ns' key' =>
    simp only [step] at hs
    split at hs
    · have hstays := @stays_sync env ns key
        { s with syncs := s.syncs.erase (ns', key') } ns' key'
      rw [← Option.some.inj hs]
      exact ⟨hstays.copied, hstays.has⟩
    · cases hs
  | idxSync =>
    simp only [step] at hs
    split at hs
    · exact Option.some.inj hs ▸ ⟨id, fun _ => id⟩
    · cases hs
  | use ns' time => exact Option.some.inj hs ▸ ⟨id, fun _ => id⟩
  | watchHalflife time halflife puts =>
    refine Option.some.inj hs ▸ .foldl (fun s c => ?_) s.caches.entries s
    split
    · exact stays_stopCache s c.1 (puts c.1)
    · exact .refl s

/-! ## The call-outs -/

/-- A call-out of `idx_sync` is pending, and nothing stops the next ones. -/
structure Running (s : Shared) : Prop where
  pending : 0 < s.idxSyncs
  goes : s.idxSyncStop = false

theorem running_create (d : Disk) : Running (create env d) := ⟨Nat.one_pos, rfl⟩

theorem Running.sync (h : Running s) (ns' key' : Str) : Running (s.sync env ns' key') := by
  rw [Shared.sync]
  split
  · exact ⟨h.pending, h.goes⟩
  · exact h

theorem Running.syncAll (h : Running s) (ns' : Option Str) : Running (s.syncAll env ns') := by
  cases ns' with
  | none => exact h
  | some ns' =>
    have hkeys : ∀ (t : Shared) (keys : List Str), Running t →
        Running (keys.foldl (fun s key => s.sync env ns' key) t) :=
      fun t keys ht => List.foldlRecOn (motive := Running) keys _ ht fun s hs key' _ =>
        hs.sync ns' key'
    exact List.foldlRecOn (motive := Running) _ _ (hkeys s _ h) fun t ht ns'' _ => hkeys t _ ht

/-- An event in which no idle cache is found. -/
theorem Running.step (h : Running s) {e : Event} (hmeets : Meets s e) {s' : Shared}
    (hs : step env s e = some s') : Running s' := by
  cases e with
  | store ns' key' val => exact Option.some.inj hs ▸ ⟨h.pending, h.goes⟩
  | retrieve ns' key' =>
    rw [← Option.some.inj hs, retrieve]
    split
    · exact h
    · exact ⟨h.pending, h.goes⟩
  | unlink ns' key' => exact Option.some.inj hs ▸ ⟨h.pending, h.goes⟩
  | unlinkRegexp ns' regexp =>
    have hsync : Running (s.syncAll env (some ns')) := h.syncAll (some ns')
    exact Option.some.inj hs ▸ ⟨hsync.pending, hsync.goes⟩
  | size ns' => exact Option.some.inj hs ▸ ⟨h.pending, h.goes⟩
  | list ns' => exact Option.some.inj hs ▸ ⟨h.pending, h.goes⟩
  | sync ns' key' =>
    simp only [Shared.step] at hs
    split at hs
    · have hrunning : Running { s with syncs := s.syncs.erase (ns', key') } := ⟨h.pending, h.goes⟩
      exact Option.some.inj hs ▸ hrunning.sync ns' key'
    · cases hs
  | idxSync =>
    simp only [Shared.step] at hs
    split at hs
    · rw [← Option.some.inj hs]
      refine ⟨?_, ?_⟩
      · simp [idxSync, h.goes]
      · simp [idxSync, h.goes]
    · cases hs
  | use ns' time => exact Option.some.inj hs ▸ ⟨h.pending, h.goes⟩
  | watchHalflife time halflife puts =>
    have hsame : s.watchHalflife env time halflife puts = s := by
      refine List.foldlRecOn (motive := fun t => t = s) _ _ rfl fun t ht c hc => ?_
      have hlast := hmeets c.1 c.2 (AList.mem_lookup_iff.mpr hc)
      rw [if_neg (by omega), ht]
    rw [← Option.some.inj hs, hsame]
    exact h

/-! ## What holds of every run -/

/-- What is stored comes into an index. -/
theorem covers_of_meets (d : Disk) {states : Nat → Shared} {events : Nat → Event}
    (hstart : states 0 = create env d) (hrun : Lib.Forever (step env) states events)
    (hfair : Fair states events) (hmeets : ∀ n, Meets (states n) (events n)) :
    Covers env states events := by
  have hrunning : ∀ n, Running (states n) :=
    hrun.always (fun s e s' h hm hs => h.step hm hs) hmeets (hstart ▸ running_create d)
  intro n ns key val hstore
  have hnext : states (n + 1) = (states n).store ns key val := by
    have hs := hrun n
    rw [hstore] at hs
    exact (Option.some.inj hs).symm
  -- its own call-out comes, and then one of `idx_sync`
  obtain ⟨m, hm, hsync⟩ := hfair.syncs (n + 1) ns key (by
    rw [hnext]
    exact List.mem_append_right _ List.mem_cons_self)
  obtain ⟨k, hk, hidx⟩ := hfair.idxSyncs (m + 1) (hrunning (m + 1)).pending
  have hcopied := hrun.keeps (E := Removes env ns key) (P := fun s => s.Copied ns key)
    (fun s e s' h he hs => (stays_step he hs).copied h) (hnext ▸ copied_store _ ns key val) m hm
  rcases hcopied with ⟨j, hj, hjm, hremoves⟩ | hcopied
  · exact ⟨m, by omega, .inl ⟨j, by omega, hjm, hremoves⟩⟩
  have hsynced : (states (m + 1)).Copied ns key ∧ (states (m + 1)).permstore.Has ns key := by
    have hs := hrun m
    have hkeeps : ¬ Removes env ns key (events m) := by
      rw [hsync]
      exact id
    refine ⟨(stays_step hkeeps hs).copied hcopied, ?_⟩
    rw [hsync] at hs
    simp only [step] at hs
    split at hs
    · rw [← Option.some.inj hs]
      exact has_sync hcopied
    · cases hs
  have hindexed := hrun.keeps (E := Removes env ns key)
    (P := fun s => s.Copied ns key ∧ s.permstore.Has ns key)
    (fun s e s' h he hs => ⟨(stays_step he hs).copied h.1, (stays_step he hs).has h.1 h.2⟩)
    hsynced k hk
  rcases hindexed with ⟨j, hj, hjk, hremoves⟩ | hindexed
  · exact ⟨k, by omega, .inl ⟨j, by omega, hjk, hremoves⟩⟩
  refine ⟨k + 1, by omega, .inr ?_⟩
  have hs := hrun k
  rw [hidx] at hs
  simp only [step] at hs
  split at hs
  · rw [← Option.some.inj hs]
    exact hindexed.2
  · cases hs

/-- **Over every run** in which no idle cache is found: a call-out of `idx_sync` is always pending;
and if the run goes on and every call-out is called, each record that is stored comes into a written
index or is removed. -/
theorem keeps_syncing (env : DiskEnv) (d : Disk) :
    (∀ events, Lib.EachStep (step env) Meets (create env d) events →
      Lib.Always (step env) Pending (create env d) events) ∧
    ∀ states events, states 0 = create env d → Lib.Forever (step env) states events →
      Fair states events → (∀ n, Meets (states n) (events n)) → Covers env states events := by
  refine ⟨fun events hmeets => ?_, fun states events hstart hrun hfair hmeets =>
    covers_of_meets d hstart hrun hfair hmeets⟩
  have halways : Lib.Always (step env) Running (create env d) events :=
    Lib.always_of_step (fun s e s' h hm hs => h.step hm hs) events _ (running_create d) hmeets
  exact halways.mono (fun s h => h.pending) events _

/-! ## With and without an idle cache -/

/-- Nothing is stored yet. -/
def fresh : Shared := create Disk.plainEnv (.empty ['d'])

/-- The record is stored. -/
def stored (s : Shared) : Shared := s.store ['b'] ['k'] ['v']

/-- It has come down to the backend. -/
def synced (s : Shared) : Shared := { stored s with syncs := [] }.sync Disk.plainEnv ['b'] ['k']

/-- A record is stored, and the index is written for ever. -/
def quiet : Nat → Event
  | 0 => .store ['b'] ['k'] ['v']
  | 1 => .sync ['b'] ['k']
  | _ => .idxSync

def quietStates : Nat → Shared
  | 0 => fresh
  | 1 => stored fresh
  | 2 => synced fresh
  | _ => { synced fresh with permstore := (synced fresh).permstore.idxSync }

theorem keeps_syncing_quiet :
    Lib.Always (step Disk.plainEnv) Pending fresh
        [.use ['b'] 0, .watchHalflife 3600 7200 fun _ => []] ∧
      Covers Disk.plainEnv quietStates quiet := by
  have h := keeps_syncing Disk.plainEnv (.empty ['d'])
  refine ⟨h.1 _ ⟨trivial, fun s hs => ⟨?_, fun _ _ => trivial⟩⟩,
    h.2 quietStates quiet rfl ?_ ⟨?_, ?_⟩ ?_⟩
  · obtain rfl := Option.some.inj hs
    intro ns lastAccess hlookup
    have hcache : (fresh.caches.insert ['b'] 0).lookup ns = some lastAccess := hlookup
    have hnone : fresh.caches.lookup ns = none := AList.lookup_empty ns
    rw [Mapping.lookup_insert_ite, hnone] at hcache
    split at hcache
    · rw [← Option.some.inj hcache]
      decide
    · cases hcache
  · intro n
    match n with
    | 0 => rfl
    | 1 => rfl
    | 2 => rfl
    | n + 3 => rfl
  · intro n ns key hmem
    match n with
    | 0 => cases hmem
    | 1 =>
      obtain ⟨rfl, rfl⟩ := Prod.mk.inj (List.mem_singleton.mp hmem)
      exact ⟨1, Nat.le_refl 1, rfl⟩
    | 2 => cases hmem
    | n + 3 => cases hmem
  · exact fun n _ => ⟨n + 2, Nat.le_add_right n 2, rfl⟩
  · intro n
    match n with
    | 0 => exact trivial
    | 1 => exact trivial
    | n + 2 => exact trivial

/-- The cache "a" is found idle once, and used again; the record is stored after that. -/
def stopped : Nat → Event
  | 0 => .use ['a'] 0
  | 1 => .watchHalflife 7200 3600 fun _ => []
  | 2 => .idxSync
  | 3 => .use ['a'] 7200
  | 4 => .store ['b'] ['k'] ['v']
  | 5 => .sync ['b'] ['k']
  | _ => .use ['a'] 7200

def stoppedStates : Nat → Shared
  | 0 => fresh
  | 1 => { fresh with caches := AList.singleton ['a'] 0 }
  | 2 => { fresh with
      permstore := fresh.permstore.idxSync
      idxSyncStop := true
      caches := AList.singleton ['a'] 0 }
  | 3 => { halted with caches := AList.singleton ['a'] 0 }
  | 4 => halted
  | 5 => stored halted
  | _ => synced halted
where
  halted : Shared := { fresh with
    permstore := fresh.permstore.idxSync
    idxSyncs := 0
    idxSyncStop := true
    caches := AList.singleton ['a'] 7200 }

theorem stoppedStates_run : Lib.Forever (step Disk.plainEnv) stoppedStates stopped := by
  intro n
  match n with
  | 0 => rfl
  | 1 => rfl
  | 2 => rfl
  | 3 => rfl
  | 4 => rfl
  | 5 => rfl
  | n + 6 => rfl

theorem stoppedStates_fair : Fair stoppedStates stopped := by
  refine ⟨fun n ns key hmem => ?_, fun n hpending => ?_⟩
  · match n with
    | 5 =>
      obtain ⟨rfl, rfl⟩ := Prod.mk.inj (List.mem_singleton.mp hmem)
      exact ⟨5, Nat.le_refl 5, rfl⟩
    | 0 | 1 | 2 | 3 | 4 | n + 6 => cases hmem
  · match n with
    | 0 | 1 | 2 => exact ⟨2, by omega, rfl⟩
    | 3 | 4 | 5 | n + 6 => exact absurd hpending (Nat.lt_irrefl 0)

/-- No call-out is pending any more, and the record never comes into an index. -/
theorem idle_cache_stops : stoppedStates 0 = create Disk.plainEnv (.empty ['d']) ∧
    Lib.Forever (step Disk.plainEnv) stoppedStates stopped ∧ Fair stoppedStates stopped ∧
    ¬ Pending (stoppedStates 3) ∧ ¬ Covers Disk.plainEnv stoppedStates stopped := by
  refine ⟨rfl, stoppedStates_run, stoppedStates_fair, Nat.lt_irrefl 0, fun h => ?_⟩
  obtain ⟨m, hm, ⟨k, hk, -, hremoves⟩ | hcovered⟩ := h 4 ['b'] ['k'] ['v'] rfl
  · match k, hk with
    | 5, _ => exact hremoves
    | k + 6, _ => exact hremoves
  · match m, hm with
    | 5, _ => cases hcovered
    | m + 6, _ => cases hcovered

end Shared

end Caudium.Storage
