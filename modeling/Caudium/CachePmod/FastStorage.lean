import Caudium.CachePmod.SlowStorage

/-!
# `Cache.FastStorage`: the RAM tier

The RAM tier keeps the mappings themselves. It lets go of one in four ways: a
`refresh` or a `flush` drops it, `expire_cache` drops it when its time has come,
and `free` moves it to the disk tier, in ascending order of hit rate, until
enough is freed. The rates are floats computed from the clock, and mappings have
no order of their own, so the order is an argument of `free`: the results hold
for every order.

`Freed` says what `free` can do to the entry of one hash in the two tiers
together.
-/

namespace Caudium.CachePmod

open Lib (Str Mapping)

/-- `FastStorage`. -/
structure FastStorage (V S : Type) where
  thecache : Mapping Str (Meta V S)
  ramUsage : Int
  hits : Nat
  misses : Nat

namespace FastStorage

variable {V S : Type} (env : Env V S) (now : Int) (r : FastStorage V S)

/-- `create`. -/
def create : FastStorage V S := { thecache := ∅, ramUsage := 0, hits := 0, misses := 0 }

/-- `ram_usage += meta->size; thecache += ([ meta->hash : meta ])`. -/
def keep (m : Meta V S) : FastStorage V S :=
  { r with
    ramUsage := r.ramUsage + m.size
    thecache := r.thecache.insert (m.hash.getD []) m }

/-- `store`. A file is read into a string first. -/
def store (m : Meta V S) : FastStorage V S :=
  let m := m.touch env now
  match m.type with
  | .stdio =>
    match m.object with
    | some (.file data) =>
      r.keep { m with object := some (.data data), size := env.sizeof data }
    | _ => r  -- throws: nothing else can be read
  | .var => r.keep m
  | .image => r.keep m
  | .other => r

/-- `retrieve`, of the mapping. -/
def retrieve (name : Str) : Option (Meta V S) × FastStorage V S :=
  let hash := env.getHash name
  match r.thecache.lookup hash with
  | none => (none, { r with misses := r.misses + 1 })
  | some m =>
    let m := { m with hits := m.hits + 1, lastRetrieval := now }
    (some (if m.type = .stdio then m.getStdio else m),
      { r with thecache := r.thecache.insert hash m, hits := r.hits + 1 })

/-- An entry goes, and its size with it. -/
def drop (hash : Str) (m : Meta V S) : FastStorage V S :=
  { r with ramUsage := r.ramUsage - m.size, thecache := r.thecache.erase hash }

/-- `refresh`. -/
def refresh (name : Str) : FastStorage V S :=
  let hash := env.getHash name
  match r.thecache.lookup hash with
  | some m => r.drop hash m
  | none => r

/-- `flush`. The keys an expression matches are handed to `refresh`, which takes
them for names and hashes them once more. -/
def flush (regexp : Option Str) : FastStorage V S :=
  match regexp with
  | some regexp =>
    (r.thecache.keys.filter (env.regexpMatch regexp)).foldl (fun r key => r.refresh env key) r
  | none => { r with ramUsage := 0, thecache := ∅ }

/-- `expires != -1 && expires <= time()`. -/
def Expired (m : Meta V S) : Prop := m.expires ≠ -1 ∧ m.expires ≤ now

instance (m : Meta V S) : Decidable (Expired now m) := by unfold Expired; infer_instance

/-- One turn of `expire_cache`. -/
def expireOne (hash : Str) : FastStorage V S :=
  match r.thecache.lookup hash with
  | some m => if Expired now m then r.drop hash m else r
  | none => r

/-- `expire_cache`. -/
def expireCache : FastStorage V S :=
  r.thecache.keys.foldl (fun r hash => r.expireOne now hash) r

/-- One turn of the loop of `free`: the entry goes to the disk tier if it may.
The size it gives back is the one the disk tier has put into the mapping; a file
is handed over as a copy. -/
def freeOne (hash : Str) (m : Meta V S) (d : SlowStorage S) :
    Int × SlowStorage S × FastStorage V S :=
  if m.diskCache then
    if m.type = .stdio then (m.size, (d.store env now m.getStdio).2, r.drop hash m)
    else
      let (m, d) := d.store env now m
      (m.size, d, r.drop hash m)
  else (m.size, d, r.drop hash m)

/-- The loop of `free`, over the hashes in order of hit rate. -/
def freeLoop (n : Int) : List Str → Int → SlowStorage S → FastStorage V S →
    SlowStorage S × FastStorage V S
  | [], _, d, r => (d, r)
  | hash :: rest, freed, d, r =>
    if freed ≥ n then (d, r)
    else
      match r.thecache.lookup hash with
      | none => freeLoop n rest freed d r
      | some m =>
        let (size, d, r) := r.freeOne env now hash m d
        freeLoop n rest (freed + size) d r

/-- `free`. -/
def free (n : Int) (order : List Str) (d : SlowStorage S) : SlowStorage S × FastStorage V S :=
  let usage := r.ramUsage
  let r := r.expireCache now
  if usage - r.ramUsage > n then (d, r) else freeLoop env now n order 0 d r

/-! ## Reading after each operation -/

/-- Every entry is a variable, filed under its own hash. -/
def Filed : Prop :=
  ∀ hash m, r.thecache.lookup hash = some m → m.type = .var ∧ m.hash = some hash

theorem lookup_store {m : Meta V S} {hash : Str} (htype : m.type = .var)
    (hhash : m.hash.getD (env.getHash m.name) = hash) (h : Str) :
    (r.store env now m).thecache.lookup h
      = if h = hash then some (m.touch env now) else r.thecache.lookup h := by
  unfold store
  dsimp only
  rw [show (m.touch env now).type = .var from htype]
  show (r.thecache.insert ((m.touch env now).hash.getD []) _).lookup h = _
  rw [show (m.touch env now).hash.getD [] = hash from hhash, Lib.Mapping.lookup_insert_ite]

theorem lookup_refresh (name h : Str) :
    (r.refresh env name).thecache.lookup h
      = if h = env.getHash name then none else r.thecache.lookup h := by
  unfold refresh
  dsimp only
  cases hl : r.thecache.lookup (env.getHash name) with
  | some m => exact Lib.Mapping.lookup_erase_ite r.thecache (env.getHash name) h
  | none =>
    by_cases he : h = env.getHash name
    · rw [if_pos he, he]
      exact hl
    · rw [if_neg he]

/-- A hit answers with the entry's object and changes its counters only. -/
theorem retrieve_some {m : Meta V S} {name : Str} (htype : m.type = .var)
    (hl : r.thecache.lookup (env.getHash name) = some m) :
    r.retrieve env now name = (some { m with hits := m.hits + 1, lastRetrieval := now },
      { r with
        thecache := r.thecache.insert (env.getHash name)
          { m with hits := m.hits + 1, lastRetrieval := now }
        hits := r.hits + 1 }) := by
  unfold retrieve
  simp only [hl, htype]
  rfl

theorem retrieve_none {name : Str} (hl : r.thecache.lookup (env.getHash name) = none) :
    r.retrieve env now name = (none, { r with misses := r.misses + 1 }) := by
  unfold retrieve
  simp only [hl]

/-! ## Expiry -/

theorem lookup_expireOne (hash h : Str) :
    (r.expireOne now hash).thecache.lookup h = r.thecache.lookup h ∨
    (∃ m, r.thecache.lookup h = some m ∧ Expired now m ∧
      (r.expireOne now hash).thecache.lookup h = none) := by
  unfold expireOne
  cases hl : r.thecache.lookup hash with
  | none => exact Or.inl rfl
  | some m =>
    dsimp only
    split
    next hexp =>
      by_cases hh : h = hash
      · subst hh
        exact Or.inr ⟨m, hl, hexp, AList.lookup_erase _ _⟩
      · exact Or.inl (AList.lookup_erase_ne hh)
    next => exact Or.inl rfl

/-- Expiry drops expired entries and nothing else. -/
theorem lookup_expireCache (h : Str) :
    (r.expireCache now).thecache.lookup h = r.thecache.lookup h ∨
    (∃ m, r.thecache.lookup h = some m ∧ Expired now m ∧
      (r.expireCache now).thecache.lookup h = none) := by
  have hfold : ∀ (keys : List Str) (r : FastStorage V S),
      (keys.foldl (fun r hash => r.expireOne now hash) r).thecache.lookup h = r.thecache.lookup h ∨
      (∃ m, r.thecache.lookup h = some m ∧ Expired now m ∧
        (keys.foldl (fun r hash => r.expireOne now hash) r).thecache.lookup h = none) := by
    intro keys
    induction keys with
    | nil => exact fun r => Or.inl rfl
    | cons key keys ih =>
      intro r
      rcases lookup_expireOne now r key h with hone | ⟨m, hm, hexp, hone⟩
      · rw [List.foldl_cons, ← hone]
        exact ih _
      · refine Or.inr ⟨m, hm, hexp, ?_⟩
        rcases ih (r.expireOne now key) with hrest | ⟨m', hm', -⟩
        · exact hrest.trans hone
        · rw [hone] at hm'
          cases hm'
  exact hfold _ r

/-! ## Freeing -/

/-- What `free` can do to the entry of one hash, in the two tiers together. -/
inductive Freed (r : FastStorage V S) (d : SlowStorage S) (d' : SlowStorage S)
    (r' : FastStorage V S) (h : Str) : Prop where
  /-- Nothing. -/
  | kept (hram : r'.thecache.lookup h = r.thecache.lookup h)
      (hmeta : d'.metaAt env h = d.metaAt env h) (hobj : d'.objectAt env h = d.objectAt env h)
  /-- Expired, or not for the disk tier: it is gone from RAM. -/
  | dropped {m : Meta V S} (hm : r.thecache.lookup h = some m)
      (hwhy : Expired now m ∨ ¬ SlowStorage.Encodes env m) (hram : r'.thecache.lookup h = none)
      (hmeta : d'.metaAt env h = d.metaAt env h) (hobj : d'.objectAt env h = d.objectAt env h)
  /-- It has become the disk tier's record. -/
  | moved {m : Meta V S} {n : Int} (hm : r.thecache.lookup h = some m)
      (henc : SlowStorage.Encodes env m) (hram : r'.thecache.lookup h = none)
      (hmeta : d'.metaAt env h = some { m.touch env now with size := n, object := none })
      (hobj : d'.objectAt env h = m.object)

theorem freeOne_freed (hlaw : env.Lawful) {d : SlowStorage S} {hash : Str} {m : Meta V S}
    (hf : r.Filed) (hm : r.thecache.lookup hash = some m) (h : Str) :
    Freed env now r d (r.freeOne env now hash m d).2.1 (r.freeOne env now hash m d).2.2 h := by
  obtain ⟨htype, hhash⟩ := hf hash m hm
  have hram : (r.freeOne env now hash m d).2.2.thecache = r.thecache.erase hash := by
    unfold freeOne
    split
    · split <;> rfl
    · rfl
  cases hdisk : m.diskCache with
  -- not for the disk tier: the entry is only taken out of RAM
  | false =>
    have hsame : (r.freeOne env now hash m d).2.1 = d := by
      simp [freeOne, hdisk]
    rw [hsame]
    by_cases hh : h = hash
    · subst hh
      refine .dropped hm (Or.inr fun he => ?_) (by rw [hram]; exact AList.lookup_erase _ _) rfl rfl
      rw [he.1] at hdisk
      cases hdisk
    · exact .kept (by rw [hram]; exact AList.lookup_erase_ne hh) rfl rfl
  | true =>
    have hstored : (r.freeOne env now hash m d).2.1 = (d.store env now m).2 := by
      simp [freeOne, hdisk, htype]
    obtain ⟨hother, hown⟩ := d.store_variable env now hlaw htype
      (show m.hash.getD _ = hash by rw [hhash]; rfl)
    rw [hstored]
    by_cases hh : h = hash
    · subst hh
      have hgone : (r.freeOne env now h m d).2.2.thecache.lookup h = none := by
        rw [hram]
        exact AList.lookup_erase _ _
      -- written, unless its object does not encode
      rcases hown with ⟨henc, ⟨n, hmeta⟩, hobj⟩ | ⟨hno, hmeta, hobj⟩
      · exact .moved hm henc hgone hmeta hobj
      · exact .dropped hm (Or.inr hno) hgone hmeta hobj
    · exact .kept (by rw [hram]; exact AList.lookup_erase_ne hh) (hother h hh).1 (hother h hh).2

/-- What happened to an entry in two stretches, when it is one of the ways in the
second: an entry that is gone after the first has nothing left to happen to it. -/
theorem Freed.trans {r r₁ r' : FastStorage V S} {d d₁ d' : SlowStorage S} {h : Str}
    (h₁ : Freed env now r d d₁ r₁ h) (h₂ : Freed env now r₁ d₁ d' r' h) :
    Freed env now r d d' r' h := by
  cases h₁ with
  | kept hram hmeta hobj =>
    cases h₂ with
    | kept hram' hmeta' hobj' =>
      exact .kept (hram'.trans hram) (hmeta'.trans hmeta) (hobj'.trans hobj)
    | dropped hm hwhy hram' hmeta' hobj' =>
      exact .dropped (hram ▸ hm) hwhy hram' (hmeta'.trans hmeta) (hobj'.trans hobj)
    | moved hm henc hram' hmeta' hobj' => exact .moved (hram ▸ hm) henc hram' hmeta' hobj'
  | dropped hm hwhy hram hmeta hobj =>
    cases h₂ with
    | kept hram' hmeta' hobj' =>
      exact .dropped hm hwhy (hram'.trans hram) (hmeta'.trans hmeta) (hobj'.trans hobj)
    | dropped hm' => rw [hram] at hm'; cases hm'
    | moved hm' => rw [hram] at hm'; cases hm'
  | moved hm henc hram hmeta hobj =>
    cases h₂ with
    | kept hram' hmeta' hobj' =>
      exact .moved hm henc (hram'.trans hram) (hmeta'.trans hmeta) (hobj'.trans hobj)
    | dropped hm' => rw [hram] at hm'; cases hm'
    | moved hm' => rw [hram] at hm'; cases hm'

/-- Entries that are filed stay filed. -/
theorem Freed.filed {r r' : FastStorage V S} {d d' : SlowStorage S} (hf : r.Filed)
    (h : ∀ h, Freed env now r d d' r' h) : r'.Filed := by
  intro hash m hm
  cases h hash with
  | kept hram => exact hf hash m (hram ▸ hm)
  | dropped _ _ hram => rw [hram] at hm; cases hm
  | moved _ _ hram => rw [hram] at hm; cases hm

theorem freeLoop_freed (hlaw : env.Lawful) (n : Int) (order : List Str) :
    ∀ (freed : Int) (d : SlowStorage S) (r : FastStorage V S), r.Filed → ∀ h,
      Freed env now r d (freeLoop env now n order freed d r).1
        (freeLoop env now n order freed d r).2 h := by
  induction order with
  | nil => exact fun _ d r _ h => .kept rfl rfl rfl
  | cons hash rest ih =>
    intro freed d r hf h
    rw [freeLoop]
    split
    · exact .kept rfl rfl rfl
    · cases hl : r.thecache.lookup hash with
      | none => exact ih freed d r hf h
      | some m =>
        have hone := freeOne_freed env now r hlaw (d := d) hf hl
        exact (hone h).trans env now (ih _ _ _ (Freed.filed env now hf hone) h)

theorem free_freed (hlaw : env.Lawful) (n : Int) (order : List Str) (d : SlowStorage S)
    (hf : r.Filed) (h : Str) :
    Freed env now r d (r.free env now n order d).1 (r.free env now n order d).2 h := by
  have hexp : ∀ h, Freed env now r d d (r.expireCache now) h := by
    intro h
    rcases r.lookup_expireCache now h with hk | ⟨m, hm, he, hn⟩
    · exact .kept hk rfl rfl
    · exact .dropped hm (Or.inl he) hn rfl rfl
  unfold free
  dsimp only
  split
  · exact hexp h
  · exact (hexp h).trans env now
      (freeLoop_freed env now hlaw n order 0 d _ (Freed.filed env now hf hexp) h)

end FastStorage

end Caudium.CachePmod
