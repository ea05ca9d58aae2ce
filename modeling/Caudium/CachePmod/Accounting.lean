import Caudium.CachePmod.FastStorage
import Caudium.Lib.Runs
import Caudium.Lib.Total

/-!
# The account of the RAM tier (`FastStorage.pike`)

`ram_usage` goes up and down by the sizes of the entries that come and go. What it is off by is
`drift`, and each call has one lemma about that. Two of them move it. A `store` over an entry that
is there adds the new size and does not take off the old one. `free` takes off the size that it
reads after the disk tier has put the length of the encoded object into the mapping. All other
calls leave the drift alone, or end it with a new start. So the account is right in every state of a
run exactly when no such `store` and no such `free` is in it (`accounted_iff`).
-/

namespace Caudium.CachePmod

open Lib (Str Mapping Always EachStep)
open Lib.Mapping (total weightAt)

namespace FastStorage

variable {V S : Type} (env : Env V S) (now : Int) (r : FastStorage V S)

/-! ## `stop` -/

/-- One turn of the loop of `stop`. What is not a file is handed over itself, so that what the disk
tier writes into the mapping is in the entry. -/
def stopOne (s : SlowStorage S × FastStorage V S) (hash : Str) : SlowStorage S × FastStorage V S :=
  match s.2.thecache.lookup hash with
  | none => s
  | some m =>
    if m.diskCache then
      if m.type = .stdio then ((s.1.store env now m.getStdio).2, s.2)
      else
        let (m, d) := s.1.store env now m
        (d, { s.2 with thecache := s.2.thecache.insert hash m })
    else s

/-- `stop`. -/
def stop (d : SlowStorage S) : SlowStorage S × FastStorage V S :=
  let s := r.thecache.keys.foldl (stopOne env now) (d, r)
  (s.1, s.2.flush env none)

/-! ## What the account is off by -/

/-- `ram_usage` less the sizes of all entries. -/
def drift : Int := r.ramUsage - total Meta.size r.thecache

theorem drift_keep (m : Meta V S) :
    (r.keep m).drift = r.drift + weightAt Meta.size r.thecache (m.hash.getD []) := by
  unfold drift keep
  dsimp only
  rw [Lib.Mapping.total_insert]
  omega

/-- An entry goes, and `m.size` is taken off for it. -/
theorem drift_drop {hash : Str} {m₀ : Meta V S} (h : r.thecache.lookup hash = some m₀)
    (m : Meta V S) : (r.drop hash m).drift = r.drift + (m₀.size - m.size) := by
  unfold drift drop
  dsimp only
  rw [Lib.Mapping.total_erase, Lib.Mapping.weightAt_some Meta.size h]
  omega

/-- What `store` puts into the cache, if anything. -/
def kept (m : Meta V S) : Option (Meta V S) :=
  match m.type with
  | .stdio =>
    match m.object with
    | some (.file data) =>
      some { m.touch env now with object := some (.data data), size := env.sizeof data }
    | _ => none
  | .var => some (m.touch env now)
  | .image => some (m.touch env now)
  | .other => none

/-- The hash it is put under. -/
def hashOf (m : Meta V S) : Str := m.hash.getD (env.getHash m.name)

theorem store_eq (m : Meta V S) : r.store env now m =
    match kept env now m with
    | some m' => r.keep m'
    | none => r := by
  unfold store kept
  dsimp only [Meta.touch]
  cases m.type with
  | stdio =>
    cases m.object with
    | none => rfl
    | some o =>
      cases o with
      | file data => rfl
      | data s => rfl
      | value v => rfl
  | var => rfl
  | image => rfl
  | other => rfl

theorem hash_kept {m m' : Meta V S} (h : kept env now m = some m') :
    m'.hash.getD [] = hashOf env m := by
  unfold kept at h
  split at h
  · split at h
    · obtain rfl := Option.some.inj h
      rfl
    · cases h
  · obtain rfl := Option.some.inj h
    rfl
  · obtain rfl := Option.some.inj h
    rfl
  · cases h

/-- **A store** puts the drift up by the size of what it replaces. -/
theorem drift_store (m : Meta V S) : (r.store env now m).drift =
    r.drift + if (kept env now m).isSome then weightAt Meta.size r.thecache (hashOf env m) else 0 := by
  rw [store_eq]
  cases hkept : kept env now m with
  | none => exact (Int.add_zero _).symm
  | some m' =>
    rw [← hash_kept env now hkept]
    exact r.drift_keep m'

theorem drift_retrieve (name : Str) : (r.retrieve env now name).2.drift = r.drift := by
  unfold retrieve
  dsimp only
  cases hl : r.thecache.lookup (env.getHash name) with
  | none => rfl
  | some m =>
    have htotal : total Meta.size (r.thecache.insert (env.getHash name)
        { m with hits := m.hits + 1, lastRetrieval := now }) = total Meta.size r.thecache :=
      Lib.Mapping.total_insert_same Meta.size hl rfl
    exact congrArg (r.ramUsage - ·) htotal

theorem drift_refresh (name : Str) : (r.refresh env name).drift = r.drift := by
  unfold refresh
  dsimp only
  cases hl : r.thecache.lookup (env.getHash name) with
  | none => rfl
  | some m =>
    have hdrop := r.drift_drop hl m
    rwa [Int.sub_self, Int.add_zero] at hdrop

theorem drift_flush_none : (r.flush env none).drift = 0 := rfl

theorem drift_flush_some (regexp : Str) : (r.flush env (some regexp)).drift = r.drift := by
  unfold flush
  dsimp only
  generalize r.thecache.keys.filter (env.regexpMatch regexp) = keys
  induction keys generalizing r with
  | nil => rfl
  | cons key keys ih => rw [List.foldl_cons, ih, drift_refresh]

theorem drift_expireOne (hash : Str) : (r.expireOne now hash).drift = r.drift := by
  unfold expireOne
  cases hl : r.thecache.lookup hash with
  | none => rfl
  | some m =>
    dsimp only
    split
    · have hdrop := r.drift_drop hl m
      rwa [Int.sub_self, Int.add_zero] at hdrop
    · rfl

theorem drift_expireCache : (r.expireCache now).drift = r.drift := by
  unfold expireCache
  generalize r.thecache.keys = keys
  induction keys generalizing r with
  | nil => rfl
  | cons key keys ih => rw [List.foldl_cons, ih, drift_expireOne]

theorem drift_stop (d : SlowStorage S) : (r.stop env now d).2.drift = 0 := drift_flush_none env _

/-! ## `free` -/

/-- The size of an entry once the disk tier has had it. -/
def diskSize (m : Meta V S) : Int :=
  if m.diskCache then
    match m.type with
    | .var =>
      match env.encodeValue m.object with
      | some data => env.sizeof data
      | none => m.size
    | .image =>
      match env.pnmEncode m.object with
      | some data => env.sizeof data
      | none => m.size
    | _ => m.size
  else m.size

/-- Which entries are removed: one after the other, until their sizes are at least `n`. -/
def removedFor (n : Int) : Int → List (Meta V S) → List (Meta V S)
  | _, [] => []
  | freed, m :: ms => if freed ≥ n then [] else m :: removedFor n (freed + diskSize env m) ms

/-- The entries of some hashes, in their order. -/
def entriesOf (order : List Str) : List (Meta V S) :=
  order.filterMap fun hash => r.thecache.lookup hash

theorem entriesOf_cons_none {hash : Str} (h : r.thecache.lookup hash = none) (order : List Str) :
    r.entriesOf (hash :: order) = r.entriesOf order :=
  @List.filterMap_cons_none _ _ (fun hash => r.thecache.lookup hash) hash order h

theorem entriesOf_cons_some {hash : Str} {m : Meta V S} (h : r.thecache.lookup hash = some m)
    (order : List Str) : r.entriesOf (hash :: order) = m :: r.entriesOf order :=
  @List.filterMap_cons_some _ _ (fun hash => r.thecache.lookup hash) hash order m h

theorem entriesOf_congr {r r' : FastStorage V S} {order : List Str}
    (h : ∀ hash ∈ order, r'.thecache.lookup hash = r.thecache.lookup hash) :
    r'.entriesOf order = r.entriesOf order := List.filterMap_congr h

/-- The size of all entries that have expired. -/
def expiredSize : Int := total (fun m => if Expired now m then m.size else 0) r.thecache

/-- What the disk tier leaves in the mapping. -/
theorem size_store (m : Meta V S) (d : SlowStorage S) (hdisk : m.diskCache = true)
    (htype : m.type ≠ .stdio) : (d.store env now m).1.size = diskSize env m := by
  unfold SlowStorage.store diskSize
  rw [if_pos hdisk]
  dsimp only [Meta.touch]
  rw [if_pos hdisk, if_pos hdisk]
  cases hm : m.type with
  | stdio => exact absurd hm htype
  | var =>
    dsimp only
    cases env.encodeValue m.object with
    | none => rfl
    | some data => rfl
  | image =>
    dsimp only
    cases env.pnmEncode m.object with
    | none => rfl
    | some data => rfl
  | other => rfl

/-- **One turn** removes the entry and takes off, and counts as freed, what the disk tier has left
for its size. -/
theorem freeOne_spec (hash : Str) (m : Meta V S) (d : SlowStorage S) :
    ∃ m' d', r.freeOne env now hash m d = (diskSize env m, d', r.drop hash m') ∧
      m'.size = diskSize env m := by
  unfold freeOne
  by_cases hdisk : m.diskCache = true
  · rw [if_pos hdisk]
    by_cases htype : m.type = .stdio
    · have hsize : diskSize env m = m.size := by
        unfold diskSize
        rw [if_pos hdisk, htype]
      rw [if_pos htype, hsize]
      exact ⟨m, _, rfl, rfl⟩
    · have hsize := size_store env now m d hdisk htype
      rw [if_neg htype]
      refine ⟨(d.store env now m).1, (d.store env now m).2, ?_, hsize⟩
      rw [← hsize]
  · have hsize : diskSize env m = m.size := if_neg hdisk
    rw [if_neg hdisk, hsize]
    exact ⟨m, d, rfl, rfl⟩

/-- **The loop** puts the drift up by what the sizes of the removed entries are too small by. -/
theorem drift_freeLoop (n : Int) {order : List Str} (hnodup : order.Nodup) :
    ∀ (freed : Int) (d : SlowStorage S) (r : FastStorage V S),
      (freeLoop env now n order freed d r).2.drift = r.drift +
        ((removedFor env n freed (r.entriesOf order)).map
          fun m => m.size - diskSize env m).sum := by
  induction order with
  | nil => exact fun freed d r => (Int.add_zero _).symm
  | cons hash rest ih =>
    intro freed d r
    obtain ⟨hnew, hrest⟩ := List.nodup_cons.mp hnodup
    rw [freeLoop]
    cases hl : r.thecache.lookup hash with
    | none =>
      rw [r.entriesOf_cons_none hl]
      split
      -- Enough is freed: nothing is removed from here on.
      next hge =>
        have hnothing : removedFor env n freed (r.entriesOf rest) = [] := by
          cases r.entriesOf rest with
          | nil => rfl
          | cons m ms => exact if_pos hge
        rw [hnothing]
        exact (Int.add_zero _).symm
      next => exact ih hrest freed d r
    | some m =>
      rw [r.entriesOf_cons_some hl, removedFor]
      split
      next => exact (Int.add_zero _).symm
      next =>
        obtain ⟨m', d', hone, hsize⟩ := r.freeOne_spec env now hash m d
        -- The other entries of the order are still there.
        have hsame : (r.drop hash m').entriesOf rest = r.entriesOf rest := by
          refine entriesOf_congr fun h hh => AList.lookup_erase_ne fun he => ?_
          exact hnew (he ▸ hh)
        dsimp only
        rw [hone]
        dsimp only
        rw [ih hrest, hsame, r.drift_drop hl, hsize, List.map_cons, List.sum_cons]
        omega

/-! ## What has expired -/

/-- A hash that has just been looked at. -/
theorem not_expired_expireOne {hash : Str} {m : Meta V S}
    (h : (r.expireOne now hash).thecache.lookup hash = some m) : ¬ Expired now m := by
  rcases r.lookup_expireOne now hash hash with hsame | ⟨_, _, _, hnone⟩
  · intro hexp
    have hm := hsame.symm.trans h
    have hone : r.expireOne now hash = r.drop hash m := by
      unfold expireOne
      rw [hm]
      exact if_pos hexp
    have hgone : (r.drop hash m).thecache.lookup hash = none := AList.lookup_erase _ _
    rw [hone, hgone] at h
    cases h
  · rw [hnone] at h
    cases h

/-- Nothing expired comes back under a hash. -/
theorem not_expired_fold {h : Str} (keys : List Str) :
    ∀ r : FastStorage V S, (∀ m, r.thecache.lookup h = some m → ¬ Expired now m) →
      ∀ m, (keys.foldl (fun r hash => r.expireOne now hash) r).thecache.lookup h = some m →
        ¬ Expired now m := by
  induction keys with
  | nil => exact fun r hr => hr
  | cons key keys ih =>
    intro r hr
    refine ih _ fun m hm => ?_
    rcases r.lookup_expireOne now key h with hsame | ⟨_, _, _, hnone⟩
    · exact hr m (hsame ▸ hm)
    · rw [hnone] at hm
      cases hm

theorem not_expired_of_mem {h : Str} (keys : List Str) :
    ∀ r : FastStorage V S, h ∈ keys →
      ∀ m, (keys.foldl (fun r hash => r.expireOne now hash) r).thecache.lookup h = some m →
        ¬ Expired now m := by
  induction keys with
  | nil => exact fun _ hmem => nomatch hmem
  | cons key keys ih =>
    intro r hmem
    rcases List.mem_cons.mp hmem with rfl | hmem
    · exact not_expired_fold now keys _ fun m hm => r.not_expired_expireOne now hm
    · exact ih _ hmem

/-- `expire_cache` leaves nothing that has expired. -/
theorem not_expired {h : Str} {m : Meta V S}
    (hm : (r.expireCache now).thecache.lookup h = some m) : ¬ Expired now m := by
  by_cases hmem : h ∈ r.thecache.keys
  · exact not_expired_of_mem now _ r hmem m hm
  · rcases r.lookup_expireCache now h with hsame | ⟨m', hm', -⟩
    · rw [hsame] at hm
      exact absurd ((Lib.Mapping.mem_keys_iff _ _).mpr ⟨m, hm⟩) hmem
    · exact absurd ((Lib.Mapping.mem_keys_iff _ _).mpr ⟨m', hm'⟩) hmem

/-- Under one hash: the account and what has expired go down alike. -/
theorem sub_expiredSize_expireOne (hash : Str) :
    (r.expireOne now hash).ramUsage - (r.expireOne now hash).expiredSize now =
      r.ramUsage - r.expiredSize now := by
  unfold expireOne
  cases hl : r.thecache.lookup hash with
  | none => rfl
  | some m =>
    dsimp only
    split
    next hexp =>
      unfold expiredSize drop
      dsimp only
      rw [Lib.Mapping.total_erase, Lib.Mapping.weightAt_some _ hl, if_pos hexp]
      omega
    next => rfl

theorem sub_expiredSize_fold (keys : List Str) : ∀ r : FastStorage V S,
    (keys.foldl (fun r hash => r.expireOne now hash) r).ramUsage -
        (keys.foldl (fun r hash => r.expireOne now hash) r).expiredSize now =
      r.ramUsage - r.expiredSize now := by
  induction keys with
  | nil => exact fun r => rfl
  | cons key keys ih =>
    intro r
    rw [List.foldl_cons, ih, sub_expiredSize_expireOne]

/-- It takes off the size of all entries that have expired. -/
theorem ramUsage_expireCache :
    r.ramUsage - (r.expireCache now).ramUsage = r.expiredSize now := by
  have hnone : (r.expireCache now).expiredSize now = 0 :=
    Lib.Mapping.total_eq_zero _ fun h m hm => if_neg (r.not_expired now hm)
  have hfold : (r.expireCache now).ramUsage - (r.expireCache now).expiredSize now =
      r.ramUsage - r.expiredSize now := sub_expiredSize_fold now r.thecache.keys r
  omega

/-- `free` is asked for no more than what has expired, or the entries that it removes have together
the sizes that the disk tier finds. -/
def FreeExact (n : Int) (order : List Str) : Prop :=
  n < r.expiredSize now ∨
    ((removedFor env n 0 (r.entriesOf order)).map Meta.size).sum =
      ((removedFor env n 0 (r.entriesOf order)).map (diskSize env)).sum

theorem sum_map_sub {α : Type} (f g : α → Int) (xs : List α) :
    (xs.map fun x => f x - g x).sum = (xs.map f).sum - (xs.map g).sum := by
  induction xs with
  | nil => rfl
  | cons x xs ih =>
    rw [List.map_cons, List.sum_cons, ih, List.map_cons, List.sum_cons, List.map_cons, List.sum_cons]
    omega

/-- **`free`** keeps the account if and only if it is exact. -/
theorem drift_free (n : Int) {order : List Str} (d : SlowStorage S)
    (horder : order.Perm (r.expireCache now).thecache.keys) :
    (r.free env now n order d).2.drift = r.drift ↔ r.FreeExact env now n order := by
  have hnodup : order.Nodup := horder.nodup_iff.mpr (AList.keys_nodup _)
  -- What has not expired is as it was.
  have hlookup : (r.expireCache now).entriesOf order = r.entriesOf order := by
    refine entriesOf_congr fun h hh => ?_
    rcases r.lookup_expireCache now h with hsame | ⟨_, _, _, hnone⟩
    · exact hsame
    · obtain ⟨m, hm⟩ := (Lib.Mapping.mem_keys_iff _ _).mp (horder.mem_iff.mp hh)
      rw [hnone] at hm
      cases hm
  unfold free FreeExact
  dsimp only
  rw [ramUsage_expireCache]
  by_cases hfreed : r.expiredSize now > n
  · rw [if_pos hfreed]
    exact iff_of_true (r.drift_expireCache now) (Or.inl hfreed)
  · rw [if_neg hfreed, drift_freeLoop env now n hnodup, hlookup, drift_expireCache, sum_map_sub]
    constructor
    · intro h
      exact Or.inr (by omega)
    · intro h
      rcases h with h | h
      · exact absurd h hfreed
      · omega

end FastStorage

/-! ## Sequences of calls -/

/-- The RAM tier and the disk tier that is attached to it. -/
structure Tiers (V S : Type) where
  ram : FastStorage V S
  disk : SlowStorage S

/-- A call on the RAM tier, at a time. -/
inductive RamOp (V S : Type) where
  | store (now : Int) (m : Meta V S)
  | retrieve (now : Int) (name : Str)
  | refresh (name : Str)
  | flush (regexp : Option Str)
  | free (now n : Int) (order : List Str)
  | expireCache (now : Int)
  | stop (now : Int)

namespace Tiers

variable {V S : Type} (env : Env V S) (t : Tiers V S)

/-- One call. The order `free` takes is one of the entries that have not expired. -/
def step : RamOp V S → Option (Tiers V S)
  | .store now m => some { t with ram := t.ram.store env now m }
  | .retrieve now name => some { t with ram := (t.ram.retrieve env now name).2 }
  | .refresh name => some { t with ram := t.ram.refresh env name }
  | .flush regexp => some { t with ram := t.ram.flush env regexp }
  | .free now n order =>
    if order.isPerm (t.ram.expireCache now).thecache.keys then
      let (disk, ram) := t.ram.free env now n order t.disk
      some { ram := ram, disk := disk }
    else none
  | .expireCache now => some { t with ram := t.ram.expireCache now }
  | .stop now =>
    let (disk, ram) := t.ram.stop env now t.disk
    some { ram := ram, disk := disk }

/-- `ram_usage` is the sum of the sizes of the entries. -/
def Accounted : Prop := t.ram.ramUsage = total Meta.size t.ram.thecache

/-- A store that does not replace an entry with a size, or a `free` that is exact. -/
def Balanced : RamOp V S → Prop
  | .store now m => (FastStorage.kept env now m).isSome → ∀ old,
      t.ram.thecache.lookup (FastStorage.hashOf env m) = some old → old.size = 0
  | .free now n order => order.isPerm (t.ram.expireCache now).thecache.keys →
      t.ram.FreeExact env now n order
  | _ => True

variable {env t}

theorem accounted_iff_drift : t.Accounted ↔ t.ram.drift = 0 := Int.sub_eq_zero.symm

/-- With sizes that are not negative, nor is the account. -/
theorem Accounted.nonneg (h : t.Accounted)
    (hsize : ∀ hash m, t.ram.thecache.lookup hash = some m → 0 ≤ m.size) : 0 ≤ t.ram.ramUsage := by
  rw [h]
  exact Lib.Mapping.total_nonneg Meta.size hsize

/-- A store moves the account by what it replaces. -/
theorem drift_store_iff (h : t.ram.drift = 0) (now : Int) (m : Meta V S) :
    (t.ram.store env now m).drift = 0 ↔ t.Balanced env (.store now m) := by
  dsimp only [Balanced]
  rw [FastStorage.drift_store, h, Int.zero_add]
  cases hkept : (FastStorage.kept env now m).isSome with
  | false => exact iff_of_true rfl nofun
  | true =>
    rw [if_pos rfl]
    cases hl : t.ram.thecache.lookup (FastStorage.hashOf env m) with
    | none =>
      refine iff_of_true (Lib.Mapping.weightAt_none Meta.size hl) fun _ old hold => ?_
      cases hold
    | some old =>
      rw [Lib.Mapping.weightAt_some Meta.size hl]
      constructor
      · intro hzero _ old' hold
        obtain rfl := Option.some.inj hold
        exact hzero
      · exact fun hall => hall rfl old rfl

/-- **One call** keeps the account if and only if it is balanced. -/
theorem step_accounted_iff {op : RamOp V S} {t' : Tiers V S} (h : t.Accounted)
    (hs : t.step env op = some t') : t'.Accounted ↔ t.Balanced env op := by
  rw [accounted_iff_drift] at h ⊢
  cases op with
  | store now m =>
    obtain rfl := Option.some.inj hs
    exact drift_store_iff h now m
  | retrieve now name =>
    obtain rfl := Option.some.inj hs
    exact iff_of_true ((t.ram.drift_retrieve env now name).trans h) trivial
  | refresh name =>
    obtain rfl := Option.some.inj hs
    exact iff_of_true ((t.ram.drift_refresh env name).trans h) trivial
  | flush regexp =>
    obtain rfl := Option.some.inj hs
    cases regexp with
    | none => exact iff_of_true (t.ram.drift_flush_none env) trivial
    | some regexp => exact iff_of_true ((t.ram.drift_flush_some env regexp).trans h) trivial
  | free now n order =>
    rw [step] at hs
    split at hs
    next horder =>
      obtain rfl := Option.some.inj hs
      have hfree := t.ram.drift_free env now n t.disk (List.isPerm_iff.mp horder)
      rw [h] at hfree
      exact hfree.trans ⟨fun hexact _ => hexact, fun hexact => hexact horder⟩
    next => cases hs
  | expireCache now =>
    obtain rfl := Option.some.inj hs
    exact iff_of_true ((t.ram.drift_expireCache now).trans h) trivial
  | stop now =>
    obtain rfl := Option.some.inj hs
    exact iff_of_true (t.ram.drift_stop env now t.disk) trivial

end Tiers

/-- **The account is right** in every state that calls lead to, from an empty cache with any disk
tier, if and only if all of them are balanced. -/
theorem accounted_iff {V S : Type} (env : Env V S) (disk : SlowStorage S) (ops : List (RamOp V S)) :
    Always (Tiers.step env) Tiers.Accounted { ram := .create, disk := disk } ops ↔
      EachStep (Tiers.step env) (Tiers.Balanced env) { ram := .create, disk := disk } ops := by
  refine Lib.always_iff_eachStep (I := fun _ => True) (H := fun _ _ => True) ?_
    (fun _ _ _ _ _ _ _ _ => trivial) (fun t op t' _ ht _ hs => t.step_accounted_iff ht hs) ops _
    trivial rfl (Lib.eachStep_of_forall (fun _ _ => trivial) ops _)
  intro t op hs
  cases op with
  | free now n order =>
    intro horder
    rw [Tiers.step, if_pos horder] at hs
    cases hs
  | store now m => cases hs
  | retrieve now name => trivial
  | refresh name => trivial
  | flush regexp => trivial
  | expireCache now => trivial
  | stop now => trivial

/-- A value of 10 bytes under the name "a". -/
def tenBytes : Meta Nat Encoded :=
  { name := "a".toList, object := some (.value 7), type := .var, size := 10, expires := -1
    diskCache := true, program := false, createTime := 0, lastRetrieval := 0, hits := 0
    hash := none }

/-- Stored twice, it counts for 20 bytes; stored once and freed, 2 bytes are left in an empty
cache, as its encoding has 8. -/
theorem account_drifts :
    ¬ Always (Tiers.step sampleEnv) Tiers.Accounted { ram := .create, disk := .fresh }
      [.store 1 tenBytes, .store 2 tenBytes] ∧
    ¬ Always (Tiers.step sampleEnv) Tiers.Accounted { ram := .create, disk := .fresh }
      [.store 1 tenBytes, .free 2 1 [sampleEnv.getHash "a".toList]] := by
  constructor
  · intro h
    have htwice := (h.2 _ rfl).2 _ rfl
    exact absurd (show (20 : Int) = 10 from htwice) (by decide)
  · intro h
    have hfreed := (h.2 _ rfl).2 _ rfl
    exact absurd (show (2 : Int) = 0 from hfreed) (by decide)

end Caudium.CachePmod
