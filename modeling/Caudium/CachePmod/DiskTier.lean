import Caudium.CachePmod.SlowStorage
import Caudium.Lib.Runs
import Mathlib.Data.Rat.Defs
import Mathlib.Algebra.Ring.Int.Defs

/-!
# The disk tier with its expiry (`SlowStorage.pike`)

`expire_cache` keeps a second run out with `in_expire`, which it sets first and takes back on its
last line. Between the two it goes over the entries of `expiration_data`. An entry that is due goes,
with both records of its hash, and a due entry without a mapping on the disk is an error
(`meta->size` of 0). `free` starts with such a run, and then takes objects with a low hit rate.

Both remove records in one way only, `dropAll`: what can be read afterwards is said here once, and
so is what `store` writes (`store_eq`).
-/

namespace Caudium.CachePmod

open Lib (Str Mapping)

/-- `SlowStorage` and its latch, `in_expire`. -/
structure DiskTier (S : Type) extends SlowStorage S where
  inExpire : Bool

/-- One turn of the loop in `expire_cache`: the hash whose turn it is and what `time()` says, first
for the limit and then for the entry. -/
structure Turn where
  hash : Str
  limitTime : Int
  now : Int

/-- A run of `expire_cache`: its start time and its turns. -/
structure ExpireRun where
  starttime : Int
  turns : List Turn

/-- How a run ends: it returns at once, comes to its last entry, is cut by its limit, or throws. -/
inductive Ended where
  | latched
  | done
  | cut
  | threw
  deriving DecidableEq, Repr

/-- `EXPIRE_RUN_LIMIT`. -/
def expireRunLimit : Int := 5

/-- The key `store_expiration` writes. -/
def expirationPath : Str := "/expiration_data".toList

/-- `(fname / "/") - ({ "" })`. -/
def nameParts (fname : Str) : List Str := (fname.splitOn '/').filter fun part => part ≠ []

/-- `(float)hits / (float)age`, which throws for an age of 0. -/
def hitrate (hits : Nat) (age : Int) : Option Rat :=
  if age = 0 then none else some ((hits : Rat) / (age : Rat))

/-- `sort(_hitrate, _hash)`, as pairs: it throws when one array is longer. -/
def sortByRate (hashes : List Str) (rates : List Rat) : Option (List (Str × Rat)) :=
  if hashes.length = rates.length then
    some ((hashes.zip rates).mergeSort fun a b => a.2 ≤ b.2)
  else none

namespace DiskTier

variable {V S : Type} (env : Env V S) (d : DiskTier S)

/-- The size the mapping of a hash says, 0 without one. -/
def sizeAt (hash : Str) : Int :=
  match d.metaAt env hash with
  | some m => m.size
  | none => 0

/-- Both records of a hash and its entry, gone. -/
def drop (hash : Str) (size : Int) : DiskTier S :=
  { d with
    storage := (d.storage.erase (objectPath hash)).erase (metaPath hash)
    diskUsage := d.diskUsage - size
    expirationData := d.expirationData.erase hash }

/-- `store_expiration`. -/
def storeExpiration : DiskTier S :=
  { d with storage := d.storage.insert expirationPath (env.encodeExpiration d.expirationData) }

/-- Whether an entry goes in its turn. -/
def due (t : Turn) : Bool :=
  match d.expirationData.lookup t.hash with
  | some expires => expires ≠ -1 && expires ≤ t.now
  | none => false

/-- The loop of `expire_cache`. -/
def expireLoop (starttime : Int) : DiskTier S → List Turn → Ended × DiskTier S
  | d, [] => (.done, d)
  | d, t :: ts =>
    if t.limitTime - starttime > expireRunLimit then (.cut, d)
    else if d.due t then
      match d.metaAt env t.hash with
      | none => (.threw, d)
      | some m => expireLoop starttime (d.drop t.hash m.size) ts
    else expireLoop starttime d ts

/-- `expire_cache`. -/
def expireCache (run : ExpireRun) : Ended × DiskTier S :=
  if d.inExpire then (.latched, d)
  else
    let r := expireLoop env run.starttime { d with inExpire := true } run.turns
    if r.1 = .threw then r else (r.1, { r.2.storeExpiration env with inExpire := false })

/-- One turn of the first loop in `free`: a name from `storage->list()` and what `time()` says. -/
def surveyOne (acc : List Str × List Rat) (name : Str × Int) : Option (List Str × List Rat) :=
  match nameParts name.1 with
  | hash :: kind :: _ =>
    if kind = "meta".toList then some acc
    else
      match d.metaAt env hash with
      | none => some (acc.1 ++ [hash], acc.2)
      | some m => (hitrate m.hits (name.2 - m.createTime)).map fun rate =>
          (acc.1 ++ [hash], acc.2 ++ [rate])
  | _ => none

/-- The first loop in `free`. -/
def survey (names : List (Str × Int)) : Option (List Str × List Rat) :=
  names.foldlM (surveyOne env d) ([], [])

/-- The second loop in `free`. -/
def evictLoop (n : Int) : Int → DiskTier S → List Str → DiskTier S
  | _, d, [] => d
  | freed, d, hash :: hashes =>
    if n ≤ freed then d
    else evictLoop n (freed + d.sizeAt env hash) (d.drop hash (d.sizeAt env hash)) hashes

/-- What `free` leaves: whether it threw, and the hashes with their rates as it sorted them. -/
structure Freed (S : Type) where
  tier : DiskTier S
  threw : Bool
  ranking : List (Str × Rat)

/-- `free`, with the run of `expire_cache` it starts with and what it lists. -/
def free (n : Int) (run : ExpireRun) (names : List (Str × Int)) : Freed S :=
  let r := d.expireCache env run
  if r.1 = .threw then ⟨r.2, true, []⟩
  else if d.diskUsage - r.2.diskUsage > n then ⟨r.2, false, []⟩
  else
    match (r.2.survey env names).bind fun s => sortByRate s.1 s.2 with
    | none => ⟨r.2, true, []⟩
    | some ranking =>
      ⟨(evictLoop env n 0 r.2 (ranking.map Prod.fst)).storeExpiration env, false, ranking⟩

/-! ## Runs of calls -/

/-- A call of the disk tier. -/
inductive Call (V S : Type) where
  | store (now : Int) (m : Meta V S)
  | retrieve (now : Int) (name : Str)
  | refresh (name : Str)
  | flush (regexp : Option Str)
  | expire (run : ExpireRun)
  | free (n : Int) (run : ExpireRun) (names : List (Str × Int))

/-- The turns of a run are those of the entries there are, each in its turn once. -/
def Covers (run : ExpireRun) : Prop := (run.turns.map Turn.hash).Perm d.expirationData.keys

instance (run : ExpireRun) : Decidable (d.Covers run) := List.decidablePerm _ _

/-- One call. What `free` lists is what there is after the expiry. -/
def step (d : DiskTier S) : Call V S → Option (DiskTier S)
  | .store now m => some { d with toSlowStorage := (d.toSlowStorage.store env now m).2 }
  | .retrieve now name => some { d with toSlowStorage := (d.toSlowStorage.retrieve env now name).2 }
  | .refresh name => some { d with toSlowStorage := d.toSlowStorage.refresh env name }
  | .flush regexp => some { d with toSlowStorage := d.toSlowStorage.flush env regexp }
  | .expire run => if d.Covers run then some (d.expireCache env run).2 else none
  | .free n run names =>
    if d.Covers run ∧ (names.map Prod.fst).Perm (d.expireCache env run).2.storage.keys then
      some (d.free env n run names).tier
    else none

/-- The run of `expire_cache` in a call. -/
def Call.expireRun : Call V S → Option ExpireRun
  | .expire run => some run
  | .free _ run _ => some run
  | _ => none

/-! ## Removals -/

/-- The records and entries of some hashes, gone. -/
def dropAll (hashes : List Str) : DiskTier S :=
  hashes.foldl (fun d hash => d.drop hash (d.sizeAt env hash)) d

theorem lookup_drop (hash : Str) (size : Int) (k : Str) : (d.drop hash size).storage.lookup k =
    if k = objectPath hash ∨ k = metaPath hash then none else d.storage.lookup k := by
  unfold drop
  dsimp only
  rw [Lib.Mapping.lookup_erase_ite, Lib.Mapping.lookup_erase_ite]
  by_cases hm : k = metaPath hash
  · simp [hm]
  · simp [hm]

theorem expiration_drop (hash : Str) (size : Int) (h : Str) :
    (d.drop hash size).expirationData.lookup h =
      if h = hash then none else d.expirationData.lookup h :=
  Lib.Mapping.lookup_erase_ite ..

theorem metaAt_drop (hash : Str) (size : Int) (h : Str) :
    (d.drop hash size).metaAt env h = if h = hash then none else d.metaAt env h := by
  unfold SlowStorage.metaAt
  rw [lookup_drop]
  by_cases hh : h = hash
  · simp [hh]
  · simp [hh, metaPath_inj, (objectPath_ne_metaPath hash h).symm]

theorem sizeAt_drop {hash h : Str} (size : Int) (hne : h ≠ hash) :
    (d.drop hash size).sizeAt env h = d.sizeAt env h := by
  rw [sizeAt, metaAt_drop, if_neg hne, sizeAt]

theorem dropAll_cons (hash : Str) (hashes : List Str) :
    d.dropAll env (hash :: hashes) = (d.drop hash (d.sizeAt env hash)).dropAll env hashes := rfl

@[simp] theorem inExpire_dropAll (hashes : List Str) :
    ∀ d : DiskTier S, (d.dropAll env hashes).inExpire = d.inExpire := by
  induction hashes with
  | nil => intro d; rfl
  | cons hash hashes ih => intro d; rw [dropAll_cons, ih]; rfl

/-- **What is left of the storage**: all but the two records of each hash. -/
theorem lookup_dropAll (k : Str) (hashes : List Str) : ∀ d : DiskTier S,
    (d.dropAll env hashes).storage.lookup k =
      if ∃ h ∈ hashes, k = objectPath h ∨ k = metaPath h then none else d.storage.lookup k := by
  induction hashes with
  | nil => intro d; simp [dropAll]
  | cons hash hashes ih =>
    intro d
    rw [dropAll_cons, ih, lookup_drop]
    by_cases hk : k = objectPath hash ∨ k = metaPath hash
    · simp [hk]
    · simp [hk]

theorem expiration_dropAll (h : Str) (hashes : List Str) : ∀ d : DiskTier S,
    (d.dropAll env hashes).expirationData.lookup h =
      if h ∈ hashes then none else d.expirationData.lookup h := by
  induction hashes with
  | nil => intro d; simp [dropAll]
  | cons hash hashes ih =>
    intro d
    rw [dropAll_cons, ih, expiration_drop]
    by_cases hh : h = hash
    · simp [hh]
    · simp [hh]

theorem metaAt_dropAll (h : Str) (hashes : List Str) : ∀ d : DiskTier S,
    (d.dropAll env hashes).metaAt env h = if h ∈ hashes then none else d.metaAt env h := by
  induction hashes with
  | nil => intro d; simp [dropAll]
  | cons hash hashes ih =>
    intro d
    rw [dropAll_cons, ih, metaAt_drop]
    by_cases hh : h = hash
    · simp [hh]
    · simp [hh]

/-- What the removals take off the account. -/
theorem diskUsage_dropAll (hashes : List Str) (hnodup : hashes.Nodup) : ∀ d : DiskTier S,
    (d.dropAll env hashes).diskUsage = d.diskUsage - (hashes.map (d.sizeAt env)).sum := by
  induction hashes with
  | nil => intro d; simp [dropAll]
  | cons hash hashes ih =>
    intro d
    obtain ⟨hnot, hrest⟩ := List.nodup_cons.mp hnodup
    have hsizes : hashes.map ((d.drop hash (d.sizeAt env hash)).sizeAt env)
        = hashes.map (d.sizeAt env) :=
      List.map_congr_left fun h hh => d.sizeAt_drop env _ fun he => hnot (he ▸ hh)
    rw [dropAll_cons, ih hrest, hsizes, List.map_cons, List.sum_cons]
    show d.diskUsage - d.sizeAt env hash - _ = _
    omega

/-- The loop of `expire_cache` only removes. -/
theorem expireLoop_drops (starttime : Int) (turns : List Turn) : ∀ d : DiskTier S,
    ∃ hashes, (expireLoop env starttime d turns).2 = d.dropAll env hashes := by
  induction turns with
  | nil => intro d; exact ⟨[], rfl⟩
  | cons t ts ih =>
    intro d
    rw [expireLoop]
    split
    next => exact ⟨[], rfl⟩
    next =>
      split
      next =>
        cases hm : d.metaAt env t.hash with
        | none => exact ⟨[], rfl⟩
        | some m =>
          obtain ⟨hashes, h⟩ := ih (d.drop t.hash m.size)
          refine ⟨t.hash :: hashes, ?_⟩
          rw [dropAll_cons, sizeAt, hm]
          exact h
      next => exact ih d

/-- And so does the second loop of `free`, in the order it is given. -/
theorem evictLoop_drops (n : Int) (hashes : List Str) : ∀ (freed : Int) (d : DiskTier S),
    ∃ k, evictLoop env n freed d hashes = d.dropAll env (hashes.take k) := by
  induction hashes with
  | nil => intro freed d; exact ⟨0, rfl⟩
  | cons hash hashes ih =>
    intro freed d
    rw [evictLoop]
    split
    next => exact ⟨0, rfl⟩
    next =>
      obtain ⟨k, h⟩ := ih (freed + d.sizeAt env hash) (d.drop hash (d.sizeAt env hash))
      exact ⟨k + 1, by rw [List.take_succ_cons, dropAll_cons]; exact h⟩

end DiskTier

/-! ## What a store writes -/

namespace SlowStorage

variable {V S : Type} (env : Env V S) (now : Int) (d : SlowStorage S)

/-- The object as `store` writes it, if it writes a record. -/
def encoded (m : Meta V S) : Option S :=
  match m.type with
  | .stdio =>
    match m.object with
    | some (.file data) => some data
    | _ => none
  | .var => if m.diskCache then env.encodeValue m.object else none
  | .image => if m.diskCache then env.pnmEncode m.object else none
  | .other => none

/-- The hash it is filed under. -/
def filedUnder (m : Meta V S) : Str := m.hash.getD (env.getHash m.name)

theorem store_eq (m : Meta V S) : (d.store env now m).2 =
    match encoded env m with
    | some data => (d.write env (m.touch env now) data).2.noteExpires (m.touch env now)
    | none => if m.type = .stdio then d else d.noteExpires (m.touch env now) := by
  unfold store encoded
  dsimp only [Meta.touch]
  cases m.type with
  | stdio =>
    cases m.object with
    | none => rfl
    | some o =>
      cases o with
      | file data => rfl
      | data s => rfl
      | value v => rfl
  | var =>
    dsimp only
    cases (if m.diskCache then env.encodeValue m.object else none) with
    | none => rfl
    | some data => rfl
  | image =>
    dsimp only
    cases (if m.diskCache then env.pnmEncode m.object else none) with
    | none => rfl
    | some data => rfl
  | other => rfl

/-- **A store writes its own record and no other.** -/
theorem metaAt_store (hlaw : env.Lawful) (m : Meta V S) (hash : Str) :
    (d.store env now m).2.metaAt env hash =
      match encoded env m with
      | some data => if hash = filedUnder env m then
          some { m.touch env now with size := env.sizeof data, object := none }
        else d.metaAt env hash
      | none => d.metaAt env hash := by
  rw [store_eq]
  cases encoded env m with
  | none =>
    dsimp only
    split
    next => rfl
    next => exact metaAt_noteExpires env d _ hash
  | some data =>
    dsimp only
    rw [metaAt_noteExpires, metaAt_write env d hlaw]
    rfl

theorem objectAt_store (m : Meta V S) (hash : Str) :
    (d.store env now m).2.objectAt env hash =
      match encoded env m with
      | some data => if hash = filedUnder env m then env.decodeValue data
        else d.objectAt env hash
      | none => d.objectAt env hash := by
  rw [store_eq]
  cases encoded env m with
  | none =>
    dsimp only
    split
    next => rfl
    next => exact objectAt_noteExpires env d _ hash
  | some data =>
    dsimp only
    rw [objectAt_noteExpires, objectAt_write env d]
    rfl

end SlowStorage

end Caudium.CachePmod
