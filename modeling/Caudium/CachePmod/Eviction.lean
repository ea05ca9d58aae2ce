import Caudium.CachePmod.Shaped
import Mathlib.Algebra.BigOperators.Group.List.Basic
import Mathlib.Algebra.Order.BigOperators.Group.List
import Mathlib.Algebra.Order.Group.Int
import Mathlib.Algebra.Ring.Int.Defs

/-!
# Eviction from the disk tier

`free` lists the storage, and takes the second part of each key. The key of the expiration data has
one part, and the expiry with which `free` starts has just written it, so the list is an error
(`ranking_none`). What `free` can do is left to the cases in which it gets by without the list,
because the expiry alone was enough, or in which the expiry has returned at once and nothing has
written the key (`free_iff`). Then each object must have its mapping, or one of the two arrays is
shorter, and an age other than 0.
-/

namespace Caudium.CachePmod

open Lib (Str Mapping runFrom)

/-- The hash in the key of an object, as `free` takes it apart. -/
def objectHash (k : Str) : Option Str :=
  match nameParts k with
  | hash :: kind :: _ => if kind = "meta".toList then none else some hash
  | _ => none

namespace DiskTier

variable {V S : Type} (env : Env V S)

/-- The hashes of the objects in the storage. -/
def objectHashes (d : DiskTier S) : List Str := d.storage.keys.filterMap objectHash

/-- What the mappings of these objects say they take. -/
def objectTotal (d : DiskTier S) : Int := (d.objectHashes.map (d.sizeAt env)).sum

/-- A rate is the hash's own, at the time at which its object was listed. -/
def OwnRate (d : DiskTier S) (names : List (Str × Int)) (p : Str × Rat) : Prop :=
  ∃ time m, (objectPath p.1, time) ∈ names ∧ d.metaAt env p.1 = some m ∧
    hitrate m.hits (time - m.createTime) = some p.2

/-- What `free` is for: it comes to its end, ranks by the right rates, lowers the account by what
it was asked for as far as there is so much, and leaves nothing of what it takes. -/
structure Frees (d : DiskTier S) (n : Int) (names : List (Str × Int)) (r : Freed S) : Prop where
  completes : r.threw = false
  paired : ∀ p ∈ r.ranking, d.OwnRate env names p
  lowered : min n d.diskUsage ≤ d.diskUsage - r.tier.diskUsage
  removed : ∀ hash, (d.storage.lookup (objectPath hash)).isSome →
    r.tier.storage.lookup (objectPath hash) = none →
    r.tier.storage.lookup (metaPath hash) = none ∧ r.tier.expirationData.lookup hash = none

/-- The expiry that comes first is enough on its own. -/
structure ExpiryFrees (d : DiskTier S) (n : Int) (run : ExpireRun) : Prop where
  unlatched : d.inExpire = false
  backed : d.Backed env run
  enough : n < ((d.dropped run).map (d.sizeAt env)).sum

/-- The list of the objects can be made, and they are enough. -/
structure EvictionFrees (d : DiskTier S) (n : Int) (names : List (Str × Int)) : Prop where
  latched : d.inExpire = true
  unwritten : d.storage.lookup expirationPath = none
  ages : ∀ hash time, (objectPath hash, time) ∈ names →
    ∃ m, d.metaAt env hash = some m ∧ time ≠ m.createTime
  enough : min n d.diskUsage ≤ d.objectTotal env

/-! ## The list -/

/-- A name of which the list can be made: of a mapping, or of an object with a mapping of some age. -/
def Listed (d : DiskTier S) (name : Str × Int) : Prop :=
  ∃ hash kind rest, nameParts name.1 = hash :: kind :: rest ∧
    (kind ≠ "meta".toList → ∃ m, d.metaAt env hash = some m ∧ name.2 ≠ m.createTime)

/-- The entry of a name in the ranking, before it is sorted. -/
def rated (d : DiskTier S) (name : Str × Int) : Option (Str × Rat) :=
  (objectHash name.1).bind fun hash => (d.metaAt env hash).bind fun m =>
    (hitrate m.hits (name.2 - m.createTime)).map fun rate => (hash, rate)

variable {env}

/-- The turn of a name that can be listed: it adds nothing, or an object and its own rate. -/
theorem Listed.turn {d : DiskTier S} {name : Str × Int} (h : d.Listed env name) :
    (objectHash name.1 = none ∧ d.rated env name = none ∧
      ∀ acc, surveyOne env d acc name = some acc) ∨
    ∃ hash m rate, objectHash name.1 = some hash ∧ d.metaAt env hash = some m ∧
      hitrate m.hits (name.2 - m.createTime) = some rate ∧ d.rated env name = some (hash, rate) ∧
      ∀ acc, surveyOne env d acc name = some (acc.1 ++ [hash], acc.2 ++ [rate]) := by
  obtain ⟨hash, kind, rest, hparts, hage⟩ := h
  by_cases hkind : kind = "meta".toList
  · have hnone : objectHash name.1 = none := by
      rw [objectHash, hparts]
      exact if_pos hkind
    refine Or.inl ⟨hnone, by rw [rated, hnone]; rfl, fun acc => ?_⟩
    rw [surveyOne, hparts]
    exact if_pos hkind
  · obtain ⟨m, hm, hne⟩ := hage hkind
    have hsome : objectHash name.1 = some hash := by
      rw [objectHash, hparts]
      exact if_neg hkind
    have hrate : hitrate m.hits (name.2 - m.createTime)
        = some ((m.hits : Rat) / ((name.2 - m.createTime : Int) : Rat)) := if_neg (by omega)
    refine Or.inr ⟨hash, m, _, hsome, hm, hrate, ?_, fun acc => ?_⟩
    · rw [rated, hsome, Option.bind_some, hm, Option.bind_some, hrate]
      rfl
    · rw [surveyOne, hparts]
      dsimp only
      rw [if_neg hkind, hm]
      dsimp only
      rw [hrate]
      rfl

theorem surveyOne_listed {d : DiskTier S} {name : Str × Int} (h : d.Listed env name)
    (acc : List Str × List Rat) : surveyOne env d acc name =
      some (acc.1 ++ (d.rated env name).toList.map Prod.fst,
        acc.2 ++ (d.rated env name).toList.map Prod.snd) := by
  rcases h.turn with ⟨-, hrated, hone⟩ | ⟨hash, m, rate, -, -, -, hrated, hone⟩
  · rw [hone, hrated]
    simp
  · rw [hone, hrated]
    rfl

theorem surveyOne_unlisted {d : DiskTier S} {name : Str × Int} (h : ¬ d.Listed env name)
    (acc : List Str × List Rat) : surveyOne env d acc name = none ∨
      ∃ hash, surveyOne env d acc name = some (acc.1 ++ [hash], acc.2) := by
  unfold surveyOne
  split
  next hash kind rest hparts =>
    have hkind : ¬ kind = "meta".toList := fun hk =>
      h ⟨hash, kind, rest, hparts, fun hne => absurd hk hne⟩
    rw [if_neg hkind]
    cases hm : d.metaAt env hash with
    | none => exact Or.inr ⟨hash, rfl⟩
    | some m =>
      have hage : name.2 - m.createTime = 0 := by
        by_contra hne
        exact h ⟨hash, kind, rest, hparts, fun _ => ⟨m, hm, by omega⟩⟩
      refine Or.inl ?_
      dsimp only
      rw [hitrate, if_pos hage]
      rfl
  next => exact Or.inl rfl

/-- The list of names that all can be listed. -/
theorem survey_listed {d : DiskTier S} (names : List (Str × Int)) :
    ∀ acc : List Str × List Rat, (∀ name ∈ names, d.Listed env name) →
      names.foldlM (surveyOne env d) acc =
        some (acc.1 ++ (names.filterMap (d.rated env)).map Prod.fst,
          acc.2 ++ (names.filterMap (d.rated env)).map Prod.snd) := by
  induction names with
  | nil => intro acc _; simp
  | cons name names ih =>
    intro acc h
    rw [List.forall_mem_cons] at h
    rw [List.foldlM_cons, surveyOne_listed h.1 acc]
    show names.foldlM (surveyOne env d) _ = _
    rw [ih _ h.2]
    cases hr : d.rated env name with
    | none => simp [hr]
    | some p => simp [hr]

/-- With one that cannot, the loop throws or the rates are too few. -/
theorem survey_unlisted {d : DiskTier S} (names : List (Str × Int)) :
    ∀ acc : List Str × List Rat, acc.2.length ≤ acc.1.length →
      (¬ ∀ name ∈ names, d.Listed env name) ∨ acc.2.length < acc.1.length →
      names.foldlM (surveyOne env d) acc = none ∨
      ∃ s, names.foldlM (surveyOne env d) acc = some s ∧ s.2.length < s.1.length := by
  induction names with
  | nil =>
    intro acc _ h
    have hlt := h.resolve_left fun hno => hno fun _ hmem => nomatch hmem
    exact Or.inr ⟨acc, rfl, hlt⟩
  | cons name names ih =>
    intro acc hle h
    rw [List.foldlM_cons]
    by_cases hname : d.Listed env name
    · rw [surveyOne_listed hname acc]
      refine ih _ (by simp; omega) ?_
      rcases h with hno | hlt
      · exact Or.inl fun hall => hno (List.forall_mem_cons.mpr ⟨hname, hall⟩)
      · exact Or.inr (by simp; omega)
    · rcases surveyOne_unlisted hname acc with hnone | ⟨hash, hsome⟩
      · exact Or.inl (by rw [hnone]; rfl)
      · rw [hsome]
        exact ih _ (by simp; omega) (Or.inr (by simp; omega))

/-- The ranking of names that all can be listed. -/
theorem ranking_listed {d : DiskTier S} {names : List (Str × Int)}
    (h : ∀ name ∈ names, d.Listed env name) :
    ((d.survey env names).bind fun s => sortByRate s.1 s.2) =
      some ((names.filterMap (d.rated env)).mergeSort fun a b => a.2 ≤ b.2) := by
  rw [survey, survey_listed names _ h]
  simp [sortByRate, List.zip_map']

/-- **There is none when one cannot.** -/
theorem ranking_none {d : DiskTier S} {names : List (Str × Int)}
    (h : ¬ ∀ name ∈ names, d.Listed env name) :
    ((d.survey env names).bind fun s => sortByRate s.1 s.2) = none := by
  rcases survey_unlisted names ([], []) (Nat.le_refl 0) (Or.inl h) with hnone | ⟨s, hsome, hlt⟩
  · rw [survey, hnone]
    rfl
  · rw [survey, hsome]
    exact if_neg (by omega)

/-! ## The names of a shaped storage -/

theorem objectHash_objectPath {hash : Str} (h : Plain hash) :
    objectHash (objectPath hash) = some hash := by
  rw [objectHash, nameParts_objectPath h]
  rfl

theorem objectHash_metaPath {hash : Str} (h : Plain hash) : objectHash (metaPath hash) = none := by
  rw [objectHash, nameParts_metaPath h]
  rfl

theorem objectHash_expirationPath : objectHash expirationPath = none := by
  rw [objectHash, nameParts_expirationPath]

theorem listed_objectPath {d : DiskTier S} {hash : Str} (h : Plain hash) (time : Int) :
    d.Listed env (objectPath hash, time) ↔
      ∃ m, d.metaAt env hash = some m ∧ time ≠ m.createTime := by
  unfold Listed
  rw [nameParts_objectPath h]
  constructor
  · intro ⟨hash', kind, rest, hparts, hage⟩
    simp only [List.cons.injEq] at hparts
    obtain ⟨rfl, rfl, -⟩ := hparts
    exact hage (by decide)
  · intro hm
    exact ⟨hash, _, _, rfl, fun _ => hm⟩

theorem listed_metaPath {d : DiskTier S} {hash : Str} (h : Plain hash) (time : Int) :
    d.Listed env (metaPath hash, time) :=
  ⟨hash, "meta".toList, [], nameParts_metaPath h, fun hne => absurd rfl hne⟩

theorem not_listed_expirationPath {d : DiskTier S} (time : Int) :
    ¬ d.Listed env (expirationPath, time) := by
  intro ⟨hash, kind, rest, hparts, _⟩
  rw [nameParts_expirationPath] at hparts
  cases hparts

/-- The names `free` lists are the keys there are. -/
theorem mem_names {d : DiskTier S} {names : List (Str × Int)}
    (hnames : (names.map Prod.fst).Perm d.storage.keys) (k : Str) :
    (∃ time, (k, time) ∈ names) ↔ (d.storage.lookup k).isSome := by
  rw [AList.lookup_isSome, AList.mem_keys, ← hnames.mem_iff, List.mem_map]
  constructor
  · intro ⟨time, hmem⟩
    exact ⟨(k, time), hmem, rfl⟩
  · intro ⟨name, hmem, he⟩
    exact ⟨name.2, he ▸ hmem⟩

theorem all_listed_iff {d : DiskTier S} (hshape : d.Shaped env) {names : List (Str × Int)}
    (hnames : (names.map Prod.fst).Perm d.storage.keys) :
    (∀ name ∈ names, d.Listed env name) ↔
      d.storage.lookup expirationPath = none ∧ ∀ hash time, (objectPath hash, time) ∈ names →
        ∃ m, d.metaAt env hash = some m ∧ time ≠ m.createTime := by
  have hplain : ∀ hash, (d.storage.lookup (objectPath hash)).isSome → Plain hash := by
    intro hash hk
    rcases hshape.keys _ hk with he | ⟨hash', hplain, he | he⟩
    · exact absurd he (expirationPath_ne hash).1
    · exact objectPath_inj.mp he ▸ hplain
    · exact absurd he (objectPath_ne_metaPath hash hash')
  constructor
  · intro hall
    constructor
    · by_contra hk
      obtain ⟨time, hmem⟩ := (mem_names hnames expirationPath).mpr (Option.isSome_iff_ne_none.mpr hk)
      exact not_listed_expirationPath time (hall _ hmem)
    · intro hash time hmem
      have hkey := (mem_names hnames _).mp ⟨time, hmem⟩
      exact (listed_objectPath (hplain hash hkey) time).mp (hall _ hmem)
  · intro ⟨hno, hages⟩ name hmem
    obtain ⟨k, time⟩ := name
    have hkey := (mem_names hnames k).mp ⟨time, hmem⟩
    rcases hshape.keys k hkey with rfl | ⟨hash, hplain', rfl | rfl⟩
    · rw [hno] at hkey
      cases hkey
    · exact (listed_objectPath hplain' time).mpr (hages hash time hmem)
    · exact listed_metaPath hplain' time

/-- No two objects have one hash. -/
theorem objectHashes_nodup {d : DiskTier S} (hshape : d.Shaped env) : d.objectHashes.Nodup := by
  have hpaths : ∀ ks : List Str, (∀ k ∈ ks, (d.storage.lookup k).isSome) →
      (ks.filterMap objectHash).map objectPath = ks.filter fun k => (objectHash k).isSome := by
    intro ks
    induction ks with
    | nil => intro _; rfl
    | cons k ks ih =>
      intro h
      rw [List.forall_mem_cons] at h
      rcases hshape.keys k h.1 with rfl | ⟨hash, hplain, rfl | rfl⟩
      · simp [objectHash_expirationPath, ih h.2]
      · simp [objectHash_objectPath hplain, ih h.2]
      · simp [objectHash_metaPath hplain, ih h.2]
  have hkeys : ∀ k ∈ d.storage.keys, (d.storage.lookup k).isSome := fun k hk =>
    AList.lookup_isSome.mpr (AList.mem_keys.mpr hk)
  have hnodup : (d.objectHashes.map objectPath).Nodup := by
    rw [objectHashes, hpaths _ hkeys]
    exact d.storage.keys_nodup.filter _
  exact List.Nodup.of_map _ hnodup

/-- The hashes of the ranking are those of the objects. -/
theorem rated_fst {d : DiskTier S} {names : List (Str × Int)}
    (h : ∀ name ∈ names, d.Listed env name) :
    (names.filterMap (d.rated env)).map Prod.fst = (names.map Prod.fst).filterMap objectHash := by
  induction names with
  | nil => rfl
  | cons name names ih =>
    rw [List.forall_mem_cons] at h
    rcases h.1.turn with ⟨hnone, hrated, -⟩ | ⟨hash, m, rate, hsome, -, -, hrated, -⟩
    · rw [List.filterMap_cons_none hrated, List.map_cons, List.filterMap_cons_none hnone]
      exact ih h.2
    · rw [List.filterMap_cons_some hrated, List.map_cons, List.map_cons,
        List.filterMap_cons_some hsome, ih h.2]

theorem ownRate_of_rated {d : DiskTier S} (hshape : d.Shaped env) {names : List (Str × Int)}
    (hnames : (names.map Prod.fst).Perm d.storage.keys) {p : Str × Rat}
    (hp : p ∈ names.filterMap (d.rated env)) : d.OwnRate env names p := by
  obtain ⟨⟨k, time⟩, hmem, hrated⟩ := List.mem_filterMap.mp hp
  obtain ⟨hash, hhash, hrated⟩ := Option.bind_eq_some_iff.mp hrated
  obtain ⟨m, hm, hrated⟩ := Option.bind_eq_some_iff.mp hrated
  obtain ⟨rate, hrate, rfl⟩ := Option.map_eq_some_iff.mp hrated
  have hpath : k = objectPath hash := by
    rcases hshape.keys k ((mem_names hnames k).mp ⟨time, hmem⟩) with rfl | ⟨hash', hplain, rfl | rfl⟩
    · rw [objectHash_expirationPath] at hhash
      cases hhash
    · rw [objectHash_objectPath hplain, Option.some.injEq] at hhash
      rw [hhash]
    · rw [objectHash_metaPath hplain] at hhash
      cases hhash
  exact ⟨time, m, hpath ▸ hmem, hm, hrate⟩

/-! ## The removal -/

theorem sizeAt_nonneg {d : DiskTier S} (hshape : d.Shaped env) (hash : Str) :
    0 ≤ d.sizeAt env hash := by
  unfold sizeAt
  cases hm : d.metaAt env hash with
  | none => exact Int.le_refl 0
  | some m => exact hshape.sized hash m hm

/-- The loop stops when it has enough, or has taken all there is. -/
theorem evictLoop_spec (env : Env V S) (n : Int) (hashes : List Str) (hnodup : hashes.Nodup) :
    ∀ (freed : Int) (d : DiskTier S), ∃ k,
      evictLoop env n freed d hashes = d.dropAll env (hashes.take k) ∧
      (n ≤ freed + ((hashes.take k).map (d.sizeAt env)).sum ∨ hashes.take k = hashes) := by
  induction hashes with
  | nil => intro freed d; exact ⟨0, rfl, Or.inr rfl⟩
  | cons hash hashes ih =>
    intro freed d
    obtain ⟨hnot, hrest⟩ := List.nodup_cons.mp hnodup
    rw [evictLoop]
    split
    next hle => exact ⟨0, rfl, Or.inl (by simpa using hle)⟩
    next =>
      obtain ⟨k, hdrop, hstop⟩ :=
        ih hrest (freed + d.sizeAt env hash) (d.drop hash (d.sizeAt env hash))
      have hsizes : (hashes.take k).map ((d.drop hash (d.sizeAt env hash)).sizeAt env)
          = (hashes.take k).map (d.sizeAt env) :=
        List.map_congr_left fun h hh =>
          d.sizeAt_drop env _ fun he => hnot (he ▸ List.mem_of_mem_take hh)
      rw [hsizes] at hstop
      refine ⟨k + 1, by rw [List.take_succ_cons, dropAll_cons]; exact hdrop, ?_⟩
      rw [List.take_succ_cons, List.map_cons, List.sum_cons]
      rcases hstop with henough | hall
      · exact Or.inl (by omega)
      · exact Or.inr (by rw [hall])

/-- What a removal of some hashes leaves of those that are gone. -/
theorem removed_dropAll {d : DiskTier S} (hashes : List Str) {hash : Str}
    (hthere : (d.storage.lookup (objectPath hash)).isSome)
    (hgone : ((d.dropAll env hashes).storeExpiration env).storage.lookup (objectPath hash) = none) :
    ((d.dropAll env hashes).storeExpiration env).storage.lookup (metaPath hash) = none ∧
      ((d.dropAll env hashes).storeExpiration env).expirationData.lookup hash = none := by
  obtain ⟨hobj, hmeta⟩ := expirationPath_ne hash
  have hlookup : ∀ k ≠ expirationPath, ((d.dropAll env hashes).storeExpiration env).storage.lookup k
      = (d.dropAll env hashes).storage.lookup k := fun k hk => AList.lookup_insert_ne hk
  rw [hlookup _ hobj, lookup_dropAll] at hgone
  have hmem : hash ∈ hashes := by
    split at hgone
    next h =>
      obtain ⟨hash', hmem, he | he⟩ := h
      · exact objectPath_inj.mp he ▸ hmem
      · exact absurd he (objectPath_ne_metaPath hash hash')
    next =>
      rw [hgone] at hthere
      cases hthere
  constructor
  · rw [hlookup _ hmeta, lookup_dropAll, if_pos ⟨hash, hmem, Or.inr rfl⟩]
  · show (d.dropAll env hashes).expirationData.lookup hash = none
    rw [expiration_dropAll, if_pos hmem]

/-! ## `free` -/

section
variable {d : DiskTier S} {n : Int} {run : ExpireRun} {names : List (Str × Int)}

theorem dropped_nodup (hcov : d.Covers run) : (d.dropped run).Nodup := by
  have hsub : (d.dropped run).Sublist (run.turns.map Turn.hash) :=
    (List.filter_sublist.trans (List.takeWhile_sublist _)).map _
  exact hcov.nodup.sublist hsub

theorem not_frees_of_threw {r : Freed S} (h : r.threw = true) :
    ¬ d.Frees env n names r := by
  intro hfrees
  rw [hfrees.completes] at h
  cases h

/-- `free` on an open tier works exactly when the expiry is enough. -/
theorem frees_open (hopen : d.inExpire = false) (hcov : d.Covers run)
    (hnames : (names.map Prod.fst).Perm (d.expireCache env run).2.storage.keys) :
    d.Frees env n names (d.free env n run names) ↔ d.ExpiryFrees env n run := by
  by_cases hback : d.Backed env run
  · have hrun := expireCache_backed hopen hcov.nodup hback
    have hstate : (d.expireCache env run).2 = (d.dropAll env (d.dropped run)).storeExpiration env := by
      rw [hrun]
    have hended : (d.expireCache env run).1 ≠ .threw := by
      rw [hrun]
      dsimp only
      split
      next => exact nofun
      next => exact nofun
    have husage : d.diskUsage - (d.expireCache env run).2.diskUsage
        = ((d.dropped run).map (d.sizeAt env)).sum := by
      rw [hstate]
      show d.diskUsage - (d.dropAll env (d.dropped run)).diskUsage = _
      rw [diskUsage_dropAll env _ (dropped_nodup hcov)]
      omega
    by_cases henough : n < ((d.dropped run).map (d.sizeAt env)).sum
    · have hfree : d.free env n run names = ⟨(d.expireCache env run).2, false, []⟩ := by
        unfold free
        dsimp only
        rw [if_neg hended, husage, if_pos henough]
      refine iff_of_true ?_ ⟨hopen, hback, henough⟩
      rw [hfree]
      refine ⟨rfl, fun p hp => (nomatch hp), ?_, fun hash hthere hgone => ?_⟩
      · dsimp only
        omega
      · dsimp only at hgone ⊢
        rw [hstate] at hgone ⊢
        exact removed_dropAll _ hthere hgone
    · -- the expiry has written its data, which the list does not get over
      have hfree : (d.free env n run names).threw = true := by
        have hwritten : ¬ ∀ name ∈ names, (d.expireCache env run).2.Listed env name := by
          intro hall
          have hkey : ((d.expireCache env run).2.storage.lookup expirationPath).isSome := by
            rw [hstate]
            show ((d.dropAll env (d.dropped run)).storage.insert _ _ |>.lookup _).isSome
            rw [AList.lookup_insert]
            rfl
          obtain ⟨time, hmem⟩ := (mem_names hnames expirationPath).mpr hkey
          exact not_listed_expirationPath time (hall _ hmem)
        unfold free
        dsimp only
        rw [if_neg hended, husage, if_neg henough, ranking_none hwritten]
      exact iff_of_false (not_frees_of_threw hfree) fun h => henough h.enough
  · have hthrew := (expireCache_unbacked hopen hcov.nodup hback).1
    have hfree : (d.free env n run names).threw = true := by
      unfold free
      dsimp only
      rw [if_pos hthrew]
    exact iff_of_false (not_frees_of_threw hfree) fun h => hback h.backed

/-- `free` on a latched tier works exactly when the list can be made and is enough. -/
theorem frees_latched (hshape : d.Shaped env) (hlatch : d.inExpire = true) (hn : 0 < n)
    (hnames : (names.map Prod.fst).Perm d.storage.keys) :
    d.Frees env n names (d.free env n run names) ↔ d.EvictionFrees env n names := by
  have hrun : d.expireCache env run = (.latched, d) := by
    unfold expireCache
    rw [if_pos hlatch]
  have hlist := all_listed_iff hshape hnames
  by_cases hall : ∀ name ∈ names, d.Listed env name
  · have hperm := List.mergeSort_perm (names.filterMap (d.rated env)) fun a b => a.2 ≤ b.2
    have hhashes : (((names.filterMap (d.rated env)).mergeSort fun a b => a.2 ≤ b.2).map
        Prod.fst).Perm d.objectHashes := by
      refine (hperm.map Prod.fst).trans ?_
      rw [rated_fst hall]
      exact hnames.filterMap objectHash
    have hnodup := hhashes.nodup_iff.mpr (objectHashes_nodup hshape)
    obtain ⟨k, hdrop, hstop⟩ := evictLoop_spec env n _ hnodup 0 d
    generalize hranking : ((names.filterMap (d.rated env)).mergeSort fun a b => a.2 ≤ b.2)
      = ranking at hperm hhashes hnodup hdrop hstop
    have hfree : d.free env n run names =
        ⟨(d.dropAll env ((ranking.map Prod.fst).take k)).storeExpiration env, false, ranking⟩ := by
      unfold free
      rw [hrun]
      dsimp only
      rw [if_neg nofun, if_neg (by omega), ranking_listed hall, hranking, ← hdrop]
    have hlowered : d.diskUsage
        - (d.dropAll env ((ranking.map Prod.fst).take k)).diskUsage
          = (((ranking.map Prod.fst).take k).map (d.sizeAt env)).sum := by
      rw [diskUsage_dropAll env _ (hnodup.sublist (List.take_sublist ..))]
      omega
    have htotal : ((ranking.map Prod.fst).map (d.sizeAt env)).sum = d.objectTotal env :=
      (hhashes.map (d.sizeAt env)).sum_eq
    have hsub : (((ranking.map Prod.fst).take k).map (d.sizeAt env)).sum ≤ d.objectTotal env := by
      rw [← htotal]
      refine List.Sublist.sum_le_sum ((List.take_sublist ..).map _) fun x hx => ?_
      obtain ⟨hash, -, rfl⟩ := List.mem_map.mp hx
      exact sizeAt_nonneg hshape hash
    rw [hfree]
    constructor
    · intro h
      have hlow := h.lowered
      dsimp only [storeExpiration] at hlow
      obtain ⟨hunwritten, hages⟩ := hlist.mp hall
      exact ⟨hlatch, hunwritten, hages, by omega⟩
    · intro h
      refine ⟨rfl, fun p hp => ownRate_of_rated hshape hnames (hperm.mem_iff.mp hp), ?_,
        fun hash hthere hgone => removed_dropAll _ hthere hgone⟩
      dsimp only [storeExpiration]
      rw [hlowered]
      rcases hstop with henough | hwhole
      · omega
      · rw [hwhole, htotal]
        exact h.enough
  · have hfree : (d.free env n run names).threw = true := by
      unfold free
      rw [hrun]
      dsimp only
      rw [if_neg nofun, if_neg (by omega), ranking_none hall]
    exact iff_of_false (not_frees_of_threw hfree) fun h => hall (hlist.mpr ⟨h.unwritten, h.ages⟩)

end

end DiskTier

/-- A tier with one variable of 8 bytes, stored at 0, that expires at `expires`. -/
def oneObject (expires : Int) : DiskTier Encoded :=
  { toSlowStorage :=
      (SlowStorage.fresh.store sampleEnv 0 { expiringMeta true with expires := expires }).2
    inExpire := false }

/-- The names behind the expiry that `free` starts with, at time 10. -/
def namesAtTen : List (Str × Int) :=
  [(expirationPath, 10), (metaPath (sampleEnv.getHash "a".toList), 10),
    (objectPath (sampleEnv.getHash "a".toList), 10)]

end Caudium.CachePmod
