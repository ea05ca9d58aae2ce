import Caudium.CachePmod.DiskTier
import Mathlib.Data.List.TakeWhile

/-!
# Expiry of the disk tier

A run of `expire_cache` that throws leaves `in_expire` set, and every later run returns at once. It
throws for a due entry whose mapping is not on the disk. There are such entries: a `store` that
writes no record notes an expiry all the same, and `flush` of an expression removes records and
leaves the entries.

`expireLoop_backed` says all that a run does when each due entry it comes to has its mapping,
`expireLoop_unbacked` that it throws when one has not. A run of calls is clean throughout exactly
when every expiry in it is of the first kind (`expiry_iff`).
-/

namespace Caudium.CachePmod

open Lib (Str Mapping EachStep)

theorem expirationPath_ne (hash : Str) :
    objectPath hash ≠ expirationPath ∧ metaPath hash ≠ expirationPath := by
  have hno : '/' ∉ "expiration_data".toList := by decide
  constructor
  · intro h
    have htail : hash ++ "/object".toList = "expiration_data".toList := (List.cons.inj h).2
    exact hno (htail ▸ List.mem_append_right hash (by decide))
  · intro h
    have htail : hash ++ "/meta".toList = "expiration_data".toList := (List.cons.inj h).2
    exact hno (htail ▸ List.mem_append_right hash (by decide))

/-- The turns a run comes to. -/
def ExpireRun.reached (run : ExpireRun) : List Turn :=
  run.turns.takeWhile fun t => t.limitTime - run.starttime ≤ expireRunLimit

namespace DiskTier

variable {V S : Type} (env : Env V S)

/-- Every due entry a run comes to has its mapping on the disk. -/
def Backed (d : DiskTier S) (run : ExpireRun) : Prop :=
  ∀ t ∈ run.reached, d.due t = true → (d.metaAt env t.hash).isSome = true

/-- What a run drops. -/
def dropped (d : DiskTier S) (run : ExpireRun) : List Str := (run.reached.filter d.due).map Turn.hash

/-- What a run that is not cut should leave. -/
structure Clean (d d' : DiskTier S) (run : ExpireRun) : Prop where
  unlatched : d'.inExpire = false
  entries : ∀ t ∈ run.turns, d'.expirationData.lookup t.hash =
    if d.due t then none else d.expirationData.lookup t.hash
  records : ∀ t ∈ run.turns, d.due t = true →
    d'.storage.lookup (objectPath t.hash) = none ∧ d'.storage.lookup (metaPath t.hash) = none

/-- The expiry in a call, if any, is clean unless it is cut. -/
def ExpiresClean (d : DiskTier S) (c : Call V S) : Prop :=
  ∀ run, c.expireRun = some run → d.Covers run → (d.expireCache env run).1 ≠ .cut →
    Clean d (d.expireCache env run).2 run

/-- The expiry in a call, if any, finds the mapping of each due entry. -/
def ExpiresBacked (d : DiskTier S) (c : Call V S) : Prop :=
  ∀ run, c.expireRun = some run → d.Covers run → d.Backed env run

/-! ## The loop -/

theorem due_drop {d : DiskTier S} {hash : Str} (size : Int) {t : Turn} (hne : t.hash ≠ hash) :
    (d.drop hash size).due t = d.due t := by
  rw [due, expiration_drop, if_neg hne, due]

theorem reached_in {starttime : Int} {t : Turn} (h : t.limitTime - starttime ≤ expireRunLimit)
    (ts : List Turn) : ExpireRun.reached ⟨starttime, t :: ts⟩
      = t :: ExpireRun.reached ⟨starttime, ts⟩ :=
  List.takeWhile_cons_of_pos (decide_eq_true h)

theorem reached_out {starttime : Int} {t : Turn} (h : ¬ t.limitTime - starttime ≤ expireRunLimit)
    (ts : List Turn) : ExpireRun.reached ⟨starttime, t :: ts⟩ = [] :=
  List.takeWhile_cons_of_neg fun hin => h (of_decide_eq_true hin)

/-- The turn that is first, and the others after it. -/
theorem Backed.rest {d : DiskTier S} {starttime : Int} {t : Turn} {ts : List Turn}
    (h : d.Backed env ⟨starttime, t :: ts⟩)
    (hin : t.limitTime - starttime ≤ expireRunLimit) (size : Int) (hnot : t.hash ∉ ts.map Turn.hash) :
    d.Backed env ⟨starttime, ts⟩ ∧ (d.drop t.hash size).Backed env ⟨starttime, ts⟩ := by
  have hreached := reached_in hin ts
  have hall : d.Backed env ⟨starttime, ts⟩ := by
    intro t' ht' hdue
    exact h t' (hreached ▸ List.mem_cons_of_mem t ht') hdue
  refine ⟨hall, fun t' ht' hdue => ?_⟩
  have hne : t'.hash ≠ t.hash := by
    intro he
    exact hnot (he ▸ List.mem_map_of_mem (List.takeWhile_subset _ ht'))
  rw [due_drop size hne] at hdue
  rw [metaAt_drop, if_neg hne]
  exact hall t' ht' hdue

/-- **What a run does when every due entry has its mapping.** -/
theorem expireLoop_backed (starttime : Int) (turns : List Turn)
    (hnodup : (turns.map Turn.hash).Nodup) : ∀ d : DiskTier S, d.Backed env ⟨starttime, turns⟩ →
    expireLoop env starttime d turns =
      (if ∀ t ∈ turns, t.limitTime - starttime ≤ expireRunLimit then Ended.done else .cut,
        d.dropAll env (d.dropped ⟨starttime, turns⟩)) := by
  induction turns with
  | nil => intro d _; rfl
  | cons t ts ih =>
    intro d hback
    rw [List.map_cons, List.nodup_cons] at hnodup
    obtain ⟨hnot, hrest⟩ := hnodup
    rw [expireLoop]
    by_cases hin : t.limitTime - starttime ≤ expireRunLimit
    · rw [if_neg (by omega)]
      have hreached := reached_in hin ts
      simp only [List.forall_mem_cons, hin, true_and]
      cases hdue : d.due t with
      | false =>
        obtain ⟨hback', -⟩ := hback.rest env hin 0 hnot
        have hdrop : d.dropped ⟨starttime, t :: ts⟩ = d.dropped ⟨starttime, ts⟩ := by
          simp [dropped, hreached, hdue]
        rw [hdrop]
        exact ih hrest d hback'
      | true =>
        have hsome := hback t (hreached ▸ List.mem_cons_self ..) hdue
        obtain ⟨m, hm⟩ := Option.isSome_iff_exists.mp hsome
        obtain ⟨-, hback'⟩ := hback.rest env hin m.size hnot
        -- the hashes are different, so the other turns are due as they were
        have hdrop : d.dropped ⟨starttime, t :: ts⟩
            = t.hash :: (d.drop t.hash m.size).dropped ⟨starttime, ts⟩ := by
          have hcongr : (ExpireRun.reached ⟨starttime, ts⟩).filter (d.drop t.hash m.size).due
              = (ExpireRun.reached ⟨starttime, ts⟩).filter d.due := by
            refine List.filter_congr fun t' ht' => due_drop m.size fun he => hnot ?_
            exact he ▸ List.mem_map_of_mem (List.takeWhile_subset _ ht')
          simp [dropped, hreached, hdue, hcongr]
        have hsize : d.sizeAt env t.hash = m.size := by rw [sizeAt, hm]
        rw [if_pos rfl, hm, hdrop, dropAll_cons, hsize]
        exact ih hrest (d.drop t.hash m.size) hback'
    · rw [if_pos (by omega)]
      have hall : ¬ ∀ t' ∈ t :: ts, t'.limitTime - starttime ≤ expireRunLimit :=
        fun h => hin (h t (List.mem_cons_self ..))
      rw [if_neg hall, dropped, reached_out hin]
      rfl

/-- **It throws where one has not.** -/
theorem expireLoop_unbacked (starttime : Int) (turns : List Turn)
    (hnodup : (turns.map Turn.hash).Nodup) : ∀ d : DiskTier S, ¬ d.Backed env ⟨starttime, turns⟩ →
    (expireLoop env starttime d turns).1 = .threw := by
  induction turns with
  | nil => intro d h; exact absurd (fun t ht => nomatch ht) h
  | cons t ts ih =>
    intro d hback
    rw [List.map_cons, List.nodup_cons] at hnodup
    obtain ⟨hnot, hrest⟩ := hnodup
    rw [expireLoop]
    by_cases hin : t.limitTime - starttime ≤ expireRunLimit
    · rw [if_neg (by omega)]
      have hreached := reached_in hin ts
      cases hdue : d.due t with
      | false =>
        refine ih hrest d fun h => hback fun t' ht' hdue' => ?_
        rcases List.mem_cons.mp (hreached ▸ ht') with rfl | ht'
        · rw [hdue] at hdue'
          cases hdue'
        · exact h t' ht' hdue'
      | true =>
        rw [if_pos rfl]
        cases hm : d.metaAt env t.hash with
        | none => rfl
        | some m =>
          refine ih hrest _ fun h => hback fun t' ht' hdue' => ?_
          rcases List.mem_cons.mp (hreached ▸ ht') with rfl | ht'
          · rw [hm]
            rfl
          · have hne : t'.hash ≠ t.hash := fun he =>
              hnot (he ▸ List.mem_map_of_mem (List.takeWhile_subset _ ht'))
            have hsome := h t' ht' (by rw [due_drop m.size hne]; exact hdue')
            rwa [metaAt_drop, if_neg hne] at hsome
    · refine absurd (fun t' ht' => ?_) hback
      rw [reached_out hin] at ht'
      cases ht'

/-! ## The run -/

section
variable {env} {d : DiskTier S} {run : ExpireRun}

theorem Covers.nodup (h : d.Covers run) : (run.turns.map Turn.hash).Nodup :=
  h.nodup_iff.mpr d.expirationData.keys_nodup

/-- The latch is set and taken back around the removals. -/
theorem latched_dropAll (latch : Bool) (hashes : List Str) : ∀ d : DiskTier S,
    ({ d with inExpire := latch } : DiskTier S).dropAll env hashes =
      { d.dropAll env hashes with inExpire := latch } := by
  induction hashes with
  | nil => intro d; rfl
  | cons hash hashes ih => intro d; exact ih (d.drop hash (d.sizeAt env hash))

theorem expireCache_backed (hopen : d.inExpire = false) (hnodup : (run.turns.map Turn.hash).Nodup)
    (hback : d.Backed env run) : d.expireCache env run =
      (if ∀ t ∈ run.turns, t.limitTime - run.starttime ≤ expireRunLimit then Ended.done else .cut,
        (d.dropAll env (d.dropped run)).storeExpiration env) := by
  have hloop := expireLoop_backed env run.starttime run.turns hnodup { d with inExpire := true } hback
  have hne : (if ∀ t ∈ run.turns, t.limitTime - run.starttime ≤ expireRunLimit then Ended.done
      else .cut) ≠ .threw := by
    split
    next => exact nofun
    next => exact nofun
  unfold expireCache
  rw [hopen, hloop]
  dsimp only
  rw [if_neg hne, latched_dropAll]
  have hlatch : (d.dropAll env (d.dropped run)).inExpire = false := by
    rw [inExpire_dropAll, hopen]
  show (_, ({ (d.dropAll env (d.dropped run)).storeExpiration env with inExpire := false } :
    DiskTier S)) = _
  rw [← hlatch]
  rfl

theorem expireCache_unbacked (hopen : d.inExpire = false)
    (hnodup : (run.turns.map Turn.hash).Nodup) (hback : ¬ d.Backed env run) :
    (d.expireCache env run).1 = .threw ∧ (d.expireCache env run).2.inExpire = true := by
  have hthrew := expireLoop_unbacked env run.starttime run.turns hnodup { d with inExpire := true }
    hback
  have hrun : d.expireCache env run
      = expireLoop env run.starttime { d with inExpire := true } run.turns := by
    unfold expireCache
    rw [hopen]
    dsimp only
    rw [if_pos hthrew]
    rfl
  refine ⟨hrun ▸ hthrew, ?_⟩
  obtain ⟨hashes, hdrop⟩ := expireLoop_drops env run.starttime run.turns { d with inExpire := true }
  rw [hrun, hdrop, inExpire_dropAll]

/-- A run that is not cut has a turn for every entry. -/
theorem reached_of_done (h : ∀ t ∈ run.turns, t.limitTime - run.starttime ≤ expireRunLimit) :
    run.reached = run.turns :=
  List.takeWhile_eq_self_iff.mpr fun t ht => decide_eq_true (h t ht)

theorem mem_dropped (hcov : d.Covers run) (hreached : run.reached = run.turns) {t : Turn}
    (ht : t ∈ run.turns) : t.hash ∈ d.dropped run ↔ d.due t = true := by
  rw [dropped, hreached]
  constructor
  · intro h
    obtain ⟨t', ht', he⟩ := List.mem_map.mp h
    obtain ⟨hmem, hdue⟩ := List.mem_filter.mp ht'
    rwa [← List.inj_on_of_nodup_map hcov.nodup hmem ht he]
  · intro hdue
    exact List.mem_map_of_mem (List.mem_filter.mpr ⟨ht, hdue⟩)

/-- **One expiry is clean exactly when it finds every mapping it looks for.** -/
theorem clean_iff (hopen : d.inExpire = false) (hcov : d.Covers run) :
    ((d.expireCache env run).1 ≠ .cut → Clean d (d.expireCache env run).2 run) ↔
      d.Backed env run := by
  constructor
  · intro h
    by_contra hback
    obtain ⟨hthrew, hlatch⟩ := expireCache_unbacked hopen hcov.nodup hback
    have hclean := h (by rw [hthrew]; exact nofun)
    rw [hclean.unlatched] at hlatch
    cases hlatch
  · intro hback hcut
    rw [expireCache_backed hopen hcov.nodup hback] at hcut ⊢
    have hin : ∀ t ∈ run.turns, t.limitTime - run.starttime ≤ expireRunLimit := by
      by_contra hout
      exact hcut (if_neg hout)
    have hmem := fun t ht => mem_dropped (t := t) hcov (reached_of_done hin) ht
    refine ⟨?_, fun t ht => ?_, fun t ht hdue => ?_⟩
    · show (d.dropAll env (d.dropped run)).inExpire = false
      rw [inExpire_dropAll, hopen]
    · show (d.dropAll env (d.dropped run)).expirationData.lookup t.hash = _
      rw [expiration_dropAll]
      simp only [hmem t ht]
    · have hgone := (hmem t ht).mpr hdue
      obtain ⟨hobj, hmeta⟩ := expirationPath_ne t.hash
      constructor
      · show ((d.dropAll env (d.dropped run)).storage.insert _ _).lookup _ = none
        rw [AList.lookup_insert_ne hobj, lookup_dropAll, if_pos ⟨_, hgone, Or.inl rfl⟩]
      · show ((d.dropAll env (d.dropped run)).storage.insert _ _).lookup _ = none
        rw [AList.lookup_insert_ne hmeta, lookup_dropAll, if_pos ⟨_, hgone, Or.inr rfl⟩]

end

variable {env}

/-- What `free` does behind its expiry leaves the latch as it is. -/
theorem inExpire_free (d : DiskTier S) (n : Int) (run : ExpireRun) (names : List (Str × Int)) :
    (d.free env n run names).tier.inExpire = (d.expireCache env run).2.inExpire := by
  unfold free
  dsimp only
  split
  next => rfl
  next =>
    split
    next => rfl
    next =>
      split
      next => rfl
      next ranking _ =>
        obtain ⟨k, h⟩ := evictLoop_drops env n (ranking.map Prod.fst) 0 (d.expireCache env run).2
        show (evictLoop env n 0 _ _).inExpire = _
        rw [h, inExpire_dropAll]

/-- A call with a backed expiry, or with none, leaves the tier unlatched. -/
theorem step_unlatched {d d' : DiskTier S} {c : Call V S} (hopen : d.inExpire = false)
    (hback : d.ExpiresBacked env c) (hs : d.step env c = some d') : d'.inExpire = false := by
  have hexpire : ∀ run, d.Covers run → d.Backed env run →
      (d.expireCache env run).2.inExpire = false := by
    intro run hcov hb
    rw [expireCache_backed hopen hcov.nodup hb]
    show (d.dropAll env (d.dropped run)).inExpire = false
    rw [inExpire_dropAll, hopen]
  cases c with
  | store now m => obtain rfl := Option.some.inj hs; exact hopen
  | retrieve now name => obtain rfl := Option.some.inj hs; exact hopen
  | refresh name => obtain rfl := Option.some.inj hs; exact hopen
  | flush regexp => obtain rfl := Option.some.inj hs; exact hopen
  | expire run =>
    rw [step] at hs
    split at hs
    next hcov =>
      obtain rfl := Option.some.inj hs
      exact hexpire run hcov (hback run rfl hcov)
    next => cases hs
  | free n run names =>
    rw [step] at hs
    split at hs
    next hok =>
      obtain rfl := Option.some.inj hs
      rw [inExpire_free]
      exact hexpire run hok.1 (hback run rfl hok.1)
    next => cases hs

/-- **Expiry along a run.** Every expiry of a run that starts unlatched is clean exactly when each
finds the mapping of every due entry it comes to. -/
theorem expiry_iff {d : DiskTier S} (hopen : d.inExpire = false) (calls : List (Call V S)) :
    EachStep (step env) (ExpiresClean env) d calls ↔
      EachStep (step env) (ExpiresBacked env) d calls := by
  apply Lib.eachStep_congr (I := fun d : DiskTier S => d.inExpire = false)
  · intro d c hopen
    constructor
    · intro h run hrun hcov
      exact (clean_iff hopen hcov).mp (h run hrun hcov)
    · intro h run hrun hcov
      exact (clean_iff hopen hcov).mpr (h run hrun hcov)
  · intro d c d' hopen hback hs
    exact step_unlatched hopen hback hs
  · exact hopen

/-- Over an empty storage. -/
def fresh : DiskTier S := { toSlowStorage := SlowStorage.fresh, inExpire := false }

end DiskTier

/-- A variable under the name "a" that expires at 1, for the disk or not. -/
def expiringMeta (diskCache : Bool) : Meta Nat Encoded :=
  { name := "a".toList, object := some (.value 7), type := .var, size := 0, expires := 1
    diskCache := diskCache, program := false, createTime := 0, lastRetrieval := 0, hits := 0
    hash := none }

/-- A run at time 2 for the one entry of "a". -/
def runAtTwo : ExpireRun :=
  { starttime := 2
    turns := [{ hash := sampleEnv.getHash "a".toList, limitTime := 2, now := 2 }] }

theorem expiry_iff_sample :
    EachStep (DiskTier.step sampleEnv) (DiskTier.ExpiresClean sampleEnv) DiskTier.fresh
      [.store 0 (expiringMeta true), .expire runAtTwo] ↔
    EachStep (DiskTier.step sampleEnv) (DiskTier.ExpiresBacked sampleEnv) DiskTier.fresh
      [.store 0 (expiringMeta true), .expire runAtTwo] :=
  DiskTier.expiry_iff rfl _

/-- An object that does not go to the disk has an expiry there all the same: when it is due, the
run throws and the latch stays. -/
theorem unbacked_entry_latches :
    ¬ EachStep (DiskTier.step sampleEnv) (DiskTier.ExpiresClean sampleEnv) DiskTier.fresh
      [.store 0 (expiringMeta false), .expire runAtTwo] := by
  intro h
  have hclean := (h.2 _ rfl).1 runAtTwo rfl (by decide) (by decide)
  exact absurd hclean.unlatched (by decide)

end Caudium.CachePmod
