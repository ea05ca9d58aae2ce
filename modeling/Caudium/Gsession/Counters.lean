import Caudium.Gsession.Memory
import Caudium.Lib.Runs
import Caudium.Lib.Total

/-!
# The counters of sessions

What the operations of the memory storage keep up (`Kept`): the counters, the data areas, and that
`fresh` is cleared by the first use of a session. `memory_is_touched` answers `fresh` and not its
opposite, so what it says of a session that is there is wrong each time (`bookkeeping`).
-/

namespace Caudium.Gsession

open Lib (Str Mapping)

variable {ι V : Type}

/-- The operations. -/
inductive Op (V : Type)
  | setup (t expire : Int) (sid : Option Str)
  | act (a : Act V)
  | expireIdle (expidletime : Option Int) (o : Orders) (curtime : Int)
  | expireOld (o : Orders) (curtime : Int)

/-- What an operation leaves; `none` when it never returns. -/
def Op.run (hooks : Hooks ι V) : Op V → Gc ι V → Option (Gc ι V)
  | .setup t expire sid, g => some { g with memory := memorySetup t expire sid g.memory }
  | .act a, g => some { g with memory := a.run g.memory }
  | .expireIdle expidletime o curtime, g => memoryExpireIdle expidletime o curtime g
  | .expireOld o curtime, g => memoryExpireOld hooks o curtime g

/-- The storage, and beside it the sessions that were used since their setup. -/
structure Traced (ι V : Type) where
  gc : Gc ι V
  used : List Str

/-- The sessions that were used, after one more call for a session's variables. -/
def useNow (sid : Str) (reg : Option Str) (m : Memory ι V) (used : List Str) : List Str :=
  if uses sid reg m then sid :: used else used

def usedAfter (m : Memory ι V) (used : List Str) : Op V → List Str
  | .setup _ _ (some sid) =>
    if (m.sessions.lookup sid).isSome then used else used.filter (· ≠ sid)
  | .act (.store _ _ _ sid reg) => useNow sid reg m used
  | .act (.retrieve _ _ sid reg) => useNow sid reg m used
  | .act (.deleteVariable _ _ sid reg) => useNow sid reg m used
  | _ => used

def step (hooks : Hooks ι V) (s : Traced ι V) (op : Op V) : Option (Traced ι V) :=
  (op.run hooks s.gc).map fun g => ⟨g, usedAfter s.gc.memory s.used op⟩

/-- Before the first operation. -/
def start : Traced ι V := ⟨⟨.empty, false⟩, []⟩

/-! ## What is kept up -/

/-- 1 for a session that was not used. -/
def idleWeight (s : Session ι) : Int := if s.fresh then 1 else 0

structure Kept (used : List Str) (m : Memory ι V) : Prop where
  total : m.total = Mapping.total (fun _ => 1) m.sessions
  idle : m.idle = Mapping.total idleWeight m.sessions
  fresh : ∀ sid s, m.sessions.lookup sid = some s → s.fresh = decide (sid ∉ used)
  noHook : ∀ sid s, m.sessions.lookup sid = some s → s.exphook = none
  areas : ∀ region, (m.regions.lookup region).isSome = true → ∀ sid,
    m.hasArea region sid = (m.sessions.lookup sid).isSome
  known : ∀ sid, (m.sessions.lookup sid).isSome = true →
    (m.regions.lookup "session".toList).isSome = true
  legacy : ∀ region, (m.regions.lookup region).isSome = true →
    (m.regions.lookup "session".toList).isSome = true

theorem kept_empty (used : List Str) : Kept used (Memory.empty : Memory ι V) where
  total := rfl
  idle := rfl
  fresh _ _ h := by cases h
  noHook _ _ h := by cases h
  areas _ h := by cases h
  known _ h := by cases h
  legacy _ h := by cases h

variable {used : List Str} {m m' : Memory ι V}

/-- The use of a session. -/
theorem Kept.use {t : Int} {sid : Str} {s : Session ι} (h : Kept used m)
    (hused : Used t sid s m m') : Kept (sid :: used) m' := by
  obtain ⟨s', hsessions, hfresh, -, -, hhook⟩ := hused.sessions
  have hlookup : ∀ sid', m'.sessions.lookup sid' =
      if sid' = sid then some s' else m.sessions.lookup sid' := by
    intro sid'
    rw [hsessions, Lib.Mapping.lookup_insert_ite]
  have hthere : ∀ sid', (m'.sessions.lookup sid').isSome = (m.sessions.lookup sid').isSome := by
    intro sid'
    rw [hlookup]
    split
    next he => rw [he, hused.there]; rfl
    next => rfl
  refine ⟨?_, ?_, fun sid' s₁ h₁ => ?_, fun sid' s₁ h₁ => ?_, fun region hregion sid' => ?_,
    fun sid' hsid => ?_, fun region hregion => ?_⟩
  · rw [hused.total, h.total, hsessions]
    exact (Lib.Mapping.total_insert_same (fun _ => 1) hused.there rfl).symm
  · rw [hused.idle, h.idle, hsessions, Lib.Mapping.total_insert,
      Lib.Mapping.weightAt_some _ hused.there, idleWeight, idleWeight, hfresh,
      if_neg Bool.false_ne_true]
    split
    next => omega
    next => omega
  · rw [hsessions] at h₁
    rcases Lib.Mapping.lookup_insert_cases h₁ with ⟨rfl, rfl⟩ | ⟨hne, h₁⟩
    · simp [hfresh]
    · rw [h.fresh sid' s₁ h₁]
      simp [hne]
  · rw [hsessions] at h₁
    rcases Lib.Mapping.lookup_insert_cases h₁ with ⟨-, rfl⟩ | ⟨-, h₁⟩
    · rw [hhook]
      exact h.noHook sid s hused.there
    · exact h.noHook sid' s₁ h₁
  · rw [hused.regions] at hregion
    rw [hused.areas, hthere]
    exact h.areas region hregion sid'
  · rw [hthere] at hsid
    rw [hused.regions]
    exact h.known sid' hsid
  · rw [hused.regions] at hregion ⊢
    exact h.legacy region hregion

theorem Kept.leaves {t : Int} {sid : Str} {reg : Option Str} (h : Kept used m)
    (hleaves : Leaves t sid reg m m') : Kept (useNow sid reg m used) m' := by
  rw [Leaves] at hleaves
  rw [useNow]
  split at hleaves
  next huses =>
    obtain ⟨s, hused⟩ := hleaves
    rw [if_pos huses]
    exact h.use hused
  next huses =>
    rw [if_neg huses, hleaves]
    exact h

/-- The deletion of a session. -/
theorem Kept.delete (h : Kept used m) (sid : Str) : Kept used (memoryDeleteSession sid m) := by
  cases hs : m.sessions.lookup sid with
  | none =>
    rw [memoryDeleteSession_of_none hs]
    exact h
  | some s =>
    have hlookup := sessions_delete m sid
    refine ⟨?_, ?_, fun sid' s₁ h₁ => ?_, fun sid' s₁ h₁ => ?_, fun region hregion sid' => ?_,
      fun sid' hsid => ?_, fun region hregion => ?_⟩
    · rw [memoryDeleteSession_of_some hs]
      show m.total - 1 = Mapping.total _ (m.sessions.erase sid)
      rw [Lib.Mapping.total_erase, Lib.Mapping.weightAt_some _ hs, h.total]
    · rw [memoryDeleteSession_of_some hs]
      show (if s.fresh then m.idle - 1 else m.idle) = Mapping.total _ (m.sessions.erase sid)
      rw [Lib.Mapping.total_erase, Lib.Mapping.weightAt_some _ hs, h.idle, idleWeight]
      split
      next => rfl
      next => omega
    · rw [hlookup] at h₁
      split at h₁
      next => cases h₁
      next => exact h.fresh sid' s₁ h₁
    · rw [hlookup] at h₁
      split at h₁
      next => cases h₁
      next => exact h.noHook sid' s₁ h₁
    · rw [regions_delete] at hregion
      rw [hasArea_delete hs, hlookup, h.areas region hregion]
      split
      next he => simp [he]
      next he => simp [he]
    · rw [hlookup] at hsid
      rw [regions_delete]
      split at hsid
      next => cases hsid
      next => exact h.known sid' hsid
    · rw [regions_delete] at hregion ⊢
      exact h.legacy region hregion

theorem Kept.act (h : Kept used m) (a : Act V) :
    Kept (usedAfter m used (.act a)) (a.run m) := by
  cases a with
  | store t key value sid reg => exact h.leaves (memoryStore_leaves t key value sid reg m)
  | retrieve t key sid reg => exact h.leaves (memoryRetrieve_leaves t key sid reg m)
  | deleteVariable t key sid reg => exact h.leaves (memoryDeleteVariable_leaves t key sid reg m)
  | deleteSession sid => exact h.delete sid

theorem regions_ne_nil {region : Str} (h : (m.regions.lookup region).isSome = true) :
    m.regions.keys ≠ [] := by
  obtain ⟨areas, hareas⟩ := Option.isSome_iff_exists.mp h
  exact List.ne_nil_of_mem ((Lib.Mapping.mem_keys_iff _ _).mpr ⟨areas, hareas⟩)

/-- Two regions, and no session. -/
theorem kept_legacy (used : List Str) : Kept used (⟨∅, 0, 0, legacyRegions⟩ : Memory ι V) where
  total := rfl
  idle := rfl
  fresh _ _ h := by cases h
  noHook _ _ h := by cases h
  areas region h sid := by
    show (((AList.insert _ _ _).lookup region).bind _).isSome = false
    rw [Lib.Mapping.lookup_insert_ite, Lib.Mapping.lookup_insert_ite]
    split_ifs
    · rfl
    · rfl
    · rfl
  known _ h := by cases h
  legacy _ _ := by
    show ((AList.insert _ _ _).lookup _).isSome = true
    rw [Lib.Mapping.lookup_insert_ite, if_neg (by decide), AList.lookup_insert, Option.isSome_some]

theorem Kept.setUp (h : Kept used m) : Kept used (setUp m) := by
  rw [Gsession.setUp]
  split
  next => exact kept_legacy used
  next => exact h

/-- Nothing is lost when the storage is set up. -/
theorem Kept.sessions_setUp (h : Kept used m) (sid : Str) :
    (Gsession.setUp m).sessions.lookup sid = m.sessions.lookup sid := by
  rw [Gsession.setUp]
  split
  next hempty =>
    cases hs : m.sessions.lookup sid with
    | none => rfl
    | some s => exact absurd hempty (regions_ne_nil (h.known sid (by rw [hs]; rfl)))
  next => rfl

theorem session_setUp (h : Kept used m) :
    ((Gsession.setUp m).regions.lookup "session".toList).isSome = true := by
  rw [Gsession.setUp]
  split
  next => exact (@kept_legacy ι V []).legacy "user".toList (by rw [legacyRegions]; simp)
  next hne =>
    obtain ⟨region, hregion⟩ := List.exists_mem_of_ne_nil _ hne
    obtain ⟨areas, hareas⟩ := (Lib.Mapping.mem_keys_iff _ _).mp hregion
    exact h.legacy region (by rw [hareas]; rfl)

/-- The areas with one more in each region. -/
theorem Kept.areas_withArea (h : Kept used m) {sid region : Str}
    (hregion : ((m.regions.mapValues (withArea sid)).lookup region).isSome = true) (sid' : Str) :
    (((m.regions.mapValues (withArea sid)).lookup region).bind fun areas =>
      areas.lookup sid').isSome = ((m.sessions.lookup sid').isSome || decide (sid' = sid)) := by
  rw [Lib.Mapping.lookup_mapValues] at hregion ⊢
  cases hr : m.regions.lookup region with
  | none =>
    rw [hr] at hregion
    cases hregion
  | some areas =>
    rw [Option.map_some, Option.bind_some, lookup_withArea,
      ← h.areas region (by rw [hr]; rfl) sid', Memory.hasArea, hr, Option.bind_some]

theorem isSome_withArea {sid region : Str} (h : (m.regions.lookup region).isSome = true) :
    ((m.regions.mapValues (withArea sid)).lookup region).isSome = true := by
  rw [Lib.Mapping.lookup_mapValues, Option.isSome_map]
  exact h

/-- Areas for a session that is there. -/
theorem Kept.setup_again (h : Kept used m)
    (hset : (m.regions.lookup "session".toList).isSome = true) {sid : Str}
    (hs : (m.sessions.lookup sid).isSome = true) :
    Kept used { m with regions := m.regions.mapValues (withArea sid) } where
  total := h.total
  idle := h.idle
  fresh := h.fresh
  noHook := h.noHook
  areas region hregion sid' := by
    refine (h.areas_withArea hregion sid').trans ?_
    by_cases he : sid' = sid
    · rw [he, hs]
      rfl
    · rw [decide_eq_false he, Bool.or_false]
  known _ _ := isSome_withArea hset
  legacy _ _ := isSome_withArea hset

/-- A record and areas for one more session. -/
theorem Kept.setup_new (h : Kept used m)
    (hset : (m.regions.lookup "session".toList).isSome = true) {sid : Str}
    (hs : m.sessions.lookup sid = none) (t expire : Int) :
    Kept (used.filter (· ≠ sid)) { m.setSession sid ⟨t, true, expire, none, none, none⟩ with
      total := m.total + 1, idle := m.idle + 1
      regions := m.regions.mapValues (withArea sid) } where
  total := by
    show m.total + 1 = Mapping.total _ (m.sessions.insert sid _)
    rw [Lib.Mapping.total_insert, Lib.Mapping.weightAt_none _ hs, h.total]
    omega
  idle := by
    show m.idle + 1 = Mapping.total _ (m.sessions.insert sid _)
    rw [Lib.Mapping.total_insert, Lib.Mapping.weightAt_none _ hs, h.idle, idleWeight, if_pos rfl]
    omega
  fresh sid' s₁ h₁ := by
    rcases Lib.Mapping.lookup_insert_cases h₁ with ⟨rfl, rfl⟩ | ⟨hne, h₁⟩
    · simp
    · rw [h.fresh sid' s₁ h₁]
      simp [hne]
  noHook sid' s₁ h₁ := by
    rcases Lib.Mapping.lookup_insert_cases h₁ with ⟨rfl, rfl⟩ | ⟨-, h₁⟩
    · rfl
    · exact h.noHook sid' s₁ h₁
  areas region hregion sid' := by
    refine (h.areas_withArea hregion sid').trans ?_
    show _ = ((m.sessions.insert sid _).lookup sid').isSome
    rw [Lib.Mapping.lookup_insert_ite]
    split
    next he => rw [decide_eq_true he, Bool.or_true, Option.isSome_some]
    next hne => rw [decide_eq_false hne, Bool.or_false]
  known _ _ := isSome_withArea hset
  legacy _ _ := isSome_withArea hset

theorem Kept.setup (h : Kept used m) (hset : (m.regions.lookup "session".toList).isSome = true)
    (t expire : Int) (sid : Str) :
    Kept (if (m.sessions.lookup sid).isSome then used else used.filter (· ≠ sid))
      { addSession t expire sid m with
        regions := (addSession t expire sid m).regions.mapValues (withArea sid) } := by
  unfold addSession
  by_cases hs : (m.sessions.lookup sid).isSome = true
  · rw [if_pos hs, if_pos hs]
    exact h.setup_again hset hs
  · rw [if_neg hs, if_neg hs]
    exact h.setup_new hset (Option.not_isSome_iff_eq_none.mp hs) t expire

/-! ## Walks -/

theorem Kept.idleVisit (h : Kept used m) (expidletime : Option Int) (curtime : Int) (sid : Str) :
    Kept used (idleVisit expidletime curtime m sid) := by
  unfold Gsession.idleVisit
  split
  · split
    · exact h.delete sid
    · exact h
  · exact h

theorem kept_foldl {α : Type} {f : Memory ι V → α → Memory ι V}
    (hf : ∀ m a, Kept used m → Kept used (f m a)) (as : List α) :
    ∀ m : Memory ι V, Kept used m → Kept used (as.foldl f m) := by
  induction as with
  | nil => exact fun m h => h
  | cons a as ih => exact fun m h => ih (f m a) (hf m a h)

theorem Kept.expireIdleWalk (h : Kept used m) (expidletime : Option Int) (o : Orders)
    (curtime : Int) : Kept used (expireIdleWalk expidletime o curtime m) := by
  refine kept_foldl (fun m region hm => ?_) _ m h
  exact kept_foldl (fun m sid hm => hm.idleVisit expidletime curtime sid) _ m hm

/-- Without a hook no visit ends the walk. -/
theorem Kept.oldVisit (h : Kept used m) (hooks : Hooks ι V) (curtime : Int) (sid : Str) :
    (oldVisit hooks curtime m sid).2 = true ∧ Kept used (oldVisit hooks curtime m sid).1 := by
  rw [Gsession.oldVisit]
  cases hs : m.sessions.lookup sid with
  | none => exact ⟨rfl, h⟩
  | some s =>
    dsimp only
    rw [callHook, h.noHook sid s hs]
    split
    next => exact ⟨rfl, h.delete sid⟩
    next => exact ⟨rfl, h⟩

theorem Kept.oldSids (hooks : Hooks ι V) (curtime : Int) (sids : List Str) :
    ∀ {m : Memory ι V}, Kept used m → (oldSids hooks curtime m sids).2 = true ∧
      Kept used (oldSids hooks curtime m sids).1 := by
  induction sids with
  | nil => exact fun h => ⟨rfl, h⟩
  | cons sid sids ih =>
    intro m h
    have hvisit := h.oldVisit hooks curtime sid
    rw [Gsession.oldSids]
    rw [if_pos hvisit.1]
    exact ih hvisit.2

theorem Kept.oldRegions (hooks : Hooks ι V) (o : Orders) (curtime : Int) (regions : List Str) :
    ∀ {m : Memory ι V}, Kept used m → (oldRegions hooks o curtime m regions).2 = true ∧
      Kept used (oldRegions hooks o curtime m regions).1 := by
  induction regions with
  | nil => exact fun h => ⟨rfl, h⟩
  | cons region regions ih =>
    intro m h
    have hsids := Kept.oldSids hooks curtime ((o.sessions region).list (sidsOf m region)) h
    rw [Gsession.oldRegions]
    rw [if_pos hsids.1]
    exact ih hsids.2

/-! ## Runs -/

/-- **Each operation** returns and keeps all of it. -/
theorem Kept.step {s : Traced ι V} (h : Kept s.used s.gc.memory) (hlock : s.gc.locked = false)
    (hooks : Hooks ι V) (op : Op V) : ∃ s', step hooks s op = some s' ∧
      Kept s'.used s'.gc.memory ∧ s'.gc.locked = false := by
  cases op with
  | setup t expire sid =>
    refine ⟨_, rfl, ?_, hlock⟩
    cases sid with
    | none => exact h.setUp
    | some sid =>
      show Kept (if (s.gc.memory.sessions.lookup sid).isSome then s.used else _) _
      rw [← h.sessions_setUp sid]
      exact h.setUp.setup (session_setUp h) t expire sid
  | act a => exact ⟨_, rfl, h.act a, hlock⟩
  | expireIdle expidletime o curtime =>
    refine ⟨⟨⟨_, false⟩, _⟩, ?_, h.expireIdleWalk expidletime o curtime, rfl⟩
    rw [Gsession.step, Op.run, memoryExpireIdle, hlock, if_neg Bool.false_ne_true]
    rfl
  | expireOld o curtime =>
    have hwalk := Kept.oldRegions hooks o curtime
      (o.regions.list (sessionsName :: s.gc.memory.regions.keys)) h
    refine ⟨⟨⟨(Gsession.oldRegions hooks o curtime s.gc.memory
      (o.regions.list (sessionsName :: s.gc.memory.regions.keys))).1, false⟩, s.used⟩,
      ?_, hwalk.2, rfl⟩
    rw [Gsession.step, Op.run, memoryExpireOld, hlock, if_neg Bool.false_ne_true]
    dsimp only
    rw [hwalk.1]
    rfl

/-- What the operations leave, from the start. -/
theorem kept_run (hooks : Hooks ι V) (ops : List (Op V)) : ∀ {s : Traced ι V},
    Kept s.used s.gc.memory → s.gc.locked = false → ∃ s', Lib.runFrom (step hooks) s ops = some s' ∧
      Kept s'.used s'.gc.memory ∧ s'.gc.locked = false := by
  induction ops with
  | nil => exact fun h hlock => ⟨_, rfl, h, hlock⟩
  | cons op ops ih =>
    intro s h hlock
    obtain ⟨s', hstep, h', hlock'⟩ := h.step hlock hooks op
    rw [Lib.runFrom_cons ops hstep]
    exact ih h' hlock'

/-! ## What is said of the sessions -/

/-- The sessions that are there, and those of them that were not used since their setup. -/
def Traced.counters (s : Traced ι V) : Int × Int :=
  (s.gc.memory.sessions.keys.length,
    (s.gc.memory.sessions.keys.filter fun sid => decide (sid ∉ s.used)).length)

/-- A session that is there has an area in each region, and no other one has. -/
def Traced.Areas (s : Traced ι V) : Prop :=
  ∀ region areas, s.gc.memory.regions.lookup region = some areas →
    ∀ sid, (areas.lookup sid).isSome = s.gc.memory.present sid

/-- What `is_touched` is to answer. -/
def Traced.touched (s : Traced ι V) (sid : Str) : Int :=
  if s.gc.memory.present sid = true ∧ sid ∈ s.used then 1 else 0

theorem Kept.isTouched {s : Traced ι V} (h : Kept s.used s.gc.memory) (sid : Str) :
    memoryIsTouched sid s.gc.memory =
      some (if s.gc.memory.present sid = true ∧ sid ∉ s.used then 1 else 0) := by
  have hvalid : validateStorage s.gc.memory "session".toList sid = s.gc.memory.present sid := by
    show Option.isSome (if "session".toList = sessionsName then none else _) = _
    rw [if_neg (by decide), Memory.present]
    cases hsid : s.gc.memory.sessions.lookup sid with
    | some x =>
      have hset := h.known sid (by rw [hsid]; rfl)
      rw [← hsid, ← h.areas _ hset]
      rfl
    | none =>
      cases hregion : s.gc.memory.regions.lookup "session".toList with
      | none => rfl
      | some areas =>
        have hsame := h.areas "session".toList (by rw [hregion]; rfl) sid
        rw [hsid] at hsame
        rw [← hsame, Memory.hasArea, hregion]
  rw [memoryIsTouched, hvalid, Memory.present]
  cases hsid : s.gc.memory.sessions.lookup sid with
  | none => rfl
  | some x =>
    rw [Option.isSome_some, if_pos rfl, Option.map_some, h.fresh sid x hsid]
    simp

/-- **The bookkeeping** after any operations: the counters and the areas are right, and the answer
of `is_touched` is right for the sessions that are not there. -/
theorem bookkeeping (hooks : Hooks ι V) (ops : List (Op V)) : ∃ s,
    Lib.runFrom (step hooks) start ops = some s ∧
      memoryGetCounters s.gc.memory = s.counters ∧ s.Areas ∧
      ∀ sid, memoryIsTouched sid s.gc.memory = some (s.touched sid) ↔
        s.gc.memory.present sid = false := by
  obtain ⟨s, hrun, h, -⟩ := kept_run hooks ops (s := start) (kept_empty []) rfl
  refine ⟨s, hrun, ?_, ?_, fun sid => ?_⟩
  · have htotal : s.gc.memory.total = s.gc.memory.sessions.keys.length := by
      have hall := Lib.Mapping.total_eq_length_filter (m := s.gc.memory.sessions)
        (p := fun _ => true) (q := fun _ => true) fun _ _ _ => rfl
      rw [List.filter_true] at hall
      rw [h.total, ← hall]
      rfl
    rw [memoryGetCounters, Traced.counters, htotal, h.idle]
    exact congrArg _ (Lib.Mapping.total_eq_length_filter h.fresh)
  · intro region areas hregion sid
    have harea := h.areas region (by rw [hregion]; rfl) sid
    rw [Memory.hasArea, hregion] at harea
    exact harea
  · rw [h.isTouched, Traced.touched, Option.some_inj]
    cases s.gc.memory.present sid with
    | false => simp
    | true =>
      by_cases hused : sid ∈ s.used
      · simp [hused]
      · simp [hused]

/-- All of it, with the right answers of `is_touched`. -/
def Bookkept (hooks : Hooks ι V) (ops : List (Op V)) : Prop := ∃ s,
  Lib.runFrom (step hooks) start ops = some s ∧
    memoryGetCounters s.gc.memory = s.counters ∧ s.Areas ∧
    ∀ sid, memoryIsTouched sid s.gc.memory = some (s.touched sid)

/-- A new session counts as used. -/
theorem fresh_is_touched : ¬ @Bookkept Unit Unit (fun _ _ _ => ⟨[], false⟩)
    [.setup 0 600 (some ['s'])] := by
  intro ⟨s, hrun, _, _, h⟩
  have hs := Option.some.inj hrun
  have htouched := h ['s']
  rw [← hs] at htouched
  revert htouched
  decide

end Caudium.Gsession
