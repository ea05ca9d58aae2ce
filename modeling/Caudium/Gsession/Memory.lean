import Caudium.Lib.Mapping

/-!
# The memory storage of sessions

The storage plugin that `gsession.pike` brings along. `_memory_storage` has a region under each
name, with an area of variables for each session, and under "_sessions_" the records of the
sessions, among which the two counters are kept. Session ids are other texts than the names of the
counters; here the counters are beside the records.

`fresh` is set by `memory_setup` and cleared by the first use. `memory_is_touched` answers `fresh`
as it is.
-/

namespace Caudium.Gsession

open Lib (Str Mapping)

variable {ι V : Type}

/-- The record of a session. A hook is a function with its arguments. -/
structure Session (ι : Type) where
  lastused : Int
  fresh : Bool
  exptime : Int
  exphook : Option ι
  lastchanged : Option Int
  lastretrieved : Option Int

/-- The variables of a session in a region; `none` is 0. -/
abbrev Data (V : Type) := Mapping Str (Option V)

/-- `_memory_storage`. As long as there are no regions it is empty. -/
structure Memory (ι V : Type) where
  sessions : Mapping Str (Session ι)
  /-- "total_sessions". -/
  total : Int
  /-- "idle_sessions". -/
  idle : Int
  /-- The other regions: areas by session id. -/
  regions : Mapping Str (Mapping Str (Data V))

/-- `([])`. -/
def Memory.empty : Memory ι V := ⟨∅, 0, 0, ∅⟩

def sessionsName : Str := "_sessions_".toList

/-- `reg || "session"`. -/
def regionOf (reg : Option Str) : Str := reg.getD "session".toList

namespace Memory

/-- `_memory_storage[region][sid]->data`. The records have none. -/
def data (m : Memory ι V) (region sid : Str) : Option (Data V) :=
  if region = sessionsName then none
  else (m.regions.lookup region).bind fun areas => areas.lookup sid

def setData (m : Memory ι V) (region sid : Str) (data : Data V) : Memory ι V :=
  match m.regions.lookup region with
  | some areas => { m with regions := m.regions.insert region (areas.insert sid data) }
  | none => m

def setSession (m : Memory ι V) (sid : Str) (s : Session ι) : Memory ι V :=
  { m with sessions := m.sessions.insert sid s }

/-- The use of a session at a time: what the three functions for variables do first. -/
def use (m : Memory ι V) (sid : Str) (s : Session ι) (t : Int) : Memory ι V :=
  { m.setSession sid { s with lastused := t, fresh := false } with
    idle := if s.fresh then m.idle - 1 else m.idle }

end Memory

/-- `memory_validate_storage`, true for 0. -/
def validateStorage (m : Memory ι V) (region sid : Str) : Bool :=
  if region = sessionsName then (m.sessions.lookup sid).isSome else (m.data region sid).isSome

/-- The area of a session in a region. -/
def withArea (sid : Str) (areas : Mapping Str (Data V)) : Mapping Str (Data V) :=
  if (areas.lookup sid).isSome then areas else areas.insert sid ∅

/-- The compatibility regions. -/
def legacyRegions : Mapping Str (Mapping Str (Data V)) :=
  ((∅ : Mapping Str (Mapping Str (Data V))).insert "session".toList ∅).insert "user".toList ∅

/-- The storage with its compatibility regions, if there was none. -/
def setUp (m : Memory ι V) : Memory ι V :=
  if m.regions.keys = [] then ⟨∅, 0, 0, legacyRegions⟩ else m

/-- The record of a session, if there was none. -/
def addSession (t expire : Int) (sid : Str) (m : Memory ι V) : Memory ι V :=
  if (m.sessions.lookup sid).isSome then m
  else { m.setSession sid ⟨t, true, expire, none, none, none⟩ with
    total := m.total + 1, idle := m.idle + 1 }

/-- `memory_setup`, at time `t` and with the setting `expire`. -/
def memorySetup (t expire : Int) (sid : Option Str) (m : Memory ι V) : Memory ι V :=
  match sid with
  | none => setUp m
  | some sid =>
    let m := addSession t expire sid (setUp m)
    { m with regions := m.regions.mapValues (withArea sid) }

/-- `memory_is_touched`, with `none` for an error that is thrown. -/
def memoryIsTouched (sid : Str) (m : Memory ι V) : Option Int :=
  if validateStorage m "session".toList sid then
    (m.sessions.lookup sid).map fun s => if s.fresh then 1 else 0
  else some 0

/-- `memory_get_counters`. -/
def memoryGetCounters (m : Memory ι V) : Int × Int := (m.total, m.idle)

/-- `memory_store`: `none` if it throws, and what it leaves. -/
def memoryStore (t : Int) (key : Str) (value : Option V) (sid : Str) (reg : Option Str)
    (m : Memory ι V) : Option Unit × Memory ι V :=
  if validateStorage m (regionOf reg) sid then
    match m.sessions.lookup sid with
    | none => (none, m)
    | some s =>
      let m := m.use sid s t
      match m.data (regionOf reg) sid with
      | none => (none, m)
      | some data =>
        (some (), (m.setData (regionOf reg) sid (data.insert key value)).setSession sid
          { s with lastused := t, fresh := false, lastchanged := some t })
  else (some (), m)

/-- `data[key]`. -/
def valueOf (data : Data V) (key : Str) : Option V := (data.lookup key).join

/-- `memory_retrieve`: the value, unless it throws, and what it leaves. -/
def memoryRetrieve (t : Int) (key : Str) (sid : Str) (reg : Option Str) (m : Memory ι V) :
    Option (Option V) × Memory ι V :=
  if validateStorage m (regionOf reg) sid then
    match m.sessions.lookup sid with
    | none => (none, m)
    | some s =>
      let m := m.use sid s t
      match m.data (regionOf reg) sid with
      | none => (none, m)
      | some data =>
        match valueOf data key with
        | none => (some none, m)
        | some v => (some (some v), m.setSession sid
            { s with lastused := t, fresh := false, lastretrieved := some t })
  else (some none, m)

/-- `memory_delete_variable`: the value that was there, unless it throws, and what it leaves. -/
def memoryDeleteVariable (t : Int) (key : Str) (sid : Str) (reg : Option Str) (m : Memory ι V) :
    Option (Option V) × Memory ι V :=
  if validateStorage m (regionOf reg) sid then
    match m.sessions.lookup sid with
    | none => (none, m)
    | some s =>
      let m := m.use sid s t
      match m.data (regionOf reg) sid with
      | none => (none, m)
      | some data =>
        match valueOf data key with
        | none => (some none, m)
        | some v =>
          (some (some v), (m.setData (regionOf reg) sid (data.erase key)).setSession sid
            { s with lastused := t, fresh := false, lastchanged := some t })
  else (some none, m)

/-- `memory_delete_session`. -/
def memoryDeleteSession (sid : Str) (m : Memory ι V) : Memory ι V :=
  match m.sessions.lookup sid with
  | none => m
  | some s =>
    { sessions := m.sessions.erase sid
      total := m.total - 1
      idle := if s.fresh then m.idle - 1 else m.idle
      regions := m.regions.mapValues fun areas => areas.erase sid }

/-! ## Expiry -/

/-- The order in which `indices` lists the keys of a mapping. -/
structure Order where
  list : List Str → List Str
  perm : ∀ l, (list l).Perm l

/-- The orders of one walk: of the regions, and of the sessions in each. -/
structure Orders where
  regions : Order
  sessions : Str → Order

/-- The keys of a region. Those of the counters are passed over everywhere. -/
def sidsOf (m : Memory ι V) (region : Str) : List Str :=
  if region = sessionsName then m.sessions.keys
  else ((m.regions.lookup region).map AList.keys).getD []

/-- One session of the walk of `memory_expire_idle`. `expidletime` is the setting if `doexpidle` is
on. -/
def idleVisit (expidletime : Option Int) (curtime : Int) (m : Memory ι V) (sid : Str) :
    Memory ι V :=
  match m.sessions.lookup sid, expidletime with
  | some s, some time =>
    if s.fresh && time < curtime - s.lastused then memoryDeleteSession sid m else m
  | _, _ => m

/-- The walk of `memory_expire_idle`. -/
def expireIdleWalk (expidletime : Option Int) (o : Orders) (curtime : Int) (m : Memory ι V) :
    Memory ι V :=
  (o.regions.list (sessionsName :: m.regions.keys)).foldl (fun m region =>
    ((o.sessions region).list (sidsOf m region)).foldl (idleVisit expidletime curtime) m) m

/-- What a hook may do to the storage. -/
inductive Act (V : Type)
  | store (t : Int) (key : Str) (value : Option V) (sid : Str) (reg : Option Str)
  | retrieve (t : Int) (key : Str) (sid : Str) (reg : Option Str)
  | deleteVariable (t : Int) (key : Str) (sid : Str) (reg : Option Str)
  | deleteSession (sid : Str)

def Act.run : Act V → Memory ι V → Memory ι V
  | .store t key value sid reg, m => (memoryStore t key value sid reg m).2
  | .retrieve t key sid reg, m => (memoryRetrieve t key sid reg m).2
  | .deleteVariable t key sid reg, m => (memoryDeleteVariable t key sid reg m).2
  | .deleteSession sid, m => memoryDeleteSession sid m

/-- What a hook does when it is called: its acts, and whether it raises an error after them. -/
structure Called (V : Type) where
  acts : List (Act V)
  raises : Bool

/-- The hooks: what that of a session does, called in a state of the storage. -/
abbrev Hooks (ι V : Type) := Str → ι → Memory ι V → Called V

/-- The call of a session's hook, if it has one. -/
def callHook (hooks : Hooks ι V) (sid : Str) (s : Session ι) (m : Memory ι V) : Called V :=
  match s.exphook with
  | some hook => hooks sid hook m
  | none => ⟨[], false⟩

/-- Not used for longer than its `exptime`. -/
def expired (curtime : Int) (m : Memory ι V) (sid : Str) : Bool :=
  match m.sessions.lookup sid with
  | some s => s.exptime < curtime - s.lastused
  | none => false

/-- One session of the walk of `memory_expire_old`; false when its hook raised. -/
def oldVisit (hooks : Hooks ι V) (curtime : Int) (m : Memory ι V) (sid : Str) :
    Memory ι V × Bool :=
  match m.sessions.lookup sid with
  | some s =>
    if s.exptime < curtime - s.lastused then
      let called := callHook hooks sid s m
      let m := called.acts.foldl (fun m act => act.run m) m
      if called.raises then (m, false) else (memoryDeleteSession sid m, true)
    else (m, true)
  | none => (m, true)

/-- The sessions of a region, as far as no hook raises. -/
def oldSids (hooks : Hooks ι V) (curtime : Int) : Memory ι V → List Str → Memory ι V × Bool
  | m, [] => (m, true)
  | m, sid :: sids =>
    let r := oldVisit hooks curtime m sid
    if r.2 then oldSids hooks curtime r.1 sids else r

/-- The regions. -/
def oldRegions (hooks : Hooks ι V) (o : Orders) (curtime : Int) :
    Memory ι V → List Str → Memory ι V × Bool
  | m, [] => (m, true)
  | m, region :: regions =>
    let r := oldSids hooks curtime m ((o.sessions region).list (sidsOf m region))
    if r.2 then oldRegions hooks o curtime r.1 regions else r

/-- The storage and whether `gc_lock` is held. -/
structure Gc (ι V : Type) where
  memory : Memory ι V
  locked : Bool

/-- `memory_expire_idle`; `none` when it waits for the lock for ever. -/
def memoryExpireIdle (expidletime : Option Int) (o : Orders) (curtime : Int) (g : Gc ι V) :
    Option (Gc ι V) :=
  if g.locked then none else some ⟨expireIdleWalk expidletime o curtime g.memory, false⟩

/-- `memory_expire_old`. An error of a hook passes by the release of the lock. -/
def memoryExpireOld (hooks : Hooks ι V) (o : Orders) (curtime : Int) (g : Gc ι V) :
    Option (Gc ι V) :=
  if g.locked then none
  else
    let r := oldRegions hooks o curtime g.memory
      (o.regions.list (sessionsName :: g.memory.regions.keys))
    some ⟨r.1, !r.2⟩

/-! ## What the functions leave -/

/-- The session is there. -/
def Memory.present (m : Memory ι V) (sid : Str) : Bool := (m.sessions.lookup sid).isSome

/-- There is an area for the session in the region. -/
def Memory.hasArea (m : Memory ι V) (region sid : Str) : Bool :=
  ((m.regions.lookup region).bind fun areas => areas.lookup sid).isSome

/-- What the use of a session leaves: its record and the counter of idle sessions change, and
variables in areas that there are. -/
structure Used (t : Int) (sid : Str) (s : Session ι) (m m' : Memory ι V) : Prop where
  there : m.sessions.lookup sid = some s
  sessions : ∃ s', m'.sessions = m.sessions.insert sid s' ∧ s'.fresh = false ∧ s'.lastused = t ∧
    s'.exptime = s.exptime ∧ s'.exphook = s.exphook
  total : m'.total = m.total
  idle : m'.idle = if s.fresh then m.idle - 1 else m.idle
  regions : ∀ region, (m'.regions.lookup region).isSome = (m.regions.lookup region).isSome
  areas : ∀ region sid', m'.hasArea region sid' = m.hasArea region sid'

theorem Memory.use_used {m : Memory ι V} {sid : Str} {s : Session ι}
    (h : m.sessions.lookup sid = some s) (t : Int) : Used t sid s m (m.use sid s t) where
  there := h
  sessions := ⟨_, rfl, rfl, rfl, rfl, rfl⟩
  total := rfl
  idle := rfl
  regions _ := rfl
  areas _ _ := rfl

theorem Memory.data_isSome {m : Memory ι V} {region sid : Str} {data : Data V}
    (h : m.data region sid = some data) : m.hasArea region sid = true := by
  rw [Memory.data] at h
  split at h
  next => cases h
  next => rw [Memory.hasArea, h, Option.isSome_some]

/-- Variables put into an area, after the use. -/
theorem Used.setData {t : Int} {sid : Str} {s s' : Session ι} {m m' : Memory ι V} {region : Str}
    (h : Used t sid s m m') (harea : m'.hasArea region sid = true) (data : Data V)
    (hs : s'.fresh = false ∧ s'.lastused = t ∧ s'.exptime = s.exptime ∧ s'.exphook = s.exphook) :
    Used t sid s m ((m'.setData region sid data).setSession sid s') := by
  rw [Memory.hasArea] at harea
  cases hregion : m'.regions.lookup region with
  | none =>
    rw [hregion] at harea
    cases harea
  | some areas =>
    rw [hregion, Option.bind_some] at harea
    have hset : m'.setData region sid data =
        { m' with regions := m'.regions.insert region (areas.insert sid data) } := by
      rw [Memory.setData, hregion]
    rw [hset]
    refine ⟨h.there, ?_, h.total, h.idle, fun r => ?_, fun r sid' => ?_⟩
    · obtain ⟨s₁, hs₁, _⟩ := h.sessions
      refine ⟨s', ?_, hs⟩
      show m'.sessions.insert sid s' = _
      rw [hs₁, AList.insert_insert]
    · show ((m'.regions.insert region _).lookup r).isSome = _
      rw [Lib.Mapping.lookup_insert_ite, ← h.regions]
      split
      next he => rw [he, hregion]; rfl
      next => rfl
    · rw [← h.areas, Memory.hasArea, Memory.hasArea]
      show (((m'.regions.insert region _).lookup r).bind _).isSome = _
      rw [Lib.Mapping.lookup_insert_ite]
      split
      next he =>
        rw [he, hregion, Option.bind_some, Option.bind_some, Lib.Mapping.lookup_insert_ite]
        split
        next he => rw [he, harea]; rfl
        next => rfl
      next => rfl

/-- A session's variables are stored into, read or deleted from: the call gets past the validation
and the session has a record. -/
def uses (sid : Str) (reg : Option Str) (m : Memory ι V) : Bool :=
  validateStorage m (regionOf reg) sid && (m.sessions.lookup sid).isSome

/-- What a call for a session's variables leaves. -/
def Leaves (t : Int) (sid : Str) (reg : Option Str) (m m' : Memory ι V) : Prop :=
  if uses sid reg m then ∃ s, Used t sid s m m' else m' = m

theorem leaves_refused {t : Int} {sid : Str} {reg : Option Str} {m : Memory ι V}
    (h : validateStorage m (regionOf reg) sid = false) : Leaves t sid reg m m := by
  rw [Leaves, uses, h, Bool.false_and, if_neg Bool.false_ne_true]

theorem leaves_unknown {t : Int} {sid : Str} {reg : Option Str} {m : Memory ι V}
    (h : m.sessions.lookup sid = none) : Leaves t sid reg m m := by
  rw [Leaves, uses, h, Option.isSome_none, Bool.and_false, if_neg Bool.false_ne_true]

theorem Used.leaves {t : Int} {sid : Str} {s : Session ι} {reg : Option Str} {m m' : Memory ι V}
    (h : Used t sid s m m') (hvalid : validateStorage m (regionOf reg) sid = true) :
    Leaves t sid reg m m' := by
  rw [Leaves, if_pos (by rw [uses, hvalid, h.there]; rfl)]
  exact ⟨s, h⟩

/-- What the calls for a session's variables have in common: validation, use and area. -/
def withData {α : Type} (t : Int) (sid : Str) (reg : Option Str) (refused : Option α)
    (go : Session ι → Memory ι V → Data V → Option α × Memory ι V) (m : Memory ι V) :
    Option α × Memory ι V :=
  if validateStorage m (regionOf reg) sid then
    match m.sessions.lookup sid with
    | none => (none, m)
    | some s =>
      match (m.use sid s t).data (regionOf reg) sid with
      | none => (none, m.use sid s t)
      | some data => go s (m.use sid s t) data
  else (refused, m)

theorem memoryStore_eq (t : Int) (key : Str) (value : Option V) (sid : Str) (reg : Option Str)
    (m : Memory ι V) : memoryStore t key value sid reg m =
      withData t sid reg (some ()) (fun s m data =>
        (some (), (m.setData (regionOf reg) sid (data.insert key value)).setSession sid
          { s with lastused := t, fresh := false, lastchanged := some t })) m := rfl

theorem memoryRetrieve_eq (t : Int) (key sid : Str) (reg : Option Str) (m : Memory ι V) :
    memoryRetrieve t key sid reg m =
      withData t sid reg (some none) (fun s m data =>
        match valueOf data key with
        | none => (some none, m)
        | some v => (some (some v), m.setSession sid
            { s with lastused := t, fresh := false, lastretrieved := some t })) m := rfl

theorem memoryDeleteVariable_eq (t : Int) (key sid : Str) (reg : Option Str) (m : Memory ι V) :
    memoryDeleteVariable t key sid reg m =
      withData t sid reg (some none) (fun s m data =>
        match valueOf data key with
        | none => (some none, m)
        | some v =>
          (some (some v), (m.setData (regionOf reg) sid (data.erase key)).setSession sid
            { s with lastused := t, fresh := false, lastchanged := some t })) m := rfl

theorem withData_leaves {α : Type} {t : Int} {sid : Str} {reg : Option Str} {refused : Option α}
    {go : Session ι → Memory ι V → Data V → Option α × Memory ι V} {m : Memory ι V}
    (hgo : ∀ s data, Used t sid s m (m.use sid s t) →
      (m.use sid s t).data (regionOf reg) sid = some data →
        Used t sid s m (go s (m.use sid s t) data).2) :
    Leaves t sid reg m (withData t sid reg refused go m).2 := by
  rw [withData]
  split
  next hvalid =>
    cases hs : m.sessions.lookup sid with
    | none => exact leaves_unknown hs
    | some s =>
      have hused := Memory.use_used hs t
      dsimp only
      cases hdata : (m.use sid s t).data (regionOf reg) sid with
      | none => exact hused.leaves hvalid
      | some data => exact (hgo s data hused hdata).leaves hvalid
  next hvalid => exact leaves_refused (eq_false_of_ne_true hvalid)

theorem memoryStore_leaves (t : Int) (key : Str) (value : Option V) (sid : Str) (reg : Option Str)
    (m : Memory ι V) : Leaves t sid reg m (memoryStore t key value sid reg m).2 := by
  rw [memoryStore_eq]
  exact withData_leaves fun s data hused hdata =>
    hused.setData (Memory.data_isSome hdata) _ ⟨rfl, rfl, rfl, rfl⟩

theorem memoryRetrieve_leaves (t : Int) (key sid : Str) (reg : Option Str) (m : Memory ι V) :
    Leaves t sid reg m (memoryRetrieve t key sid reg m).2 := by
  rw [memoryRetrieve_eq]
  refine withData_leaves fun s data hused hdata => ?_
  cases valueOf data key with
  | none => exact hused
  | some v => exact ⟨hused.there, ⟨_, AList.insert_insert _, rfl, rfl, rfl, rfl⟩, rfl, rfl,
      fun _ => rfl, fun _ _ => rfl⟩

theorem memoryDeleteVariable_leaves (t : Int) (key sid : Str) (reg : Option Str)
    (m : Memory ι V) : Leaves t sid reg m (memoryDeleteVariable t key sid reg m).2 := by
  rw [memoryDeleteVariable_eq]
  refine withData_leaves fun s data hused hdata => ?_
  cases valueOf data key with
  | none => exact hused
  | some v => exact hused.setData (Memory.data_isSome hdata) _ ⟨rfl, rfl, rfl, rfl⟩

/-! ## Setup -/

theorem lookup_withArea (sid : Str) (areas : Mapping Str (Data V)) (sid' : Str) :
    ((withArea sid areas).lookup sid').isSome =
      ((areas.lookup sid').isSome || decide (sid' = sid)) := by
  rw [withArea]
  by_cases he : sid' = sid
  · rw [he, decide_eq_true rfl, Bool.or_true]
    split
    next h => exact h
    next => rw [AList.lookup_insert, Option.isSome_some]
  · rw [decide_eq_false he, Bool.or_false]
    split
    next => rfl
    next => rw [AList.lookup_insert_ne he]

/-! ## Deletion -/

theorem memoryDeleteSession_of_none {m : Memory ι V} {sid : Str}
    (h : m.sessions.lookup sid = none) : memoryDeleteSession sid m = m := by
  rw [memoryDeleteSession, h]

theorem memoryDeleteSession_of_some {m : Memory ι V} {sid : Str} {s : Session ι}
    (h : m.sessions.lookup sid = some s) : memoryDeleteSession sid m =
      { sessions := m.sessions.erase sid
        total := m.total - 1
        idle := if s.fresh then m.idle - 1 else m.idle
        regions := m.regions.mapValues fun areas => areas.erase sid } := by
  rw [memoryDeleteSession, h]

/-- The records after a deletion. -/
theorem sessions_delete (m : Memory ι V) (sid sid' : Str) :
    (memoryDeleteSession sid m).sessions.lookup sid' =
      if sid' = sid then none else m.sessions.lookup sid' := by
  cases h : m.sessions.lookup sid with
  | none =>
    rw [memoryDeleteSession_of_none h]
    split
    next he => rw [he, h]
    next => rfl
  | some s =>
    rw [memoryDeleteSession_of_some h]
    exact Lib.Mapping.lookup_erase_ite _ _ _

theorem regions_delete (m : Memory ι V) (sid region : Str) :
    ((memoryDeleteSession sid m).regions.lookup region).isSome =
      (m.regions.lookup region).isSome := by
  rw [memoryDeleteSession]
  split
  next => rfl
  next => simp

theorem hasArea_delete {m : Memory ι V} {sid : Str} {s : Session ι}
    (h : m.sessions.lookup sid = some s) (region sid' : Str) :
    (memoryDeleteSession sid m).hasArea region sid' =
      (m.hasArea region sid' && decide (sid' ≠ sid)) := by
  rw [memoryDeleteSession_of_some h, Memory.hasArea, Memory.hasArea, Lib.Mapping.lookup_mapValues]
  cases m.regions.lookup region with
  | none => rfl
  | some areas =>
    rw [Option.map_some, Option.bind_some, Option.bind_some, Lib.Mapping.lookup_erase_ite]
    split
    next he => simp [he]
    next he => simp [he]

end Caudium.Gsession
