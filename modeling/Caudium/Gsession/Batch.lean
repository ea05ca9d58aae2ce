import Caudium.Gsession.Counters

/-!
# Several variables at once

`store`, `retrieve` and `delete_variable` take several variables as well as one. `store` goes
through a mapping as through single calls. The other two hand the name of the region to the plugin
where it takes the session id, and add up one mapping with the indices "key" and "data", in which
the last name is left. What comes out is right for no name, and for a single one where it does not
matter that another place was looked at (`batch_iff`).
-/

namespace Caudium.Gsession

open Lib (Str Mapping)

variable {ι V : Type}

/-- What the calls read of the module and the request: whether there is a storage, and
`id->misc->session_id`. -/
structure Conn where
  curStorage : Bool
  sessionId : Option Str

/-- The session that is meant, if there is a storage too. -/
def Conn.session (c : Conn) (session_id : Option Str) : Option Str :=
  if c.curStorage then session_id.or c.sessionId else none

/-! ## The calls -/

/-- `store` of one variable. -/
def store (c : Conn) (t : Int) (key : Str) (value : Option V) (reg : Option Str) (m : Memory ι V) :
    Option Int × Memory ι V :=
  match c.session none with
  | none => (some (-1), m)
  | some sid =>
    let r := memoryStore t key value sid reg m
    (r.1.map fun _ => 0, r.2)

/-- An entry of a mapping for `store`, and when it is come to. -/
structure Stored (V : Type) where
  key : Str
  value : Option V
  time : Int

/-- The loop over the entries. -/
def storeEach (sid : Str) (reg : Option Str) : List (Stored V) → Memory ι V →
    Option Int × Memory ι V
  | [], m => (some 0, m)
  | e :: es, m =>
    match memoryStore e.time e.key e.value sid reg m with
    | (none, m) => (none, m)
    | (some _, m) => storeEach sid reg es m

/-- `store` of a mapping. -/
def storeMapping (c : Conn) (es : List (Stored V)) (reg : Option Str) (m : Memory ι V) :
    Option Int × Memory ι V :=
  match c.session none with
  | none => (some (-1), m)
  | some sid => storeEach sid reg es m

/-- `retrieve` and `delete_variable` of the plugin. -/
abbrev Fetch (ι V : Type) :=
  Int → Str → Str → Option Str → Memory ι V → Option (Option V) × Memory ι V

/-- What several names are answered with: 0, or a mapping that is empty or has "key" and "data". -/
inductive Reply (V : Type)
  | zero
  | pairs (p : Option (Str × Option V))

/-- A call for one name. Without a session id, or with 0 for one, the answer is 0. -/
def fetchOne (f : Fetch ι V) (session : Option Str) (t : Int) (key : Str) (reg : Option Str)
    (m : Memory ι V) : Option (Option V) × Memory ι V :=
  match session with
  | none => (some none, m)
  | some sid => f t key sid reg m

/-- The loop over the names, each with the time when it is come to. The plugin gets the region for a
session id, and no region. -/
def fetchEach (f : Fetch ι V) (reg : Option Str) : Option (Str × Option V) → List (Str × Int) →
    Memory ι V → Option (Option (Str × Option V)) × Memory ι V
  | ret, [], m => (some ret, m)
  | _, (k, t) :: ks, m =>
    match fetchOne f reg t k none m with
    | (none, m) => (none, m)
    | (some v, m) => fetchEach f reg (some (k, v)) ks m

/-- A call for several. -/
def fetchArray (f : Fetch ι V) (session : Option Str) (keys : List (Str × Int)) (reg : Option Str)
    (m : Memory ι V) : Option (Reply V) × Memory ι V :=
  match session with
  | none => (some .zero, m)
  | some _ =>
    let r := fetchEach f reg none keys m
    (r.1.map .pairs, r.2)

/-- `retrieve` of one variable. -/
def retrieve (c : Conn) (t : Int) (key : Str) (reg session_id : Option Str) (m : Memory ι V) :
    Option (Option V) × Memory ι V :=
  fetchOne memoryRetrieve (c.session session_id) t key reg m

/-- `retrieve` of an array. -/
def retrieveArray (c : Conn) (keys : List (Str × Int)) (reg session_id : Option Str)
    (m : Memory ι V) : Option (Reply V) × Memory ι V :=
  fetchArray memoryRetrieve (c.session session_id) keys reg m

/-- `delete_variable` of one variable. -/
def deleteVariable (c : Conn) (t : Int) (key : Str) (reg : Option Str) (m : Memory ι V) :
    Option (Option V) × Memory ι V :=
  fetchOne memoryDeleteVariable (c.session none) t key reg m

/-- `delete_variable` of an array. -/
def deleteArray (c : Conn) (keys : List (Str × Int)) (reg : Option Str) (m : Memory ι V) :
    Option (Reply V) × Memory ι V :=
  fetchArray memoryDeleteVariable (c.session none) keys reg m

/-! ## One after another -/

/-- What single calls answer, and leave. The first that throws is the last. -/
def singles {α β : Type} (call : α → Memory ι V → Option β × Memory ι V) :
    List α → Memory ι V → Option (List β) × Memory ι V
  | [], m => (some [], m)
  | a :: as, m =>
    match call a m with
    | (none, m) => (none, m)
    | (some b, m) => ((singles call as m).1.map (b :: ·), (singles call as m).2)

/-- The value that an answer has for a name. -/
def Reply.tells (reply : Reply V) (key : Str) : Option (Option V) :=
  match reply with
  | .zero => some none
  | .pairs none => none
  | .pairs (some (k, v)) => if k = key then some v else none

/-- The value of a variable in a region. -/
def Memory.value (m : Memory ι V) (region sid key : Str) : Option V :=
  (m.data region sid).bind fun data => valueOf data key

/-- Neither throws, and the answer has for each name what the single calls answer. -/
def Agrees (keys : List (Str × Int)) (batch : Option (Reply V) × Memory ι V)
    (single : Option (List (Option V)) × Memory ι V) : Prop :=
  ∃ reply values, batch.1 = some reply ∧ single.1 = some values ∧
    ∀ kv ∈ (keys.map Prod.fst).zip values, reply.tells kv.1 = some kv.2

/-- The batch answers what the single calls answer. -/
def RetrieveAgrees (c : Conn) (keys : List (Str × Int)) (reg session_id : Option Str)
    (m : Memory ι V) : Prop :=
  Agrees keys (retrieveArray c keys reg session_id m)
    (singles (fun kt m => retrieve c kt.2 kt.1 reg session_id m) keys m)

/-- The batch reports and removes what the single calls report and remove. -/
def DeleteAgrees (c : Conn) (keys : List (Str × Int)) (reg : Option Str) (m : Memory ι V) : Prop :=
  Agrees keys (deleteArray c keys reg m)
      (singles (fun kt m => deleteVariable c kt.2 kt.1 reg m) keys m) ∧
    ∀ region sid key, (deleteArray c keys reg m).2.value region sid key =
      (singles (fun kt m => deleteVariable c kt.2 kt.1 reg m) keys m).2.value region sid key

/-- The batch leaves what the single calls leave. -/
def StoreAgrees (c : Conn) (es : List (Stored V)) (reg : Option Str) (m : Memory ι V) : Prop :=
  (storeMapping c es reg m).2 = (singles (fun e m => store c e.time e.key e.value reg m) es m).2

/-- Where the array branches look. -/
def Memory.misplaced (m : Memory ι V) (reg : Option Str) (key : Str) : Option V :=
  reg.bind fun sid => m.value "session".toList sid key

/-- A call for a variable of the session throws: the region is that of the records. -/
def Memory.throwsAt (m : Memory ι V) (reg : Option Str) (sid : Str) : Prop :=
  regionOf reg = sessionsName ∧ m.present sid = true

instance (reg : Option Str) (sid : Str) (m : Memory ι V) : Decidable (m.throwsAt reg sid) :=
  inferInstanceAs (Decidable (_ ∧ _))

/-- No area is without its session. -/
def Memory.Sound (m : Memory ι V) : Prop :=
  ∀ region sid, m.hasArea region sid = true → m.present sid = true

/-- Where `retrieve` of an array is right: there is no name; or there is one, and what the session
of the region's name has under it in "session" is what the session itself has in the region. -/
def RetrieveRight (c : Conn) (keys : List (Str × Int)) (reg session_id : Option Str)
    (m : Memory ι V) : Prop :=
  ∀ sid, c.session session_id = some sid → keys = [] ∨ ∃ k t, keys = [(k, t)] ∧
    ¬ m.throwsAt reg sid ∧ m.misplaced reg k = m.value (regionOf reg) sid k

/-- Where `delete_variable` of an array is: there is no name; or there is one, and there is nothing
to delete in either place, or the two are one. -/
def DeleteRight (c : Conn) (keys : List (Str × Int)) (reg : Option Str) (m : Memory ι V) : Prop :=
  ∀ sid, c.session none = some sid → keys = [] ∨ ∃ k t, keys = [(k, t)] ∧ ¬ m.throwsAt reg sid ∧
    (m.misplaced reg k = none ∧ m.value (regionOf reg) sid k = none ∨
      reg = some "session".toList ∧ sid = "session".toList)

/-- The states that the operations lead to. -/
theorem Kept.sound {used : List Str} {m : Memory ι V} (h : Kept used m) : m.Sound := by
  intro region sid harea
  cases hregion : m.regions.lookup region with
  | none =>
    rw [Memory.hasArea, hregion] at harea
    cases harea
  | some areas => rw [Memory.present, ← h.areas region (by rw [hregion]; rfl), harea]

/-! ## The plugin -/

variable {m : Memory ι V}

theorem data_of_ne {region : Str} (h : region ≠ sessionsName) (sid : Str) :
    m.data region sid = (m.regions.lookup region).bind fun areas => areas.lookup sid := by
  rw [Memory.data, if_neg h]

/-- How a call for a variable goes on. -/
inductive Reaches (m : Memory ι V) (sid : Str) (reg : Option Str) : Prop
  | refused : validateStorage m (regionOf reg) sid = false → m.data (regionOf reg) sid = none →
      ¬ m.throwsAt reg sid → Reaches m sid reg
  | records (s : Session ι) : validateStorage m (regionOf reg) sid = true →
      m.sessions.lookup sid = some s → m.data (regionOf reg) sid = none → m.throwsAt reg sid →
      Reaches m sid reg
  | area (s : Session ι) (data : Data V) : validateStorage m (regionOf reg) sid = true →
      m.sessions.lookup sid = some s → m.data (regionOf reg) sid = some data →
      ¬ m.throwsAt reg sid → Reaches m sid reg

theorem Memory.Sound.reaches (hm : m.Sound) (sid : Str) (reg : Option Str) : Reaches m sid reg := by
  by_cases hregion : regionOf reg = sessionsName
  · have hdata : m.data (regionOf reg) sid = none := by rw [Memory.data, if_pos hregion]
    have hvalid : validateStorage m (regionOf reg) sid = m.present sid := by
      rw [validateStorage, if_pos hregion, Memory.present]
    cases hs : m.sessions.lookup sid with
    | none =>
      have habsent : m.present sid = false := by rw [Memory.present, hs]; rfl
      refine .refused (hvalid.trans habsent) hdata fun h => ?_
      rw [h.2] at habsent
      cases habsent
    | some s =>
      have hthere : m.present sid = true := by rw [Memory.present, hs]; rfl
      exact .records s (hvalid.trans hthere) hs hdata ⟨hregion, hthere⟩
  · have hvalid : validateStorage m (regionOf reg) sid = (m.data (regionOf reg) sid).isSome := by
      rw [validateStorage, if_neg hregion]
    have hnot : ¬ m.throwsAt reg sid := fun h => hregion h.1
    cases hdata : m.data (regionOf reg) sid with
    | none => exact .refused (by rw [hvalid, hdata]; rfl) hdata hnot
    | some data =>
      obtain ⟨s, hs⟩ := Option.isSome_iff_exists.mp (hm _ _ (Memory.data_isSome hdata))
      exact .area s data (by rw [hvalid, hdata]; rfl) hs hdata hnot

/-- What comes of a call that gets as far as it does. -/
theorem Memory.Sound.withData_cases {α : Type} (hm : m.Sound) (t : Int) (sid : Str)
    (reg : Option Str) (refused : Option α)
    (go : Session ι → Memory ι V → Data V → Option α × Memory ι V) :
    (m.data (regionOf reg) sid = none ∧ ¬ m.throwsAt reg sid ∧
      withData t sid reg refused go m = (refused, m)) ∨
    (∃ s, m.data (regionOf reg) sid = none ∧ m.throwsAt reg sid ∧
      withData t sid reg refused go m = (none, m.use sid s t)) ∨
    ∃ s data, m.data (regionOf reg) sid = some data ∧ ¬ m.throwsAt reg sid ∧
      withData t sid reg refused go m = go s (m.use sid s t) data := by
  rw [withData]
  cases hm.reaches sid reg with
  | refused hvalid hdata hnot =>
    rw [hvalid, if_neg Bool.false_ne_true]
    exact .inl ⟨hdata, hnot, rfl⟩
  | records s hvalid hs hdata hthrows =>
    have hdata' : (m.use sid s t).data (regionOf reg) sid = none := hdata
    rw [hvalid, if_pos rfl, hs]
    dsimp only
    rw [hdata']
    exact .inr (.inl ⟨s, hdata, hthrows, rfl⟩)
  | area s data hvalid hs hdata hnot =>
    have hdata' : (m.use sid s t).data (regionOf reg) sid = some data := hdata
    rw [hvalid, if_pos rfl, hs]
    dsimp only
    rw [hdata']
    exact .inr (.inr ⟨s, data, hdata, hnot, rfl⟩)

/-- The answer of a call that tells what is there. -/
theorem Memory.Sound.answer (hm : m.Sound) (t : Int) (key sid : Str) (reg : Option Str)
    {go : Session ι → Memory ι V → Data V → Option (Option V) × Memory ι V}
    (hgo : ∀ s m' data, (go s m' data).1 = some (valueOf data key)) :
    (withData t sid reg (some none) go m).1 =
      if m.throwsAt reg sid then none else some (m.value (regionOf reg) sid key) := by
  rw [Memory.value]
  rcases hm.withData_cases t sid reg (some none) go with ⟨hdata, hnot, heq⟩ |
    ⟨s, hdata, hthrows, heq⟩ | ⟨s, data, hdata, hnot, heq⟩
  · rw [heq, if_neg hnot, hdata]
    rfl
  · rw [heq, if_pos hthrows]
  · rw [heq, if_neg hnot, hdata, hgo]
    rfl

/-- What `memory_retrieve` answers. -/
theorem memoryRetrieve_answer (hm : m.Sound) (t : Int) (key sid : Str) (reg : Option Str) :
    (memoryRetrieve t key sid reg m).1 =
      if m.throwsAt reg sid then none else some (m.value (regionOf reg) sid key) := by
  rw [memoryRetrieve_eq]
  refine hm.answer t key sid reg fun s m' data => ?_
  cases valueOf data key with
  | none => rfl
  | some v => rfl

/-- What `memory_delete_variable` answers. -/
theorem memoryDeleteVariable_answer (hm : m.Sound) (t : Int) (key sid : Str) (reg : Option Str) :
    (memoryDeleteVariable t key sid reg m).1 =
      if m.throwsAt reg sid then none else some (m.value (regionOf reg) sid key) := by
  rw [memoryDeleteVariable_eq]
  refine hm.answer t key sid reg fun s m' data => ?_
  cases valueOf data key with
  | none => rfl
  | some v => rfl

theorem value_setData {region sid : Str} {data : Data V} (h : m.data region sid = some data)
    (data' : Data V) (r s k : Str) : (m.setData region sid data').value r s k =
      if r = region ∧ s = sid then valueOf data' k else m.value r s k := by
  have hne : region ≠ sessionsName := by
    intro he
    rw [Memory.data, if_pos he] at h
    cases h
  rw [data_of_ne hne] at h
  obtain ⟨areas, hareas, hdata⟩ := Option.bind_eq_some_iff.mp h
  have hset : m.setData region sid data' =
      { m with regions := m.regions.insert region (areas.insert sid data') } := by
    rw [Memory.setData, hareas]
  rw [hset, Memory.value, Memory.value]
  by_cases hr : r = region
  · rw [hr, data_of_ne hne, data_of_ne hne, hareas]
    show (((m.regions.insert region _).lookup region).bind _).bind _ = _
    rw [AList.lookup_insert, Option.bind_some, Option.bind_some, Lib.Mapping.lookup_insert_ite]
    by_cases hs : s = sid
    · rw [if_pos hs, if_pos ⟨rfl, hs⟩, Option.bind_some]
    · rw [if_neg hs, if_neg fun h => hs h.2]
  · rw [if_neg fun h => hr h.1, Memory.data, Memory.data]
    split
    next => rfl
    next =>
      show (((m.regions.insert region _).lookup r).bind _).bind _ = _
      rw [AList.lookup_insert_ne hr]

/-- What `memory_delete_variable` leaves: nothing at its place. -/
theorem memoryDeleteVariable_value (hm : m.Sound) (t : Int) (key sid : Str) (reg : Option Str)
    (r s k : Str) : (memoryDeleteVariable t key sid reg m).2.value r s k =
      if r = regionOf reg ∧ s = sid ∧ k = key then none else m.value r s k := by
  have hnothing : m.value (regionOf reg) sid key = none →
      m.value r s k = if r = regionOf reg ∧ s = sid ∧ k = key then none else m.value r s k := by
    intro h
    split
    next he => rw [he.1, he.2.1, he.2.2, h]
    next => rfl
  rw [memoryDeleteVariable_eq]
  rcases hm.withData_cases t sid reg (some none) _ with ⟨hdata, hnot, heq⟩ |
    ⟨s', hdata, hthrows, heq⟩ | ⟨s', data, hdata, hnot, heq⟩
  · rw [heq]
    exact hnothing (by rw [Memory.value, hdata]; rfl)
  · rw [heq]
    exact hnothing (by rw [Memory.value, hdata]; rfl)
  · rw [heq]
    have hvalue : m.value (regionOf reg) sid key = valueOf data key := by
      rw [Memory.value, hdata, Option.bind_some]
    cases hv : valueOf data key with
    | none => exact hnothing (hvalue.trans hv)
    | some v =>
      have hdata' : (m.use sid s' t).data (regionOf reg) sid = some data := hdata
      refine (value_setData hdata' (data.erase key) r s k).trans ?_
      by_cases hplace : r = regionOf reg ∧ s = sid
      · rw [if_pos hplace, valueOf, Lib.Mapping.lookup_erase_ite]
        by_cases hk : k = key
        · rw [if_pos hk, if_pos ⟨hplace.1, hplace.2, hk⟩]
          rfl
        · rw [if_neg hk, if_neg fun h => hk h.2.2, hplace.1, hplace.2, Memory.value, hdata]
          rfl
      · rw [if_neg hplace, if_neg fun h => hplace ⟨h.1, h.2.1⟩]
        rfl

/-! ## The array branches -/

variable {f : Fetch ι V} {reg : Option Str}

/-- The last name is left. -/
theorem fetchEach_last (keys : List (Str × Int)) : ∀ {ret : Option (Str × Option V)}
    {m : Memory ι V} {r : Option (Str × Option V)}, (fetchEach f reg ret keys m).1 = some r →
      keys ≠ [] → ∃ k v, r = some (k, v) ∧ k ∈ keys.map Prod.fst := by
  induction keys with
  | nil => exact fun _ hne => absurd rfl hne
  | cons kt keys ih =>
    obtain ⟨k, t⟩ := kt
    intro ret m r h _
    rw [fetchEach] at h
    split at h
    next => cases h
    next v m' _ =>
      cases keys with
      | nil => exact ⟨k, v, (Option.some.inj h).symm, List.mem_cons_self⟩
      | cons kt' keys =>
        obtain ⟨k', v', hr, hk'⟩ := ih h (List.cons_ne_nil _ _)
        exact ⟨k', v', hr, List.mem_cons_of_mem k hk'⟩

/-- Of two names the first is not told. -/
theorem not_agrees {k k' : Str} {t t' : Int} {keys : List (Str × Int)}
    (hkeys : (((k, t) :: (k', t') :: keys).map Prod.fst).Nodup) (sid : Str)
    (call : Str × Int → Memory ι V → Option (Option V) × Memory ι V) :
    ¬ Agrees ((k, t) :: (k', t') :: keys) (fetchArray f (some sid) ((k, t) :: (k', t') :: keys) reg m)
      (singles call ((k, t) :: (k', t') :: keys) m) := by
  intro ⟨reply, values, hreply, hvalues, htells⟩
  obtain ⟨ret, hret, rfl⟩ := Option.map_eq_some_iff.mp hreply
  rw [fetchEach] at hret
  split at hret
  next => cases hret
  next v m' _ =>
    obtain ⟨last, v', rfl, hlast⟩ := fetchEach_last _ hret (List.cons_ne_nil _ _)
    rw [singles] at hvalues
    split at hvalues
    next => cases hvalues
    next w m'' _ =>
      obtain ⟨rest, -, rfl⟩ := Option.map_eq_some_iff.mp hvalues
      have hfirst := htells (k, w) List.mem_cons_self
      rw [Reply.tells] at hfirst
      split at hfirst
      next he =>
        rw [List.map_cons, List.nodup_cons] at hkeys
        exact hkeys.1 (he ▸ hlast)
      next => cases hfirst

theorem agrees_nil (sid : Str) (call : Str × Int → Memory ι V → Option (Option V) × Memory ι V) :
    Agrees [] (fetchArray f (some sid) [] reg m) (singles call [] m) :=
  ⟨_, _, rfl, rfl, nofun⟩

/-- Without a session both answer 0. -/
theorem singles_zero (keys : List (Str × Int)) (t : Str × Int → Int) (key : Str × Int → Str) :
    singles (fun kt m => fetchOne f none (t kt) (key kt) reg m) keys m =
      (some (keys.map fun _ => none), m) := by
  induction keys with
  | nil => rfl
  | cons kt keys ih =>
    rw [singles]
    show ((singles _ keys m).1.map _, (singles _ keys m).2) = _
    rw [ih]
    rfl

theorem agrees_zero (keys : List (Str × Int)) : Agrees keys (fetchArray f none keys reg m)
    (singles (fun kt m => fetchOne f none kt.2 kt.1 reg m) keys m) := by
  refine ⟨_, _, rfl, congrArg Prod.fst (singles_zero keys Prod.snd Prod.fst), fun kv hkv => ?_⟩
  obtain ⟨_, _, he⟩ := List.mem_map.mp (List.of_mem_zip hkv).2
  rw [← he]
  rfl

/-! ## Where they agree -/

/-- For one name both sides make one call. -/
theorem agrees_one {k : Str} {t : Int} {sid : Str} {v w : Option (Option V)}
    (hv : (fetchOne f reg t k none m).1 = v) (hw : (fetchOne f (some sid) t k reg m).1 = w) :
    Agrees [(k, t)] (fetchArray f (some sid) [(k, t)] reg m)
        (singles (fun kt m => fetchOne f (some sid) kt.2 kt.1 reg m) [(k, t)] m) ↔
      ∃ x, v = some x ∧ w = some x := by
  have hbatch : (fetchArray f (some sid) [(k, t)] reg m).1 =
      v.map fun x => Reply.pairs (some (k, x)) := by
    rw [← hv]
    show ((fetchEach f reg none [(k, t)] m).1.map _) = _
    rw [fetchEach]
    split
    next he => rw [he]; rfl
    next he => rw [he]; rfl
  have hsingle : (singles (fun kt m => fetchOne f (some sid) kt.2 kt.1 reg m) [(k, t)] m).1 =
      w.map fun x => [x] := by
    rw [← hw, singles]
    split
    next he =>
      have he' : fetchOne f (some sid) t k reg m = _ := he
      rw [he']
      rfl
    next he =>
      have he' : fetchOne f (some sid) t k reg m = _ := he
      rw [he']
      rfl
  constructor
  · intro ⟨reply, values, hreply, hvalues, htells⟩
    rw [hbatch] at hreply
    rw [hsingle] at hvalues
    obtain ⟨x, hx, rfl⟩ := Option.map_eq_some_iff.mp hreply
    obtain ⟨y, hy, rfl⟩ := Option.map_eq_some_iff.mp hvalues
    have hfirst := htells (k, y) List.mem_cons_self
    rw [Reply.tells, if_pos rfl] at hfirst
    exact ⟨x, hx, by rw [hy, Option.some.inj hfirst]⟩
  · intro ⟨x, hx, hy⟩
    refine ⟨_, _, by rw [hbatch, hx]; rfl, by rw [hsingle, hy]; rfl, fun kv hkv => ?_⟩
    obtain rfl := List.mem_singleton.mp hkv
    exact if_pos rfl

theorem throwsAt_legacy (m : Memory ι V) (sid : Str) : ¬ m.throwsAt none sid := by
  intro h
  exact absurd h.1 (by decide)

theorem retrieve_misplaced (hm : m.Sound) (reg : Option Str) (t : Int) (k : Str) :
    (fetchOne memoryRetrieve reg t k none m).1 = some (m.misplaced reg k) := by
  cases reg with
  | none => rfl
  | some sid =>
    show (memoryRetrieve t k sid none m).1 = _
    rw [memoryRetrieve_answer hm, if_neg (throwsAt_legacy m sid)]
    rfl

theorem delete_misplaced (hm : m.Sound) (reg : Option Str) (t : Int) (k : Str) :
    (fetchOne memoryDeleteVariable reg t k none m).1 = some (m.misplaced reg k) := by
  cases reg with
  | none => rfl
  | some sid =>
    show (memoryDeleteVariable t k sid none m).1 = _
    rw [memoryDeleteVariable_answer hm, if_neg (throwsAt_legacy m sid)]
    rfl

/-- **`retrieve`** of an array. -/
theorem retrieve_iff (hm : m.Sound) (c : Conn) {keys : List (Str × Int)}
    (hkeys : (keys.map Prod.fst).Nodup) (reg session_id : Option Str) :
    RetrieveAgrees c keys reg session_id m ↔ RetrieveRight c keys reg session_id m := by
  rw [RetrieveAgrees, RetrieveRight]
  show Agrees keys (fetchArray memoryRetrieve (c.session session_id) keys reg m)
    (singles (fun kt m => fetchOne memoryRetrieve (c.session session_id) kt.2 kt.1 reg m) keys m) ↔ _
  cases c.session session_id with
  | none => exact iff_of_true (agrees_zero keys) nofun
  | some sid =>
    match keys, hkeys with
    | [], _ => exact iff_of_true (agrees_nil sid _) fun _ _ => .inl rfl
    | [(k, t)], _ =>
      rw [agrees_one (retrieve_misplaced hm reg t k) (memoryRetrieve_answer hm t k sid reg)]
      constructor
      · intro ⟨x, hx, hy⟩ sid' hsid
        obtain rfl := Option.some.inj hsid
        split at hy
        next => cases hy
        next hnot =>
          refine .inr ⟨k, t, rfl, hnot, ?_⟩
          rw [Option.some.inj hx, Option.some.inj hy]
      · intro h
        obtain h | ⟨k', t', he, hnot, hsame⟩ := h sid rfl
        · cases h
        · obtain ⟨rfl, rfl⟩ := Prod.mk.inj (List.cons.inj he).1
          exact ⟨_, rfl, by rw [if_neg hnot, hsame]⟩
    | (k, t) :: (k', t') :: keys, hkeys =>
      refine iff_of_false (not_agrees hkeys sid _) fun h => ?_
      obtain h | ⟨_, _, he, _⟩ := h sid rfl
      · cases h
      · cases he

theorem fetchArray_left (sid k : Str) (t : Int) :
    (fetchArray f (some sid) [(k, t)] reg m).2 = (fetchOne f reg t k none m).2 := by
  show (fetchEach f reg none [(k, t)] m).2 = _
  rw [fetchEach]
  split
  next he => rw [he]
  next he => rw [he]; rfl

theorem singles_left {α β : Type} (call : α → Memory ι V → Option β × Memory ι V) (a : α) :
    (singles call [a] m).2 = (call a m).2 := by
  rw [singles]
  split
  next he => rw [he]
  next he => rw [he]; rfl

/-- What the array branch removes. -/
theorem delete_misplaced_value (hm : m.Sound) (reg : Option Str) (t : Int) (k r s k' : Str) :
    (fetchOne memoryDeleteVariable reg t k none m).2.value r s k' =
      if r = "session".toList ∧ reg = some s ∧ k' = k then none else m.value r s k' := by
  cases reg with
  | none =>
    rw [if_neg fun h => nomatch h.2.1]
    rfl
  | some sid =>
    show (memoryDeleteVariable t k sid none m).2.value r s k' = _
    rw [memoryDeleteVariable_value hm]
    refine if_congr (and_congr_right fun _ => and_congr_left fun _ => ?_) rfl rfl
    rw [Option.some_inj]
    exact eq_comm

/-- The same is removed if there is nothing in either place, or they are one. -/
theorem removed_iff (m : Memory ι V) (reg : Option Str) (sid k : Str) :
    (m.misplaced reg k = m.value (regionOf reg) sid k ∧ ∀ r s k',
      (if r = "session".toList ∧ reg = some s ∧ k' = k then none else m.value r s k') =
        if r = regionOf reg ∧ s = sid ∧ k' = k then none else m.value r s k') ↔
      m.misplaced reg k = none ∧ m.value (regionOf reg) sid k = none ∨
        reg = some "session".toList ∧ sid = "session".toList := by
  constructor
  · intro ⟨hanswer, hleft⟩
    by_cases hone : reg = some "session".toList ∧ sid = "session".toList
    · exact .inr hone
    · have hapart : ¬ (regionOf reg = "session".toList ∧ reg = some sid ∧ k = k) := by
        intro ⟨hregion, hreg, _⟩
        rw [hreg] at hregion
        have hsid : sid = "session".toList := hregion
        exact hone ⟨by rw [hreg, hsid], hsid⟩
      have hplace := hleft (regionOf reg) sid k
      rw [if_neg hapart, if_pos ⟨rfl, rfl, rfl⟩] at hplace
      exact .inl ⟨hanswer.trans hplace, hplace⟩
  · intro h
    obtain ⟨hmis, hval⟩ | ⟨rfl, rfl⟩ := h
    · refine ⟨hmis.trans hval.symm, fun r s k' => ?_⟩
      have hfirst : (if r = "session".toList ∧ reg = some s ∧ k' = k then none
          else m.value r s k') = m.value r s k' := by
        split
        next he =>
          rw [Memory.misplaced, he.2.1, Option.bind_some] at hmis
          rw [he.1, he.2.2, hmis]
        next => rfl
      rw [hfirst]
      split
      next he => rw [he.1, he.2.1, he.2.2, hval]
      next => rfl
    · refine ⟨rfl, fun r s k' => if_congr ?_ rfl rfl⟩
      refine and_congr_right fun _ => and_congr_left fun _ => ?_
      rw [Option.some_inj]
      exact eq_comm

/-- **`delete_variable`** of an array. -/
theorem delete_iff (hm : m.Sound) (c : Conn) {keys : List (Str × Int)}
    (hkeys : (keys.map Prod.fst).Nodup) (reg : Option Str) :
    DeleteAgrees c keys reg m ↔ DeleteRight c keys reg m := by
  have hunfold : DeleteAgrees c keys reg m ↔
      Agrees keys (fetchArray memoryDeleteVariable (c.session none) keys reg m)
          (singles (fun kt m => fetchOne memoryDeleteVariable (c.session none) kt.2 kt.1 reg m)
            keys m) ∧
        ∀ r s k', (fetchArray memoryDeleteVariable (c.session none) keys reg m).2.value r s k' =
          (singles (fun kt m => fetchOne memoryDeleteVariable (c.session none) kt.2 kt.1 reg m)
            keys m).2.value r s k' := Iff.rfl
  rw [hunfold, DeleteRight]
  cases c.session none with
  | none =>
    refine iff_of_true ⟨agrees_zero keys, fun r s k' => ?_⟩ nofun
    rw [singles_zero keys Prod.snd Prod.fst]
    rfl
  | some sid =>
    match keys, hkeys with
    | [], _ => exact iff_of_true ⟨agrees_nil sid _, fun _ _ _ => rfl⟩ fun _ _ => .inl rfl
    | [(k, t)], _ =>
      rw [agrees_one (delete_misplaced hm reg t k) (memoryDeleteVariable_answer hm t k sid reg)]
      have hvalues : ∀ r s k',
          ((fetchArray memoryDeleteVariable (some sid) [(k, t)] reg m).2.value r s k' =
            (singles (fun kt m => fetchOne memoryDeleteVariable (some sid) kt.2 kt.1 reg m)
              [(k, t)] m).2.value r s k') ↔
          (if r = "session".toList ∧ reg = some s ∧ k' = k then none else m.value r s k') =
            if r = regionOf reg ∧ s = sid ∧ k' = k then none else m.value r s k' := by
        intro r s k'
        rw [fetchArray_left, singles_left, delete_misplaced_value hm]
        show _ = (memoryDeleteVariable t k sid reg m).2.value r s k' ↔ _
        rw [memoryDeleteVariable_value hm]
      simp only [hvalues]
      constructor
      · intro ⟨⟨x, hx, hy⟩, hleft⟩ sid' hsid
        obtain rfl := Option.some.inj hsid
        split at hy
        next => cases hy
        next hnot =>
          have hanswer := (Option.some.inj hx).trans (Option.some.inj hy).symm
          exact .inr ⟨k, t, rfl, hnot, (removed_iff m reg sid k).mp ⟨hanswer, hleft⟩⟩
      · intro h
        obtain h | ⟨k', t', he, hnot, hplace⟩ := h sid rfl
        · cases h
        · obtain ⟨rfl, rfl⟩ := Prod.mk.inj (List.cons.inj he).1
          obtain ⟨hanswer, hleft⟩ := (removed_iff m reg sid k).mpr hplace
          exact ⟨⟨_, rfl, by rw [if_neg hnot, hanswer]⟩, hleft⟩
    | (k, t) :: (k', t') :: keys, hkeys =>
      refine iff_of_false (fun h => not_agrees hkeys sid _ h.1) fun h => ?_
      obtain h | ⟨_, _, he, _⟩ := h sid rfl
      · cases h
      · cases he

/-- **`store`** of a mapping. -/
theorem store_agrees (c : Conn) (es : List (Stored V)) (reg : Option Str) (m : Memory ι V) :
    StoreAgrees c es reg m := by
  rw [StoreAgrees, storeMapping]
  cases hsession : c.session none with
  | none =>
    induction es with
    | nil => rfl
    | cons e es ih =>
      rw [singles, store, hsession]
      exact ih
  | some sid =>
    show (storeEach sid reg es m).2 = _
    induction es generalizing m with
    | nil => rfl
    | cons e es ih =>
      rw [storeEach, singles, store, hsession]
      dsimp only
      cases hanswer : memoryStore e.time e.key e.value sid reg m with
      | mk answer m' =>
        cases answer with
        | none => rfl
        | some _ => exact ih m'

/-- **Several variables at once**: where that comes to the same as one after another. -/
theorem batch_iff (hm : m.Sound) (c : Conn) {keys : List (Str × Int)}
    (hkeys : (keys.map Prod.fst).Nodup) (es : List (Stored V)) (reg session_id : Option Str) :
    (RetrieveAgrees c keys reg session_id m ↔ RetrieveRight c keys reg session_id m) ∧
      (DeleteAgrees c keys reg m ↔ DeleteRight c keys reg m) ∧ StoreAgrees c es reg m :=
  ⟨retrieve_iff hm c hkeys reg session_id, delete_iff hm c hkeys reg, store_agrees c es reg m⟩

/-! ## A variable that is not found -/

/-- A session with a variable. -/
def withVariable : Memory Unit Unit :=
  (memoryStore 1 ['k'] (some ()) ['s'] none (memorySetup 0 600 (some ['s']) .empty)).2

def visitor : Conn := ⟨true, some ['s']⟩

theorem withVariable_sound : withVariable.Sound := by
  have hset : Kept [] (setUp (Memory.empty : Memory Unit Unit)) := (kept_empty []).setUp
  have hsetup := hset.setup (session_setUp (kept_empty [])) 0 600 ['s']
  exact (hsetup.leaves (memoryStore_leaves 1 ['k'] (some ()) ['s'] none _)).sound

theorem batch_iff_visitor :
    (RetrieveAgrees visitor [(['k'], 2)] none none withVariable ↔
        RetrieveRight visitor [(['k'], 2)] none none withVariable) ∧
      (DeleteAgrees visitor [(['k'], 2)] none withVariable ↔
        DeleteRight visitor [(['k'], 2)] none withVariable) ∧
      StoreAgrees visitor [⟨['k'], none, 3⟩] none withVariable :=
  batch_iff withVariable_sound visitor (by decide) _ none none

/-- The variable is there, and not found by its name in an array. -/
theorem variable_not_found : ¬ RetrieveAgrees visitor [(['k'], 2)] none none withVariable := by
  intro ⟨reply, values, hreply, hvalues, htells⟩
  have hfirst := htells (['k'], some ())
  rw [← Option.some.inj hreply, ← Option.some.inj hvalues] at hfirst
  revert hfirst
  decide

end Caudium.Gsession
