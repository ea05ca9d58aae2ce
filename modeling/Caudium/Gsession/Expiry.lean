import Caudium.Gsession.Memory

/-!
# Expiry with hooks

A run of `memory_expire_old` is a sequence of turns, one for each time the walk comes to a session
(`Walk`). Between two turns a hook may have changed the storage. A hook that uses a session makes it
young again, so the walk passes by; and an error of a hook ends the walk with the lock held. Where
neither happens the run does all it is for (`expireOld_iff`).
-/

namespace Caudium.Gsession

open Lib (Str Mapping)

variable {ι V : Type}

/-- Nothing is left of the session. -/
def Memory.Gone (m : Memory ι V) (sid : Str) : Prop :=
  m.present sid = false ∧ ∀ region, m.hasArea region sid = false

variable {m m' : Memory ι V} {sid : Str}

/-! ## Acts -/

theorem Used.present {t : Int} {s : Session ι} {sid' : Str} (h : Used t sid' s m m') :
    m'.present sid = m.present sid := by
  obtain ⟨s', hsessions, -⟩ := h.sessions
  rw [Memory.present, Memory.present, hsessions, Lib.Mapping.lookup_insert_ite]
  split
  next he => rw [he, h.there]; rfl
  next => rfl

/-- A call for variables neither makes nor removes sessions. -/
theorem Leaves.present {t : Int} {sid' : Str} {reg : Option Str} (h : Leaves t sid' reg m m') :
    m'.present sid = m.present sid ∧ ∀ region, m'.hasArea region sid = m.hasArea region sid := by
  rw [Leaves] at h
  split at h
  next =>
    obtain ⟨s, hused⟩ := h
    exact ⟨hused.present, fun region => hused.areas region sid⟩
  next => rw [h]; exact ⟨rfl, fun _ => rfl⟩

theorem present_delete (m : Memory ι V) (sid' : Str) :
    (memoryDeleteSession sid' m).present sid = (m.present sid && decide (sid ≠ sid')) := by
  rw [Memory.present, Memory.present, sessions_delete]
  split
  next he => simp [he]
  next he => simp [he]

theorem Gone.delete (h : m.Gone sid) (sid' : Str) : (memoryDeleteSession sid' m).Gone sid := by
  cases hs : m.sessions.lookup sid' with
  | none => rwa [memoryDeleteSession_of_none hs]
  | some s =>
    refine ⟨?_, fun region => ?_⟩
    · rw [present_delete, h.1, Bool.false_and]
    · rw [hasArea_delete hs, h.2, Bool.false_and]

/-- A session that is there is removed from everywhere. -/
theorem gone_delete (h : m.present sid = true) : (memoryDeleteSession sid m).Gone sid := by
  obtain ⟨s, hs⟩ := Option.isSome_iff_exists.mp h
  refine ⟨?_, fun region => ?_⟩
  · rw [present_delete]
    simp
  · rw [hasArea_delete hs]
    simp

/-- What an act leaves of the sessions. -/
theorem Act.run_cases (a : Act V) (m : Memory ι V) :
    (∃ sid, a = .deleteSession sid) ∨
      ∀ sid, (a.run m).present sid = m.present sid ∧
        ∀ region, (a.run m).hasArea region sid = m.hasArea region sid := by
  cases a with
  | store t key value sid reg =>
    exact .inr fun _ => (memoryStore_leaves t key value sid reg m).present
  | retrieve t key sid reg => exact .inr fun _ => (memoryRetrieve_leaves t key sid reg m).present
  | deleteVariable t key sid reg =>
    exact .inr fun _ => (memoryDeleteVariable_leaves t key sid reg m).present
  | deleteSession sid => exact .inl ⟨sid, rfl⟩

theorem Gone.act (h : m.Gone sid) (a : Act V) : (a.run m).Gone sid := by
  obtain ⟨sid', rfl⟩ | hsame := a.run_cases m
  · exact Gone.delete h sid'
  · exact ⟨(hsame sid).1.trans h.1, fun region => ((hsame sid).2 region).trans (h.2 region)⟩

theorem absent_act (h : m.present sid = false) (a : Act V) : (a.run m).present sid = false := by
  obtain ⟨sid', rfl⟩ | hsame := a.run_cases m
  · show (memoryDeleteSession sid' m).present sid = false
    rw [present_delete, h, Bool.false_and]
  · exact (hsame sid).1.trans h

/-- Only its deletion removes a session, and that removes all of it. -/
theorem present_act (h : m.present sid = true) (a : Act V) :
    a = .deleteSession sid ∧ (a.run m).Gone sid ∨ (a.run m).present sid = true := by
  obtain ⟨sid', rfl⟩ | hsame := a.run_cases m
  · by_cases he : sid = sid'
    · rw [← he]
      exact .inl ⟨rfl, gone_delete h⟩
    · refine .inr ?_
      show (memoryDeleteSession sid' m).present sid = true
      rw [present_delete, h, decide_eq_true he]
      rfl
  · exact .inr ((hsame sid).1.trans h)

/-- The acts of a hook. -/
def runActs (acts : List (Act V)) (m : Memory ι V) : Memory ι V :=
  acts.foldl (fun m act => act.run m) m

theorem Gone.acts (acts : List (Act V)) : ∀ {m : Memory ι V}, m.Gone sid →
    (runActs acts m).Gone sid := by
  induction acts with
  | nil => exact fun h => h
  | cons a acts ih => exact fun h => ih (Gone.act h a)

theorem absent_acts (acts : List (Act V)) : ∀ {m : Memory ι V}, m.present sid = false →
    (runActs acts m).present sid = false := by
  induction acts with
  | nil => exact fun h => h
  | cons a acts ih => exact fun h => ih (absent_act h a)

theorem present_acts (acts : List (Act V)) : ∀ {m : Memory ι V}, m.present sid = true →
    Act.deleteSession sid ∈ acts ∧ (runActs acts m).Gone sid ∨
      Act.deleteSession sid ∉ acts ∧ (runActs acts m).present sid = true := by
  induction acts with
  | nil => exact fun h => .inr ⟨List.not_mem_nil, h⟩
  | cons a acts ih =>
    intro m h
    rw [List.mem_cons, not_or]
    obtain ⟨rfl, hgone⟩ | hthere := present_act h a
    · exact .inl ⟨.inl rfl, Gone.acts acts hgone⟩
    · obtain ⟨hmem, hgone⟩ | ⟨hnot, hpresent⟩ := ih hthere
      · exact .inl ⟨.inr hmem, hgone⟩
      · by_cases ha : Act.deleteSession sid = a
        · refine .inl ⟨.inl ha, Gone.acts acts ?_⟩
          rw [← ha]
          exact gone_delete h
        · exact .inr ⟨⟨ha, hnot⟩, hpresent⟩

/-! ## Turns -/

section Turns

variable (hooks : Hooks ι V) (curtime : Int)

/-- The hook that is called when the walk comes to a session. -/
def hookAt (turn : Memory ι V × Str) : Option ι :=
  (turn.1.sessions.lookup turn.2).bind fun s =>
    if s.exptime < curtime - s.lastused then s.exphook else none

/-- What it does. -/
def calledAt (turn : Memory ι V × Str) : Called V :=
  match hookAt curtime turn with
  | some hook => hooks turn.2 hook turn.1
  | none => ⟨[], false⟩

/-- The turns among the sessions of a region. -/
def sidTurns : Memory ι V → List Str → List (Memory ι V × Str)
  | _, [] => []
  | m, sid :: sids =>
    (m, sid) :: if (oldVisit hooks curtime m sid).2 then
        sidTurns (oldVisit hooks curtime m sid).1 sids
      else []

/-- The turns of the whole walk. -/
def regionTurns (o : Orders) : Memory ι V → List Str → List (Memory ι V × Str)
  | _, [] => []
  | m, region :: regions =>
    let sids := (o.sessions region).list (sidsOf m region)
    sidTurns hooks curtime m sids ++
      if (oldSids hooks curtime m sids).2 then
        regionTurns o (oldSids hooks curtime m sids).1 regions
      else []

/-- The turns lead from a state to a state, the last one perhaps to an error. -/
inductive Walk : Memory ι V → List (Memory ι V × Str) → Memory ι V × Bool → Prop
  | done (m₀ : Memory ι V) : Walk m₀ [] (m₀, true)
  | raised {m₀ m₁ : Memory ι V} {sid₀ : Str} : oldVisit hooks curtime m₀ sid₀ = (m₁, false) →
      Walk m₀ [(m₀, sid₀)] (m₁, false)
  | visit {m₀ m₁ : Memory ι V} {sid₀ : Str} {turns : List (Memory ι V × Str)}
      {r : Memory ι V × Bool} : oldVisit hooks curtime m₀ sid₀ = (m₁, true) → Walk m₁ turns r →
      Walk m₀ ((m₀, sid₀) :: turns) r

end Turns

variable {hooks : Hooks ι V} {curtime : Int}

theorem Walk.append {turns turns' : List (Memory ι V × Str)} {r r' : Memory ι V × Bool}
    (h : Walk hooks curtime m turns r) (hok : r.2 = true) (h' : Walk hooks curtime r.1 turns' r') :
    Walk hooks curtime m (turns ++ turns') r' := by
  induction h with
  | done m => exact h'
  | raised _ => cases hok
  | visit hvisit _ ih => exact .visit hvisit (ih hok h')

section

variable (hooks : Hooks ι V) (curtime : Int)

theorem walk_sids (sids : List Str) : ∀ m : Memory ι V,
    Walk hooks curtime m (sidTurns hooks curtime m sids) (oldSids hooks curtime m sids) := by
  induction sids with
  | nil => exact fun m => .done m
  | cons sid sids ih =>
    intro m
    rw [sidTurns, oldSids]
    split
    next hok => exact .visit (Prod.ext rfl hok) (ih _)
    next hok =>
      have hpair : oldVisit hooks curtime m sid = ((oldVisit hooks curtime m sid).1, false) :=
        Prod.ext rfl (eq_false_of_ne_true hok)
      rw [hpair]
      exact .raised hpair

theorem walk_regions (o : Orders) (regions : List Str) : ∀ m : Memory ι V,
    Walk hooks curtime m (regionTurns hooks curtime o m regions)
      (oldRegions hooks o curtime m regions) := by
  induction regions with
  | nil => exact fun m => .done m
  | cons region regions ih =>
    intro m
    have hsids := walk_sids hooks curtime ((o.sessions region).list (sidsOf m region)) m
    rw [regionTurns, oldRegions]
    split
    next hok => exact hsids.append hok (ih _)
    next => rwa [List.append_nil]

end

theorem calledAt_of_expired {s : Session ι} (hs : m.sessions.lookup sid = some s)
    (hexp : s.exptime < curtime - s.lastused) :
    calledAt hooks curtime (m, sid) = callHook hooks sid s m := by
  have hhook : hookAt curtime (m, sid) = s.exphook := by
    rw [hookAt, hs]
    exact if_pos hexp
  rw [calledAt, hhook]
  unfold callHook
  cases s.exphook with
  | none => rfl
  | some hook => rfl

/-- One turn: a session that is not expired is passed by; else its hook is called, and it is
deleted if that does not raise. -/
theorem oldVisit_eq (m : Memory ι V) (sid : Str) : oldVisit hooks curtime m sid =
    if expired curtime m sid then
      if (calledAt hooks curtime (m, sid)).raises then
        (runActs (calledAt hooks curtime (m, sid)).acts m, false)
      else (memoryDeleteSession sid (runActs (calledAt hooks curtime (m, sid)).acts m), true)
    else (m, true) := by
  rw [oldVisit, expired]
  cases hs : m.sessions.lookup sid with
  | none => rfl
  | some s =>
    dsimp only
    by_cases hexp : s.exptime < curtime - s.lastused
    · rw [if_pos hexp, if_pos (decide_eq_true hexp), calledAt_of_expired hs hexp]
      rfl
    · rw [if_neg hexp, if_neg (by simpa using hexp)]

theorem present_of_expired (h : expired curtime m sid = true) : m.present sid = true := by
  rw [expired] at h
  rw [Memory.present]
  split at h
  next hs => rw [hs]; rfl
  next => cases h

/-- Without expiry nothing is called. -/
theorem calledAt_of_not_expired (h : expired curtime m sid = false) :
    calledAt hooks curtime (m, sid) = ⟨[], false⟩ := by
  have hnone : hookAt curtime (m, sid) = none := by
    rw [expired] at h
    rw [hookAt]
    split at h
    next hs =>
      rw [hs]
      exact if_neg (of_decide_eq_false h)
    next hs => rw [hs]; rfl
  rw [calledAt, hnone]

/-- The turn ends the walk exactly if its hook raises. -/
theorem oldVisit_ok (m : Memory ι V) (sid : Str) :
    (oldVisit hooks curtime m sid).2 = !(calledAt hooks curtime (m, sid)).raises := by
  rw [oldVisit_eq]
  cases hexp : expired curtime m sid with
  | true =>
    rw [if_pos rfl]
    cases (calledAt hooks curtime (m, sid)).raises with
    | true => rfl
    | false => rfl
  | false =>
    rw [calledAt_of_not_expired hexp]
    rfl

/-- What a turn leaves of another session, or of its own. -/
inductive Outcome (hooks : Hooks ι V) (curtime : Int) (m m' : Memory ι V) (sid₀ sid : Str) : Prop
  /-- Its turn has come, and it is removed. -/
  | removed : sid₀ = sid → expired curtime m sid = true →
      (calledAt hooks curtime (m, sid)).raises = false → m'.Gone sid →
      Outcome hooks curtime m m' sid₀ sid
  /-- A hook has deleted it. -/
  | deleted : Act.deleteSession sid ∈ (calledAt hooks curtime (m, sid₀)).acts → m'.Gone sid →
      Outcome hooks curtime m m' sid₀ sid
  | stays : Act.deleteSession sid ∉ (calledAt hooks curtime (m, sid₀)).acts →
      (sid₀ = sid → expired curtime m sid = true →
        (calledAt hooks curtime (m, sid)).raises = true) → m'.present sid = true → Outcome hooks curtime m m' sid₀ sid

theorem oldVisit_outcome (h : m.present sid = true) (sid₀ : Str) :
    Outcome hooks curtime m (oldVisit hooks curtime m sid₀).1 sid₀ sid := by
  rw [oldVisit_eq]
  cases hexp : expired curtime m sid₀ with
  | false =>
    refine .stays ?_ (fun he hsid => ?_) h
    · rw [calledAt_of_not_expired hexp]
      exact List.not_mem_nil
    · rw [← he, hexp] at hsid
      cases hsid
  | true =>
    rw [if_pos rfl]
    obtain ⟨hmem, hgone⟩ | ⟨hnot, hpresent⟩ :=
      present_acts (calledAt hooks curtime (m, sid₀)).acts h
    · cases (calledAt hooks curtime (m, sid₀)).raises with
      | true => exact .deleted hmem hgone
      | false => exact .deleted hmem (Gone.delete hgone sid₀)
    · cases hraises : (calledAt hooks curtime (m, sid₀)).raises with
      | true => exact .stays hnot (fun he _ => by rw [← he]; exact hraises) hpresent
      | false =>
        rw [if_neg Bool.false_ne_true]
        by_cases he : sid₀ = sid
        · rw [he] at hexp hraises hpresent ⊢
          exact .removed rfl hexp hraises (gone_delete hpresent)
        · refine .stays hnot (fun hsid => absurd hsid he) ?_
          show (memoryDeleteSession sid₀ _).present sid = true
          rw [present_delete, hpresent, decide_eq_true (Ne.symm he)]
          rfl

theorem Gone.visit (h : m.Gone sid) (sid₀ : Str) : (oldVisit hooks curtime m sid₀).1.Gone sid := by
  have hacts := Gone.acts (calledAt hooks curtime (m, sid₀)).acts h
  rw [oldVisit_eq]
  split_ifs
  · exact hacts
  · exact Gone.delete hacts sid₀
  · exact h

theorem absent_visit (h : m.present sid = false) (sid₀ : Str) :
    (oldVisit hooks curtime m sid₀).1.present sid = false := by
  have hacts := absent_acts (calledAt hooks curtime (m, sid₀)).acts h
  rw [oldVisit_eq]
  split_ifs
  · exact hacts
  · rw [present_delete, hacts, Bool.false_and]
  · exact h

/-! ## The whole walk -/

variable {turns : List (Memory ι V × Str)} {r : Memory ι V × Bool}

/-- The session has had a turn at which it was expired and its hook did not raise. -/
def RemovedIn (hooks : Hooks ι V) (curtime : Int) (turns : List (Memory ι V × Str)) (sid : Str) :
    Prop :=
  ∃ turn ∈ turns, turn.2 = sid ∧ expired curtime turn.1 sid = true ∧
    (calledAt hooks curtime turn).raises = false

/-- A hook that was called has deleted the session. -/
def DeletedIn (hooks : Hooks ι V) (curtime : Int) (turns : List (Memory ι V × Str)) (sid : Str) :
    Prop :=
  ∃ turn ∈ turns, Act.deleteSession sid ∈ (calledAt hooks curtime turn).acts

/-- The walk comes to its end exactly if no hook raises. -/
theorem Walk.ok_iff (h : Walk hooks curtime m turns r) :
    r.2 = true ↔ ∀ turn ∈ turns, (calledAt hooks curtime turn).raises = false := by
  induction h with
  | done m => simp
  | @raised m₀ m₁ sid₀ hvisit =>
    have hok := @oldVisit_ok _ _ hooks curtime m₀ sid₀
    rw [hvisit] at hok
    simpa using hok
  | @visit m₀ m₁ sid₀ turns r hvisit _ ih =>
    have hok := @oldVisit_ok _ _ hooks curtime m₀ sid₀
    rw [hvisit] at hok
    rw [ih, List.forall_mem_cons]
    simpa using fun _ => hok

theorem Walk.absent (h : Walk hooks curtime m turns r) (habsent : m.present sid = false) :
    r.1.present sid = false ∧ ∀ turn ∈ turns, turn.1.present sid = false := by
  induction h with
  | done m => exact ⟨habsent, nofun⟩
  | @raised m₀ m₁ sid₀ hvisit =>
    have hleft := @absent_visit _ _ _ _ hooks curtime habsent sid₀
    rw [hvisit] at hleft
    exact ⟨hleft, by simpa using habsent⟩
  | @visit m₀ m₁ sid₀ turns r hvisit _ ih =>
    have hleft := @absent_visit _ _ _ _ hooks curtime habsent sid₀
    rw [hvisit] at hleft
    exact ⟨(ih hleft).1, List.forall_mem_cons.mpr ⟨habsent, (ih hleft).2⟩⟩

theorem Walk.gone (h : Walk hooks curtime m turns r) (hgone : m.Gone sid) : r.1.Gone sid := by
  induction h with
  | done m => exact hgone
  | @raised m₀ m₁ sid₀ hvisit =>
    have hleft := @Gone.visit _ _ _ _ hooks curtime hgone sid₀
    rwa [hvisit] at hleft
  | @visit m₀ m₁ sid₀ turns r hvisit _ ih =>
    have hleft := @Gone.visit _ _ _ _ hooks curtime hgone sid₀
    rw [hvisit] at hleft
    exact ih hleft

/-- **A session** that was there: it is gone from everywhere if it was removed at a turn or a hook
has deleted it, and there if not. -/
theorem Walk.cases (h : Walk hooks curtime m turns r) (hthere : m.present sid = true) :
    (RemovedIn hooks curtime turns sid ∨ DeletedIn hooks curtime turns sid) ∧ r.1.Gone sid ∨
      ¬ RemovedIn hooks curtime turns sid ∧ ¬ DeletedIn hooks curtime turns sid ∧
        r.1.present sid = true := by
  induction h with
  | done m =>
    refine .inr ⟨fun hremoved => ?_, fun hdeleted => ?_, hthere⟩
    · obtain ⟨_, h, -⟩ := hremoved
      cases h
    · obtain ⟨_, h, -⟩ := hdeleted
      cases h
  | @raised m₀ m₁ sid₀ hvisit =>
    have hout := @oldVisit_outcome _ _ _ _ hooks curtime hthere sid₀
    rw [hvisit] at hout
    cases hout with
    | removed he hexp hok hgone =>
      rw [← he] at hexp hok
      exact .inl ⟨.inl ⟨_, List.mem_singleton_self _, he, by rw [← he]; exact hexp, hok⟩, hgone⟩
    | deleted hmem hgone => exact .inl ⟨.inr ⟨_, List.mem_singleton_self _, hmem⟩, hgone⟩
    | stays hnot hraises hpresent =>
      refine .inr ⟨fun hremoved => ?_, fun hdeleted => ?_, hpresent⟩
      · obtain ⟨turn, hturn, he, hexp, hok⟩ := hremoved
        rw [List.mem_singleton.mp hturn] at he hexp hok
        have hraised := hraises he hexp
        rw [← he] at hraised
        cases hraised.symm.trans hok
      · obtain ⟨turn, hturn, hmem⟩ := hdeleted
        rw [List.mem_singleton.mp hturn] at hmem
        exact hnot hmem
  | @visit m₀ m₁ sid₀ turns r hvisit hrest ih =>
    have hout := @oldVisit_outcome _ _ _ _ hooks curtime hthere sid₀
    rw [hvisit] at hout
    cases hout with
    | removed he hexp hok hgone =>
      rw [← he] at hexp hok
      exact .inl ⟨.inl ⟨_, List.mem_cons_self, he, by rw [← he]; exact hexp, hok⟩, hrest.gone hgone⟩
    | deleted hmem hgone => exact .inl ⟨.inr ⟨_, List.mem_cons_self, hmem⟩, hrest.gone hgone⟩
    | stays hnot hraises hpresent =>
      obtain ⟨hin, hgone⟩ | ⟨hremoved, hdeleted, hthere'⟩ := ih hpresent
      · refine .inl ⟨hin.imp ?_ ?_, hgone⟩
        · intro hremoved
          obtain ⟨turn, hturn, h⟩ := hremoved
          exact ⟨turn, List.mem_cons_of_mem _ hturn, h⟩
        · intro hdeleted
          obtain ⟨turn, hturn, h⟩ := hdeleted
          exact ⟨turn, List.mem_cons_of_mem _ hturn, h⟩
      · refine .inr ⟨fun hremoved' => ?_, fun hdeleted' => ?_, hthere'⟩
        · obtain ⟨turn, hturn, he, hexp, hok⟩ := hremoved'
          rcases List.mem_cons.mp hturn with rfl | hturn
          · have hraised := hraises he hexp
            have he' : sid₀ = sid := he
            rw [← he'] at hraised
            cases hraised.symm.trans hok
          · exact hremoved ⟨turn, hturn, he, hexp, hok⟩
        · obtain ⟨turn, hturn, hmem⟩ := hdeleted'
          rcases List.mem_cons.mp hturn with rfl | hturn
          · exact hnot hmem
          · exact hdeleted ⟨turn, hturn, hmem⟩

/-- No session is expired at two turns. -/
theorem Walk.expired_once (h : Walk hooks curtime m turns r) :
    ((turns.filter fun turn => expired curtime turn.1 turn.2).map Prod.snd).Nodup := by
  induction h with
  | done m => exact List.nodup_nil
  | @raised m₀ m₁ sid₀ _ =>
    rw [List.filter_singleton]
    cases expired curtime m₀ sid₀ with
    | true => exact List.nodup_singleton sid₀
    | false => exact List.nodup_nil
  | @visit m₀ m₁ sid₀ turns r hvisit hrest ih =>
    cases hexp : expired curtime m₀ sid₀ with
    | false => rwa [List.filter_cons_of_neg (by rw [hexp]; exact Bool.false_ne_true)]
    | true =>
      rw [List.filter_cons_of_pos (by exact hexp), List.map_cons, List.nodup_cons]
      refine ⟨fun hmem => ?_, ih⟩
      -- it was removed at this turn, and nothing makes it come back
      have hgone : m₁.present sid₀ = false := by
        have hout := @oldVisit_outcome _ _ _ _ hooks curtime (present_of_expired hexp) sid₀
        have hok := @oldVisit_ok _ _ hooks curtime m₀ sid₀
        rw [hvisit] at hout hok
        cases hout with
        | removed _ _ _ hgone => exact hgone.1
        | deleted _ hgone => exact hgone.1
        | stays _ hraises _ =>
          rw [hraises rfl hexp] at hok
          cases hok
      obtain ⟨turn, hturn, he⟩ := List.mem_map.mp hmem
      have hlater := present_of_expired (List.mem_filter.mp hturn).2
      rw [he, (hrest.absent hgone).2 turn (List.mem_filter.mp hturn).1] at hlater
      cases hlater

/-! ## The run -/

/-- The turns of a run. -/
def turnsOf (hooks : Hooks ι V) (o : Orders) (curtime : Int) (m : Memory ι V) :
    List (Memory ι V × Str) :=
  regionTurns hooks curtime o m (o.regions.list (sessionsName :: m.regions.keys))

/-- The sessions whose hooks are called, in turn. -/
def hookCalls (curtime : Int) (turns : List (Memory ι V × Str)) : List Str :=
  (turns.filter fun turn => (hookAt curtime turn).isSome).map Prod.snd

/-- The run comes to its end with the lock released. It has removed the sessions that were expired,
called the hook of each of them once at most, and removed no other: another one is still there
unless a hook has deleted it. -/
def Complete (hooks : Hooks ι V) (o : Orders) (curtime : Int) (m : Memory ι V) : Prop :=
  ∃ g, memoryExpireOld hooks o curtime ⟨m, false⟩ = some g ∧ g.locked = false ∧
    (∀ sid, expired curtime m sid = true → g.memory.Gone sid ∧
      (hookCalls curtime (turnsOf hooks o curtime m)).count sid ≤ 1) ∧
    ∀ sid, m.present sid = true → expired curtime m sid = false →
      ¬ RemovedIn hooks curtime (turnsOf hooks o curtime m) sid ∧
        (¬ DeletedIn hooks curtime (turnsOf hooks o curtime m) sid → g.memory.present sid = true)

/-- No hook that is called raises; a session that was expired when the run started is so at a turn
of its own too, or a hook deletes it; and no other session has become expired at its turn. -/
def Undisturbed (hooks : Hooks ι V) (o : Orders) (curtime : Int) (m : Memory ι V) : Prop :=
  (∀ turn ∈ turnsOf hooks o curtime m, (calledAt hooks curtime turn).raises = false) ∧
    (∀ sid, expired curtime m sid = true →
      (∃ turn ∈ turnsOf hooks o curtime m, turn.2 = sid ∧ expired curtime turn.1 sid = true) ∨
        DeletedIn hooks curtime (turnsOf hooks o curtime m) sid) ∧
    ∀ turn ∈ turnsOf hooks o curtime m, expired curtime turn.1 turn.2 = true →
      expired curtime m turn.2 = true

theorem memoryExpireOld_eq (hooks : Hooks ι V) (o : Orders) (curtime : Int) (m : Memory ι V) :
    ∃ r, Walk hooks curtime m (turnsOf hooks o curtime m) r ∧
      memoryExpireOld hooks o curtime ⟨m, false⟩ = some ⟨r.1, !r.2⟩ :=
  ⟨_, walk_regions hooks curtime o _ m, rfl⟩

theorem count_hookCalls_le (h : Walk hooks curtime m turns r) (sid : Str) :
    (hookCalls curtime turns).count sid ≤ 1 := by
  refine List.nodup_iff_count_le_one.mp ?_ sid
  refine h.expired_once.sublist (List.Sublist.map _ ?_)
  refine List.monotone_filter_right _ fun turn hhook => ?_
  rw [hookAt] at hhook
  rw [expired]
  cases hs : turn.1.sessions.lookup turn.2 with
  | none =>
    rw [hs] at hhook
    cases hhook
  | some s =>
    rw [hs, Option.bind_some] at hhook
    split at hhook
    next hexp => exact decide_eq_true hexp
    next => cases hhook

/-- **Expiry** does all it is for exactly if no hook disturbs it. -/
theorem expireOld_iff (hooks : Hooks ι V) (o : Orders) (curtime : Int) (m : Memory ι V) :
    Complete hooks o curtime m ↔ Undisturbed hooks o curtime m := by
  obtain ⟨r, hwalk, hrun⟩ := memoryExpireOld_eq hooks o curtime m
  constructor
  · intro ⟨g, hg, hlocked, hexpired, hothers⟩
    obtain rfl := Option.some.inj (hrun.symm.trans hg)
    have hraises := hwalk.ok_iff.mp (by simpa using hlocked)
    refine ⟨hraises, fun sid hexp => ?_, fun turn hturn hexp => ?_⟩
    · obtain ⟨hin, _⟩ | ⟨_, _, hpresent⟩ := hwalk.cases (present_of_expired hexp)
      · exact hin.imp_left fun ⟨turn, hturn, he, hexp, _⟩ => ⟨turn, hturn, he, hexp⟩
      · rw [(hexpired sid hexp).1.1] at hpresent
        cases hpresent
    · by_contra hnot
      have hthere : m.present turn.2 = true := by
        by_contra habsent
        have hturn' := (hwalk.absent (eq_false_of_ne_true habsent)).2 turn hturn
        rw [present_of_expired hexp] at hturn'
        cases hturn'
      exact (hothers turn.2 hthere (eq_false_of_ne_true hnot)).1
        ⟨turn, hturn, rfl, hexp, hraises turn hturn⟩
  · intro ⟨hraises, hexpired, hothers⟩
    refine ⟨_, hrun, by simpa using hwalk.ok_iff.mpr hraises, fun sid hexp => ?_,
      fun sid hthere hexp => ?_⟩
    · refine ⟨?_, count_hookCalls_le hwalk sid⟩
      obtain ⟨_, hgone⟩ | ⟨hremoved, hdeleted, _⟩ := hwalk.cases (present_of_expired hexp)
      · exact hgone
      · obtain ⟨turn, hturn, he, hturnexp⟩ | hin := hexpired sid hexp
        · exact absurd ⟨turn, hturn, he, hturnexp, hraises turn hturn⟩ hremoved
        · exact absurd hin hdeleted
    · have hnot : ¬ RemovedIn hooks curtime (turnsOf hooks o curtime m) sid := by
        intro ⟨turn, hturn, he, hturnexp, _⟩
        rw [← he] at hturnexp hexp
        rw [hothers turn hturn hturnexp] at hexp
        cases hexp
      refine ⟨hnot, fun hkept => ?_⟩
      obtain ⟨hin, _⟩ | ⟨_, _, hpresent⟩ := hwalk.cases hthere
      · exact absurd hin (not_or.mpr ⟨hnot, hkept⟩)
      · exact hpresent

/-! ## Quiet hooks -/

/-- The session that an act is about. -/
def Act.session : Act V → Str
  | .store _ _ _ sid _ => sid
  | .retrieve _ _ sid _ => sid
  | .deleteVariable _ _ sid _ => sid
  | .deleteSession sid => sid

/-- Hooks that raise no error, and use no session but their own. They may delete any. -/
def Quiet (hooks : Hooks ι V) : Prop :=
  ∀ sid hook m, (hooks sid hook m).raises = false ∧ ∀ a ∈ (hooks sid hook m).acts,
    a = .deleteSession a.session ∨ a.session = sid

theorem Leaves.sessions {t : Int} {sid' : Str} {reg : Option Str} (h : Leaves t sid' reg m m')
    (hne : sid' ≠ sid) : m'.sessions.lookup sid = m.sessions.lookup sid := by
  rw [Leaves] at h
  split at h
  next =>
    obtain ⟨s, hused⟩ := h
    obtain ⟨s', hsessions, -⟩ := hused.sessions
    rw [hsessions, AList.lookup_insert_ne hne.symm]
  next => rw [h]

theorem sessions_act {a : Act V} (hne : a.session ≠ sid) :
    (a.run m).sessions.lookup sid = m.sessions.lookup sid := by
  cases a with
  | store t key value sid' reg => exact (memoryStore_leaves t key value sid' reg m).sessions hne
  | retrieve t key sid' reg => exact (memoryRetrieve_leaves t key sid' reg m).sessions hne
  | deleteVariable t key sid' reg =>
    exact (memoryDeleteVariable_leaves t key sid' reg m).sessions hne
  | deleteSession sid' => exact (sessions_delete m sid' sid).trans (if_neg (Ne.symm hne))

theorem sessions_acts {acts : List (Act V)} (hne : ∀ a ∈ acts, a.session ≠ sid) :
    ∀ m : Memory ι V, (runActs acts m).sessions.lookup sid = m.sessions.lookup sid := by
  induction acts with
  | nil => exact fun m => rfl
  | cons a acts ih =>
    rw [List.forall_mem_cons] at hne
    exact fun m => (ih hne.2 (a.run m)).trans (sessions_act hne.1)

variable {o : Orders}

theorem Quiet.calledAt (hquiet : Quiet hooks) (curtime : Int) (turn : Memory ι V × Str) :
    (calledAt hooks curtime turn).raises = false ∧ ∀ a ∈ (calledAt hooks curtime turn).acts,
      a = .deleteSession a.session ∨ a.session = turn.2 := by
  rw [Gsession.calledAt]
  split
  next hook _ => exact hquiet turn.2 hook turn.1
  next => exact ⟨rfl, nofun⟩

/-- A turn that leaves a session leaves its record. -/
theorem Quiet.visit (hquiet : Quiet hooks) (sid₀ : Str)
    (hstays : (oldVisit hooks curtime m sid₀).1.present sid = true) :
    (oldVisit hooks curtime m sid₀).1.sessions.lookup sid = m.sessions.lookup sid := by
  have hcalled := hquiet.calledAt curtime (m, sid₀)
  have hthere : m.present sid = true := by
    by_contra habsent
    rw [absent_visit (eq_false_of_ne_true habsent)] at hstays
    cases hstays
  cases @oldVisit_outcome _ _ _ _ hooks curtime hthere sid₀ with
  | removed _ _ _ hgone => exact absurd (hgone.1.symm.trans hstays) nofun
  | deleted _ hgone => exact absurd (hgone.1.symm.trans hstays) nofun
  | stays hnot hraises _ =>
    rw [oldVisit_eq, hcalled.1, if_neg Bool.false_ne_true]
    split
    next hexp =>
      have hne : sid₀ ≠ sid := by
        intro he
        have hraised := hraises he (by rw [← he]; exact hexp)
        rw [← he, hcalled.1] at hraised
        cases hraised
      have hacts : ∀ a ∈ (Gsession.calledAt hooks curtime (m, sid₀)).acts, a.session ≠ sid := by
        intro a ha he
        obtain hdelete | hown := hcalled.2 a ha
        · rw [he] at hdelete
          exact hnot (hdelete ▸ ha)
        · exact hne (hown.symm.trans he)
      show (memoryDeleteSession sid₀ _).sessions.lookup sid = _
      rw [sessions_delete, if_neg (Ne.symm hne)]
      exact sessions_acts hacts m
    next => rfl

/-- As long as a session is there its record is as it was. -/
theorem Walk.sessions (h : Walk hooks curtime m turns r) (hquiet : Quiet hooks) :
    ∀ turn ∈ turns, turn.1.present sid = true →
      turn.1.sessions.lookup sid = m.sessions.lookup sid := by
  induction h with
  | done m => exact nofun
  | raised _ =>
    intro turn hturn _
    rw [List.mem_singleton.mp hturn]
  | @visit m₀ m₁ sid₀ turns r hvisit hrest ih =>
    refine List.forall_mem_cons.mpr ⟨fun _ => rfl, fun turn hturn hthere => ?_⟩
    rw [ih turn hturn hthere]
    have hleft := @Quiet.visit _ _ m₀ sid _ curtime hquiet sid₀
    rw [hvisit] at hleft
    refine hleft ?_
    by_contra habsent
    rw [(hrest.absent (eq_false_of_ne_true habsent)).2 turn hturn] at hthere
    cases hthere

/-- What is there at the end was there at each turn. -/
theorem Walk.present (h : Walk hooks curtime m turns r) (hend : r.1.present sid = true) :
    ∀ turn ∈ turns, turn.1.present sid = true := by
  have hstart : ∀ {m : Memory ι V} {turns : List (Memory ι V × Str)},
      Walk hooks curtime m turns r → m.present sid = true := by
    intro m turns h
    by_contra habsent
    rw [(h.absent (eq_false_of_ne_true habsent)).1] at hend
    cases hend
  induction h with
  | done m => exact nofun
  | raised hvisit =>
    intro turn hturn
    rw [List.mem_singleton.mp hturn]
    exact hstart (.raised hvisit)
  | visit hvisit hrest ih =>
    exact List.forall_mem_cons.mpr ⟨hstart (.visit hvisit hrest), ih hend hstart⟩

/-- Without errors the walk comes to each session of a region. -/
theorem mem_sidTurns (hquiet : Quiet hooks) (sids : List Str) : ∀ m : Memory ι V, sid ∈ sids →
    ∃ turn ∈ sidTurns hooks curtime m sids, turn.2 = sid := by
  induction sids with
  | nil => exact fun m h => nomatch h
  | cons sid' sids ih =>
    intro m h
    rw [sidTurns, if_pos (by rw [oldVisit_ok, (hquiet.calledAt curtime _).1]; rfl)]
    rcases List.mem_cons.mp h with rfl | h
    · exact ⟨_, List.mem_cons_self, rfl⟩
    · obtain ⟨turn, hturn, he⟩ := ih (oldVisit hooks curtime m sid').1 h
      exact ⟨turn, List.mem_cons_of_mem _ hturn, he⟩

/-- It comes to each session that is there until then. -/
theorem mem_regionTurns (hquiet : Quiet hooks) (regions : List Str) : ∀ m : Memory ι V,
    sessionsName ∈ regions → m.present sid = true →
      RemovedIn hooks curtime (regionTurns hooks curtime o m regions) sid ∨
        DeletedIn hooks curtime (regionTurns hooks curtime o m regions) sid ∨
        ∃ turn ∈ regionTurns hooks curtime o m regions, turn.2 = sid := by
  induction regions with
  | nil => exact fun m h => nomatch h
  | cons region regions ih =>
    intro m hmem hthere
    have hwalk := walk_sids hooks curtime ((o.sessions region).list (sidsOf m region)) m
    have hok := hwalk.ok_iff.mpr fun turn _ => (hquiet.calledAt curtime turn).1
    rw [regionTurns, if_pos hok]
    by_cases hregion : region = sessionsName
    · have hkey : sid ∈ (o.sessions region).list (sidsOf m region) := by
        refine ((o.sessions region).perm _).mem_iff.mpr ?_
        rw [sidsOf, if_pos hregion]
        obtain ⟨s, hs⟩ := Option.isSome_iff_exists.mp hthere
        exact (Lib.Mapping.mem_keys_iff _ _).mpr ⟨s, hs⟩
      obtain ⟨turn, hturn, he⟩ := @mem_sidTurns _ _ _ hooks curtime hquiet _ m hkey
      exact .inr (.inr ⟨turn, List.mem_append_left _ hturn, he⟩)
    · have hlater := (List.mem_cons.mp hmem).resolve_left (Ne.symm hregion)
      obtain ⟨hin, _⟩ | ⟨_, _, hpresent⟩ := hwalk.cases hthere
      · obtain ⟨turn, hturn, h⟩ | ⟨turn, hturn, h⟩ := hin
        · exact .inl ⟨turn, List.mem_append_left _ hturn, h⟩
        · exact .inr (.inl ⟨turn, List.mem_append_left _ hturn, h⟩)
      · obtain ⟨turn, hturn, h⟩ | ⟨turn, hturn, h⟩ | ⟨turn, hturn, h⟩ := ih _ hlater hpresent
        · exact .inl ⟨turn, List.mem_append_right _ hturn, h⟩
        · exact .inr (.inl ⟨turn, List.mem_append_right _ hturn, h⟩)
        · exact .inr (.inr ⟨turn, List.mem_append_right _ hturn, h⟩)

theorem expired_congr {m₁ : Memory ι V} (h : m₁.sessions.lookup sid = m.sessions.lookup sid) :
    expired curtime m₁ sid = expired curtime m sid := by
  rw [expired, expired, h]

/-- **Quiet hooks** disturb no run; and there may be none at all. -/
theorem undisturbed_of_quiet (hquiet : Quiet hooks) (o : Orders) (curtime : Int) (m : Memory ι V) :
    Undisturbed hooks o curtime m := by
  have hwalk := walk_regions hooks curtime o (o.regions.list (sessionsName :: m.regions.keys)) m
  refine ⟨fun turn _ => (hquiet.calledAt curtime turn).1, fun sid hexp => ?_,
    fun turn hturn hexp => ?_⟩
  · by_cases hin : RemovedIn hooks curtime (turnsOf hooks o curtime m) sid ∨
        DeletedIn hooks curtime (turnsOf hooks o curtime m) sid
    · exact hin.imp_left fun ⟨turn, hturn, he, hexp, _⟩ => ⟨turn, hturn, he, hexp⟩
    · obtain ⟨hin', _⟩ | ⟨_, _, hpresent⟩ := hwalk.cases (present_of_expired hexp)
      · exact absurd hin' hin
      have hmem : sessionsName ∈ o.regions.list (sessionsName :: m.regions.keys) :=
        (o.regions.perm _).mem_iff.mpr List.mem_cons_self
      obtain hremoved | hdeleted | ⟨turn, hturn, he⟩ :=
        mem_regionTurns hquiet _ m hmem (present_of_expired hexp)
      · exact absurd (.inl hremoved) hin
      · exact absurd (.inr hdeleted) hin
      · refine .inl ⟨turn, hturn, he, ?_⟩
        rw [expired_congr (hwalk.sessions hquiet turn hturn (hwalk.present hpresent turn hturn)), hexp]
  · rw [← expired_congr (hwalk.sessions hquiet turn hturn (present_of_expired hexp)), hexp]

/-! ## A hook that raises -/

/-- As the keys are kept. -/
def asKept : Orders where
  regions := ⟨fun l => l, fun _ => List.Perm.refl _⟩
  sessions _ := ⟨fun l => l, fun _ => List.Perm.refl _⟩

/-- An old session with a hook. -/
def hooked : Memory Unit Unit :=
  (memorySetup 0 600 (some ['s']) .empty).setSession ['s'] ⟨0, true, 600, some (), none, none⟩

/-- Its error leaves the lock held. -/
theorem error_strands_lock : ¬ Complete (fun _ _ _ => ⟨[], true⟩) asKept 1000 hooked := by
  intro ⟨g, hg, hlocked, _⟩
  rw [← Option.some.inj hg] at hlocked
  revert hlocked
  decide

end Caudium.Gsession
