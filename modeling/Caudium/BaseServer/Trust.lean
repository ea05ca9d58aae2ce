import Mathlib.Order.WithBot
import Caudium.BaseServer.LowGetFile
import Mathlib.Data.Int.ConditionallyCompleteOrder
import Mathlib.Order.ConditionallyCompleteLattice.Basic

/-!
# When the trust level works as described

What the administrator is told: a request is handled by a module only if its trust
level is at least the security level of the module, and a module that handles it sets
the trust level to the lower of the two (`TrustKept`).

Four things are in the way of it. The loop over the location modules checks against
a variable that is still 0; a module without patterns is admitted whatever its level;
a location module sets the trust level to what `misc_cache` has for it, which can be 0
or a string; and an extension module does not set it. `trust_kept_iff` has a condition
for each of them (`Respected`), and says that there is nothing else.
-/

namespace Caudium.BaseServer

open Lib (Str Mapping)

variable {φ μ ω : Type} [DecidableEq φ] {site : Site φ μ ω} {id : FileRequest}

/-! ## What the administrator is told -/

/-- A trust level; 0 is none, and higher than all. -/
def trust (n : Int) : WithTop ℤ := if n = 0 then ⊤ else (n : WithTop ℤ)

/-- A string is no trust level. -/
def trustOf : Level → Option (WithTop ℤ)
  | .int n => some (trust n)
  | .str _ => none

/-- The security level of a module, as a bound on trust levels. -/
def ModuleConf.secLevel (m : ModuleConf) : WithTop ℤ := (m.own : WithTop ℤ)

def EventOk (conf : φ → ModuleConf) : Event φ → Prop
  | .called a level => ∃ τ, trustOf level = some τ ∧ (conf a).secLevel ≤ τ
  | .yielded a before after =>
    ∃ τ, trustOf before = some τ ∧ trustOf after = some (min τ (conf a).secLevel)
  | .indicated _ before after =>
    ∃ τ τ', trustOf before = some τ ∧ trustOf after = some τ' ∧ τ' ≤ τ

def TrustKept (conf : φ → ModuleConf) (events : List (Event φ)) : Prop :=
  ∀ e ∈ events, EventOk conf e

theorem trust_le_iff {n m : Int} (h : (n : WithTop ℤ) ≤ trust m) :
    trust n ≤ trust m ↔ n ≠ 0 ∨ m = 0 := by
  by_cases hn : n = 0
  · rw [trust, if_pos hn, top_le_iff, trust]
    by_cases hm : m = 0 <;> simp [hn, hm]
  · rw [trust, if_neg hn]
    exact iff_of_true h (Or.inl hn)

theorem trust_eq_min_iff {n m : Int} (h : (n : WithTop ℤ) ≤ trust m) :
    trust n = min (trust m) n ↔ n ≠ 0 := by
  rw [min_eq_right h, trust]
  by_cases hn : n = 0 <;> simp [hn]

/-! ## Which modules are asked -/

/-- A module that is asked, with the checks made until then and what it gives. -/
structure Asked (φ μ ω : Type) where
  a : φ
  checks : List (Call φ)
  gave : Fid μ ω

def Fid.isMapping : Fid μ ω → Bool
  | .mapping _ => true
  | _ => false

/-- A file or the number of a directory. -/
def Fid.gives (f : Fid μ ω) : Bool := !f.isZero && !f.isMapping

def Fid.isObject : Fid μ ω → Bool
  | .object _ => true
  | _ => false

/-- The location modules that are asked: those whose mount point the file is under and
that `check_security` admits, until one gives something. -/
def askedLocations (site : Site φ μ ω) (id : FileRequest) (file : Str) :
    List (Call φ) → List (Str × φ) → List (Asked φ μ ω)
  | _, [] => []
  | h, (loc, a) :: rest =>
    if loc.isPrefixOf file then
      let h' := h ++ [⟨a, id.toRequest, .int 0⟩]
      match answerAfter site.conf h a id.toRequest (.int 0) with
      | some .allowed =>
        let f := site.findFile a (file.drop loc.length ++ id.extraExtension) id
        ⟨a, h', f⟩ :: if f.isZero then askedLocations site id file h' rest else []
      | some .denied => askedLocations site id file h' rest
      | _ => []
    else if file ++ ['/'] = loc then []
    else askedLocations site id file h rest

/-- The extension modules that are asked. -/
def askedExtensions (site : Site φ μ ω) (id : FileRequest) (loc : Str) (slevel : Level) (fid : ω) :
    List (Call φ) → List φ → List (Asked φ μ ω)
  | _, [] => []
  | h, a :: rest =>
    let h' := h ++ [⟨a, id.toRequest, slevel⟩]
    match answerAfter site.conf h a id.toRequest slevel with
    | some .allowed =>
      let f := site.handle a fid loc id
      ⟨a, h', f⟩ :: if f.isZero then askedExtensions site id loc slevel fid h' rest else []
    | some .denied => askedExtensions site id loc slevel fid h' rest
    | _ => []

/-- What is set for the module by the checks until it was asked. -/
def Asked.set (conf : φ → ModuleConf) (p : Asked φ μ ω) : Option Str := setBy conf p.a p.checks

/-- What `misc_cache` then has as its level. -/
def Asked.level (conf : φ → ModuleConf) (p : Asked φ μ ω) : Level :=
  setTo (.int (conf p.a).own) (p.set conf)

/-- The loop over the location modules ends with what this one gives. -/
def Asked.ends (conf : φ → ModuleConf) (p : Asked φ μ ω) : Bool :=
  p.gave.gives && (conf p.a).seclevels.isSome

/-! ## What the loops record -/

theorem check_after (conf : φ → ModuleConf) (h : List (Call φ)) (level : Level)
    (events : List (Event φ)) (a : φ) (id : Request) (slevel : Level) :
    (Trace.mk (after conf h) level events).check conf a id slevel =
      (answerAfter conf h a id slevel, ⟨after conf (h ++ [⟨a, id, slevel⟩]), level, events⟩) := by
  rw [Trace.check, after_concat]
  rfl

/-- The events of a location module that is asked. -/
def locationEvents (conf : φ → ModuleConf) (level : Level) (p : Asked φ μ ω) : List (Event φ) :=
  .called p.a level ::
    if p.ends conf then
      [if p.gave.isObject then .yielded p.a level (p.level conf)
        else .indicated p.a level (p.level conf)]
    else []

/-- The events of an extension module that is asked. -/
def extensionEvents (level : Level) (p : Asked φ μ ω) : List (Event φ) :=
  .called p.a level :: if p.gave.isObject then [.yielded p.a level level] else []

/-- The state in which the extension modules find the request. -/
def Asked.taken (conf : φ → ModuleConf) (p : Asked φ μ ω) (events : List (Event φ)) :
    Located μ ω × Trace φ :=
  (.fid p.gave (p.level conf), ⟨after conf p.checks, p.level conf, events⟩)

/-- What the loop over the location modules leaves, in terms of the modules asked. -/
structure Locates (conf : φ → ModuleConf) (level : Level) (events : List (Event φ))
    (asked : List (Asked φ μ ω)) (r : Located μ ω × Trace φ) : Prop where
  events : r.2.events = events ++ asked.flatMap (locationEvents conf level)
  taken : ∀ p ∈ asked, p.ends conf → r = p.taken conf r.2.events
  nothing : (∀ p ∈ asked, ¬ p.ends conf) → ∀ f slevel, r.1 = .fid f slevel → f = .int 0

/-- The loop ends and no module has given anything. -/
theorem Locates.reply {conf : φ → ModuleConf} {level l : Level} {cache : MiscCache φ}
    {events : List (Event φ)} {r : Reply μ ω} :
    Locates conf level events [] (.reply r, ⟨cache, l, events⟩) where
  events := (List.append_nil _).symm
  taken _ hp := nomatch hp
  nothing _ _ _ hfid := nomatch hfid

theorem Locates.none {conf : φ → ModuleConf} {level l slevel : Level} {cache : MiscCache φ}
    {events : List (Event φ)} :
    Locates conf level events [] ((.fid (.int 0) slevel : Located μ ω), ⟨cache, l, events⟩) where
  events := (List.append_nil _).symm
  taken _ hp := nomatch hp
  nothing _ _ _ hfid := by cases hfid; rfl

/-- A module that is asked and does not end the loop with a file or a directory. -/
theorem Locates.cons {conf : φ → ModuleConf} {level : Level} {events : List (Event φ)}
    {asked : List (Asked φ μ ω)} {r : Located μ ω × Trace φ} {p : Asked φ μ ω}
    (hp : p.ends conf = false) (h : Locates conf level (events ++ [.called p.a level]) asked r) :
    Locates conf level events (p :: asked) r where
  events := by
    rw [List.flatMap_cons, locationEvents, if_neg (by rw [hp]; exact Bool.false_ne_true),
      ← List.append_assoc]
    exact h.events
  taken q hq hends := by
    obtain rfl | hq := List.mem_cons.mp hq
    · rw [hp] at hends
      cases hends
    · exact h.taken q hq hends
  nothing hall := h.nothing fun q hq => hall q (List.mem_cons_of_mem _ hq)

/-- A module that gives a file or a directory. -/
theorem takeFile_locates (conf : φ → ModuleConf) (h : List (Call φ)) (c : Call φ)
    (level : Level) (events : List (Event φ)) {f : Fid μ ω} (hf : f.gives = true) :
    Locates conf level events [⟨c.a, h ++ [c], f⟩]
      (takeFile ⟨after conf (h ++ [c]), level, events ++ [.called c.a level]⟩ c.a f) := by
  unfold takeFile
  rw [after_concat_lookup]
  cases hc : (conf c.a).seclevels with
  | none =>
    have hends : (⟨c.a, h ++ [c], f⟩ : Asked φ μ ω).ends conf = false := by
      rw [Asked.ends, hc]
      exact Bool.and_false _
    exact Locates.cons hends Locates.reply
  | some rules =>
    have hends : (⟨c.a, h ++ [c], f⟩ : Asked φ μ ω).ends conf = true := by
      rw [Asked.ends, hc, hf]
      rfl
    refine ⟨?_, fun q hq _ => ?_, fun hall => ?_⟩
    · rw [List.flatMap_singleton, locationEvents, if_pos hends]
      cases f with
      | int n => exact List.append_assoc _ _ _
      | mapping m => cases hf
      | object o => exact List.append_assoc _ _ _
    · rw [List.mem_singleton.mp hq]
      rfl
    · exact absurd hends (hall _ (List.mem_singleton_self _))

theorem locationLoop_locates (file : Str) (level : Level) (ls : List (Str × φ)) :
    ∀ (h : List (Call φ)) (events : List (Event φ)),
      Locates site.conf level events (askedLocations site id file h ls)
        (locationLoop site id file (.int 0) ls ⟨after site.conf h, level, events⟩) := by
  induction ls with
  | nil =>
    intro h events
    exact Locates.none
  | cons l rest ih =>
    obtain ⟨loc, a⟩ := l
    intro h events
    rw [askedLocations, locationLoop]
    by_cases hloc : loc.isPrefixOf file
    · rw [if_pos hloc, if_pos hloc, check_after]
      -- the answer of the check decides whether the module is asked
      rcases hanswer : answerAfter site.conf h a id.toRequest (.int 0) with _ | answer
      · exact Locates.reply
      · cases answer with
        | allowed =>
          dsimp only
          by_cases hzero :
              (site.findFile a (file.drop loc.length ++ id.extraExtension) id).isZero = true
          · rw [if_pos hzero, if_pos hzero]
            refine Locates.cons ?_ (ih _ _)
            rw [Asked.ends, Fid.gives, hzero]
            rfl
          · rw [if_neg hzero, if_neg hzero]
            cases hf : site.findFile a (file.drop loc.length ++ id.extraExtension) id with
            | mapping m =>
              exact Locates.cons rfl Locates.reply
            | int n | object o =>
              refine takeFile_locates site.conf h ⟨a, id.toRequest, .int 0⟩ level events ?_
              rw [hf] at hzero
              simpa [Fid.gives, Fid.isMapping] using hzero
        | denied => exact ih _ _
        | forbidden | proxyAuthRequired realm | authRequired realm =>
          exact Locates.reply
    · rw [if_neg hloc, if_neg hloc]
      by_cases hslash : file ++ ['/'] = loc
      · rw [if_pos hslash, if_pos hslash]
        exact Locates.reply
      · rw [if_neg hslash, if_neg hslash]
        exact ih _ _

/-- The loop over the extension modules records the modules asked. -/
theorem extensionLoop_events (loc : Str) (slevel level : Level) (fid : ω) (fs : List φ) :
    ∀ (h : List (Call φ)) (events : List (Event φ)),
      (extensionLoop site id loc slevel fid fs ⟨after site.conf h, level, events⟩).2.events =
        events ++ (askedExtensions site id loc slevel fid h fs).flatMap (extensionEvents level) := by
  induction fs with
  | nil => exact fun h events => (List.append_nil events).symm
  | cons a rest ih =>
    intro h events
    rw [askedExtensions, extensionLoop, check_after]
    rcases hanswer : answerAfter site.conf h a id.toRequest slevel with _ | answer
    · exact (List.append_nil events).symm
    · cases answer with
      | allowed =>
        dsimp only
        by_cases hzero : (site.handle a fid loc id).isZero = true
        · have hobject : (site.handle a fid loc id).isObject = false := by
            cases hf : site.handle a fid loc id with
            | int n | mapping m => rfl
            | object o => rw [hf] at hzero; cases hzero
          rw [if_pos hzero, if_pos hzero, List.flatMap_cons, extensionEvents, hobject,
            ← List.append_assoc]
          exact ih _ _
        · rw [if_neg hzero, if_neg hzero, List.flatMap_singleton, extensionEvents]
          cases hf : site.handle a fid loc id with
          | int n | mapping m => rfl
          | object o => exact List.append_assoc _ _ _
      | denied => exact ih _ _
      | forbidden | proxyAuthRequired realm | authRequired realm =>
        exact (List.append_nil events).symm

/-! ## The condition -/

/-- The file that the extension modules get when a location module has given `f`. -/
def handedOn (site : Site φ μ ω) (id : FileRequest) (noMagic : Bool) (f : Fid μ ω) : Option ω :=
  match intoDirectory site id noMagic f with
  | .inr (.object o) => some o
  | _ => none

/-- The extension modules that are asked after a location module has given `p.gave`. -/
def askedAfter (site : Site φ μ ω) (id : FileRequest) (noMagic : Bool) (level : Level)
    (p : Asked φ μ ω) : List (Asked φ μ ω) :=
  let loc := site.extension id.notQuery
  match handedOn site id noMagic p.gave with
  | some o => askedExtensions site id loc level o p.checks (site.fileExtensionModules loc)
  | none => []

/-- The location modules that are asked by a request after a history. -/
def asked (site : Site φ μ ω) (id : FileRequest) (h : List (Call φ)) : List (Asked φ μ ω) :=
  askedLocations site id (site.combinePath id.notQuery) h site.locationModules

/-- The events of a request that enters with trust level `t` after a history. -/
def eventsOf (site : Site φ μ ω) (id : FileRequest) (noMagic : Bool) (h : List (Call φ)) (t : Int) :
    List (Event φ) :=
  (lowGetFile site id noMagic ⟨after site.conf h, .int t, []⟩).2.events

/-- The events when a location module ends its loop. -/
theorem eventsOf_ends (noMagic : Bool) (h : List (Call φ)) (t : Int) {p : Asked φ μ ω}
    (hp : p ∈ asked site id h) (hends : p.ends site.conf = true) :
    eventsOf site id noMagic h t =
      (asked site id h).flatMap (locationEvents site.conf (.int t)) ++
        (askedAfter site id noMagic (p.level site.conf) p).flatMap
          (extensionEvents (p.level site.conf)) := by
  have hloc := @locationLoop_locates φ μ ω _ site id (site.combinePath id.notQuery)
    (.int t) site.locationModules h []
  have htaken := hloc.taken p hp hends
  have hevents := hloc.events
  rw [List.nil_append] at hevents
  rw [hevents] at htaken
  rw [eventsOf, lowGetFile, htaken, Asked.taken, askedAfter, handedOn]
  dsimp only
  cases hdir : intoDirectory site id noMagic p.gave with
  | inl r => exact (List.append_nil _).symm
  | inr f =>
    cases f with
    | int n | mapping m => exact (List.append_nil _).symm
    | object o =>
      have hext := @extensionLoop_events φ μ ω _ site id (site.extension id.notQuery)
        (p.level site.conf) (p.level site.conf) o
        (site.fileExtensionModules (site.extension id.notQuery)) p.checks
        ((asked site id h).flatMap (locationEvents site.conf (.int t)))
      dsimp only
      rw [← hext]
      split <;> next heq => exact congrArg (fun r => r.2.events) heq.symm

/-- The events when no location module does. -/
theorem eventsOf_nothing (noMagic : Bool) (h : List (Call φ)) (t : Int)
    (hall : ∀ p ∈ asked site id h, ¬ p.ends site.conf = true) :
    eventsOf site id noMagic h t =
      (asked site id h).flatMap (locationEvents site.conf (.int t)) := by
  have hloc := @locationLoop_locates φ μ ω _ site id (site.combinePath id.notQuery)
    (.int t) site.locationModules h []
  have hnothing := hloc.nothing hall
  have hevents := hloc.events
  rw [List.nil_append] at hevents
  rw [eventsOf, lowGetFile]
  rw [asked, ← hevents]
  generalize locationLoop site id (site.combinePath id.notQuery) (.int 0) site.locationModules
    ⟨after site.conf h, .int t, []⟩ = r at hnothing
  obtain ⟨l, t'⟩ := r
  cases l with
  | reply r => rfl
  | fid f slevel => rw [hnothing f slevel rfl]; rfl

theorem mem_eventsOf (noMagic : Bool) (h : List (Call φ)) (t : Int) (e : Event φ) :
    e ∈ eventsOf site id noMagic h t ↔
      ∃ p ∈ asked site id h, e ∈ locationEvents site.conf (.int t) p ∨
        p.ends site.conf = true ∧ ∃ q ∈ askedAfter site id noMagic (p.level site.conf) p,
          e ∈ extensionEvents (p.level site.conf) q := by
  by_cases hlast : ∃ p ∈ asked site id h, p.ends site.conf = true
  -- what follows the loop goes by the module that ended it, the only such one asked
  · obtain ⟨p, hp, hends⟩ := hlast
    constructor
    · intro he
      rw [eventsOf_ends noMagic h t hp hends, List.mem_append, List.mem_flatMap,
        List.mem_flatMap] at he
      obtain ⟨q, hq, he⟩ | he := he
      · exact ⟨q, hq, Or.inl he⟩
      · exact ⟨p, hp, Or.inr ⟨hends, he⟩⟩
    · intro he
      obtain ⟨q, hq, he | ⟨hqends, he⟩⟩ := he
      · rw [eventsOf_ends noMagic h t hp hends]
        exact List.mem_append_left _ (List.mem_flatMap.mpr ⟨q, hq, he⟩)
      · rw [eventsOf_ends noMagic h t hq hqends]
        exact List.mem_append_right _ (List.mem_flatMap.mpr he)
  · have hall : ∀ p ∈ asked site id h, ¬ p.ends site.conf = true :=
      fun p hp hends => hlast ⟨p, hp, hends⟩
    rw [eventsOf_nothing noMagic h t hall, List.mem_flatMap]
    constructor
    · intro he
      obtain ⟨p, hp, he⟩ := he
      exact ⟨p, hp, Or.inl he⟩
    · intro he
      obtain ⟨p, hp, he | ⟨hends, -⟩⟩ := he
      · exact ⟨p, hp, he⟩
      · exact absurd hends (hall p hp)

/-- The four conditions. -/
structure Respected (site : Site φ μ ω) (id : FileRequest) (noMagic : Bool) (h : List (Call φ))
    (t : Int) : Prop where
  /-- No location module that is asked has a level above the trust level. -/
  locations : ∀ p ∈ asked site id h, (site.conf p.a).secLevel ≤ trust t
  /-- The one that gives a file has a level other than 0, which no `secuname` pattern has
  replaced; for a directory the level may be 0 too if there is no trust level. -/
  taken : ∀ p ∈ asked site id h, p.ends site.conf = true →
    p.set site.conf = none ∧
      ((site.conf p.a).own ≠ 0 ∨ t = 0 ∧ p.gave.isObject = false)
  /-- No extension module without patterns that is asked has a level above that of the
  location module. -/
  extensions : ∀ p ∈ asked site id h, p.ends site.conf = true →
    ∀ q ∈ askedAfter site id noMagic (.int (site.conf p.a).own) p,
      (site.conf q.a).patterns = [] → (site.conf q.a).secLevel ≤ trust (site.conf p.a).own
  /-- An extension module that gives another file has no lower level. -/
  handled : ∀ p ∈ asked site id h, p.ends site.conf = true →
    ∀ q ∈ askedAfter site id noMagic (.int (site.conf p.a).own) p,
      q.gave.isObject = true → trust (site.conf p.a).own ≤ (site.conf q.a).secLevel

/-! ## The events that are as described -/

omit [DecidableEq φ] in
theorem called_ok_iff {conf : φ → ModuleConf} {a : φ} {n : Int} :
    EventOk conf (.called a (.int n)) ↔ (conf a).secLevel ≤ trust n := by
  constructor
  · intro h
    obtain ⟨τ, hτ, hle⟩ := h
    rw [Option.some.inj hτ]
    exact hle
  · exact fun hle => ⟨trust n, rfl, hle⟩

omit [DecidableEq φ] in
theorem yielded_ok_iff {conf : φ → ModuleConf} {a : φ} {n m : Int} :
    EventOk conf (.yielded a (.int n) (.int m)) ↔ trust m = min (trust n) (conf a).secLevel := by
  constructor
  · intro h
    obtain ⟨τ, hτ, hm⟩ := h
    rw [Option.some.inj hτ]
    exact Option.some.inj hm
  · exact fun hm => ⟨trust n, rfl, congrArg some hm⟩

omit [DecidableEq φ] in
theorem indicated_ok_iff {conf : φ → ModuleConf} {a : φ} {n m : Int} :
    EventOk conf (.indicated a (.int n) (.int m)) ↔ trust m ≤ trust n := by
  constructor
  · intro h
    obtain ⟨τ, τ', hτ, hτ', hle⟩ := h
    rw [Option.some.inj hτ, Option.some.inj hτ']
    exact hle
  · exact fun hle => ⟨trust n, trust m, rfl, rfl, hle⟩

/-- What a location module that ends the loop does to the trust level. -/
theorem taken_ok_iff {conf : φ → ModuleConf} {p : Asked φ μ ω} {t : Int}
    (hle : (conf p.a).secLevel ≤ trust t) :
    EventOk conf (if p.gave.isObject then .yielded p.a (.int t) (p.level conf)
        else .indicated p.a (.int t) (p.level conf)) ↔
      p.set conf = none ∧ ((conf p.a).own ≠ 0 ∨ t = 0 ∧ p.gave.isObject = false) := by
  rw [Asked.level]
  cases hset : p.set conf with
  | some s =>
    -- a string is no trust level
    refine iff_of_false (fun h => ?_) fun h => Option.some_ne_none s h.1
    split at h
    · obtain ⟨τ, -, hτ⟩ := h
      cases hτ
    · obtain ⟨τ, τ', -, hτ, -⟩ := h
      cases hτ
  | none =>
    rw [show setTo (.int (conf p.a).own) none = .int (conf p.a).own from rfl]
    cases hobject : p.gave.isObject with
    | true =>
      rw [if_pos rfl, yielded_ok_iff, ModuleConf.secLevel, trust_eq_min_iff hle]
      simp
    | false =>
      rw [if_neg Bool.false_ne_true, indicated_ok_iff, trust_le_iff hle]
      simp

theorem locationEvents_ok_iff (conf : φ → ModuleConf) (t : Int) (p : Asked φ μ ω) :
    (∀ e ∈ locationEvents conf (.int t) p, EventOk conf e) ↔
      (conf p.a).secLevel ≤ trust t ∧ (p.ends conf = true →
        p.set conf = none ∧ ((conf p.a).own ≠ 0 ∨ t = 0 ∧ p.gave.isObject = false)) := by
  rw [locationEvents, List.forall_mem_cons, called_ok_iff]
  refine and_congr_right fun hle => ?_
  cases p.ends conf with
  | true => rw [if_pos rfl, List.forall_mem_singleton, taken_ok_iff hle, forall_prop_of_true rfl]
  | false => simp

omit [DecidableEq φ] in
theorem extensionEvents_ok_iff (conf : φ → ModuleConf) (n : Int) (q : Asked φ μ ω) :
    (∀ e ∈ extensionEvents (.int n) q, EventOk conf e) ↔
      (conf q.a).secLevel ≤ trust n ∧
        (q.gave.isObject = true → trust n ≤ (conf q.a).secLevel) := by
  rw [extensionEvents, List.forall_mem_cons, called_ok_iff]
  refine and_congr_right fun _ => ?_
  cases q.gave.isObject with
  | true => rw [if_pos rfl, List.forall_mem_singleton, yielded_ok_iff, left_eq_inf, forall_prop_of_true rfl]
  | false => simp

/-- A module with patterns that is admitted has no level above the trust level. -/
theorem level_of_allowed {conf : φ → ModuleConf} {h : List (Call φ)} {a : φ} {id : Request}
    {n : Int} (hallowed : answerAfter conf h a id (.int n) = some .allowed) :
    (conf a).patterns = [] ∨ (conf a).secLevel ≤ trust n := by
  rw [answerAfter_eq, checkEntry] at hallowed
  by_cases hrules : (conf a).patterns = []
  · exact Or.inl hrules
  · rw [if_neg (show ((conf a).entry _).rules ≠ [] from hrules)] at hallowed
    refine Or.inr ?_
    by_cases hn : n = 0
    · rw [trust, if_pos hn]
      exact le_top
    · have hzero : (Level.int n).isZero = false := by simp [Level.isZero, hn]
      rw [tooLow, hzero, if_neg Bool.false_ne_true, ModuleConf.entry] at hallowed
      -- with a string in the entry the comparison throws
      cases hset : setBy conf a h with
      | some s => rw [hset] at hallowed; cases hallowed
      | none =>
        rw [hset] at hallowed
        have hgt : (setTo (.int (conf a).own) none).gt (.int n) = some (decide (n < (conf a).own)) :=
          rfl
        rw [hgt] at hallowed
        by_cases hlt : n < (conf a).own
        · rw [decide_eq_true hlt] at hallowed
          cases hallowed
        · rw [trust, if_neg hn]
          exact WithTop.coe_le_coe.mpr (not_lt.mp hlt)

theorem level_of_askedExtensions {loc : Str} {n : Int} {fid : ω} {q : Asked φ μ ω} (fs : List φ) :
    ∀ h, q ∈ askedExtensions site id loc (.int n) fid h fs →
      (site.conf q.a).patterns = [] ∨ (site.conf q.a).secLevel ≤ trust n := by
  induction fs with
  | nil => exact fun h hq => nomatch hq
  | cons a rest ih =>
    intro h hq
    rw [askedExtensions] at hq
    rcases hanswer : answerAfter site.conf h a id.toRequest (.int n) with _ | answer
    · rw [hanswer] at hq
      cases hq
    · rw [hanswer] at hq
      cases answer with
      | allowed =>
        obtain rfl | hq := List.mem_cons.mp hq
        · exact level_of_allowed hanswer
        · split at hq
          · exact ih _ hq
          · cases hq
      | denied => exact ih _ hq
      | forbidden | proxyAuthRequired realm | authRequired realm => cases hq

theorem level_of_askedAfter {noMagic : Bool} {n : Int} {p q : Asked φ μ ω}
    (hq : q ∈ askedAfter site id noMagic (.int n) p) :
    (site.conf q.a).patterns = [] ∨ (site.conf q.a).secLevel ≤ trust n := by
  rw [askedAfter] at hq
  split at hq
  · exact level_of_askedExtensions _ _ hq
  · cases hq

/-- **When the trust level works as described.** Along a request that enters with trust
level `t`, after any history of checks, every function that is called has a module of no
higher level and every file lowers the trust level to that of its module, if and only if
the four conditions hold. -/
theorem trust_kept_iff (site : Site φ μ ω) (id : FileRequest) (noMagic : Bool)
    (h : List (Call φ)) (t : Int) :
    TrustKept site.conf (eventsOf site id noMagic h t) ↔ Respected site id noMagic h t := by
  have hlevel : ∀ p : Asked φ μ ω, p.set site.conf = none →
      p.level site.conf = .int (site.conf p.a).own := by
    intro p hset
    rw [Asked.level, hset]
    rfl
  constructor
  · intro hkept
    have hloc : ∀ p ∈ asked site id h, _ := fun p hp =>
      (locationEvents_ok_iff site.conf t p).mp fun e he =>
        hkept e ((mem_eventsOf noMagic h t e).mpr ⟨p, hp, Or.inl he⟩)
    have hext : ∀ p ∈ asked site id h, p.ends site.conf = true →
        ∀ q ∈ askedAfter site id noMagic (.int (site.conf p.a).own) p,
          (site.conf q.a).secLevel ≤ trust (site.conf p.a).own ∧
            (q.gave.isObject = true →
              trust (site.conf p.a).own ≤ (site.conf q.a).secLevel) := by
      intro p hp hends q hq
      refine (extensionEvents_ok_iff site.conf (site.conf p.a).own q).mp fun e he => ?_
      rw [← hlevel p ((hloc p hp).2 hends).1] at hq he
      exact hkept e ((mem_eventsOf noMagic h t e).mpr ⟨p, hp, Or.inr ⟨hends, q, hq, he⟩⟩)
    exact {
      locations := fun p hp => (hloc p hp).1
      taken := fun p hp => (hloc p hp).2
      extensions := fun p hp hends q hq _ => (hext p hp hends q hq).1
      handled := fun p hp hends q hq => (hext p hp hends q hq).2 }
  · intro hresp e he
    obtain ⟨p, hp, he | ⟨hends, q, hq, he⟩⟩ := (mem_eventsOf noMagic h t e).mp he
    · exact (locationEvents_ok_iff site.conf t p).mpr
        ⟨hresp.locations p hp, hresp.taken p hp⟩ e he
    · rw [hlevel p (hresp.taken p hp hends).1] at hq he
      refine (extensionEvents_ok_iff site.conf _ q).mpr ⟨?_, hresp.handled p hp hends q hq⟩ e he
      -- the check of an extension module is only good for those with patterns
      obtain hnil | hle := level_of_askedAfter hq
      · exact hresp.extensions p hp hends q hq hnil
      · exact hle

/-- A file system of level 5 that every address may read. -/
def filesystem : Site Unit Unit Unit where
  conf _ := ⟨some [.allow fun _ => some true], some 5, some "user".toList⟩
  locationModules := [("/".toList, ())]
  fileExtensionModules _ := []
  findFile _ _ _ := .object ()
  handle _ _ _ _ := .int 0
  parseDirectory := none
  combinePath f := f
  extension _ := []
  typeFromFilename _ := none

def index : FileRequest where
  remoteaddr := "10.0.0.1".toList
  auth := none
  proxyauth := none
  notQuery := "/index.html".toList
  extraExtension := []
  extension := none

/-- A request of trust level 3 is handled by it, and has trust level 5 from then on. -/
theorem trust_ignored : ¬ ∀ (site : Site Unit Unit Unit) id noMagic h t,
    TrustKept site.conf (eventsOf site id noMagic h t) := by
  intro h
  have hevents : eventsOf filesystem index false [] 3 =
      [.called () (.int 3), .yielded () (.int 3) (.int 5)] := rfl
  have hcalled := h filesystem index false [] 3 (.called () (.int 3))
    (by rw [hevents]; exact List.mem_cons_self ..)
  have hle : ((5 : Int) : WithTop ℤ) ≤ trust 3 := called_ok_iff.1 hcalled
  exact absurd (WithTop.coe_le_coe.mp hle) (by decide)

end Caudium.BaseServer
