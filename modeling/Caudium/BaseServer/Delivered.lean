import Caudium.BaseServer.Hosts
import Caudium.Lib.Runs
import Caudium.Lib.Total

/-!
# Each callback is called once

Calls, answers of the name server and the callbacks themselves in any order. The callbacks are
numbered in the order in which they were passed. One of them waits in a list of the resolver, or in
a `got_one_result` that is under way, or has been called, and is in no two of these places
(`State.times`); what it is called with is an answer for the name that it was passed for.

A callback that raises takes those behind it in the loop along, and `blocking_host_to_ip` drops
those that have come to wait for its name while `got_one_result` was under way. `always_delivered`
is about the runs in which there are none.
-/

namespace Caudium.BaseServer.Hosts

open Lib (Str Mapping)
open Http (castInt)

/-! ## Runs -/

/-- A call with a callback. -/
inductive Query
  | ipToHost (ipnumber : Option Str)
  | hostToIp (host : Option Str)

/-- A `got_one_result` that is under way: the callbacks it has still to call, whether it is in one
of them, and whether it was called by `blocking_host_to_ip`. -/
structure Loop where
  name : Str
  answer : Option Str
  cbs : List Nat
  running : Bool
  blocking : Bool

/-- The resolver; the loops; the names for which `gethostbyname` is under way; the calls with
callbacks; all answers of the name server; and what callbacks were called with. -/
structure State where
  resolver : Resolver Nat
  loops : List Loop
  blocked : List Str
  queries : List Query
  answers : List (Str × Option Str)
  called : List (Nat × Option Str)

def State.start : State := ⟨.empty, [], [], [], [], []⟩

inductive Event
  /-- A call of `ip_to_host` or `host_to_ip`, with a callback. -/
  | query (q : Query)
  | quickIpToHost (ipnumber : Option Str)
  | quickHostToIp (h : Str)
  | blockingHostToIp (host : Option Str)
  /-- `gethostbyname` returns. -/
  | gethostbyname (i : Nat) (answer : Option Str)
  /-- The name server answers a lookup. -/
  | answer (i : Nat) (answer : Option Str)
  /-- A loop calls the next callback. -/
  | next (i : Nat)
  | returns (i : Nat)
  | raises (i : Nat)
  /-- A loop has come to its end. -/
  | finish (i : Nat)
  | expire (names : List Str)

/-- The call with a callback. -/
def Query.run (q : Query) (callback : Nat) (r : Resolver Nat) :
    Option (Option Str) × Resolver Nat :=
  match q with
  | .ipToHost ipnumber => Hosts.ipToHost ipnumber (some callback) r
  | .hostToIp host => Hosts.hostToIp host (some callback) r

/-- `got_one_result` is called. -/
def State.result (s : State) (name : Str) (answer : Option Str) (blocking : Bool) : State :=
  let r := gotOneResult name answer s.resolver
  { s with
    resolver := r.2
    loops := ⟨name, answer, r.1, false, blocking⟩ :: s.loops
    answers := (name, answer) :: s.answers }

def step (s : State) : Event → Option State
  | .query q =>
    let callback := s.queries.length
    let r := q.run callback s.resolver
    some { s with
      resolver := r.2
      queries := s.queries ++ [q]
      called := (r.1.map fun answer => (callback, answer)).toList ++ s.called }
  | .quickIpToHost ipnumber => some { s with resolver := (quickIpToHost ipnumber s.resolver).2 }
  | .quickHostToIp h => some { s with resolver := (quickHostToIp h s.resolver).2 }
  | .blockingHostToIp host =>
    match host, blockingHostToIp host s.resolver with
    | some host, none => some { s with blocked := s.blocked ++ [host] }
    | _, _ => some s
  | .gethostbyname i answer => do
    let name ← s.blocked[i]?
    return { s with blocked := s.blocked.eraseIdx i }.result name answer true
  | .answer i answer => do
    let (_, name) ← s.resolver.asked[i]?
    let resolver := { s.resolver with asked := s.resolver.asked.eraseIdx i }
    return { s with resolver }.result name answer false
  | .next i => do
    let l ← s.loops[i]?
    match l.running, l.cbs with
    | false, cb :: cbs => some { s with
        loops := s.loops.set i { l with cbs, running := true }
        called := (cb, l.answer) :: s.called }
    | _, _ => none
  | .returns i => do
    let l ← s.loops[i]?
    if l.running then some { s with loops := s.loops.set i { l with running := false } } else none
  | .raises i => do
    let l ← s.loops[i]?
    if l.running then some { s with loops := s.loops.eraseIdx i } else none
  | .finish i => do
    let l ← s.loops[i]?
    if l.running = false ∧ l.cbs = [] then
      let resolver := if l.blocking then afterGotOneResult l.name s.resolver else s.resolver
      some { s with resolver, loops := s.loops.eraseIdx i }
    else none
  | .expire names =>
    some { s with resolver := { s.resolver with hosts := s.resolver.hosts.eraseAll names } }

/-! ## What is to hold -/

/-- The name that is looked up for a call, unless it is answered without. -/
def Query.name : Query → Option Str
  | .ipToHost none => none
  | .ipToHost (some ip) => if castInt ip = 0 then none else some ip
  | .hostToIp none => none
  | .hostToIp (some host) =>
    if host = [] ∨ isIp (withoutDot host) = true then none else some (withoutDot host)

/-- What it is answered with then. -/
def Query.plain : Query → Option Str
  | .ipToHost ipnumber => ipnumber
  | .hostToIp none => none
  | .hostToIp (some host) => if host = [] then none else some (withoutDot host)

/-- The answer is for the call's own name. -/
def Query.AnsweredBy (q : Query) (answers : List (Str × Option Str)) (answer : Option Str) : Prop :=
  match q.name with
  | some name => (name, answer) ∈ answers
  | none => answer = q.plain

/-- No callback was called twice, or with an answer for another name; and when all lookups have been
answered and all loops are at their end, each of them was called. -/
structure Delivered (s : State) : Prop where
  own : ∀ c ∈ s.called, ∃ q, s.queries[c.1]? = some q ∧ q.AnsweredBy s.answers c.2
  once : ∀ cb < s.queries.length, (s.called.map Prod.fst).count cb ≤ 1
  all : s.resolver.asked = [] → s.loops = [] →
    ∀ cb < s.queries.length, (s.called.map Prod.fst).count cb = 1

/-- A callback that raises is the last one of its loop; and at the end of `blocking_host_to_ip` no
callback waits for its name. -/
def Meets (s : State) : Event → Prop
  | .raises i => ∀ l, s.loops[i]? = some l → l.cbs = []
  | .finish i => ∀ l, s.loops[i]? = some l → l.blocking = true →
    (s.resolver.doWhenFound.lookup l.name).getD [] = []
  | _ => True

/-! ## Where a callback is -/

/-- The lists in which it waits. -/
def Resolver.waiting (r : Resolver Nat) (cb : Nat) : Int :=
  r.doWhenFound.total fun cbs => cbs.count cb

/-- How often it is anywhere. -/
def State.times (s : State) (cb : Nat) : Int :=
  (s.called.map Prod.fst).count cb + s.resolver.waiting cb + (s.loops.flatMap Loop.cbs).count cb

/-- The callback was passed for the name. -/
def AsksFor (queries : List Query) (cb : Nat) (name : Str) : Prop :=
  ∃ q, queries[cb]? = some q ∧ q.name = some name

/-- Where callbacks wait for a name, the name server has been asked for it. -/
def Resolver.Asked (r : Resolver Nat) : Prop :=
  ∀ name, (r.doWhenFound.lookup name).isSome = true → ∃ mode, (mode, name) ∈ r.asked

structure Inv (s : State) : Prop where
  times : ∀ cb, s.times cb = if cb < s.queries.length then 1 else 0
  own : ∀ c ∈ s.called, ∃ q, s.queries[c.1]? = some q ∧ q.AnsweredBy s.answers c.2
  waiting : ∀ name cbs, s.resolver.doWhenFound.lookup name = some cbs →
    ∀ cb ∈ cbs, AsksFor s.queries cb name
  asked : s.resolver.Asked
  loops : ∀ l ∈ s.loops, (l.name, l.answer) ∈ s.answers ∧ ∀ cb ∈ l.cbs, AsksFor s.queries cb l.name
  hosts : ∀ name entry, s.resolver.hosts.lookup name = some entry → (name, some entry) ∈ s.answers

theorem AsksFor.append {queries : List Query} {cb : Nat} {name : Str} (h : AsksFor queries cb name)
    (q : Query) : AsksFor (queries ++ [q]) cb name := by
  obtain ⟨q', hq, hname⟩ := h
  have hlt : cb < queries.length := (List.getElem?_eq_some_iff.mp hq).1
  exact ⟨q', by rw [List.getElem?_append_left hlt, hq], hname⟩

theorem Query.AnsweredBy.cons {q : Query} {answers : List (Str × Option Str)} {answer : Option Str}
    (h : q.AnsweredBy answers answer) (a : Str × Option Str) :
    q.AnsweredBy (a :: answers) answer := by
  rw [Query.AnsweredBy] at h ⊢
  split at h
  · exact List.mem_cons_of_mem _ h
  · exact h

/-- An answer for the name is one for the callback. -/
theorem AsksFor.answeredBy {queries : List Query} {cb : Nat} {name : Str} {answer : Option Str}
    {answers : List (Str × Option Str)} (h : AsksFor queries cb name)
    (hanswer : (name, answer) ∈ answers) :
    ∃ q, queries[cb]? = some q ∧ q.AnsweredBy answers answer := by
  obtain ⟨q, hq, hname⟩ := h
  refine ⟨q, hq, ?_⟩
  rw [Query.AnsweredBy, hname]
  exact hanswer

/-! ## The resolver's functions -/

section Functions

variable (r : Resolver Nat)

theorem lookup_waiting (mode : LookupMode) (name : Str) (callback : Option Nat) (cb : Nat) :
    (lookup mode name callback r).waiting cb = r.waiting cb + callback.toList.count cb := by
  rw [lookup]
  split
  next hnone =>
    show Mapping.total _ _ = Mapping.total _ _ + _
    rw [Mapping.total_insert, Mapping.weightAt_none _ hnone]
    omega
  next cbs hsome =>
    cases callback with
    | none => simp
    | some callback =>
      show Mapping.total _ _ = Mapping.total _ _ + _
      rw [Mapping.total_insert, Mapping.weightAt_some _ hsome, List.count_append, Option.toList_some]
      omega

theorem lookup_doWhenFound (mode : LookupMode) (name : Str) (callback : Option Nat) (name' : Str) :
    (lookup mode name callback r).doWhenFound.lookup name' =
      if name' = name then some ((r.doWhenFound.lookup name).getD [] ++ callback.toList)
      else r.doWhenFound.lookup name' := by
  rw [lookup]
  cases hname : r.doWhenFound.lookup name with
  | none => exact Mapping.lookup_insert_ite ..
  | some cbs =>
    cases callback with
    | none =>
      show r.doWhenFound.lookup name' = _
      split
      next he => rw [he, hname, Option.getD_some, Option.toList_none, List.append_nil]
      next => rfl
    | some callback => exact Mapping.lookup_insert_ite ..

theorem lookup_asked (mode : LookupMode) (name : Str) (callback : Option Nat) :
    (lookup mode name callback r).asked =
      if (r.doWhenFound.lookup name).isSome then r.asked else r.asked ++ [(mode, name)] := by
  rw [lookup]
  cases hname : r.doWhenFound.lookup name with
  | none => rfl
  | some cbs => cases callback <;> rfl

theorem Resolver.Asked.lookup {r : Resolver Nat} (h : r.Asked) (mode : LookupMode) (name : Str)
    (callback : Option Nat) : (lookup mode name callback r).Asked := by
  intro name' hname
  rw [lookup_asked]
  cases hsome : (r.doWhenFound.lookup name).isSome with
  | true =>
    by_cases he : name' = name
    · exact he ▸ h name hsome
    · rw [lookup_doWhenFound, if_neg he] at hname
      exact h name' hname
  | false =>
    by_cases he : name' = name
    · exact ⟨mode, by simp [he]⟩
    · rw [lookup_doWhenFound, if_neg he] at hname
      obtain ⟨mode', hmem⟩ := h name' hname
      exact ⟨mode', List.mem_append_left _ hmem⟩

theorem lookup_hosts (mode : LookupMode) (name : Str) (callback : Option Nat) :
    (lookup mode name callback r).hosts = r.hosts := by
  rw [lookup]
  split
  · rfl
  · split <;> rfl

theorem gotOneResult_waiting (name : Str) (answer : Option Str) (cb : Nat) :
    (gotOneResult name answer r).2.waiting cb =
      r.waiting cb - (gotOneResult name answer r).1.count cb := by
  show Mapping.total _ (r.doWhenFound.erase name) = Mapping.total _ _ - _
  rw [Mapping.total_erase, Mapping.weightAt]
  cases hname : r.doWhenFound.lookup name with
  | none => simp [gotOneResult, hname]
  | some cbs => simp [gotOneResult, hname]

theorem gotOneResult_hosts (name : Str) (answer : Option Str) (name' entry : Str)
    (h : (gotOneResult name answer r).2.hosts.lookup name' = some entry) :
    name' = name ∧ answer = some entry ∨ r.hosts.lookup name' = some entry := by
  cases answer with
  | none => exact .inr h
  | some answer =>
    have hinsert : (r.hosts.insert name answer).lookup name' = some entry := h
    rcases Mapping.lookup_insert_cases hinsert with ⟨he, rfl⟩ | ⟨-, hold⟩
    · exact .inl ⟨he, rfl⟩
    · exact .inr hold

/-- A call is answered without a lookup, or it is for a name. -/
theorem Query.run_cases (q : Query) (callback : Nat) :
    (q.name = none ∧ q.run callback r = (some q.plain, r)) ∨ ∃ mode name, q.name = some name ∧
      q.run callback r = cachedOrLookup mode name (some callback) r := by
  cases q with
  | ipToHost ipnumber =>
    cases ipnumber with
    | none => exact .inl ⟨rfl, rfl⟩
    | some ip =>
      by_cases hip : castInt ip = 0
      · refine .inl ⟨?_, ?_⟩
        · simp [Query.name, hip]
        · simp [Query.run, Hosts.ipToHost, Query.plain, hip]
      · refine .inr ⟨.ipToHost, ip, ?_, ?_⟩
        · simp [Query.name, hip]
        · simp [Query.run, Hosts.ipToHost, hip]
  | hostToIp host =>
    cases host with
    | none => exact .inl ⟨rfl, rfl⟩
    | some host =>
      by_cases hempty : host = []
      · exact .inl ⟨by rw [hempty]; rfl, by rw [hempty]; rfl⟩
      by_cases hip : isIp (withoutDot host) = true
      · refine .inl ⟨?_, ?_⟩
        · simp [Query.name, hempty, hip]
        · simp [Query.run, Hosts.hostToIp, Query.plain, hempty, hip]
      · refine .inr ⟨.hostToIp, withoutDot host, ?_, ?_⟩
        · simp [Query.name, hempty, hip]
        · simp [Query.run, Hosts.hostToIp, hempty, hip]

/-- A quick call changes nothing but by a `LOOKUP` without a callback. -/
theorem quickIpToHost_cases (ipnumber : Option Str) : (quickIpToHost ipnumber r).2 = r ∨
    ∃ mode name, (quickIpToHost ipnumber r).2 = lookup mode name none r := by
  cases ipnumber with
  | none => exact .inl rfl
  | some ip =>
    rw [quickIpToHost]
    split
    · exact .inl rfl
    · dsimp only
      split
      · exact .inl rfl
      · exact .inr ⟨_, _, rfl⟩

theorem quickHostToIp_cases (h : Str) : (quickHostToIp h r).2 = r ∨
    ∃ mode name, (quickHostToIp h r).2 = lookup mode name none r := by
  rw [quickHostToIp]
  split
  · exact .inl rfl
  · split
    · exact .inl rfl
    · split
      · exact .inl rfl
      · exact .inr ⟨_, _, rfl⟩

end Functions

/-! ## One event -/

variable {s : State}

/-- A `LOOKUP` without a callback. -/
theorem Inv.lookup (h : Inv s) (mode : LookupMode) (name : Str) :
    Inv { s with resolver := lookup mode name none s.resolver } where
  times cb := by
    rw [← h.times cb, State.times, State.times, lookup_waiting]
    simp
  own := h.own
  waiting name' cbs hcbs := by
    rw [lookup_doWhenFound] at hcbs
    split at hcbs
    next he =>
      cases hname : s.resolver.doWhenFound.lookup name with
      | none => simp [← Option.some.inj hcbs, hname]
      | some cbs' =>
        rw [hname, Option.getD_some, Option.toList_none, List.append_nil] at hcbs
        exact Option.some.inj hcbs ▸ he ▸ h.waiting name cbs' hname
    next => exact h.waiting name' cbs hcbs
  asked := h.asked.lookup mode name none
  loops := h.loops
  hosts name' entry hentry := by
    rw [lookup_hosts] at hentry
    exact h.hosts name' entry hentry

/-- What was called stays right when there are more calls. -/
theorem Inv.own_append (h : Inv s) (q : Query) (c : Nat × Option Str) (hc : c ∈ s.called) :
    ∃ q', (s.queries ++ [q])[c.1]? = some q' ∧ q'.AnsweredBy s.answers c.2 := by
  obtain ⟨q', hq, hright⟩ := h.own c hc
  have hlt : c.1 < s.queries.length := (List.getElem?_eq_some_iff.mp hq).1
  exact ⟨q', by rw [List.getElem?_append_left hlt, hq], hright⟩

/-- The new callback is in one place, and the others are where they were. -/
theorem Inv.times_new (h : Inv s) (q : Query) (cb : Nat) :
    s.times cb + (if s.queries.length = cb then 1 else 0) =
      if cb < (s.queries ++ [q]).length then 1 else 0 := by
  rw [h.times cb, List.length_append, List.length_singleton]
  split_ifs <;> omega

/-- A call with a callback that is answered at once. -/
theorem Inv.answered (h : Inv s) {q : Query} {answer : Option Str}
    (hanswer : q.AnsweredBy s.answers answer) :
    Inv { s with
      queries := s.queries ++ [q]
      called := (s.queries.length, answer) :: s.called } where
  times cb := by
    rw [← h.times_new q cb]
    simp only [State.times, List.map_cons, List.count_cons, beq_iff_eq]
    split <;> omega
  own c hc := by
    rcases List.mem_cons.mp hc with rfl | hc
    · exact ⟨q, by simp, hanswer⟩
    · exact h.own_append q c hc
  waiting name cbs hcbs cb hcb := (h.waiting name cbs hcbs cb hcb).append q
  asked := h.asked
  loops l hl := ⟨(h.loops l hl).1, fun cb hcb => ((h.loops l hl).2 cb hcb).append q⟩
  hosts := h.hosts

/-- A call with a callback that goes to `LOOKUP`. -/
theorem Inv.waits (h : Inv s) {q : Query} {name : Str} (hname : q.name = some name)
    (mode : LookupMode) :
    Inv { s with
      resolver := Hosts.lookup mode name (some s.queries.length) s.resolver
      queries := s.queries ++ [q] } where
  times cb := by
    rw [← h.times_new q cb]
    simp only [State.times, lookup_waiting, Option.toList_some, List.count_singleton, beq_iff_eq]
    split <;> omega
  own := h.own_append q
  waiting name' cbs hcbs cb hcb := by
    rw [lookup_doWhenFound] at hcbs
    split at hcbs
    next he =>
      rw [← Option.some.inj hcbs, List.mem_append] at hcb
      rcases hcb with hcb | hcb
      · cases hold : s.resolver.doWhenFound.lookup name with
        | none => simp [hold] at hcb
        | some cbs' =>
          rw [hold] at hcb
          exact he ▸ (h.waiting name cbs' hold cb hcb).append q
      · obtain rfl : cb = s.queries.length := by simpa using hcb
        exact ⟨q, by simp, he ▸ hname⟩
    next => exact (h.waiting name' cbs hcbs cb hcb).append q
  asked := h.asked.lookup mode name _
  loops l hl := ⟨(h.loops l hl).1, fun cb hcb => ((h.loops l hl).2 cb hcb).append q⟩
  hosts name' entry hentry := by
    rw [lookup_hosts] at hentry
    exact h.hosts name' entry hentry

/-- `got_one_result` takes the callbacks from their list. A lookup for the name may be over. -/
theorem Inv.result (h : Inv s) (name : Str) (answer : Option Str) (blocking : Bool)
    {asked : List (LookupMode × Str)}
    (hasked : ∀ a ∈ s.resolver.asked, a.2 ≠ name → a ∈ asked) :
    Inv ({ s with resolver := { s.resolver with asked } }.result name answer blocking) where
  times cb := by
    refine Eq.trans ?_ (h.times cb)
    simp only [State.times, State.result, gotOneResult_waiting, List.flatMap_cons,
      List.count_append]
    push_cast
    show _ + (s.resolver.waiting cb - _) + _ = _
    omega
  own c hc := by
    obtain ⟨q, hq, hright⟩ := h.own c hc
    exact ⟨q, hq, hright.cons _⟩
  waiting name' cbs hcbs := by
    have herase : (s.resolver.doWhenFound.erase name).lookup name' = some cbs := hcbs
    exact h.waiting name' cbs (Mapping.lookup_erase_some herase).2
  asked name' hname := by
    have herase : ((s.resolver.doWhenFound.erase name).lookup name').isSome = true := hname
    obtain ⟨hne, hold⟩ := Mapping.lookup_erase_isSome herase
    obtain ⟨mode, hmem⟩ := h.asked name' hold
    exact ⟨mode, hasked _ hmem hne⟩
  loops l hl := by
    rcases List.mem_cons.mp hl with rfl | hl
    · refine ⟨List.mem_cons_self, fun cb hcb => ?_⟩
      cases hold : s.resolver.doWhenFound.lookup name with
      | none => simp [gotOneResult, hold] at hcb
      | some cbs => exact h.waiting name cbs hold cb (by simpa [gotOneResult, hold] using hcb)
    · exact ⟨List.mem_cons_of_mem _ (h.loops l hl).1, (h.loops l hl).2⟩
  hosts name' entry hentry := by
    rcases gotOneResult_hosts _ name answer name' entry hentry with ⟨rfl, rfl⟩ | hold
    · exact List.mem_cons_self
    · exact List.mem_cons_of_mem _ (h.hosts name' entry hold)

theorem perm_eraseIdx {α : Type} {xs : List α} {i : Nat} {x : α} (h : xs[i]? = some x) :
    xs.Perm (x :: xs.eraseIdx i) := by
  obtain ⟨hlt, rfl⟩ := List.getElem?_eq_some_iff.mp h
  exact (List.getElem_cons_eraseIdx_perm hlt).symm

/-- What the loops have still to call, when one of them is another one or is gone. -/
theorem count_eraseIdx {loops : List Loop} {i : Nat} {l : Loop} (hl : loops[i]? = some l)
    (cb : Nat) : ((loops.eraseIdx i).flatMap Loop.cbs).count cb + l.cbs.count cb =
      (loops.flatMap Loop.cbs).count cb := by
  have hperm := (perm_eraseIdx hl).flatMap_right Loop.cbs
  rw [hperm.count_eq, List.flatMap_cons, List.count_append]
  omega

theorem count_set {loops : List Loop} {i : Nat} {l : Loop} (hl : loops[i]? = some l) (l' : Loop)
    (cb : Nat) : ((loops.set i l').flatMap Loop.cbs).count cb + l.cbs.count cb =
      (loops.flatMap Loop.cbs).count cb + l'.cbs.count cb := by
  have hlt : i < loops.length := (List.getElem?_eq_some_iff.mp hl).1
  have hperm := (List.set_perm_cons_eraseIdx hlt l').flatMap_right Loop.cbs
  have herase := count_eraseIdx hl cb
  rw [hperm.count_eq, List.flatMap_cons, List.count_append]
  omega

/-- A loop calls its next callback. -/
theorem Inv.next (h : Inv s) {i : Nat} {l : Loop} (hl : s.loops[i]? = some l) {cb : Nat}
    {cbs : List Nat} (hcbs : l.cbs = cb :: cbs) :
    Inv { s with
      loops := s.loops.set i { l with cbs, running := true }
      called := (cb, l.answer) :: s.called } where
  times cb' := by
    have hset := count_set hl { l with cbs, running := true } cb'
    have htimes := h.times cb'
    simp only [State.times, List.map_cons, List.count_cons, hcbs] at hset htimes ⊢
    omega
  own c hc := by
    have hmem : l ∈ s.loops := List.mem_of_getElem? hl
    rcases List.mem_cons.mp hc with rfl | hc
    · obtain ⟨hanswer, hasks⟩ := h.loops l hmem
      exact (hasks cb (hcbs ▸ List.mem_cons_self)).answeredBy hanswer
    · exact h.own c hc
  waiting := h.waiting
  asked := h.asked
  loops l' hl' := by
    rcases List.mem_or_eq_of_mem_set hl' with hl' | rfl
    · exact h.loops l' hl'
    · obtain ⟨hanswer, hasks⟩ := h.loops l (List.mem_of_getElem? hl)
      exact ⟨hanswer, fun cb' hcb' => hasks cb' (hcbs ▸ List.mem_cons_of_mem _ hcb')⟩
  hosts := h.hosts

/-- A callback returns. -/
theorem Inv.returns (h : Inv s) {i : Nat} {l : Loop} (hl : s.loops[i]? = some l) (running : Bool) :
    Inv { s with loops := s.loops.set i { l with running } } where
  times cb := by
    have hset := count_set hl { l with running } cb
    have htimes := h.times cb
    simp only [State.times] at hset htimes ⊢
    omega
  own := h.own
  waiting := h.waiting
  asked := h.asked
  loops l' hl' := by
    rcases List.mem_or_eq_of_mem_set hl' with hl' | rfl
    · exact h.loops l' hl'
    · exact h.loops l (List.mem_of_getElem? hl)
  hosts := h.hosts

/-- A loop that has nothing to call is over. -/
theorem Inv.over (h : Inv s) {i : Nat} {l : Loop} (hl : s.loops[i]? = some l) (hcbs : l.cbs = []) :
    Inv { s with loops := s.loops.eraseIdx i } where
  times cb := by
    have herase := count_eraseIdx hl cb
    have htimes := h.times cb
    simp only [State.times, hcbs, List.count_nil] at herase htimes ⊢
    omega
  own := h.own
  waiting := h.waiting
  asked := h.asked
  loops l' hl' := h.loops l' (List.mem_of_mem_eraseIdx hl')
  hosts := h.hosts

/-- The list of a name is dropped where nothing is in it. -/
theorem Inv.afterGotOneResult (h : Inv s) {name : Str}
    (hnone : (s.resolver.doWhenFound.lookup name).getD [] = []) :
    Inv { s with resolver := afterGotOneResult name s.resolver } where
  times cb := by
    refine Eq.trans ?_ (h.times cb)
    have hweight : Mapping.weightAt (fun cbs : List Nat => (cbs.count cb : Int))
        s.resolver.doWhenFound name = 0 := by
      rw [Mapping.weightAt]
      split
      next cbs hcbs =>
        rw [hcbs, Option.getD_some] at hnone
        rw [hnone, List.count_nil, Nat.cast_zero]
      next => rfl
    have hwaiting : (Hosts.afterGotOneResult name s.resolver).waiting cb =
        s.resolver.waiting cb := by
      show Mapping.total _ (s.resolver.doWhenFound.erase name) = Mapping.total _ _
      rw [Mapping.total_erase, hweight, sub_zero]
    simp only [State.times, hwaiting]
  own := h.own
  waiting name' cbs hcbs := by
    have herase : (s.resolver.doWhenFound.erase name).lookup name' = some cbs := hcbs
    exact h.waiting name' cbs (Mapping.lookup_erase_some herase).2
  asked name' hname := by
    have herase : ((s.resolver.doWhenFound.erase name).lookup name').isSome = true := hname
    exact h.asked name' (Mapping.lookup_erase_isSome herase).2
  loops := h.loops
  hosts := h.hosts

theorem Inv.query (h : Inv s) (q : Query) {s' : State} (hs : step s (.query q) = some s') :
    Inv s' := by
  rw [← Option.some.inj hs]
  rcases q.run_cases s.resolver s.queries.length with ⟨hname, hrun⟩ | ⟨mode, name, hname, hrun⟩
  · rw [hrun]
    refine h.answered ?_
    rw [Query.AnsweredBy, hname]
  · rw [hrun, cachedOrLookup]
    cases hentry : s.resolver.hosts.lookup name with
    | some entry =>
      refine h.answered ?_
      rw [Query.AnsweredBy, hname]
      exact h.hosts name entry hentry
    | none => exact h.waits hname mode

/-- What every event leaves. -/
theorem Inv.step (h : Inv s) {e : Event} (hmeets : Meets s e) {s' : State}
    (hs : step s e = some s') : Inv s' := by
  cases e with
  | query q => exact h.query q hs
  | quickIpToHost ipnumber =>
    rw [← Option.some.inj hs]
    rcases quickIpToHost_cases s.resolver ipnumber with heq | ⟨mode, name, heq⟩
    · rw [heq]
      exact h
    · rw [heq]
      exact h.lookup mode name
  | quickHostToIp host =>
    rw [← Option.some.inj hs]
    rcases quickHostToIp_cases s.resolver host with heq | ⟨mode, name, heq⟩
    · rw [heq]
      exact h
    · rw [heq]
      exact h.lookup mode name
  | blockingHostToIp host =>
    have hsame : ∀ blocked, Inv { s with blocked } := fun _ =>
      ⟨h.times, h.own, h.waiting, h.asked, h.loops, h.hosts⟩
    simp only [Hosts.step] at hs
    split at hs
    · exact Option.some.inj hs ▸ hsame _
    · exact Option.some.inj hs ▸ h
  | gethostbyname i answer =>
    obtain ⟨name, hname, hs⟩ := Option.bind_eq_some_iff.mp hs
    rw [← Option.some.inj hs]
    have hinv := @Inv.result s h name answer true s.resolver.asked fun _ ha _ => ha
    exact ⟨hinv.times, hinv.own, hinv.waiting, hinv.asked, hinv.loops, hinv.hosts⟩
  | answer i answer =>
    obtain ⟨⟨mode, name⟩, hname, hs⟩ := Option.bind_eq_some_iff.mp hs
    rw [← Option.some.inj hs]
    refine h.result name answer false fun a ha hne => ?_
    -- a lookup of another name is another lookup
    rcases List.mem_cons.mp ((perm_eraseIdx hname).mem_iff.mp ha) with rfl | hmem
    · exact absurd rfl hne
    · exact hmem
  | next i =>
    obtain ⟨l, hl, hs⟩ := Option.bind_eq_some_iff.mp hs
    split at hs
    next cb cbs hrunning hcbs => exact Option.some.inj hs ▸ h.next hl hcbs
    next => cases hs
  | returns i =>
    obtain ⟨l, hl, hs⟩ := Option.bind_eq_some_iff.mp hs
    split at hs
    · exact Option.some.inj hs ▸ h.returns hl false
    · cases hs
  | raises i =>
    obtain ⟨l, hl, hs⟩ := Option.bind_eq_some_iff.mp hs
    split at hs
    · exact Option.some.inj hs ▸ h.over hl (hmeets l hl)
    · cases hs
  | finish i =>
    obtain ⟨l, hl, hs⟩ := Option.bind_eq_some_iff.mp hs
    split at hs
    next hdone =>
      rw [← Option.some.inj hs]
      have hover := h.over hl hdone.2
      cases hblocking : l.blocking with
      | true => exact hover.afterGotOneResult (hmeets l hl hblocking)
      | false => exact hover
    next => cases hs
  | expire names =>
    rw [← Option.some.inj hs]
    refine ⟨h.times, h.own, h.waiting, h.asked, h.loops, fun name entry hentry => ?_⟩
    have herased : (s.resolver.hosts.eraseAll names).lookup name = some entry := hentry
    rw [Mapping.lookup_eraseAll] at herased
    split at herased
    · cases herased
    · exact h.hosts name entry herased

theorem inv_start : Inv .start := by
  refine ⟨?_, ?_, ?_, ?_, ?_, ?_⟩ <;>
    simp [State.start, Resolver.empty, State.times, Resolver.waiting, Resolver.Asked,
      Mapping.total]

theorem Inv.delivered (h : Inv s) : Delivered s := by
  have htimes : ∀ cb < s.queries.length, s.times cb = 1 := fun cb hcb => by
    rw [h.times cb, if_pos hcb]
  have hwaiting : ∀ cb, 0 ≤ s.resolver.waiting cb := fun cb =>
    Mapping.total_nonneg _ fun _ cbs _ => Int.natCast_nonneg (cbs.count cb)
  refine ⟨h.own, fun cb hcb => ?_, fun hasked hloops cb hcb => ?_⟩
  · have hone := htimes cb hcb
    have hnonneg := hwaiting cb
    rw [State.times] at hone
    omega
  · have hone := htimes cb hcb
    have hnone : s.resolver.waiting cb = 0 := Mapping.total_eq_zero _ fun name cbs hname => by
      obtain ⟨mode, hmem⟩ := h.asked name (by rw [hname]; rfl)
      rw [hasked] at hmem
      cases hmem
    rw [State.times, hnone, hloops] at hone
    simpa using hone

/-- **Over every run** of calls, answers and callbacks: each callback is called once, with an answer
for its own name. -/
theorem always_delivered (events : List Event) (hmeets : Lib.EachStep step Meets .start events) :
    Lib.Always step Delivered .start events := by
  have halways : Lib.Always Hosts.step Inv .start events :=
    Lib.always_of_step (fun s e s' h hm hs => h.step hm hs) events _ inv_start hmeets
  exact halways.mono (fun s h => h.delivered) events _

/-- Two callbacks for one address, one answer; the second callback raises. -/
theorem delivered_both : Lib.Always step Delivered .start
    [.query (.ipToHost (some "1.2.3.4".toList)), .query (.ipToHost (some "1.2.3.4".toList)),
      .answer 0 (some "host".toList), .next 0, .returns 0, .next 0, .raises 0] := by
  apply always_delivered
  refine ⟨trivial, fun s₁ h₁ => ⟨trivial, fun s₂ h₂ => ⟨trivial, fun s₃ h₃ => ⟨trivial, fun s₄ h₄ =>
    ⟨trivial, fun s₅ h₅ => ⟨trivial, fun s₆ h₆ => ⟨?_, fun _ _ => trivial⟩⟩⟩⟩⟩⟩⟩
  obtain rfl := Option.some.inj h₁
  obtain rfl := Option.some.inj h₂
  obtain rfl := Option.some.inj h₃
  obtain rfl := Option.some.inj h₄
  obtain rfl := Option.some.inj h₅
  obtain rfl := Option.some.inj h₆
  intro l hl
  rw [← Option.some.inj hl]

/-- The first callback raises, and the second is never called. -/
def raised : List Event :=
  [.query (.ipToHost (some "1.2.3.4".toList)), .query (.ipToHost (some "1.2.3.4".toList)),
    .answer 0 (some "host".toList), .next 0, .raises 0]

/-- A callback asks again for the name that `blocking_host_to_ip` has found no address for, and what
it passes is forgotten. -/
def forgotten : List Event :=
  [.query (.hostToIp (some "host".toList)), .blockingHostToIp (some "host".toList),
    .gethostbyname 0 none, .next 0, .query (.hostToIp (some "host".toList)), .returns 0,
    .finish 0, .answer 0 none, .finish 0, .answer 0 none, .finish 0]

theorem callback_lost : ¬ Lib.Always step Delivered .start raised ∧
    ¬ Lib.Always step Delivered .start forgotten := by
  have hlast : ∀ events : List Event, Lib.Always step Delivered .start events →
      ∀ s, Lib.runFrom step .start events = some s → Delivered s :=
    fun events h s hs => (Lib.always_iff_visited events _).mp h events [] s (by simp) hs
  refine ⟨fun h => ?_, fun h => ?_⟩
  · have hall := (hlast raised h _ rfl).all rfl rfl 1 (by decide)
    revert hall
    decide
  · have hall := (hlast forgotten h _ rfl).all rfl rfl 1 (by decide)
    revert hall
    decide

end Caudium.BaseServer.Hosts
