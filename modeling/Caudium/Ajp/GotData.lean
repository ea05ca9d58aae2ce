import Caudium.Ajp.Forward
import Caudium.Http.Packets
import Caudium.Lib.Runs
import Mathlib.Data.Multiset.UnionInter

/-!
# The AJP protocol module (protocols/ajp13.pike): `got_data`

`got_data` appends what the socket brings to `to_process` and lets `parse_got` take
packets off it: four bytes with a length, then as many as that. A forward request goes
to `parse_forward`. What `parse_got` returns when it needs more data is 0, and the
`switch` has a case for it, but the case does not return: whatever the loop has found,
`got_data` goes on to `handle_request`.

When the answer is sent the connection passes to a new object with what is left of
`to_process`. So a connection is a machine: the chunks that arrive, the answers, and
the objects that take over are its steps.
-/

namespace Caudium.Ajp

open Lib (Str Mapping cut runFrom)

/-! ## The request -/

/-- The request object: the fields that it has from http.pike, and others that
`parse_forward` sets. -/
structure Request where
  id : Http.RequestID
  restQuery : Str
  rawauth : Option Str
  pragma : Multiset Str
  useragent : Option Str
  referrer : Option Str
  host : Option Str
  since : Option Str

/-- A new request object. -/
def Request.fresh : Request where
  id := Http.RequestID.fresh
  restQuery := []
  rawauth := none
  pragma := 0
  useragent := none
  referrer := none
  host := none
  since := none

/-- `method_names`. -/
def methodNames : List (Nat × Str) :=
  [(1, "OPTIONS".toList), (2, "GET".toList), (3, "HEAD".toList), (4, "POST".toList),
    (5, "PUT".toList), (6, "DELETE".toList), (7, "TRACE".toList)]

/-- `f = raw_url = r->req_uri + (query_string ? "?" + query_string : "")`. A URI that could
not be read is 0, which adds as "0". -/
def Forward.url (r : Forward) : Str :=
  match r.attributes.lookup (some "query_string".toList) with
  | some (some query) => r.reqUri.getD ['0'] ++ '?' :: query
  | _ => r.reqUri.getD ['0']

/-- `request_headers`; a name or a value that could not be read counts as "". -/
def Forward.headers (r : Forward) : Mapping Str Str :=
  r.requestHeaders.entries.foldl (fun h e => h.insert (e.1.getD []) (e.2.getD [])) ∅

/-- From the query part of the URL to `not_query`: `config_in_url`, or `none` when one of
the functions throws. -/
def Request.scanUrl (env : Http.Env) (q : Request) : Option Bool × Request :=
  match q.id.scanQuery with
  | (false, id) => (none, { q with id := id })
  | (true, id) =>
    let q := { q with restQuery := (id.emptyVariables.intersperse [';']).flatten }
    match env.httpDecodeString id.f with
    | none => (none, { q with id := id })
    | some f =>
      let r := Http.configPart (Http.cutNul f)
      let id := { id with f := r.2 }.scanPrestate
      (some r.1, { q with
        id := { id with notQuery := some ((env.simplifyPath id.f).getD id.f) } })

/-- `case "content-length"`; `false` when it throws. -/
def Request.contentLength (env : Http.Env) (q : Request) : Bool × Request :=
  let l := Http.castInt (Http.removeSpaces (q.id.header "content-length".toList))
  if l = 0 then (true, { q with id := { q.id with miscLen := l } })
  else
    let data := q.id.data.getD []
    let wanted := if env.postBodySize < 0 then l else min l env.postBodySize
    let r := { q.id with
      miscLen := l, data := some data, wantedData := wanted, haveData := data.length }.takeBody env l
    (r.1.isNone, { q with id := r.2 })

/-- The `switch` on the name of a header; `false` when it throws. -/
def Request.headerCase (env : Http.Env) (q : Request) (linename : Str) : Bool × Request :=
  let value := q.id.header linename
  if linename = "content-length".toList then q.contentLength env
  else if linename = "authorization".toList then (true, { q with rawauth := some value })
  else if linename = "pragma".toList then
    (true, { q with
      pragma := q.pragma ∪ Multiset.ofList (Http.splitOn ',' (Http.removeSpaces value)) })
  else if linename = "user-agent".toList then
    (true, { q with useragent := some (((cut value " via".toList).map Prod.fst).getD value) })
  else if linename = "referer".toList then (true, { q with referrer := some value })
  else if linename = "connection".toList then
    (true, { q with id := { q.id with
      requestHeaders := q.id.requestHeaders.insert linename (Http.lowerCase value) } })
  else if linename ∈ Http.listHeaders then (true, { q with id := q.id.addMisc linename })
  else if linename = "host".toList then (true, { q with host := some (Http.lowerCase value) })
  else if linename = "if-modified-since".toList then (true, { q with since := some value })
  else (true, q)

/-- The loop over the headers. -/
def Request.headerCases (env : Http.Env) : List Str → Request → Bool × Request
  | [], q => (true, q)
  | linename :: rest, q =>
    match q.headerCase env linename with
    | (true, q) => q.headerCases env rest
    | r => r

/-- `parse_forward` after `decode_forward`: what it returns, or `none` when it throws. -/
def Request.parseForward (env : Http.Env) (q : Request) (r : Forward) : Option Bool × Request :=
  let clientprot := r.protocol.getD []
  let q := { q with id := { q.id with
    method := methodNames.lookup r.method, clientprot := clientprot, prot := clientprot
    f := r.url }.setRawUrl }
  match q.scanUrl env with
  | (none, q) => (none, q)
  | (some configInUrl, q) =>
    let q := { q with id := { q.id with requestHeaders := r.headers } }
    match q.headerCases env (env.indices q.id.requestHeaders) with
    | (false, q) => (none, q)
    | (true, q) => (some configInUrl, q)

/-! ## `parse_got` -/

/-- The protocol object: the request and the variables of ajp13.pike. Nothing ever
assigns `current_state`, so `parse_got` never takes a packet for a body. -/
structure Object where
  request : Request
  toProcess : Str
  /-- `got_len`. -/
  gotLen : Bool
  lenToGet : Nat
  /-- `body_len`: the `content-length` of the request, 0 if it has none. -/
  bodyLen : Option Str
  lastGetSuccess : Bool
  packet : Str

def Object.fresh : Object where
  request := Request.fresh
  toProcess := []
  gotLen := false
  lenToGet := 0
  bodyLen := none
  lastGetSuccess := false
  packet := []

/-- `parse_got` once the length is known: the type of the packet, if all of it is there. -/
def Object.takePacket (o : Object) : Nat × Object :=
  if o.lenToGet ≤ o.toProcess.length then
    let packet := o.toProcess.take o.lenToGet
    let o := { o with
      toProcess := o.toProcess.drop o.lenToGet
      lastGetSuccess := true, lenToGet := 0, gotLen := false }
    match packet with
    | c :: data => (c.toNat, { o with packet := data })
    | [] => (0, { o with packet := [] })
  else (0, o)

/-- `parse_got`. -/
def Object.parseGot (o : Object) : Nat × Object :=
  if o.gotLen then o.takePacket
  else
    match o.toProcess with
    | a :: b :: c :: d :: rest =>
      let o := { o with toProcess := rest }
      -- "invalid packet received!"
      if 256 * a.toNat + b.toNat ≠ 0x1234 then (0, o)
      else { o with gotLen := true, lenToGet := 256 * c.toNat + d.toNat }.takePacket
    | _ => (0, o)

/-! ## `got_data` -/

/-- How a turn of the loop ends: it breaks out of it with `ready_to_process`, it comes to
the condition of the loop, `parse_forward` has answered by itself, or it throws. -/
inductive Turn where
  | ready
  | next
  | shortCircuited
  | thrown
  deriving DecidableEq, Repr

/-- One turn of the loop. -/
def Object.turn (env : Http.Env) (o : Object) : Turn × Object :=
  let r := { o with lastGetSuccess := false }.parseGot
  if r.1 = msgForwardRequest then
    match (decodeForward msgForwardRequest).run r.2.packet with
    | none => (.thrown, r.2)
    | some (fwd, _) =>
      let o := { r.2 with
        bodyLen := (fwd.requestHeaders.lookup (some "content-length".toList)).join }
      match o.request.parseForward env fwd with
      | (none, q) => (.thrown, { o with request := q })
      | (some true, q) => (.shortCircuited, { o with request := q, packet := [], bodyLen := none })
      | (some false, q) =>
        (if o.bodyLen.isNone then .ready else .next, { o with request := q })
  else (.next, r.2)

/-- The loop of `got_data`, for at most `n` turns. -/
def Object.loop (env : Http.Env) : Nat → Object → Turn × Object
  | 0, o => (.next, o)
  | n + 1, o =>
    match o.turn env with
    | (.next, o) => if o.lastGetSuccess then o.loop env n else (.next, o)
    | r => r

/-- What a call of `got_data` comes to. -/
inductive Outcome where
  /-- `to_process` is empty. -/
  | ignored
  /-- `handle_request`. -/
  | handled
  /-- The answer is sent and the connection has passed to a new object; the call then
  throws, as `my_fd` is 0. -/
  | redirected
  | thrown
  deriving DecidableEq, Repr

/-- `got_data`. Of the turns only the first may do without four bytes. -/
def Object.gotData (env : Http.Env) (o : Object) (s : Str) : Outcome × Object :=
  let o := { o with toProcess := o.toProcess ++ s }
  if o.toProcess = [] then (.ignored, o)
  else
    match o.loop env (o.toProcess.length + 2) with
    | (.shortCircuited, o) => (.redirected, o)
    | (.thrown, o) => (.thrown, o)
    | (_, o) => (.handled, o)

/-! ## The loop ends -/

/-- What is left to work on. -/
def Object.work (o : Object) : Nat := o.toProcess.length + (if o.gotLen then 1 else 0)

theorem work_takePacket {o : Object} (hgot : o.gotLen = true) (hlast : o.lastGetSuccess = false)
    (h : o.takePacket.2.lastGetSuccess = true) : o.takePacket.2.work < o.work := by
  unfold Object.takePacket at h ⊢
  split
  next hlen =>
    have hdrop : (o.toProcess.drop o.lenToGet).length ≤ o.toProcess.length := by
      rw [List.length_drop]
      omega
    dsimp only
    split <;> simp only [Object.work, hgot, if_true, Bool.false_eq_true, if_false] <;> omega
  next hlen =>
    rw [if_neg hlen, hlast] at h
    cases h

theorem work_parseGot {o : Object} (hlast : o.lastGetSuccess = false)
    (h : o.parseGot.2.lastGetSuccess = true) : o.parseGot.2.work < o.work := by
  unfold Object.parseGot at h ⊢
  cases hgot : o.gotLen with
  | true =>
    rw [hgot, if_pos rfl] at h
    exact work_takePacket hgot hlast h
  | false =>
    rw [hgot, if_neg Bool.false_ne_true] at h
    rw [if_neg Bool.false_ne_true]
    split
    next a b c d rest heq =>
      rw [heq] at h
      dsimp only at h ⊢
      have hwork : o.work = rest.length + 4 := by
        rw [Object.work, heq, hgot]
        rfl
      split
      next hcode =>
        rw [if_pos hcode, hlast] at h
        cases h
      next hcode =>
        rw [if_neg hcode] at h
        refine Nat.lt_trans (work_takePacket rfl hlast h) ?_
        rw [hwork]
        exact Nat.lt_of_le_of_lt (Nat.le_refl (rest.length + 1)) (by omega)
    next hshort =>
      split at h
      next a b c d rest heq => exact absurd heq (hshort a b c d rest)
      next => rw [hlast] at h; cases h

/-- A turn takes no more off than `parse_got`. -/
theorem turn_object (env : Http.Env) (o : Object) :
    let r := { o with lastGetSuccess := false }.parseGot.2
    (o.turn env).2.toProcess = r.toProcess ∧ (o.turn env).2.gotLen = r.gotLen ∧
      (o.turn env).2.lastGetSuccess = r.lastGetSuccess := by
  unfold Object.turn
  dsimp only
  split
  · split
    · exact ⟨rfl, rfl, rfl⟩
    · split <;> exact ⟨rfl, rfl, rfl⟩
  · exact ⟨rfl, rfl, rfl⟩

theorem work_turn {env : Http.Env} {o : Object} (h : (o.turn env).2.lastGetSuccess = true) :
    (o.turn env).2.work < o.work := by
  obtain ⟨hprocess, hgot, hlast⟩ := turn_object env o
  rw [hlast] at h
  have hless := work_parseGot rfl h
  rw [Object.work, hprocess, hgot]
  exact hless

/-- The bound on the turns is never reached. -/
theorem loop_enough (env : Http.Env) :
    ∀ n (o : Object), o.work < n → o.loop env n = o.loop env (o.work + 1) := by
  intro n
  induction n using Nat.strongRecOn with
  | ind n ih =>
    intro o hn
    obtain ⟨n, rfl⟩ : ∃ m, n = m + 1 := ⟨n - 1, by omega⟩
    rw [Object.loop, Object.loop]
    split
    next o' hturn =>
      split
      next hlast =>
        have hless : o'.work < o.work := by
          have hgot : (o.turn env).2.lastGetSuccess = true := by rw [hturn]; exact hlast
          have h := work_turn hgot
          rwa [hturn] at h
        by_cases hn' : n = o.work
        · rw [hn']
        · rw [ih n (by omega) o' (by omega), ih o.work (by omega) o' hless]
      next => rfl
    next => rfl

/-! ## Connections -/

/-- A connection: which object has it, and what that object waits for. -/
inductive Socket where
  /-- The object reads. -/
  | reading (o : Object)
  /-- `handle_request` is at work. -/
  | handling (o : Object)
  /-- A new object is about to `chain`, with what the last one has left over. -/
  | chaining (leftOver : Str)
  /-- The connection is left to a module. -/
  | gone

/-- A connection, with the number of the chunks so far and the calls of `handle_request`:
in which chunk, and for what request. -/
structure Connection where
  socket : Socket
  arrived : Nat
  handled : List (Nat × Request)

/-- What happens on a connection. -/
inductive Event where
  | data (s : Str)
  /-- The answer has been sent. -/
  | answered
  /-- There is no answer, as the file is `leave_me`. -/
  | left
  /-- The new object takes over. -/
  | chain

/-- After a call of `got_data`. -/
def Connection.after (c : Connection) : Outcome × Object → Connection
  | (.handled, o) =>
    { c with socket := .handling o, handled := c.handled ++ [(c.arrived, o.request)] }
  | (.redirected, o) => { c with socket := .chaining o.toProcess }
  | (_, o) => { c with socket := .reading o }

/-- One event; `none` where it cannot happen. -/
def Connection.step (env : Http.Env) (c : Connection) : Event → Option Connection
  | .data s =>
    match c.socket with
    | .reading o => some ({ c with arrived := c.arrived + 1 }.after (o.gotData env s))
    | _ => none
  | .answered =>
    match c.socket with
    | .handling o => some { c with socket := .chaining o.toProcess }
    | _ => none
  | .left =>
    match c.socket with
    | .handling _ => some { c with socket := .gone }
    | _ => none
  | .chain =>
    match c.socket with
    | .chaining [] => some { c with socket := .reading Object.fresh }
    | .chaining le => some (c.after (Object.fresh.gotData env le))
    | _ => none

/-- The first request of a connection is read by the object that accepted it, the others
by one that has taken over from an object with nothing left. -/
inductive Connection.Start : Connection → Prop where
  | accepted : Start { socket := .reading Object.fresh, arrived := 0, handled := [] }
  | kept : Start { socket := .chaining [], arrived := 0, handled := [] }

/-- The chunks of a run. -/
def chunks (es : List Event) : List Str :=
  es.filterMap fun
    | .data s => some s
    | _ => none

/-- `p` is a packet with the forward request `fwd`, which has no `content-length`;
`parse_forward` makes the request `q` of it and returns `ret`: whether there is a
configuration in the URL, `none` if it throws. -/
structure Carries (env : Http.Env) (p : Str) (fwd : Forward) (ret : Option Bool) (q : Request) :
    Prop where
  wire : ∃ data left, p = chr 0x12 :: chr 0x34 ::
      (num16 (data.length + 1) ++ chr msgForwardRequest :: data) ∧ data.length < 65535 ∧
      (decodeForward msgForwardRequest).run data = some (fwd, left)
  noBody : fwd.requestHeaders.lookup (some "content-length".toList) = none
  parsed : Request.fresh.parseForward env fwd = (ret, q)

/-- `handle_request` is called once, for the request `q`, and it is the last chunk that
does it; and all chunks can arrive. -/
def Independent (env : Http.Env) (start : Connection) (cs : List Str) (q : Request) : Prop :=
  (∃ es c, chunks es = cs ∧ runFrom (Connection.step env) start es = some c) ∧
    ∀ es c, chunks es = cs → runFrom (Connection.step env) start es = some c →
      c.handled = [(cs.length, q)]

/-! ## One call -/

variable {env : Http.Env} {p : Str} {fwd : Forward} {ret : Option Bool} {q : Request}

/-- The header of a packet, and the rest of it. -/
theorem parseGot_wire {o : Object} {n : Nat} {rest : Str} (hgot : o.gotLen = false)
    (hn : n < 65536) (hprocess : o.toProcess = chr 0x12 :: chr 0x34 :: (num16 n ++ rest)) :
    o.parseGot = { o with toProcess := rest, gotLen := true, lenToGet := n }.takePacket := by
  have hcode : 256 * (chr 0x12).toNat + (chr 0x34).toNat = 0x1234 := rfl
  have hlen : 256 * (chr (n / 256 % 256)).toNat + (chr (n % 256)).toNat = n := by
    rw [toNat_chr (Nat.mod_lt _ (by omega)), toNat_chr (Nat.mod_lt _ (by omega))]
    omega
  unfold Object.parseGot
  rw [hgot, if_neg Bool.false_ne_true, hprocess]
  show (if _ then _ else _) = _
  rw [if_neg (not_not.mpr hcode), hlen]
  rfl

/-- A new object with its first chunk. -/
def Object.got (s : Str) : Object := { Object.fresh with toProcess := s }

theorem turn_got (s : Str) : (Object.got s).turn env =
    (let r := (Object.got s).parseGot
    if r.1 = msgForwardRequest then
      match (decodeForward msgForwardRequest).run r.2.packet with
      | none => (.thrown, r.2)
      | some (fwd, _) =>
        let o := { r.2 with
          bodyLen := (fwd.requestHeaders.lookup (some "content-length".toList)).join }
        match o.request.parseForward env fwd with
        | (none, q) => (.thrown, { o with request := q })
        | (some true, q) =>
          (.shortCircuited, { o with request := q, packet := [], bodyLen := none })
        | (some false, q) =>
          (if o.bodyLen.isNone then .ready else .next, { o with request := q })
    else (.next, r.2)) := rfl

theorem gotData_fresh {s : Str} (hs : s ≠ []) : Object.fresh.gotData env s =
    (match (Object.got s).loop env (s.length + 2) with
    | (.shortCircuited, o) => (.redirected, o)
    | (.thrown, o) => (.thrown, o)
    | (_, o) => (.handled, o)) := if_neg hs

/-- What a whole packet comes to. -/
def outcomeOf : Option Bool → Outcome
  | none => .thrown
  | some true => .redirected
  | some false => .handled

/-- The whole packet in one chunk. -/
theorem gotData_whole (h : Carries env p fwd ret q) : ∃ o,
    Object.fresh.gotData env p = (outcomeOf ret, o) ∧ o.toProcess = [] ∧ o.request = q := by
  obtain ⟨data, left, hp, hlen, hfwd⟩ := h.wire
  have hne : p ≠ [] := by
    rw [hp]
    exact List.cons_ne_nil _ _
  have htake : (chr msgForwardRequest :: data).take (data.length + 1) =
      chr msgForwardRequest :: data := List.take_of_length_le (Nat.le_refl _)
  have hdrop : (chr msgForwardRequest :: data).drop (data.length + 1) = [] :=
    List.drop_of_length_le (Nat.le_refl _)
  have hgot : (Object.got p).parseGot = (msgForwardRequest,
      { Object.fresh with lastGetSuccess := true, packet := data }) := by
    rw [parseGot_wire rfl (by omega) hp]
    unfold Object.takePacket
    dsimp only
    rw [if_pos (show data.length + 1 ≤ (chr msgForwardRequest :: data).length from Nat.le_refl _),
      htake, hdrop]
    rfl
  have hturn : ∃ (r : Turn) (o : Object), (Object.got p).turn env = (r, o) ∧
      (match r with
        | .thrown => ret = none
        | .shortCircuited => ret = some true
        | .ready => ret = some false
        | .next => False) ∧ o.toProcess = [] ∧ o.request = q := by
    rw [turn_got, hgot]
    dsimp only
    rw [if_pos rfl, hfwd]
    dsimp only
    rw [h.noBody, show Object.fresh.request = Request.fresh from rfl, h.parsed]
    cases ret with
    | none => exact ⟨_, _, rfl, rfl, rfl, rfl⟩
    | some configInUrl =>
      cases configInUrl with
      | true => exact ⟨_, _, rfl, rfl, rfl, rfl⟩
      | false => exact ⟨_, _, rfl, rfl, rfl, rfl⟩
  obtain ⟨r, o, hturn, hret, hspent, hrequest⟩ := hturn
  refine ⟨o, ?_, hspent, hrequest⟩
  rw [gotData_fresh hne, Object.loop, hturn]
  cases r with
  | ready =>
    obtain rfl : ret = some false := hret
    rfl
  | next => exact hret.elim
  | shortCircuited =>
    obtain rfl : ret = some true := hret
    rfl
  | thrown =>
    obtain rfl : ret = none := hret
    rfl

/-- A part of the packet is no packet yet. -/
theorem parseGot_part (h : Carries env p fwd ret q) {s t : Str} (hp : p = s ++ t)
    (ht : t ≠ []) : ∃ o, (Object.got s).parseGot = (0, o) ∧
      o.lastGetSuccess = false ∧ o.request = Request.fresh := by
  obtain ⟨data, left, hwire, hlen, -⟩ := h.wire
  by_cases hshort : s.length < 4
  · -- the four bytes are not there
    refine ⟨Object.got s, ?_, rfl, rfl⟩
    match s, hshort with
    | [], _ | [_], _ | [_, _], _ | [_, _, _], _ => rfl
    | _ :: _ :: _ :: _ :: rest, h => exact absurd h (by simp)
  · -- they are, but not what they announce
    obtain ⟨a, b, c, d, rest, rfl⟩ : ∃ a b c d rest, s = a :: b :: c :: d :: rest := by
      match s, hshort with
      | a :: b :: c :: d :: rest, _ => exact ⟨a, b, c, d, rest, rfl⟩
      | [], h | [_], h | [_, _], h | [_, _, _], h => exact absurd (by simp) h
    obtain ⟨hhead, hp⟩ := List.append_inj (show (chr 0x12 :: chr 0x34 ::
      num16 (data.length + 1)) ++ chr msgForwardRequest :: data = [a, b, c, d] ++ (rest ++ t) from
        hwire.symm.trans hp) rfl
    have hless : ¬ data.length + 1 ≤ rest.length := by
      have hcount := congrArg List.length hp
      have hpos := List.length_pos_iff.mpr ht
      rw [List.length_append] at hcount
      change data.length + 1 = _ at hcount
      omega
    refine ⟨{ Object.fresh with toProcess := rest, gotLen := true, lenToGet := data.length + 1 },
      ?_, rfl, rfl⟩
    have hs : (Object.got (a :: b :: c :: d :: rest)).toProcess =
        chr 0x12 :: chr 0x34 :: (num16 (data.length + 1) ++ rest) :=
      congrArg (· ++ rest) hhead.symm
    rw [parseGot_wire rfl (by omega) hs]
    unfold Object.takePacket
    exact if_neg hless

/-- All the same a part of the packet is handled. -/
theorem gotData_part (h : Carries env p fwd ret q) {s t : Str} (hp : p = s ++ t)
    (hs : s ≠ []) (ht : t ≠ []) : ∃ o,
      Object.fresh.gotData env s = (.handled, o) ∧ o.request = Request.fresh := by
  obtain ⟨o, hparse, hlast, hrequest⟩ := parseGot_part h hp ht
  have hturn : (Object.got s).turn env = (.next, o) := by
    rw [turn_got, hparse]
    exact if_neg (show ¬ 0 = msgForwardRequest by decide)
  refine ⟨o, ?_, hrequest⟩
  rw [gotData_fresh hs, Object.loop, hturn]
  dsimp only
  rw [hlast]
  rfl

/-! ## Runs of a connection -/

theorem handled_after (c : Connection) (r : Outcome × Object) :
    c.handled <+: (c.after r).handled := by
  obtain ⟨outcome, o⟩ := r
  cases outcome with
  | handled => exact List.prefix_append ..
  | ignored => exact List.prefix_refl _
  | redirected => exact List.prefix_refl _
  | thrown => exact List.prefix_refl _

/-- What has been handled stays so. -/
theorem handled_step {c c' : Connection} {e : Event} (h : c.step env e = some c') :
    c.handled <+: c'.handled := by
  unfold Connection.step at h
  split at h <;> split at h <;> cases h
  · exact handled_after { c with arrived := c.arrived + 1 } _
  · exact List.prefix_refl _
  · exact List.prefix_refl _
  · exact List.prefix_refl _
  · exact handled_after c _

theorem handled_run {c c' : Connection} {es : List Event}
    (h : runFrom (Connection.step env) c es = some c') : c.handled <+: c'.handled :=
  Lib.inv_of_runFrom (P := fun s => c.handled <+: s.handled) (Q := fun _ => True)
    (fun _ _ _ _ hpre hstep => hpre.trans (handled_step hstep)) es c c'
    (fun _ _ => trivial) (List.prefix_refl _) h

/-- Nothing is left over. -/
def Connection.Spent (c : Connection) : Prop :=
  match c.socket with
  | .handling o => o.toProcess = []
  | .chaining le => le = []
  | _ => True

/-- A connection with nothing left over handles nothing more until data arrive. -/
theorem spent_step {c c' : Connection} {e : Event} (he : ∀ s, e ≠ .data s) (hc : c.Spent)
    (h : c.step env e = some c') : c'.Spent ∧ c'.handled = c.handled := by
  obtain ⟨socket, arrived, handled⟩ := c
  cases e with
  | data s => exact absurd rfl (he s)
  | answered =>
    cases socket with
    | handling o =>
      cases h
      exact ⟨hc, rfl⟩
    | reading o => cases h
    | chaining le => cases h
    | gone => cases h
  | left =>
    cases socket with
    | handling o =>
      cases h
      exact ⟨trivial, rfl⟩
    | reading o => cases h
    | chaining le => cases h
    | gone => cases h
  | chain =>
    cases socket with
    | chaining le =>
      obtain rfl : le = [] := hc
      cases h
      exact ⟨trivial, rfl⟩
    | reading o => cases h
    | handling o => cases h
    | gone => cases h

theorem not_data_of_chunks {es : List Event} (h : chunks es = []) :
    ∀ e ∈ es, ∀ s, e ≠ .data s := by
  intro e he s heq
  subst heq
  have hnone := List.filterMap_eq_nil_iff.mp h _ he
  cases hnone

theorem spent_run {c c' : Connection} {es : List Event} (hc : c.Spent) (hes : chunks es = [])
    (h : runFrom (Connection.step env) c es = some c') : c'.handled = c.handled :=
  (Lib.inv_of_runFrom (P := fun s => s.Spent ∧ s.handled = c.handled)
    (fun _ _ _ he hs hstep =>
      have hnext := spent_step he hs.1 hstep
      ⟨hnext.1, hnext.2.trans hs.2⟩) es c c' (not_data_of_chunks hes) ⟨hc, rfl⟩ h).2

/-- The first chunk comes to a new object. -/
theorem start_chunk {start c : Connection} {es : List Event} {s : Str} {cs : List Str}
    (hstart : start.Start) (hes : chunks es = s :: cs)
    (h : runFrom (Connection.step env) start es = some c) : ∃ es', chunks es' = cs ∧
      runFrom (Connection.step env) (Connection.after
        { socket := .reading Object.fresh, arrived := 1, handled := [] }
        (Object.fresh.gotData env s)) es' = some c := by
  have haccepted : ∀ es, chunks es = s :: cs → runFrom (Connection.step env)
      { socket := .reading Object.fresh, arrived := 0, handled := [] } es = some c →
      ∃ es', chunks es' = cs ∧ runFrom (Connection.step env) (Connection.after
        { socket := .reading Object.fresh, arrived := 1, handled := [] }
        (Object.fresh.gotData env s)) es' = some c := by
    intro es hes h
    cases es with
    | nil => cases hes
    | cons e es =>
      cases e with
      | data s' =>
        obtain ⟨rfl, rfl⟩ := List.cons.inj hes
        exact ⟨es, rfl, h⟩
      | answered => cases h
      | left => cases h
      | chain => cases h
  cases hstart with
  | accepted => exact haccepted es hes h
  | kept =>
    cases es with
    | nil => cases hes
    | cons e es =>
      cases e with
      | chain => exact haccepted es hes h
      | data s' => cases h
      | answered => cases h
      | left => cases h

/-! ## Fragmentation -/

/-- After the whole packet nothing is left over, and `handle_request` has been called
unless `parse_forward` has thrown or found a configuration in the URL. -/
theorem after_whole (h : Carries env p fwd ret q) :
    let c := Connection.after { socket := .reading Object.fresh, arrived := 1, handled := [] }
      (Object.fresh.gotData env p)
    c.Spent ∧ c.handled = if ret = some false then [(1, q)] else [] := by
  obtain ⟨o, hgot, hspent, rfl⟩ := gotData_whole h
  rw [hgot]
  cases ret with
  | none => exact ⟨trivial, rfl⟩
  | some configInUrl =>
    cases configInUrl with
    | true => exact ⟨hspent, rfl⟩
    | false => exact ⟨hspent, rfl⟩

/-- Only a packet that comes in one chunk is handled as it should be. -/
theorem one_chunk_of_independent {start : Connection} {cs : List Str}
    (h : Carries env p fwd ret q) (hstart : start.Start) (hne : ∀ s ∈ cs, s ≠ [])
    (hp : cs.flatten = p) (hind : Independent env start cs q) :
    cs.length = 1 ∧ ret = some false := by
  obtain ⟨⟨es, c, hes, hrun⟩, hall⟩ := hind
  have hhandled := hall es c hes hrun
  cases cs with
  | nil =>
    obtain ⟨data, left, hwire, -⟩ := h.wire
    rw [hwire] at hp
    cases hp
  | cons s cs =>
    obtain ⟨es', hes', hrest⟩ := start_chunk hstart hes hrun
    rw [List.flatten_cons] at hp
    cases cs with
    | nil =>
      obtain rfl : s = p := by rwa [List.flatten_nil, List.append_nil] at hp
      obtain ⟨hspent, hafter⟩ := after_whole h
      refine ⟨rfl, ?_⟩
      rw [spent_run hspent hes' hrest, hafter] at hhandled
      by_contra hret
      rw [if_neg hret] at hhandled
      cases hhandled
    | cons s' cs =>
      -- the first chunk has been handled, and for a request without any fields
      have hmore : (s' :: cs).flatten ≠ [] := by
        rw [List.flatten_cons]
        exact List.append_ne_nil_of_left_ne_nil (hne s' (by simp)) _
      obtain ⟨o, hgot, -⟩ := gotData_part h hp.symm (hne s (by simp)) hmore
      have hpre := handled_run hrest
      rw [hgot, hhandled] at hpre
      obtain ⟨hone, -⟩ := List.cons_prefix_cons.mp hpre
      have hcount : 1 = (s :: s' :: cs).length := congrArg Prod.fst hone
      simp at hcount

/-- The forward request of "GET / HTTP/1.0" without headers or attributes. -/
def getPacket : Str :=
  let data := [chr 2] ++ num16 8 ++ "HTTP/1.0".toList ++ [chr 0] ++ num16 1 ++ "/".toList ++
    [chr 0] ++ num16 0 ++ [chr 0] ++ num16 0 ++ [chr 0] ++ num16 0 ++ [chr 0] ++ num16 80 ++
    [chr 0] ++ num16 0 ++ [chr 255]
  chr 0x12 :: chr 0x34 :: (num16 (data.length + 1) ++ chr msgForwardRequest :: data)

theorem getPacket_carries : ∃ fwd q, Carries Http.sampleEnv getPacket fwd (some false) q :=
  ⟨_, _, ⟨_, _, rfl, by decide, rfl⟩, rfl, rfl⟩

end Caudium.Ajp
