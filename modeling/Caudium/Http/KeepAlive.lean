import Caudium.Http.Packets
import Caudium.Lib.Runs

/-!
# Requests that follow each other on a connection

A client may send its next requests before it has the reply to the first. `got_data` then gets
more than one request at a time. What follows the body is kept in `leftovers`, or in `data` when
no body was announced; when the reply is out, `end` makes a new request object, and what is left
is the first thing that the new object gets (`chain`).

`gotData_more` is about one object: with more behind the request it reads what it reads without,
and what is left is exactly what was behind. One step of the connection keeps what it owes to the
client (`Owes`), so over a whole run no request is lost, handled twice or mixed with another one
(`pipelined_alone`).
-/

namespace Caudium.Http

open Lib (Str Mapping search runFrom)

/-! ## The connection -/

/-- What `end` reads of the reply; `close` when `send_result` has set
`request_headers->connection` to "close". -/
structure Sent where
  raw : Bool
  len : Int
  close : Bool

/-- `if(!leftovers) leftovers = data||""`. -/
def RequestID.left (id : RequestID) : Str := id.leftovers.getD (id.data.getD [])

/-- "Remove beginning newlines". -/
def skipNewlines : Str → Str
  | '\r' :: '\n' :: s => skipNewlines s
  | s => s

/-- The condition in `end`. -/
def RequestID.keptAlive (id : RequestID) (file : Sent) : Bool :=
  let connection :=
    if file.close then some "close".toList
    else id.requestHeaders.lookup "connection".toList
  !(file.raw || decide (file.len ≤ 0)) &&
    (connection = some "keep-alive".toList ||
      (id.prot = "HTTP/1.1".toList && connection ≠ some "close".toList))

/-- The new object that `end` transfers control to. -/
def RequestID.next (id : RequestID) : RequestID :=
  { RequestID.fresh with unreadData := id.unreadData }

/-- Where the object of a connection is. -/
inductive Phase
  /-- The read callback is set. -/
  | reading (id : RequestID)
  /-- The request is handled, and nothing is read. -/
  | handling (id : RequestID)
  /-- An error has ended `chain` before it could set the callbacks. -/
  | deaf
  | closed

/-- A connection, with the objects that have been handled. -/
structure Connection where
  phase : Phase
  handled : List RequestID

inductive Event
  /-- What has been read. -/
  | data (s : Str)
  /-- The reply is out, and the request is logged. -/
  | sent (file : Sent)

/-- What `got_data` does with the answer of `parse_got`. After a body that is too large the
answer is `more` as well; what then becomes of the connection is left out. -/
def enter (handled : List RequestID) (thrown : Phase) : Got × RequestID → Connection
  | (.more, id) => ⟨.reading id, handled⟩
  | (.thrown, _) => ⟨thrown, handled⟩
  | (.done, id) => ⟨.handling id, handled ++ [id]⟩
  | (.stupid, _) => ⟨.closed, handled⟩
  | (.closed, _) => ⟨.closed, handled⟩

/-- One thing happens. -/
def Connection.step (env : Env) (c : Connection) : Event → Option Connection
  | .data s =>
    match c.phase with
    | .reading id =>
      let r := id.gotData env s
      some (enter c.handled (.reading r.2) r)
    | _ => none
  | .sent file =>
    match c.phase with
    | .handling id =>
      if id.keptAlive file then
        some (enter c.handled .deaf (id.next.gotData env (skipNewlines id.left)))
      else some ⟨.closed, c.handled⟩
    | _ => none

/-- A new connection. -/
def Connection.fresh : Connection := ⟨.reading .fresh, []⟩

/-! ## What does not depend on what has arrived -/

/-- The fields that hold what has arrived. -/
structure Body where
  raw : Str
  data : Option Str
  haveData : Int
  leftovers : Option Str

/-- The object with other values in those fields. -/
def RequestID.setBody (id : RequestID) (b : Body) : RequestID :=
  { id with raw := b.raw, data := b.data, haveData := b.haveData, leftovers := b.leftovers }

theorem parseQuery_body (id : RequestID) (b : Body) (query : Str) :
    (id.setBody b).parseQuery query =
      ((id.parseQuery query).1, (id.parseQuery query).2.setBody b) := by
  unfold RequestID.parseQuery
  dsimp only [RequestID.setBody]
  cases parseQueryString query id.vars id.emptyVariables <;> rfl

theorem scanUrl_body (env : Env) (id : RequestID) (b : Body) :
    (id.setBody b).scanUrl env = ((id.scanUrl env).1, (id.scanUrl env).2.setBody b) := by
  have hquery : (id.setBody b).scanQuery = (id.scanQuery.1, id.scanQuery.2.setBody b) := by
    unfold RequestID.scanQuery
    rw [show (id.setBody b).f = id.f from rfl]
    cases Lib.cut id.f "?".toList with
    | none => rfl
    | some r => exact parseQuery_body { id with f := r.1, query := some r.2 } b r.2
  have hprestate : ∀ i : RequestID, (i.setBody b).scanPrestate = i.scanPrestate.setBody b := by
    intro i
    unfold RequestID.scanPrestate
    rw [show (i.setBody b).f = i.f from rfl]
    cases enclosed "/(".toList ")/".toList i.f with
    | none => rfl
    | some r =>
      dsimp only
      split <;> rfl
  unfold RequestID.scanUrl
  rw [hquery]
  cases hi : id.scanQuery with
  | mk ok i =>
  cases ok with
  | false => rfl
  | true =>
    dsimp only
    rw [show (i.setBody b).f = i.f from rfl]
    cases env.httpDecodeString i.f with
    | none => rfl
    | some f =>
      dsimp only
      have hclean := hprestate { i with f := (cleanUrl env f).2 }
      rw [show ({ i.setBody b with f := (cleanUrl env f).2 } : RequestID).scanPrestate
        = _ from hclean]
      rfl

theorem setRawUrl_body (id : RequestID) (b : Body) :
    (id.setBody b).setRawUrl = id.setRawUrl.setBody b := by
  unfold RequestID.setRawUrl
  dsimp only [RequestID.setBody]
  cases pathStart id.clientprot id.f <;> rfl

theorem afterUrl_body (env : Env) (id : RequestID) (b : Body) :
    (id.setBody b).setRawUrl.scanUrl env =
      ((id.setRawUrl.scanUrl env).1, (id.afterUrl env).setBody b) := by
  rw [setRawUrl_body, scanUrl_body]
  rfl

theorem withHeaders_body (id : RequestID) (b : Body) (s : Str) :
    (id.setBody b).withHeaders s = (id.withHeaders s).setBody b := by
  unfold RequestID.withHeaders
  split <;> rfl

theorem handleBodyEncoding_body (env : Env) (id : RequestID) (b : Body) (l : Int)
    (h : b.data = id.data) :
    (id.setBody b).handleBodyEncoding env l =
      ((id.handleBodyEncoding env l).1, (id.handleBodyEncoding env l).2.setBody b) := by
  obtain ⟨raw, data, have_, leftovers⟩ := b
  dsimp only at h
  subst h
  generalize hb : (⟨raw, id.data, have_, leftovers⟩ : Body) = b
  have htype : (id.setBody b).contentType = id.contentType := rfl
  have hdata : (id.setBody b).data = id.data := by rw [← hb]; rfl
  have hmethod : (id.setBody b).method = id.method := rfl
  have hheaders : (id.setBody b).requestHeaders = id.requestHeaders := rfl
  unfold RequestID.handleBodyEncoding
  rw [htype, hdata, hmethod, hheaders]
  dsimp only
  rw [parseQuery_body]
  split
  · subst hb
    cases env.mimeMessage (id.data.getD []) id.requestHeaders <;> rfl
  · split
    · rfl
    · split <;> rfl

/-- A header other than the length of the body. -/
theorem headerCase_body (env : Env) (id : RequestID) (b : Body) {linename : Str}
    (h : linename ≠ "content-length".toList) :
    (id.setBody b).headerCase env linename =
      ((id.headerCase env linename).1, (id.headerCase env linename).2.setBody b) := by
  unfold RequestID.headerCase
  rw [if_neg h, if_neg h]
  split
  · rfl
  · split
    · unfold RequestID.addMisc
      rw [show (id.setBody b).misc = id.misc from rfl]
      dsimp only
      cases id.misc.lookup linename <;> rfl
    · rfl

theorem headerCases_body {env : Env} (b : Body) (names : List Str) :
    ∀ id, "content-length".toList ∉ names → headerCases env names (id.setBody b) =
      ((headerCases env names id).1, (headerCases env names id).2.setBody b) := by
  induction names with
  | nil => exact fun _ _ => rfl
  | cons linename rest ih =>
    intro id hnot
    have hne : linename ≠ "content-length".toList := fun h => hnot (h ▸ List.mem_cons_self)
    have hgoes := (headerCase_spec env id linename).goesOn hne
    have hcase := headerCase_body env id b hne
    have hgoes' : ((id.setBody b).headerCase env linename).1 = none := by rw [hcase, hgoes]
    rw [headerCases_goesOn hgoes, headerCases_goesOn hgoes', hcase]
    exact ih _ fun h => hnot (List.mem_cons_of_mem linename h)

/-! ## A request with more behind it -/

/-- `r'` is `r`, but that `more` is left and the body, if there is one, is `d`. -/
def Leaves {α : Type} (d more : Str) (r r' : α × RequestID) : Prop :=
  ∃ b : Body, r' = (r.1, r.2.setBody b) ∧ b.leftovers.getD (b.data.getD []) = more ∧
    (d ≠ [] → b.data = some d)

section more

variable {env : Env} {more : Str}

/-- A body of the length that is announced is taken whole, and what is behind it is left. -/
theorem takeBody_more {id : RequestID} {d : Str} {l : Int} (hdata : id.data = some d)
    (hl : (d.length : Int) = l) (raw : Str) (have_ : Int) :
    ∃ b : Body, (id.setBody ⟨raw, some (d ++ more), have_, none⟩).takeBody env l =
        ((id.takeBody env l).1, (id.takeBody env l).2.setBody b) ∧
      b.leftovers = some more ∧ b.data = some d := by
  subst hl
  have hbody := handleBodyEncoding_body env { id with leftovers := some [], data := some d }
    ⟨raw, some d, have_, some more⟩ d.length rfl
  refine ⟨⟨raw, some d, have_, some more⟩, ?_, rfl, rfl⟩
  unfold RequestID.takeBody
  dsimp only
  rw [hdata, Option.getD_some, Int.toNat_natCast, List.drop_length, List.take_length,
    show (id.setBody ⟨raw, some (d ++ more), have_, none⟩).data = some (d ++ more) from rfl,
    Option.getD_some, List.drop_left, List.take_left]
  rw [show ({ id.setBody ⟨raw, some (d ++ more), have_, none⟩ with
      leftovers := some more, data := some d } : RequestID) =
    ({ id with leftovers := some [], data := some d } : RequestID).setBody
      ⟨raw, some d, have_, some more⟩ from rfl, hbody]
  cases ({ id with leftovers := some [], data := some d } : RequestID).handleBodyEncoding env
    d.length with
  | mk ok i => cases ok <;> rfl

/-- The visit of the length of the body. -/
theorem contentLength_more {id : RequestID} {d : Str} (hdata : id.data = some d)
    (hfits : (d.length : Int) = id.announced) (hnone : (id.contentLength env).1 = none)
    (raw : Str) (have_ : Int) :
    Leaves d more (id.contentLength env)
      ((id.setBody ⟨raw, some (d ++ more), have_, none⟩).contentLength env) := by
  have hlen : ∀ i : RequestID, i.requestHeaders = id.requestHeaders →
      castInt (removeSpaces (i.header "content-length".toList)) = id.announced := by
    intro i hi
    rw [RequestID.header, hi]
    rfl
  revert hnone
  unfold RequestID.contentLength
  rw [hlen _ rfl, hlen (id.setBody ⟨raw, some (d ++ more), have_, none⟩) rfl]
  dsimp only
  by_cases hzero : id.announced = 0
  · -- no body: `leftovers` stays unset, and what is behind the headers is in `data`
    rw [if_pos hzero, if_pos hzero]
    rw [hzero] at hfits ⊢
    obtain rfl : d = [] := List.eq_nil_of_length_eq_zero (Int.ofNat_eq_zero.mp hfits)
    exact fun _ => ⟨⟨raw, some more, have_, none⟩, rfl, rfl, fun h => absurd rfl h⟩
  rw [if_neg hzero, if_neg hzero]
  split
  · exact fun h => by cases h
  -- all of the body is there, and with more behind it there is no less
  have hdata' : (id.setBody ⟨raw, some (d ++ more), have_, none⟩).data = some (d ++ more) := rfl
  rw [hdata, hdata', Option.getD_some, Option.getD_some, Option.getD_some, Option.getD_some,
    if_neg (by omega), if_neg (Int.lt_irrefl _), if_neg (by rw [List.length_append]; omega),
    if_neg (Int.lt_irrefl _)]
  intro _
  obtain ⟨b, htake, hleft, hbody⟩ := @takeBody_more env more { id with
    miscLen := id.announced, data := some d, wantedData := id.announced, haveData := d.length }
    d id.announced rfl hfits raw (d ++ more).length
  exact ⟨b, htake, by rw [hleft]; rfl, fun _ => hbody⟩

/-- The loop over the headers: the length of the body is visited once, if at all. -/
theorem headerCases_more {names : List Str} {id : RequestID} {d : Str} (hnodup : names.Nodup)
    (hmem : id.announced ≠ 0 → "content-length".toList ∈ names) (hdata : id.data = some d)
    (hfits : (d.length : Int) = id.announced) (hnone : (headerCases env names id).1 = none)
    (raw : Str) (have_ : Int) :
    Leaves d more (headerCases env names id)
      (headerCases env names (id.setBody ⟨raw, some (d ++ more), have_, none⟩)) := by
  by_cases hin : "content-length".toList ∈ names
  · obtain ⟨xs, ys, rfl⟩ := List.append_of_mem hin
    rw [List.nodup_append] at hnodup
    obtain ⟨-, hys, hxs⟩ := hnodup
    -- what is visited before and after the length of the body does not look at it
    have hxs' : "content-length".toList ∉ xs := fun h => hxs _ h _ List.mem_cons_self rfl
    have hys' := (List.nodup_cons.mp hys).1
    obtain ⟨hbefore, hdata', -⟩ := @headerCases_none env xs id hxs'
    have hannounced : (headerCases env xs id).2.announced = id.announced :=
      announced_congr (headerCases_header env xs id (by decide))
    have hbody := @headerCases_body env ⟨raw, some (d ++ more), have_, none⟩ xs id hxs'
    have hbefore' := congrArg Prod.fst hbody
    rw [hbefore] at hbefore'
    have hcase : ∀ i : RequestID, i.headerCase env "content-length".toList = i.contentLength env :=
      fun i => if_pos rfl
    rw [headerCases_append xs _ id hbefore] at hnone ⊢
    rw [headerCases_append xs _ _ hbefore', hbody]
    generalize headerCases env xs id = r at hnone hdata' hannounced
    obtain ⟨g, i⟩ := r
    dsimp only at hnone hdata' hannounced ⊢
    -- the pass has not ended at the length of the body
    have hlen : (i.contentLength env).1 = none := by
      cases hlen : (i.contentLength env).1 with
      | none => rfl
      | some g =>
        rw [← hcase] at hlen
        rw [headerCases_stops hlen, hlen] at hnone
        cases hnone
    obtain ⟨b, hmore, hleft, hd⟩ := @contentLength_more env more i d (hdata'.trans hdata)
      (hfits.trans hannounced.symm) hlen raw have_
    rw [headerCases_goesOn (by rw [hcase]; exact hlen),
      headerCases_goesOn (by rw [hcase, hmore]; exact hlen), hcase, hcase, hmore]
    exact ⟨b, headerCases_body b ys _ hys', hleft, hd⟩
  · have hzero : id.announced = 0 := by
      by_contra hne
      exact hin (hmem hne)
    rw [hzero] at hfits
    obtain rfl : d = [] := List.eq_nil_of_length_eq_zero (Int.ofNat_eq_zero.mp hfits)
    exact ⟨_, headerCases_body _ names id hin, rfl, fun h => absurd rfl h⟩

/-- A pass over the headers, with more behind the body that they announce. -/
theorem parseRest_more (henv : env.Lawful) {id : RequestID} {d s : Str} (hdata : id.data = some d)
    (hheaders : id.requestHeaders = ∅) (hfits : (d.length : Int) = announcedIn (parseHeaders s))
    (hdone : (id.parseRest env s).1 = .done) (raw : Str) (have_ : Int) :
    Leaves d more (id.parseRest env s)
      ((id.setBody ⟨raw, some (d ++ more), have_, none⟩).parseRest env s) := by
  have hscan := (parseRest_done henv hdone).1
  have hurl := afterUrl_body env id ⟨raw, some (d ++ more), have_, none⟩
  have hscan' := congrArg Prod.fst hurl
  have hafter : (id.setBody ⟨raw, some (d ++ more), have_, none⟩).afterUrl env = _ :=
    congrArg Prod.snd hurl
  obtain ⟨_, _, _, _, _, _, _, hid, -, -⟩ := afterUrl_eq henv id
  have hdata' : ((id.afterUrl env).withHeaders s).data = some d := by
    unfold RequestID.withHeaders
    split <;> rw [hid] <;> exact hdata
  have hannounced : ((id.afterUrl env).withHeaders s).announced = announcedIn (parseHeaders s) := by
    by_cases hs : s = []
    · subst hs
      show announcedIn (id.afterUrl env).requestHeaders = _
      rw [hid, hheaders]
      decide
    · rw [withHeaders_ne hs]
      rfl
  rw [parseRest_eq hscan] at hdone ⊢
  rw [parseRest_eq (hscan'.trans hscan), hafter, withHeaders_body]
  have hnone := (finish_done hdone (headerCases_ne_done _ _)).1
  have hnodup : (visited env s).Nodup := by
    unfold visited
    split
    · exact List.nodup_nil
    · exact indices_nodup henv _
  obtain ⟨b, hmore, hleft, hbody⟩ := @headerCases_more env more (visited env s)
    ((id.afterUrl env).withHeaders s) d hnodup (fun hne => by
      rw [hannounced, ← hfits] at hne
      obtain ⟨hs, hmem⟩ := announced_pos henv (show 0 < announcedIn (parseHeaders s) by omega)
      rw [visited, if_neg hs]
      exact hmem) hdata' (by rw [hannounced]; exact hfits) hnone raw have_
  refine ⟨b, ?_, hleft, hbody⟩
  rw [hmore]
  rfl

end more

/-- What follows the headers. -/
def bodyOf (raw : Str) : Str := raw.drop (headEnd raw + 4)

section parts

variable {raw method f clientprot : Str} {n e : Nat}

theorem lineOf_append (h : Parts raw n e method f clientprot) (more : Str) :
    lineOf (raw ++ more) = lineOf raw := by
  have hfour := h.four_le
  have hle := h.head_le
  have hn := h.newline_le
  rw [h.lineOf_eq, lineOf, Lib.search_append h.newline more, Option.getD_some, cutLine, cutLine,
    charAt, charAt, List.take_append_of_le_length (by omega),
    List.take_append_of_le_length (by omega), List.getD_eq_getElem?_getD,
    List.getD_eq_getElem?_getD, List.getElem?_append_left (by omega)]

theorem headEnd_append (h : Parts raw n e method f clientprot) (more : Str) :
    headEnd (raw ++ more) = headEnd raw := by
  rw [h.headEnd_eq, headEnd, Lib.search_append h.head more, Option.getD_some]

theorem headOf_append (h : Parts raw n e method f clientprot) (more : Str) :
    headOf (raw ++ more) = headOf raw := by
  have hle := h.head_le
  rw [headOf, headOf, headEnd_append h, lineOf_append h, h.headEnd_eq, slice, slice,
    List.take_append_of_le_length (by omega)]

/-- With more behind it, a request has the same parts. -/
theorem Parts.append (h : Parts raw n e method f clientprot) (more : Str) :
    Parts (raw ++ more) n e method f clientprot where
  newline := Lib.search_append h.newline more
  long := by rw [lineOf_append h]; exact h.long
  line := by rw [lineOf_append h]; exact h.line
  head := Lib.search_append h.head more

theorem ready_append (h : Parts raw n e method f clientprot) (more : Str) :
    ready (raw ++ more) method f clientprot = (ready raw method f clientprot).setBody
      ⟨raw ++ more, some (bodyOf raw ++ more), 0, none⟩ := by
  have hle := h.head_le
  have hbody : (raw ++ more).drop (headEnd (raw ++ more) + 4) = bodyOf raw ++ more := by
    rw [headEnd_append h, bodyOf, List.drop_append_of_le_length (by rw [h.headEnd_eq]; exact hle)]
  rw [ready, hbody, ready, started, started, lineOf_append h]
  unfold RequestID.allowCache
  dsimp only
  split <;> rfl

/-- A complete request with more behind it is read as if it were alone, and what is left is what
was behind it. -/
theorem gotData_more {env : Env} (henv : env.Lawful) (hR : Complete env raw) (more : Str) :
    Leaves (bodyOf raw) more (RequestID.fresh.gotData env raw)
      (RequestID.fresh.gotData env (raw ++ more)) := by
  obtain ⟨n, e, method, f, clientprot, h⟩ := hR.parts
  have hlen := hR.length
  have hle := h.head_le
  obtain ⟨ok, hready, -⟩ := ready_eq raw method f clientprot
  rw [gotData_whole h, gotData_whole (h.append more), headOf_append h, ready_append h]
  refine parseRest_more henv (by rw [hready]; rfl) (by rw [hready]; rfl) ?_ (whole_done h hR)
    (raw ++ more) 0
  rw [bodyOf, List.length_drop]
  rw [h.headEnd_eq] at hlen ⊢
  omega

end parts

/-! ## Requests that come at once -/

/-- A request as a client sends it: blank lines may come behind it. -/
structure Piece (env : Env) where
  raw : Str
  blank : Str
  complete : Complete env raw
  blank_eq : skipNewlines blank = []

variable {env : Env}

/-- The object that the request makes when nothing else is there. -/
def Piece.alone (p : Piece env) : RequestID := (RequestID.fresh.gotData env p.raw).2

/-- The object is the one that the request makes alone, but for what has come behind it. -/
def Piece.MadeFor (p : Piece env) (id : RequestID) : Prop :=
  ∃ b : Body, id = p.alone.setBody b ∧ (bodyOf p.raw ≠ [] → id.data = some (bodyOf p.raw))

/-- The text of requests that come at once. -/
def joined (ps : List (Piece env)) : Str := ps.flatMap fun p => p.raw ++ p.blank

theorem skipNewlines_append {blank : Str} (h : skipNewlines blank = []) (s : Str) :
    skipNewlines (blank ++ s) = skipNewlines s := by
  induction blank using skipNewlines.induct with
  | case1 t ih => exact ih h
  | case2 t hnot =>
    rw [skipNewlines.eq_def] at h
    split at h
    next t => exact absurd rfl (hnot t)
    next => rw [h, List.nil_append]

/-- No request begins with a blank line. -/
theorem skipNewlines_raw {raw : Str} (hR : Complete env raw) (s : Str) :
    skipNewlines (raw ++ s) = raw ++ s := by
  obtain ⟨n, e, method, f, clientprot, h⟩ := hR.parts
  have hfour := h.four_le
  -- the first newline comes after a request line of at least four characters
  have hfirst := (Lib.search_eq_some.mp (Lib.search_append h.newline s)).2 1 (by omega)
  rw [skipNewlines.eq_def]
  split
  next t heq =>
    rw [heq] at hfirst
    exact absurd ⟨t, rfl⟩ hfirst
  next => rfl

theorem skipNewlines_joined (ps : List (Piece env)) : skipNewlines (joined ps) = joined ps := by
  cases ps with
  | nil => rfl
  | cons p ps =>
    rw [joined, List.flatMap_cons, List.append_assoc]
    exact skipNewlines_raw p.complete _

/-- What `got_data` of a new object makes of requests that come at once. -/
theorem enter_joined (henv : env.Lawful) (handled : List RequestID) (thrown : Phase)
    (p : Piece env) (ps : List (Piece env)) : ∃ id,
      enter handled thrown (RequestID.fresh.gotData env (joined (p :: ps))) =
        ⟨.handling id, handled ++ [id]⟩ ∧
      p.MadeFor id ∧ skipNewlines id.left = joined ps ∧ id.unreadData = 0 := by
  obtain ⟨n, e, method, f, clientprot, h⟩ := p.complete.parts
  obtain ⟨b, hgot, hleft, hbody⟩ := gotData_more henv p.complete (p.blank ++ joined ps)
  have htext : joined (p :: ps) = p.raw ++ (p.blank ++ joined ps) := by
    rw [joined, List.flatMap_cons, List.append_assoc]
    rfl
  have hunread : p.alone.unreadData = 0 := by
    obtain ⟨ok, hready, -⟩ := ready_eq p.raw method f clientprot
    rw [Piece.alone, gotData_whole h, (parseRest_spec henv _ _).unreadData, hready]
    rfl
  refine ⟨p.alone.setBody b, ?_, ⟨b, rfl, hbody⟩, ?_, hunread⟩
  · rw [htext, hgot, p.complete.accepted]
    rfl
  · show skipNewlines (b.leftovers.getD (b.data.getD [])) = _
    rw [hleft, skipNewlines_append p.blank_eq, skipNewlines_joined]

/-! ## Whole runs -/

/-- What happens on the connection of a client that sends whole requests. -/
inductive Act (env : Env)
  /-- Requests come, any number at once. -/
  | requests (ps : List (Piece env))
  | sent (file : Sent)

def Act.event : Act env → Event
  | .requests ps => .data (joined ps)
  | .sent file => .sent file

/-- The requests that have come. -/
def came (acts : List (Act env)) : List (Piece env) :=
  acts.flatMap fun
    | .requests ps => ps
    | .sent _ => []

theorem came_cons (act : Act env) (acts : List (Act env)) :
    came (act :: acts) = came [act] ++ came acts := by
  simp [came]

/-- What the connection owes to a client that has sent `ps`. -/
structure Owes (ps : List (Piece env)) (c : Connection) : Prop where
  /-- The objects handled are those of the first requests, in the order in which they came. -/
  served : List.Forall₂ Piece.MadeFor (ps.take c.handled.length) c.handled
  /-- Nothing is read while a request has to be handled. -/
  reading : ∀ id, c.phase = .reading id → id = .fresh ∧ c.handled.length = ps.length
  /-- The object that is handled is the last one, and the requests that follow are left in it. -/
  handling : ∀ id, c.phase = .handling id → c.handled.getLast? = some id ∧
    skipNewlines id.left = joined (ps.drop c.handled.length) ∧ id.unreadData = 0
  hears : c.phase ≠ .deaf

theorem Owes.fresh : Owes ([] : List (Piece env)) Connection.fresh where
  served := List.Forall₂.nil
  reading id h := by
    cases h
    exact ⟨rfl, rfl⟩
  handling id h := by cases h
  hears h := by cases h

/-- A new object gets the requests that are to be handled. -/
theorem Owes.enter (henv : env.Lawful) {ps : List (Piece env)} {handled : List RequestID}
    (hserved : List.Forall₂ Piece.MadeFor (ps.take handled.length) handled) (thrown : Phase)
    {c : Connection} (hc : c = Http.enter handled thrown
      (RequestID.fresh.gotData env (joined (ps.drop handled.length)))) :
    Owes ps c ∧ c.phase ≠ .closed := by
  have hlen := hserved.length_eq
  rw [List.length_take] at hlen
  -- without a request to handle the new object reads, as that of a new connection does
  cases htodo : ps.drop handled.length with
  | nil =>
    rw [htodo] at hc
    subst hc
    have hle := List.drop_eq_nil_iff.mp htodo
    refine ⟨⟨hserved, fun id hid => ?_, fun id hid => ?_, fun hid => ?_⟩, fun hid => ?_⟩
    · cases hid
      exact ⟨rfl, by show handled.length = _; omega⟩
    · cases hid
    · cases hid
    · cases hid
  | cons p rest =>
    rw [htodo] at hc
    obtain ⟨id, henter, hmade, hleft, hunread⟩ := enter_joined henv handled thrown p rest
    rw [henter] at hc
    subst hc
    have hps : ps.take (handled ++ [id]).length = ps.take handled.length ++ [p] := by
      rw [List.length_append, List.length_singleton, List.take_add, htodo]
      rfl
    have hrest : ps.drop (handled ++ [id]).length = rest := by
      rw [List.length_append, List.length_singleton, ← List.drop_drop, htodo]
      rfl
    refine ⟨⟨?_, fun id' hid => ?_, fun id' hid => ?_, fun hid => ?_⟩, fun hid => ?_⟩
    · show List.Forall₂ _ (ps.take (handled ++ [id]).length) (handled ++ [id])
      rw [hps]
      exact List.rel_append hserved (List.Forall₂.cons hmade List.Forall₂.nil)
    · cases hid
    · cases hid
      refine ⟨List.getLast?_concat, ?_, hunread⟩
      show _ = joined (ps.drop (handled ++ [id]).length)
      rw [hrest]
      exact hleft
    · cases hid
    · cases hid

/-- The step: what is owed stays what is owed, and the connection is closed by a reply only. -/
theorem Owes.step (henv : env.Lawful) {ps : List (Piece env)} {c c' : Connection}
    (h : Owes ps c) {act : Act env} (hstep : c.step env act.event = some c') :
    Owes (ps ++ came [act]) c' ∧ (c'.phase = .closed →
      ∃ file id, act = .sent file ∧ c.phase = .handling id ∧ id.keptAlive file = false) := by
  obtain ⟨phase, handled⟩ := c
  cases act with
  | requests qs =>
    rw [Act.event, Connection.step] at hstep
    cases phase with
    | reading id =>
      obtain ⟨rfl, hall⟩ := h.reading id rfl
      have hserved := h.served
      dsimp only at hall hserved hstep
      rw [hall, List.take_length] at hserved
      have hcame : ps ++ came [Act.requests qs] = ps ++ qs := by simp [came]
      rw [hcame]
      have hdrop : (ps ++ qs).drop handled.length = qs := by rw [hall, List.drop_left]
      obtain ⟨howes, hopen⟩ := @Owes.enter env henv (ps ++ qs) handled
        (by rw [hall, List.take_left]; exact hserved) _ c'
        (by rw [hdrop]; exact (Option.some.inj hstep).symm)
      exact ⟨howes, fun hclosed => absurd hclosed hopen⟩
    | handling id => cases hstep
    | deaf => cases hstep
    | closed => cases hstep
  | sent file =>
    have hcame : ps ++ came [Act.sent file] = ps := by simp [came]
    rw [hcame]
    rw [Act.event, Connection.step] at hstep
    cases phase with
    | reading id => cases hstep
    | handling id =>
      obtain ⟨-, hleft, hunread⟩ := h.handling id rfl
      dsimp only at hstep hleft
      have hnext : id.next = .fresh := by
        rw [RequestID.next, hunread]
        rfl
      rw [hnext, hleft] at hstep
      split at hstep
      next hkept =>
        obtain ⟨howes, hopen⟩ := Owes.enter henv h.served _ (Option.some.inj hstep).symm
        exact ⟨howes, fun hclosed => absurd hclosed hopen⟩
      next hkept =>
        obtain rfl := Option.some.inj hstep
        refine ⟨⟨h.served, fun id' hid => ?_, fun id' hid => ?_, fun hid => ?_⟩,
          fun _ => ⟨file, id, rfl, rfl, by simpa using hkept⟩⟩
        · cases hid
        · cases hid
        · cases hid
    | deaf => cases hstep
    | closed => cases hstep

theorem Owes.run (henv : env.Lawful) (acts : List (Act env)) :
    ∀ (ps : List (Piece env)) (c c' : Connection), Owes ps c →
      runFrom (Connection.step env) c (acts.map Act.event) = some c' →
      Owes (ps ++ came acts) c' := by
  induction acts with
  | nil =>
    intro ps c c' h hrun
    obtain rfl := Option.some.inj hrun
    rw [came, List.flatMap_nil, List.append_nil]
    exact h
  | cons act acts ih =>
    intro ps c c' h hrun
    rw [List.map_cons] at hrun
    cases hstep : c.step env act.event with
    | none =>
      rw [runFrom, hstep] at hrun
      cases hrun
    | some c₁ =>
      rw [Lib.runFrom_cons _ hstep] at hrun
      have hnext := ih _ c₁ c' (h.step henv hstep).1 hrun
      rw [List.append_assoc, ← came_cons] at hnext
      exact hnext

/-- A request for the front page. -/
def frontPage : Piece sampleEnv where
  raw := "GET / HTTP/1.1\r\n\r\n".toList
  blank := "\r\n".toList
  complete := ⟨by decide +kernel, by decide +kernel⟩
  blank_eq := by decide

end Caudium.Http
