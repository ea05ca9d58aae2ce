import Caudium.Http.ParseHeaders
import Caudium.Lib.Search
import Mathlib.Data.Multiset.ZeroCons

/-!
# The HTTP protocol module (protocols/http.pike): `got_data` and `parse_got`

`got_data` appends what the socket brings to `raw` and calls `parse_got`, which
starts over from `raw` each time: it reads the request line once, waits until the
headers are complete, then takes the URL apart and goes through the headers; the
`content-length` case may find that the body is not complete yet and return in
the middle. What the URL has become by then, and what the headers before it have
added, stays in the object for the next call.

Of the request object this file has the fields that the parse of the request line,
the URL, the headers and the body read or write. Pike's own functions are the
parameters of `Env`.
-/

namespace Caudium.Http

open Lib (Str Mapping search cut)

/-- A part of a multipart form, as `MIME.Message` gives it. -/
structure Part where
  name : VarName
  filename : Option Str
  contentDisposition : Option Str
  data : Str

/-- Pike's functions, and the setting that is read. -/
structure Env where
  /-- `_Roxen.http_decode_string`; `none` is an error. -/
  httpDecodeString : Str → Option Str
  /-- `utf8_to_string`; `none` is an error. -/
  utf8ToString : Str → Option Str
  /-- `Stdio.simplify_path`; `none` is an error. -/
  simplifyPath : Str → Option Str
  /-- `indices`, in the order in which a mapping happens to have its keys. -/
  indices : Mapping Str Str → List Str
  /-- The parts of `MIME.Message(data, headers)`; `none` is an error. -/
  mimeMessage : Str → Mapping Str Str → Option (List Part)
  /-- `conf->query("PostBodySize")`. -/
  postBodySize : Int

/-- The request object. Fields that are not set yet hold `none` or "". -/
structure RequestID where
  raw : Str
  method : Option Str
  f : Str
  line : Str
  clientprot : Str
  prot : Str
  lastSearch : Nat
  cacheControlOk : Bool
  data : Option Str
  rawUrl : Option Str
  absoluteUri : Option Str
  query : Option Str
  /-- `variables`. -/
  vars : Mapping VarName Str
  emptyVariables : List Str
  prestate : Multiset Str
  notQuery : Option Str
  requestHeaders : Mapping Str Str
  /-- The entries of `misc` that are lists made from a header. -/
  misc : Mapping Str (List Str)
  miscLen : Int
  wantedData : Int
  haveData : Int
  unreadData : Int
  leftovers : Option Str

/-- A new request object. -/
def RequestID.fresh : RequestID where
  raw := []
  method := none
  f := []
  line := []
  clientprot := []
  prot := []
  lastSearch := 0
  cacheControlOk := false
  data := none
  rawUrl := none
  absoluteUri := none
  query := none
  vars := ∅
  emptyVariables := []
  prestate := 0
  notQuery := none
  requestHeaders := ∅
  misc := ∅
  miscLen := 0
  wantedData := 0
  haveData := 0
  unreadData := 0
  leftovers := none

/-- What `parse_got` returns: 0 (`more`), 1 (`stupid`), 2 (`closed`), -1 (`done`);
or it throws. -/
inductive Got where
  | more
  | stupid
  | closed
  | done
  | thrown
  deriving DecidableEq, Repr

/-! ## The request line -/

/-- `line`: `raw` up to the newline at `start`, without "\r". -/
def cutLine (raw : Str) (start : Nat) : Str :=
  if charAt raw (start - 1) = '\r' then raw.take (start - 1) else raw.take start

/-- What the `sscanf` of the request line makes of it. -/
inductive LineScan where
  /-- Cases 1 and 2. -/
  | short (method : Str)
  /-- Cases 3 to 5, with `f` and `clientprot` as they are when case 3 begins. -/
  | full (method f clientprot : Str)

/-- Case 4: the URL had spaces in it, and `trailer` is all that came after the second. -/
def joinTrailer (method f clientprot trailer : Str) : LineScan :=
  let trailer := trailer.dropLast
  let f := f ++ ' ' :: clientprot
  match search trailer.reverse " ".toList with
  | none => .full method f trailer
  | some k =>
    let last := trailer.length - (k + 1)
    .full method (f ++ ' ' :: trailer.take last) (trailer.drop last)

/-- The `switch` on the `sscanf` of the request line. -/
def scanLine (line : Str) : LineScan :=
  match cut (line ++ " ".toList) " ".toList with
  | none => .short []
  | some (method, rest) =>
    match cut rest " ".toList with
    | none => .short method
    | some (f, rest) =>
      match cut rest " ".toList with
      | none => .short method
      | some (clientprot, rest) =>
        match cut rest " ".toList with
        | none => .full method f clientprot
        | some (trailer, trailerTrailer) =>
          if trailerTrailer = [] then joinTrailer method f clientprot trailer
          else joinTrailer method f clientprot (trailer ++ ' ' :: trailerTrailer.dropLast)

/-- `prot`: what is not HTTP/1.0 is taken for HTTP/1.1. -/
def protOf (clientprot : Str) : Str :=
  if clientprot = "HTTP/1.0".toList then "HTTP/1.0".toList else "HTTP/1.1".toList

/-- `"\r\n\r\n"`. -/
def crlf2 : Str := ['\r', '\n', '\r', '\n']

/-! ## The URL -/

/-- The length of the scheme of an absolute URI. -/
def schemeLength (url : Str) : Nat :=
  if "https://".toList <+: url then 8 else if "http://".toList <+: url then 7 else 0

/-- Where the path of an absolute URI begins. -/
def pathStart (clientprot url : Str) : Option Nat :=
  let startpos := schemeLength url
  let i := startpos + ((url.drop startpos).takeWhile (· ≠ '/')).length
  if clientprot = "HTTP/1.1".toList ∧ startpos ≠ 0 ∧ i < url.length then some i else none

/-- "recording the host part". -/
def RequestID.recordHost (id : RequestID) (i : Nat) : RequestID :=
  { id with
    absoluteUri := some (id.f.take (i + 1))
    rawUrl := some (id.f.drop i)
    f := id.f.drop i }

/-- `raw_url = f` and the check for an absolute URI. -/
def RequestID.setRawUrl (id : RequestID) : RequestID :=
  let id := { id with rawUrl := some id.f }
  match pathStart id.clientprot id.f with
  | some i => id.recordHost i
  | none => id

/-- `variables[varname] = ""` for every empty variable. -/
def addEmpty (vars : Mapping VarName Str) (names : List Str) : Mapping VarName Str :=
  names.foldl (fun acc name => acc.insert (some name) []) vars

/-- `Caudium.parse_query_string(query, variables, empty_variables)` and the loop
after it; `false` when it throws. -/
def RequestID.parseQuery (id : RequestID) (query : Str) : Bool × RequestID :=
  match parseQueryString query id.vars id.emptyVariables with
  | none => (false, id)
  | some (vars, empty) =>
    (true, { id with vars := addEmpty vars empty, emptyVariables := empty })

/-- The query part of the URL; `false` when its parser throws. -/
def RequestID.scanQuery (id : RequestID) : Bool × RequestID :=
  match cut id.f "?".toList with
  | none => (true, id)
  | some (f, query) => { id with f := f, query := some query }.parseQuery query

/-- `sscanf(f, "%s\0", f)`. -/
def cutNul (f : Str) : Str := f.takeWhile (· ≠ '\x00')

/-- `sscanf(f, before + "%s" + after + "%s", a, f) == 2`: `a` and the new `f`. -/
def enclosed (before after f : Str) : Option (Str × Str) :=
  if before <+: f then cut (f.drop before.length) after else none

/-- `config_in_url`, and `f` without the configuration. -/
def configPart (f : Str) : Bool × Str :=
  match enclosed "/<".toList ">/".toList f with
  | some (_, rest) => (true, '/' :: rest)
  | none =>
    match enclosed "/%3C".toList "%3E".toList f with
    | some (_, rest) => (true, '/' :: rest)
    | none => (false, f)

/-- `a / sep`, for a separator of one character. -/
def splitOn (sep : Char) (a : Str) : List Str := a.splitOn sep

/-- The URL after `http_decode_string`, up to and with the configuration. -/
def cleanUrl (env : Env) (f : Str) : Bool × Str :=
  configPart (cutNul ((env.utf8ToString f).getD f))

/-- The prestates in the URL. -/
def RequestID.scanPrestate (id : RequestID) : RequestID :=
  match enclosed "/(".toList ")/".toList id.f with
  | none => id
  | some (a, rest) =>
    if a = [] then { id with f := rest }
    else
      { id with
        prestate := Multiset.ofList ((splitOn ',' a).filter (· ≠ []))
        f := '/' :: rest }

/-- From the query part of the URL to `not_query`: `config_in_url`, or `none` when
one of the functions throws. -/
def RequestID.scanUrl (env : Env) (id : RequestID) : Option Bool × RequestID :=
  match id.scanQuery with
  | (false, id) => (none, id)
  | (true, id) =>
    match env.httpDecodeString id.f with
    | none => (none, id)
    | some f =>
      let r := cleanUrl env f
      let id := { id with f := r.2 }.scanPrestate
      (some r.1, { id with notQuery := some ((env.simplifyPath id.f).getD id.f) })

/-! ## The headers and the body -/

/-- `s - " "`. -/
def removeSpaces (s : Str) : Str := s.filter (· ≠ ' ')

/-- `lower_case`, of a string of 8-bit characters. -/
def lowerCase (s : Str) : Str :=
  s.map fun c =>
    if (65 ≤ c.toNat ∧ c.toNat ≤ 90) ∨ (192 ≤ c.toNat ∧ c.toNat ≤ 222 ∧ c.toNat ≠ 215) then
      Char.ofNat (c.toNat + 32)
    else c

/-- The decimal number a string begins with; 0 if it begins with none. -/
def number (s : Str) : Nat :=
  (s.takeWhile Char.isDigit).foldl (fun n c => 10 * n + (c.toNat - 48)) 0

/-- White space to the cast. -/
def isBlank (c : Char) : Bool :=
  c = ' ' || decide (9 ≤ c.toNat ∧ c.toNat ≤ 13) || decide (c.toNat = 133 ∨ c.toNat = 160)

/-- `(int)s`. -/
def castInt (s : Str) : Int :=
  match s.dropWhile isBlank with
  | '-' :: s => -(number s : Int)
  | '+' :: s => number s
  | s => number s

/-- `request_headers[linename]`. -/
def RequestID.header (id : RequestID) (linename : Str) : Str :=
  (id.requestHeaders.lookup linename).getD []

/-- The type of the body, without parameters. -/
def RequestID.contentType (id : RequestID) : Str :=
  lowerCase (removeSpaces ((id.header "content-type".toList ++ [';']).takeWhile (· ≠ ';')))

/-- The name of an uploaded file: the third part of the header, if it has one, is
preferred to what `MIME` found. -/
def Part.fname (part : Part) (filename : Str) : Str :=
  match part.contentDisposition with
  | none => filename
  | some disposition =>
    match (splitOn ';' disposition)[2]? with
    | none => filename
    | some third =>
      if '=' ∈ third then
        let fname := ((splitOn '=' third)[1]?).getD []
        slice fname 1 (fname.length - 1)
      else filename

/-- One part of a multipart form. -/
def storePart (vars : Mapping VarName Str) (part : Part) : Mapping VarName Str :=
  match part.filename with
  | some filename =>
    (vars.insert part.name part.data).insert
      (some (part.name.getD "0".toList ++ ".filename".toList)) (part.fname filename)
  | none =>
    match vars.lookup part.name with
    | some old => vars.insert part.name (old ++ '\x00' :: part.data)
    | none => vars.insert part.name part.data

/-- `handle_body_encoding`; `false` when it throws. -/
def RequestID.handleBodyEncoding (env : Env) (id : RequestID) (contentLength : Int) :
    Bool × RequestID :=
  let data := id.data.getD []
  if id.contentType = "multipart/form-data".toList then
    match env.mimeMessage data id.requestHeaders with
    | none => (true, id)
    | some parts => (true, { id with vars := parts.foldl storePart id.vars })
  else if id.method ≠ some "POST".toList then (true, id)
  else if contentLength < 200000 then
    id.parseQuery (data.filter fun c => c ≠ '\n' && c ≠ '\r')
  else (true, id)

/-- The body: `leftovers` is what comes after it. -/
def RequestID.takeBody (env : Env) (id : RequestID) (l : Int) : Option Got × RequestID :=
  let data := id.data.getD []
  let id := { id with leftovers := some (data.drop l.toNat), data := some (data.take l.toNat) }
  match id.handleBodyEncoding env l with
  | (false, id) => (some .thrown, id)
  | (true, id) => (none, { id with wantedData := 0 })

/-- `case "content-length"`: `some` when `parse_got` returns there. -/
def RequestID.contentLength (env : Env) (id : RequestID) : Option Got × RequestID :=
  let l := castInt (removeSpaces (id.header "content-length".toList))
  let id := { id with miscLen := l }
  if l = 0 then (none, id)
  else
    let id := { id with data := some (id.data.getD []) }
    -- error 413 is sent, and 0 returned
    if 0 < env.postBodySize ∧ env.postBodySize < l then (some .more, id)
    else
      let id := { id with wantedData := l, haveData := (id.data.getD []).length }
      if id.haveData < id.wantedData then (some .more, id)
      else
        let id := if id.wantedData < l then { id with unreadData := l - id.haveData } else id
        id.takeBody env l

/-- The headers that end up in `misc` as lists. -/
def listHeaders : List Str :=
  ["accept-encoding".toList, "accept".toList, "accept-charset".toList, "accept-language".toList,
    "session-id".toList, "message-id".toList, "from".toList]

/-- `misc[linename] += ...`, or `=` when there is nothing yet. -/
def RequestID.addMisc (id : RequestID) (linename : Str) : RequestID :=
  let value := splitOn ',' (removeSpaces (id.header linename))
  match id.misc.lookup linename with
  | some old => { id with misc := id.misc.insert linename (old ++ value) }
  | none => { id with misc := id.misc.insert linename value }

/-- The `switch` on the name of a header. -/
def RequestID.headerCase (env : Env) (id : RequestID) (linename : Str) : Option Got × RequestID :=
  if linename = "content-length".toList then id.contentLength env
  else if linename = "connection".toList then
    let value := lowerCase (id.header linename)
    (none, { id with requestHeaders := id.requestHeaders.insert linename value })
  else if linename ∈ listHeaders then (none, id.addMisc linename)
  else (none, id)

/-- The loop over the headers, until one of them makes `parse_got` return. -/
def headerCases (env : Env) : List Str → RequestID → Option Got × RequestID
  | [], id => (none, id)
  | linename :: rest, id =>
    match id.headerCase env linename with
    | (none, id) => headerCases env rest id
    | r => r

/-- "s now contains the unparsed headers". -/
def RequestID.scanHeaders (env : Env) (id : RequestID) (s : Str) : Option Got × RequestID :=
  if s = [] then (none, id)
  else
    let id := { id with requestHeaders := parseHeaders s }
    headerCases env (env.indices id.requestHeaders) id

/-! ## `parse_got` and `got_data` -/

/-- The end of `parse_got`, unless a header has made it return. -/
def finish (configInUrl : Bool) (r : Option Got × RequestID) : Got × RequestID :=
  (r.1.getD (if configInUrl then .closed else .done), r.2)

/-- `parse_got` after `s` and `data` are set. -/
def RequestID.parseRest (env : Env) (id : RequestID) (s : Str) : Got × RequestID :=
  match id.setRawUrl.scanUrl env with
  | (none, id) => (.thrown, id)
  | (some configInUrl, id) => finish configInUrl (id.scanHeaders env s)

/-- The headers are complete: they end at `hend`. -/
def RequestID.parseFrom (env : Env) (id : RequestID) (hend : Nat) : Got × RequestID :=
  { id with data := some (id.raw.drop (hend + 4)) }.parseRest env
    (slice id.raw (id.line.length + 2) hend)

/-- `cache_control_ok`, for HTTP/1.1. -/
def RequestID.allowCache (id : RequestID) : RequestID :=
  if id.prot = "HTTP/1.1".toList then { id with cacheControlOk := true } else id

/-- The request line is there. -/
def RequestID.parseLine (env : Env) (id : RequestID) : Got × RequestID :=
  match scanLine id.line with
  | .short method =>
    if method = "PING".toList then (.closed, { id with method := some method })
    else (.stupid, { id with method := some "UNKNOWN".toList })
  | .full method f clientprot =>
    let id := { id with
      method := some method, f := f, clientprot := clientprot, prot := protOf clientprot }
    match search (id.raw.drop id.lastSearch) crlf2 with
    | none => (.more, { id with lastSearch := id.raw.length - 5 })
    | some k => { id.allowCache with lastSearch := 0 }.parseFrom env (k + id.lastSearch)

/-- `parse_got`. -/
def RequestID.parseGot (env : Env) (id : RequestID) : Got × RequestID :=
  match id.method with
  | none =>
    match search (id.raw.drop id.lastSearch) "\n".toList with
    | none => (.more, { id with lastSearch := max (id.raw.length - 3) 4 })
    | some k =>
      let start := k + id.lastSearch
      if start = 0 then (.stupid, { id with lastSearch := 0 })
      else
        let id := { id with lastSearch := 0, line := cutLine id.raw start }
        if id.line.length < 4 then (.stupid, id) else id.parseLine env
  | some _ =>
    match search (id.raw.drop id.lastSearch) crlf2 with
    | none => (.more, { id with lastSearch := id.raw.length - 5 })
    | some k => id.parseFrom env (k + id.lastSearch)

/-- `got_data` once what belongs to an earlier request has been dropped. -/
def RequestID.addData (env : Env) (id : RequestID) (s : Str) : Got × RequestID :=
  let id := { id with raw := id.raw ++ s }
  if 0 < id.wantedData ∧ (id.raw.length : Int) < id.wantedData then (.more, id)
  else if id.raw = [] then (.more, id)
  else id.parseGot env

/-- `got_data`, as far as `parse_got`. -/
def RequestID.gotData (env : Env) (id : RequestID) (s : Str) : Got × RequestID :=
  if 0 < id.unreadData then
    if id.unreadData < s.length then
      { id with unreadData := 0 }.addData env (s.drop id.unreadData.toNat)
    else (.more, { id with unreadData := id.unreadData - s.length })
  else id.addData env s

/-- What arrives is given to `got_data` until `parse_got` answers; an error leaves
the connection open. -/
def receive (env : Env) : RequestID → List Str → Got × RequestID
  | id, [] => (.more, id)
  | id, s :: rest =>
    match id.gotData env s with
    | (.more, id) => receive env id rest
    | (.thrown, id) => receive env id rest
    | r => r

end Caudium.Http
