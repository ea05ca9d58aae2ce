import Caudium.Ajp.Protocol
import Caudium.Http.ParseGot
import Caudium.Http.UrlCodec

/-!
# The forward request of the Apache JServ protocol

`packet_forward_request` packs a request for the servlet container, `decode_forward`
takes it apart. The request is not sent as it stands: the name of the remote host is
looked up, and left out where the look-up gives the address; the URI is encoded if the
connection says so; a `content-length` is put among the headers if there is none; the
server's name is cut out of its URL. What is sent then is received
(`forward_round_trip`).
-/

namespace Caudium.Ajp

open Lib (Str Mapping Decodes cut)
open Caudium.Http (narrow number)

/-! ## Tables -/

/-- The cases of `method_from_string`. -/
def methodCodes : List (Str × Nat) :=
  [("OPTIONS".toList, 1), ("GET".toList, 2), ("HEAD".toList, 3), ("POST".toList, 4),
    ("PUT".toList, 5), ("DELETE".toList, 6), ("TRACE".toList, 7), ("PROPFIND".toList, 8),
    ("PROPPATCH".toList, 9), ("MKCOL".toList, 10), ("COPY".toList, 11), ("MOVE".toList, 12),
    ("LOCK".toList, 13), ("UNLOCK".toList, 14), ("ACL".toList, 15), ("REPORT".toList, 16),
    ("VERSION-CONTROL".toList, 17), ("CHECKIN".toList, 18), ("CHECKOUT".toList, 19),
    ("UNCHECKOUT".toList, 20), ("SEARCH".toList, 21), ("MKWORKSPACE".toList, 22),
    ("UPDATE".toList, 23), ("LABEL".toList, 24), ("MERGE".toList, 25),
    ("BASELINE_CONTROL".toList, 26), ("MKACTIVITY".toList, 27)]

def attributeValues : List (Str × Nat) :=
  [("context".toList, 0x01), ("servlet_path".toList, 0x02), ("remote_user".toList, 0x03),
    ("auth_type".toList, 0x04), ("query_string".toList, 0x05), ("jvm_route".toList, 0x06),
    ("ssl_cert".toList, 0x07), ("ssl_cipher".toList, 0x08), ("ssl_session".toList, 0x09),
    ("req_attribute".toList, 0x0a), ("terminator".toList, 0xff)]

def forwardHeaderValues : List (Nat × Str) :=
  [(0xa001, "accept".toList), (0xa002, "accept-charset".toList),
    (0xa003, "accept-encoding".toList), (0xa004, "accept-language".toList),
    (0xa005, "authorization".toList), (0xa006, "connection".toList),
    (0xa007, "content-type".toList), (0xa008, "content-length".toList),
    (0xa009, "cookie".toList), (0xa00a, "cookie2".toList), (0xa00b, "host".toList),
    (0xa00c, "pragma".toList), (0xa00d, "referer".toList), (0xa00e, "user-agent".toList)]

def headerValues : List (Str × Nat) :=
  [("accept".toList, 0xa001), ("accept-charset".toList, 0xa002),
    ("accept-encoding".toList, 0xa003), ("accept-language".toList, 0xa004),
    ("authorization".toList, 0xa005), ("connection".toList, 0xa006),
    ("content-type".toList, 0xa007), ("content-length".toList, 0xa008),
    ("cookie".toList, 0xa009), ("cookie2".toList, 0xa00a), ("host".toList, 0xa00b),
    ("pragma".toList, 0xa00c), ("referer".toList, 0xa00d), ("user-agent".toList, 0xa00e)]

/-- `upper_case`, of a string of 8-bit characters. -/
def upperCase (s : Str) : Str :=
  s.map fun c =>
    if (97 ≤ c.toNat ∧ c.toNat ≤ 122) ∨ (224 ≤ c.toNat ∧ c.toNat ≤ 254 ∧ c.toNat ≠ 247) then
      Char.ofNat (c.toNat - 32)
    else c

/-- `method_from_string`; an error for other methods. -/
def methodFromString (method : Str) : Option Nat := methodCodes.lookup (upperCase method)

/-! ## `http_encode_url` (caudium.c) -/

def hexChars : Str := "0123456789ABCDEF".toList

def isUrlSafe (c : Char) : Bool :=
  ('0' ≤ c && c ≤ '9') || ('A' ≤ c && c ≤ 'Z') || ('a' ≤ c && c ≤ 'z') ||
    c ∈ ['&', '?', '=', '/', ':', ';', '$', ',', '.', '+', '@']

/-- The loop of `do_encode_stuff`. -/
def encodeStuff (safe : Char → Bool) (s : Str) : Str :=
  s.flatMap fun c =>
    if safe c then [c]
    else ['%', hexChars.getD (c.toNat / 16) '0', hexChars.getD (c.toNat % 16) '0']

/-- `http_encode_url`: up to the first NUL, unless nothing is unsafe there. Wide strings
are an error. -/
def httpEncodeUrl (src : Str) : Option Str :=
  if narrow src then
    let str := src.takeWhile (· ≠ '\x00')
    some (if str.all isUrlSafe then src else encodeStuff isUrlSafe str)
  else none

theorem hexChars_getD {n : Nat} (h : n < 16) :
    hexChars.getD n '0' = Http.hexChars.getD n '\x00' := by
  have hall : ∀ k < 16, hexChars.getD k '0' = Http.hexChars.getD k '\x00' := by decide
  exact hall n h

theorem encodeStuff_eq {safe : Char → Bool} {s : Str} (hs : ∀ c ∈ s, c.toNat < 256) :
    encodeStuff safe s = s.flatMap (Http.encodeChar safe) := by
  refine List.flatMap_congr fun c hc => ?_
  have hlow : c.toNat &&& 15 = c.toNat % 16 := Nat.and_two_pow_sub_one_eq_mod _ 4
  have hhigh : c.toNat >>> 4 = c.toNat / 16 := Nat.shiftRight_eq_div_pow _ 4
  have hlt := hs c hc
  rw [Http.encodeChar, hlow, hhigh, hexChars_getD (by omega), hexChars_getD (by omega)]

theorem isUrlSafe_eq (c : Char) : isUrlSafe c = Http.isUrlSafe c := by
  simp only [isUrlSafe, Http.isUrlSafe, Http.isSafe, Bool.decide_or, Bool.decide_and,
    Bool.or_assoc]

/-- It is the encoder that the HTTP module has. -/
theorem httpEncodeUrl_eq (src : Str) : httpEncodeUrl src = Http.httpEncodeUrl src := by
  rw [httpEncodeUrl, Http.httpEncodeUrl, Http.encodeWith]
  by_cases hsrc : narrow src = true
  · have hlt := (Http.narrow_iff src).mp hsrc
    rw [if_pos hsrc, if_pos hsrc]
    rw [show isUrlSafe = Http.isUrlSafe from funext isUrlSafe_eq]
    show some (if (Http.cString src).all Http.isUrlSafe = true then src
      else encodeStuff Http.isUrlSafe (Http.cString src)) = _
    by_cases hsafe : ∀ c ∈ Http.cString src, Http.isUrlSafe c = true
    · rw [Http.doEncodeStuff_safe hsafe, if_pos (List.all_eq_true.mpr hsafe)]
      rfl
    · rw [Http.doEncodeStuff_encode hlt hsafe, if_neg fun h => hsafe (List.all_eq_true.mp h),
        encodeStuff_eq fun c hc => hlt c (Http.mem_of_mem_cString hc)]
      rfl
  · rw [if_neg hsrc, if_neg hsrc]

/-! ## The request -/

/-- What is read of the request object, its connection and its configuration. -/
structure RequestID where
  method : Str
  clientprot : Str
  notQuery : Str
  remoteaddr : Str
  serverProtocol : Str
  /-- `id->user->username`. -/
  user : Option Str
  query : Option Str
  requestHeaders : Mapping Str Str
  /-- `id->conf->query("MyWorldLocation")`. -/
  myWorldLocation : Str
  /-- `id->my_fd->query_address(1)`. -/
  queryAddress : Str

/-- What else is called. -/
structure Env where
  indices : Indices
  /-- `caudium->quick_ip_to_host`. -/
  quickIpToHost : Str → Str

/-- `attributes`. -/
def RequestID.attributes (id : RequestID) : Mapping Str Str :=
  let attributes : Mapping Str Str :=
    match id.user with
    | some username =>
      ((∅ : Mapping Str Str).insert "remote_user".toList username).insert
        "auth_type".toList "Basic".toList
    | none => ∅
  match id.query with
  | some query => attributes.insert "query_string".toList query
  | none => attributes

/-- `server_name`: after the first "//", up to a ':' and to a '/'. -/
def RequestID.serverName (id : RequestID) : Str :=
  let serverName := match cut id.myWorldLocation ['/', '/'] with
    | some (_, rest) => rest
    | none => id.myWorldLocation
  (serverName.takeWhile (· ≠ ':')).takeWhile (· ≠ '/')

/-- `server_port`: the number after the first space. -/
def RequestID.serverPort (id : RequestID) : Nat :=
  match cut id.queryAddress [' '] with
  | some (_, port) => number port
  | none => 0

/-- `rhost`. -/
def RequestID.rhost (env : Env) (id : RequestID) : Str :=
  let rhost := env.quickIpToHost id.remoteaddr
  if rhost = id.remoteaddr then [] else rhost

/-- The headers, with a `content-length`. -/
def RequestID.headersSent (id : RequestID) : Mapping Str Str :=
  if (id.requestHeaders.lookup "content-length".toList).isSome then id.requestHeaders
  else id.requestHeaders.insert "content-length".toList ['0']

/-- The URI that is sent. -/
def RequestID.uriSent (encodeReqUri : Bool) (id : RequestID) : Option Str :=
  if encodeReqUri then httpEncodeUrl id.notQuery else some id.notQuery

/-! ## The packet -/

def makeRequestHeaders (indices : Indices) (h : Mapping Str Str) : Str :=
  makeHeaders indices headerValues id h

/-- The loop of `make_attributes`; an error for an attribute that is not in the table. -/
def makeAttributesFrom (a : Mapping Str Str) : List Str → Option Str
  | [] => some []
  | name :: rest => do
    let code ← attributeValues.lookup name
    let attributes ← makeAttributesFrom a rest
    pure (chr code :: (pushString ((a.lookup name).getD []) ++ attributes))

def makeAttributes (indices : Indices) (a : Mapping Str Str) : Option Str :=
  makeAttributesFrom a (indices.keys a)

/-- The arguments of the `sprintf`. -/
structure Forwarded where
  method : Nat
  clientprot : Str
  uri : Str
  remoteaddr : Str
  rhost : Str
  serverName : Str
  serverPort : Nat
  isSsl : Nat
  requestHeaders : Mapping Str Str
  attributes : Mapping Str Str

/-- The `sprintf`. -/
def Forwarded.packet (indices : Indices) (f : Forwarded) : Option Str := do
  let attributes ← makeAttributes indices f.attributes
  pure (chr msgForwardRequest :: ([chr f.method] ++ (pushString f.clientprot ++
    (pushString f.uri ++ (pushString f.remoteaddr ++ (pushString f.rhost ++
    (pushString f.serverName ++ (num16 f.serverPort ++ ([chr f.isSsl] ++
    (num16 f.requestHeaders.keys.length ++ (makeRequestHeaders indices f.requestHeaders ++
    (attributes ++ [chr 0xff]))))))))))))

/-- They are the locals of `packet_forward_request`. -/
def RequestID.forwarded (env : Env) (id : RequestID) (method : Nat) (uri : Str) : Forwarded where
  method := method
  clientprot := id.clientprot
  uri := uri
  remoteaddr := id.remoteaddr
  rhost := id.rhost env
  serverName := id.serverName
  serverPort := id.serverPort
  isSsl := if id.serverProtocol = "HTTPS".toList then 1 else 0
  requestHeaders := id.headersSent
  attributes := id.attributes

/-- `packet_forward_request`. -/
def packetForwardRequest (env : Env) (id : RequestID) (encodeReqUri : Bool) : Option Str := do
  let method ← methodFromString id.method
  let uri ← id.uriSent encodeReqUri
  (id.forwarded env method uri).packet env.indices

/-! ## `decode_forward` -/

/-- What `decode_forward` puts into the packet; a string that could not be read is
`none`. -/
structure Forward where
  method : Nat
  protocol : Option Str
  reqUri : Option Str
  remoteAddr : Option Str
  serverHost : Option Str
  serverName : Option Str
  serverPort : Nat
  isSsl : Nat
  numHeaders : Nat
  requestHeaders : Headers
  attributes : Headers

/-- "%2c" of an `array_sscanf`: its number is missing in the array if the data are too
short. -/
def needNum16 : Packet Nat
  | a :: b :: rest => some (256 * a.toNat + b.toNat, rest)
  | _ => none

/-- `search(attribute_values, code)`; 0 if there is none. -/
def attributeName (code : Nat) : Option Str :=
  (attributeValues.find? fun entry => entry.2 = code).map Prod.fst

/-- A turn of the loop over the attributes; `none` where `ended` is set. -/
def attributeStep (attributes : Headers) : Packet (Option Headers)
  | [] => none
  | x :: data =>
    if x.toNat = 0xff then some (none, x :: data)
    else
      (do
        let value ← pullString
        pure (some (attributes.insert (attributeName x.toNat) value)) : Packet _).run data

/-- The loop over the attributes. A turn without data is an error, so there are no more
turns than characters. -/
def decodeAttributes : Packet Headers := fun data =>
  if data = [] then some (∅, data) else (Lib.untilEnd attributeStep data.length ∅).run data

/-- `decode_forward`, past the checks of the type. -/
def readForward : Packet Forward := do
  let method ← takeChar
  let protocol ← pullString
  let reqUri ← pullString
  let remoteAddr ← pullString
  let serverHost ← pullString
  let serverName ← pullString
  let serverPort ← needNum16
  let isSsl ← takeChar
  let numHeaders ← needNum16
  let requestHeaders ← decodeHeaders forwardHeaderValues numHeaders
  let attributes ← decodeAttributes
  pure { method, protocol, reqUri, remoteAddr, serverHost, serverName, serverPort, isSsl,
         numHeaders, requestHeaders, attributes }

def decodeForward (type : Nat) : Packet Forward :=
  if type = msgPing ∨ type = msgCping ∨ type = msgShutdown then failure else readForward

/-- A packet on its way from `generate_server_packet` to `decode_forward`. -/
def deliver (packet : Str) : Option (Forward × Str) := do
  let wire ← generateServerPacket packet
  let (type, data) ← decodeClientPacket wire
  (decodeForward type).run data

/-! ## The tables agree -/

theorem methodCodes_lt : ∀ entry ∈ methodCodes, entry.2 < 256 := by decide

theorem headerValues_agree : ∀ entry ∈ headerValues,
    (0xa000 ≤ entry.2 ∧ entry.2 ≤ 0xa0ff) ∧ forwardHeaderValues.lookup entry.2 = some entry.1 := by
  decide

theorem attributeValues_agree : ∀ entry ∈ attributeValues, entry.1 ≠ "terminator".toList →
    entry.2 < 0xff ∧ attributeName entry.2 = some entry.1 := by
  decide

theorem coded_headerValues : Coded headerValues := fun _ _ h =>
  (headerValues_agree _ (mem_of_lookup h)).1

/-- Every header arrives under its name. -/
theorem sentAs_headerValues (header : Str) :
    sentAs headerValues forwardHeaderValues header = some header := by
  unfold sentAs
  cases h : headerValues.lookup header with
  | none => rfl
  | some code => exact (headerValues_agree _ (mem_of_lookup h)).2

theorem methodFromString_lt {method : Str} {code : Nat} (h : methodFromString method = some code) :
    code < 256 :=
  methodCodes_lt _ (mem_of_lookup h)

/-! ## The attributes -/

variable {indices : Indices} {a : Mapping Str Str}

/-- How an attribute is sent. -/
def attributeSent (a : Mapping Str Str) (name : Str) : Str :=
  chr ((attributeValues.lookup name).getD 0) :: pushString ((a.lookup name).getD [])

/-- All attributes are in the table, and sent one after the other. -/
theorem makeAttributesFrom_eq_some {names : List Str} {sent : Str}
    (h : makeAttributesFrom a names = some sent) :
    (∀ name ∈ names, ∃ code, attributeValues.lookup name = some code) ∧
      sent = names.flatMap (attributeSent a) := by
  induction names generalizing sent with
  | nil =>
    cases h
    exact ⟨fun name hname => (List.not_mem_nil hname).elim, rfl⟩
  | cons name names ih =>
    obtain ⟨code, hcode, h⟩ := Option.bind_eq_some_iff.mp h
    obtain ⟨rest, hrest, h⟩ := Option.bind_eq_some_iff.mp h
    obtain ⟨hknown, rfl⟩ := ih hrest
    cases h
    constructor
    · intro other hother
      obtain rfl | hother := List.mem_cons.mp hother
      · exact ⟨code, hcode⟩
      · exact hknown other hother
    · rw [List.flatMap_cons, attributeSent, hcode]
      rfl

theorem attributeStep_end (attributes : Headers) :
    (attributeStep attributes).run [chr 0xff] = some (none, [chr 0xff]) := by
  rfl

/-- One turn reads one attribute. -/
theorem decodes_attributeSent {name value : Str} {code : Nat} (hvalue : a.lookup name = some value)
    (hcode : attributeValues.lookup name = some code) (hname : name ≠ "terminator".toList)
    (hlen : value.length < 65536) (attributes : Headers) :
    Decodes (attributeStep attributes) (attributeSent a name)
      (some (attributes.insert (some name) (some ((a.lookup name).getD [])))) := by
  obtain ⟨hlt, hback⟩ := attributeValues_agree _ (mem_of_lookup hcode) hname
  have hchr : (chr code).toNat = code := toNat_chr (by omega)
  have hnot : (chr code).toNat ≠ 0xff := by omega
  have hturn : Decodes (do
      let value ← pullString
      pure (some (attributes.insert (attributeName (chr code).toNat) value)) :
        Packet (Option Headers))
      (pushString value) (some (attributes.insert (some name) (some value))) := by
    rw [hchr, hback]
    exact (decodes_pullString hlen).bind_pure fun v => some (attributes.insert (some name) v)
  intro rest
  rw [attributeSent, hcode, hvalue]
  show (if (chr code).toNat = 0xff then _ else _) = _
  rw [if_neg hnot]
  exact hturn rest

/-- The attributes arrive. -/
theorem run_decodeAttributes {sent : Str} (h : makeAttributes indices a = some sent)
    (hterminator : a.lookup "terminator".toList = none)
    (hlen : ∀ name value, a.lookup name = some value → value.length < 65536) :
    decodeAttributes.run (sent ++ [chr 0xff]) = some (received indices some a, [chr 0xff]) := by
  obtain ⟨hknown, rfl⟩ := makeAttributesFrom_eq_some h
  have hdata : (indices.keys a).flatMap (attributeSent a) ++ [chr 0xff] ≠ [] :=
    List.append_ne_nil_of_right_ne_nil _ (List.cons_ne_nil _ _)
  -- one turn for each attribute and one for the end, each with a character of its own
  have hturns : (indices.keys a).length <
      ((indices.keys a).flatMap (attributeSent a) ++ [chr 0xff]).length := by
    have hcard : (indices.keys a).length ≤ ((indices.keys a).flatMap (attributeSent a)).length :=
      Lib.card_le_flatMap (attributeSent a) fun name _ => List.cons_ne_nil _ _
    rw [List.length_append, List.length_singleton]
    omega
  show (if _ then _ else _) = _
  rw [if_neg hdata]
  apply Lib.run_untilEnd attributeStep_end _ _ _ _ hturns
  intro name hname attributes
  obtain ⟨value, hvalue⟩ := mem_indices.mp hname
  obtain ⟨code, hcode⟩ := hknown name hname
  apply decodes_attributeSent hvalue hcode _ (hlen name value hvalue)
  intro hterm
  rw [hterm, hterminator] at hvalue
  cases hvalue

/-- The loop of the source has no bound: with more turns than characters it gives the
same. -/
theorem decodeAttributes_enough {data : Str} (hdata : data ≠ []) {n : Nat}
    (hn : data.length ≤ n) :
    (Lib.untilEnd attributeStep n ∅).run data = decodeAttributes.run data := by
  show _ = if _ then _ else _
  rw [if_neg hdata]
  apply Lib.untilEnd_enough _ _ n ∅ data hn
  · intro attributes
    rfl
  · intro attributes attributes' data left h
    cases data with
    | nil => cases h
    | cons x data =>
      change (if x.toNat = 0xff then _ else _) = _ at h
      split at h
      · cases h
      · obtain ⟨⟨value, rest⟩, hvalue, h⟩ := Option.bind_eq_some_iff.mp h
        cases h
        exact Nat.lt_succ_of_le (pullString_left hvalue)

/-! ## The packet is read as it was written -/

/-- What fits into the packet. -/
structure Forwarded.Fits (f : Forwarded) : Prop where
  method : f.method < 256
  clientprot : f.clientprot.length < 65536
  uri : f.uri.length < 65536
  remoteaddr : f.remoteaddr.length < 65536
  rhost : f.rhost.length < 65536
  serverName : f.serverName.length < 65536
  serverPort : f.serverPort < 65536
  isSsl : f.isSsl < 256
  numHeaders : f.requestHeaders.keys.length < 65536
  headers : ∀ header value, f.requestHeaders.lookup header = some value →
    HeaderFits headerValues header value
  attributes : ∀ name value, f.attributes.lookup name = some value → value.length < 65536
  terminator : f.attributes.lookup "terminator".toList = none

/-- The decoded packet. -/
def Forwarded.decoded (indices : Indices) (f : Forwarded) : Forward where
  method := f.method
  protocol := some f.clientprot
  reqUri := some f.uri
  remoteAddr := some f.remoteaddr
  serverHost := some f.rhost
  serverName := some f.serverName
  serverPort := f.serverPort
  isSsl := f.isSsl
  numHeaders := f.requestHeaders.keys.length
  requestHeaders := received indices (sentAs headerValues forwardHeaderValues) f.requestHeaders
  attributes := received indices some f.attributes

/-- Every packet that is sent fits, if its numbers do, no header value contains a NUL,
and the attribute "terminator" is not used. -/
theorem Forwarded.fits_of_small {f : Forwarded} {packet : Str}
    (h : f.packet indices = some packet) (hsmall : packet.length ≤ maxPacketSize)
    (hmethod : f.method < 256) (hport : f.serverPort < 65536) (hssl : f.isSsl < 256)
    (hnul : NulFree f.requestHeaders)
    (hterminator : f.attributes.lookup "terminator".toList = none) : f.Fits := by
  obtain ⟨sent, hattributes, h⟩ := Option.bind_eq_some_iff.mp h
  cases h
  have hmax : maxPacketSize = 8192 := rfl
  simp only [List.length_cons, List.length_append, List.length_nil, length_pushString,
    length_num16] at hsmall
  -- every string is a part of the packet, so none is longer than the packet
  have hblock : (makeHeaders indices headerValues (fun header => header)
      f.requestHeaders).length ≤ maxPacketSize := by
    change (makeRequestHeaders indices f.requestHeaders).length ≤ maxPacketSize
    omega
  obtain ⟨hcount, hheaders⟩ := Ajp.fits_of_small hblock hnul
  refine {
    method := hmethod
    clientprot := by omega
    uri := by omega
    remoteaddr := by omega
    rhost := by omega
    serverName := by omega
    serverPort := hport
    isSsl := hssl
    numHeaders := hcount
    headers := hheaders
    attributes := ?_
    terminator := hterminator }
  intro name value hvalue
  have hpiece := Lib.length_le_flatMap (attributeSent f.attributes)
    (mem_indices.mpr ⟨value, hvalue⟩ : name ∈ indices.keys f.attributes)
  rw [← (makeAttributesFrom_eq_some hattributes).2, attributeSent, hvalue, List.length_cons,
    length_pushString, Option.getD_some] at hpiece
  omega

theorem decodes_needNum16 {n : Nat} (h : n < 65536) : Decodes needNum16 (num16 n) n := by
  intro rest
  exact decodes_take16 h rest

theorem run_readForward {f : Forwarded} (hfits : f.Fits) {packet : Str}
    (h : f.packet indices = some packet) :
    ∃ data, packet = chr msgForwardRequest :: data ∧
      readForward.run data = some (f.decoded indices, [chr 0xff]) := by
  obtain ⟨attributes, hattributes, h⟩ := Option.bind_eq_some_iff.mp h
  cases h
  refine ⟨_, rfl, ?_⟩
  unfold readForward
  -- the fields, one after the other
  refine ((decodes_takeChar hfits.method).run_bind _ _).trans ?_
  refine ((decodes_pullString hfits.clientprot).run_bind _ _).trans ?_
  refine ((decodes_pullString hfits.uri).run_bind _ _).trans ?_
  refine ((decodes_pullString hfits.remoteaddr).run_bind _ _).trans ?_
  refine ((decodes_pullString hfits.rhost).run_bind _ _).trans ?_
  refine ((decodes_pullString hfits.serverName).run_bind _ _).trans ?_
  refine ((decodes_needNum16 hfits.serverPort).run_bind _ _).trans ?_
  refine ((decodes_takeChar hfits.isSsl).run_bind _ _).trans ?_
  refine ((decodes_needNum16 hfits.numHeaders).run_bind _ _).trans ?_
  have hheaders := decodes_makeHeaders indices forwardHeaderValues (fun header => header)
    coded_headerValues hfits.headers
  refine (hheaders.run_bind _ _).trans ?_
  rw [StateT.run_bind, run_decodeAttributes hattributes hfits.terminator hfits.attributes]
  rfl

/-- What is sent is what is decoded. -/
theorem deliver_packet {f : Forwarded} (hfits : f.Fits) {packet : Str}
    (h : f.packet indices = some packet) (hsmall : packet.length ≤ maxPacketSize) :
    deliver packet = some (f.decoded indices, [chr 0xff]) := by
  obtain ⟨data, rfl, hdata⟩ := run_readForward hfits h
  have hwire : generateServerPacket (chr msgForwardRequest :: data) = some
      ([chr 0x12, chr 0x34] ++ (num16 (data.length + 1) ++ chr msgForwardRequest :: data)) := by
    show (if _ then _ else _) = _
    rw [if_neg (Nat.not_lt.mpr hsmall)]
    rfl
  -- off the wire comes what was put on it, and then the type byte is read
  have harrive := decodePacket_generatePacket rfl (List.cons_ne_nil _ _) hwire
  have hread : (decodeForward msgForwardRequest).run data =
      some (f.decoded indices, [chr 0xff]) := hdata
  unfold deliver decodeClientPacket
  rw [hwire, Option.bind_eq_bind, Option.bind_some, harrive]
  exact hread

/-! ## The round trip -/

/-- The attributes that a packet can hold: those of the table, but for its terminator. -/
def Known (a : Mapping Str Str) : Prop :=
  a.lookup "terminator".toList = none ∧
    ∀ name value, a.lookup name = some value → ∃ code, attributeValues.lookup name = some code

/-- The decoded request is the one that was packed. -/
structure Forwarded.ArrivesAs (f : Forwarded) (r : Forward) : Prop where
  method : r.method = f.method
  protocol : r.protocol = some f.clientprot
  reqUri : r.reqUri = some f.uri
  remoteAddr : r.remoteAddr = some f.remoteaddr
  serverHost : r.serverHost = some f.rhost
  serverName : r.serverName = some f.serverName
  serverPort : r.serverPort = f.serverPort
  isSsl : r.isSsl = f.isSsl
  requestHeaders : Same f.requestHeaders r.requestHeaders
  attributes : Same f.attributes r.attributes

theorem Forwarded.arrivesAs_decoded (f : Forwarded) : f.ArrivesAs (f.decoded indices) where
  method := rfl
  protocol := rfl
  reqUri := rfl
  remoteAddr := rfl
  serverHost := rfl
  serverName := rfl
  serverPort := rfl
  isSsl := rfl
  requestHeaders := same_received sentAs_headerValues
  attributes := same_received fun _ => rfl

/-- Known attributes can be sent. -/
theorem makeAttributes_of_known (indices : Indices) (h : Known a) :
    ∃ sent, makeAttributes indices a = some sent := by
  -- each name that is sent has a code, so no step of the loop fails
  have hall : ∀ names, (∀ name ∈ names, ∃ code, attributeValues.lookup name = some code) →
      ∃ sent, makeAttributesFrom a names = some sent := by
    intro names
    induction names with
    | nil => intro _; exact ⟨[], rfl⟩
    | cons name names ih =>
      intro hknown
      obtain ⟨code, hcode⟩ := hknown name List.mem_cons_self
      obtain ⟨sent, hsent⟩ := ih fun other hother => hknown other (List.mem_cons_of_mem name hother)
      rw [makeAttributesFrom, hcode, hsent]
      exact ⟨_, rfl⟩
  apply hall
  intro name hname
  obtain ⟨value, hvalue⟩ := mem_indices.mp hname
  exact h.2 name value hvalue

/-- Whatever is packed, if it fits into a packet, arrives. -/
theorem Forwarded.round_trip (indices : Indices) {f : Forwarded} (hmethod : f.method < 256)
    (hssl : f.isSsl < 256) (hknown : Known f.attributes) : ∃ packet, f.packet indices = some packet ∧
      (packet.length ≤ maxPacketSize → f.serverPort < 65536 → NulFree f.requestHeaders →
        ∃ r left, deliver packet = some (r, left) ∧ f.ArrivesAs r) := by
  obtain ⟨sent, hsent⟩ := makeAttributes_of_known indices hknown
  obtain ⟨packet, hpacket⟩ : ∃ packet, f.packet indices = some packet := by
    unfold Forwarded.packet
    rw [hsent]
    exact ⟨_, rfl⟩
  refine ⟨packet, hpacket, ?_⟩
  intro hsmall hport hnul
  have hfits := Forwarded.fits_of_small hpacket hsmall hmethod hport hssl hnul hknown.1
  exact ⟨f.decoded indices, [chr 0xff], deliver_packet hfits hpacket hsmall,
    f.arrivesAs_decoded⟩

theorem known_empty : Known ∅ := ⟨rfl, fun _ _ hvalue => by cases hvalue⟩

theorem Known.insert (h : Known a) {name value : Str} {code : Nat}
    (hcode : attributeValues.lookup name = some code) (hname : name ≠ "terminator".toList) :
    Known (a.insert name value) := by
  constructor
  · rw [Lib.Mapping.lookup_insert_ite, if_neg hname.symm]
    exact h.1
  · intro other value' hvalue
    rw [Lib.Mapping.lookup_insert_ite] at hvalue
    split at hvalue
    next heq => exact ⟨code, by rw [heq, hcode]⟩
    next => exact h.2 other value' hvalue

/-- The attributes of a request are known ones. -/
theorem RequestID.known_attributes (id : RequestID) : Known id.attributes := by
  have hremote : attributeValues.lookup "remote_user".toList = some 0x03 := rfl
  have hauth : attributeValues.lookup "auth_type".toList = some 0x04 := rfl
  have hstring : attributeValues.lookup "query_string".toList = some 0x05 := rfl
  have huser : ∀ username : Str, Known (((∅ : Mapping Str Str).insert "remote_user".toList
      username).insert "auth_type".toList "Basic".toList) := fun username =>
    (known_empty.insert hremote (by decide)).insert hauth (by decide)
  have hquery : ∀ (a : Mapping Str Str) (query : Str), Known a →
      Known (a.insert "query_string".toList query) := fun a query ha =>
    ha.insert hstring (by decide)
  unfold RequestID.attributes
  cases id.user with
  | none =>
    cases id.query with
    | none => exact known_empty
    | some query => exact hquery ∅ query known_empty
  | some username =>
    cases id.query with
    | none => exact huser username
    | some query => exact hquery _ query (huser username)

/-- The header that is added contains no NUL. -/
theorem RequestID.nulFree_headersSent {id : RequestID} (h : NulFree id.requestHeaders) :
    NulFree id.headersSent := by
  unfold RequestID.headersSent
  split
  · exact h
  · intro header value hvalue
    rw [Lib.Mapping.lookup_insert_ite] at hvalue
    split at hvalue
    · cases hvalue
      decide
    · exact h header value hvalue

/-- A request arrives as it was sent: with the code of its method, its URI encoded if
that was asked for, no name for a remote host whose name is its address, and a
`content-length`. So do all other packets of the kind, with any known attributes. -/
theorem forward_round_trip (env : Env) :
    (∀ (id : RequestID) (encodeReqUri : Bool) (method : Nat) (uri : Str),
      methodFromString id.method = some method → id.uriSent encodeReqUri = some uri →
      ∃ packet, packetForwardRequest env id encodeReqUri = some packet ∧
        (packet.length ≤ maxPacketSize → id.serverPort < 65536 → NulFree id.requestHeaders →
          ∃ r left, deliver packet = some (r, left) ∧ r.method = method ∧
            r.protocol = some id.clientprot ∧ r.reqUri = some uri ∧
            r.remoteAddr = some id.remoteaddr ∧ r.serverHost = some (id.rhost env) ∧
            r.serverName = some id.serverName ∧ r.serverPort = id.serverPort ∧
            Same id.headersSent r.requestHeaders ∧ Same id.attributes r.attributes)) ∧
    (∀ f : Forwarded, (∃ method, methodFromString method = some f.method) → f.isSsl ≤ 1 →
      Known f.attributes → ∃ packet, f.packet env.indices = some packet ∧
        (packet.length ≤ maxPacketSize → f.serverPort < 65536 → NulFree f.requestHeaders →
          ∃ r left, deliver packet = some (r, left) ∧ f.ArrivesAs r)) := by
  constructor
  · intro id encodeReqUri method uri hmethod huri
    have hssl : (id.forwarded env method uri).isSsl < 256 := by
      show (if _ then 1 else 0) < 256
      split <;> omega
    obtain ⟨packet, hpacket, harrive⟩ := Forwarded.round_trip env.indices
      (f := id.forwarded env method uri) (methodFromString_lt hmethod) hssl id.known_attributes
    refine ⟨packet, ?_, ?_⟩
    · unfold packetForwardRequest
      rw [hmethod, huri]
      exact hpacket
    · intro hsmall hport hnul
      obtain ⟨r, left, hr, h⟩ := harrive hsmall hport (RequestID.nulFree_headersSent hnul)
      exact ⟨r, left, hr, h.method, h.protocol, h.reqUri, h.remoteAddr, h.serverHost,
        h.serverName, h.serverPort, h.requestHeaders, h.attributes⟩
  · intro f hmethod hssl hknown
    obtain ⟨method, hmethod⟩ := hmethod
    exact Forwarded.round_trip env.indices (methodFromString_lt hmethod) (by omega) hknown

/-! ## A request that does not arrive unchanged -/

/-- Without reverse look-ups. -/
def Env.noReverseLookup : Env where
  indices := Indices.plain
  quickIpToHost ipnumber := ipnumber

def RequestID.spaced : RequestID where
  method := "GET".toList
  clientprot := "HTTP/1.0".toList
  notQuery := "/a b".toList
  remoteaddr := "10.0.0.1".toList
  serverProtocol := "HTTP".toList
  user := none
  query := none
  requestHeaders := ∅
  myWorldLocation := "http://www/".toList
  queryAddress := "10.0.0.2 80".toList

theorem forward_round_trip_spaced : ∃ packet r left,
    packetForwardRequest Env.noReverseLookup RequestID.spaced true = some packet ∧
      deliver packet = some (r, left) ∧ r.reqUri = some "/a%20b".toList := by
  obtain ⟨packet, hpacket, harrive⟩ := (forward_round_trip Env.noReverseLookup).1
    RequestID.spaced true 2 "/a%20b".toList rfl rfl
  have hsmall : (packetForwardRequest Env.noReverseLookup RequestID.spaced true).all
      (·.length ≤ maxPacketSize) = true := by decide
  rw [hpacket] at hsmall
  have hsmall := of_decide_eq_true hsmall
  obtain ⟨r, left, hr, _, _, huri, _⟩ := harrive hsmall (by decide)
    fun _ _ h => by cases h
  exact ⟨packet, r, left, hpacket, hr, huri⟩

/-- The URI and the headers of a request are not always those that arrive. -/
theorem forward_request_differs : ∃ packet r left,
    packetForwardRequest Env.noReverseLookup RequestID.spaced true = some packet ∧
      packet.length ≤ maxPacketSize ∧ RequestID.spaced.serverPort < 65536 ∧
      NulFree RequestID.spaced.requestHeaders ∧ deliver packet = some (r, left) ∧
      r.reqUri ≠ some RequestID.spaced.notQuery ∧
      ¬ Same RequestID.spaced.requestHeaders r.requestHeaders := by
  have hnul : NulFree RequestID.spaced.requestHeaders := by
    intro header value h
    cases h
  refine ⟨_, _, _, rfl, by decide, by decide, hnul, rfl, by decide, ?_⟩
  intro hsame
  have h := hsame (some "content-length".toList)
  cases h

end Caudium.Ajp
