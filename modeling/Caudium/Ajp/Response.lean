import Caudium.Ajp.Protocol
import Caudium.Http.ParseGot

/-!
# The headers of a response in the Apache JServ protocol

`encode_send_headers` packs the status and the headers of a response,
`decode_send_headers` takes them apart on the other side. Names are sent in lower case,
or as a code for which the other side has a spelling of its own, so they arrive up to
the case of their letters (`send_headers_round_trip`). Lengths and counts are sent in
two bytes, and a name in front of which the byte 0xa0 stands is taken for a code; this
makes no difference for what fits into a packet (`SendHeaders.fits_of_small`).
-/

namespace Caudium.Ajp

open Lib (Str Mapping Decodes)
open Caudium.Http (lowerCase)

/-! ## Tables -/

def sendHeaderValues : List (Nat × Str) :=
  [(0xa001, "Content-Type".toList), (0xa002, "Content-Language".toList),
    (0xa003, "Content-Length".toList), (0xa004, "Date".toList),
    (0xa005, "Last-Modified".toList), (0xa006, "Location".toList),
    (0xa007, "Set-Cookie".toList), (0xa008, "Set-Cookie2".toList),
    (0xa009, "Servlet-Engine".toList), (0xa00a, "Status".toList),
    (0xa00b, "WWW-Authenticate".toList)]

def responseHeaderNames : List (Str × Nat) :=
  [("content-type".toList, 0xa001), ("content-language".toList, 0xa002),
    ("content-length".toList, 0xa003), ("date".toList, 0xa004),
    ("last-modified".toList, 0xa005), ("location".toList, 0xa006),
    ("set-cookie".toList, 0xa007), ("set-cookie2".toList, 0xa008),
    ("servlet-engine".toList, 0xa009), ("status".toList, 0xa00a),
    ("www-authenticate".toList, 0xa00b)]

/-! ## `encode_send_headers` -/

/-- The mapping that is encoded, with one value for each header. -/
structure SendHeaders where
  responseCode : Nat
  responseMsg : Str
  headers : Mapping Str Str

def makeResponseHeaders (indices : Indices) (h : Mapping Str Str) : Str :=
  makeHeaders indices responseHeaderNames lowerCase h

/-- `encode_send_headers`. -/
def encodeSendHeaders (indices : Indices) (h : SendHeaders) : Str :=
  chr msgSendHeaders :: (num16 h.responseCode ++ (pushString h.responseMsg ++
    (num16 h.headers.keys.length ++ makeResponseHeaders indices h.headers)))

/-! ## `decode_send_headers` -/

/-- What `decode_send_headers` puts into the packet. -/
structure Response where
  responseCode : Nat
  responseMsg : Option Str
  numHeaders : Nat
  responseHeaders : Headers

/-- `decode_send_headers`, from `num_headers` on. -/
def readHeaders (responseCode : Nat) (responseMsg : Option Str) : Packet Response := do
  let numHeaders ← take16
  let responseHeaders ← decodeHeaders sendHeaderValues numHeaders
  pure { responseCode, responseMsg, numHeaders, responseHeaders }

/-- `decode_send_headers`, past the check of the type. -/
def readSendHeaders : Packet Response := do
  let responseCode ← take16
  let responseMsg ← pullString
  let responseMsg ← cutNul responseMsg
  readHeaders responseCode responseMsg

def decodeSendHeaders (type : Nat) : Packet Response :=
  if type ≠ msgSendHeaders then failure else readSendHeaders

/-! ## Letter case -/

/-- `lower_case` has nothing left to do on its own result. -/
theorem lowerCase_lowerCase (s : Str) : lowerCase (lowerCase s) = lowerCase s := by
  unfold lowerCase
  rw [List.map_map]
  apply List.map_congr_left
  intro c _
  by_cases hupper : (65 ≤ c.toNat ∧ c.toNat ≤ 90) ∨
      (192 ≤ c.toNat ∧ c.toNat ≤ 222 ∧ c.toNat ≠ 215)
  · have hchr : (Char.ofNat (c.toNat + 32)).toNat = c.toNat + 32 := toNat_chr (by omega)
    rw [Function.comp_apply, if_pos hupper, hchr, if_neg (by omega)]
  · rw [Function.comp_apply, if_neg hupper, if_neg hupper]

theorem length_lowerCase (s : Str) : (lowerCase s).length = s.length := List.length_map _

/-- The spelling in which a name arrives. -/
def canonical (header : Str) : Str :=
  match responseHeaderNames.lookup (lowerCase header) with
  | some code => (sendHeaderValues.lookup code).getD []
  | none => lowerCase header

theorem responseHeaderNames_agree : ∀ entry ∈ responseHeaderNames,
    (0xa000 ≤ entry.2 ∧ entry.2 ≤ 0xa0ff) ∧
      (sendHeaderValues.lookup entry.2).map lowerCase = some entry.1 := by
  decide

theorem coded_responseHeaderNames : Coded responseHeaderNames := fun _ _ h =>
  (responseHeaderNames_agree _ (mem_of_lookup h)).1

/-- The other side has a spelling for every code. -/
theorem spelling_of_code {header : Str} {code : Nat}
    (h : responseHeaderNames.lookup (lowerCase header) = some code) :
    ∃ name, sendHeaderValues.lookup code = some name ∧ lowerCase name = lowerCase header :=
  Option.map_eq_some_iff.mp (responseHeaderNames_agree _ (mem_of_lookup h)).2

theorem sentAs_eq_canonical (header : Str) :
    sentAs responseHeaderNames sendHeaderValues (lowerCase header) = some (canonical header) := by
  unfold sentAs canonical
  cases hcode : responseHeaderNames.lookup (lowerCase header) with
  | none => rfl
  | some code =>
    obtain ⟨name, hname, _⟩ := spelling_of_code hcode
    simp only [hname, Option.getD_some]

/-- Only the case of its letters differs from what was sent. -/
theorem lowerCase_canonical (header : Str) : lowerCase (canonical header) = lowerCase header := by
  unfold canonical
  cases hcode : responseHeaderNames.lookup (lowerCase header) with
  | none => exact lowerCase_lowerCase header
  | some code =>
    obtain ⟨name, hname, hlower⟩ := spelling_of_code hcode
    simp only [hname, Option.getD_some, hlower]

/-- The same mapping up to the case of the letters of its names. -/
structure SameUpToCase (h : Mapping Str Str) (headers : Headers) : Prop where
  found : ∀ header value, h.lookup header = some value →
    ∃ name, lowerCase name = lowerCase header ∧ headers.lookup (some name) = some (some value)
  only : ∀ name value, headers.lookup name = some value →
    ∃ header v, name.map lowerCase = some (lowerCase header) ∧ value = some v ∧
      h.lookup header = some v

/-! ## The round trip -/

/-- What the two bytes of a length or a count can express, and what is not taken for
something else. -/
structure SendHeaders.Fits (h : SendHeaders) : Prop where
  responseCode : h.responseCode < 65536
  responseMsg : h.responseMsg.length < 65536
  msg_no_nul : '\x00' ∉ h.responseMsg
  numHeaders : h.headers.keys.length < 65536
  headers : ∀ header value, h.headers.lookup header = some value →
    HeaderFits responseHeaderNames (lowerCase header) value
  distinct : ∀ header ∈ h.headers.keys, ∀ other ∈ h.headers.keys,
    lowerCase other = lowerCase header → other = header

variable {indices : Indices}

/-- The headers as they arrive. -/
def SendHeaders.received (indices : Indices) (h : SendHeaders) : Headers :=
  Ajp.received indices
    (fun header => sentAs responseHeaderNames sendHeaderValues (lowerCase header)) h.headers

/-- A header arrives in the spelling of the other side. -/
theorem SendHeaders.lookup_received {h : SendHeaders}
    (hdistinct : ∀ header ∈ h.headers.keys, ∀ other ∈ h.headers.keys,
      lowerCase other = lowerCase header → other = header)
    {header value : Str} (hvalue : h.headers.lookup header = some value) :
    (h.received indices).lookup (some (canonical header)) = some (some value) := by
  have hmem := (Lib.Mapping.mem_keys_iff h.headers header).mpr ⟨value, hvalue⟩
  rw [← sentAs_eq_canonical]
  apply Ajp.lookup_received hvalue
  intro other hother heq
  rw [sentAs_eq_canonical, sentAs_eq_canonical] at heq
  -- one name on the other side is one name here, but for the case
  have hcase := congrArg lowerCase (Option.some.inj heq)
  rw [lowerCase_canonical, lowerCase_canonical] at hcase
  exact hdistinct header hmem other ((indices.perm _).mem_iff.mp hother) hcase

theorem SendHeaders.same_received {h : SendHeaders}
    (hdistinct : ∀ header ∈ h.headers.keys, ∀ other ∈ h.headers.keys,
      lowerCase other = lowerCase header → other = header) :
    SameUpToCase h.headers (h.received indices) := by
  constructor
  · intro header value hvalue
    exact ⟨canonical header, lowerCase_canonical header, lookup_received hdistinct hvalue⟩
  · intro name value hname
    obtain ⟨header, hmem, hsent⟩ : ∃ header ∈ indices.keys h.headers,
        sentAs responseHeaderNames sendHeaderValues (lowerCase header) = name := by
      by_contra hnone
      push Not at hnone
      have hlookup : (h.received indices).lookup name = none := lookup_received_none hnone
      rw [hlookup] at hname
      cases hname
    obtain ⟨v, hv⟩ := mem_indices.mp hmem
    rw [sentAs_eq_canonical] at hsent
    subst hsent
    rw [lookup_received hdistinct hv] at hname
    cases hname
    exact ⟨header, v, congrArg some (lowerCase_canonical header), rfl, hv⟩

/-- The status and the reason are read. -/
theorem run_readSendHeaders {h : SendHeaders} (hcode : h.responseCode < 65536)
    (hlen : h.responseMsg.length < 65536) (hnul : '\x00' ∉ h.responseMsg) :
    readSendHeaders.run (encodeSendHeaders indices h).tail =
      (readHeaders h.responseCode (some h.responseMsg)).run
        (num16 h.headers.keys.length ++ makeResponseHeaders indices h.headers) := by
  unfold readSendHeaders encodeSendHeaders
  rw [List.tail_cons, (decodes_take16 hcode).run_bind, (decodes_pullString hlen).run_bind,
    cutNul_of_notMem hnul, pure_bind]

/-- The headers are read. -/
theorem run_readHeaders {h : SendHeaders} (hcount : h.headers.keys.length < 65536)
    (hfits : ∀ header value, h.headers.lookup header = some value →
      HeaderFits responseHeaderNames (lowerCase header) value) :
    (readHeaders h.responseCode (some h.responseMsg)).run
        (num16 h.headers.keys.length ++ makeResponseHeaders indices h.headers) =
      some (⟨h.responseCode, some h.responseMsg, h.headers.keys.length, h.received indices⟩,
        []) := by
  have hheaders := decodes_makeHeaders indices sendHeaderValues lowerCase
    coded_responseHeaderNames hfits
  have hrun := hheaders.run_bind (fun headers => pure
    (⟨h.responseCode, some h.responseMsg, h.headers.keys.length, headers⟩ : Response)) []
  rw [List.append_nil] at hrun
  unfold readHeaders
  rw [(decodes_take16 hcount).run_bind]
  exact hrun

theorem SendHeaders.Fits.run {h : SendHeaders} (hfits : h.Fits) :
    readSendHeaders.run (encodeSendHeaders indices h).tail =
      some (⟨h.responseCode, some h.responseMsg, h.headers.keys.length, h.received indices⟩,
        []) :=
  (run_readSendHeaders hfits.responseCode hfits.responseMsg hfits.msg_no_nul).trans
    (run_readHeaders hfits.numHeaders hfits.headers)

/-- What fits into a packet has short strings and few of them. -/
theorem SendHeaders.fits_of_small (indices : Indices) {h : SendHeaders}
    (hsmall : (encodeSendHeaders indices h).length ≤ maxPacketSize)
    (hcode : h.responseCode < 65536) (hmsg : '\x00' ∉ h.responseMsg) (hnul : NulFree h.headers)
    (hdistinct : ∀ header ∈ h.headers.keys, ∀ other ∈ h.headers.keys,
      lowerCase other = lowerCase header → other = header) : h.Fits := by
  have hmax : maxPacketSize = 8192 := rfl
  simp only [encodeSendHeaders, List.length_cons, List.length_append, length_pushString,
    length_num16] at hsmall
  -- the headers are a part of the packet
  have hblock : (makeHeaders indices responseHeaderNames lowerCase h.headers).length ≤
      maxPacketSize := by
    change (makeResponseHeaders indices h.headers).length ≤ maxPacketSize
    omega
  obtain ⟨hcount, hheaders⟩ := Ajp.fits_of_small hblock hnul
  exact {
    responseCode := hcode
    responseMsg := by omega
    msg_no_nul := hmsg
    numHeaders := hcount
    headers := hheaders
    distinct := hdistinct }

/-- The status, the reason and the headers arrive, the names of the headers in a spelling
of the other side. -/
theorem send_headers_round_trip (indices : Indices) {h : SendHeaders} (hfits : h.Fits) :
    ∃ data r, typed (encodeSendHeaders indices h) = some (msgSendHeaders, data) ∧
      (decodeSendHeaders msgSendHeaders).run data = some (r, []) ∧
      r.responseCode = h.responseCode ∧ r.responseMsg = some h.responseMsg ∧
      SameUpToCase h.headers r.responseHeaders :=
  ⟨_, _, rfl, hfits.run, rfl, rfl, SendHeaders.same_received hfits.distinct⟩

def SendHeaders.found : SendHeaders where
  responseCode := 302
  responseMsg := "Config in cookie!".toList
  headers := (AList.singleton "location".toList ['/'] : Mapping Str Str).insert "X-A".toList ['1']

theorem send_headers_round_trip_found : ∃ data r,
    typed (encodeSendHeaders Indices.plain SendHeaders.found) = some (msgSendHeaders, data) ∧
      (decodeSendHeaders msgSendHeaders).run data = some (r, []) ∧ r.responseCode = 302 ∧
      SameUpToCase SendHeaders.found.headers r.responseHeaders := by
  have hnul : NulFree SendHeaders.found.headers := by
    intro header value hvalue
    change ((AList.singleton "location".toList ['/'] : Mapping Str Str).insert "X-A".toList
      ['1']).lookup header = some value at hvalue
    rw [Lib.Mapping.lookup_insert_ite] at hvalue
    split at hvalue
    · cases hvalue
      decide
    · obtain hmem := AList.mem_lookup_iff.mp hvalue
      cases List.mem_singleton.mp hmem
      decide
  have hfits : SendHeaders.found.Fits :=
    SendHeaders.fits_of_small Indices.plain (by decide) (by decide) (by decide) hnul (by decide)
  obtain ⟨data, r, hdata, hr, hcode, _, hsame⟩ := send_headers_round_trip Indices.plain hfits
  exact ⟨data, r, hdata, hr, hcode, hsame⟩

/-- So the headers of every response that is sent arrive, unless two of their names are
the same but for the case. -/
theorem sent_headers_arrive {h : SendHeaders} {wire : Str}
    (hwire : generateContainerPacket (encodeSendHeaders indices h) = some wire)
    (hcode : h.responseCode < 65536) (hmsg : '\x00' ∉ h.responseMsg) (hnul : NulFree h.headers)
    (hdistinct : ∀ header ∈ h.headers.keys, ∀ other ∈ h.headers.keys,
      lowerCase other = lowerCase header → other = header) :
    ∃ data r, decodeContainerPacket wire = some (msgSendHeaders, data) ∧
      (decodeSendHeaders msgSendHeaders).run data = some (r, []) ∧
      r.responseCode = h.responseCode ∧ r.responseMsg = some h.responseMsg ∧
      SameUpToCase h.headers r.responseHeaders := by
  obtain ⟨hsmall, _⟩ := generatePacket_eq_some hwire
  have hfits := SendHeaders.fits_of_small indices hsmall hcode hmsg hnul hdistinct
  have harrive : decodeContainerPacket wire = some (msgSendHeaders, _) :=
    decodePacket_generatePacket rfl (List.cons_ne_nil _ _) hwire
  exact ⟨_, _, harrive, hfits.run, rfl, rfl,
    SendHeaders.same_received hfits.distinct⟩

/-! ## Headers that do not arrive -/

/-- Two names that differ in case only. -/
def SendHeaders.twice : SendHeaders where
  responseCode := 200
  responseMsg := "OK".toList
  headers := ((∅ : Mapping Str Str).insert "X-A".toList ['1']).insert "x-a".toList ['2']

/-- One of the two is lost. -/
theorem twice_not_same : ∃ r left, readSendHeaders.run
    (encodeSendHeaders Indices.plain SendHeaders.twice).tail = some (r, left) ∧
      ¬ SameUpToCase SendHeaders.twice.headers r.responseHeaders := by
  refine ⟨_, _, rfl, ?_⟩
  intro hsame
  obtain ⟨name, _, htwo⟩ := hsame.found "x-a".toList ['2'] rfl
  change (((∅ : Headers).insert (some "x-a".toList) (some ['2'])).insert (some "x-a".toList)
    (some ['1'])).lookup (some name) = some (some ['2']) at htwo
  -- one name on the other side, so the second insert replaces the first
  rw [Lib.Mapping.lookup_insert_ite, Lib.Mapping.lookup_insert_ite] at htwo
  split at htwo
  · exact absurd htwo (by decide)
  · cases htwo

/-- Whatever follows, the reason is what was read. -/
theorem responseMsg_of_readHeaders {code : Nat} {msg : Option Str} {data left : Str}
    {r : Response} (h : (readHeaders code msg).run data = some (r, left)) :
    r.responseMsg = msg := by
  obtain ⟨⟨n, data⟩, _, h⟩ := Option.bind_eq_some_iff.mp h
  obtain ⟨⟨headers, data⟩, _, h⟩ := Option.bind_eq_some_iff.mp h
  cases h
  rfl

/-- The length 2^16 is sent as 0. -/
theorem decodes_pullString_wrapped (c : Char) : Decodes pullString (num16 65536 ++ [c]) (some []) :=
  fun _ => rfl

/-- A reason of 2^16 characters. -/
def SendHeaders.longReason : SendHeaders where
  responseCode := 200
  responseMsg := 'a' :: List.replicate 65535 'a'
  headers := ∅

theorem longReason_not_same {r : Response} {left : Str} (h : readSendHeaders.run
    (encodeSendHeaders Indices.plain SendHeaders.longReason).tail = some (r, left)) :
    r.responseMsg ≠ some SendHeaders.longReason.responseMsg := by
  have hpush : pushString SendHeaders.longReason.responseMsg =
      (num16 65536 ++ ['a']) ++ (List.replicate 65535 'a' ++ ['\x00']) := by
    show num16 ('a' :: List.replicate 65535 'a').length ++ _ = _
    rw [List.length_cons, List.length_replicate, List.append_assoc]
    rfl
  have hempty : r.responseMsg = some [] := by
    unfold encodeSendHeaders at h
    rw [List.tail_cons, hpush, List.append_assoc] at h
    unfold readSendHeaders at h
    have hcode : SendHeaders.longReason.responseCode < 65536 := by decide
    rw [(decodes_take16 hcode).run_bind, (decodes_pullString_wrapped 'a').run_bind,
      cutNul_of_notMem List.not_mem_nil, pure_bind] at h
    exact responseMsg_of_readHeaders h
  rw [hempty]
  intro heq
  cases heq

/-- 0xa000 characters. -/
def longHeader : Str := 'a' :: List.replicate 0x9fff 'a'

theorem length_longHeader : longHeader.length = 0xa000 := by
  rw [longHeader, List.length_cons, List.length_replicate]

/-- No name in the table is that long. -/
theorem lookup_longHeader : responseHeaderNames.lookup (lowerCase longHeader) = none := by
  have hshort : ∀ entry ∈ responseHeaderNames, entry.1.length < 20 := by decide
  cases hcode : responseHeaderNames.lookup (lowerCase longHeader) with
  | none => rfl
  | some code =>
    have hlen := hshort _ (mem_of_lookup hcode)
    rw [length_lowerCase, length_longHeader] at hlen
    omega

/-- A header whose name has 0xa000 characters. -/
def SendHeaders.longName : SendHeaders where
  responseCode := 200
  responseMsg := []
  headers := AList.singleton longHeader []

/-- Its two bytes of length are those of a code. -/
theorem makeHeader_longHeader (value : Str) : ∃ rest,
    makeHeader responseHeaderNames (lowerCase longHeader) value = num16 0xa000 ++ rest := by
  have hliteral : makeHeader responseHeaderNames (lowerCase longHeader) value =
      pushString (lowerCase longHeader) ++ pushString value := by
    rw [makeHeader, lookup_longHeader]
  rw [hliteral, pushString, length_lowerCase, length_longHeader]
  exact ⟨_, List.append_assoc _ _ _⟩

theorem makeResponseHeaders_longName : ∃ rest,
    makeResponseHeaders Indices.plain SendHeaders.longName.headers = num16 0xa000 ++ rest := by
  obtain ⟨rest, hrest⟩ := makeHeader_longHeader
    ((SendHeaders.longName.headers.lookup longHeader).getD [])
  refine ⟨rest, ?_⟩
  rw [← hrest]
  exact List.append_nil _

/-- The first two bytes are the code, whatever they stand for. -/
theorem name_of_coded {code : Nat} (hcode : 0xa000 ≤ code ∧ code ≤ 0xa0ff) {rest left : Str}
    {hv : Option Str × Option Str}
    (h : (decodeHeader sendHeaderValues).run (num16 code ++ rest) = some (hv, left)) :
    hv.1 = sendHeaderValues.lookup code := by
  have hfirst : (num16 code ++ rest).head?.map Char.toNat = some 0xa0 := by
    rw [num16_of_coded hcode]
    exact congrArg some (toNat_chr (by omega))
  change (if _ then _ else _) = _ at h
  rw [if_pos hfirst] at h
  unfold codedHeader at h
  rw [(decodes_takeCode (by omega)).run_bind] at h
  obtain ⟨⟨v, data⟩, _, h⟩ := Option.bind_eq_some_iff.mp h
  obtain ⟨⟨v, data⟩, _, h⟩ := Option.bind_eq_some_iff.mp h
  cases h
  rfl

theorem longName_not_same {r : Response} {left : Str} (h : readSendHeaders.run
    (encodeSendHeaders Indices.plain SendHeaders.longName).tail = some (r, left)) :
    ¬ SameUpToCase SendHeaders.longName.headers r.responseHeaders := by
  obtain ⟨value, hnone⟩ : ∃ value, r.responseHeaders = (∅ : Headers).insert none value := by
    rw [run_readSendHeaders (by decide) (by decide) List.not_mem_nil] at h
    have hcount : SendHeaders.longName.headers.keys.length = 1 := rfl
    unfold readHeaders at h
    rw [hcount, (decodes_take16 (by omega)).run_bind, StateT.run_bind] at h
    obtain ⟨⟨headers, data⟩, hheaders, h⟩ := Option.bind_eq_some_iff.mp h
    cases h
    obtain ⟨rest, hblock⟩ := makeResponseHeaders_longName
    rw [hblock] at hheaders
    obtain ⟨⟨headers, data⟩, hstep, hheaders⟩ := Option.bind_eq_some_iff.mp hheaders
    obtain ⟨⟨hv, data⟩, hhv, hstep⟩ := Option.bind_eq_some_iff.mp hstep
    cases hheaders
    cases hstep
    -- no name has the code 0xa000
    have hname : hv.1 = none := name_of_coded (by omega) hhv
    exact ⟨hv.2, by rw [hname]⟩
  -- the name that was sent would have to be found, and there is none
  intro hsame
  obtain ⟨name, _, hname⟩ := hsame.found longHeader []
    (AList.mem_lookup_iff.mpr List.mem_cons_self)
  rw [hnone, Lib.Mapping.lookup_insert_ite, if_neg (Option.some_ne_none name)] at hname
  cases hname

/-- Headers without values, one name of every length below `n`. -/
def manyHeaders (n : Nat) : Mapping Str Str where
  entries := (List.range n).map fun i => ⟨List.replicate i 'a', []⟩
  nodupKeys := by
    unfold List.NodupKeys List.keys
    rw [List.map_map]
    refine List.Nodup.map ?_ List.nodup_range
    intro i j hij
    have hlen := congrArg List.length hij
    rwa [Function.comp_apply, Function.comp_apply, List.length_replicate,
      List.length_replicate] at hlen

theorem length_keys_manyHeaders (n : Nat) : (manyHeaders n).keys.length = n := by
  show (List.map _ (List.map _ _)).length = n
  rw [List.length_map, List.length_map, List.length_range]

theorem lookup_manyHeaders {n : Nat} (hn : 0 < n) : (manyHeaders n).lookup [] = some [] := by
  apply AList.mem_lookup_iff.mpr
  exact List.mem_map.mpr ⟨0, List.mem_range.mpr hn, rfl⟩

theorem manyHeaders_eq_some {n : Nat} {header value : Str}
    (h : (manyHeaders n).lookup header = some value) :
    ∃ i, header = List.replicate i 'a' ∧ value = [] := by
  obtain ⟨i, _, heq⟩ := List.mem_map.mp (AList.mem_lookup_iff.mp h)
  cases heq
  exact ⟨i, rfl, rfl⟩

/-- 2^16 headers. -/
def SendHeaders.many : SendHeaders where
  responseCode := 200
  responseMsg := []
  headers := manyHeaders 65536

theorem many_not_same {r : Response} {left : Str} (h : readSendHeaders.run
    (encodeSendHeaders Indices.plain SendHeaders.many).tail = some (r, left)) :
    ¬ SameUpToCase SendHeaders.many.headers r.responseHeaders := by
  -- the count is sent modulo 2^16: none is read
  have hempty : r.responseHeaders = ∅ := by
    rw [run_readSendHeaders (by decide) (by decide) List.not_mem_nil] at h
    have hcount : SendHeaders.many.headers.keys.length = 65536 := length_keys_manyHeaders 65536
    have hzero : num16 65536 = num16 0 := num16_mod 65536
    unfold readHeaders at h
    rw [hcount, hzero, (decodes_take16 (by omega)).run_bind, StateT.run_bind] at h
    obtain ⟨⟨headers, data⟩, hheaders, h⟩ := Option.bind_eq_some_iff.mp h
    cases h
    exact (congrArg Prod.fst (Option.some.inj hheaders)).symm
  intro hsame
  obtain ⟨name, _, hname⟩ := hsame.found [] [] (lookup_manyHeaders (by omega))
  rw [hempty] at hname
  cases hname

/-- A status that fits, and no NUL anywhere. -/
structure SendHeaders.Plain (h : SendHeaders) : Prop where
  responseCode : h.responseCode < 65536
  responseMsg : '\x00' ∉ h.responseMsg
  headers : ∀ header value, h.headers.lookup header = some value →
    '\x00' ∉ header ∧ '\x00' ∉ value

theorem notMem_replicate (n : Nat) : '\x00' ∉ List.replicate n 'a' := by
  intro h
  exact absurd (List.eq_of_mem_replicate h) (by decide)

theorem notMem_cons_replicate (n : Nat) : '\x00' ∉ 'a' :: List.replicate n 'a' :=
  notMem_replicate (n + 1)

theorem SendHeaders.plain_twice : SendHeaders.twice.Plain := by
  refine ⟨by decide, by decide, ?_⟩
  intro header value hvalue
  change (((∅ : Mapping Str Str).insert "X-A".toList ['1']).insert "x-a".toList ['2']).lookup
    header = some value at hvalue
  rw [Lib.Mapping.lookup_insert_ite, Lib.Mapping.lookup_insert_ite] at hvalue
  split at hvalue
  next hheader =>
    cases hvalue
    rw [hheader]
    decide
  · split at hvalue
    next hheader =>
      cases hvalue
      rw [hheader]
      decide
    · cases hvalue

theorem SendHeaders.plain_longReason : SendHeaders.longReason.Plain := by
  refine ⟨by decide, notMem_cons_replicate 65535, ?_⟩
  intro header value hvalue
  cases hvalue

theorem SendHeaders.plain_longName : SendHeaders.longName.Plain := by
  refine ⟨by decide, List.not_mem_nil, ?_⟩
  intro header value hvalue
  cases List.mem_singleton.mp (AList.mem_lookup_iff.mp hvalue)
  exact ⟨notMem_cons_replicate 0x9fff, List.not_mem_nil⟩

theorem SendHeaders.plain_many : SendHeaders.many.Plain := by
  refine ⟨by decide, List.not_mem_nil, ?_⟩
  intro header value hvalue
  obtain ⟨i, rfl, rfl⟩ := manyHeaders_eq_some hvalue
  exact ⟨notMem_replicate i, List.not_mem_nil⟩

/-- Not everything arrives: not both of two names that differ in case only, no reason of
2^16 characters, no header whose name has 0xa000 characters, and not 2^16 headers. -/
theorem send_headers_differ :
    (SendHeaders.twice.Plain ∧ ∃ r left, (decodeSendHeaders msgSendHeaders).run
      (encodeSendHeaders Indices.plain SendHeaders.twice).tail = some (r, left) ∧
        ¬ SameUpToCase SendHeaders.twice.headers r.responseHeaders) ∧
    (SendHeaders.longReason.Plain ∧ ∀ r left, (decodeSendHeaders msgSendHeaders).run
      (encodeSendHeaders Indices.plain SendHeaders.longReason).tail = some (r, left) →
        r.responseMsg ≠ some SendHeaders.longReason.responseMsg) ∧
    (SendHeaders.longName.Plain ∧ ∀ r left, (decodeSendHeaders msgSendHeaders).run
      (encodeSendHeaders Indices.plain SendHeaders.longName).tail = some (r, left) →
        ¬ SameUpToCase SendHeaders.longName.headers r.responseHeaders) ∧
    (SendHeaders.many.Plain ∧ ∀ r left, (decodeSendHeaders msgSendHeaders).run
      (encodeSendHeaders Indices.plain SendHeaders.many).tail = some (r, left) →
        ¬ SameUpToCase SendHeaders.many.headers r.responseHeaders) :=
  ⟨⟨SendHeaders.plain_twice, twice_not_same⟩,
    ⟨SendHeaders.plain_longReason, fun _ _ h => longReason_not_same h⟩,
    ⟨SendHeaders.plain_longName, fun _ _ h => longName_not_same h⟩,
    ⟨SendHeaders.plain_many, fun _ _ h => many_not_same h⟩⟩

end Caudium.Ajp
