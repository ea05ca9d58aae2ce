import Caudium.Lib.Codec
import Caudium.Lib.Mapping
import Mathlib.Data.List.TakeWhile

/-!
# The Apache JServ protocol: packets, strings and headers

`protocol.pike` writes and reads the packets of AJP 1.3. A string travels with its
length in front and a NUL behind it. A header whose name is in the tables travels with
a two-byte code in place of the name; the codes begin with the byte 0xa0, and that byte
is all a decoder goes by. Requests and responses have tables of their own, and share
everything else here.

A decoder works on `packet->data`. `sscanf` assigns nothing past the first directive
that does not match, so a decoder does not fail where the data are short: the number
is 0 then, and the string, if there are fewer characters than its length says, is 0
(`none`).
-/

namespace Caudium.Ajp

open Lib (Str Mapping Decoder Decodes)

/-- A decoder of `packet->data`; `none` is an error. -/
abbrev Packet := Decoder Char

/-! ## Constants -/

def msgForwardRequest : Nat := 2
def msgSendHeaders : Nat := 4
def msgShutdown : Nat := 7
def msgPing : Nat := 8
def msgCping : Nat := 10

def maxPacketSize : Nat := 8 * 1024

/-! ## Characters and numbers -/

/-- The character "%c" prints. -/
def chr (n : Nat) : Char := Char.ofNat n

/-- What "%2c" prints: two bytes, whatever the number. -/
def num16 (n : Nat) : Str := [chr (n / 256 % 256), chr (n % 256)]

/-- `sscanf(s, "%2c%s", n, s)`, with `n` 0 before. -/
def take16 : Packet Nat
  | a :: b :: rest => some (256 * a.toNat + b.toNat, rest)
  | data => some (0, data)

/-- `array_sscanf(s, "%c%s")`; there is nothing to take out of the array if `s` is empty. -/
def takeChar : Packet Nat
  | c :: rest => some (c.toNat, rest)
  | [] => none

theorem toNat_chr {n : Nat} (h : n < 256) : (chr n).toNat = n := by
  have hvalid : n.isValidChar := Or.inl (by omega)
  rw [chr, Char.ofNat, dif_pos hvalid]
  rfl

theorem length_num16 (n : Nat) : (num16 n).length = 2 := rfl

theorem decodes_take16 {n : Nat} (h : n < 65536) : Decodes take16 (num16 n) n := by
  intro rest
  have hhigh : (chr (n / 256 % 256)).toNat = n / 256 % 256 := toNat_chr (Nat.mod_lt _ (by omega))
  have hlow : (chr (n % 256)).toNat = n % 256 := toNat_chr (Nat.mod_lt _ (by omega))
  have hn : 256 * (n / 256 % 256) + n % 256 = n := by omega
  show some (256 * (chr (n / 256 % 256)).toNat + (chr (n % 256)).toNat, rest) = some (n, rest)
  rw [hhigh, hlow, hn]

theorem decodes_takeChar {n : Nat} (h : n < 256) : Decodes takeChar [chr n] n := by
  intro rest
  show some ((chr n).toNat, rest) = some (n, rest)
  rw [toNat_chr h]

/-! ## Strings -/

/-- `push_string`. -/
def pushString (s : Str) : Str := num16 s.length ++ (s ++ ['\x00'])

/-- The second half of `pull_string`, for the length `len`. -/
def pullChars (len : Nat) : Packet (Option Str) := fun s =>
  if len = 0 then some (some [], s.drop 1)
  else if s.length < len then some (none, s)
  -- no character left for "%*c", so `s` is not assigned
  else if s.length = len then some (some s, s)
  else some (some (s.take len), s.drop (len + 1))

/-- `pull_string`. -/
def pullString : Packet (Option Str) := take16 >>= pullChars

/-- `search(v, "\000")`, and what stands before it; an error if `v` is 0. -/
def cutNul : Option Str → Packet (Option Str)
  | none => failure
  | some v => pure (some (v.takeWhile (· ≠ '\x00')))

theorem length_pushString (s : Str) : (pushString s).length = s.length + 3 := by
  simp only [pushString, num16, List.length_append, List.length_cons, List.length_nil]
  omega

theorem decodes_pullChars (s : Str) : Decodes (pullChars s.length) (s ++ ['\x00']) (some s) := by
  intro rest
  cases s with
  | nil => rfl
  | cons c s =>
    have hlen : (c :: s ++ ['\x00'] ++ rest).length = (c :: s).length + 1 + rest.length := by
      rw [List.length_append, List.length_append]
      rfl
    have htake : (c :: s ++ ['\x00'] ++ rest).take (c :: s).length = c :: s := by
      rw [List.append_assoc, List.take_left]
    have hdrop : (c :: s ++ ['\x00'] ++ rest).drop ((c :: s).length + 1) = rest := by
      rw [List.append_assoc, ← List.drop_drop, List.drop_left]
      rfl
    show pullChars (c :: s).length (c :: s ++ ['\x00'] ++ rest) = some (some (c :: s), rest)
    unfold pullChars
    rw [if_neg (by simp only [List.length_cons]; omega), if_neg (by omega), if_neg (by omega),
      htake, hdrop]

theorem decodes_pullString {s : Str} (h : s.length < 65536) :
    Decodes pullString (pushString s) (some s) :=
  (decodes_take16 h).bind (decodes_pullChars s)

/-- The length of a string is sent modulo 2^16. -/
theorem num16_mod (n : Nat) : num16 n = num16 (n % 65536) := by
  have hhigh : n % 65536 / 256 % 256 = n / 256 % 256 := by omega
  have hlow : n % 65536 % 256 = n % 256 := by omega
  rw [num16, num16, hhigh, hlow]

/-- A string is taken off the data; they do not grow. -/
theorem pullString_left {data left : Str} {s : Option Str}
    (h : pullString.run data = some (s, left)) : left.length ≤ data.length := by
  obtain ⟨⟨len, rest⟩, hlen, h⟩ := Option.bind_eq_some_iff.mp h
  have hrest : rest.length ≤ data.length := by
    unfold take16 at hlen
    split at hlen
    · cases hlen
      simp only [List.length_cons]
      omega
    · cases hlen
      exact Nat.le_refl _
  have hleft : left.length ≤ rest.length := by
    change pullChars len rest = some (s, left) at h
    unfold pullChars at h
    split at h
    · cases h
      rw [List.length_drop]
      omega
    · split at h
      · cases h
        exact Nat.le_refl _
      · split at h
        · cases h
          exact Nat.le_refl _
        · cases h
          rw [List.length_drop]
          omega
  exact Nat.le_trans hleft hrest

theorem cutNul_of_notMem {v : Str} (h : '\x00' ∉ v) : cutNul (some v) = pure (some v) := by
  have hkeep : v.takeWhile (· ≠ '\x00') = v := by
    apply List.takeWhile_eq_self_iff.mpr
    intro c hc
    apply decide_eq_true
    intro heq
    exact h (heq ▸ hc)
  rw [cutNul, hkeep]

/-! ## Packets -/

/-- `generate_server_packet` and `generate_container_packet`, with the two bytes in front. -/
def generatePacket (start data : Str) : Option Str :=
  if data.length > maxPacketSize then none else some (start ++ (num16 data.length ++ data))

/-- `sscanf(packet, "%c%s", result->type, result->data)`. -/
def typed : Str → Option (Nat × Str)
  | c :: data => some (c.toNat, data)
  | [] => none

/-- `decode_client_packet` and `decode_container_packet`. -/
def decodePacket (start packet : Str) : Option (Nat × Str) :=
  if packet.take 2 ≠ start then none
  else
    match take16 (packet.drop 2) with
    | none => none
    | some (len, packet) =>
      if len = 0 then none
      else
        let packet := if packet.length < len then packet else packet.take len
        if packet.length ≠ len then none else typed packet

def generateServerPacket : Str → Option Str := generatePacket [chr 0x12, chr 0x34]
def generateContainerPacket : Str → Option Str := generatePacket ['A', 'B']
def decodeClientPacket : Str → Option (Nat × Str) := decodePacket [chr 0x12, chr 0x34]
def decodeContainerPacket : Str → Option (Nat × Str) := decodePacket ['A', 'B']

/-- Only what is not too large is sent. -/
theorem generatePacket_eq_some {start data packet : Str}
    (h : generatePacket start data = some packet) :
    data.length ≤ maxPacketSize ∧ packet = start ++ (num16 data.length ++ data) := by
  unfold generatePacket at h
  split at h
  · cases h
  next hsize => exact ⟨Nat.le_of_not_gt hsize, (Option.some.inj h).symm⟩

/-- A packet arrives as it was sent. -/
theorem decodePacket_generatePacket {start data packet : Str} (hstart : start.length = 2)
    (hdata : data ≠ []) (h : generatePacket start data = some packet) :
    decodePacket start packet = typed data := by
  obtain ⟨hsize, rfl⟩ := generatePacket_eq_some h
  have hlen : data.length < 65536 := Nat.lt_of_le_of_lt hsize (by decide)
  have hpos : data.length ≠ 0 := fun hnil => hdata (List.eq_nil_of_length_eq_zero hnil)
  have htake : (start ++ (num16 data.length ++ data)).take 2 = start := by
    rw [← hstart, List.take_left]
  have hdrop : (start ++ (num16 data.length ++ data)).drop 2 = num16 data.length ++ data := by
    rw [← hstart, List.drop_left]
  have hread : take16 (num16 data.length ++ data) = some (data.length, data) :=
    decodes_take16 hlen data
  unfold decodePacket
  rw [if_neg (not_not.mpr htake), hdrop, hread]
  simp only [if_neg hpos, Nat.lt_irrefl, if_false, List.take_length, ne_eq, not_true]

/-! ## Headers -/

/-- `indices`: the keys of a mapping, in the order in which it happens to have them. -/
structure Indices where
  keys : Mapping Str Str → List Str
  perm : ∀ h, (keys h).Perm h.keys

/-- The order in which a mapping is listed here. -/
def Indices.plain : Indices where
  keys h := h.keys
  perm _ := List.Perm.refl _

/-- One header, for the code table `codes`. -/
def makeHeader (codes : List (Str × Nat)) (header value : Str) : Str :=
  match codes.lookup header with
  | some code => num16 code ++ pushString value
  | none => pushString header ++ pushString value

/-- `make_request_headers` and `make_response_headers`: `spell` is what is done to a
name first. -/
def makeHeaders (indices : Indices) (codes : List (Str × Nat)) (spell : Str → Str)
    (h : Mapping Str Str) : Str :=
  (indices.keys h).flatMap fun header =>
    makeHeader codes (spell header) ((h.lookup header).getD [])

/-- `sscanf(packet->data[0..1], "%2c", n)`, with `n` the byte 0xa0 before, and
`packet->data[2..]`. -/
def takeCode : Packet Nat
  | a :: b :: rest => some (256 * a.toNat + b.toNat, rest)
  | _ => some (0xa0, [])

/-- A header with a code; `values` is the table of the names. -/
def codedHeader (values : List (Nat × Str)) : Packet (Option Str × Option Str) := do
  let n ← takeCode
  let v ← pullString
  let v ← cutNul v
  pure (values.lookup n, v)

/-- A header with its name. -/
def literalHeader : Packet (Option Str × Option Str) := do
  let h ← pullString
  let v ← pullString
  pure (h, v)

/-- One turn of the loop over the headers: the first byte tells the two kinds apart. -/
def decodeHeader (values : List (Nat × Str)) : Packet (Option Str × Option Str) := fun data =>
  if data.head?.map Char.toNat = some 0xa0 then (codedHeader values).run data
  else literalHeader.run data

/-- The headers of a packet. -/
abbrev Headers := Mapping (Option Str) (Option Str)

/-- The loop over the headers. -/
def decodeHeaders (values : List (Nat × Str)) (numHeaders : Nat) : Packet Headers :=
  Lib.times (fun headers => do
    let hv ← decodeHeader values
    pure (headers.insert hv.1 hv.2)) numHeaders ∅

/-- A header that a decoder cannot take for another one: a length below 2^16, no NUL in
the value, and in front of a name that is sent as a string not the byte 0xa0. -/
structure HeaderFits (codes : List (Str × Nat)) (header value : Str) : Prop where
  value_lt : value.length < 65536
  no_nul : '\x00' ∉ value
  literal : codes.lookup header = none →
    header.length < 65536 ∧ ¬ (0xa000 ≤ header.length ∧ header.length ≤ 0xa0ff)

/-- The name under which a header arrives. -/
def sentAs (codes : List (Str × Nat)) (values : List (Nat × Str)) (header : Str) : Option Str :=
  match codes.lookup header with
  | some code => values.lookup code
  | none => some header

/-- All codes begin with the byte 0xa0. -/
def Coded (codes : List (Str × Nat)) : Prop :=
  ∀ header code, codes.lookup header = some code → 0xa000 ≤ code ∧ code ≤ 0xa0ff

variable {codes : List (Str × Nat)} {values : List (Nat × Str)}

theorem mem_of_lookup {α β : Type} [BEq α] [LawfulBEq α] {a : α} {b : β} {l : List (α × β)}
    (h : l.lookup a = some b) : (a, b) ∈ l := by
  obtain ⟨before, after, rfl, _⟩ := List.lookup_eq_some_iff.mp h
  exact List.mem_append_right before List.mem_cons_self

theorem num16_of_coded {code : Nat} (h : 0xa000 ≤ code ∧ code ≤ 0xa0ff) :
    num16 code = [chr 0xa0, chr (code % 256)] := by
  have hhigh : code / 256 % 256 = 0xa0 := by omega
  rw [num16, hhigh]

theorem decodes_takeCode {n : Nat} (h : n < 65536) : Decodes takeCode (num16 n) n := by
  intro rest
  exact decodes_take16 h rest

/-- A code is read as a code. -/
theorem decodes_coded {code : Nat} {value : Str} (hcode : 0xa000 ≤ code ∧ code ≤ 0xa0ff)
    (hlen : value.length < 65536) (hnul : '\x00' ∉ value) :
    Decodes (decodeHeader values) (num16 code ++ pushString value)
      (values.lookup code, some value) := by
  have hcut : Decodes (cutNul (some value)) [] (some value) := by
    rw [cutNul_of_notMem hnul]
    exact Decodes.pure (some value)
  have hcoded : Decodes (codedHeader values) (num16 code ++ (pushString value ++ []))
      (values.lookup code, some value) := by
    apply (decodes_takeCode (by omega)).bind
    apply (decodes_pullString hlen).bind
    exact hcut.bind_pure fun v => (values.lookup code, v)
  rw [List.append_nil] at hcoded
  intro rest
  have hfirst : (num16 code ++ pushString value ++ rest).head?.map Char.toNat = some 0xa0 := by
    rw [num16_of_coded hcode]
    exact congrArg some (toNat_chr (by omega))
  show (if _ then _ else _) = _
  rw [if_pos hfirst]
  exact hcoded rest

/-- A name is read as a name. -/
theorem decodes_literal {header value : Str} (hlen : header.length < 65536)
    (hnot : ¬ (0xa000 ≤ header.length ∧ header.length ≤ 0xa0ff))
    (hvalue : value.length < 65536) :
    Decodes (decodeHeader values) (pushString header ++ pushString value)
      (some header, some value) := by
  have hliteral : Decodes literalHeader (pushString header ++ pushString value)
      (some header, some value) := by
    apply (decodes_pullString hlen).bind
    exact (decodes_pullString hvalue).bind_pure fun v => (some header, v)
  intro rest
  have hhigh : header.length / 256 % 256 ≠ 0xa0 := by omega
  have hfirst : (pushString header ++ pushString value ++ rest).head?.map Char.toNat ≠ some 0xa0 := by
    intro h
    have hbyte : (chr (header.length / 256 % 256)).toNat = 0xa0 := Option.some.inj h
    rw [toNat_chr (Nat.mod_lt _ (by omega))] at hbyte
    exact hhigh hbyte
  show (if _ then _ else _) = _
  rw [if_neg hfirst]
  exact hliteral rest

/-- What `makeHeader` writes is read as one header. -/
theorem decodes_makeHeader (hcodes : Coded codes) {header value : Str}
    (h : HeaderFits codes header value) :
    Decodes (decodeHeader values) (makeHeader codes header value)
      (sentAs codes values header, some value) := by
  unfold makeHeader sentAs
  cases hcode : codes.lookup header with
  | some code => exact decodes_coded (hcodes header code hcode) h.value_lt h.no_nul
  | none =>
    obtain ⟨hlen, hnot⟩ := h.literal hcode
    exact decodes_literal hlen hnot h.value_lt

/-- A header is longer than its value, and than its name if that is sent. -/
theorem length_makeHeader (codes : List (Str × Nat)) (header value : Str) :
    value.length < (makeHeader codes header value).length ∧
      (codes.lookup header = none →
        header.length < (makeHeader codes header value).length) := by
  unfold makeHeader
  cases codes.lookup header with
  | some code =>
    simp only [List.length_append, length_num16, length_pushString]
    exact ⟨by omega, fun h => by cases h⟩
  | none =>
    simp only [List.length_append, length_pushString]
    exact ⟨by omega, fun _ => by omega⟩

theorem makeHeader_ne_nil (header value : Str) : makeHeader codes header value ≠ [] := by
  intro hnil
  have hlen := (length_makeHeader codes header value).1
  rw [hnil] at hlen
  exact absurd hlen (Nat.not_lt_zero _)

/-! ## Mappings -/

variable {indices : Indices} {spell : Str → Str} {sent : Str → Option Str} {h : Mapping Str Str}

/-- No value contains a NUL. -/
def NulFree (h : Mapping Str Str) : Prop :=
  ∀ header value, h.lookup header = some value → '\x00' ∉ value

/-- A mapping as it arrives, if `sent` are the names under which its entries do. -/
def received (indices : Indices) (sent : Str → Option Str) (h : Mapping Str Str) : Headers :=
  (indices.keys h).foldl
    (fun headers header => headers.insert (sent header) (some ((h.lookup header).getD []))) ∅

/-- The same mapping: there is no other name, and none that is 0. -/
def Same (h : Mapping Str Str) (headers : Headers) : Prop :=
  ∀ name, headers.lookup name = (name.bind h.lookup).map some

theorem mem_indices {header : Str} :
    header ∈ indices.keys h ↔ ∃ value, h.lookup header = some value := by
  rw [(indices.perm h).mem_iff, Lib.Mapping.mem_keys_iff]

/-- The headers of a small block of them are small and few. -/
theorem fits_of_small (hsmall : (makeHeaders indices codes spell h).length ≤ maxPacketSize)
    (hnul : NulFree h) :
    h.keys.length < 65536 ∧ ∀ header value, h.lookup header = some value →
      HeaderFits codes (spell header) value := by
  have hmax : maxPacketSize = 8192 := rfl
  constructor
  · have hcard : (indices.keys h).length ≤ (makeHeaders indices codes spell h).length :=
      Lib.card_le_flatMap _ fun header _ => makeHeader_ne_nil (spell header) _
    rw [(indices.perm h).length_eq] at hcard
    exact Nat.lt_of_le_of_lt (Nat.le_trans hcard hsmall) (by omega)
  · intro header value hvalue
    have hpiece := Lib.length_le_flatMap
      (fun header => makeHeader codes (spell header) ((h.lookup header).getD []))
      (mem_indices.2 ⟨value, hvalue⟩ : header ∈ indices.keys h)
    rw [hvalue] at hpiece
    have hlen : (makeHeader codes (spell header) value).length ≤ maxPacketSize :=
      Nat.le_trans hpiece hsmall
    obtain ⟨hshort, hname⟩ := length_makeHeader codes (spell header) value
    exact {
      value_lt := by omega
      no_nul := hnul header value hvalue
      literal := fun hlit => by
        have := hname hlit
        omega }

theorem decodes_makeHeaders (indices : Indices) (values : List (Nat × Str))
    (spell : Str → Str) (hcodes : Coded codes)
    (hfits : ∀ header value, h.lookup header = some value →
      HeaderFits codes (spell header) value) :
    Decodes (decodeHeaders values h.keys.length) (makeHeaders indices codes spell h)
      (received indices (fun header => sentAs codes values (spell header)) h) := by
  rw [← (indices.perm h).length_eq]
  apply Decodes.times
  intro header hmem headers
  obtain ⟨value, hvalue⟩ := mem_indices.1 hmem
  rw [hvalue]
  exact (decodes_makeHeader hcodes (hfits header value hvalue)).bind_pure
    fun hv => headers.insert hv.1 hv.2

/-- An entry arrives under its name, if no other one does. -/
theorem lookup_received {header value : Str} (hvalue : h.lookup header = some value)
    (hdistinct : ∀ other ∈ indices.keys h, sent other = sent header → other = header) :
    (received indices sent h).lookup (sent header) = some (some value) := by
  have hmem : header ∈ indices.keys h := mem_indices.2 ⟨value, hvalue⟩
  have hsame : ∀ other ∈ indices.keys h, sent other = sent header →
      some ((h.lookup other).getD []) = some ((h.lookup header).getD []) := by
    intro other hother heq
    rw [hdistinct other hother heq]
  have hfound := Lib.Mapping.lookup_foldl_insert ∅ (indices.keys h) hmem hsame
  rw [hvalue] at hfound
  exact hfound

/-- Nothing else arrives. -/
theorem lookup_received_none {name : Option Str}
    (hnone : ∀ header ∈ indices.keys h, sent header ≠ name) :
    (received indices sent h).lookup name = none := by
  unfold received
  rw [Lib.Mapping.lookup_foldl_insert_of_ne ∅ (indices.keys h) hnone]
  exact AList.lookup_empty name

/-- What arrives under its own names is the same mapping. -/
theorem same_received (hsent : ∀ header, sent header = some header) :
    Same h (received indices sent h) := by
  intro name
  cases name with
  | none =>
    apply lookup_received_none
    intro header _
    rw [hsent]
    exact Option.some_ne_none header
  | some header =>
    cases hvalue : h.lookup header with
    | some value =>
      have hfound : (received indices sent h).lookup (sent header) = some (some value) := by
        apply lookup_received hvalue
        intro other _ heq
        rw [hsent, hsent] at heq
        exact Option.some.inj heq
      rw [hsent] at hfound
      rw [hfound, Option.bind_some, hvalue]
      rfl
    | none =>
      rw [Option.bind_some, hvalue]
      apply lookup_received_none
      intro other hother heq
      obtain ⟨value, hother⟩ := mem_indices.1 hother
      rw [hsent] at heq
      rw [Option.some.inj heq, hvalue] at hother
      cases hother

end Caudium.Ajp
