import Caudium.Ajp.Protocol
import Mathlib.Data.Nat.Bitwise

/-!
# FastCGI (modules/scripting/fastcgi.pike): packets and records

A `Packet` is printed by `encode`: eight bytes with the type, the request id and two
lengths, then the data and the padding. The padding is reckoned in sixteen bits, so for
data of 65529 to 65535 bytes it comes out negative, and `encode` throws.

`Record` is what the other end reads: the record of the FastCGI protocol. A sequence of
records can be read in one way only (`wires_inj`).
-/

namespace Caudium.FastCGI

open Lib (Str Mapping Decoder Decodes)
open Ajp (chr num16 toNat_chr decodes_take16 take16)

/-! ## Constants -/

def fcgiResponder : Nat := 1
def fcgiKeepConn : Nat := 1
def fcgiBeginRequest : Nat := 1
def fcgiAbortRequest : Nat := 2
def fcgiEndRequest : Nat := 3
def fcgiParams : Nat := 4
def fcgiStdin : Nat := 5
def fcgiStdout : Nat := 6
def fcgiStderr : Nat := 7

/-! ## Packets -/

/-- A packet that is to be sent; its `contentlength` is the length of the data. -/
structure Packet where
  type : Nat
  requestid : Nat
  data : Str

/-- `eLen`. -/
def eLen (dLen : Nat) : Nat := (dLen + 7) &&& (0xFFFF - 7)

/-- `paddinglen`. -/
def paddinglen (dLen : Nat) : Int := (eLen dLen : Int) - dLen

/-- `encode`; `none` when it throws, as `"X" * paddinglen` does for a negative number. -/
def Packet.encode (p : Packet) : Option Str :=
  let padding := paddinglen p.data.length
  if padding < 0 then none
  else some (chr 1 :: chr p.type :: (num16 p.requestid ++ num16 p.data.length ++
    [chr padding.toNat, chr 0] ++ p.data ++ List.replicate padding.toNat 'X'))

/-- `packet_begin_request`. -/
def packetBeginRequest (requestid role flags : Nat) : Packet where
  type := fcgiBeginRequest
  requestid := requestid
  data := num16 role ++ chr flags :: List.replicate 5 (chr 0)

/-- The mask keeps thirteen bits. -/
theorem eLen_eq (n : Nat) : eLen n = 8 * ((n + 7) / 8 % 8192) := by
  have hmask : 0xFFFF - 7 = (2 ^ 13 - 1) <<< 3 := rfl
  have hpieces : 8 * ((n + 7) / 8 % 8192) = ((n + 7) >>> 3 % 2 ^ 13) <<< 3 := by
    rw [Nat.shiftLeft_eq, Nat.shiftRight_eq_div_pow, Nat.mul_comm]
    rfl
  rw [eLen, hmask, hpieces]
  refine Nat.eq_of_testBit_eq fun i => ?_
  rw [Nat.testBit_and, Nat.testBit_shiftLeft, Nat.testBit_two_pow_sub_one, Nat.testBit_shiftLeft,
    Nat.testBit_mod_two_pow, Nat.testBit_shiftRight]
  by_cases hi : 3 ≤ i
  · rw [Nat.add_sub_cancel' hi, Bool.and_comm]
    simp [hi]
  · simp [hi]

theorem paddinglen_small {n : Nat} (h : n ≤ 65528) : 0 ≤ paddinglen n ∧ paddinglen n < 8 := by
  rw [paddinglen, eLen_eq]
  omega

theorem paddinglen_neg {n : Nat} (h : 65528 < n) (h' : n < 65536) : paddinglen n < 0 := by
  rw [paddinglen, eLen_eq]
  omega

/-! ## Records -/

/-- A record of the protocol, whose version is 1. -/
structure Record where
  type : Nat
  requestId : Nat
  content : Str
  padding : Str

/-- The numbers fit into their bytes. -/
structure Record.WellFormed (r : Record) : Prop where
  type : r.type < 256
  requestId : r.requestId < 65536
  content : r.content.length < 65536
  padding : r.padding.length < 256

/-- A record on the wire. -/
def Record.wire (r : Record) : Str :=
  [chr 1] ++ ([chr r.type] ++ (num16 r.requestId ++ (num16 r.content.length ++
    ([chr r.padding.length] ++ ([chr 0] ++ (r.content ++ r.padding))))))

/-- `n` characters. -/
def takeN (n : Nat) : Decoder Char Str := fun s =>
  if n ≤ s.length then some (s.take n, s.drop n) else none

/-- Reads a record. -/
def readRecord : Decoder Char Record := do
  let _ ← Ajp.takeChar
  let type ← Ajp.takeChar
  let requestId ← take16
  let contentLength ← take16
  let paddingLength ← Ajp.takeChar
  let _ ← Ajp.takeChar
  let content ← takeN contentLength
  let padding ← takeN paddingLength
  pure { type, requestId, content, padding }

theorem decodes_takeN (s : Str) : Decodes (takeN s.length) s s := by
  intro rest
  show takeN s.length (s ++ rest) = _
  unfold takeN
  rw [if_pos (by rw [List.length_append]; omega), List.take_left, List.drop_left]

theorem decodes_readRecord {r : Record} (h : r.WellFormed) : Decodes readRecord r.wire r := by
  refine (Ajp.decodes_takeChar (by decide)).bind ?_
  refine (Ajp.decodes_takeChar h.type).bind ?_
  refine (decodes_take16 h.requestId).bind ?_
  refine (decodes_take16 h.content).bind ?_
  refine (Ajp.decodes_takeChar h.padding).bind ?_
  refine (Ajp.decodes_takeChar (by decide)).bind ?_
  exact (decodes_takeN r.content).bind ((decodes_takeN r.padding).bind_pure _)

/-- Records can be read in one way only. -/
theorem wires_inj : ∀ {rs rs' : List Record}, (∀ r ∈ rs, r.WellFormed) →
    (∀ r ∈ rs', r.WellFormed) → rs.flatMap Record.wire = rs'.flatMap Record.wire → rs = rs' := by
  intro rs
  induction rs with
  | nil =>
    intro rs' _ _ heq
    cases rs' with
    | nil => rfl
    | cons r rs' => cases heq
  | cons r rs ih =>
    intro rs' h h' heq
    cases rs' with
    | nil => cases heq
    | cons r' rs' =>
      rw [List.flatMap_cons, List.flatMap_cons] at heq
      have hread := decodes_readRecord (h r List.mem_cons_self) (rs.flatMap Record.wire)
      rw [heq, decodes_readRecord (h' r' List.mem_cons_self), Option.some.injEq,
        Prod.mk.injEq] at hread
      obtain ⟨rfl, hrest⟩ := hread
      rw [ih (fun x hx => h x (List.mem_cons_of_mem _ hx))
        (fun x hx => h' x (List.mem_cons_of_mem _ hx)) hrest.symm]

/-- The record that a packet becomes. -/
def Packet.record (p : Packet) : Record where
  type := p.type
  requestId := p.requestid
  content := p.data
  padding := List.replicate (paddinglen p.data.length).toNat 'X'

theorem wellFormed_record {p : Packet} (htype : p.type < 256) (hid : p.requestid < 65536)
    (hlen : p.data.length ≤ 65528) : p.record.WellFormed where
  type := htype
  requestId := hid
  content := Nat.lt_of_le_of_lt hlen (by decide)
  padding := by
    have hsmall := paddinglen_small hlen
    show (List.replicate _ _).length < 256
    rw [List.length_replicate]
    omega

/-- Up to 65528 bytes a packet is sent as a record. -/
theorem encode_small {p : Packet} (hlen : p.data.length ≤ 65528) :
    p.encode = some p.record.wire := by
  have hsmall := paddinglen_small hlen
  unfold Packet.encode
  dsimp only
  rw [if_neg (by omega)]
  simp [Record.wire, Packet.record]

/-- From 65529 bytes on `encode` throws. -/
theorem encode_large {p : Packet} (hlen : 65528 < p.data.length) (hlen' : p.data.length < 65536) :
    p.encode = none := if_pos (paddinglen_neg hlen hlen')

end Caudium.FastCGI
