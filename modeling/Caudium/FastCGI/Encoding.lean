import Caudium.FastCGI.Packet
import Mathlib.Algebra.BigOperators.Group.List.Basic
import Mathlib.Algebra.Order.BigOperators.Group.List
import Mathlib.Algebra.Order.Group.Nat

/-!
# FastCGI (modules/scripting/fastcgi.pike): how a request is sent

`FCGIRun` begins a request, `Params` sends the environment and `Stdin` what the client
sends. `Stream.write` sends a string that is shorter than 65535 bytes in one packet, and
divides a longer one by 8192. A string divided by a number has whole pieces only, so
what is left over after the last piece is never sent; and the last lengths below 65535
are those for which `encode` throws.

The other end puts the contents of the records together again. `encoding_iff` says for
which lengths it gets what was sent.
-/

namespace Caudium.FastCGI

open Lib (Str Mapping Decoder Decodes)
open Ajp (chr num16 toNat_chr)

/-! ## What is sent -/

/-- What a call has handed to the channel, and whether it has returned. -/
abbrev Sent := Str × Bool

/-- A call and then another. -/
def Sent.andThen (a b : Sent) : Sent := if a.2 then (a.1 ++ b.1, b.2) else a

/-- `send_packet`, for some packets. -/
def sendPackets : List Packet → Sent
  | [] => ([], true)
  | p :: ps =>
    match p.encode with
    | none => ([], false)
    | some s => Sent.andThen (s, true) (sendPackets ps)

/-- `k` pieces of `n` characters. -/
def pieces (n : Nat) : Nat → Str → List Str
  | 0, _ => []
  | k + 1, s => s.take n :: pieces n k (s.drop n)

/-- `s / n`. -/
def divide (s : Str) (n : Nat) : List Str := pieces n (s.length / n) s

/-- `Stream.write`, on a stream that is open. -/
def Stream.write (id reqid : Nat) (data : Str) : Sent :=
  if data = [] then ([], true)
  else if data.length < 65535 then sendPackets [⟨id, reqid, data⟩]
  else sendPackets ((divide data 8192).map fun d => ⟨id, reqid, d⟩)

/-- What `Stream.close` sends, if the stream is a writer. -/
def Stream.close (id reqid : Nat) : Sent := sendPackets [⟨id, reqid, []⟩]

/-- `encode_param_length`. -/
def encodeParamLength (p : Str) : Str :=
  if p.length < 128 then [chr p.length]
  else [chr (p.length / 2 ^ 24 % 256 ||| 128), chr (p.length / 2 ^ 16 % 256),
    chr (p.length / 2 ^ 8 % 256), chr (p.length % 256)]

/-- The data of `write_mapping`, for the order in which the mapping has its keys. -/
def paramsData (m : Mapping Str Str) : Str :=
  m.entries.flatMap fun i =>
    encodeParamLength i.1 ++ encodeParamLength i.2 ++ i.1 ++ i.2

/-- `get_requestid` gives this one or none. -/
def rid : Nat := 1

/-- `FCGIRun.create`, for a request that gets an id. -/
def FCGIRun.create (environment : Mapping Str Str) : Sent :=
  (sendPackets [packetBeginRequest rid fcgiResponder fcgiKeepConn]).andThen
    ((Stream.write fcgiParams rid (paramsData environment)).andThen
      (Stream.close fcgiParams rid))

/-- The request with all that is written to `stdin`, and `stdin->close()`. A write that
throws does not keep the others from being made; a run that throws has no `stdin`. -/
def session (environment : Mapping Str Str) (writes : List Str) : Str :=
  let run := FCGIRun.create environment
  if run.2 then
    run.1 ++ (writes.flatMap fun data => (Stream.write fcgiStdin rid data).1) ++
      (Stream.close fcgiStdin rid).1
  else run.1

/-! ## What arrives -/

/-- Reads a byte. -/
def readByte : Decoder Char Nat
  | c :: rest => if c.toNat < 256 then some (c.toNat, rest) else none
  | [] => none

/-- Reads the length of a name or a value: one byte, or four with the first bit set. -/
def readLength : Decoder Char Nat := do
  let a ← readByte
  if a < 128 then pure a
  else
    let b ← readByte
    let c ← readByte
    let d ← readByte
    pure ((a - 128) * 2 ^ 24 + b * 2 ^ 16 + c * 2 ^ 8 + d)

/-- Reads a name-value pair. -/
def readPair : Decoder Char ((_ : Str) × Str) := do
  let nameLength ← readLength
  let valueLength ← readLength
  let name ← takeN nameLength
  let value ← takeN valueLength
  pure ⟨name, value⟩

/-- Reads name-value pairs to the end, `n` at most. -/
def readPairs : Nat → Str → Option (List ((_ : Str) × Str))
  | _, [] => some []
  | 0, _ :: _ => none
  | n + 1, c :: s => do
    let (pair, rest) ← readPair.run (c :: s)
    let pairs ← readPairs n rest
    pure (pair :: pairs)

/-- The name-value pairs of a string; none of them is shorter than two bytes. -/
def decodePairs (s : Str) : Option (List ((_ : Str) × Str)) := readPairs s.length s

/-- The records of a stream: some that are not empty, and one that is. -/
def IsStream (type : Nat) (content : Str) (rs : List Record) : Prop :=
  ∃ full last, rs = full ++ [last] ∧ (∀ r ∈ rs, r.type = type ∧ r.requestId = rid) ∧
    (∀ r ∈ full, r.content ≠ []) ∧ last.content = [] ∧ full.flatMap Record.content = content

/-- The bytes are a request with this environment and this input. -/
def Proper (environment : Mapping Str Str) (input bytes : Str) : Prop :=
  ∃ (begin : Record) (params stdin : List Record) (paramsContent : Str)
      (pairs : List ((_ : Str) × Str)),
    bytes = (begin :: (params ++ stdin)).flatMap Record.wire ∧
    (∀ r ∈ begin :: (params ++ stdin), r.WellFormed) ∧
    begin.type = fcgiBeginRequest ∧ begin.requestId = rid ∧
    begin.content = num16 fcgiResponder ++ chr fcgiKeepConn :: List.replicate 5 (chr 0) ∧
    IsStream fcgiParams paramsContent params ∧ decodePairs paramsContent = some pairs ∧
    pairs.Perm environment.entries ∧ IsStream fcgiStdin input stdin

/-! ## Lengths -/

/-- A string of this length is sent as it is. -/
def Fits (n : Nat) : Prop := n ≤ 65528 ∨ 65535 ≤ n ∧ 8192 ∣ n

instance (n : Nat) : Decidable (Fits n) := inferInstanceAs (Decidable (_ ∨ _))

/-- The length of a length. -/
def lengthSize (n : Nat) : Nat := if n < 128 then 1 else 4

/-- The length of a name-value pair. -/
def pairSize (i : (_ : Str) × Str) : Nat :=
  lengthSize i.1.length + lengthSize i.2.length + i.1.length + i.2.length

/-- The length of an environment. -/
def environmentSize (m : Mapping Str Str) : Nat := (m.entries.map pairSize).sum

/-! ## Pieces -/

theorem length_of_mem_pieces {n : Nat} : ∀ {k : Nat} {s d : Str}, n * k ≤ s.length →
    d ∈ pieces n k s → d.length = n := by
  intro k
  induction k with
  | zero => intro s d _ hd; cases hd
  | succ k ih =>
    intro s d hlen hd
    rw [Nat.mul_succ] at hlen
    rcases List.mem_cons.mp hd with rfl | hd
    · rw [List.length_take]
      omega
    · exact ih (by rw [List.length_drop]; omega) hd

theorem flatten_pieces (n : Nat) : ∀ (k : Nat) (s : Str), (pieces n k s).flatten = s.take (n * k) := by
  intro k
  induction k with
  | zero => intro s; rfl
  | succ k ih =>
    intro s
    rw [pieces, List.flatten_cons, ih, Nat.mul_succ, Nat.add_comm, List.take_add]

/-- The pieces that `Stream.write` sends. -/
def written (data : Str) : List Str :=
  if data = [] then []
  else if data.length ≤ 65528 then [data]
  else if data.length < 65535 then []
  else divide data 8192

/-- A piece is never too long, and never empty. -/
theorem mem_written {data d : Str} (h : d ∈ written data) : d.length ≤ 65528 ∧ d ≠ [] := by
  unfold written at h
  split at h
  next => cases h
  next hne =>
    split at h
    next hlen =>
      obtain rfl := List.mem_singleton.mp h
      exact ⟨hlen, hne⟩
    next =>
      split at h
      next => cases h
      next =>
        have hd := length_of_mem_pieces (Nat.mul_div_le data.length 8192) h
        refine ⟨by omega, ?_⟩
        intro heq
        subst heq
        cases hd

theorem flatten_written (data : Str) : (written data).flatten =
    data.take (if data.length ≤ 65528 then data.length
      else if data.length < 65535 then 0 else 8192 * (data.length / 8192)) := by
  unfold written
  split
  next h =>
    rw [h]
    rfl
  next =>
    split
    next => rw [List.take_length, List.flatten_cons, List.flatten_nil, List.append_nil]
    next =>
      split
      next => rfl
      next => exact flatten_pieces 8192 _ data

theorem length_written_le (data : Str) : (written data).flatten.length ≤ data.length := by
  rw [flatten_written, List.length_take]
  exact Nat.min_le_right ..

/-- All of a string is sent exactly when its length fits. -/
theorem length_written_iff (data : Str) :
    (written data).flatten.length = data.length ↔ Fits data.length := by
  rw [flatten_written, List.length_take, Fits]
  split
  next h => exact iff_of_true (by omega) (Or.inl h)
  next h =>
    split
    next h' => exact iff_of_false (by omega) (by omega)
    next h' => omega

theorem written_of_fits {data : Str} (h : Fits data.length) : (written data).flatten = data := by
  have hlen := (length_written_iff data).mpr h
  rw [flatten_written] at hlen ⊢
  rw [List.length_take] at hlen
  rw [List.take_of_length_le (by omega)]

/-! ## The records that are sent -/

/-- The record of a piece. -/
def pieceRecord (id : Nat) (d : Str) : Record := Packet.record ⟨id, rid, d⟩

theorem sendPackets_records : ∀ {ps : List Packet}, (∀ p ∈ ps, p.data.length ≤ 65528) →
    sendPackets ps = ((ps.map Packet.record).flatMap Record.wire, true) := by
  intro ps
  induction ps with
  | nil => intro _; rfl
  | cons p ps ih =>
    intro h
    rw [sendPackets, encode_small (h p List.mem_cons_self),
      ih fun q hq => h q (List.mem_cons_of_mem _ hq)]
    rfl

/-- What a write sends; it throws for the last lengths below 65535. -/
theorem write_eq (id : Nat) (data : Str) : Stream.write id rid data =
    (((written data).map (pieceRecord id)).flatMap Record.wire,
      decide (¬ (65528 < data.length ∧ data.length < 65535))) := by
  have hpieces : ∀ ds : List Str, (∀ d ∈ ds, d.length ≤ 65528) →
      sendPackets (ds.map fun d => ⟨id, rid, d⟩) =
        ((ds.map (pieceRecord id)).flatMap Record.wire, true) := by
    intro ds hds
    rw [sendPackets_records (by simpa using hds), List.map_map]
    rfl
  unfold Stream.write
  split
  next h =>
    subst h
    rfl
  next hne =>
    split
    next hlt =>
      by_cases hlen : data.length ≤ 65528
      · rw [decide_eq_true (by omega), written, if_neg hne, if_pos hlen]
        exact hpieces [data] (by simpa using hlen)
      · rw [decide_eq_false (by omega), written, if_neg hne, if_neg hlen, if_pos hlt,
          sendPackets, encode_large (p := ⟨id, rid, data⟩) (Nat.lt_of_not_le hlen)
            (Nat.lt_succ_of_lt hlt)]
        rfl
    next hge =>
      have hwritten : written data = divide data 8192 := by
        rw [written, if_neg hne, if_neg (show ¬ data.length ≤ 65528 by omega), if_neg hge]
      rw [decide_eq_true (by omega), ← hwritten]
      exact hpieces _ fun d hd => (mem_written hd).1

/-- The records of what is written to a stream, and of its end. -/
def streamRecords (id : Nat) (ds : List Str) : List Record := (ds ++ [[]]).map (pieceRecord id)

/-- The records of a request. -/
def sessionRecords (environment : Mapping Str Str) (writes : List Str) : List Record :=
  (packetBeginRequest rid fcgiResponder fcgiKeepConn).record ::
    (streamRecords fcgiParams (written (paramsData environment)) ++
      streamRecords fcgiStdin (writes.flatMap written))

/-- A request is sent as records, and breaks off after the first when the environment is
of the wrong length. -/
theorem session_eq (environment : Mapping Str Str) (writes : List Str) :
    session environment writes =
      if 65528 < (paramsData environment).length ∧ (paramsData environment).length < 65535 then
        (packetBeginRequest rid fcgiResponder fcgiKeepConn).record.wire
      else (sessionRecords environment writes).flatMap Record.wire := by
  have hbegin : sendPackets [packetBeginRequest rid fcgiResponder fcgiKeepConn] =
      ((packetBeginRequest rid fcgiResponder fcgiKeepConn).record.wire, true) := by
    rw [sendPackets_records (by simp [packetBeginRequest, num16])]
    simp
  have hclose : ∀ id, Stream.close id rid = ((pieceRecord id []).wire, true) := by
    intro id
    rw [Stream.close, sendPackets_records (by simp)]
    simp [pieceRecord]
  have hwrites : (writes.flatMap fun data => (Stream.write fcgiStdin rid data).1) =
      ((writes.flatMap written).map (pieceRecord fcgiStdin)).flatMap Record.wire := by
    simp only [write_eq, List.map_flatMap, List.flatMap_assoc]
  have hcreate : FCGIRun.create environment =
      if 65528 < (paramsData environment).length ∧ (paramsData environment).length < 65535 then
        ((packetBeginRequest rid fcgiResponder fcgiKeepConn).record.wire ++
          ((written (paramsData environment)).map (pieceRecord fcgiParams)).flatMap Record.wire,
          false)
      else ((packetBeginRequest rid fcgiResponder fcgiKeepConn).record.wire ++
        (streamRecords fcgiParams (written (paramsData environment))).flatMap Record.wire,
          true) := by
    rw [FCGIRun.create, hbegin, write_eq, hclose]
    split
    next h => simp [Sent.andThen, h]
    next h => simp [Sent.andThen, h, streamRecords]
  unfold session
  rw [hcreate]
  split
  next h =>
    have hnone : written (paramsData environment) = [] := by
      have hne : paramsData environment ≠ [] := by
        intro hnil
        rw [hnil] at h
        simp at h
      rw [written, if_neg hne, if_neg (by omega), if_pos h.2]
    simp [hnone]
  next h => simp [hwrites, hclose, sessionRecords, streamRecords]

theorem content_pieceRecords (id : Nat) (ds : List Str) :
    (ds.map (pieceRecord id)).flatMap Record.content = ds.flatten := by
  rw [List.flatMap_map, List.flatMap_def]
  exact congrArg List.flatten (List.map_id ds)

theorem isStream_streamRecords {id : Nat} {ds : List Str} (h : ∀ d ∈ ds, d ≠ []) :
    IsStream id ds.flatten (streamRecords id ds) := by
  refine ⟨ds.map (pieceRecord id), pieceRecord id [], List.map_append .., ?_, ?_, rfl, ?_⟩
  · intro r hr
    obtain ⟨d, -, rfl⟩ := List.mem_map.mp hr
    exact ⟨rfl, rfl⟩
  · intro r hr
    obtain ⟨d, hd, rfl⟩ := List.mem_map.mp hr
    exact h d hd
  · exact content_pieceRecords id ds

theorem wellFormed_streamRecords {id : Nat} {ds : List Str} (hid : id < 256)
    (h : ∀ d ∈ ds, d.length ≤ 65528) : ∀ r ∈ streamRecords id ds, r.WellFormed := by
  intro r hr
  obtain ⟨d, hd, rfl⟩ := List.mem_map.mp hr
  refine wellFormed_record hid (show rid < 65536 by decide) ?_
  rcases List.mem_append.mp hd with hd | hd
  · exact h d hd
  · rw [List.mem_singleton.mp hd]
    exact Nat.zero_le _

theorem wellFormed_sessionRecords (environment : Mapping Str Str) (writes : List Str) :
    ∀ r ∈ sessionRecords environment writes, r.WellFormed := by
  intro r hr
  rcases List.mem_cons.mp hr with rfl | hr
  · exact wellFormed_record (by decide) (by decide) (by decide)
  · rcases List.mem_append.mp hr with hr | hr
    · exact wellFormed_streamRecords (by decide) (fun d hd => (mem_written hd).1) r hr
    · refine wellFormed_streamRecords (by decide) (fun d hd => ?_) r hr
      obtain ⟨w, -, hd⟩ := List.mem_flatMap.mp hd
      exact (mem_written hd).1

/-! ## Reading the environment -/

theorem decodes_readByte {n : Nat} (h : n < 256) : Decodes readByte [chr n] n := by
  intro rest
  show (if (chr n).toNat < 256 then _ else _) = _
  rw [toNat_chr h, if_pos h]
  rfl

theorem decodes_readLength {s : Str} (h : s.length < 2 ^ 31) :
    Decodes readLength (encodeParamLength s) s.length := by
  unfold readLength encodeParamLength
  split
  next hshort =>
    rw [← List.append_nil [chr s.length]]
    refine (decodes_readByte (by omega)).bind ?_
    rw [if_pos hshort]
    exact Decodes.pure _
  next hlong =>
    have hbit : s.length / 2 ^ 24 % 256 ||| 128 = s.length / 2 ^ 24 + 128 := by
      have hall : ∀ x < 128, x ||| 128 = x + 128 := by decide
      rw [Nat.mod_eq_of_lt (by omega), hall _ (by omega)]
    have hsum : (s.length / 2 ^ 24 + 128 - 128) * 2 ^ 24 + s.length / 2 ^ 16 % 256 * 2 ^ 16 +
        s.length / 2 ^ 8 % 256 * 2 ^ 8 + s.length % 256 = s.length := by omega
    rw [hbit]
    change Decodes _ ([chr (s.length / 2 ^ 24 + 128)] ++ ([chr (s.length / 2 ^ 16 % 256)] ++
      ([chr (s.length / 2 ^ 8 % 256)] ++ ([chr (s.length % 256)] ++ [])))) _
    refine (decodes_readByte (by omega)).bind ?_
    rw [if_neg (by omega)]
    refine (decodes_readByte (by omega)).bind ?_
    refine (decodes_readByte (by omega)).bind ?_
    refine (decodes_readByte (by omega)).bind ?_
    rw [hsum]
    exact Decodes.pure _

/-- A name-value pair is read back if its lengths fit into 31 bits. -/
theorem decodes_readPair {i : (_ : Str) × Str} (hname : i.1.length < 2 ^ 31)
    (hvalue : i.2.length < 2 ^ 31) : Decodes readPair
      (encodeParamLength i.1 ++ encodeParamLength i.2 ++ i.1 ++ i.2) i := by
  rw [List.append_assoc, List.append_assoc]
  refine (decodes_readLength hname).bind ?_
  refine (decodes_readLength hvalue).bind ?_
  exact (decodes_takeN i.1).bind ((decodes_takeN i.2).bind_pure _)

theorem length_encodeParamLength (s : Str) :
    (encodeParamLength s).length = lengthSize s.length := by
  unfold encodeParamLength lengthSize
  split <;> rfl

theorem length_paramsData (m : Mapping Str Str) :
    (paramsData m).length = environmentSize m := by
  rw [paramsData, List.length_flatMap, environmentSize]
  refine congrArg List.sum (List.map_congr_left fun i _ => ?_)
  simp only [List.length_append, length_encodeParamLength, pairSize]

/-- The pairs of an environment are read back. -/
theorem readPairs_flatMap : ∀ {es : List ((_ : Str) × Str)} {n : Nat},
    (∀ i ∈ es, i.1.length < 2 ^ 31 ∧ i.2.length < 2 ^ 31) → es.length ≤ n →
      readPairs n (es.flatMap fun i =>
        encodeParamLength i.1 ++ encodeParamLength i.2 ++ i.1 ++ i.2) = some es := by
  intro es
  induction es with
  | nil =>
    intro n _ _
    cases n with
    | zero => rfl
    | succ n => rfl
  | cons i es ih =>
    intro n hes hn
    obtain ⟨n, rfl⟩ : ∃ m, n = m + 1 := ⟨n - 1, by simp only [List.length_cons] at hn; omega⟩
    obtain ⟨hname, hvalue⟩ := hes i List.mem_cons_self
    have hread := decodes_readPair hname hvalue (es.flatMap fun i =>
      encodeParamLength i.1 ++ encodeParamLength i.2 ++ i.1 ++ i.2)
    have hrest := ih (n := n) (fun j hj => hes j (List.mem_cons_of_mem _ hj))
      (Nat.le_of_succ_le_succ hn)
    rw [List.flatMap_cons]
    cases hdata : encodeParamLength i.1 ++ encodeParamLength i.2 ++ i.1 ++ i.2 ++
        es.flatMap (fun i => encodeParamLength i.1 ++ encodeParamLength i.2 ++ i.1 ++ i.2) with
    | nil =>
      have hlen := congrArg List.length hdata
      simp only [List.length_append, length_encodeParamLength, List.length_nil] at hlen
      unfold lengthSize at hlen
      split at hlen <;> omega
    | cons c s =>
      rw [hdata] at hread
      rw [readPairs, hread]
      show (readPairs n _).bind _ = _
      rw [hrest]
      rfl

theorem decodePairs_paramsData {m : Mapping Str Str}
    (h : ∀ i ∈ m.entries, i.1.length < 2 ^ 31 ∧ i.2.length < 2 ^ 31) :
    decodePairs (paramsData m) = some m.entries := by
  refine readPairs_flatMap h (Lib.card_le_flatMap _ fun i _ hnil => ?_)
  have hlen := congrArg List.length hnil
  simp only [List.length_append, length_encodeParamLength, List.length_nil] at hlen
  unfold lengthSize at hlen
  split at hlen <;> omega

theorem readByte_left {s rest : Str} {n : Nat} (h : readByte.run s = some (n, rest)) :
    n < 256 ∧ s.length = rest.length + 1 := by
  cases s with
  | nil => cases h
  | cons c s =>
    change (if c.toNat < 256 then _ else _) = _ at h
    split at h
    next hc =>
      cases h
      exact ⟨hc, rfl⟩
    next => cases h

theorem readLength_left {s rest : Str} {n : Nat} (h : readLength.run s = some (n, rest)) :
    n < 2 ^ 31 ∧ rest.length + lengthSize n ≤ s.length := by
  obtain ⟨⟨a, s₁⟩, ha, h⟩ := Option.bind_eq_some_iff.mp h
  obtain ⟨halt, hs⟩ := readByte_left ha
  dsimp only at h
  split at h
  next hshort =>
    cases h
    rw [lengthSize, if_pos hshort]
    omega
  next hlong =>
    obtain ⟨⟨b, s₂⟩, hb, h⟩ := Option.bind_eq_some_iff.mp h
    obtain ⟨⟨c, s₃⟩, hc, h⟩ := Option.bind_eq_some_iff.mp h
    obtain ⟨⟨d, s₄⟩, hd, h⟩ := Option.bind_eq_some_iff.mp h
    obtain ⟨hblt, hs₁⟩ := readByte_left hb
    obtain ⟨hclt, hs₂⟩ := readByte_left hc
    obtain ⟨hdlt, hs₃⟩ := readByte_left hd
    cases h
    have hsize : lengthSize ((a - 128) * 2 ^ 24 + b * 2 ^ 16 + c * 2 ^ 8 + d) ≤ 4 := by
      unfold lengthSize
      split <;> omega
    omega

theorem takeN_left {s rest t : Str} {n : Nat} (h : (takeN n).run s = some (t, rest)) :
    t.length = n ∧ s.length = rest.length + n := by
  change takeN n s = _ at h
  unfold takeN at h
  split at h
  next hn =>
    cases h
    rw [List.length_take, List.length_drop]
    omega
  next => cases h

/-- A pair that is read takes at least its size, and has lengths that fit into 31 bits. -/
theorem readPair_left {s rest : Str} {i : (_ : Str) × Str}
    (h : readPair.run s = some (i, rest)) : i.1.length < 2 ^ 31 ∧ i.2.length < 2 ^ 31 ∧
      rest.length + pairSize i ≤ s.length := by
  obtain ⟨⟨n, s₁⟩, hn, h⟩ := Option.bind_eq_some_iff.mp h
  obtain ⟨⟨n', s₂⟩, hn', h⟩ := Option.bind_eq_some_iff.mp h
  obtain ⟨⟨name, s₃⟩, hname, h⟩ := Option.bind_eq_some_iff.mp h
  obtain ⟨⟨value, s₄⟩, hvalue, h⟩ := Option.bind_eq_some_iff.mp h
  obtain ⟨hnlt, hs⟩ := readLength_left hn
  obtain ⟨hnlt', hs₁⟩ := readLength_left hn'
  obtain ⟨hlen, hs₂⟩ := takeN_left hname
  obtain ⟨hlen', hs₃⟩ := takeN_left hvalue
  cases h
  rw [← hlen] at hnlt hs
  rw [← hlen'] at hnlt' hs₁
  refine ⟨hnlt, hnlt', ?_⟩
  show rest.length + (lengthSize name.length + lengthSize value.length + name.length +
    value.length) ≤ _
  omega

theorem readPairs_left : ∀ {n : Nat} {s : Str} {is : List ((_ : Str) × Str)},
    readPairs n s = some is → (∀ i ∈ is, i.1.length < 2 ^ 31 ∧ i.2.length < 2 ^ 31) ∧
      (is.map pairSize).sum ≤ s.length := by
  intro n
  induction n with
  | zero =>
    intro s is h
    cases s with
    | nil =>
      cases h
      exact ⟨fun i hi => absurd hi List.not_mem_nil, Nat.le_refl _⟩
    | cons c s => cases h
  | succ n ih =>
    intro s is h
    cases s with
    | nil =>
      cases h
      exact ⟨fun i hi => absurd hi List.not_mem_nil, Nat.le_refl _⟩
    | cons c s =>
      obtain ⟨⟨i, rest⟩, hi, h⟩ := Option.bind_eq_some_iff.mp h
      obtain ⟨is', his', h⟩ := Option.bind_eq_some_iff.mp h
      cases h
      obtain ⟨hname, hvalue, hsize⟩ := readPair_left hi
      obtain ⟨hall, hsum⟩ := ih his'
      refine ⟨?_, ?_⟩
      · intro j hj
        rcases List.mem_cons.mp hj with rfl | hj
        · exact ⟨hname, hvalue⟩
        · exact hall j hj
      · rw [List.map_cons, List.sum_cons]
        omega

/-! ## The request arrives -/

theorem content_isStream {type : Nat} {content : Str} {rs : List Record}
    (h : IsStream type content rs) : rs.flatMap Record.content = content := by
  obtain ⟨full, last, rfl, -, -, hlast, rfl⟩ := h
  rw [List.flatMap_append, List.flatMap_cons, hlast]
  simp

/-- What a stream carries is told by the records of its type. -/
theorem filter_streams {type type' : Nat} {content content' : Str} {rs rs' : List Record}
    (h : IsStream type content rs) (h' : IsStream type' content' rs') (hne : type' ≠ type) :
    (rs ++ rs').filter (·.type = type) = rs := by
  obtain ⟨full, last, -, htype, -⟩ := h
  obtain ⟨full', last', -, htype', -⟩ := h'
  have hkeep : rs.filter (·.type = type) = rs :=
    List.filter_eq_self.mpr fun r hr => decide_eq_true (htype r hr).1
  have hdrop : rs'.filter (·.type = type) = [] :=
    List.filter_eq_nil_iff.mpr fun r hr hr' =>
      hne ((htype' r hr).1.symm.trans (of_decide_eq_true hr'))
  rw [List.filter_append, hkeep, hdrop, List.append_nil]

/-- Two streams in a row are told apart. -/
theorem streams_inj {type type' : Nat} {a a' b b' : Str} {rs rs' ts ts' : List Record}
    (hrs : IsStream type a rs) (hrs' : IsStream type' a' rs') (hts : IsStream type b ts)
    (hts' : IsStream type' b' ts') (hne : type' ≠ type) (heq : rs ++ rs' = ts ++ ts') :
    a = b ∧ a' = b' := by
  have hfirst : rs = ts := by
    rw [← filter_streams hrs hrs' hne, heq, filter_streams hts hts' hne]
  rw [hfirst, List.append_cancel_left_eq] at heq
  rw [← content_isStream hrs, ← content_isStream hts, ← content_isStream hrs',
    ← content_isStream hts', hfirst, heq]
  exact ⟨rfl, rfl⟩

/-- The pieces of all writes are all that was written when each write fits, and less when
one does not. -/
theorem flatten_written_iff (writes : List Str) :
    (writes.flatMap written).flatten = writes.flatten ↔ ∀ w ∈ writes, Fits w.length := by
  constructor
  · intro heq w hw
    refine (length_written_iff w).mp (Nat.le_antisymm (length_written_le w) ?_)
    have hlen := congrArg List.length heq
    rw [List.flatMap_def, List.flatten_flatten, List.length_flatten, List.length_flatten,
      List.map_map, List.map_map] at hlen
    by_contra hlt
    refine absurd hlen (Nat.ne_of_lt (List.sum_lt_sum _ _ (fun d _ => length_written_le d) ?_))
    exact ⟨w, hw, Nat.lt_of_not_le hlt⟩
  · intro h
    rw [List.flatMap_def, List.flatten_flatten, List.map_map]
    congr 1
    exact (List.map_congr_left fun w hw => written_of_fits (h w hw)).trans (List.map_id writes)

theorem isStream_params (environment : Mapping Str Str) :
    IsStream fcgiParams (written (paramsData environment)).flatten
      (streamRecords fcgiParams (written (paramsData environment))) :=
  isStream_streamRecords fun _ hd => (mem_written hd).2

theorem isStream_stdin (writes : List Str) :
    IsStream fcgiStdin (writes.flatMap written).flatten
      (streamRecords fcgiStdin (writes.flatMap written)) :=
  isStream_streamRecords fun _ hd =>
    have ⟨_, _, hd⟩ := List.mem_flatMap.mp hd
    (mem_written hd).2

/-- What a request must be like if it arrives. -/
theorem fits_of_proper {environment : Mapping Str Str} {writes : List Str}
    (h : Proper environment writes.flatten (session environment writes)) :
    (∀ i ∈ environment.entries, i.1.length < 2 ^ 31 ∧ i.2.length < 2 ^ 31) ∧
      Fits (environmentSize environment) ∧ ∀ w ∈ writes, Fits w.length := by
  obtain ⟨begin, params, stdin, content, pairs, hbytes, hformed, -, -, -, hparams, hpairs, hperm,
    hstdin⟩ := h
  rw [session_eq] at hbytes
  split at hbytes
  next hthrow =>
    -- the first record is the only one
    have hfirst : ∀ r ∈ [(packetBeginRequest rid fcgiResponder fcgiKeepConn).record],
        r.WellFormed := fun r hr => wellFormed_sessionRecords environment writes r
      (List.mem_cons.mpr (Or.inl (List.mem_singleton.mp hr)))
    have hone := wires_inj hfirst hformed ((List.append_nil _).trans hbytes)
    obtain ⟨full, last, rfl, -⟩ := hparams
    obtain ⟨-, hnil⟩ := List.cons.inj hone
    simp at hnil
  next hthrow =>
    have hrecords := wires_inj (wellFormed_sessionRecords environment writes) hformed hbytes
    obtain ⟨rfl, hinput⟩ := streams_inj (isStream_params environment) (isStream_stdin writes)
      hparams hstdin (by decide) (List.cons.inj hrecords).2
    obtain ⟨hlengths, hsize⟩ := readPairs_left hpairs
    rw [(hperm.map pairSize).sum_eq] at hsize
    refine ⟨fun i hi => hlengths i (hperm.symm.subset hi), ?_, (flatten_written_iff _).mp hinput⟩
    have hless := length_written_le (paramsData environment)
    rw [← length_paramsData, ← length_written_iff]
    rw [length_paramsData] at hless ⊢
    exact Nat.le_antisymm hless hsize

/-- **Encoding.** The bytes of a request form a sequence of records that carry its environment
and all that is written to it exactly when all names and values of the environment are
shorter than 2^31 bytes, and the environment and each string written are no longer than
65528 bytes, or 65536 bytes or a larger multiple of 8192. -/
theorem encoding_iff (environment : Mapping Str Str) (writes : List Str) :
    Proper environment writes.flatten (session environment writes) ↔
      (∀ i ∈ environment.entries, i.1.length < 2 ^ 31 ∧ i.2.length < 2 ^ 31) ∧
        Fits (environmentSize environment) ∧ ∀ w ∈ writes, Fits w.length := by
  refine ⟨fits_of_proper, ?_⟩
  intro h
  obtain ⟨hlengths, hsize, hwrites⟩ := h
  rw [← length_paramsData] at hsize
  have hparams := isStream_params environment
  have hstdin := isStream_stdin writes
  rw [written_of_fits hsize] at hparams
  rw [(flatten_written_iff writes).mpr hwrites] at hstdin
  refine ⟨_, _, _, _, _, ?_, wellFormed_sessionRecords environment writes, rfl, rfl, rfl,
    hparams, decodePairs_paramsData hlengths, List.Perm.refl _, hstdin⟩
  rw [session_eq, if_neg (by unfold Fits at hsize; omega)]
  rfl

/-- Of 65535 bytes only the first 57344 are sent. -/
theorem write_drops_rest : ¬ ∀ (environment : Mapping Str Str) (writes : List Str),
    Proper environment writes.flatten (session environment writes) := by
  intro h
  obtain ⟨-, -, hfits⟩ := fits_of_proper (h ∅ [List.replicate 65535 'a'])
  have hlast := hfits _ List.mem_cons_self
  rw [List.length_replicate] at hlast
  exact absurd hlast (by decide)

end Caudium.FastCGI
