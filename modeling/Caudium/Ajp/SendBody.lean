import Caudium.Ajp.Protocol
import Caudium.Http.SendResult
import Caudium.Lib.Loop

/-!
# The body of an answer in the Apache JServ protocol (`send_result`, ajp13.pike)

Up to its sending loop `send_result` does what the one of protocols/http.pike does
(`Http.sendResult`), but for the headers. The loop writes chunks of the data, or of the file
if there are no data, until as many characters are written as the answer is long.

`pkt_no` goes on with a whole chunk only. So what is left of the data behind the whole chunks is
written again and again where the answer is longer than they are, and if nothing is left, the
loop runs forever (`not_delivers_empty`): HEAD and 304 put empty data in the place of the file.
-/

namespace Caudium.Ajp

open Lib (Str doWhile doWhile_iff doWhile_ends)
open Http (slice Answer Asked SendEnv sendResult)

/-! ## The loop -/

def msgSendBodyChunk : Nat := 3

/-- `encode_send_body_chunk`. -/
def encodeSendBodyChunk (data : Str) : Str :=
  chr msgSendBodyChunk :: (num16 data.length ++ (data ++ ['\x00']))

/-- `MAX_PACKET_SIZE-7`. -/
def chunkSize : Nat := maxPacketSize - 7

/-- An answer at the loop: `file->len`, `file->data`, and what there is to read in
`file->file`. -/
structure Body where
  len : Int
  data : Option Str
  file : Option Str
  deriving DecidableEq

/-- What the chunks are cut from. -/
inductive Source where
  | data (data : Str)
  /-- With what is left to read. -/
  | file (left : Str)

/-- Data go before a file. -/
def Body.source (b : Body) : Option Source :=
  match b.data, b.file with
  | some data, _ => some (.data data)
  | none, some left => some (.file left)
  | none, none => none

/-- The variables of the loop, and the chunks that it has written, in a packet each. -/
structure Sending where
  source : Source
  pktNo : Nat
  sent : Nat
  chunks : List Str

def Sending.start (src : Source) : Sending := ⟨src, 0, 0, []⟩

/-- A chunk is written. -/
def Sending.write (s : Sending) (chunk : Str) : Sending :=
  { s with sent := s.sent + chunk.length, chunks := s.chunks ++ [chunk] }

/-- The body of the loop. -/
def Sending.turn (s : Sending) : Sending :=
  match s.source with
  | .data data =>
    if data.length < chunkSize * (s.pktNo + 1) then s.write (data.drop (chunkSize * s.pktNo))
    else
      { s with pktNo := s.pktNo + 1 }.write
        (slice data (chunkSize * s.pktNo) (chunkSize * (s.pktNo + 1)))
  | .file left => { s with source := .file (left.drop chunkSize) }.write (left.take chunkSize)

/-- `sent < file->len`. -/
def Sending.live (len : Int) (s : Sending) : Bool := (s.sent : Int) < len

/-- How far the body has come. -/
inductive Sent where
  | running
  /-- There is neither data nor a file. -/
  | error
  | done (chunks : List Str)

/-- The body, in at most `n` turns. -/
def sendBody (b : Body) (n : Nat) : Sent :=
  if b.len < 0 then .done []
  else
    match b.source with
    | none => .error
    | some src =>
      match doWhile (Sending.live b.len) Sending.turn n (.start src) with
      | none => .running
      | some s => .done s.chunks

/-! ## What is to be sent -/

/-- The data, and the contents of the file behind them. -/
def Body.available (b : Body) : Str := b.data.getD [] ++ b.file.getD []

/-- The loop comes to its end, and its chunks are what the length says of what there is. -/
def Delivers (b : Body) : Prop :=
  ∃ n chunks, sendBody b n = .done chunks ∧ chunks.flatten = b.available.take b.len.toNat

/-- What is sent first, and alone. -/
def Body.first (b : Body) : Option Str := b.data.or b.file

/-- What the data have behind their whole chunks. -/
def tail (data : Str) : Str := data.drop (chunkSize * (data.length / chunkSize))

/-- The file begins with repetitions of the data's last chunk, and they make up for the length. -/
def Body.RepeatsTail (b : Body) : Prop :=
  ∃ (d : Str) (n : Nat), b.data = some d ∧ b.len = d.length + n * (tail d).length ∧
    (List.replicate n (tail d)).flatten <+: b.file.getD []

/-- The length is the one of what is sent first, or counts whole chunks of it. -/
def Body.Measured (b : Body) : Prop :=
  ∃ f, b.first = some f ∧
    (b.len = f.length ∨ 0 < b.len ∧ (chunkSize : Int) ∣ b.len ∧ b.len ≤ f.length)

/-- There is no body, or the length is one with which it is sent as it should be. -/
def Body.Fits (b : Body) : Prop := b.len < 0 ∨ b.Measured ∨ b.RepeatsTail

/-! ## After some turns -/

theorem chunkSize_pos : 0 < chunkSize := by decide

/-- What is written in `k` turns. -/
def Source.after : Source → Nat → Str
  | .file left, k => left.take (chunkSize * k)
  | .data d, k =>
    if k ≤ d.length / chunkSize then d.take (chunkSize * k)
    else d ++ (List.replicate (k - d.length / chunkSize - 1) (tail d)).flatten

theorem turn_chunks (s : Sending) : ∃ chunk, chunk.length ≤ chunkSize ∧
    s.turn.chunks = s.chunks ++ [chunk] ∧ s.turn.sent = s.sent + chunk.length := by
  unfold Sending.turn
  split
  · split
    · next hlast =>
      refine ⟨_, ?_, rfl, rfl⟩
      rw [List.length_drop]
      rw [Nat.mul_succ] at hlast
      omega
    · refine ⟨_, ?_, rfl, rfl⟩
      rw [slice, List.length_drop, List.length_take, Nat.mul_succ]
      omega
  · exact ⟨_, List.length_take_le .., rfl, rfl⟩

theorem iterate_sent (src : Source) (k : Nat) :
    (Sending.turn^[k] (.start src)).sent =
      (Sending.turn^[k] (.start src)).chunks.flatten.length := by
  induction k with
  | zero => rfl
  | succ k ih =>
    rw [Function.iterate_succ_apply']
    obtain ⟨chunk, -, hchunks, hsent⟩ := turn_chunks (Sending.turn^[k] (.start src))
    rw [hsent, hchunks, ih, List.flatten_append, List.length_append]
    simp

/-- The chunks of fewer turns are the first ones. -/
theorem iterate_prefix (s : Sending) {j k : Nat} (h : j ≤ k) :
    (Sending.turn^[j] s).chunks <+: (Sending.turn^[k] s).chunks := by
  induction k, h using Nat.le_induction with
  | base => exact List.prefix_rfl
  | succ k _ ih =>
    rw [Function.iterate_succ_apply']
    obtain ⟨chunk, -, hchunks, -⟩ := turn_chunks (Sending.turn^[k] s)
    rw [hchunks]
    exact ih.trans (List.prefix_append ..)

/-- No packet is too large. -/
theorem packet_of_chunk (src : Source) (k : Nat) {chunk : Str}
    (h : chunk ∈ (Sending.turn^[k] (.start src)).chunks) :
    ∃ packet, generateContainerPacket (encodeSendBodyChunk chunk) = some packet := by
  have hlength : chunk.length ≤ chunkSize := by
    induction k with
    | zero => cases h
    | succ k ih =>
      rw [Function.iterate_succ_apply'] at h
      obtain ⟨last, hlast, hchunks, -⟩ := turn_chunks (Sending.turn^[k] (.start src))
      rw [hchunks, List.mem_append, List.mem_singleton] at h
      obtain h | rfl := h
      · exact ih h
      · exact hlast
  refine ⟨_, if_neg ?_⟩
  have hsize : (encodeSendBodyChunk chunk).length = chunk.length + 4 := by
    simp [encodeSendBodyChunk, num16]
  have hchunk : chunkSize + 7 = maxPacketSize := rfl
  omega

theorem iterate_file (left : Str) (k : Nat) :
    (Sending.turn^[k] (.start (.file left))).source = .file (left.drop (chunkSize * k)) ∧
      (Sending.turn^[k] (.start (.file left))).chunks.flatten = left.take (chunkSize * k) := by
  induction k with
  | zero => exact ⟨rfl, rfl⟩
  | succ k ih =>
    obtain ⟨hsource, hchunks⟩ := ih
    rw [Function.iterate_succ_apply', Sending.turn, hsource]
    dsimp only [Sending.write]
    refine ⟨?_, ?_⟩
    · rw [List.drop_drop, Nat.mul_succ]
    · rw [List.flatten_append, hchunks, Nat.mul_succ, List.take_add]
      simp

/-- Of the data, whole chunks come first, and then what is behind them each time. -/
theorem iterate_data (data : Str) (k : Nat) :
    (Sending.turn^[k] (.start (.data data))).source = .data data ∧
      (Sending.turn^[k] (.start (.data data))).pktNo = min k (data.length / chunkSize) ∧
      (Sending.turn^[k] (.start (.data data))).chunks.flatten = (Source.data data).after k := by
  induction k with
  | zero => exact ⟨rfl, (Nat.zero_min _).symm, by simp [Source.after, Sending.start]⟩
  | succ k ih =>
    obtain ⟨hsource, hpkt, hchunks⟩ := ih
    have hwhole : data.length < chunkSize * (data.length / chunkSize + 1) :=
      Nat.lt_mul_div_succ _ chunkSize_pos
    rw [Function.iterate_succ_apply', Sending.turn, hsource]
    dsimp only
    rw [hpkt]
    by_cases hk : k < data.length / chunkSize
    · -- a whole chunk
      have hle : chunkSize * (k + 1) ≤ data.length :=
        (Nat.mul_le_mul_left _ hk).trans (Nat.mul_div_le _ _)
      rw [Nat.min_eq_left (Nat.le_of_lt hk), if_neg (Nat.not_lt.mpr hle)]
      refine ⟨rfl, (Nat.min_eq_left hk).symm, ?_⟩
      dsimp only [Sending.write]
      have hk' : k + 1 ≤ data.length / chunkSize := hk
      rw [List.flatten_append, hchunks, Source.after, if_pos (Nat.le_of_lt hk), Source.after,
        if_pos hk', Nat.mul_succ, List.take_add, slice, List.drop_take]
      simp
    · -- what is behind the whole chunks
      have hmin : min k (data.length / chunkSize) = data.length / chunkSize :=
        Nat.min_eq_right (Nat.le_of_not_lt hk)
      rw [hmin, if_pos hwhole]
      refine ⟨hsource, ?_, ?_⟩
      · show (Sending.turn^[k] (.start (.data data))).pktNo = _
        rw [hpkt, hmin]
        omega
      · dsimp only [Sending.write]
        rw [List.flatten_append, hchunks, Source.after, Source.after,
          if_neg (show ¬k + 1 ≤ data.length / chunkSize by omega)]
        by_cases hfirst : k = data.length / chunkSize
        · rw [if_pos (Nat.le_of_eq hfirst), hfirst]
          simp
        · rw [if_neg (by omega), List.append_assoc,
            show k + 1 - data.length / chunkSize - 1 = k - data.length / chunkSize - 1 + 1 by omega,
            List.replicate_succ', List.flatten_append]
          rfl

theorem iterate_chunks (src : Source) (k : Nat) :
    (Sending.turn^[k] (.start src)).chunks.flatten = src.after k := by
  cases src with
  | data data => exact (iterate_data data k).2.2
  | file left => exact (iterate_file left k).2

/-! ## When the body is delivered -/

variable {b : Body} {src : Source}

theorem sendBody_eq_done_iff (hlen : 0 ≤ b.len) (hsrc : b.source = some src) {n : Nat}
    {chunks : List Str} : sendBody b n = .done chunks ↔
      ∃ s, doWhile (Sending.live b.len) Sending.turn n (.start src) = some s ∧
        s.chunks = chunks := by
  unfold sendBody
  rw [if_neg (by omega), hsrc]
  dsimp only
  cases doWhile (Sending.live b.len) Sending.turn n (.start src) with
  | none => simp
  | some s => simp

theorem live_iterate (len : Int) (src : Source) (k : Nat) :
    Sending.live len (Sending.turn^[k] (.start src)) = decide (((src.after k).length : Int) < len) := by
  rw [Sending.live, iterate_sent, iterate_chunks]

theorem after_prefix (src : Source) {j k : Nat} (h : j ≤ k) : src.after j <+: src.after k := by
  obtain ⟨chunks, hchunks⟩ := iterate_prefix (.start src) h
  rw [← iterate_chunks, ← iterate_chunks, ← hchunks, List.flatten_append]
  exact List.prefix_append ..

/-- The body is delivered when, after some turn, what is written is as long as the answer and
what the file should begin with. -/
theorem delivers_iff_after (hlen : 0 ≤ b.len) (hsrc : b.source = some src) : Delivers b ↔
    ∃ k, src.after (k + 1) <+: b.available ∧ ((src.after (k + 1)).length : Int) = b.len := by
  constructor
  · intro h
    obtain ⟨n, chunks, hdone, hflat⟩ := h
    obtain ⟨s, hs, rfl⟩ := (sendBody_eq_done_iff hlen hsrc).1 hdone
    obtain ⟨k, rfl, hstop, -⟩ := doWhile_iff.mp ⟨n, hs⟩
    rw [live_iterate, decide_eq_false_iff_not] at hstop
    rw [iterate_chunks] at hflat
    have hlength := congrArg List.length hflat
    rw [List.length_take] at hlength
    refine ⟨k, ?_, by omega⟩
    rw [hflat]
    exact List.take_prefix ..
  · intro h
    obtain ⟨k, hpre, hlength⟩ := h
    have hstop : Sending.live b.len (Sending.turn^[k + 1] (.start src)) = false := by
      rw [live_iterate, decide_eq_false_iff_not]
      omega
    -- the loop may end before, but then nothing is written in between
    obtain ⟨j, hj, hended, n, hn⟩ := doWhile_ends hstop
    rw [live_iterate, decide_eq_false_iff_not] at hended
    have hpre' : src.after (j + 1) <+: src.after (k + 1) := after_prefix src (Nat.succ_le_succ hj)
    have hsame : src.after (j + 1) = src.after (k + 1) := hpre'.eq_of_length_le (by omega)
    refine ⟨n, _, (sendBody_eq_done_iff hlen hsrc).2 ⟨_, hn, rfl⟩, ?_⟩
    rw [iterate_chunks, hsame, List.prefix_iff_eq_take.mp hpre,
      show b.len.toNat = (src.after (k + 1)).length by omega]

/-- The lengths that some turns write of a text. -/
theorem exists_take_iff (f : Str) (len : Int) :
    (∃ k, ((f.take (chunkSize * (k + 1))).length : Int) = len) ↔
      len = f.length ∨ 0 < len ∧ (chunkSize : Int) ∣ len ∧ len ≤ f.length := by
  have hpos := chunkSize_pos
  constructor
  · intro h
    obtain ⟨k, hk⟩ := h
    rw [List.length_take] at hk
    obtain hle | hle := Nat.le_total f.length (chunkSize * (k + 1))
    · rw [Nat.min_eq_right hle] at hk
      exact .inl hk.symm
    · rw [Nat.min_eq_left hle] at hk
      have hwhole : 0 < chunkSize * (k + 1) := Nat.mul_pos hpos (Nat.succ_pos k)
      refine .inr ⟨by omega, ⟨(k + 1 : Nat), ?_⟩, by omega⟩
      rw [← hk, Int.natCast_mul]
  · intro h
    obtain rfl | ⟨hlt, ⟨m, hm⟩, hle⟩ := h
    · refine ⟨f.length, ?_⟩
      rw [List.take_of_length_le]
      exact (Nat.le_succ _).trans (Nat.le_mul_of_pos_left _ hpos)
    · have hm0 : 0 < m := by
        rw [hm] at hlt
        exact Int.pos_of_mul_pos_right hlt (by omega)
      refine ⟨m.toNat - 1, ?_⟩
      rw [show m.toNat - 1 + 1 = m.toNat by omega, List.length_take]
      have hmul : ((chunkSize * m.toNat : Nat) : Int) = len := by
        rw [hm, Int.natCast_mul, Int.toNat_of_nonneg (Int.le_of_lt hm0)]
      omega

theorem exists_file_iff (left : Str) (len : Int) :
    (∃ k, (Source.file left).after (k + 1) <+: left ∧
        (((Source.file left).after (k + 1)).length : Int) = len) ↔
      len = left.length ∨ 0 < len ∧ (chunkSize : Int) ∣ len ∧ len ≤ left.length := by
  rw [← exists_take_iff]
  exact exists_congr fun k => and_iff_right (List.take_prefix ..)

theorem length_repeated (n : Nat) (s : Str) :
    (List.replicate n s).flatten.length = n * s.length := by
  simp

/-- Of the data, whole chunks are written, or all and then their tail again and again. -/
theorem exists_data_iff (data rest : Str) (len : Int) :
    (∃ k, (Source.data data).after (k + 1) <+: data ++ rest ∧
        (((Source.data data).after (k + 1)).length : Int) = len) ↔
      (len = data.length ∨ 0 < len ∧ (chunkSize : Int) ∣ len ∧ len ≤ data.length) ∨
        ∃ n : Nat, len = data.length + n * (tail data).length ∧
          (List.replicate n (tail data)).flatten <+: rest := by
  have hwhole : chunkSize * (data.length / chunkSize) ≤ data.length := Nat.mul_div_le _ _
  constructor
  · intro h
    obtain ⟨k, hpre, hlength⟩ := h
    by_cases hk : k + 1 ≤ data.length / chunkSize
    · rw [Source.after, if_pos hk] at hlength
      exact .inl ((exists_take_iff data len).1 ⟨k, hlength⟩)
    · rw [Source.after, if_neg hk] at hpre hlength
      refine .inr ⟨_, ?_, (List.prefix_append_right_inj data).mp hpre⟩
      rw [← hlength, List.length_append, length_repeated]
      push_cast
      rfl
  · intro h
    have hrepeat : ∀ n : Nat, (Source.data data).after (data.length / chunkSize + n + 1) =
        data ++ (List.replicate n (tail data)).flatten := by
      intro n
      rw [Source.after, if_neg (by omega),
        show data.length / chunkSize + n + 1 - data.length / chunkSize - 1 = n by omega]
    obtain (rfl | ⟨hlt, ⟨m, hm⟩, hle⟩) | ⟨n, hn, hpre⟩ := h
    · refine ⟨data.length / chunkSize, ?_, ?_⟩
      · rw [hrepeat 0]
        simp
      · rw [hrepeat 0]
        simp
    · obtain ⟨k, hk⟩ := (exists_take_iff data len).2 (.inr ⟨hlt, ⟨m, hm⟩, hle⟩)
      by_cases hq : k + 1 ≤ data.length / chunkSize
      · refine ⟨k, ?_, ?_⟩
        · rw [Source.after, if_pos hq]
          exact (List.take_prefix ..).trans (List.prefix_append ..)
        · rw [Source.after, if_pos hq]
          exact hk
      · -- the last whole chunk is the end of the data
        have hall : data.length ≤ chunkSize * (k + 1) :=
          Nat.le_of_lt ((Nat.lt_mul_div_succ _ chunkSize_pos).trans_le
            (Nat.mul_le_mul_left _ (by omega)))
        rw [List.take_of_length_le hall] at hk
        refine ⟨data.length / chunkSize, ?_, ?_⟩
        · rw [hrepeat 0]
          simp
        · rw [hrepeat 0, ← hk]
          simp
    · refine ⟨data.length / chunkSize + n, ?_, ?_⟩
      · rw [hrepeat n]
        exact (List.prefix_append_right_inj data).mpr hpre
      · rw [hrepeat n, hn, List.length_append, length_repeated]
        push_cast
        rfl

theorem delivers_file {left : Str} (hlen : 0 ≤ b.len) (hdata : b.data = none)
    (hfile : b.file = some left) : Delivers b ↔
      b.len = left.length ∨ 0 < b.len ∧ (chunkSize : Int) ∣ b.len ∧ b.len ≤ left.length := by
  have hsrc : b.source = some (.file left) := by
    rw [Body.source, hdata, hfile]
  rw [delivers_iff_after hlen hsrc, Body.available, hdata, hfile]
  exact exists_file_iff left b.len

theorem delivers_data {data : Str} (hlen : 0 ≤ b.len) (hdata : b.data = some data) :
    Delivers b ↔
      (b.len = data.length ∨ 0 < b.len ∧ (chunkSize : Int) ∣ b.len ∧ b.len ≤ data.length) ∨
        ∃ n : Nat, b.len = data.length + n * (tail data).length ∧
          (List.replicate n (tail data)).flatten <+: b.file.getD [] := by
  have hsrc : b.source = some (.data data) := by
    rw [Body.source, hdata]
  rw [delivers_iff_after hlen hsrc, Body.available, hdata]
  exact exists_data_iff data (b.file.getD []) b.len

/-- **When the body is sent.** The loop ends and its chunks are the first `len` characters of the
data and the file behind them, if and only if the length is negative, or the one of what is sent
first, or counts whole chunks of it; or if the file happens to repeat the end of the data. -/
theorem delivers_iff_fits (b : Body) : Delivers b ↔ b.Fits := by
  unfold Body.Fits
  by_cases hneg : b.len < 0
  · have hsent : sendBody b 0 = .done [] := if_pos hneg
    refine iff_of_true ⟨0, [], hsent, ?_⟩ (.inl hneg)
    rw [Int.toNat_of_nonpos (Int.le_of_lt hneg)]
    rfl
  · have hlen : 0 ≤ b.len := by omega
    rw [or_iff_right hneg]
    cases hdata : b.data with
    | some data =>
      have hfirst : b.first = some data := by
        rw [Body.first, hdata]
        rfl
      rw [delivers_data hlen hdata, Body.Measured, Body.RepeatsTail, hfirst, hdata]
      simp
    | none =>
      have hrepeats : ¬b.RepeatsTail := by
        intro h
        obtain ⟨data, n, hsome, -⟩ := h
        rw [hdata] at hsome
        cases hsome
      rw [or_iff_left hrepeats]
      have hfirst : b.first = b.file := by
        rw [Body.first, hdata]
        rfl
      rw [Body.Measured, hfirst]
      cases hfile : b.file with
      | some left =>
        rw [delivers_file hlen hdata hfile]
        simp
      | none =>
        have herror : ∀ n, sendBody b n = .error := by
          intro n
          rw [sendBody, if_neg hneg, Body.source, hdata, hfile]
        refine iff_of_false ?_ ?_
        · intro h
          obtain ⟨n, chunks, hdone, -⟩ := h
          rw [herror] at hdone
          cases hdone
        · simp

/-! ## Empty data -/

/-- With empty data the loop goes on forever, if the answer has a length. -/
theorem running_of_empty (hlen : 0 < b.len) (hdata : b.data = some []) (n : Nat) :
    sendBody b n = .running := by
  have hsrc : b.source = some (.data []) := by
    rw [Body.source, hdata]
  have hnever : doWhile (Sending.live b.len) Sending.turn n (.start (.data [])) = none := by
    refine Option.eq_none_iff_forall_ne_some.mpr fun s hs => ?_
    obtain ⟨k, rfl, hstop, -⟩ := doWhile_iff.mp ⟨n, hs⟩
    have hempty : (Source.data []).after (k + 1) = [] := by
      simp [Source.after, tail]
    rw [live_iterate, hempty, decide_eq_false_iff_not] at hstop
    exact hstop hlen
  rw [sendBody, if_neg (by omega), hsrc]
  dsimp only
  rw [hnever]

/-- The answer as the loop has it, with what is to be read in its file. -/
def bodyOf (file : Answer) (contents : Str) : Body where
  len := file.len
  data := file.data
  file := if file.file.isObject then some contents else none

/-- The answer to HEAD is never sent if it has a length. -/
theorem head_never_sent {env : SendEnv} {id : Asked} {result : Option Answer} {file : Answer}
    (hsent : sendResult env id result = some file) (hhead : id.method = "HEAD".toList)
    (hlen : 0 < file.len) (contents : Str) (n : Nat) :
    sendBody (bodyOf file contents) n = .running := by
  have hdata : file.data = some [] := by
    unfold sendResult at hsent
    split at hsent
    · cases hsent
    · obtain ⟨file', -, rfl⟩ := Option.map_eq_some_iff.mp hsent
      rw [if_pos hhead]
  exact running_of_empty (b := bodyOf file contents) hlen hdata n

/-- A request for the headers of a page of one character. -/
def headRequest : Asked where
  method := "HEAD".toList
  since := none
  miscStat := .unset
  miscDynamic := false
  miscRange := false
  miscErrorCode := 0
  miscError := 0

def onePage : Answer := Http.lowAnswer 200 (some ['x'])

theorem head_not_delivered :
    sendResult Http.sampleSendEnv headRequest (some onePage) = some { onePage with data := some [] } ∧
      ¬Delivers (bodyOf { onePage with data := some [] } []) := by
  refine ⟨rfl, ?_⟩
  intro h
  obtain ⟨n, chunks, hdone, -⟩ := h
  rw [running_of_empty (by decide) rfl] at hdone
  cases hdone

end Caudium.Ajp
