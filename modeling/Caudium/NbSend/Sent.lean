import Caudium.NbSend.Nbio

/-!
# What is sent (nb_send.c)

Whatever the order of the callbacks and however much each write takes, what has been sent, what is
buffered and what is left of the inputs is what has been given to the object, in this order
(`Inv`).
-/

namespace Caudium.NbSend

open Lib (Str Memory runFrom EachStep)

/-! ## What is left -/

/-- What will be read of a blocking object: reading stops when it has given as much as is wanted,
but what it gives at one time is taken as it is. -/
def blockingLeft (len : Option Nat) : Nat → List Str → Str
  | _, [] => []
  | pos, piece :: pieces =>
    if len.any fun len => decide (len ≤ pos) then []
    else if piece = [] then []
    else piece ++ blockingLeft len (pos + piece.length) pieces

/-- What is still to be sent of an input. -/
def Input.left (inp : Input) : Str :=
  match inp.type with
  | .str data => data.drop inp.pos
  | .obj pieces =>
    match inp.len with
    | none => pieces.flatten
    | some len => pieces.flatten.take (len - inp.pos)
  | .blockObj pieces => blockingLeft inp.len inp.pos pieces
  | .mmap file _ _ => file.drop inp.pos

def Nbio.left (s : Nbio) : Str := s.inputs.flatMap Input.left

/-- What an event gives to the object. -/
def Event.given : Event → Str
  | .input o len => (o.input len).left
  | .write data => data
  | _ => []

def given (es : List Event) : Str := es.flatMap Event.given

/-! ## The invariant -/

/-- The position is within what there is, and within what is mapped. -/
def Input.Sound (inp : Input) : Prop :=
  match inp.type with
  | .str data => inp.len = some data.length ∧ inp.pos ≤ data.length
  | .obj _ => ∀ len ∈ inp.len, inp.pos ≤ len
  | .blockObj _ => True
  | .mmap file mStart mEnd =>
    inp.len = some file.length ∧ mStart ≤ inp.pos ∧ inp.pos ≤ mEnd ∧ mEnd ≤ file.length

variable {s s' : Nbio} {off data : Str} {inp inp' : Input} {rest : List Input}

/-- The inputs and the buffer are as they should be; only the first input is read, only if it is a
non-blocking object, and only while there is an output. -/
structure Shape (s : Nbio) : Prop where
  last : s.lastInput = !s.inputs.isEmpty
  bounds : s.bufPos + s.bufLen ≤ s.bufSize
  sound : ∀ inp ∈ s.inputs, inp.Sound
  asleep : ∀ inp ∈ s.inputs.tail, inp.mode = .sleeping
  awake : ∀ inp ∈ s.inputs.head?, inp.mode = .reading →
    (∃ pieces, inp.type = .obj pieces) ∧ s.outp.isSome = true

/-- What has been sent and what is still to be sent are together what has been given to the object,
as long as no write has failed. -/
structure Inv (off : Str) (s : Nbio) : Prop extends Shape s where
  total : s.failed = false → s.sent ++ s.content ++ s.left = off
  kept : s.failed = true → s.finished = true ∧ s.sent <+: off
  closed : s.finished = true → s.outp = none
  empty : s.finished = true → s.failed = false → s.bufLen = 0
  written : s.written = s.sent.length
  once : s.done ≤ if s.finished then 1 else 0

/-- The same within a callback, while there is an output. -/
structure Busy (off : Str) (s : Nbio) : Prop extends Shape s where
  total : s.sent ++ s.content ++ s.left = off
  outp : s.outp.isSome = true
  finished : s.finished = false
  failed : s.failed = false
  written : s.written = s.sent.length
  done : s.done = 0

/-- What a callback leaves. -/
structure After (off : Str) (s : Nbio) : Prop extends Inv off s where
  inputs : s.finished = true → s.inputs = []
  called : s.finished = true → s.done = if s.cb then 1 else 0

theorem Inv.busy (h : Inv off s) (houtp : s.outp.isSome = true) : Busy off s := by
  have hfinished : s.finished = false := by
    cases hfinished : s.finished with
    | false => rfl
    | true =>
      rw [h.closed hfinished] at houtp
      cases houtp
  have hfailed : s.failed = false := by
    cases hfailed : s.failed with
    | false => rfl
    | true => rw [← (h.kept hfailed).1, hfinished]
  have honce := h.once
  rw [hfinished] at honce
  exact ⟨h.toShape, h.total hfailed, houtp, hfinished, hfailed, h.written, Nat.le_zero.mp honce⟩

theorem Busy.inv (h : Busy off s) : Inv off s where
  toShape := h.toShape
  total := fun _ => h.total
  kept := fun hfailed => by
    rw [h.failed] at hfailed
    cases hfailed
  closed := fun hfinished => by
    rw [h.finished] at hfinished
    cases hfinished
  empty := fun hfinished => by
    rw [h.finished] at hfinished
    cases hfinished
  written := h.written
  once := by
    rw [h.done]
    exact Nat.zero_le _

theorem Busy.after (h : Busy off s) : After off s where
  toInv := h.inv
  inputs := fun hfinished => by
    rw [h.finished] at hfinished
    cases hfinished
  called := fun hfinished => by
    rw [h.finished] at hfinished
    cases hfinished

/-! ## The end -/

theorem Shape.finish (h : Shape s) : Shape s.finish where
  last := by
    show (s.lastInput && s.inputs.isEmpty) = false
    rw [h.last]
    cases s.inputs <;> rfl
  bounds := h.bounds
  sound := fun _ hinp => absurd hinp List.not_mem_nil
  asleep := fun _ hinp => absurd hinp List.not_mem_nil
  awake := fun _ hinp => absurd hinp (Option.not_mem_none _)

theorem Busy.done_finish (h : Busy off s) : s.finish.done = if s.cb then 1 else 0 := by
  show (if s.cb then s.done + 1 else s.done) = _
  rw [h.done]

theorem Busy.once_finish (h : Busy off s) : s.finish.done ≤ 1 := by
  rw [h.done_finish]
  split <;> omega

/-- When a write fails what has been sent stays as it is. -/
theorem Busy.fail (h : Busy off s) : After off { s with failed := true }.finish where
  toShape :=
    Shape.finish ⟨h.last, h.bounds, h.sound, h.asleep, h.awake⟩
  total := fun hfailed => Bool.noConfusion hfailed
  kept := fun _ => by
    refine ⟨rfl, ?_⟩
    rw [← h.total, List.append_assoc]
    exact List.prefix_append _ _
  closed := fun _ => rfl
  empty := fun _ hfailed => Bool.noConfusion hfailed
  written := h.written
  once := h.once_finish
  inputs := fun _ => rfl
  called := fun _ => h.done_finish

/-- The object is finished when there is nothing left. -/
theorem Busy.finish (h : Busy off s) (hbuf : s.bufLen = 0) (hinputs : s.inputs = []) :
    After off s.finish where
  toShape := h.toShape.finish
  total := fun _ => by
    rw [← h.total]
    show s.sent ++ s.content ++ [] = s.sent ++ s.content ++ s.left
    rw [Nbio.left, hinputs, List.flatMap_nil]
  kept := fun hfailed => by
    rw [show s.finish.failed = false from h.failed] at hfailed
    cases hfailed
  closed := fun _ => rfl
  empty := fun _ _ => hbuf
  written := h.written
  once := h.once_finish
  inputs := fun _ => rfl
  called := fun _ => h.done_finish

theorem Busy.finishIfEmpty (h : Busy off s) : After off s.finishIfEmpty := by
  unfold Nbio.finishIfEmpty
  split
  · next hempty => exact h.finish hempty.1 (List.isEmpty_iff.mp hempty.2)
  · exact h.after

theorem Busy.setWriteCb (h : Busy off s) : Busy off s.setWriteCb := by
  have houtp : s.setWriteCb.outp.isSome = true := by
    rw [show s.setWriteCb.outp.isSome = s.outp.isSome from Option.isSome_map]
    exact h.outp
  exact ⟨⟨h.last, h.bounds, h.sound, h.asleep, fun inp hinp hmode =>
    ⟨(h.awake inp hinp hmode).1, houtp⟩⟩, h.total, houtp, h.finished, h.failed, h.written, h.done⟩

/-! ## The first input -/

theorem left_wake (inp : Input) : inp.wake.left = inp.left := by
  unfold Input.wake
  split
  · unfold Input.left
    rfl
  · rfl

theorem sound_wake (h : inp.Sound) : inp.wake.Sound := by
  unfold Input.wake
  split
  · unfold Input.Sound at h ⊢
    exact h
  · exact h

/-- Another first input in the place of the first one, of which as much is left. -/
theorem Busy.replace (h : Busy off s) (hinputs : s.inputs = inp :: rest) (hsound : inp'.Sound)
    (hleft : inp'.left = inp.left)
    (hmode : inp'.mode = .reading → ∃ pieces, inp'.type = .obj pieces) :
    Busy off { s with inputs := inp' :: s.inputs.tail } where
  last := by
    show s.lastInput = true
    rw [h.last, hinputs]
    rfl
  bounds := h.bounds
  sound := fun i hi => by
    obtain rfl | hi := List.mem_cons.mp hi
    · exact hsound
    · exact h.sound i (List.mem_of_mem_tail hi)
  asleep := h.asleep
  awake := fun i hi hreading => by
    obtain rfl := Option.some.inj hi
    exact ⟨hmode hreading, h.outp⟩
  total := by
    rw [← h.total]
    show s.sent ++ s.content ++ (inp' :: s.inputs.tail).flatMap Input.left = _
    rw [Nbio.left, hinputs, List.tail_cons, List.flatMap_cons, List.flatMap_cons, hleft]
  outp := h.outp
  finished := h.finished
  failed := h.failed
  written := h.written
  done := h.done

/-- The first input is freed when nothing is left of it. -/
theorem Busy.freeInput (h : Busy off s) (hinputs : s.inputs = inp :: rest) (hleft : inp.left = []) :
    Busy off s.freeInput := by
  have hrest : ∀ i ∈ rest, i.Sound ∧ i.mode = .sleeping := fun i hi =>
    ⟨h.sound i (by rw [hinputs]; exact List.mem_cons_of_mem _ hi),
      h.asleep i (by rw [hinputs]; exact hi)⟩
  have htotal : s.sent ++ s.content ++ rest.flatMap Input.left = off := by
    have htotal := h.total
    rw [Nbio.left, hinputs, List.flatMap_cons, hleft, List.nil_append] at htotal
    exact htotal
  have hfree : s.freeInput =
      { s with inputs := wakeFirst rest, lastInput := s.lastInput && !rest.isEmpty } := by
    unfold Nbio.freeInput
    rw [hinputs, h.finished]
    rfl
  rw [hfree]
  have hlast : s.lastInput = true := by
    rw [h.last, hinputs]
    rfl
  cases rest with
  | nil =>
    exact ⟨⟨by rw [hlast]; rfl, h.bounds, fun _ hi => absurd hi List.not_mem_nil,
      fun _ hi => absurd hi List.not_mem_nil, fun _ hi => absurd hi (Option.not_mem_none _)⟩,
      htotal, h.outp, h.finished, h.failed, h.written, h.done⟩
  | cons i rest =>
    refine ⟨⟨by rw [hlast]; rfl, h.bounds, fun j hj => ?_, fun j hj => ?_, fun j hj hmode => ?_⟩,
      ?_, h.outp, h.finished, h.failed, h.written, h.done⟩
    · obtain rfl | hj := List.mem_cons.mp hj
      · exact sound_wake (hrest i (List.mem_cons_self ..)).1
      · exact (hrest j (List.mem_cons_of_mem _ hj)).1
    · exact (hrest j (List.mem_cons_of_mem _ hj)).2
    · obtain rfl := Option.some.inj hj
      refine ⟨?_, h.outp⟩
      have hasleep := (hrest i (List.mem_cons_self ..)).2
      unfold Input.wake at hmode ⊢
      split
      · next pieces htype => exact ⟨pieces, htype⟩
      · next hother =>
        split at hmode
        · next pieces htype => exact absurd htype (hother pieces)
        · rw [hasleep] at hmode
          cases hmode
    · rw [← htotal]
      show s.sent ++ s.content ++ (i.wake :: rest).flatMap Input.left = _
      rw [List.flatMap_cons, List.flatMap_cons, left_wake]

/-! ## Writing -/

/-- What `do_write` can do. -/
theorem doWrite_cases (s : Nbio) (data : Str) (w : Write) :
    s.doWrite data w = (none, { s with failed := true }.finish) ∨
      ∃ n ≤ data.length, s.doWrite data w =
        (some n, { s with sent := s.sent ++ data.take n, written := s.written + n }) := by
  cases w with
  | failed => exact .inl rfl
  | wrote n =>
    refine .inr ⟨(data.take n).length, List.length_take_le' _ _, ?_⟩
    have htake : data.take (data.take n).length = data.take n := by
      rw [List.length_take, ← List.take_take, List.take_length]
    rw [htake]
    rfl

/-- What is buffered is written first. Only when there is nothing more of it does the callback go
on. -/
theorem Busy.writeBuffer (h : Busy off s) (w : Write) :
    ((s.writeBuffer w).2 = false → After off (s.writeBuffer w).1) ∧
      ((s.writeBuffer w).2 = true → Busy off (s.writeBuffer w).1 ∧
        (s.writeBuffer w).1.bufLen = 0 ∧ (s.writeBuffer w).1.inputs = s.inputs) := by
  unfold Nbio.writeBuffer
  split
  · next hempty => exact ⟨fun hfalse => Bool.noConfusion hfalse, fun _ => ⟨h, hempty, rfl⟩⟩
  · obtain hfail | ⟨n, hn, hwrote⟩ := doWrite_cases s s.content w
    · rw [hfail]
      exact ⟨fun _ => h.fail, fun htrue => Bool.noConfusion htrue⟩
    · rw [hwrote]
      dsimp only
      have hlen : s.content.length = s.bufLen := s.buf.length_read _ _
      have hbusy : Busy off { s with
          sent := s.sent ++ s.content.take n
          written := s.written + n
          bufLen := s.bufLen - n
          bufPos := s.bufPos + n } := by
        refine ⟨⟨h.last, ?_, h.sound, h.asleep, h.awake⟩, ?_, h.outp, h.finished, h.failed, ?_,
          h.done⟩
        · have hbounds := h.bounds
          show s.bufPos + n + (s.bufLen - n) ≤ s.bufSize
          omega
        · rw [← h.total]
          show s.sent ++ s.content.take n ++ s.buf.read (s.bufPos + n) (s.bufLen - n) ++ s.left = _
          rw [← Memory.drop_read, List.append_assoc s.sent]
          exact congrArg (fun t => s.sent ++ t ++ s.left) (List.take_append_drop n s.content)
        · show s.written + n = (s.sent ++ s.content.take n).length
          rw [List.length_append, List.length_take_of_le hn, h.written]
      split
      · next hzero =>
        subst hzero
        exact ⟨fun _ => hbusy.setWriteCb.after, fun htrue => Bool.noConfusion htrue⟩
      · split
        · exact ⟨fun _ => hbusy.setWriteCb.after, fun htrue => Bool.noConfusion htrue⟩
        · next hnone =>
          refine ⟨fun hfalse => Bool.noConfusion hfalse, fun _ => ⟨?_, rfl, rfl⟩⟩
          have hzero : s.bufLen - n = 0 := Decidable.not_not.mp hnone
          have htotal : s.sent ++ s.content.take n ++ s.buf.read (s.bufPos + n) (s.bufLen - n) ++
            s.left = off := hbusy.total
          rw [hzero] at htotal
          exact ⟨⟨h.last, Nat.zero_le _, h.sound, h.asleep, h.awake⟩, htotal, h.outp, h.finished,
            h.failed, hbusy.written, h.done⟩

/-- The data is what is left first of an input that is asleep. The input stays as it should be when
its position is moved over some of the data, and when it gets to its end nothing is left. -/
structure Input.Offers (inp : Input) (data : Str) : Prop where
  asleep : inp.mode = .sleeping
  start : data <+: inp.left
  left : ∀ n ≤ data.length, { inp with pos := inp.pos + n }.left = inp.left.drop n
  sound : ∀ n ≤ data.length, { inp with pos := inp.pos + n }.Sound
  ended : ∀ n ≤ data.length, inp.len = some (inp.pos + n) → inp.left.drop n = []

theorem Busy.sendData (h : Busy off s) (hinputs : s.inputs = inp :: rest)
    (hleft : inp'.left = inp.left) (hoffers : inp'.Offers data) (hbuf : s.bufLen = 0) (w : Write) :
    After off (s.sendData inp' data w) := by
  unfold Nbio.sendData
  obtain hfail | ⟨n, hn, hwrote⟩ := doWrite_cases s data w
  · rw [hfail]
    exact h.fail
  · rw [hwrote]
    dsimp only
    have hcontent : s.content = [] := by
      unfold Nbio.content
      rw [hbuf]
      rfl
    have hdata : data.take n = inp'.left.take n := by
      obtain ⟨t, ht⟩ := hoffers.start
      rw [← ht, List.take_append_of_le_length hn]
    have hbusy : Busy off { s with
        sent := s.sent ++ data.take n
        written := s.written + n
        inputs := { inp' with pos := inp'.pos + n } :: s.inputs.tail } := by
      refine ⟨⟨?_, h.bounds, fun i hi => ?_, h.asleep, fun i hi hmode => ?_⟩, ?_, h.outp,
        h.finished, h.failed, ?_, h.done⟩
      · show s.lastInput = true
        rw [h.last, hinputs]
        rfl
      · obtain rfl | hi := List.mem_cons.mp hi
        · exact hoffers.sound n hn
        · exact h.sound i (List.mem_of_mem_tail hi)
      · obtain rfl := Option.some.inj hi
        cases hoffers.asleep.symm.trans hmode
      · show s.sent ++ data.take n ++ s.content ++
          ({ inp' with pos := inp'.pos + n } :: s.inputs.tail).flatMap Input.left = off
        rw [← h.total, Nbio.left, hinputs, hcontent, List.tail_cons, List.flatMap_cons,
          List.flatMap_cons, hoffers.left n hn, hdata, ← hleft, List.append_nil, List.append_nil,
          List.append_assoc, ← List.append_assoc (List.take n _), List.take_append_drop]
      · show s.written + n = (s.sent ++ data.take n).length
        rw [List.length_append, List.length_take_of_le hn, h.written]
    split
    · next hend =>
      have hfree := hbusy.freeInput rfl ((hoffers.left n hn).trans (hoffers.ended n hn hend))
      exact hfree.setWriteCb.finishIfEmpty
    · exact hbusy.setWriteCb.finishIfEmpty

theorem offers_str (hsleep : inp.mode = .sleeping) (htype : inp.type = .str data)
    (hsound : inp.Sound) : inp.Offers (data.drop inp.pos) := by
  obtain ⟨type, len, pos, mode⟩ := inp
  obtain rfl : type = .str data := htype
  obtain ⟨hlen, hpos⟩ : len = some data.length ∧ pos ≤ data.length := hsound
  refine ⟨hsleep, List.prefix_rfl, fun n hn => ?_, fun n hn => ?_, fun n hn hend => ?_⟩
  · exact List.drop_drop.symm
  · have hn : n ≤ data.length - pos := by
      rw [List.length_drop] at hn
      exact hn
    exact ⟨hlen, by show pos + n ≤ data.length; omega⟩
  · have hend : data.length = pos + n := Option.some.inj (hlen.symm.trans hend)
    show (data.drop pos).drop n = []
    rw [List.drop_drop, ← hend, List.drop_length]

theorem offers_mmap {file : Str} {mStart mEnd : Nat} (hsleep : inp.mode = .sleeping)
    (htype : inp.type = .mmap file mStart mEnd) (hsound : inp.Sound) :
    inp.Offers ((file.drop inp.pos).take (mEnd - inp.pos)) := by
  obtain ⟨type, len, pos, mode⟩ := inp
  obtain rfl : type = .mmap file mStart mEnd := htype
  obtain ⟨hlen, hstart, hpos, hend⟩ :
    len = some file.length ∧ mStart ≤ pos ∧ pos ≤ mEnd ∧ mEnd ≤ file.length := hsound
  refine ⟨hsleep, List.take_prefix _ _, fun n hn => ?_, fun n hn => ?_, fun n hn hlast => ?_⟩
  · exact List.drop_drop.symm
  · have hn : n ≤ mEnd - pos := Nat.le_trans hn (List.length_take_le _ _)
    exact ⟨hlen, by show mStart ≤ pos + n; omega, by show pos + n ≤ mEnd; omega, hend⟩
  · have hlast : file.length = pos + n := Option.some.inj (hlen.symm.trans hlast)
    show (file.drop pos).drop n = []
    rw [List.drop_drop, ← hlast, List.drop_length]

/-- The output waits for the first input. -/
theorem Busy.waitFor (h : Busy off s) (hinputs : s.inputs = inp :: rest) (hsound : inp'.Sound)
    (hleft : inp'.left = inp.left) (htype : ∃ pieces, inp'.type = .obj pieces) :
    After off (s.waitFor inp') := by
  have hreading : Input.Sound { inp' with mode := .reading } := hsound
  have hbusy := h.replace hinputs hreading hleft fun _ => htype
  have houtp : (s.waitFor inp').outp.isSome = true := by
    rw [show (s.waitFor inp').outp.isSome = s.outp.isSome from Option.isSome_map]
    exact h.outp
  exact Busy.after ⟨⟨hbusy.last, hbusy.bounds, hbusy.sound, hbusy.asleep, fun i hi hmode =>
    ⟨(hbusy.awake i hi hmode).1, houtp⟩⟩, hbusy.total, houtp, h.finished, h.failed, h.written,
    h.done⟩

/-- When something is mapped, as far as there is. -/
theorem sound_remap {file : Str} {mStart mEnd : Nat} (htype : inp.type = .mmap file mStart mEnd)
    (hsound : inp.Sound) : { inp with
      type := .mmap file inp.pos (inp.pos + min (file.length - inp.pos) maxMmapSize) }.Sound := by
  obtain ⟨type, len, pos, mode⟩ := inp
  obtain rfl : type = .mmap file mStart mEnd := htype
  obtain ⟨hlen, -, hpos, hend⟩ :
    len = some file.length ∧ mStart ≤ pos ∧ pos ≤ mEnd ∧ mEnd ≤ file.length := hsound
  refine ⟨hlen, Nat.le_refl _, Nat.le_add_right _ _, ?_⟩
  show pos + min (file.length - pos) maxMmapSize ≤ file.length
  omega

/-- An input that is no non-blocking object is asleep. -/
theorem Shape.mode_first (h : Shape s) (hinputs : s.inputs = inp :: rest)
    (htype : ∀ pieces, inp.type ≠ .obj pieces) : inp.mode = .sleeping := by
  cases hmode : inp.mode with
  | sleeping => rfl
  | reading =>
    obtain ⟨⟨pieces, hobj⟩, -⟩ := h.awake inp (by rw [hinputs]; rfl) hmode
    exact absurd hobj (htype pieces)

theorem Busy.sendInput (h : Busy off s) (hbuf : s.bufLen = 0) (w : Write) :
    After off (s.sendInput w none) := by
  unfold Nbio.sendInput
  split
  · next hinputs => exact h.finish hbuf hinputs
  · next inp rest hinputs =>
    have hsound := h.sound inp (by rw [hinputs]; exact List.mem_cons_self ..)
    split
    · next pieces htype => exact h.waitFor hinputs hsound rfl ⟨pieces, htype⟩
    · next data htype =>
      have hsleep := h.mode_first hinputs fun _ hobj => InputType.noConfusion (htype.symm.trans hobj)
      exact h.sendData hinputs rfl (offers_str hsleep htype hsound) hbuf w
    · next file mStart mEnd htype =>
      have hsleep := h.mode_first hinputs fun _ hobj => InputType.noConfusion (htype.symm.trans hobj)
      split
      · exact h.sendData hinputs rfl (offers_mmap hsleep htype hsound) hbuf w
      · have hoffers : Input.Offers { inp with
            type := .mmap file inp.pos (inp.pos + min (file.length - inp.pos) maxMmapSize) } _ :=
          offers_mmap hsleep rfl (sound_remap htype hsound)
        dsimp only at hoffers
        rw [show inp.pos + min (file.length - inp.pos) maxMmapSize - inp.pos =
          min (file.length - inp.pos) maxMmapSize from Nat.add_sub_cancel_left ..] at hoffers
        refine h.sendData hinputs ?_ hoffers hbuf w
        unfold Input.left
        rw [htype]
    · exact h.after

/-! ## Blocking objects -/

theorem left_ended {pieces : List Str} (htype : inp.type = .blockObj pieces)
    (hended : inp.ended = true) : inp.left = [] := by
  unfold Input.left
  rw [htype]
  cases pieces with
  | nil => rfl
  | cons piece pieces => exact if_pos hended

theorem length_freeInput (s : Nbio) : s.freeInput.inputs.length = s.inputs.tail.length := by
  unfold Nbio.freeInput
  dsimp only
  split
  · rfl
  · cases s.inputs.tail <;> rfl

/-- A string that has been read is put in front of the inputs. -/
theorem Busy.readString (h : Busy off s) {piece : Str} {pieces : List Str}
    (hinputs : s.inputs = inp :: rest) (htype : inp.type = .blockObj (piece :: pieces))
    (hended : inp.ended = false) (hpiece : piece ≠ []) :
    Busy off { s with inputs := ⟨.str piece, some piece.length, 0, .sleeping⟩ ::
      { inp with type := .blockObj pieces, pos := inp.pos + piece.length } :: rest } := by
  have hsleep := h.mode_first hinputs fun _ hobj => InputType.noConfusion (htype.symm.trans hobj)
  have hleft : inp.left = piece ++ blockingLeft inp.len (inp.pos + piece.length) pieces := by
    unfold Input.left
    rw [htype]
    show blockingLeft inp.len inp.pos (piece :: pieces) = _
    have hmore : ¬ (inp.len.any fun len => decide (len ≤ inp.pos)) = true :=
      Bool.eq_false_iff.mp hended
    rw [blockingLeft, if_neg hmore, if_neg hpiece]
  have hrest : ∀ i ∈ rest, i.Sound ∧ i.mode = .sleeping := fun i hi =>
    ⟨h.sound i (by rw [hinputs]; exact List.mem_cons_of_mem _ hi),
      h.asleep i (by rw [hinputs]; exact hi)⟩
  refine ⟨⟨?_, h.bounds, fun i hi => ?_, fun i hi => ?_, fun i hi hmode => ?_⟩, ?_, h.outp,
    h.finished, h.failed, h.written, h.done⟩
  · show s.lastInput = true
    rw [h.last, hinputs]
    rfl
  · obtain rfl | hi := List.mem_cons.mp hi
    · exact ⟨rfl, Nat.zero_le _⟩
    · obtain rfl | hi := List.mem_cons.mp hi
      · exact trivial
      · exact (hrest i hi).1
  · obtain rfl | hi := List.mem_cons.mp hi
    · exact hsleep
    · exact (hrest i hi).2
  · obtain rfl := Option.some.inj hi
    cases hmode
  · have htotal := h.total
    rw [Nbio.left, hinputs, List.flatMap_cons, hleft, List.append_assoc piece] at htotal
    exact htotal

/-- Inputs of which all has been read are freed; if then there is a string in front of the inputs,
it is what has been read of the next one. -/
theorem Busy.redo (h : Busy off s) {n : Nat} (hn : s.inputs.length < n) :
    Busy off (s.redo n).2 ∧ (s.redo n).2.bufLen = s.bufLen ∧
      ((s.redo n).1 = .noInputs → (s.redo n).2.inputs = []) := by
  induction n generalizing s with
  | zero => exact absurd hn (Nat.not_lt_zero _)
  | succ n ih =>
    unfold Nbio.redo
    split
    · next hinputs => exact ⟨h, rfl, fun _ => hinputs⟩
    · next inp rest hinputs =>
      split
      · next pieces htype =>
        split
        · next hended =>
          have hfree := h.freeInput hinputs (left_ended htype hended)
          refine ih hfree ?_
          rw [length_freeInput, hinputs]
          rw [hinputs] at hn
          exact Nat.lt_of_succ_lt_succ hn
        · next hmore =>
          split
          · have hleft : inp.left = [] := by
              unfold Input.left
              rw [htype]
              rfl
            exact ⟨h.freeInput hinputs hleft, rfl, fun hno => DataRead.noConfusion hno⟩
          · next piece pieces =>
            split
            · next hempty =>
              have hleft : inp.left = [] := by
                unfold Input.left
                rw [htype]
                show blockingLeft inp.len inp.pos (piece :: pieces) = []
                rw [blockingLeft, if_pos hempty, ite_self]
              exact ⟨h.freeInput hinputs hleft, rfl, fun hno => DataRead.noConfusion hno⟩
            · next hpiece =>
              exact ⟨h.readString hinputs htype (Bool.eq_false_iff.mpr hmore) hpiece, rfl,
                fun hno => DataRead.noConfusion hno⟩
      · exact ⟨h, rfl, fun hno => DataRead.noConfusion hno⟩

theorem Busy.readData (h : Busy off s) (hbuf : s.bufLen = 0) :
    Busy off s.readData.2 ∧ s.readData.2.bufLen = 0 ∧
      (s.readData.1 = .noInputs → s.readData.2.inputs = []) := by
  have hbusy : Busy off { s with bufPos := 0 } := by
    refine ⟨⟨h.last, ?_, h.sound, h.asleep, h.awake⟩, ?_, h.outp, h.finished, h.failed, h.written,
      h.done⟩
    · show 0 + s.bufLen ≤ s.bufSize
      rw [hbuf]
      exact Nat.zero_le _
    · rw [← h.total]
      show s.sent ++ s.buf.read 0 s.bufLen ++ s.left = s.sent ++ s.buf.read s.bufPos s.bufLen ++ s.left
      rw [hbuf]
      rfl
  obtain ⟨hredo, hlen, hno⟩ := hbusy.redo (Nat.lt_succ_self _)
  exact ⟨hredo, hlen.trans hbuf, hno⟩

theorem Busy.sendBlocking (h : Busy off s) (hbuf : s.bufLen = 0) (w : Write) :
    After off (s.sendBlocking w none) := by
  obtain ⟨hbusy, hlen, hno⟩ := h.readData hbuf
  unfold Nbio.sendBlocking
  cases hread : s.readData with
  | mk read t =>
    rw [hread] at hbusy hlen hno
    cases read with
    | noInputs => exact hbusy.finish hlen (hno rfl)
    | otherInput => exact hbusy.sendInput hlen w
    | string => exact hbusy.sendInput hlen w
    | eof =>
      dsimp only
      obtain hfail | ⟨n, hn, hwrote⟩ := doWrite_cases t [] w
      · rw [hfail]
        exact hbusy.fail
      · obtain rfl := Nat.le_zero.mp hn
        rw [hwrote]
        have hsame : { t with sent := t.sent ++ List.take 0 [], written := t.written + 0 } = t := by
          rw [List.take_nil, List.append_nil, Nat.add_zero]
        rw [hsame]
        exact hbusy.setWriteCb.finishIfEmpty

/-! ## Callbacks -/

theorem Busy.outputWriteCb (h : Busy off s) (first second : Write) :
    After off (s.outputWriteCb first second none) := by
  obtain ⟨hback, hon⟩ := h.writeBuffer first
  unfold Nbio.outputWriteCb
  cases hbuffer : s.writeBuffer first with
  | mk t goes =>
    rw [hbuffer] at hback hon
    cases goes with
    | false => exact hback rfl
    | true =>
      obtain ⟨hbusy, hlen, -⟩ := hon rfl
      dsimp only
      split
      · exact hbusy.sendBlocking hlen second
      · exact hbusy.sendInput hlen second

theorem Busy.withOutput (h : Busy off s) (outp : Output) : Busy off { s with outp := some outp } :=
  ⟨⟨h.last, h.bounds, h.sound, h.asleep, fun i hi hmode => ⟨(h.awake i hi hmode).1, rfl⟩⟩, h.total,
    rfl, h.finished, h.failed, h.written, h.done⟩

/-- What is read of the first input is buffered. -/
theorem Busy.buffer (h : Busy off s) (hinputs : s.inputs = inp :: rest) (hsound : inp'.Sound)
    (hleft : inp.left = data ++ inp'.left) (htype : ∃ pieces, inp'.type = .obj pieces) :
    Busy off ({ s with inputs := inp' :: s.inputs.tail }.buffer data) := by
  refine ⟨⟨?_, ?_, fun i hi => ?_, h.asleep, fun i hi hmode => ?_⟩, ?_, h.outp, h.finished,
    h.failed, h.written, h.done⟩
  · show s.lastInput = true
    rw [h.last, hinputs]
    rfl
  · have hbounds := h.bounds
    show s.bufPos + (s.bufLen + data.length) ≤ if (if s.bufSize ≠ 0 then
      s.bufSize - (s.bufLen + s.bufPos) else 0) < data.length then s.bufSize + (data.length -
        if s.bufSize ≠ 0 then s.bufSize - (s.bufLen + s.bufPos) else 0) else s.bufSize
    split <;> split <;> omega
  · obtain rfl | hi := List.mem_cons.mp hi
    · exact hsound
    · exact h.sound i (List.mem_of_mem_tail hi)
  · obtain rfl := Option.some.inj hi
    exact ⟨htype, h.outp⟩
  · have hcontent : (s.buf.storeList (s.bufPos + s.bufLen) data).read s.bufPos
        (s.bufLen + data.length) = s.content ++ data := by
      rw [Memory.read_add, Memory.read_storeList_of_disjoint _ (.inr (Nat.le_refl _)),
        Memory.read_storeList]
      rfl
    show s.sent ++ (s.buf.storeList (s.bufPos + s.bufLen) data).read s.bufPos
      (s.bufLen + data.length) ++ (inp' :: s.inputs.tail).flatMap Input.left = off
    rw [hcontent, ← h.total, Nbio.left, hinputs, List.tail_cons, List.flatMap_cons,
      List.flatMap_cons, hleft]
    simp only [List.append_assoc]

theorem Busy.wakeOutput (h : Busy off s) {first second : Write}
    (hs : s.wakeOutput first second none = some s') : After off s' := by
  unfold Nbio.wakeOutput at hs
  split at hs
  · cases hs
  · next outp houtp =>
    split at hs
    · obtain rfl := Option.some.inj hs
      exact (h.withOutput _).outputWriteCb first second
    · obtain rfl := Option.some.inj hs
      exact h.after

/-- A piece that is wanted as a whole. -/
theorem read_piece {piece : Str} {pieces : List Str} (htype : inp.type = .obj (piece :: pieces))
    (hmore : (inp.read piece pieces).ended = false) :
    inp.left = piece ++ (inp.read piece pieces).left ∧ (inp.read piece pieces).Sound := by
  obtain ⟨type, len, pos, mode⟩ := inp
  obtain rfl : type = .obj (piece :: pieces) := htype
  cases len with
  | none => exact ⟨rfl, fun l hl => absurd hl (Option.not_mem_none _)⟩
  | some len =>
    have hmore : ¬ len ≤ pos + piece.length := of_decide_eq_false hmore
    refine ⟨?_, fun l hl => ?_⟩
    · show (piece ++ pieces.flatten).take (len - pos) =
        piece ++ pieces.flatten.take (len - (pos + piece.length))
      rw [List.take_append, List.take_of_length_le (by omega), Nat.sub_sub]
    · obtain rfl := Option.some.inj hl
      show pos + piece.length ≤ len
      omega

/-- The last piece that is wanted, and the input at its end. -/
theorem read_enough {piece : Str} {pieces : List Str} (htype : inp.type = .obj (piece :: pieces))
    (hended : (inp.read piece pieces).ended = true) :
    inp.left = piece.take (inp.len.getD 0 - inp.pos) ++
        { inp with type := .obj pieces, pos := inp.len.getD 0 }.left ∧
      { inp with type := .obj pieces, pos := inp.len.getD 0 }.Sound ∧
      { inp with type := .obj pieces, pos := inp.len.getD 0 }.left = [] := by
  obtain ⟨type, len, pos, mode⟩ := inp
  obtain rfl : type = .obj (piece :: pieces) := htype
  cases len with
  | none => cases hended
  | some len =>
    have hle : len ≤ pos + piece.length := of_decide_eq_true hended
    have hnone : pieces.flatten.take (len - len) = [] := by rw [Nat.sub_self, List.take_zero]
    refine ⟨?_, fun l hl => ?_, hnone⟩
    · show (piece ++ pieces.flatten).take (len - pos) =
        piece.take (len - pos) ++ pieces.flatten.take (len - len)
      rw [hnone, List.append_nil, List.take_append_of_le_length (by omega)]
    · obtain rfl := Option.some.inj hl
      exact Nat.le_refl _

theorem Busy.inputReadCb (h : Busy off s) {piece : Str} {pieces : List Str}
    (hinputs : s.inputs = inp :: rest) (htype : inp.type = .obj (piece :: pieces))
    {first second : Write} (hs : s.inputReadCb inp piece pieces first second none = some s') :
    After off s' := by
  unfold Nbio.inputReadCb at hs
  dsimp only at hs
  split at hs
  · next hended =>
    obtain ⟨hleft, hsound, hnone⟩ := read_enough htype hended
    have hbusy := (h.buffer hinputs hsound hleft ⟨pieces, rfl⟩).freeInput rfl hnone
    split at hs
    · cases hs
    · exact hbusy.wakeOutput hs
  · next hmore =>
    obtain ⟨hleft, hsound⟩ := read_piece htype (Bool.eq_false_iff.mpr hmore)
    have hbusy := h.buffer hinputs hsound hleft ⟨pieces, rfl⟩
    split at hs
    · have hsleeping : Input.Sound { inp.read piece pieces with mode := .sleeping } := hsound
      exact (hbusy.replace rfl hsleeping rfl fun _ => ⟨pieces, rfl⟩).wakeOutput hs
    · exact hbusy.wakeOutput hs

/-! ## Runs -/

theorem Inv.newInput (h : Inv off s) (hsound : inp.Sound) (hsleep : inp.mode = .sleeping) :
    Inv (off ++ inp.left) (s.newInput inp) := by
  have hprefix (hsent : s.sent <+: off) : s.sent <+: off ++ inp.left :=
    hsent.trans (List.prefix_append _ _)
  unfold Nbio.newInput
  split
  · next hlast =>
    obtain ⟨first, rest, hinputs⟩ : ∃ first rest, s.inputs = first :: rest := by
      rw [h.last] at hlast
      cases hinputs : s.inputs with
      | nil =>
        rw [hinputs] at hlast
        cases hlast
      | cons first rest => exact ⟨first, rest, rfl⟩
    refine ⟨⟨?_, h.bounds, fun i hi => ?_, fun i hi => ?_, fun i hi hmode => ?_⟩, fun hfailed => ?_,
      fun hfailed => ⟨(h.kept hfailed).1, hprefix (h.kept hfailed).2⟩, h.closed, h.empty, h.written,
      h.once⟩
    · show s.lastInput = !(s.inputs ++ [inp]).isEmpty
      rw [hlast, hinputs]
      rfl
    · obtain hi | hi := List.mem_append.mp hi
      · exact h.sound i hi
      · rw [List.mem_singleton.mp hi]
        exact hsound
    · have hi : i ∈ (s.inputs ++ [inp]).tail := hi
      rw [hinputs] at hi
      obtain hi | hi := List.mem_append.mp hi
      · exact h.asleep i (by rw [hinputs]; exact hi)
      · rw [List.mem_singleton.mp hi]
        exact hsleep
    · have hi : i ∈ (s.inputs ++ [inp]).head? := hi
      rw [hinputs] at hi
      exact h.awake i (by rw [hinputs]; exact hi) hmode
    · show s.sent ++ s.content ++ (s.inputs ++ [inp]).flatMap Input.left = off ++ inp.left
      rw [← h.total hfailed, Nbio.left, List.flatMap_append, List.flatMap_singleton,
        List.append_assoc _ _ inp.left]
  · next hlast =>
    have hinputs : s.inputs = [] := by
      rw [h.last] at hlast
      cases hinputs : s.inputs with
      | nil => rfl
      | cons first rest =>
        rw [hinputs] at hlast
        exact absurd rfl hlast
    refine ⟨⟨rfl, h.bounds, fun i hi => ?_, fun i hi => absurd hi List.not_mem_nil,
      fun i hi hmode => ?_⟩, fun hfailed => ?_,
      fun hfailed => ⟨(h.kept hfailed).1, hprefix (h.kept hfailed).2⟩, h.closed, h.empty, h.written,
      h.once⟩
    · rw [List.mem_singleton.mp hi]
      exact hsound
    · obtain rfl := Option.some.inj hi
      cases hsleep.symm.trans hmode
    · show s.sent ++ s.content ++ [inp].flatMap Input.left = off ++ inp.left
      rw [← h.total hfailed, Nbio.left, hinputs, List.flatMap_singleton, List.flatMap_nil,
        List.append_nil]

theorem sound_input (o : Opened) (len : Option Nat) (ho : o.Possible) : (o.input len).Sound := by
  cases o with
  | nonblocking pieces => exact fun l _ => Nat.zero_le l
  | blocking pieces => exact trivial
  | mapped file filep =>
    have hfilep : filep < file.length := ho
    refine ⟨rfl, Nat.le_refl _, Nat.le_add_right _ _, ?_⟩
    show filep + min (file.length - filep) maxMmapSize ≤ file.length
    omega

/-- No output is given to an object that has finished, and what is left of a file can be mapped. -/
def Orderly (s : Nbio) : Event → Prop
  | .output => s.finished = false
  | .writable _ _ remap | .readable _ _ remap => remap = none
  | _ => True

instance (s : Nbio) (e : Event) : Decidable (Orderly s e) :=
  match e with
  | .output => inferInstanceAs (Decidable (s.finished = false))
  | .writable _ _ remap | .readable _ _ remap => inferInstanceAs (Decidable (remap = none))
  | .input _ _ | .write _ | .setDoneCallback _ | .closed => inferInstanceAs (Decidable True)

/-- What a step can do. -/
theorem Inv.step_cases {e : Event} (h : Inv off s) (horderly : Orderly s e)
    (hs : s.step e = some s') : After off s' ∧ e.given = [] ∨
      Inv (off ++ e.given) s' ∧ s'.finished = s.finished := by
  cases e with
  | input o len =>
    simp only [Nbio.step] at hs
    split at hs
    · next ho =>
      obtain rfl := Option.some.inj hs
      refine .inr ⟨h.newInput (sound_input o len ho) ?_, ?_⟩
      · cases o <;> rfl
      · unfold Nbio.newInput
        split <;> rfl
    · cases hs
  | write data =>
    obtain rfl := Option.some.inj hs
    split
    · next hempty =>
      subst hempty
      rw [show off ++ Event.given (.write []) = off from List.append_nil _]
      exact .inr ⟨h, rfl⟩
    · have hsound : Input.Sound ⟨.str data, some data.length, 0, .sleeping⟩ :=
        ⟨rfl, Nat.zero_le _⟩
      refine .inr ⟨h.newInput hsound rfl, ?_⟩
      unfold Nbio.newInput
      split <;> rfl
  | output =>
    obtain rfl := Option.some.inj hs
    rw [show off ++ Event.given .output = off from List.append_nil _]
    refine .inr ⟨⟨⟨h.last, h.bounds, h.sound, h.asleep, fun i hi hmode =>
      ⟨(h.awake i hi hmode).1, rfl⟩⟩, h.total, h.kept, fun hfinished => ?_, h.empty, h.written,
      h.once⟩, rfl⟩
    cases horderly.symm.trans hfinished
  | setDoneCallback cb =>
    obtain rfl := Option.some.inj hs
    rw [show off ++ Event.given (.setDoneCallback cb) = off from List.append_nil _]
    exact .inr ⟨⟨⟨h.last, h.bounds, h.sound, h.asleep, h.awake⟩, h.total, h.kept, h.closed, h.empty,
      h.written, h.once⟩, rfl⟩
  | writable first second remap =>
    obtain rfl : remap = none := horderly
    simp only [Nbio.step] at hs
    split at hs
    · cases hs
    · next outp houtp =>
      obtain rfl := Option.some.inj hs
      have hbusy := h.busy (by rw [houtp]; rfl)
      exact .inl ⟨(hbusy.withOutput _).outputWriteCb first second, rfl⟩
  | readable first second remap =>
    obtain rfl : remap = none := horderly
    simp only [Nbio.step] at hs
    split at hs
    · next inp rest hinputs =>
      split at hs
      · next piece pieces htype hmode =>
        have hbusy := h.busy (h.awake inp (by rw [hinputs]; rfl) hmode).2
        exact .inl ⟨hbusy.inputReadCb hinputs htype hs, rfl⟩
      · cases hs
    · cases hs
  | closed =>
    simp only [Nbio.step] at hs
    split at hs
    · next inp rest hinputs =>
      split at hs
      · next hclosed =>
        obtain rfl := Option.some.inj hs
        have hbusy := h.busy (h.awake inp (by rw [hinputs]; rfl) hclosed.2).2
        have hleft : inp.left = [] := by
          unfold Input.left
          rw [hclosed.1]
          cases inp.len with
          | none => rfl
          | some len => exact List.take_nil
        exact .inl ⟨(hbusy.freeInput hinputs hleft).finishIfEmpty, rfl⟩
      · cases hs
    · cases hs

theorem Inv.step {e : Event} (h : Inv off s) (horderly : Orderly s e) (hs : s.step e = some s') :
    Inv (off ++ e.given) s' := by
  obtain ⟨hafter, hgiven⟩ | ⟨hinv, -⟩ := h.step_cases horderly hs
  · rw [hgiven, List.append_nil]
    exact hafter.toInv
  · exact hinv

theorem Inv.run {es : List Event} (h : Inv off s) (hes : EachStep Nbio.step Orderly s es)
    (hs : runFrom Nbio.step s es = some s') : Inv (off ++ given es) s' := by
  induction es generalizing s off with
  | nil =>
    obtain rfl := Option.some.inj hs
    rw [given, List.flatMap_nil, List.append_nil]
    exact h
  | cons e es ih =>
    obtain ⟨s₁, hstep, hrest⟩ := Option.bind_eq_some_iff.mp hs
    rw [given, List.flatMap_cons, ← List.append_assoc]
    exact ih (h.step hes.1 hstep) (hes.2 s₁ hstep) hrest

variable {old : Nat → Char}

theorem inv_create : Inv [] (Nbio.create old) where
  last := rfl
  bounds := Nat.le_refl _
  sound := fun _ hi => absurd hi List.not_mem_nil
  asleep := fun _ hi => absurd hi List.not_mem_nil
  awake := fun _ hi => absurd hi (Option.not_mem_none _)
  total := fun _ => rfl
  kept := fun hfailed => Bool.noConfusion hfailed
  closed := fun _ => rfl
  empty := fun _ _ => rfl
  written := rfl
  once := Nat.zero_le _

/-- A string and four bytes of an object that has six, up to the last write. -/
def page : List Event :=
  [.setDoneCallback true, .write "GET".toList,
    .input (.nonblocking ["abc".toList, "def".toList]) (some 4), .output,
    .writable (.wrote 0) (.wrote 2) none, .writable (.wrote 0) (.wrote 9) none,
    .writable (.wrote 0) (.wrote 0) none, .readable (.wrote 2) (.wrote 0) none,
    .readable (.wrote 0) (.wrote 0) none]

end Caudium.NbSend
