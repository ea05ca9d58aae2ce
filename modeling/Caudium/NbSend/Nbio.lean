import Caudium.Lib.Mapping
import Caudium.Lib.Memory
import Caudium.Lib.Runs

/-!
# Sending without blocking (nb_send.c)

An `nbio` object has a queue of inputs, strings and files, and an output. It works through
callbacks: the output is written to when it can take something, and a non-blocking object is read
when it has something, into a buffer that is written before anything else. The callbacks come in
any order, a write takes as much as it likes, and inputs can be added at any time.

What a file will give is part of its input here, so that it can be said what is still to be sent
(`Nbio.left`).

The statistics of `nbio_status` are left out, and what makes `input` and `output` throw. An input
of `read_data` with a descriptor is one whose object cannot be set non-blocking and that could be
mapped at first; it is left out as well.
-/

namespace Caudium.NbSend

open Lib (Str Memory)

/-- `READ_BUFFER_SIZE`. -/
def readBufferSize : Nat := 65536

/-- `MAX_MMAP_SIZE`. -/
def maxMmapSize : Nat := 2097152

/-! ## Inputs -/

/-- What an input is, and what it has. -/
inductive InputType where
  /-- `NBIO_STR`. -/
  | str (data : Str)
  /-- `NBIO_OBJ`: a non-blocking object, and what its read callback will be called with before the
  close callback is. -/
  | obj (pieces : List Str)
  /-- `NBIO_BLOCK_OBJ`: an object that can only be read, and what `read` will return. -/
  | blockObj (pieces : List Str)
  /-- `NBIO_MMAP`: a file, and the part of it that is mapped. -/
  | mmap (file : Str) (mStart mEnd : Nat)
  deriving DecidableEq, Repr

inductive InputMode where
  | sleeping
  /-- The read and close callbacks are set. -/
  | reading
  deriving DecidableEq, Repr

/-- `input`. -/
structure Input where
  type : InputType
  /-- `none` is -1, till the end. -/
  len : Option Nat
  pos : Nat
  mode : InputMode
  deriving DecidableEq, Repr

/-- As much as is wanted has been read. -/
def Input.ended (inp : Input) : Bool := inp.len.any fun len => decide (len ≤ inp.pos)

/-- The read callback is set if it is a non-blocking object. -/
def Input.wake (inp : Input) : Input :=
  match inp.type with
  | .obj _ => { inp with mode := .reading }
  | _ => inp

def wakeFirst : List Input → List Input
  | [] => []
  | inp :: rest => inp.wake :: rest

/-! ## The object -/

inductive OutputMode where
  | active
  | idle
  deriving DecidableEq, Repr

/-- `output`. -/
structure Output where
  mode : OutputMode
  /-- The write callback has been set since it was last called. -/
  armed : Bool
  deriving DecidableEq, Repr

/-- `nbio_storage`, and what has happened. -/
structure Nbio where
  inputs : List Input
  /-- `last_input` is not NULL; then it is the last of the inputs. -/
  lastInput : Bool
  outp : Option Output
  buf : Memory Char
  bufSize : Nat
  bufPos : Nat
  bufLen : Nat
  written : Nat
  finished : Bool
  /-- There is a done callback. -/
  cb : Bool
  /-- What the output has taken. -/
  sent : Str
  /-- How often the done callback was called. -/
  done : Nat
  /-- A write has failed. -/
  failed : Bool

/-- `alloc_nb_struct`, with a memory that has anything in it. -/
def Nbio.create (old : Nat → Char) : Nbio where
  inputs := []
  lastInput := false
  outp := none
  buf := ⟨old, 0⟩
  bufSize := 0
  bufPos := 0
  bufLen := 0
  written := 0
  finished := false
  cb := false
  sent := []
  done := 0
  failed := false

/-- What is buffered. -/
def Nbio.content (s : Nbio) : Str := s.buf.read s.bufPos s.bufLen

/-- `free_input`, of the first input. -/
def Nbio.freeInput (s : Nbio) : Nbio :=
  { s with
    inputs := if s.finished then s.inputs.tail else wakeFirst s.inputs.tail
    lastInput := s.lastInput && !s.inputs.tail.isEmpty }

/-- `new_input`, for the end of the queue. -/
def Nbio.newInput (s : Nbio) (inp : Input) : Nbio :=
  if s.lastInput then { s with inputs := s.inputs ++ [inp] }
  else { s with inputs := [inp], lastInput := true }

/-- `set_outp_write_cb`. -/
def Nbio.setWriteCb (s : Nbio) : Nbio :=
  { s with outp := s.outp.map fun outp => { outp with armed := true } }

/-- `finished`. -/
def Nbio.finish (s : Nbio) : Nbio :=
  { s with
    inputs := []
    lastInput := s.lastInput && s.inputs.isEmpty
    outp := none
    finished := true
    done := if s.cb then s.done + 1 else s.done }

/-- The end of most callbacks. -/
def Nbio.finishIfEmpty (s : Nbio) : Nbio :=
  if s.bufLen = 0 ∧ s.inputs.isEmpty then s.finish else s

/-! ## Writing -/

/-- What `write` does: it takes as much as this of the data, nothing if it would block, or it fails.
One that is interrupted is done again. -/
inductive Write where
  | wrote (n : Nat)
  | failed
  deriving DecidableEq, Repr

/-- `do_write`: how much was written; `none` is -1. -/
def Nbio.doWrite (s : Nbio) (data : Str) : Write → Option Nat × Nbio
  | .failed => (none, { s with failed := true }.finish)
  | .wrote n =>
    (some (data.take n).length,
      { s with
        sent := s.sent ++ data.take n
        written := s.written + (data.take n).length })

/-- The first part of `_output_write_cb`, and whether it goes on. -/
def Nbio.writeBuffer (s : Nbio) (w : Write) : Nbio × Bool :=
  if s.bufLen = 0 then (s, true)
  else
    match s.doWrite s.content w with
    | (none, s) => (s.setWriteCb, false)
    | (some written, s) =>
      if written = 0 then (s.setWriteCb, false)
      else
        let s := { s with bufLen := s.bufLen - written, bufPos := s.bufPos + written }
        if s.bufLen ≠ 0 then (s.setWriteCb, false)
        else ({ s with bufPos := 0, bufLen := 0 }, true)

/-- Data of the first input is written, from its position on. -/
def Nbio.sendData (s : Nbio) (inp : Input) (data : Str) (w : Write) : Nbio :=
  match s.doWrite data w with
  | (none, s) => s
  | (some written, s) =>
    let inp := { inp with pos := inp.pos + written }
    let s := { s with inputs := inp :: s.inputs.tail }
    let s := if inp.len = some inp.pos then s.freeInput else s
    s.setWriteCb.finishIfEmpty

/-- The read callback of the first input is set, and the output waits for it. -/
def Nbio.waitFor (s : Nbio) (inp : Input) : Nbio :=
  { s with
    inputs := { inp with mode := .reading } :: s.inputs.tail
    outp := s.outp.map fun outp => { outp with mode := .idle } }

/-- The rest of `_output_write_cb`, for a first input that is no blocking object. If more of a file
has to be mapped and that fails, `remap` is what reading the file gives. -/
def Nbio.sendInput (s : Nbio) (w : Write) (remap : Option (List Str)) : Nbio :=
  match s.inputs with
  | [] => s.finish
  | inp :: _ =>
    match inp.type with
    | .obj _ => s.waitFor inp
    | .str data => s.sendData inp (data.drop inp.pos) w
    | .mmap file _ mEnd =>
      if mEnd ≠ inp.pos then s.sendData inp ((file.drop inp.pos).take (mEnd - inp.pos)) w
      else
        let len := min (file.length - inp.pos) maxMmapSize
        match remap with
        | none =>
          let inp := { inp with type := .mmap file inp.pos (inp.pos + len) }
          s.sendData inp ((file.drop inp.pos).take len) w
        | some pieces => s.waitFor { inp with type := .obj pieces }
    | .blockObj _ => s

/-- What `read_data` returns: -1, -2, -3 and 0. -/
inductive DataRead where
  | noInputs
  | otherInput
  /-- A string has been put in front of the inputs. -/
  | string
  | eof
  deriving DecidableEq, Repr

/-- The loop of `read_data`, with one turn for each input. -/
def Nbio.redo (s : Nbio) : Nat → DataRead × Nbio
  | 0 => (.noInputs, s)
  | n + 1 =>
    match s.inputs with
    | [] => (.noInputs, s)
    | inp :: rest =>
      match inp.type with
      | .blockObj pieces =>
        if inp.ended then s.freeInput.redo n
        else
          match pieces with
          | [] => (.eof, s.freeInput)
          | piece :: pieces =>
            if piece = [] then (.eof, s.freeInput)
            else
              (.string, { s with inputs := ⟨.str piece, some piece.length, 0, .sleeping⟩ ::
                { inp with type := .blockObj pieces, pos := inp.pos + piece.length } :: rest })
      | _ => (.otherInput, s)

/-- `read_data`. -/
def Nbio.readData (s : Nbio) : DataRead × Nbio :=
  { s with bufPos := 0 }.redo (s.inputs.length + 1)

/-- The rest of `_output_write_cb` for a first input that is a blocking object. -/
def Nbio.sendBlocking (s : Nbio) (w : Write) (remap : Option (List Str)) : Nbio :=
  match s.readData with
  | (.noInputs, s) => s.finish
  | (.otherInput, s) | (.string, s) => s.sendInput w remap
  | (.eof, s) =>
    match s.doWrite [] w with
    | (none, s) => s
    | (some _, s) => s.setWriteCb.finishIfEmpty

/-- `_output_write_cb`; `first` is for the buffer and `second` for the first input. -/
def Nbio.outputWriteCb (s : Nbio) (first second : Write) (remap : Option (List Str)) : Nbio :=
  match s.writeBuffer first with
  | (s, false) => s
  | (s, true) =>
    match s.inputs with
    | { type := .blockObj _, .. } :: _ => s.sendBlocking second remap
    | _ => s.sendInput second remap

/-! ## Reading -/

/-- The data is put behind what is buffered, in a buffer that is made larger if it is too small. -/
def Nbio.buffer (s : Nbio) (data : Str) : Nbio :=
  let avail := if s.bufSize ≠ 0 then s.bufSize - (s.bufLen + s.bufPos) else 0
  { s with
    bufSize := if avail < data.length then s.bufSize + (data.length - avail) else s.bufSize
    buf := s.buf.storeList (s.bufPos + s.bufLen) data
    bufLen := s.bufLen + data.length }

/-- The output is waked up if it is idle; `none` if there is none. -/
def Nbio.wakeOutput (s : Nbio) (first second : Write) (remap : Option (List Str)) : Option Nbio :=
  match s.outp with
  | none => none
  | some outp =>
    if outp.mode = .idle then
      some ({ s with outp := some { outp with mode := .active } }.outputWriteCb first second remap)
    else some s

/-- A non-blocking object when a piece of it has been read. -/
def Input.read (inp : Input) (piece : Str) (pieces : List Str) : Input :=
  { inp with type := .obj pieces, pos := inp.pos + piece.length }

/-- There is more than `READ_BUFFER_SIZE` in use of the buffer. -/
def Nbio.full (s : Nbio) : Bool := decide (readBufferSize < s.bufLen + s.bufPos)

/-- `_input_read_cb`, for the first input, a non-blocking object, and this piece. If it was the last
piece that was wanted the input is freed; if the buffer is full, its callbacks are taken away, from
an input that has been freed too: `none`. -/
def Nbio.inputReadCb (s : Nbio) (inp : Input) (piece : Str) (pieces : List Str)
    (first second : Write) (remap : Option (List Str)) : Option Nbio :=
  let now := inp.read piece pieces
  let s := { s with inputs := now :: s.inputs.tail }
  if now.ended then
    let s := s.freeInput.buffer (piece.take (now.len.getD 0 - inp.pos))
    if s.full then none else s.wakeOutput first second remap
  else
    let s := s.buffer piece
    let s :=
      if s.full then { s with inputs := { now with mode := .sleeping } :: s.inputs.tail } else s
    s.wakeOutput first second remap

/-- `_input_close_cb`. -/
def Nbio.inputCloseCb (s : Nbio) : Nbio := s.freeInput.finishIfEmpty

/-! ## Steps -/

/-- What `input` is called with. -/
inductive Opened where
  /-- A non-blocking object that is no file, or a file that cannot be mapped. -/
  | nonblocking (pieces : List Str)
  | blocking (pieces : List Str)
  /-- A file that can be mapped, and where it is. -/
  | mapped (file : Str) (filep : Nat)
  deriving DecidableEq, Repr

/-- The input that is made of it; for a file that is mapped, `len` does not count. -/
def Opened.input (o : Opened) (len : Option Nat) : Input :=
  match o with
  | .nonblocking pieces => ⟨.obj pieces, len, 0, .sleeping⟩
  | .blocking pieces => ⟨.blockObj pieces, len, 0, .sleeping⟩
  | .mapped file filep =>
    ⟨.mmap file filep (filep + min (file.length - filep) maxMmapSize), some file.length, filep,
      .sleeping⟩

/-- Nothing of a file can be mapped when there is nothing left of it. -/
def Opened.Possible : Opened → Prop
  | .mapped file filep => filep < file.length
  | _ => True

instance (o : Opened) : Decidable o.Possible :=
  match o with
  | .mapped file filep => inferInstanceAs (Decidable (filep < file.length))
  | .nonblocking _ | .blocking _ => inferInstanceAs (Decidable True)

inductive Event where
  | input (o : Opened) (len : Option Nat)
  | write (data : Str)
  | output
  | setDoneCallback (cb : Bool)
  /-- The write callback. -/
  | writable (first second : Write) (remap : Option (List Str))
  /-- The read callback of the first input, with the next piece. -/
  | readable (first second : Write) (remap : Option (List Str))
  /-- Its close callback. -/
  | closed
  deriving DecidableEq, Repr

def Nbio.step (s : Nbio) : Event → Option Nbio
  | .input o len => if o.Possible then some (s.newInput (o.input len)) else none
  | .write data =>
    some (if data = [] then s else s.newInput ⟨.str data, some data.length, 0, .sleeping⟩)
  | .output => some { s with outp := some ⟨.active, true⟩ }
  | .setDoneCallback cb => some { s with cb := cb }
  | .writable first second remap =>
    match s.outp with
    | none => none
    | some outp =>
      some ({ s with outp := some { outp with armed := false } }.outputWriteCb first second remap)
  | .readable first second remap =>
    match s.inputs with
    | inp :: _ =>
      match inp.type, inp.mode with
      | .obj (piece :: pieces), .reading => s.inputReadCb inp piece pieces first second remap
      | _, _ => none
    | [] => none
  | .closed =>
    match s.inputs with
    | inp :: _ =>
      if inp.type = .obj [] ∧ inp.mode = .reading then some s.inputCloseCb else none
    | [] => none

end Caudium.NbSend
