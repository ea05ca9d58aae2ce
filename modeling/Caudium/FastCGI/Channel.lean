import Caudium.FastCGI.Packet
import Caudium.Lib.Mapping
import Caudium.Lib.Runs
import Mathlib.Logic.Function.Basic

/-!
# FastCGI (modules/scripting/fastcgi.pike): the requests of a channel

A channel has one request id. `FCGIRun` takes it, registers its streams under it and
begins a request; the records that arrive carry the id and go to the stream that is
registered for their type, or to the run that has the id.

The id is free again as soon as `done` is called: at the end of stdout, at a close of
stdout, at END_REQUEST. Only the last of them says that the application is through with
the request. The next run takes the same id, so what the application still sends for the
old request is taken for an answer to the new one; and a late `close` of the old run
frees the id of the new one, a late `destroy` takes its streams away.

What is sent to the application is left out here (`Encoding` has it), but for the requests
that it is sent and the order in which it is to answer them.
-/

namespace Caudium.FastCGI

open Lib (Str Mapping runFrom Always EachStep)

/-! ## Streams -/

/-- A stream object, without its close callback: it is the script's, and what it does
follows as events of their own. -/
structure Stream where
  closed : Bool
  /-- `read_callback` is set. -/
  readCallback : Bool
  /-- `close_callback_2` is set; it is `done`. -/
  closeCallback2 : Bool
  buffer : Str
  /-- What the read callback has been called with. -/
  given : Str

/-- A new stream. -/
def Stream.new (closeCallback2 : Bool) : Stream where
  closed := false
  readCallback := false
  closeCallback2 := closeCallback2
  buffer := []
  given := []

/-- `do_read_callback`. -/
def Stream.doReadCallback (st : Stream) : Stream :=
  { st with buffer := [], given := st.given ++ st.buffer }

/-- `set_read_callback`, with a function or with 0. -/
def Stream.setReadCallback (st : Stream) (f : Bool) : Stream :=
  let st := { st with readCallback := f }
  if f then st.doReadCallback else st

/-- `got_data`, and whether `close_callback_2` is called. -/
def Stream.gotData (st : Stream) (d : Str) : Stream × Bool :=
  if st.closed then (st, false)
  else
    let st := { st with buffer := st.buffer ++ d }
    if st.readCallback then
      let st := st.doReadCallback
      if d = [] then ({ st with closed := true }, false) else (st, false)
    else if d = [] ∧ st.closeCallback2 then ({ st with closed := true }, true)
    else (st, false)

/-! ## The channel and its runs -/

/-- The channel; a run stands for its `handle_packet`, and for the `got_data` of its streams. -/
structure FCGIChannel where
  /-- `request_ids[1]`. -/
  requestIds : Option Nat
  /-- `stream[1]`. -/
  stream : Mapping Nat Nat

def FCGIChannel.freeRequestid (_ : FCGIChannel) : FCGIChannel where
  requestIds := none
  stream := ∅

/-- `get_requestid`; `none` for -1. -/
def FCGIChannel.getRequestid (c : FCGIChannel) (f : Nat) : Option FCGIChannel :=
  match c.requestIds with
  | some _ => none
  | none => some { requestIds := some f, stream := ∅ }

def FCGIChannel.registerStream (c : FCGIChannel) (a f : Nat) : FCGIChannel :=
  { c with stream := c.stream.insert a f }

def FCGIChannel.unregisterStream (c : FCGIChannel) (a : Nat) : FCGIChannel :=
  { c with stream := c.stream.erase a }

/-- A run. -/
structure FCGIRun where
  /-- It has got a request id, and its streams. -/
  created : Bool
  /-- The streams, by their ids. -/
  stream : Nat → Stream
  isDone : Bool
  /-- The client has given it up. -/
  aborted : Bool
  /-- Nothing refers to it any more. -/
  destroyed : Bool

def FCGIRun.fresh : FCGIRun where
  created := false
  stream := fun id => Stream.new (id = fcgiStdout)
  isDone := false
  aborted := false
  destroyed := false

/-- The application: the runs whose requests have been begun, how many of them it has
ended, and whether it has ended stdout of the one it is at. -/
structure Application where
  begun : List Nat
  served : Nat
  stdoutEnded : Bool

/-- The run whose request the application answers. -/
def Application.current (a : Application) : Option Nat := a.begun[a.served]?

/-- What the application may send: records of stdout up to an empty one, records of
stderr, END_REQUEST. -/
def Application.MaySend (a : Application) (type : Nat) : Prop :=
  type = fcgiStdout ∧ a.stdoutEnded = false ∨ type = fcgiStderr ∨ type = fcgiEndRequest

instance (a : Application) (type : Nat) : Decidable (a.MaySend type) :=
  inferInstanceAs (Decidable (_ ∨ _ ∨ _))

/-- The application after a record. -/
def Application.send (a : Application) (type : Nat) (d : Str) : Application :=
  if type = fcgiEndRequest then { a with served := a.served + 1, stdoutEnded := false }
  else if type = fcgiStdout ∧ d = [] then { a with stdoutEnded := true }
  else a

/-- What has become of a record: the run whose request it answers, its type, the run that
has taken it, and whether its own run was aborted, or done, when it came. -/
structure Delivery where
  owner : Nat
  type : Nat
  taker : Option Nat
  aborted : Bool
  done : Bool
  deriving DecidableEq

/-- The record has gone to its own run; or to none, if that was aborted or, for END_REQUEST,
done already. -/
def Delivery.Right (d : Delivery) : Prop :=
  (∀ r, d.taker = some r → r = d.owner) ∧
    (d.taker = none → d.aborted = true ∨ d.type = fcgiEndRequest ∧ d.done = true)

/-- A channel with its runs, numbered as they are made, and the application. -/
structure Sys where
  channel : FCGIChannel
  run : Nat → FCGIRun
  /-- The number of runs. -/
  count : Nat
  app : Application
  log : List Delivery

def Sys.init : Sys where
  channel := { requestIds := none, stream := ∅ }
  run := fun _ => FCGIRun.fresh
  count := 0
  app := { begun := [], served := 0, stdoutEnded := false }
  log := []

def Sys.setRun (s : Sys) (r : Nat) (x : FCGIRun) : Sys :=
  { s with run := Function.update s.run r x }

def Sys.setStream (s : Sys) (r id : Nat) (st : Stream) : Sys :=
  s.setRun r { s.run r with stream := Function.update (s.run r).stream id st }

/-- A run with its streams. -/
def FCGIRun.withStreams (x : FCGIRun) : FCGIRun :=
  { x with created := true, stream := fun id => Stream.new (id = fcgiStdout) }

/-- `FCGIRun.create`. A run that gets no id tries again later (without its script, so it
then throws, but not before it has begun the request). -/
def Sys.create (s : Sys) (r : Nat) : Sys :=
  match s.channel.getRequestid r with
  | none => s
  | some c =>
    { s with
      channel := (((c.registerStream fcgiStdin r).registerStream fcgiStdout r).registerStream
        fcgiStderr r).registerStream fcgiParams r
      run := Function.update s.run r (s.run r).withStreams
      app := { s.app with begun := s.app.begun ++ [r] } }

/-- `FCGIRun.done`. -/
def Sys.done (s : Sys) (r : Nat) : Sys :=
  { s with
    channel := s.channel.freeRequestid
    run := Function.update s.run r { s.run r with isDone := true } }

/-- `Stream.close`, for the stream `id` of a run. -/
def Sys.close (s : Sys) (r id : Nat) : Sys :=
  let st := (s.run r).stream id
  if st.closed then s
  else
    let s := s.setStream r id { st with closed := true }
    if st.closeCallback2 then s.done r else s

/-- The client gives a run up. -/
def Sys.abort (s : Sys) (r : Nat) : Sys := s.setRun r { s.run r with aborted := true }

/-- `FakePID.kill`; a run without an id has no streams to close. -/
def Sys.kill (s : Sys) (r : Nat) : Sys :=
  let s := s.abort r
  let s := if (s.run r).created then
    ((s.close r fcgiStdout).close r fcgiStderr).close r fcgiStdin else s
  s.setRun r { s.run r with isDone := true }

/-- `destroy` of the streams of a run. -/
def Sys.destroy (s : Sys) (r : Nat) : Sys :=
  { s with
    channel := (((s.channel.unregisterStream fcgiStdin).unregisterStream
      fcgiStdout).unregisterStream fcgiStderr).unregisterStream fcgiParams
    run := Function.update s.run r { s.run r with destroyed := true } }

/-- `FCGIChannel.got_data` for one record: the run that takes it, and the new state. A
stream that is closed takes nothing, and `handle_packet` takes END_REQUEST only. -/
def Sys.gotData (s : Sys) (type : Nat) (d : Str) : Option Nat × Sys :=
  match s.channel.stream.lookup type with
  | some r =>
    let st := (s.run r).stream type
    let res := st.gotData d
    let s := s.setStream r type res.1
    (if st.closed then none else some r, if res.2 then s.done r else s)
  | none =>
    match s.channel.requestIds with
    | some r => if type = fcgiEndRequest then (some r, s.done r) else (none, s)
    | none => (none, s)

/-! ## Interleavings -/

inductive Event where
  /-- A new run. -/
  | start
  /-- A run without an id tries again. -/
  | retry (r : Nat)
  /-- The script sets the read callback of stdout, or takes it away. -/
  | setReadCallback (r : Nat) (f : Bool)
  /-- `close` of stdout. -/
  | close (r : Nat)
  | kill (r : Nat)
  | destroy (r : Nat)
  /-- A record arrives. -/
  | arrive (type : Nat) (d : Str)

/-- One event; `none` where it cannot happen. A run lives as long as the channel refers to
it or to its streams. -/
def Sys.step (s : Sys) : Event → Option Sys
  | .start => some ({ s with count := s.count + 1 }.create s.count)
  | .retry r => if r < s.count ∧ (s.run r).created = false then some (s.create r) else none
  | .setReadCallback r f =>
    if (s.run r).created ∧ (s.run r).destroyed = false then
      some (s.setStream r fcgiStdout (((s.run r).stream fcgiStdout).setReadCallback f))
    else none
  | .close r =>
    if (s.run r).created ∧ (s.run r).destroyed = false then
      if ((s.run r).stream fcgiStdout).closed then some s
      else some ((s.abort r).close r fcgiStdout)
    else none
  | .kill r => if r < s.count ∧ (s.run r).destroyed = false then some (s.kill r) else none
  | .destroy r =>
    if (s.run r).created ∧ (s.run r).destroyed = false ∧ s.channel.requestIds ≠ some r ∧
      r ∉ s.channel.stream.entries.map Sigma.snd then some (s.destroy r)
    else none
  | .arrive type d =>
    match s.app.current with
    | some owner =>
      if s.app.MaySend type then
        let res := s.gotData type d
        some { res.2 with
          app := s.app.send type d
          log := s.log ++ [⟨owner, type, res.1, (s.run owner).aborted, (s.run owner).isDone⟩] }
      else none
    | none => none

/-- Every record so far has come to the right run. -/
def Sys.Answered (s : Sys) : Prop := ∀ d ∈ s.log, d.Right

/-- No run but `r` has the id, unless it is aborted. -/
def Sys.Alone (s : Sys) (r : Nat) : Prop :=
  ∀ h, s.channel.requestIds = some h → h = r ∨ (s.run h).aborted = true

/-- The condition on an event. A run gets the id when the application has ended all requests
before it; no run whose stdout is open is closed or killed, and none is destroyed, while
another run has the id, except an aborted one; and there are no records of stderr for a
run that is done but not aborted. -/
def Careful (s : Sys) : Event → Prop
  | .start => s.channel.requestIds = none → s.app.served = s.app.begun.length
  | .retry _ => s.channel.requestIds = none → s.app.served = s.app.begun.length
  | .setReadCallback _ _ => True
  | .close r => ((s.run r).stream fcgiStdout).closed = true ∨ s.Alone r
  | .kill r => (s.run r).created = true →
      ((s.run r).stream fcgiStdout).closed = true ∨ s.Alone r
  | .destroy r => s.Alone r
  | .arrive type _ => type = fcgiStderr → ∀ owner, s.app.current = some owner →
      (s.run owner).isDone = true → (s.run owner).aborted = true

end Caudium.FastCGI
