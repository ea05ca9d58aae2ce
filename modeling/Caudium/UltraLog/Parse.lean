import Caudium.UltraLog.Totals

/-!
# The reader (`f_ultraparse`, ultraparse.c)

The characters of a line go into `buf`, from place 1 on. At the end of a field its value, or
its place in `buf`, is put into `buf_points`. A line in which a field is wrong is skipped, by
a second loop that reads blocks on its own and jumps back into the first one at the end of
the line.
-/

namespace Caudium.UltraLog

open Lib (Str Mapping)

variable {F : Floats}

/-- What is the same for all lines. -/
structure Setup where
  /-- `state_list`, `save_field_num`, `field_endings`. -/
  states : List LineState
  numStates : Nat
  pagexts : List Str
  notref : Option Str

/-- The variables of `f_ultraparse`, and the days that `daily` got. -/
structure Reader (F : Floats) where
  buf : Nat → Char
  bufpos : Nat
  fieldPosition : Nat
  statePos : Nat
  bufPoints : Field → Int
  tmpinteger : Int
  lines : Nat
  brokenLines : Nat
  totals : Totals F
  days : List (Daily F)

/-- Where a character or a field leads: on, to `skip`, or out of the program's memory. -/
inductive Step (F : Floats) where
  | next (s : Reader F)
  | skip (s : Reader F)
  | undefined

/-- The state of the line. -/
def Reader.state (env : Setup) (s : Reader F) : LineState :=
  env.states.getD s.statePos ⟨none, .wspace⟩

/-- `BUFSET`. -/
def Reader.bufset (s : Reader F) (x : Char) : Step F :=
  let s := { s with buf := Function.update s.buf s.bufpos x }
  if s.bufpos = maxLineLen then .skip s else .next { s with bufpos := s.bufpos + 1 }

/-- The characters of `buf` from `i` up to `j`. -/
def Reader.slice (s : Reader F) (i j : Nat) : Str := (List.range' i (j - i)).map s.buf

/-- The string at `i`, up to its NUL. -/
def Reader.string (s : Reader F) (i : Int) : Str := cString (s.slice i.toNat (maxLineLen + 2))

def Reader.setPoint (s : Reader F) (f : Field) (v : Int) : Reader F :=
  { s with bufPoints := Function.update s.bufPoints f v }

/-! ## A field -/

def digitValue (c : Char) : Int := ((c.toNat &&& 15 : Nat) : Int)

/-- The loop over the digits of a number, from `tmpinteger` on: the new `tmpinteger`, and
whether there were only digits. -/
def number (tmpinteger : Int) : Str → Int × Bool
  | [] => (tmpinteger, true)
  | c :: cs =>
    if charClass c = .digit then number (wrap32 (tmpinteger * 10 + digitValue c)) cs
    else (tmpinteger, false)

/-- A number that has been read; it goes into the field if it is one. -/
def Reader.store (s : Reader F) (f : Field) (value : Int × Bool) : Step F :=
  let s := { s with tmpinteger := value.1 }
  if value.2 then .next (s.setPoint f value.1) else .skip s

/-- Years of two digits. -/
def fullYear (y : Int) : Int := if y < 100 then if y < 60 then y + 2000 else y + 1900 else y

def monthNames : List Str :=
  [['j', 'a', 'n'], ['f', 'e', 'b'], ['m', 'a', 'r'], ['a', 'p', 'r'], ['m', 'a', 'y'],
    ['j', 'u', 'n'], ['j', 'u', 'l'], ['a', 'u', 'g'], ['s', 'e', 'p'], ['o', 'c', 't'],
    ['n', 'o', 'v'], ['d', 'e', 'c']]

/-- The month that three letters name. -/
def monthNumber (letters : Str) : Option Int :=
  (monthNames.idxOf? (letters.map fun c => Char.ofNat (c.toNat ||| 32))).map fun i : Nat =>
    ((i + 1 : Nat) : Int)

/-- The `MONTH` case: `tmpinteger` after it, and whether it is a month. A name that is not known
leaves `tmpinteger` as it was. -/
def monthValue (tmpinteger : Int) (field : Str) : Int × Bool :=
  if field.length = 2 then
    let (v, ok) := number 0 field
    (v, ok && decide (1 ≤ v ∧ v ≤ 12))
  else if field.length = 3 then
    let v := (monthNumber field).getD tmpinteger
    (v, decide (1 ≤ v ∧ v ≤ 12))
  else (tmpinteger, false)

/-- The `BYTES` case. The first character is looked at even if the field is empty. -/
def bytesValue (tmpinteger : Int) (first : Char) (empty : Bool) (rest : Str) : Int × Bool :=
  match charClass first with
  | .question | .hyphen => if !empty && rest.isEmpty then (0, true) else (tmpinteger, false)
  | .digit => number (digitValue first) rest
  | _ => (tmpinteger, false)

/-- `process_field`: the value of the field that is done. -/
def Reader.processField (env : Setup) (s : Reader F) : Step F :=
  let field := s.slice s.fieldPosition s.bufpos
  match (s.state env).save with
  | some .date => s.store .date (number 0 field)
  | some .hour => s.store .hour (number 0 field)
  | some .minute => s.store .minute (number 0 field)
  | some .upSec => s.store .upSec (number 0 field)
  | some .code => s.store .code (number 0 field)
  | some .year =>
    let (v, ok) := number 0 field
    s.store .year (if ok then fullYear v else v, ok)
  | some .bytes =>
    s.store .bytes (bytesValue s.tmpinteger (s.buf s.fieldPosition)
      (decide (s.bufpos = s.fieldPosition)) (s.slice (s.fieldPosition + 1) s.bufpos))
  | some .month => s.store .month (monthValue s.tmpinteger field)
  | some f =>
    match s.bufset '\x00' with
    | .next s' => .next (s'.setPoint f s.fieldPosition)
    | step => step
  | none => .next s

/-! ## The end of a line -/

/-- The line that is in `buf` and `buf_points`. -/
def Reader.logLine (s : Reader F) : LogLine where
  addr := s.string (s.bufPoints .addr)
  refer := s.string (s.bufPoints .refer)
  agent := s.string (s.bufPoints .agent)
  url := s.string (s.bufPoints .url)
  yy := s.bufPoints .year
  mm := s.bufPoints .month
  dd := s.bufPoints .date
  h := s.bufPoints .hour
  m := s.bufPoints .minute
  s := s.bufPoints .upSec
  code := s.bufPoints .code
  bytes := s.bufPoints .bytes

/-- Of `buf_points`, the code at `ok` leaves these three. -/
def Field.kept : Field → Bool
  | .date | .month | .year => true
  | _ => false

/-- What is done at `ok`. -/
def Reader.ok (s : Reader F) : Reader F :=
  { s with
    bufPoints f := if f.kept then s.bufPoints f else 0
    buf := Function.update s.buf 0 '\x00'
    bufpos := 1
    statePos := 0
    fieldPosition := 1 }

/-- The codes for which `DO_REFERRER` is run, which uses `tmpinteger`. -/
def usesReferrer (code : Int) : Bool :=
  code ∈ [200, 201, 202, 203, 204, 205, 206, 207, 304, 300, 301, 302, 303, 305]

def Reader.broken (s : Reader F) : Reader F := { s with brokenLines := s.brokenLines + 1 }

/-- The end of a line. -/
def Reader.endLine (env : Setup) (s : Reader F) : Step F :=
  if s.statePos < env.numStates then .next s.broken.ok
  else if s.logLine.date = 0 then .next s.broken.ok
  else match account env.pagexts env.notref s.totals s.logLine with
    | none => .undefined
    | some (days, totals) =>
      let s := { s with
        totals := totals
        days := s.days ++ days
        tmpinteger := if usesReferrer s.logLine.code then s.logLine.refer.length else s.tmpinteger
        lines := s.lines + 1 }
      .next s.ok

/-- A character in the first loop. -/
def Reader.readChar (env : Setup) (s : Reader F) (c : Char) : Step F :=
  let cls := charClass c
  if cls = (s.state env).ending ∨ cls = .crlf then
    match s.processField env with
    | .next s =>
      let s := { s with statePos := s.statePos + 1, fieldPosition := s.bufpos }
      if cls ≠ .crlf then .next s else s.endLine env
    | step => step
  else s.bufset c

/-! ## The two loops -/

mutual

/-- The first loop, in the middle of a block; `blocks` is what `fd_read` will return. -/
def mainLoop (env : Setup) (s : Reader F) (offs0 : Int) (block : Str) (blocks : List Str) :
    Option (Reader F × Int) :=
  match block, blocks with
  | [], [] => some (s, offs0)
  | [], [] :: _ => some (s, offs0)
  | [], (c :: block) :: blocks =>
    mainLoop env s (wrap32 (offs0 + (c :: block).length)) (c :: block) blocks
  | c :: block, blocks =>
    match s.readChar env c with
    | .next s => mainLoop env s offs0 block blocks
    | .skip s => skipLoop env s.broken offs0 block blocks
    | .undefined => none
termination_by (blocks.length, block.length)

/-- The loop at `skip`. -/
def skipLoop (env : Setup) (s : Reader F) (offs0 : Int) (block : Str) (blocks : List Str) :
    Option (Reader F × Int) :=
  match block, blocks with
  | [], [] => some (s, offs0)
  | [], [] :: _ => some (s, offs0)
  | [], (c :: block) :: blocks =>
    skipLoop env s (wrap32 (offs0 + (c :: block).length)) (c :: block) blocks
  | c :: block, blocks =>
    if charClass c = .crlf then mainLoop env s.ok offs0 block blocks
    else skipLoop env s offs0 block blocks
termination_by (blocks.length, block.length)

end

/-! ## `ultraparse` -/

/-- The arguments, without the functions and the file. -/
structure Arguments where
  logFormat : Str
  pagexts : List Str
  notref : Option Str
  start : Int

/-- What `ultraparse` delivers to `daily` and to `statfun`, prints, and returns. -/
structure Report (F : Floats) where
  days : List (Daily F)
  lines : Nat
  brokenLines : Nat
  /-- The second argument of `statfun`. -/
  megabytes : Int
  offset : Int

inductive Failure where
  | badFormat
  | undefined
  deriving DecidableEq, Repr

/-- The variables before the first block; `junk` is what `malloc` returns. -/
def Reader.start (F : Floats) (junk : Nat → Char) : Reader F where
  buf := Function.update junk 0 '\x00'
  bufpos := 1
  fieldPosition := 1
  statePos := 0
  bufPoints _ := 0
  tmpinteger := 0
  lines := 0
  brokenLines := 0
  totals := Totals.empty F
  days := []

def Arguments.setup (args : Arguments) : Option Setup :=
  (parseLogFormat args.logFormat).map fun (states, numStates) =>
    ⟨states, numStates, args.pagexts, args.notref.map cString⟩

/-- What is done at `cleanup`. -/
def Reader.cleanup (env : Setup) (megabytes : Int → Int) (s : Reader F) (offs0 : Int) :
    Option (Report F) :=
  (s.totals.finish env.pagexts (s.bufPoints .year) (s.bufPoints .month) (s.bufPoints .date)).map
    fun days => ⟨s.days ++ days, s.lines, s.brokenLines, megabytes offs0, offs0⟩

/-- `f_ultraparse`, for a file that is read in these blocks from `start` on. -/
def ultraparse (F : Floats) (junk : Nat → Char) (megabytes : Int → Int) (args : Arguments)
    (blocks : List Str) : Except Failure (Report F) :=
  match args.setup with
  | none => .error .badFormat
  | some env =>
    if env.numStates < 1 then .error .badFormat
    else
      match mainLoop env (Reader.start F junk) (wrap32 args.start) [] blocks with
      | none => .error .undefined
      | some (s, offs0) =>
        match s.cleanup env megabytes offs0 with
        | none => .error .undefined
        | some report => .ok report

end Caudium.UltraLog
