import Caudium.Lib.Mapping

/-!
# Log formats (`parse_log_format`, ultraparse.c)

A log format is a list of states, one for each field or separator of a line: where the value
of the field is saved, if it is, and the class of the character that ends it. The last one
ends with the line.
-/

namespace Caudium.UltraLog

open Lib (Str)

/-- The classes of `char_class`. -/
inductive CharClass where
  | wspace
  | crlf
  | token
  | digit
  | quote
  | lbrack
  | rbrack
  | slash
  | colon
  | hyphen
  | plus
  | question
  deriving DecidableEq, Repr

/-- `char_class`. -/
def charClass (c : Char) : CharClass :=
  match c with
  | ' ' | '\t' => .wspace
  | '\n' | '\r' | '\x0c' => .crlf
  | '"' => .quote
  | '[' => .lbrack
  | ']' => .rbrack
  | '/' => .slash
  | ':' => .colon
  | '-' => .hyphen
  | '+' => .plus
  | '?' => .question
  | c => if '0'.toNat ≤ c.toNat ∧ c.toNat ≤ '9'.toNat then .digit else .token

/-- The places in `buf_points`. `TZ` is one that no format uses. -/
inductive Field where
  | addr
  | refer
  | agent
  | method
  | url
  | rfc
  | proto
  | date
  | month
  | year
  | hour
  | minute
  | upSec
  | code
  | bytes
  deriving DecidableEq, Repr

/-- A state: `save_field_num`, without the negative numbers of fields that are not saved, and
`field_endings`. -/
structure LineState where
  save : Option Field
  ending : CharClass
  deriving DecidableEq, Repr

/-- What follows a '%': the field it saves, if any. -/
def fieldCode (c : Char) : Option (Option Field) :=
  match c with
  | 'H' => some (some .addr)
  | 'R' => some (some .refer)
  | 'U' => some (some .agent)
  | 'D' => some (some .date)
  | 'M' => some (some .month)
  | 'Y' => some (some .year)
  | 'h' => some (some .hour)
  | 'm' => some (some .minute)
  | 's' => some (some .upSec)
  | 'z' => some none
  | 'e' => some (some .method)
  | 'f' => some (some .url)
  | 'u' => some (some .rfc)
  | 'P' => some (some .proto)
  | 'c' => some (some .code)
  | 'b' => some (some .bytes)
  | 'j' => some none
  | _ => none

/-- The separators that stand for themselves. -/
def separator (c : Char) : Option CharClass :=
  match c with
  | '"' => some .quote
  | '[' => some .lbrack
  | ']' => some .rbrack
  | '/' => some .slash
  | ':' => some .colon
  | '-' => some .hyphen
  | '+' => some .plus
  | '?' => some .question
  | ' ' => some .wspace
  | _ => none

/-- `SKIPP_STATE`: the end of the state, which is one of its own if no field was started. -/
def skippState (started : Option (Option Field)) (x : CharClass) (states : List LineState) :
    List LineState :=
  states ++ [⟨started.getD none, x⟩]

/-- The loop of `parse_log_format`. `started` is the field of a '%' that has no end yet,
`required` is `required_fields`. -/
def parseStates : Str → Option (Option Field) → List LineState → Nat →
    Option (List LineState × Nat)
  | [], started, states, required => some (skippState started .crlf states, required)
  | '%' :: c :: cs, started, states, required =>
    match started, fieldCode c with
    | none, some field => parseStates cs (some field) states required
    | _, _ => none
  | '\\' :: 'w' :: cs, started, states, required =>
    parseStates cs none (skippState started .wspace states) required
  | '\\' :: 'o' :: cs, started, states, _ => parseStates cs started states states.length
  | c :: cs, started, states, required =>
    match separator c with
    | some x => parseStates cs none (skippState started x states) required
    | none => none

/-- `parse_log_format`: the states and what is returned, `required_fields || state_pos`. -/
def parseLogFormat (logFormat : Str) : Option (List LineState × Nat) :=
  if logFormat = [] then none
  else (parseStates logFormat none [] 0).map fun (states, required) =>
    (states, if required ≠ 0 ∨ states.length ≠ 0 then 1 else 0)

end Caudium.UltraLog
