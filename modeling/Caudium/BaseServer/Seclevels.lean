import Caudium.BaseServer.CheckSecurity
import Caudium.Http.ParseGot
import Caudium.Lib.Replace
import Caudium.Lib.Search
import Mathlib.Data.Int.Bitwise

/-!
# `query_seclevels`

The patterns of a module, as `check_security` goes through them, are read from a setting of one
directive a line. The addresses of an `allow ip`, `accept ip` or `deny ip` come in three forms that
are told apart by counting separators: a network with a number of bits, a network with a mask, and
a pattern with wildcards, which is translated to a regular expression. Those of the user and group
directives are anchored at both ends; this one is not.
-/

namespace Caudium.BaseServer.Seclevels

open Lib (Str Mapping cut replaceAll)
open Http (castInt lowerCase splitOn)

/-- What is used from outside: whether the module is a proxy, and `Regexp`, with the `match` of
what it makes of a text; `none` when it throws. -/
structure Env where
  proxy : Bool
  regexp : Str → Option (Str → Bool)

/-! ## `IP_with_mask` -/

/-- `class IP_with_mask`. -/
structure IPWithMask where
  net : Int
  mask : Int

/-- `_mask`: a number of bits, or an address. -/
inductive Mask
  | bits (n : Int)
  | ip (s : Str)

def ipToInt (ip : Str) : Int :=
  ((splitOn '.' ip ++ [['0'], ['0'], ['0']]).take 4).foldl (fun res num => res * 256 + castInt num) 0

/-- More than 32 bits are 32. -/
def Mask.toInt : Mask → Int
  | .bits n => (-1 : Int) <<< (32 - min n 32)
  | .ip s => ipToInt s

/-- Bits of the network outside the mask are reported and ignored. -/
def IPWithMask.create (ip : Str) (mask : Mask) : IPWithMask where
  net := if Int.land (ipToInt ip) (Int.lnot mask.toInt) = 0 then ipToInt ip
    else Int.land (ipToInt ip) mask.toInt
  mask := mask.toInt

/-- A call. -/
def IPWithMask.call (m : IPWithMask) (ip : Str) : Option Bool :=
  some (Int.land (ipToInt ip) m.mask = m.net)

/-! ## The directives -/

/-- `replace(value, ({ "?", ".", "*" }), ({ ".", "\\.", ".*" }))`. -/
def translate (value : Str) : Str :=
  replaceAll [(['?'], ['.']), (['.'], ['\\', '.']), (['*'], ['.', '*'])] value

/-- `Regexp(value)->match`. -/
def regexpTest (env : Env) (value : Str) : Option Test :=
  (env.regexp value).map fun m s => some (m s)

/-- The test of an `allow ip`, `accept ip` or `deny ip`. -/
def ipTest (env : Env) (value : Str) : Option Test :=
  match splitOn '/' value with
  | [ip, bits] => some (IPWithMask.create ip (.bits (castInt bits))).call
  | _ =>
    match splitOn ':' value with
    | [ip, mask] => some (IPWithMask.create ip (.ip mask)).call
    | _ =>
      match splitOn ',' value with
      | ip :: mask :: _ => some (IPWithMask.create ip (.ip mask)).call
      | _ => regexpTest env (translate value)

/-- The names of a list. -/
def names (value : Str) : List Str := (splitOn ',' (translate value)).filter (· ≠ [])

def isAny (name : Str) : Bool := lowerCase name = "any".toList

def anchored (name : Str) : Str := "(^".toList ++ name ++ "$)".toList

/-- One expression of the names. -/
def oneOf (env : Env) (rule : Test → Rule) : List Str → Option (List Rule)
  | [] => some []
  | block => (regexpTest env (['|'].intercalate block)).map fun test => [rule test]

/-- The loop over the users, 16 to an expression; `block` are those of the one that is being put
together. -/
def userRules (env : Env) (rule : Test → Rule) : List Str → List Str → Option (List Rule)
  | block, [] => oneOf env rule block
  | block, user :: users =>
    if isAny user then (oneOf env rule block).map (rule (fun _ => some true) :: ·)
    else if block.length = 15 then do
      let full ← oneOf env rule (block ++ [anchored user])
      let rest ← userRules env rule [] users
      pure (full ++ rest)
    else userRules env rule (block ++ [anchored user]) users

/-- The groups. -/
def groupRules (env : Env) (groups : List Str) : Option (List Rule) :=
  (oneOf env .acceptGroup ((groups.filter fun g => !isAny g).map anchored)).map
    ((groups.filter isAny).map (fun _ => .acceptGroup fun _ => some true) ++ ·)

/-- The loop over the users with levels; a user without one throws. -/
def levelRules : Mapping Str Str → List Str → Option (List Rule)
  | userlevels, [] => some [.userSeclevel userlevels]
  | userlevels, user :: users =>
    match splitOn ':' user with
    | name :: level :: _ =>
      if isAny name then
        some [.userSeclevel ((∅ : Mapping Str Str).insert "any".toList level),
          .userSeclevel userlevels]
      else levelRules (userlevels.insert name level) users
    | _ => none

/-- The patterns of a directive. Those that are not known are reported. -/
def directive (env : Env) (type value : Str) : Option (List Rule) :=
  if lowerCase type = "allowip".toList then (ipTest env value).map fun test => [.allow test]
  else if lowerCase type = "acceptip".toList then
    (ipTest env value).map fun test => [.accept test]
  else if lowerCase type = "denyip".toList then (ipTest env value).map fun test => [.deny test]
  else if lowerCase type = "allowuser".toList then
    userRules env (if env.proxy then .proxyUser else .user) [] (names value)
  else if lowerCase type = "acceptuser".toList then
    userRules env (if env.proxy then .proxyUser else .acceptUser) [] (names value)
  else if lowerCase type = "acceptgroup".toList then groupRules env (names value)
  else if lowerCase type = "secuname".toList then levelRules ∅ (names value)
  else some []

/-- One line. Comments are skipped, and a line without "=" is reported. -/
def readLine (env : Env) (sl : Str) : Option (List Rule) :=
  if sl = [] ∨ sl.head? = some '#' then some []
  else
    match cut sl ['='] with
    | some (type, value) => directive env type value
    | none => some []

/-- The lines of the setting, without blanks. -/
def settingLines (seclevels : Str) : List Str :=
  splitOn '\n' (replaceAll [([' '], []), (['\t'], []), (['\\', '\n'], [])] seclevels)

/-- `query_seclevels`, of a module with the setting, if it has it. -/
def querySeclevels (env : Env) : Option Str → Option (List Rule)
  | none => some []
  | some seclevels =>
    (settingLines seclevels).foldlM (fun patterns sl => (readLine env sl).map (patterns ++ ·)) []

/-- The patterns are those of the lines, in their order. -/
theorem querySeclevels_eq (env : Env) (seclevels : Str) :
    querySeclevels env (some seclevels) =
      ((settingLines seclevels).mapM (readLine env)).map List.flatten := by
  have hfrom : ∀ (sls : List Str) (patterns : List Rule),
      sls.foldlM (fun patterns sl => (readLine env sl).map (patterns ++ ·)) patterns =
        (sls.mapM (readLine env)).map fun rules => patterns ++ rules.flatten := by
    intro sls
    induction sls with
    | nil => intro patterns; simp
    | cons sl sls ih =>
      intro patterns
      rw [List.foldlM_cons, List.mapM_cons]
      cases readLine env sl with
      | none => rfl
      | some rules =>
        show sls.foldlM _ (patterns ++ rules) = _
        rw [ih]
        cases hrest : sls.mapM (readLine env) with
        | none => rfl
        | some rest => simp
  exact hfrom _ _

end Caudium.BaseServer.Seclevels
