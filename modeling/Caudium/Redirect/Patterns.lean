import Caudium.Http.ParseGot
import Caudium.Lib.Mapping
import Caudium.Lib.Replace
import Caudium.Lib.Search

/-!
# The redirect module (redirect.pike): patterns

`start` reads a pattern from each line of the configuration; `first_try` takes the first pattern
that matches the request and expands what it answers. A pattern answers with its destination,
or with something made of it and of the text that it has matched.

`Regexp` and `glob` are Pike's own; an expression is kept as its text.
-/

namespace Caudium.Redirect

open Lib (Str Mapping cut replaceAll)
open Http (lowerCase splitOn)

structure Env where
  /-- `Regexp(match)->split`; `none` when the expression cannot be compiled. A part that has not
  matched is `none`. -/
  regexp : Str → Option (Str → Option (List (Option Str)))
  glob : Str → Str → Bool

/-! ## Requests -/

/-- What the module takes from the request. -/
structure RequestID where
  notQuery : Str
  query : Option Str
  raw : Str
  /-- `variables`. -/
  vars : Mapping Str Str
  cookies : Mapping Str Str
  requestHeaders : Mapping Str Str
  /-- `misc->host`. -/
  host : Option Str
  /-- `misc->_host_url`. -/
  hostUrl : Option Str
  /-- `ssl_accept_callback`. -/
  ssl : Bool
  /-- `get_canonical_url()`. -/
  canonicalUrl : Str
  /-- `misc->is_redirected`. -/
  isRedirected : Bool

/-- `s / sep`, with at most `n` cuts. -/
def pieces (sep : Str) : Nat → Str → List Str
  | 0, s => [s]
  | n + 1, s =>
    match cut s sep with
    | none => [s]
    | some (a, rest) => a :: pieces sep n rest

/-- `h[0]`, when `host / p - ({ "" })` is one piece. -/
def withoutPort (host p : Str) : Option Str :=
  match (pieces p host.length host).filter (· ≠ []) with
  | [h] => some h
  | _ => none

/-- The URL that `get_host_url` puts into `misc->_host_url`. -/
def hostUrlOf (id : RequestID) : Str :=
  match id.host with
  | some host =>
    let p := if id.ssl then ":443".toList else ":80".toList
    let prot := if id.ssl then "https://".toList else "http://".toList
    prot ++ (withoutPort host p).getD host
  | none => id.canonicalUrl.dropLast

/-- `get_host_url`. The first call returns what it has put away in lower case, later calls
return it as it is. -/
def getHostUrl (id : RequestID) : Str × RequestID :=
  match id.hostUrl with
  | some url => (url, id)
  | none => (lowerCase (hostUrlOf id), { id with hostUrl := some (hostUrlOf id) })

/-! ## Patterns -/

/-- `ExactMatch`, `RegMatch`, `GlobMatch`, `PrefixMatch`, and the modifiers. -/
inductive Pattern
  | exactMatch (exact dest : Str)
  | regMatch (regexp dest : Str)
  | globMatch (globstring dest : Str)
  | prefixMatch (pre dest : Str)
  | hostModifier (matchObj : Pattern)
  | varModifier (matchObj : Pattern) (var : Str)
  | cookieModifier (matchObj : Pattern) (cookie : Str)
  | headerModifier (matchObj : Pattern) (header : Str)
  deriving DecidableEq

/-- `replace(with, "%", "%%")`. -/
def protect (with_ : Str) : Str := replaceAll [(['%'], ['%', '%'])] with_

/-- `(string)s`, where a part that has not matched is 0. -/
def partText (s : Option Str) : Str := s.getD ['0']

/-- The strings "$1", "$2" and so on with what stands for them, the longest ones first. -/
def groupRules (split : List (Option Str)) : List (Str × Str) :=
  ((split.zipIdx 1).map fun p => ('$' :: (toString p.2).toList, partText p.1)).reverse

/-- `replace(dest, from, split)`. -/
def insertGroups (dest : Str) (split : List (Option Str)) : Str :=
  replaceAll (groupRules split) dest

/-- `sscanf(to, "%s?", to)`. -/
def beforeQuestion (s : Str) : Str :=
  match cut s ['?'] with
  | some (s, _) => s
  | none => s

/-- `match`. -/
def Pattern.answer (env : Env) : Pattern → Str → RequestID → Option Str × RequestID
  | exactMatch exact dest, with_, id => (if exact = with_ then some dest else none, id)
  | regMatch regexp dest, with_, id =>
    match (env.regexp regexp).bind fun split => split (protect with_) with
    | some split => (some (insertGroups dest split), id)
    | none => (none, id)
  | globMatch globstring dest, with_, id =>
    (if env.glob globstring with_ then some dest else none, id)
  | prefixMatch pre dest, with_, id =>
    if pre <+: with_ then (some (beforeQuestion (dest ++ with_.drop pre.length)), id)
    else (none, id)
  | hostModifier matchObj, with_, id =>
    let (url, id) := getHostUrl id
    matchObj.answer env (url ++ with_) id
  | varModifier matchObj var, _, id =>
    match id.vars.lookup var with
    | some value => matchObj.answer env value id
    | none => (none, id)
  | cookieModifier matchObj cookie, _, id =>
    match id.cookies.lookup cookie with
    | some value => matchObj.answer env value id
    | none => (none, id)
  | headerModifier matchObj header, _, id =>
    match id.requestHeaders.lookup header with
    | some value => matchObj.answer env value id
    | none => (none, id)

/-! ## `start` -/

/-- `s / " " - ({ "" })`. -/
def fields (s : Str) : List Str := (splitOn ' ' s).filter (· ≠ [])

/-- `sscanf(a[0], "%s[%s]", a[0], modifier)`. -/
def scanModifier (a : Str) : Str × Option Str :=
  match cut a ['['] with
  | none => (a, none)
  | some (key, rest) => (key, (cut rest [']']).map Prod.fst)

/-- `RegMatch(source, dest)`, unless it throws. -/
def newRegMatch (env : Env) (source dest : Str) : Option Pattern :=
  if (env.regexp source).isSome then some (.regMatch source dest) else none

/-- The `switch` on the keyword. -/
def keywordPattern (env : Env) (key source dest : Str) : Option Pattern :=
  let key := lowerCase key
  if key = "exact".toList then some (.exactMatch source dest)
  else if key ∈ ["regexp".toList, "reg".toList, "rx".toList] then newRegMatch env source dest
  else if key = "glob".toList then some (.globMatch source dest)
  else if key = "prefix".toList then some (.prefixMatch source dest)
  else none

/-- The `switch` on the modifier: what it does with a pattern. -/
def modifierCase (modifier : Str) : Option (Pattern → Pattern) :=
  let name := (cut modifier ['=']).elim modifier Prod.fst
  let value := ((cut modifier ['=']).map Prod.snd).filter (· ≠ [])
  if lowerCase name = "host".toList then some .hostModifier
  else if lowerCase name = "var".toList then value.map fun v p => .varModifier p v
  else if lowerCase name = "cookie".toList then value.map fun v p => .cookieModifier p v
  else if lowerCase name = "header".toList then
    value.map fun v p => .headerModifier p (lowerCase v)
  else none

/-- `new_patterns[-1] = f(new_patterns[-1])`. -/
def modifyLast (f : Pattern → Pattern) (ps : List Pattern) : List Pattern :=
  ps.dropLast ++ (ps.getLast?.map f).toList

/-- A line, with the patterns that there are. -/
def addLine (env : Env) (newPatterns : List Pattern) (s : Str) : List Pattern :=
  match fields s with
  | [a, source, dest] =>
    let (key, modifier) := scanModifier a
    let newPatterns := newPatterns ++ (keywordPattern env key source dest).toList
    match modifier with
    | none => newPatterns
    | some modifier =>
      if newPatterns = [] then newPatterns
      else
        match modifierCase modifier with
        | some f => modifyLast f newPatterns
        | none => newPatterns
  | [source, dest] =>
    newPatterns ++
      (if '*' ∈ source then
        if source.head? = some '^' then newRegMatch env source dest
        else newRegMatch env ('^' :: source) dest
      else some (.prefixMatch source dest)).toList
  | _ => newPatterns

/-- `replace(s, "\t", " ")`. -/
def untab (s : Str) : Str := s.map fun c => if c = '\t' then ' ' else c

/-- `start`: the patterns that it installs. -/
def start (env : Env) (fileredirect : Str) : List Pattern :=
  (splitOn '\n' (untab fileredirect)).foldl (addLine env) []

/-! ## `first_try` -/

/-- The text that patterns are given. -/
def subject (id : RequestID) : Str :=
  match id.query, cut id.raw ['?'] with
  | some _, some (_, rest) =>
    id.notQuery ++ '?' :: rest.takeWhile fun c => c ≠ '\n' && c ≠ '\r' && c ≠ ' '
  | _, _ => id.notQuery

/-- The loop over the patterns. -/
def firstMatch (env : Env) (with_ : Str) : List Pattern → RequestID → Option Str × RequestID
  | [], id => (none, id)
  | pattern :: patterns, id =>
    match pattern.answer env with_ id with
    | (some to_, id) => (some to_, id)
    | (none, id) => firstMatch env with_ patterns id

/-- The last part of the path. -/
def lastPart (notQuery : Str) : Str := ((splitOn '/' notQuery).filter (· ≠ [])).getLastD []

/-- What stands for "%%", "%u", "%h", "%f", "%p", "%q" and "%Q". -/
def tokens (id : RequestID) (hurl : Str) : List (Str × Str) :=
  [(['%', '%'], ['%']), (['%', 'u'], id.canonicalUrl.dropLast), (['%', 'h'], hurl),
    (['%', 'f'], lastPart id.notQuery), (['%', 'p'], id.notQuery.drop 1),
    (['%', 'q'], id.query.elim [] ('?' :: ·)), (['%', 'Q'], id.query.getD [])]

/-- The `replace` with the tokens. -/
def expand (id : RequestID) (hurl to_ : Str) : Str := replaceAll (tokens id hurl) to_

/-- The target that `first_try` computes, and the request with its `_host_url`. -/
def target (env : Env) (patterns : List Pattern) (id : RequestID) : Option Str :=
  match firstMatch env (subject id) patterns id with
  | (none, _) => none
  | (some to_, id) => some (expand id (getHostUrl id).1 to_)

/-- What `first_try` does: nothing, a redirect to another URL, or a new path in this server. -/
inductive Outcome where
  | none
  | location (url : Str)
  | internal (path : Str)
  deriving DecidableEq

/-- "Prevent eternal redirects." -/
def eternal (id : RequestID) (hurl to_ : Str) : Prop :=
  to_ = id.canonicalUrl.dropLast ++ id.notQuery ∨ id.canonicalUrl.dropLast = id.notQuery ∨
    to_ = hurl ++ id.notQuery

instance (id : RequestID) (hurl to_ : Str) : Decidable (eternal id hurl to_) :=
  inferInstanceAs (Decidable (_ ∨ _ ∨ _))

/-- A fully qualified URL. -/
def qualified (to_ : Str) : Prop := 6 < to_.length ∧ ∃ i ∈ [3, 4, 5, 6], to_[i]? = some ':'

instance (to_ : Str) : Decidable (qualified to_) := inferInstanceAs (Decidable (_ ∧ _))

/-- `first_try`. -/
def firstTry (env : Env) (patterns : List Pattern) (id : RequestID) : Outcome :=
  if id.isRedirected then .none
  else
    match firstMatch env (subject id) patterns id with
    | (none, _) => .none
    | (some to_, id) =>
      let hurl := (getHostUrl id).1
      let to_ := expand id hurl to_
      if eternal id hurl to_ then .none
      else if qualified to_ then
        .location (replaceAll [(['\x00'], "%00".toList), ([' '], "%20".toList)] to_)
      else .internal to_

end Caudium.Redirect
