import Caudium.Filesystem.FindFile
import Caudium.Http.ParseGot
import Caudium.Lib.Runs
import Mathlib.Data.List.TakeWhile

/-!
# Session URI rules

`check_access` decides whether a page gets a session. The expressions are compiled at the first
request and again when their number is another one; a change of their text, or of the mode, that
leaves the number as it is leaves the old ones in force. They are made lower case and the directory
is not, so a directory with capitals is matched by nothing that has letters in it.

`checkAccess_right` is about any changes of the settings and requests in any order.
-/

namespace Caudium.Gsession

open Lib (Str EachStep)
open Http (lowerCase splitOn)
open Filesystem (dirname)

/-- "urimode". -/
inductive UriMode
  | include
  | exclude
  deriving DecidableEq

/-- The settings. -/
structure AccessConf where
  urimode : UriMode
  includeuris : Str
  excludeuris : Str
  excludefiles : Str

/-- The lines of a setting. -/
def settingOf (s : Str) : List Str := (splitOn '\n' s).filter (· ≠ [])

/-- `ra`: the expressions of the mode. -/
def AccessConf.uris (conf : AccessConf) : List Str :=
  match conf.urimode with
  | .include => settingOf conf.includeuris
  | .exclude => settingOf conf.excludeuris

/-- The expressions as they are to be compiled. -/
def AccessConf.expressions (conf : AccessConf) : List Str := conf.uris.map lowerCase

/-- The file type, if it is one that gets no session. -/
def AccessConf.excludes (conf : AccessConf) (query : Str) : Bool :=
  let ext := (splitOn '.' query).getLastD []
  ext ≠ [] && ext ∈ settingOf conf.excludefiles

/-- The directory. -/
def pathOf (query : Str) : Str := if dirname query = [] then ['/'] else dirname query

/-- `Regexp`: the `match` of an expression; `none` when it throws. -/
abbrev Regexp := Str → Option (Str → Bool)

/-- An expression that was compiled, matched. -/
def matchesPath (regexp : Regexp) (path e : Str) : Bool :=
  match regexp e with
  | some m => m path
  | none => false

def UriMode.answer (mode : UriMode) (res : Bool) : Bool :=
  match mode with
  | .include => res
  | .exclude => !res

/-- What follows the compilation. -/
def decideBy (regexp : Regexp) (mode : UriMode) (expressions : List Str) (path : Str) : Bool :=
  expressions = [] || mode.answer (expressions.any (matchesPath regexp path))

/-- `check_access` of `id->not_query`, with `uri_regexps` before and after it; `none` if it throws.
A compilation that throws leaves those that were compiled. -/
def checkAccess (regexp : Regexp) (conf : AccessConf) (uriRegexps : List Str) :
    Option Str → Option Bool × List Str
  | none => (some true, uriRegexps)
  | some query =>
    if conf.excludes query then (some false, uriRegexps)
    else if conf.uris.length ≠ uriRegexps.length then
      let compiled := conf.expressions.takeWhile fun e => (regexp e).isSome
      if compiled.length = conf.uris.length then
        (some (decideBy regexp conf.urimode compiled (pathOf query)), compiled)
      else (none, compiled)
    else (some (decideBy regexp conf.urimode uriRegexps (pathOf query)), uriRegexps)

/-- What the settings say, without regard to letter case. -/
def decided (regexp : Regexp) (conf : AccessConf) : Option Str → Option Bool
  | none => some true
  | some query =>
    if conf.excludes query then some false
    else if ∀ e ∈ conf.expressions, (regexp e).isSome then
      some (decideBy regexp conf.urimode conf.expressions (lowerCase (pathOf query)))
    else none

/-- The module: its settings and `uri_regexps`. -/
structure Module where
  conf : AccessConf
  uriRegexps : List Str

/-- Changes of the settings, and requests. -/
inductive Event
  | change (conf : AccessConf)
  | request (query : Option Str)

def Module.step (regexp : Regexp) (m : Module) : Event → Option Module
  | .change conf => some { m with conf }
  | .request query => some { m with uriRegexps := (checkAccess regexp m.conf m.uriRegexps query).2 }

/-- A request is answered as the settings say, and as a module that has just been started does. -/
def Module.Right (regexp : Regexp) (m : Module) : Event → Prop
  | .change _ => True
  | .request query =>
    (checkAccess regexp m.conf m.uriRegexps query).1 = decided regexp m.conf query ∧
      (checkAccess regexp m.conf m.uriRegexps query).1 = (checkAccess regexp m.conf [] query).1

/-- A request for a file that the expressions are for comes after no change to as many other ones;
and its directory has no capitals, unless there are no expressions. -/
def Module.Meets (m : Module) : Event → Prop
  | .change _ => True
  | .request none => True
  | .request (some query) => m.conf.excludes query = false →
    (m.conf.uris.length ≠ m.uriRegexps.length ∨ m.uriRegexps = m.conf.expressions) ∧
      (m.conf.uris = [] ∨ lowerCase (pathOf query) = pathOf query)

variable {regexp : Regexp} {conf : AccessConf}

theorem takeWhile_compiled (regexp : Regexp) (es : List Str) :
    (es.takeWhile fun e => (regexp e).isSome).length = es.length ↔
      ∀ e ∈ es, (regexp e).isSome = true := by
  constructor
  · intro h e he
    have hall := (List.takeWhile_sublist (fun e => (regexp e).isSome)).eq_of_length h
    rw [← hall] at he
    exact @List.mem_takeWhile_imp _ (fun e => (regexp e).isSome) _ _ he
  · intro h
    rw [List.takeWhile_eq_self_iff.mpr h]

theorem length_expressions (conf : AccessConf) : conf.expressions.length = conf.uris.length :=
  List.length_map _

/-- **After a compilation** the answer is that of a new module. -/
theorem checkAccess_fresh {uriRegexps : List Str} {query : Str} (h : conf.excludes query = false)
    (hcompiled : ∀ e ∈ uriRegexps, (regexp e).isSome = true)
    (hfresh : conf.uris.length ≠ uriRegexps.length ∨ uriRegexps = conf.expressions) :
    (checkAccess regexp conf uriRegexps (some query)).1 =
      if ∀ e ∈ conf.expressions, (regexp e).isSome then
        some (decideBy regexp conf.urimode conf.expressions (pathOf query))
      else none := by
  rw [checkAccess, h, if_neg Bool.false_ne_true]
  by_cases hlen : conf.uris.length = uriRegexps.length
  · have hsame := hfresh.resolve_left fun hne => hne hlen
    rw [if_neg (not_not.mpr hlen), ← hsame, if_pos hcompiled]
  · rw [if_pos hlen]
    dsimp only
    rw [← length_expressions]
    by_cases hall : ∀ e ∈ conf.expressions, (regexp e).isSome = true
    · rw [if_pos ((takeWhile_compiled regexp _).mpr hall), if_pos hall,
        List.takeWhile_eq_self_iff.mpr hall]
    · rw [if_neg (fun heq => hall ((takeWhile_compiled regexp _).mp heq)), if_neg hall]

/-- What is compiled stays so. -/
theorem checkAccess_compiled {uriRegexps : List Str}
    (hcompiled : ∀ e ∈ uriRegexps, (regexp e).isSome = true) (query : Option Str) :
    ∀ e ∈ (checkAccess regexp conf uriRegexps query).2, (regexp e).isSome = true := by
  cases query with
  | none => exact hcompiled
  | some query =>
    have hprefix : ∀ e ∈ conf.expressions.takeWhile fun e => (regexp e).isSome,
        (regexp e).isSome = true := fun e he =>
      @List.mem_takeWhile_imp _ (fun e => (regexp e).isSome) _ _ he
    rw [checkAccess]
    split
    next => exact hcompiled
    next =>
      split
      next =>
        dsimp only
        split
        next => exact hprefix
        next => exact hprefix
      next => exact hcompiled

/-- The directory with capitals is matched as the one without is, if there are none. -/
theorem decideBy_lowerCase {query : Str}
    (h : conf.uris = [] ∨ lowerCase (pathOf query) = pathOf query) :
    decideBy regexp conf.urimode conf.expressions (pathOf query) =
      decideBy regexp conf.urimode conf.expressions (lowerCase (pathOf query)) := by
  obtain hnone | hsame := h
  · rw [AccessConf.expressions, hnone]
    rfl
  · rw [hsame]

/-- **One request**. -/
theorem Module.right_of_meets {m : Module}
    (hcompiled : ∀ e ∈ m.uriRegexps, (regexp e).isSome = true) {event : Event}
    (h : m.Meets event) : m.Right regexp event := by
  match event, h with
  | .change conf, _ => trivial
  | .request none, _ => exact ⟨rfl, rfl⟩
  | .request (some query), h =>
    cases hexcluded : m.conf.excludes query with
    | true =>
      have hall : ∀ es, (checkAccess regexp m.conf es (some query)).1 = some false := by
        intro es
        rw [checkAccess, hexcluded, if_pos rfl]
      refine ⟨?_, (hall _).trans (hall _).symm⟩
      rw [hall, decided, hexcluded, if_pos rfl]
    | false =>
      obtain ⟨hfresh, hcase⟩ := h hexcluded
      have hnew : m.conf.uris.length ≠ ([] : List Str).length ∨ [] = m.conf.expressions := by
        by_cases huris : m.conf.uris = []
        · exact .inr (by rw [AccessConf.expressions, huris]; rfl)
        · exact .inl fun hlen => huris (List.eq_nil_of_length_eq_zero hlen)
      have hempty : ∀ e ∈ ([] : List Str), (regexp e).isSome = true := nofun
      refine ⟨?_, ?_⟩
      · rw [checkAccess_fresh hexcluded hcompiled hfresh, decided, hexcluded,
          if_neg Bool.false_ne_true, decideBy_lowerCase hcase]
      · rw [checkAccess_fresh hexcluded hcompiled hfresh, checkAccess_fresh hexcluded hempty hnew]

/-- **Changes and requests** in any order: each request that meets the condition is answered as the
settings say. -/
theorem checkAccess_right (regexp : Regexp) (conf : AccessConf) (events : List Event)
    (h : EachStep (Module.step regexp) Module.Meets ⟨conf, []⟩ events) :
    EachStep (Module.step regexp) (Module.Right regexp) ⟨conf, []⟩ events := by
  have hrun : ∀ (events : List Event) (m : Module),
      (∀ e ∈ m.uriRegexps, (regexp e).isSome = true) →
        EachStep (Module.step regexp) Module.Meets m events →
        EachStep (Module.step regexp) (Module.Right regexp) m events := by
    intro events
    induction events with
    | nil => exact fun _ _ _ => trivial
    | cons event events ih =>
      intro m hcompiled hmeets
      refine ⟨Module.right_of_meets hcompiled hmeets.1, fun m' hstep => ih m' ?_ (hmeets.2 m' hstep)⟩
      cases event with
      | change conf =>
        obtain rfl := Option.some.inj hstep
        exact hcompiled
      | request query =>
        obtain rfl := Option.some.inj hstep
        exact checkAccess_compiled hcompiled query
  exact hrun events ⟨conf, []⟩ nofun h

/-! ## Another expression -/

/-- `Regexp`, of texts without special characters. -/
def textRegexp : Regexp := fun e => some fun s => decide (e <:+: s)

def pagesOf (uris : String) : AccessConf where
  urimode := .include
  includeuris := uris.toList
  excludeuris := []
  excludefiles := []

theorem checkAccess_right_once : EachStep (Module.step textRegexp) (Module.Right textRegexp)
    ⟨pagesOf "/shop", []⟩ [.request (some "/shop/index.html".toList)] := by
  refine checkAccess_right textRegexp (pagesOf "/shop") _ ⟨fun _ => ⟨.inl ?_, .inr ?_⟩, ?_⟩
  · decide
  · decide
  · exact fun _ _ => trivial

/-- The expression is changed, and the old one is still in force. -/
theorem old_expression_stays : ¬ EachStep (Module.step textRegexp) (Module.Right textRegexp)
    ⟨pagesOf "/shop", []⟩ [.request (some "/shop/index.html".toList), .change (pagesOf "/club"),
      .request (some "/club/index.html".toList)] := by
  intro h
  have hlast := (((h.2 _ rfl).2 _ rfl).1).1
  revert hlast
  decide

end Caudium.Gsession
