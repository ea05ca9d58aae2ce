import Caudium.Lib.Mapping
import Caudium.Lib.Runs

/-!
# The master authentication module

`authenticate` asks the providers in turn, and remembers a password that was right as a digest in
the user's cached record. The records are found by the user's name, so a digest in one is of that
user, and a call that finds it answers as the providers would (`authenticate_eq`). What is decided
before either is whether an empty password is let through, and that is decided the wrong way round.
-/

namespace Caudium.Auth

open Lib (Str Mapping)

/-- A user id: a number or a text. -/
inductive Uid
  | int (n : Int)
  | str (s : Str)
  deriving DecidableEq

/-- False in a condition. -/
def Uid.isZero : Uid → Bool
  | .int n => n = 0
  | .str _ => false

/-- Behind a text. -/
def Uid.text : Uid → Str
  | .int n => (toString n).toList
  | .str s => s

/-- What a provider says of a user; `none` is 0. -/
structure Info where
  username : Option Str
  uid : Uid
  name : Option Str
  primaryGroup : Option Str
  groups : Option (List Str)

/-- Nothing is missing. A user with the id 0 counts as incomplete. -/
def Info.complete (i : Info) : Bool :=
  i.username.isSome && !i.uid.isZero && i.name.isSome && i.primaryGroup.isSome && i.groups.isSome

/-- A provider, with the functions that it has. -/
structure Provider where
  authenticate : Option (Str → Str → Int)
  getUserInfo : Option (Str → Option Info)

/-- The module's settings and what it uses. Digests are of any type. -/
structure Env (δ : Type) where
  providers : List Provider
  hashMd5 : Str → δ
  allowemptypass : Bool

variable {δ : Type}

/-- The record of a user, and "__authdata" in it. -/
structure Record (δ : Type) where
  info : Info
  authdata : Option δ

/-- What the cache holds: records, and names under user ids. -/
inductive Cached (δ : Type)
  | user (r : Record δ)
  | name (s : Str)

abbrev Cache (δ : Type) := Mapping Str (Cached δ)

structure State (δ : Type) where
  cache : Cache δ
  succ : Nat
  fail : Nat
  nouser : Nat

def userKey (username : Str) : Str := "user-".toList ++ username

def uidKey (uid : Uid) : Str := "uid-".toList ++ uid.text

/-- `call_provider`: the first answer of a function, in which `none` stands for no function and for
an integer that is not positive. -/
def callProvider {ρ : Type} (env : Env δ) (f : Provider → Option ρ) : Option ρ :=
  env.providers.findSome? f

/-- `low_authenticate`. -/
def lowAuthenticate (env : Env δ) (user password : Str) : Int :=
  (callProvider env fun mod => mod.authenticate.bind fun f =>
    if 0 < f user password then some (f user password) else none).getD 0

/-- `set_user_info`. -/
def setUserInfo (username : Str) (r : Record δ) (cache : Cache δ) : Cache δ :=
  let cache := cache.insert (userKey username) (.user r)
  if r.info.uid = .str [] then cache
  else cache.insert (uidKey r.info.uid) (.name (r.info.username.getD []))

/-- The information that is complete. -/
def userInfo (env : Env δ) (username : Str) : Option Info :=
  (callProvider env fun mod => mod.getUserInfo.bind fun f => f username).filter Info.complete

/-- `low_get_user_info`. -/
def lowGetUserInfo (env : Env δ) (username : Str) (cache : Cache δ) :
    Option (Cached δ) × Cache δ :=
  match userInfo env username with
  | none => (none, cache)
  | some info => (some (.user ⟨info, none⟩), setUserInfo username ⟨info, none⟩ cache)

/-- `get_user_info`. -/
def getUserInfo (env : Env δ) (username : Str) (cache : Cache δ) : Option (Cached δ) × Cache δ :=
  match cache.lookup (userKey username) with
  | some c => (some c, cache)
  | none => lowGetUserInfo env username cache

/-- What a password is remembered as. -/
def digest (env : Env δ) (user password : Str) : δ := env.hashMd5 (user ++ '|' :: password)

/-- `authenticate`, of a user and a password; `none` if it throws, as it would if the record were
none. -/
def authenticate [DecidableEq δ] (env : Env δ) (s : State δ) (user password : Str) :
    Option Int × State δ :=
  if env.allowemptypass && password = [] then (some 0, s)
  else
    match getUserInfo env user s.cache with
    | (none, cache) => (some 0, { s with cache, fail := s.fail + 1, nouser := s.nouser + 1 })
    | (some (.name _), cache) => (none, { s with cache })
    | (some (.user data), cache) =>
      if data.authdata = some (digest env user password) then
        (some 1, { s with cache, succ := s.succ + 1 })
      else
        let auth := lowAuthenticate env user password
        if auth = 0 ∨ auth = -1 then (some 0, { s with cache, fail := s.fail + 1 })
        else
          let data := { data with authdata := some (digest env user password) }
          (some 1, { s with cache := setUserInfo user data cache, succ := s.succ + 1 })

/-- Calls, and entries that expire. -/
inductive Event
  | call (user password : Str)
  | expire (keys : List Str)

def step [DecidableEq δ] (env : Env δ) (s : State δ) : Event → Option (State δ)
  | .call user password => some (authenticate env s user password).2
  | .expire keys => some { s with cache := s.cache.eraseAll keys }

/-- With an empty cache. -/
def State.empty : State δ := ⟨∅, 0, 0, 0⟩

/-- A provider accepts the password. -/
def Accepted (env : Env δ) (user password : Str) : Prop :=
  ∃ mod ∈ env.providers, ∃ f, mod.authenticate = some f ∧ 0 < f user password

/-- The user is known and the password accepted. -/
def Known (env : Env δ) (user password : Str) : Prop :=
  (userInfo env user).isSome = true ∧ Accepted env user password

open Classical in
/-- What a call is to answer. -/
noncomputable def rightAnswer (env : Env δ) (user password : Str) : Int :=
  if Known env user password ∧ (password ≠ [] ∨ env.allowemptypass = true) then 1 else 0

variable {env : Env δ}

theorem lowAuthenticate_pos_iff (env : Env δ) (user password : Str) :
    0 < lowAuthenticate env user password ↔ Accepted env user password := by
  rw [lowAuthenticate, callProvider, Accepted]
  induction env.providers with
  | nil => simp
  | cons mod mods ih =>
    rw [List.exists_mem_cons_iff, List.findSome?_cons]
    cases hmod : mod.authenticate with
    | none => simpa using ih
    | some f =>
      rw [Option.bind_some]
      by_cases hpos : 0 < f user password
      · rw [if_pos hpos]
        exact iff_of_true hpos (.inl ⟨f, rfl, hpos⟩)
      · rw [if_neg hpos]
        simpa [hpos] using ih

/-- It is positive or 0. -/
theorem lowAuthenticate_nonneg (env : Env δ) (user password : Str) :
    0 ≤ lowAuthenticate env user password := by
  rw [lowAuthenticate]
  cases hfirst : callProvider env fun mod => mod.authenticate.bind fun f =>
      if 0 < f user password then some (f user password) else none with
  | none => exact Int.le_refl 0
  | some n =>
    obtain ⟨mod, _, hmod⟩ := List.exists_of_findSome?_eq_some hfirst
    obtain ⟨f, _, hf⟩ := Option.bind_eq_some_iff.mp hmod
    split at hf
    next hpos =>
      rw [← Option.some.inj hf]
      exact Int.le_of_lt hpos
    next => cases hf

/-! ## What the cache holds -/

/-- Under a user's name there is the record of that user, and the digest in it is of a password that
a provider accepts. -/
def Sound (env : Env δ) (cache : Cache δ) : Prop :=
  ∀ user c, cache.lookup (userKey user) = some c → ∃ r, c = .user r ∧
    userInfo env user = some r.info ∧
      ∀ d, r.authdata = some d → ∃ p, d = digest env user p ∧ Accepted env user p

theorem userKey_inj {u u' : Str} : userKey u = userKey u' ↔ u = u' := List.append_right_inj _

theorem userKey_ne_uidKey (u : Str) (uid : Uid) : userKey u ≠ uidKey uid := by
  intro h
  have hsecond := (List.cons.inj (List.cons.inj h).2).1
  revert hsecond
  decide

theorem sound_empty (env : Env δ) : Sound env ∅ := nofun

theorem Sound.expire {cache : Cache δ} (h : Sound env cache) (keys : List Str) :
    Sound env (cache.eraseAll keys) := by
  intro user c hc
  rw [Lib.Mapping.lookup_eraseAll] at hc
  split at hc
  next => cases hc
  next => exact h user c hc

/-- A record that is right may be stored. -/
theorem Sound.set {cache : Cache δ} (h : Sound env cache) {user : Str} {r : Record δ}
    (hinfo : userInfo env user = some r.info)
    (hauth : ∀ d, r.authdata = some d → ∃ p, d = digest env user p ∧ Accepted env user p) :
    Sound env (setUserInfo user r cache) := by
  have hstored : Sound env (cache.insert (userKey user) (.user r)) := by
    intro user' c hc
    rcases Lib.Mapping.lookup_insert_cases hc with ⟨he, rfl⟩ | ⟨-, hc⟩
    · rw [userKey_inj.1 he]
      exact ⟨r, rfl, hinfo, hauth⟩
    · exact h user' c hc
  rw [setUserInfo]
  split
  next => exact hstored
  next =>
    intro user' c hc
    rw [AList.lookup_insert_ne (userKey_ne_uidKey user' _)] at hc
    exact hstored user' c hc

/-- What is found of a user is right, and stays so. -/
theorem Sound.getUserInfo {cache : Cache δ} (h : Sound env cache) (user : Str) :
    Sound env (getUserInfo env user cache).2 ∧
      ((getUserInfo env user cache).1 = none ∧ userInfo env user = none ∨
        ∃ r, (getUserInfo env user cache).1 = some (.user r) ∧ userInfo env user = some r.info ∧
          ∀ d, r.authdata = some d → ∃ p, d = digest env user p ∧ Accepted env user p) := by
  rw [Auth.getUserInfo]
  cases hc : cache.lookup (userKey user) with
  | some c =>
    obtain ⟨r, rfl, hr⟩ := h user c hc
    exact ⟨h, .inr ⟨r, rfl, hr⟩⟩
  | none =>
    dsimp only
    rw [lowGetUserInfo]
    cases hinfo : userInfo env user with
    | none => exact ⟨h, .inl ⟨rfl, rfl⟩⟩
    | some info => exact ⟨h.set hinfo nofun, .inr ⟨_, rfl, rfl, nofun⟩⟩

open Classical in
/-- **A call** with such a cache: what it answers does not depend on the cache. -/
theorem authenticate_eq [DecidableEq δ] {s : State δ} (h : Sound env s.cache) (user password : Str)
    (hhash : ∀ q, digest env user q = digest env user password → q = password) :
    (authenticate env s user password).1 =
      some (if env.allowemptypass = true ∧ password = [] then 0
        else if Known env user password then 1 else 0) := by
  rw [authenticate]
  by_cases hempty : env.allowemptypass = true ∧ password = []
  · rw [if_pos (by simp [hempty]), if_pos hempty]
  rw [if_neg (by simpa using hempty), if_neg hempty]
  obtain ⟨hsound, ⟨hnone, hinfo⟩ | ⟨r, hsome, hinfo, hauth⟩⟩ := h.getUserInfo user
  · have hpair : getUserInfo env user s.cache = (none, (getUserInfo env user s.cache).2) :=
      Prod.ext hnone rfl
    have hunknown : ¬ Known env user password := by
      rw [Known, hinfo]
      exact fun hknown => nomatch hknown.1
    rw [hpair, if_neg hunknown]
  · have hpair : getUserInfo env user s.cache =
        (some (.user r), (getUserInfo env user s.cache).2) := Prod.ext hsome rfl
    have hknown : Known env user password ↔ Accepted env user password := by
      rw [Known, hinfo]
      exact and_iff_right rfl
    rw [hpair]
    dsimp only
    by_cases hcached : r.authdata = some (digest env user password)
    · -- the digest is of a password that was right, and of no other
      obtain ⟨q, hq, haccepted⟩ := hauth _ hcached
      rw [hhash q hq.symm] at haccepted
      rw [if_pos hcached, if_pos (hknown.mpr haccepted)]
    · rw [if_neg hcached]
      have hnonneg := lowAuthenticate_nonneg env user password
      by_cases haccepted : Accepted env user password
      · have hpos := (lowAuthenticate_pos_iff env user password).mpr haccepted
        rw [if_neg (by omega), if_pos (hknown.mpr haccepted)]
      · have hpos := mt (lowAuthenticate_pos_iff env user password).mp haccepted
        rw [if_pos (by omega), if_neg (mt hknown.mp haccepted)]

theorem Sound.call [DecidableEq δ] {s : State δ} (h : Sound env s.cache) (user password : Str) :
    Sound env (authenticate env s user password).2.cache := by
  obtain ⟨hsound, hfound⟩ := h.getUserInfo user
  rw [authenticate]
  split
  next => exact h
  next =>
    cases hget : Auth.getUserInfo env user s.cache with
    | mk c cache =>
      rw [hget] at hsound hfound
      obtain ⟨rfl, _⟩ | ⟨r, rfl, hinfo, hauth⟩ := hfound
      · exact hsound
      · dsimp only
        split
        next => exact hsound
        next =>
          split
          next => exact hsound
          next hpositive =>
            refine hsound.set hinfo fun d hd => ⟨password, (Option.some.inj hd).symm, ?_⟩
            have hnonneg := lowAuthenticate_nonneg env user password
            exact (lowAuthenticate_pos_iff env user password).mp (by omega)

theorem sound_run [DecidableEq δ] {events : List Event} {s : State δ}
    (hrun : Lib.runFrom (step env) .empty events = some s) : Sound env s.cache := by
  refine Lib.inv_of_runFrom (P := fun s => Sound env s.cache) (Q := fun _ => True) ?_ events .empty s
    (fun _ _ => trivial) (sound_empty env) hrun
  intro s event s' _ h hstep
  cases event with
  | call user password =>
    obtain rfl := Option.some.inj hstep
    exact h.call user password
  | expire keys =>
    obtain rfl := Option.some.inj hstep
    exact h.expire keys

/-- A provider with a user who has no password. -/
def guests : Provider where
  authenticate := some fun user _ => if user = "guest".toList then 1 else 0
  getUserInfo := some fun user => if user = "guest".toList then
      some ⟨some "guest".toList, .int 99, some "Guest".toList, some "guests".toList, some []⟩
    else none

/-- Empty passwords are not allowed. -/
def guestHouse : Env Str where
  providers := [guests]
  hashMd5 := id
  allowemptypass := false

end Caudium.Auth
