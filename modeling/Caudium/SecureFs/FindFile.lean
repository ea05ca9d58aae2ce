import Caudium.Filesystem.Effects
import Caudium.Http.UrlCodec
import Caudium.SecureFs.Rules

/-!
# The secure file system module (secure_fs.pike): `find_file`

The inherited `find_file` is called first, and only what it returns is kept from a client that
`not_allowed` refuses. What it has changed stays changed.
-/

namespace Caudium.SecureFs

open Lib (Str cut)
open Http (castInt)
open Filesystem (Disk Change Acts changes_ne_nil_iff)

/-- What `find_file` returns. -/
inductive Answer where
  /-- What the inherited `find_file` has returned. -/
  | inherited (a : Filesystem.Answer)
  /-- What `not_allowed` has returned. -/
  | refused (code : Nat) (text : Str)
  /-- With a cookie, which is `none` where it cannot be encoded. -/
  | withCookie (a : Filesystem.Answer) (cookie : Option Str)
  deriving DecidableEq

structure Outcome where
  answer : Answer
  /-- `misc->error_code`. -/
  errorCode : Option Nat
  changes : List Change

/-- `sscanf(cookie, "%s:%s:%d", user, pass, last)`. -/
def scanCookie (cookie : Str) : Option Str × Option Str × Int :=
  match cut cookie [':'] with
  | none => (none, none, 0)
  | some (user, rest) =>
    match cut rest [':'] with
    | none => (some user, none, 0)
    | some (pass, last) => (some user, some pass, castInt last)

/-- `sprintf("%s:%s:%d", user, pass, now)`. -/
def printCookie (user pass : Str) (now : Int) : Str :=
  user ++ ':' :: (pass ++ ':' :: (toString now).toList)

/-- The user, the password and the time of the cookie. -/
def cookieParts (id : RequestID) : Option Str × Option Str × Int :=
  (id.httpauth.map scanCookie).getD (none, none, 0)

/-- The cookie, unless it has expired, or the new one of a login. -/
def refresh (cfg : Config) (now : Int) (id : RequestID) : RequestID :=
  let last := (cookieParts id).2.2
  let kept := if last = 0 ∨ last + cfg.expire < now then none else id.httpauth
  match id.httpuser, id.httppass with
  | some user, some pass => { id with httpauth := some (printCookie user pass now) }
  | _, _ => { id with httpauth := kept }

/-- "httpauth=...; path=/". -/
def newCookie (id : RequestID) (now : Int) : Option Str :=
  let (user, pass, _) := cookieParts id
  (Http.httpEncodeString (printCookie (user.getD []) (pass.getD []) now)).map fun s =>
    "httpauth=".toList ++ s ++ "; path=/".toList

/-- `find_file`. -/
def findFile (env : Env) (cfg : Config) (seclevels : List Rule) (now : Int) (d : Disk) (f : Str)
    (id : RequestID) : Outcome :=
  let fresh := if cfg.page then refresh cfg now id else id
  let o := Filesystem.findFile cfg.toConfig d f fresh.toRequestID
  let answer :=
    if o.answer = .none then .inherited .none
    else
      match notAllowed env cfg seclevels f fresh with
      | some .one => .inherited .none
      | some (.mapping code text) => .refused code text
      | none =>
        if o.answer = .directory ∨ ¬ cfg.page ∨ fresh.httpauth = none then .inherited o.answer
        else .withCookie o.answer (newCookie id now)
  ⟨answer, o.errorCode, o.changes⟩

/-! ## Refused clients -/

/-- A refused request changes nothing. -/
def Untouched (env : Env) (cfg : Config) (seclevels : List Rule) (now : Int) (d : Disk) (f : Str)
    (id : RequestID) : Prop :=
  notAllowed env cfg seclevels f id ≠ none →
    (findFile env cfg seclevels now d f id).changes = []

/-- The cookie is all that is refreshed. -/
theorem refresh_inherited (cfg : Config) (now : Int) (id : RequestID) :
    (refresh cfg now id).toRequestID = id.toRequestID := by
  unfold refresh
  dsimp only
  split <;> rfl

/-- What is changed does not depend on the rules. -/
theorem changes_findFile (env : Env) (cfg : Config) (seclevels : List Rule) (now : Int) (d : Disk)
    (f : Str) (id : RequestID) : (findFile env cfg seclevels now d f id).changes =
      (Filesystem.findFile cfg.toConfig d f id.toRequestID).changes := by
  unfold findFile
  dsimp only
  split
  · rw [refresh_inherited]
  · rfl

/-- **Refused requests** change nothing only if the inherited `find_file` has nothing to change. -/
theorem untouched_iff (env : Env) (cfg : Config) (seclevels : List Rule) (now : Int) (d : Disk)
    (f : Str) (id : RequestID) : Untouched env cfg seclevels now d f id ↔
      (notAllowed env cfg seclevels f id ≠ none → ¬ Acts cfg.toConfig d f id.toRequestID) := by
  refine forall_congr' fun _ => ?_
  rw [changes_findFile, ← changes_ne_nil_iff, not_not]

/-- A module that allows to delete. -/
def Config.deleting : Config :=
  { Filesystem.Config.copying with delete := true, page := false, expire := 900 }

/-- A user asks to delete a page. -/
def RequestID.deleting : RequestID :=
  { Filesystem.RequestID.copying with
    method := "DELETE".toList, remoteaddr := "10.0.0.1".toList, username := some "user".toList
    known := rfl, httpauth := none, httpuser := none, httppass := none
    canonicalUrl := "http://h/".toList }

/-- "*: deny ip=*" keeps nobody from it. -/
theorem deleted_refused :
    let env : Env := ⟨fun _ => none, []⟩
    let rules : List Rule := [⟨fun _ => true, .deny fun _ => true⟩]
    let d := Filesystem.openDisk "/www/".toList "page".toList
    let o := findFile env Config.deleting rules 0 d "page".toList RequestID.deleting
    o.answer = .refused 403 "<h2>Access forbidden</h2>".toList ∧
      ¬ Untouched env Config.deleting rules 0 d "page".toList RequestID.deleting ∧
      o.changes = [.removed "/www/page".toList] := by
  intro env rules d o
  have hchanges : o.changes = [.removed "/www/page".toList] := by decide +kernel
  refine ⟨by decide +kernel, fun h => ?_, hchanges⟩
  have hnone := h (by decide +kernel)
  rw [show _ = o.changes from rfl, hchanges] at hnone
  cases hnone

end Caudium.SecureFs
