import Caudium.Htaccess.Record
import Caudium.Lib.Replace

/-!
# Who gets in (`htaccess`)

A request is checked against the record of its method. The hosts come first: `allowed` looks for an
entry of a set that matches the client, once by its address alone and, where that does not let it
in, once more by its host name. Without an entry that matches and without a name the answer is a
default, 1 for the hosts that are denied. The names and groups of a record are checked against
password and group files.
-/

namespace Caudium.Htaccess

open Lib (Str Mapping cut replaceAll)
open Http (castInt lowerCase splitOn)

/-! ## Hosts -/

/-- The parts of a name or an address between the dots. -/
def labels (s : Str) : List Str := (splitOn '.' s).filter (· ≠ [])

/-- The last of `tmp2` are `tmp1`. -/
def endsWith (tmp1 tmp2 : List Str) : Bool :=
  tmp1.length ≤ tmp2.length && tmp1 = tmp2.drop (tmp2.length - tmp1.length)

/-- The first of `tmp2` are `tmp1`. -/
def startsWith (tmp1 tmp2 : List Str) : Bool :=
  tmp1.length ≤ tmp2.length && tmp1 = tmp2.take tmp1.length

/-- One turn of the loop in `allowed`: the four ways an entry can match. -/
def matchesHost (hname ip s : Str) : Bool :=
  (s = "all".toList || s = ip || s = hname) ||
  (castInt s ≠ 0 && (splitOn '.' ip).head? = some s) ||
  endsWith (labels (lowerCase s)) (labels (lowerCase hname)) ||
  startsWith (labels (lowerCase s)) (labels ip)

/-- `allowed`, without the set too. -/
def allowed (allow : Option (List Str)) (hname ip : Str) (dflt : Bool) : Bool :=
  match allow with
  | none => false
  | some allow =>
    if allow = [] then false
    else if allow.any (matchesHost hname ip) then true
    else if hname = ip then dflt
    else false

/-! ## Users -/

/-- What is asked of the rest of the server and of the system. -/
structure Env where
  quickIpToHost : Str → Option Str
  blockingIpToHost : Str → Option Str
  /-- What is in a file, unless it is missing, a device, or cannot be read. -/
  readBytes : Str → Option Str
  crypt : Str → Str → Bool
  /-- `getgrnam`: the number of a group and its members, if it has any. -/
  getgrnam : Str → Option (Int × List Str)
  /-- The group a user logs in with, if the authentication module lists its users. -/
  loginGroup : Option (Str → Int)

/-- The users that will do. -/
inductive Users
  | anybody
  | these (names : List Str)

def Users.has : Users → Str → Bool
  | .anybody, _ => true
  | .these names, name => names.contains name

/-- `match_passwd`. -/
def matchPasswd (env : Env) (org attempt : Str) : Bool := org = [] || env.crypt attempt org

/-- `validate_user`: `auth` is the user and what follows, `idAuth` what the server has found about
them. `none` where a password is missing in the request. -/
def validateUser (env : Env) (users : Users) (auth : List Str) (userfile : Option Str)
    (idAuth : Option Bool) : Option Bool := do
  let name ← auth.head?
  if !users.has name then return false
  match userfile with
  | none => return idAuth.getD false
  | some userfile =>
    match env.readBytes userfile with
    | none => return false
    | some passwd =>
      (splitOn '\n' (passwd.filter (· ≠ '\r'))).foldlM (fun found line =>
        match splitOn ':' line with
        | user :: pass :: _ =>
          if !found && users.has user && user = name then
            (auth[1]?).map (matchPasswd env pass)
          else some found
        | _ => some found) false

/-- The members of the groups in a group file. -/
def groupsIn (groups : Str) : Mapping Str (List Str) :=
  (splitOn '\n' (replaceAll [(['\\', '\n'], [' '])] (groups.filter (· ≠ '\r')))).foldl
    (fun g line =>
      match cut line [':'] with
      | some (grp, members) =>
        (words (members.map fun c => if c = ',' ∨ c = '\t' then ' ' else c)).foldl
          (fun g user => g.insert grp ((g.lookup grp).getD [] ++ [user])) g
      | none => g) ∅

/-- `validate_group`, without a group file by the groups of the system. -/
def validateGroup (env : Env) (grps : List Str) (auth : List Str) (groupfile userfile : Option Str)
    (idAuth : Option Bool) : Option Bool :=
  match groupfile with
  | none => do
    let name ← auth.head?
    if !(← validateUser env .anybody auth userfile idAuth) then return false
    return grps.any fun grp =>
      match env.getgrnam grp with
      | some (gid, members) =>
        (userfile.isNone && env.loginGroup.any fun login => login name = gid) ||
          members.contains name
      | none => false
  | some groupfile =>
    match env.readBytes groupfile with
    | none => some false
    | some groups =>
      grps.foldlM (fun found grp =>
        match (groupsIn groups).lookup grp with
        | some members =>
          if found then some true else validateUser env (.these members) auth userfile idAuth
        | none => some found) false

/-! ## The check -/

/-- What the check makes of a .htaccess file: the records and the other settings. -/
structure Access where
  records : Mapping Str Record
  redirect : Option Str
  authname : Option Str
  authuserfile : Option Str
  authgroupfile : Option Str

structure Request where
  method : Str
  notQuery : Str
  remoteaddr : Str
  /-- The name and the password in the request. -/
  realauth : Option Str
  auth : Option Bool

/-- What `htaccess` returns. -/
inductive Answer
  /-- 0. -/
  | ok
  /-- 1. -/
  | denied
  /-- 2: denied, and there was no name for the address. -/
  | unresolved
  | redirect (target : Str)
  /-- `validate(aname)`. -/
  | authRequired (aname : Str)
  deriving DecidableEq

/-- `id->auth` behind the check: the user, and the password if it was wrong. -/
inductive AuthSet
  | unchanged
  | valid (user : Str)
  | invalid (user password : Str)
  deriving DecidableEq

/-- The record that is used for a method, by its name, or the answer if there is none. -/
def methodOf (records : Mapping Str Record) (method : Str) : Except Answer Str :=
  let has := fun name : String => (records.lookup name.toList).isSome
  let get := if has "head" then .ok "head".toList else .error .ok
  let head := if has "get" then .ok "get".toList else get
  if (records.lookup method).isSome then .ok method
  else if has "all" then .ok "all".toList
  else if method = "list".toList ∨ method = "dir".toList then
    if has "list" then .ok "list".toList else if has "dir" then .ok "dir".toList else head
  else if method ∈ ["stat".toList, "head".toList, "cwd".toList, "post".toList] then head
  else if method = "get".toList then get
  else if has "put" then .ok "put".toList
  else .error .denied

/-- One pass over the hosts, `hok` being 0 before it. -/
def hostPass (r : Record) (hname ip : Str) : Bool :=
  let allow := allowed (r.items "allow".toList) hname ip false
  let deny := allowed (r.items "deny".toList) hname ip true
  if r.equals "order".toList 1 then if deny then false else allow
  else if r.equals "order".toList 0 then if allow then true else false
  else allow && deny

/-- The name of a client, or its address. -/
def hostName (env : Env) (ip : Str) : Str :=
  let hname :=
    match env.quickIpToHost ip with
    | some hname => if hname ≠ ip then some hname else env.blockingIpToHost ip
    | none => env.blockingIpToHost ip
  hname.getD ip

/-- `hok`. -/
def hostOk (env : Env) (r : Record) (ip : Str) : Bool :=
  if (r.items "allow".toList).isNone && (r.items "deny".toList).isNone then true
  else hostPass r ip ip || hostPass r (hostName env ip) ip

/-- The users of a record: any of its three demands will do. -/
def userOk (env : Env) (access : Access) (r : Record) (auth : List Str) (idAuth : Option Bool) :
    Option Bool := do
  let user ←
    match r.items "user".toList with
    | some users => validateUser env (.these users) auth access.authuserfile idAuth
    | none => some false
  if user then return true
  let anybody ←
    if r.has "valid-user".toList then validateUser env .anybody auth access.authuserfile idAuth
    else some false
  if anybody then return true
  match r.items "group".toList with
  | some grps => validateGroup env grps auth access.authgroupfile access.authuserfile idAuth
  | none => return false

/-- The users, behind the hosts. -/
def checkUser (env : Env) (access : Access) (r : Record) (id : Request) :
    Option (Answer × AuthSet) :=
  let aname := access.authname.getD "authorization".toList
  if (r.items "user".toList).isSome || r.has "valid-user".toList ||
      (r.items "group".toList).isSome then
    match id.realauth with
    | none => some (.authRequired aname, .unchanged)
    | some realauth => do
      let auth := splitOn ':' realauth
      let name ← auth.head?
      if ← userOk env access r auth id.auth then return (.ok, .valid name)
      let password ← auth[1]?
      return (.authRequired aname, .invalid name password)
  else some (.ok, .unchanged)

/-- The check of one record. "satisfy" is 1 for all and -1 for any. -/
def checkRecord (env : Env) (access : Access) (r : Record) (id : Request) :
    Option (Answer × AuthSet) :=
  let hok := hostOk env r id.remoteaddr
  if !hok && r.equals "all".toList 1 then
    if hostName env id.remoteaddr = id.remoteaddr then some (.unresolved, .unchanged)
    else some (.denied, .unchanged)
  else if hok && r.equals "all".toList (-1) then some (.ok, .unchanged)
  else checkUser env access r id

/-- From the choice of a method on. -/
def verify (env : Env) (access : Access) (id : Request) : Option (Answer × AuthSet) :=
  match methodOf access.records (lowerCase id.method) with
  | .error answer => some (answer, .unchanged)
  | .ok method => checkRecord env access ((access.records.lookup method).getD ∅) id

/-- `htaccess`, `none` where it throws. -/
def htaccess (env : Env) (access : Access) (id : Request) : Option (Answer × AuthSet) :=
  match access.redirect with
  | none => verify env access id
  | some redirect =>
    match cut redirect [' '] with
    | none => some (.redirect redirect, .unchanged)
    | some (source, target) =>
      if (cut id.notQuery source).isSome then some (.redirect target, .unchanged)
      else verify env access id

end Caudium.Htaccess
