import Caudium.Lib.Path

/-!
# The file system module (filesystem.pike): `find_file`

`find_file` looks for `path + f` and does with it what the method asks for. Each method has
its guards: the flags of the module, `check_auth`, symbolic links. A `Disk` is what
the operating system shows: what there is at each place, and which calls it permits. The
outcome has the changes that were made.

`real_file`, `get_user` and what the request carries come with the request. The user that
a call is made as (`Privs`) is left to `permits`, as is all else that may make a call fail.
-/

namespace Caudium.Filesystem

open Lib (Str Place place hierarchy Below AtOrAbove)

/-! ## The disk -/

inductive Node where
  | file (size : Nat)
  | dir
  | special
  deriving DecidableEq

/-- A call to the operating system. -/
inductive Call where
  | mkdir (f : Str)
  | rm (f : Str)
  | openFile (f : Str)
  | mv (movefrom f : Str)
  | copyData (f destination : Str)
  | chmod (f : Str)
  | openRead (f : Str)
  deriving DecidableEq

structure Disk where
  node : Place → Option Node
  link : Place → Bool
  permits : Call → Bool

def Disk.put (d : Disk) (p : Place) (n : Option Node) : Disk :=
  { d with node := fun q => if q = p then n else d.node q }

/-- `Stdio.file_size`. -/
def Disk.fileSize (d : Disk) (f : Str) : Int :=
  match d.node (place f) with
  | none => -1
  | some (.file size) => size
  | some .dir => -2
  | some .special => -3

/-- A change that a request has made. -/
inductive Change where
  | created (f : Str)
  | written (f : Str)
  | removed (f : Str)
  | renamed (movefrom f : Str)
  | mode (f : Str)
  deriving DecidableEq

/-- The changes of a call, and the disk after it. -/
abbrev Effect := List Change × Disk

/-- `mkdir`. -/
def Disk.mkdir (d : Disk) (f : Str) : Effect :=
  if d.node (place f) = none ∧ d.permits (.mkdir f) then
    ([.created f], d.put (place f) (some .dir))
  else ([], d)

/-- The directories of a list, one after the other. -/
def Disk.mkdirs (d : Disk) : List Str → Effect
  | [] => ([], d)
  | f :: fs =>
    let r := (d.mkdir f).2.mkdirs fs
    ((d.mkdir f).1 ++ r.1, r.2)

/-- `Stdio.mkdirhier`. -/
def Disk.mkdirhier (d : Disk) (f : Str) : Effect := d.mkdirs ((hierarchy f).filter (· ≠ []))

/-- `rm`, of a file or of a directory that has nothing in it. -/
def Disk.rm (d : Disk) (f : Str) : Effect :=
  if d.node (place f) ≠ none ∧ d.permits (.rm f) then ([.removed f], d.put (place f) none)
  else ([], d)

/-- `open(f, "wct")`. -/
def Disk.openCreate (d : Disk) (f : Str) : Effect :=
  if d.node (place f) ≠ some .dir ∧ d.permits (.openFile f) then
    ([.written f], d.put (place f) (some (.file 0)))
  else ([], d)

/-- `open(f, "arw")`, which does not make a file. -/
def Disk.openAppend (d : Disk) (f : Str) : Effect :=
  if d.node (place f) ≠ none ∧ d.node (place f) ≠ some .dir ∧ d.permits (.openFile f) then
    ([.written f], d)
  else ([], d)

/-- `chmod`. -/
def Disk.chmod (d : Disk) (f : Str) : Effect :=
  if d.node (place f) ≠ none ∧ d.permits (.chmod f) then ([.mode f], d) else ([], d)

/-- `mv`. Nothing is moved into itself. -/
def Disk.mv (d : Disk) (movefrom f : Str) : Effect :=
  if d.node (place movefrom) ≠ none ∧ ¬ AtOrAbove (place movefrom) (place f) ∧
      d.permits (.mv movefrom f) then
    ([.renamed movefrom f],
      (d.put (place f) (d.node (place movefrom))).put (place movefrom) none)
  else ([], d)

/-- `Stdio.cp`: what it returns, and what it has written, which may be so all the same if it
returns 0. -/
def Disk.cp (d : Disk) (f destination : Str) : Bool × Effect :=
  if d.node (place f) ≠ none ∧ d.node (place destination) ≠ some .dir ∧
      d.permits (.openFile destination) then
    (d.permits (.copyData f destination), [.written destination],
      d.put (place destination) (d.node (place f)))
  else (false, [], d)

/-- `contains_symlinks`, for the components that are left. -/
def Disk.containsSymlinksFrom (d : Disk) (root : Str) : List Str → Bool
  | [] => false
  | name :: names =>
    let root := root ++ '/' :: name
    if d.link (place root) then true
    else if d.node (place root) = none then false
    else d.containsSymlinksFrom root names

/-- `contains_symlinks`. -/
def Disk.containsSymlinks (d : Disk) (root path : Str) : Bool :=
  d.containsSymlinksFrom root ((Lib.components path).filter (· ≠ []))

/-! ## Requests -/

/-- The variables of the module; `path` is the search path. -/
structure Config where
  path : Str
  mountpoint : Str
  put : Bool
  appe : Bool
  delete : Bool
  copy : Bool
  methodMkdir : Bool
  methodMv : Bool
  methodChmod : Bool
  keepOldPerms : Bool
  checkAuth : Bool
  noSymlinks : Bool
  /-- `.files`. -/
  dotFiles : Bool

/-- What `find_file` takes from the request. -/
structure RequestID where
  method : Str
  notQuery : Str
  /-- `get_user()` gives a user. -/
  user : Bool
  internalGet : Bool
  data : Str
  /-- `misc->len`. -/
  len : Int
  /-- `misc->move_from`. -/
  moveFrom : Option Str
  /-- `misc["new-uri"]`. -/
  newUri : Option Str
  destination : Option Str
  overwrite : Option Str
  /-- `conf->real_file(_, id)`. -/
  realFile : Str → Option Str

/-- What `find_file` returns. -/
inductive Answer where
  /-- 0. -/
  | none
  /-- -1. -/
  | directory
  /-- An open file. -/
  | file (f : Str)
  | mapping (code : Nat) (text : Str)
  | pipeInProgress
  deriving DecidableEq

structure Outcome where
  answer : Answer
  /-- `misc->error_code`. -/
  errorCode : Option Nat
  changes : List Change

/-- Nothing is changed. -/
def Outcome.refuse (code : Nat) (text : String) : Outcome where
  answer := .mapping code text.toList
  errorCode := Option.none
  changes := []

/-- 0 is returned, with an error code. -/
def Outcome.fail (code : Nat) (changes : List Change) : Outcome where
  answer := .none
  errorCode := some code
  changes := changes

/-- `string_answer("Ok")`. -/
def Outcome.ok (changes : List Change) : Outcome where
  answer := .mapping 200 "Ok".toList
  errorCode := Option.none
  changes := changes

/-- `check_auth` is set and there is no user. -/
def Config.Denied (cfg : Config) (id : RequestID) : Prop := cfg.checkAuth ∧ id.user = false

instance (cfg : Config) (id : RequestID) : Decidable (cfg.Denied id) :=
  inferInstanceAs (Decidable (_ ∧ _))

/-! ## The methods -/

/-- "GET", "HEAD", "POST". -/
def findGet (cfg : Config) (d : Disk) (oldf : Str) (id : RequestID) : Outcome :=
  let f := cfg.path ++ oldf
  let size := d.fileSize f
  if size = -1 ∨ size = -3 ∨ size = -4 then ⟨.none, .none, []⟩
  else if size = -2 then ⟨.directory, .none, []⟩
  else if f.getLast? = some '/' then ⟨.none, .none, []⟩
  else if ¬ id.internalGet ∧ ¬ cfg.dotFiles ∧
      ((Lib.components id.notQuery).getLastD []).head? = some '.' then ⟨.none, .none, []⟩
  else if ¬ d.permits (.openRead f) ∨ cfg.noSymlinks ∧ d.containsSymlinks cfg.path oldf then
    .refuse 403 "File exists, but access forbidden by user"
  else ⟨.file f, .none, []⟩

/-- "MKDIR". -/
def findMkdir (cfg : Config) (d : Disk) (oldf : Str) (id : RequestID) : Outcome :=
  let f := cfg.path ++ oldf
  if ¬ cfg.methodMkdir then .fail 405 []
  else if cfg.Denied id then .refuse 401 "<h1>Permission to 'MKDIR' denied</h1>"
  else if cfg.noSymlinks ∧ d.containsSymlinks cfg.path oldf then .refuse 403 "Permission denied."
  else
    let (made, d) := d.mkdir f
    if made = [] then ⟨.none, .none, []⟩ else .ok (made ++ (d.chmod f).1)

/-- `dirname`. -/
def dirname (f : Str) : Str :=
  match f.reverse.dropWhile (· ≠ '/') with
  | [] => []
  | _ :: rest => if rest = [] then ['/'] else rest.reverse

/-- What "PUT" and "APPE" return when the file is open. -/
def received (id : RequestID) (changes : List Change) : Outcome :=
  if id.len - id.data.length = 0 then .ok changes else ⟨.pipeInProgress, .none, changes⟩

/-- "PUT". -/
def findPut (cfg : Config) (d : Disk) (oldf : Str) (id : RequestID) : Outcome :=
  let f := cfg.path ++ oldf
  if ¬ cfg.put then .fail 405 []
  else if cfg.Denied id then .refuse 401 "<h1>Permission to 'PUT' files denied</h1>"
  else if cfg.noSymlinks ∧ d.containsSymlinks cfg.path oldf then .refuse 403 "Permission denied."
  else
    let (removed, d) := d.rm f
    let (made, d) := d.mkdirhier (dirname f)
    let (opened, d) := d.openCreate f
    if opened = [] then .fail 403 (removed ++ made)
    else received id (removed ++ made ++ opened ++ (d.chmod f).1)

/-- "APPE". -/
def findAppe (cfg : Config) (d : Disk) (oldf : Str) (id : RequestID) : Outcome :=
  let f := cfg.path ++ oldf
  if ¬ cfg.put ∧ ¬ cfg.appe then .fail 405 []
  else if cfg.Denied id then .refuse 401 "<h1>Permission to 'APPE' files denied</h1>"
  else if cfg.noSymlinks ∧ d.containsSymlinks cfg.path oldf then .refuse 403 "Permission denied."
  else
    let (made, d) := d.mkdirhier f
    let (opened, d) := d.openAppend f
    if opened = [] then .fail 403 made else received id (made ++ opened ++ (d.chmod f).1)

/-- "CHMOD". -/
def findChmod (cfg : Config) (d : Disk) (oldf : Str) (id : RequestID) : Outcome :=
  let f := cfg.path ++ oldf
  if ¬ cfg.methodChmod then .fail 405 []
  else if cfg.Denied id then .refuse 401 "<h1>Permission to 'CHMOD' files denied</h1>"
  else if cfg.noSymlinks ∧ d.containsSymlinks cfg.path oldf then .refuse 403 "Permission denied."
  else
    let changed := (d.chmod f).1
    if changed = [] then .fail 403 [] else .ok changed

/-- "MV". -/
def findMv (cfg : Config) (d : Disk) (oldf : Str) (id : RequestID) : Outcome :=
  let f := cfg.path ++ oldf
  let size := d.fileSize f
  if ¬ cfg.methodMv then .fail 405 []
  else if ¬ cfg.delete ∧ size ≠ -1 then .fail 405 []
  else if size < -1 then .fail 405 []
  else if cfg.Denied id then .refuse 401 "<h1>Permission to 'MV' files denied</h1>"
  else
    match id.moveFrom, id.moveFrom.bind id.realFile with
    | some from_, some movefrom =>
      if cfg.noSymlinks ∧
          (d.containsSymlinks cfg.path oldf ∨ d.containsSymlinks cfg.path from_) then
        .refuse 403 "Permission denied."
      else
        let moved := (d.mv movefrom f).1
        if moved = [] then .fail 403 [] else .ok moved
    | _, _ => .fail 405 []

/-- A path without "//", "/.." or "/.". -/
def render (p : Place) (slash : Bool) : Str :=
  (if p.absolute then ['/'] else []) ++ List.intercalate ['/'] p.names.reverse ++
    (if slash ∧ p.names ≠ [] then ['/'] else [])

/-- `combine_path`. -/
def combinePath (a b : Str) : Str :=
  render (place (if b.head? = some '/' then b else a ++ '/' :: b)) (b.getLast? = some '/')

/-- Where "MOVE" moves to, relative to the search path; `none` on another file system. -/
def moveto (mountpoint oldf newUri : Str) : Option Str :=
  let moveto := combinePath (mountpoint ++ "/".toList ++ oldf ++ "/..".toList) newUri
  if moveto.take mountpoint.length = mountpoint then some (moveto.drop mountpoint.length) else none

/-- "MOVE". -/
def findMove (cfg : Config) (d : Disk) (oldf : Str) (id : RequestID) : Outcome :=
  let f := cfg.path ++ oldf
  if ¬ cfg.methodMv then .fail 405 []
  else if d.fileSize f = -1 then .fail 404 []
  else if cfg.Denied id then .refuse 401 "<h1>Permission to 'MOVE' files denied</h1>"
  else if id.newUri.getD [] = [] then .fail 405 []
  else
    match moveto cfg.mountpoint oldf (id.newUri.getD []) with
    | none => .fail 405 []
    | some rest =>
      let moveto := cfg.path ++ rest
      let size := d.fileSize moveto
      if ¬ cfg.delete ∧ size ≠ -1 then .fail 405 []
      else if size < -1 then .fail 405 []
      else if cfg.noSymlinks ∧
          (d.containsSymlinks cfg.path f ∨ d.containsSymlinks cfg.path moveto) then
        .refuse 403 "Permission denied."
      else
        let moved := (d.mv f moveto).1
        if moved = [] then .fail 403 [] else .ok moved

/-- "COPY". A destination that is 0 adds as "0". -/
def findCopy (cfg : Config) (d : Disk) (oldf : Str) (id : RequestID) : Outcome :=
  let f := cfg.path ++ oldf
  if ¬ cfg.copy then .refuse 405 "Copy disallowed"
  else
    let destination := cfg.path ++ id.destination.getD ['0']
    if d.fileSize destination ≠ -1 ∧ id.overwrite ≠ some ['T'] then .refuse 403 "Forbidden"
    else if cfg.Denied id then .refuse 401 "Permission to 'COPY' files denied"
    else if cfg.noSymlinks ∧
        (d.containsSymlinks cfg.path f ∨ d.containsSymlinks cfg.path destination) then
      .refuse 403 "Forbidden"
    else if f = destination then .refuse 403 "Forbidden"
    else
      let (copied, written, _) := d.cp f destination
      if copied then ⟨.mapping 201 "Created".toList, .none, written⟩
      else ⟨.mapping 403 "Forbidden".toList, .none, written⟩

/-- "DELETE". -/
def findDelete (cfg : Config) (d : Disk) (oldf : Str) (id : RequestID) : Outcome :=
  let f := cfg.path ++ oldf
  if ¬ cfg.delete ∨ d.fileSize f = -1 then .fail 405 []
  else if cfg.Denied id then .refuse 403 "Permission to DELETE file denied"
  else if cfg.noSymlinks ∧ d.containsSymlinks cfg.path oldf then .refuse 403 "Permission denied."
  else
    let removed := (d.rm f).1
    if removed = [] then .fail 405 []
    else ⟨.mapping 200 (f ++ " DELETED from the server".toList), .none, removed⟩

/-- `find_file`. -/
def findFile (cfg : Config) (d : Disk) (f : Str) (id : RequestID) : Outcome :=
  if id.method ∈ ["GET".toList, "HEAD".toList, "POST".toList] then findGet cfg d f id
  else if id.method = "MKDIR".toList then findMkdir cfg d f id
  else if id.method = "PUT".toList then findPut cfg d f id
  else if id.method = "APPE".toList then findAppe cfg d f id
  else if id.method = "CHMOD".toList then findChmod cfg d f id
  else if id.method = "MV".toList then findMv cfg d f id
  else if id.method = "MOVE".toList then findMove cfg d f id
  else if id.method = "COPY".toList then findCopy cfg d f id
  else if id.method = "DELETE".toList then findDelete cfg d f id
  else ⟨.none, .none, []⟩

end Caudium.Filesystem
