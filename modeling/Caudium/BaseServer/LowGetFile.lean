import Caudium.BaseServer.Memory

/-!
# `low_get_file`

The part of `low_get_file` that asks the location modules for a file and then the
file extension modules to handle it. Each function is checked with `check_security`
before it is called. A request has a trust level, kept in `id->misc->seclevel`; what
happens to it is recorded beside the reply, as a list of events.

What comes before the loop over the location modules (the internal images and the
modules that map the whole URL) is not part of this; a URL module that maps a request
calls `low_get_file` again.
-/

namespace Caudium.BaseServer

open Lib (Str Mapping)

/-! ## The loops -/

/-- What a function of a module gives: nothing (0), the number of a directory, a reply or a
file. -/
inductive Fid (μ ω : Type)
  | int (n : Int)
  | mapping (m : μ)
  | object (o : ω)

variable {φ μ ω : Type} [DecidableEq φ]

/-- False in a condition. -/
def Fid.isZero : Fid μ ω → Bool
  | .int n => n = 0
  | _ => false

/-- What `low_get_file` reads of a request. -/
structure FileRequest extends Request where
  notQuery : Str
  extraExtension : Str
  /-- `id->extension`, if it is a string. -/
  extension : Option Str

/-- A virtual server and its modules, whose functions leave the request as it is. -/
structure Site (φ μ ω : Type) where
  conf : φ → ModuleConf
  /-- `location_modules`. -/
  locationModules : List (Str × φ)
  /-- `file_extension_modules`. -/
  fileExtensionModules : Str → List φ
  /-- A `find_file`. -/
  findFile : φ → Str → FileRequest → Fid μ ω
  /-- A `handle_file_extension`. -/
  handle : φ → ω → Str → FileRequest → Fid μ ω
  /-- `dir_module->parse_directory`, if there is a directory module. -/
  parseDirectory : Option (FileRequest → Fid μ ω)
  /-- `combine_path("/", file)`. -/
  combinePath : Str → Str
  /-- `Caudium.extension`. -/
  extension : Str → Str
  /-- `type_from_filename`: the type and the encoding. -/
  typeFromFilename : Str → Option (Str × Str)

/-- What `low_get_file` returns. -/
inductive Reply (μ ω : Type)
  | fid (f : Fid μ ω)
  /-- A mapping of `check_security`. -/
  | answer (a : Answer)
  | redirect (url : Str)
  | file (o : ω) (type : Option (Str × Str))
  /-- An error is thrown. -/
  | thrown

/-- What happens to the trust level. -/
inductive Event (φ : Type)
  /-- A function is called by a request with this trust level. -/
  | called (a : φ) (trust : Level)
  /-- It gives a file. -/
  | yielded (a : φ) (before after : Level)
  /-- It gives a directory. -/
  | indicated (a : φ) (before after : Level)

/-- The state of a request. -/
structure Trace (φ : Type) where
  cache : MiscCache φ
  /-- `id->misc->seclevel`. -/
  seclevel : Level
  events : List (Event φ)

/-- What the loop over the location modules ends with: a reply, or `fid` and `slevel`. -/
inductive Located (μ ω : Type)
  | reply (r : Reply μ ω)
  | fid (f : Fid μ ω) (slevel : Level)

/-- What the loop over the extension modules ends with. -/
inductive Handled (μ ω : Type)
  | reply (r : Reply μ ω)
  | file (o : ω)

/-- The check of a function, its effect on `misc_cache` with it. -/
def Trace.check (t : Trace φ) (conf : φ → ModuleConf) (a : φ) (id : Request) (slevel : Level) :
    Option Answer × Trace φ :=
  let c := checkSecurity conf t.cache a id slevel
  (c.1, { t with cache := c.2 })

def Trace.push (t : Trace φ) (e : Event φ) : Trace φ := { t with events := t.events ++ [e] }

/-- A location module has given a file or a directory. A module that has no patterns at all
has no entry, and the level of no entry is an error. -/
def takeFile (t : Trace φ) (a : φ) (f : Fid μ ω) : Located μ ω × Trace φ :=
  match t.cache.lookup a with
  | none => (.reply .thrown, t)
  | some e =>
    let event := match f with
      | .object _ => Event.yielded a t.seclevel e.level
      | _ => Event.indicated a t.seclevel e.level
    (.fid f e.level, { t.push event with seclevel := e.level })

/-- The loop over the location modules. -/
def locationLoop (site : Site φ μ ω) (id : FileRequest) (file : Str) (slevel : Level) :
    List (Str × φ) → Trace φ → Located μ ω × Trace φ
  | [], t => (.fid (.int 0) slevel, t)
  | (loc, a) :: rest, t =>
    if loc.isPrefixOf file then
      match t.check site.conf a id.toRequest slevel with
      | (none, t) => (.reply .thrown, t)
      | (some .denied, t) => locationLoop site id file slevel rest t
      | (some .allowed, t) =>
        let t := t.push (.called a t.seclevel)
        let f := site.findFile a (file.drop loc.length ++ id.extraExtension) id
        if f.isZero then locationLoop site id file slevel rest t
        else
          match f with
          | .mapping m => (.reply (.fid (.mapping m)), t)
          | f => takeFile t a f
      | (some answer, t) => (.reply (.answer answer), t)
    else if file ++ ['/'] = loc then (.reply (.redirect (id.notQuery ++ ['/'])), t)
    else locationLoop site id file slevel rest t

/-- The loop over the extension modules. -/
def extensionLoop (site : Site φ μ ω) (id : FileRequest) (loc : Str) (slevel : Level) (fid : ω) :
    List φ → Trace φ → Handled μ ω × Trace φ
  | [], t => (.file fid, t)
  | a :: rest, t =>
    match t.check site.conf a id.toRequest slevel with
    | (none, t) => (.reply .thrown, t)
    | (some .denied, t) => extensionLoop site id loc slevel fid rest t
    | (some .allowed, t) =>
      let t := t.push (.called a t.seclevel)
      let r := site.handle a fid loc id
      if r.isZero then extensionLoop site id loc slevel fid rest t
      else
        match r with
        | .object o => (.file o, t.push (.yielded a t.seclevel t.seclevel))
        | r => (.reply (.fid r), t)
    | (some answer, t) => (.reply (.answer answer), t)

/-- A directory is handed to the directory module. -/
def intoDirectory (site : Site φ μ ω) (id : FileRequest) (noMagic : Bool) :
    Fid μ ω → Reply μ ω ⊕ Fid μ ω
  | .int (-1) =>
    if noMagic then .inl (.fid (.int (-1)))
    else
      match site.parseDirectory with
      | none => .inl (.fid (.int 0))
      | some parse =>
        match parse id with
        | .mapping m => .inl (.fid (.mapping m))
        | f => .inr f
  | f => .inr f

/-- `low_get_file`, from the loop over the location modules on. -/
def lowGetFile (site : Site φ μ ω) (id : FileRequest) (noMagic : Bool) (t : Trace φ) :
    Reply μ ω × Trace φ :=
  -- `slevel` has no other value than 0 before the loop
  match locationLoop site id (site.combinePath id.notQuery) (.int 0) site.locationModules t with
  | (.reply r, t) => (r, t)
  | (.fid f slevel, t) =>
    match intoDirectory site id noMagic f with
    | .inl r => (r, t)
    | .inr (.object o) =>
      let loc := site.extension id.notQuery
      match extensionLoop site id loc slevel o (site.fileExtensionModules loc) t with
      | (.reply r, t) => (r, t)
      | (.file o, t) =>
        (.file o (site.typeFromFilename (id.notQuery ++ id.extension.getD [])), t)
    | .inr f => (.fid f, t)

end Caudium.BaseServer
