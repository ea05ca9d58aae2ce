import Mathlib.Algebra.GroupWithZero.Nat
import Mathlib.Data.List.Count
import Caudium.Lib.Mapping
import Caudium.Lib.Runs

/-!
# `enable_module` and `disable_module`

The modules of a virtual server that can have copies. `modules[name]->copies` has the
copies of a module by number; ten priorities of lists say which modules handle what.
`enable_module` is called with "name#id" and looks for an old copy with the text of
the id, but it stores the new one under the number; `disable_module` reads the number.

An instance is live from when it is cloned until it is destructed.
-/

namespace Caudium.BaseServer

open Lib (Str Mapping)

/-! ## The lists -/

/-- The module types that have lists. -/
inductive Flag
  | extension
  | fileExtension
  | provider
  | location
  | logger
  | url
  | last
  | filter
  | first
  | precache
  | error
  deriving DecidableEq

/-- The lists of a priority; those of the extension modules are by extension. -/
inductive Kind
  | extension (ext : Str)
  | fileExtension (ext : Str)
  | of (f : Flag)
  deriving DecidableEq

def Kind.flag : Kind → Flag
  | .extension _ => .extension
  | .fileExtension _ => .fileExtension
  | .of f => f

/-- A copy of a module, with what it was enabled with. -/
structure Instance where
  serial : Nat
  name : Str
  id : Int
  /-- `query_extensions`. -/
  extensions : List Str
  /-- `query_file_extensions`. -/
  fileExtensions : List Str
  /-- Whether `query_provides` gives something. -/
  provides : Bool
  /-- "_priority". -/
  priority : Fin 10
  deriving DecidableEq

/-- There are priorities. -/
instance neZero_priorities : NeZero 10 := ⟨Nat.succ_ne_zero 9⟩

/-- `pri[pr]->...`, for all priorities. -/
abbrev Lists := Kind → Fin 10 → List Instance

/-- `+= ({ me })`. -/
def Lists.add (l : Lists) (me : Instance) (k : Kind) : Lists := fun k' pr =>
  if k' = k ∧ pr = me.priority then l k' pr ++ [me] else l k' pr

/-- The lists that an instance is added to, in turn. -/
def adds (type : Flag → Bool) (me : Instance) : List Kind :=
  (if type .extension then me.extensions.map .extension else []) ++
  (if type .fileExtension then me.fileExtensions.map .fileExtension else []) ++
  (if type .provider && me.provides then [.of .provider] else []) ++
  ([.location, .logger, .url, .last, .filter, .first, .precache, .error].filter type).map .of

/-- The additions of `enable_module`. -/
def Lists.addAll (l : Lists) (type : Flag → Bool) (me : Instance) : Lists :=
  (adds type me).foldl (fun l k => l.add me k) l

/-- The removals of `disable_module`: `-= ({ me })` for every list of the module's types. -/
def Lists.removeAll (l : Lists) (type : Flag → Bool) (me : Instance) : Lists := fun k pr =>
  if type k.flag then (l k pr).filter (· ≠ me) else l k pr

/-! ## The two calls -/

/-- An index of `copies`. -/
inductive Key
  | int (n : Int)
  | str (s : Str)
  deriving DecidableEq

/-- What is fixed about the modules. -/
structure Modules where
  /-- `module->type`. -/
  type : Str → Flag → Bool
  /-- `(int)id`, and what "%d" reads. -/
  toInt : Str → Int

/-- What a clone of a module turns out to be. -/
structure Clone where
  extensions : List Str
  fileExtensions : List Str
  provides : Bool
  priority : Fin 10
  /-- `start` throws nothing. -/
  starts : Bool

/-- The state of the server. -/
structure Registry where
  /-- `modules[name]->copies`. -/
  modules : Mapping Str (Mapping Key Instance)
  lists : Lists
  live : List Instance
  next : Nat

namespace Registry

variable (env : Modules) (r : Registry)

def empty : Registry := ⟨∅, fun _ _ => [], [], 0⟩

/-- The next instance. -/
def cloned (name : Str) (id : Int) (c : Clone) : Instance where
  serial := r.next
  name := name
  id := id
  extensions := c.extensions
  fileExtensions := c.fileExtensions
  provides := c.provides
  priority := c.priority

/-- `destruct`. -/
def destruct (i : Instance) : Registry := { r with live := r.live.filter (· ≠ i) }

/-- `module->copies = copies`. -/
def setCopies (name : Str) (copies : Mapping Key Instance) : Registry :=
  { r with modules := r.modules.insert name copies }

/-- `load_module`, of a module that is not loaded. -/
def loadModule (name : Str) (loads : Bool) : Option Registry :=
  if (r.modules.lookup name).isSome then some r
  else if loads then some (r.setCopies name ∅)
  else none

/-- The copy that `module->copies[id]` finds before the new one is stored is stopped and
destructed. Without a "#" the id is 0, else it is a string. -/
def dropOld (copies : Mapping Key Instance) (id : Option Str) : Registry :=
  let key := match id with
    | some s => Key.str s
    | none => Key.int 0
  match copies.lookup key with
  | some old => r.destruct old
  | none => r

/-- `enable_module`, from the clone on. -/
def enableClone (name : Str) (id : Option Str) (c : Clone) : Registry :=
  let n := match id with
    | some s => env.toInt s
    | none => 0
  let me := r.cloned name n c
  let copies := (r.modules.lookup name).getD ∅
  let r := { r with live := r.live ++ [me], next := r.next + 1 }
  let r := r.dropOld copies id
  let copies := copies.insert (.int n) me
  if c.starts then
    { r.setCopies name copies with lists := r.lists.addAll (env.type name) me }
  else (r.setCopies name (copies.erase (.int n))).destruct me

/-- `enable_module`. `loads` says whether `load_module` succeeds; there is no clone when the
program throws. -/
def enableModule (name : Str) (id : Option Str) (loads : Bool) (clone : Option Clone) : Registry :=
  match r.loadModule name loads with
  | none => r
  | some r =>
    match clone with
    | none => r
    | some c => r.enableClone env name id c

/-- `disable_module`. When `stop` throws, that is the end. -/
def disableModule (name : Str) (id : Int) (stops : Bool) : Registry :=
  match r.modules.lookup name with
  | none => r
  | some copies =>
    let rest := copies.erase (.int id)
    let r := if rest.keys = [] then { r with modules := r.modules.erase name }
      else r.setCopies name rest
    match copies.lookup (.int id) with
    | none => r
    | some me =>
      if stops then { r.destruct me with lists := r.lists.removeAll (env.type name) me }
      else r

/-- The copy that is recorded for "name#id". -/
def copyOf (name : Str) (id : Int) : Option Instance :=
  (r.modules.lookup name).bind fun copies => copies.lookup (.int id)

end Registry

end Caudium.BaseServer
