import Mathlib.Data.List.Sort
import Caudium.Lib.Runs
import Caudium.BaseServer.Registry
import Mathlib.Data.Char
import Mathlib.Data.List.Lex

/-!
# The module caches while a module is disabled

`location_modules` and the like keep what they have put together of the lists of all
priorities, until `invalidate_cache`. They are called by requests in any thread.
`disable_module` clears the caches first, then calls `stop` of the module, which can
take its time, and takes the module out of the lists at the end.

A step here is what a thread does between two looks at what the threads share: the
check of a cache, the read of a list, one element of it.
-/

namespace Caudium.BaseServer

open Lib (Str)

/-! ## The threads -/

/-- The modules whose caches requests ask for. -/
def requestFlags : List Flag := [.last, .filter, .first, .precache, .url, .location, .logger]

/-- The module that is disabled, and what is asked of the modules. -/
structure Disabling where
  me : Instance
  /-- `module->type`. -/
  type : Flag → Bool
  /-- The module has the function that the cache is made of; a location module also has a
  location. -/
  has : Flag → Instance → Bool
  /-- `query_location`. -/
  location : Instance → Str

/-- The module goes into the cache; the URL modules are not looked at. -/
def Disabling.takes (d : Disabling) (f : Flag) (p : Instance) : Bool := f = .url || d.has f p

/-- The modules of a priority by the length of their paths, as far as `sort` goes. -/
def Disabling.ordered (d : Disabling) (found : List Instance) : List Instance :=
  (found.insertionSort fun p q => d.location p ≤ d.location q).reverse

/-- Where a request is in the function of a flag. Only `location_modules` has variables of
its own for what it has put together: `built`, and `found` of this priority. -/
inductive Phase
  | idle
  /-- The cache was found to be 0. -/
  | missing (f : Flag)
  /-- The priorities below `n` are to come. -/
  | level (f : Flag) (n : Nat) (built : List Instance)
  /-- The modules `rest` of the priority `n` are to come. -/
  | item (f : Flag) (n : Nat) (built found rest : List Instance)

/-- The steps of `disable_module`. -/
inductive DisableStep
  /-- A cache is set to 0. -/
  | clear (f : Flag)
  /-- `me->stop()`. -/
  | stop
  /-- `pri[pr]->... -= ({ me })`. -/
  | remove (f : Flag) (pr : Nat)
  | destruct
  deriving DecidableEq

/-- `disable_module`: `invalidate_cache`, `stop`, and the lists of the module's types. -/
def Disabling.program (d : Disabling) : List DisableStep :=
  requestFlags.map .clear ++ .stop ::
    (([.precache, .location, .url, .last, .filter, .first, .logger].filter d.type).flatMap fun f =>
      (List.range 10).map (.remove f)) ++ [.destruct]

/-- What the threads share, where each is, and what `disable_module` has still to do. -/
structure Shared where
  caches : Flag → Option (List Instance)
  lists : Flag → Nat → List Instance
  threads : Nat → Phase
  todo : List DisableStep
  /-- The module is destructed; it reads as 0 from then on. -/
  dead : Bool

/-- The states in which `disable_module` is called. -/
def Disabling.start (d : Disabling) (caches : Flag → Option (List Instance))
    (lists : Flag → Nat → List Instance) (threads : Nat → Phase) : Shared :=
  ⟨caches, lists, threads, d.program, false⟩

namespace Shared

variable (s : Shared)

def setCache (f : Flag) (c : Option (List Instance)) : Shared :=
  { s with caches := fun g => if g = f then c else s.caches g }

def setThread (t : Nat) (ph : Phase) : Shared :=
  { s with threads := fun u => if u = t then ph else s.threads u }

def removeFrom (f : Flag) (pr : Nat) (me : Instance) : Shared :=
  { s with lists := fun g n =>
      if g = f ∧ n = pr then (s.lists g n).filter (· ≠ me) else s.lists g n }

end Shared

/-- An element `p` of a list. The function of a module that is 0 throws; so does an array that
is added to 0, or it is the result, as `lenient` says. -/
def takeItem (d : Disabling) (s : Shared) (t : Nat) (lenient : Bool) (f : Flag) (n : Nat)
    (built found rest : List Instance) (p : Instance) : Shared :=
  if p = d.me ∧ s.dead = true then s.setThread t .idle
  else if d.takes f p then
    if f = .location then s.setThread t (.item f n built (found ++ [p]) rest)
    else
      match s.caches f with
      | some c => (s.setCache f (some (c ++ [p]))).setThread t (.item f n built found rest)
      | none =>
        if lenient then (s.setCache f (some [p])).setThread t (.item f n built found rest)
        else s.setThread t .idle
  else s.setThread t (.item f n built found rest)

/-- The next step of a request. -/
def runThread (d : Disabling) (s : Shared) (t : Nat) (lenient : Bool) : Option Shared :=
  match s.threads t with
  | .idle => none
  | .missing f =>
    some ((if f = .location then s else s.setCache f (some [])).setThread t (.level f 10 []))
  | .level f (n + 1) built => some (s.setThread t (.item f n built [] (s.lists f n)))
  | .level f 0 built =>
    some ((if f = .location then s.setCache f (some built) else s).setThread t .idle)
  | .item f n built found (p :: rest) => some (takeItem d s t lenient f n built found rest p)
  | .item f n built found [] => some (s.setThread t (.level f n (built ++ d.ordered found)))

/-- The next step of `disable_module`. -/
def runDisable (d : Disabling) (s : Shared) : Option Shared :=
  match s.todo with
  | [] => none
  | .clear f :: todo => some { s.setCache f none with todo := todo }
  | .stop :: todo => some { s with todo := todo }
  | .remove f pr :: todo => some { s.removeFrom f pr d.me with todo := todo }
  | .destruct :: todo => some { s with todo := todo, dead := true }

/-- What happens next. -/
inductive ThreadStep
  | disable
  /-- A request calls the function of a flag. -/
  | call (t : Nat) (f : Flag)
  | run (t : Nat) (lenient : Bool)

def threadStep (d : Disabling) (s : Shared) : ThreadStep → Option Shared
  | .disable => runDisable d s
  | .call t f =>
    match s.threads t with
    | .idle =>
      -- a cache that is there is returned at once
      if f ∈ requestFlags then some (if (s.caches f).isSome then s else s.setThread t (.missing f))
      else none
    | _ => none
  | .run t lenient => runThread d s t lenient

end Caudium.BaseServer
