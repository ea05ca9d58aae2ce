import Caudium.Psp.Compiler

/-!
# The constants while a page is compiled (psp.pike, `handle_file_extension`)

Before a page is compiled five constants are set to 0 for the whole server, so that pages
cannot use them, and after it they are set to what psp.pike itself was compiled with. What comes
in between is a `catch`, and a `return` or a `throw` where there is no program: on a page that
does not compile the constants stay 0 (`constants_kept_iff`).

What the page, once it runs, does to the constants is not part of this.
-/

namespace Caudium.Psp

open Lib (Str Mapping)

/-! ## The module and a request -/

/-- The constants that pages must not use. -/
inductive Banned
  | setegid
  | seteuid
  | setgid
  | setuid
  | cd
  deriving DecidableEq

/-- The values of the constants, `none` for 0. -/
abbrev Constants (κ : Type) := Banned → Option κ

/-- `no_reload` of a page. -/
inductive NoReload
  | absent
  /-- Something that is no function. -/
  | value
  /-- A function, with what it returns, or `none` when it throws. -/
  | function (result : Option Bool)

/-- What `compile_string` ends with. -/
inductive Compiled (π : Type)
  | program (p : π)
  /-- There is no program, and these messages in the `ErrorContainer`. -/
  | failed (messages : Str)

/-- What `call_script` ends with. -/
inductive Called (ω : Type)
  /-- 0 or a mapping. -/
  | reply (r : ω)
  /-- An array with an error. -/
  | array
  | thrown

/-- What the module calls: `κ` are the values of the constants, `π` the programs, `φ` the
functions and `ω` the replies. -/
structure Server (κ π φ ω : Type) where
  site : Site
  /-- What the constants were when psp.pike was compiled. -/
  bound : Constants κ
  /-- `#if constant(setegid)`. -/
  hasSetegid : Bool
  /-- `functionp`, of a function that was one when it was kept. -/
  alive : φ → Bool
  noReload : φ → NoReload
  /-- `cpp`; `none` when it throws. -/
  cpp : Str → Option Str → Option Str
  compileString : Str → Option Str → Compiled π
  /-- `p()->parse`; `none` when `p()` throws, `some none` when there is no such function. -/
  clone : π → Option (Option φ)
  callScript : φ → Called ω
  htmlEncode : Str → Str

/-- What the module reads of a request, a file and its settings. -/
structure PspRequest where
  notQuery : Str
  realfile : Option Str
  /-- `id->pragma["no-cache"]`. -/
  noCache : Bool
  /-- `f->stat()[0]`. -/
  mode : Nat
  mtime : Int
  /-- `f->read(0x7ffffff)`. -/
  text : Str
  time : Int
  execMask : Nat
  noexecMask : Nat
  reloadOnUpdate : Bool

/-- The module, the scripts it keeps, and the constants of the server. -/
structure PspState (κ φ : Type) where
  psp : PspModule
  scripts : Mapping Str (Int × φ)
  constants : Constants κ

/-- How `handle_file_extension` is left. -/
inductive Left (ω : Type)
  /-- 0: the permissions do not match. -/
  | notMine
  /-- `string_answer`. -/
  | answer (page : Str)
  | reply (r : ω)
  | thrown
  /-- It is not: `parse_psp` goes on forever. -/
  | never

variable {κ π φ ω : Type}

/-! ## `handle_file_extension` -/

/-- The permissions match. -/
def PspRequest.permitted (r : PspRequest) : Bool :=
  decide (r.mode &&& r.execMask ≠ 0) && decide (r.mode &&& r.noexecMask = 0)

namespace Server

variable (v : Server κ π φ ω)

/-- A script that is kept is dropped where it is to be read again; `none` when that throws. -/
def reload (r : PspRequest) (s : PspState κ φ) : Option (PspState κ φ) :=
  match s.scripts.lookup r.notQuery with
  | none => some s
  | some (time, fn) =>
    if r.noCache || (r.reloadOnUpdate && decide (time < r.mtime)) then
      if v.alive fn then
        match v.noReload fn with
        | .absent => some { s with scripts := s.scripts.erase r.notQuery }
        | .value => some s
        | .function none => none
        | .function (some true) => some { s with scripts := s.scripts.erase r.notQuery }
        | .function (some false) => some s
      -- `function_object(0)`
      else none
    else some s

/-- The function of a script that is kept. -/
def kept (r : PspRequest) (s : PspState κ φ) : Option φ :=
  (s.scripts.lookup r.notQuery).bind fun entry => if v.alive entry.2 then some entry.2 else none

/-- The five `add_constant` before the page is compiled. -/
def ban (s : PspState κ φ) : PspState κ φ := { s with constants := fun _ => none }

/-- Those after it. -/
def unban (s : PspState κ φ) : PspState κ φ :=
  { s with constants := fun
      | .setegid => if v.hasSetegid then v.bound .setegid else s.constants .setegid
      | .seteuid => if v.hasSetegid then v.bound .seteuid else s.constants .seteuid
      | c => v.bound c }

/-- `call_script` and what follows it. -/
def run (r : PspRequest) (fn : φ) (s : PspState κ φ) : Left ω × PspState κ φ :=
  match v.callScript fn with
  | .reply reply => (.reply reply, s)
  | .array => (.thrown, { s with scripts := s.scripts.erase r.notQuery })
  | .thrown => (.thrown, s)

/-- From the first `add_constant` on. -/
def compile (r : PspRequest) (file : Str) (s : PspState κ φ) : Left ω × PspState κ φ :=
  let s := ban s
  match v.compileString file r.realfile with
  | .failed [] => (.thrown, s)
  | .failed messages =>
    (.answer ("<h1>Error compiling PSP page</h1><p><pre>".toList ++ v.htmlEncode messages ++
      "</pre>".toList), s)
  | .program p =>
    let s := v.unban s
    match v.clone p with
    | none => (.thrown, s)
    | some none => (.answer "<h1>Internal error in PSP page</h1>\n".toList, s)
    | some (some fn) => v.run r fn { s with scripts := s.scripts.insert r.notQuery (r.time, fn) }

/-- `parse_psp` of the file; a `realfile` of 0 is written as "0". -/
def parse (r : PspRequest) (s : PspState κ φ) : PspModule :=
  s.psp.parsePsp v.site { code := r.text, realfile := r.realfile.getD "0".toList }

/-- `handle_file_extension`. -/
def handleFileExtension (r : PspRequest) (s : PspState κ φ) : Left ω × PspState κ φ :=
  if r.permitted then
    match v.reload r s with
    | none => (.thrown, s)
    | some s =>
      match v.kept r s with
      | some fn => v.run r fn s
      | none =>
        let psp := v.parse r s
        let s := { s with psp := psp }
        match psp.last with
        | none => (.thrown, s)
        | some (_, .error .never) => (.never, s)
        | some (_, .error _) => (.thrown, s)
        | some (_, .ok file) =>
          match v.cpp file r.realfile with
          | none => (.thrown, s)
          | some file => v.compile r file s
  else (.notMine, s)

/-! ## What becomes of the constants -/

/-- The text that is compiled, unless there is a script already or none can be made. -/
def toCompile (r : PspRequest) (s : PspState κ φ) : Option Str :=
  if r.permitted then
    (v.reload r s).bind fun s =>
      match v.kept r s, (v.parse r s).last with
      | none, some (_, .ok file) => v.cpp file r.realfile
      | _, _ => none
  else none

/-- The constants as they are set after a page was compiled. -/
def restored : Constants κ
  | .setegid => if v.hasSetegid then v.bound .setegid else none
  | .seteuid => if v.hasSetegid then v.bound .seteuid else none
  | c => v.bound c

/-- The constants after a text was compiled. -/
def constantsAfter (r : PspRequest) (file : Str) : Constants κ :=
  match v.compileString file r.realfile with
  | .program _ => v.restored
  | .failed _ => fun _ => none

theorem run_constants (r : PspRequest) (fn : φ) (s : PspState κ φ) :
    (v.run r fn s).2.constants = s.constants := by
  unfold run
  cases v.callScript fn <;> rfl

theorem unban_ban (s : PspState κ φ) : (v.unban (ban s)).constants = v.restored := by
  funext c
  cases c <;> rfl

theorem compile_constants (r : PspRequest) (file : Str) (s : PspState κ φ) :
    (v.compile r file s).2.constants = v.constantsAfter r file := by
  unfold compile constantsAfter
  cases v.compileString file r.realfile with
  | failed messages => cases messages <;> rfl
  | program p =>
    dsimp only
    rw [← v.unban_ban s]
    cases v.clone p with
    | none => rfl
    | some fn =>
      cases fn with
      | none => rfl
      | some fn => exact v.run_constants r fn _

theorem reload_constants {r : PspRequest} {s s' : PspState κ φ} (h : v.reload r s = some s') :
    s'.constants = s.constants := by
  unfold reload at h
  split at h
  · rw [← Option.some.inj h]
  · split at h
    · split at h
      · split at h
        · rw [← Option.some.inj h]
        · rw [← Option.some.inj h]
        · cases h
        · rw [← Option.some.inj h]
        · rw [← Option.some.inj h]
      · cases h
    · rw [← Option.some.inj h]

/-- The constants change only where a text is compiled. -/
theorem handle_constants (r : PspRequest) (s : PspState κ φ) :
    (v.handleFileExtension r s).2.constants =
      match v.toCompile r s with
      | some file => v.constantsAfter r file
      | none => s.constants := by
  unfold handleFileExtension toCompile
  split
  next =>
    cases hreload : v.reload r s with
    | none => rfl
    | some s' =>
      rw [← v.reload_constants hreload]
      dsimp only [Option.bind_some]
      cases v.kept r s' with
      | some fn => exact v.run_constants r fn s'
      | none =>
        dsimp only
        cases (v.parse r s').last with
        | none => rfl
        | some last =>
          obtain ⟨page, result⟩ := last
          cases result with
          | error stop => cases stop <;> rfl
          | ok file =>
            dsimp only
            cases v.cpp file r.realfile with
            | none => rfl
            | some file => exact v.compile_constants r file _
  next => rfl

end Server

/-- **When the constants are left as they were.** For every request and state of the module the
five constants are after the call what they were before it if and only if nothing is compiled, or
a page is compiled and they were what psp.pike sets them to, or a page does not compile and they
were 0 already. -/
theorem constants_kept_iff (v : Server κ π φ ω) (r : PspRequest) (s : PspState κ φ) :
    (v.handleFileExtension r s).2.constants = s.constants ↔
      ∀ file, v.toCompile r s = some file →
        (∀ p, v.compileString file r.realfile = .program p → s.constants = v.restored) ∧
        ∀ messages, v.compileString file r.realfile = .failed messages →
          ∀ c, s.constants c = none := by
  rw [v.handle_constants]
  cases v.toCompile r s with
  | none => exact iff_of_true rfl fun file h => nomatch h
  | some file =>
    dsimp only
    unfold Server.constantsAfter
    constructor
    · intro heq file' hfile'
      obtain rfl := Option.some.inj hfile'
      constructor
      · intro p hp
        rw [hp] at heq
        exact heq.symm
      · intro messages hfailed c
        rw [hfailed] at heq
        exact (congrFun heq c).symm
    · intro h
      obtain ⟨hprogram, hfailed⟩ := h file rfl
      cases hc : v.compileString file r.realfile with
      | program p => exact (hprogram p hc).symm
      | failed messages => exact funext fun c => (hfailed messages hc c).symm

/-- A server on which `setuid` and the others are functions, and pages do not compile. -/
def faultyServer : Server Unit Unit Unit Unit where
  site :=
    { documentRoot := [], appendPath := fun _ _ => [], readFile := fun _ => .ok none }
  bound _ := some ()
  hasSetegid := true
  alive _ := true
  noReload _ := .absent
  cpp file _ := some file
  compileString _ _ := .failed "-:1\tError: syntax error\n".toList
  clone _ := none
  callScript _ := .thrown
  htmlEncode s := s

/-- A page with the text "x". -/
def faultyRequest : PspRequest where
  notQuery := "/x.psp".toList
  realfile := some "/x.psp".toList
  noCache := false
  mode := 0o644
  mtime := 0
  text := "x".toList
  time := 0
  execMask := 0o777
  noexecMask := 0
  reloadOnUpdate := false

/-- After one page that does not compile `setuid` is 0 for the whole server. -/
theorem constants_lost :
    ¬ ∀ (v : Server Unit Unit Unit Unit) (r : PspRequest) (s : PspState Unit Unit),
      (v.handleFileExtension r s).2.constants = s.constants := by
  intro h
  have hkept := h faultyServer faultyRequest ⟨.init, ∅, fun _ => some ()⟩
  have hlost : (faultyServer.handleFileExtension faultyRequest
      ⟨.init, ∅, fun _ => some ()⟩).2.constants .setuid = none := by
    decide +kernel
  rw [hkept] at hlost
  cases hlost

end Caudium.Psp
