import Caudium.Lib.Path
import Caudium.Lib.Search

/-!
# The restricted file system module (restrictedfs.pike)

Users see their home directories, under `/` with `remap_home` and else where they are. Each function
looks at the path and the home directory as texts, and then calls the inherited one, or does
not. What it does is a `Result`.
-/

namespace Caudium.RestrictedFs

open Lib (Str search components)

/-- The variables of the module that are used. -/
structure Config where
  remapHome : Bool
  /-- `.files`. -/
  dotFiles : Bool
  tilde : Bool

/-- What a function does. -/
inductive Result where
  /-- 0 is returned. -/
  | zero
  /-- An index is out of range. -/
  | error
  /-- The inherited function is called for a path, and what it returns is returned. -/
  | call (g : Str)
  | listing (dir : List Str)
  deriving DecidableEq

/-! ## Paths and the home directory -/

/-- `home[1..sizeof(f)]`. -/
def slice (home f : Str) : Str := (home.drop 1).take f.length

/-- The home directory without a slash in front and with one behind, and the path behind it. -/
def remapped (home f : Str) : Result :=
  match home with
  | [] => .error
  | c :: rest =>
    let home := if c = '/' then rest else home
    match home.getLast? with
    | none => .error
    | some c => .call ((if c ≠ '/' then home ++ ['/'] else home) ++ f)

/-- `backup_extension`. -/
def backupExtension (f : Str) : Bool :=
  match f.getLast? with
  | none => true
  | some c => c = '#' || c = '~' || (c = 'd' && (search f ".old".toList).isSome) ||
      (c = 'k' && (search f ".bak".toList).isSome)

/-- `dir_filter_function`; `none` for the empty name, which has no first character. -/
def dirFilterFunction (cfg : Config) (f : Str) : Option Bool :=
  match f with
  | [] => none
  | c :: _ => some (!(c = '.' && !cfg.dotFiles) && !(!cfg.tilde && backupExtension f))

/-- `Array.filter`. -/
def arrayFilter (p : Str → Option Bool) : List Str → Option (List Str)
  | [] => some []
  | a :: as => do
    let keep ← p a
    let rest ← arrayFilter p as
    pure (if keep then a :: rest else rest)

/-! ## The functions -/

/-- `stat_file`, with a home directory. -/
def statFile (cfg : Config) (home f : Str) : Result :=
  if cfg.remapHome then remapped home f
  else if search ('/' :: f) home ≠ some 0 then
    if slice home f ≠ f then .zero
    else
      match home[f.length]? with
      | none => .error
      | some '/' => .call f
      | some _ =>
        match home[f.length + 1]? with
        | none => .error
        | some '/' => .call f
        | some _ => .zero
  else .call f

/-- `find_dir`, with a home directory. -/
def findDir (cfg : Config) (home f : Str) : Result :=
  if cfg.remapHome then remapped home f
  else if search ('/' :: f) home ≠ some 0 then
    if slice home f = f then
      let next := (components (home.drop (f.length + 1))).headD []
      match arrayFilter (dirFilterFunction cfg) [['.'], ['.', '.'], next] with
      | none => .error
      | some dir => .listing dir
    else .call f
  else .call f

/-- `find_file`, with a home directory. -/
def findFile (cfg : Config) (home f : Str) : Result :=
  if cfg.remapHome then remapped home f
  else if search ('/' :: f) home ≠ some 0 then .zero
  else .call f

/-- The functions of the module. -/
inductive Entry where
  | statFile
  /-- It calls `stat_file`, and returns the path that was looked up there. -/
  | realFile
  | findDir
  | findFile
  deriving DecidableEq

/-- What a function does; nothing without a home directory. -/
def Entry.run (entry : Entry) (cfg : Config) (home : Option Str) (f : Str) : Result :=
  match home with
  | none => .zero
  | some home =>
    match entry with
    | .statFile | .realFile => RestrictedFs.statFile cfg home f
    | .findDir => RestrictedFs.findDir cfg home f
    | .findFile => RestrictedFs.findFile cfg home f

end Caudium.RestrictedFs
