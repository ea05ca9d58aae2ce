import Caudium.Config.Files
import Mathlib.Logic.Function.Basic

/-!
# Saving a configuration file (`File.save`, Files.pmod)

`save` moves the file to a name with a "~" behind it and opens a new one. Where this one cannot
be opened it goes to move the old one back, by `mv` of the directory object. A `Dir` has `move`
and no `mv`, so the call throws, and the configuration stays under the other name.

What the operating system refuses is a parameter: it may depend on the directory in any way.
-/

namespace Caudium.Config

open Lib (Str)

/-! ## The directory -/

/-- What a name stands for. -/
inductive DirEntry where
  | regular (contents : Str)
  /-- A directory, a device and so on. -/
  | other
  deriving DecidableEq, Repr

/-- The directory of the configuration files. -/
abbrev Files := Str → Option DirEntry

/-- What is allowed, in a state of the directory. -/
structure Os where
  mayMove : Files → Str → Str → Bool
  mayOpen : Files → Str → Bool
  /-- Whether `Stdio.File` throws if the file is not opened, or gives 0. -/
  openThrows : Bool

/-- What comes of opening a file. -/
inductive Opening where
  | opened
  | zero
  | threw
  deriving DecidableEq, Repr

/-- The state after the attempt to open a file, and whether something was written to it. -/
structure Attempt where
  files : Files
  result : Opening
  written : Bool

/-- `Dir.move`; `none` is 0. -/
def Os.move (os : Os) (fs : Files) (source target : Str) : Option Files :=
  match fs source with
  | none => none
  | some e =>
    if os.mayMove fs source target then
      some (Function.update (Function.update fs source none) target (some e))
    else none

/-- The constructor of `Stdio.File`, with a mode that creates the file; `truncates` if there is
a "t" in it. -/
def Os.stdioFile (os : Os) (fs : Files) (fname : Str) (truncates : Bool) : Attempt :=
  if os.mayOpen fs fname then
    let e := match fs fname with
      | none => .regular []
      | some (.regular contents) => .regular (if truncates then [] else contents)
      | some .other => .other
    ⟨Function.update fs fname (some e), .opened, false⟩
  else ⟨fs, if os.openThrows then .threw else .zero, false⟩

/-- The file that `open_file` makes where there is none. -/
def stub : DirEntry := .regular (xmlProlog ++ xmlEpilog)

/-- `Dir.open_file`. -/
def Os.openFile (os : Os) (fs : Files) (fname : Str) (truncates : Bool) : Attempt :=
  if fname = [] ∨ fname = ['.'] ∨ fname = ['.', '.'] then ⟨fs, .zero, false⟩
  else
    match fs fname with
    | some .other => ⟨fs, .zero, false⟩
    | some (.regular _) => os.stdioFile fs fname truncates
    | none =>
      let ret := os.stdioFile fs fname truncates
      match ret.result with
      | .opened =>
        -- it is filled, closed, and opened again
        { os.stdioFile (Function.update ret.files fname (some stub)) fname truncates with
          written := true }
      | _ => ret

/-! ## `save` -/

/-- A `File`. Its regions were parsed, from a file that `is_config_file` takes. -/
structure ConfigFile where
  name : Str
  regions : Option Regions
  valid : regions ≠ none → name ≠ [] ∧ name.head? ≠ some '.'

/-- How `save` ends. -/
inductive SaveOutcome where
  /-- 0, as there are no regions. -/
  | nothing
  /-- An error message. -/
  | failed (message : Str)
  | threw
  /-- All is written; what the file is parsed as. -/
  | saved (regions : Option Regions)

structure SaveResult where
  files : Files
  outcome : SaveOutcome
  /-- Whether something was written to a file. -/
  written : Bool

def backupName (name : Str) : Str := name ++ ['~']

/-- The directory when the file is opened; `none` if there is no backup copy. -/
def ConfigFile.backedUp (os : Os) (file : ConfigFile) (nobackup : Bool) (fs : Files) :
    Option Files :=
  if nobackup then some fs else os.move fs file.name (backupName file.name)

/-- `parse`, after all is written. -/
def ConfigFile.parseAgain (os : Os) (parseInput : ParseInput) (file : ConfigFile) (fs : Files)
    (contents : Str) : Option Regions :=
  if os.mayOpen fs file.name then parse parseInput contents else none

/-- `File.save`. -/
def ConfigFile.save (os : Os) (parseInput : ParseInput) (file : ConfigFile) (nobackup : Bool)
    (fs : Files) : SaveResult :=
  match file.regions with
  | none => ⟨fs, .nothing, false⟩
  | some regions =>
    match file.backedUp os nobackup fs with
    | none => ⟨fs, .failed "Error creating a backup copy of the file".toList, false⟩
    | some fs =>
      let a := os.openFile fs file.name true
      match a.result with
      | .opened =>
        let contents := Config.save regions
        let fs := Function.update a.files file.name (some (.regular contents))
        ⟨fs, .saved (file.parseAgain os parseInput fs contents), true⟩
      -- `my_dir->mv` is 0, and a call of it an error
      | .zero => ⟨a.files, .threw, a.written⟩
      | .threw => ⟨a.files, .threw, a.written⟩

/-! ## What a failure leaves -/

/-- An error message is returned, or an error thrown, without the regions having been written. -/
def SaveResult.Fails (r : SaveResult) : Prop := (∃ m, r.outcome = .failed m) ∨ r.outcome = .threw

/-- And nothing at all was written. -/
def SaveResult.FailsUnwritten (r : SaveResult) : Prop := r.Fails ∧ r.written = false

/-- The name stands for what it stood for. -/
def Intact (before after : Files) (name : Str) : Prop :=
  ∃ e, before name = some e ∧ after name = some e

/-- Where the backup copy is to be made there is a file; and where no file is left, a new one can
be opened. -/
def ConfigFile.CanOpen (os : Os) (file : ConfigFile) (nobackup : Bool) (fs : Files) : Prop :=
  (nobackup = false → fs file.name ≠ none) ∧
    ∀ fs', file.backedUp os nobackup fs = some fs' → fs' file.name = none →
      os.mayOpen fs' file.name = true

/-- The new file can be opened again, when it has its stub; or the stub is what it was before. -/
def ConfigFile.CanReopen (os : Os) (file : ConfigFile) (nobackup : Bool) (fs : Files) : Prop :=
  ∀ fs', file.backedUp os nobackup fs = some fs' → fs' file.name = none →
    os.mayOpen (Function.update fs' file.name (some stub)) file.name = true ∨
      fs file.name = some stub

variable {os : Os} {file : ConfigFile} {nobackup : Bool} {fs fs' : Files} {name : Str}

theorem backupName_ne (name : Str) : name ≠ backupName name := by
  intro h
  have hlength := congrArg List.length h
  simp [backupName] at hlength

/-- With a backup copy nothing is left under the name. -/
theorem backedUp_cases (h : file.backedUp os nobackup fs = some fs') :
    nobackup = true ∧ fs' = fs ∨
      nobackup = false ∧ fs file.name ≠ none ∧ fs' file.name = none := by
  unfold ConfigFile.backedUp at h
  cases nobackup with
  | true => exact .inl ⟨rfl, (Option.some.inj h).symm⟩
  | false =>
    right
    rw [if_neg Bool.false_ne_true, Os.move] at h
    split at h
    · cases h
    · next e he =>
      split at h
      · cases h
        refine ⟨rfl, ?_, ?_⟩
        · rw [he]
          exact Option.some_ne_none e
        · rw [Function.update_of_ne (backupName_ne _), Function.update_self]
      · cases h

/-! ### Opening the file -/

theorem stdioFile_refused (h : os.mayOpen fs name = false) (truncates : Bool) :
    (os.stdioFile fs name truncates).result ≠ .opened ∧
      (os.stdioFile fs name truncates).files = fs ∧
        (os.stdioFile fs name truncates).written = false := by
  have hrefused : os.stdioFile fs name truncates =
      ⟨fs, if os.openThrows then .threw else .zero, false⟩ := by
    rw [Os.stdioFile, h]
    rfl
  rw [hrefused]
  refine ⟨?_, rfl, rfl⟩
  cases os.openThrows <;> simp

theorem stdioFile_result (fs : Files) (name : Str) (truncates : Bool) :
    (os.stdioFile fs name truncates).result = .opened ↔ os.mayOpen fs name = true := by
  cases h : os.mayOpen fs name with
  | true =>
    refine iff_of_true ?_ rfl
    rw [Os.stdioFile, h]
    rfl
  | false => exact iff_of_false (stdioFile_refused h truncates).1 Bool.false_ne_true

theorem openFile_valid (h : name ≠ [] ∧ name.head? ≠ some '.') :
    ¬(name = [] ∨ name = ['.'] ∨ name = ['.', '.']) := by
  intro hname
  obtain rfl | rfl | rfl := hname
  · exact h.1 rfl
  · exact h.2 rfl
  · exact h.2 rfl

/-- What there is under the name is left there, if it is not opened. -/
theorem openFile_present (hvalid : name ≠ [] ∧ name.head? ≠ some '.') {e : DirEntry}
    (he : fs name = some e) (hresult : (os.openFile fs name true).result ≠ .opened) :
    (os.openFile fs name true).files = fs := by
  unfold Os.openFile at hresult ⊢
  rw [if_neg (openFile_valid hvalid), he] at hresult ⊢
  cases e with
  | other => rfl
  | regular contents =>
    dsimp only at hresult ⊢
    rw [Ne, stdioFile_result, Bool.not_eq_true] at hresult
    exact (stdioFile_refused hresult true).2.1

/-- Where there is nothing, the file is not made; or it is, and cannot be opened again. -/
theorem openFile_missing (hvalid : name ≠ [] ∧ name.head? ≠ some '.') (hnone : fs name = none) :
    (os.mayOpen fs name = false ∧ (os.openFile fs name true).result ≠ .opened ∧
        (os.openFile fs name true).files = fs ∧ (os.openFile fs name true).written = false) ∨
      os.mayOpen fs name = true ∧
        ((os.openFile fs name true).result = .opened ↔
          os.mayOpen (Function.update fs name (some stub)) name = true) ∧
        (os.openFile fs name true).written = true ∧
        ((os.openFile fs name true).result ≠ .opened →
          (os.openFile fs name true).files = Function.update fs name (some stub)) := by
  unfold Os.openFile
  rw [if_neg (openFile_valid hvalid), hnone]
  dsimp only
  cases hopen : os.mayOpen fs name with
  | false =>
    left
    obtain ⟨hresult, hfiles, hwritten⟩ := stdioFile_refused hopen true
    refine ⟨rfl, ?_⟩
    split
    · next h => exact absurd h hresult
    · exact ⟨hresult, hfiles, hwritten⟩
  | true =>
    right
    have hmade : os.stdioFile fs name true =
        ⟨Function.update fs name (some (.regular [])), .opened, false⟩ := by
      rw [Os.stdioFile, hopen, hnone]
      rfl
    rw [hmade]
    dsimp only
    rw [Function.update_idem]
    refine ⟨rfl, stdioFile_result _ _ _, rfl, ?_⟩
    intro hresult
    rw [Ne, stdioFile_result, Bool.not_eq_true] at hresult
    exact (stdioFile_refused hresult true).2.1

/-! ### The whole of `save` -/

variable (parseInput : ParseInput) {regions : Regions}

theorem save_refused (hregions : file.regions = some regions)
    (h : file.backedUp os nobackup fs = none) : (file.save os parseInput nobackup fs).Fails ∧
      (file.save os parseInput nobackup fs).files = fs ∧
        (file.save os parseInput nobackup fs).written = false := by
  rw [ConfigFile.save, hregions]
  dsimp only
  rw [h]
  exact ⟨.inl ⟨_, rfl⟩, rfl, rfl⟩

/-- `save` fails if the file is not opened, and leaves what there is then. -/
theorem save_opening (hregions : file.regions = some regions)
    (h : file.backedUp os nobackup fs = some fs') :
    ((file.save os parseInput nobackup fs).Fails ↔
        (os.openFile fs' file.name true).result ≠ .opened) ∧
      ((os.openFile fs' file.name true).result ≠ .opened →
        (file.save os parseInput nobackup fs).files = (os.openFile fs' file.name true).files ∧
          (file.save os parseInput nobackup fs).written =
            (os.openFile fs' file.name true).written) := by
  rw [ConfigFile.save, hregions]
  dsimp only
  rw [h]
  dsimp only
  cases hresult : (os.openFile fs' file.name true).result with
  | opened =>
    refine ⟨iff_of_false ?_ (fun hne => hne rfl), fun hne => absurd rfl hne⟩
    intro hfails
    obtain ⟨m, hm⟩ | hthrew := hfails
    · cases hm
    · cases hthrew
  | zero => exact ⟨iff_of_true (.inr rfl) (by decide), fun _ => ⟨rfl, rfl⟩⟩
  | threw => exact ⟨iff_of_true (.inr rfl) (by decide), fun _ => ⟨rfl, rfl⟩⟩

/-! ### The conditions -/

theorem conditions_refused (h : file.backedUp os nobackup fs = none) :
    (file.CanOpen os nobackup fs ↔ fs file.name ≠ none) ∧ file.CanReopen os nobackup fs := by
  have hbackup : nobackup = false := by
    cases nobackup with
    | true => cases h
    | false => rfl
  unfold ConfigFile.CanOpen ConfigFile.CanReopen
  rw [h]
  refine ⟨⟨fun hcan => hcan.1 hbackup, fun hne => ⟨fun _ => hne, ?_⟩⟩, ?_⟩
  · intro fs' hfs'
    cases hfs'
  · intro fs' hfs'
    cases hfs'

/-- With a file under the name it was not moved away. -/
theorem conditions_present (h : file.backedUp os nobackup fs = some fs') {e : DirEntry}
    (he : fs' file.name = some e) :
    fs' = fs ∧ file.CanOpen os nobackup fs ∧ file.CanReopen os nobackup fs := by
  obtain ⟨hbackup, hsame⟩ | ⟨-, -, hnone⟩ := backedUp_cases h
  · unfold ConfigFile.CanOpen ConfigFile.CanReopen
    rw [h]
    refine ⟨hsame, ⟨?_, ?_⟩, ?_⟩
    · intro hfalse
      rw [hbackup] at hfalse
      cases hfalse
    · intro fs'' hfs'' hnone
      cases hfs''
      rw [he] at hnone
      cases hnone
    · intro fs'' hfs'' hnone
      cases hfs''
      rw [he] at hnone
      cases hnone
  · rw [he] at hnone
    cases hnone

theorem conditions_missing (h : file.backedUp os nobackup fs = some fs')
    (hnone : fs' file.name = none) :
    (file.CanOpen os nobackup fs ↔ os.mayOpen fs' file.name = true) ∧
      (file.CanReopen os nobackup fs ↔
        os.mayOpen (Function.update fs' file.name (some stub)) file.name = true ∨
          fs file.name = some stub) := by
  unfold ConfigFile.CanOpen ConfigFile.CanReopen
  rw [h]
  refine ⟨⟨fun hcan => hcan.2 fs' rfl hnone, fun hopen => ⟨?_, ?_⟩⟩,
    ⟨fun hcan => hcan fs' rfl hnone, fun hopen => ?_⟩⟩
  · intro hbackup
    obtain ⟨htrue, -⟩ | ⟨-, hpresent, -⟩ := backedUp_cases h
    · rw [hbackup] at htrue
      cases htrue
    · exact hpresent
  · intro fs'' hfs'' _
    cases hfs''
    exact hopen
  · intro fs'' hfs'' _
    cases hfs''
    exact hopen

theorem intact_refl_iff : Intact fs fs name ↔ fs name ≠ none := by
  rw [Option.ne_none_iff_exists']
  exact exists_congr fun e => and_self_iff

/-- A file without regions, under the name "a". -/
def sampleFile : ConfigFile := ⟨['a'], some ∅, fun _ => ⟨by decide, by decide⟩⟩

def oneFile : Files := Function.update (fun _ => none) ['a'] (some stub)

/-- There are no more descriptors for files. -/
def noDescriptors : Os := ⟨fun _ _ _ => true, fun _ _ => false, false⟩

end Caudium.Config
