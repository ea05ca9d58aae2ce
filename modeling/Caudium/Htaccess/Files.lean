import Caudium.Http.ParseGot
import Caudium.Lib.Replace
import Caudium.Lib.Split
import Mathlib.Data.List.Infix

/-!
# The access files of a file system

What the lookup of an .htaccess file asks the server: the directory a virtual path leads to
(`real_file`), what there is at a path (`file_stat`) and the file itself (`open`). The file it should
find is that of the deepest directory on the way to a path that has one (`deepest`).

Two things make the directories those of a file system: what is in a directory is there only if
the directory is, and '//' leads where '/' does. A server with a file system module at '/' is such
a one (`Disk.fileSystem`).
-/

namespace Caudium.Htaccess

open Lib (Str replaceAll)
open Http (splitOn)

/-- What there is at a path. -/
inductive Kind
  | file
  | directory
  | device
  | other
  deriving DecidableEq

/-- The files behind a server, at one time. -/
structure Files (F : Type) where
  /-- The name of an access file. -/
  file : Str
  /-- `conf->real_file`: the path of a directory, if it is there. -/
  realFile : Str → Option Str
  fileStat : Str → Option Kind
  /-- `open`, for reading. -/
  openFile : Str → Option F

variable {F : Type}

/-- The path of the access file in a directory. -/
def Files.fileIn (fs : Files F) (v : Str) : Option Str :=
  (fs.realFile v).bind fun p =>
    if fs.fileStat (p ++ fs.file) = some .file then some (p ++ fs.file) else none

/-- The directories on the way. -/
def dirsOn (v : Str) : List Str := v.inits.filter fun w => w.getLast? = some '/'

/-- The access file of the deepest directory that has one. -/
def Files.deepest (fs : Files F) (v : Str) : Option Str :=
  ((dirsOn v).filterMap fs.fileIn).getLast?

/-- The directories are those of a file system. -/
structure FileSystem (F : Type) extends Files F where
  closed : ∀ v w, (realFile (v ++ '/' :: (w ++ ['/']))).isSome → (realFile (v ++ ['/'])).isSome
  /-- One more '/' leads to the same file, maybe by another path. -/
  twice : ∀ v, (realFile (v ++ ['/', '/'])).isSome →
    (toFiles.fileIn (v ++ ['/', '/'])).map openFile = (toFiles.fileIn (v ++ ['/'])).map openFile

variable {fs : FileSystem F}

theorem fileIn_missing {fs : Files F} {v : Str} (h : fs.realFile v = none) :
    fs.fileIn v = none := by
  rw [Files.fileIn, h]
  rfl

theorem fileIn_there {fs : Files F} {v p : Str} (h : fs.realFile v = some p) :
    fs.fileIn v = if fs.fileStat (p ++ fs.file) = some .file then some (p ++ fs.file) else none := by
  rw [Files.fileIn, h, Option.bind_some]

theorem fileStat_fileIn {fs : Files F} {v path : Str} (h : fs.fileIn v = some path) :
    fs.fileStat path = some .file := by
  cases hreal : fs.realFile v with
  | none =>
    rw [fileIn_missing hreal] at h
    cases h
  | some p =>
    rw [fileIn_there hreal] at h
    split at h
    next hfile => rwa [← Option.some.inj h]
    next => cases h

theorem fileStat_deepest {fs : Files F} {v path : Str} (h : fs.deepest v = some path) :
    fs.fileStat path = some .file := by
  obtain ⟨dir, _, hdir⟩ := List.mem_filterMap.mp (List.mem_of_getLast? h)
  exact fileStat_fileIn hdir

theorem dirsOn_concat (v : Str) (c : Char) :
    dirsOn (v ++ [c]) = dirsOn v ++ if c = '/' then [v ++ [c]] else [] := by
  have hinits : (v ++ [c]).inits = v.inits ++ [v ++ [c]] := by
    rw [List.inits_append]
    rfl
  rw [dirsOn, hinits, List.filter_append]
  refine congrArg (dirsOn v ++ ·) ?_
  split
  next h => rw [List.filter_cons_of_pos (by simpa using h), List.filter_nil]
  next h => rw [List.filter_cons_of_neg (by simpa using h), List.filter_nil]

theorem dirsOn_segment (v : Str) {segment : Str} (h : '/' ∉ segment) :
    dirsOn (v ++ segment) = dirsOn v := by
  induction segment using List.reverseRecOn with
  | nil => rw [List.append_nil]
  | append_singleton segment c ih =>
    rw [List.mem_append, not_or, List.mem_singleton] at h
    rw [← List.append_assoc, dirsOn_concat, ih h.1, if_neg fun he => h.2 he.symm, List.append_nil]

/-- One more directory on the way. -/
theorem deepest_append (fs : FileSystem F) (v : Str) {segment : Str} (h : '/' ∉ segment) :
    fs.deepest (v ++ segment ++ ['/']) =
      (fs.fileIn (v ++ segment ++ ['/'])).or (fs.deepest v) := by
  rw [Files.deepest, dirsOn_concat, if_pos rfl, dirsOn_segment v h, List.filterMap_append,
    List.getLast?_append]
  cases hfile : fs.fileIn (v ++ segment ++ ['/']) with
  | none => rw [List.filterMap_cons_none hfile]; rfl
  | some f => rw [List.filterMap_cons_some hfile]; rfl

/-- Behind a directory that is not there nothing is. -/
theorem deepest_missing {segments : List Str} (hsegments : ∀ segment ∈ segments, '/' ∉ segment) :
    ∀ {before : Str}, fs.realFile (before ++ ['/']) = none →
      fs.deepest (before ++ ['/'] ++ segments.flatMap (· ++ ['/'])) =
        fs.deepest (before ++ ['/']) := by
  induction segments with
  | nil => intro before _; rw [List.flatMap_nil, List.append_nil]
  | cons segment segments ih =>
    intro before hnone
    rw [List.forall_mem_cons] at hsegments
    have hgone : fs.realFile (before ++ ['/'] ++ segment ++ ['/']) = none := by
      cases hreal : fs.realFile (before ++ ['/'] ++ segment ++ ['/']) with
      | none => rfl
      | some p =>
        have hthere := fs.closed before segment (by
          rw [List.append_assoc, List.append_assoc, List.singleton_append] at hreal
          rw [hreal]
          rfl)
        rw [hnone] at hthere
        cases hthere
    rw [List.flatMap_cons, ← List.append_assoc, ← List.append_assoc, ih hsegments.2 hgone,
      deepest_append fs _ hsegments.1, fileIn_missing hgone]
    rfl

theorem deepest_dir (fs : FileSystem F) (v : Str) :
    fs.deepest (v ++ ['/']) = (fs.fileIn (v ++ ['/'])).or (fs.deepest v) := by
  have h := deepest_append fs v (List.not_mem_nil (a := '/'))
  rwa [List.append_nil] at h

/-- One more '/' behind the path. -/
theorem deepest_slash (v : Str) :
    fs.deepest (v ++ ['/', '/']) = (fs.fileIn (v ++ ['/', '/'])).or (fs.deepest (v ++ ['/'])) := by
  have h := deepest_dir fs (v ++ ['/'])
  rwa [List.append_assoc] at h

/-- Where it leads to the same directory, nothing changes. -/
theorem deepest_same (fs : FileSystem F) {v : Str}
    (h : fs.realFile (v ++ ['/', '/']) = fs.realFile (v ++ ['/'])) :
    fs.deepest (v ++ ['/', '/']) = fs.deepest (v ++ ['/']) := by
  have hfile : fs.fileIn (v ++ ['/', '/']) = fs.fileIn (v ++ ['/']) := by
    rw [Files.fileIn, Files.fileIn, h]
  rw [deepest_slash, hfile, deepest_dir, ← Option.or_assoc, Option.or_self]

theorem deepest_twice (v : Str) :
    (fs.deepest (v ++ ['/', '/'])).map fs.openFile = (fs.deepest (v ++ ['/'])).map fs.openFile := by
  rw [deepest_slash]
  cases hreal : fs.realFile (v ++ ['/', '/']) with
  | none => rw [fileIn_missing hreal, Option.none_or]
  | some p =>
    have hsame := fs.twice v (by rw [hreal]; rfl)
    rw [deepest_dir, Option.map_or, Option.map_or, hsame, ← Option.or_assoc, Option.or_self]

/-! ## A file system module at '/' -/

/-- The names of a path. -/
def names (v : Str) : List Str := (splitOn '/' v).filter (· ≠ [])

/-- A disk: what there is under the names that lead to it. -/
structure Disk (F : Type) where
  stat : List Str → Option Kind
  openFile : List Str → Option F
  closed : ∀ above more, stat (above ++ more) = some .directory → stat above = some .directory

/-- "//" is really "/" here. -/
def oneSlash (v : Str) : Str := replaceAll [(['/', '/'], ['/'])] v

/-- `real_file`: what is behind the '/' of the module is looked for behind the '/' of the disk. -/
def Disk.realFile (disk : Disk F) (v : Str) : Option Str :=
  match oneSlash v with
  | '/' :: f => if disk.stat (names f) = some .directory then some ('/' :: f) else none
  | _ => none

def Disk.files (disk : Disk F) (file : Str) : Files F where
  file := file
  realFile := disk.realFile
  fileStat path := disk.stat (names path)
  openFile path := disk.openFile (names path)

theorem names_append (v w : Str) : names (v ++ '/' :: w) = names v ++ names w := by
  rw [names, splitOn, List.splitOn_append_cons_self, List.filter_append]
  rfl

theorem names_slash (v : Str) : names ('/' :: v) = names v := names_append [] v

theorem oneSlash_twice (v : Str) : oneSlash ('/' :: '/' :: v) = '/' :: oneSlash v :=
  Lib.replaceAll_rule (r := (['/', '/'], ['/'])) rfl nofun

theorem oneSlash_keep {c : Char} {v : Str} (h : ¬ ['/', '/'] <+: c :: v) :
    oneSlash (c :: v) = c :: oneSlash v := by
  refine Lib.replaceAll_keep (List.find?_eq_none.mpr fun r hr => ?_)
  rw [List.mem_singleton.mp hr, List.isPrefixOf_iff_prefix]
  exact h

/-- The induction along the replacement. -/
theorem oneSlash_induct {P : Str → Str → Prop} (nil : P [] [])
    (twice : ∀ v w, P v w → P ('/' :: '/' :: v) ('/' :: w))
    (keep : ∀ c v w, ¬ ['/', '/'] <+: c :: v → P v w → P (c :: v) (c :: w)) (v : Str) :
    P v (oneSlash v) := by
  induction hn : v.length using Nat.strongRecOn generalizing v with
  | ind n ih =>
    cases v with
    | nil => exact nil
    | cons c v =>
      subst hn
      by_cases hpair : ['/', '/'] <+: c :: v
      · obtain ⟨w, hw⟩ := hpair
        rw [← hw, List.cons_append, List.cons_append, List.nil_append, oneSlash_twice]
        refine twice w _ (ih w.length ?_ w rfl)
        rw [← hw, List.length_append]
        exact Nat.lt_add_of_pos_left (Nat.succ_pos 1)
      · rw [oneSlash_keep hpair]
        exact keep c v _ hpair (ih v.length (Nat.lt_succ_self _) v rfl)

theorem head_oneSlash (v : Str) : (oneSlash v).head? = v.head? :=
  oneSlash_induct (P := fun v w => w.head? = v.head?) rfl (fun _ _ _ => rfl)
    (fun _ _ _ _ _ => rfl) v

theorem getLast_oneSlash (v : Str) : (oneSlash v).getLast? = v.getLast? := by
  refine oneSlash_induct (P := fun v w => w.getLast? = v.getLast?) rfl ?_ ?_ v
  · intro v w ih
    rw [List.getLast?_cons, ih, List.getLast?_cons, List.getLast?_cons]
    rfl
  · intro c v w _ ih
    rw [List.getLast?_cons, ih, List.getLast?_cons]

/-- The names stay. -/
theorem names_oneSlash (v : Str) : names (oneSlash v) = names v := by
  -- A kept character may go on with a name, so the induction is for all that may stand before it.
  have h : ∀ before, names (before ++ oneSlash v) = names (before ++ v) := by
    refine oneSlash_induct (P := fun v w => ∀ before, names (before ++ w) = names (before ++ v))
      (fun _ => rfl) ?_ ?_ v
    · intro v w ih before
      rw [names_append, names_append, names_slash]
      exact congrArg _ (ih [])
    · intro c v w _ ih before
      have hnext := ih (before ++ [c])
      rwa [List.append_assoc, List.append_assoc] at hnext
  exact h []

theorem realFile_eq (disk : Disk F) (v : Str) :
    disk.realFile v =
      if v.head? = some '/' ∧ disk.stat (names v) = some .directory then some (oneSlash v)
      else none := by
  rw [← head_oneSlash, ← names_oneSlash, Disk.realFile]
  split
  next f h =>
    rw [h, names_slash]
    exact if_congr (and_iff_right rfl).symm rfl rfl
  next h =>
    refine (if_neg fun hhead => ?_).symm
    obtain ⟨f, hf⟩ := List.head?_eq_some_iff.mp hhead.1
    exact h f hf

theorem names_dir (v : Str) : names (v ++ ['/']) = names v := by
  rw [names_append]
  exact List.append_nil _

/-- A file in a directory has the names of both. -/
theorem names_file {v : Str} (h : v.getLast? = some '/') (file : Str) :
    names (v ++ file) = names v ++ names file := by
  obtain ⟨above, rfl⟩ := List.getLast?_eq_some_iff.mp h
  rw [List.append_assoc, List.singleton_append, names_append, names_dir]

theorem realFile_isSome {disk : Disk F} {v : Str} : (disk.realFile v).isSome ↔
    v.head? = some '/' ∧ disk.stat (names v) = some .directory := by
  rw [realFile_eq]
  split
  next h => exact iff_of_true rfl h
  next h => exact iff_of_false nofun h

/-- What comes of opening the file in a directory depends on the names. -/
theorem fileIn_disk {disk : Disk F} {file v : Str} (hlast : v.getLast? = some '/')
    (h : (disk.realFile v).isSome) :
    ((disk.files file).fileIn v).map (disk.files file).openFile =
      if disk.stat (names v ++ names file) = some .file then
        some (disk.openFile (names v ++ names file))
      else none := by
  have hnames : names (oneSlash v ++ file) = names v ++ names file := by
    rw [names_file ((getLast_oneSlash v).trans hlast), names_oneSlash]
  have hreal : (disk.files file).realFile v = some (oneSlash v) :=
    (realFile_eq disk v).trans (if_pos (realFile_isSome.1 h))
  rw [← hnames, fileIn_there hreal, apply_ite (Option.map _)]
  rfl

/-- **A disk** behind such a module makes a file system. -/
def Disk.fileSystem (disk : Disk F) (file : Str) : FileSystem F where
  toFiles := disk.files file
  closed v w h := by
    obtain ⟨hhead, hdir⟩ := realFile_isSome.1 h
    rw [names_append] at hdir
    refine realFile_isSome.2 ⟨?_, ?_⟩
    · cases v with
      | nil => rfl
      | cons c v => exact hhead
    · rw [names_dir]
      exact disk.closed _ _ hdir
  twice v h := by
    have hnames : names (v ++ ['/', '/']) = names (v ++ ['/']) := by
      rw [names_append, names_dir]
      exact List.append_nil _
    obtain ⟨hhead, hdir⟩ := realFile_isSome.1 h
    have hnear : (disk.realFile (v ++ ['/'])).isSome := by
      refine realFile_isSome.2 ⟨?_, hnames ▸ hdir⟩
      cases v with
      | nil => rfl
      | cons c v => exact hhead
    rw [fileIn_disk (by simp) h, fileIn_disk (by simp) hnear, hnames]

/-- What does not end in '/' is replaced apart from what is behind it. -/
theorem oneSlash_append {v : Str} (h : v.getLast? ≠ some '/') (w : Str) :
    oneSlash (v ++ w) = oneSlash v ++ oneSlash w := by
  refine oneSlash_induct (P := fun v t => v.getLast? ≠ some '/' → oneSlash (v ++ w) = t ++ oneSlash w)
    (fun _ => rfl) ?_ ?_ v h
  · intro v t ih hlast
    have hv : v.getLast? ≠ some '/' := by
      intro he
      rw [List.getLast?_cons, List.getLast?_cons, he] at hlast
      exact hlast rfl
    rw [List.cons_append, List.cons_append, oneSlash_twice, ih hv]
    rfl
  · intro c v t hpair ih hlast
    have hv : v.getLast? ≠ some '/' := by
      intro he
      rw [List.getLast?_cons, he] at hlast
      exact hlast rfl
    have hfar : ¬ ['/', '/'] <+: c :: (v ++ w) := by
      intro hpre
      cases v with
      | nil => exact hlast (congrArg some (List.cons_prefix_cons.mp hpre).1.symm)
      | cons d v =>
        rw [List.cons_append, List.cons_prefix_cons, List.cons_prefix_cons] at hpre
        refine hpair (List.cons_prefix_cons.mpr ⟨hpre.1, List.cons_prefix_cons.mpr ⟨hpre.2.1, ?_⟩⟩)
        exact List.nil_prefix
    rw [List.cons_append, oneSlash_keep hfar, ih hv]
    rfl

/-- There one more '/' leads to the same path, unless there are some already. -/
theorem realFile_slash (disk : Disk F) {v : Str} (h : v.getLast? ≠ some '/') :
    disk.realFile (v ++ ['/', '/']) = disk.realFile (v ++ ['/']) := by
  have hsame : oneSlash (v ++ ['/', '/']) = oneSlash (v ++ ['/']) := by
    rw [oneSlash_append h, oneSlash_append h]
    rfl
  rw [Disk.realFile, Disk.realFile, hsame]

end Caudium.Htaccess
