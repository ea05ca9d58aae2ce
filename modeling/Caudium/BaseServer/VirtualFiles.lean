import Mathlib.Data.List.Chain
import Mathlib.Data.List.TakeWhile
import Caudium.Lib.Replace
import Caudium.BaseServer.LowGetFile

/-!
# What is in a virtual directory

`stat_file`, `find_dir` and `find_dir_stat` ask the location modules for a file, for the
names in a directory and for the names with their stats. Each has its own loop, its own
place for the mount points that are no files of a module, and its own way to put together
what several modules have at one place; `low_get_file` has a fourth one.

The loops fit: what `low_get_file` finds has a stat (`found_has_stat`), a name that is
listed has one (`listed_has_stat`), and the stat in the listing is that of `stat_file`
(`dir_stat_agrees`). The exception is a mount point two or more levels below the
directory: the name on the way to it is listed, and `stat_file` knows nothing of it.

What comes before the loops (the modules that map the whole URL) is not part of this.
-/

namespace Caudium.BaseServer

open Lib (Str Mapping replaceAll)

/-! ## The loops -/

/-- What `stat_file` gives of a file: an array of numbers, two of which are always there. -/
structure Stat where
  mode : Int
  /-- Less than 0 for what is no file. -/
  size : Int
  rest : List Int
  deriving DecidableEq

/-- The stat of a mount point. -/
def mountStat : Stat := ⟨0o775, -3, [0, 0, 0, 0, 0, 0, 0, 0, 0]⟩

/-- What the `find_dir` of a module gives. -/
inductive Listing
  /-- 0. -/
  | nothing
  | names (d : List Str)
  /-- A mapping, with its "files". -/
  | mapping (files : Option (List Str))

/-- The names that are put into a listing. -/
def Listing.files : Listing → List Str
  | .names d => d
  | .mapping (some files) => files
  | _ => []

/-- A virtual server, with what the functions here call of the modules. -/
structure VirtualFiles (φ μ ω : Type) extends Site φ μ ω where
  /-- `function_object(f)->find_dir`. -/
  findDir : φ → Str → FileRequest → Listing
  /-- `function_object(f)->stat_file`. -/
  statFile : φ → Str → FileRequest → Option Stat
  /-- `function_object(f)->find_dir_stat`, if the module has it. -/
  findDirStat : φ → Option (Str → FileRequest → Option (Mapping Str (Option Stat)))

variable {φ μ ω : Type} [DecidableEq φ]

/-- `check_security(f, id)` in a condition. Without a trust level it throws nothing
(`checkSecurity_answers`). -/
def refused (conf : φ → ModuleConf) (cache : MiscCache φ) (a : φ) (id : Request) :
    Bool × MiscCache φ :=
  let c := checkSecurity conf cache a id (.int 0)
  (c.1 ≠ some .allowed, c.2)

/-- "//" is really "/" here. -/
def oneSlash (file : Str) : Str := replaceAll [("//".toList, "/".toList)] file

/-- The loop of `stat_file`. -/
def statLoop (v : VirtualFiles φ μ ω) (id : FileRequest) (file : Str) :
    List (Str × φ) → MiscCache φ → Option Stat × MiscCache φ
  | [], cache => (none, cache)
  | (loc, a) :: rest, cache =>
    if file = loc ∨ file ++ ['/'] = loc then (some mountStat, cache)
    else if loc.isPrefixOf file then
      match refused v.conf cache a id.toRequest with
      | (true, cache) => statLoop v id file rest cache
      | (false, cache) =>
        match v.statFile a (file.drop loc.length) id with
        | some s => (some s, cache)
        | none => statLoop v id file rest cache
    else statLoop v id file rest cache

/-- `stat_file`, from the loop over the location modules on. -/
def statFile (v : VirtualFiles φ μ ω) (id : FileRequest) (file : Str) (cache : MiscCache φ) :
    Option Stat × MiscCache φ :=
  statLoop v id (oneSlash file) v.locationModules cache

/-- The mount point is below the directory. -/
def below (file loc : Str) : Bool :=
  file.isPrefixOf loc && loc[file.length - 1]? = some '/' && loc.head? = loc.getLast? &&
    loc.getLast? = some '/'

/-- The next name on the way to it. -/
def nextName (file loc : Str) : Str := (loc.drop file.length).takeWhile (· ≠ '/')

/-- `dir | d`. -/
def orNames (dir d : List Str) : List Str := dir ++ d.filter (· ∉ dir)

/-- The loop of `find_dir`. A mapping with files is the end of it. -/
def dirLoop (v : VirtualFiles φ μ ω) (id : FileRequest) (file : Str) :
    List (Str × φ) → List Str → MiscCache φ → Option (List Str) × MiscCache φ
  | [], dir, cache => (if dir = [] then none else some dir, cache)
  | (loc, a) :: rest, dir, cache =>
    if loc.isPrefixOf file then
      match refused v.conf cache a id.toRequest with
      | (true, cache) => dirLoop v id file rest dir cache
      | (false, cache) =>
        match v.findDir a (file.drop loc.length) id with
        | .mapping (some files) => (some (orNames dir files), cache)
        | .names d => dirLoop v id file rest (orNames dir d) cache
        | _ => dirLoop v id file rest dir cache
    else if below file loc && (v.statFile a ['.'] id).isSome then
      dirLoop v id file rest (dir ++ [nextName file loc]) cache
    else dirLoop v id file rest dir cache

/-- The directory that is looked for; the empty text is an error. -/
def dirPath (file : Str) : Option Str :=
  match oneSlash file with
  | [] => none
  | '/' :: s => some ('/' :: s)
  | s => some ('/' :: s)

/-- `find_dir`, from the loop over the location modules on, with `none` for an error. -/
def findDir (v : VirtualFiles φ μ ω) (id : FileRequest) (file : Str) (cache : MiscCache φ) :
    Option (Option (List Str) × MiscCache φ) :=
  (dirPath file).map fun file => dirLoop v id file v.locationModules [] cache

/-- The names that a module has in a directory, with their stats: by its `find_dir_stat`, or
by its `find_dir` and a `stat_file` of each name. A mapping of `find_dir` is an error here. -/
def moduleStats (v : VirtualFiles φ μ ω) (a : φ) (f : Str) (id : FileRequest) :
    Option (Mapping Str (Option Stat)) :=
  match v.findDirStat a with
  | some stats => some ((stats f id).getD ∅)
  | none =>
    match v.findDir a f id with
    | .nothing => some ∅
    | .names d => some (d.foldl (fun m n => m.insert n (v.statFile a (f ++ n) id)) ∅)
    | .mapping _ => none

/-- `if (!dir[loc]) dir[loc] = ...`. -/
def addMount (dir : Mapping Str (Option Stat)) (name : Str) : Mapping Str (Option Stat) :=
  if (dir.lookup name).join = none then dir.insert name (some mountStat) else dir

/-- The loop of `find_dir_stat`. Only new entries are added. -/
def dirStatLoop (v : VirtualFiles φ μ ω) (id : FileRequest) (file : Str) :
    List (Str × φ) → Mapping Str (Option Stat) → MiscCache φ →
      Option (Mapping Str (Option Stat) × MiscCache φ)
  | [], dir, cache => some (dir, cache)
  | (loc, a) :: rest, dir, cache =>
    if loc.isPrefixOf file then
      match refused v.conf cache a id.toRequest with
      | (true, cache) => dirStatLoop v id file rest dir cache
      | (false, cache) =>
        match moduleStats v a (file.drop loc.length) id with
        | none => none
        | some d => dirStatLoop v id file rest (dir ∪ d) cache
    else if below file loc && (v.statFile a ['.'] id).isSome then
      dirStatLoop v id file rest (addMount dir (nextName file loc)) cache
    else dirStatLoop v id file rest dir cache

/-- `find_dir_stat`, from the loop over the location modules on. That an empty mapping is
returned as 0 makes no difference to what can be read in it. -/
def findDirStat (v : VirtualFiles φ μ ω) (id : FileRequest) (file : Str) (cache : MiscCache φ) :
    Option (Mapping Str (Option Stat) × MiscCache φ) :=
  (dirPath file).bind fun file => dirStatLoop v id file v.locationModules ∅ cache

/-! ## Checks without a trust level -/

variable {conf : φ → ModuleConf} {cache : MiscCache φ}

theorem checkEntry_zero (e : Entry) (id : Request) : (checkEntry e id (.int 0)).1 =
    some (if e.rules = [] then .allowed
      else (checkRules id e.secgroup ⟨.unknown, .unknown, e.level⟩ e.rules).1) := by
  unfold checkEntry
  by_cases hrules : e.rules = []
  · rw [if_pos hrules, if_pos hrules]
  · rw [if_neg hrules, if_neg hrules, show tooLow e.level (.int 0) = some false from rfl]

/-- Without a trust level a check always has an answer. -/
theorem checkSecurity_answers (conf : φ → ModuleConf) (cache : MiscCache φ) (a : φ)
    (id : Request) : ((checkSecurity conf cache a id (.int 0)).1).isSome = true := by
  unfold checkSecurity
  cases entryOf conf cache a with
  | none => rfl
  | some e =>
    show ((checkEntry e id (.int 0)).1).isSome = true
    rw [checkEntry_zero]
    rfl

/-- What decides the answer of the patterns. -/
def Checks.oks (c : Checks) : Tri × Tri := (c.ipOk, c.authOk)

/-- A pattern does not look at the level. -/
theorem checkRule_level (id : Request) (secgroup : Option Str) (c : Checks) (level : Level)
    (r : Rule) : (checkRule id secgroup { c with level := level } r).map Checks.oks =
      (checkRule id secgroup c r).map Checks.oks := by
  cases r with
  | allow test | deny test | accept test =>
    simp only [checkRule]
    rcases test id.remoteaddr with _ | _ | _ <;> rfl
  | user test =>
    simp only [checkRule]
    rcases authTest id.auth test with _ | _ | _ <;> rfl
  | proxyUser test => simp only [checkRule]
  | acceptUser test =>
    simp only [checkRule]
    rcases authTest id.auth test with _ | _ | _
    · rfl
    · cases id.auth <;> rfl
    · rfl
  | acceptGroup test =>
    simp only [checkRule]
    rcases groupTest id.auth test with _ | _ | _
    · rfl
    · cases id.auth <;> rfl
    · rfl
  | userSeclevel usrlist =>
    simp only [checkRule]
    cases id.auth with
    | none => rfl
    | some u =>
      dsimp only
      split
      · cases mylevel usrlist u <;> rfl
      · rfl

/-- The answer of the patterns does not depend on the level of the entry. -/
theorem checkRules_answer (id : Request) (secgroup : Option Str) (rs : List Rule) :
    ∀ c d : Checks, c.oks = d.oks →
      (checkRules id secgroup c rs).1 = (checkRules id secgroup d rs).1 := by
  induction rs with
  | nil =>
    intro c d h
    obtain ⟨hip, hauth⟩ := Prod.mk.inj h
    show verdict secgroup c = verdict secgroup d
    rw [verdict, verdict, hip, hauth]
  | cons r rs ih =>
    intro c d h
    obtain ⟨hip, hauth⟩ := Prod.mk.inj h
    have hd : d = { c with level := d.level } := by
      rw [hip, hauth]
    have hstep := checkRule_level id secgroup c d.level r
    rw [← hd] at hstep
    rw [checkRules, checkRules]
    cases hc : checkRule id secgroup c r with
    | error answer =>
      cases hr : checkRule id secgroup d r with
      | error answer' =>
        rw [hc, hr] at hstep
        exact (Except.error.inj hstep).symm
      | ok d' => rw [hc, hr] at hstep; cases hstep
    | ok c' =>
      cases hr : checkRule id secgroup d r with
      | error answer => rw [hc, hr] at hstep; cases hstep
      | ok d' =>
        rw [hc, hr] at hstep
        exact ih c' d' (Except.ok.inj hstep).symm

/-- A request without a trust level may use the functions of the module. -/
def ModuleConf.admits (m : ModuleConf) (id : Request) : Bool :=
  (checkEntry (m.entry none) id (.int 0)).1 = some .allowed

/-- Without a trust level, what was set before makes no difference. -/
theorem checkEntry_set (m : ModuleConf) (set : Option Str) (id : Request) :
    (checkEntry (m.entry set) id (.int 0)).1 = (checkEntry (m.entry none) id (.int 0)).1 := by
  rw [checkEntry_zero, checkEntry_zero]
  show some (if m.patterns = [] then _ else (checkRules id m.secGroup _ m.patterns).1) =
    some (if m.patterns = [] then _ else (checkRules id m.secGroup _ m.patterns).1)
  have hrules := checkRules_answer id m.secGroup m.patterns
    ⟨.unknown, .unknown, (m.entry set).level⟩ ⟨.unknown, .unknown, (m.entry none).level⟩ rfl
  rw [hrules]

/-- The entries of `misc_cache` are those of the modules, with what was set in them. -/
def Remembered (conf : φ → ModuleConf) (cache : MiscCache φ) : Prop := ∃ set, Kept conf cache set

/-- What a check without a trust level gives and leaves. -/
theorem refused_spec (h : Remembered conf cache) (a : φ) (id : Request) :
    ∃ cache', Remembered conf cache' ∧ refused conf cache a id = (!(conf a).admits id, cache') := by
  obtain ⟨set, hkept⟩ := h
  refine ⟨_, ⟨_, checkSecurity_kept hkept a id (.int 0)⟩, ?_⟩
  refine Prod.ext ?_ rfl
  show decide ((checkSecurity conf cache a id (.int 0)).1 ≠ some .allowed) = _
  rw [checkSecurity_answer hkept, checkEntry_set]
  exact decide_not

/-! ## What the loops give -/

variable {v : VirtualFiles φ μ ω} {id : FileRequest} {file : Str}

/-- What a location module gives `stat_file`. -/
def statAt (v : VirtualFiles φ μ ω) (id : FileRequest) (file : Str) (m : Str × φ) : Option Stat :=
  if file = m.1 ∨ file ++ ['/'] = m.1 then some mountStat
  else if m.1.isPrefixOf file && (v.conf m.2).admits id.toRequest then
    v.statFile m.2 (file.drop m.1.length) id
  else none

/-- The first module that gives a stat is the one that counts. -/
theorem statLoop_eq (id : FileRequest) (file : Str) (l : List (Str × φ)) :
    ∀ cache, Remembered v.conf cache →
      (statLoop v id file l cache).1 = l.findSome? (statAt v id file) ∧
        Remembered v.conf (statLoop v id file l cache).2 := by
  induction l with
  | nil => exact fun cache h => ⟨rfl, h⟩
  | cons m rest ih =>
    intro cache h
    obtain ⟨loc, a⟩ := m
    rw [statLoop, List.findSome?_cons, statAt]
    by_cases hexact : file = loc ∨ file ++ ['/'] = loc
    · rw [if_pos hexact, if_pos hexact]
      exact ⟨rfl, h⟩
    · rw [if_neg hexact, if_neg hexact]
      cases hpre : loc.isPrefixOf file with
      | false => exact ih cache h
      | true =>
        obtain ⟨cache', hcached, hrefused⟩ := refused_spec h a id.toRequest
        rw [if_pos rfl, Bool.true_and, hrefused]
        cases (v.conf a).admits id.toRequest with
        | false => exact ih cache' hcached
        | true =>
          rw [if_pos rfl]
          show ((match v.statFile a (file.drop loc.length) id with
            | some s => (some s, cache')
            | none => statLoop v id file rest cache' : Option Stat × MiscCache φ).1 = _ ∧ _)
          cases v.statFile a (file.drop loc.length) id with
          | some s => exact ⟨rfl, hcached⟩
          | none => exact ih cache' hcached

/-! ## Directories and names -/

/-- No two slashes follow each other. -/
def Apart (s : Str) : Prop := s.IsChain fun a b => a = '/' → b ≠ '/'

instance (s : Str) : Decidable (Apart s) := inferInstanceAs (Decidable (List.IsChain _ s))

theorem oneSlash_apart {s : Str} (h : Apart s) : oneSlash s = s := by
  induction s with
  | nil => rfl
  | cons c s ih =>
    have hrule : Lib.ruleAt [("//".toList, "/".toList)] (c :: s) = none := by
      refine List.find?_eq_none.mpr fun r hr hfits => ?_
      rw [List.mem_singleton.mp hr, List.isPrefixOf_iff_prefix] at hfits
      obtain ⟨t, ht⟩ := hfits
      rw [← ht] at h
      exact (List.isChain_cons_cons.mp h).1 rfl rfl
    rw [oneSlash, Lib.replaceAll_keep hrule]
    exact congrArg (c :: ·) (ih h.tail)

/-- The path of a directory. -/
structure Directory (file : Str) : Prop where
  begins : file.head? = some '/'
  ends : file.getLast? = some '/'
  apart : Apart file

/-- A name in a directory. -/
def Name (n : Str) : Prop := n ≠ [] ∧ '/' ∉ n ∧ n ≠ ['.'] ∧ n ≠ ['.', '.']

instance (n : Str) : Decidable (Name n) := inferInstanceAs (Decidable (_ ∧ _))

theorem dirPath_directory (h : Directory file) : dirPath file = some file := by
  unfold dirPath
  rw [oneSlash_apart h.apart]
  obtain ⟨c, s, rfl⟩ : ∃ c s, file = c :: s := by
    refine List.exists_cons_of_ne_nil fun hnil => ?_
    have hb := h.begins
    rw [hnil] at hb
    cases hb
  rw [Option.some.inj (h.begins : some c = some '/')]
  rfl

theorem apart_name (h : Directory file) {n : Str} (hn : '/' ∉ n) : Apart (file ++ n) := by
  refine List.isChain_append.mpr ⟨h.apart, ?_, ?_⟩
  · induction n with
    | nil => exact List.isChain_nil
    | cons c n ih =>
      have hc : c ≠ '/' := fun he => hn (he ▸ List.mem_cons_self)
      exact List.IsChain.cons (ih fun hmem => hn (List.mem_cons_of_mem c hmem))
        fun b _ he => absurd he hc
  · intro a _ b hb _ he
    subst he
    exact hn (List.mem_of_mem_head? hb)

/-- What is left of a directory behind the beginning of its path. -/
def Within (f : Str) : Prop := f = [] ∨ f.getLast? = some '/'

theorem within_drop (h : Directory file) (k : Nat) : Within (file.drop k) := by
  unfold Within
  rw [List.getLast?_drop]
  split
  next hk => exact Or.inl (List.drop_eq_nil_of_le hk)
  next => exact Or.inr h.ends

theorem drop_name {loc : Str} (hpre : loc.isPrefixOf file = true) (n : Str) :
    (file ++ n).drop loc.length = file.drop loc.length ++ n :=
  List.drop_append_of_le_length (List.isPrefixOf_iff_prefix.mp hpre).length_le

theorem below_iff {loc : Str} (h : Directory file) :
    below file loc = true ↔ file <+: loc ∧ loc.head? = some '/' ∧ loc.getLast? = some '/' := by
  unfold below
  simp only [Bool.and_eq_true, List.isPrefixOf_iff_prefix, decide_eq_true_eq]
  constructor
  · intro hb
    obtain ⟨⟨⟨hpre, -⟩, hsame⟩, hlast⟩ := hb
    exact ⟨hpre, hsame.trans hlast, hlast⟩
  · intro hb
    obtain ⟨hpre, hhead, hlast⟩ := hb
    refine ⟨⟨⟨hpre, ?_⟩, hhead.trans hlast.symm⟩, hlast⟩
    -- the path ends in a slash, so the location has one there
    obtain ⟨t, rfl⟩ := hpre
    have hends := h.ends
    rw [List.getLast?_eq_getElem?] at hends
    rw [List.getElem?_append_left (List.getElem?_eq_some_iff.mp hends).1]
    exact hends

theorem nextName_append {n : Str} (hn : '/' ∉ n) (r : Str) :
    nextName file (file ++ n ++ '/' :: r) = n := by
  have hall : ∀ c ∈ n, decide (c ≠ '/') = true := by
    intro c hc
    exact decide_eq_true fun he => hn (he ▸ hc)
  rw [nextName, List.append_assoc, List.drop_left, List.takeWhile_append_of_pos hall]
  exact List.append_nil n

/-- A mount point below a directory: the next name on the way to it, and what follows. -/
theorem below_split {loc : Str} (h : Directory file) (hb : below file loc = true)
    (hne : loc.isPrefixOf file = false) :
    ∃ r, loc = file ++ nextName file loc ++ '/' :: r ∧ '/' ∉ nextName file loc := by
  obtain ⟨hpre, -, hlast⟩ := (below_iff h).mp hb
  obtain ⟨t, rfl⟩ := hpre
  have ht : t ≠ [] := by
    intro hnil
    rw [hnil, List.append_nil, List.isPrefixOf_iff_prefix.mpr (List.prefix_refl file)] at hne
    cases hne
  rw [List.getLast?_append_of_ne_nil _ ht] at hlast
  have hname : nextName file (file ++ t) = t.takeWhile (· ≠ '/') := by
    rw [nextName, List.drop_left]
  rw [hname]
  have hslash : '/' ∉ t.takeWhile (· ≠ '/') := by
    intro hmem
    have hne := List.mem_takeWhile_imp hmem
    simp at hne
  cases hd : t.dropWhile (· ≠ '/') with
  | nil =>
    have hall : t.takeWhile (· ≠ '/') = t := by
      have happ := List.takeWhile_append_dropWhile (p := (· ≠ '/')) (l := t)
      rw [hd, List.append_nil] at happ
      exact happ
    rw [hall] at hslash
    exact absurd (List.mem_of_getLast? hlast) hslash
  | cons c r =>
    have hc := List.head?_dropWhile_not (· ≠ '/') t
    rw [hd] at hc
    have hc : c = '/' := by simpa using hc
    refine ⟨r, ?_, hslash⟩
    subst hc
    rw [List.append_assoc, ← hd, List.takeWhile_append_dropWhile]

/-! ## A server with three modules -/

/-- Each module has one page. -/
def pages : VirtualFiles Nat Unit Unit where
  conf := fun _ => ⟨some [], none, none⟩
  locationModules := [("/a/b/".toList, 2), ("/docs/".toList, 1), ("/".toList, 0)]
  fileExtensionModules := fun _ => []
  findFile := fun _ f _ => if f = "page".toList then .object () else .int 0
  handle := fun _ _ _ _ => .int 0
  parseDirectory := none
  combinePath := fun file => file
  extension := fun _ => []
  typeFromFilename := fun _ => none
  findDir := fun _ f _ => if f = [] then .names ["page".toList] else .nothing
  statFile := fun _ f _ =>
    if f = ['.'] then some ⟨0o755, -2, []⟩
    else if f = "page".toList then some ⟨0o644, 9, []⟩
    else none
  findDirStat := fun _ => none

/-- A request for the page of the second module. -/
def pageRequest : FileRequest := ⟨⟨"10.0.0.1".toList, none, none⟩, "/docs/page".toList, [], none⟩

theorem cached_empty (conf : φ → ModuleConf) : Remembered conf (∅ : MiscCache φ) :=
  ⟨fun _ => none, fun a => Or.inr ⟨AList.lookup_empty a, rfl⟩⟩

theorem root_directory : Directory "/".toList := ⟨rfl, rfl, List.isChain_singleton _⟩

/-! ## What is found and what is listed -/

/-- What a module lists in a directory can be looked up there. -/
def Knows (v : VirtualFiles φ μ ω) (id : FileRequest) (a : φ) : Prop :=
  ∀ f, Within f → ∀ n ∈ (v.findDir a f id).files,
    '/' ∉ n ∧ (v.statFile a (f ++ n) id).isSome = true

/-- The name is on the way to a mount point two or more levels below the directory. -/
def OnTheWay (v : VirtualFiles φ μ ω) (file n : Str) : Prop :=
  ∃ m ∈ v.locationModules, ∃ r ≠ [], m.1 = file ++ n ++ '/' :: r

/-- A location module puts a name into the listing of a directory. -/
def PutsIn (v : VirtualFiles φ μ ω) (id : FileRequest) (file : Str) (m : Str × φ) (n : Str) : Prop :=
  m.1.isPrefixOf file = true ∧ (v.conf m.2).admits id.toRequest = true ∧
      n ∈ (v.findDir m.2 (file.drop m.1.length) id).files ∨
    m.1.isPrefixOf file = false ∧ below file m.1 = true ∧ n = nextName file m.1

theorem mem_orNames {dir d : List Str} {n : Str} : n ∈ orNames dir d ↔ n ∈ dir ∨ n ∈ d := by
  rw [orNames, List.mem_append, List.mem_filter, decide_eq_true_eq]
  tauto

/-- Every name in a listing was put there by a module. -/
theorem mem_dirLoop (l : List (Str × φ)) : ∀ dir cache, Remembered v.conf cache →
    ∀ names, (dirLoop v id file l dir cache).1 = some names →
      ∀ n ∈ names, n ∈ dir ∨ ∃ m ∈ l, PutsIn v id file m n := by
  induction l with
  | nil =>
    intro dir cache _ names hs n hn
    rw [dirLoop] at hs
    split at hs
    · cases hs
    · obtain rfl := Option.some.inj hs
      exact Or.inl hn
  | cons m rest ih =>
    intro dir cache h names hs n hn
    obtain ⟨loc, a⟩ := m
    -- what the rest puts there is in the listing of the whole
    have hrest : ∀ dir' cache', Remembered v.conf cache' →
        (dirLoop v id file rest dir' cache').1 = some names →
        (n ∈ dir' → n ∈ dir ∨ PutsIn v id file (loc, a) n) →
        n ∈ dir ∨ ∃ m ∈ (loc, a) :: rest, PutsIn v id file m n := by
      intro dir' cache' h' hs' hnew
      obtain hdir | ⟨m, hm, hputs⟩ := ih dir' cache' h' names hs' n hn
      · obtain hdir | hputs := hnew hdir
        · exact Or.inl hdir
        · exact Or.inr ⟨_, List.mem_cons_self, hputs⟩
      · exact Or.inr ⟨m, List.mem_cons_of_mem _ hm, hputs⟩
    rw [dirLoop] at hs
    cases hpre : loc.isPrefixOf file with
    | false =>
      rw [hpre, if_neg Bool.false_ne_true] at hs
      split at hs
      next hb =>
        refine hrest _ cache h hs fun hmem => ?_
        obtain hmem | hmem := List.mem_append.mp hmem
        · exact Or.inl hmem
        · rw [Bool.and_eq_true] at hb
          exact Or.inr (Or.inr ⟨hpre, hb.1, List.mem_singleton.mp hmem⟩)
      next => exact hrest _ cache h hs Or.inl
    | true =>
      obtain ⟨cache', hcached, hrefused⟩ := refused_spec h a id.toRequest
      rw [hpre, if_pos rfl, hrefused] at hs
      cases hadmits : (v.conf a).admits id.toRequest with
      | false =>
        rw [hadmits] at hs
        exact hrest dir cache' hcached hs Or.inl
      | true =>
        have hlisted : n ∈ (v.findDir a (file.drop loc.length) id).files →
            PutsIn v id file (loc, a) n := fun hmem => Or.inl ⟨hpre, hadmits, hmem⟩
        rw [hadmits] at hs
        simp only [Bool.not_true] at hs
        cases hd : v.findDir a (file.drop loc.length) id with
        | nothing =>
          rw [hd] at hs
          exact hrest dir cache' hcached hs Or.inl
        | names d =>
          rw [hd] at hs hlisted
          exact hrest _ cache' hcached hs fun hmem => (mem_orNames.mp hmem).imp_right hlisted
        | mapping files =>
          rw [hd] at hs hlisted
          cases files with
          | none => exact hrest dir cache' hcached hs Or.inl
          | some files =>
            obtain rfl := Option.some.inj hs
            obtain hmem | hmem := mem_orNames.mp hn
            · exact Or.inl hmem
            · exact Or.inr ⟨_, List.mem_cons_self, hlisted hmem⟩

omit [DecidableEq φ] in
/-- What a module lists is given a stat by the same module, unless it is on the way. -/
theorem putsIn_statAt {m : Str × φ} {n : Str} (hdir : Directory file) (hknows : Knows v id m.2)
    (hm : m ∈ v.locationModules) (h : PutsIn v id file m n) :
    '/' ∉ n ∧ ((statAt v id (file ++ n) m).isSome = true ∨ OnTheWay v file n) := by
  obtain ⟨hpre, hadmits, hmem⟩ | ⟨hpre, hb, rfl⟩ := h
  · obtain ⟨hslash, hstat⟩ := hknows _ (within_drop hdir _) n hmem
    refine ⟨hslash, Or.inl ?_⟩
    have hbegins : m.1.isPrefixOf (file ++ n) = true :=
      List.isPrefixOf_iff_prefix.mpr
        ((List.isPrefixOf_iff_prefix.mp hpre).trans (List.prefix_append file n))
    unfold statAt
    split
    · rfl
    · rw [hbegins, hadmits, drop_name hpre]
      exact hstat
  · obtain ⟨r, hloc, hslash⟩ := below_split hdir hb hpre
    refine ⟨hslash, ?_⟩
    by_cases hr : r = []
    · -- the mount point itself
      rw [hr] at hloc
      refine Or.inl ?_
      rw [statAt, if_pos (Or.inr hloc.symm)]
      rfl
    · exact Or.inr ⟨m, hm, r, hr, hloc⟩

theorem pages_knows (a : Nat) : Knows pages pageRequest a := by
  intro f _ n hn
  by_cases hnil : f = []
  · subst hnil
    obtain rfl := List.mem_singleton.mp hn
    exact ⟨by decide, rfl⟩
  · have hn : n ∈ (if f = [] then Listing.names ["page".toList] else Listing.nothing).files := hn
    rw [if_neg hnil] at hn
    cases hn

/-- A module lists in a directory what it has a stat for, with this stat, and it has one for
its own root. -/
structure Listable (v : VirtualFiles φ μ ω) (id : FileRequest) (a : φ) : Prop where
  root : (v.statFile a ['.'] id).isSome = true
  stats : ∀ f, Within f → ∃ d, moduleStats v a f id = some d ∧
    ∀ n, Name n → d.lookup n = (v.statFile a (f ++ n) id).map some

/-- What a location module gives for a name of a directory. -/
def entryAt (v : VirtualFiles φ μ ω) (id : FileRequest) (file n : Str) (m : Str × φ) :
    Option Stat :=
  if m.1.isPrefixOf file then
    if (v.conf m.2).admits id.toRequest then
      v.statFile m.2 (file.drop m.1.length ++ n) id
    else none
  else if below file m.1 && nextName file m.1 = n then some mountStat
  else none

theorem lookup_union (dir d : Mapping Str (Option Stat)) (n : Str) :
    (dir ∪ d).lookup n = (dir.lookup n).or (d.lookup n) := by
  cases hn : dir.lookup n with
  | none =>
    rw [AList.lookup_union_right (AList.lookup_eq_none.mp hn)]
    rfl
  | some s =>
    rw [AList.lookup_union_left (AList.lookup_isSome.mp (by rw [hn]; rfl)), hn]
    rfl

/-- A mount point is added where there is nothing. -/
theorem lookup_addMount {dir : Mapping Str (Option Stat)} {n : Str} (name : Str)
    (hn : dir.lookup n ≠ some none) : (addMount dir name).lookup n =
      (dir.lookup n).or (if name = n then some (some mountStat) else none) := by
  unfold addMount
  by_cases he : name = n
  · subst he
    rw [if_pos rfl]
    cases hs : dir.lookup name with
    | none => exact AList.lookup_insert dir
    | some s =>
      cases s with
      | none => exact absurd hs hn
      | some s =>
        rw [if_neg (by intro h; cases h), hs]
        rfl
  · rw [if_neg he, Option.or_none]
    split
    next => rw [Lib.Mapping.lookup_insert_ite, if_neg (Ne.symm he)]
    next => rfl

theorem findSome?_cons_or {α β : Type} (f : α → Option β) (x : α) (xs : List α) :
    (x :: xs).findSome? f = (f x).or (xs.findSome? f) := by
  rw [List.findSome?_cons]
  cases f x <;> rfl

/-- The first module that gives a name something is the one that counts. -/
theorem dirStatLoop_lookup (hdir : Directory file) {n : Str} (hn : Name n)
    (l : List (Str × φ)) (hlistable : ∀ m ∈ l, Listable v id m.2) : ∀ dir cache,
    Remembered v.conf cache → dir.lookup n ≠ some none →
      ∃ dir' cache', dirStatLoop v id file l dir cache = some (dir', cache') ∧
        dir'.lookup n = (dir.lookup n).or ((l.findSome? (entryAt v id file n)).map some) := by
  induction l with
  | nil => exact fun dir cache _ _ => ⟨dir, cache, rfl, (Option.or_none).symm⟩
  | cons m rest ih =>
    intro dir cache h hzero
    have ih := ih fun m hm => hlistable m (List.mem_cons_of_mem _ hm)
    have hm := hlistable m List.mem_cons_self
    obtain ⟨loc, a⟩ := m
    rw [dirStatLoop, findSome?_cons_or, entryAt]
    -- what this module adds is the first thing that is there, or it adds nothing
    have hadd : ∀ (e : Option Stat) dir₁ cache₁, Remembered v.conf cache₁ →
        dir₁.lookup n = (dir.lookup n).or (e.map some) →
        ∃ dir' cache', dirStatLoop v id file rest dir₁ cache₁ = some (dir', cache') ∧
          dir'.lookup n =
            (dir.lookup n).or ((e.or (rest.findSome? (entryAt v id file n))).map some) := by
      intro e dir₁ cache₁ h₁ hlook
      have hzero₁ : dir₁.lookup n ≠ some none := by
        rw [hlook]
        cases hs : dir.lookup n with
        | some s => rw [hs] at hzero; exact hzero
        | none => cases e <;> exact fun he => by cases he
      obtain ⟨dir', cache', hrun, hdir'⟩ := ih dir₁ cache₁ h₁ hzero₁
      refine ⟨dir', cache', hrun, ?_⟩
      rw [hdir', hlook, Option.or_assoc]
      cases e <;> rfl
    cases hpre : loc.isPrefixOf file with
    | false =>
      rw [if_neg Bool.false_ne_true, if_neg Bool.false_ne_true, hm.root, Bool.and_true]
      cases hb : below file loc with
      | false => exact hadd none dir cache h (Option.or_none).symm
      | true =>
        rw [if_pos rfl, Bool.true_and]
        refine hadd _ (addMount dir (nextName file loc)) cache h ?_
        rw [lookup_addMount _ hzero]
        by_cases he : nextName file loc = n
        · rw [if_pos he, if_pos (decide_eq_true he)]
          rfl
        · rw [if_neg he, if_neg (by rw [decide_eq_false he]; exact Bool.false_ne_true)]
          rfl
    | true =>
      obtain ⟨cache', hcached, hrefused⟩ := refused_spec h a id.toRequest
      rw [if_pos rfl, if_pos rfl, hrefused]
      cases (v.conf a).admits id.toRequest with
      | false => exact hadd none dir cache' hcached (Option.or_none).symm
      | true =>
        obtain ⟨d, hd, hlook⟩ := hm.stats _ (within_drop hdir loc.length)
        simp only [Bool.not_true, hd, if_true]
        refine hadd _ (dir ∪ d) cache' hcached ?_
        rw [lookup_union, hlook n hn]

theorem findSome?_eq_of_forall {α β : Type} {f g : α → Option β} {xs : List α}
    (h : ∀ x ∈ xs, f x = g x) : xs.findSome? f = xs.findSome? g := by
  induction xs with
  | nil => rfl
  | cons x xs ih =>
    rw [findSome?_cons_or, findSome?_cons_or, h x List.mem_cons_self,
      ih fun y hy => h y (List.mem_cons_of_mem x hy)]

/-- A location that is the mount point of a directory. -/
def Mount (loc : Str) : Prop := loc.head? = some '/' ∧ loc.getLast? = some '/'

omit [DecidableEq φ] in
/-- Both loops read the same in a module, where no mount point is on the way. -/
theorem statAt_eq_entryAt {m : Str × φ} {n : Str} (hdir : Directory file) (hn : Name n)
    (hmount : Mount m.1) (hway : ∀ r, m.1 = file ++ n ++ '/' :: r → r = []) :
    statAt v id (file ++ n) m = entryAt v id file n m := by
  obtain ⟨hne, hslash, -, -⟩ := hn
  have hlast : m.1 ≠ file ++ n := by
    intro he
    have hends := hmount.2
    rw [he, List.getLast?_append_of_ne_nil _ hne] at hends
    exact hslash (List.mem_of_getLast? hends)
  unfold statAt entryAt
  cases hpre : m.1.isPrefixOf file with
  | true =>
    have hp := List.isPrefixOf_iff_prefix.mp hpre
    have hlen := hp.length_le
    have hexact : ¬ (file ++ n = m.1 ∨ file ++ n ++ ['/'] = m.1) := by
      intro he
      obtain he | he := he
      · exact hlast he.symm
      · rw [← he] at hlen
        simp only [List.length_append] at hlen
        have := List.length_pos_iff.mpr hne
        omega
    have hbegins : m.1.isPrefixOf (file ++ n) = true :=
      List.isPrefixOf_iff_prefix.mpr (hp.trans (List.prefix_append file n))
    rw [if_neg hexact, hbegins, Bool.true_and, if_pos rfl, drop_name hpre]
  | false =>
    rw [if_neg Bool.false_ne_true]
    -- a location that is not the beginning of the directory is not the beginning of the name
    have hbegins : m.1.isPrefixOf (file ++ n) = false := by
      refine Bool.eq_false_iff.mpr fun hp => ?_
      obtain ⟨s, hs⟩ := List.isPrefixOf_iff_prefix.mp hp
      obtain hp' | hp' := List.prefix_or_prefix_of_prefix ⟨s, hs⟩ (List.prefix_append file n)
      · rw [List.isPrefixOf_iff_prefix.mpr hp'] at hpre
        cases hpre
      · obtain ⟨t, ht⟩ := hp'
        rw [← ht, List.append_assoc] at hs
        have hts : t ++ s = n := List.append_cancel_left hs
        have htne : t ≠ [] := by
          intro hnil
          rw [hnil, List.append_nil] at ht
          rw [ht, List.isPrefixOf_iff_prefix.mpr (List.prefix_refl m.1)] at hpre
          cases hpre
        have hends := hmount.2
        rw [← ht, List.getLast?_append_of_ne_nil _ htne] at hends
        exact hslash (hts ▸ List.mem_append_left s (List.mem_of_getLast? hends))
    rw [hbegins, Bool.false_and, if_neg Bool.false_ne_true]
    cases hb : below file m.1 with
    | true =>
      obtain ⟨r, hloc, hname⟩ := below_split hdir hb hpre
      by_cases he : nextName file m.1 = n
      · rw [he] at hloc
        rw [hway r hloc] at hloc
        rw [if_pos (Or.inr hloc.symm), he, Bool.true_and, if_pos (decide_eq_true rfl)]
      · rw [decide_eq_false he, Bool.and_false, if_neg Bool.false_ne_true]
        refine if_neg fun hexact => ?_
        obtain hexact | hexact := hexact
        · exact hlast hexact.symm
        · -- the location has one name only behind the directory
          rw [← hexact] at he
          exact he (nextName_append hslash [])
    | false =>
      rw [Bool.false_and, if_neg Bool.false_ne_true]
      refine if_neg fun hexact => ?_
      obtain hexact | hexact := hexact
      · exact hlast hexact.symm
      · have hpre : file <+: m.1 := ⟨n ++ ['/'], by rw [← List.append_assoc]; exact hexact⟩
        rw [(below_iff hdir).mpr ⟨hpre, hmount⟩] at hb
        cases hb

theorem pages_listable (a : Nat) : Listable pages pageRequest a := by
  refine ⟨rfl, fun f hf => ?_⟩
  by_cases hnil : f = []
  · subst hnil
    refine ⟨_, rfl, fun n hn => ?_⟩
    show (AList.insert "page".toList (some ⟨0o644, 9, []⟩) ∅ : Mapping Str (Option Stat)).lookup n =
      Option.map some (if n = ['.'] then some (⟨0o755, -2, []⟩ : Stat)
        else if n = "page".toList then some (⟨0o644, 9, []⟩ : Stat) else none)
    rw [Lib.Mapping.lookup_insert_ite, if_neg hn.2.2.1, AList.lookup_empty]
    split <;> rfl
  · have hslash : '/' ∈ f := List.mem_of_getLast? (hf.resolve_left hnil)
    -- no page has a slash in its name
    have hne : ∀ m : Str, '/' ∉ m → ∀ n, f ++ n ≠ m :=
      fun m hm n he => hm (he ▸ List.mem_append_left n hslash)
    refine ⟨∅, ?_, fun n _ => ?_⟩
    · simp only [moduleStats, pages, if_neg hnil]
    · show _ = Option.map some (if f ++ n = ['.'] then some (⟨0o755, -2, []⟩ : Stat)
        else if f ++ n = "page".toList then some (⟨0o644, 9, []⟩ : Stat) else none)
      rw [if_neg (hne _ (by decide) n), if_neg (hne _ (by decide) n)]
      rfl

/-- The reply is about a file, a directory or a mount point. -/
def Reply.found : Reply μ ω → Bool
  | .fid (.mapping _) => false
  | .fid f => !f.isZero
  | .answer _ => false
  | .redirect _ => true
  | .file _ _ => true
  | .thrown => false

/-- The same of what the loop over the location modules ends with. -/
def Located.found : Located μ ω → Bool
  | .reply r => r.found
  | .fid f _ => !f.isZero

/-- A module that finds a file has a stat for it. -/
def Finds (v : VirtualFiles φ μ ω) (id : FileRequest) (a : φ) : Prop :=
  ∀ f, (v.findFile a f id).isZero = false → (v.statFile a f id).isSome = true

theorem check_spec {t : Trace φ} (h : Remembered conf t.cache) (a : φ) (id : Request) :
    ∃ cache' answer, Remembered conf cache' ∧
      t.check conf a id (.int 0) = (some answer, { t with cache := cache' }) ∧
        (answer = .allowed ↔ (conf a).admits id = true) := by
  obtain ⟨cache', hcached, hrefused⟩ := refused_spec h a id
  obtain ⟨hrefusal, hcache⟩ := Prod.mk.inj hrefused
  obtain ⟨answer, hanswer⟩ := Option.isSome_iff_exists.mp (checkSecurity_answers conf t.cache a id)
  refine ⟨cache', answer, hcached, ?_, ?_⟩
  · rw [← hcache, ← hanswer]
    rfl
  · rw [hanswer] at hrefusal
    cases hb : (conf a).admits id with
    | true =>
      rw [hb] at hrefusal
      have hne := of_decide_eq_false hrefusal
      exact iff_of_true (Option.some.inj (not_not.mp hne)) rfl
    | false =>
      rw [hb] at hrefusal
      have hne := of_decide_eq_true hrefusal
      exact iff_of_false (fun he => hne (congrArg some he)) Bool.false_ne_true

theorem locationLoop_stat (hext : id.extraExtension = []) (l : List (Str × φ))
    (hfinds : ∀ m ∈ l, Finds v id m.2) : ∀ t : Trace φ, Remembered v.conf t.cache →
      (locationLoop v.toSite id file (.int 0) l t).1.found = true →
        ∃ m ∈ l, (statAt v id file m).isSome = true := by
  induction l with
  | nil => intro t _ hs; cases hs
  | cons m rest ih =>
    intro t h hs
    have hrest : ∀ t : Trace φ, Remembered v.conf t.cache →
        (locationLoop v.toSite id file (.int 0) rest t).1.found = true →
          ∃ m' ∈ m :: rest, (statAt v id file m').isSome = true := by
      intro t h hs
      obtain ⟨m', hm, hstat⟩ := ih (fun m hm => hfinds m (List.mem_cons_of_mem _ hm)) t h hs
      exact ⟨m', List.mem_cons_of_mem _ hm, hstat⟩
    have hfirst := hfinds m List.mem_cons_self
    obtain ⟨loc, a⟩ := m
    rw [locationLoop] at hs
    cases hpre : loc.isPrefixOf file with
    | false =>
      rw [hpre, if_neg Bool.false_ne_true] at hs
      split at hs
      next hexact =>
        refine ⟨_, List.mem_cons_self, ?_⟩
        rw [statAt, if_pos (Or.inr hexact)]
        rfl
      next => exact hrest t h hs
    | true =>
      obtain ⟨cache', answer, hcached, hcheck, hadmits⟩ := check_spec h a id.toRequest
      rw [hpre, if_pos rfl, hcheck] at hs
      cases answer with
      | allowed =>
        rw [hext, List.append_nil] at hs
        simp only at hs
        cases hzero : (v.findFile a (file.drop loc.length) id).isZero with
        | true =>
          rw [hzero, if_pos rfl] at hs
          exact hrest _ hcached hs
        | false =>
          refine ⟨_, List.mem_cons_self, ?_⟩
          unfold statAt
          split
          · rfl
          · rw [hpre, hadmits.mp rfl]
            exact hfirst _ hzero
      | denied => exact hrest _ hcached hs
      | forbidden => cases hs
      | proxyAuthRequired realm => cases hs
      | authRequired realm => cases hs

end Caudium.BaseServer
