import Caudium.Filesystem.Changes

/-!
# The file system module (filesystem.pike): when something is changed

`Acts` says for each method which flags, sizes and calls it takes to change something;
`changes_ne_nil_iff` that nothing else does. With `no_symlinks` no method changes anything behind
a symbolic link, except that MOVE and COPY look for it in the wrong place: they give
`contains_symlinks` the whole path, which it appends to the search path again.
-/

namespace Caudium.Filesystem

open Lib (Str Place place hierarchy AtOrAbove)

variable {cfg : Config} {d : Disk} {f : Str} {id : RequestID}

/-! ## Calls -/

/-- `mkdir` makes the directory. -/
def Disk.CanMkdir (d : Disk) (f : Str) : Prop :=
  d.node (place f) = none ∧ d.permits (.mkdir f) = true

/-- `Stdio.mkdirhier` makes one or more. -/
def Disk.CanMkdirhier (d : Disk) (f : Str) : Prop := ∃ g ∈ hierarchy f, g ≠ [] ∧ d.CanMkdir g

def Disk.CanRm (d : Disk) (f : Str) : Prop :=
  d.node (place f) ≠ none ∧ d.permits (.rm f) = true

/-- `open(f, "wct")` opens it. -/
def Disk.CanCreate (d : Disk) (f : Str) : Prop :=
  d.node (place f) ≠ some .dir ∧ d.permits (.openFile f) = true

/-- `open(f, "arw")` opens it. -/
def Disk.CanAppend (d : Disk) (f : Str) : Prop :=
  d.node (place f) ≠ none ∧ d.node (place f) ≠ some .dir ∧ d.permits (.openFile f) = true

def Disk.CanChmod (d : Disk) (f : Str) : Prop :=
  d.node (place f) ≠ none ∧ d.permits (.chmod f) = true

def Disk.CanMv (d : Disk) (movefrom f : Str) : Prop :=
  d.node (place movefrom) ≠ none ∧ ¬ AtOrAbove (place movefrom) (place f) ∧
    d.permits (.mv movefrom f) = true

/-- `Stdio.cp` comes to write. -/
def Disk.CanCp (d : Disk) (f destination : Str) : Prop :=
  d.node (place f) ≠ none ∧ d.node (place destination) ≠ some .dir ∧
    d.permits (.openFile destination) = true

theorem effect_ne_nil {P : Prop} [Decidable P] {x : Change} {d' d'' : Disk} :
    (if P then (([x], d') : Effect) else ([], d'')).1 ≠ [] ↔ P := by
  split
  next hP => exact iff_of_true (List.cons_ne_nil _ _) hP
  next hP => exact iff_of_false (fun h => h rfl) hP

theorem mkdir_ne_nil : (d.mkdir f).1 ≠ [] ↔ d.CanMkdir f := by
  unfold Disk.mkdir
  exact effect_ne_nil

theorem rm_ne_nil : (d.rm f).1 ≠ [] ↔ d.CanRm f := by
  unfold Disk.rm
  exact effect_ne_nil

theorem openCreate_ne_nil : (d.openCreate f).1 ≠ [] ↔ d.CanCreate f := by
  unfold Disk.openCreate
  exact effect_ne_nil

theorem openAppend_ne_nil : (d.openAppend f).1 ≠ [] ↔ d.CanAppend f := by
  unfold Disk.openAppend
  exact effect_ne_nil

theorem chmod_ne_nil : (d.chmod f).1 ≠ [] ↔ d.CanChmod f := by
  unfold Disk.chmod
  exact effect_ne_nil

theorem mv_ne_nil {movefrom : Str} : (d.mv movefrom f).1 ≠ [] ↔ d.CanMv movefrom f := by
  unfold Disk.mv
  exact effect_ne_nil

theorem cp_ne_nil {destination : Str} : (d.cp f destination).2.1 ≠ [] ↔ d.CanCp f destination := by
  unfold Disk.cp
  split
  next h => exact iff_of_true (List.cons_ne_nil _ _) h
  next h => exact iff_of_false (fun hne => hne rfl) h

theorem mkdir_stays {f : Str} (h : ¬ d.CanMkdir f) : d.mkdir f = ([], d) := if_neg h

theorem rm_stays {f : Str} (h : ¬ d.CanRm f) : d.rm f = ([], d) := if_neg h

theorem mkdirs_stays : ∀ {fs : List Str}, (∀ g ∈ fs, ¬ d.CanMkdir g) → d.mkdirs fs = ([], d) := by
  intro fs
  induction fs with
  | nil => exact fun _ => rfl
  | cons f fs ih =>
    intro h
    rw [List.forall_mem_cons] at h
    rw [Disk.mkdirs, mkdir_stays h.1]
    dsimp only
    rw [ih h.2]
    rfl

theorem mkdirs_ne_nil {fs : List Str} : (d.mkdirs fs).1 ≠ [] ↔ ∃ g ∈ fs, d.CanMkdir g := by
  induction fs with
  | nil => simp [Disk.mkdirs]
  | cons f fs ih =>
    rw [List.exists_mem_cons_iff]
    by_cases h : d.CanMkdir f
    · refine iff_of_true ?_ (Or.inl h)
      exact fun hnil => mkdir_ne_nil.2 h (List.append_eq_nil_iff.mp hnil).1
    · rw [Disk.mkdirs, mkdir_stays h, or_iff_right h, ← ih]
      rfl

theorem mkdirhier_stays {f : Str} (h : ¬ d.CanMkdirhier f) : d.mkdirhier f = ([], d) := by
  refine mkdirs_stays fun g hg hcan => ?_
  obtain ⟨hmem, hne⟩ := List.mem_filter.mp hg
  exact h ⟨g, hmem, of_decide_eq_true hne, hcan⟩

theorem mkdirhier_ne_nil {f : Str} : (d.mkdirhier f).1 ≠ [] ↔ d.CanMkdirhier f := by
  simp [Disk.mkdirhier, mkdirs_ne_nil, Disk.CanMkdirhier, List.mem_filter, and_assoc]

/-! ## The methods -/

/-- `no_symlinks` is set, and there is a link. -/
def Config.Blocked (cfg : Config) (d : Disk) (f : Str) : Prop :=
  cfg.noSymlinks = true ∧ d.containsSymlinks cfg.path f = true

/-- Past the guards of most methods. -/
def Config.Accepts (cfg : Config) (flag : Prop) (d : Disk) (f : Str) (id : RequestID) : Prop :=
  flag ∧ ¬ cfg.Denied id ∧ ¬ cfg.Blocked d f

/-- "MV" changes something. -/
def ActsMv (cfg : Config) (d : Disk) (oldf : Str) (id : RequestID) : Prop :=
  let f := cfg.path ++ oldf
  cfg.methodMv = true ∧ (cfg.delete = true ∨ d.fileSize f = -1) ∧ ¬ d.fileSize f < -1 ∧
    ¬ cfg.Denied id ∧ ∃ from_ movefrom,
      id.moveFrom = some from_ ∧ id.realFile from_ = some movefrom ∧
      ¬ cfg.Blocked d oldf ∧ ¬ cfg.Blocked d from_ ∧ d.CanMv movefrom f

/-- "MOVE" changes something. -/
def ActsMove (cfg : Config) (d : Disk) (oldf : Str) (id : RequestID) : Prop :=
  let f := cfg.path ++ oldf
  cfg.methodMv = true ∧ d.fileSize f ≠ -1 ∧ ¬ cfg.Denied id ∧ id.newUri.getD [] ≠ [] ∧
    ∃ rest, moveto cfg.mountpoint oldf (id.newUri.getD []) = some rest ∧
      let moveto := cfg.path ++ rest
      (cfg.delete = true ∨ d.fileSize moveto = -1) ∧ ¬ d.fileSize moveto < -1 ∧
        ¬ cfg.Blocked d f ∧ ¬ cfg.Blocked d moveto ∧ d.CanMv f moveto

/-- "COPY" changes something. -/
def ActsCopy (cfg : Config) (d : Disk) (oldf : Str) (id : RequestID) : Prop :=
  let f := cfg.path ++ oldf
  let destination := cfg.path ++ id.destination.getD ['0']
  cfg.copy = true ∧ (d.fileSize destination = -1 ∨ id.overwrite = some ['T']) ∧
    ¬ cfg.Denied id ∧ ¬ cfg.Blocked d f ∧ ¬ cfg.Blocked d destination ∧ f ≠ destination ∧
    d.CanCp f destination

/-- The request changes something. -/
def Acts (cfg : Config) (d : Disk) (oldf : Str) (id : RequestID) : Prop :=
  let f := cfg.path ++ oldf
  if id.method = "MKDIR".toList then
    cfg.Accepts (cfg.methodMkdir = true) d oldf id ∧ d.CanMkdir f
  else if id.method = "PUT".toList then
    cfg.Accepts (cfg.put = true) d oldf id ∧
      (d.CanRm f ∨ d.CanMkdirhier (dirname f) ∨ d.CanCreate f)
  else if id.method = "APPE".toList then
    cfg.Accepts (cfg.put = true ∨ cfg.appe = true) d oldf id ∧ (d.CanMkdirhier f ∨ d.CanAppend f)
  else if id.method = "CHMOD".toList then
    cfg.Accepts (cfg.methodChmod = true) d oldf id ∧ d.CanChmod f
  else if id.method = "MV".toList then ActsMv cfg d oldf id
  else if id.method = "MOVE".toList then ActsMove cfg d oldf id
  else if id.method = "COPY".toList then ActsCopy cfg d oldf id
  else if id.method = "DELETE".toList then
    cfg.Accepts (cfg.delete = true ∧ d.fileSize f ≠ -1) d oldf id ∧ d.CanRm f
  else False

/-- Behind a guard. -/
theorem changes_guard {P : Prop} [Decidable P] {o o' : Outcome} (ho : o.changes = []) :
    (if P then o else o').changes ≠ [] ↔ ¬ P ∧ o'.changes ≠ [] := by
  split
  next hP => exact iff_of_false (fun h => h ho) fun h => h.1 hP
  next hP => exact (and_iff_right hP).symm

/-- Behind the three guards that most methods have. -/
theorem changes_accepts {flag P : Prop} [Decidable P] (hP : ¬ P ↔ flag) {o : Outcome} {n : Nat}
    {text : String} :
    (if P then Outcome.fail n [] else if cfg.Denied id then .refuse 401 text
      else if cfg.noSymlinks = true ∧ d.containsSymlinks cfg.path f = true then
        .refuse 403 "Permission denied."
      else o).changes ≠ [] ↔ cfg.Accepts flag d f id ∧ o.changes ≠ [] := by
  rw [changes_guard rfl, changes_guard rfl, changes_guard rfl, hP, ← and_assoc, ← and_assoc,
    Config.Accepts, and_assoc (a := flag)]
  rfl

theorem findMkdir_acts : (findMkdir cfg d f id).changes ≠ [] ↔
    cfg.Accepts (cfg.methodMkdir = true) d f id ∧ d.CanMkdir (cfg.path ++ f) := by
  refine (changes_accepts not_not).trans (and_congr_right fun _ => ?_)
  dsimp only
  rw [changes_guard rfl, ← mkdir_ne_nil]
  exact and_iff_left_of_imp fun h hnil => h (List.append_eq_nil_iff.mp hnil).1

theorem findPut_acts : (findPut cfg d f id).changes ≠ [] ↔
    cfg.Accepts (cfg.put = true) d f id ∧
      (d.CanRm (cfg.path ++ f) ∨ d.CanMkdirhier (dirname (cfg.path ++ f)) ∨
        d.CanCreate (cfg.path ++ f)) := by
  refine (changes_accepts not_not).trans (and_congr_right fun _ => ?_)
  generalize cfg.path ++ f = g
  -- a call that changes nothing is followed by the next one on the same disk
  by_cases hrm : d.CanRm g
  · refine iff_of_true (fun hnil => ?_) (Or.inl hrm)
    dsimp only at hnil
    split at hnil
    · exact rm_ne_nil.2 hrm (List.append_eq_nil_iff.mp hnil).1
    · rw [changes_received, List.append_assoc, List.append_assoc] at hnil
      exact rm_ne_nil.2 hrm (List.append_eq_nil_iff.mp hnil).1
  rw [rm_stays hrm, or_iff_right hrm]
  dsimp only
  by_cases hmake : d.CanMkdirhier (dirname g)
  · refine iff_of_true (fun hnil => ?_) (Or.inl hmake)
    split at hnil
    · exact mkdirhier_ne_nil.2 hmake hnil
    · rw [changes_received, List.append_assoc] at hnil
      exact mkdirhier_ne_nil.2 hmake (List.append_eq_nil_iff.mp hnil).1
  rw [mkdirhier_stays hmake, or_iff_right hmake, ← openCreate_ne_nil]
  dsimp only
  rw [changes_guard rfl, changes_received]
  exact and_iff_left_of_imp fun h hnil => h (List.append_eq_nil_iff.mp hnil).1

theorem findAppe_acts : (findAppe cfg d f id).changes ≠ [] ↔
    cfg.Accepts (cfg.put = true ∨ cfg.appe = true) d f id ∧
      (d.CanMkdirhier (cfg.path ++ f) ∨ d.CanAppend (cfg.path ++ f)) := by
  have hflag : ¬ (¬ cfg.put = true ∧ ¬ cfg.appe = true) ↔ cfg.put = true ∨ cfg.appe = true := by
    rw [not_and_or, not_not, not_not]
  refine (changes_accepts hflag).trans (and_congr_right fun _ => ?_)
  generalize cfg.path ++ f = g
  by_cases hmake : d.CanMkdirhier g
  · refine iff_of_true (fun hnil => ?_) (Or.inl hmake)
    dsimp only at hnil
    split at hnil
    · exact mkdirhier_ne_nil.2 hmake hnil
    · rw [changes_received, List.append_assoc] at hnil
      exact mkdirhier_ne_nil.2 hmake (List.append_eq_nil_iff.mp hnil).1
  rw [mkdirhier_stays hmake, or_iff_right hmake, ← openAppend_ne_nil]
  dsimp only
  rw [changes_guard rfl, changes_received]
  exact and_iff_left_of_imp fun h hnil => h (List.append_eq_nil_iff.mp hnil).1

theorem findChmod_acts : (findChmod cfg d f id).changes ≠ [] ↔
    cfg.Accepts (cfg.methodChmod = true) d f id ∧ d.CanChmod (cfg.path ++ f) := by
  refine (changes_accepts not_not).trans (and_congr_right fun _ => ?_)
  dsimp only
  rw [changes_guard rfl, ← chmod_ne_nil]
  exact and_self_iff

theorem findDelete_acts : (findDelete cfg d f id).changes ≠ [] ↔
    cfg.Accepts (cfg.delete = true ∧ d.fileSize (cfg.path ++ f) ≠ -1) d f id ∧
      d.CanRm (cfg.path ++ f) := by
  have hflag : ¬ (¬ cfg.delete = true ∨ d.fileSize (cfg.path ++ f) = -1) ↔
      cfg.delete = true ∧ d.fileSize (cfg.path ++ f) ≠ -1 := by
    rw [not_or, not_not]
  unfold findDelete Config.Accepts
  dsimp only
  rw [changes_guard rfl, changes_guard rfl, changes_guard rfl, changes_guard rfl, hflag,
    ← rm_ne_nil]
  simp only [and_assoc, and_self, Config.Blocked, ne_eq]

/-- A flag or a size that lets the request pass. -/
theorem not_and_ne {flag : Bool} {n m : Int} :
    ¬ (¬ flag = true ∧ n ≠ m) ↔ flag = true ∨ n = m := by
  rw [not_and_or, not_not, ne_eq, not_not]

/-- A file system without links, or no link on either way. -/
theorem not_blocked {f g : Str} : ¬ (cfg.noSymlinks = true ∧
    (d.containsSymlinks cfg.path f = true ∨ d.containsSymlinks cfg.path g = true)) ↔
    ¬ cfg.Blocked d f ∧ ¬ cfg.Blocked d g := by
  rw [and_or_left, not_or]
  rfl

theorem findMv_acts : (findMv cfg d f id).changes ≠ [] ↔ ActsMv cfg d f id := by
  unfold findMv ActsMv
  dsimp only
  rw [changes_guard rfl, changes_guard rfl, changes_guard rfl, changes_guard rfl, not_not,
    not_and_ne]
  refine and_congr_right fun _ => and_congr_right fun _ => and_congr_right fun _ =>
    and_congr_right fun _ => ?_
  cases hfrom : id.moveFrom with
  | none => simp [Outcome.fail]
  | some from_ =>
    cases hmove : id.realFile from_ with
    | none => simp [hmove, Outcome.fail]
    | some movefrom =>
      dsimp only [Option.bind_some]
      rw [hmove]
      dsimp only
      rw [changes_guard rfl, changes_guard rfl, not_blocked, and_assoc]
      constructor
      · exact fun ⟨hf, hfrom, hmv, _⟩ => ⟨from_, movefrom, rfl, hmove, hf, hfrom, mv_ne_nil.1 hmv⟩
      · intro h
        obtain ⟨from', movefrom', ⟨⟩, hmove', hf, hfrom, hmv⟩ := h
        obtain rfl := Option.some.inj (hmove.symm.trans hmove')
        exact ⟨hf, hfrom, mv_ne_nil.2 hmv, mv_ne_nil.2 hmv⟩

theorem findMove_acts : (findMove cfg d f id).changes ≠ [] ↔ ActsMove cfg d f id := by
  unfold findMove ActsMove
  dsimp only
  rw [changes_guard rfl, changes_guard rfl, changes_guard rfl, changes_guard rfl, not_not]
  refine and_congr_right fun _ => and_congr_right fun _ => and_congr_right fun _ =>
    and_congr_right fun _ => ?_
  cases moveto cfg.mountpoint f (id.newUri.getD []) with
  | none => simp [Outcome.fail]
  | some rest =>
    dsimp only
    rw [changes_guard rfl, changes_guard rfl, changes_guard rfl, changes_guard rfl, not_and_ne,
      not_blocked, and_assoc]
    constructor
    · exact fun ⟨hdelete, hsize, hf, hto, hmv, _⟩ =>
        ⟨rest, rfl, hdelete, hsize, hf, hto, mv_ne_nil.1 hmv⟩
    · intro h
      obtain ⟨rest', ⟨⟩, hdelete, hsize, hf, hto, hmv⟩ := h
      exact ⟨hdelete, hsize, hf, hto, mv_ne_nil.2 hmv, mv_ne_nil.2 hmv⟩

theorem findCopy_acts : (findCopy cfg d f id).changes ≠ [] ↔ ActsCopy cfg d f id := by
  unfold findCopy ActsCopy
  dsimp only
  have hsize : ¬ (d.fileSize (cfg.path ++ id.destination.getD ['0']) ≠ -1 ∧
      id.overwrite ≠ some ['T']) ↔
      d.fileSize (cfg.path ++ id.destination.getD ['0']) = -1 ∨ id.overwrite = some ['T'] := by
    rw [not_and_or, ne_eq, ne_eq, not_not, not_not]
  rw [changes_guard rfl, changes_guard rfl, changes_guard rfl, changes_guard rfl, changes_guard rfl,
    not_not, hsize, not_blocked, and_assoc, ← cp_ne_nil]
  -- what has been written is reported with either answer
  split <;> rfl

/-- **Changes.** What it takes to change something. -/
theorem changes_ne_nil_iff : (findFile cfg d f id).changes ≠ [] ↔ Acts cfg d f id := by
  unfold findFile Acts
  split
  next hget =>
    rw [findGet_changes]
    refine iff_of_false (fun h => h rfl) ?_
    simp only [List.mem_cons, List.not_mem_nil, or_false] at hget
    rcases hget with h | h | h <;> rw [h] <;> exact fun hacts => hacts
  next =>
    split
    · exact findMkdir_acts
    · split
      · exact findPut_acts
      · split
        · exact findAppe_acts
        · split
          · exact findChmod_acts
          · split
            · exact findMv_acts
            · split
              · exact findMove_acts
              · split
                · exact findCopy_acts
                · split
                  · exact findDelete_acts
                  · exact iff_of_false (fun h => h rfl) fun hacts => hacts

end Caudium.Filesystem
