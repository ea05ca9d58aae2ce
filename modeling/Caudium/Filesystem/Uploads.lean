import Caudium.Filesystem.Effects

/-!
# The file system module (filesystem.pike): uploads that fail

PUT removes the old file before it opens the new one, so the file is lost if that fails. APPE
makes directories of all parts of the path, the last one too, and then cannot open it.
`upload_keeps_iff` says when the target is kept all the same; elsewhere a failed upload makes
nothing but directories on the way.
-/

namespace Caudium.Filesystem

open Lib (Str Place place hierarchy UpTo)

variable {cfg : Config} {d : Disk} {f g : Str} {id : RequestID}

/-! ## Contents -/

/-- What there is at a place. -/
inductive Held where
  | file (contents : Str)
  | dir
  | special
  deriving DecidableEq

/-- How it shows on a disk. -/
def Held.node : Held → Node
  | file contents => .file contents.length
  | dir => .dir
  | special => .special

abbrev Contents := Place → Option Held

def Disk.Holds (d : Disk) (s : Contents) : Prop := ∀ p, (s p).map Held.node = d.node p

/-- What a change does to the contents; `write` is what is in a file after it was written. -/
def Change.apply (write : Str → Option Held → Option Held) (s : Contents) : Change → Contents
  | created f => Function.update s (place f) (some .dir)
  | written f => Function.update s (place f) (write f (s (place f)))
  | removed f => Function.update s (place f) none
  | renamed movefrom f =>
    Function.update (Function.update s (place f) (s (place movefrom))) (place movefrom) none
  | mode _ => s

/-- The contents after the changes of a request. -/
def after (write : Str → Option Held → Option Held) (s : Contents) (cs : List Change) : Contents :=
  cs.foldl (Change.apply write) s

/-- 0 or an error is returned. -/
def Outcome.Failed (o : Outcome) : Prop :=
  match o.answer with
  | .none => True
  | .mapping code _ => 400 ≤ code
  | _ => False

/-- A leading part of a path, cut at a slash. -/
def Leads (q f : Str) : Prop :=
  ∃ t, f = q ++ t ∧ (t = [] ∨ t.head? = some '/' ∨ q.getLast? = some '/')

/-- The target is what it was, and else there are only new directories on the way. -/
def Keeps (s s' : Contents) (f : Str) : Prop :=
  s' (place f) = s (place f) ∧
    ∀ p, s' p ≠ s p → s p = none ∧ s' p = some .dir ∧ ∃ q, Leads q f ∧ place q = p

/-! ## When the target is kept -/

/-- `Stdio.mkdirhier(h)` makes a directory where `f` is, if there is nothing. -/
def Disk.MakesAt (d : Disk) (h f : Str) : Prop :=
  ∃ q ∈ hierarchy h, q ≠ [] ∧ place q = place f ∧ d.permits (.mkdir q) = true

/-- The target of a PUT that fails is kept. -/
def PutKeeps (cfg : Config) (d : Disk) (oldf : Str) (id : RequestID) : Prop :=
  let f := cfg.path ++ oldf
  ¬ cfg.Accepts (cfg.put = true) d oldf id ∨
    match d.node (place f) with
    | none => ¬ d.MakesAt (dirname f) f
    | some n => d.permits (.rm f) = true → n = .dir ∧ d.MakesAt (dirname f) f

/-- The target of an APPE that fails is kept. -/
def AppeKeeps (cfg : Config) (d : Disk) (oldf : Str) (id : RequestID) : Prop :=
  let f := cfg.path ++ oldf
  ¬ cfg.Accepts (cfg.put = true ∨ cfg.appe = true) d oldf id ∨
    d.node (place f) ≠ none ∨ ¬ d.MakesAt f f

/-- The target of an upload that fails is kept. -/
def UploadKeeps (cfg : Config) (d : Disk) (oldf : Str) (id : RequestID) : Prop :=
  (id.method = "PUT".toList → PutKeeps cfg d oldf id) ∧
    (id.method = "APPE".toList → AppeKeeps cfg d oldf id)

/-! ## Directories -/

section Contents

variable {write : Str → Option Held → Option Held} {s : Contents}

theorem after_append (cs cs' : List Change) :
    after write s (cs ++ cs') = after write (after write s cs) cs' :=
  List.foldl_append

theorem holds_update {p : Place} {h : Option Held} (hs : d.Holds s) :
    (d.put p (h.map Held.node)).Holds (Function.update s p h) := by
  intro q
  show Option.map Held.node (Function.update s p h q) = if q = p then h.map Held.node else d.node q
  by_cases hq : q = p
  · rw [hq, Function.update_self, if_pos rfl]
  · rw [Function.update_of_ne hq, if_neg hq]
    exact hs q

theorem held_none (hs : d.Holds s) (p : Place) : s p = none ↔ d.node p = none := by
  rw [← hs p, Option.map_eq_none_iff]

/-- What `rm` leaves. -/
theorem rm_after (write : Str → Option Held → Option Held) (hs : d.Holds s) (f : Str) :
    (d.rm f).2.Holds (after write s (d.rm f).1) ∧ (d.rm f).2.permits = d.permits ∧
      after write s (d.rm f).1 =
        if d.permits (.rm f) = true then Function.update s (place f) none else s := by
  by_cases h : d.node (place f) ≠ none ∧ d.permits (.rm f) = true
  · have hrm : d.rm f = ([.removed f], d.put (place f) none) := if_pos h
    rw [hrm, if_pos h.2]
    exact ⟨holds_update (h := none) hs, rfl, rfl⟩
  · rw [rm_stays h]
    refine ⟨hs, rfl, ?_⟩
    split
    next hpermits =>
      -- nothing is there to be removed
      have hnone : d.node (place f) = none := by
        by_contra hsome
        exact h ⟨hsome, hpermits⟩
      rw [← (held_none hs (place f)).mpr hnone, Function.update_eq_self]
      rfl
    next => rfl

/-- What `mkdir` leaves. -/
theorem mkdir_after (write : Str → Option Held → Option Held) (hs : d.Holds s) (f : Str) :
    (d.mkdir f).2.Holds (after write s (d.mkdir f).1) ∧ (d.mkdir f).2.permits = d.permits ∧
      ∀ p, after write s (d.mkdir f).1 p =
        if s p = none ∧ place f = p ∧ d.permits (.mkdir f) = true then some .dir else s p := by
  by_cases h : d.CanMkdir f
  · have hmkdir : d.mkdir f = ([.created f], d.put (place f) (some .dir)) := if_pos h
    rw [hmkdir]
    refine ⟨holds_update (h := some .dir) hs, rfl, fun p => ?_⟩
    show Function.update s (place f) (some .dir) p = _
    by_cases hp : p = place f
    · rw [hp, Function.update_self, if_pos ⟨(held_none hs _).mpr h.1, rfl, h.2⟩]
    · rw [Function.update_of_ne hp, if_neg fun hmade => hp hmade.2.1.symm]
  · rw [mkdir_stays h]
    refine ⟨hs, rfl, fun p => (if_neg ?_).symm⟩
    intro hand
    obtain ⟨hnone, rfl, hpermits⟩ := hand
    exact h ⟨(held_none hs _).mp hnone, hpermits⟩

/-- What the directories of a list leave. -/
theorem mkdirs_after (fs : List Str) : ∀ {d : Disk} {s : Contents}, d.Holds s → ∀ p,
    after write s (d.mkdirs fs).1 p =
      if s p = none ∧ ∃ q ∈ fs, place q = p ∧ d.permits (.mkdir q) = true then some .dir
      else s p := by
  induction fs with
  | nil =>
    intro d s _ p
    rw [if_neg fun h => by simp at h]
    rfl
  | cons f fs ih =>
    intro d s hs p
    obtain ⟨hs', hpermits, hfirst⟩ := mkdir_after write hs f
    rw [Disk.mkdirs, after_append, ih hs' p, hfirst p, hpermits]
    by_cases hone : s p = none ∧ place f = p ∧ d.permits (.mkdir f) = true
    · rw [if_pos hone, if_neg (fun h => by cases h.1), if_pos]
      exact ⟨hone.1, f, List.mem_cons_self, hone.2⟩
    · rw [if_neg hone]
      refine if_congr (and_congr_right fun hnone => ?_) rfl rfl
      rw [List.exists_mem_cons_iff, or_iff_right fun h => hone ⟨hnone, h⟩]

/-- What `mkdirhier` leaves. -/
theorem mkdirhier_after (hs : d.Holds s) (h : Str) (p : Place) :
    after write s (d.mkdirhier h).1 p =
      if s p = none ∧ ∃ q ∈ hierarchy h, q ≠ [] ∧ place q = p ∧ d.permits (.mkdir q) = true then
        some .dir
      else s p := by
  rw [Disk.mkdirhier, mkdirs_after _ hs p]
  refine if_congr (and_congr_right fun _ => ?_) rfl rfl
  simp [List.mem_filter, and_assoc]

/-! ## What a failed upload does -/

theorem leads_hierarchy {q : Str} (h : q ∈ hierarchy f) : Leads q f := by
  obtain ⟨t, ht, hslash⟩ := Lib.mem_hierarchy.mp h
  exact ⟨t, ht, hslash.imp_right Or.inl⟩

theorem leads_dirname {q : Str} (h : q ∈ hierarchy (dirname f)) (hne : q ≠ []) : Leads q f := by
  rcases dirname_upTo f with hup | ⟨hroot, hhead⟩ | hnil
  · obtain ⟨t, ht, hslash⟩ := (Lib.mem_hierarchy.mp h).trans hup
    exact ⟨t, ht, hslash.imp_right Or.inl⟩
  · rw [hroot] at h
    obtain rfl : q = ['/'] := by
      rcases List.mem_cons.mp h with rfl | h
      · exact absurd rfl hne
      · exact List.mem_singleton.mp h
    obtain ⟨t, rfl⟩ := List.head?_eq_some_iff.mp hhead
    exact ⟨t, rfl, Or.inr (Or.inr rfl)⟩
  · rw [hnil] at h
    exact absurd (List.mem_singleton.mp h) hne

/-- Directories that are made on the way, where the target may have been taken away before. -/
theorem keeps_mkdirhier {s' : Contents} {h : Str} (hs' : d.Holds s')
    (hother : ∀ p, p ≠ place g → s' p = s p)
    (hlead : ∀ q ∈ hierarchy h, q ≠ [] → Leads q g) :
    Keeps s (after write s' (d.mkdirhier h).1) g ↔
      after write s' (d.mkdirhier h).1 (place g) = s (place g) := by
  refine and_iff_left_of_imp fun htarget p hp => ?_
  have hne : p ≠ place g := by
    intro heq
    subst heq
    exact hp htarget
  rw [mkdirhier_after hs', hother p hne] at hp ⊢
  by_cases hmade : s p = none ∧
      ∃ q ∈ hierarchy h, q ≠ [] ∧ place q = p ∧ d.permits (.mkdir q) = true
  · rw [if_pos hmade]
    obtain ⟨hnone, q, hq, hnil, hplace, -⟩ := hmade
    exact ⟨hnone, rfl, q, hlead q hq hnil, hplace⟩
  · rw [if_neg hmade] at hp
    exact absurd rfl hp

/-- The guards turn a request away without a change. -/
theorem changes_of_guards {flag P : Prop} [Decidable P] (hP : ¬ P ↔ flag) {o : Outcome} {n : Nat}
    {text : String}
    (h : ¬ cfg.Accepts flag d f id) :
    (if P then Outcome.fail n [] else if cfg.Denied id then .refuse 401 text
      else if cfg.noSymlinks = true ∧ d.containsSymlinks cfg.path f = true then
        .refuse 403 "Permission denied."
      else o).changes = [] := by
  by_contra hne
  exact h ((changes_accepts hP).mp hne).1

/-- Past the guards it is the last branch that counts. -/
theorem guards_eq {flag P : Prop} [Decidable P] (hP : ¬ P ↔ flag) {o o₁ o₂ o₃ : Outcome}
    (h : cfg.Accepts flag d f id) :
    (if P then o₁ else if cfg.Denied id then o₂
      else if cfg.noSymlinks = true ∧ d.containsSymlinks cfg.path f = true then o₃ else o) = o := by
  rw [if_neg (hP.mpr h.1), if_neg h.2.1]
  exact if_neg h.2.2

theorem not_failed_received (id : RequestID) (cs : List Change) : ¬ (received id cs).Failed := by
  unfold received
  split
  · show ¬ 400 ≤ 200
    decide
  · exact fun h => h

/-- A PUT that fails has removed the target and made directories. -/
theorem changes_put_failed (haccepts : cfg.Accepts (cfg.put = true) d f id)
    (hfail : (findPut cfg d f id).Failed) :
    (findPut cfg d f id).changes = (d.rm (cfg.path ++ f)).1 ++
      ((d.rm (cfg.path ++ f)).2.mkdirhier (dirname (cfg.path ++ f))).1 := by
  unfold findPut at hfail ⊢
  dsimp only at hfail ⊢
  rw [guards_eq not_not haccepts] at hfail ⊢
  split
  next => rfl
  next hopened =>
    rw [if_neg hopened] at hfail
    exact absurd hfail (not_failed_received _ _)

/-- An APPE that fails has made directories. -/
theorem changes_appe_failed
    (haccepts : cfg.Accepts (cfg.put = true ∨ cfg.appe = true) d f id)
    (hfail : (findAppe cfg d f id).Failed) :
    (findAppe cfg d f id).changes = (d.mkdirhier (cfg.path ++ f)).1 := by
  have hflag : ¬ (¬ cfg.put = true ∧ ¬ cfg.appe = true) ↔ cfg.put = true ∨ cfg.appe = true := by
    rw [not_and_or, not_not, not_not]
  unfold findAppe at hfail ⊢
  dsimp only at hfail ⊢
  rw [guards_eq hflag haccepts] at hfail ⊢
  split
  next => rfl
  next hopened =>
    rw [if_neg hopened] at hfail
    exact absurd hfail (not_failed_received _ _)

/-! ## The target -/

theorem keeps_nothing : Keeps s s g := ⟨rfl, fun _ h => absurd rfl h⟩

/-- A directory that is made at the target is what was there, or nothing. -/
theorem made_at_iff (hs : d.Holds s) (M : Prop) [Decidable M] :
    (if (none : Option Held) = none ∧ M then some .dir else none) = s (place g) ↔
      match d.node (place g) with
      | none => ¬ M
      | some n => n = .dir ∧ M := by
  rw [← hs (place g)]
  cases s (place g) with
  | none => simp
  | some h => cases h <;> simp [Held.node]

theorem put_keeps_iff (hs : d.Holds s) (hfail : (findPut cfg d f id).Failed) :
    Keeps s (after write s (findPut cfg d f id).changes) (cfg.path ++ f) ↔ PutKeeps cfg d f id := by
  unfold PutKeeps
  dsimp only
  by_cases haccepts : cfg.Accepts (cfg.put = true) d f id
  · rw [changes_put_failed haccepts hfail, after_append, or_iff_right (not_not.mpr haccepts)]
    generalize cfg.path ++ f = g
    obtain ⟨hs', hpermits, hremoved⟩ := rm_after write hs g
    rw [keeps_mkdirhier hs' ?_ fun q hq hne => leads_dirname hq hne, mkdirhier_after hs',
      hremoved, hpermits]
    · have hnode := hs (place g)
      by_cases hrm : d.permits (.rm g) = true
      · rw [if_pos hrm, Function.update_self, made_at_iff hs]
        cases d.node (place g) with
        | none => exact Iff.rfl
        | some n => exact ⟨fun h _ => h, fun h => h hrm⟩
      · rw [if_neg hrm, ite_eq_right_iff]
        cases hcontents : s (place g) with
        | none =>
          rw [hcontents] at hnode
          rw [← hnode]
          exact ⟨fun h hmade => (by cases h ⟨rfl, hmade⟩), fun h hmade => absurd hmade.2 h⟩
        | some held =>
          rw [hcontents] at hnode
          rw [← hnode]
          exact iff_of_true (fun h => by cases h.1) fun h => absurd h hrm
    · intro p hp
      rw [hremoved]
      split
      · exact Function.update_of_ne hp _ _
      · rfl
  · have hnil : (findPut cfg d f id).changes = [] := changes_of_guards not_not haccepts
    rw [hnil]
    exact iff_of_true keeps_nothing (Or.inl haccepts)

theorem appe_keeps_iff (hs : d.Holds s) (hfail : (findAppe cfg d f id).Failed) :
    Keeps s (after write s (findAppe cfg d f id).changes) (cfg.path ++ f) ↔
      AppeKeeps cfg d f id := by
  unfold AppeKeeps
  dsimp only
  by_cases haccepts : cfg.Accepts (cfg.put = true ∨ cfg.appe = true) d f id
  · rw [changes_appe_failed haccepts hfail, or_iff_right (not_not.mpr haccepts)]
    generalize cfg.path ++ f = g
    rw [keeps_mkdirhier hs (fun _ _ => rfl) fun q hq _ => leads_hierarchy hq, mkdirhier_after hs,
      ite_eq_right_iff, held_none hs]
    constructor
    · intro h
      by_cases hnone : d.node (place g) = none
      · refine Or.inr fun hmade => ?_
        have hdir := h ⟨hnone, hmade⟩
        rw [(held_none hs _).mpr hnone] at hdir
        cases hdir
      · exact Or.inl hnone
    · intro hor hand
      obtain ⟨hnone, hmade⟩ := hand
      obtain hsome | hnot := hor
      · exact absurd hnone hsome
      · exact absurd hmade hnot
  · have hflag : ¬ (¬ cfg.put = true ∧ ¬ cfg.appe = true) ↔ cfg.put = true ∨ cfg.appe = true := by
      rw [not_and_or, not_not, not_not]
    have hnil : (findAppe cfg d f id).changes = [] := changes_of_guards hflag haccepts
    rw [hnil]
    exact iff_of_true keeps_nothing (Or.inl haccepts)

end Contents

/-- **Uploads that fail** keep the target, and make only directories on the way, if nothing was
there that is removed and nothing is made there, and only then. -/
theorem upload_keeps_iff (write : Str → Option Held → Option Held) {s : Contents} (hs : d.Holds s)
    (hmethod : id.method = "PUT".toList ∨ id.method = "APPE".toList)
    (hfail : (findFile cfg d f id).Failed) :
    Keeps s (after write s (findFile cfg d f id).changes) (cfg.path ++ f) ↔
      UploadKeeps cfg d f id := by
  rcases hmethod with hmethod | hmethod
  · have hput : findFile cfg d f id = findPut cfg d f id := by
      unfold findFile
      rw [hmethod]
      rfl
    have hother : id.method ≠ "APPE".toList := by
      rw [hmethod]
      decide
    rw [hput] at hfail ⊢
    rw [put_keeps_iff hs hfail]
    exact ⟨fun h => ⟨fun _ => h, fun hm => absurd hm hother⟩, fun h => h.1 hmethod⟩
  · have happe : findFile cfg d f id = findAppe cfg d f id := by
      unfold findFile
      rw [hmethod]
      rfl
    have hother : id.method ≠ "PUT".toList := by
      rw [hmethod]
      decide
    rw [happe] at hfail ⊢
    rw [appe_keeps_iff hs hfail]
    exact ⟨fun h => ⟨fun hm => absurd hm hother, fun _ => h⟩, fun h => h.2 hmethod⟩

/-- A disk with a file, where no file can be opened for writing. -/
def fullDisk : Disk where
  node p := if p = place "/www".toList then some .dir else
    if p = place "/www/page".toList then some (.file 3) else none
  link _ := false
  permits
    | .openFile _ => false
    | _ => true

def fullContents : Contents := fun p =>
  if p = place "/www".toList then some .dir else
    if p = place "/www/page".toList then some (.file "old".toList) else none

theorem fullDisk_holds : fullDisk.Holds fullContents := by
  intro p
  show Option.map Held.node (if p = _ then _ else if p = _ then _ else none) = _
  split
  next h => exact (if_pos h).symm
  next h =>
    split
    next h' => exact ((if_neg h).trans (if_pos h')).symm
    next h' => exact ((if_neg h).trans (if_neg h')).symm

/-- A module that takes uploads. -/
def Config.uploading : Config := { Config.copying with put := true }

/-- An upload to `method`. -/
def RequestID.uploading (method : Str) : RequestID := { RequestID.copying with method := method }

/-- The old file is lost. -/
theorem put_loses :
    let o := findFile Config.uploading fullDisk "page".toList (RequestID.uploading "PUT".toList)
    o.Failed ∧ fullContents (place "/www/page".toList) = some (.file "old".toList) ∧
      after (fun _ h => h) fullContents o.changes (place "/www/page".toList) = none := by
  intro o
  have hanswer : o.answer = .none := by decide +kernel
  have hchanges : o.changes = [.removed "/www/page".toList] := by decide +kernel
  refine ⟨?_, by decide +kernel, ?_⟩
  · rw [Outcome.Failed, hanswer]
    exact trivial
  · rw [hchanges]
    decide +kernel

/-- A request that no user makes is turned away, and the file is kept. -/
theorem upload_keeps_iff_denied :
    let id := { RequestID.uploading "APPE".toList with user := false }
    Keeps fullContents (after (fun _ h => h) fullContents
        (findFile Config.uploading fullDisk "page".toList id).changes) "/www/page".toList ↔
      UploadKeeps Config.uploading fullDisk "page".toList id := by
  intro id
  have hanswer : (findFile Config.uploading fullDisk "page".toList id).answer =
      .mapping 401 "<h1>Permission to 'APPE' files denied</h1>".toList := by decide +kernel
  refine upload_keeps_iff (fun _ h => h) fullDisk_holds (Or.inr rfl) ?_
  rw [Outcome.Failed, hanswer]
  show 400 ≤ 401
  decide

end Caudium.Filesystem
