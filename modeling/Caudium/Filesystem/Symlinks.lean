import Caudium.Filesystem.Effects

/-!
# The file system module (filesystem.pike): symbolic links

With `no_symlinks`, nothing is returned or changed behind a symbolic link. A link counts if the
parts of the path before it are there (`Linked`); that is what `contains_symlinks` looks for, below
the search path. MOVE and COPY give it the path with the search path in front, so that it looks
below a place where there is usually nothing.
-/

namespace Caudium.Filesystem

open Lib (Str place)

variable {cfg : Config} {d : Disk} {f : Str} {id : RequestID}

/-! ## Links -/

/-- What the names of a path lead to. -/
def descend (root : Str) (names : List Str) : Str :=
  names.foldl (fun root name => root ++ '/' :: name) root

/-- There is something, if only a link. -/
def Disk.Exists (d : Disk) (f : Str) : Prop :=
  d.link (place f) = true ∨ d.node (place f) ≠ none

/-- A part of the path below `root` exists and is a link. -/
def Disk.Linked (d : Disk) (root path : Str) : Prop :=
  ∃ before name after, (Lib.components path).filter (· ≠ []) = before ++ name :: after ∧
    (∀ names, names <+: before → names ≠ [] → d.Exists (descend root names)) ∧
    d.link (place (descend root (before ++ [name]))) = true

/-- The same for the names that are left on the way. -/
def Disk.LinkedFrom (d : Disk) (root : Str) (all : List Str) : Prop :=
  ∃ before name after, all = before ++ name :: after ∧
    (∀ names, names <+: before → names ≠ [] → d.Exists (descend root names)) ∧
    d.link (place (descend root (before ++ [name]))) = true

/-- The first name is a link, or there is something below which there is one. -/
theorem linkedFrom_cons_iff {root name : Str} {names : List Str} :
    d.LinkedFrom root (name :: names) ↔ d.link (place (root ++ '/' :: name)) = true ∨
      d.node (place (root ++ '/' :: name)) ≠ none ∧ d.LinkedFrom (root ++ '/' :: name) names := by
  constructor
  · intro h
    obtain ⟨before, name', after, hnames, hthere, hlink⟩ := h
    cases before with
    | nil =>
      obtain ⟨rfl, -⟩ := List.cons.inj hnames
      exact Or.inl hlink
    | cons first before =>
      obtain ⟨rfl, rfl⟩ := List.cons.inj hnames
      have hfirst := hthere [name] (List.prefix_append [name] before) (List.cons_ne_nil _ _)
      refine hfirst.imp_right fun hnode => ⟨hnode, before, name', after, rfl, ?_, hlink⟩
      intro pre hpre _
      exact hthere (name :: pre) (List.cons_prefix_cons.mpr ⟨rfl, hpre⟩) (List.cons_ne_nil _ _)
  · intro h
    obtain hlink | ⟨hnode, before, name', after, rfl, hthere, hlink⟩ := h
    · refine ⟨[], name, names, rfl, ?_, hlink⟩
      exact fun pre hpre hne => absurd (List.prefix_nil.mp hpre) hne
    · refine ⟨name :: before, name', after, rfl, fun pre hpre hne => ?_, hlink⟩
      rcases List.prefix_cons_iff.mp hpre with rfl | ⟨rest, rfl, hrest⟩
      · exact absurd rfl hne
      · by_cases hnil : rest = []
        · rw [hnil]
          exact Or.inr hnode
        · exact hthere rest hrest hnil

theorem containsSymlinksFrom_iff (names : List Str) : ∀ root : Str,
    d.containsSymlinksFrom root names = true ↔ d.LinkedFrom root names := by
  induction names with
  | nil =>
    intro root
    refine iff_of_false Bool.false_ne_true ?_
    intro hand
    obtain ⟨before, name, after, hnames, -⟩ := hand
    exact absurd hnames (by simp)
  | cons name names ih =>
    intro root
    unfold Disk.containsSymlinksFrom
    rw [linkedFrom_cons_iff]
    dsimp only
    by_cases hlink : d.link (place (root ++ '/' :: name)) = true
    · rw [if_pos hlink]
      exact iff_of_true rfl (Or.inl hlink)
    · rw [if_neg hlink, or_iff_right hlink]
      by_cases hnode : d.node (place (root ++ '/' :: name)) = none
      · rw [if_pos hnode]
        exact iff_of_false Bool.false_ne_true fun h => h.1 hnode
      · rw [if_neg hnode, ih, and_iff_right hnode]

/-- `contains_symlinks` finds the links. -/
theorem containsSymlinks_iff {root path : Str} :
    d.containsSymlinks root path = true ↔ d.Linked root path :=
  containsSymlinksFrom_iff _ root

instance (d : Disk) (root path : Str) : Decidable (d.Linked root path) :=
  decidable_of_iff _ containsSymlinks_iff

/-! ## Requests -/

/-- There is a link on the path of the request, or on the way to where it moves or copies. -/
def Links (cfg : Config) (d : Disk) (f : Str) (id : RequestID) : Prop :=
  d.Linked cfg.path f ∨
    id.method = "MOVE".toList ∧
      (∃ rest, moveto cfg.mountpoint f (id.newUri.getD []) = some rest ∧ d.Linked cfg.path rest) ∨
    id.method = "COPY".toList ∧ d.Linked cfg.path (id.destination.getD ['0'])

/-- No file object is returned. -/
def Outcome.NoFile (o : Outcome) : Prop := ∀ f, o.answer ≠ .file f

/-- With `no_symlinks` and a link, no file is returned and nothing is changed. -/
def Forbidden (cfg : Config) (d : Disk) (f : Str) (id : RequestID) : Prop :=
  cfg.noSymlinks = true → Links cfg d f id →
    (findFile cfg d f id).NoFile ∧ (findFile cfg d f id).changes = []

theorem Outcome.NoFile.ite {P : Prop} [Decidable P] {o o' : Outcome} (h : o.NoFile)
    (h' : o'.NoFile) : (if P then o else o').NoFile := by
  split
  · exact h
  · exact h'

theorem noFile_none (code : Option Nat) (cs : List Change) : (Outcome.mk .none code cs).NoFile :=
  fun _ h => by cases h

theorem noFile_mapping (n : Nat) (text : Str) (cs : List Change) :
    (Outcome.mk (.mapping n text) none cs).NoFile :=
  fun _ h => by cases h

theorem noFile_received (id : RequestID) (cs : List Change) : (received id cs).NoFile :=
  .ite (noFile_mapping _ _ _) fun _ h => by cases h

/-- A call that may fail. -/
theorem noFile_call {P : Prop} [Decidable P] {n : Nat} {cs cs' : List Change} :
    (if P then Outcome.fail n cs else .ok cs').NoFile :=
  .ite (noFile_none _ _) (noFile_mapping _ _ _)

/-- No file is returned from behind a link. -/
theorem findGet_noFile (hset : cfg.noSymlinks = true) (hlink : d.Linked cfg.path f) :
    (findGet cfg d f id).NoFile := by
  refine .ite (noFile_none _ _) (.ite (fun _ h => by cases h) (.ite (noFile_none _ _) ?_))
  refine .ite (noFile_none _ _) ?_
  rw [if_pos (Or.inr ⟨hset, containsSymlinks_iff.2 hlink⟩)]
  exact noFile_mapping _ _ _

/-- Behind the three guards that most methods have. -/
theorem noFile_guards {P Q R : Prop} [Decidable P] [Decidable Q] [Decidable R] {n m k : Nat}
    {s t : String} {o : Outcome} (h : o.NoFile) :
    (if P then Outcome.fail n [] else if Q then .refuse m s else if R then .refuse k t
      else o).NoFile :=
  .ite (noFile_none _ _) (.ite (noFile_mapping _ _ _) (.ite (noFile_mapping _ _ _) h))

theorem findMv_noFile : (findMv cfg d f id).NoFile := by
  refine .ite (noFile_none _ _) (.ite (noFile_none _ _) (.ite (noFile_none _ _) ?_))
  refine .ite (noFile_mapping _ _ _) ?_
  split
  · exact .ite (noFile_mapping _ _ _) noFile_call
  · exact noFile_none _ _

theorem findMove_noFile : (findMove cfg d f id).NoFile := by
  refine .ite (noFile_none _ _) (.ite (noFile_none _ _) (.ite (noFile_mapping _ _ _) ?_))
  refine .ite (noFile_none _ _) ?_
  split
  · exact noFile_none _ _
  · refine .ite (noFile_none _ _) (.ite (noFile_none _ _) ?_)
    exact .ite (noFile_mapping _ _ _) noFile_call

theorem findCopy_noFile : (findCopy cfg d f id).NoFile := by
  refine .ite (noFile_mapping _ _ _) (.ite (noFile_mapping _ _ _) (.ite (noFile_mapping _ _ _) ?_))
  refine .ite (noFile_mapping _ _ _) (.ite (noFile_mapping _ _ _) ?_)
  exact .ite (noFile_mapping _ _ _) (noFile_mapping _ _ _)

/-- Other methods than "GET" and the like return no file at all. -/
theorem noFile_of_method
    (h : id.method ∉ ["GET".toList, "HEAD".toList, "POST".toList]) :
    (findFile cfg d f id).NoFile := by
  unfold findFile
  rw [if_neg h]
  refine .ite (noFile_guards (.ite (noFile_none _ _) (noFile_mapping _ _ _))) ?_
  refine .ite (noFile_guards (.ite (noFile_none _ _) (noFile_received _ _))) ?_
  refine .ite (noFile_guards (.ite (noFile_none _ _) (noFile_received _ _))) ?_
  refine .ite (noFile_guards noFile_call) ?_
  refine .ite findMv_noFile (.ite findMove_noFile
    (.ite findCopy_noFile (.ite ?_ (noFile_none _ _))))
  exact noFile_guards (.ite (noFile_none _ _) (noFile_mapping _ _ _))

/-- MOVE and COPY are not among the methods that return files. -/
theorem ne_of_get (h : id.method ∈ ["GET".toList, "HEAD".toList, "POST".toList]) :
    id.method ≠ "MOVE".toList ∧ id.method ≠ "COPY".toList := by
  simp only [List.mem_cons, List.not_mem_nil, or_false] at h
  rcases h with h | h | h <;> rw [h] <;> decide

theorem Links.linked (h : Links cfg d f id) (hmove : id.method ≠ "MOVE".toList)
    (hcopy : id.method ≠ "COPY".toList) : d.Linked cfg.path f :=
  h.resolve_right fun h => h.elim (fun h => hmove h.1) fun h => hcopy h.1

theorem noFile_of_link (hset : cfg.noSymlinks = true) (hlinks : Links cfg d f id) :
    (findFile cfg d f id).NoFile := by
  by_cases h : id.method ∈ ["GET".toList, "HEAD".toList, "POST".toList]
  · obtain ⟨hmove, hcopy⟩ := ne_of_get h
    unfold findFile
    rw [if_pos h]
    exact findGet_noFile hset (hlinks.linked hmove hcopy)
  · exact noFile_of_method h

/-- The request is a MOVE or COPY that nothing else stops. -/
def Carried (cfg : Config) (d : Disk) (f : Str) (id : RequestID) : Prop :=
  id.method = "MOVE".toList ∧ ActsMove cfg d f id ∨ id.method = "COPY".toList ∧ ActsCopy cfg d f id

/-- Other methods change nothing behind a link. -/
theorem acts_of_link (hset : cfg.noSymlinks = true) (hlinks : Links cfg d f id) :
    Acts cfg d f id ↔ Carried cfg d f id := by
  unfold Carried
  by_cases hmove : id.method = "MOVE".toList
  · have hcopy : id.method ≠ "COPY".toList := by
      rw [hmove]
      decide
    rw [and_iff_right hmove, or_iff_left (fun h => hcopy h.1), Acts, hmove]
    exact Iff.rfl
  by_cases hcopy : id.method = "COPY".toList
  · rw [and_iff_right hcopy, or_iff_right (fun h => hmove h.1), Acts, hcopy]
    exact Iff.rfl
  have hblocked : cfg.Blocked d f := ⟨hset, containsSymlinks_iff.2 (hlinks.linked hmove hcopy)⟩
  have haccepts : ∀ flag : Prop, ¬ cfg.Accepts flag d f id := fun _ h => h.2.2 hblocked
  refine iff_of_false (fun h => ?_) fun h => h.elim (fun h => hmove h.1) fun h => hcopy h.1
  unfold Acts at h
  split at h
  · exact haccepts _ h.1
  · split at h
    · exact haccepts _ h.1
    · split at h
      · exact haccepts _ h.1
      · split at h
        · exact haccepts _ h.1
        · split at h
          · obtain ⟨-, -, -, -, -, -, -, -, hfree, -⟩ := h
            exact hfree hblocked
          · split at h
            · exact haccepts _ h.1
            · exact h

/-- **Symbolic links** are forbidden, but for a MOVE or COPY that nothing else stops. -/
theorem forbidden_iff (cfg : Config) (d : Disk) (f : Str) (id : RequestID) :
    Forbidden cfg d f id ↔
      (cfg.noSymlinks = true → Links cfg d f id → ¬ Carried cfg d f id) := by
  refine forall_congr' fun hset => forall_congr' fun hlinks => ?_
  rw [and_iff_right (noFile_of_link hset hlinks), ← acts_of_link hset hlinks, ← changes_ne_nil_iff,
    not_not]

/-- A file that is a link. -/
def linkedDisk : Disk where
  node p := if p = place "/www".toList then some .dir else
    if p = place "/www/page".toList then some (.file 0) else none
  link p := p = place "/www/page".toList
  permits _ := true

/-- It is moved. -/
theorem link_moved :
    let cfg := { Config.copying with noSymlinks := true, methodMv := true, delete := true }
    let id := { RequestID.copying with method := "MOVE".toList, newUri := some "/other".toList }
    ¬ Forbidden cfg linkedDisk "page".toList id ∧
      (findFile cfg linkedDisk "page".toList id).changes =
        [.renamed "/www/page".toList "/www/other".toList] := by
  intro cfg id
  have hmoved : (findFile cfg linkedDisk "page".toList id).changes =
      [.renamed "/www/page".toList "/www/other".toList] := by decide +kernel
  refine ⟨fun h => ?_, hmoved⟩
  have hlink : linkedDisk.Linked cfg.path "page".toList := by decide +kernel
  have hnone := (h rfl (Or.inl hlink)).2
  rw [hmoved] at hnone
  cases hnone

end Caudium.Filesystem
