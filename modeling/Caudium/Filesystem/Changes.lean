import Caudium.Filesystem.FindFile
import Caudium.Lib.Search

/-!
# The file system module (filesystem.pike): what it changes

A change is right if the flags of the method are set, the request has a user where one is
asked for, and what is changed lies below the search path. For most methods all changes
are right, because the search path is a directory that is there: it cannot be made, opened
or copied to. `harmless_iff` has the rest: the flag of APPE, the destinations of COPY and MOVE,
and the search path itself, which PUT and DELETE remove.
-/

namespace Caudium.Filesystem

open Lib (Str Place place hierarchy Below AtOrAbove UpTo components down)

/-! ## Destinations -/

/-- `resolve_destination`; `none` for "Bad Gateway". -/
def resolveDestination (destination : Str) (host : Option Str) : Option Str :=
  if "http://".toList <+: destination then
    match Lib.cut (destination.drop 7) ['/'] with
    | some (destHost, rest) => if some destHost ≠ host then none else some ('/' :: rest)
    | none => some destination
  else some destination

/-- `handle_copy`, up to `handle_http`. -/
def RequestID.handleCopy (id : RequestID) (destination : Str) (overwrite host : Option Str) :
    Option RequestID :=
  (resolveDestination destination host).map fun destination =>
    { id with overwrite := some (overwrite.getD ['T']), destination := some destination }

/-- `handle_move`, up to `handle_http`. -/
def RequestID.handleMove (id : RequestID) (destination : Str) (overwrite host : Option Str) :
    Option RequestID :=
  (resolveDestination destination host).map fun destination =>
    { id with
      overwrite := some (overwrite.getD ['T']), destination := some destination
      newUri := some destination }

/-! ## What may be changed -/

/-- The flags that are documented as required for a method. -/
def Config.required (cfg : Config) (method : Str) : Bool :=
  if method = "MKDIR".toList then cfg.methodMkdir
  else if method = "PUT".toList then cfg.put
  else if method = "APPE".toList then cfg.put && cfg.appe
  else if method = "CHMOD".toList then cfg.methodChmod
  else if method = "MV".toList then cfg.methodMv
  else if method = "MOVE".toList then cfg.methodMv
  else if method = "COPY".toList then cfg.copy
  else if method = "DELETE".toList then cfg.delete
  else false

/-- The path lies below the search path. -/
def Config.Inside (cfg : Config) (f : Str) : Prop := Below (place f) (place cfg.path)

/-- The request may change something. -/
def Config.Allows (cfg : Config) (id : RequestID) : Prop :=
  cfg.required id.method = true ∧ ¬ cfg.Denied id

/-- A change that may be made. The source of "MV" is resolved by `real_file`. -/
def Change.Right (cfg : Config) (id : RequestID) : Change → Prop
  | .created f | .written f | .removed f => cfg.Allows id ∧ cfg.Inside f
  | .renamed movefrom f =>
    cfg.Allows id ∧ cfg.Inside f ∧ (id.method = "MV".toList ∨ cfg.Inside movefrom)
  | .mode _ => True

/-- The place is that of the search path, or on the way there. -/
def Known (path : Str) (p : Place) : Prop := ∃ q ∈ hierarchy path, AtOrAbove p (place q)

instance (path : Str) (p : Place) : Decidable (Known path p) :=
  inferInstanceAs (Decidable (∃ q ∈ _, _))

/-- The search path is a directory. -/
def Disk.Has (d : Disk) (path : Str) : Prop := ∀ p, Known path p → d.node p = some .dir

/-- Neither below the search path nor on the way to it. -/
def Config.Outside (cfg : Config) (f : Str) : Prop :=
  ¬ cfg.Inside f ∧ ¬ Known cfg.path (place f)

/-- Whatever there is on the disk, all changes are right. -/
def Sound (cfg : Config) (f : Str) (id : RequestID) : Prop :=
  ∀ d : Disk, d.Has cfg.path → ∀ c ∈ (findFile cfg d f id).changes, c.Right cfg id

/-- The condition on a request. -/
structure Harmless (cfg : Config) (f : Str) (id : RequestID) : Prop where
  /-- "PUT" and "DELETE" are not for the search path itself. -/
  removes : id.method = "PUT".toList ∨ id.method = "DELETE".toList → cfg.Allows id →
    down (components f) ≠ []
  /-- "APPE" needs both flags. -/
  appe : id.method = "APPE".toList → ¬ cfg.Denied id → cfg.put = true ∨ cfg.appe = true →
    ¬ Known cfg.path (place (cfg.path ++ f)) → cfg.put = true ∧ cfg.appe = true
  move : id.method = "MOVE".toList → cfg.Allows id → id.newUri.getD [] ≠ [] →
    ∀ rest, moveto cfg.mountpoint f (id.newUri.getD []) = some rest →
      ¬ cfg.Outside (cfg.path ++ rest)
  copy : id.method = "COPY".toList → cfg.Allows id →
    ¬ cfg.Outside (cfg.path ++ id.destination.getD ['0'])

/-! ## The search path -/

variable {cfg : Config} {d : Disk} {f : Str} {id : RequestID}

theorem known_self (path : Str) : Known path (place path) :=
  ⟨path, Lib.mem_hierarchy.mpr ⟨[], (List.append_nil _).symm, Or.inl rfl⟩, AtOrAbove.refl _⟩

theorem Known.above {path : Str} {p q : Place} (h : Known path q) (hp : AtOrAbove p q) :
    Known path p := by
  obtain ⟨s, hs, hq⟩ := h
  exact ⟨s, hs, hp.trans hq⟩

theorem inside_of_down {p : Str} (hpath : cfg.path = p ++ ['/'])
    (hf : ['.', '.'] ∉ components f) (hdown : down (components f) ≠ []) :
    cfg.Inside (cfg.path ++ f) := by
  unfold Config.Inside
  rw [hpath, List.append_assoc]
  exact Lib.below_down p f hf hdown

theorem place_of_not_down {p : Str} (hpath : cfg.path = p ++ ['/'])
    (hf : ['.', '.'] ∉ components f) (hdown : down (components f) = []) :
    place (cfg.path ++ f) = place cfg.path := by
  rw [hpath, List.append_assoc]
  exact Lib.place_stay p f hf hdown

/-- Where there is something else than a directory, or nothing, the path goes down. -/
theorem down_of_not_dir {p : Str} (hpath : cfg.path = p ++ ['/'])
    (hf : ['.', '.'] ∉ components f) (hd : d.Has cfg.path)
    (hnode : d.node (place (cfg.path ++ f)) ≠ some .dir) : down (components f) ≠ [] := by
  intro hdown
  rw [place_of_not_down hpath hf hdown] at hnode
  exact hnode (hd _ (known_self _))

/-- On the way to a file there is the way to the search path, and what lies below it. -/
theorem known_or_inside {p q : Str} (hpath : cfg.path = p ++ ['/'])
    (hf : ['.', '.'] ∉ components f) (hq : UpTo q (cfg.path ++ f)) :
    Known cfg.path (place q) ∨ cfg.Inside q ∧ AtOrAbove (place q) (place (cfg.path ++ f)) := by
  obtain ⟨t, ht, hslash⟩ := hq
  rcases List.append_eq_append_iff.mp ht with ⟨s, rfl, hs⟩ | ⟨u, hu, rfl⟩
  · -- past the search path
    have hup : UpTo s f := ⟨t, hs, hslash⟩
    have hnodots : ['.', '.'] ∉ components s := fun h => hf (Lib.components_upTo hup _ h)
    by_cases hdown : down (components s) = []
    · rw [place_of_not_down hpath hnodots hdown]
      exact Or.inl (known_self _)
    · refine Or.inr ⟨inside_of_down hpath hnodots hdown, ?_⟩
      rw [hpath, List.append_assoc, List.append_assoc]
      exact Lib.atOrAbove_upTo p hup hf
  · -- up to the search path
    left
    refine ⟨q, Lib.mem_hierarchy.mpr ⟨u, hu, ?_⟩, AtOrAbove.refl _⟩
    cases u with
    | nil => exact Or.inl rfl
    | cons c u => exact hslash.imp (fun hnil => by cases hnil) id

/-! ## Directories on the way -/

/-- `mkdir` makes what is not there, and leaves alone what is. -/
theorem mkdirs_spec : ∀ (fs : List Str) (d : Disk),
    (∀ c ∈ (d.mkdirs fs).1, ∃ q ∈ fs, c = .created q ∧ d.node (place q) = none) ∧
      (∀ p n, d.node p = some n → (d.mkdirs fs).2.node p = some n) ∧
      (d.mkdirs fs).2.permits = d.permits := by
  intro fs
  induction fs with
  | nil => exact fun d => ⟨fun c hc => absurd hc List.not_mem_nil, fun _ _ h => h, rfl⟩
  | cons f fs ih =>
    intro d
    obtain ⟨hmade, hkept, hpermits⟩ := ih (d.mkdir f).2
    have hone : (∀ c ∈ (d.mkdir f).1, c = .created f ∧ d.node (place f) = none) ∧
        (∀ p n, d.node p = some n → (d.mkdir f).2.node p = some n) ∧
        (∀ p, (d.mkdir f).2.node p = none → d.node p = none) ∧
        (d.mkdir f).2.permits = d.permits := by
      unfold Disk.mkdir
      split
      next h =>
        refine ⟨fun c hc => ⟨List.mem_singleton.mp hc, h.1⟩, fun p n hp => ?_, fun p hp => ?_, rfl⟩
        · show (if p = place f then some Node.dir else d.node p) = some n
          rw [if_neg (fun he => by rw [he, h.1] at hp; cases hp)]
          exact hp
        · change (if p = place f then some Node.dir else d.node p) = none at hp
          split at hp
          · cases hp
          · exact hp
      next => exact ⟨fun c hc => absurd hc List.not_mem_nil, fun _ _ h => h, fun _ h => h, rfl⟩
    obtain ⟨hfirst, hkept₁, hnone, hpermits₁⟩ := hone
    refine ⟨fun c hc => ?_, fun p n hp => hkept p n (hkept₁ p n hp), hpermits.trans hpermits₁⟩
    rcases List.mem_append.mp hc with hc | hc
    · exact ⟨f, List.mem_cons_self, hfirst c hc⟩
    · obtain ⟨q, hq, rfl, hnode⟩ := hmade c hc
      exact ⟨q, List.mem_cons_of_mem f hq, rfl, hnone _ hnode⟩

/-- `mkdirhier` makes what is not there of the way to the search path, and of what lies
below it. -/
theorem mem_mkdirhier {p g : Str} (hpath : cfg.path = p ++ ['/'])
    (hf : ['.', '.'] ∉ components f)
    (hg : UpTo g (cfg.path ++ f) ∨ g = ['/'] ∧ (cfg.path ++ f).head? = some '/' ∨ g = [])
    {c : Change} (hc : c ∈ (d.mkdirhier g).1) : ∃ q, c = .created q ∧ d.node (place q) = none ∧
      (Known cfg.path (place q) ∨
        cfg.Inside q ∧ AtOrAbove (place q) (place (cfg.path ++ f))) := by
  obtain ⟨q, hq, rfl, hnode⟩ := (mkdirs_spec _ d).1 c hc
  obtain ⟨hmem, hne⟩ := List.mem_filter.mp hq
  refine ⟨q, rfl, hnode, ?_⟩
  rcases hg with hup | ⟨rfl, habsolute⟩ | rfl
  · exact known_or_inside hpath hf ((Lib.mem_hierarchy.mp hmem).trans hup)
  · obtain rfl : q = ['/'] := by
      rcases List.mem_cons.mp hmem with rfl | hmem
      · exact absurd rfl (of_decide_eq_true hne)
      · exact List.mem_singleton.mp hmem
    refine Or.inl ((known_self _).above ⟨?_, List.nil_suffix⟩)
    have hhead : (cfg.path ++ f).head? = cfg.path.head? := by
      rw [hpath]
      cases p with
      | nil => rfl
      | cons x p => rfl
    show true = decide (cfg.path.head? = some '/')
    rw [← hhead, habsolute]
    rfl
  · rw [List.mem_singleton.mp hmem] at hne
    exact absurd rfl (of_decide_eq_true hne)

theorem dirname_upTo (g : Str) :
    UpTo (dirname g) g ∨ dirname g = ['/'] ∧ g.head? = some '/' ∨ dirname g = [] := by
  have hsplit : g = (g.reverse.dropWhile (· ≠ '/')).reverse ++
      (g.reverse.takeWhile (· ≠ '/')).reverse := by
    rw [← List.reverse_append, List.takeWhile_append_dropWhile, List.reverse_reverse]
  unfold dirname
  cases hrest : g.reverse.dropWhile (· ≠ '/') with
  | nil => exact Or.inr (Or.inr rfl)
  | cons c rest =>
    have hc : c = '/' := by
      have hhead := List.head?_dropWhile_not (· ≠ '/') g.reverse
      rw [hrest] at hhead
      simpa using hhead
    subst hc
    rw [hrest, List.reverse_cons, List.append_assoc] at hsplit
    dsimp only
    split
    next hnil =>
      rw [hnil] at hsplit
      exact Or.inr (Or.inl ⟨rfl, by rw [hsplit]; rfl⟩)
    next => exact Or.inl ⟨_, hsplit, Or.inr rfl⟩

/-! ## Harmless requests -/

/-- What a call changes, if it changes something. -/
theorem mem_effect {P : Prop} [Decidable P] {x c : Change} {d' d'' : Disk}
    (h : c ∈ (if P then (([x], d') : Effect) else ([], d'')).1) : c = x ∧ P := by
  split at h
  next hP => exact ⟨List.mem_singleton.mp h, hP⟩
  next => cases h

theorem right_mode {c : Change} (h : c ∈ (d.chmod f).1) : c.Right cfg id := by
  obtain ⟨rfl, -⟩ := mem_effect h
  exact trivial

/-- Behind a guard: what it turns away changes nothing. -/
theorem mem_guard {P : Prop} [Decidable P] {o o' : Outcome} {c : Change} (ho : o.changes = [])
    (h : c ∈ (if P then o else o').changes) : ¬ P ∧ c ∈ o'.changes := by
  split at h
  next =>
    rw [ho] at h
    cases h
  next hP => exact ⟨hP, h⟩

theorem findGet_changes (cfg : Config) (d : Disk) (f : Str) (id : RequestID) :
    (findGet cfg d f id).changes = [] := by
  refine List.eq_nil_iff_forall_not_mem.mpr fun c hc => ?_
  obtain ⟨-, hc⟩ := mem_guard rfl hc
  obtain ⟨-, hc⟩ := mem_guard rfl hc
  obtain ⟨-, hc⟩ := mem_guard rfl hc
  obtain ⟨-, hc⟩ := mem_guard rfl hc
  obtain ⟨-, hc⟩ := mem_guard rfl hc
  cases hc

/-- Past the flags of its method and the check of the user. -/
theorem allows_of_required {m : Str} (hmethod : id.method = m) (hflag : cfg.required m = true)
    (hdenied : ¬ cfg.Denied id) : cfg.Allows id := by
  refine ⟨?_, hdenied⟩
  rw [hmethod]
  exact hflag

theorem findMkdir_right {p : Str} (hpath : cfg.path = p ++ ['/'])
    (hf : ['.', '.'] ∉ components f) (hd : d.Has cfg.path) (hmethod : id.method = "MKDIR".toList) :
    ∀ c ∈ (findMkdir cfg d f id).changes, c.Right cfg id := by
  intro c hc
  obtain ⟨hflag, hc⟩ := mem_guard rfl hc
  obtain ⟨hdenied, hc⟩ := mem_guard rfl hc
  obtain ⟨-, hc⟩ := mem_guard rfl hc
  dsimp only at hc
  obtain ⟨-, hc⟩ := mem_guard rfl hc
  rcases List.mem_append.mp hc with hc | hc
  · obtain ⟨rfl, hnode, -⟩ := mem_effect hc
    refine ⟨allows_of_required hmethod (not_not.mp hflag) hdenied,
      inside_of_down hpath hf (down_of_not_dir hpath hf hd ?_)⟩
    rw [hnode]
    exact nofun
  · exact right_mode hc

theorem changes_received (id : RequestID) (cs : List Change) : (received id cs).changes = cs := by
  unfold received
  split <;> rfl

/-- After `rm` nothing else is missing. -/
theorem node_rm {g : Str} {q : Place} (h : (d.rm g).2.node q = none) :
    q = place g ∨ d.node q = none := by
  unfold Disk.rm at h
  split at h
  next =>
    by_cases hq : q = place g
    · exact Or.inl hq
    · rw [show (d.put (place g) none).node q = d.node q from if_neg hq] at h
      exact Or.inr h
  next => exact Or.inr h

theorem findPut_right {p : Str} (hpath : cfg.path = p ++ ['/'])
    (hf : ['.', '.'] ∉ components f) (hd : d.Has cfg.path) (hmethod : id.method = "PUT".toList)
    (hharmless : cfg.Allows id → down (components f) ≠ []) :
    ∀ c ∈ (findPut cfg d f id).changes, c.Right cfg id := by
  intro c hc
  obtain ⟨hflag, hc⟩ := mem_guard rfl hc
  obtain ⟨hdenied, hc⟩ := mem_guard rfl hc
  obtain ⟨-, hc⟩ := mem_guard rfl hc
  dsimp only at hc
  have hallows : cfg.Allows id := allows_of_required hmethod (not_not.mp hflag) hdenied
  have hin := inside_of_down hpath hf (hharmless hallows)
  have hremoved : ∀ c ∈ (d.rm (cfg.path ++ f)).1, c.Right cfg id := by
    intro c hc
    obtain ⟨rfl, -⟩ := mem_effect hc
    exact ⟨hallows, hin⟩
  have hmade : ∀ c ∈ ((d.rm (cfg.path ++ f)).2.mkdirhier (dirname (cfg.path ++ f))).1,
      c.Right cfg id := by
    intro c hc
    obtain ⟨q, rfl, hnode, hq⟩ := mem_mkdirhier hpath hf (dirname_upTo _) hc
    refine ⟨hallows, ?_⟩
    rcases hq with hknown | ⟨hin', -⟩
    · rcases node_rm hnode with heq | hnone
      · unfold Config.Inside
        rw [heq]
        exact hin
      · rw [hd _ hknown] at hnone
        cases hnone
    · exact hin'
  split at hc
  next => exact (List.mem_append.mp hc).elim (hremoved c) (hmade c)
  next =>
    have hopened : ∀ d' : Disk, ∀ c ∈ (d'.openCreate (cfg.path ++ f)).1, c.Right cfg id := by
      intro d' c hc
      obtain ⟨rfl, -⟩ := mem_effect hc
      exact ⟨hallows, hin⟩
    rw [changes_received] at hc
    rcases List.mem_append.mp hc with hc | hc
    · rcases List.mem_append.mp hc with hc | hc
      · exact (List.mem_append.mp hc).elim (hremoved c) (hmade c)
      · exact hopened _ c hc
    · exact right_mode hc

theorem findAppe_right {p : Str} (hpath : cfg.path = p ++ ['/'])
    (hf : ['.', '.'] ∉ components f) (hd : d.Has cfg.path) (hmethod : id.method = "APPE".toList)
    (hharmless : ¬ cfg.Denied id → cfg.put = true ∨ cfg.appe = true →
      ¬ Known cfg.path (place (cfg.path ++ f)) → cfg.put = true ∧ cfg.appe = true) :
    ∀ c ∈ (findAppe cfg d f id).changes, c.Right cfg id := by
  intro c hc
  obtain ⟨hflag, hc⟩ := mem_guard rfl hc
  obtain ⟨hdenied, hc⟩ := mem_guard rfl hc
  obtain ⟨-, hc⟩ := mem_guard rfl hc
  dsimp only at hc
  have hallows : ¬ Known cfg.path (place (cfg.path ++ f)) → cfg.Allows id := by
    intro hnew
    obtain ⟨hput, happe⟩ := hharmless hdenied
      (by simpa only [not_and_or, not_not] using hflag) hnew
    refine allows_of_required hmethod ?_ hdenied
    show (cfg.put && cfg.appe) = true
    rw [hput, happe]
    rfl
  have hmade : ∀ c ∈ (d.mkdirhier (cfg.path ++ f)).1, c.Right cfg id := by
    intro c hc
    obtain ⟨q, rfl, hnode, hq⟩ :=
      mem_mkdirhier hpath hf (Or.inl ⟨[], (List.append_nil _).symm, Or.inl rfl⟩) hc
    have hnew : ¬ Known cfg.path (place q) := by
      intro hknown
      rw [hd _ hknown] at hnode
      cases hnode
    obtain ⟨hin, habove⟩ := hq.resolve_left hnew
    exact ⟨hallows fun hknown => hnew (hknown.above habove), hin⟩
  split at hc
  next => exact hmade c hc
  next =>
    rw [changes_received] at hc
    rcases List.mem_append.mp hc with hc | hc
    · rcases List.mem_append.mp hc with hc | hc
      · exact hmade c hc
      · obtain ⟨rfl, -, hnode, -⟩ := mem_effect hc
        have hd' : (d.mkdirhier (cfg.path ++ f)).2.Has cfg.path :=
          fun q hq => (mkdirs_spec _ d).2.1 q _ (hd q hq)
        exact ⟨hallows fun hknown => hnode (hd' _ hknown),
          inside_of_down hpath hf (down_of_not_dir hpath hf hd' hnode)⟩
    · exact right_mode hc

theorem findChmod_right : ∀ c ∈ (findChmod cfg d f id).changes, c.Right cfg id := by
  intro c hc
  obtain ⟨-, hc⟩ := mem_guard rfl hc
  obtain ⟨-, hc⟩ := mem_guard rfl hc
  obtain ⟨-, hc⟩ := mem_guard rfl hc
  obtain ⟨-, hc⟩ := mem_guard rfl hc
  exact right_mode hc

theorem fileSize_dir {g : Str} (h : d.node (place g) = some .dir) : d.fileSize g = -2 := by
  rw [Disk.fileSize, h]

theorem findMv_right {p : Str} (hpath : cfg.path = p ++ ['/'])
    (hf : ['.', '.'] ∉ components f) (hd : d.Has cfg.path) (hmethod : id.method = "MV".toList) :
    ∀ c ∈ (findMv cfg d f id).changes, c.Right cfg id := by
  intro c hc
  obtain ⟨hflag, hc⟩ := mem_guard rfl hc
  obtain ⟨-, hc⟩ := mem_guard rfl hc
  obtain ⟨hsize, hc⟩ := mem_guard rfl hc
  obtain ⟨hdenied, hc⟩ := mem_guard rfl hc
  split at hc
  next source movefrom _ _ =>
    obtain ⟨-, hc⟩ := mem_guard rfl hc
    obtain ⟨-, hc⟩ := mem_guard rfl hc
    obtain ⟨rfl, -⟩ := mem_effect hc
    refine ⟨allows_of_required hmethod (not_not.mp hflag) hdenied,
      inside_of_down hpath hf (down_of_not_dir hpath hf hd fun hdir => ?_), Or.inl hmethod⟩
    rw [fileSize_dir hdir] at hsize
    exact hsize (by decide)
  next => cases hc

theorem findMove_right {p : Str} (hpath : cfg.path = p ++ ['/'])
    (hf : ['.', '.'] ∉ components f) (hd : d.Has cfg.path) (hmethod : id.method = "MOVE".toList)
    (hharmless : cfg.Allows id → id.newUri.getD [] ≠ [] →
      ∀ rest, moveto cfg.mountpoint f (id.newUri.getD []) = some rest →
        ¬ cfg.Outside (cfg.path ++ rest)) :
    ∀ c ∈ (findMove cfg d f id).changes, c.Right cfg id := by
  intro c hc
  obtain ⟨hflag, hc⟩ := mem_guard rfl hc
  obtain ⟨-, hc⟩ := mem_guard rfl hc
  obtain ⟨hdenied, hc⟩ := mem_guard rfl hc
  obtain ⟨huri, hc⟩ := mem_guard rfl hc
  have hallows : cfg.Allows id := allows_of_required hmethod (not_not.mp hflag) hdenied
  split at hc
  next => cases hc
  next rest hrest =>
    obtain ⟨-, hc⟩ := mem_guard rfl hc
    obtain ⟨hsize, hc⟩ := mem_guard rfl hc
    obtain ⟨-, hc⟩ := mem_guard rfl hc
    obtain ⟨-, hc⟩ := mem_guard rfl hc
    obtain ⟨rfl, -, habove, -⟩ := mem_effect hc
    have hin : cfg.Inside (cfg.path ++ rest) := by
      by_contra hin
      refine hharmless hallows huri rest hrest ⟨hin, fun hknown => ?_⟩
      rw [fileSize_dir (hd _ hknown)] at hsize
      exact hsize (by decide)
    refine ⟨hallows, hin, Or.inr (inside_of_down hpath hf fun hdown => habove ?_)⟩
    -- the search path itself cannot be moved into itself
    rw [place_of_not_down hpath hf hdown]
    exact ⟨hin.1.symm, hin.2.1⟩

theorem findCopy_right (hd : d.Has cfg.path) (hmethod : id.method = "COPY".toList)
    (hharmless : cfg.Allows id → ¬ cfg.Outside (cfg.path ++ id.destination.getD ['0'])) :
    ∀ c ∈ (findCopy cfg d f id).changes, c.Right cfg id := by
  intro c hc
  obtain ⟨hflag, hc⟩ := mem_guard rfl hc
  obtain ⟨-, hc⟩ := mem_guard rfl hc
  obtain ⟨hdenied, hc⟩ := mem_guard rfl hc
  obtain ⟨-, hc⟩ := mem_guard rfl hc
  obtain ⟨-, hc⟩ := mem_guard rfl hc
  have hwritten : c ∈ (d.cp (cfg.path ++ f) (cfg.path ++ id.destination.getD ['0'])).2.1 := by
    dsimp only at hc
    split at hc
    · exact hc
    · exact hc
  unfold Disk.cp at hwritten
  split at hwritten
  next h =>
    obtain rfl := List.mem_singleton.mp hwritten
    have hallows : cfg.Allows id := allows_of_required hmethod (not_not.mp hflag) hdenied
    refine ⟨hallows, ?_⟩
    by_contra hin
    exact hharmless hallows ⟨hin, fun hknown => h.2.1 (hd _ hknown)⟩
  next => cases hwritten

theorem findDelete_right {p : Str} (hpath : cfg.path = p ++ ['/'])
    (hf : ['.', '.'] ∉ components f) (hmethod : id.method = "DELETE".toList)
    (hharmless : cfg.Allows id → down (components f) ≠ []) :
    ∀ c ∈ (findDelete cfg d f id).changes, c.Right cfg id := by
  intro c hc
  obtain ⟨hflag, hc⟩ := mem_guard rfl hc
  obtain ⟨hdenied, hc⟩ := mem_guard rfl hc
  obtain ⟨-, hc⟩ := mem_guard rfl hc
  obtain ⟨-, hc⟩ := mem_guard rfl hc
  obtain ⟨rfl, -⟩ := mem_effect hc
  have hallows : cfg.Allows id :=
    allows_of_required hmethod (not_not.mp (not_or.mp hflag).1) hdenied
  exact ⟨hallows, inside_of_down hpath hf (hharmless hallows)⟩

/-- A harmless request makes no change that is not right. -/
theorem sound_of_harmless {p : Str} (hpath : cfg.path = p ++ ['/'])
    (hf : ['.', '.'] ∉ components f) (h : Harmless cfg f id) : Sound cfg f id := by
  intro d hd c hc
  unfold findFile at hc
  split at hc
  · rw [findGet_changes] at hc
    cases hc
  · split at hc
    next hmethod => exact findMkdir_right hpath hf hd hmethod c hc
    next =>
      split at hc
      next hmethod => exact findPut_right hpath hf hd hmethod (h.removes (Or.inl hmethod)) c hc
      next =>
        split at hc
        next hmethod => exact findAppe_right hpath hf hd hmethod (h.appe hmethod) c hc
        next =>
          split at hc
          next => exact findChmod_right c hc
          next =>
            split at hc
            next hmethod => exact findMv_right hpath hf hd hmethod c hc
            next =>
              split at hc
              next hmethod => exact findMove_right hpath hf hd hmethod (h.move hmethod) c hc
              next =>
                split at hc
                next hmethod => exact findCopy_right hd hmethod (h.copy hmethod) c hc
                next =>
                  split at hc
                  next hmethod =>
                    exact findDelete_right hpath hf hmethod (h.removes (Or.inr hmethod)) c hc
                  next => cases hc

/-! ## The other requests -/

/-- A disk with the search path and the file `f`, and no symbolic links, where everything is
permitted. -/
def openDisk (path f : Str) : Disk where
  node p := if Known path p then some .dir else if p = place (path ++ f) then some (.file 0) else none
  link _ := false
  permits _ := true

theorem openDisk_has (path f : Str) : (openDisk path f).Has path := fun _ hp => if_pos hp

theorem openDisk_file (path f : Str) : (openDisk path f).node (place (path ++ f)) ≠ none := by
  show (if _ then _ else if _ then _ else _) ≠ none
  split
  · exact nofun
  · rw [if_pos rfl]
    exact nofun

theorem no_symlinks (path f root : Str) (names : List Str) :
    (openDisk path f).containsSymlinksFrom root names = false := by
  induction names generalizing root with
  | nil => rfl
  | cons name names ih =>
    unfold Disk.containsSymlinksFrom
    dsimp only
    rw [if_neg (show ¬ (openDisk path f).link _ = true from Bool.false_ne_true)]
    split
    · rfl
    · exact ih _

theorem openDisk_rm (path f : Str) :
    (openDisk path f).rm (path ++ f) =
      ([.removed (path ++ f)], (openDisk path f).put (place (path ++ f)) none) :=
  if_pos ⟨openDisk_file path f, rfl⟩

theorem not_inside_self {q : Str} (h : place q = place cfg.path) : ¬ cfg.Inside q :=
  fun hin => hin.2.2 (congrArg Place.names h)

theorem not_links (cfg : Config) (f g root : Str) : ¬ (cfg.noSymlinks = true ∧
    (openDisk cfg.path f).containsSymlinks root g = true) := by
  intro h
  obtain ⟨-, hlink⟩ := h
  rw [Disk.containsSymlinks, no_symlinks] at hlink
  cases hlink

/-- "PUT" and "DELETE" remove the search path. -/
theorem removes_of_sound {p : Str} (hpath : cfg.path = p ++ ['/'])
    (hf : ['.', '.'] ∉ components f) (h : Sound cfg f id)
    (hmethod : id.method = "PUT".toList ∨ id.method = "DELETE".toList)
    (hallows : cfg.Allows id) : down (components f) ≠ [] := by
  intro hdown
  have hself := place_of_not_down hpath hf hdown
  suffices hc : .removed (cfg.path ++ f) ∈
      (findFile cfg (openDisk cfg.path f) f id).changes from
    not_inside_self hself (h _ (openDisk_has _ _) _ hc).2
  obtain ⟨hrequired, hdenied⟩ := hallows
  rcases hmethod with hmethod | hmethod
  · have hfile : findFile cfg (openDisk cfg.path f) f id =
        findPut cfg (openDisk cfg.path f) f id := by
      unfold findFile
      rw [hmethod]
      rfl
    have hflag : cfg.put = true := by
      rw [hmethod] at hrequired
      exact hrequired
    rw [hfile, findPut, if_neg (not_not.mpr hflag), if_neg hdenied, if_neg (not_links cfg f f _),
      openDisk_rm]
    dsimp only
    split
    · exact List.mem_cons_self
    · rw [changes_received]
      exact List.mem_cons_self
  · have hfile : findFile cfg (openDisk cfg.path f) f id =
        findDelete cfg (openDisk cfg.path f) f id := by
      unfold findFile
      rw [hmethod]
      rfl
    have hflag : cfg.delete = true := by
      rw [hmethod] at hrequired
      exact hrequired
    have hsize : (openDisk cfg.path f).fileSize (cfg.path ++ f) = -2 :=
      fileSize_dir (if_pos (hself ▸ known_self _))
    rw [hfile, findDelete, hsize, if_neg (by rw [hflag]; decide), if_neg hdenied,
      if_neg (not_links cfg f f _), openDisk_rm]
    exact List.mem_cons_self

/-- One flag is enough for "APPE". -/
theorem appe_of_sound (h : Sound cfg f id) (hmethod : id.method = "APPE".toList)
    (hdenied : ¬ cfg.Denied id) (hflag : cfg.put = true ∨ cfg.appe = true)
    (hnew : ¬ Known cfg.path (place (cfg.path ++ f))) : cfg.put = true ∧ cfg.appe = true := by
  suffices hc : .written (cfg.path ++ f) ∈ (findFile cfg (openDisk cfg.path f) f id).changes by
    have hrequired := (h _ (openDisk_has _ _) _ hc).1.1
    rw [hmethod] at hrequired
    exact Bool.and_eq_true_iff.mp hrequired
  have hfile : findFile cfg (openDisk cfg.path f) f id =
      findAppe cfg (openDisk cfg.path f) f id := by
    unfold findFile
    rw [hmethod]
    rfl
  have hnode : (openDisk cfg.path f).node (place (cfg.path ++ f)) = some (.file 0) :=
    (if_neg hnew).trans (if_pos rfl)
  obtain ⟨-, hkept, hpermits⟩ :=
    mkdirs_spec ((hierarchy (cfg.path ++ f)).filter (· ≠ [])) (openDisk cfg.path f)
  have hopened : (((openDisk cfg.path f).mkdirhier (cfg.path ++ f)).2.openAppend
      (cfg.path ++ f)).1 = [.written (cfg.path ++ f)] := by
    unfold Disk.openAppend
    rw [if_pos]
    refine ⟨?_, ?_, ?_⟩
    · rw [Disk.mkdirhier, hkept _ _ hnode]
      exact nofun
    · rw [Disk.mkdirhier, hkept _ _ hnode]
      exact nofun
    · rw [Disk.mkdirhier, hpermits]
      rfl
  rw [hfile, findAppe, if_neg (by simpa only [not_and_or, not_not] using hflag), if_neg hdenied,
    if_neg (not_links cfg f f _)]
  dsimp only
  rw [hopened, if_neg (List.cons_ne_nil _ _), changes_received]
  exact List.mem_append_left _ (List.mem_append_right _ List.mem_cons_self)

/-- What `f` leads to is not above what lies outside. -/
theorem not_above_outside {p g : Str} (hpath : cfg.path = p ++ ['/'])
    (hf : ['.', '.'] ∉ components f) (hg : cfg.Outside g) :
    ¬ AtOrAbove (place (cfg.path ++ f)) (place g) := by
  intro habove
  have hself : AtOrAbove (place cfg.path) (place g) := by
    by_cases hdown : down (components f) = []
    · rwa [place_of_not_down hpath hf hdown] at habove
    · have hin := inside_of_down hpath hf hdown
      exact AtOrAbove.trans ⟨hin.1.symm, hin.2.1⟩ habove
  by_cases heq : (place g).names = (place cfg.path).names
  · exact hg.2 ((known_self _).above ⟨hself.1.symm, heq ▸ List.suffix_refl _⟩)
  · exact hg.1 ⟨hself.1.symm, hself.2, heq⟩

theorem openDisk_outside {p g : Str} (hpath : cfg.path = p ++ ['/'])
    (hf : ['.', '.'] ∉ components f) (hg : cfg.Outside g) :
    (openDisk cfg.path f).node (place g) = none := by
  refine (if_neg hg.2).trans (if_neg fun heq => not_above_outside hpath hf hg ?_)
  rw [heq]
  exact AtOrAbove.refl _

/-- "MOVE" goes where it is told. -/
theorem move_of_sound (h : Sound cfg f id) {p : Str} (hpath : cfg.path = p ++ ['/'])
    (hf : ['.', '.'] ∉ components f) (hmethod : id.method = "MOVE".toList)
    (hallows : cfg.Allows id) (huri : id.newUri.getD [] ≠ []) {rest : Str}
    (hrest : moveto cfg.mountpoint f (id.newUri.getD []) = some rest) :
    ¬ cfg.Outside (cfg.path ++ rest) := by
  intro hout
  suffices hc : .renamed (cfg.path ++ f) (cfg.path ++ rest) ∈
      (findFile cfg (openDisk cfg.path f) f id).changes from
    hout.1 (h _ (openDisk_has _ _) _ hc).2.1
  obtain ⟨hrequired, hdenied⟩ := hallows
  have hfile : findFile cfg (openDisk cfg.path f) f id =
      findMove cfg (openDisk cfg.path f) f id := by
    unfold findFile
    rw [hmethod]
    rfl
  have hflag : cfg.methodMv = true := by
    rw [hmethod] at hrequired
    exact hrequired
  have hsource : (openDisk cfg.path f).fileSize (cfg.path ++ f) ≠ -1 := by
    unfold Disk.fileSize
    split
    next hnone => exact absurd hnone (openDisk_file _ _)
    next size _ => exact fun he => by cases he
    next => decide
    next => decide
  have hsize : (openDisk cfg.path f).fileSize (cfg.path ++ rest) = -1 := by
    rw [Disk.fileSize, openDisk_outside hpath hf hout]
  have hmoved : ((openDisk cfg.path f).mv (cfg.path ++ f) (cfg.path ++ rest)).1 =
      [.renamed (cfg.path ++ f) (cfg.path ++ rest)] := by
    unfold Disk.mv
    rw [if_pos ⟨openDisk_file _ _, not_above_outside hpath hf hout, rfl⟩]
  have hlinks : ¬ (cfg.noSymlinks = true ∧
      ((openDisk cfg.path f).containsSymlinks cfg.path (cfg.path ++ f) = true ∨
        (openDisk cfg.path f).containsSymlinks cfg.path (cfg.path ++ rest) = true)) := by
    intro hand
    obtain ⟨hset, hlink | hlink⟩ := hand
    · exact not_links cfg f _ _ ⟨hset, hlink⟩
    · exact not_links cfg f _ _ ⟨hset, hlink⟩
  rw [hfile, findMove, if_neg (not_not.mpr hflag), if_neg hsource, if_neg hdenied, if_neg huri,
    hrest]
  dsimp only
  rw [hsize, if_neg (by simp), if_neg (by decide), if_neg hlinks, hmoved,
    if_neg (List.cons_ne_nil _ _)]
  exact List.mem_cons_self

/-- So does "COPY". -/
theorem copy_of_sound (h : Sound cfg f id) {p : Str} (hpath : cfg.path = p ++ ['/'])
    (hf : ['.', '.'] ∉ components f) (hmethod : id.method = "COPY".toList)
    (hallows : cfg.Allows id) : ¬ cfg.Outside (cfg.path ++ id.destination.getD ['0']) := by
  intro hout
  suffices hc : .written (cfg.path ++ id.destination.getD ['0']) ∈
      (findFile cfg (openDisk cfg.path f) f id).changes from
    hout.1 (h _ (openDisk_has _ _) _ hc).2
  obtain ⟨hrequired, hdenied⟩ := hallows
  have hfile : findFile cfg (openDisk cfg.path f) f id =
      findCopy cfg (openDisk cfg.path f) f id := by
    unfold findFile
    rw [hmethod]
    rfl
  have hflag : cfg.copy = true := by
    rw [hmethod] at hrequired
    exact hrequired
  have hnode := openDisk_outside hpath hf hout
  have hsize : (openDisk cfg.path f).fileSize (cfg.path ++ id.destination.getD ['0']) = -1 := by
    rw [Disk.fileSize, hnode]
  have hother : cfg.path ++ f ≠ cfg.path ++ id.destination.getD ['0'] := by
    intro heq
    refine not_above_outside hpath hf hout ?_
    rw [heq]
    exact AtOrAbove.refl _
  have hlinks : ¬ (cfg.noSymlinks = true ∧
      ((openDisk cfg.path f).containsSymlinks cfg.path (cfg.path ++ f) = true ∨
        (openDisk cfg.path f).containsSymlinks cfg.path
          (cfg.path ++ id.destination.getD ['0']) = true)) := by
    intro hand
    obtain ⟨hset, hlink | hlink⟩ := hand
    · exact not_links cfg f _ _ ⟨hset, hlink⟩
    · exact not_links cfg f _ _ ⟨hset, hlink⟩
  have hcopied : (openDisk cfg.path f).node (place (cfg.path ++ f)) ≠ none ∧
      (openDisk cfg.path f).node (place (cfg.path ++ id.destination.getD ['0'])) ≠ some .dir ∧
      (openDisk cfg.path f).permits (.openFile (cfg.path ++ id.destination.getD ['0'])) = true := by
    refine ⟨openDisk_file _ _, ?_, rfl⟩
    rw [hnode]
    exact nofun
  rw [hfile, findCopy, if_neg (not_not.mpr hflag)]
  dsimp only
  rw [hsize, if_neg (by simp), if_neg hdenied, if_neg hlinks, if_neg hother, Disk.cp,
    if_pos hcopied]
  dsimp only
  split
  · exact List.mem_cons_self
  · exact List.mem_cons_self

/-! ## Mount points -/

/-- The names on the way to an absolute path are components of it, and none is "..". -/
theorem names_absolute : ∀ (cs names : List Str), (∀ c ∈ cs, '/' ∉ c) →
    (∀ c ∈ names, '/' ∉ c ∧ c ≠ ['.', '.']) →
      ∀ c ∈ cs.foldl (Lib.push true) names, '/' ∉ c ∧ c ≠ ['.', '.'] := by
  intro cs
  induction cs with
  | nil => exact fun _ _ hnames => hnames
  | cons c cs ih =>
    intro names hcs hnames
    refine ih _ (fun x hx => hcs x (List.mem_cons_of_mem c hx)) ?_
    unfold Lib.push
    split
    next => exact hnames
    next =>
      split
      next =>
        cases names with
        | nil => exact hnames
        | cons name rest =>
          dsimp only
          rw [if_neg (hnames name List.mem_cons_self).2]
          exact fun x hx => hnames x (List.mem_cons_of_mem name hx)
      next hdots =>
        intro x hx
        rcases List.mem_cons.mp hx with rfl | hx
        · exact ⟨hcs x List.mem_cons_self, hdots⟩
        · exact hnames x hx

theorem not_slash_of_mem_components : ∀ (s : Str), ∀ c ∈ components s, '/' ∉ c := by
  intro s
  induction s with
  | nil =>
    intro c hc
    rw [List.mem_singleton.mp hc]
    exact List.not_mem_nil
  | cons x s ih =>
    intro c hc
    unfold components at hc
    split at hc
    next =>
      rcases List.mem_cons.mp hc with rfl | hc
      · exact List.not_mem_nil
      · exact ih c hc
    next hx =>
      split at hc
      next hnil => exact absurd hnil (Lib.components_ne_nil s)
      next q qs hs =>
        rw [hs] at ih
        rcases List.mem_cons.mp hc with rfl | hc
        · intro hmem
          rcases List.mem_cons.mp hmem with rfl | hmem
          · exact hx rfl
          · exact ih q List.mem_cons_self hmem
        · exact ih c (List.mem_cons_of_mem q hc)

/-- A component without a slash is one. -/
theorem components_of_not_slash : ∀ {c : Str}, '/' ∉ c → components c = [c] := by
  intro c
  induction c with
  | nil => intro _; rfl
  | cons x c ih =>
    intro h
    rw [components, if_neg (fun hx => h (by rw [hx]; exact List.mem_cons_self)),
      ih fun hc => h (List.mem_cons_of_mem x hc)]

theorem mem_components_intercalate : ∀ {names : List Str}, (∀ c ∈ names, '/' ∉ c) →
    ∀ c ∈ components (List.intercalate ['/'] names), c = [] ∨ c ∈ names := by
  intro names
  induction names with
  | nil => exact fun _ c hc => Or.inl (List.mem_singleton.mp hc)
  | cons name names ih =>
    intro h c hc
    cases names with
    | nil =>
      rw [show List.intercalate ['/'] [name] = name by simp [List.intercalate],
        components_of_not_slash (h name List.mem_cons_self)] at hc
      exact Or.inr hc
    | cons name' names =>
      rw [show List.intercalate ['/'] (name :: name' :: names) =
        name ++ '/' :: List.intercalate ['/'] (name' :: names) by simp [List.intercalate],
        Lib.components_append, components_of_not_slash (h name List.mem_cons_self)] at hc
      rcases List.mem_append.mp hc with hc | hc
      · exact Or.inr (List.mem_singleton.mp hc ▸ List.mem_cons_self)
      · exact (ih (fun x hx => h x (List.mem_cons_of_mem _ hx)) c hc).imp_right
          (List.mem_cons_of_mem _)

/-- A combined absolute path has no "..". -/
theorem combinePath_absolute {a b : Str} (ha : a.head? = some '/') :
    ['.', '.'] ∉ components (combinePath a b) := by
  unfold combinePath
  have habsolute : (if b.head? = some '/' then b else a ++ '/' :: b).head? = some '/' := by
    split
    next hb => exact hb
    next =>
      cases a with
      | nil => cases ha
      | cons x a => exact ha
  generalize (if b.head? = some '/' then b else a ++ '/' :: b) = s at habsolute
  have hplace : (place s).absolute = true := decide_eq_true habsolute
  have hnames : ∀ c ∈ (place s).names, '/' ∉ c ∧ c ≠ ['.', '.'] := by
    unfold place
    rw [habsolute]
    exact names_absolute _ _ (not_slash_of_mem_components s) (fun c hc => absurd hc List.not_mem_nil)
  intro hdots
  unfold render at hdots
  rw [hplace, if_pos rfl] at hdots
  have hmem : ['.', '.'] ∈ components (List.intercalate ['/'] (place s).names.reverse) := by
    split at hdots
    · rw [show ['/'] ++ List.intercalate ['/'] (place s).names.reverse ++ ['/'] =
        '/' :: List.intercalate ['/'] (place s).names.reverse ++ '/' :: [] from rfl,
        Lib.components_append] at hdots
      rcases List.mem_append.mp hdots with hdots | hdots
      · rcases List.mem_cons.mp hdots with hnil | hdots
        · cases hnil
        · exact hdots
      · cases List.mem_singleton.mp hdots
    · rw [List.append_nil] at hdots
      rcases List.mem_cons.mp hdots with hnil | hdots
      · cases hnil
      · exact hdots
  rcases mem_components_intercalate (fun c hc => (hnames c (List.mem_reverse.mp hc)).1) _ hmem with
    hnil | hname
  · cases hnil
  · exact (hnames _ (List.mem_reverse.mp hname)).2 rfl

/-- At a mount point that ends in a slash "MOVE" stays inside. -/
theorem moveto_inside {p m newUri rest : Str} (hpath : cfg.path = p ++ ['/'])
    (habsolute : cfg.mountpoint.head? = some '/') (hmount : cfg.mountpoint = m ++ ['/'])
    (h : moveto cfg.mountpoint f newUri = some rest) : ¬ cfg.Outside (cfg.path ++ rest) := by
  unfold moveto at h
  dsimp only at h
  split at h
  next hpre =>
    cases h
    have hhead : (cfg.mountpoint ++ "/".toList ++ f ++ "/..".toList).head? = some '/' := by
      cases hm : cfg.mountpoint with
      | nil => rw [hm] at habsolute; cases habsolute
      | cons c m => rwa [hm] at habsolute
    have hdots := combinePath_absolute (b := newUri) hhead
    generalize combinePath (cfg.mountpoint ++ "/".toList ++ f ++ "/..".toList) newUri = target at *
    have hsplit : target = m ++ '/' :: target.drop cfg.mountpoint.length := by
      conv_lhs => rw [← List.take_append_drop cfg.mountpoint.length target, hpre, hmount]
      rw [List.append_assoc, hmount]
      rfl
    have hrest : ['.', '.'] ∉ components (target.drop cfg.mountpoint.length) := by
      intro hmem
      rw [hsplit, Lib.components_append] at hdots
      exact hdots (List.mem_append_right _ hmem)
    intro hand
    obtain ⟨hin, hknown⟩ := hand
    by_cases hdown : down (components (target.drop cfg.mountpoint.length)) = []
    · rw [place_of_not_down hpath hrest hdown] at hknown
      exact hknown (known_self _)
    · exact hin (inside_of_down hpath hrest hdown)
  next => cases h

/-- **Changes.** Whatever there is on the disk, `find_file` makes no change but those that the
flags and `check_auth` allow, and below the search path, exactly when the request is
harmless. -/
theorem sound_iff {p : Str} (hpath : cfg.path = p ++ ['/']) (hf : ['.', '.'] ∉ components f) :
    Sound cfg f id ↔ Harmless cfg f id := by
  refine ⟨fun h => ?_, sound_of_harmless hpath hf⟩
  exact {
    removes := removes_of_sound hpath hf h
    appe := appe_of_sound h
    move := fun hmethod hallows huri rest hrest =>
      move_of_sound h hpath hf hmethod hallows huri hrest
    copy := copy_of_sound h hpath hf }

/-- A module that allows to copy. -/
def Config.copying : Config where
  path := "/www/".toList
  mountpoint := "/".toList
  put := false
  appe := false
  delete := false
  copy := true
  methodMkdir := false
  methodMv := false
  methodChmod := false
  keepOldPerms := true
  checkAuth := true
  noSymlinks := false
  dotFiles := false

/-- A user asks for a copy. -/
def RequestID.copying : RequestID where
  method := "COPY".toList
  notQuery := "/page".toList
  user := true
  internalGet := false
  data := []
  len := 0
  moveFrom := none
  newUri := none
  destination := none
  overwrite := none
  realFile _ := none

/-- A copy to "0", which is what no destination comes to. -/
theorem sound_iff_copying : Sound Config.copying "page".toList RequestID.copying ↔
    Harmless Config.copying "page".toList RequestID.copying :=
  sound_iff (p := "/www".toList) rfl (by decide)

/-- "Destination: /../etc/passwd" is taken as it is. -/
theorem copy_leaves_path : ∃ id,
    RequestID.copying.handleCopy "/../etc/passwd".toList none none = some id ∧
      ¬ Sound Config.copying "page".toList id := by
  refine ⟨_, rfl, fun h => copy_of_sound h (p := "/www".toList) rfl (by decide) rfl
    ⟨rfl, by decide⟩ ⟨?_, ?_⟩⟩
  · unfold Config.Inside
    decide
  · decide

end Caudium.Filesystem
