import Caudium.RestrictedFs.Calls

/-!
# The restricted file system module (restrictedfs.pike): confinement

With `remap_home` all calls are for the home directory and what lies below it. Without,
the text of the home directory in front of a path may end inside a name, and `find_dir` goes on
with any path that has nothing to do with the home directory.
-/

namespace Caudium.RestrictedFs

open Lib (Str Place place search components down AtOrAbove)

/-! ## Confinement -/

/-- The path is that of the home directory, or lies below it. -/
def InHome (home f : Str) : Prop := AtOrAbove (place home) (place ('/' :: f))

/-- The path leads to the home directory. -/
def Ancestor (home f : Str) : Prop := AtOrAbove (place ('/' :: f)) (place home)

/-- `name` is the next one on the way to the home directory. -/
def Next (home f name : Str) : Prop :=
  ∃ more, (place home).names = more ++ name :: (place ('/' :: f)).names

/-- What a function may do. -/
def Confined (entry : Entry) (home f : Str) : Result → Prop
  | .zero => True
  | .error => True
  | .call g => InHome home g ∨ (entry = .statFile ∨ entry = .realFile) ∧ Ancestor home g
  | .listing dir => Ancestor home f ∧
      ∀ name ∈ dir, name = ['.'] ∨ name = ['.', '.'] ∨ Next home f name

/-! ## When it does -/

/-- The last component of a path. -/
def lastComponent (s : Str) : Str := (components s).getLastD []

/-- The first component of a path. -/
def firstComponent (s : Str) : Str := (components s).headD []

/-- The home directory is not cut off inside a name, `rest` being what comes behind it. -/
def Boundary (home rest : Str) : Prop :=
  firstComponent rest = [] ∨ lastComponent home = [] ∨ lastComponent home = ['.']

/-- The path, which the home directory goes on with `rest` from, is not cut off inside a name;
or inside one that begins with a dot, and what is listed of the name is not shown. -/
def CutRight (cfg : Config) (f rest : Str) : Prop :=
  firstComponent rest = [] ∨ lastComponent f = [] ∨ lastComponent f = ['.'] ∧
    (firstComponent rest = ['.', '.'] ∨
      dirFilterFunction cfg (firstComponent rest) = some false)

/-- Where the functions do what they may. -/
def Safe (entry : Entry) (cfg : Config) (home f : Str) : Prop :=
  cfg.remapHome = false →
    (home <+: '/' :: f → Boundary home (('/' :: f).drop home.length)) ∧
    (entry = .findDir → ¬ home <+: '/' :: f →
      if '/' :: f <+: home then CutRight cfg f (home.drop (f.length + 1)) else InHome home f)

/-! ## Components -/

/-- A path and what is put behind it, with the components on either side. -/
theorem components_both (s t : Str) : ∃ cs ds, components s = cs ++ [lastComponent s] ∧
    components t = firstComponent t :: ds ∧
    components (s ++ t) = cs ++ (lastComponent s ++ firstComponent t) :: ds := by
  obtain ⟨cs, n, hs, hgo⟩ := Lib.components_concat s
  obtain ⟨m, ds, ht⟩ := List.exists_cons_of_ne_nil (Lib.components_ne_nil t)
  have hn : lastComponent s = n := by
    rw [lastComponent, hs]
    simp
  have hm : firstComponent t = m := by
    rw [firstComponent, ht]
    rfl
  rw [hn, hm]
  exact ⟨cs, ds, hs, ht, hgo t m ds ht⟩

theorem down_append (cs ds : List Str) : down (cs ++ ds) = down cs ++ down ds :=
  List.filter_append _ _

theorem down_stay {c : Str} (h : c = [] ∨ c = ['.']) (cs : List Str) : down (c :: cs) = down cs :=
  List.filter_cons_of_neg (by simpa [or_iff_not_imp_left] using h)

theorem down_name {c : Str} (h : ¬ (c = [] ∨ c = ['.'])) (cs : List Str) :
    down (c :: cs) = c :: down cs :=
  List.filter_cons_of_pos (by simpa [not_or] using h)

/-- A longer name is one as well. -/
theorem name_append {n : Str} (h : ¬ (n = [] ∨ n = ['.'])) (m : Str) :
    ¬ (n ++ m = [] ∨ n ++ m = ['.']) := by
  rw [not_or] at h ⊢
  refine ⟨fun hnil => h.1 (List.append_eq_nil_iff.mp hnil).1, fun hdot => ?_⟩
  rcases List.append_eq_singleton_iff.mp hdot with ⟨hn, -⟩ | ⟨hn, -⟩
  · exact h.1 hn
  · exact h.2 hn

/-- A path leads on to another one that begins with its text unless that goes on with its last
name. -/
theorem prefix_down_iff (s t : Str) : down (components s) <+: down (components (s ++ t)) ↔
    firstComponent t = [] ∨ lastComponent s = [] ∨ lastComponent s = ['.'] := by
  obtain ⟨cs, ds, hs, -, hst⟩ := components_both s t
  rw [hst, down_append]
  conv_lhs => rw [hs, down_append]
  rw [List.prefix_append_right_inj]
  by_cases hstay : lastComponent s = [] ∨ lastComponent s = ['.']
  · rw [down_stay hstay]
    exact iff_of_true List.nil_prefix (Or.inr hstay)
  · rw [down_name hstay, down_name (name_append hstay _), or_iff_left hstay]
    constructor
    · intro h
      have hname := (List.cons_prefix_cons.mp h).1
      exact List.self_eq_append_right.mp hname
    · intro h
      rw [h, List.append_nil]
      exact List.cons_prefix_cons.mpr ⟨rfl, List.nil_prefix⟩

theorem lastComponent_slash (s : Str) : lastComponent (s ++ ['/']) = [] := by
  rw [lastComponent, Lib.components_append]
  exact List.getLastD_concat

theorem lastComponent_cons (s : Str) : lastComponent ('/' :: s) = lastComponent s := by
  obtain ⟨cs, n, hs, -⟩ := Lib.components_concat s
  have hcons : components ('/' :: s) = [] :: components s := rfl
  rw [lastComponent, lastComponent, hcons, hs, ← List.cons_append, List.getLastD_concat,
    List.getLastD_concat]

/-! ## Calls -/

variable {cfg : Config} {h f rest : Str}

/-- A call for a path that begins with the text of the home directory. -/
theorem inHome_prefix_iff (hh : ['.', '.'] ∉ components h) (hf : ['.', '.'] ∉ components f)
    (heq : f = h ++ rest) : InHome ('/' :: h) f ↔ Boundary ('/' :: h) rest := by
  unfold InHome Boundary
  rw [Lib.atOrAbove_absolute hh hf, heq, prefix_down_iff, lastComponent_cons]

/-- Such a path leads to the home directory only if it is that. -/
theorem boundary_of_ancestor (hh : ['.', '.'] ∉ components h) (hf : ['.', '.'] ∉ components f)
    (heq : f = h ++ rest) (habove : Ancestor ('/' :: h) f) : Boundary ('/' :: h) rest := by
  unfold Ancestor at habove
  unfold Boundary
  rw [Lib.atOrAbove_absolute hf hh] at habove
  rw [lastComponent_cons]
  obtain ⟨cs, ds, hs, -, hst⟩ := components_both h rest
  by_cases hstay : lastComponent h = [] ∨ lastComponent h = ['.']
  · exact Or.inr hstay
  · rw [heq, hst, hs, down_append, down_append, List.prefix_append_right_inj, down_name hstay,
      down_name (name_append hstay _)] at habove
    have hname := (List.cons_prefix_cons.mp habove).1
    exact Or.inl (List.self_eq_append_right.mp hname.symm)

/-- A path whose text the home directory begins with leads there if it is not cut off inside a
name. -/
theorem ancestor_iff (hh : ['.', '.'] ∉ components h) (hf : ['.', '.'] ∉ components f)
    (heq : h = f ++ rest) : Ancestor ('/' :: h) f ↔
      firstComponent rest = [] ∨ lastComponent f = [] ∨ lastComponent f = ['.'] := by
  unfold Ancestor
  rw [Lib.atOrAbove_absolute hf hh, heq, prefix_down_iff]

theorem search_zero_iff {s pat : Str} : search s pat = some 0 ↔ pat <+: s := by
  rw [Lib.search_eq_some, List.drop_zero]
  exact and_iff_left fun j hj => absurd hj (Nat.not_lt_zero j)

theorem slice_iff : slice ('/' :: h) f = f ↔ '/' :: f <+: '/' :: h := by
  rw [List.cons_prefix_cons, List.prefix_iff_eq_take, and_iff_right rfl]
  exact eq_comm

/-- The path behind the home directory, with `remap_home`. -/
theorem remapped_confined (hh : ['.', '.'] ∉ components h) (hf : ['.', '.'] ∉ components f)
    (entry : Entry) (f' : Str) : Confined entry ('/' :: h) f' (remapped ('/' :: h) f) := by
  unfold remapped
  dsimp only
  rw [if_pos rfl]
  cases hlast : h.getLast? with
  | none => exact trivial
  | some c =>
    refine Or.inl ?_
    by_cases hslash : c = '/'
    · obtain ⟨q, rfl⟩ : ∃ q, h = q ++ ['/'] := by
        rw [hslash] at hlast
        exact List.getLast?_eq_some_iff.mp hlast
      have hq : ['.', '.'] ∉ components q := by
        rw [Lib.components_append] at hh
        exact fun hmem => hh (List.mem_append_left _ hmem)
      have hboth : ['.', '.'] ∉ components (q ++ ['/'] ++ f) := by
        rw [List.append_assoc, List.singleton_append, Lib.components_append]
        exact fun hmem => (List.mem_append.mp hmem).elim hq hf
      rw [if_neg (not_not.mpr hslash), inHome_prefix_iff hh hboth rfl]
      exact Or.inr (Or.inl (lastComponent_slash ('/' :: q)))
    · have hboth : ['.', '.'] ∉ components (h ++ ['/'] ++ f) := by
        rw [List.append_assoc, List.singleton_append, Lib.components_append]
        exact fun hmem => (List.mem_append.mp hmem).elim hh hf
      rw [if_pos hslash, inHome_prefix_iff hh hboth (List.append_assoc h ['/'] f)]
      exact Or.inl rfl

/-! ## The functions -/

theorem confined_call (entry : Entry) (home f' g : Str) : Confined entry home f' (.call g) ↔
    InHome home g ∨ (entry = .statFile ∨ entry = .realFile) ∧ Ancestor home g := Iff.rfl

/-- What stands behind the home directory in a path. -/
theorem drop_home : ('/' :: (h ++ rest)).drop ('/' :: h).length = rest := by
  rw [List.length_cons, List.drop_succ_cons, List.drop_left]

/-- All functions go on with a path that begins with the text of the home directory. -/
theorem call_confined_iff (hh : ['.', '.'] ∉ components h) (hf : ['.', '.'] ∉ components f)
    (hpre : '/' :: h <+: '/' :: f) (entry : Entry) (f' : Str) :
    Confined entry ('/' :: h) f' (.call f) ↔
      Boundary ('/' :: h) (('/' :: f).drop ('/' :: h).length) := by
  obtain ⟨rest, rfl⟩ := (List.cons_prefix_cons.mp hpre).2
  rw [confined_call, drop_home, inHome_prefix_iff hh hf rfl]
  constructor
  · intro hcall
    rcases hcall with hin | ⟨-, habove⟩
    · exact hin
    · exact boundary_of_ancestor hh hf rfl habove
  · exact Or.inl

/-- What all functions have in common; `r` is what they do with another path. -/
theorem called_confined_iff (hh : ['.', '.'] ∉ components h) (hf : ['.', '.'] ∉ components f)
    (hmap : cfg.remapHome = false) (entry : Entry) {r : Result} {P : Prop}
    (hr : ¬ '/' :: h <+: '/' :: f → (Confined entry ('/' :: h) f r ↔ P)) :
    Confined entry ('/' :: h) f
        (if cfg.remapHome then remapped ('/' :: h) f
        else if search ('/' :: f) ('/' :: h) ≠ some 0 then r else .call f) ↔
      ('/' :: h <+: '/' :: f → Boundary ('/' :: h) (('/' :: f).drop ('/' :: h).length)) ∧
      (¬ '/' :: h <+: '/' :: f → P) := by
  rw [if_neg (by rw [hmap]; exact Bool.false_ne_true)]
  by_cases hpre : '/' :: h <+: '/' :: f
  · rw [if_neg (not_not.mpr (search_zero_iff.2 hpre)), call_confined_iff hh hf hpre,
      imp_iff_right hpre]
    exact (and_iff_left fun hother => absurd hpre hother).symm
  · rw [if_pos (mt search_zero_iff.1 hpre), hr hpre, imp_iff_right hpre]
    exact (and_iff_right fun hpre' => absurd hpre' hpre).symm

/-- `find_file` does not call for any other path. -/
theorem findFile_confined_iff (hh : ['.', '.'] ∉ components h) (hf : ['.', '.'] ∉ components f)
    (hmap : cfg.remapHome = false) (entry : Entry) :
    Confined entry ('/' :: h) f (findFile cfg ('/' :: h) f) ↔
      ('/' :: h <+: '/' :: f → Boundary ('/' :: h) (('/' :: f).drop ('/' :: h).length)) := by
  refine (called_confined_iff hh hf hmap entry (P := True) fun _ => ?_).trans
    (and_iff_left fun _ => trivial)
  exact Iff.rfl

/-- A shorter path leads to the home directory if one of the two characters there is a slash. -/
theorem ancestor_of_slash (hh : ['.', '.'] ∉ components (f ++ rest))
    (hf : ['.', '.'] ∉ components f)
    (hslash : ('/' :: (f ++ rest))[f.length]? = some '/' ∨
      ('/' :: (f ++ rest))[f.length + 1]? = some '/') : Ancestor ('/' :: (f ++ rest)) f := by
  rw [ancestor_iff hh hf rfl]
  rcases hslash with hend | hnext
  · right
    left
    rcases List.eq_nil_or_concat' f with rfl | ⟨q, c, rfl⟩
    · rfl
    · have hc : ('/' :: (q ++ [c] ++ rest))[(q ++ [c]).length]? = some c := by
        rw [List.length_append, List.length_singleton, List.getElem?_cons_succ, List.append_assoc,
          List.getElem?_append_right (Nat.le_refl _), Nat.sub_self]
        rfl
      rw [hc] at hend
      rw [Option.some.inj hend]
      exact lastComponent_slash q
  · left
    rw [List.getElem?_cons_succ, List.getElem?_append_right (Nat.le_refl _), Nat.sub_self] at hnext
    cases rest with
    | nil => cases hnext
    | cons c rest =>
      rw [show c = '/' from Option.some.inj hnext]
      rfl

/-- `stat_file` calls for others that lead to the home directory. -/
theorem statFile_confined_iff (hh : ['.', '.'] ∉ components h) (hf : ['.', '.'] ∉ components f)
    (hmap : cfg.remapHome = false) {entry : Entry}
    (hentry : entry = .statFile ∨ entry = .realFile) :
    Confined entry ('/' :: h) f (statFile cfg ('/' :: h) f) ↔
      ('/' :: h <+: '/' :: f → Boundary ('/' :: h) (('/' :: f).drop ('/' :: h).length)) := by
  refine (called_confined_iff hh hf hmap entry (P := True) fun _ => iff_of_true ?_ trivial).trans
    (and_iff_left fun _ => trivial)
  by_cases hshort : slice ('/' :: h) f = f
  · rw [if_neg (not_not.mpr hshort)]
    obtain ⟨rest, rfl⟩ := (List.cons_prefix_cons.mp (slice_iff.1 hshort)).2
    split
    next => exact trivial
    next hend => exact Or.inr ⟨hentry, ancestor_of_slash hh hf (Or.inl hend)⟩
    next =>
      split
      next => exact trivial
      next hnext => exact Or.inr ⟨hentry, ancestor_of_slash hh hf (Or.inr hnext)⟩
      next => exact trivial
  · rw [if_pos hshort]
    exact trivial

/-! ## Listings -/

theorem mem_arrayFilter {p : Str → Option Bool} {as dir : List Str}
    (hrun : arrayFilter p as = some dir) (a : Str) : a ∈ dir ↔ a ∈ as ∧ p a = some true := by
  induction as generalizing dir with
  | nil =>
    cases hrun
    exact iff_of_false List.not_mem_nil fun hmem => List.not_mem_nil hmem.1
  | cons b as ih =>
    unfold arrayFilter at hrun
    cases hb : p b with
    | none =>
      rw [hb] at hrun
      cases hrun
    | some keep =>
      cases has : arrayFilter p as with
      | none =>
        rw [hb, has] at hrun
        cases hrun
      | some rest =>
        rw [hb, has] at hrun
        have hdir : dir = if keep then b :: rest else rest := (Option.some.inj hrun).symm
        rw [hdir, List.mem_cons]
        cases keep with
        | true =>
          rw [if_pos rfl, List.mem_cons, ih has]
          constructor
          · intro h
            obtain rfl | ⟨hmem, ha⟩ := h
            · exact ⟨Or.inl rfl, hb⟩
            · exact ⟨Or.inr hmem, ha⟩
          · intro h
            obtain ⟨hmem, ha⟩ := h
            exact hmem.imp_right fun hmem => ⟨hmem, ha⟩
        | false =>
          rw [if_neg Bool.false_ne_true, ih has]
          constructor
          · exact fun ⟨hmem, ha⟩ => ⟨Or.inr hmem, ha⟩
          · intro h
            obtain ⟨rfl | hmem, ha⟩ := h
            · rw [hb] at ha
              cases ha
            · exact ⟨hmem, ha⟩

/-- Every name but the empty one is shown or not. -/
theorem dirFilterFunction_eq (cfg : Config) {name : Str} (hname : name ≠ []) :
    ∃ keep, dirFilterFunction cfg name = some keep := by
  obtain ⟨c, name, rfl⟩ := List.exists_cons_of_ne_nil hname
  exact ⟨_, rfl⟩

/-- A name is not shown if the filter takes it out. -/
theorem not_mem_arrayFilter {name : Str} (hname : name ≠ []) {as dir : List Str} (hmem : name ∈ as)
    (hrun : arrayFilter (dirFilterFunction cfg) as = some dir) :
    name ∉ dir ↔ dirFilterFunction cfg name = some false := by
  obtain ⟨keep, hkeep⟩ := dirFilterFunction_eq cfg hname
  rw [mem_arrayFilter hrun, and_iff_right hmem, hkeep]
  simp

theorem next_iff (hh : ['.', '.'] ∉ components h) (hf : ['.', '.'] ∉ components f) (name : Str) :
    Next ('/' :: h) f name ↔
      ∃ more, down (components h) = down (components f) ++ name :: more := by
  unfold Next
  rw [Lib.place_absolute hh, Lib.place_absolute hf]
  constructor
  · intro hand
    obtain ⟨more, hmore⟩ := hand
    refine ⟨more.reverse, List.reverse_inj.mp ?_⟩
    rw [show (down (components h)).reverse = _ from hmore]
    simp
  · intro hand
    obtain ⟨more, hmore⟩ := hand
    refine ⟨more.reverse, ?_⟩
    rw [hmore]
    simp

/-- The next name, where the path ends in front of it. -/
theorem next_of_slash (hh : ['.', '.'] ∉ components (f ++ rest)) (hf : ['.', '.'] ∉ components f)
    (hlast : lastComponent f = []) (hname : firstComponent rest ≠ [])
    (hdot : firstComponent rest ≠ ['.']) :
    Next ('/' :: (f ++ rest)) f (firstComponent rest) := by
  obtain ⟨cs, ds, hs, -, hst⟩ := components_both f rest
  rw [next_iff hh hf]
  refine ⟨down ds, ?_⟩
  rw [hst, hs, down_append, down_append, hlast, List.nil_append, down_stay (Or.inl rfl),
    down_name (not_or.mpr ⟨hname, hdot⟩)]
  simp [down]

/-- Behind a dot there is another name than the one that is next. -/
theorem not_next_of_dot (hh : ['.', '.'] ∉ components (f ++ rest)) (hf : ['.', '.'] ∉ components f)
    (hlast : lastComponent f = ['.']) (hname : firstComponent rest ≠ []) :
    ¬ Next ('/' :: (f ++ rest)) f (firstComponent rest) := by
  obtain ⟨cs, ds, hs, -, hst⟩ := components_both f rest
  rw [next_iff hh hf]
  intro h
  obtain ⟨more, hmore⟩ := h
  rw [hst, hs, down_append, down_append, hlast, down_stay (Or.inr rfl),
    down_name (by simpa using hname), List.append_assoc, List.append_cancel_left_eq] at hmore
  have hlen := congrArg List.length (List.cons.inj hmore).1
  simp at hlen

/-- What is listed of a path whose text the home directory begins with. -/
theorem listing_confined_iff (hh : ['.', '.'] ∉ components (f ++ rest))
    (hf : ['.', '.'] ∉ components f) (hname : firstComponent rest ≠ []) {dir : List Str}
    (hdir : arrayFilter (dirFilterFunction cfg) [['.'], ['.', '.'], firstComponent rest] =
      some dir) :
    Confined .findDir ('/' :: (f ++ rest)) f (.listing dir) ↔ CutRight cfg f rest := by
  have hmem : ∀ name ∈ dir, name = ['.'] ∨ name = ['.', '.'] ∨ name = firstComponent rest := by
    intro name hmem
    have hall := ((mem_arrayFilter hdir name).mp hmem).1
    simpa using hall
  show Ancestor _ f ∧ _ ↔ _
  unfold CutRight
  rw [ancestor_iff hh hf rfl, or_iff_right hname, or_iff_right hname]
  by_cases hslash : lastComponent f = []
  · -- The path ends in front of the next name.
    refine iff_of_true ⟨Or.inl hslash, fun name hin => ?_⟩ (Or.inl hslash)
    by_cases hdot : name = ['.']
    · exact Or.inl hdot
    · rcases hmem name hin with h' | h' | rfl
      · exact absurd h' hdot
      · exact Or.inr (Or.inl h')
      · exact Or.inr (Or.inr (next_of_slash hh hf hslash hname hdot))
  · rw [or_iff_right hslash, or_iff_right hslash]
    refine and_congr_right fun hlast => ?_
    -- The path ends in a dot that begins another name.
    have hnot := not_next_of_dot hh hf hlast hname
    have hself : firstComponent rest ≠ ['.'] := by
      obtain ⟨cs, ds, -, -, hst⟩ := components_both f rest
      intro hdot
      refine hh ?_
      rw [hst, hlast, hdot]
      exact List.mem_append_right _ List.mem_cons_self
    constructor
    · intro hall
      by_cases hshown : firstComponent rest ∈ dir
      · rcases hall _ hshown with h' | h' | h'
        · exact absurd h' hself
        · exact Or.inl h'
        · exact absurd h' hnot
      · exact Or.inr ((not_mem_arrayFilter hname (by simp) hdir).mp hshown)
    · intro h name hin
      obtain hup | hhidden := h
      · exact (hmem name hin).imp_right fun h' => Or.inl (h'.elim id fun h' => h'.trans hup)
      · rcases hmem name hin with h' | h' | rfl
        · exact Or.inl h'
        · exact Or.inr (Or.inl h')
        · exact absurd hin ((not_mem_arrayFilter hname (by simp) hdir).mpr hhidden)

/-- The listing fails where there is no next name. -/
theorem arrayFilter_next (cfg : Config) (name : Str) :
    arrayFilter (dirFilterFunction cfg) [['.'], ['.', '.'], name] = none ↔ name = [] := by
  constructor
  · intro hrun
    by_contra hname
    obtain ⟨c, name, rfl⟩ := List.exists_cons_of_ne_nil hname
    simp [arrayFilter, dirFilterFunction] at hrun
  · intro h
    subst h
    simp [arrayFilter, dirFilterFunction]

/-- `find_dir` lists the next name, or goes on with the path. -/
theorem findDir_confined_iff (hh : ['.', '.'] ∉ components h) (hf : ['.', '.'] ∉ components f)
    (hmap : cfg.remapHome = false) : Confined .findDir ('/' :: h) f (findDir cfg ('/' :: h) f) ↔
      ('/' :: h <+: '/' :: f → Boundary ('/' :: h) (('/' :: f).drop ('/' :: h).length)) ∧
      (¬ '/' :: h <+: '/' :: f → if '/' :: f <+: '/' :: h
        then CutRight cfg f (('/' :: h).drop (f.length + 1)) else InHome ('/' :: h) f) := by
  refine called_confined_iff hh hf hmap .findDir fun _ => ?_
  by_cases hshort : '/' :: f <+: '/' :: h
  · rw [if_pos (slice_iff.2 hshort), if_pos hshort]
    obtain ⟨rest, rfl⟩ := (List.cons_prefix_cons.mp hshort).2
    have hrest : ('/' :: (f ++ rest)).drop (f.length + 1) = rest := drop_home
    have hnext : (components rest).headD [] = firstComponent rest := rfl
    rw [hrest]
    dsimp only
    rw [hnext]
    cases hdir : arrayFilter (dirFilterFunction cfg) [['.'], ['.', '.'], firstComponent rest] with
    | none =>
      exact iff_of_true trivial (Or.inl ((arrayFilter_next cfg _).mp hdir))
    | some dir =>
      refine listing_confined_iff hh hf (fun hname => ?_) hdir
      rw [(arrayFilter_next cfg _).mpr hname] at hdir
      cases hdir
  · rw [if_neg (mt slice_iff.1 hshort), if_neg hshort, confined_call]
    refine or_iff_left fun hother => ?_
    obtain hentry | hentry := hother.1
    · cases hentry
    · cases hentry

/-! ## All of them -/

/-- **Confinement**: the module keeps to the home directory where the text of it in front of a path,
or that of the path in front of it, ends between names; and `find_dir` only with paths in the home
directory. -/
theorem keeps_home_iff (entry : Entry) (cfg : Config) {home f : Str} (habs : home.head? = some '/')
    (hhome : ['.', '.'] ∉ components home) (hf : ['.', '.'] ∉ components f) :
    Confined entry home f (entry.run cfg (some home) f) ↔ Safe entry cfg home f := by
  obtain ⟨h, rfl⟩ := List.head?_eq_some_iff.mp habs
  have hh : ['.', '.'] ∉ components h := fun hmem => hhome (List.mem_cons_of_mem _ hmem)
  cases hmap : cfg.remapHome with
  | true =>
    have hrun : entry.run cfg (some ('/' :: h)) f = remapped ('/' :: h) f := by
      cases entry <;> exact if_pos hmap
    rw [hrun]
    refine iff_of_true (remapped_confined hh hf entry f) fun hmap' => ?_
    rw [hmap] at hmap'
    cases hmap'
  | false =>
    unfold Safe
    rw [imp_iff_right hmap]
    cases entry with
    | statFile =>
      exact (statFile_confined_iff hh hf hmap (Or.inl rfl)).trans
        (and_iff_left fun hdir => nomatch hdir).symm
    | realFile =>
      exact (statFile_confined_iff hh hf hmap (Or.inr rfl)).trans
        (and_iff_left fun hdir => nomatch hdir).symm
    | findFile =>
      exact (findFile_confined_iff hh hf hmap _).trans
        (and_iff_left fun hdir => nomatch hdir).symm
    | findDir =>
      exact (findDir_confined_iff hh hf hmap).trans
        (and_congr_right fun _ => (imp_iff_right rfl).symm)

theorem keeps_home_iff_foo : Confined .findFile "/home/foo".toList "home/foo/x".toList
    (Entry.findFile.run ⟨false, false, false⟩ (some "/home/foo".toList) "home/foo/x".toList) ↔
      Safe .findFile ⟨false, false, false⟩ "/home/foo".toList "home/foo/x".toList :=
  keeps_home_iff .findFile ⟨false, false, false⟩ (by decide) (by decide) (by decide)

/-- Files in the home directory of another user with a longer name are found, and any other
directory is listed. -/
theorem other_homes_open :
    ¬ Confined .findFile "/home/foo".toList "home/foobar/x".toList
      (Entry.findFile.run ⟨false, false, false⟩ (some "/home/foo".toList) "home/foobar/x".toList) ∧
    ¬ Confined .findDir "/home/foo".toList "etc".toList
      (Entry.findDir.run ⟨false, false, false⟩ (some "/home/foo".toList) "etc".toList) := by
  have hfile : Entry.findFile.run ⟨false, false, false⟩ (some "/home/foo".toList)
      "home/foobar/x".toList = .call "home/foobar/x".toList := by decide +kernel
  have hdir : Entry.findDir.run ⟨false, false, false⟩ (some "/home/foo".toList)
      "etc".toList = .call "etc".toList := by decide +kernel
  rw [hfile, hdir, confined_call, confined_call]
  constructor
  · intro h
    obtain hin | ⟨hother, -⟩ := h
    · revert hin
      show ¬ AtOrAbove _ _
      decide +kernel
    · exact hother.elim nofun nofun
  · intro h
    obtain hin | ⟨hother, -⟩ := h
    · revert hin
      show ¬ AtOrAbove _ _
      decide +kernel
    · exact hother.elim nofun nofun

end Caudium.RestrictedFs
