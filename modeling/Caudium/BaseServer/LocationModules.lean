import Mathlib.Data.Char
import Caudium.Lib.ParallelSort
import Caudium.BaseServer.LowGetFile
import Caudium.BaseServer.Registry

/-!
# The order of the location modules

`location_modules` puts the modules of a priority into two arrays, the locations and
the `find_file` functions, sorts the first with the second beside it and takes both
from the end. Two locations that both begin a URL are a text and a beginning of it,
so the longer one is asked first (`mount_order`).
-/

namespace Caudium.BaseServer

open Lib (Str ParallelSort backwards Falling)

variable {φ μ ω : Type}

/-! ## `location_modules` -/

/-- The location modules of the priorities, and what is asked of them. -/
structure Mounts (φ : Type) where
  modules : Fin 10 → List Instance
  /-- `find_file`, if it is defined. -/
  findFile : Instance → Option φ
  /-- `query_location()`; `none` for 0. -/
  queryLocation : Instance → Option Str

/-- `level_locations` and `level_find_files`. -/
def Mounts.collect (m : Mounts φ) (d : List Instance) : List Str × List φ :=
  d.foldl (fun level p =>
    match m.findFile p, m.queryLocation p with
    | some f, some location => (level.1 ++ [location], level.2 ++ [f])
    | _, _ => level) ([], [])

/-- What a priority adds. -/
def Mounts.level (m : Mounts φ) (sort : ParallelSort Str φ) (i : Fin 10) :
    Option (List (Str × φ)) :=
  let found := m.collect (m.modules i)
  let sorted := sort.run found.1 found.2
  backwards sorted.1 sorted.2 sorted.1.length

/-- The priorities in turn. -/
def Mounts.build (m : Mounts φ) (sort : ParallelSort Str φ) :
    List (Fin 10) → List (Str × φ) → Option (List (Str × φ))
  | [], built => some built
  | i :: is, built =>
    match m.level sort i with
    | some level => m.build sort is (built ++ level)
    | none => none

/-- `location_modules`: the list, and `location_module_cache` after it. -/
def Mounts.locationModules (m : Mounts φ) (sort : ParallelSort Str φ)
    (cache : Option (List (Str × φ))) : Option (List (Str × φ) × Option (List (Str × φ))) :=
  match cache with
  | some built => some (built, cache)
  | none => (m.build sort (List.finRange 10).reverse []).map fun built => (built, some built)

/-! ## What is in the list -/

/-- The pair of a module. -/
def Mounts.mount (m : Mounts φ) (p : Instance) : Option (Str × φ) :=
  match m.findFile p, m.queryLocation p with
  | some f, some location => some (location, f)
  | _, _ => none

theorem Mounts.collect_eq (m : Mounts φ) (d : List Instance) :
    m.collect d = (d.filterMap m.mount).unzip := by
  have hrun : ∀ (d : List Instance) (level : List Str × List φ),
      d.foldl (fun level p =>
        match m.findFile p, m.queryLocation p with
        | some f, some location => (level.1 ++ [location], level.2 ++ [f])
        | _, _ => level) level =
      (level.1 ++ (d.filterMap m.mount).unzip.1, level.2 ++ (d.filterMap m.mount).unzip.2) := by
    intro d
    induction d with
    | nil => simp
    | cons p d ih =>
      intro level
      rw [List.foldl_cons, ih, List.filterMap_cons]
      unfold Mounts.mount
      cases m.findFile p <;> cases m.queryLocation p <;> simp
  exact hrun d ([], [])

/-- A priority adds the pairs of its modules, in falling order of the locations. -/
theorem Mounts.level_spec (m : Mounts φ) (sort : ParallelSort Str φ) (i : Fin 10) :
    ∃ level, m.level sort i = some level ∧
      level.Perm ((m.modules i).filterMap m.mount) ∧ Falling level := by
  have hlen : (m.collect (m.modules i)).1.length = (m.collect (m.modules i)).2.length := by
    rw [m.collect_eq]
    simp
  obtain ⟨level, hlevel, hperm, hfalling⟩ := Lib.backwards_sort sort hlen
  refine ⟨level, hlevel, ?_, hfalling⟩
  rw [m.collect_eq, List.zip_unzip] at hperm
  exact hperm

theorem Mounts.build_eq (m : Mounts φ) (sort : ParallelSort Str φ)
    (level : Fin 10 → List (Str × φ)) (hlevel : ∀ i, m.level sort i = some (level i))
    (is : List (Fin 10)) :
    ∀ built, m.build sort is built = some (built ++ is.flatMap level) := by
  induction is with
  | nil => simp [Mounts.build]
  | cons i is ih =>
    intro built
    rw [Mounts.build, hlevel]
    show m.build sort is _ = _
    rw [ih, List.flatMap_cons, List.append_assoc]

/-! ## The order in which the modules are asked -/

/-- The functions that are called, in turn. -/
def calls (events : List (Event φ)) : List φ :=
  events.filterMap fun
    | .called a _ => some a
    | _ => none

theorem calls_append (es es' : List (Event φ)) : calls (es ++ es') = calls es ++ calls es' :=
  List.filterMap_append

variable [DecidableEq φ]

theorem takeFile_calls (t : Trace φ) (a : φ) (f : Fid μ ω) :
    calls (takeFile t a f).2.events = calls t.events := by
  unfold takeFile
  cases t.cache.lookup a with
  | none => rfl
  | some e => cases f <;> simp [Trace.push, calls]

/-- `low_get_file` asks the modules of the list in turn, those whose location begins the
URL. -/
theorem locationLoop_calls (site : Site φ μ ω) (id : FileRequest) (file : Str) (slevel : Level)
    (mounts : List (Str × φ)) :
    ∀ t : Trace φ, ∃ asked,
      calls (locationLoop site id file slevel mounts t).2.events = calls t.events ++ asked ∧
      asked.Sublist ((mounts.filter fun x => x.1.isPrefixOf file).map Prod.snd) := by
  induction mounts with
  | nil => exact fun t => ⟨[], (List.append_nil _).symm, List.Sublist.refl _⟩
  | cons x mounts ih =>
    obtain ⟨loc, a⟩ := x
    intro t
    rw [locationLoop]
    by_cases hpre : loc.isPrefixOf file = true
    · have hfilter : ((loc, a) :: mounts).filter (fun x => x.1.isPrefixOf file) =
          (loc, a) :: mounts.filter fun x => x.1.isPrefixOf file := List.filter_cons_of_pos hpre
      rw [if_pos hpre, hfilter, List.map_cons]
      have hcheck : (t.check site.conf a id.toRequest slevel).2.events = t.events := rfl
      generalize t.check site.conf a id.toRequest slevel = c at hcheck
      obtain ⟨answer, t'⟩ := c
      rw [← show t'.events = t.events from hcheck]
      cases answer with
      | none => exact ⟨[], (List.append_nil _).symm, List.nil_sublist _⟩
      | some answer =>
        cases answer with
        | forbidden | proxyAuthRequired | authRequired =>
          exact ⟨[], (List.append_nil _).symm, List.nil_sublist _⟩
        | denied =>
          obtain ⟨asked, hasked, hsub⟩ := ih t'
          exact ⟨asked, hasked, hsub.cons _⟩
        | allowed =>
          have hpush : calls (t'.push (.called a t'.seclevel)).events = calls t'.events ++ [a] :=
            calls_append _ _
          dsimp only
          split
          · -- the module gives nothing, and the next one is asked
            obtain ⟨asked, hasked, hsub⟩ := ih (t'.push (.called a t'.seclevel))
            refine ⟨a :: asked, ?_, hsub.cons_cons a⟩
            rw [hasked, hpush, List.append_assoc]
            rfl
          · have hone : [a].Sublist
                (a :: (mounts.filter fun x => x.1.isPrefixOf file).map Prod.snd) :=
              (List.nil_sublist _).cons_cons a
            split
            · exact ⟨[a], hpush, hone⟩
            · refine ⟨[a], ?_, hone⟩
              rw [takeFile_calls]
              exact hpush
    · have hfilter : ((loc, a) :: mounts).filter (fun x => x.1.isPrefixOf file) =
          mounts.filter fun x => x.1.isPrefixOf file := List.filter_cons_of_neg hpre
      rw [if_neg hpre, hfilter]
      split
      · exact ⟨[], (List.append_nil _).symm, List.nil_sublist _⟩
      · exact ih t

omit [DecidableEq φ] in
/-- **In which order the mount points are asked.** The list of `location_modules` is that of
the priorities from 9 to 0. What a priority adds are the pairs of location and `find_file` of its
modules, each once; no location comes before one that extends it, so of those that begin a URL
the longest comes first; and the functions that `low_get_file` calls for a URL are called in the
order of the list. -/
theorem mount_order (m : Mounts φ) (sort : ParallelSort Str φ) :
    ∃ level : Fin 10 → List (Str × φ),
      m.locationModules sort none = some ((List.finRange 10).reverse.flatMap level,
        some ((List.finRange 10).reverse.flatMap level)) ∧
      (∀ i, (level i).Perm ((m.modules i).filterMap m.mount)) ∧
      (∀ i, (level i).Pairwise fun x y => ¬ (x.1 <+: y.1 ∧ x.1 ≠ y.1)) ∧
      (∀ i url, ((level i).filter fun x => x.1.isPrefixOf url).Pairwise
        fun x y => y.1.length ≤ x.1.length) ∧
      ∀ [DecidableEq φ] (μ ω : Type) (site : Site φ μ ω) (id : FileRequest) (url : Str)
        (slevel : Level) (t : Trace φ),
        ∃ asked, calls (locationLoop site id url slevel
            ((List.finRange 10).reverse.flatMap level) t).2.events = calls t.events ++ asked ∧
          asked.Sublist ((((List.finRange 10).reverse.flatMap level).filter
            fun x => x.1.isPrefixOf url).map Prod.snd) := by
  choose level hlevel hperm hfalling using m.level_spec sort
  refine ⟨level, ?_, hperm, fun i => (hfalling i).apart,
    fun i url => (hfalling i).longest_first url, ?_⟩
  · rw [Mounts.locationModules, m.build_eq sort level hlevel, List.nil_append]
    rfl
  · intro _ μ ω site id url slevel t
    exact locationLoop_calls site id url slevel _ t

end Caudium.BaseServer
