import Mathlib.Algebra.BigOperators.Group.List.Basic
import Mathlib.Algebra.Order.Group.Int
import Mathlib.Algebra.Ring.Int.Defs
import Mathlib.Data.List.SplitBy

/-!
# Groups that grow at the end, and runs of times

One more element begins a group of its own, or goes on with the last one (`splitBy_concat_apart`,
`splitBy_concat_same`).

A list of times falls into runs, in which no gap is longer than `idle` (`runs`). A time that comes
after all others goes on with the last run, or begins one (`length_runs_concat`), and adds its gap
to what the runs take, or nothing (`spent_concat`).
-/

namespace Lib

section Groups

variable {α : Type} {r : α → α → Bool} {xs : List α} {a x : α}

theorem splitBy_concat_apart (h : ∀ a ∈ xs.getLast?, r a x = false) :
    (xs ++ [x]).splitBy r = xs.splitBy r ++ [[x]] := by
  refine List.splitBy_append fun a ha b hb => ?_
  obtain rfl : x = b := Option.some.inj hb
  exact h a ha

theorem splitBy_concat_same (hlast : xs.getLast? = some a) (h : r a x = true) :
    ∃ before group, group ≠ [] ∧ group.getLast? = some a ∧ xs.splitBy r = before ++ [group] ∧
      (xs ++ [x]).splitBy r = before ++ [group ++ [x]] := by
  obtain ⟨hflat, hnil, hchain, hapart⟩ := List.splitBy_eq_iff.1 (show xs.splitBy r = _ from rfl)
  obtain hempty | ⟨before, group, hsplit⟩ := List.eq_nil_or_concat (xs.splitBy r)
  · rw [hempty] at hflat
    rw [hflat] at hlast
    cases hlast
  rw [List.concat_eq_append] at hsplit
  rw [hsplit] at hflat hnil hchain hapart
  have hne : group ≠ [] := fun h => hnil (by rw [h]; exact List.mem_concat_self)
  have hgroup : group.getLast? = some a := by
    rw [← hlast, hflat, List.flatten_append, List.flatten_cons, List.flatten_nil, List.append_nil,
      List.getLast?_append_of_ne_nil _ hne]
  refine ⟨before, group, hne, hgroup, hsplit, List.splitBy_eq_iff.2 ⟨?_, ?_, fun m hm => ?_, ?_⟩⟩
  · rw [hflat]
    simp
  · intro h
    obtain h | h := List.mem_append.mp h
    · exact hnil (List.mem_append_left _ h)
    · exact absurd (List.mem_singleton.mp h).symm (by simp)
  · obtain hm | hm := List.mem_append.mp hm
    · exact hchain m (List.mem_append_left _ hm)
    · rw [List.mem_singleton.mp hm]
      refine List.isChain_append.2 ⟨hchain group List.mem_concat_self, List.isChain_singleton _,
        fun y hy z hz => ?_⟩
      rw [hgroup] at hy
      cases hy
      cases hz
      exact h
  · -- the last group begins as it did
    rw [List.isChain_append] at hapart ⊢
    refine ⟨hapart.1, List.isChain_singleton _, fun y hy z hz => ?_⟩
    cases hz
    obtain ⟨hy₁, hgroup₁, hfar⟩ := hapart.2.2 y hy group rfl
    refine ⟨hy₁, by simp, ?_⟩
    rw [List.head_append_of_ne_nil hgroup₁]
    exact hfar

end Groups

/-- The longest runs of times without a gap that is longer than `idle`. -/
def runs (idle : Int) (ts : List Int) : List (List Int) :=
  ts.splitBy fun a b => decide (b - a ≤ idle)

/-- The time from the first to the last. -/
def duration (run : List Int) : Int := run.getLastD 0 - run.headD 0

/-- What the runs take together. -/
def spent (idle : Int) (ts : List Int) : Int := ((runs idle ts).map duration).sum

variable {idle t a : Int} {ts : List Int}

theorem runs_concat_far (hfar : ∀ a ∈ ts.getLast?, idle < t - a) :
    runs idle (ts ++ [t]) = runs idle ts ++ [[t]] :=
  splitBy_concat_apart fun a ha => decide_eq_false (Int.not_le.mpr (hfar a ha))

theorem runs_concat_near (hlast : ts.getLast? = some a) (hnear : t - a ≤ idle) :
    ∃ before run, run ≠ [] ∧ run.getLast? = some a ∧ runs idle ts = before ++ [run] ∧
      runs idle (ts ++ [t]) = before ++ [run ++ [t]] :=
  splitBy_concat_same hlast (decide_eq_true hnear)

/-- The number of runs grows by one, if the time does not go on with the last one. -/
theorem length_runs_concat (idle t : Int) (ts : List Int) :
    (runs idle (ts ++ [t])).length =
      (runs idle ts).length + if ∃ a ∈ ts.getLast?, t - a ≤ idle then 0 else 1 := by
  by_cases h : ∃ a ∈ ts.getLast?, t - a ≤ idle
  · rw [if_pos h]
    obtain ⟨a, hlast, hnear⟩ := h
    obtain ⟨before, run, -, -, hruns, hconcat⟩ := runs_concat_near hlast hnear
    rw [hruns, hconcat, List.length_append, List.length_append]
    rfl
  · rw [if_neg h, runs_concat_far fun a ha => Int.not_le.mp fun hnear => h ⟨a, ha, hnear⟩,
      List.length_append]
    rfl

theorem duration_concat {run : List Int} (hne : run ≠ []) (hlast : run.getLast? = some a) :
    duration (run ++ [t]) = duration run + (t - a) := by
  obtain ⟨x, rest, rfl⟩ := List.exists_cons_of_ne_nil hne
  have hend : (x :: rest).getLastD 0 = a := by
    rw [List.getLastD_eq_getLast?, hlast]
    rfl
  unfold duration
  rw [hend, List.getLastD_concat]
  show t - x = a - x + (t - a)
  omega

/-- What the runs take grows by the gap, if the time goes on with the last one. -/
theorem spent_concat (idle t : Int) (ts : List Int) : spent idle (ts ++ [t]) =
    spent idle ts + ts.getLast?.elim 0 fun a => if t - a ≤ idle then t - a else 0 := by
  have hone : duration [t] = 0 := Int.sub_self t
  unfold spent
  cases hlast : ts.getLast? with
  | none =>
    have hfar : ∀ a ∈ ts.getLast?, idle < t - a := fun a ha => by
      rw [hlast] at ha
      cases ha
    rw [runs_concat_far hfar, List.map_append, List.sum_append, List.map_singleton,
      List.sum_singleton, hone]
    rfl
  | some a =>
    rw [Option.elim_some]
    by_cases hnear : t - a ≤ idle
    · obtain ⟨before, run, hne, hrun, hruns, hconcat⟩ := runs_concat_near hlast hnear
      rw [if_pos hnear, hruns, hconcat, List.map_append, List.map_append, List.sum_append,
        List.sum_append, List.map_singleton, List.map_singleton, List.sum_singleton,
        List.sum_singleton, duration_concat hne hrun, Int.add_assoc]
    · have hfar : ∀ a ∈ ts.getLast?, idle < t - a := fun b hb => by
        rw [hlast] at hb
        cases hb
        exact Int.not_le.mp hnear
      rw [if_neg hnear, runs_concat_far hfar, List.map_append, List.sum_append,
        List.map_singleton, List.sum_singleton, hone]

end Lib
