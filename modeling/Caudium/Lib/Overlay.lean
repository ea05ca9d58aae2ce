import Mathlib.Logic.Function.Basic

/-!
# Overlays of plain maps

A plain map is a function `κ → Option ν`. `overlay top base` reads `top` first
and `base` where `top` has nothing: what a fast store in front of a slow one
answers. The lemmas say which changes of the two layers are changes of the
overlay: a write to the top is a write; copying an entry of the top down changes
nothing (`overlay_sync`); a removal made in both layers is a removal; and a
removal made in the base alone is one exactly when the top has none of the
removed keys (`overlay_removeWhere_base_iff`).
-/

namespace Lib

variable {κ ν : Type}

/-- A map as the function that reads it. -/
abbrev Plain (κ ν : Type) := κ → Option ν

/-- Remove every key the predicate accepts. -/
def Plain.removeWhere (m : Plain κ ν) (p : κ → Bool) : Plain κ ν :=
  fun k => if p k then none else m k

/-- `top` where it has an entry, `base` elsewhere. -/
def overlay (top base : Plain κ ν) : Plain κ ν := fun k => (top k).or (base k)

theorem overlay_removeWhere (top base : Plain κ ν) (p : κ → Bool) :
    overlay (top.removeWhere p) (base.removeWhere p) = (overlay top base).removeWhere p := by
  funext k
  unfold overlay Plain.removeWhere
  split <;> rfl

/-- A removal from the base alone shows exactly when the top has none of the keys. -/
theorem overlay_removeWhere_base_iff (top base : Plain κ ν) (p : κ → Bool) :
    overlay top (base.removeWhere p) = (overlay top base).removeWhere p ↔
      ∀ k, p k = true → top k = none := by
  constructor
  · intro h k hk
    have hread := congrFun h k
    unfold overlay Plain.removeWhere at hread
    simpa [hk] using hread
  · intro h
    funext k
    unfold overlay Plain.removeWhere
    by_cases hk : p k = true
    · simp [hk, h k hk]
    · simp [hk]

variable [DecidableEq κ]

theorem overlay_update_top (top base : Plain κ ν) (k : κ) (v : ν) :
    overlay (Function.update top k (some v)) base
      = Function.update (overlay top base) k (some v) := by
  funext k'
  by_cases hk : k' = k
  · subst hk
    simp [overlay]
  · simp [overlay, hk]

/-- Copying an entry of the top down changes nothing. -/
theorem overlay_sync {top : Plain κ ν} {k : κ} {v : ν} (base : Plain κ ν) (h : top k = some v) :
    overlay top (Function.update base k (some v)) = overlay top base := by
  funext k'
  by_cases hk : k' = k
  · subst hk
    simp [overlay, h]
  · simp [overlay, hk]

end Lib
