import Mathlib.Order.Basic

/-!
# Bisection

A search in an interval that asks in the middle, and goes on above what is `below` and below
what is `above`. Asking may change a state (a cache), as long as the answers do not depend on it.

What is found is what was asked for (`bisect_here`). That it is found when it is there needs
`InOrder`: whatever stands before something that is not `above` is `below` (`bisect_iff`).
-/

namespace Lib

/-- Where the place that is asked about lies. -/
inductive Side
  | below
  | here
  | above
  deriving DecidableEq

variable {σ : Type}

/-- The places from `lo` on, up to `hi` without it. -/
def bisect (ask : Nat → σ → Side × σ) (lo hi : Nat) (s : σ) : Option Nat × σ :=
  if lo < hi then
    match ask ((lo + hi - 1) / 2) s with
    | (.here, s) => (some ((lo + hi - 1) / 2), s)
    | (.below, s) => bisect ask ((lo + hi - 1) / 2 + 1) hi s
    | (.above, s) => bisect ask lo ((lo + hi - 1) / 2) s
  else (none, s)
  termination_by hi - lo
  decreasing_by all_goals omega

/-- The places stand in order: what is before something that is there is below. -/
def InOrder (side : Nat → Side) (lo hi : Nat) : Prop :=
  ∀ i j, lo ≤ i → i < j → j < hi → side j ≠ .above → side i = .below

/-- The answers do not depend on the state, as long as it is one of those that `I` admits. -/
def Answers (ask : Nat → σ → Side × σ) (I : σ → Prop) (side : Nat → Side) : Prop :=
  ∀ i s, I s → (ask i s).1 = side i ∧ I (ask i s).2

variable {ask : Nat → σ → Side × σ} {I : σ → Prop} {side : Nat → Side}

/-- One turn, by the answer. -/
theorem bisect_turn (ha : Answers ask I side) {lo hi : Nat} {s : σ} (hs : I s) (h : lo < hi) :
    ∃ s', I s' ∧ bisect ask lo hi s =
      match side ((lo + hi - 1) / 2) with
      | .here => (some ((lo + hi - 1) / 2), s')
      | .below => bisect ask ((lo + hi - 1) / 2 + 1) hi s'
      | .above => bisect ask lo ((lo + hi - 1) / 2) s' := by
  obtain ⟨hside, hinv⟩ := ha ((lo + hi - 1) / 2) s hs
  refine ⟨(ask ((lo + hi - 1) / 2) s).2, hinv, ?_⟩
  rw [bisect, if_pos h, ← hside]
  obtain ⟨answer, s'⟩ := ask ((lo + hi - 1) / 2) s
  cases answer <;> rfl

/-- What is found lies in the interval and is what was asked for. -/
theorem bisect_here (ha : Answers ask I side) (lo hi : Nat) : ∀ s, I s →
    I (bisect ask lo hi s).2 ∧
      ∀ k, (bisect ask lo hi s).1 = some k → lo ≤ k ∧ k < hi ∧ side k = .here := by
  induction hn : hi - lo using Nat.strongRecOn generalizing lo hi with
  | ind n ih =>
    intro s hs
    subst hn
    by_cases h : lo < hi
    · obtain ⟨s', hs', hturn⟩ := bisect_turn ha hs h
      rw [hturn]
      cases hside : side ((lo + hi - 1) / 2) with
      | here =>
        refine ⟨hs', fun k hk => ?_⟩
        obtain rfl := Option.some.inj hk
        exact ⟨by omega, by omega, hside⟩
      | below =>
        obtain ⟨hinv, hfound⟩ := ih _ (by omega) ((lo + hi - 1) / 2 + 1) hi rfl s' hs'
        refine ⟨hinv, fun k hk => ?_⟩
        obtain ⟨hlo, hhi, hk⟩ := hfound k hk
        exact ⟨by omega, hhi, hk⟩
      | above =>
        obtain ⟨hinv, hfound⟩ := ih _ (by omega) lo ((lo + hi - 1) / 2) rfl s' hs'
        refine ⟨hinv, fun k hk => ?_⟩
        obtain ⟨hlo, hhi, hk⟩ := hfound k hk
        exact ⟨hlo, by omega, hk⟩
    · rw [bisect, if_neg h]
      exact ⟨hs, fun k hk => by cases hk⟩

/-- Where the places stand in order, what is there is found. -/
theorem bisect_finds (ha : Answers ask I side) {k : Nat} (hk : side k = .here) (lo hi : Nat) :
    InOrder side lo hi → lo ≤ k → k < hi → ∀ s, I s → (bisect ask lo hi s).1 = some k := by
  induction hn : hi - lo using Nat.strongRecOn generalizing lo hi with
  | ind n ih =>
    intro horder hlo hhi s hs
    subst hn
    have h : lo < hi := Nat.lt_of_le_of_lt hlo hhi
    obtain ⟨s', hs', hturn⟩ := bisect_turn ha hs h
    rw [hturn]
    have hne : side k ≠ .above := by
      rw [hk]
      intro he
      cases he
    obtain hlt | rfl | hgt := Nat.lt_trichotomy k ((lo + hi - 1) / 2)
    · -- what is behind the place that is there is above
      have habove : side ((lo + hi - 1) / 2) = .above := by
        by_contra hn
        have hbelow := horder k _ hlo hlt (by omega) hn
        rw [hk] at hbelow
        cases hbelow
      rw [habove]
      refine ih _ (by omega) lo _ rfl (fun i j hi' hij hj => ?_) hlo hlt s' hs'
      exact horder i j hi' hij (by omega)
    · rw [hk]
    · have hbelow : side ((lo + hi - 1) / 2) = .below :=
        horder _ k (by omega) hgt hhi hne
      rw [hbelow]
      refine ih _ (by omega) _ hi rfl (fun i j hi' hij hj => ?_) hgt hhi s' hs'
      exact horder i j (by omega) hij hj

theorem bisect_iff (ha : Answers ask I side) {lo hi : Nat} (horder : InOrder side lo hi) {s : σ}
    (hs : I s) (k : Nat) :
    (bisect ask lo hi s).1 = some k ↔ lo ≤ k ∧ k < hi ∧ side k = .here := by
  constructor
  · exact (bisect_here ha lo hi s hs).2 k
  · intro h
    obtain ⟨hlo, hhi, hk⟩ := h
    exact bisect_finds ha hk lo hi horder hlo hhi s hs

end Lib
