import Mathlib.Data.List.Basic

/-!
# Unfolding under a budget

A list of items is worked off from the left over a state. An item changes the state, or ends
the whole with an error, or is opened: other items take its place. `Unfolds` is what comes of a
list, with the number of items that were opened; nothing comes of one that is opened without
end. `Within` relates to it a run that opens no more than `limit` items in all and gives up with
`full` instead: what it has worked off is the first part of the unfolding, and it gives up only
if the rest needs more than there is (`Within.eq_of_le`, `Within.full_of_lt`). There is a rule
for each thing an item can do, so that a program that calls itself for the items of an opened one
is followed step by step.
-/

namespace Lib

/-- What an item does. -/
inductive Reaction (β σ ε : Type)
  | put (f : σ → σ)
  | stops (e : ε)
  | opens (r : Except ε (List β))

variable {β σ ε : Type} (react : β → Reaction β σ ε)

/-- `bs` over the state `s` comes to `e`, with `n` items opened. -/
inductive Unfolds : List β → σ → Nat → Except ε σ → Prop
  | done (s : σ) : Unfolds [] s 0 (.ok s)
  | put {b : β} {f : σ → σ} {bs : List β} {s : σ} {n : Nat} {e : Except ε σ}
    (h : react b = .put f) (ht : Unfolds bs (f s) n e) : Unfolds (b :: bs) s n e
  | stops {b : β} {bs : List β} {s : σ} {e : ε} (h : react b = .stops e) :
    Unfolds (b :: bs) s 0 (.error e)
  | broken {b : β} {bs : List β} {s : σ} {e : ε} (h : react b = .opens (.error e)) :
    Unfolds (b :: bs) s 1 (.error e)
  | opens {b : β} {xs bs : List β} {s : σ} {n : Nat} {e : Except ε σ}
    (h : react b = .opens (.ok xs)) (ht : Unfolds (xs ++ bs) s n e) : Unfolds (b :: bs) s (n + 1) e

variable {react} {b : β} {bs xs : List β} {s : σ} {n : Nat} {r : Except ε σ} {e : ε}

theorem unfolds_nil : Unfolds react [] s n r ↔ n = 0 ∧ r = .ok s := by
  constructor
  · intro h
    cases h
    exact ⟨rfl, rfl⟩
  · intro h
    obtain ⟨rfl, rfl⟩ := h
    exact .done s

theorem unfolds_put {f : σ → σ} (h : react b = .put f) :
    Unfolds react (b :: bs) s n r ↔ Unfolds react bs (f s) n r := by
  constructor
  · intro hu
    cases hu with
    | put h' ht =>
      obtain rfl := Reaction.put.inj (h.symm.trans h')
      exact ht
    | stops h' => cases h.symm.trans h'
    | broken h' => cases h.symm.trans h'
    | opens h' ht => cases h.symm.trans h'
  · exact .put h

theorem unfolds_stops (h : react b = .stops e) :
    Unfolds react (b :: bs) s n r ↔ n = 0 ∧ r = .error e := by
  constructor
  · intro hu
    cases hu with
    | put h' ht => cases h.symm.trans h'
    | stops h' =>
      obtain rfl := Reaction.stops.inj (h.symm.trans h')
      exact ⟨rfl, rfl⟩
    | broken h' => cases h.symm.trans h'
    | opens h' ht => cases h.symm.trans h'
  · intro hand
    obtain ⟨rfl, rfl⟩ := hand
    exact .stops h

theorem unfolds_broken (h : react b = .opens (.error e)) :
    Unfolds react (b :: bs) s n r ↔ n = 1 ∧ r = .error e := by
  constructor
  · intro hu
    cases hu with
    | put h' ht => cases h.symm.trans h'
    | stops h' => cases h.symm.trans h'
    | broken h' =>
      obtain rfl := Except.error.inj (Reaction.opens.inj (h.symm.trans h'))
      exact ⟨rfl, rfl⟩
    | opens h' ht => cases h.symm.trans h'
  · intro hand
    obtain ⟨rfl, rfl⟩ := hand
    exact .broken h

theorem unfolds_opens (h : react b = .opens (.ok xs)) :
    Unfolds react (b :: bs) s n r ↔ ∃ m, n = m + 1 ∧ Unfolds react (xs ++ bs) s m r := by
  constructor
  · intro hu
    cases hu with
    | put h' ht => cases h.symm.trans h'
    | stops h' => cases h.symm.trans h'
    | broken h' => cases h.symm.trans h'
    | opens h' ht =>
      obtain rfl := Except.ok.inj (Reaction.opens.inj (h.symm.trans h'))
      exact ⟨_, rfl, ht⟩
  · intro hand
    obtain ⟨m, rfl, ht⟩ := hand
    exact .opens h ht

/-- A list comes to one thing only. -/
theorem Unfolds.unique {n' : Nat} {r' : Except ε σ} (h : Unfolds react bs s n r)
    (h' : Unfolds react bs s n' r') : n = n' ∧ r = r' := by
  induction h generalizing n' r' with
  | done s =>
    obtain ⟨rfl, rfl⟩ := unfolds_nil.1 h'
    exact ⟨rfl, rfl⟩
  | put hput ht ih => exact ih ((unfolds_put hput).mp h')
  | stops hstops =>
    obtain ⟨rfl, rfl⟩ := (unfolds_stops hstops).mp h'
    exact ⟨rfl, rfl⟩
  | broken hbroken =>
    obtain ⟨rfl, rfl⟩ := (unfolds_broken hbroken).mp h'
    exact ⟨rfl, rfl⟩
  | opens hopens ht ih =>
    obtain ⟨m, rfl, ht'⟩ := (unfolds_opens hopens).mp h'
    obtain ⟨rfl, rfl⟩ := ih ht'
    exact ⟨rfl, rfl⟩

/-- The error a list comes to is the error of an item. -/
theorem Unfolds.error_of_item (h : Unfolds react bs s n (.error e)) :
    ∃ b, react b = .stops e ∨ react b = .opens (.error e) := by
  generalize hr : Except.error e = r at h
  induction h with
  | done s => cases hr
  | put _ _ ih => exact ih hr
  | @stops b _ _ _ hstops =>
    cases hr
    exact ⟨b, Or.inl hstops⟩
  | @broken b _ _ _ hbroken =>
    cases hr
    exact ⟨b, Or.inr hbroken⟩
  | opens _ _ ih => exact ih hr

/-! ## A run with a budget -/

variable (react) (limit : Nat) (full : ε)

/-- A run that had opened `c` items before `bs` and has opened `c'` when it comes to `r`: what it
did is the beginning of the unfolding, whatever follows `bs`. -/
inductive Within (c : Nat) (bs : List β) (s : σ) (c' : Nat) : Except ε σ → Prop
  | done {s' : σ} (hle : c ≤ c') (hmax : c' ≤ limit)
    (h : ∀ rest n r, Unfolds react (bs ++ rest) s n r ↔
      ∃ m, c + n = c' + m ∧ Unfolds react rest s' m r) : Within c bs s c' (.ok s')
  | stopped {e : ε} (hle : c ≤ c') (hmax : c' ≤ limit)
    (h : ∀ rest n r, Unfolds react (bs ++ rest) s n r ↔ c + n = c' ∧ r = .error e) :
    Within c bs s c' (.error e)
  | full (hle : c ≤ c') (hmax : c' ≤ limit)
    (h : ∀ rest n r, Unfolds react (bs ++ rest) s n r → limit < c + n) :
    Within c bs s c' (.error full)

variable {react limit full} {c c' c₁ : Nat} {s₁ : σ}

theorem Within.le (h : Within react limit full c bs s c' r) : c ≤ c' ∧ c' ≤ limit := by
  cases h with
  | done hle hmax _ => exact ⟨hle, hmax⟩
  | stopped hle hmax _ => exact ⟨hle, hmax⟩
  | full hle hmax _ => exact ⟨hle, hmax⟩

theorem within_nil (hc : c ≤ limit) : Within react limit full c [] s c (.ok s) := by
  refine .done (Nat.le_refl c) hc fun rest n r => ?_
  rw [List.nil_append]
  constructor
  · exact fun h => ⟨n, rfl, h⟩
  · intro hand
    obtain ⟨m, hm, h⟩ := hand
    obtain rfl : n = m := Nat.add_left_cancel hm
    exact h

/-- An item in front of a run that changes neither the unfolding nor the count. -/
theorem within_of_iff {bs' : List β} {s' : σ} (h : Within react limit full c bs' s' c' r)
    (hiff : ∀ rest n r, Unfolds react (bs ++ rest) s n r ↔ Unfolds react (bs' ++ rest) s' n r) :
    Within react limit full c bs s c' r := by
  cases h with
  | done hle hmax h => exact .done hle hmax fun rest n r => (hiff rest n r).trans (h rest n r)
  | stopped hle hmax h =>
    exact .stopped hle hmax fun rest n r => (hiff rest n r).trans (h rest n r)
  | full hle hmax h => exact .full hle hmax fun rest n r hu => h rest n r ((hiff rest n r).mp hu)

theorem within_put {f : σ → σ} (hb : react b = .put f)
    (h : Within react limit full c bs (f s) c' r) : Within react limit full c (b :: bs) s c' r :=
  within_of_iff h fun _ _ _ => unfolds_put hb

theorem within_stops (hb : react b = .stops e) (hc : c ≤ limit) :
    Within react limit full c (b :: bs) s c (.error e) := by
  refine .stopped (Nat.le_refl c) hc fun rest n r => (unfolds_stops hb).trans ?_
  rw [Nat.add_eq_left]

theorem within_broken (hb : react b = .opens (.error e)) (hc : c < limit) :
    Within react limit full c (b :: bs) s (c + 1) (.error e) := by
  refine .stopped (Nat.le_succ c) hc fun rest n r => (unfolds_broken hb).trans ?_
  rw [Nat.add_left_cancel_iff]

/-- With the budget used up, no item is opened. -/
theorem within_refused {x : Except ε (List β)} (hb : react b = .opens x) (hc : c = limit) :
    Within react limit full c (b :: bs) s c (.error full) := by
  refine .full (Nat.le_refl c) (Nat.le_of_eq hc) fun rest n r hu => ?_
  cases x with
  | error e =>
    obtain ⟨rfl, -⟩ := (unfolds_broken hb).mp hu
    omega
  | ok xs =>
    obtain ⟨m, rfl, -⟩ := (unfolds_opens hb).mp hu
    omega

/-- Two runs, one after the other. -/
theorem Within.append {bs' : List β} (h : Within react limit full c bs s c₁ (.ok s₁))
    (h' : Within react limit full c₁ bs' s₁ c' r) :
    Within react limit full c (bs ++ bs') s c' r := by
  cases h with
  | done hle hmax h =>
    cases h' with
    | @done s' hle' hmax' h' =>
      refine .done (Nat.le_trans hle hle') hmax' fun rest n r => ?_
      rw [List.append_assoc, h]
      constructor
      · intro hand
        obtain ⟨m, hm, hu⟩ := hand
        obtain ⟨k, hk, hu'⟩ := (h' rest m r).mp hu
        exact ⟨k, by omega, hu'⟩
      · intro hand
        obtain ⟨k, hk, hu⟩ := hand
        exact ⟨c' - c₁ + k, by omega, (h' rest _ r).mpr ⟨k, by omega, hu⟩⟩
    | stopped hle' hmax' h' =>
      refine .stopped (Nat.le_trans hle hle') hmax' fun rest n r => ?_
      rw [List.append_assoc, h]
      constructor
      · intro hand
        obtain ⟨m, hm, hu⟩ := hand
        obtain ⟨hk, hr⟩ := (h' rest m r).mp hu
        exact ⟨by omega, hr⟩
      · intro hand
        obtain ⟨hn, hr⟩ := hand
        exact ⟨c' - c₁, by omega, (h' rest _ r).mpr ⟨by omega, hr⟩⟩
    | full hle' hmax' h' =>
      refine .full (Nat.le_trans hle hle') hmax' fun rest n r hu => ?_
      rw [List.append_assoc] at hu
      obtain ⟨m, hm, hu'⟩ := (h _ n r).mp hu
      have hlt := h' rest m r hu'
      omega

/-- A run that does not come to the end of its items does not come to those behind them. -/
theorem Within.append_error {bs' : List β} (h : Within react limit full c bs s c' (.error e)) :
    Within react limit full c (bs ++ bs') s c' (.error e) := by
  cases h with
  | stopped hle hmax h =>
    refine .stopped hle hmax fun rest n r => ?_
    rw [List.append_assoc]
    exact h (bs' ++ rest) n r
  | full hle hmax h =>
    refine .full hle hmax fun rest n r hu => h (bs' ++ rest) n r ?_
    rwa [List.append_assoc] at hu

/-- An item is opened and counted; `h` is the run over what takes its place and what follows. -/
theorem within_opens (hb : react b = .opens (.ok xs))
    (h : Within react limit full (c + 1) (xs ++ bs) s c' r) :
    Within react limit full c (b :: bs) s c' r := by
  have hcount : ∀ rest n r, Unfolds react (b :: bs ++ rest) s n r ↔
      ∃ m, n = m + 1 ∧ Unfolds react (xs ++ bs ++ rest) s m r := by
    intro rest n r
    rw [List.append_assoc]
    exact unfolds_opens hb
  cases h with
  | done hle hmax h =>
    refine .done (by omega) hmax fun rest n r => (hcount rest n r).trans ?_
    constructor
    · intro hand
      obtain ⟨m, rfl, hu⟩ := hand
      obtain ⟨k, hk, hu'⟩ := (h rest m r).mp hu
      exact ⟨k, by omega, hu'⟩
    · intro hand
      obtain ⟨k, hk, hu⟩ := hand
      exact ⟨n - 1, by omega, (h rest _ r).mpr ⟨k, by omega, hu⟩⟩
  | stopped hle hmax h =>
    refine .stopped (by omega) hmax fun rest n r => (hcount rest n r).trans ?_
    constructor
    · intro hand
      obtain ⟨m, rfl, hu⟩ := hand
      obtain ⟨hm, hr⟩ := (h rest m r).mp hu
      exact ⟨by omega, hr⟩
    · intro hand
      obtain ⟨hn, hr⟩ := hand
      exact ⟨n - 1, by omega, (h rest _ r).mpr ⟨by omega, hr⟩⟩
  | full hle hmax h =>
    refine .full (by omega) hmax fun rest n r hu => ?_
    obtain ⟨m, rfl, hu'⟩ := (hcount rest n r).mp hu
    have hlt := h rest m r hu'
    omega

/-- Where the budget is enough, the run comes to what the list comes to. -/
theorem Within.eq_of_le {r' : Except ε σ} (h : Within react limit full c bs s c' r)
    (hu : Unfolds react bs s n r') (hn : c + n ≤ limit) : r = r' := by
  rw [← List.append_nil bs] at hu
  cases h with
  | done _ _ h =>
    obtain ⟨m, -, hm⟩ := (h [] n r').mp hu
    exact (unfolds_nil.1 hm).2.symm
  | stopped _ _ h => exact ((h [] n r').mp hu).2.symm
  | full _ _ h => exact absurd (h [] n r' hu) (Nat.not_lt.mpr hn)

/-- Where it is not, or would never be, the run gives up. -/
theorem Within.full_of_lt (h : Within react limit full c bs s c' r)
    (hall : ∀ n r', Unfolds react bs s n r' → limit < c + n) : r = .error full := by
  cases h with
  | done hle hmax h =>
    have hu := (h [] (c' - c) _).mpr ⟨0, by omega, .done _⟩
    rw [List.append_nil] at hu
    have hlt := hall _ _ hu
    omega
  | stopped hle hmax h =>
    have hu := (h [] (c' - c) _).mpr ⟨by omega, rfl⟩
    rw [List.append_nil] at hu
    have hlt := hall _ _ hu
    omega
  | full _ _ _ => rfl

end Lib
