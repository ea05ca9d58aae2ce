import Mathlib.Order.Basic
import Mathlib.Logic.Function.Iterate

/-!
# While loops

`whileLoop live step n s` runs `step` while `live` holds, at most `n` times. For
a loop whose measure `μ` falls at every turn it does not matter how large `n` is
as long as it is at least `μ s` (`whileLoop_enough`), so the loop itself is
`runLoop`, the run with exactly that much. The rules are the ones of a `while`:
`runLoop_live` unrolls one turn, `runLoop_stop` stops, `runLoop_done` says that
it has stopped, and `runLoop_inv` is the invariant rule. `Visits` are the states a
loop goes through, with an invariant rule of their own (`visits_inv`). A loop that tests behind
its body and may run forever is `doWhile`: it ends after the first turn after which the test
fails (`doWhile_iff`).
-/

namespace Lib

variable {σ : Type} (live : σ → Bool) (step : σ → σ)

/-- At most `n` turns. -/
def whileLoop : Nat → σ → σ
  | 0, s => s
  | n + 1, s => if live s then whileLoop n (step s) else s

/-- The measure is positive while the loop runs, and falls at each turn after
which it still runs. -/
structure Falls (μ : σ → Nat) : Prop where
  pos : ∀ s, live s = true → 0 < μ s
  fall : ∀ s, live s = true → live (step s) = true → μ (step s) < μ s

/-- The loop, with as many turns as its measure allows. -/
def runLoop (μ : σ → Nat) (s : σ) : σ := whileLoop live step (μ s) s

variable {live step} {μ : σ → Nat}

theorem whileLoop_stop {s : σ} (h : live s = false) (n : Nat) : whileLoop live step n s = s := by
  cases n with
  | zero => rfl
  | succ n => rw [whileLoop, h]; rfl

theorem whileLoop_live {s : σ} (h : live s = true) (n : Nat) :
    whileLoop live step (n + 1) s = whileLoop live step n (step s) := by
  rw [whileLoop, if_pos h]

/-- More turns than the measure change nothing. -/
theorem whileLoop_enough (hμ : Falls live step μ) :
    ∀ n s, μ s ≤ n → whileLoop live step n s = runLoop live step μ s := by
  intro n
  induction n using Nat.strongRecOn with
  | ind n ih =>
    intro s hn
    cases hs : live s with
    | false => rw [runLoop, whileLoop_stop hs, whileLoop_stop hs]
    | true =>
      have hpos := hμ.pos s hs
      obtain ⟨k, hk⟩ : ∃ k, μ s = k + 1 := ⟨μ s - 1, by omega⟩
      obtain ⟨m, rfl⟩ : ∃ m, n = m + 1 := ⟨n - 1, by omega⟩
      rw [runLoop, hk, whileLoop_live hs, whileLoop_live hs]
      cases hs' : live (step s) with
      | false => rw [whileLoop_stop hs', whileLoop_stop hs']
      | true =>
        have hfall := hμ.fall s hs hs'
        rw [ih m (by omega) (step s) (by omega), ih k (by omega) (step s) (by omega)]

theorem runLoop_live (hμ : Falls live step μ) {s : σ} (h : live s = true) :
    runLoop live step μ s = runLoop live step μ (step s) := by
  have hpos := hμ.pos s h
  obtain ⟨k, hk⟩ : ∃ k, μ s = k + 1 := ⟨μ s - 1, by omega⟩
  rw [runLoop, hk, whileLoop_live h]
  cases hs' : live (step s) with
  | false => rw [runLoop, whileLoop_stop hs', whileLoop_stop hs']
  | true =>
    have hfall := hμ.fall s h hs'
    exact whileLoop_enough hμ k (step s) (by omega)

theorem runLoop_stop {s : σ} (h : live s = false) : runLoop live step μ s = s :=
  whileLoop_stop h (μ s)

/-- What every turn keeps, the loop keeps. -/
theorem runLoop_inv {P : σ → Prop} (hstep : ∀ s, live s = true → P s → P (step s)) {s : σ}
    (h : P s) : P (runLoop live step μ s) := by
  have hall : ∀ n s, P s → P (whileLoop live step n s) := by
    intro n
    induction n with
    | zero => exact fun s h => h
    | succ n ih =>
      intro s h
      cases hs : live s with
      | false => rw [whileLoop_stop hs]; exact h
      | true => rw [whileLoop_live hs]; exact ih _ (hstep s hs h)
  exact hall (μ s) s h

/-- The loop has stopped. -/
theorem runLoop_done (hμ : Falls live step μ) (s : σ) :
    live (runLoop live step μ s) = false := by
  have hall : ∀ n s, μ s ≤ n → live (runLoop live step μ s) = false := by
    intro n
    induction n with
    | zero =>
      intro s hn
      cases hs : live s with
      | false => rw [runLoop_stop hs]; exact hs
      | true => exact absurd (hμ.pos s hs) (by omega)
    | succ n ih =>
      intro s hn
      cases hs : live s with
      | false => rw [runLoop_stop hs]; exact hs
      | true =>
        rw [runLoop_live hμ hs]
        cases hs' : live (step s) with
        | false => rw [runLoop_stop hs']; exact hs'
        | true =>
          have hfall := hμ.fall s hs hs'
          exact ih (step s) (by omega)
  exact hall (μ s) s (Nat.le_refl _)

/-! ## The states on the way -/

variable (live step) in
/-- The loop that is in the state `s` comes to the state `t`. -/
inductive Visits : σ → σ → Prop
  | here (s : σ) : Visits s s
  | later {s t : σ} (h : live s = true) (ht : Visits (step s) t) : Visits s t

theorem visits_live {s t : σ} (h : live s = true) :
    Visits live step s t ↔ t = s ∨ Visits live step (step s) t := by
  constructor
  · intro hor
    obtain ⟨⟩ | ⟨-, ht⟩ := hor
    · exact Or.inl rfl
    · exact Or.inr ht
  · intro hor
    obtain rfl | ht := hor
    · exact .here t
    · exact .later h ht

theorem visits_stop {s t : σ} (h : live s = false) : Visits live step s t ↔ t = s := by
  constructor
  · intro hor
    obtain ⟨⟩ | ⟨hlive, -⟩ := hor
    · rfl
    · rw [h] at hlive
      cases hlive
  · intro heq
    subst heq
    exact .here t

theorem Visits.trans {s t u : σ} (h : Visits live step s t) (h' : Visits live step t u) :
    Visits live step s u := by
  induction h with
  | here s => exact h'
  | later hlive _ ih => exact .later hlive (ih h')

section Map

variable {τ : Type} {live' : τ → Bool} {step' : τ → τ} (f : σ → τ)

/-- A loop that shows, through `f`, the turns of another visits what shows its states. -/
theorem Visits.map (hlive : ∀ s, live s = live' (f s))
    (hstep : ∀ s, live s = true → f (step s) = step' (f s)) {s t : σ} (h : Visits live step s t) :
    Visits live' step' (f s) (f t) := by
  induction h with
  | here s => exact .here (f s)
  | later hl _ ih =>
    rw [hstep _ hl] at ih
    rw [hlive] at hl
    exact .later hl ih

/-- And it visits a state for each that is shown. -/
theorem Visits.lift (hlive : ∀ s, live s = live' (f s))
    (hstep : ∀ s, live s = true → f (step s) = step' (f s)) {s : σ} {t' : τ}
    (h : Visits live' step' (f s) t') : ∃ t, f t = t' ∧ Visits live step s t := by
  generalize hs : f s = s' at h
  induction h generalizing s with
  | here => exact ⟨s, hs, .here s⟩
  | later hl _ ih =>
    subst hs
    rw [← hlive] at hl
    obtain ⟨t, ht, hvisits⟩ := ih (hstep s hl)
    exact ⟨t, ht, .later hl hvisits⟩

end Map

/-- The loop visits the state it ends in. -/
theorem visits_runLoop (s : σ) : Visits live step s (runLoop live step μ s) := by
  have hall : ∀ n s, Visits live step s (whileLoop live step n s) := by
    intro n
    induction n with
    | zero => exact fun s => .here s
    | succ n ih =>
      intro s
      cases hs : live s with
      | false => rw [whileLoop_stop hs]; exact .here s
      | true => rw [whileLoop_live hs]; exact .later hs (ih _)
  exact hall (μ s) s

/-- It ends as it does from any state it visits. -/
theorem runLoop_visits (hμ : Falls live step μ) {s t : σ} (h : Visits live step s t) :
    runLoop live step μ s = runLoop live step μ t := by
  induction h with
  | here s => rfl
  | later hlive _ ih => rw [runLoop_live hμ hlive, ih]

/-- What every turn keeps holds all the way. -/
theorem visits_inv {P : σ → Prop} (hstep : ∀ s, live s = true → P s → P (step s)) {s t : σ}
    (hvisits : Visits live step s t) (h : P s) : P t := by
  induction hvisits with
  | here s => exact h
  | later hlive _ ih => exact ih (hstep _ hlive h)

/-- The same, with each turn at a state that the loop comes to. -/
theorem visits_inv_of_visits {P : σ → Prop} {s t : σ}
    (hstep : ∀ u, Visits live step s u → live u = true → P u → P (step u))
    (hvisits : Visits live step s t) (h : P s) : P t := by
  induction hvisits with
  | here s => exact h
  | later hlive _ ih =>
    refine ih (fun u hu => hstep u (.later hlive hu)) ?_
    exact hstep _ (.here _) hlive h

/-! ## Loops that test behind their body -/

section DoWhile

variable (live step) in
/-- `do s = step s; while (live s);`, in at most `n` turns: the state it ends in; `none` if it is
still running then. -/
def doWhile : Nat → σ → Option σ
  | 0, _ => none
  | n + 1, s => if live (step s) then doWhile n (step s) else some (step s)

/-- The loop ends in the first state, of those after a turn, in which it is not live. -/
theorem doWhile_iff {s t : σ} : (∃ n, doWhile live step n s = some t) ↔
    ∃ k, t = step^[k + 1] s ∧ live t = false ∧ ∀ j < k, live (step^[j + 1] s) = true := by
  constructor
  · intro h
    obtain ⟨n, hn⟩ := h
    induction n generalizing s with
    | zero => cases hn
    | succ n ih =>
      rw [doWhile] at hn
      cases hlive : live (step s) with
      | false =>
        rw [hlive] at hn
        cases hn
        exact ⟨0, rfl, hlive, fun j hj => absurd hj (Nat.not_lt_zero j)⟩
      | true =>
        rw [hlive] at hn
        obtain ⟨k, ht, hdone, hbefore⟩ := ih hn
        refine ⟨k + 1, ht, hdone, fun j hj => ?_⟩
        cases j with
        | zero => exact hlive
        | succ j => exact hbefore j (Nat.lt_of_succ_lt_succ hj)
  · intro h
    obtain ⟨k, rfl, hdone, hbefore⟩ := h
    induction k generalizing s with
    | zero =>
      have hstop : live (step s) = false := hdone
      exact ⟨1, by rw [doWhile, hstop]; rfl⟩
    | succ k ih =>
      obtain ⟨n, hn⟩ := ih (s := step s) hdone fun j hj => hbefore (j + 1) (Nat.succ_lt_succ hj)
      have hlive : live (step s) = true := hbefore 0 (Nat.succ_pos k)
      exact ⟨n + 1, by rw [doWhile, if_pos hlive]; exact hn⟩

/-- A loop that is not live after some turns has ended by then. -/
theorem doWhile_ends {s : σ} {k : Nat} (h : live (step^[k + 1] s) = false) :
    ∃ j ≤ k, live (step^[j + 1] s) = false ∧ ∃ n, doWhile live step n s = some (step^[j + 1] s) := by
  induction k using Nat.strongRecOn with
  | ind k ih =>
    by_cases hbefore : ∀ j < k, live (step^[j + 1] s) = true
    · exact ⟨k, Nat.le_refl k, h, doWhile_iff.2 ⟨k, rfl, h, hbefore⟩⟩
    · simp only [not_forall, Bool.not_eq_true] at hbefore
      obtain ⟨i, hi, hstop⟩ := hbefore
      obtain ⟨j, hj, hdone, hends⟩ := ih i hi hstop
      exact ⟨j, Nat.le_trans hj (Nat.le_of_lt hi), hdone, hends⟩

end DoWhile

end Lib
