import Mathlib.Order.Basic
import Mathlib.Data.List.Basic

/-!
# Runs of a state machine

A machine is a partial step function `step : σ → α → Option σ`: `none` when the
action is not enabled. `runFrom` plays a list of actions, `Always` says that a
property holds in every state the run visits, `EachStep` says that a condition
on (state before, action) holds at every step taken.

The rule the rest of the development uses is `always_iff_eachStep`: when, from
a state satisfying the property, one step keeps the property exactly when the
step meets the condition, then a run satisfies the property throughout exactly
when each of its steps meets the condition. It is what turns a one-step
analysis of a defect into the exact set of runs that avoid it.

A run that goes on for ever is a sequence of states and one of actions (`Forever`).

A machine may answer every action, and some actions be public. `outputs` are the answers
to the public ones, and the other actions do not interfere when leaving them out
changes no such answer. `outputs_purge` is the unwinding rule: it is enough to relate
the states of the two runs so that an action that is not public keeps the relation
and a public one has the same answer on both sides and keeps it too.
-/

namespace Lib

section

variable {σ α : Type} {step : σ → α → Option σ}

/-- The state after a list of actions, `none` if one of them was not enabled. -/
def runFrom (step : σ → α → Option σ) : σ → List α → Option σ
  | s, [] => some s
  | s, a :: as => (step s a).bind fun s' => runFrom step s' as

theorem runFrom_cons {s s' : σ} {a : α} (as : List α) (h : step s a = some s') :
    runFrom step s (a :: as) = runFrom step s' as := by
  rw [runFrom, h]; rfl

theorem runFrom_append (as bs : List α) : ∀ s : σ,
    runFrom step s (as ++ bs) = (runFrom step s as).bind fun s' => runFrom step s' bs := by
  induction as with
  | nil => exact fun s => rfl
  | cons a as ih =>
    intro s
    rw [List.cons_append, runFrom, runFrom, Option.bind_assoc]
    exact congrArg _ (funext ih)

/-- `P` holds in every state visited, the first and the last included. -/
def Always (step : σ → α → Option σ) (P : σ → Prop) : σ → List α → Prop
  | s, [] => P s
  | s, a :: as => P s ∧ ∀ s', step s a = some s' → Always step P s' as

/-- `C` holds of (state before, action) at every step taken. -/
def EachStep (step : σ → α → Option σ) (C : σ → α → Prop) : σ → List α → Prop
  | _, [] => True
  | s, a :: as => C s a ∧ ∀ s', step s a = some s' → EachStep step C s' as

/-- The steps of a run can be checked one after the other. -/
instance decidableEachStep {C : σ → α → Prop} [∀ s a, Decidable (C s a)] :
    (as : List α) → (s : σ) → Decidable (EachStep step C s as)
  | [], _ => isTrue trivial
  | a :: as, s =>
    match hs : step s a with
    | none => decidable_of_iff (C s a)
        ⟨fun h => ⟨h, fun s' hs' => by rw [hs] at hs'; cases hs'⟩, fun h => h.1⟩
    | some s₁ =>
      have : Decidable (EachStep step C s₁ as) := decidableEachStep as s₁
      decidable_of_iff (C s a ∧ EachStep step C s₁ as)
        ⟨fun h => ⟨h.1, fun s' hs' => by
          obtain rfl := Option.some.inj (hs.symm.trans hs')
          exact h.2⟩, fun h => ⟨h.1, h.2 s₁ hs⟩⟩

theorem Always.head {P : σ → Prop} {s : σ} {as : List α} (h : Always step P s as) : P s := by
  cases as with
  | nil => exact h
  | cons a as => exact h.1

theorem Always.mono {P Q : σ → Prop} (hPQ : ∀ s, P s → Q s) (as : List α) :
    ∀ s : σ, Always step P s as → Always step Q s as := by
  induction as with
  | nil => exact fun s h => hPQ s h
  | cons a as ih => exact fun s h => ⟨hPQ s h.1, fun s' hs => ih s' (h.2 s' hs)⟩

/-- `Always` in terms of prefixes: every state the run passes through. -/
theorem always_iff_visited {P : σ → Prop} (as : List α) :
    ∀ s : σ, Always step P s as ↔
      ∀ pre suf s', as = pre ++ suf → runFrom step s pre = some s' → P s' := by
  induction as with
  | nil =>
    intro s
    constructor
    · intro h pre suf s' he hr
      obtain ⟨rfl, rfl⟩ := List.append_eq_nil_iff.mp he.symm
      rw [runFrom, Option.some.injEq] at hr
      exact hr ▸ h
    · intro h
      exact h [] [] s rfl rfl
  | cons a as ih =>
    intro s
    constructor
    · intro hand pre suf s' he hr
      obtain ⟨hP, hrest⟩ := hand
      -- the empty prefix is the state we are in; any other starts with this step
      cases pre with
      | nil =>
        rw [runFrom, Option.some.injEq] at hr
        exact hr ▸ hP
      | cons b pre =>
        rw [List.cons_append, List.cons.injEq] at he
        obtain ⟨rfl, rfl⟩ := he
        rw [runFrom] at hr
        cases hs : step s a with
        | none => rw [hs] at hr; simp at hr
        | some s₁ =>
          rw [hs] at hr
          exact (ih s₁).mp (hrest s₁ hs) pre suf s' rfl hr
    · intro h
      refine ⟨h [] (a :: as) s rfl rfl, fun s₁ hs => (ih s₁).mpr ?_⟩
      intro pre suf s' he hr
      exact h (a :: pre) suf s' (by rw [he, List.cons_append]) (by rw [runFrom_cons _ hs, hr])

/-- The invariant rule: what every allowed step keeps, a run keeps. -/
theorem always_of_step {P : σ → Prop} {H : σ → α → Prop}
    (hstep : ∀ s a s', P s → H s a → step s a = some s' → P s') (as : List α) :
    ∀ s : σ, P s → EachStep step H s as → Always step P s as := by
  induction as with
  | nil => intro s hP _; exact hP
  | cons a as ih =>
    intro s hP hH
    exact ⟨hP, fun s' hs => ih s' (hstep s a s' hP hH.1 hs) (hH.2 s' hs)⟩

/-- The invariant rule read at the last state. -/
theorem inv_of_eachStep {P : σ → Prop} {H : σ → α → Prop}
    (hstep : ∀ s a s', P s → H s a → step s a = some s' → P s') (as : List α) {s s' : σ}
    (hP : P s) (hH : EachStep step H s as) (hr : runFrom step s as = some s') : P s' :=
  (always_iff_visited as s).mp (always_of_step hstep as s hP hH) as [] s'
    (List.append_nil as).symm hr

theorem EachStep.concat {C : σ → α → Prop} {as : List α} {a : α} {s s' : σ}
    (h : EachStep step C s (as ++ [a])) (hs : runFrom step s as = some s') :
    EachStep step C s as ∧ C s' a := by
  induction as generalizing s with
  | nil =>
    obtain rfl := Option.some.inj hs
    exact ⟨trivial, h.1⟩
  | cons b as ih =>
    obtain ⟨s₁, hstep, hrest⟩ := Option.bind_eq_some_iff.mp hs
    obtain ⟨heach, hlast⟩ := ih (h.2 s₁ hstep) hrest
    refine ⟨⟨h.1, fun s₂ hs₂ => ?_⟩, hlast⟩
    obtain rfl := Option.some.inj (hstep.symm.trans hs₂)
    exact heach

theorem eachStep_of_forall {H : σ → α → Prop} (h : ∀ s a, H s a) (as : List α) :
    ∀ s : σ, EachStep step H s as := by
  induction as with
  | nil => intro s; exact trivial
  | cons a as ih => intro s; exact ⟨h s a, fun s' _ => ih s'⟩

/-- Two conditions that agree wherever `I` holds agree along a run, when the steps that meet the
second one keep `I`. -/
theorem eachStep_congr {I : σ → Prop} {C C' : σ → α → Prop}
    (hiff : ∀ s a, I s → (C s a ↔ C' s a))
    (hinv : ∀ s a s', I s → C' s a → step s a = some s' → I s') (as : List α) :
    ∀ s : σ, I s → (EachStep step C s as ↔ EachStep step C' s as) := by
  induction as with
  | nil => intro s _; exact Iff.rfl
  | cons a as ih =>
    intro s hI
    constructor
    · intro ⟨hC, hrest⟩
      have hC' := (hiff s a hI).mp hC
      exact ⟨hC', fun s' hs => (ih s' (hinv s a s' hI hC' hs)).mp (hrest s' hs)⟩
    · intro ⟨hC', hrest⟩
      exact ⟨(hiff s a hI).mpr hC',
        fun s' hs => (ih s' (hinv s a s' hI hC' hs)).mpr (hrest s' hs)⟩

/-- The invariant rule read at the last state of a run of actions that all meet
`Q`. -/
theorem inv_of_runFrom {P : σ → Prop} {Q : α → Prop}
    (hstep : ∀ s a s', Q a → P s → step s a = some s' → P s') (as : List α) :
    ∀ s s' : σ, (∀ a ∈ as, Q a) → P s → runFrom step s as = some s' → P s' := by
  induction as with
  | nil =>
    intro s s' _ hP hr
    obtain rfl := Option.some.inj hr
    exact hP
  | cons a as ih =>
    intro s s' hQ hP hr
    cases hs : step s a with
    | none =>
      rw [runFrom, hs] at hr
      cases hr
    | some s₁ =>
      rw [runFrom_cons as hs] at hr
      exact ih s₁ s' (fun a' ha => hQ a' (List.mem_cons_of_mem _ ha))
        (hstep s a s₁ (hQ a (List.mem_cons_self ..)) hP hs) hr

/-- **The exactness rule.** `I` is a side invariant that good steps keep, `H` an
assumption on the steps. If from a good state a step leads to a good state
exactly when it meets `C`, a run is good throughout exactly when every step of
it meets `C`. A step that is not enabled must meet `C`. -/
theorem always_iff_eachStep {P I : σ → Prop} {C H : σ → α → Prop}
    (hoff : ∀ s a, step s a = none → C s a)
    (hinv : ∀ s a s', I s → P s → H s a → C s a → step s a = some s' → I s')
    (hstep : ∀ s a s', I s → P s → H s a → step s a = some s' → (P s' ↔ C s a))
    (as : List α) :
    ∀ s : σ, I s → P s → EachStep step H s as → (Always step P s as ↔ EachStep step C s as) := by
  induction as with
  | nil => intro s _ hP _; exact iff_of_true hP trivial
  | cons a as ih =>
    intro s hI hP hH
    cases hs : step s a with
    | none =>
      refine iff_of_true ⟨hP, fun s' h => ?_⟩ ⟨hoff s a hs, fun s' h => ?_⟩
      · rw [hs] at h; cases h
      · rw [hs] at h; cases h
    | some s₁ =>
      have hone := hstep s a s₁ hI hP hH.1 hs
      constructor
      · intro hand
        obtain ⟨_, hrest⟩ := hand
        have hr := hrest s₁ hs
        have hC := hone.mp hr.head
        refine ⟨hC, fun s' h => ?_⟩
        obtain rfl : s₁ = s' := Option.some.inj (hs.symm.trans h)
        exact (ih s₁ (hinv s a s₁ hI hP hH.1 hC hs) hr.head (hH.2 s₁ hs)).mp hr
      · intro hand
        obtain ⟨hC, hrest⟩ := hand
        refine ⟨hP, fun s' h => ?_⟩
        obtain rfl : s₁ = s' := Option.some.inj (hs.symm.trans h)
        exact (ih s₁ (hinv s a s₁ hI hP hH.1 hC hs) (hone.mpr hC) (hH.2 s₁ hs)).mpr (hrest s₁ hs)

/-! ## Runs without an end -/

/-- The states and the actions of a run that goes on for ever. -/
def Forever (step : σ → α → Option σ) (states : Nat → σ) (actions : Nat → α) : Prop :=
  ∀ n, step (states n) (actions n) = some (states (n + 1))

/-- What every step that meets `H` keeps, all states have. -/
theorem Forever.always {P : σ → Prop} {H : σ → α → Prop} {states : Nat → σ} {actions : Nat → α}
    (hrun : Forever step states actions)
    (hstep : ∀ s a s', P s → H s a → step s a = some s' → P s')
    (hmeets : ∀ n, H (states n) (actions n)) (h : P (states 0)) (n : Nat) : P (states n) := by
  induction n with
  | zero => exact h
  | succ n ih => exact hstep _ _ _ ih (hmeets n) (hrun n)

/-- What every step keeps but those with `E` holds until there is such a step. -/
theorem Forever.keeps {P : σ → Prop} {E : α → Prop} {states : Nat → σ} {actions : Nat → α}
    (hrun : Forever step states actions)
    (hstep : ∀ s a s', P s → ¬ E a → step s a = some s' → P s') {n : Nat} (h : P (states n)) :
    ∀ m, n ≤ m → (∃ k, n ≤ k ∧ k < m ∧ E (actions k)) ∨ P (states m) := by
  intro m hle
  induction hle with
  | refl => exact .inr h
  | @step m hle ih =>
    rcases ih with ⟨k, hnk, hkm, hends⟩ | hP
    · exact .inl ⟨k, hnk, Nat.lt_succ_of_lt hkm, hends⟩
    · by_cases hends : E (actions m)
      · exact .inl ⟨m, hle, Nat.lt_succ_self m, hends⟩
      · exact .inr (hstep _ _ _ hP hends (hrun m))

end

/-! ## Noninterference by unwinding -/

variable {σ α ω : Type}

/-- The answers to the public actions. -/
def outputs (step : σ → α → ω × σ) (isPublic : α → Bool) : σ → List α → List ω
  | _, [] => []
  | s, a :: as =>
    if isPublic a then (step s a).1 :: outputs step isPublic (step s a).2 as
    else outputs step isPublic (step s a).2 as

variable {step : σ → α → ω × σ} {isPublic : α → Bool}

theorem outputs_public {a : α} (h : isPublic a = true) (s : σ) (as : List α) :
    outputs step isPublic s (a :: as) =
      (step s a).1 :: outputs step isPublic (step s a).2 as := by
  rw [outputs, if_pos h]

theorem outputs_secret {a : α} (h : isPublic a = false) (s : σ) (as : List α) :
    outputs step isPublic s (a :: as) = outputs step isPublic (step s a).2 as := by
  rw [outputs, if_neg (by rw [h]; exact Bool.false_ne_true)]

/-- **The unwinding rule.** -/
theorem outputs_purge {R : σ → σ → Prop}
    (hsecret : ∀ s t a, R s t → isPublic a = false → R (step s a).2 t)
    (hpublic : ∀ s t a, R s t → isPublic a = true →
      (step s a).1 = (step t a).1 ∧ R (step s a).2 (step t a).2) (as : List α) :
    ∀ s t, R s t → outputs step isPublic s as = outputs step isPublic t (as.filter isPublic) := by
  induction as with
  | nil => exact fun s t _ => rfl
  | cons a as ih =>
    intro s t h
    cases ha : isPublic a with
    | true =>
      obtain ⟨hout, hnext⟩ := hpublic s t a h ha
      rw [List.filter_cons_of_pos ha, outputs_public ha, outputs_public ha, hout, ih _ _ hnext]
    | false =>
      rw [List.filter_cons_of_neg (by rw [ha]; exact Bool.false_ne_true), outputs_secret ha]
      exact ih _ _ (hsecret s t a h ha)

end Lib
