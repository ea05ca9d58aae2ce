import Mathlib.Data.List.Infix

/-!
# Patterns with wildcards

A pattern is a list of characters, of wildcards for one character and of wildcards for any run of
characters. `Fits` says that a pattern matches a whole text, `FitsPart` that it matches some part of
it; the second is the first with a run before and behind the pattern (`fitsPart_iff`), so both are
decided by one search through the ends of a text (`fits`).
-/

namespace Lib

variable {α : Type}

/-- What a pattern is made of. -/
inductive Wild (α : Type)
  | lit (a : α)
  | one
  | run
  deriving DecidableEq

/-- The pattern matches the text. -/
def Fits : List (Wild α) → List α → Prop
  | [], s => s = []
  | .lit a :: p, s => ∃ t, s = a :: t ∧ Fits p t
  | .one :: p, s => ∃ a t, s = a :: t ∧ Fits p t
  | .run :: p, s => ∃ u t, s = u ++ t ∧ Fits p t

/-- It matches some part of the text. -/
def FitsPart (p : List (Wild α)) (s : List α) : Prop := ∃ u t v, s = u ++ (t ++ v) ∧ Fits p t

/-- A pattern matched from left to right. -/
def fits [DecidableEq α] : List (Wild α) → List α → Bool
  | [], s => s.isEmpty
  | .lit _ :: _, [] => false
  | .lit a :: p, b :: s => a = b && fits p s
  | .one :: _, [] => false
  | .one :: p, _ :: s => fits p s
  | .run :: p, s => s.tails.any (fits p)

theorem fits_iff [DecidableEq α] {p : List (Wild α)} {s : List α} :
    fits p s = true ↔ Fits p s := by
  induction p generalizing s with
  | nil => exact List.isEmpty_iff
  | cons w p ih =>
    cases w with
    | lit a =>
      cases s with
      | nil => exact iff_of_false nofun fun ⟨_, he, _⟩ => nomatch he
      | cons b s =>
        rw [fits, Bool.and_eq_true, decide_eq_true_eq, ih]
        constructor
        · intro ⟨he, h⟩
          exact ⟨s, by rw [he], h⟩
        · intro ⟨t, he, h⟩
          obtain ⟨rfl, rfl⟩ := List.cons.inj he
          exact ⟨rfl, h⟩
    | one =>
      cases s with
      | nil => exact iff_of_false nofun fun ⟨_, _, he, _⟩ => nomatch he
      | cons b s =>
        rw [fits, ih]
        constructor
        · intro h
          exact ⟨b, s, rfl, h⟩
        · intro ⟨a, t, he, h⟩
          rw [(List.cons.inj he).2]
          exact h
    | run =>
      rw [fits, List.any_eq_true]
      constructor
      · intro ⟨t, ht, h⟩
        obtain ⟨u, hu⟩ := (List.mem_tails t s).mp ht
        exact ⟨u, t, hu.symm, ih.mp h⟩
      · intro ⟨u, t, he, h⟩
        exact ⟨t, (List.mem_tails t s).mpr ⟨u, he.symm⟩, ih.mpr h⟩

instance [DecidableEq α] (p : List (Wild α)) (s : List α) : Decidable (Fits p s) :=
  decidable_of_iff _ fits_iff

/-- A run at the end leaves out what follows. -/
theorem fits_append_run {p : List (Wild α)} {s : List α} :
    Fits (p ++ [.run]) s ↔ ∃ t v, s = t ++ v ∧ Fits p t := by
  induction p generalizing s with
  | nil =>
    constructor
    · intro _
      exact ⟨[], s, rfl, rfl⟩
    · intro _
      exact ⟨s, [], (List.append_nil s).symm, rfl⟩
  | cons w p ih =>
    cases w with
    | lit a =>
      constructor
      · intro ⟨s', hs, h⟩
        obtain ⟨t, v, hs', ht⟩ := ih.mp h
        exact ⟨a :: t, v, by rw [hs, hs', List.cons_append], t, rfl, ht⟩
      · intro ⟨t, v, hs, t', ht, h⟩
        exact ⟨t' ++ v, by rw [hs, ht, List.cons_append], ih.mpr ⟨t', v, rfl, h⟩⟩
    | one =>
      constructor
      · intro ⟨a, s', hs, h⟩
        obtain ⟨t, v, hs', ht⟩ := ih.mp h
        exact ⟨a :: t, v, by rw [hs, hs', List.cons_append], a, t, rfl, ht⟩
      · intro ⟨t, v, hs, a, t', ht, h⟩
        exact ⟨a, t' ++ v, by rw [hs, ht, List.cons_append], ih.mpr ⟨t', v, rfl, h⟩⟩
    | run =>
      constructor
      · intro ⟨u, s', hs, h⟩
        obtain ⟨t, v, hs', ht⟩ := ih.mp h
        exact ⟨u ++ t, v, by rw [hs, hs', List.append_assoc], u, t, rfl, ht⟩
      · intro ⟨t, v, hs, u, t', ht, h⟩
        exact ⟨u, t' ++ v, by rw [hs, ht, List.append_assoc], ih.mpr ⟨t', v, rfl, h⟩⟩

/-- A part of the text, as the whole of it. -/
theorem fitsPart_iff {p : List (Wild α)} {s : List α} :
    FitsPart p s ↔ Fits (.run :: (p ++ [.run])) s := by
  constructor
  · intro ⟨u, t, v, hs, h⟩
    exact ⟨u, t ++ v, hs, fits_append_run.2 ⟨t, v, rfl, h⟩⟩
  · intro ⟨u, s', hs, h⟩
    obtain ⟨t, v, hs', ht⟩ := fits_append_run.1 h
    exact ⟨u, t, v, by rw [hs, hs'], ht⟩

instance [DecidableEq α] (p : List (Wild α)) (s : List α) : Decidable (FitsPart p s) :=
  decidable_of_iff _ fitsPart_iff.symm

/-- The whole is a part. -/
theorem Fits.part {p : List (Wild α)} {s : List α} (h : Fits p s) : FitsPart p s :=
  ⟨[], s, [], (List.append_nil s).symm, h⟩

/-- The characters of a pattern are in each text that it matches. -/
theorem Fits.mem {p : List (Wild α)} {s : List α} {a : α} (h : Fits p s) (ha : .lit a ∈ p) :
    a ∈ s := by
  induction p generalizing s with
  | nil => cases ha
  | cons w p ih =>
    cases w with
    | lit b =>
      obtain ⟨t, rfl, ht⟩ := h
      rcases List.mem_cons.mp ha with he | ha
      · rw [Wild.lit.inj he]
        exact List.mem_cons_self
      · exact List.mem_cons_of_mem b (ih ht ha)
    | one =>
      obtain ⟨b, t, rfl, ht⟩ := h
      rcases List.mem_cons.mp ha with he | ha
      · cases he
      · exact List.mem_cons_of_mem b (ih ht ha)
    | run =>
      obtain ⟨u, t, rfl, ht⟩ := h
      rcases List.mem_cons.mp ha with he | ha
      · cases he
      · exact List.mem_append_right u (ih ht ha)

end Lib
