import Mathlib.Data.List.Basic

/-!
# Replacing strings in a text

`replaceAll rules s` goes through `s` from left to right; where the first string of a rule stands
the second is written and the scan goes on behind it, elsewhere the character is kept. The rules
are tried in order (where no first string begins another, at most one of them fits).
-/

namespace Lib

variable {α : Type} [DecidableEq α]

/-- The rule whose first string stands at the beginning of the text. -/
def ruleAt (rules : List (List α × List α)) (s : List α) : Option (List α × List α) :=
  rules.find? fun r => r.1.isPrefixOf s

/-- The scan, with `n` characters left of what has been replaced. -/
def replaceFrom (rules : List (List α × List α)) : Nat → List α → List α
  | _, [] => []
  | n + 1, _ :: s => replaceFrom rules n s
  | 0, c :: s =>
    match ruleAt rules (c :: s) with
    | some r => r.2 ++ replaceFrom rules (r.1.length - 1) s
    | none => c :: replaceFrom rules 0 s

/-- Every occurrence of a first string replaced by the second one. -/
def replaceAll (rules : List (List α × List α)) (s : List α) : List α := replaceFrom rules 0 s

variable {rules : List (List α × List α)}

theorem replaceFrom_eq (n : Nat) (s : List α) :
    replaceFrom rules n s = replaceAll rules (s.drop n) := by
  induction n generalizing s with
  | zero => rfl
  | succ n ih =>
    cases s with
    | nil => rfl
    | cons c s =>
      rw [replaceFrom, List.drop_succ_cons]
      exact ih s

/-- Where a rule fits. -/
theorem replaceAll_rule {r : List α × List α} {s : List α} (h : ruleAt rules (r.1 ++ s) = some r)
    (hne : r.1 ≠ []) : replaceAll rules (r.1 ++ s) = r.2 ++ replaceAll rules s := by
  obtain ⟨c, t, ht⟩ := List.exists_cons_of_ne_nil hne
  have hlen : r.1.length - 1 = t.length := by
    rw [ht]
    exact Nat.add_sub_cancel _ _
  rw [ht, List.cons_append] at h ⊢
  rw [replaceAll, replaceFrom, h]
  dsimp only
  rw [replaceFrom_eq, hlen, List.drop_left]

/-- Where none fits. -/
theorem replaceAll_keep {c : α} {s : List α} (h : ruleAt rules (c :: s) = none) :
    replaceAll rules (c :: s) = c :: replaceAll rules s := by
  rw [replaceAll, replaceFrom, h]
  rfl

/-- No first string begins with `c`. -/
def NoRule (rules : List (List α × List α)) (c : α) : Prop :=
  ∀ r ∈ rules, r.1 ≠ [] ∧ r.1.head? ≠ some c

theorem ruleAt_none {c : α} (h : NoRule rules c) (s : List α) : ruleAt rules (c :: s) = none := by
  refine List.find?_eq_none.mpr fun r hr hfits => ?_
  obtain ⟨hne, hhead⟩ := h r hr
  obtain ⟨d, t, ht⟩ := List.exists_cons_of_ne_nil hne
  rw [ht, List.isPrefixOf_iff_prefix, List.cons_prefix_cons] at hfits
  rw [ht, hfits.1] at hhead
  exact hhead rfl

/-- A text in which no first string can begin is kept. -/
theorem replaceAll_of_noRule {s : List α} (h : ∀ c ∈ s, NoRule rules c) :
    replaceAll rules s = s := by
  induction s with
  | nil => rfl
  | cons c s ih =>
    rw [List.forall_mem_cons] at h
    rw [replaceAll_keep (ruleAt_none h.1 s), ih h.2]

/-- The rules of two lists, the first ones first. -/
theorem ruleAt_append (rules rules' : List (List α × List α)) (s : List α) :
    ruleAt (rules ++ rules') s = (ruleAt rules s).or (ruleAt rules' s) :=
  List.find?_append

/-- Which rule fits does not depend on what is written for it. -/
theorem ruleAt_map (f : List α → List α) (rules : List (List α × List α)) (s : List α) :
    ruleAt (rules.map fun r => (r.1, f r.2)) s = (ruleAt rules s).map fun r => (r.1, f r.2) :=
  List.find?_map

/-- What holds of the empty text, and of what is written for a rule or for a character that is
kept in front of a text that it holds of, holds of the result. -/
theorem replaceAll_induct {P : List α → Prop} (nil : P [])
    (rule : ∀ r ∈ rules, ∀ t, P t → P (r.2 ++ t))
    (keep : ∀ c, (∀ r ∈ rules, r.1 ≠ [c]) → ∀ t, P t → P (c :: t)) (s : List α) :
    P (replaceAll rules s) := by
  induction hn : s.length using Nat.strongRecOn generalizing s with
  | ind n ih =>
    cases s with
    | nil => exact nil
    | cons c s =>
      subst hn
      -- What is left behind a rule's string or the kept character is shorter.
      cases hr : ruleAt rules (c :: s) with
      | some r =>
        rw [replaceAll, replaceFrom, hr]
        dsimp only
        rw [replaceFrom_eq]
        refine rule r (List.mem_of_find?_eq_some hr) _ (ih _ ?_ _ rfl)
        rw [List.length_drop, List.length_cons]
        omega
      | none =>
        rw [replaceAll_keep hr]
        refine keep c ?_ _ (ih _ (Nat.lt_succ_self _) s rfl)
        intro r hr' he
        have hno := List.find?_eq_none.mp hr r hr'
        rw [he, List.isPrefixOf_iff_prefix] at hno
        exact hno (List.prefix_append [c] s)

end Lib
