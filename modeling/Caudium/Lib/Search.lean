import Mathlib.Data.List.Infix

/-!
# The first occurrence of a string

`search s pat` is the first position of `pat` in `s`, `cut s pat` what lies before
and after it. A search over a growing string can start late without missing
anything as long as it starts no later than the first position there is
(`search_drop_some`), and where a shorter string had none the first position
reaches past its end (`search_append_lt`).
-/

namespace Lib

variable {α : Type} [DecidableEq α]

/-- The position of the first occurrence of `pat`. -/
def search (s pat : List α) : Option Nat :=
  match s with
  | [] => if pat <+: [] then some 0 else none
  | c :: s => if pat <+: c :: s then some 0 else (search s pat).map (· + 1)

/-- What stands before and after the first occurrence of `pat`. -/
def cut (s pat : List α) : Option (List α × List α) :=
  (search s pat).map fun i => (s.take i, s.drop (i + pat.length))

omit [DecidableEq α] in
/-- Where a list begins with `pat`, its first occurrence is at 0. -/
theorem first_zero_iff {s pat : List α} {i : Nat} (hpat : pat <+: s) :
    0 = i ↔ pat <+: s.drop i ∧ ∀ j < i, ¬ pat <+: s.drop j := by
  constructor
  · intro heq
    subst heq
    exact ⟨hpat, fun j hj => absurd hj (Nat.not_lt_zero j)⟩
  · intro h
    cases i with
    | zero => rfl
    | succ i => exact absurd hpat (h.2 0 (Nat.succ_pos i))

theorem search_eq_some {s pat : List α} {i : Nat} :
    search s pat = some i ↔ pat <+: s.drop i ∧ ∀ j < i, ¬ pat <+: s.drop j := by
  induction s generalizing i with
  | nil =>
    rw [search]
    by_cases hpat : pat <+: []
    · rw [if_pos hpat, Option.some.injEq]
      exact first_zero_iff hpat
    · rw [if_neg hpat]
      constructor
      · intro h; cases h
      · intro h
        rw [List.drop_nil] at h
        exact absurd h.1 hpat
  | cons c s ih =>
    rw [search]
    by_cases hpat : pat <+: c :: s
    · rw [if_pos hpat, Option.some.injEq]
      exact first_zero_iff hpat
    · rw [if_neg hpat, Option.map_eq_some_iff]
      -- not here: the first occurrence in the tail, one further on
      constructor
      · intro hand
        obtain ⟨k, hk, rfl⟩ := hand
        obtain ⟨hat, hbefore⟩ := ih.mp hk
        refine ⟨hat, fun j hj => ?_⟩
        cases j with
        | zero => exact hpat
        | succ j => exact hbefore j (by omega)
      · intro hand
        obtain ⟨hat, hbefore⟩ := hand
        cases i with
        | zero => exact absurd hat hpat
        | succ i => exact ⟨i, ih.mpr ⟨hat, fun j hj => hbefore (j + 1) (by omega)⟩, rfl⟩

theorem search_eq_none {s pat : List α} : search s pat = none ↔ ∀ j, ¬ pat <+: s.drop j := by
  constructor
  · intro h j hj
    -- the least such position would be found
    obtain ⟨i, hi, hleast⟩ : ∃ i, pat <+: s.drop i ∧ ∀ k < i, ¬ pat <+: s.drop k := by
      induction j using Nat.strongRecOn with
      | ind j ih =>
        by_cases hk : ∃ k, k < j ∧ pat <+: s.drop k
        · obtain ⟨k, hlt, hpk⟩ := hk
          exact ih k hlt hpk
        · exact ⟨j, hj, fun k hlt hpk => hk ⟨k, hlt, hpk⟩⟩
    rw [search_eq_some.2 ⟨hi, hleast⟩] at h
    cases h
  · intro h
    cases hs : search s pat with
    | none => rfl
    | some i => exact absurd (search_eq_some.1 hs).1 (h i)

theorem search_le {s pat : List α} {i : Nat} (h : search s pat = some i) :
    i + pat.length ≤ s.length := by
  obtain ⟨hat, hbefore⟩ := search_eq_some.1 h
  have hlen := hat.length_le
  rw [List.length_drop] at hlen
  cases i with
  | zero => omega
  | succ i =>
    have hpat : pat ≠ [] := by
      intro heq
      subst heq
      exact hbefore 0 (Nat.succ_pos i) (List.nil_prefix)
    have hpos := List.length_pos_iff.mpr hpat
    omega

omit [DecidableEq α] in
/-- An occurrence that fits in the first part is one there. -/
theorem prefix_drop_append {s t pat : List α} {j : Nat} (h : j + pat.length ≤ s.length) :
    pat <+: (s ++ t).drop j ↔ pat <+: s.drop j := by
  rw [List.drop_append_of_le_length (by omega)]
  constructor
  · intro hp
    exact List.prefix_of_prefix_length_le hp (List.prefix_append _ _)
      (by rw [List.length_drop]; omega)
  · exact fun hp => hp.trans (List.prefix_append _ _)

/-- What was found is found again when more follows. -/
theorem search_append {s pat : List α} {i : Nat} (h : search s pat = some i) (t : List α) :
    search (s ++ t) pat = some i := by
  have hle := search_le h
  obtain ⟨hat, hbefore⟩ := search_eq_some.1 h
  refine search_eq_some.2 ⟨(prefix_drop_append hle).mpr hat, fun j hj hp => hbefore j hj ?_⟩
  exact (prefix_drop_append (by omega)).mp hp

/-- What is found only once more has followed reaches into that. -/
theorem search_append_lt {s t pat : List α} {i : Nat} (hnone : search s pat = none)
    (h : search (s ++ t) pat = some i) : s.length < i + pat.length := by
  refine Nat.lt_of_not_le fun hle => ?_
  exact search_eq_none.1 hnone i ((prefix_drop_append hle).mp (search_eq_some.1 h).1)

/-- A search that starts late, but not too late. -/
theorem search_drop_some {s pat : List α} {i k : Nat} (h : search s pat = some i) (hk : k ≤ i) :
    search (s.drop k) pat = some (i - k) := by
  obtain ⟨hat, hbefore⟩ := search_eq_some.1 h
  refine search_eq_some.2 ⟨?_, fun j hj => ?_⟩
  · rw [List.drop_drop, show k + (i - k) = i by omega]
    exact hat
  · rw [List.drop_drop]
    exact hbefore (k + j) (by omega)

theorem search_drop_none {s pat : List α} (h : search s pat = none) (k : Nat) :
    search (s.drop k) pat = none := by
  refine search_eq_none.2 fun j => ?_
  rw [List.drop_drop]
  exact search_eq_none.1 h (k + j)

/-- A search in the first part of a string finds what the whole string has first,
if it fits. -/
theorem search_take {s t pat : List α} {i : Nat} (h : search (s ++ t) pat = some i)
    (hle : i + pat.length ≤ s.length) : search s pat = some i := by
  cases hs : search s pat with
  | none =>
    have hlt := search_append_lt hs h
    omega
  | some k => rw [← search_append hs t, h]

/-- The first part of a string has an occurrence exactly if the first of the whole
string fits. -/
theorem search_take_ne_none {s t pat : List α} {i : Nat} (h : search (s ++ t) pat = some i) :
    search s pat ≠ none ↔ i + pat.length ≤ s.length := by
  constructor
  · intro hne
    refine Nat.le_of_not_lt fun hlt => hne ?_
    cases hs : search s pat with
    | none => rfl
    | some k =>
      have hle := search_le hs
      rw [search_append hs t, Option.some.injEq] at h
      omega
  · intro hle hnone
    rw [search_take h hle] at hnone
    cases hnone

theorem length_cut {s pat a b : List α} (h : cut s pat = some (a, b)) :
    a.length + pat.length + b.length = s.length := by
  rw [cut, Option.map_eq_some_iff] at h
  obtain ⟨i, hi, heq⟩ := h
  have hle := search_le hi
  obtain ⟨rfl, rfl⟩ := Prod.mk.inj heq
  rw [List.length_take, List.length_drop]
  omega

/-- The first occurrence of a character. -/
theorem search_char {s : List α} {c : α} (h : c ∉ s) (t : List α) :
    search (s ++ c :: t) [c] = some s.length := by
  refine search_eq_some.2 ⟨?_, fun j hj hat => ?_⟩
  · rw [List.drop_left]
    exact List.prefix_append [c] t
  · rw [prefix_drop_append (by exact hj)] at hat
    exact h (List.mem_of_mem_drop (hat.subset List.mem_cons_self))

theorem cut_char {s : List α} {c : α} (h : c ∉ s) (t : List α) :
    cut (s ++ c :: t) [c] = some (s, t) := by
  rw [cut, search_char h, Option.map_some, List.take_left, List.append_cons, ← List.length_append,
    List.drop_left]

/-- A character that does not occur. -/
theorem search_char_none {s : List α} {c : α} (h : c ∉ s) : search s [c] = none :=
  search_eq_none.2 fun _ hat => h (List.mem_of_mem_drop (hat.subset List.mem_cons_self))

theorem cut_char_none {s : List α} {c : α} (h : c ∉ s) : cut s [c] = none := by
  rw [cut, search_char_none h, Option.map_none]

end Lib
