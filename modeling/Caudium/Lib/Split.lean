import Mathlib.Data.List.Basic

/-!
# Texts split at a separator

`List.splitOn` and `List.intercalate` take each other back. What else is used of them: how many
texts there are, what two of them make, and where the characters of a text that was put together
come from.
-/

namespace Lib

variable {α : Type} [DecidableEq α]

theorem length_splitOn (sep : α) (s : List α) : (s.splitOn sep).length = s.count sep + 1 := by
  induction s with
  | nil => rfl
  | cons c s ih =>
    rw [List.splitOn_cons_eq_if_modifyHead, List.count_cons]
    split
    next => rw [List.length_cons, ih]
    next => rw [List.length_modifyHead, ih, Nat.add_zero]

/-- Two texts with a separator between them. -/
theorem splitOn_pair {sep : α} {s t : List α} (hs : sep ∉ s) (ht : sep ∉ t) :
    (s ++ sep :: t).splitOn sep = [s, t] := by
  rw [List.splitOn_append_cons_self_of_not_mem hs, List.splitOn_eq_singleton ht]

omit [DecidableEq α] in
/-- A text that was put together has separators and what the texts have. -/
theorem mem_intercalate {sep c : α} : ∀ {texts : List (List α)}, c ∈ [sep].intercalate texts →
    c = sep ∨ ∃ w ∈ texts, c ∈ w
  | [], h => absurd h List.not_mem_nil
  | [w], h => by
    rw [List.intercalate_singleton] at h
    exact Or.inr ⟨w, List.mem_cons_self, h⟩
  | w :: w' :: texts, h => by
    rw [List.intercalate_cons_cons, List.append_assoc, List.singleton_append] at h
    rcases List.mem_append.mp h with h | h
    · exact Or.inr ⟨w, List.mem_cons_self, h⟩
    · rcases List.mem_cons.mp h with h | h
      · exact Or.inl h
      · obtain h | ⟨x, hx, hmem⟩ := mem_intercalate h
        · exact Or.inl h
        · exact Or.inr ⟨x, List.mem_cons_of_mem w hx, hmem⟩

omit [DecidableEq α] in
/-- What a text has is in what it was put into. -/
theorem mem_intercalate_of_mem {sep c : α} {w : List α} (hc : c ∈ w) : ∀ {texts : List (List α)},
    w ∈ texts → c ∈ [sep].intercalate texts
  | [x], hw => by
    rw [List.mem_singleton.mp hw] at hc
    rwa [List.intercalate_singleton]
  | x :: y :: texts, hw => by
    rw [List.intercalate_cons_cons, List.append_assoc]
    rcases List.mem_cons.mp hw with rfl | hw
    · exact List.mem_append_left _ hc
    · exact List.mem_append_right _ (List.mem_append_right _ (mem_intercalate_of_mem hc hw))

omit [DecidableEq α] in
/-- Leaving out characters, but not the separator. -/
theorem filter_intercalate {p : α → Bool} {sep : α} (h : p sep = true) (texts : List (List α)) :
    ([sep].intercalate texts).filter p = [sep].intercalate (texts.map (List.filter p)) := by
  induction texts with
  | nil => rfl
  | cons w texts ih =>
    cases texts with
    | nil => simp
    | cons w' texts =>
      rw [List.intercalate_cons_cons, List.filter_append, List.filter_append, ih]
      simp [h]

omit [DecidableEq α] in
theorem splitOnP_congr {p q : α → Bool} {s : List α} (h : ∀ c ∈ s, p c = q c) :
    s.splitOnP p = s.splitOnP q := by
  induction s with
  | nil => rw [List.splitOnP_nil, List.splitOnP_nil]
  | cons c s ih =>
    rw [List.forall_mem_cons] at h
    rw [List.splitOnP_cons_eq_if_modifyHead, List.splitOnP_cons_eq_if_modifyHead, h.1, ih h.2]

omit [DecidableEq α] in
/-- No piece has a separator in it. -/
theorem not_sep_of_mem_splitOnP {p : α → Bool} {s : List α} :
    ∀ piece ∈ s.splitOnP p, ∀ c ∈ piece, p c = false := by
  induction s with
  | nil =>
    intro piece hpiece c hc
    rw [List.splitOnP_nil, List.mem_singleton] at hpiece
    rw [hpiece] at hc
    cases hc
  | cons d s ih =>
    rw [List.splitOnP_cons_eq_if_modifyHead]
    split
    next hd =>
      exact List.forall_mem_cons.mpr ⟨nofun, ih⟩
    next hd =>
      obtain ⟨first, others, hsplit⟩ := List.exists_cons_of_ne_nil (List.splitOnP_ne_nil p s)
      rw [hsplit, List.forall_mem_cons] at ih
      rw [hsplit, List.modifyHead_cons]
      refine List.forall_mem_cons.mpr ⟨List.forall_mem_cons.mpr ⟨?_, ih.1⟩, ih.2⟩
      exact eq_false_of_ne_true hd

theorem not_mem_of_mem_splitOn {sep : α} {s piece : List α} (h : piece ∈ s.splitOn sep) :
    sep ∉ piece := by
  intro hsep
  rw [List.splitOn_eq_splitOnP] at h
  have hno := not_sep_of_mem_splitOnP piece h sep hsep
  rw [beq_self_eq_true] at hno
  cases hno

/-- A map that keeps the separator apart keeps the pieces. -/
theorem splitOn_map {sep : α} {f : α → α} (hf : ∀ c, f c = sep ↔ c = sep) (s : List α) :
    (s.map f).splitOn sep = (s.splitOn sep).map (List.map f) := by
  induction s with
  | nil => rfl
  | cons c s ih =>
    rw [List.map_cons, List.splitOn_cons_eq_if_modifyHead, List.splitOn_cons_eq_if_modifyHead, ih]
    by_cases hc : c = sep
    · rw [if_pos (by simpa using (hf c).mpr hc), if_pos (by simpa using hc)]
      rfl
    · rw [if_neg (by simpa using (hf c).not.mpr hc), if_neg (by simpa using hc)]
      cases s.splitOn sep with
      | nil => rfl
      | cons piece pieces => rfl

/-- A piece is of the text. -/
theorem mem_of_piece {sep c : α} {s piece : List α} (hpiece : piece ∈ s.splitOn sep)
    (hc : c ∈ piece) : c ∈ s := by
  have hback := @List.intercalate_splitOn _ s _ _ sep
  rw [← hback]
  exact mem_intercalate_of_mem hc hpiece

/-- Every other element is in a piece. -/
theorem exists_piece {sep c : α} {s : List α} (hc : c ∈ s) (hne : c ≠ sep) :
    ∃ piece ∈ s.splitOn sep, c ∈ piece := by
  have hback := @List.intercalate_splitOn _ s _ _ sep
  rw [← hback] at hc
  exact (mem_intercalate hc).resolve_left hne

/-- The pieces, each with a separator behind it. -/
theorem flatMap_splitOn (sep : α) (s : List α) :
    (s.splitOn sep).flatMap (· ++ [sep]) = s ++ [sep] := by
  induction s with
  | nil => rfl
  | cons c s ih =>
    rw [List.splitOn_cons_eq_if_modifyHead]
    split
    next hc =>
      rw [List.flatMap_cons, ih, eq_of_beq hc]
      rfl
    next =>
      obtain ⟨first, others, hsplit⟩ := List.exists_cons_of_ne_nil (List.splitOn_ne_nil sep s)
      rw [hsplit, List.flatMap_cons] at ih
      rw [hsplit, List.modifyHead_cons, List.flatMap_cons, List.cons_append, List.cons_append, ih]
      rfl

end Lib
