import Caudium.Lib.Split
import Caudium.Redirect.Patterns
import Mathlib.Algebra.GroupWithZero.Nat

/-!
# Lines of a redirect configuration

A line adds at most one pattern, and then its modifier wraps the last pattern there is, whether
or not that is its own. So a line that adds none, but has a modifier, changes a line before it.
Apart from that a configuration is what its lines are alone (`start_lines_iff`). The modifiers in
the list are counted (`wraps`): a line that wraps another's pattern makes one too many.
-/

namespace Caudium.Redirect

open Lib (Str cut)
open Http (lowerCase splitOn)

/-! ## A line alone -/

/-- The pattern that a line makes, before its modifier. -/
def linePattern (env : Env) (s : Str) : Option Pattern :=
  match fields s with
  | [a, source, dest] => keywordPattern env (scanModifier a).1 source dest
  | [source, dest] =>
    if '*' ∈ source then
      if source.head? = some '^' then newRegMatch env source dest
      else newRegMatch env ('^' :: source) dest
    else some (.prefixMatch source dest)
  | _ => none

/-- The modifier of a line, as it is written. -/
def writtenModifier (s : Str) : Option Str :=
  match fields s with
  | [a, _, _] => (scanModifier a).2
  | _ => none

/-- The modifier of a line, if it is one that does something. -/
def lineModifier (s : Str) : Option (Pattern → Pattern) := (writtenModifier s).bind modifierCase

/-- What the modifier of a line does to the patterns. -/
def modify (m : Option (Pattern → Pattern)) (ps : List Pattern) : List Pattern :=
  match m with
  | some f => modifyLast f ps
  | none => ps

theorem addLine_eq (env : Env) (ps : List Pattern) (s : Str) :
    addLine env ps s = modify (lineModifier s) (ps ++ (linePattern env s).toList) := by
  unfold addLine lineModifier writtenModifier linePattern
  generalize fields s = a
  rcases a with _ | ⟨key, _ | ⟨source, _ | ⟨dest, _ | ⟨more, rest⟩⟩⟩⟩
  case cons.cons.cons.nil =>
    dsimp only
    cases (scanModifier key).2 with
    | none => rfl
    | some modifier =>
      rw [Option.bind_some]
      dsimp only
      split
      next hnil =>
        rw [hnil]
        cases modifierCase modifier <;> rfl
      next => cases modifierCase modifier <;> rfl
  case cons.cons.nil => rfl
  all_goals simp [modify]

/-- A line that is rejected: it makes no pattern, or its modifier is none. -/
def Rejected (env : Env) (s : Str) : Prop :=
  linePattern env s = none ∨ (writtenModifier s).isSome ∧ lineModifier s = none

/-- A line that makes no pattern, but has a modifier. -/
def Stray (env : Env) (s : Str) : Prop := linePattern env s = none ∧ (lineModifier s).isSome

/-! ## Counting modifiers -/

/-- The modifiers of a pattern. -/
def Pattern.wraps : Pattern → Nat
  | exactMatch _ _ | regMatch _ _ | globMatch _ _ | prefixMatch _ _ => 0
  | hostModifier p | varModifier p _ | cookieModifier p _ | headerModifier p _ => p.wraps + 1

def wraps (ps : List Pattern) : Nat := (ps.map Pattern.wraps).sum

theorem wraps_append (ps ps' : List Pattern) : wraps (ps ++ ps') = wraps ps + wraps ps' := by
  simp [wraps]

theorem wraps_modifierCase {modifier : Str} {f : Pattern → Pattern}
    (h : modifierCase modifier = some f) (p : Pattern) : (f p).wraps = p.wraps + 1 := by
  have hmap : ∀ {value : Option Str} {g : Str → Pattern → Pattern},
      (∀ v, (g v p).wraps = p.wraps + 1) → value.map g = some f → (f p).wraps = p.wraps + 1 := by
    intro value g hg hf
    obtain ⟨v, -, rfl⟩ := Option.map_eq_some_iff.mp hf
    exact hg v
  unfold modifierCase at h
  dsimp only at h
  split at h
  · obtain rfl := Option.some.inj h
    rfl
  · split at h
    · exact hmap (fun _ => rfl) h
    · split at h
      · exact hmap (fun _ => rfl) h
      · split at h
        · exact hmap (fun _ => rfl) h
        · cases h

theorem wraps_lineModifier {s : Str} {f : Pattern → Pattern} (h : lineModifier s = some f)
    (p : Pattern) : (f p).wraps = p.wraps + 1 := by
  obtain ⟨modifier, -, hf⟩ := Option.bind_eq_some_iff.mp h
  exact wraps_modifierCase hf p

theorem modifyLast_concat (f : Pattern → Pattern) (ps : List Pattern) (p : Pattern) :
    modifyLast f (ps ++ [p]) = ps ++ [f p] := by
  simp [modifyLast]

/-! ## One line more -/

/-- A line that wraps no pattern but its own adds what it makes alone. -/
theorem addLine_own {env : Env} {ps : List Pattern} {s : Str} (h : Stray env s → ps = []) :
    addLine env ps s = ps ++ addLine env [] s := by
  rw [addLine_eq, addLine_eq, List.nil_append]
  cases hp : linePattern env s with
  | some p =>
    cases lineModifier s with
    | none => rfl
    | some f =>
      show modifyLast f (ps ++ [p]) = ps ++ modifyLast f [p]
      rw [modifyLast_concat]
      rfl
  | none =>
    cases hm : lineModifier s with
    | none => rfl
    | some f =>
      obtain rfl := h ⟨hp, by rw [hm]; rfl⟩
      rfl

/-- A line that makes no pattern installs none. -/
theorem addLine_nil_iff {env : Env} {s : Str} :
    addLine env [] s = [] ↔ linePattern env s = none := by
  rw [addLine_eq, List.nil_append]
  cases linePattern env s with
  | none =>
    refine iff_of_true ?_ rfl
    cases lineModifier s <;> rfl
  | some p =>
    refine iff_of_false ?_ nofun
    cases lineModifier s with
    | none => exact List.cons_ne_nil p []
    | some f => exact List.cons_ne_nil (f p) []

/-- A stray modifier is one more. -/
theorem wraps_stray {env : Env} {ps : List Pattern} {s : Str} (h : Stray env s) (hne : ps ≠ []) :
    wraps (addLine env ps s) = wraps ps + wraps (addLine env [] s) + 1 := by
  obtain ⟨hp, hm⟩ := h
  obtain ⟨f, hf⟩ := Option.isSome_iff_exists.mp hm
  obtain rfl | ⟨ps, p, rfl⟩ := List.eq_nil_or_concat ps
  · exact absurd rfl hne
  rw [addLine_nil_iff.2 hp, addLine_eq, hp, hf]
  rw [List.concat_eq_append]
  show wraps (modifyLast f (ps ++ [p] ++ [])) = _
  rw [List.append_nil, modifyLast_concat, wraps_append, wraps_append]
  simp [wraps, wraps_lineModifier hf p]
  omega

theorem wraps_addLine_le (env : Env) (ps : List Pattern) (s : Str) :
    wraps ps + wraps (addLine env [] s) ≤ wraps (addLine env ps s) := by
  by_cases h : Stray env s → ps = []
  · rw [addLine_own h, wraps_append]
  · rw [Classical.not_imp] at h
    rw [wraps_stray h.1 h.2]
    omega

/-- No line takes a modifier away. -/
theorem wraps_foldl_le (env : Env) (lines : List Str) : ∀ ps : List Pattern,
    wraps ps + wraps (lines.flatMap (addLine env [])) ≤ wraps (lines.foldl (addLine env) ps) := by
  induction lines with
  | nil =>
    intro ps
    simp [wraps]
  | cons s lines ih =>
    intro ps
    have hstep := wraps_addLine_le env ps s
    have hrest := ih (addLine env ps s)
    rw [List.flatMap_cons, wraps_append, List.foldl_cons]
    omega

/-! ## All lines -/

/-- No line has a stray modifier behind a pattern. -/
def NoStray (env : Env) (ps : List Pattern) (lines : List Str) : Prop :=
  ∀ before s after, lines = before ++ s :: after → Stray env s →
    ps = [] ∧ ∀ l ∈ before, linePattern env l = none

theorem foldl_addLine_iff (env : Env) (lines : List Str) : ∀ ps : List Pattern,
    lines.foldl (addLine env) ps = ps ++ lines.flatMap (addLine env []) ↔
      NoStray env ps lines := by
  induction lines with
  | nil =>
    intro ps
    refine iff_of_true (by simp) ?_
    intro before s after h
    simp at h
  | cons s lines ih =>
    intro ps
    by_cases h : Stray env s → ps = []
    · have hsame := ih (ps ++ addLine env [] s)
      rw [List.foldl_cons, addLine_own h, List.flatMap_cons, ← List.append_assoc, hsame]
      constructor
      · intro hno before s' after heq hstray
        cases before with
        | nil =>
          obtain ⟨rfl, -⟩ := List.cons.inj heq
          exact ⟨h hstray, fun l hl => absurd hl List.not_mem_nil⟩
        | cons l before =>
          obtain ⟨rfl, htail⟩ := List.cons.inj heq
          obtain ⟨hnil, hbefore⟩ := hno before s' after htail hstray
          obtain ⟨hps, hs⟩ := List.append_eq_nil_iff.mp hnil
          exact ⟨hps, List.forall_mem_cons.mpr ⟨addLine_nil_iff.1 hs, hbefore⟩⟩
      · intro hno before s' after heq hstray
        obtain ⟨hps, hbefore⟩ := hno (s :: before) s' after (by rw [heq]; rfl) hstray
        rw [List.forall_mem_cons] at hbefore
        exact ⟨List.append_eq_nil_iff.mpr ⟨hps, addLine_nil_iff.2 hbefore.1⟩, hbefore.2⟩
    · rw [Classical.not_imp] at h
      refine iff_of_false (fun heq => ?_) (fun hno => h.2 (hno [] s lines rfl h.1).1)
      -- the modifiers are too many from here on
      have hcount := congrArg wraps heq
      have hstray := wraps_stray h.1 h.2
      have hrest := wraps_foldl_le env lines (addLine env ps s)
      rw [List.foldl_cons, List.flatMap_cons, wraps_append, wraps_append] at hcount
      omega

/-! ## Configurations -/

/-- The lines of a configuration. -/
def linesOf (fileredirect : Str) : List Str := splitOn '\n' fileredirect

theorem untab_lines (fileredirect : Str) :
    splitOn '\n' (untab fileredirect) = (linesOf fileredirect).map untab := by
  refine Lib.splitOn_map (fun c => ?_) fileredirect
  split
  next h =>
    rw [h]
    decide
  next => exact Iff.rfl

/-- A line installs what it makes alone. -/
theorem start_line (env : Env) {fileredirect s : Str} (h : s ∈ linesOf fileredirect) :
    start env s = addLine env [] (untab s) := by
  have hone : linesOf s = [s] := List.splitOn_eq_singleton (Lib.not_mem_of_mem_splitOn h)
  rw [start, untab_lines, hone]
  rfl

/-- No line that makes no pattern has a modifier that does something, unless no line before it
makes a pattern; and no line that makes a pattern has a modifier that does nothing. -/
def Orderly (env : Env) (fileredirect : Str) : Prop :=
  (∀ before s after, linesOf fileredirect = before ++ s :: after → Stray env (untab s) →
    ∀ l ∈ before, linePattern env (untab l) = none) ∧
  ∀ s ∈ linesOf fileredirect, linePattern env (untab s) ≠ none →
    (writtenModifier (untab s)).isSome → (lineModifier (untab s)).isSome

/-- A configuration is what its lines are alone, and the lines that are rejected are nothing, if it
is orderly, and only then. -/
theorem start_lines_iff (env : Env) (fileredirect : Str) :
    (start env fileredirect = (linesOf fileredirect).flatMap (start env) ∧
      ∀ s ∈ linesOf fileredirect, Rejected env (untab s) → start env s = []) ↔
    Orderly env fileredirect := by
  have hflat : (linesOf fileredirect).flatMap (start env) =
      ((linesOf fileredirect).map untab).flatMap (addLine env []) := by
    rw [List.flatMap_map]
    exact List.flatMap_congr fun s hs => start_line env hs
  have hall := foldl_addLine_iff env ((linesOf fileredirect).map untab) []
  rw [List.nil_append] at hall
  refine and_congr ?_ ?_
  · rw [hflat, start, untab_lines, hall]
    constructor
    · intro hno before s after heq hstray l hl
      have hbefore := (hno (before.map untab) (untab s) (after.map untab)
        (by rw [heq, List.map_append, List.map_cons]) hstray).2
      exact hbefore (untab l) (List.mem_map_of_mem hl)
    · intro horder before s after heq hstray
      obtain ⟨before, rest, hlines, rfl, hrest⟩ := List.map_eq_append_iff.mp heq
      obtain ⟨s, after, rfl, rfl, rfl⟩ := List.map_eq_cons_iff.mp hrest
      refine ⟨rfl, List.forall_mem_map.mpr ?_⟩
      exact horder before s after hlines hstray
  · refine forall_congr' fun s => forall_congr' fun hs => ?_
    rw [start_line env hs, addLine_nil_iff]
    unfold Rejected
    cases linePattern env (untab s) with
    | none => simp
    | some p =>
      have hsome := (lineModifier (untab s)).isSome_iff_ne_none
      simp [hsome]

/-- The modifier of a line with an unknown keyword is for the pattern before it. -/
theorem start_stray_modifier :
    let env : Env := ⟨fun _ => none, fun _ _ => false⟩
    let fileredirect := "exact /a /b\nbad[host] /x /y".toList
    let first : Pattern := .exactMatch "/a".toList "/b".toList
    start env fileredirect = [.hostModifier first] ∧
      (linesOf fileredirect).map (start env) = [[first], []] := by
  decide +kernel

end Caudium.Redirect
