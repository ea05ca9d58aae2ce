import Caudium.Psp.Compiler

/-!
# What a text block renders to (`TextBlock`)

`render` writes an `out->add("...")` for each line of the text, with backslashes, quotes and
newlines escaped. The loop of `escape_string` keeps the place behind the last newline;
`escapeLoop_eq` says that it goes over the lines of the text. `readString` reads a literal the way
Pike does, and what is read in the literals of a block is its text again (`render_literals`).
-/

namespace Caudium.Psp

open Lib (Str search_char search_char_none)
open Http (slice)

/-! ## The loop of `escape_string` -/

/-- The `out->add` of a line. -/
def outAdd (cl : Nat) (filename literal : Str) : Str :=
  lineDirective cl filename ++ " out->add(\"".toList ++ literal ++ "\");\n".toList

/-- The line at `current`, `atend`, and `current` after it. -/
def lineAt (c : Str) (current : Nat) : Str × Bool × Nat :=
  match searchFrom c ['\n'] current with
  | some stop =>
    (slice c current (stop + 1), decide (stop + 1 = c.length),
      if stop + 1 = c.length then current else stop + 1)
  | none => (c.drop current, true, current)

/-- The loop of `escape_string`, for at most so many turns. -/
def escapeLoop (c filename : Str) : Nat → Nat → Nat → Str
  | 0, _, _ => []
  | n + 1, current, cl =>
    let (line, atend, next) := lineAt c current
    let line := escapeLine line
    let written := if line ≠ [] then outAdd cl filename line else []
    let cl := if line ≠ [] then cl + 1 else cl
    if atend then written else written ++ escapeLoop c filename n next cl

theorem linesOf_newline {a : Str} (ha : '\n' ∉ a) (rest : Str) :
    linesOf (a ++ '\n' :: rest) = (a ++ ['\n']) :: linesOf rest := by
  induction a with
  | nil => rw [List.nil_append, linesOf, if_pos rfl]; rfl
  | cons c a ih =>
    rw [List.mem_cons, not_or] at ha
    rw [List.cons_append, linesOf, if_neg (Ne.symm ha.1), ih ha.2]
    rfl

theorem linesOf_last {a : Str} (ha : '\n' ∉ a) : linesOf a = if a = [] then [] else [a] := by
  induction a with
  | nil => rfl
  | cons c a ih =>
    rw [List.mem_cons, not_or] at ha
    rw [linesOf, if_neg (Ne.symm ha.1), ih ha.2, if_neg (List.cons_ne_nil c a)]
    by_cases hnil : a = []
    · rw [if_pos hnil, hnil]
    · rw [if_neg hnil]

theorem escapeLine_eq_nil {line : Str} : escapeLine line = [] ↔ line = [] := by
  constructor
  · intro h
    cases line with
    | nil => rfl
    | cons c line =>
      rw [escapeLine, List.flatMap_cons, List.append_eq_nil_iff] at h
      have hc := h.1
      split_ifs at hc
  · intro heq
    subst heq
    rfl

theorem escapeLines_cons (filename : Str) (cl : Nat) (line : Str) (rest : List Str) :
    escapeLines filename cl (line :: rest) =
      outAdd cl filename (escapeLine line) ++ escapeLines filename (cl + 1) rest := rfl

/-- The lines behind `current` are those the loop writes. -/
theorem escapeLoop_eq (c filename : Str) (n : Nat) :
    ∀ current cl, c.length < current + n → current ≤ c.length →
      escapeLoop c filename n current cl = escapeLines filename cl (linesOf (c.drop current)) := by
  induction n with
  | zero => omega
  | succ n ih =>
    intro current cl hn hle
    rw [escapeLoop, lineAt]
    by_cases hmem : '\n' ∈ c.drop current
    · obtain ⟨a, rest, hdrop, ha⟩ := List.eq_append_cons_of_mem hmem
      have hsearch : searchFrom c ['\n'] current = some (current + a.length) := by
        rw [searchFrom, hdrop, search_char ha, Option.map_some, Nat.add_comm]
      have hline : slice c current (current + a.length + 1) = a ++ ['\n'] := by
        have hpre : c.drop current = (a ++ ['\n']) ++ rest := by
          rw [hdrop, List.append_assoc]
          rfl
        have hslice := Http.slice_of_drop hpre
        rwa [List.length_append] at hslice
      have hlen : c.length = current + a.length + 1 + rest.length := by
        have hdrop := congrArg List.length hdrop
        rw [List.length_drop, List.length_append, List.length_cons] at hdrop
        omega
      have hrest : c.drop (current + a.length + 1) = rest := by
        rw [Nat.add_assoc, ← List.drop_drop, hdrop, List.drop_append, Nat.add_sub_cancel_left,
          List.drop_of_length_le (Nat.le_succ _)]
        rfl
      have hne : escapeLine (a ++ ['\n']) ≠ [] := fun h => by
        simpa using escapeLine_eq_nil.1 h
      rw [hsearch, hdrop, linesOf_newline ha, escapeLines_cons]
      dsimp only
      rw [hline, if_pos hne, if_pos hne]
      by_cases hlast : current + a.length + 1 = c.length
      · -- the newline is the last character
        have hnil : rest = [] := List.eq_nil_of_length_eq_zero (by omega)
        rw [decide_eq_true hlast, if_pos rfl, hnil]
        exact (List.append_nil _).symm
      · rw [decide_eq_false hlast, if_neg Bool.false_ne_true, if_neg hlast,
          ih _ _ (by omega) (by omega), hrest]
    · have hsearch : searchFrom c ['\n'] current = none := by
        rw [searchFrom, search_char_none hmem]
        rfl
      rw [hsearch, linesOf_last hmem]
      dsimp only
      rw [if_pos rfl]
      by_cases hnil : c.drop current = []
      · rw [hnil, if_pos rfl, if_neg (not_not.mpr (escapeLine_eq_nil.2 rfl))]
        rfl
      · rw [if_neg hnil, if_pos (mt escapeLine_eq_nil.1 hnil), escapeLines_cons]
        exact (List.append_nil _).symm

/-- `escape_string` is its loop. -/
theorem escapeString_eq (b : Block) :
    b.escapeString = escapeLoop b.contents b.filename (b.contents.length + 1) 0 b.start := by
  rw [escapeLoop_eq b.contents b.filename _ 0 b.start (by omega) (Nat.zero_le _)]
  rfl

/-! ## Pike string literals -/

/-- What a backslash and this character stand for; a digit, an `x`, `d`, `u` or `U` would start a
number. -/
def namedEscape (c : Char) : Option Char :=
  match c with
  | 'n' => some '\n'
  | 't' => some '\t'
  | 'r' => some '\r'
  | 'a' => some '\x07'
  | 'b' => some '\x08'
  | 'v' => some '\x0b'
  | 'f' => some '\x0c'
  | 'e' => some '\x1b'
  | 'x' | 'd' | 'u' | 'U' => none
  | c => if c.isDigit then none else some c

/-- A string literal, read from behind its first quote on: the string and what follows the last
quote. A newline in a literal is an error. -/
def readString : Str → Option (Str × Str)
  | [] => none
  | '"' :: rest => some ([], rest)
  | '\n' :: _ => none
  | '\\' :: c :: rest =>
    match namedEscape c, readString rest with
    | some d, some (value, rest) => some (d :: value, rest)
    | _, _ => none
  | c :: rest => (readString rest).map fun r => (c :: r.1, r.2)

/-- An escaped line is read back. -/
theorem readString_escapeLine (line rest : Str) :
    readString (escapeLine line ++ '"' :: rest) = some (line, rest) := by
  induction line with
  | nil => rfl
  | cons c line ih =>
    have hcons : escapeLine (c :: line) =
        (if c = '\\' then ['\\', '\\'] else if c = '"' then ['\\', '"']
          else if c = '\n' then ['\\', 'n'] else [c]) ++ escapeLine line := List.flatMap_cons
    rw [hcons, List.append_assoc]
    by_cases hslash : c = '\\'
    · subst hslash
      simp [readString, ih, namedEscape]
    by_cases hquote : c = '"'
    · subst hquote
      simp [readString, ih, namedEscape]
    by_cases hnewline : c = '\n'
    · subst hnewline
      simp [readString, ih, namedEscape]
    simp [hslash, hquote, hnewline, readString, ih]

/-! ## The literals of a block -/

/-- The `out->add` of literals, one for each line. -/
def outAdds (filename : Str) : Nat → List Str → Str
  | _, [] => []
  | cl, literal :: rest => outAdd cl filename literal ++ outAdds filename (cl + 1) rest

/-- `render` of a block is an `out->add` for each of some literals, and what is read in them is
its text. -/
def Block.RendersTo (b : Block) (text : Str) : Prop :=
  ∃ literals values : List Str,
    b.render = "\x7b\n".toList ++ outAdds b.filename b.start literals ++ "\x7d\n".toList ∧
    List.Forall₂ (fun literal value => ∀ rest,
      readString (literal ++ '"' :: rest) = some (value, rest)) literals values ∧
    values.flatten = text

theorem flatten_linesOf (s : Str) : (linesOf s).flatten = s := by
  induction s with
  | nil => rfl
  | cons c s ih =>
    rw [linesOf]
    split
    next => rw [List.flatten_cons, ih]; rfl
    next =>
      split
      next hnil => rw [hnil] at ih; rw [← ih]; rfl
      next line rest hlines => rw [hlines] at ih; rw [← ih]; rfl

theorem escapeLines_eq (filename : Str) (cl : Nat) (lines : List Str) :
    escapeLines filename cl lines = outAdds filename cl (lines.map escapeLine) := by
  induction lines generalizing cl with
  | nil => rfl
  | cons line rest ih => rw [escapeLines_cons, ih]; rfl

/-- The literals of a text block are read as its text. -/
theorem render_literals {b : Block} (h : b.kind = .text) : b.RendersTo b.contents := by
  refine ⟨(linesOf b.contents).map escapeLine, linesOf b.contents, ?_, ?_, flatten_linesOf _⟩
  · have htype : b.getType = .text := by rw [Block.getType, h]
    rw [Block.render, htype, ← escapeLines_eq]
    rfl
  · rw [List.forall₂_map_left_iff]
    exact List.forall₂_same.mpr fun line _ => readString_escapeLine line

end Caudium.Psp
