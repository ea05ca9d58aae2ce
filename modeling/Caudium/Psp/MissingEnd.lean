import Caudium.Psp.Blocks

/-!
# The error for a tag that is not closed

`psp_to_blocks` has two errors of its own, one for nested tags and one for a missing end, and
tests before it raises them. Here its loop is written with these tests (`checkedTurn`). None is
ever true (`checkedTurn_eq`): `find_end` has no -1, and `in_tag` is 0 again when it is looked at.
So a page with a tag that is not closed gets no error; if the tag is not the first thing on the
page, the loop goes on forever.
-/

namespace Caudium.Psp

open Lib (Str whileLoop whileLoop_live whileLoop_stop)
open Http (slice)

variable {file realfile : Str}

/-! ## The loop with its errors -/

inductive FormatError
  /-- "invalid format: nested tags!\n" -/
  | nestedTags
  /-- "invalid format: missing end tag.\n" -/
  | missingEnd
  deriving DecidableEq

/-- The variables of `psp_to_blocks`, `in_tag` with them. -/
structure TagScan where
  scan : Scan
  inTag : Bool

/-- One turn of the loop. -/
def TagScan.checkedTurn (file realfile : Str) (t : TagScan) : Except FormatError TagScan :=
  match searchFrom file ['<', '%'] t.scan.sp with
  | none =>
    let s := { t.scan with sp := file.length }
    .ok { t with scan := if s.oldSp ≠ s.sp then s.add .text (slice file s.oldSp s.sp) realfile
      else s }
  | some sp =>
    if t.inTag then .error .nestedTags
    else
      let s := t.scan.add .text (slice file t.scan.oldSp sp) realfile
      if sp = 0 ∨ file[sp - 1]? ≠ some '<' then
        let stop : Int := findEnd file sp
        if stop = -1 then .error .missingEnd
        else
          let s := s.add .pike (slice file sp (stop.toNat + 1)) realfile
          .ok { scan := { s with sp := stop.toNat + 1, oldSp := stop.toNat + 1 }, inTag := false }
      else .ok { t with scan := { s with sp := sp + 2 } }

/-- How `psp_to_blocks` ends in at most so many turns; `none` where it is still running. -/
def scanTurns (file realfile : Str) : Nat → TagScan → Option (Except FormatError (List Block))
  | 0, _ => none
  | n + 1, t =>
    match t.checkedTurn file realfile with
    | .error e => some (.error e)
    | .ok t => if t.scan.live file then scanTurns file realfile n t else some (.ok t.scan.contents)

def TagScan.init : TagScan := { scan := .init, inTag := false }

/-- `psp_to_blocks` comes to an end. -/
def Terminates (file realfile : Str) : Prop :=
  ∃ n r, scanTurns file realfile n .init = some r

/-- `psp_to_blocks` raises the error. -/
def Raises (e : FormatError) (file realfile : Str) : Prop :=
  ∃ n, scanTurns file realfile n .init = some (.error e)

/-- There is an unescaped `<%` and no `%>` behind it that counts. -/
def Unended (f : Str) : Prop := ∃ q, StartsAt f q ∧ ∀ p, q ≤ p → ¬ EndsAt f p

/-! ## No error -/

/-- Outside tags, a turn raises nothing and is the turn without the tests. -/
theorem checkedTurn_eq (s : Scan) :
    TagScan.checkedTurn file realfile { scan := s, inTag := false } =
      .ok { scan := s.turn file realfile, inTag := false } := by
  unfold TagScan.checkedTurn Scan.turn
  dsimp only
  cases searchFrom file ['<', '%'] s.sp with
  | none => rfl
  | some sp =>
    dsimp only
    rw [if_neg Bool.false_ne_true]
    by_cases hstart : sp = 0 ∨ file[sp - 1]? ≠ some '<'
    · -- what `find_end` gives is never negative
      have hpos : ¬ ((findEnd file sp : Int) = -1) := by omega
      rw [if_pos hstart, if_pos hstart, if_neg hpos]
      rfl
    · rw [if_neg hstart, if_neg hstart]

theorem scanTurns_succ (n : Nat) (s : Scan) :
    scanTurns file realfile (n + 1) { scan := s, inTag := false } =
      let t := whileLoop (Scan.live file) (Scan.turn file realfile) n (s.turn file realfile)
      if t.live file then none else some (.ok t.contents) := by
  induction n generalizing s with
  | zero =>
    rw [scanTurns, checkedTurn_eq]
    rfl
  | succ n ih =>
    rw [scanTurns, checkedTurn_eq]
    dsimp only
    cases hlive : (s.turn file realfile).live file with
    | false =>
      rw [whileLoop_stop hlive, hlive]
      rfl
    | true => rw [if_pos rfl, ih, whileLoop_live hlive]

/-- After as many turns as there are characters the loop has ended, or goes on forever. -/
theorem scanTurns_eq :
    scanTurns file realfile (file.length + 1) .init = (pspToBlocks file realfile).map .ok := by
  rw [TagScan.init, scanTurns_succ, pspToBlocks]
  dsimp only
  split <;> rfl

theorem not_raises (e : FormatError) : ¬ Raises e file realfile := by
  intro h
  obtain ⟨n, hn⟩ := h
  cases n with
  | zero => cases hn
  | succ n =>
    rw [TagScan.init, scanTurns_succ] at hn
    dsimp only at hn
    split at hn <;> cases hn

/-- The loop ends unless a tag behind the first character is not closed. -/
theorem terminates_iff : Terminates file realfile ↔ ¬ Unclosed file := by
  constructor
  · intro h hopen
    obtain ⟨n, r, hr⟩ := h
    cases n with
    | zero => cases hr
    | succ n =>
      rw [TagScan.init, scanTurns_succ] at hr
      dsimp only at hr
      rw [if_pos (unclosed_forever hopen n)] at hr
      cases hr
  · intro hclosed
    obtain ⟨blocks, hblocks⟩ := Option.ne_none_iff_exists'.mp
      (mt (@pspToBlocks_eq_none_iff file realfile).mp hclosed)
    refine ⟨file.length + 1, .ok blocks, ?_⟩
    rw [scanTurns_eq, hblocks]
    rfl

/-- **When the scanner ends as it should.** `psp_to_blocks` comes to an end and raises the error
for a missing end exactly on the pages with a tag that is not closed: this is so if and only if
the page has no such tag. -/
theorem ends_and_reports_iff (file realfile : Str) :
    (Terminates file realfile ∧ (Raises .missingEnd file realfile ↔ Unended file)) ↔
      ¬ Unended file := by
  constructor
  · intro h hopen
    obtain ⟨-, hraises⟩ := h
    exact not_raises _ (hraises.mpr hopen)
  · intro hclosed
    refine ⟨terminates_iff.2 ?_, iff_of_false (not_raises _) hclosed⟩
    intro h
    obtain ⟨q, -, hstart, hno⟩ := h
    exact hclosed ⟨q, hstart, hno⟩

/-- A page that was saved half-way, "a<%", is scanned forever. -/
theorem half_page_forever :
    ¬ ∀ file realfile : Str,
      Terminates file realfile ∧ (Raises .missingEnd file realfile ↔ Unended file) := by
  intro h
  refine terminates_iff.1 (h "a<%".toList []).1 ⟨1, by decide, ⟨by decide, Or.inr (by decide)⟩, ?_⟩
  intro p hp hends
  obtain ⟨hpercent, hgt⟩ := pair_at.mp hends.1
  have hlt := (List.getElem?_eq_some_iff.mp hgt).1
  have hlen : "a<%".toList.length = 3 := rfl
  obtain rfl : p = 1 := by omega
  exact absurd hpercent (by decide)

end Caudium.Psp
