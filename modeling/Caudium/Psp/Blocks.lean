import Caudium.Http.ParseHeaders
import Caudium.Lib.Loop
import Caudium.Lib.Search

/-!
# The pieces of a PSP page (`PSPCompiler.pike`, `psp_to_blocks`)

A page is text with pieces of Pike between `<%` and `%>`. A tag that is not closed is answered
by `find_end` with 0, where `psp_to_blocks` tests for -1, so the scan goes back to the second
character of the page. Unless the tag is the first thing on the page it is found again, over
and over: the scan ends on exactly the pages where every tag but the first character's is
closed (`pspToBlocks_eq_none_iff`, `unclosed_forever`).
-/

namespace Caudium.Psp

open Lib (Str search search_eq_some search_eq_none whileLoop whileLoop_stop whileLoop_live
  whileLoop_enough runLoop_done Falls)
open Http (slice)

/-- The subclasses of `Block`. -/
inductive BlockKind
  | text
  | pike
  deriving DecidableEq

structure Block where
  kind : BlockKind
  contents : Str
  filename : Str
  /-- `start`, the line the block begins in. -/
  start : Nat
  /-- `end` -/
  stop : Nat
  deriving DecidableEq

/-- `search(s, pat, start)` -/
def searchFrom (s pat : Str) (start : Nat) : Option Nat :=
  (search (s.drop start) pat).map (· + start)

/-- `s[p-1]`; for `p = 0` that is the last character. -/
def charBefore (s : Str) (p : Nat) : Option Char := if p = 0 then s.getLast? else s[p - 1]?

/-- `sizeof(s) - sizeof(s-"\n")` -/
def newlines (s : Str) : Nat := s.count '\n'

/-- The loop of `find_end`. -/
def findEndLoop (f : Str) : Nat → Nat → Nat
  | 0, _ => 0
  | n + 1, start =>
    match searchFrom f ['%', '>'] start with
    | none => 0
    | some p => if charBefore f p = some '%' then findEndLoop f n (start + 2) else p + 1

/-- `find_end`: where the tag at `start` ends. There are no more turns than characters. -/
def findEnd (f : Str) (start : Nat) : Nat := findEndLoop f f.length start

/-- The variables of `psp_to_blocks`. -/
structure Scan where
  sp : Nat
  oldSp : Nat
  startLine : Nat
  contents : List Block

namespace Scan

def init : Scan := { sp := 0, oldSp := 0, startLine := 1, contents := [] }

/-- A new block, and the line it ends in. -/
def add (s : Scan) (kind : BlockKind) (text realfile : Str) : Scan :=
  { s with
    startLine := s.startLine + newlines text
    contents := s.contents ++
      [{ kind, contents := text, filename := realfile, start := s.startLine
         stop := s.startLine + newlines text }] }

/-- One turn of the loop. `in_tag` is back at 0 before the next turn looks at it, and `find_end`
is never -1, so neither of the two errors is ever raised. -/
def turn (file realfile : Str) (s : Scan) : Scan :=
  match searchFrom file ['<', '%'] s.sp with
  | none =>
    let s := { s with sp := file.length }
    if s.oldSp ≠ s.sp then s.add .text (slice file s.oldSp s.sp) realfile else s
  | some sp =>
    let s := s.add .text (slice file s.oldSp sp) realfile
    if sp = 0 ∨ file[sp - 1]? ≠ some '<' then
      let stop := findEnd file sp
      let s := s.add .pike (slice file sp (stop + 1)) realfile
      { s with sp := stop + 1, oldSp := stop + 1 }
    else
      -- the start was escaped; what stands before it is text already
      { s with sp := sp + 2 }

def live (file : Str) (s : Scan) : Bool := s.sp < file.length

end Scan

/-- `psp_to_blocks`: a loop with the test at its end. `none` where it is still running after as
many turns as there are characters: then it runs forever (`unclosed_forever`). -/
def pspToBlocks (file realfile : Str) : Option (List Block) :=
  let s := whileLoop (Scan.live file) (Scan.turn file realfile) file.length
    (Scan.init.turn file realfile)
  if s.live file then none else some s.contents

/-! ## Searching -/

theorem searchFrom_some {s pat : Str} {start p : Nat} (h : searchFrom s pat start = some p) :
    start ≤ p ∧ pat <+: s.drop p ∧ ∀ j, start ≤ j → j < p → ¬ pat <+: s.drop j := by
  obtain ⟨i, hi, rfl⟩ := Option.map_eq_some_iff.mp h
  obtain ⟨hat, hbefore⟩ := search_eq_some.mp hi
  rw [List.drop_drop] at hat
  refine ⟨Nat.le_add_left start i, Nat.add_comm start i ▸ hat, fun j hj hlt hp => ?_⟩
  refine hbefore (j - start) (by omega) ?_
  rwa [List.drop_drop, Nat.add_sub_cancel' hj]

theorem searchFrom_none {s pat : Str} {start : Nat} (h : searchFrom s pat start = none) :
    ∀ j, start ≤ j → ¬ pat <+: s.drop j := by
  intro j hj hp
  refine search_eq_none.mp (Option.map_eq_none_iff.mp h) (j - start) ?_
  rwa [List.drop_drop, Nat.add_sub_cancel' hj]

theorem pair_at {s : Str} {a b : Char} {p : Nat} :
    [a, b] <+: s.drop p ↔ s[p]? = some a ∧ s[p + 1]? = some b := by
  have h0 : s[p]? = (s.drop p)[0]? := by rw [List.getElem?_drop, Nat.add_zero]
  have h1 : s[p + 1]? = (s.drop p)[1]? := by rw [List.getElem?_drop]
  rw [h0, h1]
  cases s.drop p with
  | nil => simp
  | cons c t =>
    cases t with
    | nil => simp
    | cons d t => simp [List.cons_prefix_cons, eq_comm]

/-! ## Tags -/

/-- A tag starts here: `<%`, not escaped by a `<` before it. -/
def StartsAt (f : Str) (q : Nat) : Prop :=
  ['<', '%'] <+: f.drop q ∧ (q = 0 ∨ f[q - 1]? ≠ some '<')

/-- A tag may end here: `%>`, not escaped by a `%` before it. -/
def EndsAt (f : Str) (p : Nat) : Prop := ['%', '>'] <+: f.drop p ∧ charBefore f p ≠ some '%'

/-- There is a tag behind the first character that nothing ends. -/
def Unclosed (f : Str) : Prop := ∃ q, 1 ≤ q ∧ StartsAt f q ∧ ∀ p, q ≤ p → ¬ EndsAt f p

theorem StartsAt.lt {f : Str} {q : Nat} (h : StartsAt f q) : q + 2 ≤ f.length := by
  have hsecond := (pair_at.1 h.1).2
  have hlt := (List.getElem?_eq_some_iff.mp hsecond).1
  omega

/-- Two ends do not overlap. -/
theorem ends_apart {f : Str} {p r : Nat} (hp : ['%', '>'] <+: f.drop p)
    (hr : ['%', '>'] <+: f.drop r) (hlt : p < r) : p + 2 ≤ r := by
  refine Nat.lt_of_le_of_ne hlt fun heq => ?_
  have hgt := (pair_at.1 hp).2
  have hpercent := (pair_at.1 hr).1
  rw [← heq, hgt] at hpercent
  simp at hpercent

theorem findEndLoop_spec (f : Str) (n start : Nat) (hn : f.length ≤ start + n) :
    (∃ p, start ≤ p ∧ EndsAt f p ∧ findEndLoop f n start = p + 1) ∨
      (∀ p, start ≤ p → ¬ EndsAt f p) ∧ findEndLoop f n start = 0 := by
  induction n generalizing start with
  | zero =>
    refine Or.inr ⟨fun p hp hends => ?_, rfl⟩
    have hlt := (List.getElem?_eq_some_iff.mp (pair_at.1 hends.1).1).1
    omega
  | succ n ih =>
    rw [findEndLoop]
    split
    next hnone => exact Or.inr ⟨fun p hp hends => searchFrom_none hnone p hp hends.1, rfl⟩
    next p hsome =>
      obtain ⟨hle, hat, hbefore⟩ := searchFrom_some hsome
      split
      next hescaped =>
        -- two further on there is still every end that counts
        have hskip : ∀ r, start ≤ r → EndsAt f r → start + 2 ≤ r := by
          intro r hr hends
          have hne : p ≠ r := by
            intro h
            subst h
            exact hends.2 hescaped
          rcases Nat.lt_or_ge p r with hlt | hge
          · have hapart := ends_apart hat hends.1 hlt
            omega
          · exact absurd hends.1 (hbefore r hr (by omega))
        rcases ih (start + 2) (by omega) with ⟨r, hr, hends, heq⟩ | ⟨hno, heq⟩
        · exact Or.inl ⟨r, by omega, hends, heq⟩
        · exact Or.inr ⟨fun r hr hends => hno r (hskip r hr hends) hends, heq⟩
      next hends => exact Or.inl ⟨p, hle, ⟨hat, hends⟩, rfl⟩

/-- `find_end` finds an end that counts, or answers 0 as there is none. -/
theorem findEnd_spec (f : Str) (start : Nat) :
    (∃ p, start ≤ p ∧ EndsAt f p ∧ findEnd f start = p + 1) ∨
      (∀ p, start ≤ p → ¬ EndsAt f p) ∧ findEnd f start = 0 :=
  findEndLoop_spec f f.length start (by omega)

/-! ## How far a turn comes -/

namespace Scan

variable {file : Str} (realfile : Str)

/-- Where a turn leaves `sp`, by what it found. -/
inductive Moves (file : Str) (sp sp' : Nat) : Prop
  | text (hnone : ∀ j, sp ≤ j → ¬ ['<', '%'] <+: file.drop j) (h : sp' = file.length)
  | escaped {q : Nat} (hle : sp ≤ q) (hat : ['<', '%'] <+: file.drop q) (hnot : ¬ StartsAt file q)
    (hbefore : ∀ j, sp ≤ j → j < q → ¬ ['<', '%'] <+: file.drop j) (h : sp' = q + 2)
  | closed {q p : Nat} (hle : sp ≤ q) (hat : StartsAt file q)
    (hbefore : ∀ j, sp ≤ j → j < q → ¬ ['<', '%'] <+: file.drop j) (hqp : q ≤ p)
    (hends : EndsAt file p) (h : sp' = p + 2)
  | unclosed {q : Nat} (hle : sp ≤ q) (hat : StartsAt file q)
    (hno : ∀ p, q ≤ p → ¬ EndsAt file p) (h : sp' = 1)

theorem moves_turn (s : Scan) : Moves file s.sp (s.turn file realfile).sp := by
  unfold turn
  split
  next hnone =>
    dsimp only
    split
    · exact .text (searchFrom_none hnone) rfl
    · exact .text (searchFrom_none hnone) rfl
  next q hsome =>
    obtain ⟨hle, hat, hbefore⟩ := searchFrom_some hsome
    dsimp only
    split
    next hstart =>
      rcases findEnd_spec file q with ⟨p, hqp, hends, heq⟩ | ⟨hno, heq⟩
      · exact .closed hle ⟨hat, hstart⟩ hbefore hqp hends (congrArg (· + 1) heq)
      · exact .unclosed hle ⟨hat, hstart⟩ hno (congrArg (· + 1) heq)
    next hescaped => exact .escaped hle hat (fun h => hescaped h.2) hbefore rfl

/-- A tag that nothing ends is not passed. -/
theorem turn_le {q : Nat} (hq : 1 ≤ q) (hstart : StartsAt file q)
    (hopen : ∀ p, q ≤ p → ¬ EndsAt file p) (s : Scan) (h : s.sp ≤ q) :
    (s.turn file realfile).sp ≤ q := by
  have hpercent := (pair_at.1 hstart.1).1
  cases @moves_turn file realfile s with
  | text hnone heq => exact absurd hstart.1 (hnone q h)
  | @escaped r hle hat hnot hbefore heq =>
    have hrq : r < q := by
      refine Nat.lt_of_le_of_ne ?_ (fun hr => hnot (hr ▸ hstart))
      exact Nat.le_of_not_lt fun hlt => hbefore q h hlt hstart.1
    -- the second character of the escaped start is not the first of this one
    have hne : r + 1 ≠ q := by
      intro hcase
      subst hcase
      rw [(pair_at.1 hat).2] at hpercent
      simp at hpercent
    omega
  | @closed r p hle hat hbefore hrp hends heq =>
    have hpq : p < q := Nat.lt_of_not_le fun hqp => hopen p hqp hends
    have hne : p + 1 ≠ q := by
      intro hcase
      subst hcase
      rw [(pair_at.1 hends.1).2] at hpercent
      simp at hpercent
    omega
  | unclosed hle hat hno heq => omega

/-- Where every tag is closed, each turn gets further. -/
theorem turn_lt (hclosed : ¬ Unclosed file) (s : Scan) (hlive : s.live file = true) :
    s.sp < (s.turn file realfile).sp := by
  have hlt : s.sp < file.length := by simpa [live] using hlive
  cases @moves_turn file realfile s with
  | text hnone heq => omega
  | escaped hle hat hnot hbefore heq => omega
  | closed hle hat hbefore hqp hends heq => omega
  | @unclosed q hle hat hno heq =>
    have hzero : q = 0 := Nat.eq_zero_of_not_pos fun hpos => hclosed ⟨q, hpos, hat, hno⟩
    omega

theorem falls_turn (hclosed : ¬ Unclosed file) :
    Falls (live file) (turn file realfile) (fun s => file.length - s.sp) where
  pos s hlive := by
    have hlt : s.sp < file.length := by simpa [live] using hlive
    omega
  fall s hlive hnext := by
    have hlt := turn_lt realfile hclosed s hlive
    have hin : s.sp < file.length := by simpa [live] using hlive
    omega

end Scan

/-! ## Pages the scan does not come to the end of -/

section Forever

open Scan

variable {file realfile : Str}

/-- However many turns the loop takes, it goes on. -/
theorem unclosed_forever (h : Unclosed file) (n : Nat) :
    (whileLoop (live file) (turn file realfile) n (init.turn file realfile)).live file = true := by
  obtain ⟨q, hq, hstart, hopen⟩ := h
  have hlt := hstart.lt
  have hrun : ∀ n s, s.sp ≤ q →
      (whileLoop (live file) (turn file realfile) n s).live file = true := by
    intro n
    induction n with
    | zero =>
      intro s hs
      rw [whileLoop, live, decide_eq_true_iff]
      omega
    | succ n ih =>
      intro s hs
      have hlive : s.live file = true := by
        rw [live, decide_eq_true_iff]
        omega
      rw [whileLoop_live hlive]
      exact ih _ (turn_le realfile hq hstart hopen s hs)
  exact hrun n _ (turn_le realfile hq hstart hopen init (Nat.zero_le q))

/-- A page is cut into blocks unless there is a tag on it that is not closed. -/
theorem pspToBlocks_eq_none_iff : pspToBlocks file realfile = none ↔ Unclosed file := by
  unfold pspToBlocks
  dsimp only
  constructor
  · intro h
    by_contra hclosed
    have hfalls := falls_turn realfile hclosed
    have hdone := runLoop_done hfalls (init.turn file realfile)
    rw [← whileLoop_enough hfalls file.length _ (Nat.sub_le ..)] at hdone
    rw [hdone] at h
    cases h
  · intro h
    rw [if_pos (unclosed_forever h file.length)]

end Forever

end Caudium.Psp
