import Caudium.Entity.EntParse

/-!
# The entity parser turn by turn, when nothing is resolved

With a callback that returns no buffer a turn of the loop does one of a few things to four values:
the cursor, `curpos`, what is written, and what is held of a reference (`View`). `Turn` lists
them with the bytes that lead there, and `step_turn` says that the list is complete. The cursor
runs ahead of `curpos` behind an empty reference, so it may pass the end of the text.
-/

namespace Caudium.Entity

open Lib (Bytes)

/-- What is held of a reference. -/
structure Held where
  full : Bytes
  name : Bytes
  parts : Bytes

/-- What of the state a text's fate depends on. -/
structure View where
  tmp : Nat
  curpos : Nat
  out : Bytes
  held : Option Held

/-- `c` is added to what is held. -/
inductive Held.Adds (h : Held) (c : UInt8) : Held → Prop
  | name (hdot : c ≠ dot) (hroom : h.full.length < maxEntsize) (hparts : h.parts = []) :
    Held.Adds h c ⟨h.full ++ [c], h.name ++ [c], []⟩
  | part (hdot : c ≠ dot) (hroom : h.full.length < maxEntsize) (hparts : h.parts ≠ []) :
    Held.Adds h c ⟨h.full ++ [c], h.name, h.parts ++ [c]⟩
  | dot (hdot : c = dot) (hname : h.name ≠ []) (hparts : h.parts ≠ []) :
    Held.Adds h c ⟨h.full ++ [c], h.name, h.parts ++ [0]⟩

theorem Held.Adds.full {h h' : Held} {c : UInt8} (ha : Held.Adds h c h') :
    h'.full = h.full ++ [c] := by
  cases ha with
  | name => rfl
  | part => rfl
  | dot => rfl

namespace EntState

/-- What a turn does; `none` ends the loop with an error. -/
inductive Turn (buf : Bytes) (v : View) : Option View → Prop
  | copied (hc : byteAt buf v.tmp ≠ amp) (hheld : v.held = none) :
    Turn buf v (some ⟨v.tmp + 1, v.curpos + 1, v.out ++ [byteAt buf v.tmp], none⟩)
  | pair (hc : byteAt buf v.tmp = amp) (hnext : byteAt buf (v.tmp + 1) = amp) :
    Turn buf v (some ⟨v.tmp + 2, v.curpos + 2, v.out ++ [amp], v.held⟩)
  | opened (hc : byteAt buf v.tmp = amp) (hnext : byteAt buf (v.tmp + 1) ≠ amp) :
    Turn buf v (some ⟨v.tmp + 1, v.curpos + 1, v.out, some ⟨[], [], []⟩⟩)
  | closed {h : Held} (hc : byteAt buf v.tmp = semicolon) (hheld : v.held = some h)
    (hne : h.full ≠ []) :
    Turn buf v (some ⟨v.tmp + 1, v.curpos + 1, v.out ++ (amp :: h.full ++ [semicolon]), none⟩)
  /-- An empty reference: the byte behind it is written, with the cursor one too far. -/
  | emptied {h : Held} (hc : byteAt buf v.tmp = semicolon) (hheld : v.held = some h)
    (hnil : h.full = []) :
    Turn buf v (some ⟨v.tmp + 2, v.curpos + 1, v.out ++ [byteAt buf (v.tmp + 1)], none⟩)
  | added {h h' : Held} (hamp : byteAt buf v.tmp ≠ amp) (hsemi : byteAt buf v.tmp ≠ semicolon)
    (hheld : v.held = some h) (hadds : h.Adds (byteAt buf v.tmp) h') :
    Turn buf v (some ⟨v.tmp + 1, v.curpos + 1, v.out, some h'⟩)
  | firstDot {h : Held} (hc : byteAt buf v.tmp = dot) (hheld : v.held = some h)
    (hname : h.name ≠ []) (hparts : h.parts = []) :
    Turn buf v (some ⟨v.tmp + 2, v.curpos + 2, v.out,
      some ⟨h.full ++ [dot, byteAt buf (v.tmp + 1)], h.name, [byteAt buf (v.tmp + 1)]⟩⟩)
  | stopped {h : Held} (hamp : byteAt buf v.tmp ≠ amp) (hsemi : byteAt buf v.tmp ≠ semicolon)
    (hheld : v.held = some h)
    (hfault : byteAt buf v.tmp = dot ∧ h.name = [] ∨
      byteAt buf v.tmp ≠ dot ∧ maxEntsize ≤ h.full.length) :
    Turn buf v none

variable {σ : Type} {buf : Bytes}

/-- What a state holds of a reference. -/
def held (s : EntState σ) : Option Held :=
  if s.inEntity then some ⟨s.entfullname, s.entname, s.entparts⟩ else none

/-- The loop has not ended, nothing is pending, and `v` is what there is to see. -/
structure Shows (s : EntState σ) (v : View) : Prop where
  tmp : s.tmp = some v.tmp
  curpos : s.curpos = v.curpos
  out : s.out = v.out
  held : s.held = v.held
  running : s.returned = false
  nobuf : s.cbackbuf = none
  nolen : s.cbacklen = 0

/-- The state after a turn: it has given up (the result is too long), or it is as `o` says. -/
def After (v : View) (t : EntState σ) : Option View → Prop
  | none => t.tmp = none ∧ t.returned = false ∧ t.out = v.out
  | some v' => Shows t v'

/-- The result has become too long. -/
def GaveUp (t : EntState σ) : Prop := t.returned = true ∧ t.errcode = .retBufTooLong

theorem held_outside {s : EntState σ} (h : s.inEntity = false) : s.held = none := by
  rw [held, h]
  rfl

theorem held_inside {s : EntState σ} (h : s.inEntity = true) :
    s.held = some ⟨s.entfullname, s.entname, s.entparts⟩ := by
  rw [held, h]
  rfl

theorem Shows.outside {s : EntState σ} {v : View} (h : Shows s v) (hin : s.inEntity = false) :
    v.held = none := by
  rw [← h.held, held_outside hin]

theorem Shows.inside {s : EntState σ} {v : View} (h : Shows s v) (hin : s.inEntity = true) :
    v.held = some ⟨s.entfullname, s.entname, s.entparts⟩ := by
  rw [← h.held, held_inside hin]

/-- Appending the byte under the cursor. -/
theorem appendData_byte {s : EntState σ} {v : View} (h : Shows s v) :
    GaveUp (s.appendData buf) ∨
      Shows (s.appendData buf)
        ⟨v.tmp + 1, v.curpos + 1, v.out ++ [byteAt buf v.tmp], v.held⟩ := by
  rcases s.appendData_cases buf with hgave | ⟨n, he⟩
  · exact Or.inl hgave
  · right
    rw [he, copyData_byte h.nobuf h.nolen h.tmp]
    exact ⟨rfl, congrArg (· + 1) h.curpos, congrArg (· ++ _) h.out, h.held, h.running, h.nobuf,
      h.nolen⟩

/-- Appending the reference that is held. -/
theorem appendData_verbatim {s : EntState σ} {v : View} (h : Shows s v)
    (hlen : s.entfullname ≠ []) :
    GaveUp (appendData buf { s with inEntity := false, cbacklen := s.entfullname.length }) ∨
      Shows (appendData buf { s with inEntity := false, cbacklen := s.entfullname.length })
        ⟨v.tmp, v.curpos + 1, v.out ++ (amp :: s.entfullname ++ [semicolon]), none⟩ := by
  rcases appendData_cases buf { s with inEntity := false, cbacklen := s.entfullname.length } with
    hgave | ⟨n, he⟩
  · exact Or.inl hgave
  · right
    have htake : (entArray s.entfullname).take s.entfullname.length = s.entfullname := by
      rw [entArray, List.take_left]
    have hne : s.entfullname.length ≠ 0 := fun e => hlen (List.eq_nil_of_length_eq_zero e)
    have hcopy := @copyData_verbatim σ buf
      { s with inEntity := false, cbacklen := s.entfullname.length } h.nobuf hne
    rw [he, hcopy]
    refine ⟨h.tmp, congrArg (· + 1) h.curpos, ?_, rfl, h.running, h.nobuf, rfl⟩
    show s.out ++ amp :: (entArray s.entfullname).take s.entfullname.length ++ [semicolon] = _
    rw [htake, h.out, List.append_assoc]

section Step

variable {cb : EntCallback σ} {s : EntState σ} {v : View}

theorem stepAmp_turn (cb : EntCallback σ) (h : Shows s v) (hc : byteAt buf v.tmp = amp) :
    GaveUp (s.stepAmp buf (some cb) v.tmp) ∨
      ∃ o, Turn buf v o ∧ After v (s.stepAmp buf (some cb) v.tmp) o := by
  unfold stepAmp
  split
  next hnext =>
    have hmoved : Shows { s with tmp := some (v.tmp + 1), curpos := s.curpos + 1 }
        ⟨v.tmp + 1, v.curpos + 1, v.out, v.held⟩ :=
      ⟨rfl, congrArg (· + 1) h.curpos, h.out, h.held, h.running, h.nobuf, h.nolen⟩
    refine (appendData_byte hmoved).imp id fun hshows => ⟨_, .pair hc hnext, ?_⟩
    rwa [hnext] at hshows
  next hnext =>
    refine Or.inr ⟨_, .opened hc hnext, ?_⟩
    exact ⟨rfl, congrArg (· + 1) h.curpos, h.out, rfl, h.running, h.nobuf, h.nolen⟩

theorem stepSemicolon_turn (hcb : ∀ u n p, (cb u n p).2 = none) (h : Shows s v)
    (hc : byteAt buf v.tmp = semicolon) :
    GaveUp (s.stepSemicolon buf (some cb) v.tmp) ∨
      ∃ o, Turn buf v o ∧ After v (s.stepSemicolon buf (some cb) v.tmp) o := by
  have hamp : byteAt buf v.tmp ≠ amp := by
    rw [hc]
    decide
  unfold stepSemicolon
  dsimp only
  cases hin : s.inEntity with
  | false =>
    have hnone := h.outside hin
    refine (appendData_byte h).imp id fun hshows => ⟨_, .copied hamp hnone, ?_⟩
    rwa [hnone] at hshows
  | true =>
    have hheld := h.inside hin
    have hres := hcb s.user (entArray s.entname) (entArray s.entparts)
    rw [if_neg (by decide), hres]
    have hmoved : Shows { s with
        tmp := some (v.tmp + 1), cbackbuf := none
        user := (cb s.user (entArray s.entname) (entArray s.entparts)).1 }
        ⟨v.tmp + 1, v.curpos, v.out, v.held⟩ :=
      ⟨rfl, h.curpos, h.out, h.held, h.running, rfl, h.nolen⟩
    by_cases hnil : s.entfullname = []
    · have hclosed : Shows { s with
          tmp := some (v.tmp + 1), inEntity := false, cbackbuf := none
          cbacklen := cbackLen none s.entfullname.length
          user := (cb s.user (entArray s.entname) (entArray s.entparts)).1 }
          ⟨v.tmp + 1, v.curpos, v.out, none⟩ :=
        ⟨rfl, h.curpos, h.out, rfl, h.running, rfl, by rw [hnil]; rfl⟩
      exact (appendData_byte hclosed).imp id fun hshows => ⟨_, .emptied hc hheld hnil, hshows⟩
    · exact (appendData_verbatim hmoved hnil).imp id fun hshows =>
        ⟨_, .closed hc hheld hnil, hshows⟩

theorem stepDot_turn (cb : EntCallback σ) (h : Shows s v) (hc : byteAt buf v.tmp = dot) :
    GaveUp (s.stepDot buf (some cb) v.tmp) ∨
      ∃ o, Turn buf v o ∧ After v (s.stepDot buf (some cb) v.tmp) o := by
  have hamp : byteAt buf v.tmp ≠ amp := by
    rw [hc]
    decide
  have hsemi : byteAt buf v.tmp ≠ semicolon := by
    rw [hc]
    decide
  rcases Bool.eq_false_or_eq_true s.inEntity with hin | hin
  · have hheld := h.inside hin
    rw [stepDot, if_neg (by rw [hin]; exact Bool.false_ne_true)]
    right
    split
    next hname =>
      exact ⟨_, .stopped hamp hsemi hheld (Or.inl ⟨hc, hname⟩), rfl, h.running, h.out⟩
    next hname =>
      split
      next hparts =>
        refine ⟨_, .added hamp hsemi hheld (.dot hc hname hparts), ?_⟩
        refine ⟨rfl, congrArg (· + 1) h.curpos, h.out, ?_, h.running, h.nobuf, h.nolen⟩
        rw [hc]
        exact held_inside hin
      next hparts =>
        refine ⟨_, .firstDot hc hheld hname (Decidable.byContradiction hparts), ?_⟩
        exact ⟨rfl, congrArg (· + 2) h.curpos, h.out, held_inside hin, h.running, h.nobuf, h.nolen⟩
  · have hnone := h.outside hin
    rw [stepDot, if_pos (by rw [hin]; rfl)]
    refine (appendData_byte h).imp id fun hshows => ⟨_, .copied hamp hnone, ?_⟩
    rwa [hnone] at hshows

theorem stepOther_turn (cb : EntCallback σ) (h : Shows s v) (hamp : byteAt buf v.tmp ≠ amp)
    (hsemi : byteAt buf v.tmp ≠ semicolon) (hdot : byteAt buf v.tmp ≠ dot) :
    GaveUp (s.stepOther buf (some cb) v.tmp (byteAt buf v.tmp)) ∨
      ∃ o, Turn buf v o ∧ After v (s.stepOther buf (some cb) v.tmp (byteAt buf v.tmp)) o := by
  rcases Bool.eq_false_or_eq_true s.inEntity with hin | hin
  · have hheld := h.inside hin
    rw [stepOther, if_neg (by rw [hin]; exact Bool.false_ne_true)]
    right
    split
    next hlong =>
      exact ⟨_, .stopped hamp hsemi hheld (Or.inr ⟨hdot, hlong⟩), rfl, h.running, h.out⟩
    next hroom =>
      have hlt := Nat.lt_of_not_le hroom
      split
      next hparts =>
        refine ⟨_, .added hamp hsemi hheld (.name hdot hlt hparts), ?_⟩
        refine ⟨rfl, congrArg (· + 1) h.curpos, h.out, ?_, h.running, h.nobuf, h.nolen⟩
        unfold EntState.held
        dsimp only
        rw [if_pos hin, hparts]
      next hparts =>
        refine ⟨_, .added hamp hsemi hheld (.part hdot hlt hparts), ?_⟩
        exact ⟨rfl, congrArg (· + 1) h.curpos, h.out, held_inside hin, h.running, h.nobuf,
          h.nolen⟩
  · have hnone := h.outside hin
    rw [stepOther, if_pos (by rw [hin]; rfl)]
    refine (appendData_byte h).imp id fun hshows => ⟨_, .copied hamp hnone, ?_⟩
    rwa [hnone] at hshows

/-- Every turn is one of the list. -/
theorem step_turn (hcb : ∀ u n p, (cb u n p).2 = none) (h : Shows s v) :
    GaveUp (s.step buf (some cb)) ∨ ∃ o, Turn buf v o ∧ After v (s.step buf (some cb)) o := by
  unfold step
  rw [h.tmp]
  dsimp only
  split
  next hamp => exact stepAmp_turn cb h hamp
  next hamp =>
    split
    next hsemi => exact stepSemicolon_turn hcb h hsemi
    next hsemi =>
      split
      next hdot => exact stepDot_turn cb h hdot
      next hdot => exact stepOther_turn cb h hamp hsemi hdot

end Step

end EntState

end Caudium.Entity
