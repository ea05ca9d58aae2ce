import Caudium.Lib.File
import Caudium.Lib.Loop
import Mathlib.Algebra.Group.Nat.Defs

/-!
# The entity parser (`entparse.c`)

`ent_parser` copies a text and replaces each reference `&name.part.part;` by what
a callback returns for it, or copies it when the callback returns nothing. It is
one loop with a switch on the current byte. The state is the C function's: the
cursor `tmp` (an offset; `none` is the null pointer that ends the loop on an
error), the position `curpos` kept beside it, whether it is inside a reference,
the three buffers a reference is collected in, and what the callback has
returned. Each fill counter (`entlen`, `entnamelen`, `entpartslen`) is the length
of its buffer.

Allocations are taken to succeed.
-/

namespace Caudium.Entity

open Lib (Bytes whileLoop runLoop Falls)

/-- '&'. -/
abbrev amp : UInt8 := 38

/-- ';'. -/
abbrev semicolon : UInt8 := 59

/-- '.'. -/
abbrev dot : UInt8 := 46

/-- `ENT_MAX_ENTSIZE`: the size of a reference without '&' and ';'. -/
abbrev maxEntsize : Nat := 255

/-- `ENT_MAX_RETBUFSIZE`. -/
abbrev maxRetbufsize : Nat := 128 * 1024

/-- `ULONG_MAX`. -/
abbrev ulongMax : Nat := 2 ^ 64 - 1

/-- The error codes (`ENT_ERR_OOM` belongs to allocations that fail). -/
inductive EntErr where
  | ok
  | bufTooLong
  | invParm
  | openEntity
  | entNameLong
  | invalidName
  | retBufTooLong
  deriving DecidableEq, Repr

/-- The callback: on its own state, the name and the parts (each array as a
whole), to the replacement, `none` for a null `buf`. -/
abbrev EntCallback (σ : Type) := σ → Bytes → Bytes → σ × Option Bytes

/-- The local variables of `ent_parser`, and the callback's state. -/
structure EntState (σ : Type) where
  tmp : Option Nat
  curpos : Nat
  inEntity : Bool
  entfullname : Bytes
  entname : Bytes
  entparts : Bytes
  cbackbuf : Option Bytes
  cbacklen : Nat
  /-- `retval->buf[0 .. curlen)`. -/
  out : Bytes
  /-- `retval->buflen`, the allocated size. -/
  retbuflen : Nat
  errcode : EntErr
  /-- The function has returned out of the loop. -/
  returned : Bool
  user : σ

/-- `ENT_RESULT`. -/
structure EntResult where
  buf : Bytes
  buflen : Nat
  errcode : EntErr
  deriving DecidableEq, Repr

/-- An array of `ENT_MAX_ENTSIZE + 1` zeroed bytes, filled from the start. -/
def entArray (filled : Bytes) : Bytes :=
  filled ++ List.replicate (maxEntsize + 1 - filled.length) 0

/-- `cbackres.buflen` after a call: the buffer's length, or, without a buffer, the
length of the reference. -/
def cbackLen (res : Option Bytes) (entlen : Nat) : Nat :=
  match res with
  | some b => b.length
  | none => entlen

namespace EntState

variable {σ : Type} (buf : Bytes) (cback : Option (EntCallback σ))

/-- `*(tmp)`; the byte after the text is the terminating NUL. -/
def byteAt (p : Nat) : UInt8 := buf.getD p 0

theorem drop_byteAt {buf : Bytes} {p : Nat} (h : p < buf.length) :
    buf.drop p = byteAt buf p :: buf.drop (p + 1) := by
  rw [List.drop_eq_getElem_cons h, byteAt, List.getD_eq_getElem?_getD, List.getElem?_eq_getElem h]
  rfl

theorem byteAt_of_le {buf : Bytes} {p : Nat} (h : buf.length ≤ p) : byteAt buf p = 0 := by
  rw [byteAt, List.getD_eq_getElem?_getD, List.getElem?_eq_none h]
  rfl

theorem lt_of_byteAt {buf : Bytes} {p : Nat} {c : UInt8} (h : byteAt buf p = c) (hc : c ≠ 0) :
    p < buf.length := by
  rcases Nat.lt_or_ge p buf.length with hlt | hge
  · exact hlt
  · exact absurd (h.symm.trans (byteAt_of_le hge)) hc

/-- The copying at the end of `append_data`, once there is room. -/
def copyData (s : EntState σ) : EntState σ :=
  match s.cbackbuf with
  | some b =>
    { s with out := s.out ++ b, cbackbuf := none, cbacklen := 0, curpos := s.curpos + 1 }
  | none =>
    if s.cbacklen = 0 then
      { s with
        out := s.out ++ [byteAt buf (s.tmp.getD 0)]
        tmp := s.tmp.map (· + 1)
        curpos := s.curpos + 1 }
    else
      { s with
        out := s.out ++ amp :: (entArray s.entfullname).take s.cbacklen ++ [semicolon]
        cbacklen := 0
        curpos := s.curpos + 1 }

/-- `append_data`. -/
def appendData (s : EntState σ) : EntState σ :=
  let tmplen := s.out.length + s.cbacklen + 2
  if s.out.length + tmplen ≥ s.retbuflen then
    let s := { s with retbuflen := s.retbuflen + 2 * tmplen }
    if s.retbuflen ≥ maxRetbufsize then { s with errcode := .retBufTooLong, returned := true }
    else s.copyData buf
  else s.copyData buf

/-- `case '&'`. -/
def stepAmp (s : EntState σ) (p : Nat) : EntState σ :=
  if byteAt buf (p + 1) = amp then
    appendData buf { s with tmp := some (p + 1), curpos := s.curpos + 1 }
  else if cback.isNone then s.appendData buf
  else
    { s with
      entname := [], entparts := [], entfullname := [], inEntity := true
      tmp := some (p + 1), curpos := s.curpos + 1 }

/-- `case ';'`. -/
def stepSemicolon (s : EntState σ) (p : Nat) : EntState σ :=
  match cback with
  | none => s.appendData buf
  | some cb =>
    if !s.inEntity then s.appendData buf
    else
      let (user, res) := cb s.user (entArray s.entname) (entArray s.entparts)
      appendData buf { s with
        tmp := some (p + 1), inEntity := false, user := user, cbackbuf := res
        cbacklen := cbackLen res s.entfullname.length }

/-- `case '.'`. The first dot takes the byte after it along, unseen. -/
def stepDot (s : EntState σ) (p : Nat) : EntState σ :=
  if cback.isNone || !s.inEntity then s.appendData buf
  else if s.entname = [] then { s with tmp := none, errcode := .invalidName }
  else if s.entparts ≠ [] then
    { s with
      entfullname := s.entfullname ++ [dot], entparts := s.entparts ++ [0]
      tmp := some (p + 1), curpos := s.curpos + 1 }
  else
    { s with
      entfullname := s.entfullname ++ [dot, byteAt buf (p + 1)]
      entparts := [byteAt buf (p + 1)]
      tmp := some (p + 2), curpos := s.curpos + 2 }

/-- The default case, on a byte `c`. -/
def stepOther (s : EntState σ) (p : Nat) (c : UInt8) : EntState σ :=
  if cback.isNone || !s.inEntity then s.appendData buf
  else if s.entfullname.length ≥ maxEntsize then { s with errcode := .entNameLong, tmp := none }
  else if s.entparts = [] then
    { s with
      entfullname := s.entfullname ++ [c], entname := s.entname ++ [c]
      tmp := some (p + 1), curpos := s.curpos + 1 }
  else
    { s with
      entfullname := s.entfullname ++ [c], entparts := s.entparts ++ [c]
      tmp := some (p + 1), curpos := s.curpos + 1 }

/-- One turn of the loop: the switch on `*tmp`. -/
def step (s : EntState σ) : EntState σ :=
  match s.tmp with
  | none => s
  | some p =>
    let c := byteAt buf p
    if c = amp then s.stepAmp buf cback p
    else if c = semicolon then s.stepSemicolon buf cback p
    else if c = dot then s.stepDot buf cback p
    else s.stepOther buf cback p c

/-- `while(tmp && curpos < buflen)`. -/
def live (s : EntState σ) : Bool := !s.returned && s.tmp.isSome && decide (s.curpos < buf.length)

/-- The bytes left. -/
def left (s : EntState σ) : Nat := buf.length - s.curpos

/-- The loop. -/
def loop (s : EntState σ) : EntState σ := runLoop (live buf) (step buf cback) (left buf) s

/-- Before the loop. -/
def init (user : σ) : EntState σ :=
  { tmp := some 0, curpos := 0, inEntity := false, entfullname := [], entname := []
    entparts := [], cbackbuf := none, cbacklen := 0, out := []
    retbuflen := (buf.length + buf.length / 3) % 2 ^ 64, errcode := .ok, returned := false
    user := user }

/-- After the loop. -/
def finish (s : EntState σ) : EntResult :=
  if s.returned then { buf := s.out, buflen := s.retbuflen, errcode := s.errcode }
  else
    { buf := s.out, buflen := s.out.length
      errcode := if s.errcode = .ok ∧ s.inEntity then .openEntity else s.errcode }

end EntState

/-- `ent_parser`, with the state it leaves the callback in. -/
def entParser {σ : Type} (buf : Option Bytes) (cback : Option (EntCallback σ)) (user : σ) :
    EntResult × σ :=
  match buf with
  | none => ({ buf := [], buflen := 0, errcode := .invParm }, user)
  | some buf =>
    if buf.length ≥ ulongMax ∨ (buf.length + buf.length / 3) % 2 ^ 64 > ulongMax then
      ({ buf := [], buflen := 0, errcode := .bufTooLong }, user)
    else
      let s := (EntState.init buf user).loop buf cback
      (s.finish, s.user)

namespace EntState

variable {σ : Type} {buf : Bytes} {cback : Option (EntCallback σ)}

/-! ## Every turn moves on -/

/-- Nothing pending: the byte under the cursor is copied. -/
theorem copyData_byte {s : EntState σ} {p : Nat} (hbuf : s.cbackbuf = none)
    (hlen : s.cbacklen = 0) (htmp : s.tmp = some p) :
    s.copyData buf = { s with
      out := s.out ++ [byteAt buf p], tmp := some (p + 1), curpos := s.curpos + 1 } := by
  unfold copyData
  rw [hbuf, htmp]
  dsimp only
  rw [if_pos hlen]
  rfl

/-- A reference without a replacement is copied from its buffer. -/
theorem copyData_verbatim {s : EntState σ} (hbuf : s.cbackbuf = none) (hlen : s.cbacklen ≠ 0) :
    s.copyData buf = { s with
      out := s.out ++ amp :: (entArray s.entfullname).take s.cbacklen ++ [semicolon]
      cbacklen := 0, curpos := s.curpos + 1 } := by
  unfold copyData
  rw [hbuf]
  dsimp only
  rw [if_neg hlen, ← hbuf]

/-- What `append_data` does: it returns out of the loop, or it copies and moves on. -/
theorem appendData_cases (buf : Bytes) (s : EntState σ) :
    ((s.appendData buf).returned = true ∧ (s.appendData buf).errcode = .retBufTooLong) ∨
    ∃ n, s.appendData buf = { s.copyData buf with retbuflen := n } := by
  unfold appendData copyData
  dsimp only
  split
  · split
    · exact Or.inl ⟨rfl, rfl⟩
    · refine Or.inr ⟨s.retbuflen + 2 * (s.out.length + s.cbacklen + 2), ?_⟩
      cases s.cbackbuf with
      | some b => rfl
      | none => dsimp only; split <;> rfl
  · exact Or.inr ⟨(s.copyData buf).retbuflen, rfl⟩

theorem curpos_copyData (buf : Bytes) (s : EntState σ) : (s.copyData buf).curpos = s.curpos + 1 := by
  unfold copyData
  split
  · rfl
  · split <;> rfl

/-- `t` comes after `s`: it has returned, or ended the loop, or moved on. -/
def Moves (s t : EntState σ) : Prop :=
  t.returned = true ∨ t.tmp = none ∨ s.curpos < t.curpos

theorem appendData_moves {s t : EntState σ} (h : s.curpos ≤ t.curpos) :
    Moves s (t.appendData buf) := by
  rcases t.appendData_cases buf with ⟨hr, -⟩ | ⟨n, he⟩
  · exact Or.inl hr
  · refine Or.inr (Or.inr ?_)
    have hcopy := t.curpos_copyData buf
    rw [he]
    show s.curpos < (t.copyData buf).curpos
    omega

theorem stepAmp_moves (s : EntState σ) (p : Nat) : Moves s (s.stepAmp buf cback p) := by
  unfold stepAmp
  split
  · exact appendData_moves (Nat.le_succ _)
  · split
    · exact appendData_moves (Nat.le_refl _)
    · exact Or.inr (Or.inr (Nat.lt_succ_self _))

theorem stepSemicolon_moves (s : EntState σ) (p : Nat) :
    Moves s (s.stepSemicolon buf cback p) := by
  unfold stepSemicolon
  split
  · exact appendData_moves (Nat.le_refl _)
  · split
    · exact appendData_moves (Nat.le_refl _)
    · exact appendData_moves (Nat.le_refl _)

theorem stepDot_moves (s : EntState σ) (p : Nat) : Moves s (s.stepDot buf cback p) := by
  unfold stepDot
  split
  · exact appendData_moves (Nat.le_refl _)
  · split
    · exact Or.inr (Or.inl rfl)
    · split
      · exact Or.inr (Or.inr (Nat.lt_succ_self _))
      · exact Or.inr (Or.inr (Nat.lt_add_of_pos_right (by decide)))

theorem stepOther_moves (s : EntState σ) (p : Nat) (c : UInt8) :
    Moves s (s.stepOther buf cback p c) := by
  unfold stepOther
  split
  · exact appendData_moves (Nat.le_refl _)
  · split
    · exact Or.inr (Or.inl rfl)
    · split <;> exact Or.inr (Or.inr (Nat.lt_succ_self _))

theorem live_iff (s : EntState σ) :
    live buf s = true ↔ s.returned = false ∧ s.tmp.isSome ∧ s.curpos < buf.length := by
  rw [live, Bool.and_eq_true, Bool.and_eq_true, Bool.not_eq_true', decide_eq_true_eq, and_assoc]

/-- The bytes left fall at every turn, so the loop ends. -/
theorem left_falls : Falls (live buf) (step buf cback) (left buf) where
  pos s h := by
    have hlt := ((live_iff s).mp h).2.2
    show 0 < buf.length - s.curpos
    omega
  fall s h h' := by
    obtain ⟨-, htmp, hlt⟩ := (live_iff s).mp h
    obtain ⟨hret', htmp', -⟩ := (live_iff (s.step buf cback)).mp h'
    have hmoves : Moves s (s.step buf cback) := by
      unfold step
      split
      next hnone => rw [hnone] at htmp; cases htmp
      next p _ =>
        dsimp only
        split
        · exact stepAmp_moves s p
        · split
          · exact stepSemicolon_moves s p
          · split
            · exact stepDot_moves s p
            · exact stepOther_moves s p _
    show buf.length - (s.step buf cback).curpos < buf.length - s.curpos
    rcases hmoves with hr | hn | hm
    · rw [hret'] at hr; cases hr
    · rw [hn] at htmp'; cases htmp'
    · omega

/-- **`ent_parser` ends**: its loop stops within as many turns as there are bytes. -/
theorem loop_done (s : EntState σ) : live buf (s.loop buf cback) = false :=
  Lib.runLoop_done left_falls s

end EntState

end Caudium.Entity
