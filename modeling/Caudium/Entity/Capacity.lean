import Caudium.Entity.Cursor
import Caudium.Entity.Turns
import Mathlib.Algebra.GroupWithZero.Nat

/-!
# When the result is said to be too long (`entparse.c`)

`append_data` compares `ENT_MAX_RETBUFSIZE` with the size its buffer is grown to, not with what is
in it. The buffer starts with a third more than the text. A piece of `b` pending bytes behind `len`
written ones needs `2 * len + b + 2`, and when there is less the buffer grows by
`2 * (len + b + 2)`. So the sizes are a fold over the pieces of the expanded text (`Fits`), and the
error comes exactly when one of them reaches the limit (`entParser_tooLong_iff`). The expanded text
is what the same loop writes into a buffer without a limit.
-/

namespace Caudium.Entity

open Lib (Bytes whileLoop runLoop Falls)

/-- A piece of the expanded text: a byte, a callback's buffer of `n` bytes, or a reference of `n`
bytes between '&' and ';'. -/
inductive Piece where
  | byte
  | replaced (n : Nat)
  | verbatim (n : Nat)
  deriving DecidableEq, Repr

/-- `cbackres.buflen` when the piece is appended. -/
def Piece.pending : Piece → Nat
  | byte => 0
  | replaced n => n
  | verbatim n => n

/-- How many bytes it is. -/
def Piece.size : Piece → Nat
  | byte => 1
  | replaced n => n
  | verbatim n => n + 2

/-- The size that a buffer of `cap` bytes with `len` of them written is grown to for a piece. -/
def grown (cap len : Nat) (x : Piece) : Nat := cap + 2 * (len + x.pending + 2)

/-- For pieces behind `len` bytes, a buffer of `cap` bytes is never grown to the limit. -/
def Fits : Nat → Nat → List Piece → Prop
  | _, _, [] => True
  | cap, len, x :: xs =>
    if len + (len + x.pending + 2) < cap then Fits cap (len + x.size) xs
    else grown cap len x < maxRetbufsize ∧ Fits (grown cap len x) (len + x.size) xs

instance decidableFits : ∀ (cap len : Nat) (xs : List Piece), Decidable (Fits cap len xs)
  | _, _, [] => isTrue trivial
  | cap, len, x :: xs =>
    have := decidableFits cap (len + x.size) xs
    have := decidableFits (grown cap len x) (len + x.size) xs
    inferInstanceAs (Decidable (if len + (len + x.pending + 2) < cap then _ else _ ∧ _))

/-- How long the pieces are. -/
def totalSize (xs : List Piece) : Nat := (xs.map Piece.size).sum

/-- A buffer that is too small is not grown to more than four times what it will hold. -/
theorem grown_le {cap len : Nat} {x : Piece} (h : cap ≤ len + (len + x.pending + 2)) :
    grown cap len x ≤ 4 * (len + x.size) + 6 := by
  unfold grown
  cases x with
  | byte => dsimp only [Piece.pending, Piece.size] at *; omega
  | replaced n => dsimp only [Piece.pending, Piece.size] at *; omega
  | verbatim n => dsimp only [Piece.pending, Piece.size] at *; omega

/-- Up to a quarter of the limit everything fits. -/
theorem fits_of_short {xs : List Piece} {cap len : Nat}
    (h : 4 * (len + totalSize xs) + 6 < maxRetbufsize) : Fits cap len xs := by
  induction xs generalizing cap len with
  | nil => exact trivial
  | cons x xs ih =>
    have htotal : totalSize (x :: xs) = x.size + totalSize xs := List.sum_cons
    have hrest : 4 * (len + x.size + totalSize xs) + 6 < maxRetbufsize := by omega
    unfold Fits
    split
    next => exact ih hrest
    next hsmall =>
      have hgrown := grown_le (Nat.le_of_not_lt hsmall)
      exact ⟨by omega, ih hrest⟩

namespace EntState

variable {σ : Type} (buf : Bytes) (cback : Option (EntCallback σ))

/-- The piece that `append_data` is given. -/
def piece (u : EntState σ) : Piece :=
  match u.cbackbuf with
  | some _ => .replaced u.cbacklen
  | none => if u.cbacklen = 0 then .byte else .verbatim u.cbacklen

/-- A turn with a buffer that has no limit. -/
def freeStep (s : EntState σ) : EntState σ :=
  match s.tmp with
  | none => s
  | some p =>
    match s.appending buf cback p with
    | some u => u.copyData buf
    | none => s.step buf cback

/-- The loop with such a buffer. -/
def freeLoop (s : EntState σ) : EntState σ := runLoop (live buf) (freeStep buf cback) (left buf) s

/-- The pieces that at most `n` turns append. -/
def pieces : Nat → EntState σ → List Piece
  | 0, _ => []
  | n + 1, s =>
    if live buf s then
      match s.tmp.bind (s.appending buf cback) with
      | some u => u.piece :: pieces n (freeStep buf cback s)
      | none => pieces n (freeStep buf cback s)
    else []

end EntState

/-- What the text expands to. -/
def expandedText {σ : Type} (buf : Bytes) (cback : Option (EntCallback σ)) (user : σ) : Bytes :=
  ((EntState.init buf user).freeLoop buf cback).out

/-- Its pieces. -/
def expandedPieces {σ : Type} (buf : Bytes) (cback : Option (EntCallback σ)) (user : σ) :
    List Piece :=
  (EntState.init buf user).pieces buf cback buf.length

namespace EntState

variable {σ : Type} {buf : Bytes} {cback : Option (EntCallback σ)}

/-! ## The size of the buffer decides nothing else -/

/-- The state with a buffer of `c` bytes. -/
def sized (c : Nat) (s : EntState σ) : EntState σ := { s with retbuflen := c }

theorem copyData_sized (c : Nat) (u : EntState σ) :
    (u.sized c).copyData buf = (u.copyData buf).sized c := by
  unfold copyData sized
  dsimp only
  cases u.cbackbuf with
  | some b => rfl
  | none =>
    dsimp only
    split
    · rfl
    · rfl

theorem appending_sized (c : Nat) (s : EntState σ) (p : Nat) :
    (s.sized c).appending buf cback p = (s.appending buf cback p).map (sized c) := by
  unfold appending
  split
  · split
    · rfl
    · split
      · rfl
      · rfl
  · split
    · cases cback with
      | none => rfl
      | some cb =>
        dsimp only
        show (if !s.inEntity then _ else _) = Option.map _ (if !s.inEntity then _ else _)
        split
        · rfl
        · rfl
    · show (if cback.isNone || !s.inEntity then _ else _) =
        Option.map _ (if cback.isNone || !s.inEntity then _ else _)
      split
      · rfl
      · rfl

theorem stepDot_sized (c : Nat) {s : EntState σ} {p : Nat}
    (hin : ¬(cback.isNone || !s.inEntity) = true) :
    (s.sized c).stepDot buf cback p = (s.stepDot buf cback p).sized c := by
  have hin' : ¬(cback.isNone || !(s.sized c).inEntity) = true := hin
  rw [stepDot, stepDot, if_neg hin, if_neg hin']
  show (if s.entname = [] then _ else if s.entparts ≠ [] then _ else _) = _
  split
  · rfl
  · split
    · rfl
    · rfl

theorem stepOther_sized (c : Nat) {s : EntState σ} {p : Nat} {b : UInt8}
    (hin : ¬(cback.isNone || !s.inEntity) = true) :
    (s.sized c).stepOther buf cback p b = (s.stepOther buf cback p b).sized c := by
  have hin' : ¬(cback.isNone || !(s.sized c).inEntity) = true := hin
  rw [stepOther, stepOther, if_neg hin, if_neg hin']
  show (if s.entfullname.length ≥ maxEntsize then _ else if s.entparts = [] then _ else _) = _
  split
  · rfl
  · split
    · rfl
    · rfl

/-- A turn that collects does so whatever the size is. -/
theorem step_sized (c : Nat) {s : EntState σ} {p : Nat} (hp : s.tmp = some p)
    (hnone : s.appending buf cback p = none) :
    (s.sized c).step buf cback = (s.step buf cback).sized c := by
  have hp' : (s.sized c).tmp = some p := hp
  -- Only the branches of the switch are left that do not come to `append_data`.
  unfold appending at hnone
  unfold step
  rw [hp, hp']
  dsimp only
  split at hnone
  next hamp =>
    split at hnone
    next => cases hnone
    next hnext =>
      split at hnone
      next => cases hnone
      next hcb =>
        rw [if_pos hamp, if_pos hamp, stepAmp, stepAmp, if_neg hnext, if_neg hnext, if_neg hcb,
          if_neg hcb]
        rfl
  next hamp =>
    rw [if_neg hamp, if_neg hamp]
    split at hnone
    next hsemi =>
      cases cback with
      | none => cases hnone
      | some cb =>
        dsimp only at hnone
        split at hnone
        · cases hnone
        · cases hnone
    next hsemi =>
      rw [if_neg hsemi, if_neg hsemi]
      split at hnone
      next => cases hnone
      next hin =>
        split
        · exact stepDot_sized c hin
        · exact stepOther_sized c hin

/-- `append_data` with a buffer of `c` bytes: they are enough. -/
theorem appendData_enough {u : EntState σ} {c : Nat}
    (h : u.out.length + (u.out.length + u.cbacklen + 2) < c) :
    (u.sized c).appendData buf = (u.copyData buf).sized c := by
  rw [← copyData_sized]
  unfold appendData
  exact if_neg (Nat.not_le_of_lt h)

/-- They are not, and it grows. -/
theorem appendData_grows {u : EntState σ} {c : Nat}
    (h : ¬u.out.length + (u.out.length + u.cbacklen + 2) < c)
    (hlimit : c + 2 * (u.out.length + u.cbacklen + 2) < maxRetbufsize) :
    (u.sized c).appendData buf =
      (u.copyData buf).sized (c + 2 * (u.out.length + u.cbacklen + 2)) := by
  rw [← copyData_sized]
  unfold appendData
  exact (if_pos (Nat.le_of_not_lt h)).trans (if_neg (Nat.not_le_of_lt hlimit))

/-- They are not, and it may not grow. -/
theorem appendData_full {u : EntState σ} {c : Nat}
    (h : ¬u.out.length + (u.out.length + u.cbacklen + 2) < c)
    (hlimit : ¬c + 2 * (u.out.length + u.cbacklen + 2) < maxRetbufsize) :
    GaveUp ((u.sized c).appendData buf) := by
  have hroom : ¬(u.sized c).Room := fun hr => hr.elim h hlimit
  rw [appendData_of_not_room hroom]
  exact ⟨rfl, rfl⟩

/-! ## The pieces are what is written -/

/-- What a piece has pending and how long it is, for what comes to `append_data`. -/
theorem piece_spec {u : EntState σ} (hbuf : ∀ b, u.cbackbuf = some b → u.cbacklen = b.length)
    (hlen : u.cbackbuf = none → u.cbacklen = 0 ∨ u.cbacklen = u.entfullname.length) :
    u.piece.pending = u.cbacklen ∧ (u.copyData buf).out.length = u.out.length + u.piece.size := by
  unfold piece copyData
  cases hb : u.cbackbuf with
  | some b =>
    refine ⟨rfl, ?_⟩
    dsimp only [Piece.size]
    rw [List.length_append, hbuf b hb]
  | none =>
    dsimp only
    split
    next hzero =>
      refine ⟨hzero.symm, ?_⟩
      exact List.length_append
    next hne =>
      refine ⟨rfl, ?_⟩
      have htake : ((entArray u.entfullname).take u.cbacklen).length = u.cbacklen := by
        rw [(hlen hb).resolve_left hne, entArray, List.take_left]
      dsimp only [Piece.size]
      rw [List.length_append, List.length_append, List.length_cons, htake, List.length_singleton]
      omega

theorem piece_of_appends {s u : EntState σ} {p : Nat} (h : Appends buf cback s p u)
    (hbuf : s.cbackbuf = none) (hlen : s.cbacklen = 0) :
    u.piece.pending = u.cbacklen ∧ (u.copyData buf).out.length = u.out.length + u.piece.size := by
  refine piece_spec ?_ (Traced.pending_of_appends h hlen).2.2
  intro b hb
  cases h with
  | here hu =>
    rw [hu, hbuf] at hb
    cases hb
  | pair _ hu =>
    rw [hu] at hb
    rw [hbuf] at hb
    cases hb
  | closed cb _ _ _ hu =>
    rw [hu] at hb ⊢
    dsimp only at hb ⊢
    rw [hb]
    rfl

/-! ## The loop with the limit beside the one without -/

theorem freeStep_append {s u : EntState σ} {p : Nat} (hp : s.tmp = some p)
    (hu : s.appending buf cback p = some u) : s.freeStep buf cback = u.copyData buf := by
  rw [freeStep, hp]
  dsimp only
  rw [hu]

theorem freeStep_collect {s : EntState σ} {p : Nat} (hp : s.tmp = some p)
    (hu : s.appending buf cback p = none) : s.freeStep buf cback = s.step buf cback := by
  rw [freeStep, hp]
  dsimp only
  rw [hu]

theorem pieces_append {s u : EntState σ} {p : Nat} (hlive : live buf s = true)
    (hp : s.tmp = some p) (hu : s.appending buf cback p = some u) (n : Nat) :
    s.pieces buf cback (n + 1) = u.piece :: (u.copyData buf).pieces buf cback n := by
  rw [pieces, if_pos hlive, hp, Option.bind_some, hu, freeStep_append hp hu]

theorem pieces_collect {s : EntState σ} {p : Nat} (hlive : live buf s = true)
    (hp : s.tmp = some p) (hu : s.appending buf cback p = none) (n : Nat) :
    s.pieces buf cback (n + 1) = (s.step buf cback).pieces buf cback n := by
  rw [pieces, if_pos hlive, hp, Option.bind_some, hu, freeStep_collect hp hu]

/-- **The error comes exactly when the pieces do not fit.** -/
theorem tooLong_iff (n : Nat) : ∀ (s : EntState σ) (c : Nat), s.cbackbuf = none → s.cbacklen = 0 →
    s.returned = false → s.errcode ≠ .retBufTooLong →
    ((whileLoop (live buf) (step buf cback) n (s.sized c)).errcode = .retBufTooLong ↔
      ¬Fits c s.out.length (s.pieces buf cback n)) := by
  -- On the turns: both loops are in the same state, but for the size of the buffer.
  induction n with
  | zero =>
    intro s c _ _ _ herr
    exact iff_of_false herr (not_not_intro trivial)
  | succ n ih =>
    intro s c hbuf hlen hret herr
    cases hlive : live buf s with
    | false =>
      rw [Lib.whileLoop_stop (show live buf (s.sized c) = false from hlive), pieces, hlive]
      exact iff_of_false herr (not_not_intro trivial)
    | true =>
      obtain ⟨p, hp⟩ := Option.isSome_iff_exists.mp ((live_iff s).mp hlive).2.1
      rw [Lib.whileLoop_live (show live buf (s.sized c) = true from hlive)]
      cases hu : s.appending buf cback p with
      | none =>
        obtain ⟨hout, hbuf', hlen', hret', herr'⟩ :=
          collects_leaves (collects_of_not_appending hp hu)
        rw [step_sized c hp hu, pieces_collect hlive hp hu, ← hout]
        exact ih (s.step buf cback) c (hbuf'.trans hbuf) (hlen'.trans hlen) (hret'.trans hret)
          (herr' herr)
      | some u =>
        have happends := appends_of_appending hu
        obtain ⟨hout, hret', herr'⟩ := appends_leaves happends
        obtain ⟨hpending, hsize⟩ := @piece_of_appends σ buf cback s u p happends hbuf hlen
        obtain ⟨hbuf', hlen'⟩ := @idle_copyData σ buf u
        have hret'' : (u.copyData buf).returned = false :=
          (returned_copyData u).trans (hret'.trans hret)
        have herr'' : (u.copyData buf).errcode ≠ .retBufTooLong := by
          rw [errcode_copyData, herr']
          exact herr
        have hstep : (s.sized c).step buf cback = (u.sized c).appendData buf := by
          have hsized : (s.sized c).appending buf cback p = some (u.sized c) := by
            rw [appending_sized, hu]
            rfl
          exact step_of_appending hp hsized
        rw [hstep, pieces_append hlive hp hu]
        unfold Fits grown
        rw [hpending, ← hout, ← hsize]
        split
        next henough =>
          rw [appendData_enough henough]
          exact ih (u.copyData buf) c hbuf' hlen' hret'' herr''
        next hsmall =>
          by_cases hlimit : c + 2 * (u.out.length + u.cbacklen + 2) < maxRetbufsize
          · rw [appendData_grows hsmall hlimit, and_iff_right hlimit]
            exact ih (u.copyData buf) _ hbuf' hlen' hret'' herr''
          -- The function returns, and with it the loop.
          · obtain ⟨hreturned, htoolong⟩ := @appendData_full σ buf u c hsmall hlimit
            have hstop : live buf ((u.sized c).appendData buf) = false := by
              unfold live
              rw [hreturned]
              rfl
            rw [Lib.whileLoop_stop hstop]
            exact iff_of_true htoolong fun h => hlimit h.1

/-- The result's error is that of the loop. -/
theorem finish_tooLong (s : EntState σ) :
    s.finish.errcode = .retBufTooLong ↔ s.errcode = .retBufTooLong := by
  unfold finish
  split
  · exact Iff.rfl
  · show (if s.errcode = .ok ∧ s.inEntity = true then EntErr.openEntity else s.errcode) = _ ↔ _
    split
    next hok =>
      rw [hok.1]
      exact ⟨nofun, nofun⟩
    next => exact Iff.rfl

/-! ## The expanded text is made of its pieces -/

theorem out_length_free (n : Nat) : ∀ s : EntState σ, s.cbackbuf = none → s.cbacklen = 0 →
    (whileLoop (live buf) (freeStep buf cback) n s).out.length =
      s.out.length + totalSize (s.pieces buf cback n) := by
  induction n with
  | zero => exact fun s _ _ => rfl
  | succ n ih =>
    intro s hbuf hlen
    cases hlive : live buf s with
    | false =>
      rw [Lib.whileLoop_stop hlive, pieces, hlive]
      rfl
    | true =>
      obtain ⟨p, hp⟩ := Option.isSome_iff_exists.mp ((live_iff s).mp hlive).2.1
      rw [Lib.whileLoop_live hlive]
      cases hu : s.appending buf cback p with
      | none =>
        obtain ⟨hout, hbuf', hlen', -, -⟩ := collects_leaves (collects_of_not_appending hp hu)
        rw [freeStep_collect hp hu, pieces_collect hlive hp hu, ← hout]
        exact ih (s.step buf cback) (hbuf'.trans hbuf) (hlen'.trans hlen)
      | some u =>
        have happends := appends_of_appending hu
        obtain ⟨-, hsize⟩ := @piece_of_appends σ buf cback s u p happends hbuf hlen
        obtain ⟨hbuf', hlen'⟩ := @idle_copyData σ buf u
        rw [freeStep_append hp hu, pieces_append hlive hp hu, ih (u.copyData buf) hbuf' hlen',
          hsize, (appends_leaves happends).1, totalSize, totalSize, List.map_cons, List.sum_cons]
        omega

end EntState

section Parser

open EntState

variable {σ : Type} (buf : Bytes) (cback : Option (EntCallback σ)) (user : σ)

theorem length_expandedText :
    (expandedText buf cback user).length = totalSize (expandedPieces buf cback user) := by
  have hlength := @out_length_free σ buf cback buf.length (init buf user) rfl rfl
  exact hlength.trans (Nat.zero_add _)

/-- A text that is too long in itself is another error. -/
theorem entParser_tooLong_iff :
    (entParser (some buf) cback user).1.errcode = .retBufTooLong ↔
      buf.length < ulongMax ∧
        ¬Fits ((buf.length + buf.length / 3) % 2 ^ 64) 0 (expandedPieces buf cback user) := by
  have hmod : ¬(buf.length + buf.length / 3) % 2 ^ 64 > ulongMax := by
    have hlt := Nat.mod_lt (buf.length + buf.length / 3) (show 0 < 2 ^ 64 by decide)
    unfold ulongMax
    omega
  unfold entParser
  dsimp only
  by_cases hlong : buf.length ≥ ulongMax
  · rw [if_pos (Or.inl hlong)]
    exact iff_of_false nofun fun h => absurd h.1 (Nat.not_lt_of_le hlong)
  · rw [if_neg (not_or_intro hlong hmod), and_iff_right (Nat.lt_of_not_le hlong)]
    dsimp only
    rw [finish_tooLong]
    exact @tooLong_iff σ buf cback buf.length (init buf user)
      ((buf.length + buf.length / 3) % 2 ^ 64) rfl rfl rfl nofun

/-- Up to a quarter of the limit there is no such error. -/
theorem notTooLong_of_short (h : 4 * (expandedText buf cback user).length + 6 < maxRetbufsize) :
    (entParser (some buf) cback user).1.errcode ≠ .retBufTooLong := by
  intro htoolong
  refine ((entParser_tooLong_iff buf cback user).mp htoolong).2 (fits_of_short ?_)
  rwa [Nat.zero_add, ← length_expandedText]

end Parser

/-- "&a;". -/
def oneReference : Bytes := [amp, 97, semicolon]

/-- A replacement of 65535 bytes, half of the limit, makes the buffer grow to 131078. -/
theorem oneReference_tooLong (b : Bytes) (hb : b.length = 65535) :
    (expandedText oneReference (some fun u _ _ => (u, some b)) ()).length < maxRetbufsize ∧
      (entParser (some oneReference) (some fun u _ _ => (u, some b)) ()).1.errcode =
        .retBufTooLong := by
  have hpieces : expandedPieces oneReference (some fun u _ _ => (u, some b)) () =
      [.replaced b.length] := rfl
  rw [length_expandedText, entParser_tooLong_iff, hpieces, hb]
  exact ⟨by decide, by decide, by decide⟩

end Caudium.Entity
