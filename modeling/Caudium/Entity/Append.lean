import Caudium.Entity.EntParse

/-!
# Which turns append, and when there is room (`entparse.c`)

Every `goto append_data` of the switch leaves the state `appending` gives; the other turns collect
a byte of a reference, open one, or end the loop with an error (`Collects`). At `append_data` there
is `Room` when the buffer is large enough or may grow; without it the function returns.
-/

namespace Caudium.Entity

open Lib (Bytes)

namespace EntState

variable {σ : Type} (buf : Bytes) (cback : Option (EntCallback σ))

/-- The state in which a turn comes to `append_data`, if it does. -/
def appending (s : EntState σ) (p : Nat) : Option (EntState σ) :=
  if byteAt buf p = amp then
    if byteAt buf (p + 1) = amp then some { s with tmp := some (p + 1), curpos := s.curpos + 1 }
    else if cback.isNone then some s
    else none
  else if byteAt buf p = semicolon then
    match cback with
    | none => some s
    | some cb =>
      if !s.inEntity then some s
      else
        let (user, res) := cb s.user (entArray s.entname) (entArray s.entparts)
        some { s with
          tmp := some (p + 1), inEntity := false, user := user, cbackbuf := res
          cbacklen := cbackLen res s.entfullname.length }
  else if cback.isNone || !s.inEntity then some s
  else none

/-- The buffer is large enough, or it may grow. -/
def Room (s : EntState σ) : Prop :=
  s.out.length + (s.out.length + s.cbacklen + 2) < s.retbuflen ∨
    s.retbuflen + 2 * (s.out.length + s.cbacklen + 2) < maxRetbufsize

instance (s : EntState σ) : Decidable s.Room := inferInstanceAs (Decidable (_ ∨ _))

variable {buf cback}

theorem appendData_of_room {s : EntState σ} (h : s.Room) :
    ∃ n, s.appendData buf = { s.copyData buf with retbuflen := n } := by
  unfold appendData copyData
  dsimp only
  split
  next hgrow =>
    rcases h with hlarge | hmay
    · omega
    · rw [if_neg (Nat.not_le_of_lt hmay)]
      refine ⟨s.retbuflen + 2 * (s.out.length + s.cbacklen + 2), ?_⟩
      cases s.cbackbuf with
      | some b => rfl
      | none => dsimp only; split <;> rfl
  · exact ⟨(s.copyData buf).retbuflen, rfl⟩

/-- Without room the function returns, with nothing appended. -/
theorem appendData_of_not_room {s : EntState σ} (h : ¬s.Room) :
    s.appendData buf = { s with
      retbuflen := s.retbuflen + 2 * (s.out.length + s.cbacklen + 2)
      errcode := .retBufTooLong, returned := true } := by
  rw [Room, not_or] at h
  unfold appendData
  dsimp only
  rw [if_pos (Nat.le_of_not_lt h.1), if_pos (Nat.le_of_not_lt h.2)]

theorem returned_copyData (s : EntState σ) : (s.copyData buf).returned = s.returned := by
  unfold copyData
  split
  · rfl
  · split <;> rfl

theorem errcode_copyData (s : EntState σ) : (s.copyData buf).errcode = s.errcode := by
  unfold copyData
  split
  · rfl
  · split <;> rfl

/-- After `append_data` nothing is pending. -/
theorem idle_copyData (s : EntState σ) :
    (s.copyData buf).cbackbuf = none ∧ (s.copyData buf).cbacklen = 0 := by
  unfold copyData
  split
  · exact ⟨rfl, rfl⟩
  next hbuf =>
    split
    next hlen => exact ⟨hbuf, hlen⟩
    next => exact ⟨hbuf, rfl⟩

/-! ## The turns that do not append -/

/-- What such a turn, at the byte at `p`, leaves: it takes bytes of the text and nothing is
written, or it ends the loop. -/
inductive Collects (buf : Bytes) (s : EntState σ) (p : Nat) (t : EntState σ) : Prop
  | opened (hc : byteAt buf p = amp)
    (ht : t = { s with
      entname := [], entparts := [], entfullname := [], inEntity := true
      tmp := some (p + 1), curpos := s.curpos + 1 })
  | dotted (hc : byteAt buf p = dot) (hname : s.entname ≠ []) (hparts : s.entparts ≠ [])
    (ht : t = { s with
      entfullname := s.entfullname ++ [dot], entparts := s.entparts ++ [0]
      tmp := some (p + 1), curpos := s.curpos + 1 })
  | firstDot (hc : byteAt buf p = dot) (hname : s.entname ≠ []) (hparts : s.entparts = [])
    (ht : t = { s with
      entfullname := s.entfullname ++ [dot, byteAt buf (p + 1)]
      entparts := [byteAt buf (p + 1)]
      tmp := some (p + 2), curpos := s.curpos + 2 })
  | byte (hamp : byteAt buf p ≠ amp) (hdot : byteAt buf p ≠ dot)
    (hroom : s.entfullname.length < maxEntsize) (name parts : Bytes)
    (ht : t = { s with
      entfullname := s.entfullname ++ [byteAt buf p], entname := name, entparts := parts
      tmp := some (p + 1), curpos := s.curpos + 1 })
  | stopped (err : EntErr) (herr : err ≠ .retBufTooLong)
    (ht : t = { s with tmp := none, errcode := err })
    (hfault : byteAt buf p = dot ∧ s.entname = [] ∨
      byteAt buf p ≠ amp ∧ byteAt buf p ≠ dot ∧ maxEntsize ≤ s.entfullname.length)

theorem stepDot_collects {s : EntState σ} {p : Nat} (hc : byteAt buf p = dot)
    (hin : ¬(cback.isNone || !s.inEntity) = true) :
    Collects buf s p (s.stepDot buf cback p) := by
  rw [stepDot, if_neg hin]
  split
  next hname =>
    exact .stopped .invalidName (by decide) rfl (Or.inl ⟨hc, hname⟩)
  next hname =>
    split
    next hparts => exact .dotted hc hname hparts rfl
    next hparts => exact .firstDot hc hname (Decidable.byContradiction hparts) rfl

theorem stepOther_collects {s : EntState σ} {p : Nat} (hamp : byteAt buf p ≠ amp)
    (hdot : byteAt buf p ≠ dot) (hin : ¬(cback.isNone || !s.inEntity) = true) :
    Collects buf s p (s.stepOther buf cback p (byteAt buf p)) := by
  rw [stepOther, if_neg hin]
  split
  next hlong =>
    exact .stopped .entNameLong (by decide) rfl (Or.inr ⟨hamp, hdot, hlong⟩)
  next hroom =>
    have hlt := Nat.lt_of_not_le hroom
    split
    next hparts => exact .byte hamp hdot hlt (s.entname ++ [byteAt buf p]) s.entparts rfl
    next hparts => exact .byte hamp hdot hlt s.entname (s.entparts ++ [byteAt buf p]) rfl

/-- **Every turn**: it comes to `append_data`, or it collects. -/
theorem step_cases {s : EntState σ} {p : Nat} (hp : s.tmp = some p) :
    (∃ u, s.appending buf cback p = some u ∧ s.step buf cback = u.appendData buf) ∨
      s.appending buf cback p = none ∧ Collects buf s p (s.step buf cback) := by
  unfold step appending
  rw [hp]
  dsimp only
  split
  next hamp =>
    unfold stepAmp
    split
    · exact Or.inl ⟨_, rfl, rfl⟩
    · split
      · exact Or.inl ⟨_, rfl, rfl⟩
      · exact Or.inr ⟨rfl, .opened hamp rfl⟩
  next hamp =>
    split
    next hsemi =>
      left
      unfold stepSemicolon
      cases cback with
      | none => exact ⟨_, rfl, rfl⟩
      | some cb =>
        dsimp only
        split
        · exact ⟨_, rfl, rfl⟩
        · exact ⟨_, rfl, rfl⟩
    next hsemi =>
      -- Outside of a reference and without a callback '.' is a byte like the others.
      by_cases hout : (cback.isNone || !s.inEntity) = true
      · left
        rw [if_pos hout]
        refine ⟨s, rfl, ?_⟩
        split
        · rw [stepDot, if_pos hout]
        · rw [stepOther, if_pos hout]
      · right
        rw [if_neg hout]
        refine ⟨rfl, ?_⟩
        split
        next hdot => exact stepDot_collects hdot hout
        next hdot => exact stepOther_collects hamp hdot hout

theorem step_of_appending {s u : EntState σ} {p : Nat} (hp : s.tmp = some p)
    (hu : s.appending buf cback p = some u) : s.step buf cback = u.appendData buf := by
  rcases @step_cases σ buf cback s p hp with ⟨u', hu', he⟩ | ⟨hnone, -⟩
  · rw [he, Option.some.inj (hu'.symm.trans hu)]
  · rw [hu] at hnone
    cases hnone

theorem collects_of_not_appending {s : EntState σ} {p : Nat} (hp : s.tmp = some p)
    (hu : s.appending buf cback p = none) : Collects buf s p (s.step buf cback) := by
  rcases @step_cases σ buf cback s p hp with ⟨u, hu', -⟩ | ⟨-, hcoll⟩
  · rw [hu] at hu'
    cases hu'
  · exact hcoll

/-- What a turn that collects leaves for the next one. -/
theorem collects_leaves {s t : EntState σ} {p : Nat} (h : Collects buf s p t) :
    t.out = s.out ∧ t.cbackbuf = s.cbackbuf ∧ t.cbacklen = s.cbacklen ∧ t.returned = s.returned ∧
      (s.errcode ≠ .retBufTooLong → t.errcode ≠ .retBufTooLong) := by
  cases h with
  | opened _ ht => subst ht; exact ⟨rfl, rfl, rfl, rfl, id⟩
  | dotted _ _ _ ht => subst ht; exact ⟨rfl, rfl, rfl, rfl, id⟩
  | firstDot _ _ _ ht => subst ht; exact ⟨rfl, rfl, rfl, rfl, id⟩
  | byte _ _ _ _ _ ht => subst ht; exact ⟨rfl, rfl, rfl, rfl, id⟩
  | stopped err hne ht => subst ht; exact ⟨rfl, rfl, rfl, rfl, fun _ => hne⟩

/-- Where a turn that appends has come to: the cursor and `curpos` have moved alike, or it is
behind the ';' of a reference. -/
inductive Appends (buf : Bytes) (cback : Option (EntCallback σ)) (s : EntState σ) (p : Nat)
    (u : EntState σ) : Prop
  | here (hu : u = s)
  | pair (hnext : byteAt buf (p + 1) = amp)
    (hu : u = { s with tmp := some (p + 1), curpos := s.curpos + 1 })
  | closed (cb : EntCallback σ) (hcb : cback = some cb) (hc : byteAt buf p = semicolon)
    (hin : s.inEntity = true)
    (hu : u = { s with
      tmp := some (p + 1), inEntity := false
      user := (cb s.user (entArray s.entname) (entArray s.entparts)).1
      cbackbuf := (cb s.user (entArray s.entname) (entArray s.entparts)).2
      cbacklen := cbackLen (cb s.user (entArray s.entname) (entArray s.entparts)).2
        s.entfullname.length })

theorem appends_of_appending {s u : EntState σ} {p : Nat} (h : s.appending buf cback p = some u) :
    Appends buf cback s p u := by
  unfold appending at h
  split at h
  · split at h
    next hnext => exact .pair hnext (Option.some.inj h).symm
    next =>
      split at h
      · exact .here (Option.some.inj h).symm
      · cases h
  · split at h
    next hsemi =>
      cases cback with
      | none => exact .here (Option.some.inj h).symm
      | some cb =>
        dsimp only at h
        split at h
        · exact .here (Option.some.inj h).symm
        next hin =>
          refine .closed cb rfl hsemi ?_ (Option.some.inj h).symm
          rwa [Bool.not_eq_true', Bool.not_eq_false] at hin
    next =>
      split at h
      · exact .here (Option.some.inj h).symm
      · cases h

/-- What a turn that appends is given. -/
theorem appends_leaves {s u : EntState σ} {p : Nat} (h : Appends buf cback s p u) :
    u.out = s.out ∧ u.returned = s.returned ∧ u.errcode = s.errcode := by
  cases h with
  | here hu => subst hu; exact ⟨rfl, rfl, rfl⟩
  | pair _ hu => subst hu; exact ⟨rfl, rfl, rfl⟩
  | closed cb _ _ _ hu => subst hu; exact ⟨rfl, rfl, rfl⟩

end EntState

end Caudium.Entity
