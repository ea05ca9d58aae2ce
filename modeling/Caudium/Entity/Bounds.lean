import Caudium.Entity.EntParse

/-!
# How far the reference buffers are filled (`entparse.c`)

`entfullname`, `entname` and `entparts` are arrays of `ENT_MAX_ENTSIZE + 1` bytes. Only the
default case of the switch compares `entlen` with `ENT_MAX_ENTSIZE`; `case '.'` stores one or two
bytes without looking. So the counters stay inside of the arrays as long as the dots do
(`inBounds_iff`).
-/

namespace Caudium.Entity

open Lib (Bytes Visits)

namespace EntState

variable {σ : Type} {buf : Bytes} {cback : Option (EntCallback σ)}

/-- The counters are not above the sizes of their arrays. -/
structure InBounds (s : EntState σ) : Prop where
  full : s.entfullname.length ≤ maxEntsize + 1
  name : s.entname.length ≤ maxEntsize + 1
  parts : s.entparts.length ≤ maxEntsize + 1

/-- If the next byte is a dot that is stored (the first one with the byte behind it), there is
room for it in `entfullname`. -/
def DotFits (buf : Bytes) (s : EntState σ) : Prop :=
  ∀ p, s.tmp = some p → byteAt buf p = dot → s.inEntity = true → s.entname ≠ [] →
    s.entfullname.length + (if s.entparts = [] then 2 else 1) ≤ maxEntsize + 1

/-- The name and the parts are pieces of the reference, and there are references for a callback
only. -/
structure Filled (cback : Option (EntCallback σ)) (s : EntState σ) : Prop where
  name : s.entname.length ≤ s.entfullname.length
  parts : s.entparts.length ≤ s.entfullname.length
  called : s.inEntity = true → cback.isSome = true

theorem Filled.inBounds {s : EntState σ} (h : Filled cback s)
    (hfull : s.entfullname.length ≤ maxEntsize + 1) : InBounds s :=
  ⟨hfull, Nat.le_trans h.name hfull, Nat.le_trans h.parts hfull⟩

/-! ## What a turn does to the buffers -/

/-- `t` has the buffers of `s`. -/
structure SameBuffers (s t : EntState σ) : Prop where
  full : t.entfullname = s.entfullname
  name : t.entname = s.entname
  parts : t.entparts = s.entparts
  inside : t.inEntity = true → s.inEntity = true

theorem SameBuffers.filled {s t : EntState σ} (h : SameBuffers s t) (hs : Filled cback s) :
    Filled cback t where
  name := by rw [h.name, h.full]; exact hs.name
  parts := by rw [h.parts, h.full]; exact hs.parts
  called ht := hs.called (h.inside ht)

theorem SameBuffers.inBounds {s t : EntState σ} (h : SameBuffers s t) (hs : InBounds s) :
    InBounds t where
  full := by rw [h.full]; exact hs.full
  name := by rw [h.name]; exact hs.name
  parts := by rw [h.parts]; exact hs.parts

theorem sameBuffers_copyData (buf : Bytes) (s : EntState σ) : SameBuffers s (s.copyData buf) := by
  unfold copyData
  split
  · exact ⟨rfl, rfl, rfl, id⟩
  · split
    · exact ⟨rfl, rfl, rfl, id⟩
    · exact ⟨rfl, rfl, rfl, id⟩

theorem sameBuffers_appendData (buf : Bytes) (s : EntState σ) :
    SameBuffers s (s.appendData buf) := by
  unfold appendData
  dsimp only
  split
  · split
    · exact ⟨rfl, rfl, rfl, id⟩
    · have h := sameBuffers_copyData buf
        { s with retbuflen := s.retbuflen + 2 * (s.out.length + s.cbacklen + 2) }
      exact ⟨h.full, h.name, h.parts, h.inside⟩
  · exact sameBuffers_copyData buf s

/-- A turn leaves the buffers alone, or empties them, or adds what it reads: one byte where there
is room for it, or a dot. -/
inductive Fills (buf : Bytes) (cback : Option (EntCallback σ)) (s t : EntState σ) : Prop
  | same (h : SameBuffers s t)
  | emptied (hfull : t.entfullname = []) (hname : t.entname = []) (hparts : t.entparts = [])
    (hcalled : cback.isSome = true)
  | byte (hroom : s.entfullname.length < maxEntsize)
    (hfull : t.entfullname.length = s.entfullname.length + 1)
    (hname : t.entname.length ≤ s.entname.length + 1)
    (hparts : t.entparts.length ≤ s.entparts.length + 1)
    (hcalled : cback.isSome = true)
  | dotted {p : Nat} (hp : s.tmp = some p) (hdot : byteAt buf p = dot) (hin : s.inEntity = true)
    (hne : s.entname ≠ [])
    (hfull : t.entfullname.length = s.entfullname.length + if s.entparts = [] then 2 else 1)
    (hname : t.entname = s.entname) (hparts : t.entparts.length = s.entparts.length + 1)
    (hcalled : cback.isSome = true)

theorem fills_stepAmp (s : EntState σ) (p : Nat) : Fills buf cback s (s.stepAmp buf cback p) := by
  unfold stepAmp
  split
  · have h := sameBuffers_appendData buf { s with tmp := some (p + 1), curpos := s.curpos + 1 }
    exact .same ⟨h.full, h.name, h.parts, h.inside⟩
  · split
    · exact .same (sameBuffers_appendData buf s)
    next hnone =>
      refine .emptied rfl rfl rfl ?_
      rwa [Option.isSome_iff_ne_none, ne_eq, ← Option.isNone_iff_eq_none]

theorem fills_stepSemicolon (s : EntState σ) (p : Nat) :
    Fills buf cback s (s.stepSemicolon buf cback p) := by
  unfold stepSemicolon
  split
  · exact .same (sameBuffers_appendData buf s)
  next cb =>
    split
    · exact .same (sameBuffers_appendData buf s)
    · have h := sameBuffers_appendData buf { s with
        tmp := some (p + 1), inEntity := false
        user := (cb s.user (entArray s.entname) (entArray s.entparts)).1
        cbackbuf := (cb s.user (entArray s.entname) (entArray s.entparts)).2
        cbacklen := cbackLen (cb s.user (entArray s.entname) (entArray s.entparts)).2
          s.entfullname.length }
      exact .same ⟨h.full, h.name, h.parts, fun hin => nomatch h.inside hin⟩

/-- Past the first test of a case there is a callback, and a reference is being read. -/
theorem called_of_not {s : EntState σ} (h : ¬(cback.isNone || !s.inEntity) = true) :
    cback.isSome = true ∧ s.inEntity = true := by
  cases cback with
  | none => exact absurd rfl h
  | some cb => exact ⟨rfl, by simpa using h⟩

theorem fills_stepDot {s : EntState σ} {p : Nat} (hp : s.tmp = some p) (hdot : byteAt buf p = dot) :
    Fills buf cback s (s.stepDot buf cback p) := by
  unfold stepDot
  split
  · exact .same (sameBuffers_appendData buf s)
  next hnot =>
    obtain ⟨hcalled, hin⟩ := called_of_not hnot
    split
    · exact .same ⟨rfl, rfl, rfl, id⟩
    next hne =>
      split
      next hparts =>
        refine .dotted hp hdot hin hne ?_ rfl List.length_append hcalled
        rw [if_neg hparts, List.length_append]
        rfl
      next hparts =>
        have hnil : s.entparts = [] := Decidable.byContradiction hparts
        refine .dotted hp hdot hin hne ?_ rfl ?_ hcalled
        · rw [if_pos hnil, List.length_append]
          rfl
        · rw [hnil]
          rfl

theorem fills_stepOther (s : EntState σ) (p : Nat) (c : UInt8) :
    Fills buf cback s (s.stepOther buf cback p c) := by
  unfold stepOther
  split
  · exact .same (sameBuffers_appendData buf s)
  next hnot =>
    obtain ⟨hcalled, -⟩ := called_of_not hnot
    split
    · exact .same ⟨rfl, rfl, rfl, id⟩
    next hroom =>
      have hlt := Nat.lt_of_not_le hroom
      split
      · exact .byte hlt List.length_append (Nat.le_of_eq List.length_append) (Nat.le_succ _) hcalled
      · exact .byte hlt List.length_append (Nat.le_succ _) (Nat.le_of_eq List.length_append) hcalled

/-- What a turn can do. -/
theorem fills_step (buf : Bytes) (cback : Option (EntCallback σ)) (s : EntState σ) :
    Fills buf cback s (s.step buf cback) := by
  unfold step
  split
  · exact .same ⟨rfl, rfl, rfl, id⟩
  next p hp =>
    dsimp only
    split
    · exact fills_stepAmp s p
    · split
      · exact fills_stepSemicolon s p
      · split
        next hdot => exact fills_stepDot hp hdot
        next => exact fills_stepOther s p _

/-! ## All through the loop -/

theorem Fills.filled {s t : EntState σ} (h : Fills buf cback s t) (hs : Filled cback s) :
    Filled cback t := by
  have hname := hs.name
  have hparts := hs.parts
  cases h with
  | same h => exact h.filled hs
  | emptied hfull' hname' hparts' hcalled =>
    refine ⟨?_, ?_, fun _ => hcalled⟩
    · rw [hname']
      exact Nat.zero_le _
    · rw [hparts']
      exact Nat.zero_le _
  | byte hroom hfull' hname' hparts' hcalled =>
    exact ⟨by omega, by omega, fun _ => hcalled⟩
  | dotted hp hdot hin hne hfull' hname' hparts' hcalled =>
    refine ⟨?_, ?_, fun _ => hcalled⟩
    · rw [hname', hfull']
      omega
    · rw [hparts', hfull']
      split
      · omega
      · omega

theorem Fills.inBounds {s t : EntState σ} (h : Fills buf cback s t) (hs : Filled cback s)
    (hbounds : InBounds s) (hdots : DotFits buf s) : InBounds t := by
  have ht := h.filled hs
  cases h with
  | same h => exact h.inBounds hbounds
  | emptied hfull' =>
    refine ht.inBounds ?_
    rw [hfull']
    exact Nat.zero_le _
  | byte hroom hfull' => exact ht.inBounds (by omega)
  | dotted hp hdot hin hne hfull' =>
    refine ht.inBounds ?_
    rw [hfull']
    exact hdots _ hp hdot hin hne

/-- A dot that does not fit is stored all the same. -/
theorem stepDot_stores (buf : Bytes) {s : EntState σ} (p : Nat) (hcalled : cback.isSome = true)
    (hin : s.inEntity = true) (hne : s.entname ≠ []) :
    (s.stepDot buf cback p).entfullname.length =
      s.entfullname.length + if s.entparts = [] then 2 else 1 := by
  have hnot : ¬(cback.isNone || !s.inEntity) = true := by
    rw [hin]
    cases cback with
    | none => cases hcalled
    | some cb => exact Bool.false_ne_true
  rw [stepDot, if_neg hnot, if_neg hne]
  by_cases hparts : s.entparts = []
  · rw [if_neg (not_not_intro hparts), if_pos hparts]
    exact List.length_append
  · rw [if_pos hparts, if_neg hparts]
    exact List.length_append

theorem dotFits_of_inBounds {s : EntState σ} (hs : Filled cback s)
    (hnext : InBounds (s.step buf cback)) : DotFits buf s := by
  intro p hp hdot hin hne
  have hstep : s.step buf cback = s.stepDot buf cback p := by
    rw [step, hp]
    dsimp only
    rw [hdot]
    rfl
  rw [← stepDot_stores buf p (hs.called hin) hin hne, ← hstep]
  exact hnext.full

theorem filled_init (cback : Option (EntCallback σ)) (buf : Bytes) (user : σ) :
    Filled cback (init buf user) :=
  ⟨Nat.le_refl _, Nat.le_refl _, fun h => nomatch h⟩

theorem dotFits_of_visits {user : σ}
    (hall : ∀ t, Visits (live buf) (step buf cback) (init buf user) t → InBounds t) {t : EntState σ}
    (ht : Visits (live buf) (step buf cback) (init buf user) t) (hlive : live buf t = true) :
    DotFits buf t := by
  have hfilled : Filled cback t :=
    Lib.visits_inv (fun s _ hs => (fills_step buf cback s).filled hs) ht (filled_init cback buf user)
  exact dotFits_of_inBounds hfilled (hall _ (ht.trans (.later hlive (.here _))))

/-- Dots that fit keep the loop inside of the arrays. -/
theorem inBounds_of_dotFits {user : σ}
    (hdots : ∀ t, Visits (live buf) (step buf cback) (init buf user) t → live buf t = true →
      DotFits buf t) {t : EntState σ}
    (ht : Visits (live buf) (step buf cback) (init buf user) t) : InBounds t := by
  have hinv := Lib.visits_inv (P := fun s => (∀ t, Visits (live buf) (step buf cback) s t →
      live buf t = true → DotFits buf t) ∧ Filled cback s ∧ InBounds s) ?_ ht
    ⟨hdots, filled_init cback buf user, (filled_init cback buf user).inBounds (Nat.zero_le _)⟩
  · exact hinv.2.2
  · intro s hlive h
    obtain ⟨hall, hfilled, hbounds⟩ := h
    have hfills := fills_step buf cback s
    exact ⟨fun t ht => hall t (.later hlive ht), hfills.filled hfilled,
      hfills.inBounds hfilled hbounds (hall s (.here s) hlive)⟩

/-- "&a" and 256 dots. -/
def manyDots : Bytes := amp :: 97 :: List.replicate 256 dot

end EntState

end Caudium.Entity
