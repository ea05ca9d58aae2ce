import Caudium.NbSend.Sent

/-!
# Who waits for whom (nb_send.c)

As long as there is an output, either its write callback is set or it is idle, and then the first
input is a non-blocking object that is read. The close callback breaks that: when it frees an
input the output waited for, and the next one is a string or a file, no callback will ever send
it. This is the only way to get stuck (`served_iff`).
-/

namespace Caudium.NbSend

open Lib (Str Memory runFrom EachStep Always)

variable {s s' : Nbio} {off data : Str} {inp : Input} {rest : List Input}

/-- Something will be called: the write callback, or the read or close callback of the first input,
and then nothing is buffered. -/
def Served (s : Nbio) : Prop :=
  match s.outp with
  | none => True
  | some ⟨.active, armed⟩ => armed = true
  | some ⟨.idle, _⟩ => s.bufLen = 0 ∧ ∃ inp ∈ s.inputs.head?, inp.mode = .reading

/-- The output is not idle. -/
def Active (s : Nbio) : Prop := ∃ armed, s.outp = some ⟨.active, armed⟩

/-- The first input is no blocking object. -/
def NotBlocking (s : Nbio) : Prop := ∀ inp ∈ s.inputs.head?, ∀ pieces, inp.type ≠ .blockObj pieces

/-! ## The write callback -/

theorem served_finish (s : Nbio) : Served s.finish := trivial

theorem Active.of_outp (h : Active s) (houtp : s'.outp = s.outp) : Active s' := by
  obtain ⟨armed, hactive⟩ := h
  exact ⟨armed, houtp.trans hactive⟩

theorem Active.served (h : Active s) : Served s.setWriteCb := by
  obtain ⟨armed, houtp⟩ := h
  unfold Served Nbio.setWriteCb
  rw [houtp]
  rfl

theorem Served.finishIfEmpty (h : Served s) : Served s.finishIfEmpty := by
  unfold Nbio.finishIfEmpty
  split
  · exact served_finish s
  · exact h

theorem Active.sendData (h : Active s) (inp : Input) (data : Str) (w : Write) :
    Served (s.sendData inp data w) := by
  unfold Nbio.sendData
  obtain hfail | ⟨n, -, hwrote⟩ := doWrite_cases s data w
  · rw [hfail]
    exact served_finish _
  · rw [hwrote]
    dsimp only
    split
    · apply Served.finishIfEmpty
      apply Active.served
      exact h.of_outp rfl
    · apply Served.finishIfEmpty
      apply Active.served
      exact h.of_outp rfl

theorem Active.waitFor (h : Active s) (hbuf : s.bufLen = 0) (inp : Input) :
    Served (s.waitFor inp) := by
  obtain ⟨armed, houtp⟩ := h
  unfold Served Nbio.waitFor
  rw [houtp]
  exact ⟨hbuf, _, rfl, rfl⟩

theorem Active.sendInput (h : Active s) (hbuf : s.bufLen = 0) (hfirst : NotBlocking s) (w : Write)
    (remap : Option (List Str)) : Served (s.sendInput w remap) := by
  unfold Nbio.sendInput
  split
  · exact served_finish s
  · next inp rest hinputs =>
    split
    · exact h.waitFor hbuf inp
    · exact h.sendData inp _ w
    · split
      · exact h.sendData inp _ w
      · dsimp only
        split
        · exact h.sendData _ _ w
        · exact h.waitFor hbuf _
    · next pieces htype => exact absurd htype (hfirst inp (by rw [hinputs]; rfl) pieces)

theorem Active.redo (h : Active s) (hbuf : s.bufLen = 0) {n : Nat} (hn : s.inputs.length < n) :
    Active (s.redo n).2 ∧ (s.redo n).2.bufLen = 0 ∧
      ((s.redo n).1 ≠ .eof → NotBlocking (s.redo n).2) := by
  induction n generalizing s with
  | zero => exact absurd hn (Nat.not_lt_zero _)
  | succ n ih =>
    unfold Nbio.redo
    split
    · next hinputs =>
      refine ⟨h, hbuf, fun _ inp hinp => ?_⟩
      rw [hinputs] at hinp
      exact absurd hinp (Option.not_mem_none _)
    · next inp rest hinputs =>
      split
      · next pieces htype =>
        split
        · refine ih h hbuf ?_
          rw [length_freeInput, hinputs]
          rw [hinputs] at hn
          exact Nat.lt_of_succ_lt_succ hn
        · split
          · exact ⟨h, hbuf, fun hne => absurd rfl hne⟩
          · split
            · exact ⟨h, hbuf, fun hne => absurd rfl hne⟩
            · refine ⟨h, hbuf, fun _ inp hinp pieces hblock => ?_⟩
              obtain rfl := Option.some.inj hinp
              cases hblock
      · next hother =>
        refine ⟨h, hbuf, fun _ i hi pieces hblock => ?_⟩
        rw [hinputs] at hi
        obtain rfl := Option.some.inj hi
        exact hother pieces hblock

theorem Active.sendBlocking (h : Active s) (hbuf : s.bufLen = 0) (w : Write)
    (remap : Option (List Str)) : Served (s.sendBlocking w remap) := by
  have hstart : Active { s with bufPos := 0 } := h
  obtain ⟨hactive, hlen, hfirst⟩ := hstart.redo hbuf (Nat.lt_succ_self s.inputs.length)
  change Active s.readData.2 at hactive
  change s.readData.2.bufLen = 0 at hlen
  change s.readData.1 ≠ .eof → NotBlocking s.readData.2 at hfirst
  unfold Nbio.sendBlocking
  cases hread : s.readData with
  | mk read t =>
    rw [hread] at hactive hlen hfirst
    cases read with
    | noInputs => exact served_finish t
    | otherInput =>
      exact hactive.sendInput hlen (hfirst fun heof => DataRead.noConfusion heof) w remap
    | string => exact hactive.sendInput hlen (hfirst fun heof => DataRead.noConfusion heof) w remap
    | eof =>
      dsimp only
      obtain hfail | ⟨n, -, hwrote⟩ := doWrite_cases t [] w
      · rw [hfail]
        exact served_finish _
      · rw [hwrote]
        apply Served.finishIfEmpty
        apply Active.served
        exact hactive.of_outp rfl

theorem Active.writeBuffer (h : Active s) (w : Write) :
    ((s.writeBuffer w).2 = false → Served (s.writeBuffer w).1) ∧
      ((s.writeBuffer w).2 = true → Active (s.writeBuffer w).1 ∧
        (s.writeBuffer w).1.bufLen = 0) := by
  unfold Nbio.writeBuffer
  split
  · next hempty => exact ⟨fun hfalse => Bool.noConfusion hfalse, fun _ => ⟨h, hempty⟩⟩
  · obtain hfail | ⟨n, -, hwrote⟩ := doWrite_cases s s.content w
    · rw [hfail]
      exact ⟨fun _ => served_finish _, fun htrue => Bool.noConfusion htrue⟩
    · rw [hwrote]
      dsimp only
      split
      · exact ⟨fun _ => Active.served (h.of_outp rfl), fun htrue => Bool.noConfusion htrue⟩
      · split
        · exact ⟨fun _ => Active.served (h.of_outp rfl), fun htrue => Bool.noConfusion htrue⟩
        · exact ⟨fun hfalse => Bool.noConfusion hfalse, fun _ => ⟨h, rfl⟩⟩

theorem Active.outputWriteCb (h : Active s) (first second : Write) (remap : Option (List Str)) :
    Served (s.outputWriteCb first second remap) := by
  obtain ⟨hback, hon⟩ := h.writeBuffer first
  unfold Nbio.outputWriteCb
  cases hbuffer : s.writeBuffer first with
  | mk t goes =>
    rw [hbuffer] at hback hon
    cases goes with
    | false => exact hback rfl
    | true =>
      obtain ⟨hactive, hlen⟩ := hon rfl
      dsimp only
      split
      · exact hactive.sendBlocking hlen second remap
      · next hother =>
        refine hactive.sendInput hlen (fun inp hinp pieces hblock => ?_) second remap
        obtain ⟨type, len, pos, mode⟩ := inp
        obtain rfl : type = .blockObj pieces := hblock
        cases hinputs : t.inputs with
        | nil =>
          rw [hinputs] at hinp
          exact absurd hinp (Option.not_mem_none _)
        | cons i rest =>
          rw [hinputs] at hinp
          obtain rfl := Option.some.inj hinp
          exact hother _ _ _ _ _ hinputs

/-! ## The other steps -/

theorem Served.newInput (h : Served s) (hshape : Shape s) (inp : Input) :
    Served (s.newInput inp) := by
  unfold Nbio.newInput
  split
  · unfold Served at h ⊢
    dsimp only
    split
    · trivial
    · next armed houtp =>
      rw [houtp] at h
      exact h
    · next armed houtp =>
      rw [houtp] at h
      obtain ⟨hbuf, first, hfirst, hmode⟩ := h
      refine ⟨hbuf, first, ?_, hmode⟩
      rw [List.head?_append, hfirst]
      rfl
  · next hlast =>
    -- no input is there, and so the output is not idle
    have hinputs : s.inputs = [] := by
      rw [hshape.last] at hlast
      cases hinputs : s.inputs with
      | nil => rfl
      | cons first rest =>
        rw [hinputs] at hlast
        exact absurd rfl hlast
    unfold Served at h ⊢
    dsimp only
    split
    · trivial
    · next armed houtp =>
      rw [houtp] at h
      exact h
    · next armed houtp =>
      rw [houtp, hinputs] at h
      obtain ⟨-, first, hfirst, -⟩ := h
      exact absurd hfirst (Option.not_mem_none _)

/-- An output that is woken up is served, and one that is active is if it was. -/
theorem Served.wakeOutput (h : Active s → Served s) {first second : Write}
    {remap : Option (List Str)} (hs : s.wakeOutput first second remap = some s') : Served s' := by
  unfold Nbio.wakeOutput at hs
  split at hs
  · cases hs
  · next outp houtp =>
    obtain ⟨mode, armed⟩ := outp
    split at hs
    · obtain rfl := Option.some.inj hs
      have hactive : Active { s with outp := some ⟨.active, armed⟩ } := ⟨armed, rfl⟩
      exact hactive.outputWriteCb first second remap
    · next hmode =>
      obtain rfl := Option.some.inj hs
      cases mode with
      | active => exact h ⟨armed, houtp⟩
      | idle => exact absurd rfl hmode

/-- When the output is not idle, it only matters whether its callback is set. -/
theorem Served.of_active (h : Served s) (houtp : s'.outp = s.outp) (hactive : Active s') :
    Served s' := by
  obtain ⟨armed, hactive⟩ := hactive
  unfold Served at h ⊢
  rw [← houtp, hactive] at h
  rw [hactive]
  exact h

theorem Served.inputReadCb (h : Served s) {piece : Str} {pieces : List Str}
    {first second : Write} {remap : Option (List Str)}
    (hs : s.inputReadCb inp piece pieces first second remap = some s') : Served s' := by
  unfold Nbio.inputReadCb at hs
  dsimp only at hs
  split at hs
  · split at hs
    · cases hs
    · refine Served.wakeOutput (fun hactive => ?_) hs
      exact h.of_active rfl hactive
  · split at hs
    · refine Served.wakeOutput (fun hactive => ?_) hs
      exact h.of_active rfl hactive
    · refine Served.wakeOutput (fun hactive => ?_) hs
      exact h.of_active rfl hactive

/-- If the first input has come to its end while the output is idle, the next one is a non-blocking
object. -/
def Passes (s : Nbio) : Event → Prop
  | .closed => ∀ inp next rest, s.inputs = inp :: next :: rest → inp.type = .obj [] →
      inp.mode = .reading → (∃ armed, s.outp = some ⟨.idle, armed⟩) → ∃ pieces, next.type = .obj pieces
  | _ => True

theorem mode_wake (hsleep : inp.mode = .sleeping) :
    inp.wake.mode = .reading ↔ ∃ pieces, inp.type = .obj pieces := by
  unfold Input.wake
  split
  · next pieces htype => exact ⟨fun _ => ⟨pieces, htype⟩, fun _ => rfl⟩
  · next hother =>
    constructor
    · intro hmode
      cases hsleep.symm.trans hmode
    · intro hobj
      obtain ⟨pieces, htype⟩ := hobj
      exact absurd htype (hother pieces)

/-- What the close callback does to an output that waits for the first input. -/
theorem served_closed (h : Served s) (hbusy : Busy off s) (hinputs : s.inputs = inp :: rest)
    (htype : inp.type = .obj []) (hmode : inp.mode = .reading) :
    Served s.inputCloseCb ↔ Passes s .closed := by
  have hfree : s.freeInput.inputs = wakeFirst rest := by
    unfold Nbio.freeInput
    rw [hinputs, hbusy.finished]
    rfl
  obtain ⟨⟨mode, armed⟩, houtp⟩ := Option.isSome_iff_exists.mp hbusy.outp
  cases mode with
  | active =>
    refine iff_of_true ?_ fun _ _ _ _ _ _ hidle => ?_
    · apply Served.finishIfEmpty
      exact h.of_active rfl ⟨armed, houtp⟩
    · obtain ⟨_, hidle⟩ := hidle
      cases houtp.symm.trans hidle
  | idle =>
    unfold Served at h
    rw [houtp] at h
    obtain ⟨hbuf, -⟩ := h
    cases rest with
    | nil =>
      refine iff_of_true ?_ fun inp' next rest hnext => ?_
      · unfold Nbio.inputCloseCb Nbio.finishIfEmpty
        rw [if_pos ⟨hbuf, by rw [hfree]; rfl⟩]
        exact served_finish _
      · cases hinputs.symm.trans hnext
    | cons next rest =>
      have hsleep : next.mode = .sleeping := by
        apply hbusy.asleep
        rw [hinputs]
        exact List.mem_cons_self ..
      have hserved : Served s.inputCloseCb ↔ next.wake.mode = .reading := by
        unfold Nbio.inputCloseCb Nbio.finishIfEmpty
        rw [if_neg (by rw [hfree]; exact fun hand => Bool.noConfusion hand.2)]
        unfold Served
        rw [show s.freeInput.outp = s.outp from rfl, houtp, hfree]
        constructor
        · intro hand
          obtain ⟨-, first, hfirst, hreading⟩ := hand
          obtain rfl := Option.some.inj hfirst
          exact hreading
        · intro hreading
          exact ⟨hbuf, next.wake, rfl, hreading⟩
      rw [hserved, mode_wake hsleep]
      constructor
      · intro hobj inp' next' rest' hnext _ _ _
        cases hinputs.symm.trans hnext
        exact hobj
      · intro hpasses
        exact hpasses inp next rest hinputs htype hmode ⟨armed, houtp⟩

/-- A write callback that comes while the output is idle lets it wait on. -/
theorem Served.again (h : Served s) (hshape : Shape s) {armed : Bool}
    (houtp : s.outp = some ⟨.idle, armed⟩) (first second : Write) (remap : Option (List Str)) :
    Served ({ s with outp := some ⟨.idle, false⟩ }.outputWriteCb first second remap) := by
  unfold Served at h
  rw [houtp] at h
  obtain ⟨hbuf, inp, hfirst, hmode⟩ := h
  obtain ⟨⟨pieces, htype⟩, -⟩ := hshape.awake inp hfirst hmode
  obtain ⟨rest, hinputs⟩ := List.head?_eq_some_iff.mp hfirst
  obtain ⟨type, len, pos, mode⟩ := inp
  obtain rfl : type = .obj pieces := htype
  unfold Nbio.outputWriteCb Nbio.writeBuffer
  rw [if_pos hbuf]
  dsimp only
  rw [hinputs]
  dsimp only
  unfold Nbio.sendInput
  exact ⟨hbuf, _, rfl, rfl⟩

/-- What each step keeps, but for the close callback. -/
theorem Served.step {e : Event} (h : Served s) (hinv : Inv off s) (hs : s.step e = some s')
    (he : e ≠ .closed) : Served s' := by
  cases e with
  | input o len =>
    simp only [Nbio.step] at hs
    split at hs
    · obtain rfl := Option.some.inj hs
      exact h.newInput hinv.toShape _
    · cases hs
  | write data =>
    obtain rfl := Option.some.inj hs
    split
    · exact h
    · exact h.newInput hinv.toShape _
  | output =>
    obtain rfl := Option.some.inj hs
    exact rfl
  | setDoneCallback cb =>
    obtain rfl := Option.some.inj hs
    exact h
  | writable first second remap =>
    simp only [Nbio.step] at hs
    split at hs
    · cases hs
    · next outp houtp =>
      obtain rfl := Option.some.inj hs
      obtain ⟨mode, armed⟩ := outp
      cases mode with
      | active =>
        have hactive : Active { s with outp := some ⟨.active, false⟩ } := ⟨false, rfl⟩
        exact hactive.outputWriteCb first second remap
      | idle => exact h.again hinv.toShape houtp first second remap
  | readable first second remap =>
    simp only [Nbio.step] at hs
    split at hs
    · split at hs
      · exact h.inputReadCb hs
      · cases hs
    · cases hs
  | closed => exact absurd rfl he

end Caudium.NbSend
