import Caudium.UltraLog.Blocks
import Mathlib.Data.List.TakeWhile

/-!
# Complete lines

A complete line has all the fields of the format, each of them right (`wellFormed`). Such a
line is read without a skip, and what it does depends neither on what earlier lines have left
in `buf` and `tmpinteger` nor on the date they have left in `buf_points`: two readers that
differ in these only (`Twin`) do the same with it (`Twin.fields`).
-/

namespace Caudium.UltraLog

open Lib (Str)

variable {F : Floats} {env : Setup}

/-! ## What a complete line is -/

/-- The fields of a line, each up to the first character of the class that ends it. -/
def splitFields : List LineState → Str → Option (List Str)
  | [], _ => none
  | [_], line => some [line]
  | st :: states, line =>
    match line.dropWhile fun c => charClass c ≠ st.ending with
    | _ :: rest =>
      (splitFields states rest).map ((line.takeWhile fun c => charClass c ≠ st.ending) :: ·)
    | [] => none

/-- The value of a string of digits. -/
def decimal (s : Str) : Option Nat :=
  if s ≠ [] ∧ ∀ c ∈ s, charClass c = .digit then
    some (s.foldl (fun v c => v * 10 + (c.toNat - '0'.toNat)) 0)
  else none

def isNumber (lo hi : Nat) (s : Str) : Bool := (decimal s).any fun v => lo ≤ v && v ≤ hi

/-- The string is right for the field. -/
def fieldOk (f : Option Field) (s : Str) : Bool :=
  match f with
  | some .date => isNumber 1 31 s
  | some .month => (s.length = 3 && (monthNumber s).isSome) || (s.length = 2 && isNumber 1 12 s)
  | some .year => isNumber 0 9999 s
  | some .hour => isNumber 0 23 s
  | some .minute => isNumber 0 59 s
  | some .upSec => isNumber 0 60 s
  | some .code => isNumber 0 2147483647 s
  | some .bytes => s = ['-'] || s = ['?'] || isNumber 0 2147483647 s
  | _ => true

/-- The field is kept in `buf`, with a NUL. -/
def Field.isText : Field → Bool
  | .addr | .refer | .agent | .method | .url | .rfc | .proto => true
  | _ => false

/-- The room that a field takes in `buf`. -/
def room (st : LineState) (field : Str) : Nat :=
  field.length + if st.save.any Field.isText then 1 else 0

/-- The room that the fields take. -/
def rooms : List LineState → List Str → Nat
  | st :: states, field :: fields => room st field + rooms states fields
  | _, _ => 0

/-- Each field is right. -/
def fieldsOk : List LineState → List Str → Bool
  | st :: states, field :: fields => fieldOk st.save field && fieldsOk states fields
  | _, _ => true

/-- A line, without its end, that is complete and well-formed, and not too long. -/
def wellFormed (states : List LineState) (text : Str) : Bool :=
  text.all (fun c => charClass c ≠ .crlf) &&
    (splitFields states text).any fun fields =>
      fieldsOk states fields && decide (1 + rooms states fields ≤ maxLineLen)

/-! ## Fields that are read without a skip -/

/-- The field is accepted, whatever was read before. -/
def Sound (f : Option Field) (field : Str) : Prop :=
  match f with
  | some .date | some .hour | some .minute | some .upSec | some .code | some .year =>
    (number 0 field).2 = true
  | some .month => ∃ v, ∀ tmpinteger, monthValue tmpinteger field = (v, true)
  | some .bytes => ∃ c cs v, field = c :: cs ∧ ∀ tmpinteger, bytesValue tmpinteger c false cs = (v, true)
  | _ => True

theorem number_of_digits {s : Str} (h : ∀ c ∈ s, charClass c = .digit) (n : Int) :
    (number n s).2 = true := by
  induction s generalizing n with
  | nil => rfl
  | cons c s ih =>
    rw [number, if_pos (h c List.mem_cons_self)]
    exact ih (fun c' hc' => h c' (List.mem_cons_of_mem _ hc')) _

theorem digits_of_isNumber {lo hi : Nat} {s : Str} (h : isNumber lo hi s = true) :
    s ≠ [] ∧ ∀ c ∈ s, charClass c = .digit := by
  unfold isNumber decimal at h
  split at h
  · assumption
  · cases h

theorem sound_number {lo hi : Nat} {s : Str} (h : isNumber lo hi s = true) :
    (number 0 s).2 = true :=
  number_of_digits (digits_of_isNumber h).2 0

theorem digitValue_eq {c : Char} (h : charClass c = .digit) :
    digitValue c = ((c.toNat - '0'.toNat : Nat) : Int) ∧ c.toNat - '0'.toNat ≤ 9 := by
  have hc : 48 ≤ c.toNat ∧ c.toNat ≤ 57 := by
    unfold charClass at h
    split at h <;> first | cases h | skip
    split at h
    · assumption
    · cases h
  have hall : ∀ n < 58, 48 ≤ n → n &&& 15 = n - 48 := by decide
  have heq := hall c.toNat (by omega) hc.1
  refine ⟨congrArg (Nat.cast (R := Int)) heq, ?_⟩
  show c.toNat - 48 ≤ 9
  omega

/-- A number of two digits is read as what it is. -/
theorem number_two {lo hi : Nat} {a b : Char} (h : isNumber lo hi [a, b] = true) :
    ∃ v : Nat, number 0 [a, b] = ((v : Int), true) ∧ lo ≤ v ∧ v ≤ hi := by
  obtain ⟨-, hdigits⟩ := digits_of_isNumber h
  have ha := hdigits a (by simp)
  have hb := hdigits b (by simp)
  obtain ⟨hva, hla⟩ := digitValue_eq ha
  obtain ⟨hvb, hlb⟩ := digitValue_eq hb
  refine ⟨(a.toNat - '0'.toNat) * 10 + (b.toNat - '0'.toNat), ?_, ?_⟩
  · simp only [number, ha, hb, if_true, hva, hvb]
    refine Prod.ext ?_ rfl
    simp only [wrap32]
    omega
  · unfold isNumber decimal at h
    rw [if_pos ⟨by simp, hdigits⟩] at h
    simpa using h

theorem sound_month {s : Str} (h : fieldOk (some .month) s = true) : Sound (some .month) s := by
  simp only [fieldOk, Bool.or_eq_true, Bool.and_eq_true, decide_eq_true_eq] at h
  obtain ⟨hlen, hname⟩ | ⟨hlen, hnum⟩ := h
  · obtain ⟨v, hv⟩ := Option.isSome_iff_exists.mp hname
    have hrange : 1 ≤ v ∧ v ≤ 12 := by
      unfold monthNumber at hv
      obtain ⟨i, hi, rfl⟩ := Option.map_eq_some_iff.mp hv
      have hlt : i < monthNames.length := (List.findIdx?_eq_some_iff_getElem.mp hi).1
      have : monthNames.length = 12 := rfl
      omega
    refine ⟨v, fun tmpinteger => ?_⟩
    simp only [monthValue, hlen, hv, Option.getD_some]
    simp [hrange]
  · obtain ⟨a, b, rfl⟩ := List.length_eq_two.mp hlen
    obtain ⟨v, hv, hrange⟩ := number_two hnum
    refine ⟨v, fun tmpinteger => ?_⟩
    simp only [monthValue, hlen, if_true, hv]
    simp
    omega

theorem sound_bytes {s : Str} (h : fieldOk (some .bytes) s = true) : Sound (some .bytes) s := by
  simp only [fieldOk, Bool.or_eq_true, decide_eq_true_eq] at h
  obtain (rfl | rfl) | hnum := h
  · exact ⟨'-', [], 0, rfl, fun _ => rfl⟩
  · exact ⟨'?', [], 0, rfl, fun _ => rfl⟩
  · obtain ⟨hne, hdigits⟩ := digits_of_isNumber hnum
    obtain ⟨c, cs, rfl⟩ := List.exists_cons_of_ne_nil hne
    have hcs := number_of_digits (fun c' hc' => hdigits c' (List.mem_cons_of_mem _ hc'))
      (digitValue c)
    refine ⟨c, cs, (number (digitValue c) cs).1, rfl, fun _ => ?_⟩
    unfold bytesValue
    rw [hdigits c List.mem_cons_self]
    exact Prod.ext rfl hcs

theorem sound_of_fieldOk {f : Option Field} {s : Str} (h : fieldOk f s = true) : Sound f s := by
  cases f with
  | none => trivial
  | some f =>
    cases f with
    | month => exact sound_month h
    | bytes => exact sound_bytes h
    | date | year | hour | minute | upSec | code => exact sound_number h
    | addr | refer | agent | method | url | rfc | proto => trivial

/-! ## Two readers in the same line -/

/-- The readers are at the same place, what they have stored of the line is the same, and so
are the totals and the points of the fields in `D`. -/
structure Twin (D : Field → Prop) (s s' : Reader F) : Prop where
  bufpos : s.bufpos = s'.bufpos
  fieldPosition : s.fieldPosition = s'.fieldPosition
  statePos : s.statePos = s'.statePos
  room : s.bufpos ≤ maxLineLen
  started : s.fieldPosition ≤ s.bufpos
  buf : ∀ i < s.bufpos, s.buf i = s'.buf i
  points : ∀ f, (f.kept = true → D f) → s.bufPoints f = s'.bufPoints f
  ended : ∀ f, f.isText = true → ∃ j, (s.bufPoints f).toNat ≤ j ∧ j < s.bufpos ∧ s.buf j = '\x00'
  totals : s.totals = s'.totals
  days : s.days = s'.days

/-- A character that is stored. -/
def Reader.push (s : Reader F) (x : Char) : Reader F :=
  { s with buf := Function.update s.buf s.bufpos x, bufpos := s.bufpos + 1 }

theorem bufset_eq {s : Reader F} (h : s.bufpos < maxLineLen) (x : Char) :
    s.bufset x = .next (s.push x) :=
  if_neg (Nat.ne_of_lt h)

theorem slice_push {s : Reader F} {i : Nat} (h : i ≤ s.bufpos) (x : Char) :
    (s.push x).slice i (s.push x).bufpos = s.slice i s.bufpos ++ [x] := by
  have hold : ∀ k ∈ List.range' i (s.bufpos - i), Function.update s.buf s.bufpos x k = s.buf k := by
    intro k hk
    have := List.mem_range'_1.mp hk
    exact Function.update_of_ne (by omega) ..
  show (List.range' i (s.bufpos + 1 - i)).map (Function.update s.buf s.bufpos x) = _
  rw [show s.bufpos + 1 - i = s.bufpos - i + 1 by omega, List.range'_concat, List.map_append,
    List.map_congr_left hold, List.map_singleton, show i + 1 * (s.bufpos - i) = s.bufpos by omega,
    Function.update_self]
  rfl

theorem slice_eq_cons {s : Reader F} {i j : Nat} {c : Char} {cs : Str} (h : s.slice i j = c :: cs) :
    s.buf i = c ∧ s.slice (i + 1) j = cs ∧ j ≠ i := by
  unfold Reader.slice at h ⊢
  obtain ⟨n, hn⟩ : ∃ n, j - i = n + 1 := by
    cases hji : j - i with
    | zero => rw [hji] at h; cases h
    | succ n => exact ⟨n, rfl⟩
  rw [hn, List.range'_succ, List.map_cons, List.cons.injEq] at h
  rw [show j - (i + 1) = n by omega]
  exact ⟨h.1, h.2, by omega⟩

variable {D : Field → Prop} {s s' : Reader F}

theorem Twin.slice (h : Twin D s s') (i : Nat) : s.slice i s.bufpos = s'.slice i s'.bufpos := by
  rw [← h.bufpos]
  refine List.map_congr_left fun k hk => h.buf k ?_
  have := List.mem_range'_1.mp hk
  omega

theorem Twin.state (h : Twin D s s') : s.state env = s'.state env := by
  unfold Reader.state
  rw [h.statePos]

theorem Twin.push (h : Twin D s s') (hlt : s.bufpos < maxLineLen) (x : Char) :
    Twin D (s.push x) (s'.push x) where
  bufpos := congrArg (· + 1) h.bufpos
  fieldPosition := h.fieldPosition
  statePos := h.statePos
  room := hlt
  started := Nat.le_succ_of_le h.started
  buf i hi := by
    show Function.update s.buf s.bufpos x i = Function.update s'.buf s'.bufpos x i
    rw [← h.bufpos]
    by_cases hi' : i = s.bufpos
    · rw [hi', Function.update_self, Function.update_self]
    · rw [Function.update_of_ne hi', Function.update_of_ne hi']
      exact h.buf i (Nat.lt_of_le_of_ne (Nat.le_of_lt_succ hi) hi')
  points := h.points
  ended f hf := by
    obtain ⟨j, hj, hlt, hnul⟩ := h.ended f hf
    exact ⟨j, hj, Nat.lt_succ_of_lt hlt, (Function.update_of_ne (Nat.ne_of_lt hlt) ..).trans hnul⟩
  totals := h.totals
  days := h.days

/-- A value that is stored, in a field that is not kept in `buf`. -/
theorem Twin.setPoint (h : Twin D s s') {f : Field} (hf : f.isText = false) (v t t' : Int) :
    Twin (fun g => D g ∨ g = f) ({ s with tmpinteger := t }.setPoint f v)
      ({ s' with tmpinteger := t' }.setPoint f v) where
  bufpos := h.bufpos
  fieldPosition := h.fieldPosition
  statePos := h.statePos
  room := h.room
  started := h.started
  buf := h.buf
  points g hg := by
    show Function.update s.bufPoints f v g = Function.update s'.bufPoints f v g
    by_cases hgf : g = f
    · rw [hgf, Function.update_self, Function.update_self]
    · rw [Function.update_of_ne hgf, Function.update_of_ne hgf]
      exact h.points g fun hk => (hg hk).resolve_right hgf
  ended g hg := by
    have hgf : g ≠ f := fun e => by rw [e, hf] at hg; cases hg
    show ∃ j, (Function.update s.bufPoints f v g).toNat ≤ j ∧ _
    rw [Function.update_of_ne hgf]
    exact h.ended g hg
  totals := h.totals
  days := h.days

/-- A string that is ended, and pointed to. -/
theorem Twin.setText (h : Twin D s s') (hlt : s.bufpos < maxLineLen) (f : Field) :
    Twin (fun g => D g ∨ g = f) ((s.push '\x00').setPoint f s.fieldPosition)
      ((s'.push '\x00').setPoint f s'.fieldPosition) where
  bufpos := congrArg (· + 1) h.bufpos
  fieldPosition := h.fieldPosition
  statePos := h.statePos
  room := hlt
  started := Nat.le_succ_of_le h.started
  buf := (h.push hlt '\x00').buf
  points g hg := by
    show Function.update s.bufPoints f _ g = Function.update s'.bufPoints f _ g
    by_cases hgf : g = f
    · rw [hgf, Function.update_self, Function.update_self, h.fieldPosition]
    · rw [Function.update_of_ne hgf, Function.update_of_ne hgf]
      exact h.points g fun hk => (hg hk).resolve_right hgf
  ended g hg := by
    show ∃ j, (Function.update s.bufPoints f _ g).toNat ≤ j ∧ _
    by_cases hgf : g = f
    · refine ⟨s.bufpos, ?_, Nat.lt_succ_self _, Function.update_self ..⟩
      rw [hgf, Function.update_self]
      exact h.started
    · rw [Function.update_of_ne hgf]
      exact (h.push hlt '\x00').ended g hg
  totals := h.totals
  days := h.days

/-! ### A field -/

/-- What is known when a field has been processed in two readers. -/
structure Processed (env : Setup) (D : Field → Prop) (s s' t t' : Reader F) : Prop where
  left : s.processField env = .next t
  right : s'.processField env = .next t'
  twin : Twin (fun g => D g ∨ (s.state env).save = some g) t t'
  statePos : t.statePos = s.statePos
  bufpos : t.bufpos = s.bufpos + if (s.state env).save.any Field.isText then 1 else 0

theorem Twin.mono (h : Twin D s s') {D' : Field → Prop} (hD : ∀ f, D' f → D f) : Twin D' s s' :=
  { h with points := fun f hf => h.points f fun hk => hD f (hf hk) }

/-- A number whose value does not depend on `tmpinteger`. -/
theorem Twin.process_number (h : Twin D s s') {f : Field} (hf : f.isText = false)
    (hsave : (s.state env).save = some f) {value value' : Int × Bool} {v : Int}
    (hv : value = (v, true)) (hv' : value' = (v, true)) (hleft : s.processField env = s.store f value)
    (hright : s'.processField env = s'.store f value') : ∃ t t', Processed env D s s' t t' := by
  rw [hv] at hleft
  rw [hv'] at hright
  refine ⟨_, _, hleft, hright, ?_, rfl, ?_⟩
  · rw [hsave]
    exact (h.setPoint hf v v v).mono fun g => Or.imp_right fun hg => (Option.some.inj hg).symm
  · rw [hsave, Option.any_some, hf]
    rfl

theorem processField_text {u : Reader F} {f : Field} (hf : f.isText = true)
    (hsave : (u.state env).save = some f) (hlt : u.bufpos < maxLineLen) :
    u.processField env = .next ((u.push '\x00').setPoint f u.fieldPosition) := by
  unfold Reader.processField
  rw [hsave]
  cases f <;> simp only [bufset_eq hlt] <;> cases hf

theorem Twin.process_text (h : Twin D s s') {f : Field} (hf : f.isText = true)
    (hsave : (s.state env).save = some f) (hlt : s.bufpos < maxLineLen) :
    ∃ t t', Processed env D s s' t t' := by
  have hsave' : (s'.state env).save = some f := by rw [← h.state, hsave]
  refine ⟨_, _, processField_text hf hsave hlt, processField_text hf hsave' (h.bufpos ▸ hlt), ?_, rfl, ?_⟩
  · rw [hsave]
    exact (h.setText hlt f).mono fun g => Or.imp_right fun hg => (Option.some.inj hg).symm
  · rw [hsave, Option.any_some, hf]
    rfl

theorem Twin.process (h : Twin D s s')
    (hsound : Sound (s.state env).save (s.slice s.fieldPosition s.bufpos))
    (hroom : (s.state env).save.any Field.isText = true → s.bufpos < maxLineLen) :
    ∃ t t', Processed env D s s' t t' := by
  have hslice : s.slice s.fieldPosition s.bufpos = s'.slice s'.fieldPosition s'.bufpos := by
    rw [h.slice, h.fieldPosition]
  have hstate : s'.state env = s.state env := h.state.symm
  cases hsave : (s.state env).save with
  | none =>
    refine ⟨s, s', ?_, ?_, ?_, rfl, ?_⟩
    · simp only [Reader.processField, hsave]
    · simp only [Reader.processField, hstate, hsave]
    · rw [hsave]
      exact h.mono fun g hg => hg.resolve_right nofun
    · rw [hsave]
      rfl
  | some f =>
    rw [hsave] at hsound hroom
    cases f with
    | addr | refer | agent | method | url | rfc | proto => exact h.process_text rfl hsave (hroom rfl)
    | date | hour | minute | upSec | code =>
      obtain ⟨v, hv⟩ : ∃ v, number 0 (s.slice s.fieldPosition s.bufpos) = (v, true) :=
        ⟨_, Prod.ext rfl hsound⟩
      refine h.process_number rfl hsave hv hv ?_ ?_
      · simp only [Reader.processField, hsave]
      · simp only [Reader.processField, hstate, hsave, hslice]
    | year =>
      obtain ⟨v, hv⟩ : ∃ v, number 0 (s.slice s.fieldPosition s.bufpos) = (v, true) :=
        ⟨_, Prod.ext rfl hsound⟩
      refine h.process_number (v := fullYear v) rfl hsave rfl rfl ?_ ?_
      · simp only [Reader.processField, hsave, hv, if_true]
      · simp only [Reader.processField, hstate, hsave, ← hslice, hv, if_true]
    | month =>
      obtain ⟨v, hv⟩ := hsound
      refine h.process_number rfl hsave (hv s.tmpinteger) (hv s'.tmpinteger) ?_ ?_
      · simp only [Reader.processField, hsave]
      · simp only [Reader.processField, hstate, hsave, hslice]
    | bytes =>
      obtain ⟨c, cs, v, hfield, hv⟩ := hsound
      obtain ⟨h1, h2, h3⟩ := slice_eq_cons hfield
      obtain ⟨h1', h2', h3'⟩ := slice_eq_cons (hslice ▸ hfield)
      refine h.process_number rfl hsave (hv s.tmpinteger) (hv s'.tmpinteger) ?_ ?_
      · simp only [Reader.processField, hsave, h1, h2, h3, decide_false]
      · simp only [Reader.processField, hstate, hsave, h1', h2', h3', decide_false]

/-! ### The characters of a field -/

/-- The characters of a field, which are stored. -/
theorem Twin.chars {st : LineState} (h : Twin D s s') (hst : s.state env = st) {cs : Str}
    (hcs : ∀ c ∈ cs, charClass c ≠ st.ending ∧ charClass c ≠ .crlf)
    (hroom : s.bufpos + cs.length ≤ maxLineLen) :
    ∃ t t', readAll env (.main, s) cs = some (.main, t) ∧
      readAll env (.main, s') cs = some (.main, t') ∧ Twin D t t' ∧
      t.statePos = s.statePos ∧ t.fieldPosition = s.fieldPosition ∧
      t.bufpos = s.bufpos + cs.length ∧
      t.slice s.fieldPosition t.bufpos = s.slice s.fieldPosition s.bufpos ++ cs := by
  induction cs generalizing s s' with
  | nil => exact ⟨s, s', rfl, rfl, h, rfl, rfl, rfl, (List.append_nil _).symm⟩
  | cons c cs ih =>
    rw [List.length_cons] at hroom
    obtain ⟨hc, hcrlf⟩ := hcs c List.mem_cons_self
    have hlt : s.bufpos < maxLineLen := by omega
    have hstep : ∀ {u : Reader F}, u.state env = st → u.bufpos < maxLineLen →
        stepChar env (.main, u) c = some (.main, u.push c) := by
      intro u hu hul
      have hread : u.readChar env c = u.bufset c := if_neg (by rw [hu]; exact not_or.mpr ⟨hc, hcrlf⟩)
      rw [stepChar, hread, bufset_eq hul]
    obtain ⟨t, t', ht, ht', htwin, hpos, hfield, hbufpos, hslice⟩ :=
      ih (h.push hlt c) hst (fun c' hc' => hcs c' (List.mem_cons_of_mem _ hc'))
        (show s.bufpos + 1 + cs.length ≤ maxLineLen by omega)
    refine ⟨t, t', ?_, ?_, htwin, hpos, hfield, ?_, ?_⟩
    · rw [readAll_cons, hstep hst hlt]
      exact ht
    · rw [readAll_cons, hstep (h.state ▸ hst) (h.bufpos ▸ hlt)]
      exact ht'
    · rw [hbufpos, List.length_cons]
      show s.bufpos + 1 + cs.length = _
      omega
    · rw [show t.slice s.fieldPosition t.bufpos = (s.push c).slice s.fieldPosition (s.push c).bufpos ++ cs
        from hslice, slice_push h.started, List.append_assoc]
      rfl

/-- The reader at the start of the next field. -/
def Reader.nextField (s : Reader F) : Reader F :=
  { s with statePos := s.statePos + 1, fieldPosition := s.bufpos }

theorem Twin.nextField (h : Twin D s s') : Twin D s.nextField s'.nextField :=
  { h with
    fieldPosition := h.bufpos
    statePos := congrArg (· + 1) h.statePos
    started := Nat.le_refl _ }

theorem readChar_of_processed {t : Reader F} {c : Char}
    (hc : charClass c = (s.state env).ending ∨ charClass c = .crlf)
    (hp : s.processField env = .next t) : s.readChar env c =
      if charClass c ≠ .crlf then .next t.nextField else t.nextField.endLine env := by
  unfold Reader.readChar
  simp only
  rw [if_pos hc, hp]
  rfl

/-- The character after a field that is not the last one. -/
theorem Twin.separator (h : Twin D s s') {c : Char} (hc : charClass c = (s.state env).ending)
    (hcrlf : charClass c ≠ .crlf)
    (hsound : Sound (s.state env).save (s.slice s.fieldPosition s.bufpos))
    (hroom : s.bufpos + (if (s.state env).save.any Field.isText then 1 else 0) ≤ maxLineLen) :
    ∃ t t', stepChar env (.main, s) c = some (.main, t) ∧
      stepChar env (.main, s') c = some (.main, t') ∧
      Twin (fun g => D g ∨ (s.state env).save = some g) t t' ∧
      t.statePos = s.statePos + 1 ∧ t.fieldPosition = t.bufpos ∧
      t.bufpos = s.bufpos + if (s.state env).save.any Field.isText then 1 else 0 := by
  obtain ⟨t, t', hp⟩ := h.process hsound fun htext => by
    rw [if_pos htext] at hroom
    exact hroom
  refine ⟨t.nextField, t'.nextField, ?_, ?_, hp.twin.nextField, congrArg (· + 1) hp.statePos, rfl,
    hp.bufpos⟩
  · rw [stepChar, readChar_of_processed (.inl hc) hp.left, if_pos hcrlf]
  · rw [stepChar, readChar_of_processed (.inl (h.state ▸ hc)) hp.right, if_pos hcrlf]

/-! ### The end of a line -/

/-- The reader is between two lines. -/
structure AtStart (s : Reader F) : Prop where
  bufpos : s.bufpos = 1
  fieldPosition : s.fieldPosition = 1
  statePos : s.statePos = 0
  nul : s.buf 0 = '\x00'
  points : ∀ f, f.kept = false → s.bufPoints f = 0

theorem atStart_ok (s : Reader F) : AtStart s.ok where
  bufpos := rfl
  fieldPosition := rfl
  statePos := rfl
  nul := by
    show Function.update s.buf 0 '\x00' 0 = _
    rw [Function.update_self]
  points f hf := by
    show (if f.kept then s.bufPoints f else 0) = 0
    rw [hf]
    rfl

/-- Two readers between lines, with the same totals and the same points of the fields in `D`. -/
structure Between (D : Field → Prop) (s s' : Reader F) : Prop where
  left : AtStart s
  right : AtStart s'
  points : ∀ f, f.kept = true → D f → s.bufPoints f = s'.bufPoints f
  totals : s.totals = s'.totals
  days : s.days = s'.days

theorem Field.kept_of_isText {f : Field} (h : f.isText = true) : f.kept = false := by
  cases f <;> first | rfl | cases h

theorem Between.twin (h : Between D s s') : Twin D s s' where
  bufpos := h.left.bufpos.trans h.right.bufpos.symm
  fieldPosition := h.left.fieldPosition.trans h.right.fieldPosition.symm
  statePos := h.left.statePos.trans h.right.statePos.symm
  room := by
    rw [h.left.bufpos]
    decide
  started := by rw [h.left.fieldPosition, h.left.bufpos]
  buf i hi := by
    rw [h.left.bufpos] at hi
    obtain rfl : i = 0 := by omega
    rw [h.left.nul, h.right.nul]
  points f hf := by
    cases hk : f.kept with
    | true => exact h.points f hk (hf hk)
    | false => rw [h.left.points f hk, h.right.points f hk]
  ended f hf := by
    have hzero := h.left.points f (Field.kept_of_isText hf)
    refine ⟨0, ?_, ?_, h.left.nul⟩
    · rw [hzero]
      exact Nat.le_refl 0
    · rw [h.left.bufpos]
      decide
  totals := h.totals
  days := h.days

/-- All fields. -/
def Every (_ : Field) : Prop := True

theorem Twin.ok (h : Twin Every s s') : Between Every s.ok s'.ok where
  left := atStart_ok s
  right := atStart_ok s'
  points f _ _ := by
    show (if f.kept then s.bufPoints f else 0) = if f.kept then s'.bufPoints f else 0
    rw [h.points f fun _ => trivial]
  totals := h.totals
  days := h.days

theorem takeWhile_append_of_mem {xs ys : Str} {c : Char} {p : Char → Bool} (h : c ∈ xs)
    (hc : p c = false) : (xs ++ ys).takeWhile p = xs.takeWhile p := by
  rw [List.takeWhile_append, if_neg]
  intro hlen
  have hall := (List.takeWhile_prefix p).eq_of_length hlen
  rw [← hall] at h
  have hpc : p c = true := List.mem_takeWhile_imp h
  rw [hc] at hpc
  cases hpc

/-- A string that ends before `j` is the same in both. -/
theorem Twin.string (h : Twin D s s') {p : Int} {j : Nat} (hp : p.toNat ≤ j) (hj : j < s.bufpos)
    (hnul : s.buf j = '\x00') : s.string p = s'.string p := by
  have hroom : j < maxLineLen := Nat.lt_of_lt_of_le hj h.room
  have hsplit : ∀ u : Reader F, u.slice p.toNat (maxLineLen + 2) =
      u.slice p.toNat (j + 1) ++ u.slice (j + 1) (maxLineLen + 2) := by
    intro u
    have happend := List.range'_append_1 (s := p.toNat) (m := j + 1 - p.toNat)
      (n := maxLineLen + 2 - (j + 1))
    rw [show p.toNat + (j + 1 - p.toNat) = j + 1 by omega,
      show j + 1 - p.toNat + (maxLineLen + 2 - (j + 1)) = maxLineLen + 2 - p.toNat by omega] at happend
    unfold Reader.slice
    rw [← List.map_append, happend]
  have hsame : s.slice p.toNat (j + 1) = s'.slice p.toNat (j + 1) := by
    refine List.map_congr_left fun k hk => h.buf k ?_
    have := List.mem_range'_1.mp hk
    omega
  have hmem : '\x00' ∈ s.slice p.toNat (j + 1) :=
    List.mem_map.mpr ⟨j, List.mem_range'_1.mpr ⟨hp, by omega⟩, hnul⟩
  unfold Reader.string cString
  rw [hsplit s, hsplit s', ← hsame, takeWhile_append_of_mem hmem (by simp),
    takeWhile_append_of_mem hmem (by simp)]

theorem Twin.text (h : Twin Every s s') {f : Field} (hf : f.isText = true) :
    s.string (s.bufPoints f) = s'.string (s'.bufPoints f) := by
  obtain ⟨j, hp, hj, hnul⟩ := h.ended f hf
  rw [← h.points f fun _ => trivial]
  exact h.string hp hj hnul

theorem Twin.logLine (h : Twin Every s s') : s.logLine = s'.logLine := by
  have hpoint : ∀ f, s.bufPoints f = s'.bufPoints f := fun f => h.points f fun _ => trivial
  unfold Reader.logLine
  rw [h.text (f := .addr) rfl, h.text (f := .refer) rfl, h.text (f := .agent) rfl,
    h.text (f := .url) rfl]
  simp only [hpoint]

/-- What two readers do with a line: it leads out of the memory in both, or both are between
lines then, with the same totals and the same date. -/
inductive Alike : Option (Mode × Reader F) → Option (Mode × Reader F) → Prop
  | undefined : Alike none none
  | lines {t t' : Reader F} (h : Between Every t t') : Alike (some (.main, t)) (some (.main, t'))

theorem Alike.cases {r r' : Option (Mode × Reader F)} (h : Alike r r') :
    (r = none ∧ r' = none) ∨
      ∃ t t', r = some (.main, t) ∧ r' = some (.main, t') ∧ Between Every t t' := by
  cases h with
  | undefined => exact .inl ⟨rfl, rfl⟩
  | lines h => exact .inr ⟨_, _, rfl, rfl, h⟩

/-- The end of a line, after its last field has been processed. -/
theorem Twin.endLine (env : Setup) (h : Twin Every s s') :
    (s.endLine env = .undefined ∧ s'.endLine env = .undefined) ∨
      ∃ t t', s.endLine env = .next t ∧ s'.endLine env = .next t' ∧ Between Every t t' := by
  have hbroken : Between Every s.broken.ok s'.broken.ok :=
    Twin.ok { h with }
  unfold Reader.endLine
  rw [← h.statePos, ← h.logLine, ← h.totals]
  split
  · exact .inr ⟨_, _, rfl, rfl, hbroken⟩
  · split
    · exact .inr ⟨_, _, rfl, rfl, hbroken⟩
    · cases account env.pagexts env.notref s.totals s.logLine with
      | none => exact .inl ⟨rfl, rfl⟩
      | some r =>
        have hdays : s.days ++ r.1 = s'.days ++ r.1 := congrArg (· ++ r.1) h.days
        exact .inr ⟨_, _, rfl, rfl, Twin.ok { h with statePos := rfl, totals := rfl, days := hdays }⟩

/-- The character that ends a line, after its last field, or after less. -/
theorem Twin.last (h : Twin D s s') {c : Char} (hc : charClass c = .crlf)
    (hsound : Sound (s.state env).save (s.slice s.fieldPosition s.bufpos))
    (hroom : s.bufpos + (if (s.state env).save.any Field.isText then 1 else 0) ≤ maxLineLen)
    (hall : ∀ f, D f ∨ (s.state env).save = some f) :
    Alike (stepChar env (.main, s) c) (stepChar env (.main, s') c) := by
  obtain ⟨t, t', hp⟩ := h.process hsound fun htext => by
    rw [if_pos htext] at hroom
    exact hroom
  have htwin : Twin Every t.nextField t'.nextField := hp.twin.nextField.mono fun f _ => hall f
  simp only [stepChar]
  rw [readChar_of_processed (.inr hc) hp.left, readChar_of_processed (.inr hc) hp.right]
  simp only [if_neg (not_not.mpr hc)]
  obtain ⟨hu, hu'⟩ | ⟨u, u', hu, hu', hb⟩ := htwin.endLine env
  · rw [hu, hu']
    exact .undefined
  · rw [hu, hu']
    exact .lines hb

/-! ### A line -/

theorem readAll_singleton (st : Mode × Reader F) (c : Char) :
    readAll env st [c] = stepChar env st c := by
  rw [readAll_cons]
  cases stepChar env st c <;> rfl

/-- The states that are left to be read begin with that of the line. -/
theorem state_of_drop {st : LineState} {states : List LineState}
    (h : env.states.drop s.statePos = st :: states) : s.state env = st := by
  unfold Reader.state
  rw [List.getD_eq_getElem?_getD, ← List.head?_drop, h]
  rfl

theorem slice_self (s : Reader F) (i : Nat) : s.slice i i = [] := by
  unfold Reader.slice
  rw [Nat.sub_self]
  rfl

/-- Two readers at the start of a field do the same with what is left of a complete line. -/
theorem Twin.fields {states : List LineState} {text : Str} {fields : List Str}
    (h : Twin D s s') (hstates : env.states.drop s.statePos = states)
    (hlast : states.getLast?.map LineState.ending = some .crlf)
    (hsplit : splitFields states text = some fields) (hok : fieldsOk states fields = true)
    (hstart : s.fieldPosition = s.bufpos) (hroom : s.bufpos + rooms states fields ≤ maxLineLen)
    (htext : ∀ c ∈ text, charClass c ≠ .crlf)
    (hall : ∀ f, D f ∨ ∃ st ∈ states, st.save = some f) {c : Char} (hc : charClass c = .crlf) :
    Alike (readAll env (.main, s) (text ++ [c])) (readAll env (.main, s') (text ++ [c])) := by
  fun_induction splitFields states text generalizing D s s' fields with
  | case1 => cases hsplit
  | case2 st text =>
    -- the last field ends with the line
    cases hsplit
    have hstate := state_of_drop hstates
    have hend : st.ending = .crlf := Option.some.inj hlast
    simp only [rooms, UltraLog.room, Nat.add_zero] at hroom
    simp only [fieldsOk, Bool.and_true] at hok
    obtain ⟨t, t', ht, ht', htwin, hpos, hfield, hbufpos, hslice⟩ :=
      h.chars hstate (fun c hc => ⟨hend ▸ htext c hc, htext c hc⟩) (by omega)
    have hstate' : t.state env = st := by
      rw [← hstate]
      unfold Reader.state
      rw [hpos]
    rw [readAll_append, readAll_append, ht, ht', Option.bind_some, Option.bind_some,
      readAll_singleton, readAll_singleton]
    refine htwin.last hc ?_ ?_ fun f => ?_
    · rw [hstate', hfield, hslice, hstart, slice_self, List.nil_append]
      exact sound_of_fieldOk hok
    · rw [hstate', hbufpos]
      omega
    · rw [hstate']
      exact (hall f).imp_right fun ⟨st', hmem, hsave⟩ => by
        rwa [← List.mem_singleton.mp hmem]
  | case3 st states line hne x rest hdrop ih =>
    obtain ⟨fields', hsplit', rfl⟩ := Option.map_eq_some_iff.mp hsplit
    have hstate := state_of_drop hstates
    simp only [rooms, UltraLog.room] at hroom
    simp only [fieldsOk, Bool.and_eq_true] at hok
    have hline : line = (line.takeWhile fun c => charClass c ≠ st.ending) ++ x :: rest := by
      rw [← hdrop, List.takeWhile_append_dropWhile]
    generalize hfield : (line.takeWhile fun c => charClass c ≠ st.ending) = field at hroom hok hline
    have hfieldEnd : ∀ c ∈ field, charClass c ≠ st.ending := by
      intro c hc
      rw [← hfield] at hc
      simpa using List.mem_takeWhile_imp hc
    have hxEnd : charClass x = st.ending := by
      have hnot := List.head?_dropWhile_not (fun c => decide (charClass c ≠ st.ending)) line
      rw [hdrop] at hnot
      simpa using hnot
    have hx : charClass x ≠ .crlf := htext x (by rw [hline]; simp)
    obtain ⟨t, t', ht, ht', htwin, hpos, hfieldPos, hbufpos, hslice⟩ := h.chars hstate
      (fun c hc => ⟨hfieldEnd c hc, htext c (by rw [hline]; exact List.mem_append_left _ hc)⟩) (by omega)
    have hstate' : t.state env = st := by
      rw [← hstate]
      unfold Reader.state
      rw [hpos]
    have hsound : Sound (t.state env).save (t.slice t.fieldPosition t.bufpos) := by
      rw [hstate', hfieldPos, hslice, hstart, slice_self, List.nil_append]
      exact sound_of_fieldOk hok.1
    obtain ⟨u, u', hu, hu', hutwin, hupos, hustart, hubufpos⟩ := htwin.separator
      (hstate'.symm ▸ hxEnd) hx hsound (by rw [hstate', hbufpos]; omega)
    rw [hstate'] at hutwin hubufpos
    have hnext := ih hutwin (by rw [hupos, hpos, ← List.drop_drop, hstates]; rfl) ?_ hsplit' hok.2
      hustart (by rw [hubufpos, hbufpos]; omega)
      (fun c hc => htext c (by rw [hline]; simp [hc])) ?_
    · rw [hline, List.append_assoc, readAll_append, readAll_append, ht, ht', Option.bind_some,
        Option.bind_some, List.cons_append, readAll_cons, readAll_cons, hu, hu']
      exact hnext
    · cases states with
      | nil => exact absurd rfl hne
      | cons st' states => exact hlast
    · intro f
      obtain hD | ⟨st', hmem, hsave⟩ := hall f
      · exact .inl (.inl hD)
      · obtain rfl | hmem := List.mem_cons.mp hmem
        · exact .inl (.inr hsave)
        · exact .inr ⟨st', hmem, hsave⟩
  | case4 => cases hsplit

end Caudium.UltraLog
