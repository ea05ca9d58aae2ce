import Caudium.UltraLog.Broken

/-!
# Lines that end anywhere

A line is cut where the fields of the format end, and its last piece ends with the line,
whichever field it is in. As long as the reader does not skip, the values of the pieces behind it
are in `buf_points`, those of the lines before in the places that have had none (`Within`).
-/

namespace Caudium.UltraLog

open Lib (Str)

variable {F : Floats} {env : Setup}

/-! ## Cutting a line -/

/-- The fields that have ended, and what has been read of the next one. -/
structure Cut where
  ended : List Str
  current : Str

def Cut.step (env : Setup) (p : Cut) (c : Char) : Cut :=
  if charClass c = (env.states.getD p.ended.length ⟨none, .wspace⟩).ending then
    ⟨p.ended ++ [p.current], []⟩
  else ⟨p.ended, p.current ++ [c]⟩

def cut (env : Setup) (text : Str) : Cut := text.foldl (Cut.step env) ⟨[], []⟩

/-- The fields that the line has, the last of them maybe empty. -/
def pieces (env : Setup) (text : Str) : List Str :=
  (cut env text).ended ++ [(cut env text).current]

theorem cut_append (env : Setup) (text : Str) (c : Char) :
    cut env (text ++ [c]) = (cut env text).step env c :=
  List.foldl_concat ..

/-- The value of a field that has no place in `buf`. -/
def fieldValue (f : Field) (s : Str) : Int :=
  match f with
  | .month => (monthValue 0 s).1
  | .year => fullYear (number 0 s).1
  | _ => (number 0 s).1

/-- What is in the place of the field when the pieces have been read, from `v` on. -/
def lastValue (f : Field) : Int → List LineState → List Str → Int
  | v, st :: states, s :: ss => lastValue f (if st.save = some f then fieldValue f s else v) states ss
  | v, _, _ => v

/-- The class of the end of a format's last state is the one of line ends. -/
def EndsLines (env : Setup) : Prop := env.states.getLast?.map LineState.ending = some .crlf

theorem getD_of_lt (st : LineState) {k : Nat} (h : k < env.states.length) :
    ∃ states states', env.states = states ++ env.states.getD k st :: states' ∧ states.length = k := by
  refine ⟨env.states.take k, env.states.drop (k + 1), ?_, List.length_take_of_le (Nat.le_of_lt h)⟩
  rw [List.getD_eq_getElem?_getD, List.getElem?_eq_getElem h, Option.getD_some,
    List.getElem_cons_drop, List.take_append_drop]

/-- There is a state for each piece. -/
theorem ended_lt (hlast : EndsLines env) {text : Str} (htext : ∀ c ∈ text, charClass c ≠ .crlf) :
    (cut env text).ended.length < env.states.length := by
  induction text using List.reverseRecOn with
  | nil =>
    show 0 < env.states.length
    refine List.length_pos_of_ne_nil fun hnil => ?_
    rw [EndsLines, hnil] at hlast
    cases hlast
  | append_singleton text c ih =>
    have hbefore := ih fun c' hc' => htext c' (List.mem_append_left _ hc')
    rw [cut_append, Cut.step]
    split
    · next hend =>
      -- the last state does not end here
      rw [List.length_append, List.length_singleton]
      refine Nat.lt_of_le_of_ne hbefore fun heq => htext c List.mem_concat_self ?_
      rw [EndsLines, List.getLast?_eq_getElem?, ← heq, Nat.add_sub_cancel,
        List.getElem?_eq_getElem hbefore] at hlast
      rw [hend, List.getD_eq_getElem?_getD, List.getElem?_eq_getElem hbefore]
      exact Option.some.inj hlast
    · exact hbefore

theorem lastValue_append (f : Field) {states : List LineState} {ss : List Str}
    (hlen : states.length = ss.length) (st : LineState) (states' : List LineState) (s : Str)
    (v : Int) :
    lastValue f v (states ++ st :: states') (ss ++ [s]) =
      if st.save = some f then fieldValue f s
      else lastValue f v (states ++ st :: states') ss := by
  induction states generalizing ss v with
  | nil =>
    cases ss with
    | nil => simp [lastValue]
    | cons _ _ => cases hlen
  | cons st' states ih =>
    cases ss with
    | nil => cases hlen
    | cons s' ss => exact ih (Nat.succ.inj hlen) _

theorem rooms_append {states : List LineState} {ss : List Str} (hlen : states.length = ss.length)
    (st : LineState) (states' : List LineState) (s : Str) :
    rooms (states ++ st :: states') (ss ++ [s]) = rooms (states ++ st :: states') ss + room st s := by
  induction states generalizing ss with
  | nil =>
    cases ss with
    | nil => simp [rooms]
    | cons _ _ => cases hlen
  | cons st' states ih =>
    cases ss with
    | nil => cases hlen
    | cons s' ss =>
      simp only [List.cons_append, rooms, ih (Nat.succ.inj hlen)]
      omega

theorem fieldsOk_append {states : List LineState} {ss : List Str}
    (hlen : states.length = ss.length) (st : LineState) (states' : List LineState) (s : Str) :
    fieldsOk (states ++ st :: states') (ss ++ [s]) =
      (fieldsOk (states ++ st :: states') ss && fieldOk st.save s) := by
  induction states generalizing ss with
  | nil =>
    cases ss with
    | nil => simp [fieldsOk]
    | cons _ _ => cases hlen
  | cons st' states ih =>
    cases ss with
    | nil => cases hlen
    | cons s' ss => simp only [List.cons_append, fieldsOk, ih (Nat.succ.inj hlen), Bool.and_assoc]

/-! ## A field that has been processed -/

/-- The places whose value depends on nothing but the field. -/
def Field.plain : Field → Bool
  | .date | .year | .hour => true
  | _ => false

/-- The value is the one of the field, whatever was read before. -/
def Settled (f : Field) (field : Str) : Prop :=
  f.plain = true ∨ f = .month ∧ fieldOk (some .month) field = true

theorem store_cases {t u : Reader F} {f : Field} {value : Int × Bool}
    (h : t.store f value = .next u) :
    u = { t with tmpinteger := value.1 }.setPoint f value.1 ∧ value.2 = true := by
  unfold Reader.store at h
  dsimp only at h
  split at h
  · next hvalue =>
    cases h
    exact ⟨rfl, hvalue⟩
  · cases h

theorem setText_cases {t u : Reader F} {f : Field}
    (h : (match t.bufset '\x00' with
      | .next s' => .next (s'.setPoint f t.fieldPosition)
      | step => step) = Step.next u) :
    t.bufpos ≠ maxLineLen ∧ u = (t.push '\x00').setPoint f t.fieldPosition := by
  by_cases hfull : t.bufpos = maxLineLen
  · have hskip : ∃ s', t.bufset '\x00' = .skip s' := ⟨_, if_pos hfull⟩
    obtain ⟨s', hs'⟩ := hskip
    rw [hs'] at h
    cases h
  · have hnext : t.bufset '\x00' = .next (t.push '\x00') := if_neg hfull
    rw [hnext] at h
    cases h
    exact ⟨hfull, rfl⟩

/-- What a field that is processed does: nothing, or it is ended in `buf`, or its value is
stored. -/
theorem processField_cases {t u : Reader F} (h : t.processField env = .next u) :
    ((t.state env).save = none ∧ u = t) ∨
    (∃ f, (t.state env).save = some f ∧ f.isText = true ∧ t.bufpos ≠ maxLineLen ∧
      u = (t.push '\x00').setPoint f t.fieldPosition) ∨
    ∃ f w v, (t.state env).save = some f ∧ f.isText = false ∧
      u = { t with tmpinteger := w }.setPoint f v ∧
      (Settled f (t.slice t.fieldPosition t.bufpos) →
        v = fieldValue f (t.slice t.fieldPosition t.bufpos)) := by
  unfold Reader.processField at h
  cases hsave : (t.state env).save with
  | none =>
    rw [hsave] at h
    cases h
    exact .inl ⟨rfl, rfl⟩
  | some f =>
    rw [hsave] at h
    right
    cases f with
    | addr | refer | agent | method | url | rfc | proto =>
      obtain ⟨hfull, hu⟩ := setText_cases h
      exact .inl ⟨_, rfl, rfl, hfull, hu⟩
    | date | hour | minute | upSec | code =>
      obtain ⟨hu, -⟩ := store_cases h
      exact .inr ⟨_, _, _, rfl, rfl, hu, fun _ => rfl⟩
    | year =>
      obtain ⟨hu, hvalue⟩ := store_cases h
      refine .inr ⟨_, _, _, rfl, rfl, hu, fun _ => ?_⟩
      dsimp only at hvalue ⊢
      rw [if_pos hvalue]
      rfl
    | month =>
      obtain ⟨hu, -⟩ := store_cases h
      refine .inr ⟨_, _, _, rfl, rfl, hu, fun hsettled => ?_⟩
      obtain hplain | ⟨-, hok⟩ := hsettled
      · cases hplain
      · obtain ⟨v, hv⟩ := sound_month hok
        rw [fieldValue, hv, hv]
    | bytes =>
      obtain ⟨hu, -⟩ := store_cases h
      refine .inr ⟨_, _, _, rfl, rfl, hu, fun hsettled => ?_⟩
      obtain hplain | ⟨hmonth, -⟩ := hsettled
      · cases hplain
      · cases hmonth

/-- A right field is processed, if there is room for its NUL. -/
theorem processField_of_ok {t : Reader F}
    (hok : fieldOk (t.state env).save (t.slice t.fieldPosition t.bufpos) = true)
    (hroom : (t.state env).save.any Field.isText = true → t.bufpos < maxLineLen) :
    ∃ u, t.processField env = .next u := by
  have hsound := sound_of_fieldOk hok
  have hstore : ∀ (f : Field) (value : Int × Bool), value.2 = true →
      ∃ u, t.store f value = .next u := fun f value hvalue => ⟨_, if_pos hvalue⟩
  unfold Reader.processField
  cases hsave : (t.state env).save with
  | none => exact ⟨t, rfl⟩
  | some f =>
    rw [hsave] at hsound hroom
    cases f with
    | addr | refer | agent | method | url | rfc | proto =>
      rw [bufset_eq (hroom rfl)]
      exact ⟨_, rfl⟩
    | date | hour | minute | upSec | code | year => exact hstore _ _ hsound
    | month =>
      obtain ⟨v, hv⟩ := hsound
      exact hstore _ _ (by rw [hv])
    | bytes =>
      obtain ⟨c, cs, v, hfield, hv⟩ := hsound
      obtain ⟨hfirst, hrest, hne⟩ := slice_eq_cons hfield
      refine hstore _ _ ?_
      rw [hfirst, hrest, decide_eq_false hne, hv]

/-- The places behind the fields that have been processed. -/
theorem processField_points {t u : Reader F} (h : t.processField env = .next u) {f : Field}
    (hf : f.isText = false) (hsettled : (t.state env).save = some f →
      Settled f (t.slice t.fieldPosition t.bufpos)) : u.bufPoints f =
      if (t.state env).save = some f then fieldValue f (t.slice t.fieldPosition t.bufpos)
      else t.bufPoints f := by
  obtain ⟨hsave, rfl⟩ | ⟨g, hsave, hg, -, rfl⟩ | ⟨g, w, v, hsave, -, rfl, hv⟩ :=
    processField_cases h
  · rw [hsave, if_neg (by simp)]
  · have hne : f ≠ g := fun e => by rw [← e, hf] at hg; cases hg
    rw [hsave, if_neg fun e => hne (Option.some.inj e).symm]
    exact Function.update_of_ne hne ..
  · by_cases hfg : f = g
    · subst hfg
      rw [if_pos hsave, ← hv (hsettled hsave)]
      exact Function.update_self ..
    · rw [hsave, if_neg fun e => hfg (Option.some.inj e).symm]
      exact Function.update_of_ne hfg ..

/-- The rest of the variables. -/
theorem processField_frame {t u : Reader F} (h : t.processField env = .next u) :
    u.statePos = t.statePos ∧
      u.bufpos = t.bufpos + (if (t.state env).save.any Field.isText then 1 else 0) ∧
      u.totals = t.totals ∧ u.days = t.days ∧ u.lines = t.lines ∧
      u.brokenLines = t.brokenLines := by
  obtain ⟨hsave, rfl⟩ | ⟨g, hsave, hg, -, rfl⟩ | ⟨g, w, v, hsave, hg, rfl, -⟩ :=
    processField_cases h
  · rw [hsave]
    exact ⟨rfl, rfl, rfl, rfl, rfl, rfl⟩
  · rw [hsave, Option.any_some, if_pos hg]
    exact ⟨rfl, rfl, rfl, rfl, rfl, rfl⟩
  · rw [hsave, Option.any_some, hg]
    exact ⟨rfl, rfl, rfl, rfl, rfl, rfl⟩

/-! ## Within a line -/

/-- The reader, which was `s` when the line began, is behind `text` and has not skipped. -/
structure Within (env : Setup) (s : Reader F) (text : Str) (t : Reader F) : Prop where
  statePos : t.statePos = (cut env text).ended.length
  bufpos : t.bufpos =
    1 + rooms env.states (cut env text).ended + (cut env text).current.length
  started : t.fieldPosition ≤ t.bufpos
  slice : t.slice t.fieldPosition t.bufpos = (cut env text).current
  points : ∀ f, (f.plain = true ∨ f = .month ∧ fieldsOk env.states (cut env text).ended = true) →
    t.bufPoints f = lastValue f (s.bufPoints f) env.states (cut env text).ended
  totals : t.totals = s.totals
  days : t.days = s.days
  lines : t.lines = s.lines
  brokenLines : t.brokenLines = s.brokenLines

variable {s t u : Reader F} {text : Str}

theorem Within.start (h : AtStart s) : Within env s [] s where
  statePos := h.statePos
  bufpos := h.bufpos.trans (by simp [cut, rooms])
  started := by rw [h.fieldPosition, h.bufpos]
  slice := by
    rw [h.fieldPosition, h.bufpos, slice_self]
    rfl
  points f _ := by simp [cut, lastValue]
  totals := rfl
  days := rfl
  lines := rfl
  brokenLines := rfl

theorem Within.state (h : Within env s text t) :
    t.state env = env.states.getD (cut env text).ended.length ⟨none, .wspace⟩ := by
  rw [Reader.state, h.statePos]

/-- What is behind all pieces, when the last field has been processed too. -/
structure Behind (env : Setup) (s : Reader F) (text : Str) (u : Reader F) : Prop where
  statePos : u.statePos + 1 = (pieces env text).length
  bufpos : u.bufpos = 1 + rooms env.states (pieces env text)
  points : ∀ f, (f.plain = true ∨ f = .month ∧ fieldsOk env.states (pieces env text) = true) →
    u.bufPoints f = lastValue f (s.bufPoints f) env.states (pieces env text)
  totals : u.totals = s.totals
  days : u.days = s.days
  lines : u.lines = s.lines
  brokenLines : u.brokenLines = s.brokenLines

theorem Within.behind (h : Within env s text t)
    (hlt : (cut env text).ended.length < env.states.length) (hu : t.processField env = .next u) :
    Behind env s text u := by
  obtain ⟨states, states', hstates, hlen⟩ := getD_of_lt ⟨none, .wspace⟩ hlt
  rw [← h.state] at hstates
  obtain ⟨hpos, hbufpos, htotals, hdays, hlines, hbroken⟩ := processField_frame hu
  have hrooms := rooms_append hlen (t.state env) states' (cut env text).current
  have hoks := fieldsOk_append hlen (t.state env) states' (cut env text).current
  rw [← hstates] at hrooms hoks
  refine ⟨?_, ?_, fun f hf => ?_, htotals.trans h.totals, hdays.trans h.days,
    hlines.trans h.lines, hbroken.trans h.brokenLines⟩
  · rw [hpos, h.statePos, pieces, List.length_append]
    rfl
  · rw [hbufpos, h.bufpos, pieces, hrooms, room]
    omega
  · have hvalue := lastValue_append f hlen (t.state env) states' (cut env text).current
      (s.bufPoints f)
    rw [← hstates] at hvalue
    rw [pieces, hoks, Bool.and_eq_true] at hf
    have hprev : t.bufPoints f = lastValue f (s.bufPoints f) env.states (cut env text).ended :=
      h.points f (hf.imp_right fun hm => ⟨hm.1, hm.2.1⟩)
    have hnotText : f.isText = false := by
      obtain hplain | ⟨rfl, -⟩ := hf
      · cases f <;> first | rfl | cases hplain
      · rfl
    rw [pieces, hvalue, processField_points hu hnotText, hprev, h.slice]
    intro hsave
    rw [h.slice]
    refine hf.imp_right fun hm => ⟨hm.1, ?_⟩
    rw [← hm.1, ← hsave]
    exact hm.2.2

theorem Within.append_field (h : Within env s text t) {c : Char}
    (hc : charClass c = (t.state env).ending)
    (hlt : (cut env text).ended.length < env.states.length) (hu : t.processField env = .next u) :
    Within env s (text ++ [c]) u.nextField := by
  have hbehind := h.behind hlt hu
  have hcut : cut env (text ++ [c]) = ⟨pieces env text, []⟩ := by
    rw [cut_append, Cut.step, if_pos (h.state ▸ hc)]
    rfl
  refine ⟨?_, ?_, Nat.le_refl _, ?_, ?_, hbehind.totals, hbehind.days, hbehind.lines,
    hbehind.brokenLines⟩
  · rw [hcut]
    exact hbehind.statePos
  · rw [hcut]
    exact hbehind.bufpos
  · rw [hcut]
    exact slice_self _ _
  · rw [hcut]
    exact hbehind.points

theorem Within.append_char (h : Within env s text t) {c : Char}
    (hc : charClass c ≠ (t.state env).ending) : Within env s (text ++ [c]) (t.push c) := by
  have hcut : cut env (text ++ [c]) = ⟨(cut env text).ended, (cut env text).current ++ [c]⟩ := by
    rw [cut_append, Cut.step, if_neg (h.state ▸ hc)]
  refine ⟨?_, ?_, Nat.le_succ_of_le h.started, ?_, ?_, h.totals, h.days, h.lines, h.brokenLines⟩
  · rw [hcut]
    exact h.statePos
  · rw [hcut]
    dsimp only
    rw [List.length_append]
    show t.bufpos + 1 = _
    rw [h.bufpos]
    rfl
  · rw [hcut]
    show (t.push c).slice t.fieldPosition (t.push c).bufpos = _
    rw [slice_push h.started, h.slice]
  · rw [hcut]
    exact h.points

/-! ## Reading a line -/

/-- The variables that count are as they were. -/
structure Uncounted (t v : Reader F) : Prop where
  totals : v.totals = t.totals
  days : v.days = t.days
  lines : v.lines = t.lines
  brokenLines : v.brokenLines = t.brokenLines

theorem Uncounted.refl (t : Reader F) : Uncounted t t := ⟨rfl, rfl, rfl, rfl⟩

theorem uncounted_store {f : Field} {value : Int × Bool} :
    (t.store f value).All (Uncounted t) := by
  unfold Reader.store
  dsimp only
  split
  · exact ⟨rfl, rfl, rfl, rfl⟩
  · exact ⟨rfl, rfl, rfl, rfl⟩

theorem uncounted_text {f : Field} :
    Step.All (Uncounted t) (match t.bufset '\x00' with
      | .next s' => .next (s'.setPoint f t.fieldPosition)
      | step => step) := by
  by_cases hfull : t.bufpos = maxLineLen
  · rw [show t.bufset '\x00' = .skip _ from if_pos hfull]
    exact ⟨rfl, rfl, rfl, rfl⟩
  · rw [show t.bufset '\x00' = .next _ from if_neg hfull]
    exact ⟨rfl, rfl, rfl, rfl⟩

theorem uncounted_processField (t : Reader F) : (t.processField env).All (Uncounted t) := by
  unfold Reader.processField
  cases (t.state env).save with
  | none => exact Uncounted.refl t
  | some f =>
    cases f with
    | addr | refer | agent | method | url | rfc | proto => exact uncounted_text
    | date | month | year | hour | minute | upSec | code | bytes => exact uncounted_store

/-- At the end of a field the reader goes on as the field has been processed, or skips. -/
theorem readChar_end (env : Setup) (t : Reader F) {c : Char}
    (hc : charClass c = (t.state env).ending ∨ charClass c = .crlf) :
    (∃ u, t.processField env = .next u) ∨
      ∃ v, t.processField env = .skip v ∧ t.readChar env c = .skip v ∧ Uncounted t v := by
  have hall : (t.processField env).All (Uncounted t) := uncounted_processField t
  cases hp : t.processField env with
  | next u => exact .inl ⟨u, rfl⟩
  | skip v =>
    rw [hp] at hall
    refine .inr ⟨v, rfl, ?_, hall⟩
    unfold Reader.readChar
    dsimp only
    rw [if_pos hc, hp]
  | undefined =>
    rw [hp] at hall
    exact hall.elim

theorem readChar_other {c : Char} (hc : charClass c ≠ (t.state env).ending)
    (hcrlf : charClass c ≠ .crlf) : t.readChar env c = t.bufset c :=
  if_neg (not_or.mpr ⟨hc, hcrlf⟩)

theorem Within.step (h : Within env s text t) {c : Char} (hcrlf : charClass c ≠ .crlf)
    (hlt : (cut env text).ended.length < env.states.length)
    (hstep : stepChar env (.main, t) c = some (.main, u)) : Within env s (text ++ [c]) u := by
  rw [stepChar] at hstep
  by_cases hc : charClass c = (t.state env).ending
  · obtain ⟨v, hv⟩ | ⟨v, -, hskip, -⟩ := readChar_end env t (.inl hc)
    · rw [readChar_of_processed (.inl hc) hv, if_pos hcrlf] at hstep
      cases hstep
      exact h.append_field hc hlt hv
    · rw [hskip] at hstep
      cases hstep
  · rw [readChar_other hc hcrlf] at hstep
    by_cases hfull : t.bufpos = maxLineLen
    · rw [show t.bufset c = .skip _ from if_pos hfull] at hstep
      cases hstep
    · rw [show t.bufset c = .next (t.push c) from if_neg hfull] at hstep
      cases hstep
      exact h.append_char hc

/-- A reader that skips goes on skipping to the end of the line. -/
theorem stepChar_skip {c : Char} (hcrlf : charClass c ≠ .crlf) (t : Reader F) :
    stepChar env (.skip, t) c = some (.skip, t) := by
  rw [stepChar, if_neg hcrlf]

/-- Where the reader does not skip, it is within the line. -/
theorem within_of_readAll (hs : AtStart s) (hlast : EndsLines env)
    (htext : ∀ c ∈ text, charClass c ≠ .crlf)
    (hread : readAll env (.main, s) text = some (.main, t)) : Within env s text t := by
  induction text using List.reverseRecOn generalizing t with
  | nil =>
    cases hread
    exact Within.start hs
  | append_singleton text c ih =>
    have htext' : ∀ c' ∈ text, charClass c' ≠ .crlf :=
      fun c' hc' => htext c' (List.mem_append_left _ hc')
    have hcrlf := htext c List.mem_concat_self
    rw [readAll_append] at hread
    obtain ⟨⟨m, v⟩, hv, hstep⟩ := Option.bind_eq_some_iff.mp hread
    rw [readAll_singleton] at hstep
    cases m with
    | main => exact (ih htext' hv).step hcrlf (ended_lt hlast htext') hstep
    | skip =>
      rw [stepChar_skip hcrlf] at hstep
      cases hstep

/-- The room that the pieces take, the last one without a NUL. -/
def size (env : Setup) (text : Str) : Nat :=
  1 + rooms env.states (cut env text).ended + (cut env text).current.length

/-- The reader has given up the line. -/
structure GaveUp (s t : Reader F) : Prop where
  totals : t.totals = s.totals
  days : t.days = s.days
  lines : t.lines = s.lines
  brokenLines : t.brokenLines = s.brokenLines + 1

theorem Within.gaveUp (h : Within env s text t) {v : Reader F} (hv : Uncounted t v) :
    GaveUp s v.broken where
  totals := hv.totals.trans h.totals
  days := hv.days.trans h.days
  lines := hv.lines.trans h.lines
  brokenLines := congrArg (· + 1) (hv.brokenLines.trans h.brokenLines)

/-- The last piece takes its characters, and a NUL if it is kept in `buf`. -/
theorem rooms_pieces (hlt : (cut env text).ended.length < env.states.length) :
    1 + rooms env.states (pieces env text) = size env text +
      if (env.states.getD (cut env text).ended.length ⟨none, .wspace⟩).save.any Field.isText then 1
      else 0 := by
  obtain ⟨states, states', hstates, hlen⟩ := getD_of_lt ⟨none, .wspace⟩ hlt
  have hrooms := rooms_append hlen (env.states.getD (cut env text).ended.length ⟨none, .wspace⟩)
    states' (cut env text).current
  rw [← hstates] at hrooms
  rw [pieces, hrooms, room, size]
  omega

theorem ended_fieldsOk (hlt : (cut env text).ended.length < env.states.length)
    (hok : fieldsOk env.states (pieces env text) = true) :
    fieldOk (env.states.getD (cut env text).ended.length ⟨none, .wspace⟩).save
      (cut env text).current = true := by
  obtain ⟨states, states', hstates, hlen⟩ := getD_of_lt ⟨none, .wspace⟩ hlt
  have hoks := fieldsOk_append hlen (env.states.getD (cut env text).ended.length ⟨none, .wspace⟩)
    states' (cut env text).current
  rw [← hstates] at hoks
  rw [pieces, hoks, Bool.and_eq_true] at hok
  exact hok.2

theorem size_append (env : Setup) (text : Str) (c : Char) : size env (text ++ [c]) =
    if charClass c = (env.states.getD (cut env text).ended.length ⟨none, .wspace⟩).ending then
      1 + rooms env.states (pieces env text)
    else size env text + 1 := by
  rw [size, cut_append, Cut.step]
  split
  · rfl
  · rw [size, List.length_append]
    rfl

theorem size_le_append (hlast : EndsLines env) (htext : ∀ c ∈ text, charClass c ≠ .crlf)
    (c : Char) : size env text ≤ size env (text ++ [c]) := by
  rw [size_append]
  split
  · rw [rooms_pieces (ended_lt hlast htext)]
    exact Nat.le_add_right ..
  · exact Nat.le_succ _

/-- A field is not ended where its NUL does not fit. -/
theorem not_processed_of_full {t : Reader F} (hle : t.bufpos ≤ maxLineLen)
    (hfull : maxLineLen < t.bufpos + if (t.state env).save.any Field.isText then 1 else 0) :
    ¬∃ u, t.processField env = .next u := by
  intro h
  obtain ⟨u, hu⟩ := h
  obtain ⟨hsave, -⟩ | ⟨f, hsave, hf, hne, -⟩ | ⟨f, w, v, hsave, hf, -⟩ := processField_cases hu
  · rw [hsave, Option.any_none, if_neg Bool.false_ne_true] at hfull
    omega
  · rw [hsave, Option.any_some, if_pos hf] at hfull
    omega
  · rw [hsave, Option.any_some, hf, if_neg Bool.false_ne_true] at hfull
    omega

/-- A character is read if there is room for what it makes of the line. -/
theorem Within.read (h : Within env s text t) (hfits : size env text ≤ maxLineLen) {c : Char}
    (hcrlf : charClass c ≠ .crlf) (hlt : (cut env text).ended.length < env.states.length)
    (hok : fieldsOk env.states (cut env (text ++ [c])).ended = true) :
    (size env (text ++ [c]) ≤ maxLineLen ∧ ∃ u, stepChar env (.main, t) c = some (.main, u)) ∨
      maxLineLen < size env (text ++ [c]) ∧
        ∃ u, stepChar env (.main, t) c = some (.skip, u) ∧ GaveUp s u := by
  have hbufpos : t.bufpos = size env text := h.bufpos
  rw [stepChar, size_append, ← h.state]
  by_cases hc : charClass c = (t.state env).ending
  · rw [if_pos hc]
    have hsize := rooms_pieces hlt
    rw [cut_append, Cut.step, if_pos (h.state ▸ hc)] at hok
    have hfield := ended_fieldsOk hlt hok
    rw [← h.state] at hsize hfield
    rw [← h.slice] at hfield
    by_cases hroom : 1 + rooms env.states (pieces env text) ≤ maxLineLen
    · obtain ⟨u, hu⟩ := processField_of_ok hfield fun htext => by
        rw [hsize, if_pos htext, ← hbufpos] at hroom
        exact hroom
      rw [readChar_of_processed (.inl hc) hu, if_pos hcrlf]
      exact .inl ⟨hroom, _, rfl⟩
    · obtain hnext | ⟨v, -, hskip, hsame⟩ := readChar_end env t (.inl hc)
      · refine absurd hnext (not_processed_of_full (by omega) ?_)
        rw [hbufpos, ← hsize]
        omega
      · rw [hskip]
        exact .inr ⟨by omega, _, rfl, h.gaveUp hsame⟩
  · rw [if_neg hc, readChar_other hc hcrlf]
    by_cases hfull : t.bufpos = maxLineLen
    · rw [show t.bufset c = .skip _ from if_pos hfull]
      exact .inr ⟨by omega, _, rfl, h.gaveUp ⟨rfl, rfl, rfl, rfl⟩⟩
    · rw [show t.bufset c = .next (t.push c) from if_neg hfull]
      exact .inl ⟨by omega, _, rfl⟩

theorem ended_concat_starts (env : Setup) (text : Str) (c : Char) :
    (cut env text).ended <+: (cut env (text ++ [c])).ended := by
  rw [cut_append, Cut.step]
  split
  · exact List.prefix_append ..
  · exact List.prefix_rfl

theorem fieldsOk_of_prefix {states : List LineState} {ss ss' : List Str} (h : ss <+: ss')
    (hok : fieldsOk states ss' = true) : fieldsOk states ss = true := by
  induction states generalizing ss ss' with
  | nil => cases ss <;> rfl
  | cons st states ih =>
    cases ss with
    | nil => rfl
    | cons s ss =>
      obtain ⟨rest, rfl⟩ := h
      simp only [List.cons_append, fieldsOk, Bool.and_eq_true] at hok ⊢
      exact ⟨hok.1, ih (List.prefix_append ..) hok.2⟩

/-- The reader comes through a line whose fields are right, unless the line is too long. -/
theorem reads_or_gives_up (hs : AtStart s) (hlast : EndsLines env)
    (htext : ∀ c ∈ text, charClass c ≠ .crlf)
    (hok : fieldsOk env.states (cut env text).ended = true) :
    (size env text ≤ maxLineLen ∧ ∃ t, readAll env (.main, s) text = some (.main, t)) ∨
      maxLineLen < size env text ∧
        ∃ t, readAll env (.main, s) text = some (.skip, t) ∧ GaveUp s t := by
  induction text using List.reverseRecOn with
  | nil =>
    refine .inl ⟨?_, s, rfl⟩
    simp [size, cut, rooms, maxLineLen]
  | append_singleton text c ih =>
    have htext' : ∀ c' ∈ text, charClass c' ≠ .crlf :=
      fun c' hc' => htext c' (List.mem_append_left _ hc')
    have hcrlf := htext c List.mem_concat_self
    have hprev := fieldsOk_of_prefix (ended_concat_starts env text c) hok
    simp only [readAll_append]
    obtain ⟨hfits, t, ht⟩ | ⟨hlong, t, ht, hgave⟩ := ih htext' hprev
    · rw [ht, Option.bind_some, readAll_singleton]
      have hwithin := within_of_readAll hs hlast htext' ht
      exact hwithin.read hfits hcrlf (ended_lt hlast htext') hok
    · rw [ht, Option.bind_some, readAll_singleton, stepChar_skip hcrlf]
      exact .inr ⟨Nat.lt_of_lt_of_le hlong (size_le_append hlast htext' c), t, rfl, hgave⟩

end Caudium.UltraLog
