import Caudium.UltraLog.Required

/-!
# The hours of the arrays

What is counted for an hour stands in arrays of 24 numbers. The hour of a line is the number of its
last `%h` field, whatever it is, and the hour that is over is the one of the line before. So the
arrays are not left if and only if no line that is counted has an hour that is not on the clock
(`hours_in_arrays_iff`).
-/

namespace Caudium.UltraLog

open Lib (Str)

variable {F : Floats} {env : Setup} {s t u : Reader F} {text : Str}

/-! ## The hours that are used -/

/-- `last_hour` and `last_date`, as numbers. -/
structure Clock where
  lastHour : Int
  lastDate : Int

/-- What they are set to by a line that is counted. -/
def LogLine.clock (l : LogLine) : Clock := ⟨l.h, l.date⟩

/-- The hours for which the line counts something: its own, and the one that is over. -/
def Clock.hours (k : Clock) (l : LogLine) : List Int :=
  if k.lastDate = 0 ∨ k.lastHour = l.h ∧ k.lastDate = l.date then [l.h] else [k.lastHour, l.h]

/-- The line that ends with the character, if it is one that is counted. -/
def lineAt (env : Setup) (st : Mode × Reader F) (c : Char) : Option LogLine :=
  match st with
  | (.main, s) =>
    if charClass c = .crlf then
      match s.processField env with
      | .next u =>
        if u.nextField.statePos < env.numStates ∨ u.nextField.logLine.date = 0 then none
        else some u.nextField.logLine
      | _ => none
    else none
  | (.skip, _) => none

/-- The hours for which something is counted until the log's end, or until the memory is left. -/
def usedHours (env : Setup) (st : Mode × Reader F) (k : Clock) (cs : Str) : List Int :=
  match cs with
  | [] =>
    if st.2.bufPoints .year ≠ 0 ∧ st.2.bufPoints .month ≠ 0 ∧ st.2.bufPoints .date ≠ 0 then
      [k.lastHour]
    else []
  | c :: cs =>
    let rest (k : Clock) : List Int :=
      match stepChar env st c with
      | some st' => usedHours env st' k cs
      | none => []
    match lineAt env st c with
    | some l => k.hours l ++ rest l.clock
    | none => rest k

/-- The arrays have a place for the hour. -/
def OnClock (h : Int) : Prop := 0 ≤ h ∧ h < 24

/-- The line is one that is counted: its fields are accepted, and it has a date. -/
def Counted (env : Setup) (s : Reader F) (text : Str) : Prop :=
  ∃ t u, readAll env (.main, s) text = some (.main, t) ∧ t.processField env = .next u ∧
    u.nextField.logLine.date ≠ 0

/-- The text is empty or ends with a line. -/
def WholeLines (text : Str) : Prop := ∀ c ∈ text.getLast?, charClass c = .crlf

/-- Each line that is counted has an hour that is on the clock. -/
def HoursOnClock (env : Setup) (start : Reader F) (content : Str) : Prop :=
  ∀ before text c after, content = before ++ text ++ c :: after → WholeLines before →
    (∀ x ∈ text, charClass x ≠ .crlf) → charClass c = .crlf →
      ∀ s, readAll env (.main, start) before = some (.main, s) → Counted env s text →
        OnClock (lineHour env text)

/-! ## Lines of a text -/

theorem exists_wholeLines (text : Str) :
    ∃ before line, text = before ++ line ∧ WholeLines before ∧
      ∀ c ∈ line, charClass c ≠ .crlf := by
  induction text using List.reverseRecOn with
  | nil =>
    refine ⟨[], [], rfl, fun c hc => ?_, fun c hc => ?_⟩
    · cases hc
    · cases hc
  | append_singleton text c ih =>
    by_cases hc : charClass c = .crlf
    · refine ⟨text ++ [c], [], (List.append_nil _).symm, fun d hd => ?_, fun d hd => ?_⟩
      · rw [List.getLast?_concat, Option.mem_some] at hd
        rw [← hd]
        exact hc
      · cases hd
    · obtain ⟨before, line, rfl, hbefore, hline⟩ := ih
      refine ⟨before, line ++ [c], List.append_assoc .., hbefore, fun d hd => ?_⟩
      obtain hd | hd := List.mem_append.mp hd
      · exact hline d hd
      · rw [List.mem_singleton.mp hd]
        exact hc

theorem readAll_skip (htext : ∀ c ∈ text, charClass c ≠ .crlf) :
    readAll env (.skip, s) text = some (.skip, s) := by
  induction text with
  | nil => rfl
  | cons c text ih =>
    rw [readAll_cons, stepChar_skip (htext c List.mem_cons_self), Option.bind_some]
    exact ih fun c' hc' => htext c' (List.mem_cons_of_mem c hc')

theorem atStart_endLine (h : s.endLine env = .next t) : AtStart t := by
  unfold Reader.endLine at h
  split at h
  · cases h
    exact atStart_ok _
  · split at h
    · cases h
      exact atStart_ok _
    · split at h
      · cases h
      · cases h
        exact atStart_ok _

/-- Behind the end of a line the reader is at the start of the next one, if it does not skip. -/
theorem atStart_stepChar {st : Mode × Reader F} {c : Char} (hc : charClass c = .crlf)
    (h : stepChar env st c = some (.main, t)) : AtStart t := by
  obtain ⟨m, s⟩ := st
  cases m with
  | skip =>
    rw [stepChar, if_pos hc] at h
    cases h
    exact atStart_ok s
  | main =>
    rw [stepChar] at h
    obtain ⟨u, hu⟩ | ⟨v, -, hskip, -⟩ := readChar_end env s (.inr hc)
    · rw [readChar_of_processed (.inr hc) hu, if_neg (not_not.mpr hc)] at h
      cases hend : u.nextField.endLine env with
      | next v =>
        rw [hend] at h
        cases h
        exact atStart_endLine hend
      | skip v =>
        rw [hend] at h
        cases h
      | undefined =>
        rw [hend] at h
        cases h
    · rw [hskip] at h
      cases h

theorem atStart_wholeLines (hs : AtStart s) {before : Str} (hbefore : WholeLines before)
    (h : readAll env (.main, s) before = some (.main, t)) : AtStart t := by
  obtain rfl | ⟨text, c, rfl⟩ := List.eq_nil_or_concat before
  · cases h
    exact hs
  · rw [List.concat_eq_append] at hbefore h
    rw [readAll_append] at h
    obtain ⟨st, -, hstep⟩ := Option.bind_eq_some_iff.mp h
    rw [readAll_singleton] at hstep
    refine atStart_stepChar (hbefore c ?_) hstep
    rw [List.getLast?_concat]
    rfl

/-! ## The line at a place of the text -/

/-- What a line that is counted has been read from. -/
theorem lineAt_cases {st : Mode × Reader F} {c : Char} {l : LogLine}
    (h : lineAt env st c = some l) : ∃ t u, st = (.main, t) ∧ charClass c = .crlf ∧
      t.processField env = .next u ∧ u.nextField.logLine = l ∧ l.date ≠ 0 := by
  unfold lineAt at h
  split at h
  · next t =>
    split at h
    · next hc =>
      split at h
      · next u hu =>
        split at h
        · cases h
        · next hcounted =>
          rw [not_or] at hcounted
          cases h
          exact ⟨t, u, rfl, hc, hu, rfl, hcounted.2⟩
      · cases h
    · cases h
  · cases h

theorem lineAt_of_counted (hnum : env.numStates = 1) {c : Char} (hc : charClass c = .crlf)
    (hu : t.processField env = .next u) (hdate : u.nextField.logLine.date ≠ 0) :
    lineAt env (.main, t) c = some u.nextField.logLine := by
  have henough : ¬u.nextField.statePos < env.numStates := by
    show ¬u.statePos + 1 < env.numStates
    omega
  unfold lineAt
  dsimp only
  rw [if_pos hc, hu]
  exact if_neg (not_or.mpr ⟨henough, hdate⟩)

/-- Each line that is counted, at any place of the content. -/
theorem hoursOnClock_iff (hlast : EndsLines env) (hnum : env.numStates = 1) (hs : AtStart s)
    (content : Str) : HoursOnClock env s content ↔
      ∀ p c q st l, content = p ++ c :: q → readAll env (.main, s) p = some st →
        lineAt env st c = some l → OnClock l.h := by
  refine ⟨fun h p c q st l hcontent hread hline => ?_,
    fun h before text c after hcontent hbefore htext hc t hread hcounted => ?_⟩
  · obtain ⟨t, u, rfl, hc, hu, rfl, hdate⟩ := lineAt_cases hline
    obtain ⟨before, text, rfl, hbefore, htext⟩ := exists_wholeLines p
    rw [readAll_append] at hread
    obtain ⟨⟨m, v⟩, hv, hrest⟩ := Option.bind_eq_some_iff.mp hread
    have hm : m = .main := by
      cases m with
      | main => rfl
      | skip =>
        rw [readAll_skip htext] at hrest
        cases hrest
    subst hm
    have hstart := atStart_wholeLines hs hbefore hv
    have hbehind := (within_of_readAll hstart hlast htext hrest).behind (ended_lt hlast htext) hu
    rw [hbehind.hour hstart]
    exact h before text c q hcontent hbefore htext hc v hv ⟨t, u, hrest, hu, hdate⟩
  · obtain ⟨v, u, hv, hu, hdate⟩ := hcounted
    have hstart := atStart_wholeLines hs hbefore hread
    have hbehind := (within_of_readAll hstart hlast htext hv).behind (ended_lt hlast htext) hu
    rw [← hbehind.hour hstart]
    refine h (before ++ text) c after (.main, v) _ hcontent ?_ (lineAt_of_counted hnum hc hu hdate)
    rw [readAll_append, hread]
    exact hv

/-! ## The clock and the totals -/

/-- The clock shows what the totals are of. -/
def Clock.Shows (k : Clock) (t : Totals F) : Prop :=
  (t.lastHour.val : Int) = k.lastHour ∧ t.lastDate = k.lastDate

theorem clock_account {pagexts : List Str} {notref : Option Str} {t t' : Totals F} {l : LogLine}
    {days : List (Daily F)} (h : account pagexts notref t l = some (days, t')) :
    l.clock.Shows t' := by
  unfold account at h
  cases hhour : hourIndex l.h with
  | none =>
    rw [hhour] at h
    cases h
  | some hour =>
    have hval : (hour.val : Int) = l.h := by
      unfold hourIndex at hhour
      split at hhour
      · cases hhour
        exact Int.toNat_of_nonneg (by omega)
      · cases hhour
    obtain ⟨hnone, -⟩ | ⟨days', t'', hsome, -, hat, -⟩ := account_cases pagexts notref t l hour hval
    · unfold account at hnone
      rw [hnone] at h
      cases h
    · unfold account at hsome
      rw [hsome] at h
      cases h
      exact ⟨(congrArg (fun i : Hour => (i.val : Int)) hat.1).trans hval, hat.2⟩

/-- A line that is not counted leaves the totals as they are. -/
theorem totals_endLine (hcounted : s.statePos < env.numStates ∨ s.logLine.date = 0)
    (h : s.endLine env = .next t) : t.totals = s.totals := by
  unfold Reader.endLine at h
  by_cases hfew : s.statePos < env.numStates
  · rw [if_pos hfew] at h
    cases h
    rfl
  · rw [if_neg hfew, if_pos (hcounted.resolve_left hfew)] at h
    cases h
    rfl

/-- What a line that ends sets the clock to, if it is counted. -/
theorem shows_endLine {k : Clock} (hk : k.Shows s.totals) (h : s.endLine env = .next t) :
    ((if s.statePos < env.numStates ∨ s.logLine.date = 0 then none
      else some s.logLine).elim k LogLine.clock).Shows t.totals := by
  by_cases hcounted : s.statePos < env.numStates ∨ s.logLine.date = 0
  · rw [if_pos hcounted]
    show k.Shows t.totals
    rw [totals_endLine hcounted h]
    exact hk
  · rw [if_neg hcounted]
    rw [not_or] at hcounted
    unfold Reader.endLine at h
    rw [if_neg hcounted.1, if_neg hcounted.2] at h
    cases haccount : account env.pagexts env.notref s.totals s.logLine with
    | none =>
      rw [haccount] at h
      cases h
    | some p =>
      rw [haccount] at h
      cases h
      exact clock_account haccount

/-- What the clock is set to when a line ends, the totals are of then. -/
theorem shows_stepChar {st st' : Mode × Reader F} {k : Clock} {c : Char}
    (hk : k.Shows st.2.totals) (h : stepChar env st c = some st') :
    ((lineAt env st c).elim k LogLine.clock).Shows st'.2.totals := by
  obtain ⟨m, s⟩ := st
  obtain ⟨m', t⟩ := st'
  by_cases hc : charClass c = .crlf
  · cases m with
    | skip =>
      rw [stepChar, if_pos hc] at h
      cases h
      exact hk
    | main =>
      rw [stepChar] at h
      obtain ⟨u, hu⟩ | ⟨v, hv, hskip, hsame⟩ := readChar_end env s (.inr hc)
      · obtain ⟨-, -, htotals, -⟩ := processField_frame hu
        rw [readChar_of_processed (.inr hc) hu, if_neg (not_not.mpr hc)] at h
        unfold lineAt
        dsimp only
        rw [if_pos hc, hu]
        have hu' : k.Shows u.nextField.totals := by
          show k.Shows u.totals
          rw [htotals]
          exact hk
        cases hend : u.nextField.endLine env with
        | next v =>
          rw [hend] at h
          cases h
          exact shows_endLine hu' hend
        | skip v => exact absurd hend (endLine_ne_skip _ v)
        | undefined =>
          rw [hend] at h
          cases h
      · rw [hskip] at h
        cases h
        unfold lineAt
        dsimp only
        rw [if_pos hc, hv]
        show k.Shows v.totals
        rw [hsame.totals]
        exact hk
  · have hquiet := quiet_stepChar h (.inl hc)
    have hline : lineAt env (m, s) c = none := by
      cases m with
      | main => exact if_neg hc
      | skip => rfl
    rw [hline]
    show k.Shows t.totals
    rw [hquiet.totals]
    exact hk

/-- Wherever the reader has come to, the clock shows what the totals are of. -/
theorem shows_readAll {st st' : Mode × Reader F} {k : Clock} (hk : k.Shows st.2.totals)
    {before : Str} (h : readAll env st before = some st') :
    ∃ used k', k'.Shows st'.2.totals ∧
      ∀ text, usedHours env st k (before ++ text) = used ++ usedHours env st' k' text := by
  induction before generalizing st k with
  | nil =>
    cases h
    exact ⟨[], k, hk, fun _ => rfl⟩
  | cons c before ih =>
    rw [readAll_cons] at h
    obtain ⟨st₁, hstep, hrest⟩ := Option.bind_eq_some_iff.mp h
    have hk₁ := shows_stepChar hk hstep
    cases hline : lineAt env st c with
    | none =>
      rw [hline] at hk₁
      obtain ⟨used, k', hk', hused⟩ := ih hk₁ hrest
      refine ⟨used, k', hk', fun text => ?_⟩
      rw [List.cons_append, usedHours, hline, hstep]
      exact hused text
    | some l =>
      rw [hline] at hk₁
      obtain ⟨used, k', hk', hused⟩ := ih hk₁ hrest
      refine ⟨k.hours l ++ used, k', hk', fun text => ?_⟩
      rw [List.cons_append, usedHours, hline, hstep, List.append_assoc, ← hused text]
      rfl

/-! ## The run -/

theorem forall_mem_hours {k : Clock} (hk : OnClock k.lastHour) (l : LogLine) :
    (∀ h ∈ k.hours l, OnClock h) ↔ OnClock l.h := by
  unfold Clock.hours
  split
  · simp
  · simp [hk]

theorem forall_usedHours {st : Mode × Reader F} {k : Clock} (hk : OnClock k.lastHour) (cs : Str) :
    (∀ h ∈ usedHours env st k cs, OnClock h) ↔
      ∀ p c q st' l, cs = p ++ c :: q → readAll env st p = some st' →
        lineAt env st' c = some l → OnClock l.h := by
  induction cs generalizing st k with
  | nil =>
    refine ⟨fun _ p c q st' l hcs => absurd hcs (by simp), fun _ => ?_⟩
    rw [usedHours]
    split
    · simpa using hk
    · simp
  | cons c cs ih =>
    -- the lines of the text are the one that ends here, and those of the rest
    have hsplit : (∀ p c' q st' l, c :: cs = p ++ c' :: q → readAll env st p = some st' →
          lineAt env st' c' = some l → OnClock l.h) ↔
        (∀ l, lineAt env st c = some l → OnClock l.h) ∧
          ∀ st₁, stepChar env st c = some st₁ → ∀ p c' q st' l, cs = p ++ c' :: q →
            readAll env st₁ p = some st' → lineAt env st' c' = some l → OnClock l.h := by
      refine ⟨fun h => ⟨fun l => h [] c cs st l rfl rfl, fun st₁ hstep p c' q st' l hcs hread =>
        h (c :: p) c' q st' l (by rw [hcs]; rfl) ?_⟩, fun h p c' q st' l hcs hread hline => ?_⟩
      · rw [readAll_cons, hstep]
        exact hread
      · cases p with
        | nil =>
          cases hcs
          cases hread
          exact h.1 l hline
        | cons d p =>
          cases hcs
          rw [readAll_cons] at hread
          obtain ⟨st₁, hstep, hrest⟩ := Option.bind_eq_some_iff.mp hread
          exact h.2 st₁ hstep p c' q st' l rfl hrest hline
    rw [hsplit, usedHours]
    cases hline : lineAt env st c with
    | none =>
      cases hstep : stepChar env st c with
      | none => simp
      | some st₁ => simpa using ih hk
    | some l =>
      dsimp only
      simp only [List.mem_append, or_imp, forall_and, forall_mem_hours hk, Option.some.injEq,
        forall_eq']
      refine and_congr_right fun hl => ?_
      cases hstep : stepChar env st c with
      | none => simp
      | some st₁ => simpa using ih (k := l.clock) hl

/-- The arrays are not left, if and only if each line that is counted has an hour that is on the
clock. -/
theorem hours_in_arrays_iff {args : Arguments} (hsetup : args.setup = some env) (junk : Nat → Char)
    (content : Str) :
    (∀ h ∈ usedHours env (.main, Reader.start F junk) ⟨0, 0⟩ content, OnClock h) ↔
      HoursOnClock env (Reader.start F junk) content := by
  rw [hoursOnClock_iff (getLast_setup hsetup) (numStates_setup hsetup) (atStart_start F junk)]
  exact forall_usedHours ⟨Int.le_refl 0, Int.natCast_pos.2 (Nat.succ_pos 23)⟩ content

/-- Logs of dates and hours. -/
def byHour : Arguments where
  logFormat := "%D/%M/%Y:%h".toList
  pagexts := []
  notref := none
  start := 0

def byHourSetup : Setup where
  states := [⟨some .date, .slash⟩, ⟨some .month, .slash⟩, ⟨some .year, .colon⟩, ⟨some .hour, .crlf⟩]
  numStates := 1
  pagexts := []
  notref := none

theorem hours_in_arrays_late :
    (∀ h ∈ usedHours byHourSetup (.main, Reader.start wholeNumbers fun _ => '\x00') ⟨0, 0⟩
        "01/02/2003:23\n".toList, OnClock h) ↔
      HoursOnClock byHourSetup (Reader.start wholeNumbers fun _ => '\x00')
        "01/02/2003:23\n".toList := by
  have hsetup : byHour.setup = some byHourSetup := rfl
  exact hours_in_arrays_iff hsetup _ _

/-- A line of the hour 24 is counted in a place behind the arrays. -/
theorem hour_behind_arrays : byHour.setup = some byHourSetup ∧
    usedHours byHourSetup (.main, Reader.start wholeNumbers fun _ => '\x00') ⟨0, 0⟩
      "01/02/2003:24\n".toList = [24] ∧ ¬OnClock 24 :=
  ⟨rfl, by decide, fun h => absurd h.2 (by omega)⟩

end Caudium.UltraLog
