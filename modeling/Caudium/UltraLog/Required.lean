import Caudium.UltraLog.PageHits
import Caudium.UltraLog.Pieces
import Mathlib.Algebra.Group.Nat.Defs

/-!
# The fields that a line must have

`\o` in a format says that the fields behind it are optional, and `parse_log_format` returns
`required_fields || state_pos`, which is 1. So no line has too few fields: it is broken if it
does not fit into `buf`, or if its date is 0, and counted else, under the date that is left of
the lines before if it does not come to its own (`line_outcome`).
-/

namespace Caudium.UltraLog

open Lib (Str Mapping)

variable {F : Floats} {env : Setup} {s t u : Reader F} {text : Str}

/-! ## What a line should have -/

/-- The number of states in front of `\o`, and of all states if there is none: what
`required_fields` is at the end if it is that number at first. -/
def requiredStates (logFormat : Str) : Option Nat :=
  (parseStates logFormat none [] 0).bind fun p =>
    (parseStates logFormat none [] p.1.length).map Prod.snd

/-- The date of a line, with `kept` in the places of the fields that it does not have. -/
def lineDate (kept : Field → Int) (env : Setup) (text : Str) : Int :=
  wrap32 (lastValue .year (kept .year) env.states (pieces env text) * 10000 +
    lastValue .month (kept .month) env.states (pieces env text) * 100 +
    lastValue .date (kept .date) env.states (pieces env text))

/-- The hour of a line. -/
def lineHour (env : Setup) (text : Str) : Int :=
  lastValue .hour 0 env.states (pieces env text)

/-- The line fits into `buf`. -/
def Fits (env : Setup) (text : Str) : Prop := 1 + rooms env.states (pieces env text) ≤ maxLineLen

/-- The line is counted once, in the hits of its hour; if it is the first one of a day, these
begin anew. -/
structure CountedOnce (env : Setup) (s t : Reader F) (text : Str) : Prop where
  lines : t.lines = s.lines + 1
  brokenLines : t.brokenLines = s.brokenLines
  hits : ∃ (h : Hour) (base : PerHour UInt32), (h.val : Int) = lineHour env text ∧
    t.totals.hitsPerHour = base.set h (base h + 1) ∧
    (t.days = s.days ∧ base = s.totals.hitsPerHour ∨ t.days ≠ s.days ∧ base = fun _ => 0)

/-- The reader, which is `s` before the line, takes it for broken if it has fewer than `r` fields
or no date, and counts it else. `kept` is what stands for the fields of a date that it lacks. -/
def Judged (kept : Field → Int) (env : Setup) (r : Nat) (s : Reader F) (text : Str) (c : Char) :
    Prop :=
  ∃ st, readAll env (.main, s) (text ++ [c]) = some st ∧
    ((pieces env text).length < r ∨ lineDate kept env text = 0 → GaveUp s st.2) ∧
    (¬((pieces env text).length < r ∨ lineDate kept env text = 0) → CountedOnce env s st.2 text)

/-- No URL that begins with '?' is in the tables that are closed with the hour and with the day,
if the line closes them. -/
def ClosesClean (t : Totals F) (h date : Int) : Prop :=
  t.lastDate ≠ 0 → ¬((t.lastHour.val : Int) = h ∧ t.lastDate = date) →
    (∀ e ∈ t.hits20x.entries, e.1.head? ≠ some '?') ∧
      (t.lastDate ≠ date → ∀ e ∈ t.referredto.entries, e.1.head? ≠ some '?')

/-- A line that should be broken does not fit, or has no date even with the one that is left from
before; and one that should be counted fits, has a date with it, and closes what it closes. -/
def Decided (kept : Field → Int) (env : Setup) (r : Nat) (s : Reader F) (text : Str) : Prop :=
  if (pieces env text).length < r ∨ lineDate kept env text = 0 then
    ¬Fits env text ∨ lineDate s.bufPoints env text = 0
  else
    Fits env text ∧ lineDate s.bufPoints env text ≠ 0 ∧
      ClosesClean s.totals (lineHour env text) (lineDate s.bufPoints env text)

/-! ## Closing an hour and a day -/

theorem summarizeSessions_keeps {β : Type} (f : Totals F → β)
    (hf : ∀ (t : Totals F) h seconds, f (t.addSession h seconds) = f t) (t : Totals F) :
    f t.summarizeSessions = f t := by
  have hall : ∀ (l : List (Sigma fun _ : Str => Int)) (ends : Counts) (t : Totals F),
      f (l.foldl (fun t e => t.addSession t.lastHour ((t.sessionEnd.lookup e.1).getD 0 - e.2)) t) =
        f t := by
    intro l ends
    induction l with
    | nil => exact fun _ => rfl
    | cons e l ih => exact fun t => (ih _).trans (hf t _ _)
  exact hall t.sessionStart.entries t.sessionEnd t

/-- What of the totals an hour's end leaves as it is, and the hour that begins. -/
structure HourKept (t t' : Totals F) (h : Hour) : Prop where
  hitsPerHour : t'.hitsPerHour = t.hitsPerHour
  referredto : t'.referredto = t.referredto
  lastDate : t'.lastDate = t.lastDate
  lastHour : t'.lastHour = h

theorem closeHour_cases (t : Totals F) (pagexts : List Str) (h : Hour) :
    (t.closeHour pagexts h = none ∧ ∃ e ∈ t.hits20x.entries, e.1.head? = some '?') ∨
      ∃ t', t.closeHour pagexts h = some t' ∧ HourKept t t' h ∧
        ∀ e ∈ t.hits20x.entries, e.1.head? ≠ some '?' := by
  rw [Totals.closeHour, Totals.closePages]
  cases hpages : hourlyPageHits t.hits20x t.pages t.hits pagexts with
  | none => exact .inl ⟨rfl, (hourlyPageHits_eq_none_iff ..).mp hpages⟩
  | some acc =>
    have hclean : ∀ e ∈ t.hits20x.entries, e.1.head? ≠ some '?' := by
      intro e he hhead
      have hnone := (hourlyPageHits_eq_none_iff pagexts t.hits20x t.pages t.hits).mpr
        ⟨e, he, hhead⟩
      rw [hpages] at hnone
      cases hnone
    refine .inr ⟨_, rfl, ⟨?_, ?_, ?_, rfl⟩, hclean⟩
    · exact summarizeSessions_keeps Totals.hitsPerHour (fun _ _ _ => rfl) _
    · exact summarizeSessions_keeps Totals.referredto (fun _ _ _ => rfl) _
    · exact summarizeSessions_keeps Totals.lastDate (fun _ _ _ => rfl) _

theorem summarize_cases (t : Totals F) (pagexts : List Str) :
    (t.summarize pagexts = none ∧ ∃ e ∈ t.referredto.entries, e.1.head? = some '?') ∨
      ∃ t', t.summarize pagexts = some t' ∧ t'.lastHour = t.lastHour ∧
        ∀ e ∈ t.referredto.entries, e.1.head? ≠ some '?' := by
  rw [Totals.summarize]
  cases hrefs : cleanRefto t.referredto pagexts with
  | none => exact .inl ⟨rfl, (cleanRefto_eq_none_iff ..).mp hrefs⟩
  | some refs =>
    refine .inr ⟨_, rfl, rfl, fun e he hhead => ?_⟩
    have hnone := (cleanRefto_eq_none_iff pagexts t.referredto).mpr ⟨e, he, hhead⟩
    rw [hrefs] at hnone
    cases hnone

/-- The totals are those of the hour and of the date. -/
def Totals.At (t : Totals F) (h : Hour) (date : Int) : Prop := t.lastHour = h ∧ t.lastDate = date

/-- Another hour or day: what is closed is clean, and the hits of a new day begin anew. -/
theorem advance_cases (t : Totals F) (pagexts : List Str) (date : Int) (h : Hour) :
    (t.advance pagexts date h = none ∧ ¬ClosesClean t h.val date) ∨
      ∃ days t', t.advance pagexts date h = some (days, t') ∧ ClosesClean t h.val date ∧
        t'.At h date ∧
          (days = [] ∧ t'.hitsPerHour = t.hitsPerHour ∨ days ≠ [] ∧ t'.hitsPerHour = fun _ => 0) := by
  have hhour : (t.lastHour.val : Int) = h.val ↔ t.lastHour = h := by
    rw [Int.natCast_inj, Fin.val_inj]
  unfold Totals.advance ClosesClean
  rw [hhour]
  by_cases hfirst : t.lastDate = 0
  · rw [if_pos hfirst]
    exact .inr ⟨_, _, rfl, fun hne => absurd hfirst hne, ⟨rfl, rfl⟩, .inl ⟨rfl, rfl⟩⟩
  rw [if_neg hfirst]
  by_cases hsame : t.lastHour = h ∧ t.lastDate = date
  · rw [if_pos hsame]
    exact .inr ⟨_, _, rfl, fun _ hne => absurd hsame hne, hsame, .inl ⟨rfl, rfl⟩⟩
  rw [if_neg hsame]
  obtain ⟨hnone, hdirty⟩ | ⟨t₁, hclose, hkept, hclean⟩ := closeHour_cases t pagexts h
  · rw [hnone]
    refine .inl ⟨rfl, fun hall => ?_⟩
    obtain ⟨e, he, hhead⟩ := hdirty
    exact (hall hfirst hsame).1 e he hhead
  · rw [hclose]
    dsimp only
    rw [hkept.lastDate]
    by_cases hdate : t.lastDate = date
    · rw [if_pos hdate]
      exact .inr ⟨_, _, rfl, fun _ _ => ⟨hclean, fun hne => absurd hdate hne⟩,
        ⟨hkept.lastHour, hkept.lastDate.trans hdate⟩, .inl ⟨rfl, hkept.hitsPerHour⟩⟩
    · rw [if_neg hdate]
      have hrefs := summarize_cases t₁ pagexts
      rw [hkept.referredto] at hrefs
      obtain ⟨hnone, hdirty⟩ | ⟨t₂, hsum, hhour₂, hrefs⟩ := hrefs
      · rw [hnone]
        refine .inl ⟨rfl, fun hall => ?_⟩
        obtain ⟨e, he, hhead⟩ := hdirty
        exact (hall hfirst hsame).2 hdate e he hhead
      · rw [hsum]
        exact .inr ⟨_, _, rfl, fun _ _ => ⟨hclean, fun _ => hrefs⟩,
          ⟨hhour₂.trans hkept.lastHour, rfl⟩, .inr ⟨List.cons_ne_nil _ _, rfl⟩⟩

/-- What of the totals a session and a code leave as it is. -/
structure LineKept (t t' : Totals F) : Prop where
  hitsPerHour : t'.hitsPerHour = t.hitsPerHour
  lastHour : t'.lastHour = t.lastHour
  lastDate : t'.lastDate = t.lastDate

theorem lineKept_processSession (t : Totals F) (host : Str) (time : Int) (h : Hour) :
    LineKept t (t.processSession host time h) := by
  unfold Totals.processSession
  dsimp only
  split
  · split
    · exact ⟨rfl, rfl, rfl⟩
    · exact ⟨rfl, rfl, rfl⟩
  · exact ⟨rfl, rfl, rfl⟩

theorem lineKept_doReferrer (t : Totals F) (notref : Option Str) (l : LogLine) :
    LineKept t (t.doReferrer notref l) := by
  unfold Totals.doReferrer
  split
  · exact ⟨rfl, rfl, rfl⟩
  · exact ⟨rfl, rfl, rfl⟩

theorem lineKept_countCode (t : Totals F) (notref : Option Str) (l : LogLine) :
    LineKept t (t.countCode notref l) := by
  unfold Totals.countCode
  split
  · have h := lineKept_doReferrer { t with hits20x := mapadd t.hits20x l.url } notref l
    exact ⟨h.hitsPerHour, h.lastHour, h.lastDate⟩
  · split
    · have h := lineKept_doReferrer { t with hits302 := mapadd t.hits302 l.url } notref l
      exact ⟨h.hitsPerHour, h.lastHour, h.lastDate⟩
    · split
      · unfold Totals.doErref
        split
        · exact ⟨rfl, rfl, rfl⟩
        · exact ⟨rfl, rfl, rfl⟩
      · exact ⟨rfl, rfl, rfl⟩

/-- A line of an hour on the clock is counted in its hits, if it closes nothing but what is
clean. -/
theorem account_cases (pagexts : List Str) (notref : Option Str) (t : Totals F) (l : LogLine)
    (h : Hour) (hh : (h.val : Int) = l.h) :
    (account pagexts notref t l = none ∧ ¬ClosesClean t l.h l.date) ∨
      ∃ days t', account pagexts notref t l = some (days, t') ∧ ClosesClean t l.h l.date ∧
        t'.At h l.date ∧ ∃ base : PerHour UInt32, t'.hitsPerHour = base.set h (base h + 1) ∧
          (days = [] ∧ base = t.hitsPerHour ∨ days ≠ [] ∧ base = fun _ => 0) := by
  have hindex : hourIndex l.h = some h := by
    have hlt := h.isLt
    rw [hourIndex, dif_pos (by omega)]
    refine congrArg some (Fin.ext ?_)
    show l.h.toNat = h.val
    omega
  unfold account
  rw [hindex]
  dsimp only
  obtain ⟨hnone, hdirty⟩ | ⟨days, t', hsome, hclean, hat, hbase⟩ := advance_cases t pagexts l.date h
  · rw [hnone, ← hh]
    exact .inl ⟨rfl, hdirty⟩
  · have hsession := lineKept_processSession t' l.addr (wrap32 (l.h * 3600 + l.m * 60 + l.s)) h
    have hcode := lineKept_countCode
      (t'.processSession l.addr (wrap32 (l.h * 3600 + l.m * 60 + l.s)) h) notref l
    have hhits := hcode.hitsPerHour.trans hsession.hitsPerHour
    have hhour := (hcode.lastHour.trans hsession.lastHour).trans hat.1
    have hdate := (hcode.lastDate.trans hsession.lastDate).trans hat.2
    rw [hsome, ← hh]
    refine .inr ⟨_, _, rfl, hclean, ?_, t'.hitsPerHour, ?_, hbase⟩
    · rw [← hh] at hhour hdate
      split
      · exact ⟨hhour, hdate⟩
      · exact ⟨hhour, hdate⟩
    · rw [← hh] at hhits
      split
      · dsimp only
        rw [hhits]
      · dsimp only
        rw [hhits]

/-! ## The hour and the date of a line -/

/-- A number that 32 bits hold is read as what it is. -/
theorem number_eq_decimal {s : Str} (h : ∀ c ∈ s, charClass c = .digit) (k : Nat)
    (hsmall : s.foldl (fun v c => v * 10 + (c.toNat - '0'.toNat)) k < 2 ^ 31) :
    (number k s).1 = (s.foldl (fun v c => v * 10 + (c.toNat - '0'.toNat)) k : Nat) := by
  induction s generalizing k with
  | nil => rfl
  | cons c s ih =>
    have hgrow : ∀ (s : Str) (k : Nat),
        k ≤ s.foldl (fun v c => v * 10 + (c.toNat - '0'.toNat)) k := by
      intro s
      induction s with
      | nil => exact fun k => Nat.le_refl k
      | cons c s ih =>
        intro k
        rw [List.foldl_cons]
        exact Nat.le_trans (by omega) (ih _)
    have hc := h c List.mem_cons_self
    rw [List.foldl_cons] at hsmall ⊢
    have hnow := hgrow s (k * 10 + (c.toNat - '0'.toNat))
    have hwrap : wrap32 ((k : Int) * 10 + digitValue c) =
        ((k * 10 + (c.toNat - '0'.toNat) : Nat) : Int) := by
      rw [(digitValue_eq hc).1, wrap32]
      omega
    rw [number, if_pos hc, hwrap]
    exact ih (fun c' hc' => h c' (List.mem_cons_of_mem c hc')) _ hsmall

theorem number_range {lo hi : Nat} (hhi : hi < 2 ^ 31) {s : Str} (h : isNumber lo hi s = true) :
    (lo : Int) ≤ (number 0 s).1 ∧ (number 0 s).1 ≤ hi := by
  have hdigits := digits_of_isNumber h
  unfold isNumber decimal at h
  rw [if_pos hdigits] at h
  simp only [Option.any_some, Bool.and_eq_true, decide_eq_true_eq] at h
  have hvalue : (number (0 : Nat) s).1 = _ :=
    number_eq_decimal hdigits.2 0 (Nat.lt_of_le_of_lt h.2 hhi)
  rw [show (0 : Int) = ((0 : Nat) : Int) from rfl, hvalue]
  omega

/-- What holds of the values of all right fields holds of the last one. -/
theorem lastValue_of_fieldsOk {P : Int → Prop} {f : Field}
    (hvalue : ∀ s, fieldOk (some f) s = true → P (fieldValue f s)) {states : List LineState}
    {ss : List Str} {v : Int} (hv : P v) (hok : fieldsOk states ss = true) :
    P (lastValue f v states ss) := by
  induction states generalizing ss v with
  | nil => cases ss <;> exact hv
  | cons st states ih =>
    cases ss with
    | nil => exact hv
    | cons s ss =>
      simp only [fieldsOk, Bool.and_eq_true] at hok
      rw [lastValue]
      refine ih ?_ hok.2
      split
      · next hsave =>
        rw [hsave] at hok
        exact hvalue s hok.1
      · exact hv

theorem lineHour_range (hok : fieldsOk env.states (pieces env text) = true) :
    ∃ h : Hour, (h.val : Int) = lineHour env text := by
  have hrange : 0 ≤ lineHour env text ∧ lineHour env text ≤ (23 : Nat) := by
    refine lastValue_of_fieldsOk (P := fun v => 0 ≤ v ∧ v ≤ (23 : Nat)) (fun s hs => ?_)
      (by decide) hok
    exact number_range (by decide) hs
  refine ⟨⟨(lineHour env text).toNat, by omega⟩, ?_⟩
  show ((lineHour env text).toNat : Int) = _
  omega

theorem Behind.hour (h : Behind env s text u) (hs : AtStart s) :
    u.nextField.logLine.h = lineHour env text := by
  show u.bufPoints .hour = _
  rw [h.points .hour (.inl rfl), hs.points .hour rfl]
  rfl

theorem Behind.date (h : Behind env s text u)
    (hok : fieldsOk env.states (pieces env text) = true) :
    u.nextField.logLine.date = lineDate s.bufPoints env text := by
  show wrap32 (u.bufPoints .year * 10000 + u.bufPoints .month * 100 + u.bufPoints .date) = _
  rw [h.points .year (.inl rfl), h.points .month (.inr ⟨rfl, hok⟩), h.points .date (.inl rfl)]
  rfl

/-! ## The end of a line -/

/-- A format has one required state. -/
theorem numStates_setup {args : Arguments} (h : args.setup = some env) : env.numStates = 1 := by
  have hlast := getLast_setup h
  unfold Arguments.setup parseLogFormat at h
  obtain ⟨p, hparse, rfl⟩ := Option.map_eq_some_iff.mp h
  split at hparse
  · cases hparse
  · obtain ⟨⟨states, required⟩, -, rfl⟩ := Option.map_eq_some_iff.mp hparse
    refine if_pos (.inr fun hnil => ?_)
    have hends : states.getLast?.map LineState.ending = some .crlf := hlast
    rw [List.eq_nil_of_length_eq_zero hnil] at hends
    cases hends

/-- The end of a line that has come to its end: it is broken, or counted, or leads out of the
memory. -/
theorem endLine_cases (hs : AtStart s) (hnum : env.numStates = 1) (h : Behind env s text u)
    (hok : fieldsOk env.states (pieces env text) = true) :
    (lineDate s.bufPoints env text = 0 ∧ ∃ t, u.nextField.endLine env = .next t ∧ GaveUp s t) ∨
      lineDate s.bufPoints env text ≠ 0 ∧
        ((¬ClosesClean s.totals (lineHour env text) (lineDate s.bufPoints env text) ∧
            u.nextField.endLine env = .undefined) ∨
          ClosesClean s.totals (lineHour env text) (lineDate s.bufPoints env text) ∧
            ∃ t, u.nextField.endLine env = .next t ∧ CountedOnce env s t text) := by
  obtain ⟨hour, hhour⟩ := lineHour_range hok
  have henough : ¬u.nextField.statePos < env.numStates := by
    show ¬u.statePos + 1 < env.numStates
    omega
  have hpart : u.nextField.totals = s.totals := h.totals
  unfold Reader.endLine
  rw [if_neg henough, h.date hok]
  by_cases hdate : lineDate s.bufPoints env text = 0
  · rw [if_pos hdate]
    refine .inl ⟨hdate, _, rfl, h.totals, h.days, h.lines, ?_⟩
    exact congrArg (· + 1) h.brokenLines
  · rw [if_neg hdate, hpart]
    refine .inr ⟨hdate, ?_⟩
    have haccount := account_cases env.pagexts env.notref s.totals u.nextField.logLine hour
      (hhour.trans (h.hour hs).symm)
    rw [h.hour hs, h.date hok] at haccount
    obtain ⟨hnone, hdirty⟩ | ⟨days, t', hsome, hclean, -, base, hhits, hdays⟩ := haccount
    · rw [hnone]
      exact .inl ⟨hdirty, rfl⟩
    · rw [hsome]
      refine .inr ⟨hclean, _, rfl, congrArg (· + 1) h.lines, h.brokenLines, hour, base, hhour,
        hhits, ?_⟩
      show u.days ++ days = s.days ∧ _ ∨ u.days ++ days ≠ s.days ∧ _
      rw [h.days]
      simpa using hdays

/-- What becomes of a line whose fields are right. -/
theorem line_outcome (hs : AtStart s) (hlast : EndsLines env) (hnum : env.numStates = 1)
    (htext : ∀ c ∈ text, charClass c ≠ .crlf)
    (hok : fieldsOk env.states (pieces env text) = true) {c : Char} (hc : charClass c = .crlf) :
    ((¬Fits env text ∨ lineDate s.bufPoints env text = 0) ∧
        ∃ st, readAll env (.main, s) (text ++ [c]) = some st ∧ GaveUp s st.2) ∨
      Fits env text ∧ lineDate s.bufPoints env text ≠ 0 ∧
        ((¬ClosesClean s.totals (lineHour env text) (lineDate s.bufPoints env text) ∧
            readAll env (.main, s) (text ++ [c]) = none) ∨
          ClosesClean s.totals (lineHour env text) (lineDate s.bufPoints env text) ∧
            ∃ st, readAll env (.main, s) (text ++ [c]) = some st ∧
              CountedOnce env s st.2 text) := by
  have hprefix : fieldsOk env.states (cut env text).ended = true :=
    fieldsOk_of_prefix (List.prefix_append ..) hok
  have hlt := ended_lt hlast htext
  rw [readAll_append]
  obtain ⟨hsize, t, ht⟩ | ⟨hlong, t, ht, hgave⟩ := reads_or_gives_up hs hlast htext hprefix
  · have hwithin := within_of_readAll hs hlast htext ht
    rw [ht, Option.bind_some, readAll_singleton, stepChar]
    obtain ⟨u, hu⟩ | ⟨v, hv, hskip, hsame⟩ := readChar_end env t (.inr hc)
    · have hbehind := hwithin.behind hlt hu
      have hfits : Fits env text := by
        rw [Fits, ← hbehind.bufpos, (processField_frame hu).2.1]
        by_contra hfull
        refine not_processed_of_full ?_ (Nat.lt_of_not_le hfull) ⟨u, hu⟩
        rw [hwithin.bufpos]
        exact hsize
      rw [readChar_of_processed (.inr hc) hu, if_neg (not_not.mpr hc)]
      obtain ⟨hdate, t', ht', hgave⟩ | ⟨hdate, hend⟩ := endLine_cases hs hnum hbehind hok
      · rw [ht']
        exact .inl ⟨.inr hdate, _, rfl, hgave⟩
      · refine .inr ⟨hfits, hdate, ?_⟩
        obtain ⟨hdirty, hundef⟩ | ⟨hclean, t', ht', hcounted⟩ := hend
        · rw [hundef]
          exact .inl ⟨hdirty, rfl⟩
        · rw [ht']
          exact .inr ⟨hclean, _, rfl, hcounted⟩
    · rw [hskip]
      refine .inl ⟨.inl fun hfits => ?_, _, rfl, hwithin.gaveUp hsame⟩
      -- a right field is processed if there is room
      have hfield := ended_fieldsOk hlt hok
      rw [Fits, rooms_pieces hlt, ← hwithin.state] at hfits
      rw [← hwithin.state, ← hwithin.slice] at hfield
      obtain ⟨u, hu⟩ := processField_of_ok hfield fun htext => by
        have hbufpos : t.bufpos = size env text := hwithin.bufpos
        rw [if_pos htext, ← hbufpos] at hfits
        exact hfits
      rw [hv] at hu
      cases hu
  · rw [ht, Option.bind_some, readAll_singleton, stepChar, if_pos hc]
    refine .inl ⟨.inl fun hfits => ?_, _, rfl, hgave.totals, hgave.days, hgave.lines,
      hgave.brokenLines⟩
    rw [Fits, rooms_pieces hlt] at hfits
    omega

/-! ## What a line has, and what it should have -/

/-- The states of a format do not depend on how many of them are required. -/
theorem states_parseStates (cs : Str) (started : Option (Option Field)) (states : List LineState)
    (n m : Nat) : (parseStates cs started states n).map Prod.fst =
      (parseStates cs started states m).map Prod.fst := by
  fun_induction parseStates cs started states n with
  | case1 => rfl
  | case2 c cs states n field hcode ih =>
    rw [parseStates.eq_2 states m c cs field hcode]
    exact ih
  | case3 c cs started states n hnone => rw [parseStates.eq_3 states m c cs started hnone]
  | case4 cs started states n ih => exact ih
  | case5 cs started states n ih => rfl
  | case6 c cs started states n h1 h2 h3 x hsep ih =>
    rw [parseStates, hsep]
    · exact ih
    all_goals assumption
  | case7 c cs started states n h1 h2 h3 hsep =>
    rw [parseStates, hsep]
    all_goals assumption

theorem requiredStates_setup {args : Arguments} (h : args.setup = some env) :
    ∃ r, requiredStates args.logFormat = some r := by
  unfold Arguments.setup parseLogFormat at h
  obtain ⟨p, hparse, -⟩ := Option.map_eq_some_iff.mp h
  split at hparse
  · cases hparse
  · obtain ⟨⟨states, required⟩, hstates, -⟩ := Option.map_eq_some_iff.mp hparse
    have hsame := states_parseStates args.logFormat none [] states.length 0
    rw [hstates] at hsame
    obtain ⟨⟨states', r⟩, hrequired, -⟩ := Option.map_eq_some_iff.mp hsame
    refine ⟨r, ?_⟩
    rw [requiredStates, hstates, Option.bind_some, hrequired]
    rfl

theorem CountedOnce.not_gaveUp (h : CountedOnce env s t text) : ¬GaveUp s t := by
  intro hgave
  have hbroken := hgave.brokenLines
  rw [h.brokenLines] at hbroken
  omega

/-- A line whose fields are right is broken if fields that the format requires or its date are
missing, and else counted once, if and only if its length and the date that is left make it so:
the number of its fields plays no part. -/
theorem judged_iff {args : Arguments} (hsetup : args.setup = some env) (hs : AtStart s)
    (htext : ∀ c ∈ text, charClass c ≠ .crlf)
    (hok : fieldsOk env.states (pieces env text) = true) {c : Char} (hc : charClass c = .crlf)
    (kept : Field → Int) :
    ∃ r, requiredStates args.logFormat = some r ∧
      (Judged kept env r s text c ↔ Decided kept env r s text) := by
  obtain ⟨r, hr⟩ := requiredStates_setup hsetup
  refine ⟨r, hr, ?_⟩
  unfold Judged Decided
  obtain ⟨hbad, st, hst, hgave⟩ | ⟨hfits, hdate, hrest⟩ :=
    line_outcome hs (getLast_setup hsetup) (numStates_setup hsetup) htext hok hc
  · by_cases hlacks : (pieces env text).length < r ∨ lineDate kept env text = 0
    · rw [if_pos hlacks]
      exact ⟨fun _ => hbad, fun _ => ⟨st, hst, fun _ => hgave, fun hnot => absurd hlacks hnot⟩⟩
    · rw [if_neg hlacks]
      refine ⟨fun h => ?_, fun h => absurd hbad (by tauto)⟩
      obtain ⟨st', hst', -, hcounted⟩ := h
      rw [hst] at hst'
      cases hst'
      exact absurd hgave (hcounted hlacks).not_gaveUp
  · obtain ⟨hdirty, hnone⟩ | ⟨hclean, st, hst, hcounted⟩ := hrest
    · rw [hnone]
      refine ⟨fun h => ?_, fun h => ?_⟩
      · obtain ⟨st, hst, -⟩ := h
        cases hst
      · split at h
        · exact absurd h (not_or.mpr ⟨not_not.mpr hfits, hdate⟩)
        · exact absurd h.2.2 hdirty
    · by_cases hlacks : (pieces env text).length < r ∨ lineDate kept env text = 0
      · rw [if_pos hlacks]
        refine ⟨fun h => ?_, fun h => absurd h (not_or.mpr ⟨not_not.mpr hfits, hdate⟩)⟩
        obtain ⟨st', hst', hgave, -⟩ := h
        rw [hst] at hst'
        cases hst'
        exact absurd (hgave hlacks) hcounted.not_gaveUp
      · rw [if_neg hlacks]
        exact ⟨fun _ => ⟨hfits, hdate, hclean⟩,
          fun _ => ⟨st, hst, fun h => absurd h hlacks, fun _ => hcounted⟩⟩

/-- Logs of dates and files. -/
def filesByDate : Arguments where
  logFormat := "%D/%M/%Y %f".toList
  pagexts := []
  notref := none
  start := 0

def filesByDateSetup : Setup where
  states := [⟨some .date, .slash⟩, ⟨some .month, .slash⟩, ⟨some .year, .wspace⟩, ⟨some .url, .crlf⟩]
  numStates := 1
  pagexts := []
  notref := none

def onlyDate : Str := "01/02/2003".toList

theorem judged_onlyDate : ∃ r, requiredStates filesByDate.logFormat = some r ∧
    (Judged (fun _ => 0) filesByDateSetup r (Reader.start wholeNumbers fun _ => '\x00') onlyDate
        '\n' ↔
      Decided (fun _ => 0) filesByDateSetup r (Reader.start wholeNumbers fun _ => '\x00')
        onlyDate) := by
  have hsetup : filesByDate.setup = some filesByDateSetup := rfl
  apply judged_iff hsetup (atStart_start _ _)
  · show ∀ c ∈ onlyDate, charClass c ≠ .crlf
    decide
  · rfl
  · rfl

/-- All four fields are required, and the line without a file is counted. -/
theorem short_line_counted : requiredStates filesByDate.logFormat = some 4 ∧
    fieldsOk filesByDateSetup.states (pieces filesByDateSetup onlyDate) = true ∧
    (pieces filesByDateSetup onlyDate).length = 3 ∧
    (readAll filesByDateSetup (.main, Reader.start wholeNumbers fun _ => '\x00')
        (onlyDate ++ ['\n'])).map
      (fun st => (st.2.lines, st.2.brokenLines, st.2.totals.hitsPerHour 0)) = some (1, 0, 1) ∧
    ¬Judged (fun _ => 0) filesByDateSetup 4 (Reader.start wholeNumbers fun _ => '\x00') onlyDate
      '\n' := by
  have hcounted : (readAll filesByDateSetup (.main, Reader.start wholeNumbers fun _ => '\x00')
      (onlyDate ++ ['\n'])).map
    (fun st => (st.2.lines, st.2.brokenLines, st.2.totals.hitsPerHour 0)) = some (1, 0, 1) := rfl
  have hlength : (pieces filesByDateSetup onlyDate).length = 3 := rfl
  refine ⟨rfl, rfl, hlength, hcounted, ?_⟩
  intro h
  obtain ⟨st, hst, hgave, -⟩ := h
  have hbroken : st.2.brokenLines = 0 + 1 := (hgave (.inl (by omega))).brokenLines
  rw [hst] at hcounted
  cases hbroken.symm.trans (congrArg (fun p => p.2.1) (Option.some.inj hcounted))

end Caudium.UltraLog
