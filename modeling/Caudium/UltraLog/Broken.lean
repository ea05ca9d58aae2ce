import Caudium.UltraLog.Complete

/-!
# Broken lines

A line that is not complete leaves no trace in the summaries if the reader is skipping when it
comes to the LF at the line's end (`Caught`), and if its date is not the last one
(`isolated`). Of the others many are counted: the number of states that are required is that
of a truth value, 1, so a line that ends too early is one with the date of the line before.
-/

namespace Caudium.UltraLog

open Lib (Str)

variable {F : Floats} {env : Setup} {s t : Reader F}

/-! ## Logs -/

/-- A line, and whether a CR stands before its LF. -/
structure Line where
  text : Str
  crlf : Bool
  deriving DecidableEq, Repr

def Line.chars (l : Line) : Str := l.text ++ if l.crlf then ['\r', '\n'] else ['\n']

/-- The content of the log file. -/
def wholeLog (log : List Line) : Str := log.flatMap Line.chars

def Line.complete (env : Setup) (l : Line) : Bool := wellFormed env.states l.text

/-- The log without its broken lines. -/
def completeLines (env : Setup) (log : List Line) : List Line := log.filter (Line.complete env)

/-- The CR of a complete line ends it, and its LF an empty one, in which only the first field is
processed. It is not skipped if this is no month, and no number of bytes. -/
def CleanStart (env : Setup) : Prop :=
  ∀ st ∈ env.states.head?, st.save ≠ some .month ∧ st.save ≠ some .bytes

instance : Decidable (CleanStart env) :=
  inferInstanceAs (Decidable (∀ st ∈ env.states.head?, _))

/-- The line has one end, and the reader, which is at its start, skips when it comes to the
LF. -/
def Caught (env : Setup) (s : Reader F) (l : Line) : Prop :=
  (∀ c ∈ l.text, charClass c ≠ .crlf) ∧
    ∃ t, readAll env (.main, s) (l.text ++ if l.crlf then ['\r'] else []) = some (.skip, t)

/-- The date in `buf_points` is the same after the line. -/
def KeepsDate (env : Setup) (s : Reader F) (l : Line) : Prop :=
  ∀ m t, readAll env (.main, s) l.chars = some (m, t) →
    ∀ f, f.kept = true → t.bufPoints f = s.bufPoints f

/-- The line, which the lines of `rest` come after, has no effect on others. -/
def LineOk (env : Setup) (s : Reader F) (l : Line) (rest : List Line) : Prop :=
  if l.complete env then l.crlf = true → CleanStart env
  else Caught env s l ∧ ((∃ l' ∈ rest, l'.complete env = true) ∨ KeepsDate env s l)

/-- Each line of the log is so, in the state that the reader is in before it. -/
def Isolated (env : Setup) : Reader F → List Line → Prop
  | _, [] => True
  | s, l :: rest => LineOk env s l rest ∧
    ∀ t, readAll env (.main, s) l.chars = some (.main, t) → Isolated env t rest

/-! ## What a field leaves alone -/

/-- The format has the field. -/
def Saved (env : Setup) (f : Field) : Prop := ∃ st ∈ env.states, st.save = some f

/-- The totals, the days and the points of other fields than those of the format are as they
were. -/
structure Quiet (env : Setup) (s t : Reader F) : Prop where
  totals : t.totals = s.totals
  days : t.days = s.days
  points : ∀ f, ¬Saved env f → t.bufPoints f = s.bufPoints f

theorem Quiet.refl (s : Reader F) : Quiet env s s := ⟨rfl, rfl, fun _ _ => rfl⟩

theorem Quiet.trans {u : Reader F} (h : Quiet env s t) (h' : Quiet env t u) : Quiet env s u where
  totals := h'.totals.trans h.totals
  days := h'.days.trans h.days
  points f hf := (h'.points f hf).trans (h.points f hf)

/-- What is so of the reader wherever the step leads. -/
def Step.All (p : Reader F → Prop) : Step F → Prop
  | .next s => p s
  | .skip s => p s
  | .undefined => False

theorem saved_of_state {f : Field} (h : (s.state env).save = some f) : Saved env f := by
  unfold Reader.state at h
  rw [List.getD_eq_getElem?_getD] at h
  cases hst : env.states[s.statePos]? with
  | none =>
    rw [hst] at h
    cases h
  | some st =>
    rw [hst] at h
    exact ⟨st, List.mem_of_getElem? hst, h⟩

theorem quiet_bufset (s : Reader F) (x : Char) : (s.bufset x).All (Quiet env s) := by
  unfold Reader.bufset
  simp only
  split <;> exact ⟨rfl, rfl, fun _ _ => rfl⟩

theorem quiet_setPoint {f : Field} (h : Saved env f) (s : Reader F) (v : Int) :
    Quiet env s (s.setPoint f v) where
  totals := rfl
  days := rfl
  points g hg := Function.update_of_ne (fun e : g = f => hg (e ▸ h)) ..

theorem quiet_store {f : Field} (h : Saved env f) (s : Reader F) (value : Int × Bool) :
    (s.store f value).All (Quiet env s) := by
  unfold Reader.store
  simp only
  split
  · have hset := quiet_setPoint h { s with tmpinteger := value.1 } value.1
    exact ⟨hset.totals, hset.days, hset.points⟩
  · exact ⟨rfl, rfl, fun _ _ => rfl⟩

theorem quiet_text {f : Field} (h : Saved env f) (s : Reader F) :
    Step.All (Quiet env s) (match s.bufset '\x00' with
      | .next s' => .next (s'.setPoint f s.fieldPosition)
      | step => step) := by
  have hbuf : (s.bufset '\x00').All (Quiet env s) := quiet_bufset s '\x00'
  cases hs : s.bufset '\x00' with
  | next s' =>
    rw [hs] at hbuf
    exact hbuf.trans (quiet_setPoint h s' _)
  | skip s' =>
    rw [hs] at hbuf
    exact hbuf
  | undefined =>
    rw [hs] at hbuf
    exact hbuf

theorem quiet_processField (s : Reader F) : (s.processField env).All (Quiet env s) := by
  unfold Reader.processField
  cases hsave : (s.state env).save with
  | none => exact Quiet.refl s
  | some f =>
    have h := saved_of_state hsave
    cases f with
    | addr | refer | agent | method | url | rfc | proto => exact quiet_text h s
    | date | month | year | hour | minute | upSec | code | bytes => exact quiet_store h s _

theorem quiet_broken (s : Reader F) : Quiet env s s.broken := ⟨rfl, rfl, fun _ _ => rfl⟩

theorem endLine_ne_skip (s t : Reader F) : s.endLine env ≠ .skip t := by
  unfold Reader.endLine
  split
  · exact nofun
  · split
    · exact nofun
    · split <;> exact nofun

/-- Where the first loop goes without ending a line. -/
theorem quiet_readChar {c : Char} (hc : charClass c ≠ .crlf ∨ ∃ t, s.readChar env c = .skip t) :
    (s.readChar env c).All (Quiet env s) := by
  have hfield : (s.processField env).All (Quiet env s) := quiet_processField s
  by_cases hend : charClass c = (s.state env).ending ∨ charClass c = .crlf
  · cases hp : s.processField env with
    | next u =>
      rw [hp] at hfield
      rw [readChar_of_processed hend hp] at hc ⊢
      by_cases hcrlf : charClass c = .crlf
      · obtain hne | ⟨t, ht⟩ := hc
        · exact absurd hcrlf hne
        · rw [if_neg (not_not.mpr hcrlf)] at ht
          exact absurd ht (endLine_ne_skip _ t)
      · rw [if_pos hcrlf]
        exact ⟨hfield.totals, hfield.days, hfield.points⟩
    | skip u =>
      rw [hp] at hfield
      unfold Reader.readChar
      simp only
      rw [if_pos hend, hp]
      exact hfield
    | undefined =>
      rw [hp] at hfield
      exact hfield.elim
  · unfold Reader.readChar
    simp only
    rw [if_neg hend]
    exact quiet_bufset s c

/-- A character is quiet if it does not end a line, or if the reader skips after it. -/
theorem quiet_stepChar {m m' : Mode} {c : Char} (h : stepChar env (m, s) c = some (m', t))
    (hc : charClass c ≠ .crlf ∨ m' = .skip) : Quiet env s t := by
  cases m with
  | skip =>
    simp only [stepChar, Option.some.injEq] at h
    split at h
    · next hcrlf =>
      cases h
      exact absurd hcrlf (hc.resolve_right fun hskip => by cases hskip)
    · cases h
      exact Quiet.refl s
  | main =>
    simp only [stepChar] at h
    cases hread : s.readChar env c with
    | next u =>
      rw [hread] at h
      cases h
      have hquiet : (s.readChar env c).All (Quiet env s) :=
        quiet_readChar (.inl (hc.resolve_right fun hskip => by cases hskip))
      rw [hread] at hquiet
      exact hquiet
    | skip u =>
      rw [hread] at h
      cases h
      have hquiet : (s.readChar env c).All (Quiet env s) := quiet_readChar (.inr ⟨u, hread⟩)
      rw [hread] at hquiet
      exact hquiet.trans (quiet_broken u)
    | undefined =>
      rw [hread] at h
      cases h

theorem quiet_readAll {cs : Str} (hcs : ∀ c ∈ cs, charClass c ≠ .crlf) {m m' : Mode}
    (h : readAll env (m, s) cs = some (m', t)) : Quiet env s t := by
  induction cs generalizing m s with
  | nil =>
    cases h
    exact Quiet.refl _
  | cons c cs ih =>
    rw [readAll_cons] at h
    obtain ⟨⟨m₁, u⟩, hstep, hrest⟩ := Option.bind_eq_some_iff.mp h
    exact (quiet_stepChar hstep (.inl (hcs c List.mem_cons_self))).trans
      (ih (fun c' hc' => hcs c' (List.mem_cons_of_mem _ hc')) hrest)

/-! ## Lines -/

/-- A caught line leaves the reader between two lines, with the totals and the points of other
fields than those of the format as they were. -/
theorem Caught.reads {l : Line} (h : Caught env s l) :
    ∃ t, readAll env (.main, s) l.chars = some (.main, t) ∧ AtStart t ∧ t.totals = s.totals ∧
      t.days = s.days ∧ ∀ f, f.kept = true → ¬Saved env f → t.bufPoints f = s.bufPoints f := by
  obtain ⟨htext, u, hu⟩ := h
  have hquiet : Quiet env s u := by
    obtain ⟨⟨m, v⟩, hv, hcr⟩ := Option.bind_eq_some_iff.mp ((readAll_append ..).symm.trans hu)
    have hquiet := quiet_readAll htext hv
    cases hl : l.crlf with
    | false =>
      rw [hl] at hcr
      cases hcr
      exact hquiet
    | true =>
      rw [hl, if_pos rfl, readAll_singleton] at hcr
      exact hquiet.trans (quiet_stepChar hcr (.inr rfl))
  have hchars : l.chars = (l.text ++ if l.crlf then ['\r'] else []) ++ ['\n'] := by
    unfold Line.chars
    cases l.crlf <;> simp
  refine ⟨u.ok, ?_, atStart_ok u, hquiet.totals, hquiet.days, fun f hkept hf => ?_⟩
  · rw [hchars, readAll_append, hu, Option.bind_some, readAll_singleton]
    rfl
  · rw [← hquiet.points f hf]
    exact if_pos hkept

/-- Two readers between lines, whose dates may differ where the format has them. -/
def Alined (env : Setup) (s s' : Reader F) : Prop := Between (fun f => ¬Saved env f) s s'

/-- Two readers do the same with an empty line, if it is not skipped. -/
theorem Between.emptyLine {s s' : Reader F} (h : Between Every s s') (hclean : CleanStart env)
    {c : Char} (hc : charClass c = .crlf) :
    Alike (stepChar env (.main, s) c) (stepChar env (.main, s') c) := by
  have hsave : (s.state env).save ≠ some .month ∧ (s.state env).save ≠ some .bytes := by
    unfold Reader.state
    rw [h.left.statePos, List.getD_eq_getElem?_getD, ← List.head?_eq_getElem?]
    cases hhead : env.states.head? with
    | none => exact ⟨nofun, nofun⟩
    | some st => exact hclean st hhead
  refine h.twin.last hc ?_ ?_ fun _ => .inl trivial
  · rw [h.left.fieldPosition, h.left.bufpos, slice_self]
    cases hs : (s.state env).save with
    | none => trivial
    | some f =>
      rw [hs] at hsave
      cases f with
      | month => exact absurd rfl hsave.1
      | bytes => exact absurd rfl hsave.2
      | date | year | hour | minute | upSec | code => rfl
      | addr | refer | agent | method | url | rfc | proto => trivial
  · rw [h.left.bufpos]
    split <;> decide

/-- Two readers do the same with a complete line, wherever it ends. -/
theorem Between.completeText {s s' : Reader F} (h : Alined env s s')
    (hlast : env.states.getLast?.map LineState.ending = some .crlf) {text : Str}
    (hwf : wellFormed env.states text = true) {c : Char} (hc : charClass c = .crlf) :
    Alike (readAll env (.main, s) (text ++ [c])) (readAll env (.main, s') (text ++ [c])) := by
  unfold wellFormed at hwf
  simp only [Bool.and_eq_true, List.all_eq_true, decide_eq_true_eq, Option.any_eq_true] at hwf
  obtain ⟨htext, fields, hsplit, hok, hroom⟩ := hwf
  refine h.twin.fields ?_ hlast hsplit hok ?_ ?_ htext (fun f => ?_) hc
  · rw [h.left.statePos, List.drop_zero]
  · rw [h.left.fieldPosition, h.left.bufpos]
  · rw [h.left.bufpos]
    exact hroom
  · by_cases hf : Saved env f
    · exact .inr hf
    · exact .inl hf

theorem Alined.completeLine {s s' : Reader F} (h : Alined env s s')
    (hlast : env.states.getLast?.map LineState.ending = some .crlf) {l : Line}
    (hwf : l.complete env = true) (hclean : l.crlf = true → CleanStart env) :
    Alike (readAll env (.main, s) l.chars) (readAll env (.main, s') l.chars) := by
  unfold Line.chars
  cases hl : l.crlf with
  | false => exact Between.completeText h hlast hwf rfl
  | true =>
    rw [if_pos rfl, show l.text ++ ['\r', '\n'] = l.text ++ ['\r'] ++ ['\n'] by simp,
      readAll_append (.main, s) (l.text ++ ['\r']), readAll_append (.main, s') (l.text ++ ['\r'])]
    obtain ⟨hcr, hcr'⟩ | ⟨t, t', hcr, hcr', hb⟩ := (Between.completeText h hlast hwf (c := '\r') rfl).cases
    · rw [hcr, hcr']
      exact .undefined
    · rw [hcr, hcr', Option.bind_some, Option.bind_some, readAll_singleton, readAll_singleton]
      exact hb.emptyLine (hclean hl) rfl

/-! ## The whole log -/

/-- The last state of a format ends with the line. -/
theorem getLast_parseStates {cs : Str} {started : Option (Option Field)} {states states' : List LineState}
    {n n' : Nat} (h : parseStates cs started states n = some (states', n')) :
    states'.getLast?.map LineState.ending = some .crlf := by
  fun_induction parseStates cs started states n with
  | case1 started states n =>
    cases h
    unfold skippState
    rw [List.getLast?_append]
    rfl
  | case2 c cs states n field hcode ih => exact ih h
  | case3 => cases h
  | case4 cs started states n ih => exact ih h
  | case5 cs started states n ih => exact ih h
  | case6 c cs started states n h1 h2 h3 x hsep ih => exact ih h
  | case7 => cases h

theorem getLast_setup {args : Arguments} (h : args.setup = some env) :
    env.states.getLast?.map LineState.ending = some .crlf := by
  unfold Arguments.setup parseLogFormat at h
  obtain ⟨⟨states, n⟩, hparse, rfl⟩ := Option.map_eq_some_iff.mp h
  split at hparse
  · cases hparse
  · obtain ⟨⟨states', n'⟩, hstates, heq⟩ := Option.map_eq_some_iff.mp hparse
    cases heq
    exact getLast_parseStates hstates

/-- The days that are delivered, whole. -/
def finished (env : Setup) (st : Mode × Reader F) : Option (List (Daily F)) :=
  (st.2.cleanup env (fun _ => 0) 0).map Report.days

theorem Between.finished_eq {s s' : Reader F} (h : Between Every s s') (m m' : Mode) :
    finished env (m, s) = finished env (m', s') := by
  have hpoint : ∀ f, f.kept = true → s.bufPoints f = s'.bufPoints f :=
    fun f hf => h.points f hf trivial
  unfold finished Reader.cleanup
  rw [h.totals, h.days, hpoint .year rfl, hpoint .month rfl, hpoint .date rfl, Option.map_map,
    Option.map_map]
  rfl

theorem Between.all {D : Field → Prop} {s s' : Reader F} (h : Between Every s s') : Between D s s' :=
  { h with points := fun f hf _ => h.points f hf trivial }

/-- The two logs, with and without broken lines, are read to the same end, as long as the
dates are the same at the end. -/
theorem finished_log {log : List Line} {s s' : Reader F} (h : Alined env s s')
    (hlast : env.states.getLast?.map LineState.ending = some .crlf) (hlog : Isolated env s log)
    (hdate : (∃ l ∈ log, l.complete env = true) ∨ Between Every s s') :
    (readAll env (.main, s) (wholeLog log)).bind (finished env) =
      (readAll env (.main, s') (wholeLog (completeLines env log))).bind (finished env) := by
  induction log generalizing s s' with
  | nil =>
    have hb : Between Every s s' := hdate.resolve_left fun ⟨l, hl, _⟩ => absurd hl (List.not_mem_nil)
    exact hb.finished_eq .main .main
  | cons l log ih =>
    obtain ⟨hline, hrest⟩ := hlog
    unfold LineOk at hline
    rw [show wholeLog (l :: log) = l.chars ++ wholeLog log from List.flatMap_cons, readAll_append]
    cases hl : l.complete env with
    | true =>
      rw [hl, if_pos rfl] at hline
      rw [show completeLines env (l :: log) = l :: completeLines env log from List.filter_cons_of_pos hl,
        show wholeLog (l :: completeLines env log) = l.chars ++ wholeLog (completeLines env log)
          from List.flatMap_cons, readAll_append]
      obtain ⟨ht, ht'⟩ | ⟨t, t', ht, ht', hb⟩ := (h.completeLine hlast hl hline).cases
      · rw [ht, ht']
        rfl
      · rw [ht, ht']
        exact ih hb.all (hrest t ht) (.inr hb)
    | false =>
      rw [hl, if_neg Bool.false_ne_true] at hline
      obtain ⟨hcaught, hafter⟩ := hline
      rw [show completeLines env (l :: log) = completeLines env log from
        List.filter_cons_of_neg (by rw [hl]; exact Bool.false_ne_true)]
      obtain ⟨t, ht, hstart, htotals, hdays, hpoints⟩ := hcaught.reads
      rw [ht]
      have hb : Alined env t s' :=
        { left := hstart
          right := h.right
          points := fun f hk hf => (hpoints f hk hf).trans (h.points f hk hf)
          totals := htotals.trans h.totals
          days := hdays.trans h.days }
      refine ih hb (hrest t ht) ?_
      obtain hcomplete | hkeeps := hafter
      · exact .inl hcomplete
      · obtain ⟨l', hl', hwf⟩ | hsame := hdate
        · obtain rfl | hl' := List.mem_cons.mp hl'
          · rw [hl] at hwf
            cases hwf
          · exact .inl ⟨l', hl', hwf⟩
        · exact .inr { hb with points := fun f hk _ =>
            (hkeeps .main t ht f hk).trans (hsame.points f hk trivial) }

theorem atStart_start (F : Floats) (junk : Nat → Char) : AtStart (Reader.start F junk) where
  bufpos := rfl
  fieldPosition := rfl
  statePos := rfl
  nul := by
    show Function.update junk 0 '\x00' 0 = _
    rw [Function.update_self]
  points _ _ := rfl

theorem Between.refl (h : AtStart s) : Between Every s s := ⟨h, h, fun _ _ _ => rfl, rfl, rfl⟩

theorem ultraparse_days {junk : Nat → Char} {megabytes : Int → Int} {args : Arguments}
    {content : Str} {blocks : List Str} (hsetup : args.setup = some env)
    (h : ReadAs content blocks) :
    (ultraparse F junk megabytes args blocks).map Report.days =
      if env.numStates < 1 then .error .badFormat
      else match (readAll env (.main, Reader.start F junk) content).bind (finished env) with
        | none => .error .undefined
        | some days => .ok days := by
  rw [ultraparse_eq h.nonempty, h.flatten]
  unfold counted
  simp only [hsetup]
  split
  · rfl
  · cases readAll env (.main, Reader.start F junk) content with
    | none => rfl
    | some st =>
      simp only [Option.bind_some, finished]
      cases st.2.cleanup env (fun _ => 0) 0 <;> rfl

/-- If each line of a log has no effect on others, the same days are delivered for the log as
for its complete lines alone, whatever blocks they are read in. -/
theorem isolated (F : Floats) (junk : Nat → Char) (megabytes : Int → Int) {args : Arguments}
    (hsetup : args.setup = some env) {log : List Line}
    (hlog : Isolated env (Reader.start F junk) log) {blocks blocks' : List Str}
    (hblocks : ReadAs (wholeLog log) blocks)
    (hblocks' : ReadAs (wholeLog (completeLines env log)) blocks') :
    (ultraparse F junk megabytes args blocks).map Report.days =
      (ultraparse F junk megabytes args blocks').map Report.days := by
  have hsame := Between.refl (atStart_start F junk)
  rw [ultraparse_days hsetup hblocks, ultraparse_days hsetup hblocks',
    finished_log hsame.all (getLast_setup hsetup) hlog (.inr hsame)]

/-- Logs of files and dates. -/
def datedFiles : Arguments where
  logFormat := "%f %D/%M/%Y".toList
  pagexts := []
  notref := none
  start := 0

def datedSetup : Setup where
  states := [⟨some .url, .wspace⟩, ⟨some .date, .slash⟩, ⟨some .month, .slash⟩, ⟨some .year, .crlf⟩]
  numStates := 1
  pagexts := []
  notref := none

/-- A line whose day is wrong, and one that is right. -/
def wrongDay : List Line := [⟨"/b x1/02/2003".toList, false⟩, ⟨"/a 01/02/2003".toList, false⟩]

theorem isolated_wrongDay :
    (ultraparse wholeNumbers (fun _ => '\x00') id datedFiles [wholeLog wrongDay]).map Report.days =
      (ultraparse wholeNumbers (fun _ => '\x00') id datedFiles
        [wholeLog (completeLines datedSetup wrongDay)]).map Report.days := by
  have hwrong : LineOk datedSetup (Reader.start wholeNumbers fun _ => '\x00')
      ⟨"/b x1/02/2003".toList, false⟩ [⟨"/a 01/02/2003".toList, false⟩] :=
    ⟨⟨by decide, _, rfl⟩, .inl ⟨_, List.mem_singleton_self _, by decide⟩⟩
  have hlog : Isolated datedSetup (Reader.start wholeNumbers fun _ => '\x00') wrongDay :=
    ⟨hwrong, fun _ _ => ⟨nofun, fun _ _ => trivial⟩⟩
  exact isolated _ _ _ rfl hlog ⟨by decide, List.append_nil _⟩ ⟨by decide, List.append_nil _⟩

/-- A line, and an empty one. -/
def emptyLine : List Line := [⟨"/a 01/02/2003".toList, false⟩, ⟨[], false⟩]

/-- The empty line is counted as one of the same day. -/
theorem empty_line_counted :
    (ultraparse wholeNumbers (fun _ => '\x00') id datedFiles [wholeLog emptyLine]).map Report.days ≠
      (ultraparse wholeNumbers (fun _ => '\x00') id datedFiles
        [wholeLog (completeLines datedSetup emptyLine)]).map Report.days := by
  have hsetup : datedFiles.setup = some datedSetup := rfl
  rw [ultraparse_days hsetup ⟨by decide, List.append_nil _⟩,
    ultraparse_days hsetup ⟨by decide, List.append_nil _⟩]
  intro h
  have hits := congrArg (Except.map fun days => days.map fun d : Daily wholeNumbers => d.hitsPerHour 0) h
  exact absurd hits (by decide)

end Caudium.UltraLog
