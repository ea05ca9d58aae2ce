import Caudium.FastCGI.Channel

/-!
# FastCGI (modules/scripting/fastcgi.pike): every answer to its own run

In a run of events that all meet `Careful` the run that has the id is always the one whose
request the application is at, and its streams are registered unless it is aborted
(`Inv`). So every record comes to its own run, or to none if that was aborted.
-/

namespace Caudium.FastCGI

open Lib (Str Mapping runFrom Always EachStep)

variable {s s' : Sys} {r id : Nat}

/-! ## The invariant -/

/-- A run goes on from `x` to `y`: what is aborted or done stays so, and streams are closed
of aborted runs only, but for stdout when that has ended. -/
structure FCGIRun.Later (ended : Bool) (x y : FCGIRun) : Prop where
  aborted : x.aborted = true → y.aborted = true
  isDone : x.isDone = true → y.isDone = true
  closed : y.aborted = true ∨ ∀ id, (y.stream id).closed = true →
    (x.stream id).closed = true ∨ id = fcgiStdout ∧ ended = true
  readCallback : ∀ id, id ≠ fcgiStdout → (y.stream id).readCallback = (x.stream id).readCallback
  closeCallback2 : ∀ id, (y.stream id).closeCallback2 = (x.stream id).closeCallback2

/-- The invariant of the runs that meet `Careful`. -/
structure Inv (s : Sys) : Prop where
  answered : s.Answered
  begun : s.app.begun.length ≤ s.app.served + 1
  served : s.app.served ≤ s.app.begun.length
  /-- The run that has the id is the one whose request is answered. -/
  holder : ∀ h, s.channel.requestIds = some h → s.app.current = some h
  registered : ∀ h, s.channel.requestIds = some h → (s.run h).aborted = true ∨
    s.channel.stream.lookup fcgiStdout = some h ∧ s.channel.stream.lookup fcgiStderr = some h
  /-- Streams are registered for the run that has the id only. -/
  streams : ∀ id r, s.channel.stream.lookup id = some r → s.channel.requestIds = some r
  noEnd : s.channel.stream.lookup fcgiEndRequest = none
  unclosed : ∀ h, s.channel.requestIds = some h → (s.run h).aborted = true ∨
    (((s.run h).stream fcgiStdout).closed = true → s.app.stdoutEnded = true) ∧
      ((s.run h).stream fcgiStderr).closed = false
  /-- If no run has the id while a request is answered, its run has been given up or is done. -/
  finished : ∀ c, s.app.current = some c → s.channel.requestIds = none →
    (s.run c).aborted = true ∨ (s.run c).isDone = true ∧ s.app.stdoutEnded = true
  ended : s.app.current = none → s.app.stdoutEnded = false
  readCallback : ∀ r id, id ≠ fcgiStdout → ((s.run r).stream id).readCallback = false
  closeCallback2 : ∀ r id, ((s.run r).stream id).closeCallback2 = decide (id = fcgiStdout)

namespace FCGIRun

theorem Later.refl (ended : Bool) (x : FCGIRun) : Later ended x x :=
  ⟨fun h => h, fun h => h, Or.inr fun _ h => Or.inl h, fun _ _ => rfl, fun _ => rfl⟩

theorem Later.trans {ended : Bool} {x y z : FCGIRun} (h : Later ended x y)
    (h' : Later ended y z) : Later ended x z where
  aborted hx := h'.aborted (h.aborted hx)
  isDone hx := h'.isDone (h.isDone hx)
  closed := by
    rcases h'.closed with hz | hz
    · exact Or.inl hz
    · rcases h.closed with hy | hy
      · exact Or.inl (h'.aborted hy)
      · exact Or.inr fun id hid => (hz id hid).elim (hy id) Or.inr
  readCallback id hid := (h'.readCallback id hid).trans (h.readCallback id hid)
  closeCallback2 id := (h'.closeCallback2 id).trans (h.closeCallback2 id)

end FCGIRun

/-- The runs go on, and nothing else has changed but the channel. -/
structure Sys.Later (s s' : Sys) : Prop where
  app : s'.app = s.app
  log : s'.log = s.log
  run : ∀ r, FCGIRun.Later s.app.stdoutEnded (s.run r) (s'.run r)

theorem Sys.Later.refl (s : Sys) : s.Later s := ⟨rfl, rfl, fun _ => FCGIRun.Later.refl _ _⟩

theorem Sys.Later.trans {s'' : Sys} (h : s.Later s') (h' : s'.Later s'') : s.Later s'' :=
  ⟨h'.app.trans h.app, h'.log.trans h.log, fun r => (h.run r).trans (h.app ▸ h'.run r)⟩

/-- A change of one run. -/
theorem later_update {x : FCGIRun} (hx : FCGIRun.Later s.app.stdoutEnded (s.run r) x)
    (happ : s'.app = s.app) (hlog : s'.log = s.log)
    (hrun : s'.run = Function.update s.run r x) : s.Later s' := by
  refine ⟨happ, hlog, fun r' => ?_⟩
  rw [hrun]
  by_cases hr : r' = r
  · subst hr
    rwa [Function.update_self]
  · rw [Function.update_of_ne hr]
    exact FCGIRun.Later.refl _ _

/-- The invariant is kept where the runs go on under the same channel. -/
theorem Inv.later (h : Inv s) (hs : s.Later s') (hchannel : s'.channel = s.channel) : Inv s' where
  answered := by
    unfold Sys.Answered
    rw [hs.log]
    exact h.answered
  begun := by rw [hs.app]; exact h.begun
  served := by rw [hs.app]; exact h.served
  holder := by rw [hs.app, hchannel]; exact h.holder
  registered k hk := by
    rw [hchannel] at hk ⊢
    exact (h.registered k hk).imp_left (hs.run k).aborted
  streams := by rw [hchannel]; exact h.streams
  noEnd := by rw [hchannel]; exact h.noEnd
  unclosed k hk := by
    rw [hchannel] at hk
    rw [hs.app]
    rcases (hs.run k).closed with habort | hclosed
    · exact Or.inl habort
    · refine (h.unclosed k hk).imp (hs.run k).aborted fun ⟨hstdout, hstderr⟩ => ⟨fun hc => ?_, ?_⟩
      · exact (hclosed _ hc).elim hstdout And.right
      · refine Bool.eq_false_iff.mpr fun hc => ?_
        rcases hclosed _ hc with hc | ⟨hid, -⟩
        · rw [hstderr] at hc
          cases hc
        · cases hid
  finished c hc hnone := by
    rw [hs.app] at hc ⊢
    rw [hchannel] at hnone
    exact (h.finished c hc hnone).imp (hs.run c).aborted (And.imp_left (hs.run c).isDone)
  ended := by rw [hs.app]; exact h.ended
  readCallback k id hid := by rw [(hs.run k).readCallback id hid]; exact h.readCallback k id hid
  closeCallback2 k id := by rw [(hs.run k).closeCallback2]; exact h.closeCallback2 k id

/-- The invariant is kept where the id is freed, if the run that had it has been given up or
is done. -/
theorem Inv.free (h : Inv s) (hs : s.Later s') (hchannel : s'.channel = s.channel.freeRequestid)
    (hover : ∀ c, s.channel.requestIds = some c →
      (s'.run c).aborted = true ∨ (s'.run c).isDone = true ∧ s.app.stdoutEnded = true) :
    Inv s' where
  answered := by
    unfold Sys.Answered
    rw [hs.log]
    exact h.answered
  begun := by rw [hs.app]; exact h.begun
  served := by rw [hs.app]; exact h.served
  holder k hk := by rw [hchannel] at hk; cases hk
  registered k hk := by rw [hchannel] at hk; cases hk
  streams id k hk := by rw [hchannel] at hk; cases hk
  noEnd := by rw [hchannel]; rfl
  unclosed k hk := by rw [hchannel] at hk; cases hk
  finished c hc _ := by
    rw [hs.app] at hc ⊢
    cases hid : s.channel.requestIds with
    | none => exact (h.finished c hc hid).imp (hs.run c).aborted (And.imp_left (hs.run c).isDone)
    | some k =>
      obtain rfl : k = c := Option.some.inj ((h.holder k hid).symm.trans hc)
      exact hover k hid
  ended := by rw [hs.app]; exact h.ended
  readCallback k id hid := by rw [(hs.run k).readCallback id hid]; exact h.readCallback k id hid
  closeCallback2 k id := by rw [(hs.run k).closeCallback2]; exact h.closeCallback2 k id

/-! ## Runs that are given up -/

theorem later_abort (s : Sys) (r : Nat) : s.Later (s.abort r) := by
  refine later_update (x := { s.run r with aborted := true }) ?_ rfl rfl rfl
  exact ⟨fun _ => rfl, fun h => h, Or.inl rfl, fun _ _ => rfl, fun _ => rfl⟩

theorem aborted_abort (s : Sys) (r : Nat) : ((s.abort r).run r).aborted = true := by
  show (Function.update s.run r _ r).aborted = true
  rw [Function.update_self]

theorem later_done (s : Sys) (r : Nat) : s.Later (s.done r) := by
  refine later_update (x := { s.run r with isDone := true }) ?_ rfl rfl rfl
  exact ⟨fun h => h, fun _ => rfl, Or.inr fun _ h => Or.inl h, fun _ _ => rfl, fun _ => rfl⟩

/-- What a new stream has in common with the old one is as it was in all of them. -/
theorem update_keeps {α : Type} (g : Nat → Stream) (f : Stream → α) {x : Stream}
    (h : f x = f (g id)) (id' : Nat) : f (Function.update g id x id') = f (g id') := by
  by_cases hid : id' = id
  · subst hid
    rw [Function.update_self, h]
  · rw [Function.update_of_ne hid]

theorem isDone_done (s : Sys) (r : Nat) : ((s.done r).run r).isDone = true := by
  show (Function.update s.run r _ r).isDone = true
  rw [Function.update_self]

/-- A new stream with the callbacks of the old one: those of stdout may differ. -/
theorem later_setStream {st : Stream}
    (hclosed : (s.run r).aborted = true ∨ (st.closed = true →
      ((s.run r).stream id).closed = true ∨ id = fcgiStdout ∧ s.app.stdoutEnded = true))
    (hread : id ≠ fcgiStdout → st.readCallback = ((s.run r).stream id).readCallback)
    (hsecond : st.closeCallback2 = ((s.run r).stream id).closeCallback2) :
    s.Later (s.setStream r id st) := by
  refine later_update (x := { s.run r with
    stream := Function.update (s.run r).stream id st }) ?_ rfl rfl rfl
  refine ⟨fun h => h, fun h => h, hclosed.imp_right fun h id' hid' => ?_,
    fun id' hid' => ?_, fun id' => update_keeps _ Stream.closeCallback2 hsecond id'⟩
  · change (Function.update (s.run r).stream id st id').closed = true at hid'
    by_cases hid : id' = id
    · subst hid
      rw [Function.update_self] at hid'
      exact h hid'
    · rw [Function.update_of_ne hid] at hid'
      exact Or.inl hid'
  · by_cases hid : id = fcgiStdout
    · show (Function.update (s.run r).stream id st id').readCallback = _
      rw [Function.update_of_ne (fun h => hid' (h.trans hid))]
    · exact update_keeps _ Stream.readCallback (hread hid) id'

theorem later_closeStream (habort : (s.run r).aborted = true) :
    s.Later (s.setStream r id { (s.run r).stream id with closed := true }) :=
  later_setStream (Or.inl habort) (fun _ => rfl) rfl

/-- `close` of a stream of a run that is given up. -/
theorem later_close (habort : (s.run r).aborted = true) : s.Later (s.close r id) := by
  unfold Sys.close
  dsimp only
  split
  next => exact Sys.Later.refl s
  next =>
    split
    next => exact (later_closeStream habort).trans (later_done _ r)
    next => exact later_closeStream habort

/-- A `close` keeps the channel as it is, or frees the id. -/
theorem channel_close (s : Sys) (r id : Nat) : (s.close r id).channel = s.channel ∨
    (s.close r id).channel = s.channel.freeRequestid ∧
      ((s.run r).stream id).closed = false ∧ ((s.run r).stream id).closeCallback2 = true := by
  unfold Sys.close
  dsimp only
  split
  next => exact Or.inl rfl
  next hclosed =>
    split
    next hsecond => exact Or.inr ⟨rfl, Bool.eq_false_iff.mpr hclosed, hsecond⟩
    next => exact Or.inl rfl

/-- `close` of stdout of a run that is given up. -/
theorem Inv.close (h : Inv s) (habort : (s.run r).aborted = true)
    (hcareful : ((s.run r).stream id).closed = true ∨ s.Alone r) : Inv (s.close r id) := by
  have hlater : s.Later (s.close r id) := later_close habort
  rcases channel_close s r id with hchannel | ⟨hchannel, hopen, -⟩
  · exact h.later hlater hchannel
  · refine h.free hlater hchannel fun c hc => Or.inl ((hlater.run c).aborted ?_)
    rcases hcareful with hclosed | halone
    · rw [hclosed] at hopen
      cases hopen
    · rcases halone c hc with rfl | haborted
      · exact habort
      · exact haborted

/-- `close` of another stream. -/
theorem Inv.close_other (h : Inv s) (habort : (s.run r).aborted = true) (hid : id ≠ fcgiStdout) :
    Inv (s.close r id) := by
  rcases channel_close s r id with hchannel | ⟨-, -, hsecond⟩
  · exact h.later (later_close habort) hchannel
  · rw [h.closeCallback2, decide_eq_false hid] at hsecond
    cases hsecond

theorem alone_abort (h : s.Alone r) : (s.abort r).Alone r := fun k hk =>
  (h k hk).imp_right ((later_abort s r).run k).aborted

theorem closed_abort (s : Sys) (r id : Nat) :
    (((s.abort r).run r).stream id) = (s.run r).stream id := by
  show (Function.update s.run r _ r).stream id = _
  rw [Function.update_self]

theorem Inv.kill (h : Inv s) (hcareful : (s.run r).created = true →
    ((s.run r).stream fcgiStdout).closed = true ∨ s.Alone r) : Inv (s.kill r) := by
  have habort := aborted_abort s r
  have hinv : Inv (s.abort r) := h.later (later_abort s r) rfl
  have hcreated : ((s.abort r).run r).created = (s.run r).created := by
    show (Function.update s.run r _ r).created = _
    rw [Function.update_self]
  have hstreams : Inv (if ((s.abort r).run r).created then
      (((s.abort r).close r fcgiStdout).close r fcgiStderr).close r fcgiStdin
      else s.abort r) := by
    split
    next hmade =>
      have hstdout : Inv ((s.abort r).close r fcgiStdout) := by
        refine hinv.close habort ?_
        rw [closed_abort]
        exact (hcareful (hcreated ▸ hmade)).imp_right alone_abort
      have hlater : (s.abort r).Later ((s.abort r).close r fcgiStdout) := later_close habort
      have habort' := (hlater.run r).aborted habort
      have hstderr : Inv (((s.abort r).close r fcgiStdout).close r fcgiStderr) :=
        hstdout.close_other habort' (by decide)
      have hlater' : ((s.abort r).close r fcgiStdout).Later
          (((s.abort r).close r fcgiStdout).close r fcgiStderr) := later_close habort'
      have habort'' := (hlater'.run r).aborted habort'
      exact hstderr.close_other habort'' (by decide)
    next => exact hinv
  refine hstreams.later (later_update (r := r) ?_ rfl rfl rfl) rfl
  exact ⟨fun h => h, fun _ => rfl, Or.inr fun _ h => Or.inl h, fun _ _ => rfl, fun _ => rfl⟩

/-- `destroy` of a run that has not the id, while none that is not aborted has. -/
theorem Inv.destroy (h : Inv s) (hid : s.channel.requestIds ≠ some r) (halone : s.Alone r) :
    Inv (s.destroy r) := by
  have hlater : s.Later (s.destroy r) := by
    refine later_update (x := { s.run r with destroyed := true }) ?_ rfl rfl rfl
    exact ⟨fun h => h, fun h => h, Or.inr fun _ h => Or.inl h, fun _ _ => rfl, fun _ => rfl⟩
  have hids : (s.destroy r).channel.requestIds = s.channel.requestIds := rfl
  have hfewer : ∀ id k, (s.destroy r).channel.stream.lookup id = some k →
      s.channel.stream.lookup id = some k := by
    intro id k hk
    change ((((s.channel.stream.erase fcgiStdin).erase fcgiStdout).erase fcgiStderr).erase
      fcgiParams).lookup id = some k at hk
    simp only [Lib.Mapping.lookup_erase_ite, Option.ite_none_left_eq_some] at hk
    exact hk.2.2.2.2
  -- the streams go on under a channel from which only an aborted run misses its streams
  have hsame : Inv { s.destroy r with channel := s.channel } :=
    h.later ⟨hlater.app, hlater.log, hlater.run⟩ rfl
  exact { hsame with
    registered := fun k hk => Or.inl <| by
      rcases halone k hk with rfl | haborted
      · exact absurd hk hid
      · exact (hlater.run k).aborted haborted
    streams := fun id k hk => h.streams id k (hfewer id k hk)
    noEnd := by
      cases hend : (s.destroy r).channel.stream.lookup fcgiEndRequest with
      | none => rfl
      | some k =>
        have hk := hfewer _ k hend
        rw [h.noEnd] at hk
        cases hk }

/-! ## A new run -/

/-- The four streams that are registered are those of the run. -/
theorem eq_of_registered {id k : Nat} (h : ((((∅ : Mapping Nat Nat).insert fcgiStdin r).insert
    fcgiStdout r).insert fcgiStderr r |>.insert fcgiParams r).lookup id = some k) : r = k := by
  simp only [Lib.Mapping.lookup_insert_ite] at h
  split at h
  · exact Option.some.inj h
  · split at h
    · exact Option.some.inj h
    · split at h
      · exact Option.some.inj h
      · split at h
        · exact Option.some.inj h
        · cases h

/-- The callbacks of new streams are set as in all others. -/
theorem Inv.readCallback_create (h : Inv s) (r k id : Nat) (hne : id ≠ fcgiStdout) :
    ((Function.update s.run r (s.run r).withStreams k).stream id).readCallback = false := by
  by_cases hk : k = r
  · subst hk
    rw [Function.update_self]
    rfl
  · rw [Function.update_of_ne hk]
    exact h.readCallback k id hne

theorem Inv.closeCallback2_create (h : Inv s) (r k id : Nat) :
    ((Function.update s.run r (s.run r).withStreams k).stream id).closeCallback2 =
      decide (id = fcgiStdout) := by
  by_cases hk : k = r
  · subst hk
    rw [Function.update_self]
    rfl
  · rw [Function.update_of_ne hk]
    exact h.closeCallback2 k id

/-- A run gets the id when all requests before it have been ended. -/
theorem Inv.create (h : Inv s)
    (hserved : s.channel.requestIds = none → s.app.served = s.app.begun.length) :
    Inv (s.create r) := by
  unfold Sys.create FCGIChannel.getRequestid
  cases hid : s.channel.requestIds with
  | some k => exact h
  | none =>
    have hall := hserved hid
    have hcurrent : (s.app.begun ++ [r])[s.app.served]? = some r := by
      rw [hall, List.getElem?_concat_length]
    have hopen : ∀ id,
        ((Function.update s.run r (s.run r).withStreams r).stream id).closed = false := by
      intro id
      rw [Function.update_self]
      rfl
    refine ⟨h.answered, ?begun, ?served, ?holder, ?registered, ?streams, rfl, ?unclosed, ?finished,
      ?ended, h.readCallback_create r, h.closeCallback2_create r⟩
    case begun =>
      show (s.app.begun ++ [r]).length ≤ s.app.served + 1
      rw [List.length_append, hall]
      exact Nat.le_refl _
    case served =>
      show s.app.served ≤ (s.app.begun ++ [r]).length
      rw [List.length_append, hall]
      exact Nat.le_add_right ..
    case holder =>
      intro k hk
      obtain rfl : r = k := Option.some.inj hk
      exact hcurrent
    case registered =>
      intro k hk
      obtain rfl : r = k := Option.some.inj hk
      exact Or.inr ⟨rfl, rfl⟩
    case streams =>
      intro id k hk
      obtain rfl := eq_of_registered hk
      rfl
    case unclosed =>
      intro k hk
      obtain rfl : r = k := Option.some.inj hk
      refine Or.inr ⟨fun hc => ?_, hopen _⟩
      rw [hopen] at hc
      cases hc
    case finished =>
      intro c _ hnone
      cases hnone
    case ended =>
      intro hnone
      cases hcurrent.symm.trans hnone

/-! ## A record -/

/-- The application sends a record of the request it is at. -/
theorem Inv.sent (h : Inv s) {owner type : Nat} {d : Str} {dl : Delivery}
    (hcurrent : s.app.current = some owner) (htype : type ≠ fcgiEndRequest) (hright : dl.Right) :
    Inv { s with app := s.app.send type d, log := s.log ++ [dl] } := by
  have happ : (s.app.send type d).begun = s.app.begun ∧
      (s.app.send type d).served = s.app.served ∧
      (s.app.stdoutEnded = true → (s.app.send type d).stdoutEnded = true) := by
    unfold Application.send
    rw [if_neg htype]
    split
    · exact ⟨rfl, rfl, fun _ => rfl⟩
    · exact ⟨rfl, rfl, fun h => h⟩
  obtain ⟨hbegun, hserved, hended⟩ := happ
  have hsame : (s.app.send type d).current = s.app.current := by
    rw [Application.current, hbegun, hserved]
    rfl
  refine ⟨?answered, ?begun, ?served, ?holder, h.registered, h.streams, h.noEnd, ?unclosed,
    ?finished, ?ended, h.readCallback, h.closeCallback2⟩
  case answered =>
    intro dl' hdl
    rcases List.mem_append.mp hdl with hdl | hdl
    · exact h.answered dl' hdl
    · rw [List.mem_singleton.mp hdl]
      exact hright
  case begun =>
    rw [hbegun, hserved]
    exact h.begun
  case served =>
    rw [hbegun, hserved]
    exact h.served
  case holder =>
    intro k hk
    rw [hsame]
    exact h.holder k hk
  case unclosed =>
    intro k hk
    exact (h.unclosed k hk).imp_right (And.imp_left fun hstdout hc => hended (hstdout hc))
  case finished =>
    intro c hc hnone
    rw [hsame] at hc
    exact (h.finished c hc hnone).imp_right (And.imp_right hended)
  case ended =>
    intro hnone
    rw [hsame, hcurrent] at hnone
    cases hnone

/-- A stream keeps its callbacks, and is closed at the end of its data only, if it has one. -/
theorem gotData_stream (st : Stream) (d : Str) :
    (st.gotData d).1.readCallback = st.readCallback ∧
      (st.gotData d).1.closeCallback2 = st.closeCallback2 ∧
      ((st.gotData d).1.closed = true → st.closed = true ∨
        d = [] ∧ (st.readCallback = true ∨ st.closeCallback2 = true)) ∧
      ((st.gotData d).2 = true → d = [] ∧ st.closeCallback2 = true) := by
  unfold Stream.gotData
  split
  next hc => exact ⟨rfl, rfl, fun _ => Or.inl hc, fun h => by cases h⟩
  next hc =>
    dsimp only
    split
    next hr =>
      split
      next hd => exact ⟨rfl, rfl, fun _ => Or.inr ⟨hd, Or.inl hr⟩, fun h => by cases h⟩
      next => exact ⟨rfl, rfl, fun h => absurd h hc, fun h => by cases h⟩
    next =>
      split
      next hd => exact ⟨rfl, rfl, fun _ => Or.inr ⟨hd.1, Or.inr hd.2⟩, fun _ => hd⟩
      next => exact ⟨rfl, rfl, fun h => absurd h hc, fun h => by cases h⟩

/-- A record of stdout or stderr is handed on. -/
theorem Inv.gotData (h : Inv s) {type : Nat} {d : Str} (htype : type ≠ fcgiEndRequest)
    (hend : d = [] → type = fcgiStdout → s.app.stdoutEnded = true) :
    Inv (s.gotData type d).2 := by
  unfold Sys.gotData
  cases hlookup : s.channel.stream.lookup type with
  | none =>
    cases hid : s.channel.requestIds with
    | none => exact h
    | some k =>
      dsimp only
      rw [if_neg htype]
      exact h
  | some k =>
    have hid := h.streams type k hlookup
    obtain ⟨hread, hsecond, hclosed, hcall⟩ := gotData_stream ((s.run k).stream type) d
    have hstdout : ∀ {b : Bool}, b = decide (type = fcgiStdout) → b = true →
        type = fcgiStdout := by
      intro b hb hb'
      rw [hb'] at hb
      exact of_decide_eq_true hb.symm
    have hlater : s.Later (s.setStream k type (((s.run k).stream type).gotData d).1) := by
      refine later_setStream (Or.inr fun hc => ?_) (fun _ => hread) hsecond
      rcases hclosed hc with hc | ⟨hd, hcallback⟩
      · exact Or.inl hc
      · have ht : type = fcgiStdout := by
          by_contra hne
          rw [h.readCallback k type hne, h.closeCallback2 k type, decide_eq_false hne] at hcallback
          rcases hcallback with hcallback | hcallback <;> cases hcallback
        exact Or.inr ⟨ht, hend hd ht⟩
    dsimp only
    split
    next hres =>
      -- the end of stdout, for a run without a read callback
      obtain ⟨hd, hsec⟩ := hcall hres
      have ht := hstdout (h.closeCallback2 k type) hsec
      refine h.free (hlater.trans (later_done _ k)) rfl fun c hc => Or.inr ⟨?_, hend hd ht⟩
      obtain rfl : k = c := Option.some.inj (hid.symm.trans hc)
      exact isDone_done _ k
    next => exact h.later hlater rfl

/-- Where a record goes. -/
theorem right_gotData (h : Inv s) {owner type : Nat} {d : Str}
    (hcurrent : s.app.current = some owner) (hsend : s.app.MaySend type)
    (hcareful : Careful s (.arrive type d)) : Delivery.Right ⟨owner, type, (s.gotData type d).1,
      (s.run owner).aborted, (s.run owner).isDone⟩ := by
  unfold Sys.gotData
  cases hid : s.channel.requestIds with
  | none =>
    have hlookup : s.channel.stream.lookup type = none := by
      cases hlookup : s.channel.stream.lookup type with
      | none => rfl
      | some k =>
        have hk := h.streams type k hlookup
        rw [hid] at hk
        cases hk
    rw [hlookup]
    refine ⟨nofun, fun _ => ?_⟩
    show (s.run owner).aborted = true ∨ type = fcgiEndRequest ∧ (s.run owner).isDone = true
    rcases h.finished owner hcurrent hid with haborted | ⟨hdone, hended⟩
    · exact Or.inl haborted
    · rcases hsend with ⟨-, hopen⟩ | hstderr | hreq
      · rw [hended] at hopen
        cases hopen
      · exact Or.inl (hcareful hstderr owner hcurrent hdone)
      · exact Or.inr ⟨hreq, hdone⟩
  | some k =>
    obtain rfl : k = owner := Option.some.inj ((h.holder k hid).symm.trans hcurrent)
    cases hlookup : s.channel.stream.lookup type with
    | none =>
      dsimp only
      split
      next hreq => exact ⟨fun r hr => (Option.some.inj hr).symm, nofun⟩
      next hreq =>
        refine ⟨nofun, fun _ => Or.inl ?_⟩
        rcases h.registered k hid with haborted | ⟨hstdout, hstderr⟩
        · exact haborted
        · rcases hsend with ⟨rfl, -⟩ | rfl | hreq'
          · rw [hstdout] at hlookup
            cases hlookup
          · rw [hstderr] at hlookup
            cases hlookup
          · exact absurd hreq' hreq
    | some k' =>
      obtain rfl : k' = k := Option.some.inj ((h.streams type k' hlookup).symm.trans hid)
      dsimp only
      split
      next hclosed =>
        refine ⟨nofun, fun _ => Or.inl ?_⟩
        rcases h.unclosed k' hid with haborted | ⟨hstdout, hstderr⟩
        · exact haborted
        · rcases hsend with ⟨rfl, hopen⟩ | rfl | rfl
          · rw [hstdout hclosed] at hopen
            cases hopen
          · rw [hstderr] at hclosed
            cases hclosed
          · rw [h.noEnd] at hlookup
            cases hlookup
      next => exact ⟨fun r hr => (Option.some.inj hr).symm, nofun⟩

/-- END_REQUEST. -/
theorem Inv.endRequest (h : Inv s) {owner : Nat} {d : Str} {dl : Delivery}
    (hcurrent : s.app.current = some owner) (hright : dl.Right) :
    Inv { (s.gotData fcgiEndRequest d).2 with
      app := s.app.send fcgiEndRequest d, log := s.log ++ [dl] } := by
  obtain ⟨hlt, -⟩ := List.getElem?_eq_some_iff.mp hcurrent
  have hbegun := h.begun
  have hfree : (s.gotData fcgiEndRequest d).2.channel.requestIds = none ∧
      (s.gotData fcgiEndRequest d).2.channel.stream.lookup fcgiEndRequest = none ∧
      (∀ id k, (s.gotData fcgiEndRequest d).2.channel.stream.lookup id = some k → False) ∧
      s.Later (s.gotData fcgiEndRequest d).2 := by
    unfold Sys.gotData
    rw [h.noEnd]
    cases hid : s.channel.requestIds with
    | none =>
      refine ⟨hid, h.noEnd, fun id k hk => ?_, Sys.Later.refl s⟩
      have hk := h.streams id k hk
      rw [hid] at hk
      cases hk
    | some k => exact ⟨rfl, rfl, nofun, later_done s k⟩
  obtain ⟨hnone, hnoEnd, hempty, hlater⟩ := hfree
  refine ⟨?answered, Nat.le_succ_of_le hbegun, hlt, ?holder, ?registered,
    fun id k hk => (hempty id k hk).elim, hnoEnd, ?unclosed, ?finished, fun _ => rfl, ?readCallback,
    ?closeCallback2⟩
  case answered =>
    intro dl' hdl
    rcases List.mem_append.mp hdl with hdl | hdl
    · exact h.answered dl' hdl
    · rw [List.mem_singleton.mp hdl]
      exact hright
  case holder =>
    intro k hk
    rw [hnone] at hk
    cases hk
  case registered =>
    intro k hk
    rw [hnone] at hk
    cases hk
  case unclosed =>
    intro k hk
    rw [hnone] at hk
    cases hk
  case finished =>
    intro c hc _
    obtain ⟨hlt', -⟩ := List.getElem?_eq_some_iff.mp hc
    change s.app.served + 1 < s.app.begun.length at hlt'
    omega
  case readCallback =>
    intro k id hid
    rw [(hlater.run k).readCallback id hid]
    exact h.readCallback k id hid
  case closeCallback2 =>
    intro k id
    rw [(hlater.run k).closeCallback2]
    exact h.closeCallback2 k id

/-- What `got_data` does has nothing to do with the application and the log. -/
theorem gotData_with (s : Sys) (a : Application) (l : List Delivery) (type : Nat) (d : Str) :
    ({ s with app := a, log := l } : Sys).gotData type d =
      ((s.gotData type d).1, { (s.gotData type d).2 with app := a, log := l }) := by
  unfold Sys.gotData
  dsimp only
  cases s.channel.stream.lookup type with
  | some k =>
    dsimp only
    cases (((s.run k).stream type).gotData d).2 with
    | true => rfl
    | false => rfl
  | none =>
    cases s.channel.requestIds with
    | some k =>
      dsimp only
      split <;> rfl
    | none => rfl

/-! ## Runs -/

theorem Inv.init : Inv Sys.init where
  answered _ h := absurd h List.not_mem_nil
  begun := Nat.zero_le _
  served := Nat.le_refl _
  holder := nofun
  registered := nofun
  streams := nofun
  noEnd := rfl
  unclosed := nofun
  finished := nofun
  ended _ := rfl
  readCallback _ _ _ := rfl
  closeCallback2 _ _ := rfl

/-- A record arrives. -/
theorem Inv.arrive (h : Inv s) {type : Nat} {d : Str} (hcareful : Careful s (.arrive type d))
    (hstep : s.step (.arrive type d) = some s') : Inv s' := by
  unfold Sys.step at hstep
  dsimp only at hstep
  split at hstep
  next owner hcurrent =>
    split at hstep
    next hsend =>
      cases hstep
      have hright := right_gotData h hcurrent hsend hcareful
      by_cases htype : type = fcgiEndRequest
      · subst htype
        exact h.endRequest hcurrent hright
      · -- sent first, and then handed on
        have hsent := h.sent (d := d) hcurrent htype hright
        have hgot := hsent.gotData (d := d) htype fun hd ht => by
          show (s.app.send type d).stdoutEnded = true
          rw [Application.send, if_neg htype, if_pos ⟨ht, hd⟩]
        rwa [gotData_with] at hgot
    next => cases hstep
  next => cases hstep

/-- One event. -/
theorem Inv.step {e : Event} (h : Inv s) (hcareful : Careful s e) (hstep : s.step e = some s') :
    Inv s' := by
  cases e with
  | start =>
    cases hstep
    have hcounted : Inv { s with count := s.count + 1 } :=
      h.later ⟨rfl, rfl, (Sys.Later.refl s).run⟩ rfl
    exact hcounted.create hcareful
  | retry r =>
    obtain ⟨-, heq⟩ := Option.ite_none_right_eq_some.mp hstep
    obtain rfl := Option.some.inj heq
    exact h.create hcareful
  | setReadCallback r f =>
    obtain ⟨-, heq⟩ := Option.ite_none_right_eq_some.mp hstep
    obtain rfl := Option.some.inj heq
    refine h.later (later_setStream (Or.inr fun hc => Or.inl ?_) (fun hid => absurd rfl hid) ?_) rfl
    · cases f with
      | true => exact hc
      | false => exact hc
    · cases f with
      | true => rfl
      | false => rfl
  | close r =>
    obtain ⟨-, heq⟩ := Option.ite_none_right_eq_some.mp hstep
    split at heq
    next =>
      obtain rfl := Option.some.inj heq
      exact h
    next hopen =>
      obtain rfl := Option.some.inj heq
      refine (h.later (later_abort s r) rfl).close (aborted_abort s r) (Or.inr (alone_abort ?_))
      exact hcareful.resolve_left hopen
  | kill r =>
    obtain ⟨-, heq⟩ := Option.ite_none_right_eq_some.mp hstep
    obtain rfl := Option.some.inj heq
    exact h.kill hcareful
  | destroy r =>
    obtain ⟨⟨-, -, hid, -⟩, heq⟩ := Option.ite_none_right_eq_some.mp hstep
    obtain rfl := Option.some.inj heq
    exact h.destroy hid hcareful
  | arrive type d => exact h.arrive hcareful hstep

/-- **Answers.** In every interleaving whose events all meet `Careful` every record comes to the
run whose request it answers, or to none if that run has been given up. -/
theorem careful_answered {es : List Event} (h : EachStep Sys.step Careful Sys.init es) :
    Always Sys.step Sys.Answered Sys.init es :=
  Lib.Always.mono (fun _ hs => hs.answered) es _
    (Lib.always_of_step (fun _ _ _ hs hc hstep => hs.step hc hstep) es _ Inv.init h)

/-- A run that is answered and ended, and the next one on the channel. -/
theorem careful_answered_twice : Always Sys.step Sys.Answered Sys.init
    [.start, .arrive fcgiEndRequest [], .start] := by
  refine careful_answered ⟨fun _ => rfl, fun s hs => ?_⟩
  cases hs
  refine ⟨fun hreq => absurd hreq (by decide), fun s hs => ?_⟩
  cases hs
  exact ⟨fun _ => rfl, fun s _ => trivial⟩

/-- The client gives a run up, the next one starts, and gets the rest of the old page. -/
theorem aborted_page_mixed : ¬ ∀ es : List Event,
    Always Sys.step Sys.Answered Sys.init es := by
  intro h
  have hvisited := (Lib.always_iff_visited _ _).mp (h [.start, .close 0, .start,
    .arrive fcgiStdout "secret".toList]) _ [] _ (List.append_nil _).symm rfl
  have hwrong := hvisited ⟨0, fcgiStdout, some 1, true, true⟩ (by decide)
  exact absurd (hwrong.1 1 rfl) (by decide)

end Caudium.FastCGI
