import Mathlib.Data.List.Forall2
import Caudium.Entity.Append
import Caudium.Entity.Bounds

/-!
# The cursor and `curpos` (`entparse.c`)

`ent_parser` moves the pointer `tmp` and the count `curpos` one beside the other. They part at an
empty reference: at the ';' of `&;` the cursor has moved and the count has not, which the copying
of a reference makes good; but a reference without a byte and without a replacement looks to
`append_data` like a plain byte, so the byte behind the ';' is copied and the cursor moves again.
From there on the loop, which looks at `curpos`, reads beyond the end of the text.

`Traced` keeps beside the state where the bytes of the reference and of the result come from
(`Traced.sound`).
-/

namespace Caudium.Entity

open Lib (Bytes Visits)

namespace EntState

variable {σ : Type} {buf : Bytes} {cback : Option (EntCallback σ)}

/-- As long as the function runs, the cursor is where `curpos` says. -/
def CursorAgrees (s : EntState σ) : Prop :=
  s.returned = false → ∀ p, s.tmp = some p → p = s.curpos

/-- As long as the function runs, nothing is pending at the test of the loop. -/
def Idle (s : EntState σ) : Prop :=
  s.returned = false → s.cbackbuf = none ∧ s.cbacklen = 0

/-- The turn ends an empty reference that the callback returns no buffer for, and there is room
for a byte. -/
def Slips (buf : Bytes) (cback : Option (EntCallback σ)) (s : EntState σ) : Prop :=
  ∃ p cb, s.tmp = some p ∧ byteAt buf p = semicolon ∧ cback = some cb ∧ s.inEntity = true ∧
    s.entfullname = [] ∧ (cb s.user (entArray s.entname) (entArray s.entparts)).2 = none ∧ s.Room

/-- The positions of the bytes of `entfullname` after a turn that collects. -/
def collected (buf : Bytes) (s : EntState σ) (p : Nat) (full : List Nat) : List Nat :=
  if byteAt buf p = amp then []
  else if byteAt buf p = dot then
    if s.entname = [] then full
    else if s.entparts ≠ [] then full ++ [p]
    else full ++ [p, p + 1]
  else if s.entfullname.length ≥ maxEntsize then full
  else full ++ [p]

theorem ne_amp_of_dot {p : Nat} (hc : byteAt buf p = dot) : byteAt buf p ≠ amp := by
  rw [hc]
  decide

theorem collected_opened {s : EntState σ} {p : Nat} (hc : byteAt buf p = amp) (full : List Nat) :
    s.collected buf p full = [] :=
  if_pos hc

theorem collected_dotted {s : EntState σ} {p : Nat} (hc : byteAt buf p = dot)
    (hname : s.entname ≠ []) (hparts : s.entparts ≠ []) (full : List Nat) :
    s.collected buf p full = full ++ [p] := by
  rw [collected, if_neg (ne_amp_of_dot hc), if_pos hc, if_neg hname, if_pos hparts]

theorem collected_firstDot {s : EntState σ} {p : Nat} (hc : byteAt buf p = dot)
    (hname : s.entname ≠ []) (hparts : s.entparts = []) (full : List Nat) :
    s.collected buf p full = full ++ [p, p + 1] := by
  rw [collected, if_neg (ne_amp_of_dot hc), if_pos hc, if_neg hname,
    if_neg (not_not_intro hparts)]

theorem collected_byte {s : EntState σ} {p : Nat} (hamp : byteAt buf p ≠ amp)
    (hdot : byteAt buf p ≠ dot) (hroom : s.entfullname.length < maxEntsize) (full : List Nat) :
    s.collected buf p full = full ++ [p] := by
  rw [collected, if_neg hamp, if_neg hdot, if_neg (Nat.not_le_of_lt hroom)]

theorem collected_stopped {s : EntState σ} {p : Nat}
    (hfault : byteAt buf p = dot ∧ s.entname = [] ∨
      byteAt buf p ≠ amp ∧ byteAt buf p ≠ dot ∧ maxEntsize ≤ s.entfullname.length)
    (full : List Nat) : s.collected buf p full = full := by
  rcases hfault with ⟨hdot, hname⟩ | ⟨hamp, hdot, hlong⟩
  · rw [collected, if_neg (ne_amp_of_dot hdot), if_pos hdot, if_pos hname]
  · rw [collected, if_neg hamp, if_neg hdot, if_pos hlong]

/-- Where the bytes come from that `append_data` writes: a position in the text, or `none`. -/
def sources (u : EntState σ) (full : List Nat) : List (Option Nat) :=
  match u.cbackbuf with
  | some b => b.map fun _ => none
  | none =>
    if u.cbacklen = 0 then [u.tmp]
    else none :: (full.take u.cbacklen).map some ++ [none]

theorem sources_byte {u : EntState σ} (hbuf : u.cbackbuf = none) (hlen : u.cbacklen = 0)
    (full : List Nat) : u.sources full = [u.tmp] := by
  rw [sources, hbuf]
  exact if_pos hlen

theorem sources_verbatim {u : EntState σ} (hbuf : u.cbackbuf = none) (hlen : u.cbacklen ≠ 0)
    (full : List Nat) :
    u.sources full = none :: (full.take u.cbacklen).map some ++ [none] := by
  rw [sources, hbuf]
  exact if_neg hlen

theorem idle_step {s : EntState σ} (h : s.Idle) (hret : s.returned = false) :
    (s.step buf cback).Idle := by
  cases hp : s.tmp with
  | none =>
    have hsame : s.step buf cback = s := by
      rw [step, hp]
    rw [hsame]
    exact h
  | some p =>
    intro hrun
    cases hu : s.appending buf cback p with
    | some u =>
      rw [step_of_appending hp hu] at hrun ⊢
      by_cases hroom : u.Room
      · obtain ⟨n, happ⟩ := @appendData_of_room σ buf u hroom
        rw [happ]
        exact idle_copyData u
      · rw [appendData_of_not_room hroom] at hrun
        cases hrun
    | none =>
      obtain ⟨-, hbuf, hlen, -, -⟩ := collects_leaves (collects_of_not_appending hp hu)
      rw [hbuf, hlen]
      exact h hret

/-! ## Where the bytes come from -/

end EntState

/-- The state, and for each byte of `entfullname` and of the result the position in the text that
it was read at. -/
structure Traced (σ : Type) where
  state : EntState σ
  full : List Nat
  origins : List (Option Nat)

namespace Traced

open EntState

variable {σ : Type} {buf : Bytes} {cback : Option (EntCallback σ)}

/-- One turn of the loop. -/
def step (buf : Bytes) (cback : Option (EntCallback σ)) (t : Traced σ) : Traced σ :=
  match t.state.tmp with
  | none => t
  | some p =>
    match t.state.appending buf cback p with
    | some u =>
      { state := t.state.step buf cback
        full := t.full
        origins := if u.Room then t.origins ++ u.sources t.full else t.origins }
    | none =>
      { state := t.state.step buf cback
        full := t.state.collected buf p t.full
        origins := t.origins }

def live (buf : Bytes) (t : Traced σ) : Bool := EntState.live buf t.state

def init (buf : Bytes) (user : σ) : Traced σ :=
  { state := EntState.init buf user, full := [], origins := [] }

/-- The turns of the parser are seen in the state. -/
theorem state_step {t : Traced σ} (h : live buf t = true) :
    (t.step buf cback).state = t.state.step buf cback := by
  obtain ⟨-, htmp, -⟩ := (live_iff t.state).mp h
  unfold step
  cases hp : t.state.tmp with
  | none =>
    rw [hp] at htmp
    cases htmp
  | some p =>
    dsimp only
    cases t.state.appending buf cback p with
    | some u => rfl
    | none => rfl

/-- Each of the bytes is the text's byte at its position, where it has one. -/
def ComesFrom (buf : Bytes) (bytes : Bytes) (origins : List (Option Nat)) : Prop :=
  List.Forall₂ (fun b o => ∀ q, o = some q → b = byteAt buf q) bytes origins

/-- The positions are the right ones. -/
structure Sound (buf : Bytes) (t : Traced σ) : Prop where
  idle : t.state.Idle
  full : t.full.map (byteAt buf) = t.state.entfullname
  out : ComesFrom buf t.state.out t.origins

theorem comesFrom_copyData {u : EntState σ} {full : List Nat} {origins : List (Option Nat)}
    (hfull : full.map (byteAt buf) = u.entfullname)
    (hlen : u.cbackbuf = none → u.cbacklen = 0 ∨ u.cbacklen = u.entfullname.length)
    (h : ComesFrom buf u.out origins) :
    ComesFrom buf (u.copyData buf).out (origins ++ u.sources full) := by
  unfold copyData sources
  cases hbuf : u.cbackbuf with
  | some b =>
    refine List.rel_append h ?_
    rw [List.forall₂_map_right_iff, List.forall₂_same]
    intro c _ q hq
    cases hq
  | none =>
    dsimp only
    split
    next hzero =>
      refine List.rel_append h (.cons ?_ .nil)
      intro q hq
      rw [hq]
      rfl
    next hne =>
      have hall := (hlen hbuf).resolve_left hne
      have htake : (entArray u.entfullname).take u.cbacklen = u.entfullname := by
        rw [hall, entArray, List.take_left]
      have htakefull : full.take u.cbacklen = full := by
        refine List.take_of_length_le (Nat.le_of_eq ?_)
        rw [hall, ← hfull, List.length_map]
      dsimp only
      rw [htake, htakefull, List.append_assoc]
      refine List.rel_append h (List.rel_append (.cons ?_ ?_) (.cons ?_ .nil))
      · intro q hq
        cases hq
      · rw [← hfull, List.forall₂_map_left_iff, List.forall₂_map_right_iff, List.forall₂_same]
        intro q _ r hr
        rw [Option.some.inj hr]
      · intro q hq
        cases hq

theorem sound_collect {t : Traced σ} (h : Sound buf t) {p : Nat} {s : EntState σ}
    (hs : Collects buf t.state p s) (hidle : s.Idle) :
    Sound buf { state := s, full := t.state.collected buf p t.full, origins := t.origins } := by
  cases hs with
  | opened hc hs =>
    subst hs
    refine ⟨hidle, ?_, h.out⟩
    rw [collected_opened hc]
    rfl
  | dotted hc hname hparts hs =>
    subst hs
    refine ⟨hidle, ?_, h.out⟩
    rw [collected_dotted hc hname hparts, List.map_append, h.full, List.map_singleton, hc]
  | firstDot hc hname hparts hs =>
    subst hs
    refine ⟨hidle, ?_, h.out⟩
    rw [collected_firstDot hc hname hparts, List.map_append, h.full, List.map_cons,
      List.map_singleton, hc]
  | byte hamp hdot hroom name parts hs =>
    subst hs
    refine ⟨hidle, ?_, h.out⟩
    rw [collected_byte hamp hdot hroom, List.map_append, h.full, List.map_singleton]
  | stopped err _ hs hfault =>
    subst hs
    refine ⟨hidle, ?_, h.out⟩
    rw [collected_stopped hfault, h.full]

/-- What a turn brings to `append_data` of a reference. -/
theorem pending_of_appends {s u : EntState σ} {p : Nat} (h : Appends buf cback s p u)
    (hlen : s.cbacklen = 0) :
    u.entfullname = s.entfullname ∧ u.out = s.out ∧
      (u.cbackbuf = none → u.cbacklen = 0 ∨ u.cbacklen = u.entfullname.length) := by
  cases h with
  | here hu =>
    subst hu
    exact ⟨rfl, rfl, fun _ => Or.inl hlen⟩
  | pair _ hu =>
    subst hu
    exact ⟨rfl, rfl, fun _ => Or.inl hlen⟩
  | closed cb _ _ _ hu =>
    subst hu
    refine ⟨rfl, rfl, fun hnone => Or.inr ?_⟩
    dsimp only at hnone ⊢
    rw [hnone]
    rfl

theorem sound_step {t : Traced σ} (h : Sound buf t) (hlive : live buf t = true) :
    Sound buf (t.step buf cback) := by
  obtain ⟨hret, -, -⟩ := (live_iff t.state).mp hlive
  have hidle := @idle_step σ buf cback _ h.idle hret
  unfold step
  cases hp : t.state.tmp with
  | none => exact h
  | some p =>
    dsimp only
    rcases @step_cases σ buf cback _ p hp with ⟨u, hu, he⟩ | ⟨hu, hcoll⟩
    · obtain ⟨hfull, hout, hpending⟩ :=
        pending_of_appends (appends_of_appending hu) (h.idle hret).2
      rw [hu]
      dsimp only
      by_cases hroom : u.Room
      · obtain ⟨n, happ⟩ := @appendData_of_room σ buf u hroom
        refine ⟨hidle, ?_, ?_⟩
        · show t.full.map (byteAt buf) = (t.state.step buf cback).entfullname
          rw [he, happ, h.full, ← hfull]
          exact (sameBuffers_copyData buf u).full.symm
        · dsimp only
          rw [if_pos hroom, he, happ]
          exact comesFrom_copyData (h.full.trans hfull.symm) hpending (by rw [hout]; exact h.out)
      · have happ := @appendData_of_not_room σ buf u hroom
        refine ⟨hidle, ?_, ?_⟩
        · show t.full.map (byteAt buf) = (t.state.step buf cback).entfullname
          rw [he, happ, h.full, ← hfull]
        · dsimp only
          rw [if_neg hroom, he, happ]
          show ComesFrom buf u.out t.origins
          rw [hout]
          exact h.out
    · rw [hu]
      exact sound_collect h hcoll hidle

/-- **The positions are the right ones** at every test of the loop. -/
theorem sound {user : σ} {t : Traced σ}
    (ht : Lib.Visits (live buf) (step buf cback) (init buf user) t) : Sound buf t :=
  Lib.visits_inv (fun _ hlive h => sound_step h hlive) ht ⟨fun _ => ⟨rfl, rfl⟩, rfl, .nil⟩

/-- What is asked: the cursor agrees, and what was written is inside of the text. -/
structure InText (buf : Bytes) (t : Traced σ) : Prop where
  agrees : t.state.CursorAgrees
  origins : ∀ q, some q ∈ t.origins → q < buf.length

/-- The invariant: what is held of a reference is inside of the text, too, unless the first dot
has taken the byte behind the end. -/
structure Keeps (buf : Bytes) (t : Traced σ) : Prop extends InText buf t where
  idle : t.state.Idle
  held : t.state.returned = false → t.state.curpos ≤ buf.length → ∀ q ∈ t.full, q < buf.length

/-! ## A turn -/

/-- Without room the function returns. -/
theorem keeps_of_returned {t t' : Traced σ} (h : Keeps buf t) (hret : t'.state.returned = true)
    (horigins : t'.origins = t.origins) : Keeps buf t' where
  agrees hrun := by rw [hret] at hrun; cases hrun
  origins := by rw [horigins]; exact h.origins
  idle hrun := by rw [hret] at hrun; cases hrun
  held hrun := by rw [hret] at hrun; cases hrun

/-- A turn that appends what comes from the text, and leaves the cursor where `curpos` is. -/
theorem keeps_of_copied {t : Traced σ} (h : Keeps buf t) (hlive : live buf t = true)
    {u : EntState σ} (htmp : (u.copyData buf).tmp = some (u.curpos + 1))
    (hsrc : ∀ q, some q ∈ u.sources t.full → q < buf.length) (n : Nat) :
    Keeps buf {
      state := { u.copyData buf with retbuflen := n }
      full := t.full
      origins := t.origins ++ u.sources t.full } where
  agrees _ p hp := by
    have hcopy := u.curpos_copyData buf
    have heq : some p = some (u.curpos + 1) := hp.symm.trans htmp
    exact (Option.some.inj heq).trans hcopy.symm
  origins q hq := (List.mem_append.mp hq).elim (h.origins q) (hsrc q)
  idle _ := idle_copyData u
  held _ _ := by
    obtain ⟨hret, -, hlt⟩ := (live_iff t.state).mp hlive
    exact h.held hret (Nat.le_of_lt hlt)

theorem keeps_append {t : Traced σ} (h : Keeps buf t) (hlive : live buf t = true) {p : Nat}
    (hp : t.state.tmp = some p) {u : EntState σ} (hroom : u.Room)
    (hu : Appends buf cback t.state p u) (hslips : ¬Slips buf cback t.state) (n : Nat) :
    Keeps buf {
      state := { u.copyData buf with retbuflen := n }
      full := t.full
      origins := t.origins ++ u.sources t.full } := by
  obtain ⟨hret, -, hlt⟩ := (live_iff t.state).mp hlive
  obtain ⟨hbuf, hlen⟩ := h.idle hret
  have hcur : p = t.state.curpos := h.agrees hret p hp
  cases hu with
  | here hu =>
    subst hu
    refine keeps_of_copied h hlive ?_ ?_ n
    · rw [copyData_byte hbuf hlen hp, hcur]
    · intro q hq
      rw [sources_byte hbuf hlen, hp, List.mem_singleton] at hq
      rw [Option.some.inj hq, hcur]
      exact hlt
  | pair hnext hu =>
    have hin := lt_of_byteAt hnext (by decide)
    subst hu
    refine keeps_of_copied h hlive ?_ ?_ n
    · rw [@copyData_byte σ buf { t.state with tmp := some (p + 1), curpos := t.state.curpos + 1 }
        (p + 1) hbuf hlen rfl, hcur]
    · intro q hq
      have hsrc := @sources_byte σ
        { t.state with tmp := some (p + 1), curpos := t.state.curpos + 1 } hbuf hlen t.full
      rw [hsrc, List.mem_singleton] at hq
      rw [Option.some.inj hq]
      exact hin
  | closed cb hcb hc hin hu =>
    cases hres : (cb t.state.user (entArray t.state.entname) (entArray t.state.entparts)).2 with
    | some b =>
      rw [hres] at hu
      subst hu
      refine keeps_of_copied h hlive ?_ ?_ n
      · rw [hcur]
        rfl
      · intro q hq
        obtain ⟨c, -, hc⟩ := List.mem_map.mp hq
        cases hc
    | none =>
      rw [hres] at hu
      -- An empty reference would be taken for a plain byte: that is the slip.
      have hne : t.state.entfullname.length ≠ 0 := by
        intro hnil
        refine hslips ⟨p, cb, hp, hc, hcb, hin, List.eq_nil_of_length_eq_zero hnil, hres, ?_⟩
        rw [hu] at hroom
        rw [Room, hlen]
        rw [Room] at hroom
        dsimp only [cbackLen] at hroom
        rwa [hnil] at hroom
      subst hu
      refine keeps_of_copied h hlive ?_ ?_ n
      · rw [copyData_verbatim rfl hne, hcur]
      · intro q hq
        rw [sources_verbatim rfl hne, List.cons_append, List.mem_cons, List.mem_append,
          List.mem_singleton] at hq
        rcases hq with he | hmem | he
        · cases he
        · obtain ⟨r, hr, he⟩ := List.mem_map.mp hmem
          rw [← Option.some.inj he]
          exact h.held hret (Nat.le_of_lt hlt) r (List.mem_of_mem_take hr)
        · cases he

theorem keeps_collect {t : Traced σ} (h : Keeps buf t) (hlive : live buf t = true) {p : Nat}
    (hp : t.state.tmp = some p) {s : EntState σ} (hs : Collects buf t.state p s) :
    Keeps buf { state := s, full := t.state.collected buf p t.full, origins := t.origins } := by
  obtain ⟨hret, -, hlt⟩ := (live_iff t.state).mp hlive
  have hcur : p = t.state.curpos := h.agrees hret p hp
  have hheld := h.held hret (Nat.le_of_lt hlt)
  have hidle := h.idle hret
  have hadded : ∀ q ∈ t.full ++ [p], q < buf.length := by
    intro q hq
    rcases List.mem_append.mp hq with hq | hq
    · exact hheld q hq
    · rw [List.mem_singleton.mp hq, hcur]
      exact hlt
  cases hs with
  | opened hc hs =>
    subst hs
    refine ⟨⟨?_, h.origins⟩, fun _ => hidle, ?_⟩
    · intro _ q hq
      rw [← Option.some.inj hq, hcur]
    · intro _ _ q hq
      rw [collected_opened hc] at hq
      cases hq
  | dotted hc hname hparts hs =>
    subst hs
    refine ⟨⟨?_, h.origins⟩, fun _ => hidle, ?_⟩
    · intro _ q hq
      rw [← Option.some.inj hq, hcur]
    · intro _ _ q hq
      rw [collected_dotted hc hname hparts] at hq
      exact hadded q hq
  | firstDot hc hname hparts hs =>
    subst hs
    refine ⟨⟨?_, h.origins⟩, fun _ => hidle, ?_⟩
    · intro _ q hq
      rw [← Option.some.inj hq, hcur]
    -- The byte behind the dot may be the one behind the text; then the loop ends.
    · intro _ hle q hq
      rw [collected_firstDot hc hname hparts, List.mem_append, List.mem_pair] at hq
      have hle' : t.state.curpos + 2 ≤ buf.length := hle
      rcases hq with hq | hq | hq
      · exact hheld q hq
      · omega
      · omega
  | byte hamp hdot hroom name parts hs =>
    subst hs
    refine ⟨⟨?_, h.origins⟩, fun _ => hidle, ?_⟩
    · intro _ q hq
      rw [← Option.some.inj hq, hcur]
    · intro _ _ q hq
      rw [collected_byte hamp hdot hroom] at hq
      exact hadded q hq
  | stopped err _ hs hfault =>
    subst hs
    refine ⟨⟨?_, h.origins⟩, fun _ => hidle, ?_⟩
    · intro _ q hq
      cases hq
    · intro _ _ q hq
      rw [collected_stopped hfault] at hq
      exact hheld q hq

/-- **A turn**: the cursor goes with `curpos`, and what it writes comes from the text. -/
theorem keeps_step {t : Traced σ} (h : Keeps buf t) (hlive : live buf t = true)
    (hslips : ¬Slips buf cback t.state) : Keeps buf (t.step buf cback) := by
  unfold step
  cases hp : t.state.tmp with
  | none => exact h
  | some p =>
    dsimp only
    rcases @step_cases σ buf cback _ p hp with ⟨u, hu, he⟩ | ⟨hu, hcoll⟩
    · rw [hu]
      dsimp only
      by_cases hroom : u.Room
      · obtain ⟨n, happ⟩ := appendData_of_room hroom
        rw [if_pos hroom, he, happ]
        exact keeps_append h hlive hp hroom (appends_of_appending hu) hslips n
      · refine keeps_of_returned h ?_ (if_neg hroom)
        show (t.state.step buf cback).returned = true
        rw [he, appendData_of_not_room hroom]
    · rw [hu]
      exact keeps_collect h hlive hp hcoll

/-! ## The run -/

theorem keeps_init (buf : Bytes) (user : σ) : Keeps buf (init buf user) where
  agrees _ _ hp := (Option.some.inj hp).symm
  origins _ hq := nomatch hq
  idle _ := ⟨rfl, rfl⟩
  held _ _ _ hq := nomatch hq

theorem visits_state {user : σ} {t : Traced σ}
    (ht : Visits (live buf) (step buf cback) (init buf user) t) :
    Visits (EntState.live buf) (EntState.step buf cback) (EntState.init buf user) t.state :=
  ht.map state (fun _ => rfl) (fun _ hlive => state_step hlive)

theorem inText_of_no_slip {user : σ}
    (hno : ∀ s, Visits (EntState.live buf) (EntState.step buf cback) (EntState.init buf user) s →
      EntState.live buf s = true → ¬Slips buf cback s) {t : Traced σ}
    (ht : Visits (live buf) (step buf cback) (init buf user) t) : InText buf t := by
  have hkeeps := Lib.visits_inv_of_visits (P := Keeps buf) ?_ ht (keeps_init buf user)
  · exact hkeeps.toInText
  · intro s hs hlive hkeeps
    exact keeps_step hkeeps hlive (hno s.state (visits_state hs) hlive)

/-- Behind an empty reference without a buffer the cursor is one too far. -/
theorem step_of_slips {s : EntState σ} (hidle : s.Idle) (hret : s.returned = false)
    (hslips : Slips buf cback s) {p : Nat} (hp : s.tmp = some p) :
    (s.step buf cback).returned = false ∧ (s.step buf cback).tmp = some (p + 2) ∧
      (s.step buf cback).curpos = s.curpos + 1 := by
  obtain ⟨p', cb, hp', hc, rfl, hin, hfull, hres, hroom⟩ := hslips
  obtain rfl : p' = p := Option.some.inj (hp'.symm.trans hp)
  obtain ⟨hbuf, hlen⟩ := hidle hret
  -- What the turn has when it comes to `append_data`.
  obtain ⟨u, hu⟩ : ∃ u : EntState σ, u = { s with
      tmp := some (p' + 1), inEntity := false, cbackbuf := none, cbacklen := 0
      user := (cb s.user (entArray s.entname) (entArray s.entparts)).1 } := ⟨_, rfl⟩
  have happending : s.appending buf (some cb) p' = some u := by
    have hamp : byteAt buf p' ≠ amp := by
      rw [hc]
      decide
    rw [appending, if_neg hamp, if_pos hc, hin, hu]
    dsimp only
    rw [hres, hfull]
    rfl
  have huroom : u.Room := by
    rw [hu, Room]
    rw [Room, hlen] at hroom
    exact hroom
  obtain ⟨n, happ⟩ := @appendData_of_room σ buf u huroom
  rw [step_of_appending hp happending, happ, hu, copyData_byte rfl rfl rfl]
  exact ⟨hret, rfl, rfl⟩

theorem idle_of_visits {user : σ} {s : EntState σ}
    (hs : Visits (EntState.live buf) (EntState.step buf cback) (EntState.init buf user) s) :
    s.Idle := by
  refine Lib.visits_inv (P := Idle) ?_ hs fun _ => ⟨rfl, rfl⟩
  intro u hlive hu
  exact idle_step hu ((live_iff u).mp hlive).1

/-- **The cursor and `curpos`**: at every test of the loop the cursor is where `curpos` says, and
every byte that was written comes from inside of the text, exactly when no turn ends an empty
reference without a buffer (and with room for a byte). -/
theorem inText_iff (buf : Bytes) (cback : Option (EntCallback σ)) (user : σ) :
    (∀ t, Visits (live buf) (step buf cback) (init buf user) t → InText buf t) ↔
      ∀ s, Visits (EntState.live buf) (EntState.step buf cback) (EntState.init buf user) s →
        EntState.live buf s = true → ¬Slips buf cback s := by
  refine ⟨fun hall s hs hlive hslips => ?_, fun hno t ht => inText_of_no_slip hno ht⟩
  have hagrees : ∀ u, Visits (EntState.live buf) (EntState.step buf cback)
      (EntState.init buf user) u → u.CursorAgrees := by
    intro u hu
    obtain ⟨t, ht, hvisits⟩ := @Visits.lift _ _ _ _ _ _ state (fun _ => rfl)
      (fun _ h => state_step h) (init buf user) _ hu
    rw [← ht]
    exact (hall t hvisits).agrees
  obtain ⟨hret, htmp, -⟩ := (live_iff s).mp hlive
  obtain ⟨p, hp⟩ := Option.isSome_iff_exists.mp htmp
  obtain ⟨hret', htmp', hcur'⟩ := step_of_slips (idle_of_visits hs) hret hslips hp
  have hnow := hagrees s hs hret p hp
  have hnext := hagrees _ (hs.trans (.later hlive (.here _))) hret' _ htmp'
  omega

/-- "&;x". -/
def emptyReference : Bytes := [amp, semicolon, 120]

theorem emptyReference_reads_on :
    ¬ ∀ (buf : Bytes) (cback : Option (EntCallback Unit)) t,
      Visits (live buf) (step buf cback) (init buf ()) t → InText buf t := by
  intro h
  have hread := (h emptyReference (some fun u _ _ => (u, none)) _
    (.later rfl (.later rfl (.later rfl (.here _))))).origins 3 (by decide)
  exact absurd hread (by decide)

end Traced

end Caudium.Entity
