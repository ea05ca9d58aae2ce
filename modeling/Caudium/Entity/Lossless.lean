import Caudium.Entity.Bounds
import Caudium.Entity.Lossy

/-!
# Which texts the entity parser keeps (`entparse.c`, `caudium.c`)

As long as the view is `Whole`, all of the text is written, held, or ahead, and it is known what
has to be ahead for the text to be kept. A turn leads from a whole view to a whole one, or the text
is not kept and the view is lossy (`Whole.turn`). So the texts that are kept are all that come out
whole (`losesNothing_iff`).
-/

namespace Caudium.Entity

open Lib (Bytes Visits)

namespace EntState

variable {buf : Bytes}

/-! ## Views from which it still can -/

/-- What is held is the beginning of a reference. -/
structure HeldWf (buf : Bytes) (p : Nat) (h : Held) : Prop where
  named : h.name = [] ↔ h.full = []
  first : h.full.head? ≠ some amp
  next : h.full = [] → byteAt buf p ≠ amp
  start : h.full = [] → h.parts = []
  short : h.parts = [] → h.full.length ≤ maxEntsize
  fits : h.full.length ≤ maxEntsize + 1

/-- What is ahead goes on with what is held, and is kept. -/
def Ahead (buf : Bytes) (v : View) : Prop :=
  match v.held with
  | none => Kept (buf.drop v.tmp)
  | some h =>
    if h.parts = [] then NameAhead h.full.length (buf.drop v.tmp)
    else PartsAhead h.full.length (buf.drop v.tmp)

/-- All of the text is written, held, or ahead. -/
structure Whole (buf : Bytes) (v : View) : Prop where
  aligned : v.tmp = v.curpos
  account : collapse buf = v.out ++ (heldText v.held ++ collapse (buf.drop v.tmp))
  ahead : Ahead buf v ↔ Kept buf
  held : ∀ h, v.held = some h → HeldWf buf v.tmp h

/-- There is room for a dot that is next. -/
def DotRoom (buf : Bytes) (v : View) : Prop :=
  ∀ h, v.held = some h → byteAt buf v.tmp = dot → h.name ≠ [] →
    h.full.length + (if h.parts = [] then 2 else 1) ≤ maxEntsize + 1

/-- What becomes of a whole view. -/
def Outcome (buf : Bytes) (v : View) : Option View → Prop
  | none => ¬Kept buf ∧ v.out ≠ collapse buf
  | some v' => Whole buf v' ∨ ¬Kept buf ∧ Lossy buf v'

theorem ahead_none {v : View} (h : v.held = none) : Ahead buf v = Kept (buf.drop v.tmp) := by
  rw [Ahead, h]

theorem ahead_name {v : View} {held : Held} (h : v.held = some held) (hparts : held.parts = []) :
    Ahead buf v = NameAhead held.full.length (buf.drop v.tmp) := by
  rw [Ahead, h]
  exact if_pos hparts

theorem ahead_parts {v : View} {held : Held} (h : v.held = some held) (hparts : held.parts ≠ []) :
    Ahead buf v = PartsAhead held.full.length (buf.drop v.tmp) := by
  rw [Ahead, h]
  exact if_neg hparts

namespace Whole

variable {v : View} (h : Whole buf v)
include h

theorem weight_eq {q : UInt8 → Bool} (hq : q amp = false) : weight buf q v = buf.countP q := by
  have hcount := congrArg (List.countP q) h.account
  rw [countP_collapse hq, List.countP_append, List.countP_append, countP_collapse hq] at hcount
  rw [weight, hcount, Nat.add_assoc]

theorem ne_of_held {held : Held} (hheld : v.held = some held) : v.out ≠ collapse buf := by
  have hpre : v.out ++ (heldText v.held ++ collapse (buf.drop v.tmp)) <+: collapse buf :=
    ⟨[], by rw [List.append_nil, ← h.account]⟩
  refine ne_of_prefix_append hpre ?_
  rw [hheld]
  exact List.cons_ne_nil _ _

/-- The text goes on with the reference that is held. -/
theorem out_goesOn {held : Held} (hheld : v.held = some held) {c : UInt8}
    (hc : held.full.head? = some c) : v.out ++ [amp, c] <+: collapse buf := by
  have hfull := List.eq_cons_of_mem_head? hc
  rw [h.account, hheld]
  dsimp only [heldText]
  rw [hfull]
  exact ⟨held.full.tail ++ collapse (buf.drop v.tmp), List.append_assoc _ _ _⟩

theorem first_byte {held : Held} (hheld : v.held = some held) (hne : held.full ≠ []) :
    ∃ c, held.full.head? = some c ∧ c ≠ amp := by
  obtain ⟨c, rest, hfull⟩ := List.exists_cons_of_ne_nil hne
  have hhead : held.full.head? = some c := by rw [hfull, List.head?_cons]
  refine ⟨c, hhead, ?_⟩
  intro h
  subst h
  exact (h.held held hheld).first hhead

theorem copied (hlt : v.tmp < buf.length) (hc : byteAt buf v.tmp ≠ amp) (hheld : v.held = none) :
    Whole buf ⟨v.tmp + 1, v.curpos + 1, v.out ++ [byteAt buf v.tmp], none⟩ where
  aligned := congrArg (· + 1) h.aligned
  account := by
    rw [h.account, hheld, drop_byteAt hlt, collapse_cons hc, List.append_assoc]
    rfl
  ahead := by
    rw [← h.ahead, ahead_none hheld, drop_byteAt hlt, kept_cons hc]
    rfl
  held := nofun

theorem pair (hlt : v.tmp < buf.length) (hc : byteAt buf v.tmp = amp)
    (hnext : byteAt buf (v.tmp + 1) = amp) (hheld : v.held = none) :
    Whole buf ⟨v.tmp + 2, v.curpos + 2, v.out ++ [amp], none⟩ := by
  have hdrop : buf.drop v.tmp = amp :: amp :: buf.drop (v.tmp + 2) := by
    rw [drop_byteAt hlt, hc, drop_byteAt (lt_of_byteAt hnext (by decide)), hnext]
  refine ⟨congrArg (· + 2) h.aligned, ?_, ?_, nofun⟩
  · rw [h.account, hheld, hdrop, collapse_pair, List.append_assoc]
    rfl
  · rw [← h.ahead, ahead_none hheld, hdrop, kept_pair]
    rfl

theorem opened (hlt : v.tmp < buf.length) (hc : byteAt buf v.tmp = amp)
    (hnext : byteAt buf (v.tmp + 1) ≠ amp) (hheld : v.held = none) :
    Whole buf ⟨v.tmp + 1, v.curpos + 1, v.out, some ⟨[], [], []⟩⟩ where
  aligned := congrArg (· + 1) h.aligned
  account := by
    rw [h.account, hheld, drop_byteAt hlt, hc, collapse_amp (head?_drop_ne hnext)]
    rfl
  ahead := by
    rw [← h.ahead, ahead_none hheld, drop_byteAt hlt, hc, kept_amp (head?_drop_ne hnext)]
    rfl
  held := by
    intro held he
    obtain rfl := Option.some.inj he
    exact ⟨Iff.rfl, nofun, fun _ => hnext, fun _ => rfl, fun _ => Nat.zero_le _, Nat.zero_le _⟩

theorem closed (hlt : v.tmp < buf.length) {held : Held} (hc : byteAt buf v.tmp = semicolon)
    (hheld : v.held = some held) (hne : held.full ≠ []) :
    Whole buf ⟨v.tmp + 1, v.curpos + 1, v.out ++ (amp :: held.full ++ [semicolon]), none⟩ where
  aligned := congrArg (· + 1) h.aligned
  account := by
    rw [h.account, hheld, drop_byteAt hlt, hc, collapse_cons (by decide), List.append_assoc,
      List.append_assoc]
    rfl
  ahead := by
    have hwf := h.held held hheld
    rw [← h.ahead]
    by_cases hparts : held.parts = []
    · have hpos := List.length_pos_iff.mpr hne
      rw [ahead_name hheld hparts, drop_byteAt hlt, hc, nameAhead_semicolon (hwf.short hparts)]
      exact ⟨fun hkept => ⟨hpos, hkept⟩, And.right⟩
    · rw [ahead_parts hheld hparts, drop_byteAt hlt, hc, partsAhead_semicolon hwf.fits]
      rfl
  held := nofun

/-- An '&' within a reference, other than the byte behind the first dot. -/
theorem broken (hlt : v.tmp < buf.length) {held : Held} (hc : byteAt buf v.tmp = amp)
    (hheld : v.held = some held) : ¬Kept buf ∧ Lossy buf v := by
  have hwf := h.held held hheld
  constructor
  · rw [← h.ahead]
    by_cases hparts : held.parts = []
    · rw [ahead_name hheld hparts, drop_byteAt hlt, hc]
      exact not_nameAhead_amp _ _
    · rw [ahead_parts hheld hparts, drop_byteAt hlt, hc]
      exact not_partsAhead_amp _ _
  · obtain ⟨c, hhead, hne⟩ := h.first_byte hheld fun hnil => hwf.next hnil hc
    exact .broken h.aligned hc hheld hhead hne (h.out_goesOn hheld hhead)
      (Nat.le_of_eq (h.weight_eq rfl))

/-- A reference without a name. -/
theorem not_kept_emptied (hlt : v.tmp < buf.length) {held : Held}
    (hc : byteAt buf v.tmp = semicolon) (hheld : v.held = some held) (hnil : held.full = []) :
    ¬Kept buf := by
  have hwf := h.held held hheld
  rw [← h.ahead, ahead_name hheld (hwf.start hnil), drop_byteAt hlt, hc,
    nameAhead_semicolon (hwf.short (hwf.start hnil)), hnil]
  exact fun hpos => absurd hpos.1 (by decide)

theorem not_kept_stopped (hlt : v.tmp < buf.length) {held : Held} (hamp : byteAt buf v.tmp ≠ amp)
    (hsemi : byteAt buf v.tmp ≠ semicolon) (hheld : v.held = some held)
    (hfault : byteAt buf v.tmp = dot ∧ held.name = [] ∨
      byteAt buf v.tmp ≠ dot ∧ maxEntsize ≤ held.full.length) : ¬Kept buf := by
  have hwf := h.held held hheld
  rw [← h.ahead]
  rcases hfault with ⟨hc, hname⟩ | ⟨hdot, hlong⟩
  · have hnil := hwf.named.mp hname
    rw [ahead_name hheld (hwf.start hnil), drop_byteAt hlt, hc,
      nameAhead_dot (hwf.short (hwf.start hnil)), hnil]
    exact fun hpos => absurd hpos.1 (by decide)
  · by_cases hparts : held.parts = []
    · rw [ahead_name hheld hparts, drop_byteAt hlt, nameAhead_cons ⟨hamp, hsemi, hdot⟩]
      exact not_nameAhead_long (Nat.lt_succ_of_le hlong) _
    · rw [ahead_parts hheld hparts, drop_byteAt hlt, partsAhead_cons hamp hsemi]
      exact fun hroom => absurd (hroom.1 hdot) (Nat.not_lt.mpr hlong)

/-- The text is accounted for when a byte is added to the reference. -/
theorem account_added (hlt : v.tmp < buf.length) {held : Held} (hamp : byteAt buf v.tmp ≠ amp)
    (hheld : v.held = some held) :
    collapse buf = v.out ++ (amp :: (held.full ++ [byteAt buf v.tmp]) ++
      collapse (buf.drop (v.tmp + 1))) := by
  rw [h.account, hheld, drop_byteAt hlt, collapse_cons hamp]
  dsimp only [heldText]
  rw [List.cons_append, List.cons_append, List.append_assoc]
  rfl

/-- No '&' has become the first byte. -/
theorem first_added {held : Held} (hheld : v.held = some held) {c : UInt8} (hc : c ≠ amp)
    (more : Bytes) : (held.full ++ c :: more).head? ≠ some amp := by
  have hwf := h.held held hheld
  cases hfull : held.full with
  | nil => exact fun he => hc (Option.some.inj he)
  | cons b rest =>
    have hfirst := hwf.first
    rw [hfull] at hfirst
    exact hfirst

theorem added (hlt : v.tmp < buf.length) (hroom : DotRoom buf v) {held held' : Held}
    (hamp : byteAt buf v.tmp ≠ amp) (hsemi : byteAt buf v.tmp ≠ semicolon)
    (hheld : v.held = some held) (hadds : held.Adds (byteAt buf v.tmp) held') :
    Whole buf ⟨v.tmp + 1, v.curpos + 1, v.out, some held'⟩ := by
  have hwf := h.held held hheld
  have hne : held.full ++ [byteAt buf v.tmp] ≠ [] :=
    List.append_ne_nil_of_right_ne_nil _ (List.cons_ne_nil _ _)
  have hfirst := h.first_added hheld hamp []
  have haccount := h.account_added hlt hamp hheld
  have hname : held.parts ≠ [] → held.name ≠ [] := fun hparts hnil =>
    hparts (hwf.start (hwf.named.mp hnil))
  refine ⟨congrArg (· + 1) h.aligned, ?_, ?_, ?_⟩
  · rw [haccount, ← hadds.full]
    rfl
  · rw [← h.ahead]
    cases hadds with
    | name hdot hlen hparts =>
      rw [ahead_name hheld hparts, drop_byteAt hlt, nameAhead_cons ⟨hamp, hsemi, hdot⟩,
        ahead_name rfl rfl, List.length_append]
      rfl
    | part hdot hlen hparts =>
      rw [ahead_parts hheld hparts, drop_byteAt hlt, partsAhead_cons hamp hsemi,
        ahead_parts rfl (List.append_ne_nil_of_right_ne_nil _ (List.cons_ne_nil _ _)),
        List.length_append]
      exact ⟨fun hahead => ⟨fun _ => hlen, hahead⟩, And.right⟩
    | dot hdot hname' hparts =>
      rw [ahead_parts hheld hparts, drop_byteAt hlt, partsAhead_cons hamp hsemi,
        ahead_parts rfl (List.append_ne_nil_of_right_ne_nil _ (List.cons_ne_nil _ _)),
        List.length_append]
      exact ⟨fun hahead => ⟨fun hnot => absurd hdot hnot, hahead⟩, And.right⟩
  · intro held'' he
    obtain rfl := Option.some.inj he
    have hlength : held'.full.length = held.full.length + 1 := by
      rw [hadds.full, List.length_append]
      rfl
    cases hadds with
    | name hdot hlen hparts =>
      refine ⟨iff_of_false ?_ hne, hfirst, fun e => absurd e hne, fun _ => rfl, ?_, ?_⟩
      · exact List.append_ne_nil_of_right_ne_nil _ (List.cons_ne_nil _ _)
      · exact fun _ => Nat.le_trans (Nat.le_of_eq hlength) hlen
      · exact Nat.le_trans (Nat.le_of_eq hlength) (Nat.le_succ_of_le hlen)
    | part hdot hlen hparts =>
      refine ⟨iff_of_false (hname hparts) hne, hfirst, fun e => absurd e hne,
        fun e => absurd e hne, ?_, ?_⟩
      · exact fun e => absurd e (List.append_ne_nil_of_right_ne_nil _ (List.cons_ne_nil _ _))
      · exact Nat.le_trans (Nat.le_of_eq hlength) (Nat.le_succ_of_le hlen)
    | dot hdot hname' hparts =>
      have hfits := hroom held hheld hdot hname'
      rw [if_neg hparts] at hfits
      refine ⟨iff_of_false hname' hne, hfirst, fun e => absurd e hne, fun e => absurd e hne, ?_, ?_⟩
      · exact fun e => absurd e (List.append_ne_nil_of_right_ne_nil _ (List.cons_ne_nil _ _))
      · exact Nat.le_trans (Nat.le_of_eq hlength) hfits

/-- The first dot, and the byte behind it, which may be anything. -/
theorem firstDot (hlt : v.tmp < buf.length) (hroom : DotRoom buf v) {held : Held}
    (hc : byteAt buf v.tmp = dot) (hheld : v.held = some held) (hname : held.name ≠ [])
    (hparts : held.parts = [])
    (hturn : Turn buf v (some ⟨v.tmp + 2, v.curpos + 2, v.out,
      some ⟨held.full ++ [dot, byteAt buf (v.tmp + 1)], held.name, [byteAt buf (v.tmp + 1)]⟩⟩)) :
    Outcome buf v (some ⟨v.tmp + 2, v.curpos + 2, v.out,
      some ⟨held.full ++ [dot, byteAt buf (v.tmp + 1)], held.name,
        [byteAt buf (v.tmp + 1)]⟩⟩) := by
  have hwf := h.held held hheld
  have hne : held.full ≠ [] := fun hnil => hname (hwf.named.mpr hnil)
  have hpos := List.length_pos_iff.mpr hne
  have hahead := h.ahead
  rw [ahead_name hheld hparts, drop_byteAt hlt, hc, nameAhead_dot (hwf.short hparts)] at hahead
  rcases Nat.lt_or_ge (v.tmp + 1) buf.length with hlt' | hge
  · have hdrop : buf.drop (v.tmp + 1) = byteAt buf (v.tmp + 1) :: buf.drop (v.tmp + 2) :=
      drop_byteAt hlt'
    have hkept : PartsAhead (held.full.length + 2) (buf.drop (v.tmp + 2)) ↔ Kept buf := by
      rw [← hahead, hdrop]
      refine ⟨fun hp => ⟨hpos, _, _, rfl, hp⟩, ?_⟩
      intro h
      obtain ⟨-, x, rest', he, hp⟩ := h
      rwa [(List.cons.inj he).2]
    by_cases hpair : byteAt buf (v.tmp + 1) = amp ∧ byteAt buf (v.tmp + 2) = amp
    · -- the text's "&&" is read as a byte of the part and an '&' within the reference
      right
      constructor
      · rw [← hkept, drop_byteAt (lt_of_byteAt hpair.2 (by decide)), hpair.2]
        exact not_partsAhead_amp _ _
      · obtain ⟨c, hhead, hcne⟩ := h.first_byte hheld hne
        have hhead' : (held.full ++ [dot, byteAt buf (v.tmp + 1)]).head? = some c := by
          rw [List.head?_append_of_ne_nil _ hne, hhead]
        refine .broken (congrArg (· + 2) h.aligned) hpair.2 rfl hhead' hcne
          (h.out_goesOn hheld hhead) ?_
        rw [← h.weight_eq rfl]
        exact hturn.weight_le rfl (Or.inr hlt')
    · left
      have hcollapse : collapse (byteAt buf (v.tmp + 1) :: buf.drop (v.tmp + 2)) =
          byteAt buf (v.tmp + 1) :: collapse (buf.drop (v.tmp + 2)) := by
        by_cases hx : byteAt buf (v.tmp + 1) = amp
        · rw [hx]
          exact collapse_amp (head?_drop_ne fun he => hpair ⟨hx, he⟩)
        · exact collapse_cons hx _
      refine ⟨congrArg (· + 2) h.aligned, ?_, ?_, ?_⟩
      · rw [h.account, hheld, drop_byteAt hlt, hc, collapse_cons (by decide), hdrop, hcollapse]
        dsimp only [heldText]
        rw [List.cons_append, List.cons_append, List.append_assoc]
        rfl
      · rw [← hkept, ahead_parts rfl (List.cons_ne_nil _ _), List.length_append]
        rfl
      · intro held' he
        obtain rfl := Option.some.inj he
        have hfits := hroom held hheld hc hname
        rw [if_pos hparts] at hfits
        have hne' : held.full ++ [dot, byteAt buf (v.tmp + 1)] ≠ [] :=
          List.append_ne_nil_of_right_ne_nil _ (List.cons_ne_nil _ _)
        refine ⟨iff_of_false hname hne', h.first_added hheld (by decide) _, fun e => absurd e hne',
          fun e => absurd e hne', nofun, ?_⟩
        exact Nat.le_trans (Nat.le_of_eq List.length_append) hfits
  · -- the dot is the last byte of the text
    right
    constructor
    · rw [← hahead, List.drop_eq_nil_of_le hge]
      intro h
      obtain ⟨-, x, rest', he, -⟩ := h
      cases he
    · have haligned := h.aligned
      refine .ended ?_ (h.ne_of_held hheld)
      dsimp only
      omega

/-- **One turn**: the view stays whole, or the text is not kept and something is lost. -/
theorem turn (hlive : v.curpos < buf.length) (hroom : DotRoom buf v) {o : Option View}
    (hturn : Turn buf v o) : Outcome buf v o := by
  have hlt : v.tmp < buf.length := by
    rw [h.aligned]
    exact hlive
  cases hturn with
  | copied hc hheld => exact Or.inl (h.copied hlt hc hheld)
  | pair hc hnext =>
    cases hheld : v.held with
    | none => exact Or.inl (h.pair hlt hc hnext hheld)
    | some held =>
      have hbroken := h.broken hlt hc hheld
      rw [← hheld]
      exact Or.inr ⟨hbroken.1, hbroken.2.turn hlive (Nat.le_of_eq (h.weight_eq rfl))
        (.pair hc hnext)⟩
  | opened hc hnext =>
    cases hheld : v.held with
    | none => exact Or.inl (h.opened hlt hc hnext hheld)
    | some held =>
      have hbroken := h.broken hlt hc hheld
      exact Or.inr ⟨hbroken.1, hbroken.2.turn hlive (Nat.le_of_eq (h.weight_eq rfl))
        (.opened hc hnext)⟩
  | closed hc hheld hne => exact Or.inl (h.closed hlt hc hheld hne)
  | emptied hc hheld hnil =>
    refine Or.inr ⟨h.not_kept_emptied hlt hc hheld hnil, .semicolon ?_⟩
    rw [← h.weight_eq rfl]
    exact (Turn.emptied hc hheld hnil).weight_lt hc hheld hnil
  | added hamp hsemi hheld hadds => exact Or.inl (h.added hlt hroom hamp hsemi hheld hadds)
  | firstDot hc hheld hname hparts =>
    exact h.firstDot hlt hroom hc hheld hname hparts (.firstDot hc hheld hname hparts)
  | stopped hamp hsemi hheld hfault =>
    exact ⟨h.not_kept_stopped hlt hamp hsemi hheld hfault, h.ne_of_held hheld⟩

/-- In a text that is kept there is room for every dot. -/
theorem dotRoom (hlive : v.curpos < buf.length) (hkept : Kept buf) : DotRoom buf v := by
  intro held hheld hc hname
  have hlt : v.tmp < buf.length := by
    rw [h.aligned]
    exact hlive
  have hwf := h.held held hheld
  rw [← h.ahead] at hkept
  by_contra hlong
  by_cases hparts : held.parts = []
  · rw [if_pos hparts] at hlong
    rw [ahead_name hheld hparts, drop_byteAt hlt, hc, nameAhead_dot (hwf.short hparts)] at hkept
    obtain ⟨-, x, rest', -, hahead⟩ := hkept
    exact not_partsAhead_long (Nat.lt_of_not_le hlong) _ hahead
  · rw [if_neg hparts] at hlong
    rw [ahead_parts hheld hparts, drop_byteAt hlt, hc, partsAhead_cons (by decide) (by decide)]
      at hkept
    exact not_partsAhead_long (Nat.lt_of_not_le hlong) _ hkept.2

/-- At the end of the text. -/
theorem out_eq_iff (hend : buf.length ≤ v.curpos) : v.out = collapse buf ↔ Kept buf := by
  have hdrop : buf.drop v.tmp = [] := List.drop_eq_nil_of_le (by rw [h.aligned]; exact hend)
  cases hheld : v.held with
  | none =>
    have haccount := h.account
    rw [hheld, hdrop] at haccount
    refine iff_of_true (haccount.trans (List.append_nil _)).symm ?_
    rw [← h.ahead, ahead_none hheld, hdrop]
    exact .nil
  | some held =>
    refine iff_of_false (h.ne_of_held hheld) ?_
    rw [← h.ahead]
    by_cases hparts : held.parts = []
    · rw [ahead_name hheld hparts, hdrop]
      exact not_nameAhead_nil _
    · rw [ahead_parts hheld hparts, hdrop]
      exact not_partsAhead_nil _

end Whole

/-! ## The loop -/

section Loop

variable {σ : Type} {cb : EntCallback σ}

/-- What is known of the states the loop goes through. -/
inductive Track (buf : Bytes) (s : EntState σ) : Prop
  | gaveUp (h : GaveUp s)
  | stopped (htmp : s.tmp = none) (hrun : s.returned = false) (hkept : ¬Kept buf)
    (hne : s.out ≠ collapse buf)
  | whole {v : View} (hshows : Shows s v) (h : Whole buf v)
  | lossy {v : View} (hshows : Shows s v)
    (hsemi : weight buf isSemicolon v ≤ buf.countP isSemicolon) (hkept : ¬Kept buf)
    (h : Lossy buf v)

theorem not_gaveUp {s : EntState σ} (h : s.returned = false) : ¬GaveUp s := by
  intro hand
  obtain ⟨hret, -⟩ := hand
  rw [h] at hret
  cases hret

theorem track_init (buf : Bytes) (user : σ) : Track buf (init buf user) :=
  .whole (v := ⟨0, 0, [], none⟩) ⟨rfl, rfl, rfl, rfl, rfl, rfl, rfl⟩
    ⟨rfl, rfl, Iff.rfl, nofun⟩

theorem Shows.lt_of_live {s : EntState σ} {v : View} (h : Shows s v) (hlive : live buf s = true) :
    v.curpos < buf.length := by
  rw [← h.curpos]
  exact ((live_iff s).mp hlive).2.2

theorem Shows.inEntity {s : EntState σ} {v : View} (h : Shows s v) {held : Held}
    (hheld : v.held = some held) :
    s.inEntity = true ∧ held = ⟨s.entfullname, s.entname, s.entparts⟩ := by
  have he := h.held
  rw [hheld, EntState.held] at he
  split at he
  next hin => exact ⟨hin, (Option.some.inj he).symm⟩
  next => cases he

theorem Shows.dotRoom {s : EntState σ} {v : View} (h : Shows s v) (hdots : DotFits buf s) :
    DotRoom buf v := by
  intro held hheld hc hname
  obtain ⟨hin, rfl⟩ := h.inEntity hheld
  exact hdots v.tmp h.tmp hc hin hname

theorem Shows.dotFits {s : EntState σ} {v : View} (h : Shows s v) (hroom : DotRoom buf v) :
    DotFits buf s := by
  intro p hp hc hin hname
  rw [h.tmp] at hp
  obtain rfl := Option.some.inj hp
  exact hroom _ (h.inside hin) hc hname

theorem track_step (hcb : ∀ u n p, (cb u n p).2 = none) {s : EntState σ} (hlive : live buf s = true)
    (hdots : DotFits buf s) (h : Track buf s) : Track buf (s.step buf (some cb)) := by
  cases h with
  | gaveUp h => exact absurd h (not_gaveUp ((live_iff s).mp hlive).1)
  | stopped htmp =>
    have hsome := ((live_iff s).mp hlive).2.1
    rw [htmp] at hsome
    cases hsome
  | whole hshows h =>
    have hlt := hshows.lt_of_live hlive
    rcases step_turn hcb hshows with hgave | ⟨o, hturn, hafter⟩
    · exact .gaveUp hgave
    · have hout := h.turn hlt (hshows.dotRoom hdots) hturn
      cases o with
      | none =>
        refine .stopped hafter.1 hafter.2.1 hout.1 ?_
        rw [hafter.2.2]
        exact hout.2
      | some v' =>
        rcases hout with hwhole | ⟨hkept, hlossy⟩
        · exact .whole hafter hwhole
        · refine .lossy hafter ?_ hkept hlossy
          rw [← h.weight_eq rfl]
          exact hturn.weight_le rfl (Or.inl rfl)
  | lossy hshows hsemi hkept h =>
    have hlt := hshows.lt_of_live hlive
    rcases step_turn hcb hshows with hgave | ⟨o, hturn, hafter⟩
    · exact .gaveUp hgave
    · cases o with
      | none =>
        refine .stopped hafter.1 hafter.2.1 hkept ?_
        rw [hafter.2.2]
        exact h.ne
      | some v' =>
        exact .lossy hafter (Nat.le_trans (hturn.weight_le rfl (Or.inl rfl)) hsemi) hkept
          (h.turn hlt hsemi hturn)

theorem Track.dotFits {s : EntState σ} (h : Track buf s) (hkept : Kept buf)
    (hlive : live buf s = true) : DotFits buf s := by
  cases h with
  | gaveUp h => exact absurd h (not_gaveUp ((live_iff s).mp hlive).1)
  | stopped _ _ hnot => exact absurd hkept hnot
  | whole hshows h => exact hshows.dotFits (h.dotRoom (hshows.lt_of_live hlive) hkept)
  | lossy _ _ hnot => exact absurd hkept hnot

/-- Where the loop has ended. -/
theorem Track.out_eq_iff {s : EntState σ} (h : Track buf s) (hdone : live buf s = false)
    (hrun : s.returned = false) : s.out = collapse buf ↔ Kept buf := by
  cases h with
  | gaveUp h => exact absurd h (not_gaveUp hrun)
  | stopped _ _ hkept hne => exact iff_of_false hne hkept
  | @whole v hshows h =>
    rw [hshows.out]
    refine h.out_eq_iff (Nat.not_lt.mp fun hlt => ?_)
    rw [← hshows.curpos] at hlt
    have hlive : live buf s = true := (live_iff s).mpr ⟨hrun, by rw [hshows.tmp]; rfl, hlt⟩
    rw [hdone] at hlive
    cases hlive
  | lossy hshows _ hkept h =>
    rw [hshows.out]
    exact iff_of_false h.ne hkept

/-- The states of a loop that finds room for its dots. -/
theorem track_visits (hcb : ∀ u n p, (cb u n p).2 = none) {user : σ}
    (hdots : ∀ t, Visits (live buf) (step buf (some cb)) (init buf user) t → live buf t = true →
      DotFits buf t) {t : EntState σ}
    (ht : Visits (live buf) (step buf (some cb)) (init buf user) t) : Track buf t := by
  have hinv := Lib.visits_inv (P := fun s => (∀ t, Visits (live buf) (step buf (some cb)) s t →
      live buf t = true → DotFits buf t) ∧ Track buf s) ?_ ht ⟨hdots, track_init buf user⟩
  · exact hinv.2
  · intro s hlive h
    obtain ⟨hall, htrack⟩ := h
    exact ⟨fun t ht => hall t (.later hlive ht), track_step hcb hlive (hall s (.here s) hlive) htrack⟩

theorem track_visits_of_kept (hcb : ∀ u n p, (cb u n p).2 = none) (hkept : Kept buf) {user : σ}
    {t : EntState σ} (ht : Visits (live buf) (step buf (some cb)) (init buf user) t) :
    Track buf t :=
  Lib.visits_inv (fun _ hlive htrack => track_step hcb hlive (htrack.dotFits hkept hlive) htrack) ht
    (track_init buf user)

/-- What the loop has written when the result is not too long. -/
theorem Track.finish_eq_iff {s : EntState σ} (h : Track buf s) (hdone : live buf s = false)
    (herr : s.finish.errcode ≠ .retBufTooLong) : s.finish.buf = collapse buf ↔ Kept buf := by
  have hrun : s.returned = false := by
    rw [← Bool.not_eq_true]
    intro hret
    refine herr ?_
    rw [finish, if_pos hret]
    cases h with
    | gaveUp h => exact h.2
    | stopped _ hrun => rw [hret] at hrun; cases hrun
    | whole hshows => rw [hshows.running] at hret; cases hret
    | lossy hshows => rw [hshows.running] at hret; cases hret
  rw [← h.out_eq_iff hdone hrun, finish, hrun]
  rfl

end Loop

end EntState

/-- The codes with which `f_parse_entities` returns a string. -/
def NonFatal (e : EntErr) : Prop := e = .ok ∨ e = .openEntity ∨ e = .entNameLong

section Lossless

open EntState

variable {σ : Type} (cb : EntCallback σ) (user : σ)

/-- No store goes past the arrays, and the buffer returned is the text with one '&' for each
"&&". -/
def LosesNothing (buf : Bytes) : Prop :=
  (∀ t, Visits (live buf) (step buf (some cb)) (init buf user) t → InBounds t) ∧
    (entParser (some buf) (some cb) user).1.buf = collapse buf

variable {cb}

theorem entParser_buf_iff {buf : Bytes}
    (hfatal : NonFatal (entParser (some buf) (some cb) user).1.errcode)
    (htrack : Track buf ((init buf user).loop buf (some cb))) :
    (entParser (some buf) (some cb) user).1.buf = collapse buf ↔ Kept buf := by
  unfold entParser at hfatal ⊢
  dsimp only at hfatal ⊢
  split at hfatal
  next =>
    rcases hfatal with h | h | h
    · cases h
    · cases h
    · cases h
  next hfits =>
    rw [if_neg hfits]
    refine htrack.finish_eq_iff (loop_done _) ?_
    intro herr
    rcases hfatal with h | h | h
    · exact absurd (herr.symm.trans h) (by decide)
    · exact absurd (herr.symm.trans h) (by decide)
    · exact absurd (herr.symm.trans h) (by decide)

/-- **What is lost**: with a callback that resolves nothing, the text comes out whole exactly when
every '&' in it is one of a pair or begins a reference. -/
theorem losesNothing_iff (hcb : ∀ u n p, (cb u n p).2 = none) (buf : Bytes)
    (hfatal : NonFatal (entParser (some buf) (some cb) user).1.errcode) :
    LosesNothing cb user buf ↔ Kept buf := by
  have hend : Visits (live buf) (step buf (some cb)) (init buf user)
      ((init buf user).loop buf (some cb)) := Lib.visits_runLoop _
  constructor
  · intro h
    obtain ⟨hbounds, hbuf⟩ := h
    refine (entParser_buf_iff user hfatal ?_).mp hbuf
    exact track_visits hcb (fun t ht hlive => dotFits_of_visits hbounds ht hlive) hend
  · intro hkept
    refine ⟨fun t ht => ?_, (entParser_buf_iff user hfatal ?_).mpr hkept⟩
    · exact inBounds_of_dotFits (fun t ht hlive =>
        (track_visits_of_kept hcb hkept ht).dotFits hkept hlive) ht
    · exact track_visits_of_kept hcb hkept hend

/-- "a&&b&v.&x;". -/
theorem losesNothing_reference :
    LosesNothing (fun (u : Unit) _ _ => (u, none)) () [97, 38, 38, 98, 38, 118, 46, 38, 120, 59] ↔
      Kept [97, 38, 38, 98, 38, 118, 46, 38, 120, 59] :=
  losesNothing_iff () (fun _ _ _ => rfl) _ (Or.inl (by decide +kernel))

/-- "a & b", and "&a&&b;". -/
theorem ampersand_lost :
    (entParser (some [97, 32, 38, 32, 98]) (some fun (u : Unit) _ _ => (u, none)) ()).1 =
      ⟨[97, 32], 2, .openEntity⟩ ∧
    (entParser (some [38, 97, 38, 38, 98, 59]) (some fun (u : Unit) _ _ => (u, none)) ()).1 =
      ⟨[38, 38, 97, 98, 59], 5, .ok⟩ := by
  decide +kernel

end Lossless

end Caudium.Entity
