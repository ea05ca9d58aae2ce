import Caudium.Entity.Kept
import Caudium.Entity.Turns

/-!
# What the entity parser loses (`entparse.c`)

What is read of a reference is written at its ';' only: an '&' that no ';' follows, a second '&'
before it, a reference without a name or one that is too long take bytes with them, and "&&"
within a reference comes out in front of it. `Lossy` is what the views look like from which the
text cannot come out whole any more, and no turn leads out of them (`Lossy.turn`). Lost bytes are
counted: no turn makes any (`Turn.weight_le`).
-/

namespace Caudium.Entity

open Lib (Bytes)

namespace EntState

variable {buf : Bytes}

/-! ## The text under the cursor -/

theorem head?_drop_ne {p : Nat} (h : byteAt buf p ≠ amp) : (buf.drop p).head? ≠ some amp := by
  rcases Nat.lt_or_ge p buf.length with hlt | hge
  · rw [drop_byteAt hlt, List.head?_cons]
    exact fun he => h (Option.some.inj he)
  · rw [List.drop_eq_nil_of_le hge]
    nofun

/-! ## How many bytes there are -/

/-- The reference as far as it is held, as it stands in the text. -/
def heldText : Option Held → Bytes
  | none => []
  | some h => amp :: h.full

/-- The bytes of a kind that are written, held, or ahead. -/
def weight (buf : Bytes) (q : UInt8 → Bool) (v : View) : Nat :=
  v.out.countP q + (heldText v.held).countP q + (buf.drop v.tmp).countP q

/-- A byte that is read is no longer ahead; behind the text only a NUL is. -/
theorem countP_drop_le (buf : Bytes) {q : UInt8 → Bool} {p : Nat} (h : q 0 = false ∨ p < buf.length) :
    [byteAt buf p].countP q + (buf.drop (p + 1)).countP q ≤ (buf.drop p).countP q := by
  rcases Nat.lt_or_ge p buf.length with hlt | hge
  · rw [drop_byteAt hlt, ← List.countP_append]
    exact Nat.le_refl _
  · have hzero : q 0 = false := h.resolve_right (Nat.not_lt.mpr hge)
    have hnone : [byteAt buf p].countP q = 0 := by
      rw [byteAt_of_le hge, List.countP_singleton, hzero]
      rfl
    rw [hnone, List.drop_eq_nil_of_le (Nat.le_succ_of_le hge)]
    exact Nat.le_trans (Nat.le_of_eq (Nat.zero_add _)) (Nat.zero_le _)

theorem countP_drop_succ_le (buf : Bytes) (q : UInt8 → Bool) (p : Nat) :
    (buf.drop (p + 1)).countP q ≤ (buf.drop p).countP q := by
  rw [← List.drop_drop]
  exact (List.drop_sublist 1 _).countP_le

/-- No turn makes bytes, apart from '&' and from what is read behind the text. -/
theorem Turn.weight_le {q : UInt8 → Bool} (hq : q amp = false) {v v' : View}
    (h : Turn buf v (some v')) (hend : q 0 = false ∨ v'.tmp ≤ buf.length) :
    weight buf q v' ≤ weight buf q v := by
  have hamp : ∀ l : Bytes, (amp :: l).countP q = l.countP q := fun l =>
    List.countP_cons_of_neg (by rw [hq]; decide)
  unfold weight
  generalize ho : some v' = o at h
  cases h with
  | stopped => cases ho
  | copied hc hheld =>
    obtain rfl := Option.some.inj ho
    have hle := countP_drop_le buf (p := v.tmp) (hend.imp id Nat.lt_of_succ_le)
    rw [hheld, List.countP_append]
    dsimp only
    omega
  | pair hc hnext =>
    obtain rfl := Option.some.inj ho
    have hle := countP_drop_succ_le buf q v.tmp
    have hle' : (buf.drop (v.tmp + 2)).countP q ≤ (buf.drop (v.tmp + 1)).countP q :=
      countP_drop_succ_le buf q (v.tmp + 1)
    rw [List.countP_append, hamp]
    dsimp only [List.countP_nil]
    omega
  | opened hc hnext =>
    obtain rfl := Option.some.inj ho
    have hle := countP_drop_succ_le buf q v.tmp
    dsimp only [heldText]
    rw [hamp, List.countP_nil]
    omega
  | @closed held hc hheld hne =>
    obtain rfl := Option.some.inj ho
    have hle := countP_drop_le buf (p := v.tmp) (hend.imp id Nat.lt_of_succ_le)
    rw [hc] at hle
    rw [hheld]
    dsimp only [heldText]
    rw [List.countP_append, List.cons_append, hamp, hamp, List.countP_append, List.countP_nil]
    omega
  | @emptied held hc hheld hnil =>
    obtain rfl := Option.some.inj ho
    have hle := countP_drop_succ_le buf q v.tmp
    have hle' : [byteAt buf (v.tmp + 1)].countP q + (buf.drop (v.tmp + 2)).countP q ≤
        (buf.drop (v.tmp + 1)).countP q :=
      countP_drop_le buf (hend.imp id Nat.lt_of_succ_le)
    rw [hheld, List.countP_append]
    dsimp only [heldText]
    rw [hamp, hnil, List.countP_nil]
    omega
  | @added held held' hc hsemi hheld hadds =>
    obtain rfl := Option.some.inj ho
    have hle := countP_drop_le buf (p := v.tmp) (hend.imp id Nat.lt_of_succ_le)
    rw [hheld]
    dsimp only [heldText]
    rw [hadds.full, hamp, hamp, List.countP_append]
    omega
  | @firstDot held hc hheld hname hparts =>
    obtain rfl := Option.some.inj ho
    have hle := countP_drop_le buf (p := v.tmp)
      (hend.imp id fun h => Nat.lt_of_succ_le (Nat.le_trans (Nat.le_succ _) h))
    have hle' : [byteAt buf (v.tmp + 1)].countP q + (buf.drop (v.tmp + 2)).countP q ≤
        (buf.drop (v.tmp + 1)).countP q :=
      countP_drop_le buf (hend.imp id Nat.lt_of_succ_le)
    rw [hc] at hle
    rw [hheld]
    dsimp only [heldText]
    rw [hamp, hamp, List.countP_append, ← List.singleton_append, List.countP_append]
    omega

/-! ## Views from which the text can no longer come out whole -/

def isSemicolon (c : UInt8) : Bool := decide (c = semicolon)

def isNotAmp (c : UInt8) : Bool := decide (c ≠ amp)

/-- Something is lost, or will be. -/
inductive Lossy (buf : Bytes) (v : View) : Prop
  /-- A ';' is lost. -/
  | semicolon (h : weight buf isSemicolon v < buf.countP isSemicolon)
  /-- A byte is lost, and the cursor does not run ahead. -/
  | byte (haligned : v.tmp = v.curpos) (h : weight buf isNotAmp v < buf.countP isNotAmp)
  /-- The text is read. -/
  | ended (hend : buf.length ≤ v.curpos) (h : v.out ≠ collapse buf)
  /-- An '&' is next within a reference. -/
  | broken {h : Held} {c : UInt8} (haligned : v.tmp = v.curpos) (hnext : byteAt buf v.tmp = amp)
    (hheld : v.held = some h) (hfull : h.full.head? = some c) (hc : c ≠ amp)
    (hout : v.out ++ [amp, c] <+: collapse buf)
    (hcount : weight buf isNotAmp v ≤ buf.countP isNotAmp)
  /-- What is written does not go on with an '&', and it will be one that is written next. -/
  | misplaced {h : Held} (hheld : v.held = some h) (hne : v.out ≠ collapse buf)
    (hnot : ¬v.out ++ [amp] <+: collapse buf)
  /-- Something else is written. -/
  | mismatch (h : ¬v.out <+: collapse buf)

/-- What is written has too few bytes of a kind. -/
theorem ne_of_weight_lt {q : UInt8 → Bool} (hq : q amp = false) {v : View}
    (h : weight buf q v < buf.countP q) : v.out ≠ collapse buf := by
  intro he
  unfold weight at h
  rw [he, countP_collapse hq] at h
  omega

theorem ne_of_prefix_append {out more text : Bytes} (h : out ++ more <+: text) (hmore : more ≠ []) :
    out ≠ text := by
  intro heq
  subst heq
  obtain ⟨rest, hrest⟩ := h
  rw [List.append_assoc] at hrest
  exact hmore (List.append_eq_nil_iff.mp (List.append_right_eq_self.mp hrest)).1

theorem Lossy.ne {v : View} (h : Lossy buf v) : v.out ≠ collapse buf := by
  cases h with
  | semicolon h => exact ne_of_weight_lt rfl h
  | byte _ h => exact ne_of_weight_lt rfl h
  | ended _ h => exact h
  | broken _ _ _ _ _ hout => exact ne_of_prefix_append hout (List.cons_ne_nil _ _)
  | misplaced _ hne _ => exact hne
  | mismatch h =>
    intro he
    rw [he] at h
    exact h (List.prefix_refl _)

/-- An empty reference takes its ';' with it. -/
theorem Turn.weight_lt {v v' : View} (h : Turn buf v (some v')) {held : Held}
    (hc : byteAt buf v.tmp = semicolon) (hheld : v.held = some held) (hnil : held.full = []) :
    weight buf isSemicolon v' < weight buf isSemicolon v := by
  have hlt : v.tmp < buf.length := lt_of_byteAt hc (by decide)
  generalize ho : some v' = o at h
  cases h with
  | copied hc' hheld' =>
    rw [hheld] at hheld'
    cases hheld'
  | pair hc' => rw [hc] at hc'; cases hc'
  | opened hc' => rw [hc] at hc'; cases hc'
  | closed hc' hheld' hne =>
    rw [hheld] at hheld'
    cases hheld'
    exact absurd hnil hne
  | emptied hc' hheld' hnil' =>
    obtain rfl := Option.some.inj ho
    have hle := countP_drop_le buf (p := v.tmp + 1) (Or.inl (rfl : isSemicolon 0 = false))
    have hcount : (buf.drop v.tmp).countP isSemicolon =
        (buf.drop (v.tmp + 1)).countP isSemicolon + 1 := by
      rw [drop_byteAt hlt, hc]
      exact List.countP_cons_of_pos rfl
    unfold weight
    rw [hheld, List.countP_append]
    dsimp only [heldText]
    rw [hnil, show [amp].countP isSemicolon = 0 from rfl, List.countP_nil]
    show _ + (buf.drop (v.tmp + 1 + 1)).countP isSemicolon < _
    omega
  | added _ hsemi => exact absurd hc hsemi
  | firstDot hc' => rw [hc] at hc'; cases hc'
  | stopped => cases ho

/-- The cursor gets ahead behind an empty reference only, and past the end with a first dot. -/
theorem Turn.aligned {v v' : View} (h : Turn buf v (some v')) (haligned : v.tmp = v.curpos)
    (hlive : v.curpos < buf.length) :
    (∃ held, byteAt buf v.tmp = semicolon ∧ v.held = some held ∧ held.full = []) ∨
      v'.tmp = v'.curpos ∧ (v'.tmp ≤ buf.length ∨ v'.out = v.out) := by
  generalize ho : some v' = o at h
  cases h with
  | emptied hc hheld hnil => exact Or.inl ⟨_, hc, hheld, hnil⟩
  | stopped => cases ho
  | pair hc hnext =>
    obtain rfl := Option.some.inj ho
    have hlt := lt_of_byteAt hnext (by decide)
    exact Or.inr ⟨congrArg (· + 2) haligned, Or.inl hlt⟩
  | firstDot =>
    obtain rfl := Option.some.inj ho
    exact Or.inr ⟨congrArg (· + 2) haligned, Or.inr rfl⟩
  | copied =>
    obtain rfl := Option.some.inj ho
    exact Or.inr ⟨congrArg (· + 1) haligned, Or.inl (by dsimp only; omega)⟩
  | opened =>
    obtain rfl := Option.some.inj ho
    exact Or.inr ⟨congrArg (· + 1) haligned, Or.inl (by dsimp only; omega)⟩
  | closed =>
    obtain rfl := Option.some.inj ho
    exact Or.inr ⟨congrArg (· + 1) haligned, Or.inl (by dsimp only; omega)⟩
  | added =>
    obtain rfl := Option.some.inj ho
    exact Or.inr ⟨congrArg (· + 1) haligned, Or.inl (by dsimp only; omega)⟩

theorem Turn.out_grows {v v' : View} (h : Turn buf v (some v')) : v.out <+: v'.out := by
  generalize ho : some v' = o at h
  cases h with
  | stopped => cases ho
  | opened => obtain rfl := Option.some.inj ho; exact List.prefix_refl _
  | added => obtain rfl := Option.some.inj ho; exact List.prefix_refl _
  | firstDot => obtain rfl := Option.some.inj ho; exact List.prefix_refl _
  | copied => obtain rfl := Option.some.inj ho; exact List.prefix_append _ _
  | pair => obtain rfl := Option.some.inj ho; exact List.prefix_append _ _
  | closed => obtain rfl := Option.some.inj ho; exact List.prefix_append _ _
  | emptied => obtain rfl := Option.some.inj ho; exact List.prefix_append _ _

/-- A second '&' where the text has another byte. -/
theorem not_prefix_amp {out text : Bytes} {c : UInt8} (h : out ++ [amp, c] <+: text) (hc : c ≠ amp) :
    ¬out ++ [amp] ++ [amp] <+: text := by
  intro h'
  rw [List.append_assoc] at h'
  have hlen : (out ++ [amp, c]).length = (out ++ ([amp] ++ [amp])).length := by
    rw [List.length_append, List.length_append]
    rfl
  have heq := (List.prefix_of_prefix_length_le h h' (Nat.le_of_eq hlen)).eq_of_length hlen
  have hlast := List.append_cancel_left heq
  exact hc (List.cons.inj (List.cons.inj hlast).2).1

/-- A byte of what is held is lost when another reference begins. -/
theorem weight_opened {v : View} {h : Held} {c : UInt8} (hheld : v.held = some h)
    (hfull : h.full.head? = some c) (hc : c ≠ amp) (curpos : Nat) :
    weight buf isNotAmp ⟨v.tmp + 1, curpos, v.out, some ⟨[], [], []⟩⟩ < weight buf isNotAmp v := by
  obtain ⟨rest, hrest⟩ : ∃ rest, h.full = c :: rest := ⟨h.full.tail, List.eq_cons_of_mem_head? hfull⟩
  have hpos : 0 < (heldText v.held).countP isNotAmp := by
    rw [hheld, List.countP_pos_iff]
    refine ⟨c, ?_, decide_eq_true hc⟩
    show c ∈ amp :: h.full
    rw [hrest]
    exact List.mem_cons_of_mem _ List.mem_cons_self
  have hle := countP_drop_succ_le buf isNotAmp v.tmp
  have hnone : (heldText (some ⟨[], [], []⟩)).countP isNotAmp = 0 := rfl
  unfold weight
  dsimp only
  omega

theorem Lossy.turn_byte {v v' : View} (haligned : v.tmp = v.curpos)
    (hlost : weight buf isNotAmp v < buf.countP isNotAmp) (hlive : v.curpos < buf.length)
    (hturn : Turn buf v (some v'))
    (hempty : ∀ {held : Held}, byteAt buf v.tmp = Entity.semicolon → v.held = some held →
      held.full = [] → Lossy buf v') : Lossy buf v' := by
  rcases hturn.aligned haligned hlive with ⟨held, hc, hheld, hnil⟩ | ⟨haligned', hend | hout⟩
  · exact hempty hc hheld hnil
  · exact .byte haligned' (Nat.lt_of_le_of_lt (hturn.weight_le rfl (Or.inr hend)) hlost)
  · rcases Nat.lt_or_ge buf.length v'.tmp with hend | hend
    · refine .ended (by omega) ?_
      rw [hout]
      exact ne_of_weight_lt rfl hlost
    · exact .byte haligned' (Nat.lt_of_le_of_lt (hturn.weight_le rfl (Or.inr hend)) hlost)

theorem Lossy.turn_broken {v v' : View} {h : Held} {c : UInt8} (haligned : v.tmp = v.curpos)
    (hnext : byteAt buf v.tmp = amp) (hheld : v.held = some h) (hfull : h.full.head? = some c)
    (hc : c ≠ amp) (hout : v.out ++ [amp, c] <+: collapse buf)
    (hcount : weight buf isNotAmp v ≤ buf.countP isNotAmp) (hturn : Turn buf v (some v')) :
    Lossy buf v' := by
  generalize ho : some v' = o at hturn
  cases hturn with
  | pair =>
    obtain rfl := Option.some.inj ho
    have hpre : v.out ++ [amp] ++ [c] <+: collapse buf := by
      rwa [List.append_assoc]
    exact .misplaced hheld (ne_of_prefix_append hpre (List.cons_ne_nil _ _))
      (not_prefix_amp hout hc)
  | opened =>
    obtain rfl := Option.some.inj ho
    exact .byte (congrArg (· + 1) haligned)
      (Nat.lt_of_lt_of_le (weight_opened hheld hfull hc _) hcount)
  | copied hc' => exact absurd hnext hc'
  | closed hc' => rw [hnext] at hc'; cases hc'
  | emptied hc' => rw [hnext] at hc'; cases hc'
  | added hc' => exact absurd hnext hc'
  | firstDot hc' => rw [hnext] at hc'; cases hc'
  | stopped => cases ho

theorem Lossy.turn_misplaced {v v' : View} {h : Held} (hheld : v.held = some h)
    (hne : v.out ≠ collapse buf) (hnot : ¬v.out ++ [amp] <+: collapse buf)
    (hturn : Turn buf v (some v'))
    (hempty : ∀ {held : Held}, byteAt buf v.tmp = Entity.semicolon → v.held = some held →
      held.full = [] → Lossy buf v') : Lossy buf v' := by
  generalize ho : some v' = o at hturn
  cases hturn with
  | copied hc hheld' =>
    rw [hheld] at hheld'
    cases hheld'
  | pair =>
    obtain rfl := Option.some.inj ho
    exact .mismatch hnot
  | opened =>
    obtain rfl := Option.some.inj ho
    exact .misplaced rfl hne hnot
  | @closed held =>
    obtain rfl := Option.some.inj ho
    refine .mismatch fun hpre => hnot (List.IsPrefix.trans ⟨held.full ++ [Entity.semicolon], ?_⟩ hpre)
    rw [List.append_assoc]
    rfl
  | emptied hc hheld' hnil => exact hempty hc hheld' hnil
  | added =>
    obtain rfl := Option.some.inj ho
    exact .misplaced rfl hne hnot
  | firstDot =>
    obtain rfl := Option.some.inj ho
    exact .misplaced rfl hne hnot
  | stopped => cases ho

/-- Nothing that is lost is found again. -/
theorem Lossy.turn {v v' : View} (h : Lossy buf v) (hlive : v.curpos < buf.length)
    (hsemi : weight buf isSemicolon v ≤ buf.countP isSemicolon) (hturn : Turn buf v (some v')) :
    Lossy buf v' := by
  have hempty : ∀ {held : Held}, byteAt buf v.tmp = Entity.semicolon → v.held = some held →
      held.full = [] → Lossy buf v' := fun hc hheld hnil =>
    .semicolon (Nat.lt_of_lt_of_le (hturn.weight_lt hc hheld hnil) hsemi)
  cases h with
  | semicolon h => exact .semicolon (Nat.lt_of_le_of_lt (hturn.weight_le rfl (Or.inl rfl)) h)
  | byte haligned h => exact turn_byte haligned h hlive hturn hempty
  | ended hend => omega
  | broken haligned hnext hheld hfull hc hout hcount =>
    exact turn_broken haligned hnext hheld hfull hc hout hcount hturn
  | misplaced hheld hne hnot => exact turn_misplaced hheld hne hnot hturn hempty
  | mismatch hnot => exact .mismatch fun hpre => hnot (hturn.out_grows.trans hpre)

end EntState

end Caudium.Entity
