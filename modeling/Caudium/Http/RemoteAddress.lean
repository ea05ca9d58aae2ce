import Mathlib.Data.List.TakeDrop
import Caudium.Http.ParseHeaders

/-!
# The address of a client (`get_address`, `get_port`, caudium.c)

The two C functions that take the text of `query_address` apart, an address and a port with
a space between them. Both take any text of fewer than seven characters for no address at all.
`get_address` looks for the space at five places only, the sixth character from the end first,
and a NUL is a space to it.
-/

namespace Caudium.Http

open Lib (Str)

/-! ## The functions -/

/-- `!(c & 0xDF)`. -/
def blank (c : Char) : Bool := decide (c.toNat &&& 0xDF = 0)

/-- The first of the `n` places from `i` on that is blank; the loop of the source is unrolled. -/
def firstBlank (orig : Str) (i : Nat) : Nat → Option Nat
  | 0 => none
  | n + 1 => if blank (charAt orig i) then some i else firstBlank orig (i + 1) n

/-- `get_address`; `none` when `%S` throws. -/
def getAddress (src : Str) : Option Str :=
  if narrow src then
    let i := if 7 ≤ src.length then firstBlank src (src.length - 6) 5 else none
    match i with
    | some i => some (src.take i)
    | none => some "unknown".toList
  else none

/-- The last of the first `n` places that has a space. -/
def lastSpace (orig : Str) : Nat → Option Nat
  | 0 => none
  | i + 1 => if charAt orig i = ' ' then some i else lastSpace orig i

/-- `get_port`, which walks over a copy of the string. -/
def getPort (src : Str) : Option Str :=
  if narrow src then
    if src.length < 7 then some "0".toList
    else
      match lastSpace src src.length with
      | some i => some (src.drop (i + 1))
      | none => some "0".toList
  else none

/-! ## The two loops -/

theorem blank_iff {c : Char} (h : c.toNat < 256) : blank c = true ↔ c = ' ' ∨ c = '\x00' := by
  have hall : ∀ n < 256, n &&& 0xDF = 0 ↔ n = 32 ∨ n = 0 := by decide +kernel
  rw [blank, decide_eq_true_eq, hall _ h, Char.ext_iff, Char.ext_iff, ← UInt32.toNat_inj,
    ← UInt32.toNat_inj]
  rfl

theorem firstBlank_some {orig : Str} {n i j : Nat} :
    firstBlank orig i n = some j ↔
      i ≤ j ∧ j < i + n ∧ blank (charAt orig j) = true ∧
        ∀ k, i ≤ k → k < j → blank (charAt orig k) = false := by
  induction n generalizing i with
  | zero =>
    simp only [firstBlank, false_iff, reduceCtorEq]
    omega
  | succ n ih =>
    rw [firstBlank]
    cases hb : blank (charAt orig i) with
    | true =>
      simp only [if_true, Option.some.injEq]
      constructor
      · intro h
        subst h
        exact ⟨Nat.le_refl _, by omega, hb, fun k hik hki => by omega⟩
      · intro h
        obtain ⟨hij, -, -, hbefore⟩ := h
        -- the first place is blank, so none before `j` can be
        by_contra hne
        have hfalse := hbefore i (Nat.le_refl _) (by omega)
        rw [hb] at hfalse
        cases hfalse
    | false =>
      simp only [Bool.false_eq_true, if_false]
      rw [ih]
      constructor
      · intro h
        obtain ⟨hij, hjn, hj, hbefore⟩ := h
        refine ⟨by omega, by omega, hj, fun k hik hkj => ?_⟩
        by_cases hk : k = i
        · rw [hk]; exact hb
        · exact hbefore k (by omega) hkj
      · intro h
        obtain ⟨hij, hjn, hj, hbefore⟩ := h
        have hne : i ≠ j := by
          intro h
          subst h
          rw [hb] at hj
          cases hj
        exact ⟨by omega, by omega, hj, fun k hik hkj => hbefore k (by omega) hkj⟩

theorem firstBlank_none {orig : Str} {n i : Nat} (h : firstBlank orig i n = none) :
    ∀ k, i ≤ k → k < i + n → blank (charAt orig k) ≠ true := by
  induction n generalizing i with
  | zero => omega
  | succ n ih =>
    rw [firstBlank] at h
    split at h
    next => cases h
    next hb =>
      intro k hik hk
      by_cases hki : k = i
      · rw [hki]; exact hb
      · exact ih h k (by omega) (by omega)

/-- The space before a text without one is found from the end. -/
theorem lastSpace_append (a : Str) {p : Str} (hp : ' ' ∉ p) :
    ∀ {n : Nat}, a.length < n → n ≤ a.length + 1 + p.length →
      lastSpace (a ++ ' ' :: p) n = some a.length := by
  intro n
  induction n with
  | zero => omega
  | succ i ih =>
    intro hlo hhi
    rw [lastSpace]
    by_cases hi : i = a.length
    · rw [hi, charAt_append, if_pos rfl]
    · have hmem : charAt (a ++ ' ' :: p) i ∈ p := by
        have hlt : i - a.length - 1 < p.length := by omega
        have hchar : charAt (a ++ ' ' :: p) i = p[i - a.length - 1] := by
          rw [charAt_eq (by rw [List.length_append, List.length_cons]; omega),
            List.getElem_append_right (by omega), List.getElem_cons, dif_neg (by omega)]
        rw [hchar]
        exact List.getElem_mem _
      rw [if_neg fun heq : charAt (a ++ ' ' :: p) i = ' ' => hp (heq ▸ hmem)]
      exact ih (by omega) (by omega)

/-! ## An address and a port -/

variable {a p : Str}

/-- The characters of the address that `get_address` looks at before the space. -/
def lookedAt (a p : Str) : Str := a.drop (a.length + p.length - 5)

theorem narrow_append : narrow (a ++ p) = (narrow a && narrow p) := List.all_append

theorem charAt_append_left {k : Nat} (hk : k < a.length) : charAt (a ++ p) k = a[k] := by
  rw [charAt_eq (by rw [List.length_append]; omega), List.getElem_append_left hk]

theorem nul_mem_lookedAt :
    '\x00' ∈ lookedAt a p ↔
      ∃ k, a.length + p.length - 5 ≤ k ∧ ∃ hk : k < a.length, a[k] = '\x00' := by
  rw [lookedAt, List.mem_iff_getElem]
  constructor
  · intro h
    obtain ⟨j, hj, heq⟩ := h
    rw [List.length_drop] at hj
    rw [List.getElem_drop] at heq
    exact ⟨_, Nat.le_add_right _ j, by omega, heq⟩
  · intro h
    obtain ⟨k, hlo, hk, heq⟩ := h
    refine ⟨k - (a.length + p.length - 5), by rw [List.length_drop]; omega, ?_⟩
    rw [List.getElem_drop]
    simpa [Nat.add_sub_cancel' hlo] using heq

theorem getPort_eq (hn : narrow (a ++ ' ' :: p) = true) (hp : ' ' ∉ p)
    (hlen : 7 ≤ a.length + 1 + p.length) : getPort (a ++ ' ' :: p) = some p := by
  have hl : (a ++ ' ' :: p).length = a.length + 1 + p.length := by
    rw [List.length_append, List.length_cons]
    omega
  rw [getPort, if_pos hn, if_neg (by omega), hl, lastSpace_append a hp (by omega) (Nat.le_refl _)]
  show some ((a ++ ' ' :: p).drop (a.length + 1)) = some p
  rw [List.drop_append, List.drop_of_length_le (Nat.le_succ _), Nat.add_sub_cancel_left]
  rfl

/-- With seven characters and a port of at most five digits, the space is found unless a NUL is
found before it. -/
theorem getAddress_eq (hn : narrow (a ++ ' ' :: p) = true) (ha : ' ' ∉ a)
    (hlen : 7 ≤ a.length + 1 + p.length) (hp : 0 < p.length) (hport : p.length ≤ 5) :
    getAddress (a ++ ' ' :: p) = some a ↔ '\x00' ∉ lookedAt a p := by
  have hl : (a ++ ' ' :: p).length = a.length + 1 + p.length := by
    rw [List.length_append, List.length_cons]
    omega
  -- before the space there are the characters of the address
  have hbefore : ∀ k, ∀ hk : k < a.length,
      (blank (charAt (a ++ ' ' :: p) k) = true ↔ a[k] = '\x00') := by
    intro k hk
    rw [narrow_append, Bool.and_eq_true, narrow, List.all_eq_true] at hn
    rw [charAt_append_left hk, blank_iff (of_decide_eq_true (hn.1 _ (List.getElem_mem hk))),
      or_iff_right fun heq : a[k] = ' ' => ha (heq ▸ List.getElem_mem hk)]
  have hspace : blank (charAt (a ++ ' ' :: p) a.length) = true := by
    rw [charAt_append]
    rfl
  rw [getAddress, if_pos hn, hl, if_pos hlen, nul_mem_lookedAt]
  cases hfirst : firstBlank (a ++ ' ' :: p) (a.length + 1 + p.length - 6) 5 with
  | none =>
    -- the space itself is one of the five places
    exfalso
    exact firstBlank_none hfirst a.length (by omega) (by omega) hspace
  | some j =>
    obtain ⟨hlo, hhi, hj, hmin⟩ := firstBlank_some.1 hfirst
    have hle : j ≤ a.length := by
      by_contra hlt
      have hfalse := hmin a.length (by omega) (by omega)
      rw [hspace] at hfalse
      cases hfalse
    show some ((a ++ ' ' :: p).take j) = some a ↔ _
    rw [Option.some.injEq, List.take_append_of_le_length hle, List.take_eq_self_iff]
    constructor
    · intro hge h
      obtain ⟨k, hk, hka, hnul⟩ := h
      have hfalse := hmin k (by omega) (by omega)
      rw [(hbefore k hka).mpr hnul] at hfalse
      cases hfalse
    · intro hnone
      by_contra hlt
      have hja : j < a.length := by omega
      exact hnone ⟨j, by omega, hja, (hbefore j hja).mp hj⟩

/-! ## All addresses and ports -/

/-- The text of a port. -/
def portText (n : Nat) : Str := Nat.toDigits 10 n

theorem portText_length {n : Nat} (h : n ≤ 65535) :
    0 < (portText n).length ∧ (portText n).length ≤ 5 :=
  ⟨Nat.length_toDigits_pos, (Nat.length_toDigits_le_iff (by omega) (by omega)).mpr (by omega)⟩

theorem digit_of_portText {n : Nat} {c : Char} (h : c ∈ portText n) : c.isDigit = true :=
  Nat.isDigit_of_mem_toDigits (by omega) (by omega) h

theorem space_not_mem_portText (n : Nat) : ' ' ∉ portText n := fun h =>
  absurd (digit_of_portText h) (by decide)

theorem narrow_portText (n : Nat) : narrow (portText n) = true := by
  rw [narrow, List.all_eq_true]
  intro c hc
  have hdigit := digit_of_portText hc
  rw [Char.isDigit, Bool.and_eq_true] at hdigit
  have hle : c.val ≤ 57 := of_decide_eq_true hdigit.2
  exact decide_eq_true (lt_of_le_of_lt (UInt32.le_iff_toNat_le.mp hle) (by decide))

theorem narrow_text (a : Str) (n : Nat) : narrow (a ++ ' ' :: portText n) = narrow a := by
  rw [narrow_append, show narrow (' ' :: portText n) = narrow (portText n) from rfl,
    narrow_portText, Bool.and_true]

/-- Fewer than seven characters are no address, whatever they are. -/
theorem unknown_of_short {src : Str} (hn : narrow src = true) (h : src.length < 7) :
    getAddress src = some "unknown".toList ∧ getPort src = some "0".toList := by
  constructor
  · rw [getAddress, if_pos hn, if_neg (by omega)]
  · rw [getPort, if_pos hn, if_pos h]

/-- **Which addresses are read back.** The text of an address without spaces, a space and a port
give the address and the port again if and only if they have no wide characters, are seven
characters or more, and the address has no NUL where the space is looked for. Of a text of fewer
than seven characters come "unknown" and "0". -/
theorem address_and_port_iff (a : Str) (ha : ' ' ∉ a) (n : Nat) (h : n ≤ 65535) :
    ((getAddress (a ++ ' ' :: portText n) = some a ∧
        getPort (a ++ ' ' :: portText n) = some (portText n)) ↔
      narrow a = true ∧ 7 ≤ a.length + 1 + (portText n).length ∧
        '\x00' ∉ lookedAt a (portText n)) ∧
    (narrow a = true → a.length + 1 + (portText n).length < 7 →
      getAddress (a ++ ' ' :: portText n) = some "unknown".toList ∧
      getPort (a ++ ' ' :: portText n) = some "0".toList) := by
  obtain ⟨hpos, hfive⟩ := portText_length h
  have hl : (a ++ ' ' :: portText n).length = a.length + 1 + (portText n).length := by
    rw [List.length_append, List.length_cons]
    omega
  have hshort : narrow a = true → a.length + 1 + (portText n).length < 7 →
      getAddress (a ++ ' ' :: portText n) = some "unknown".toList ∧
      getPort (a ++ ' ' :: portText n) = some "0".toList := fun hn hlt =>
    unknown_of_short ((narrow_text a n).trans hn) (hl ▸ hlt)
  refine ⟨⟨?_, ?_⟩, hshort⟩
  · intro hand
    obtain ⟨haddress, hport⟩ := hand
    have hn : narrow a = true := by
      by_contra hwide
      rw [getAddress, if_neg (narrow_text a n ▸ hwide)] at haddress
      cases haddress
    have hlen : 7 ≤ a.length + 1 + (portText n).length := by
      by_contra hlt
      -- an address that is given back as "unknown" has seven characters itself
      have hsame := Option.some.inj ((hshort hn (by omega)).1.symm.trans haddress)
      rw [← hsame] at hlt
      exact hlt (Nat.le_trans (by decide) (Nat.le_add_right _ _))
    exact ⟨hn, hlen, (getAddress_eq ((narrow_text a n).trans hn) ha hlen hpos hfive).mp haddress⟩
  · intro hand
    obtain ⟨hn, hlen, hnul⟩ := hand
    exact ⟨(getAddress_eq ((narrow_text a n).trans hn) ha hlen hpos hfive).mpr hnul,
      getPort_eq ((narrow_text a n).trans hn) (space_not_mem_portText n) hlen⟩

theorem loopback_read_back :
    getAddress "127.0.0.1 80".toList = some "127.0.0.1".toList ∧
      getPort "127.0.0.1 80".toList = some (portText 80) :=
  (address_and_port_iff "127.0.0.1".toList (by decide) 80 (by decide)).1.mpr
    ⟨by decide, by decide, by decide⟩

/-- The loopback address of IPv6 and the port 80 are one character too short. -/
theorem short_address_unknown :
    ¬ ∀ (a : Str) (n : Nat), a ≠ [] → ' ' ∉ a → n ≤ 65535 →
      getAddress (a ++ ' ' :: portText n) = some a ∧
      getPort (a ++ ' ' :: portText n) = some (portText n) := by
  intro h
  have hall := (h "::1".toList 80 (by decide) (by decide) (by decide)).2
  exact absurd hall (by decide)

end Caudium.Http
