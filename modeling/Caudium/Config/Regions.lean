import Caudium.Http.ParseGot
import Caudium.Lib.Value
import Mathlib.Data.List.TakeWhile

/-!
# Configurations

A configuration has regions, and a region has variables with values. Both file formats
write a number in decimal and read it back with a cast, which is the same number
(`castInt_decimal`).
-/

namespace Caudium.Config

open Lib (Str Mapping Value)
open Http (number castInt isBlank)

/-- The variables of every region. -/
abbrev Regions := Mapping Str (Mapping Str Value)

/-- The same regions and variables, with equal values. -/
def Regions.Same (a b : Regions) : Prop :=
  ∀ r, Option.Rel (fun m m' : Mapping Str Value =>
    ∀ v, Option.Rel Value.Equal (m.lookup v) (m'.lookup v)) (a.lookup r) (b.lookup r)

/-- Every value of a variable has the property. -/
def Regions.Every (p : Value → Prop) (a : Regions) : Prop :=
  ∀ r m, a.lookup r = some m → ∀ v x, m.lookup v = some x → p x

/-- A configuration: in its values no map has the same key twice. -/
structure Configuration where
  regions : Regions
  proper : regions.Every Value.Proper

/-- The name of every region and of every variable has the property. -/
def Regions.Named (region var : Str → Prop) (a : Regions) : Prop :=
  ∀ r m, a.lookup r = some m → region r ∧ ∀ v x, m.lookup v = some x → var v

/-! ## One variable -/

/-- `([ region : ([ var : v ]) ])`. -/
def oneVariable (region var : Str) (v : Value) : Regions :=
  AList.insert region (AList.insert var v ∅) ∅

theorem lookup_oneVariable {region var k : Str} {v : Value} {m : Mapping Str Value}
    (hm : (oneVariable region var v).lookup k = some m) :
    k = region ∧ ∀ w x, m.lookup w = some x → w = var ∧ x = v := by
  rw [oneVariable, Lib.Mapping.lookup_insert_ite] at hm
  split at hm
  next hk =>
    obtain rfl := Option.some.inj hm
    exact ⟨hk, Lib.Mapping.forall_insert (fun _ _ hx => nomatch hx) ⟨rfl, rfl⟩⟩
  next => cases hm

theorem every_oneVariable {p : Value → Prop} {region var : Str} {v : Value} (h : p v) :
    (oneVariable region var v).Every p := by
  intro k m hm w x hx
  rw [((lookup_oneVariable hm).2 w x hx).2]
  exact h

theorem named_oneVariable {p q : Str → Prop} {region var : Str} {v : Value} (hp : p region)
    (hq : q var) : (oneVariable region var v).Named p q := by
  intro k m hm
  obtain ⟨rfl, hvars⟩ := lookup_oneVariable hm
  refine ⟨hp, fun w x hx => ?_⟩
  rw [(hvars w x hx).1]
  exact hq

/-! ## Numbers -/

/-- `(string)n`. -/
def decimal (n : Int) : Str :=
  if n < 0 then '-' :: Nat.toDigits 10 n.natAbs else Nat.toDigits 10 n.natAbs

theorem isDigit_of_mem {n : Nat} {c : Char} (h : c ∈ Nat.toDigits 10 n) : c.isDigit = true :=
  Nat.isDigit_of_mem_toDigits (by decide) (by decide) h

theorem number_toDigits (n : Nat) : number (Nat.toDigits 10 n) = n := by
  have hall : (Nat.toDigits 10 n).takeWhile Char.isDigit = Nat.toDigits 10 n :=
    List.takeWhile_eq_self_iff.mpr fun c hc => isDigit_of_mem hc
  rw [number, hall]
  exact Nat.ofDigitChars_eq_foldl.symm.trans Nat.ofDigitChars_ten_toDigits

theorem digit_bounds {c : Char} (h : c.isDigit = true) : 48 ≤ c.toNat ∧ c.toNat ≤ 57 := by
  rw [Char.isDigit, Bool.and_eq_true, decide_eq_true_eq, decide_eq_true_eq] at h
  exact ⟨UInt32.le_iff_toNat_le.mp h.1, UInt32.le_iff_toNat_le.mp h.2⟩

/-- A character that is no digit is not equal to one. -/
theorem digit_ne {c d : Char} (h : c.isDigit = true) (hd : d.isDigit = false) : c ≠ d := by
  intro heq
  subst heq
  rw [h] at hd
  cases hd

theorem digit_notBlank {c : Char} (h : c.isDigit = true) : isBlank c = false := by
  have hbounds := digit_bounds h
  have hspace : c ≠ ' ' := digit_ne h (by decide)
  simp [isBlank, hspace]
  omega

/-- A text that begins with a digit has no sign. -/
theorem castInt_of_digit {d : Char} (hd : d.isDigit = true) (s : Str) :
    castInt (d :: s) = number (d :: s) := by
  have hblank := digit_notBlank hd
  rw [castInt, List.dropWhile_cons_of_neg (by rw [hblank]; exact Bool.false_ne_true)]
  split
  next heq => exact absurd (List.cons.inj heq).1 (digit_ne hd (by decide))
  next heq => exact absurd (List.cons.inj heq).1 (digit_ne hd (by decide))
  next => rfl

/-- A number that was written is read back. -/
theorem castInt_decimal (n : Int) : castInt (decimal n) = n := by
  unfold decimal
  split
  next hneg =>
    have hdrop : ('-' :: Nat.toDigits 10 n.natAbs).dropWhile isBlank =
        '-' :: Nat.toDigits 10 n.natAbs := List.dropWhile_cons_of_neg (by decide)
    rw [castInt, hdrop]
    simp only [number_toDigits]
    omega
  next hpos =>
    obtain ⟨d, ds, hdigits⟩ := List.exists_cons_of_ne_nil
      (Nat.toDigits_ne_nil (n := n.natAbs) (b := 10))
    have hd : d.isDigit = true := isDigit_of_mem (hdigits ▸ List.mem_cons_self)
    have hnumber := number_toDigits n.natAbs
    rw [hdigits] at hnumber ⊢
    rw [castInt_of_digit hd, hnumber]
    omega

end Caudium.Config
