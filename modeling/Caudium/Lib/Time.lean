import Caudium.Lib.Mapping
import Mathlib.Algebra.Group.Int.Defs

/-!
# Broken-down times

A `Tm` is a date and a time of day. `utc` is the number of seconds from the start of 1970
to it, by the formula of POSIX: every day has 86400 of them. `strptime` reads a `Tm` from a
string by a format, field by field; it asks each field to be in its range, but not the day
of the month to be there in that month (`Valid`). `mktime` takes a `Tm` for a local time.
-/

namespace Lib

/-- A broken-down time. `mon` counts from 0, `year` from 1900. -/
structure Tm where
  sec : Int
  min : Int
  hour : Int
  mday : Int
  mon : Int
  year : Int
  deriving DecidableEq, Repr

namespace Tm

/-- The start of 1970. -/
def epoch : Tm := ⟨0, 0, 0, 1, 0, 70⟩

/-- `year`, counted from 1900, is a leap year of the Gregorian calendar. -/
def leap (year : Int) : Bool := year % 4 = 0 && (year % 100 ≠ 0 || (year + 300) % 400 = 0)

/-- The number of days before month `mon` of a year that is no leap year. -/
def daysBefore : Nat → Nat
  | 0 => 0
  | 1 => 31
  | 2 => 59
  | 3 => 90
  | 4 => 120
  | 5 => 151
  | 6 => 181
  | 7 => 212
  | 8 => 243
  | 9 => 273
  | 10 => 304
  | 11 => 334
  | _ => 365

/-- The length of a month. -/
def daysIn (year mon : Int) : Nat :=
  daysBefore (mon.toNat + 1) - daysBefore mon.toNat + if mon = 1 && leap year then 1 else 0

/-- The day of the year, counted from 0. -/
def yday (t : Tm) : Int :=
  daysBefore t.mon.toNat + (if 2 ≤ t.mon && leap t.year then 1 else 0) + t.mday - 1

/-- The seconds since the epoch. -/
def utc (t : Tm) : Int :=
  t.sec + t.min * 60 + t.hour * 3600 + t.yday * 86400 + (t.year - 70) * 31536000
    + (t.year - 69) / 4 * 86400 - (t.year - 1) / 100 * 86400 + (t.year + 299) / 400 * 86400

/-- It is a date of the calendar, and a time of day. -/
structure Valid (t : Tm) : Prop where
  sec : 0 ≤ t.sec ∧ t.sec ≤ 60
  min : 0 ≤ t.min ∧ t.min ≤ 59
  hour : 0 ≤ t.hour ∧ t.hour ≤ 23
  mon : 0 ≤ t.mon ∧ t.mon ≤ 11
  mday : 1 ≤ t.mday ∧ t.mday ≤ daysIn t.year t.mon

instance (t : Tm) : Decidable t.Valid :=
  decidable_of_iff ((0 ≤ t.sec ∧ t.sec ≤ 60) ∧ (0 ≤ t.min ∧ t.min ≤ 59) ∧ (0 ≤ t.hour ∧ t.hour ≤ 23)
      ∧ (0 ≤ t.mon ∧ t.mon ≤ 11) ∧ (1 ≤ t.mday ∧ t.mday ≤ daysIn t.year t.mon))
    ⟨fun ⟨a, b, c, d, e⟩ => ⟨a, b, c, d, e⟩, fun ⟨a, b, c, d, e⟩ => ⟨a, b, c, d, e⟩⟩

example : utc ⟨37, 49, 8, 6, 10, 94⟩ = 784111777 := by decide

theorem yday_nonneg {t : Tm} (h : 1 ≤ t.mday) : 0 ≤ t.yday := by
  unfold yday
  split <;> omega

/-- A valid time put into a year that is `n` years after 1970, or later, is at least so many
years of 365 days after the epoch. -/
theorem Valid.le_utc {t : Tm} (h : t.Valid) {year : Int} {n : Nat} (hy : 70 + n ≤ year) :
    31536000 * n ≤ utc { t with year := year } := by
  have hd : 0 ≤ yday { t with year := year } := yday_nonneg h.mday.1
  obtain ⟨hs, -⟩ := h.sec
  obtain ⟨hm, -⟩ := h.min
  obtain ⟨hh, -⟩ := h.hour
  simp only [utc]
  omega

/-! ### Fields -/

/-- The fields of a `Tm`. -/
inductive Field where
  | sec
  | min
  | hour
  | mday
  | mon
  | year
  deriving DecidableEq, Repr

def get (t : Tm) : Field → Int
  | .sec => t.sec
  | .min => t.min
  | .hour => t.hour
  | .mday => t.mday
  | .mon => t.mon
  | .year => t.year

def set (t : Tm) (f : Field) (v : Int) : Tm :=
  match f with
  | .sec => { t with sec := v }
  | .min => { t with min := v }
  | .hour => { t with hour := v }
  | .mday => { t with mday := v }
  | .mon => { t with mon := v }
  | .year => { t with year := v }

@[simp] theorem get_set_self (t : Tm) (f : Field) (v : Int) : (t.set f v).get f = v := by
  cases f <;> rfl

theorem get_set_of_ne {f g : Field} (h : g ≠ f) (t : Tm) (v : Int) :
    (t.set f v).get g = t.get g := by
  cases f <;> cases g <;> first | rfl | exact absurd rfl h

theorem ext_get {t u : Tm} (h : ∀ f, t.get f = u.get f) : t = u := by
  have h1 := h .sec
  have h2 := h .min
  have h3 := h .hour
  have h4 := h .mday
  have h5 := h .mon
  have h6 := h .year
  cases t
  cases u
  simp only [get] at h1 h2 h3 h4 h5 h6
  rw [h1, h2, h3, h4, h5, h6]

/-- The two times have the same values in these fields. -/
def Agree (fs : List Field) (t u : Tm) : Prop := ∀ f ∈ fs, t.get f = u.get f

theorem Agree.set {fs : List Field} {t u : Tm} (h : Agree fs t u) (f : Field) (v : Int) :
    Agree (f :: fs) (t.set f v) (u.set f v) := by
  intro g hg
  by_cases hgf : g = f
  · rw [hgf, get_set_self, get_set_self]
  · rw [get_set_of_ne hgf, get_set_of_ne hgf]
    exact h g (List.mem_of_ne_of_mem hgf hg)

end Tm

/-! ## Reading -/

def isSpace (c : Char) : Bool := c = ' ' || (9 ≤ c.toNat && c.toNat ≤ 13)

/-- The value of a digit. -/
def digit? (c : Char) : Option Nat :=
  if 48 ≤ c.toNat ∧ c.toNat ≤ 57 then some (c.toNat - 48) else none

/-- At most `n` more digits, as long as the number `v` that they make may still be at most
`hi`. -/
def digits (hi : Nat) : Nat → Nat → Str → Nat × Str
  | 0, v, s => (v, s)
  | _, v, [] => (v, [])
  | n + 1, v, c :: s =>
    match digit? c with
    | some d => if v * 10 ≤ hi then digits hi n (v * 10 + d) s else (v, c :: s)
    | none => (v, c :: s)

/-- A number of at most `n` digits from `lo` to `hi`, with blanks in front. -/
def readNumber (lo hi n : Nat) (s : Str) : Option (Nat × Str) :=
  let s := s.dropWhile (· = ' ')
  if (s.head?.bind digit?).isSome then
    let (v, rest) := digits hi n 0 s
    if lo ≤ v ∧ v ≤ hi then some (v, rest) else none
  else none

def lower (c : Char) : Char :=
  if 65 ≤ c.toNat ∧ c.toNat ≤ 90 then Char.ofNat (c.toNat + 32) else c

/-- What follows `name` in `s`, if `s` starts with it in upper or lower case. -/
def afterName : (name s : Str) → Option Str
  | [], s => some s
  | _, [] => none
  | x :: name, c :: s => if lower x = lower c then afterName name s else none

/-- The first of the names, counted from `k`, that `s` starts with, whole or its first three
letters. -/
def readName : (names : List Str) → (k : Nat) → Str → Option (Nat × Str)
  | [], _, _ => none
  | name :: names, k, s =>
    match afterName name s <|> afterName (name.take 3) s with
    | some rest => some (k, rest)
    | none => readName names (k + 1) s

def weekdays : List Str :=
  ["Sunday".toList, "Monday".toList, "Tuesday".toList, "Wednesday".toList, "Thursday".toList,
    "Friday".toList, "Saturday".toList]

def months : List Str :=
  ["January".toList, "February".toList, "March".toList, "April".toList, "May".toList,
    "June".toList, "July".toList, "August".toList, "September".toList, "October".toList,
    "November".toList, "December".toList]

/-- The year of a century that two digits stand for. -/
def centuryYear (v : Nat) : Int := if v < 69 then v + 100 else v

/-- One conversion. The names are those of the POSIX locale; the weekday is not kept. -/
def convert (c : Char) (s : Str) (t : Tm) : Option (Str × Tm) :=
  match c with
  | 'a' | 'A' => (readName weekdays 0 s).map fun (_, s) => (s, t)
  | 'b' | 'B' | 'h' => (readName months 0 s).map fun (v, s) => (s, t.set .mon v)
  | 'd' | 'e' => (readNumber 1 31 2 s).map fun (v, s) => (s, t.set .mday v)
  | 'H' => (readNumber 0 23 2 s).map fun (v, s) => (s, t.set .hour v)
  | 'm' => (readNumber 1 12 2 s).map fun (v, s) => (s, t.set .mon (v - 1))
  | 'M' => (readNumber 0 59 2 s).map fun (v, s) => (s, t.set .min v)
  | 'S' => (readNumber 0 60 2 s).map fun (v, s) => (s, t.set .sec v)
  | 'y' => (readNumber 0 99 2 s).map fun (v, s) => (s, t.set .year (centuryYear v))
  | 'Y' => (readNumber 0 9999 4 s).map fun (v, s) => (s, t.set .year (v - 1900))
  | _ => none

/-- What follows a character of the format: white space stands for any. -/
def literal (c : Char) (s : Str) : Option Str :=
  if isSpace c then some (s.dropWhile isSpace)
  else match s with
    | x :: s => if x = c then some s else none
    | [] => none

/-- What is left of `s` after the format, and the time that was read over `t`. -/
def strptime : (fmt s : Str) → Tm → Option (Str × Tm)
  | [], s, t => some (s, t)
  | ['%'], _, _ => none
  | '%' :: c :: fmt, s, t =>
    match convert c s t with
    | some (s, t) => strptime fmt s t
    | none => none
  | c :: fmt, s, t =>
    match literal c s with
    | some s => strptime fmt s t
    | none => none

/-! ### What a format sets -/

open Tm (Field Agree)

/-- The field that a conversion sets. -/
def field? (c : Char) : Option Field :=
  match c with
  | 'b' | 'B' | 'h' | 'm' => some .mon
  | 'd' | 'e' => some .mday
  | 'H' => some .hour
  | 'M' => some .min
  | 'S' => some .sec
  | 'y' | 'Y' => some .year
  | _ => none

/-- The fields that a format sets. -/
def fields : (fmt : Str) → List Field
  | [] => []
  | ['%'] => []
  | '%' :: c :: fmt => fields fmt ++ (field? c).toList
  | _ :: fmt => fields fmt

/-- Two ends of a reading: the same rest, and times that agree in these fields. -/
def SameRead (fs : List Field) (r r' : Str × Tm) : Prop := r.1 = r'.1 ∧ Agree fs r.2 r'.2

theorem sameRead_map {f : Field} {fs : List Field} {t u : Tm} (h : Agree fs t u)
    (value : Nat → Int) (r : Option (Nat × Str)) :
    Option.Rel (SameRead (f :: fs)) (r.map fun p => (p.2, t.set f (value p.1)))
      (r.map fun p => (p.2, u.set f (value p.1))) := by
  cases r with
  | none => exact .none
  | some p => exact .some ⟨rfl, h.set f _⟩

theorem convert_agree {c : Char} {s : Str} {t u : Tm} {fs : List Field} (h : Agree fs t u) :
    Option.Rel (SameRead ((field? c).toList ++ fs)) (convert c s t) (convert c s u) := by
  unfold convert
  split
  -- the names of the days, and what is no conversion
  case h_1 | h_2 =>
    cases readName weekdays 0 s with
    | none => exact .none
    | some p => exact .some ⟨rfl, h⟩
  case h_14 => exact .none
  case h_9 => exact sameRead_map h (fun v => v - 1) _
  case h_12 => exact sameRead_map h centuryYear _
  case h_13 => exact sameRead_map h (fun v => v - 1900) _
  all_goals exact sameRead_map h (fun v => v) _

theorem strptime_agree {fmt s : Str} {t u : Tm} {fs : List Field} (h : Agree fs t u) :
    Option.Rel (SameRead (fields fmt ++ fs)) (strptime fmt s t) (strptime fmt s u) := by
  fun_induction fields fmt generalizing s t u fs with
  | case1 => exact .some ⟨rfl, h⟩
  | case2 => exact .none
  | case3 c fmt ih =>
    have hc := convert_agree (c := c) (s := s) h
    simp only [strptime]
    revert hc
    generalize convert c s t = r
    generalize convert c s u = r'
    intro hor
    obtain ⟨h1, h2⟩ | _ := hor
    · rw [List.append_assoc]
      simp only [h1]
      exact ih h2
    · exact .none
  | case4 c fmt h1 h2 ih =>
    rw [strptime, strptime]
    · cases literal c s with
      | none => exact .none
      | some s => exact ih h
    all_goals assumption

/-- A format that sets every field reads the same whatever was there. -/
theorem strptime_any {fmt : Str} (hall : ∀ f, f ∈ fields fmt) (s : Str) (t u : Tm) :
    strptime fmt s t = strptime fmt s u := by
  have h : Option.Rel (SameRead (fields fmt ++ [])) (strptime fmt s t) (strptime fmt s u) :=
    strptime_agree nofun
  revert h
  generalize strptime fmt s t = r
  generalize strptime fmt s u = r'
  intro hor
  obtain ⟨h1, h2⟩ | _ := hor
  · exact congrArg some (Prod.ext h1 (Tm.ext_get fun f => h2 f (List.mem_append_left _ (hall f))))
  · rfl

/-! ## Local time -/

/-- What the server knows of its zone and of its `time_t`. -/
structure Zone where
  /-- How many seconds the local time `t` is ahead, given `tm_isdst`. -/
  gmtoff : Tm → Int → Int
  /-- The first and the last value of `time_t`. -/
  minTime : Int
  maxTime : Int

/-- `mktime`: -1 if the time has no `time_t`. -/
def Zone.mktime (z : Zone) (t : Tm) (isdst : Int) : Int :=
  let time := t.utc - z.gmtoff t isdst
  if z.minTime ≤ time ∧ time ≤ z.maxTime then time else -1

/-- Greenwich, with a `time_t` of 64 bits. -/
def Zone.greenwich : Zone := ⟨fun _ _ => 0, -2 ^ 63, 2 ^ 63 - 1⟩

/-- The local time is a `time_t` of 1970 or later. -/
def Zone.Represents (z : Zone) (t : Tm) (isdst time : Int) : Prop :=
  t.utc - z.gmtoff t isdst = time ∧ z.minTime ≤ time ∧ time ≤ z.maxTime ∧ 0 ≤ time

theorem Zone.represents_iff {z : Zone} {t : Tm} {isdst time : Int} :
    z.Represents t isdst time ↔ z.mktime t isdst = time ∧ 0 ≤ time := by
  unfold Represents mktime
  simp only
  constructor
  · intro hand
    obtain ⟨h, hmin, hmax, h0⟩ := hand
    rw [if_pos (by omega)]
    exact ⟨h, h0⟩
  · intro hand
    obtain ⟨h, h0⟩ := hand
    split at h <;> omega

end Lib
