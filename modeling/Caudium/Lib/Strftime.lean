import Caudium.Lib.Time
import Mathlib.Tactic.FinCases
import Mathlib.Tactic.IntervalCases

/-!
# Writing broken-down times

`strftime` writes a `Tm` by a format, and `strptime` reads it back by the same format
(`strptime_strftime`), if no name is followed by what could belong to it (`readable`), and the year
has four digits.
-/

namespace Lib

open Tm (Field Agree)

/-- `%02d`, for a number of at most two digits. -/
def twoDigits (n : Nat) : Str := [Nat.digitChar (n / 10), Nat.digitChar (n % 10)]

def yearText (y : Int) : Str :=
  if 0 ≤ y then Nat.toDigits 10 y.toNat else '-' :: Nat.toDigits 10 (-y).toNat

/-- What is written for a conversion; `wday` counts from Sunday. -/
def written (c : Char) (t : Tm) (wday : Nat) : Str :=
  match c with
  | 'a' => (weekdays.getD wday []).take 3
  | 'b' => (months.getD t.mon.toNat []).take 3
  | 'd' => twoDigits t.mday.toNat
  | 'H' => twoDigits t.hour.toNat
  | 'M' => twoDigits t.min.toNat
  | 'S' => twoDigits t.sec.toNat
  | 'Y' => yearText (t.year + 1900)
  | _ => []

/-- `strftime`, for the conversions of `written`. -/
def strftime : (fmt : Str) → Tm → (wday : Nat) → Str
  | [], _, _ => []
  | ['%'], _, _ => []
  | '%' :: c :: fmt, t, wday => written c t wday ++ strftime fmt t wday
  | c :: fmt, t, wday => c :: strftime fmt t wday

/-- What is written by the format can be read by it: there are only conversions that are written,
behind a name there is a character that ends it, and behind a blank there is none. -/
def readable : (fmt : Str) → Bool
  | [] => true
  | ['%'] => false
  | '%' :: c :: fmt =>
    (decide (c ∈ ['d', 'H', 'M', 'S', 'Y']) ||
      decide (c ∈ ['a', 'b']) && fmt.head?.any fun d => decide (d ∈ [' ', ','])) && readable fmt
  | c :: fmt =>
    (!isSpace c || fmt.head?.any fun d => decide (d = '%')) && readable fmt

variable {fmt : Str} {c : Char}

/-- A character that is no '%' stands for itself. -/
theorem not_conversion (hc : c ≠ '%') :
    (c = '%' → fmt = [] → False) ∧ ∀ c' fmt', c = '%' → fmt = c' :: fmt' → False :=
  ⟨fun h _ => hc h, fun _ _ h _ => hc h⟩

theorem ne_percent (hone : c = '%' → fmt = [] → False)
    (hconv : ∀ c' fmt', c = '%' → fmt = c' :: fmt' → False) : c ≠ '%' := by
  intro hc
  cases fmt with
  | nil => exact hone hc rfl
  | cons c' fmt => exact hconv c' fmt hc rfl

theorem strftime_cons (hc : c ≠ '%') (t : Tm) (wday : Nat) :
    strftime (c :: fmt) t wday = c :: strftime fmt t wday :=
  strftime.eq_4 t wday c fmt (not_conversion hc).1 (not_conversion hc).2

theorem readable_cons (hc : c ≠ '%') : readable (c :: fmt) =
    ((!isSpace c || fmt.head?.any fun d => decide (d = '%')) && readable fmt) :=
  readable.eq_4 c fmt (not_conversion hc).1 (not_conversion hc).2

theorem fields_cons (hc : c ≠ '%') : fields (c :: fmt) = fields fmt :=
  fields.eq_4 c fmt (not_conversion hc).1 (not_conversion hc).2

theorem strptime_cons (hc : c ≠ '%') (s : Str) (t : Tm) : strptime (c :: fmt) s t =
    match literal c s with
    | some s => strptime fmt s t
    | none => none :=
  strptime.eq_4 s t c fmt (not_conversion hc).1 (not_conversion hc).2

/-! ## Numbers -/

theorem digit?_digitChar {d : Nat} (h : d < 10) : digit? (Nat.digitChar d) = some d := by
  have hall : ∀ d : Fin 10, digit? (Nat.digitChar d) = some d.val := by decide
  exact hall ⟨d, h⟩

theorem digitChar_ne_blank {d : Nat} (h : d < 10) : Nat.digitChar d ≠ ' ' := by
  have hall : ∀ d : Fin 10, Nat.digitChar d ≠ ' ' := by decide
  exact hall ⟨d, h⟩

theorem digits_digitChar {hi n v d : Nat} (hd : d < 10) (hv : v * 10 ≤ hi) (s : Str) :
    digits hi (n + 1) v (Nat.digitChar d :: s) = digits hi n (v * 10 + d) s := by
  rw [digits, digit?_digitChar hd]
  exact if_pos hv

theorem readNumber_digitChar {lo hi n d v : Nat} {s rest : Str} (hd : d < 10)
    (h : digits hi n 0 (Nat.digitChar d :: s) = (v, rest)) (hlo : lo ≤ v) (hhi : v ≤ hi) :
    readNumber lo hi n (Nat.digitChar d :: s) = some (v, rest) := by
  have hdigit : (((Nat.digitChar d :: s).head?.bind digit?).isSome) = true := by
    rw [List.head?_cons, Option.bind_some, digit?_digitChar hd]
    rfl
  unfold readNumber
  rw [List.dropWhile_cons_of_neg (by simp [digitChar_ne_blank hd])]
  dsimp only
  rw [if_pos hdigit, h]
  exact if_pos ⟨hlo, hhi⟩

theorem readNumber_twoDigits {lo hi n : Nat} (hlo : lo ≤ n) (hhi : n ≤ hi) (hn : n < 100)
    (s : Str) : readNumber lo hi 2 (twoDigits n ++ s) = some (n, s) := by
  have hten : n / 10 < 10 := by omega
  have hone : n % 10 < 10 := by omega
  refine readNumber_digitChar hten ?_ hlo hhi
  show digits hi 2 0 (Nat.digitChar (n / 10) :: Nat.digitChar (n % 10) :: s) = (n, s)
  rw [digits_digitChar hten (by omega), digits_digitChar hone (by omega),
    show (0 * 10 + n / 10) * 10 + n % 10 = n by omega]
  rfl

theorem toDigits_four {n : Nat} (hlo : 1000 ≤ n) (hhi : n ≤ 9999) :
    Nat.toDigits 10 n = [Nat.digitChar (n / 10 / 10 / 10), Nat.digitChar (n / 10 / 10 % 10),
      Nat.digitChar (n / 10 % 10), Nat.digitChar (n % 10)] := by
  rw [Nat.toDigits_of_base_le (by omega) (by omega), Nat.toDigits_of_base_le (by omega) (by omega),
    Nat.toDigits_of_base_le (by omega) (by omega), Nat.toDigits_of_lt_base (by omega)]
  rfl

theorem readNumber_year {n : Nat} (hlo : 1000 ≤ n) (hhi : n ≤ 9999) (s : Str) :
    readNumber 0 9999 4 (Nat.toDigits 10 n ++ s) = some (n, s) := by
  rw [toDigits_four hlo hhi]
  refine readNumber_digitChar (by omega) ?_ (Nat.zero_le n) hhi
  show digits 9999 4 0 (Nat.digitChar (n / 10 / 10 / 10) :: Nat.digitChar (n / 10 / 10 % 10) ::
    Nat.digitChar (n / 10 % 10) :: Nat.digitChar (n % 10) :: s) = (n, s)
  rw [digits_digitChar (by omega) (by omega), digits_digitChar (by omega) (by omega),
    digits_digitChar (by omega) (by omega), digits_digitChar (by omega) (by omega),
    show (((0 * 10 + n / 10 / 10 / 10) * 10 + n / 10 / 10 % 10) * 10 + n / 10 % 10) * 10 + n % 10 =
      n by omega]
  rfl

/-! ## Names -/

/-- The first three letters of a name are read as that name, up to a character that ends it. -/
theorem readName_weekday {wday : Nat} (h : wday < 7) {c : Char} (hc : c ∈ [' ', ',']) (s : Str) :
    readName weekdays 0 ((weekdays.getD wday []).take 3 ++ c :: s) = some (wday, c :: s) := by
  fin_cases hc
  · interval_cases wday <;> rfl
  · interval_cases wday <;> rfl

theorem readName_month {mon : Nat} (h : mon < 12) {c : Char} (hc : c ∈ [' ', ',']) (s : Str) :
    readName months 0 ((months.getD mon []).take 3 ++ c :: s) = some (mon, c :: s) := by
  fin_cases hc
  · interval_cases mon <;> rfl
  · interval_cases mon <;> rfl

/-! ## A format -/

theorem daysIn_le (year mon : Int) (h : 0 ≤ mon ∧ mon ≤ 11) : Tm.daysIn year mon ≤ 31 := by
  obtain ⟨hlo, hhi⟩ := h
  unfold Tm.daysIn
  interval_cases mon
  all_goals
    cases Tm.leap year
    · decide
    · decide

/-- The conversion reads what was written for it, and what follows is left. -/
theorem convert_written {t u : Tm} {wday : Nat} {fs : List Field} (ht : t.Valid)
    (hyear : 1000 ≤ t.year + 1900 ∧ t.year + 1900 ≤ 9999) (hwday : wday < 7) (hu : Agree fs u t)
    {c : Char} {s : Str} (hc : c ∈ ['d', 'H', 'M', 'S', 'Y'] ∨
      c ∈ ['a', 'b'] ∧ ∃ d ∈ s.head?, d ∈ [' ', ',']) :
    ∃ u', convert c (written c t wday ++ s) u = some (s, u') ∧
      Agree ((field? c).toList ++ fs) u' t := by
  have hset : ∀ (f : Field) (v : Int), v = t.get f → Agree (f :: fs) (u.set f v) t := by
    intro f v hv
    have hsame : t.set f v = t := by
      rw [hv]
      cases f <;> rfl
    rw [← hsame]
    exact hu.set f v
  obtain ⟨hsec, hmin, hhour, hmon, hmday⟩ := ht
  have hlen : Tm.daysIn t.year t.mon ≤ 31 := daysIn_le t.year t.mon hmon
  obtain hc | ⟨hc, d, hd, hends⟩ := hc
  · fin_cases hc
    · refine ⟨u.set .mday t.mday.toNat, ?_, hset .mday _ (Int.toNat_of_nonneg (by omega))⟩
      show (readNumber 1 31 2 (twoDigits t.mday.toNat ++ s)).map _ = _
      rw [readNumber_twoDigits (by omega) (by omega) (by omega)]
      rfl
    · refine ⟨u.set .hour t.hour.toNat, ?_, hset .hour _ (Int.toNat_of_nonneg (by omega))⟩
      show (readNumber 0 23 2 (twoDigits t.hour.toNat ++ s)).map _ = _
      rw [readNumber_twoDigits (by omega) (by omega) (by omega)]
      rfl
    · refine ⟨u.set .min t.min.toNat, ?_, hset .min _ (Int.toNat_of_nonneg (by omega))⟩
      show (readNumber 0 59 2 (twoDigits t.min.toNat ++ s)).map _ = _
      rw [readNumber_twoDigits (by omega) (by omega) (by omega)]
      rfl
    · refine ⟨u.set .sec t.sec.toNat, ?_, hset .sec _ (Int.toNat_of_nonneg (by omega))⟩
      show (readNumber 0 60 2 (twoDigits t.sec.toNat ++ s)).map _ = _
      rw [readNumber_twoDigits (by omega) (by omega) (by omega)]
      rfl
    · have hvalue : ((t.year + 1900).toNat : Int) - 1900 = t.year := by omega
      refine ⟨u.set .year ((t.year + 1900).toNat - 1900), ?_, hset .year _ hvalue⟩
      show (readNumber 0 9999 4 (yearText (t.year + 1900) ++ s)).map _ = _
      rw [yearText, if_pos (by omega), readNumber_year (by omega) (by omega)]
      rfl
  · obtain ⟨s, rfl⟩ : ∃ s', s = d :: s' := by
      cases s with
      | nil => cases hd
      | cons d' s =>
        cases hd
        exact ⟨s, rfl⟩
    fin_cases hc
    · refine ⟨u, ?_, hu⟩
      show (readName weekdays 0 ((weekdays.getD wday []).take 3 ++ d :: s)).map _ = _
      rw [readName_weekday hwday hends]
      rfl
    · refine ⟨u.set .mon t.mon.toNat, ?_, hset .mon _ (Int.toNat_of_nonneg hmon.1)⟩
      show (readName months 0 ((months.getD t.mon.toNat []).take 3 ++ d :: s)).map _ = _
      rw [readName_month (by omega) hends]
      rfl

theorem not_isSpace_digitChar {d : Nat} (h : d < 10) : isSpace (Nat.digitChar d) = false := by
  interval_cases d <;> rfl

/-- What is written for a conversion does not begin with a blank. -/
theorem dropWhile_written {t : Tm} {wday : Nat} (ht : t.Valid)
    (hyear : 1000 ≤ t.year + 1900 ∧ t.year + 1900 ≤ 9999) (hwday : wday < 7) {c : Char}
    (hc : c ∈ ['d', 'H', 'M', 'S', 'Y', 'a', 'b']) (s : Str) :
    (written c t wday ++ s).dropWhile isSpace = written c t wday ++ s := by
  obtain ⟨hsec, hmin, hhour, hmon, hmday⟩ := ht
  have hlen := daysIn_le t.year t.mon hmon
  have htwo : ∀ n : Nat, n < 100 → (twoDigits n ++ s).dropWhile isSpace = twoDigits n ++ s :=
    fun n hn => List.dropWhile_cons_of_neg (by
      rw [not_isSpace_digitChar (by omega)]
      exact Bool.false_ne_true)
  fin_cases hc
  · exact htwo _ (by omega)
  · exact htwo _ (by omega)
  · exact htwo _ (by omega)
  · exact htwo _ (by omega)
  · show (yearText (t.year + 1900) ++ s).dropWhile isSpace = yearText (t.year + 1900) ++ s
    rw [yearText, if_pos (by omega), toDigits_four (by omega) (by omega)]
    refine List.dropWhile_cons_of_neg ?_
    rw [not_isSpace_digitChar (by omega)]
    exact Bool.false_ne_true
  · show ((weekdays.getD wday []).take 3 ++ s).dropWhile isSpace =
      (weekdays.getD wday []).take 3 ++ s
    interval_cases wday <;> rfl
  · show ((months.getD t.mon.toNat []).take 3 ++ s).dropWhile isSpace =
      (months.getD t.mon.toNat []).take 3 ++ s
    obtain ⟨hlo, hhi⟩ := hmon
    generalize t.mon = mon at *
    interval_cases mon <;> rfl

/-- A time that is written by a format is read by it, whatever follows. -/
theorem strptime_strftime {t u : Tm} {wday : Nat} {fs : List Field} (ht : t.Valid)
    (hyear : 1000 ≤ t.year + 1900 ∧ t.year + 1900 ≤ 9999) (hwday : wday < 7) (hu : Agree fs u t)
    {fmt : Str} (hfmt : readable fmt = true) (rest : Str) :
    ∃ u', strptime fmt (strftime fmt t wday ++ rest) u = some (rest, u') ∧
      Agree (fields fmt ++ fs) u' t := by
  induction fmt using readable.induct generalizing u fs with
  | case1 => exact ⟨u, rfl, hu⟩
  | case2 => cases hfmt
  | case3 c fmt ih =>
    rw [readable, Bool.and_eq_true, Bool.or_eq_true, Bool.and_eq_true, decide_eq_true_eq,
      decide_eq_true_eq] at hfmt
    obtain ⟨hc, hrest⟩ := hfmt
    have hends : c ∈ ['d', 'H', 'M', 'S', 'Y'] ∨
        c ∈ ['a', 'b'] ∧ ∃ d ∈ (strftime fmt t wday ++ rest).head?, d ∈ [' ', ','] := by
      refine hc.imp_right fun hname => ⟨hname.1, ?_⟩
      obtain ⟨d, hd, hend⟩ := (Option.any_eq_true ..).mp hname.2
      rw [decide_eq_true_eq] at hend
      obtain ⟨fmt, rfl⟩ : ∃ fmt', fmt = d :: fmt' := by
        cases fmt with
        | nil => cases hd
        | cons d' fmt =>
          cases hd
          exact ⟨fmt, rfl⟩
      refine ⟨d, ?_, hend⟩
      have hne : d ≠ '%' := by
        intro heq
        rw [heq] at hend
        revert hend
        decide
      rw [strftime_cons hne]
      rfl
    obtain ⟨u₁, hconv, hu₁⟩ := convert_written ht hyear hwday hu hends
    obtain ⟨u', hread, hu'⟩ := ih hu₁ hrest
    refine ⟨u', ?_, ?_⟩
    · rw [strftime, List.append_assoc, strptime, hconv]
      exact hread
    · rw [fields, List.append_assoc]
      exact hu'
  | case4 c fmt hone hconv ih =>
    have hc : c ≠ '%' := ne_percent hone hconv
    rw [readable_cons hc, Bool.and_eq_true] at hfmt
    obtain ⟨hblank, hrest⟩ := hfmt
    obtain ⟨u', hread, hu'⟩ := ih hu hrest
    have hliteral : literal c (c :: (strftime fmt t wday ++ rest)) =
        some (strftime fmt t wday ++ rest) := by
      unfold literal
      cases hspace : isSpace c with
      | false =>
        rw [if_neg Bool.false_ne_true]
        exact if_pos rfl
      | true =>
        -- the blank is followed by a conversion
        rw [if_pos rfl, List.dropWhile_cons_of_pos hspace]
        rw [hspace, Bool.not_true, Bool.false_or] at hblank
        obtain ⟨d, hd, hpercent⟩ := (Option.any_eq_true ..).mp hblank
        rw [decide_eq_true_eq] at hpercent
        subst hpercent
        obtain ⟨c', fmt', rfl⟩ : ∃ c' fmt', fmt = '%' :: c' :: fmt' := by
          cases fmt with
          | nil => cases hd
          | cons d' fmt =>
            cases hd
            cases fmt with
            | nil => cases hrest
            | cons c' fmt => exact ⟨c', fmt, rfl⟩
        rw [strftime, List.append_assoc]
        refine congrArg some (dropWhile_written ht hyear hwday ?_ _)
        rw [readable, Bool.and_eq_true, Bool.or_eq_true, Bool.and_eq_true, decide_eq_true_eq,
          decide_eq_true_eq] at hrest
        exact List.mem_append.mpr (hrest.1.imp_right And.left)
    refine ⟨u', ?_, ?_⟩
    · rw [strftime_cons hc, List.cons_append, strptime_cons hc, hliteral]
      exact hread
    · rw [fields_cons hc]
      exact hu'

/-! ## What is written -/

theorem strftime_append {fmt : Str} (hfmt : readable fmt = true) (fmt' : Str) (t : Tm) (wday : Nat) :
    strftime (fmt ++ fmt') t wday = strftime fmt t wday ++ strftime fmt' t wday := by
  induction fmt using readable.induct with
  | case1 => rfl
  | case2 => cases hfmt
  | case3 c fmt ih =>
    rw [readable, Bool.and_eq_true] at hfmt
    show written c t wday ++ strftime (fmt ++ fmt') t wday = _
    rw [ih hfmt.2, strftime, List.append_assoc]
  | case4 c fmt hone hconv ih =>
    have hc : c ≠ '%' := ne_percent hone hconv
    rw [readable_cons hc, Bool.and_eq_true] at hfmt
    rw [List.cons_append, strftime_cons hc, strftime_cons hc, ih hfmt.2, List.cons_append]

/-- The character is one of ASCII, and no NUL. -/
def ascii (c : Char) : Bool := decide (0 < c.toNat ∧ c.toNat < 128)

theorem ascii_digitChar (n : Nat) : ascii (Nat.digitChar n) = true := by
  by_cases h : n < 16
  · interval_cases n <;> rfl
  · have hstar : Nat.digitChar n = '*' := by
      unfold Nat.digitChar
      repeat rw [if_neg (by omega)]
    rw [hstar]
    rfl

theorem ascii_toDigits {n : Nat} {c : Char} (hc : c ∈ Nat.toDigits 10 n) : ascii c = true := by
  have hdigit := Nat.isDigit_of_mem_toDigits (by decide) (by decide) hc
  rw [Char.isDigit, Bool.and_eq_true, decide_eq_true_eq, decide_eq_true_eq] at hdigit
  obtain ⟨hlo, hhi⟩ := hdigit
  rw [ascii, decide_eq_true_eq]
  have hlo' : 48 ≤ c.toNat := hlo
  have hhi' : c.toNat ≤ 57 := hhi
  omega

theorem ascii_name {names : List Str} (h : ∀ name ∈ names, ∀ c ∈ name, ascii c = true) (i : Nat)
    {c : Char} (hc : c ∈ (names.getD i []).take 3) : ascii c = true := by
  rw [List.getD_eq_getElem?_getD] at hc
  cases hname : names[i]? with
  | none =>
    rw [hname] at hc
    cases hc
  | some name =>
    rw [hname] at hc
    exact h name (List.mem_of_getElem? hname) c (List.mem_of_mem_take hc)

theorem ascii_written (c : Char) (t : Tm) (wday : Nat) : ∀ d ∈ written c t wday, ascii d = true := by
  have htwo : ∀ n, ∀ d ∈ twoDigits n, ascii d = true := by
    intro n d hd
    rw [twoDigits, List.mem_cons, List.mem_singleton] at hd
    obtain rfl | rfl := hd
    · exact ascii_digitChar _
    · exact ascii_digitChar _
  intro d hd
  unfold written at hd
  split at hd
  · exact ascii_name (by decide) _ hd
  · exact ascii_name (by decide) _ hd
  · exact htwo _ d hd
  · exact htwo _ d hd
  · exact htwo _ d hd
  · exact htwo _ d hd
  · unfold yearText at hd
    split at hd
    · exact ascii_toDigits hd
    · obtain rfl | hd := List.mem_cons.mp hd
      · rfl
      · exact ascii_toDigits hd
  · cases hd

theorem ascii_strftime {fmt : Str} (hfmt : ∀ c ∈ fmt, ascii c = true) (t : Tm) (wday : Nat) :
    ∀ d ∈ strftime fmt t wday, ascii d = true := by
  induction fmt using readable.induct with
  | case1 | case2 =>
    intro d hd
    cases hd
  | case3 c fmt ih =>
    intro d hd
    rw [strftime] at hd
    obtain hd | hd := List.mem_append.mp hd
    · exact ascii_written c t wday d hd
    · exact ih (fun c' hc' => hfmt c' (List.mem_cons_of_mem _ (List.mem_cons_of_mem _ hc'))) d hd
  | case4 c fmt hone hconv ih =>
    intro d hd
    rw [strftime.eq_4 t wday c fmt hone hconv] at hd
    obtain rfl | hd := List.mem_cons.mp hd
    · exact hfmt d List.mem_cons_self
    · exact ih (fun c' hc' => hfmt c' (List.mem_cons_of_mem _ hc')) d hd

end Lib
