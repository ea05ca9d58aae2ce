import Caudium.Http.ParseHeaders
import Caudium.Lib.Time

/-!
# The answer to a conditional request

`is_modified` (datetime.c) compares the time of a file with the If-Modified-Since header:
0 is "modified", 1 "not modified" and -1 that there is no answer. `send_result`
(protocols/http.pike) takes whatever is not 0 for "not modified" and then answers 304
without the file.

Of `send_result` this file has what decides the status, the data and the length of the
answer; the headers, and the transmission, are left out.
-/

namespace Caudium.Http

open Lib (Str Tm Zone strptime fields)

/-! ## `is_modified` -/

structure DateFormat where
  fmt : Str
  isAnal : Bool
  deriving DecidableEq, Repr

/-- `is_modified_formats`. -/
def isModifiedFormats : List DateFormat :=
  [ ⟨"%a, %d %b %Y %H:%M:%S".toList, false⟩, -- RFC1123
    ⟨"%A, %d %b %y %H:%M:%S".toList, false⟩, -- RFC850
    ⟨"%a %b %d %H:%M:%S %Y".toList, false⟩, -- ANSI C asctime() format
    ⟨"%d-%m-%Y %H:%M:%S".toList, true⟩,
    ⟨"%d-%m-%y %H:%M:%S".toList, true⟩,
    ⟨"%a, %d %b %y %H:%M:%S".toList, true⟩,
    ⟨"%a %b %d %H:%M:%S %y".toList, true⟩,
    ⟨"%d %b %Y %H:%M:%S".toList, true⟩,
    ⟨"%d %b %Y %H:%M:%S".toList, true⟩,
    ⟨"%d %b %y %H:%M:%S".toList, true⟩ ]

/-- The C library's side of `is_modified`. -/
structure CLib where
  zone : Zone
  /-- What is in `ttm` at first; no format sets `tm_isdst`. -/
  ttm : Tm
  isdst : Int

/-- The first of the formats that are used and that match, and the time it reads. -/
def firstMatch (ttm : Tm) (useWeird : Bool) (header : Str) : List DateFormat → Option Tm
  | [] => none
  | format :: formats =>
    if !format.isAnal || useWeird then
      match strptime format.fmt header ttm with
      | some (_, ttm) => some ttm
      | none => firstMatch ttm useWeird header formats
    else firstMatch ttm useWeird header formats

/-- The year as `is_modified` hands it on to `mktime`. -/
def adjustYear (year : Int) : Int :=
  if year < 100 then if year ≤ 68 then year + 2000 else year + 1900 else year

/-- `is_modified`; `none` is an error, which a string with wide characters is. -/
def isModified (c : CLib) (header : Str) (tmod useWeird : Int) : Option Int :=
  if !narrow header then none
  else match firstMatch c.ttm (cInt useWeird ≠ 0) (cString header) isModifiedFormats with
    | none => some (-1)
    | some ttm =>
      let ret := c.zone.mktime { ttm with year := adjustYear ttm.year } c.isdst
      if ret < 0 then some (-1) else if cInt tmod > ret then some 0 else some 1

/-! ## `send_result` -/

/-- A `Stdio.Stat`. -/
structure FileStat where
  size : Int
  mtime : Int
  deriving DecidableEq, Repr

/-- The `stat` entry of a mapping. -/
inductive StatEntry where
  | unset
  | stat (st : FileStat)
  /-- Something else than an object. -/
  | other
  deriving DecidableEq, Repr

/-- The `file` entry of an answer. -/
inductive FileEntry where
  | unset
  | minusOne
  /-- An open file, and what its `stat()` returns. -/
  | object (stat : StatEntry)
  deriving DecidableEq, Repr

/-- `objectp`. -/
def FileEntry.isObject : FileEntry → Bool
  | .object _ => true
  | _ => false

/-- An answer, the mapping `file`: 0 and `none` stand for entries that are not set. -/
structure Answer where
  error : Int
  file : FileEntry
  stat : StatEntry
  len : Int
  data : Option Str
  type : Option Str
  raw : Bool
  isDynamic : Bool
  leaveMe : Bool
  deriving DecidableEq, Repr

/-- What `send_result` reads of the request object. -/
structure Asked where
  method : Str
  /-- `since`: the If-Modified-Since header, if there is one. -/
  since : Option Str
  /-- `misc->stat`, `misc->is_dynamic`, `misc->range`, `misc->error_code`, `misc->error`. -/
  miscStat : StatEntry
  miscDynamic : Bool
  miscRange : Bool
  miscErrorCode : Int
  miscError : Int

/-- What `send_result` calls. -/
structure SendEnv where
  clib : CLib
  /-- `conf->handle_error_request`, when what it returns is a mapping. -/
  handleErrorRequest : Option Answer
  /-- `Caudium.Const.errors`. -/
  errors : Int → Option Str
  /-- `parse_range_header`; `none` is 0. -/
  parseRangeHeader : Int → Option (List (Int × Int))

/-- `Caudium.HTTP.low_answer`. -/
def lowAnswer (errno : Int) (data : Option Str) : Answer where
  error := errno
  file := .unset
  stat := .unset
  len := (data.getD []).length
  data := some (data.getD [])
  type := some "text/html".toList
  raw := false
  isDynamic := false
  leaveMe := false

/-- The answer when there is no file. -/
def errorAnswer (env : SendEnv) (id : Asked) : Answer :=
  match env.handleErrorRequest with
  | some file => file
  | none =>
    if id.miscErrorCode ≠ 0 then lowAnswer id.miscErrorCode (env.errors id.miscError)
    else if id.method ≠ "GET".toList ∧ id.method ≠ "HEAD".toList ∧ id.method ≠ "POST".toList then
      lowAnswer 501 (some "Not implemented.".toList)
    else lowAnswer 404 (some "Not found.".toList)

/-- The type and `raw`; `none` if the answer is not sent here. -/
def Answer.prepare (file : Answer) : Option Answer :=
  if file.file = .minusOne ∨ file.leaveMe then none
  else if file.type = some "raw".toList then some { file with raw := true }
  else if file.type = none then some { file with type := some "text/plain".toList }
  else some file

/-- `file` as `send_result` has it when it comes to the headers. -/
def answerOf (env : SendEnv) (id : Asked) (result : Option Answer) : Option Answer :=
  match result with
  | none => some (errorAnswer env id)
  | some file => file.prepare

/-- `file->stat`, with the one of the request or of the open file in its place if it is not
set. -/
def Answer.findStat (id : Asked) (file : Answer) : Answer :=
  match file.file, file.stat with
  | .object own, .unset =>
    { file with stat := if id.miscStat = .unset then own else id.miscStat }
  | _, _ => file

/-- The test of the If-Modified-Since header; `none` is an error. -/
def Answer.checkSince (env : SendEnv) (id : Asked) (file : Answer) (st : FileStat) :
    Option Answer :=
  if file.isDynamic || id.miscDynamic then some file
  else match id.since with
    | none => some file
    | some since =>
      match isModified env.clib since st.mtime st.size with
      | none => none
      | some 0 => some file
      | some _ => some { file with error := 304, file := .unset, data := some [] }

/-- The length of an open file, if `len` is not set. -/
def Answer.setLen (file : Answer) (st : FileStat) : Answer :=
  if file.file ≠ .unset ∧ file.len = 0 then { file with len := st.size } else file

/-- The length of the data on top of it. -/
def Answer.addData (file : Answer) : Answer :=
  { file with len := file.len + (file.data.getD []).length }

/-- The block for answers without `len`. -/
def Answer.measure (env : SendEnv) (id : Asked) (file : Answer) : Option Answer :=
  if file.len ≠ 0 then some file
  else
    let file := file.findStat id
    match file.stat with
    | .stat st => ((file.setLen st).checkSince env id st).map Answer.addData
    | _ => some file.addData

/-- The Range header. -/
def Answer.restrict (env : SendEnv) (id : Asked) (file : Answer) : Answer :=
  if id.miscRange ∧ file.len ≠ 0 ∧ file.file.isObject ∧ file.data = none ∧ file.error = 200
      ∧ (id.method = "GET".toList ∨ id.method = "HEAD".toList) then
    match env.parseRangeHeader file.len with
    | none => file
    | some [] =>
      let data := "The requested byte range is out-of-bounds. Sorry.".toList
      if id.method = "GET".toList then
        { file with error := 416, data := some data, len := data.length, file := .unset }
      else { file with error := 416 }
    -- a wrapper that reads only the ranges
    | some (_ :: _) => { file with error := 206, file := .object .unset }
  else file

/-- `send_result`: the answer that is sent, if one is. -/
def sendResult (env : SendEnv) (id : Asked) (result : Option Answer) : Option Answer :=
  match answerOf env id result with
  | none => none
  | some file =>
    let sent :=
      if file.raw then some file
      else match file.measure env id with
        | none => none
        | some file =>
          let file := if file.error = 0 then { file with error := 200 } else file
          some (file.restrict env id)
    sent.map fun file =>
      if id.method = "HEAD".toList then { file with file := .unset, data := some [] } else file

/-! ## Formats -/

/-- Every format sets every field, so that it does not matter what was in `ttm`, and what a
format that did not match has left there. -/
theorem strptime_formats {format : DateFormat} (h : format ∈ isModifiedFormats) (s : Str)
    (t u : Tm) : strptime format.fmt s t = strptime format.fmt s u := by
  refine Lib.strptime_any (fun f => ?_) s t u
  have hall : ∀ format ∈ isModifiedFormats, ∀ f ∈ [Tm.Field.sec, .min, .hour, .mday, .mon, .year],
      f ∈ Lib.fields format.fmt := by
    decide
  exact hall format h f (by cases f <;> decide)

/-- The header denotes `d` in one of the first three formats. -/
def Denotes (header : Str) (d : Int) : Prop :=
  ∃ format ∈ isModifiedFormats.take 3, ∃ rest ttm,
    strptime format.fmt (cString header) Tm.epoch = some (rest, ttm) ∧ ttm.Valid ∧ ttm.utc = d

/-- The header denotes a time that the file has not changed since, and the file has not
changed since any time of 1970 or later that the header denotes. -/
def Unmodified (header : Str) (st : FileStat) : Prop :=
  (∃ d, Denotes header d ∧ st.mtime ≤ d) ∧ ∀ d, Denotes header d → 0 ≤ d → st.mtime ≤ d

/-- What the first format that matches reads, with the year adjusted and as a local time, is
before the low 32 bits of the file's time. The weird formats are used if the low 32 bits of
the file's size are not 0. -/
def ReadsEarlier (c : CLib) (header : Str) (st : FileStat) : Prop :=
  ∃ ttm time, firstMatch c.ttm (cInt st.size ≠ 0) (cString header) isModifiedFormats = some ttm ∧
    c.zone.Represents { ttm with year := adjustYear ttm.year } c.isdst time ∧ time < cInt st.mtime

theorem isModified_eq_zero_iff {c : CLib} {header : Str} {st : FileStat} :
    isModified c header st.mtime st.size = some 0 ↔
      narrow header = true ∧ ReadsEarlier c header st := by
  unfold isModified ReadsEarlier
  cases hn : narrow header with
  | false => simp
  | true =>
    simp only [Bool.not_true, Bool.false_eq_true, if_false, true_and]
    cases firstMatch c.ttm (cInt st.size ≠ 0) (cString header) isModifiedFormats with
    | none => simp
    | some ttm =>
      simp only [Zone.represents_iff, Option.some.injEq]
      constructor
      · intro h
        split at h
        · cases h
        · split at h
          · next h0 hlt => exact ⟨ttm, _, rfl, ⟨rfl, by omega⟩, hlt⟩
          · cases h
      · intro hand
        obtain ⟨_, time, rfl, ⟨rfl, h0⟩, hlt⟩ := hand
        rw [if_neg (by omega), if_pos hlt]

/-- The status of the answer, if one is sent. -/
def status (env : SendEnv) (id : Asked) (result : Option Answer) : Option Int :=
  (sendResult env id result).map Answer.error

/-- The same request without the header. -/
def Asked.withoutSince (id : Asked) : Asked := { id with since := none }

/-- The answer is 304, and without the header it is not. -/
def NotModifiedAnswer (env : SendEnv) (id : Asked) (result : Option Answer) : Prop :=
  status env id result = some 304 ∧ status env id.withoutSince result ≠ some 304

/-- The stat of the file, if its time is compared with the header. -/
def Answer.compared (id : Asked) (file : Answer) : Option FileStat :=
  if file.len ≠ 0 ∨ file.isDynamic ∨ id.miscDynamic then none
  else match (file.findStat id).stat with
    | .stat st => some st
    | _ => none

/-- The stat of the file whose time decides whether the answer is 304. -/
def consulted (env : SendEnv) (id : Asked) (result : Option Answer) : Option FileStat :=
  match answerOf env id result with
  | none => none
  | some file => if file.raw ∨ file.error = 304 then none else file.compared id

theorem restrict_error_iff (env : SendEnv) (id : Asked) (file : Answer) :
    (file.restrict env id).error = 304 ↔ file.error = 304 := by
  unfold Answer.restrict
  split
  · next h =>
    have h200 : file.error = 200 := h.2.2.2.2.1
    split
    · rfl
    · simp only
      split <;> simp [h200]
    · simp [h200]
  · rfl

/-- What follows the block for the length makes no answer 304 and leaves each that is. -/
theorem status_iff {env : SendEnv} {id : Asked} {result : Option Answer} {file : Answer}
    (h : answerOf env id result = some file) :
    status env id result = some 304 ↔
      (if file.raw then some file else file.measure env id).map Answer.error = some 304 := by
  unfold status sendResult
  simp only [h, Option.map_map]
  cases file.raw with
  | true =>
    simp only [if_true, Option.map_some, Function.comp_apply, Option.some.injEq]
    split <;> rfl
  | false =>
    simp only [Bool.false_eq_true, if_false]
    cases file.measure env id with
    | none => rfl
    | some f =>
      simp only [Option.map_some, Function.comp_apply, Option.some.injEq]
      rw [apply_ite Answer.error, ite_self, restrict_error_iff]
      split
      · next h0 => simp [h0]
      · rfl

/-- What `file` has besides `stat` and `len`. -/
theorem findStat_fields (id : Asked) (file : Answer) :
    (file.findStat id).error = file.error ∧ (file.findStat id).isDynamic = file.isDynamic := by
  unfold Answer.findStat
  split <;> exact ⟨rfl, rfl⟩

theorem setLen_fields (file : Answer) (st : FileStat) :
    (file.setLen st).error = file.error ∧ (file.setLen st).isDynamic = file.isDynamic := by
  unfold Answer.setLen
  split <;> exact ⟨rfl, rfl⟩

theorem checkSince_error (env : SendEnv) (id : Asked) (file : Answer) (st : FileStat) :
    (file.checkSince env id st).map Answer.error =
      if file.isDynamic ∨ id.miscDynamic then some file.error
      else match id.since with
        | none => some file.error
        | some since => (isModified env.clib since st.mtime st.size).map fun m =>
          if m = 0 then file.error else 304 := by
  unfold Answer.checkSince
  simp only [Bool.or_eq_true]
  split
  · rfl
  · cases id.since with
    | none => rfl
    | some since =>
      simp only
      cases isModified env.clib since st.mtime st.size with
      | none => rfl
      | some m =>
        by_cases hm : m = 0
        · simp [hm]
        · split
          · next h => cases h
          · next h => cases h; exact absurd rfl hm
          · simp [hm]

theorem measure_error (env : SendEnv) (id : Asked) (file : Answer) :
    (file.measure env id).map Answer.error =
      match file.compared id, id.since with
      | some st, some since =>
        (isModified env.clib since st.mtime st.size).map fun m => if m = 0 then file.error else 304
      | _, _ => some file.error := by
  obtain ⟨herror, hdyn⟩ := findStat_fields id file
  unfold Answer.measure Answer.compared
  by_cases hlen : file.len ≠ 0
  · simp [hlen]
  · rw [if_neg hlen]
    simp only [hlen, false_or]
    cases hst : (file.findStat id).stat with
    | stat st =>
      obtain ⟨herror', hdyn'⟩ := setLen_fields (file.findStat id) st
      simp only [Option.map_map]
      rw [show Answer.error ∘ Answer.addData = Answer.error from rfl, checkSince_error, herror',
        hdyn', herror, hdyn]
      split
      · rfl
      · cases id.since <;> rfl
    | unset | other =>
      rw [Option.map_some, show (file.findStat id).addData.error = file.error from herror]
      simp

theorem isModified_isSome_iff {c : CLib} {header : Str} {tmod useWeird : Int} :
    (∃ m, isModified c header tmod useWeird = some m) ↔ narrow header = true := by
  unfold isModified
  cases narrow header with
  | false => simp
  | true =>
    simp only [Bool.not_true, Bool.false_eq_true, if_false, iff_true]
    split
    · exact ⟨_, rfl⟩
    · split
      · exact ⟨_, rfl⟩
      · split <;> exact ⟨_, rfl⟩

theorem notModifiedAnswer_iff {env : SendEnv} {id : Asked} {result : Option Answer} :
    NotModifiedAnswer env id result ↔
      ∃ since st m, id.since = some since ∧ consulted env id result = some st ∧
        isModified env.clib since st.mtime st.size = some m ∧ m ≠ 0 := by
  unfold NotModifiedAnswer consulted
  cases hfile : answerOf env id result with
  | none => simp [status, sendResult, hfile]
  | some file =>
    have hnone : status env id.withoutSince result = some 304 ↔ file.error = 304 := by
      rw [status_iff (show answerOf env id.withoutSince result = some file from hfile)]
      cases file.raw with
      | true => simp
      | false =>
        simp only [Bool.false_eq_true, if_false, measure_error]
        split
        · next h => cases h
        · simp
    rw [status_iff hfile, Ne, hnone]
    cases hraw : file.raw with
    | true => simp [hraw]
    | false =>
      simp only [Bool.false_eq_true, if_false, measure_error]
      by_cases h304 : file.error = 304
      · simp [h304]
      · simp only [h304]
        cases hst : file.compared id with
        | none => simp [h304]
        | some st =>
          cases hsince : id.since with
          | none => simp [h304]
          | some since =>
            cases hm : isModified env.clib since st.mtime st.size with
            | none => simp [hm]
            | some m => simp [hm, h304, hraw]

/-- In Greenwich a date of 2000 or later is compared as it is. -/
theorem readsEarlier_iff_of_recent {c : CLib} {header : Str} {st : FileStat} {ttm : Tm}
    (hz : c.zone = Zone.greenwich)
    (hfirst : firstMatch c.ttm (cInt st.size ≠ 0) (cString header) isModifiedFormats = some ttm)
    (hv : ttm.Valid) (hy : 100 ≤ ttm.year) (hmax : ttm.utc < 2 ^ 63)
    (hm : 0 ≤ st.mtime ∧ st.mtime < 2 ^ 31) :
    ReadsEarlier c header st ↔ ttm.utc < st.mtime := by
  have hyear : adjustYear ttm.year = ttm.year := if_neg (by omega)
  have hint : cInt st.mtime = st.mtime := by
    unfold cInt
    omega
  have hnonneg : 31536000 * (30 : Nat) ≤ ttm.utc := hv.le_utc (by omega)
  unfold ReadsEarlier
  rw [hz, hfirst, hint]
  constructor
  · intro hand
    obtain ⟨_, time, h, ⟨htime, -⟩, hlt⟩ := hand
    cases h
    rw [hyear] at htime
    have htime : ttm.utc - 0 = time := htime
    omega
  · intro hlt
    have h0 : 0 ≤ ttm.utc := by omega
    have hmin : Zone.greenwich.minTime ≤ 0 := by decide
    refine ⟨ttm, ttm.utc, rfl, ⟨?_, Int.le_trans hmin h0, Int.le_sub_one_of_lt hmax, h0⟩, hlt⟩
    rw [hyear]
    exact Int.sub_zero _

/-- A date of 1969 to 1999 is taken for one of 3869 to 3899, and no file is newer. -/
theorem not_readsEarlier_of_last_century {c : CLib} {header : Str} {st : FileStat} {ttm : Tm}
    (hz : ∀ t isdst, c.zone.gmtoff t isdst ≤ 86400)
    (hfirst : firstMatch c.ttm (cInt st.size ≠ 0) (cString header) isModifiedFormats = some ttm)
    (hv : ttm.Valid) (hy : 69 ≤ ttm.year ∧ ttm.year < 100) : ¬ReadsEarlier c header st := by
  intro hand
  obtain ⟨_, time, h, ⟨htime, -⟩, hlt⟩ := hand
  rw [hfirst] at h
  cases h
  have hyear : adjustYear ttm.year = ttm.year + 1900 := by
    unfold adjustYear
    rw [if_pos hy.2, if_neg (by omega)]
  rw [hyear] at htime
  have hutc : 31536000 * (1899 : Nat) ≤ Tm.utc { ttm with year := ttm.year + 1900 } :=
    hv.le_utc (by omega)
  have hoff := hz { ttm with year := ttm.year + 1900 } c.isdst
  unfold cInt at hlt
  omega

/-! ## A file that is newer than the header -/

/-- The times that the header denotes. -/
def denoted (header : Str) : List Int :=
  (isModifiedFormats.take 3).filterMap fun format =>
    match strptime format.fmt (cString header) Tm.epoch with
    | some (_, ttm) => if ttm.Valid then some ttm.utc else none
    | none => none

theorem denotes_iff {header : Str} {d : Int} : Denotes header d ↔ d ∈ denoted header := by
  unfold Denotes denoted
  simp only [List.mem_filterMap]
  refine exists_congr fun format => and_congr_right fun _ => ?_
  cases strptime format.fmt (cString header) Tm.epoch with
  | none => simp
  | some r =>
    obtain ⟨rest, ttm⟩ := r
    simp

def sampleSendEnv : SendEnv where
  clib := ⟨Zone.greenwich, Tm.epoch, 0⟩
  handleErrorRequest := none
  errors _ := none
  parseRangeHeader _ := none

def conditionalGet : Asked where
  method := "GET".toList
  since := some "Sun, 06 Nov 1994 08:49:37 GMT".toList
  miscStat := .unset
  miscDynamic := false
  miscRange := false
  miscErrorCode := 0
  miscError := 0

/-- A file of the year 2000. -/
def newerFile : Answer where
  error := 0
  file := .object (.stat ⟨6, 946684800⟩)
  stat := .unset
  len := 0
  data := none
  type := some "text/html".toList
  raw := false
  isDynamic := false
  leaveMe := false

end Caudium.Http
