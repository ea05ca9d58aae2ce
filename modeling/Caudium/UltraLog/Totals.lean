import Caudium.UltraLog.Util
import Mathlib.Logic.Function.Basic

/-!
# Lines and days (`ultraparse`, ultraparse.c)

What a line adds to the tables of its hour and of its day (`account`), and what is delivered
to `daily` when a day is over. Floating point numbers are a type of their own, with the
operations that the program uses.
-/

namespace Caudium.UltraLog

open Lib (Str Mapping)

/-- The C type `double`. -/
structure Floats where
  Num : Type
  zero : Num
  /-- `kb + (float)bytes / 1024.0`. -/
  addKb : Num → Int → Num
  /-- `((float)length / (float)sessions) / 60.0`. -/
  perSession : UInt32 → UInt32 → Num

/-- The number of an hour of the day. -/
abbrev Hour := Fin 24

/-- The place of an hour in the arrays, which have 24. -/
def hourIndex (h : Int) : Option Hour :=
  if hh : 0 ≤ h ∧ h < 24 then some ⟨h.toNat, by omega⟩ else none

/-- A value for each hour. -/
abbrev PerHour (α : Type) := Hour → α

def PerHour.set {α : Type} (a : PerHour α) (h : Hour) (v : α) : PerHour α := Function.update a h v

/-- What is counted until the day is over. -/
structure Totals (F : Floats) where
  hitsPerHour : PerHour UInt32
  hostsPerHour : PerHour UInt32
  pagesPerHour : PerHour UInt32
  sessionsPerHour : PerHour UInt32
  sessionLength : PerHour UInt32
  kbPerHour : PerHour F.Num
  hitsPerError : Mapping Int Int
  errorUrls : Tables Int
  errorRefs : Tables Str
  userAgents : Counts
  directories : Counts
  referrers : Counts
  refsites : Counts
  referredto : Tables Str
  pages : Counts
  hosts : Counts
  hits : Counts
  sessionStart : Counts
  sessionEnd : Counts
  hits20x : Counts
  hits302 : Counts
  sites : Counts
  domains : Counts
  topdomains : Counts
  lastHour : Hour
  lastDate : Int

def Totals.empty (F : Floats) : Totals F where
  hitsPerHour _ := 0
  hostsPerHour _ := 0
  pagesPerHour _ := 0
  sessionsPerHour _ := 0
  sessionLength _ := 0
  kbPerHour _ := F.zero
  hitsPerError := ∅
  errorUrls := ∅
  errorRefs := ∅
  userAgents := ∅
  directories := ∅
  referrers := ∅
  refsites := ∅
  referredto := ∅
  pages := ∅
  hosts := ∅
  hits := ∅
  sessionStart := ∅
  sessionEnd := ∅
  hits20x := ∅
  hits302 := ∅
  sites := ∅
  domains := ∅
  topdomains := ∅
  lastHour := 0
  lastDate := 0

/-- The arguments of `daily`. -/
structure Daily (F : Floats) where
  yy : Int
  mm : Int
  dd : Int
  pages : Counts
  hits : Counts
  hits302 : Counts
  hitsPerError : Mapping Int Int
  errorUrls : Tables Int
  errorRefs : Tables Str
  referredto : Tables Str
  refsites : Counts
  referrers : Counts
  directories : Counts
  userAgents : Counts
  hosts : Counts
  domains : Counts
  topdomains : Counts
  sessionsPerHour : PerHour UInt32
  hitsPerHour : PerHour UInt32
  pagesPerHour : PerHour UInt32
  kbPerHour : PerHour F.Num
  minutesPerSession : PerHour F.Num
  hostsPerHour : PerHour UInt32

/-- The fields of a line that are used. -/
structure LogLine where
  addr : Str
  refer : Str
  agent : Str
  url : Str
  yy : Int
  mm : Int
  dd : Int
  h : Int
  m : Int
  s : Int
  code : Int
  bytes : Int
  deriving DecidableEq, Repr

/-- The value of an `INT32`, as it is after an overflow. -/
def wrap32 (n : Int) : Int := (n + 2 ^ 31) % 2 ^ 32 - 2 ^ 31

/-- `this_date`. -/
def LogLine.date (l : LogLine) : Int := wrap32 (l.yy * 10000 + l.mm * 100 + l.dd)

variable {F : Floats}

/-! ## Sessions -/

/-- A session of so many seconds in the hour is over. -/
def Totals.addSession (t : Totals F) (h : Hour) (seconds : Int) : Totals F :=
  { t with
    sessionsPerHour := t.sessionsPerHour.set h (t.sessionsPerHour h + 1)
    sessionLength := t.sessionLength.set h (t.sessionLength h + UInt32.ofInt seconds) }

/-- `summarize_sessions`, for the sessions of `last_hour`; they are dropped then. -/
def Totals.summarizeSessions (t : Totals F) : Totals F :=
  t.sessionStart.entries.foldl (fun t e =>
    t.addSession t.lastHour ((t.sessionEnd.lookup e.1).getD 0 - e.2)) t

/-- `process_session`. -/
def Totals.processSession (t : Totals F) (host : Str) (time : Int) (h : Hour) : Totals F :=
  let t := { t with sites := mapadd t.sites host }
  match t.sessionEnd.lookup host with
  | some last =>
    let t :=
      if last + sessionIdle < time then
        { t.addSession h (last - (t.sessionStart.lookup host).getD 0) with
          sessionStart := t.sessionStart.insert host time }
      else t
    { t with sessionEnd := t.sessionEnd.insert host time }
  | none =>
    { t with
      sessionStart := t.sessionStart.insert host time
      sessionEnd := t.sessionEnd.insert host time }

/-! ## The end of an hour and of a day -/

/-- The page hits of the hour that is over. -/
def Totals.closePages (t : Totals F) (pagexts : List Str) : Option (Totals F) :=
  (hourlyPageHits t.hits20x t.pages t.hits pagexts).map fun (pages, hits, n) =>
    { t with
      pages := pages
      hits := hits
      pagesPerHour := t.pagesPerHour.set t.lastHour (t.pagesPerHour t.lastHour + n) }

/-- The hosts of the hour that is over. -/
def Totals.closeSites (t : Totals F) : Totals F :=
  { t with
    hostsPerHour := t.hostsPerHour.set t.lastHour
      (t.hostsPerHour t.lastHour + UInt32.ofNat t.sites.keys.length)
    hosts := doMapAddition t.hosts t.sites
    sites := ∅ }

/-- What is done when a line of another hour comes. -/
def Totals.closeHour (t : Totals F) (pagexts : List Str) (h : Hour) : Option (Totals F) :=
  (t.closePages pagexts).map fun t =>
    let t := { t.summarizeSessions with sessionStart := ∅, sessionEnd := ∅ }
    { t.closeSites with lastHour := h, hits20x := ∅ }

/-- The summaries of a day. -/
def Totals.summarize (t : Totals F) (pagexts : List Str) : Option (Totals F) :=
  (cleanRefto t.referredto pagexts).map fun referredto =>
    let (refsites, referrers) := summarizeRefsites t.refsites t.referrers
    let hosts := summarizeHosts t.hosts t.domains t.topdomains
    { t with
      refsites := refsites
      referrers := referrers
      referredto := referredto
      directories := summarizeDirectories (summarizeDirectories t.directories t.pages) t.hits
      userAgents := httpDecodeMapping t.userAgents
      hosts := hosts.newhosts
      domains := hosts.domains
      topdomains := hosts.topdomains }

/-- The arguments of `daily`, for that date. -/
def Totals.daily (t : Totals F) (yy mm dd : Int) : Daily F where
  yy := yy
  mm := mm
  dd := dd
  pages := t.pages
  hits := t.hits
  hits302 := t.hits302
  hitsPerError := t.hitsPerError
  errorUrls := t.errorUrls
  errorRefs := t.errorRefs
  referredto := t.referredto
  refsites := t.refsites
  referrers := t.referrers
  directories := t.directories
  userAgents := t.userAgents
  hosts := t.hosts
  domains := t.domains
  topdomains := t.topdomains
  sessionsPerHour := t.sessionsPerHour
  hitsPerHour := t.hitsPerHour
  pagesPerHour := t.pagesPerHour
  kbPerHour := t.kbPerHour
  minutesPerSession h :=
    if t.sessionsPerHour h ≠ 0 then F.perSession (t.sessionLength h) (t.sessionsPerHour h) else F.zero
  hostsPerHour := t.hostsPerHour

/-- What is left when a day has been delivered. -/
def Totals.newDay (t : Totals F) (date : Int) : Totals F :=
  { Totals.empty F with
    sessionStart := t.sessionStart
    sessionEnd := t.sessionEnd
    hits20x := t.hits20x
    lastHour := t.lastHour
    lastDate := date }

/-- What is done when a line of another hour or day comes: the days that are delivered, and
what is counted from then on. -/
def Totals.advance (t : Totals F) (pagexts : List Str) (date : Int) (h : Hour) :
    Option (List (Daily F) × Totals F) :=
  if t.lastDate = 0 then some ([], { t with lastDate := date, lastHour := h })
  else if t.lastHour = h ∧ t.lastDate = date then some ([], t)
  else
    match t.closeHour pagexts h with
    | none => none
    | some t =>
      if t.lastDate = date then some ([], t)
      else (t.summarize pagexts).map fun t =>
        ([t.daily (t.lastDate.tdiv 10000) ((t.lastDate.tmod 10000).tdiv 100)
          ((t.lastDate.tmod 10000).tmod 100)], t.newDay date)

/-! ## A line -/

/-- `strstr`: `s` has `pat` in it. -/
def hasPart (s pat : Str) : Bool := (Lib.search s pat).isSome

/-- `DO_REFERRER`. -/
def Totals.doReferrer (t : Totals F) (notref : Option Str) (l : LogLine) : Totals F :=
  if 1 < l.refer.length ∧ notref.all (fun n => !hasPart l.refer n) then
    { t with
      referredto := map2add t.referredto l.url l.refer
      referrers := mapadd t.referrers l.refer }
  else t

/-- `DO_ERREF`. -/
def Totals.doErref (t : Totals F) (l : LogLine) : Totals F :=
  if 1 < l.refer.length then { t with errorRefs := map2add t.errorRefs l.url l.refer } else t

/-- The tables of the return code. -/
def Totals.countCode (t : Totals F) (notref : Option Str) (l : LogLine) : Totals F :=
  if l.code ∈ [200, 201, 202, 203, 204, 205, 206, 207, 304] then
    { t with hits20x := mapadd t.hits20x l.url }.doReferrer notref l
  else if l.code ∈ [300, 301, 302, 303, 305] then
    { t with hits302 := mapadd t.hits302 l.url }.doReferrer notref l
  else if l.code ∈ [400, 404, 405, 406, 408, 409, 410, 411, 412, 413, 414, 415, 416, 500, 501] then
    let t := t.doErref l
    { t with errorUrls := map2add t.errorUrls l.code l.url }
  else t

/-- A line with a date: the days that it ends, and what it adds to the totals. -/
def account (pagexts : List Str) (notref : Option Str) (t : Totals F) (l : LogLine) :
    Option (List (Daily F) × Totals F) :=
  match hourIndex l.h with
  | none => none
  | some h =>
    (t.advance pagexts l.date h).map fun (days, t) =>
      let t := t.processSession l.addr (wrap32 (l.h * 3600 + l.m * 60 + l.s)) h
      let t := t.countCode notref l
      let t := { t with
        hitsPerError := mapadd t.hitsPerError l.code
        kbPerHour := t.kbPerHour.set h (F.addKb (t.kbPerHour h) l.bytes)
        hitsPerHour := t.hitsPerHour.set h (t.hitsPerHour h + 1) }
      (days, if 1 < l.agent.length then { t with userAgents := mapadd t.userAgents l.agent } else t)

/-- What is delivered at the end of the log, for the date that was read last. -/
def Totals.finish (t : Totals F) (pagexts : List Str) (yy mm dd : Int) :
    Option (List (Daily F)) :=
  if yy ≠ 0 ∧ mm ≠ 0 ∧ dd ≠ 0 then
    match t.closePages pagexts with
    | none => none
    | some t => (t.summarizeSessions.closeSites.summarize pagexts).map fun t => [t.daily yy mm dd]
  else some []

end Caudium.UltraLog
