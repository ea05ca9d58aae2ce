import Caudium.Lib.Gaps
import Caudium.UltraLog.HourBounds
import Caudium.UltraLog.Lines
import Mathlib.Data.List.Forall2

/-!
# The days of a log

The lines that are counted fall into groups of lines that follow each other and have the same date.
Each group but the last is delivered to `daily` when the next one begins, and the last one at the
end of the log, if a date has been read last (`days_of_lines`). What is delivered says of every key
how many lines of the group are counted under it (`Summary`).

Within a day the pages, the hits and the hosts of an hour are put into the tables when the hour is
over. So the lines of the day are those of the hours that are over, and those of the hour that is
open (`Hours`).
-/

namespace Caudium.UltraLog

open Lib (Str Mapping)
open Lib.Mapping (Tallies Tabulates rekey valueAt)

variable {F : Floats} {pagexts : List Str} {notref : Option Str} {env : Setup}

/-! ## What a day says -/

/-- What is delivered for the lines of a day: of each key, how many lines are counted under it, and
of each hour, how many lines and pages there are, and the amount of data. -/
structure Summary (pagexts : List Str) (notref : Option Str) (d : Daily F) (ls : List LogLine) :
    Prop where
  hitsPerHour : ∀ h : Hour, d.hitsPerHour h = UInt32.ofNat (ls.countP (LogLine.inHour h))
  pagesPerHour : ∀ h : Hour, d.pagesPerHour h =
    UInt32.ofNat (ls.countP (LogLine.pageIn pagexts h))
  kbPerHour : ∀ h : Hour, d.kbPerHour h =
    (ls.filter (LogLine.inHour h)).foldl (fun kb l => F.addKb kb l.bytes) F.zero
  pages : ∀ k, d.pages.valueAt k = (ls.filterMap (LogLine.page pagexts)).count k
  hits : ∀ k, d.hits.valueAt k = (ls.filterMap (LogLine.hit pagexts)).count k
  hits302 : ∀ k, d.hits302.valueAt k = (ls.filterMap LogLine.hit302).count k
  hitsPerError : ∀ code, d.hitsPerError.valueAt code = (ls.map LogLine.code).count code
  errorUrls : ∀ code url, ((d.errorUrls.lookup code).getD ∅).valueAt url =
    (ls.filterMap LogLine.errorUrl).count (code, url)
  errorRefs : ∀ url refer, ((d.errorRefs.lookup url).getD ∅).valueAt refer =
    (ls.filterMap LogLine.errorRef).count (url, refer)
  referredto : ∀ page refer, ((d.referredto.lookup page).getD ∅).valueAt refer =
    (ls.filterMap (LogLine.referredto pagexts notref)).count (page, refer)
  refsites : ∀ k, d.refsites.valueAt k = (ls.filterMap (LogLine.refsite notref)).count k
  referrers : ∀ k, d.referrers.valueAt k = (ls.filterMap (LogLine.referrer notref)).count k
  directories : ∀ k, d.directories.valueAt k = (ls.filterMap (LogLine.directory pagexts)).count k
  userAgents : ∀ k, d.userAgents.valueAt k = (ls.filterMap LogLine.userAgent).count k
  hosts : ∀ k, d.hosts.valueAt k = (ls.filterMap LogLine.host).count k
  domains : ∀ k, d.domains.valueAt k = (ls.filterMap LogLine.domain).count k
  topdomains : ∀ k, d.topdomains.valueAt k = (ls.filterMap LogLine.topdomain).count k

/-- The lines are of that date. -/
def Dated (d : Daily F) (ls : List LogLine) : Prop :=
  ∀ l ∈ ls, d.yy = l.date.tdiv 10000 ∧ d.mm = (l.date.tmod 10000).tdiv 100 ∧
    d.dd = (l.date.tmod 10000).tmod 100

def sameDate (l l' : LogLine) : Bool := decide (l.date = l'.date)

/-- What the whole log delivers: the groups of lines, and the last one for the date that was read
last. -/
def Delivered (env : Setup) (points : Field → Int) (ls : List LogLine) (days : List (Daily F)) :
    Prop :=
  ∃ closed last, days = closed ++ last ∧
    List.Forall₂ (fun d g => Summary env.pagexts env.notref d g ∧ Dated d g) closed
      (ls.splitBy sameDate).dropLast ∧
    if points .year ≠ 0 ∧ points .month ≠ 0 ∧ points .date ≠ 0 then
      ∃ d, last = [d] ∧ Summary env.pagexts env.notref d ((ls.splitBy sameDate).getLastD []) ∧
        d.yy = points .year ∧ d.mm = points .month ∧ d.dd = points .date
    else last = []

/-- The lines of the text that are counted. -/
def countedLines (env : Setup) (st : Mode × Reader F) : Str → List LogLine
  | [] => []
  | c :: cs =>
    (lineAt env st c).toList ++
      match stepChar env st c with
      | some st' => countedLines env st' cs
      | none => []

/-! ## What is counted of an open day -/

/-- The tables into which each line is put at once. -/
structure DayTables (notref : Option Str) (t : Totals F) (ls : List LogLine) : Prop where
  hitsPerHour : ∀ h : Hour, t.hitsPerHour h = UInt32.ofNat (ls.countP (LogLine.inHour h))
  kbPerHour : ∀ h : Hour, t.kbPerHour h =
    (ls.filter (LogLine.inHour h)).foldl (fun kb l => F.addKb kb l.bytes) F.zero
  hits302 : Tallies t.hits302 (ls.filterMap LogLine.hit302)
  hitsPerError : Tallies t.hitsPerError (ls.map LogLine.code)
  errorUrls : Tabulates t.errorUrls (ls.filterMap LogLine.errorUrl)
  errorRefs : Tabulates t.errorRefs (ls.filterMap LogLine.errorRef)
  referrers : Tallies t.referrers (ls.filterMap (LogLine.referral notref))
  referredto : Tabulates t.referredto
    (ls.filterMap fun l => (l.referral notref).map fun refer => (l.url, refer))
  userAgents : Tallies t.userAgents (ls.filterMap LogLine.rawAgent)
  refsites : t.refsites = ∅
  directories : t.directories = ∅
  domains : t.domains = ∅
  topdomains : t.topdomains = ∅

/-- The tables into which the lines of an hour are put when it is over. -/
structure Over (pagexts : List Str) (t : Totals F) (ls : List LogLine) : Prop where
  pages : Tallies t.pages (ls.filterMap (LogLine.page pagexts))
  hits : Tallies t.hits (ls.filterMap (LogLine.hit pagexts))
  pagesPerHour : ∀ h : Hour, t.pagesPerHour h =
    UInt32.ofNat (ls.countP (LogLine.pageIn pagexts h))
  hosts : Tallies t.hosts (ls.map LogLine.addr)

/-- The hours that are over, and the lines of the one that is open. -/
structure Hours (pagexts : List Str) (t : Totals F) (past now : List LogLine) : Prop where
  past : Over pagexts t past
  hits20x : Tallies t.hits20x (now.filterMap LogLine.hit20x)
  sites : Tallies t.sites (now.map LogLine.addr)
  hour : ∀ l ∈ now, l.h = t.lastHour.val

theorem dayTables_empty : DayTables notref (Totals.empty F) [] where
  hitsPerHour _ := rfl
  kbPerHour _ := rfl
  hits302 := Lib.Mapping.tallies_empty
  hitsPerError := Lib.Mapping.tallies_empty
  errorUrls := Lib.Mapping.tabulates_empty
  errorRefs := Lib.Mapping.tabulates_empty
  referrers := Lib.Mapping.tallies_empty
  referredto := Lib.Mapping.tabulates_empty
  userAgents := Lib.Mapping.tallies_empty
  refsites := rfl
  directories := rfl
  domains := rfl
  topdomains := rfl

theorem over_empty : Over pagexts (Totals.empty F) [] where
  pages := Lib.Mapping.tallies_empty
  hits := Lib.Mapping.tallies_empty
  pagesPerHour _ := rfl
  hosts := Lib.Mapping.tallies_empty

variable {t t' : Totals F} {ls past now : List LogLine}

/-- The tables of the day are not those of the hours. -/
theorem DayTables.frame (hday : DayTables notref t ls)
    (h : t' = { t with
      hostsPerHour := t'.hostsPerHour
      pagesPerHour := t'.pagesPerHour
      sessionsPerHour := t'.sessionsPerHour
      sessionLength := t'.sessionLength
      pages := t'.pages
      hosts := t'.hosts
      hits := t'.hits
      sessionStart := t'.sessionStart
      sessionEnd := t'.sessionEnd
      hits20x := t'.hits20x
      sites := t'.sites
      lastHour := t'.lastHour
      lastDate := t'.lastDate }) : DayTables notref t' ls := by
  rw [h]
  exact ⟨hday.hitsPerHour, hday.kbPerHour, hday.hits302, hday.hitsPerError, hday.errorUrls,
    hday.errorRefs, hday.referrers, hday.referredto, hday.userAgents, hday.refsites,
    hday.directories, hday.domains, hday.topdomains⟩

theorem Over.frame (hover : Over pagexts t ls) (hpages : t'.pages = t.pages)
    (hhits : t'.hits = t.hits) (hnum : t'.pagesPerHour = t.pagesPerHour)
    (hhosts : t'.hosts = t.hosts) : Over pagexts t' ls where
  pages := hpages ▸ hover.pages
  hits := hhits ▸ hover.hits
  pagesPerHour := hnum ▸ hover.pagesPerHour
  hosts := hhosts ▸ hover.hosts

/-! ## A line -/

theorem inHour_self {h : Hour} {l : LogLine} (hl : l.h = h.val) : l.inHour h = true :=
  decide_eq_true hl

theorem inHour_ne {h h' : Hour} {l : LogLine} (hl : l.h = h.val) (hne : h' ≠ h) :
    l.inHour h' = false := by
  refine decide_eq_false fun heq => hne (Fin.ext ?_)
  rw [hl] at heq
  exact Int.natCast_inj.mp heq.symm

theorem hits_set (a : PerHour UInt32) (h h' : Hour) (l : LogLine) (hl : l.h = h.val)
    (ha : ∀ h : Hour, a h = UInt32.ofNat (ls.countP (LogLine.inHour h))) :
    a.set h (a h + 1) h' = UInt32.ofNat ((ls ++ [l]).countP (LogLine.inHour h')) := by
  rw [List.countP_append, List.countP_singleton, UInt32.ofNat_add, ← ha h', PerHour.set]
  by_cases hh : h' = h
  · subst hh
    rw [Function.update_self, if_pos (inHour_self hl)]
    rfl
  · rw [Function.update_of_ne hh, inHour_ne hl hh]
    exact (UInt32.add_zero _).symm

theorem kb_set (a : PerHour F.Num) (h h' : Hour) (l : LogLine) (hl : l.h = h.val)
    (ha : ∀ h : Hour, a h =
      (ls.filter (LogLine.inHour h)).foldl (fun kb l => F.addKb kb l.bytes) F.zero) :
    a.set h (F.addKb (a h) l.bytes) h' =
      ((ls ++ [l]).filter (LogLine.inHour h')).foldl (fun kb l => F.addKb kb l.bytes) F.zero := by
  rw [List.filter_append, List.foldl_append, ← ha h', PerHour.set]
  by_cases hh : h' = h
  · subst hh
    rw [Function.update_self, List.filter_cons_of_pos (inHour_self hl)]
    rfl
  · rw [Function.update_of_ne hh, List.filter_cons_of_neg (by rw [inHour_ne hl hh]; decide)]
    rfl

theorem DayTables.addLine (hday : DayTables notref t ls) {h : Hour} {l : LogLine}
    (hl : l.h = h.val) : DayTables notref (t.addLine notref h l) (ls ++ [l]) where
  hitsPerHour h' := hits_set t.hitsPerHour h h' l hl hday.hitsPerHour
  kbPerHour h' := kb_set t.kbPerHour h h' l hl hday.kbPerHour
  hits302 := tallies_seen hday.hits302 l
  hitsPerError := by
    rw [List.map_append]
    exact hday.hitsPerError.concat l.code
  errorUrls := tabulates_seenPair hday.errorUrls l
  errorRefs := tabulates_seenPair hday.errorRefs l
  referrers := tallies_seen hday.referrers l
  referredto := tabulates_seenPair hday.referredto l
  userAgents := tallies_seen hday.userAgents l
  refsites := hday.refsites
  directories := hday.directories
  domains := hday.domains
  topdomains := hday.topdomains

/-- A line of the hour that is open. -/
theorem countLine (hday : DayTables notref t ls) (hhours : Hours pagexts t past now) {l : LogLine}
    (hl : l.h = t.lastHour.val) :
    let t' := (t.processSession l.addr l.time t.lastHour).addLine notref t.lastHour l
    DayTables notref t' (ls ++ [l]) ∧ Hours pagexts t' past (now ++ [l]) ∧
      t'.lastDate = t.lastDate := by
  obtain ⟨n, d, starts, ends, hsession⟩ := processSession_eq t l.addr l.time t.lastHour
  dsimp only
  rw [hsession]
  refine ⟨(hday.frame rfl).addLine hl, ⟨hhours.past.frame rfl rfl rfl rfl,
    tallies_seen hhours.hits20x l, ?_, fun l' hl' => ?_⟩, rfl⟩
  · rw [List.map_append]
    exact hhours.sites.concat l.addr
  · obtain hl' | hl' := List.mem_append.mp hl'
    · exact hhours.hour l' hl'
    · rw [List.mem_singleton.mp hl']
      exact hl

/-! ## The end of an hour -/

theorem filterMap_page (ls : List LogLine) :
    (ls.filterMap LogLine.hit20x).filterMap (pageUrl pagexts) =
      ls.filterMap (LogLine.page pagexts) :=
  List.filterMap_filterMap

theorem filterMap_hit (ls : List LogLine) :
    (ls.filterMap LogLine.hit20x).filterMap (hitUrl pagexts) =
      ls.filterMap (LogLine.hit pagexts) :=
  List.filterMap_filterMap

theorem ofInt_natCast (n : Nat) : UInt32.ofInt n = UInt32.ofNat n := by
  refine UInt32.toNat_inj.mp ?_
  rw [UInt32.ofInt, UInt32.toNat_ofNat', UInt32.toNat_ofNat']
  omega

/-- The pages of the hour that is over are counted for it, and for no other hour. -/
theorem pages_set (a : PerHour UInt32) (h h' : Hour) (hnow : ∀ l ∈ now, l.h = h.val)
    (ha : ∀ h : Hour, a h =
      UInt32.ofNat (past.countP (LogLine.pageIn pagexts h))) :
    a.set h (a h + UInt32.ofNat ((now.filterMap LogLine.hit20x).countP fun url =>
        (pageUrl pagexts url).isSome)) h' =
      UInt32.ofNat ((past ++ now).countP (LogLine.pageIn pagexts h')) := by
  rw [List.countP_append, UInt32.ofNat_add, ← ha h', PerHour.set]
  by_cases hh : h' = h
  · subst hh
    rw [Function.update_self, Lib.Mapping.countP_filterMap_any]
    refine congrArg _ (congrArg _ (List.countP_congr fun l hl => ?_))
    rw [LogLine.pageIn, inHour_self (hnow l hl), Bool.true_and, LogLine.page]
    cases l.hit20x with
    | none => exact Iff.rfl
    | some url => exact Iff.rfl
  · have hnone : now.countP (LogLine.pageIn pagexts h') = 0 := by
      refine List.countP_eq_zero.mpr fun l hl hall => ?_
      rw [LogLine.pageIn, inHour_ne (hnow l hl) hh] at hall
      cases hall
    rw [Function.update_of_ne hh, hnone]
    exact (UInt32.add_zero _).symm

/-- When the pages, the sessions and the hosts of the hour are put into the tables, it is over. -/
theorem Hours.close (hhours : Hours pagexts t past now) (h : t.closePages pagexts = some t') :
    Over pagexts t'.summarizeSessions.closeSites (past ++ now) ∧
      t'.summarizeSessions.closeSites.lastDate = t.lastDate ∧
      ∀ {notref ls}, DayTables notref t ls →
        DayTables notref t'.summarizeSessions.closeSites ls := by
  unfold Totals.closePages at h
  obtain ⟨⟨pages, hits, n⟩, hpages, rfl⟩ := Option.map_eq_some_iff.mp h
  obtain ⟨rfl, rfl, rfl⟩ := hourlyPageHits_some hpages
  obtain ⟨sessions, lengths, hsessions⟩ := summarizeSessions_eq
    { t with
      pages := rekey (pageUrl pagexts) t.pages t.hits20x
      hits := rekey (hitUrl pagexts) t.hits t.hits20x
      pagesPerHour := t.pagesPerHour.set t.lastHour (t.pagesPerHour t.lastHour +
        UInt32.ofInt (t.hits20x.countWhere fun url => (pageUrl pagexts url).isSome)) }
  rw [hsessions]
  refine ⟨⟨?_, ?_, fun h' => ?_, ?_⟩, rfl, fun hday => hday.frame rfl⟩
  · rw [List.filterMap_append, ← filterMap_page now]
    exact hhours.past.pages.rekey hhours.hits20x (pageUrl pagexts)
  · rw [List.filterMap_append, ← filterMap_hit now]
    exact hhours.past.hits.rekey hhours.hits20x (hitUrl pagexts)
  · rw [← pages_set t.pagesPerHour t.lastHour h' hhours.hour hhours.past.pagesPerHour]
    show t.pagesPerHour.set _ _ h' = _
    rw [hhours.hits20x, ofInt_natCast]
  · have hhosts := hhours.past.hosts.rekey hhours.sites some
    rw [List.filterMap_some, ← List.map_append] at hhosts
    exact hhosts

theorem Hours.closeHour (hhours : Hours pagexts t past now) {h : Hour}
    (hclose : t.closeHour pagexts h = some t') :
    Hours pagexts t' (past ++ now) [] ∧ t'.lastDate = t.lastDate ∧ t'.lastHour = h ∧
      (DayTables notref t ls → DayTables notref t' ls) := by
  obtain ⟨t₁, hpages, rfl⟩ := Option.map_eq_some_iff.mp hclose
  obtain ⟨hover, hdate, hday⟩ := hhours.close hpages
  refine ⟨⟨hover.frame rfl rfl rfl rfl, Lib.Mapping.tallies_empty,
    Lib.Mapping.tallies_empty, fun l hl => absurd hl (List.not_mem_nil)⟩, hdate, rfl,
    fun h => (hday h).frame rfl⟩

/-! ## The end of a day -/

/-- Each line that is delivered is in a directory once, as a page or as a hit. -/
theorem count_directory (ls : List LogLine) (k : Str) :
    ((ls.filterMap (LogLine.page pagexts)).filterMap directoryKey ++
      (ls.filterMap (LogLine.hit pagexts)).filterMap directoryKey).count k =
        (ls.filterMap (LogLine.directory pagexts)).count k := by
  rw [List.count_append, List.filterMap_filterMap, List.filterMap_filterMap]
  induction ls with
  | nil => rfl
  | cons l ls ih =>
    have hdir : l.directory pagexts = ((l.page pagexts).or (l.hit pagexts)).bind directoryKey := rfl
    have hone : l.page pagexts = none ∨ l.hit pagexts = none := by
      unfold LogLine.page LogLine.hit pageUrl hitUrl
      cases l.hit20x with
      | none => exact .inl rfl
      | some url =>
        dsimp only [Option.bind_some]
        cases urlKey url with
        | none => exact .inl rfl
        | some key =>
          rw [Option.filter_some, Option.filter_some]
          cases ispage key pagexts with
          | true => exact .inr rfl
          | false => exact .inl rfl
    rw [List.filterMap_cons, List.filterMap_cons, List.filterMap_cons, hdir]
    obtain hnone | hnone := hone
    · rw [hnone, Option.none_or, Option.bind_none]
      cases (l.hit pagexts).bind directoryKey with
      | none => exact ih
      | some k' =>
        dsimp only
        rw [List.count_cons, List.count_cons, ← ih, Nat.add_assoc]
    · rw [hnone, Option.or_none, Option.bind_none]
      cases (l.page pagexts).bind directoryKey with
      | none => exact ih
      | some k' =>
        dsimp only
        rw [List.count_cons, List.count_cons, ← ih, Nat.add_right_comm]

theorem filterMap_referredto (ls : List LogLine) :
    (ls.filterMap fun l => (l.referral notref).map fun refer => (l.url, refer)).filterMap
      (fun x => (pageUrl pagexts x.1).map fun page => (page, cleanRef x.2)) =
        ls.filterMap (LogLine.referredto pagexts notref) := by
  rw [List.filterMap_filterMap]
  refine List.filterMap_congr fun l _ => ?_
  unfold LogLine.referredto
  cases l.referral notref with
  | none => rfl
  | some refer => rfl

theorem tallies_rekey {m : Counts} {f g : LogLine → Option Str} {key : Str → Option Str}
    (h : Tallies m (ls.filterMap f)) (hg : ∀ l, (f l).bind key = g l) :
    Tallies (rekey key ∅ m) (ls.filterMap g) := by
  have hkeyed := Lib.Mapping.tallies_empty.rekey h key
  rw [List.nil_append, List.filterMap_filterMap, funext hg] at hkeyed
  exact hkeyed

/-- What is delivered when all hours of the day are over. -/
theorem Over.summary (hover : Over pagexts t ls) (hday : DayTables notref t ls)
    (h : t.summarize pagexts = some t') (yy mm dd : Int) :
    Summary pagexts notref (t'.daily yy mm dd) ls := by
  unfold Totals.summarize at h
  obtain ⟨refs, hrefs, rfl⟩ := Option.map_eq_some_iff.mp h
  rw [summarizeRefsites_rekey, summarizeHosts_rekey, summarizeDirectories_rekey,
    summarizeDirectories_rekey, httpDecodeMapping_rekey, hday.refsites, hday.directories,
    hday.domains, hday.topdomains]
  have hhosts : ∀ key : Str → Option Str, Tallies (rekey key ∅ t.hosts)
      (ls.filterMap fun l => key l.addr) := by
    intro key
    have hkeyed := Lib.Mapping.tallies_empty.rekey hover.hosts key
    rw [List.filterMap_map] at hkeyed
    exact hkeyed
  refine ⟨hday.hitsPerHour, hover.pagesPerHour, hday.kbPerHour, hover.pages.valueAt,
    hover.hits.valueAt, hday.hits302.valueAt, hday.hitsPerError.valueAt, hday.errorUrls.valueAt,
    hday.errorRefs.valueAt, ?_, (tallies_rekey hday.referrers fun _ => rfl).valueAt,
    (tallies_rekey hday.referrers fun _ => rfl).valueAt, fun k => ?_,
    (tallies_rekey hday.userAgents fun l => ?_).valueAt, (hhosts _).valueAt, (hhosts _).valueAt,
    (hhosts _).valueAt⟩
  · have hpairs := tabulates_cleanRefto hrefs hday.referredto
    rw [filterMap_referredto] at hpairs
    exact hpairs.valueAt
  · have hdirs := (Lib.Mapping.tallies_empty.rekey hover.pages directoryKey).rekey hover.hits
      directoryKey
    rw [List.nil_append] at hdirs
    exact (hdirs.valueAt k).trans (congrArg _ (count_directory ls k))
  · exact Option.map_eq_bind.symm

/-! ## One more line -/

/-- What is counted of the lines of a day, some of whose hours are over. -/
def OpenDay (pagexts : List Str) (notref : Option Str) (t : Totals F) (ls : List LogLine) : Prop :=
  DayTables notref t ls ∧ ∃ past now, ls = past ++ now ∧ Hours pagexts t past now

/-- The totals before the first line of a day. -/
theorem openDay_empty (h : t = { Totals.empty F with
      sessionStart := t.sessionStart
      sessionEnd := t.sessionEnd
      hits20x := t.hits20x
      lastHour := t.lastHour
      lastDate := t.lastDate }) (hhits : Tallies t.hits20x []) :
    OpenDay pagexts notref t [] := by
  refine ⟨?_, [], [], rfl, ?_, hhits, ?_, fun l hl => absurd hl List.not_mem_nil⟩
  · rw [h]
    exact dayTables_empty.frame rfl
  · rw [h]
    exact over_empty.frame rfl rfl rfl rfl
  · rw [h]
    exact Lib.Mapping.tallies_empty

/-- When a line of another hour or date comes, the hour is over, or the day. -/
theorem OpenDay.advance (hopen : OpenDay pagexts notref t ls) (hfirst : t.lastDate ≠ 0)
    {date : Int} {h : Hour} {days : List (Daily F)}
    (hadv : t.advance pagexts date h = some (days, t')) : t'.At h date ∧
      (t.lastDate = date ∧ days = [] ∧ OpenDay pagexts notref t' ls ∨
        t.lastDate ≠ date ∧ OpenDay pagexts notref t' [] ∧ ∃ d, days = [d] ∧
          Summary pagexts notref d ls ∧ d.yy = t.lastDate.tdiv 10000 ∧
          d.mm = (t.lastDate.tmod 10000).tdiv 100 ∧ d.dd = (t.lastDate.tmod 10000).tmod 100) := by
  obtain ⟨hday, past, now, rfl, hhours⟩ := hopen
  unfold Totals.advance at hadv
  rw [if_neg hfirst] at hadv
  by_cases hsame : t.lastHour = h ∧ t.lastDate = date
  · rw [if_pos hsame] at hadv
    cases hadv
    exact ⟨hsame, .inl ⟨hsame.2, rfl, hday, past, now, rfl, hhours⟩⟩
  rw [if_neg hsame] at hadv
  cases hclose : t.closeHour pagexts h with
  | none =>
    rw [hclose] at hadv
    cases hadv
  | some t₁ =>
    rw [hclose] at hadv
    dsimp only at hadv
    obtain ⟨hhours₁, hdate₁, hhour₁, hday₁⟩ := hhours.closeHour hclose
    by_cases hdate : t.lastDate = date
    · rw [hdate₁, if_pos hdate] at hadv
      cases hadv
      exact ⟨⟨hhour₁, hdate₁.trans hdate⟩, .inl ⟨hdate, rfl, hday₁ hday, past ++ now, [],
        (List.append_nil _).symm, hhours₁⟩⟩
    · rw [hdate₁, if_neg hdate] at hadv
      obtain ⟨t₂, hsum, hnew⟩ := Option.map_eq_some_iff.mp hadv
      cases hnew
      have hsummary := hhours₁.past.summary (hday₁ hday) hsum (t₂.lastDate.tdiv 10000)
        ((t₂.lastDate.tmod 10000).tdiv 100) ((t₂.lastDate.tmod 10000).tmod 100)
      obtain ⟨refs, -, rfl⟩ := Option.map_eq_some_iff.mp hsum
      refine ⟨⟨hhour₁, rfl⟩, .inr ⟨hdate, openDay_empty rfl hhours₁.hits20x, _, rfl, hsummary, ?_⟩⟩
      rw [← hdate₁]
      exact ⟨rfl, rfl, rfl⟩

/-- What has been delivered of the lines, and what is open. -/
def Reached (pagexts : List Str) (notref : Option Str) (ls : List LogLine) (days : List (Daily F))
    (t : Totals F) : Prop :=
  ls = [] ∧ days = [] ∧ t = Totals.empty F ∨
    t.lastDate ≠ 0 ∧ ∃ before group, ls.splitBy sameDate = before ++ [group] ∧
      List.Forall₂ (fun d g => Summary pagexts notref d g ∧ Dated d g) days before ∧
      OpenDay pagexts notref t group ∧ (∀ l ∈ group, l.date = t.lastDate) ∧
      ∃ a, ls.getLast? = some a ∧ a.date = t.lastDate

/-- A line that is put to the totals of its own hour. -/
theorem OpenDay.line {h : Hour} {l : LogLine} (hopen : OpenDay pagexts notref t ls)
    (hhour : t.lastHour = h) (hl : l.h = h.val) :
    OpenDay pagexts notref ((t.processSession l.addr l.time h).addLine notref h l) (ls ++ [l]) ∧
      ((t.processSession l.addr l.time h).addLine notref h l).lastDate = t.lastDate := by
  subst hhour
  obtain ⟨hday, past, now, rfl, hhours⟩ := hopen
  obtain ⟨hday', hhours', hdate⟩ := countLine hday hhours hl
  exact ⟨⟨hday', past, now ++ [l], List.append_assoc .., hhours'⟩, hdate⟩

theorem hourIndex_some {n : Int} {h : Hour} (hn : hourIndex n = some h) : n = h.val := by
  unfold hourIndex at hn
  split at hn
  · cases hn
    exact (Int.toNat_of_nonneg (by omega)).symm
  · cases hn

theorem Reached.account {days days' : List (Daily F)} {l : LogLine}
    (hreached : Reached pagexts notref ls days t) (hdate : l.date ≠ 0)
    (h : account pagexts notref t l = some (days', t')) :
    Reached pagexts notref (ls ++ [l]) (days ++ days') t' := by
  rw [account_eq] at h
  obtain ⟨hour, hindex, h⟩ := Option.bind_eq_some_iff.mp h
  obtain ⟨⟨closed, t₁⟩, hadv, h⟩ := Option.map_eq_some_iff.mp h
  cases h
  have hl := hourIndex_some hindex
  obtain ⟨rfl, rfl, rfl⟩ | ⟨hfirst, before, group, hsplit, hdays, hopen, hgroup, a, hlast, ha⟩ :=
    hreached
  · -- the first line of the log
    obtain ⟨hnone, hdated⟩ : closed = [] ∧ t₁ =
        { Totals.empty F with lastDate := l.date, lastHour := hour } := by
      cases hadv
      exact ⟨rfl, rfl⟩
    rw [hnone, hdated]
    have hempty : OpenDay pagexts notref
        { Totals.empty F with lastDate := l.date, lastHour := hour } [] :=
      openDay_empty rfl Lib.Mapping.tallies_empty
    obtain ⟨hline, hlineDate⟩ := hempty.line rfl hl
    refine .inr ⟨by rw [hlineDate]; exact hdate, [], [l], rfl, .nil, hline, fun l' hl' => ?_, l, rfl,
      hlineDate.symm⟩
    rw [List.mem_singleton.mp hl']
    exact hlineDate.symm
  obtain ⟨hat, ⟨hsame, hnone, hopen₁⟩ | ⟨hother, hopen₁, d, hone, hsummary, hyear, hmonth, hday⟩⟩ :=
    hopen.advance hfirst hadv
  · -- the line goes on with the last group
    obtain ⟨hline, hlineDate⟩ := hopen₁.line hat.1 hl
    rw [hat.2] at hlineDate
    obtain ⟨before', group', -, -, hsplit', hconcat⟩ := Lib.splitBy_concat_same (x := l) hlast
      (show sameDate a l = true from decide_eq_true (ha.trans hsame))
    obtain ⟨rfl, hgroups⟩ := List.append_inj' (hsplit.symm.trans hsplit') rfl
    cases hgroups
    rw [hnone, List.append_nil]
    refine .inr ⟨by rw [hlineDate]; exact hdate, before, group ++ [l], hconcat, hdays, hline,
      fun l' hl' => ?_, l, List.getLast?_concat, hlineDate.symm⟩
    rw [hlineDate]
    obtain hl' | hl' := List.mem_append.mp hl'
    · exact (hgroup l' hl').trans hsame
    · rw [List.mem_singleton.mp hl']
  · -- the line begins a group, and the last one is delivered
    obtain ⟨hline, hlineDate⟩ := hopen₁.line hat.1 hl
    rw [hat.2] at hlineDate
    have hconcat : (ls ++ [l]).splitBy sameDate = ls.splitBy sameDate ++ [[l]] := by
      refine Lib.splitBy_concat_apart fun b hb => ?_
      rw [hlast] at hb
      cases hb
      exact decide_eq_false fun heq => hother (ha.symm.trans heq)
    rw [hsplit] at hconcat
    have hdated : Dated d group := by
      intro l' hl'
      rw [hgroup l' hl']
      exact ⟨hyear, hmonth, hday⟩
    rw [hone]
    refine .inr ⟨by rw [hlineDate]; exact hdate, before ++ [group], [l], hconcat,
      List.rel_append hdays (.cons ⟨hsummary, hdated⟩ .nil), hline, fun l' hl' => ?_, l,
      List.getLast?_concat, hlineDate.symm⟩
    rw [hlineDate, List.mem_singleton.mp hl']

/-! ## The run -/

variable {s u : Reader F} {st st' : Mode × Reader F}

/-- What only the end of a line that is counted changes. -/
def Reader.book (s : Reader F) : Totals F × List (Daily F) × Nat := (s.totals, s.days, s.lines)

theorem Uncounted.book (h : Uncounted s u) : u.book = s.book := by
  rw [Reader.book, h.totals, h.days, h.lines]
  rfl

/-- A field, or a character of one. -/
theorem book_readChar {c : Char} (hc : charClass c ≠ .crlf) :
    (s.readChar env c).All fun u => u.book = s.book := by
  by_cases hend : charClass c = (s.state env).ending
  · obtain ⟨v, hv⟩ | ⟨v, -, hskip, hsame⟩ := readChar_end env s (.inl hend)
    · have hbook : (s.processField env).All (Uncounted s) := uncounted_processField s
      rw [hv] at hbook
      rw [readChar_of_processed (.inl hend) hv, if_pos hc]
      exact hbook.book
    · rw [hskip]
      exact hsame.book
  · rw [readChar_other hend hc, Reader.bufset]
    dsimp only
    split
    · rfl
    · rfl

/-- A character ends a line that is counted, or changes nothing that counts. -/
theorem stepChar_account {c : Char} (h : stepChar env st c = some st') :
    lineAt env st c = none ∧ st'.2.book = st.2.book ∨
      ∃ l days, lineAt env st c = some l ∧ l.date ≠ 0 ∧
        account env.pagexts env.notref st.2.totals l = some (days, st'.2.totals) ∧
          st'.2.days = st.2.days ++ days ∧ st'.2.lines = st.2.lines + 1 := by
  obtain ⟨m, s⟩ := st
  cases m with
  | skip =>
    refine .inl ⟨rfl, ?_⟩
    rw [stepChar] at h
    cases h
    split
    · rfl
    · rfl
  | main =>
    rw [stepChar] at h
    by_cases hc : charClass c = .crlf
    · obtain ⟨u, hu⟩ | ⟨v, hv, hskip, hsame⟩ := readChar_end env s (.inr hc)
      · have hbook : (s.processField env).All (Uncounted s) := uncounted_processField s
        rw [hu] at hbook
        rw [readChar_of_processed (.inr hc) hu, if_neg (not_not.mpr hc)] at h
        unfold lineAt
        dsimp only
        rw [if_pos hc, hu]
        dsimp only
        unfold Reader.endLine at h
        by_cases hfew : u.nextField.statePos < env.numStates
        · rw [if_pos hfew] at h
          cases h
          exact .inl ⟨if_pos (.inl hfew), hbook.book⟩
        rw [if_neg hfew] at h
        by_cases hdate : u.nextField.logLine.date = 0
        · rw [if_pos hdate] at h
          cases h
          exact .inl ⟨if_pos (.inr hdate), hbook.book⟩
        rw [if_neg hdate] at h
        cases haccount : account env.pagexts env.notref u.nextField.totals u.nextField.logLine with
        | none =>
          rw [haccount] at h
          cases h
        | some r =>
          rw [haccount] at h
          cases h
          have htotals : u.nextField.totals = s.totals := hbook.totals
          rw [htotals] at haccount
          refine .inr ⟨_, r.1, if_neg (not_or.mpr ⟨hfew, hdate⟩), hdate, haccount, ?_, ?_⟩
          · rw [← hbook.days]
            rfl
          · rw [← hbook.lines]
            rfl
      · rw [hskip] at h
        cases h
        refine .inl ⟨?_, hsame.book⟩
        unfold lineAt
        dsimp only
        rw [if_pos hc, hv]
    · have hbook : (s.readChar env c).All fun u => u.book = s.book := book_readChar hc
      refine .inl ⟨if_neg hc, ?_⟩
      cases hread : s.readChar env c with
      | next v =>
        rw [hread] at h hbook
        cases h
        exact hbook
      | skip v =>
        rw [hread] at h hbook
        cases h
        exact hbook
      | undefined =>
        rw [hread] at hbook
        exact hbook.elim

/-- Wherever the reader has come to, the lines that are counted have been delivered or are in the
totals. -/
theorem reached_readAll {ls : List LogLine} {cs : Str}
    (hreached : Reached env.pagexts env.notref ls st.2.days st.2.totals)
    (hlines : st.2.lines = ls.length) (h : readAll env st cs = some st') :
    Reached env.pagexts env.notref (ls ++ countedLines env st cs) st'.2.days st'.2.totals ∧
      st'.2.lines = (ls ++ countedLines env st cs).length := by
  induction cs generalizing st ls with
  | nil =>
    cases h
    rw [countedLines, List.append_nil]
    exact ⟨hreached, hlines⟩
  | cons c cs ih =>
    rw [readAll_cons] at h
    obtain ⟨st₁, hstep, hrest⟩ := Option.bind_eq_some_iff.mp h
    rw [countedLines, hstep, ← List.append_assoc]
    obtain ⟨hnone, hbook⟩ | ⟨l, days, hline, hdate, haccount, hdays, hnum⟩ := stepChar_account hstep
    · obtain ⟨htotals, hdays⟩ := Prod.mk.inj hbook
      obtain ⟨hdays, hnum⟩ := Prod.mk.inj hdays
      rw [hnone]
      refine ih ?_ ?_ hrest
      · rw [hdays, htotals, Option.toList_none, List.append_nil]
        exact hreached
      · rw [hnum, Option.toList_none, List.append_nil]
        exact hlines
    · rw [hline]
      refine ih ?_ ?_ hrest
      · rw [hdays]
        exact hreached.account hdate haccount
      · rw [hnum, hlines, Option.toList_some, List.length_append]
        rfl

/-- What is delivered at the end of the log. -/
theorem Reached.finish {ls : List LogLine} {days days' : List (Daily F)} {t : Totals F}
    {points : Field → Int} (hreached : Reached env.pagexts env.notref ls days t)
    (h : t.finish env.pagexts (points .year) (points .month) (points .date) = some days') :
    Delivered env points ls (days ++ days') := by
  have hopen : ∃ before group, (ls.splitBy sameDate).dropLast = before ∧
      (ls.splitBy sameDate).getLastD [] = group ∧
      List.Forall₂ (fun d g => Summary env.pagexts env.notref d g ∧ Dated d g) days before ∧
      OpenDay env.pagexts env.notref t group := by
    obtain ⟨rfl, rfl, rfl⟩ | ⟨-, before, group, hsplit, hdays, hopen, -⟩ := hreached
    · exact ⟨[], [], rfl, rfl, .nil, openDay_empty rfl Lib.Mapping.tallies_empty⟩
    · refine ⟨before, group, ?_, ?_, hdays, hopen⟩
      · rw [hsplit, List.dropLast_concat]
      · rw [hsplit, List.getLastD_concat]
  obtain ⟨before, group, hbefore, hgroup, hdays, hday, past, now, rfl, hhours⟩ := hopen
  unfold Totals.finish at h
  refine ⟨days, days', rfl, by rw [hbefore]; exact hdays, ?_⟩
  split at h
  · next hdate =>
    rw [if_pos hdate, hgroup]
    cases hpages : t.closePages env.pagexts with
    | none =>
      rw [hpages] at h
      cases h
    | some t₁ =>
      rw [hpages] at h
      obtain ⟨t₂, hsum, rfl⟩ := Option.map_eq_some_iff.mp h
      obtain ⟨hover, -, hday₁⟩ := hhours.close hpages
      exact ⟨_, rfl, hover.summary (hday₁ hday) hsum _ _ _, rfl, rfl, rfl⟩
  · next hdate =>
    rw [if_neg hdate]
    cases h
    rfl

/-- Two days of one line. -/
def twoDays : List Str := ["/a 01/02/2003\n/b 02/02/2003\n".toList]

end Caudium.UltraLog
