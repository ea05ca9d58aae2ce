import Caudium.Lib.Tally
import Caudium.UltraLog.Hosts
import Caudium.UltraLog.PageHits
import Caudium.UltraLog.Required

/-!
# What a line is counted under

A line is counted under one key of each table, or under none. This module says which key that is,
table by table, and that the functions which count do so: what a line adds when it is read
(`account_eq`), and what is made of the tables when the hour and the day are over
(`hourlyPageHits_some`, `summarize_some`).
-/

namespace Caudium.UltraLog

open Lib (Str Mapping)
open Lib.Mapping (Tallies Tabulates rekey addPair countWhere countPairs valueAt)

variable {F : Floats} {pagexts : List Str} {notref : Option Str}

/-! ## Keys -/

/-- What is done with a line, by its return code. -/
inductive Outcome where
  | delivered
  | redirected
  | failed
  | other
  deriving DecidableEq, Repr

def LogLine.outcome (l : LogLine) : Outcome :=
  if l.code ∈ [200, 201, 202, 203, 204, 205, 206, 207, 304] then .delivered
  else if l.code ∈ [300, 301, 302, 303, 305] then .redirected
  else if l.code ∈ [400, 404, 405, 406, 408, 409, 410, 411, 412, 413, 414, 415, 416, 500, 501] then
    .failed
  else .other

/-- The line is of that hour. -/
def LogLine.inHour (h : Hour) (l : LogLine) : Bool := decide (l.h = (h.val : Int))

/-- The decoded path that a URL is counted under. -/
def urlKey (url : Str) : Option Str := (urlPart url).map httpDecodeString

def pageUrl (pagexts : List Str) (url : Str) : Option Str :=
  (urlKey url).filter fun key => ispage key pagexts

def hitUrl (pagexts : List Str) (url : Str) : Option Str :=
  (urlKey url).filter fun key => !ispage key pagexts

/-- The URL, in `hits20x`. -/
def LogLine.hit20x (l : LogLine) : Option Str := if l.outcome = .delivered then some l.url else none

def LogLine.hit302 (l : LogLine) : Option Str := if l.outcome = .redirected then some l.url else none

def LogLine.page (pagexts : List Str) (l : LogLine) : Option Str := l.hit20x.bind (pageUrl pagexts)

def LogLine.hit (pagexts : List Str) (l : LogLine) : Option Str := l.hit20x.bind (hitUrl pagexts)

def LogLine.errorUrl (l : LogLine) : Option (Int × Str) :=
  if l.outcome = .failed then some (l.code, l.url) else none

def LogLine.errorRef (l : LogLine) : Option (Str × Str) :=
  if l.outcome = .failed ∧ 1 < l.refer.length then some (l.url, l.refer) else none

/-- The referrer, if it is one that is looked at. -/
def LogLine.referral (notref : Option Str) (l : LogLine) : Option Str :=
  if (l.outcome = .delivered ∨ l.outcome = .redirected) ∧ 1 < l.refer.length ∧
      notref.all fun n => !hasPart l.refer n then
    some l.refer
  else none

/-- The referrer with its host in small letters. -/
def wholeRef (refer : Str) : Option Str := (ultraLowercaseHost refer).map Prod.fst

/-- The site of a referrer. -/
def siteRef (refer : Str) : Option Str := (ultraLowercaseHost refer).map fun r => r.1.take r.2

def LogLine.referrer (notref : Option Str) (l : LogLine) : Option Str :=
  (l.referral notref).bind wholeRef

def LogLine.refsite (notref : Option Str) (l : LogLine) : Option Str :=
  (l.referral notref).bind siteRef

/-- A referrer, as it stands in `referredto` at the end of the day. -/
def cleanRef (refer : Str) : Str :=
  match ultraLowercaseHost (refer.take maxLineLen) with
  | some (lowered, _) => lowered
  | none => refer.take maxLineLen

/-- The page and its referrer. -/
def LogLine.referredto (pagexts : List Str) (notref : Option Str) (l : LogLine) :
    Option (Str × Str) :=
  (l.referral notref).bind fun refer => (pageUrl pagexts l.url).map fun page => (page, cleanRef refer)

/-- The line is one of a page. -/
def LogLine.pageIn (pagexts : List Str) (h : Hour) (l : LogLine) : Bool :=
  l.inHour h && (l.page pagexts).isSome

def directoryKey (file : Str) : Option Str := if file = [] then none else some (directoryOf file)

/-- The directory of the page or of the hit. -/
def LogLine.directory (pagexts : List Str) (l : LogLine) : Option Str :=
  ((l.page pagexts).or (l.hit pagexts)).bind directoryKey

def LogLine.rawAgent (l : LogLine) : Option Str := if 1 < l.agent.length then some l.agent else none

def LogLine.userAgent (l : LogLine) : Option Str := l.rawAgent.map httpDecodeString

/-- A host that is too long for the buffer is counted as it is, and is not in `newhosts`. -/
def anyHost (key : Str → Option Str) (long : Option Str) (host : Str) : Option Str :=
  if maxLineLen ≤ host.length then long else key host

def LogLine.host (l : LogLine) : Option Str := anyHost newhostKey none l.addr

def LogLine.domain (l : LogLine) : Option Str := anyHost domainKey (some l.addr) l.addr

def LogLine.topdomain (l : LogLine) : Option Str := anyHost topKey (some l.addr) l.addr

/-! ## Counting under a key -/

/-- One more under the key, if there is one. -/
def seen {κ : Type} [DecidableEq κ] (m : Mapping κ Int) (key : Option κ) : Mapping κ Int :=
  key.elim m (mapadd m)

def seenPair {κ : Type} [DecidableEq κ] (t : Tables κ) (keys : Option (κ × Str)) : Tables κ :=
  keys.elim t fun k => map2add t k.1 k.2

theorem tallies_seen {κ : Type} [DecidableEq κ] {m : Mapping κ Int} {f : LogLine → Option κ}
    {ls : List LogLine} (h : Tallies m (ls.filterMap f)) (l : LogLine) :
    Tallies (seen m (f l)) ((ls ++ [l]).filterMap f) := by
  rw [List.filterMap_append]
  cases hkey : f l with
  | none =>
    rw [List.filterMap_cons_none hkey, List.filterMap_nil, List.append_nil]
    exact h
  | some k =>
    rw [List.filterMap_cons_some hkey, List.filterMap_nil]
    exact h.concat k

theorem tabulates_seenPair {κ : Type} [DecidableEq κ] {t : Tables κ}
    {f : LogLine → Option (κ × Str)} {ls : List LogLine} (h : Tabulates t (ls.filterMap f))
    (l : LogLine) : Tabulates (seenPair t (f l)) ((ls ++ [l]).filterMap f) := by
  rw [List.filterMap_append]
  cases hkey : f l with
  | none =>
    rw [List.filterMap_cons_none hkey, List.filterMap_nil, List.append_nil]
    exact h
  | some k =>
    rw [List.filterMap_cons_some hkey, List.filterMap_nil]
    exact h.concat k.1 k.2

/-! ## A line -/

/-- What a line adds to the tables, in its hour. -/
def Totals.addLine (notref : Option Str) (h : Hour) (t : Totals F) (l : LogLine) : Totals F :=
  { t with
    hits20x := seen t.hits20x l.hit20x
    hits302 := seen t.hits302 l.hit302
    errorUrls := seenPair t.errorUrls l.errorUrl
    errorRefs := seenPair t.errorRefs l.errorRef
    referrers := seen t.referrers (l.referral notref)
    referredto := seenPair t.referredto ((l.referral notref).map fun refer => (l.url, refer))
    userAgents := seen t.userAgents l.rawAgent
    hitsPerError := mapadd t.hitsPerError l.code
    kbPerHour := t.kbPerHour.set h (F.addKb (t.kbPerHour h) l.bytes)
    hitsPerHour := t.hitsPerHour.set h (t.hitsPerHour h + 1) }

theorem doReferrer_eq (t : Totals F) {l : LogLine}
    (h : l.outcome = .delivered ∨ l.outcome = .redirected) : t.doReferrer notref l =
      { t with
        referrers := seen t.referrers (l.referral notref)
        referredto := seenPair t.referredto
          ((l.referral notref).map fun refer => (l.url, refer)) } := by
  unfold Totals.doReferrer LogLine.referral
  by_cases hrefer : 1 < l.refer.length ∧ notref.all (fun n => !hasPart l.refer n)
  · rw [if_pos hrefer, if_pos ⟨h, hrefer⟩]
    rfl
  · rw [if_neg hrefer, if_neg fun hall => hrefer hall.2]
    rfl

theorem referral_none {l : LogLine} (h : l.outcome ≠ .delivered) (h' : l.outcome ≠ .redirected) :
    l.referral notref = none :=
  if_neg fun hall => hall.1.elim h h'

theorem doErref_eq (t : Totals F) {l : LogLine} (h : l.outcome = .failed) :
    t.doErref l = { t with errorRefs := seenPair t.errorRefs l.errorRef } := by
  unfold Totals.doErref LogLine.errorRef
  by_cases hrefer : 1 < l.refer.length
  · rw [if_pos hrefer, if_pos ⟨h, hrefer⟩]
    rfl
  · rw [if_neg hrefer, if_neg fun hall => hrefer hall.2]
    rfl

/-- The code counts in the tables of its outcome, and in no others. -/
theorem countCode_eq (t : Totals F) (l : LogLine) : t.countCode notref l =
    { t with
      hits20x := seen t.hits20x l.hit20x
      hits302 := seen t.hits302 l.hit302
      errorUrls := seenPair t.errorUrls l.errorUrl
      errorRefs := seenPair t.errorRefs l.errorRef
      referrers := seen t.referrers (l.referral notref)
      referredto := seenPair t.referredto
        ((l.referral notref).map fun refer => (l.url, refer)) } := by
  unfold Totals.countCode
  by_cases hok : l.code ∈ [200, 201, 202, 203, 204, 205, 206, 207, 304]
  · have hout : l.outcome = .delivered := if_pos hok
    rw [if_pos hok, doReferrer_eq _ (.inl hout)]
    simp [LogLine.hit20x, LogLine.hit302, LogLine.errorUrl, LogLine.errorRef, hout, seen, seenPair]
  rw [if_neg hok]
  by_cases hmoved : l.code ∈ [300, 301, 302, 303, 305]
  · have hout : l.outcome = .redirected := (if_neg hok).trans (if_pos hmoved)
    rw [if_pos hmoved, doReferrer_eq _ (.inr hout)]
    simp [LogLine.hit20x, LogLine.hit302, LogLine.errorUrl, LogLine.errorRef, hout, seen, seenPair]
  rw [if_neg hmoved]
  split
  · next hfailed =>
    have hout : l.outcome = .failed := (if_neg hok).trans ((if_neg hmoved).trans (if_pos hfailed))
    have href : l.referral notref = none := referral_none (by rw [hout]; decide) (by rw [hout]; decide)
    rw [doErref_eq t hout, href]
    simp [LogLine.hit20x, LogLine.hit302, LogLine.errorUrl, hout, seen, seenPair]
  · next hother =>
    have hout : l.outcome = .other := (if_neg hok).trans ((if_neg hmoved).trans (if_neg hother))
    have href : l.referral notref = none := referral_none (by rw [hout]; decide) (by rw [hout]; decide)
    rw [href]
    simp [LogLine.hit20x, LogLine.hit302, LogLine.errorUrl, LogLine.errorRef, hout, seen, seenPair]

/-- The time of the line, in seconds. -/
def LogLine.time (l : LogLine) : Int := wrap32 (l.h * 3600 + l.m * 60 + l.s)

/-- A line is counted in its hour, after what it closes has been closed. -/
theorem account_eq (t : Totals F) (l : LogLine) : account pagexts notref t l =
    (hourIndex l.h).bind fun h => (t.advance pagexts l.date h).map fun r =>
      (r.1, (r.2.processSession l.addr l.time h).addLine notref h l) := by
  unfold account
  cases hourIndex l.h with
  | none => rfl
  | some h =>
    dsimp only [Option.bind_some]
    cases t.advance pagexts l.date h with
    | none => rfl
    | some r =>
      dsimp only [Option.map_some]
      rw [countCode_eq]
      unfold Totals.addLine LogLine.rawAgent LogLine.time
      split
      · rfl
      · rfl

/-- What a session changes beside its arrays. -/
theorem processSession_eq (t : Totals F) (host : Str) (time : Int) (h : Hour) :
    ∃ n d starts ends, t.processSession host time h =
      { t with
        sites := mapadd t.sites host
        sessionsPerHour := n
        sessionLength := d
        sessionStart := starts
        sessionEnd := ends } := by
  unfold Totals.processSession
  dsimp only
  split
  · split
    · exact ⟨_, _, _, _, rfl⟩
    · exact ⟨_, _, _, _, rfl⟩
  · exact ⟨_, _, _, _, rfl⟩

/-! ## The end of the hour -/

/-- The page hits of an hour are those of the pages among its URLs, and the hits the others. -/
theorem hourlyPageHits_some {urls pages hits pages' hits' : Counts} {n : UInt32}
    (h : hourlyPageHits urls pages hits pagexts = some (pages', hits', n)) :
    pages' = rekey (pageUrl pagexts) pages urls ∧ hits' = rekey (hitUrl pagexts) hits urls ∧
      n = UInt32.ofInt (urls.countWhere fun url => (pageUrl pagexts url).isSome) := by
  have hstep : ∀ (e : Sigma fun _ : Str => Int) (acc acc' : Counts × Counts × UInt32),
      pageHit pagexts acc e.1 e.2 = some acc' →
        acc'.1 = (pageUrl pagexts e.1).elim acc.1 (fun k => acc.1.addAt k e.2) ∧
          acc'.2.1 = (hitUrl pagexts e.1).elim acc.2.1 (fun k => acc.2.1.addAt k e.2) ∧
          acc'.2.2 = acc.2.2 + UInt32.ofInt (if (pageUrl pagexts e.1).isSome then e.2 else 0) := by
    intro e acc acc' hacc
    rw [pageHit_eq] at hacc
    obtain ⟨part, hpart, rfl⟩ := Option.map_eq_some_iff.mp hacc
    have hkey : urlKey e.1 = some (httpDecodeString part) := by rw [urlKey, hpart]; rfl
    unfold pageUrl hitUrl addHit
    rw [hkey]
    by_cases hpage : ispage (httpDecodeString part) pagexts = true
    · rw [if_pos hpage, Option.filter_some, if_pos hpage, Option.filter_some, hpage]
      exact ⟨rfl, rfl, rfl⟩
    · rw [if_neg hpage, Option.filter_some, if_neg hpage, Option.filter_some,
        Bool.eq_false_iff.mpr hpage]
      exact ⟨rfl, rfl, (UInt32.add_zero _).symm⟩
  have hentries : ∀ (es : List (Sigma fun _ : Str => Int)) (acc acc' : Counts × Counts × UInt32),
      es.foldlM (fun acc e => pageHit pagexts acc e.1 e.2) acc = some acc' →
        acc'.1 = es.foldl (fun t e => (pageUrl pagexts e.1).elim t fun k => t.addAt k e.2) acc.1 ∧
          acc'.2.1 =
            es.foldl (fun t e => (hitUrl pagexts e.1).elim t fun k => t.addAt k e.2) acc.2.1 ∧
          acc'.2.2 = acc.2.2 + UInt32.ofInt
            (es.map fun e => if (pageUrl pagexts e.1).isSome then e.2 else 0).sum := by
    intro es
    induction es with
    | nil =>
      intro acc acc' hacc
      cases hacc
      exact ⟨rfl, rfl, (UInt32.add_zero _).symm⟩
    | cons e es ih =>
      intro acc acc' hacc
      rw [List.foldlM_cons] at hacc
      obtain ⟨acc₁, hfirst, hrest⟩ := Option.bind_eq_some_iff.mp hacc
      obtain ⟨hpages, hhits, hnum⟩ := hstep e acc acc₁ hfirst
      obtain ⟨hpages', hhits', hnum'⟩ := ih acc₁ acc' hrest
      rw [hpages] at hpages'
      rw [hhits] at hhits'
      rw [hnum] at hnum'
      refine ⟨hpages', hhits', hnum'.trans ?_⟩
      rw [List.map_cons, List.sum_cons, UInt32.ofInt_add, UInt32.add_assoc]
  obtain ⟨hpages, hhits, hnum⟩ := hentries urls.entries (pages, hits, 0) (pages', hits', n) h
  exact ⟨hpages, hhits, hnum.trans (UInt32.zero_add _)⟩

/-- The sessions of the hour are put into its arrays. -/
theorem summarizeSessions_eq (t : Totals F) : ∃ n d,
    t.summarizeSessions = { t with sessionsPerHour := n, sessionLength := d } := by
  have hentries : ∀ (es : List (Sigma fun _ : Str => Int)) (t : Totals F), ∃ n d,
      es.foldl (fun t e =>
        t.addSession t.lastHour ((t.sessionEnd.lookup e.1).getD 0 - e.2)) t =
          { t with sessionsPerHour := n, sessionLength := d } := by
    intro es
    induction es with
    | nil => exact fun t => ⟨t.sessionsPerHour, t.sessionLength, rfl⟩
    | cons e es ih =>
      intro t
      obtain ⟨n, d, h⟩ := ih (t.addSession t.lastHour ((t.sessionEnd.lookup e.1).getD 0 - e.2))
      exact ⟨n, d, h⟩
  exact hentries t.sessionStart.entries t

/-! ## The end of the day -/

theorem summarizeHost_any (t : HostTables) (host : Str) (count : Int) :
    summarizeHost t host count =
      ⟨addUnder t.domains (anyHost domainKey (some host) host) count,
        addUnder t.topdomains (anyHost topKey (some host) host) count,
        addUnder t.newhosts (anyHost newhostKey none host) count⟩ := by
  unfold anyHost
  by_cases hlong : maxLineLen ≤ host.length
  · rw [if_pos hlong, if_pos hlong, if_pos hlong, summarizeHost, if_pos hlong]
    rfl
  · rw [if_neg hlong, if_neg hlong, if_neg hlong]
    exact summarizeHost_eq t (Nat.not_le.mp hlong) count

theorem summarizeHosts_rekey (hosts domains topdomains : Counts) :
    summarizeHosts hosts domains topdomains =
      ⟨rekey (fun host => anyHost domainKey (some host) host) domains hosts,
        rekey (fun host => anyHost topKey (some host) host) topdomains hosts,
        rekey (fun host => anyHost newhostKey none host) ∅ hosts⟩ := by
  have hentries : ∀ (es : List (Sigma fun _ : Str => Int)) (t : HostTables),
      es.foldl (fun t e => summarizeHost t e.1 e.2) t =
        ⟨es.foldl (fun m e => addUnder m (anyHost domainKey (some e.1) e.1) e.2) t.domains,
          es.foldl (fun m e => addUnder m (anyHost topKey (some e.1) e.1) e.2) t.topdomains,
          es.foldl (fun m e => addUnder m (anyHost newhostKey none e.1) e.2) t.newhosts⟩ := by
    intro es
    induction es with
    | nil => exact fun _ => rfl
    | cons e es ih =>
      intro t
      rw [List.foldl_cons, ih, summarizeHost_any]
      rfl
  exact hentries hosts.entries ⟨domains, topdomains, ∅⟩

theorem summarizeRefsites_rekey (refsites referrers : Counts) :
    summarizeRefsites refsites referrers =
      (rekey siteRef refsites referrers, rekey wholeRef ∅ referrers) := by
  unfold summarizeRefsites rekey
  -- the tables so far, while the entries are gone through
  generalize referrers.entries = es
  generalize (∅ : Counts) = refs
  induction es generalizing refsites refs with
  | nil => rfl
  | cons e es ih =>
    rw [List.foldl_cons, List.foldl_cons, List.foldl_cons, ← ih]
    unfold siteRef wholeRef
    cases ultraLowercaseHost e.1 with
    | none => rfl
    | some r => rfl

theorem summarizeDirectories_rekey (dirs files : Counts) :
    summarizeDirectories dirs files = rekey directoryKey dirs files := by
  unfold summarizeDirectories rekey
  congr 1
  funext m e
  unfold directoryKey
  split
  · rfl
  · rfl

theorem httpDecodeMapping_rekey (agents : Counts) :
    httpDecodeMapping agents = rekey (fun agent => some (httpDecodeString agent)) ∅ agents := rfl

/-- The pages are kept with the referrers of their URLs. -/
theorem countPairs_cleanRefto {refto dest : Tables Str}
    (h : cleanRefto refto pagexts = some dest) (p : Str → Str → Bool) :
    dest.countPairs p =
      refto.countPairs fun url refer => (pageUrl pagexts url).any fun page => p page (cleanRef refer) := by
  have hstep : ∀ (e : Sigma fun _ : Str => Counts) (t t' : Tables Str),
      cleanUrlRefs pagexts t e.1 e.2 = some t' →
        t'.countPairs p = t.countPairs p + e.2.countWhere fun refer =>
          (pageUrl pagexts e.1).any fun page => p page (cleanRef refer) := by
    intro e t t' ht
    rw [cleanUrlRefs_eq] at ht
    obtain ⟨part, hpart, rfl⟩ := Option.map_eq_some_iff.mp ht
    have hkey : urlKey e.1 = some (httpDecodeString part) := by rw [urlKey, hpart]; rfl
    unfold pageUrl addRefs
    rw [hkey, Option.filter_some]
    split
    · exact Lib.Mapping.countPairs_foldl p (httpDecodeString part) cleanRef e.2 t
    · refine (Int.add_zero _).symm.trans (congrArg _ ?_)
      symm
      exact List.sum_eq_zero fun x hx => by
        obtain ⟨_, -, rfl⟩ := List.mem_map.mp hx
        rfl
  have hentries : ∀ (es : List (Sigma fun _ : Str => Counts)) (t t' : Tables Str),
      es.foldlM (fun m e => cleanUrlRefs pagexts m e.1 e.2) t = some t' →
        t'.countPairs p = t.countPairs p + (es.map fun e => e.2.countWhere fun refer =>
          (pageUrl pagexts e.1).any fun page => p page (cleanRef refer)).sum := by
    intro es
    induction es with
    | nil =>
      intro t t' ht
      cases ht
      exact (Int.add_zero _).symm
    | cons e es ih =>
      intro t t' ht
      rw [List.foldlM_cons] at ht
      obtain ⟨t₁, hfirst, hrest⟩ := Option.bind_eq_some_iff.mp ht
      rw [ih t₁ t' hrest, hstep e t t₁ hfirst, List.map_cons, List.sum_cons, Int.add_assoc]
  exact (hentries refto.entries ∅ dest h).trans (Int.zero_add _)

theorem tabulates_cleanRefto {refto dest : Tables Str} {xs : List (Str × Str)}
    (h : cleanRefto refto pagexts = some dest) (hxs : Tabulates refto xs) :
    Tabulates dest (xs.filterMap fun x => (pageUrl pagexts x.1).map fun page =>
      (page, cleanRef x.2)) := by
  intro p
  rw [countPairs_cleanRefto h, hxs, Lib.Mapping.countP_filterMap_any]
  refine congrArg _ (List.countP_congr fun x _ => ?_)
  cases pageUrl pagexts x.1 with
  | none => rfl
  | some page => rfl

end Caudium.UltraLog
