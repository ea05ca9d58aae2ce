import Caudium.Http.ParseHeaders
import Caudium.Lib.Search
import Caudium.UltraLog.Format

/-!
# The tables (ultrautil.c)

What `ultraparse` counts with. An access that leaves its memory has no result (`none`):
these are the memory copies of length -1 for a URL that begins with '?', and, in Parse, the
hours that are not on the clock. The mappings are gone through in the order of their entries.
-/

namespace Caudium.UltraLog

open Lib (Str Mapping search)

def maxLineLen : Nat := 2048

def sessionIdle : Int := 600

/-- A table: how often each string was seen. -/
abbrev Counts := Mapping Str Int

/-- A table for each key. -/
abbrev Tables (κ : Type) := Mapping κ Counts

section Counting

variable {κ : Type} [DecidableEq κ]

/-- `mapaddintnum` and `mapaddstrnum`. -/
def mapaddnum (m : Mapping κ Int) (key : κ) (count : Int) : Mapping κ Int :=
  m.insert key ((m.lookup key).getD 0 + count)

/-- `mapaddstr`, `mapaddint` and `mapaddsval`. -/
def mapadd (m : Mapping κ Int) (key : κ) : Mapping κ Int := mapaddnum m key 1

/-- `map2addstrnum`. -/
def map2addnum (m : Tables κ) (key : κ) (key2 : Str) (count : Int) : Tables κ :=
  m.insert key (mapaddnum ((m.lookup key).getD ∅) key2 count)

/-- `map2addstr` and `map2addint`. -/
def map2add (m : Tables κ) (key : κ) (key2 : Str) : Tables κ := map2addnum m key key2 1

/-- `do_map_addition`, for mappings of integers. -/
def doMapAddition (to' : Mapping κ Int) (source : Mapping κ Int) : Mapping κ Int :=
  source.entries.foldl (fun m e => mapaddnum m e.1 e.2) to'

end Counting

/-! ## Strings -/

/-- A string up to its NUL. -/
def cString (s : Str) : Str := s.takeWhile (· ≠ '\x00')

/-- `http_decode_string`. -/
def httpDecodeString : Str → Str
  | [] => []
  | '%' :: a :: b :: rest =>
    Char.ofNat ((Http.hexValue a <<< 4) ||| Http.hexValue b) :: httpDecodeString rest
  -- no room for two digits
  | '%' :: _ => ['\x00']
  | c :: rest => c :: httpDecodeString rest

/-- `ultra_lowercase`. -/
def ultraLowercase (s : Str) : Str :=
  s.map fun c => if 'A'.toNat ≤ c.toNat ∧ c.toNat ≤ 'Z'.toNat then Char.ofNat (c.toNat + 32) else c

/-- The length of the part of a URL that `ultra_lowercase_host` changes, up to the '/' after
the host; `none` if it is not a whole URL. -/
def hostLength (ref : Str) : Option Nat :=
  if ref.length < 8 then none
  else (search ref "://".toList).map fun kss =>
    match search (ref.drop (kss + 3)) ['/'] with
    | some slash => kss + 3 + slash + 1
    | none => ref.length

/-- `ultra_lowercase_host`: the string, and what is stored in `trunc`. -/
def ultraLowercaseHost (ref : Str) : Option (Str × Nat) :=
  (hostLength ref).map fun n => (ultraLowercase (ref.take n) ++ ref.drop n, n)

/-- What follows the last '.', if there is one. -/
def extension (s : Str) : Option Str :=
  if '.' ∈ s then some (s.reverse.takeWhile (· ≠ '.')).reverse else none

/-- `ispage`. -/
def ispage (url : Str) (pagexts : List Str) : Bool :=
  if url = [] then false
  else if url.getLast? = some '/' ∨ url.head? ≠ some '/' then true
  else match extension (cString url) with
    | some ext => ext ∈ pagexts
    | none => false

/-- The part of a URL before its '?', and without the character before that. -/
def urlPart (url : Str) : Option Str :=
  match search url ['?'] with
  | none => some (url.take maxLineLen)
  | some 0 => none
  | some (i + 1) => some (url.take (min maxLineLen i))

/-! ## Summaries -/

/-- `hourly_page_hits`, for one URL: the pages so far, the hits and the number of pages. -/
def pageHit (pagexts : List Str) (acc : Counts × Counts × UInt32) (url : Str) (count : Int) :
    Option (Counts × Counts × UInt32) :=
  (urlPart url).map fun part =>
    let decoded := httpDecodeString part
    let (pages, hits, numpages) := acc
    if ispage decoded pagexts then
      (mapaddnum pages decoded count, hits, numpages + UInt32.ofInt count)
    else (pages, mapaddnum hits decoded count, numpages)

/-- `hourly_page_hits`. -/
def hourlyPageHits (urls pages hits : Counts) (pagexts : List Str) :
    Option (Counts × Counts × UInt32) :=
  urls.entries.foldlM (fun acc e => pageHit pagexts acc e.1 e.2) (pages, hits, 0)

/-- `http_decode_mapping`, into an empty mapping. -/
def httpDecodeMapping (source : Counts) : Counts :=
  source.entries.foldl (fun m e => mapaddnum m (httpDecodeString e.1) e.2) ∅

/-- `summarize_refsites`: the referring sites and the new referrers. -/
def summarizeRefsites (refsites referrers : Counts) : Counts × Counts :=
  referrers.entries.foldl (fun (sites, refs) e =>
    match ultraLowercaseHost e.1 with
    | some (lowered, trunc) =>
      (mapaddnum sites (lowered.take trunc) e.2, mapaddnum refs lowered e.2)
    | none => (sites, refs)) (refsites, ∅)

/-- The places of the dots in a host name, from its end; the last character is not looked
at. -/
def dots (host : Str) : List Nat :=
  (List.range (host.length - 1)).reverse.filter fun i => host.getD i '\x00' = '.'

/-- The tables of `summarize_hosts`. -/
structure HostTables where
  domains : Counts
  topdomains : Counts
  newhosts : Counts

/-- `summarize_hosts`, for one host. -/
def summarizeHost (t : HostTables) (host : Str) (count : Int) : HostTables :=
  let unknown := "Unresolved".toList
  if maxLineLen ≤ host.length then
    { t with
      topdomains := mapaddnum t.topdomains host count
      domains := mapaddnum t.domains host count }
  else if host.length ≤ 1 then
    { t with
      topdomains := mapaddnum t.topdomains unknown count
      domains := mapaddnum t.domains unknown count }
  else
    let lowered := ultraLowercase host
    let t := { t with newhosts := mapaddnum t.newhosts lowered count }
    match dots lowered with
    | [] =>
      { t with
        topdomains := mapaddnum t.topdomains host count
        domains := mapaddnum t.domains host count }
    | p :: rest =>
      -- the number of an address that has no name
      if charClass (lowered.getD (p + 1) '\x00') = .digit then t
      else
        let t := { t with
          topdomains := mapaddnum t.topdomains (cString (lowered.drop (p + 1))) count }
        match rest with
        | [] => { t with domains := mapaddnum t.domains host count }
        | q :: _ => { t with domains := mapaddnum t.domains (cString (lowered.drop (q + 1))) count }

/-- `summarize_hosts`. -/
def summarizeHosts (hosts domains topdomains : Counts) : HostTables :=
  hosts.entries.foldl (fun t e => summarizeHost t e.1 e.2) ⟨domains, topdomains, ∅⟩

/-- The directory that a file is counted for; the string "Unknown" has its NUL in it. -/
def directoryOf (file : Str) : Str :=
  if file.head? ≠ some '/' then "Unknown\x00".toList
  else match search (file.drop 1) ['/'] with
    | none | some 0 => file.take 1
    | some (i + 1) => file.take (i + 3)

/-- `summarize_directories`. -/
def summarizeDirectories (dirs files : Counts) : Counts :=
  files.entries.foldl (fun m e => if e.1 = [] then m else mapaddnum m (directoryOf e.1) e.2) dirs

/-- `clean_refto`, for one URL. -/
def cleanUrlRefs (pagexts : List Str) (dest : Tables Str) (url : Str) (refs : Counts) :
    Option (Tables Str) :=
  (urlPart url).map fun part =>
    let decoded := httpDecodeString part
    if ispage decoded pagexts then
      refs.entries.foldl (fun m e =>
        let ref := e.1.take maxLineLen
        let lowered := match ultraLowercaseHost ref with
          | some (lowered, _) => lowered
          | none => ref
        map2addnum m decoded lowered e.2) dest
    else dest

/-- `clean_refto`, into an empty mapping. -/
def cleanRefto (refto : Tables Str) (pagexts : List Str) : Option (Tables Str) :=
  refto.entries.foldlM (fun m e => cleanUrlRefs pagexts m e.1 e.2) ∅

end Caudium.UltraLog
