import Caudium.Lib.Tally
import Caudium.UltraLog.Util

/-!
# The hosts of a day (`summarize_hosts`, ultrautil.c)

Each host has at most one key in each of the three tables, and its count is added under it
(`summarizeHosts_eq`). A host of at most one character is nobody's and is not in `newhosts`, and a
host that is taken for an IP number is in `newhosts` only. The other keys are parts of the lowered
host where it has the dots for it, and else the host as it is written.
-/

namespace Caudium.UltraLog

open Lib (Str Mapping)
open Lib.Mapping (addAt addAll valueAt)

/-! ## The keys of a host -/

/-- The part of a lowered host behind its dots but for the last `i`. -/
def behindDot (host : Str) (i : Nat) : Option Str :=
  (dots (ultraLowercase host))[i]?.map fun p => cString ((ultraLowercase host).drop (p + 1))

/-- What is behind the last dot begins with a digit. -/
def takenForIp (host : Str) : Bool :=
  (dots (ultraLowercase host)).head?.any fun p =>
    charClass ((ultraLowercase host).getD (p + 1) '\x00') = .digit

/-- The key in `newhosts`. -/
def newhostKey (host : Str) : Option Str :=
  if host.length ≤ 1 then none else some (ultraLowercase host)

/-- The key in a table of domains, which has the part behind the dot `i`. -/
def partKey (i : Nat) (host : Str) : Option Str :=
  if host.length ≤ 1 then some "Unresolved".toList
  else if takenForIp host then none
  else some ((behindDot host i).getD host)

def topKey (host : Str) : Option Str := partKey 0 host

def domainKey (host : Str) : Option Str := partKey 1 host

/-! ## One host -/

/-- The count is added under the key, if there is one. -/
def addUnder (m : Counts) (key : Option Str) (count : Int) : Counts :=
  key.elim m fun k => m.addAt k count

theorem length_ultraLowercase (s : Str) : (ultraLowercase s).length = s.length :=
  List.length_map _

theorem summarizeHost_eq (t : HostTables) {host : Str} (hlen : host.length < maxLineLen)
    (count : Int) : summarizeHost t host count =
      ⟨addUnder t.domains (domainKey host) count, addUnder t.topdomains (topKey host) count,
        addUnder t.newhosts (newhostKey host) count⟩ := by
  unfold summarizeHost
  dsimp only
  rw [if_neg (Nat.not_le.mpr hlen)]
  by_cases hshort : host.length ≤ 1
  · rw [if_pos hshort]
    unfold domainKey topKey partKey newhostKey
    simp only [if_pos hshort]
    rfl
  · rw [if_neg hshort]
    unfold domainKey topKey partKey newhostKey
    simp only [if_neg hshort]
    unfold takenForIp behindDot
    cases hdots : dots (ultraLowercase host) with
    | nil => rfl
    | cons p rest =>
      by_cases hip : charClass ((ultraLowercase host).getD (p + 1) '\x00') = .digit
      · simp only [List.head?_cons, Option.any_some, hip, decide_true, if_true]
        rfl
      · simp only [List.head?_cons, Option.any_some, hip, decide_false, if_false,
          Bool.false_eq_true]
        cases rest with
        | nil => rfl
        | cons q rest => rfl

/-! ## All hosts -/

/-- What the entries add under their keys. -/
def keyed (key : Str → Option Str) (entries : List (Sigma fun _ : Str => Int)) :
    List (Str × Int) :=
  entries.filterMap fun e => (key e.1).map fun k => (k, e.2)

/-- The counts of the hosts with the key, together. -/
def countsUnder (key : Str → Option Str) (hosts : Counts) (k : Str) : Int :=
  ((hosts.entries.filter fun e => key e.1 = some k).map Sigma.snd).sum

theorem addAll_keyed_cons (m : Counts) (key : Str → Option Str) (e : Sigma fun _ : Str => Int)
    (entries : List (Sigma fun _ : Str => Int)) :
    m.addAll (keyed key (e :: entries)) = (addUnder m (key e.1) e.2).addAll (keyed key entries) := by
  unfold keyed addUnder
  cases hkey : key e.1 with
  | none => rw [List.filterMap_cons_none (by rw [hkey]; rfl), Option.elim_none]
  | some k =>
    rw [List.filterMap_cons_some (b := (k, e.2)) (by rw [hkey]; rfl), Option.elim_some]
    rfl

theorem summarizeHosts_eq (hosts domains topdomains : Counts)
    (hlen : ∀ e ∈ hosts.entries, e.1.length < maxLineLen) :
    summarizeHosts hosts domains topdomains =
      ⟨domains.addAll (keyed domainKey hosts.entries),
        topdomains.addAll (keyed topKey hosts.entries),
        addAll ∅ (keyed newhostKey hosts.entries)⟩ := by
  have hfold : ∀ (entries : List (Sigma fun _ : Str => Int)) (t : HostTables),
      (∀ e ∈ entries, e.1.length < maxLineLen) →
        entries.foldl (fun t e => summarizeHost t e.1 e.2) t =
          ⟨t.domains.addAll (keyed domainKey entries),
            t.topdomains.addAll (keyed topKey entries),
            t.newhosts.addAll (keyed newhostKey entries)⟩ := by
    intro entries
    induction entries with
    | nil => exact fun _ _ => rfl
    | cons e entries ih =>
      intro t hshort
      rw [List.foldl_cons, summarizeHost_eq t (hshort e List.mem_cons_self),
        ih _ fun e' he' => hshort e' (List.mem_cons_of_mem e he'), addAll_keyed_cons,
        addAll_keyed_cons, addAll_keyed_cons]
  exact hfold hosts.entries ⟨domains, topdomains, ∅⟩ hlen

theorem sum_keyed (key : Str → Option Str) (hosts : Counts) (k : Str) :
    (((keyed key hosts.entries).filter fun e => e.1 = k).map Prod.snd).sum =
      countsUnder key hosts k := by
  have hentries : ∀ entries : List (Sigma fun _ : Str => Int),
      ((keyed key entries).filter fun e => e.1 = k).map Prod.snd =
        (entries.filter fun e => key e.1 = some k).map Sigma.snd := by
    intro entries
    induction entries with
    | nil => rfl
    | cons e entries ih =>
      unfold keyed at ih ⊢
      cases hkey : key e.1 with
      | none =>
        rw [List.filterMap_cons_none (by rw [hkey]; rfl), List.filter_cons_of_neg (by simp [hkey])]
        exact ih
      | some k' =>
        rw [List.filterMap_cons_some (b := (k', e.2)) (by rw [hkey]; rfl)]
        by_cases hk : k' = k
        · rw [List.filter_cons_of_pos (by simpa using hk),
            List.filter_cons_of_pos (by simp [hkey, hk]), List.map_cons, List.map_cons, ih]
        · rw [List.filter_cons_of_neg (by simpa using hk),
            List.filter_cons_of_neg (by simp [hkey, hk]), ih]
  rw [hentries]
  rfl

theorem mem_keyed (key : Str → Option Str) (hosts : Counts) (k : Str) :
    k ∈ (keyed key hosts.entries).map Prod.fst ↔ ∃ host ∈ hosts, key host = some k := by
  have hkeyed : ∀ p : Str × Int, p ∈ keyed key hosts.entries ↔
      ∃ e ∈ hosts.entries, key e.1 = some p.1 ∧ e.2 = p.2 := by
    intro p
    simp [keyed, Prod.ext_iff]
  rw [List.mem_map]
  refine ⟨fun h => ?_, fun h => ?_⟩
  · obtain ⟨p, hp, rfl⟩ := h
    obtain ⟨e, he, hkey, -⟩ := (hkeyed p).1 hp
    exact ⟨e.1, AList.mem_keys.2 (List.mem_map_of_mem he), hkey⟩
  · obtain ⟨host, hhost, hkey⟩ := h
    obtain ⟨e, he, rfl⟩ := List.mem_map.mp (AList.mem_keys.1 hhost)
    exact ⟨(k, e.2), (hkeyed _).2 ⟨e, he, hkey, rfl⟩, rfl⟩

/-! ## What the tables say -/

/-- The table has what the other one has, and the counts of the hosts under their keys. -/
structure CountedUnder (key : Str → Option Str) (hosts before after : Counts) : Prop where
  counts : ∀ k, after.valueAt k = before.valueAt k + countsUnder key hosts k
  keys : ∀ k, k ∈ after ↔ k ∈ before ∨ ∃ host ∈ hosts, key host = some k

theorem countedUnder_addAll (key : Str → Option Str) (hosts before : Counts) :
    CountedUnder key hosts before (before.addAll (keyed key hosts.entries)) where
  counts k := by rw [Lib.Mapping.valueAt_addAll, sum_keyed]
  keys k := by rw [Lib.Mapping.mem_addAll, mem_keyed]

/-- A host that has a name is counted once in each table of domains. -/
theorem exists_partKey {host : Str} (hlen : 1 < host.length) (hip : takenForIp host = false)
    (i : Nat) : partKey i host = some ((behindDot host i).getD host) := by
  rw [partKey, if_neg (Nat.not_le.mpr hlen), hip, if_neg Bool.false_ne_true]

/-- The part behind a dot does not depend on the case. -/
theorem partKey_lower {host host' : Str} (hlower : ultraLowercase host = ultraLowercase host')
    {i : Nat} (hdot : i < (dots (ultraLowercase host)).length) :
    partKey i host = partKey i host' := by
  have hlen : host.length = host'.length := by
    rw [← length_ultraLowercase, hlower, length_ultraLowercase]
  have hbehind : (behindDot host i).getD host = (behindDot host' i).getD host' := by
    unfold behindDot
    rw [← hlower, List.getElem?_eq_getElem hdot]
    rfl
  unfold partKey takenForIp
  rw [hlen, hlower, hbehind]

/-- What the hosts of a day are counted under: `newhosts` has the sums over the lowered hosts of
more than one character. The count of each of these that is not taken for an IP number is added
once to `topdomains` and once to `domains`, under keys that do not depend on the case if the host
has one dot, or two, before its last character. -/
theorem hosts_counted (hosts domains topdomains : Counts)
    (hlen : ∀ host ∈ hosts, host.length < maxLineLen) :
    let t := summarizeHosts hosts domains topdomains
    CountedUnder newhostKey hosts ∅ t.newhosts ∧ CountedUnder topKey hosts topdomains t.topdomains ∧
      CountedUnder domainKey hosts domains t.domains ∧
      (∀ host, 1 < host.length → takenForIp host = false →
        topKey host ≠ none ∧ domainKey host ≠ none) ∧
      ∀ host host', ultraLowercase host = ultraLowercase host' →
        (0 < (dots (ultraLowercase host)).length → topKey host = topKey host') ∧
          (1 < (dots (ultraLowercase host)).length → domainKey host = domainKey host') := by
  have hentries : ∀ e ∈ hosts.entries, e.1.length < maxLineLen :=
    fun e he => hlen e.1 (AList.mem_keys.2 (List.mem_map_of_mem he))
  dsimp only
  rw [summarizeHosts_eq hosts domains topdomains hentries]
  refine ⟨countedUnder_addAll .., countedUnder_addAll .., countedUnder_addAll ..,
    fun host hlong hip => ⟨?_, ?_⟩, fun host host' hlower => ⟨?_, ?_⟩⟩
  · rw [topKey, exists_partKey hlong hip]
    exact Option.some_ne_none _
  · rw [domainKey, exists_partKey hlong hip]
    exact Option.some_ne_none _
  · exact partKey_lower hlower
  · exact partKey_lower hlower

/-- A host without a name, and one that is written in two ways. -/
def twoHosts : Counts :=
  ((∅ : Counts).insert "-".toList 1).insert "LOCALHOST".toList 2 |>.insert "localhost".toList 3

theorem hosts_counted_twoHosts :
    let t := summarizeHosts twoHosts ∅ ∅
    CountedUnder newhostKey twoHosts ∅ t.newhosts ∧ CountedUnder topKey twoHosts ∅ t.topdomains ∧
      CountedUnder domainKey twoHosts ∅ t.domains ∧
      (∀ host, 1 < host.length → takenForIp host = false →
        topKey host ≠ none ∧ domainKey host ≠ none) ∧
      ∀ host host', ultraLowercase host = ultraLowercase host' →
        (0 < (dots (ultraLowercase host)).length → topKey host = topKey host') ∧
          (1 < (dots (ultraLowercase host)).length → domainKey host = domainKey host') := by
  refine hosts_counted twoHosts ∅ ∅ fun host hhost => ?_
  have hkeys : ∀ k ∈ twoHosts.keys, k.length < maxLineLen := by decide
  exact hkeys host (AList.mem_keys.1 hhost)

/-- The host without a name is not in `newhosts`, and the two ways are two domains. -/
theorem hosts_told_apart :
    (summarizeHosts twoHosts ∅ ∅).newhosts.lookup "-".toList = none ∧
      (summarizeHosts twoHosts ∅ ∅).domains.lookup "LOCALHOST".toList = some 2 ∧
      (summarizeHosts twoHosts ∅ ∅).domains.lookup "localhost".toList = some 3 :=
  ⟨rfl, rfl, rfl⟩

end Caudium.UltraLog
