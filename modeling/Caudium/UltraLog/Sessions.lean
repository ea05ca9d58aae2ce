import Mathlib.Algebra.BigOperators.Group.Finset.Basic
import Caudium.Lib.Gaps
import Caudium.Lib.Tally
import Caudium.UltraLog.Totals

/-!
# Sessions (`process_session`, `summarize_sessions`, ultrautil.c)

The hits of a host within an hour make sessions, which end where no hit comes for `sessionIdle`
seconds. Sessions that are over have been booked, and of each host one is still open (`Booked`); the
end of the hour books these. Each session is booked once, whatever hits of other hosts come between
its own (`sessions_counted`).
-/

namespace Caudium.UltraLog

open Lib (Str Mapping runs spent)
open Lib.Mapping (valueAt)

variable {F : Floats}

/-! ## Hits -/

/-- Each hit of an hour, its host and its time. -/
def Totals.processHits (t : Totals F) (hour : Hour) (hits : List (Str × Int)) : Totals F :=
  hits.foldl (fun t hit => t.processSession hit.1 hit.2 hour) t

/-- The times of a host's hits. -/
def timesOf (hits : List (Str × Int)) (host : Str) : List Int :=
  (hits.filter fun hit => hit.1 = host).map Prod.snd

def hostsOf (hits : List (Str × Int)) : Finset Str := (hits.map Prod.fst).toFinset

theorem timesOf_concat (hits : List (Str × Int)) (host x : Str) (time : Int) :
    timesOf (hits ++ [(host, time)]) x =
      if x = host then timesOf hits x ++ [time] else timesOf hits x := by
  unfold timesOf
  rw [List.filter_append, List.map_append]
  by_cases hx : x = host
  · rw [if_pos hx, List.filter_cons_of_pos (by simpa using hx.symm)]
    rfl
  · rw [if_neg hx, List.filter_cons_of_neg (by simpa using fun h => hx h.symm)]
    exact List.append_nil _

theorem hostsOf_concat (hits : List (Str × Int)) (host : Str) (time : Int) :
    hostsOf (hits ++ [(host, time)]) = insert host (hostsOf hits) := by
  ext x
  simp [hostsOf, eq_comm]

theorem timesOf_eq_nil {hits : List (Str × Int)} {host : Str} (h : host ∉ hostsOf hits) :
    timesOf hits host = [] := by
  unfold timesOf
  rw [List.map_eq_nil_iff, List.filter_eq_nil_iff]
  intro hit hmem heq
  refine h (List.mem_toFinset.2 (List.mem_map.2 ⟨hit, hmem, ?_⟩))
  simpa using heq

theorem timesOf_ne_nil {hits : List (Str × Int)} {host : Str} (h : host ∈ hostsOf hits) :
    timesOf hits host ≠ [] := by
  obtain ⟨hit, hmem, rfl⟩ := List.mem_map.1 (List.mem_toFinset.1 h)
  unfold timesOf
  rw [Ne, List.map_eq_nil_iff, List.filter_eq_nil_iff]
  intro hall
  exact hall hit hmem (by simp)

/-- A sum in which only the summand at `a` changes, which is new or was there. -/
theorem sum_insert_changed {κ : Type} [DecidableEq κ] {s : Finset κ} {f g : κ → Int} {a : κ}
    (hsame : ∀ x, x ≠ a → g x = f x) (hout : a ∉ s → f a = 0) :
    ∑ x ∈ insert a s, g x = ∑ x ∈ s, f x + (g a - f a) := by
  have hdiff : ∑ x ∈ insert a s, (g x - f x) = g a - f a :=
    Finset.sum_eq_single_of_mem a (Finset.mem_insert_self a s) fun b _ hb =>
      sub_eq_zero.2 (hsame b hb)
  rw [Finset.sum_sub_distrib, Finset.sum_insert_of_eq_zero_if_notMem hout] at hdiff
  omega

/-! ## A hit -/

variable {t t' : Totals F} {hour : Hour} {host : Str} {time : Int}

theorem processSession_new (h : t.sessionEnd.lookup host = none) :
    t.processSession host time hour = { t with
      sites := mapadd t.sites host
      sessionStart := t.sessionStart.insert host time
      sessionEnd := t.sessionEnd.insert host time } := by
  unfold Totals.processSession
  dsimp only
  rw [h]

theorem processSession_far {last : Int} (h : t.sessionEnd.lookup host = some last)
    (hfar : last + sessionIdle < time) :
    t.processSession host time hour =
      { t.addSession hour (last - (t.sessionStart.lookup host).getD 0) with
        sites := mapadd t.sites host
        sessionStart := t.sessionStart.insert host time
        sessionEnd := t.sessionEnd.insert host time } := by
  unfold Totals.processSession
  dsimp only
  rw [h]
  dsimp only
  rw [if_pos hfar]
  rfl

theorem processSession_near {last : Int} (h : t.sessionEnd.lookup host = some last)
    (hnear : ¬last + sessionIdle < time) :
    t.processSession host time hour = { t with
      sites := mapadd t.sites host
      sessionEnd := t.sessionEnd.insert host time } := by
  unfold Totals.processSession
  dsimp only
  rw [h]
  dsimp only
  rw [if_neg hnear]

/-- The time of the session that a host has open, as it is booked. -/
def openTime (t : Totals F) (host : Str) : Int :=
  t.sessionEnd.valueAt host - t.sessionStart.valueAt host

/-- `t'` has booked `n` sessions of `d` seconds for the hits since `t`, and has the others open. -/
structure Booked (hour : Hour) (t t' : Totals F) (hits : List (Str × Int)) (n d : Int) : Prop where
  lastHour : t'.lastHour = t.lastHour
  ends : ∀ host, t'.sessionEnd.lookup host = (timesOf hits host).getLast?
  starts : ∀ host, host ∈ t'.sessionStart ↔ host ∈ hostsOf hits
  sites : ∀ host, t'.sites.valueAt host = t.sites.valueAt host + (timesOf hits host).length
  sessionsPerHour : t'.sessionsPerHour hour = t.sessionsPerHour hour + UInt32.ofInt n
  sessionLength : t'.sessionLength hour = t.sessionLength hour + UInt32.ofInt d
  count : n + (hostsOf hits).card =
    ∑ host ∈ hostsOf hits, ((runs sessionIdle (timesOf hits host)).length : Int)
  total : d + ∑ host ∈ hostsOf hits, openTime t' host =
    ∑ host ∈ hostsOf hits, spent sessionIdle (timesOf hits host)

variable {hits : List (Str × Int)} {n d : Int}

/-- What is open for a host that has had no hit takes no time. -/
theorem Booked.openTime_eq_zero (h : Booked hour t t' hits n d) (hout : host ∉ hostsOf hits) :
    openTime t' host = 0 := by
  have hend : t'.sessionEnd.valueAt host = 0 := by
    rw [valueAt, h.ends, timesOf_eq_nil hout]
    rfl
  have hstart : host ∉ t'.sessionStart := fun hmem => hout ((h.starts host).1 hmem)
  rw [openTime, hend, Lib.Mapping.valueAt_of_notMem hstart, Int.sub_self]

/-- What has to be so of the host of a hit. -/
theorem Booked.next {t'' : Totals F} {n' d' first : Int} (h : Booked hour t t' hits n d)
    (hhour : t''.lastHour = t'.lastHour) (hend : t''.sessionEnd = t'.sessionEnd.insert host time)
    (hsites : t''.sites = mapadd t'.sites host)
    (hstart : ∀ x, x ≠ host → t''.sessionStart.lookup x = t'.sessionStart.lookup x)
    (hhost : t''.sessionStart.lookup host = some first)
    (hn : t''.sessionsPerHour hour = t.sessionsPerHour hour + UInt32.ofInt n')
    (hd : t''.sessionLength hour = t.sessionLength hour + UInt32.ofInt d')
    (hcount : n' + (if host ∈ hostsOf hits then 0 else 1) =
      n + if ∃ a ∈ (timesOf hits host).getLast?, time - a ≤ sessionIdle then 0 else 1)
    (htotal : d' + (time - first - openTime t' host) = d + (timesOf hits host).getLast?.elim 0 fun a =>
      if time - a ≤ sessionIdle then time - a else 0) :
    Booked hour t t'' (hits ++ [(host, time)]) n' d' where
  lastHour := hhour.trans h.lastHour
  ends x := by
    rw [hend, Lib.Mapping.lookup_insert_ite, timesOf_concat]
    by_cases hx : x = host
    · rw [if_pos hx, if_pos hx, List.getLast?_concat]
    · rw [if_neg hx, if_neg hx]
      exact h.ends x
  starts x := by
    rw [hostsOf_concat, Finset.mem_insert]
    by_cases hx : x = host
    · rw [hx]
      exact ⟨fun _ => .inl rfl, fun _ => AList.lookup_isSome.1 (by rw [hhost]; rfl)⟩
    · rw [← h.starts x, ← AList.lookup_isSome, hstart x hx, AList.lookup_isSome]
      exact ⟨.inr, fun hmem => hmem.resolve_left hx⟩
  sites x := by
    rw [hsites, show mapadd t'.sites host = t'.sites.addAt host 1 from rfl,
      Lib.Mapping.valueAt_addAt, h.sites, timesOf_concat]
    by_cases hx : x = host
    · rw [if_pos hx, if_pos hx, List.length_append]
      push_cast
      exact Int.add_assoc ..
    · rw [if_neg hx, if_neg hx, Int.add_zero]
  sessionsPerHour := hn
  sessionLength := hd
  count := by
    rw [hostsOf_concat, sum_insert_changed (fun x hx => by rw [timesOf_concat, if_neg hx]) fun hout =>
      by rw [timesOf_eq_nil hout]; rfl, ← h.count, timesOf_concat, if_pos rfl,
      Lib.length_runs_concat, Finset.card_insert_eq_ite]
    push_cast
    split at hcount
    · next hmem =>
      rw [if_pos hmem]
      omega
    · next hmem =>
      rw [if_neg hmem]
      omega
  total := by
    have hopen : ∀ x, x ≠ host → openTime t'' x = openTime t' x := by
      intro x hx
      unfold openTime valueAt
      rw [hend, hstart x hx, AList.lookup_insert_ne hx]
    have hnow : openTime t'' host = time - first := by
      unfold openTime valueAt
      rw [hend, hhost, AList.lookup_insert]
      rfl
    rw [hostsOf_concat, sum_insert_changed hopen h.openTime_eq_zero,
      sum_insert_changed (fun x hx => by rw [timesOf_concat, if_neg hx]) fun hout =>
      by rw [timesOf_eq_nil hout]; rfl, ← h.total, timesOf_concat, if_pos rfl, Lib.spent_concat,
      hnow]
    omega

/-- Each hit leaves what is booked and open right. -/
theorem Booked.step (h : Booked hour t t' hits n d) (host : Str) (time : Int) :
    ∃ n' d', Booked hour t (t'.processSession host time hour) (hits ++ [(host, time)]) n' d' := by
  cases hlast : (timesOf hits host).getLast? with
  | none =>
    have hnew : host ∉ hostsOf hits := fun hmem =>
      timesOf_ne_nil hmem (List.getLast?_eq_none_iff.1 hlast)
    rw [processSession_new ((h.ends host).trans hlast)]
    refine ⟨n, d, h.next rfl rfl rfl (fun x hx => AList.lookup_insert_ne hx)
      (AList.lookup_insert _) h.sessionsPerHour h.sessionLength ?_ ?_⟩
    · rw [if_neg hnew, hlast, if_neg (by simp)]
    · rw [hlast, h.openTime_eq_zero hnew, Option.elim_none]
      omega
  | some last =>
    have hold : host ∈ hostsOf hits := by
      by_contra hout
      rw [timesOf_eq_nil hout] at hlast
      cases hlast
    have hend := (h.ends host).trans hlast
    have hvalue : t'.sessionEnd.valueAt host = last := Lib.Mapping.valueAt_of_lookup hend
    by_cases hfar : last + sessionIdle < time
    · rw [processSession_far hend hfar]
      refine ⟨n + 1, d + openTime t' host, h.next rfl rfl rfl
        (fun x hx => AList.lookup_insert_ne hx) (AList.lookup_insert _) ?_ ?_ ?_ ?_⟩
      · show t'.sessionsPerHour.set hour _ hour = _
        rw [PerHour.set, Function.update_self, h.sessionsPerHour, UInt32.ofInt_add,
          UInt32.add_assoc]
        rfl
      · show t'.sessionLength.set hour _ hour = _
        rw [PerHour.set, Function.update_self, h.sessionLength, UInt32.ofInt_add, UInt32.add_assoc,
          openTime, hvalue]
        rfl
      · rw [if_pos hold, hlast, if_neg]
        · omega
        · intro hnear
          obtain ⟨a, ha, hnear⟩ := hnear
          cases ha
          omega
      · rw [hlast, Option.elim_some, if_neg (by omega)]
        omega
    · rw [processSession_near hend hfar]
      have hfirst := Lib.Mapping.lookup_eq_valueAt ((h.starts host).2 hold)
      refine ⟨n, d, h.next rfl rfl rfl (fun _ _ => rfl) hfirst h.sessionsPerHour h.sessionLength
        ?_ ?_⟩
      · rw [if_pos hold, hlast, if_pos ⟨last, rfl, by omega⟩]
      · rw [hlast, Option.elim_some, if_pos (by omega), openTime, hvalue]
        omega

/-- The hits of an hour, whatever their hosts and times. -/
theorem booked_processHits (t : Totals F) (hour : Hour) (hits : List (Str × Int))
    (hstart : t.sessionStart = ∅) (hend : t.sessionEnd = ∅) :
    ∃ n d, Booked hour t (t.processHits hour hits) hits n d := by
  induction hits using List.reverseRecOn with
  | nil =>
    refine ⟨0, 0, ⟨rfl, fun host => ?_, fun host => ?_, fun host => ?_, ?_, ?_, rfl, rfl⟩⟩
    · show t.sessionEnd.lookup host = none
      rw [hend, AList.lookup_empty]
    · show host ∈ t.sessionStart ↔ _
      rw [hstart]
      simp [hostsOf]
    · exact (Int.add_zero _).symm
    · exact (UInt32.add_zero _).symm
    · exact (UInt32.add_zero _).symm
  | append_singleton hits hit ih =>
    obtain ⟨n, d, h⟩ := ih
    rw [Totals.processHits, List.foldl_append]
    exact h.step hit.1 hit.2

/-! ## The end of the hour -/

theorem foldl_addSession (entries : List (Sigma fun _ : Str => Int)) (t : Totals F) :
    let t' := entries.foldl (fun t e =>
      t.addSession t.lastHour ((t.sessionEnd.lookup e.1).getD 0 - e.2)) t
    t'.sessionsPerHour t.lastHour = t.sessionsPerHour t.lastHour + UInt32.ofInt entries.length ∧
      t'.sessionLength t.lastHour = t.sessionLength t.lastHour +
        UInt32.ofInt (entries.map fun e => t.sessionEnd.valueAt e.1 - e.2).sum ∧
      t'.sites = t.sites := by
  dsimp only
  induction entries generalizing t with
  | nil => exact ⟨(UInt32.add_zero _).symm, (UInt32.add_zero _).symm, rfl⟩
  | cons e entries ih =>
    obtain ⟨hcount, htotal, hsites⟩ :=
      ih (t.addSession t.lastHour ((t.sessionEnd.lookup e.1).getD 0 - e.2))
    rw [List.foldl_cons, List.map_cons, List.sum_cons, UInt32.ofInt_add, ← UInt32.add_assoc,
      List.length_cons, Nat.cast_add, UInt32.ofInt_add, UInt32.add_comm (UInt32.ofInt _),
      ← UInt32.add_assoc]
    refine ⟨hcount.trans ?_, htotal.trans ?_, hsites⟩
    · show t.sessionsPerHour.set t.lastHour _ t.lastHour + _ = _
      rw [PerHour.set, Function.update_self]
      rfl
    · show t.sessionLength.set t.lastHour _ t.lastHour + _ = _
      rw [PerHour.set, Function.update_self]
      rfl

/-- What is added up over the entries is added up over the keys. -/
theorem sum_entries (m : Counts) (f : Str → Int → Int) :
    (m.entries.map fun e => f e.1 e.2).sum = ∑ k ∈ m.keys.toFinset, f k (m.valueAt k) := by
  rw [List.sum_toFinset _ m.keys_nodup, AList.keys, List.keys, List.map_map]
  refine congrArg List.sum (List.map_congr_left fun e he => ?_)
  have hvalue : m.valueAt e.1 = e.2 := Lib.Mapping.valueAt_of_lookup (AList.mem_lookup_iff.2 he)
  rw [Function.comp_apply, hvalue]

/-- The sessions of an hour are the runs of hits of one host without a gap longer than
`sessionIdle`, each of which counts once, and takes the time from its first hit to its last. -/
theorem sessions_counted (t : Totals F) (hour : Hour) (hits : List (Str × Int)) :
    let t₀ := { t with sessionStart := ∅, sessionEnd := ∅, lastHour := hour }
    let t' := (t₀.processHits hour hits).summarizeSessions
    t'.sessionsPerHour hour = t.sessionsPerHour hour +
        UInt32.ofInt (∑ host ∈ hostsOf hits, ((runs sessionIdle (timesOf hits host)).length : Int)) ∧
      t'.sessionLength hour = t.sessionLength hour +
        UInt32.ofInt (∑ host ∈ hostsOf hits, spent sessionIdle (timesOf hits host)) ∧
      ∀ host, t'.sites.valueAt host = t.sites.valueAt host + (timesOf hits host).length := by
  obtain ⟨n, d, h⟩ := booked_processHits
    { t with sessionStart := ∅, sessionEnd := ∅, lastHour := hour } hour hits rfl rfl
  dsimp only
  generalize Totals.processHits { t with sessionStart := ∅, sessionEnd := ∅, lastHour := hour }
    hour hits = t' at h ⊢
  obtain ⟨hcount, htotal, hsites⟩ := foldl_addSession t'.sessionStart.entries t'
  have hkeys : t'.sessionStart.keys.toFinset = hostsOf hits := by
    ext host
    rw [List.mem_toFinset, ← h.starts host]
    exact AList.mem_keys.symm
  have hcard : (t'.sessionStart.entries.length : Int) = (hostsOf hits).card := by
    rw [← hkeys, List.toFinset_card_of_nodup t'.sessionStart.keys_nodup]
    exact congrArg Nat.cast (List.length_map _).symm
  have hopen := sum_entries t'.sessionStart fun host first => t'.sessionEnd.valueAt host - first
  rw [hkeys] at hopen
  rw [h.lastHour] at hcount htotal
  refine ⟨hcount.trans ?_, htotal.trans ?_, fun host => ?_⟩
  · rw [h.sessionsPerHour, UInt32.add_assoc, ← UInt32.ofInt_add, hcard, h.count]
  · rw [h.sessionLength, UInt32.add_assoc, ← UInt32.ofInt_add, hopen, ← h.total]
    rfl
  · exact (congrArg (fun sites => sites.valueAt host) hsites).trans (h.sites host)

end Caudium.UltraLog
