import Caudium.Pdb.Table

/-!
# The redo log of a table

After a restart a table's index is the saved one with the logged 'C', 'D' and
'P' records replayed onto it. `set` on a live key whose new string belongs in a
bucket of another size logs 'C' for the new entry *before* it calls `delete`,
which logs 'D' for the same key: the replay sets the entry and then deletes it,
while the index in memory holds it.

`lags` follows one key through a sequence of calls and says whether its last
write left the log behind the index in that way. `redo_log_iff` shows that this
is the whole difference: replaying the records of a sequence of calls gives the
index in memory exactly when no key lags.
-/

namespace Caudium.Pdb

open Lib (Str Bytes Mapping)

/-- The record, if it is one of the table's. -/
def tableRec (t : Str) : LogRec → Option TableRec
  | .table t' r => if t' = t then some r else none
  | .bucket _ _ => none

/-- The table's records of a log, in order. -/
def tableRecs (t : Str) (log : List LogRec) : List TableRec := log.filterMap (tableRec t)

@[simp] theorem tableRecs_nil (t : Str) : tableRecs t [] = [] := rfl

@[simp] theorem tableRecs_bucket (t : Str) (s : Nat) (b : BucketRec) (l : List LogRec) :
    tableRecs t (.bucket s b :: l) = tableRecs t l := rfl

@[simp] theorem tableRecs_self (t : Str) (r : TableRec) (l : List LogRec) :
    tableRecs t (.table t r :: l) = r :: tableRecs t l := by
  rw [tableRecs, List.filterMap_cons, tableRec, if_pos rfl]
  rfl

theorem tableRecs_other {t t' : Str} (htt : t' ≠ t) (r : TableRec) (l : List LogRec) :
    tableRecs t (.table t' r :: l) = tableRecs t l := by
  rw [tableRecs, List.filterMap_cons, tableRec, if_neg htt]
  rfl

theorem restoreFromLog_append (index : Mapping Str Entry) (xs ys : List TableRec) :
    restoreFromLog index (xs ++ ys) = restoreFromLog (restoreFromLog index xs) ys :=
  List.foldl_append

/-! ## What a replay has for a key, against what the index has -/

/-- The log's reading of a key against the index's: equal, or, when the log lags,
gone from the log and live in the index. -/
def Agrees (lag : Bool) (logged live : Option Entry) : Prop :=
  if lag then logged = none ∧ live ≠ none else logged = live

/-- A reading agrees outright exactly when it does not lag. -/
theorem Agrees.eq_iff {lag : Bool} {logged live : Option Entry} (h : Agrees lag logged live) :
    logged = live ↔ lag = false := by
  cases lag with
  | false => exact iff_of_true h rfl
  | true =>
    refine iff_of_false (fun e => h.2 ?_) (by simp)
    rw [← e, h.1]

namespace Db

/-- The index a replay of the table's records gives. -/
def replayed (index : Mapping Str Entry) (t : Str) (d : Db) : Mapping Str Entry :=
  restoreFromLog index (tableRecs t d.log)

/-- The key's reading in the log agrees with the index up to the lag. -/
def Tracks (index : Mapping Str Entry) (t key : Str) (lag : Bool) (d : Db) : Prop :=
  Agrees lag ((d.replayed index t).lookup key) ((d.indexOf t).lookup key)

theorem replayed_append (index : Mapping Str Entry) (t : Str) {d d' : Db} {recs : List LogRec}
    (h : d'.log = d.log ++ recs) :
    d'.replayed index t = restoreFromLog (d.replayed index t) (tableRecs t recs) := by
  rw [replayed, h, tableRecs, List.filterMap_append, restoreFromLog_append]
  rfl

/-- Records of other tables and of buckets change no reading. -/
theorem tracks_congr {index : Mapping Str Entry} {t key : Str} {lag : Bool} {d d' : Db}
    (hlog : (d'.replayed index t).lookup key = (d.replayed index t).lookup key)
    (hidx : (d'.indexOf t).lookup key = (d.indexOf t).lookup key) (h : Tracks index t key lag d) :
    Tracks index t key lag d' := by
  rw [Tracks, hlog, hidx]
  exact h

theorem openTable_tracks {index : Mapping Str Entry} {t key : Str} {lag : Bool} {d : Db}
    (t' : Str) (h : Tracks index t key lag d) : Tracks index t key lag (d.openTable t') := by
  obtain ⟨-, hidx, hlog, -⟩ := d.openTable_spec t'
  refine tracks_congr ?_ (by rw [hidx]) h
  rw [replayed, hlog, replayed]

/-- A delete closes the lag of its own key and touches no other. -/
theorem delete_tracks {index : Mapping Str Entry} {t key : Str} {lag : Bool} {d : Db}
    (t' key' : Str) (h : Tracks index t key lag d) :
    Tracks index t key (if d.write ∧ t' = t ∧ key' = key then false else lag)
      (d.delete t' key') := by
  -- a read-only db, a key that is not there, or a record appended
  rcases d.delete_cases t' key' with ⟨he, hw⟩ | ⟨hw, i, hi, hidx, -, hlog, -⟩
  · rw [he]
    split
    next hc =>
      obtain ⟨hwr, rfl, rfl⟩ := hc
      have hnone : (d.indexOf t').lookup key' = none := by
        rcases hw with hw | hw
        · rw [hw] at hwr; cases hwr
        · exact hw
      cases lag with
      | false => exact h
      | true => exact absurd hnone h.2
    next => exact h
  · have hrep := replayed_append index t hlog
    by_cases htt : t' = t
    · subst htt
      rw [tableRecs_self, tableRecs_bucket, tableRecs_nil] at hrep
      by_cases hkk : key' = key
      · subst hkk
        rw [if_pos ⟨hw, rfl, rfl⟩]
        show (_ : Option Entry) = _
        rw [hrep, hidx, if_pos rfl, AList.lookup_erase]
        exact AList.lookup_erase _ _
      · rw [if_neg fun hc => hkk hc.2.2]
        refine tracks_congr ?_ ?_ h
        · rw [hrep]
          exact AList.lookup_erase_ne fun e => hkk e.symm
        · rw [hidx, if_pos rfl]
          exact AList.lookup_erase_ne fun e => hkk e.symm
    · rw [if_neg fun hc => htt hc.2.1]
      refine tracks_congr ?_ ?_ h
      · rw [hrep, tableRecs_other htt, tableRecs_bucket, tableRecs_nil]
        rfl
      · rw [hidx, if_neg fun e => htt e.symm]

/-- Deleting keys of another table changes no reading. -/
theorem foldl_delete_tracks {index : Mapping Str Entry} {t key t' : Str} {lag : Bool}
    (htt : t' ≠ t) (keys : List Str) :
    ∀ d : Db, Tracks index t key lag d →
      Tracks index t key lag (keys.foldl (fun d key => d.delete t' key) d) := by
  induction keys with
  | nil => intro d h; exact h
  | cons k keys ih =>
    intro d h
    have hd := delete_tracks t' k h
    rw [if_neg fun hc => htt hc.2.1] at hd
    exact ih _ hd

/-- A purge closes every lag of its table and touches no other table. -/
theorem purge_tracks {index : Mapping Str Entry} {t key : Str} {lag : Bool} {d : Db} (t' : Str)
    (h : Tracks index t key lag d) :
    Tracks index t key (if d.write ∧ t' = t then false else lag) (d.purge t') := by
  cases hw : d.write with
  | false => simpa [purge, hw] using h
  | true =>
    simp only [purge, hw, Bool.not_true, Bool.false_eq_true, if_false, true_and]
    set d₁ := (d.indexOf t').keys.foldl (fun d key => d.delete t' key) d
    have hrep : ((({ d₁ with indexFiles := d₁.indexFiles.erase t' } : Db).putTable t'
        { index := ∅, dirty := false }).logRec (.table t' .purge)).replayed index t
        = restoreFromLog (d₁.replayed index t) (tableRecs t [.table t' .purge]) :=
      replayed_append index t rfl
    split
    next htt =>
      subst htt
      show (_ : Option Entry) = _
      rw [hrep, indexOf_logRec, indexOf_putTable, if_pos rfl]
      simp [restoreFromLog, restoreRec]
    next htt =>
      refine tracks_congr (d := d₁) ?_ ?_ (foldl_delete_tracks htt _ d h)
      · rw [hrep, tableRecs_other htt, tableRecs_nil]
        rfl
      · rw [indexOf_logRec, indexOf_putTable, if_neg fun e => htt e.symm,
          indexOf_eraseFile fun e => htt e.symm]

/-- The lag of a key after a `set` of that key: a rewrite in place lags when the
string is refused; a replacement that goes through lags when the key was live. -/
def setLag (d : Db) (t key : Str) (ts : Bytes) (lag : Bool) : Bool :=
  match (d.indexOf t).lookup key with
  | none => false
  | some i =>
    if i.1 = (d.target ts).size then decide ((d.target ts).size < ts.length)
    else decide (ts.length ≤ (d.target ts).size) || lag

/-- A key that the index does not have does not lag. -/
theorem Tracks.lag_of_none {index : Mapping Str Entry} {t key : Str} {lag : Bool} {d : Db}
    (h : Tracks index t key lag d) (hnone : (d.indexOf t).lookup key = none) : lag = false := by
  cases lag with
  | false => rfl
  | true => exact absurd hnone h.2

/-- A replacement of a key that was not live: nothing is deleted, and the new entry is the
last word of the log and of the index. -/
theorem replaced_new {index : Mapping Str Entry} {t key : Str} {d₁ : Db} {e : Entry}
    (hi : (d₁.indexOf t).lookup key = none)
    (hrep : (d₁.replayed index t).lookup key = some e) :
    Tracks index t key false ((d₁.delete t key).putTable t
      { index := ((d₁.delete t key).indexOf t).insert key e, dirty := true }) := by
  have hdel : d₁.delete t key = d₁ := by
    rcases d₁.delete_cases t key with ⟨he, -⟩ | ⟨-, i, hsome, -⟩
    · exact he
    · rw [hi] at hsome
      cases hsome
  show (_ : Option Entry) = _
  rw [indexOf_putTable, if_pos rfl, AList.lookup_insert, hdel]
  exact hrep

/-- A replacement of a live key: the record of the deletion comes after the one of the new
entry, so the key lags. -/
theorem replaced_live {index : Mapping Str Entry} {t key : Str} {d₁ : Db} {e i : Entry}
    (hw : d₁.write = true) (hi : (d₁.indexOf t).lookup key = some i) :
    Tracks index t key true ((d₁.delete t key).putTable t
      { index := ((d₁.delete t key).indexOf t).insert key e, dirty := true }) := by
  refine ⟨?_, ?_⟩
  · rcases d₁.delete_cases t key with ⟨-, hoff⟩ | ⟨-, j, -, -, -, hlog, -⟩
    · rcases hoff with hoff | hoff
      · rw [hw] at hoff
        cases hoff
      · rw [hi] at hoff
        cases hoff
    · show ((d₁.delete t key).replayed index t).lookup key = none
      rw [replayed_append index t hlog]
      simp [restoreFromLog, restoreRec]
  · rw [indexOf_putTable, if_pos rfl, AList.lookup_insert]
    exact Option.some_ne_none e

/-- A `set` leaves its own key with the lag `setLag` gives. -/
theorem setString_tracks_self {index : Mapping Str Entry} {t key : Str} {lag : Bool} {d : Db}
    (ts : Bytes) (hw : d.write = true) (h : Tracks index t key lag d) :
    Tracks index t key (d.setLag t key ts lag) (d.setString t key ts).2 := by
  generalize hd' : (d.setString t key ts).2 = d'
  have hout := d.setString_outcome t key ts hw
  rw [hd'] at hout
  cases hout with
  | @inPlace _ i hi hsize hfit ho =>
    have hrep := replayed_append index t ho.log
    rw [setLag, hi]
    simp only [if_pos hsize, decide_eq_false (Nat.not_lt.mpr hfit)]
    show (_ : Option Entry) = _
    rw [hrep, ho.indexOf, hi]
    simp [restoreFromLog, restoreRec]
  -- the delete is logged and no change after it, while the index keeps its entry
  | @refused _ i hi hsize hlong ho =>
    have hrep := replayed_append index t ho.log
    rw [setLag, hi]
    simp only [if_pos hsize, decide_eq_true hlong]
    refine ⟨?_, by rw [ho.indexOf, hi]; simp⟩
    rw [hrep]
    simp [restoreFromLog, restoreRec]
  | @replaced d₁ hne hfit ho =>
    cases hi : (d.indexOf t).lookup key with
    | none =>
      have hrep : (d₁.replayed index t).lookup key
          = some ((d.target ts).size, (d.target ts).allocateEntry.1) := by
        rw [replayed_append index t ho.log]
        simp [restoreFromLog, restoreRec]
      rw [setLag, hi]
      exact replaced_new (by rw [ho.indexOf, hi]) hrep
    | some i =>
      rw [setLag, hi]
      simp only [if_neg (hne i hi), decide_eq_true hfit, Bool.true_or]
      exact replaced_live ho.write ((congrArg (·.lookup key) (ho.indexOf t)).trans hi)
  -- a block allocated and never entered: nothing about the table is logged
  | @wasted _ hne hlong ho =>
    have hsame : Tracks index t key lag d' := by
      refine tracks_congr ?_ (by rw [ho.indexOf]) h
      rw [replayed_append index t ho.log]
      rfl
    cases hi : (d.indexOf t).lookup key with
    | none =>
      rw [h.lag_of_none hi] at hsame
      rw [setLag, hi]
      exact hsame
    | some i =>
      rw [setLag, hi]
      simp only [if_neg (hne i hi), decide_eq_false (Nat.not_le.mpr hlong), Bool.false_or]
      exact hsame

/-- A record of a bucket, or about the key of the table. -/
def About (t key : Str) : LogRec → Prop
  | .bucket _ _ => True
  | .table t' (.delete key') => t' = t ∧ key' = key
  | .table t' (.change key' _) => t' = t ∧ key' = key
  | .table _ .purge => False

/-- Replaying a record about another key, or another table, changes no reading. -/
theorem restoreRecs_other {t key t' key' : Str} (hne : ¬ (t' = t ∧ key' = key))
    (recs : List LogRec) (hr : ∀ r ∈ recs, About t' key' r) (m : Mapping Str Entry) :
    (restoreFromLog m (tableRecs t recs)).lookup key = m.lookup key := by
  induction recs generalizing m with
  | nil => rfl
  | cons r recs ih =>
    have hrest := fun m => ih (fun r' h' => hr r' (List.mem_cons_of_mem _ h')) m
    have hr₀ := hr r (List.mem_cons_self ..)
    match r with
    | .bucket s b => exact hrest m
    | .table t₀ r₀ =>
      by_cases htt : t₀ = t
      · subst htt
        rw [tableRecs_self]
        match r₀ with
        | .delete k =>
          obtain ⟨rfl, rfl⟩ := hr₀
          exact (hrest _).trans (AList.lookup_erase_ne fun e => hne ⟨rfl, e.symm⟩)
        | .change k e =>
          obtain ⟨rfl, rfl⟩ := hr₀
          exact (hrest _).trans (AList.lookup_insert_ne fun e => hne ⟨rfl, e.symm⟩)
        | .purge => exact hr₀.elim
      · rw [tableRecs_other htt]
        exact hrest m

/-- A `set` of another key, or in another table, changes no reading. -/
theorem setString_tracks_other {index : Mapping Str Entry} {t key t' key' : Str} {lag : Bool}
    {d : Db} (ts : Bytes) (hw : d.write = true) (hne : ¬ (t' = t ∧ key' = key))
    (h : Tracks index t key lag d) : Tracks index t key lag (d.setString t' key' ts).2 := by
  -- whatever is logged is about the other key
  have hrecs : ∀ (d' : Db) (recs : List LogRec), d'.log = d.log ++ recs →
      (∀ r ∈ recs, About t' key' r) →
      (d'.replayed index t).lookup key = (d.replayed index t).lookup key := by
    intro d' recs hlog hr
    rw [replayed_append index t hlog]
    exact restoreRecs_other hne recs hr _
  generalize hd' : (d.setString t' key' ts).2 = d'
  have hout := d.setString_outcome t' key' ts hw
  rw [hd'] at hout
  cases hout with
  | inPlace hi hsize hfit ho =>
    exact tracks_congr (hrecs d' _ ho.log (by simp [About])) (by rw [ho.indexOf]) h
  | refused hi hsize hlong ho =>
    exact tracks_congr (hrecs d' _ ho.log (by simp [About])) (by rw [ho.indexOf]) h
  | @replaced d₁ hne' hfit ho =>
    -- first the record of the new entry, then the delete of the old one
    have h₁ : Tracks index t key lag d₁ :=
      tracks_congr (hrecs d₁ _ ho.log (by simp [About])) (by rw [ho.indexOf]) h
    have h₂ := delete_tracks t' key' h₁
    rw [if_neg fun hc => hne hc.2] at h₂
    refine tracks_congr (d := d₁.delete t' key') rfl ?_ h₂
    rw [indexOf_putTable]
    split
    next htt =>
      subst htt
      exact AList.lookup_insert_ne fun e => hne ⟨rfl, e.symm⟩
    next => rfl
  | wasted hne' hlong ho =>
    exact tracks_congr (hrecs d' _ ho.log (by simp [About])) (by rw [ho.indexOf]) h

end Db

/-! ## Sequences of calls -/

section Calls

variable {V : Type} (c : Codec V)

/-- The lag of a key after one call, in a db that writes. -/
def lagStep (d : Db) (t key : Str) (lag : Bool) : TableOp V → Bool
  | .set tname key' v =>
    if d.write ∧ tableName tname = t ∧ key' = key then
      d.setLag t key (c.toBlock d.compress v) lag
    else lag
  | .delete tname key' => if d.write ∧ tableName tname = t ∧ key' = key then false else lag
  | .purge tname => if d.write ∧ tableName tname = t then false else lag

/-- The lag of a key after a sequence of calls: whether the last call that
touched it was a `set` that moved it, live, to a bucket of another size (or
found the string too long for the bucket it was already in). -/
def lags (t key : Str) : Db → Bool → List (TableOp V) → Bool
  | _, lag, [] => lag
  | d, lag, op :: ops => lags t key (d.apply c op) (lagStep c d t key lag op) ops

theorem Db.apply_tracks {index : Mapping Str Entry} {t key : Str} {lag : Bool} {d : Db}
    (op : TableOp V) (h : d.Tracks index t key lag) :
    (d.apply c op).Tracks index t key (lagStep c d t key lag op) := by
  cases op with
  | set tname key' v =>
    obtain ⟨hbo, hio, -, hw, hcomp⟩ := d.openTable_spec (tableName tname)
    have ho := Db.openTable_tracks (tableName tname) h
    simp only [Db.apply, Db.set, lagStep, hcomp]
    cases hwr : d.write with
    | false =>
      rw [Db.setString_readOnly _ _ _ _ (hw.trans hwr)]
      simpa using ho
    | true =>
      split
      next hc =>
        obtain ⟨-, rfl, rfl⟩ := hc
        have hlag : (d.openTable (tableName tname)).setLag (tableName tname) key'
            (c.toBlock d.compress v) lag
            = d.setLag (tableName tname) key' (c.toBlock d.compress v) lag := by
          unfold Db.setLag Db.target
          rw [hio, hbo]
        rw [← hlag]
        exact Db.setString_tracks_self _ (hw.trans hwr) ho
      next hc =>
        exact Db.setString_tracks_other _ (hw.trans hwr) (fun he => hc ⟨rfl, he⟩) ho
  | delete tname key' =>
    have ho := Db.delete_tracks (tableName tname) key' (Db.openTable_tracks (tableName tname) h)
    rw [(d.openTable_spec (tableName tname)).2.2.2.1] at ho
    exact ho
  | purge tname =>
    have ho := Db.purge_tracks (tableName tname) (Db.openTable_tracks (tableName tname) h)
    rw [(d.openTable_spec (tableName tname)).2.2.2.1] at ho
    exact ho

theorem Db.run_tracks {index : Mapping Str Entry} {t key : Str} (ops : List (TableOp V)) :
    ∀ (d : Db) (lag : Bool), d.Tracks index t key lag →
      (d.run c ops).Tracks index t key (lags c t key d lag ops) := by
  induction ops with
  | nil => intro d lag h; exact h
  | cons op ops ih => intro d lag h; exact ih _ _ (Db.apply_tracks c op h)

/-- **The redo-log law, with its exact condition.** From any db and for any
table, replaying the table's records of a sequence of calls onto the index it
started from gives the index the calls left in memory exactly when no key's
last write left the log behind. -/
theorem redo_log_iff (d : Db) (ops : List (TableOp V)) (t : Str) :
    (∀ key, (restoreFromLog (d.indexOf t) (tableRecs t (d.startLog.run c ops).log)).lookup key
      = ((d.startLog.run c ops).indexOf t).lookup key) ↔
    ∀ key, lags c t key d.startLog false ops = false := by
  have hall : ∀ key, (d.startLog.run c ops).Tracks (d.indexOf t) t key
      (lags c t key d.startLog false ops) :=
    fun key => Db.run_tracks c ops d.startLog false rfl
  exact forall_congr' fun key => (hall key).eq_iff

end Calls

/-- The codec of byte strings that encodes nothing. -/
def plainCodec : Codec Bytes :=
  { encodeValue := id, decodeValue := id, deflate := id, inflate := fun _ => none }

/-- A key set to 10 bytes and then to 20: its block moves from the bucket of size
16 to that of size 32, and the replay has lost it. -/
theorem replay_loses_moved_key :
    let ops : List (TableOp Bytes) := [.set "t".toList "k".toList (List.replicate 10 1),
      .set "t".toList "k".toList (List.replicate 20 2)]
    (restoreFromLog ((Db.fresh false).indexOf "t".toList)
        (tableRecs "t".toList ((Db.fresh false).startLog.run plainCodec ops).log)).lookup "k".toList
      ≠ (((Db.fresh false).startLog.run plainCodec ops).indexOf "t".toList).lookup "k".toList := by
  decide

end Caudium.Pdb
