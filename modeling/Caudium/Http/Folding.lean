import Caudium.Lib.Memory
import Caudium.Http.HeaderCall
import Caudium.Http.FoundLines

/-!
# Headers that occur more than once (`caudium.c`)

A value whose name the mapping has a string for is put behind that string and a comma, in a new
string of `len2` bytes. `len2` counts the bytes right, but `len` is one more than the value has, so
the second `MEMCPY` copies the CR or LF behind the value over the NUL at `len2`
(`Merge.stored_past`). The string itself is as it should be (`headerStep_merge`). So `append` keeps
the lines apart and stays within its strings exactly when each line with a ':' has only such lines
in front of it and no name comes a second time (`folds_iff`).
-/

namespace Caudium.Http

open Lib (Bytes Mapping Memory pread Visits runLoop)

/-! ## The new string -/

/-- A value that is put behind the string `old`; it is `in[os .. j)`. -/
structure Merge where
  old : Bytes
  os : Nat
  j : Nat

namespace Merge

def len (g : Merge) : Nat := g.j - g.os + 1

def len2 (g : Merge) : Nat := g.len + g.old.length

/-- `begin_shared_string`: a string nothing has been stored to, with a NUL behind it. -/
def beginSharedString : Memory UInt8 := { cell := fun _ => 0, high := 0 }

/-- The string after the two copies and the comma between them. -/
def stored (inp : Nat) (data : Bytes) (g : Merge) : Memory UInt8 :=
  ((beginSharedString.storeList 0 g.old).store g.old.length comma).storeList (g.old.length + 1)
    (pread data (inp + g.os) g.len)

/-- All stores are within the `len2` bytes, and the NUL is still there. -/
def Confined (inp : Nat) (data : Bytes) (g : Merge) : Prop :=
  (g.stored inp data).high ≤ g.len2 ∧ (g.stored inp data).cell g.len2 = 0

variable {inp : Nat} {data : Bytes} {g : Merge}

theorem stored_eq (hle : g.os ≤ g.j) (hlt : inp + g.j < data.length) :
    g.stored inp data =
      (beginSharedString.storeList 0 (g.old ++ comma :: pread data (inp + g.os) (g.j - g.os))).store
        g.len2 (byteAt data (inp + g.j)) := by
  have hlen : (pread data (inp + g.os) (g.j - g.os)).length = g.j - g.os := by
    rw [pread, List.length_take, List.length_drop]
    omega
  have hcopy : pread data (inp + g.os) g.len =
      pread data (inp + g.os) (g.j - g.os) ++ [byteAt data (inp + g.j)] := by
    rw [len, pread_snoc (by omega), show inp + g.os + (g.j - g.os) = inp + g.j by omega]
  have hend : g.old.length + 1 + (g.j - g.os) = g.len2 := by
    rw [len2, len]
    omega
  rw [stored, hcopy, Memory.storeList_append, hlen, hend, Memory.storeList_singleton,
    Memory.storeList_append, Nat.zero_add]
  rfl

/-- The string is the old one, a comma and the value. -/
theorem read_stored (hle : g.os ≤ g.j) (hlt : inp + g.j < data.length) :
    (g.stored inp data).read 0 g.len2 =
      g.old ++ comma :: pread data (inp + g.os) (g.j - g.os) := by
  have hlen : (g.old ++ comma :: pread data (inp + g.os) (g.j - g.os)).length = g.len2 := by
    rw [List.length_append, List.length_cons, pread, List.length_take, List.length_drop, len2, len]
    omega
  rw [stored_eq hle hlt, Memory.read_store_of_disjoint _ (Or.inr (by omega)), ← hlen,
    Memory.read_storeList]

/-- **One byte too many** is stored. -/
theorem stored_past (hle : g.os ≤ g.j) (hlt : inp + g.j < data.length) :
    (g.stored inp data).high = g.len2 + 1 := by
  rw [stored_eq hle hlt, Memory.high_store, Memory.high_storeList]
  have hlen : (g.old ++ comma :: pread data (inp + g.os) (g.j - g.os)).length = g.len2 := by
    rw [List.length_append, List.length_cons, pread, List.length_take, List.length_drop, len2, len]
    omega
  have hstart : beginSharedString.high = 0 := rfl
  rw [hlen, hstart, Nat.zero_add]
  split
  · exact Nat.max_eq_right (Nat.zero_le _)
  · omega

end Merge

namespace HeaderState

/-- Where the value begins behind the ':' at `i`. -/
def valueStart (inp : Nat) (s : HeaderState) : Nat :=
  s.i + 1 + ((s.data.drop (inp + s.i + 1)).takeWhile (· == space)).length

/-- Where it ends. -/
def valueEnd (inp l : Nat) (s : HeaderState) : Nat :=
  s.valueStart inp + ((pread s.data (inp + s.valueStart inp) (l - s.valueStart inp)).takeWhile
    fun b => b ≠ lf && b ≠ cr).length

/-- What a turn puts together, if it finds a string for the name. -/
def merge (inp l : Nat) (s : HeaderState) : Option Merge :=
  if byteAt s.data (inp + s.i) = colon then
    match s.headers.lookup (s.key inp) with
    | some (.string old) => some { old := old, os := s.valueStart inp, j := s.valueEnd inp l }
    | _ => none
  else none

end HeaderState

/-- There is a string for the name. -/
def HasString (m : Mapping Bytes Svalue) (key : Bytes) : Prop :=
  ∃ old, m.lookup key = some (.string old)

theorem merge_eq_none {inp l : Nat} {s : HeaderState} (hc : byteAt s.data (inp + s.i) = colon) :
    s.merge inp l = none ↔ ¬ HasString s.headers (s.key inp) := by
  rw [HeaderState.merge, if_pos hc, HasString]
  split
  next old hold => exact iff_of_false (by nofun) fun h => h ⟨old, hold⟩
  next hnone => exact iff_of_true rfl fun ⟨old, hold⟩ => hnone old hold

theorem merge_of_ne {inp l : Nat} {s : HeaderState} (hc : byteAt s.data (inp + s.i) ≠ colon) :
    s.merge inp l = none := if_neg hc

/-- The value that is copied lies within the text, and a byte of the text behind it. -/
theorem Stands.merge_lt {inp l : Nat} {s : HeaderState} {g : Merge} (h : Stands inp l s)
    (hi : s.i < l) (hg : s.merge inp l = some g) : g.os ≤ g.j ∧ inp + g.j < s.data.length := by
  unfold HeaderState.merge at hg
  split at hg
  next hc =>
    have hlf := h.lf_mem_rest hi hc
    have hlt := value_lt hlf
    have hlen := h.length_rest
    have hfits := h.fits
    have hstart : s.valueStart inp = s.i + 1 + blanks (restText inp l s) := by
      rw [HeaderState.valueStart, h.blanks_eq hi hlf]
    have hend : s.valueEnd inp l = s.valueStart inp + (valueOf (restText inp l s)).length := by
      rw [HeaderState.valueEnd, pread_blanks hstart]
      rfl
    split at hg
    next =>
      obtain rfl := Option.some.inj hg
      dsimp only
      omega
    next => cases hg
  next => cases hg

/-- **A turn that puts two values together** stores what can be read from the new string. -/
theorem headerStep_merge {inp l : Nat} {s : HeaderState} {g : Merge} (h : Stands inp l s)
    (hi : s.i < l) (hg : s.merge inp l = some g) :
    (headerStep inp l s).headers =
      s.headers.insert (s.key inp) (.string ((g.stored inp s.data).read 0 g.len2)) := by
  obtain ⟨hle, hlt⟩ := h.merge_lt hi hg
  rw [Merge.read_stored hle hlt]
  unfold HeaderState.merge at hg
  split at hg
  next hc =>
    split at hg
    next old hold =>
      obtain rfl := Option.some.inj hg
      have hupper : ¬(65 ≤ byteAt s.data (inp + s.i) ∧ byteAt s.data (inp + s.i) ≤ 90) := by
        rw [hc]
        decide
      rw [HeaderState.key] at hold
      rw [headerStep]
      dsimp only
      rw [if_neg hupper, if_pos hc, hold]
      rfl
    next => cases hg
  next => cases hg

/-! ## Names that come for the first time -/

/-- No name comes twice, and there is no string for any of them. -/
structure Fresh (m : Mapping Bytes Svalue) (fs : List (Bytes × Bytes)) : Prop where
  once : (fs.map Prod.fst).Nodup
  absent : ∀ key ∈ fs.map Prod.fst, ¬ HasString m key

section Fresh

variable {m : Mapping Bytes Svalue} {fs : List (Bytes × Bytes)} {key value : Bytes}

theorem hasString_insert (k : Bytes) :
    HasString (m.insert key (.string value)) k ↔ k = key ∨ HasString m k := by
  unfold HasString
  rw [Lib.Mapping.lookup_insert_ite]
  split
  next he => exact iff_of_true ⟨value, rfl⟩ (Or.inl he)
  next hne => exact (or_iff_right hne).symm

theorem fresh_nil : Fresh m [] := ⟨.nil, fun _ h => nomatch h⟩

theorem fresh_cons : Fresh m ((key, value) :: fs) ↔
    ¬ HasString m key ∧ Fresh (m.insert key (.string value)) fs := by
  constructor
  · intro ⟨honce, habsent⟩
    obtain ⟨hnew, hrest⟩ := List.nodup_cons.mp honce
    refine ⟨habsent key List.mem_cons_self, hrest, fun k hk => ?_⟩
    rw [hasString_insert, not_or]
    exact ⟨fun he => hnew (he ▸ hk), habsent k (List.mem_cons_of_mem _ hk)⟩
  · intro ⟨hkey, hfresh⟩
    have hsplit : ∀ k ∈ fs.map Prod.fst, k ≠ key ∧ ¬ HasString m k := fun k hk => by
      have habsent := hfresh.absent k hk
      rwa [hasString_insert, not_or] at habsent
    refine ⟨List.nodup_cons.mpr ⟨fun hmem => (hsplit key hmem).1 rfl, hfresh.once⟩, ?_⟩
    intro k hk
    rcases List.mem_cons.mp hk with rfl | hk
    · exact hkey
    · exact (hsplit k hk).2

/-- What has a string for every name looks the same whatever the string is. -/
theorem fresh_congr {m' : Mapping Bytes Svalue} (h : ∀ k, HasString m k ↔ HasString m' k) :
    Fresh m fs ↔ Fresh m' fs := by
  constructor
  · intro hf
    exact ⟨hf.once, fun k hk hs => hf.absent k hk ((h k).mpr hs)⟩
  · intro hf
    exact ⟨hf.once, fun k hk hs => hf.absent k hk ((h k).mp hs)⟩

theorem folded_of_absent (h : ¬ HasString m key) : folded m key value = value := by
  unfold folded
  split
  next old hold => exact absurd ⟨old, hold⟩ h
  next => rfl

theorem insertFound_cons : insertFound m ((key, value) :: fs) =
    insertFound (m.insert key (.string (folded m key value))) fs := rfl

/-- A key that is not found is left as it is. -/
theorem lookup_insertFound_of_ne (h : key ∉ fs.map Prod.fst) :
    (insertFound m fs).lookup key = m.lookup key := by
  induction fs generalizing m with
  | nil => rfl
  | cons f fs ih =>
    rw [List.map_cons, List.mem_cons, not_or] at h
    rw [insertFound_cons, ih h.2, Lib.Mapping.lookup_insert_ite, if_neg h.1]

/-- Fresh names get their values. -/
theorem lookup_insertFound (hfresh : Fresh m fs) (hmem : (key, value) ∈ fs) :
    (insertFound m fs).lookup key = some (.string value) := by
  induction fs generalizing m with
  | nil => cases hmem
  | cons f fs ih =>
    obtain ⟨k, v⟩ := f
    have hnew := (List.nodup_cons.mp hfresh.once).1
    obtain ⟨hk, hrest⟩ := fresh_cons.1 hfresh
    rw [insertFound_cons, folded_of_absent hk]
    rcases List.mem_cons.mp hmem with he | hmem
    · obtain ⟨rfl, rfl⟩ := Prod.mk.inj he
      rw [lookup_insertFound_of_ne hnew, Lib.Mapping.lookup_insert_ite, if_pos rfl]
    · exact ih hrest hmem

end Fresh

section Loop

variable {inp l : Nat} {s : HeaderState}

theorem headerLive_iff : headerLive l s = true ↔ s.i < l := decide_eq_true_iff

/-- A turn puts two values together, or leaves the names as fresh as they are. -/
theorem Turn.fresh_iff {s' : HeaderState} (h : Turn inp l s s') :
    Fresh s.headers (s.todo inp l) ↔
      s.merge inp l = none ∧ Fresh s'.headers (s'.todo inp l) := by
  cases h with
  | stored value hc htodo hheaders =>
    rw [htodo, hheaders, fresh_cons, merge_eq_none hc]
    refine and_congr_right fun _ => fresh_congr fun k => ?_
    rw [hasString_insert, hasString_insert]
  | passed hc htodo hheaders =>
    rw [htodo, hheaders]
    exact (and_iff_right (merge_of_ne hc)).symm

theorem todo_of_done (hi : ¬ s.i < l) : s.todo inp l = [] := by
  rw [HeaderState.todo, Nat.sub_eq_zero_of_le (Nat.le_of_not_lt hi)]
  rfl

/-- **No two values are put together** in the whole loop if and only if all names are fresh. -/
theorem fresh_iff_no_merge (h : Stands inp l s) :
    Fresh s.headers (s.todo inp l) ↔
      ∀ t, Visits (headerLive l) (headerStep inp l) s t → t.i < l → t.merge inp l = none := by
  obtain ⟨n, hn⟩ : ∃ n, l - s.i = n := ⟨_, rfl⟩
  induction n using Nat.strongRecOn generalizing s with
  | ind n ih =>
    by_cases hi : s.i < l
    · have hlive : headerLive l s = true := headerLive_iff.2 hi
      obtain ⟨hstands, hturn⟩ := headerStep_turn h hi
      have hmeasure : l - (headerStep inp l s).i < n := by
        by_cases hlive' : headerLive l (headerStep inp l s) = true
        · have hfall := (headerStep_falls inp l).fall s hlive hlive'
          omega
        · have hdone := mt headerLive_iff.2 hlive'
          omega
      rw [hturn.fresh_iff, ih _ hmeasure hstands rfl]
      constructor
      · intro ⟨hmerge, hrest⟩ t ht hti
        rcases (Lib.visits_live hlive).mp ht with rfl | ht
        · exact hmerge
        · exact hrest t ht hti
      · intro hall
        exact ⟨hall s (.here s) hi, fun t ht hti => hall t (.later hlive ht) hti⟩
    · have hdone : headerLive l s = false := decide_eq_false hi
      rw [todo_of_done hi]
      refine iff_of_true fresh_nil fun t ht hti => ?_
      rw [(Lib.visits_stop hdone).mp ht] at hti
      exact absurd hti hi

end Loop

/-! ## The headers of a request -/

/-- The values of a name, in order. -/
def valuesNamed (text name : Bytes) : List Bytes :=
  ((colonLines text).filter fun line => nameOf line = name).map fun line => (entryOf line).2

/-- `append` on a request with the header text of the call `c`, into the mapping `before`: the keys
it sets are names, each name has its values with commas between them, and the strings they are put
together in are stored to only where they may be. -/
structure HeaderCall.Folds (c : HeaderCall) (before after : Mapping Bytes Svalue) : Prop where
  keys : ∀ key, after.lookup key ≠ before.lookup key → CleanKey key
  values : ∀ name ∈ (colonLines c.text).map nameOf,
    after.lookup name = some (.string ([comma].intercalate (valuesNamed c.text name)))
  confined : ∀ s, Visits (headerLive c.l) (headerStep c.inp c.l) c.start s → s.i < c.l →
    ∀ g, s.merge c.inp c.l = some g → g.Confined c.inp s.data

/-- Each line with a ':' has only such lines in front of it, and each of their names comes once and
has no string in the mapping before. -/
structure HeaderCall.Plain (c : HeaderCall) (before : Mapping Bytes Svalue) : Prop where
  first : ColonsFirst c.text
  once : ((colonLines c.text).map nameOf).Nodup
  absent : ∀ name ∈ (colonLines c.text).map nameOf, ¬ HasString before name

theorem names_found {text : Bytes} (h : ColonsFirst text) :
    (found text).map Prod.fst = (colonLines text).map nameOf := by
  rw [found_eq text h, List.map_map]
  rfl

theorem inLine_of_mem_colonLines {text line : Bytes} (h : line ∈ colonLines text) :
    ∀ b ∈ line, inLine b = true :=
  inLine_of_mem_headerLines text line (List.mem_filter.mp h).1

/-- Where all images are different, one is the image of one element. -/
theorem filter_of_nodup_map {α β : Type} [DecidableEq β] {f : α → β} {a : α} {as : List α}
    (h : (as.map f).Nodup) (ha : a ∈ as) : as.filter (fun b => f b = f a) = [a] := by
  induction as with
  | nil => cases ha
  | cons b as ih =>
    obtain ⟨hnew, hrest⟩ := List.nodup_cons.mp h
    rcases List.mem_cons.mp ha with rfl | ha
    · have hnone : as.filter (fun b => f b = f a) = [] := by
        rw [List.filter_eq_nil_iff]
        intro b hb he
        exact hnew (List.mem_map.mpr ⟨b, hb, of_decide_eq_true he⟩)
      rw [List.filter_cons, if_pos (decide_eq_true rfl), hnone]
    · have hne : f b ≠ f a := fun he => hnew (List.mem_map.mpr ⟨a, ha, he.symm⟩)
      rw [List.filter_cons, if_neg (by rw [decide_eq_true_iff]; exact hne), ih hrest ha]

/-- A name that comes once has one value. -/
theorem valuesNamed_eq {text line : Bytes} (honce : ((colonLines text).map nameOf).Nodup)
    (hmem : line ∈ colonLines text) : valuesNamed text (nameOf line) = [(entryOf line).2] := by
  rw [valuesNamed, filter_of_nodup_map honce hmem]
  rfl

section Request

variable {b : Buffer} {str : Bytes} {c : HeaderCall}

theorem HeaderCall.Arrived.stands {data : Bytes} {m : Mapping Bytes Svalue} (h : c.Arrived data m)
    (hpos : 0 < c.l) : Stands c.inp c.l c.start := stands_start (h.fits hpos) h.last _

/-- The strings are kept to if and only if nothing is put together. -/
theorem confined_iff (h : b.headerCall str = some c) :
    (∀ s, Visits (headerLive c.l) (headerStep c.inp c.l) c.start s → s.i < c.l →
      ∀ g, s.merge c.inp c.l = some g → g.Confined c.inp s.data) ↔
      Fresh b.headers (found c.text) := by
  have harrived := headerCall_arrived h
  rcases Nat.eq_zero_or_pos c.l with hzero | hpos
  · have hempty : c.text = [] := by
      rw [HeaderCall.text, hzero]
      rfl
    rw [hempty]
    refine iff_of_true (fun s _ hi => ?_) fresh_nil
    rw [hzero] at hi
    exact absurd hi (Nat.not_lt_zero _)
  have hstands := harrived.stands hpos
  have htodo : Fresh b.headers (found c.text) ↔
      Fresh c.start.headers (c.start.todo c.inp c.l) := by
    rw [← harrived.headers]
    rfl
  rw [htodo, fresh_iff_no_merge hstands]
  constructor
  · intro hconfined s hs hi
    have hat : Stands c.inp c.l s := by
      refine Lib.visits_inv (P := Stands c.inp c.l) (fun t hlive ht => ?_) hs hstands
      exact (headerStep_turn ht (headerLive_iff.1 hlive)).1
    cases hg : s.merge c.inp c.l with
    | none => rfl
    -- A second value is copied behind the first one's end, where no string was.
    | some g =>
      obtain ⟨hle, hlt⟩ := hat.merge_lt hi hg
      have hhigh := (hconfined s hs hi g hg).1
      rw [Merge.stored_past hle hlt] at hhigh
      omega
  · intro hnone s hs hi g hg
    rw [hnone s hs hi] at hg
    cases hg

/-- A request whose lines are plain is folded as it should be. -/
theorem HeaderCall.Plain.folds (h : b.headerCall str = some c) (hplain : c.Plain b.headers) :
    c.Folds b.headers (b.append str).2.headers := by
  have hnames := names_found hplain.first
  have hfresh : Fresh b.headers (found c.text) :=
    ⟨hnames ▸ hplain.once, fun key hkey => hplain.absent key (hnames ▸ hkey)⟩
  refine ⟨fun key hkey => ?_, fun name hname => ?_, (confined_iff h).mpr hfresh⟩
  · rw [append_headers h] at hkey
    have hmem := not_imp_comm.mp lookup_insertFound_of_ne hkey
    rw [hnames] at hmem
    obtain ⟨line, hline, rfl⟩ := List.mem_map.mp hmem
    exact cleanKey_nameOf (inLine_of_mem_colonLines hline)
  · obtain ⟨line, hline, rfl⟩ := List.mem_map.mp hname
    have hentry : (nameOf line, (entryOf line).2) ∈ found c.text := by
      rw [found_eq c.text hplain.first]
      exact List.mem_map.mpr ⟨line, hline, rfl⟩
    rw [append_headers h, lookup_insertFound hfresh hentry, valuesNamed_eq hplain.once hline,
      List.intercalate_singleton]

theorem HeaderCall.Folds.plain (h : b.headerCall str = some c)
    (hfolds : c.Folds b.headers (b.append str).2.headers) : c.Plain b.headers := by
  have hfresh := (confined_iff h).mp hfolds.confined
  have hfirst : ColonsFirst c.text := by
    by_contra hbroken
    -- The key with a break in it is new, so it is a key that the call sets.
    obtain ⟨⟨key, value⟩, hmem, hkey⟩ := found_broken c.text hbroken
    refine hkey (hfolds.keys key ?_)
    rw [append_headers h, lookup_insertFound hfresh hmem]
    intro he
    exact hfresh.absent key (List.mem_map.mpr ⟨_, hmem, rfl⟩) ⟨value, he.symm⟩
  have hnames := names_found hfirst
  exact ⟨hfirst, hnames ▸ hfresh.once, fun name hname => hfresh.absent name (hnames ▸ hname)⟩

end Request

/-- **Keys and values** of a request that `append` answers 1 for are as they should be if and only
if its header lines are plain. -/
theorem folds_iff (b : Buffer) (str : Bytes) (h : (b.append str).1 = 1) :
    ∃ c, b.headerCall str = some c ∧
      (c.Folds b.headers (b.append str).2.headers ↔ c.Plain b.headers) := by
  obtain ⟨c, hc⟩ := headerCall_of_one h
  exact ⟨c, hc, fun hfolds => hfolds.plain hc, fun hplain => hplain.folds hc⟩

/-- "GET / HTTP/1.0" with the lines "A: b" and "c:". -/
theorem folds_iff_twoNames :
    ∃ c, (Buffer.create ∅ ∅ 100).headerCall
        (sampleLine ++ [cr, lf, 65, 58, 32, 98, cr, lf, 99, 58, cr, lf, cr, lf]) = some c ∧
      (c.Folds ∅ ((Buffer.create ∅ ∅ 100).append
        (sampleLine ++ [cr, lf, 65, 58, 32, 98, cr, lf, 99, 58, cr, lf, cr, lf])).2.headers ↔
        c.Plain ∅) :=
  folds_iff (Buffer.create ∅ ∅ 100)
    (sampleLine ++ [cr, lf, 65, 58, 32, 98, cr, lf, 99, 58, cr, lf, cr, lf]) (by decide +kernel)

theorem not_folds_of_text {b : Buffer} {str text : Bytes}
    (htext : (b.headerCall str).map HeaderCall.text = some text)
    (h : ¬ (ColonsFirst text ∧ ((colonLines text).map nameOf).Nodup)) :
    ∃ c, b.headerCall str = some c ∧ ¬ c.Folds b.headers (b.append str).2.headers := by
  obtain ⟨c, hc, rfl⟩ := Option.map_eq_some_iff.mp htext
  refine ⟨c, hc, fun hfolds => h ?_⟩
  have hplain := hfolds.plain hc
  exact ⟨hplain.first, hplain.once⟩

/-- "foo" in front of "a:b" is stored in the key, and the second of "a:b", "A:c" is copied over the
NUL; `append` answers 1 for both. -/
theorem headers_misfolded :
    (((Buffer.create ∅ ∅ 100).append
        (sampleLine ++ [cr, lf, 102, 111, 111, cr, lf, 97, 58, 98, cr, lf, cr, lf])).1 = 1 ∧
      ∃ c, (Buffer.create ∅ ∅ 100).headerCall
        (sampleLine ++ [cr, lf, 102, 111, 111, cr, lf, 97, 58, 98, cr, lf, cr, lf]) = some c ∧
      ¬ c.Folds ∅ ((Buffer.create ∅ ∅ 100).append
        (sampleLine ++ [cr, lf, 102, 111, 111, cr, lf, 97, 58, 98, cr, lf, cr, lf])).2.headers) ∧
    ((Buffer.create ∅ ∅ 100).append
        (sampleLine ++ [cr, lf, 97, 58, 98, cr, lf, 65, 58, 99, cr, lf, cr, lf])).1 = 1 ∧
      ∃ c, (Buffer.create ∅ ∅ 100).headerCall
        (sampleLine ++ [cr, lf, 97, 58, 98, cr, lf, 65, 58, 99, cr, lf, cr, lf]) = some c ∧
      ¬ c.Folds ∅ ((Buffer.create ∅ ∅ 100).append
        (sampleLine ++ [cr, lf, 97, 58, 98, cr, lf, 65, 58, 99, cr, lf, cr, lf])).2.headers :=
  ⟨⟨by decide +kernel, @not_folds_of_text (Buffer.create ∅ ∅ 100) _
      [102, 111, 111, cr, lf, 97, 58, 98, cr, lf, cr, lf] (by decide +kernel) (by decide)⟩,
    by decide +kernel, @not_folds_of_text (Buffer.create ∅ ∅ 100) _
      [97, 58, 98, cr, lf, 65, 58, 99, cr, lf, cr, lf] (by decide +kernel) (by decide)⟩

end Caudium.Http
