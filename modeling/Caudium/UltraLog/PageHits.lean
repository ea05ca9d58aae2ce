import Caudium.UltraLog.Parse
import Mathlib.Data.List.TakeWhile

/-!
# Page hits and their keys (`hourly_page_hits` and `clean_refto`, ultrautil.c)

Both functions count a URL under the decoded path in front of its '?'. They take the characters
up to the one before the '?', and leave that one out too. This makes no difference where an
escape ends the path that is too short, or that stands for a NUL (`endsInNul`); and for a URL
that begins with '?' the length is -1.
-/

namespace Caudium.UltraLog

open Lib (Str Mapping search)

/-! ## Keys -/

/-- What is in front of the first '?'. -/
def pathOf (url : Str) : Str := url.takeWhile (· ≠ '?')

/-- The decoded path. -/
def pageKey (url : Str) : Str := httpDecodeString (pathOf url)

/-- A request URL: a C string, as the reader takes it out of `buf`, and no longer than a line. -/
def RequestUrl (url : Str) : Prop := '\x00' ∉ url ∧ url.length < maxLineLen

theorem nul_not_mem_string {F : Floats} (s : Reader F) (i : Int) : '\x00' ∉ s.string i := by
  intro h
  have hne := List.mem_takeWhile_imp h
  simp at hne

/-- The escape at the end of a path lacks a digit, or stands for a NUL. -/
def endsInNul : Str → Bool
  | [] => false
  | '%' :: a :: b :: rest =>
    if rest = [] then
      decide (Char.ofNat ((Http.hexValue a <<< 4) ||| Http.hexValue b) = '\x00')
    else endsInNul rest
  | ['%', _] => true
  | _ :: rest => endsInNul rest

theorem decode_cons {c : Char} (h : c ≠ '%') (rest : Str) :
    httpDecodeString (c :: rest) = c :: httpDecodeString rest := by
  rw [httpDecodeString]
  · intro a b _ hc
    exact absurd hc h
  · exact h

/-- Without its last character the path is decoded as it is with it. -/
theorem decode_dropLast_iff {path : Str} (hne : path ≠ []) :
    httpDecodeString path.dropLast = httpDecodeString path ↔ endsInNul path = true := by
  induction path using endsInNul.induct with
  | case1 => exact absurd rfl hne
  | case2 a b =>
    show httpDecodeString ['%', a] = httpDecodeString ['%', a, b] ↔ _
    simp [httpDecodeString, endsInNul, eq_comm]
  | case3 a b rest hrest ih =>
    obtain ⟨c, rest, rfl⟩ := List.exists_cons_of_ne_nil hrest
    rw [endsInNul, if_neg hrest, ← ih hrest]
    simp [httpDecodeString]
  | case4 a =>
    show httpDecodeString ['%'] = httpDecodeString ['%', a] ↔ _
    simp [httpDecodeString, endsInNul]
  | case5 c rest hdigits hdigit ih =>
    rw [endsInNul]
    · by_cases hc : c = '%'
      · obtain rfl : rest = [] := by
          cases rest with
          | nil => rfl
          | cons a rest =>
            cases rest with
            | nil => exact absurd rfl (hdigit a hc)
            | cons b rest => exact absurd rfl (hdigits a b rest hc)
        rw [hc]
        simp [httpDecodeString, endsInNul]
      · cases rest with
        | nil => simp [decode_cons hc, httpDecodeString, endsInNul]
        | cons d rest =>
          rw [List.dropLast_cons_cons, decode_cons hc, decode_cons hc,
            ← ih (List.cons_ne_nil d rest)]
          simp
    · exact hdigits
    · exact hdigit

/-! ## Counting under a key -/

/-- A URL's count is added to one entry, of the pages or of the hits. -/
def addHit (pagexts : List Str) (acc : Counts × Counts × UInt32) (key : Str) (count : Int) :
    Counts × Counts × UInt32 :=
  if ispage key pagexts then
    (mapaddnum acc.1 key count, acc.2.1, acc.2.2 + UInt32.ofInt count)
  else (acc.1, mapaddnum acc.2.1 key count, acc.2.2)

/-- The referrers of a page are added to its table. -/
def addRefs (pagexts : List Str) (dest : Tables Str) (key : Str) (refs : Counts) : Tables Str :=
  if ispage key pagexts then
    refs.entries.foldl (fun m e =>
      let ref := e.1.take maxLineLen
      let lowered := match ultraLowercaseHost ref with
        | some (lowered, _) => lowered
        | none => ref
      map2addnum m key lowered e.2) dest
  else dest

variable {pagexts : List Str}

theorem pageHit_eq (acc : Counts × Counts × UInt32) (url : Str) (count : Int) :
    pageHit pagexts acc url count =
      (urlPart url).map fun part => addHit pagexts acc (httpDecodeString part) count := rfl

theorem cleanUrlRefs_eq (dest : Tables Str) (url : Str) (refs : Counts) :
    cleanUrlRefs pagexts dest url refs =
      (urlPart url).map fun part => addRefs pagexts dest (httpDecodeString part) refs := rfl

/-- Each URL of the mapping is counted once, under its decoded path; the number of pages is the
sum of the counts of those that are pages; and the referrers of a URL are kept under the same
key. -/
structure Attributed (pagexts : List Str) (urls : Counts) : Prop where
  hit : ∀ e ∈ urls.entries, ∀ acc,
    pageHit pagexts acc e.1 e.2 = some (addHit pagexts acc (pageKey e.1) e.2)
  run : ∀ pages hits, hourlyPageHits urls pages hits pagexts =
    some (urls.entries.foldl (fun acc e => addHit pagexts acc (pageKey e.1) e.2) (pages, hits, 0))
  returned : ∀ pages hits pages' hits' n,
    hourlyPageHits urls pages hits pagexts = some (pages', hits', n) →
      n = (urls.entries.filter fun e => ispage (pageKey e.1) pagexts).foldl
        (fun n e => n + UInt32.ofInt e.2) 0
  refto : ∀ e ∈ urls.entries, ∀ dest refs,
    cleanUrlRefs pagexts dest e.1 refs = some (addRefs pagexts dest (pageKey e.1) refs)

/-- There is no '?', or the path before it ends so that its last character does not matter. -/
def KeepsPath (url : Str) : Prop := '?' ∉ url ∨ endsInNul (pathOf url) = true

theorem pathOf_of_not_mem {url : Str} (h : '?' ∉ url) : pathOf url = url := by
  refine List.takeWhile_eq_self_iff.mpr fun c hc => ?_
  rw [decide_eq_true_eq]
  intro heq
  exact h (heq ▸ hc)

theorem urlPart_of_not_mem {url : Str} (hlen : url.length < maxLineLen) (h : '?' ∉ url) :
    urlPart url = some url := by
  rw [urlPart, Lib.search_char_none h]
  dsimp only
  rw [List.take_of_length_le (Nat.le_of_lt hlen)]

/-- A URL with a '?' is its path, the '?' and what follows. -/
theorem exists_query {url : Str} (h : '?' ∈ url) :
    ∃ query, url = pathOf url ++ '?' :: query ∧ '?' ∉ pathOf url := by
  have hpath : '?' ∉ pathOf url := by
    intro hmem
    have hne := List.mem_takeWhile_imp hmem
    simp at hne
  have hsplit := List.takeWhile_append_dropWhile (p := fun c => decide (c ≠ '?')) (l := url)
  cases hdrop : url.dropWhile fun c => decide (c ≠ '?') with
  | nil =>
    rw [hdrop, List.append_nil] at hsplit
    rw [← hsplit] at h
    exact absurd h hpath
  | cons c query =>
    have hhead := List.head?_dropWhile_not (fun c => decide (c ≠ '?')) url
    rw [hdrop] at hhead
    have hc : c = '?' := by simpa using hhead
    rw [hdrop, hc] at hsplit
    exact ⟨query, hsplit.symm, hpath⟩

theorem urlPart_of_mem {url : Str} (hlen : url.length < maxLineLen) (h : '?' ∈ url) :
    urlPart url = if pathOf url = [] then none else some (pathOf url).dropLast := by
  obtain ⟨query, hurl, hpath⟩ := exists_query h
  have hsearch : search url ['?'] = some (pathOf url).length := by
    conv_lhs => rw [hurl]
    exact Lib.search_char hpath query
  have hle : (pathOf url).length ≤ url.length := (List.takeWhile_prefix _).length_le
  rw [urlPart, hsearch]
  cases hlength : (pathOf url).length with
  | zero =>
    rw [if_pos (List.eq_nil_of_length_eq_zero hlength)]
  | succ i =>
    have hne : pathOf url ≠ [] := fun hnil => by
      rw [hnil] at hlength
      cases hlength
    rw [if_neg hne]
    dsimp only
    rw [Nat.min_eq_right (by omega), List.dropLast_eq_take, hlength, Nat.add_sub_cancel]
    congr 1
    conv_lhs => rw [hurl]
    rw [List.take_append_of_le_length (by omega)]

/-- The part that is taken of a URL is decoded as its path is. -/
theorem urlPart_iff {url : Str} (hlen : url.length < maxLineLen) :
    (∃ part, urlPart url = some part ∧ httpDecodeString part = pageKey url) ↔ KeepsPath url := by
  unfold KeepsPath pageKey
  by_cases h : '?' ∈ url
  · rw [urlPart_of_mem hlen h, or_iff_right (not_not.mpr h)]
    by_cases hnil : pathOf url = []
    · rw [if_pos hnil, hnil]
      simp [endsInNul]
    · rw [if_neg hnil, ← decode_dropLast_iff hnil]
      simp
  · rw [urlPart_of_not_mem hlen h, pathOf_of_not_mem h]
    simp [h]

/-! ## When every URL is counted under its path -/

theorem addHit_inj {key key' : Str} {count : Int}
    (h : addHit pagexts (∅, ∅, 0) key count = addHit pagexts (∅, ∅, 0) key' count) : key = key' := by
  have hlookup : ∀ k k' : Str, (mapaddnum (∅ : Counts) k count) = mapaddnum ∅ k' count → k = k' := by
    intro k k' heq
    have hk := congrArg (fun m : Counts => m.lookup k) heq
    unfold mapaddnum at hk
    rw [AList.lookup_insert, Lib.Mapping.lookup_insert_ite] at hk
    split at hk
    · next hkk => exact hkk
    · cases hk
  have hempty : ∀ k : Str, mapaddnum (∅ : Counts) k count ≠ ∅ := by
    intro k heq
    have hk := congrArg (fun m : Counts => m.lookup k) heq
    unfold mapaddnum at hk
    rw [AList.lookup_insert] at hk
    cases hk
  unfold addHit at h
  split at h
  · split at h
    · exact hlookup _ _ (congrArg Prod.fst h)
    · exact absurd (congrArg Prod.fst h) (hempty key)
  · split at h
    · exact absurd (congrArg Prod.fst h).symm (hempty key')
    · exact hlookup _ _ (congrArg (fun acc => acc.2.1) h)

/-- A fold whose steps all have results is the fold of the results. -/
theorem foldlM_some {α β : Type} {f : β → α → Option β} {g : β → α → β} {l : List α}
    (h : ∀ a ∈ l, ∀ b, f b a = some (g b a)) (b : β) : l.foldlM f b = some (l.foldl g b) := by
  induction l generalizing b with
  | nil => rfl
  | cons a l ih =>
    rw [List.foldlM_cons, h a List.mem_cons_self]
    exact ih (fun a' ha' => h a' (List.mem_cons_of_mem a ha')) _

/-- The number of pages is the sum of their counts. -/
theorem foldl_addHit (l : List (Sigma fun _ : Str => Int)) (acc : Counts × Counts × UInt32) :
    (l.foldl (fun acc e => addHit pagexts acc (pageKey e.1) e.2) acc).2.2 =
      (l.filter fun e => ispage (pageKey e.1) pagexts).foldl
        (fun n e => n + UInt32.ofInt e.2) acc.2.2 := by
  induction l generalizing acc with
  | nil => rfl
  | cons e l ih =>
    rw [List.foldl_cons, ih, addHit, List.filter_cons]
    split
    · rfl
    · rfl

/-- **When hits are counted under their paths.** Every URL of a mapping is counted once, under
its decoded path, and its referrers are kept under the same key, if and only if no URL has a '?'
but behind a path that ends in an escape which is too short, or which stands for a NUL. -/
theorem attributed_iff (pagexts : List Str) (urls : Counts)
    (hurls : ∀ e ∈ urls.entries, RequestUrl e.1) :
    Attributed pagexts urls ↔ ∀ e ∈ urls.entries, KeepsPath e.1 := by
  constructor
  · intro h e he
    have hhit := h.hit e he (∅, ∅, 0)
    rw [pageHit_eq] at hhit
    obtain ⟨part, hpart, hkey⟩ := Option.map_eq_some_iff.mp hhit
    exact (urlPart_iff (hurls e he).2).1 ⟨part, hpart, addHit_inj hkey⟩
  · intro h
    have hpart : ∀ e ∈ urls.entries, ∃ part, urlPart e.1 = some part ∧
        httpDecodeString part = pageKey e.1 := fun e he => (urlPart_iff (hurls e he).2).2 (h e he)
    have hhit : ∀ e ∈ urls.entries, ∀ acc,
        pageHit pagexts acc e.1 e.2 = some (addHit pagexts acc (pageKey e.1) e.2) := by
      intro e he acc
      obtain ⟨part, hsome, hkey⟩ := hpart e he
      rw [pageHit_eq, hsome, Option.map_some, hkey]
    have hrun : ∀ pages hits, hourlyPageHits urls pages hits pagexts =
        some (urls.entries.foldl (fun acc e => addHit pagexts acc (pageKey e.1) e.2)
          (pages, hits, 0)) := fun pages hits => foldlM_some hhit (pages, hits, 0)
    refine ⟨hhit, hrun, ?_, ?_⟩
    · intro pages hits pages' hits' n hsome
      rw [hrun] at hsome
      rw [← foldl_addHit urls.entries (pages, hits, 0), Option.some.inj hsome]
    · intro e he dest refs
      obtain ⟨part, hsome, hkey⟩ := hpart e he
      rw [cleanUrlRefs_eq, hsome, Option.map_some, hkey]

/-- A page without a query. -/
def plainUrls : Counts := AList.insert "/index.html".toList 3 ∅

theorem attributed_plainUrls :
    Attributed [] plainUrls ↔ ∀ e ∈ plainUrls.entries, KeepsPath e.1 := by
  refine attributed_iff [] plainUrls fun e he => ?_
  obtain rfl : e = ⟨"/index.html".toList, 3⟩ := List.mem_singleton.mp he
  exact ⟨by decide, by decide⟩

/-- A page with a query is counted without the last letter of its name. -/
def queryUrls : Counts := AList.insert "/ab?c".toList 1 ∅

theorem query_miscounted : ¬Attributed [] queryUrls := by
  intro h
  have hhit := h.hit ⟨"/ab?c".toList, 1⟩ (List.mem_singleton_self _) (∅, ∅, 0)
  exact absurd (congrArg (Option.map fun acc => acc.2.1.keys) hhit) (by decide)

/-! ## URLs without a path -/

theorem urlPart_eq_none_iff {url : Str} : urlPart url = none ↔ url.head? = some '?' := by
  have hzero : search url ['?'] = some 0 ↔ url.head? = some '?' := by
    rw [Lib.search_eq_some]
    cases url with
    | nil => simp
    | cons c url => simp [eq_comm]
  rw [← hzero, urlPart]
  split
  · next h => simp [h]
  · next h => simp [h]
  · next h => simp [h]

theorem foldlM_eq_none_iff {α β : Type} {f : β → α → Option β} {l : List α}
    (h : ∀ a b b', f b a = none ↔ f b' a = none) (b : β) :
    l.foldlM f b = none ↔ ∃ a ∈ l, f b a = none := by
  induction l generalizing b with
  | nil => simp
  | cons a l ih =>
    rw [List.foldlM_cons]
    cases hf : f b a with
    | none => simp [hf]
    | some b' =>
      show l.foldlM f b' = none ↔ _
      rw [ih, List.exists_mem_cons_iff, or_iff_right (by rw [hf]; exact Option.some_ne_none b')]
      exact exists_congr fun a' => and_congr_right fun _ => h a' b' b

/-- The page hits of an hour lead out of the memory where a URL begins with '?'. -/
theorem hourlyPageHits_eq_none_iff (pagexts : List Str) (urls pages hits : Counts) :
    hourlyPageHits urls pages hits pagexts = none ↔
      ∃ e ∈ urls.entries, e.1.head? = some '?' := by
  have hstep : ∀ (e : Sigma fun _ : Str => Int) acc,
      pageHit pagexts acc e.1 e.2 = none ↔ e.1.head? = some '?' := by
    intro e acc
    rw [pageHit_eq, Option.map_eq_none_iff, urlPart_eq_none_iff]
  rw [hourlyPageHits, foldlM_eq_none_iff fun e acc acc' => by rw [hstep, hstep]]
  exact exists_congr fun e => and_congr_right fun _ => hstep e _

theorem cleanRefto_eq_none_iff (pagexts : List Str) (refto : Tables Str) :
    cleanRefto refto pagexts = none ↔ ∃ e ∈ refto.entries, e.1.head? = some '?' := by
  have hstep : ∀ (e : Sigma fun _ : Str => Counts) dest,
      cleanUrlRefs pagexts dest e.1 e.2 = none ↔ e.1.head? = some '?' := by
    intro e dest
    rw [cleanUrlRefs_eq, Option.map_eq_none_iff, urlPart_eq_none_iff]
  rw [cleanRefto, foldlM_eq_none_iff fun e dest dest' => by rw [hstep, hstep]]
  exact exists_congr fun e => and_congr_right fun _ => hstep e _

end Caudium.UltraLog
