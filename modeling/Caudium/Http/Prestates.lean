import Mathlib.Data.Finset.Dedup
import Mathlib.Data.Finset.Insert
import Mathlib.Data.Finset.Lattice.Basic
import Mathlib.Data.Finset.Lattice.Lemmas
import Caudium.Http.ParseHeaders
import Caudium.Lib.Split

/-!
# `parse_prestates` (`caudium.c`)

The list of prestates stands between "/(" and the first ")/" of the URL. The loop takes an element
at each ',' and each ')' (`fold_prestateStep`) and puts it into the multiset that `done_first`
says; only the first element decides that. It is compared with "internal" over its own length, so
all its beginnings pass for it, the empty one too. So the elements go where the description says
exactly when the first one is no such beginning and the list has no ')' in it (`keptApart_iff`).
-/

namespace Caudium.Http

open Lib (Str)

/-! ## The end of the list -/

/-- The search for "/" behind a ')', up to a NUL; `prev` is the character in front of position `k`. -/
def findListEnd (prev : Char) (k : Nat) : Str → Option Nat
  | [] => none
  | c :: rest =>
    if c = '\x00' then none
    else if c = '/' ∧ prev = ')' then some k
    else findListEnd c (k + 1) rest

/-- `prestate_end`, unless it stays at -1. -/
def prestateEnd (url : Str) : Option Nat :=
  if url.length < 5 ∨ charAt url 1 ≠ '(' then none
  else findListEnd (charAt url 2) 3 (url.drop 3)

/-! ## The loop -/

/-- `done_first`. -/
inductive DoneFirst where
  | no
  | internal
  | prestate
  deriving DecidableEq, Repr

/-- `done_first` and the two multisets, which have each element once. -/
structure Prestates where
  doneFirst : DoneFirst
  prestate : Finset Str
  internal : Finset Str
  deriving DecidableEq

/-- "internal". -/
def internalName : Str := ['i', 'n', 't', 'e', 'r', 'n', 'a', 'l']

/-- `!MEMCMP(element, "internal", len)`, with the NUL at the end of the constant. -/
def PassesForInternal (element : Str) : Prop :=
  element = (internalName ++ ['\x00']).take element.length

instance (element : Str) : Decidable (PassesForInternal element) :=
  inferInstanceAs (Decidable (_ = _))

/-- The switch. -/
def Prestates.put (s : Prestates) (element : Str) : Prestates :=
  match s.doneFirst with
  | .no =>
    if PassesForInternal element then
      { s with doneFirst := .internal, prestate := insert internalName s.prestate }
    else { s with doneFirst := .prestate, prestate := insert element s.prestate }
  | .internal => { s with internal := insert element s.internal }
  | .prestate => { s with prestate := insert element s.prestate }

/-- The end of an element. -/
def isListSep (c : Char) : Bool := c = ',' || c = ')'

/-- One turn; the second component is `last_start`. -/
def prestateStep (url : Str) (s : Prestates × Nat) (i : Nat) : Prestates × Nat :=
  if isListSep (charAt url i) then (s.1.put (slice url s.2 i), i + 1) else s

/-- `parse_prestates`: the string returned, and the two multisets. -/
def parsePrestates (url : Str) (prestate internal : Finset Str) : Str × Finset Str × Finset Str :=
  match prestateEnd url with
  | none => (url, prestate, internal)
  | some last =>
    let s := ((List.range' 2 (last - 1)).foldl (prestateStep url)
      ({ doneFirst := .no, prestate := prestate, internal := internal }, 2)).1
    ((url.drop last).takeWhile (· ≠ '\x00'), s.prestate, s.internal)

/-! ## What is promised -/

/-- The list of prestates, if the URL has one. -/
def prestateList (url : Str) : Option Str := (prestateEnd url).map fun last => slice url 2 (last - 1)

/-- Its elements. -/
def prestateElements (url : Str) : List Str :=
  match prestateList url with
  | none => []
  | some list => list.splitOn ','

/-- A list that begins with the element "internal" leaves the multiset of prestates with that
alone and gives its other elements to the internal ones; all elements of any other list are
prestates. -/
structure KeptApart (url : Str) : Prop where
  internal : ∀ rest, prestateElements url = internalName :: rest → ∀ prestate internal,
    (parsePrestates url prestate internal).2 =
      (insert internalName prestate, internal ∪ rest.toFinset)
  other : (∀ rest, prestateElements url ≠ internalName :: rest) → ∀ prestate internal,
    (parsePrestates url prestate internal).2 =
      (prestate ∪ (prestateElements url).toFinset, internal)

/-! ## The search -/

theorem findListEnd_spec {prev : Char} {k last : Nat} {text : Str}
    (h : findListEnd prev k text = some last) :
    ∃ list rest, prev :: text = list ++ ')' :: '/' :: rest ∧ last = k + list.length ∧
      '\x00' ∉ list.tail := by
  induction text generalizing prev k with
  | nil => cases h
  | cons c text ih =>
    unfold findListEnd at h
    split at h
    · cases h
    next hnul =>
      split at h
      next hend =>
        obtain ⟨rfl, rfl⟩ := hend
        exact ⟨[], text, rfl, (Option.some.inj h).symm, List.not_mem_nil⟩
      next hgo =>
        obtain ⟨list, rest, htext, hlast, hno⟩ := ih h
        refine ⟨prev :: list, rest, congrArg (prev :: ·) htext, ?_, ?_⟩
        · rw [hlast, List.length_cons]
          omega
        · rw [List.tail_cons]
          cases list with
          | nil => exact List.not_mem_nil
          | cons d list =>
            obtain ⟨rfl, -⟩ := List.cons.inj htext
            rw [List.mem_cons, not_or]
            exact ⟨Ne.symm hnul, hno⟩

/-- A URL with a list: the list, and where it ends. -/
theorem prestateEnd_spec {url : Str} {last : Nat} (h : prestateEnd url = some last) :
    ∃ list rest, url.drop 2 = list ++ ')' :: '/' :: rest ∧ last = 3 + list.length ∧
      '\x00' ∉ list.tail ∧ prestateList url = some list := by
  have hend := h
  unfold prestateEnd at h
  split at h
  · cases h
  next hlong =>
    have hlen : 2 < url.length := by
      rw [not_or] at hlong
      omega
    obtain ⟨list, rest, htext, hlast, hno⟩ := findListEnd_spec h
    have hdrop : url.drop 2 = list ++ ')' :: '/' :: rest := by
      rw [← htext, List.drop_eq_getElem_cons hlen, charAt_eq hlen]
    refine ⟨list, rest, hdrop, hlast, hno, ?_⟩
    rw [prestateList, hend, Option.map_some, slice, List.drop_take, hdrop, hlast,
      show 3 + list.length - 1 - 2 = list.length by omega, List.take_left]

/-! ## The elements -/

/-- From the beginning of an element on, of which the loop has gone over `seen`: it puts in the
elements of what is left up to the ')' of the list, one after the other. -/
theorem fold_prestateStep {url rest : Str} (list : Str) : ∀ {seen : Str} {start : Nat}
    (s : Prestates), url.drop start = seen ++ list ++ ')' :: rest →
      (∀ c ∈ seen, isListSep c = false) →
      ((List.range' (start + seen.length) (list.length + 1)).foldl (prestateStep url) (s, start)).1 =
        ((seen ++ list).splitOnP isListSep).foldl Prestates.put s := by
  induction list with
  | nil =>
    intro seen start s hurl hseen
    rw [List.append_nil] at hurl ⊢
    have hat : charAt url (start + seen.length) = ')' := by
      rw [← charAt_drop, hurl, charAt_append]
    have helem : slice url start (start + seen.length) = seen := slice_of_drop hurl
    rw [List.splitOnP_eq_singleton hseen, List.length_nil, Nat.zero_add, List.range'_one,
      List.foldl_cons, List.foldl_nil, List.foldl_cons, List.foldl_nil, prestateStep, hat,
      if_pos (by decide), helem]
  | cons c list ih =>
    intro seen start s hurl hseen
    have hbehind : url.drop start = seen ++ c :: (list ++ ')' :: rest) := by
      rw [hurl, List.append_assoc]
      rfl
    have hat : charAt url (start + seen.length) = c := by
      rw [← charAt_drop, hbehind, charAt_append]
    rw [List.length_cons, List.range'_succ, List.foldl_cons, prestateStep, hat]
    by_cases hc : isListSep c = true
    -- The element ends here, and the next one begins behind the separator.
    · have helem : slice url start (start + seen.length) = seen := slice_of_drop hbehind
      have hnext : url.drop (start + seen.length + 1) = [] ++ list ++ ')' :: rest := by
        rw [Nat.add_assoc, ← List.drop_drop, hbehind, ← List.drop_drop, List.drop_left]
        rfl
      have hrest := ih (s.put seen) hnext (fun _ h => nomatch h)
      rw [List.length_nil, Nat.add_zero, List.nil_append] at hrest
      rw [if_pos hc, helem, hrest, List.splitOnP_append_cons _ _ hc,
        List.splitOnP_eq_singleton hseen, List.foldl_append]
      rfl
    · have hc' := eq_false_of_ne_true hc
      have hnext : url.drop start = (seen ++ [c]) ++ list ++ ')' :: rest := by
        rw [hurl, List.append_assoc seen [c] list]
        rfl
      have hrest := ih s hnext (List.forall_mem_append.mpr ⟨hseen, by
        rw [List.forall_mem_singleton]
        exact hc'⟩)
      rw [List.length_append, List.append_assoc] at hrest
      rw [if_neg hc]
      exact hrest

/-- **The loop** puts in what stands between the separators. -/
theorem parsePrestates_sets {url list : Str} {last : Nat} {rest : Str}
    (hend : prestateEnd url = some last) (hurl : url.drop 2 = list ++ ')' :: '/' :: rest)
    (hlast : last = 3 + list.length) (prestate internal : Finset Str) :
    (parsePrestates url prestate internal).2 =
      let s := (list.splitOnP isListSep).foldl Prestates.put
        { doneFirst := .no, prestate := prestate, internal := internal }
      (s.prestate, s.internal) := by
  have hslash : charAt url last = '/' := by
    have hsplit : url.drop 2 = (list ++ [')']) ++ '/' :: rest := by
      rw [hurl, List.append_assoc]
      rfl
    rw [hlast, show 3 + list.length = 2 + (list ++ [')']).length by
      rw [List.length_append, List.length_singleton]; omega, ← charAt_drop, hsplit, charAt_append]
  have hloop := @fold_prestateStep url ('/' :: rest) list [] 2
    { doneFirst := .no, prestate := prestate, internal := internal } hurl (fun _ h => nomatch h)
  rw [List.nil_append] at hloop
  have hrange : List.range' 2 (last - 1) = List.range' 2 (list.length + 1) ++ [last] := by
    rw [hlast, show 3 + list.length - 1 = list.length + 1 + 1 by omega, List.range'_concat,
      show 2 + 1 * (list.length + 1) = 3 + list.length by omega]
  unfold parsePrestates
  rw [hend]
  dsimp only
  rw [hrange, List.foldl_append, List.foldl_cons, List.foldl_nil, prestateStep, hslash,
    if_neg (by decide)]
  rw [List.length_nil, Nat.add_zero] at hloop
  rw [hloop]

/-- Where each element goes into one set, that set gets them all. -/
theorem fold_put_insert {f : Finset Str → Prestates}
    (h : ∀ set element, (f set).put element = f (insert element set))
    (elements : List Str) : ∀ set : Finset Str,
    elements.foldl Prestates.put (f set) = f (set ∪ elements.toFinset) := by
  induction elements with
  | nil =>
    intro set
    rw [List.toFinset_nil, Finset.union_empty]
    rfl
  | cons element elements ih =>
    intro set
    rw [List.foldl_cons, h, ih, List.toFinset_cons, Finset.union_insert, Finset.insert_union]

theorem fold_put_internal (elements : List Str) (prestate internal : Finset Str) :
    elements.foldl Prestates.put
        { doneFirst := .internal, prestate := prestate, internal := internal } =
      { doneFirst := .internal, prestate := prestate
        internal := internal ∪ elements.toFinset } :=
  fold_put_insert (f := fun set => ⟨.internal, prestate, set⟩) (fun _ _ => rfl) elements internal

theorem fold_put_prestate (elements : List Str) (prestate internal : Finset Str) :
    elements.foldl Prestates.put
        { doneFirst := .prestate, prestate := prestate, internal := internal } =
      { doneFirst := .prestate, prestate := prestate ∪ elements.toFinset
        internal := internal } :=
  fold_put_insert (f := fun set => ⟨.prestate, set, internal⟩) (fun _ _ => rfl) elements prestate

/-- **The first element decides** where the others go. -/
theorem fold_put (element : Str) (elements : List Str) (prestate internal : Finset Str) :
    ((element :: elements).foldl Prestates.put
      { doneFirst := .no, prestate := prestate, internal := internal }) =
      if PassesForInternal element then
        { doneFirst := .internal, prestate := insert internalName prestate
          internal := internal ∪ elements.toFinset }
      else
        { doneFirst := .prestate, prestate := prestate ∪ (element :: elements).toFinset
          internal := internal } := by
  rw [List.foldl_cons]
  by_cases hpass : PassesForInternal element
  · rw [if_pos hpass, ← fold_put_internal]
    exact congrArg (elements.foldl Prestates.put) (if_pos hpass)
  · rw [if_neg hpass, List.toFinset_cons, Finset.union_insert, ← Finset.insert_union,
      ← fold_put_prestate]
    exact congrArg (elements.foldl Prestates.put) (if_neg hpass)

/-! ## Splitting -/

/-- The first piece stands at the beginning. -/
theorem first_piece_prefix {sep : Char} {s first : Str} {others : List Str}
    (h : s.splitOn sep = first :: others) : first <+: s := by
  have hall := @List.intercalate_splitOn _ s _ _ sep
  rw [h] at hall
  cases others with
  | nil =>
    rw [List.intercalate_singleton] at hall
    rw [hall]
  | cons second others =>
    rw [List.intercalate_cons_cons, List.append_assoc] at hall
    exact ⟨_, hall⟩

/-! ## When the elements are kept apart -/

/-- Without a ')' in the list, and with no beginning of "internal" in front but the whole. -/
def ListUnmistaken (url : Str) : Prop :=
  ∀ list, prestateList url = some list → ')' ∉ list ∧
    ∀ first others, list.splitOn ',' = first :: others → first <+: internalName →
      first = internalName

/-- An element that has no NUL behind its first character passes if and only if it is a beginning of
"internal". -/
theorem passesForInternal_iff {element : Str} (h : '\x00' ∉ element.tail) :
    PassesForInternal element ↔ element <+: internalName := by
  constructor
  · intro hpass
    unfold PassesForInternal at hpass
    have hbegins : element <+: internalName ++ ['\x00'] := List.prefix_iff_eq_take.mpr hpass
    rcases List.prefix_concat_iff.mp hbegins with heq | hbegins
    · rw [heq] at h
      exact absurd (by decide) h
    · exact hbegins
  · intro hbegins
    exact List.prefix_iff_eq_take.mp (hbegins.trans (List.prefix_append _ _))

/-- A list without ')': its elements, and where they go. -/
theorem parsePrestates_list {url list first : Str} {others : List Str}
    (hlist : prestateList url = some list) (hparen : ')' ∉ list)
    (hsplit : list.splitOn ',' = first :: others) (prestate internal : Finset Str) :
    (parsePrestates url prestate internal).2 =
      if first <+: internalName then (insert internalName prestate, internal ∪ others.toFinset)
      else (prestate ∪ (first :: others).toFinset, internal) := by
  obtain ⟨last, hend, -⟩ := Option.map_eq_some_iff.mp hlist
  obtain ⟨list', rest, hurl, hlast, hnul, hlist'⟩ := prestateEnd_spec hend
  obtain rfl : list = list' := Option.some.inj (hlist.symm.trans hlist')
  have hpieces : list.splitOnP isListSep = first :: others := by
    rw [← hsplit, List.splitOn_eq_splitOnP]
    refine Lib.splitOnP_congr fun c hc => ?_
    have hne : c ≠ ')' := fun he => hparen (he ▸ hc)
    rw [isListSep, decide_eq_false hne, Bool.or_false]
    rfl
  have htail : '\x00' ∉ first.tail := by
    obtain ⟨t, rfl⟩ := first_piece_prefix hsplit
    cases first with
    | nil => exact List.not_mem_nil
    | cons c first => exact fun hmem => hnul (List.mem_append_left t hmem)
  rw [parsePrestates_sets hend hurl hlast, hpieces, fold_put]
  by_cases hpass : PassesForInternal first
  · rw [if_pos hpass, if_pos ((passesForInternal_iff htail).mp hpass)]
  · rw [if_neg hpass, if_neg fun hbegins => hpass ((passesForInternal_iff htail).mpr hbegins)]

/-- What the loop puts in has no ')' in it. -/
theorem no_paren_put {url list : Str} (hlist : prestateList url = some list) :
    ∀ element ∈ (parsePrestates url ∅ ∅).2.1 ∪ (parsePrestates url ∅ ∅).2.2, ')' ∉ element := by
  obtain ⟨last, hend, -⟩ := Option.map_eq_some_iff.mp hlist
  obtain ⟨list', rest, hurl, hlast, -, -⟩ := prestateEnd_spec hend
  obtain ⟨first, others, hsplit⟩ := List.exists_cons_of_ne_nil (List.splitOnP_ne_nil isListSep list')
  have hpieces : ∀ piece ∈ first :: others, ')' ∉ piece := by
    intro piece hpiece hparen
    rw [← hsplit] at hpiece
    exact absurd (Lib.not_sep_of_mem_splitOnP piece hpiece ')' hparen) (by decide)
  rw [parsePrestates_sets hend hurl hlast, hsplit, fold_put]
  intro element helement
  split at helement
  · rw [Finset.mem_union, Finset.mem_insert, Finset.empty_union, List.mem_toFinset] at helement
    rcases helement with (rfl | hempty) | hothers
    · decide
    · exact absurd hempty (Finset.notMem_empty _)
    · exact hpieces element (List.mem_cons_of_mem _ hothers)
  · rw [Finset.mem_union, Finset.empty_union, List.mem_toFinset] at helement
    rcases helement with hall | hempty
    · exact hpieces element hall
    · exact absurd hempty (Finset.notMem_empty _)

theorem prestateElements_some {url list : Str} (hlist : prestateList url = some list) :
    prestateElements url = list.splitOn ',' := by
  rw [prestateElements, hlist]

/-- What is promised has all elements, in one of the multisets. -/
theorem KeptApart.all_put {url : Str} (h : KeptApart url) :
    ∀ element ∈ prestateElements url,
      element ∈ (parsePrestates url ∅ ∅).2.1 ∪ (parsePrestates url ∅ ∅).2.2 := by
  intro element hmem
  by_cases hinternal : ∃ rest, prestateElements url = internalName :: rest
  · obtain ⟨rest, hrest⟩ := hinternal
    rw [h.internal rest hrest, Finset.mem_union, Finset.mem_insert, Finset.empty_union,
      List.mem_toFinset]
    rw [hrest] at hmem
    rcases List.mem_cons.mp hmem with rfl | hmem
    · exact Or.inl (Or.inl rfl)
    · exact Or.inr hmem
  · rw [h.other (not_exists.mp hinternal), Finset.mem_union, Finset.empty_union, List.mem_toFinset]
    exact Or.inl hmem

theorem KeptApart.unmistaken {url : Str} (h : KeptApart url) : ListUnmistaken url := by
  intro list hlist
  have helements := prestateElements_some hlist
  -- An element with a ')' in it is promised, and nothing with a ')' is put in.
  have hparen : ')' ∉ list := by
    intro hmem
    obtain ⟨piece, hpiece, hin⟩ := Lib.exists_piece hmem (by decide : ')' ≠ ',')
    exact no_paren_put hlist piece (h.all_put piece (helements ▸ hpiece)) hin
  refine ⟨hparen, fun first others hsplit hbegins => ?_⟩
  by_contra hne
  have hother : ∀ rest, prestateElements url ≠ internalName :: rest := by
    intro rest he
    rw [helements, hsplit] at he
    exact hne (List.cons.inj he).1
  have hput := parsePrestates_list hlist hparen hsplit ∅ ∅
  rw [if_pos hbegins, h.other hother, helements, hsplit] at hput
  have hfirst : first ∈ insert internalName (∅ : Finset Str) := by
    rw [← (Prod.mk.inj hput).1, Finset.empty_union, List.mem_toFinset]
    exact List.mem_cons_self
  rcases Finset.mem_insert.mp hfirst with he | hempty
  · exact hne he
  · exact Finset.notMem_empty _ hempty

theorem ListUnmistaken.keptApart {url : Str} (h : ListUnmistaken url) : KeptApart url := by
  cases hlist : prestateList url with
  | none =>
    have helements : prestateElements url = [] := by rw [prestateElements, hlist]
    have hput : ∀ prestate internal,
        (parsePrestates url prestate internal).2 = (prestate, internal) := by
      intro prestate internal
      rw [parsePrestates, Option.map_eq_none_iff.mp hlist]
    refine ⟨fun rest he => ?_, fun _ prestate internal => ?_⟩
    · rw [helements] at he
      cases he
    · rw [hput, helements, List.toFinset_nil, Finset.union_empty]
  | some list =>
    obtain ⟨hparen, hfirst⟩ := h list hlist
    have helements := prestateElements_some hlist
    obtain ⟨first, others, hsplit⟩ := List.exists_cons_of_ne_nil (List.splitOn_ne_nil ',' list)
    have hput := parsePrestates_list hlist hparen hsplit
    refine ⟨fun rest he prestate internal => ?_, fun hother prestate internal => ?_⟩
    · rw [helements, hsplit] at he
      obtain ⟨rfl, rfl⟩ := List.cons.inj he
      rw [hput, if_pos (List.prefix_refl _)]
    · have hnot : ¬ first <+: internalName := by
        intro hbegins
        rw [hfirst first others hsplit hbegins] at hsplit
        exact hother others (helements.trans hsplit)
      rw [hput, if_neg hnot, helements, hsplit]

/-- **The prestates of a URL** are put where they belong if and only if its list has no ')' in it
and does not begin with an element that is a beginning of "internal" and not all of it. -/
theorem keptApart_iff (url : Str) : KeptApart url ↔ ListUnmistaken url :=
  ⟨KeptApart.unmistaken, ListUnmistaken.keptApart⟩

/-- "/(int,x)/": "int" passes for "internal". -/
theorem beginning_passes : ¬ ∀ url : Str, KeptApart url := by
  intro h
  have hkept := (h ['/', '(', 'i', 'n', 't', ',', 'x', ')', '/']).unmistaken
  have hfirst := (hkept ['i', 'n', 't', ',', 'x'] (by decide)).2 ['i', 'n', 't'] [['x']]
    (by decide) (by decide)
  exact absurd hfirst (by decide)

end Caudium.Http
