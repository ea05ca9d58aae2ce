import Caudium.Http.UrlCodec
import Mathlib.Data.List.GetD

/-!
# The variables of a query string (`parse_query_string`, caudium.c)

A query string is cut at each '&' and ';' into `segments`, and what a segment says is its own
affair. `parse_query_string` has no segments: it goes over the characters and keeps, in `name`
and `equal`, where the variable it is in begins and where its '=' is. `fileSegment` is what it
does with a segment when `name` is at its beginning, and `fileAll` what it does with all of them
(`run_synced`): at a segment that is `Dead` it leaves `name` where it is, and then finds nothing
more. At the beginning of a query a ';' is taken for the first character of a name.
-/

namespace Caudium.Http

open Lib (Str Mapping runLoop Falls Visits)

/-! ## Segments -/

/-- What ends a form variable. -/
def isSeparator (c : Char) : Bool := decide (c = '&' ∨ c = ';')

/-- A part of a query and the separator behind it; `none` at the end. -/
abbrev Segment := Str × Option Char

/-- The query, cut at its separators. -/
def segments : Str → List Segment
  | [] => [([], none)]
  | c :: s => if isSeparator c then ([], some c) :: segments s
    else (segments s).modifyHead fun seg => (c :: seg.1, seg.2)

/-- A segment `name=value`; the name ends at the first '='. -/
def field (w : Str) : Option (Str × Str) :=
  match w.dropWhile (· ≠ '=') with
  | [] => none
  | _ :: value => some (w.takeWhile (· ≠ '='), value)

theorem segments_text {w : Str} (hw : ∀ c ∈ w, isSeparator c = false) :
    segments w = [(w, none)] := by
  induction w with
  | nil => rfl
  | cons c w ih =>
    rw [segments, if_neg (by rw [hw c List.mem_cons_self]; decide),
      ih fun x hx => hw x (List.mem_cons_of_mem c hx)]
    rfl

theorem segments_append {w : Str} (hw : ∀ c ∈ w, isSeparator c = false) {c : Char}
    (hc : isSeparator c = true) (rest : Str) :
    segments (w ++ c :: rest) = (w, some c) :: segments rest := by
  induction w with
  | nil => exact if_pos hc
  | cons x w ih =>
    rw [List.cons_append, segments, if_neg (by rw [hw x List.mem_cons_self]; decide),
      ih fun y hy => hw y (List.mem_cons_of_mem x hy)]
    rfl

/-- A string is a segment, or a segment, a separator and a string. -/
theorem cut_segment (s : Str) : ∃ w t, s = w ++ t ∧ (∀ c ∈ w, isSeparator c = false) ∧
    (t = [] ∨ ∃ c rest, t = c :: rest ∧ isSeparator c = true) := by
  induction s with
  | nil => exact ⟨[], [], rfl, by simp, Or.inl rfl⟩
  | cons c s ih =>
    cases hc : isSeparator c with
    | true => exact ⟨[], c :: s, rfl, by simp, Or.inr ⟨c, s, rfl, hc⟩⟩
    | false =>
      obtain ⟨w, t, rfl, hw, ht⟩ := ih
      exact ⟨c :: w, t, rfl, List.forall_mem_cons.mpr ⟨hc, hw⟩, ht⟩

/-! ## The turns of the loop -/

/-- The loop, from any state on. -/
def queryRun (query : Str) (s : QueryState) : QueryState :=
  runLoop (queryLive query) (queryStep query) (fun s => query.length + 1 - s.ptr) s

/-- The turn is one that ends a variable. -/
def EndsVariable (query : Str) (s : QueryState) : Prop :=
  isSeparator (charAt query s.ptr) = true ∨ (charAt query s.ptr = '\x00' ∧ s.ptr = query.length)

/-- "&=, ignore". -/
def Ignored (query : Str) (s : QueryState) : Prop :=
  charAt query s.name = '\x00' ∨ charAt query s.name = '&'

/-- Of which characters the turn makes a key, in `variables` or in `emptyvars`. -/
def KeyRange (query : Str) (s : QueryState) (i j : Nat) : Prop :=
  queryLive query s = true ∧ EndsVariable query s ∧ ¬ Ignored query s ∧
  match s.equal with
  | none => s.ptr ≠ 0 ∧ i = backUp query s.ptr ∧ j = s.ptr
  | some equal => i = s.name ∧ j = equal

theorem isSeparator_iff {c : Char} : isSeparator c = true ↔ c = '&' ∨ c = ';' :=
  decide_eq_true_iff

/-- The three tests before the one for "&=". -/
theorem EndsVariable.tests {query : Str} {s : QueryState} (h : EndsVariable query s) :
    charAt query s.ptr ≠ '=' ∧ ¬(charAt query s.ptr = '\x00' ∧ s.ptr ≠ query.length) ∧
    (charAt query s.ptr = '\x00' ∨ charAt query s.ptr = ';' ∨ charAt query s.ptr = '&') := by
  rcases h with h | ⟨hnul, hend⟩
  · rcases isSeparator_iff.1 h with h | h
    · rw [h]
      exact ⟨by decide, fun h => absurd h.1 (by decide), Or.inr (Or.inr rfl)⟩
    · rw [h]
      exact ⟨by decide, fun h => absurd h.1 (by decide), Or.inr (Or.inl rfl)⟩
  · rw [hnul]
    exact ⟨by decide, fun h => h.2 hend, Or.inl rfl⟩

theorem queryStep_ignored {query : Str} {s : QueryState} (h : EndsVariable query s)
    (hignored : Ignored query s) : queryStep query s = { s with ptr := s.ptr + 2 } := by
  obtain ⟨hequal, hnul, hends⟩ := h.tests
  unfold queryStep
  dsimp only
  rw [if_neg hequal, if_neg hnul, if_pos hends]
  exact if_pos hignored

/-- A ';' at the beginning. -/
theorem queryStep_leading {query : Str} {s : QueryState} (h : EndsVariable query s)
    (hignored : ¬ Ignored query s) (hequal : s.equal = none) (hptr : s.ptr = 0) :
    queryStep query s = { s with ptr := s.ptr + 2 } := by
  obtain ⟨hne, hnul, hends⟩ := h.tests
  unfold queryStep
  dsimp only
  rw [if_neg hne, if_neg hnul, if_pos hends]
  refine (if_neg hignored).trans ?_
  rw [hequal]
  exact if_pos hptr

theorem queryStep_bare {query : Str} {s : QueryState} (h : EndsVariable query s)
    (hignored : ¬ Ignored query s) (hequal : s.equal = none) (hptr : s.ptr ≠ 0) :
    queryStep query s = { s with
      emptyVariables := s.emptyVariables.insert (slice query (backUp query s.ptr) s.ptr)
      name := s.ptr + 1, ptr := s.ptr + 1 } := by
  obtain ⟨hne, hnul, hends⟩ := h.tests
  unfold queryStep
  dsimp only
  rw [if_neg hne, if_neg hnul, if_pos hends]
  refine (if_neg hignored).trans ?_
  rw [hequal]
  exact if_neg hptr

/-- What is done with a name and a value, once they are found. -/
def fileField (r : Mapping VarName Str × List Str) (name value : Str) :
    Mapping VarName Str × List Str :=
  if value = [] then (r.1, r.2.insert name) else (storeVariable r.1 name value, r.2)

theorem queryStep_value {query : Str} {s : QueryState} (h : EndsVariable query s)
    (hignored : ¬ Ignored query s) {equal : Nat} (hequal : s.equal = some equal) :
    queryStep query s =
      let r := fileField (s.vars, s.emptyVariables) (slice query s.name equal)
        (slice query (equal + 1) s.ptr)
      { ptr := s.ptr + 1, name := s.ptr + 1, equal := none, vars := r.1, emptyVariables := r.2 } := by
  obtain ⟨hne, hnul, hends⟩ := h.tests
  unfold queryStep fileField
  dsimp only
  rw [if_neg hne, if_neg hnul, if_pos hends]
  refine (if_neg hignored).trans ?_
  rw [hequal]
  dsimp only
  split
  next => rfl
  next => rfl

theorem queryStep_equal {query : Str} {s : QueryState} (h : charAt query s.ptr = '=') :
    queryStep query s = { s with equal := some (s.equal.getD s.ptr), ptr := s.ptr + 1 } :=
  if_pos h

theorem queryStep_other {query : Str} {s : QueryState} (hends : ¬ EndsVariable query s)
    (hequal : charAt query s.ptr ≠ '=') : queryStep query s = { s with ptr := s.ptr + 1 } := by
  unfold queryStep
  dsimp only
  rw [if_neg hequal]
  split
  next => rfl
  next hnul =>
    rw [if_neg]
    intro hor
    obtain h | h := hor
    · exact hends (Or.inr ⟨h, not_not.mp fun hne => hnul ⟨h, hne⟩⟩)
    · exact hends (Or.inl (isSeparator_iff.2 h.symm))

theorem queryRun_live {query : Str} {s : QueryState} (h : queryLive query s = true) :
    queryRun query s = queryRun query (queryStep query s) :=
  Lib.runLoop_live (queryStep_falls query) h

theorem queryRun_stop {query : Str} {s : QueryState} (h : queryLive query s = false) :
    queryRun query s = s := Lib.runLoop_stop h

/-- A turn puts nothing anywhere but under the key that `KeyRange` has. -/
theorem queryStep_key (query : Str) (s : QueryState) (hlive : queryLive query s = true) :
    (∃ i j, KeyRange query s i j ∧
      ((queryStep query s).vars = s.vars ∧
          (queryStep query s).emptyVariables = s.emptyVariables.insert (slice query i j) ∨
        ∃ value, (queryStep query s).vars = storeVariable s.vars (slice query i j) value ∧
          (queryStep query s).emptyVariables = s.emptyVariables)) ∨
    ((queryStep query s).vars = s.vars ∧ (queryStep query s).emptyVariables = s.emptyVariables) := by
  by_cases hends : EndsVariable query s
  · by_cases hignored : Ignored query s
    · rw [queryStep_ignored hends hignored]
      exact Or.inr ⟨rfl, rfl⟩
    · cases hequal : s.equal with
      | none =>
        by_cases hptr : s.ptr = 0
        · rw [queryStep_leading hends hignored hequal hptr]
          exact Or.inr ⟨rfl, rfl⟩
        · rw [queryStep_bare hends hignored hequal hptr]
          refine Or.inl ⟨_, _, ⟨hlive, hends, hignored, ?_⟩, Or.inl ⟨rfl, rfl⟩⟩
          rw [hequal]
          exact ⟨hptr, rfl, rfl⟩
      | some equal =>
        have hrange : KeyRange query s s.name equal := by
          refine ⟨hlive, hends, hignored, ?_⟩
          rw [hequal]
          exact ⟨rfl, rfl⟩
        rw [queryStep_value hends hignored hequal]
        refine Or.inl ⟨_, _, hrange, ?_⟩
        unfold fileField
        dsimp only
        split
        next => exact Or.inl ⟨rfl, rfl⟩
        next => exact Or.inr ⟨_, rfl, rfl⟩
  · by_cases hequal : charAt query s.ptr = '='
    · rw [queryStep_equal hequal]
      exact Or.inr ⟨rfl, rfl⟩
    · rw [queryStep_other hends hequal]
      exact Or.inr ⟨rfl, rfl⟩

/-! ## A stretch of the query -/

/-- Every key that is made from the state `s` on is made of the characters of one segment. -/
def KeysOk (query : Str) (s : QueryState) : Prop :=
  ∀ t, Visits (queryLive query) (queryStep query) s t → ∀ i j, KeyRange query t i j →
    ∀ c ∈ slice query i j, isSeparator c = false

/-- It makes no difference whether the loop is in the one state or in the other. -/
structure SameEnd (query : Str) (s t : QueryState) : Prop where
  run : queryRun query s = queryRun query t
  keys : KeysOk query s ↔ KeysOk query t

theorem SameEnd.refl (query : Str) (s : QueryState) : SameEnd query s s := ⟨rfl, Iff.rfl⟩

theorem SameEnd.trans {query : Str} {s t u : QueryState} (h : SameEnd query s t)
    (h' : SameEnd query t u) : SameEnd query s u := ⟨h.run.trans h'.run, h.keys.trans h'.keys⟩

theorem sameEnd_step {query : Str} {s : QueryState} (hlive : queryLive query s = true)
    (hkey : ∀ i j, KeyRange query s i j → ∀ c ∈ slice query i j, isSeparator c = false) :
    SameEnd query s (queryStep query s) := by
  refine ⟨queryRun_live hlive, fun h t ht => h t (.later hlive ht), fun h t ht => ?_⟩
  rcases (Lib.visits_live hlive).mp ht with rfl | ht
  · exact hkey
  · exact h t ht

theorem queryLive_iff {query : Str} {s : QueryState} :
    queryLive query s = true ↔ s.ptr ≤ query.length := decide_eq_true_iff

theorem charAt_end (a : Str) : charAt a a.length = '\x00' :=
  List.getD_eq_default _ _ (Nat.le_refl _)

theorem slice_append (a w rest : Str) {i j : Nat} (hi : i = a.length) (hj : j = i + w.length) :
    slice (a ++ (w ++ rest)) i j = w := by
  subst hi hj
  rw [slice, ← List.append_assoc, ← List.length_append, List.take_left, List.drop_left]

/-- Where the first '=' is, when `equal` was found before. -/
def scanEqual : Nat → Option Nat → Str → Option Nat
  | _, equal, [] => equal
  | k, equal, c :: w => scanEqual (k + 1) (if c = '=' then some (equal.getD k) else equal) w

theorem scanEqual_some (k equal : Nat) (w : Str) : scanEqual k (some equal) w = some equal := by
  induction w generalizing k with
  | nil => rfl
  | cons c w ih =>
    rw [scanEqual]
    split
    · exact ih (k + 1)
    · exact ih (k + 1)

theorem scanEqual_none {w : Str} (hw : '=' ∉ w) (k : Nat) : scanEqual k none w = none := by
  induction w generalizing k with
  | nil => rfl
  | cons c w ih =>
    rw [List.mem_cons, not_or] at hw
    rw [scanEqual, if_neg fun h => hw.1 h.symm]
    exact ih hw.2 (k + 1)

theorem scanEqual_field {n : Str} (hn : '=' ∉ n) (k : Nat) (v : Str) :
    scanEqual k none (n ++ '=' :: v) = some (k + n.length) := by
  induction n generalizing k with
  | nil =>
    rw [List.nil_append, scanEqual, if_pos rfl]
    exact scanEqual_some _ _ _
  | cons c n ih =>
    rw [List.mem_cons, not_or] at hn
    rw [List.cons_append, scanEqual, if_neg fun h => hn.1 h.symm, ih hn.2, List.length_cons]
    congr 1
    omega

theorem field_none {w : Str} (hw : '=' ∉ w) : field w = none := by
  have hdrop : w.dropWhile (· ≠ '=') = [] := by
    refine List.dropWhile_eq_nil_iff.mpr fun c hc => decide_eq_true ?_
    intro h
    subst h
    exact hw hc
  rw [field, hdrop]

theorem field_some {n : Str} (hn : '=' ∉ n) (v : Str) : field (n ++ '=' :: v) = some (n, v) := by
  have hpos : ∀ c ∈ n, decide (c ≠ '=') = true := by
    refine fun c hc => decide_eq_true ?_
    intro h
    subst h
    exact hn hc
  rw [field, List.dropWhile_append_of_pos hpos, List.takeWhile_append_of_pos hpos,
    List.dropWhile_cons_of_neg (by decide), List.takeWhile_cons_of_neg (by decide),
    List.append_nil]

/-- A segment has no '=', or a name before the first one. -/
theorem cut_field (w : Str) : '=' ∉ w ∨ ∃ n v, w = n ++ '=' :: v ∧ '=' ∉ n := by
  by_cases h : '=' ∈ w
  · exact Or.inr (List.eq_append_cons_of_mem h)
  · exact Or.inl h

/-- The loop goes over characters that are no separators and looks for '='. -/
theorem sameEnd_scan {query t : Str} {name : Nat} {vars : Mapping VarName Str} {empties : List Str} :
    ∀ {w a : Str} {equal : Option Nat}, query = a ++ (w ++ t) →
      (∀ c ∈ w, isSeparator c = false) →
      SameEnd query ⟨a.length, name, equal, vars, empties⟩
        ⟨a.length + w.length, name, scanEqual a.length equal w, vars, empties⟩
  | [], _, _, _, _ => .refl _ _
  | c :: w, a, equal, hquery, hw => by
    have hchar : charAt query a.length = c := by
      rw [hquery]
      exact charAt_append a c (w ++ t)
    have hlen : a.length < query.length := by
      rw [hquery, List.length_append, List.cons_append, List.length_cons]
      omega
    have hends : ¬ EndsVariable query ⟨a.length, name, equal, vars, empties⟩ := by
      intro hor
      obtain h | ⟨-, h⟩ := hor
      · rw [hchar, hw c List.mem_cons_self] at h
        cases h
      · exact absurd h (Nat.ne_of_lt hlen)
    have hstep : queryStep query ⟨a.length, name, equal, vars, empties⟩ =
        ⟨a.length + 1, name, if c = '=' then some (equal.getD a.length) else equal, vars,
          empties⟩ := by
      by_cases hc : c = '='
      · rw [queryStep_equal (hchar.trans hc), if_pos hc]
      · rw [queryStep_other hends fun h => hc (hchar.symm.trans h), if_neg hc]
    have hone := sameEnd_step (queryLive_iff.2 (Nat.le_of_lt hlen))
      fun i j (hrange : KeyRange query ⟨a.length, name, equal, vars, empties⟩ i j) =>
        absurd hrange.2.1 hends
    rw [hstep] at hone
    have hsnoc : query = (a ++ [c]) ++ (w ++ t) := by
      rw [hquery, List.append_assoc]
      rfl
    have hrest : SameEnd query
        ⟨(a ++ [c]).length, name, if c = '=' then some (equal.getD a.length) else equal, vars,
          empties⟩
        ⟨(a ++ [c]).length + w.length, name, scanEqual (a ++ [c]).length _ w, vars, empties⟩ :=
      sameEnd_scan hsnoc fun x hx => hw x (List.mem_cons_of_mem c hx)
    have hplus : a.length + 1 + w.length = a.length + (w.length + 1) := by omega
    rw [List.length_append, List.length_singleton, hplus] at hrest
    exact hone.trans hrest

/-! ## A segment -/

/-- The two collections that are filled. -/
abbrev Filed := Mapping VarName Str × List Str

/-- What is done with a segment. -/
def fileSegment (r : Filed) (w : Str) : Filed :=
  match field w with
  | none => (r.1, r.2.insert w)
  | some (name, value) => fileField r name value

/-- `name` is where a variable may begin. -/
def synced (p : Nat) (r : Filed) : QueryState :=
  { ptr := p, name := p, equal := none, vars := r.1, emptyVariables := r.2 }

/-- Before the end of `a` there is no character that is not a separator. -/
def Boundary (a : Str) : Prop := ∀ c, a.getLast? = some c → isSeparator c = true

theorem boundary_snoc {c : Char} (hc : isSeparator c = true) (a : Str) : Boundary (a ++ [c]) := by
  intro x hx
  rw [List.getLast?_concat, Option.some.injEq] at hx
  exact hx ▸ hc

theorem backUp_append {a w : Str} (ha : Boundary a) (hw : ∀ c ∈ w, isSeparator c = false)
    (t : Str) : backUp (a ++ (w ++ t)) (a.length + w.length) = a.length := by
  have htake : (a ++ (w ++ t)).take (a.length + w.length) = a ++ w := by
    rw [← List.append_assoc, ← List.length_append, List.take_left]
  have htest : ∀ c, (c ≠ '&' && c ≠ ';') = !isSeparator c := by
    intro c
    simp [isSeparator]
  have hback : (a.reverse.takeWhile fun c => !isSeparator c) = [] := by
    cases hlast : a.getLast? with
    | none => rw [List.getLast?_eq_none_iff.mp hlast]; rfl
    | some c =>
      obtain ⟨b, rfl⟩ := List.getLast?_eq_some_iff.mp hlast
      rw [List.reverse_append, List.reverse_singleton, List.singleton_append,
        List.takeWhile_cons_of_neg]
      rw [ha c hlast]
      decide
  have hpos : ∀ c ∈ w.reverse, (!isSeparator c) = true := by
    intro c hc
    rw [hw c (List.mem_reverse.mp hc)]
    rfl
  unfold backUp
  rw [htake, List.reverse_append]
  simp only [htest]
  rw [List.takeWhile_append_of_pos hpos, hback, List.append_nil, List.length_reverse]
  omega

theorem endsVariable_append {query b t : Str} (hquery : query = b ++ t)
    (ht : t = [] ∨ ∃ c rest, t = c :: rest ∧ isSeparator c = true) {s : QueryState}
    (hptr : s.ptr = b.length) : EndsVariable query s := by
  unfold EndsVariable
  rw [hptr, hquery]
  rcases ht with rfl | ⟨c, rest, rfl, hc⟩
  · rw [List.append_nil]
    exact Or.inr ⟨charAt_end b, rfl⟩
  · rw [charAt_append]
    exact Or.inl hc

/-- A segment is filed when its first character is not the one that makes the loop ignore it. -/
theorem sameEnd_segment {query a w t : Str} (hquery : query = a ++ (w ++ t)) (ha : Boundary a)
    (hne : a ++ w ≠ []) (hw : ∀ c ∈ w, isSeparator c = false)
    (ht : t = [] ∨ ∃ c rest, t = c :: rest ∧ isSeparator c = true)
    (hnul : charAt query a.length ≠ '\x00') (hamp : charAt query a.length ≠ '&') (r : Filed) :
    SameEnd query (synced a.length r) (synced (a.length + w.length + 1) (fileSegment r w)) := by
  have hscan : SameEnd query (synced a.length r)
      ⟨a.length + w.length, a.length, scanEqual a.length none w, r.1, r.2⟩ := sameEnd_scan hquery hw
  refine hscan.trans ?_
  have hends : ∀ equal, EndsVariable query ⟨a.length + w.length, a.length, equal, r.1, r.2⟩ :=
    fun _ => endsVariable_append (b := a ++ w) (by rw [hquery, List.append_assoc]) ht
      List.length_append.symm
  have hlive : ∀ equal,
      queryLive query ⟨a.length + w.length, a.length, equal, r.1, r.2⟩ = true := by
    refine fun _ => queryLive_iff.2 ?_
    show a.length + w.length ≤ query.length
    rw [hquery, List.length_append, List.length_append]
    omega
  have hignored : ∀ equal,
      ¬ Ignored query ⟨a.length + w.length, a.length, equal, r.1, r.2⟩ := by
    intro _ hor
    obtain h | h := hor
    · exact hnul h
    · exact hamp h
  have hptr : a.length + w.length ≠ 0 := by
    rw [← List.length_append]
    exact fun h => hne (List.length_eq_zero_iff.mp h)
  rcases cut_field w with hfield | ⟨n, v, rfl, hn⟩
  · rw [scanEqual_none hfield]
    have hback := backUp_append ha hw t
    rw [← hquery] at hback
    have hslice := slice_append a w t rfl rfl
    rw [← hquery] at hslice
    have hone := sameEnd_step (hlive none) fun i j hrange => by
      obtain ⟨-, -, -, -, rfl, rfl⟩ := hrange
      show ∀ c ∈ slice query (backUp query (a.length + w.length)) (a.length + w.length), _
      rw [hback, hslice]
      exact hw
    rw [queryStep_bare (hends none) (hignored none) rfl hptr] at hone
    dsimp only at hone
    rw [hback, hslice] at hone
    rw [fileSegment, field_none hfield]
    exact hone
  · rw [scanEqual_field hn]
    have hname : slice query a.length (a.length + n.length) = n := by
      rw [hquery, List.append_assoc]
      exact slice_append a n _ rfl rfl
    have hvalue : slice query (a.length + n.length + 1) (a.length + (n ++ '=' :: v).length) = v := by
      have hsplit : query = (a ++ n ++ ['=']) ++ (v ++ t) := by
        rw [hquery]
        simp
      rw [hsplit]
      refine slice_append _ v t ?_ ?_
      · simp [Nat.add_assoc]
      · simp; omega
    have hone := sameEnd_step (hlive (some (a.length + n.length))) fun i j hrange => by
      obtain ⟨-, -, -, rfl, rfl⟩ := hrange
      show ∀ c ∈ slice query a.length (a.length + n.length), _
      rw [hname]
      exact fun c hc => hw c (List.mem_append_left _ hc)
    rw [queryStep_value (hends _) (hignored _) rfl] at hone
    dsimp only at hone
    rw [hname, hvalue] at hone
    rw [fileSegment, field_some hn]
    exact hone

/-! ## All segments -/

/-- At such a segment nothing is done, and nothing ever after: `name` stays where it is. -/
def Dead (seg : Segment) : Prop :=
  (seg.1 = [] ∧ seg.2 ≠ some ';') ∨ seg.1.head? = some '\x00'

instance (seg : Segment) : Decidable (Dead seg) :=
  inferInstanceAs (Decidable ((seg.1 = [] ∧ seg.2 ≠ some ';') ∨ seg.1.head? = some '\x00'))

/-- What the loop does from a separator on. -/
def fileAll : List Segment → Filed → Filed
  | [], r => r
  | seg :: segs, r => if Dead seg then r else fileAll segs (fileSegment r seg.1)

/-- From `s` on the two collections become `r`, and all keys are made of one segment. -/
structure Finishes (query : Str) (s : QueryState) (r : Filed) : Prop where
  vars : (queryRun query s).vars = r.1
  empties : (queryRun query s).emptyVariables = r.2
  keys : KeysOk query s

theorem SameEnd.finishes {query : Str} {s t : QueryState} {r : Filed} (h : SameEnd query s t)
    (ht : Finishes query t r) : Finishes query s r where
  vars := by rw [h.run, ht.vars]
  empties := by rw [h.run, ht.empties]
  keys := h.keys.mpr ht.keys

/-- The state `t` has what `s` has, but for the position and '='. -/
structure SameName (s t : QueryState) : Prop where
  name : t.name = s.name
  vars : t.vars = s.vars
  empties : t.emptyVariables = s.emptyVariables

theorem SameName.step {query : Str} {s t : QueryState} (hs : Ignored query s)
    (h : SameName s t) : SameName s (queryStep query t) := by
  have ht : Ignored query t := by
    unfold Ignored
    rw [h.name]
    exact hs
  by_cases hends : EndsVariable query t
  · rw [queryStep_ignored hends ht]
    exact ⟨h.name, h.vars, h.empties⟩
  · by_cases hequal : charAt query t.ptr = '='
    · rw [queryStep_equal hequal]
      exact ⟨h.name, h.vars, h.empties⟩
    · rw [queryStep_other hends hequal]
      exact ⟨h.name, h.vars, h.empties⟩

theorem finishes_ignored {query : Str} {s : QueryState} (h : Ignored query s) :
    Finishes query s (s.vars, s.emptyVariables) := by
  have hrun : SameName s (queryRun query s) :=
    Lib.runLoop_inv (fun t _ ht => ht.step h) ⟨rfl, rfl, rfl⟩
  refine ⟨hrun.vars, hrun.empties, fun t ht i j hrange => ?_⟩
  have hsame : SameName s t := Lib.visits_inv (fun t _ ht => ht.step h) ht ⟨rfl, rfl, rfl⟩
  refine absurd ?_ hrange.2.2.1
  unfold Ignored
  rw [hsame.name]
  exact h

theorem finishes_stop {query : Str} {s : QueryState} (h : queryLive query s = false) :
    Finishes query s (s.vars, s.emptyVariables) := by
  refine ⟨by rw [queryRun_stop h], by rw [queryRun_stop h], fun t ht i j hrange => ?_⟩
  obtain rfl := (Lib.visits_stop h).mp ht
  have hlive := hrange.1
  rw [h] at hlive
  cases hlive

/-- The segments behind the separator at which `t` begins. -/
def behind : Str → List Segment
  | [] => []
  | _ :: rest => segments rest

theorem segments_cut {w t : Str} (hw : ∀ c ∈ w, isSeparator c = false)
    (ht : t = [] ∨ ∃ c rest, t = c :: rest ∧ isSeparator c = true) :
    segments (w ++ t) = (w, t.head?) :: behind t := by
  rcases ht with rfl | ⟨c, rest, rfl, hc⟩
  · rw [List.append_nil]
    exact segments_text hw
  · exact segments_append hw hc rest

theorem charAt_headD (a s : Str) : charAt (a ++ s) a.length = s.headD '\x00' := by
  cases s with
  | nil => rw [List.append_nil]; exact charAt_end a
  | cons c s => exact charAt_append a c s

/-- It shows in the first character whether a segment is dead. -/
theorem dead_iff {w t : Str} (hw : ∀ c ∈ w, isSeparator c = false)
    (ht : t = [] ∨ ∃ c rest, t = c :: rest ∧ isSeparator c = true) :
    Dead (w, t.head?) ↔ (w ++ t).headD '\x00' = '\x00' ∨ (w ++ t).headD '\x00' = '&' := by
  cases w with
  | nil =>
    rcases ht with rfl | ⟨c, rest, rfl, hc⟩
    · decide
    · show (([] : Str) = [] ∧ some c ≠ some ';' ∨ none = some '\x00') ↔ c = '\x00' ∨ c = '&'
      rcases isSeparator_iff.1 hc with rfl | rfl
      · decide
      · decide
  | cons x w =>
    have hx := hw x List.mem_cons_self
    show ((x :: w = [] ∧ _) ∨ some x = some '\x00') ↔ x = '\x00' ∨ x = '&'
    constructor
    · intro hor
      obtain ⟨h, -⟩ | h := hor
      · cases h
      · exact Or.inl (Option.some.inj h)
    · intro hor
      obtain h | h := hor
      · exact Or.inr (congrArg some h)
      · rw [h] at hx
        exact absurd hx (by decide)

/-- The loop, from a separator on. -/
theorem finishes_synced {query : Str} : ∀ {rest a : Str}, query = a ++ rest → Boundary a →
    (a = [] → rest.head? ≠ some ';') → ∀ r,
      Finishes query (synced a.length r) (fileAll (segments rest) r) := by
  intro rest
  induction hlen : rest.length using Nat.strongRecOn generalizing rest with
  | ind len ih =>
    intro a hquery ha hsemi r
    obtain ⟨w, t, rfl, hw, ht⟩ := cut_segment rest
    have hfirst : charAt query a.length = (w ++ t).headD '\x00' := by
      rw [hquery]
      exact charAt_headD a _
    rw [segments_cut hw ht, fileAll]
    by_cases hdead : Dead (w, t.head?)
    · rw [if_pos hdead]
      refine finishes_ignored ?_
      unfold Ignored
      show charAt query a.length = '\x00' ∨ charAt query a.length = '&'
      rw [hfirst]
      exact (dead_iff hw ht).mp hdead
    · rw [if_neg hdead]
      have hlive := mt (dead_iff hw ht).mpr hdead
      rw [← hfirst, not_or] at hlive
      have hne : a ++ w ≠ [] := by
        intro hnil
        obtain ⟨rfl, rfl⟩ := List.append_eq_nil_iff.mp hnil
        rcases ht with rfl | ⟨c, rest, rfl, hc⟩
        · exact hlive.1 hfirst
        · rcases isSeparator_iff.1 hc with rfl | rfl
          · exact hlive.2 hfirst
          · exact hsemi rfl rfl
      refine (sameEnd_segment hquery ha hne hw ht hlive.1 hlive.2 r).finishes ?_
      rcases ht with rfl | ⟨c, rest, rfl, hc⟩
      · refine finishes_stop (decide_eq_false ?_)
        show ¬ a.length + w.length + 1 ≤ query.length
        rw [hquery, List.append_nil, List.length_append]
        omega
      · have hsplit : query = (a ++ w ++ [c]) ++ rest := by
          rw [hquery]
          simp
        have hpos : a.length + w.length + 1 = (a ++ w ++ [c]).length := by
          rw [List.length_append, List.length_append, List.length_singleton]
        rw [hpos]
        refine ih rest.length ?_ rfl hsplit (boundary_snoc hc _) (fun h => ?_) _
        · rw [← hlen, List.length_append, List.length_cons]
          omega
        · exact absurd h (List.append_ne_nil_of_right_ne_nil _ (List.cons_ne_nil _ _))

/-! ## What a key gets -/

/-- A value behind the ones that were there. -/
def addValue (old : Option Str) (value : Str) : Option Str :=
  some (match old with
    | none => value
    | some old => old ++ '\x00' :: value)

/-- What a segment has for a key. -/
def valueFor (key w : Str) : Option Str :=
  match field w with
  | none => none
  | some (name, value) =>
    if value ≠ [] ∧ urlDecode name false 0 = key then some (urlDecode value false 0) else none

/-- The values that the segments have for a key. -/
def valuesFor (key : Str) (segs : List Segment) : List Str :=
  segs.filterMap fun seg => valueFor key seg.1

theorem lookup_storeVariable (vars : Mapping VarName Str) (name value key : Str) :
    (storeVariable vars name value).lookup (some key) =
      if urlDecode name false 0 = key then
        addValue (vars.lookup (some key)) (urlDecode value false 0)
      else vars.lookup (some key) := by
  unfold storeVariable
  dsimp only
  by_cases hkey : urlDecode name false 0 = key
  · subst hkey
    rw [if_pos rfl]
    cases hold : vars.lookup (some (urlDecode name false 0)) with
    | none => rw [AList.lookup_insert]; rfl
    | some old => rw [AList.lookup_insert]; rfl
  · have hne : some key ≠ some (urlDecode name false 0) := fun h => hkey (Option.some.inj h).symm
    rw [if_neg hkey]
    split
    next => exact AList.lookup_insert_ne hne
    next => exact AList.lookup_insert_ne hne

theorem lookup_fileSegment (r : Filed) (w key : Str) :
    (fileSegment r w).1.lookup (some key) =
      (valueFor key w).toList.foldl addValue (r.1.lookup (some key)) := by
  unfold fileSegment valueFor
  cases field w with
  | none => rfl
  | some f =>
    obtain ⟨name, value⟩ := f
    dsimp only
    unfold fileField
    by_cases hvalue : value = []
    · rw [if_pos hvalue, if_neg fun h => h.1 hvalue]
      rfl
    · rw [if_neg hvalue, lookup_storeVariable]
      by_cases hkey : urlDecode name false 0 = key
      · rw [if_pos hkey, if_pos ⟨hvalue, hkey⟩]
        rfl
      · rw [if_neg hkey, if_neg fun h => hkey h.2]
        rfl

theorem valuesFor_cons (key : Str) (seg : Segment) (segs : List Segment) :
    valuesFor key (seg :: segs) = (valueFor key seg.1).toList ++ valuesFor key segs := by
  rw [valuesFor, List.filterMap_cons]
  cases valueFor key seg.1 with
  | none => rfl
  | some v => rfl

theorem lookup_fileAll (key : Str) : ∀ (segs : List Segment) (r : Filed),
    (fileAll segs r).1.lookup (some key) =
      (valuesFor key (segs.takeWhile fun seg => !decide (Dead seg))).foldl addValue
        (r.1.lookup (some key))
  | [], _ => rfl
  | seg :: segs, r => by
    rw [fileAll]
    by_cases hdead : Dead seg
    · rw [if_pos hdead, List.takeWhile_cons_of_neg (by simp [hdead])]
      rfl
    · rw [if_neg hdead, List.takeWhile_cons_of_pos (by simp [hdead]), valuesFor_cons,
        List.foldl_append, ← lookup_fileSegment]
      exact lookup_fileAll key segs _

/-- How much a key has. -/
def valueSize : Option Str → Nat
  | none => 0
  | some s => s.length + 1

theorem valueSize_foldl (vs : List Str) (old : Option Str) :
    valueSize old + vs.length ≤ valueSize (vs.foldl addValue old) := by
  induction vs generalizing old with
  | nil => exact Nat.le_refl _
  | cons v vs ih =>
    have hone : valueSize old + 1 ≤ valueSize (addValue old v) := by
      cases old with
      | none => exact Nat.le_add_left 1 v.length
      | some o =>
        show o.length + 1 + 1 ≤ (o ++ '\x00' :: v).length + 1
        rw [List.length_append, List.length_cons]
        omega
    have hrest := ih (addValue old v)
    rw [List.foldl_cons, List.length_cons]
    omega

/-- A key that gets more values than another has more. -/
theorem foldl_addValue_eq {vs vs' : List Str} {old : Option Str} :
    (vs ++ vs').foldl addValue old = vs.foldl addValue old ↔ vs' = [] := by
  constructor
  · intro h
    have hsize := valueSize_foldl vs' (vs.foldl addValue old)
    rw [← List.foldl_append, h] at hsize
    exact List.length_eq_zero_iff.mp (by omega)
  · intro heq
    subst heq
    rw [List.append_nil]

/-- The segment has a name and a value. -/
def Carries (w : Str) : Prop := ∃ f, field w = some f ∧ f.1 ≠ [] ∧ f.2 ≠ []

instance (w : Str) : Decidable (Carries w) :=
  decidable_of_iff ((field w).any (fun f => decide (f.1 ≠ [] ∧ f.2 ≠ [])) = true) (by
    simp only [Option.any_eq_true, decide_eq_true_eq, Carries])

theorem urlDecode_ne_nil {s : Str} (hs : s ≠ []) : urlDecode s false 0 ≠ [] := by
  show urlDecodeFrom 0 s ≠ []
  unfold urlDecodeFrom
  split
  next => exact absurd rfl hs
  next => exact List.cons_ne_nil _ _
  next => rw [if_neg (by decide)]; exact List.cons_ne_nil _ _
  next => exact List.cons_ne_nil _ _
  next => exact List.cons_ne_nil _ _

theorem valueFor_ne_none_iff (w : Str) :
    (∃ key, key ≠ [] ∧ valueFor key w ≠ none) ↔ Carries w := by
  unfold valueFor Carries
  cases field w with
  | none => exact ⟨fun ⟨_, _, h⟩ => absurd rfl h, fun ⟨_, h, _⟩ => absurd h (Option.some_ne_none _).symm⟩
  | some f =>
    obtain ⟨name, value⟩ := f
    dsimp only
    constructor
    · intro hand
      obtain ⟨key, hkey, h⟩ := hand
      have hboth : value ≠ [] ∧ urlDecode name false 0 = key := by
        by_contra hnot
        exact h (if_neg hnot)
      refine ⟨_, rfl, ?_, hboth.1⟩
      intro heq
      subst heq
      exact hkey hboth.2.symm
    · intro hand
      obtain ⟨_, ⟨⟩, hname, hvalue⟩ := hand
      refine ⟨_, urlDecode_ne_nil hname, ?_⟩
      rw [if_pos ⟨hvalue, rfl⟩]
      exact Option.some_ne_none _

theorem valuesFor_eq_nil_iff (segs : List Segment) :
    (∀ key, key ≠ [] → valuesFor key segs = []) ↔ ∀ seg ∈ segs, ¬ Carries seg.1 := by
  constructor
  · intro h seg hseg hcarries
    obtain ⟨key, hkey, hvalue⟩ := (valueFor_ne_none_iff seg.1).mpr hcarries
    exact hvalue (List.filterMap_eq_nil_iff.mp (h key hkey) seg hseg)
  · intro h key hkey
    refine List.filterMap_eq_nil_iff.mpr fun seg hseg => ?_
    by_contra hvalue
    exact h seg hseg ((valueFor_ne_none_iff seg.1).mp ⟨key, hkey, hvalue⟩)

/-- From the first dead segment on there is no variable. -/
def NoLoss (segs : List Segment) : Prop :=
  ∀ seg ∈ segs.dropWhile fun seg => !decide (Dead seg), ¬ Carries seg.1

instance (segs : List Segment) : Decidable (NoLoss segs) :=
  inferInstanceAs (Decidable (∀ seg ∈ segs.dropWhile fun seg => !decide (Dead seg), ¬ Carries seg.1))

/-- What `fileAll` does is right for every key but the empty one if nothing is lost. -/
theorem fileAll_iff (segs : List Segment) (r : Filed) :
    (∀ key, key ≠ [] → (fileAll segs r).1.lookup (some key) =
      (valuesFor key segs).foldl addValue (r.1.lookup (some key))) ↔ NoLoss segs := by
  have hsplit : ∀ key, valuesFor key segs =
      valuesFor key (segs.takeWhile fun seg => !decide (Dead seg)) ++
        valuesFor key (segs.dropWhile fun seg => !decide (Dead seg)) := by
    intro key
    rw [valuesFor, valuesFor, valuesFor, ← List.filterMap_append, List.takeWhile_append_dropWhile]
  rw [NoLoss, ← valuesFor_eq_nil_iff]
  refine forall_congr' fun key => imp_congr_right fun _ => ?_
  rw [lookup_fileAll, hsplit key, eq_comm]
  exact foldl_addValue_eq

/-! ## A ';' at the beginning -/

theorem slice_backUp {query : Str} {p : Nat} (hp : p ≤ query.length) :
    ∀ c ∈ slice query (backUp query p) p, isSeparator c = false := by
  have hall : ∀ (l : Str), ∀ c ∈ l.drop (l.length - (l.reverse.takeWhile fun c =>
      c ≠ '&' && c ≠ ';').length), isSeparator c = false := by
    intro l c hc
    have hle : (l.reverse.takeWhile fun c => c ≠ '&' && c ≠ ';').length ≤ l.length := by
      have hprefix := (List.takeWhile_prefix (l := l.reverse)
        fun c => c ≠ '&' && c ≠ ';').length_le
      rwa [List.length_reverse] at hprefix
    have hrev : c ∈ (l.drop (l.length - (l.reverse.takeWhile fun c =>
        c ≠ '&' && c ≠ ';').length)).reverse := List.mem_reverse.mpr hc
    rw [List.reverse_drop, Nat.sub_sub_self hle,
      ← List.prefix_iff_eq_take.mp (List.takeWhile_prefix _)] at hrev
    have hne := List.mem_takeWhile_imp hrev
    simpa [isSeparator] using hne
  have hlen : (query.take p).length = p := by
    rw [List.length_take]
    omega
  have hslice := hall (query.take p)
  rw [hlen] at hslice
  exact hslice

/-- The state after the ';': its place is still taken for the beginning of a name, and the
character behind it has been skipped. -/
def skippedOne (r : Filed) : QueryState :=
  { ptr := 2, name := 0, equal := none, vars := r.1, emptyVariables := r.2 }

theorem sameEnd_leading (s : Str) (r : Filed) :
    SameEnd (';' :: s) (synced 0 r) (skippedOne r) := by
  have hends : EndsVariable (';' :: s) (synced 0 r) := Or.inl rfl
  have hignored : ¬ Ignored (';' :: s) (synced 0 r) := by
    intro hor
    obtain h | h := hor
    · exact absurd h (by decide : ';' ≠ '\x00')
    · exact absurd h (by decide : ';' ≠ '&')
  have hone : SameEnd (';' :: s) (synced 0 r) (queryStep (';' :: s) (synced 0 r)) :=
    sameEnd_step (queryLive_iff.2 (Nat.zero_le _)) fun i j hrange => by
      obtain ⟨-, -, -, hptr, -⟩ := hrange
      exact absurd rfl hptr
  rw [queryStep_leading hends hignored rfl rfl] at hone
  exact hone

/-- Without a '=' up to the next separator nothing but a name is taken from there, and the loop
goes on behind that separator. -/
theorem finishes_leading {x : Char} {w t : Str} (hw : ∀ c ∈ w, isSeparator c = false)
    (ht : t = [] ∨ ∃ c rest, t = c :: rest ∧ isSeparator c = true) (hequal : '=' ∉ w) (r : Filed) :
    ∃ empties, Finishes (';' :: x :: (w ++ t)) (synced 0 r) (fileAll (behind t) (r.1, empties)) := by
  have hquery : ';' :: x :: (w ++ t) = [';', x] ++ (w ++ t) := rfl
  have hscan : SameEnd (';' :: x :: (w ++ t)) (skippedOne r)
      ⟨2 + w.length, 0, none, r.1, r.2⟩ := by
    rw [← scanEqual_none hequal 2]
    exact sameEnd_scan hquery hw
  have hlen : 2 + w.length ≤ (';' :: x :: (w ++ t)).length := by
    rw [List.length_cons, List.length_cons, List.length_append]
    omega
  have hends : EndsVariable (';' :: x :: (w ++ t)) ⟨2 + w.length, 0, none, r.1, r.2⟩ :=
    endsVariable_append (b := [';', x] ++ w) rfl ht (by rw [List.length_append]; rfl)
  have hignored : ¬ Ignored (';' :: x :: (w ++ t)) ⟨2 + w.length, 0, none, r.1, r.2⟩ := by
    intro hor
    obtain h | h := hor
    · exact absurd h (by decide : ';' ≠ '\x00')
    · exact absurd h (by decide : ';' ≠ '&')
  have hone := sameEnd_step (s := ⟨2 + w.length, 0, none, r.1, r.2⟩) (queryLive_iff.2 hlen)
    fun i j hrange => by
      obtain ⟨-, -, -, -, rfl, rfl⟩ := hrange
      exact slice_backUp hlen
  rw [queryStep_bare hends hignored rfl (by show 2 + w.length ≠ 0; omega)] at hone
  obtain ⟨empties, hone⟩ : ∃ empties, SameEnd (';' :: x :: (w ++ t))
      ⟨2 + w.length, 0, none, r.1, r.2⟩ (synced (2 + w.length + 1) (r.1, empties)) := ⟨_, hone⟩
  refine ⟨empties, ((sameEnd_leading _ r).trans (hscan.trans hone)).finishes ?_⟩
  rcases ht with rfl | ⟨c, rest, rfl, hc⟩
  · refine finishes_stop (decide_eq_false ?_)
    show ¬ 2 + w.length + 1 ≤ (';' :: x :: (w ++ [])).length
    rw [List.append_nil, List.length_cons, List.length_cons]
    omega
  · have hsplit : ';' :: x :: (w ++ c :: rest) = ([';', x] ++ w ++ [c]) ++ rest := by simp
    have hpos : 2 + w.length + 1 = ([';', x] ++ w ++ [c]).length := by
      rw [List.length_append, List.length_append, List.length_singleton]
      rfl
    rw [hpos]
    exact finishes_synced hsplit (boundary_snoc hc _) (fun h => absurd h (by simp)) (r.1, empties)

/-- With a '=' there the name begins with the ';'. -/
theorem not_keysOk_leading {x : Char} {n v t : Str} (hw : ∀ c ∈ n ++ '=' :: v, isSeparator c = false)
    (ht : t = [] ∨ ∃ c rest, t = c :: rest ∧ isSeparator c = true) (hn : '=' ∉ n) (r : Filed) :
    ¬ KeysOk (';' :: x :: ((n ++ '=' :: v) ++ t)) (synced 0 r) := by
  have hquery : ';' :: x :: ((n ++ '=' :: v) ++ t) = ([';', x] ++ (n ++ '=' :: v)) ++ t := rfl
  have hscan : SameEnd (';' :: x :: ((n ++ '=' :: v) ++ t)) (skippedOne r)
      ⟨2 + (n ++ '=' :: v).length, 0, some (2 + n.length), r.1, r.2⟩ := by
    rw [← scanEqual_field hn 2 v]
    exact sameEnd_scan (a := [';', x]) rfl hw
  rw [((sameEnd_leading _ r).trans hscan).keys]
  intro hkeys
  have hptr : 2 + (n ++ '=' :: v).length = ([';', x] ++ (n ++ '=' :: v)).length :=
    (@List.length_append _ [';', x] _).symm
  have hlen : 2 + (n ++ '=' :: v).length ≤ (';' :: x :: ((n ++ '=' :: v) ++ t)).length := by
    rw [hptr, hquery, @List.length_append _ _ t]
    exact Nat.le_add_right _ _
  have hignored : ¬ Ignored (';' :: x :: ((n ++ '=' :: v) ++ t))
      ⟨2 + (n ++ '=' :: v).length, 0, some (2 + n.length), r.1, r.2⟩ := by
    intro hor
    obtain h | h := hor
    · exact absurd h (by decide : ';' ≠ '\x00')
    · exact absurd h (by decide : ';' ≠ '&')
  have hsep := hkeys _ (.here _) 0 (2 + n.length) ⟨queryLive_iff.2 hlen,
    endsVariable_append hquery ht hptr, hignored, rfl, rfl⟩ ';'
  have hmem : ';' ∈ slice (';' :: x :: ((n ++ '=' :: v) ++ t)) 0 (2 + n.length) := by
    rw [slice, List.drop_zero, Nat.add_comm]
    exact List.mem_cons_self
  exact absurd (hsep hmem) (by decide)

/-! ## The query -/

/-- `parse_query_string` keeps the segments apart: each key has got, behind what it had, the
values that the segments have for it, and no key was made of more than one segment. (A key is
empty when a segment has no name.) -/
def Isolates (query : Str) (vars : Mapping VarName Str) (empties : List Str) : Prop :=
  (∃ r, parseQueryString query vars empties = some r ∧ ∀ key, key ≠ [] →
    r.1.lookup (some key) =
      (valuesFor key (segments query)).foldl addValue (vars.lookup (some key))) ∧
  KeysOk query (synced 0 (vars, empties))

/-- From the first dead segment on there is no variable. Behind a ';' at the beginning the next
character is skipped; from there to the next separator there must be no '=', and the segments
are those behind that separator. -/
def Isolable : Str → Prop
  | ';' :: _ :: rest =>
    '=' ∉ rest.takeWhile (fun c => !isSeparator c) ∧ NoLoss (segments rest).tail
  | query => NoLoss (segments query)

theorem parseQueryString_eq {query : Str} (hq : narrow query = true) (r : Filed) :
    parseQueryString query r.1 r.2 =
      some ((queryRun query (synced 0 r)).vars, (queryRun query (synced 0 r)).emptyVariables) :=
  if_pos hq

theorem Finishes.parse {query : Str} (hq : narrow query = true) {r r' : Filed}
    (h : Finishes query (synced 0 r) r') : parseQueryString query r.1 r.2 = some r' := by
  rw [parseQueryString_eq hq, h.vars, h.empties]

theorem isolates_of_finishes {query : Str} (hq : narrow query = true) {r r' : Filed}
    (h : Finishes query (synced 0 r) r') :
    Isolates query r.1 r.2 ↔ ∀ key, key ≠ [] → r'.1.lookup (some key) =
      (valuesFor key (segments query)).foldl addValue (r.1.lookup (some key)) := by
  unfold Isolates
  rw [h.parse hq]
  refine ⟨?_, fun hkeys => ⟨⟨r', rfl, hkeys⟩, h.keys⟩⟩
  intro hand
  obtain ⟨⟨_, ⟨⟩, hkeys⟩, -⟩ := hand
  exact hkeys

theorem isolates_plain {query : Str} (hq : narrow query = true) (hhead : query.head? ≠ some ';')
    (r : Filed) : Isolates query r.1 r.2 ↔ NoLoss (segments query) := by
  have hfin : Finishes query (synced 0 r) (fileAll (segments query) r) :=
    finishes_synced (a := []) rfl (fun c hc => by cases hc) (fun _ => hhead) r
  rw [isolates_of_finishes hq hfin]
  exact fileAll_iff _ r

theorem isolates_semicolon (r : Filed) :
    Isolates [';'] r.1 r.2 ↔ NoLoss (segments [';']) := by
  have hstop : Finishes [';'] (skippedOne r) r := finishes_stop rfl
  have hfin : Finishes [';'] (synced 0 r) r := (sameEnd_leading [] r).finishes hstop
  rw [isolates_of_finishes (by decide) hfin]
  refine ⟨fun _ => by decide, fun _ key _ => ?_⟩
  rfl

/-- The segment that was skipped over has no variable if there is no '=' in it. -/
theorem valuesFor_leading {key : Str} (hkey : key ≠ []) {x : Char} {w t : Str}
    (hw : ∀ c ∈ w, isSeparator c = false)
    (ht : t = [] ∨ ∃ c rest, t = c :: rest ∧ isSeparator c = true) (hequal : '=' ∉ w) :
    valuesFor key (segments (';' :: x :: (w ++ t))) = valuesFor key (behind t) := by
  have hsemi : segments (';' :: x :: (w ++ t)) = ([], some ';') :: segments (x :: (w ++ t)) :=
    if_pos rfl
  have hnil : valueFor key [] = none := rfl
  have hnone : ∀ w, '=' ∉ w → valueFor key w = none := by
    intro w hw
    rw [valueFor, field_none hw]
  rw [hsemi, valuesFor_cons, hnil]
  show valuesFor key (segments (x :: (w ++ t))) = _
  cases hx : isSeparator x with
  | true =>
    have hcut : segments (x :: (w ++ t)) = ([], some x) :: segments (w ++ t) := if_pos hx
    rw [hcut, segments_cut hw ht, valuesFor_cons, valuesFor_cons, hnil, hnone w hequal]
    rfl
  | false =>
    have hcut := segments_cut (w := x :: w) (List.forall_mem_cons.mpr ⟨hx, hw⟩) ht
    have hfirst : valueFor key (x :: w) = none := by
      by_cases heq : x = '='
      · subst heq
        have hfield : field ('=' :: w) = some ([], w) := field_some List.not_mem_nil w
        rw [valueFor, hfield]
        exact if_neg fun h => hkey h.2.symm
      · refine hnone _ ?_
        rw [List.mem_cons, not_or]
        exact ⟨fun h => heq h.symm, hequal⟩
    rw [← List.cons_append, hcut, valuesFor_cons, hfirst]
    rfl

theorem isolates_leading {x : Char} {rest : Str} (hq : narrow (';' :: x :: rest) = true)
    (r : Filed) : Isolates (';' :: x :: rest) r.1 r.2 ↔ Isolable (';' :: x :: rest) := by
  obtain ⟨w, t, rfl, hw, ht⟩ := cut_segment rest
  have htake : (w ++ t).takeWhile (fun c => !isSeparator c) = w := by
    rw [List.takeWhile_append_of_pos fun c hc => by rw [hw c hc]; rfl]
    rcases ht with rfl | ⟨c, rest, rfl, hc⟩
    · exact List.append_nil w
    · rw [List.takeWhile_cons_of_neg (by rw [hc]; decide), List.append_nil]
  have hcond : Isolable (';' :: x :: (w ++ t)) ↔ '=' ∉ w ∧ NoLoss (behind t) := by
    show ('=' ∉ (w ++ t).takeWhile (fun c => !isSeparator c) ∧
      NoLoss (segments (w ++ t)).tail) ↔ _
    rw [htake, segments_cut hw ht]
    exact Iff.rfl
  rw [hcond]
  rcases cut_field w with hequal | ⟨n, v, rfl, hn⟩
  · obtain ⟨empties, hfin⟩ := finishes_leading (x := x) hw ht hequal r
    rw [isolates_of_finishes hq hfin, and_iff_right hequal, ← fileAll_iff _ (r.1, empties)]
    refine forall_congr' fun key => imp_congr_right fun hkey => ?_
    rw [valuesFor_leading hkey hw ht hequal]
  · refine iff_of_false (fun h => not_keysOk_leading hw ht hn r h.2) fun h => h.1 ?_
    exact List.mem_append_right _ List.mem_cons_self

theorem isolable_plain {query : Str} (hhead : query.head? ≠ some ';') :
    Isolable query ↔ NoLoss (segments query) := by
  unfold Isolable
  split
  next => exact absurd rfl hhead
  next => exact Iff.rfl

/-- The fields of a query are kept apart exactly when it is `Isolable`. -/
theorem isolates_iff (query : Str) (vars : Mapping VarName Str) (empties : List Str)
    (hq : narrow query = true) : Isolates query vars empties ↔ Isolable query := by
  by_cases hhead : query.head? = some ';'
  · obtain ⟨rest, rfl⟩ := List.head?_eq_some_iff.mp hhead
    cases rest with
    | nil => exact isolates_semicolon (vars, empties)
    | cons x rest => exact isolates_leading hq (vars, empties)
  · rw [isolable_plain hhead]
    exact isolates_plain hq hhead (vars, empties)

/-- Two fields, the second with a NUL and a '=' in its value. -/
theorem isolates_two_fields :
    narrow ['a', '=', 'b', ';', ';', 'c', '=', '\x00', '='] = true ∧
    (Isolates ['a', '=', 'b', ';', ';', 'c', '=', '\x00', '='] ∅ [] ↔
      Isolable ['a', '=', 'b', ';', ';', 'c', '=', '\x00', '=']) :=
  ⟨by decide, isolates_iff _ _ _ (by decide)⟩

/-- In `"a=b&&c=d"` the empty segment hides the variable behind it. -/
theorem empty_segment_hides : ¬ ∀ query vars empties, narrow query = true →
    Isolates query vars empties := by
  intro h
  obtain ⟨⟨r, hr, hkeys⟩, -⟩ := h ['a', '=', 'b', '&', '&', 'c', '=', 'd'] ∅ [] (by decide)
  have hparse : parseQueryString ['a', '=', 'b', '&', '&', 'c', '=', 'd'] ∅ [] =
      some (storeVariable ∅ ['a'] ['b'], []) := rfl
  rw [hparse, Option.some.injEq] at hr
  subst hr
  exact absurd (hkeys ['c'] (by decide)) (by decide)

end Caudium.Http
