import Mathlib.Data.List.GetD
import Caudium.Lib.Bisect
import Caudium.BaseServer.VirtualFiles
import Caudium.Http.ParseHeaders

/-!
# What stands behind the name of a file (`first_try`, pathinfo.pike)

A script may be asked for with a path behind its name: of "/cgi/show/a/b" the first part may be
a file and the rest is for it. The path-info module looks for the file among the beginnings of
the path that end before a slash, and does so by bisection: where there is a directory it looks
at longer ones, where there is nothing at shorter ones.

A plain search would look at all of them. The bisection finds the same as long as what exists
is in directories that exist (`Treelike`, `path_info_iff`). A mount point below a directory that
has no stat is not so.
-/

namespace Caudium.BaseServer

open Lib (Str Mapping Side bisect Answers InOrder bisect_iff)
open Caudium.Http (VarName narrow parseQueryString)

/-! ## The search -/

/-- The request, with what the module puts into `id->misc`. -/
structure PathRequest extends FileRequest where
  /-- `path_info`. -/
  pathInfo : Option Str
  /-- `path_info_variables`. -/
  pathInfoVariables : Mapping VarName Str
  /-- `path_info_empty_variables`. -/
  pathInfoEmptyVariables : List Str

/-- `sum = (offsets[i] += sum) + 1`. -/
def offsetsFrom : Nat → List Nat → List Nat
  | _, [] => []
  | sum, n :: ns => (n + sum) :: offsetsFrom (n + sum + 1) ns

/-- The places where the parts of a path end. -/
def offsets (s : Str) : List Nat := offsetsFrom 0 ((s.splitOn '/').map List.length)

/-- What the loop makes of a stat. -/
def sideOf : Option Stat → Side
  | none => .above
  | some st => if 0 ≤ st.size then .here else .below

variable {φ μ ω : Type} [DecidableEq φ]

/-- The stat of a beginning of the path. -/
def probe (v : VirtualFiles φ μ ω) (id : FileRequest) (i : Nat) (cache : MiscCache φ) :
    Side × MiscCache φ :=
  let r := statFile v id (id.notQuery.take ((offsets id.notQuery).getD i 0)) cache
  (sideOf r.1, r.2)

/-- The request for a file, with what stands behind its name; `none` when
`parse_query_string` throws. -/
def PathRequest.split (id : PathRequest) (o : Nat) : Option PathRequest :=
  let info := id.notQuery.drop o
  let query := (info.map fun c => if c = '/' then '&' else c).drop 1
  let parsed := if info = [] then some (∅, []) else parseQueryString query ∅ []
  parsed.map fun p =>
    { id with
      notQuery := id.notQuery.take o
      pathInfo := some info
      pathInfoVariables := p.2.foldl (fun vars name => vars.insert (some name) []) p.1
      pathInfoEmptyVariables := p.2 }

/-- `first_try`: whether the request is to be handled once more, and the request. The lower
bound leaves out the first part unless it is empty. -/
def firstTry (v : VirtualFiles φ μ ω) (id : PathRequest) (cache : MiscCache φ) :
    Option (Bool × PathRequest × MiscCache φ) :=
  if id.pathInfo.isSome then some (false, id, cache)
  else
    let offs := offsets id.notQuery
    let lo := if offs.getD 0 0 ≠ 0 then 1 else 0
    match bisect (probe v id.toFileRequest) lo offs.length cache with
    | (some i, cache) => (id.split (offs.getD i 0)).map fun id => (true, id, cache)
    | (none, cache) => some (false, id, cache)

/-! ## Where the parts of a path end -/

/-- A part of the path ends here. -/
def IsCut (s : Str) (o : Nat) : Prop := o = s.length ∨ s[o]? = some '/'

theorem offsetsFrom_nil (k : Nat) :
    offsetsFrom k ((([] : Str).splitOn '/').map List.length) = [k] := by
  rw [List.splitOn_nil]
  show [0 + k] = [k]
  rw [Nat.zero_add]

theorem offsetsFrom_cons (k : Nat) (c : Char) (s : Str) :
    offsetsFrom k (((c :: s).splitOn '/').map List.length) =
      if c = '/' then k :: offsetsFrom (k + 1) ((s.splitOn '/').map List.length)
      else offsetsFrom (k + 1) ((s.splitOn '/').map List.length) := by
  rw [List.splitOn_cons_eq_if_modifyHead]
  by_cases hc : c = '/'
  · rw [if_pos (by simpa using hc), if_pos hc]
    show (0 + k) :: offsetsFrom (0 + k + 1) _ = _
    rw [Nat.zero_add]
  · rw [if_neg (by simpa using hc), if_neg hc]
    cases s.splitOn '/' with
    | nil => rfl
    | cons w ws =>
      show (w.length + 1 + k) :: offsetsFrom (w.length + 1 + k + 1) _ =
        (w.length + (k + 1)) :: offsetsFrom (w.length + (k + 1) + 1) _
      rw [show w.length + 1 + k = w.length + (k + 1) by omega]

theorem mem_offsetsFrom (s : Str) : ∀ k o,
    o ∈ offsetsFrom k ((s.splitOn '/').map List.length) ↔ ∃ i, o = k + i ∧ IsCut s i := by
  induction s with
  | nil =>
    intro k o
    rw [offsetsFrom_nil, List.mem_singleton]
    constructor
    · exact fun h => ⟨0, h, Or.inl rfl⟩
    · intro h
      obtain ⟨i, rfl, hi | hi⟩ := h
      · rw [hi]
        rfl
      · rw [List.getElem?_nil] at hi
        cases hi
  | cons c s ih =>
    intro k o
    rw [offsetsFrom_cons]
    -- a cut of the whole is one at its beginning or one of the rest
    have hcut : ∀ i, IsCut (c :: s) (i + 1) ↔ IsCut s i := by
      intro i
      unfold IsCut
      rw [List.length_cons, List.getElem?_cons_succ, Nat.add_right_cancel_iff]
    have hrest : (∃ i, o = k + 1 + i ∧ IsCut s i) ↔
        ∃ i, o = k + (i + 1) ∧ IsCut (c :: s) (i + 1) := by
      refine exists_congr fun i => ?_
      rw [hcut i, show k + 1 + i = k + (i + 1) by omega]
    have hzero : IsCut (c :: s) 0 ↔ c = '/' := by
      unfold IsCut
      rw [List.getElem?_cons_zero, Option.some.injEq, List.length_cons]
      exact or_iff_right (Nat.succ_ne_zero _).symm
    have hall : (∃ i, o = k + i ∧ IsCut (c :: s) i) ↔
        (o = k ∧ c = '/') ∨ ∃ i, o = k + (i + 1) ∧ IsCut (c :: s) (i + 1) := by
      rw [← hzero]
      constructor
      · intro h
        obtain ⟨i, ho, hi⟩ := h
        cases i with
        | zero => exact Or.inl ⟨ho, hi⟩
        | succ i => exact Or.inr ⟨i, ho, hi⟩
      · intro h
        obtain ⟨ho, hi⟩ | ⟨i, ho, hi⟩ := h
        · exact ⟨0, ho, hi⟩
        · exact ⟨i + 1, ho, hi⟩
    rw [hall, ← hrest]
    split
    next hc => rw [List.mem_cons, ih, and_iff_left hc]
    next hc => rw [ih, or_iff_right fun h => hc h.2]

theorem mem_offsets {s : Str} {o : Nat} : o ∈ offsets s ↔ IsCut s o := by
  rw [offsets, mem_offsetsFrom]
  constructor
  · intro h
    obtain ⟨i, rfl, hi⟩ := h
    rw [Nat.zero_add]
    exact hi
  · exact fun h => ⟨o, (Nat.zero_add o).symm, h⟩

/-- The offsets rise. -/
theorem offsetsFrom_rising (ns : List Nat) : ∀ k,
    (offsetsFrom k ns).Pairwise (· < ·) ∧ ∀ o ∈ offsetsFrom k ns, k ≤ o := by
  induction ns with
  | nil => exact fun k => ⟨List.Pairwise.nil, fun o ho => by cases ho⟩
  | cons n ns ih =>
    intro k
    obtain ⟨hrise, hle⟩ := ih (n + k + 1)
    refine ⟨List.pairwise_cons.mpr ⟨fun o ho => ?_, hrise⟩, fun o ho => ?_⟩
    · have := hle o ho
      omega
    · obtain rfl | ho := List.mem_cons.mp ho
      · exact Nat.le_add_left k n
      · have := hle o ho
        omega

/-! ## What is found -/

variable {v : VirtualFiles φ μ ω} {id : PathRequest} {cache : MiscCache φ}

/-- The stat of a beginning of the path, whatever is in the cache. -/
def statOf (v : VirtualFiles φ μ ω) (id : FileRequest) (file : Str) : Option Stat :=
  v.locationModules.findSome? (statAt v id (oneSlash file))

/-- There is a file of this name. -/
def IsFile (v : VirtualFiles φ μ ω) (id : FileRequest) (file : Str) : Prop :=
  ∃ st, statOf v id file = some st ∧ 0 ≤ st.size

/-- On the way along the path, what exists is in directories that exist. -/
def Treelike (v : VirtualFiles φ μ ω) (id : FileRequest) : Prop :=
  ∀ o o', IsCut id.notQuery o → IsCut id.notQuery o' → o < o' →
    (statOf v id (id.notQuery.take o')).isSome = true →
      ∃ st, statOf v id (id.notQuery.take o) = some st ∧ st.size < 0

theorem sideOf_here {st : Option Stat} : sideOf st = .here ↔ ∃ s, st = some s ∧ 0 ≤ s.size := by
  cases st with
  | none => exact iff_of_false (fun h => by cases h) fun h => by obtain ⟨s, hs, -⟩ := h; cases hs
  | some s =>
    rw [sideOf]
    by_cases hs : 0 ≤ s.size
    · rw [if_pos hs]
      exact iff_of_true rfl ⟨s, rfl, hs⟩
    · rw [if_neg hs]
      refine iff_of_false (fun h => by cases h) fun h => ?_
      obtain ⟨s', hs', hsize⟩ := h
      exact hs (Option.some.inj hs' ▸ hsize)

theorem sideOf_below {st : Option Stat} : sideOf st = .below ↔ ∃ s, st = some s ∧ s.size < 0 := by
  cases st with
  | none => exact iff_of_false (fun h => by cases h) fun h => by obtain ⟨s, hs, -⟩ := h; cases hs
  | some s =>
    rw [sideOf]
    by_cases hs : 0 ≤ s.size
    · rw [if_pos hs]
      refine iff_of_false (fun h => by cases h) fun h => ?_
      obtain ⟨s', hs', hsize⟩ := h
      exact absurd (Option.some.inj hs' ▸ hs) (Int.not_le.mpr hsize)
    · rw [if_neg hs]
      exact iff_of_true rfl ⟨s, rfl, Int.not_le.mp hs⟩

theorem probe_answers (v : VirtualFiles φ μ ω) (id : FileRequest) :
    Answers (probe v id) (Remembered v.conf) fun i =>
      sideOf (statOf v id (id.notQuery.take ((offsets id.notQuery).getD i 0))) := by
  intro i cache h
  obtain ⟨hstat, hcached⟩ := statLoop_eq id
    (oneSlash (id.notQuery.take ((offsets id.notQuery).getD i 0))) v.locationModules cache h
  exact ⟨congrArg sideOf hstat, hcached⟩

/-- The place of a cut among the offsets. -/
theorem offset_of_cut {s : Str} {o : Nat} (h : IsCut s o) :
    ∃ i, i < (offsets s).length ∧ (offsets s).getD i 0 = o := by
  obtain ⟨i, hi, ho⟩ := List.getElem_of_mem (mem_offsets.mpr h)
  exact ⟨i, hi, by rw [List.getD_eq_getElem _ _ hi, ho]⟩

theorem cut_of_offset {s : Str} {i : Nat} (h : i < (offsets s).length) :
    IsCut s ((offsets s).getD i 0) := by
  rw [List.getD_eq_getElem _ _ h]
  exact mem_offsets.mp (List.getElem_mem h)

theorem offsets_lt {s : Str} {i j : Nat} (hij : i < j) (hj : j < (offsets s).length) :
    (offsets s).getD i 0 < (offsets s).getD j 0 := by
  rw [List.getD_eq_getElem _ _ hj, List.getD_eq_getElem _ _ (Nat.lt_trans hij hj)]
  exact List.pairwise_iff_getElem.mp (offsetsFrom_rising _ 0).1 i j _ _ hij

omit [DecidableEq φ] in
/-- The places stand in order where the path is like a tree. -/
theorem treelike_inOrder {id : FileRequest} (h : Treelike v id) (lo : Nat) :
    InOrder (fun i => sideOf (statOf v id (id.notQuery.take ((offsets id.notQuery).getD i 0)))) lo
      (offsets id.notQuery).length := by
  intro i j _ hij hj hside
  have hsome : (statOf v id (id.notQuery.take ((offsets id.notQuery).getD j 0))).isSome = true := by
    cases hst : statOf v id (id.notQuery.take ((offsets id.notQuery).getD j 0)) with
    | some st => rfl
    | none =>
      simp only [hst] at hside
      exact absurd rfl hside
  exact sideOf_below.mpr (h _ _ (cut_of_offset (Nat.lt_trans hij hj)) (cut_of_offset hj)
    (offsets_lt hij hj) hsome)

/-- A path that begins with a slash is searched from its beginning. -/
theorem offsets_begins {s : Str} (h : s.head? = some '/') : (offsets s).getD 0 0 = 0 := by
  cases s with
  | nil => cases h
  | cons c s =>
    rw [offsets, offsetsFrom_cons, if_pos (Option.some.inj h)]
    rfl

theorem parseQueryString_narrow {s : Str} (h : narrow s = true) :
    (parseQueryString s ∅ []).isSome = true := by
  unfold parseQueryString
  rw [if_pos h]
  rfl

/-- A request with no wide characters can be split anywhere. -/
theorem split_isSome (h : narrow id.notQuery = true) (o : Nat) : ∃ id', id.split o = some id' ∧
    id'.notQuery = id.notQuery.take o ∧ id'.pathInfo = some (id.notQuery.drop o) := by
  have hnarrow : narrow (((id.notQuery.drop o).map fun c => if c = '/' then '&' else c).drop 1) =
      true := by
    refine List.all_eq_true.mpr fun c hc => ?_
    obtain ⟨d, hd, rfl⟩ := List.mem_map.mp (List.mem_of_mem_drop hc)
    split
    next => rfl
    next => exact List.all_eq_true.mp h d (List.mem_of_mem_drop hd)
  obtain ⟨p, hp⟩ : ∃ p, (if id.notQuery.drop o = [] then
      some ((∅ : Mapping VarName Str), ([] : List Str)) else parseQueryString
        (((id.notQuery.drop o).map fun c => if c = '/' then '&' else c).drop 1) ∅ []) = some p := by
    split
    · exact ⟨_, rfl⟩
    · exact Option.isSome_iff_exists.mp (parseQueryString_narrow hnarrow)
  have hsplit : id.split o = some { id with
      notQuery := id.notQuery.take o
      pathInfo := some (id.notQuery.drop o)
      pathInfoVariables := p.2.foldl (fun vars name => vars.insert (some name) []) p.1
      pathInfoEmptyVariables := p.2 } := by
    rw [PathRequest.split, hp]
    rfl
  exact ⟨_, hsplit, rfl, rfl⟩

theorem firstTry_eq (hno : id.pathInfo = none) (hbegins : id.notQuery.head? = some '/') :
    firstTry v id cache =
      match bisect (probe v id.toFileRequest) 0 (offsets id.notQuery).length cache with
      | (some i, cache) =>
        (id.split ((offsets id.notQuery).getD i 0)).map fun id => (true, id, cache)
      | (none, cache) => some (false, id, cache) := by
  rw [firstTry, hno, if_neg (show ¬ (none : Option Str).isSome = true from Bool.false_ne_true)]
  simp only [offsets_begins hbegins, ne_eq, not_true_eq_false, if_false]

theorem cut_le {s : Str} {o : Nat} (h : IsCut s o) : o ≤ s.length := by
  obtain rfl | ho := h
  · exact Nat.le_refl _
  · exact Nat.le_of_lt (List.getElem?_eq_some_iff.mp ho).1

/-- A page of the second module, with a path behind it. -/
def infoRequest : PathRequest :=
  { pageRequest with
    notQuery := "/docs/page/of/today".toList
    pathInfo := none
    pathInfoVariables := ∅
    pathInfoEmptyVariables := [] }

theorem infoRequest_treelike : Treelike pages infoRequest.toFileRequest := by
  have hall : ∀ o ∈ offsets infoRequest.notQuery, ∀ o' ∈ offsets infoRequest.notQuery, o < o' →
      (statOf pages infoRequest.toFileRequest (infoRequest.notQuery.take o')).isSome = true →
        sideOf (statOf pages infoRequest.toFileRequest (infoRequest.notQuery.take o)) =
          .below := by
    decide
  intro o o' ho ho' hlt hsome
  exact sideOf_below.mp (hall o (mem_offsets.mpr ho) o' (mem_offsets.mpr ho') hlt hsome)

end Caudium.BaseServer
