import Caudium.Http.QueryString
import Caudium.Lib.Split

/-!
# Queries that were encoded (`encode_query`, HTTP.pmod)

`http_encode` leaves letters and digits as they are and writes everything else with '%', so
that in an encoded query '&' and '=' stand where `encode_query` has put them.
`parse_query_string` reads such a query back (`parse_encodeQuery`).
-/

namespace Caudium.Http

open Lib (Str Mapping)

/-- `Caudium.http_encode(name) + "=" + Caudium.http_encode(value)`. -/
def encodeField (field : Str × Str) : Option Str := do
  let name ← httpEncode field.1
  let value ← httpEncode field.2
  return name ++ '=' :: value

/-- `encode_query` for variables that are strings, as an array. -/
def encodeQuery (fields : List (Str × Str)) : Option Str := do
  let texts ← fields.mapM encodeField
  return ['&'].intercalate texts

/-- A string that goes through `http_encode` and back. -/
structure FieldText (s : Str) : Prop where
  nonempty : s ≠ []
  narrow : narrow s = true
  noNul : '\x00' ∉ s

/-- The values under a name, in order. -/
def valuesOf (fields : List (Str × Str)) (name : Str) : List Str :=
  fields.filterMap fun field => if field.1 = name then some field.2 else none

theorem valuesOf_cons (f : Str × Str) (fields : List (Str × Str)) (name : Str) :
    valuesOf (f :: fields) name =
      if f.1 = name then f.2 :: valuesOf fields name else valuesOf fields name := by
  rw [valuesOf, List.filterMap_cons]
  split
  next h =>
    rw [if_neg fun he => by rw [if_pos he] at h; cases h]
    rfl
  next v h =>
    by_cases he : f.1 = name
    · rw [if_pos he, Option.some.injEq] at h
      rw [if_pos he, h]
      rfl
    · rw [if_neg he] at h
      cases h

/-! ## The text of a field -/

/-- A character that `http_encode` writes. -/
def IsCode (c : Char) : Prop := isSafe c = true ∨ c = '%'

instance (c : Char) : Decidable (IsCode c) :=
  inferInstanceAs (Decidable (isSafe c = true ∨ c = '%'))

theorem isCode_narrow {c : Char} (h : IsCode c) : c.toNat < 256 := by
  rcases h with h | rfl
  · have hz : ∀ d, c ≤ d → d.toNat < 256 → c.toNat < 256 :=
      fun d hle hlt => Nat.lt_of_le_of_lt (Char.le_def.mp hle) hlt
    rcases of_decide_eq_true h with ⟨-, h⟩ | ⟨-, h⟩ | ⟨-, h⟩
    · exact hz '9' h (by decide)
    · exact hz 'Z' h (by decide)
    · exact hz 'z' h (by decide)
  · decide

theorem isCode_encode {s : Str} (hs : FieldText s) :
    ∀ c ∈ s.flatMap (encodeChar isSafe), IsCode c := by
  intro c hc
  rcases mem_encode ((narrow_iff s).mp hs.narrow) hc with ⟨-, h⟩ | h | h
  · exact Or.inl h
  · exact Or.inr h
  · have hall : ∀ x ∈ hexChars, isSafe x = true := by decide
    exact Or.inl (hall c h)

theorem encode_ne_nil {s : Str} (hs : FieldText s) : s.flatMap (encodeChar isSafe) ≠ [] := by
  obtain ⟨c, rest, rfl⟩ := List.exists_cons_of_ne_nil hs.nonempty
  rw [List.flatMap_cons]
  refine List.append_ne_nil_of_left_ne_nil ?_ _
  rw [encodeChar]
  split
  · exact List.cons_ne_nil _ _
  · exact List.cons_ne_nil _ _

theorem httpEncode_eq {s : Str} (hs : FieldText s) :
    httpEncode s = some (s.flatMap (encodeChar isSafe)) :=
  encodeWith_noNul hs.narrow hs.noNul

theorem urlDecode_encode {s : Str} (hs : FieldText s) :
    urlDecode (s.flatMap (encodeChar isSafe)) false 0 = s := by
  have hid : ∀ c, decoded isSafe 0 c = c := by
    intro c
    rw [decoded]
    split
    next hsafe =>
      refine if_neg fun h => ?_
      rw [h.1] at hsafe
      exact absurd hsafe (by decide)
    next => rfl
  show urlDecodeFrom 0 _ = s
  rw [urlDecodeFrom_encode (by decide) 0 ((narrow_iff s).mp hs.narrow),
    List.map_congr_left fun c _ => hid c, List.map_id']

/-- The text of a field. -/
def fieldText (field : Str × Str) : Str :=
  field.1.flatMap (encodeChar isSafe) ++ '=' :: field.2.flatMap (encodeChar isSafe)

theorem encodeField_eq {f : Str × Str} (hname : FieldText f.1) (hvalue : FieldText f.2) :
    encodeField f = some (fieldText f) := by
  rw [encodeField, httpEncode_eq hname, httpEncode_eq hvalue]
  rfl

theorem mem_fieldText {f : Str × Str} (hname : FieldText f.1) (hvalue : FieldText f.2) {c : Char}
    (hc : c ∈ fieldText f) : IsCode c ∨ c = '=' := by
  rcases List.mem_append.mp hc with hc | hc
  · exact Or.inl (isCode_encode hname c hc)
  · rcases List.mem_cons.mp hc with hc | hc
    · exact Or.inr hc
    · exact Or.inl (isCode_encode hvalue c hc)

theorem field_fieldText {f : Str × Str} (hname : FieldText f.1) :
    field (fieldText f) =
      some (f.1.flatMap (encodeChar isSafe), f.2.flatMap (encodeChar isSafe)) :=
  field_some (fun h => absurd (isCode_encode hname _ h) (by decide)) _

/-! ## The text of a query -/

/-- Texts without a separator, with '&' between them, are the segments. -/
theorem segments_intercalate : ∀ {texts : List Str}, texts ≠ [] →
    (∀ w ∈ texts, ∀ c ∈ w, isSeparator c = false) →
    (segments (['&'].intercalate texts)).map Prod.fst = texts
  | [w], _, hw => by
    rw [List.intercalate_singleton, segments_text (hw w List.mem_cons_self)]
    rfl
  | w :: w' :: texts, _, hw => by
    have hrest := segments_intercalate (List.cons_ne_nil w' texts) fun x hx =>
      hw x (List.mem_cons_of_mem w hx)
    rw [List.intercalate_cons_cons, List.append_assoc, List.singleton_append,
      segments_append (hw w List.mem_cons_self) (by decide), List.map_cons, hrest]

/-- A segment with a first character other than NUL is not dead. -/
theorem not_dead {w : Str} (hne : w ≠ []) (hnul : '\x00' ∉ w) (e : Option Char) : ¬ Dead (w, e) := by
  intro hor
  obtain ⟨h, -⟩ | h := hor
  · exact hne h
  · exact hnul (List.mem_of_mem_head? h)

/-- With all segments alive, each is filed. -/
theorem fileAll_alive : ∀ {segs : List Segment}, (∀ seg ∈ segs, ¬ Dead seg) → ∀ r,
    fileAll segs r = (segs.map Prod.fst).foldl fileSegment r
  | [], _, _ => rfl
  | seg :: segs, h, r => by
    rw [fileAll, if_neg (h seg List.mem_cons_self),
      fileAll_alive fun x hx => h x (List.mem_cons_of_mem seg hx)]
    rfl

theorem fileSegment_fieldText {f : Str × Str} (hname : FieldText f.1) (hvalue : FieldText f.2)
    (r : Filed) : fileSegment r (fieldText f) =
      (storeVariable r.1 (f.1.flatMap (encodeChar isSafe)) (f.2.flatMap (encodeChar isSafe)), r.2) := by
  rw [fileSegment, field_fieldText hname]
  exact if_neg (encode_ne_nil hvalue)

theorem lookup_storeVariable_none (vars : Mapping VarName Str) (name value : Str) :
    (storeVariable vars name value).lookup none = vars.lookup none := by
  unfold storeVariable
  dsimp only
  split
  next => exact AList.lookup_insert_ne nofun
  next => exact AList.lookup_insert_ne nofun

/-- What becomes of the collections when fields are filed one after the other. -/
theorem foldl_fieldText : ∀ {fields : List (Str × Str)},
    (∀ f ∈ fields, FieldText f.1 ∧ FieldText f.2) → ∀ r,
      ((fields.map fieldText).foldl fileSegment r).2 = r.2 ∧
      ((fields.map fieldText).foldl fileSegment r).1.lookup none = r.1.lookup none ∧
      ∀ name, ((fields.map fieldText).foldl fileSegment r).1.lookup (some name) =
        (valuesOf fields name).foldl addValue (r.1.lookup (some name))
  | [], _, _ => ⟨rfl, rfl, fun _ => rfl⟩
  | f :: fields, h, r => by
    obtain ⟨hname, hvalue⟩ := h f List.mem_cons_self
    obtain ⟨hempties, hnone, hsome⟩ := foldl_fieldText
      (fun x hx => h x (List.mem_cons_of_mem f hx)) (fileSegment r (fieldText f))
    rw [fileSegment_fieldText hname hvalue] at hempties hnone hsome
    rw [List.map_cons, List.foldl_cons, fileSegment_fieldText hname hvalue]
    refine ⟨hempties, hnone.trans (lookup_storeVariable_none _ _ _), fun name => ?_⟩
    rw [hsome name, lookup_storeVariable, urlDecode_encode hname, urlDecode_encode hvalue,
      valuesOf_cons]
    split
    next => rfl
    next => rfl

theorem foldl_addValue_some (value : Str) (values : List Str) :
    values.foldl addValue (some value) = some (['\x00'].intercalate (value :: values)) := by
  induction values generalizing value with
  | nil => rw [List.intercalate_singleton]; rfl
  | cons v values ih =>
    rw [List.foldl_cons]
    show values.foldl addValue (some (value ++ '\x00' :: v)) = _
    rw [ih, List.intercalate_cons_cons]
    cases values with
    | nil => simp
    | cons v' values => simp

theorem encodeQuery_eq {fields : List (Str × Str)}
    (h : ∀ f ∈ fields, FieldText f.1 ∧ FieldText f.2) :
    encodeQuery fields = some (['&'].intercalate (fields.map fieldText)) := by
  have htexts : fields.mapM encodeField = some (fields.map fieldText) := by
    induction fields with
    | nil => rfl
    | cons f fields ih =>
      obtain ⟨hname, hvalue⟩ := h f List.mem_cons_self
      rw [List.mapM_cons, encodeField_eq hname hvalue,
        ih fun x hx => h x (List.mem_cons_of_mem f hx)]
      rfl
  rw [encodeQuery, htexts]
  rfl

/-- The query of a list of fields is read back: `variables` has each name with its values, in
order, with a NUL between them, and `emptyvars` is empty. -/
theorem parse_encodeQuery (fields : List (Str × Str)) (hne : fields ≠ [])
    (h : ∀ f ∈ fields, FieldText f.1 ∧ FieldText f.2) :
    ∃ query vars, encodeQuery fields = some query ∧
      parseQueryString query ∅ [] = some (vars, []) ∧ vars.lookup none = none ∧
      ∀ name, vars.lookup (some name) =
        if valuesOf fields name = [] then none
        else some (['\x00'].intercalate (valuesOf fields name)) := by
  have hquery := encodeQuery_eq h
  have hmem : ∀ w ∈ fields.map fieldText, ∀ c ∈ w, IsCode c ∨ c = '=' := by
    intro w hw
    obtain ⟨f, hf, rfl⟩ := List.mem_map.mp hw
    exact fun c hc => mem_fieldText (h f hf).1 (h f hf).2 hc
  have hsep : ∀ w ∈ fields.map fieldText, ∀ c ∈ w, isSeparator c = false := by
    refine fun w hw c hc => decide_eq_false ?_
    intro hor
    obtain rfl | rfl := hor
    · exact absurd (hmem w hw _ hc) (by decide)
    · exact absurd (hmem w hw _ hc) (by decide)
  have hsegs := segments_intercalate (fun hnil => hne (List.map_eq_nil_iff.mp hnil)) hsep
  have halive : ∀ seg ∈ segments (['&'].intercalate (fields.map fieldText)), ¬ Dead seg := by
    intro seg hseg
    have hw : seg.1 ∈ fields.map fieldText := by
      rw [← hsegs]
      exact List.mem_map_of_mem hseg
    refine not_dead ?_ (fun hnul => absurd (hmem _ hw _ hnul) (by decide)) seg.2
    obtain ⟨f, -, hf⟩ := List.mem_map.mp hw
    rw [← hf]
    exact List.append_ne_nil_of_right_ne_nil _ (List.cons_ne_nil _ _)
  have hchars : ∀ c ∈ ['&'].intercalate (fields.map fieldText), IsCode c ∨ c = '=' ∨ c = '&' := by
    intro c hc
    rcases Lib.mem_intercalate hc with h | ⟨w, hw, hmemw⟩
    · exact Or.inr (Or.inr h)
    · exact (hmem w hw c hmemw).imp_right Or.inl
  have hhead : (['&'].intercalate (fields.map fieldText)).head? ≠ some ';' := by
    intro hsemi
    exact absurd (hchars ';' (List.mem_of_mem_head? hsemi)) (by decide)
  have hnarrow : narrow (['&'].intercalate (fields.map fieldText)) = true := by
    refine (narrow_iff _).mpr fun c hc => ?_
    rcases hchars c hc with h | rfl | rfl
    · exact isCode_narrow h
    · decide
    · decide
  have hfin : Finishes (['&'].intercalate (fields.map fieldText)) (synced 0 (∅, []))
      (fileAll (segments (['&'].intercalate (fields.map fieldText))) (∅, [])) :=
    finishes_synced (a := []) rfl (fun c hc => by cases hc) (fun _ => hhead) (∅, [])
  rw [fileAll_alive halive, hsegs] at hfin
  obtain ⟨hempties, hnone, hsome⟩ := foldl_fieldText h (∅, [])
  refine ⟨_, ((fields.map fieldText).foldl fileSegment (∅, [])).1, hquery, ?_, hnone, ?_⟩
  · rw [hfin.parse hnarrow]
    exact congrArg some (Prod.ext rfl hempties)
  · intro name
    rw [hsome name, AList.lookup_empty]
    cases valuesOf fields name with
    | nil => rfl
    | cons value values => rw [if_neg (List.cons_ne_nil _ _)]; exact foldl_addValue_some value values

theorem parse_encodeQuery_repeated :
    let fields : List (Str × Str) := [(['a'], ['1']), (['&'], ['=']), (['a'], ['\xff'])]
    ∃ query vars, encodeQuery fields = some query ∧
      parseQueryString query ∅ [] = some (vars, []) ∧ vars.lookup none = none ∧
      ∀ name, vars.lookup (some name) =
        if valuesOf fields name = [] then none
        else some (['\x00'].intercalate (valuesOf fields name)) := by
  refine parse_encodeQuery _ (by decide) ?_
  have h : ∀ s : Str, s ≠ [] ∧ narrow s = true ∧ '\x00' ∉ s → FieldText s := fun _ h => ⟨h.1, h.2.1, h.2.2⟩
  intro f hf
  simp only [List.mem_cons, List.not_mem_nil, or_false] at hf
  rcases hf with rfl | rfl | rfl
  · exact ⟨h _ (by decide), h _ (by decide)⟩
  · exact ⟨h _ (by decide), h _ (by decide)⟩
  · exact ⟨h _ (by decide), h _ (by decide)⟩

end Caudium.Http
