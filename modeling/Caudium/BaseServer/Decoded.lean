import Caudium.BaseServer.Newdecode

/-!
# What comes back of a configuration

The text that `encode_regions` writes is a document of containers (`fileDoc`), so where
`parse_html` finds the containers of documents, what `decode_config_file` makes of it can be
followed level by level: of a value it makes `decoded`, in which `%3c` and `%3e` mean '<' and
'>' in every string.

`round_trip_iff` says when the configuration that comes back is the same: when no string has
one of the two sequences in it. Names stand in the text as they are, so the statement is about
names that can stand between two apostrophes.
-/

namespace Caudium.BaseServer

open Lib (Str Mapping Value)
open Lib.Markup
open Config (Regions Configuration decimal castInt_decimal oneVariable every_oneVariable
  named_oneVariable)
open Http (castInt)

/-! ## The text as a document -/

/-- The list of values that stands in a container. -/
def listDoc (ds : List (List Piece)) : List Piece :=
  [.text gap] ++ [Piece.text gap].intercalate ds ++ [.text outdent]

mutual

/-- The document that the text of a value is. -/
def valueDoc : Value → List Piece
  | .str s => [.elem newTags.string [] [.text (escape s)]]
  | .int n => [.elem newTags.int [] [.text (decimal n)]]
  | .arr xs => [.text outdent, .elem newTags.array [] (listDoc (valueDocs xs)), .text ['\n']]
  | .set xs => [.text outdent, .elem newTags.list [] (listDoc (valueDocs xs)), .text ['\n']]
  | .map es => [.elem newTags.mapping [] (entriesDoc es ++ [.text [' ', ' ']]), .text ['\n']]

def valueDocs : List Value → List (List Piece)
  | [] => []
  | x :: xs => valueDoc x :: valueDocs xs

def entriesDoc : List (Value × Value) → List Piece
  | [] => []
  | (k, x) :: es =>
    [.text [' ', ' ', ' ', ' ']] ++ valueDoc k ++ [.text [' ', ':', ' ']] ++ valueDoc x ++
      [.text ['\n']] ++ entriesDoc es

end

theorem valueDocs_eq (xs : List Value) : valueDocs xs = xs.map valueDoc := by
  induction xs with
  | nil => rfl
  | cons x xs ih => rw [valueDocs, ih, List.map_cons]

theorem encodeAll_eq (xs : List Value) : encodeAll xs = xs.map encodeMixed := by
  induction xs with
  | nil => rfl
  | cons x xs ih => rw [encodeAll, ih, List.map_cons]

/-- An element without attributes. -/
theorem render_elem (name : Str) (content ps : List Piece) :
    render (.elem name [] content :: ps) = container name (render content) ++ render ps := by
  rw [render, Piece.render, List.flatMap_nil, List.append_nil]
  rfl

/-- The text of an array or of a multiset. -/
theorem render_listed (tag : Str) (ds : List (List Piece)) :
    render [.text outdent, .elem tag [] (listDoc ds), .text ['\n']] =
      outdent ++ container tag (gap ++ gap.intercalate (ds.map render) ++ outdent) ++ ['\n'] := by
  rw [render, render_elem, listDoc, render_append, render_append, render_intercalate]
  simp only [render, Piece.render, List.append_nil, List.append_assoc]

theorem render_valueDoc (v : Value) : render (valueDoc v) = encodeMixed v := by
  have hall : ∀ xs : List Value, (∀ x ∈ xs, render (valueDoc x) = encodeMixed x) →
      (valueDocs xs).map render = encodeAll xs := by
    intro xs ih
    rw [valueDocs_eq, encodeAll_eq, List.map_map]
    exact List.map_congr_left ih
  induction v with
  | int n =>
    simp only [valueDoc, encodeMixed, render_elem, Piece.render, render, List.append_nil]
  | str s =>
    simp only [valueDoc, encodeMixed, render_elem, Piece.render, render, List.append_nil]
  | arr xs ih =>
    rw [valueDoc, encodeMixed, render_listed, hall xs ih]
  | set xs ih =>
    rw [valueDoc, encodeMixed, render_listed, hall xs ih]
  | map es ih =>
    have hentries : render (entriesDoc es) = encodeEntries es := by
      induction es with
      | nil => rfl
      | cons e es ihes =>
        obtain ⟨hkey, hx⟩ := ih e List.mem_cons_self
        simp only [entriesDoc, encodeEntries, render_append, hkey, hx, Piece.render, render,
          List.append_nil, ihes fun f hf => ih f (List.mem_cons_of_mem _ hf)]
    simp only [valueDoc, encodeMixed, render_elem, render_append, hentries, Piece.render, render,
      List.append_nil]

/-! ## The containers of the text -/

/-- The containers of a document are found. -/
def Dispatches (x : Syntax) (parseHtml : ParseHtml) : Prop :=
  ∀ names ps, WellFormed x ps → (∀ e ∈ elements ps, e.name ∈ names) →
    parseHtml (render ps) names = elements ps

/-- What `parse_html` reads as it is written: '<' begins a tag, also in the name of a tag
that stands in a container. -/
def htmlSyntax : Syntax where
  text _ := True
  value c := c ≠ '<'
  cdata _ := False
  decl s := ∀ c ∈ s, c ≠ '<' ∧ c ≠ '\'' ∧ c ≠ '"'

/-- The container of a value. -/
def valueElement : Value → Element
  | .str s => ⟨newTags.string, [], escape s⟩
  | .int n => ⟨newTags.int, [], decimal n⟩
  | .arr xs => ⟨newTags.array, [], render (listDoc (valueDocs xs))⟩
  | .set xs => ⟨newTags.list, [], render (listDoc (valueDocs xs))⟩
  | .map es => ⟨newTags.mapping, [], render (entriesDoc es ++ [.text [' ', ' ']])⟩

theorem elements_valueDoc (v : Value) : elements (valueDoc v) = [valueElement v] := by
  cases v <;>
    simp only [valueDoc, elements, valueElement, render, Piece.render, List.append_nil]

theorem elements_listDoc (xs : List Value) :
    elements (listDoc (valueDocs xs)) = xs.map valueElement := by
  rw [listDoc, elements_append, elements_append, elements_intercalate, valueDocs_eq,
    List.flatMap_map, List.map_eq_flatMap]
  simp [elements, elements_valueDoc]

theorem elements_entriesDoc (es : List (Value × Value)) :
    elements (entriesDoc es) = es.flatMap fun e => [valueElement e.1, valueElement e.2] := by
  induction es with
  | nil => rfl
  | cons e es ih => simp [entriesDoc, elements_append, elements_valueDoc, elements, ih]

theorem name_valueElement (v : Value) : (valueElement v).name ∈ newTags.values := by
  cases v <;> simp [valueElement, Tags.values]

theorem lt_notMem_escape (s : Str) : ∀ c ∈ escape s, c ≠ '<' := by
  induction s with
  | nil => nofun
  | cons d s ih =>
    rw [escape]
    split
    · simp only [List.forall_mem_cons]
      exact ⟨by decide, by decide, by decide, ih⟩
    · split
      · simp only [List.forall_mem_cons]
        exact ⟨by decide, by decide, by decide, ih⟩
      next hd => exact List.forall_mem_cons.mpr ⟨hd, ih⟩

theorem lt_notMem_decimal (n : Int) : ∀ c ∈ decimal n, c ≠ '<' := by
  have hdigits : ∀ c ∈ Nat.toDigits 10 n.natAbs, c ≠ '<' := by
    intro c hc h
    subst h
    exact absurd (Config.isDigit_of_mem hc) (by decide)
  unfold decimal
  split
  · exact List.forall_mem_cons.mpr ⟨by decide, hdigits⟩
  · exact hdigits

theorem wellFormed_text {s : Str} (h : ∀ c ∈ s, c ≠ '<') :
    (Piece.text s).WellFormed htmlSyntax := .text fun c hc => ⟨h c hc, trivial⟩

theorem wellFormed_elem {name : Str} {content : List Piece} (hname : IsName name)
    (h : WellFormed htmlSyntax content) : (Piece.elem name [] content).WellFormed htmlSyntax :=
  .elem hname nofun List.nodup_nil nofun h

theorem wellFormed_listed {tag : Str} (htag : IsName tag) {ds : List (List Piece)}
    (h : ∀ d ∈ ds, WellFormed htmlSyntax d) :
    WellFormed htmlSyntax [.text outdent, .elem tag [] (listDoc ds), .text ['\n']] := by
  have hgap : WellFormed htmlSyntax [.text gap] :=
    wellFormed_cons.mpr ⟨wellFormed_text (by decide), wellFormed_nil⟩
  have hlist : WellFormed htmlSyntax (listDoc ds) := by
    rw [listDoc, wellFormed_append, wellFormed_append]
    exact ⟨⟨hgap, wellFormed_intercalate hgap h⟩,
      wellFormed_cons.mpr ⟨wellFormed_text (by decide), wellFormed_nil⟩⟩
  rw [wellFormed_cons, wellFormed_cons, wellFormed_cons]
  exact ⟨wellFormed_text (by decide), wellFormed_elem htag hlist, wellFormed_text (by decide),
    wellFormed_nil⟩

theorem wellFormed_valueDoc (v : Value) : WellFormed htmlSyntax (valueDoc v) := by
  have hall : ∀ xs : List Value, (∀ x ∈ xs, WellFormed htmlSyntax (valueDoc x)) →
      ∀ d ∈ valueDocs xs, WellFormed htmlSyntax d := by
    intro xs ih
    rw [valueDocs_eq]
    exact List.forall_mem_map.mpr ih
  have hone : ∀ {name s : Str}, IsName name → (∀ c ∈ s, c ≠ '<') →
      WellFormed htmlSyntax [.elem name [] [.text s]] := fun hname hs =>
    wellFormed_cons.mpr ⟨wellFormed_elem hname
      (wellFormed_cons.mpr ⟨wellFormed_text hs, wellFormed_nil⟩), wellFormed_nil⟩
  induction v with
  | int n => rw [valueDoc]; exact hone ⟨by decide, by decide⟩ (lt_notMem_decimal n)
  | str s => rw [valueDoc]; exact hone ⟨by decide, by decide⟩ (lt_notMem_escape s)
  | arr xs ih => rw [valueDoc]; exact wellFormed_listed ⟨by decide, by decide⟩ (hall xs ih)
  | set xs ih => rw [valueDoc]; exact wellFormed_listed ⟨by decide, by decide⟩ (hall xs ih)
  | map es ih =>
    have hentries : WellFormed htmlSyntax (entriesDoc es) := by
      induction es with
      | nil => exact wellFormed_nil
      | cons e es ihes =>
        obtain ⟨hkey, hx⟩ := ih e List.mem_cons_self
        simp only [entriesDoc, wellFormed_append, wellFormed_cons]
        exact ⟨⟨⟨⟨⟨⟨wellFormed_text (by decide), wellFormed_nil⟩, hkey⟩,
          wellFormed_text (by decide), wellFormed_nil⟩, hx⟩, wellFormed_text (by decide),
          wellFormed_nil⟩, ihes fun f hf => ih f (List.mem_cons_of_mem _ hf)⟩
    rw [valueDoc, wellFormed_cons, wellFormed_cons]
    refine ⟨wellFormed_elem ⟨by decide, by decide⟩ ?_, wellFormed_text (by decide), wellFormed_nil⟩
    exact wellFormed_append.mpr ⟨hentries,
      wellFormed_cons.mpr ⟨wellFormed_text (by decide), wellFormed_nil⟩⟩

/-! ## What is read of a value -/

mutual

/-- What is read back of a value. -/
def decoded : Value → Value
  | .int n => .int n
  | .str s => .str (unescape s)
  | .arr xs => .arr (decodedAll xs)
  | .set xs => .set (decodedAll xs)
  | .map es => .map ((decodedEntries es).foldl (fun acc e => Value.putEntry acc e.1 e.2) [])

def decodedAll : List Value → List Value
  | [] => []
  | x :: xs => decoded x :: decodedAll xs

def decodedEntries : List (Value × Value) → List (Value × Value)
  | [] => []
  | (k, x) :: es => (decoded k, decoded x) :: decodedEntries es

end

theorem decodedAll_eq (xs : List Value) : decodedAll xs = xs.map decoded := by
  induction xs with
  | nil => rfl
  | cons x xs ih => rw [decodedAll, ih, List.map_cons]

theorem decodedEntries_eq (es : List (Value × Value)) :
    decodedEntries es = es.map fun e => (decoded e.1, decoded e.2) := by
  induction es with
  | nil => rfl
  | cons e es ih => rw [decodedEntries, ih, List.map_cons]

variable {parseHtml : ParseHtml}

/-- The containers of values, one after the other. -/
theorem foldlM_values {n : Nat} {xs : List Value} (h : ∀ x ∈ xs, ∀ res, decodeContainer newTags
      (parseValues parseHtml newTags n) (valueElement x) res = some (putRes res (decoded x))) :
    ∀ ys, (xs.map valueElement).foldlM
      (fun res e => decodeContainer newTags (parseValues parseHtml newTags n) e res) (.arr ys) =
        some (.arr (ys ++ xs.map decoded)) := by
  induction xs with
  | nil => intro ys; rw [List.map_nil, List.map_nil, List.append_nil]; rfl
  | cons x xs ih =>
    intro ys
    have hxs := ih (fun y hy => h y (List.mem_cons_of_mem _ hy)) (ys ++ [decoded x])
    rw [List.append_assoc] at hxs
    rw [List.map_cons, List.map_cons, List.foldlM_cons, h x List.mem_cons_self, putRes]
    exact hxs

/-- A list of values is read into an array that is being made. -/
theorem parseValues_list (hparse : Dispatches htmlSyntax parseHtml) {xs : List Value}
    {ps : List Piece} (h : ∀ x ∈ xs, ∀ n, (valueElement x).content.length < n → ∀ res,
      decodeContainer newTags (parseValues parseHtml newTags n) (valueElement x) res =
        some (putRes res (decoded x)))
    (hps : WellFormed htmlSyntax ps) (helements : elements ps = xs.map valueElement) {n : Nat}
    (hn : (render ps).length < n) :
    parseValues parseHtml newTags n (render ps) (.arr []) = some (.arr (xs.map decoded)) := by
  obtain ⟨n, rfl⟩ : ∃ m, n = m + 1 := ⟨n - 1, by omega⟩
  have hnames : ∀ e ∈ elements ps, e.name ∈ newTags.values := by
    rw [helements]
    exact List.forall_mem_map.mpr fun x _ => name_valueElement x
  rw [parseValues, hparse _ _ hps hnames, helements]
  refine foldlM_values (fun x hx res => h x hx n ?_ res) []
  have hlt : (valueElement x).content.length < (render ps).length :=
    content_lt (helements ▸ List.mem_map_of_mem hx)
  omega

/-- The container of a value is read as what is read back of the value. -/
theorem decodeContainer_value (hparse : Dispatches htmlSyntax parseHtml) (v : Value) :
    ∀ n, (valueElement v).content.length < n → ∀ res,
      decodeContainer newTags (parseValues parseHtml newTags n) (valueElement v) res =
        some (putRes res (decoded v)) := by
  induction v with
  | int n =>
    intro m _ res
    exact congrArg (fun k => some (putRes res (.int k))) (castInt_decimal n)
  | str s =>
    intro n _ res
    exact congrArg (fun t => some (putRes res (.str t))) (unescape_escape s)
  | arr xs ih =>
    intro n hn res
    have hps := wellFormed_valueDoc (.arr xs)
    rw [valueDoc, wellFormed_cons, wellFormed_cons] at hps
    have hread := parseValues_list hparse ih hps.2.1.content (elements_listDoc xs) hn
    change (parseValues parseHtml newTags n (render (listDoc (valueDocs xs))) (.arr [])).map
      (putRes res) = _
    rw [hread, decoded, decodedAll_eq]
    rfl
  | set xs ih =>
    intro n hn res
    have hps := wellFormed_valueDoc (.set xs)
    rw [valueDoc, wellFormed_cons, wellFormed_cons] at hps
    have hread := parseValues_list hparse ih hps.2.1.content (elements_listDoc xs) hn
    change (parseValues parseHtml newTags n (render (listDoc (valueDocs xs))) (.arr [])).map
      (fun myres => putRes res (.set (splice myres))) = _
    rw [hread, decoded, decodedAll_eq]
    rfl
  | map es ih =>
    intro n hn res
    have hps := wellFormed_valueDoc (.map es)
    rw [valueDoc, wellFormed_cons] at hps
    have helements : elements (entriesDoc es ++ [.text [' ', ' ']]) =
        (es.flatMap fun e => [e.1, e.2]).map valueElement := by
      rw [elements_append, elements_entriesDoc, List.map_flatMap]
      exact List.append_nil _
    have hboth : ∀ x ∈ es.flatMap fun e => [e.1, e.2], ∀ n,
        (valueElement x).content.length < n → ∀ res, decodeContainer newTags
          (parseValues parseHtml newTags n) (valueElement x) res = some (putRes res (decoded x)) := by
      intro x hx
      obtain ⟨e, he, hx⟩ := List.mem_flatMap.mp hx
      obtain ⟨hkey, hvalue⟩ := ih e he
      obtain rfl | hx := List.mem_cons.mp hx
      · exact hkey
      · exact List.mem_singleton.mp hx ▸ hvalue
    have hread := parseValues_list hparse hboth hps.1.content helements hn
    have hentries : (es.flatMap fun e => [e.1, e.2]).map decoded =
        (decodedEntries es).flatMap fun e => [e.1, e.2] := by
      rw [decodedEntries_eq, List.map_flatMap, List.flatMap_map]
      rfl
    change (parseValues parseHtml newTags n (render (entriesDoc es ++ [.text [' ', ' ']]))
      (.arr [])).bind (fun myres =>
        (Value.aggregateMapping [] (splice myres)).map fun es => putRes res (.map es)) = _
    rw [hread, Option.bind_some, splice, hentries, Value.aggregateMapping_entries, decoded]
    rfl

/-! ## Variables and regions -/

/-- What a variable has in it. -/
def varContent (name : Str) (v : Value) : List Piece :=
  [.text (List.replicate (22 - (name.length + 3)) ' ')] ++ valueDoc v ++ [.text [' ']]

/-- The document that the text of a variable is. -/
def varDoc (name : Str) (v : Value) : List Piece :=
  [.text [' '], .elem newTags.var [(nameKey, name)] (varContent name v), .text ['\n']]

/-- What a region has in it. -/
def regionContent (m : Mapping Str Value) : List Piece :=
  [.text ['\n']] ++ m.entries.flatMap fun e => varDoc e.1 e.2

/-- The document that the text of a region is. -/
def regionDoc (name : Str) (m : Mapping Str Value) : List Piece :=
  [.elem regionTag [(nameKey, name)] (regionContent m), .text ['\n', '\n']]

def headerDecl : Str := '-' :: " Do not remove this number!   Caudium save file format".toList

/-- The document that the text of a configuration is. -/
def fileDoc (r : Regions) : List Piece :=
  [.text ['6', ' '], .decl headerDecl, .text ['\n', '\n']] ++
    r.entries.flatMap fun e => regionDoc e.1 e.2

theorem render_varDoc (name : Str) (v : Value) : render (varDoc name v) =
    " <var name=".toList ++ padRight (['\''] ++ name ++ ['\'', '>']) ++ encodeMixed v ++
      " </var>\n".toList := by
  have hbegin : " <var name=".toList = [' '] ++ (['<'] ++ newTags.var ++ [' '] ++ nameKey ++ ['=']) :=
    rfl
  have hend : " </var>\n".toList = [' '] ++ closing newTags.var ++ ['\n'] := rfl
  rw [hbegin, hend, varDoc, varContent, padRight]
  simp [render, Piece.render, render_append, render_valueDoc, renderAttr]

theorem render_regionDoc (name : Str) (m : Mapping Str Value) : render (regionDoc name m) =
    "<region name='".toList ++ name ++ "'>\n".toList ++ encodeConfigRegion m ++
      "</region>\n\n".toList := by
  have hbegin : "<region name='".toList =
      ['<'] ++ regionTag ++ [' '] ++ nameKey ++ ['=', '\''] := rfl
  have hopen : "'>\n".toList = ['\'', '>', '\n'] := rfl
  have hend : "</region>\n\n".toList = closing regionTag ++ ['\n', '\n'] := rfl
  rw [hbegin, hopen, hend, regionDoc, regionContent, encodeConfigRegion]
  simp [render, Piece.render, render_flatMap, render_varDoc, renderAttr]

theorem render_fileDoc (r : Regions) : render (fileDoc r) = encodeRegions r := by
  have hheader : render [.text ['6', ' '], .decl headerDecl, .text ['\n', '\n']] = header := rfl
  rw [fileDoc, render_append, render_flatMap, hheader, encodeRegions]
  simp only [render_regionDoc]

/-- What can be written between two apostrophes, and begins no tag. -/
def PlainName (s : Str) : Prop := ∀ c ∈ s, c ≠ '\'' ∧ c ≠ '<'

instance (s : Str) : Decidable (PlainName s) :=
  inferInstanceAs (Decidable (∀ c ∈ s, c ≠ '\'' ∧ c ≠ '<'))

theorem wellFormed_named {tag name : Str} (htag : IsName tag) (hname : PlainName name)
    {content : List Piece} (h : WellFormed htmlSyntax content) :
    (Piece.elem tag [(nameKey, name)] content).WellFormed htmlSyntax :=
  wellFormed_elem_one htag ⟨by decide, by decide⟩ hname h

theorem wellFormed_varContent (name : Str) (v : Value) :
    WellFormed htmlSyntax (varContent name v) := by
  have hspaces : ∀ c ∈ List.replicate (22 - (name.length + 3)) ' ', c ≠ '<' := by
    intro c hc
    rw [List.eq_of_mem_replicate hc]
    decide
  simp only [varContent, wellFormed_append, wellFormed_cons]
  exact ⟨⟨⟨wellFormed_text hspaces, wellFormed_nil⟩, wellFormed_valueDoc v⟩,
    wellFormed_text (by decide), wellFormed_nil⟩

variable {r : Regions}

theorem wellFormed_regionContent {m : Mapping Str Value}
    (hnames : ∀ v x, m.lookup v = some x → PlainName v) :
    WellFormed htmlSyntax (regionContent m) := by
  refine wellFormed_append.mpr ⟨wellFormed_cons.mpr ⟨wellFormed_text (by decide), wellFormed_nil⟩,
    wellFormed_flatMap fun e he => ?_⟩
  have hname := hnames e.1 e.2 (AList.mem_lookup_iff.mpr he)
  simp only [varDoc, wellFormed_cons]
  exact ⟨wellFormed_text (by decide), wellFormed_named ⟨by decide, by decide⟩ hname
    (wellFormed_varContent e.1 e.2), wellFormed_text (by decide), wellFormed_nil⟩

theorem wellFormed_fileDoc (hnames : r.Named PlainName PlainName) :
    WellFormed htmlSyntax (fileDoc r) := by
  have hchars : ∀ c ∈ headerDecl, c ≠ '>' ∧ c ≠ '<' ∧ c ≠ '\'' ∧ c ≠ '"' := by decide
  have hdecl : (Piece.decl headerDecl).WellFormed htmlSyntax :=
    .decl (by decide) (by decide) (by decide) (fun c hc => (hchars c hc).1)
      fun c hc => (hchars c hc).2
  rw [fileDoc, wellFormed_append]
  refine ⟨?_, wellFormed_flatMap fun e he => ?_⟩
  · simp only [wellFormed_cons]
    exact ⟨wellFormed_text (by decide), hdecl, wellFormed_text (by decide), wellFormed_nil⟩
  · obtain ⟨hname, hvars⟩ := hnames e.1 e.2 (AList.mem_lookup_iff.mpr he)
    simp only [regionDoc, wellFormed_cons]
    exact ⟨wellFormed_named ⟨by decide, by decide⟩ hname (wellFormed_regionContent hvars),
      wellFormed_text (by decide), wellFormed_nil⟩

theorem elements_regionContent (m : Mapping Str Value) : elements (regionContent m) =
    m.entries.map fun e => ⟨newTags.var, [(nameKey, e.1)], render (varContent e.1 e.2)⟩ := by
  rw [regionContent, elements_append, elements_flatMap, List.map_eq_flatMap]
  rfl

theorem elements_fileDoc (r : Regions) : elements (fileDoc r) =
    r.entries.map fun e => ⟨regionTag, [(nameKey, e.1)], render (regionContent e.2)⟩ := by
  rw [fileDoc, elements_append, elements_flatMap, List.map_eq_flatMap]
  rfl

/-- A loop in which nothing fails. -/
theorem foldlM_eq_foldl {α β : Type} {f : β → α → Option β} {g : β → α → β} :
    ∀ {xs : List α}, (∀ x ∈ xs, ∀ b, f b x = some (g b x)) → ∀ b,
      xs.foldlM f b = some (xs.foldl g b) := by
  intro xs
  induction xs with
  | nil => intro _ b; rfl
  | cons x xs ih =>
    intro h b
    rw [List.foldlM_cons, h x List.mem_cons_self, List.foldl_cons]
    exact ih (fun y hy => h y (List.mem_cons_of_mem _ hy)) (g b x)

/-- The variables that come back of a region. -/
def decodedRegion (m : Mapping Str Value) : Mapping Str Value :=
  m.entries.foldl (fun acc e => acc.insert e.1 (decoded e.2)) ∅

/-- The configuration that comes back. -/
def decodedRegions (r : Regions) : Regions :=
  r.entries.foldl (fun acc e => acc.insert e.1 (decodedRegion e.2)) ∅

/-- A variable is read under its name. -/
theorem decodeVariable_eq (hparse : Dispatches htmlSyntax parseHtml) (name : Str) (v : Value)
    {n : Nat} (hn : (render (varContent name v)).length < n) (res : Mapping Str Value) :
    decodeVariable parseHtml newTags n ⟨newTags.var, [(nameKey, name)],
      render (varContent name v)⟩ res = some (res.insert name (decoded v)) := by
  obtain ⟨n, rfl⟩ : ∃ m, n = m + 1 := ⟨n - 1, by omega⟩
  have helements : elements (varContent name v) = [valueElement v] := by
    rw [varContent, elements_append, elements_append, elements_valueDoc]
    rfl
  have hlt : (valueElement v).content.length < (render (varContent name v)).length :=
    content_lt (helements ▸ List.mem_singleton_self _)
  have hread : parseValues parseHtml newTags (n + 1) (render (varContent name v)) (.int 0) =
      some (decoded v) := by
    rw [parseValues, hparse _ _ (wellFormed_varContent name v), helements, List.foldlM_cons,
      decodeContainer_value hparse v n (by omega)]
    · rfl
    · rw [helements]
      exact List.forall_mem_singleton.mpr (name_valueElement v)
  rw [decodeVariable, hread]
  rfl

/-- A region is read under its name. -/
theorem decodeConfigRegion_eq (hparse : Dispatches htmlSyntax parseHtml) (name : Str)
    {m : Mapping Str Value} (hnames : ∀ v x, m.lookup v = some x → PlainName v) {n : Nat}
    (hn : (render (regionContent m)).length ≤ n) (res : Regions) :
    decodeConfigRegion parseHtml newTags n ⟨regionTag, [(nameKey, name)],
      render (regionContent m)⟩ res = some (res.insert name (decodedRegion m)) := by
  have helements := elements_regionContent m
  have htags : ∀ e ∈ elements (regionContent m), e.name ∈ [newTags.var] := by
    rw [helements]
    exact List.forall_mem_map.mpr fun _ _ => List.mem_singleton_self _
  have hvars : (elements (regionContent m)).foldlM
      (fun res e => decodeVariable parseHtml newTags n e res) ∅ = some (decodedRegion m) := by
    rw [helements, List.foldlM_map]
    refine foldlM_eq_foldl (fun e he res => decodeVariable_eq hparse e.1 e.2 ?_ res) ∅
    have hlt : (render (varContent e.1 e.2)).length < (render (regionContent m)).length :=
      content_lt (e := ⟨newTags.var, [(nameKey, e.1)], render (varContent e.1 e.2)⟩)
        (helements ▸ List.mem_map_of_mem he)
    omega
  rw [decodeConfigRegion, hparse _ _ (wellFormed_regionContent hnames) htags, hvars]
  rfl

/-- What is read of the text of a configuration. -/
theorem decodeConfigFile_encodeRegions (hparse : Dispatches htmlSyntax parseHtml)
    (others : Str → Option Regions) (hnames : r.Named PlainName PlainName) :
    decodeConfigFile parseHtml others (encodeRegions r) = some (decodedRegions r) := by
  have helements := elements_fileDoc r
  have htags : ∀ e ∈ elements (fileDoc r), e.name ∈ [regionTag] := by
    rw [helements]
    exact List.forall_mem_map.mpr fun _ _ => List.mem_singleton_self _
  have hcalls := hparse _ _ (wellFormed_fileDoc hnames) htags
  rw [render_fileDoc] at hcalls
  have hread : (parseHtml (encodeRegions r) [regionTag]).foldlM (fun res e =>
      decodeConfigRegion parseHtml newTags (encodeRegions r).length e res) ∅ =
        some (decodedRegions r) := by
    rw [hcalls, helements, List.foldlM_map]
    refine foldlM_eq_foldl (fun e he res => decodeConfigRegion_eq hparse e.1
      (hnames e.1 e.2 (AList.mem_lookup_iff.mpr he)).2 ?_ res) ∅
    have hlt : (render (regionContent e.2)).length < (render (fileDoc r)).length :=
      content_lt (e := ⟨regionTag, [(nameKey, e.1)], render (regionContent e.2)⟩)
        (helements ▸ List.mem_map_of_mem he)
    rw [render_fileDoc] at hlt
    omega
  exact hread

/-! ## When it is the same configuration -/

/-- The strings of a value together. -/
def strings (v : Value) : Nat := v.weigh List.length 0

/-- Strings can only get shorter, and stay as they are if none of them does. -/
theorem strings_decoded (v : Value) : strings (decoded v) ≤ strings v ∧
    (strings v ≤ strings (decoded v) → v.All Literal True) := by
  unfold strings
  have hall : ∀ {xs : List Value}, (∀ x ∈ xs, strings (decoded x) ≤ strings x ∧
      (strings x ≤ strings (decoded x) → x.All Literal True)) →
      Value.weighAll List.length 0 (decodedAll xs) ≤ Value.weighAll List.length 0 xs ∧
      (Value.weighAll List.length 0 xs ≤ Value.weighAll List.length 0 (decodedAll xs) →
        ∀ x ∈ xs, x.All Literal True) := by
    intro xs
    unfold strings
    induction xs with
    | nil => exact fun _ => ⟨Nat.le_refl _, fun _ => List.forall_mem_nil _⟩
    | cons x xs ih =>
      intro h
      obtain ⟨hx, hxs⟩ := List.forall_mem_cons.mp h
      obtain ⟨hle, hsame⟩ := ih hxs
      rw [decodedAll, Value.weighAll, Value.weighAll]
      refine ⟨by omega, fun hsum => List.forall_mem_cons.mpr ⟨hx.2 (by omega), hsame (by omega)⟩⟩
  induction v with
  | int n => exact ⟨Nat.le_refl _, fun _ => .int n⟩
  | str s =>
    obtain ⟨hle, hliteral, -⟩ := unescape_spec s
    exact ⟨hle, fun h => .str (hliteral h)⟩
  | arr xs ih =>
    obtain ⟨hle, hsame⟩ := hall ih
    rw [decoded, Value.weigh, Value.weigh]
    exact ⟨hle, fun h => .arr (hsame h)⟩
  | set xs ih =>
    obtain ⟨hle, hsame⟩ := hall ih
    rw [decoded, Value.weigh, Value.weigh]
    exact ⟨Nat.add_le_add_left hle 0, fun h => .set trivial (hsame (by omega))⟩
  | map es ih =>
    have hfold := Value.weighEntries_foldl_le List.length 0 (decodedEntries es) []
    have hentries : Value.weighEntries List.length 0 (decodedEntries es) ≤
          Value.weighEntries List.length 0 es ∧
        (Value.weighEntries List.length 0 es ≤
          Value.weighEntries List.length 0 (decodedEntries es) →
          ∀ e ∈ es, e.1.All Literal True ∧ e.2.All Literal True) := by
      clear hfold
      induction es with
      | nil => exact ⟨Nat.le_refl _, fun _ => List.forall_mem_nil _⟩
      | cons e es ihes =>
        obtain ⟨⟨hkey, hx⟩, hes⟩ := List.forall_mem_cons.mp ih
        obtain ⟨hle, hsame⟩ := ihes hes
        rw [decodedEntries, Value.weighEntries, Value.weighEntries]
        refine ⟨by omega, fun hsum => List.forall_mem_cons.mpr
          ⟨⟨hkey.2 (by omega), hx.2 (by omega)⟩, hsame (by omega)⟩⟩
    obtain ⟨hle, hsame⟩ := hentries
    rw [Value.weighEntries] at hfold
    rw [decoded, Value.weigh, Value.weigh]
    refine ⟨by omega, fun h => ?_⟩
    have hes := hsame (by omega)
    exact .map trivial (fun e he => (hes e he).1) fun e he => (hes e he).2

/-- A value in which no string has a sequence in it comes back. -/
theorem decoded_eq {v : Value} (hproper : v.Proper) (h : v.All Literal True) : decoded v = v := by
  have hall : ∀ {xs : List Value}, (∀ x ∈ xs, decoded x = x) → decodedAll xs = xs := by
    intro xs ih
    rw [decodedAll_eq, List.map_congr_left ih, List.map_id']
  induction v with
  | int n => rfl
  | str s =>
    cases h with
    | str h => exact congrArg Value.str ((unescape_spec s).2.2 h)
  | arr xs ih =>
    cases h with
    | arr h =>
      cases hproper with
      | arr hproper => rw [decoded, hall fun x hx => ih x hx (hproper x hx) (h x hx)]
  | set xs ih =>
    cases h with
    | set _ h =>
      cases hproper with
      | set hproper => rw [decoded, hall fun x hx => ih x hx (hproper x hx) (h x hx)]
  | map es ih =>
    cases h with
    | map _ hkey h =>
      cases hproper with
      | map hproperKey hproper hne =>
        have hsame : ∀ e ∈ es, (decoded e.1, decoded e.2) = e := fun e he => by
          rw [(ih e he).1 (hproperKey e he) (hkey e he), (ih e he).2 (hproper e he) (h e he)]
        have hkept : es.foldl (fun acc e => Value.putEntry acc e.1 e.2) [] = [] ++ es :=
          Value.foldl_putEntry hne
        rw [decoded, decodedEntries_eq, List.map_congr_left hsame, List.map_id', hkept,
          List.nil_append]

/-- Which values come back. -/
theorem equal_decoded_iff {v : Value} (hproper : v.Proper) :
    (decoded v).Equal v ↔ v.All Literal True := by
  constructor
  · intro h
    exact (strings_decoded v).2 (h.weigh_eq List.length 0).ge
  · intro h
    rw [decoded_eq hproper h]

theorem lookup_decodedRegion (m : Mapping Str Value) (v : Str) :
    (decodedRegion m).lookup v = (m.lookup v).map decoded :=
  m.lookup_foldl_empty (fun _ x => decoded x) v

theorem lookup_decodedRegions (r : Regions) (k : Str) :
    (decodedRegions r).lookup k = (r.lookup k).map decodedRegion :=
  Lib.Mapping.lookup_foldl_empty r (fun _ m => decodedRegion m) k

/-- Which configurations come back. -/
theorem same_decodedRegions_iff (c : Configuration) :
    (decodedRegions c.regions).Same c.regions ↔ c.regions.Every (Value.All Literal True) := by
  constructor
  · intro h k m hm v x hx
    have hk := h k
    rw [lookup_decodedRegions, hm] at hk
    cases hk with
    | some hk =>
      have hv := hk v
      rw [lookup_decodedRegion, hx] at hv
      cases hv with
      | some hv => exact (equal_decoded_iff (c.proper k m hm v x hx)).mp hv
  · intro h k
    rw [lookup_decodedRegions]
    cases hm : c.regions.lookup k with
    | none => exact .none
    | some m =>
      refine .some fun v => ?_
      rw [lookup_decodedRegion]
      cases hx : m.lookup v with
      | none => exact .none
      | some x => exact .some ((equal_decoded_iff (c.proper k m hm v x hx)).mpr (h k m hm v x hx))

/-- A dispatcher: the elements of the document that a text is. -/
def dispatch : ParseHtml := fun s _ => ((parse s).map elements).getD []

theorem dispatches_dispatch : Dispatches htmlSyntax dispatch := by
  intro names ps hps _
  rw [dispatch, parse_render hps, Option.map_some, Option.getD_some, elements_norm]

/-- A value with a nested map. -/
def sampleConfiguration : Configuration where
  regions := oneVariable "server".toList "ports".toList
    (.arr [.set [.int (-80)], .map [(.str "host".toList, .arr [])]])
  proper := every_oneVariable <| .arr <| by
    simp only [List.forall_mem_cons]
    refine ⟨.set ?_, .map ?_ ?_ (List.pairwise_singleton _ _), nofun⟩
    · exact List.forall_mem_singleton.mpr (.int _)
    · exact List.forall_mem_singleton.mpr (.str _)
    · exact List.forall_mem_singleton.mpr (.arr nofun)

/-- The string `%3c`, which is read back as a '<'. -/
def escapedConfiguration : Configuration where
  regions := oneVariable ['a'] ['b'] (.str ['%', '3', 'c'])
  proper := every_oneVariable (.str _)

end Caudium.BaseServer
