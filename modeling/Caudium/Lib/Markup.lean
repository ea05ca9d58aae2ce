import Caudium.Lib.Codec
import Caudium.Lib.Mapping
import Caudium.Lib.Search

/-!
# Marked-up text

A document is a sequence of pieces: text, tags that name no element (`<? … >`), character
data in which nothing is a tag (`<![CDATA[ … ]]>`), and elements, which are documents
again between two tags of one name. `render` writes a document. What a parser can make of
the text is the document `norm`: text that was put together of several pieces is one piece.
`parse` is such a parser, and reads every well-formed document back (`parse_render`).
-/

namespace Lib.Markup

/-- A piece of a document. -/
inductive Piece where
  | text (s : Str)
  | decl (s : Str)
  | cdata (s : Str)
  | elem (name : Str) (attrs : List (Str × Str)) (content : List Piece)

def cdataOpen : Str := ['!', '[', 'C', 'D', 'A', 'T', 'A', '[']

def cdataClose : Str := [']', ']', '>']

/-- ` key='value'`. -/
def renderAttr (a : Str × Str) : Str := [' '] ++ a.1 ++ ['=', '\''] ++ a.2 ++ ['\'']

/-- `</name>`. -/
def closing (name : Str) : Str := ['<', '/'] ++ name ++ ['>']

mutual

/-- The text of a piece. -/
def Piece.render : Piece → Str
  | .text s => s
  | .decl s => ['<'] ++ s ++ ['>']
  | .cdata s => ['<'] ++ cdataOpen ++ s ++ cdataClose
  | .elem name attrs content =>
    ['<'] ++ name ++ attrs.flatMap renderAttr ++ ['>'] ++ render content ++ closing name

/-- The text of a document. -/
def render : List Piece → Str
  | [] => []
  | p :: ps => p.render ++ render ps

end

theorem render_append (ps qs : List Piece) : render (ps ++ qs) = render ps ++ render qs := by
  induction ps with
  | nil => rfl
  | cons p ps ih => rw [List.cons_append, render, render, ih, List.append_assoc]

theorem render_flatMap {α : Type} (f : α → List Piece) (xs : List α) :
    render (xs.flatMap f) = xs.flatMap fun x => render (f x) := by
  induction xs with
  | nil => rfl
  | cons x xs ih => rw [List.flatMap_cons, render_append, ih, List.flatMap_cons]

/-- The text of documents with the same text between them. -/
theorem render_intercalate (s : Str) (ds : List (List Piece)) :
    render ([Piece.text s].intercalate ds) = s.intercalate (ds.map render) := by
  induction ds with
  | nil => rfl
  | cons d ds ih =>
    cases ds with
    | nil => simp [List.intercalate]
    | cons d' ds =>
      rw [List.intercalate_cons_cons, render_append, render_append, ih, List.map_cons, List.map_cons,
        List.map_cons, List.intercalate_cons_cons, render, render, List.append_nil, Piece.render]

/-! ## Well-formed documents -/

/-- What may stand in the parts of a document, beyond what would end the part. -/
structure Syntax where
  text : Char → Prop
  value : Char → Prop
  cdata : Char → Prop
  decl : Str → Prop

/-- The names of elements and attributes are words. -/
def IsName (s : Str) : Prop := s ≠ [] ∧ ∀ c ∈ s, c.isAlpha = true

/-- A piece from which its own parts can be told. -/
inductive Piece.WellFormed (x : Syntax) : Piece → Prop
  | text {s : Str} (h : ∀ c ∈ s, c ≠ '<' ∧ x.text c) : WellFormed x (.text s)
  | decl {c : Char} {s : Str} (hc : c.isAlpha = false) (hslash : c ≠ '/') (hbang : c ≠ '!')
      (h : ∀ d ∈ c :: s, d ≠ '>') (hx : x.decl (c :: s)) : WellFormed x (.decl (c :: s))
  | cdata {s : Str} (hend : ¬ cdataClose <:+: s) (h : ∀ c ∈ s, x.cdata c) :
      WellFormed x (.cdata s)
  | elem {name : Str} {attrs : List (Str × Str)} {content : List Piece} (hname : IsName name)
      (hkey : ∀ a ∈ attrs, IsName a.1) (hnodup : (attrs.map Prod.fst).Nodup)
      (hvalue : ∀ a ∈ attrs, ∀ c ∈ a.2, c ≠ '\'' ∧ x.value c)
      (h : ∀ p ∈ content, WellFormed x p) : WellFormed x (.elem name attrs content)

/-- A document all of whose pieces are well-formed. -/
def WellFormed (x : Syntax) (ps : List Piece) : Prop := ∀ p ∈ ps, p.WellFormed x

theorem Piece.WellFormed.mono {x y : Syntax} (htext : ∀ c, x.text c → y.text c)
    (hvalue : ∀ c, x.value c → y.value c) (hcdata : ∀ c, x.cdata c → y.cdata c)
    (hdecl : ∀ s, x.decl s → y.decl s) {p : Piece} (h : p.WellFormed x) : p.WellFormed y := by
  induction h with
  | text h => exact .text fun c hc => ⟨(h c hc).1, htext c (h c hc).2⟩
  | decl hc hslash hbang h hx => exact .decl hc hslash hbang h (hdecl _ hx)
  | cdata hend h => exact .cdata hend fun c hc => hcdata c (h c hc)
  | elem hname hkey hnodup hval _ ih =>
    exact .elem hname hkey hnodup (fun a ha c hc => ⟨(hval a ha c hc).1, hvalue c (hval a ha c hc).2⟩)
      ih

theorem wellFormed_nil {x : Syntax} : WellFormed x [] := nofun

theorem wellFormed_cons {x : Syntax} {p : Piece} {ps : List Piece} :
    WellFormed x (p :: ps) ↔ p.WellFormed x ∧ WellFormed x ps := List.forall_mem_cons

theorem wellFormed_append {x : Syntax} {ps qs : List Piece} :
    WellFormed x (ps ++ qs) ↔ WellFormed x ps ∧ WellFormed x qs := List.forall_mem_append

theorem Piece.WellFormed.content {x : Syntax} {name : Str} {attrs : List (Str × Str)}
    {content : List Piece} (h : (Piece.elem name attrs content).WellFormed x) :
    Markup.WellFormed x content := by
  cases h with | elem _ _ _ _ h => exact h

/-- An element with one attribute. -/
theorem wellFormed_elem_one {x : Syntax} {name key value : Str} {content : List Piece}
    (hname : IsName name) (hkey : IsName key) (hvalue : ∀ c ∈ value, c ≠ '\'' ∧ x.value c)
    (h : WellFormed x content) : (Piece.elem name [(key, value)] content).WellFormed x :=
  .elem hname (List.forall_mem_singleton.mpr hkey) (List.nodup_singleton _)
    (List.forall_mem_singleton.mpr hvalue) h

theorem wellFormed_flatMap {x : Syntax} {α : Type} {f : α → List Piece} {as : List α}
    (h : ∀ a ∈ as, WellFormed x (f a)) : WellFormed x (as.flatMap f) := by
  intro p hp
  obtain ⟨a, ha, hp⟩ := List.mem_flatMap.mp hp
  exact h a ha p hp

theorem wellFormed_intercalate {x : Syntax} {sep : List Piece} {ds : List (List Piece)}
    (hsep : WellFormed x sep) (h : ∀ d ∈ ds, WellFormed x d) :
    WellFormed x (sep.intercalate ds) := by
  induction ds with
  | nil => exact wellFormed_nil
  | cons d ds ih =>
    have hd := h d List.mem_cons_self
    cases ds with
    | nil =>
      rw [List.intercalate_singleton]
      exact hd
    | cons d' ds =>
      rw [List.intercalate_cons_cons, List.append_assoc]
      exact wellFormed_append.2 ⟨hd, wellFormed_append.2
        ⟨hsep, ih fun e he => h e (List.mem_cons_of_mem _ he)⟩⟩

/-- Induction over documents, with what holds of the content of an element. -/
@[elab_as_elim]
theorem induct {P : List Piece → Prop} (nil : P []) (text : ∀ s ps, P ps → P (.text s :: ps))
    (decl : ∀ s ps, P ps → P (.decl s :: ps)) (cdata : ∀ s ps, P ps → P (.cdata s :: ps))
    (elem : ∀ name attrs content ps, P content → P ps → P (.elem name attrs content :: ps))
    (ps : List Piece) : P ps :=
  @Piece.rec_1 (fun p => ∀ ps, P ps → P (p :: ps)) P text decl cdata
    (fun name attrs content h ps => elem name attrs content ps h) nil
    (fun _ ps h => h ps) ps

/-! ## What can be read of a document -/

/-- A character before what comes next. -/
def consChar (c : Char) : List Piece → List Piece
  | .text s :: ps => .text (c :: s) :: ps
  | ps => .text [c] :: ps

mutual

/-- What can be read of a piece, before what comes next. -/
def Piece.consNorm : Piece → List Piece → List Piece
  | .text s, ps => s.foldr consChar ps
  | .decl s, ps => .decl s :: ps
  | .cdata s, ps => .cdata s :: ps
  | .elem name attrs content, ps => .elem name attrs (norm content) :: ps

/-- The document in which no two texts stand next to each other, and none is empty. -/
def norm : List Piece → List Piece
  | [] => []
  | p :: ps => p.consNorm (norm ps)

end

theorem render_consChar (c : Char) (ps : List Piece) : render (consChar c ps) = c :: render ps := by
  unfold consChar
  split <;> rfl

theorem render_norm (ps : List Piece) : render (norm ps) = render ps := by
  induction ps using induct with
  | nil => rfl
  | text s ps ih =>
    rw [norm, Piece.consNorm, render, Piece.render, ← ih]
    induction s with
    | nil => rfl
    | cons c s ihs => rw [List.foldr_cons, render_consChar, ihs, List.cons_append]
  | decl s ps ih => rw [norm, Piece.consNorm, render, render, ih]
  | cdata s ps ih => rw [norm, Piece.consNorm, render, render, ih]
  | elem name attrs content ps ihcontent ih =>
    rw [norm, Piece.consNorm, render, render, ih, Piece.render, Piece.render, ihcontent]

/-! ## A parser -/

/-- The attributes of a tag, up to the end of the tag. -/
def readAttrs : Nat → Str → Option (List (Str × Str) × Str)
  | _, '>' :: s => some ([], s)
  | n + 1, ' ' :: s =>
    match s.dropWhile Char.isAlpha with
    | '=' :: '\'' :: t =>
      match t.dropWhile (· ≠ '\'') with
      | '\'' :: t' => (readAttrs n t').map fun r =>
        ((s.takeWhile Char.isAlpha, t.takeWhile (· ≠ '\'')) :: r.1, r.2)
      | _ => none
    | _ => none
  | _, _ => none

/-- The pieces up to the end of the text, or up to a closing tag. -/
def pieces : Nat → Str → Option (List Piece × Str)
  | 0, _ => none
  | _ + 1, [] => some ([], [])
  | _ + 1, '<' :: '/' :: s => some ([], '<' :: '/' :: s)
  | n + 1, '<' :: s =>
    if cdataOpen <+: s then
      (Lib.cut (s.drop cdataOpen.length) cdataClose).bind fun (body, rest) =>
        (pieces n rest).map fun r => (.cdata body :: r.1, r.2)
    else if s.takeWhile Char.isAlpha = [] then
      (Lib.cut s ['>']).bind fun (body, rest) =>
        (pieces n rest).map fun r => (.decl body :: r.1, r.2)
    else
      (readAttrs n (s.dropWhile Char.isAlpha)).bind fun (attrs, inside) =>
        (pieces n inside).bind fun (content, rest) =>
          if closing (s.takeWhile Char.isAlpha) <+: rest then
            (pieces n (rest.drop (closing (s.takeWhile Char.isAlpha)).length)).map fun r =>
              (.elem (s.takeWhile Char.isAlpha) attrs content :: r.1, r.2)
          else none
  | n + 1, c :: s => (pieces n s).map fun r => (consChar c r.1, r.2)

/-- The document a text is. -/
def parse (s : Str) : Option (List Piece) :=
  match pieces (s.length + 1) s with
  | some (ps, []) => some ps
  | _ => none

theorem span_word {p : Char → Bool} {w t : Str} (hw : ∀ c ∈ w, p c = true)
    (ht : ∀ c ∈ t.head?, p c = false) :
    (w ++ t).takeWhile p = w ∧ (w ++ t).dropWhile p = t := by
  rw [List.takeWhile_append_of_pos hw, List.dropWhile_append_of_pos hw]
  cases t with
  | nil => exact ⟨List.append_nil w, rfl⟩
  | cons c t =>
    have hc := ht c rfl
    rw [List.takeWhile_cons_of_neg (by rw [hc]; exact Bool.false_ne_true),
      List.dropWhile_cons_of_neg (by rw [hc]; exact Bool.false_ne_true), List.append_nil]
    exact ⟨rfl, rfl⟩

/-- The attributes of a tag are read back. -/
theorem readAttrs_render {attrs : List (Str × Str)} (hkey : ∀ a ∈ attrs, IsName a.1)
    (hvalue : ∀ a ∈ attrs, ∀ c ∈ a.2, c ≠ '\'') (rest : Str) :
    ∀ n, attrs.length ≤ n →
      readAttrs n (attrs.flatMap renderAttr ++ '>' :: rest) = some (attrs, rest) := by
  induction attrs with
  | nil => intro n _; cases n <;> rfl
  | cons a attrs ih =>
    intro n hn
    obtain ⟨n, rfl⟩ : ∃ m, n = m + 1 := ⟨n - 1, by simp at hn; omega⟩
    have hspan := span_word (hkey a List.mem_cons_self).2 (t := '=' :: '\'' :: (a.2 ++ '\'' ::
      (attrs.flatMap renderAttr ++ '>' :: rest))) (by simp)
    have hspan' := span_word (p := (· ≠ '\'')) (w := a.2) (t := '\'' ::
      (attrs.flatMap renderAttr ++ '>' :: rest))
      (fun c hc => decide_eq_true (hvalue a List.mem_cons_self c hc)) (by simp)
    have htext : (a :: attrs).flatMap renderAttr ++ '>' :: rest = ' ' :: (a.1 ++ '=' :: '\'' ::
        (a.2 ++ '\'' :: (attrs.flatMap renderAttr ++ '>' :: rest))) := by
      simp [renderAttr]
    rw [htext, readAttrs, hspan.2, hspan.1]
    simp only [hspan'.1, hspan'.2]
    rw [ih (fun b hb => hkey b (List.mem_cons_of_mem _ hb))
      (fun b hb => hvalue b (List.mem_cons_of_mem _ hb)) n (by simpa using hn)]
    rfl

/-- A text is cut at what was written after it, if that does not begin any earlier. -/
theorem cut_append {s pat : Str} (rest : Str)
    (h : ∀ j < s.length, ¬ pat <+: (s ++ pat ++ rest).drop j) :
    Lib.cut (s ++ pat ++ rest) pat = some (s, rest) := by
  have hat : pat <+: (s ++ pat ++ rest).drop s.length := by
    rw [List.append_assoc, List.drop_left]
    exact List.prefix_append _ _
  rw [Lib.cut, Lib.search_eq_some.mpr ⟨hat, h⟩, Option.map_some, List.append_assoc, List.take_left,
    ← List.append_assoc, ← List.length_append, List.drop_left]

/-- Character data end where their end was written. -/
theorem cut_cdata {s : Str} (h : ¬ cdataClose <:+: s) (rest : Str) :
    Lib.cut (s ++ cdataClose ++ rest) cdataClose = some (s, rest) := by
  refine cut_append rest fun j hj hat => ?_
  by_cases hle : j + cdataClose.length ≤ s.length
  · rw [List.append_assoc, Lib.prefix_drop_append hle] at hat
    exact h (hat.isInfix.trans (List.drop_suffix j s).isInfix)
  · -- the last character of an end that begins in `s` would be one of the brackets after `s`
    have hlast : (s ++ (']' :: ']' :: '>' :: rest))[j + 2]? = some '>' := by
      obtain ⟨t, ht⟩ := hat
      have h2 : ((s ++ cdataClose ++ rest).drop j)[2]? = some '>' := by
        rw [← ht]
        rfl
      rwa [List.getElem?_drop, List.append_assoc] at h2
    have hlen : cdataClose.length = 3 := rfl
    rw [List.getElem?_append_right (by omega)] at hlast
    obtain hone | htwo : j + 2 - s.length = 0 ∨ j + 2 - s.length = 1 := by omega
    · rw [hone] at hlast
      cases hlast
    · rw [htwo] at hlast
      cases hlast

/-- The text after a document: nothing, or a closing tag. -/
def Closed (t : Str) : Prop := t = [] ∨ ∃ u, t = '<' :: '/' :: u

theorem pieces_closed {t : Str} (h : Closed t) (n : Nat) : pieces (n + 1) t = some ([], t) := by
  obtain rfl | ⟨u, rfl⟩ := h
  · rfl
  · rfl

/-- A character of a text is read before what comes after it. -/
theorem pieces_char {c : Char} (hc : c ≠ '<') (s : Str) (n : Nat) :
    pieces (n + 1) (c :: s) = (pieces n s).map fun r => (consChar c r.1, r.2) := by
  rw [pieces]
  · exact fun _ h => absurd h hc
  · exact hc

/-- What a tag that closes nothing can be. -/
theorem pieces_tag {s : Str} (hs : s.head? ≠ some '/') (n : Nat) : pieces (n + 1) ('<' :: s) =
    if cdataOpen <+: s then
      (Lib.cut (s.drop cdataOpen.length) cdataClose).bind fun (body, rest) =>
        (pieces n rest).map fun r => (.cdata body :: r.1, r.2)
    else if s.takeWhile Char.isAlpha = [] then
      (Lib.cut s ['>']).bind fun (body, rest) =>
        (pieces n rest).map fun r => (.decl body :: r.1, r.2)
    else
      (readAttrs n (s.dropWhile Char.isAlpha)).bind fun (attrs, inside) =>
        (pieces n inside).bind fun (content, rest) =>
          if closing (s.takeWhile Char.isAlpha) <+: rest then
            (pieces n (rest.drop (closing (s.takeWhile Char.isAlpha)).length)).map fun r =>
              (.elem (s.takeWhile Char.isAlpha) attrs content :: r.1, r.2)
          else none := by
  rw [pieces]
  intro u hu
  rw [hu] at hs
  exact hs rfl

/-- Character data are read before what comes after them. -/
theorem pieces_cdata {s : Str} (h : ¬ cdataClose <:+: s) (t : Str) (n : Nat) :
    pieces (n + 1) ((Piece.cdata s).render ++ t) =
      (pieces n t).map fun r => (.cdata s :: r.1, r.2) := by
  have htext : (Piece.cdata s).render ++ t = '<' :: (cdataOpen ++ (s ++ cdataClose ++ t)) := by
    simp [Piece.render]
  have hhead : (cdataOpen ++ (s ++ cdataClose ++ t)).head? ≠ some '/' :=
    fun h => absurd (Option.some.inj h) (by decide)
  rw [htext, pieces_tag hhead, if_pos (List.prefix_append _ _), List.drop_left, cut_cdata h]
  rfl

/-- A tag that names no element is read before what comes after it. -/
theorem pieces_decl {x : Syntax} {s : Str} (h : (Piece.decl s).WellFormed x) (t : Str) (n : Nat) :
    pieces (n + 1) ((Piece.decl s).render ++ t) =
      (pieces n t).map fun r => (.decl s :: r.1, r.2) := by
  cases h with
  | @decl c s hc hslash hbang h =>
    have htext : (Piece.decl (c :: s)).render ++ t = '<' :: c :: (s ++ '>' :: t) := by
      simp [Piece.render]
    have hopen : ¬ cdataOpen <+: c :: (s ++ '>' :: t) := fun hprefix =>
      hbang (List.cons_prefix_cons.mp hprefix).1.symm
    have hhead : (c :: (s ++ '>' :: t)).head? ≠ some '/' := fun h => hslash (Option.some.inj h)
    rw [htext, pieces_tag hhead, if_neg hopen, if_pos (List.takeWhile_cons_of_neg (by simp [hc])),
      ← List.cons_append, Lib.cut_char fun hmem => h '>' hmem rfl]
    rfl

/-- An element whose content is read is read before what comes after it. -/
theorem pieces_elem {x : Syntax} {name : Str} {attrs : List (Str × Str)} {content ps : List Piece}
    (h : (Piece.elem name attrs content).WellFormed x) (t : Str) {n : Nat} (hn : attrs.length ≤ n)
    (hcontent : ∀ t, Closed t → pieces n (render content ++ t) = some (ps, t)) :
    pieces (n + 1) ((Piece.elem name attrs content).render ++ t) =
      (pieces n t).map fun r => (.elem name attrs ps :: r.1, r.2) := by
  cases h with
  | elem hname hkey _ hvalue =>
    obtain ⟨c, name, rfl⟩ := List.exists_cons_of_ne_nil hname.1
    have hc := hname.2 c List.mem_cons_self
    have htext : (Piece.elem (c :: name) attrs content).render ++ t = '<' :: ((c :: name) ++
        (attrs.flatMap renderAttr ++ '>' :: (render content ++ (closing (c :: name) ++ t)))) := by
      simp [Piece.render]
    have hspan := span_word hname.2 (t := attrs.flatMap renderAttr ++ '>' ::
      (render content ++ (closing (c :: name) ++ t))) (by cases attrs <;> simp [renderAttr])
    have hattrs := readAttrs_render hkey (fun a ha d hd => (hvalue a ha d hd).1)
      (render content ++ (closing (c :: name) ++ t)) n hn
    have hclosed : Closed (closing (c :: name) ++ t) := Or.inr ⟨_, rfl⟩
    have hopen : ¬ cdataOpen <+: (c :: name) ++ (attrs.flatMap renderAttr ++ '>' ::
        (render content ++ (closing (c :: name) ++ t))) := fun hprefix => by
      rw [← (List.cons_prefix_cons.mp hprefix).1] at hc
      exact absurd hc (by decide)
    have hhead : ((c :: name) ++ (attrs.flatMap renderAttr ++ '>' ::
        (render content ++ (closing (c :: name) ++ t)))).head? ≠ some '/' := fun hhead => by
      rw [Option.some.inj hhead] at hc
      exact absurd hc (by decide)
    rw [htext, pieces_tag hhead, if_neg hopen, hspan.1, hspan.2, if_neg (List.cons_ne_nil _ _),
      hattrs, Option.bind_some]
    dsimp only
    rw [hcontent _ hclosed, Option.bind_some, if_pos (List.prefix_append _ _), List.drop_left]

/-- A document is read back, up to a closing tag. -/
theorem pieces_render {x : Syntax} (ps : List Piece) : WellFormed x ps → ∀ (t : Str), Closed t →
    ∀ n, (render ps).length < n → pieces n (render ps ++ t) = some (norm ps, t) := by
  induction ps using induct with
  | nil =>
    intro _ t ht n hn
    obtain ⟨n, rfl⟩ : ∃ m, n = m + 1 := ⟨n - 1, by omega⟩
    exact pieces_closed ht n
  | text s ps ih =>
    intro h t ht n hn
    obtain ⟨hs, hps⟩ := wellFormed_cons.1 h
    rw [render, Piece.render] at hn ⊢
    rw [norm, Piece.consNorm]
    cases hs with
    | text hs =>
      clear h
      induction s generalizing n with
      | nil => exact ih hps t ht n hn
      | cons c s ihs =>
        obtain ⟨hc, hs⟩ := List.forall_mem_cons.mp hs
        obtain ⟨n, rfl⟩ : ∃ m, n = m + 1 := ⟨n - 1, by omega⟩
        rw [List.cons_append, List.cons_append, pieces_char hc.1, ihs n (by simpa using hn) hs]
        rfl
  | decl s ps ih =>
    intro h t ht n hn
    obtain ⟨hs, hps⟩ := wellFormed_cons.1 h
    obtain ⟨n, rfl⟩ : ∃ m, n = m + 1 := ⟨n - 1, by omega⟩
    rw [render, List.append_assoc, pieces_decl hs, ih hps t ht n]
    · rfl
    · simp [render, Piece.render] at hn
      omega
  | cdata s ps ih =>
    intro h t ht n hn
    obtain ⟨hs, hps⟩ := wellFormed_cons.1 h
    obtain ⟨n, rfl⟩ : ∃ m, n = m + 1 := ⟨n - 1, by omega⟩
    cases hs with
    | cdata hs =>
      rw [render, List.append_assoc, pieces_cdata hs, ih hps t ht n]
      · rfl
      · simp [render, Piece.render] at hn
        omega
  | elem name attrs content ps ihcontent ih =>
    intro h t ht n hn
    obtain ⟨hs, hps⟩ := wellFormed_cons.1 h
    obtain ⟨n, rfl⟩ : ∃ m, n = m + 1 := ⟨n - 1, by omega⟩
    have hattrs : attrs.length ≤ (attrs.flatMap renderAttr).length :=
      card_le_flatMap renderAttr fun a _ => by simp [renderAttr]
    simp only [render, Piece.render, List.length_append, List.length_cons] at hn
    rw [render, List.append_assoc, pieces_elem hs _ (by omega)
      (fun t ht => ihcontent hs.content t ht n (by omega)), ih hps t ht n (by omega)]
    rfl

/-- A well-formed document is read back. -/
theorem parse_render {x : Syntax} {ps : List Piece} (h : WellFormed x ps) :
    parse (render ps) = some (norm ps) := by
  have hread := pieces_render ps h [] (Or.inl rfl) ((render ps).length + 1) (Nat.lt_succ_self _)
  rw [List.append_nil] at hread
  rw [parse, hread]

/-! ## Elements and trees -/

/-- An element, with its content as it is written. -/
structure Element where
  name : Str
  attrs : List (Str × Str)
  content : Str
deriving DecidableEq

/-- The elements of a document that stand in no other element. -/
def elements : List Piece → List Element
  | [] => []
  | .elem name attrs content :: ps => ⟨name, attrs, render content⟩ :: elements ps
  | _ :: ps => elements ps

theorem elements_append (ps qs : List Piece) :
    elements (ps ++ qs) = elements ps ++ elements qs := by
  induction ps with
  | nil => rfl
  | cons p ps ih => cases p <;> simp [elements, ih]

theorem elements_flatMap {α : Type} (f : α → List Piece) (xs : List α) :
    elements (xs.flatMap f) = xs.flatMap fun x => elements (f x) := by
  induction xs with
  | nil => rfl
  | cons x xs ih => rw [List.flatMap_cons, elements_append, ih, List.flatMap_cons]

/-- What an element has in it is shorter than the document. -/
theorem content_lt {ps : List Piece} {e : Element} (h : e ∈ elements ps) :
    e.content.length < (render ps).length := by
  induction ps with
  | nil => cases h
  | cons p ps ih =>
    rw [render, List.length_append]
    cases p with
    | elem name attrs content =>
      obtain rfl | h := List.mem_cons.mp h
      · simp only [Piece.render, closing, List.length_append, List.length_cons]
        omega
      · exact Nat.lt_add_left _ (ih h)
    | _ => exact Nat.lt_add_left _ (ih h)

/-- Between documents text adds no element. -/
theorem elements_intercalate (s : Str) (ds : List (List Piece)) :
    elements ([Piece.text s].intercalate ds) = ds.flatMap elements := by
  induction ds with
  | nil => rfl
  | cons d ds ih =>
    cases ds with
    | nil => simp [List.intercalate]
    | cons d' ds =>
      rw [List.intercalate_cons_cons, elements_append, elements_append, ih, List.flatMap_cons]
      simp [elements]

theorem elements_consChar (c : Char) (ps : List Piece) :
    elements (consChar c ps) = elements ps := by
  unfold consChar
  split <;> rfl

theorem elements_norm (ps : List Piece) : elements (norm ps) = elements ps := by
  induction ps with
  | nil => rfl
  | cons p ps ih =>
    cases p with
    | text s =>
      change elements (s.foldr consChar (norm ps)) = elements ps
      rw [← ih]
      induction s with
      | nil => rfl
      | cons c s ihs => rw [List.foldr_cons, elements_consChar, ihs]
    | decl s => exact ih
    | cdata s => exact ih
    | elem name attrs content => rw [norm, Piece.consNorm, elements, elements, ih, render_norm]

/-- A node of the tree that a document is. -/
inductive Node where
  | text (s : Str)
  | other
  | elem (name : Str) (attrs : List (Str × Str)) (children : List Node)

/-- Text before the next node: text stands in one node, and no node has none. -/
def addText (s : Str) (ns : List Node) : List Node :=
  if s = [] then ns else
    match ns with
    | .text t :: ns => .text (s ++ t) :: ns
    | ns => .text s :: ns

mutual

/-- A piece as a node before the next one. -/
def Piece.addNode : Piece → List Node → List Node
  | .text s, ns => addText s ns
  | .cdata s, ns => addText s ns
  | .decl _, ns => .other :: ns
  | .elem name attrs content, ns => .elem name attrs (tree content) :: ns

/-- The nodes of a document. -/
def tree : List Piece → List Node
  | [] => []
  | p :: ps => p.addNode (tree ps)

end

theorem addText_cons (c : Char) (s : Str) (ns : List Node) :
    addText (c :: s) ns = addText [c] (addText s ns) := by
  cases s with
  | nil => rfl
  | cons d s =>
    cases ns with
    | nil => rfl
    | cons n ns => cases n <;> rfl

theorem tree_consChar (c : Char) (ps : List Piece) :
    tree (consChar c ps) = addText [c] (tree ps) := by
  cases ps with
  | nil => rfl
  | cons p ps =>
    cases p with
    | text s => exact addText_cons c s (tree ps)
    | _ => rfl

theorem tree_norm (ps : List Piece) : tree (norm ps) = tree ps := by
  induction ps using induct with
  | nil => rfl
  | text s ps ih =>
    rw [norm, Piece.consNorm, tree, Piece.addNode, ← ih]
    induction s with
    | nil => rfl
    | cons c s ihs => rw [List.foldr_cons, tree_consChar, ihs, ← addText_cons]
  | decl s ps ih => rw [norm, Piece.consNorm, tree, tree, ih, Piece.addNode]
  | cdata s ps ih => rw [norm, Piece.consNorm, tree, tree, ih]
  | elem name attrs content ps ihcontent ih =>
    rw [norm, Piece.consNorm, tree, tree, ih, Piece.addNode, Piece.addNode, ihcontent]

/-- Text in one node after the other. -/
theorem addText_append (s t : Str) (ns : List Node) :
    addText (s ++ t) ns = addText s (addText t ns) := by
  induction s with
  | nil => rfl
  | cons c s ih => rw [List.cons_append, addText_cons, ih, ← addText_cons]

mutual

/-- A node before the next one, where text is put together. -/
def Node.merge : Node → List Node → List Node
  | .text s, ns => addText s ns
  | .other, ns => .other :: ns
  | .elem name attrs children, ns => .elem name attrs (mergeTexts children) :: ns

/-- The nodes, where text that is in several of them is put together. -/
def mergeTexts : List Node → List Node
  | [] => []
  | n :: ns => n.merge (mergeTexts ns)

end

theorem mergeTexts_addText (s : Str) (ns : List Node) :
    mergeTexts (addText s ns) = addText s (mergeTexts ns) := by
  by_cases hs : s = []
  · rw [hs]
    rfl
  · cases ns with
    | nil =>
      have hadd : addText s [] = [.text s] := if_neg hs
      rw [hadd]
      rfl
    | cons n ns =>
      cases n with
      | text t =>
        have hadd : addText s (.text t :: ns) = .text (s ++ t) :: ns := if_neg hs
        rw [hadd, mergeTexts, Node.merge, addText_append]
        rfl
      | other =>
        have hadd : addText s (.other :: ns) = .text s :: .other :: ns := if_neg hs
        rw [hadd]
        rfl
      | elem name attrs children =>
        have hadd : addText s (.elem name attrs children :: ns) =
            .text s :: .elem name attrs children :: ns := if_neg hs
        rw [hadd]
        rfl

/-- In the tree of a document all text is put together. -/
theorem mergeTexts_tree (ps : List Piece) : mergeTexts (tree ps) = tree ps := by
  induction ps using induct with
  | nil => rfl
  | text s ps ih => rw [tree, Piece.addNode, mergeTexts_addText, ih]
  | decl s ps ih => rw [tree, Piece.addNode, mergeTexts, ih, Node.merge]
  | cdata s ps ih => rw [tree, Piece.addNode, mergeTexts_addText, ih]
  | elem name attrs content ps ihcontent ih =>
    rw [tree, Piece.addNode, mergeTexts, ih, Node.merge, ihcontent]

/-- Induction over the nodes of a tree, with what holds of the children of an element. -/
@[elab_as_elim]
theorem nodesInduct {P : List Node → Prop} (nil : P []) (text : ∀ s ns, P ns → P (.text s :: ns))
    (other : ∀ ns, P ns → P (.other :: ns))
    (elem : ∀ name attrs children ns, P children → P ns → P (.elem name attrs children :: ns))
    (ns : List Node) : P ns :=
  @Node.rec_1 (fun n => ∀ ns, P ns → P (n :: ns)) P text other
    (fun name attrs children h ns => elem name attrs children ns h) nil (fun _ ns h => h ns) ns

end Lib.Markup
