import Caudium.Config.Files

/-!
# What is left of a configuration file after `save`

The text that `save` writes is an XML document (`fileDoc`) as long as names and strings can
stand in it as they are. Where the parser makes the tree of the document, the walk makes of
each value `kept`: multisets and mappings are gone, and so are the variables without a name
and the variable `@name@`, which the walk itself uses.

`saved_iff` says of which files the contents come back: of those with neither multisets nor
mappings, without empty names and without `@name@`.
-/

namespace Caudium.Config

open Lib (Str Mapping Value)
open Lib.Markup
open Http (castInt isBlank)

/-! ## The text as a document -/

mutual

/-- The piece that the text of a value is. -/
def valueDoc : Value → Piece
  | .int n => .elem intTag [] [.text (decimal n)]
  | .str s => .elem strTag [] [.cdata s]
  | .arr xs => .elem arrayTag [] (valueDocs xs)
  | .set xs => .elem listTag [] [.elem arrayTag [] (valueDocs xs)]
  | .map es => .elem mapTag [] (entryDocs es)

def valueDocs : List Value → List Piece
  | [] => []
  | x :: xs => valueDoc x :: valueDocs xs

def entryDocs : List (Value × Value) → List Piece
  | [] => []
  | (k, x) :: es => [valueDoc k, .text [':'], valueDoc x, .text ['\n']] ++ entryDocs es

end

/-- The document that the text of a variable is. -/
def varDoc (name : Str) (v : Value) : List Piece :=
  [.text ['\t'], .elem varTag [(nameKey, name)] [valueDoc v], .text ['\n']]

/-- What a region has in it. -/
def regionContent (m : Mapping Str Value) : List Piece :=
  .text ['\n'] :: m.entries.flatMap fun var => varDoc var.1 var.2

/-- The document that the text of a region is. -/
def regionDoc (name : Str) (m : Mapping Str Value) : List Piece :=
  [.elem regionTag [(nameKey, name)] (regionContent m), .text ['\n', '\n']]

/-- What the element of a configuration file has in it. -/
def cfgContent (r : Regions) : List Piece :=
  .text ['\n'] :: r.entries.flatMap fun reg => regionDoc reg.1 reg.2

def prologDecl : Str := '?' :: "xml version=\"1.0\"?".toList

/-- The document that the text of a configuration file is. -/
def fileDoc (r : Regions) : List Piece :=
  [.decl prologDecl, .text ['\n'], .elem cfgTag [] (cfgContent r)]

theorem renderXml_elem (tname : Str) (attrs : List (Str × Str)) (content : List Piece) :
    (Piece.elem tname attrs content).render = renderXml tname attrs (render content) false := by
  rw [Piece.render, renderXml, closing]
  simp only [Bool.false_eq_true, if_false, List.append_nil, List.append_assoc]

theorem render_valueDoc (v : Value) : (valueDoc v).render = getTypeDesc v := by
  have hall : ∀ {xs : List Value}, (∀ x ∈ xs, (valueDoc x).render = getTypeDesc x) →
      render (valueDocs xs) = getTypeDescs xs := by
    intro xs ih
    induction xs with
    | nil => rfl
    | cons x xs ihxs =>
      obtain ⟨hx, hxs⟩ := List.forall_mem_cons.mp ih
      rw [valueDocs, render, hx, ihxs hxs, getTypeDescs]
  induction v with
  | int n => rw [valueDoc, renderXml_elem, render, render, Piece.render, List.append_nil, getTypeDesc]
  | str s => rw [valueDoc, renderXml_elem, render, render, Piece.render, List.append_nil, getTypeDesc]
  | arr xs ih => rw [valueDoc, renderXml_elem, hall ih, getTypeDesc]
  | set xs ih =>
    rw [valueDoc, renderXml_elem, render, render, renderXml_elem, hall ih, List.append_nil,
      getTypeDesc]
  | map es ih =>
    have hentries : render (entryDocs es) = entryDescs es := by
      induction es with
      | nil => rfl
      | cons e es ihes =>
        obtain ⟨⟨hkey, hx⟩, hes⟩ := List.forall_mem_cons.mp ih
        simp only [entryDocs, entryDescs, render_append, render, hkey, hx, Piece.render, ihes hes,
          List.append_nil, List.append_assoc]
    rw [valueDoc, renderXml_elem, hentries, getTypeDesc]

theorem render_varDoc (name : Str) (v : Value) :
    render (varDoc name v) = renderVariable v name := by
  simp only [varDoc, renderVariable, renderXml, render, Piece.render, render_valueDoc, closing,
    List.append_nil, List.append_assoc, Bool.false_eq_true, if_false]

theorem render_regionDoc (name : Str) (m : Mapping Str Value) : render (regionDoc name m) =
    renderXml regionTag [(nameKey, name)]
      (m.entries.flatMap fun var => renderVariable var.2 var.1) true ++ ['\n', '\n'] := by
  simp only [regionDoc, regionContent, render, render_flatMap, render_varDoc, Piece.render,
    renderXml, List.append_nil, List.append_assoc, if_true]
  rfl

theorem render_fileDoc (r : Regions) : render (fileDoc r) = save r := by
  have hprolog : xmlProlog = (Piece.decl prologDecl).render ++ ['\n'] ++
      (['<'] ++ cfgTag ++ ['>'] ++ ['\n']) := rfl
  have hepilog : xmlEpilog = closing cfgTag := rfl
  rw [save, hprolog, hepilog]
  simp [fileDoc, cfgContent, render, render_flatMap, render_regionDoc, Piece.render, closing]

/-! ## Well-formed XML -/

/-- The characters that XML carries as they are: a carriage return is read as a line feed. -/
def XmlChar (c : Char) : Prop := c = '\t' ∨ c = '\n' ∨ 32 ≤ c.toNat

instance (c : Char) : Decidable (XmlChar c) :=
  inferInstanceAs (Decidable (c = '\t' ∨ c = '\n' ∨ 32 ≤ c.toNat))

/-- What XML reads as it is written. In the value of an attribute white space is a blank. -/
def xmlSyntax : Syntax where
  text c := XmlChar c ∧ c ≠ '&' ∧ c ≠ '>'
  value c := 32 ≤ c.toNat ∧ c ≠ '&' ∧ c ≠ '<'
  cdata := XmlChar
  decl _ := False

/-- What can stand between two apostrophes. -/
def PlainName (s : Str) : Prop := ∀ c ∈ s, c ≠ '\'' ∧ 32 ≤ c.toNat ∧ c ≠ '&' ∧ c ≠ '<'

instance (s : Str) : Decidable (PlainName s) :=
  inferInstanceAs (Decidable (∀ c ∈ s, c ≠ '\'' ∧ 32 ≤ c.toNat ∧ c ≠ '&' ∧ c ≠ '<'))

/-- What can stand between `<![CDATA[` and `]]>`. -/
def PlainString (s : Str) : Prop := ¬ cdataClose <:+: s ∧ ∀ c ∈ s, XmlChar c

def isElem : Node → Bool
  | .elem _ _ _ => true
  | _ => false

/-- Of every well-formed document the parser makes a tree with its element. Text of which it
makes several nodes is put together here. -/
def Parses (parseInput : ParseInput) : Prop :=
  ∀ s name attrs content, (∀ c ∈ s, c = '\n' ∨ c = ' ') →
    (Piece.elem name attrs content).WellFormed xmlSyntax →
    ∃ ns, parseInput (render [.decl prologDecl, .text s, .elem name attrs content]) = some ns ∧
      mergeTexts (ns.filter isElem) = [.elem name attrs (tree content)]

theorem wellFormed_text {s : Str} (h : ∀ c ∈ s, c ≠ '<' ∧ XmlChar c ∧ c ≠ '&' ∧ c ≠ '>') :
    (Piece.text s).WellFormed xmlSyntax := .text h

theorem wellFormed_elem {name : Str} {content : List Piece} (hname : IsName name)
    (h : WellFormed xmlSyntax content) : (Piece.elem name [] content).WellFormed xmlSyntax :=
  .elem hname nofun List.nodup_nil nofun h

theorem wellFormed_named {tag name : Str} (htag : IsName tag) (hname : PlainName name)
    {content : List Piece} (h : WellFormed xmlSyntax content) :
    (Piece.elem tag [(nameKey, name)] content).WellFormed xmlSyntax :=
  wellFormed_elem_one htag ⟨by decide, by decide⟩ hname h

theorem wellFormed_one {p : Piece} (h : p.WellFormed xmlSyntax) : WellFormed xmlSyntax [p] :=
  List.forall_mem_singleton.mpr h

theorem plain_decimal (n : Int) : ∀ c ∈ decimal n, c ≠ '<' ∧ XmlChar c ∧ c ≠ '&' ∧ c ≠ '>' := by
  have hdigits : ∀ c ∈ Nat.toDigits 10 n.natAbs, c ≠ '<' ∧ XmlChar c ∧ c ≠ '&' ∧ c ≠ '>' := by
    intro c hc
    have hdigit := isDigit_of_mem hc
    have hbounds := digit_bounds hdigit
    exact ⟨digit_ne hdigit (by decide), Or.inr (Or.inr (by omega)), digit_ne hdigit (by decide),
      digit_ne hdigit (by decide)⟩
  unfold decimal
  split
  · exact List.forall_mem_cons.mpr ⟨by decide, hdigits⟩
  · exact hdigits

theorem wellFormed_valueDoc {v : Value} (h : v.All PlainString True) :
    (valueDoc v).WellFormed xmlSyntax := by
  have hall : ∀ {xs : List Value}, (∀ x ∈ xs, (valueDoc x).WellFormed xmlSyntax) →
      WellFormed xmlSyntax (valueDocs xs) := by
    intro xs ih
    induction xs with
    | nil => exact wellFormed_nil
    | cons x xs ihxs =>
      obtain ⟨hx, hxs⟩ := List.forall_mem_cons.mp ih
      exact wellFormed_cons.mpr ⟨hx, ihxs hxs⟩
  induction v with
  | int n =>
    rw [valueDoc]
    exact wellFormed_elem ⟨by decide, by decide⟩ (wellFormed_one (wellFormed_text (plain_decimal n)))
  | str s =>
    cases h with
    | str h =>
      rw [valueDoc]
      exact wellFormed_elem ⟨by decide, by decide⟩ (wellFormed_one (.cdata h.1 h.2))
  | arr xs ih =>
    cases h with
    | arr h =>
      rw [valueDoc]
      exact wellFormed_elem ⟨by decide, by decide⟩ (hall fun x hx => ih x hx (h x hx))
  | set xs ih =>
    cases h with
    | set _ h =>
      rw [valueDoc]
      exact wellFormed_elem ⟨by decide, by decide⟩ (wellFormed_one
        (wellFormed_elem ⟨by decide, by decide⟩ (hall fun x hx => ih x hx (h x hx))))
  | map es ih =>
    cases h with
    | map _ hkey h =>
      have hentries : WellFormed xmlSyntax (entryDocs es) := by
        induction es with
        | nil => exact wellFormed_nil
        | cons e es ihes =>
          obtain ⟨he, hes⟩ := List.forall_mem_cons.mp ih
          obtain ⟨hkeyHead, hkeyTail⟩ := List.forall_mem_cons.mp hkey
          obtain ⟨hHead, hTail⟩ := List.forall_mem_cons.mp h
          simp only [entryDocs, wellFormed_append, wellFormed_cons]
          exact ⟨⟨he.1 hkeyHead, wellFormed_text (by decide), he.2 hHead,
            wellFormed_text (by decide), wellFormed_nil⟩, ihes hes hkeyTail hTail⟩
      rw [valueDoc]
      exact wellFormed_elem ⟨by decide, by decide⟩ hentries

variable {r : Regions}

/-- The names and strings of a configuration can be written as they are. -/
structure Plain (r : Regions) : Prop where
  names : r.Named PlainName PlainName
  strings : r.Every (Value.All PlainString True)

theorem Plain.cfgContent (h : Plain r) : WellFormed xmlSyntax (cfgContent r) := by
  refine wellFormed_cons.mpr ⟨wellFormed_text (by decide), wellFormed_flatMap fun reg hreg => ?_⟩
  have hlookup := AList.mem_lookup_iff.mpr hreg
  obtain ⟨hname, hvars⟩ := h.names _ _ hlookup
  have hcontent : WellFormed xmlSyntax (regionContent reg.2) := by
    refine wellFormed_cons.mpr ⟨wellFormed_text (by decide), wellFormed_flatMap fun var hvar => ?_⟩
    have hvalue := AList.mem_lookup_iff.mpr hvar
    simp only [varDoc, wellFormed_cons]
    exact ⟨wellFormed_text (by decide), wellFormed_named ⟨by decide, by decide⟩ (hvars _ _ hvalue)
      (wellFormed_one (wellFormed_valueDoc (h.strings _ _ hlookup _ _ hvalue))),
      wellFormed_text (by decide), wellFormed_nil⟩
  simp only [regionDoc, wellFormed_cons]
  exact ⟨wellFormed_named ⟨by decide, by decide⟩ hname hcontent, wellFormed_text (by decide),
    wellFormed_nil⟩

/-! ## The walk over a value -/

mutual

/-- What is left of a value. -/
def kept : Value → Option Value
  | .int n => some (.int n)
  | .str s => some (.str s)
  | .arr xs => some (.arr (keptAll xs))
  | .set _ => none
  | .map _ => none

def keptAll : List Value → List Value
  | [] => []
  | x :: xs => (kept x).toList ++ keptAll xs

end

/-- The walk when a value was put where values go. -/
def putKept (w : Walk) : Option Value → Option Walk
  | none => some w
  | some v => w.putValue v

theorem returnText_text (s : Str) : returnText false (tree [.text s]) = s := by
  cases s <;> simp [tree, Piece.addNode, addText, returnText]

theorem returnText_cdata (s : Str) : returnText false (tree [.cdata s]) = s :=
  returnText_text s

theorem trimAllWhites_decimal (n : Int) : trimAllWhites (decimal n) = decimal n := by
  have hblank : ∀ c ∈ decimal n, isBlank c = false := by
    have hdigits : ∀ c ∈ Nat.toDigits 10 n.natAbs, isBlank c = false := fun c hc =>
      digit_notBlank (isDigit_of_mem hc)
    unfold decimal
    split
    · exact List.forall_mem_cons.mpr ⟨by decide, hdigits⟩
    · exact hdigits
  have hdrop : (decimal n).dropWhile isBlank = decimal n :=
    List.dropWhile_eq_self_iff.mpr fun hlen =>
      Bool.eq_false_iff.mp (hblank _ (List.getElem_mem hlen))
  rw [trimAllWhites, hdrop]
  exact List.rdropWhile_eq_self_iff.mpr fun hne =>
    Bool.eq_false_iff.mp (hblank _ (List.getLast_mem hne))

/-- Where a value can be put: in an array, or in a variable. -/
inductive Ready : Walk → Prop
  | inArray (regions : Regions) (creg : Option Str) (cvar : Option (Option Value))
      (xs : List Value) (xss : List (List Value)) : Ready ⟨regions, creg, cvar, xs :: xss, true⟩
  | inVar (regions : Regions) (creg : Option Str) (value : Option Value) :
      Ready ⟨regions, creg, some value, [], false⟩

/-- A value comes before what follows it. -/
theorem walkChildren_value (v : Value) (ps : List Piece) (w : Walk) :
    walkChildren false (tree (valueDoc v :: ps)) w =
      (walkChildren false (tree [valueDoc v]) w).bind (walkChildren false (tree ps)) := by
  cases v <;> simp [valueDoc, tree, Piece.addNode, walkChildren]

/-- The values of an array are put into it, one after the other. -/
theorem walkChildren_values {xs : List Value} (h : ∀ x ∈ xs, ∀ w, Ready w →
      walkChildren false (tree [valueDoc x]) w = putKept w (kept x))
    (regions : Regions) (creg : Option Str) (cvar : Option (Option Value))
    (yss : List (List Value)) : ∀ ys : List Value,
    walkChildren false (tree (valueDocs xs)) ⟨regions, creg, cvar, ys :: yss, true⟩ =
      some ⟨regions, creg, cvar, (ys ++ keptAll xs) :: yss, true⟩ := by
  induction xs with
  | nil =>
    intro ys
    rw [valueDocs, tree, walkChildren, keptAll, List.append_nil]
  | cons x xs ih =>
    intro ys
    obtain ⟨hx, hxs⟩ := List.forall_mem_cons.mp h
    rw [valueDocs, walkChildren_value, hx _ (.inArray ..), keptAll]
    cases kept x with
    | none => exact ih hxs ys
    | some v =>
      rw [Option.toList_some, ← List.append_assoc]
      exact ih hxs (ys ++ [v])

theorem walkChildren_elem (name : Str) (attrs : List (Str × Str)) (children : List Node) (w : Walk) :
    walkChildren false [.elem name attrs children] w =
      processElement (walkChildren false children) false name attrs children w := by
  rw [walkChildren, walkTree]
  cases processElement (walkChildren false children) false name attrs children w <;> rfl

/-- The walk over a value puts what is left of it where values go. -/
theorem walk_value (v : Value) : ∀ w, Ready w →
    walkChildren false (tree [valueDoc v]) w = putKept w (kept v) := by
  induction v with
  | int n =>
    intro w _
    have hint : castInt (trimAllWhites (returnText false (tree [.text (decimal n)]))) = n := by
      rw [returnText_text, trimAllWhites_decimal, castInt_decimal]
    rw [valueDoc, tree, Piece.addNode, tree, walkChildren_elem]
    exact congrArg (fun k => w.putValue (.int k)) hint
  | str s =>
    intro w _
    rw [valueDoc, tree, Piece.addNode, tree, walkChildren_elem]
    exact congrArg (fun t => w.putValue (.str t)) (returnText_cdata s)
  | arr xs ih =>
    intro w hw
    rw [valueDoc, tree, Piece.addNode, tree, walkChildren_elem, kept]
    change handleA (walkChildren false (tree (valueDocs xs))) w = w.putValue (.arr (keptAll xs))
    have hvalues := walkChildren_values ih
    cases hw with
    | inArray regions creg cvar ys yss =>
      have hread := hvalues regions creg cvar (ys :: yss) []
      unfold handleA
      dsimp only
      rw [if_neg (by simp), hread]
      rfl
    | inVar regions creg value =>
      have hread := hvalues regions creg (some value) [] []
      unfold handleA
      dsimp only
      rw [if_neg (by simp), hread]
      rfl
  | set xs _ =>
    intro w _
    rw [valueDoc, tree, Piece.addNode, tree, walkChildren_elem]
    rfl
  | map es _ =>
    intro w _
    rw [valueDoc, tree, Piece.addNode, tree, walkChildren_elem]
    rfl

/-! ## The walk over a region -/

/-- Text between the elements changes nothing. -/
theorem walkChildren_addText (s : Str) (ns : List Node) (w : Walk) :
    walkChildren false (addText s ns) w = walkChildren false ns w := by
  unfold addText
  split
  · rfl
  · split <;> rfl

theorem walkChildren_filter (ns : List Node) (w : Walk) :
    walkChildren false (ns.filter isElem) w = walkChildren false ns w := by
  induction ns generalizing w with
  | nil => rfl
  | cons n ns ih =>
    cases n with
    | text s => exact ih w
    | other => exact ih w
    | elem name attrs children =>
      rw [List.filter_cons_of_pos rfl, walkChildren, walkChildren]
      exact congrArg _ (funext ih)

theorem returnText_addText (s : Str) (ns : List Node) :
    returnText false (addText s ns) = s ++ returnText false ns := by
  unfold addText
  split
  next hs => rw [hs, List.nil_append]
  next =>
    split
    next => simp [returnText]
    next => rfl

theorem returnText_mergeTexts (ns : List Node) :
    returnText false (mergeTexts ns) = returnText false ns := by
  induction ns with
  | nil => rfl
  | cons n ns ih =>
    cases n with
    | text s =>
      rw [mergeTexts, Node.merge, returnText_addText, ih]
      rfl
    | other => exact ih
    | elem name attrs children => exact ih

/-- The walk does not depend on how many nodes a text is in. -/
theorem walkChildren_mergeTexts (ns : List Node) : ∀ w,
    walkChildren false (mergeTexts ns) w = walkChildren false ns w := by
  induction ns using nodesInduct with
  | nil => exact fun _ => rfl
  | text s ns ih =>
    intro w
    rw [mergeTexts, Node.merge, walkChildren_addText, ih]
    rfl
  | other ns ih => exact ih
  | elem name attrs children ns ihchildren ih =>
    intro w
    rw [mergeTexts, Node.merge, walkChildren, walkChildren, walkTree, walkTree, funext ih]
    unfold processElement handleInt handleStr
    rw [returnText_mergeTexts, funext ihchildren]

/-- An element comes before what follows it. -/
theorem walkChildren_cons (name : Str) (attrs : List (Str × Str)) (content ps : List Piece)
    (w : Walk) : walkChildren false (tree (.elem name attrs content :: ps)) w =
      (processElement (walkChildren false (tree content)) false name attrs (tree content) w).bind
        (walkChildren false (tree ps)) := by
  rw [tree, Piece.addNode, walkChildren, walkTree]

/-- The walk in the region `name`, with these variables of it. -/
def inRegion (regions : Regions) (name : Str) (vars : Mapping Str Value)
    (cvar : Option (Option Value)) : Walk :=
  ⟨regions.insert name vars, some name, cvar, [], false⟩

theorem cregVars_inRegion (regions : Regions) (name : Str) (vars : Mapping Str Value)
    (cvar : Option (Option Value)) : (inRegion regions name vars cvar).cregVars name = vars := by
  rw [Walk.cregVars, inRegion, AList.lookup_insert, Option.getD_some]

/-- What a variable adds to its region. -/
def keepVar (vars : Mapping Str Value) (name : Str) (v : Value) : Mapping Str Value :=
  if isZero (vars.lookup atName) = true ∨ name = [] then vars
  else vars.insert name ((kept v).getD (.int 0))

theorem attrName_name (name : Str) :
    attrName [(nameKey, name)] = if name = [] then none else some name := by
  have hlookup : [(nameKey, name)].lookup nameKey = some name := List.lookup_cons_self
  rw [attrName, hlookup, Option.filter_some]
  by_cases h : name = [] <;> simp [h]

theorem putVar_inRegion (regions : Regions) (reg : Str) (vars : Mapping Str Value)
    (cvar : Option (Option Value)) (name : Str) (v : Value) :
    (inRegion regions reg vars cvar).putVar name v =
      some (inRegion regions reg (vars.insert name v) cvar) := by
  change some (Walk.mk ((regions.insert reg vars).insert reg
    (((inRegion regions reg vars cvar).cregVars reg).insert name v)) _ _ _ _) = _
  rw [cregVars_inRegion, AList.insert_insert]
  rfl

theorem handleVar_inRegion (regions : Regions) (reg : Str) (vars : Mapping Str Value)
    (cvar : Option (Option Value)) (name : Str) (v : Value) : ∃ cvar',
    handleVar (walkChildren false (tree [valueDoc v])) [(nameKey, name)]
      (inRegion regions reg vars cvar) = some (inRegion regions reg (keepVar vars name v) cvar') := by
  have hvars := cregVars_inRegion regions reg vars cvar
  rw [handleVar, keepVar]
  change ∃ cvar', (if isZero (((inRegion regions reg vars cvar).cregVars reg).lookup atName) then
    some (inRegion regions reg vars cvar) else _) = _
  rw [hvars]
  by_cases hzero : isZero (vars.lookup atName) = true
  · rw [if_pos hzero, if_pos (Or.inl hzero)]
    exact ⟨cvar, rfl⟩
  · rw [if_neg hzero, attrName_name]
    by_cases hname : name = []
    · rw [if_pos (Or.inr hname), if_pos hname]
      exact ⟨cvar, rfl⟩
    · rw [if_neg (not_or.mpr ⟨hzero, hname⟩), if_neg hname]
      have hwalk : walkChildren false (tree [valueDoc v]) (inRegion regions reg vars (some none)) =
          putKept (inRegion regions reg vars (some none)) (kept v) := walk_value v _ (.inVar ..)
      refine ⟨some (kept v), ?_⟩
      change (walkChildren false (tree [valueDoc v]) (inRegion regions reg vars (some none))).bind
        _ = _
      rw [hwalk]
      cases kept v with
      | none => exact putVar_inRegion regions reg vars (some none) name (.int 0)
      | some x => exact putVar_inRegion regions reg vars (some (some x)) name x

theorem processElement_var (walk : Walk → Option Walk) (attrs : List (Str × Str))
    (children : List Node) (w : Walk) :
    processElement walk false varTag attrs children w = handleVar walk attrs w := rfl

theorem processElement_region (walk : Walk → Option Walk) (attrs : List (Str × Str))
    (children : List Node) (w : Walk) :
    processElement walk false regionTag attrs children w = handleRegion walk attrs w := rfl

/-- The walk over the variables of a region. -/
theorem walk_vars (regions : Regions) (reg : Str) (es : List (Sigma fun _ : Str => Value)) :
    ∀ vars cvar, ∃ cvar', walkChildren false (tree (es.flatMap fun e => varDoc e.1 e.2))
      (inRegion regions reg vars cvar) = some (inRegion regions reg
        (es.foldl (fun vars e => keepVar vars e.1 e.2) vars) cvar') := by
  induction es with
  | nil => exact fun vars cvar => ⟨cvar, rfl⟩
  | cons e es ih =>
    intro vars cvar
    obtain ⟨cvar', hvar⟩ := handleVar_inRegion regions reg vars cvar e.1 e.2
    obtain ⟨cvar'', hes⟩ := ih (keepVar vars e.1 e.2) cvar'
    refine ⟨cvar'', ?_⟩
    have htree : tree ((e :: es).flatMap fun e => varDoc e.1 e.2) = addText ['\t']
        (tree (.elem varTag [(nameKey, e.1)] [valueDoc e.2] ::
          .text ['\n'] :: es.flatMap fun e => varDoc e.1 e.2)) := rfl
    have htail : tree (.text ['\n'] :: es.flatMap fun e => varDoc e.1 e.2) =
        addText ['\n'] (tree (es.flatMap fun e => varDoc e.1 e.2)) := rfl
    rw [htree, walkChildren_addText, walkChildren_cons, htail, processElement_var, hvar,
      Option.bind_some, walkChildren_addText, hes]
    rfl

/-- What is left of a region. -/
def keptRegion (name : Str) (m : Mapping Str Value) : Mapping Str Value :=
  (m.entries.foldl (fun vars e => keepVar vars e.1 e.2)
    (AList.insert atName (.str name) ∅)).erase atName

/-- The walk over a region with a name. -/
theorem handleRegion_eq {regions : Regions} {name : Str} (hname : name ≠ [])
    (hnew : regions.lookup name = none) (m : Mapping Str Value) (cvar : Option (Option Value)) :
    ∃ cvar', handleRegion (walkChildren false (tree (regionContent m))) [(nameKey, name)]
      ⟨regions, none, cvar, [], false⟩ =
        some ⟨regions.insert name (keptRegion name m), none, cvar', [], false⟩ := by
  obtain ⟨cvar', hvars⟩ := walk_vars regions name m.entries (AList.insert atName (.str name) ∅) cvar
  refine ⟨cvar', ?_⟩
  have hput := putVar_inRegion regions name ∅ cvar atName (.str name)
  have hdelete : (inRegion regions name (m.entries.foldl (fun vars e => keepVar vars e.1 e.2)
      (AList.insert atName (.str name) ∅)) cvar').deleteVar atName =
        some (inRegion regions name (keptRegion name m) cvar') := by
    change some (Walk.mk ((regions.insert name _).insert name
      (AList.erase atName ((inRegion regions name _ cvar').cregVars name))) _ _ _ _) = _
    rw [cregVars_inRegion, AList.insert_insert]
    rfl
  have htree : tree (regionContent m) =
      addText ['\n'] (tree (m.entries.flatMap fun e => varDoc e.1 e.2)) := rfl
  rw [handleRegion, attrName_name, if_neg hname, Option.bind_some, hnew, if_neg (by simp)]
  change (Walk.putVar (inRegion regions name ∅ cvar) atName (.str name)).bind _ = _
  rw [hput, Option.bind_some, htree, walkChildren_addText, hvars, Option.bind_some, hdelete]
  rfl

/-- The walk fails at a region without a name. -/
theorem handleRegion_nil (walk : Walk → Option Walk) (w : Walk) :
    handleRegion walk [(nameKey, [])] w = none := by
  rw [handleRegion, attrName_name, if_pos rfl, Option.bind_none]

/-- What is left of the regions. -/
def keptRegions (r : Regions) : Regions :=
  r.entries.foldl (fun acc e => acc.insert e.1 (keptRegion e.1 e.2)) ∅

theorem walkChildren_region (name : Str) (m : Mapping Str Value) (ps : List Piece) (w : Walk) :
    walkChildren false (tree (regionDoc name m ++ ps)) w =
      (handleRegion (walkChildren false (tree (regionContent m))) [(nameKey, name)] w).bind
        (walkChildren false (tree ps)) := by
  have htail : tree (.text ['\n', '\n'] :: ps) = addText ['\n', '\n'] (tree ps) := rfl
  rw [regionDoc, List.cons_append, walkChildren_cons, processElement_region]
  refine congrArg _ (funext fun w => ?_)
  exact walkChildren_addText ['\n', '\n'] (tree ps) w

/-- The walk over regions that all have different names. -/
theorem walk_regions : ∀ {es : List (Sigma fun _ : Str => Mapping Str Value)} (acc : Regions)
    (cvar : Option (Option Value)), es.NodupKeys → (∀ e ∈ es, e.1 ≠ []) →
    (∀ e ∈ es, acc.lookup e.1 = none) →
    ∃ cvar', walkChildren false (tree (es.flatMap fun e => regionDoc e.1 e.2))
      ⟨acc, none, cvar, [], false⟩ =
        some ⟨es.foldl (fun acc e => acc.insert e.1 (keptRegion e.1 e.2)) acc, none, cvar', [],
          false⟩ := by
  intro es
  induction es with
  | nil => exact fun acc cvar _ _ _ => ⟨cvar, rfl⟩
  | cons e es ih =>
    intro acc cvar hnodup hnames hnew
    obtain ⟨hname, hnames⟩ := List.forall_mem_cons.mp hnames
    obtain ⟨hnewHead, hnewTail⟩ := List.forall_mem_cons.mp hnew
    obtain ⟨hne, hnodup⟩ := List.nodupKeys_cons.mp hnodup
    obtain ⟨cvar', hregion⟩ := handleRegion_eq hname hnewHead e.2 cvar
    have hnew' : ∀ f ∈ es, (acc.insert e.1 (keptRegion e.1 e.2)).lookup f.1 = none := by
      intro f hf
      rw [Lib.Mapping.lookup_insert_ite, if_neg, hnewTail f hf]
      intro heq
      exact hne (heq ▸ List.mem_keys_of_mem hf)
    obtain ⟨cvar'', hes⟩ := ih (acc.insert e.1 (keptRegion e.1 e.2)) cvar' hnodup hnames hnew'
    refine ⟨cvar'', ?_⟩
    rw [List.flatMap_cons, walkChildren_region, hregion, Option.bind_some, hes]
    rfl

/-- The walk fails when one of the regions has no name. -/
theorem walk_unnamed {es : List (Sigma fun _ : Str => Mapping Str Value)}
    (h : ∃ e ∈ es, e.1 = []) : ∀ w,
    walkChildren false (tree (es.flatMap fun e => regionDoc e.1 e.2)) w = none := by
  induction es with
  | nil =>
    obtain ⟨e, he, -⟩ := h
    cases he
  | cons e es ih =>
    intro w
    rw [List.flatMap_cons, walkChildren_region]
    by_cases hname : e.1 = []
    · rw [hname, handleRegion_nil, Option.bind_none]
    · obtain ⟨f, hf, hfname⟩ := h
      have hmem : f ∈ es := (List.mem_cons.mp hf).resolve_left fun hfe => hname (hfe ▸ hfname)
      cases handleRegion (walkChildren false (tree (regionContent e.2))) [(nameKey, e.1)] w with
      | none => rfl
      | some w' => exact ih ⟨f, hmem, hfname⟩ w'

/-! ## Reading the file -/

theorem firstLines_line {s : Str} (h : ∀ c ∈ s, c ≠ '\n') (n : Nat) (t : Str) :
    firstLines (n + 1) (s ++ '\n' :: t) = s ++ '\n' :: firstLines n t := by
  induction s with
  | nil => exact if_pos rfl
  | cons c s ih =>
    obtain ⟨hc, hs⟩ := List.forall_mem_cons.mp h
    exact (if_neg hc).trans (congrArg _ (ih hs))

/-- A saved file is known by its first two lines. -/
theorem isConfigFile_save (r : Regions) : isConfigFile (save r) = some .xml := by
  have hsave : ∀ t, isConfigFile (xmlProlog ++ t) = some .xml := by
    intro t
    have hlines : firstLines 2 (xmlProlog ++ t) = xmlProlog := by
      simp only [xmlProlog, List.append_assoc, List.cons_append, List.nil_append]
      rw [firstLines_line (by decide), firstLines_line (by decide)]
      cases t <;> rfl
    change (if '<' = '6' then some Format.old
      else if firstLines 2 (xmlProlog ++ t) = xmlProlog then some Format.xml else none) = _
    rw [if_neg (by decide), if_pos hlines]
  rw [save, List.append_assoc]
  exact hsave _

/-- Reading a saved file is a walk over its regions. -/
theorem parse_save {parseInput : ParseInput} (hparse : Parses parseInput) {r : Regions}
    (h : Plain r) : parse parseInput (save r) =
      (walkChildren false (tree (r.entries.flatMap fun e => regionDoc e.1 e.2))
        ⟨∅, none, none, [], false⟩).map Walk.regions := by
  obtain ⟨ns, hns, helem⟩ := hparse ['\n'] cfgTag [] (cfgContent r) (by decide)
    (wellFormed_elem ⟨by decide, by decide⟩ h.cfgContent)
  have hwalk : walkChildren false ns ⟨∅, none, none, [], false⟩ =
      walkChildren false (tree (cfgContent r)) ⟨∅, none, none, [], false⟩ := by
    rw [← walkChildren_filter, ← walkChildren_mergeTexts, helem, walkChildren_elem]
    rfl
  rw [← fileDoc, render_fileDoc] at hns
  rw [parse, isConfigFile_save, Option.bind_some]
  change (parseInput (save r)).bind (createConfig false) = _
  rw [hns, Option.bind_some, createConfig, hwalk]
  exact congrArg (Option.map Walk.regions) (walkChildren_addText ['\n'] _ _)

/-! ## When it is the same configuration -/

theorem lookup_keepVar (vars : Mapping Str Value) (name : Str) (v : Value) (k : Str) :
    (keepVar vars name v).lookup k = vars.lookup k ∨
      k = name ∧ name ≠ [] ∧ (keepVar vars name v).lookup k = some ((kept v).getD (.int 0)) := by
  unfold keepVar
  split
  · exact Or.inl rfl
  next h =>
    rw [Lib.Mapping.lookup_insert_ite]
    split
    next hk => exact Or.inr ⟨hk, (not_or.mp h).2, rfl⟩
    next => exact Or.inl rfl

/-- Where a variable of a region comes from, other than `@name@`. -/
theorem lookup_keepVars {k : Str} (hk : k ≠ atName) : ∀ {es : List (Sigma fun _ : Str => Value)}
    {vars : Mapping Str Value} {x : Value},
    (es.foldl (fun vars e => keepVar vars e.1 e.2) vars).lookup k = some x →
    vars.lookup k = some x ∨ k ≠ [] ∧ ∃ e ∈ es, e.1 = k ∧ x = (kept e.2).getD (.int 0) := by
  intro es
  induction es with
  | nil => exact fun h => Or.inl h
  | cons e es ih =>
    intro vars x h
    obtain hvars | ⟨hne, f, hf, heq⟩ := ih h
    · obtain hsame | ⟨rfl, hne, hnew⟩ := lookup_keepVar vars e.1 e.2 k
      · exact Or.inl (hsame ▸ hvars)
      · rw [hnew] at hvars
        exact Or.inr ⟨hne, e, List.mem_cons_self, rfl, (Option.some.inj hvars).symm⟩
    · exact Or.inr ⟨hne, f, List.mem_cons_of_mem _ hf, heq⟩

/-- What comes back of a region comes from one of its variables that has a name. -/
theorem keptRegion_lookup {name k : Str} {m : Mapping Str Value} {x : Value}
    (h : (keptRegion name m).lookup k = some x) :
    k ≠ [] ∧ k ≠ atName ∧ ∃ v, m.lookup k = some v ∧ x = (kept v).getD (.int 0) := by
  rw [keptRegion] at h
  obtain ⟨hk, h⟩ := Lib.Mapping.lookup_erase_some h
  obtain hvars | ⟨hne, e, he, rfl, rfl⟩ := lookup_keepVars hk h
  · rw [Lib.Mapping.lookup_insert_ite, if_neg hk] at hvars
    cases hvars
  · exact ⟨hne, hk, e.2, AList.mem_lookup_iff.mpr he, rfl⟩

/-- Variables with names other than `@name@` are all put into the region. -/
theorem foldl_keepVar {reg : Str} : ∀ {es : List (Sigma fun _ : Str => Value)}
    {vars : Mapping Str Value}, (∀ e ∈ es, e.1 ≠ [] ∧ e.1 ≠ atName) →
    vars.lookup atName = some (.str reg) →
    es.foldl (fun vars e => keepVar vars e.1 e.2) vars =
      es.foldl (fun vars e => vars.insert e.1 ((kept e.2).getD (.int 0))) vars := by
  intro es
  induction es with
  | nil => exact fun _ _ => rfl
  | cons e es ih =>
    intro vars hnames hat
    obtain ⟨⟨hne, hname⟩, hnames⟩ := List.forall_mem_cons.mp hnames
    have hput : keepVar vars e.1 e.2 = vars.insert e.1 ((kept e.2).getD (.int 0)) := by
      rw [keepVar, hat, if_neg (not_or.mpr ⟨by simp [isZero], hne⟩)]
    rw [List.foldl_cons, List.foldl_cons, hput]
    refine ih hnames ?_
    rw [Lib.Mapping.lookup_insert_ite, if_neg hname.symm, hat]

/-- Of a region in which all variables have names other than `@name@`, all come back. -/
theorem keptRegion_named {name : Str} {m : Mapping Str Value}
    (h : ∀ v x, m.lookup v = some x → v ≠ [] ∧ v ≠ atName) (k : Str) :
    (keptRegion name m).lookup k = (m.lookup k).map fun v => (kept v).getD (.int 0) := by
  have hnames : ∀ e ∈ m.entries, e.1 ≠ [] ∧ e.1 ≠ atName := fun e he =>
    h e.1 e.2 (AList.mem_lookup_iff.mpr he)
  have hfold := m.lookup_foldl_entries (fun _ v => (kept v).getD (.int 0))
    (AList.insert atName (.str name) ∅) k
  rw [keptRegion, foldl_keepVar hnames (AList.lookup_insert _), Lib.Mapping.lookup_erase_ite, hfold]
  split
  next hk =>
    cases hlookup : m.lookup k with
    | none => rfl
    | some x => exact absurd hk (h k x hlookup).2
  next hk =>
    rw [Lib.Mapping.lookup_insert_ite, if_neg hk, AList.lookup_empty, Option.or_none]

/-- A value without multisets and mappings is kept as it is. -/
theorem kept_eq {v : Value} (h : v.All (fun _ => True) False) : kept v = some v := by
  induction v with
  | int n => rfl
  | str s => rfl
  | arr xs ih =>
    cases h with
    | arr h =>
      have hall : keptAll xs = xs := by
        induction xs with
        | nil => rfl
        | cons x xs ihxs =>
          obtain ⟨hx, hxs⟩ := List.forall_mem_cons.mp h
          obtain ⟨ihx, ihxs'⟩ := List.forall_mem_cons.mp ih
          rw [keptAll, ihx hx, ihxs ihxs' hxs]
          rfl
      rw [kept, hall]
  | set xs _ => cases h with | set ht _ => exact ht.elim
  | map es _ => cases h with | map ht _ _ => exact ht.elim

/-- The number of multisets and mappings in a value. -/
def tables (v : Value) : Nat := v.weigh (fun _ => 0) 1

theorem all_of_tables {v : Value} (h : tables v = 0) : v.All (fun _ => True) False := by
  unfold tables at h
  induction v with
  | int n => exact .int n
  | str s => exact .str trivial
  | arr xs ih =>
    rw [Value.weigh, Value.weighAll_eq, List.sum_eq_zero_iff_forall_eq_nat] at h
    exact .arr fun x hx => ih x hx (h _ (List.mem_map_of_mem hx))
  | set xs _ =>
    rw [Value.weigh] at h
    omega
  | map es _ =>
    rw [Value.weigh] at h
    omega

theorem tables_kept (v : Value) : ∀ x, kept v = some x → tables x = 0 := by
  unfold tables
  induction v with
  | int n =>
    intro _ h
    cases h
    rfl
  | str s =>
    intro _ h
    cases h
    rfl
  | arr xs ih =>
    intro _ h
    cases h
    rw [Value.weigh]
    induction xs with
    | nil => rfl
    | cons x xs ihxs =>
      obtain ⟨ihx, ihxs'⟩ := List.forall_mem_cons.mp ih
      have hxs := ihxs ihxs'
      rw [keptAll]
      cases hx : kept x with
      | none => exact hxs
      | some y =>
        rw [Option.toList_some, List.singleton_append, Value.weighAll, ihx y hx, hxs]
  | set xs _ =>
    intro x hx
    cases hx
  | map es _ =>
    intro x hx
    cases hx

/-- Which values come back. -/
theorem equal_kept_iff (v : Value) :
    ((kept v).getD (.int 0)).Equal v ↔ v.All (fun _ => True) False := by
  constructor
  · intro h
    refine all_of_tables ((h.weigh_eq (fun _ => 0) 1).symm.trans ?_)
    cases hkept : kept v with
    | none => rfl
    | some x => exact tables_kept v x hkept
  · intro h
    rw [kept_eq h, Option.getD_some]

theorem lookup_keptRegions (r : Regions) (k : Str) :
    (keptRegions r).lookup k = (r.lookup k).map (keptRegion k) :=
  Lib.Mapping.lookup_foldl_empty r keptRegion k

/-- What is read of a file whose regions all have names. -/
theorem parse_named {parseInput : ParseInput} (hparse : Parses parseInput) {r : Regions}
    (h : Plain r) (hnames : ∀ k m, r.lookup k = some m → k ≠ []) :
    parse parseInput (save r) = some (keptRegions r) := by
  obtain ⟨cvar, hwalk⟩ := walk_regions ∅ none r.nodupKeys
    (fun e he => hnames e.1 e.2 (AList.mem_lookup_iff.mpr he)) fun e _ => AList.lookup_empty e.1
  rw [parse_save hparse h, hwalk]
  rfl

/-- Reading fails when a region has no name. -/
theorem parse_unnamed {parseInput : ParseInput} (hparse : Parses parseInput) {r : Regions}
    (h : Plain r) {m : Mapping Str Value} (hm : r.lookup [] = some m) :
    parse parseInput (save r) = none := by
  have hmem : (⟨[], m⟩ : Sigma fun _ : Str => Mapping Str Value) ∈ r.entries :=
    AList.mem_lookup_iff.mp hm
  rw [parse_save hparse h, walk_unnamed ⟨_, hmem, rfl⟩]
  rfl

/-- Which regions are left as they are. -/
theorem same_keptRegions_iff (r : Regions) : (keptRegions r).Same r ↔
    r.Every (Value.All (fun _ => True) False) ∧
      r.Named (fun _ => True) (fun v => v ≠ [] ∧ v ≠ atName) := by
  constructor
  · intro h
    have hvar : ∀ k m, r.lookup k = some m → ∀ v x, m.lookup v = some x →
        v ≠ [] ∧ v ≠ atName ∧ ((kept x).getD (.int 0)).Equal x := by
      intro k m hm v x hx
      have hk := h k
      rw [lookup_keptRegions, hm] at hk
      cases hk with
      | some hk =>
        have hv := hk v
        cases hy : (keptRegion k m).lookup v with
        | none =>
          rw [hy, hx] at hv
          cases hv
        | some y =>
          obtain ⟨hne, hname, x', hx', rfl⟩ := keptRegion_lookup hy
          obtain rfl : x = x' := Option.some.inj (hx.symm.trans hx')
          rw [hy, hx] at hv
          cases hv with
          | some hv => exact ⟨hne, hname, hv⟩
    exact ⟨fun k m hm v x hx => (equal_kept_iff x).mp (hvar k m hm v x hx).2.2,
      fun k m hm => ⟨trivial, fun v x hx =>
        ⟨(hvar k m hm v x hx).1, (hvar k m hm v x hx).2.1⟩⟩⟩
  · intro hand k
    obtain ⟨hvalues, hnames⟩ := hand
    rw [lookup_keptRegions]
    cases hm : r.lookup k with
    | none => exact .none
    | some m =>
      refine .some fun v => ?_
      rw [keptRegion_named (hnames k m hm).2]
      cases hx : m.lookup v with
      | none => exact .none
      | some x => exact .some ((equal_kept_iff x).mpr (hvalues k m hm v x hx))

/-- The contents of a configuration file survive `save` exactly when there are no multisets and
mappings in the values, and no empty names, and no variable has the name `@name@`. -/
theorem saved_iff {parseInput : ParseInput} (hparse : Parses parseInput) {r : Regions}
    (h : Plain r) : (∃ r', parse parseInput (save r) = some r' ∧ r'.Same r) ↔
      r.Every (Value.All (fun _ => True) False) ∧
        r.Named (· ≠ []) (fun v => v ≠ [] ∧ v ≠ atName) := by
  constructor
  · intro hand
    obtain ⟨r', hr', hsame⟩ := hand
    have hregions : ∀ k m, r.lookup k = some m → k ≠ [] := by
      intro k m hm heq
      subst heq
      rw [parse_unnamed hparse h hm] at hr'
      cases hr'
    rw [parse_named hparse h hregions] at hr'
    obtain rfl := Option.some.inj hr'
    obtain ⟨hvalues, hnames⟩ := (same_keptRegions_iff r).mp hsame
    exact ⟨hvalues, fun k m hm => ⟨hregions k m hm, (hnames k m hm).2⟩⟩
  · intro hand
    obtain ⟨hvalues, hnames⟩ := hand
    refine ⟨keptRegions r, parse_named hparse h fun k m hm => (hnames k m hm).1, ?_⟩
    exact (same_keptRegions_iff r).mpr ⟨hvalues, fun k m hm => ⟨trivial, (hnames k m hm).2⟩⟩

/-- A parser: the tree of the document that a text is. -/
def parseTree : ParseInput := fun s => (Lib.Markup.parse s).map tree

/-- What it reads. -/
def parseSyntax : Syntax where
  text _ := True
  value _ := True
  cdata _ := True
  decl _ := True

theorem parses_parseTree : Parses parseTree := by
  intro s name attrs content hs helem
  have hdoc : WellFormed parseSyntax [.decl prologDecl, .text s, .elem name attrs content] := by
    simp only [wellFormed_cons]
    refine ⟨.decl (by decide) (by decide) (by decide) (by decide) trivial,
      .text fun c hc => ⟨?_, trivial⟩, helem.mono (fun _ _ => trivial) (fun _ _ => trivial)
        (fun _ _ => trivial) (fun _ _ => trivial), wellFormed_nil⟩
    obtain rfl | rfl := hs c hc <;> decide
  refine ⟨_, by rw [parseTree, parse_render hdoc, Option.map_some], ?_⟩
  have hfilter : (tree [.decl prologDecl, .text s, .elem name attrs content]).filter isElem =
      [.elem name attrs (tree content)] := by
    cases s <;> rfl
  rw [tree_norm, hfilter, mergeTexts, Node.merge, mergeTexts_tree]
  rfl

/-- An array with a string and a number. -/
def sampleRegions : Regions :=
  oneVariable "server".toList "ports".toList (.arr [.str "http://*/".toList, .int 80])

theorem plain_sampleRegions : Plain sampleRegions where
  names := named_oneVariable (by decide) (by decide)
  strings := every_oneVariable <| .arr <| by
    simp only [List.forall_mem_cons]
    exact ⟨.str ⟨by decide, by decide⟩, .int _, List.forall_mem_nil _⟩

theorem saved_iff_sample : (∃ r', parse parseTree (save sampleRegions) = some r' ∧
    r'.Same sampleRegions) ↔ sampleRegions.Every (Value.All (fun _ => True) False) ∧
      sampleRegions.Named (· ≠ []) (fun v => v ≠ [] ∧ v ≠ atName) :=
  saved_iff parses_parseTree plain_sampleRegions

/-- A multiset with one number. -/
def multisetRegions : Regions := oneVariable ['a'] ['b'] (.set [.int 1])

theorem multiset_lost : ¬ ∃ r', parse parseTree (save multisetRegions) = some r' ∧
    r'.Same multisetRegions := by
  have hplain : Plain multisetRegions :=
    ⟨named_oneVariable (by decide) (by decide),
      every_oneVariable (.set trivial (List.forall_mem_singleton.mpr (.int 1)))⟩
  have hnames : multisetRegions.Named (· ≠ []) fun _ => True :=
    named_oneVariable (by decide) trivial
  intro h
  obtain ⟨r', hr', hsame⟩ := h
  rw [parse_named parses_parseTree hplain fun k m hm => (hnames k m hm).1] at hr'
  obtain rfl := Option.some.inj hr'
  have hall := ((same_keptRegions_iff _).mp hsame).1 ['a'] _ (AList.lookup_insert _) ['b'] _
    (AList.lookup_insert _)
  cases hall with
  | set ht _ => exact ht

end Caudium.Config
