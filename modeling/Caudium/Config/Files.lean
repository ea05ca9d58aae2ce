import Caudium.Config.Regions
import Caudium.Lib.Markup
import Mathlib.Data.List.DropRight

/-!
# Configuration files

`save` writes the regions of a configuration file as XML, and `parse` reads the file again:
`Parser.XML.Tree` makes a tree of it, and a walk over the tree (`Walk`) puts together the
regions, variables and values. The walk keeps the variable at which it is, and the arrays in
which it is, in fields of the object.

A value that is not an array is put into the variable, or at the end of the innermost array.
The functions of the elements for multisets and mappings do nothing.
-/

namespace Caudium.Config

open Lib (Str Mapping Value)
open Lib.Markup (Node)
open Http (castInt isBlank)

/-! ## Writing -/

/-- `render_xml`, with the attributes in the order of their names. -/
def renderXml (tname : Str) (attrs : List (Str × Str)) (contents : Str) (doindent : Bool) : Str :=
  ['<'] ++ tname ++ attrs.flatMap Lib.Markup.renderAttr ++ ['>'] ++
    (if doindent then ['\n'] else []) ++ contents ++ ['<', '/'] ++ tname ++ ['>']

def intTag : Str := ['i', 'n', 't']
def strTag : Str := ['s', 't', 'r']
def arrayTag : Str := ['a']
def listTag : Str := ['l', 's', 't']
def mapTag : Str := ['m', 'a', 'p']
def modTag : Str := ['m', 'o', 'd']
def varTag : Str := ['v', 'a', 'r']
def regionTag : Str := ['r', 'e', 'g', 'i', 'o', 'n']
def cfgTag : Str := ['c', 'a', 'u', 'd', 'i', 'u', 'm', 'c', 'f', 'g']
def nameKey : Str := ['n', 'a', 'm', 'e']

mutual

/-- `get_type_desc`. -/
def getTypeDesc : Value → Str
  | .int n => renderXml intTag [] (decimal n) false
  | .str s =>
    renderXml strTag [] (['<'] ++ Lib.Markup.cdataOpen ++ s ++ Lib.Markup.cdataClose) false
  | .set xs => renderXml listTag [] (renderXml arrayTag [] (getTypeDescs xs) false) false
  | .map es => renderXml mapTag [] (entryDescs es) false
  | .arr xs => renderXml arrayTag [] (getTypeDescs xs) false

def getTypeDescs : List Value → Str
  | [] => []
  | x :: xs => getTypeDesc x ++ getTypeDescs xs

def entryDescs : List (Value × Value) → Str
  | [] => []
  | (k, x) :: es => getTypeDesc k ++ [':'] ++ getTypeDesc x ++ ['\n'] ++ entryDescs es

end

/-- `render_variable`. -/
def renderVariable (var : Value) (name : Str) : Str :=
  ['\t'] ++ renderXml varTag [(nameKey, name)] (getTypeDesc var) false ++ ['\n']

def xmlLine : Str := '<' :: "?xml version=\"1.0\"?>".toList

def cfgLine : Str := "<caudiumcfg>".toList

def xmlProlog : Str := xmlLine ++ ['\n'] ++ cfgLine ++ ['\n']

def xmlEpilog : Str := "</caudiumcfg>".toList

/-- What `save` writes. -/
def save (regions : Regions) : Str :=
  xmlProlog ++ (regions.entries.flatMap fun reg =>
    renderXml regionTag [(nameKey, reg.1)]
      (reg.2.entries.flatMap fun var => renderVariable var.2 var.1) true ++ ['\n', '\n']) ++
    xmlEpilog

/-! ## Walking the tree -/

/-- The fields of a `Config` during the walk. -/
structure Walk where
  regions : Regions
  /-- The name of the region `creg`. -/
  creg : Option Str
  /-- `cvar`, with its `value`. -/
  cvar : Option (Option Value)
  /-- The arrays in which the walk is, the innermost first; `array_nest` is their number. -/
  arrays : List (List Value)
  /-- Whether `carray` is set: it is the innermost array then. -/
  carray : Bool

/-- False in a condition. -/
def isZero : Option Value → Bool
  | none => true
  | some (.int n) => n = 0
  | some _ => false

def atName : Str := ['@', 'n', 'a', 'm', 'e', '@']

namespace Walk

/-- The mapping that `creg` is. -/
def cregVars (w : Walk) (name : Str) : Mapping Str Value := (w.regions.lookup name).getD ∅

/-- `creg[var] = v`; `none` when there is no region. -/
def putVar (w : Walk) (var : Str) (v : Value) : Option Walk :=
  w.creg.map fun name =>
    { w with regions := w.regions.insert name ((w.cregVars name).insert var v) }

/-- `m_delete(creg, var)`. -/
def deleteVar (w : Walk) (var : Str) : Option Walk :=
  w.creg.map fun name =>
    { w with regions := w.regions.insert name ((w.cregVars name).erase var) }

/-- `if (carray) carray->data += ({ v }); else cvar->value = v`. -/
def putValue (w : Walk) (v : Value) : Option Walk :=
  match w.carray, w.arrays with
  | true, xs :: xss => some { w with arrays := (xs ++ [v]) :: xss }
  | true, [] => none
  | false, _ => w.cvar.map fun _ => { w with cvar := some (some v) }

end Walk

/-- `attrs->name`, if it is not empty. -/
def attrName (attrs : List (Str × Str)) : Option Str := (attrs.lookup nameKey).filter (· ≠ [])

/-- `return_text`. -/
def returnText (old : Bool) (children : List Node) : Str :=
  let ret := children.flatMap fun n => match n with | .text s => s | _ => []
  if old then oldText ret else ret
where
  /-- `replace(ret, ({ "%3c", "%3e" }), ({ "<", ">" }))`. -/
  oldText : Str → Str
  | '%' :: '3' :: 'c' :: s => '<' :: oldText s
  | '%' :: '3' :: 'e' :: s => '>' :: oldText s
  | c :: s => c :: oldText s
  | [] => []

/-- `String.trim_all_whites`. -/
def trimAllWhites (s : Str) : Str := (s.dropWhile isBlank).rdropWhile isBlank

-- `walk_children` of the element; `none` when the walk fails
section

variable (walkChildren : Walk → Option Walk)

def handleRegion (attrs : List (Str × Str)) (w : Walk) : Option Walk :=
  (attrName attrs).bind fun name =>
    if (w.regions.lookup name).isSome then some w
    else
      (Walk.putVar { w with regions := w.regions.insert name ∅, creg := some name } atName
        (.str name)).bind fun w => (walkChildren w).bind fun w =>
          (w.deleteVar atName).map fun w => { w with creg := none }

def handleVar (attrs : List (Str × Str)) (w : Walk) : Option Walk :=
  match w.creg with
  | none => some w
  | some reg =>
    if isZero ((w.cregVars reg).lookup atName) then some w
    else
      match attrName attrs with
      | none => some w
      | some name =>
        (walkChildren { w with cvar := some none, carray := false }).bind fun w =>
          -- without a value `cvar->value` is 0
          w.cvar.bind fun value => w.putVar name (value.getD (.int 0))

def handleInt (old : Bool) (children : List Node) (w : Walk) : Option Walk :=
  w.putValue (.int (castInt (trimAllWhites (returnText old children))))

def handleStr (old : Bool) (children : List Node) (w : Walk) : Option Walk :=
  w.putValue (.str (returnText old children))

def handleA (w : Walk) : Option Walk :=
  -- the new array goes into the variable or into the innermost array
  if (if w.arrays.isEmpty then w.cvar.isNone else !w.carray) then none
  else
    (walkChildren { w with arrays := [] :: w.arrays, carray := true }).bind fun w' =>
      match w'.arrays with
      | [] => none
      | [xs] => some { w' with cvar := some (some (.arr xs)), arrays := [], carray := w.carray }
      | xs :: ys :: xss =>
        some { w' with arrays := (ys ++ [.arr xs]) :: xss, carray := w.carray }

/-- `handle_lst`, `handle_map` and `handle_mod`. -/
def handleNothing (w : Walk) : Option Walk := some w

/-- `process_element`. -/
def processElement (old : Bool) (name : Str) (attrs : List (Str × Str)) (children : List Node)
    (w : Walk) : Option Walk :=
  if name = regionTag then handleRegion walkChildren attrs w
  else if name = varTag then handleVar walkChildren attrs w
  else if name = intTag then handleInt old children w
  else if name = strTag then handleStr old children w
  else if name = arrayTag then handleA walkChildren w
  else if name = listTag then handleNothing w
  else if name = modTag then handleNothing w
  else if name = mapTag then handleNothing w
  else if name = cfgTag then walkChildren w
  else some w

end

mutual

/-- `walk_tree`. -/
def walkTree (old : Bool) : Node → Walk → Option Walk
  | .elem name attrs children, w =>
    processElement (walkChildren old children) old name attrs children w
  | .text _, w => some w
  | .other, w => some w

/-- `walk_children`. -/
def walkChildren (old : Bool) : List Node → Walk → Option Walk
  | [], w => some w
  | n :: ns, w => (walkTree old n w).bind (walkChildren old ns)

end

/-- `Config(root, …)`; `none` when it throws. -/
def createConfig (old : Bool) (root : List Node) : Option Regions :=
  (walkChildren old root ⟨∅, none, none, [], false⟩).map Walk.regions

/-! ## Reading -/

/-- `Parser.XML.Tree.parse_input`: the nodes under the root. -/
abbrev ParseInput := Str → Option (List Node)

inductive Format
  | old
  | xml
deriving DecidableEq

/-- The first lines of a text, `n` of them. -/
def firstLines : Nat → Str → Str
  | 0, _ => []
  | _, [] => []
  | n + 1, c :: s => if c = '\n' then c :: firstLines n s else c :: firstLines (n + 1) s

/-- `is_config_file`, of a file with these contents. -/
def isConfigFile (contents : Str) : Option Format :=
  match contents with
  | [] => some .xml
  | c :: _ =>
    if c = '6' then some .old
    else if firstLines 2 contents = xmlProlog then some .xml
    else none

/-- `parse_old`: the first line is replaced by the prolog. -/
def oldContents (c : Str) : Str :=
  xmlProlog ++ (((c.dropWhile (· ≠ '\n')).drop 1).flatMap fun c =>
    if c = '&' then "&amp;".toList else [c]) ++ xmlEpilog

/-- `parse`; `none` when it throws or does not return 0. -/
def parse (parseInput : ParseInput) (contents : Str) : Option Regions :=
  (isConfigFile contents).bind fun
    | .xml => (parseInput contents).bind (createConfig false)
    | .old => (parseInput (oldContents contents)).bind (createConfig true)

end Caudium.Config
