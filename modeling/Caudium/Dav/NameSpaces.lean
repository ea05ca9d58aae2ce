import Caudium.Lib.Mapping
import Caudium.Lib.Search

/-!
# Namespaces and properties (`WebDAV.pmod`)

`mNameSpaces` belongs to the module, so all requests share it. It finds a namespace under its
name and under the prefix it was first declared with, in one mapping. `add_namespace` does
nothing for a name that is a key already, whatever prefix it comes with, and nothing is ever
taken out. `convert_to_mapping` adds the declarations it meets in a body and looks up the
properties by their prefixes.
-/

namespace Caudium.Dav

open Lib (Str Mapping cut)

/-- A node of `Parser.XML.Tree`. -/
inductive XmlNode
  /-- The attributes in the order of `indices()`; a node that is no element may have none. -/
  | mk (tagName : Str) (attributes : Option (List (Str × Str))) (text : Str)
    (children : List XmlNode)

namespace XmlNode

def tagName : XmlNode → Str
  | mk t _ _ _ => t

def attributes : XmlNode → Option (List (Str × Str))
  | mk _ a _ _ => a

def children : XmlNode → List XmlNode
  | mk _ _ _ c => c

end XmlNode

inductive Fault
  /-- `error()` -/
  | error (message : Str)
  /-- 0 was indexed or called. -/
  | interpreter
  /-- What `parse_input` throws. -/
  | parse
  deriving DecidableEq

/-- A `Property`, by its namespace's name and its own. -/
structure Property where
  ns : Str
  prop : Str
  deriving DecidableEq

/-- The tables of the module. A namespace is made only where its name is no key, and keys stay,
so there are no two of one name: it stands for itself by its name. -/
structure WebDav where
  /-- `mNameSpaces` -/
  nameSpaces : Mapping Str Str
  /-- The properties that the namespaces have, with their values. -/
  values : Mapping Property (Option Str)

/-- `create` -/
def WebDav.create : WebDav :=
  { nameSpaces := (∅ : Mapping Str Str).insert [] [], values := ∅ }

/-- A call, and what it leaves of the tables also when it throws. -/
abbrev Result (α : Type) : Type := WebDav × Except Fault α

/-- What is done next, unless the call threw. -/
def Result.andThen {α β : Type} (r : Result α) (f : WebDav → α → Result β) : Result β :=
  match r with
  | (w, .error e) => (w, .error e)
  | (w, .ok a) => f w a

namespace WebDav

/-- `get_namespace` -/
def getNamespace (w : WebDav) (name : Str) : Option Str := w.nameSpaces.lookup name

/-- `add_namespace`. Without an `id` the namespace is put under 0 as well, where nobody looks. -/
def addNamespace (w : WebDav) (name : Str) (id : Option Str) : Result Unit :=
  if id.isSome ∧ name = [] then (w, .error (.error "Invalid namespace!".toList))
  else if (w.getNamespace name).isSome then (w, .ok ())
  else
    let m := w.nameSpaces.insert name name
    match id with
    | none => ({ w with nameSpaces := m }, .ok ())
    | some id => ({ w with nameSpaces := m.insert id name }, .ok ())

/-- `find_prop` -/
def findProp (w : WebDav) (ns pn : Str) : WebDav × Option Property :=
  match w.getNamespace ns with
  | none => (w, none)
  | some n =>
    let p := { ns := n, prop := pn }
    match w.values.lookup p with
    | none => ({ w with values := w.values.insert p none }, some p)
    | some _ => (w, some p)

/-- `set_value` -/
def setValue (w : WebDav) (p : Property) (v : Option Str) : WebDav :=
  { w with values := w.values.insert p v }

/-- `get_value` -/
def getValue (w : WebDav) (p : Property) : Option Str := (w.values.lookup p).getD none

/-- The property `tname` of the namespace that `key` finds: `get_prop`, `m[p] = ...` and
`set_value`. Without a namespace it is 0 that is asked for the property. -/
def addProperty (w : WebDav) (key tname text : Str) : Result (List Property) :=
  match w.getNamespace key with
  | none => (w, .error .interpreter)
  | some n =>
    let p := { ns := n, prop := tname }
    (w.setValue p (some text), .ok [p])

/-- The attribute loop of `convert_to_mapping`. -/
def addNamespaces (w : WebDav) : List (Str × Str) → Result Unit
  | [] => (w, .ok ())
  | (attr, value) :: rest =>
    if "xmlns:".toList <+: attr then
      (w.addNamespace value (some (attr.drop 6))).andThen fun w _ => w.addNamespaces rest
    else w.addNamespaces rest

/-- What `convert_to_mapping` does for a property itself. -/
def convertProperty (w : WebDav) (ns tname : Str) (attributes : Option (List (Str × Str)))
    (text : Str) : Result (List Property) :=
  match attributes with
  | some attributes =>
    match attributes.lookup "xmlns".toList with
    | some xmlns =>
      (w.addNamespace xmlns none).andThen fun w _ => w.addProperty xmlns tname text
    | none => w.addProperty ns tname text
  | none =>
    match cut tname [':'] with
    | some (ns, tname) => w.addProperty ns tname text
    | none => w.addProperty [] tname text

end WebDav

/-- `sscanf(tname, "%s:%s", ns, tname)` -/
def splitTag (tagName : Str) : Str × Str := (cut tagName [':']).getD ([], tagName)

/-- Whether `convert_to_mapping` takes a node for a property. -/
def isProperty (pname : Option Str) (tname : Str) : Prop :=
  pname = some "prop".toList ∨ tname = "allprop".toList

instance (pname : Option Str) (tname : Str) : Decidable (isProperty pname tname) :=
  inferInstanceAs (Decidable (_ ∨ _))

/-- The `tname` that the children get for `pname`. -/
def childPname (pname : Option Str) (tname : Str) (attributes : Option (List (Str × Str))) : Str :=
  if isProperty pname tname ∧ attributes.isNone then (splitTag tname).2 else tname

mutual

/-- `convert_to_mapping`. The mapping is what was put into it, in order; the values in it, the
names of the namespaces, are not read. -/
def WebDav.convertToMapping (w : WebDav) (pname : Option Str) : XmlNode → Result (List Property)
  | .mk tagName attributes text children =>
    let (ns, tname) := splitTag tagName
    let own : Result (List Property) :=
      if isProperty pname tname then w.convertProperty ns tname attributes text else (w, .ok [])
    own.andThen fun w m =>
      (w.convertChildren (childPname pname tname attributes) children).andThen fun w ms =>
        (w, .ok (m ++ ms))

/-- Its loop over the children. -/
def WebDav.convertChildren (w : WebDav) (pname : Str) : List XmlNode → Result (List Property)
  | [] => (w, .ok [])
  | n :: rest =>
    (w.addNamespaces (n.attributes.getD [])).andThen fun w _ =>
      (w.convertToMapping (some pname) n).andThen fun w m =>
        (w.convertChildren pname rest).andThen fun w ms => (w, .ok (m ++ ms))

end

end Caudium.Dav
