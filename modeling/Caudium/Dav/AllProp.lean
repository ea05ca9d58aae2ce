import Caudium.Dav.Independent
import Caudium.Dav.Reports

/-!
# PROPFIND with allprop, and with names

An empty body stands for `allprop`: its mapping has the string "allprop" for a key, which is
what `retrieve_props` looks for. The mapping of an XML body has `Property` objects for keys, so
its `allprop` is not found and nothing is reported (`propfind_allprop_iff`). A body that names known
properties is answered with those of them that the empty body is answered with.
-/

namespace Caudium.Dav

open Lib (Str Mapping runFrom cut)
open Lib.Mapping (lookup_insert_ite)

/-! ## Tables only grow -/

/-- What was found in the tables is found in those that a call leaves. -/
def Keeps {α : Type} (w : WebDav) (r : Result α) : Prop :=
  ∀ name, (w.getNamespace name).isSome → (r.1.getNamespace name).isSome

section Keeps

variable {α β : Type} {w : WebDav}

theorem Keeps.same {r : Result α} (h : r.1.nameSpaces = w.nameSpaces) : Keeps w r := by
  intro name hname
  unfold WebDav.getNamespace at hname ⊢
  rwa [h]

theorem Keeps.andThen {r : Result α} {f : WebDav → α → Result β} (h : Keeps w r)
    (hf : ∀ w a, Keeps w (f w a)) : Keeps w (r.andThen f) := by
  obtain ⟨w', e | a⟩ := r
  · exact h
  · exact fun name hname => hf w' a name (h name hname)

theorem keeps_addNamespace (w : WebDav) (name : Str) (id : Option Str) :
    Keeps w (w.addNamespace name id) := by
  by_cases hinvalid : id.isSome ∧ name = []
  · rw [WebDav.addNamespace_invalid w hinvalid]
    exact Keeps.same rfl
  · cases hknown : w.getNamespace name with
    | some n =>
      rw [WebDav.addNamespace_known hinvalid hknown]
      exact Keeps.same rfl
    | none =>
      rw [WebDav.addNamespace_ok hinvalid]
      intro k hk
      show ((w.declared name id).getNamespace k).isSome
      rw [WebDav.getNamespace_declared hinvalid hknown]
      split
      · rfl
      · exact hk

theorem keeps_addProperty (w : WebDav) (key tname text : Str) :
    Keeps w (w.addProperty key tname text) := by
  unfold WebDav.addProperty
  split
  · exact Keeps.same rfl
  · exact Keeps.same rfl

theorem keeps_run (es : List Event) : ∀ w : WebDav, Keeps w (w.run es) := by
  induction es with
  | nil => exact fun w => Keeps.same rfl
  | cons e es ih =>
    intro w
    cases e with
    | declare name id => exact (keeps_addNamespace w name id).andThen fun w _ => ih w
    | property key tname text =>
      exact (keeps_addProperty w key tname text).andThen fun w _ =>
        (ih w).andThen fun w _ => Keeps.same rfl

theorem findProp_nameSpaces (w : WebDav) (ns pn : Str) :
    (w.findProp ns pn).1.nameSpaces = w.nameSpaces := by
  unfold WebDav.findProp
  split
  · rfl
  · dsimp only
    split <;> rfl

theorem keeps_patchedProperties (env : PikeEnv) (props : List XmlNode) :
    ∀ w : WebDav, Keeps w (patchedProperties env w props) := by
  have hone : ∀ (w : WebDav) prop, Keeps w (patchedProperty env w prop) := by
    intro w prop
    unfold patchedProperty
    split
    · exact Keeps.same rfl
    · split
      · exact Keeps.same rfl
      · next attributes hattributes =>
        dsimp only
        refine Keeps.andThen ?_ fun w _ => ?_
        · split
          · exact Keeps.same rfl
          · exact keeps_addNamespace w _ none
        · have hfind := findProp_nameSpaces w ((attributes.lookup "xmlns".toList).getD [])
            prop.tagName
          split
          · next w' heq =>
            rw [heq] at hfind
            exact Keeps.same hfind
          · next w' p heq =>
            rw [heq] at hfind
            exact Keeps.same hfind
  induction props with
  | nil => exact fun w => Keeps.same rfl
  | cons prop rest ih =>
    exact fun w => (hone w prop).andThen fun w _ => (ih w).andThen fun w _ => Keeps.same rfl

section Server

variable {γ : Type} (env : PikeEnv) (h : WebdavHandler γ)

theorem patchTurns_nameSpaces (context : γ) (namespaces : Option (List (Str × Str)))
    (remove : Bool) (ps : List Property) : ∀ r : WebDav × Str,
    (ps.foldl (patchTurn h context namespaces remove) r).1.nameSpaces = r.1.nameSpaces := by
  induction ps with
  | nil => exact fun r => rfl
  | cons p ps ih =>
    intro r
    rw [List.foldl_cons, ih]
    unfold patchTurn
    split <;> rfl

theorem keeps_patchNodes (context : γ) (namespaces : Option (List (Str × Str))) (remove : Bool)
    (nodes : List XmlNode) :
    ∀ w : WebDav, Keeps w (patchNodes env h context namespaces remove w nodes) := by
  induction nodes with
  | nil => exact fun w => Keeps.same rfl
  | cons n rest ih =>
    refine fun w => (keeps_patchedProperties env _ w).andThen fun w props => ?_
    have hturns := patchTurns_nameSpaces h context namespaces remove (env.indices props) (w, [])
    have hrest : Keeps w (patchNodes env h context namespaces remove
        ((env.indices props).foldl (patchTurn h context namespaces remove) (w, [])).1 rest) := by
      intro name hname
      refine ih _ name ?_
      unfold WebDav.getNamespace at hname ⊢
      rwa [hturns]
    exact hrest.andThen fun w _ => Keeps.same rfl

/-- A request takes nothing out of the tables. -/
theorem keeps_handleRequest (w : WebDav) (request : Request γ) :
    Keeps w (handleRequest env h w request) := by
  cases request with
  | propfind rawUrl depth data context =>
    have hbody : Keeps w (getXmlbodyProps env w data) := by
      unfold getXmlbodyProps
      split
      · exact Keeps.same (findProp_nameSpaces w _ _)
      · split
        · exact Keeps.same rfl
        · rw [WebDav.convertToMapping_eq]
          exact (keeps_run _ w).andThen fun w _ => Keeps.same rfl
    show Keeps w (propfind env h w rawUrl depth data context)
    unfold propfind
    revert hbody
    obtain ⟨w', e | xmlData⟩ := getXmlbodyProps env w data
    · exact fun hbody => hbody
    · exact fun hbody => hbody
  | proppatch url host data context =>
    show Keeps w (proppatch env h w url host data context)
    unfold proppatch
    dsimp only
    split
    · exact Keeps.same rfl
    · exact Keeps.same rfl
    · exact (keeps_patchNodes env h context _ false _ w).andThen fun w _ =>
        (keeps_patchNodes env h context _ true _ w).andThen fun w _ => Keeps.same rfl

/-- The namespace "" that `create` makes is always there. -/
theorem blank_known {requests : List (Request γ)} {s : Server γ}
    (hrun : runFrom (Server.step env h) Server.init requests = some s) :
    (s.tables.getNamespace []).isSome := by
  refine Lib.inv_of_runFrom (P := fun s => (s.tables.getNamespace []).isSome)
    (Q := fun _ => True) ?_ requests Server.init s (fun _ _ => trivial) rfl hrun
  intro s request s' _ hs hstep
  obtain rfl := Option.some.inj hstep
  exact keeps_handleRequest env h s.tables request [] hs

end Server

end Keeps

/-! ## Bodies -/

/-- White space. -/
def textNode (s : Str) : XmlNode := .mk [] none s []

/-- An element `pre:name`. -/
def element (pre name : Str) (attributes : List (Str × Str)) (text : Str)
    (children : List XmlNode) : XmlNode :=
  .mk (pre ++ ':' :: name) (some attributes) text children

/-- The tree of a document: a root that has the element, after a header if there is one. -/
def document (header : Option (List (Str × Str))) (before after : List Str) (e : XmlNode) :
    XmlNode :=
  .mk [] (some []) []
    (header.toList.map (fun attributes => .mk "xml".toList (some attributes) [] [])
    ++ before.map textNode ++ e :: after.map textNode)

/-- A body with a propfind element: what stands around it, and its attributes, of which one binds
its prefix. -/
structure Propfind where
  header : Option (List (Str × Str))
  before : List Str
  after : List Str
  pre : Str
  attributes : List (Str × Str)
  bound : attributes.lookup ("xmlns:".toList ++ pre) = some "DAV:".toList
  /-- A prefix has no colon, and a header declares none. -/
  colon : ':' ∉ pre
  declares : ∀ a ∈ header, attributeEvents a = []

/-- White space, or a property that is named. -/
abbrev Item := Option Str × Str

def Item.node (pre : Str) (item : Item) : XmlNode :=
  match item.1 with
  | none => textNode item.2
  | some name => element pre name [] item.2 []

namespace Propfind

variable (b : Propfind)

/-- With allprop in it. -/
def allprop (text : Str) (before after : List Str) : XmlNode :=
  document b.header b.before b.after (element b.pre "propfind".toList b.attributes []
    (before.map textNode ++ element b.pre "allprop".toList [] text [] :: after.map textNode))

/-- With names in it. -/
def named (items : List Item) (before after : List Str) : XmlNode :=
  document b.header b.before b.after (element b.pre "propfind".toList b.attributes []
    (before.map textNode ++
      element b.pre "prop".toList [] [] (items.map (Item.node b.pre)) :: after.map textNode))

end Propfind

/-! ## The events of a body -/

theorem splitTag_element {pre : Str} (h : ':' ∉ pre) (name : Str) :
    splitTag (pre ++ ':' :: name) = (pre, name) := by
  rw [splitTag, Lib.cut_char h, Option.getD_some]

theorem childEvents_append (pname : Str) (ns ns' : List XmlNode) :
    childEvents pname (ns ++ ns') = childEvents pname ns ++ childEvents pname ns' := by
  induction ns with
  | nil => rfl
  | cons n ns ih =>
    rw [List.cons_append, childEvents, childEvents, ih]
    simp only [List.append_assoc]

/-- White space outside of prop is nothing. -/
theorem childEvents_text {pname : Str} (h : pname ≠ "prop".toList) (texts : List Str) :
    childEvents pname (texts.map textNode) = [] := by
  have hnot : ¬ isProperty (some pname) [] := by
    intro hor
    obtain heq | heq := hor
    · exact h (Option.some.inj heq)
    · revert heq
      decide
  induction texts with
  | nil => rfl
  | cons s texts ih =>
    rw [List.map_cons, childEvents, ih]
    unfold textNode
    rw [events]
    simp [splitTag, cut, Lib.search, XmlNode.attributes, attributeEvents, hnot, childEvents]

theorem childEvents_element (pname : Str) {pre : Str} (h : ':' ∉ pre) (name : Str)
    (attributes : List (Str × Str)) (text : Str) (children rest : List XmlNode) :
    childEvents pname (element pre name attributes text children :: rest) =
      attributeEvents attributes ++
        ((if isProperty (some pname) name then propertyEvents pre name (some attributes) text
          else []) ++ childEvents name children ++ childEvents pname rest) := by
  have hname : childPname (some pname) name (some attributes) = name := if_neg (by simp)
  unfold element
  rw [childEvents, events, splitTag_element h, hname]
  rfl

/-- What stands around the element of a document is nothing. -/
theorem events_document {header : Option (List (Str × Str))}
    (hheader : ∀ a ∈ header, attributeEvents a = []) (before after : List Str) (e : XmlNode) :
    events none (document header before after e) = childEvents [] [e] := by
  have hblank : ([] : Str) ≠ "prop".toList := by decide
  have hroot : splitTag ([] : Str) = ([], []) := by simp [splitTag, cut, Lib.search]
  have hxml : childEvents [] (header.toList.map fun a => .mk "xml".toList (some a) [] []) = [] := by
    cases header with
    | none => rfl
    | some a =>
      have ha := hheader a rfl
      have htag : splitTag "xml".toList = ([], "xml".toList) := by decide
      have hnot : ¬ isProperty (some []) "xml".toList := by decide
      rw [Option.toList_some, List.map_cons, List.map_nil, childEvents, events, htag, if_neg hnot,
        childEvents, childEvents, List.append_nil, List.append_nil, List.append_nil]
      exact ha
  have hnot : ¬ isProperty none [] := by decide
  have hname : childPname none [] (some []) = [] := if_neg (by simp)
  have hafter := childEvents_append [] [e] (after.map textNode)
  rw [List.singleton_append] at hafter
  unfold document
  rw [events, hroot, if_neg hnot, hname, List.nil_append, List.append_assoc, childEvents_append,
    hxml, childEvents_append, childEvents_text hblank, hafter, childEvents_text hblank,
    List.append_nil, List.nil_append, List.nil_append]

/-- What a body with the propfind element does: it declares, then comes the content. -/
theorem events_propfind (b : Propfind) (content : List XmlNode) :
    events none (document b.header b.before b.after
        (element b.pre "propfind".toList b.attributes [] content)) =
      attributeEvents b.attributes ++ childEvents "propfind".toList content := by
  have hnot : ¬ isProperty (some []) "propfind".toList := by decide
  rw [events_document b.declares, childEvents_element [] b.colon, if_neg hnot, List.nil_append,
    childEvents, List.append_nil]

theorem events_allprop (b : Propfind) (text : Str) (before after : List Str) :
    events none (b.allprop text before after) =
      attributeEvents b.attributes ++ [.property b.pre "allprop".toList text] := by
  have hne : "propfind".toList ≠ "prop".toList := by decide
  have hyes : isProperty (some "propfind".toList) "allprop".toList := Or.inr rfl
  unfold Propfind.allprop
  rw [events_propfind, childEvents_append, childEvents_text hne, childEvents_element _ b.colon,
    if_pos hyes, childEvents_text hne]
  rfl

/-- The event of an item of prop. -/
def Item.event (pre : Str) (item : Item) : Event :=
  match item.1 with
  | none => .property [] [] item.2
  | some name => .property pre name item.2

theorem childEvents_items {pre : Str} (h : ':' ∉ pre) (items : List Item) :
    childEvents "prop".toList (items.map (Item.node pre)) = items.map (Item.event pre) := by
  have hprop : ∀ name, isProperty (some "prop".toList) name := fun _ => Or.inl rfl
  induction items with
  | nil => rfl
  | cons item items ih =>
    obtain ⟨name, text⟩ := item
    cases name with
    | none =>
      have hroot : splitTag ([] : Str) = ([], []) := by simp [splitTag, cut, Lib.search]
      rw [List.map_cons, List.map_cons, childEvents, ih]
      show attributeEvents [] ++ (events (some "prop".toList) (textNode text) ++ _) = _
      unfold textNode
      rw [events, hroot, if_pos (hprop _)]
      simp [attributeEvents, propertyEvents, cut, Lib.search, childEvents, Item.event]
    | some name =>
      rw [List.map_cons, List.map_cons, ← ih]
      show childEvents _ (element pre name [] text [] :: _) = _
      rw [childEvents_element _ h, if_pos (hprop name)]
      rfl

theorem events_named (b : Propfind) (items : List Item) (before after : List Str) :
    events none (b.named items before after) =
      attributeEvents b.attributes ++ items.map (Item.event b.pre) := by
  have hne : "propfind".toList ≠ "prop".toList := by decide
  have hnot : ¬ isProperty (some "propfind".toList) "prop".toList := by decide
  unfold Propfind.named
  rw [events_propfind, childEvents_append, childEvents_text hne, childEvents_element _ b.colon,
    if_neg hnot, childEvents_text hne, childEvents_items b.colon]
  simp [attributeEvents]

/-! ## What the tables make of it -/

/-- The name that an event asks for. -/
def Event.name : Event → Option Str
  | .declare _ _ => none
  | .property _ tname _ => some tname

/-- The names of the items; white space has the empty one. -/
theorem mem_names_items (pre : Str) (items : List Item) (name : Str) :
    name ∈ (items.map (Item.event pre)).filterMap Event.name ↔
      some name ∈ items.map Prod.fst ∨ name = [] ∧ none ∈ items.map Prod.fst := by
  simp only [List.mem_filterMap, List.mem_map]
  constructor
  · intro h
    obtain ⟨e, ⟨⟨_ | found, text⟩, hitem, rfl⟩, hname⟩ := h
    · obtain rfl := Option.some.inj hname
      exact Or.inr ⟨rfl, ⟨_, hitem, rfl⟩⟩
    · obtain rfl := Option.some.inj hname
      exact Or.inl ⟨_, hitem, rfl⟩
  · intro h
    obtain ⟨⟨_ | found, text⟩, hitem, hname⟩ | ⟨rfl, ⟨_ | found, text⟩, hitem, hname⟩ := h
    · cases hname
    · obtain rfl := Option.some.inj hname
      exact ⟨_, ⟨_, hitem, rfl⟩, rfl⟩
    · exact ⟨_, ⟨_, hitem, rfl⟩, rfl⟩
    · cases hname

/-- A declaration asks for nothing. -/
theorem names_attributeEvents (attributes : List (Str × Str)) :
    (attributeEvents attributes).filterMap Event.name = [] := by
  refine List.filterMap_eq_nil_iff.mpr fun e he => ?_
  obtain ⟨a, -, rfl⟩ := List.mem_map.mp he
  rfl

/-- A sequence of calls is through when each of them is. -/
theorem Result.andThen_eq_ok {α β : Type} {r : Result α} {f : WebDav → α → Result β}
    {w' : WebDav} {b : β} :
    r.andThen f = (w', .ok b) ↔ ∃ w a, r = (w, .ok a) ∧ f w a = (w', .ok b) := by
  obtain ⟨w, e | a⟩ := r
  · refine iff_of_false (fun h => ?_) ?_
    · exact nomatch (Prod.mk.inj h).2
    · intro hand
      obtain ⟨w, a, h, -⟩ := hand
      exact nomatch (Prod.mk.inj h).2
  · constructor
    · exact fun h => ⟨w, a, rfl, h⟩
    · intro hand
      obtain ⟨w₁, a₁, h, hf⟩ := hand
      obtain ⟨rfl, ha⟩ := Prod.mk.inj h
      obtain rfl := Except.ok.inj ha
      exact hf

/-- A property is found if its namespace is. -/
theorem WebDav.addProperty_eq_ok {w w' : WebDav} {key tname text : Str} {m : List Property} :
    w.addProperty key tname text = (w', .ok m) ↔ ∃ n, w.getNamespace key = some n ∧
      w' = w.setValue ⟨n, tname⟩ (some text) ∧ m = [⟨n, tname⟩] := by
  unfold WebDav.addProperty
  cases w.getNamespace key with
  | none => simp
  | some n => simp [eq_comm]

/-- The properties are those that were asked for, in order. -/
theorem run_names (es : List Event) : ∀ {w w' : WebDav} {m : List Property},
    w.run es = (w', .ok m) → m.map Property.prop = es.filterMap Event.name := by
  induction es with
  | nil =>
    intro w w' m hrun
    obtain ⟨-, hm⟩ := Prod.mk.inj hrun
    obtain rfl := Except.ok.inj hm
    rfl
  | cons e es ih =>
    intro w w' m hrun
    cases e with
    | declare name id =>
      obtain ⟨w₁, -, -, hrest⟩ := Result.andThen_eq_ok.1 hrun
      exact ih hrest
    | property key tname text =>
      obtain ⟨w₁, own, hown, hrest⟩ := Result.andThen_eq_ok.1 hrun
      obtain ⟨n, -, -, rfl⟩ := WebDav.addProperty_eq_ok.1 hown
      obtain ⟨w₂, ms, hms, hlast⟩ := Result.andThen_eq_ok.1 hrest
      obtain ⟨-, hm⟩ := Prod.mk.inj hlast
      obtain rfl := Except.ok.inj hm
      simp [Event.name, ih hms]

/-- Properties alone are found if their namespaces are. -/
theorem run_items (pre : Str) (items : List Item) : ∀ {w : WebDav}, (w.getNamespace []).isSome →
    ((∃ w' m, w.run (items.map (Item.event pre)) = (w', .ok m)) ↔
      ((∃ name, some name ∈ items.map Prod.fst) → (w.getNamespace pre).isSome)) := by
  induction items with
  | nil =>
    intro w _
    exact iff_of_true ⟨w, [], rfl⟩ fun hname => by simp at hname
  | cons item items ih =>
    intro w hblank
    obtain ⟨name, text⟩ := item
    -- one property: it is found, and the tables find what they found before
    have hstep : ∀ key tname,
        (∃ w' m, w.run (.property key tname text :: items.map (Item.event pre)) = (w', .ok m)) ↔
          (w.getNamespace key).isSome ∧
            ((∃ name, some name ∈ items.map Prod.fst) → (w.getNamespace pre).isSome) := by
      intro key tname
      constructor
      · intro hand
        obtain ⟨w', m, hrun⟩ := hand
        obtain ⟨w₁, own, hown, hrest⟩ := Result.andThen_eq_ok.1 hrun
        obtain ⟨n, hn, rfl, -⟩ := WebDav.addProperty_eq_ok.1 hown
        obtain ⟨w₂, ms, hms, -⟩ := Result.andThen_eq_ok.1 hrest
        exact ⟨by rw [hn]; rfl,
          (ih (w := w.setValue ⟨n, tname⟩ (some text)) hblank).mp ⟨w₂, ms, hms⟩⟩
      · intro hand
        obtain ⟨hkey, hnames⟩ := hand
        obtain ⟨n, hn⟩ := Option.isSome_iff_exists.mp hkey
        obtain ⟨w₂, ms, hms⟩ := (ih (w := w.setValue ⟨n, tname⟩ (some text)) hblank).mpr hnames
        have hown : w.addProperty key tname text = (_, .ok _) :=
          WebDav.addProperty_eq_ok.2 ⟨n, hn, rfl, rfl⟩
        exact ⟨w₂, _, Result.andThen_eq_ok.2 ⟨_, _, hown, Result.andThen_eq_ok.2
          ⟨w₂, ms, hms, rfl⟩⟩⟩
    cases name with
    | none =>
      refine (hstep [] []).trans ?_
      simp [hblank]
    | some name =>
      refine (hstep pre name).trans ?_
      simp only [List.map_cons, List.mem_cons]
      constructor
      · exact fun h _ => h.1
      · exact fun h => ⟨h ⟨name, Or.inl rfl⟩, fun _ => h ⟨name, Or.inl rfl⟩⟩

/-- The declarations of a body are accepted, and if it names properties its prefix is found. -/
def Resolves (w : WebDav) (b : Propfind) (items : List Item) : Prop :=
  ∃ w', w.addNamespaces b.attributes = (w', .ok ()) ∧
    ((∃ name, some name ∈ items.map Prod.fst) → (w'.getNamespace b.pre).isSome)

theorem run_named (b : Propfind) (items : List Item) (before after : List Str) {w : WebDav}
    (hblank : (w.getNamespace []).isSome) :
    (∃ w' m, w.run (events none (b.named items before after)) = (w', .ok m)) ↔
      Resolves w b items := by
  have hkeeps : Keeps w (w.addNamespaces b.attributes) := by
    have hrun := keeps_run (attributeEvents b.attributes) w
    rw [WebDav.run_attributeEvents] at hrun
    revert hrun
    obtain ⟨w₁, e | u⟩ := w.addNamespaces b.attributes
    · exact fun hrun => hrun
    · exact fun hrun => hrun
  rw [events_named, WebDav.run_append, WebDav.run_attributeEvents]
  constructor
  · intro hand
    obtain ⟨w', m, hrun⟩ := hand
    obtain ⟨w₁, own, hown, hrest⟩ := Result.andThen_eq_ok.1 hrun
    obtain ⟨w₂, u, hdeclare, hsame⟩ := Result.andThen_eq_ok.1 hown
    obtain ⟨rfl, -⟩ := Prod.mk.inj hsame
    obtain ⟨w₃, ms, hms, -⟩ := Result.andThen_eq_ok.1 hrest
    have hblank' := hkeeps [] hblank
    rw [hdeclare] at hblank'
    exact ⟨w₂, hdeclare, (run_items b.pre items hblank').mp ⟨w₃, ms, hms⟩⟩
  · intro hand
    obtain ⟨w₂, hdeclare, hnames⟩ := hand
    have hblank' := hkeeps [] hblank
    rw [hdeclare] at hblank'
    obtain ⟨w₃, ms, hms⟩ := (run_items b.pre items hblank').mpr hnames
    exact ⟨w₃, _, Result.andThen_eq_ok.2 ⟨w₂, [], Result.andThen_eq_ok.2
      ⟨w₂, (), hdeclare, rfl⟩, Result.andThen_eq_ok.2 ⟨w₃, ms, hms, rfl⟩⟩⟩

/-! ## The answers -/

section Answers

variable {γ : Type} {env : PikeEnv} {h : WebdavHandler γ} {w : WebDav} {url depth : Option Str}
  {context : γ}

/-- The answer to the empty body. -/
theorem propfind_empty (hblank : (w.getNamespace []).isSome) :
    (propfind env h w url depth (some []) context).2 =
      match resources env h (urlOr url) (depth.getD "infinity".toList) with
      | some rs => .ok (multiStatus (page env (fun _ => true) rs))
      | none =>
        if h.statFile (urlOr url) = none then .ok (lowAnswer 404 []) else .error .interpreter := by
  obtain ⟨n, hn⟩ := Option.isSome_iff_exists.mp hblank
  have hfind : (w.findProp [] "allprop".toList).2 = some ⟨n, "allprop".toList⟩ := by
    unfold WebDav.findProp
    rw [hn]
    dsimp only
    split <;> rfl
  unfold propfind getXmlbodyProps
  rw [if_pos (by rfl)]
  dsimp only
  rw [hfind]
  exact answerPropfind_eq (retrieveProps_allprop env h context _ _) _ _

/-- The answer to a body that asks for known properties only, with white space and allprop. -/
theorem propfind_body {body : Str} {node : XmlNode} (hne : body ≠ [])
    (hparse : env.parseInput body = some node) {w' : WebDav} {m : List Property}
    (hrun : w.run (events none node) = (w', .ok m))
    (hm : ∀ p ∈ m, p.prop ∈ davProps ∨ p.prop = "allprop".toList ∨ p.prop = []) :
    (propfind env h w url depth (some body) context).2 =
      match resources env h (urlOr url) (depth.getD "infinity".toList) with
      | some rs =>
        .ok (multiStatus (page env (fun name => decide (name ∈ m.map Property.prop)) rs))
      | none =>
        if h.statFile (urlOr url) = none then .ok (lowAnswer 404 []) else .error .interpreter := by
  unfold propfind getXmlbodyProps
  rw [if_neg (by exact hne), Option.getD_some, hparse]
  dsimp only
  rw [WebDav.convertToMapping_eq, hrun]
  exact answerPropfind_eq (retrieveProps_props env h context w' hm) _ _

/-- A body that the tables do not take is a bad request. -/
theorem propfind_bad {body : Str} {node : XmlNode} (hne : body ≠ [])
    (hparse : env.parseInput body = some node)
    (hrun : ¬ ∃ w' m, w.run (events none node) = (w', .ok m)) :
    (propfind env h w url depth (some body) context).2 =
      .ok (lowAnswer 400 "bad request".toList) := by
  unfold propfind getXmlbodyProps
  rw [if_neg (by exact hne), Option.getD_some, hparse]
  dsimp only
  rw [WebDav.convertToMapping_eq]
  obtain ⟨w₁, e | m, hrest⟩ : ∃ w₁ r, w.run (events none node) = (w₁, r) := ⟨_, _, rfl⟩
  · rw [hrest]
    rfl
  · exact absurd ⟨w₁, m, hrest⟩ hrun

theorem lowAnswer_ne {code : Nat} (hcode : code ≠ 207) (comment text : Str) :
    (.ok (lowAnswer code comment) : Except Fault Answer) ≠ .ok (multiStatus text) := by
  intro heq
  exact hcode (congrArg Answer.error (Except.ok.inj heq))

/-- Without a listing there is no multistatus. -/
theorem not_multiStatus (hblank : (w.getNamespace []).isSome)
    (hnone : resources env h (urlOr url) (depth.getD "infinity".toList) = none) (text : Str) :
    (propfind env h w url depth (some []) context).2 ≠ .ok (multiStatus text) := by
  rw [propfind_empty hblank, hnone]
  dsimp only
  split
  · exact lowAnswer_ne (by decide) _ _
  · exact fun heq => nomatch heq

/-- With allprop in the body nothing is reported. -/
theorem propfind_allprop (w : WebDav) (context : γ) {b : Propfind} {text : Str}
    {before after : List Str} {body : Str}
    (hne : body ≠ []) (hparse : env.parseInput body = some (b.allprop text before after))
    {rs : List (Str × Stat)}
    (hrs : resources env h (urlOr url) (depth.getD "infinity".toList) = some rs) :
    (propfind env h w url depth (some body) context).2 = .ok (lowAnswer 400 "bad request".toList) ∨
      ∃ asked, (∀ name ∈ reported, asked name = false) ∧
        (propfind env h w url depth (some body) context).2 =
          .ok (multiStatus (page env asked rs)) := by
  by_cases hrun : ∃ w' m, w.run (events none (b.allprop text before after)) = (w', .ok m)
  · obtain ⟨w', m, hrun⟩ := hrun
    have hnames := run_names _ hrun
    rw [events_allprop, List.filterMap_append, names_attributeEvents, List.nil_append] at hnames
    have hnames : m.map Property.prop = ["allprop".toList] := hnames
    have hm : ∀ p ∈ m, p.prop = "allprop".toList := by
      intro p hp
      have hmem := List.mem_map_of_mem (f := Property.prop) hp
      rw [hnames] at hmem
      exact List.mem_singleton.mp hmem
    refine Or.inr ⟨fun name => decide (name ∈ m.map Property.prop), ?_, ?_⟩
    · rw [hnames]
      decide
    · rw [propfind_body hne hparse hrun fun p hp => Or.inr (Or.inl (hm p hp)), hrs]
  · exact Or.inl (propfind_bad hne hparse hrun)

/-- That is not what an empty body gets. -/
theorem propfind_allprop_ne (w : WebDav) (context : γ) {b : Propfind} {text : Str}
    {before after : List Str} {body : Str}
    (hne : body ≠ []) (hparse : env.parseInput body = some (b.allprop text before after))
    {rs : List (Str × Stat)}
    (hrs : resources env h (urlOr url) (depth.getD "infinity".toList) = some rs) :
    (propfind env h w url depth (some body) context).2 ≠
      .ok (multiStatus (page env (fun _ => true) rs)) := by
  rcases propfind_allprop w context hne hparse hrs with hbad | ⟨asked, hasked, hpage⟩
  · rw [hbad]
    exact lowAnswer_ne (by decide) _ _
  · rw [hpage]
    intro heq
    exact page_ne env hasked (resources_ne_nil env hrs) (congrArg Answer.data (Except.ok.inj heq))

/-- With names in the body those of them that are known are reported. -/
theorem propfind_named {b : Propfind} {items : List Item} {before after : List Str} {body : Str}
    (hitems : ∀ name, some name ∈ items.map Prod.fst → name ∈ davProps) (hne : body ≠ [])
    (hparse : env.parseInput body = some (b.named items before after))
    (hblank : (w.getNamespace []).isSome) (hfound : Resolves w b items)
    {rs : List (Str × Stat)}
    (hrs : resources env h (urlOr url) (depth.getD "infinity".toList) = some rs) :
    (propfind env h w url depth (some body) context).2 = .ok (multiStatus
      (page env (fun name => decide (some name ∈ items.map Prod.fst)) rs)) := by
  obtain ⟨w', m, hrun⟩ := (run_named b items before after hblank).mpr hfound
  have hnames := run_names _ hrun
  rw [events_named, List.filterMap_append, names_attributeEvents, List.nil_append] at hnames
  have hmem : ∀ name, name ∈ m.map Property.prop ↔
      some name ∈ items.map Prod.fst ∨ name = [] ∧ none ∈ items.map Prod.fst := by
    intro name
    rw [hnames]
    exact mem_names_items b.pre items name
  have hm : ∀ p ∈ m, p.prop ∈ davProps ∨ p.prop = "allprop".toList ∨ p.prop = [] := by
    intro p hp
    rcases (hmem p.prop).mp (List.mem_map_of_mem hp) with hname | ⟨hname, -⟩
    · exact Or.inl (hitems p.prop hname)
    · exact Or.inr (Or.inr hname)
  rw [propfind_body hne hparse hrun hm, hrs]
  refine congrArg (fun text => Except.ok (multiStatus text))
    (page_congr env (fun name hname => ?_) rs)
  have hne : name ≠ [] := by
    intro heq
    subst heq
    revert hname
    decide
  exact decide_eq_decide.mpr ((hmem name).trans (by simp [hne]))

/-- The empty body and a body with allprop get the same multistatus only where there is none; a
body that names known properties gets those of them that the empty body gets, where its prefix
is found. -/
theorem propfind_allprop_iff {requests : List (Request γ)} {s : Server γ}
    (hrun : runFrom (Server.step env h) Server.init requests = some s)
    {b b' : Propfind} {text : Str} {before after before' after' : List Str} {items : List Item}
    (hitems : ∀ name, some name ∈ items.map Prod.fst → name ∈ davProps)
    {allprop named : Str} (hallprop : allprop ≠ []) (hnamed : named ≠ [])
    (hparse : env.parseInput allprop = some (b.allprop text before after))
    (hparse' : env.parseInput named = some (b'.named items before' after')) :
    let reply (data : Str) := (propfind env h s.tables url depth (some data) context).2
    let listed := Listed h (urlOr url) (depth.getD "infinity".toList)
    let rs := resources env h (urlOr url) (depth.getD "infinity".toList)
    ((∀ answer, reply [] = .ok (multiStatus answer) → reply allprop = .ok (multiStatus answer)) ↔
      ¬ listed) ∧
    ((∀ answer, reply [] = .ok (multiStatus answer) → ∃ files, rs = some files ∧
        answer = page env (fun _ => true) files ∧
        reply named = .ok (multiStatus
          (page env (fun name => decide (some name ∈ items.map Prod.fst)) files))) ↔
      ¬ listed ∨ Resolves s.tables b' items) := by
  intro reply listed rs
  have hblank := blank_known env h hrun
  have hlisted : rs.isSome ↔ listed := resources_isSome env h _ _
  cases hrs : rs with
  | none =>
    have hnone : ∀ answer, reply [] ≠ .ok (multiStatus answer) := not_multiStatus hblank hrs
    rw [hrs] at hlisted
    have hnot : ¬ listed := fun h => nomatch hlisted.mpr h
    exact ⟨iff_of_true (fun answer heq => absurd heq (hnone answer)) hnot,
      iff_of_true (fun answer heq => absurd heq (hnone answer)) (Or.inl hnot)⟩
  | some files =>
    have hempty : reply [] = .ok (multiStatus (page env (fun _ => true) files)) := by
      show (propfind env h s.tables url depth (some []) context).2 = _
      rw [propfind_empty hblank, show resources env h (urlOr url) (depth.getD _) = _ from hrs]
    rw [hrs] at hlisted
    have hyes : listed := hlisted.mp rfl
    constructor
    · refine iff_of_false (fun hsame => ?_) (fun hnot => hnot hyes)
      exact propfind_allprop_ne s.tables context hallprop hparse hrs (hsame _ hempty)
    · rw [or_iff_right (fun hnot => hnot hyes)]
      constructor
      · intro hsame
        obtain ⟨files', -, -, hreply⟩ := hsame _ hempty
        refine (run_named b' items before' after' hblank).mp ?_
        by_contra hbad
        rw [show reply named = _ from propfind_bad hnamed hparse' hbad] at hreply
        exact lowAnswer_ne (by decide) _ _ hreply
      · intro hfound answer heq
        rw [hempty] at heq
        exact ⟨files, rfl, (congrArg Answer.data (Except.ok.inj heq)).symm,
          propfind_named hitems hnamed hparse' hblank hfound hrs⟩

end Answers

/-- A client that calls "DAV:" D. -/
def client : Propfind where
  header := none
  before := []
  after := []
  pre := ['D']
  attributes := [("xmlns:D".toList, "DAV:".toList)]
  bound := by decide
  colon := by decide
  declares := by simp

def allpropBody : Str := "<D:propfind xmlns:D=\"DAV:\"><D:allprop/></D:propfind>".toList

def typeBody : Str :=
  "<D:propfind xmlns:D=\"DAV:\"><D:prop><D:resourcetype/></D:prop></D:propfind>".toList

/-- Its two bodies are parsed. -/
def clientParse (data : Str) : Option XmlNode :=
  if data = allpropBody then some (client.allprop [] [] [])
  else if data = typeBody then some (client.named [(some "resourcetype".toList, [])] [] [])
  else none

def clientEnv : PikeEnv := { lengthEnv with parseInput := clientParse }

theorem clientParse_allprop :
    clientEnv.parseInput allpropBody = some (client.allprop [] [] []) := by
  show clientParse allpropBody = _
  rw [clientParse, if_pos rfl]

theorem clientParse_type : clientEnv.parseInput typeBody =
    some (client.named [(some "resourcetype".toList, [])] [] []) := by
  have hne : typeBody ≠ allpropBody := by decide
  show clientParse typeBody = _
  rw [clientParse, if_neg hne, if_pos rfl]

theorem propfind_allprop_iff_client :
    let s : Server Unit := Server.init
    let items : List Item := [(some "resourcetype".toList, [])]
    let reply (data : Str) :=
      (propfind clientEnv lengthHandler s.tables none none (some data) ()).2
    let listed := Listed lengthHandler (urlOr none) "infinity".toList
    let rs := resources clientEnv lengthHandler (urlOr none) "infinity".toList
    ((∀ answer, reply [] = .ok (multiStatus answer) →
        reply allpropBody = .ok (multiStatus answer)) ↔
      ¬ listed) ∧
    ((∀ answer, reply [] = .ok (multiStatus answer) → ∃ files, rs = some files ∧
        answer = page clientEnv (fun _ => true) files ∧
        reply typeBody = .ok (multiStatus
          (page clientEnv (fun name => decide (some name ∈ items.map Prod.fst)) files))) ↔
      ¬ listed ∨ Resolves s.tables client items) := by
  intro s items
  have hitems : ∀ name, some name ∈ items.map Prod.fst → name ∈ davProps := by
    intro name hname
    obtain rfl : name = "resourcetype".toList :=
      Option.some.inj (List.mem_singleton.mp hname)
    decide
  have hrun : runFrom (Server.step clientEnv lengthHandler) Server.init [] = some s := rfl
  exact propfind_allprop_iff hrun hitems (by decide) (by decide) clientParse_allprop
    clientParse_type

/-- The empty body gets the properties of a file, the body with allprop gets none. -/
theorem allprop_not_reported :
    let reply (data : Str) :=
      (propfind clientEnv lengthHandler WebDav.create (some "/f".toList) none (some data) ()).2
    ¬ ∀ answer, reply [] = .ok (multiStatus answer) →
      reply allpropBody = .ok (multiStatus answer) := by
  intro reply hsame
  have hempty : reply [] = .ok (multiStatus (page clientEnv (fun _ => true)
      [("/f".toList, { size := 0, accessed := 0, modified := 0, mimeType := none })])) :=
    propfind_empty rfl
  have hreply := congrArg (fun r => r.toOption.map Answer.data) (hsame _ hempty)
  revert hreply
  decide +kernel

end Caudium.Dav
