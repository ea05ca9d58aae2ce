import Caudium.Dav.Requests
import Caudium.Lib.Runs

/-!
# Requests that know nothing of each other

A body is a sequence of declarations and properties (`events`), and `convert_to_mapping` works
them off in order (`convertToMapping_eq`). `Undisturbed` compares the tables a request finds with
a table of the body's own: what is new to the body is either new to the server as well, or is
known there under the same prefix. Then every property is found in the same namespace in both
(`run_follows`), and the answer of `propfind` is that of a fresh server (`propfind_own`).
-/

namespace Caudium.Dav

open Lib (Str Mapping cut Always EachStep always_of_step)
open Lib.Mapping (lookup_insert_ite)

/-! ## Bodies as sequences -/

/-- What a body does to the tables. -/
inductive Event
  /-- `add_namespace(name, id)` -/
  | declare (name : Str) (id : Option Str)
  /-- A property, looked up in the namespace of `key`. -/
  | property (key tname text : Str)

/-- The declarations among the attributes of a node. -/
def attributeEvents (attributes : List (Str × Str)) : List Event :=
  (attributes.filter fun a => "xmlns:".toList <+: a.1).map fun a =>
    .declare a.2 (some (a.1.drop 6))

/-- The property itself. -/
def propertyEvents (ns tname : Str) (attributes : Option (List (Str × Str))) (text : Str) :
    List Event :=
  match attributes with
  | some attributes =>
    match attributes.lookup "xmlns".toList with
    | some xmlns => [.declare xmlns none, .property xmlns tname text]
    | none => [.property ns tname text]
  | none =>
    match cut tname [':'] with
    | some (ns, tname) => [.property ns tname text]
    | none => [.property [] tname text]

mutual

def events (pname : Option Str) : XmlNode → List Event
  | .mk tagName attributes text children =>
    (if isProperty pname (splitTag tagName).2 then
      propertyEvents (splitTag tagName).1 (splitTag tagName).2 attributes text
    else []) ++
      childEvents (childPname pname (splitTag tagName).2 attributes) children

def childEvents (pname : Str) : List XmlNode → List Event
  | [] => []
  | n :: rest =>
    attributeEvents (n.attributes.getD []) ++ (events (some pname) n ++ childEvents pname rest)

end

namespace WebDav

/-- The events, one after the other, and the properties found. -/
def run (w : WebDav) : List Event → Result (List Property)
  | [] => (w, .ok [])
  | .declare name id :: es => (w.addNamespace name id).andThen fun w _ => w.run es
  | .property key tname text :: es =>
    (w.addProperty key tname text).andThen fun w m =>
      (w.run es).andThen fun w ms => (w, .ok (m ++ ms))

end WebDav

theorem Result.ok_andThen {α β : Type} (w : WebDav) (a : α) (f : WebDav → α → Result β) :
    Result.andThen (w, .ok a) f = f w a := rfl

theorem Result.andThen_assoc {α β δ : Type} (r : Result α) (f : WebDav → α → Result β)
    (g : WebDav → β → Result δ) :
    (r.andThen f).andThen g = r.andThen fun w a => (f w a).andThen g := by
  obtain ⟨w, e | a⟩ := r
  · rfl
  · rfl

theorem Result.andThen_ok {α : Type} (r : Result α) :
    (r.andThen fun w a => (w, .ok a)) = r := by
  obtain ⟨w, e | a⟩ := r
  · rfl
  · rfl

namespace WebDav

theorem run_append (w : WebDav) (es es' : List Event) :
    w.run (es ++ es') = (w.run es).andThen fun w m =>
      (w.run es').andThen fun w ms => (w, .ok (m ++ ms)) := by
  induction es generalizing w with
  | nil => exact (Result.andThen_ok _).symm
  | cons e es ih =>
    cases e with
    | declare name id =>
      rw [List.cons_append, run, run, Result.andThen_assoc]
      simp only [ih]
    | property key tname text =>
      rw [List.cons_append, run, run, Result.andThen_assoc]
      simp only [ih, Result.andThen_assoc, Result.ok_andThen, List.append_assoc]

theorem run_attributeEvents (w : WebDav) (attributes : List (Str × Str)) :
    w.run (attributeEvents attributes) = (w.addNamespaces attributes).andThen
      fun w _ => (w, .ok []) := by
  induction attributes generalizing w with
  | nil => rfl
  | cons a rest ih =>
    obtain ⟨attr, value⟩ := a
    rw [addNamespaces, attributeEvents]
    rw [List.filter_cons]
    by_cases h : "xmlns:".toList <+: attr
    · rw [if_pos h, if_pos (decide_eq_true h), List.map_cons, run, Result.andThen_assoc]
      congr 1
      funext w _
      exact ih w
    · rw [if_neg h, if_neg (by rwa [decide_eq_true_iff])]
      exact ih w

theorem run_propertyEvents (w : WebDav) (ns tname : Str)
    (attributes : Option (List (Str × Str))) (text : Str) :
    w.run (propertyEvents ns tname attributes text) =
      w.convertProperty ns tname attributes text := by
  have hone : ∀ (w : WebDav) key tname,
      w.run [.property key tname text] = w.addProperty key tname text := by
    intro w key tname
    rw [run]
    simp only [run, Result.andThen, List.append_nil]
    exact Result.andThen_ok _
  unfold propertyEvents convertProperty
  cases attributes with
  | some attributes =>
    dsimp only
    cases attributes.lookup "xmlns".toList with
    | some xmlns =>
      dsimp only
      rw [run]
      simp only [hone]
    | none => exact hone w ns tname
  | none =>
    dsimp only
    cases cut tname [':'] with
    | some found => exact hone w found.1 found.2
    | none => exact hone w [] tname

mutual

/-- `convert_to_mapping` works off the events of the node. -/
theorem convertToMapping_eq (w : WebDav) (pname : Option Str) :
    ∀ node, w.convertToMapping pname node = w.run (events pname node)
  | .mk tagName attributes text children => by
    rw [convertToMapping, events, run_append]
    simp only [convertChildren_eq]
    congr 1
    split
    · exact (run_propertyEvents w _ _ attributes text).symm
    · rfl

theorem convertChildren_eq (w : WebDav) (pname : Str) :
    ∀ ns, w.convertChildren pname ns = w.run (childEvents pname ns)
  | [] => by rw [convertChildren, childEvents, run]
  | n :: rest => by
    rw [convertChildren, childEvents, run_append, run_attributeEvents, Result.andThen_assoc]
    simp only [convertToMapping_eq, convertChildren_eq, run_append, Result.ok_andThen,
      List.nil_append]
    congr 1
    funext w _
    exact (Result.andThen_ok _).symm

end

end WebDav

/-! ## What a step does to the tables -/

namespace WebDav

/-- The tables with a new namespace. -/
def declared (w : WebDav) (name : Str) (id : Option Str) : WebDav := (w.addNamespace name id).1

theorem addNamespace_invalid (w : WebDav) {name : Str} {id : Option Str}
    (h : id.isSome ∧ name = []) :
    w.addNamespace name id = (w, .error (.error "Invalid namespace!".toList)) := by
  rw [addNamespace, if_pos h]

theorem addNamespace_known {w : WebDav} {name : Str} {id : Option Str} {n : Str}
    (h : ¬(id.isSome ∧ name = [])) (hn : w.getNamespace name = some n) :
    w.addNamespace name id = (w, .ok ()) := by
  rw [addNamespace, if_neg h, if_pos (by rw [hn]; rfl)]

theorem addNamespace_ok {w : WebDav} {name : Str} {id : Option Str}
    (h : ¬(id.isSome ∧ name = [])) :
    w.addNamespace name id = (w.declared name id, .ok ()) := by
  rw [declared, addNamespace, if_neg h]
  split
  · rfl
  · cases id with
    | none => rfl
    | some id => rfl

theorem getNamespace_declared {w : WebDav} {name : Str} {id : Option Str}
    (h : ¬(id.isSome ∧ name = [])) (hn : w.getNamespace name = none) (k : Str) :
    (w.declared name id).getNamespace k =
      if some k = id ∨ k = name then some name else w.getNamespace k := by
  rw [declared, addNamespace, if_neg h, if_neg (by rw [hn]; simp)]
  cases id with
  | none =>
    rw [getNamespace, lookup_insert_ite]
    simp [getNamespace]
  | some id =>
    rw [getNamespace, lookup_insert_ite, lookup_insert_ite]
    by_cases hid : k = id
    · rw [if_pos hid, if_pos (Or.inl (congrArg some hid))]
    · by_cases hname : k = name
      · rw [if_neg hid, if_pos hname, if_pos (Or.inr hname)]
      · rw [if_neg hid, if_neg hname, if_neg (by simp [hid, hname])]
        rfl

theorem getValue_declared (w : WebDav) (name : Str) (id : Option Str) (p : Property) :
    (w.declared name id).getValue p = w.getValue p := by
  rw [declared, addNamespace]
  split
  · rfl
  · split
    · rfl
    · cases id with
      | none => rfl
      | some id => rfl

theorem getValue_setValue (w : WebDav) (p q : Property) (v : Option Str) :
    (w.setValue p v).getValue q = if q = p then v else w.getValue q := by
  rw [getValue, setValue, lookup_insert_ite]
  by_cases h : q = p
  · rw [if_pos h, if_pos h]
    rfl
  · rw [if_neg h, if_neg h]
    rfl

end WebDav

/-! ## A body in tables that others have used -/

/-- The names and prefixes that an event looks for. -/
def Event.key : Event → Str
  | .declare name _ => name
  | .property key _ _ => key

/-- `before` are the tables as the request finds them, `own` a table that has only what the body
has declared so far, `keys` what the body looks for. A namespace that is new to the body is new
to the server too, or the server has it under its name and, if it is looked for, under the
prefix; a prefix for which the body's own table has nothing has nothing there either. -/
def Undisturbed (before : WebDav) (keys : List Str) : WebDav → List Event → Prop
  | _, [] => True
  | own, .declare name id :: es =>
    (id.isSome ∧ name = []) ∨
      (own.getNamespace name = none → before.getNamespace name = none ∨
        before.getNamespace name = some name ∧ ∀ i ∈ keys, id = some i →
          before.getNamespace i = some name ∧ own.getNamespace i = none) ∧
      Undisturbed before keys (own.declared name id) es
  | own, .property key _ _ :: es =>
    match own.getNamespace key with
    | none => before.getNamespace key = none
    | some _ => Undisturbed before keys own es

instance Undisturbed.decidable (before : WebDav) (keys : List Str) :
    ∀ (es : List Event) (own : WebDav), Decidable (Undisturbed before keys own es)
  | [], _ => isTrue trivial
  | .declare name id :: es, own =>
    have := decidable before keys es (own.declared name id)
    inferInstanceAs (Decidable (_ ∨ (_ → _ ∨ _ ∧ _) ∧ _))
  | .property key _ _ :: es, own =>
    have := decidable before keys es own
    match h : own.getNamespace key with
    | none => decidable_of_iff (before.getNamespace key = none) (by rw [Undisturbed, h])
    | some _ => decidable_of_iff (Undisturbed before keys own es) (by rw [Undisturbed, h])

theorem declared_setValue (w : WebDav) (name : Str) (id : Option Str) (p : Property)
    (v : Option Str) :
    (w.setValue p v).declared name id = (w.declared name id).setValue p v := by
  have hsame : (w.setValue p v).getNamespace name = w.getNamespace name := rfl
  rw [WebDav.declared, WebDav.declared, WebDav.addNamespace, WebDav.addNamespace, hsame]
  split
  · rfl
  · split
    · rfl
    · cases id with
      | none => rfl
      | some id => rfl

/-- The values play no part. -/
theorem undisturbed_setValue {before : WebDav} {keys : List Str} (es : List Event) (own : WebDav)
    (p : Property) (v : Option Str) :
    Undisturbed before keys (own.setValue p v) es ↔ Undisturbed before keys own es := by
  induction es generalizing own with
  | nil => exact Iff.rfl
  | cons e es ih =>
    cases e with
    | declare name id =>
      rw [Undisturbed, Undisturbed, declared_setValue, ih]
      exact Iff.rfl
    | property key tname text =>
      rw [Undisturbed, Undisturbed, ih]
      exact Iff.rfl

/-- `w` has what the body's own table has, and else what was there before. -/
structure Follows (before : WebDav) (keys : List Str) (w own : WebDav) : Prop where
  known : ∀ k ∈ keys, ∀ n, own.getNamespace k = some n → w.getNamespace k = some n
  other : ∀ k, own.getNamespace k = none → w.getNamespace k = before.getNamespace k

variable {before w own : WebDav} {keys : List Str}

/-- A declaration that is new to both. -/
theorem Follows.declare_new {name : Str} {id : Option Str} (h : Follows before keys w own)
    (hid : ¬(id.isSome ∧ name = [])) (hown : own.getNamespace name = none)
    (hw : w.getNamespace name = none) :
    Follows before keys (w.declared name id) (own.declared name id) where
  known k hk n hn := by
    rw [WebDav.getNamespace_declared hid hown] at hn
    rw [WebDav.getNamespace_declared hid hw]
    split at hn
    next hnew => rw [if_pos hnew, hn]
    next hold =>
      rw [if_neg hold]
      exact h.known k hk n hn
  other k hn := by
    rw [WebDav.getNamespace_declared hid hown] at hn
    rw [WebDav.getNamespace_declared hid hw]
    split at hn
    · cases hn
    next hold =>
      rw [if_neg hold]
      exact h.other k hn

/-- A declaration that is new to the body only. -/
theorem Follows.declare_known {name : Str} {id : Option Str} (h : Follows before keys w own)
    (hid : ¬(id.isSome ∧ name = [])) (hown : own.getNamespace name = none)
    (hname : before.getNamespace name = some name)
    (hbound : ∀ i ∈ keys, id = some i →
      before.getNamespace i = some name ∧ own.getNamespace i = none) :
    Follows before keys w (own.declared name id) where
  known k hk n hn := by
    rw [WebDav.getNamespace_declared hid hown] at hn
    split at hn
    next hnew =>
      obtain rfl := Option.some.inj hn
      rcases hnew with heq | rfl
      · obtain ⟨hbefore, hnone⟩ := hbound k hk heq.symm
        rw [h.other k hnone, hbefore]
      · rw [h.other k hown, hname]
    next hold => exact h.known k hk n hn
  other k hn := by
    rw [WebDav.getNamespace_declared hid hown] at hn
    split at hn
    · cases hn
    next hold => exact h.other k hn

/-- What two runs of a body have in common: the result, and the values of the properties found,
and of those they had in common before. -/
structure SameRun (w own : WebDav) (r r' : Result (List Property)) : Prop where
  result : r.2 = r'.2
  values : ∀ m, r'.2 = .ok m → ∀ p, w.getValue p = own.getValue p ∨ p ∈ m →
    r.1.getValue p = r'.1.getValue p

/-- A property that both find in one namespace, and set. -/
theorem SameRun.add_property {p : Property} {v : Option Str} {r r' : Result (List Property)}
    (h : SameRun (w.setValue p v) (own.setValue p v) r r') :
    SameRun w own (r.andThen fun w ms => (w, .ok ([p] ++ ms)))
      (r'.andThen fun w ms => (w, .ok ([p] ++ ms))) := by
  obtain ⟨w₁, x⟩ := r
  obtain ⟨own₁, x'⟩ := r'
  obtain rfl : x = x' := h.result
  cases x with
  | error e => exact ⟨rfl, fun m hm => nomatch hm⟩
  | ok ms =>
    refine ⟨rfl, fun m hm q hq => h.values ms rfl q ?_⟩
    obtain rfl := Except.ok.inj hm
    rw [WebDav.getValue_setValue, WebDav.getValue_setValue]
    by_cases hqp : q = p
    · rw [if_pos hqp, if_pos hqp]
      exact Or.inl rfl
    · rw [if_neg hqp, if_neg hqp]
      refine hq.imp_right fun hmem => ?_
      exact (List.mem_cons.mp hmem).resolve_left hqp

/-- The body finds the same in the tables it came to as in a table of its own. -/
theorem run_follows (es : List Event) (hkeys : ∀ e ∈ es, e.key ∈ keys) :
    ∀ w own, Follows before keys w own → Undisturbed before keys own es →
      SameRun w own (w.run es) (own.run es) := by
  induction es with
  | nil =>
    intro w own _ _
    refine ⟨rfl, fun m hm p hp => ?_⟩
    obtain rfl := Except.ok.inj hm
    exact hp.resolve_right List.not_mem_nil
  | cons e es ih =>
    intro w own h hun
    have hrest : ∀ e ∈ es, e.key ∈ keys := fun e' he' => hkeys e' (List.mem_cons_of_mem e he')
    have hkey := hkeys e List.mem_cons_self
    cases e with
    | declare name id =>
      rw [WebDav.run, WebDav.run]
      by_cases hid : id.isSome ∧ name = []
      · rw [WebDav.addNamespace_invalid w hid, WebDav.addNamespace_invalid own hid]
        exact ⟨rfl, fun m hm => nomatch hm⟩
      · obtain ⟨hnew, hun⟩ := hun.resolve_left hid
        have hnext : ∀ w', w.addNamespace name id = (w', .ok ()) →
            (∀ p, w'.getValue p = w.getValue p) →
            Follows before keys w' (own.declared name id) →
            SameRun w own ((w.addNamespace name id).andThen fun w _ => w.run es)
              ((own.addNamespace name id).andThen fun w _ => w.run es) := by
          intro w' hadd hvalues hfollows
          rw [hadd, WebDav.addNamespace_ok hid, Result.ok_andThen, Result.ok_andThen]
          have hih := ih hrest w' _ hfollows hun
          refine ⟨hih.result, fun m hm p hp => hih.values m hm p (hp.imp_left fun hv => ?_)⟩
          rw [hvalues, hv, WebDav.getValue_declared]
        cases hown : own.getNamespace name with
        | some n =>
          -- the body has it already, and so have the tables it came to
          have hw := h.known name hkey n hown
          have hsame : own.declared name id = own := by
            rw [WebDav.declared, WebDav.addNamespace_known hid hown]
          exact hnext w (WebDav.addNamespace_known hid hw) (fun _ => rfl)
            (by rw [hsame]; exact h)
        | none =>
          rcases hnew hown with hnone | ⟨hname, hbound⟩
          · have hw : w.getNamespace name = none := (h.other name hown).trans hnone
            exact hnext _ (WebDav.addNamespace_ok hid)
              (WebDav.getValue_declared w name id) (h.declare_new hid hown hw)
          · have hw : w.getNamespace name = some name := (h.other name hown).trans hname
            exact hnext w (WebDav.addNamespace_known hid hw) (fun _ => rfl)
              (h.declare_known hid hown hname hbound)
    | property key tname text =>
      rw [WebDav.run, WebDav.run, WebDav.addProperty, WebDav.addProperty]
      rw [Undisturbed] at hun
      cases hown : own.getNamespace key with
      | none =>
        rw [hown] at hun
        rw [(h.other key hown).trans hun]
        exact ⟨rfl, fun m hm => nomatch hm⟩
      | some n =>
        rw [hown] at hun
        rw [h.known key hkey n hown]
        have hih := ih hrest (w.setValue ⟨n, tname⟩ (some text))
          (own.setValue ⟨n, tname⟩ (some text)) ⟨h.known, h.other⟩
          ((undisturbed_setValue es own _ _).mpr hun)
        exact hih.add_property

/-! ## The response -/

section

variable {γ : Type} {env : PikeEnv} {h : WebdavHandler γ} {context : γ} {w w' : WebDav}
  {xmlbody : XmlBody}

/-- The response for a file depends on the tables through the values of the body's properties
only. -/
theorem retrieveProps_congr
    (hvalues : ∀ m, xmlbody = .props m → ∀ p ∈ m, w.getValue p = w'.getValue p)
    (file : Str) (fstat : Option Stat) :
    retrieveProps env h context w file xmlbody fstat =
      retrieveProps env h context w' file xmlbody fstat := by
  unfold retrieveProps
  cases fstat with
  | none => rfl
  | some fstat =>
    cases xmlbody with
    | allprop p =>
      cases p with
      | none => rfl
      | some p => rfl
    | props m =>
      have hturn : ∀ a p, p ∈ env.indices m →
          Asked.turn (fun p => h.getProperty context p (w.getValue p)) a p =
            Asked.turn (fun p => h.getProperty context p (w'.getValue p)) a p := by
        intro a p hp
        have hmem : p ∈ m := List.mem_dedup.mp ((env.propertyOrder_perm m.dedup).mem_iff.mp hp)
        rw [Asked.turn, Asked.turn, hvalues m rfl p hmem]
      dsimp only
      rw [List.foldl_ext _ _ _ hturn]

section

variable (hprops : ∀ file fstat, retrieveProps env h context w file xmlbody fstat =
  retrieveProps env h context w' file xmlbody fstat)

include hprops

theorem retrieveFiles_congr (colpath : Str) (directory : List Str)
    (r : Str × Mapping Str Stat) :
    retrieveFiles env h context w colpath xmlbody r directory =
      retrieveFiles env h context w' colpath xmlbody r directory := by
  induction directory generalizing r with
  | nil => rfl
  | cons entry rest ih => simp only [retrieveFiles, hprops, ih]

theorem retrieveDirs_congr (fstats : Mapping Str Stat) (paths : List Str) (response : Str) :
    retrieveDirs env h context w xmlbody fstats response paths =
      retrieveDirs env h context w' xmlbody fstats response paths := by
  induction paths generalizing response with
  | nil => rfl
  | cons f rest ih => simp only [retrieveDirs, hprops, ih]

theorem answerPropfind_congr (rawUrl depth : Str) :
    answerPropfind env h context w rawUrl depth xmlbody =
      answerPropfind env h context w' rawUrl depth xmlbody := by
  simp only [answerPropfind, retrieveCollectionProps, retrieveFiles_congr hprops,
    retrieveDirs_congr hprops, hprops]

end

end

/-! ## Requests -/

section

variable {γ : Type} (env : PikeEnv) (h : WebdavHandler γ)

/-- The condition on a request: on the tables it finds, and on its body. -/
def Request.Undisturbed (before : WebDav) : Request γ → Prop
  | .propfind _ _ data _ =>
    before.getNamespace [] = some [] ∧
      ∀ node, data.getD [] ≠ [] → env.parseInput (data.getD []) = some node →
        Dav.Undisturbed before ((events none node).map Event.key) WebDav.create (events none node)
  | .proppatch .. => True

variable {env} in
theorem follows_create {before : WebDav} {keys : List Str}
    (hblank : before.getNamespace [] = some []) : Follows before keys before WebDav.create where
  known k _ n hn := by
    rw [WebDav.getNamespace, WebDav.create, lookup_insert_ite] at hn
    split at hn
    next hk =>
      obtain rfl := Option.some.inj hn
      rw [hk, hblank]
    next hk => cases hn
  other _ _ := rfl

variable {env} in
/-- A request that nothing disturbs is answered as by a fresh server. -/
theorem propfind_own {before : WebDav} {rawUrl depth data : Option Str} {context : γ}
    (hun : (Request.propfind rawUrl depth data context).Undisturbed env before) :
    (propfind env h before rawUrl depth data context).2 =
      (propfind env h WebDav.create rawUrl depth data context).2 := by
  obtain ⟨hblank, hun⟩ := hun
  unfold propfind getXmlbodyProps
  by_cases hdata : data.getD [] = []
  · rw [if_pos hdata, if_pos hdata]
    have hfound : ∀ {w : WebDav}, w.getNamespace [] = some [] →
        (w.findProp [] "allprop".toList).2 = some ⟨[], "allprop".toList⟩ := by
      intro w hw
      rw [WebDav.findProp, hw]
      dsimp only
      split
      · rfl
      · rfl
    dsimp only
    rw [hfound hblank, hfound rfl]
    refine answerPropfind_congr (retrieveProps_congr fun m hm => ?_) _ _
    cases hm
  · rw [if_neg hdata, if_neg hdata]
    cases hparse : env.parseInput (data.getD []) with
    | none => rfl
    | some node =>
      have hrun := run_follows (events none node) (fun e he => List.mem_map_of_mem he) before
        WebDav.create (follows_create hblank) (hun node hdata hparse)
      dsimp only
      rw [WebDav.convertToMapping_eq, WebDav.convertToMapping_eq]
      obtain ⟨hresult, hvalues⟩ := hrun
      revert hresult hvalues
      generalize before.run (events none node) = r
      generalize WebDav.create.run (events none node) = r'
      obtain ⟨w, x⟩ := r
      obtain ⟨w', x'⟩ := r'
      rintro (rfl : x = x') hvalues
      cases x with
      | error e => rfl
      | ok m =>
        refine answerPropfind_congr (retrieveProps_congr fun m' hm' p hp => ?_) _ _
        obtain rfl := XmlBody.props.inj hm'
        exact hvalues m rfl p (Or.inr hp)

/-! ## Runs -/

/-- The last request, if it was a PROPFIND, was answered as a fresh server answers it. -/
def Server.Independent (s : Server γ) : Prop :=
  ∀ rawUrl depth data context r, s.last = some (.propfind rawUrl depth data context, r) →
    r = (propfind env h WebDav.create rawUrl depth data context).2

/-- As long as nothing disturbs them, requests are independent of each other. -/
theorem Server.independent (requests : List (Request γ))
    (hun : EachStep (Server.step env h) (fun s request => request.Undisturbed env s.tables)
      Server.init requests) :
    Always (Server.step env h) (Server.Independent env h) Server.init requests := by
  refine always_of_step ?_ requests Server.init (fun _ _ _ _ _ hlast => nomatch hlast) hun
  intro s request s' _ hundisturbed hstep rawUrl depth data context r hlast
  obtain rfl := Option.some.inj hstep
  obtain ⟨rfl, rfl⟩ := Prod.mk.inj (Option.some.inj hlast)
  exact propfind_own h hundisturbed

end

/-- A body that asks for the length of the file, with `p` for the namespace "DAV:". -/
def lengthBody (p : Str) : Str :=
  "<".toList ++ p ++ ":propfind xmlns:".toList ++ p ++ "=\"DAV:\"><".toList ++ p ++
    ":prop><".toList ++ p ++ ":getcontentlength/></".toList ++ p ++ ":prop></".toList ++ p ++
    ":propfind>".toList

def lengthTree (p : Str) : XmlNode :=
  .mk [] (some []) [] [.mk (p ++ ":propfind".toList) (some [("xmlns:".toList ++ p, "DAV:".toList)])
    [] [.mk (p ++ ":prop".toList) (some []) []
      [.mk (p ++ ":getcontentlength".toList) (some []) [] []]]]

def lengthEnv : PikeEnv where
  parseInput data :=
    if data = lengthBody ['D'] then some (lengthTree ['D'])
    else if data = lengthBody ['a'] then some (lengthTree ['a'])
    else none
  valueOfNode _ := []
  width _ := 8
  stringToUtf8 := id
  httpDate _ := []
  propertyOrder := id
  pathOrder := id
  propertyOrder_perm := List.Perm.refl
  pathOrder_perm := List.Perm.refl

/-- One empty file, without properties of its own. -/
def lengthHandler : WebdavHandler Unit where
  statFile _ := some { size := 0, accessed := 0, modified := 0, mimeType := none }
  getDirectory _ := none
  setProperty _ _ _ _ := true
  getProperty _ _ _ := none

def lengthRequest (p : Str) : Request Unit :=
  .propfind (some "/f".toList) none (some (lengthBody p)) ()

/-- A client that comes twice with one prefix. -/
theorem Server.independent_sample :
    Always (Server.step lengthEnv lengthHandler) (Server.Independent lengthEnv lengthHandler)
      Server.init [lengthRequest ['D'], lengthRequest ['D']] := by
  refine Server.independent lengthEnv lengthHandler _ ?_
  have hbody : ∀ before : WebDav, before.getNamespace [] = some [] →
      Undisturbed before ((events none (lengthTree ['D'])).map Event.key) WebDav.create
        (events none (lengthTree ['D'])) →
      (lengthRequest ['D']).Undisturbed lengthEnv before := by
    intro before hblank hun
    refine ⟨hblank, fun node _ hparse => ?_⟩
    have htree : lengthEnv.parseInput (lengthBody ['D']) = some (lengthTree ['D']) := by
      dsimp only [lengthEnv]
      exact if_pos rfl
    obtain rfl : lengthTree ['D'] = node := Option.some.inj (htree.symm.trans hparse)
    exact hun
  refine ⟨hbody _ (by decide +kernel) (by decide +kernel), fun s hs => ?_⟩
  obtain rfl := Option.some.inj hs
  exact ⟨hbody _ (by decide +kernel) (by decide +kernel), fun _ _ => trivial⟩

/-- The first client calls "DAV:" D, the second one a. For the second "DAV:" is known, so a stays
without a namespace, and a body that a fresh server answers is a bad request. -/
theorem Server.second_prefix_refused :
    ¬ Always (Server.step lengthEnv lengthHandler) (Server.Independent lengthEnv lengthHandler)
      Server.init [lengthRequest ['D'], lengthRequest ['a']] := by
  intro h
  have hlast := ((h.2 _ rfl).2 _ rfl) _ _ _ _ _ rfl
  have hstatus := congrArg (fun r => r.toOption.map Answer.error) hlast
  revert hstatus
  decide +kernel

end Caudium.Dav
