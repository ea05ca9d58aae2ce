import Caudium.Lib.Mapping
import Caudium.ExtScript.Pipe

/-!
# `do_helper` (`ExtScript.pmod`)

What is written for a request: the paths, if the process was started for it, the variables of
the environment, the fields of the request, the headers and the form variables, then the script.
The names of the last two come from the client and nothing bounds them; the values are bounded by
1000000, or not at all. `do_helper_framed_iff` says for which requests that is enough for the
records.
-/

namespace Caudium.ExtScript

open Lib (Mapping)

/-! ## Requests -/

/-- The fields of a request that are asked for by name. -/
inductive Field
  | remoteaddr
  | notQuery
  | rawUrl
  | method
  | prot
  | realfile
  | query
  | raw
  | virtfile
  | rawauth
  | realauth
  deriving DecidableEq

def Field.name : Field → Bytes
  | .remoteaddr => text "remoteaddr"
  | .notQuery => text "not_query"
  | .rawUrl => text "raw_url"
  | .method => text "method"
  | .prot => text "prot"
  | .realfile => text "realfile"
  | .query => text "query"
  | .raw => text "raw"
  | .virtfile => text "virtfile"
  | .rawauth => text "rawauth"
  | .realauth => text "realauth"

/-- `id->auth`. -/
inductive ScriptAuth
  /-- It is no array, has one element, or is of neither of the two kinds below. -/
  | other
  /-- Its first two elements are strings. -/
  | strings (first second : Bytes)
  /-- It has three elements, the first a number; `none` for elements that are no strings. -/
  | basic (user password : Option Bytes)

/-- A mapping from strings, with `none` for values that are no strings. -/
abbrev StringMap := Mapping Bytes (Option Bytes)

/-- What `do_helper` reads of a request. -/
structure ScriptRequest where
  /-- `none` for a field that is no string. -/
  field : Field → Option Bytes
  requestHeaders : StringMap
  /-- `caudium->real_file("/", id)`. -/
  documentRoot : Option Bytes
  auth : ScriptAuth
  /-- `id->misc->explicit_script_env`, if it is a mapping. -/
  explicitScriptEnv : Option StringMap
  /-- `id->variables`. -/
  formVariables : StringMap

/-- The settings of a handler, and Pike's `dirname`. -/
structure Settings where
  libdir : Option Bytes
  cd : Option Bytes
  dirname : Bytes → Bytes

/-! ## What is written -/

/-- `if (stringp(v)) putvar(vtype, vname, v)`. -/
def putString (vtype : VarType) (vname : Bytes) : Option Bytes → List Item
  | some v => [.var vtype vname v]
  | none => []

/-- The same for a value that is shorter than `bound`. -/
def putBounded (bound : Nat) (vtype : VarType) (vname : Bytes) : Option Bytes → List Item
  | some v => if v.length < bound then [.var vtype vname v] else []
  | none => []

/-- The entries of a mapping, in the order of its indices. -/
def putAll (bound : Nat) (vtype : VarType) (m : StringMap) : List Item :=
  m.entries.flatMap fun e => putBounded bound vtype e.1 e.2

/-- The fields that are variables of the environment. -/
def envFields : List (Field × Bytes) :=
  [(.remoteaddr, text "REMOTE_ADDR"), (.notQuery, text "PATH_INFO"),
   (.rawUrl, text "DOCUMENT_URI"), (.notQuery, text "DOCUMENT_NAME"),
   (.method, text "REQUEST_METHOD"), (.prot, text "SERVER_PROTOCOL"),
   (.realfile, text "SCRIPT_FILENAME")]

/-- The headers that are. -/
def envHeaders : List (Bytes × Bytes) :=
  [(text "accept", text "HTTP_ACCEPT"), (text "connection", text "HTTP_CONNECTION"),
   (text "referer", text "HTTP_REFERER"), (text "user-agent", text "HTTP_USER_AGENT"),
   (text "pragma", text "HTTP_PRAGMA"), (text "host", text "HTTP_HOST")]

/-- The fields that are sent under their own name. -/
def internalFields : List Field :=
  [.query, .notQuery, .raw, .remoteaddr, .realfile, .virtfile, .prot, .method, .rawauth,
   .realauth, .rawUrl]

/-- `(id->realauth/":")[1]`; `none` for an error. -/
def realPassword (id : ScriptRequest) : Option Bytes :=
  (id.field .realauth).bind fun s => (s.splitOn 58)[1]?

/-- What is sent of `id->auth`; `none` when it throws. -/
def authItems (id : ScriptRequest) : Option (List Item) :=
  match id.auth with
  | .other => some []
  | .strings first second =>
    let arr := second.splitOn 58
    some ([.var .I (text "auth_type") first, .var .E (text "AUTH_TYPE") first] ++
      putString .I (text "auth_user") arr[0]? ++ putString .E (text "REMOTE_USER") arr[0]? ++
      putString .I (text "auth_passwd") arr[1]?)
  | .basic user password =>
    let basic := [.var .I (text "auth_type") (text "Basic"),
      .var .E (text "AUTH_TYPE") (text "Basic")]
    match user with
    | none => some (basic ++ putString .I (text "auth_passwd") password)
    | some u =>
      (realPassword id).map fun pass => basic ++ [.var .I (text "auth_user") u,
        .var .E (text "REMOTE_USER") u, .var .E (text "REMOTE_PASSWORD") pass] ++
        putString .I (text "auth_passwd") password

/-- From the reset to the ping. -/
def requestItems (id : ScriptRequest) : Option (List Item) :=
  (authItems id).map fun auth =>
    [.reset, .var .E (text "GATEWAY_INTERFACE") (text "Caudium-Perl/0.9")] ++
    envFields.flatMap (fun x => putString .E x.2 (id.field x.1)) ++
    envHeaders.flatMap (fun x => putString .E x.2 (id.requestHeaders.lookup x.1).join) ++
    putString .E (text "DOCUMENT_ROOT") id.documentRoot ++
    internalFields.flatMap (fun v => putBounded 1000000 .I v.name (id.field v)) ++
    auth ++
    putString .E (text "QUERY_STRING") (id.field .query) ++
    (match id.explicitScriptEnv with
      | some ee => putAll 25000 .E ee
      | none => []) ++
    putAll 1000000 .H id.requestHeaders ++
    putAll 1000000 .F id.formVariables ++
    [.ping]

/-- What a process that was started for the call gets first, when it has answered. -/
def launchItems (settings : Settings) (how : How) (arg : Bytes) : List Item :=
  (if how = .run then [.var .L (text "cd") (settings.dirname arg)] else []) ++
    putString .L (text "libdir") settings.libdir ++ putString .L (text "cd") settings.cd

/-- How the other side behaves. -/
structure Peer where
  /-- There is a process already. -/
  alive : Bool
  /-- One can be started. -/
  launches : Bool
  /-- It answers the first ping. -/
  answers : Bool
  /-- It answers the last one. -/
  still : Bool

/-- `do_helper` up to the answer of the script: what is written into the pipe, and whether the
other side is lost; `none` when it throws. -/
def attempt (settings : Settings) (how : How) (arg : Bytes) (id : ScriptRequest) (p : Peer) :
    Option (List Item × Bool) :=
  if p.alive || (p.launches && p.answers) then
    let launched := if p.alive then [] else .ping :: launchItems settings how arg
    (requestItems id).map fun items =>
      if p.still then (launched ++ items ++ [.command how arg], false)
      else (launched ++ items, true)
  else some (if p.launches then [.ping] else [], false)

/-- `do_helper`: what is written into each pipe it has. Where the other side is lost it is called
once more, with a new process. -/
def doHelper (settings : Settings) (how : How) (arg : Bytes) (id : ScriptRequest)
    (first second : Peer) : Option (List (List Item)) :=
  match attempt settings how arg id first with
  | none => none
  | some (items, false) => some [items]
  | some (items, true) =>
    (attempt settings how arg id { second with alive := false }).map fun r => [items, r.1]

/-! ## Which requests fit -/

/-- A value that has room in a record. -/
def Short (o : Option Bytes) : Prop := ∀ v, o = some v → v.length ≤ 65535

/-- The names and the values below `bound` have room. -/
def ShortAll (bound : Nat) (m : StringMap) : Prop :=
  ∀ n v, m.lookup n = some (some v) → v.length < bound → n.length ≤ 255 ∧ v.length ≤ 65535

/-- The strings that are sent of `id->auth` have room, and the password is there. -/
def AuthFits (id : ScriptRequest) : Prop :=
  match id.auth with
  | .other => True
  | .strings first second =>
    first.length ≤ 65535 ∧ Short (second.splitOn 58)[0]? ∧ Short (second.splitOn 58)[1]?
  | .basic user password =>
    (∀ u, user = some u → u.length ≤ 65535 ∧ ∃ pass, realPassword id = some pass ∧
      pass.length ≤ 65535) ∧ Short password

/-- Everything that is sent of a request has room in its records. -/
structure RequestFits (id : ScriptRequest) : Prop where
  envFields : ∀ x ∈ envFields, Short (id.field x.1)
  envHeaders : ∀ x ∈ envHeaders, Short (id.requestHeaders.lookup x.1).join
  documentRoot : Short id.documentRoot
  internal : ∀ f ∈ internalFields, ∀ v, id.field f = some v → v.length < 1000000 →
    v.length ≤ 65535
  auth : AuthFits id
  query : Short (id.field .query)
  env : ∀ ee, id.explicitScriptEnv = some ee → ShortAll 25000 ee
  headers : ShortAll 1000000 id.requestHeaders
  formVariables : ShortAll 1000000 id.formVariables

/-- So has everything that is sent to a new process. -/
structure LaunchFits (settings : Settings) (how : How) (arg : Bytes) : Prop where
  dirname : how = .run → (settings.dirname arg).length ≤ 65535
  libdir : Short settings.libdir
  cd : Short settings.cd

/-- All of some items have room. -/
def AllFit (items : List Item) : Prop := ∀ item ∈ items, item.Fits

@[simp] theorem allFit_append (items items' : List Item) :
    AllFit (items ++ items') ↔ AllFit items ∧ AllFit items' := List.forall_mem_append

@[simp] theorem allFit_nil : AllFit [] := fun _ h => nomatch h

@[simp] theorem allFit_cons (item : Item) (items : List Item) :
    AllFit (item :: items) ↔ item.Fits ∧ AllFit items := List.forall_mem_cons

theorem allFit_flatMap {α : Type} (l : List α) (f : α → List Item) :
    AllFit (l.flatMap f) ↔ ∀ x ∈ l, AllFit (f x) := by
  simp only [AllFit, List.mem_flatMap]
  exact ⟨fun h x hx item hitem => h item ⟨x, hx, hitem⟩,
    fun h item ⟨x, hx, hitem⟩ => h x hx item hitem⟩

theorem allFit_putString {vtype : VarType} {vname : Bytes} (hname : vname.length ≤ 255)
    (o : Option Bytes) : AllFit (putString vtype vname o) ↔ Short o := by
  cases o with
  | none => simp [putString, Short]
  | some v => simp [putString, Short, Item.Fits, hname]

theorem allFit_putBounded (bound : Nat) (vtype : VarType) (vname : Bytes) (o : Option Bytes) :
    AllFit (putBounded bound vtype vname o) ↔
      ∀ v, o = some v → v.length < bound → vname.length ≤ 255 ∧ v.length ≤ 65535 := by
  cases o with
  | none => simp [putBounded]
  | some v =>
    rw [putBounded]
    by_cases hlt : v.length < bound
    · simp [hlt, Item.Fits]
    · simp [hlt]

theorem allFit_putAll (bound : Nat) (vtype : VarType) (m : StringMap) :
    AllFit (putAll bound vtype m) ↔ ShortAll bound m := by
  rw [putAll, allFit_flatMap]
  simp only [allFit_putBounded, ShortAll]
  constructor
  · intro h n v hl hlt
    exact h ⟨n, some v⟩ (AList.mem_lookup_iff.mp hl) v rfl hlt
  · intro h hand hmem v heq hlt
    obtain ⟨n, o⟩ := hand
    subst heq
    exact h n v (AList.mem_lookup_iff.mpr hmem) hlt

theorem allFit_authItems (id : ScriptRequest) :
    (∃ items, authItems id = some items ∧ AllFit items) ↔ AuthFits id := by
  unfold authItems AuthFits
  cases id.auth with
  | other => simp
  | strings first second => simp [allFit_putString, Item.Fits, text]
  | basic user password =>
    cases user with
    | none => simp [allFit_putString, Item.Fits, text]
    | some u =>
      cases realPassword id with
      | none => simp
      | some pass => simp [allFit_putString, Item.Fits, text, and_assoc]

theorem name_length (f : Field) : f.name.length ≤ 255 := by
  cases f <;> decide

/-- What is written for a request has room if and only if the request has. -/
theorem allFit_requestItems (id : ScriptRequest) :
    (∃ items, requestItems id = some items ∧ AllFit items) ↔ RequestFits id := by
  have henv : AllFit (envFields.flatMap fun x => putString .E x.2 (id.field x.1)) ↔
      ∀ x ∈ envFields, Short (id.field x.1) := by
    rw [allFit_flatMap]
    have hnames : ∀ x ∈ envFields, x.2.length ≤ 255 := by decide
    exact forall₂_congr fun x hx => allFit_putString (hnames x hx) _
  have hheaders : AllFit (envHeaders.flatMap fun x =>
      putString .E x.2 (id.requestHeaders.lookup x.1).join) ↔
      ∀ x ∈ envHeaders, Short (id.requestHeaders.lookup x.1).join := by
    rw [allFit_flatMap]
    have hnames : ∀ x ∈ envHeaders, x.2.length ≤ 255 := by decide
    exact forall₂_congr fun x hx => allFit_putString (hnames x hx) _
  have hinternal : AllFit (internalFields.flatMap fun v =>
      putBounded 1000000 .I v.name (id.field v)) ↔
      ∀ f ∈ internalFields, ∀ v, id.field f = some v → v.length < 1000000 →
        v.length ≤ 65535 := by
    rw [allFit_flatMap]
    refine forall₂_congr fun f _ => ?_
    rw [allFit_putBounded]
    exact forall₃_congr fun v _ _ => and_iff_right (name_length f)
  have hexplicit : AllFit (match id.explicitScriptEnv with
      | some ee => putAll 25000 .E ee
      | none => []) ↔ ∀ ee, id.explicitScriptEnv = some ee → ShortAll 25000 ee := by
    cases id.explicitScriptEnv with
    | none => simp
    | some ee => simp [allFit_putAll]
  unfold requestItems
  constructor
  · intro hand
    obtain ⟨items, hitems, hfit⟩ := hand
    obtain ⟨auth, hauth, rfl⟩ := Option.map_eq_some_iff.mp hitems
    simp only [allFit_append, henv, hheaders, hinternal, hexplicit, allFit_putAll,
      allFit_putString (show (text "DOCUMENT_ROOT").length ≤ 255 by decide),
      allFit_putString (show (text "QUERY_STRING").length ≤ 255 by decide)] at hfit
    obtain ⟨⟨⟨⟨⟨⟨⟨⟨⟨⟨-, h1⟩, h2⟩, h3⟩, h4⟩, h5⟩, h6⟩, h7⟩, h8⟩, h9⟩, -⟩ := hfit
    exact ⟨h1, h2, h3, h4, (allFit_authItems id).mp ⟨auth, hauth, h5⟩, h6, h7, h8, h9⟩
  · intro h
    obtain ⟨auth, hauth, hfit⟩ := (allFit_authItems id).mpr h.auth
    refine ⟨_, Option.map_eq_some_iff.mpr ⟨auth, hauth, rfl⟩, ?_⟩
    simp only [allFit_append, henv, hheaders, hinternal, hexplicit, allFit_putAll,
      allFit_putString (show (text "DOCUMENT_ROOT").length ≤ 255 by decide),
      allFit_putString (show (text "QUERY_STRING").length ≤ 255 by decide)]
    refine ⟨⟨⟨⟨⟨⟨⟨⟨⟨⟨?_, h.envFields⟩, h.envHeaders⟩, h.documentRoot⟩, h.internal⟩, hfit⟩,
      h.query⟩, h.env⟩, h.headers⟩, h.formVariables⟩, ?_⟩
    · simp [Item.Fits, text]
    · simp [Item.Fits]

theorem allFit_launchItems (settings : Settings) (how : How) (arg : Bytes) :
    AllFit (launchItems settings how arg) ↔ LaunchFits settings how arg := by
  have hlib : (text "libdir").length ≤ 255 := by decide
  have hcd : (text "cd").length ≤ 255 := by decide
  have hdir : AllFit (if how = .run then [.var .L (text "cd") (settings.dirname arg)] else []) ↔
      (how = .run → (settings.dirname arg).length ≤ 65535) := by
    by_cases hrun : how = .run
    · simp [hrun, Item.Fits, hcd]
    · simp [hrun]
  rw [launchItems, allFit_append, allFit_append, allFit_putString hlib, allFit_putString hcd, hdir]
  exact ⟨fun h => ⟨h.1.1, h.1.2, h.2⟩, fun h => ⟨⟨h.dirname, h.libdir⟩, h.cd⟩⟩

/-! ## Calls -/

/-- Whatever the other side does, nothing throws, and what is written into each pipe is framed. -/
def AlwaysFramed (settings : Settings) (how : How) (arg : Bytes) (id : ScriptRequest) : Prop :=
  ∀ first second : Peer, ∃ pipes, doHelper settings how arg id first second = some pipes ∧
    ∀ items ∈ pipes, ∃ bytes, Framed items bytes

/-- A process that is new and answers. -/
def Peer.fresh : Peer := ⟨false, true, true, true⟩

theorem attempt_fits {settings : Settings} {how : How} {arg : Bytes} {id : ScriptRequest}
    (hlaunch : LaunchFits settings how arg) (hrequest : RequestFits id)
    (harg : arg.length ≤ 65535) (p : Peer) :
    ∃ r, attempt settings how arg id p = some r ∧ AllFit r.1 := by
  obtain ⟨items, hitems, hfit⟩ := (allFit_requestItems id).mpr hrequest
  have hlaunched : AllFit (if p.alive then [] else .ping :: launchItems settings how arg) := by
    split
    · exact allFit_nil
    · exact (allFit_cons _ _).mpr ⟨trivial, (allFit_launchItems _ _ _).mpr hlaunch⟩
  unfold attempt
  split
  · rw [hitems]
    refine ⟨_, rfl, ?_⟩
    split
    · exact (allFit_append _ _).mpr ⟨(allFit_append _ _).mpr ⟨hlaunched, hfit⟩,
        (allFit_cons _ _).mpr ⟨harg, allFit_nil⟩⟩
    · exact (allFit_append _ _).mpr ⟨hlaunched, hfit⟩
  · refine ⟨_, rfl, ?_⟩
    split
    · exact (allFit_cons _ _).mpr ⟨trivial, allFit_nil⟩
    · exact allFit_nil

/-- With a new process that answers, everything is written into one pipe. -/
theorem fits_of_alwaysFramed {settings : Settings} {how : How} {arg : Bytes} {id : ScriptRequest}
    (h : AlwaysFramed settings how arg id) :
    LaunchFits settings how arg ∧ RequestFits id ∧ arg.length ≤ 65535 := by
  obtain ⟨pipes, hpipes, hframed⟩ := h .fresh .fresh
  cases hitems : requestItems id with
  | none =>
    have hnone : attempt settings how arg id .fresh = none := by
      simp [attempt, Peer.fresh, hitems]
    rw [doHelper, hnone] at hpipes
    cases hpipes
  | some items =>
    have hone : doHelper settings how arg id .fresh .fresh =
        some [.ping :: launchItems settings how arg ++ items ++ [.command how arg]] := by
      simp [doHelper, attempt, hitems, Peer.fresh]
    rw [hone] at hpipes
    obtain rfl := Option.some.inj hpipes
    have hfit : AllFit (.ping :: launchItems settings how arg ++ items ++ [.command how arg]) :=
      (framed_iff _).mp (hframed _ List.mem_cons_self)
    rw [allFit_append, allFit_append, allFit_cons, allFit_cons, allFit_launchItems] at hfit
    obtain ⟨⟨⟨-, hlaunch⟩, hrequest⟩, harg, -⟩ := hfit
    exact ⟨hlaunch, (allFit_requestItems id).mp ⟨items, hitems, hrequest⟩, harg⟩

theorem alwaysFramed_of_fits {settings : Settings} {how : How} {arg : Bytes} {id : ScriptRequest}
    (hlaunch : LaunchFits settings how arg) (hrequest : RequestFits id)
    (harg : arg.length ≤ 65535) : AlwaysFramed settings how arg id := by
  intro first second
  obtain ⟨⟨items, lost⟩, hfirst, hfit⟩ := attempt_fits hlaunch hrequest harg first
  cases lost with
  | false =>
    refine ⟨[items], by rw [doHelper, hfirst], fun items' hmem => ?_⟩
    rw [List.mem_singleton.mp hmem]
    exact (framed_iff items).mpr hfit
  | true =>
    -- the other side was lost, and a new process gets everything once more
    obtain ⟨r, hsecond, hfit'⟩ :=
      attempt_fits hlaunch hrequest harg { second with alive := false }
    refine ⟨[items, r.1], by rw [doHelper, hfirst]; dsimp only; rw [hsecond]; rfl,
      fun items' hmem => ?_⟩
    rw [List.mem_cons, List.mem_singleton] at hmem
    rcases hmem with rfl | rfl
    · exact (framed_iff items').mpr hfit
    · exact (framed_iff _).mpr hfit'

/-- **When the records to an external script are framed.** For every request, script and
settings: whatever the other side answers, `do_helper` writes 8-bit strings without an error,
from which the records and the script can be read in one way only, if and only if everything that
is sent of the request and to a new process has room, names in 255 bytes and values in 65535, the
script has, and a password that is asked for is there. -/
theorem do_helper_framed_iff (settings : Settings) (how : How) (arg : Bytes) (id : ScriptRequest) :
    AlwaysFramed settings how arg id ↔
      LaunchFits settings how arg ∧ RequestFits id ∧ arg.length ≤ 65535 :=
  ⟨fits_of_alwaysFramed, fun ⟨hlaunch, hrequest, harg⟩ =>
    alwaysFramed_of_fits hlaunch hrequest harg⟩

/-- A request with nothing in it but a form variable of this name. -/
def oneVariable (vname : Bytes) : ScriptRequest where
  field _ := none
  requestHeaders := ∅
  documentRoot := none
  auth := .other
  explicitScriptEnv := none
  formVariables := AList.insert vname (some (text "x")) ∅

/-- A client sends a form variable with a name of 256 letters. -/
theorem long_name_not_framed :
    ¬ ∀ (settings : Settings) (how : How) (arg : Bytes) (id : ScriptRequest),
      (∀ f v, id.field f = some v → v.length < 1000000) →
      (∀ n v, id.requestHeaders.lookup n = some (some v) → v.length < 1000000) →
      (∀ n v, id.formVariables.lookup n = some (some v) → v.length < 1000000) →
      arg.length < 16777216 → AlwaysFramed settings how arg id := by
  intro h
  have hvars : (oneVariable (List.replicate 256 97)).formVariables.lookup
      (List.replicate 256 97) = some (some (text "x")) := AList.lookup_insert _
  have hframed := h ⟨none, none, fun _ => []⟩ .eval (text "1;")
    (oneVariable (List.replicate 256 97)) (fun f v hv => nomatch hv) (fun n v hv => nomatch hv)
    (fun n v hv => by
      rcases Lib.Mapping.lookup_insert_cases hv with ⟨-, heq⟩ | ⟨-, hempty⟩
      · rw [Option.some.inj heq]
        decide
      · cases hempty) (by decide)
  have hshort := (fits_of_alwaysFramed hframed).2.1.formVariables _ _ hvars (by decide)
  rw [List.length_replicate] at hshort
  omega

end Caudium.ExtScript
