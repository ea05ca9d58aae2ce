import Caudium.Config.Regions
import Caudium.Dav.NameSpaces

/-!
# PROPFIND and PROPPATCH (`WebDAV.pmod`)

`propfind` reads the properties asked for from the body and writes what it knows of them for the
file, or for the files of a directory. `proppatch` hands the properties of the body to
`set_property`. Both work on the tables that all requests share.
-/

namespace Caudium.Dav

open Lib (Str Mapping cut search)
open Config (decimal)

/-- What a stat array has in it that is used. -/
structure Stat where
  /-- `fstat[1]`, negative for a directory. -/
  size : Int
  /-- `fstat[2]` -/
  accessed : Int
  /-- `fstat[3]` -/
  modified : Int
  /-- `fstat[7]`, which the stat function may add. -/
  mimeType : Option Str

variable {γ : Type}

/-- `WebdavHandler`; `γ` is what comes for `context`. A property is handed over with its value. -/
structure WebdavHandler (γ : Type) where
  statFile : Str → Option Stat
  getDirectory : Str → Option (List Str)
  setProperty : γ → Property → Option Str → Option (List (Str × Str)) → Bool
  getProperty : γ → Property → Option Str → Option Str

/-- What is used of Pike and its libraries. -/
structure PikeEnv where
  /-- `Parser.XML.Tree.parse_input`; `none` when it throws. -/
  parseInput : Str → Option XmlNode
  /-- `value_of_node` -/
  valueOfNode : XmlNode → Str
  /-- `String.width` -/
  width : Str → Nat
  /-- `string_to_utf8` -/
  stringToUtf8 : Str → Str
  /-- `http_date` -/
  httpDate : Int → Str
  /-- The order of `indices()`, for mappings indexed with properties and with strings. -/
  propertyOrder : List Property → List Property
  pathOrder : List Str → List Str
  propertyOrder_perm : ∀ ps, (propertyOrder ps).Perm ps
  pathOrder_perm : ∀ paths, (pathOrder paths).Perm paths

/-- `indices(m)` -/
def PikeEnv.indices (env : PikeEnv) (m : List Property) : List Property :=
  env.propertyOrder m.dedup

/-- What `get_xmlbody_props` gives: for an empty body `([ "allprop": find_prop("", "allprop") ])`,
else the properties of the body. -/
inductive XmlBody
  | allprop (p : Option Property)
  | props (m : List Property)

/-- A `mapping` as an answer. -/
structure Answer where
  error : Nat
  data : Str
  extraHeads : List (Str × Str)
  type : Option Str
  rettext : Option Str
  deriving DecidableEq

/-- `low_answer` -/
def lowAnswer (code : Nat) (str : Str) : Answer :=
  { error := code, data := str, extraHeads := [("DAV".toList, "1".toList)]
    type := none, rettext := none }

/-- The answer of both requests when all went well. -/
def multiStatus (response : Str) : Answer :=
  { lowAnswer 207 response with
    rettext := some "207 Multi-Status".toList
    type := some "text/xml; charset=\"utf-8\"".toList }

/-! ## The properties of a file -/

/-- `properties`: where the date of each is in the stat array. -/
def properties : List (Str × (Stat → Int)) :=
  [("getlastmodified".toList, Stat.modified), ("creationdate".toList, Stat.accessed)]

/-- `_props` -/
def davProps : List Str :=
  ["getcontenttype".toList, "resourcetype".toList, "getcontentlength".toList, "href".toList] ++
    properties.map Prod.fst

/-- What the loop over `indices(xmlbody)` makes: the texts `known_props` and `unknown_props`, and
the indices of `mprops`. -/
structure Asked where
  known : Str
  unknown : Str
  mprops : List Str

/-- A turn of that loop; `h` is `h->get_property(context, p)`. -/
def Asked.turn (h : Property → Option Str) (a : Asked) (p : Property) : Asked :=
  if p.prop = "allprop".toList ∨ p.prop = [] then a
  else if p.prop ∈ davProps then { a with mprops := a.mprops ++ [p.prop] }
  else
    match h p with
    | some val =>
      { a with known := a.known ++ ("<".toList ++ p.prop ++ " xmlns=\"".toList ++ p.ns ++
          "\">".toList ++ val ++ "</".toList ++ p.prop ++ ">".toList) }
    | none => { a with unknown := a.unknown ++ ("<i0:".toList ++ p.prop ++ "/>\r\n".toList) }

/-- The response for one file, from what was asked for. -/
def writeProps (env : PikeEnv) (file : Str) (all : Bool) (a : Asked) (fstat : Stat) : Str :=
  let asked (name : String) : Bool := all || decide (name.toList ∈ a.mprops)
  let isDir : Bool := fstat.size < 0
  let mime := fstat.mimeType.getD
    (if isDir then "httpd/unix-directory".toList else "application/x-unknown-content-type".toList)
  let file := if isDir ∧ file.getLast? ≠ some '/' then file ++ "/".toList else file
  "<D:response".toList ++ (if a.unknown ≠ [] then " xmlns:i0=\"DAV:\"".toList else []) ++
    ">\r\n".toList ++ "<D:href>".toList ++ file ++ "</D:href>\r\n".toList ++
    (if "propname".toList ∈ a.mprops then
      "<D:propstat>\r\n".toList ++ "<D:prop>".toList ++
        davProps.flatMap (fun property =>
          if isDir then "<".toList ++ property ++ "/>\r\n".toList else []) ++
        "</D:prop>".toList ++ "</D:propstat>\r\n".toList
    else []) ++
    "<D:propstat>\r\n".toList ++ "<D:prop xmlns:lp0=\"DAV:\">\r\n".toList ++
    (if asked "resourcetype" then
      if isDir then "<D:resourcetype><D:collection/></D:resourcetype>\r\n".toList
      else "<D:resourcetype/>\r\n".toList
    else []) ++
    (if asked "getcontentlength" then
      if isDir then "<D:getcontentlength></D:getcontentlength>\r\n".toList
      else "<D:getcontentlength>".toList ++ decimal fstat.size ++
        "</D:getcontentlength>\r\n".toList
    else []) ++
    (if asked "getcontenttype" then
      "<D:getcontenttype>".toList ++ mime ++ "</D:getcontenttype>\r\n".toList
    else []) ++
    properties.flatMap (fun prop =>
      if all ∨ prop.1 ∈ a.mprops then
        "<lp0:".toList ++ prop.1 ++ " xmlns:b=".toList ++
          "\"urn:uuid:c2f41010-65b3-11d1-a29f-00aa00c14882/\"".toList ++
          " b:dt=\"dateTime.rfc1123\">".toList ++ env.httpDate (prop.2 fstat) ++
          "</lp0:".toList ++ prop.1 ++ ">\r\n".toList
      else []) ++
    a.known ++ "</D:prop>\r\n".toList ++ "<D:status>HTTP/1.1 200 OK</D:status>\r\n".toList ++
    "</D:propstat>\r\n".toList ++
    (if a.unknown ≠ [] then
      "<D:propstat>\r\n".toList ++ "<D:prop>\r\n".toList ++ a.unknown ++
        "</D:prop>\r\n".toList ++ "<D:status>HTTP/1.1 404 Not Found</D:status>\r\n".toList ++
        "</D:propstat>\r\n".toList
    else []) ++
    "</D:response>\r\n".toList

/-- `retrieve_props` -/
def retrieveProps (env : PikeEnv) (h : WebdavHandler γ) (context : γ) (w : WebDav) (file : Str)
    (xmlbody : XmlBody) (fstat : Option Stat) : Except Fault Str :=
  match fstat with
  | none => .error (.error ("Failed to find file: ".toList ++ file))
  | some fstat =>
    match xmlbody with
    | .allprop (some _) => .ok (writeProps env file true ⟨[], [], []⟩ fstat)
    | .allprop none => .error .interpreter
    | .props m =>
      let hook (p : Property) : Option Str := h.getProperty context p (w.getValue p)
      .ok (writeProps env file false ((env.indices m).foldl (Asked.turn hook) ⟨[], [], []⟩) fstat)

/-- The path of an entry of a directory. -/
def entryPath (colpath entry : Str) : Str :=
  if colpath ≠ [] ∧ colpath.getLast? ≠ some '/' then colpath ++ "/".toList ++ entry
  else colpath ++ entry

/-- The first loop of `retrieve_collection_props`: the response for the files, and `fstats`. -/
def retrieveFiles (env : PikeEnv) (h : WebdavHandler γ) (context : γ) (w : WebDav) (colpath : Str)
    (xmlbody : XmlBody) : Str × Mapping Str Stat → List Str → Except Fault (Str × Mapping Str Stat)
  | r, [] => .ok r
  | (response, fstats), entry :: rest =>
    let path := entryPath colpath entry
    match h.statFile path with
    | none => .error .interpreter
    | some fstat =>
      if 0 ≤ fstat.size then
        match retrieveProps env h context w path xmlbody (some fstat) with
        | .error e => .error e
        | .ok text => retrieveFiles env h context w colpath xmlbody (response ++ text, fstats) rest
      else
        retrieveFiles env h context w colpath xmlbody (response, fstats.insert path fstat) rest

/-- The second one, over the directories. -/
def retrieveDirs (env : PikeEnv) (h : WebdavHandler γ) (context : γ) (w : WebDav)
    (xmlbody : XmlBody) (fstats : Mapping Str Stat) : Str → List Str → Except Fault Str
  | response, [] => .ok response
  | response, f :: rest =>
    let fname := if f.getLast? ≠ some '/' then f ++ "/".toList else f
    match retrieveProps env h context w fname xmlbody (fstats.lookup f) with
    | .error e => .error e
    | .ok text => retrieveDirs env h context w xmlbody fstats (response ++ text) rest

/-- `retrieve_collection_props` -/
def retrieveCollectionProps (env : PikeEnv) (h : WebdavHandler γ) (context : γ) (w : WebDav)
    (colpath : Str) (xmlbody : XmlBody) : Except Fault Str :=
  match h.getDirectory colpath with
  | none => .error .interpreter
  | some directory =>
    match retrieveFiles env h context w colpath xmlbody ([], ∅) directory with
    | .error e => .error e
    | .ok (response, fstats) =>
      retrieveDirs env h context w xmlbody fstats response (env.pathOrder fstats.keys)

/-! ## PROPFIND -/

/-- `get_xmlbody_props` -/
def getXmlbodyProps (env : PikeEnv) (w : WebDav) (data : Option Str) : Result XmlBody :=
  if data.getD [] = [] then
    let r := w.findProp [] "allprop".toList
    (r.1, .ok (.allprop r.2))
  else
    match env.parseInput (data.getD []) with
    | none => (w, .error .parse)
    | some node => (w.convertToMapping none node).andThen fun w m => (w, .ok (.props m))

/-- `raw_url`, or "/" where there is none. -/
def urlOr (url : Option Str) : Str := if url.getD [] = [] then "/".toList else url.getD []

/-- The part of `propfind` that comes after the body is read. -/
def answerPropfind (env : PikeEnv) (h : WebdavHandler γ) (context : γ) (w : WebDav) (rawUrl : Str)
    (depth : Str) (xmlData : XmlBody) : Except Fault Answer :=
  let start := "<?xml version=\"1.0\" encoding=\"utf-8\"?>\r\n".toList ++
    "<D:multistatus xmlns:D=\"DAV:\">\r\n".toList
  let stop := "</D:multistatus>\r\n".toList
  match h.statFile rawUrl with
  | none => .ok (lowAnswer 404 [])
  | some fstat =>
    let entries : Except Fault Str :=
      if fstat.size < 0 ∧ depth ≠ "0".toList then
        retrieveCollectionProps env h context w rawUrl xmlData
      else .ok []
    match entries with
    | .error e => .error e
    | .ok entries =>
      match retrieveProps env h context w rawUrl xmlData (some fstat) with
      | .error e => .error e
      | .ok text => .ok (multiStatus (start ++ entries ++ text ++ stop))

/-- `propfind` -/
def propfind (env : PikeEnv) (h : WebdavHandler γ) (w : WebDav) (rawUrl depth data : Option Str)
    (context : γ) : Result Answer :=
  match getXmlbodyProps env w data with
  | (w, .error _) => (w, .ok (lowAnswer 400 "bad request".toList))
  | (w, .ok xmlData) =>
    (w, answerPropfind env h context w (urlOr rawUrl) (depth.getD "infinity".toList) xmlData)

/-! ## PROPPATCH -/

/-- `get_xpath` for an expression of one name; prefixes are ignored. -/
def getXpath (node : XmlNode) (name : Str) : List XmlNode :=
  node.children.filter fun c => (splitTag c.tagName).2 = name

/-- A property of `get_properties`. -/
def patchedProperty (env : PikeEnv) (w : WebDav) (prop : XmlNode) : Result (List Property) :=
  if prop.tagName = [] then (w, .ok [])
  else
    match prop.attributes with
    | none => (w, .error .interpreter)
    | some attributes =>
      let xmlns := (attributes.lookup "xmlns".toList).getD []
      let added : Result Unit :=
        if (w.getNamespace xmlns).isSome then (w, .ok ()) else w.addNamespace xmlns none
      added.andThen fun w _ =>
        match w.findProp xmlns prop.tagName with
        | (w, none) =>
          (w, .error (.error ("Namespace ".toList ++ xmlns ++ " not found for property ".toList ++
            prop.tagName)))
        | (w, some p) =>
          let value := env.valueOfNode prop
          (w.setValue p (some (if env.width value = 8 then value else env.stringToUtf8 value)),
            .ok [p])

def patchedProperties (env : PikeEnv) (w : WebDav) : List XmlNode → Result (List Property)
  | [] => (w, .ok [])
  | prop :: rest =>
    (patchedProperty env w prop).andThen fun w m =>
      (patchedProperties env w rest).andThen fun w ms => (w, .ok (m ++ ms))

/-- `get_properties` -/
def getProperties (env : PikeEnv) (w : WebDav) (n : XmlNode) : Result (List Property) :=
  patchedProperties env w
    ((n.children.filter fun c => (search c.tagName "prop".toList).isSome).flatMap
      XmlNode.children)

/-- The response for a property, and the table when its value is taken away (`remove`). -/
def patchTurn (h : WebdavHandler γ) (context : γ) (namespaces : Option (List (Str × Str)))
    (remove : Bool) (r : WebDav × Str) (p : Property) : WebDav × Str :=
  let w := if remove then r.1.setValue p none else r.1
  let patch := h.setProperty context p (w.getValue p) namespaces
  (w, r.2 ++ ("<D:propstat>\n".toList ++ "<D:prop><".toList ++ p.prop ++
    "/></D:prop>\n".toList ++ "<D:status>HTTP/1.1 ".toList ++
    (if patch then " 200 OK".toList else " 403 Forbidden".toList) ++ "</D:status>\r\n".toList ++
    "</D:propstat>\n".toList))

/-- The loop over the set, update or remove elements. -/
def patchNodes (env : PikeEnv) (h : WebdavHandler γ) (context : γ)
    (namespaces : Option (List (Str × Str))) (remove : Bool) (w : WebDav) :
    List XmlNode → Result Str
  | [] => (w, .ok [])
  | n :: rest =>
    (getProperties env w n).andThen fun w props =>
      let r := (env.indices props).foldl (patchTurn h context namespaces remove) (w, [])
      (patchNodes env h context namespaces remove r.1 rest).andThen fun w text =>
        (w, .ok (r.2 ++ text))

/-- `proppatch` -/
def proppatch (env : PikeEnv) (h : WebdavHandler γ) (w : WebDav) (url host data : Option Str)
    (context : γ) : Result Answer :=
  let start := "<?xml version=\"1.0\" encoding=\"utf-8\"?>\r\n".toList ++
    "<D:multistatus xmlns:D=\"DAV:\">\n".toList ++ "<D:response>\n".toList ++
    "<D:href>http://".toList ++ host.getD "0".toList ++ urlOr url ++ "</D:href>\n".toList
  match (data.bind env.parseInput).map fun node => getXpath node "propertyupdate".toList with
  | none => (w, .error .parse)
  | some [] => (w, .error (.error "Failed to parse webdav body.".toList))
  | some (node :: _) =>
    let sets := getXpath node "set".toList ++ getXpath node "update".toList
    (patchNodes env h context node.attributes false w sets).andThen fun w set =>
      (patchNodes env h context node.attributes true w (getXpath node "remove".toList)).andThen
        fun w removed =>
          (w, .ok (multiStatus (start ++ set ++ removed ++ "</D:response>\n".toList ++
            "</D:multistatus>\n".toList)))

/-! ## The server -/

inductive Request (γ : Type)
  | propfind (rawUrl depth data : Option Str) (context : γ)
  | proppatch (url host data : Option Str) (context : γ)

/-- The module's tables, and the last request with its answer. -/
structure Server (γ : Type) where
  tables : WebDav
  last : Option (Request γ × Except Fault Answer)

/-- A fresh one. -/
def Server.init : Server γ := { tables := WebDav.create, last := none }

def handleRequest (env : PikeEnv) (h : WebdavHandler γ) (w : WebDav) : Request γ → Result Answer
  | .propfind rawUrl depth data context => propfind env h w rawUrl depth data context
  | .proppatch url host data context => proppatch env h w url host data context

def Server.step (env : PikeEnv) (h : WebdavHandler γ) (s : Server γ) (request : Request γ) :
    Option (Server γ) :=
  let r := handleRequest env h s.tables request
  some { tables := r.1, last := some (request, r.2) }

end Caudium.Dav
