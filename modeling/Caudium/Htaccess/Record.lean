import Caudium.Http.ParseGot

/-!
# The sections of a .htaccess file (`parse_limit`)

The lines of a section become a record, in which a key has a set of strings or a number: "order"
and "all" (for "satisfy") have small numbers with a meaning. The first section that names a method
leaves its record under that name, and a section with several new names leaves one record under all
of them. What a later section for a method has is added to what is there, key by key, whatever it is.
-/

namespace Caudium.Htaccess

open Lib (Str Mapping cut)
open Http (splitOn)

/-- What there is under a key. A set may have a member more than once. -/
inductive Item
  | set (items : List Str)
  | int (n : Int)
  deriving DecidableEq

/-- A record. -/
abbrev Record := Mapping Str Item

/-- Not 0. -/
def Item.holds : Item → Bool
  | .set _ => true
  | .int n => n ≠ 0

/-- `record[key]`, as a condition. -/
def Record.has (r : Record) (key : Str) : Bool := (r.lookup key).any Item.holds

/-- The set under a key. -/
def Record.items (r : Record) (key : Str) : Option (List Str) :=
  match r.lookup key with
  | some (.set items) => some items
  | _ => none

/-- `record[key] == n`. -/
def Record.equals (r : Record) (key : Str) (n : Int) : Bool :=
  match r.lookup key with
  | none => n = 0
  | some (.int m) => m = n
  | some (.set _) => false

/-! ## Lines -/

def words (s : Str) : List Str := (splitOn ' ' s).filter (· ≠ [])

/-- A line with single blanks. -/
def squeeze (line : Str) : Str :=
  [' '].intercalate (words (line.map fun c => if c = '\t' then ' ' else c))

/-- What follows `t` at the beginning of `s`. -/
def behind (t s : Str) : Option Str := if t.isPrefixOf s then some (s.drop t.length) else none

/-- What a line is about: the members of a set, or a number. -/
inductive Entry
  | items (key : Str) (members : List Str)
  | int (key : Str) (n : Int)

def orderOf (data : Str) : Int :=
  let data := data.filter (· ≠ ' ')
  if "allow".toList.isPrefixOf data then 1
  else if "mutual-failure".toList.isPrefixOf data then -1
  else 0

/-- "require", with a kind and names behind it, is about the kind. -/
def requireOf (line : Str) : Option (Str × Str) :=
  (behind "require ".toList line).bind fun rest => cut rest [' ']

/-- A line, if it means something. -/
def readLine (line : Str) : Option Entry :=
  match behind "order ".toList line with
  | some data => some (.int "order".toList (orderOf data))
  | none =>
    match behind "deny from ".toList line with
    | some data => some (.items "deny".toList (words data))
    | none =>
      match behind "allow from ".toList line with
      | some data => some (.items "allow".toList (words data))
      | none =>
        match requireOf line with
        | some (ent, data) => some (.items ent (words data))
        | none =>
          match behind "satisfy ".toList line with
          | some data => some (.int "all".toList (if data = "all".toList then 1 else -1))
          | none =>
            if "require valid-user".toList.isPrefixOf line then
              some (.int "valid-user".toList 1)
            else none

/-- One more member. A number under the key makes room for the set. -/
def addItem (key : Str) (tmpmap : Record) (item : Str) : Record :=
  tmpmap.insert key (.set ((tmpmap.items key).getD [] ++ [item]))

def Entry.file (tmpmap : Record) : Entry → Record
  | .items key members => members.foldl (addItem key) tmpmap
  | .int key n => tmpmap.insert key (.int n)

/-- One line. -/
def fileLine (tmpmap : Record) (line : Str) : Record :=
  match readLine (squeeze line) with
  | some entry => entry.file tmpmap
  | none => tmpmap

/-- The lines of a body. -/
def linesOf (body : Str) : List Str := splitOn '\n' body

/-- The record of the lines. -/
def recordOf (lines : List Str) : Record :=
  let tmpmap := lines.foldl fileLine ∅
  if tmpmap.has "all".toList then tmpmap else tmpmap.insert "all".toList (.int 1)

/-! ## Sections -/

/-- `a + b`, `none` when it throws. -/
def Item.add : Item → Item → Option Item
  | .set a, .set b => some (.set (a ++ b))
  | .int a, .int b => some (.int (a + b))
  | _, _ => none

/-- What a key has, if anything, with an item added: 0 is as good as nothing. -/
def mergeItem (old : Option Item) (item : Item) : Option Item :=
  match old with
  | some old => if old.holds then old.add item else some item
  | none => some item

/-- One key of a record put into another one. -/
def mergeKey (r : Record) (key : Str) (item : Item) : Option Record :=
  (mergeItem (r.lookup key) item).map (r.insert key ·)

/-- A record put into another one. -/
def merge (r tmpmap : Record) : Option Record :=
  tmpmap.entries.foldlM (fun r e => mergeKey r e.1 e.2) r

/-- A section: the names in its tag, and its body. -/
structure Section where
  names : List Str
  distinct : names.Nodup
  body : Str

/-- A section without names is for all methods. -/
def Section.methods (sec : Section) : List Str := if sec.names = [] then ["all".toList] else sec.names

def Section.record (sec : Section) : Record := recordOf (linesOf sec.body)

/-- `access` while the sections are read: the records there are, and which one a method has. -/
structure Sections where
  records : List Record
  access : Mapping Str Nat

/-- One of the names. -/
def fileMethod (tmpmap : Record) (new : Nat) (st : Sections) (method : Str) : Option Sections :=
  match st.access.lookup method with
  | none => some { st with access := st.access.insert method new }
  | some i =>
    (merge (st.records.getD i ∅) tmpmap).map fun r => { st with records := st.records.set i r }

/-- `parse_limit`. -/
def parseLimit (st : Sections) (sec : Section) : Option Sections :=
  sec.methods.foldlM (fileMethod sec.record st.records.length)
    { st with records := st.records ++ [sec.record] }

/-- The record of a method. -/
def Sections.recordOf (st : Sections) (method : Str) : Option Record :=
  (st.access.lookup method).bind fun i => st.records[i]?

end Caudium.Htaccess
