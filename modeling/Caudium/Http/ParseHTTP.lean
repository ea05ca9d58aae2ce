import Caudium.Lib.File
import Caudium.Lib.Loop
import Caudium.Lib.Mapping

/-!
# The request parser (`Caudium.ParseHTTP`, caudium.c)

`append` copies what has arrived into a buffer and looks for the end of the
headers: two newlines with nothing but carriage returns between them. It does not
look through the whole buffer but starts three bytes before the new data, with
its newline count at zero. Once the end is found it takes the request apart in
place: the URL is decoded over itself, the header names are lowercased where they
stand.

Offsets replace pointers: `in` is an offset into `data`, and reading one byte past
the data gives the NUL that `append` puts there. All strings are of 8-bit
characters.
-/

namespace Caudium.Http

open Lib (Bytes Str Mapping pread pwrite runLoop Falls)

/-- '\n'. -/
abbrev lf : UInt8 := 10

/-- '\r'. -/
abbrev cr : UInt8 := 13

/-- ' '. -/
abbrev space : UInt8 := 32

/-- '%'. -/
abbrev percent : UInt8 := 37

/-- ','. -/
abbrev comma : UInt8 := 44

/-- ':'. -/
abbrev colon : UInt8 := 58

/-- '?'. -/
abbrev question : UInt8 := 63

/-- A value in the `headers` mapping, which the caller provides: `append` asks
whether what it finds there is a string. -/
inductive Svalue where
  | string (s : Bytes)
  | number (n : Int)
  deriving DecidableEq, Repr

/-- The parser object (`buffer`). -/
structure Buffer where
  /-- `data[0 .. pos - data)`. -/
  data : Bytes
  free : Nat
  other : Mapping Str Bytes
  headers : Mapping Bytes Svalue

/-- `create`: a buffer of `free` bytes that fills the two mappings given. -/
def Buffer.create (other : Mapping Str Bytes) (headers : Mapping Bytes Svalue) (free : Nat) :
    Buffer :=
  { data := [], free := free, other := other, headers := headers }

/-- `low_mapping_insert(BUF->other, key, value, 1)`. -/
def Buffer.insertOther (b : Buffer) (key : Str) (value : Bytes) : Buffer :=
  { b with other := b.other.insert key value }

/-! ## The end of the headers -/

/-- `slash_n` after one more byte. -/
def slash (n : Nat) (b : UInt8) : Nat :=
  if b = lf then n + 1 else if b ≠ cr then 0 else n

/-- The search: how far `pp` moves, and the `slash_n` it stops with. -/
def scan : Bytes → Nat → Nat × Nat
  | [], n => (0, n)
  | b :: bs, n =>
    if n < 2 then ((scan bs (slash n b)).1 + 1, (scan bs (slash n b)).2) else (0, n)

/-! ## The request line -/

/-- A scan of the request line up to `stop`; it fails on `bad`. -/
def findIn (stop bad : UInt8) : Bytes → Option Nat
  | [] => some 0
  | b :: bs =>
    if b = stop then some 0 else if b = bad then none else (findIn stop bad bs).map (· + 1)

/-- "find method". -/
def findMethod : Bytes → Option Nat := findIn space lf

/-- "find file". -/
def findFile : Bytes → Option Nat := findIn space lf

/-- "find protocol". -/
def findProtocol : Bytes → Option Nat := findIn lf space

/-- The value of a hexadecimal digit, for whatever byte stands there. -/
def hexDigitValue (c : UInt8) : UInt8 := if c < 65 then c &&& 15 else (c + 9) &&& 15

/-- `char_decode_url` from `ptr` on: what it writes over the string, the last NUL
included, and where the query string starts. It writes behind what it reads. -/
def charDecodeUrl : Bytes → Nat → Bytes × Option Nat
  | [], _ => ([0], none)
  | b :: rest, ptr =>
    if b = percent then
      match rest with
      | hi :: lo :: rest' =>
        let r := charDecodeUrl rest' (ptr + 3)
        (((hexDigitValue hi <<< 4) ||| hexDigitValue lo) :: r.1, r.2)
      -- fewer than two bytes left for the digits: a NUL, and `ptr` is past the end
      | _ => ([0, 0], none)
    else if b = question then ([0], some (ptr + 1))
    else
      let r := charDecodeUrl rest (ptr + 1)
      (b :: r.1, r.2)

/-- The C string at `pos`. -/
def cstring (data : Bytes) (pos : Nat) : Bytes := (data.drop pos).takeWhile (· ≠ 0)

/-! ## The headers -/

/-- The local variables of the header loop, with the buffer it lowercases in. -/
structure HeaderState where
  data : Bytes
  i : Nat
  os : Nat
  headers : Mapping Bytes Svalue

/-- The byte `in[k]`; the NUL past the end. -/
def byteAt (data : Bytes) (k : Nat) : UInt8 := data.getD k 0

/-- `i < l`. -/
def headerLive (l : Nat) (s : HeaderState) : Bool := decide (s.i < l)

/-- One turn of the header loop. A name that is there already gets the new value
after a comma; the string it is put in has no room for the last byte copied. -/
def headerStep (inp l : Nat) (s : HeaderState) : HeaderState :=
  let c := byteAt s.data (inp + s.i)
  if 65 ≤ c ∧ c ≤ 90 then
    { s with data := s.data.set (inp + s.i) (c ||| 32), i := s.i + 1 }
  else if c = colon then
    let key := pread s.data (inp + s.os) (s.i - s.os)
    let os := s.i + 1 + ((s.data.drop (inp + s.i + 1)).takeWhile (· == space)).length
    let j := os + ((pread s.data (inp + os) (l - os)).takeWhile fun b => b ≠ lf && b ≠ cr).length
    let value := match s.headers.lookup key with
      | some (.string old) => old ++ comma :: pread s.data (inp + os) (j - os)
      | _ => pread s.data (inp + os) (j - os)
    let j := if byteAt s.data (inp + j + 1) = lf then j + 1 else j
    { s with headers := s.headers.insert key (.string value), i := j + 1, os := j + 1 }
  else { s with i := s.i + 1 }

/-- Each turn brings `i` closer to `l`. -/
theorem headerStep_falls (inp l : Nat) :
    Falls (headerLive l) (headerStep inp l) (fun s => l - s.i) where
  pos s h := by
    have hi : s.i < l := of_decide_eq_true h
    omega
  fall s h _ := by
    have hi : s.i < l := of_decide_eq_true h
    have hmove : s.i < (headerStep inp l s).i := by
      unfold headerStep
      dsimp only
      split
      · exact Nat.lt_succ_self _
      · split
        · split <;> dsimp only <;> omega
        · exact Nat.lt_succ_self _
    omega

/-- The header loop over `in[0 .. l)`. -/
def headerLoop (inp l : Nat) (s : HeaderState) : HeaderState :=
  runLoop (headerLive l) (headerStep inp l) (fun s => l - s.i) s

/-- The loop has run to the end of the headers. -/
theorem headerLoop_done (inp l : Nat) (s : HeaderState) : l ≤ (headerLoop inp l s).i := by
  have hdone := Lib.runLoop_done (headerStep_falls inp l) s
  have hi : ¬ (headerLoop inp l s).i < l := of_decide_eq_false hdone
  omega

/-! ## `append` -/

/-- From the first header on. -/
def parseHeaderLines (b : Buffer) (inp l : Nat) : Nat × Buffer :=
  let s := headerLoop inp l { data := b.data, i := 0, os := 0, headers := b.headers }
  (1, { b with data := s.data, headers := s.headers })

/-- From the protocol on. -/
def parseProtocol (b : Buffer) (inp l : Nat) : Nat × Buffer :=
  match findProtocol (pread b.data inp l) with
  | none => (400, b)
  | some k =>
    let i := if byteAt b.data (inp + k - 1) ≠ cr then k + 1 else k
    let b := b.insertOther "protocol".toList (pread b.data inp (i - 1))
    if byteAt b.data (inp + i) = lf then parseHeaderLines b (inp + i + 1) (l - i - 1)
    else parseHeaderLines b (inp + i) (l - i)

/-- From the URL on. -/
def parseFile (b : Buffer) (inp l : Nat) : Nat × Buffer :=
  match findFile (pread b.data inp l) with
  | none => (400, b)
  | some i =>
    let rawUrl := pread b.data inp i
    let r := charDecodeUrl rawUrl 0
    let b := { b.insertOther "raw_url".toList rawUrl with data := pwrite b.data inp r.1 }
    let b := b.insertOther "file".toList (cstring b.data inp)
    let b := match r.2 with
      | none => b
      | some query => b.insertOther "query".toList (pread b.data (inp + query) (i - query))
    parseProtocol b (inp + (i + 1)) (l - (i + 1))

/-- What `append` does once the headers end before `pp`. -/
def parseRequest (b : Buffer) (pp : Nat) : Nat × Buffer :=
  let b := b.insertOther "data".toList (b.data.drop pp)
  match findMethod (b.data.take pp) with
  | none => (400, b)
  | some i =>
    parseFile (b.insertOther "method".toList (pread b.data 0 i)) (i + 1) (pp - (i + 1))

/-- `append`. -/
def Buffer.append (b : Buffer) (str : Bytes) : Nat × Buffer :=
  if b.free ≤ str.length then (413, b)
  else
    let start := b.data.length - 3
    let b := { b with data := b.data ++ str, free := b.free - str.length }
    let r := scan (b.data.drop start) 0
    if r.2 ≠ 2 then (0, b) else parseRequest b (start + r.1)

/-! ## What the parse leaves alone -/

/-- A parse that answers, and leaves in `other["data"]` what was there. -/
def KeepsData (b : Buffer) (r : Nat × Buffer) : Prop :=
  r.1 ≠ 0 ∧ r.2.other.lookup "data".toList = b.other.lookup "data".toList

/-- An entry under another name is no concern of `data`. -/
theorem KeepsData.of_insertOther {b : Buffer} {k : Str} {v : Bytes} {r : Nat × Buffer}
    (hk : "data".toList ≠ k) (h : KeepsData (b.insertOther k v) r) : KeepsData b r :=
  ⟨h.1, h.2.trans (AList.lookup_insert_ne hk)⟩

theorem badRequest_keepsData (b : Buffer) : KeepsData b (400, b) :=
  ⟨Nat.succ_ne_zero 399, rfl⟩

theorem parseHeaderLines_keepsData (b : Buffer) (inp l : Nat) :
    KeepsData b (parseHeaderLines b inp l) :=
  ⟨Nat.one_ne_zero, rfl⟩

theorem parseProtocol_keepsData (b : Buffer) (inp l : Nat) :
    KeepsData b (parseProtocol b inp l) := by
  unfold parseProtocol
  split
  · exact badRequest_keepsData b
  next k _ =>
    -- the last byte of the protocol decides whether it is cut off, and where the headers begin
    generalize (if byteAt b.data (inp + k - 1) ≠ cr then k + 1 else k) = i
    dsimp only
    split
    · exact KeepsData.of_insertOther (by decide) (parseHeaderLines_keepsData _ _ _)
    · exact KeepsData.of_insertOther (by decide) (parseHeaderLines_keepsData _ _ _)

theorem parseFile_keepsData (b : Buffer) (inp l : Nat) : KeepsData b (parseFile b inp l) := by
  unfold parseFile
  split
  · exact badRequest_keepsData b
  · dsimp only
    split
    · exact KeepsData.of_insertOther (k := "raw_url".toList) (by decide)
        (KeepsData.of_insertOther (k := "file".toList) (by decide) (parseProtocol_keepsData _ _ _))
    · exact KeepsData.of_insertOther (k := "raw_url".toList) (by decide)
        (KeepsData.of_insertOther (k := "file".toList) (by decide)
          (KeepsData.of_insertOther (k := "query".toList) (by decide)
            (parseProtocol_keepsData _ _ _)))

/-- Whatever the request, the parse answers, and has stored what follows the headers. -/
theorem parseRequest_data (b : Buffer) (pp : Nat) :
    (parseRequest b pp).1 ≠ 0 ∧
      (parseRequest b pp).2.other.lookup "data".toList = some (b.data.drop pp) := by
  have hkeep : KeepsData (b.insertOther "data".toList (b.data.drop pp)) (parseRequest b pp) := by
    unfold parseRequest
    dsimp only
    split
    · exact badRequest_keepsData _
    · exact KeepsData.of_insertOther (k := "method".toList) (by decide) (parseFile_keepsData _ _ _)
  exact ⟨hkeep.1, hkeep.2.trans (AList.lookup_insert _)⟩

end Caudium.Http
