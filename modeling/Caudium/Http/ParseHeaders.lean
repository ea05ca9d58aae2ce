import Caudium.Lib.Loop
import Caudium.Lib.Mapping
import Mathlib.Algebra.Group.Int.Defs

/-!
# Headers and query strings (`parse_headers`, `parse_query_string`, caudium.c)

The C functions the HTTP protocol module calls on a request. Pointers are offsets
into the string they walk over; the character after the last is NUL. Both
functions take strings of 8-bit characters: `narrow` is the test that
`get_all_args` makes for `%S`.
-/

namespace Caudium.Http

open Lib (Str Mapping runLoop Falls)

/-- The string has no wide characters. -/
def narrow (s : Str) : Bool := s.all fun c => decide (c.toNat < 256)

/-- The character at `k`; the NUL past the end. -/
def charAt (s : Str) (k : Nat) : Char := s.getD k '\x00'

theorem charAt_eq {s : Str} {k : Nat} (h : k < s.length) : charAt s k = s[k] := by
  rw [charAt, List.getD_eq_getElem?_getD, List.getElem?_eq_getElem h]
  rfl

theorem charAt_drop (s : Str) (p k : Nat) : charAt (s.drop p) k = charAt s (p + k) := by
  rw [charAt, charAt, List.getD_eq_getElem?_getD, List.getD_eq_getElem?_getD, List.getElem?_drop]

theorem charAt_append (a : Str) (c : Char) (rest : Str) : charAt (a ++ c :: rest) a.length = c := by
  rw [charAt, List.getD_eq_getElem?_getD, List.getElem?_append_right (Nat.le_refl _), Nat.sub_self]
  rfl

/-- The value of an integer as a C `int`. -/
def cInt (n : Int) : Int := (n + 2 ^ 31) % 2 ^ 32 - 2 ^ 31

/-- The string up to its NUL. -/
def cString (s : Str) : Str := s.takeWhile (· ≠ '\x00')

/-- `s[i .. j - 1]`. -/
def slice (s : Str) (i j : Nat) : Str := (s.take j).drop i

/-- The text from `i` on begins with it. -/
theorem slice_of_drop {s w rest : Str} {i : Nat} (h : s.drop i = w ++ rest) :
    slice s i (i + w.length) = w := by
  rw [slice, List.drop_take, h, Nat.add_sub_cancel_left, List.take_left]

/-- `lowercase`. -/
def lowercase (s : Str) : Str :=
  s.map fun c => if 65 ≤ c.toNat ∧ c.toNat ≤ 90 then Char.ofNat (c.toNat ||| 32) else c

/-! ## `url_decode` -/

/-- The value of a hexadecimal digit, for whatever character stands there. -/
def hexValue (c : Char) : Nat := if c.toNat < 65 then c.toNat &&& 15 else (c.toNat + 9) &&& 15

/-- The loop of `url_decode`. -/
def urlDecodeFrom (simple : Nat) : Str → Str
  | [] => []
  | '%' :: hi :: lo :: rest =>
    Char.ofNat ((hexValue hi <<< 4) ||| hexValue lo) :: urlDecodeFrom simple rest
  -- no room for two digits
  | '%' :: rest => if 1 ≤ simple then '%' :: urlDecodeFrom simple rest else ['\x00']
  | '+' :: rest => (if simple = 1 then '+' else ' ') :: urlDecodeFrom simple rest
  | c :: rest => c :: urlDecodeFrom simple rest

/-- `url_decode`: with `exist`, a NUL in front. -/
def urlDecode (str : Str) (exist : Bool) (simple : Nat) : Str :=
  if exist then '\x00' :: urlDecodeFrom simple str else urlDecodeFrom simple str

/-! ## `parse_headers` -/

/-- The local variables of `get_next_header`. -/
structure HeadState where
  count : Nat
  /-- It has returned `count`. -/
  returned : Bool
  headermap : Mapping Str Str

/-- `count < len`. -/
def headLive (heads : Str) (s : HeadState) : Bool := !s.returned && decide (s.count < heads.length)

/-- One turn of the loop of `get_next_header`. -/
def headStep (heads : Str) (s : HeadState) : HeadState :=
  if charAt heads s.count = ':' then
    let colon := s.count
    let count2 := colon + 1 + ((heads.drop (colon + 1)).takeWhile (· ≠ '\r')).length
    let data := colon + 1 + ((heads.drop (colon + 1)).takeWhile (· = ' ')).length
    { s with
      count := count2 + 1
      headermap := s.headermap.insert (lowercase (heads.take colon)) (slice heads data count2) }
  else if charAt heads s.count = '\n' then { s with count := s.count + 1, returned := true }
  else { s with count := s.count + 1 }

theorem count_lt_headStep (heads : Str) (s : HeadState) : s.count < (headStep heads s).count := by
  unfold headStep
  split
  · dsimp only
    omega
  · split <;> exact Nat.lt_succ_self _

theorem headStep_falls (heads : Str) :
    Falls (headLive heads) (headStep heads) (fun s => heads.length - s.count) where
  pos s h := by
    rw [headLive, Bool.and_eq_true, decide_eq_true_eq] at h
    omega
  fall s h _ := by
    rw [headLive, Bool.and_eq_true, decide_eq_true_eq] at h
    have hmove := count_lt_headStep heads s
    omega

/-- `get_next_header`: how far it has read, and the headers with the new one. -/
def getNextHeader (heads : Str) (headermap : Mapping Str Str) : Nat × Mapping Str Str :=
  let s := runLoop (headLive heads) (headStep heads) (fun s => heads.length - s.count)
    { count := 0, returned := false, headermap := headermap }
  (s.count, s.headermap)

/-- Something is read of any string that is not empty. -/
theorem getNextHeader_pos {heads : Str} (hne : heads ≠ []) (headermap : Mapping Str Str) :
    0 < (getNextHeader heads headermap).1 := by
  have hlen := List.length_pos_iff.mpr hne
  have hlive : headLive heads { count := 0, returned := false, headermap := headermap } = true := by
    rw [headLive, Bool.and_eq_true, decide_eq_true_eq]
    exact ⟨rfl, hlen⟩
  unfold getNextHeader
  dsimp only
  rw [Lib.runLoop_live (headStep_falls heads) hlive]
  refine Lib.runLoop_inv (P := fun s : HeadState => 0 < s.count) (fun s _ h => ?_) ?_
  · exact Nat.lt_trans h (count_lt_headStep heads s)
  · exact Nat.lt_of_le_of_lt (Nat.zero_le _) (count_lt_headStep heads _)

/-- What is left to parse, and the headers so far. -/
abbrev HeadersState := Str × Mapping Str Str

/-- `len > 0`. -/
def headersLive (s : HeadersState) : Bool := decide (0 < s.1.length)

def headersStep (s : HeadersState) : HeadersState :=
  let r := getNextHeader s.1 s.2
  (s.1.drop r.1, r.2)

theorem headersStep_falls : Falls headersLive headersStep (fun s => s.1.length) where
  pos _ h := of_decide_eq_true h
  fall s h _ := by
    have hlen : 0 < s.1.length := of_decide_eq_true h
    have hmove := getNextHeader_pos (List.length_pos_iff.mp hlen) s.2
    rw [headersStep, List.length_drop]
    omega

/-- `parse_headers`. -/
def parseHeaders (headers : Str) : Mapping Str Str :=
  (runLoop headersLive headersStep (fun s => s.1.length) (headers, ∅)).2

/-! ## `parse_query_string` -/

/-- The name of a form variable; `none` is the integer 0, under which a part of a
form that has no name is filed. -/
abbrev VarName := Option Str

/-- The local variables of `parse_query_string`, and the two it fills: `vars` is
the mapping `variables`. -/
structure QueryState where
  ptr : Nat
  name : Nat
  equal : Option Nat
  vars : Mapping VarName Str
  emptyVariables : List Str

/-- `ptr <= end`. -/
def queryLive (query : Str) (s : QueryState) : Bool := decide (s.ptr ≤ query.length)

/-- "back up to the start of this var". -/
def backUp (query : Str) (ptr : Nat) : Nat :=
  ptr - ((query.take ptr).reverse.takeWhile fun c => c ≠ '&' && c ≠ ';').length

/-- A variable with a value: after a NUL when there is one of that name already. -/
def storeVariable (vars : Mapping VarName Str) (name value : Str) : Mapping VarName Str :=
  let key := urlDecode name false 0
  match vars.lookup (some key) with
  | none => vars.insert (some key) (urlDecode value false 0)
  | some old => vars.insert (some key) (old ++ urlDecode value true 0)

/-- One turn of the loop of `parse_query_string`. -/
def queryStep (query : Str) (s : QueryState) : QueryState :=
  let c := charAt query s.ptr
  if c = '=' then { s with equal := some (s.equal.getD s.ptr), ptr := s.ptr + 1 }
  else if c = '\x00' ∧ s.ptr ≠ query.length then { s with ptr := s.ptr + 1 }
  else if c = '\x00' ∨ c = ';' ∨ c = '&' then
    if charAt query s.name = '\x00' ∨ charAt query s.name = '&' then { s with ptr := s.ptr + 2 }
    else
      match s.equal with
      | none =>
        if s.ptr = 0 then { s with ptr := s.ptr + 2 }
        else
          { s with
            emptyVariables := s.emptyVariables.insert (slice query (backUp query s.ptr) s.ptr)
            name := s.ptr + 1
            ptr := s.ptr + 1 }
      | some equal =>
        let name := slice query s.name equal
        let value := slice query (equal + 1) s.ptr
        let s := { s with equal := none, name := s.ptr + 1, ptr := s.ptr + 1 }
        if value = [] then { s with emptyVariables := s.emptyVariables.insert name }
        else { s with vars := storeVariable s.vars name value }
  else { s with ptr := s.ptr + 1 }

theorem queryStep_falls (query : Str) :
    Falls (queryLive query) (queryStep query) (fun s => query.length + 1 - s.ptr) where
  pos s h := by
    have hle : s.ptr ≤ query.length := of_decide_eq_true h
    omega
  fall s h _ := by
    have hle : s.ptr ≤ query.length := of_decide_eq_true h
    have hmove : s.ptr < (queryStep query s).ptr := by
      unfold queryStep
      dsimp only
      split
      · exact Nat.lt_succ_self _
      · split
        · exact Nat.lt_succ_self _
        · split
          · split
            · exact Nat.lt_add_of_pos_right (by omega)
            · split
              · split
                · exact Nat.lt_add_of_pos_right (by omega)
                · exact Nat.lt_succ_self _
              · split <;> exact Nat.lt_succ_self _
          · exact Nat.lt_succ_self _
    omega

/-- `parse_query_string`; `none` when `query` is not a string of 8-bit characters. -/
def parseQueryString (query : Str) (vars : Mapping VarName Str) (emptyVariables : List Str) :
    Option (Mapping VarName Str × List Str) :=
  if narrow query then
    let s := runLoop (queryLive query) (queryStep query) (fun s => query.length + 1 - s.ptr)
      { ptr := 0, name := 0, equal := none, vars := vars
        emptyVariables := emptyVariables }
    some (s.vars, s.emptyVariables)
  else none

end Caudium.Http
