import Mathlib.Data.List.TakeWhile
import Caudium.Http.ParseHTTP

/-!
# What the header loop of `append` stores (`caudium.c`)

The loop of `f_buf_append` goes over the header text in place. `foundFrom` reads the same entries
off the text: a key is all that stands between the end of one value and the next ':', a value
begins behind the blanks and ends at a CR or a LF, and with it goes a LF that follows that byte.
`insertFound` puts the entries into the mapping as the loop does, behind a comma where there is a
string already. `headerLoop_headers` says that this is what the loop leaves.
-/

namespace Caudium.Http

open Lib (Bytes Mapping pread runLoop)

/-- `c |= 32` for a capital letter. -/
def lowerByte (b : UInt8) : UInt8 := if 65 ≤ b ∧ b ≤ 90 then b ||| 32 else b

def lowerBytes (s : Bytes) : Bytes := s.map lowerByte

/-- Not the end of a value. -/
def inLine (b : UInt8) : Bool := b ≠ lf && b ≠ cr

/-- The blanks in front of a value. -/
def blanks (rest : Bytes) : Nat := (rest.takeWhile (· == space)).length

/-- The value that begins `rest`, behind the blanks. -/
def valueOf (rest : Bytes) : Bytes := (rest.drop (blanks rest)).takeWhile inLine

/-- How many bytes of `rest` the value takes, with the byte that ends it and a LF behind that. -/
def afterValue (rest : Bytes) : Nat :=
  let j := blanks rest + (valueOf rest).length
  if byteAt rest (j + 1) = lf then j + 2 else j + 1

/-- The entries found in a text, when `seen` has been gone over since the last of them and `n`
bytes belong to its value. -/
def foundFrom (seen : Bytes) : Nat → Bytes → List (Bytes × Bytes)
  | _, [] => []
  | n + 1, _ :: rest => foundFrom [] n rest
  | 0, c :: rest =>
    if c = colon then (lowerBytes seen, valueOf rest) :: foundFrom [] (afterValue rest) rest
    else foundFrom (seen ++ [c]) 0 rest

/-- The entries found in a header text. -/
def found (text : Bytes) : List (Bytes × Bytes) := foundFrom [] 0 text

/-- What an entry is stored as. -/
def folded (m : Mapping Bytes Svalue) (key value : Bytes) : Bytes :=
  match m.lookup key with
  | some (.string old) => old ++ comma :: value
  | _ => value

/-- The entries stored one after the other. -/
def insertFound (m : Mapping Bytes Svalue) (fs : List (Bytes × Bytes)) : Mapping Bytes Svalue :=
  fs.foldl (fun m f => m.insert f.1 (.string (folded m f.1 f.2))) m

/-! ## Bytes of the buffer -/

theorem lowerByte_idem (b : UInt8) : lowerByte (lowerByte b) = lowerByte b := by
  have hall : ∀ n : Fin 256, lowerByte (lowerByte (UInt8.ofNat n)) = lowerByte (UInt8.ofNat n) := by
    decide +kernel
  have hb := hall ⟨b.toNat, b.toNat_lt⟩
  rwa [UInt8.ofNat_toNat] at hb

theorem pread_drop (d : Bytes) (p n m : Nat) : pread d (p + n) (m - n) = (pread d p m).drop n := by
  rw [pread, pread, List.drop_take, List.drop_drop]

theorem byteAt_eq {d : Bytes} {p : Nat} (hp : p < d.length) : byteAt d p = d[p] := by
  rw [byteAt, List.getD_eq_getElem?_getD, List.getElem?_eq_getElem hp]
  rfl

theorem byteAt_drop (d : Bytes) (p k : Nat) : byteAt (d.drop p) k = byteAt d (p + k) := by
  rw [byteAt, byteAt, List.getD_eq_getElem?_getD, List.getElem?_drop, List.getD_eq_getElem?_getD]

theorem byteAt_append (a b : Bytes) (k : Nat) : byteAt (a ++ b) (a.length + k) = byteAt b k := by
  rw [← byteAt_drop, List.drop_left]

theorem pread_cons {d : Bytes} {p n : Nat} (hp : p < d.length) :
    pread d p (n + 1) = byteAt d p :: pread d (p + 1) n := by
  rw [pread, List.drop_eq_getElem_cons hp, List.take_succ_cons, byteAt_eq hp]
  rfl

theorem pread_snoc {d : Bytes} {p n : Nat} (hp : p + n < d.length) :
    pread d p (n + 1) = pread d p n ++ [byteAt d (p + n)] := by
  rw [pread, List.take_add_one, List.getElem?_drop, List.getElem?_eq_getElem hp, byteAt_eq hp]
  rfl

theorem pread_set_lt {d : Bytes} {k p : Nat} (h : k < p) (n : Nat) (b : UInt8) :
    pread (d.set k b) p n = pread d p n := by
  rw [pread, List.drop_set_of_lt h]
  rfl

theorem pread_set_ge {d : Bytes} {k p n : Nat} (h : p + n ≤ k) (b : UInt8) :
    pread (d.set k b) p n = pread d p n := by
  rw [pread, List.drop_set, if_neg (by omega), List.take_set_of_le (by omega)]
  rfl

theorem byteAt_set_ne {d : Bytes} {k k' : Nat} (h : k ≠ k') (b : UInt8) :
    byteAt (d.set k b) k' = byteAt d k' := by
  rw [byteAt, byteAt, List.getD_eq_getElem?_getD, List.getElem?_set_ne h,
    List.getD_eq_getElem?_getD]

theorem byteAt_set_eq {d : Bytes} {k : Nat} (h : k < d.length) (b : UInt8) :
    byteAt (d.set k b) k = b := by
  rw [byteAt, List.getD_eq_getElem?_getD, List.getElem?_set_self h]
  rfl

/-! ## The entries of a text -/

theorem foundFrom_skip (n : Nat) (rest : Bytes) : foundFrom [] n rest = found (rest.drop n) := by
  induction n generalizing rest with
  | zero => rfl
  | succ n ih =>
    cases rest with
    | nil => rfl
    | cons c rest => exact ih rest

/-- Of what has been gone over only the letters count, not their case. -/
theorem foundFrom_congr {seen seen' : Bytes} (h : lowerBytes seen = lowerBytes seen')
    (rest : Bytes) : foundFrom seen 0 rest = foundFrom seen' 0 rest := by
  induction rest generalizing seen seen' with
  | nil => rfl
  | cons c rest ih =>
    rw [foundFrom, foundFrom, h]
    have hnext : lowerBytes (seen ++ [c]) = lowerBytes (seen' ++ [c]) := by
      rw [lowerBytes, List.map_append, lowerBytes, List.map_append]
      exact congrArg (· ++ [lowerByte c]) h
    rw [ih hnext]

/-! ## Lists -/

theorem length_takeWhile_lt {p : UInt8 → Bool} {xs : Bytes} {x : UInt8} (hx : x ∈ xs)
    (hp : p x = false) : (xs.takeWhile p).length < xs.length := by
  refine Nat.lt_of_le_of_ne (List.takeWhile_sublist p).length_le fun he => ?_
  have hall : xs.takeWhile p = xs := (List.takeWhile_sublist p).eq_of_length he
  rw [← hall] at hx
  have hpx := List.mem_takeWhile_imp hx
  rw [hp] at hpx
  cases hpx

theorem takeWhile_append_of_stop {p : UInt8 → Bool} {xs : Bytes} {x : UInt8} (hx : x ∈ xs)
    (hp : p x = false) (ys : Bytes) : (xs ++ ys).takeWhile p = xs.takeWhile p := by
  rw [List.takeWhile_append, if_neg (Nat.ne_of_lt (length_takeWhile_lt hx hp))]

theorem drop_takeWhile (p : UInt8 → Bool) (xs : Bytes) :
    xs.drop (xs.takeWhile p).length = xs.dropWhile p := by
  have hdrop := @List.drop_left _ (xs.takeWhile p) (xs.dropWhile p)
  rwa [List.takeWhile_append_dropWhile] at hdrop

theorem mem_drop_blanks {x : UInt8} {rest : Bytes} (hx : x ∈ rest) (hne : x ≠ space) :
    x ∈ rest.drop (blanks rest) := by
  rw [blanks, drop_takeWhile]
  rw [← List.takeWhile_append_dropWhile (p := fun b => b == space) (l := rest),
    List.mem_append] at hx
  rcases hx with hblank | hx
  · have heq := List.mem_takeWhile_imp hblank
    exact absurd (eq_of_beq heq) hne
  · exact hx

/-- Where there is a LF, the value ends in front of the end of the text. -/
theorem value_lt {rest : Bytes} (h : lf ∈ rest) :
    blanks rest + (valueOf rest).length < rest.length := by
  have hlf := mem_drop_blanks h (by decide)
  have hlt := length_takeWhile_lt (p := inLine) hlf (by decide)
  rw [List.length_drop] at hlt
  have hvalue : (valueOf rest).length = ((rest.drop (blanks rest)).takeWhile inLine).length := rfl
  omega

/-! ## The loop -/

/-- What is known of the loop's state: the name so far is lowercased, and the text ends with a
LF. -/
structure Stands (inp l : Nat) (s : HeaderState) : Prop where
  le : s.os ≤ s.i
  low : lowerBytes (pread s.data (inp + s.os) (s.i - s.os)) =
    pread s.data (inp + s.os) (s.i - s.os)
  fits : inp + l ≤ s.data.length
  last : 0 < l → byteAt s.data (inp + (l - 1)) = lf

/-- What the loop will store. -/
def HeaderState.todo (inp l : Nat) (s : HeaderState) : List (Bytes × Bytes) :=
  foundFrom (pread s.data (inp + s.os) (s.i - s.os)) 0 (pread s.data (inp + s.i) (l - s.i))

/-- The name that stands in front of the byte at `i`. -/
def HeaderState.key (inp : Nat) (s : HeaderState) : Bytes :=
  pread s.data (inp + s.os) (s.i - s.os)

/-- What is left behind the byte at `i`. -/
def restText (inp l : Nat) (s : HeaderState) : Bytes := pread s.data (inp + s.i + 1) (l - s.i - 1)

section Turn

variable {inp l : Nat} {s : HeaderState}

theorem Stands.text (h : Stands inp l s) (hi : s.i < l) :
    pread s.data (inp + s.i) (l - s.i) = byteAt s.data (inp + s.i) :: restText inp l s := by
  have hfits := h.fits
  obtain ⟨n, hn⟩ : ∃ n, l - s.i = n + 1 := ⟨l - s.i - 1, by omega⟩
  rw [restText, hn, pread_cons (by omega)]
  rfl

theorem Stands.length_rest (h : Stands inp l s) : (restText inp l s).length = l - s.i - 1 := by
  have hfits := h.fits
  rw [restText, pread, List.length_take, List.length_drop]
  omega

/-- A ':' is not the last byte: the LF at the end of the text is behind it. -/
theorem Stands.lf_mem_rest (h : Stands inp l s) (hi : s.i < l)
    (hc : byteAt s.data (inp + s.i) = colon) : lf ∈ restText inp l s := by
  have hfits := h.fits
  have hlf := h.last (by omega)
  have hlast : s.i + 1 < l := by
    by_contra hge
    have hi' : l - 1 = s.i := by omega
    rw [hi', hc] at hlf
    exact absurd hlf (by decide)
  have hget : (restText inp l s)[l - s.i - 2]? = some lf := by
    rw [byteAt_eq (by omega)] at hlf
    rw [restText, pread, List.getElem?_take_of_lt (by omega), List.getElem?_drop,
      show inp + s.i + 1 + (l - s.i - 2) = inp + (l - 1) by omega,
      List.getElem?_eq_getElem (by omega), hlf]
  exact List.mem_of_getElem? hget

theorem Stands.drop_eq (h : Stands inp l s) (hi : s.i < l) :
    s.data.drop (inp + s.i + 1) = restText inp l s ++ s.data.drop (inp + l) := by
  have hfits := h.fits
  have hall := List.take_append_drop (l - s.i - 1) (s.data.drop (inp + s.i + 1))
  rw [List.drop_drop, show inp + s.i + 1 + (l - s.i - 1) = inp + l by omega] at hall
  exact hall.symm

/-- The blanks behind a ':' are those of the text, whatever the body begins with. -/
theorem Stands.blanks_eq (h : Stands inp l s) (hi : s.i < l) (hlf : lf ∈ restText inp l s) :
    ((s.data.drop (inp + s.i + 1)).takeWhile (· == space)).length = blanks (restText inp l s) := by
  rw [h.drop_eq hi, takeWhile_append_of_stop hlf (by decide)]
  rfl

/-- Behind the blanks. -/
theorem pread_blanks {os : Nat} (hos : os = s.i + 1 + blanks (restText inp l s)) :
    pread s.data (inp + os) (l - os) =
      (restText inp l s).drop (blanks (restText inp l s)) := by
  rw [hos, show inp + (s.i + 1 + blanks (restText inp l s)) =
    inp + s.i + 1 + blanks (restText inp l s) by omega,
    show l - (s.i + 1 + blanks (restText inp l s)) =
    l - s.i - 1 - blanks (restText inp l s) by omega, pread_drop]
  rfl

/-- The bytes from there to the end of the value. -/
theorem Stands.pread_value (h : Stands inp l s) (hlf : lf ∈ restText inp l s) {os : Nat}
    (hos : os = s.i + 1 + blanks (restText inp l s)) :
    pread s.data (inp + os) (valueOf (restText inp l s)).length = valueOf (restText inp l s) := by
  have hlt := value_lt hlf
  have hlen := h.length_rest
  have htake : pread s.data (inp + os) (valueOf (restText inp l s)).length =
      (pread s.data (inp + os) (l - os)).take (valueOf (restText inp l s)).length := by
    rw [pread, pread, List.take_take, Nat.min_eq_left (by omega)]
  rw [htake, pread_blanks hos]
  exact (List.prefix_iff_eq_take.mp (List.takeWhile_prefix _)).symm

/-- The bytes that the value takes, also where the byte behind it is the first one of the body. -/
theorem Stands.drop_after (h : Stands inp l s) (hi : s.i < l) {j : Nat}
    (hj : j = s.i + 1 + blanks (restText inp l s) + (valueOf (restText inp l s)).length) :
    (restText inp l s).drop ((if byteAt s.data (inp + j + 1) = lf then j + 1 else j) - s.i) =
      (restText inp l s).drop (afterValue (restText inp l s)) := by
  have hfits := h.fits
  have hlen := h.length_rest
  have hsplit := h.drop_eq hi
  generalize restText inp l s = R at hj hlen hsplit ⊢
  unfold afterValue
  dsimp only
  by_cases hin : blanks R + (valueOf R).length + 1 < R.length
  · have hnext : byteAt R (blanks R + (valueOf R).length + 1) = byteAt s.data (inp + j + 1) := by
      rw [byteAt_eq hin, byteAt_eq (by omega)]
      have hget := congrArg (·[blanks R + (valueOf R).length + 1]?) hsplit
      rw [List.getElem?_append_left hin, List.getElem?_drop, List.getElem?_eq_getElem hin,
        show inp + s.i + 1 + (blanks R + (valueOf R).length + 1) = inp + j + 1 by omega,
        List.getElem?_eq_getElem (by omega)] at hget
      exact (Option.some.inj hget).symm
    rw [hnext]
    congr 1
    split
    · omega
    · omega
  -- The text ends with the value: the byte behind it decides nothing.
  · rw [List.drop_eq_nil_of_le, List.drop_eq_nil_of_le]
    · split
      · omega
      · omega
    · split
      · omega
      · omega

/-- What a turn does: at a ':' it stores the name in front of it with the value behind it, and goes
on behind the value; elsewhere it goes on to the next byte. -/
inductive Turn (inp l : Nat) (s s' : HeaderState) : Prop
  | stored (value : Bytes) (hc : byteAt s.data (inp + s.i) = colon)
    (htodo : s.todo inp l = (s.key inp, value) :: s'.todo inp l)
    (hheaders : s'.headers =
      s.headers.insert (s.key inp) (.string (folded s.headers (s.key inp) value)))
  | passed (hc : byteAt s.data (inp + s.i) ≠ colon) (htodo : s'.todo inp l = s.todo inp l)
    (hheaders : s'.headers = s.headers)

theorem headerStep_colon (h : Stands inp l s) (hi : s.i < l)
    (hc : byteAt s.data (inp + s.i) = colon) :
    Stands inp l (headerStep inp l s) ∧ Turn inp l s (headerStep inp l s) := by
  have hlf := h.lf_mem_rest hi hc
  -- The value stands from `os` to `j`, and `n` is the last byte that goes with it.
  obtain ⟨os, hos⟩ : ∃ os, os = s.i + 1 + blanks (restText inp l s) := ⟨_, rfl⟩
  obtain ⟨j, hj⟩ : ∃ j, j = os + (valueOf (restText inp l s)).length := ⟨_, rfl⟩
  obtain ⟨n, hn⟩ : ∃ n, n = (if byteAt s.data (inp + j + 1) = lf then j + 1 else j) := ⟨_, rfl⟩
  have hin : s.i ≤ n := by
    rw [hn]
    split
    · omega
    · omega
  have hvalue : (pread s.data (inp + os) (l - os)).takeWhile (fun b => b ≠ lf && b ≠ cr) =
      valueOf (restText inp l s) := by
    rw [pread_blanks hos]
    rfl
  have hread : pread s.data (inp + os) (j - os) = valueOf (restText inp l s) := by
    rw [hj, Nat.add_sub_cancel_left, h.pread_value hlf hos]
  have hstep : headerStep inp l s = { s with
      headers := s.headers.insert (s.key inp)
        (.string (folded s.headers (s.key inp) (valueOf (restText inp l s))))
      i := n + 1, os := n + 1 } := by
    have hupper : ¬(65 ≤ byteAt s.data (inp + s.i) ∧ byteAt s.data (inp + s.i) ≤ 90) := by
      rw [hc]
      decide
    rw [headerStep]
    dsimp only
    rw [if_neg hupper, if_pos hc, h.blanks_eq hi hlf, ← hos, hvalue, ← hj, hread, ← hn]
    rfl
  rw [hstep]
  refine ⟨⟨Nat.le_refl _, ?_, h.fits, h.last⟩, .stored (valueOf (restText inp l s)) hc ?_ rfl⟩
  · dsimp only
    rw [Nat.sub_self]
    rfl
  · have hrest : pread s.data (inp + (n + 1)) (l - (n + 1)) =
        (restText inp l s).drop (afterValue (restText inp l s)) := by
      rw [← h.drop_after hi (hj.trans (by rw [hos])), ← hn, restText, ← pread_drop]
      congr 1
      · omega
      · omega
    unfold HeaderState.todo
    dsimp only
    rw [h.text hi, foundFrom, if_pos hc, h.low, foundFrom_skip, hrest, Nat.sub_self]
    rfl

theorem headerStep_upper (h : Stands inp l s) (hi : s.i < l)
    (hupper : 65 ≤ byteAt s.data (inp + s.i) ∧ byteAt s.data (inp + s.i) ≤ 90) :
    Stands inp l (headerStep inp l s) ∧ Turn inp l s (headerStep inp l s) := by
  have hle := h.le
  have hfits := h.fits
  have hstep : headerStep inp l s = { s with
      data := s.data.set (inp + s.i) (byteAt s.data (inp + s.i) ||| 32), i := s.i + 1 } := by
    rw [headerStep]
    exact if_pos hupper
  have hseen : pread (s.data.set (inp + s.i) (byteAt s.data (inp + s.i) ||| 32)) (inp + s.os)
      (s.i + 1 - s.os) = pread s.data (inp + s.os) (s.i - s.os) ++
        [lowerByte (byteAt s.data (inp + s.i))] := by
    rw [show s.i + 1 - s.os = s.i - s.os + 1 by omega,
      pread_snoc (by rw [List.length_set]; omega),
      show inp + s.os + (s.i - s.os) = inp + s.i by omega, byteAt_set_eq (by omega),
      pread_set_ge (by omega), lowerByte, if_pos hupper]
  have hcolon : byteAt s.data (inp + s.i) ≠ colon := by
    intro he
    rw [he] at hupper
    exact absurd hupper (by decide)
  rw [hstep]
  refine ⟨⟨Nat.le_succ_of_le hle, ?_, ?_, ?_⟩, .passed hcolon ?_ rfl⟩
  · dsimp only
    rw [hseen, lowerBytes, List.map_append, List.map_singleton, lowerByte_idem]
    exact congrArg (· ++ _) h.low
  · rw [List.length_set]
    exact hfits
  · intro hpos
    have hlf := h.last hpos
    -- The last byte is a LF, so it is not the one that is lowered.
    have hne : inp + s.i ≠ inp + (l - 1) := by
      intro he
      rw [he, hlf] at hupper
      exact absurd hupper (by decide)
    dsimp only
    rw [byteAt_set_ne hne, hlf]
  · unfold HeaderState.todo
    dsimp only
    rw [h.text hi, foundFrom, if_neg hcolon, hseen, pread_set_lt (by omega)]
    refine foundFrom_congr ?_ _
    rw [lowerBytes, lowerBytes, List.map_append, List.map_append, List.map_singleton,
      List.map_singleton, lowerByte_idem]

theorem headerStep_other (h : Stands inp l s) (hi : s.i < l)
    (hupper : ¬(65 ≤ byteAt s.data (inp + s.i) ∧ byteAt s.data (inp + s.i) ≤ 90))
    (hcolon : byteAt s.data (inp + s.i) ≠ colon) :
    Stands inp l (headerStep inp l s) ∧ Turn inp l s (headerStep inp l s) := by
  have hle := h.le
  have hfits := h.fits
  have hstep : headerStep inp l s = { s with i := s.i + 1 } := by
    rw [headerStep]
    dsimp only
    rw [if_neg hupper, if_neg hcolon]
  have hseen : pread s.data (inp + s.os) (s.i + 1 - s.os) =
      pread s.data (inp + s.os) (s.i - s.os) ++ [byteAt s.data (inp + s.i)] := by
    rw [show s.i + 1 - s.os = s.i - s.os + 1 by omega, pread_snoc (by omega),
      show inp + s.os + (s.i - s.os) = inp + s.i by omega]
  rw [hstep]
  refine ⟨⟨Nat.le_succ_of_le hle, ?_, hfits, h.last⟩, .passed hcolon ?_ rfl⟩
  · dsimp only
    rw [hseen, lowerBytes, List.map_append, List.map_singleton, lowerByte, if_neg hupper]
    exact congrArg (· ++ _) h.low
  · unfold HeaderState.todo
    dsimp only
    rw [h.text hi, foundFrom, if_neg hcolon, hseen]
    rfl

/-- **Every turn** keeps what is known of the state, and stores the next of what is to be stored or
nothing. -/
theorem headerStep_turn (h : Stands inp l s) (hi : s.i < l) :
    Stands inp l (headerStep inp l s) ∧ Turn inp l s (headerStep inp l s) := by
  by_cases hupper : 65 ≤ byteAt s.data (inp + s.i) ∧ byteAt s.data (inp + s.i) ≤ 90
  · exact headerStep_upper h hi hupper
  · by_cases hcolon : byteAt s.data (inp + s.i) = colon
    · exact headerStep_colon h hi hcolon
    · exact headerStep_other h hi hupper hcolon

end Turn

theorem stands_start {inp l : Nat} {data : Bytes} (hfits : inp + l ≤ data.length)
    (hlast : 0 < l → byteAt data (inp + (l - 1)) = lf) (m : Mapping Bytes Svalue) :
    Stands inp l { data := data, i := 0, os := 0, headers := m } :=
  ⟨Nat.le_refl _, rfl, hfits, hlast⟩

theorem Turn.insertFound_eq {inp l : Nat} {s s' : HeaderState} (h : Turn inp l s s') :
    insertFound s'.headers (s'.todo inp l) = insertFound s.headers (s.todo inp l) := by
  cases h with
  | stored value hc htodo hheaders =>
    rw [htodo, hheaders]
    rfl
  | passed hc htodo hheaders => rw [htodo, hheaders]

/-- **What the loop stores** is what is found in the text. -/
theorem headerLoop_headers {inp l : Nat} {data : Bytes} (hfits : 0 < l → inp + l ≤ data.length)
    (hlast : 0 < l → byteAt data (inp + (l - 1)) = lf) (m : Mapping Bytes Svalue) :
    (headerLoop inp l { data := data, i := 0, os := 0, headers := m }).headers =
      insertFound m (found (pread data inp l)) := by
  rcases Nat.eq_zero_or_pos l with hzero | hpos
  · subst hzero
    rfl
  have hdone := headerLoop_done inp l { data := data, i := 0, os := 0, headers := m }
  generalize hend : headerLoop inp l { data := data, i := 0, os := 0, headers := m } = s at hdone ⊢
  have hinv : Stands inp l s ∧
      insertFound s.headers (s.todo inp l) = insertFound m (found (pread data inp l)) := by
    rw [← hend]
    refine Lib.runLoop_inv (P := fun s => Stands inp l s ∧
      insertFound s.headers (s.todo inp l) = insertFound m (found (pread data inp l))) ?_
      ⟨stands_start (hfits hpos) hlast m, rfl⟩
    intro t hlive ht
    obtain ⟨hstands, hturn⟩ := headerStep_turn ht.1 (of_decide_eq_true hlive)
    exact ⟨hstands, hturn.insertFound_eq.trans ht.2⟩
  have htotal := hinv.2
  unfold HeaderState.todo at htotal
  rw [Nat.sub_eq_zero_of_le hdone] at htotal
  exact htotal

end Caudium.Http
