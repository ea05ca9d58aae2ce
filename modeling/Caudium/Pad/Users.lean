import Caudium.Http.UrlCodec
import Caudium.Lib.Memory
import Caudium.Pad.Scratchpad

/-!
# Who writes to the scratchpad (caudium.c)

`do_encode_stuff`, `url_decode`, `lowercase` and `_make_tag_attributes` ask `scratchpad_get` for
a size and then store in the pad, character by character. Here each of them is what it does to
the pad, with the `int`s it computes the size in; `ParseHeaders` and `UrlCodec` have what comes
out (`useUrlDecode_result` and its likes say that it is the same). Offsets are counted from the
start of the pad.
-/

namespace Caudium.Pad

open Lib (Str Memory runLoop Falls)
open Caudium.Http (cInt cString encodeChar hexChars hexValue)

/-- An `int` where a `size_t` is asked for. -/
def toSize (n : Int) : Nat := (n % 2 ^ 64).toNat

/-- A function's use of the pad: the argument of `scratchpad_get`, the pad after all stores, and
the string that is made of it. -/
structure Use where
  request : Nat
  mem : Memory Char
  result : Str

/-- The pad as it comes: whatever earlier users have left. -/
def pad (old : Nat → Char) : Memory Char := { cell := old, high := 0 }

/-! ## `do_encode_stuff` -/

/-- A turn of the second loop; the second component is `o`. -/
def encodeTurn (safe : Char → Bool) (p : Memory Char × Nat) (c : Char) : Memory Char × Nat :=
  if safe c then (p.1.store p.2 c, p.2 + 1)
  else
    (((p.1.store p.2 '%').store (p.2 + 1) (hexChars.getD (c.toNat >>> 4) '\x00')).store (p.2 + 2)
      (hexChars.getD (c.toNat &&& 15) '\x00'), p.2 + 3)

/-- `do_encode_stuff`; `none` when it returns before it asks for the pad. -/
def useDoEncodeStuff (old : Nat → Char) (s : Str) (safe : Char → Bool) : Option Use :=
  let needed := cInt ((cString s).countP fun c => !safe c)
  if needed = 0 then none
  else
    let inLen := cInt (s.length - 1)
    let outLen := cInt (cInt (inLen + cInt (needed * 2)) + 1)
    let p := (cString s).foldl (encodeTurn safe) (pad old, 0)
    let mem := p.1.store p.2 '\x00'
    some { request := toSize outLen, mem := mem, result := cString (mem.read 0 mem.high) }

/-! ## `url_decode` -/

/-- The variables of the loop. -/
structure DecodeState where
  mem : Memory Char
  i : Nat
  ptr : Nat
  nlen : Nat

/-- `ptr < end`. -/
def decodeLive (stop : Nat) (s : DecodeState) : Bool := decide (s.ptr < stop)

def decodeStep (stop simple : Nat) (s : DecodeState) : DecodeState :=
  let c := s.mem.cell s.ptr
  if c = '%' then
    if s.ptr + 2 < stop then
      let hi := s.mem.cell (s.ptr + 1)
      let lo := s.mem.cell (s.ptr + 2)
      { mem := s.mem.store s.i (Char.ofNat ((hexValue hi <<< 4) ||| hexValue lo))
        i := s.i + 1, ptr := s.ptr + 3, nlen := s.nlen + 1 }
    else if 1 ≤ simple then
      { mem := s.mem.store s.i c, i := s.i + 1, ptr := s.ptr + 1, nlen := s.nlen + 1 }
    else { mem := s.mem.store s.i '\x00', i := s.i + 1, ptr := s.ptr + 3, nlen := s.nlen + 1 }
  else if c = '+' then
    { mem := s.mem.store s.i (if simple = 1 then '+' else ' ')
      i := s.i + 1, ptr := s.ptr + 1, nlen := s.nlen + 1 }
  else { mem := s.mem.store s.i c, i := s.i + 1, ptr := s.ptr + 1, nlen := s.nlen + 1 }

/-- `url_decode`, on a string whose length is an `int`. -/
def useUrlDecode (old : Nat → Char) (str : Str) (exist : Bool) (simple : Nat) : Use :=
  let first := exist.toNat
  let mem := if exist then (pad old).store 0 '\x00' else pad old
  let mem := (mem.storeList first str).store (first + str.length) '\x00'
  let stop := first + str.length
  let s := runLoop (decodeLive stop) (decodeStep stop simple) (fun s => stop - s.ptr)
    { mem := mem, i := first, ptr := first, nlen := 0 }
  { request := toSize (cInt (str.length + 2)), mem := s.mem
    result := s.mem.read 0 (s.nlen + first) }

/-! ## `lowercase` and `_make_tag_attributes` -/

/-- A turn of the loop of `lowercase`. -/
def lowercaseTurn (mem : Memory Char) (p : Nat) : Memory Char :=
  let c := mem.cell p
  if 65 ≤ c.toNat ∧ c.toNat ≤ 90 then mem.store p (Char.ofNat (c.toNat ||| 32)) else mem

/-- `lowercase`, on a string whose length is an `INT32`. -/
def useLowercase (old : Nat → Char) (str : Str) : Use :=
  let mem := ((pad old).storeList 0 str).store str.length '\x00'
  let mem := (List.range str.length).foldl lowercaseTurn mem
  { request := toSize (cInt (str.length + 1)), mem := mem, result := mem.read 0 str.length }

/-- A turn of the loop of `f_make_tag_attributes`, for an attribute and its value, each with the
bytes that are copied of it. -/
def useTagAttribute (old : Nat → Char) (ind val : Str) : Use :=
  let len := cInt (ind.length + val.length + 5)
  let mem := (pad old).store len.toNat '\x00'
  let mem := mem.storeList 0 ind
  let mem := mem.storeList ind.length ['=', '"']
  let mem := mem.storeList (ind.length + 2) val
  let mem := mem.storeList (ind.length + 2 + val.length) ['"', ' ']
  { request := toSize len, mem := mem, result := mem.read 0 (ind.length + 2 + val.length + 2) }

/-! ## What `do_encode_stuff` stores -/

theorem encodeTurn_eq (safe : Char → Bool) (p : Memory Char × Nat) (c : Char) :
    encodeTurn safe p c =
      (p.1.storeList p.2 (encodeChar safe c), p.2 + (encodeChar safe c).length) := by
  unfold encodeTurn encodeChar
  split
  next => rfl
  next => rfl

/-- The loop stores the encoded text. -/
theorem foldl_encodeTurn (safe : Char → Bool) (s : Str) (m : Memory Char) (o : Nat) :
    s.foldl (encodeTurn safe) (m, o) =
      (m.storeList o (s.flatMap (encodeChar safe)), o + (s.flatMap (encodeChar safe)).length) := by
  induction s generalizing m o with
  | nil => rfl
  | cons c s ih =>
    rw [List.foldl_cons, encodeTurn_eq, ih, List.flatMap_cons, Memory.storeList_append,
      List.length_append, Nat.add_assoc]

theorem length_encode (safe : Char → Bool) (s : Str) :
    (s.flatMap (encodeChar safe)).length = s.length + 2 * s.countP fun c => !safe c := by
  induction s with
  | nil => rfl
  | cons c s ih =>
    rw [List.flatMap_cons, List.length_append, ih, List.length_cons]
    cases hsafe : safe c with
    | true =>
      rw [Http.encodeChar_safe hsafe, List.countP_cons_of_neg (by rw [hsafe]; decide),
        List.length_singleton]
      omega
    | false =>
      rw [Http.encodeChar_digits hsafe, List.countP_cons_of_pos (by rw [hsafe]; decide)]
      simp only [List.length_cons, List.length_nil]
      omega

theorem outLen_eq (len needed : Nat) :
    cInt (cInt (cInt ((len : Int) - 1) + cInt (cInt needed * 2)) + 1) = cInt (len + 2 * needed) := by
  simp only [cInt]
  omega

theorem useDoEncodeStuff_eq {old : Nat → Char} {s : Str} {safe : Char → Bool}
    (hneeded : cInt ((cString s).countP fun c => !safe c) ≠ 0) :
    useDoEncodeStuff old s safe = some
      { request := toSize (cInt (s.length + 2 * (cString s).countP fun c => !safe c))
        mem := (pad old).storeList 0 ((cString s).flatMap (encodeChar safe) ++ ['\x00'])
        result := cString ((cString s).flatMap (encodeChar safe) ++ ['\x00']) } := by
  have hmem : ((cString s).foldl (encodeTurn safe) (pad old, 0)).1.store
      ((cString s).foldl (encodeTurn safe) (pad old, 0)).2 '\x00' =
        (pad old).storeList 0 ((cString s).flatMap (encodeChar safe) ++ ['\x00']) := by
    rw [foldl_encodeTurn, Memory.storeList_append, Memory.storeList_singleton]
  have hhigh : ((pad old).storeList 0 ((cString s).flatMap (encodeChar safe) ++ ['\x00'])).high =
      ((cString s).flatMap (encodeChar safe) ++ ['\x00']).length := by
    rw [Memory.high_storeList, if_neg (List.append_ne_nil_of_right_ne_nil _ (List.cons_ne_nil _ _)),
      Nat.zero_add]
    exact Nat.max_eq_right (Nat.zero_le _)
  rw [useDoEncodeStuff]
  dsimp only
  rw [if_neg hneeded, hmem, hhigh, Memory.read_storeList, outLen_eq]

/-- The string is the one that `doEncodeStuff` has. -/
theorem useDoEncodeStuff_result (old : Nat → Char) {s : Str} (hs : s.length < 2 ^ 31)
    (safe : Char → Bool) :
    (useDoEncodeStuff old s safe).map Use.result = Http.doEncodeStuff s safe := by
  have hle : ((cString s).countP fun c => !safe c) ≤ s.length :=
    Nat.le_trans List.countP_le_length (List.takeWhile_prefix _).length_le
  rw [Http.doEncodeStuff]
  dsimp only
  by_cases hzero : ((cString s).countP fun c => !safe c) = 0
  · rw [useDoEncodeStuff, hzero, if_pos rfl]
    rfl
  · rw [useDoEncodeStuff_eq, if_neg hzero]
    · rfl
    · simp only [cInt]
      omega

/-! ## What `url_decode` stores -/

theorem decodeStep_falls (stop simple : Nat) :
    Falls (decodeLive stop) (decodeStep stop simple) (fun s => stop - s.ptr) where
  pos s h := by
    have hlt : s.ptr < stop := of_decide_eq_true h
    omega
  fall s h _ := by
    have hlt : s.ptr < stop := of_decide_eq_true h
    have hmove : s.ptr < (decodeStep stop simple s).ptr := by
      unfold decodeStep
      dsimp only
      split
      · split
        · exact Nat.lt_add_of_pos_right (by decide)
        · split
          · exact Nat.lt_succ_self _
          · exact Nat.lt_add_of_pos_right (by decide)
      · split <;> exact Nat.lt_succ_self _
    omega

/-- The loop of `url_decode`. -/
def decodeRun (stop simple : Nat) (s : DecodeState) : DecodeState :=
  runLoop (decodeLive stop) (decodeStep stop simple) (fun s => stop - s.ptr) s

theorem decodeRun_live {stop simple : Nat} {s : DecodeState} (h : s.ptr < stop) :
    decodeRun stop simple s = decodeRun stop simple (decodeStep stop simple s) :=
  Lib.runLoop_live (decodeStep_falls stop simple) (decide_eq_true h)

theorem decodeRun_stop {stop simple : Nat} {s : DecodeState} (h : stop ≤ s.ptr) :
    decodeRun stop simple s = s :=
  Lib.runLoop_stop (decide_eq_false (Nat.not_lt.mpr h))

/-- In the state `r` the text `d` stands from `i` on, nothing before it is different from `mem`,
and nothing was stored from `stop` on. -/
structure Wrote (mem : Memory Char) (i nlen stop : Nat) (d : Str) (r : DecodeState) : Prop where
  nlen : r.nlen = nlen + d.length
  text : r.mem.read i d.length = d
  before : ∀ k n, k + n ≤ i → r.mem.read k n = mem.read k n
  high : r.mem.high ≤ max mem.high stop

theorem Wrote.cons {mem : Memory Char} {i nlen stop : Nat} {c : Char} {d : Str} {r : DecodeState}
    (h : Wrote (mem.store i c) (i + 1) (nlen + 1) stop d r) (hi : i < stop) :
    Wrote mem i nlen stop (c :: d) r where
  nlen := by
    rw [h.nlen, List.length_cons]
    omega
  text := by
    have hone : r.mem.read i 1 = (mem.store i c).read i 1 := h.before i 1 (Nat.le_refl _)
    have hcell : r.mem.cell i = c := (List.cons.inj hone).1.trans (mem.cell_store_same i c)
    rw [List.length_cons, Memory.read, hcell, h.text]
  before k n hk := by
    rw [h.before k n (by omega)]
    exact mem.read_store_of_disjoint (Or.inr hk) c
  high := by
    have hle := h.high
    rw [Memory.high_store] at hle
    omega

/-- What the loop does with `s` when it stands at `ptr` and is to be stored from `i` on. -/
def Reads (stop simple : Nat) (s d : Str) : Prop :=
  ∀ (mem : Memory Char) (i ptr nlen : Nat), i ≤ ptr → stop = ptr + s.length →
    mem.read ptr s.length = s →
      Wrote mem i nlen stop d (decodeRun stop simple ⟨mem, i, ptr, nlen⟩)

/-- A turn that takes one character and stores one. -/
theorem Reads.cons {stop simple : Nat} {c c' : Char} {rest d : Str} (h : Reads stop simple rest d)
    (hstep : ∀ mem i ptr nlen, mem.cell ptr = c → stop = ptr + rest.length + 1 →
      decodeStep stop simple ⟨mem, i, ptr, nlen⟩ = ⟨mem.store i c', i + 1, ptr + 1, nlen + 1⟩) :
    Reads stop simple (c :: rest) (c' :: d) := by
  intro mem i ptr nlen hi hstop hread
  rw [List.length_cons] at hstop
  obtain ⟨hcell, hrest⟩ := List.cons.inj hread
  have hlt : ptr < stop := by omega
  rw [decodeRun_live hlt, hstep mem i ptr nlen hcell hstop]
  refine (h _ _ _ _ (by omega) (by omega) ?_).cons (by omega)
  rw [Memory.read_store_of_disjoint _ (Or.inl (by omega))]
  exact hrest

theorem length_le_one {rest : Str} (h : ∀ x y t, rest = x :: y :: t → False) : rest.length ≤ 1 := by
  rcases rest with _ | ⟨x, _ | ⟨y, t⟩⟩
  · exact Nat.zero_le _
  · exact Nat.le_refl _
  · exact absurd rfl (h x y t)

/-- The loop reads ahead of where it stores, so what it reads is still the string. -/
theorem reads_urlDecodeFrom (stop simple : Nat) (s : Str) :
    Reads stop simple s (Http.urlDecodeFrom simple s) := by
  fun_induction Http.urlDecodeFrom simple s with
  | case1 =>
    intro mem i ptr nlen _ hstop _
    rw [decodeRun_stop (by rw [hstop]; exact Nat.le_refl _)]
    exact ⟨rfl, rfl, fun _ _ _ => rfl, Nat.le_max_left _ _⟩
  | case2 hi lo rest ih =>
    intro mem i ptr nlen hle hstop hread
    simp only [List.length_cons] at hstop
    obtain ⟨hcell, hread⟩ := List.cons.inj hread
    obtain ⟨hhi, hread⟩ := List.cons.inj hread
    obtain ⟨hlo, hread⟩ := List.cons.inj hread
    have hstep : decodeStep stop simple ⟨mem, i, ptr, nlen⟩ =
        ⟨mem.store i (Char.ofNat ((hexValue hi <<< 4) ||| hexValue lo)), i + 1, ptr + 3,
          nlen + 1⟩ := by
      unfold decodeStep
      dsimp only
      rw [if_pos hcell, if_pos (by omega), hhi, hlo]
    rw [decodeRun_live (by show ptr < stop; omega), hstep]
    refine (ih _ _ _ _ (by omega) (by omega) ?_).cons (by omega)
    rw [Memory.read_store_of_disjoint _ (Or.inl (by omega))]
    exact hread
  | case3 rest hshort hsimple ih =>
    -- no room for two digits
    refine ih.cons fun mem i ptr nlen hcell hstop => ?_
    have hlen := length_le_one hshort
    unfold decodeStep
    dsimp only
    rw [if_pos hcell, if_neg (by omega), if_pos hsimple, hcell]
  | case4 rest hshort hsimple =>
    intro mem i ptr nlen hle hstop hread
    obtain ⟨hcell, -⟩ := List.cons.inj hread
    rw [List.length_cons] at hstop
    have hlen := length_le_one hshort
    have hstep : decodeStep stop simple ⟨mem, i, ptr, nlen⟩ =
        ⟨mem.store i '\x00', i + 1, ptr + 3, nlen + 1⟩ := by
      unfold decodeStep
      dsimp only
      rw [if_pos hcell, if_neg (by omega), if_neg hsimple]
    rw [decodeRun_live (by show ptr < stop; omega), hstep,
      decodeRun_stop (by show stop ≤ ptr + 3; omega)]
    refine Wrote.cons ⟨rfl, rfl, fun _ _ _ => rfl, ?_⟩ (by omega)
    exact Nat.le_max_left _ _
  | case5 rest ih =>
    refine ih.cons fun mem i ptr nlen hcell _ => ?_
    unfold decodeStep
    dsimp only
    rw [if_neg (by rw [hcell]; decide), if_pos hcell]
  | case6 c rest hshort hpercent hplus ih =>
    refine ih.cons fun mem i ptr nlen hcell _ => ?_
    unfold decodeStep
    dsimp only
    rw [hcell, if_neg fun h => hpercent h, if_neg fun h => hplus h]

/-- `url_decode` behind the first cells of a pad. -/
theorem decodeRun_spec (simple : Nat) (str : Str) (m : Memory Char) (first : Nat)
    (hm : m.high ≤ first) :
    let mem := (m.storeList first str).store (first + str.length) '\x00'
    let r := decodeRun (first + str.length) simple ⟨mem, first, first, 0⟩
    r.mem.read 0 (r.nlen + first) = m.read 0 first ++ Http.urlDecodeFrom simple str ∧
      r.mem.high ≤ first + str.length + 1 := by
  intro mem r
  have htext : mem.read first str.length = str := by
    rw [Memory.read_store_of_disjoint _ (Or.inr (Nat.le_refl _)), Memory.read_storeList]
  have hbefore : mem.read 0 first = m.read 0 first := by
    rw [Memory.read_store_of_disjoint _ (Or.inr (by omega)),
      Memory.read_storeList_of_disjoint _ (Or.inr (by omega))]
  have hhigh : mem.high = first + str.length + 1 := by
    rw [Memory.high_store, Memory.high_storeList]
    split
    next => omega
    next => omega
  have hwrote := reads_urlDecodeFrom (first + str.length) simple str mem first first 0
    (Nat.le_refl _) rfl htext
  refine ⟨?_, ?_⟩
  · rw [Nat.add_comm, Memory.read_add, hwrote.before 0 first (by omega), hbefore]
    show _ ++ r.mem.read (0 + first) r.nlen = _
    rw [hwrote.nlen, Nat.zero_add, Nat.zero_add, hwrote.text]
  · have hle := hwrote.high
    rw [hhigh] at hle
    exact Nat.le_trans hle (by omega)

theorem useUrlDecode_spec (old : Nat → Char) (str : Str) (exist : Bool) (simple : Nat) :
    (useUrlDecode old str exist simple).result = Http.urlDecode str exist simple ∧
    (useUrlDecode old str exist simple).mem.high ≤ str.length + 2 := by
  cases exist with
  | false =>
    obtain ⟨hresult, hhigh⟩ := decodeRun_spec simple str (pad old) 0 (Nat.le_refl _)
    exact ⟨hresult, Nat.le_trans hhigh (by omega)⟩
  | true =>
    obtain ⟨hresult, hhigh⟩ := decodeRun_spec simple str ((pad old).store 0 '\x00') 1
      (Nat.le_refl _)
    exact ⟨hresult, Nat.le_trans hhigh (by omega)⟩

/-! ## What `lowercase` and `_make_tag_attributes` store -/

theorem lowercaseTurn_cell (mem : Memory Char) (p : Nat) :
    [(lowercaseTurn mem p).cell p] = Http.lowercase [mem.cell p] := by
  unfold lowercaseTurn Http.lowercase
  dsimp only [List.map]
  split
  next => rw [Memory.cell_store_same]
  next => rfl

theorem lowercaseTurn_read {mem : Memory Char} {p k n : Nat} (h : p < k ∨ k + n ≤ p) :
    (lowercaseTurn mem p).read k n = mem.read k n := by
  unfold lowercaseTurn
  dsimp only
  split
  next => exact Memory.read_store_of_disjoint _ h _
  next => rfl

theorem lowercaseTurn_high (mem : Memory Char) (p : Nat) :
    (lowercaseTurn mem p).high ≤ max mem.high (p + 1) := by
  unfold lowercaseTurn
  dsimp only
  split
  next => exact Nat.le_refl _
  next => exact Nat.le_max_left _ _

/-- The loop of `lowercase` from `k` on. -/
theorem foldl_lowercaseTurn : ∀ (s : Str) (mem : Memory Char) (k : Nat), mem.read k s.length = s →
    ((List.range' k s.length).foldl lowercaseTurn mem).read k s.length = Http.lowercase s ∧
    (∀ j n, j + n ≤ k →
      ((List.range' k s.length).foldl lowercaseTurn mem).read j n = mem.read j n) ∧
    ((List.range' k s.length).foldl lowercaseTurn mem).high ≤ max mem.high (k + s.length)
  | [], _, _, _ => ⟨rfl, fun _ _ _ => rfl, Nat.le_max_left _ _⟩
  | c :: s, mem, k, hread => by
    obtain ⟨hcell, hrest⟩ := List.cons.inj hread
    have hnext : (lowercaseTurn mem k).read (k + 1) s.length = s := by
      rw [lowercaseTurn_read (Or.inl (Nat.lt_succ_self k))]
      exact hrest
    obtain ⟨htext, hbefore, hhigh⟩ := foldl_lowercaseTurn s (lowercaseTurn mem k) (k + 1) hnext
    rw [List.length_cons, List.range'_succ, List.foldl_cons]
    refine ⟨?_, fun j n hj => ?_, ?_⟩
    · rw [Nat.add_comm s.length 1, Memory.read_add, htext, hbefore k 1 (Nat.le_refl _)]
      show [(lowercaseTurn mem k).cell k] ++ _ = _
      rw [lowercaseTurn_cell, hcell]
      rfl
    · rw [hbefore j n (by omega), lowercaseTurn_read (Or.inr hj)]
    · have hturn := lowercaseTurn_high mem k
      omega

theorem useLowercase_spec (old : Nat → Char) (str : Str) :
    (useLowercase old str).result = Http.lowercase str ∧
    (useLowercase old str).mem.high ≤ str.length + 1 := by
  have hread : (((pad old).storeList 0 str).store str.length '\x00').read 0 str.length = str := by
    rw [Memory.read_store_of_disjoint _ (Or.inr (by omega)), Memory.read_storeList]
  have hstart : (((pad old).storeList 0 str).store str.length '\x00').high ≤ str.length + 1 := by
    rw [Memory.high_store, Memory.high_storeList]
    show max (if str = [] then 0 else max 0 (0 + str.length)) _ ≤ _
    split
    next => omega
    next => omega
  obtain ⟨htext, -, hhigh⟩ := foldl_lowercaseTurn str _ 0 hread
  rw [← List.range_eq_range'] at htext hhigh
  refine ⟨htext, Nat.le_trans hhigh (by omega)⟩

/-- All but the NUL is one run of stores. -/
theorem useTagAttribute_mem (old : Nat → Char) (ind val : Str) :
    (useTagAttribute old ind val).mem =
      ((pad old).store (cInt (ind.length + val.length + 5)).toNat '\x00').storeList 0
        (ind ++ (['=', '"'] ++ (val ++ ['"', ' ']))) := by
  rw [Memory.storeList_append, Memory.storeList_append, Memory.storeList_append, Nat.zero_add]
  rfl

theorem useTagAttribute_result (old : Nat → Char) (ind val : Str) :
    (useTagAttribute old ind val).result = ind ++ (['=', '"'] ++ (val ++ ['"', ' '])) := by
  have hlen : ind.length + 2 + val.length + 2 =
      (ind ++ (['=', '"'] ++ (val ++ ['"', ' ']))).length := by
    simp only [List.length_append, List.length_cons, List.length_nil]
    omega
  show (useTagAttribute old ind val).mem.read 0 (ind.length + 2 + val.length + 2) = _
  rw [useTagAttribute_mem, hlen, Memory.read_storeList]

/-- The NUL is stored one cell behind what was asked for. -/
theorem useTagAttribute_high (old : Nat → Char) (ind val : Str) :
    (cInt (ind.length + val.length + 5)).toNat < (useTagAttribute old ind val).mem.high := by
  rw [useTagAttribute_mem, Memory.high_storeList, Memory.high_store]
  split
  next => exact Nat.le_max_right _ _
  next => exact Nat.le_trans (Nat.le_max_right _ _) (Nat.le_max_left _ _)

/-! ## Inside the request -/

/-- How far a function stores. It does not get to store anything when it asks for more than any
allocator can give. -/
def Use.stored (u : Use) : Nat := if u.request < 2 ^ 63 then u.mem.high else 0

theorem stored_le_request_iff {u : Use} {n : Int} (hrequest : u.request = toSize (cInt n)) :
    u.stored ≤ u.request ↔ cInt n < 0 ∨ u.mem.high ≤ (cInt n).toNat := by
  have hupper : cInt n < 2 ^ 31 := by
    rw [cInt]
    omega
  have hlower : -2 ^ 31 ≤ cInt n := by
    rw [cInt]
    omega
  rw [Use.stored, hrequest, toSize]
  rcases Int.lt_or_le (cInt n) 0 with hneg | hpos
  · rw [if_neg (by omega)]
    exact iff_of_true (Nat.zero_le _) (Or.inl hneg)
  · have hmod : cInt n % 2 ^ 64 = cInt n := by omega
    rw [hmod, if_pos (by omega)]
    exact ⟨Or.inr, fun h => h.resolve_left (Int.not_lt.mpr hpos)⟩

/-- A function that asks for what it stores, as long as that is an `INT32` or one more. -/
theorem stored_le_request {u : Use} {n : Int} (hrequest : u.request = toSize (cInt n))
    (hlen : n < 2 ^ 32) (hhigh : u.mem.high ≤ n) : u.stored ≤ u.request := by
  have hcases : cInt n < 0 ∨ cInt n = n := by
    rw [cInt]
    omega
  refine (stored_le_request_iff hrequest).mpr (hcases.imp id fun h => ?_)
  rw [h]
  omega

/-- A call of a function that uses the pad. -/
inductive User where
  | doEncodeStuff (s : Str) (safe : Char → Bool)
  | urlDecode (str : Str) (hlen : str.length < 2 ^ 31) (exist : Bool) (simple : Nat)
  | lowercase (str : Str) (hlen : str.length < 2 ^ 31)
  | tagAttribute (ind val : Str)

def User.use (old : Nat → Char) : User → Option Use
  | doEncodeStuff s safe => useDoEncodeStuff old s safe
  | urlDecode str _ exist simple => some (useUrlDecode old str exist simple)
  | lowercase str _ => some (useLowercase old str)
  | tagAttribute ind val => some (useTagAttribute old ind val)

/-- When the call asks for all it stores to: for `do_encode_stuff` when nothing is to be encoded,
or the string has a NUL (with the overflows of `int`, so many bytes from there on as the size
has lost); for `_make_tag_attributes` when its size is negative, and nothing is stored. -/
def User.Asks : User → Prop
  | doEncodeStuff s safe =>
    let needed := (cString s).countP fun c => !safe c
    let outLen := cInt (s.length + 2 * needed)
    cInt needed = 0 ∨ outLen < 0 ∨ (cString s).length + 2 * needed < outLen
  | urlDecode .. => True
  | lowercase .. => True
  | tagAttribute ind val => cInt (ind.length + val.length + 5) < 0

theorem length_cString_lt_iff {s : Str} : (cString s).length < s.length ↔ '\x00' ∈ s := by
  refine ⟨fun h => Decidable.byContradiction fun hnul => ?_, fun hnul => ?_⟩
  · rw [Http.cString_self hnul] at h
    exact Nat.lt_irrefl _ h
  · refine Nat.lt_of_le_of_ne (List.takeWhile_prefix _).length_le fun h => ?_
    have hself : cString s = s := (List.takeWhile_prefix _).eq_of_length h
    rw [← hself] at hnul
    exact Http.nul_notMem_cString s hnul

/-- Where nothing overflows, a string that is encoded has a NUL if there was asked for enough. -/
theorem asks_doEncodeStuff_iff {s : Str} {safe : Char → Bool}
    (hlen : s.length + 2 * ((cString s).countP fun c => !safe c) < 2 ^ 31) :
    (User.doEncodeStuff s safe).Asks ↔ (∀ c ∈ cString s, safe c = true) ∨ '\x00' ∈ s := by
  have hneeded : cInt ((cString s).countP fun c => !safe c) =
      (cString s).countP fun c => !safe c := by
    rw [cInt]
    omega
  have houtLen : cInt (s.length + 2 * (cString s).countP fun c => !safe c) =
      s.length + 2 * (cString s).countP fun c => !safe c := by
    rw [cInt]
    omega
  have hnone : ((cString s).countP fun c => !safe c) = 0 ↔ ∀ c ∈ cString s, safe c = true := by
    simp only [List.countP_eq_zero, Bool.not_eq_true', Bool.not_eq_false]
  rw [← hnone, ← length_cString_lt_iff, User.Asks, hneeded, houtLen]
  omega

theorem forall_some_iff {α : Type} {o : Option α} {a : α} (h : o = some a) (P : α → Prop) :
    (∀ r, o = some r → P r) ↔ P a := by
  subst h
  refine ⟨fun hall => hall a rfl, fun ha r hr => ?_⟩
  obtain rfl := Option.some.inj hr
  exact ha

/-- `do_encode_stuff` stores the NUL behind what it asks for. -/
theorem useDoEncodeStuff_inside (old : Nat → Char) (s : Str) (safe : Char → Bool) :
    (∀ r, useDoEncodeStuff old s safe = some r → r.stored ≤ r.request) ↔
      (User.doEncodeStuff s safe).Asks := by
  by_cases hzero : cInt ((cString s).countP fun c => !safe c) = 0
  · have hnone : useDoEncodeStuff old s safe = none := by
      unfold useDoEncodeStuff
      exact if_pos hzero
    rw [hnone]
    exact iff_of_true (fun r h => nomatch h) (Or.inl hzero)
  · have hhigh : ((pad old).storeList 0 ((cString s).flatMap (encodeChar safe) ++ ['\x00'])).high =
        (cString s).length + 2 * ((cString s).countP fun c => !safe c) + 1 := by
      rw [Memory.high_storeList,
        if_neg (List.append_ne_nil_of_right_ne_nil _ (List.cons_ne_nil _ _)), List.length_append,
        length_encode, Nat.zero_add]
      exact Nat.max_eq_right (Nat.zero_le _)
    rw [forall_some_iff (useDoEncodeStuff_eq hzero), User.Asks]
    generalize hsize : (s.length + 2 * ((cString s).countP fun c => !safe c) : Int) = size
    rw [stored_le_request_iff (n := size) rfl, hhigh]
    omega

/-- A function stays inside of what it has asked for exactly when `Asks` says so. -/
theorem inside_iff (old : Nat → Char) (u : User) :
    (∀ r, u.use old = some r → r.stored ≤ r.request) ↔ u.Asks := by
  cases u with
  | doEncodeStuff s safe => exact useDoEncodeStuff_inside old s safe
  | urlDecode str hlen exist simple =>
    have hhigh := (useUrlDecode_spec old str exist simple).2
    have hrequest : (useUrlDecode old str exist simple).request =
        toSize (cInt (str.length + 2)) := by rw [useUrlDecode]
    have hinside := stored_le_request hrequest (by omega) (by omega)
    exact iff_of_true ((forall_some_iff rfl _).mpr hinside) trivial
  | lowercase str hlen =>
    have hhigh := (useLowercase_spec old str).2
    have hrequest : (useLowercase old str).request = toSize (cInt (str.length + 1)) := by rw [useLowercase]
    have hinside := stored_le_request hrequest (by omega) (by omega)
    exact iff_of_true ((forall_some_iff rfl _).mpr hinside) trivial
  | tagAttribute ind val =>
    have hhigh := useTagAttribute_high old ind val
    have hrequest : (useTagAttribute old ind val).request =
        toSize (cInt (ind.length + val.length + 5)) := by rw [useTagAttribute]
    refine (forall_some_iff rfl _).trans ((stored_le_request_iff hrequest).trans ?_)
    rw [User.Asks]
    omega

/-- In a sound thread a function that stays inside of its size stays inside of the buffer. -/
theorem Sound.stored_le {s : State} (hs : Sound s) {r : Use} {b : Option Nat}
    (hlast : s.last = some (r.request, .ok b)) (hinside : r.stored ≤ r.request) :
    ∃ n, b = some n ∧ r.stored ≤ n := by
  obtain ⟨n, hn, hle⟩ := hs.served r.request b hlast
  exact ⟨n, hn, Nat.le_trans hinside hle⟩

/-- A space as text of a URL, and the attribute `a="b" `. -/
theorem one_byte_more :
    ((User.doEncodeStuff [' '] Http.isUrlSafe).use fun _ => 'x').map
      (fun r => (r.request, r.stored)) = some (3, 4) ∧
    ((User.tagAttribute ['a'] ['b']).use fun _ => 'x').map
      (fun r => (r.request, r.stored)) = some (7, 8) := by
  decide +kernel

end Caudium.Pad
