import Caudium.Lib.Codec

/-!
# The pipe to an external script (`ExtScript.pmod`)

What is written into the pipe is made by `sprintf`, where `%c` makes a character of any number.
A string with a character above 255 is not written; `write` raises an error. The lengths of a
record go into `%c` as they are: that of the name in one character, that of the value divided by
65536, divided by 256 and the rest. So a name of 256 bytes, or a value of 65536, raises the
error, and whatever is written can be read in one way only (`written_iff`).
-/

namespace Caudium.ExtScript

open Lib (Decoder Decodes)

/-! ## Strings -/

/-- A string of 8-bit characters. -/
abbrev Bytes := List UInt8

/-- A string, by the numbers of its characters. -/
abbrev Codes := List Nat

def codes (s : Bytes) : Codes := s.map UInt8.toNat

/-- The text of a literal of the source. -/
def text (s : String) : Bytes := s.toList.map fun c => UInt8.ofNat c.toNat

/-- `pipe->write`: what gets to the other side; `none` for the error of a wide string. -/
def write (s : Codes) : Option Bytes :=
  if ∀ c ∈ s, c < 256 then some (s.map UInt8.ofNat) else none

/-- Several strings one after the other. -/
def writeAll : List Codes → Option Bytes
  | [] => some []
  | s :: rest =>
    match write s, writeAll rest with
    | some b, some bs => some (b ++ bs)
    | _, _ => none

theorem write_codes (s : Bytes) : write (codes s) = some s := by
  have hsmall : ∀ c ∈ codes s, c < 256 := by
    intro c hc
    obtain ⟨b, -, rfl⟩ := List.mem_map.mp hc
    exact b.toNat_lt
  rw [write, if_pos hsmall, codes, List.map_map]
  simp [Function.comp_def]

theorem write_append (s t : Codes) :
    write (s ++ t) = (write s).bind fun b => (write t).map (b ++ ·) := by
  unfold write
  by_cases hs : ∀ c ∈ s, c < 256
  · by_cases ht : ∀ c ∈ t, c < 256
    · rw [if_pos hs, if_pos ht, if_pos fun c hc => (List.mem_append.mp hc).elim (hs c) (ht c),
        List.map_append]
      rfl
    · rw [if_pos hs, if_neg ht, if_neg fun h => ht fun c hc => h c (List.mem_append_right _ hc)]
      rfl
  · rw [if_neg hs, if_neg fun h => hs fun c hc => h c (List.mem_append_left _ hc)]
    rfl

/-! ## Records -/

/-- What a record is about: a library path, a variable of the environment, a field of the
request, a header or a form variable. -/
inductive VarType
  | L
  | E
  | I
  | H
  | F
  deriving DecidableEq

def VarType.letter : VarType → UInt8
  | .L => 76
  | .E => 69
  | .I => 73
  | .H => 72
  | .F => 70

/-- `how`. -/
inductive How
  | run
  | eval
  deriving DecidableEq

/-- 'C' for a text, 'S' for a script. -/
def How.letter : How → UInt8
  | .eval => 67
  | .run => 83

/-- Something that is written. -/
inductive Item
  /-- "R": the variables are reset. -/
  | reset
  /-- "QP". -/
  | ping
  | var (vtype : VarType) (vname vval : Bytes)
  | command (how : How) (arg : Bytes)
  deriving DecidableEq

/-- `len/65536, len/256, len&255`, as three characters. -/
def lengthCodes (len : Nat) : Codes := [len / 65536, len / 256, len &&& 255]

/-- The two strings of `putvar`. -/
def putvar (vtype : VarType) (vname vval : Bytes) : List Codes :=
  [codes [vtype.letter] ++ [vname.length] ++ codes vname ++ lengthCodes vval.length, codes vval]

/-- The strings that are written. -/
def Item.strings : Item → List Codes
  | .reset => [codes (text "R")]
  | .ping => [codes (text "QP")]
  | .var vtype vname vval => putvar vtype vname vval
  | .command how arg => [codes [how.letter] ++ lengthCodes arg.length ++ codes arg]

/-- Everything that is written, `none` for an error. -/
def writeItems (items : List Item) : Option Bytes := writeAll (items.flatMap Item.strings)

/-! ## What is read -/

/-- A length of three bytes, the first the highest. -/
def readLength : Decoder UInt8 Nat := do
  let high ← Lib.item
  let mid ← Lib.item
  let low ← Lib.item
  pure (65536 * high.toNat + 256 * mid.toNat + low.toNat)

def readVar (vtype : VarType) : Decoder UInt8 Item := do
  let n ← Lib.item
  let vname ← Lib.exactly n.toNat
  let len ← readLength
  let vval ← Lib.exactly len
  pure (.var vtype vname vval)

def readCommand (how : How) : Decoder UInt8 Item := do
  let len ← readLength
  let arg ← Lib.exactly len
  pure (.command how arg)

/-- The rest of a ping. -/
def readPing : Decoder UInt8 Item := do
  let p ← Lib.item
  if p = 80 then pure .ping else failure

/-- An item, by its first letter. -/
def readItem : Decoder UInt8 Item := do
  let letter ← Lib.item
  if letter = 82 then pure .reset
  else if letter = 81 then readPing
  else if letter = How.eval.letter then readCommand .eval
  else if letter = How.run.letter then readCommand .run
  else if letter = VarType.L.letter then readVar .L
  else if letter = VarType.E.letter then readVar .E
  else if letter = VarType.I.letter then readVar .I
  else if letter = VarType.H.letter then readVar .H
  else if letter = VarType.F.letter then readVar .F
  else failure

/-- An item, unless there is nothing more. -/
def readNext (items : List Item) : Decoder UInt8 (Option (List Item))
  | [] => some (none, [])
  | b :: rest => (readItem >>= fun item => pure (some (items ++ [item]))) (b :: rest)

/-- All items; there are no more than bytes. -/
def decode (bytes : Bytes) : Option (List Item) :=
  ((Lib.untilEnd readNext (bytes.length + 1) []).run bytes).map Prod.fst

/-! ## Which items are written -/

/-- The lengths have room in their characters. -/
def Item.Fits : Item → Prop
  | .reset | .ping => True
  | .var _ vname vval => vname.length ≤ 255 ∧ vval.length ≤ 65535
  | .command _ arg => arg.length ≤ 65535

/-- The bytes of an item that fits. -/
def Item.bytes : Item → Bytes
  | .reset => text "R"
  | .ping => text "QP"
  | .var vtype vname vval =>
    [vtype.letter] ++ ([UInt8.ofNat vname.length] ++ (vname ++
      ((lengthCodes vval.length).map UInt8.ofNat ++ vval)))
  | .command how arg => [how.letter] ++ ((lengthCodes arg.length).map UInt8.ofNat ++ arg)

theorem write_cons (n : Nat) (s : Codes) :
    write (n :: s) = if n < 256 then (write s).map (UInt8.ofNat n :: ·) else none := by
  rw [← List.singleton_append, write_append]
  by_cases hn : n < 256
  · simp [write, hn]
  · simp [write, hn]

theorem write_length (n : Nat) :
    write (lengthCodes n) =
      if n ≤ 65535 then some ((lengthCodes n).map UInt8.ofNat) else none := by
  have hlow : n &&& 255 < 256 := Nat.lt_succ_of_le Nat.and_le_right
  have hall : (∀ c ∈ lengthCodes n, c < 256) ↔ n ≤ 65535 := by
    simp only [lengthCodes, List.forall_mem_cons, List.not_mem_nil, false_implies, implies_true,
      and_true]
    omega
  simp only [write, hall]

theorem writeAll_append (ss ts : List Codes) :
    writeAll (ss ++ ts) = (writeAll ss).bind fun b => (writeAll ts).map (b ++ ·) := by
  induction ss with
  | nil => simp [writeAll]
  | cons s ss ih =>
    rw [List.cons_append, writeAll, ih, writeAll]
    cases write s with
    | none => rfl
    | some b =>
      cases writeAll ss with
      | none => rfl
      | some bs => cases writeAll ts <;> simp

/-- An item whose lengths have room is written. -/
theorem writeAll_fits {item : Item} (h : item.Fits) : writeAll item.strings = some item.bytes := by
  cases item with
  | reset => rfl
  | ping => rfl
  | var vtype vname vval =>
    obtain ⟨hname, hval⟩ := h
    have hchar : vname.length < 256 := by omega
    simp [Item.strings, putvar, writeAll, write_append, write_codes, write_cons, write_length,
      hchar, hval, Item.bytes]
  | command how arg =>
    have harg : arg.length ≤ 65535 := h
    simp [Item.strings, writeAll, write_append, write_codes, write_length, harg, Item.bytes]

/-- One whose lengths have not raises the error. -/
theorem writeAll_not_fits {item : Item} (h : ¬ item.Fits) : writeAll item.strings = none := by
  cases item with
  | reset => exact absurd trivial h
  | ping => exact absurd trivial h
  | var vtype vname vval =>
    by_cases hname : vname.length < 256
    · have hval : ¬ vval.length ≤ 65535 := fun hval => h ⟨by omega, hval⟩
      simp [Item.strings, putvar, writeAll, write_append, write_codes, write_cons, write_length,
        hname, hval]
    · simp [Item.strings, putvar, writeAll, write_append, write_codes, write_cons, hname]
  | command how arg =>
    have harg : ¬ arg.length ≤ 65535 := h
    simp [Item.strings, writeAll, write_append, write_codes, write_length, harg]

theorem writeItems_fits {items : List Item} (h : ∀ item ∈ items, item.Fits) :
    writeItems items = some (items.flatMap Item.bytes) := by
  induction items with
  | nil => rfl
  | cons item items ih =>
    rw [List.forall_mem_cons] at h
    have hrest : writeAll (items.flatMap Item.strings) = some (items.flatMap Item.bytes) := ih h.2
    rw [writeItems, List.flatMap_cons, writeAll_append, writeAll_fits h.1, hrest]
    rfl

theorem writeItems_not_fits {items : List Item} {item : Item} (hmem : item ∈ items)
    (h : ¬ item.Fits) : writeItems items = none := by
  obtain ⟨before, behind, rfl⟩ := List.append_of_mem hmem
  rw [writeItems, List.flatMap_append, List.flatMap_cons, writeAll_append, writeAll_append,
    writeAll_not_fits h]
  cases writeAll (before.flatMap Item.strings) <;> rfl

/-! ## What is written is read back -/

theorem decodes_length {n : Nat} (h : n ≤ 65535) :
    Decodes readLength ((lengthCodes n).map UInt8.ofNat) n := by
  intro rest
  have hlow : n &&& 255 = n % 256 := Nat.and_two_pow_sub_one_eq_mod n 8
  have hn : 65536 * (n / 65536 % 256) + 256 * (n / 256 % 256) + n % 256 % 256 = n := by omega
  show some (65536 * (UInt8.ofNat (n / 65536)).toNat + 256 * (UInt8.ofNat (n / 256)).toNat +
    (UInt8.ofNat (n &&& 255)).toNat, rest) = some (n, rest)
  rw [hlow, UInt8.toNat_ofNat', UInt8.toNat_ofNat', UInt8.toNat_ofNat', hn]

theorem decodes_readVar (vtype : VarType) {vname vval : Bytes} (hname : vname.length ≤ 255)
    (hval : vval.length ≤ 65535) :
    Decodes (readVar vtype) ([UInt8.ofNat vname.length] ++ (vname ++
      ((lengthCodes vval.length).map UInt8.ofNat ++ vval))) (.var vtype vname vval) := by
  have hn : (UInt8.ofNat vname.length).toNat = vname.length := by
    rw [UInt8.toNat_ofNat', Nat.mod_eq_of_lt (by omega)]
  refine (Decodes.item _).bind ?_
  rw [hn]
  exact (Decodes.exactly vname).bind ((decodes_length hval).bind ((Decodes.exactly vval).bind_pure _))

theorem decodes_readCommand (how : How) {arg : Bytes} (harg : arg.length ≤ 65535) :
    Decodes (readCommand how) ((lengthCodes arg.length).map UInt8.ofNat ++ arg)
      (.command how arg) :=
  (decodes_length harg).bind ((Decodes.exactly arg).bind_pure _)

/-- The first letter says what follows. -/
theorem decodes_readItem {item : Item} (h : item.Fits) : Decodes readItem item.bytes item := by
  cases item with
  | reset => exact (Decodes.item _).bind (Decodes.pure _)
  | ping => exact fun rest => rfl
  | var vtype vname vval =>
    refine (Decodes.item _).bind ?_
    cases vtype <;> exact decodes_readVar _ h.1 h.2
  | command how arg =>
    refine (Decodes.item _).bind ?_
    cases how <;> exact decodes_readCommand _ h

theorem bytes_ne_nil (item : Item) : item.bytes ≠ [] := by
  cases item <;> exact List.cons_ne_nil _ _

theorem decodes_readNext {item : Item} (h : item.Fits) (items : List Item) :
    Decodes (readNext items) item.bytes (some (items ++ [item])) := by
  intro rest
  have hread := (decodes_readItem h).bind_pure fun item => some (items ++ [item])
  obtain ⟨b, bytes, hbytes⟩ := List.exists_cons_of_ne_nil (bytes_ne_nil item)
  have hrun := hread rest
  rw [hbytes] at hrun ⊢
  exact hrun

theorem foldl_concat (items acc : List Item) :
    items.foldl (fun acc item => acc ++ [item]) acc = acc ++ items := by
  induction items generalizing acc with
  | nil => exact (List.append_nil acc).symm
  | cons item items ih => rw [List.foldl_cons, ih, List.append_assoc]; rfl

theorem decode_bytes {items : List Item} (h : ∀ item ∈ items, item.Fits) :
    decode (items.flatMap Item.bytes) = some items := by
  have hcard := Lib.card_le_flatMap Item.bytes fun item (_ : item ∈ items) => bytes_ne_nil item
  have hread := @Lib.run_untilEnd UInt8 (List Item) Item readNext Item.bytes
    (fun acc item => acc ++ [item]) [] [] (fun _ => rfl) items
    (fun item hmem acc => decodes_readNext (h item hmem) acc)
    ((items.flatMap Item.bytes).length + 1) [] (Nat.lt_succ_of_le hcard)
  rw [List.append_nil] at hread
  rw [decode, hread, foldl_concat]
  rfl

/-- What is written is read back, and stands for no other items. -/
structure Framed (items : List Item) (bytes : Bytes) : Prop where
  written : writeItems items = some bytes
  read : decode bytes = some items
  unique : ∀ items', writeItems items' = some bytes → items' = items

/-- Items that are written are those that have room. -/
theorem fits_of_written {items : List Item} {bytes : Bytes} (h : writeItems items = some bytes) :
    ∀ item ∈ items, item.Fits := by
  intro item hmem
  by_contra hnot
  rw [writeItems_not_fits hmem hnot] at h
  cases h

/-- **When the records are framed.** Some items are written without an error, and the bytes read
in one way only and as these items, if and only if each name has at most 255 bytes and each value
and the script at most 65535. -/
theorem framed_iff (items : List Item) :
    (∃ bytes, Framed items bytes) ↔ ∀ item ∈ items, item.Fits := by
  constructor
  · intro hand
    obtain ⟨bytes, h⟩ := hand
    exact fits_of_written h.written
  · intro h
    refine ⟨_, writeItems_fits h, decode_bytes h, fun items' h' => ?_⟩
    have hfits := fits_of_written h'
    have hsame := (writeItems_fits hfits).symm.trans h'
    have hdecode := decode_bytes hfits
    rw [Option.some.inj hsame, decode_bytes h] at hdecode
    exact (Option.some.inj hdecode).symm

end Caudium.ExtScript
