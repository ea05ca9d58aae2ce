import Caudium.Http.ParseGot
import Caudium.Lib.Source

/-!
# The wrapper for ranges (`http.pike`)

A `MultiRangeWrapper` stands in for a file of which some ranges are to be sent: one range as it
is, several as the parts of a multipart body. `create` says beforehand how long that will be;
`read` gives as much as it is asked for, from wherever it stopped: in a separator, in a range, at
the end of one, or in the closing boundary. What is pending in a wrapper is a function of its
fields (`pending`), and a read takes the front of it (`read_delivers`).
-/

namespace Caudium.Http

open Lib (Str Mapping Delivers Pieces)

/-- `Stdio.File`, open for reading. -/
structure File where
  content : Str
  pos : Nat

def File.seek (file : File) (pos : Nat) : File := { file with pos := pos }

/-- At most `n` characters from where the file stands. -/
def File.read (file : File) (n : Int) : Str × File :=
  let s := (file.content.drop file.pos).take n.toNat
  (s, { file with pos := file.pos + s.length })

/-- `BOUND`. -/
def bound : Str := "Byte_Me_Now_Caudium".toList

/-- The start and the end of a range. -/
abbrev ByteRange := Nat × Nat

/-- An entry of `range_info`: the length of the range, and its separator when there are several. -/
structure RangeInfo where
  rlen : Int
  sep : Option Str

/-- `MultiRangeWrapper`, without the fields that `read` does not use. -/
structure MultiRangeWrapper where
  file : File
  currentPos : Int
  separator : Int
  isSingleRange : Bool
  ranges : List ByteRange
  rangeInfo : List RangeInfo
  storedData : Str

/-- What `create` leaves behind: the wrapper, `len` in the file mapping, and the headers. -/
structure Created where
  wrapper : MultiRangeWrapper
  len : Int
  heads : Mapping Str Str

/-! ## `create` -/

/-- `sep`; `printO` is the conversion `%O`. -/
def separatorOf (printO : Option Str → Str) (type : Option Str) (len : Nat) (range : ByteRange) : Str :=
  "\r\n--".toList ++ bound ++ "\r\nContent-Type: ".toList ++ printO type ++
    "\r\nContent-ByteRange: bytes ".toList ++ Nat.toDigits 10 range.1 ++ ['-'] ++
    Nat.toDigits 10 range.2 ++ ['/'] ++ Nat.toDigits 10 len ++ "\r\n\r\n".toList

/-- The headers that are a content type. -/
def isContentType (h : Str) : Bool := decide (lowerCase h = "content-type".toList)

/-- `type`, after the loop over the headers. -/
def typeOf (heads : Mapping Str Str) : Option Str :=
  heads.keys.foldl (fun type h => if isContentType h then heads.lookup h else type) none

def MultiRangeWrapper.create (printO : Option Str → Str) (file : File) (len : Nat) (heads : Mapping Str Str)
    (ranges : List ByteRange) (requestRange : Option Str) : Created :=
  match ranges with
  | [range] =>
    let clen : Int := 1 + range.2 - range.1
    { wrapper :=
        { file := file, currentPos := 0, separator := 0, isSingleRange := true, ranges := ranges
          rangeInfo := [⟨clen, none⟩], storedData := [] }
      len := clen
      heads := heads }
  | _ =>
    let type := typeOf heads
    let heads := heads.eraseAll (heads.keys.filter isContentType)
    let heads := heads.insert "Content-Type".toList
      (if requestRange.isSome then "multipart/x-byteranges; boundary=".toList ++ bound
        else "multipart/byteranges; boundary=".toList ++ bound)
    let p := ranges.foldl (fun (p : Int × List RangeInfo) range =>
      let rlen : Int := 1 + range.2 - range.1
      let sep := separatorOf printO type len range
      (p.1 + (rlen + sep.length), p.2 ++ [⟨rlen, some sep⟩])) (0, [])
    { wrapper :=
        { file := file, currentPos := 0, separator := 0, isSingleRange := false, ranges := ranges
          rangeInfo := p.2, storedData := [] }
      len := p.1 + (bound.length + 8)
      heads := heads }

/-! ## `read` -/

/-- The variables of `read`'s loop. -/
structure Reading where
  w : MultiRangeWrapper
  out : Str
  numBytes : Int

/-- `file->seek(range[0]); separator = 1;` -/
def MultiRangeWrapper.seek (w : MultiRangeWrapper) (pos : Nat) : MultiRangeWrapper :=
  { w with file := w.file.seek pos, separator := 1 }

/-- `if(separator != 1)`: a new range. -/
def startRange (info : RangeInfo) (range : ByteRange) (r : Reading) : Option Reading :=
  if r.w.separator = 1 then some r
  else if r.w.isSingleRange then some { r with w := r.w.seek range.1 }
  else
    info.sep.map fun sep =>
      { w := r.w.seek range.1, out := r.out ++ sep, numBytes := r.numBytes - sep.length }

/-- `if(num_bytes > 0)`. -/
def readRange (rlen : Int) (r : Reading) : Reading :=
  if r.numBytes > 0 then
    if rlen ≤ r.numBytes then
      { w := { r.w with
          file := (r.w.file.read rlen).2, currentPos := 0, separator := 0
          ranges := r.w.ranges.tail, rangeInfo := r.w.rangeInfo.tail }
        out := r.out ++ (r.w.file.read rlen).1
        numBytes := r.numBytes - rlen }
    else
      { w := { r.w with
          file := (r.w.file.read r.numBytes).2, currentPos := r.w.currentPos + r.numBytes }
        out := r.out ++ (r.w.file.read r.numBytes).1
        numBytes := 0 }
  else r

/-- `foreach(ranges, array range)`, over the ranges there are when it begins; `none` when
`range_info[0][1]` is not there. -/
def readRanges : List ByteRange → Reading → Option Reading
  | [], r => some r
  | range :: ranges, r =>
    match r.w.rangeInfo with
    | [] => none
    | info :: _ => do
      let r' ← startRange info range r
      let r' := readRange (info.rlen - r.w.currentPos) r'
      if r'.numBytes ≤ 0 then some r' else readRanges ranges r'

/-- The end boundary. -/
def endBoundary : Str := "\r\n--".toList ++ bound ++ "--\r\n".toList

/-- The end boundary is written once, behind the last range. -/
def close (r : Reading) : Reading :=
  if r.w.ranges = [] ∧ r.w.isSingleRange = false ∧ r.w.separator ≠ 2 then
    { r with w := { r.w with separator := 2 }, out := r.out ++ endBoundary }
  else r

def MultiRangeWrapper.read (w : MultiRangeWrapper) (args : Option Int) :
    Option (Str × MultiRangeWrapper) := do
  let total := args.getD 0xeffffff
  let r ← readRanges w.ranges
    { w := { w with storedData := [] }, out := w.storedData
      numBytes := total - w.storedData.length }
  let r := close r
  if (r.out.length : Int) > total then
    some (r.out.take total.toNat, { r.w with storedData := r.out.drop total.toNat })
  else some (r.out, r.w)

/-! ## What is to be sent -/

/-- The characters of a range. -/
def rangeBytes (content : Str) (range : ByteRange) : Str :=
  (content.drop range.1).take (range.2 + 1 - range.1)

/-- Of one range its characters; of several each separator and its range, and the end. -/
def rangeBody (printO : Option Str → Str) (content : Str) (len : Nat) (heads : Mapping Str Str) :
    List ByteRange → Str
  | [range] => rangeBytes content range
  | ranges =>
    ranges.flatMap (fun range =>
      separatorOf printO (typeOf heads) len range ++ rangeBytes content range) ++ endBoundary

/-! ## What is pending -/

namespace MultiRangeWrapper

variable (content : Str) (sep : ByteRange → Str)

/-- Of the ranges that are left: the first one from where the file stands, the others. -/
def ahead (w : MultiRangeWrapper) : Str :=
  match w.ranges with
  | [] => []
  | range :: ranges =>
    (if w.separator = 1 ∨ w.isSingleRange then [] else sep range) ++
      ((rangeBytes content range).drop w.currentPos.toNat ++ ranges.flatMap fun range =>
        (if w.isSingleRange then [] else sep range) ++ rangeBytes content range)

/-- The end boundary, if it is still to come. -/
def atEnd (w : MultiRangeWrapper) : Str :=
  if w.isSingleRange ∨ w.separator = 2 then [] else endBoundary

/-- All that is still to be sent. -/
def pending (w : MultiRangeWrapper) : Str := w.storedData ++ (w.ahead content sep ++ w.atEnd)

/-- A wrapper between two steps of `read`. -/
structure Ready (w : MultiRangeWrapper) : Prop where
  same : w.file.content = content
  infos : w.rangeInfo = w.ranges.map fun range =>
    ⟨1 + range.2 - range.1, if w.isSingleRange then none else some (sep range)⟩
  valid : ∀ range ∈ w.ranges, range.1 ≤ range.2 ∧ range.2 < content.length
  fresh : w.separator ≠ 1 → w.currentPos = 0
  within : w.separator = 1 → ∃ range ranges k, w.ranges = range :: ranges ∧ w.currentPos = (k : Nat) ∧
    w.file.pos = range.1 + k ∧ range.1 + k ≤ range.2
  more : w.ranges ≠ [] → w.separator ≠ 2

/-- From `r` to `r'` what is written and what is ahead together stay the same, and `num_bytes`
counts what is written. -/
structure Conserves (r r' : Reading) : Prop where
  text : r'.out ++ r'.w.ahead content sep = r.out ++ r.w.ahead content sep
  count : (r'.out.length : Int) + r'.numBytes = r.out.length + r.numBytes
  single : r'.w.isSingleRange = r.w.isSingleRange
  stored : r'.w.storedData = r.w.storedData
  ended : r'.w.separator = 2 ↔ r.w.separator = 2

variable {content sep}

theorem Conserves.refl (r : Reading) : Conserves content sep r r := ⟨rfl, rfl, rfl, rfl, Iff.rfl⟩

theorem Conserves.trans {r r' r'' : Reading} (h : Conserves content sep r r')
    (h' : Conserves content sep r' r'') : Conserves content sep r r'' :=
  ⟨h'.text.trans h.text, h'.count.trans h.count, h'.single.trans h.single, h'.stored.trans h.stored,
    h'.ended.trans h.ended⟩

/-! ## The loop -/

theorem startRange_spec {r : Reading} (h : Ready content sep r.w) {range : ByteRange}
    {ranges : List ByteRange} (hranges : r.w.ranges = range :: ranges) :
    ∃ r', startRange ⟨1 + range.2 - range.1, if r.w.isSingleRange then none else some (sep range)⟩
        range r = some r' ∧
      Ready content sep r'.w ∧ Conserves content sep r r' ∧ r'.w.separator = 1 ∧
      r'.w.ranges = r.w.ranges ∧ r'.w.currentPos = r.w.currentPos := by
  by_cases hsep : r.w.separator = 1
  · exact ⟨r, if_pos hsep, h, .refl r, hsep, rfl, rfl⟩
  · have hvalid := h.valid range (by rw [hranges]; exact List.mem_cons_self)
    have hready : Ready content sep (r.w.seek range.1) :=
      ⟨h.same, h.infos, h.valid, fun hne => absurd rfl hne,
        fun _ => ⟨range, ranges, 0, hranges, h.fresh hsep, rfl, hvalid.1⟩,
        fun _ => (by decide : (1 : Int) ≠ 2)⟩
    have hended : (r.w.seek range.1).separator = 2 ↔ r.w.separator = 2 :=
      iff_of_false (by decide : ¬(1 : Int) = 2)
        (h.more (by rw [hranges]; exact List.cons_ne_nil _ _))
    have hahead : r.w.ahead content sep = (if r.w.isSingleRange then [] else sep range) ++
        (r.w.seek range.1).ahead content sep := by
      unfold ahead seek
      dsimp only
      rw [hranges]
      simp only [hsep, false_or, true_or, if_true, List.nil_append]
    unfold startRange
    rw [if_neg hsep]
    by_cases hsingle : r.w.isSingleRange = true
    · rw [if_pos hsingle] at hahead ⊢
      refine ⟨_, rfl, hready, ⟨?_, rfl, rfl, rfl, hended⟩, rfl, rfl, rfl⟩
      rw [hahead]
      rfl
    · rw [if_neg hsingle] at hahead ⊢
      rw [if_neg hsingle]
      refine ⟨_, rfl, hready, ⟨?_, ?_, rfl, rfl, hended⟩, rfl, rfl, rfl⟩
      · rw [hahead, ← List.append_assoc]
      · dsimp only
        rw [List.length_append]
        omega

/-- Nothing of the first range has been sent. -/
theorem ahead_fresh {w : MultiRangeWrapper} (hsep : w.separator ≠ 1) (hpos : w.currentPos = 0) :
    w.ahead content sep = w.ranges.flatMap fun range =>
      (if w.isSingleRange then [] else sep range) ++ rangeBytes content range := by
  unfold ahead
  cases w.ranges with
  | nil => rfl
  | cons range ranges =>
    dsimp only
    rw [hpos, List.flatMap_cons, List.append_assoc]
    simp only [hsep, false_or]
    rfl

theorem ahead_within (w : MultiRangeWrapper) (hsep : w.separator = 1) {range : ByteRange}
    {ranges : List ByteRange} (hranges : w.ranges = range :: ranges) {k : Nat}
    (hpos : w.currentPos = k) :
    w.ahead content sep = (rangeBytes content range).drop k ++ ranges.flatMap fun range =>
      (if w.isSingleRange then [] else sep range) ++ rangeBytes content range := by
  unfold ahead
  rw [hranges, hpos]
  dsimp only
  rw [if_pos (Or.inl hsep), Int.toNat_natCast]
  rfl

theorem rangeBytes_length {range : ByteRange} (h : range.1 ≤ range.2 ∧ range.2 < content.length) :
    (rangeBytes content range).length = range.2 + 1 - range.1 := by
  rw [rangeBytes, List.length_take, List.length_drop]
  omega

/-- Reading within a range. -/
theorem read_eq {file : File} {range : ByteRange} {k n : Nat} (hsame : file.content = content)
    (hvalid : range.1 ≤ range.2 ∧ range.2 < content.length) (hpos : file.pos = range.1 + k)
    (hn : k + n ≤ range.2 + 1 - range.1) :
    file.read n =
      (((rangeBytes content range).drop k).take n, { file with pos := range.1 + (k + n) }) := by
  have htext : (content.drop (range.1 + k)).take n = ((rangeBytes content range).drop k).take n := by
    rw [rangeBytes, List.drop_take, List.drop_drop, List.take_take]
    congr 1
    omega
  have hlen : (((rangeBytes content range).drop k).take n).length = n := by
    rw [List.length_take, List.length_drop, rangeBytes_length hvalid]
    omega
  unfold File.read
  dsimp only
  rw [Int.toNat_natCast, hsame, hpos, htext, hlen, Nat.add_assoc]

theorem readRange_spec {r : Reading} (h : Ready content sep r.w) (hsep : r.w.separator = 1)
    {range : ByteRange} {ranges : List ByteRange} (hranges : r.w.ranges = range :: ranges)
    {r' : Reading}
    (hr' : r' = readRange (1 + range.2 - range.1 - r.w.currentPos) r) :
    Ready content sep r'.w ∧ Conserves content sep r r' ∧
      (r'.numBytes ≤ 0 ∨ r'.w.ranges = ranges) := by
  subst hr'
  have hvalid := h.valid range (by rw [hranges]; exact List.mem_cons_self)
  obtain ⟨range', ranges', k, hranges', hk, hpos, hlt⟩ := h.within hsep
  obtain ⟨rfl, rfl⟩ := List.cons.inj (hranges.symm.trans hranges')
  have hlen := rangeBytes_length hvalid
  unfold readRange
  split
  next hpositive =>
    split
    next hfits =>
      -- the rest of the range
      obtain ⟨n, hn, hnle⟩ : ∃ n : Nat, 1 + (range.2 : Int) - range.1 - r.w.currentPos = n ∧
          k + n = range.2 + 1 - range.1 := ⟨range.2 + 1 - range.1 - k, by omega, by omega⟩
      have hread := read_eq h.same hvalid hpos (Nat.le_of_eq hnle)
      have htake : ((rangeBytes content range).drop k).take n = (rangeBytes content range).drop k :=
        List.take_of_length_le (by rw [List.length_drop]; omega)
      have hzero : (0 : Int) ≠ 1 := by decide
      rw [hn, hread, htake]
      refine ⟨⟨h.same, ?_, ?_, fun _ => rfl, fun hone => absurd hone hzero,
        fun _ => (by decide : (0 : Int) ≠ 2)⟩, ⟨?_, ?_, rfl, rfl, ?_⟩, Or.inr ?_⟩
      · dsimp only
        rw [h.infos, List.map_tail]
      · exact fun x hx => h.valid x (List.mem_of_mem_tail hx)
      · rw [ahead_fresh hzero rfl, ahead_within _ hsep hranges hk,
          List.append_assoc]
        dsimp only
        rw [hranges, List.tail_cons]
      · dsimp only
        rw [List.length_append, List.length_drop]
        omega
      · rw [hsep]
        exact iff_of_false (by decide : ¬(0 : Int) = 2) (by decide)
      · dsimp only
        rw [hranges, List.tail_cons]
    next hmore =>
      -- as much of it as was asked for
      obtain ⟨n, hn⟩ : ∃ n : Nat, r.numBytes = n := ⟨r.numBytes.toNat, by omega⟩
      have hread := read_eq h.same hvalid hpos (n := n) (by omega)
      rw [hn, hread]
      have hwithin : r.w.currentPos + n = ((k + n : Nat) : Int) := by omega
      refine ⟨⟨h.same, h.infos, h.valid, fun hne => absurd hsep hne,
        fun _ => ⟨range, ranges, k + n, hranges, hwithin, rfl, by omega⟩, h.more⟩,
        ⟨?_, ?_, rfl, rfl, Iff.rfl⟩, Or.inl (Int.le_refl 0)⟩
      · have hnew := @ahead_within content sep
            { r.w with
              file := { r.w.file with pos := range.1 + (k + n) }
              currentPos := r.w.currentPos + n } hsep range ranges hranges (k + n) hwithin
        dsimp only at hnew ⊢
        rw [hnew, ahead_within _ hsep hranges hk, ← List.drop_drop, List.append_assoc,
          ← List.append_assoc (List.take n _), List.take_append_drop]
      · dsimp only
        rw [List.length_append, List.length_take, List.length_drop, hlen, hn]
        omega
  next hnone => exact ⟨h, .refl r, Or.inl (Int.not_lt.mp hnone)⟩

/-- The loop, over the ranges there are. -/
theorem readRanges_spec : ∀ (ranges : List ByteRange) (r : Reading), Ready content sep r.w →
    r.w.ranges = ranges → ∃ r', readRanges ranges r = some r' ∧ Ready content sep r'.w ∧
      Conserves content sep r r' ∧ (r'.numBytes ≤ 0 ∨ r'.w.ranges = [])
  | [], r, h, hranges => ⟨r, rfl, h, .refl r, Or.inr hranges⟩
  | range :: ranges, r, h, hranges => by
    have hinfo : r.w.rangeInfo = ⟨1 + range.2 - range.1,
        if r.w.isSingleRange then none else some (sep range)⟩ :: ranges.map fun range =>
          ⟨1 + range.2 - range.1, if r.w.isSingleRange then none else some (sep range)⟩ := by
      rw [h.infos, hranges, List.map_cons]
    obtain ⟨r₁, hstart, h₁, hconserves, hsep, hranges₁, hpos⟩ := startRange_spec h hranges
    obtain ⟨h₂, hconserves₂, hend⟩ := readRange_spec h₁ hsep (hranges₁.trans hranges) rfl
    rw [hpos] at h₂ hconserves₂ hend
    have hall := hconserves.trans hconserves₂
    rw [readRanges, hinfo]
    dsimp only
    rw [hstart]
    dsimp only [Option.bind_eq_bind, Option.bind_some]
    split
    next hdone => exact ⟨_, rfl, h₂, hall, Or.inl hdone⟩
    next hgo =>
      obtain ⟨r₃, hread, h₃, hconserves₃, hend₃⟩ :=
        readRanges_spec ranges _ h₂ (hend.resolve_left hgo)
      exact ⟨r₃, hread, h₃, hall.trans hconserves₃, hend₃⟩

/-! ## `read` -/

/-- A wrapper between two reads: when all ranges are sent, so is the end boundary, or what there
is of it to come is stored. -/
structure Waiting (content : Str) (sep : ByteRange → Str) (w : MultiRangeWrapper) : Prop
    extends Ready content sep w where
  ended : w.ranges = [] → w.atEnd = []

theorem close_spec {r : Reading} (h : Ready content sep r.w) :
    Waiting content sep (close r).w ∧ (close r).w.storedData = r.w.storedData ∧
      (close r).out ++ ((close r).w.ahead content sep ++ (close r).w.atEnd) =
        r.out ++ (r.w.ahead content sep ++ r.w.atEnd) ∧
      r.out.length ≤ (close r).out.length ∧
      (r.w.ranges = [] → (close r).w.ahead content sep ++ (close r).w.atEnd = []) := by
  unfold close
  split
  next hlast =>
    obtain ⟨hnil, hsingle, hsep⟩ := hlast
    have hahead : ∀ w : MultiRangeWrapper, w.ranges = [] → w.ahead content sep = [] := by
      intro w hw
      unfold ahead
      rw [hw]
    have hatEnd : r.w.atEnd = endBoundary := by
      rw [atEnd, hsingle]
      exact if_neg (by rintro (h | h); exacts [Bool.false_ne_true h, hsep h])
    have hclosed : atEnd { r.w with separator := 2 } = [] := if_pos (Or.inr rfl)
    refine ⟨⟨⟨h.same, h.infos, h.valid, ?_, ?_, fun hne => absurd hnil hne⟩, fun _ => hclosed⟩, rfl,
      ?_, ?_, ?_⟩
    · intro _
      refine h.fresh fun hone => ?_
      obtain ⟨range, ranges, k, hranges, -⟩ := h.within hone
      rw [hnil] at hranges
      cases hranges
    · exact fun htwo => absurd htwo (by decide : (2 : Int) ≠ 1)
    · rw [hahead _ hnil, hahead { r.w with separator := 2 } hnil, hclosed, hatEnd, List.append_nil,
        List.append_nil, List.nil_append]
    · rw [List.length_append]
      exact Nat.le_add_right _ _
    · intro _
      rw [hahead { r.w with separator := 2 } hnil, hclosed]
      rfl
  next hnot =>
    have hdone : r.w.ranges = [] → r.w.atEnd = [] := by
      intro hnil
      refine if_pos ?_
      by_contra hneither
      rw [not_or] at hneither
      exact hnot ⟨hnil, eq_false_of_ne_true hneither.1, hneither.2⟩
    refine ⟨⟨h, hdone⟩, rfl, rfl, Nat.le_refl _, fun hnil => ?_⟩
    rw [hdone hnil, List.append_nil]
    unfold ahead
    rw [hnil]

/-- **A read** gives the front of what is pending. -/
theorem read_spec {w : MultiRangeWrapper} (h : Waiting content sep w) (n : Nat) :
    ∃ w', w.read (some n) = some ((w.pending content sep).take n, w') ∧ Waiting content sep w' ∧
      w'.pending content sep = (w.pending content sep).drop n := by
  have hstart : Ready content sep { w with storedData := [] } :=
    ⟨h.same, h.infos, h.valid, h.fresh, h.within, h.more⟩
  obtain ⟨r, hread, hready, hconserves, hend⟩ := readRanges_spec w.ranges
    { w := { w with storedData := [] }, out := w.storedData
      numBytes := (n : Int) - w.storedData.length } hstart rfl
  obtain ⟨hwaiting, hstored, htext, hlong, hempty⟩ := close_spec hready
  have hcount := hconserves.count
  have hatEnd : r.w.atEnd = w.atEnd := by
    have hended : r.w.separator = 2 ↔ w.separator = 2 := hconserves.ended
    have hsingle : r.w.isSingleRange = w.isSingleRange := hconserves.single
    simp only [atEnd, hsingle, hended]
  have hpending : (close r).out ++ ((close r).w.ahead content sep ++ (close r).w.atEnd) =
      w.pending content sep := by
    rw [htext, ← List.append_assoc, hconserves.text, hatEnd, pending, List.append_assoc]
    rfl
  -- either enough is written, or everything
  have henough : n ≤ (close r).out.length ∨ (close r).out = w.pending content sep := by
    rcases hend with hneg | hnil
    · left
      dsimp only at hcount
      omega
    · right
      rw [← hpending, hempty hnil, List.append_nil]
  have hrun : w.read (some (n : Int)) =
      if ((close r).out.length : Int) > n then
        some ((close r).out.take n, { (close r).w with storedData := (close r).out.drop n })
      else some ((close r).out, (close r).w) := by
    unfold read
    dsimp only
    rw [Option.getD_some, hread]
    rfl
  rw [hrun, ← hpending]
  split
  next hover =>
    have htake : ((close r).out ++ ((close r).w.ahead content sep ++ (close r).w.atEnd)).take n =
        (close r).out.take n := List.take_append_of_le_length (by omega)
    refine ⟨{ (close r).w with storedData := (close r).out.drop n }, ?_, ⟨⟨hwaiting.same, hwaiting.infos, hwaiting.valid, hwaiting.fresh,
      hwaiting.within, hwaiting.more⟩, hwaiting.ended⟩, ?_⟩
    · rw [htake]
    · rw [List.drop_append_of_le_length (by omega)]
      rfl
  next hfits =>
    have hnone : (close r).w.storedData = [] := hstored.trans hconserves.stored
    have hrest : (close r).w.pending content sep =
        (close r).w.ahead content sep ++ (close r).w.atEnd := by
      rw [pending, hnone]
      rfl
    refine ⟨(close r).w, ?_, hwaiting, ?_⟩
    · rcases henough with hle | hall
      · rw [List.take_append_of_le_length hle, List.take_of_length_le (by omega)]
      · rw [hpending, ← hall, List.take_of_length_le (by omega)]
    · rw [hrest]
      rcases henough with hle | hall
      · have hexact : (close r).out.length = n := by omega
        rw [← hexact, List.drop_left]
      · have hnil := List.append_right_eq_self.mp (hpending.trans hall.symm)
        rw [hnil, List.append_nil, List.drop_of_length_le (by omega)]

/-- So it does not matter in which pieces the wrapper is read. -/
theorem read_delivers (content : Str) (sep : ByteRange → Str) :
    Delivers (fun w n => MultiRangeWrapper.read w (some (n : Int))) (Waiting content sep)
      (pending content sep) :=
  fun _ n h _ => read_spec h n

/-! ## From `create` on -/

/-- What `create` counts, and the entries it makes. -/
theorem foldl_ranges (sep : ByteRange → Str) : ∀ (ranges : List ByteRange) (clen : Int)
    (infos : List RangeInfo), (∀ range ∈ ranges, range.1 ≤ range.2 ∧ range.2 < content.length) →
    ranges.foldl (fun (p : Int × List RangeInfo) range =>
        let rlen : Int := 1 + range.2 - range.1
        let sep := sep range
        (p.1 + (rlen + sep.length), p.2 ++ [⟨rlen, some sep⟩])) (clen, infos) =
      (clen + (ranges.flatMap fun range => sep range ++ rangeBytes content range).length,
        infos ++ ranges.map fun range => ⟨1 + range.2 - range.1, some (sep range)⟩)
  | [], clen, infos, _ => by
    rw [List.map_nil, List.append_nil]
    exact Prod.ext (Int.add_zero _).symm rfl
  | range :: ranges, clen, infos, hvalid => by
    have hrange := hvalid range List.mem_cons_self
    have hrest := foldl_ranges sep ranges (clen + (1 + range.2 - range.1 + (sep range).length))
      (infos ++ [⟨1 + range.2 - range.1, some (sep range)⟩])
      fun x hx => hvalid x (List.mem_cons_of_mem _ hx)
    rw [List.foldl_cons]
    refine hrest.trans ?_
    rw [List.flatMap_cons, List.length_append, List.length_append, rangeBytes_length hrange,
      List.map_cons, List.append_assoc]
    refine Prod.ext ?_ rfl
    dsimp only
    omega

section Create

variable (printO : Option Str → Str) (heads : Mapping Str Str) (requestRange : Option Str) (pos : Nat)
  {len : Nat} {ranges : List ByteRange}

theorem create_single {range : ByteRange}
    (hvalid : range.1 ≤ range.2 ∧ range.2 < content.length) :
    let created := create printO ⟨content, pos⟩ len heads [range] requestRange
    created.len = (rangeBytes content range).length ∧
      Waiting content (separatorOf printO (typeOf heads) len) created.wrapper ∧
      created.wrapper.pending content (separatorOf printO (typeOf heads) len) =
        rangeBytes content range := by
  refine ⟨?_, ⟨⟨rfl, rfl, ?_, fun _ => rfl, fun h => absurd h (by decide : (0 : Int) ≠ 1),
    fun _ => (by decide : (0 : Int) ≠ 2)⟩, nofun⟩, ?_⟩
  · rw [rangeBytes_length hvalid]
    show (1 : Int) + range.2 - range.1 = _
    omega
  · intro x hx
    rw [List.mem_singleton.mp hx]
    exact hvalid
  · rw [pending, ahead_fresh (by decide : (0 : Int) ≠ 1) rfl]
    show [] ++ (([] ++ rangeBytes content range) ++ [] ++ []) = _
    rw [List.nil_append, List.nil_append, List.append_nil, List.append_nil]

theorem create_several {range range' : ByteRange}
    (hvalid : ∀ x ∈ range :: range' :: ranges, x.1 ≤ x.2 ∧ x.2 < content.length) :
    let created := create printO ⟨content, pos⟩ len heads (range :: range' :: ranges) requestRange
    let body := ((range :: range' :: ranges).flatMap fun x =>
      separatorOf printO (typeOf heads) len x ++ rangeBytes content x) ++ endBoundary
    created.len = body.length ∧
      Waiting content (separatorOf printO (typeOf heads) len) created.wrapper ∧
      created.wrapper.pending content (separatorOf printO (typeOf heads) len) = body := by
  have hfold := foldl_ranges (separatorOf printO (typeOf heads) len)
    (range :: range' :: ranges) 0 [] hvalid
  refine ⟨?_, ⟨⟨rfl, ?_, hvalid, fun _ => rfl, fun h => absurd h (by decide : (0 : Int) ≠ 1),
    fun _ => (by decide : (0 : Int) ≠ 2)⟩, nofun⟩, ?_⟩
  · refine (congrArg (fun p => p.1 + ((bound.length : Int) + 8)) hfold).trans ?_
    dsimp only
    rw [List.length_append, Int.zero_add]
    rfl
  · exact congrArg Prod.snd hfold
  · rw [pending, ahead_fresh (by decide : (0 : Int) ≠ 1) rfl]
    rfl

theorem create_spec (hne : ranges ≠ [])
    (hvalid : ∀ range ∈ ranges, range.1 ≤ range.2 ∧ range.2 < content.length) :
    let created := create printO ⟨content, pos⟩ len heads ranges requestRange
    let body := rangeBody printO content len heads ranges
    created.len = body.length ∧
      Waiting content (separatorOf printO (typeOf heads) len) created.wrapper ∧
      created.wrapper.pending content (separatorOf printO (typeOf heads) len) = body := by
  match ranges, hne with
  | [range], _ =>
    exact create_single printO heads requestRange pos (hvalid range List.mem_cons_self)
  | range :: range' :: ranges, _ => exact create_several printO heads requestRange pos hvalid

end Create

end MultiRangeWrapper

end Caudium.Http
