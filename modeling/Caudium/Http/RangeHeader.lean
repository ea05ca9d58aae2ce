import Caudium.Http.ParseGot

/-!
# `parse_range_header` (`http.pike`)

Each piece of the header gives one range. The one for the end of a file is put together from
`len` and the number behind the '-', although `r1` has just been kept from falling below zero; the
number in front of a '-' is only compared with `len` from above. So the ranges lie within the file
exactly when the number of every end of a file is at least 1 and at most `len`, and no other piece
begins with a negative number (`ranges_within_iff`).
-/

namespace Caudium.Http

open Lib (Str)

/-! ## Numbers -/

/-- "%d" of `sscanf`: the number, and what is left. -/
def scanInt (s : Str) : Option (Int × Str) :=
  match s.dropWhile isBlank with
  | '-' :: s => if s.takeWhile Char.isDigit = [] then none
    else some (-(number s : Int), s.dropWhile Char.isDigit)
  | '+' :: s => if s.takeWhile Char.isDigit = [] then none
    else some (number s, s.dropWhile Char.isDigit)
  | s => if s.takeWhile Char.isDigit = [] then none
    else some (number s, s.dropWhile Char.isDigit)

/-- `sscanf(s, "%d-%d", r1, r2) == 2`, with the two numbers. -/
def scanRange (s : Str) : Option (Int × Int) :=
  match scanInt s with
  | some (r1, '-' :: s) => (scanInt s).map fun r => (r1, r.1)
  | _ => none

theorem castInt_minus {s t : Str} (h : s.dropWhile isBlank = '-' :: t) :
    castInt s = -(number t : Int) := by
  rw [castInt, h]
  rfl

theorem castInt_plus {s t : Str} (h : s.dropWhile isBlank = '+' :: t) : castInt s = number t := by
  rw [castInt, h]
  rfl

theorem castInt_unsigned {s : Str} (hminus : ∀ t, s.dropWhile isBlank ≠ '-' :: t)
    (hplus : ∀ t, s.dropWhile isBlank ≠ '+' :: t) : castInt s = number (s.dropWhile isBlank) := by
  unfold castInt
  split
  next t heq => exact absurd heq (hminus t)
  next t heq => exact absurd heq (hplus t)
  next => rfl

/-- Where `sscanf` finds a number, the cast finds the same. -/
theorem castInt_of_scanInt {s rest : Str} {n : Int} (h : scanInt s = some (n, rest)) :
    castInt s = n := by
  unfold scanInt at h
  split at h
  next t heq =>
    rw [castInt_minus heq]
    split at h
    · cases h
    · exact (Prod.mk.inj (Option.some.inj h)).1
  next t heq =>
    rw [castInt_plus heq]
    split at h
    · cases h
    · exact (Prod.mk.inj (Option.some.inj h)).1
  next hminus hplus =>
    rw [castInt_unsigned hminus hplus]
    split at h
    · cases h
    · exact (Prod.mk.inj (Option.some.inj h)).1

theorem castInt_of_scanRange {s : Str} {r1 r2 : Int} (h : scanRange s = some (r1, r2)) :
    castInt s = r1 := by
  unfold scanRange at h
  split at h
  next n rest hint =>
    obtain ⟨r, -, hr⟩ := Option.map_eq_some_iff.mp h
    rw [castInt_of_scanInt hint, (Prod.mk.inj hr).1]
  next => cases h

/-! ## The header -/

/-- What a piece of the header does. -/
inductive RangeSpec where
  | range (a b : Int)
  /-- `continue` -/
  | skipped
  /-- `return 0` -/
  | invalid
  /-- there is no `range[0]` -/
  | noIndex
  deriving DecidableEq, Repr

/-- The body of the loop. -/
def parseRangeSpec (len : Int) (range : Str) : RangeSpec :=
  match range with
  | [] => .noIndex
  | c :: rest =>
    if c = '-' then .range (len - castInt rest) (len - 1)
    else if range.getLast? = some '-' then
      let r1 := castInt range
      if len ≤ r1 then .skipped else .range r1 (len - 1)
    else
      match scanRange range with
      | some (r1, r2) =>
        if r1 ≤ r2 then
          if len ≤ r1 then .skipped else .range r1 (if r2 < len then r2 else len - 1)
        else .invalid
      | none => .invalid

/-- What `parse_range_header` answers. -/
inductive RangeAnswer where
  | ranges (rs : List (Int × Int))
  | zero
  /-- an error is thrown -/
  | error
  deriving DecidableEq, Repr

/-- The loop. -/
def parseRangeSpecs (len : Int) (ranges : List (Int × Int)) : List Str → RangeAnswer
  | [] => .ranges ranges
  | range :: others =>
    match parseRangeSpec len range with
    | .range a b => parseRangeSpecs len (ranges ++ [(a, b)]) others
    | .skipped => parseRangeSpecs len ranges others
    | .invalid => .zero
    | .noIndex => .error

/-- `parse_range_header`; `range` is `misc->range`. -/
def parseRangeHeader (range : Str) (len : Int) : RangeAnswer :=
  parseRangeSpecs len [] (splitOn ',' range)

/-! ## Where the ranges lie -/

/-- The range is a part of a file of `len` bytes. -/
structure WithinFile (len : Int) (r : Int × Int) : Prop where
  start : 0 ≤ r.1
  order : r.1 ≤ r.2
  stop : r.2 ≤ len - 1

/-- A number from 1 to `len` behind a '-', or else none below 0 at the beginning. -/
def SpecWithin (len : Int) : Str → Prop
  | '-' :: rest => 1 ≤ castInt rest ∧ castInt rest ≤ len
  | range => 0 ≤ castInt range

theorem specWithin_of_ne {len : Int} {c : Char} {rest : Str} (h : c ≠ '-') :
    SpecWithin len (c :: rest) ↔ 0 ≤ castInt (c :: rest) := by
  unfold SpecWithin
  split
  next heq => exact absurd (List.cons.inj heq).1 h
  next => exact Iff.rfl

/-- What a piece does: for the end of a file the range begins `castInt` bytes in front of it; any
other range begins with the number that the piece begins with, which is below `len`. -/
theorem parseRangeSpec_cases (len : Int) (c : Char) (rest : Str) :
    (c = '-' ∧ parseRangeSpec len (c :: rest) = .range (len - castInt rest) (len - 1)) ∨
    (c ≠ '-' ∧ len ≤ castInt (c :: rest) ∧ parseRangeSpec len (c :: rest) = .skipped) ∨
    (c ≠ '-' ∧ ∃ b, castInt (c :: rest) ≤ b ∧ b ≤ len - 1 ∧
      parseRangeSpec len (c :: rest) = .range (castInt (c :: rest)) b) ∨
    parseRangeSpec len (c :: rest) = .invalid := by
  rw [parseRangeSpec]
  by_cases hc : c = '-'
  · exact Or.inl ⟨hc, if_pos hc⟩
  rw [if_neg hc]
  by_cases hlast : (c :: rest).getLast? = some '-'
  · rw [if_pos hlast]
    dsimp only
    by_cases hge : len ≤ castInt (c :: rest)
    · exact Or.inr (Or.inl ⟨hc, hge, if_pos hge⟩)
    · exact Or.inr (Or.inr (Or.inl ⟨hc, len - 1, by omega, Int.le_refl _, if_neg hge⟩))
  rw [if_neg hlast]
  cases hscan : scanRange (c :: rest) with
  | none => exact Or.inr (Or.inr (Or.inr rfl))
  | some r =>
    obtain ⟨r1, r2⟩ := r
    -- Both numbers are there; the second is cut at the end of the file.
    rw [castInt_of_scanRange hscan]
    dsimp only
    by_cases hle : r1 ≤ r2
    · rw [if_pos hle]
      by_cases hge : len ≤ r1
      · exact Or.inr (Or.inl ⟨hc, hge, if_pos hge⟩)
      · rw [if_neg hge]
        refine Or.inr (Or.inr (Or.inl ⟨hc, if r2 < len then r2 else len - 1, ?_, ?_, rfl⟩))
        · split
          · exact hle
          · omega
        · split
          · omega
          · exact Int.le_refl _
    · rw [if_neg hle]
      exact Or.inr (Or.inr (Or.inr rfl))

/-- **One piece**: the range it gives is in the file if and only if the piece is as it should be. -/
theorem within_range_iff {len a b : Int} {range : Str}
    (h : parseRangeSpec len range = .range a b) :
    WithinFile len (a, b) ↔ SpecWithin len range := by
  cases range with
  | nil => cases h
  | cons c rest =>
    rcases parseRangeSpec_cases len c rest with
      ⟨rfl, heq⟩ | ⟨hc, -, heq⟩ | ⟨hc, b', hle, hlast, heq⟩ | heq
    · obtain ⟨rfl, rfl⟩ := RangeSpec.range.inj (heq.symm.trans h)
      unfold SpecWithin
      constructor
      · intro ⟨hstart, horder, _⟩
        dsimp only at hstart horder
        exact ⟨by omega, by omega⟩
      · intro ⟨hone, hlen⟩
        exact ⟨by dsimp only; omega, by dsimp only; omega, Int.le_refl _⟩
    · cases heq.symm.trans h
    · obtain ⟨rfl, rfl⟩ := RangeSpec.range.inj (heq.symm.trans h)
      rw [specWithin_of_ne hc]
      exact ⟨fun hw => hw.start, fun hstart => ⟨hstart, hle, hlast⟩⟩
    · cases heq.symm.trans h

/-- A piece that is passed over begins behind the end of the file. -/
theorem specWithin_of_skipped {len : Int} {range : Str} (hlen : 0 < len)
    (h : parseRangeSpec len range = .skipped) : SpecWithin len range := by
  cases range with
  | nil => cases h
  | cons c rest =>
    rcases parseRangeSpec_cases len c rest with
      ⟨rfl, heq⟩ | ⟨hc, hge, heq⟩ | ⟨hc, b', hle, hlast, heq⟩ | heq
    · cases heq.symm.trans h
    · exact (specWithin_of_ne hc).mpr (Int.le_trans (Int.le_of_lt hlen) hge)
    · cases heq.symm.trans h
    · cases heq.symm.trans h

theorem within_specs_iff {len : Int} (hlen : 0 < len) {specs : List Str} :
    ∀ {before rs : List (Int × Int)}, parseRangeSpecs len before specs = .ranges rs →
      ((∀ r ∈ rs, WithinFile len r) ↔
        (∀ r ∈ before, WithinFile len r) ∧ ∀ spec ∈ specs, SpecWithin len spec) := by
  induction specs with
  | nil =>
    intro before rs h
    obtain rfl := RangeAnswer.ranges.inj h
    exact (and_iff_left (by nofun)).symm
  | cons spec specs ih =>
    intro before rs h
    rw [List.forall_mem_cons]
    unfold parseRangeSpecs at h
    cases hspec : parseRangeSpec len spec with
    | range a b =>
      rw [hspec] at h
      rw [ih h, List.forall_mem_append, List.forall_mem_singleton, within_range_iff hspec,
        and_assoc]
    | skipped =>
      rw [hspec] at h
      rw [ih h, and_iff_right (specWithin_of_skipped hlen hspec)]
    | invalid =>
      rw [hspec] at h
      cases h
    | noIndex =>
      rw [hspec] at h
      cases h

/-- **The ranges lie within the file** if and only if the pieces of the header say so. -/
theorem ranges_within_iff {range : Str} {len : Int} {rs : List (Int × Int)} (hlen : 0 < len)
    (h : parseRangeHeader range len = .ranges rs) :
    (∀ r ∈ rs, WithinFile len r) ↔ ∀ spec ∈ splitOn ',' range, SpecWithin len spec := by
  rw [within_specs_iff hlen h]
  exact and_iff_right nofun

/-- "-5,2-" for a file of 3 bytes. -/
theorem ranges_within_iff_sample :
    (∀ r ∈ [((-2 : Int), (2 : Int)), (2, 2)], WithinFile 3 r) ↔
      ∀ spec ∈ splitOn ',' ['-', '5', ',', '2', '-'], SpecWithin 3 spec :=
  ranges_within_iff (by decide) (by decide)

/-- "-5" for a file of 3 bytes: the range begins 2 bytes in front of it. -/
theorem suffix_before_start :
    ¬ ∀ (range : Str) (len : Int) (rs : List (Int × Int)), 0 < len →
      parseRangeHeader range len = .ranges rs → ∀ r ∈ rs, WithinFile len r := by
  intro h
  have hwithin := h ['-', '5'] 3 [(-2, 2)] (by decide) (by decide) (-2, 2) List.mem_cons_self
  exact absurd hwithin.start (by decide)

end Caudium.Http
