import Mathlib.Data.List.Pairwise
import Caudium.Http.HeaderLoop

/-!
# The lines of a header text (`caudium.c`)

A line ends where a value of the header loop does: at a CR or a LF, and a LF behind that byte
belongs to the end. The name of a line with a ':' is what stands in front of its first ':', in
small letters. The loop keeps to the lines as long as each line with a ':' has only such lines in
front of it: it then finds one entry in each of them and no other (`found_eq`). Otherwise `os` has
not been set at the beginning of a line, and the key has the end of the line before in it
(`found_broken`).
-/

namespace Caudium.Http

open Lib (Bytes)

/-- The lines from a text on, when `seen` is the beginning of the first one and `n` bytes belong to
the end of the one before. -/
def linesFrom (seen : Bytes) : Nat → Bytes → List Bytes
  | _, [] => [seen]
  | n + 1, _ :: rest => linesFrom [] n rest
  | 0, c :: rest =>
    if inLine c then linesFrom (seen ++ [c]) 0 rest
    else seen :: linesFrom [] (if byteAt rest 0 = lf then 1 else 0) rest

/-- The lines of a header text. -/
def headerLines (text : Bytes) : List Bytes := linesFrom [] 0 text

/-- The name in a line. -/
def nameOf (line : Bytes) : Bytes := lowerBytes (line.takeWhile (· ≠ colon))

/-- The name, and the value behind the blanks. -/
def entryOf (line : Bytes) : Bytes × Bytes :=
  (nameOf line, (line.dropWhile (· ≠ colon)).tail.dropWhile (· == space))

/-- The lines with a ':'. -/
def colonLines (text : Bytes) : List Bytes := (headerLines text).filter (colon ∈ ·)

/-- No line without a ':' stands in front of a line with one. -/
def ColonsFirst (text : Bytes) : Prop :=
  (headerLines text).Pairwise fun line later => colon ∈ later → colon ∈ line

instance (text : Bytes) : Decidable (ColonsFirst text) :=
  inferInstanceAs (Decidable (List.Pairwise _ _))

/-- What a break leaves of the text that begins with it. -/
def afterBreak : Bytes → Bytes
  | [] => []
  | _ :: rest => if byteAt rest 0 = lf then rest.drop 1 else rest

/-- The lines behind a line. -/
def linesBehind (text : Bytes) : List Bytes :=
  if text = [] then [] else headerLines (afterBreak text)

/-- A text that is empty or begins with a break. -/
def StartsBroken (text : Bytes) : Prop := ∀ b rest, text = b :: rest → inLine b = false

/-! ## Line by line -/

theorem linesFrom_skip (n : Nat) (rest : Bytes) : linesFrom [] n rest = headerLines (rest.drop n) := by
  induction n generalizing rest with
  | zero => rfl
  | succ n ih =>
    cases rest with
    | nil => rfl
    | cons c rest => exact ih rest

theorem linesFrom_append {line : Bytes} (hline : ∀ b ∈ line, inLine b = true) (seen text : Bytes) :
    linesFrom seen 0 (line ++ text) = linesFrom (seen ++ line) 0 text := by
  induction line generalizing seen with
  | nil => rw [List.nil_append, List.append_nil]
  | cons c line ih =>
    rw [List.cons_append, linesFrom, if_pos (hline c List.mem_cons_self),
      ih fun b hb => hline b (List.mem_cons_of_mem c hb), List.append_assoc]
    rfl

theorem linesFrom_broken {text : Bytes} (htext : StartsBroken text) (seen : Bytes) :
    linesFrom seen 0 text = seen :: linesBehind text := by
  unfold linesBehind
  cases text with
  | nil => rfl
  | cons c rest =>
    rw [linesFrom, htext c rest rfl, if_neg Bool.false_ne_true, if_neg (List.cons_ne_nil c rest),
      linesFrom_skip, afterBreak]
    congr 2
    split
    · rfl
    · rfl

/-- The first line, and those behind it. -/
theorem headerLines_eq {line text : Bytes} (hline : ∀ b ∈ line, inLine b = true)
    (htext : StartsBroken text) : headerLines (line ++ text) = line :: linesBehind text := by
  rw [headerLines, linesFrom_append hline, linesFrom_broken htext, List.nil_append]

/-- Every text is a line and what begins with its break. -/
theorem exists_line (text : Bytes) : ∃ line rest, text = line ++ rest ∧
    (∀ b ∈ line, inLine b = true) ∧ StartsBroken rest := by
  refine ⟨text.takeWhile inLine, text.dropWhile inLine, List.takeWhile_append_dropWhile.symm,
    fun b hb => List.mem_takeWhile_imp hb, ?_⟩
  intro b rest hrest
  have hhead := List.head?_dropWhile_not inLine text
  rw [hrest] at hhead
  exact hhead

theorem length_afterBreak_lt {text : Bytes} (h : text ≠ []) :
    (afterBreak text).length < text.length := by
  cases text with
  | nil => exact absurd rfl h
  | cons c rest =>
    rw [afterBreak]
    split
    · rw [List.length_drop, List.length_cons]
      omega
    · exact Nat.lt_succ_self _

/-- Induction line by line. -/
theorem line_induction {P : Bytes → Prop}
    (h : ∀ line rest, (∀ b ∈ line, inLine b = true) → StartsBroken rest →
      (rest ≠ [] → P (afterBreak rest)) → P (line ++ rest)) (text : Bytes) : P text := by
  obtain ⟨n, hn⟩ : ∃ n, text.length = n := ⟨_, rfl⟩
  induction n using Nat.strongRecOn generalizing text with
  | ind n ih =>
    obtain ⟨line, rest, rfl, hline, hrest⟩ := exists_line text
    refine h line rest hline hrest fun hne => ?_
    have hlt := length_afterBreak_lt hne
    rw [List.length_append] at hn
    exact ih _ (by omega) _ rfl

/-- A line has no break in it. -/
theorem inLine_of_mem_headerLines (text : Bytes) :
    ∀ line ∈ headerLines text, ∀ b ∈ line, inLine b = true := by
  induction text using line_induction with
  | h line rest hline hrest ih =>
    rw [headerLines_eq hline hrest, linesBehind]
    intro line' hmem
    rcases List.mem_cons.mp hmem with rfl | hmem
    · exact hline
    · split at hmem
      next => cases hmem
      next hne => exact ih hne line' hmem

theorem colon_mem_afterBreak {text : Bytes} (htext : StartsBroken text) :
    colon ∈ afterBreak text ↔ colon ∈ text := by
  cases text with
  | nil => rfl
  | cons b rest =>
    have hb : colon ≠ b := by
      intro he
      have hbreak := htext b rest rfl
      rw [← he] at hbreak
      exact absurd hbreak (by decide)
    have hcons : colon ∈ b :: rest ↔ colon ∈ rest := by
      rw [List.mem_cons, or_iff_right hb]
    rw [afterBreak, hcons]
    split
    next hlf =>
      cases rest with
      | nil => rfl
      | cons c rest =>
        have hc : c = lf := hlf
        rw [hc, List.mem_cons, or_iff_right (by decide)]
        rfl
    next => rfl

theorem exists_colon_behind {rest : Bytes} (hrest : StartsBroken rest)
    (h : rest ≠ [] → ((∃ line ∈ headerLines (afterBreak rest), colon ∈ line) ↔
      colon ∈ afterBreak rest)) :
    (∃ line ∈ linesBehind rest, colon ∈ line) ↔ colon ∈ rest := by
  unfold linesBehind
  split
  next hnil =>
    rw [hnil]
    constructor
    · intro ⟨_, hmem, _⟩
      cases hmem
    · intro hmem
      cases hmem
  next hne => rw [h hne, colon_mem_afterBreak hrest]

theorem exists_colonLine (text : Bytes) :
    (∃ line ∈ headerLines text, colon ∈ line) ↔ colon ∈ text := by
  induction text using line_induction with
  | h line rest hline hrest ih =>
    rw [headerLines_eq hline hrest, List.mem_append, ← exists_colon_behind hrest ih]
    constructor
    · intro ⟨line', hmem, hcolon⟩
      rcases List.mem_cons.mp hmem with rfl | hmem
      · exact Or.inl hcolon
      · exact Or.inr ⟨line', hmem, hcolon⟩
    · intro h
      rcases h with hcolon | ⟨line', hmem, hcolon⟩
      · exact ⟨line, List.mem_cons_self, hcolon⟩
      · exact ⟨line', List.mem_cons_of_mem line hmem, hcolon⟩

/-! ## What is found in a line -/

theorem foundFrom_append {u : Bytes} (hu : colon ∉ u) (seen text : Bytes) :
    foundFrom seen 0 (u ++ text) = foundFrom (seen ++ u) 0 text := by
  induction u generalizing seen with
  | nil => rw [List.nil_append, List.append_nil]
  | cons c u ih =>
    rw [List.mem_cons, not_or] at hu
    rw [List.cons_append, foundFrom, if_neg (Ne.symm hu.1), ih hu.2, List.append_assoc]
    rfl

theorem foundFrom_of_no_colon {text : Bytes} (h : colon ∉ text) (seen : Bytes) :
    foundFrom seen 0 text = [] := by
  have happend := foundFrom_append h seen []
  rw [List.append_nil] at happend
  rw [happend, foundFrom]

theorem takeWhile_of_broken {v text : Bytes} (hv : ∀ b ∈ v, inLine b = true)
    (htext : StartsBroken text) : (v ++ text).takeWhile inLine = v := by
  rw [List.takeWhile_append_of_pos hv]
  cases text with
  | nil => rw [List.takeWhile_nil, List.append_nil]
  | cons b rest => rw [List.takeWhile_cons_of_neg (by rw [htext b rest rfl]; decide), List.append_nil]

theorem blanks_append {v text : Bytes} (htext : StartsBroken text) :
    blanks (v ++ text) = blanks v := by
  unfold blanks
  induction v with
  | nil =>
    cases text with
    | nil => rfl
    | cons b rest =>
      have hb : (b == space) = false := by
        refine beq_eq_false_iff_ne.mpr fun he => ?_
        have hbreak := htext b rest rfl
        rw [he] at hbreak
        exact absurd hbreak (by decide)
      rw [List.nil_append, List.takeWhile_cons_of_neg (by rw [hb]; decide)]
      rfl
  | cons c v ih =>
    rw [List.cons_append]
    by_cases hc : (c == space) = true
    · rw [@List.takeWhile_cons_of_pos _ (· == space) c _ hc,
        @List.takeWhile_cons_of_pos _ (· == space) c _ hc, List.length_cons, ih]
      rfl
    · rw [@List.takeWhile_cons_of_neg _ (· == space) c _ hc,
        @List.takeWhile_cons_of_neg _ (· == space) c _ hc]

/-- The value of a line, and what it takes of the text. -/
theorem valueOf_line {v text : Bytes} (hv : ∀ b ∈ v, inLine b = true) (htext : StartsBroken text) :
    valueOf (v ++ text) = v.dropWhile (· == space) ∧
      (v ++ text).drop (afterValue (v ++ text)) = afterBreak text := by
  have hblanks : blanks v ≤ v.length := (List.takeWhile_sublist _).length_le
  have hvalue : valueOf (v ++ text) = v.drop (blanks v) := by
    rw [valueOf, blanks_append htext, List.drop_append_of_le_length hblanks,
      takeWhile_of_broken (fun b hb => hv b (List.mem_of_mem_drop hb)) htext]
  refine ⟨hvalue.trans (drop_takeWhile _ v), ?_⟩
  have hlen : blanks (v ++ text) + (valueOf (v ++ text)).length = v.length := by
    rw [hvalue, blanks_append htext, List.length_drop]
    omega
  unfold afterValue
  dsimp only
  rw [hlen]
  cases text with
  | nil =>
    have hlong : ∀ n, (v ++ []).drop (v.length + n) = ([] : Bytes) := by
      intro n
      rw [List.append_nil]
      exact List.drop_eq_nil_of_le (Nat.le_add_right _ _)
    split
    · exact hlong 2
    · exact hlong 1
  | cons b rest =>
    have hnext : byteAt (v ++ b :: rest) (v.length + 1) = byteAt rest 0 :=
      byteAt_append v (b :: rest) 1
    rw [hnext, afterBreak]
    split
    · rw [List.drop_append, Nat.add_sub_cancel_left, List.drop_eq_nil_of_le (Nat.le_add_right _ _)]
      rfl
    · rw [List.drop_append, Nat.add_sub_cancel_left, List.drop_eq_nil_of_le (Nat.le_add_right _ _)]
      rfl

theorem takeWhile_name {u : Bytes} (hu : colon ∉ u) (v : Bytes) :
    (u ++ colon :: v).takeWhile (· ≠ colon) = u ∧
      (u ++ colon :: v).dropWhile (· ≠ colon) = colon :: v := by
  have hall : ∀ b ∈ u, decide (b ≠ colon) = true := fun b hb =>
    decide_eq_true fun he => hu (he ▸ hb)
  have hstop : ¬ decide (colon ≠ colon) = true := by decide
  constructor
  · rw [List.takeWhile_append_of_pos hall, @List.takeWhile_cons_of_neg _ (· ≠ colon) colon v hstop,
      List.append_nil]
  · rw [List.dropWhile_append_of_pos hall, @List.dropWhile_cons_of_neg _ (· ≠ colon) colon v hstop]

/-- A line with a ':' gives its entry, and the next name begins behind its break. -/
theorem found_colonLine {line text : Bytes} (hcolon : colon ∈ line)
    (hline : ∀ b ∈ line, inLine b = true) (htext : StartsBroken text) :
    found (line ++ text) = entryOf line :: found (afterBreak text) := by
  obtain ⟨u, v, rfl, hu⟩ := List.eq_append_cons_of_mem hcolon
  have hv : ∀ b ∈ v, inLine b = true := fun b hb =>
    hline b (List.mem_append_right u (List.mem_cons_of_mem colon hb))
  obtain ⟨hvalue, hafter⟩ := valueOf_line hv htext
  obtain ⟨htake, hdrop⟩ := takeWhile_name hu v
  rw [found, List.append_assoc, foundFrom_append hu, List.cons_append, foundFrom, if_pos rfl,
    List.nil_append, foundFrom_skip, hvalue, hafter, entryOf, nameOf, htake, hdrop]
  rfl

/-! ## What is found in a text -/

/-- Behind a line without a ':' there is none with one. -/
theorem no_colon_of_first {line rest : Bytes} (hline : ∀ b ∈ line, inLine b = true)
    (hrest : StartsBroken rest) (hcolon : colon ∉ line) :
    ColonsFirst (line ++ rest) ↔ colon ∉ rest := by
  rw [ColonsFirst, headerLines_eq hline hrest, List.pairwise_cons,
    ← exists_colon_behind hrest fun _ => exists_colonLine _]
  constructor
  · intro ⟨hfirst, _⟩ ⟨later, hmem, hlater⟩
    exact hcolon (hfirst later hmem hlater)
  · intro hnone
    refine ⟨fun later hmem hlater => absurd ⟨later, hmem, hlater⟩ hnone, ?_⟩
    refine List.pairwise_of_forall_mem_list fun _ _ later hmem hlater => ?_
    exact absurd ⟨later, hmem, hlater⟩ hnone

theorem colonsFirst_cons {line rest : Bytes} (hline : ∀ b ∈ line, inLine b = true)
    (hrest : StartsBroken rest) (hcolon : colon ∈ line) :
    ColonsFirst (line ++ rest) ↔ (rest ≠ [] → ColonsFirst (afterBreak rest)) := by
  rw [ColonsFirst, headerLines_eq hline hrest, List.pairwise_cons, linesBehind]
  refine (and_iff_right fun _ _ _ => hcolon).trans ?_
  split
  next hnil => exact iff_of_true .nil fun hne => absurd hnil hne
  next hne => exact ⟨fun h _ => h, fun h => h hne⟩

/-- **One entry for each line with a ':'**, in order. -/
theorem found_eq (text : Bytes) (h : ColonsFirst text) :
    found text = (colonLines text).map entryOf := by
  induction text using line_induction with
  | h line rest hline hrest ih =>
    rw [colonLines, headerLines_eq hline hrest]
    by_cases hcolon : colon ∈ line
    · rw [@List.filter_cons_of_pos _ (colon ∈ ·) line _ (decide_eq_true hcolon), List.map_cons,
        found_colonLine hcolon hline hrest, linesBehind]
      refine congrArg (entryOf line :: ·) ?_
      split
      next hnil =>
        rw [hnil]
        rfl
      next hne => exact ih hne ((colonsFirst_cons hline hrest hcolon).mp h hne)
    -- No later line has a ':' either, so there is no entry any more.
    · have hnone : colon ∉ line ++ rest := by
        rw [List.mem_append, not_or]
        exact ⟨hcolon, (no_colon_of_first hline hrest hcolon).mp h⟩
      have hlines : (line :: linesBehind rest).filter (colon ∈ ·) = [] := by
        rw [← headerLines_eq hline hrest, List.filter_eq_nil_iff]
        intro later hmem hlater
        exact hnone ((exists_colonLine _).mp ⟨later, hmem, of_decide_eq_true hlater⟩)
      rw [hlines, found, foundFrom_of_no_colon hnone]
      rfl

theorem lowerByte_keeps (b : UInt8) :
    inLine (lowerByte b) = inLine b ∧ (lowerByte b = colon ↔ b = colon) := by
  have hall : ∀ n : Fin 256, inLine (lowerByte (UInt8.ofNat n)) = inLine (UInt8.ofNat n) ∧
      (lowerByte (UInt8.ofNat n) = colon ↔ UInt8.ofNat n = colon) := by
    decide +kernel
  have hb := hall ⟨b.toNat, b.toNat_lt⟩
  rwa [UInt8.ofNat_toNat] at hb

/-- A key that is no more than a name: no CR, no LF and no ':'. -/
def CleanKey (key : Bytes) : Prop := ∀ b ∈ key, inLine b = true ∧ b ≠ colon

theorem cleanKey_nameOf {line : Bytes} (hline : ∀ b ∈ line, inLine b = true) :
    CleanKey (nameOf line) := by
  intro b hb
  obtain ⟨c, hc, rfl⟩ := List.mem_map.mp hb
  have hne : decide (c ≠ colon) = true := @List.mem_takeWhile_imp _ (· ≠ colon) _ c hc
  have hin := hline c ((List.takeWhile_sublist _).mem hc)
  exact ⟨(lowerByte_keeps c).1.trans hin, fun he => of_decide_eq_true hne ((lowerByte_keeps c).2.mp he)⟩

/-- **Otherwise** some key has a line's end in it. -/
theorem found_broken (text : Bytes) (h : ¬ ColonsFirst text) :
    ∃ e ∈ found text, ¬ CleanKey e.1 := by
  induction text using line_induction with
  | h line rest hline hrest ih =>
    by_cases hcolon : colon ∈ line
    · rw [colonsFirst_cons hline hrest hcolon, Classical.not_imp] at h
      obtain ⟨e, he, hkey⟩ := ih h.1 h.2
      rw [found_colonLine hcolon hline hrest]
      exact ⟨e, List.mem_cons_of_mem _ he, hkey⟩
    -- The next key is all from this line on to the ':', with the break in it.
    · rw [no_colon_of_first hline hrest hcolon, not_not] at h
      obtain ⟨u, v, rfl, hu⟩ := List.eq_append_cons_of_mem h
      cases u with
      | nil => exact absurd (hrest colon v rfl) (by decide)
      | cons b u =>
        have hnone : colon ∉ line ++ b :: u := by
          rw [List.mem_append, not_or]
          exact ⟨hcolon, hu⟩
        refine ⟨(lowerBytes (line ++ b :: u), valueOf v), ?_, fun hclean => ?_⟩
        · rw [found, ← List.append_assoc, foundFrom_append hnone, foundFrom, if_pos rfl]
          exact List.mem_cons_self
        · have hb : b ∈ line ++ b :: u := List.mem_append_right line List.mem_cons_self
          have hin := (hclean (lowerByte b) (List.mem_map_of_mem hb)).1
          rw [(lowerByte_keeps b).1, hrest b _ rfl] at hin
          cases hin

end Caudium.Http
