import Caudium.Cgi.Headers

/-!
# Whole outputs of a script

A script says header lines, each ended by CRLF or by a LF alone, an empty line ended in either
way, and a body. The empty line is found where the last header line ends in the same way, or where
the empty line is a LF alone (`Delimited`): the "\r\n\r\n" or "\n\n" is made of the two ends
(`ends_delimited`). A header line with a LF alone and an empty line with a CRLF make neither. Then
the end of the headers is somewhere behind them or nowhere, and the body is right only if it begins
with a LF, which together with the empty line makes a "\n\n" (`translate_lf`, `translate_other`).

So what the script's output becomes is what was asked for exactly when the empty line is found, or
the body begins with a LF, and no Location overtakes the Status (`translation_iff`).
-/

namespace Caudium.Cgi

open Lib (Str)
open Http (Line block block_cons lowerCase crlf2)

/-! ## The lines -/

/-- The text of a line, without CRs. -/
def bare (l : Line) : Str := l.content.filter (· ≠ '\r')

/-- The header on a line. -/
def fieldOf (l : Line) : Header :=
  (trimWhites ((bare l).takeWhile (· ≠ ':')), trimWhites ((bare l).dropWhile (· ≠ ':')).tail)

theorem headerOf_bare {l : Line} (h : l.HasColon) : headerOf (bare l) = some (fieldOf l) := by
  have hcolon : ':' ∈ bare l := List.mem_filter.mpr ⟨h, by decide⟩
  obtain ⟨v, w, hbare, hv⟩ := List.eq_append_cons_of_mem hcolon
  rw [headerOf, fieldOf, hbare, Http.takeWhile_until hv, Http.dropWhile_until hv]
  show (Lib.cut (v ++ ':' :: w) [':']).map _ = _
  rw [Lib.cut_char hv]
  rfl

/-- The lines come apart again. -/
theorem headerLines_block (lines : List Line) (v : Str) :
    headerLines (block lines ++ v) = lines.map bare ++ headerLines v := by
  induction lines with
  | nil => rfl
  | cons l lines ih =>
    have hlf : '\n' ∉ bare l := fun hmem => l.noLf (List.mem_of_mem_filter hmem)
    have htext : (l.text ++ (block lines ++ v)).filter (· ≠ '\r') =
        bare l ++ '\n' :: (block lines ++ v).filter (· ≠ '\r') := by
      unfold Line.text bare
      cases l.crlf <;> simp
    rw [block_cons, List.append_assoc, headerLines, htext,
      List.splitOn_append_cons_self_of_not_mem hlf, List.map_cons, List.cons_append, ← ih,
      headerLines]

theorem filterMap_bare {lines : List Line} (h : ∀ l ∈ lines, l.HasColon) :
    (lines.map bare).filterMap headerOf = lines.map fieldOf := by
  induction lines with
  | nil => rfl
  | cons l lines ih =>
    rw [List.forall_mem_cons] at h
    rw [List.map_cons, List.filterMap_cons_some (headerOf_bare h.1), ih h.2, List.map_cons]

theorem postOf_bare {lines : List Line} (h : ∀ l ∈ lines, l.HasColon) (more : List Str) :
    postOf (lines.map bare ++ more) = postOf more := by
  induction lines with
  | nil => rfl
  | cons l lines ih =>
    rw [List.forall_mem_cons] at h
    rw [List.map_cons, List.cons_append, postOf_cons, headerOf_bare h.1, ih h.2]
    rfl

/-- What stands in front of a line cannot be an end of the headers. -/
theorem text_begins {l : Line} (h : l.HasColon) (rest : Str) :
    (l.text ++ rest).head? ≠ some '\n' ∧ ¬['\r', '\n'] <+: l.text ++ rest := by
  have hcolon : ':' ∈ l.content := h
  have hlf := l.noLf
  unfold Line.text
  rw [List.append_assoc]
  generalize (if l.crlf = true then ['\r', '\n'] else ['\n']) ++ rest = behind
  cases hcontent : l.content with
  | nil =>
    rw [hcontent] at hcolon
    cases hcolon
  | cons c cs =>
    rw [hcontent, List.mem_cons] at hcolon hlf
    rw [not_or] at hlf
    refine ⟨fun hhead => hlf.1 (Option.some.inj hhead).symm, fun hpre => ?_⟩
    obtain ⟨hc, hpre⟩ := List.cons_prefix_cons.mp hpre
    cases cs with
    | nil =>
      rw [← hc] at hcolon
      exact absurd hcolon (by decide)
    | cons d cs =>
      obtain ⟨hd, -⟩ := List.cons_prefix_cons.mp hpre
      exact hlf.2 (hd ▸ List.mem_cons_self)

/-- An end of the headers that begins in a line begins at the end of the line. -/
theorem endAt_line {l : Line} {rest : Str} {j : Nat} (h : EndAt (l.text ++ rest) j)
    (hj : j < l.text.length) :
    (j + 1 = l.text.length ∧ rest.head? = some '\n') ∨
      (j + 2 = l.text.length ∧ ['\r', '\n'] <:+ l.text ∧ ['\r', '\n'] <+: rest) := by
  obtain ⟨t, htext, ht⟩ := Http.text_lf l
  have hlen : l.text.length = t.length + 1 := by rw [htext, List.length_append]; rfl
  have hdrop : (l.text ++ rest).drop j = t.drop j ++ '\n' :: rest := by
    rw [htext, List.append_assoc, List.drop_append_of_le_length (by omega)]
    rfl
  -- the part of the line that is left, without its LF
  have hleft : '\n' ∉ t.drop j := fun hmem => ht (List.mem_of_mem_drop hmem)
  have hlenLeft : (t.drop j).length = t.length - j := List.length_drop
  rw [EndAt, hdrop] at h
  rcases h with h | h
  · cases hd : t.drop j with
    | nil =>
      rw [hd] at h hlenLeft
      obtain ⟨-, h⟩ := List.cons_prefix_cons.mp h
      rw [List.length_nil] at hlenLeft
      refine Or.inl ⟨by omega, ?_⟩
      obtain ⟨u, hu⟩ := h
      rw [← hu]
      rfl
    | cons c u =>
      rw [hd] at h hleft
      exact absurd ((List.cons_prefix_cons.mp h).1 ▸ List.mem_cons_self) hleft
  · cases hd : t.drop j with
    | nil =>
      rw [hd] at h
      exact absurd (List.cons_prefix_cons.mp h).1 (by decide)
    | cons c u =>
      rw [hd] at h hleft hlenLeft
      obtain ⟨hc, h⟩ := List.cons_prefix_cons.mp h
      cases u with
      | cons d u =>
        have hd' := (List.cons_prefix_cons.mp h).1
        exact absurd (List.mem_cons_of_mem c (hd' ▸ List.mem_cons_self)) hleft
      | nil =>
        obtain ⟨-, h⟩ := List.cons_prefix_cons.mp h
        refine Or.inr ⟨?_, ?_, h⟩
        · rw [List.length_singleton] at hlenLeft
          omega
        · have hsplit : t = t.take j ++ ['\r'] := by
            conv_lhs => rw [← List.take_append_drop j t, hd, ← hc]
          refine ⟨t.take j, ?_⟩
          rw [htext]
          conv_rhs => rw [hsplit, List.append_assoc]
          rfl

/-- And one that begins in a block begins at the end of the block. -/
theorem endAt_block {lines : List Line} (hcolon : ∀ l ∈ lines, l.HasColon) {rest : Str} :
    ∀ {j : Nat}, EndAt (block lines ++ rest) j → j < (block lines).length →
      lines ≠ [] ∧ ((j + 1 = (block lines).length ∧ rest.head? = some '\n') ∨
        (j + 2 = (block lines).length ∧ ['\r', '\n'] <:+ block lines ∧ ['\r', '\n'] <+: rest)) := by
  induction lines with
  | nil => exact fun _ hj => absurd hj (Nat.not_lt_zero _)
  | cons l lines ih =>
    intro j h hj
    rw [List.forall_mem_cons] at hcolon
    rw [block_cons] at h hj ⊢
    rw [List.append_assoc] at h
    refine ⟨List.cons_ne_nil l lines, ?_⟩
    by_cases hin : j < l.text.length
    · have hline := endAt_line h hin
      cases lines with
      | nil =>
        rw [show block [] = [] from rfl, List.append_nil]
        exact hline
      | cons l' lines =>
        -- the next line does not begin like an end
        rw [List.forall_mem_cons] at hcolon
        obtain ⟨hhead, hpre⟩ := text_begins hcolon.2.1 (block lines ++ rest)
        rw [block_cons, List.append_assoc] at hline
        rcases hline with ⟨-, hline⟩ | ⟨-, -, hline⟩
        · exact absurd hline hhead
        · exact absurd hline hpre
    · have hdrop : ∀ x : Str, (l.text ++ x).drop j = x.drop (j - l.text.length) := by
        intro x
        rw [List.drop_append, List.drop_eq_nil_of_le (by omega), List.nil_append]
      have h' : EndAt (block lines ++ rest) (j - l.text.length) := by
        rw [EndAt, hdrop] at h
        exact h
      rw [List.length_append] at hj ⊢
      obtain ⟨-, ⟨hj', hhead⟩ | ⟨hj', hsuffix, hpre⟩⟩ := ih hcolon.2 h' (by omega)
      · exact Or.inl ⟨by omega, hhead⟩
      · exact Or.inr ⟨by omega, hsuffix.trans (List.suffix_append _ _), hpre⟩

/-! ## The output of a script -/

/-- What a script says: header lines, an empty line and a body. -/
structure ScriptOutput where
  lines : List Line
  colons : ∀ l ∈ lines, l.HasColon
  blankCrlf : Bool
  body : Str

namespace ScriptOutput

/-- The empty line. -/
def blank (o : ScriptOutput) : Str := if o.blankCrlf then ['\r', '\n'] else ['\n']

def text (o : ScriptOutput) : Str := block o.lines ++ (o.blank ++ o.body)

def fields (o : ScriptOutput) : List Header := o.lines.map fieldOf

/-- What is to become of it: the status that it asks for, its other headers, those it has not sent,
an empty line and the body. -/
def expected (version : Str) (o : ScriptOutput) : Str :=
  headText (answerLines version (statusOf o.fields) o.fields) ++ ("\r\n".toList ++ o.body)

/-- There is a header line, and the empty line ends in a LF alone or the header line in front of it
in CRLF. -/
def Delimited (o : ScriptOutput) : Prop :=
  o.lines ≠ [] ∧ (o.blankCrlf = false ∨ ['\r', '\n'] <:+ block o.lines)

variable {o : ScriptOutput} {version : Str}

/-- In the header lines the end of the headers begins only where it should. -/
theorem endAt_lines {j : Nat} (h : EndAt o.text j) (hj : j < (block o.lines).length) :
    o.Delimited ∧ j + o.blank.length = (block o.lines).length := by
  obtain ⟨hne, ⟨hj', hhead⟩ | ⟨hj', hsuffix, hpre⟩⟩ := endAt_block o.colons h hj
  · have hcrlf : o.blankCrlf = false := by
      unfold blank at hhead
      cases hblank : o.blankCrlf with
      | false => rfl
      | true =>
        rw [hblank] at hhead
        exact absurd (Option.some.inj hhead) (by decide)
    refine ⟨⟨hne, Or.inl hcrlf⟩, ?_⟩
    rw [blank, hcrlf]
    exact hj'
  · have hcrlf : o.blankCrlf = true := by
      unfold blank at hpre
      cases hblank : o.blankCrlf with
      | true => rfl
      | false =>
        rw [hblank] at hpre
        exact absurd (List.cons_prefix_cons.mp hpre).1 (by decide)
    refine ⟨⟨hne, Or.inr hsuffix⟩, ?_⟩
    rw [blank, hcrlf]
    exact hj'

/-- What `handle_headers` makes of the header lines. -/
theorem handleHeaders_lines {headers : Str} {more : List Str}
    (h : headerLines headers = o.lines.map bare ++ more) (hmore : more.filterMap headerOf = []) :
    handleHeaders version headers = headText (answerLines version (codeOf o.fields) o.fields) ++
      ("\r\n".toList ++ postOf more) := by
  have hfields : (headerLines headers).filterMap headerOf = o.fields := by
    rw [h, List.filterMap_append, filterMap_bare o.colons, hmore, List.append_nil, fields]
  rw [handleHeaders_eq, hfields, h, postOf_bare o.colons]

/-- The last header line ends like the empty line, as far as that is needed. -/
theorem Delimited.split (h : o.Delimited) : ∃ u, block o.lines = u ++ o.blank := by
  obtain ⟨hne, hblank⟩ := h
  unfold blank
  cases hcrlf : o.blankCrlf with
  | true =>
    rw [hcrlf] at hblank
    obtain ⟨u, hu⟩ := hblank.resolve_left Bool.noConfusion
    exact ⟨u, hu.symm⟩
  | false =>
    obtain ⟨lines, l, hlines⟩ := List.eq_nil_or_concat o.lines |>.resolve_left hne
    obtain ⟨t, htext, -⟩ := Http.text_lf l
    refine ⟨block lines ++ t, ?_⟩
    rw [hlines, List.concat_eq_append, block, List.flatMap_append, List.flatMap_singleton, htext,
      ← List.append_assoc]
    rfl

/-- The empty line is found. -/
theorem ends_delimited {u : Str} (hu : block o.lines = u ++ o.blank) :
    Ends o.text u.length (2 * o.blank.length) := by
  have htext : o.text = u ++ (o.blank ++ (o.blank ++ o.body)) := by
    rw [text, hu, List.append_assoc]
  refine ⟨?_, fun j hj hend => ?_⟩
  · rw [htext, List.drop_left]
    unfold blank
    cases o.blankCrlf with
    | true => exact Or.inr ⟨rfl, ⟨o.body, rfl⟩⟩
    | false => exact Or.inl ⟨rfl, ⟨o.body, rfl⟩⟩
  · have hlen := congrArg List.length hu
    rw [List.length_append] at hlen
    have hplace := (endAt_lines hend (by omega)).2
    omega

theorem translate_delimited (h : o.Delimited) : translate version o.text =
    headText (answerLines version (codeOf o.fields) o.fields) ++ ("\r\n".toList ++ o.body) := by
  obtain ⟨u, hu⟩ := h.split
  have hlines : headerLines u = o.lines.map bare ++ [] := by
    have hblock := headerLines_block o.lines []
    have hblank : headerLines (u ++ o.blank) = headerLines u ++ [[]] := by
      have hfilter : (u ++ o.blank).filter (· ≠ '\r') = u.filter (· ≠ '\r') ++ '\n' :: [] := by
        unfold blank
        cases o.blankCrlf <;> simp
      rw [headerLines, hfilter, List.splitOn_append_cons_self]
      rfl
    rw [List.append_nil, hu, hblank] at hblock
    rw [List.append_nil]
    exact List.append_cancel_right hblock
  have htext : o.text = (u ++ (o.blank ++ o.blank)) ++ o.body := by
    rw [text, hu]
    simp only [List.append_assoc]
  have hlen : u.length + 2 * o.blank.length = (u ++ (o.blank ++ o.blank)).length := by
    rw [List.length_append, List.length_append]
    omega
  have htake : o.text.take u.length = u := by
    rw [text, hu, List.append_assoc, List.take_left]
  rw [translate, headEnd_eq_some.mpr (ends_delimited hu)]
  dsimp only
  rw [htake, handleHeaders_lines hlines rfl, hlen]
  conv_lhs => rw [htext, List.drop_left]
  rw [show postOf [] = [] from rfl, List.append_nil, List.append_assoc]

/-- Behind the header lines comes an empty one, however much is taken. -/
theorem headerLines_behind (o : ScriptOutput) (k : Nat) :
    ∃ more, headerLines ((o.blank ++ o.body).take k) = [] :: more := by
  have hlf : ∀ s : Str, headerLines ('\n' :: s) = [] :: headerLines s := by
    intro s
    rw [headerLines, List.filter_cons_of_pos (by decide)]
    exact List.splitOn_append_cons_self_of_not_mem List.not_mem_nil _
  unfold blank
  cases o.blankCrlf with
  | true =>
    match k with
    | 0 => exact ⟨[], rfl⟩
    | 1 => exact ⟨[], rfl⟩
    | k + 2 => exact ⟨_, hlf (o.body.take k)⟩
  | false =>
    match k with
    | 0 => exact ⟨[], rfl⟩
    | k + 1 => exact ⟨_, hlf (o.body.take k)⟩

/-- The empty line is not found, but the LF that the body begins with makes a "\n\n" with it. -/
theorem translate_lf (h : ¬o.Delimited) (hbody : o.body.head? = some '\n') :
    translate version o.text =
      headText (answerLines version (codeOf o.fields) o.fields) ++ ("\r\n".toList ++ o.body) := by
  obtain ⟨rest, hrest⟩ : ∃ rest, o.body = '\n' :: rest := by
    obtain ⟨c, rest, hrest⟩ := List.exists_cons_of_ne_nil
      (show o.body ≠ [] from fun hnil => by rw [hnil] at hbody; cases hbody)
    rw [hrest] at hbody
    exact ⟨rest, by rw [hrest, Option.some.inj hbody]⟩
  obtain ⟨b, hblank, hb⟩ : ∃ b, o.blank = b ++ ['\n'] ∧ (b = [] ∨ b = ['\r']) := by
    unfold blank
    cases o.blankCrlf with
    | true => exact ⟨['\r'], rfl, Or.inr rfl⟩
    | false => exact ⟨[], rfl, Or.inl rfl⟩
  have htext : o.text = (block o.lines ++ b) ++ ('\n' :: '\n' :: rest) := by
    rw [text, hblank, hrest]
    simp only [List.append_assoc]
    rfl
  have hends : Ends o.text (block o.lines ++ b).length 2 := by
    refine ⟨Or.inl ⟨rfl, ?_⟩, fun j hj hend => ?_⟩
    · rw [htext, List.drop_left]
      exact ⟨rest, rfl⟩
    · have hge : ¬j < (block o.lines).length := fun hlt => h (endAt_lines hend hlt).1
      rw [List.length_append] at hj
      -- only the CR of the empty line is left, and "\r\n\n" is no end
      rcases hb with rfl | rfl
      · rw [List.length_nil] at hj
        omega
      · rw [List.length_singleton] at hj
        obtain rfl : j = (block o.lines).length := by omega
        rw [EndAt, htext, List.append_assoc, List.drop_left] at hend
        rcases hend with hend | hend
        · exact absurd (List.cons_prefix_cons.mp hend).1 (by decide)
        · obtain ⟨-, hend⟩ := List.cons_prefix_cons.mp hend
          obtain ⟨-, hend⟩ := List.cons_prefix_cons.mp hend
          exact absurd (List.cons_prefix_cons.mp hend).1 (by decide)
  have hlines : headerLines (block o.lines ++ b) = o.lines.map bare ++ [[]] := by
    rw [headerLines_block]
    rcases hb with rfl | rfl <;> rfl
  have hpost : postOf [[]] = ['\n'] := rfl
  have htake : o.text.take (block o.lines ++ b).length = block o.lines ++ b := by
    rw [htext, List.take_left]
  have hdrop : o.text.drop ((block o.lines ++ b).length + 2) = rest := by
    rw [htext, ← List.drop_drop, List.drop_left]
    rfl
  rw [translate, headEnd_eq_some.mpr hends]
  dsimp only
  rw [htake, hdrop, handleHeaders_lines hlines rfl, hpost, hrest]
  simp only [List.append_assoc]
  rfl

theorem fields_clean (o : ScriptOutput) : ∀ f ∈ o.fields, Clean f := by
  intro f hf
  obtain ⟨l, hl, rfl⟩ := List.mem_map.mp hf
  refine headerOf_clean (fun hcr => ?_) (headerOf_bare (o.colons l hl))
  have hkept := (List.mem_filter.mp (show '\r' ∈ l.content.filter (· ≠ '\r') from hcr)).2
  exact absurd rfl (of_decide_eq_true hkept)

/-- A head ends in CRLF. -/
theorem headText_suffix (x : Str) (xs : List Str) : ['\r', '\n'] <:+ headText (x :: xs) := by
  induction xs generalizing x with
  | nil =>
    rw [headText, List.flatMap_singleton]
    exact List.suffix_append x _
  | cons y xs ih =>
    rw [headText_cons]
    exact (ih y).trans ((List.suffix_append _ _).trans (List.suffix_append _ _))

/-- If no end is found, what is put out does not even have the head. -/
theorem text_ne_expected (h : ¬o.Delimited) : o.text ≠ o.expected version := by
  intro heq
  have hsuffix : ['\r', '\n'] <:+
      headText (answerLines version (statusOf o.fields) o.fields) := headText_suffix _ _
  rw [text, expected, ← List.append_assoc, ← List.append_assoc] at heq
  have hhead := List.append_cancel_right heq
  have hlen := hsuffix.length_le
  unfold blank at hhead
  cases hcrlf : o.blankCrlf with
  | true =>
    rw [hcrlf] at hhead
    have hblock := List.append_cancel_right hhead
    rw [← hblock] at hsuffix hlen
    refine h ⟨fun hnil => ?_, Or.inr hsuffix⟩
    rw [hnil] at hlen
    exact absurd hlen (by decide)
  | false =>
    -- there are no header lines, and the LF would be the whole head
    have hlines : o.lines = [] := by
      by_contra hne
      exact h ⟨hne, Or.inl hcrlf⟩
    rw [hcrlf, hlines, if_neg Bool.false_ne_true] at hhead
    have hone : (block [] ++ ['\n'] : Str).length = 1 := rfl
    have hshort := congrArg List.length hhead
    rw [hone, List.length_append] at hshort
    have htwo : 2 ≤ (headText (answerLines version (statusOf o.fields) o.fields)).length := hlen
    omega

theorem statusOf_clean {fields : List Header} (hf : ∀ f ∈ fields, Clean f) :
    '\r' ∉ statusOf fields := by
  unfold statusOf
  cases hfind : fields.reverse.find? (named "status") with
  | some f => exact (hf f (List.mem_reverse.mp (List.mem_of_find?_eq_some hfind))).2
  | none =>
    dsimp only
    split <;> decide

/-- The empty line is not found, and the body is not right. -/
theorem translate_other (hv : '\r' ∉ version) (h : ¬o.Delimited)
    (hbody : o.body.head? ≠ some '\n') : translate version o.text ≠ o.expected version := by
  cases hend : headEnd o.text with
  | none =>
    rw [translate, hend]
    exact text_ne_expected h
  | some p =>
    obtain ⟨pos, skip⟩ := p
    have hends := headEnd_eq_some.mp hend
    have hge : (block o.lines).length ≤ pos :=
      Nat.le_of_not_lt fun hlt => h (endAt_lines hends.endAt hlt).1
    obtain ⟨more, hmore⟩ := headerLines_behind o (pos - (block o.lines).length)
    have htake : o.text.take pos =
        block o.lines ++ (o.blank ++ o.body).take (pos - (block o.lines).length) := by
      rw [text, List.take_append, List.take_of_length_le hge]
    have hlines : headerLines (o.text.take pos) = o.lines.map bare ++ [] :: more := by
      rw [htake, headerLines_block, hmore]
    have hpost : postOf (headerLines (o.text.take pos)) = '\n' :: postOf more := by
      rw [hlines, postOf_bare o.colons]
      rfl
    intro heq
    rw [translate, hend] at heq
    dsimp only at heq
    rw [handleHeaders_eq, hpost, expected, List.append_assoc, List.append_assoc] at heq
    have hclean := headerLines_clean (o.text.take pos)
    obtain ⟨-, hrest⟩ := headText_unique
      (answerLines_clean hv (codeFrom_clean (by decide) hclean) hclean)
      (answerLines_clean hv (statusOf_clean o.fields_clean) o.fields_clean) heq
    exact hbody (by rw [← hrest]; rfl)

/-- With the headers and the body in place, only the status is left. -/
theorem answer_iff (hv : '\r' ∉ version) :
    headText (answerLines version (codeOf o.fields) o.fields) ++ ("\r\n".toList ++ o.body) =
      o.expected version ↔ codeOf o.fields = statusOf o.fields := by
  constructor
  · intro heq
    obtain ⟨hlines, -⟩ := headText_unique
      (answerLines_clean hv (codeFrom_clean (by decide) o.fields_clean) o.fields_clean)
      (answerLines_clean hv (statusOf_clean o.fields_clean) o.fields_clean) heq
    exact List.append_cancel_left (List.cons.inj hlines).1
  · intro hcode
    rw [hcode, expected]

end ScriptOutput

/-- **The translation of a script's output**, however it is cut and whatever the pipe takes: it is
what was asked for exactly when the empty line is found, or the body begins with a LF, and no
Location behind the last Status changes the status. -/
theorem translation_iff {version : Str} (hv : '\r' ∉ version) (takes : Nat → Nat)
    {o : ScriptOutput} {chunks : List Str} (h : chunks.flatten = o.text) :
    (run version takes chunks).put = o.expected version ↔
      (o.Delimited ∨ o.body.head? = some '\n') ∧
        (Overtaken o.fields → statusOf o.fields = "302 Redirection".toList) := by
  rw [put_run, h, ← codeOf_eq_iff]
  by_cases hdelim : o.Delimited
  · rw [ScriptOutput.translate_delimited hdelim, ScriptOutput.answer_iff hv]
    exact (and_iff_right (Or.inl hdelim)).symm
  · by_cases hbody : o.body.head? = some '\n'
    · rw [ScriptOutput.translate_lf hdelim hbody, ScriptOutput.answer_iff hv]
      exact (and_iff_right (Or.inr hbody)).symm
    · refine iff_of_false (ScriptOutput.translate_other hv hdelim hbody) fun hboth => ?_
      exact hboth.1.elim hdelim hbody

/-- One header and a body, with line ends of both kinds. -/
def plainOutput : ScriptOutput where
  lines := [{ content := "A: b".toList, crlf := true, noLf := by decide }]
  colons := by decide
  blankCrlf := false
  body := "hi".toList

theorem translation_plain : (run "Caudium".toList (fun _ => 3)
    ["A: b\r".toList, "\n\nhi".toList]).put = plainOutput.expected "Caudium".toList ↔
      (plainOutput.Delimited ∨ plainOutput.body.head? = some '\n') ∧
        (Overtaken plainOutput.fields →
          statusOf plainOutput.fields = "302 Redirection".toList) :=
  translation_iff (by decide) (fun _ => 3) (by decide)

/-- A Status with a Location behind it. -/
def movedOutput : ScriptOutput where
  lines := [{ content := "Status: 301 Moved".toList, crlf := true, noLf := by decide },
    { content := "Location: /x".toList, crlf := true, noLf := by decide }]
  colons := by decide
  blankCrlf := true
  body := []

theorem location_overtakes : ¬ ∀ (version : Str) (takes : Nat → Nat) (o : ScriptOutput)
    (chunks : List Str), '\r' ∉ version → chunks.flatten = o.text →
      (run version takes chunks).put = o.expected version := by
  intro h
  have hput := h "Caudium".toList (fun _ => 0) movedOutput [movedOutput.text] (by decide) (by simp)
  rw [put_run] at hput
  exact absurd hput (by decide +kernel)

end Caudium.Cgi
