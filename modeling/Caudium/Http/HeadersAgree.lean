import Caudium.Http.Folding
import Caudium.Http.HeaderLines

/-!
# The two header parsers (`caudium.c`)

A request is a request line, header lines `name: value` and an empty line, each ended by CRLF, and
a body. `append` finds the end of the headers behind the empty line (`scan_request`), comes to the
header loop with the header lines (`headerCall_request`) and finds one entry in each
(`found_block`). `parse_headers` stores the same entries from the same lines (`stored_block_chars`).
When no name comes twice both mappings have just these entries (`headers_agree`).
-/

namespace Caudium.Http

open Lib (Bytes Str Mapping pread pwrite)

/-! ## Requests -/

/-- The first line. A CR at its end is the last byte of `protocol`. -/
structure RequestLine where
  method : Bytes
  url : Bytes
  protocol : Bytes
  method_plain : space ∉ method ∧ lf ∉ method
  url_plain : space ∉ url ∧ lf ∉ url
  protocol_plain : space ∉ protocol ∧ lf ∉ protocol

def RequestLine.text (r : RequestLine) : Bytes :=
  r.method ++ space :: (r.url ++ space :: (r.protocol ++ [lf]))

/-- A header line. -/
structure HeaderLine where
  name : Bytes
  value : Bytes
  name_clean : CleanKey name
  value_inLine : ∀ b ∈ value, inLine b = true

namespace HeaderLine

def line (h : HeaderLine) : Bytes := h.name ++ colon :: space :: h.value

def text (h : HeaderLine) : Bytes := h.line ++ [cr, lf]

/-- The name, whatever its case. -/
def key (h : HeaderLine) : Bytes := lowerBytes h.name

/-- What both parsers should store. -/
def entry (h : HeaderLine) : Bytes × Bytes := (h.key, h.value.dropWhile (· == space))

theorem line_inLine (h : HeaderLine) : ∀ b ∈ h.line, inLine b = true := by
  intro b hb
  unfold line at hb
  rcases List.mem_append.mp hb with hb | hb
  · exact (h.name_clean b hb).1
  · rcases List.mem_cons.mp hb with rfl | hb
    · rfl
    · rcases List.mem_cons.mp hb with rfl | hb
      · rfl
      · exact h.value_inLine b hb

theorem line_ne_nil (h : HeaderLine) : h.line ≠ [] := by
  unfold line
  exact List.append_ne_nil_of_right_ne_nil _ (List.cons_ne_nil _ _)

theorem colon_not_mem_name (h : HeaderLine) : colon ∉ h.name :=
  fun hmem => (h.name_clean colon hmem).2 rfl

theorem entryOf_line (h : HeaderLine) : entryOf h.line = h.entry := by
  obtain ⟨htake, hdrop⟩ := takeWhile_name h.colon_not_mem_name (space :: h.value)
  unfold entryOf nameOf line entry key
  rw [htake, hdrop]
  rfl

end HeaderLine

/-- The header lines, without the empty one. -/
def headerBlock (lines : List HeaderLine) : Bytes := lines.flatMap HeaderLine.text

theorem headerBlock_cons (h : HeaderLine) (lines : List HeaderLine) :
    headerBlock (h :: lines) = h.text ++ headerBlock lines := List.flatMap_cons

/-- A request line, header lines and the empty line. -/
def requestHead (r : RequestLine) (lines : List HeaderLine) : Bytes :=
  r.text ++ (headerBlock lines ++ [cr, lf])

/-! ## The end of the headers -/

theorem inLine_iff {b : UInt8} : inLine b = true ↔ b ≠ lf ∧ b ≠ cr := by
  rw [inLine, Bool.and_eq_true, decide_eq_true_iff, decide_eq_true_iff]

/-- The search goes on behind a piece it does not end in. -/
theorem scan_append_of {xs ys : Bytes} {n m : Nat} (hn : n < 2) (hm : m ≠ 2)
    (h : scan xs n = (xs.length, m)) :
    scan (xs ++ ys) n = (xs.length + (scan ys m).1, (scan ys m).2) := by
  have hne : (scan xs n).2 ≠ 2 := by
    rw [h]
    exact hm
  rw [scan_append xs ys hn hne, h]

/-- Without a LF, nothing is counted. -/
theorem scan_of_no_lf {xs : Bytes} (h : lf ∉ xs) : scan xs 0 = (xs.length, 0) := by
  induction xs with
  | nil => rfl
  | cons b xs ih =>
    rw [List.mem_cons, not_or] at h
    have hslash : slash 0 b = 0 := by
      unfold slash
      rw [if_neg (Ne.symm h.1)]
      split
      · rfl
      · rfl
    rw [scan_cons (by decide), hslash, ih h.2]
    rfl

/-- With one LF at the end, one. -/
theorem scan_lf {xs : Bytes} (h : lf ∉ xs) : scan (xs ++ [lf]) 0 = (xs.length + 1, 1) := by
  rw [scan_append_of (by decide) (by decide) (scan_of_no_lf h)]
  rfl

theorem RequestLine.scan_text (r : RequestLine) : scan r.text 0 = (r.text.length, 1) := by
  have hsplit : r.text = (r.method ++ space :: (r.url ++ space :: r.protocol)) ++ [lf] := by
    simp only [RequestLine.text, List.append_assoc, List.cons_append]
  have hnone : lf ∉ r.method ++ space :: (r.url ++ space :: r.protocol) := by
    simp only [List.mem_append, List.mem_cons, not_or]
    exact ⟨r.method_plain.2, by decide, r.url_plain.2, by decide, r.protocol_plain.2⟩
  rw [hsplit, scan_lf hnone, @List.length_append _ _ [lf]]
  rfl

/-- A header line takes the count back, and its own LF is counted. -/
theorem HeaderLine.scan_text (h : HeaderLine) : scan h.text 1 = (h.text.length, 1) := by
  have hin := h.line_inLine
  unfold HeaderLine.text
  cases hline : h.line with
  | nil => exact absurd hline h.line_ne_nil
  | cons b bs =>
    rw [hline, List.forall_mem_cons] at hin
    have hb := inLine_iff.1 hin.1
    have hnone : lf ∉ bs ++ [cr] := by
      rw [List.mem_append, not_or]
      exact ⟨fun hmem => (inLine_iff.1 (hin.2 lf hmem)).1 rfl, by decide⟩
    have hsplit : bs ++ [cr, lf] = (bs ++ [cr]) ++ [lf] := by rw [List.append_assoc]; rfl
    rw [List.cons_append, scan_cons (by decide), slash_other hb.1 hb.2, hsplit, scan_lf hnone,
      List.length_cons, @List.length_append _ _ [lf]]
    rfl

theorem scan_headerBlock (lines : List HeaderLine) :
    scan (headerBlock lines) 1 = ((headerBlock lines).length, 1) := by
  induction lines with
  | nil => rfl
  | cons h lines ih =>
    rw [headerBlock_cons, scan_append_of (by decide) (by decide) h.scan_text, ih,
      List.length_append]

/-- **The headers end** behind the empty line, and not before. -/
theorem scan_request (r : RequestLine) (lines : List HeaderLine) (body : Bytes) :
    scan (requestHead r lines ++ body) 0 = ((requestHead r lines).length, 2) := by
  have hhead : scan (requestHead r lines) 0 = ((requestHead r lines).length, 2) := by
    unfold requestHead
    rw [scan_append_of (by decide) (by decide) r.scan_text,
      scan_append_of (by decide) (by decide) (scan_headerBlock lines), List.length_append,
      List.length_append]
    rfl
  rw [scan_append_found _ _ (by decide) (by rw [hhead]), hhead]

/-! ## The call of the header loop -/

/-- The header text begins with a name or with the CR of the empty line, not with a LF. -/
theorem byteAt_headers_ne (lines : List HeaderLine) :
    byteAt (headerBlock lines ++ [cr, lf]) 0 ≠ lf := by
  cases lines with
  | nil => decide
  | cons h lines =>
    have hin := h.line_inLine
    rw [headerBlock_cons, HeaderLine.text]
    cases hline : h.line with
    | nil => exact absurd hline h.line_ne_nil
    | cons b bs =>
      rw [hline, List.forall_mem_cons] at hin
      exact (inLine_iff.1 hin.1).1

theorem take_append_length {n : Nat} {xs ys : Bytes} (h : n = xs.length) :
    (xs ++ ys).take n = xs := by
  rw [h, List.take_left]

theorem callProtocol_request {b : Buffer} {inp l : Nat} {protocol rest more : Bytes}
    (hprotocol : space ∉ protocol ∧ lf ∉ protocol) (hrest : byteAt (rest ++ more) 0 ≠ lf)
    (hdata : b.data.drop inp = protocol ++ lf :: (rest ++ more))
    (hl : l = (protocol ++ lf :: rest).length) :
    ∃ c, callProtocol b inp l = some c ∧ c.inp = inp + protocol.length + 1 ∧ c.l = rest.length := by
  have hsplit : protocol ++ lf :: (rest ++ more) = (protocol ++ lf :: rest) ++ more := by
    rw [List.append_assoc]
    rfl
  have hfind : findProtocol (pread b.data inp l) = some protocol.length := by
    rw [pread, hdata, hsplit, take_append_length hl]
    exact findIn_append hprotocol.2 hprotocol.1 rest
  have hat : ∀ k, byteAt b.data (inp + k) = byteAt (protocol ++ lf :: (rest ++ more)) k := by
    intro k
    rw [← hdata, byteAt_drop]
  have hlf : byteAt b.data (inp + protocol.length) = lf := by
    rw [hat]
    exact byteAt_append protocol (lf :: (rest ++ more)) 0
  have hnext : byteAt b.data (inp + (protocol.length + 1)) = byteAt (rest ++ more) 0 := by
    rw [hat]
    exact byteAt_append protocol (lf :: (rest ++ more)) 1
  rw [List.length_append, List.length_cons] at hl
  unfold callProtocol
  rw [hfind]
  dsimp only
  by_cases hcr : byteAt b.data (inp + protocol.length - 1) ≠ cr
  · rw [if_pos hcr]
    have hstart : byteAt b.data (inp + (protocol.length + 1)) ≠ lf := by
      rw [hnext]
      exact hrest
    refine ⟨_, if_neg hstart, rfl, ?_⟩
    dsimp only
    omega
  · rw [if_neg hcr]
    refine ⟨_, if_pos hlf, rfl, ?_⟩
    dsimp only
    omega

theorem callFile_request {b : Buffer} {inp l : Nat} {url protocol rest more : Bytes}
    (hurl : space ∉ url ∧ lf ∉ url) (hprotocol : space ∉ protocol ∧ lf ∉ protocol)
    (hrest : byteAt (rest ++ more) 0 ≠ lf)
    (hdata : b.data.drop inp = url ++ space :: (protocol ++ lf :: (rest ++ more)))
    (hl : l = (url ++ space :: (protocol ++ lf :: rest)).length) :
    ∃ c, callFile b inp l = some c ∧
      c.inp = inp + url.length + 1 + protocol.length + 1 ∧ c.l = rest.length := by
  have hsplit : url ++ space :: (protocol ++ lf :: (rest ++ more)) =
      (url ++ space :: (protocol ++ lf :: rest)) ++ more := by
    simp only [List.append_assoc, List.cons_append]
  have hfind : findFile (pread b.data inp l) = some url.length := by
    rw [pread, hdata, hsplit, take_append_length hl]
    exact findIn_append hurl.1 hurl.2 _
  obtain ⟨b', hcall, -, hwritten⟩ := callFile_eq hfind
  have hdata' : b'.data.drop (inp + (url.length + 1)) = protocol ++ lf :: (rest ++ more) := by
    rw [hwritten, Lib.drop_pwrite decoded_fits, ← List.drop_drop, hdata, ← List.drop_drop,
      List.drop_left]
    rfl
  rw [List.length_append, List.length_cons] at hl
  obtain ⟨c, hc, hinp, hlen⟩ := @callProtocol_request b' (inp + (url.length + 1))
    (l - (url.length + 1)) protocol rest more hprotocol hrest hdata' (by omega)
  exact ⟨c, hcall.trans hc, by omega, hlen⟩

theorem requestHead_eq (r : RequestLine) (lines : List HeaderLine) :
    requestHead r lines = r.method ++
      space :: (r.url ++ space :: (r.protocol ++ lf :: (headerBlock lines ++ [cr, lf]))) := by
  simp only [requestHead, RequestLine.text, List.append_assoc, List.cons_append, List.nil_append]

theorem callRequest_request {b : Buffer} (r : RequestLine) (lines : List HeaderLine) (body : Bytes)
    (hdata : b.data = requestHead r lines ++ body) :
    ∃ c, callRequest b (requestHead r lines).length = some c ∧ c.inp = r.text.length ∧
      c.l = (headerBlock lines ++ [cr, lf]).length := by
  have hne : byteAt ((headerBlock lines ++ [cr, lf]) ++ body) 0 ≠ lf := by
    have hfirst := byteAt_headers_ne lines
    cases hrest : headerBlock lines ++ [cr, lf] with
    | nil => exact absurd hrest (List.append_ne_nil_of_right_ne_nil _ (List.cons_ne_nil _ _))
    | cons x xs =>
      rw [hrest] at hfirst
      exact hfirst
  have hmethod : findMethod (b.data.take (requestHead r lines).length) = some r.method.length := by
    rw [hdata, List.take_left, requestHead_eq]
    exact findIn_append r.method_plain.1 r.method_plain.2 _
  -- Behind the method: the URL, the protocol, and what `append` takes for the header text.
  have hdrop : b.data.drop (r.method.length + 1) =
      r.url ++ space :: (r.protocol ++ lf :: ((headerBlock lines ++ [cr, lf]) ++ body)) := by
    rw [hdata, requestHead_eq, List.append_assoc, ← List.drop_drop, List.drop_left]
    simp only [List.cons_append, List.append_assoc, List.drop_succ_cons, List.drop_zero]
  have hlen : (requestHead r lines).length - (r.method.length + 1) =
      (r.url ++ space :: (r.protocol ++ lf :: (headerBlock lines ++ [cr, lf]))).length := by
    rw [requestHead_eq, List.length_append, List.length_cons]
    omega
  obtain ⟨c, hc, hinp, hl⟩ := @callFile_request ((b.insertOther "data".toList
    (b.data.drop (requestHead r lines).length)).insertOther "method".toList
    (pread b.data 0 r.method.length)) _ _ _ _ _ body r.url_plain r.protocol_plain hne hdrop hlen
  refine ⟨c, ?_, ?_, hl⟩
  · have hfind : findMethod ((b.insertOther "data".toList
        (b.data.drop (requestHead r lines).length)).data.take (requestHead r lines).length) =
        some r.method.length := hmethod
    unfold callRequest
    dsimp only
    rw [hfind]
    exact hc
  · rw [hinp, RequestLine.text]
    simp only [List.length_append, List.length_cons, List.length_nil]
    omega

/-- **`append` comes to the header loop** with the header lines and the empty line. -/
theorem headerCall_request {b : Buffer} (r : RequestLine) (lines : List HeaderLine) (body : Bytes)
    (hempty : b.data = []) (hfree : (requestHead r lines ++ body).length < b.free) :
    ∃ c, b.headerCall (requestHead r lines ++ body) = some c ∧
      c.text = headerBlock lines ++ [cr, lf] := by
  obtain ⟨c, hc, hinp, hl⟩ := @callRequest_request { b with
    data := requestHead r lines ++ body
    free := b.free - (requestHead r lines ++ body).length } r lines body rfl
  have hcall : b.headerCall (requestHead r lines ++ body) = some c := by
    unfold Buffer.headerCall
    rw [if_neg (Nat.not_le_of_lt hfree), hempty]
    dsimp only
    rw [List.nil_append, List.length_nil, Nat.zero_sub, List.drop_zero, scan_request,
      if_neg (not_not.mpr rfl), Nat.zero_add]
    exact hc
  refine ⟨c, hcall, ?_⟩
  rw [(headerCall_arrived hcall).text, hempty, hinp, hl, List.nil_append, pread, requestHead,
    List.append_assoc, List.drop_left, List.take_left]

/-! ## What `append` finds -/

/-- One entry for each header line. -/
theorem found_block (lines : List HeaderLine) :
    found (headerBlock lines ++ [cr, lf]) = lines.map HeaderLine.entry := by
  induction lines with
  | nil => rfl
  | cons h lines ih =>
    have hcolon : colon ∈ h.line := List.mem_append_right _ List.mem_cons_self
    have hsplit : headerBlock (h :: lines) ++ [cr, lf] =
        h.line ++ cr :: lf :: (headerBlock lines ++ [cr, lf]) := by
      rw [headerBlock_cons, HeaderLine.text, List.append_assoc, List.append_assoc]
      rfl
    have hbroken : StartsBroken (cr :: lf :: (headerBlock lines ++ [cr, lf])) := by
      intro b rest heq
      obtain ⟨rfl, -⟩ := List.cons.inj heq
      rfl
    rw [hsplit, found_colonLine hcolon h.line_inLine hbroken, h.entryOf_line]
    exact congrArg (h.entry :: ·) ih

/-! ## The text as a string -/

/-- The string with these bytes. -/
def chars (s : Bytes) : Str := s.map fun b => Char.ofNat b.toNat

/-- What the two parsers do with a byte and with its character. -/
theorem char_spec (b : UInt8) :
    (Char.ofNat b.toNat).toNat = b.toNat ∧
      (if 65 ≤ (Char.ofNat b.toNat).toNat ∧ (Char.ofNat b.toNat).toNat ≤ 90
        then Char.ofNat ((Char.ofNat b.toNat).toNat ||| 32) else Char.ofNat b.toNat) =
        Char.ofNat (lowerByte b).toNat := by
  have hall : ∀ n : Fin 256, (Char.ofNat (UInt8.ofNat n).toNat).toNat = (UInt8.ofNat n).toNat ∧
      (if 65 ≤ (Char.ofNat (UInt8.ofNat n).toNat).toNat ∧
          (Char.ofNat (UInt8.ofNat n).toNat).toNat ≤ 90
        then Char.ofNat ((Char.ofNat (UInt8.ofNat n).toNat).toNat ||| 32)
        else Char.ofNat (UInt8.ofNat n).toNat) = Char.ofNat (lowerByte (UInt8.ofNat n)).toNat := by
    decide +kernel
  have hb := hall ⟨b.toNat, b.toNat_lt⟩
  rwa [UInt8.ofNat_toNat] at hb

theorem char_injective {b c : UInt8} (h : Char.ofNat b.toNat = Char.ofNat c.toNat) : b = c := by
  have hnat := congrArg Char.toNat h
  rw [(char_spec b).1, (char_spec c).1] at hnat
  exact UInt8.toNat_inj.mp hnat

theorem chars_injective {s t : Bytes} (h : chars s = chars t) : s = t :=
  List.map_injective_iff.mpr (fun _ _ => char_injective) h

theorem chars_append (s t : Bytes) : chars (s ++ t) = chars s ++ chars t := List.map_append

theorem mem_chars {b : UInt8} {s : Bytes} : Char.ofNat b.toNat ∈ chars s ↔ b ∈ s := by
  constructor
  · intro h
    obtain ⟨c, hc, heq⟩ := List.mem_map.mp h
    rwa [← char_injective heq]
  · exact fun h => List.mem_map_of_mem h

theorem lowercase_chars (s : Bytes) : lowercase (chars s) = chars (lowerBytes s) := by
  rw [lowercase, chars, lowerBytes, chars, List.map_map, List.map_map]
  exact List.map_congr_left fun b _ => (char_spec b).2

theorem dropBlanks_chars (s : Bytes) :
    (chars s).dropWhile (· = ' ') = chars (s.dropWhile (· == space)) := by
  induction s with
  | nil => rfl
  | cons b s ih =>
    by_cases hb : b = space
    · subst hb
      exact ih
    · have hchar : ¬ Char.ofNat b.toNat = ' ' := fun he => hb (@char_injective b space he)
      have hcons : chars (b :: s) = Char.ofNat b.toNat :: chars s := rfl
      rw [@List.dropWhile_cons_of_neg _ (· == space) b s (by rwa [beq_iff_eq]), hcons,
        @List.dropWhile_cons_of_neg _ (· = ' ') _ (chars s) (by rwa [decide_eq_true_iff])]

/-! ## What `parse_headers` stores -/

namespace HeaderLine

/-- The line as `parse_headers` is given it. -/
def toLine (h : HeaderLine) : Line where
  content := chars h.line
  crlf := true
  noLf hmem := (inLine_iff.1 (h.line_inLine lf (mem_chars.1 hmem))).1 rfl

theorem content_toLine (h : HeaderLine) :
    h.toLine.content = chars h.name ++ ':' :: (' ' :: chars h.value) := by
  show chars (h.name ++ colon :: space :: h.value) = _
  rw [chars_append]
  rfl

theorem hasColon_toLine (h : HeaderLine) : h.toLine.HasColon := by
  unfold Line.HasColon
  rw [content_toLine]
  exact List.mem_append_right _ List.mem_cons_self

theorem colon_not_mem_chars (h : HeaderLine) : ':' ∉ chars h.name :=
  fun hmem => h.colon_not_mem_name (mem_chars.1 hmem)

theorem cr_not_mem_value (h : HeaderLine) : '\r' ∉ ' ' :: chars h.value := by
  rw [List.mem_cons, not_or]
  refine ⟨by decide, fun hmem => ?_⟩
  exact (inLine_iff.1 (h.value_inLine cr (mem_chars.1 hmem))).2 rfl

theorem after_toLine (h : HeaderLine) : h.toLine.after = (' ' :: chars h.value) ++ '\r' :: [] := by
  unfold Line.after
  rw [content_toLine, dropWhile_until h.colon_not_mem_chars]
  rfl

theorem closed_toLine (h : HeaderLine) : h.toLine.Closed := by
  unfold Line.Closed
  rw [after_toLine, dropWhile_until h.cr_not_mem_value]
  exact ⟨List.mem_append_right _ List.mem_cons_self, by decide⟩

theorem fields_toLine (h : HeaderLine) :
    (lowercase h.toLine.name, h.toLine.value) = (chars h.entry.1, chars h.entry.2) := by
  have hname : h.toLine.name = chars h.name := by
    unfold Line.name
    rw [content_toLine, takeWhile_until h.colon_not_mem_chars]
  have hvalue : h.toLine.value = chars h.entry.2 := by
    unfold Line.value
    rw [after_toLine, takeWhile_until h.cr_not_mem_value, entry, ← dropBlanks_chars]
    rfl
  rw [hname, hvalue, lowercase_chars]
  rfl

end HeaderLine

theorem block_toLine (lines : List HeaderLine) :
    block (lines.map HeaderLine.toLine) = chars (headerBlock lines) := by
  induction lines with
  | nil => rfl
  | cons h lines ih =>
    have hcons : block ((h :: lines).map HeaderLine.toLine) =
        h.toLine.text ++ block (lines.map HeaderLine.toLine) := List.flatMap_cons
    rw [hcons, ih, headerBlock_cons, chars_append, HeaderLine.text, chars_append]
    rfl

/-- The same entries, in the same order. -/
theorem stored_block_chars (lines : List HeaderLine) :
    stored (chars (headerBlock lines)) =
      lines.map fun h => (chars h.entry.1, chars h.entry.2) := by
  have hall : ∀ l ∈ lines.map HeaderLine.toLine, l.HasColon ∧ l.Closed := by
    intro l hl
    obtain ⟨h, -, rfl⟩ := List.mem_map.mp hl
    exact ⟨h.hasColon_toLine, h.closed_toLine⟩
  have hcolons : withColon (lines.map HeaderLine.toLine) = lines.map HeaderLine.toLine :=
    List.filter_eq_self.mpr fun l hl => decide_eq_true (hall l hl).1
  rw [← block_toLine, stored_block fun l hl _ => (hall l hl).2, hcolons, List.map_map]
  exact List.map_congr_left fun h _ => h.fields_toLine

/-! ## The two mappings -/

/-- The two mappings have the same entries, as bytes and as characters. -/
structure Agree (m : Mapping Bytes Svalue) (m' : Mapping Str Str) : Prop where
  left : ∀ key v, m.lookup key = some v →
    ∃ value, v = .string value ∧ m'.lookup (chars key) = some (chars value)
  right : ∀ k v, m'.lookup k = some v →
    ∃ key value, k = chars key ∧ v = chars value ∧ m.lookup key = some (.string value)

/-- Entries whose keys are all different make mappings that agree. -/
theorem agree_of_entries {fs : List (Bytes × Bytes)} (h : (fs.map Prod.fst).Nodup) :
    Agree (insertFound ∅ fs) (insertAll ∅ (fs.map fun f => (chars f.1, chars f.2))) := by
  have hfresh : Fresh ∅ fs := ⟨h, fun key _ ⟨_, hold⟩ => nomatch hold⟩
  have hsame : ∀ f ∈ fs, ∀ f' ∈ fs, f'.1 = f.1 → f' = f := fun f hf f' hf' heq =>
    List.inj_on_of_nodup_map h hf' hf heq
  have hlookup : ∀ f ∈ fs, (insertAll ∅ (fs.map fun f => (chars f.1, chars f.2))).lookup
      (chars f.1) = some (chars f.2) := by
    intro f hf
    refine @Lib.Mapping.lookup_foldl_insert Str Str _ _ Prod.fst Prod.snd
      (chars f.1, chars f.2) ∅ _ (List.mem_map_of_mem hf) ?_
    intro y hy hkey
    obtain ⟨f', hf', rfl⟩ := List.mem_map.mp hy
    rw [hsame f hf f' hf' (chars_injective hkey)]
  refine ⟨fun key v hkey => ?_, fun k v hk => ?_⟩
  · have hmem : key ∈ fs.map Prod.fst := by
      by_contra hnone
      rw [lookup_insertFound_of_ne hnone] at hkey
      cases hkey
    obtain ⟨f, hf, rfl⟩ := List.mem_map.mp hmem
    rw [lookup_insertFound hfresh hf] at hkey
    exact ⟨f.2, (Option.some.inj hkey).symm, hlookup f hf⟩
  -- A key of the characters is the key of an entry.
  · have hmem : ∃ f ∈ fs, k = chars f.1 := by
      by_contra hnone
      unfold insertAll at hk
      rw [Lib.Mapping.lookup_foldl_insert_of_ne] at hk
      · cases hk
      · intro y hy he
        obtain ⟨f, hf, rfl⟩ := List.mem_map.mp hy
        exact hnone ⟨f, hf, he.symm⟩
    obtain ⟨f, hf, rfl⟩ := hmem
    rw [hlookup f hf] at hk
    exact ⟨f.1, f.2, rfl, (Option.some.inj hk).symm, lookup_insertFound hfresh hf⟩

/-- **The two header parsers agree** on every request whose header names are all different. -/
theorem headers_agree (r : RequestLine) (lines : List HeaderLine) (body : Bytes)
    (other : Mapping Str Bytes) (free : Nat) (hdistinct : (lines.map HeaderLine.key).Nodup)
    (hfree : (requestHead r lines ++ body).length < free) :
    ((Buffer.create other ∅ free).append (requestHead r lines ++ body)).1 = 1 ∧
      Agree ((Buffer.create other ∅ free).append (requestHead r lines ++ body)).2.headers
        (parseHeaders (chars (headerBlock lines))) := by
  obtain ⟨c, hc, htext⟩ := @headerCall_request (Buffer.create other ∅ free) r lines body rfl hfree
  have hone : ((Buffer.create other ∅ free).append (requestHead r lines ++ body)).1 = 1 := by
    have hanswers := append_answers (Buffer.create other ∅ free) (requestHead r lines ++ body)
    rw [hc] at hanswers
    exact congrArg Prod.fst hanswers
  refine ⟨hone, ?_⟩
  have hkeys : ((lines.map HeaderLine.entry).map Prod.fst).Nodup := by
    rw [List.map_map]
    exact hdistinct
  have hagree := agree_of_entries hkeys
  rw [List.map_map] at hagree
  rw [append_headers hc, htext, found_block, parseHeaders_eq, stored_block_chars]
  exact hagree

/-- "GET / HTTP/1.0". -/
def getLine : RequestLine where
  method := [71, 69, 84]
  url := [47]
  protocol := [72, 84, 84, 80, 47, 49, 46, 48, cr]
  method_plain := by decide +kernel
  url_plain := by decide +kernel
  protocol_plain := by decide +kernel

/-- "Ab: c" and "d:  e ". -/
def twoHeaders : List HeaderLine :=
  [{ name := [65, 98], value := [99], name_clean := by unfold CleanKey; decide +kernel,
     value_inLine := by decide +kernel },
    { name := [100], value := [32, 101, 32], name_clean := by unfold CleanKey; decide +kernel,
      value_inLine := by decide +kernel }]

theorem headers_agree_twoHeaders :
    ((Buffer.create ∅ ∅ 100).append (requestHead getLine twoHeaders ++ [120])).1 = 1 ∧
      Agree ((Buffer.create ∅ ∅ 100).append (requestHead getLine twoHeaders ++ [120])).2.headers
        (parseHeaders (chars (headerBlock twoHeaders))) :=
  headers_agree getLine twoHeaders [120] ∅ 100 (by decide) (by decide)

end Caudium.Http
