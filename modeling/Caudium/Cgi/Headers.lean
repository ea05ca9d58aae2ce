import Caudium.Cgi.Wrapper
import Caudium.Http.HeaderLines
import Caudium.Lib.Split

/-!
# What `handle_headers` makes of its lines

A line with a ':' is a header, `headerOf`; the others go behind the headers as they are. Whatever
the lines, the answer is made of lines that are not empty and have no CR, an empty line and the
rest (`handleHeaders_eq`), and such a text can be read in one way only (`headText_unique`).

The code is overwritten by each Status and by each Location (`codeOf`). It is the one that was
asked for, `statusOf`, unless a Location stands behind the last Status (`codeOf_eq_iff`).
-/

namespace Caudium.Cgi

open Lib (Str cut)
open Http (lowerCase)

/-! ## Headers -/

/-- A header: its name and its value. -/
abbrev Header := Str × Str

/-- A line read as a header. -/
def headerOf (h : Str) : Option Header :=
  (cut h ":".toList).map fun p => (trimWhites p.1, trimWhites p.2)

/-- The header has this name, in whatever case. -/
def named (name : String) (f : Header) : Bool := decide (lowerCase f.1 = name.toList)

/-- The line of a header, without its end. -/
def headerText (f : Header) : Str := f.1 ++ ": ".toList ++ f.2

/-- The headers that are written again: all but Status. -/
def written (fields : List Header) : List Str :=
  (fields.filter fun f => !named "status" f).map headerText

/-- The code when the headers have been gone through. -/
def codeFrom (code : Str) (fields : List Header) : Str :=
  fields.foldl (fun code f =>
    if named "status" f then f.2
    else if named "location" f then "302 Redirection".toList else code) code

/-- `code` when `handle_headers` is through. -/
def codeOf (fields : List Header) : Str := codeFrom "200 OK".toList fields

/-- The lines of an answer with this status, from these headers. -/
def answerLines (version status : Str) (fields : List Header) : List Str :=
  ("HTTP/1.0 ".toList ++ status) :: (written fields ++
    ((if fields.any (named "server") then [] else ["Server: ".toList ++ version]) ++
      if fields.any (named "content-type") then [] else ["Content-Type: text/html".toList]))

/-- Lines with their ends. -/
def headText (lines : List Str) : Str := lines.flatMap (· ++ "\r\n".toList)

/-- The lines without a ':'. -/
def postOf (lines : List Str) : Str :=
  (lines.filter fun h => (headerOf h).isNone).flatMap (· ++ "\n".toList)

theorem headText_append (xs ys : List Str) : headText (xs ++ ys) = headText xs ++ headText ys :=
  List.flatMap_append

theorem headText_cons (x : Str) (xs : List Str) :
    headText (x :: xs) = x ++ ("\r\n".toList ++ headText xs) := by
  rw [← List.append_assoc]
  rfl

/-! ## The loop -/

theorem named_false {a b : String} {f : Header} (h : named a f = true)
    (hne : b.toList ≠ a.toList) : named b f = false := by
  unfold named at h ⊢
  rw [of_decide_eq_true h]
  exact decide_eq_false (Ne.symm hne)

theorem written_cons (f : Header) (fields : List Header) :
    written (f :: fields) = (if named "status" f then [] else [headerText f]) ++ written fields := by
  rw [written, List.filter_cons]
  cases named "status" f <;> rfl

theorem headText_header (f : Header) : headText [headerText f] = writeHeader f.1 f.2 := by
  rw [headText, List.flatMap_singleton, headerText, writeHeader]

/-- A turn on a line with a ':', by the names. -/
theorem line_named (t : Translation) {h : Str} {f : Header} (hf : headerOf h = some f) :
    t.line h =
      if named "status" f then { t with code := f.2 }
      else if named "content-type" f then
        { t with ctReceived := true, result := t.result ++ headText [headerText f] }
      else if named "server" f then
        { t with svReceived := true, result := t.result ++ headText [headerText f] }
      else if named "location" f then
        { t with
          code := "302 Redirection".toList, result := t.result ++ headText [headerText f] }
      else { t with result := t.result ++ headText [headerText f] } := by
  obtain ⟨p, hcut, rfl⟩ := Option.map_eq_some_iff.mp hf
  rw [Translation.line, hcut, headText_header]
  simp only [named, decide_eq_true_eq]

/-- What it comes to. -/
theorem line_header (t : Translation) {h : Str} {f : Header} (hf : headerOf h = some f) :
    t.line h =
      { code := codeFrom t.code [f], result := t.result ++ headText (written [f]), post := t.post
        ctReceived := t.ctReceived || named "content-type" f
        svReceived := t.svReceived || named "server" f } := by
  have hcode : codeFrom t.code [f] = if named "status" f then f.2
      else if named "location" f then "302 Redirection".toList else t.code := rfl
  -- a header has one name
  have hstatus : named "status" f = true → named "content-type" f = false ∧
      named "server" f = false := fun h => ⟨named_false h (by decide), named_false h (by decide)⟩
  have hct : named "content-type" f = true → named "server" f = false ∧
      named "location" f = false := fun h => ⟨named_false h (by decide), named_false h (by decide)⟩
  have hsv : named "server" f = true → named "location" f = false :=
    fun h => named_false h (by decide)
  rw [line_named t hf, hcode, written_cons]
  generalize named "status" f = status at *
  generalize named "content-type" f = ct at *
  generalize named "server" f = sv at *
  generalize "302 Redirection".toList = redirection
  cases status with
  | true =>
    obtain ⟨rfl, rfl⟩ := hstatus rfl
    simp [written, headText]
  | false =>
    cases ct with
    | true =>
      obtain ⟨rfl, hlocation⟩ := hct rfl
      simp [written, hlocation]
    | false =>
      cases sv with
      | true => simp [written, hsv rfl]
      | false => cases named "location" f <;> simp [written]

/-- A turn on another line. -/
theorem line_other (t : Translation) {h : Str} (hf : headerOf h = none) :
    t.line h = { t with post := t.post ++ (h ++ "\n".toList) } := by
  rw [Translation.line, Option.map_eq_none_iff.mp hf, List.append_assoc]

theorem postOf_cons (h : Str) (lines : List Str) : postOf (h :: lines) =
    (if (headerOf h).isNone then h ++ "\n".toList else []) ++ postOf lines := by
  rw [postOf, List.filter_cons]
  cases (headerOf h).isNone <;> rfl

/-- The loop. -/
theorem foldl_line (lines : List Str) : ∀ t : Translation,
    lines.foldl Translation.line t =
      { code := codeFrom t.code (lines.filterMap headerOf)
        result := t.result ++ headText (written (lines.filterMap headerOf))
        post := t.post ++ postOf lines
        ctReceived := t.ctReceived || (lines.filterMap headerOf).any (named "content-type")
        svReceived := t.svReceived || (lines.filterMap headerOf).any (named "server") } := by
  induction lines with
  | nil =>
    intro t
    show t = { code := t.code, result := t.result ++ [], post := t.post ++ []
               ctReceived := t.ctReceived || false, svReceived := t.svReceived || false }
    rw [List.append_nil, List.append_nil, Bool.or_false, Bool.or_false]
  | cons h lines ih =>
    intro t
    rw [List.foldl_cons, ih, postOf_cons]
    cases hf : headerOf h with
    | none =>
      rw [line_other t hf, List.filterMap_cons_none hf, Translation.mk.injEq]
      exact ⟨rfl, rfl, List.append_assoc _ _ _, rfl, rfl⟩
    | some f =>
      have hwritten : written (f :: lines.filterMap headerOf) =
          written [f] ++ written (lines.filterMap headerOf) := by
        rw [written_cons, written_cons f [], List.append_assoc]
        rfl
      rw [line_header t hf, List.filterMap_cons_some hf, hwritten, headText_append,
        Translation.mk.injEq]
      exact ⟨rfl, List.append_assoc _ _ _, rfl, Bool.or_assoc _ _ _, Bool.or_assoc _ _ _⟩

theorem headText_default (given : Bool) (x : Str) :
    headText (if given then [] else [x]) = if given then [] else x ++ "\r\n".toList := by
  cases given with
  | true => rfl
  | false => exact List.flatMap_singleton _ _

/-- **The answer** of `handle_headers`. -/
theorem handleHeaders_eq (version headers : Str) :
    handleHeaders version headers =
      headText (answerLines version (codeOf ((headerLines headers).filterMap headerOf))
        ((headerLines headers).filterMap headerOf)) ++
          ("\r\n".toList ++ postOf (headerLines headers)) := by
  have htype : "Content-Type: text/html\r\n".toList =
      "Content-Type: text/html".toList ++ "\r\n".toList := rfl
  unfold handleHeaders
  rw [foldl_line, answerLines, headText_cons, headText_append, headText_append, headText_default,
    headText_default, htype]
  simp only [Bool.false_or, List.nil_append, List.append_assoc]
  rfl

/-! ## Texts with a head -/

/-- Lines that are not empty and have no CR are read again in one way. -/
theorem headText_unique {xs : List Str} (hx : ∀ l ∈ xs, l ≠ [] ∧ '\r' ∉ l) {a b : Str} :
    ∀ {ys : List Str}, (∀ l ∈ ys, l ≠ [] ∧ '\r' ∉ l) →
      headText xs ++ ("\r\n".toList ++ a) = headText ys ++ ("\r\n".toList ++ b) →
        xs = ys ∧ a = b := by
  -- the empty line does not begin like a line
  have hempty : ∀ {y : Str} (ys : List Str) (c d : Str), y ≠ [] → '\r' ∉ y →
      "\r\n".toList ++ c ≠ headText (y :: ys) ++ ("\r\n".toList ++ d) := by
    intro y ys c d hne hcr h
    rw [headText_cons] at h
    cases y with
    | nil => exact hne rfl
    | cons e y => exact hcr ((List.cons.inj h).1 ▸ List.mem_cons_self)
  induction xs with
  | nil =>
    intro ys hy h
    cases ys with
    | nil => exact ⟨rfl, List.append_cancel_left h⟩
    | cons y ys =>
      exact absurd h (hempty ys a b (hy y List.mem_cons_self).1 (hy y List.mem_cons_self).2)
  | cons x xs ih =>
    intro ys hy h
    rw [List.forall_mem_cons] at hx
    cases ys with
    | nil => exact absurd h.symm (hempty xs b a hx.1.1 hx.1.2)
    | cons y ys =>
      rw [List.forall_mem_cons] at hy
      rw [headText_cons, headText_cons] at h
      simp only [List.append_assoc] at h
      have hxy : x = y := by
        have hwhile := congrArg (List.takeWhile fun c => decide (c ≠ '\r')) h
        exact (Http.takeWhile_until hx.1.2 _).symm.trans
          (hwhile.trans (Http.takeWhile_until hy.1.2 _))
      subst hxy
      have htail := List.append_cancel_left (List.append_cancel_left h)
      obtain ⟨hlines, hrest⟩ := ih hx.2 hy.2 htail
      exact ⟨by rw [hlines], hrest⟩

/-- A header without a CR. -/
def Clean (f : Header) : Prop := '\r' ∉ f.1 ∧ '\r' ∉ f.2

theorem not_mem_trimWhites {c : Char} {s : Str} (h : c ∉ s) : c ∉ trimWhites s := by
  intro hmem
  have hmem' := (List.rdropWhile_prefix _ _).subset hmem
  exact h ((List.dropWhile_sublist _).subset hmem')

theorem headerOf_clean {h : Str} {f : Header} (hcr : '\r' ∉ h) (hf : headerOf h = some f) :
    Clean f := by
  obtain ⟨p, hcut, rfl⟩ := Option.map_eq_some_iff.mp hf
  obtain ⟨i, -, rfl⟩ := Option.map_eq_some_iff.mp hcut
  exact ⟨not_mem_trimWhites fun hmem => hcr (List.mem_of_mem_take hmem),
    not_mem_trimWhites fun hmem => hcr (List.mem_of_mem_drop hmem)⟩

/-- No line that `handle_headers` goes through has a CR. -/
theorem headerLines_clean (headers : Str) :
    ∀ f ∈ (headerLines headers).filterMap headerOf, Clean f := by
  intro f hf
  obtain ⟨h, hmem, hf⟩ := List.mem_filterMap.mp hf
  refine headerOf_clean (fun hcr => ?_) hf
  have hkept := List.of_mem_filter (Lib.mem_of_piece hmem hcr)
  exact absurd rfl (of_decide_eq_true hkept)

theorem codeFrom_clean {code : Str} {fields : List Header} (hcode : '\r' ∉ code)
    (hf : ∀ f ∈ fields, Clean f) : '\r' ∉ codeFrom code fields := by
  induction fields generalizing code with
  | nil => exact hcode
  | cons f fields ih =>
    rw [List.forall_mem_cons] at hf
    show '\r' ∉ codeFrom _ fields
    refine ih ?_ hf.2
    beta_reduce
    split
    · exact hf.1.2
    · split
      · decide
      · exact hcode

theorem answerLines_clean {version status : Str} {fields : List Header} (hv : '\r' ∉ version)
    (hs : '\r' ∉ status) (hf : ∀ f ∈ fields, Clean f) :
    ∀ l ∈ answerLines version status fields, l ≠ [] ∧ '\r' ∉ l := by
  have htext : ∀ {a : String} {t : Str}, a.toList ≠ [] → '\r' ∉ a.toList → '\r' ∉ t →
      a.toList ++ t ≠ [] ∧ '\r' ∉ a.toList ++ t := by
    intro a t hne ha ht
    rw [List.mem_append, not_or]
    exact ⟨fun hnil => hne (List.append_eq_nil_iff.mp hnil).1, ha, ht⟩
  unfold answerLines
  rw [List.forall_mem_cons]
  refine ⟨htext (by decide) (by decide) hs, fun l hl => ?_⟩
  rcases List.mem_append.mp hl with hl | hl
  · obtain ⟨f, hmem, rfl⟩ := List.mem_map.mp hl
    obtain ⟨hname, hvalue⟩ := hf f (List.mem_of_mem_filter hmem)
    refine ⟨by simp [headerText], ?_⟩
    rw [headerText, List.append_assoc, List.mem_append, not_or]
    exact ⟨hname, (htext (by decide) (by decide) hvalue).2⟩
  · rcases List.mem_append.mp hl with hl | hl
    · split at hl
      · exact absurd hl List.not_mem_nil
      · rw [List.mem_singleton.mp hl]
        exact htext (by decide) (by decide) hv
    · split at hl
      · exact absurd hl List.not_mem_nil
      · rw [List.mem_singleton.mp hl]
        decide

/-! ## The status -/

/-- The status that the script asks for: that of its last Status header, whatever else there is. -/
def statusOf (fields : List Header) : Str :=
  match fields.reverse.find? (named "status") with
  | some f => f.2
  | none =>
    if fields.any (named "location") then "302 Redirection".toList else "200 OK".toList

/-- Behind the last Status stands a Location. -/
def Overtaken (fields : List Header) : Prop :=
  ∃ before f behind, fields = before ++ f :: behind ∧ named "location" f = true ∧
    before.any (named "status") = true ∧ behind.any (named "status") = false

theorem codeOf_concat (fields : List Header) (f : Header) : codeOf (fields ++ [f]) =
    if named "status" f then f.2
    else if named "location" f then "302 Redirection".toList else codeOf fields := by
  rw [codeOf, codeFrom, List.foldl_append]
  rfl

theorem statusOf_none {fields : List Header} (h : fields.any (named "status") = false) :
    statusOf fields =
      if fields.any (named "location") then "302 Redirection".toList else "200 OK".toList := by
  have hnone : fields.reverse.find? (named "status") = none := by
    rw [List.find?_eq_none]
    intro f hf hs
    rw [List.any_eq_false] at h
    exact h f (List.mem_reverse.mp hf) hs
  rw [statusOf, hnone]

theorem statusOf_concat (fields : List Header) (f : Header) : statusOf (fields ++ [f]) =
    if named "status" f then f.2
    else if fields.any (named "status") then statusOf fields
    else if named "location" f then "302 Redirection".toList else statusOf fields := by
  by_cases hs : named "status" f = true
  · rw [if_pos hs, statusOf, List.reverse_concat, List.find?_cons_of_pos hs]
  rw [if_neg hs]
  by_cases hany : fields.any (named "status") = true
  · rw [if_pos hany, statusOf, statusOf, List.reverse_concat, List.find?_cons_of_neg hs]
    obtain ⟨g, hg, hname⟩ := List.any_eq_true.mp hany
    cases hfind : fields.reverse.find? (named "status") with
    | some g' => rfl
    | none => exact absurd hname (List.find?_eq_none.mp hfind g (List.mem_reverse.mpr hg))
  · rw [Bool.not_eq_true] at hany
    have hany' : (fields ++ [f]).any (named "status") = false := by
      rw [List.any_append, hany, List.any_cons, eq_false_of_ne_true hs]
      rfl
    rw [hany, if_neg Bool.false_ne_true, statusOf_none hany', statusOf_none hany, List.any_append]
    rw [List.any_cons, List.any_nil, Bool.or_false]
    cases fields.any (named "location") <;> cases named "location" f <;> rfl

theorem overtaken_concat (fields : List Header) (f : Header) : Overtaken (fields ++ [f]) ↔
    named "status" f = false ∧ ((named "location" f = true ∧ fields.any (named "status") = true) ∨
      Overtaken fields) := by
  constructor
  · intro h
    obtain ⟨before, g, behind, heq, hl, hbefore, hbehind⟩ := h
    rcases List.eq_nil_or_concat behind with rfl | ⟨behind, last, rfl⟩
    · obtain ⟨rfl, hlast⟩ := List.append_inj' heq rfl
      obtain rfl := (List.cons.inj hlast).1
      exact ⟨named_false hl (by decide), Or.inl ⟨hl, hbefore⟩⟩
    · rw [List.concat_eq_append] at heq hbehind
      rw [← List.cons_append, ← List.append_assoc] at heq
      obtain ⟨rfl, hlast⟩ := List.append_inj' heq rfl
      obtain rfl := (List.cons.inj hlast).1
      rw [List.any_append, Bool.or_eq_false_iff] at hbehind
      refine ⟨by simpa using hbehind.2, Or.inr ⟨before, g, behind, rfl, hl, hbefore, hbehind.1⟩⟩
  · intro h
    obtain ⟨hs, ⟨hl, hany⟩ | ⟨before, g, behind, rfl, hl, hbefore, hbehind⟩⟩ := h
    · exact ⟨fields, f, [], rfl, hl, hany, rfl⟩
    · refine ⟨before, g, behind ++ [f], by simp, hl, hbefore, ?_⟩
      rw [List.any_append, hbehind, List.any_cons, hs]
      rfl

/-- **The code is the status that was asked for** unless a Location overtakes it, and then only if
it reads the same. -/
theorem codeOf_eq_iff (fields : List Header) :
    codeOf fields = statusOf fields ↔
      (Overtaken fields → statusOf fields = "302 Redirection".toList) := by
  induction fields using List.reverseRecOn with
  | nil =>
    refine iff_of_true rfl ?_
    intro hand
    obtain ⟨before, f, behind, heq, -⟩ := hand
    exact absurd heq.symm (List.append_ne_nil_of_right_ne_nil before (List.cons_ne_nil f behind))
  | append_singleton fields f ih =>
    rw [codeOf_concat, statusOf_concat, overtaken_concat]
    by_cases hs : named "status" f = true
    · rw [if_pos hs, if_pos hs]
      exact iff_of_true rfl fun h => absurd (hs.symm.trans h.1) (by decide)
    rw [if_neg hs, if_neg hs]
    have hs' := eq_false_of_ne_true hs
    by_cases hl : named "location" f = true
    · rw [if_pos hl, if_pos hl]
      by_cases hany : fields.any (named "status") = true
      · rw [if_pos hany]
        exact ⟨fun h _ => h.symm, fun h => (h ⟨hs', Or.inl ⟨hl, hany⟩⟩).symm⟩
      · rw [if_neg hany]
        exact iff_of_true rfl fun _ => rfl
    · rw [if_neg hl, if_neg hl, ite_self, ih]
      refine imp_congr_left ⟨fun h => ⟨hs', Or.inr h⟩, fun h => ?_⟩
      exact h.2.resolve_left fun hboth => hl hboth.1

end Caudium.Cgi
