import Mathlib.Data.List.Forall2
import Mathlib.Data.List.TakeWhile
import Caudium.Http.ParseHeaders

/-!
# Header lines and `parse_headers` (`caudium.c`)

`stored` is the list of entries that `parse_headers` puts into its mapping, one after the other
(`parseHeaders_eq`). The scan for the end of a value looks for a CR only, the scan for the end of
a line for a LF only, and the key is everything from where the call began up to the ':'. So the
lines of a block are kept apart exactly when each line with a ':' has a CR behind it and no other
':' behind that CR (`linesIsolated_iff`).
-/

namespace Caudium.Http

open Lib (Str Mapping runLoop)

/-- An entry: the key and the value. -/
abbrev Field := Str × Str

/-- The value whose ':' stands in front of `rest`: up to the CR, without the blanks at its
beginning. -/
def headerValue (rest : Str) : Str :=
  (rest.takeWhile (· ≠ '\r')).drop (rest.takeWhile (· = ' ')).length

/-- What is stored from `rest` on: `seen` is what the call has gone over, and in a value the scan
looks for the CR. -/
def storedFrom (seen : Str) (inValue : Bool) : Str → List Field
  | [] => []
  | c :: rest =>
    if inValue then storedFrom (seen ++ [c]) (c ≠ '\r') rest
    else if c = ':' then
      (lowercase seen, headerValue rest) :: storedFrom (seen ++ [c]) true rest
    else if c = '\n' then storedFrom [] false rest
    else storedFrom (seen ++ [c]) false rest

/-- What `parse_headers` stores. -/
def stored (headers : Str) : List Field := storedFrom [] false headers

/-- `low_mapping_insert`, for one entry after the other. -/
def insertAll (m : Mapping Str Str) (fields : List Field) : Mapping Str Str :=
  fields.foldl (fun m f => m.insert f.1 f.2) m

/-! ## The loops -/

/-- The scan of a value ends behind the CR. -/
theorem storedFrom_value (rest : Str) : ∀ seen : Str,
    storedFrom seen true rest =
      storedFrom (seen ++ rest.take ((rest.takeWhile (· ≠ '\r')).length + 1)) false
        (rest.drop ((rest.takeWhile (· ≠ '\r')).length + 1)) := by
  induction rest with
  | nil =>
    intro seen
    rfl
  | cons c rest ih =>
    intro seen
    rw [storedFrom, if_pos rfl]
    by_cases hc : c = '\r'
    · subst hc
      rfl
    · have hne : decide (c ≠ '\r') = true := decide_eq_true hc
      have hwhile : (c :: rest).takeWhile (· ≠ '\r') = c :: rest.takeWhile (· ≠ '\r') :=
        List.takeWhile_cons_of_pos hne
      rw [hne, ih, hwhile, List.length_cons, List.take_succ_cons, List.drop_succ_cons,
        List.append_assoc]
      rfl

/-- Where the loop of `get_next_header` stands, what it has stored and what it will store. -/
def HeadState.total (heads : Str) (s : HeadState) : Mapping Str Str :=
  if s.returned then insertAll s.headermap (stored (heads.drop s.count))
  else insertAll s.headermap (storedFrom (heads.take s.count) false (heads.drop s.count))

theorem slice_headerValue {heads rest : Str} {colon : Nat}
    (hrest : heads.drop (colon + 1) = rest) :
    slice heads (colon + 1 + (rest.takeWhile (· = ' ')).length)
      (colon + 1 + (rest.takeWhile (· ≠ '\r')).length) = headerValue rest := by
  rw [slice, headerValue, ← List.drop_drop, List.drop_take, hrest, Nat.add_sub_cancel_left]
  congr 1
  exact (List.prefix_iff_eq_take.mp (List.takeWhile_prefix _)).symm

theorem total_live (heads : Str) {s : HeadState} (h : s.returned = false) :
    s.total heads =
      insertAll s.headermap (storedFrom (heads.take s.count) false (heads.drop s.count)) := by
  rw [HeadState.total, h]
  rfl

/-- A turn stores the next of what is to be stored, or goes over a character. -/
theorem total_headStep {heads : Str} {s : HeadState} (hlive : headLive heads s = true) :
    (headStep heads s).total heads = s.total heads := by
  rw [headLive, Bool.and_eq_true, Bool.not_eq_true', decide_eq_true_eq] at hlive
  obtain ⟨hret, hlt⟩ := hlive
  have hdrop : heads.drop s.count = heads[s.count] :: heads.drop (s.count + 1) :=
    List.drop_eq_getElem_cons hlt
  have htake : heads.take (s.count + 1) = heads.take s.count ++ [heads[s.count]] :=
    (List.take_append_getElem hlt).symm
  have hchar : charAt heads s.count = heads[s.count] := charAt_eq hlt
  rw [total_live heads hret, hdrop, storedFrom, if_neg Bool.false_ne_true]
  unfold headStep
  rw [hchar]
  split
  next hcolon =>
    refine Eq.trans (total_live heads hret) ?_
    dsimp only
    rw [slice_headerValue rfl, storedFrom_value, ← htake, ← List.take_add, List.drop_drop]
    rfl
  next hcolon =>
    split
    -- At a LF the function returns, and what is behind it is left for the next call.
    next hlf => exact if_pos rfl
    next hlf =>
      refine Eq.trans (total_live heads hret) ?_
      rw [← htake]

/-- `get_next_header` stores what stands on its part of the text, and leaves the rest. -/
theorem getNextHeader_stored (heads : Str) (m : Mapping Str Str) :
    insertAll (getNextHeader heads m).2 (stored (heads.drop (getNextHeader heads m).1)) =
      insertAll m (stored heads) := by
  unfold getNextHeader
  generalize hend : runLoop (headLive heads) (headStep heads) (fun s => heads.length - s.count)
    { count := 0, returned := false, headermap := m } = s
  have htotal : s.total heads = insertAll m (stored heads) := by
    rw [← hend]
    refine Lib.runLoop_inv (P := fun s : HeadState => s.total heads = insertAll m (stored heads)) ?_
      (total_live heads rfl)
    intro t hlive ht
    rw [total_headStep hlive, ht]
  have hdone : headLive heads s = false := by
    rw [← hend]
    exact Lib.runLoop_done (headStep_falls heads) _
  rw [← htotal]
  dsimp only
  cases hret : s.returned with
  | true =>
    rw [HeadState.total, hret]
    rfl
  | false =>
    have hge : heads.length ≤ s.count := by
      rw [headLive, hret] at hdone
      exact Nat.le_of_not_lt (of_decide_eq_false hdone)
    rw [total_live heads hret, List.drop_eq_nil_of_le hge]
    rfl

/-- **`parse_headers` puts into its mapping what is stored**, in this order. -/
theorem parseHeaders_eq (headers : Str) : parseHeaders headers = insertAll ∅ (stored headers) := by
  unfold parseHeaders
  generalize hend : runLoop headersLive headersStep (fun s => s.1.length) (headers, ∅) = s
  have hinv : insertAll s.2 (stored s.1) = insertAll ∅ (stored headers) := by
    rw [← hend]
    refine Lib.runLoop_inv
      (P := fun s : HeadersState => insertAll s.2 (stored s.1) = insertAll ∅ (stored headers)) ?_ rfl
    intro t _ ht
    rw [← ht]
    exact getNextHeader_stored t.1 t.2
  have hdone : headersLive s = false := by
    rw [← hend]
    exact Lib.runLoop_done headersStep_falls _
  have hnil : s.1 = [] := by
    rw [← List.length_eq_zero_iff]
    exact Nat.eq_zero_of_not_pos (of_decide_eq_false hdone)
  rw [← hinv, hnil]
  rfl

/-! ## Lines -/

/-- A line of a header block, without its end: CRLF, or a LF alone. -/
structure Line where
  content : Str
  crlf : Bool
  noLf : '\n' ∉ content

namespace Line

/-- The line as it stands in the block. -/
def text (l : Line) : Str := l.content ++ if l.crlf then ['\r', '\n'] else ['\n']

def HasColon (l : Line) : Prop := ':' ∈ l.content

instance (l : Line) : Decidable l.HasColon := inferInstanceAs (Decidable (_ ∈ _))

/-- The text before the first ':'. -/
def name (l : Line) : Str := l.content.takeWhile (· ≠ ':')

/-- The text behind it, up to the LF. -/
def after (l : Line) : Str :=
  (l.content.dropWhile (· ≠ ':')).tail ++ if l.crlf then ['\r'] else []

/-- There is a CR behind the first ':', and no other ':' behind that CR. -/
def Closed (l : Line) : Prop := '\r' ∈ l.after ∧ ':' ∉ l.after.dropWhile (· ≠ '\r')

end Line

/-- The block that the lines make up. -/
def block (lines : List Line) : Str := lines.flatMap Line.text

theorem block_cons (l : Line) (lines : List Line) :
    block (l :: lines) = l.text ++ block lines := List.flatMap_cons

/-- The lines with a ':'. -/
def withColon (lines : List Line) : List Line := lines.filter fun l => decide l.HasColon

/-- The entry is the line's. -/
structure Yields (l : Line) (f : Field) : Prop where
  key : f.1 = lowercase l.name
  noLf : '\n' ∉ f.2

/-- What is asked: each line with a ':' yields one entry, in order, and these are all there
are; and the other lines make no difference to them. -/
structure Isolated (lines : List Line) : Prop where
  entries : List.Forall₂ Yields (withColon lines) (stored (block lines))
  others : stored (block lines) = stored (block (withColon lines))

theorem colon_mem_lowercase (s : Str) : ':' ∈ lowercase s ↔ ':' ∈ s := by
  unfold lowercase
  rw [List.mem_map]
  constructor
  · intro h
    obtain ⟨c, hc, he⟩ := h
    split at he
    next hupper =>
      have hletter : ∀ n : Fin 128, 65 ≤ n.val → Char.ofNat (n.val ||| 32) ≠ ':' := by decide
      exact absurd he (hletter ⟨c.toNat, by omega⟩ hupper.1)
    next => rwa [← he]
  · exact fun h => ⟨':', h, rfl⟩

namespace Line

theorem lf_not_mem_after (l : Line) : '\n' ∉ l.after := by
  unfold after
  rw [List.mem_append, not_or]
  constructor
  · exact fun h => l.noLf ((List.dropWhile_sublist _).subset (List.mem_of_mem_tail h))
  · split
    · decide
    · exact List.not_mem_nil

theorem colon_not_mem_name (l : Line) : ':' ∉ l.name := by
  intro h
  unfold name at h
  have hne := List.mem_takeWhile_imp h
  exact of_decide_eq_true hne rfl

theorem text_eq {l : Line} (h : l.HasColon) : l.text = l.name ++ ':' :: (l.after ++ ['\n']) := by
  have hdrop : l.content.dropWhile (· ≠ ':') =
      ':' :: (l.content.dropWhile (· ≠ ':')).tail := by
    cases hd : l.content.dropWhile (· ≠ ':') with
    | nil =>
      rw [List.dropWhile_eq_nil_iff] at hd
      exact absurd rfl (of_decide_eq_true (hd ':' h))
    | cons d t =>
      have hhead := List.head?_dropWhile_not (fun c => decide (c ≠ ':')) l.content
      rw [hd] at hhead
      have hnot : ¬d ≠ ':' := of_decide_eq_false hhead
      rw [not_not.mp hnot]
      rfl
  have hsplit : l.content = l.name ++ ':' :: (l.content.dropWhile (· ≠ ':')).tail := by
    rw [← hdrop]
    exact List.takeWhile_append_dropWhile.symm
  unfold text after
  nth_rewrite 1 [hsplit]
  rw [List.append_assoc, List.cons_append, List.append_assoc]
  cases l.crlf with
  | true => rfl
  | false => rfl

end Line

/-- The LF of a line is at its end. -/
theorem text_lf (l : Line) : ∃ t, l.text = t ++ ['\n'] ∧ '\n' ∉ t := by
  unfold Line.text
  cases l.crlf with
  | true =>
    refine ⟨l.content ++ ['\r'], by simp, ?_⟩
    rw [List.mem_append, not_or]
    exact ⟨l.noLf, by decide⟩
  | false => exact ⟨l.content, rfl, l.noLf⟩

/-! ## What is stored of a line -/

/-- Characters that are neither ':' nor LF are gone over. -/
theorem storedFrom_plain {t : Str} (hcolon : ':' ∉ t) (hlf : '\n' ∉ t) (rest : Str) :
    ∀ seen : Str, storedFrom seen false (t ++ rest) = storedFrom (seen ++ t) false rest := by
  induction t with
  | nil =>
    intro seen
    rw [List.append_nil]
    rfl
  | cons c t ih =>
    intro seen
    rw [List.mem_cons, not_or] at hcolon hlf
    rw [List.cons_append, storedFrom, if_neg Bool.false_ne_true, if_neg (Ne.symm hcolon.1),
      if_neg (Ne.symm hlf.1), ih hcolon.2 hlf.2, List.append_assoc]
    rfl

theorem storedFrom_lf (seen rest : Str) :
    storedFrom seen false ('\n' :: rest) = stored rest := rfl

theorem storedFrom_colon (seen rest : Str) :
    storedFrom seen false (':' :: rest) =
      (lowercase seen, headerValue rest) :: storedFrom (seen ++ [':']) true rest := rfl

theorem takeWhile_until {c : Char} {v : Str} (h : c ∉ v) (w : Str) :
    (v ++ c :: w).takeWhile (· ≠ c) = v := by
  rw [List.takeWhile_append_of_pos, List.takeWhile_cons_of_neg, List.append_nil]
  · simp
  · intro d hd
    refine decide_eq_true fun he => h ?_
    rwa [← he]

theorem dropWhile_until {c : Char} {v : Str} (h : c ∉ v) (w : Str) :
    (v ++ c :: w).dropWhile (· ≠ c) = c :: w := by
  have hsplit := List.takeWhile_append_dropWhile (p := fun d => decide (d ≠ c)) (l := v ++ c :: w)
  rw [takeWhile_until h] at hsplit
  exact List.append_cancel_left hsplit

/-- The scan of a value ends behind its CR. -/
theorem storedFrom_cr {v : Str} (hv : '\r' ∉ v) (seen x : Str) :
    storedFrom seen true (v ++ '\r' :: x) = storedFrom (seen ++ (v ++ ['\r'])) false x := by
  have hlen : (v ++ ['\r']).length = v.length + 1 := List.length_append
  have hsplit : v ++ '\r' :: x = (v ++ ['\r']) ++ x := by
    rw [List.append_assoc]
    rfl
  rw [storedFrom_value, takeWhile_until hv, hsplit, ← hlen, List.take_left, List.drop_left]

/-- A line without a ':' stores nothing. -/
theorem stored_plain {l : Line} (h : ¬l.HasColon) (rest : Str) :
    stored (l.text ++ rest) = stored rest := by
  unfold Line.text stored
  cases l.crlf with
  | true =>
    have hcr : l.content ++ ['\r', '\n'] ++ rest = (l.content ++ ['\r']) ++ '\n' :: rest := by
      rw [List.append_assoc, List.append_assoc]
      rfl
    have hcolon : ':' ∉ l.content ++ ['\r'] := by
      rw [List.mem_append, not_or]
      exact ⟨h, by decide⟩
    have hlf : '\n' ∉ l.content ++ ['\r'] := by
      rw [List.mem_append, not_or]
      exact ⟨l.noLf, by decide⟩
    show storedFrom [] false (l.content ++ ['\r', '\n'] ++ rest) = _
    rw [hcr, storedFrom_plain hcolon hlf]
    rfl
  | false =>
    show storedFrom [] false (l.content ++ ['\n'] ++ rest) = _
    rw [List.append_assoc, storedFrom_plain h l.noLf]
    rfl

/-- A line with a ':' stores an entry under its name first. -/
theorem stored_colon {l : Line} (h : l.HasColon) (rest : Str) :
    stored (l.text ++ rest) = (lowercase l.name, headerValue (l.after ++ '\n' :: rest)) ::
      storedFrom (l.name ++ [':']) true (l.after ++ '\n' :: rest) := by
  have hname : '\n' ∉ l.name := fun hmem => l.noLf ((List.takeWhile_sublist _).subset hmem)
  have htext : l.text ++ rest = l.name ++ ':' :: (l.after ++ '\n' :: rest) := by
    rw [l.text_eq h, List.append_assoc, List.cons_append, List.append_assoc]
    rfl
  rw [stored, htext, storedFrom_plain l.colon_not_mem_name hname, List.nil_append,
    storedFrom_colon]

theorem headerValue_eq (rest : Str) :
    headerValue rest = (rest.takeWhile (· ≠ '\r')).dropWhile (· = ' ') := by
  unfold headerValue
  induction rest with
  | nil => rfl
  | cons c rest ih =>
    by_cases hblank : c = ' '
    · subst hblank
      exact ih
    · have hno : ¬decide (c = ' ') = true := fun h => hblank (of_decide_eq_true h)
      have hnone : (c :: rest).takeWhile (· = ' ') = [] := List.takeWhile_cons_of_neg hno
      rw [hnone, List.length_nil, List.drop_zero]
      by_cases hcr : c = '\r'
      · subst hcr
        rfl
      · have hwhile : (c :: rest).takeWhile (· ≠ '\r') = c :: rest.takeWhile (· ≠ '\r') :=
          List.takeWhile_cons_of_pos (decide_eq_true hcr)
        rw [hwhile, List.dropWhile_cons, if_neg hno]

/-- With a CR behind the ':', the value ends in front of it. -/
theorem headerValue_cr {v : Str} (hv : '\r' ∉ v) (w : Str) :
    headerValue (v ++ '\r' :: w) = v.dropWhile (· = ' ') := by
  rw [headerValue_eq, takeWhile_until hv]

/-- Without one, it goes on behind the LF. -/
theorem lf_mem_headerValue {a : Str} (ha : '\r' ∉ a) (rest : Str) :
    '\n' ∈ headerValue (a ++ '\n' :: rest) := by
  have hwhile : (a ++ '\n' :: rest).takeWhile (· ≠ '\r') =
      a ++ '\n' :: rest.takeWhile (· ≠ '\r') := by
    rw [List.takeWhile_append_of_pos]
    · rfl
    · intro c hc
      refine decide_eq_true fun he => ha ?_
      rwa [← he]
  have hmem : '\n' ∈ a ++ '\n' :: rest.takeWhile (· ≠ '\r') :=
    List.mem_append_right _ List.mem_cons_self
  rw [headerValue_eq, hwhile]
  rw [← List.takeWhile_append_dropWhile (p := fun c => decide (c = ' '))
    (l := a ++ '\n' :: rest.takeWhile (· ≠ '\r')), List.mem_append] at hmem
  rcases hmem with hblank | hmem
  · have hno := List.mem_takeWhile_imp hblank
    exact absurd (of_decide_eq_true hno) (by decide)
  · exact hmem

/-- The value of a line that is closed. -/
def Line.value (l : Line) : Str := (l.after.takeWhile (· ≠ '\r')).dropWhile (· = ' ')

theorem Line.lf_not_mem_value (l : Line) : '\n' ∉ l.value := fun h =>
  l.lf_not_mem_after ((List.takeWhile_sublist _).subset ((List.dropWhile_sublist _).subset h))

/-- A line that is closed stores its entry, and the next line begins anew. -/
theorem stored_closed {l : Line} (h : l.HasColon) (hclosed : l.Closed) (rest : Str) :
    stored (l.text ++ rest) = (lowercase l.name, l.value) :: stored rest := by
  obtain ⟨hcr, hcolon⟩ := hclosed
  have hlf := l.lf_not_mem_after
  obtain ⟨v, w, hafter, hv⟩ := List.eq_append_cons_of_mem hcr
  rw [hafter, dropWhile_until hv] at hcolon
  rw [hafter] at hlf
  have hcolon' : ':' ∉ w := fun hmem => hcolon (List.mem_cons_of_mem _ hmem)
  have hlf' : '\n' ∉ w := fun hmem => hlf (List.mem_append_right _ (List.mem_cons_of_mem _ hmem))
  rw [stored_colon h, hafter, List.append_assoc, List.cons_append, headerValue_cr hv,
    storedFrom_cr hv, storedFrom_plain hcolon' hlf', storedFrom_lf, Line.value, hafter,
    takeWhile_until hv]

/-- A line that is not closed does not yield its entry alone: its value has a LF in it, or there
is a second entry, with a ':' in its key. -/
theorem stored_open {l : Line} (h : l.HasColon) (hopen : ¬l.Closed) (rest : Str) :
    ∃ value fields, stored (l.text ++ rest) = (lowercase l.name, value) :: fields ∧
      ('\n' ∈ value ∨ ∃ key value' fields', fields = (key, value') :: fields' ∧ ':' ∈ key) := by
  refine ⟨_, _, stored_colon h rest, ?_⟩
  by_cases hcr : '\r' ∈ l.after
  -- The CR ends the value, and the key of the next entry begins behind it.
  · right
    have hlf := l.lf_not_mem_after
    have hcolon : ':' ∈ l.after.dropWhile (· ≠ '\r') := by
      by_contra hno
      exact hopen ⟨hcr, hno⟩
    obtain ⟨v, w, hafter, hv⟩ := List.eq_append_cons_of_mem hcr
    rw [hafter, dropWhile_until hv] at hcolon
    have hcolon' : ':' ∈ w := (List.mem_cons.mp hcolon).resolve_left (by decide)
    obtain ⟨x, y, hw, hx⟩ := List.eq_append_cons_of_mem hcolon'
    have hlf' : '\n' ∉ x := by
      intro hmem
      rw [hafter, hw] at hlf
      exact hlf (List.mem_append_right _ (List.mem_cons_of_mem _ (List.mem_append_left _ hmem)))
    have htext : l.after ++ '\n' :: rest = v ++ '\r' :: (x ++ ':' :: (y ++ '\n' :: rest)) := by
      rw [hafter, hw]
      simp only [List.append_assoc, List.cons_append]
    rw [htext, storedFrom_cr hv, storedFrom_plain hx hlf', storedFrom_colon]
    refine ⟨_, _, _, rfl, (colon_mem_lowercase _).mpr ?_⟩
    refine List.mem_append_left _ (List.mem_append_left _ ?_)
    exact List.mem_append_right _ (List.mem_singleton_self _)
  · exact Or.inl (lf_mem_headerValue hcr rest)

/-! ## The lines of a block -/

theorem withColon_cons (l : Line) (lines : List Line) :
    withColon (l :: lines) = if l.HasColon then l :: withColon lines else withColon lines := by
  unfold withColon
  rw [List.filter_cons]
  simp only [decide_eq_true_eq]

/-- What a block stores when its lines with a ':' are closed. -/
theorem stored_block {lines : List Line} (h : ∀ l ∈ lines, l.HasColon → l.Closed) :
    stored (block lines) = (withColon lines).map fun l => (lowercase l.name, l.value) := by
  induction lines with
  | nil => rfl
  | cons l lines ih =>
    rw [List.forall_mem_cons] at h
    rw [block_cons, withColon_cons]
    by_cases hcolon : l.HasColon
    · rw [if_pos hcolon, List.map_cons, stored_closed hcolon (h.1 hcolon), ih h.2]
    · rw [if_neg hcolon, stored_plain hcolon, ih h.2]

/-- Where each line yields its entry, the lines are closed. -/
theorem closed_of_yields {lines : List Line}
    (h : List.Forall₂ Yields (withColon lines) (stored (block lines))) :
    ∀ l ∈ lines, l.HasColon → l.Closed := by
  induction lines with
  | nil => exact nofun
  | cons l lines ih =>
    rw [block_cons, withColon_cons] at h
    by_cases hcolon : l.HasColon
    · rw [if_pos hcolon] at h
      by_cases hclosed : l.Closed
      · rw [stored_closed hcolon hclosed, List.forall₂_cons] at h
        exact List.forall_mem_cons.mpr ⟨fun _ => hclosed, ih h.2⟩
      · exfalso
        obtain ⟨value, fields, hstored, hwrong⟩ := stored_open hcolon hclosed (block lines)
        rw [hstored, List.forall₂_cons] at h
        rcases hwrong with hlf | ⟨key, value', fields', hfields, hkey⟩
        · exact h.1.noLf hlf
        · rw [hfields, List.forall₂_cons_right_iff] at h
          obtain ⟨l', -, hyields, -, -⟩ := h.2
          have hname : key = lowercase l'.name := hyields.key
          rw [hname, colon_mem_lowercase] at hkey
          exact l'.colon_not_mem_name hkey
    · rw [if_neg hcolon, stored_plain hcolon] at h
      exact List.forall_mem_cons.mpr ⟨fun hc => absurd hc hcolon, ih h⟩

/-- **The lines are kept apart** exactly when behind the first ':' of each line there is a CR, and
no other ':' behind that CR. -/
theorem linesIsolated_iff (lines : List Line) :
    Isolated lines ↔ ∀ l ∈ lines, l.HasColon → l.Closed := by
  refine ⟨fun h => closed_of_yields h.entries, fun h => ?_⟩
  have hcolons : ∀ l ∈ withColon lines, l.HasColon → l.Closed :=
    fun l hl => h l (List.mem_of_mem_filter hl)
  have hagain : withColon (withColon lines) = withColon lines :=
    List.filter_eq_self.mpr fun l hl => (List.mem_filter.mp hl).2
  refine ⟨?_, ?_⟩
  · rw [stored_block h, List.forall₂_map_right_iff, List.forall₂_same]
    exact fun l _ => ⟨rfl, l.lf_not_mem_value⟩
  · rw [stored_block h, stored_block hcolons, hagain]

/-- "a:b" and "c:d", the first ended by a LF alone. -/
def loneLf : List Line :=
  [{ content := ['a', ':', 'b'], crlf := false, noLf := by decide },
    { content := ['c', ':', 'd'], crlf := true, noLf := by decide }]

theorem loneLf_runs_on : ¬ ∀ lines : List Line, Isolated lines := by
  intro h
  have hstored : stored (block loneLf) = [(['a'], ['b', '\n', 'c', ':', 'd'])] := by decide
  have hentries := (h loneLf).entries
  rw [hstored] at hentries
  exact absurd (List.Forall₂.length_eq hentries) (by decide)

end Caudium.Http
