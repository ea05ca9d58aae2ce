import Caudium.Http.RequestLine
import Caudium.Http.HeaderLines

/-!
# The header block that `parse_got` hands to `parse_headers`

The request line ends at the first newline, and a CR in front of it is not part of the line: a
line may end in CRLF or in a LF alone. The headers are then `raw[sizeof(line)+2..end-1]`, as if
the line had ended in CRLF. `RequestID.unparsed` is this text in one call of `got_data`, and
`gotData_unparsed` and `gotData_unparsed_none` say that it is what `request_headers` is made from.

However the request is cut, the call that finds the end of the headers has the line and the
position that the whole request has (`HeadRead.run`), and so the text is always `headOf raw`. It
is the block between the request line and the empty line exactly when the line ends in CRLF;
then a field is missing from `request_headers` only if its line begins inside the value of
another (`header_block_iff`).
-/

namespace Caudium.Http

open Lib (Str Mapping search)

/-! ## The names in a block -/

/-- Whether the scan of `parse_headers` is in a value behind `s`: of the ':' and the CR in it the
last one is a ':'. -/
def inValue (start : Bool) (s : Str) : Bool :=
  s.foldl (fun within c => if c = ':' then true else if c = '\r' then false else within) start

@[simp] theorem inValue_nil (start : Bool) : inValue start [] = start := rfl

theorem inValue_cons (start : Bool) (c : Char) (s : Str) : inValue start (c :: s) =
    inValue (if c = ':' then true else if c = '\r' then false else start) s := rfl

theorem inValue_append (start : Bool) (s t : Str) :
    inValue start (s ++ t) = inValue (inValue start s) t := List.foldl_append

/-- A line has this name, in lower case, and does not begin inside a value. -/
def NameRead (start : Bool) (lines : List Line) (k : Str) : Prop :=
  ∃ before l behind, lines = before ++ l :: behind ∧ l.HasColon ∧ lowercase l.name = k ∧
    inValue start (block before) = false

theorem nameRead_cons (start : Bool) (l : Line) (lines : List Line) (k : Str) :
    NameRead start (l :: lines) k ↔ (start = false ∧ l.HasColon ∧ lowercase l.name = k) ∨
      NameRead (inValue start l.text) lines k := by
  constructor
  · intro h
    obtain ⟨before, l', behind, hlines, hcolon, hname, hbefore⟩ := h
    cases before with
    | nil =>
      obtain ⟨rfl, -⟩ := List.cons.inj hlines
      exact Or.inl ⟨hbefore, hcolon, hname⟩
    | cons l₀ before =>
      obtain ⟨rfl, htail⟩ := List.cons.inj hlines
      rw [block_cons, inValue_append] at hbefore
      exact Or.inr ⟨before, l', behind, htail, hcolon, hname, hbefore⟩
  · intro h
    obtain ⟨hstart, hcolon, hname⟩ | ⟨before, l', behind, hlines, hcolon, hname, hbefore⟩ := h
    · exact ⟨[], l, lines, rfl, hcolon, hname, hstart⟩
    · refine ⟨l :: before, l', behind, by rw [hlines]; rfl, hcolon, hname, ?_⟩
      rw [block_cons, inValue_append]
      exact hbefore

/-- The keys under which something is stored. -/
abbrev keysOf (fields : List Field) : List Str := fields.map Prod.fst

section Names

variable {k : Str}

/-- To the end of a line: what has a ':' in front of it in the same call is not stored under `k`,
which has none. -/
theorem mem_keys_line (hk : ':' ∉ k) {t : Str} (ht : '\n' ∉ t) (rest : Str) :
    ∀ (seen : Str) (start : Bool), ':' ∈ seen →
      (k ∈ keysOf (storedFrom seen start (t ++ '\n' :: rest)) ↔
        if inValue start t then k ∈ keysOf (storedFrom (seen ++ (t ++ ['\n'])) true rest)
        else k ∈ keysOf (stored rest)) := by
  induction t with
  | nil =>
    intro seen start _
    cases start with
    | true => rfl
    | false => rfl
  | cons c t ih =>
    intro seen start hseen
    rw [List.mem_cons, not_or] at ht
    have hseen' : ':' ∈ seen ++ [c] := List.mem_append_left _ hseen
    have hassoc : seen ++ (c :: t ++ ['\n']) = (seen ++ [c]) ++ (t ++ ['\n']) := by simp
    rw [List.cons_append, storedFrom, inValue_cons, hassoc]
    cases start with
    | true =>
      have hnext : (if c = ':' then true else if c = '\r' then false else true) =
          decide (c ≠ '\r') := by
        by_cases hcolon : c = ':'
        · subst hcolon
          rfl
        · rw [if_neg hcolon]
          by_cases hcr : c = '\r' <;> simp [hcr]
      rw [if_pos rfl, hnext]
      exact ih ht.2 _ _ hseen'
    | false =>
      rw [if_neg Bool.false_ne_true]
      by_cases hcolon : c = ':'
      · -- the key is all that the call has gone over
        have hkey : k ≠ lowercase seen := by
          intro h
          subst h
          exact hk ((colon_mem_lowercase seen).mpr hseen)
        rw [if_pos hcolon, if_pos hcolon, keysOf, List.map_cons, List.mem_cons, or_iff_right hkey]
        exact ih ht.2 _ _ hseen'
      · have hcr : (if c = '\r' then false else false) = false := ite_self false
        rw [if_neg hcolon, if_neg hcolon, if_neg (Ne.symm ht.1), hcr]
        exact ih ht.2 _ _ hseen'

theorem inValue_plain {s : Str} (h : ':' ∉ s) : inValue false s = false := by
  induction s with
  | nil => rfl
  | cons c s ih =>
    rw [List.mem_cons, not_or] at h
    rw [inValue_cons, if_neg (Ne.symm h.1), ite_self]
    exact ih h.2

theorem inValue_lf (start : Bool) (t : Str) : inValue start (t ++ ['\n']) = inValue start t := by
  rw [inValue_append]
  rfl

/-- **The names**: what a block stores something under, apart from keys with a ':' in them. The
second part is about a block that begins inside a value. -/
theorem mem_keys_block (hk : ':' ∉ k) (lines : List Line) :
    (k ∈ keysOf (stored (block lines)) ↔ NameRead false lines k) ∧
      ∀ seen, ':' ∈ seen →
        (k ∈ keysOf (storedFrom seen true (block lines)) ↔ NameRead true lines k) := by
  induction lines with
  | nil =>
    have hnone : ∀ start, ¬NameRead start [] k := by
      intro start hand
      obtain ⟨before, l, behind, hlines, -⟩ := hand
      exact List.append_ne_nil_of_right_ne_nil before (List.cons_ne_nil l behind) hlines.symm
    exact ⟨iff_of_false List.not_mem_nil (hnone false),
      fun seen _ => iff_of_false List.not_mem_nil (hnone true)⟩
  | cons l lines ih =>
    obtain ⟨ih, ihValue⟩ := ih
    have hbehind : ∀ {t : Str} {start : Bool} (seen : Str), '\n' ∉ t → ':' ∈ seen →
        (k ∈ keysOf (storedFrom seen start (t ++ '\n' :: block lines)) ↔
          NameRead (inValue start t) lines k) := by
      intro t start seen ht hseen
      rw [mem_keys_line hk ht _ seen start hseen]
      cases inValue start t with
      | true => exact ihValue _ (List.mem_append_left _ hseen)
      | false => exact ih
    refine ⟨?_, fun seen hseen => ?_⟩
    · rw [nameRead_cons, block_cons]
      by_cases hcolon : l.HasColon
      · have hwithin : inValue false l.text = inValue true l.after := by
          rw [l.text_eq hcolon, inValue_append, inValue_plain l.colon_not_mem_name, inValue_cons,
            if_pos rfl, inValue_lf]
        have hseen : ':' ∈ l.name ++ [':'] := List.mem_append_right _ List.mem_cons_self
        rw [stored_colon hcolon, keysOf, List.map_cons, List.mem_cons, hwithin,
          hbehind _ l.lf_not_mem_after hseen]
        refine or_congr_left ⟨fun he => ⟨rfl, hcolon, he.symm⟩, fun h => h.2.2.symm⟩
      · have hwithin : inValue false l.text = false := by
          refine inValue_plain ?_
          unfold Line.text
          rw [List.mem_append, not_or]
          refine ⟨hcolon, ?_⟩
          cases l.crlf <;> decide
        rw [stored_plain hcolon, hwithin, ih]
        exact (or_iff_right fun h => hcolon h.2.1).symm
    · obtain ⟨t, htext, ht⟩ := text_lf l
      rw [nameRead_cons, block_cons, htext, List.append_assoc, inValue_lf]
      exact (hbehind seen ht hseen).trans (or_iff_right fun h => Bool.noConfusion h.1).symm

end Names

/-- The CRLF at the end of a block makes no difference. -/
theorem storedFrom_crlf (t : Str) : ∀ (seen : Str) (within : Bool),
    storedFrom seen within (t ++ ['\r', '\n']) = storedFrom seen within t := by
  induction t with
  | nil =>
    intro seen within
    cases within <;> rfl
  | cons c t ih =>
    intro seen within
    have hvalue : headerValue (t ++ ['\r', '\n']) = headerValue t := by
      rw [headerValue_eq, headerValue_eq, List.takeWhile_append]
      split
      next h =>
        rw [List.takeWhile_cons_of_neg (by decide), List.append_nil,
          List.takeWhile_eq_self_iff.mpr]
        exact List.takeWhile_eq_self_iff.mp ((List.takeWhile_prefix _).eq_of_length h)
      next h => rfl
    rw [List.cons_append, storedFrom, storedFrom, ih, ih, ih, ih, hvalue]

theorem mem_insertAll (k : Str) (fields : List Field) :
    ∀ m : Mapping Str Str, k ∈ insertAll m fields ↔ k ∈ m ∨ k ∈ keysOf fields := by
  induction fields with
  | nil =>
    intro m
    exact (or_iff_left List.not_mem_nil).symm
  | cons f fields ih =>
    intro m
    show k ∈ insertAll (m.insert f.1 f.2) fields ↔ _
    have hkeys : k ∈ keysOf (f :: fields) ↔ k = f.1 ∨ k ∈ keysOf fields := List.mem_cons
    rw [ih, AList.mem_insert, hkeys, or_assoc, or_left_comm]

/-- The keys of `request_headers`. -/
theorem mem_parseHeaders (k s : Str) : k ∈ parseHeaders s ↔ k ∈ keysOf (stored s) := by
  rw [parseHeaders_eq, mem_insertAll]
  exact or_iff_right (AList.notMem_empty k)

/-! ## The text that is handed on -/

/-- Behind the request line: the object and the position when the end of the headers is found. -/
def RequestID.endAfterLine (id : RequestID) : Option (RequestID × Nat) :=
  match scanLine id.line with
  | .short _ => none
  | .full method f clientprot =>
    let id := { id with
      method := some method, f := f, clientprot := clientprot, prot := protOf clientprot }
    match search (id.raw.drop id.lastSearch) crlf2 with
    | none => none
    | some k => some ({ id.allowCache with lastSearch := 0 }, k + id.lastSearch)

/-- The same for a call of `parse_got`, whether it reads the request line or not. -/
def RequestID.endFound (id : RequestID) : Option (RequestID × Nat) :=
  match id.method with
  | none =>
    match search (id.raw.drop id.lastSearch) "\n".toList with
    | none => none
    | some k =>
      let start := k + id.lastSearch
      if start = 0 then none
      else
        let id := { id with lastSearch := 0, line := cutLine id.raw start }
        if id.line.length < 4 then none else id.endAfterLine
  | some _ =>
    match search (id.raw.drop id.lastSearch) crlf2 with
    | none => none
    | some k => some (id, k + id.lastSearch)

/-- `s`, when `parse_got` comes to the headers: their end is found, and nothing in the URL has
thrown. -/
def RequestID.unparsedIn (env : Env) (id : RequestID) : Option Str :=
  match id.endFound with
  | none => none
  | some (id, hend) =>
    match ({ id with data := some (id.raw.drop (hend + 4)) }.setRawUrl.scanUrl env).1 with
    | none => none
    | some _ => some (slice id.raw (id.line.length + 2) hend)

/-- The same in `addData`. -/
def RequestID.addUnparsed (env : Env) (id : RequestID) (s : Str) : Option Str :=
  let id := { id with raw := id.raw ++ s }
  if 0 < id.wantedData ∧ (id.raw.length : Int) < id.wantedData then none
  else if id.raw = [] then none
  else id.unparsedIn env

/-- **The unparsed headers** that a call of `got_data` hands to `parse_headers`, when it comes to
them. -/
def RequestID.unparsed (env : Env) (id : RequestID) (s : Str) : Option Str :=
  if 0 < id.unreadData then
    if id.unreadData < s.length then
      { id with unreadData := 0 }.addUnparsed env (s.drop id.unreadData.toNat)
    else none
  else id.addUnparsed env s

section Handed

variable {env : Env}

/-- A call goes on from the end of the headers, or leaves `request_headers` as it is. -/
theorem parseLine_cases (id : RequestID) :
    (∃ id' hend, id.endAfterLine = some (id', hend) ∧ id'.requestHeaders = id.requestHeaders ∧
      id.parseLine env = id'.parseFrom env hend) ∨
    (id.endAfterLine = none ∧ (id.parseLine env).2.requestHeaders = id.requestHeaders) := by
  unfold RequestID.endAfterLine RequestID.parseLine
  cases scanLine id.line with
  | short method =>
    refine Or.inr ⟨rfl, ?_⟩
    dsimp only
    split <;> rfl
  | full method f clientprot =>
    dsimp only
    cases search (id.raw.drop id.lastSearch) crlf2 with
    | none => exact Or.inr ⟨rfl, rfl⟩
    | some k =>
      refine Or.inl ⟨_, _, rfl, ?_, rfl⟩
      unfold RequestID.allowCache
      split <;> rfl

theorem parseGot_cases (id : RequestID) :
    (∃ id' hend, id.endFound = some (id', hend) ∧ id'.requestHeaders = id.requestHeaders ∧
      id.parseGot env = id'.parseFrom env hend) ∨
    (id.endFound = none ∧ (id.parseGot env).2.requestHeaders = id.requestHeaders) := by
  unfold RequestID.endFound RequestID.parseGot
  cases id.method with
  | none =>
    dsimp only
    cases search (id.raw.drop id.lastSearch) "\n".toList with
    | none => exact Or.inr ⟨rfl, rfl⟩
    | some k =>
      dsimp only
      by_cases hstart : k + id.lastSearch = 0
      · rw [if_pos hstart, if_pos hstart]
        exact Or.inr ⟨rfl, rfl⟩
      · rw [if_neg hstart, if_neg hstart]
        by_cases hlong : (cutLine id.raw (k + id.lastSearch)).length < 4
        · rw [if_pos hlong, if_pos hlong]
          exact Or.inr ⟨rfl, rfl⟩
        · rw [if_neg hlong, if_neg hlong]
          exact parseLine_cases
            { id with lastSearch := 0, line := cutLine id.raw (k + id.lastSearch) }
  | some method =>
    dsimp only
    cases search (id.raw.drop id.lastSearch) crlf2 with
    | none => exact Or.inr ⟨rfl, rfl⟩
    | some k => exact Or.inl ⟨_, _, rfl, rfl, rfl⟩

theorem parseGot_found {id id' : RequestID} {hend : Nat} (h : id.endFound = some (id', hend)) :
    id.parseGot env = id'.parseFrom env hend := by
  rcases parseGot_cases id with ⟨id₁, hend₁, hfound, -, hcall⟩ | ⟨hnone, -⟩
  · rw [h] at hfound
    cases hfound
    exact hcall
  · rw [h] at hnone
    cases hnone

/-- `indices` lists keys, so that no header is visited that is not there. -/
theorem headerCase_keys (id : RequestID) {linename : Str} (h : linename ∈ id.requestHeaders)
    (k : Str) : k ∈ (id.headerCase env linename).2.requestHeaders ↔ k ∈ id.requestHeaders := by
  unfold RequestID.headerCase
  split
  · obtain ⟨vars, empty, data, leftovers, len, have_, wanted, heq, -⟩ := contentLength_eq env id
    rw [heq]
  · split
    · rw [AList.mem_insert, or_iff_right_of_imp]
      intro he
      rw [he]
      exact h
    · split
      · obtain ⟨misc, hmisc⟩ := addMisc_eq id linename
        rw [hmisc]
      · exact Iff.rfl

theorem headerCases_keys (names : List Str) : ∀ id : RequestID,
    (∀ linename ∈ names, linename ∈ id.requestHeaders) → ∀ k,
      (k ∈ (headerCases env names id).2.requestHeaders ↔ k ∈ id.requestHeaders) := by
  induction names with
  | nil => exact fun id _ k => Iff.rfl
  | cons linename rest ih =>
    intro id hnames k
    have hstep := @headerCase_keys env id linename (hnames linename List.mem_cons_self)
    cases hcase : (id.headerCase env linename).1 with
    | none =>
      rw [headerCases_goesOn hcase, ih, hstep]
      exact fun n hn => (hstep n).mpr (hnames n (List.mem_cons_of_mem _ hn))
    | some g => rw [headerCases_stops hcase, hstep]

/-- What a pass makes of the headers it is handed. -/
theorem parseRest_keys (henv : env.Lawful) {id : RequestID} {s : Str}
    (h : (id.setRawUrl.scanUrl env).1 ≠ none) (hs : s ≠ []) (k : Str) :
    k ∈ (id.parseRest env s).2.requestHeaders ↔ k ∈ parseHeaders s := by
  obtain ⟨config, hconfig⟩ := Option.ne_none_iff_exists'.mp h
  rw [parseRest_eq hconfig, withHeaders_ne hs, visited, if_neg hs]
  refine headerCases_keys _ _ (fun linename hmem => ?_) k
  exact (henv.indices_perm _).mem_iff.mp hmem

/-- Where a call hands on a text, the pass is made with this text. -/
theorem gotData_unparsed {id : RequestID} {s t : Str} (hunread : id.unreadData = 0)
    (h : id.unparsed env s = some t) :
    ∃ id' hend, ({ id with raw := id.raw ++ s } : RequestID).endFound = some (id', hend) ∧
      t = slice id'.raw (id'.line.length + 2) hend ∧
      ({ id' with data := some (id'.raw.drop (hend + 4)) }.setRawUrl.scanUrl env).1 ≠ none ∧
      id.gotData env s =
        { id' with data := some (id'.raw.drop (hend + 4)) }.parseRest env t := by
  rw [RequestID.unparsed, if_neg (by omega), RequestID.addUnparsed] at h
  rw [RequestID.gotData, if_neg (by omega), RequestID.addData]
  dsimp only at h ⊢
  split at h
  next => cases h
  next hwait =>
    rw [if_neg hwait]
    split at h
    next => cases h
    next hraw =>
      rw [if_neg hraw]
      unfold RequestID.unparsedIn at h
      split at h
      next => cases h
      next id' hend hfound =>
        split at h
        next => cases h
        next config hconfig =>
          obtain rfl := Option.some.inj h
          refine ⟨id', hend, hfound, rfl, ?_, ?_⟩
          · rw [hconfig]
            exact Option.some_ne_none config
          · rw [parseGot_found hfound, RequestID.parseFrom]

theorem addData_unparsed_none (henv : env.Lawful) {id : RequestID} {s : Str}
    (h : id.addUnparsed env s = none) :
    (id.addData env s).2.requestHeaders = id.requestHeaders := by
  unfold RequestID.addUnparsed at h
  unfold RequestID.addData
  dsimp only at h ⊢
  split
  next => rfl
  next hwait =>
    rw [if_neg hwait] at h
    split
    next => rfl
    next hraw =>
      rw [if_neg hraw, RequestID.unparsedIn] at h
      rcases @parseGot_cases env { id with raw := id.raw ++ s } with
        ⟨id', hend, hfound, hkept, hcall⟩ | ⟨-, hkept⟩
      · rw [hfound] at h
        dsimp only at h
        split at h
        next hthrown =>
          obtain ⟨uri, f, query, vars, empty, prestate, notQuery, hafter, -⟩ :=
            afterUrl_eq henv { id' with data := some (id'.raw.drop (hend + 4)) }
          rw [hcall, RequestID.parseFrom, parseRest_thrown hthrown, hafter]
          exact hkept
        next => cases h
      · exact hkept

/-- Where a call hands on no text, it leaves `request_headers` as it is. -/
theorem gotData_unparsed_none (henv : env.Lawful) {id : RequestID} {s : Str}
    (h : id.unparsed env s = none) :
    (id.gotData env s).2.requestHeaders = id.requestHeaders := by
  unfold RequestID.unparsed at h
  unfold RequestID.gotData
  split
  next hunread =>
    rw [if_pos hunread] at h
    split
    next hmore =>
      rw [if_pos hmore] at h
      exact addData_unparsed_none henv h
    next => rfl
  next hunread =>
    rw [if_neg hunread] at h
    exact addData_unparsed_none henv h

end Handed

/-! ## The request while it arrives -/

section Run

variable {env : Env} {raw method f clientprot : Str} {n e : Nat}

theorem endFound_none {id : RequestID} (h : search id.raw crlf2 = none) : id.endFound = none := by
  unfold RequestID.endFound
  cases id.method with
  | none =>
    cases search (id.raw.drop id.lastSearch) "\n".toList with
    | none => rfl
    | some k =>
      dsimp only
      split
      · rfl
      · split
        · rfl
        · unfold RequestID.endAfterLine
          dsimp only
          rw [Lib.search_drop_none h]
          split <;> rfl
  | some method =>
    dsimp only
    rw [Lib.search_drop_none h]

/-- The request line is read, and `last_search` is not past the end of the headers. -/
structure LineRead (raw method : Str) (e : Nat) (arrived : Str) (id : RequestID) : Prop where
  arrived : id.raw = arrived
  methodSet : id.method = some method
  lineSet : id.line = lineOf raw
  lastSearch : id.lastSearch ≤ e
  unreadData : id.unreadData = 0

/-- The object when `arrived` is there: the first newline has not been found, or the line is
read. -/
inductive HeadRead (raw method : Str) (n e : Nat) (arrived : Str) (id : RequestID) : Prop
  | noLine (last : Nat) (hlast : last ≤ n)
      (hid : id = { RequestID.fresh with raw := arrived, lastSearch := last })
  | lineRead (hread : LineRead raw method e arrived id)

theorem HeadRead.unread {arrived : Str} {id : RequestID} (h : HeadRead raw method n e arrived id) :
    id.unreadData = 0 ∧ id.raw = arrived := by
  cases h with
  | noLine last hlast hid =>
    subst hid
    exact ⟨rfl, rfl⟩
  | lineRead hread => exact ⟨hread.unreadData, hread.arrived⟩

theorem HeadRead.append {arrived : Str} {id : RequestID} (h : HeadRead raw method n e arrived id)
    (s : Str) : HeadRead raw method n e (arrived ++ s) { id with raw := id.raw ++ s } := by
  cases h with
  | noLine last hlast hid =>
    subst hid
    exact HeadRead.noLine last hlast rfl
  | lineRead hread =>
    exact HeadRead.lineRead ⟨by rw [hread.arrived], hread.methodSet, hread.lineSet,
      hread.lastSearch, hread.unreadData⟩

/-- The call that reads the line and finds the end of the headers behind it. -/
theorem endFound_line (h : Parts raw n e method f clientprot) {arrived rest : Str} {last : Nat}
    (hraw : raw = arrived ++ rest) (hlast : last ≤ n) (hhead : search arrived crlf2 ≠ none) :
    ∃ id', ({ RequestID.fresh with raw := arrived, lastSearch := last } : RequestID).endFound =
      some (id', e) ∧ LineRead raw method e arrived id' := by
  have hle := (head_le h hraw).mp hhead
  have hn : n < arrived.length := by
    have := h.newline_le
    omega
  have hnewline := h.newline
  rw [hraw] at hnewline
  have hfound := Lib.search_drop_some (Lib.search_take hnewline hn) hlast
  have hfour := h.four_le
  have hlong := h.long
  obtain ⟨ok, hcache, -⟩ := started_allowCache raw arrived method f clientprot
  refine ⟨{ started raw arrived method f clientprot with cacheControlOk := ok }, ?_,
    rfl, rfl, rfl, Nat.zero_le e, rfl⟩
  unfold RequestID.endFound
  dsimp only [RequestID.fresh]
  rw [hfound]
  dsimp only
  rw [Nat.sub_add_cancel hlast, if_neg (by omega), h.cutLine_arrived hraw hn, if_neg (by omega)]
  unfold RequestID.endAfterLine
  dsimp only
  rw [h.line]
  dsimp only
  rw [List.drop_zero, head_some h hraw hhead]
  show some ({ (started raw arrived method f clientprot).allowCache with lastSearch := 0 }, e) = _
  rw [hcache]
  rfl

/-- A later call. -/
theorem endFound_read (h : Parts raw n e method f clientprot) {arrived rest : Str} {id : RequestID}
    (hraw : raw = arrived ++ rest) (hread : LineRead raw method e arrived id)
    (hhead : search arrived crlf2 ≠ none) : id.endFound = some (id, e) := by
  unfold RequestID.endFound
  rw [hread.methodSet]
  dsimp only
  rw [hread.arrived, Lib.search_drop_some (head_some h hraw hhead) hread.lastSearch]
  dsimp only
  rw [Nat.sub_add_cancel hread.lastSearch]

/-- A call before the end of the headers is there. -/
theorem HeadRead.more (h : Parts raw n e method f clientprot) {arrived rest : Str} {id : RequestID}
    (hraw : raw = arrived ++ rest) (hid : HeadRead raw method n e arrived id)
    (hnone : search arrived crlf2 = none) :
    HeadRead raw method n e arrived (id.parseGot env).2 := by
  have hlast : arrived.length - 5 ≤ e := by
    have hnot : ¬e + 4 ≤ arrived.length := fun hle => (head_le h hraw).mpr hle hnone
    omega
  cases hid with
  | noLine last hlast' hid =>
    subst hid
    by_cases hline : search arrived "\n".toList = none
    · rw [parseGot_noLine hline]
      have hnot : ¬n < arrived.length := fun hlt => (line_le h hraw).mpr hlt hline
      have hfour := h.four_le
      exact HeadRead.noLine _ (by omega) rfl
    · rw [parseGot_line h hraw ((line_le h hraw).mp hline) hlast', parseLine_more h hnone]
      exact HeadRead.lineRead ⟨rfl, rfl, rfl, hlast, rfl⟩
  | lineRead hread =>
    rw [parseGot_more hread.methodSet (by rw [hread.arrived]; exact hnone)]
    exact HeadRead.lineRead ⟨hread.arrived, hread.methodSet, hread.lineSet,
      by rw [hread.arrived]; exact hlast, hread.unreadData⟩

/-- The end is found at its place in the whole request. -/
theorem HeadRead.found (h : Parts raw n e method f clientprot) {arrived rest : Str} {id : RequestID}
    (hraw : raw = arrived ++ rest) (hid : HeadRead raw method n e arrived id)
    (hhead : search arrived crlf2 ≠ none) :
    ∃ id', id.endFound = some (id', e) ∧ LineRead raw method e arrived id' := by
  cases hid with
  | noLine last hlast hid =>
    subst hid
    exact endFound_line h hraw hlast hhead
  | lineRead hread => exact ⟨id, endFound_read h hraw hread hhead, hread⟩

/-- The step: one more chunk. -/
theorem HeadRead.step (henv : env.Lawful) (h : Parts raw n e method f clientprot)
    {arrived s rest : Str} {id : RequestID} (hraw : raw = (arrived ++ s) ++ rest)
    (hid : HeadRead raw method n e arrived id) :
    HeadRead raw method n e (arrived ++ s) (id.gotData env s).2 := by
  have hnext := hid.append s
  rw [RequestID.gotData, if_neg (by rw [hid.unread.1]; omega), RequestID.addData]
  dsimp only
  split
  · exact hnext
  · split
    · exact hnext
    · by_cases hhead : search (arrived ++ s) crlf2 = none
      · exact hnext.more h hraw hhead
      · obtain ⟨id', hfound, hread⟩ := hnext.found h hraw hhead
        have hpass := parseRest_spec henv { id' with data := some (id'.raw.drop (e + 4)) }
          (slice id'.raw (id'.line.length + 2) e)
        rw [parseGot_found hfound, RequestID.parseFrom]
        exact HeadRead.lineRead {
          arrived := hpass.raw.trans hread.arrived
          methodSet := hpass.method.trans hread.methodSet
          lineSet := hpass.line.trans hread.lineSet
          lastSearch := hpass.lastSearch.trans_le hread.lastSearch
          unreadData := hpass.unreadData.trans hread.unreadData }

/-- The run: as long as `parse_got` does not answer. -/
theorem HeadRead.run (henv : env.Lawful) (h : Parts raw n e method f clientprot) {rest : Str}
    (cs : List Str) : ∀ {arrived : Str} {id id' : RequestID}, raw = (arrived ++ cs.flatten) ++ rest →
      HeadRead raw method n e arrived id → receive env id cs = (.more, id') →
        HeadRead raw method n e (arrived ++ cs.flatten) id' := by
  induction cs with
  | nil =>
    intro arrived id id' _ hid hrun
    cases hrun
    rwa [List.flatten_nil, List.append_nil]
  | cons s cs ih =>
    intro arrived id id' hraw hid hrun
    rw [List.flatten_cons, ← List.append_assoc] at hraw ⊢
    have hstep := hid.step henv h (hraw.trans (List.append_assoc _ _ _))
    obtain ⟨g, next, hg⟩ : ∃ g next, id.gotData env s = (g, next) := ⟨_, _, rfl⟩
    rw [hg] at hstep
    rw [receive, hg] at hrun
    cases g with
    | more => exact ih hraw hstep hrun
    | thrown => exact ih hraw hstep hrun
    | stupid => cases hrun
    | closed => cases hrun
    | done => cases hrun

/-- **The text is always the same**: whatever the cuts, a call hands on `headOf` of the request. -/
theorem unparsed_eq (henv : env.Lawful) (h : Parts raw n e method f clientprot) {cs : List Str}
    {s t : Str} {id : RequestID} (hraw : (cs ++ [s]).flatten = raw)
    (hrun : receive env RequestID.fresh cs = (.more, id)) (ht : id.unparsed env s = some t) :
    t = headOf raw ∧
      (t ≠ [] → ∀ k, k ∈ (id.gotData env s).2.requestHeaders ↔ k ∈ parseHeaders t) := by
  have hraw' : raw = (cs.flatten ++ s) ++ [] := by simp [← hraw]
  have hread := HeadRead.run henv h cs (hraw'.trans (List.append_assoc _ _ _))
    (HeadRead.noLine 0 (Nat.zero_le n) rfl) hrun
  rw [List.nil_append] at hread
  obtain ⟨id', hend, hfound, htext, hscan, hpass⟩ := gotData_unparsed hread.unread.1 ht
  have hhead : search (cs.flatten ++ s) crlf2 ≠ none := by
    intro hnone
    have hraws : ({ id with raw := id.raw ++ s } : RequestID).raw = cs.flatten ++ s := by
      rw [hread.unread.2]
    rw [endFound_none (by rw [hraws]; exact hnone)] at hfound
    cases hfound
  obtain ⟨id₁, hfound₁, hline⟩ := (hread.append s).found h hraw' hhead
  rw [hfound] at hfound₁
  cases hfound₁
  refine ⟨?_, fun hne k => ?_⟩
  · rw [htext, hline.arrived, hline.lineSet, headOf, h.headEnd_eq]
    rw [List.append_nil] at hraw'
    rw [hraw']
  · rw [hpass]
    exact parseRest_keys henv hscan hne k

end Run

/-! ## Requests with headers -/

/-- A request: its first line and how it ends, the header lines, and what is behind the empty
line. -/
structure HeadedRequest where
  line : Str
  crlf : Bool
  fields : List Line
  body : Str

namespace HeadedRequest

/-- The end of the request line. -/
def eol (r : HeadedRequest) : Str := if r.crlf then ['\r', '\n'] else ['\n']

def raw (r : HeadedRequest) : Str := r.line ++ (r.eol ++ (block r.fields ++ '\r' :: '\n' :: r.body))

/-- What is between the end of the request line and the "\r\n\r\n" of the empty line. -/
def between (r : HeadedRequest) : Str := (block r.fields).take ((block r.fields).length - 2)

/-- Where the "\r\n\r\n" is. -/
def blank (r : HeadedRequest) : Nat := r.line.length + r.eol.length + r.between.length

/-- `parse_got` can read the request line, there is a header line, and the first empty line is
the one behind the header lines. -/
structure WellFormed (r : HeadedRequest) : Prop where
  noLf : '\n' ∉ r.line
  noCr : r.crlf = false → r.line.getLast? ≠ some '\r'
  long : 4 ≤ r.line.length
  scan : ∃ method f clientprot, scanLine r.line = .full method f clientprot
  headed : r.between ≠ []
  empty : search r.raw crlf2 = some r.blank

variable {r : HeadedRequest}

theorem length_block (h : r.WellFormed) : (block r.fields).length = r.between.length + 2 := by
  have hpos := List.length_pos_of_ne_nil h.headed
  have htake : r.between.length = (block r.fields).length - 2 := by
    rw [between, List.length_take]
    omega
  omega

/-- The last header line ends in CRLF. -/
theorem block_eq (h : r.WellFormed) : block r.fields = r.between ++ ['\r', '\n'] := by
  have hlen := length_block h
  have hsplit : block r.fields = r.between ++ (block r.fields).drop r.between.length := by
    conv_lhs => rw [← List.take_append_drop r.between.length (block r.fields)]
    rw [between, List.length_take]
    congr 2
    omega
  have hdrop : r.raw.drop r.blank =
      (block r.fields).drop r.between.length ++ '\r' :: '\n' :: r.body := by
    rw [raw, blank, Nat.add_assoc, ← List.drop_drop, List.drop_left, ← List.drop_drop,
      List.drop_left, List.drop_append_of_le_length (by omega)]
  obtain ⟨hat, -⟩ := Lib.search_eq_some.mp h.empty
  rw [hdrop] at hat
  have htwo : ((block r.fields).drop r.between.length).length = 2 := by
    rw [List.length_drop]
    omega
  obtain ⟨a, b, hab⟩ := List.length_eq_two.mp htwo
  rw [hab] at hat hsplit
  obtain ⟨ha, hat⟩ := List.cons_prefix_cons.mp hat
  obtain ⟨hb, -⟩ := List.cons_prefix_cons.mp hat
  rw [← ha, ← hb] at hsplit
  exact hsplit

theorem parts (h : r.WellFormed) :
    lineOf r.raw = r.line ∧ ∃ n method f clientprot, Parts r.raw n r.blank method f clientprot := by
  obtain ⟨method, f, clientprot, hscan⟩ := h.scan
  obtain ⟨n, hnewline, hcut⟩ : ∃ n, search r.raw "\n".toList = some n ∧
      cutLine r.raw n = r.line := by
    unfold raw eol
    cases hcrlf : r.crlf with
    | true => exact ⟨_, cutLine_crlf h.noLf _⟩
    | false =>
      have hlong := h.long
      have hne : r.line ≠ [] := List.ne_nil_of_length_pos (by omega)
      refine ⟨_, cutLine_lf h.noLf hne (fun he => h.noCr hcrlf ?_) _⟩
      rw [List.getLast?_eq_some_getLast hne, he]
  have hline : lineOf r.raw = r.line := by rw [lineOf, hnewline, Option.getD_some, hcut]
  exact ⟨hline, n, method, f, clientprot, hnewline, by rw [hline]; exact h.long,
    by rw [hline]; exact hscan, h.empty⟩

/-- What the call hands on: behind a LF alone, the first character is missing. -/
theorem headOf_raw (h : r.WellFormed) :
    headOf r.raw = if r.crlf then r.between else r.between.tail := by
  obtain ⟨hline, n, method, f, clientprot, hparts⟩ := parts h
  have htake : r.raw.take r.blank = r.line ++ (r.eol ++ r.between) := by
    have hlen : r.blank = (r.line ++ (r.eol ++ r.between)).length := by
      simp [blank, Nat.add_assoc]
    have hraw : r.raw =
        (r.line ++ (r.eol ++ r.between)) ++ '\r' :: '\n' :: '\r' :: '\n' :: r.body := by
      rw [raw, block_eq h]
      simp
    rw [hraw, hlen, List.take_left]
  rw [headOf, hparts.headEnd_eq, hline, slice, htake, ← List.drop_drop, List.drop_left, eol]
  cases r.crlf with
  | true => rfl
  | false =>
    show (r.between).drop 1 = _
    rw [List.drop_one]
    rfl

end HeadedRequest

/-- The call hands on the header block as `t`, and the object has every field under its name. -/
structure HandsBlock (r : HeadedRequest) (t : Str) (id : RequestID) : Prop where
  block : t = r.between
  names : ∀ l ∈ r.fields, l.HasColon → lowercase l.name ∈ id.requestHeaders

/-- **The header block is right exactly when the request line ends in CRLF**, and then every field
is there under its name exactly when a line of this name does not begin inside the value of
another. -/
theorem header_block_iff {env : Env} (henv : env.Lawful) {r : HeadedRequest} (hr : r.WellFormed)
    {cs : List Str} {s t : Str} {id : RequestID} (hraw : (cs ++ [s]).flatten = r.raw)
    (hrun : receive env RequestID.fresh cs = (.more, id)) (ht : id.unparsed env s = some t) :
    HandsBlock r t (id.gotData env s).2 ↔
      r.crlf = true ∧ ∀ l ∈ r.fields, l.HasColon → NameRead false r.fields (lowercase l.name) := by
  obtain ⟨-, n, method, f, clientprot, hparts⟩ := r.parts hr
  obtain ⟨htext, hkeys⟩ := unparsed_eq henv hparts hraw hrun ht
  rw [r.headOf_raw hr] at htext
  cases hcrlf : r.crlf with
  | false =>
    rw [hcrlf, if_neg Bool.false_ne_true] at htext
    refine iff_of_false (fun h => ?_) (fun h => Bool.noConfusion h.1)
    -- a character is missing
    have hlen := congrArg List.length (htext.symm.trans h.block)
    have hpos := List.length_pos_of_ne_nil hr.headed
    rw [List.length_tail] at hlen
    omega
  | true =>
    rw [hcrlf, if_pos rfl] at htext
    have hname : ∀ l : Line, lowercase l.name ∈ (id.gotData env s).2.requestHeaders ↔
        NameRead false r.fields (lowercase l.name) := by
      intro l
      have hcolon : ':' ∉ lowercase l.name :=
        fun h => l.colon_not_mem_name ((colon_mem_lowercase l.name).mp h)
      rw [hkeys (by rw [htext]; exact hr.headed), htext, mem_parseHeaders,
        ← (mem_keys_block hcolon r.fields).1, r.block_eq hr, stored, stored, storedFrom_crlf]
    constructor
    · exact fun h => ⟨rfl, fun l hl hc => (hname l).mp (h.names l hl hc)⟩
    · exact fun h => ⟨htext, fun l hl hc => (hname l).mpr (h.2 l hl hc)⟩

/-- "GET / HTTP/1.0" and one header, the line ended either way. -/
def sampleRequest (crlf : Bool) : HeadedRequest where
  line := "GET / HTTP/1.0".toList
  crlf := crlf
  fields := [{ content := "Host: a".toList, crlf := true, noLf := by decide }]
  body := []

theorem sampleRequest_wellFormed (crlf : Bool) : (sampleRequest crlf).WellFormed where
  noLf := by cases crlf <;> decide
  noCr := by cases crlf <;> decide
  long := by cases crlf <;> decide
  scan := by
    have hscan : scanLine "GET / HTTP/1.0".toList =
        .full "GET".toList "/".toList "HTTP/1.0".toList := rfl
    cases crlf <;> exact ⟨_, _, _, hscan⟩
  headed := by cases crlf <;> decide
  empty := by cases crlf <;> decide +kernel

theorem header_block_crlf : HandsBlock (sampleRequest true) "Host: a".toList
    (RequestID.fresh.gotData sampleEnv (sampleRequest true).raw).2 ↔
      (sampleRequest true).crlf = true ∧ ∀ l ∈ (sampleRequest true).fields, l.HasColon →
        NameRead false (sampleRequest true).fields (lowercase l.name) :=
  @header_block_iff sampleEnv sampleEnv_lawful (sampleRequest true) (sampleRequest_wellFormed true)
    [] (sampleRequest true).raw "Host: a".toList RequestID.fresh (by simp) rfl (by decide +kernel)

/-- Behind a LF alone, "Host" is handed on as "ost". -/
theorem header_block_lf : ¬ ∀ (env : Env) (r : HeadedRequest) (cs : List Str) (s t : Str)
    (id : RequestID), env.Lawful → r.WellFormed → (cs ++ [s]).flatten = r.raw →
      receive env RequestID.fresh cs = (.more, id) → id.unparsed env s = some t →
        HandsBlock r t (id.gotData env s).2 := by
  intro h
  have hblock := (h sampleEnv (sampleRequest false) [] (sampleRequest false).raw "ost: a".toList
    RequestID.fresh sampleEnv_lawful (sampleRequest_wellFormed false) (by simp) rfl
    (by decide +kernel)).block
  exact absurd hblock (by decide)

end Caudium.Http
