import Caudium.Http.Pass
import Mathlib.Data.List.Induction

/-!
# A request in chunks

`got_data` calls `parse_got` on every chunk, and `parse_got` starts over from `raw`.
While a complete request arrives, the object is in one of three phases (`Arriving`):

* `noLine`: the first newline is not there. Nothing but `raw` and `last_search` has
  changed, so the next call does what a first call would.
* `noHead`: the request line has been read, the headers are not complete. The next
  call does what a first call would, except that only the call that reads the
  request line sets `cache_control_ok`.
* `inBody`: the headers are there and the body is not complete. Each call has made
  a pass that stopped at `content-length`, with the URL rewritten in place and
  `misc["accept"]` as far as the headers were visited (`InBody`).

One more chunk keeps the object in a phase (`Arriving.step`), so every prefix of the
chunks leaves it in one (`Arriving.run`). The last chunk is one case for each phase
(`last_noLine`, `last_noHead`, `last_inBody`), and `packets_iff` puts them together:
the last chunk leaves what the request in one piece leaves if and only if the cuts
are `Undisturbed`.
-/

namespace Caudium.Http

open Lib (Str Mapping search)

/-! ## The parts of a request -/

/-- The request line. -/
def lineOf (raw : Str) : Str := cutLine raw ((search raw "\n".toList).getD 0)

/-- The position of the empty line after the headers. -/
def headEnd (raw : Str) : Nat := (search raw crlf2).getD 0

/-- The headers, unparsed. -/
def headOf (raw : Str) : Str := slice raw ((lineOf raw).length + 2) (headEnd raw)

/-- The protocol in the request line. -/
def clientprotOf (raw : Str) : Str :=
  match scanLine (lineOf raw) with
  | .full _ _ clientprot => clientprot
  | .short _ => []

/-- The URL in the request line, without scheme and host. -/
def urlOf (raw : Str) : Str :=
  match scanLine (lineOf raw) with
  | .full _ f clientprot => stripHost clientprot f
  | .short _ => []

/-- One complete request: it is accepted in one piece, and the body that its headers
announce is all that follows them. -/
structure Complete (env : Env) (raw : Str) : Prop where
  accepted : (RequestID.fresh.gotData env raw).1 = .done
  length : (raw.length : Int) = headEnd raw + 4 + announcedIn (parseHeaders (headOf raw))

/-- What is found in a request: the first newline at `n`, the end of the headers at
`e`, and the request line. -/
structure Parts (raw : Str) (n e : Nat) (method f clientprot : Str) : Prop where
  newline : search raw "\n".toList = some n
  long : 4 ≤ (lineOf raw).length
  line : scanLine (lineOf raw) = .full method f clientprot
  head : search raw crlf2 = some e

/-- The object after the request line, with `arrived` of the request there. -/
def started (raw arrived method f clientprot : Str) : RequestID :=
  { RequestID.fresh with
    raw := arrived, line := lineOf raw, method := some method, f := f, clientprot := clientprot
    prot := protOf clientprot }

/-- The object when the pass over the whole request begins. -/
def ready (raw method f clientprot : Str) : RequestID :=
  { (started raw raw method f clientprot).allowCache with
    data := some (raw.drop (headEnd raw + 4)) }

namespace Parts

variable {raw method f clientprot : Str} {n e : Nat}

theorem lineOf_eq (h : Parts raw n e method f clientprot) : lineOf raw = cutLine raw n := by
  rw [lineOf, h.newline, Option.getD_some]

theorem headEnd_eq (h : Parts raw n e method f clientprot) : headEnd raw = e := by
  rw [headEnd, h.head, Option.getD_some]

/-- The newline is not among the first four characters. -/
theorem four_le (h : Parts raw n e method f clientprot) : 4 ≤ n := by
  have hlong := h.long
  rw [h.lineOf_eq, cutLine] at hlong
  split at hlong
  · rw [List.length_take] at hlong
    omega
  · rw [List.length_take] at hlong
    omega

/-- The headers end after the request line. -/
theorem newline_le (h : Parts raw n e method f clientprot) : n ≤ e + 1 := by
  refine Nat.le_of_not_lt fun hlt => ?_
  obtain ⟨hat, -⟩ := Lib.search_eq_some.mp h.head
  refine (Lib.search_eq_some.mp h.newline).2 (e + 1) hlt ?_
  rw [← List.drop_drop]
  obtain ⟨rest, hrest⟩ := hat
  rw [← hrest]
  exact ⟨['\r', '\n'] ++ rest, rfl⟩

theorem head_le (h : Parts raw n e method f clientprot) : e + 4 ≤ raw.length :=
  Lib.search_le h.head

/-- Once its newline is there, the line is that of the whole request. -/
theorem cutLine_arrived (h : Parts raw n e method f clientprot) {arrived rest : Str}
    (hraw : raw = arrived ++ rest) (hn : n < arrived.length) : cutLine arrived n = lineOf raw := by
  rw [h.lineOf_eq, cutLine, cutLine, hraw, charAt, charAt,
    List.take_append_of_le_length (by omega), List.take_append_of_le_length (by omega),
    List.getD_eq_getElem?_getD, List.getD_eq_getElem?_getD,
    List.getElem?_append_left (by omega)]

end Parts

/-! ## The calls -/

theorem parseGot_noLine {env : Env} {arrived : Str} {last : Nat}
    (h : search arrived "\n".toList = none) :
    ({ RequestID.fresh with raw := arrived, lastSearch := last } : RequestID).parseGot env =
      (.more, { RequestID.fresh with
        raw := arrived, lastSearch := max (arrived.length - 3) 4 }) := by
  rw [RequestID.parseGot]
  dsimp only [RequestID.fresh]
  rw [Lib.search_drop_none h]

/-- The first newline is found at `start`. -/
theorem parseGot_newline {env : Env} {id : RequestID} {k start : Nat} (hmethod : id.method = none)
    (hk : search (id.raw.drop id.lastSearch) "\n".toList = some k)
    (hstart : k + id.lastSearch = start) :
    id.parseGot env =
      if start = 0 then (.stupid, { id with lastSearch := 0 })
      else if (cutLine id.raw start).length < 4 then
        (.stupid, { id with lastSearch := 0, line := cutLine id.raw start })
      else ({ id with lastSearch := 0, line := cutLine id.raw start } : RequestID).parseLine env := by
  subst hstart
  rw [RequestID.parseGot, hmethod]
  dsimp only
  rw [hk]

/-- The call in which the newline is found. -/
theorem parseGot_line {env : Env} {raw arrived rest method f clientprot : Str} {n e last : Nat}
    (h : Parts raw n e method f clientprot) (hraw : raw = arrived ++ rest)
    (hn : n < arrived.length) (hlast : last ≤ n) :
    ({ RequestID.fresh with raw := arrived, lastSearch := last } : RequestID).parseGot env =
      ({ RequestID.fresh with raw := arrived, line := lineOf raw } : RequestID).parseLine env := by
  have hnewline := h.newline
  rw [hraw] at hnewline
  have hfound := Lib.search_take hnewline hn
  have hline := h.cutLine_arrived hraw hn
  have hfour := h.four_le
  have hlong := h.long
  rw [@parseGot_newline env { RequestID.fresh with raw := arrived, lastSearch := last } (n - last)
    n rfl (Lib.search_drop_some hfound hlast) (Nat.sub_add_cancel hlast)]
  dsimp only [RequestID.fresh]
  rw [if_neg (by omega), hline, if_neg (by omega)]

theorem parseLine_more {env : Env} {raw arrived method f clientprot : Str} {n e : Nat}
    (h : Parts raw n e method f clientprot) (hnone : search arrived crlf2 = none) :
    ({ RequestID.fresh with raw := arrived, line := lineOf raw } : RequestID).parseLine env =
      (.more, { started raw arrived method f clientprot with lastSearch := arrived.length - 5 }) := by
  rw [RequestID.parseLine]
  dsimp only [RequestID.fresh]
  rw [h.line]
  dsimp only
  rw [List.drop_zero, hnone]
  rfl

theorem parseLine_head {env : Env} {raw arrived method f clientprot : Str} {n e : Nat}
    (h : Parts raw n e method f clientprot) (hsome : search arrived crlf2 = some e) :
    ({ RequestID.fresh with raw := arrived, line := lineOf raw } : RequestID).parseLine env =
      (started raw arrived method f clientprot).allowCache.parseFrom env e := by
  rw [RequestID.parseLine]
  dsimp only [RequestID.fresh]
  rw [h.line]
  dsimp only
  rw [List.drop_zero, hsome]
  show ({ (started raw arrived method f clientprot).allowCache with lastSearch := 0 }
    : RequestID).parseFrom env e = _
  unfold RequestID.allowCache
  split <;> rfl

/-- A later call, before the headers are complete. -/
theorem parseGot_more {env : Env} {id : RequestID} {method : Str} (hmethod : id.method = some method)
    (hnone : search id.raw crlf2 = none) :
    id.parseGot env = (.more, { id with lastSearch := id.raw.length - 5 }) := by
  rw [RequestID.parseGot, hmethod]
  dsimp only
  rw [Lib.search_drop_none hnone]

/-- A later call that finds the headers complete. -/
theorem parseGot_head {env : Env} {id : RequestID} {method : Str} {e : Nat}
    (hmethod : id.method = some method) (hsome : search id.raw crlf2 = some e)
    (hlast : id.lastSearch ≤ e) : id.parseGot env = id.parseFrom env e := by
  rw [RequestID.parseGot, hmethod]
  dsimp only
  rw [Lib.search_drop_some hsome hlast]
  dsimp only
  rw [show e - id.lastSearch + id.lastSearch = e by omega]

/-- The pass over what has arrived: the headers are those of the whole request. -/
theorem parseFrom_eq {env : Env} {id : RequestID} {raw rest method f clientprot : Str} {n e : Nat}
    (h : Parts raw n e method f clientprot) (hraw : raw = id.raw ++ rest)
    (he : e + 4 ≤ id.raw.length) (hline : id.line = lineOf raw) :
    id.parseFrom env e =
      { id with data := some (id.raw.drop (e + 4)) }.parseRest env (headOf raw) := by
  have hhead : slice id.raw (id.line.length + 2) e = headOf raw := by
    rw [headOf, h.headEnd_eq, hline, slice, slice, hraw, List.take_append_of_le_length (by omega)]
  rw [RequestID.parseFrom, hhead]

/-- `got_data` calls `parse_got`, unless it knows that the body is not complete. -/
theorem gotData_call {env : Env} {id : RequestID} {s : Str} (hunread : id.unreadData = 0)
    (hwanted : id.wantedData ≤ ((id.raw ++ s).length : Int)) (hne : id.raw ++ s ≠ []) :
    id.gotData env s = ({ id with raw := id.raw ++ s } : RequestID).parseGot env := by
  rw [RequestID.gotData, if_neg (by omega), RequestID.addData]
  dsimp only
  rw [if_neg (by omega), if_neg hne]

theorem gotData_wait {env : Env} {id : RequestID} {s : Str} (hunread : id.unreadData = 0)
    (hwanted : ((id.raw ++ s).length : Int) < id.wantedData) :
    id.gotData env s = (.more, { id with raw := id.raw ++ s }) := by
  rw [RequestID.gotData, if_neg (by omega), RequestID.addData]
  dsimp only
  rw [if_pos (by omega)]

theorem gotData_fresh {env : Env} {raw : Str} (hne : raw ≠ []) :
    RequestID.fresh.gotData env raw = ({ RequestID.fresh with raw := raw } : RequestID).parseGot env :=
  @gotData_call env RequestID.fresh raw rfl (Int.natCast_nonneg _) hne

theorem gotData_noLine {env : Env} {arrived s : Str} {last : Nat} (hne : arrived ++ s ≠ []) :
    ({ RequestID.fresh with raw := arrived, lastSearch := last } : RequestID).gotData env s =
      ({ RequestID.fresh with raw := arrived ++ s, lastSearch := last } : RequestID).parseGot env :=
  @gotData_call env { RequestID.fresh with raw := arrived, lastSearch := last } s rfl
    (Int.natCast_nonneg _) hne

theorem gotData_noHead {env : Env} {raw arrived s method f clientprot : Str} {last : Nat}
    (hne : arrived ++ s ≠ []) :
    ({ started raw arrived method f clientprot with lastSearch := last } : RequestID).gotData env s =
      ({ started raw (arrived ++ s) method f clientprot with lastSearch := last } :
        RequestID).parseGot env :=
  @gotData_call env { started raw arrived method f clientprot with lastSearch := last } s rfl
    (Int.natCast_nonneg _) hne

/-- A request that is accepted has all its parts. -/
theorem Complete.parts {env : Env} {raw : Str} (h : Complete env raw) :
    ∃ n e method f clientprot, Parts raw n e method f clientprot := by
  have hdone := h.accepted
  have hne : raw ≠ [] := by
    intro heq
    subst heq
    cases hdone
  rw [gotData_fresh hne] at hdone
  cases hnewline : search raw "\n".toList with
  | none =>
    have hmore := @parseGot_noLine env raw 0 hnewline
    rw [show ({ RequestID.fresh with raw := raw } : RequestID).parseGot env = _ from hmore] at hdone
    cases hdone
  | some n =>
    have hline : cutLine raw n = lineOf raw := by rw [lineOf, hnewline, Option.getD_some]
    rw [@parseGot_newline env { RequestID.fresh with raw := raw } n n rfl hnewline rfl] at hdone
    dsimp only [RequestID.fresh] at hdone
    rw [hline] at hdone
    by_cases hzero : n = 0
    · rw [if_pos hzero] at hdone
      cases hdone
    rw [if_neg hzero] at hdone
    by_cases hlong : (lineOf raw).length < 4
    · rw [if_pos hlong] at hdone
      cases hdone
    rw [if_neg hlong, RequestID.parseLine] at hdone
    dsimp only at hdone
    cases hscan : scanLine (lineOf raw) with
    | short method =>
      rw [hscan] at hdone
      dsimp only at hdone
      split at hdone <;> cases hdone
    | full method f clientprot =>
      rw [hscan] at hdone
      dsimp only at hdone
      cases hhead : search raw crlf2 with
      | none =>
        rw [List.drop_zero, hhead] at hdone
        cases hdone
      | some e => exact ⟨n, e, method, f, clientprot, hnewline, by omega, hscan, hhead⟩

/-- The call in which the whole request is there, when there was no newline before. -/
theorem parseGot_whole {env : Env} {raw method f clientprot : Str} {n e last : Nat}
    (h : Parts raw n e method f clientprot) (hlast : last ≤ n) :
    ({ RequestID.fresh with raw := raw, lastSearch := last } : RequestID).parseGot env =
      (ready raw method f clientprot).parseRest env (headOf raw) := by
  have hle := h.head_le
  have hn := h.newline_le
  have hline : (started raw raw method f clientprot).allowCache.line = lineOf raw := by
    unfold RequestID.allowCache
    split <;> rfl
  have hraw : (started raw raw method f clientprot).allowCache.raw = raw := by
    unfold RequestID.allowCache
    split <;> rfl
  rw [parseGot_line h (List.append_nil raw).symm (by omega) hlast,
    parseLine_head h h.head, parseFrom_eq h (by rw [hraw]; exact (List.append_nil raw).symm)
      (by rw [hraw]; exact hle) hline, ready, h.headEnd_eq, hraw]

theorem Parts.ne_nil {raw method f clientprot : Str} {n e : Nat}
    (h : Parts raw n e method f clientprot) : raw ≠ [] := by
  have hle := h.head_le
  intro heq
  subst heq
  rw [List.length_nil] at hle
  omega

/-- Delivered in one piece, the request takes one pass. -/
theorem gotData_whole {env : Env} {raw method f clientprot : Str} {n e : Nat}
    (h : Parts raw n e method f clientprot) : RequestID.fresh.gotData env raw =
      (ready raw method f clientprot).parseRest env (headOf raw) := by
  rw [gotData_fresh h.ne_nil]
  exact @parseGot_whole env raw method f clientprot n e 0 h (Nat.zero_le n)

/-! ## The object while the request arrives -/

/-- `parse_got` has been called with the request line there and the headers not complete. -/
def SplitHead (cs : List Str) : Prop :=
  ∃ ds, ds <+: cs ∧ search ds.flatten "\n".toList ≠ none ∧ search ds.flatten crlf2 = none

section arriving

variable (env : Env) (raw method f clientprot : Str)

/-- The fields that no pass changes, and how much is waited for, when the chunks
`cs` have arrived. -/
structure Underway (cs : List Str) (id : RequestID) : Prop where
  arrived : id.raw = cs.flatten
  methodSet : id.method = some method
  lineSet : id.line = lineOf raw
  protSet : id.clientprot = clientprot
  lastSearch : id.lastSearch ≤ headEnd raw
  unreadData : id.unreadData = 0
  wantedData : id.wantedData ≤ announcedIn (parseHeaders (headOf raw))
  cacheControlOk : id.cacheControlOk = true ↔
    protOf clientprot = "HTTP/1.1".toList ∧ ¬ SplitHead cs

/-- What passes over an incomplete body have made of the object: the URL is shorter
unless it is plain, `misc["accept"]` is there if its header comes before the length
of the body, and if neither is the matter another pass starts as the first one did. -/
structure InBody (cs : List Str) (id : RequestID) : Prop
    extends Underway raw method clientprot cs id where
  url_le : id.url.length ≤ (urlOf raw).length
  url_lt : ¬ Plain env (urlOf raw) → id.url.length < (urlOf raw).length
  accept : AcceptFirst env (parseHeaders (headOf raw)) → 0 < id.accepts.length
  again : Plain env (urlOf raw) → ¬ AcceptFirst env (parseHeaders (headOf raw)) →
    SameStart { ready raw method f clientprot with raw := id.raw, data := id.data } id

/-- The object when the chunks `cs` have arrived and more is to come. -/
inductive Arriving (cs : List Str) (id : RequestID) : Prop where
  | noLine (last : Nat) (hlast : last ≤ max (cs.flatten.length - 3) 4)
      (hnone : search cs.flatten "\n".toList = none)
      (hid : id = { RequestID.fresh with raw := cs.flatten, lastSearch := last })
  | noHead (hline : search cs.flatten "\n".toList ≠ none) (hnone : search cs.flatten crlf2 = none)
      (hid : id = { started raw cs.flatten method f clientprot with
        lastSearch := cs.flatten.length - 5 })
  | inBody (hsome : search cs.flatten crlf2 ≠ none) (h : InBody env raw method f clientprot cs id)

end arriving

section passes

variable {env : Env} {raw method f clientprot : Str} {n e : Nat}

theorem splitHead_concat (cs : List Str) (s : Str) :
    SplitHead (cs ++ [s]) ↔ SplitHead cs ∨
      (search (cs ++ [s]).flatten "\n".toList ≠ none ∧ search (cs ++ [s]).flatten crlf2 = none) := by
  constructor
  · intro h
    obtain ⟨ds, hds, hline, hnone⟩ := h
    rcases List.prefix_concat_iff.mp hds with rfl | hcs
    · exact Or.inr ⟨hline, hnone⟩
    · exact Or.inl ⟨ds, hcs, hline, hnone⟩
  · intro h
    obtain ⟨ds, hds, hline, hnone⟩ | ⟨hline, hnone⟩ := h
    · exact ⟨ds, hds.trans (List.prefix_append cs [s]), hline, hnone⟩
    · exact ⟨cs ++ [s], List.prefix_refl _, hline, hnone⟩

theorem urlOf_eq (h : Parts raw n e method f clientprot) : urlOf raw = stripHost clientprot f := by
  rw [urlOf, h.line]

/-- The URL part of a pass neither throws nor finds a configuration. -/
def Scans (env : Env) (id : RequestID) : Prop :=
  ∀ data, (({ id with data := data } : RequestID).setRawUrl.scanUrl env).1 = some false

/-- The first pass over the URL goes as in one piece. -/
theorem scanUrl_first (henv : env.Lawful) (h : Parts raw n e method f clientprot)
    (hR : Complete env raw) {id : RequestID} (hf : id.f = f) (hclient : id.clientprot = clientprot)
    (hvars : id.vars = ∅) (hempty : id.emptyVariables = []) : Scans env id := by
  intro data
  have hdone := hR.accepted
  rw [gotData_whole h] at hdone
  rw [← (parseRest_done henv hdone).1]
  obtain ⟨uri, huri⟩ := setRawUrl_eq { id with data := data }
  obtain ⟨uri', huri'⟩ := setRawUrl_eq (ready raw method f clientprot)
  have hallow : ∀ i : RequestID, i.allowCache.f = i.f ∧ i.allowCache.clientprot = i.clientprot ∧
      i.allowCache.vars = i.vars ∧ i.allowCache.emptyVariables = i.emptyVariables := by
    intro i
    unfold RequestID.allowCache
    split <;> exact ⟨rfl, rfl, rfl, rfl⟩
  obtain ⟨hf', hclient', hvars', hempty'⟩ := hallow (started raw raw method f clientprot)
  refine scanUrl_fst_congr ?_ ?_ ?_
  · rw [huri, huri']
    show stripHost id.clientprot id.f = stripHost (started raw raw method f clientprot).allowCache.clientprot
      (started raw raw method f clientprot).allowCache.f
    rw [hf, hclient, hf', hclient']
    rfl
  · rw [huri, huri']
    exact hvars.trans hvars'.symm
  · rw [huri, huri']
    exact hempty.trans hempty'.symm

theorem started_allowCache (raw arrived method f clientprot : Str) : ∃ ok,
    (started raw arrived method f clientprot).allowCache =
      { started raw arrived method f clientprot with cacheControlOk := ok } ∧
    (ok = true ↔ protOf clientprot = "HTTP/1.1".toList) := by
  unfold RequestID.allowCache
  split
  next hprot => exact ⟨true, rfl, fun _ => hprot, fun _ => rfl⟩
  next hprot => exact ⟨false, rfl, fun h => (Bool.false_ne_true h).elim, fun h => absurd h hprot⟩

theorem ready_eq (raw method f clientprot : Str) : ∃ ok, ready raw method f clientprot =
    { started raw raw method f clientprot with
      cacheControlOk := ok, data := some (raw.drop (headEnd raw + 4)) } ∧
    (ok = true ↔ protOf clientprot = "HTTP/1.1".toList) := by
  obtain ⟨ok, hcache, hok⟩ := started_allowCache raw raw method f clientprot
  exact ⟨ok, by rw [ready, hcache], hok⟩

theorem ready_url (h : Parts raw n e method f clientprot) :
    (ready raw method f clientprot).url = urlOf raw := by
  obtain ⟨ok, hready, -⟩ := ready_eq raw method f clientprot
  rw [hready, urlOf_eq h]
  rfl

/-- A plain URL has no configuration in it: the request would not be accepted. -/
theorem config_false (henv : env.Lawful) (h : Parts raw n e method f clientprot)
    (hR : Complete env raw) (hplain : Plain env (urlOf raw)) :
    (configPart (urlOf raw)).1 = false := by
  have hdone := hR.accepted
  rw [gotData_whole h] at hdone
  have hscan := (parseRest_done henv hdone).1
  obtain ⟨uri, huri⟩ := setRawUrl_eq (ready raw method f clientprot)
  have hf : (ready raw method f clientprot).setRawUrl.f = urlOf raw := by
    rw [huri]
    exact ready_url h
  have hconfig := @config_of_plain env (ready raw method f clientprot).setRawUrl
    (by rw [hf]; exact hplain)
  rw [hscan, hf] at hconfig
  exact (Option.some.inj hconfig).symm

/-- A pass leaves these fields alone, and waits for no more than the headers announce. -/
theorem Underway.pass (henv : env.Lawful) {cs : List Str} {id : RequestID}
    (hid : Underway raw method clientprot cs id) (data : Option Str)
    (hpos : 0 < announcedIn (parseHeaders (headOf raw))) :
    Underway raw method clientprot cs
      (({ id with data := data } : RequestID).parseRest env (headOf raw)).2 := by
  have hspec := parseRest_spec henv { id with data := data } (headOf raw)
  refine ⟨?_, ?_, ?_, ?_, ?_, ?_, ?_, ?_⟩
  · rw [hspec.raw]; exact hid.arrived
  · rw [hspec.method]; exact hid.methodSet
  · rw [hspec.line]; exact hid.lineSet
  · rw [hspec.clientprot]; exact hid.protSet
  · rw [hspec.lastSearch]; exact hid.lastSearch
  · rw [hspec.unreadData]; exact hid.unreadData
  · exact parseRest_wanted henv (Int.le_of_lt hpos) hid.wantedData (Int.le_refl _)
  · rw [hspec.cacheControlOk]; exact hid.cacheControlOk

/-- A pass over a body that is not complete. -/
theorem inBody_pass (henv : env.Lawful) (h : Parts raw n e method f clientprot)
    (hR : Complete env raw) {cs : List Str} {id : RequestID} {rest : Str}
    (hraw : raw = cs.flatten ++ rest) (hrest : rest ≠ []) (he : e + 4 ≤ cs.flatten.length)
    (hid : Underway raw method clientprot cs id) (hle : id.url.length ≤ (urlOf raw).length)
    (hlt : ¬ Plain env (urlOf raw) → id.url.length < (urlOf raw).length ∨
      id.url = urlOf raw ∧ Scans env id)
    (haccept : AcceptFirst env (parseHeaders (headOf raw)) → 0 < id.accepts.length ∨ Scans env id)
    (hagain : Plain env (urlOf raw) → ¬ AcceptFirst env (parseHeaders (headOf raw)) →
      SameStart { ready raw method f clientprot with raw := id.raw, data := id.data } id) :
    ((id.parseFrom env e).1 = .more ∨ (id.parseFrom env e).1 = .thrown) ∧
      InBody env raw method f clientprot cs (id.parseFrom env e).2 := by
  have hlen := hR.length
  have hshort : (((some (id.raw.drop (e + 4)) : Option Str).getD []).length : Int)
      < announcedIn (parseHeaders (headOf raw)) := by
    have hpos := List.length_pos_iff.mpr hrest
    have hwhole := congrArg List.length hraw
    rw [h.headEnd_eq] at hlen
    rw [List.length_append] at hwhole
    rw [Option.getD_some, List.length_drop, hid.arrived]
    omega
  have hpos : 0 < announcedIn (parseHeaders (headOf raw)) :=
    Int.lt_of_le_of_lt (Int.natCast_nonneg _) hshort
  rw [parseFrom_eq h (by rw [hid.arrived]; exact hraw) (by rw [hid.arrived]; exact he) hid.lineSet]
  generalize hi : ({ id with data := some (id.raw.drop (e + 4)) } : RequestID) = i
  have hscans : Scans env id → (i.setRawUrl.scanUrl env).1 = some false :=
    fun hs => by rw [← hi]; exact hs _
  have hspec := parseRest_spec henv i (headOf raw)
  have haccepts := parseRest_accepts_le henv i (headOf raw)
  have hurl : i.url = id.url := by rw [← hi]
  have hdata : ((i.data.getD []).length : Int) < announcedIn (parseHeaders (headOf raw)) := by
    rw [← hi]
    exact hshort
  have hurl_f : (i.parseRest env (headOf raw)).2.url.length
      ≤ (i.parseRest env (headOf raw)).2.f.length := length_stripHost_le _ _
  have hf_le := hspec.f_le
  rw [hurl] at hf_le
  have hnext : Underway raw method clientprot cs (i.parseRest env (headOf raw)).2 := by
    rw [← hi]
    exact hid.pass henv _ hpos
  refine ⟨?_, hnext, by omega, fun hnot => ?_, fun hfirst => ?_, fun hplain hnot => ?_⟩
  · -- it throws, or it stops at the length of the body
    cases hscan : (i.setRawUrl.scanUrl env).1 with
    | none => exact Or.inr (by rw [parseRest_thrown hscan])
    | some config => exact Or.inl (parseRest_short henv hscan hdata).1
  · rcases hlt hnot with hshorter | ⟨hsame, hs⟩
    · omega
    · have hf_lt := hspec.f_lt (hscans hs) (by rw [hurl, hsame]; exact hnot)
      rw [hurl, hsame] at hf_lt
      omega
  · rcases haccept hfirst with hthere | hs
    · have hsame : i.accepts = id.accepts := by rw [← hi]; rfl
      rw [hsame] at haccepts
      omega
    · exact (parseRest_short henv (hscans hs) hdata).2.1 hfirst
  · have hstart := (hagain hplain hnot).setRaw id.raw i.data
    rw [show ({ id with raw := id.raw, data := i.data } : RequestID) = i by rw [← hi]] at hstart
    have hbase := ready_url h
    have hnext := parseRest_sameStart henv hstart (by
      show Plain env (ready raw method f clientprot).url
      rw [hbase]
      exact hplain) (by
      show (configPart (ready raw method f clientprot).url).1 = false
      rw [hbase]
      exact config_false henv h hR hplain) hdata hnot
    exact hnext.setRaw (i.parseRest env (headOf raw)).2.raw (i.parseRest env (headOf raw)).2.data

/-- The first pass, over a body that is not complete. -/
theorem inBody_first (henv : env.Lawful) (h : Parts raw n e method f clientprot)
    (hR : Complete env raw) {cs : List Str} {rest : Str} (hraw : raw = cs.flatten ++ rest)
    (hrest : rest ≠ []) (he : e + 4 ≤ cs.flatten.length) {ok : Bool} {last : Nat} (hlast : last ≤ e)
    (hok : ok = true ↔ protOf clientprot = "HTTP/1.1".toList ∧ ¬ SplitHead cs) :
    let id := { started raw cs.flatten method f clientprot with
      cacheControlOk := ok, lastSearch := last }
    ((id.parseFrom env e).1 = .more ∨ (id.parseFrom env e).1 = .thrown) ∧
      InBody env raw method f clientprot cs (id.parseFrom env e).2 := by
  intro id
  have hlen := hR.length
  have hle := h.head_le
  rw [h.headEnd_eq] at hlen
  have hscans : Scans env id := scanUrl_first henv h hR rfl rfl rfl rfl
  have hurl : id.url = urlOf raw := (urlOf_eq h).symm
  obtain ⟨ok', hready, -⟩ := ready_eq raw method f clientprot
  refine inBody_pass henv h hR hraw hrest he ⟨rfl, rfl, rfl, rfl, ?_, rfl, ?_, hok⟩
    (Nat.le_of_eq (congrArg List.length hurl)) (fun _ => Or.inr ⟨hurl, hscans⟩)
    (fun _ => Or.inr hscans) fun _ _ => ?_
  · rw [h.headEnd_eq]
    exact hlast
  · show (0 : Int) ≤ _
    omega
  · rw [hready]
    exact ⟨rfl, rfl, rfl, rfl, rfl, rfl, rfl, rfl, rfl, rfl, rfl, rfl, rfl, rfl⟩

/-- Without a pass, or before it, one more chunk only adds to what has arrived. -/
theorem InBody.addChunk {cs : List Str} {id : RequestID}
    (h : InBody env raw method f clientprot cs id) {s : Str}
    (hhead : search (cs ++ [s]).flatten crlf2 ≠ none) :
    InBody env raw method f clientprot (cs ++ [s]) { id with raw := (cs ++ [s]).flatten } where
  arrived := rfl
  methodSet := h.methodSet
  lineSet := h.lineSet
  protSet := h.protSet
  lastSearch := h.lastSearch
  unreadData := h.unreadData
  wantedData := h.wantedData
  cacheControlOk := by
    rw [splitHead_concat, or_iff_left fun hnone => hhead hnone.2]
    exact h.cacheControlOk
  url_le := h.url_le
  url_lt := h.url_lt
  accept := h.accept
  again hplain hnot := (h.again hplain hnot).setRaw _ _

/-- The request line is there once its newline is. -/
theorem line_le (h : Parts raw n e method f clientprot) {arrived rest : Str}
    (hraw : raw = arrived ++ rest) : search arrived "\n".toList ≠ none ↔ n < arrived.length := by
  have hnewline := h.newline
  rw [hraw] at hnewline
  exact Lib.search_take_ne_none hnewline

theorem head_le (h : Parts raw n e method f clientprot) {arrived rest : Str}
    (hraw : raw = arrived ++ rest) : search arrived crlf2 ≠ none ↔ e + 4 ≤ arrived.length := by
  have hhead := h.head
  rw [hraw] at hhead
  exact Lib.search_take_ne_none hhead

theorem head_some (h : Parts raw n e method f clientprot) {arrived rest : Str}
    (hraw : raw = arrived ++ rest) (hsome : search arrived crlf2 ≠ none) :
    search arrived crlf2 = some e := by
  have hhead := h.head
  rw [hraw] at hhead
  exact Lib.search_take hhead ((head_le h hraw).mp hsome)

/-- What a string lacks, the strings it begins with lack. -/
theorem search_none_left {s t pat : Str} (hpre : s <+: t) (hnone : search t pat = none) :
    search s pat = none := by
  obtain ⟨rest, rfl⟩ := hpre
  cases hs : search s pat with
  | none => rfl
  | some i =>
    rw [Lib.search_append hs rest] at hnone
    cases hnone

theorem prefix_flatten {ds cs : List Str} (h : ds <+: cs) : ds.flatten <+: cs.flatten := by
  obtain ⟨rest, rfl⟩ := h
  rw [List.flatten_append]
  exact List.prefix_append _ _

/-- The headers have come in one call with the end of the request line. -/
theorem not_splitHead (cs : List Str) (s : Str) (hline : search cs.flatten "\n".toList = none)
    (hhead : search (cs ++ [s]).flatten crlf2 ≠ none) : ¬ SplitHead (cs ++ [s]) := by
  rw [splitHead_concat]
  intro h
  obtain ⟨ds, hds, hsome, -⟩ | ⟨-, hnone⟩ := h
  · exact hsome (search_none_left (prefix_flatten hds) hline)
  · exact hhead hnone

/-- `parse_got` has not answered, and the object is in a phase. -/
def Waits (env : Env) (raw method f clientprot : Str) (cs : List Str) (r : Got × RequestID) : Prop :=
  (r.1 = .more ∨ r.1 = .thrown) ∧ Arriving env raw method f clientprot cs r.2

theorem step_noLine (henv : env.Lawful) (h : Parts raw n e method f clientprot)
    (hR : Complete env raw) {cs : List Str} {s rest : Str} {last : Nat} (hs : s ≠ [])
    (hraw : raw = (cs ++ [s]).flatten ++ rest) (hrest : rest ≠ [])
    (hlast : last ≤ max (cs.flatten.length - 3) 4)
    (hnone : search cs.flatten "\n".toList = none) :
    Waits env raw method f clientprot (cs ++ [s])
      (({ RequestID.fresh with raw := cs.flatten, lastSearch := last } : RequestID).gotData env s) := by
  have hflat : (cs ++ [s]).flatten = cs.flatten ++ s := by simp
  have hne : cs.flatten ++ s ≠ [] := fun hnil => hs (List.append_eq_nil_iff.mp hnil).2
  rw [gotData_noLine hne, ← hflat]
  by_cases hline : search (cs ++ [s]).flatten "\n".toList = none
  · rw [parseGot_noLine hline]
    exact ⟨Or.inl rfl, Arriving.noLine _ (Nat.le_refl _) hline rfl⟩
  · -- the newline has come: `last_search` has not gone past it
    have hraw' : raw = cs.flatten ++ (s ++ rest) := by rw [hraw, hflat, List.append_assoc]
    have hn := (line_le h hraw).mp hline
    have hbefore : ¬ n < cs.flatten.length := fun hlt => (line_le h hraw').mpr hlt hnone
    have hfour := h.four_le
    rw [parseGot_line h hraw hn (by omega)]
    by_cases hhead : search (cs ++ [s]).flatten crlf2 = none
    · rw [parseLine_more h hhead]
      exact ⟨Or.inl rfl, Arriving.noHead hline hhead rfl⟩
    · rw [parseLine_head h (head_some h hraw hhead)]
      obtain ⟨ok, hcache, hok⟩ := started_allowCache raw (cs ++ [s]).flatten method f clientprot
      rw [hcache]
      have hsplit := not_splitHead cs s hnone hhead
      have hpass := @inBody_first env raw method f clientprot n e henv h hR (cs ++ [s]) rest hraw
        hrest ((head_le h hraw).mp hhead) ok 0 (Nat.zero_le e)
        ⟨fun hyes => ⟨hok.mp hyes, hsplit⟩, fun hyes => hok.mpr hyes.1⟩
      exact ⟨hpass.1, Arriving.inBody hhead hpass.2⟩

theorem step_noHead (henv : env.Lawful) (h : Parts raw n e method f clientprot)
    (hR : Complete env raw) {cs : List Str} {s rest : Str} (hs : s ≠ [])
    (hraw : raw = (cs ++ [s]).flatten ++ rest) (hrest : rest ≠ [])
    (hline : search cs.flatten "\n".toList ≠ none) (hnone : search cs.flatten crlf2 = none) :
    Waits env raw method f clientprot (cs ++ [s])
      (({ started raw cs.flatten method f clientprot with
        lastSearch := cs.flatten.length - 5 } : RequestID).gotData env s) := by
  have hflat : (cs ++ [s]).flatten = cs.flatten ++ s := by simp
  have hne : cs.flatten ++ s ≠ [] := fun hnil => hs (List.append_eq_nil_iff.mp hnil).2
  rw [gotData_noHead hne, ← hflat]
  have hline' : search (cs ++ [s]).flatten "\n".toList ≠ none := by
    intro hnil
    exact hline (search_none_left (by rw [hflat]; exact List.prefix_append _ _) hnil)
  by_cases hhead : search (cs ++ [s]).flatten crlf2 = none
  · rw [@parseGot_more env { started raw (cs ++ [s]).flatten method f clientprot with
      lastSearch := cs.flatten.length - 5 } method rfl hhead]
    exact ⟨Or.inl rfl, Arriving.noHead hline' hhead rfl⟩
  · -- the headers are complete now: `cache_control_ok` stays unset
    have hraw' : raw = cs.flatten ++ (s ++ rest) := by rw [hraw, hflat, List.append_assoc]
    have hbefore : ¬ e + 4 ≤ cs.flatten.length := fun hle => (head_le h hraw').mpr hle hnone
    have hlast : cs.flatten.length - 5 ≤ e := by omega
    rw [@parseGot_head env { started raw (cs ++ [s]).flatten method f clientprot with
      lastSearch := cs.flatten.length - 5 } method e rfl (head_some h hraw hhead) hlast]
    have hsplit : SplitHead (cs ++ [s]) := ⟨cs, List.prefix_append cs [s], hline, hnone⟩
    have hpass := @inBody_first env raw method f clientprot n e henv h hR (cs ++ [s]) rest hraw
      hrest ((head_le h hraw).mp hhead) false (cs.flatten.length - 5) hlast
      ⟨fun hno => (Bool.false_ne_true hno).elim, fun hyes => absurd hsplit hyes.2⟩
    exact ⟨hpass.1, Arriving.inBody hhead hpass.2⟩

theorem step_inBody (henv : env.Lawful) (h : Parts raw n e method f clientprot)
    (hR : Complete env raw) {cs : List Str} {id : RequestID} {s rest : Str} (hs : s ≠ [])
    (hraw : raw = (cs ++ [s]).flatten ++ rest) (hrest : rest ≠ [])
    (hsome : search cs.flatten crlf2 ≠ none) (hbody : InBody env raw method f clientprot cs id) :
    Waits env raw method f clientprot (cs ++ [s]) (id.gotData env s) := by
  have hflat : (cs ++ [s]).flatten = cs.flatten ++ s := by simp
  have hne : cs.flatten ++ s ≠ [] := fun hnil => hs (List.append_eq_nil_iff.mp hnil).2
  have hhead : search (cs ++ [s]).flatten crlf2 ≠ none := by
    intro hnil
    exact hsome (search_none_left (by rw [hflat]; exact List.prefix_append _ _) hnil)
  have hnext := hbody.addChunk hhead
  have hadd : id.raw ++ s = (cs ++ [s]).flatten := by rw [hbody.arrived, hflat]
  by_cases hwait : ((id.raw ++ s).length : Int) < id.wantedData
  · rw [gotData_wait hbody.unreadData hwait, hadd]
    exact ⟨Or.inl rfl, Arriving.inBody hhead hnext⟩
  · rw [gotData_call hbody.unreadData (by omega) (by rw [hadd, hflat]; exact hne), hadd,
      parseGot_head hnext.methodSet (head_some h hraw hhead)
        (by rw [← h.headEnd_eq]; exact hnext.lastSearch)]
    have hpass := inBody_pass henv h hR hraw hrest ((head_le h hraw).mp hhead) hnext.toUnderway
      hnext.url_le (fun hnot => Or.inl (hnext.url_lt hnot))
      (fun hfirst => Or.inl (hnext.accept hfirst)) hnext.again
    exact ⟨hpass.1, Arriving.inBody hhead hpass.2⟩

/-- The step: one more chunk, and more to come. -/
theorem Arriving.step (henv : env.Lawful) (h : Parts raw n e method f clientprot)
    (hR : Complete env raw) {cs : List Str} {id : RequestID}
    (harr : Arriving env raw method f clientprot cs id) {s rest : Str} (hs : s ≠ [])
    (hraw : raw = (cs ++ [s]).flatten ++ rest) (hrest : rest ≠ []) :
    Waits env raw method f clientprot (cs ++ [s]) (id.gotData env s) := by
  cases harr with
  | noLine last hlast hnone hid =>
    subst hid
    exact step_noLine henv h hR hs hraw hrest hlast hnone
  | noHead hline hnone hid =>
    subst hid
    exact step_noHead henv h hR hs hraw hrest hline hnone
  | inBody hsome hbody => exact step_inBody henv h hR hs hraw hrest hsome hbody

/-! ## The run -/

theorem receive_more {id : RequestID} {s : Str}
    (h : (id.gotData env s).1 = .more ∨ (id.gotData env s).1 = .thrown) (ds : List Str) :
    receive env id (s :: ds) = receive env (id.gotData env s).2 ds := by
  obtain ⟨g, i, hg⟩ : ∃ g i, id.gotData env s = (g, i) := ⟨_, _, rfl⟩
  rw [hg] at h ⊢
  dsimp only at h
  rcases h with rfl | rfl
  · rw [receive, hg]
  · rw [receive, hg]

theorem receive_done {id : RequestID} {s : Str} :
    (receive env id [s]).1 = .done ↔ (id.gotData env s).1 = .done := by
  obtain ⟨g, i, hg⟩ : ∃ g i, id.gotData env s = (g, i) := ⟨_, _, rfl⟩
  rw [receive, hg]
  cases g <;> simp [receive]

theorem receive_of_done {id : RequestID} {s : Str} (h : (id.gotData env s).1 = .done) :
    receive env id [s] = id.gotData env s := by
  obtain ⟨g, i, hg⟩ : ∃ g i, id.gotData env s = (g, i) := ⟨_, _, rfl⟩
  rw [hg] at h ⊢
  dsimp only at h
  rw [receive, hg, h]

/-- The run: all the chunks but the last. -/
theorem Arriving.run (henv : env.Lawful) (h : Parts raw n e method f clientprot)
    (hR : Complete env raw) (cs : List Str) : ∀ rest, raw = cs.flatten ++ rest → rest ≠ [] →
      (∀ s ∈ cs, s ≠ []) → ∃ id, Arriving env raw method f clientprot cs id ∧
        ∀ ds, receive env RequestID.fresh (cs ++ ds) = receive env id ds := by
  induction cs using List.reverseRecOn with
  | nil =>
    intro rest _ _ _
    exact ⟨RequestID.fresh, Arriving.noLine 0 (Nat.zero_le _) (by decide) rfl, fun ds => rfl⟩
  | append_singleton cs s ih =>
    intro rest hraw hrest hne
    have hflat : (cs ++ [s]).flatten = cs.flatten ++ s := by simp
    obtain ⟨id, harr, hrun⟩ := ih (s ++ rest) (by rw [hraw, hflat, List.append_assoc])
      (fun hnil => hrest (List.append_eq_nil_iff.mp hnil).2)
      (fun t ht => hne t (List.mem_append_left [s] ht))
    have hs : s ≠ [] := hne s (List.mem_append_right cs List.mem_cons_self)
    obtain ⟨hmore, hnext⟩ := harr.step henv h hR hs hraw hrest
    refine ⟨(id.gotData env s).2, hnext, fun ds => ?_⟩
    rw [List.append_assoc, hrun, List.singleton_append, receive_more hmore]

end passes

/-- The same values in the fields that the rest of the server reads. -/
structure SameRequest (id id' : RequestID) : Prop where
  rawUrl : id'.rawUrl = id.rawUrl
  f : id'.f = id.f
  notQuery : id'.notQuery = id.notQuery
  query : id'.query = id.query
  vars : ∀ k, id'.vars.lookup k = id.vars.lookup k
  prestate : id'.prestate = id.prestate
  data : id'.data = id.data
  leftovers : id'.leftovers = id.leftovers
  requestHeaders : ∀ k, id'.requestHeaders.lookup k = id.requestHeaders.lookup k
  accept : id'.misc.lookup "accept".toList = id.misc.lookup "accept".toList
  cacheControlOk : id'.cacheControlOk = id.cacheControlOk

/-- The cuts do no harm: under HTTP/1.1 none lies between the end of the request
line and that of the headers, and when the body is cut the URL is plain and
`accept` does not come before the length of the body. -/
structure Undisturbed (env : Env) (raw : Str) (cs : List Str) : Prop where
  head : protOf (clientprotOf raw) = "HTTP/1.1".toList → ¬ SplitHead cs
  body : search cs.flatten crlf2 ≠ none →
    Plain env (urlOf raw) ∧ ¬ AcceptFirst env (parseHeaders (headOf raw))

theorem UpToAside.same {r r' : Got × RequestID} (h : UpToAside r r')
    (hcache : r'.2.cacheControlOk = r.2.cacheControlOk) : SameRequest r.2 r'.2 := by
  obtain ⟨a, rfl, hagrees⟩ := h
  exact ⟨rfl, rfl, rfl, rfl, fun _ => rfl, rfl, rfl, rfl, fun _ => rfl, hagrees, hcache⟩

section last

variable {env : Env} {raw method f clientprot : Str} {n e : Nat}

theorem clientprotOf_eq (h : Parts raw n e method f clientprot) :
    clientprotOf raw = clientprot := by
  rw [clientprotOf, h.line]

theorem whole_done (h : Parts raw n e method f clientprot) (hR : Complete env raw) :
    ((ready raw method f clientprot).parseRest env (headOf raw)).1 = .done := by
  rw [← gotData_whole h]
  exact hR.accepted

/-- The last chunk brings the request line: this is the pass over the whole request. -/
theorem last_noLine (h : Parts raw n e method f clientprot) (hR : Complete env raw)
    {cs : List Str} {c : Str} {last : Nat} (hc : c ≠ []) (hraw : raw = cs.flatten ++ c)
    (hlast : last ≤ max (cs.flatten.length - 3) 4)
    (hnone : search cs.flatten "\n".toList = none) :
    let r := ({ RequestID.fresh with raw := cs.flatten, lastSearch := last } :
      RequestID).gotData env c
    (r.1 = .done ∧ SameRequest (RequestID.fresh.gotData env raw).2 r.2) ↔
      Undisturbed env raw cs := by
  have hne : cs.flatten ++ c ≠ [] := fun hnil => hc (List.append_eq_nil_iff.mp hnil).2
  have hbefore : ¬ n < cs.flatten.length := fun hlt => (line_le h hraw).mpr hlt hnone
  have hfour := h.four_le
  dsimp only
  rw [gotData_noLine hne, ← hraw, parseGot_whole h (by omega), gotData_whole h]
  refine ⟨fun _ => ⟨fun _ hsplit => ?_, fun hhead => ?_⟩, fun _ => ⟨whole_done h hR, ?_⟩⟩
  · obtain ⟨ds, hds, hline, -⟩ := hsplit
    exact hline (search_none_left (prefix_flatten hds) hnone)
  · have hle := (head_le h hraw).mp hhead
    have hn := h.newline_le
    omega
  · exact ⟨rfl, rfl, rfl, rfl, fun _ => rfl, rfl, rfl, rfl, fun _ => rfl, rfl, rfl⟩

/-- The last chunk brings the end of the headers: the pass over the whole request,
but for `cache_control_ok`. -/
theorem last_noHead (henv : env.Lawful) (h : Parts raw n e method f clientprot)
    (hR : Complete env raw) {cs : List Str} {c : Str} (hc : c ≠ [])
    (hraw : raw = cs.flatten ++ c) (hline : search cs.flatten "\n".toList ≠ none)
    (hnone : search cs.flatten crlf2 = none) :
    let r := ({ started raw cs.flatten method f clientprot with
      lastSearch := cs.flatten.length - 5 } : RequestID).gotData env c
    (r.1 = .done ∧ SameRequest (RequestID.fresh.gotData env raw).2 r.2) ↔
      Undisturbed env raw cs := by
  have hne : cs.flatten ++ c ≠ [] := fun hnil => hc (List.append_eq_nil_iff.mp hnil).2
  have hbefore : ¬ e + 4 ≤ cs.flatten.length := fun hle => (head_le h hraw).mpr hle hnone
  have hlast : cs.flatten.length - 5 ≤ e := by omega
  obtain ⟨ok, hready, hok⟩ := ready_eq raw method f clientprot
  -- the call is the pass over the whole request on an object with another `Aside`
  have hpass : ({ started raw cs.flatten method f clientprot with
      lastSearch := cs.flatten.length - 5 } : RequestID).gotData env c =
      ((ready raw method f clientprot).setAside
        { lastSearch := cs.flatten.length - 5, cacheControlOk := false, absoluteUri := none
          misc := ∅, miscLen := 0, wantedData := 0, haveData := 0 }).parseRest env
        (headOf raw) := by
    rw [gotData_noHead hne, ← hraw]
    rw [@parseGot_head env { started raw raw method f clientprot with
      lastSearch := cs.flatten.length - 5 } method e rfl h.head hlast]
    rw [@parseFrom_eq env { started raw raw method f clientprot with
      lastSearch := cs.flatten.length - 5 } raw [] method f clientprot n e h
      (List.append_nil raw).symm h.head_le rfl, hready, h.headEnd_eq]
    rfl
  have haside := @parseRest_aside env henv (ready raw method f clientprot)
    { lastSearch := cs.flatten.length - 5, cacheControlOk := false, absoluteUri := none
      misc := ∅, miscLen := 0, wantedData := 0, haveData := 0 } (headOf raw)
    (by rw [hready]; rfl)
  dsimp only
  rw [hpass, gotData_whole h]
  have hcache := (parseRest_spec henv ((ready raw method f clientprot).setAside
    { lastSearch := cs.flatten.length - 5, cacheControlOk := false, absoluteUri := none
      misc := ∅, miscLen := 0, wantedData := 0, haveData := 0 }) (headOf raw)).cacheControlOk
  have hcache' := (parseRest_spec henv (ready raw method f clientprot) (headOf raw)).cacheControlOk
  have hreadyOk : (ready raw method f clientprot).cacheControlOk = ok := by rw [hready]
  have hsplit : SplitHead cs := ⟨cs, List.prefix_refl cs, hline, hnone⟩
  -- only `cache_control_ok` can tell the two apart
  have hprot : protOf (clientprotOf raw) = "HTTP/1.1".toList ↔ ok = true := by
    rw [clientprotOf_eq h, hok]
  constructor
  · intro hand
    obtain ⟨-, hsame⟩ := hand
    refine ⟨fun h11 => ?_, fun hhead => absurd hnone hhead⟩
    have hsameOk := hsame.cacheControlOk
    rw [hcache, hcache', hreadyOk, hprot.mp h11] at hsameOk
    cases hsameOk
  · intro hund
    have hfalse : ok = false := by
      rw [← Bool.not_eq_true]
      exact fun htrue => hund.head (hprot.mpr htrue) hsplit
    refine ⟨?_, haside.same ?_⟩
    · obtain ⟨a, heq, -⟩ := haside
      rw [heq]
      exact whole_done h hR
    · rw [hcache, hcache', hreadyOk, hfalse]
      rfl

/-- The object when the pass over the whole request begins, if there were others before. -/
def completed (raw : Str) (id : RequestID) : RequestID :=
  { id with raw := raw, data := some (raw.drop (headEnd raw + 4)) }

/-- The call that brings the end of the body. -/
theorem gotData_completed (h : Parts raw n e method f clientprot) (hR : Complete env raw)
    {cs : List Str} {id : RequestID} {c : Str} (hraw : raw = cs.flatten ++ c)
    (hid : InBody env raw method f clientprot cs id) :
    id.gotData env c = (completed raw id).parseRest env (headOf raw) := by
  have hadd : id.raw ++ c = raw := by rw [hid.arrived, hraw]
  have hlen := hR.length
  have hwanted := hid.wantedData
  rw [gotData_call hid.unreadData (by rw [hadd]; omega) (by rw [hadd]; exact h.ne_nil), hadd,
    @parseGot_head env { id with raw := raw } method e hid.methodSet h.head
      (by rw [← h.headEnd_eq]; exact hid.lastSearch),
    @parseFrom_eq env { id with raw := raw } raw [] method f clientprot n e h
      (List.append_nil raw).symm h.head_le hid.lineSet, completed, h.headEnd_eq]

/-- When the fields come out the same, the passes before the last one have done no harm. -/
theorem undisturbed_of_same (henv : env.Lawful) (h : Parts raw n e method f clientprot)
    (hR : Complete env raw) {cs : List Str} {id : RequestID}
    (hid : InBody env raw method f clientprot cs id)
    (hdone : ((completed raw id).parseRest env (headOf raw)).1 = .done)
    (hsame : SameRequest ((ready raw method f clientprot).parseRest env (headOf raw)).2
      ((completed raw id).parseRest env (headOf raw)).2) :
    Undisturbed env raw cs := by
  obtain ⟨ok, hready, hok⟩ := ready_eq raw method f clientprot
  have hspec := parseRest_spec henv (completed raw id) (headOf raw)
  have hspec' := parseRest_spec henv (ready raw method f clientprot) (headOf raw)
  refine ⟨fun h11 => ?_, fun _ => ⟨?_, fun hfirst => ?_⟩⟩
  · have hyes : ok = true := by
      rw [clientprotOf_eq h] at h11
      exact hok.mpr h11
    have hsameOk := hsame.cacheControlOk
    rw [hspec.cacheControlOk, hspec'.cacheControlOk, hready] at hsameOk
    exact (hid.cacheControlOk.mp (hsameOk.trans hyes)).2
  · -- a URL that is not plain has become shorter
    by_contra hnot
    have hlt := hid.url_lt hnot
    have hsameUrl := hsame.rawUrl
    rw [hspec.rawUrl, hspec'.rawUrl, Option.some.injEq, ready_url h] at hsameUrl
    have hurl : id.url = urlOf raw := hsameUrl
    rw [hurl] at hlt
    exact Nat.lt_irrefl _ hlt
  · -- the visits of `accept` before the body was complete have left their list
    have hpos := hid.accept hfirst
    have hcount := (parseRest_done henv hdone).2
    have hcount' := (parseRest_done henv (whole_done h hR)).2
    have hnone : (ready raw method f clientprot).accepts.length = 0 := by rw [hready]; rfl
    have hkept : (completed raw id).accepts = id.accepts := rfl
    have hsameLen := congrArg (fun v => (Option.getD v []).length) hsame.accept
    have hlen : ((completed raw id).parseRest env (headOf raw)).2.accepts.length =
      ((ready raw method f clientprot).parseRest env (headOf raw)).2.accepts.length := hsameLen
    rw [hkept] at hcount
    omega

/-- When the cuts do no harm, the last pass goes as the pass over the whole request does. -/
theorem again_of_undisturbed (henv : env.Lawful) (h : Parts raw n e method f clientprot)
    (hR : Complete env raw) {cs : List Str} {id : RequestID} {c : Str} (hc : c ≠ [])
    (hraw : raw = cs.flatten ++ c) (hhead : search cs.flatten crlf2 ≠ none)
    (hid : InBody env raw method f clientprot cs id) (hund : Undisturbed env raw cs) :
    UpToAside ((ready raw method f clientprot).parseRest env (headOf raw))
      ((completed raw id).parseRest env (headOf raw)) := by
  obtain ⟨hplain, hnot⟩ := hund.body hhead
  obtain ⟨ok, hready, -⟩ := ready_eq raw method f clientprot
  have hstart := (hid.again hplain hnot).setRaw raw (some (raw.drop (headEnd raw + 4)))
  have hbase : ({ ready raw method f clientprot with
      raw := raw, data := some (raw.drop (headEnd raw + 4)) } : RequestID) =
      ready raw method f clientprot := by
    rw [hready]
    rfl
  have hstart' : SameStart (ready raw method f clientprot) (completed raw id) := by
    rw [← hbase]
    exact hstart
  -- the body is not empty: its last byte is in the last chunk
  have hpos : 0 < announcedIn (parseHeaders (headOf raw)) := by
    have hlen := hR.length
    have hle := (head_le h hraw).mp hhead
    have hc' := List.length_pos_iff.mpr hc
    have hwhole := congrArg List.length hraw
    rw [List.length_append] at hwhole
    rw [h.headEnd_eq] at hlen
    omega
  exact parseRest_again hstart' (by rw [ready_url h]; exact hplain)
    (by rw [ready_url h]; exact config_false henv h hR hplain) (announced_pos henv hpos).1

/-- The last chunk completes the body: the pass over the whole request once more, on
what the passes before it have made of the object. -/
theorem last_inBody (henv : env.Lawful) (h : Parts raw n e method f clientprot)
    (hR : Complete env raw) {cs : List Str} {id : RequestID} {c : Str} (hc : c ≠ [])
    (hraw : raw = cs.flatten ++ c) (hhead : search cs.flatten crlf2 ≠ none)
    (hid : InBody env raw method f clientprot cs id) :
    ((id.gotData env c).1 = .done ∧
        SameRequest (RequestID.fresh.gotData env raw).2 (id.gotData env c).2) ↔
      Undisturbed env raw cs := by
  rw [gotData_completed h hR hraw hid, gotData_whole h]
  constructor
  · exact fun hboth => undisturbed_of_same henv h hR hid hboth.1 hboth.2
  · intro hund
    obtain ⟨ok, hready, hok⟩ := ready_eq raw method f clientprot
    have hagain := again_of_undisturbed henv h hR hc hraw hhead hid hund
    refine ⟨?_, hagain.same ?_⟩
    · obtain ⟨a, heq, -⟩ := hagain
      rw [heq]
      exact whole_done h hR
    · rw [(parseRest_spec henv (completed raw id) (headOf raw)).cacheControlOk,
        (parseRest_spec henv (ready raw method f clientprot) (headOf raw)).cacheControlOk, hready,
        Bool.eq_iff_iff]
      show id.cacheControlOk = true ↔ ok = true
      rw [hid.cacheControlOk, hok]
      refine and_iff_left_of_imp fun h11 => hund.head ?_
      rw [clientprotOf_eq h]
      exact h11

end last

/-- However a complete request is cut into chunks, the last of them leaves the same
in the object as the request in one piece if and only if the cuts do no harm. -/
theorem packets_iff {env : Env} (henv : env.Lawful) {cs : List Str} {c : Str}
    (hne : ∀ s ∈ cs ++ [c], s ≠ []) (hR : Complete env (cs ++ [c]).flatten) :
    ((receive env RequestID.fresh (cs ++ [c])).1 = .done ∧
        SameRequest (receive env RequestID.fresh [(cs ++ [c]).flatten]).2
          (receive env RequestID.fresh (cs ++ [c])).2) ↔
      Undisturbed env (cs ++ [c]).flatten cs := by
  obtain ⟨n, e, method, f, clientprot, h⟩ := hR.parts
  have hflat : (cs ++ [c]).flatten = cs.flatten ++ c := by simp
  have hc : c ≠ [] := hne c (List.mem_append_right cs List.mem_cons_self)
  obtain ⟨id, harr, hrun⟩ := Arriving.run henv h hR cs c hflat hc
    fun s hs => hne s (List.mem_append_left [c] hs)
  have hlast : ((id.gotData env c).1 = .done ∧
      SameRequest (RequestID.fresh.gotData env (cs ++ [c]).flatten).2 (id.gotData env c).2) ↔
      Undisturbed env (cs ++ [c]).flatten cs := by
    cases harr with
    | noLine last hlast hnone hid =>
      subst hid
      exact last_noLine h hR hc hflat hlast hnone
    | noHead hline hnone hid =>
      subst hid
      exact last_noHead henv h hR hc hflat hline hnone
    | inBody hsome hbody => exact last_inBody henv h hR hc hflat hsome hbody
  rw [hrun, receive_done, receive_of_done hR.accepted, ← hlast]
  refine and_congr_right fun hdone => ?_
  rw [receive_of_done hdone]

/-- Pike on requests that are plain ASCII without '%' or a form: nothing to decode. -/
def sampleEnv : Env where
  httpDecodeString := some
  utf8ToString := some
  simplifyPath := some
  indices := fun m => m.keys
  mimeMessage := fun _ _ => none
  postBodySize := 0

theorem sampleEnv_lawful : sampleEnv.Lawful where
  decode_le s t h := by rw [Option.some.inj h]
  decode_eq s t h _ := (Option.some.inj h).symm
  utf8_le s t h := by rw [Option.some.inj h]
  utf8_eq s t h _ := (Option.some.inj h).symm
  indices_perm m := List.Perm.refl m.keys

/-- "GET / HTTP/1.0" and the empty line after it, in two chunks. -/
theorem packets_iff_sample :
    ((receive sampleEnv RequestID.fresh
        (["GET / HTTP/1.0\r\n".toList] ++ ["\r\n".toList])).1 = .done ∧
      SameRequest (receive sampleEnv RequestID.fresh
          [(["GET / HTTP/1.0\r\n".toList] ++ ["\r\n".toList]).flatten]).2
        (receive sampleEnv RequestID.fresh
          (["GET / HTTP/1.0\r\n".toList] ++ ["\r\n".toList])).2) ↔
      Undisturbed sampleEnv (["GET / HTTP/1.0\r\n".toList] ++ ["\r\n".toList]).flatten
        ["GET / HTTP/1.0\r\n".toList] :=
  packets_iff sampleEnv_lawful (by decide) ⟨by decide +kernel, by decide +kernel⟩

/-- A form in two chunks, the second with the last byte of the body: the first pass has
cut the query off the URL, and the second takes what is left for the raw URL. -/
theorem packets_lose_query :
    ¬ ∀ (env : Env) (cs : List Str) (c : Str), env.Lawful → (∀ s ∈ cs ++ [c], s ≠ []) →
      Complete env (cs ++ [c]).flatten →
        (receive env RequestID.fresh (cs ++ [c])).1 = .done ∧
          SameRequest (receive env RequestID.fresh [(cs ++ [c]).flatten]).2
            (receive env RequestID.fresh (cs ++ [c])).2 := by
  intro h
  have hsame := (h sampleEnv
    ["POST /a?x=1 HTTP/1.0\r\nContent-Length: 3\r\n\r\ny=".toList] "2".toList sampleEnv_lawful
    (by decide) ⟨by decide +kernel, by decide +kernel⟩).2
  exact absurd hsame.rawUrl (by decide +kernel)

end Caudium.Http
