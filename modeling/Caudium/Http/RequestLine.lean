import Caudium.Http.Packets

/-!
# A request line with spaces in the URL

`parse_got` splits the request line, with a space put behind it, into five pieces, and puts
those together again that belong to the URL. The URL comes out right with any number of
spaces in it. The protocol does not: the artificial space is taken off twice, so that its
last character is lost, and from the second space on the space before it is kept
(`scanLine_spaces`).
-/

namespace Caudium.Http

open Lib (Str Mapping search cut)

/-- The line of a request. -/
def requestLine (m u p : Str) : Str := m ++ ' ' :: (u ++ ' ' :: p)

/-- What a request line is made of. The URL may have spaces in it. -/
structure LineWords (m u p : Str) : Prop where
  method : ' ' ∉ m
  methodLine : '\n' ∉ m
  url : u.head? = some '/'
  urlLine : '\n' ∉ u
  prot : ' ' ∉ p
  protLine : '\n' ∉ p
  protReturn : '\r' ∉ p
  prot_ne : p ≠ []

/-- What `clientprot` becomes. -/
def readProt (u p : Str) : Str :=
  if u.count ' ' = 0 then p else if u.count ' ' = 1 then p.dropLast else ' ' :: p.dropLast

/-! ## The pieces -/

/-- `sscanf` finds the first space. -/
theorem cut_space {s : Str} (h : ' ' ∉ s) (t : Str) :
    cut (s ++ ' ' :: t) " ".toList = some (s, t) :=
  Lib.cut_char h t

theorem cut_space_none {s : Str} (h : ' ' ∉ s) : cut s " ".toList = none := Lib.cut_char_none h

/-- The last space of a trailer that has one is kept in front of the last word. -/
theorem joinTrailer_spaces (method f clientprot : Str) {t p : Str} (hp : ' ' ∉ p) (hne : p ≠ []) :
    joinTrailer method f clientprot (t ++ ' ' :: p) =
      .full method (f ++ ' ' :: clientprot ++ ' ' :: t) (' ' :: p.dropLast) := by
  have hdrop : (t ++ ' ' :: p).dropLast = t ++ ' ' :: p.dropLast := by
    rw [List.dropLast_append_of_ne_nil (List.cons_ne_nil _ _), List.dropLast_cons_of_ne_nil hne]
  have hlast : ' ' ∉ p.dropLast.reverse := by
    rw [List.mem_reverse]
    exact fun h => hp (List.mem_of_mem_dropLast h)
  have hsearch : search (t ++ ' ' :: p.dropLast).reverse " ".toList = some p.dropLast.length := by
    have hfirst := Lib.search_char hlast t.reverse
    rw [List.length_reverse] at hfirst
    simpa using hfirst
  have hlen : (t ++ ' ' :: p.dropLast).length - (p.dropLast.length + 1) = t.length := by
    simp
  unfold joinTrailer
  simp only [hdrop, hsearch, hlen, List.take_left, List.drop_left]

/-- A trailer without a space is the protocol. -/
theorem joinTrailer_word (method f clientprot : Str) {p : Str} (hp : ' ' ∉ p) :
    joinTrailer method f clientprot p = .full method (f ++ ' ' :: clientprot) p.dropLast := by
  have hlast : ' ' ∉ p.dropLast.reverse := by
    rw [List.mem_reverse]
    exact fun h => hp (List.mem_of_mem_dropLast h)
  have hsearch : search p.dropLast.reverse " ".toList = none := Lib.search_char_none hlast
  unfold joinTrailer
  simp only [hsearch]

/-- The first space of a string that has one. -/
theorem exists_first_space {s : Str} (h : ' ' ∈ s) : ∃ a b, s = a ++ ' ' :: b ∧ ' ' ∉ a :=
  List.eq_append_cons_of_mem h

/-- What the pieces are put together to. -/
theorem scanLine_spaces {m u p : Str} (hm : ' ' ∉ m) (hp : ' ' ∉ p) (hne : p ≠ []) :
    scanLine (requestLine m u p) = .full m u (readProt u p) := by
  have hline : requestLine m u p ++ " ".toList = m ++ ' ' :: (u ++ ' ' :: (p ++ [' '])) := by
    simp [requestLine]
  unfold scanLine
  rw [hline, cut_space hm]
  dsimp only
  by_cases hu : ' ' ∈ u
  · obtain ⟨a, b, rfl, ha⟩ := exists_first_space hu
    rw [List.append_assoc, List.cons_append, cut_space ha]
    dsimp only
    by_cases hb : ' ' ∈ b
    · -- at least two spaces: the trailer has the rest of the URL in it
      obtain ⟨b, c, rfl, hb'⟩ := exists_first_space hb
      rw [List.append_assoc, List.cons_append, cut_space hb']
      dsimp only
      have htrailer : ∃ t tt, cut (c ++ ' ' :: (p ++ [' '])) " ".toList = some (t, tt ++ [' ']) ∧
          t ++ ' ' :: tt = c ++ ' ' :: p := by
        by_cases hc : ' ' ∈ c
        · obtain ⟨c, d, rfl, hc'⟩ := exists_first_space hc
          refine ⟨c, d ++ ' ' :: p, ?_, by simp⟩
          rw [List.append_assoc, List.cons_append, cut_space hc']
          simp
        · exact ⟨c, p, cut_space hc _, rfl⟩
      obtain ⟨t, tt, hcut, heq⟩ := htrailer
      have hcount : readProt (a ++ ' ' :: (b ++ ' ' :: c)) p = ' ' :: p.dropLast := by
        simp only [readProt, List.count_append, List.count_cons]
        rw [if_neg (by simp), if_neg (by simp; omega)]
      rw [hcut]
      dsimp only
      rw [if_neg (by simp), List.dropLast_concat, heq, joinTrailer_spaces m a b hp hne, hcount]
      simp
    · -- one space: the protocol is the trailer
      rw [cut_space hb]
      dsimp only
      have hcount : readProt (a ++ ' ' :: b) p = p.dropLast := by
        simp [readProt, List.count_eq_zero.mpr ha, List.count_eq_zero.mpr hb]
      rw [cut_space hp]
      dsimp only
      rw [if_pos rfl, joinTrailer_word m a b hp, hcount]
  · rw [cut_space hu]
    dsimp only
    rw [cut_space hp]
    dsimp only
    rw [cut_space_none List.not_mem_nil, readProt, if_pos (List.count_eq_zero.mpr hu)]

/-- The protocol is right if there is no space in the URL, and only then. -/
theorem readProt_eq_iff {u p : Str} (hp : ' ' ∉ p) (hne : p ≠ []) : readProt u p = p ↔ ' ' ∉ u := by
  have hshort : p.dropLast ≠ p := by
    intro h
    have hlen := congrArg List.length h
    have hpos := List.length_pos_of_ne_nil hne
    rw [List.length_dropLast] at hlen
    omega
  have hspace : ' ' :: p.dropLast ≠ p := fun h => hp (by rw [← h]; exact List.mem_cons_self)
  rw [← List.count_eq_zero, readProt]
  split
  next h => simp [h]
  next h =>
    split
    · exact iff_of_false hshort h
    · exact iff_of_false hspace h

/-! ## The call -/

/-- The URL part of a pass leaves the request line alone. -/
theorem scanUrl_line (env : Env) (id : RequestID) :
    (id.scanUrl env).2.method = id.method ∧ (id.scanUrl env).2.rawUrl = id.rawUrl ∧
      (id.scanUrl env).2.clientprot = id.clientprot := by
  obtain ⟨query, vars, empty, hscan⟩ := scanQuery_eq id
  unfold RequestID.scanUrl
  obtain ⟨ok, id', hid'⟩ : ∃ ok id', id.scanQuery = (ok, id') := ⟨_, _, rfl⟩
  rw [hid'] at hscan ⊢
  dsimp only at hscan
  subst hscan
  cases ok with
  | false => exact ⟨rfl, rfl, rfl⟩
  | true =>
    dsimp only
    cases env.httpDecodeString (beforeQuery id.f) with
    | none => exact ⟨rfl, rfl, rfl⟩
    | some f =>
      obtain ⟨prestate, f', hprestate, -, -⟩ := scanPrestate_eq
        { id with f := (cleanUrl env f).2, query := query, vars := vars, emptyVariables := empty }
      dsimp only at hprestate ⊢
      rw [hprestate]
      exact ⟨rfl, rfl, rfl⟩

/-- And so does the whole pass, whatever comes of it. -/
theorem parseRest_line (env : Env) (id : RequestID) (s : Str) :
    (id.parseRest env s).2.method = id.method ∧
      (id.parseRest env s).2.rawUrl = some (stripHost id.clientprot id.f) ∧
      (id.parseRest env s).2.clientprot = id.clientprot := by
  have hpart := parseRest_urlPart env id s
  obtain ⟨uri, huri⟩ := setRawUrl_eq id
  obtain ⟨hmethod, hurl, hprot⟩ := scanUrl_line env id.setRawUrl
  rw [huri] at hmethod hurl hprot
  have hmethod' := congrArg RequestID.method hpart
  have hurl' := congrArg RequestID.rawUrl hpart
  have hprot' := congrArg RequestID.clientprot hpart
  refine ⟨hmethod'.trans ?_, hurl'.trans ?_, hprot'.trans ?_⟩
  · show (id.setRawUrl.scanUrl env).2.method = _
    rw [huri]
    exact hmethod
  · show (id.setRawUrl.scanUrl env).2.rawUrl = _
    rw [huri]
    exact hurl
  · show (id.setRawUrl.scanUrl env).2.clientprot = _
    rw [huri]
    exact hprot

/-- A path is not an absolute URI. -/
theorem stripHost_path (clientprot : Str) {u : Str} (h : u.head? = some '/') :
    stripHost clientprot u = u := by
  have hscheme : schemeLength u = 0 := by
    cases u with
    | nil => cases h
    | cons c u =>
      obtain rfl : c = '/' := Option.some.inj h
      rw [schemeLength, if_neg, if_neg]
      · exact fun h => by cases (List.cons_prefix_cons.mp h).1
      · exact fun h => by cases (List.cons_prefix_cons.mp h).1
  have hnone : pathStart clientprot u = none := by
    rw [pathStart, hscheme]
    exact if_neg fun h => h.2.1 rfl
  rw [stripHost, hnone]

/-- A line ended by CRLF, and what comes before the end. -/
theorem cutLine_crlf {line : Str} (h : '\n' ∉ line) (tail : Str) :
    search (line ++ '\r' :: '\n' :: tail) "\n".toList = some (line.length + 1) ∧
      cutLine (line ++ '\r' :: '\n' :: tail) (line.length + 1) = line := by
  have hsearch := Lib.search_char (s := line ++ ['\r']) (c := '\n') (by simpa using h) tail
  have hraw : line ++ '\r' :: '\n' :: tail = line ++ ['\r'] ++ '\n' :: tail := by simp
  refine ⟨?_, ?_⟩
  · rw [hraw]
    simpa using hsearch
  · have hat : charAt (line ++ '\r' :: '\n' :: tail) (line.length + 1 - 1) = '\r' :=
      charAt_append _ _ _
    rw [cutLine, if_pos hat, Nat.add_sub_cancel, List.take_left]

/-- A line ended by a LF alone. -/
theorem cutLine_lf {line : Str} (h : '\n' ∉ line) (hne : line ≠ [])
    (hlast : line.getLast hne ≠ '\r') (tail : Str) :
    search (line ++ '\n' :: tail) "\n".toList = some line.length ∧
      cutLine (line ++ '\n' :: tail) line.length = line := by
  have hpos := List.length_pos_of_ne_nil hne
  have hat : charAt (line ++ '\n' :: tail) (line.length - 1) = line.getLast hne := by
    rw [charAt, List.getD_eq_getElem?_getD, List.getElem?_append_left (by omega),
      ← List.getLast?_eq_getElem?, List.getLast?_eq_some_getLast hne]
    rfl
  refine ⟨Lib.search_char h tail, ?_⟩
  rw [cutLine, if_neg (by rw [hat]; exact hlast), List.take_left]

section Call

variable {m u p eol tail : Str}

/-- The newline is the first one of the request, and `line` is what stands before it. -/
theorem line_found (tail : Str) (h : LineWords m u p)
    (heol : eol = "\r\n".toList ∨ eol = "\n".toList) :
    ∃ n, search (requestLine m u p ++ (eol ++ tail)) "\n".toList = some n ∧
      cutLine (requestLine m u p ++ (eol ++ tail)) n = requestLine m u p := by
  have hline : '\n' ∉ requestLine m u p := by
    have hm := h.methodLine
    have hu := h.urlLine
    have hp := h.protLine
    simp [requestLine, hm, hu, hp]
  rcases heol with rfl | rfl
  · exact ⟨_, cutLine_crlf hline tail⟩
  · have hne : requestLine m u p ≠ [] := by simp [requestLine]
    have hlast : (requestLine m u p).getLast hne = p.getLast h.prot_ne := by
      have hc := List.getLast?_eq_some_getLast h.prot_ne
      refine Option.some.inj ?_
      rw [← List.getLast?_eq_some_getLast hne, ← hc]
      simp [requestLine, List.getLast?_append, List.getLast?_cons, hc]
    refine ⟨_, cutLine_lf hline hne ?_ tail⟩
    rw [hlast]
    exact fun heq => h.protReturn (by rw [← heq]; exact List.getLast_mem h.prot_ne)

/-- What a complete request with such a line makes of the fields: the URL is right whatever
spaces it has. -/
theorem gotData_line (env : Env) (h : LineWords m u p)
    (heol : eol = "\r\n".toList ∨ eol = "\n".toList)
    (hcomplete : search (requestLine m u p ++ (eol ++ tail)) crlf2 ≠ none) :
    let id := (RequestID.fresh.gotData env (requestLine m u p ++ (eol ++ tail))).2
    id.method = some m ∧ id.rawUrl = some u ∧ id.clientprot = readProt u p := by
  obtain ⟨n, hnewline, hcut⟩ := line_found tail h heol
  obtain ⟨e, hhead⟩ := Option.ne_none_iff_exists'.mp hcomplete
  have hlineOf : lineOf (requestLine m u p ++ (eol ++ tail)) = requestLine m u p := by
    rw [lineOf, hnewline, Option.getD_some, hcut]
  have hlong : 4 ≤ (requestLine m u p).length := by
    have hp := List.length_pos_of_ne_nil h.prot_ne
    have hu : u ≠ [] := fun hu => by rw [hu] at h; cases h.url
    have hu := List.length_pos_of_ne_nil hu
    simp only [requestLine, List.length_append, List.length_cons]
    omega
  have hparts : Parts (requestLine m u p ++ (eol ++ tail)) n e m u (readProt u p) :=
    ⟨hnewline, by rw [hlineOf]; exact hlong,
      by rw [hlineOf]; exact scanLine_spaces h.method h.prot h.prot_ne, hhead⟩
  have hready : ∀ raw f prot, (ready raw m f prot).method = some m ∧ (ready raw m f prot).f = f ∧
      (ready raw m f prot).clientprot = prot := by
    intro raw f prot
    unfold ready RequestID.allowCache
    split <;> exact ⟨rfl, rfl, rfl⟩
  obtain ⟨hm, hu, hp⟩ := hready (requestLine m u p ++ (eol ++ tail)) u (readProt u p)
  obtain ⟨hm', hu', hp'⟩ := parseRest_line env
    (ready (requestLine m u p ++ (eol ++ tail)) m u (readProt u p))
    (headOf (requestLine m u p ++ (eol ++ tail)))
  rw [hm] at hm'
  rw [hu, hp, stripHost_path _ h.url] at hu'
  rw [hp] at hp'
  dsimp only
  rw [gotData_whole hparts]
  exact ⟨hm', hu', hp'⟩

/-- The fields are what the line says if the URL has no space in it, and only then. -/
theorem requestLine_iff (env : Env) (h : LineWords m u p)
    (heol : eol = "\r\n".toList ∨ eol = "\n".toList)
    (hcomplete : search (requestLine m u p ++ (eol ++ tail)) crlf2 ≠ none) :
    let id := (RequestID.fresh.gotData env (requestLine m u p ++ (eol ++ tail))).2
    (id.method = some m ∧ id.rawUrl = some u ∧ id.clientprot = p) ↔ ' ' ∉ u := by
  obtain ⟨hm, hu, hp⟩ := gotData_line env h heol hcomplete
  dsimp only at hm hu hp ⊢
  rw [hm, hu, hp, readProt_eq_iff h.prot h.prot_ne]
  simp

end Call

theorem requestLine_iff_plain :
    let id := (RequestID.fresh.gotData sampleEnv
      (requestLine "GET".toList "/ab".toList "HTTP/1.1".toList ++
        ("\r\n".toList ++ "\r\n".toList))).2
    (id.method = some "GET".toList ∧ id.rawUrl = some "/ab".toList ∧
      id.clientprot = "HTTP/1.1".toList) ↔ ' ' ∉ "/ab".toList :=
  requestLine_iff sampleEnv
    ⟨by decide, by decide, rfl, by decide, by decide, by decide, by decide, by decide⟩
    (Or.inl rfl) (by decide)

/-- One space in the URL, and the protocol loses its last character. -/
theorem requestLine_one_space :
    ∃ m u p, LineWords m u p ∧
      let id := (RequestID.fresh.gotData sampleEnv
        (requestLine m u p ++ ("\r\n".toList ++ "\r\n".toList))).2
      id.rawUrl = some "/a b".toList ∧ id.clientprot = "HTTP/1.".toList ∧ id.clientprot ≠ p :=
  ⟨"GET".toList, "/a b".toList, "HTTP/1.1".toList,
    ⟨by decide, by decide, rfl, by decide, by decide, by decide, by decide, by decide⟩,
    by decide +kernel⟩

end Caudium.Http
