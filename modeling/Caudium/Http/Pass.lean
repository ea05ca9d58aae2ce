import Caudium.Http.HeaderPass

/-!
# A whole pass of `parse_got`

The URL and the headers together: what a pass leaves alone and what it makes of
the URL (`parseRest_spec`), what it adds to `misc["accept"]` when it ends the
request (`parseRest_done`) and when the body is not complete (`parseRest_short`),
and the two ways in which a pass on another object comes to the same:
`parseRest_aside`, and `parseRest_again` for a second pass over a plain URL.
-/

namespace Caudium.Http

open Lib (Str Mapping search cut)

/-! ## A whole pass -/

/-- The URL a pass starts from. -/
abbrev RequestID.url (id : RequestID) : Str := stripHost id.clientprot id.f

/-- The object when the headers are turned to. -/
def RequestID.afterUrl (env : Env) (id : RequestID) : RequestID := (id.setRawUrl.scanUrl env).2

/-- The names of the headers, in the order in which they are visited. -/
def visited (env : Env) (s : Str) : List Str := if s = [] then [] else env.indices (parseHeaders s)

/-- The object when the first header is visited. -/
def RequestID.withHeaders (id : RequestID) (s : Str) : RequestID :=
  if s = [] then id else { id with requestHeaders := parseHeaders s }

theorem scanHeaders_eq (env : Env) (id : RequestID) (s : Str) :
    id.scanHeaders env s = headerCases env (visited env s) (id.withHeaders s) := by
  unfold RequestID.scanHeaders visited RequestID.withHeaders
  split <;> rfl

theorem withHeaders_ne {s : Str} (hs : s ≠ []) (id : RequestID) :
    id.withHeaders s = { id with requestHeaders := parseHeaders s } :=
  if_neg hs

theorem withHeaders_urlPart (id : RequestID) (s : Str) :
    (id.withHeaders s).urlPart = id.urlPart := by
  unfold RequestID.withHeaders
  split <;> rfl

theorem withHeaders_misc (id : RequestID) (s : Str) : (id.withHeaders s).misc = id.misc := by
  unfold RequestID.withHeaders
  split <;> rfl

theorem parseRest_thrown {env : Env} {id : RequestID} (h : (id.setRawUrl.scanUrl env).1 = none)
    (s : Str) : id.parseRest env s = (.thrown, id.afterUrl env) := by
  unfold RequestID.parseRest RequestID.afterUrl
  obtain ⟨o, i, ho⟩ : ∃ o i, id.setRawUrl.scanUrl env = (o, i) := ⟨_, _, rfl⟩
  rw [ho] at h ⊢
  dsimp only at h
  rw [h]

theorem parseRest_eq {env : Env} {id : RequestID} {config : Bool}
    (h : (id.setRawUrl.scanUrl env).1 = some config) (s : Str) : id.parseRest env s =
      finish config (headerCases env (visited env s) ((id.afterUrl env).withHeaders s)) := by
  unfold RequestID.parseRest RequestID.afterUrl
  rw [← scanHeaders_eq]
  obtain ⟨o, i, ho⟩ : ∃ o i, id.setRawUrl.scanUrl env = (o, i) := ⟨_, _, rfl⟩
  rw [ho] at h ⊢
  dsimp only at h
  rw [h]

theorem parseRest_urlPart (env : Env) (id : RequestID) (s : Str) :
    (id.parseRest env s).2.urlPart = (id.afterUrl env).urlPart := by
  cases h : (id.setRawUrl.scanUrl env).1 with
  | none => rw [parseRest_thrown h]
  | some config =>
    rw [parseRest_eq h]
    show (headerCases _ _ _).2.urlPart = _
    rw [headerCases_urlPart, withHeaders_urlPart]

/-- The fields that the URL part of a pass leaves alone, and what it makes of the URL. -/
structure AfterUrl (env : Env) (id id' : RequestID) : Prop where
  raw : id'.raw = id.raw
  method : id'.method = id.method
  line : id'.line = id.line
  clientprot : id'.clientprot = id.clientprot
  lastSearch : id'.lastSearch = id.lastSearch
  cacheControlOk : id'.cacheControlOk = id.cacheControlOk
  unreadData : id'.unreadData = id.unreadData
  rawUrl : id'.rawUrl = some id.url
  f_le : id'.f.length ≤ id.url.length
  f_lt : (id.setRawUrl.scanUrl env).1 = some false → ¬ Plain env id.url →
    id'.f.length < id.url.length

theorem afterUrl_eq {env : Env} (henv : env.Lawful) (id : RequestID) :
    ∃ uri f query vars empty prestate notQuery, id.afterUrl env = { id with
      absoluteUri := uri, rawUrl := some id.url, f := f, query := query, vars := vars
      emptyVariables := empty, prestate := prestate, notQuery := notQuery } ∧
      f.length ≤ id.url.length ∧
      ((id.setRawUrl.scanUrl env).1 = some false → f.length = id.url.length → Plain env id.url) := by
  obtain ⟨uri, huri⟩ := setRawUrl_eq id
  obtain ⟨f, query, vars, empty, prestate, notQuery, h, hle, hplain⟩ := scanUrl_eq henv id.setRawUrl
  have hf : id.setRawUrl.f = id.url := by rw [huri]
  rw [hf] at hle hplain
  refine ⟨uri, f, query, vars, empty, prestate, notQuery, ?_, hle, hplain⟩
  rw [RequestID.afterUrl, h, huri]

/-- A pass, whatever comes of it. -/
theorem parseRest_spec {env : Env} (henv : env.Lawful) (id : RequestID) (s : Str) :
    AfterUrl env id (id.parseRest env s).2 := by
  have hpart := parseRest_urlPart env id s
  obtain ⟨uri, f, query, vars, empty, prestate, notQuery, h, hle, hplain⟩ := afterUrl_eq henv id
  rw [h] at hpart
  have hraw := congrArg RequestID.raw hpart
  have hmethod := congrArg RequestID.method hpart
  have hline := congrArg RequestID.line hpart
  have hclientprot := congrArg RequestID.clientprot hpart
  have hlast := congrArg RequestID.lastSearch hpart
  have hcache := congrArg RequestID.cacheControlOk hpart
  have hunread := congrArg RequestID.unreadData hpart
  have hurl := congrArg RequestID.rawUrl hpart
  have hf := congrArg RequestID.f hpart
  refine ⟨hraw, hmethod, hline, hclientprot, hlast, hcache, hunread, hurl, ?_,
    fun hsome hnot => ?_⟩
  · exact (congrArg List.length hf).trans_le hle
  · rw [show (id.parseRest env s).2.f = f from hf]
    exact Nat.lt_of_le_of_ne hle fun heq => hnot (hplain hsome heq)

theorem afterUrl_misc {env : Env} (henv : env.Lawful) (id : RequestID) :
    (id.afterUrl env).misc = id.misc := by
  obtain ⟨_, _, _, _, _, _, _, h, -, -⟩ := afterUrl_eq henv id
  rw [h]

theorem accepts_afterUrl {env : Env} (henv : env.Lawful) (id : RequestID) (s : Str) :
    ((id.afterUrl env).withHeaders s).accepts = id.accepts := by
  rw [RequestID.accepts, withHeaders_misc, afterUrl_misc henv, RequestID.accepts]

theorem parseRest_accepts_le {env : Env} (henv : env.Lawful) (id : RequestID) (s : Str) :
    id.accepts.length ≤ (id.parseRest env s).2.accepts.length := by
  cases h : (id.setRawUrl.scanUrl env).1 with
  | none =>
    rw [parseRest_thrown h]
    show _ ≤ (((id.afterUrl env).misc.lookup _).getD []).length
    rw [afterUrl_misc henv]
    exact Nat.le_refl _
  | some config =>
    rw [parseRest_eq h, ← accepts_afterUrl henv id s]
    exact headerCases_accepts_le _ _

theorem finish_done {config : Bool} {r : Option Got × RequestID}
    (h : (finish config r).1 = .done) (hr : r.1 ≠ some .done) : r.1 = none ∧ config = false := by
  unfold finish at h
  dsimp only at h
  cases hg : r.1 with
  | none =>
    rw [hg, Option.getD_none] at h
    cases config with
    | false => exact ⟨rfl, rfl⟩
    | true => cases h
  | some g =>
    rw [hg, Option.getD_some] at h
    rw [hg, h] at hr
    exact absurd rfl hr

/-- A pass that ends the request: the URL was free of a configuration, and each visit
of `accept` has added its list. -/
theorem parseRest_done {env : Env} (henv : env.Lawful) {id : RequestID} {s : Str}
    (h : (id.parseRest env s).1 = .done) :
    (id.setRawUrl.scanUrl env).1 = some false ∧
      (id.parseRest env s).2.accepts.length = id.accepts.length +
        (visited env s).count "accept".toList * (acceptIn (parseHeaders s)).length := by
  cases hscan : (id.setRawUrl.scanUrl env).1 with
  | none =>
    rw [parseRest_thrown hscan] at h
    cases h
  | some config =>
    rw [parseRest_eq hscan] at h ⊢
    -- no header has made it return, and `config` is not set
    obtain ⟨hnone, hfalse⟩ := finish_done h (headerCases_ne_done _ _)
    refine ⟨by rw [hfalse], ?_⟩
    show (headerCases _ _ _).2.accepts.length = _
    rw [headerCases_accepts _ _ hnone, accepts_afterUrl henv, visited]
    by_cases hs : s = []
    · rw [if_pos hs, List.count_nil, Nat.zero_mul, Nat.zero_mul]
    · rw [if_neg hs, withHeaders_ne hs]
      rfl

/-- The visit of the `accept` header comes before that of the body length. -/
def AcceptFirst (env : Env) (headers : Mapping Str Str) : Prop :=
  ∃ xs ys, env.indices headers = xs ++ "content-length".toList :: ys ∧ "accept".toList ∈ xs

theorem indices_nodup {env : Env} (henv : env.Lawful) (headers : Mapping Str Str) :
    (env.indices headers).Nodup :=
  (henv.indices_perm headers).nodup_iff.mpr headers.nodupKeys

/-- A body is announced only by headers that name its length. -/
theorem announced_pos {env : Env} (henv : env.Lawful) {s : Str}
    (h : 0 < announcedIn (parseHeaders s)) :
    s ≠ [] ∧ "content-length".toList ∈ env.indices (parseHeaders s) := by
  refine ⟨?_, ?_⟩
  · intro heq
    subst heq
    exact absurd h (by decide)
  · rw [(henv.indices_perm _).mem_iff, Lib.Mapping.mem_keys_iff]
    cases hlookup : (parseHeaders s).lookup "content-length".toList with
    | some v => exact ⟨v, rfl⟩
    | none =>
      rw [announcedIn, hlookup] at h
      exact absurd h (by decide)

/-- A pass over headers whose body is not complete: unless the URL throws, it ends
at the body length, and what it has added to `misc["accept"]` depends on the order. -/
theorem parseRest_short {env : Env} (henv : env.Lawful) {id : RequestID} {s : Str} {config : Bool}
    (hscan : (id.setRawUrl.scanUrl env).1 = some config)
    (hshort : ((id.data.getD []).length : Int) < announcedIn (parseHeaders s)) :
    (id.parseRest env s).1 = .more ∧
      (AcceptFirst env (parseHeaders s) → 0 < (id.parseRest env s).2.accepts.length) ∧
      (¬ AcceptFirst env (parseHeaders s) →
        (id.parseRest env s).2.misc.lookup "accept".toList = id.misc.lookup "accept".toList) ∧
      (id.parseRest env s).2.bodyPart = (id.afterUrl env).bodyPart := by
  have hpos : 0 < announcedIn (parseHeaders s) :=
    Int.lt_of_le_of_lt (Int.natCast_nonneg (id.data.getD []).length) hshort
  obtain ⟨hs, hmem⟩ := announced_pos henv hpos
  obtain ⟨_, _, _, _, _, _, _, hafter, -, -⟩ := afterUrl_eq henv id
  have hdata : ((((id.afterUrl env).withHeaders s).data.getD []).length : Int)
      < ((id.afterUrl env).withHeaders s).announced := by
    rw [withHeaders_ne hs, hafter]
    exact hshort
  rw [parseRest_eq hscan, visited, if_neg hs]
  -- the same of every way to cut the order at the body length: there is only one
  have hcut : ∀ xs ys, env.indices (parseHeaders s) = xs ++ "content-length".toList :: ys →
      "content-length".toList ∉ xs := by
    intro xs ys hsplit hin
    have hnodup := indices_nodup henv (parseHeaders s)
    rw [hsplit, List.nodup_append] at hnodup
    exact hnodup.2.2 _ hin _ List.mem_cons_self rfl
  obtain ⟨xs, ys, hsplit⟩ := List.append_of_mem hmem
  refine ⟨?_, ?_, ?_, ?_⟩
  · rw [hsplit, finish, (headerCases_short (hcut xs ys hsplit) hdata).1]
    rfl
  · intro hand
    obtain ⟨xs, ys, hsplit, haccept⟩ := hand
    have hxs := hcut xs ys hsplit
    have hcount := List.count_pos_iff.mpr haccept
    have hvalue := acceptIn_pos ((id.afterUrl env).withHeaders s).requestHeaders
    rw [hsplit, finish]
    show 0 < (((headerCases _ _ _).2.misc.lookup _).getD []).length
    rw [(headerCases_short hxs hdata).2.1]
    show 0 < (headerCases _ _ _).2.accepts.length
    rw [headerCases_accepts _ _ (headerCases_none xs _ hxs).1]
    exact Nat.add_pos_right _ (Nat.mul_pos hcount hvalue)
  · intro hnot
    have haccept : "accept".toList ∉ xs := fun h => hnot ⟨xs, ys, hsplit, h⟩
    rw [hsplit, finish]
    show (headerCases _ _ _).2.misc.lookup _ = _
    rw [(headerCases_short (hcut xs ys hsplit) hdata).2.1, headerCases_lookup _ _ haccept,
      withHeaders_misc, afterUrl_misc henv]
  · rw [hsplit, finish]
    show (headerCases _ _ _).2.bodyPart = _
    rw [(headerCases_short (hcut xs ys hsplit) hdata).2.2, withHeaders_ne hs]
    rfl

/-- No more is waited for after a pass than before it, or than is announced. -/
theorem parseRest_wanted {env : Env} (henv : env.Lawful) {id : RequestID} {s : Str} {b : Int}
    (h0 : 0 ≤ b) (hwanted : id.wantedData ≤ b) (hlen : announcedIn (parseHeaders s) ≤ b) :
    (id.parseRest env s).2.wantedData ≤ b := by
  obtain ⟨_, _, _, _, _, _, _, hafter, -, -⟩ := afterUrl_eq henv id
  cases hscan : (id.setRawUrl.scanUrl env).1 with
  | none =>
    rw [parseRest_thrown hscan, hafter]
    exact hwanted
  | some config =>
    rw [parseRest_eq hscan, hafter]
    show (headerCases _ _ _).2.wantedData ≤ b
    by_cases hs : s = []
    · subst hs
      exact hwanted
    · rw [withHeaders_ne hs]
      exact headerCases_wanted _ _ h0 hwanted hlen

/-! ## The same pass on another object -/

theorem scanUrl_aside (env : Env) (id : RequestID) (a : Aside) :
    (id.setAside a).scanUrl env = ((id.scanUrl env).1, (id.scanUrl env).2.setAside a) := by
  have hquery : (id.setAside a).scanQuery = (id.scanQuery.1, id.scanQuery.2.setAside a) := by
    unfold RequestID.scanQuery
    rw [show (id.setAside a).f = id.f from rfl]
    cases cut id.f "?".toList with
    | none => rfl
    | some r => exact parseQuery_aside { id with f := r.1, query := some r.2 } a r.2
  have hprestate : ∀ i : RequestID, (i.setAside a).scanPrestate = i.scanPrestate.setAside a := by
    intro i
    unfold RequestID.scanPrestate
    rw [show (i.setAside a).f = i.f from rfl]
    cases enclosed "/(".toList ")/".toList i.f with
    | none => rfl
    | some r =>
      dsimp only
      split <;> rfl
  -- the query first; what follows it runs only where that did not fail
  unfold RequestID.scanUrl
  rw [hquery]
  obtain ⟨ok, i, hi⟩ : ∃ ok i, id.scanQuery = (ok, i) := ⟨_, _, rfl⟩
  rw [hi]
  cases ok with
  | false => rfl
  | true =>
    dsimp only
    rw [show (i.setAside a).f = i.f from rfl]
    cases env.httpDecodeString i.f with
    | none => rfl
    | some f =>
      dsimp only
      have hclean := hprestate { i with f := (cleanUrl env f).2 }
      rw [show ({ i.setAside a with f := (cleanUrl env f).2 } : RequestID).scanPrestate
        = _ from hclean]
      rfl

theorem setRawUrl_aside (id : RequestID) (a : Aside) : ∃ uri,
    (id.setAside a).setRawUrl = id.setRawUrl.setAside { a with absoluteUri := uri } := by
  obtain ⟨uri, huri⟩ := setRawUrl_eq id
  obtain ⟨uri', huri'⟩ := setRawUrl_eq (id.setAside a)
  exact ⟨uri', by rw [huri, huri']; rfl⟩

theorem UpToAside.finish {config : Bool} {r r' : Option Got × RequestID} (h : UpToAside r r') :
    UpToAside (Http.finish config r) (Http.finish config r') := by
  obtain ⟨a, rfl, hagrees⟩ := h
  exact ⟨a, rfl, hagrees⟩

/-- A pass does the same to two objects that differ aside only. -/
theorem parseRest_aside {env : Env} (henv : env.Lawful) {id : RequestID} {a : Aside} (s : Str)
    (h : a.Agrees id) : UpToAside (id.parseRest env s) ((id.setAside a).parseRest env s) := by
  obtain ⟨uri, huri⟩ := setRawUrl_aside id a
  have hscan := scanUrl_aside env id.setRawUrl { a with absoluteUri := uri }
  rw [← huri] at hscan
  have hfst := congrArg Prod.fst hscan
  have hafter : (id.setAside a).afterUrl env
      = (id.afterUrl env).setAside { a with absoluteUri := uri } := congrArg Prod.snd hscan
  have hagrees : Aside.Agrees { a with absoluteUri := uri } (id.afterUrl env) := by
    rw [Aside.Agrees, afterUrl_misc henv]
    exact h
  cases hc : (id.setRawUrl.scanUrl env).1 with
  | none =>
    rw [parseRest_thrown hc, parseRest_thrown (hfst.trans hc), hafter]
    exact ⟨_, rfl, hagrees⟩
  | some config =>
    rw [parseRest_eq hc, parseRest_eq (hfst.trans hc), hafter]
    refine UpToAside.finish ?_
    have hwith : ((id.afterUrl env).setAside { a with absoluteUri := uri }).withHeaders s
        = ((id.afterUrl env).withHeaders s).setAside { a with absoluteUri := uri } := by
      unfold RequestID.withHeaders
      split <;> rfl
    rw [hwith]
    refine headerCases_aside _ _ _ ?_
    rw [Aside.Agrees, withHeaders_misc]
    exact hagrees

/-- Two objects from which a pass over a plain URL does the same: what it overwrites
may differ. -/
structure SameStart (id id' : RequestID) : Prop where
  raw : id'.raw = id.raw
  method : id'.method = id.method
  line : id'.line = id.line
  clientprot : id'.clientprot = id.clientprot
  prot : id'.prot = id.prot
  url : id'.url = id.url
  data : id'.data = id.data
  query : id'.query = id.query
  vars : id'.vars = id.vars
  emptyVariables : id'.emptyVariables = id.emptyVariables
  prestate : id'.prestate = id.prestate
  unreadData : id'.unreadData = id.unreadData
  leftovers : id'.leftovers = id.leftovers
  accept : id'.misc.lookup "accept".toList = id.misc.lookup "accept".toList

/-- The object at the first header, when the URL is plain. -/
theorem withHeaders_plain {env : Env} {id : RequestID} {s : Str} (hplain : Plain env id.url)
    (hconfig : (configPart id.url).1 = false) (hs : s ≠ []) :
    (id.setRawUrl.scanUrl env).1 = some false ∧ ∃ uri, (id.afterUrl env).withHeaders s = { id with
      absoluteUri := uri, rawUrl := some id.url, f := id.url
      notQuery := some ((env.simplifyPath id.url).getD id.url)
      requestHeaders := parseHeaders s } := by
  obtain ⟨uri, huri⟩ := setRawUrl_eq id
  have hf : id.setRawUrl.f = id.url := by rw [huri]
  have hscan := @scanUrl_plain env id.setRawUrl (by rw [hf]; exact hplain) (by rw [hf]; exact hconfig)
  refine ⟨congrArg Prod.fst hscan, uri, ?_⟩
  rw [withHeaders_ne hs, RequestID.afterUrl, hscan, huri]

theorem parseRest_again {env : Env} {id id' : RequestID} {s : Str} (hstart : SameStart id id')
    (hplain : Plain env id.url) (hconfig : (configPart id.url).1 = false) (hs : s ≠ []) :
    UpToAside (id.parseRest env s) (id'.parseRest env s) := by
  obtain ⟨hscan, uri, hwith⟩ := withHeaders_plain hplain hconfig hs
  obtain ⟨hscan', uri', hwith'⟩ := @withHeaders_plain env id' s (by rw [hstart.url]; exact hplain)
    (by rw [hstart.url]; exact hconfig) hs
  rw [parseRest_eq hscan, parseRest_eq hscan', hwith, hwith', hstart.url]
  refine UpToAside.finish ?_
  have haside := @headerCases_aside env (visited env s) { id with
      absoluteUri := uri, rawUrl := some id.url, f := id.url
      notQuery := some ((env.simplifyPath id.url).getD id.url)
      requestHeaders := parseHeaders s }
    { lastSearch := id'.lastSearch, cacheControlOk := id'.cacheControlOk, absoluteUri := uri'
      misc := id'.misc, miscLen := id'.miscLen, wantedData := id'.wantedData
      haveData := id'.haveData } hstart.accept
  refine Eq.mp (congrArg (fun i => UpToAside _ (headerCases env (visited env s) i)) ?_) haside
  rw [RequestID.setAside]
  dsimp only
  rw [← hstart.raw, ← hstart.method, ← hstart.line, ← hstart.clientprot, ← hstart.prot,
    ← hstart.data, ← hstart.query, ← hstart.vars, ← hstart.emptyVariables, ← hstart.prestate,
    ← hstart.unreadData, ← hstart.leftovers]

/-- What has arrived, and the part of it after the headers, may differ as well. -/
theorem SameStart.setRaw {id id' : RequestID} (h : SameStart id id') (raw : Str)
    (data : Option Str) :
    SameStart { id with raw := raw, data := data } { id' with raw := raw, data := data } where
  raw := rfl
  method := h.method
  line := h.line
  clientprot := h.clientprot
  prot := h.prot
  url := h.url
  data := rfl
  query := h.query
  vars := h.vars
  emptyVariables := h.emptyVariables
  prestate := h.prestate
  unreadData := h.unreadData
  leftovers := h.leftovers
  accept := h.accept

/-- A pass over a plain URL and an incomplete body leaves the object fit for another. -/
theorem parseRest_sameStart {env : Env} (henv : env.Lawful) {id id' : RequestID} {s : Str}
    (hstart : SameStart id id') (hplain : Plain env id.url)
    (hconfig : (configPart id.url).1 = false)
    (hshort : ((id'.data.getD []).length : Int) < announcedIn (parseHeaders s))
    (hnot : ¬ AcceptFirst env (parseHeaders s)) :
    SameStart { id with data := (id'.parseRest env s).2.data } (id'.parseRest env s).2 := by
  have hpos : 0 < announcedIn (parseHeaders s) :=
    Int.lt_of_le_of_lt (Int.natCast_nonneg (id'.data.getD []).length) hshort
  have hs := (announced_pos henv hpos).1
  obtain ⟨hscan, uri, hwith⟩ := @withHeaders_plain env id' s (by rw [hstart.url]; exact hplain)
    (by rw [hstart.url]; exact hconfig) hs
  obtain ⟨-, -, haccept, hbody⟩ := parseRest_short henv hscan hshort
  have hpart : (id'.parseRest env s).2.urlPart = ((id'.afterUrl env).withHeaders s).urlPart := by
    rw [parseRest_urlPart, withHeaders_urlPart]
  have hbody' : (id'.afterUrl env).bodyPart = id'.bodyPart := by
    have hsame : ((id'.afterUrl env).withHeaders s).bodyPart = (id'.afterUrl env).bodyPart := by
      rw [withHeaders_ne hs]
      rfl
    rw [← hsame, hwith]
    rfl
  rw [hbody'] at hbody
  rw [hwith] at hpart
  -- field by field, what the pass left in place
  have hraw := congrArg RequestID.raw hpart
  have hmethod := congrArg RequestID.method hpart
  have hline := congrArg RequestID.line hpart
  have hclientprot := congrArg RequestID.clientprot hpart
  have hprot := congrArg RequestID.prot hpart
  have hf := congrArg RequestID.f hpart
  have hquery := congrArg RequestID.query hpart
  have hprestate := congrArg RequestID.prestate hpart
  have hunread := congrArg RequestID.unreadData hpart
  have hvars := congrArg Prod.fst hbody
  have hempty := congrArg (fun b => b.2.1) hbody
  have hleft := congrArg (fun b => b.2.2) hbody
  refine ⟨hraw.trans hstart.raw, hmethod.trans hstart.method, hline.trans hstart.line,
    hclientprot.trans hstart.clientprot, hprot.trans hstart.prot, ?_, rfl,
    hquery.trans hstart.query, hvars.trans hstart.vars, hempty.trans hstart.emptyVariables,
    hprestate.trans hstart.prestate, hunread.trans hstart.unreadData, hleft.trans hstart.leftovers,
    (haccept hnot).trans hstart.accept⟩
  -- `f` has lost its host, and loses no more when it is cut again
  have hclient : (id'.parseRest env s).2.clientprot = id'.clientprot := hclientprot
  have hurl : (id'.parseRest env s).2.f = id'.url := hf
  show stripHost _ _ = stripHost _ _
  rw [hclient, hurl, RequestID.url, stripHost_stripHost]
  exact hstart.url

end Caudium.Http
