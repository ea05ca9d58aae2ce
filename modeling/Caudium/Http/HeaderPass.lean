import Caudium.Http.UrlPass

/-!
# The headers in one pass of `parse_got`

The loop over the headers starts over in each call as well. Each header it visits
adds its list to what `misc` has by then (`headerCases_accepts`), and a body that
is not complete ends the call when its length is visited, wherever that is in the
order (`headerCases_short`). Some fields have no say in what the loop does to the
others (`Aside`, `headerCases_aside`).
-/

namespace Caudium.Http

open Lib (Str Mapping)

/-- The object without the fields that the headers write. -/
def RequestID.urlPart (id : RequestID) : RequestID :=
  { id with
    data := none, vars := ∅, emptyVariables := [], requestHeaders := ∅, misc := ∅
    miscLen := 0, wantedData := 0, haveData := 0, leftovers := none }

theorem handleBodyEncoding_eq (env : Env) (id : RequestID) (l : Int) : ∃ vars empty,
    (id.handleBodyEncoding env l).2 = { id with vars := vars, emptyVariables := empty } := by
  unfold RequestID.handleBodyEncoding
  dsimp only
  split
  · split
    · exact ⟨id.vars, id.emptyVariables, rfl⟩
    next parts _ => exact ⟨parts.foldl storePart id.vars, id.emptyVariables, rfl⟩
  · split
    · exact ⟨id.vars, id.emptyVariables, rfl⟩
    · split
      · exact parseQuery_eq id _
      · exact ⟨id.vars, id.emptyVariables, rfl⟩

/-- The fields the body writes; `wanted_data` is 0 again unless something throws. -/
theorem takeBody_eq (env : Env) (id : RequestID) (l : Int) :
    ∃ vars empty data leftovers wanted, (id.takeBody env l).2 = { id with
      vars := vars, emptyVariables := empty, data := data, leftovers := leftovers
      wantedData := wanted } ∧ (wanted = 0 ∨ wanted = id.wantedData) := by
  unfold RequestID.takeBody
  dsimp only
  obtain ⟨vars, empty, h⟩ := handleBodyEncoding_eq env { id with
    leftovers := some ((id.data.getD []).drop l.toNat)
    data := some ((id.data.getD []).take l.toNat) } l
  split
  next heq =>
    rw [heq] at h
    exact ⟨vars, empty, _, _, id.wantedData, h, Or.inr rfl⟩
  next heq =>
    rw [heq] at h
    dsimp only at h
    rw [h]
    exact ⟨vars, empty, _, _, 0, rfl, Or.inl rfl⟩

/-- The length of the body that headers announce. -/
def announcedIn (headers : Mapping Str Str) : Int :=
  castInt (removeSpaces ((headers.lookup "content-length".toList).getD []))

/-- The length of the body that the headers of the request announce. -/
def RequestID.announced (id : RequestID) : Int := announcedIn id.requestHeaders

theorem announced_congr {id id' : RequestID}
    (h : id'.header "content-length".toList = id.header "content-length".toList) :
    id'.announced = id.announced :=
  congrArg (fun v => castInt (removeSpaces v)) h

theorem contentLength_eq (env : Env) (id : RequestID) :
    ∃ vars empty data leftovers len have_ wanted, (id.contentLength env).2 = { id with
      vars := vars, emptyVariables := empty, data := data, leftovers := leftovers
      miscLen := len, haveData := have_, wantedData := wanted } ∧
      (wanted = 0 ∨ wanted = id.wantedData ∨ wanted = id.announced) := by
  unfold RequestID.contentLength
  rw [show castInt (removeSpaces (id.header "content-length".toList)) = id.announced from rfl]
  dsimp only
  split
  · exact ⟨_, _, _, _, _, _, _, rfl, Or.inr (Or.inl rfl)⟩
  · split
    · exact ⟨_, _, _, _, _, _, _, rfl, Or.inr (Or.inl rfl)⟩
    · split
      · exact ⟨_, _, _, _, _, _, _, rfl, Or.inr (Or.inr rfl)⟩
      · -- `wanted_data < l` is never so: it has just been set to `l`
        rw [if_neg (Int.lt_irrefl _)]
        obtain ⟨vars, empty, data, leftovers, wanted, h, hwanted⟩ := takeBody_eq env { id with
          miscLen := id.announced, data := some (id.data.getD []), wantedData := id.announced
          haveData := (((some (id.data.getD [])).getD [] : Str).length : Int) } id.announced
        refine ⟨vars, empty, data, leftovers, _, _, wanted, h, ?_⟩
        rcases hwanted with h0 | hl
        · exact Or.inl h0
        · exact Or.inr (Or.inr hl)

/-- The fields in which a complete body ends up. -/
def RequestID.bodyPart (id : RequestID) : Mapping VarName Str × List Str × Option Str :=
  (id.vars, id.emptyVariables, id.leftovers)

/-- A body that is not all there makes `parse_got` return. -/
theorem contentLength_short {env : Env} {id : RequestID}
    (h : ((id.data.getD []).length : Int) < id.announced) :
    (id.contentLength env).1 = some .more ∧ (id.contentLength env).2.misc = id.misc ∧
      (id.contentLength env).2.bodyPart = id.bodyPart := by
  have hpos : id.announced ≠ 0 := by omega
  unfold RequestID.contentLength
  rw [show castInt (removeSpaces (id.header "content-length".toList)) = id.announced from rfl]
  dsimp only
  rw [if_neg hpos]
  split
  · exact ⟨rfl, rfl, rfl⟩
  · rw [Option.getD_some, if_pos h]
    exact ⟨rfl, rfl, rfl⟩

/-- `misc["accept"]`, as a list. -/
def RequestID.accepts (id : RequestID) : List Str := (id.misc.lookup "accept".toList).getD []

/-- What the `accept` header adds. -/
def acceptIn (headers : Mapping Str Str) : List Str :=
  splitOn ',' (removeSpaces ((headers.lookup "accept".toList).getD []))

/-- What the `accept` header of the request adds. -/
def RequestID.acceptValue (id : RequestID) : List Str := acceptIn id.requestHeaders

theorem acceptIn_pos (headers : Mapping Str Str) : 0 < (acceptIn headers).length :=
  List.length_pos_iff.mpr (List.splitOn_ne_nil _ _)

theorem lookup_addMisc (id : RequestID) (linename k : Str) :
    (id.addMisc linename).misc.lookup k =
      if k = linename then some ((id.misc.lookup linename).getD [] ++
        splitOn ',' (removeSpaces (id.header linename)))
      else id.misc.lookup k := by
  unfold RequestID.addMisc
  dsimp only
  cases h : id.misc.lookup linename with
  | none => exact Lib.Mapping.lookup_insert_ite _ _ _ _
  | some old => exact Lib.Mapping.lookup_insert_ite _ _ _ _

theorem addMisc_eq (id : RequestID) (linename : Str) :
    ∃ misc, id.addMisc linename = { id with misc := misc } := by
  unfold RequestID.addMisc
  dsimp only
  split
  · exact ⟨_, rfl⟩
  · exact ⟨_, rfl⟩

/-- One header: what it leaves alone, and what it makes of `misc["accept"]`. -/
structure CaseSpec (env : Env) (id : RequestID) (linename : Str) : Prop where
  urlPart : (id.headerCase env linename).2.urlPart = id.urlPart
  header : ∀ k, k ≠ "connection".toList → (id.headerCase env linename).2.header k = id.header k
  goesOn : linename ≠ "content-length".toList → (id.headerCase env linename).1 = none
  data : linename ≠ "content-length".toList → (id.headerCase env linename).2.data = id.data
  body : linename ≠ "content-length".toList →
    (id.headerCase env linename).2.bodyPart = id.bodyPart
  lookup : (id.headerCase env linename).2.misc.lookup "accept".toList =
    if linename = "accept".toList then some (id.accepts ++ id.acceptValue)
    else id.misc.lookup "accept".toList
  wanted : (id.headerCase env linename).2.wantedData = 0 ∨
    (id.headerCase env linename).2.wantedData = id.wantedData ∨
    (id.headerCase env linename).2.wantedData = id.announced

theorem contentLength_spec (env : Env) (id : RequestID) :
    CaseSpec env id "content-length".toList := by
  obtain ⟨vars, empty, data, leftovers, len, have_, wanted, h, hwanted⟩ := contentLength_eq env id
  have hcase : id.headerCase env "content-length".toList = id.contentLength env := if_pos rfl
  exact {
    urlPart := by rw [hcase, h]; rfl
    header := fun k _ => by rw [hcase, h]; rfl
    goesOn := fun hne => absurd rfl hne
    data := fun hne => absurd rfl hne
    body := fun hne => absurd rfl hne
    lookup := by rw [hcase, h, if_neg (by decide)]
    wanted := by rw [hcase, h]; exact hwanted }

theorem connection_spec (env : Env) (id : RequestID) :
    CaseSpec env id "connection".toList := by
  have hcase : id.headerCase env "connection".toList = (none, { id with
      requestHeaders := id.requestHeaders.insert "connection".toList
        (lowerCase (id.header "connection".toList)) }) := by
    rw [RequestID.headerCase, if_neg (by decide), if_pos rfl]
  exact {
    urlPart := by rw [hcase]; rfl
    -- the value is written back in lower case, under its own name
    header := fun k hk => by
      rw [hcase]
      show ((id.requestHeaders.insert _ _).lookup k).getD [] = _
      rw [AList.lookup_insert_ne hk]
      rfl
    goesOn := fun _ => by rw [hcase]
    data := fun _ => by rw [hcase]
    body := fun _ => by rw [hcase]; rfl
    lookup := by rw [hcase, if_neg (by decide)]
    wanted := by rw [hcase]; exact Or.inr (Or.inl rfl) }

theorem listHeader_spec (env : Env) (id : RequestID) {linename : Str}
    (hlen : linename ≠ "content-length".toList) (hconn : linename ≠ "connection".toList)
    (hlist : linename ∈ listHeaders) : CaseSpec env id linename := by
  have hcase : id.headerCase env linename = (none, id.addMisc linename) := by
    rw [RequestID.headerCase, if_neg hlen, if_neg hconn, if_pos hlist]
  obtain ⟨misc, hmisc⟩ := addMisc_eq id linename
  exact {
    urlPart := by rw [hcase, hmisc]; rfl
    header := fun k _ => by rw [hcase, hmisc]; rfl
    goesOn := fun _ => by rw [hcase]
    data := fun _ => by rw [hcase, hmisc]
    body := fun _ => by rw [hcase, hmisc]; rfl
    lookup := by
      rw [hcase]
      show (id.addMisc linename).misc.lookup _ = _
      rw [lookup_addMisc]
      by_cases haccept : linename = "accept".toList
      · rw [if_pos haccept, if_pos haccept.symm, haccept]
        rfl
      · rw [if_neg haccept, if_neg (Ne.symm haccept)]
    wanted := by rw [hcase, hmisc]; exact Or.inr (Or.inl rfl) }

theorem otherHeader_spec (env : Env) (id : RequestID) {linename : Str}
    (hlen : linename ≠ "content-length".toList) (hconn : linename ≠ "connection".toList)
    (hlist : linename ∉ listHeaders) : CaseSpec env id linename := by
  have hcase : id.headerCase env linename = (none, id) := by
    rw [RequestID.headerCase, if_neg hlen, if_neg hconn, if_neg hlist]
  have haccept : linename ≠ "accept".toList := by
    intro h
    subst h
    exact hlist (by decide)
  exact {
    urlPart := by rw [hcase]
    header := fun k _ => by rw [hcase]
    goesOn := fun _ => by rw [hcase]
    data := fun _ => by rw [hcase]
    body := fun _ => by rw [hcase]
    lookup := by rw [hcase, if_neg haccept]
    wanted := by rw [hcase]; exact Or.inr (Or.inl rfl) }

theorem headerCase_spec (env : Env) (id : RequestID) (linename : Str) :
    CaseSpec env id linename := by
  -- the cases of the source's switch
  by_cases hlen : linename = "content-length".toList
  · rw [hlen]; exact contentLength_spec env id
  · by_cases hconn : linename = "connection".toList
    · rw [hconn]; exact connection_spec env id
    · by_cases hlist : linename ∈ listHeaders
      · exact listHeader_spec env id hlen hconn hlist
      · exact otherHeader_spec env id hlen hconn hlist

theorem CaseSpec.accepts {env : Env} {id : RequestID} {linename : Str}
    (h : CaseSpec env id linename) : (id.headerCase env linename).2.accepts =
      if linename = "accept".toList then id.accepts ++ id.acceptValue else id.accepts := by
  rw [RequestID.accepts, h.lookup]
  split <;> rfl

theorem headerCases_cons (env : Env) (linename : Str) (rest : List Str) (id : RequestID) :
    headerCases env (linename :: rest) id =
      (id.headerCase env linename).1.elim (headerCases env rest (id.headerCase env linename).2)
        fun _ => id.headerCase env linename := by
  obtain ⟨r, id', hr⟩ : ∃ r id', id.headerCase env linename = (r, id') := ⟨_, _, rfl⟩
  rw [headerCases, hr]
  cases r <;> rfl

theorem headerCases_goesOn {env : Env} {id : RequestID} {linename : Str}
    (h : (id.headerCase env linename).1 = none) (rest : List Str) :
    headerCases env (linename :: rest) id =
      headerCases env rest (id.headerCase env linename).2 := by
  rw [headerCases_cons, h]
  rfl

theorem headerCases_stops {env : Env} {id : RequestID} {linename : Str} {g : Got}
    (h : (id.headerCase env linename).1 = some g) (rest : List Str) :
    headerCases env (linename :: rest) id = id.headerCase env linename := by
  rw [headerCases_cons, h]
  rfl

/-- What each header leaves alone, the loop leaves alone. -/
theorem headerCases_inv {env : Env} {P : RequestID → Prop}
    (hstep : ∀ id linename, P id → P (id.headerCase env linename).2) (names : List Str) :
    ∀ id, P id → P (headerCases env names id).2 := by
  induction names with
  | nil => exact fun _ h => h
  | cons linename rest ih =>
    intro id h
    cases hcase : (id.headerCase env linename).1 with
    | none => rw [headerCases_goesOn hcase]; exact ih _ (hstep id linename h)
    | some g => rw [headerCases_stops hcase]; exact hstep id linename h

theorem headerCases_urlPart (env : Env) (names : List Str) (id : RequestID) :
    (headerCases env names id).2.urlPart = id.urlPart :=
  headerCases_inv (P := fun i => i.urlPart = id.urlPart)
    (fun i linename h => (headerCase_spec env i linename).urlPart.trans h) names id rfl

theorem headerCases_header (env : Env) (names : List Str) (id : RequestID) {k : Str}
    (hk : k ≠ "connection".toList) : (headerCases env names id).2.header k = id.header k :=
  headerCases_inv (P := fun i => i.header k = id.header k)
    (fun i linename h => ((headerCase_spec env i linename).header k hk).trans h) names id rfl

/-- No header ends the request. -/
theorem contentLength_ne_done (env : Env) (id : RequestID) :
    (id.contentLength env).1 ≠ some .done := by
  unfold RequestID.contentLength
  dsimp only
  split
  · exact fun h => by cases h
  · split
    · exact fun h => by cases h
    · split
      · exact fun h => by cases h
      · unfold RequestID.takeBody
        dsimp only
        split <;> exact fun h => by cases h

theorem headerCases_ne_done {env : Env} (names : List Str) :
    ∀ id, (headerCases env names id).1 ≠ some .done := by
  induction names with
  | nil => exact fun _ h => by cases h
  | cons linename rest ih =>
    intro id
    cases hcase : (id.headerCase env linename).1 with
    | none => rw [headerCases_goesOn hcase]; exact ih _
    | some g =>
      rw [headerCases_stops hcase]
      by_cases hlen : linename = "content-length".toList
      · rw [RequestID.headerCase, if_pos hlen]
        exact contentLength_ne_done env id
      · rw [(headerCase_spec env id linename).goesOn hlen] at hcase
        cases hcase

/-- No more is waited for than what was waited for, or is announced. -/
theorem headerCases_wanted {env : Env} {b : Int} (names : List Str) (id : RequestID) (h0 : 0 ≤ b)
    (hwanted : id.wantedData ≤ b) (hlen : id.announced ≤ b) :
    (headerCases env names id).2.wantedData ≤ b := by
  refine (headerCases_inv (P := fun i => i.wantedData ≤ b ∧ i.announced ≤ b)
    (fun i linename h => ?_) names id ⟨hwanted, hlen⟩).1
  have hspec := headerCase_spec env i linename
  refine ⟨?_, ?_⟩
  · rcases hspec.wanted with heq | heq | heq
    · rw [heq]; exact h0
    · rw [heq]; exact h.1
    · rw [heq]; exact h.2
  · rw [announced_congr (hspec.header _ (by decide))]
    exact h.2

/-- Without a body length among them, the loop goes through all the headers. -/
theorem headerCases_none {env : Env} (names : List Str) :
    ∀ id, "content-length".toList ∉ names → (headerCases env names id).1 = none ∧
      (headerCases env names id).2.data = id.data ∧
      (headerCases env names id).2.bodyPart = id.bodyPart := by
  induction names with
  | nil => exact fun _ _ => ⟨rfl, rfl, rfl⟩
  | cons linename rest ih =>
    intro id hnot
    have hspec := headerCase_spec env id linename
    have hne : linename ≠ "content-length".toList := fun h => hnot (h ▸ List.mem_cons_self)
    rw [headerCases_goesOn (hspec.goesOn hne), ← hspec.data hne, ← hspec.body hne]
    exact ih _ fun h => hnot (List.mem_cons_of_mem linename h)

theorem headerCases_append {env : Env} (xs ys : List Str) :
    ∀ id, (headerCases env xs id).1 = none →
      headerCases env (xs ++ ys) id = headerCases env ys (headerCases env xs id).2 := by
  induction xs with
  | nil => exact fun _ _ => rfl
  | cons linename rest ih =>
    intro id h
    cases hcase : (id.headerCase env linename).1 with
    | none =>
      rw [headerCases_goesOn hcase] at h ⊢
      rw [List.cons_append, headerCases_goesOn hcase, ih _ h]
    | some g =>
      rw [headerCases_stops hcase, hcase] at h
      cases h

/-- Each visit of `accept` adds its list. -/
theorem headerCases_accepts {env : Env} (names : List Str) :
    ∀ id, (headerCases env names id).1 = none →
      (headerCases env names id).2.accepts.length =
        id.accepts.length + names.count "accept".toList * id.acceptValue.length := by
  induction names with
  | nil => intro id _; simp [headerCases]
  | cons linename rest ih =>
    intro id h
    have hspec := headerCase_spec env id linename
    cases hcase : (id.headerCase env linename).1 with
    | none =>
      have hvalue : (id.headerCase env linename).2.acceptValue = id.acceptValue :=
        congrArg (fun v => splitOn ',' (removeSpaces v)) (hspec.header _ (by decide))
      rw [headerCases_goesOn hcase] at h ⊢
      rw [ih _ h, hvalue, hspec.accepts, List.count_cons]
      by_cases haccept : linename = "accept".toList
      · rw [if_pos haccept, haccept, beq_self_eq_true, if_pos rfl, List.length_append, Nat.succ_mul]
        omega
      · rw [if_neg haccept, if_neg (by simpa using haccept), Nat.add_zero]
    | some g =>
      rw [headerCases_stops hcase, hcase] at h
      cases h

/-- Without a visit of `accept`, `misc["accept"]` stays as it is. -/
theorem headerCases_lookup {env : Env} (names : List Str) :
    ∀ id, "accept".toList ∉ names → (headerCases env names id).2.misc.lookup "accept".toList =
      id.misc.lookup "accept".toList := by
  induction names with
  | nil => exact fun _ _ => rfl
  | cons linename rest ih =>
    intro id hnot
    have hspec := headerCase_spec env id linename
    have hne : linename ≠ "accept".toList := fun h => hnot (h ▸ List.mem_cons_self)
    have hlookup := hspec.lookup
    rw [if_neg hne] at hlookup
    cases hcase : (id.headerCase env linename).1 with
    | none =>
      rw [headerCases_goesOn hcase, ih _ fun h => hnot (List.mem_cons_of_mem linename h), hlookup]
    | some g => rw [headerCases_stops hcase, hlookup]

/-- `misc["accept"]` never gets shorter. -/
theorem headerCases_accepts_le {env : Env} (names : List Str) (id : RequestID) :
    id.accepts.length ≤ (headerCases env names id).2.accepts.length := by
  refine headerCases_inv (P := fun i => id.accepts.length ≤ i.accepts.length)
    (fun i linename h => ?_) names id (Nat.le_refl _)
  rw [(headerCase_spec env i linename).accepts]
  split
  · rw [List.length_append]
    omega
  · exact h

/-- The headers visited before the body length, and `parse_got` returns there while
the body is not complete. -/
theorem headerCases_short {env : Env} {xs ys : List Str} {id : RequestID}
    (hnot : "content-length".toList ∉ xs)
    (h : ((id.data.getD []).length : Int) < id.announced) :
    (headerCases env (xs ++ "content-length".toList :: ys) id).1 = some .more ∧
      (headerCases env (xs ++ "content-length".toList :: ys) id).2.misc =
        (headerCases env xs id).2.misc ∧
      (headerCases env (xs ++ "content-length".toList :: ys) id).2.bodyPart = id.bodyPart := by
  obtain ⟨hnone, hdata, hbody⟩ := @headerCases_none env xs id hnot
  have hannounced : (headerCases env xs id).2.announced = id.announced :=
    announced_congr (headerCases_header env xs id (by decide))
  obtain ⟨hmore, hmisc, hshort⟩ := @contentLength_short env (headerCases env xs id).2
    (by rw [hdata, hannounced]; exact h)
  have hcase : ∀ i : RequestID, i.headerCase env "content-length".toList = i.contentLength env :=
    fun i => if_pos rfl
  rw [headerCases_append xs _ id hnone, headerCases_stops (by rw [hcase]; exact hmore), hcase]
  exact ⟨hmore, hmisc, hshort.trans hbody⟩

/-! ## What has no say in a pass -/

/-- Fields that a pass does not ask about: of `misc`, all but the list of `accept`. -/
structure Aside where
  lastSearch : Nat
  cacheControlOk : Bool
  absoluteUri : Option Str
  misc : Mapping Str (List Str)
  miscLen : Int
  wantedData : Int
  haveData : Int

/-- The object with other values in those fields. -/
def RequestID.setAside (id : RequestID) (a : Aside) : RequestID :=
  { id with
    lastSearch := a.lastSearch, cacheControlOk := a.cacheControlOk, absoluteUri := a.absoluteUri
    misc := a.misc, miscLen := a.miscLen, wantedData := a.wantedData, haveData := a.haveData }

/-- The value of `misc["accept"]` is the same in `a` as in the object. -/
def Aside.Agrees (a : Aside) (id : RequestID) : Prop :=
  a.misc.lookup "accept".toList = id.misc.lookup "accept".toList

/-- `r'` is `r` with other values aside. -/
def UpToAside {α : Type} (r r' : α × RequestID) : Prop :=
  ∃ a : Aside, r' = (r.1, r.2.setAside a) ∧ a.Agrees r.2

theorem parseQuery_aside (id : RequestID) (a : Aside) (query : Str) :
    (id.setAside a).parseQuery query =
      ((id.parseQuery query).1, (id.parseQuery query).2.setAside a) := by
  unfold RequestID.parseQuery
  dsimp only [RequestID.setAside]
  cases parseQueryString query id.vars id.emptyVariables <;> rfl

theorem handleBodyEncoding_aside (env : Env) (id : RequestID) (a : Aside) (l : Int) :
    (id.setAside a).handleBodyEncoding env l =
      ((id.handleBodyEncoding env l).1, (id.handleBodyEncoding env l).2.setAside a) := by
  have htype : (id.setAside a).contentType = id.contentType := rfl
  have hdata : (id.setAside a).data = id.data := rfl
  have hmethod : (id.setAside a).method = id.method := rfl
  have hheaders : (id.setAside a).requestHeaders = id.requestHeaders := rfl
  unfold RequestID.handleBodyEncoding
  rw [htype, hdata, hmethod, hheaders]
  dsimp only
  rw [parseQuery_aside]
  split
  · cases env.mimeMessage (id.data.getD []) id.requestHeaders <;> rfl
  · split
    · rfl
    · split <;> rfl

theorem takeBody_aside (env : Env) (id : RequestID) (a : Aside) (l : Int) (h : a.Agrees id) :
    UpToAside (id.takeBody env l) ((id.setAside a).takeBody env l) := by
  have hbody := handleBodyEncoding_aside env { id with
    leftovers := some ((id.data.getD []).drop l.toNat)
    data := some ((id.data.getD []).take l.toNat) } a l
  obtain ⟨vars, empty, heq⟩ := handleBodyEncoding_eq env { id with
    leftovers := some ((id.data.getD []).drop l.toNat)
    data := some ((id.data.getD []).take l.toNat) } l
  unfold RequestID.takeBody
  dsimp only
  rw [show ({ id.setAside a with
      leftovers := some (((id.setAside a).data.getD []).drop l.toNat)
      data := some (((id.setAside a).data.getD []).take l.toNat) } : RequestID)
    = ({ id with
      leftovers := some ((id.data.getD []).drop l.toNat)
      data := some ((id.data.getD []).take l.toNat) } : RequestID).setAside a from rfl, hbody]
  obtain ⟨ok, id', hid'⟩ : ∃ ok id', ({ id with
    leftovers := some ((id.data.getD []).drop l.toNat)
    data := some ((id.data.getD []).take l.toNat) } : RequestID).handleBodyEncoding env l
      = (ok, id') := ⟨_, _, rfl⟩
  rw [hid'] at heq ⊢
  dsimp only at heq
  subst heq
  cases ok with
  | false => exact ⟨a, rfl, h⟩
  | true => exact ⟨{ a with wantedData := 0 }, rfl, h⟩

theorem contentLength_aside (env : Env) (id : RequestID) (a : Aside) (h : a.Agrees id) :
    UpToAside (id.contentLength env) ((id.setAside a).contentLength env) := by
  have hannounced : castInt (removeSpaces ((id.setAside a).header "content-length".toList))
      = castInt (removeSpaces (id.header "content-length".toList)) := rfl
  unfold RequestID.contentLength
  rw [hannounced]
  generalize castInt (removeSpaces (id.header "content-length".toList)) = l
  dsimp only
  split
  · exact ⟨{ a with miscLen := l }, rfl, h⟩
  · split
    · exact ⟨{ a with miscLen := l }, rfl, h⟩
    · rw [show (id.setAside a).data = id.data from rfl]
      split
      · exact ⟨{ a with
          miscLen := l, wantedData := l, haveData := (((some (id.data.getD [])).getD []).length : Int) },
          rfl, h⟩
      · rw [if_neg (Int.lt_irrefl l), if_neg (Int.lt_irrefl l)]
        exact takeBody_aside env { id with
          miscLen := l, data := some (id.data.getD []), wantedData := l
          haveData := (((some (id.data.getD [])).getD [] : Str).length : Int) } { a with
          miscLen := l, wantedData := l
          haveData := (((some (id.data.getD [])).getD [] : Str).length : Int) } l h

theorem addMisc_aside (id : RequestID) (a : Aside) (linename : Str) (h : a.Agrees id) :
    ∃ a', (id.setAside a).addMisc linename = (id.addMisc linename).setAside a' ∧
      a'.Agrees (id.addMisc linename) := by
  obtain ⟨misc, hmisc⟩ := addMisc_eq id linename
  obtain ⟨misc', hmisc'⟩ := addMisc_eq (id.setAside a) linename
  refine ⟨{ a with misc := misc' }, by rw [hmisc, hmisc']; rfl, ?_⟩
  have hlookup := lookup_addMisc id linename "accept".toList
  have hlookup' := lookup_addMisc (id.setAside a) linename "accept".toList
  have hheader : (id.setAside a).header linename = id.header linename := rfl
  show misc'.lookup _ = _
  rw [hmisc'] at hlookup'
  rw [hlookup, show misc'.lookup "accept".toList = _ from hlookup', hheader]
  by_cases haccept : "accept".toList = linename
  · subst haccept
    rw [if_pos rfl, if_pos rfl, show (id.setAside a).misc.lookup _ = _ from h]
  · rw [if_neg haccept, if_neg haccept]
    exact h

theorem headerCase_aside (env : Env) (id : RequestID) (a : Aside) (linename : Str)
    (h : a.Agrees id) :
    UpToAside (id.headerCase env linename) ((id.setAside a).headerCase env linename) := by
  unfold RequestID.headerCase
  split
  · exact contentLength_aside env id a h
  · split
    · exact ⟨a, rfl, h⟩
    · split
      · obtain ⟨a', heq, hagrees⟩ := addMisc_aside id a linename h
        exact ⟨a', by rw [heq], hagrees⟩
      · exact ⟨a, rfl, h⟩

theorem headerCases_aside {env : Env} (names : List Str) :
    ∀ (id : RequestID) (a : Aside), a.Agrees id →
      UpToAside (headerCases env names id) (headerCases env names (id.setAside a)) := by
  induction names with
  | nil => exact fun id a h => ⟨a, rfl, h⟩
  | cons linename rest ih =>
    intro id a h
    obtain ⟨a', heq, hagrees⟩ := headerCase_aside env id a linename h
    have hfst := congrArg Prod.fst heq
    cases hcase : (id.headerCase env linename).1 with
    | none =>
      rw [headerCases_goesOn hcase, headerCases_goesOn (hfst.trans hcase), heq]
      exact ih _ a' hagrees
    | some g =>
      rw [headerCases_stops hcase, headerCases_stops (hfst.trans hcase)]
      exact ⟨a', heq, hagrees⟩

end Caudium.Http
