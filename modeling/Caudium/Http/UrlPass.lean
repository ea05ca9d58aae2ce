import Caudium.Http.ParseGot

/-!
# The URL in one pass of `parse_got`

Each call of `parse_got` that finds the headers complete goes through the URL
again, as the call before left it. One pass never makes the URL longer, and it
leaves its length alone only when there was nothing in it to take away or decode
(`scanUrl_eq`); such a URL is `Plain`, and goes through as it is
(`scanUrl_plain`).
-/

namespace Caudium.Http

open Lib (Str Mapping search cut)

/-- What is taken for granted of Pike: decoding does not make a string longer and
leaves one of the same length as it is, and `indices` lists the keys. -/
structure Env.Lawful (env : Env) : Prop where
  decode_le : ∀ s t, env.httpDecodeString s = some t → t.length ≤ s.length
  decode_eq : ∀ s t, env.httpDecodeString s = some t → t.length = s.length → t = s
  utf8_le : ∀ s t, env.utf8ToString s = some t → t.length ≤ s.length
  utf8_eq : ∀ s t, env.utf8ToString s = some t → t.length = s.length → t = s
  indices_perm : ∀ m, (env.indices m).Perm m.keys

/-- Nothing in the URL is taken away or decoded. -/
structure Plain (env : Env) (u : Str) : Prop where
  noQuery : cut u "?".toList = none
  decoded : env.httpDecodeString u = some u
  utf8 : (env.utf8ToString u).getD u = u
  noNul : cutNul u = u
  noPrestate : enclosed "/(".toList ")/".toList u = none

/-! ## The URL -/

/-- The URL without scheme and host. -/
def stripHost (clientprot f : Str) : Str :=
  match pathStart clientprot f with
  | some i => f.drop i
  | none => f

theorem setRawUrl_eq (id : RequestID) : ∃ uri, id.setRawUrl = { id with
    absoluteUri := uri
    rawUrl := some (stripHost id.clientprot id.f)
    f := stripHost id.clientprot id.f } := by
  unfold RequestID.setRawUrl stripHost
  dsimp only
  cases pathStart id.clientprot id.f with
  | none => exact ⟨id.absoluteUri, rfl⟩
  | some i => exact ⟨some (id.f.take (i + 1)), rfl⟩

theorem length_stripHost_le (clientprot f : Str) : (stripHost clientprot f).length ≤ f.length := by
  unfold stripHost
  split
  · rw [List.length_drop]
    exact Nat.sub_le _ _
  · exact Nat.le_refl _

/-- The path of an absolute URI begins with '/'. -/
theorem drop_pathStart {clientprot f : Str} {i : Nat} (h : pathStart clientprot f = some i) :
    ∃ rest, f.drop i = '/' :: rest := by
  unfold pathStart at h
  dsimp only at h
  split at h
  next hi =>
    rw [Option.some.injEq] at h
    have hdrop : f.drop i = (f.drop (schemeLength f)).dropWhile (· ≠ '/') := by
      rw [← h, ← List.drop_drop]
      nth_rewrite 2 [← List.takeWhile_append_dropWhile (p := (· ≠ '/'))
        (l := f.drop (schemeLength f))]
      exact List.drop_left
    cases hrest : (f.drop (schemeLength f)).dropWhile (· ≠ '/') with
    | nil =>
      rw [hrest] at hdrop
      have hlen := congrArg List.length hdrop
      rw [List.length_drop, List.length_nil] at hlen
      omega
    | cons c rest =>
      have hne : (f.drop (schemeLength f)).dropWhile (· ≠ '/') ≠ [] := by
        rw [hrest]
        exact List.cons_ne_nil c rest
      have hc := List.head_dropWhile_not (· ≠ '/') hne
      simp only [hrest, List.head_cons, decide_eq_false_iff_not, not_not] at hc
      exact ⟨rest, by rw [hdrop, hrest, hc]⟩
  · cases h

/-- So there is nothing to strip a second time. -/
theorem stripHost_stripHost (clientprot f : Str) :
    stripHost clientprot (stripHost clientprot f) = stripHost clientprot f := by
  cases hstart : pathStart clientprot f with
  | none =>
    have hsame : stripHost clientprot f = f := by rw [stripHost, hstart]
    rw [hsame, hsame]
  | some i =>
    have hdrop : stripHost clientprot f = f.drop i := by rw [stripHost, hstart]
    obtain ⟨rest, hrest⟩ := drop_pathStart hstart
    have hscheme : schemeLength ('/' :: rest) = 0 := by
      rw [schemeLength, if_neg, if_neg]
      · exact fun h => by cases (List.cons_prefix_cons.mp h).1
      · exact fun h => by cases (List.cons_prefix_cons.mp h).1
    have hnone : pathStart clientprot (f.drop i) = none := by
      rw [hrest, pathStart, hscheme]
      exact if_neg fun h => h.2.1 rfl
    rw [hdrop, stripHost, hnone]

/-- The part of the URL before the query. -/
def beforeQuery (f : Str) : Str :=
  match cut f "?".toList with
  | none => f
  | some (f, _) => f

theorem parseQuery_eq (id : RequestID) (query : Str) : ∃ vars empty,
    (id.parseQuery query).2 = { id with vars := vars, emptyVariables := empty } := by
  unfold RequestID.parseQuery
  split
  · exact ⟨id.vars, id.emptyVariables, rfl⟩
  next vars empty _ => exact ⟨addEmpty vars empty, empty, rfl⟩

theorem scanQuery_eq (id : RequestID) : ∃ query vars empty, id.scanQuery.2 = { id with
    f := beforeQuery id.f, query := query, vars := vars, emptyVariables := empty } := by
  unfold RequestID.scanQuery beforeQuery
  cases cut id.f "?".toList with
  | none => exact ⟨id.query, id.vars, id.emptyVariables, rfl⟩
  | some r =>
    obtain ⟨vars, empty, h⟩ := parseQuery_eq { id with f := r.1, query := some r.2 } r.2
    exact ⟨some r.2, vars, empty, h⟩

theorem length_beforeQuery_le (f : Str) : (beforeQuery f).length ≤ f.length := by
  unfold beforeQuery
  split
  · exact Nat.le_refl _
  next h =>
    have hlen := Lib.length_cut h
    omega

theorem cut_none_of_beforeQuery {f : Str} (h : (beforeQuery f).length = f.length) :
    cut f "?".toList = none := by
  unfold beforeQuery at h
  split at h
  next hnone => exact hnone
  next hsome =>
    have hlen := Lib.length_cut hsome
    have hone : "?".toList.length = 1 := rfl
    omega

theorem length_cutNul_le (f : Str) : (cutNul f).length ≤ f.length :=
  (List.takeWhile_sublist _).length_le

theorem cutNul_eq {f : Str} (h : (cutNul f).length = f.length) : cutNul f = f :=
  (List.takeWhile_sublist _).eq_of_length h

theorem length_enclosed {before after f a rest : Str}
    (h : enclosed before after f = some (a, rest)) :
    before.length + a.length + after.length + rest.length = f.length := by
  unfold enclosed at h
  split at h
  next hpre =>
    have hcut := Lib.length_cut h
    have hle := hpre.length_le
    rw [List.length_drop] at hcut
    omega
  · cases h

theorem configPart_false {f : Str} (h : (configPart f).1 = false) : configPart f = (false, f) := by
  unfold configPart at h ⊢
  split
  next heq => rw [heq] at h; cases h
  next heq =>
    rw [heq] at h
    dsimp only at h
    split
    next heq' => rw [heq'] at h; cases h
    · rfl

theorem length_configPart_le (f : Str) : (configPart f).2.length ≤ f.length := by
  unfold configPart
  split
  next h =>
    have hlen := length_enclosed h
    have h2 : "/<".toList.length = 2 := rfl
    rw [List.length_cons]
    omega
  · split
    next h =>
      have hlen := length_enclosed h
      have h4 : "/%3C".toList.length = 4 := rfl
      rw [List.length_cons]
      omega
    · exact Nat.le_refl _

/-- What `scanPrestate` does to the URL. -/
theorem scanPrestate_eq (id : RequestID) : ∃ prestate f,
    id.scanPrestate = { id with prestate := prestate, f := f } ∧ f.length ≤ id.f.length ∧
      (f.length = id.f.length → enclosed "/(".toList ")/".toList id.f = none) := by
  unfold RequestID.scanPrestate
  split
  next h => exact ⟨id.prestate, id.f, rfl, Nat.le_refl _, fun _ => h⟩
  next a rest h =>
    have hlen := length_enclosed h
    have h2 : "/(".toList.length = 2 := rfl
    split
    · exact ⟨id.prestate, rest, rfl, by omega, fun heq => by omega⟩
    · refine ⟨_, '/' :: rest, rfl, ?_, fun heq => ?_⟩
      · rw [List.length_cons]
        omega
      · rw [List.length_cons] at heq
        omega

theorem length_cleanUrl_le {env : Env} (henv : env.Lawful) (f : Str) :
    (cleanUrl env f).2.length ≤ f.length := by
  have hutf8 : ((env.utf8ToString f).getD f).length ≤ f.length := by
    cases h : env.utf8ToString f with
    | none => exact Nat.le_refl _
    | some t => exact henv.utf8_le f t h
  exact ((length_configPart_le _).trans (length_cutNul_le _)).trans hutf8

/-- A URL that is as long after the cleaning as before has not been touched. -/
theorem cleanUrl_eq {env : Env} (henv : env.Lawful) {f : Str} (hconfig : (cleanUrl env f).1 = false)
    (hlen : (cleanUrl env f).2.length = f.length) :
    (env.utf8ToString f).getD f = f ∧ cutNul f = f ∧ (cleanUrl env f).2 = f := by
  have hclean : (cleanUrl env f).2 = cutNul ((env.utf8ToString f).getD f) := by
    rw [cleanUrl] at hconfig ⊢
    rw [configPart_false hconfig]
  have hnul := length_cutNul_le ((env.utf8ToString f).getD f)
  rw [hclean] at hlen
  have hutf8 : (env.utf8ToString f).getD f = f := by
    cases h : env.utf8ToString f with
    | none => rfl
    | some t =>
      have hle := henv.utf8_le f t h
      rw [h, Option.getD_some] at hlen hnul
      exact henv.utf8_eq f t h (by omega)
  rw [hutf8] at hlen hclean
  exact ⟨hutf8, cutNul_eq hlen, hclean.trans (cutNul_eq hlen)⟩

/-- The fields `scanUrl` writes; and only a plain URL keeps its length. -/
theorem scanUrl_eq {env : Env} (henv : env.Lawful) (id : RequestID) :
    ∃ f query vars empty prestate notQuery, (id.scanUrl env).2 = { id with
      f := f, query := query, vars := vars, emptyVariables := empty, prestate := prestate
      notQuery := notQuery } ∧ f.length ≤ id.f.length ∧
      ((id.scanUrl env).1 = some false → f.length = id.f.length → Plain env id.f) := by
  obtain ⟨query, vars, empty, hscan⟩ := scanQuery_eq id
  have hquery := length_beforeQuery_le id.f
  unfold RequestID.scanUrl
  obtain ⟨ok, id', hid'⟩ : ∃ ok id', id.scanQuery = (ok, id') := ⟨_, _, rfl⟩
  rw [hid'] at hscan ⊢
  dsimp only at hscan
  subst hscan
  cases ok with
  | false =>
    exact ⟨_, query, vars, empty, id.prestate, id.notQuery, rfl, hquery, fun h => by cases h⟩
  | true =>
    dsimp only
    cases hdecode : env.httpDecodeString (beforeQuery id.f) with
    | none =>
      exact ⟨_, query, vars, empty, id.prestate, id.notQuery, rfl, hquery, fun h => by cases h⟩
    | some f =>
      have hdecoded := henv.decode_le _ _ hdecode
      have hclean := length_cleanUrl_le henv f
      obtain ⟨prestate, f', hprestate, hle, hnone⟩ := scanPrestate_eq
        { id with f := (cleanUrl env f).2, query := query, vars := vars, emptyVariables := empty }
      dsimp only at hprestate hle hnone ⊢
      rw [hprestate]
      refine ⟨f', query, vars, empty, prestate, _, rfl, by omega, fun hfalse hlen => ?_⟩
      -- no step has made it shorter, so no step has changed it
      have hcut := cut_none_of_beforeQuery (f := id.f) (by omega)
      have hbefore : beforeQuery id.f = id.f := by rw [beforeQuery, hcut]
      rw [hbefore] at hdecode hdecoded
      have hf : f = id.f := henv.decode_eq _ _ hdecode (by omega)
      obtain ⟨hutf8, hnul, hsame⟩ := cleanUrl_eq henv (Option.some.inj hfalse) (by omega)
      rw [hsame, hf] at hnone
      rw [hf] at hdecode hutf8 hnul
      exact ⟨hcut, hdecode, hutf8, hnul, hnone (by omega)⟩

/-- A plain URL goes through as it is. -/
theorem scanUrl_plain {env : Env} {id : RequestID} (hplain : Plain env id.f)
    (hconfig : (configPart id.f).1 = false) : id.scanUrl env =
      (some false, { id with notQuery := some ((env.simplifyPath id.f).getD id.f) }) := by
  have hclean : cleanUrl env id.f = (false, id.f) := by
    rw [cleanUrl, hplain.utf8, hplain.noNul, configPart_false hconfig]
  have hquery : id.scanQuery = (true, id) := by
    rw [RequestID.scanQuery, hplain.noQuery]
  have hprestate : ({ id with f := id.f } : RequestID).scanPrestate = id := by
    rw [RequestID.scanPrestate, hplain.noPrestate]
  rw [RequestID.scanUrl, hquery]
  dsimp only
  rw [hplain.decoded]
  dsimp only
  rw [hclean, hprestate]

/-- The configuration is looked for in the URL itself if that is plain. -/
theorem config_of_plain {env : Env} {id : RequestID} (hplain : Plain env id.f) :
    (id.scanUrl env).1 = some (configPart id.f).1 := by
  have hquery : id.scanQuery = (true, id) := by
    rw [RequestID.scanQuery, hplain.noQuery]
  rw [RequestID.scanUrl, hquery]
  dsimp only
  rw [hplain.decoded]
  dsimp only
  rw [cleanUrl, hplain.utf8, hplain.noNul]

/-- Whether `scanUrl` throws, and what it says of the configuration, depends on three fields. -/
theorem scanUrl_fst_congr {env : Env} {id id' : RequestID} (hf : id'.f = id.f)
    (hvars : id'.vars = id.vars) (hempty : id'.emptyVariables = id.emptyVariables) :
    (id'.scanUrl env).1 = (id.scanUrl env).1 := by
  have hquery : id'.scanQuery.1 = id.scanQuery.1 := by
    unfold RequestID.scanQuery
    rw [hf]
    cases cut id.f "?".toList with
    | none => rfl
    | some r =>
      dsimp only
      unfold RequestID.parseQuery
      dsimp only
      rw [hvars, hempty]
      cases parseQueryString r.2 id.vars id.emptyVariables <;> rfl
  obtain ⟨q, v, e, hs⟩ := scanQuery_eq id
  obtain ⟨q', v', e', hs'⟩ := scanQuery_eq id'
  unfold RequestID.scanUrl
  obtain ⟨ok, i, hi⟩ : ∃ ok i, id.scanQuery = (ok, i) := ⟨_, _, rfl⟩
  obtain ⟨ok', i', hi'⟩ : ∃ ok i, id'.scanQuery = (ok, i) := ⟨_, _, rfl⟩
  rw [hi] at hs hquery ⊢
  rw [hi'] at hs' hquery ⊢
  dsimp only at hs hs' hquery
  subst hs hs' hquery
  cases ok' with
  | false => rfl
  | true =>
    dsimp only
    rw [hf]
    cases env.httpDecodeString (beforeQuery id.f) <;> rfl

end Caudium.Http
