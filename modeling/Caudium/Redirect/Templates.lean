import Caudium.Redirect.Patterns

/-!
# Templates of a redirect

`match` puts text of the request into the destination, and `first_try` replaces the tokens in what
comes out, so that it takes a `%` of the request for one of the template. `wanted` is the template
filled in one go. A regular expression is matched against a text in which each `%` is doubled, so
that the second step gives back the text (`expand_escaped`), as long as the parts that are inserted
do not cut a pair in two and the template has no single `%` before them. A prefix pattern does
not double them.
-/

namespace Caudium.Redirect

open Lib (Str cut replaceAll ruleAt NoRule)

/-! ## Templates filled in one go -/

/-- A text with its doubled percent signs made single. -/
def unprotect (s : Str) : Str := replaceAll [(['%', '%'], ['%'])] s

/-- What the target of a pattern should be. -/
def Pattern.wanted (env : Env) (rules : List (Str × Str)) : Pattern → Str → RequestID → Option Str
  | exactMatch exact dest, with_, _ => if exact = with_ then some (replaceAll rules dest) else none
  | regMatch regexp dest, with_, _ =>
    ((env.regexp regexp).bind fun split => split (protect with_)).map fun split =>
      replaceAll (rules ++ groupRules (split.map (Option.map unprotect))) dest
  | globMatch globstring dest, with_, _ =>
    if env.glob globstring with_ then some (replaceAll rules dest) else none
  | prefixMatch pre dest, with_, _ =>
    if pre <+: with_ then
      some (replaceAll rules dest ++ beforeQuestion (with_.drop pre.length))
    else none
  | hostModifier matchObj, with_, id =>
    let (url, id) := getHostUrl id
    matchObj.wanted env rules (url ++ with_) id
  | varModifier matchObj var, _, id =>
    (id.vars.lookup var).bind fun value => matchObj.wanted env rules value id
  | cookieModifier matchObj cookie, _, id =>
    (id.cookies.lookup cookie).bind fun value => matchObj.wanted env rules value id
  | headerModifier matchObj header, _, id =>
    (id.requestHeaders.lookup header).bind fun value => matchObj.wanted env rules value id

/-- What the pattern that matches first should give. -/
def firstWanted (env : Env) (rules : List (Str × Str)) (with_ : Str) :
    List Pattern → RequestID → Option Str
  | [], _ => none
  | pattern :: patterns, id =>
    match pattern.answer env with_ id with
    | (some _, _) => pattern.wanted env rules with_ id
    | (none, id) => firstWanted env rules with_ patterns id

/-- The server URL that "%h" stands for, after the patterns have been tried. -/
def hostUrlAfter (env : Env) (patterns : List Pattern) (id : RequestID) : Str :=
  (getHostUrl (firstMatch env (subject id) patterns id).2).1

/-- What the target should be. -/
def wantedTarget (env : Env) (patterns : List Pattern) (id : RequestID) : Option Str :=
  firstWanted env (tokens id (hostUrlAfter env patterns id)) (subject id) patterns id

/-! ## Percent signs -/

/-- The characters that make a token with a `%` before them. -/
def tokenChars : List Char := ['%', 'u', 'h', 'f', 'p', 'q', 'Q']

/-- A `%` at the end of a template that makes no token there. -/
def unpaired : Str → Str
  | [] => []
  | ['%'] => ['%']
  | '%' :: _ :: s => unpaired s
  | _ :: s => unpaired s

/-- A part that a regular expression has matched, with `next` behind it: no `%` in it makes a
token, but with another `%` of the part. -/
def Escaped : Str → Option Char → Prop
  | [], _ => True
  | ['%'], next => ∀ c ∈ next, c ∉ tokenChars
  | '%' :: c :: s, next => (c = '%' ∨ c ∉ tokenChars) ∧ Escaped s next
  | _ :: s, next => Escaped s next

/-- The second step finds the tokens of the template, and those that undo the doubling. -/
inductive Undisturbed (split : List (Option Str)) : Str → Prop
  | nil : Undisturbed split []
  | token {c : Char} {dest : Str} (h : c ∈ tokenChars) (rest : Undisturbed split dest) :
      Undisturbed split ('%' :: c :: dest)
  | group {r : Str × Str} {dest : Str} (h : ruleAt (groupRules split) (r.1 ++ dest) = some r)
      (whole : Escaped r.2 (insertGroups dest split).head?) (rest : Undisturbed split dest) :
      Undisturbed split (r.1 ++ dest)
  | percent {dest : Str} (h : ∀ c ∈ (insertGroups dest split).head?, c ∉ tokenChars)
      (rest : Undisturbed split dest) : Undisturbed split ('%' :: dest)
  | keep {c : Char} {dest : Str} (h : c ≠ '%')
      (hno : ruleAt (groupRules split) (c :: dest) = none) (rest : Undisturbed split dest) :
      Undisturbed split (c :: dest)

/-- The second step leaves the text of the request alone. -/
def Pattern.Faithful (env : Env) (rules : List (Str × Str)) : Pattern → Str → RequestID → Prop
  | exactMatch _ _, _, _ => True
  | globMatch _ _, _, _ => True
  | regMatch regexp dest, with_, _ =>
    ∀ split ∈ (env.regexp regexp).bind fun split => split (protect with_), Undisturbed split dest
  | prefixMatch pre dest, with_, _ =>
    let rest := unpaired dest ++ beforeQuestion (with_.drop pre.length)
    '?' ∉ dest ∧ replaceAll rules rest = rest
  | hostModifier matchObj, with_, id =>
    let (url, id) := getHostUrl id
    matchObj.Faithful env rules (url ++ with_) id
  | varModifier matchObj var, _, id =>
    ∀ value ∈ id.vars.lookup var, matchObj.Faithful env rules value id
  | cookieModifier matchObj cookie, _, id =>
    ∀ value ∈ id.cookies.lookup cookie, matchObj.Faithful env rules value id
  | headerModifier matchObj header, _, id =>
    ∀ value ∈ id.requestHeaders.lookup header, matchObj.Faithful env rules value id

/-- A regular expression, with or without modifiers. -/
def Pattern.isReg : Pattern → Prop
  | regMatch _ _ => True
  | exactMatch _ _ | globMatch _ _ | prefixMatch _ _ => False
  | hostModifier p | varModifier p _ | cookieModifier p _ | headerModifier p _ => p.isReg

/-- `P` holds of the pattern that matches first, and of the request as it is then. -/
def FirstSatisfies (env : Env) (with_ : Str) (P : Pattern → RequestID → Prop) :
    List Pattern → RequestID → Prop
  | [], _ => True
  | pattern :: patterns, id =>
    match pattern.answer env with_ id with
    | (some _, _) => P pattern id
    | (none, id) => FirstSatisfies env with_ P patterns id

/-! ## The two scans -/

section Scans

variable {id : RequestID} {hurl : Str}

theorem expand_keep {c : Char} (h : c ≠ '%') (s : Str) :
    expand id hurl (c :: s) = c :: expand id hurl s := by
  refine Lib.replaceAll_keep (Lib.ruleAt_none ?_ s)
  simp [NoRule, tokens, h.symm]

theorem ruleAt_tokens (id : RequestID) (hurl : Str) {c : Char} (h : c ∈ tokenChars) : ∃ value, ∀ s,
    ruleAt (tokens id hurl) ('%' :: c :: s) = some (['%', c], value) := by
  simp only [tokenChars, List.mem_cons, List.not_mem_nil, or_false] at h
  rcases h with rfl | rfl | rfl | rfl | rfl | rfl | rfl <;> exact ⟨_, fun _ => rfl⟩

theorem ruleAt_tokens_none {s : Str} (h : ∀ c ∈ s.head?, c ∉ tokenChars) :
    ruleAt (tokens id hurl) ('%' :: s) = none := by
  cases s with
  | nil => rfl
  | cons c s =>
    have hc := h c rfl
    simp only [tokenChars, List.mem_cons, List.not_mem_nil, or_false, not_or] at hc
    simp [ruleAt, tokens, List.isPrefixOf, Ne.symm hc.1, Ne.symm hc.2.1, Ne.symm hc.2.2.1,
      Ne.symm hc.2.2.2.1, Ne.symm hc.2.2.2.2.1, Ne.symm hc.2.2.2.2.2.1, Ne.symm hc.2.2.2.2.2.2]

theorem expand_token (id : RequestID) (hurl : Str) {c : Char} (h : c ∈ tokenChars) :
    ∃ value, ∀ s,
    expand id hurl ('%' :: c :: s) = value ++ expand id hurl s := by
  obtain ⟨value, hrule⟩ := ruleAt_tokens id hurl h
  exact ⟨value, fun s =>
    Lib.replaceAll_rule (r := (['%', c], value)) (hrule s) (List.cons_ne_nil _ _)⟩

theorem expand_double (s : Str) : expand id hurl ('%' :: '%' :: s) = '%' :: expand id hurl s :=
  Lib.replaceAll_rule (r := (['%', '%'], ['%'])) rfl (List.cons_ne_nil _ _)

theorem expand_single {s : Str} (h : ∀ c ∈ s.head?, c ∉ tokenChars) :
    expand id hurl ('%' :: s) = '%' :: expand id hurl s :=
  Lib.replaceAll_keep (ruleAt_tokens_none h)

theorem unprotect_keep {c : Char} (h : c ≠ '%') (s : Str) :
    unprotect (c :: s) = c :: unprotect s := by
  refine Lib.replaceAll_keep (Lib.ruleAt_none ?_ s)
  simp [NoRule, h.symm]

theorem unprotect_double (s : Str) : unprotect ('%' :: '%' :: s) = '%' :: unprotect s :=
  Lib.replaceAll_rule (r := (['%', '%'], ['%'])) rfl (List.cons_ne_nil _ _)

theorem unprotect_single {s : Str} (h : ∀ c ∈ s.head?, c ≠ '%') :
    unprotect ('%' :: s) = '%' :: unprotect s := by
  refine Lib.replaceAll_keep ?_
  cases s with
  | nil => rfl
  | cons c s =>
    have hc := (h c rfl).symm
    simp [ruleAt, List.isPrefixOf, hc]

theorem protect_keep {c : Char} (h : c ≠ '%') (s : Str) : protect (c :: s) = c :: protect s := by
  refine Lib.replaceAll_keep (Lib.ruleAt_none ?_ s)
  simp [NoRule, h.symm]

theorem protect_percent (s : Str) : protect ('%' :: s) = '%' :: '%' :: protect s :=
  Lib.replaceAll_rule (r := (['%'], ['%', '%'])) rfl (List.cons_ne_nil _ _)

/-! ## Parts of the request -/

/-- A part that is inserted comes out as text. -/
theorem expand_escaped {part s : Str} (h : Escaped part s.head?) :
    expand id hurl (part ++ s) = unprotect part ++ expand id hurl s := by
  generalize hnext : s.head? = next at h
  fun_induction Escaped part next with
  | case1 => rfl
  | case2 =>
    rw [List.singleton_append, expand_single (hnext ▸ h)]
    rfl
  | case3 c part next ih =>
    obtain ⟨hc, hpart⟩ := h
    rcases Decidable.em (c = '%') with rfl | hne
    · rw [List.cons_append, List.cons_append, expand_double, unprotect_double, ih hnext hpart]
      rfl
    · have hsingle : ∀ d ∈ ((c :: part) ++ s).head?, d ∉ tokenChars := by
        intro d hand
        cases hand
        exact hc.resolve_left hne
      have hother : ∀ d ∈ (c :: part).head?, d ≠ '%' := by
        intro d hand
        cases hand
        exact hne
      rw [List.cons_append, expand_single hsingle, unprotect_single hother, List.cons_append,
        expand_keep hne, unprotect_keep hne, ih hnext hpart]
      rfl
  | case4 c part next hnil hcons ih =>
    have hc : c ≠ '%' := by
      intro heq
      cases part with
      | nil => exact hnil heq rfl
      | cons d part => exact hcons d part heq rfl
    rw [List.cons_append, expand_keep hc, unprotect_keep hc, ih hnext h]
    rfl

/-- Where a text is inserted whole, it is escaped. -/
theorem escaped_protect (s : Str) (next : Option Char) : Escaped (protect s) next := by
  induction s with
  | nil => exact trivial
  | cons c s ih =>
    by_cases hc : c = '%'
    · rw [hc, protect_percent]
      exact ⟨Or.inl rfl, ih⟩
    · rw [protect_keep hc]
      rw [Escaped]
      · exact ih
      · exact fun h _ => hc h
      · exact fun _ _ h _ => hc h

theorem prefix_unprotect {s part : Str} (h : part <+: protect s) : unprotect part <+: s := by
  induction s generalizing part with
  | nil =>
    obtain rfl := List.prefix_nil.mp h
    exact List.prefix_refl []
  | cons c s ih =>
    by_cases hc : c = '%'
    · rw [hc, protect_percent] at h
      rcases List.prefix_cons_iff.mp h with rfl | ⟨half, rfl, hhalf⟩
      · exact List.nil_prefix
      · rcases List.prefix_cons_iff.mp hhalf with rfl | ⟨rest, rfl, hrest⟩
        · rw [hc]
          exact List.prefix_append ['%'] s
        · rw [hc, unprotect_double]
          exact List.cons_prefix_cons.mpr ⟨rfl, ih hrest⟩
    · rw [protect_keep hc] at h
      rcases List.prefix_cons_iff.mp h with rfl | ⟨rest, rfl, hrest⟩
      · exact List.nil_prefix
      · rw [unprotect_keep hc]
        exact List.cons_prefix_cons.mpr ⟨rfl, ih hrest⟩

/-- A part that begins with the second half of a pair. -/
theorem prefix_unprotect_half {s part : Str} (h : part <+: protect s) :
    unprotect ('%' :: part) <+: '%' :: s := by
  induction s generalizing part with
  | nil =>
    obtain rfl := List.prefix_nil.mp h
    exact List.prefix_refl _
  | cons c s ih =>
    by_cases hc : c = '%'
    · rw [hc, protect_percent] at h
      rcases List.prefix_cons_iff.mp h with rfl | ⟨half, rfl, hhalf⟩
      · exact List.prefix_append ['%'] _
      · rw [hc, unprotect_double]
        refine List.cons_prefix_cons.mpr ⟨rfl, ?_⟩
        rcases List.prefix_cons_iff.mp hhalf with rfl | ⟨rest, rfl, hrest⟩
        · exact List.nil_prefix
        · exact ih hrest
    · rw [protect_keep hc] at h
      rcases List.prefix_cons_iff.mp h with rfl | ⟨rest, rfl, hrest⟩
      · exact List.prefix_append ['%'] _
      · have hother : ∀ d ∈ (c :: rest).head?, d ≠ '%' := by
          intro d hand
          cases hand
          exact hc
        rw [unprotect_single hother, unprotect_keep hc]
        have htail : c :: unprotect rest <+: c :: s :=
          List.cons_prefix_cons.mpr ⟨rfl, prefix_unprotect hrest⟩
        exact List.cons_prefix_cons.mpr ⟨rfl, htail⟩

/-- What stands for a part of the doubled text is a part of the text, byte for byte. -/
theorem infix_unprotect {s part : Str} (h : part <:+: protect s) : unprotect part <:+: s := by
  induction s with
  | nil =>
    obtain rfl := List.infix_nil.mp h
    exact List.infix_refl []
  | cons c s ih =>
    by_cases hc : c = '%'
    · rw [hc, protect_percent] at h
      rw [hc]
      rcases List.infix_cons_iff.mp h with hpre | hhalf
      · rw [← protect_percent] at hpre
        exact (prefix_unprotect hpre).isInfix
      · rcases List.infix_cons_iff.mp hhalf with hpre | hlater
        · rcases List.prefix_cons_iff.mp hpre with rfl | ⟨rest, rfl, hrest⟩
          · exact List.nil_infix
          · exact (prefix_unprotect_half hrest).isInfix
        · exact (ih hlater).trans (List.suffix_cons '%' s).isInfix
    · rw [protect_keep hc] at h
      rcases List.infix_cons_iff.mp h with hpre | hlater
      · rw [← protect_keep hc] at hpre
        exact (prefix_unprotect hpre).isInfix
      · exact (ih hlater).trans (List.suffix_cons c s).isInfix

/-! ## The templates of regular expressions -/

theorem mem_groupRules {split : List (Option Str)} {r : Str × Str} (h : r ∈ groupRules split) :
    ∃ t, r.1 = '$' :: t := by
  obtain ⟨p, -, rfl⟩ := List.mem_map.mp (List.mem_reverse.mp h)
  exact ⟨_, rfl⟩

theorem ruleAt_groups {c : Char} (h : c ≠ '$') (split : List (Option Str)) (s : Str) :
    ruleAt (groupRules split) (c :: s) = none := by
  refine Lib.ruleAt_none (fun r hr => ?_) s
  obtain ⟨t, ht⟩ := mem_groupRules hr
  rw [ht]
  exact ⟨List.cons_ne_nil _ _, fun heq => h (Option.some.inj heq).symm⟩

theorem groupRules_unprotect (split : List (Option Str)) :
    groupRules (split.map (Option.map unprotect)) =
      (groupRules split).map fun r => (r.1, unprotect r.2) := by
  have hpart : ∀ o : Option Str, partText (o.map unprotect) = unprotect (partText o) := by
    intro o
    cases o <;> rfl
  rw [groupRules, groupRules, List.zipIdx_map, List.map_map, List.map_reverse, List.map_map]
  refine congrArg List.reverse (List.map_congr_left fun p _ => ?_)
  show ('$' :: (toString p.2).toList, partText (p.1.map unprotect)) = _
  rw [hpart]
  rfl

theorem insertGroups_keep {c : Char} {split : List (Option Str)} (h : c ≠ '$') (s : Str) :
    insertGroups (c :: s) split = c :: insertGroups s split :=
  Lib.replaceAll_keep (ruleAt_groups h split s)

theorem tokenChars_ne {c : Char} (h : c ∈ tokenChars) : c ≠ '$' := by
  intro heq
  subst heq
  exact absurd h (by decide)

/-- The two steps fill a template that is not disturbed as one does. -/
theorem expand_insertGroups {split : List (Option Str)} {dest : Str} (h : Undisturbed split dest) :
    expand id hurl (insertGroups dest split) =
      replaceAll (tokens id hurl ++ groupRules (split.map (Option.map unprotect))) dest := by
  rw [groupRules_unprotect]
  have hrules := Lib.ruleAt_append (tokens id hurl)
    ((groupRules split).map fun r => (r.1, unprotect r.2))
  have hfits := Lib.ruleAt_map unprotect (groupRules split)
  induction h with
  | nil => rfl
  | @token c dest hc _ ih =>
    obtain ⟨value, hvalue⟩ := ruleAt_tokens id hurl hc
    have hrule : ∀ s, expand id hurl ('%' :: c :: s) = value ++ expand id hurl s := fun s =>
      Lib.replaceAll_rule (r := (['%', c], value)) (hvalue s) (List.cons_ne_nil _ _)
    have hone := Lib.replaceAll_rule (r := (['%', c], value)) (s := dest)
      ((hrules ('%' :: c :: dest)).trans (by rw [hvalue]; rfl)) (List.cons_ne_nil _ _)
    rw [insertGroups_keep (by decide), insertGroups_keep (tokenChars_ne hc), hrule, ih]
    exact hone.symm
  | @group r dest hrule hwhole _ ih =>
    obtain ⟨t, ht⟩ := mem_groupRules (List.mem_of_find?_eq_some hrule)
    have hne : r.1 ≠ [] := by
      rw [ht]
      exact List.cons_ne_nil _ _
    have hnone : ruleAt (tokens id hurl) (r.1 ++ dest) = none := by
      rw [ht]
      exact Lib.ruleAt_none (by simp [NoRule, tokens]) _
    have hfirst : insertGroups (r.1 ++ dest) split = r.2 ++ insertGroups dest split :=
      Lib.replaceAll_rule hrule hne
    have hone := Lib.replaceAll_rule (r := (r.1, unprotect r.2)) (s := dest)
      ((hrules (r.1 ++ dest)).trans (by rw [hnone, hfits, hrule]; rfl)) hne
    rw [hfirst, expand_escaped hwhole, ih]
    exact hone.symm
  | @percent dest hnone _ ih =>
    -- a character of the template behind it stays where it is
    have htemplate : ∀ c ∈ dest.head?, c ∉ tokenChars := by
      intro c hhead hc
      obtain ⟨t, rfl⟩ := List.head?_eq_some_iff.mp hhead
      rw [insertGroups_keep (tokenChars_ne hc)] at hnone
      exact hnone c rfl hc
    rw [insertGroups_keep (by decide), expand_single hnone, ih]
    refine (Lib.replaceAll_keep ?_).symm
    rw [hrules, ruleAt_tokens_none htemplate, hfits, ruleAt_groups (by decide)]
    rfl
  | @keep c dest hc hno _ ih =>
    have hone : ruleAt (tokens id hurl) (c :: dest) = none :=
      Lib.ruleAt_none (by simp [NoRule, tokens, hc.symm]) _
    have hfirst : insertGroups (c :: dest) split = c :: insertGroups dest split :=
      Lib.replaceAll_keep hno
    rw [hfirst, expand_keep hc, ih]
    refine (Lib.replaceAll_keep ?_).symm
    rw [hrules, hone, hfits, hno]
    rfl

/-- A template without a `%` is not disturbed by parts that are texts of their own. -/
theorem undisturbed_of_protected {split : List (Option Str)}
    (hsplit : ∀ r ∈ groupRules split, ∃ s, r.2 = protect s) {dest : Str} (h : '%' ∉ dest) :
    Undisturbed split dest := by
  induction hn : dest.length using Nat.strongRecOn generalizing dest with
  | ind n ih =>
    subst hn
    cases dest with
    | nil => exact .nil
    | cons c dest =>
      cases hr : ruleAt (groupRules split) (c :: dest) with
      | none =>
        rw [List.mem_cons, not_or] at h
        exact .keep (Ne.symm h.1) hr (ih _ (Nat.lt_succ_self _) h.2 rfl)
      | some r =>
        have hmem := List.mem_of_find?_eq_some hr
        have hfits := List.find?_some hr
        obtain ⟨t, ht⟩ := mem_groupRules hmem
        obtain ⟨rest, hrest⟩ := List.isPrefixOf_iff_prefix.mp hfits
        obtain ⟨s, hs⟩ := hsplit r hmem
        rw [← hrest] at h hr ⊢
        have hlt : rest.length < (c :: dest).length := by
          rw [← hrest, ht, List.length_append, List.length_cons]
          omega
        rw [List.mem_append, not_or] at h
        exact .group hr (hs ▸ escaped_protect s _) (ih _ hlt h.2 rfl)

/-! ## The templates of prefix patterns -/

/-- What comes before an unpaired `%` is filled without what is behind it. -/
theorem expand_append (id : RequestID) (hurl dest : Str) : ∃ filled, ∀ s,
    expand id hurl (dest ++ s) = filled ++ expand id hurl (unpaired dest ++ s) := by
  fun_induction unpaired dest with
  | case1 => exact ⟨[], fun _ => rfl⟩
  | case2 => exact ⟨[], fun _ => rfl⟩
  | case3 c dest ih =>
    obtain ⟨filled, hfilled⟩ := ih
    by_cases hc : c ∈ tokenChars
    · obtain ⟨value, hvalue⟩ := expand_token id hurl hc
      refine ⟨value ++ filled, fun s => ?_⟩
      rw [List.cons_append, List.cons_append, hvalue, hfilled, List.append_assoc]
    · have hne : c ≠ '%' := by
        intro h
        subst h
        exact hc (by decide)
      refine ⟨'%' :: c :: filled, fun s => ?_⟩
      have hsingle : ∀ d ∈ ((c :: dest) ++ s).head?, d ∉ tokenChars := by
        intro d h
        cases h
        exact hc
      rw [List.cons_append, expand_single hsingle, List.cons_append, expand_keep hne, hfilled]
      rfl
  | case4 c dest hnil hcons ih =>
    obtain ⟨filled, hfilled⟩ := ih
    have hc : c ≠ '%' := by
      intro heq
      cases dest with
      | nil => exact hnil heq rfl
      | cons d dest => exact hcons d dest heq rfl
    refine ⟨c :: filled, fun s => ?_⟩
    rw [List.cons_append, expand_keep hc, hfilled]
    rfl

theorem unpaired_cases (dest : Str) : unpaired dest = [] ∨ unpaired dest = ['%'] := by
  fun_induction unpaired dest with
  | case1 => exact Or.inl rfl
  | case2 => exact Or.inr rfl
  | case3 _ _ ih => exact ih
  | case4 _ _ _ _ ih => exact ih

/-- An unpaired `%` at the end, or before a character that makes no token with it, is kept. -/
theorem expand_unpaired (dest : Str) {s : Str} (h : ∀ c ∈ s.head?, c ∉ tokenChars) :
    expand id hurl (unpaired dest ++ s) = unpaired dest ++ expand id hurl s := by
  rcases unpaired_cases dest with hnil | hsingle
  · rw [hnil]
    rfl
  · rw [hsingle]
    exact expand_single h

/-- `expand_append`, with the template alone. -/
theorem expand_split (id : RequestID) (hurl dest : Str) :
    ∃ filled, expand id hurl dest = filled ++ unpaired dest ∧
    ∀ s, expand id hurl (dest ++ s) = filled ++ expand id hurl (unpaired dest ++ s) := by
  obtain ⟨filled, hfilled⟩ := expand_append id hurl dest
  refine ⟨filled, ?_, hfilled⟩
  have halone := hfilled []
  rw [expand_unpaired dest (fun c h => by cases h)] at halone
  simpa [expand, replaceAll, Lib.replaceFrom] using halone

theorem beforeQuestion_cut {s : Str} (h : '?' ∉ s) (t : Str) :
    beforeQuestion (s ++ '?' :: t) = s := by
  rw [beforeQuestion, Lib.cut_char h]

theorem beforeQuestion_append {dest : Str} (h : '?' ∉ dest) (rest : Str) :
    beforeQuestion (dest ++ rest) = dest ++ beforeQuestion rest := by
  by_cases hrest : '?' ∈ rest
  · obtain ⟨s, t, rfl, hs⟩ := List.eq_append_cons_of_mem hrest
    have hboth : '?' ∉ dest ++ s := fun hmem => (List.mem_append.mp hmem).elim h hs
    rw [beforeQuestion_cut hs, ← List.append_assoc, beforeQuestion_cut hboth]
  · have hboth : '?' ∉ dest ++ rest := fun hmem => (List.mem_append.mp hmem).elim h hrest
    rw [beforeQuestion, beforeQuestion, Lib.cut_char_none hboth, Lib.cut_char_none hrest]

/-- A prefix pattern gives what it should if its destination has no question mark and the rest of
the text stays as it is, and only then. -/
theorem expand_prefix_iff (dest rest : Str) :
    expand id hurl (beforeQuestion (dest ++ rest)) = expand id hurl dest ++ beforeQuestion rest ↔
      '?' ∉ dest ∧ expand id hurl (unpaired dest ++ beforeQuestion rest) =
        unpaired dest ++ beforeQuestion rest := by
  by_cases hq : '?' ∈ dest
  · refine iff_of_false (fun heq => ?_) fun h => h.1 hq
    obtain ⟨s, t, rfl, hs⟩ := List.eq_append_cons_of_mem hq
    obtain ⟨filled, halone, hfilled⟩ := expand_split id hurl s
    have hmark : ∀ c ∈ ('?' :: t).head?, c ∉ tokenChars := by
      intro c hand
      cases hand
      decide
    rw [List.append_assoc, List.cons_append, beforeQuestion_cut hs, halone, hfilled,
      expand_unpaired s hmark, expand_keep (by decide)] at heq
    -- the target has lost the question mark
    have hlength := congrArg List.length heq
    simp at hlength
  · obtain ⟨filled, halone, hfilled⟩ := expand_split id hurl dest
    rw [beforeQuestion_append hq, hfilled, halone, List.append_assoc, List.append_cancel_left_eq]
    exact (and_iff_right hq).symm

/-! ## Patterns -/

theorem answer_faithful (id : RequestID) (hurl : Str) (env : Env) (p : Pattern) :
    ∀ (with_ : Str) (id' : RequestID),
    p.Faithful env (tokens id hurl) with_ id' →
    (p.answer env with_ id').1.map (expand id hurl) = p.wanted env (tokens id hurl) with_ id' := by
  induction p with
  | exactMatch exact dest =>
    intro with_ id' _
    rw [Pattern.answer, Pattern.wanted]
    split <;> rfl
  | globMatch globstring dest =>
    intro with_ id' _
    rw [Pattern.answer, Pattern.wanted]
    split <;> rfl
  | regMatch regexp dest =>
    intro with_ id' h
    rw [Pattern.answer, Pattern.wanted]
    cases hsplit : (env.regexp regexp).bind fun split => split (protect with_) with
    | none => rfl
    | some split => exact congrArg some (expand_insertGroups (h split hsplit))
  | prefixMatch pre dest =>
    intro with_ id' h
    rw [Pattern.answer, Pattern.wanted]
    split
    next => exact congrArg some ((expand_prefix_iff dest _).mpr h)
    next => rfl
  | hostModifier p ih => exact fun with_ id' h => ih _ _ h
  | varModifier p var ih | cookieModifier p var ih | headerModifier p var ih =>
    intro with_ id' h
    rw [Pattern.answer, Pattern.wanted]
    rw [Pattern.Faithful] at h
    split
    next value hvalue =>
      rw [hvalue]
      exact ih value id' (h value hvalue)
    next hnone =>
      rw [hnone]
      rfl

theorem faithful_of_wanted (id : RequestID) (hurl : Str) (env : Env) (p : Pattern) :
    ∀ (with_ : Str) (id' : RequestID),
    (p.answer env with_ id').1 ≠ none →
    (p.answer env with_ id').1.map (expand id hurl) = p.wanted env (tokens id hurl) with_ id' →
    p.Faithful env (tokens id hurl) with_ id' ∨ p.isReg := by
  induction p with
  | exactMatch exact dest => exact fun _ _ _ _ => Or.inl trivial
  | globMatch globstring dest => exact fun _ _ _ _ => Or.inl trivial
  | regMatch regexp dest => exact fun _ _ _ _ => Or.inr trivial
  | prefixMatch pre dest =>
    intro with_ id' hmatch heq
    rw [Pattern.answer] at hmatch heq
    rw [Pattern.wanted] at heq
    split at hmatch
    next hpre =>
      rw [if_pos hpre, if_pos hpre] at heq
      exact Or.inl ((expand_prefix_iff dest _).mp (Option.some.inj heq))
    next => exact absurd rfl hmatch
  | hostModifier p ih => exact fun with_ id' hmatch heq => ih _ _ hmatch heq
  | varModifier p var ih | cookieModifier p var ih | headerModifier p var ih =>
    intro with_ id' hmatch heq
    rw [Pattern.answer] at hmatch heq
    rw [Pattern.wanted] at heq
    rw [Pattern.Faithful]
    split at hmatch
    next value hvalue =>
      rw [hvalue] at heq ⊢
      refine (ih value id' hmatch heq).imp_left fun h value' hvalue' => ?_
      obtain rfl := Option.some.inj hvalue'
      exact h
    next => exact absurd rfl hmatch

theorem first_faithful {env : Env} (with_ : Str) (ps : List Pattern) : ∀ id' : RequestID,
    FirstSatisfies env with_ (fun p id' => p.Faithful env (tokens id hurl) with_ id') ps id' →
    (firstMatch env with_ ps id').1.map (expand id hurl) =
      firstWanted env (tokens id hurl) with_ ps id' := by
  induction ps with
  | nil => exact fun _ _ => rfl
  | cons p ps ih =>
    intro id' h
    have hone := answer_faithful id hurl env p with_ id'
    rw [FirstSatisfies] at h
    rw [firstMatch, firstWanted]
    generalize p.answer env with_ id' = a at h hone ⊢
    rcases a with ⟨to_ | to_, id''⟩
    · exact ih id'' h
    · exact hone h

theorem faithful_of_first {env : Env} (with_ : Str) (ps : List Pattern) : ∀ id' : RequestID,
    (firstMatch env with_ ps id').1.map (expand id hurl) =
      firstWanted env (tokens id hurl) with_ ps id' →
    FirstSatisfies env with_ (fun p id' => p.Faithful env (tokens id hurl) with_ id' ∨ p.isReg)
      ps id' := by
  induction ps with
  | nil => exact fun _ _ => trivial
  | cons p ps ih =>
    intro id' h
    have hone := faithful_of_wanted id hurl env p with_ id'
    rw [firstMatch, firstWanted] at h
    rw [FirstSatisfies]
    generalize p.answer env with_ id' = a at h hone ⊢
    rcases a with ⟨to_ | to_, id''⟩
    · exact ih id'' h
    · exact hone (Option.some_ne_none to_) h

end Scans

/-! ## The target -/

theorem tokens_getHostUrl (id : RequestID) (hurl : Str) :
    tokens (getHostUrl id).2 hurl = tokens id hurl := by
  unfold getHostUrl
  split <;> rfl

/-- Matching changes nothing that the tokens stand for, but the server URL. -/
theorem tokens_answer (env : Env) (p : Pattern) (hurl : Str) : ∀ (with_ : Str) (id : RequestID),
    tokens (p.answer env with_ id).2 hurl = tokens id hurl := by
  induction p with
  | exactMatch _ _ | globMatch _ _ => exact fun _ _ => rfl
  | regMatch _ _ | prefixMatch _ _ =>
    intro with_ id
    rw [Pattern.answer]
    split <;> rfl
  | hostModifier p ih =>
    intro with_ id
    exact (ih _ _).trans (tokens_getHostUrl id hurl)
  | varModifier p _ ih | cookieModifier p _ ih | headerModifier p _ ih =>
    intro with_ id
    rw [Pattern.answer]
    split
    next value _ => exact ih value id
    next => rfl

theorem tokens_firstMatch (env : Env) (with_ hurl : Str) (ps : List Pattern) : ∀ id : RequestID,
    tokens (firstMatch env with_ ps id).2 hurl = tokens id hurl := by
  induction ps with
  | nil => exact fun _ => rfl
  | cons p ps ih =>
    intro id
    have hone := tokens_answer env p hurl with_ id
    rw [firstMatch]
    rcases hans : p.answer env with_ id with ⟨to_ | to_, id'⟩
    · rw [hans] at hone
      exact (ih id').trans hone
    · rw [hans] at hone
      exact hone

theorem target_eq (env : Env) (patterns : List Pattern) (id : RequestID) :
    target env patterns id = (firstMatch env (subject id) patterns id).1.map
      (expand id (hostUrlAfter env patterns id)) := by
  have htokens := tokens_firstMatch env (subject id) (hostUrlAfter env patterns id) patterns id
  unfold hostUrlAfter at htokens ⊢
  unfold target
  generalize firstMatch env (subject id) patterns id = m at htokens ⊢
  rcases m with ⟨to_ | to_, id'⟩
  · rfl
  · exact congrArg (fun rules => some (replaceAll rules to_)) htokens

/-- What `first_try` does, it does with the target. -/
theorem firstTry_target (env : Env) (patterns : List Pattern) (id : RequestID) :
    match firstTry env patterns id with
    | .none => True
    | .location url => ∃ to_, target env patterns id = some to_ ∧
        url = replaceAll [(['\x00'], "%00".toList), ([' '], "%20".toList)] to_
    | .internal path => target env patterns id = some path := by
  unfold firstTry target
  by_cases hredirected : id.isRedirected = true
  · rw [if_pos hredirected]
    exact trivial
  · rw [if_neg hredirected]
    rcases firstMatch env (subject id) patterns id with ⟨to_ | to_, id'⟩
    · exact trivial
    · dsimp only
      by_cases heternal : eternal id' (getHostUrl id').1 (expand id' (getHostUrl id').1 to_)
      · rw [if_pos heternal]
        exact trivial
      · rw [if_neg heternal]
        by_cases hqualified : qualified (expand id' (getHostUrl id').1 to_)
        · rw [if_pos hqualified]
          exact ⟨_, rfl, rfl⟩
        · rw [if_neg hqualified]

/-- The target is the template, filled, if the second step leaves the text of the request alone; and
for a pattern that is no regular expression only then. -/
theorem target_wanted (env : Env) (patterns : List Pattern) (id : RequestID) :
    let rules := tokens id (hostUrlAfter env patterns id)
    (FirstSatisfies env (subject id) (fun p => p.Faithful env rules (subject id)) patterns id →
      target env patterns id = wantedTarget env patterns id) ∧
    (target env patterns id = wantedTarget env patterns id →
      FirstSatisfies env (subject id) (fun p id' => p.Faithful env rules (subject id) id' ∨ p.isReg)
        patterns id) := by
  intro rules
  rw [target_eq, wantedTarget]
  exact ⟨first_faithful (subject id) patterns id, faithful_of_first (subject id) patterns id⟩

/-- The request for "/a/%u": the server URL is where its text should be. -/
theorem target_percent :
    let env : Env := ⟨fun _ => none, fun _ _ => false⟩
    let id : RequestID :=
      { notQuery := "/a/%u".toList, query := none, raw := "GET /a/%25u HTTP/1.1".toList
        vars := ∅, cookies := ∅, requestHeaders := ∅, host := none, hostUrl := none, ssl := false
        canonicalUrl := "http://h/".toList, isRedirected := false }
    let patterns : List Pattern := [.prefixMatch "/a/".toList "/b/".toList]
    target env patterns id = some "/b/http://h".toList ∧
      wantedTarget env patterns id = some "/b/%u".toList := by
  decide +kernel

end Caudium.Redirect
