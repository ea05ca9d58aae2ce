import Caudium.BaseServer.Addresses

/-!
# Lists of users

The names of an "allow user" are put into expressions, 16 to each, and each expression becomes a
pattern. In a module that is no proxy a user may match any of the patterns. In a proxy
`check_security` answers at the first one, so only the first 16 names count; and a list without
names leaves no pattern, which admits everyone (`userList_iff`).
-/

namespace Caudium.BaseServer.Seclevels

open Lib (Str Wild Fits)
open Http (lowerCase splitOn)

/-- The names of a directive, none of them "any". -/
structure UserList where
  names : List Str
  given : ∀ n ∈ names, n ≠ []
  comma : ∀ n ∈ names, ',' ∉ n
  notAny : ∀ n ∈ names, isAny n = false

def UserList.text (l : UserList) : Str := [','].intercalate l.names

/-- One of the names matches the user's. -/
def UserList.Holds (l : UserList) (user : Str) : Prop := ∃ n ∈ l.names, Fits (globOf n) user

/-- A module with the list in its setting, and no other line in it that counts. -/
structure AllowUser where
  env : Env
  list : UserList
  type : Str
  word : lowerCase type = "allowuser".toList
  setting : Str
  lines : (settingLines setting).filter (fun sl => ¬ (sl = [] ∨ sl.head? = some '#')) =
    [type ++ '=' :: list.text]
  seclvl : Option Int
  secGroup : Option Str

/-- The first check of a function of the module. An error that `query_seclevels` throws is thrown
on. -/
def AllowUser.check (m : AllowUser) (id : Request) (slevel : Level) : Option Answer :=
  (querySeclevels m.env (some m.setting)).bind fun rules =>
    (checkSecurity (fun _ : Unit => ⟨some rules, m.seclvl, m.secGroup⟩) ∅ () id slevel).1

/-- The user of the request that the patterns look at. -/
def AllowUser.authOf (m : AllowUser) (id : Request) : Option Auth :=
  if m.env.proxy then id.proxyauth else id.auth

/-- The rules are made, and admit the user exactly if a name of the list matches. -/
def AllowUser.Tells (m : AllowUser) (id : Request) (slevel : Level) (user : Str) : Prop :=
  ∃ answer, m.check id slevel = some answer ∧ (answer = .allowed ↔ m.list.Holds user)

/-! ## Blocks of names -/

section Blocks

variable {α : Type}

/-- 16 at a time; `block` is what there is of the one that is being put together. -/
def blocksFrom [DecidableEq α] (block : List α) : List α → List (List α)
  | [] => if block = [] then [] else [block]
  | a :: as =>
    if block.length = 15 then (block ++ [a]) :: blocksFrom [] as else blocksFrom (block ++ [a]) as

variable [DecidableEq α]

theorem flatten_blocksFrom (as : List α) : ∀ block : List α,
    (blocksFrom block as).flatten = block ++ as := by
  induction as with
  | nil =>
    intro block
    rw [blocksFrom, List.append_nil]
    split
    next h => exact h.symm
    next => simp
  | cons a as ih =>
    intro block
    rw [blocksFrom]
    split
    next => simp [ih]
    next => simp [ih]

theorem block_bounds {as : List α} : ∀ {block : List α}, block.length < 16 →
    ∀ b ∈ blocksFrom block as, b ≠ [] ∧ b.length ≤ 16 := by
  induction as with
  | nil =>
    intro block hlen b hb
    rw [blocksFrom] at hb
    split at hb
    next => cases hb
    next hne =>
      rw [List.mem_singleton.mp hb]
      exact ⟨hne, hlen.le⟩
  | cons a as ih =>
    intro block hlen b hb
    rw [blocksFrom] at hb
    split at hb
    next hfull =>
      rcases List.mem_cons.mp hb with rfl | hb
      · simp [hfull]
      · exact ih (by simp) b hb
    next hroom => exact ih (by simp; omega) b hb

/-- The first block has the first 16. -/
theorem blocksFrom_eq_cons {as : List α} : ∀ block : List α, block.length < 16 →
    block ++ as ≠ [] → ∃ rest, blocksFrom block as = (block ++ as).take 16 :: rest := by
  induction as with
  | nil =>
    intro block hlen hne
    rw [List.append_nil] at hne ⊢
    refine ⟨[], ?_⟩
    rw [blocksFrom, if_neg hne, List.take_of_length_le hlen.le]
  | cons a as ih =>
    intro block hlen _
    rw [blocksFrom]
    split
    next hfull =>
      have htake : (block ++ a :: as).take 16 = block ++ [a] := by
        rw [← List.singleton_append, ← List.append_assoc]
        exact List.take_left' (by simp [hfull])
      exact ⟨_, by rw [htake]⟩
    next hroom =>
      have h := ih (block ++ [a]) (by simp; omega) (by simp)
      rwa [List.append_assoc] at h

end Blocks

/-- What `Regexp` is given for a block. -/
def expression (block : List Str) : Str :=
  ['|'].intercalate (block.map fun n => anchored (translate n))

/-- What `Regexp` does with such an expression: one of the names matches the whole text. -/
structure DocumentedNames (regexp : Str → Option (Str → Bool)) : Prop where
  matches_one : ∀ ps : List (List (Wild Char)), ps ≠ [] → ps.length ≤ 16 →
    (∀ p ∈ ps, ∀ c, .lit c ∈ p → Plain c) → ∃ m,
      regexp (['|'].intercalate (ps.map fun p => anchored (p.flatMap atom))) = some m ∧
      ∀ s, (∀ c ∈ s, Byte c) → (m s = true ↔ ∃ p ∈ ps, Fits p s)

/-- The expressions of a list. -/
def UserList.matchers (l : UserList) (env : Env) : Option (List (Str → Bool)) :=
  (blocksFrom [] l.names).mapM fun block => env.regexp (expression block)

/-- Where the rules are right: there is a name in the list, and in a proxy the first 16 names decide
as all of them do; if a name or the user has a character that means something to `Regexp`, its own
answers decide. -/
def AllowUser.Right (m : AllowUser) (user : Str) : Prop :=
  m.list.names ≠ [] ∧
    if (∀ n ∈ m.list.names, ∀ c ∈ n, c = '*' ∨ c = '?' ∨ Plain c) ∧ ∀ c ∈ user, Byte c then
      m.env.proxy = true → m.list.Holds user → ∃ n ∈ m.list.names.take 16, Fits (globOf n) user
    else ∃ ms, m.list.matchers m.env = some ms ∧
      ((∃ f ∈ if m.env.proxy then ms.take 1 else ms, f user = true) ↔ m.list.Holds user)

/-! ## The rules -/

variable {env : Env}

theorem translate_append (s t : Str) : translate (s ++ t) = translate s ++ translate t := by
  simp only [translate_eq, globOf, List.map_append, List.flatMap_append]

theorem translate_cons (c : Char) (s : Str) : translate (c :: s) = translate [c] ++ translate s :=
  translate_append [c] s

theorem translate_char (c : Char) :
    translate [c] = if c = '*' then ['.', '*'] else if c = '?' then ['.']
      else if c = '.' then ['\\', '.'] else [c] := by
  rw [translate_eq]
  show atom (if c = '*' then .run else if c = '?' then .one else .lit c) ++ [] = _
  rw [List.append_nil, apply_ite atom, apply_ite atom]
  rfl

theorem translate_intercalate (ns : List Str) :
    translate ([','].intercalate ns) = [','].intercalate (ns.map translate) := by
  induction ns with
  | nil => rfl
  | cons n ns ih =>
    cases ns with
    | nil => simp
    | cons n' ns =>
      have hcomma : translate [','] = [','] := by decide
      rw [List.intercalate_cons_cons, translate_append, translate_append, hcomma, ih]
      simp [List.intercalate_cons_cons]

/-- Only a translated wildcard or dot has a dot in it. -/
theorem translate_ne_nil {n : Str} (h : n ≠ []) : translate n ≠ [] := by
  obtain ⟨c, s, rfl⟩ := List.exists_cons_of_ne_nil h
  rw [translate_cons, translate_char]
  split_ifs <;> simp

theorem comma_not_mem_translate {n : Str} (h : ',' ∉ n) : ',' ∉ translate n := by
  induction n with
  | nil => exact h
  | cons c s ih =>
    rw [List.mem_cons, not_or] at h
    rw [translate_cons, List.mem_append, translate_char]
    have hs := ih h.2
    split_ifs <;> simp [hs, h.1]

/-- A name without a dot after the translation is as it was. -/
theorem translate_of_no_dot {n : Str} (h : '.' ∉ translate n) : translate n = n := by
  induction n with
  | nil => rfl
  | cons c s ih =>
    rw [translate_cons, List.mem_append, not_or, translate_char] at h
    rw [translate_cons, ih h.2, translate_char]
    have hc := h.1
    split_ifs at hc ⊢ <;> simp at hc ⊢

theorem isAny_translate {n : Str} (h : isAny n = false) : isAny (translate n) = false := by
  by_contra hany
  rw [Bool.not_eq_false] at hany
  have hletters : ∀ c ∈ translate n, c ≠ '.' := by
    intro c hc hdot
    have hmem : '.' ∈ lowerCase (translate n) := List.mem_map.mpr ⟨c, hc, by rw [hdot]; rfl⟩
    rw [of_decide_eq_true hany] at hmem
    revert hmem
    decide
  rw [translate_of_no_dot fun hmem => hletters '.' hmem rfl, h] at hany
  cases hany

/-- The names are read back from the directive. -/
theorem names_text (l : UserList) : names l.text = l.names.map translate := by
  rw [names, UserList.text, translate_intercalate, splitOn]
  cases hl : l.names with
  | nil => rfl
  | cons n ns =>
    rw [← hl, List.splitOn_intercalate ',' _ (by simp [hl])]
    · refine List.filter_eq_self.mpr fun s hs => ?_
      obtain ⟨n, hn, rfl⟩ := List.mem_map.mp hs
      exact decide_eq_true (translate_ne_nil (l.given n hn))
    · intro s hs
      obtain ⟨n, hn, rfl⟩ := List.mem_map.mp hs
      exact comma_not_mem_translate (l.comma n hn)

theorem oneOf_ne_nil (rule : Test → Rule) {block : List Str} (h : block ≠ []) :
    oneOf env rule (block.map fun n => anchored (translate n)) =
      (regexpTest env (expression block)).map fun test => [rule test] := by
  obtain ⟨n, ns, rfl⟩ := List.exists_cons_of_ne_nil h
  rfl

/-- One rule for each block. -/
theorem userRules_eq (env : Env) (rule : Test → Rule) {users : List Str}
    (hany : ∀ n ∈ users, isAny n = false) : ∀ block : List Str,
      userRules env rule (block.map fun n => anchored (translate n)) (users.map translate) =
        (blocksFrom block users).mapM fun b => (regexpTest env (expression b)).map rule := by
  induction users with
  | nil =>
    intro block
    cases block with
    | nil => rfl
    | cons n ns =>
      rw [List.map_nil, userRules, oneOf_ne_nil rule (List.cons_ne_nil n ns), blocksFrom,
        if_neg (List.cons_ne_nil n ns), List.mapM_cons]
      cases regexpTest env (expression (n :: ns)) with
      | none => rfl
      | some test => rfl
  | cons u users ih =>
    intro block
    rw [List.forall_mem_cons] at hany
    have hblock : (block.map fun n => anchored (translate n)) ++ [anchored (translate u)] =
        (block ++ [u]).map fun n => anchored (translate n) := by simp
    rw [List.map_cons, userRules, isAny_translate hany.1, if_neg Bool.false_ne_true,
      List.length_map, hblock, blocksFrom]
    split
    next =>
      have hrest := ih hany.2 []
      rw [List.map_nil] at hrest
      rw [hrest, List.mapM_cons, oneOf_ne_nil rule (by simp)]
      cases regexpTest env (expression (block ++ [u])) with
      | none => rfl
      | some test => rfl
    next => exact ih hany.2 _

theorem mapM_rules {α : Type} (expr : α → Str) (rule : Test → Rule) (bs : List α) :
    (bs.mapM fun b => (regexpTest env (expr b)).map rule) =
      (bs.mapM fun b => env.regexp (expr b)).map fun fs =>
        fs.map fun f => rule fun s => some (f s) := by
  induction bs with
  | nil => rfl
  | cons b bs ih =>
    rw [List.mapM_cons, List.mapM_cons, ih, regexpTest]
    cases env.regexp (expr b) with
    | none => rfl
    | some f =>
      cases bs.mapM fun b => env.regexp (expr b) with
      | none => rfl
      | some fs => rfl

/-- Lines that do not count. -/
theorem foldlM_readLine (sls : List Str) : ∀ patterns : List Rule,
    sls.foldlM (fun patterns sl => (readLine env sl).map (patterns ++ ·)) patterns =
      (sls.filter fun sl => ¬ (sl = [] ∨ sl.head? = some '#')).foldlM
        (fun patterns sl => (readLine env sl).map (patterns ++ ·)) patterns := by
  induction sls with
  | nil => exact fun _ => rfl
  | cons sl sls ih =>
    intro patterns
    by_cases hskip : sl = [] ∨ sl.head? = some '#'
    · rw [List.filter_cons_of_neg (by simp [hskip]), ← ih, List.foldlM_cons, readLine, if_pos hskip]
      show sls.foldlM _ (patterns ++ []) = _
      rw [List.append_nil]
    · rw [List.filter_cons_of_pos (by simpa using hskip), List.foldlM_cons, List.foldlM_cons]
      exact congrArg _ (funext ih)

/-- The kind of the rules. -/
def AllowUser.rule (m : AllowUser) : Test → Rule := if m.env.proxy then .proxyUser else .user

/-- **The rules** of the setting. -/
theorem AllowUser.rules_eq (m : AllowUser) : querySeclevels m.env (some m.setting) =
    (m.list.matchers m.env).map fun fs => fs.map fun f => m.rule fun s => some (f s) := by
  have hread : readLine m.env (m.type ++ '=' :: m.list.text) =
      userRules m.env m.rule [] (names m.list.text) := by
    rw [readLine_word (by decide) (by decide) m.word, directive, m.word]
    rfl
  have hrules := userRules_eq m.env m.rule m.list.notAny []
  rw [List.map_nil, mapM_rules expression] at hrules
  show (settingLines m.setting).foldlM _ [] = _
  rw [foldlM_readLine, m.lines, List.foldlM_cons, hread, names_text, hrules, UserList.matchers]
  cases (blocksFrom [] m.list.names).mapM fun b => m.env.regexp (expression b) with
  | none => rfl
  | some fs => rfl

/-! ## The check -/

theorem unknown_ne_bad : Tri.unknown ≠ Tri.bad := by
  intro h
  cases h

/-- Patterns for users admit one who matches one of them. -/
theorem checkRules_user {id : Request} {secgroup : Option Str} {user : Auth} (hok : user.ok = true)
    (hid : id.auth = some user) (fs : List (Str → Bool)) : ∀ c : Checks, c.ipOk = .unknown →
      ((checkRules id secgroup c (fs.map fun f => .user fun s => some (f s))).1 = .allowed ↔
        c.authOk = .ok ∨ (∃ f ∈ fs, f user.name = true) ∨ c.authOk = .unknown ∧ fs = []) := by
  induction fs with
  | nil =>
    intro c hip
    show verdict secgroup c = .allowed ↔ _
    rw [verdict, hip, if_neg unknown_ne_bad]
    cases hauth : c.authOk with
    | unknown => simp
    | bad => simp
    | ok => simp
  | cons f fs ih =>
    intro c hip
    have htest : authTest id.auth (fun s => some (f s)) = some (f user.name) := by
      rw [hid, authTest]
      exact if_pos hok
    rw [List.map_cons, checkRules, checkRule, htest]
    cases hf : f user.name with
    | true => simp [ih, hip, hf]
    | false =>
      have horBad : c.authOk.orBad = .ok ↔ c.authOk = .ok := by
        cases c.authOk with
        | unknown => simp [Tri.orBad]
        | bad => simp [Tri.orBad]
        | ok => simp [Tri.orBad]
      have hknown : c.authOk.orBad ≠ .unknown := by
        cases c.authOk with
        | unknown => simp [Tri.orBad]
        | bad => simp [Tri.orBad]
        | ok => simp [Tri.orBad]
      simp [ih, hip, hf, horBad, hknown]

/-- In a proxy the first pattern decides. -/
theorem checkRules_proxyUser {id : Request} {secgroup : Option Str} {user : Auth}
    (hok : user.ok = true) (hid : id.proxyauth = some user) (f : Str → Bool) (rest : List Rule)
    {c : Checks} (hip : c.ipOk = .unknown) :
    (checkRules id secgroup c (.proxyUser (fun s => some (f s)) :: rest)).1 = .allowed ↔
      f user.name = true := by
  have htest : authTest id.proxyauth (fun s => some (f s)) = some (f user.name) := by
    rw [hid, authTest]
    exact if_pos hok
  rw [checkRules, checkRule, hip, if_neg unknown_ne_bad, htest]
  cases f user.name with
  | true => simp
  | false => simp

/-- The patterns that decide. -/
def AllowUser.deciding (m : AllowUser) (fs : List (Str → Bool)) : List (Str → Bool) :=
  if m.env.proxy then fs.take 1 else fs

theorem AllowUser.check_eq (m : AllowUser) {id : Request} {slevel : Level}
    (hlevel : tooLow (.int (m.seclvl.getD 0)) slevel = some false) :
    m.check id slevel = (m.list.matchers m.env).map fun fs =>
      if fs = [] then .allowed
      else (checkRules id m.secGroup ⟨.unknown, .unknown, .int (m.seclvl.getD 0)⟩
        (fs.map fun f => m.rule fun s => some (f s))).1 := by
  rw [AllowUser.check, m.rules_eq]
  cases m.list.matchers m.env with
  | none => rfl
  | some fs =>
    show (checkEntry ⟨fs.map _, .int (m.seclvl.getD 0), m.secGroup⟩ id slevel).1 = _
    rw [checkEntry]
    cases fs with
    | nil => rfl
    | cons f fs =>
      rw [if_neg (by simp), hlevel, Option.map_some, if_neg (by simp)]

/-- **The check** of a known user, when there are patterns. -/
theorem AllowUser.check_iff (m : AllowUser) {id : Request} {slevel : Level} {user : Auth}
    (hlevel : tooLow (.int (m.seclvl.getD 0)) slevel = some false) (hok : user.ok = true)
    (hid : m.authOf id = some user) {fs : List (Str → Bool)}
    (hfs : m.list.matchers m.env = some fs) (hne : fs ≠ []) :
    ∃ answer, m.check id slevel = some answer ∧
      (answer = .allowed ↔ ∃ f ∈ m.deciding fs, f user.name = true) := by
  refine ⟨_, by rw [m.check_eq hlevel, hfs]; rfl, ?_⟩
  rw [AllowUser.deciding]
  show (if fs = [] then _ else _) = _ ↔ _
  rw [if_neg hne]
  cases hproxy : m.env.proxy with
  | true =>
    rw [AllowUser.authOf, if_pos hproxy] at hid
    obtain ⟨f, rest, rfl⟩ := List.exists_cons_of_ne_nil hne
    rw [AllowUser.rule, if_pos hproxy, List.map_cons, checkRules_proxyUser hok hid f _ rfl]
    simp
  | false =>
    rw [AllowUser.authOf, hproxy, if_neg Bool.false_ne_true] at hid
    rw [AllowUser.rule, hproxy, if_neg Bool.false_ne_true, checkRules_user hok hid fs _ rfl]
    simp [hne]

/-! ## Plain names -/

theorem mapM_forall₂ {α β : Type} {f : α → Option β} {R : α → β → Prop} {as : List α}
    (h : ∀ a ∈ as, ∃ b, f a = some b ∧ R a b) :
    ∃ bs, as.mapM f = some bs ∧ List.Forall₂ R as bs := by
  induction as with
  | nil => exact ⟨[], rfl, .nil⟩
  | cons a as ih =>
    rw [List.forall_mem_cons] at h
    obtain ⟨b, hb, hrel⟩ := h.1
    obtain ⟨bs, hbs, hrest⟩ := ih h.2
    exact ⟨b :: bs, by rw [List.mapM_cons, hb, hbs]; rfl, .cons hrel hrest⟩

/-- An expression of plain names matches what one of them does. -/
theorem expression_matches (hre : DocumentedNames env.regexp) {block : List Str} (hne : block ≠ [])
    (hlen : block.length ≤ 16) (hplain : ∀ n ∈ block, ∀ c ∈ n, c = '*' ∨ c = '?' ∨ Plain c) :
    ∃ f, env.regexp (expression block) = some f ∧
      ∀ s, (∀ c ∈ s, Byte c) → (f s = true ↔ ∃ n ∈ block, Fits (globOf n) s) := by
  have hlits : ∀ p ∈ block.map globOf, ∀ c, .lit c ∈ p → Plain c := by
    intro p hp c hc
    obtain ⟨n, hn, rfl⟩ := List.mem_map.mp hp
    obtain ⟨hmem, hrun, hone⟩ := lit_mem_globOf.mp hc
    exact ((hplain n hn c hmem).resolve_left hrun).resolve_left hone
  obtain ⟨f, hf, hmatch⟩ := hre.matches_one (block.map globOf) (by simpa using hne)
    (by simpa using hlen) hlits
  refine ⟨f, ?_, fun s hs => (hmatch s hs).trans (by simp)⟩
  rw [← hf, expression, List.map_map]
  exact congrArg _ (congrArg _ (List.map_congr_left fun n _ => by rw [translate_eq]; rfl))

/-- The patterns of a list of plain names, one for each block. -/
theorem plain_matchers (hre : DocumentedNames env.regexp) (l : UserList)
    (hplain : ∀ n ∈ l.names, ∀ c ∈ n, c = '*' ∨ c = '?' ∨ Plain c) : ∃ fs,
      l.matchers env = some fs ∧ List.Forall₂ (fun block f => ∀ s, (∀ c ∈ s, Byte c) →
        (f s = true ↔ ∃ n ∈ block, Fits (globOf n) s)) (blocksFrom [] l.names) fs := by
  refine mapM_forall₂ fun b hb => ?_
  have hbounds := block_bounds (by simp) b hb
  refine expression_matches hre hbounds.1 hbounds.2 fun n hn => hplain n ?_
  have hmem : n ∈ (blocksFrom [] l.names).flatten := List.mem_flatten.mpr ⟨b, hb, hn⟩
  rwa [flatten_blocksFrom, List.nil_append] at hmem

/-- Some pattern matches if some name of some block does. -/
theorem exists_matches {R : Str → Prop} {user : Str} {blocks : List (List Str)}
    {fs : List (Str → Bool)}
    (h : List.Forall₂ (fun block f => f user = true ↔ ∃ n ∈ block, R n) blocks fs) :
    (∃ f ∈ fs, f user = true) ↔ ∃ n ∈ blocks.flatten, R n := by
  induction h with
  | nil => simp
  | cons hfirst _ ih =>
    rw [List.exists_mem_cons_iff, ih, hfirst, List.flatten_cons]
    simp only [List.mem_append, or_and_right, exists_or]

/-- **Plain names**: all count, and in a proxy the first 16. -/
theorem plain_deciding (hre : DocumentedNames env.regexp) (m : AllowUser) (henv : m.env = env)
    {user : Str} (hne : m.list.names ≠ [])
    (hplain : ∀ n ∈ m.list.names, ∀ c ∈ n, c = '*' ∨ c = '?' ∨ Plain c)
    (hbytes : ∀ c ∈ user, Byte c) : ∃ fs, m.list.matchers env = some fs ∧ fs ≠ [] ∧
      ((∃ f ∈ m.deciding fs, f user = true) ↔
        ∃ n ∈ if env.proxy then m.list.names.take 16 else m.list.names, Fits (globOf n) user) := by
  obtain ⟨fs, hfs, hall⟩ := plain_matchers hre m.list hplain
  have huser : List.Forall₂ (fun block f => f user = true ↔ ∃ n ∈ block, Fits (globOf n) user)
      (blocksFrom [] m.list.names) fs := hall.imp fun _ _ h => h user hbytes
  obtain ⟨rest, hfirst⟩ := blocksFrom_eq_cons [] (by simp) hne
  rw [List.nil_append] at hfirst
  refine ⟨fs, hfs, ?_, ?_⟩
  · intro hnil
    rw [hnil, hfirst] at huser
    cases huser
  · rw [AllowUser.deciding, henv]
    cases env.proxy with
    | true =>
      rw [if_pos rfl, if_pos rfl, exists_matches (List.forall₂_take 1 huser), hfirst]
      simp
    | false =>
      rw [if_neg Bool.false_ne_true, if_neg Bool.false_ne_true, exists_matches huser,
        flatten_blocksFrom, List.nil_append]

/-! ## Where they are right -/

theorem matchers_ne_nil {l : UserList} (hne : l.names ≠ []) {fs : List (Str → Bool)}
    (hfs : l.matchers env = some fs) : fs ≠ [] := by
  obtain ⟨rest, hfirst⟩ := blocksFrom_eq_cons [] (by simp) hne
  rw [UserList.matchers, hfirst, List.mapM_cons] at hfs
  obtain ⟨f, _, hfs⟩ := Option.bind_eq_some_iff.mp hfs
  obtain ⟨others, _, hfs⟩ := Option.bind_eq_some_iff.mp hfs
  rw [← Option.some.inj hfs]
  exact List.cons_ne_nil f others

/-- **A list of users** admits those that it is to admit. -/
theorem userList_iff (m : AllowUser) (hre : DocumentedNames m.env.regexp) {id : Request}
    {slevel : Level} {user : Auth} (hok : user.ok = true) (hid : m.authOf id = some user)
    (hlevel : tooLow (.int (m.seclvl.getD 0)) slevel = some false) :
    m.Tells id slevel user.name ↔ m.Right user.name := by
  by_cases hne : m.list.names = []
  · -- no pattern, and everyone is admitted
    have hmatchers : m.list.matchers m.env = some [] := by
      rw [UserList.matchers, hne]
      rfl
    refine iff_of_false ?_ fun h => h.1 hne
    intro ⟨answer, hanswer, hiff⟩
    rw [m.check_eq hlevel, hmatchers] at hanswer
    obtain ⟨n, hn, _⟩ := hiff.mp (Option.some.inj hanswer).symm
    rw [hne] at hn
    cases hn
  have hcheck : ∀ fs, m.list.matchers m.env = some fs →
      (m.Tells id slevel user.name ↔
        ((∃ f ∈ m.deciding fs, f user.name = true) ↔ m.list.Holds user.name)) := by
    intro fs hfs
    obtain ⟨answer, hanswer, hiff⟩ := m.check_iff hlevel hok hid hfs (matchers_ne_nil hne hfs)
    rw [← hiff]
    constructor
    · intro ⟨answer', hanswer', h⟩
      rw [Option.some.inj (hanswer.symm.trans hanswer')]
      exact h
    · intro h
      exact ⟨answer, hanswer, h⟩
  rw [AllowUser.Right, and_iff_right hne]
  split
  next hplain =>
    obtain ⟨fs, hfs, -, hdecide⟩ := plain_deciding hre m rfl hne hplain.1 hplain.2
    rw [hcheck fs hfs, hdecide]
    cases hproxy : m.env.proxy with
    | true =>
      have hsome : (∃ n ∈ m.list.names.take 16, Fits (globOf n) user.name) →
          m.list.Holds user.name := fun ⟨n, hn, h⟩ => ⟨n, List.mem_of_mem_take hn, h⟩
      constructor
      · intro h _
        exact h.mpr
      · intro h
        exact ⟨hsome, h rfl⟩
    | false =>
      refine iff_of_true ?_ nofun
      exact Iff.rfl
  next =>
    constructor
    · intro h
      have ⟨answer, hanswer, _⟩ := h
      cases hfs : m.list.matchers m.env with
      | none =>
        rw [m.check_eq hlevel, hfs] at hanswer
        cases hanswer
      | some fs => exact ⟨fs, rfl, (hcheck fs hfs).mp h⟩
    · intro ⟨fs, hfs, h⟩
      exact (hcheck fs hfs).mpr h

/-! ## A seventeenth user -/

/-- The pieces of an anchored name. -/
def nameOf : Str → Option (List (Wild Char))
  | '(' :: '^' :: s => if s.drop (s.length - 2) = ['$', ')'] then piecesOf (s.take (s.length - 2))
    else none
  | _ => none

/-- `Regexp`, of anchored names. -/
def namesRegexp (value : Str) : Option (Str → Bool) :=
  ((splitOn '|' value).mapM nameOf).map fun ps s => ps.any fun p => decide (Fits p s)

theorem nameOf_anchored {p : List (Wild Char)} (h : ∀ c, .lit c ∈ p → Plain c) :
    nameOf (anchored (p.flatMap atom)) = some p := by
  show nameOf ('(' :: '^' :: (p.flatMap atom ++ ['$', ')'])) = some p
  have hlen : (p.flatMap atom ++ ['$', ')']).length - 2 = (p.flatMap atom).length := by simp
  rw [nameOf, hlen, List.drop_left, if_pos rfl, List.take_left, piecesOf_atoms h]

theorem bar_not_mem_anchored {p : List (Wild Char)} (h : ∀ c, .lit c ∈ p → Plain c) :
    '|' ∉ anchored (p.flatMap atom) := by
  intro hbar
  have hmem : '|' ∈ p.flatMap atom := by simpa [anchored] using hbar
  obtain ⟨w, hw, hatom⟩ := List.mem_flatMap.mp hmem
  cases w with
  | lit c =>
    rw [atom] at hatom
    split at hatom
    next => revert hatom; decide
    next =>
      have hplain := h c hw
      rw [← List.mem_singleton.mp hatom] at hplain
      revert hplain
      decide
  | one => revert hatom; decide
  | run => revert hatom; decide

theorem mapM_nameOf {ps : List (List (Wild Char))} (h : ∀ p ∈ ps, ∀ c, .lit c ∈ p → Plain c) :
    (ps.map fun p => anchored (p.flatMap atom)).mapM nameOf = some ps := by
  induction ps with
  | nil => rfl
  | cons p ps ih =>
    rw [List.forall_mem_cons] at h
    rw [List.map_cons, List.mapM_cons, nameOf_anchored h.1, ih h.2]
    rfl

theorem namesRegexp_documented : DocumentedNames namesRegexp where
  matches_one ps hne _ h := by
    refine ⟨fun s => ps.any fun p => decide (Fits p s), ?_, fun s _ => by simp⟩
    rw [namesRegexp, splitOn, List.splitOn_intercalate '|' _ (by simpa using hne), mapM_nameOf h]
    · rfl
    · intro s hs
      obtain ⟨p, hp, rfl⟩ := List.mem_map.mp hs
      exact bar_not_mem_anchored (h p hp)

/-- 17 users. -/
def seventeen : UserList where
  names := "bcdefghijklmnopqr".toList.map fun c => [c]
  given := by decide
  comma := by decide
  notAny := by decide

/-- A proxy that is for them. -/
def busyProxy : AllowUser where
  env := { proxy := true, regexp := namesRegexp }
  list := seventeen
  type := "allowuser".toList
  word := by decide
  setting := "allow user=b,c,d,e,f,g,h,i,j,k,l,m,n,o,p,q,r".toList
  lines := by decide +kernel
  seclvl := none
  secGroup := none

/-- The last of them. -/
def lastUser : Auth where
  ok := true
  name := "r".toList
  group := none

def lastRequest : Request where
  remoteaddr := "127.0.0.1".toList
  auth := none
  proxyauth := some lastUser

theorem userList_iff_last :
    busyProxy.Tells lastRequest (.int 0) lastUser.name ↔ busyProxy.Right lastUser.name :=
  userList_iff busyProxy namesRegexp_documented rfl rfl rfl

/-- The last user is not admitted. -/
theorem last_refused : ¬ busyProxy.Tells lastRequest (.int 0) lastUser.name := by
  intro ⟨answer, hanswer, hiff⟩
  have hrefused : busyProxy.check lastRequest (.int 0) = some (.proxyAuthRequired none) := by
    decide +kernel
  have hallowed := hiff.mpr ⟨"r".toList, by decide, by decide⟩
  rw [hallowed, hrefused] at hanswer
  cases hanswer

end Caudium.BaseServer.Seclevels
