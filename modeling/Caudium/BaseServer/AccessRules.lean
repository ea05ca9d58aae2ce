import Caudium.BaseServer.Memory

/-!
# What a list of access rules means

A module whose patterns are of the kinds `MOD_ALLOW`, `MOD_DENY` and `MOD_USER`, with
tests that do not throw (`AccessRule`). The loop of `check_security` keeps two
variables of three states; each is a fold over the tests of its kind (`Tri.after`),
and a fold of that kind only depends on which results there are. So the check is the
formula of `check_meaning`, in which the order of the patterns plays no part.
-/

namespace Caudium.BaseServer

open Lib (Str Mapping)

/-! ## The rules -/

/-- A pattern of one of the three kinds that never answers "yes" at once. -/
inductive AccessRule
  | allow (test : Str → Bool)
  | deny (test : Str → Bool)
  | user (test : Str → Bool)

/-- The pattern that `query_seclevels` has for it. -/
def AccessRule.rule : AccessRule → Rule
  | .allow test => .allow fun s => some (test s)
  | .deny test => .deny fun s => some (test s)
  | .user test => .user fun s => some (test s)

/-- The test lets the user of the request in. -/
def admits (id : Request) (test : Str → Bool) : Bool :=
  match id.auth with
  | some u => u.ok && test u.name
  | none => false

/-- A deny rule matches the address. -/
def Denies (rules : List AccessRule) (id : Request) : Prop :=
  ∃ test, .deny test ∈ rules ∧ test id.remoteaddr = true

/-- There are allow rules for addresses, and none matches. -/
def MissesAddress (rules : List AccessRule) (id : Request) : Prop :=
  (∃ test, .allow test ∈ rules) ∧ ∀ test, .allow test ∈ rules → test id.remoteaddr = false

/-- There are allow rules for users, and none matches. -/
def MissesUser (rules : List AccessRule) (id : Request) : Prop :=
  (∃ test, .user test ∈ rules) ∧ ∀ test, .user test ∈ rules → admits id test = false

/-! ## The loop -/

/-- `ip_ok` or `auth_ok` after some tests. -/
def Tri.after (t : Tri) (results : List Bool) : Tri :=
  results.foldl (fun t passed => if passed then .ok else t.orBad) t

@[simp] theorem Tri.after_nil (t : Tri) : t.after [] = t := rfl

@[simp] theorem Tri.after_cons (t : Tri) (passed : Bool) (results : List Bool) :
    t.after (passed :: results) = Tri.after (if passed then .ok else t.orBad) results := rfl

/-- Once a test has passed, no other one changes that. -/
theorem Tri.after_ok (results : List Bool) : Tri.ok.after results = .ok := by
  induction results with
  | nil => rfl
  | cons passed results ih =>
    cases passed with
    | true => exact ih
    | false => exact ih

theorem Tri.after_bad (results : List Bool) :
    Tri.bad.after results = .bad ↔ ∀ passed ∈ results, passed = false := by
  induction results with
  | nil => simp
  | cons passed results ih =>
    cases passed with
    | true => simp [Tri.after_ok]
    | false =>
      rw [Tri.after_cons, show (if false = true then Tri.ok else Tri.bad.orBad) = .bad from rfl, ih]
      simp

/-- Bad in the end: there were tests, and none passed. -/
theorem Tri.after_unknown (results : List Bool) :
    Tri.unknown.after results = .bad ↔ results ≠ [] ∧ ∀ passed ∈ results, passed = false := by
  cases results with
  | nil => simp
  | cons passed results =>
    cases passed with
    | true => simp [Tri.after_ok]
    | false =>
      rw [Tri.after_cons, show (if false = true then Tri.ok else Tri.unknown.orBad) = .bad from rfl,
        Tri.after_bad]
      simp

/-- What the allow rules for addresses say, in their order. -/
def addressResults (id : Request) : List AccessRule → List Bool
  | [] => []
  | .allow test :: rules => test id.remoteaddr :: addressResults id rules
  | .deny _ :: rules | .user _ :: rules => addressResults id rules

/-- What the allow rules for users say. -/
def userResults (id : Request) : List AccessRule → List Bool
  | [] => []
  | .user test :: rules => admits id test :: userResults id rules
  | .deny _ :: rules | .allow _ :: rules => userResults id rules

theorem mem_addressResults {id : Request} {rules : List AccessRule} {passed : Bool} :
    passed ∈ addressResults id rules ↔
      ∃ test, .allow test ∈ rules ∧ test id.remoteaddr = passed := by
  induction rules with
  | nil => simp [addressResults]
  | cons r rules ih =>
    cases r with
    | allow test => simp [addressResults, ih, or_and_right, exists_or, eq_comm]
    | deny test => simp [addressResults, ih]
    | user test => simp [addressResults, ih]

theorem mem_userResults {id : Request} {rules : List AccessRule} {passed : Bool} :
    passed ∈ userResults id rules ↔ ∃ test, .user test ∈ rules ∧ admits id test = passed := by
  induction rules with
  | nil => simp [userResults]
  | cons r rules ih =>
    cases r with
    | user test => simp [userResults, ih, or_and_right, exists_or, eq_comm]
    | deny test => simp [userResults, ih]
    | allow test => simp [userResults, ih]

theorem authTest_some (id : Request) (test : Str → Bool) :
    authTest id.auth (fun s => some (test s)) = some (admits id test) := by
  unfold authTest admits
  cases id.auth with
  | none => rfl
  | some u => cases hok : u.ok <;> simp [hok]

open Classical in
/-- One rule: a deny rule that matches ends the check, all else goes into the variables. -/
theorem checkRule_rule (id : Request) (secgroup : Option Str) (c : Checks) (r : AccessRule) :
    checkRule id secgroup c r.rule =
      if Denies [r] id then .error .forbidden
      else .ok
        ⟨c.ipOk.after (addressResults id [r]), c.authOk.after (userResults id [r]), c.level⟩ := by
  cases r with
  | allow test =>
    rw [if_neg (by simp [Denies])]
    cases htest : test id.remoteaddr <;>
      simp [AccessRule.rule, checkRule, addressResults, userResults, htest]
  | deny test =>
    cases htest : test id.remoteaddr <;>
      simp [AccessRule.rule, checkRule, addressResults, userResults, Denies, htest]
  | user test =>
    rw [if_neg (by simp [Denies]), AccessRule.rule]
    cases htest : admits id test <;>
      simp [checkRule, authTest_some, addressResults, userResults, htest]

theorem addressResults_cons (id : Request) (r : AccessRule) (rules : List AccessRule) :
    addressResults id (r :: rules) = addressResults id [r] ++ addressResults id rules := by
  cases r <;> rfl

theorem userResults_cons (id : Request) (r : AccessRule) (rules : List AccessRule) :
    userResults id (r :: rules) = userResults id [r] ++ userResults id rules := by
  cases r <;> rfl

theorem Tri.after_append (t : Tri) (xs ys : List Bool) :
    t.after (xs ++ ys) = (t.after xs).after ys :=
  List.foldl_append

theorem denies_cons {id : Request} {r : AccessRule} {rules : List AccessRule} :
    Denies (r :: rules) id ↔ Denies [r] id ∨ Denies rules id := by
  simp [Denies, or_and_right, exists_or]

open Classical in
/-- All rules in turn. -/
theorem checkRules_rule (id : Request) (secgroup : Option Str) (rules : List AccessRule) :
    ∀ c : Checks, (checkRules id secgroup c (rules.map AccessRule.rule)).1 =
      if Denies rules id then .forbidden
      else
        verdict secgroup ⟨c.ipOk.after (addressResults id rules),
          c.authOk.after (userResults id rules), c.level⟩ := by
  induction rules with
  | nil =>
    intro c
    rw [if_neg (by simp [Denies])]
    rfl
  | cons r rules ih =>
    intro c
    rw [List.map_cons, checkRules, checkRule_rule]
    by_cases hr : Denies [r] id
    · rw [if_pos hr, if_pos (denies_cons.2 (Or.inl hr))]
    · rw [if_neg hr, addressResults_cons id r rules, userResults_cons id r rules, Tri.after_append,
        Tri.after_append]
      show (checkRules id secgroup _ _).1 = _
      rw [ih]
      simp only [@denies_cons id r rules, hr, false_or]

/-! ## The answer -/

variable {φ : Type} [DecidableEq φ] {conf : φ → ModuleConf}

theorem addressResults_bad {rules : List AccessRule} {id : Request} :
    Tri.unknown.after (addressResults id rules) = .bad ↔ MissesAddress rules id := by
  rw [Tri.after_unknown, MissesAddress]
  constructor
  · intro h
    obtain ⟨hne, hall⟩ := h
    obtain ⟨passed, hmem⟩ := List.exists_mem_of_ne_nil _ hne
    obtain ⟨test, htest, -⟩ := mem_addressResults.1 hmem
    exact ⟨⟨test, htest⟩, fun t ht => hall _ (mem_addressResults.2 ⟨t, ht, rfl⟩)⟩
  · intro h
    obtain ⟨⟨test, htest⟩, hall⟩ := h
    refine ⟨List.ne_nil_of_mem (mem_addressResults.2 ⟨test, htest, rfl⟩), fun passed hmem => ?_⟩
    obtain ⟨t, ht, rfl⟩ := mem_addressResults.1 hmem
    exact hall t ht

theorem userResults_bad {rules : List AccessRule} {id : Request} :
    Tri.unknown.after (userResults id rules) = .bad ↔ MissesUser rules id := by
  rw [Tri.after_unknown, MissesUser]
  constructor
  · intro h
    obtain ⟨hne, hall⟩ := h
    obtain ⟨passed, hmem⟩ := List.exists_mem_of_ne_nil _ hne
    obtain ⟨test, htest, -⟩ := mem_userResults.1 hmem
    exact ⟨⟨test, htest⟩, fun t ht => hall _ (mem_userResults.2 ⟨t, ht, rfl⟩)⟩
  · intro h
    obtain ⟨⟨test, htest⟩, hall⟩ := h
    refine ⟨List.ne_nil_of_mem (mem_userResults.2 ⟨test, htest, rfl⟩), fun passed hmem => ?_⟩
    obtain ⟨t, ht, rfl⟩ := mem_userResults.1 hmem
    exact hall t ht

open Classical in
/-- What the rules say of a request. -/
noncomputable def meaning (rules : List AccessRule) (secgroup : Option Str) (id : Request) :
    Answer :=
  if Denies rules id then .forbidden
  else if MissesAddress rules id then .denied
  else if MissesUser rules id then .authRequired secgroup
  else .allowed

/-- Without a trust level, the answer is what the rules say, after any earlier checks. -/
theorem answerAfter_rules {a : φ} {rules : List AccessRule}
    (hrules : (conf a).seclevels = some (rules.map AccessRule.rule)) (h : List (Call φ))
    (id : Request) :
    answerAfter conf h a id (.int 0) = some (meaning rules (conf a).secGroup id) := by
  have hpatterns : ((conf a).entry (setBy conf a h)).rules = rules.map AccessRule.rule := by
    show (conf a).patterns = _
    rw [ModuleConf.patterns, hrules]
    rfl
  rw [answerAfter_eq, checkEntry, hpatterns]
  unfold meaning
  by_cases hnil : rules.map AccessRule.rule = []
  · rw [if_pos hnil, List.map_eq_nil_iff.mp hnil]
    simp [Denies, MissesAddress, MissesUser]
  · rw [if_neg hnil, show tooLow _ (.int 0) = some false from rfl]
    show some (checkRules id _ _ _).1 = _
    rw [checkRules_rule]
    have hip := @addressResults_bad rules id
    have hauth := @userResults_bad rules id
    simp only [verdict]
    split_ifs <;> simp_all
    rfl

theorem meaning_perm {rules rules' : List AccessRule} (h : rules.Perm rules')
    (secgroup : Option Str) (id : Request) :
    meaning rules secgroup id = meaning rules' secgroup id := by
  have hdeny : Denies rules id = Denies rules' id := by
    simp only [Denies, h.mem_iff]
  have haddress : MissesAddress rules id = MissesAddress rules' id := by
    simp only [MissesAddress, h.mem_iff]
  have huser : MissesUser rules id = MissesUser rules' id := by
    simp only [MissesUser, h.mem_iff]
  rw [meaning, meaning, hdeny, haddress, huser]

/-- **What module access rules mean.** For a module whose patterns are allow, deny and user
rules, every request and no trust level, after any earlier checks: the answer is the 403 if and
only if a deny rule matches the address; 1 if and only if that is not so and there are allow
rules for addresses of which none matches; a request for a login if and only if neither is so and
there are rules for users of which none matches; and 0 in all other cases. Rules in another order
give the same answer. -/
theorem check_meaning (a : φ) (rules : List AccessRule)
    (hrules : (conf a).seclevels = some (rules.map AccessRule.rule)) (h : List (Call φ))
    (id : Request) :
    (answerAfter conf h a id (.int 0) = some .forbidden ↔ Denies rules id) ∧
    (answerAfter conf h a id (.int 0) = some .denied ↔
      ¬ Denies rules id ∧ MissesAddress rules id) ∧
    (answerAfter conf h a id (.int 0) = some (.authRequired (conf a).secGroup) ↔
      ¬ Denies rules id ∧ ¬ MissesAddress rules id ∧ MissesUser rules id) ∧
    (answerAfter conf h a id (.int 0) = some .allowed ↔
      ¬ Denies rules id ∧ ¬ MissesAddress rules id ∧ ¬ MissesUser rules id) ∧
    ∀ (conf' : φ → ModuleConf) (rules' : List AccessRule) (h' : List (Call φ)),
      rules'.Perm rules → (conf' a).seclevels = some (rules'.map AccessRule.rule) →
      (conf' a).secGroup = (conf a).secGroup →
      answerAfter conf' h' a id (.int 0) = answerAfter conf h a id (.int 0) := by
  have hanswer := answerAfter_rules hrules h id
  refine ⟨?_, ?_, ?_, ?_, ?_⟩
  · rw [hanswer, meaning]
    split_ifs <;> simp_all
  · rw [hanswer, meaning]
    split_ifs <;> simp_all
  · rw [hanswer, meaning]
    split_ifs <;> simp_all
  · rw [hanswer, meaning]
    split_ifs <;> simp_all
  · intro conf' rules' h' hperm hrules' hgroup
    rw [hanswer, answerAfter_rules hrules' h' id, hgroup, meaning_perm hperm]

/-- The lines "deny ip=10.0.0.1" and "allow user=anna". -/
def annaRules : List AccessRule :=
  [.deny (· = "10.0.0.1".toList), .user (· = "anna".toList)]

theorem check_meaning_anna :
    answerAfter (fun _ : Unit => ⟨some (annaRules.map AccessRule.rule), none, none⟩) [] ()
      ⟨"10.0.0.2".toList, some ⟨true, "anna".toList, none⟩, none⟩ (.int 0) = some .allowed := by
  refine (check_meaning () annaRules rfl [] ⟨"10.0.0.2".toList,
    some ⟨true, "anna".toList, none⟩, none⟩).2.2.2.1.mpr ⟨?_, ?_, ?_⟩
  · simp [Denies, annaRules]
  · simp [MissesAddress, annaRules]
  · simp [MissesUser, admits, annaRules]

end Caudium.BaseServer
