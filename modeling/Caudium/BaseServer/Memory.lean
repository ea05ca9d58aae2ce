import Caudium.BaseServer.CheckSecurity

/-!
# What the access check remembers

The entries of `misc_cache` after any checks since `invalidate_cache`: an entry has
the patterns and the realm of its module, and its own level or a string that a
`secuname` pattern has set (`Kept`). Whether a string is set is decided by the
earlier checks of the same function that got as far as their patterns
(`after_entry`), so the answers have no memory exactly when no request makes a
`secuname` pattern set a level (`memoryless_iff`).
-/

namespace Caudium.BaseServer

open Lib (Str Mapping)

variable {φ : Type} [DecidableEq φ] {conf : φ → ModuleConf}

/-- A check that was made. -/
structure Call (φ : Type) where
  a : φ
  id : Request
  slevel : Level

/-- `misc_cache` after the checks of a history that starts with `invalidate_cache`. -/
def after (conf : φ → ModuleConf) (h : List (Call φ)) : MiscCache φ :=
  h.foldl (fun cache c => (checkSecurity conf cache c.a c.id c.slevel).2) ∅

/-- The answer after a history. -/
def answerAfter (conf : φ → ModuleConf) (h : List (Call φ)) (a : φ) (id : Request)
    (slevel : Level) : Option Answer :=
  (checkSecurity conf (after conf h) a id slevel).1

/-- The patterns of the module. -/
def ModuleConf.patterns (m : ModuleConf) : List Rule := m.seclevels.getD []

/-- The entry of a module when `set` is what was set last, if a level was set. -/
def ModuleConf.entry (m : ModuleConf) (set : Option Str) : Entry :=
  ⟨m.patterns, setTo (.int m.own) set, m.secGroup⟩

/-- What is set after a check, when `set` was set before it. -/
def setAfter (m : ModuleConf) (set : Option Str) (id : Request) (slevel : Level) : Option Str :=
  if tooLow (setTo (.int m.own) set) slevel = some false then (setsLevel id m.patterns).or set
  else set

/-- What the checks of a history have set for a function. -/
def setBy (conf : φ → ModuleConf) (a : φ) (h : List (Call φ)) : Option Str :=
  h.foldl (fun set c => if c.a = a then setAfter (conf a) set c.id c.slevel else set) none

/-! ## One check -/

theorem setTo_setTo (level : Level) (set set' : Option Str) :
    setTo (setTo level set) set' = setTo level (set'.or set) := by
  cases set' <;> rfl

/-- A check by an entry leaves it as its module's, with what is then set. -/
theorem checkEntry_entry (m : ModuleConf) (set : Option Str) (id : Request) (slevel : Level) :
    (checkEntry (m.entry set) id slevel).2 = m.entry (setAfter m set id slevel) := by
  unfold checkEntry setAfter
  by_cases hrules : m.patterns = []
  · -- without patterns nothing is set
    rw [if_pos (show (m.entry set).rules = [] from hrules), hrules,
      show (setsLevel id []).or set = set from rfl, ite_self]
  · rw [if_neg (show (m.entry set).rules ≠ [] from hrules),
      show (m.entry set).level = setTo (.int m.own) set from rfl]
    rcases tooLow (setTo (.int m.own) set) slevel with _ | _ | _
    · rfl
    · dsimp only
      rw [checkRules_level, if_pos rfl]
      exact congrArg (fun level => (⟨m.patterns, level, m.secGroup⟩ : Entry)) (setTo_setTo _ _ _)
    · rfl

/-- The entry of every function is its module's, with what is set for the function. -/
def Kept (conf : φ → ModuleConf) (cache : MiscCache φ) (set : φ → Option Str) : Prop :=
  ∀ a, cache.lookup a = some ((conf a).entry (set a)) ∧ (conf a).seclevels ≠ none ∨
    cache.lookup a = none ∧ set a = none

/-- The entry that a check goes by, unless the module has none. -/
theorem entryOf_kept {cache : MiscCache φ} {set : φ → Option Str} (h : Kept conf cache set)
    (a : φ) :
    entryOf conf cache a = (conf a).seclevels.map fun _ => (conf a).entry (set a) := by
  unfold entryOf
  obtain ⟨hl, hsome⟩ | ⟨hl, hset⟩ := h a
  · obtain ⟨rules, hrules⟩ := Option.ne_none_iff_exists'.mp hsome
    rw [hl, hrules]
    rfl
  · rw [hl, hset, ModuleConf.entry, ModuleConf.patterns]
    cases (conf a).seclevels <;> rfl

theorem patterns_nil {m : ModuleConf} (h : m.seclevels = none) : m.patterns = [] := by
  rw [ModuleConf.patterns, h]
  rfl

/-- The answer of a check is that of the module's entry. -/
theorem checkSecurity_answer {cache : MiscCache φ} {set : φ → Option Str}
    (h : Kept conf cache set) (a : φ) (id : Request) (slevel : Level) :
    (checkSecurity conf cache a id slevel).1 =
      (checkEntry ((conf a).entry (set a)) id slevel).1 := by
  unfold checkSecurity
  rw [entryOf_kept h a]
  cases hc : (conf a).seclevels with
  | some rules => rfl
  | none =>
    -- a module without patterns admits every request
    rw [checkEntry, if_pos (show ((conf a).entry (set a)).rules = [] from patterns_nil hc)]
    rfl

theorem setAfter_patterns_nil {m : ModuleConf} (h : m.patterns = []) (set : Option Str)
    (id : Request) (slevel : Level) : setAfter m set id slevel = set := by
  rw [setAfter, h, show (setsLevel id []).or set = set from rfl, ite_self]

theorem checkSecurity_kept {cache : MiscCache φ} {set : φ → Option Str}
    (h : Kept conf cache set) (a : φ) (id : Request) (slevel : Level) :
    Kept conf (checkSecurity conf cache a id slevel).2 fun b =>
      if a = b then setAfter (conf b) (set b) id slevel else set b := by
  intro b
  unfold checkSecurity
  rw [entryOf_kept h a]
  cases hc : (conf a).seclevels with
  | some rules =>
    dsimp only [Option.map_some]
    rw [checkEntry_entry, Lib.Mapping.lookup_insert_ite]
    by_cases hb : a = b
    · subst hb
      rw [if_pos rfl, if_pos rfl]
      exact Or.inl ⟨rfl, by rw [hc]; exact Option.some_ne_none rules⟩
    · rw [if_neg hb, if_neg (Ne.symm hb)]
      exact h b
  | none =>
    dsimp only [Option.map_none]
    by_cases hb : a = b
    · subst hb
      rw [if_pos rfl, setAfter_patterns_nil (patterns_nil hc)]
      exact h a
    · rw [if_neg hb]
      exact h b

/-! ## Histories -/

theorem foldl_kept (h : List (Call φ)) :
    ∀ (cache : MiscCache φ) (set : φ → Option Str), Kept conf cache set →
      Kept conf (h.foldl (fun cache c => (checkSecurity conf cache c.a c.id c.slevel).2) cache)
        fun a => h.foldl
          (fun set c => if c.a = a then setAfter (conf a) set c.id c.slevel else set) (set a) := by
  induction h with
  | nil => exact fun cache set hkept => hkept
  | cons c h ih => exact fun cache set hkept => ih _ _ (checkSecurity_kept hkept c.a c.id c.slevel)

/-- The entries after a history. -/
theorem after_kept (h : List (Call φ)) : Kept conf (after conf h) fun a => setBy conf a h :=
  foldl_kept h ∅ (fun _ => none) fun _ => Or.inr ⟨AList.lookup_empty _, rfl⟩

theorem answerAfter_eq (h : List (Call φ)) (a : φ) (id : Request) (slevel : Level) :
    answerAfter conf h a id slevel = (checkEntry ((conf a).entry (setBy conf a h)) id slevel).1 :=
  checkSecurity_answer (after_kept h) a id slevel

theorem after_concat (h : List (Call φ)) (c : Call φ) :
    after conf (h ++ [c]) = (checkSecurity conf (after conf h) c.a c.id c.slevel).2 := by
  rw [after, List.foldl_concat]
  rfl

/-- The entry of a function after a check of it. -/
theorem after_concat_lookup (h : List (Call φ)) (c : Call φ) :
    (after conf (h ++ [c])).lookup c.a =
      (conf c.a).seclevels.map fun _ => (conf c.a).entry (setBy conf c.a (h ++ [c])) := by
  obtain ⟨hl, hsome⟩ | ⟨hl, -⟩ := @after_kept φ _ conf (h ++ [c]) c.a
  · obtain ⟨rules, hrules⟩ := Option.ne_none_iff_exists'.mp hsome
    rw [hl, hrules]
    rfl
  · rw [after_concat, checkSecurity, entryOf_kept (after_kept h) c.a] at hl
    cases hc : (conf c.a).seclevels with
    | some rules =>
      rw [hc] at hl
      dsimp only [Option.map_some] at hl
      rw [AList.lookup_insert] at hl
      cases hl
    | none =>
      rw [after_concat, checkSecurity, entryOf_kept (after_kept h) c.a, hc]
      rw [hc] at hl
      exact hl

theorem setBy_none {a : φ} (hset : ∀ id, setsLevel id (conf a).patterns = none)
    (h : List (Call φ)) : setBy conf a h = none := by
  have hstep : ∀ c : Call φ,
      (if c.a = a then setAfter (conf a) none c.id c.slevel else none) = none := by
    intro c
    rw [setAfter, hset, Option.none_or, ite_self, ite_self]
  induction h with
  | nil => rfl
  | cons c h ih => rw [setBy, List.foldl_cons, hstep]; exact ih

/-- The check answers the same after all histories. -/
def Memoryless (conf : φ → ModuleConf) (a : φ) : Prop :=
  ∀ h h' id slevel, answerAfter conf h a id slevel = answerAfter conf h' a id slevel

/-- A level that was set makes the check throw where the number did not. -/
theorem not_memoryless {a : φ} {id : Request} {s : Str}
    (hset : setsLevel id (conf a).patterns = some s) : ¬ Memoryless conf a := by
  intro hmem
  have hrules : (conf a).patterns ≠ [] := by
    intro hnil
    rw [hnil] at hset
    cases hset
  -- the first check has no trust level to compare with, the second has one
  have hone := hmem [] [⟨a, id, .int 0⟩] id (.int 1)
  rw [answerAfter_eq, answerAfter_eq] at hone
  have hby : setBy conf a [⟨a, id, .int 0⟩] = some s := by
    rw [setBy, List.foldl_cons, List.foldl_nil, if_pos rfl, setAfter, hset,
      if_pos (show tooLow _ (.int 0) = some false from rfl)]
    rfl
  rw [hby, checkEntry, checkEntry, if_neg (show ((conf a).entry _).rules ≠ [] from hrules),
    if_neg (show ((conf a).entry _).rules ≠ [] from hrules)] at hone
  have hlow : tooLow ((conf a).entry (setBy conf a [])).level (.int 1) =
      some (decide (1 < (conf a).own)) := rfl
  rw [hlow, show tooLow ((conf a).entry (some s)).level (.int 1) = none from rfl] at hone
  cases hd : decide (1 < (conf a).own) with
  | false => rw [hd] at hone; cases hone
  | true => rw [hd] at hone; cases hone

/-- **When access decisions have no memory.** The check of a function answers the same
after any two histories, for every request and trust level, if and only if there is no
request for which the patterns of the module set a level. -/
theorem memoryless_iff (conf : φ → ModuleConf) (a : φ) :
    Memoryless conf a ↔ ∀ id, setsLevel id (conf a).patterns = none := by
  constructor
  · intro hmem id
    cases hs : setsLevel id (conf a).patterns with
    | none => rfl
    | some s => exact absurd hmem (not_memoryless hs)
  · intro hset h h' id slevel
    rw [answerAfter_eq, answerAfter_eq, setBy_none hset, setBy_none hset]

/-- A module with the line `secuname=any:5`. -/
def secuname : Unit → ModuleConf := fun _ =>
  ⟨some [.userSeclevel (AList.insert "any".toList "5".toList ∅), .userSeclevel ∅], some 0, none⟩

/-- Once a known user was there, a request with a trust level gets an error. -/
theorem memory_of_secuname : ¬ ∀ a, Memoryless secuname a := by
  intro h
  have hset : setsLevel ⟨"10.0.0.1".toList, some ⟨true, "anna".toList, none⟩, none⟩
      (secuname ()).patterns = some "5".toList := rfl
  exact not_memoryless hset (h ())

end Caudium.BaseServer
