import Caudium.Filesystem.FindFile
import Caudium.Http.ParseGot
import Caudium.Lib.Replace
import Caudium.Lib.Search
import Mathlib.Data.List.Forall2

/-!
# The secure file system module (secure_fs.pike): rules

`start` reads a rule from each line of the security patterns; `not_allowed` goes through the rules
whose pattern matches the path, until one of them decides. A pattern becomes a regular
expression. In "\." the backslash is Pike's, so that a dot stays what it is to `Regexp`. The
`auth` that a cookie gives to the request is not read here, nor by `get_user`.
-/

namespace Caudium.SecureFs

open Lib (Str cut replaceAll)
open Http (splitOn)

/-- What is used from outside. -/
structure Env where
  /-- `Regexp(_)->match`; `none` when it throws. -/
  regexp : Str → Option (Str → Bool)
  /-- `parse_rxml(query("authpage"), id)`. -/
  authpage : Str

/-! ## `start` -/

/-- The level of a rule: what is left to be tested. -/
inductive Level where
  | allow (test : Str → Bool)
  | deny (test : Str → Bool)
  | user (value : Str)

structure Rule where
  pattern : Str → Bool
  level : Level

/-- The pattern of an "allow ip". -/
def allowPattern (pat : Str) : Str :=
  replaceAll [(['?'], ['.']), (['*'], ['.', '*']), (['.'], ['.'])] pat

/-- The pattern of a "deny ip", and the addresses of both. -/
def ipPattern (pat : Str) : Str :=
  replaceAll [(['?'], ['.']), (['.'], ['.']), (['*'], ['.', '*'])] pat

/-- The pattern of an "allow user". -/
def userPattern (pat : Str) : Str :=
  replaceAll [(['?'], ['.']), (['.'], ['.']), (['*'], ['.', '*']), ([','], ['|'])] pat

/-- The `switch` on the type. -/
def readRule (env : Env) (pat type value : Str) : Option (List Rule) :=
  if type = "allowip".toList then do
    let pattern ← env.regexp (allowPattern pat)
    let test ← env.regexp (ipPattern value)
    pure [⟨pattern, .allow test⟩]
  else if type = "denyip".toList then do
    let pattern ← env.regexp (ipPattern pat)
    let test ← env.regexp (ipPattern value)
    pure [⟨pattern, .deny test⟩]
  else if type = "allowuser".toList then do
    let pattern ← env.regexp (userPattern pat)
    pure [⟨pattern, .user value⟩]
  else some []

/-- A line. -/
def readLine (env : Env) (sl : Str) : Option (List Rule) :=
  if sl = [] ∨ sl.head? = some '#' then some []
  else
    match cut sl [':'] with
    | none => some []
    | some (pat, rest) =>
      match cut rest ['='] with
      | none => some []
      | some (type, value) => readRule env pat type value

/-- `replace(query("sec"), ({" ","\t","\\\n"}), ({"","",""}))`. -/
def unblank (sec : Str) : Str := replaceAll [([' '], []), (['\t'], []), (['\\', '\n'], [])] sec

/-- `start`: the rules that it installs, unless it throws. -/
def start (env : Env) (sec : Str) : Option (List Rule) :=
  ((splitOn '\n' (unblank sec)).mapM (readLine env)).map List.flatten

/-! ## `not_allowed` -/

/-- The variables of the module, with those that it inherits. -/
structure Config extends Filesystem.Config where
  page : Bool
  expire : Int

/-- What the module takes from the request, with what the inherited one takes. -/
structure RequestID extends Filesystem.RequestID where
  remoteaddr : Str
  /-- `get_user()->username`. -/
  username : Option Str
  known : user = username.isSome
  /-- `cookies["httpauth"]`. -/
  httpauth : Option Str
  /-- `variables["httpuser"]`. -/
  httpuser : Option Str
  /-- `variables["httppass"]`. -/
  httppass : Option Str
  /-- `get_canonical_url()`. -/
  canonicalUrl : Str

/-- What `not_allowed` returns when it is not 0. -/
inductive Refusal where
  /-- 1. -/
  | one
  | mapping (code : Nat) (text : Str)
  deriving DecidableEq

/-- The page with the form, or `http_auth_failed("user")`. -/
def needAuth (env : Env) (cfg : Config) (id : RequestID) : Refusal :=
  if cfg.page then
    .mapping 200 (replaceAll [("$File".toList, id.notQuery), ("$Me".toList, id.canonicalUrl)]
      env.authpage)
  else .mapping 401 "<h1>Authentication failed.</h1>".toList

/-- The names of an "allow user" have the user among them. -/
def names (value username : Str) : Bool :=
  (splitOn ',' value).any fun uname => uname = username || uname = "any".toList || uname = ['*']

/-- The loop of `not_allowed`; `need` is `need_auth`. -/
def tryRules (env : Env) (cfg : Config) (f : Str) (id : RequestID) :
    Bool → List Rule → Option Refusal
  | need, [] => if need then some (needAuth env cfg id) else some .one
  | need, level :: levels =>
    if level.pattern f then
      match level.level with
      | .allow test => if test id.remoteaddr then none else tryRules env cfg f id need levels
      | .deny test =>
        if test id.remoteaddr then some (.mapping 403 "<h2>Access forbidden</h2>".toList)
        else tryRules env cfg f id need levels
      | .user value =>
        match id.username with
        | none => some (needAuth env cfg id)
        | some username =>
          if names value username then none else tryRules env cfg f id true levels
    else tryRules env cfg f id need levels

/-- `not_allowed`. -/
def notAllowed (env : Env) (cfg : Config) (seclevels : List Rule) (f : Str) (id : RequestID) :
    Option Refusal :=
  if id.remoteaddr = "internal".toList then none else tryRules env cfg f id false seclevels

/-! ## Who is let in -/

/-- The rule is for the path, and lets the client in. -/
def Rule.Grants (r : Rule) (f : Str) (id : RequestID) : Prop :=
  r.pattern f = true ∧
    match r.level with
    | .allow test => test id.remoteaddr = true
    | .deny _ => False
    | .user value => ∃ username, id.username = some username ∧ names value username = true

/-- The rule is for the path, and turns the client away, or asks who it is. -/
def Rule.Stops (r : Rule) (f : Str) (id : RequestID) : Prop :=
  r.pattern f = true ∧
    match r.level with
    | .allow _ => False
    | .deny test => test id.remoteaddr = true
    | .user _ => id.username = none

/-- An element with `G` is reached before one with `S`. -/
def Reaches {α : Type} (G S : α → Prop) (l : List α) : Prop :=
  ∃ before a after, l = before ++ a :: after ∧ G a ∧ ∀ b ∈ before, ¬ S b

theorem not_reaches_nil {α : Type} (G S : α → Prop) : ¬ Reaches G S [] := by
  intro hand
  obtain ⟨before, a, after, h, -⟩ := hand
  simp at h

theorem reaches_cons {α : Type} {G S : α → Prop} {a : α} {l : List α} :
    Reaches G S (a :: l) ↔ G a ∨ ¬ S a ∧ Reaches G S l := by
  constructor
  · intro hand
    obtain ⟨before, b, after, h, hb, hbefore⟩ := hand
    cases before with
    | nil =>
      obtain ⟨rfl, -⟩ := List.cons.inj h
      exact Or.inl hb
    | cons c before =>
      obtain ⟨rfl, rfl⟩ := List.cons.inj h
      rw [List.forall_mem_cons] at hbefore
      exact Or.inr ⟨hbefore.1, before, b, after, rfl, hb, hbefore.2⟩
  · intro hor
    obtain ha | ⟨ha, before, b, after, rfl, hb, hbefore⟩ := hor
    · exact ⟨[], a, l, rfl, ha, fun b hb => absurd hb List.not_mem_nil⟩
    · exact ⟨a :: before, b, after, rfl, hb, List.forall_mem_cons.mpr ⟨ha, hbefore⟩⟩

/-- What is reached in one list is reached in another one that is like it. -/
theorem reaches_congr {α β : Type} {G S : α → Prop} {G' S' : β → Prop} {l : List α} {l' : List β}
    (h : List.Forall₂ (fun a b => (G a ↔ G' b) ∧ (S a ↔ S' b)) l l') :
    Reaches G S l ↔ Reaches G' S' l' := by
  induction h with
  | nil => exact iff_of_false (not_reaches_nil G S) (not_reaches_nil G' S')
  | cons hab _ ih => rw [reaches_cons, reaches_cons, hab.1, hab.2, ih]

variable {env : Env} {cfg : Config} {f : Str} {id : RequestID}

/-- What one rule does. -/
theorem tryRules_cons (env : Env) (cfg : Config) (need : Bool) (r : Rule) (rules : List Rule) :
    r.Grants f id ∧ tryRules env cfg f id need (r :: rules) = none ∨
      r.Stops f id ∧ ¬ r.Grants f id ∧ tryRules env cfg f id need (r :: rules) ≠ none ∨
      ¬ r.Grants f id ∧ ¬ r.Stops f id ∧ ∃ need', tryRules env cfg f id need (r :: rules) =
        tryRules env cfg f id need' rules := by
  obtain ⟨pattern, level⟩ := r
  rw [tryRules]
  unfold Rule.Grants Rule.Stops
  dsimp only
  by_cases hpattern : pattern f = true
  · rw [if_pos hpattern, and_iff_right hpattern, and_iff_right hpattern]
    cases level with
    | allow test =>
      dsimp only
      by_cases htest : test id.remoteaddr = true
      · exact Or.inl ⟨htest, if_pos htest⟩
      · exact Or.inr (Or.inr ⟨htest, fun h => h, need, if_neg htest⟩)
    | deny test =>
      dsimp only
      by_cases htest : test id.remoteaddr = true
      · rw [if_pos htest]
        exact Or.inr (Or.inl ⟨htest, fun h => h, Option.some_ne_none _⟩)
      · exact Or.inr (Or.inr ⟨fun h => h, htest, need, if_neg htest⟩)
    | user value =>
      dsimp only
      cases id.username with
      | none =>
        refine Or.inr (Or.inl ⟨rfl, ?_, Option.some_ne_none _⟩)
        intro hand
        obtain ⟨username, ⟨⟩, -⟩ := hand
      | some username =>
        dsimp only
        by_cases hnames : names value username = true
        · exact Or.inl ⟨⟨username, rfl, hnames⟩, if_pos hnames⟩
        · refine Or.inr (Or.inr ⟨?_, nofun, true, if_neg hnames⟩)
          intro hand
          obtain ⟨_, ⟨⟩, h⟩ := hand
          exact hnames h
  · rw [if_neg hpattern]
    exact Or.inr (Or.inr ⟨fun h => hpattern h.1, fun h => hpattern h.1, need, rfl⟩)

/-- The loop lets in whom a rule lets in before another one stops him. -/
theorem tryRules_none_iff (rules : List Rule) : ∀ need : Bool,
    tryRules env cfg f id need rules = none ↔
      Reaches (fun r : Rule => r.Grants f id) (fun r => r.Stops f id) rules := by
  induction rules with
  | nil =>
    intro need
    refine iff_of_false ?_ (not_reaches_nil _ _)
    rw [tryRules]
    split
    · exact Option.some_ne_none _
    · exact Option.some_ne_none _
  | cons r rules ih =>
    intro need
    rw [reaches_cons]
    rcases tryRules_cons env cfg need r rules with
      ⟨hgrants, hnone⟩ | ⟨hstops, hgrants, hsome⟩ | ⟨hgrants, hstops, need', hrest⟩
    · exact iff_of_true hnone (Or.inl hgrants)
    · exact iff_of_false hsome fun h => h.elim hgrants fun h => h.1 hstops
    · rw [hrest, ih need', or_iff_right hgrants, and_iff_right hstops]

end Caudium.SecureFs
