import Caudium.BaseServer.Seclevels
import Caudium.Config.Regions
import Caudium.Lib.Glob
import Caudium.Lib.Split

/-!
# The addresses of security patterns

What the three forms of an address mean (`Form.Holds`), and where the tests that `query_seclevels`
makes of them agree with that. A network compares right with either kind of mask: its own bits
outside the mask are cleared, so it is enough that the bits in the mask agree (`call_create`).

A pattern becomes a regular expression, which looks for a part of the address. It tells the right
addresses apart only if whatever fits in part fits as a whole; and a character with a meaning to
`Regexp` keeps it, whereas no address has such a character (`address_iff`).
-/

namespace Caudium.BaseServer.Seclevels

open Lib (Str Wild FitsPart replaceAll)
open Http (castInt lowerCase splitOn number)

/-! ## Addresses -/

/-- One to four numbers of eight bits, in digits. -/
structure Dotted where
  parts : List Str
  digits : ∀ p ∈ parts, p ≠ [] ∧ ∀ c ∈ p, c.isDigit = true
  small : ∀ p ∈ parts, number p < 256
  given : parts ≠ []
  few : parts.length ≤ 4

/-- A whole address. -/
structure Address extends Dotted where
  full : parts.length = 4

def Dotted.text (d : Dotted) : Str := ['.'].intercalate d.parts

/-- The 32 bits. Numbers that are not given are 0. -/
def Dotted.value (d : Dotted) : Nat :=
  ((d.parts.map number ++ [0, 0, 0]).take 4).foldl (fun n k => n * 256 + k) 0

/-- A number of bits, in digits. -/
structure Bits where
  text : Str
  digits : text ≠ [] ∧ ∀ c ∈ text, c.isDigit = true
  few : number text ≤ 32

/-- The three forms. What counts as a pattern has neither the separators of the one nor of the
other kind of network. -/
inductive Form
  | bits (net : Dotted) (n : Bits)
  | mask (net m : Dotted) (sep : Char) (h : sep = ':' ∨ sep = ',')
  | glob (pattern : Str) (h : pattern.count '/' ≠ 1 ∧ pattern.count ':' ≠ 1 ∧ ',' ∉ pattern)

/-- As it stands in a directive. -/
def Form.text : Form → Str
  | .bits net n => net.text ++ '/' :: n.text
  | .mask net m sep _ => net.text ++ sep :: m.text
  | .glob pattern _ => pattern

/-- The wildcards of a pattern. -/
def globOf (pattern : Str) : List (Wild Char) :=
  pattern.map fun c => if c = '*' then .run else if c = '?' then .one else .lit c

/-- What the forms mean. -/
def Form.Holds (a : Address) : Form → Prop
  | .bits net n => ∀ i < 32, 32 - number n.text ≤ i → a.value.testBit i = net.value.testBit i
  | .mask net m _ _ => ∀ i, m.value.testBit i = true → a.value.testBit i = net.value.testBit i
  | .glob pattern _ => Lib.Fits (globOf pattern) a.text

/-! ## Regular expressions -/

/-- A character as `Regexp` reads it. -/
def Byte (c : Char) : Prop := 0 < c.toNat ∧ c.toNat < 256

/-- A character that stands for itself, behind a backslash if it is a dot. -/
def Plain (c : Char) : Prop := Byte c ∧ c ∉ "\\^$[]()|+*?".toList

instance (c : Char) : Decidable (Byte c) := inferInstanceAs (Decidable (_ ∧ _))

instance (c : Char) : Decidable (Plain c) := inferInstanceAs (Decidable (_ ∧ _))

/-- A piece of a pattern as `Regexp` has it written. -/
def atom : Wild Char → Str
  | .lit c => if c = '.' then ['\\', '.'] else [c]
  | .one => ['.']
  | .run => ['.', '*']

/-- What `Regexp` does with such pieces: it looks for a part of the text that they match. -/
structure Documented (regexp : Str → Option (Str → Bool)) : Prop where
  searches : ∀ p : List (Wild Char), (∀ c, .lit c ∈ p → Plain c) → ∃ m,
    regexp (p.flatMap atom) = some m ∧ ∀ s, (∀ c ∈ s, Byte c) → (m s = true ↔ FitsPart p s)

/-- The directives with an address. -/
inductive Kind
  | allow
  | accept
  | deny

def Kind.word : Kind → Str
  | .allow => "allowip".toList
  | .accept => "acceptip".toList
  | .deny => "denyip".toList

def Kind.rule : Kind → Test → Rule
  | .allow => .allow
  | .accept => .accept
  | .deny => .deny

variable {env : Env}

/-- The line is read as a pattern whose test holds of the address exactly when the form does. -/
def Tells (env : Env) (kind : Kind) (type : Str) (form : Form) (a : Address) : Prop :=
  ∃ test, readLine env (type ++ '=' :: form.text) = some [kind.rule test] ∧
    (test a.text = some true ↔ form.Holds a)

/-- Where it is: a pattern without characters that mean something to `Regexp` matches the whole
address, or no part of it; with such characters, the `Regexp` does not match. -/
def Anchored (env : Env) (a : Address) : Form → Prop
  | .bits _ _ => True
  | .mask _ _ _ _ => True
  | .glob pattern _ =>
    if ∀ c ∈ pattern, c = '*' ∨ c = '?' ∨ Plain c then
      FitsPart (globOf pattern) a.text → Lib.Fits (globOf pattern) a.text
    else ∃ m, env.regexp (translate pattern) = some m ∧ m a.text = false

/-! ## Separators -/

theorem Dotted.not_mem_text (d : Dotted) {c : Char} (hc : c.isDigit = false) (hdot : c ≠ '.') :
    c ∉ d.text := by
  intro hmem
  rcases Lib.mem_intercalate hmem with h | ⟨p, hp, h⟩
  · exact hdot h
  · rw [(d.digits p hp).2 c h] at hc
    cases hc

/-! ## Numbers -/

theorem castInt_digits {s : Str} (hne : s ≠ []) (h : ∀ c ∈ s, c.isDigit = true) :
    castInt s = number s := by
  obtain ⟨d, ds, rfl⟩ := List.exists_cons_of_ne_nil hne
  exact Config.castInt_of_digit (h d List.mem_cons_self) ds

theorem foldl_castInt {ps : List Str} (h : ∀ p ∈ ps, castInt p = number p) (n : Nat) :
    ps.foldl (fun res num => res * 256 + castInt num) (n : Int) =
      ((ps.map number).foldl (fun n k => n * 256 + k) n : Nat) := by
  induction ps generalizing n with
  | nil => rfl
  | cons p ps ih =>
    rw [List.forall_mem_cons] at h
    rw [List.foldl_cons, List.map_cons, List.foldl_cons, h.1, ← ih h.2]
    push_cast
    rfl

theorem Dotted.ipToInt_text (d : Dotted) : ipToInt d.text = d.value := by
  have hparts : splitOn '.' d.text = d.parts :=
    List.splitOn_intercalate '.' (fun p hp hdot => by
      have := (d.digits p hp).2 '.' hdot
      revert this
      decide) d.given
  have hcast : ∀ p ∈ (d.parts ++ [['0'], ['0'], ['0']]).take 4, castInt p = number p := by
    intro p hp
    rcases List.mem_append.mp (List.mem_of_mem_take hp) with hp | hp
    · exact castInt_digits (d.digits p hp).1 (d.digits p hp).2
    · simp only [List.mem_cons, List.not_mem_nil, or_false, or_self] at hp
      rw [hp]
      decide
  rw [ipToInt, hparts]
  refine (foldl_castInt hcast 0).trans ?_
  rw [List.map_take, List.map_append]
  rfl

/-- Numbers of eight bits, put together. -/
theorem foldl_lt {ks : List Nat} (h : ∀ k ∈ ks, k < 256) {n j : Nat} (hn : n < 256 ^ j) :
    ks.foldl (fun n k => n * 256 + k) n < 256 ^ (j + ks.length) := by
  induction ks generalizing n j with
  | nil => exact hn
  | cons k ks ih =>
    rw [List.forall_mem_cons] at h
    have hstep : n * 256 + k < 256 ^ (j + 1) := by
      rw [Nat.pow_succ]
      have := h.1
      omega
    have hrest := ih h.2 hstep
    rwa [Nat.add_assoc, Nat.add_comm 1] at hrest

theorem Dotted.value_lt (d : Dotted) : d.value < 2 ^ 32 := by
  have hsmall : ∀ k ∈ (d.parts.map number ++ [0, 0, 0]).take 4, k < 256 := by
    intro k hk
    rcases List.mem_append.mp (List.mem_of_mem_take hk) with hk | hk
    · obtain ⟨p, hp, rfl⟩ := List.mem_map.mp hk
      exact d.small p hp
    · simp only [List.mem_cons, List.not_mem_nil, or_false, or_self] at hk
      omega
  have hlt := foldl_lt hsmall (n := 0) (j := 0) (by decide)
  refine hlt.trans_le ?_
  rw [Nat.zero_add, show (2 : Nat) ^ 32 = 256 ^ 4 from rfl]
  exact Nat.pow_le_pow_right (by decide) (List.length_take_le _ _)

/-! ## Masks -/

theorem land_nat (n : Nat) (m : Int) : ∃ k : Nat, Int.land n m = k ∧
    ∀ i, k.testBit i = (n.testBit i && m.testBit i) := by
  obtain ⟨k, hk⟩ : ∃ k : Nat, Int.land n m = k := by
    cases m with
    | ofNat m => exact ⟨_, rfl⟩
    | negSucc m => exact ⟨_, rfl⟩
  refine ⟨k, hk, fun i => ?_⟩
  have hbit := Int.testBit_land n m i
  rw [hk] at hbit
  exact hbit

/-- Two numbers are the same in a mask when their bits are, wherever it has one. -/
theorem land_eq_iff {a b : Nat} {m : Int} : Int.land a m = Int.land b m ↔
    ∀ i, m.testBit i = true → a.testBit i = b.testBit i := by
  obtain ⟨k, hk, hkbit⟩ := land_nat a m
  obtain ⟨l, hl, hlbit⟩ := land_nat b m
  rw [hk, hl]
  constructor
  · intro h i hi
    have hsame := hkbit i
    rw [Int.ofNat.inj h, hlbit, hi, Bool.and_true, Bool.and_true] at hsame
    exact hsame.symm
  · intro h
    refine congrArg Int.ofNat (Nat.eq_of_testBit_eq fun i => ?_)
    rw [hkbit, hlbit]
    cases hm : m.testBit i with
    | false => rw [Bool.and_false, Bool.and_false]
    | true => rw [h i hm]

/-- Without bits outside the mask. -/
theorem land_of_outside {a : Nat} {m : Int} (h : Int.land a (Int.lnot m) = 0) :
    Int.land a m = a := by
  obtain ⟨k, hk, hkbit⟩ := land_nat a m
  obtain ⟨l, hl, hlbit⟩ := land_nat a (Int.lnot m)
  obtain rfl := Int.ofNat.inj (hl.symm.trans h)
  rw [hk]
  refine congrArg Int.ofNat (Nat.eq_of_testBit_eq fun i => ?_)
  have hout := hlbit i
  rw [Nat.zero_testBit, Int.testBit_lnot] at hout
  rw [hkbit]
  cases hm : m.testBit i with
  | true => rw [Bool.and_true]
  | false =>
    rw [hm, Bool.not_false, Bool.and_true] at hout
    rw [Bool.and_false, ← hout]

/-- **An `IP_with_mask`** compares the bits in its mask. -/
theorem call_create (net : Dotted) (m : Mask) (a : Address) :
    (IPWithMask.create net.text m).call a.text = some true ↔
      ∀ i, m.toInt.testBit i = true → a.value.testBit i = net.value.testBit i := by
  have hnet : (IPWithMask.create net.text m).net = Int.land net.value m.toInt := by
    unfold IPWithMask.create
    rw [net.ipToInt_text]
    dsimp only
    split
    next h => exact (land_of_outside h).symm
    next => rfl
  rw [IPWithMask.call, hnet, a.ipToInt_text]
  show some (decide (Int.land a.value m.toInt = Int.land net.value m.toInt)) = some true ↔ _
  rw [Option.some_inj, decide_eq_true_eq]
  exact land_eq_iff

/-- The mask of a number of bits. -/
theorem testBit_bits {n : Nat} (hn : n ≤ 32) (i : Nat) :
    (Mask.bits n).toInt.testBit i = decide (32 - n ≤ i) := by
  have hmin : min (n : Int) 32 = n := by omega
  have hsub : (32 : Int) - n = ((32 - n : Nat) : Int) := by omega
  have hshift : (Mask.bits n).toInt = Int.lnot ((2 ^ (32 - n) - 1 : Nat) : Int) := by
    have hpos := Nat.two_pow_pos (32 - n)
    rw [Mask.toInt, hmin, hsub, Int.shiftLeft_eq_mul_pow]
    show _ = Int.negSucc (2 ^ (32 - n) - 1)
    rw [Int.negSucc_eq]
    omega
  rw [hshift, Int.testBit_lnot]
  show (!Nat.testBit (2 ^ (32 - n) - 1) i) = _
  rw [Nat.testBit_two_pow_sub_one, ← decide_not]
  exact decide_eq_decide.mpr Nat.not_lt

theorem testBit_ip (d : Dotted) (i : Nat) : (Mask.ip d.text).toInt.testBit i = d.value.testBit i := by
  rw [Mask.toInt, d.ipToInt_text]
  rfl

/-! ## Patterns -/

/-- What `Regexp` is given. -/
theorem translate_eq (pattern : Str) : translate pattern = (globOf pattern).flatMap atom := by
  induction pattern with
  | nil => rfl
  | cons c s ih =>
    rw [globOf, List.map_cons, List.flatMap_cons]
    change _ = _ ++ (globOf s).flatMap atom
    rw [← ih]
    by_cases hone : c = '?'
    · rw [hone]
      exact Lib.replaceAll_rule (r := (['?'], ['.'])) rfl nofun
    by_cases hdot : c = '.'
    · rw [hdot]
      exact Lib.replaceAll_rule (r := (['.'], ['\\', '.'])) rfl nofun
    by_cases hrun : c = '*'
    · rw [hrun]
      exact Lib.replaceAll_rule (r := (['*'], ['.', '*'])) rfl nofun
    rw [if_neg hrun, if_neg hone, atom, if_neg hdot]
    refine Lib.replaceAll_keep (Lib.ruleAt_none (fun r hr => ?_) s)
    simp only [List.mem_cons, List.not_mem_nil, or_false] at hr
    obtain rfl | rfl | rfl := hr
    · simpa using Ne.symm hone
    · simpa using Ne.symm hdot
    · simpa using Ne.symm hrun

theorem lit_mem_globOf {pattern : Str} {c : Char} :
    .lit c ∈ globOf pattern ↔ c ∈ pattern ∧ c ≠ '*' ∧ c ≠ '?' := by
  constructor
  · intro h
    obtain ⟨d, hd, he⟩ := List.mem_map.mp h
    split at he
    next => cases he
    next hrun =>
      split at he
      next => cases he
      next hone =>
        obtain rfl := Wild.lit.inj he
        exact ⟨hd, hrun, hone⟩
  · intro ⟨hc, hrun, hone⟩
    exact List.mem_map.mpr ⟨c, hc, by rw [if_neg hrun, if_neg hone]⟩

/-- The characters of an address. -/
theorem Dotted.plain (d : Dotted) {c : Char} (hc : c ∈ d.text) : Plain c := by
  rcases Lib.mem_intercalate hc with rfl | ⟨p, hp, hmem⟩
  · decide
  · have hdigit := (d.digits p hp).2 c hmem
    have hbounds := Config.digit_bounds hdigit
    refine ⟨⟨by omega, by omega⟩, fun hspecial => ?_⟩
    have hnone : ∀ d ∈ "\\^$[]()|+*?".toList, d.isDigit = false := by decide
    rw [hnone c hspecial] at hdigit
    cases hdigit

/-- A line is read by the word in front of its "=", in either case. -/
theorem readLine_word {type word : Str} (hletters : ∀ c ∈ word, c.isAlpha = true) (hne : word ≠ [])
    (htype : lowerCase type = word) (value : Str) :
    readLine env (type ++ '=' :: value) = directive env type value := by
  have hequal : '=' ∉ type := by
    intro h
    have hmem : '=' ∈ lowerCase type := List.mem_map.mpr ⟨'=', h, rfl⟩
    rw [htype] at hmem
    exact absurd (hletters '=' hmem) (by decide)
  rw [readLine, if_neg, Lib.cut_char hequal]
  intro hskip
  cases type with
  | nil => exact hne htype.symm
  | cons c type =>
    obtain h | h := hskip
    · cases h
    · have hmem : '#' ∈ lowerCase (c :: type) :=
        List.mem_map.mpr ⟨'#', by rw [Option.some.inj h]; exact List.mem_cons_self, rfl⟩
      rw [htype] at hmem
      exact absurd (hletters '#' hmem) (by decide)

/-- **The line** of a directive. -/
theorem readLine_eq (kind : Kind) {type : Str} (htype : lowerCase type = kind.word) (value : Str) :
    readLine env (type ++ '=' :: value) = (ipTest env value).map fun test => [kind.rule test] := by
  have hletters : ∀ c ∈ kind.word, c.isAlpha = true := by
    cases kind with
    | allow => decide
    | accept => decide
    | deny => decide
  have hne : kind.word ≠ [] := by
    cases kind with
    | allow => decide
    | accept => decide
    | deny => decide
  rw [readLine_word hletters hne htype, directive, htype]
  cases kind with
  | allow => rfl
  | accept => rfl
  | deny => rfl

/-! ## The tests -/

/-- A directive with this test tells the addresses apart as the test does. -/
theorem tells_iff {kind : Kind} {type : Str} (htype : lowerCase type = kind.word) {form : Form}
    {test : Test} (htest : ipTest env form.text = some test) (a : Address) :
    Tells env kind type form a ↔ (test a.text = some true ↔ form.Holds a) := by
  have hread : readLine env (type ++ '=' :: form.text) = some [kind.rule test] := by
    rw [readLine_eq kind htype, htest]
    rfl
  constructor
  · intro ⟨test', hread', h⟩
    have hrule := Option.some.inj (hread.symm.trans hread')
    have hsame : test = test' := by
      cases kind with
      | allow => exact Rule.allow.inj (List.cons.inj hrule).1
      | accept => exact Rule.accept.inj (List.cons.inj hrule).1
      | deny => exact Rule.deny.inj (List.cons.inj hrule).1
    rw [hsame]
    exact h
  · intro h
    exact ⟨test, hread, h⟩

theorem ipTest_bits (net : Dotted) (n : Bits) : ipTest env (net.text ++ '/' :: n.text) =
    some (IPWithMask.create net.text (.bits (number n.text))).call := by
  have hslash : '/' ∉ n.text := fun h => absurd (n.digits.2 '/' h) (by decide)
  rw [ipTest, splitOn, Lib.splitOn_pair (net.not_mem_text (by decide) (by decide)) hslash]
  dsimp only
  rw [castInt_digits n.digits.1 n.digits.2]

theorem ipTest_mask (net m : Dotted) {sep : Char} (hsep : sep = ':' ∨ sep = ',') :
    ipTest env (net.text ++ sep :: m.text) =
      some (IPWithMask.create net.text (.ip m.text)).call := by
  have hother : ∀ c, c.isDigit = false → c ≠ '.' → c ≠ sep →
      splitOn c (net.text ++ sep :: m.text) = [net.text ++ sep :: m.text] := by
    intro c hc hdot hne
    refine List.splitOn_eq_singleton fun hmem => ?_
    rcases List.mem_append.mp hmem with h | h
    · exact net.not_mem_text hc hdot h
    · rcases List.mem_cons.mp h with h | h
      · exact hne h
      · exact m.not_mem_text hc hdot h
  have hsplit : sep.isDigit = false → sep ≠ '.' →
      splitOn sep (net.text ++ sep :: m.text) = [net.text, m.text] := fun hc hdot =>
    Lib.splitOn_pair (net.not_mem_text hc hdot) (m.not_mem_text hc hdot)
  rcases hsep with rfl | rfl
  · rw [ipTest, hother '/' (by decide) (by decide) (by decide), hsplit (by decide) (by decide)]
  · rw [ipTest, hother '/' (by decide) (by decide) (by decide),
      hother ':' (by decide) (by decide) (by decide), hsplit (by decide) (by decide)]

theorem ipTest_glob {pattern : Str}
    (h : pattern.count '/' ≠ 1 ∧ pattern.count ':' ≠ 1 ∧ ',' ∉ pattern) :
    ipTest env pattern = regexpTest env (translate pattern) := by
  have hlen : ∀ c, pattern.count c ≠ 1 → ∀ a b, splitOn c pattern ≠ [a, b] := by
    intro c hc a b he
    have hcount := Lib.length_splitOn c pattern
    rw [show pattern.splitOn c = [a, b] from he] at hcount
    exact hc (Nat.succ.inj hcount).symm
  rw [ipTest]
  split
  next he => exact absurd he (hlen '/' h.1 _ _)
  next =>
    split
    next he => exact absurd he (hlen ':' h.2.1 _ _)
    next => rw [splitOn, List.splitOn_eq_singleton h.2.2]

/-- A pattern with a character that means something to `Regexp` matches no address. -/
theorem not_fits_special {pattern : Str}
    (h : ¬ ∀ c ∈ pattern, c = '*' ∨ c = '?' ∨ Plain c) (a : Address) :
    ¬ Lib.Fits (globOf pattern) a.text := by
  intro hfits
  refine h fun c hc => ?_
  by_contra hnot
  rw [not_or, not_or] at hnot
  exact hnot.2.2 (a.plain (hfits.mem (lit_mem_globOf.2 ⟨hc, hnot.1, hnot.2.1⟩)))

/-- **A pattern** is told as long as it is anchored. -/
theorem glob_iff (hre : Documented env.regexp) {kind : Kind} {type : Str}
    (htype : lowerCase type = kind.word) {pattern : Str}
    (hform : pattern.count '/' ≠ 1 ∧ pattern.count ':' ≠ 1 ∧ ',' ∉ pattern) (a : Address) :
    Tells env kind type (.glob pattern hform) a ↔ Anchored env a (.glob pattern hform) := by
  show _ ↔ if ∀ c ∈ pattern, c = '*' ∨ c = '?' ∨ Plain c then _ else _
  cases hm : env.regexp (translate pattern) with
  | none =>
    rw [if_neg]
    · refine iff_of_false ?_ nofun
      intro ⟨test, hread, _⟩
      rw [readLine_eq kind htype, Form.text, ipTest_glob hform, regexpTest, hm] at hread
      cases hread
    · intro hplain
      obtain ⟨m, hm', -⟩ := hre.searches (globOf pattern) fun c hc => by
        obtain ⟨hmem, hrun, hone⟩ := lit_mem_globOf.1 hc
        exact ((hplain c hmem).resolve_left hrun).resolve_left hone
      rw [← translate_eq, hm] at hm'
      cases hm'
  | some m =>
    have htest : ipTest env (Form.glob pattern hform).text = some fun s => some (m s) := by
      rw [Form.text, ipTest_glob hform, regexpTest, hm]
      rfl
    rw [tells_iff htype htest, Option.some_inj]
    split
    next hplain =>
      obtain ⟨m', hm', hsearch⟩ := hre.searches (globOf pattern) fun c hc => by
        obtain ⟨hmem, hrun, hone⟩ := lit_mem_globOf.1 hc
        exact ((hplain c hmem).resolve_left hrun).resolve_left hone
      rw [← translate_eq, hm] at hm'
      rw [Option.some.inj hm', hsearch _ fun c hc => (a.plain hc).1]
      exact ⟨Iff.mp, fun h => ⟨h, Lib.Fits.part⟩⟩
    next hspecial =>
      have hno := not_fits_special hspecial a
      constructor
      · intro h
        exact ⟨m, rfl, Bool.eq_false_iff.mpr fun hmatch => hno (h.mp hmatch)⟩
      · intro ⟨m', hm', hmatch⟩
        rw [Option.some.inj hm', hmatch]
        exact iff_of_false nofun hno

/-- **One address.** Networks are told from others; patterns are where they are anchored. -/
theorem address_iff (hre : Documented env.regexp) (kind : Kind) {type : Str}
    (htype : lowerCase type = kind.word) (form : Form) (a : Address) :
    Tells env kind type form a ↔ Anchored env a form := by
  cases form with
  | bits net n =>
    refine iff_of_true ((tells_iff htype (ipTest_bits net n) a).mpr ?_) trivial
    rw [call_create]
    constructor
    · intro h i _ hi
      exact h i (by rw [testBit_bits n.few]; exact decide_eq_true hi)
    · intro h i hi
      rw [testBit_bits n.few, decide_eq_true_eq] at hi
      by_cases hlt : i < 32
      · exact h i hlt hi
      · have hle : 2 ^ 32 ≤ 2 ^ i := Nat.pow_le_pow_right (by decide) (Nat.not_lt.mp hlt)
        rw [Nat.testBit_lt_two_pow (a.value_lt.trans_le hle),
          Nat.testBit_lt_two_pow (net.value_lt.trans_le hle)]
  | mask net m sep hsep =>
    refine iff_of_true ((tells_iff htype (ipTest_mask net m hsep) a).mpr ?_) trivial
    rw [call_create]
    simp only [testBit_ip]
    exact Iff.rfl
  | glob pattern hform => exact glob_iff hre htype hform a

/-! ## A pattern without its ends -/

/-- The pieces of an expression in which nothing else has a meaning. -/
def piecesOf : Str → Option (List (Wild Char))
  | [] => some []
  | '\\' :: '.' :: s => (piecesOf s).map (.lit '.' :: ·)
  | '.' :: '*' :: s => (piecesOf s).map (.run :: ·)
  | '.' :: s => (piecesOf s).map (.one :: ·)
  | c :: s => if Plain c then (piecesOf s).map (.lit c :: ·) else none

/-- `Regexp`, of such expressions. -/
def plainRegexp (value : Str) : Option (Str → Bool) :=
  (piecesOf value).map fun p s => decide (FitsPart p s)

/-- No piece is written with a star in front. -/
theorem head_atoms {p : List (Wild Char)} (h : ∀ c, .lit c ∈ p → Plain c) :
    ∀ s, p.flatMap atom ≠ '*' :: s := by
  intro s he
  cases p with
  | nil => cases he
  | cons w p =>
    rw [List.flatMap_cons] at he
    cases w with
    | lit c =>
      rw [atom] at he
      split at he
      next => cases he
      next =>
        have hc : c = '*' := (List.cons.inj he).1
        exact absurd (hc ▸ h c List.mem_cons_self) (by decide)
    | one => cases he
    | run => cases he

theorem piecesOf_atoms {p : List (Wild Char)} (h : ∀ c, .lit c ∈ p → Plain c) :
    piecesOf (p.flatMap atom) = some p := by
  induction p with
  | nil => rfl
  | cons w p ih =>
    have hlits : ∀ c, .lit c ∈ p → Plain c := fun c hc => h c (List.mem_cons_of_mem w hc)
    have hrest := ih hlits
    rw [List.flatMap_cons]
    cases w with
    | lit c =>
      have hplain := h c List.mem_cons_self
      by_cases hdot : c = '.'
      · rw [hdot, atom, if_pos rfl, List.cons_append, List.cons_append, List.nil_append, piecesOf,
          hrest]
        rfl
      · have hback : c ≠ '\\' := by
          intro heq
          subst heq
          revert hplain
          decide
        rw [atom, if_neg hdot, List.cons_append, List.nil_append, piecesOf, if_pos hplain, hrest]
        · rfl
        · exact fun s hs => absurd hs hback
        · exact fun s hs => absurd hs hdot
        · exact fun hs => absurd hs hdot
    | one =>
      rw [atom, List.cons_append, List.nil_append, piecesOf, hrest]
      · rfl
      · exact fun s hs => head_atoms hlits s hs
    | run =>
      rw [atom, List.cons_append, List.cons_append, List.nil_append, piecesOf, hrest]
      rfl

theorem plainRegexp_documented : Documented plainRegexp where
  searches p h := by
    refine ⟨fun s => decide (FitsPart p s), ?_, fun s _ => decide_eq_true_iff⟩
    rw [plainRegexp, piecesOf_atoms h]
    rfl

def plainEnv : Env where
  proxy := false
  regexp := plainRegexp

/-- An address with the other one inside. -/
def longer : Address where
  parts := ["11".toList, "2".toList, "3".toList, "45".toList]
  digits := by decide
  small := by decide
  given := by decide
  few := by decide
  full := by decide

def shortForm : Form := .glob "1.2.3.4".toList (by decide)

theorem address_iff_longer :
    Tells plainEnv .allow "AllowIP".toList shortForm longer ↔ Anchored plainEnv longer shortForm :=
  address_iff plainRegexp_documented .allow rfl shortForm longer

/-- The pattern lets another address in. -/
theorem longer_let_in : ¬ Tells plainEnv .allow "allowip".toList shortForm longer := by
  intro h
  have hanchored := (glob_iff plainRegexp_documented rfl _ longer).mp h
  rw [Anchored, if_pos (by decide)] at hanchored
  exact absurd (hanchored (by decide)) (by decide)

end Caudium.BaseServer.Seclevels
