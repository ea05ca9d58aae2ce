import Caudium.BaseServer.Addresses
import Caudium.Lib.Split
import Caudium.SecureFs.FindFile

/-!
# The secure file system module (secure_fs.pike): what the rules mean

A pattern is matched against a part of the path or address, and each dot of it matches any
character. So it means what it should (`Line.Whole`) as long as no text fits in part, or with
other characters for its dots, but as a whole. The order in which the rules are tried is
right (`tryRules_none_iff`).
-/

namespace Caudium.SecureFs

open Lib (Str Wild Fits FitsPart replaceAll ruleAt)
open BaseServer.Seclevels (Byte Plain Documented globOf atom lit_mem_globOf)
open Http (splitOn)

/-! ## Lines -/

def GlobChar (c : Char) : Prop := c.isAlphanum = true ∨ c ∈ ['/', '-', '_', '.', '*', '?']

instance (c : Char) : Decidable (GlobChar c) := inferInstanceAs (Decidable (_ ∨ _))

structure Glob where
  text : Str
  chars : ∀ c ∈ text, GlobChar c

def Glob.Matches (g : Glob) (s : Str) : Prop := Fits (globOf g.text) s

/-- The names of an "allow user", with commas between them. -/
structure Names where
  text : Str
  chars : ∀ c ∈ text, c ∉ [' ', '\t', '\n', '\\']

inductive Line where
  | allowIp (path addr : Glob)
  | denyIp (path addr : Glob)
  | allowUser (path : Glob) (names : Names)

def Line.path : Line → Glob
  | allowIp path _ | denyIp path _ | allowUser path _ => path

/-- As it stands in the patterns. -/
def Line.text : Line → Str
  | allowIp path addr => path.text ++ ": allow ip=".toList ++ addr.text
  | denyIp path addr => path.text ++ ": deny ip=".toList ++ addr.text
  | allowUser path names => path.text ++ ": allow user=".toList ++ names.text

/-- The security patterns. -/
def secOf (lines : List Line) : Str := ['\n'].intercalate (lines.map Line.text)

/-! ## What they should mean -/

/-- The line is for the path, and lets the client in. -/
def Line.Grants (l : Line) (f : Str) (id : RequestID) : Prop :=
  l.path.Matches f ∧
    match l with
    | allowIp _ addr => addr.Matches id.remoteaddr
    | denyIp _ _ => False
    | allowUser _ ns => ∃ username, id.username = some username ∧ names ns.text username = true

/-- The line is for the path, and turns the client away, or asks who it is. -/
def Line.Stops (l : Line) (f : Str) (id : RequestID) : Prop :=
  l.path.Matches f ∧
    match l with
    | allowIp _ _ => False
    | denyIp _ addr => addr.Matches id.remoteaddr
    | allowUser _ _ => id.username = none

/-- The rule is that of the line, and its tests agree with the globs. -/
def Line.Agrees (f addr : Str) (l : Line) (r : Rule) : Prop :=
  (r.pattern f = true ↔ l.path.Matches f) ∧
    match l, r.level with
    | allowIp _ g, .allow test => test addr = true ↔ g.Matches addr
    | denyIp _ g, .deny test => test addr = true ↔ g.Matches addr
    | allowUser _ ns, .user value => value = ns.text
    | _, _ => False

/-- What `start` makes of the lines means what it should, for a path and a client. -/
def Means (env : Env) (cfg : Config) (lines : List Line) (f : Str) (id : RequestID) : Prop :=
  ∃ rules, start env (secOf lines) = some rules ∧
    List.Forall₂ (Line.Agrees f id.remoteaddr) lines rules ∧
    (notAllowed env cfg rules f id = none ↔
      Reaches (fun l : Line => l.Grants f id) (fun l => l.Stops f id) lines)

/-! ## Where they do -/

/-- A pattern as `Regexp` sees it: a dot is any character. -/
def dotted (p : List (Wild Char)) : List (Wild Char) :=
  p.map fun w => if w = .lit '.' then .one else w

/-- If a part of the text fits, with any characters for the dots, the whole text fits. -/
def Glob.Whole (g : Glob) (s : Str) : Prop := FitsPart (dotted (globOf g.text)) s → g.Matches s

def Line.Whole (l : Line) (f addr : Str) : Prop :=
  l.path.Whole f ∧
    match l with
    | allowIp _ g | denyIp _ g => g.Whole addr
    | allowUser _ _ => True

/-! ## Patterns -/

variable {env : Env} {cfg : Config} {f : Str} {id : RequestID}

theorem fits_dotted : ∀ {p : List (Wild Char)} {s : Str}, Fits p s → Fits (dotted p) s := by
  intro p
  induction p with
  | nil => exact fun h => h
  | cons w p ih =>
    intro s h
    cases w with
    | lit c =>
      obtain ⟨t, rfl, ht⟩ := h
      show Fits ((if Wild.lit c = .lit '.' then .one else .lit c) :: dotted p) (c :: t)
      split
      · exact ⟨c, t, rfl, ih ht⟩
      · exact ⟨t, rfl, ih ht⟩
    | one =>
      obtain ⟨c, t, rfl, ht⟩ := h
      exact ⟨c, t, rfl, ih ht⟩
    | run =>
      obtain ⟨u, t, rfl, ht⟩ := h
      exact ⟨u, t, rfl, ih ht⟩

/-- A test that looks for a part agrees with the glob where it is whole. -/
theorem agrees_iff_whole {g : Glob} {s : Str} {P : Prop}
    (h : P ↔ FitsPart (dotted (globOf g.text)) s) : (P ↔ g.Matches s) ↔ g.Whole s := by
  rw [h]
  exact ⟨Iff.mp, fun hwhole => ⟨hwhole, fun hfits => (fits_dotted hfits).part⟩⟩

theorem alphanum_bounds {c : Char} (h : c.isAlphanum = true) : 48 ≤ c.toNat ∧ c.toNat ≤ 122 := by
  unfold Char.isAlphanum Char.isAlpha Char.isUpper Char.isLower Char.isDigit at h
  simp only [Bool.or_eq_true, Bool.and_eq_true, decide_eq_true_eq, ge_iff_le,
    UInt32.le_iff_toNat_le] at h
  change ((65 ≤ c.toNat ∧ c.toNat ≤ 90) ∨ (97 ≤ c.toNat ∧ c.toNat ≤ 122)) ∨
    (48 ≤ c.toNat ∧ c.toNat ≤ 57) at h
  omega

theorem GlobChar.plain {c : Char} (h : GlobChar c) (hrun : c ≠ '*') (hone : c ≠ '?') : Plain c := by
  rcases h with h | h
  · refine ⟨?_, fun hspecial => ?_⟩
    · have hbounds := alphanum_bounds h
      exact ⟨by omega, by omega⟩
    · have hnone : ∀ d ∈ "\\^$[]()|+*?".toList, d.isAlphanum = false := by decide
      rw [hnone c hspecial] at h
      cases h
  · simp only [List.mem_cons, List.not_mem_nil, or_false] at h
    rcases h with rfl | rfl | rfl | rfl | rfl | rfl
    all_goals first | decide | exact absurd rfl hrun | exact absurd rfl hone

theorem lit_dotted {g : Glob} {c : Char} (h : .lit c ∈ dotted (globOf g.text)) : Plain c := by
  obtain ⟨w, hw, he⟩ := List.mem_map.mp h
  split at he
  · cases he
  · rw [he] at hw
    obtain ⟨hmem, hrun, hone⟩ := lit_mem_globOf.mp hw
    exact (g.chars c hmem).plain hrun hone

/-- The three substitutions do the same to a glob. -/
theorem replaceAll_glob {rules : List (Str × Str)} {pat : Str}
    (hone : ∀ s, ruleAt rules ('?' :: s) = some (['?'], ['.']))
    (hdot : ∀ s, ruleAt rules ('.' :: s) = some (['.'], ['.']))
    (hrun : ∀ s, ruleAt rules ('*' :: s) = some (['*'], ['.', '*']))
    (hother : ∀ c ∈ pat, c ≠ '?' → c ≠ '.' → c ≠ '*' → ∀ s, ruleAt rules (c :: s) = none) :
    replaceAll rules pat = (dotted (globOf pat)).flatMap atom := by
  induction pat with
  | nil => rfl
  | cons c pat ih =>
    rw [List.forall_mem_cons] at hother
    have hrest := ih hother.2
    by_cases h : c = '?'
    · rw [h]
      have hrule := Lib.replaceAll_rule (r := (['?'], ['.'])) (hone pat) (List.cons_ne_nil _ _)
      exact hrule.trans (congrArg (['.'] ++ ·) hrest)
    by_cases h' : c = '.'
    · rw [h']
      have hrule := Lib.replaceAll_rule (r := (['.'], ['.'])) (hdot pat) (List.cons_ne_nil _ _)
      exact hrule.trans (congrArg (['.'] ++ ·) hrest)
    by_cases h'' : c = '*'
    · rw [h'']
      have hrule := Lib.replaceAll_rule (r := (['*'], ['.', '*'])) (hrun pat) (List.cons_ne_nil _ _)
      exact hrule.trans (congrArg (['.', '*'] ++ ·) hrest)
    · rw [Lib.replaceAll_keep (hother.1 h h' h'' pat), hrest]
      have hatom : (dotted (globOf (c :: pat))).flatMap atom =
          [c] ++ (dotted (globOf pat)).flatMap atom := by
        simp [dotted, globOf, h, h', h'', atom]
      exact hatom.symm

theorem GlobChar.ne {c d : Char} (h : GlobChar c) (hd : ¬ GlobChar d) : c ≠ d :=
  fun heq => hd (heq ▸ h)

/-- What `Regexp` makes of a glob. -/
def Glob.Compiled (g : Glob) (test : Str → Bool) : Prop :=
  ∀ s, (∀ c ∈ s, Byte c) → (test s = true ↔ FitsPart (dotted (globOf g.text)) s)

theorem glob_compiles (hre : Documented env.regexp) (g : Glob) {pat : Str}
    (h : pat = (dotted (globOf g.text)).flatMap atom) :
    ∃ test, env.regexp pat = some test ∧ g.Compiled test := by
  rw [h]
  exact hre.searches _ fun c hc => lit_dotted hc

theorem allowPattern_glob (g : Glob) :
    allowPattern g.text = (dotted (globOf g.text)).flatMap atom := by
  refine replaceAll_glob (fun _ => rfl) (fun _ => rfl) (fun _ => rfl) fun c _ hone hdot hrun s => ?_
  exact Lib.ruleAt_none (by simp [Lib.NoRule, hone.symm, hdot.symm, hrun.symm]) s

theorem ipPattern_glob (g : Glob) :
    ipPattern g.text = (dotted (globOf g.text)).flatMap atom := by
  refine replaceAll_glob (fun _ => rfl) (fun _ => rfl) (fun _ => rfl) fun c _ hone hdot hrun s => ?_
  exact Lib.ruleAt_none (by simp [Lib.NoRule, hone.symm, hdot.symm, hrun.symm]) s

theorem userPattern_glob (g : Glob) :
    userPattern g.text = (dotted (globOf g.text)).flatMap atom := by
  refine replaceAll_glob (fun _ => rfl) (fun _ => rfl) (fun _ => rfl)
    fun c hc hone hdot hrun s => ?_
  have hcomma : c ≠ ',' := (g.chars c hc).ne (by decide)
  exact Lib.ruleAt_none (by simp [Lib.NoRule, hone.symm, hdot.symm, hrun.symm, hcomma.symm]) s

/-! ## Reading the lines -/

/-- A line without its blanks. -/
def Line.stripped : Line → Str
  | allowIp path addr => path.text ++ ':' :: ("allowip".toList ++ '=' :: addr.text)
  | denyIp path addr => path.text ++ ':' :: ("denyip".toList ++ '=' :: addr.text)
  | allowUser path names => path.text ++ ':' :: ("allowuser".toList ++ '=' :: names.text)

/-- The rule of a line. -/
def Line.Compiled (l : Line) (r : Rule) : Prop :=
  l.path.Compiled r.pattern ∧
    match l, r.level with
    | allowIp _ g, .allow test => g.Compiled test
    | denyIp _ g, .deny test => g.Compiled test
    | allowUser _ ns, .user value => value = ns.text
    | _, _ => False

theorem Glob.notMem (g : Glob) {c : Char} (h : ¬ GlobChar c) : c ∉ g.text :=
  fun hmem => h (g.chars c hmem)

/-- A line that begins with a glob is no comment, and is cut behind the glob and the type. -/
theorem readLine_glob (env : Env) (g : Glob) {type : Str} (htype : '=' ∉ type) (value : Str) :
    readLine env (g.text ++ ':' :: (type ++ '=' :: value)) = readRule env g.text type value := by
  have hhead : (g.text ++ ':' :: (type ++ '=' :: value)).head? ≠ some '#' := by
    have hhash : '#' ∉ g.text := g.notMem (by decide)
    intro h
    cases hg : g.text with
    | nil =>
      rw [hg] at h
      cases h
    | cons c t =>
      rw [hg] at h hhash
      exact hhash (List.mem_cons.mpr (Or.inl (Option.some.inj h).symm))
  have hskip : ¬ (g.text ++ ':' :: (type ++ '=' :: value) = [] ∨
      (g.text ++ ':' :: (type ++ '=' :: value)).head? = some '#') := by
    rw [or_iff_left hhead]
    simp
  rw [readLine, if_neg hskip, Lib.cut_char (g.notMem (by decide))]
  dsimp only
  rw [Lib.cut_char htype]

theorem readLine_stripped (hre : Documented env.regexp) (l : Line) :
    ∃ r, readLine env l.stripped = some [r] ∧ l.Compiled r := by
  cases l with
  | allowIp path addr =>
    obtain ⟨pattern, hpattern, hpath⟩ := glob_compiles hre path (allowPattern_glob path)
    obtain ⟨test, htest, haddr⟩ := glob_compiles hre addr (ipPattern_glob addr)
    refine ⟨⟨pattern, .allow test⟩, ?_, hpath, haddr⟩
    rw [Line.stripped, readLine_glob env path (by decide), readRule, if_pos rfl, hpattern, htest]
    rfl
  | denyIp path addr =>
    obtain ⟨pattern, hpattern, hpath⟩ := glob_compiles hre path (ipPattern_glob path)
    obtain ⟨test, htest, haddr⟩ := glob_compiles hre addr (ipPattern_glob addr)
    refine ⟨⟨pattern, .deny test⟩, ?_, hpath, haddr⟩
    rw [Line.stripped, readLine_glob env path (by decide), readRule, if_neg (by decide),
      if_pos rfl, hpattern, htest]
    rfl
  | allowUser path names =>
    obtain ⟨pattern, hpattern, hpath⟩ := glob_compiles hre path (userPattern_glob path)
    refine ⟨⟨pattern, .user names.text⟩, ?_, hpath, rfl⟩
    rw [Line.stripped, readLine_glob env path (by decide), readRule, if_neg (by decide),
      if_neg (by decide), if_pos rfl, hpattern]
    rfl

/-- A blank. -/
def isBlank (c : Char) : Bool := c = ' ' || c = '\t'

/-- Where there is no backslash, the blanks are left out. -/
theorem unblank_eq {s : Str} (h : '\\' ∉ s) : unblank s = s.filter fun c => !isBlank c := by
  induction s with
  | nil => rfl
  | cons c s ih =>
    rw [List.mem_cons, not_or] at h
    have hrest := ih h.2
    by_cases hspace : c = ' '
    · rw [hspace]
      exact (Lib.replaceAll_rule (r := ([' '], [])) rfl (List.cons_ne_nil _ _)).trans hrest
    by_cases htab : c = '\t'
    · rw [htab]
      exact (Lib.replaceAll_rule (r := (['\t'], [])) rfl (List.cons_ne_nil _ _)).trans hrest
    have hkeep : unblank (c :: s) = c :: unblank s := by
      refine Lib.replaceAll_keep (Lib.ruleAt_none ?_ s)
      simp [Lib.NoRule, Ne.symm hspace, Ne.symm htab, h.1]
    rw [hkeep, hrest]
    simp [isBlank, hspace, htab]

theorem Glob.not_blank (g : Glob) : ∀ c ∈ g.text, (!isBlank c) = true := by
  intro c hc
  have hspace : c ≠ ' ' := (g.chars c hc).ne (by decide)
  have htab : c ≠ '\t' := (g.chars c hc).ne (by decide)
  simp [isBlank, hspace, htab]

theorem Names.not_blank (ns : Names) : ∀ c ∈ ns.text, (!isBlank c) = true := by
  intro c hc
  have hchars := ns.chars c hc
  simp only [List.mem_cons, List.not_mem_nil, or_false, not_or] at hchars
  simp [isBlank, hchars]

theorem filter_text (l : Line) : l.text.filter (fun c => !isBlank c) = l.stripped := by
  cases l with
  | allowIp path addr =>
    rw [Line.text, List.filter_append, List.filter_append, List.filter_eq_self.mpr path.not_blank,
      List.filter_eq_self.mpr addr.not_blank, List.append_assoc]
    rfl
  | denyIp path addr =>
    rw [Line.text, List.filter_append, List.filter_append, List.filter_eq_self.mpr path.not_blank,
      List.filter_eq_self.mpr addr.not_blank, List.append_assoc]
    rfl
  | allowUser path names =>
    rw [Line.text, List.filter_append, List.filter_append, List.filter_eq_self.mpr path.not_blank,
      List.filter_eq_self.mpr names.not_blank, List.append_assoc]
    rfl

/-- A character that no line has. -/
theorem Line.not_mem_text (l : Line) {c : Char} (h : c = '\n' ∨ c = '\\') : c ∉ l.text := by
  have hglob : ∀ g : Glob, c ∉ g.text := by
    intro g hc
    have hchar := g.chars c hc
    rcases h with rfl | rfl
    · exact absurd hchar (by decide)
    · exact absurd hchar (by decide)
  have hnames : ∀ ns : Names, c ∉ ns.text := by
    intro ns hc
    have hchar := ns.chars c hc
    rcases h with rfl | rfl
    · exact hchar (by decide)
    · exact hchar (by decide)
  have hword :
      ∀ w ∈ [": allow ip=".toList, ": deny ip=".toList, ": allow user=".toList], c ∉ w := by
    rcases h with rfl | rfl
    · decide
    · decide
  intro hc
  cases l with
  | allowIp path addr =>
    rcases List.mem_append.mp hc with hc | hc
    · exact (List.mem_append.mp hc).elim (hglob path) (hword _ (by simp))
    · exact hglob addr hc
  | denyIp path addr =>
    rcases List.mem_append.mp hc with hc | hc
    · exact (List.mem_append.mp hc).elim (hglob path) (hword _ (by simp))
    · exact hglob addr hc
  | allowUser path names =>
    rcases List.mem_append.mp hc with hc | hc
    · exact (List.mem_append.mp hc).elim (hglob path) (hword _ (by simp))
    · exact hnames names hc

theorem unblank_secOf (lines : List Line) :
    unblank (secOf lines) = ['\n'].intercalate (lines.map Line.stripped) := by
  have hback : '\\' ∉ secOf lines := by
    intro h
    rcases Lib.mem_intercalate h with h | ⟨w, hw, h⟩
    · cases h
    · obtain ⟨l, -, rfl⟩ := List.mem_map.mp hw
      exact l.not_mem_text (Or.inr rfl) h
  rw [unblank_eq hback, secOf, Lib.filter_intercalate (by decide), List.map_map]
  exact congrArg _ (List.map_congr_left fun l _ => filter_text l)

theorem mapM_readLine (hre : Documented env.regexp) (lines : List Line) :
    ∃ rules, (lines.map Line.stripped).mapM (readLine env) = some (rules.map fun r => [r]) ∧
      List.Forall₂ Line.Compiled lines rules := by
  induction lines with
  | nil => exact ⟨[], rfl, .nil⟩
  | cons l ls ih =>
    obtain ⟨r, hr, hcompiled⟩ := readLine_stripped hre l
    obtain ⟨rules, hrules, hrest⟩ := ih
    refine ⟨r :: rules, ?_, .cons hcompiled hrest⟩
    rw [List.map_cons, List.mapM_cons, hr, hrules]
    rfl

/-- The rules of the lines. -/
theorem start_secOf (hre : Documented env.regexp) (lines : List Line) :
    ∃ rules, start env (secOf lines) = some rules ∧ List.Forall₂ Line.Compiled lines rules := by
  unfold start
  rw [unblank_secOf]
  cases lines with
  | nil => exact ⟨[], rfl, .nil⟩
  | cons l ls =>
    have hsplit : splitOn '\n' (['\n'].intercalate ((l :: ls).map Line.stripped)) =
        (l :: ls).map Line.stripped := by
      refine List.splitOn_intercalate '\n' (fun w hw h => ?_) (by simp)
      obtain ⟨l', -, rfl⟩ := List.mem_map.mp hw
      rw [← filter_text, List.mem_filter] at h
      exact l'.not_mem_text (Or.inl rfl) h.1
    obtain ⟨rules, hrules, hcompiled⟩ := mapM_readLine hre (l :: ls)
    refine ⟨rules, ?_, hcompiled⟩
    rw [hsplit, hrules]
    exact congrArg some (List.flatMap_singleton' rules)

/-! ## The meaning -/

/-- A rule agrees with its line where the globs are whole. -/
theorem agrees_iff {l : Line} {r : Rule} (h : l.Compiled r) {addr : Str} (hf : ∀ c ∈ f, Byte c)
    (haddr : ∀ c ∈ addr, Byte c) : l.Agrees f addr r ↔ l.Whole f addr := by
  obtain ⟨pattern, level⟩ := r
  obtain ⟨hpath, hlevel⟩ := h
  refine and_congr (agrees_iff_whole (hpath f hf)) ?_
  cases l with
  | allowIp path g =>
    cases level with
    | allow test => exact agrees_iff_whole (hlevel addr haddr)
    | deny test => exact False.elim hlevel
    | user value => exact False.elim hlevel
  | denyIp path g =>
    cases level with
    | allow test => exact False.elim hlevel
    | deny test => exact agrees_iff_whole (hlevel addr haddr)
    | user value => exact False.elim hlevel
  | allowUser path ns =>
    cases level with
    | allow test => exact False.elim hlevel
    | deny test => exact False.elim hlevel
    | user value => exact iff_of_true hlevel trivial

/-- Rules that agree with their lines decide alike. -/
theorem Line.Agrees.same {l : Line} {r : Rule} (h : l.Agrees f id.remoteaddr r) :
    (r.Grants f id ↔ l.Grants f id) ∧ (r.Stops f id ↔ l.Stops f id) := by
  obtain ⟨pattern, level⟩ := r
  obtain ⟨hpath, hlevel⟩ := h
  unfold Rule.Grants Rule.Stops Line.Grants Line.Stops
  rw [hpath]
  cases l with
  | allowIp path g =>
    cases level with
    | allow test => exact ⟨and_congr_right fun _ => hlevel, Iff.rfl⟩
    | deny test => exact False.elim hlevel
    | user value => exact False.elim hlevel
  | denyIp path g =>
    cases level with
    | allow test => exact False.elim hlevel
    | deny test => exact ⟨Iff.rfl, and_congr_right fun _ => hlevel⟩
    | user value => exact False.elim hlevel
  | allowUser path ns =>
    cases level with
    | allow test => exact False.elim hlevel
    | deny test => exact False.elim hlevel
    | user value =>
      obtain rfl := hlevel
      exact ⟨Iff.rfl, Iff.rfl⟩

/-- All rules agree with their lines where all globs are whole. -/
theorem all_agree_iff {lines : List Line} {rules : List Rule}
    (h : List.Forall₂ Line.Compiled lines rules) {addr : Str} (hf : ∀ c ∈ f, Byte c)
    (haddr : ∀ c ∈ addr, Byte c) :
    List.Forall₂ (Line.Agrees f addr) lines rules ↔ ∀ l ∈ lines, l.Whole f addr := by
  induction h with
  | nil => exact iff_of_true .nil fun l hl => absurd hl List.not_mem_nil
  | cons hone _ ih => rw [List.forall₂_cons, List.forall_mem_cons, agrees_iff hone hf haddr, ih]

/-- **The rules** mean what they should, for a path and a client, where no pattern fits in part or
by its dots alone, and only there. -/
theorem means_iff (hre : Documented env.regexp) (cfg : Config) (lines : List Line)
    (hf : ∀ c ∈ f, Byte c) (haddr : ∀ c ∈ id.remoteaddr, Byte c)
    (hexternal : id.remoteaddr ≠ "internal".toList) :
    Means env cfg lines f id ↔ ∀ l ∈ lines, l.Whole f id.remoteaddr := by
  obtain ⟨rules, hstart, hcompiled⟩ := start_secOf hre lines
  rw [← all_agree_iff hcompiled hf haddr]
  constructor
  · intro hand
    obtain ⟨rules', hstart', hagrees, -⟩ := hand
    obtain rfl := Option.some.inj (hstart.symm.trans hstart')
    exact hagrees
  · intro hagrees
    refine ⟨rules, hstart, hagrees, ?_⟩
    rw [notAllowed, if_neg hexternal, tryRules_none_iff]
    refine (reaches_congr ?_).symm
    exact hagrees.imp fun l r h => ⟨h.same.1.symm, h.same.2.symm⟩

/-- A client from outside. -/
def RequestID.stranger : RequestID :=
  { RequestID.deleting with method := "GET".toList, remoteaddr := "11.2.3.45".toList }

def plainEnv : Env := ⟨BaseServer.Seclevels.plainRegexp, []⟩

/-- "*: allow ip=1.2.3.4". -/
def oneAddress : Line := .allowIp ⟨"*".toList, by decide⟩ ⟨"1.2.3.4".toList, by decide⟩

theorem bytes_stranger : ∀ c ∈ RequestID.stranger.remoteaddr, Byte c := by
  show ∀ c ∈ "11.2.3.45".toList, Byte c
  decide

theorem means_iff_stranger :
    Means plainEnv Config.deleting [oneAddress] "page".toList RequestID.stranger ↔
      ∀ l ∈ [oneAddress], l.Whole "page".toList RequestID.stranger.remoteaddr :=
  means_iff BaseServer.Seclevels.plainRegexp_documented Config.deleting [oneAddress] (by decide)
    bytes_stranger (by decide)

/-- The address is matched in part, and the stranger is let in. -/
theorem stranger_let_in :
    ¬ Means plainEnv Config.deleting [oneAddress] "page".toList RequestID.stranger ∧
      ∃ rules, start plainEnv (secOf [oneAddress]) = some rules ∧
        notAllowed plainEnv Config.deleting rules "page".toList RequestID.stranger = none := by
  obtain ⟨rules, hstart, hcompiled⟩ :=
    start_secOf (show Documented plainEnv.regexp from BaseServer.Seclevels.plainRegexp_documented)
      [oneAddress]
  have hpath : ∀ c ∈ "page".toList, Byte c := by decide
  have hpart : FitsPart (dotted (globOf "1.2.3.4".toList)) "11.2.3.45".toList := by decide
  have hfits : ¬ Fits (globOf "1.2.3.4".toList) "11.2.3.45".toList := by decide
  refine ⟨?_, rules, hstart, ?_⟩
  · intro h
    obtain ⟨rules', hstart', hagrees, -⟩ := h
    obtain rfl := Option.some.inj (hstart.symm.trans hstart')
    have hwhole := (all_agree_iff hcompiled hpath bytes_stranger).mp hagrees
    exact hfits ((hwhole oneAddress List.mem_cons_self).2 hpart)
  · cases hcompiled with
    | @cons _ r _ _ hone hnil =>
      cases hnil
      obtain ⟨pattern, level⟩ := r
      obtain ⟨hpattern, hlevel⟩ := hone
      cases level with
      | allow test =>
        have hmatch : pattern "page".toList = true := (hpattern _ hpath).mpr (by decide)
        have htest : test "11.2.3.45".toList = true := (hlevel _ bytes_stranger).mpr hpart
        rw [notAllowed, if_neg (by decide), tryRules_none_iff, reaches_cons]
        exact Or.inl ⟨hmatch, htest⟩
      | deny test => exact False.elim hlevel
      | user value => exact False.elim hlevel

end Caudium.SecureFs
