import Caudium.Psp.Literals

/-!
# Pages that lose and repeat no text

`psp_to_blocks` keeps two places: `sp`, where it goes on searching, and `old_sp`, where the text
begins that is not in a block yet. At a tag both are moved behind it. At an escaped `<%` the text
before it becomes a block, but only `sp` is moved: the next block begins with the same text
again, or, at the end of the page, what follows is in no block. So the blocks are the page if and
only if no `<%` outside the tags is escaped (`lossless_iff`).
-/

namespace Caudium.Psp

open Lib (Str whileLoop whileLoop_enough runLoop runLoop_inv runLoop_live runLoop_stop runLoop_done
  Visits visits_inv)
open Http (slice)
open Scan (turn live init falls_turn)

variable {file realfile : Str}

/-! ## Tags, and the text between them -/

/-- The first `<%` from `b` on, escaped or not. -/
def FirstPair (f : Str) (b q : Nat) : Prop :=
  b ≤ q ∧ ['<', '%'] <+: f.drop q ∧ ∀ j, b ≤ j → j < q → ¬ ['<', '%'] <+: f.drop j

/-- The first end from `q` on that counts. -/
def FirstEnd (f : Str) (q p : Nat) : Prop :=
  q ≤ p ∧ EndsAt f p ∧ ∀ r, q ≤ r → r < p → ¬ EndsAt f r

/-- Every tag has an end. -/
def Closed (f : Str) : Prop := ∀ q, StartsAt f q → ∃ p, q ≤ p ∧ EndsAt f p

/-- Where text begins: at the start of the page, and behind a tag whose `<%` is the first one in
the text before it. -/
inductive TextAt (f : Str) : Nat → Prop
  | start : TextAt f 0
  | tag {b q p : Nat} (h : TextAt f b) (hfirst : FirstPair f b q) (hstart : StartsAt f q)
      (hend : FirstEnd f q p) : TextAt f (p + 2)

/-- The first `<%` of a text is escaped. -/
def EscapedOutside (f : Str) : Prop := ∃ b q, TextAt f b ∧ FirstPair f b q ∧ ¬ StartsAt f q

/-- The contents of the blocks, one behind the other. -/
def contentsOf (blocks : List Block) : Str := (blocks.map Block.contents).flatten

/-- Each Pike block of a page that is cut from `i` on reaches from a tag's start through its
end. -/
def Tagged (f : Str) : Nat → List Block → Prop
  | _, [] => True
  | i, b :: rest =>
    (b.kind = .pike → ∃ p, StartsAt f i ∧ FirstEnd f i p ∧ b.contents = slice f i (p + 2)) ∧
      Tagged f (i + b.contents.length) rest

/-- The blocks are the page, cut at its tags, and the text blocks render to their text. -/
structure Lossless (f : Str) (blocks : List Block) : Prop where
  whole : contentsOf blocks = f
  tagged : Tagged f 0 blocks
  literals : ∀ b ∈ blocks, b.kind = .text → b.RendersTo b.contents

/-! ## One turn -/

theorem findEndLoop_le {f : Str} {r : Nat} (hr : EndsAt f r) (n : Nat) :
    ∀ start, start ≤ r → findEndLoop f n start ≤ r + 1 := by
  induction n with
  | zero => exact fun start _ => Nat.zero_le _
  | succ n ih =>
    intro start hle
    rw [findEndLoop]
    split
    next => exact Nat.zero_le _
    next p hsome =>
      obtain ⟨hsp, hat, hbefore⟩ := searchFrom_some hsome
      have hpr : p ≤ r := by
        by_contra hlt
        exact hbefore r hle (by omega) hr.1
      split
      next hescaped =>
        have hne : p ≠ r := by
          intro h
          subst h
          exact hr.2 hescaped
        have hapart := ends_apart hat hr.1 (by omega)
        exact ih (start + 2) (by omega)
      next => exact Nat.succ_le_succ hpr

/-- `find_end` finds the first end that counts. -/
theorem findEnd_first {f : Str} {q r : Nat} (hle : q ≤ r) (hr : EndsAt f r) :
    ∃ p, FirstEnd f q p ∧ findEnd f q = p + 1 := by
  rcases findEnd_spec f q with ⟨p, hqp, hends, heq⟩ | ⟨hno, -⟩
  · refine ⟨p, ⟨hqp, hends, fun r' hqr hrp hends' => ?_⟩, heq⟩
    have hfirst := findEndLoop_le hends' f.length q hqr
    rw [← findEnd, heq] at hfirst
    omega
  · exact absurd hr (hno r hle)

/-- What a turn does on a page whose tags have ends. -/
inductive TurnSpec (file realfile : Str) (s s' : Scan) : Prop
  | last (hnone : ∀ j, s.sp ≤ j → ¬ ['<', '%'] <+: file.drop j) (hsp : s'.sp = file.length)
      (hcontents : ∃ added, s'.contents = s.contents ++ added ∧
        contentsOf added = slice file s.oldSp file.length ∧ ∀ b ∈ added, b.kind = .text)
  | tag {q p : Nat} (hfirst : FirstPair file s.sp q) (hstart : StartsAt file q)
      (hend : FirstEnd file q p) (hsp : s'.sp = p + 2) (hold : s'.oldSp = p + 2)
      (hcontents : ∃ text pike, s'.contents = s.contents ++ [text, pike] ∧ text.kind = .text ∧
        text.contents = slice file s.oldSp q ∧ pike.kind = .pike ∧
        pike.contents = slice file q (p + 2))
  | escaped {q : Nat} (hfirst : FirstPair file s.sp q) (hnot : ¬ StartsAt file q)
      (hsp : s'.sp = q + 2) (hold : s'.oldSp = s.oldSp)
      (hcontents : ∃ text, s'.contents = s.contents ++ [text] ∧ text.kind = .text ∧
        text.contents = slice file s.oldSp q)

theorem turn_spec (hclosed : Closed file) (s : Scan) :
    TurnSpec file realfile s (s.turn file realfile) := by
  unfold turn
  split
  next hnone =>
    refine .last (searchFrom_none hnone) ?_ ?_
    · dsimp only
      split <;> rfl
    · dsimp only
      by_cases hne : s.oldSp ≠ file.length
      · rw [if_pos hne]
        exact ⟨[_], rfl, List.append_nil _, fun b hb => by rw [List.mem_singleton.mp hb]⟩
      · rw [if_neg hne]
        refine ⟨[], (List.append_nil _).symm, ?_, fun b hb => nomatch hb⟩
        rw [not_not.mp hne, slice, List.drop_take, Nat.sub_self, List.take_zero]
        rfl
  next q hsome =>
    obtain ⟨hle, hat, hbefore⟩ := searchFrom_some hsome
    dsimp only
    by_cases hstart : q = 0 ∨ file[q - 1]? ≠ some '<'
    · obtain ⟨r, hqr, hr⟩ := hclosed q ⟨hat, hstart⟩
      obtain ⟨p, hfirst, heq⟩ := findEnd_first hqr hr
      rw [if_pos hstart, heq]
      exact .tag ⟨hle, hat, hbefore⟩ ⟨hat, hstart⟩ hfirst rfl rfl
        ⟨_, _, List.append_assoc .., rfl, rfl, rfl, rfl⟩
    · rw [if_neg hstart]
      exact .escaped ⟨hle, hat, hbefore⟩ (fun h => hstart h.2) rfl rfl ⟨_, rfl, rfl, rfl⟩

theorem FirstPair.unique {f : Str} {b q q' : Nat} (h : FirstPair f b q) (h' : FirstPair f b q') :
    q = q' := by
  rcases Nat.lt_trichotomy q q' with hlt | heq | hlt
  · exact absurd h.2.1 (h'.2.2 q h.1 hlt)
  · exact heq
  · exact absurd h'.2.1 (h.2.2 q' h'.1 hlt)

theorem FirstEnd.unique {f : Str} {q p p' : Nat} (h : FirstEnd f q p) (h' : FirstEnd f q p') :
    p = p' := by
  rcases Nat.lt_trichotomy p p' with hlt | heq | hlt
  · exact absurd h.2.1 (h'.2.2 p h.1 hlt)
  · exact heq
  · exact absurd h'.2.1 (h.2.2 p' h'.1 hlt)

/-! ## Blocks one behind the other -/

theorem contentsOf_append (bs cs : List Block) :
    contentsOf (bs ++ cs) = contentsOf bs ++ contentsOf cs := by
  rw [contentsOf, List.map_append, List.flatten_append]
  rfl

theorem contentsOf_cons (b : Block) (bs : List Block) :
    contentsOf (b :: bs) = b.contents ++ contentsOf bs := rfl

theorem tagged_append (f : Str) (bs cs : List Block) :
    ∀ i, Tagged f i (bs ++ cs) ↔ Tagged f i bs ∧ Tagged f (i + (contentsOf bs).length) cs := by
  induction bs with
  | nil => exact fun i => (and_iff_right trivial).symm
  | cons b bs ih =>
    intro i
    rw [List.cons_append, Tagged, Tagged, ih, contentsOf_cons, List.length_append, Nat.add_assoc,
      and_assoc]

/-- Text blocks need no tags. -/
theorem tagged_text (f : Str) (bs : List Block) (h : ∀ b ∈ bs, b.kind = .text) :
    ∀ i, Tagged f i bs := by
  induction bs with
  | nil => exact fun i => trivial
  | cons b bs ih =>
    intro i
    rw [List.forall_mem_cons] at h
    refine ⟨fun hpike => ?_, ih h.2 _⟩
    rw [h.1] at hpike
    cases hpike

theorem take_slice {f : Str} {i j : Nat} (h : i ≤ j) : f.take i ++ slice f i j = f.take j := by
  have htake : (f.take j).take i = f.take i := by
    rw [List.take_take, Nat.min_eq_left h]
  rw [slice, ← htake, List.take_append_drop]

theorem pair_lt {f : Str} {q : Nat} {a b : Char} (h : [a, b] <+: f.drop q) : q + 2 ≤ f.length := by
  have hlt := (List.getElem?_eq_some_iff.mp (pair_at.mp h).2).1
  omega

/-! ## Without escapes -/

/-- Everything before `sp` is in the blocks, and `sp` is where text begins. -/
structure Clean (f : Str) (s : Scan) : Prop where
  textAt : TextAt f s.sp
  old : s.oldSp = s.sp
  le : s.sp ≤ f.length
  whole : contentsOf s.contents = f.take s.sp
  tagged : Tagged f 0 s.contents

/-- The whole page is in the blocks. -/
structure Whole (f : Str) (s : Scan) : Prop where
  sp : s.sp = f.length
  whole : contentsOf s.contents = f
  tagged : Tagged f 0 s.contents

theorem clean_init (f : Str) : Clean f init where
  textAt := .start
  old := rfl
  le := Nat.zero_le _
  whole := rfl
  tagged := trivial

/-- A tag is added with the text before it. -/
theorem Clean.tag {s s' : Scan} (h : Clean file s) {q p : Nat} (hfirst : FirstPair file s.sp q)
    (hstart : StartsAt file q) (hend : FirstEnd file q p) (hsp : s'.sp = p + 2)
    (hold : s'.oldSp = p + 2)
    (hcontents : ∃ text pike, s'.contents = s.contents ++ [text, pike] ∧ text.kind = .text ∧
      text.contents = slice file s.oldSp q ∧ pike.kind = .pike ∧
      pike.contents = slice file q (p + 2)) : Clean file s' := by
  obtain ⟨text, pike, happ, htext, htextc, hpike, hpikec⟩ := hcontents
  have hp : p + 2 ≤ file.length := pair_lt hend.2.1.1
  have hqp : q ≤ p + 2 := Nat.le_trans hend.1 (Nat.le_add_right p 2)
  have hbefore : file.take s.sp ++ slice file s.oldSp q = file.take q := by
    rw [h.old]
    exact take_slice hfirst.1
  refine ⟨hsp ▸ .tag h.textAt hfirst hstart hend, hold.trans hsp.symm, hsp ▸ hp, ?_, ?_⟩
  · rw [happ, contentsOf_append, h.whole, contentsOf_cons, contentsOf_cons, htextc, hpikec, hsp,
      ← List.append_assoc, hbefore, show contentsOf [] = [] from rfl, List.append_nil]
    exact take_slice hqp
  · rw [happ, tagged_append]
    refine ⟨h.tagged, ⟨fun hkind => ?_, fun _ => ⟨p, ?_⟩, trivial⟩⟩
    · rw [htext] at hkind
      cases hkind
    · have hat : 0 + (contentsOf s.contents).length + text.contents.length = q := by
        rw [Nat.zero_add, ← List.length_append, h.whole, htextc, hbefore, List.length_take]
        omega
      rw [hat]
      exact ⟨hstart, hend, hpikec⟩

theorem clean_turn (hclosed : Closed file) (hnone : ¬ EscapedOutside file) {s : Scan}
    (h : Clean file s) :
    Clean file (s.turn file realfile) ∨ Whole file (s.turn file realfile) := by
  cases @turn_spec file realfile hclosed s with
  | last hno hsp hcontents =>
    obtain ⟨added, happ, hadded, htext⟩ := hcontents
    refine Or.inr ⟨hsp, ?_, ?_⟩
    · rw [happ, contentsOf_append, h.whole, hadded, h.old, take_slice h.le, List.take_length]
    · rw [happ, tagged_append]
      exact ⟨h.tagged, tagged_text file added htext _⟩
  | tag hfirst hstart hend hsp hold hcontents =>
    exact Or.inl (h.tag hfirst hstart hend hsp hold hcontents)
  | escaped hfirst hnot => exact absurd ⟨s.sp, _, h.textAt, hfirst, hnot⟩ hnone

theorem lossless_of_whole {s : Scan} (h : contentsOf s.contents = file)
    (htagged : Tagged file 0 s.contents) : Lossless file s.contents :=
  ⟨h, htagged, fun _ _ hkind => render_literals hkind⟩

/-! ## After an escape -/

/-- The text before an escaped `<%` at `q` is in the blocks, and `old_sp` is still at its
beginning `b`. -/
structure Stuck (f : Str) (s : Scan) (b q : Nat) : Prop where
  lt : b < q
  pair : ['<', '%'] <+: f.drop q
  no_pair : ¬ ['<', '%'] <+: f.drop b
  old : s.oldSp = b
  sp : s.sp = q + 2
  whole : contentsOf s.contents = f.take q

/-- The blocks are not a beginning of the page, or will not be one. -/
def Lost (f : Str) (s : Scan) : Prop :=
  (∃ b q, Stuck f s b q) ∨ ¬ contentsOf s.contents <+: f

/-- The text from `b` on again, where the page goes on with `<%`. -/
theorem again_not_prefix {f : Str} {b q e : Nat} (hlt : b < q) (he : q + 2 ≤ e)
    (hle : e ≤ f.length) (hpair : ['<', '%'] <+: f.drop q) (hno : ¬ ['<', '%'] <+: f.drop b)
    (rest : Str) : ¬ f.take q ++ (slice f b e ++ rest) <+: f := by
  intro hpre
  have hpre' : slice f b e ++ rest <+: f.drop q := by
    refine (List.prefix_append_right_inj (f.take q)).mp ?_
    rw [List.take_append_drop]
    exact hpre
  have hslice : slice f b e = (f.drop b).take (e - b) := List.drop_take ..
  have htwo : ['<', '%'] <+: slice f b e := by
    refine List.prefix_of_prefix_length_le hpair ((List.prefix_append _ _).trans hpre') ?_
    rw [hslice, List.length_take, List.length_drop]
    show 2 ≤ _
    omega
  refine hno (htwo.trans ?_)
  rw [hslice]
  exact List.take_prefix _ _

theorem lost_of_append {s s' : Scan} {added : List Block}
    (h : ¬ contentsOf s.contents <+: file) (happ : s'.contents = s.contents ++ added) :
    Lost file s' := by
  refine Or.inr fun hpre => h ?_
  rw [happ, contentsOf_append] at hpre
  exact (List.prefix_append _ _).trans hpre

theorem lost_turn (hclosed : Closed file) {s : Scan} (h : Lost file s) :
    Lost file (s.turn file realfile) := by
  rcases h with ⟨b, q, hstuck⟩ | hlost
  · -- whatever is added begins with the text at `b`
    have hagain : ∀ (e : Nat) (added : List Block) (rest : Str), q + 2 ≤ e → e ≤ file.length →
        (s.turn file realfile).contents = s.contents ++ added →
        contentsOf added = slice file s.oldSp e ++ rest → Lost file (s.turn file realfile) := by
      intro e added rest he hle happ hadded
      refine Or.inr ?_
      rw [happ, contentsOf_append, hstuck.whole, hadded, hstuck.old]
      exact again_not_prefix hstuck.lt he hle hstuck.pair hstuck.no_pair rest
    cases @turn_spec file realfile hclosed s with
    | last hno hsp hcontents =>
      obtain ⟨added, happ, hadded, -⟩ := hcontents
      exact hagain _ added [] (pair_lt hstuck.pair) (Nat.le_refl _) happ
        (hadded.trans (List.append_nil _).symm)
    | tag hfirst hstart hend hsp hold hcontents =>
      obtain ⟨text, pike, happ, -, htext, -, -⟩ := hcontents
      refine hagain _ _ pike.contents (hstuck.sp ▸ hfirst.1)
        (Nat.le_trans (Nat.le_add_right _ 2) (pair_lt hfirst.2.1)) happ ?_
      rw [contentsOf_cons, contentsOf_cons, htext, show contentsOf [] = [] from rfl,
        List.append_nil]
    | escaped hfirst hnot hsp hold hcontents =>
      obtain ⟨text, happ, -, htext⟩ := hcontents
      refine hagain _ _ [] (hstuck.sp ▸ hfirst.1)
        (Nat.le_trans (Nat.le_add_right _ 2) (pair_lt hfirst.2.1)) happ ?_
      rw [contentsOf_cons, htext, show contentsOf [] = [] from rfl]
  · cases @turn_spec file realfile hclosed s with
    | last hno hsp hcontents =>
      obtain ⟨added, happ, -, -⟩ := hcontents
      exact lost_of_append hlost happ
    | tag hfirst hstart hend hsp hold hcontents =>
      obtain ⟨text, pike, happ, -⟩ := hcontents
      exact lost_of_append hlost happ
    | escaped hfirst hnot hsp hold hcontents =>
      obtain ⟨text, happ, -⟩ := hcontents
      exact lost_of_append hlost happ

theorem Lost.ne {s : Scan} (h : Lost file s) : contentsOf s.contents ≠ file := by
  intro heq
  rcases h with ⟨b, q, hstuck⟩ | hlost
  · have hlen := congrArg List.length (heq.symm.trans hstuck.whole)
    have hq := pair_lt hstuck.pair
    rw [List.length_take] at hlen
    omega
  · exact hlost (heq ▸ List.prefix_refl _)

/-! ## Whole pages -/

/-- On a page whose tags have ends the loop stops. -/
theorem not_unclosed (h : Closed file) : ¬ Unclosed file := by
  intro hand
  obtain ⟨q, -, hstart, hno⟩ := hand
  obtain ⟨p, hqp, hends⟩ := h q hstart
  exact hno p hqp hends

/-- The state in which the loop ends. -/
def finalScan (file realfile : Str) : Scan :=
  runLoop (live file) (turn file realfile) (fun s => file.length - s.sp) (init.turn file realfile)

theorem pspToBlocks_final (h : Closed file) :
    pspToBlocks file realfile = some (finalScan file realfile).contents ∧
      (finalScan file realfile).live file = false := by
  have hfalls := falls_turn realfile (not_unclosed h)
  have hdone := runLoop_done hfalls (init.turn file realfile)
  have hrun := whileLoop_enough hfalls file.length (init.turn file realfile) (Nat.sub_le ..)
  refine ⟨?_, hdone⟩
  rw [pspToBlocks, hrun]
  exact if_neg (Bool.eq_false_iff.mp hdone)

theorem lossless_of_none (hclosed : Closed file) (hnone : ¬ EscapedOutside file) :
    Lossless file (finalScan file realfile).contents := by
  have hinv : Clean file (finalScan file realfile) ∨ Whole file (finalScan file realfile) := by
    refine runLoop_inv (P := fun s => Clean file s ∨ Whole file s) (fun s hlive hs => ?_)
      (clean_turn hclosed hnone (clean_init file))
    rcases hs with hclean | hwhole
    · exact clean_turn hclosed hnone hclean
    · -- at the end of the page the loop does not go on
      rw [live, decide_eq_true_iff, hwhole.sp] at hlive
      exact absurd hlive (Nat.lt_irrefl _)
  rcases hinv with hclean | hwhole
  · refine lossless_of_whole ?_ hclean.tagged
    have hstop := (@pspToBlocks_final file realfile hclosed).2
    rw [live, decide_eq_false_iff_not, Nat.not_lt] at hstop
    rw [hclean.whole, List.take_of_length_le hstop]
  · exact lossless_of_whole hwhole.whole hwhole.tagged

/-- The loop comes to every place where text begins. -/
theorem visits_textAt (hclosed : Closed file) {b : Nat} (h : TextAt file b) :
    ∃ s, Visits (live file) (turn file realfile) init s ∧ Clean file s ∧ s.sp = b := by
  induction h with
  | start => exact ⟨init, .here _, clean_init file, rfl⟩
  | @tag b q p h hfirst hstart hend ih =>
    obtain ⟨s, hvisits, hclean, rfl⟩ := ih
    have hlive : s.live file = true := by
      have hlt := pair_lt hfirst.2.1
      have hle := hfirst.1
      rw [live, decide_eq_true_iff]
      omega
    have hnext := hvisits.trans (.later hlive (.here _))
    cases @turn_spec file realfile hclosed s with
    | last hno hsp hcontents => exact absurd hfirst.2.1 (hno q hfirst.1)
    | tag hfirst' hstart' hend' hsp hold hcontents =>
      refine ⟨_, hnext, hclean.tag hfirst' hstart' hend' hsp hold hcontents, ?_⟩
      obtain rfl := hfirst.unique hfirst'
      rw [hsp, hend.unique hend']
    | escaped hfirst' hnot =>
      obtain rfl := hfirst.unique hfirst'
      exact absurd hstart hnot

/-- Where text begins a `<%` is not escaped. -/
theorem startsAt_of_textAt {b : Nat} (h : TextAt file b) (hpair : ['<', '%'] <+: file.drop b) :
    StartsAt file b := by
  refine ⟨hpair, ?_⟩
  cases h with
  | start => exact Or.inl rfl
  | @tag b q p h hfirst hstart hend =>
    -- the character before it is the last of a tag
    have hgt := (pair_at.mp hend.2.1.1).2
    refine Or.inr ?_
    rw [show p + 2 - 1 = p + 1 from rfl, hgt]
    decide

theorem lost_of_escaped (hclosed : Closed file) (h : EscapedOutside file) :
    Lost file (finalScan file realfile) := by
  obtain ⟨b, q, hb, hfirst, hnot⟩ := h
  obtain ⟨s, hvisits, hclean, rfl⟩ := @visits_textAt file realfile hclosed _ hb
  have hlen := pair_lt hfirst.2.1
  have hle := hfirst.1
  have hlive : s.live file = true := by
    rw [live, decide_eq_true_iff]
    omega
  have hlt : s.sp < q :=
    Nat.lt_of_le_of_ne hle fun heq => hnot (startsAt_of_textAt (heq ▸ hb) hfirst.2.1)
  have hstuck : Lost file (s.turn file realfile) := by
    cases @turn_spec file realfile hclosed s with
    | last hno hsp hcontents => exact absurd hfirst.2.1 (hno q hle)
    | tag hfirst' hstart' hend' hsp hold hcontents =>
      exact absurd (hfirst.unique hfirst' ▸ hstart') hnot
    | escaped hfirst' hnot' hsp hold hcontents =>
      obtain ⟨text, happ, -, htext⟩ := hcontents
      obtain rfl := hfirst.unique hfirst'
      refine Or.inl ⟨s.sp, q, hlt, hfirst.2.1, hfirst.2.2 _ (Nat.le_refl _) hlt,
        hold.trans hclean.old, hsp, ?_⟩
      rw [happ, contentsOf_append, hclean.whole, contentsOf_cons, htext, hclean.old,
        show contentsOf [] = [] from rfl, List.append_nil]
      exact take_slice hle
  have hinit : init.live file = true := by
    rw [live, decide_eq_true_iff]
    show 0 < file.length
    omega
  have hfalls := falls_turn realfile (not_unclosed hclosed)
  have hfinal : finalScan file realfile = runLoop (live file) (turn file realfile)
      (fun s => file.length - s.sp) (s.turn file realfile) := by
    rw [finalScan, ← runLoop_live hfalls hinit, Lib.runLoop_visits hfalls hvisits,
      runLoop_live hfalls hlive]
  rw [hfinal]
  exact runLoop_inv (fun t _ ht => lost_turn hclosed ht) hstuck

/-- **When a page loses and repeats no text.** On every page whose tags have ends the blocks are
the page again, cut at its tags, and render to it, if and only if the page has no escaped `<%`
outside its tags. -/
theorem lossless_iff (file realfile : Str) (hclosed : Closed file) :
    (∃ blocks, pspToBlocks file realfile = some blocks ∧ Lossless file blocks) ↔
      ¬ EscapedOutside file := by
  have hblocks := (@pspToBlocks_final file realfile hclosed).1
  constructor
  · intro h hescaped
    obtain ⟨blocks, hsome, hlossless⟩ := h
    rw [hblocks] at hsome
    obtain rfl := Option.some.inj hsome
    exact (lost_of_escaped hclosed hescaped).ne hlossless.whole
  · intro hnone
    exact ⟨_, hblocks, lossless_of_none hclosed hnone⟩

/-- A page with a text and a tag. -/
theorem tag_lossless : ∃ blocks, pspToBlocks "a<%1%>".toList [] = some blocks ∧
    Lossless "a<%1%>".toList blocks := by
  have hlen : "a<%1%>".toList.length = 6 := rfl
  refine (lossless_iff "a<%1%>".toList [] fun q hstart => ?_).mpr ?_
  · have hlt := hstart.lt
    exact ⟨4, by omega, by decide, by decide⟩
  · intro h
    obtain ⟨b, q, -, ⟨-, hpair, -⟩, hnot⟩ := h
    refine hnot ⟨hpair, Or.inr ?_⟩
    have hlt := pair_lt hpair
    have hq : q = 1 := by
      have hall : ∀ q < 5, ['<', '%'] <+: "a<%1%>".toList.drop q → q = 1 := by decide
      exact hall q (by omega) hpair
    rw [hq]
    decide

/-- The text "a<" before an escaped start is written twice. -/
theorem escaped_page_repeats :
    ¬ ∀ file realfile : Str, Closed file →
      ∃ blocks, pspToBlocks file realfile = some blocks ∧ Lossless file blocks := by
  intro h
  obtain ⟨blocks, hblocks, hlossless⟩ := h "a<<%b".toList [] (by
    intro q hstart
    have hlt := hstart.lt
    have hlen : "a<<%b".toList.length = 5 := rfl
    have hall : ∀ q < 4, ['<', '%'] <+: "a<<%b".toList.drop q →
        ¬ (q = 0 ∨ "a<<%b".toList[q - 1]? ≠ some '<') := by decide
    exact absurd hstart.2 (hall q (by omega) hstart.1))
  have hcontents : pspToBlocks "a<<%b".toList [] =
      some [⟨.text, "a<".toList, [], 1, 1⟩, ⟨.text, "a<<%b".toList, [], 1, 1⟩] := by decide
  rw [hcontents] at hblocks
  have hwhole := hlossless.whole
  rw [← Option.some.inj hblocks] at hwhole
  exact absurd hwhole (by decide)

end Caudium.Psp
