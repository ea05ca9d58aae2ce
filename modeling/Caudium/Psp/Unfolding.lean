import Caudium.Lib.Runs
import Caudium.Lib.Unfold
import Caudium.Psp.Compiler

/-!
# What a page comes to, and what the compiler makes of it

Without the guard a page is its blocks with each include directive unfolded: `Page.Unfolds` says
what that comes to, and after how many directives. The compiler agrees with it as long as the
directives it has met on all pages so far leave room for those of the page
(`renderPsp_counted`). A fresh compiler has room for `maxIncludes + 1` of them; one that psp.pike
has used before has less. So a call is answered as a fresh compiler answers it, and ends, exactly
if the page does not need more than what is left, or needs more than a fresh compiler has, and
does not come to a tag that is not closed (`independent_iff`).
-/

namespace Caudium.Psp

open Lib (Str Reaction Unfolds Within within_nil within_put within_stops within_broken
  within_refused within_opens Always EachStep always_iff_eachStep eachStep_of_forall)

/-- The blocks of an included page, none if there is no such file. -/
def includedBlocks (site : Site) (exp : Str) : Except Stop (List Block) :=
  match readInclude site exp with
  | .error stop => .error stop
  | .ok x => .ok (x.getD [])

/-- What a block does to a page, the guard left out. -/
def Block.reaction (site : Site) (b : Block) : Reaction Block Output Stop :=
  if b.getType = .directive then
    match splitDirective (b.inner 3) with
    | .error fault => .stops (.thrown fault)
    | .ok (keyword, exp) =>
      if keyword = "include".toList then .opens (includedBlocks site exp)
      else if keyword = "content-type".toList then
        match processContenttype exp with
        | .error stop => .stops stop
        | .ok x => .put fun out => (x.getD []).foldl Output.add out
      else .stops (.thrown (unknownDirective keyword))
  else .put fun out => out.add b

/-- The directives a fresh compiler lets through. -/
def allowance : Nat := maxIncludes + 1

/-- What a page comes to, and the number of include directives met on the way. -/
def Page.Unfolds (site : Site) (page : Page) (n : Nat) (r : Except Stop Str) : Prop :=
  match pspToBlocks page.code page.realfile with
  | none => n = 0 ∧ r = .error .never
  | some contents => ∃ r', Lib.Unfolds (Block.reaction site) contents
      { pikescript := [], header := [] } n r' ∧ r = r'.map Output.script

/-! ## One block -/

section

variable {site : Site} {nested : Compiler → List Block → Output → Compiler × Except Stop Output}

/-- Blocks without a directive among them are added one after the other. -/
theorem renderBlocks_plain (c : Compiler) (bs : List Block) (out : Output)
    (h : ∀ b ∈ bs, b.getType ≠ .directive) :
    renderBlocks site nested c bs out = (c, .ok (bs.foldl Output.add out)) := by
  induction bs generalizing out with
  | nil => rfl
  | cons b bs ih =>
    rw [renderBlocks, if_neg (h b List.mem_cons_self), List.foldl_cons]
    exact ih (out.add b) fun b' hb' => h b' (List.mem_cons_of_mem b hb')

/-- A content type is set by a piece of the script. -/
theorem processContenttype_plain {exp : Str} {x : Option (List Block)}
    (h : processContenttype exp = .ok x) :
    ∃ bs, x = some bs ∧ ∀ b ∈ bs, b.getType ≠ .directive := by
  unfold processContenttype at h
  split at h
  · cases h
  · obtain rfl := Except.ok.inj h
    refine ⟨_, rfl, fun b hb => ?_⟩
    rw [List.mem_singleton] at hb
    subst hb
    rw [Block.getType]
    simp [List.cons_prefix_cons]

/-! ## The loop and the recursion -/

/-- A run of the compiler from a count to a count. -/
abbrev Counted (site : Site) (c : Compiler) (bs : List Block) (out : Output)
    (r : Compiler × Except Stop Output) : Prop :=
  Within (Block.reaction site) allowance (.thrown tooManyIncludes) c.includes bs out
    r.1.includes r.2

/-- The rest of the blocks, where an include directive stands in front of them. -/
theorem counted_include {least : Nat} {c : Compiler} {b : Block} {bs : List Block} {out : Output}
    {exp : Str} (hb : b.reaction site = .opens (includedBlocks site exp))
    (hnested : ∀ c bs out, least ≤ c.includes → c.includes ≤ allowance →
      Counted site c bs out (nested c bs out))
    (ih : ∀ c out, least ≤ c.includes + 1 → c.includes ≤ allowance →
      Counted site c bs out (renderBlocks site nested c bs out))
    (hleast : least ≤ c.includes + 1) (hc : c.includes ≤ allowance) :
    Counted site c (b :: bs) out
      (match c.processInclude site exp with
      | (c, .error stop) => (c, .error stop)
      | (c, .ok none) => renderBlocks site nested c bs out
      | (c, .ok (some ren)) =>
        match nested c ren out with
        | (c, .error stop) => (c, .error stop)
        | (c, .ok out) => renderBlocks site nested c bs out) := by
  rw [Compiler.processInclude]
  by_cases hfull : c.includes > maxIncludes
  · rw [if_pos hfull]
    exact within_refused hb (Nat.le_antisymm hc hfull)
  · rw [if_neg hfull]
    have hroom : c.includes < allowance := Nat.lt_succ_of_le (Nat.le_of_not_lt hfull)
    rw [includedBlocks] at hb
    cases hread : readInclude site exp with
    | error stop =>
      rw [hread] at hb
      exact within_broken hb hroom
    | ok x =>
      rw [hread] at hb
      cases x with
      | none =>
        -- no such file: nothing takes the place of the directive
        exact within_opens hb (ih { c with includes := c.includes + 1 } out
          (Nat.le_succ_of_le hleast) hroom)
      | some ren =>
        have hren := hnested { c with includes := c.includes + 1 } ren out hleast hroom
        dsimp only
        cases hn : nested { c with includes := c.includes + 1 } ren out with
        | mk c₁ r =>
          rw [hn] at hren
          cases r with
          | error stop => exact within_opens hb hren.append_error
          | ok out₁ =>
            obtain ⟨hle, hmax⟩ := hren.le
            dsimp only at hle hmax
            exact within_opens hb (hren.append (ih c₁ out₁ (by omega) hmax))

/-- The `foreach` follows the unfolding if the calls it makes do. -/
theorem renderBlocks_counted {least : Nat}
    (hplain : ∀ c bs out, (∀ b ∈ bs, b.getType ≠ .directive) →
      nested c bs out = (c, .ok (bs.foldl Output.add out)))
    (hnested : ∀ c bs out, least ≤ c.includes → c.includes ≤ allowance →
      Counted site c bs out (nested c bs out)) (bs : List Block) :
    ∀ c out, least ≤ c.includes + 1 → c.includes ≤ allowance →
      Counted site c bs out (renderBlocks site nested c bs out) := by
  induction bs with
  | nil => exact fun c out _ hc => within_nil hc
  | cons b bs ih =>
    intro c out hleast hc
    have hb := Block.reaction.eq_def site b
    rw [renderBlocks]
    by_cases hdir : b.getType = .directive
    · rw [if_pos hdir] at hb ⊢
      rw [Compiler.parseDirective]
      cases hsplit : splitDirective (b.inner 3) with
      | error fault =>
        rw [hsplit] at hb
        exact within_stops hb hc
      | ok found =>
        obtain ⟨keyword, exp⟩ := found
        rw [hsplit] at hb
        dsimp only at hb ⊢
        by_cases hinclude : keyword = "include".toList
        · rw [if_pos hinclude] at hb ⊢
          exact counted_include hb hnested ih hleast hc
        · rw [if_neg hinclude] at hb ⊢
          by_cases htype : keyword = "content-type".toList
          · rw [if_pos htype] at hb ⊢
            cases hset : processContenttype exp with
            | error stop =>
              rw [hset] at hb
              exact within_stops hb hc
            | ok x =>
              obtain ⟨ren, rfl, hren⟩ := processContenttype_plain hset
              rw [hset] at hb
              dsimp only
              rw [hplain c ren out hren]
              exact within_put hb (ih c _ hleast hc)
          · rw [if_neg htype] at hb ⊢
            exact within_stops hb hc
    · rw [if_neg hdir] at hb ⊢
      exact within_put hb (ih c (out.add b) hleast hc)

end

/-- `render_psp` follows the unfolding of the blocks, and the depth it is given is enough. -/
theorem renderPsp_counted (site : Site) (depth : Nat) :
    ∀ c bs out, c.includes ≤ allowance → allowance + 2 ≤ c.includes + depth →
      Counted site c bs out (renderPsp site depth c bs out) := by
  induction depth with
  | zero =>
    intro c bs out hc hdepth
    omega
  | succ depth ih =>
    intro c bs out hc hdepth
    -- there is one level left for a content type
    obtain ⟨level, rfl⟩ : ∃ level, depth = level + 1 := ⟨depth - 1, by omega⟩
    have hnested : ∀ c bs out, allowance + 2 - (level + 1) ≤ c.includes → c.includes ≤ allowance →
        Counted site c bs out (renderPsp site (level + 1) c bs out) :=
      fun c bs out hleast hc => ih c bs out hc (by omega)
    exact renderBlocks_counted (fun c bs out h => renderBlocks_plain c bs out h) hnested bs c out
      (by omega) hc

/-! ## The errors a page comes to -/

/-- The errors of the page's own making. -/
def Stop.Own (stop : Stop) : Prop :=
  stop = .never ∨ ∃ fault, stop = .thrown fault ∧ fault ≠ tooManyIncludes

theorem unknownDirective_ne (keyword : Str) : unknownDirective keyword ≠ tooManyIncludes := by
  intro h
  have hfifth := congrArg (·[4]?) (Fault.generic.inj h)
  simp at hfifth

theorem readInclude_own {site : Site} {exp : Str} {stop : Stop}
    (h : readInclude site exp = .error stop) : stop.Own := by
  unfold readInclude at h
  split at h
  · obtain rfl := Except.error.inj h
    exact Or.inr ⟨_, rfl, by decide⟩
  · obtain rfl := Except.error.inj h
    exact Or.inr ⟨_, rfl, by decide⟩
  · dsimp only at h
    split at h
    next message heq =>
      obtain rfl := Except.error.inj h
      exact Or.inr ⟨_, rfl, by simp [tooManyIncludes]⟩
    · cases h
    · split at h
      · obtain rfl := Except.error.inj h
        exact Or.inl rfl
      · cases h

theorem splitDirective_error {exp : Str} {fault : Fault} (h : splitDirective exp = .error fault) :
    fault = directiveFormat := by
  unfold splitDirective at h
  dsimp only at h
  split at h
  · exact (Except.error.inj h).symm
  · split at h
    · cases h
    · exact (Except.error.inj h).symm

theorem processContenttype_error {exp : Str} {stop : Stop}
    (h : processContenttype exp = .error stop) : stop = .thrown contentTypeFormat := by
  unfold processContenttype at h
  split at h
  · exact (Except.error.inj h).symm
  · cases h

theorem reaction_own {site : Site} {b : Block} {stop : Stop}
    (h : b.reaction site = .stops stop ∨ b.reaction site = .opens (.error stop)) : stop.Own := by
  have hstops : ∀ {s : Stop}, s.Own →
      (Reaction.stops s : Reaction Block Output Stop) = .stops stop ∨
        (Reaction.stops s : Reaction Block Output Stop) = .opens (.error stop) → stop.Own := by
    intro s hs hor
    obtain h | h := hor
    · exact Reaction.stops.inj h ▸ hs
    · cases h
  unfold Block.reaction at h
  split at h
  · split at h
    next fault hsplit =>
      rw [splitDirective_error hsplit] at h
      exact hstops (Or.inr ⟨_, rfl, by decide⟩) h
    next keyword exp hsplit =>
      split at h
      · rcases h with h | h
        · cases h
        · rw [includedBlocks] at h
          split at h
          next s hread =>
            obtain rfl := Except.error.inj (Reaction.opens.inj h)
            exact readInclude_own hread
          · cases h
      · split at h
        · split at h
          next s hset =>
            rw [processContenttype_error hset] at h
            exact hstops (Or.inr ⟨_, rfl, by decide⟩) h
          · rcases h with h | h
            · cases h
            · cases h
        · exact hstops (Or.inr ⟨_, rfl, unknownDirective_ne keyword⟩) h
  · rcases h with h | h
    · cases h
    · cases h

/-! ## Pages -/

section

variable {site : Site} {page : Page} {c : Compiler}

theorem Page.Unfolds.unique {n n' : Nat} {r r' : Except Stop Str} (h : page.Unfolds site n r)
    (h' : page.Unfolds site n' r') : n = n' ∧ r = r' := by
  unfold Page.Unfolds at h h'
  cases hblocks : pspToBlocks page.code page.realfile with
  | none =>
    rw [hblocks] at h h'
    exact ⟨h.1.trans h'.1.symm, h.2.trans h'.2.symm⟩
  | some contents =>
    rw [hblocks] at h h'
    obtain ⟨x, hx, rfl⟩ := h
    obtain ⟨x', hx', rfl⟩ := h'
    obtain ⟨rfl, rfl⟩ := Lib.Unfolds.unique hx hx'
    exact ⟨rfl, rfl⟩

theorem Page.Unfolds.error_own {n : Nat} {stop : Stop} (h : page.Unfolds site n (.error stop)) :
    stop.Own := by
  unfold Page.Unfolds at h
  split at h
  · exact Or.inl (Except.error.inj h.2)
  · obtain ⟨x, hx, hmap⟩ := h
    cases x with
    | error e =>
      obtain rfl := Except.error.inj hmap
      obtain ⟨b, hb⟩ := hx.error_of_item
      exact reaction_own hb
    | ok out => cases hmap

theorem parsePsp_le (hc : c.includes ≤ allowance) :
    (c.parsePsp site page.code page.realfile).1.includes ≤ allowance := by
  unfold Compiler.parsePsp
  split
  · exact hc
  next contents heq =>
    have hrun := renderPsp_counted site maxDepth c contents { pikescript := [], header := [] } hc
      (Nat.le_add_left ..)
    split
    next hr =>
      rw [hr] at hrun
      exact hrun.le.2
    next hr =>
      rw [hr] at hrun
      exact hrun.le.2

/-- With room for its directives a page is compiled to what it comes to. -/
theorem parsePsp_eq_of_le {n : Nat} {r : Except Stop Str} (hu : page.Unfolds site n r)
    (hn : c.includes + n ≤ allowance) :
    (c.parsePsp site page.code page.realfile).2 = r := by
  unfold Page.Unfolds at hu
  unfold Compiler.parsePsp
  cases hblocks : pspToBlocks page.code page.realfile with
  | none =>
    rw [hblocks] at hu
    exact hu.2.symm
  | some contents =>
    rw [hblocks] at hu
    obtain ⟨x, hx, rfl⟩ := hu
    have hrun := renderPsp_counted site maxDepth c contents { pikescript := [], header := [] }
      (by omega) (Nat.le_add_left ..)
    dsimp only
    split
    next hr =>
      rw [hr] at hrun
      obtain rfl := hrun.eq_of_le hx hn
      rfl
    next hr =>
      rw [hr] at hrun
      obtain rfl := hrun.eq_of_le hx hn
      rfl

/-- Without, there are too many. -/
theorem parsePsp_full_of_lt (hc : c.includes ≤ allowance)
    (hall : ∀ n r, page.Unfolds site n r → allowance < c.includes + n) :
    (c.parsePsp site page.code page.realfile).2 = .error (.thrown tooManyIncludes) := by
  unfold Page.Unfolds at hall
  unfold Compiler.parsePsp
  cases hblocks : pspToBlocks page.code page.realfile with
  | none =>
    rw [hblocks] at hall
    have hlt := hall 0 _ ⟨rfl, rfl⟩
    omega
  | some contents =>
    rw [hblocks] at hall
    have hrun := renderPsp_counted site maxDepth c contents { pikescript := [], header := [] } hc
      (Nat.le_add_left ..)
    have hfull := hrun.full_of_lt fun n r hu => hall n _ ⟨r, hu, rfl⟩
    dsimp only
    split
    next hr =>
      rw [hr] at hfull
      rw [Except.error.inj hfull]
    next hr =>
      rw [hr] at hfull
      cases hfull

end

/-! ## One call -/

/-- A call ends, with code or with an error that is thrown. -/
def Ends (r : Except Stop Str) : Prop := ∀ stop, r = .error stop → ∃ fault, stop = .thrown fault

/-- What a fresh compiler answers. -/
def fresh (site : Site) (page : Page) : Except Stop Str :=
  (Compiler.new.parsePsp site page.code page.realfile).2

theorem fresh_eq_of_le {site : Site} {page : Page} {n : Nat} {r : Except Stop Str}
    (hu : page.Unfolds site n r) (hn : n ≤ allowance) : fresh site page = r :=
  parsePsp_eq_of_le hu (Nat.le_trans (Nat.le_of_eq (Nat.zero_add n)) hn)

/-- If the page comes to something within what a fresh compiler lets through, it does not come to
a tag that is not closed, and there is room for it behind `met` directives. -/
def HasRoom (site : Site) (met : Nat) (page : Page) : Prop :=
  ∀ n r, page.Unfolds site n r → n ≤ allowance → r ≠ .error .never ∧ met + n ≤ allowance

theorem parsePsp_fresh_iff {site : Site} {page : Page} {c : Compiler}
    (hc : c.includes ≤ allowance) :
    (c.parsePsp site page.code page.realfile).2 = fresh site page ∧ Ends (fresh site page) ↔
      HasRoom site c.includes page := by
  constructor
  · intro hand n r hu hn
    obtain ⟨heq, hends⟩ := hand
    have hfresh : fresh site page = r := fresh_eq_of_le hu hn
    refine ⟨?_, Nat.le_of_not_lt fun hlt => ?_⟩
    · intro hcase
      subst hcase
      obtain ⟨fault, hfault⟩ := hends .never hfresh
      cases hfault
    · -- it would be refused, and that is nothing the page comes to
      have hall : ∀ n' r', page.Unfolds site n' r' → allowance < c.includes + n' := by
        intro n' r' hu'
        obtain ⟨rfl, -⟩ := hu.unique hu'
        exact hlt
      have hfull := parsePsp_full_of_lt hc hall
      rw [heq, hfresh] at hfull
      subst hfull
      rcases hu.error_own with hnever | ⟨fault, hfault, hne⟩
      · cases hnever
      · exact hne (Stop.thrown.inj hfault).symm
  · intro h
    by_cases hu : ∃ n r, page.Unfolds site n r ∧ n ≤ allowance
    · obtain ⟨n, r, hu, hn⟩ := hu
      obtain ⟨hne, hroom⟩ := h n r hu hn
      have hfresh : fresh site page = r := fresh_eq_of_le hu hn
      refine ⟨(parsePsp_eq_of_le hu hroom).trans hfresh.symm, fun stop hstop => ?_⟩
      rw [hfresh] at hstop
      subst hstop
      rcases hu.error_own with rfl | ⟨fault, rfl, -⟩
      · exact absurd rfl hne
      · exact ⟨fault, rfl⟩
    · have hall : ∀ k n r, page.Unfolds site n r → allowance < k + n := by
        intro k n r hu'
        have hlt : allowance < n := Nat.lt_of_not_le fun hn => hu ⟨n, r, hu', hn⟩
        omega
      have hfresh : fresh site page = .error (.thrown tooManyIncludes) :=
        parsePsp_full_of_lt (Nat.zero_le _) (hall _)
      refine ⟨(parsePsp_full_of_lt hc (hall _)).trans hfresh.symm, fun stop hstop => ?_⟩
      rw [hfresh] at hstop
      exact ⟨tooManyIncludes, (Except.error.inj hstop).symm⟩

/-! ## Runs -/

namespace PspModule

/-- A page comes in. -/
def step (site : Site) (m : PspModule) (page : Page) : Option PspModule :=
  some (m.parsePsp site page)

/-- The number of directives the module's compiler has met. -/
def met (m : PspModule) : Nat := (m.compiler.getD Compiler.new).includes

/-- The last call was answered as a fresh compiler answers it, and that comes to an end. -/
def Independent (site : Site) (m : PspModule) : Prop :=
  ∀ page r, m.last = some (page, r) → r = fresh site page ∧ Ends (fresh site page)

/-- The calls are independent of each other, and end, exactly if each of them has room. -/
theorem independent_iff (site : Site) (pages : List Page) :
    Always (step site) (Independent site) init pages ↔
      EachStep (step site) (fun m page => HasRoom site m.met page) init pages := by
  refine always_iff_eachStep (I := fun m => m.met ≤ allowance) (H := fun _ _ => True)
    (fun m page h => nomatch h) ?_ ?_ pages init (Nat.zero_le _) (fun page r h => nomatch h)
    (eachStep_of_forall (fun _ _ => trivial) pages init)
  · intro m page m' hm _ _ _ hstep
    obtain rfl := Option.some.inj hstep
    exact parsePsp_le hm
  · intro m page m' hm _ _ hstep
    obtain rfl := Option.some.inj hstep
    have hcall : Independent site (m.parsePsp site page) ↔
        ((m.compiler.getD Compiler.new).parsePsp site page.code page.realfile).2 =
          fresh site page ∧ Ends (fresh site page) := by
      constructor
      · exact fun h => h page _ rfl
      · intro h page' r hlast
        obtain ⟨rfl, rfl⟩ := Prod.mk.inj (Option.some.inj hlast)
        exact h
    exact hcall.trans (parsePsp_fresh_iff hm)

/-- A file that includes the next one twice. -/
def twice (name : Str) : Str :=
  "<%@include file=\"".toList ++ name ++ "\"%><%@include file=\"".toList ++ name ++ "\"%>".toList

/-- Files 1 to 4 include the next one twice; 5 is empty. -/
def treeSite : Site where
  documentRoot := []
  appendPath root name := root ++ '/' :: name
  readFile path :=
    if path = "/1".toList then .ok (some (twice "/2".toList))
    else if path = "/2".toList then .ok (some (twice "/3".toList))
    else if path = "/3".toList then .ok (some (twice "/4".toList))
    else if path = "/4".toList then .ok (some (twice "/5".toList))
    else if path = "/5".toList then .ok (some [])
    else .ok none

/-- A page with 62 include directives in all. -/
def treePage : Page := { code := twice "/1".toList, realfile := "/p.psp".toList }

/-- The second call for one page finds 62 directives counted, and the page's own 62 are more than
is left. And there are pages that are never done: two characters after the first are enough. -/
theorem second_call_differs :
    ¬ Always (step treeSite) (Independent treeSite) init [treePage, treePage] ∧
      fresh treeSite { code := "a<%".toList, realfile := [] } = .error .never := by
  refine ⟨fun h => ?_, by decide +kernel⟩
  have hsecond : Independent treeSite
      ((init.parsePsp treeSite treePage).parsePsp treeSite treePage) := (h.2 _ rfl).2 _ rfl
  have hsame := (hsecond treePage _ rfl).1
  have hfresh : (fresh treeSite treePage).isOk = true := by decide +kernel
  rw [← hsame] at hfresh
  revert hfresh
  decide +kernel

end PspModule

end Caudium.Psp
