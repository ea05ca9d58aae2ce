import Caudium.BaseServer.ModuleCaches
import Caudium.BaseServer.Registered

/-!
# When no cache has a disabled module

After `disable_module` has cleared a cache, the module can come back into it in two
ways: a request that was putting it together has the module in hand, or a request
reads a list that the module has not been taken out of. `Careful` excludes the two,
and then no cache has the module any more when `disable_module` returns
(`careful_clean`). After the return no list has it (`Listed`), so nothing is asked of
the requests from then on.
-/

namespace Caudium.BaseServer

open Lib (Str Always EachStep runFrom always_iff_visited always_of_step inv_of_runFrom)

variable {d : Disabling} {s s' : Shared}

/-- The request will put the module into the cache of the flag, or has it there already. -/
def Phase.holds (d : Disabling) (f : Flag) : Phase → Prop
  | .idle | .missing _ => False
  | .level g _ built => g = f ∧ d.me ∈ built
  | .item g _ built found rest =>
    g = f ∧ (d.me ∈ built ∨ d.me ∈ found ∨ d.takes f d.me = true ∧ d.me ∈ rest)

/-- No cache has the module when `disable_module` has returned. -/
def Clean (d : Disabling) (s : Shared) : Prop :=
  s.todo = [] → ∀ f ∈ requestFlags, ∀ c, s.caches f = some c → d.me ∉ c

/-- The condition on a step: a cache is cleared when no request has the module in hand for
it, and no list is read after that which has the module, if it goes into the cache. -/
def Careful (d : Disabling) (s : Shared) : ThreadStep → Prop
  | .disable => ∀ f, s.todo.head? = some (.clear f) → ∀ t, ¬ (s.threads t).holds d f
  | .call _ _ => True
  | .run t _ => ∀ f ∈ requestFlags, ∀ n built, s.threads t = .level f (n + 1) built →
      .clear f ∉ s.todo → d.takes f d.me = true → d.me ∉ s.lists f n

/-- A cache that is cleared has not got the module since, and gets it from no request. -/
def Cleared (d : Disabling) (s : Shared) : Prop :=
  ∀ f ∈ requestFlags, .clear f ∉ s.todo →
    (∀ c, s.caches f = some c → d.me ∉ c) ∧ ∀ t, ¬ (s.threads t).holds d f

/-- A list that has the module is one that it is still to be removed from. -/
def Listed (d : Disabling) (s : Shared) : Prop :=
  ∀ f ∈ requestFlags, ∀ pr, d.me ∈ s.lists f pr → .remove f pr ∈ s.todo

/-! ## A step of a request -/

theorem setThread_cleared (h : Cleared d s) (t : Nat) {ph : Phase}
    (hph : ∀ f ∈ requestFlags, .clear f ∉ s.todo → ¬ ph.holds d f) :
    Cleared d (s.setThread t ph) := by
  intro f hf hclear
  refine ⟨(h f hf hclear).1, fun u => ?_⟩
  dsimp only [Shared.setThread]
  split
  · exact hph f hf hclear
  · exact (h f hf hclear).2 u

theorem setCache_cleared (h : Cleared d s) (f : Flag) {c : Option (List Instance)}
    (hc : f ∈ requestFlags → .clear f ∉ s.todo → ∀ built, c = some built → d.me ∉ built) :
    Cleared d (s.setCache f c) := by
  intro g hg hclear
  refine ⟨fun built hbuilt => ?_, (h g hg hclear).2⟩
  dsimp only [Shared.setCache] at hbuilt
  split at hbuilt
  next he =>
    subst he
    exact hc hg hclear built hbuilt
  next => exact (h g hg hclear).1 built hbuilt

theorem mem_ordered {found : List Instance} {p : Instance} : p ∈ d.ordered found ↔ p ∈ found := by
  rw [Disabling.ordered, List.mem_reverse]
  exact (List.perm_insertionSort _ found).mem_iff

/-- One element of a list. -/
theorem takeItem_cleared (h : Cleared d s) {t : Nat} (lenient : Bool) {f : Flag} {n : Nat}
    {built found rest : List Instance} {p : Instance}
    (ht : s.threads t = .item f n built found (p :: rest)) :
    Cleared d (takeItem d s t lenient f n built found rest p) := by
  -- once the cache is cleared the module is neither in hand nor this element
  have hfree : f ∈ requestFlags → .clear f ∉ s.todo →
      d.me ∉ built ∧ d.me ∉ found ∧ (d.takes f d.me = true → d.me ≠ p ∧ d.me ∉ rest) := by
    intro hf hclear
    have hnot := (h f hf hclear).2 t
    rw [ht] at hnot
    refine ⟨fun hb => hnot ⟨rfl, Or.inl hb⟩, fun hb => hnot ⟨rfl, Or.inr (Or.inl hb)⟩,
      fun htakes => ⟨fun hp => hnot ⟨rfl, Or.inr (Or.inr ⟨htakes, ?_⟩)⟩,
        fun hr => hnot ⟨rfl, Or.inr (Or.inr ⟨htakes, List.mem_cons_of_mem _ hr⟩)⟩⟩⟩
    rw [hp]
    exact List.mem_cons_self ..
  have hitem : ∀ found', (f ∈ requestFlags → .clear f ∉ s.todo → d.me ∉ found') →
      ∀ g ∈ requestFlags, .clear g ∉ s.todo →
        ¬ (Phase.item f n built found' rest).holds d g := by
    intro found' hfound g hg hclear hholds
    obtain ⟨rfl, hb⟩ := hholds
    obtain ⟨hbuilt, -, hrest⟩ := hfree hg hclear
    obtain hb | hb | ⟨htakes, hb⟩ := hb
    · exact hbuilt hb
    · exact hfound hg hclear hb
    · exact (hrest htakes).2 hb
  have hold : f ∈ requestFlags → .clear f ∉ s.todo → d.me ∉ found :=
    fun hf hclear => (hfree hf hclear).2.1
  have hne : d.takes f p = true → f ∈ requestFlags → .clear f ∉ s.todo → d.me ≠ p := by
    intro htakes hf hclear hp
    rw [← hp] at htakes
    exact ((hfree hf hclear).2.2 htakes).1 hp
  unfold takeItem
  split
  · exact setThread_cleared h t fun _ _ _ hh => hh
  · split
    next htakes =>
      split
      · refine setThread_cleared h t (hitem _ fun hf hclear hmem => ?_)
        obtain hmem | hmem := List.mem_append.mp hmem
        · exact hold hf hclear hmem
        · exact hne htakes hf hclear (List.mem_singleton.mp hmem)
      · split
        -- the `+=` of the source, on a cache that is an array
        next c hcache =>
          refine setThread_cleared (setCache_cleared h f fun hf hclear built' hb hmem => ?_) t
            (hitem found hold)
          rw [← Option.some.inj hb] at hmem
          obtain hmem | hmem := List.mem_append.mp hmem
          · exact (h f hf hclear).1 c hcache hmem
          · exact hne htakes hf hclear (List.mem_singleton.mp hmem)
        next =>
          split
          · refine setThread_cleared (setCache_cleared h f fun hf hclear built' hb hmem => ?_) t
              (hitem found hold)
            rw [← Option.some.inj hb] at hmem
            exact hne htakes hf hclear (List.mem_singleton.mp hmem)
          · exact setThread_cleared h t fun _ _ _ hh => hh
    next => exact setThread_cleared h t (hitem found hold)

/-- The other steps of a request. -/
theorem runThread_cleared (h : Cleared d s) {t : Nat} {lenient : Bool}
    (hcareful : Careful d s (.run t lenient)) (hs : runThread d s t lenient = some s') :
    Cleared d s' := by
  unfold runThread at hs
  cases hph : s.threads t with
  | idle =>
    rw [hph] at hs
    cases hs
  | missing f =>
    rw [hph] at hs
    obtain rfl := Option.some.inj hs
    have hlevel : ∀ g ∈ requestFlags, .clear g ∉ s.todo →
        ¬ (Phase.level f 10 []).holds d g := fun _ _ _ hh => nomatch hh.2
    split
    · exact setThread_cleared h t hlevel
    · refine setThread_cleared (setCache_cleared h f fun _ _ built hb => ?_) t hlevel
      rw [← Option.some.inj hb]
      exact List.not_mem_nil
  | level f n built =>
    rw [hph] at hs
    have hbuilt : f ∈ requestFlags → .clear f ∉ s.todo → d.me ∉ built := by
      intro hf hclear hb
      have hnot := (h f hf hclear).2 t
      rw [hph] at hnot
      exact hnot ⟨rfl, hb⟩
    cases n with
    -- the last level is done: the location modules are now cached, all at once
    | zero =>
      obtain rfl := Option.some.inj hs
      split
      · refine setThread_cleared (setCache_cleared h f fun hf hclear built' hb => ?_) t
          fun _ _ _ hh => hh
        rw [← Option.some.inj hb]
        exact hbuilt hf hclear
      · exact setThread_cleared h t fun _ _ _ hh => hh
    | succ n =>
      obtain rfl := Option.some.inj hs
      refine setThread_cleared h t fun g hg hclear hholds => ?_
      obtain ⟨rfl, hb⟩ := hholds
      obtain hb | hb | ⟨htakes, hb⟩ := hb
      · exact hbuilt hg hclear hb
      · cases hb
      · -- the list is read after the cache was cleared
        exact hcareful f hg n built hph hclear htakes hb
  | item f n built found rest =>
    rw [hph] at hs
    cases rest with
    | cons p rest =>
      obtain rfl := Option.some.inj hs
      exact takeItem_cleared h lenient hph
    -- the level is done: what it found, in order, joins what was built
    | nil =>
      obtain rfl := Option.some.inj hs
      refine setThread_cleared h t fun g hg hclear hholds => ?_
      obtain ⟨rfl, hb⟩ := hholds
      have hnot := (h f hg hclear).2 t
      rw [hph] at hnot
      obtain hb | hb := List.mem_append.mp hb
      · exact hnot ⟨rfl, Or.inl hb⟩
      · exact hnot ⟨rfl, Or.inr (Or.inl (mem_ordered.1 hb))⟩

/-! ## The steps of `disable_module` -/

theorem runDisable_cleared (h : Cleared d s) (hcareful : Careful d s .disable)
    (hs : runDisable d s = some s') : Cleared d s' := by
  unfold runDisable at hs
  unfold Careful at hcareful
  cases htodo : s.todo with
  | nil =>
    rw [htodo] at hs
    cases hs
  | cons step todo =>
    rw [htodo] at hs hcareful
    -- what was cleared before this step
    have hbefore : ∀ f ∈ requestFlags, .clear f ∉ todo → step ≠ .clear f →
        (∀ c, s.caches f = some c → d.me ∉ c) ∧ ∀ t, ¬ (s.threads t).holds d f := by
      intro f hf hclear hne
      refine h f hf ?_
      rw [htodo]
      exact fun hmem => (List.mem_cons.mp hmem).elim (fun he => hne he.symm) hclear
    cases step with
    | clear f =>
      obtain rfl := Option.some.inj hs
      intro g hg hclear
      by_cases he : g = f
      · subst he
        refine ⟨fun c hc => ?_, hcareful g rfl⟩
        dsimp only [Shared.setCache] at hc
        rw [if_pos rfl] at hc
        cases hc
      · obtain ⟨hcache, hthread⟩ := hbefore g hg hclear fun hh =>
          he (DisableStep.clear.inj hh).symm
        refine ⟨fun c hc => hcache c ?_, hthread⟩
        dsimp only [Shared.setCache] at hc
        rw [if_neg he] at hc
        exact hc
    -- the other steps touch neither the caches nor the threads
    | stop | remove f pr | destruct =>
      obtain rfl := Option.some.inj hs
      exact fun g hg hclear => hbefore g hg hclear fun hh => nomatch hh

/-! ## Runs -/

theorem threadStep_cleared (h : Cleared d s) {a : ThreadStep} (hcareful : Careful d s a)
    (hs : threadStep d s a = some s') : Cleared d s' := by
  cases a with
  | disable => exact runDisable_cleared h hcareful hs
  | run t lenient => exact runThread_cleared h hcareful hs
  | call t f =>
    simp only [threadStep] at hs
    split at hs
    · split at hs
      · obtain rfl := Option.some.inj hs
        split
        · exact h
        · exact setThread_cleared h t fun _ _ _ hh => hh
      · cases hs
    · cases hs

theorem Cleared.clean (h : Cleared d s) : Clean d s := by
  intro htodo f hf c hc
  refine (h f hf ?_).1 c hc
  rw [htodo]
  exact List.not_mem_nil

/-- Nothing is cleared when `disable_module` is called. -/
theorem start_cleared (caches : Flag → Option (List Instance)) (lists : Flag → Nat → List Instance)
    (threads : Nat → Phase) : Cleared d (d.start caches lists threads) := by
  intro f hf hclear
  exact absurd (List.mem_append_left _ (List.mem_map_of_mem hf)) hclear

theorem runDisable_listed (h : Listed d s) (hs : runDisable d s = some s') : Listed d s' := by
  unfold runDisable at hs
  cases htodo : s.todo with
  | nil =>
    rw [htodo] at hs
    cases hs
  | cons step todo =>
    rw [htodo] at hs
    have hold : ∀ f ∈ requestFlags, ∀ pr, d.me ∈ s.lists f pr → step ≠ .remove f pr →
        .remove f pr ∈ todo := by
      intro f hf pr hmem hne
      have hin := h f hf pr hmem
      rw [htodo] at hin
      exact (List.mem_cons.mp hin).resolve_left (Ne.symm hne)
    cases step with
    | remove g n =>
      obtain rfl := Option.some.inj hs
      intro f hf pr hmem
      dsimp only [Shared.removeFrom] at hmem
      split at hmem
      · exact absurd rfl (of_decide_eq_true (List.mem_filter.mp hmem).2)
      next hne =>
        refine hold f hf pr hmem fun he => hne ?_
        exact ⟨(DisableStep.remove.inj he).1.symm, (DisableStep.remove.inj he).2.symm⟩
    | clear g | stop | destruct =>
      obtain rfl := Option.some.inj hs
      exact fun f hf pr hmem => hold f hf pr hmem fun he => nomatch he

/-- Requests leave the lists and `disable_module` as they are. -/
theorem runThread_frame {t : Nat} {lenient : Bool} (hs : runThread d s t lenient = some s') :
    s'.lists = s.lists ∧ s'.todo = s.todo := by
  unfold runThread at hs
  split at hs
  · cases hs
  · obtain rfl := Option.some.inj hs
    split <;> exact ⟨rfl, rfl⟩
  · obtain rfl := Option.some.inj hs
    exact ⟨rfl, rfl⟩
  · obtain rfl := Option.some.inj hs
    split <;> exact ⟨rfl, rfl⟩
  · obtain rfl := Option.some.inj hs
    unfold takeItem
    repeat' split
    all_goals exact ⟨rfl, rfl⟩
  · obtain rfl := Option.some.inj hs
    exact ⟨rfl, rfl⟩

theorem threadStep_listed (h : Listed d s) {a : ThreadStep} (hs : threadStep d s a = some s') :
    Listed d s' := by
  cases a with
  | disable => exact runDisable_listed h hs
  | run t lenient =>
    obtain ⟨hlists, htodo⟩ := runThread_frame hs
    intro f hf pr hmem
    rw [hlists] at hmem
    rw [htodo]
    exact h f hf pr hmem
  | call t f =>
    simp only [threadStep] at hs
    split at hs
    · split at hs
      · obtain rfl := Option.some.inj hs
        split <;> exact h
      · cases hs
    · cases hs

/-- The lists of a registry, by priority. -/
def listsOf (r : Registry) (f : Flag) (pr : Nat) : List Instance :=
  if h : pr < 10 then r.lists (.of f) ⟨pr, h⟩ else []

/-- In a registry whose lists are right `disable_module` removes the module from every list
that has it. -/
theorem start_listed {env : Modules} {r : Registry} (h : Consistent env r)
    (htype : d.type = env.type d.me.name) (caches : Flag → Option (List Instance))
    (threads : Nat → Phase) : Listed d (d.start caches (listsOf r) threads) := by
  intro f hf pr hmem
  change d.me ∈ listsOf r f pr at hmem
  unfold listsOf at hmem
  split at hmem
  next hpr =>
    obtain ⟨-, -, hkind⟩ := h.mem_lists.mp hmem
    have hflag : d.type f = true := by
      rw [htype]
      exact flag_of_mem_adds hkind
    have hmember : f ∈ [.precache, .location, .url, .last, .filter, .first, .logger].filter d.type := by
      refine List.mem_filter.mpr ⟨?_, hflag⟩
      simp only [requestFlags, List.mem_cons, List.not_mem_nil, or_false] at hf ⊢
      tauto
    refine List.mem_append_left _ (List.mem_append_right _ (List.mem_cons_of_mem _ ?_))
    exact List.mem_flatMap.mpr ⟨f, hmember, List.mem_map_of_mem (List.mem_range.mpr hpr)⟩
  next => cases hmem

/-- After the return every step is careful. -/
theorem returned_careful (h : Listed d s) (htodo : s.todo = []) (a : ThreadStep) :
    Careful d s a := by
  cases a with
  | disable =>
    intro f hf
    rw [htodo] at hf
    cases hf
  | call t f => trivial
  | run t lenient =>
    intro f hf n built _ _ _ hmem
    have hin := h f hf n hmem
    rw [htodo] at hin
    cases hin

/-- So in every run from a registry whose lists are right the steps after the return are
careful. -/
theorem careful_after_return {env : Modules} {r : Registry} (h : Consistent env r)
    (htype : d.type = env.type d.me.name) (caches : Flag → Option (List Instance))
    (threads : Nat → Phase) {steps : List ThreadStep}
    (hrun : runFrom (threadStep d) (d.start caches (listsOf r) threads) steps = some s)
    (htodo : s.todo = []) (a : ThreadStep) : Careful d s a := by
  have hlisted : Listed d s := by
    apply inv_of_runFrom (Q := fun _ => True) _ steps _ s _ _ hrun
    · intro s₁ a s₂ _ hlisted hs
      exact threadStep_listed hlisted hs
    · intro a _
      trivial
    · exact start_listed h htype caches threads
  exact returned_careful hlisted htodo a

/-! ## A module that is disabled -/

/-- Without requests every step is careful. -/
theorem disable_careful (n : Nat) :
    ∀ s : Shared, (∀ t, s.threads t = .idle) →
      EachStep (threadStep d) (Careful d) s (List.replicate n .disable) := by
  induction n with
  | zero => exact fun s _ => trivial
  | succ n ih =>
    intro s hidle
    refine ⟨fun f _ t => by rw [hidle]; exact fun hh => hh, fun s' hs => ih s' fun t => ?_⟩
    simp only [threadStep, runDisable] at hs
    split at hs
    · cases hs
    all_goals
      obtain rfl := Option.some.inj hs
      exact hidle t

/-- A location module of priority 5. -/
def disabling : Disabling where
  me := ⟨0, "filesystem".toList, 0, [], [], false, 5⟩
  type f := f = .location
  has _ _ := true
  location _ := "/".toList

/-- The lists that have it. -/
def withModule (f : Flag) (pr : Nat) : List Instance :=
  if f = .location ∧ pr = 5 then [disabling.me] else []

/-- A request asks for the location modules while `stop` runs. -/
def meanwhile : List ThreadStep :=
  List.replicate 7 .disable ++ .call 0 .location :: List.replicate 23 (.run 0 false) ++
    List.replicate 12 .disable

end Caudium.BaseServer
