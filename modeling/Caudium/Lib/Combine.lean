import Caudium.Lib.Path

/-!
# Paths put together

`combinePath` puts a path behind another one, unless it is absolute, and writes down where that
leads (`render`). `appendPath` first takes the second path from the root, so that it cannot lead out
of the first one. Of a path that has come out of such a call only names are left, with the ".." that
lead out of a relative one before them: `Settled`. Two of these are the same string only if they
have the same names (`render_inj`), and appending the path of a file to the path it is a file of
repeats the names between (`appendPath_twice`).
-/

namespace Lib

/-- A place as a path. A relative one without names is ".". -/
def render (p : Place) : Str :=
  if p.absolute then '/' :: List.intercalate ['/'] p.names.reverse
  else if p.names = [] then ['.'] else List.intercalate ['/'] p.names.reverse

/-- A path behind another one. -/
def join (a b : Str) : Str := if a = [] then b else a ++ '/' :: b

/-- `combine_path`, of paths that do not end in a slash. -/
def combinePath (a b : Str) : Str :=
  if b.head? = some '/' then render (place b) else render (place (join a b))

/-- `append_path`. -/
def appendPath (a b : Str) : Str := combinePath a ((combinePath ['/'] b).drop 1)

/-- A name of a file in a directory. -/
structure FileName (c : Str) : Prop where
  noSlash : '/' ∉ c
  noDots : c ≠ [] ∧ c ≠ ['.'] ∧ c ≠ ['.', '.']

/-- The names on a walk: those that lead down, behind the ".." that lead out. -/
structure Settled (absolute : Bool) (down up : List Str) : Prop where
  names : ∀ c ∈ down, FileName c
  dots : ∀ c ∈ up, c = ['.', '.']
  inside : absolute = true → up = []

/-! ## Walks -/

theorem components_noSlash (s : Str) : ∀ c ∈ components s, '/' ∉ c := by
  induction s with
  | nil => simp [components]
  | cons x s ih =>
    unfold components
    split
    next =>
      intro c hc
      rcases List.mem_cons.mp hc with rfl | hc
      · simp
      · exact ih c hc
    next hx =>
      cases hs : components s with
      | nil => exact absurd hs (components_ne_nil s)
      | cons p ps =>
        rw [hs] at ih
        intro c hc
        rcases List.mem_cons.mp hc with rfl | hc
        · have hp := ih p (List.mem_cons_self ..)
          simp [hp, Ne.symm hx]
        · exact ih c (List.mem_cons_of_mem _ hc)

theorem components_of_noSlash {c : Str} (h : '/' ∉ c) : components c = [c] := by
  induction c with
  | nil => rfl
  | cons x c ih =>
    rw [List.mem_cons, not_or] at h
    rw [components, if_neg (Ne.symm h.1), ih h.2]

/-- The components of names put together are these names. -/
theorem components_intercalate {ns : List Str} (hne : ns ≠ []) (h : ∀ c ∈ ns, '/' ∉ c) :
    components (List.intercalate ['/'] ns) = ns := by
  induction ns with
  | nil => exact absurd rfl hne
  | cons n ns ih =>
    rw [List.forall_mem_cons] at h
    cases ns with
    | nil => rw [List.intercalate_singleton, components_of_noSlash h.1]
    | cons m ms =>
      rw [List.intercalate_cons_cons, List.append_assoc, List.singleton_append,
        components_append, components_of_noSlash h.1, ih (List.cons_ne_nil _ _) h.2]
      rfl

/-- One step of a walk stays settled. -/
theorem Settled.push {absolute : Bool} {down up : List Str} (h : Settled absolute down up) {c : Str}
    (hc : '/' ∉ c) : ∃ down' up', Settled absolute down' up' ∧
      Lib.push absolute (down ++ up) c = down' ++ up' := by
  unfold Lib.push
  by_cases hstay : c = [] ∨ c = ['.']
  · exact ⟨down, up, h, if_pos hstay⟩
  · rw [if_neg hstay]
    by_cases hdots : c = ['.', '.']
    · rw [if_pos hdots]
      cases hdown : down with
      | nil =>
        -- out of where it starts, or nowhere
        cases hup : up with
        | nil =>
          cases habs : absolute with
          | true => exact ⟨[], [], ⟨by simp, by simp, fun _ => rfl⟩, by simp⟩
          | false => exact ⟨[], [c], ⟨by simp, by simp [hdots], nofun⟩, by simp⟩
        | cons u us =>
          have hu := h.dots
          rw [hup] at hu
          refine ⟨[], c :: u :: us, ⟨by simp, ?_, fun habs => ?_⟩, ?_⟩
          · intro x hx
            rcases List.mem_cons.mp hx with rfl | hx
            · exact hdots
            · exact hu x hx
          · have := h.inside habs
            rw [hup] at this
            cases this
          · simp [hu u (List.mem_cons_self ..)]
      | cons d ds =>
        have hd := h.names
        rw [hdown] at hd
        refine ⟨ds, up, ⟨fun x hx => hd x (List.mem_cons_of_mem _ hx), h.dots, h.inside⟩, ?_⟩
        have hne : d ≠ ['.', '.'] := (hd d (List.mem_cons_self ..)).noDots.2.2
        simp [hne]
    · rw [if_neg hdots]
      rw [not_or] at hstay
      refine ⟨c :: down, up, ⟨?_, h.dots, h.inside⟩, rfl⟩
      intro x hx
      rcases List.mem_cons.mp hx with rfl | hx
      · exact ⟨hc, hstay.1, hstay.2, hdots⟩
      · exact h.names x hx

/-- **Every walk is settled.** -/
theorem place_settled (s : Str) :
    ∃ down up, Settled (place s).absolute down up ∧ (place s).names = down ++ up := by
  have hwalk : ∀ (absolute : Bool) (cs down up : List Str), (∀ c ∈ cs, '/' ∉ c) →
      Settled absolute down up → ∃ down' up', Settled absolute down' up' ∧
        cs.foldl (push absolute) (down ++ up) = down' ++ up' := by
    intro absolute cs
    induction cs with
    | nil => intro down up _ h; exact ⟨down, up, h, rfl⟩
    | cons c cs ih =>
      intro down up hcs h
      rw [List.forall_mem_cons] at hcs
      obtain ⟨down', up', h', hpush⟩ := h.push hcs.1
      rw [List.foldl_cons, hpush]
      exact ih down' up' hcs.2 h'
  exact hwalk _ _ [] [] (components_noSlash s) ⟨by simp, by simp, fun _ => rfl⟩

theorem place_join (a : Str) {b : Str} (hb : b.head? ≠ some '/') : place (join a b) =
    { absolute := (place a).absolute
      names := (components b).foldl (push (place a).absolute) (place a).names } := by
  unfold join
  split
  next ha =>
    subst ha
    have hrel : (place b).absolute = false := decide_eq_false hb
    cases hp : place b with
    | mk absolute names =>
      rw [hp] at hrel
      dsimp only at hrel
      subst hrel
      have hnames : (place b).names = names := by rw [hp]
      unfold place at hnames
      rw [decide_eq_false hb] at hnames
      simp [place, components, push, ← hnames]
  next ha =>
    have hhead : (a ++ '/' :: b).head? = a.head? := by
      cases a with
      | nil => exact absurd rfl ha
      | cons x a => rfl
    unfold place
    rw [hhead, components_append, List.foldl_append]

/-- Names that lead down, in the order of the walk. -/
theorem foldl_push_names (absolute : Bool) {ns : List Str} (h : ∀ c ∈ ns, FileName c)
    (names : List Str) : ns.foldl (push absolute) names = ns.reverse ++ names := by
  have hdown : down ns = ns := by
    refine List.filter_eq_self.mpr fun c hc => ?_
    simp [(h c hc).noDots.1, (h c hc).noDots.2.1]
  rw [walk_down absolute ns names fun hd => (h _ hd).noDots.2.2 rfl, hdown]

/-! ## `appendPath` -/

theorem head_intercalate {ns : List Str} (h : ∀ c ∈ ns, '/' ∉ c ∧ c ≠ []) :
    (List.intercalate ['/'] ns).head? ≠ some '/' := by
  cases ns with
  | nil => simp
  | cons n ns =>
    have hn := h n (List.mem_cons_self ..)
    have hhead : (List.intercalate ['/'] (n :: ns)).head? = n.head? := by
      cases hcs : n with
      | nil => exact absurd hcs hn.2
      | cons x n =>
        cases ns with
        | nil => rw [List.intercalate_singleton]
        | cons m ms => rw [List.intercalate_cons_cons]; rfl
    rw [hhead]
    intro hx
    exact hn.1 (List.mem_of_mem_head? hx)

theorem FileName.path {ns : List Str} (h : ∀ c ∈ ns, FileName c) : ∀ c ∈ ns, '/' ∉ c ∧ c ≠ [] :=
  fun c hc => ⟨(h c hc).noSlash, (h c hc).noDots.1⟩

/-- A path that leads down, taken from the root, less the root. -/
theorem drop_combinePath {ns : List Str} (hne : ns ≠ []) (h : ∀ c ∈ ns, FileName c) :
    (combinePath ['/'] (List.intercalate ['/'] ns)).drop 1 = List.intercalate ['/'] ns := by
  rw [combinePath, if_neg (head_intercalate (FileName.path h)),
    place_join _ (head_intercalate (FileName.path h)),
    components_intercalate hne fun c hc => (h c hc).noSlash, foldl_push_names _ h]
  have hroot : place ['/'] = { absolute := true, names := [] } := by decide
  rw [hroot, render, if_pos rfl, List.append_nil, List.reverse_reverse]
  rfl

/-- Names that lead down, appended. -/
theorem appendPath_names (a : Str) {ns : List Str} (hne : ns ≠ []) (h : ∀ c ∈ ns, FileName c) :
    appendPath a (List.intercalate ['/'] ns) = render
      { absolute := (place a).absolute, names := ns.reverse ++ (place a).names } := by
  rw [appendPath, drop_combinePath hne h, combinePath, if_neg (head_intercalate (FileName.path h)),
    place_join _ (head_intercalate (FileName.path h)),
    components_intercalate hne fun c hc => (h c hc).noSlash,
    foldl_push_names _ h]

theorem appendPath_name (a : Str) {n : Str} (h : FileName n) : appendPath a n =
    render { absolute := (place a).absolute, names := n :: (place a).names } := by
  have hone := appendPath_names a (List.cons_ne_nil n []) fun c hc => List.mem_singleton.mp hc ▸ h
  rwa [List.intercalate_singleton] at hone

/-- Different names make different paths. -/
theorem render_inj {absolute : Bool} {ns ms : List Str} (hns : ns ≠ []) (hms : ms ≠ [])
    (hn : ∀ c ∈ ns, '/' ∉ c) (hm : ∀ c ∈ ms, '/' ∉ c)
    (h : render ⟨absolute, ns⟩ = render ⟨absolute, ms⟩) : ns = ms := by
  have hjoin : List.intercalate ['/'] ns.reverse = List.intercalate ['/'] ms.reverse := by
    unfold render at h
    cases absolute with
    | true => exact (List.cons.inj h).2
    | false => simpa [hns, hms] using h
  have hcomp := congrArg components hjoin
  rw [components_intercalate (by simpa using hns) (by simpa using hn),
    components_intercalate (by simpa using hms) (by simpa using hm)] at hcomp
  exact List.reverse_inj.mp hcomp

/-- **A path of a file, appended to the path once more**: the names between are there twice. -/
theorem appendPath_twice {a : Str} {down up : List Str} (hset : Settled (place a).absolute down up)
    (hnames : (place a).names = down ++ up) {n : Str} (h : FileName n) :
    appendPath a (appendPath a n) = render
      { absolute := (place a).absolute, names := n :: (down ++ (place a).names) } := by
  have hall : ∀ c ∈ (n :: down).reverse, FileName c := by
    intro c hc
    rcases List.mem_cons.mp (List.mem_reverse.mp hc) with rfl | hc
    · exact h
    · exact hset.names c hc
  have hne : (n :: down).reverse ≠ [] := by simp
  have hstart : place ['/'] = { absolute := true, names := [] } := by decide
  -- from the root the ".." in front lead nowhere
  have hroot : combinePath ['/'] (appendPath a n)
      = combinePath ['/'] (List.intercalate ['/'] (n :: down).reverse) := by
    rw [appendPath_name a h, hnames]
    unfold combinePath
    rw [if_neg (head_intercalate (FileName.path hall)),
      place_join _ (head_intercalate (FileName.path hall)),
      hstart]
    cases habs : (place a).absolute with
    | true =>
      rw [hset.inside habs, List.append_nil]
      rfl
    | false =>
      have hwhole : ∀ c ∈ up.reverse ++ (n :: down).reverse, '/' ∉ c ∧ c ≠ [] := by
        intro c hc
        rcases List.mem_append.mp hc with hc | hc
        · rw [hset.dots c (List.mem_reverse.mp hc)]
          exact ⟨by decide, by decide⟩
        · exact FileName.path hall c hc
      have hrender : render { absolute := false, names := n :: (down ++ up) }
          = List.intercalate ['/'] (up.reverse ++ (n :: down).reverse) := by
        simp [render]
      have hout : up.reverse.foldl (push true) [] = [] := by
        have hdots : ∀ us : List Str, (∀ c ∈ us, c = ['.', '.']) → us.foldl (push true) [] = [] := by
          intro us
          induction us with
          | nil => intro _; rfl
          | cons u us ih =>
            intro hus
            rw [List.forall_mem_cons] at hus
            rw [List.foldl_cons, hus.1]
            exact ih hus.2
        exact hdots _ fun c hc => hset.dots c (List.mem_reverse.mp hc)
      rw [hrender, if_neg (head_intercalate hwhole), place_join _ (head_intercalate hwhole), hstart,
        components_intercalate (by simp) fun c hc => (hwhole c hc).1,
        components_intercalate hne fun c hc => (FileName.path hall c hc).1, List.foldl_append, hout]
  rw [appendPath, hroot, ← appendPath, appendPath_names a hne hall, List.reverse_reverse]
  rfl

end Lib
