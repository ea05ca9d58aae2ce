import Caudium.Lib.Mapping

/-!
# Paths

A path is a string with components between slashes. `place` says where it leads when "."
and ".." are worked off one after the other: the names on the way, the innermost first.
`Below` and `AtOrAbove` compare places. Two facts are used of a path `p` that ends in a
slash: what is appended to it is walked from where `p` leads (`place_append`), and without
".." the walk only goes down (`walk_down`).
-/

namespace Lib

/-- The components of a path, empty ones included. -/
def components : Str → List Str
  | [] => [[]]
  | c :: s =>
    if c = '/' then [] :: components s
    else
      match components s with
      | [] => [[c]]
      | p :: ps => (c :: p) :: ps

/-- Where a path leads. -/
structure Place where
  absolute : Bool
  /-- The names on the way, the innermost first. -/
  names : List Str
  deriving DecidableEq

/-- One component on the way: ".." leads back, except that a relative path can lead out of
where it starts. -/
def push (absolute : Bool) (names : List Str) (c : Str) : List Str :=
  if c = [] ∨ c = ['.'] then names
  else if c = ['.', '.'] then
    match names with
    | [] => if absolute then [] else [c]
    | name :: rest => if name = ['.', '.'] then c :: names else rest
  else c :: names

/-- Where a path leads. -/
def place (s : Str) : Place where
  absolute := s.head? = some '/'
  names := (components s).foldl (push (s.head? = some '/')) []

/-- The components that are names of something further down. -/
def down (cs : List Str) : List Str := cs.filter fun c => c ≠ [] ∧ c ≠ ['.']

/-- Strictly below. -/
def Below (a b : Place) : Prop :=
  a.absolute = b.absolute ∧ b.names <:+ a.names ∧ a.names ≠ b.names

def AtOrAbove (a b : Place) : Prop := a.absolute = b.absolute ∧ a.names <:+ b.names

instance (a b : Place) : Decidable (Below a b) := inferInstanceAs (Decidable (_ ∧ _ ∧ _))

instance (a b : Place) : Decidable (AtOrAbove a b) := inferInstanceAs (Decidable (_ ∧ _))

/-- `q` is `s`, or what stands before one of its slashes. -/
def UpTo (q s : Str) : Prop := ∃ t, s = q ++ t ∧ (t = [] ∨ t.head? = some '/')

/-- The paths on the way to `s`: what stands before each slash, and `s`. -/
def hierarchy : Str → List Str
  | [] => [[]]
  | c :: s =>
    let rest := (hierarchy s).map (c :: ·)
    if c = '/' then [] :: rest else rest

/-! ## Components -/

theorem components_ne_nil : ∀ s : Str, components s ≠ []
  | [] => List.cons_ne_nil _ _
  | c :: s => by
    unfold components
    split
    next => exact List.cons_ne_nil _ _
    next =>
      split
      next => exact List.cons_ne_nil _ _
      next => exact List.cons_ne_nil _ _

theorem components_slash (s : Str) : components ('/' :: s) = [] :: components s := rfl

theorem components_cons_of_ne {c : Char} (hc : c ≠ '/') {s m : Str} {ds : List Str}
    (h : components s = m :: ds) : components (c :: s) = (c :: m) :: ds := by
  rw [components, if_neg hc, h]

/-- A slash ends a component. -/
theorem components_append (p s : Str) :
    components (p ++ '/' :: s) = components p ++ components s := by
  induction p with
  | nil => rfl
  | cons c p ih =>
    by_cases hc : c = '/'
    · rw [hc, List.cons_append, components_slash, components_slash, ih, List.cons_append]
    · cases hp : components p with
      | nil => exact absurd hp (components_ne_nil p)
      | cons x xs =>
        rw [hp, List.cons_append] at ih
        rw [List.cons_append, components_cons_of_ne hc ih, components_cons_of_ne hc hp,
          List.cons_append]

/-- What is put behind a path goes on with its last component. -/
theorem components_concat : ∀ s : Str, ∃ cs n, components s = cs ++ [n] ∧
    ∀ t m ds, components t = m :: ds → components (s ++ t) = cs ++ (n ++ m) :: ds
  | [] => ⟨[], [], rfl, fun _ _ _ ht => ht⟩
  | c :: s => by
    obtain ⟨cs, n, hs, hgo⟩ := components_concat s
    by_cases hc : c = '/'
    · rw [hc]
      refine ⟨[] :: cs, n, ?_, fun t m ds ht => ?_⟩
      · rw [components_slash, hs, List.cons_append]
      · rw [List.cons_append, components_slash, hgo t m ds ht, List.cons_append]
    · cases cs with
      | nil =>
        exact ⟨[], c :: n, components_cons_of_ne hc hs, fun t m ds ht =>
          components_cons_of_ne hc (hgo t m ds ht)⟩
      | cons x cs =>
        exact ⟨(c :: x) :: cs, n, components_cons_of_ne hc hs, fun t m ds ht =>
          components_cons_of_ne hc (hgo t m ds ht)⟩

/-- What stands before a slash has its components only. -/
theorem components_upTo {q s : Str} (h : UpTo q s) : ∀ c ∈ components q, c ∈ components s := by
  obtain ⟨t, rfl, ht⟩ := h
  intro c hc
  cases t with
  | nil => rwa [List.append_nil]
  | cons x t =>
    obtain rfl : x = '/' := by simpa using ht
    rw [components_append]
    exact List.mem_append_left _ hc

theorem UpTo.trans {p q s : Str} (h : UpTo p q) (h' : UpTo q s) : UpTo p s := by
  obtain ⟨t, rfl, ht⟩ := h
  obtain ⟨u, rfl, hu⟩ := h'
  refine ⟨t ++ u, List.append_assoc .., ?_⟩
  cases t with
  | nil => exact hu
  | cons c t => exact ht.imp (fun hnil => by cases hnil) id

theorem mem_hierarchy {q s : Str} : q ∈ hierarchy s ↔ UpTo q s := by
  induction s generalizing q with
  | nil =>
    rw [hierarchy, List.mem_singleton]
    constructor
    · intro heq
      subst heq
      exact ⟨[], rfl, Or.inl rfl⟩
    · intro hand
      obtain ⟨t, ht, -⟩ := hand
      exact (List.append_eq_nil_iff.mp ht.symm).1
  | cons c s ih =>
    have hrest : q ∈ (hierarchy s).map (c :: ·) ↔ q ≠ [] ∧ UpTo q (c :: s) := by
      rw [List.mem_map]
      constructor
      · intro hand
        obtain ⟨p, hp, rfl⟩ := hand
        obtain ⟨t, rfl, ht⟩ := ih.mp hp
        exact ⟨List.cons_ne_nil _ _, t, rfl, ht⟩
      · intro hand
        obtain ⟨hne, t, hs, ht⟩ := hand
        cases q with
        | nil => exact absurd rfl hne
        | cons x p =>
          obtain ⟨rfl, hs'⟩ := List.cons.inj hs
          exact ⟨p, ih.mpr ⟨t, hs', ht⟩, rfl⟩
    have hnil : UpTo [] (c :: s) ↔ c = '/' := by
      constructor
      · intro hand
        obtain ⟨t, ht, h⟩ := hand
        rw [← show c :: s = t from ht] at h
        simpa using h
      · intro heq
        subst heq
        exact ⟨_, rfl, Or.inr rfl⟩
    rw [hierarchy]
    by_cases hq : q = []
    · subst hq
      split
      next hc => exact iff_of_true List.mem_cons_self (hnil.mpr hc)
      next hc => exact iff_of_false (fun h => (hrest.mp h).1 rfl) (fun h => hc (hnil.mp h))
    · split
      next => simp only [List.mem_cons, hq, false_or, hrest, ne_eq, not_false_eq_true, true_and]
      next => simp only [hrest, ne_eq, hq, not_false_eq_true, true_and]

/-! ## Places -/

theorem push_stay (absolute : Bool) (names : List Str) {c : Str} (h : c = [] ∨ c = ['.']) :
    push absolute names c = names := by
  unfold push
  rw [if_pos h]

theorem push_name (absolute : Bool) (names : List Str) {c : Str} (h : ¬ (c = [] ∨ c = ['.']))
    (h' : c ≠ ['.', '.']) : push absolute names c = c :: names := by
  unfold push
  rw [if_neg h, if_neg h']

/-- Without ".." the walk goes down. -/
theorem walk_down (absolute : Bool) : ∀ (cs names : List Str), ['.', '.'] ∉ cs →
    cs.foldl (push absolute) names = (down cs).reverse ++ names := by
  intro cs
  induction cs with
  | nil => intro names _; rfl
  | cons c cs ih =>
    intro names h
    obtain ⟨hc, hcs⟩ := not_or.mp (mt List.mem_cons.mpr h)
    rw [List.foldl_cons, ih _ hcs]
    by_cases hstay : c = [] ∨ c = ['.']
    · have hdown : down (c :: cs) = down cs :=
        List.filter_cons_of_neg (by simpa [or_iff_not_imp_left] using hstay)
      rw [push_stay _ _ hstay, hdown]
    · have hdown : down (c :: cs) = c :: down cs :=
        List.filter_cons_of_pos (by simpa [not_or] using hstay)
      rw [push_name _ _ hstay (Ne.symm hc), hdown, List.reverse_cons, List.append_assoc]
      rfl

/-- What is appended to a path that ends in a slash is walked from where it leads. -/
theorem place_append (p s : Str) : place (p ++ '/' :: s) =
    { absolute := (place (p ++ ['/'])).absolute
      names := (components s).foldl (push (place (p ++ ['/'])).absolute)
        (place (p ++ ['/'])).names } := by
  have hhead : (p ++ '/' :: s).head? = (p ++ ['/']).head? := by
    cases p with
    | nil => rfl
    | cons c p => rfl
  have hslash : ∀ absolute names, ([[]] : List Str).foldl (push absolute) names = names := by
    intro absolute names
    exact push_stay absolute names (Or.inl rfl)
  unfold place
  rw [hhead, components_append, components_append, List.foldl_append, List.foldl_append]
  rw [show components [] = [[]] from rfl, hslash]

/-- Appended without "..", a path leads below where the first part does, or it has no names
at all. -/
theorem place_down (p s : Str) (h : ['.', '.'] ∉ components s) :
    (place (p ++ '/' :: s)).absolute = (place (p ++ ['/'])).absolute ∧
      (place (p ++ '/' :: s)).names =
        (down (components s)).reverse ++ (place (p ++ ['/'])).names := by
  rw [place_append]
  exact ⟨rfl, walk_down _ _ _ h⟩

theorem below_down (p s : Str) (h : ['.', '.'] ∉ components s)
    (hdown : down (components s) ≠ []) : Below (place (p ++ '/' :: s)) (place (p ++ ['/'])) := by
  obtain ⟨habsolute, hnames⟩ := place_down p s h
  refine ⟨habsolute, ?_, ?_⟩
  · rw [hnames]
    exact List.suffix_append ..
  · rw [hnames]
    intro heq
    have hlen := congrArg List.length heq
    rw [List.length_append, List.length_reverse] at hlen
    have hpos := List.length_pos_iff.mpr hdown
    omega

theorem place_stay (p s : Str) (h : ['.', '.'] ∉ components s)
    (hdown : down (components s) = []) : place (p ++ '/' :: s) = place (p ++ ['/']) := by
  obtain ⟨habsolute, hnames⟩ := place_down p s h
  rw [hdown] at hnames
  cases hp : place (p ++ '/' :: s)
  rw [hp] at habsolute hnames
  cases hq : place (p ++ ['/'])
  rw [hq] at habsolute hnames
  dsimp only at habsolute hnames
  rw [habsolute, hnames]
  rfl

/-- On the way down each place is above the next. -/
theorem atOrAbove_upTo (p : Str) {q s : Str} (h : UpTo q s) (hs : ['.', '.'] ∉ components s) :
    AtOrAbove (place (p ++ '/' :: q)) (place (p ++ '/' :: s)) := by
  obtain ⟨habsolute, hnames⟩ := place_down p q fun hq => hs (components_upTo h _ hq)
  obtain ⟨habsolute', hnames'⟩ := place_down p s hs
  refine ⟨habsolute.trans habsolute'.symm, ?_⟩
  have hdown : down (components q) <+: down (components s) := by
    obtain ⟨t, rfl, ht⟩ := h
    cases t with
    | nil =>
      rewrite [List.append_nil]
      exact List.prefix_refl _
    | cons c t =>
      obtain rfl : c = '/' := by simpa using ht
      rw [components_append]
      unfold down
      rw [List.filter_append]
      exact List.prefix_append ..
  obtain ⟨rest, hrest⟩ := hdown
  rw [hnames, hnames', ← hrest, List.reverse_append, List.append_assoc]
  exact List.suffix_append ..

theorem AtOrAbove.trans {a b c : Place} (h : AtOrAbove a b) (h' : AtOrAbove b c) : AtOrAbove a c :=
  ⟨h.1.trans h'.1, h.2.trans h'.2⟩

theorem AtOrAbove.refl (a : Place) : AtOrAbove a a := ⟨rfl, List.suffix_refl _⟩

/-- Where an absolute path without ".." leads. -/
theorem place_absolute {s : Str} (h : ['.', '.'] ∉ components s) :
    place ('/' :: s) = ⟨true, (down (components s)).reverse⟩ := by
  obtain ⟨habsolute, hnames⟩ := place_down [] s h
  rw [show place ([] ++ ['/']) = ⟨true, []⟩ from rfl, List.append_nil] at hnames
  exact congrArg (Place.mk true) hnames

/-- Absolute paths are one above the other as their names are. -/
theorem atOrAbove_absolute {s t : Str} (hs : ['.', '.'] ∉ components s)
    (ht : ['.', '.'] ∉ components t) :
    AtOrAbove (place ('/' :: s)) (place ('/' :: t)) ↔ down (components s) <+: down (components t) := by
  rw [place_absolute hs, place_absolute ht]
  exact (and_iff_right rfl).trans List.reverse_suffix

end Lib
