import Mathlib.Data.List.Basic
import Mathlib.Algebra.GroupWithZero.Nat

/-!
# Sources that are read in pieces

A source `read s n` gives at most `n` elements and the source that is left, or fails. It
`Delivers` what is pending in it if each read takes as much of that off the front as was asked
for. Then it does not matter in which pieces it is read (`Delivers.pieces`): the pieces together
are a beginning of what is pending, all of it once a piece is empty, and there are no more pieces
than elements before that.
-/

namespace Lib

variable {σ α : Type} (read : σ → Nat → Option (List α × σ))

/-- Read after read. -/
def reads : σ → List Nat → Option (List (List α) × σ)
  | s, [] => some ([], s)
  | s, n :: ns => do
    let (piece, s) ← read s n
    let (pieces, s) ← reads s ns
    some (piece :: pieces, s)

/-- A read gives the first `n` of what is pending. -/
def Delivers (Inv : σ → Prop) (pending : σ → List α) : Prop :=
  ∀ s n, Inv s → 0 < n →
    ∃ s', read s n = some ((pending s).take n, s') ∧ Inv s' ∧ pending s' = (pending s).drop n

/-- The pieces of a source. -/
structure Pieces (all : List α) (ns : List Nat) (pieces : List (List α)) : Prop where
  start : pieces.flatten = all.take ns.sum
  whole : [] ∈ pieces → pieces.flatten = all
  ends : all.length < ns.length → [] ∈ pieces

theorem Pieces.nil (all : List α) : Pieces all [] [] where
  start := rfl
  whole h := nomatch h
  ends h := absurd h (Nat.not_lt_zero _)

theorem Pieces.cons {all : List α} {n : Nat} {ns : List Nat} {pieces : List (List α)}
    (hn : 0 < n) (h : Pieces (all.drop n) ns pieces) :
    Pieces all (n :: ns) (all.take n :: pieces) where
  start := by
    rw [List.flatten_cons, h.start, List.sum_cons, List.take_add]
  whole hmem := by
    rw [List.flatten_cons]
    rcases List.mem_cons.mp hmem with hnil | hmem
    · have hall : all = [] := by
        rcases List.take_eq_nil_iff.mp hnil.symm with hzero | hall
        · omega
        · exact hall
      have hrest := h.start
      rw [hall, List.drop_nil, List.take_nil] at hrest
      rw [hrest, hall, List.take_nil, List.append_nil]
    · rw [h.whole hmem, List.take_append_drop]
  ends hlt := by
    by_cases hnil : all = []
    · rw [hnil, List.take_nil]
      exact List.mem_cons_self
    · have hpos := List.length_pos_iff.mpr hnil
      refine List.mem_cons_of_mem _ (h.ends ?_)
      rw [List.length_cons] at hlt
      rw [List.length_drop]
      omega

variable {read} {Inv : σ → Prop} {pending : σ → List α}

/-- The sizes of the reads do not matter. -/
theorem Delivers.pieces (h : Delivers read Inv pending) :
    ∀ (ns : List Nat) (s : σ), Inv s → (∀ n ∈ ns, 0 < n) →
      ∃ pieces s', reads read s ns = some (pieces, s') ∧ Pieces (pending s) ns pieces := by
  intro ns
  induction ns with
  | nil => exact fun s _ _ => ⟨[], s, rfl, .nil _⟩
  | cons n ns ih =>
    intro s hs hpos
    have hn : 0 < n := hpos n List.mem_cons_self
    obtain ⟨s', hread, hs', hpending⟩ := h s n hs hn
    obtain ⟨pieces, s'', hreads, hpieces⟩ := ih s' hs' fun m hm => hpos m (List.mem_cons_of_mem _ hm)
    rw [hpending] at hpieces
    refine ⟨_, s'', ?_, hpieces.cons hn⟩
    rw [Lib.reads, hread]
    show (reads read s' ns).bind _ = _
    rw [hreads]
    rfl

end Lib
