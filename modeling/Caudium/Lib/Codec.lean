import Mathlib.Data.List.Basic

/-!
# Decoders and the encodings they read

A `Decoder β α` takes a value off the front of a list, or fails.
`Decodes m enc a` says that `m` makes `a` of `enc`, whatever follows, and leaves what
follows untouched; so the encodings of a sequence of decoders can simply be put one
after the other (`Decodes.bind`). There is a rule for each of the two loops of a
decoder: `times` makes a given number of turns (`Decodes.times`), `untilEnd` goes on
until a turn says that it was the last (`run_untilEnd`).
-/

namespace Lib

variable {β α γ σ ι : Type}

/-- A decoder of lists over `β`. -/
abbrev Decoder (β α : Type) := StateT (List β) Option α

/-- `m` reads `a` off `enc`, whatever comes after it. -/
def Decodes (m : Decoder β α) (enc : List β) (a : α) : Prop :=
  ∀ rest, m.run (enc ++ rest) = some (a, rest)

namespace Decodes

/-- Nothing is read. -/
theorem pure (a : α) : Decodes (Pure.pure a : Decoder β α) [] a := fun _ => rfl

/-- What comes after a decoder goes on with its value and with what it left. -/
theorem run_bind {m : Decoder β α} {enc : List β} {a : α} (hm : Decodes m enc a)
    (f : α → Decoder β γ) (rest : List β) : (m >>= f).run (enc ++ rest) = (f a).run rest := by
  rw [StateT.run_bind, hm rest]
  rfl

/-- One decoder after the other reads one encoding after the other. -/
theorem bind {m : Decoder β α} {f : α → Decoder β γ} {enc enc' : List β} {a : α} {b : γ}
    (hm : Decodes m enc a) (hf : Decodes (f a) enc' b) : Decodes (m >>= f) (enc ++ enc') b := by
  intro rest
  rw [List.append_assoc, hm.run_bind f]
  exact hf rest

/-- The value is worked on after it was read. -/
theorem bind_pure {m : Decoder β α} {enc : List β} {a : α} (hm : Decodes m enc a) (f : α → γ) :
    Decodes (m >>= fun x => Pure.pure (f x)) enc (f a) := by
  have h := hm.bind (f := fun x => Pure.pure (f x)) (Decodes.pure (f a))
  rwa [List.append_nil] at h

end Decodes

/-- One element. -/
def item : Decoder β β
  | [] => none
  | b :: rest => some (b, rest)

/-- As many elements as are asked for. -/
def exactly (n : Nat) : Decoder β (List β) := fun s =>
  if s.length < n then none else some (s.take n, s.drop n)

theorem Decodes.item (b : β) : Decodes Lib.item [b] b := fun _ => rfl

theorem Decodes.exactly (s : List β) : Decodes (Lib.exactly s.length) s s := by
  intro rest
  show (if (s ++ rest).length < s.length then none else _) = _
  rw [if_neg (by rw [List.length_append]; omega), List.take_left, List.drop_left]

/-! ## Lengths -/

/-- A piece is no longer than the whole. -/
theorem length_le_flatMap (enc : ι → List β) {x : ι} {xs : List ι} (h : x ∈ xs) :
    (enc x).length ≤ (xs.flatMap enc).length := by
  rw [List.flatMap_def]
  exact (List.sublist_flatten_of_mem (List.mem_map_of_mem h)).length_le

/-- There are no more pieces than characters. -/
theorem card_le_flatMap (enc : ι → List β) {xs : List ι} (h : ∀ x ∈ xs, enc x ≠ []) :
    xs.length ≤ (xs.flatMap enc).length := by
  induction xs with
  | nil => exact Nat.le_refl 0
  | cons x xs ih =>
    have hx := List.length_pos_of_ne_nil (h x List.mem_cons_self)
    have hxs := ih fun y hy => h y (List.mem_cons_of_mem x hy)
    rw [List.flatMap_cons, List.length_append, List.length_cons]
    omega

/-! ## Loops -/

/-- `n` turns of a loop. -/
def times (step : σ → Decoder β σ) : Nat → σ → Decoder β σ
  | 0, s => pure s
  | n + 1, s => step s >>= times step n

/-- A loop that reads one item in each turn reads as many as it makes turns. -/
theorem Decodes.times {step : σ → Decoder β σ} {enc : ι → List β} {put : σ → ι → σ} :
    ∀ (xs : List ι), (∀ x ∈ xs, ∀ s, Decodes (step s) (enc x) (put s x)) →
      ∀ s, Decodes (times step xs.length s) (xs.flatMap enc) (xs.foldl put s) := by
  intro xs
  induction xs with
  | nil => intro _ s; exact Decodes.pure s
  | cons x xs ih =>
    intro hstep s
    have hrest := ih (fun y hy => hstep y (List.mem_cons_of_mem x hy)) (put s x)
    exact (hstep x List.mem_cons_self s).bind hrest

/-- Turns until one returns `none`; the bound on their number must not be reached. -/
def untilEnd (step : σ → Decoder β (Option σ)) : Nat → σ → Decoder β σ
  | 0, _ => failure
  | n + 1, s => step s >>= fun
    | none => pure s
    | some s => untilEnd step n s

/-- A loop that reads one item in each turn reads all that stand before its end. -/
theorem run_untilEnd {step : σ → Decoder β (Option σ)} {enc : ι → List β} {put : σ → ι → σ}
    {stop left : List β} (hstop : ∀ s, (step s).run stop = some (none, left)) :
    ∀ (xs : List ι), (∀ x ∈ xs, ∀ s, Decodes (step s) (enc x) (some (put s x))) →
      ∀ n s, xs.length < n →
        (untilEnd step n s).run (xs.flatMap enc ++ stop) = some (xs.foldl put s, left) := by
  intro xs
  induction xs with
  | nil =>
    intro _ n s hn
    obtain ⟨n, rfl⟩ : ∃ m, n = m + 1 := ⟨n - 1, by simp only [List.length_nil] at hn; omega⟩
    rw [untilEnd, StateT.run_bind, List.flatMap_nil, List.nil_append, hstop s]
    rfl
  | cons x xs ih =>
    intro hstep n s hn
    rw [List.length_cons] at hn
    obtain ⟨n, rfl⟩ : ∃ m, n = m + 1 := ⟨n - 1, by omega⟩
    rw [untilEnd, List.flatMap_cons, List.append_assoc, (hstep x List.mem_cons_self s).run_bind]
    exact ih (fun y hy => hstep y (List.mem_cons_of_mem x hy)) n (put s x) (by omega)

/-- Where every turn but the last uses something up and there is no turn without data,
the bound makes no difference once it is the length of the data. -/
theorem untilEnd_enough {step : σ → Decoder β (Option σ)} (hnil : ∀ s, (step s).run [] = none)
    (huse : ∀ s s' data left, (step s).run data = some (some s', left) →
      left.length < data.length) :
    ∀ n s data, data.length ≤ n →
      (untilEnd step n s).run data = (untilEnd step data.length s).run data := by
  intro n
  induction n using Nat.strongRecOn with
  | ind n ih =>
    intro s data hn
    cases data with
    | nil =>
      cases n with
      | zero => rfl
      | succ n =>
        rw [untilEnd, StateT.run_bind, hnil s]
        rfl
    | cons c data =>
      rw [List.length_cons] at hn
      obtain ⟨n, rfl⟩ : ∃ m, n = m + 1 := ⟨n - 1, by omega⟩
      rw [List.length_cons, untilEnd, untilEnd, StateT.run_bind, StateT.run_bind]
      cases hturn : (step s).run (c :: data) with
      | none => rfl
      | some p =>
        obtain ⟨next, left⟩ := p
        cases next with
        | none => rfl
        | some s' =>
          -- both bounds are enough for what the turn left
          have hleft := huse s s' (c :: data) left hturn
          rw [List.length_cons] at hleft
          exact (ih n (by omega) s' left (by omega)).trans
            (ih data.length (by omega) s' left (by omega)).symm

end Lib
