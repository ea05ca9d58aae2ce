import Caudium.Lib.Loop
import Mathlib.Data.List.Basic

/-!
# Taking messages off a buffer, however the bytes are cut

A reader takes a message off the front of a buffer, or finds that it is not all there. A
receiver puts each chunk behind its buffer and takes messages off the front until the reader
finds none (`feed`). If the reader never changes its mind about a message when more bytes
come (`Framing`), it does not matter how the bytes are cut into chunks (`foldl_feed`), and the
receiver takes exactly the messages that have arrived (`drain_flatMap`).
-/

namespace Lib

variable {β α σ ι : Type}

/-- A message takes up bytes, and bytes that come later do not change it. -/
structure Framing (read : List β → Option (α × List β)) : Prop where
  shrinks : ∀ {s a rest}, read s = some (a, rest) → rest.length < s.length
  stable : ∀ {s a rest} (t : List β), read s = some (a, rest) → read (s ++ t) = some (a, rest ++ t)

variable (read : List β → Option (α × List β)) (handle : α → σ → σ)

/-- There is a message. -/
def hasMessage (s : List β × σ) : Bool := (read s.1).isSome

/-- One message is taken. -/
def takeMessage (s : List β × σ) : List β × σ :=
  match read s.1 with
  | some (a, rest) => (rest, handle a s.2)
  | none => s

/-- All messages are taken. -/
def drain (s : List β × σ) : List β × σ :=
  runLoop (hasMessage read) (takeMessage read handle) (·.1.length) s

/-- A chunk comes. -/
def feed (s : List β × σ) (chunk : List β) : List β × σ := drain read handle (s.1 ++ chunk, s.2)

variable {read handle}

theorem falls_drain (h : Framing read) :
    Falls (hasMessage read) (takeMessage read handle) (·.1.length) := by
  have hlt : ∀ s : List β × σ, hasMessage read s = true →
      (takeMessage read handle s).1.length < s.1.length := by
    intro s hs
    obtain ⟨⟨a, rest⟩, hread⟩ := Option.isSome_iff_exists.mp hs
    have hshrinks := h.shrinks hread
    simpa [takeMessage, hread] using hshrinks
  constructor
  · intro s hs
    exact Nat.lt_of_le_of_lt (Nat.zero_le _) (hlt s hs)
  · intro s hs _
    exact hlt s hs

theorem drain_some (h : Framing read) {buffer rest : List β} {a : α} (st : σ)
    (hread : read buffer = some (a, rest)) :
    drain read handle (buffer, st) = drain read handle (rest, handle a st) := by
  have hlive : hasMessage read (buffer, st) = true := by simp [hasMessage, hread]
  show runLoop _ _ _ _ = _
  rw [runLoop_live (falls_drain h) hlive]
  simp [drain, takeMessage, hread]

theorem drain_none {buffer : List β} (st : σ) (hread : read buffer = none) :
    drain read handle (buffer, st) = (buffer, st) := by
  apply runLoop_stop
  simp [hasMessage, hread]

/-- To take what can be taken before more bytes come makes no difference. -/
theorem feed_drain (h : Framing read) (t : List β) :
    ∀ s : List β × σ, feed read handle (drain read handle s) t = feed read handle s t := by
  have hall : ∀ n (s : List β × σ), s.1.length ≤ n →
      feed read handle (drain read handle s) t = feed read handle s t := by
    intro n
    induction n with
    | zero =>
      intro hand hn
      obtain ⟨buffer, st⟩ := hand
      cases hread : read buffer with
      | none => rw [drain_none st hread]
      | some p => exact absurd (h.shrinks hread) (by simp at hn; simp [hn])
    | succ n ih =>
      intro hand hn
      obtain ⟨buffer, st⟩ := hand
      cases hread : read buffer with
      | none => rw [drain_none st hread]
      | some p =>
        obtain ⟨a, rest⟩ := p
        have hshrinks := h.shrinks hread
        rw [drain_some h st hread, ih _ (by simp at hn ⊢; omega)]
        show drain _ _ _ = drain _ _ _
        rw [drain_some h st (h.stable t hread)]
  exact fun s => hall _ s (Nat.le_refl _)

/-- However the bytes are cut, they are taken as one chunk is. -/
theorem foldl_feed (h : Framing read) (handle : α → σ → σ) (st : σ) :
    ∀ (chunks : List (List β)) (buffer : List β),
    chunks.foldl (feed read handle) (drain read handle (buffer, st)) =
      drain read handle (buffer ++ chunks.flatten, st) := by
  intro chunks
  induction chunks with
  | nil => simp
  | cons chunk chunks ih =>
    intro buffer
    rw [List.foldl_cons, feed_drain h]
    show chunks.foldl _ (drain _ _ (buffer ++ chunk, st)) = _
    rw [ih]
    simp

/-- The messages of the buffer are taken in order, and what follows them is kept. -/
theorem drain_flatMap (h : Framing read) (handle : α → σ → σ) {enc : ι → List β} {message : ι → α} :
    ∀ {is : List ι} (st : σ) {part : List β},
      (∀ i ∈ is, ∀ rest, read (enc i ++ rest) = some (message i, rest)) → read part = none →
      drain read handle (is.flatMap enc ++ part, st) =
        (part, (is.map message).foldl (fun st a => handle a st) st) := by
  intro is
  induction is with
  | nil =>
    intro st part _ hpart
    simpa using drain_none st hpart
  | cons i is ih =>
    intro st part his hpart
    rw [List.flatMap_cons, List.append_assoc, drain_some h st (his i List.mem_cons_self _)]
    exact ih _ (fun j hj => his j (List.mem_cons_of_mem i hj)) hpart

/-- The bytes that have come, as messages and the beginning of one more. -/
structure Arrived (enc : ι → List β) (is : List ι) (bytes : List β) (done : List ι)
    (part : List β) : Prop where
  bytes_eq : bytes = done.flatMap enc ++ part
  /-- The messages that are all there are the first ones, and of the next one, if there is one,
  some bytes are still to come. -/
  order : is = done ∧ part = [] ∨
    ∃ i is', is = done ++ i :: is' ∧ part <+: enc i ∧ part ≠ enc i

/-- The bytes that have come can be seen so wherever they end. -/
theorem exists_arrived {enc : ι → List β} : ∀ {is : List ι} {bytes : List β},
    bytes <+: is.flatMap enc → ∃ done part, Arrived enc is bytes done part := by
  intro is
  induction is with
  | nil =>
    intro bytes h
    have hbytes : bytes = [] := by simpa using h
    exact ⟨[], [], ⟨by simp [hbytes], Or.inl ⟨rfl, rfl⟩⟩⟩
  | cons i is ih =>
    intro bytes h
    rw [List.flatMap_cons] at h
    by_cases hshort : bytes.length < (enc i).length
    · have hprefix : bytes <+: enc i :=
        List.prefix_of_prefix_length_le h (List.prefix_append _ _) (Nat.le_of_lt hshort)
      refine ⟨[], bytes, ⟨by simp, Or.inr ⟨i, is, rfl, hprefix, ?_⟩⟩⟩
      intro heq
      simp [heq] at hshort
    · have hwhole : enc i <+: bytes :=
        List.prefix_of_prefix_length_le (List.prefix_append _ _) h (by omega)
      obtain ⟨bytes', rfl⟩ := hwhole
      obtain ⟨done, part, harrived⟩ := ih ((List.prefix_append_right_inj _).mp h)
      refine ⟨i :: done, part, ⟨by simp [harrived.bytes_eq], ?_⟩⟩
      rcases harrived.order with ⟨rfl, hpart⟩ | ⟨j, is', rfl, hpart⟩
      · exact Or.inl ⟨rfl, hpart⟩
      · exact Or.inr ⟨j, is', rfl, hpart⟩

end Lib
