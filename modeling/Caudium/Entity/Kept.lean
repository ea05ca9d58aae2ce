import Caudium.Entity.Expand

/-!
# Texts the entity parser keeps (`entparse.c`)

A text that nothing is resolved in should come out as it went in, with one '&' for every "&&"
(`collapse`). `Kept` are the texts in which every '&' is one of a pair or begins a reference that
ends and fits the parser's buffers. `NameAhead` and `PartsAhead` say the same of what is ahead of
a cursor within a reference, with a rule for each byte that may be next.
-/

namespace Caudium.Entity

open Lib (Bytes)

/-! ## Texts that are kept -/

/-- The text with one '&' for each "&&". -/
def collapse : Bytes → Bytes
  | c :: c' :: rest =>
    if c = amp ∧ c' = amp then amp :: collapse rest else c :: collapse (c' :: rest)
  | rest => rest

/-- What follows the first byte of the first part, which is at the index `k - 1` of
`entfullname`. -/
structure Tail (k : Nat) (more : Bytes) : Prop where
  plain : ∀ b ∈ more, b ≠ amp ∧ b ≠ semicolon
  room : ∀ i b, more[i]? = some b → b ≠ dot → k + i < maxEntsize
  fits : k + more.length ≤ maxEntsize + 1

/-- What may stand between '&' and ';': a name, or a name, a dot, any byte, and dots and other
bytes, so many that all of it fits. -/
inductive Reference : Bytes → Prop
  | name {n : Bytes} (hn : NameOk n) (hlen : n.length ≤ maxEntsize) : Reference n
  | parts {n more : Bytes} (x : UInt8) (hn : NameOk n) (hlen : n.length ≤ maxEntsize)
    (hmore : Tail (n.length + 2) more) : Reference (n ++ dot :: x :: more)

/-- A text in which every '&' is one of a pair or begins a reference. -/
inductive Kept : Bytes → Prop
  | nil : Kept []
  | byte {c : UInt8} {rest : Bytes} (hc : c ≠ amp) (h : Kept rest) : Kept (c :: rest)
  | pair {rest : Bytes} (h : Kept rest) : Kept (amp :: amp :: rest)
  | reference {body rest : Bytes} (hbody : Reference body) (h : Kept rest) :
    Kept (amp :: (body ++ semicolon :: rest))

theorem collapse_cons {c : UInt8} (hc : c ≠ amp) (rest : Bytes) :
    collapse (c :: rest) = c :: collapse rest := by
  cases rest with
  | nil => rfl
  | cons c' rest => exact if_neg fun h => hc h.1

theorem collapse_pair (rest : Bytes) : collapse (amp :: amp :: rest) = amp :: collapse rest :=
  if_pos ⟨rfl, rfl⟩

theorem collapse_amp {rest : Bytes} (h : rest.head? ≠ some amp) :
    collapse (amp :: rest) = amp :: collapse rest := by
  cases rest with
  | nil => rfl
  | cons c rest =>
    refine if_neg fun hc => h ?_
    rw [hc.2]
    rfl

/-- All bytes but '&' are there. -/
theorem countP_collapse {q : UInt8 → Bool} (hq : q amp = false) (l : Bytes) :
    (collapse l).countP q = l.countP q := by
  fun_induction collapse l with
  | case1 c c' rest hpair ih =>
    obtain ⟨rfl, rfl⟩ := hpair
    have hnot : ¬q amp = true := by
      rw [hq]
      decide
    rw [List.countP_cons_of_neg hnot, List.countP_cons_of_neg hnot, List.countP_cons_of_neg hnot, ih]
  | case2 c c' rest hpair ih => rw [List.countP_cons, List.countP_cons, ih]
  | case3 rest hshort => rfl

/-! ## What is ahead of the cursor -/

/-- Ahead of the cursor, with `k` bytes of the reference read, is its end, and behind it a text
that is kept. -/
def PartsAhead (k : Nat) (rest : Bytes) : Prop :=
  ∃ more rest', rest = more ++ semicolon :: rest' ∧ Tail k more ∧ Kept rest'

/-- The same, with `k` bytes of the name read. -/
def NameAhead (k : Nat) (rest : Bytes) : Prop :=
  ∃ n rest', rest = n ++ rest' ∧ (∀ b ∈ n, b ≠ amp ∧ b ≠ semicolon ∧ b ≠ dot) ∧
    0 < k + n.length ∧ k + n.length ≤ maxEntsize ∧
    ((∃ rest'', rest' = semicolon :: rest'' ∧ Kept rest'') ∨
      ∃ x rest'', rest' = dot :: x :: rest'' ∧ PartsAhead (k + n.length + 2) rest'')

theorem not_partsAhead_nil (k : Nat) : ¬PartsAhead k [] := by
  intro hand
  obtain ⟨more, rest', h, -⟩ := hand
  exact List.append_ne_nil_of_right_ne_nil _ (List.cons_ne_nil _ _) h.symm

theorem not_partsAhead_amp (k : Nat) (rest : Bytes) : ¬PartsAhead k (amp :: rest) := by
  intro hand
  obtain ⟨more, rest', h, htail, -⟩ := hand
  cases more with
  | nil => exact absurd (List.cons.inj h).1 (by decide)
  | cons b more =>
    obtain ⟨rfl, -⟩ := List.cons.inj h
    exact (htail.plain amp List.mem_cons_self).1 rfl

theorem partsAhead_semicolon {k : Nat} (hk : k ≤ maxEntsize + 1) (rest : Bytes) :
    PartsAhead k (semicolon :: rest) ↔ Kept rest := by
  constructor
  · intro hand
    obtain ⟨more, rest', h, htail, hkept⟩ := hand
    cases more with
    | nil =>
      obtain ⟨-, rfl⟩ := List.cons.inj h
      exact hkept
    | cons b more =>
      obtain ⟨rfl, -⟩ := List.cons.inj h
      exact absurd rfl (htail.plain semicolon List.mem_cons_self).2
  · intro hkept
    exact ⟨[], rest, rfl, ⟨nofun, nofun, hk⟩, hkept⟩

theorem partsAhead_cons {k : Nat} {c : UInt8} (hamp : c ≠ amp) (hsemi : c ≠ semicolon)
    (rest : Bytes) :
    PartsAhead k (c :: rest) ↔ (c ≠ dot → k < maxEntsize) ∧ PartsAhead (k + 1) rest := by
  constructor
  · intro hand
    obtain ⟨more, rest', h, htail, hkept⟩ := hand
    cases more with
    | nil => exact absurd (List.cons.inj h).1 hsemi
    | cons b more =>
      obtain ⟨rfl, rfl⟩ := List.cons.inj h
      refine ⟨htail.room 0 c rfl, more, rest', rfl, ⟨?_, ?_, ?_⟩, hkept⟩
      · exact fun b hb => htail.plain b (List.mem_cons_of_mem _ hb)
      · intro i b hi hb
        have hlt := htail.room (i + 1) b hi hb
        omega
      · have hfits := htail.fits
        rw [List.length_cons] at hfits
        omega
  · intro hand
    obtain ⟨hroom, more, rest', rfl, htail, hkept⟩ := hand
    refine ⟨c :: more, rest', rfl, ⟨?_, ?_, ?_⟩, hkept⟩
    · intro b hb
      rcases List.mem_cons.mp hb with rfl | hb
      · exact ⟨hamp, hsemi⟩
      · exact htail.plain b hb
    · intro i b hi hb
      cases i with
      | zero =>
        cases hi
        exact hroom hb
      | succ i =>
        have hlt := htail.room i b hi hb
        omega
    · have hfits := htail.fits
      rw [List.length_cons]
      omega

theorem not_nameAhead_nil (k : Nat) : ¬NameAhead k [] := by
  intro hand
  obtain ⟨n, rest', h, -, -, -, ⟨rest'', rfl, -⟩ | ⟨x, rest'', rfl, -⟩⟩ := hand
  · exact List.append_ne_nil_of_right_ne_nil _ (List.cons_ne_nil _ _) h.symm
  · exact List.append_ne_nil_of_right_ne_nil _ (List.cons_ne_nil _ _) h.symm

theorem not_nameAhead_amp (k : Nat) (rest : Bytes) : ¬NameAhead k (amp :: rest) := by
  intro hand
  obtain ⟨n, rest', h, hplain, -, -, hend⟩ := hand
  cases n with
  | nil =>
    rcases hend with ⟨rest'', rfl, -⟩ | ⟨x, rest'', rfl, -⟩
    · exact absurd (List.cons.inj h).1 (by decide)
    · exact absurd (List.cons.inj h).1 (by decide)
  | cons b n =>
    obtain ⟨rfl, -⟩ := List.cons.inj h
    exact (hplain amp List.mem_cons_self).1 rfl

theorem nameAhead_semicolon {k : Nat} (hk : k ≤ maxEntsize) (rest : Bytes) :
    NameAhead k (semicolon :: rest) ↔ 0 < k ∧ Kept rest := by
  constructor
  · intro hand
    obtain ⟨n, rest', h, hplain, hpos, -, hend⟩ := hand
    cases n with
    | nil =>
      rcases hend with ⟨rest'', rfl, hkept⟩ | ⟨x, rest'', rfl, -⟩
      · obtain ⟨-, rfl⟩ := List.cons.inj h
        exact ⟨hpos, hkept⟩
      · exact absurd (List.cons.inj h).1 (by decide)
    | cons b n =>
      obtain ⟨rfl, -⟩ := List.cons.inj h
      exact absurd rfl (hplain semicolon List.mem_cons_self).2.1
  · intro hand
    obtain ⟨hpos, hkept⟩ := hand
    exact ⟨[], _, rfl, nofun, hpos, hk, Or.inl ⟨rest, rfl, hkept⟩⟩

theorem nameAhead_dot {k : Nat} (hk : k ≤ maxEntsize) (rest : Bytes) :
    NameAhead k (dot :: rest) ↔ 0 < k ∧ ∃ x rest', rest = x :: rest' ∧ PartsAhead (k + 2) rest' := by
  constructor
  · intro hand
    obtain ⟨n, rest', h, hplain, hpos, -, hend⟩ := hand
    cases n with
    | nil =>
      rcases hend with ⟨rest'', rfl, -⟩ | ⟨x, rest'', rfl, hparts⟩
      · exact absurd (List.cons.inj h).1 (by decide)
      · obtain ⟨-, rfl⟩ := List.cons.inj h
        exact ⟨hpos, x, rest'', rfl, hparts⟩
    | cons b n =>
      obtain ⟨rfl, -⟩ := List.cons.inj h
      exact absurd rfl (hplain dot List.mem_cons_self).2.2
  · intro hand
    obtain ⟨hpos, x, rest', rfl, hparts⟩ := hand
    exact ⟨[], _, rfl, nofun, hpos, hk, Or.inr ⟨x, rest', rfl, hparts⟩⟩

theorem nameAhead_cons {k : Nat} {c : UInt8} (hc : c ≠ amp ∧ c ≠ semicolon ∧ c ≠ dot)
    (rest : Bytes) : NameAhead k (c :: rest) ↔ NameAhead (k + 1) rest := by
  constructor
  · intro hand
    obtain ⟨n, rest', h, hplain, hpos, hlen, hend⟩ := hand
    cases n with
    | nil =>
      rcases hend with ⟨rest'', rfl, -⟩ | ⟨x, rest'', rfl, -⟩
      · exact absurd (List.cons.inj h).1 hc.2.1
      · exact absurd (List.cons.inj h).1 hc.2.2
    | cons b n =>
      obtain ⟨rfl, rfl⟩ := List.cons.inj h
      rw [List.length_cons] at hlen hend
      refine ⟨n, rest', rfl, fun b hb => hplain b (List.mem_cons_of_mem _ hb), by omega, by omega, ?_⟩
      rwa [Nat.add_right_comm k 1]
  · intro hand
    obtain ⟨n, rest', rfl, hplain, hpos, hlen, hend⟩ := hand
    refine ⟨c :: n, rest', rfl, ?_, ?_, ?_, ?_⟩
    · intro b hb
      rcases List.mem_cons.mp hb with rfl | hb
      · exact hc
      · exact hplain b hb
    · rw [List.length_cons]
      omega
    · rw [List.length_cons]
      omega
    · rw [List.length_cons, ← Nat.add_assoc]
      rwa [Nat.add_right_comm k 1] at hend

/-- Too long a name has no end. -/
theorem not_nameAhead_long {k : Nat} (hk : maxEntsize < k) (rest : Bytes) : ¬NameAhead k rest := by
  intro h
  obtain ⟨n, rest', -, -, -, hlen, -⟩ := h
  omega

theorem not_partsAhead_long {k : Nat} (hk : maxEntsize + 1 < k) (rest : Bytes) :
    ¬PartsAhead k rest := by
  intro h
  obtain ⟨more, rest', -, htail, -⟩ := h
  have hfits := htail.fits
  omega

theorem kept_cons {c : UInt8} (hc : c ≠ amp) (rest : Bytes) : Kept (c :: rest) ↔ Kept rest := by
  refine ⟨fun h => ?_, .byte hc⟩
  cases h with
  | byte _ h => exact h
  | pair h => exact absurd rfl hc
  | reference hbody h => exact absurd rfl hc

/-- No reference begins with '&'. -/
theorem Reference.head {body : Bytes} (h : Reference body) :
    ∃ c rest, body = c :: rest ∧ c ≠ amp := by
  have hhead : ∀ {n : Bytes}, NameOk n → ∃ c rest, n = c :: rest ∧ c ≠ amp := by
    intro n hn
    obtain ⟨c, rest, rfl⟩ := List.exists_cons_of_ne_nil hn.nonempty
    exact ⟨c, rest, rfl, (hn.plain c List.mem_cons_self).1⟩
  cases h with
  | name hn _ => exact hhead hn
  | parts x hn _ _ =>
    obtain ⟨c, rest, rfl, hc⟩ := hhead hn
    exact ⟨c, _, rfl, hc⟩

theorem kept_pair (rest : Bytes) : Kept (amp :: amp :: rest) ↔ Kept rest := by
  refine ⟨fun h => ?_, .pair⟩
  generalize htext : amp :: amp :: rest = text at h
  cases h with
  | nil => cases htext
  | byte hc h => exact absurd (List.cons.inj htext).1.symm hc
  | pair h =>
    obtain ⟨-, htext⟩ := List.cons.inj htext
    obtain ⟨-, rfl⟩ := List.cons.inj htext
    exact h
  | reference hbody h =>
    obtain ⟨c, body, rfl, hc⟩ := hbody.head
    obtain ⟨-, htext⟩ := List.cons.inj htext
    exact absurd (List.cons.inj htext).1.symm hc

theorem kept_amp {rest : Bytes} (hrest : rest.head? ≠ some amp) :
    Kept (amp :: rest) ↔ NameAhead 0 rest := by
  constructor
  · intro h
    generalize htext : amp :: rest = text at h
    cases h with
    | nil => cases htext
    | byte hc h => exact absurd (List.cons.inj htext).1.symm hc
    | pair h =>
      obtain ⟨-, rfl⟩ := List.cons.inj htext
      exact absurd rfl hrest
    | reference hbody h =>
      obtain ⟨-, rfl⟩ := List.cons.inj htext
      cases hbody with
      | name hn hlen =>
        have hpos := List.length_pos_iff.mpr hn.nonempty
        exact ⟨_, _, rfl, hn.plain, by omega, by omega, Or.inl ⟨_, rfl, h⟩⟩
      | @parts n more x hn hlen hmore =>
        have hpos := List.length_pos_iff.mpr hn.nonempty
        refine ⟨n, _, List.append_assoc _ _ _, hn.plain, by omega, by omega, Or.inr ⟨x, _, rfl, ?_⟩⟩
        rw [Nat.zero_add]
        exact ⟨more, _, rfl, hmore, h⟩
  · intro hand
    obtain ⟨n, rest', rfl, hplain, hpos, hlen, hend⟩ := hand
    have hn : NameOk n := ⟨List.length_pos_iff.mp (by omega), hplain⟩
    rcases hend with ⟨rest'', rfl, h⟩ | ⟨x, rest'', rfl, more, rest''', rfl, hmore, h⟩
    · exact .reference (.name hn (by omega)) h
    · rw [Nat.zero_add] at hmore
      have hbody : n ++ dot :: x :: (more ++ semicolon :: rest''') =
          (n ++ dot :: x :: more) ++ semicolon :: rest''' := by
        rw [List.append_assoc]
        rfl
      rw [hbody]
      exact .reference (.parts x hn (by omega) hmore) h

end Caudium.Entity
