import Caudium.Http.ParseHTTP
import Mathlib.Data.List.Induction

/-!
# Feeding the request parser in pieces

`append` keeps no search state between calls: it goes back three bytes and counts
newlines from zero. Against the search that reads everything from the start
(`fullEnd`) this forgets one thing only, that the carriage returns it looks at
come after a newline further back. So the end of the headers is overlooked
exactly when what is buffered ends in a newline and three or more carriage
returns and the new piece brings the second newline (`Hides`,
`rescanEnd_eq_fullEnd`, `rescanEnd_ne_fullEnd`). Once overlooked it is never
found again, since later searches start further on.

`append_split_iff` puts it together over a whole sequence of pieces.
-/

namespace Caudium.Http

open Lib (Bytes Str Mapping)

/-! ## The search -/

theorem slash_lf (n : Nat) : slash n lf = n + 1 := rfl

theorem slash_cr (n : Nat) : slash n cr = n := rfl

theorem slash_other {n : Nat} {b : UInt8} (hlf : b ≠ lf) (hcr : b ≠ cr) : slash n b = 0 := by
  rw [slash, if_neg hlf, if_pos hcr]

theorem scan_cons {n : Nat} (hn : n < 2) (b : UInt8) (bs : Bytes) :
    scan (b :: bs) n = ((scan bs (slash n b)).1 + 1, (scan bs (slash n b)).2) :=
  if_pos hn

/-- The search stops at two. -/
theorem scan_stop {n : Nat} (hn : ¬ n < 2) (bs : Bytes) : scan bs n = (0, n) := by
  cases bs with
  | nil => rfl
  | cons b bs => exact if_neg hn

theorem scan_two (bs : Bytes) : scan bs 2 = (0, 2) := scan_stop (by omega) bs

theorem slash_le {n : Nat} (hn : n < 2) (b : UInt8) : slash n b ≤ 2 := by
  unfold slash
  split
  · omega
  · split <;> omega

theorem scan_le (bs : Bytes) : ∀ {n : Nat}, n ≤ 2 → (scan bs n).2 ≤ 2 := by
  induction bs with
  | nil => exact fun h => h
  | cons b bs ih =>
    intro n hn
    by_cases h2 : n < 2
    · rw [scan_cons h2]
      exact ih (slash_le h2 b)
    · rw [scan_stop h2]
      exact hn

/-- The search moves over at most all it is given. -/
theorem scan_fst_le (bs : Bytes) : ∀ n : Nat, (scan bs n).1 ≤ bs.length := by
  induction bs with
  | nil => exact fun n => Nat.le_refl 0
  | cons b bs ih =>
    intro n
    by_cases h2 : n < 2
    · rw [scan_cons h2]
      exact Nat.succ_le_succ (ih _)
    · rw [scan_stop h2]
      exact Nat.zero_le _

/-- A search that found nothing goes on where it stopped. -/
theorem scan_append (xs ys : Bytes) : ∀ {n : Nat}, n < 2 → (scan xs n).2 ≠ 2 →
    scan (xs ++ ys) n = (xs.length + (scan ys (scan xs n).2).1, (scan ys (scan xs n).2).2) := by
  induction xs with
  | nil => intro n _ _; simp [scan]
  | cons b bs ih =>
    intro n hn h
    rw [scan_cons hn] at h ⊢
    rw [List.cons_append, scan_cons hn]
    have hs : slash n b < 2 := by
      have hle := slash_le hn b
      rcases Nat.lt_or_ge (slash n b) 2 with hlt | hge
      · exact hlt
      · rw [show slash n b = 2 by omega, scan_two] at h
        exact absurd rfl h
    rw [ih hs h, List.length_cons]
    simp only [Prod.mk.injEq, and_true]
    omega

/-- A search that found something finds it whatever follows. -/
theorem scan_append_found (xs ys : Bytes) : ∀ {n : Nat}, n ≤ 2 → (scan xs n).2 = 2 →
    scan (xs ++ ys) n = scan xs n := by
  induction xs with
  | nil =>
    intro n _ h
    rw [show n = 2 from h, scan_two, scan_two]
  | cons b bs ih =>
    intro n hn h
    by_cases h2 : n < 2
    · rw [scan_cons h2] at h ⊢
      rw [List.cons_append, scan_cons h2, ih (slash_le h2 b) h]
    · rw [show n = 2 by omega, scan_two, scan_two]

/-- Carriage returns leave the count alone. -/
theorem scan_replicate_cr (k : Nat) : ∀ {n : Nat}, n < 2 → scan (List.replicate k cr) n = (k, n) := by
  induction k with
  | zero => intro n _; rfl
  | succ k ih => intro n hn; rw [List.replicate_succ, scan_cons hn, slash_cr, ih hn]

/-- What it means to have seen a newline before: nothing, unless only carriage
returns follow, or the second newline comes after them. -/
theorem scan_one_cases (ys : Bytes) :
    (∃ k, ys = List.replicate k cr) ∨ (∃ k rest, ys = List.replicate k cr ++ lf :: rest) ∨
      scan ys 1 = scan ys 0 := by
  induction ys with
  | nil => exact Or.inl ⟨0, rfl⟩
  | cons b bs ih =>
    by_cases hlf : b = lf
    · exact Or.inr (Or.inl ⟨0, bs, by rw [hlf]; rfl⟩)
    · by_cases hcr : b = cr
      · subst hcr
        rcases ih with ⟨k, hk⟩ | ⟨k, rest, hk⟩ | h
        · exact Or.inl ⟨k + 1, by rw [hk, List.replicate_succ]⟩
        · exact Or.inr (Or.inl ⟨k + 1, rest, by rw [hk, List.replicate_succ, List.cons_append]⟩)
        · refine Or.inr (Or.inr ?_)
          rw [scan_cons (by omega), scan_cons (by omega), slash_cr, slash_cr, h]
      · refine Or.inr (Or.inr ?_)
        rw [scan_cons (by omega), scan_cons (by omega), slash_other hlf hcr, slash_other hlf hcr]

/-- The second newline after carriage returns is found from a count of one. -/
theorem scan_one_ends (k : Nat) (rest : Bytes) :
    scan (List.replicate k cr ++ lf :: rest) 1 = (k + 1, 2) := by
  have hcr : (scan (List.replicate k cr) 1).2 = 1 := by rw [scan_replicate_cr k (by omega)]
  rw [scan_append _ _ (by omega) (by rw [hcr]; omega), hcr, List.length_replicate,
    scan_cons (by omega), slash_lf, scan_two]

/-- A count of one means a newline and then carriage returns. -/
theorem scan_eq_one (xs : Bytes) : (scan xs 0).2 = 1 →
    ∃ pre k, xs = pre ++ lf :: List.replicate k cr := by
  induction xs using List.reverseRecOn with
  | nil => intro h; cases h
  | append_singleton xs b ih =>
    intro h
    have hfirst : (scan xs 0).2 ≠ 2 := by
      intro h2
      rw [scan_append_found xs [b] (by omega) h2, h2] at h
      cases h
    rw [scan_append xs [b] (by omega) hfirst] at h
    have hle := scan_le xs (show 0 ≤ 2 by omega)
    rw [scan_cons (by omega)] at h
    by_cases hlf : b = lf
    · exact ⟨xs, 0, by rw [hlf]; rfl⟩
    · by_cases hcr : b = cr
      · subst hcr
        rw [slash_cr] at h
        obtain ⟨pre, k, hk⟩ := ih h
        refine ⟨pre, k + 1, ?_⟩
        rw [hk, List.replicate_succ', List.append_assoc, List.cons_append]
      · rw [slash_other hlf hcr] at h
        cases h

/-- What is found from zero in the tail of a string is found in the string. -/
theorem scan_suffix_found (xs ys : Bytes) (h : (scan ys 0).2 = 2) : (scan (xs ++ ys) 0).2 = 2 := by
  by_cases hx : (scan xs 0).2 = 2
  · rw [scan_append_found xs ys (by omega) hx, hx]
  · rw [scan_append xs ys (by omega) hx]
    have hle := scan_le xs (show 0 ≤ 2 by omega)
    rcases (show (scan xs 0).2 = 0 ∨ (scan xs 0).2 = 1 by omega) with h0 | h1
    · rw [h0]; exact h
    · rw [h1]
      rcases scan_one_cases ys with ⟨k, rfl⟩ | ⟨k, rest, rfl⟩ | heq
      · rw [scan_replicate_cr k (by omega)] at h; cases h
      · rw [scan_one_ends]
      · rw [heq]; exact h

/-- A search that finds something has moved. -/
theorem scan_fst_pos {xs : Bytes} {n : Nat} (hn : n < 2) (h : (scan xs n).2 = 2) :
    0 < (scan xs n).1 := by
  cases xs with
  | nil =>
    have h2 : n = 2 := h
    omega
  | cons b bs =>
    rw [scan_cons hn]
    exact Nat.succ_pos _

/-! ## Searching again from three bytes back -/

/-- Where the search over `c`, which begins at `start`, ends from the count `n`. -/
def endAfter (start n : Nat) (c : Bytes) : Option Nat :=
  if (scan c n).2 = 2 then some (start + (scan c n).1) else none

/-- The search over everything. -/
def fullEnd (w : Bytes) : Option Nat := endAfter 0 0 w

/-- What `append` looks at again of what is buffered. -/
def recent (before : Bytes) : Bytes := before.drop (before.length - 3)

/-- The search `append` makes when `chunk` arrives. -/
def rescanEnd (before chunk : Bytes) : Option Nat :=
  endAfter (before.length - 3) 0 ((before ++ chunk).drop (before.length - 3))

/-- The end of the headers that `append` overlooks: the first newline and three
carriage returns or more are buffered, and `chunk` brings the second newline. -/
def Hides (before chunk : Bytes) : Prop :=
  ∃ pre k m rest, before = pre ++ lf :: List.replicate (k + 3) cr ∧
    chunk = List.replicate m cr ++ lf :: rest

theorem length_recent (before : Bytes) : (recent before).length = min before.length 3 := by
  rw [recent, List.length_drop]
  omega

theorem take_append_recent (before : Bytes) :
    before.take (before.length - 3) ++ recent before = before :=
  List.take_append_drop _ _

/-- What is looked at again later on is part of what is looked at now. -/
theorem recent_append (before chunk : Bytes) :
    ∃ front, recent before ++ chunk = front ++ recent (before ++ chunk) := by
  have hdrop : recent before ++ chunk = (before ++ chunk).drop (before.length - 3) :=
    (List.drop_append_of_le_length (Nat.sub_le _ _)).symm
  have hlater : recent (before ++ chunk) = (recent before ++ chunk).drop
      ((before ++ chunk).length - 3 - (before.length - 3)) := by
    rw [hdrop, List.drop_drop, recent, List.length_append]
    congr 1
    omega
  rw [hlater]
  exact ⟨_, (List.take_append_drop _ _).symm⟩

theorem endAfter_eq_none {start n : Nat} {c : Bytes} :
    endAfter start n c = none ↔ (scan c n).2 ≠ 2 := by
  unfold endAfter
  split <;> simp [*]

theorem endAfter_pos {start n : Nat} {c : Bytes} {p : Nat} (hn : n < 2)
    (h : endAfter start n c = some p) : start < p := by
  unfold endAfter at h
  split at h
  next hfound =>
    have hpos := scan_fst_pos hn hfound
    rw [Option.some.injEq] at h
    omega
  · cases h

theorem endAfter_le {start n : Nat} {c : Bytes} {p : Nat} (h : endAfter start n c = some p) :
    p ≤ start + c.length := by
  have hle := scan_fst_le c n
  unfold endAfter at h
  split at h
  · rw [Option.some.injEq] at h
    omega
  · cases h

theorem fullEnd_isSome (w : Bytes) : (fullEnd w).isSome ↔ (scan w 0).2 = 2 := by
  unfold fullEnd endAfter
  split <;> simp [*]

/-- Over a string nothing is found in, the search goes on in what follows. -/
theorem fullEnd_append {before : Bytes} (h : (scan before 0).2 ≠ 2) (chunk : Bytes) :
    fullEnd (before ++ chunk) = endAfter before.length (scan before 0).2 chunk := by
  rw [fullEnd, endAfter, scan_append before chunk (by omega) h, endAfter, Nat.zero_add]

theorem rescanEnd_eq {before : Bytes} (h : (scan (recent before) 0).2 ≠ 2) (chunk : Bytes) :
    rescanEnd before chunk = endAfter before.length (scan (recent before) 0).2 chunk := by
  have hdrop : (before ++ chunk).drop (before.length - 3) = recent before ++ chunk :=
    List.drop_append_of_le_length (Nat.sub_le _ _)
  have hlen := length_recent before
  rw [rescanEnd, endAfter, hdrop, scan_append _ chunk (by omega) h, endAfter]
  dsimp only
  rw [show before.length - 3 + ((recent before).length + (scan chunk (scan (recent before) 0).2).1)
    = before.length + (scan chunk (scan (recent before) 0).2).1 by omega]

theorem recent_not_found {before : Bytes} (h : (scan before 0).2 ≠ 2) :
    (scan (recent before) 0).2 ≠ 2 := by
  intro hfound
  have h2 := scan_suffix_found (before.take (before.length - 3)) (recent before) hfound
  rw [take_append_recent] at h2
  exact h h2

/-- The last three bytes give the count the whole string gives, unless they are
carriage returns after a newline. -/
theorem recent_count {before : Bytes} (h : (scan before 0).2 ≠ 2) :
    (scan (recent before) 0).2 = (scan before 0).2 ∨
      (scan before 0).2 = 1 ∧ (scan (recent before) 0).2 = 0 ∧
        ∃ pre k, before = pre ++ lf :: List.replicate (k + 3) cr := by
  have hsplit := take_append_recent before
  have hlen := length_recent before
  generalize hA : before.take (before.length - 3) = front at hsplit
  generalize recent before = last at hsplit hlen ⊢
  rw [← hsplit] at h hlen ⊢
  have hfront : (scan front 0).2 ≠ 2 := by
    intro h2
    rw [scan_append_found front last (by omega) h2, h2] at h
    exact h rfl
  have hle := scan_le front (show 0 ≤ 2 by omega)
  rw [scan_append front last (by omega) hfront] at h ⊢
  dsimp only at h ⊢
  rcases (show (scan front 0).2 = 0 ∨ (scan front 0).2 = 1 by omega) with h0 | h1
  · exact Or.inl (by rw [h0])
  · rw [h1] at h ⊢
    rcases scan_one_cases last with ⟨k, rfl⟩ | ⟨k, rest, rfl⟩ | heq
    · -- something stands before the last bytes, so there are three of them
      obtain ⟨pre, j, rfl⟩ := scan_eq_one front h1
      have hk : k = 3 := by
        simp only [List.length_append, List.length_cons, List.length_replicate] at hlen
        omega
      subst hk
      refine Or.inr ⟨by rw [scan_replicate_cr 3 (by omega)], rfl, pre, j, ?_⟩
      rw [List.append_assoc, List.cons_append, List.replicate_append_replicate]
    · rw [scan_one_ends] at h
      exact absurd rfl h
    · exact Or.inl (by rw [heq])

/-- Where nothing is hidden, looking three bytes back is as good as looking at everything. -/
theorem rescanEnd_eq_fullEnd {before chunk : Bytes} (h : (scan before 0).2 ≠ 2)
    (hhides : ¬ Hides before chunk) : rescanEnd before chunk = fullEnd (before ++ chunk) := by
  rw [rescanEnd_eq (recent_not_found h), fullEnd_append h]
  rcases recent_count h with heq | ⟨h1, h0, pre, k, hbefore⟩
  · rw [heq]
  · rw [h0, h1]
    rcases scan_one_cases chunk with ⟨m, rfl⟩ | ⟨m, rest, hchunk⟩ | heq
    · rw [endAfter, endAfter, scan_replicate_cr m (by omega), scan_replicate_cr m (by omega)]
      rfl
    · exact absurd ⟨pre, k, m, rest, hbefore, hchunk⟩ hhides
    · rw [endAfter, endAfter, heq]

/-- Where the end is hidden, the search over everything finds it in `chunk`, and
`append` finds none, or one further on. -/
theorem rescanEnd_ne_fullEnd {before chunk : Bytes} (h : (scan before 0).2 ≠ 2)
    (hhides : Hides before chunk) :
    ∃ p, fullEnd (before ++ chunk) = some p ∧ rescanEnd before chunk ≠ some p := by
  obtain ⟨pre, k, m, rest, hbefore, hchunk⟩ := hhides
  have hpre : (scan pre 0).2 ≠ 2 := by
    intro h2
    rw [hbefore, scan_append_found pre _ (by omega) h2, h2] at h
    exact h rfl
  have hcount : (scan before 0).2 = 1 := by
    have hle := scan_le pre (show 0 ≤ 2 by omega)
    rw [hbefore, scan_append pre _ (by omega) hpre, scan_cons (by omega), slash_lf] at h ⊢
    rcases (show (scan pre 0).2 = 0 ∨ (scan pre 0).2 = 1 by omega) with h0 | h1
    · rw [h0, scan_replicate_cr _ (by omega)]
    · rw [h1, scan_two] at h
      exact absurd rfl h
  have hrecent : recent before = List.replicate 3 cr := by
    have hlen : before.length = pre.length + 1 + k + 3 := by
      rw [hbefore, List.length_append, List.length_cons, List.length_replicate]
      omega
    have hcut : before = (pre ++ lf :: List.replicate k cr) ++ List.replicate 3 cr := by
      rw [hbefore, List.append_assoc, List.cons_append, List.replicate_append_replicate]
    rw [recent, show before.length - 3 = (pre ++ lf :: List.replicate k cr).length by
      rw [List.length_append, List.length_cons, List.length_replicate]; omega]
    nth_rewrite 1 [hcut]
    exact List.drop_left
  have hzero : (scan (recent before) 0).2 = 0 := by rw [hrecent]; rfl
  refine ⟨before.length + (m + 1), ?_, ?_⟩
  · rw [fullEnd_append h, hcount, endAfter, hchunk, scan_one_ends, if_pos rfl]
  · -- from zero, the newline in `chunk` is only the first
    intro hsame
    rw [rescanEnd_eq (recent_not_found h), hzero] at hsame
    have hcr : (scan (List.replicate m cr) 0).2 = 0 := by rw [scan_replicate_cr m (by omega)]
    unfold endAfter at hsame
    rw [hchunk, scan_append _ _ (by omega) (by rw [hcr]; omega), hcr, List.length_replicate,
      scan_cons (by omega), slash_lf] at hsame
    dsimp only at hsame
    split at hsame
    next hfound =>
      have hpos := scan_fst_pos (by omega) hfound
      rw [Option.some.injEq] at hsame
      omega
    · cases hsame

/-! ## Whole sequences of pieces -/

/-- The buffer with `str` copied in. -/
def Buffer.fill (b : Buffer) (str : Bytes) : Buffer :=
  { b with data := b.data ++ str, free := b.free - str.length }

/-- What `append` does, depending on where it finds the end. -/
def Buffer.answer (b : Buffer) (ends : Option Nat) : Nat × Buffer :=
  ends.elim (0, b) (parseRequest b)

theorem Buffer.append_eq {b : Buffer} {str : Bytes} (hfree : str.length < b.free) :
    b.append str = (b.fill str).answer (rescanEnd b.data str) := by
  rw [Buffer.append, if_neg (by omega), rescanEnd, endAfter]
  dsimp only
  by_cases hfound : (scan ((b.data ++ str).drop (b.data.length - 3)) 0).2 = 2
  · rw [if_neg (not_not_intro hfound), if_pos hfound]
    rfl
  · rw [if_pos hfound, if_neg hfound]
    rfl

theorem Buffer.answer_zero_iff (b : Buffer) (ends : Option Nat) :
    (b.answer ends).1 = 0 ↔ ends = none := by
  cases ends with
  | none => exact ⟨fun _ => rfl, fun _ => rfl⟩
  | some pp => exact ⟨fun h => absurd h (parseRequest_data b pp).1, fun h => by cases h⟩

/-- The parser after pieces at each of which `append` has returned 0. -/
def Buffer.waits : Buffer → List Bytes → Option Buffer
  | b, [] => some b
  | b, c :: cs => if (b.append c).1 = 0 then (b.append c).2.waits cs else none

theorem Buffer.waits_append (cs ds : List Bytes) :
    ∀ b : Buffer, b.waits (cs ++ ds) = (b.waits cs).bind fun b' => b'.waits ds := by
  induction cs with
  | nil => exact fun b => rfl
  | cons c cs ih =>
    intro b
    rw [List.cons_append, Buffer.waits, Buffer.waits]
    split
    · exact ih _
    · rfl

/-- Some piece brings an end that `append` overlooks. -/
def Hidden (cs : List Bytes) : Prop :=
  ∃ before c after, cs = before ++ c :: after ∧ Hides before.flatten c

theorem hidden_concat (cs : List Bytes) (c : Bytes) :
    Hidden (cs ++ [c]) ↔ Hidden cs ∨ Hides cs.flatten c := by
  constructor
  · intro h
    obtain ⟨before, d, after, hsplit, hhides⟩ := h
    rcases List.eq_nil_or_concat after with rfl | ⟨after, e, rfl⟩
    · obtain ⟨rfl, hd⟩ := List.append_inj' hsplit rfl
      cases hd
      exact Or.inr hhides
    · rw [List.concat_eq_append, ← List.cons_append, ← List.append_assoc] at hsplit
      obtain ⟨hcs, -⟩ := List.append_inj' hsplit rfl
      exact Or.inl ⟨before, d, after, hcs, hhides⟩
  · intro h
    obtain ⟨before, d, after, rfl, hhides⟩ | hhides := h
    · exact ⟨before, d, after ++ [c], by rw [List.append_assoc, List.cons_append], hhides⟩
    · exact ⟨cs, c, [], rfl, hhides⟩

variable (other : Mapping Str Bytes) (headers : Mapping Bytes Svalue) (free : Nat)

/-- What is known of the parser while it waits: it has only been filled, its last
three bytes hold no end, and an end is buffered exactly if it has been overlooked. -/
structure Waiting (cs : List Bytes) (b : Buffer) : Prop where
  filled : b = (Buffer.create other headers free).fill cs.flatten
  notRecent : (scan (recent cs.flatten) 0).2 ≠ 2
  overlooked : (scan cs.flatten 0).2 = 2 ↔ Hidden cs

variable {other headers free}

theorem Waiting.nil :
    Waiting other headers free [] (Buffer.create other headers free) where
  filled := rfl
  notRecent := by decide
  overlooked := by
    constructor
    · intro h; cases h
    · intro hand
      obtain ⟨before, c, after, h, -⟩ := hand
      cases before <;> cases h

/-- The step: one more piece at which `append` returns 0. -/
theorem Waiting.step {cs : List Bytes} {b : Buffer} {c : Bytes}
    (h : Waiting other headers free cs b) (hfree : (cs.flatten ++ c).length < free)
    (hzero : (b.append c).1 = 0) : Waiting other headers free (cs ++ [c]) (b.append c).2 := by
  rw [List.length_append] at hfree
  have hdata : b.data = cs.flatten := by rw [h.filled]; rfl
  have hroom : c.length < b.free := by
    rw [h.filled]
    show c.length < free - cs.flatten.length
    omega
  have hflat : (cs ++ [c]).flatten = cs.flatten ++ c := by simp
  rw [Buffer.append_eq hroom, Buffer.answer_zero_iff] at hzero
  rw [Buffer.append_eq hroom, hzero]
  have hnone := hzero
  rw [hdata] at hnone
  refine ⟨?_, ?_, ?_⟩
  · show b.fill c = _
    rw [h.filled, hflat, Buffer.fill, Buffer.fill, Buffer.fill, List.length_append]
    simp only [Buffer.create, List.nil_append, Nat.sub_sub]
  · -- the three last bytes are among those just searched
    obtain ⟨front, hfront⟩ := recent_append cs.flatten c
    rw [rescanEnd_eq h.notRecent, endAfter_eq_none] at hnone
    intro hfound
    have hfound' := scan_suffix_found front _ hfound
    rw [hflat, ← hfront, scan_append _ c (by omega) h.notRecent] at hfound'
    exact hnone hfound'
  · rw [hflat, hidden_concat, ← h.overlooked]
    by_cases hfound : (scan cs.flatten 0).2 = 2
    · rw [scan_append_found _ c (by omega) hfound]
      exact ⟨Or.inl, fun _ => hfound⟩
    · by_cases hhides : Hides cs.flatten c
      · obtain ⟨p, hp, -⟩ := rescanEnd_ne_fullEnd hfound hhides
        have hsome := (fullEnd_isSome (cs.flatten ++ c)).mp (by rw [hp]; rfl)
        exact ⟨fun _ => Or.inr hhides, fun _ => hsome⟩
      · rw [rescanEnd_eq_fullEnd hfound hhides] at hnone
        constructor
        · intro hsome
          rw [← fullEnd_isSome, hnone] at hsome
          cases hsome
        · intro hor
          obtain hold | hnew := hor
          · exact absurd hold hfound
          · exact absurd hnew hhides

/-- The run: all the pieces at which `append` returns 0. -/
theorem Waiting.run (cs : List Bytes) : ∀ {b : Buffer}, cs.flatten.length < free →
    (Buffer.create other headers free).waits cs = some b → Waiting other headers free cs b := by
  induction cs using List.reverseRecOn with
  | nil =>
    intro b _ h
    cases h
    exact Waiting.nil
  | append_singleton cs c ih =>
    intro b hfree h
    have hflat : (cs ++ [c]).flatten = cs.flatten ++ c := by simp
    rw [hflat] at hfree
    rw [Buffer.waits_append, Option.bind_eq_some_iff] at h
    obtain ⟨b', hb', hlast⟩ := h
    rw [Buffer.waits, Buffer.waits] at hlast
    split at hlast
    next hzero =>
      cases hlast
      rw [List.length_append] at hfree
      exact (ih (by omega) hb').step (by rw [List.length_append]; exact hfree) hzero
    · cases hlast

/-- The same return value and the same mappings. -/
structure SameAnswer (r r' : Nat × Buffer) : Prop where
  code : r.1 = r'.1
  other : r.2.other = r'.2.other
  headers : r.2.headers = r'.2.headers

/-- Different ends give different answers: `other["data"]` tells them apart, and
the return value tells them from none. -/
theorem Buffer.sameAnswer_iff {b : Buffer} {e e' : Option Nat}
    (he : ∀ p, e = some p → p ≤ b.data.length) (he' : ∀ p, e' = some p → p ≤ b.data.length) :
    SameAnswer (b.answer e) (b.answer e') ↔ e = e' := by
  constructor
  · intro h
    cases e with
    | none => exact ((b.answer_zero_iff e').mp h.code.symm).symm
    | some p =>
      cases e' with
      | none => exact (b.answer_zero_iff (some p)).mp h.code
      | some q =>
        have hdata := (parseRequest_data b p).2
        have hother : (parseRequest b p).2.other = (parseRequest b q).2.other := h.other
        rw [hother, (parseRequest_data b q).2, Option.some.injEq] at hdata
        have hlen := congrArg List.length hdata
        have hp := he p rfl
        have hq := he' q rfl
        rw [List.length_drop, List.length_drop] at hlen
        rw [show p = q by omega]
  · intro heq
    subst heq
    exact ⟨rfl, rfl, rfl⟩

/-- Fed a request in pieces, the parser answers the last of them as it answers
the whole request if and only if no piece brings an end that is overlooked. -/
theorem append_split_iff {cs : List Bytes} {c : Bytes} {b : Buffer}
    (hfree : (cs ++ [c]).flatten.length < free)
    (hwaits : (Buffer.create other headers free).waits cs = some b) :
    SameAnswer (b.append c)
        ((Buffer.create other headers free).append (cs ++ [c]).flatten) ↔
      ¬ Hidden (cs ++ [c]) := by
  have hflat : (cs ++ [c]).flatten = cs.flatten ++ c := by simp
  rw [hflat] at hfree ⊢
  have hlen := hfree
  rw [List.length_append] at hlen
  have hw := Waiting.run cs (by omega) hwaits
  have hdata : b.data = cs.flatten := by rw [hw.filled]; rfl
  have hroom : c.length < b.free := by
    rw [hw.filled]
    show c.length < free - cs.flatten.length
    omega
  have hsame : b.fill c = (Buffer.create other headers free).fill (cs.flatten ++ c) := by
    rw [hw.filled, Buffer.fill, Buffer.fill, Buffer.fill, List.length_append]
    simp only [Buffer.create, List.nil_append, Nat.sub_sub]
  have hwhole : rescanEnd (Buffer.create other headers free).data (cs.flatten ++ c)
      = fullEnd (cs.flatten ++ c) := rfl
  have hlater : ∀ p, rescanEnd cs.flatten c = some p → cs.flatten.length < p := by
    intro p hp
    have hle := scan_le (recent cs.flatten) (show 0 ≤ 2 by omega)
    have hne := hw.notRecent
    rw [rescanEnd_eq hne] at hp
    exact endAfter_pos (by omega) hp
  rw [Buffer.append_eq hroom, Buffer.append_eq hfree, hsame, hwhole, hdata,
    Buffer.sameAnswer_iff, hidden_concat, ← hw.overlooked]
  · by_cases hfound : (scan cs.flatten 0).2 = 2
    · -- the end lies in what was buffered before, where the last search does not find it
      have hfull : fullEnd (cs.flatten ++ c) = some (scan cs.flatten 0).1 := by
        rw [fullEnd, endAfter, scan_append_found _ c (by omega) hfound, if_pos hfound,
          Nat.zero_add]
      have hle := scan_fst_le cs.flatten 0
      refine ⟨fun heq => ?_, fun hnot => absurd (Or.inl hfound) hnot⟩
      have hlt := hlater _ (heq.trans hfull)
      omega
    · refine ⟨fun heq => ?_, fun hnot => rescanEnd_eq_fullEnd hfound fun h => hnot (Or.inr h)⟩
      intro hor
      obtain hold | hhides := hor
      · exact hfound hold
      · obtain ⟨p, hp, hne⟩ := rescanEnd_ne_fullEnd hfound hhides
        exact hne (heq.trans hp)
  · intro p hp
    rw [rescanEnd_eq hw.notRecent] at hp
    exact (endAfter_le hp).trans_eq (List.length_append).symm
  · intro p hp
    have hle := endAfter_le hp
    rw [Nat.zero_add] at hle
    exact hle

/-- "GET / HTTP/1.0". -/
def sampleLine : Bytes := [71, 69, 84, 32, 47, 32, 72, 84, 84, 80, 47, 49, 46, 48]

/-- A cut inside "\r\n\r\n", with the search going back far enough. -/
theorem append_split_iff_sample :
    SameAnswer
        (((Buffer.create ∅ ∅ 16535).append (sampleLine ++ [cr, lf, cr])).2.append [lf])
        ((Buffer.create ∅ ∅ 16535).append (sampleLine ++ [cr, lf, cr, lf])) ↔
      ¬ Hidden [sampleLine ++ [cr, lf, cr], [lf]] :=
  @append_split_iff ∅ ∅ 16535 [sampleLine ++ [cr, lf, cr]] [lf] _ (by decide) rfl

/-- "GET / HTTP/1.0\n\r\r\r", then "\n": together they end the headers, in two
pieces they do not. -/
theorem append_loses_end :
    ¬ ∀ (other : Mapping Str Bytes) (headers : Mapping Bytes Svalue) (free : Nat)
        (cs : List Bytes) (c : Bytes) (b : Buffer), (cs ++ [c]).flatten.length < free →
      (Buffer.create other headers free).waits cs = some b →
        SameAnswer (b.append c)
          ((Buffer.create other headers free).append (cs ++ [c]).flatten) := by
  intro h
  have hsame := h ∅ ∅ 16535 [sampleLine ++ [lf, cr, cr, cr]] [lf] _ (by decide) rfl
  exact absurd hsame.code (by decide)

end Caudium.Http
