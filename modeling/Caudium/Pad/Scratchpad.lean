import Caudium.Lib.Loop
import Caudium.Lib.Runs
import Mathlib.Algebra.Group.Nat.Defs

/-!
# The scratchpad (scratchpad.h, scratchpad.c)

A thread has one buffer, which `scratchpad_get` hands out to whoever asks for a size, and which
grows by doubling when the size is larger than `buf_size`. Of the buffer itself the model has
how many bytes were allocated for it. `scratchpad_grow` writes each doubled size to `buf_size`
before it knows that it will get there, and before there is memory for it: that is where the
buffer and its size come apart (`pad_sound_iff`).
-/

namespace Caudium.Pad

open Lib (runLoop Falls Always EachStep)

/-- `SPAD_MAX_SIZE`. -/
abbrev spadMaxSize : Nat := 1024 * 1024 * 32

/-- `SPAD_INIT_SIZE`. -/
abbrev spadInitSize : Nat := 1024 * 32

/-- `SPAD_GROWTH_FACTOR`. -/
abbrev spadGrowthFactor : Nat := 1

/-- `SCRATCHPAD`, as `scratchpad_init` is asked for it. -/
structure Scratchpad where
  /-- The bytes allocated for `buf`; `none` is the null pointer. -/
  buf : Option Nat
  bufSize : Nat
  bufMax : Nat
  bufGrowthFactor : Nat
  pos : 0 < bufSize
  size_le : bufSize ≤ bufMax
  max_lt : bufMax < 2 ^ 63
  growth_eq : bufGrowthFactor = spadGrowthFactor

/-- What the allocator does during a call. -/
structure Allocator where
  /-- There is memory for a `SCRATCHPAD`. -/
  pad : Bool
  /-- There is memory for so many bytes. -/
  bytes : Nat → Bool

/-! ## `scratchpad_grow` -/

/-- `buf_size << buf_growth_factor`, a `size_t`. -/
def Scratchpad.doubled (spad : Scratchpad) : Nat :=
  (spad.bufSize <<< spad.bufGrowthFactor) % 2 ^ 64

theorem Scratchpad.doubled_eq (spad : Scratchpad) : spad.doubled = 2 * spad.bufSize := by
  have hlt : spad.bufSize < 2 ^ 63 := Nat.lt_of_le_of_lt spad.size_le spad.max_lt
  rw [doubled, spad.growth_eq, Nat.shiftLeft_eq, Nat.pow_one, Nat.mul_comm]
  exact Nat.mod_eq_of_lt (by omega)

/-- The loop of `scratchpad_grow`, and whether it has returned -2. -/
structure Growing where
  spad : Scratchpad
  failed : Bool

def growLive (wanted : Nat) (s : Growing) : Bool := !s.failed && decide (s.spad.bufSize < wanted)

def growStep (s : Growing) : Growing :=
  if h : s.spad.doubled > s.spad.bufMax then { s with failed := true }
  else
    { s with spad := { s.spad with
        bufSize := s.spad.doubled
        pos := by have hpos := s.spad.pos; rw [Scratchpad.doubled_eq]; omega
        size_le := Nat.le_of_not_lt h } }

theorem growLive_iff {wanted : Nat} {s : Growing} :
    growLive wanted s = true ↔ s.failed = false ∧ s.spad.bufSize < wanted := by
  rw [growLive, Bool.and_eq_true, Bool.not_eq_true', decide_eq_true_eq]

theorem growStep_falls (wanted : Nat) :
    Falls (growLive wanted) growStep (fun s => wanted - s.spad.bufSize) where
  pos s h := by
    have hlt := (growLive_iff.1 h).2
    omega
  fall s h h' := by
    have hlt := (growLive_iff.1 h).2
    have hfailed := (growLive_iff.1 h').1
    have hpos := s.spad.pos
    unfold growStep at hfailed ⊢
    split
    next hbig =>
      rw [dif_pos hbig] at hfailed
      cases hfailed
    next =>
      show wanted - s.spad.doubled < wanted - s.spad.bufSize
      rw [Scratchpad.doubled_eq]
      omega

/-- `scratchpad_grow`: the pad, and what is returned or thrown. -/
def scratchpadGrow (spad : Option Scratchpad) (wanted : Nat) (mem : Allocator) :
    Option Scratchpad × Except String Int :=
  match spad with
  | none => (none, .ok (-1))
  | some spad =>
    let s := runLoop (growLive wanted) growStep (fun s => wanted - s.spad.bufSize) ⟨spad, false⟩
    if s.failed then (some s.spad, .ok (-2))
    -- the old buffer is freed
    else if mem.bytes s.spad.bufSize then
      (some { s.spad with buf := some s.spad.bufSize }, .ok 0)
    else
      (some { s.spad with buf := none },
        .error "Out of memory growing the scratchpad buffer\n")

/-! ## `scratchpad_get` -/

/-- `scratchpad_allocate`. -/
def scratchpadAllocate (maxSize initSize growthFactor : Nat) (hmax : 0 < maxSize)
    (hlt : maxSize < 2 ^ 63) (hinit : 0 < initSize) (hgrowth : growthFactor = spadGrowthFactor)
    (mem : Allocator) : Except String Scratchpad :=
  if mem.pad then
    if mem.bytes initSize then
      .ok
        { buf := some initSize
          bufSize := if initSize > maxSize then maxSize else initSize
          bufMax := maxSize
          bufGrowthFactor := growthFactor
          pos := by split <;> assumption
          size_le := by split <;> omega
          max_lt := hlt
          growth_eq := hgrowth }
    else .error "Error allocating the scratchpad buffer\n"
  else .error "Error allocating the scratchpad\n"

theorem initSize_pos (initSize : Nat) :
    0 < if initSize < spadInitSize then spadInitSize else initSize := by
  split
  next => decide
  next h => exact Nat.lt_of_lt_of_le (by decide) (Nat.le_of_not_lt h)

/-- `scratchpad_init`, as `scratchpad_get` calls it. -/
def scratchpadInit (initSize : Nat) (mem : Allocator) : Except String Scratchpad :=
  scratchpadAllocate spadMaxSize (if initSize < spadInitSize then spadInitSize else initSize)
    spadGrowthFactor (by decide) (by decide) (initSize_pos initSize) rfl mem

/-- What a thread sees: its own pad, and the flag that all threads share. -/
structure Thread where
  spad : Option Scratchpad
  initialized : Bool

/-- A call of `scratchpad_get`. -/
structure Call where
  wanted : Nat
  mem : Allocator

/-- `scratchpad_get`: what it leaves the thread with, and the buffer it returns. -/
def scratchpadGet (t : Thread) (c : Call) : Thread × Except String (Option Nat) :=
  match t.spad, t.initialized with
  | some spad, true =>
    if spad.bufSize < c.wanted then
      match scratchpadGrow (some spad) c.wanted c.mem with
      | (spad', .error e) => ({ t with spad := spad' }, .error e)
      | (spad', .ok (-1)) => ({ t with spad := spad' }, .error "Impossible happened! Magic!\n")
      | (spad', .ok (-2)) =>
        ({ t with spad := spad' },
          .error s!"Wanted size ({c.wanted}) exceeds the maximum scratchpad size ({spad.bufMax})\n")
      | (spad', .ok _) => ({ t with spad := spad' }, .ok (spad'.bind (·.buf)))
    else (t, .ok spad.buf)
  | _, _ =>
    match scratchpadInit c.wanted c.mem with
    | .error e => (t, .error e)
    | .ok spad => ({ spad := some spad, initialized := true }, .ok spad.buf)

/-! ## What growing comes to -/

/-- The loop has doubled the size of `spad` some times, and each time it was too small. -/
structure Doubled (spad : Scratchpad) (wanted k : Nat) (s : Growing) : Prop where
  size : s.spad.bufSize = spad.bufSize * 2 ^ k
  buf : s.spad.buf = spad.buf
  max : s.spad.bufMax = spad.bufMax
  below : spad.bufSize * 2 ^ k < 2 * wanted
  failed : s.failed = true →
    spad.bufSize * 2 ^ k < wanted ∧ spad.bufMax < 2 * (spad.bufSize * 2 ^ k)

theorem mul_two_pow_succ (n k : Nat) : n * 2 ^ (k + 1) = 2 * (n * 2 ^ k) := by
  rw [Nat.pow_succ, ← Nat.mul_assoc, Nat.mul_comm]

theorem Doubled.step {spad : Scratchpad} {wanted k : Nat} {s : Growing}
    (h : Doubled spad wanted k s) (hlive : growLive wanted s = true) :
    ∃ k, Doubled spad wanted k (growStep s) := by
  have hlt := (growLive_iff.1 hlive).2
  rw [h.size] at hlt
  unfold growStep
  split
  next hbig =>
    refine ⟨k, h.size, h.buf, h.max, h.below, fun _ => ⟨hlt, ?_⟩⟩
    rwa [gt_iff_lt, Scratchpad.doubled_eq, h.size, h.max] at hbig
  next =>
    refine ⟨k + 1, ?_, h.buf, h.max, ?_, fun hfailed => ?_⟩
    · show s.spad.doubled = _
      rw [Scratchpad.doubled_eq, h.size, mul_two_pow_succ]
    · rw [mul_two_pow_succ]
      omega
    · have hnot := (growLive_iff.1 hlive).1
      rw [show s.failed = true from hfailed] at hnot
      cases hnot

/-- The loop of `scratchpad_grow`, on a pad that is too small. -/
theorem grow_loop {spad : Scratchpad} {wanted : Nat} (hlt : spad.bufSize < wanted) :
    ∃ k, Doubled spad wanted k
        (runLoop (growLive wanted) growStep (fun s => wanted - s.spad.bufSize) ⟨spad, false⟩) ∧
      ((runLoop (growLive wanted) growStep (fun s => wanted - s.spad.bufSize) ⟨spad, false⟩).failed
        = false → wanted ≤ spad.bufSize * 2 ^ k) := by
  have hdone := Lib.runLoop_done (growStep_falls wanted) ⟨spad, false⟩
  have hstart : ∃ k, Doubled spad wanted k ⟨spad, false⟩ :=
    ⟨0, by rw [Nat.pow_zero, Nat.mul_one], rfl, rfl, by rw [Nat.pow_zero]; omega, nofun⟩
  obtain ⟨k, hk⟩ : ∃ k, Doubled spad wanted k (runLoop (growLive wanted) growStep
      (fun s => wanted - s.spad.bufSize) ⟨spad, false⟩) :=
    Lib.runLoop_inv (P := fun s => ∃ k, Doubled spad wanted k s)
      (fun s hlive ⟨k, hk⟩ => hk.step hlive) hstart
  refine ⟨k, hk, fun hnot => ?_⟩
  rw [← hk.size]
  by_contra hsmall
  rw [growLive_iff.2 ⟨hnot, Nat.lt_of_not_le hsmall⟩] at hdone
  cases hdone

/-! ## Runs -/

/-- A thread between two calls, and what came of the last one: what it asked for, and what it
got. -/
structure State where
  thread : Thread
  last : Option (Nat × Except String (Option Nat))

/-- The next call; what it throws is caught. -/
def step (s : State) (c : Call) : Option State :=
  let r := scratchpadGet s.thread c
  some { thread := r.1, last := some (c.wanted, r.2) }

/-- A thread that has no pad yet; `initialized` is for the other threads to set. -/
def start (initialized : Bool) : State := { thread := ⟨none, initialized⟩, last := none }

/-- The buffer is as large as its size says, and the last call, if it has returned a buffer, one
of the size asked for. -/
structure Sound (s : State) : Prop where
  capacity : ∀ spad, s.thread.spad = some spad → ∃ n, spad.buf = some n ∧ spad.bufSize ≤ n
  served : ∀ wanted b, s.last = some (wanted, .ok b) → ∃ n, b = some n ∧ wanted ≤ n

/-- When the pad has to grow for the call, not even one doubling is allowed, or the first
doubled size that is large enough is, and there is memory for it. -/
def Grows (s : State) (c : Call) : Prop :=
  ∀ spad, s.thread.spad = some spad → s.thread.initialized = true → spad.bufSize < c.wanted →
    spad.bufMax < 2 * spad.bufSize ∨
    ∃ k, c.wanted ≤ spad.bufSize * 2 ^ k ∧ spad.bufSize * 2 ^ k < 2 * c.wanted ∧
      spad.bufSize * 2 ^ k ≤ spad.bufMax ∧ c.mem.bytes (spad.bufSize * 2 ^ k) = true

/-- More memory than the size says is there only for a pad that cannot grow. -/
def Tight (s : State) : Prop :=
  ∀ spad, s.thread.spad = some spad → ∀ n, spad.buf = some n →
    n = spad.bufSize ∨ spad.bufSize = spad.bufMax

/-- What a call can do. -/
inductive Got (t : Thread) (c : Call) : Thread × Except String (Option Nat) → Prop
  /-- There is no memory for the first pad. -/
  | unmade (hpad : ∀ spad, t.spad = some spad → t.initialized = false) (e : String) :
    Got t c (t, .error e)
  | made (hpad : ∀ spad, t.spad = some spad → t.initialized = false) (spad : Scratchpad) (n : Nat)
    (hbuf : spad.buf = some n) (hsize : spad.bufSize ≤ n) (hwanted : c.wanted ≤ n)
    (htight : n = spad.bufSize ∨ spad.bufSize = spad.bufMax) :
    Got t c (⟨some spad, true⟩, .ok spad.buf)
  | large (spad : Scratchpad) (hpad : t.spad = some spad) (hinit : t.initialized = true)
    (hwanted : c.wanted ≤ spad.bufSize) : Got t c (t, .ok spad.buf)
  | grown (spad : Scratchpad) (hpad : t.spad = some spad) (hinit : t.initialized = true)
    (hlt : spad.bufSize < c.wanted) (spad' : Scratchpad) (k : Nat)
    (hsize : spad'.bufSize = spad.bufSize * 2 ^ k) (hmax : spad'.bufMax = spad.bufMax)
    (hwanted : c.wanted ≤ spad'.bufSize) (hfirst : spad'.bufSize < 2 * c.wanted)
    (hmem : c.mem.bytes spad'.bufSize = true) (hbuf : spad'.buf = some spad'.bufSize) :
    Got t c (⟨some spad', true⟩, .ok spad'.buf)
  | noMemory (spad : Scratchpad) (hpad : t.spad = some spad) (hinit : t.initialized = true)
    (hlt : spad.bufSize < c.wanted) (spad' : Scratchpad) (k : Nat)
    (hsize : spad'.bufSize = spad.bufSize * 2 ^ k) (hmax : spad'.bufMax = spad.bufMax)
    (hwanted : c.wanted ≤ spad'.bufSize) (hfirst : spad'.bufSize < 2 * c.wanted)
    (hmem : c.mem.bytes spad'.bufSize = false) (hbuf : spad'.buf = none) (e : String) :
    Got t c (⟨some spad', true⟩, .error e)
  | exceeded (spad : Scratchpad) (hpad : t.spad = some spad) (hinit : t.initialized = true)
    (hlt : spad.bufSize < c.wanted) (spad' : Scratchpad) (k : Nat)
    (hsize : spad'.bufSize = spad.bufSize * 2 ^ k) (hmax : spad'.bufMax = spad.bufMax)
    (hsmall : spad'.bufSize < c.wanted) (hnext : spad.bufMax < 2 * spad'.bufSize)
    (hbuf : spad'.buf = spad.buf) (e : String) : Got t c (⟨some spad', true⟩, .error e)

theorem scratchpadAllocate_cases {maxSize initSize growthFactor : Nat} (hmax : 0 < maxSize)
    (hlt : maxSize < 2 ^ 63) (hinit : 0 < initSize) (hgrowth : growthFactor = spadGrowthFactor)
    (mem : Allocator) :
    (∃ e, scratchpadAllocate maxSize initSize growthFactor hmax hlt hinit hgrowth mem = .error e) ∨
    ∃ spad, scratchpadAllocate maxSize initSize growthFactor hmax hlt hinit hgrowth mem =
        .ok spad ∧ spad.buf = some initSize ∧ spad.bufSize ≤ initSize ∧
      (initSize = spad.bufSize ∨ spad.bufSize = spad.bufMax) := by
  unfold scratchpadAllocate
  split
  next =>
    split
    next =>
      refine Or.inr ⟨_, rfl, rfl, ?_, ?_⟩
      · dsimp only
        split
        next h => exact Nat.le_of_lt h
        next => exact Nat.le_refl _
      · dsimp only
        split
        next => exact Or.inr rfl
        next => exact Or.inl rfl
    next => exact Or.inl ⟨_, rfl⟩
  next => exact Or.inl ⟨_, rfl⟩

theorem le_initSize (wanted : Nat) :
    wanted ≤ if wanted < spadInitSize then spadInitSize else wanted := by
  split
  next h => exact Nat.le_of_lt h
  next => exact Nat.le_refl _

theorem got_init {t : Thread} {c : Call}
    (hpad : ∀ spad, t.spad = some spad → t.initialized = false)
    (hget : scratchpadGet t c = match scratchpadInit c.wanted c.mem with
      | .error e => (t, .error e)
      | .ok spad => ({ spad := some spad, initialized := true }, .ok spad.buf)) :
    Got t c (scratchpadGet t c) := by
  rw [hget]
  unfold scratchpadInit
  rcases scratchpadAllocate_cases _ _ (initSize_pos c.wanted) _ c.mem with
    ⟨e, he⟩ | ⟨spad, he, hbuf, hsize, htight⟩
  · rw [he]
    exact .unmade hpad e
  · rw [he]
    exact .made hpad spad _ hbuf hsize (le_initSize c.wanted) htight

theorem got_grow {spad : Scratchpad} {c : Call} (hlt : spad.bufSize < c.wanted) :
    Got ⟨some spad, true⟩ c (scratchpadGet ⟨some spad, true⟩ c) := by
  obtain ⟨k, hk, hwanted⟩ := grow_loop hlt
  unfold scratchpadGet
  dsimp only
  rw [if_pos hlt]
  unfold scratchpadGrow
  dsimp only
  revert hk hwanted
  generalize runLoop (growLive c.wanted) growStep (fun s => c.wanted - s.spad.bufSize)
    ⟨spad, false⟩ = s
  intro hk hwanted
  cases hfailed : s.failed with
  | true =>
    obtain ⟨hsmall, hnext⟩ := hk.failed hfailed
    rw [if_pos rfl]
    refine .exceeded spad rfl rfl hlt s.spad k hk.size hk.max ?_ ?_ hk.buf _
    · rwa [hk.size]
    · rwa [hk.size]
  | false =>
    have hsize := hk.size
    have hfits := hwanted hfailed
    have hbelow := hk.below
    rw [← hsize] at hfits hbelow
    rw [if_neg (by decide)]
    cases hmem : c.mem.bytes s.spad.bufSize with
    | true =>
      rw [if_pos rfl]
      exact .grown spad rfl rfl hlt { s.spad with buf := some s.spad.bufSize } k hsize hk.max hfits
        hbelow hmem rfl
    | false =>
      rw [if_neg (by decide)]
      exact .noMemory spad rfl rfl hlt { s.spad with buf := none } k hsize hk.max hfits
        hbelow hmem rfl _

theorem scratchpadGet_got (t : Thread) (c : Call) : Got t c (scratchpadGet t c) := by
  obtain ⟨pad, initialized⟩ := t
  cases pad with
  | none => exact got_init nofun rfl
  | some spad =>
    cases initialized with
    | false => exact got_init (fun _ _ => rfl) rfl
    | true =>
      by_cases hlt : spad.bufSize < c.wanted
      · exact got_grow hlt
      · have hget : scratchpadGet ⟨some spad, true⟩ c = (⟨some spad, true⟩, .ok spad.buf) :=
          if_neg hlt
        rw [hget]
        exact .large spad rfl rfl (Nat.le_of_not_lt hlt)

/-- The state after a call. -/
def after (s : State) (c : Call) : State :=
  { thread := (scratchpadGet s.thread c).1, last := some (c.wanted, (scratchpadGet s.thread c).2) }

theorem step_eq (s : State) (c : Call) : step s c = some (after s c) := rfl

/-- A pad that does not have to grow. -/
theorem grows_of_large {s : State} {c : Call} {spad : Scratchpad} (hpad : s.thread.spad = some spad)
    (hwanted : c.wanted ≤ spad.bufSize) : Grows s c := by
  intro spad' hpad' _ hlt
  rw [hpad, Option.some.injEq] at hpad'
  subst hpad'
  exact absurd hlt (Nat.not_lt.mpr hwanted)

theorem grows_of_uninitialized {s : State} {c : Call}
    (hpad : ∀ spad, s.thread.spad = some spad → s.thread.initialized = false) : Grows s c := by
  intro spad hspad hinit _
  rw [hpad spad hspad] at hinit
  cases hinit

/-- The doubled sizes between `wanted` and twice as much are one. -/
theorem doubled_unique {n wanted k k' : Nat} (h : wanted ≤ n * 2 ^ k) (h' : n * 2 ^ k < 2 * wanted)
    (hk : wanted ≤ n * 2 ^ k') (hk' : n * 2 ^ k' < 2 * wanted) : n * 2 ^ k = n * 2 ^ k' := by
  have hmono : ∀ {i j : Nat}, i < j → 2 * (n * 2 ^ i) ≤ n * 2 ^ j := by
    intro i j hij
    rw [← mul_two_pow_succ]
    exact Nat.mul_le_mul_left n (Nat.pow_le_pow_right (by decide) hij)
  rcases Nat.lt_trichotomy k k' with hlt | rfl | hlt
  · have hle := hmono hlt
    omega
  · rfl
  · have hle := hmono hlt
    omega

/-- A size that was reached by doubling is the old one, or at least twice as much. -/
theorem doubled_cases (n k : Nat) : n * 2 ^ k = n ∨ 2 * n ≤ n * 2 ^ k := by
  cases k with
  | zero => exact Or.inl (by rw [Nat.pow_zero, Nat.mul_one])
  | succ k =>
    refine Or.inr ?_
    rw [mul_two_pow_succ]
    exact Nat.mul_le_mul_left 2 (Nat.le_mul_of_pos_right n (Nat.two_pow_pos k))

/-- What `Grows` says of a pad that is too small. -/
theorem grows_iff {s : State} {c : Call} {spad : Scratchpad} (hpad : s.thread.spad = some spad)
    (hinit : s.thread.initialized = true) (hlt : spad.bufSize < c.wanted) :
    Grows s c ↔ spad.bufMax < 2 * spad.bufSize ∨
      ∃ k, c.wanted ≤ spad.bufSize * 2 ^ k ∧ spad.bufSize * 2 ^ k < 2 * c.wanted ∧
        spad.bufSize * 2 ^ k ≤ spad.bufMax ∧ c.mem.bytes (spad.bufSize * 2 ^ k) = true := by
  refine ⟨fun h => h spad hpad hinit hlt, fun h spad' hpad' _ _ => ?_⟩
  rw [hpad, Option.some.injEq] at hpad'
  subst hpad'
  exact h

/-- There is no memory for the first doubled size that is large enough. -/
theorem not_grows_of_noMemory {s : State} {c : Call} {spad : Scratchpad}
    (hpad : s.thread.spad = some spad) (hinit : s.thread.initialized = true)
    (hlt : spad.bufSize < c.wanted) {k : Nat} (hle : spad.bufSize * 2 ^ k ≤ spad.bufMax)
    (hwanted : c.wanted ≤ spad.bufSize * 2 ^ k) (hfirst : spad.bufSize * 2 ^ k < 2 * c.wanted)
    (hmem : c.mem.bytes (spad.bufSize * 2 ^ k) = false) : ¬ Grows s c := by
  rw [grows_iff hpad hinit hlt]
  intro h
  obtain hbig | ⟨k', hk, hk', -, hmem'⟩ := h
  · rcases doubled_cases spad.bufSize k with heq | hge
    · omega
    · omega
  · rw [doubled_unique hk hk' hwanted hfirst, hmem] at hmem'
    cases hmem'

/-- The doubled sizes come to the limit before one is large enough. -/
theorem not_grows_of_exceeded {s : State} {c : Call} {spad : Scratchpad}
    (hpad : s.thread.spad = some spad) (hinit : s.thread.initialized = true)
    (hlt : spad.bufSize < c.wanted) {k : Nat} (hle : spad.bufSize * 2 ^ k ≤ spad.bufMax)
    (hsmall : spad.bufSize * 2 ^ k < c.wanted) (hnext : spad.bufMax < 2 * (spad.bufSize * 2 ^ k))
    (hdoubled : 2 * spad.bufSize ≤ spad.bufSize * 2 ^ k) : ¬ Grows s c := by
  have hmono : ∀ {i j : Nat}, i ≤ j → spad.bufSize * 2 ^ i ≤ spad.bufSize * 2 ^ j := fun hij =>
    Nat.mul_le_mul_left spad.bufSize (Nat.pow_le_pow_right (by decide) hij)
  rw [grows_iff hpad hinit hlt]
  intro h
  obtain hbig | ⟨k', hk, -, hlek, -⟩ := h
  · omega
  · have hkk : k < k' := by
      by_contra hnk
      have hle' := hmono (Nat.le_of_not_lt hnk)
      omega
    have hle' := hmono hkk
    rw [mul_two_pow_succ] at hle'
    omega

/-- A call leaves the buffer sound, and as tight as before, exactly when growing goes well. -/
theorem sound_after {s : State} {c : Call} (hI : Tight s) (hP : Sound s) :
    (Sound (after s c) ↔ Grows s c) ∧ (Sound (after s c) → Tight (after s c)) := by
  have hgot := scratchpadGet_got s.thread c
  unfold after
  generalize scratchpadGet s.thread c = r at hgot ⊢
  cases hgot with
  | unmade hpad e =>
    exact ⟨iff_of_true ⟨hP.capacity, nofun⟩ (grows_of_uninitialized hpad), fun _ => hI⟩
  | made hpad spad n hbuf hsize hwanted htight =>
    refine ⟨iff_of_true ⟨?_, ?_⟩ (grows_of_uninitialized hpad), fun _ => ?_⟩
    · intro _ hand
      cases hand
      exact ⟨n, hbuf, hsize⟩
    · intro _ _ hand
      cases hand
      exact ⟨n, hbuf, hwanted⟩
    · intro _ hand m hm
      cases hand
      rw [hbuf, Option.some.injEq] at hm
      exact hm ▸ htight
  | large spad hpad hinit hwanted =>
    obtain ⟨n, hbuf, hsize⟩ := hP.capacity spad hpad
    refine ⟨iff_of_true ⟨hP.capacity, ?_⟩ (grows_of_large hpad hwanted), fun _ => hI⟩
    intro _ _ hand
    cases hand
    exact ⟨n, hbuf, Nat.le_trans hwanted hsize⟩
  | grown spad hpad hinit hlt spad' k hsize hmax hwanted hfirst hmem hbuf =>
    refine ⟨iff_of_true ⟨?_, ?_⟩ ?_, fun _ => ?_⟩
    · intro _ hand
      cases hand
      exact ⟨_, hbuf, Nat.le_refl _⟩
    · intro _ _ hand
      cases hand
      exact ⟨_, hbuf, hwanted⟩
    · rw [hsize] at hwanted hfirst hmem
      refine (grows_iff hpad hinit hlt).mpr (Or.inr ⟨k, hwanted, hfirst, ?_, hmem⟩)
      rw [← hsize, ← hmax]
      exact spad'.size_le
    · intro _ hand m hm
      cases hand
      rw [hbuf, Option.some.injEq] at hm
      exact Or.inl hm.symm
  | noMemory spad hpad hinit hlt spad' k hsize hmax hwanted hfirst hmem hbuf e =>
    -- the old buffer is gone and the size says that there is a new one
    have hnot : ¬ Sound ⟨⟨some spad', true⟩, some (c.wanted, .error e)⟩ := by
      intro h
      obtain ⟨n, hn, -⟩ := h.capacity spad' rfl
      rw [hbuf] at hn
      cases hn
    have hle := spad'.size_le
    rw [hsize] at hwanted hfirst hmem hle
    rw [hmax] at hle
    have hgrows := not_grows_of_noMemory hpad hinit hlt hle hwanted hfirst hmem
    exact ⟨iff_of_false hnot hgrows, fun h => absurd h hnot⟩
  | exceeded spad hpad hinit hlt spad' k hsize hmax hsmall hnext hbuf e =>
    obtain ⟨n, hn, hcap⟩ := hP.capacity spad hpad
    have hpos := spad.pos
    have hle := spad'.size_le
    rw [hsize] at hsmall hnext hle
    rw [hmax] at hle
    rcases doubled_cases spad.bufSize k with heq | hge
    · -- not even one doubling was allowed, and nothing has changed
      rw [heq] at hsize hnext
      have hcap' : ∀ spad₁, some spad' = some spad₁ → ∃ n, spad₁.buf = some n ∧ spad₁.bufSize ≤ n := by
        intro _ hand
        cases hand
        exact ⟨n, hbuf.trans hn, hsize ▸ hcap⟩
      refine ⟨iff_of_true ⟨hcap', nofun⟩ ?_, fun _ => ?_⟩
      · exact (grows_iff hpad hinit hlt).mpr (Or.inl hnext)
      · intro _ hand m hm
        cases hand
        rw [hsize, hmax]
        exact hI spad hpad m (hbuf ▸ hm)
    · -- the size was doubled, and there is no new buffer
      have hnot : ¬ Sound ⟨⟨some spad', true⟩, some (c.wanted, .error e)⟩ := by
        intro h
        obtain ⟨m, hm, hlem⟩ := h.capacity spad' rfl
        rw [hbuf, hn, Option.some.injEq] at hm
        subst hm
        rw [hsize] at hlem
        rcases hI spad hpad n hn with heq | heq
        · omega
        · omega
      have hgrows := not_grows_of_exceeded hpad hinit hlt hle hsmall hnext hge
      exact ⟨iff_of_false hnot hgrows, fun h => absurd h hnot⟩

theorem sound_start (initialized : Bool) : Sound (start initialized) := ⟨nofun, nofun⟩

theorem tight_start (initialized : Bool) : Tight (start initialized) := nofun

/-- The buffer is as large as its size, and every buffer returned as large as was asked for, all
through a run exactly when all growing in it goes well. -/
theorem pad_sound_iff (initialized : Bool) (calls : List Call) :
    Always step Sound (start initialized) calls ↔ EachStep step Grows (start initialized) calls :=
  Lib.always_iff_eachStep (I := Tight) (H := fun _ _ => True)
    (fun s c h => by rw [step_eq] at h; cases h)
    (fun s c s' hI hP _ hC hs => by
      rw [step_eq, Option.some.injEq] at hs
      subst hs
      exact (sound_after hI hP).2 ((sound_after hI hP).1.mpr hC))
    (fun s c s' hI hP _ hs => by
      rw [step_eq, Option.some.injEq] at hs
      subst hs
      exact (sound_after hI hP).1)
    calls _ (tight_start initialized) (sound_start initialized)
    (Lib.eachStep_of_forall (fun _ _ => trivial) calls _)

/-- There is always memory. -/
def plenty : Allocator := ⟨true, fun _ => true⟩

/-- After a call for one byte more than the maximum, which is refused, 100000 bytes are served
from the first buffer of 32768. -/
theorem refused_call_grows : ¬ ∀ initialized calls, (∀ c ∈ calls, c.mem = plenty) →
    Always step Sound (start initialized) calls := by
  intro h
  have hall := h false [⟨1, plenty⟩, ⟨spadMaxSize + 1, plenty⟩, ⟨100000, plenty⟩] (by simp)
  have hsound := ((hall.2 _ rfl).2 _ rfl).2 _ rfl
  obtain ⟨n, hn, hle⟩ := Sound.served hsound 100000 (some spadInitSize) rfl
  rw [Option.some.injEq] at hn
  subst hn
  exact absurd hle (by decide)

end Caudium.Pad
