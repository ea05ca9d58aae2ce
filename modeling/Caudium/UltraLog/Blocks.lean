import Caudium.UltraLog.Parse

/-!
# Blocks

The two loops of the reader do with a block what one machine does with its characters, which
keeps in mind in which of the loops it is (`loop_eq`). So it does not matter into which blocks
a log is cut, but for the offset, which is a number of 32 bits.
-/

namespace Caudium.UltraLog

open Lib (Str)

variable {F : Floats} {env : Setup}

/-! ## Characters -/

/-- The loop that the reader is in. -/
inductive Mode where
  | main
  | skip
  deriving DecidableEq, Repr

/-- What a character does, in either loop. -/
def stepChar (env : Setup) : Mode × Reader F → Char → Option (Mode × Reader F)
  | (.main, s), c =>
    match s.readChar env c with
    | .next s => some (.main, s)
    | .skip s => some (.skip, s.broken)
    | .undefined => none
  | (.skip, s), c => some (if charClass c = .crlf then (.main, s.ok) else (.skip, s))

/-- What a string does, one character after the other. -/
def readAll (env : Setup) (st : Mode × Reader F) (cs : Str) : Option (Mode × Reader F) :=
  cs.foldlM (stepChar env) st

theorem readAll_append (st : Mode × Reader F) (cs ds : Str) :
    readAll env st (cs ++ ds) = (readAll env st cs).bind fun st => readAll env st ds :=
  List.foldlM_append

theorem readAll_cons (st : Mode × Reader F) (c : Char) (cs : Str) :
    readAll env st (c :: cs) = (stepChar env st c).bind fun st => readAll env st cs :=
  List.foldlM_cons

/-- The loop that goes with the mode. -/
def loop (env : Setup) (st : Mode × Reader F) (offs0 : Int) (block : Str) (blocks : List Str) :
    Option (Reader F × Int) :=
  match st.1 with
  | .main => mainLoop env st.2 offs0 block blocks
  | .skip => skipLoop env st.2 offs0 block blocks

theorem loop_cons (st : Mode × Reader F) (offs0 : Int) (c : Char) (block : Str)
    (blocks : List Str) : loop env st offs0 (c :: block) blocks =
      (stepChar env st c).bind fun st => loop env st offs0 block blocks := by
  obtain ⟨m, s⟩ := st
  cases m with
  | main =>
    simp only [loop, stepChar, mainLoop]
    cases s.readChar env c <;> rfl
  | skip =>
    simp only [loop, stepChar, skipLoop]
    split <;> rfl

theorem loop_nil (st : Mode × Reader F) (offs0 : Int) : loop env st offs0 [] [] = some (st.2, offs0) := by
  obtain ⟨m, s⟩ := st
  cases m with
  | main => exact mainLoop.eq_1 env s offs0
  | skip => exact skipLoop.eq_1 env s offs0

/-- The loop goes on with the next block, whichever it is. -/
theorem loop_next (st : Mode × Reader F) (offs0 : Int) {block : Str} (h : block ≠ [])
    (blocks : List Str) : loop env st offs0 [] (block :: blocks) =
      loop env st (wrap32 (offs0 + block.length)) block blocks := by
  obtain ⟨m, s⟩ := st
  cases block with
  | nil => exact absurd rfl h
  | cons c block =>
    cases m with
    | main => exact mainLoop.eq_3 env s offs0 c block blocks
    | skip => exact skipLoop.eq_3 env s offs0 c block blocks

theorem wrap32_add (n k : Int) : wrap32 (wrap32 n + k) = wrap32 (n + k) := by
  unfold wrap32
  omega

theorem wrap32_eq_iff {n : Int} : wrap32 n = n ↔ -2 ^ 31 ≤ n ∧ n < 2 ^ 31 := by
  unfold wrap32
  omega

/-- The loops read what is left of the block and the blocks after it, and count the bytes of
the latter. -/
theorem loop_eq {blocks : List Str} (hne : ∀ b ∈ blocks, b ≠ []) (block : Str)
    (st : Mode × Reader F) (n : Int) : loop env st (wrap32 n) block blocks =
      (readAll env st (block ++ blocks.flatten)).map fun st =>
        (st.2, wrap32 (n + blocks.flatten.length)) := by
  induction blocks generalizing block st n with
  | nil =>
    induction block generalizing st with
    | nil => simp [loop_nil, readAll]
    | cons c block ih =>
      rw [loop_cons, List.cons_append, readAll_cons, Option.map_bind]
      exact congrArg _ (funext ih)
  | cons b blocks ihb =>
    induction block generalizing st with
    | nil =>
      rw [loop_next st _ (hne b List.mem_cons_self), wrap32_add,
        ihb (fun b' hb' => hne b' (List.mem_cons_of_mem _ hb')), List.nil_append,
        List.flatten_cons, List.length_append]
      simp only [Int.natCast_add, Int.add_assoc]
    | cons c block ih =>
      rw [loop_cons, List.cons_append, readAll_cons, Option.map_bind]
      exact congrArg _ (funext ih)

/-! ## The whole log -/

/-- What `ultraparse` delivers and prints, without the offset and what is made of it. -/
def Report.counts (r : Report F) : List (Daily F) × Nat × Nat := (r.days, r.lines, r.brokenLines)

/-- What is counted in a log, in whatever blocks it comes. -/
def counted (F : Floats) (junk : Nat → Char) (args : Arguments) (content : Str) :
    Except Failure (List (Daily F) × Nat × Nat) :=
  match args.setup with
  | none => .error .badFormat
  | some env =>
    if env.numStates < 1 then .error .badFormat
    else
      match (readAll env (.main, Reader.start F junk) content).bind
        fun st => st.2.cleanup env (fun _ => 0) 0 with
      | none => .error .undefined
      | some report => .ok report.counts

theorem ultraparse_eq {junk : Nat → Char} {megabytes : Int → Int} {args : Arguments}
    {blocks : List Str} (hne : ∀ b ∈ blocks, b ≠ []) :
    ultraparse F junk megabytes args blocks =
      (counted F junk args blocks.flatten).map fun (days, lines, brokenLines) =>
        let offset := wrap32 (args.start + blocks.flatten.length)
        ⟨days, lines, brokenLines, megabytes offset, offset⟩ := by
  unfold ultraparse counted
  cases args.setup with
  | none => rfl
  | some env =>
    simp only
    split
    · rfl
    · have hloop : loop env (.main, Reader.start F junk) (wrap32 args.start) [] blocks = _ :=
        loop_eq hne [] (.main, Reader.start F junk) args.start
      rw [show mainLoop env (Reader.start F junk) (wrap32 args.start) [] blocks =
        loop env (.main, Reader.start F junk) (wrap32 args.start) [] blocks from rfl, hloop,
        List.nil_append]
      cases readAll env (.main, Reader.start F junk) blocks.flatten with
      | none => rfl
      | some st =>
        simp only [Option.map_some, Option.bind_some, Reader.cleanup]
        cases st.2.totals.finish env.pagexts (st.2.bufPoints .year) (st.2.bufPoints .month)
          (st.2.bufPoints .date) <;> rfl

/-- A log that is read in these blocks. -/
structure ReadAs (content : Str) (blocks : List Str) : Prop where
  nonempty : ∀ b ∈ blocks, b ≠ []
  flatten : blocks.flatten = content

/-- Whatever the blocks are, the same is delivered and counted, and the offset that is returned
is the one after the last byte. -/
def BlockFree (F : Floats) (junk : Nat → Char) (megabytes : Int → Int) (args : Arguments)
    (content : Str) : Prop :=
  ∀ blocks blocks', ReadAs content blocks → ReadAs content blocks' →
    (ultraparse F junk megabytes args blocks).map Report.counts =
      (ultraparse F junk megabytes args blocks').map Report.counts ∧
    ∀ r, ultraparse F junk megabytes args blocks = .ok r → r.offset = args.start + content.length

/-- `ultraparse` comes to its end: the format is one, and no line leads out of the memory. -/
def Returns (F : Floats) (junk : Nat → Char) (args : Arguments) (content : Str) : Prop :=
  ∃ r, counted F junk args content = .ok r

/-- The blocks do not matter, and the offset is right as long as it is one of 32 bits. -/
theorem block_free_iff (F : Floats) (junk : Nat → Char) (megabytes : Int → Int)
    (args : Arguments) (content : Str) : BlockFree F junk megabytes args content ↔
      (Returns F junk args content →
        -2 ^ 31 ≤ args.start + content.length ∧ args.start + content.length < 2 ^ 31) := by
  rw [← wrap32_eq_iff]
  constructor
  · intro h hand
    obtain ⟨⟨days, lines, brokenLines⟩, hr⟩ := hand
    -- any blocks will do: one for each byte
    have hread : ReadAs content (content.map fun c => [c]) :=
      ⟨by simp, (List.flatMap_def ..).symm.trans (List.flatMap_singleton' content)⟩
    obtain ⟨-, hoffset⟩ := h _ _ hread hread
    have hrun : ultraparse F junk megabytes args _ = _ := ultraparse_eq hread.nonempty
    rw [hread.flatten, hr] at hrun
    exact hoffset _ hrun
  · intro hrange blocks blocks' hb hb'
    rw [ultraparse_eq hb.nonempty, ultraparse_eq hb'.nonempty, hb.flatten, hb'.flatten]
    refine ⟨rfl, fun r hr => ?_⟩
    cases hc : counted F junk args content with
    | error e => rw [hc] at hr; cases hr
    | ok c =>
      rw [hc] at hr
      cases hr
      exact hrange ⟨c, hc⟩

/-! ## A long log -/

/-- Floating point numbers without their fractions. -/
def wholeNumbers : Floats where
  Num := Int
  zero := 0
  addKb kb bytes := kb + bytes / 1024
  perSession length sessions := (length / sessions / 60).toNat

/-- A format of junk, and the last offset that a number of 32 bits can be. -/
def atTheEnd : Arguments where
  logFormat := "%j".toList
  pagexts := []
  notref := none
  start := 2147483647

/-- One byte more, and the offset is negative. -/
theorem offset_overflows :
    ¬BlockFree wholeNumbers (fun _ => '\x00') (fun offset => offset / 1048576) atTheEnd ['x'] := by
  intro h
  have hread : ReadAs ['x'] [['x']] := ⟨by decide, rfl⟩
  obtain ⟨-, hoffset⟩ := h _ _ hread hread
  have hcounted : counted wholeNumbers (fun _ => '\x00') atTheEnd ['x'] = .ok ([], 0, 0) := rfl
  have hrun : ultraparse wholeNumbers (fun _ => '\x00') (fun offset => offset / 1048576) atTheEnd
    [['x']] = _ := ultraparse_eq hread.nonempty
  rw [hread.flatten, hcounted] at hrun
  exact absurd (hoffset _ hrun) (by decide)

end Caudium.UltraLog
