import Caudium.Config.Regions
import Caudium.Lib.Runs

/-!
# Unique user ids

The number of the last user is kept in memory, and in digits at the start of a file. It is read from
there by the first call after a start, and again when a time of the file has changed. That time is
the time of the last access and not of the last change; and it is read from where the last write
has ended, which is behind the digits. The first call answers the number and the time, and writes
nothing.

`increaseId_distinct` says under which conditions on the calls all numbers are different.
-/

namespace Caudium.BaseServer.UniqueId

open Lib (Str)
open Http (castInt number)
open Config (decimal castInt_decimal)

/-- The file. -/
structure Disk where
  content : Str
  atime : Int

/-- `current_user_id_file` is the position in it, if it is open. -/
structure Server where
  currentUserIdFile : Option Nat
  currentUserIdNumber : Int
  currentUserIdFileLastMod : Int

/-- A server that has just been started. -/
def Server.start : Server := ⟨none, 0, 0⟩

/-- `restore_current_user_id_number`. The file can be opened; `a` is its access time when it has
been read. -/
def restoreCurrentUserIdNumber (a : Int) (disk : Disk) (server : Server) : Disk × Server :=
  let pos := server.currentUserIdFile.getD 0
  let text := (disk.content.drop pos).take 100
  ({ disk with atime := a }, ⟨some (pos + text.length), castInt text, a⟩)

/-- What follows in `increase_id` when the file is open and the number is up to date. -/
def writeNext (disk : Disk) (server : Server) : Int × Disk × Server :=
  let next := server.currentUserIdNumber + 1
  let text := decimal next
  (next, { disk with content := text ++ disk.content.drop text.length },
    ⟨some text.length, next, disk.atime⟩)

/-- `increase_id`, at the time `clock`. -/
def increaseId (clock a : Int) (disk : Disk) (server : Server) : Int × Disk × Server :=
  if server.currentUserIdFile.isSome then
    if disk.atime ≠ server.currentUserIdFileLastMod then
      let r := restoreCurrentUserIdNumber a disk server
      writeNext r.1 r.2
    else writeNext disk server
  else
    let r := restoreCurrentUserIdNumber a disk server
    (r.2.currentUserIdNumber + clock, r)

/-! ## Runs -/

/-- A number that was returned: by the first call after a start, with the time, or by another. -/
inductive Issued
  | started (number clock : Int)
  | counted (number : Int)

def Issued.value : Issued → Int
  | .started number clock => number + clock
  | .counted number => number

structure State where
  disk : Disk
  server : Server
  issued : List Issued

/-- Calls of `increase_id`, accesses to the file by others, and restarts. -/
inductive Event
  | increase (clock a : Int)
  | access (a : Int)
  | restart

/-- What a call adds to those that were returned. -/
def issue (clock : Int) (server : Server) (value : Int) : Issued :=
  if server.currentUserIdFile.isSome then .counted value else .started (value - clock) clock

def step (s : State) : Event → Option State
  | .increase clock a =>
    let r := increaseId clock a s.disk s.server
    some ⟨r.2.1, r.2.2, issue clock s.server r.1 :: s.issued⟩
  | .access a => some { s with disk := { s.disk with atime := a } }
  | .restart => some { s with server := .start }

/-- Any file, and a server that has just been started. -/
def State.start (disk : Disk) : State := ⟨disk, .start, []⟩

/-- The numbers that were returned are all different. -/
def Distinct (s : State) : Prop := (s.issued.map Issued.value).Nodup

/-- The number that is read at a start. -/
def Disk.kept (disk : Disk) : Int := castInt (disk.content.take 100)

/-- The first call after a start is at a later time than those before it, and reads a number that is
not negative. Before another call there was no access to the file; the next number is less than the
times of the first calls, and has 100 digits at most. -/
def Meets (s : State) : Event → Prop
  | .increase clock _ =>
    if s.server.currentUserIdFile.isSome then
      s.disk.atime = s.server.currentUserIdFileLastMod ∧
        (decimal (s.server.currentUserIdNumber + 1)).length ≤ 100 ∧
        ∀ n t, .started n t ∈ s.issued → s.server.currentUserIdNumber + 1 < t
    else 0 ≤ s.disk.kept ∧ 0 < clock ∧ ∀ n t, .started n t ∈ s.issued → t < clock
  | _ => True

/-- The number that the next one will be put upon. -/
def State.current (s : State) : Int :=
  if s.server.currentUserIdFile.isSome then s.server.currentUserIdNumber else s.disk.kept

structure Inv (s : State) : Prop where
  distinct : Distinct s
  counted : ∀ n, .counted n ∈ s.issued → n ≤ s.current
  started : ∀ n t, .started n t ∈ s.issued → 0 ≤ n ∧ n ≤ s.current
  kept : s.server.currentUserIdFile.isSome = true →
    0 ≤ s.server.currentUserIdNumber ∧ s.server.currentUserIdNumber ≤ s.disk.kept

/-! ## The number in the file -/

theorem foldl_digits_le (s : Str) : ∀ n : Nat,
    n ≤ s.foldl (fun n c => 10 * n + (c.toNat - 48)) n := by
  induction s with
  | nil => exact fun n => Nat.le_refl n
  | cons c s ih =>
    intro n
    have hstep := ih (10 * n + (c.toNat - 48))
    rw [List.foldl_cons]
    omega

/-- Digits behind others make a number larger. -/
theorem number_append_le {s : Str} (h : ∀ c ∈ s, c.isDigit = true) (t : Str) :
    number s ≤ number (s ++ t) := by
  have hall : s.takeWhile Char.isDigit = s := List.takeWhile_eq_self_iff.mpr h
  have happend : (s ++ t).takeWhile Char.isDigit = s ++ t.takeWhile Char.isDigit :=
    List.takeWhile_append_of_pos h
  rw [number, number, hall, happend, List.foldl_append]
  exact foldl_digits_le _ _

/-- What was written is read again, or more. -/
theorem le_castInt_decimal {n : Int} (hn : 0 ≤ n) (rest : Str) :
    n ≤ castInt (decimal n ++ rest) := by
  have htext : decimal n = Nat.toDigits 10 n.natAbs := by
    rw [decimal, if_neg (by omega)]
  rw [htext]
  obtain ⟨d, ds, hdigits⟩ := List.exists_cons_of_ne_nil
    (Nat.toDigits_ne_nil (n := n.natAbs) (b := 10))
  have hd : d.isDigit = true := Config.isDigit_of_mem (hdigits ▸ List.mem_cons_self)
  have hle := number_append_le (fun c hc => Config.isDigit_of_mem hc) rest
    (s := Nat.toDigits 10 n.natAbs)
  rw [Config.number_toDigits] at hle
  rw [hdigits] at hle ⊢
  rw [List.cons_append] at hle ⊢
  rw [Config.castInt_of_digit hd]
  omega

theorem le_kept_writeNext {disk : Disk} {server : Server} (hn : 0 ≤ server.currentUserIdNumber + 1)
    (hlen : (decimal (server.currentUserIdNumber + 1)).length ≤ 100) :
    server.currentUserIdNumber + 1 ≤ (writeNext disk server).2.1.kept := by
  show _ ≤ castInt ((decimal _ ++ _).take 100)
  rw [List.take_append, List.take_of_length_le hlen]
  exact le_castInt_decimal hn _

/-! ## One event -/

theorem nodup_cons_value {s : State} (h : Distinct s) {i : Issued}
    (hnew : ∀ j ∈ s.issued, j.value ≠ i.value) : ((i :: s.issued).map Issued.value).Nodup := by
  rw [List.map_cons, List.nodup_cons]
  refine ⟨fun hmem => ?_, h⟩
  obtain ⟨j, hj, he⟩ := List.mem_map.mp hmem
  exact hnew j hj he

/-- The first call after a start. -/
theorem Inv.first {s : State} (h : Inv s) {clock a : Int}
    (hclosed : s.server.currentUserIdFile = none) (hkept : 0 ≤ s.disk.kept)
    (hclock : 0 < clock) (hlater : ∀ n t, .started n t ∈ s.issued → t < clock) {s' : State}
    (hs : step s (.increase clock a) = some s') : Inv s' := by
  have hcurrent : s.current = s.disk.kept := by simp [State.current, hclosed]
  -- it answers the number in the file and the time
  have hissued : s'.issued = .started s.disk.kept clock :: s.issued := by
    simp [← Option.some.inj hs, increaseId, issue, hclosed, restoreCurrentUserIdNumber, Disk.kept]
  have hcurrent' : s'.current = s.disk.kept := by
    simp [← Option.some.inj hs, State.current, increaseId, hclosed, restoreCurrentUserIdNumber,
      Disk.kept]
  have hdisk : s'.disk.kept = s.disk.kept := by
    simp [← Option.some.inj hs, increaseId, hclosed, restoreCurrentUserIdNumber, Disk.kept]
  have hnumber : s'.server.currentUserIdNumber = s.disk.kept := by
    simp [← Option.some.inj hs, increaseId, hclosed, restoreCurrentUserIdNumber, Disk.kept]
  refine ⟨?_, fun n hn => ?_, fun n t hn => ?_, fun _ => ?_⟩
  · rw [Distinct, hissued]
    refine nodup_cons_value h.distinct fun j hj => ?_
    cases j with
    | started n t =>
      have hle := (h.started n t hj).2
      have hlt := hlater n t hj
      simp only [Issued.value]
      omega
    | counted n =>
      have hle := h.counted n hj
      simp only [Issued.value]
      omega
  · simp only [hissued, List.mem_cons, reduceCtorEq, false_or] at hn
    rw [hcurrent', ← hcurrent]
    exact h.counted n hn
  · rw [hissued, List.mem_cons] at hn
    rw [hcurrent']
    cases hn with
    | inl he =>
      cases he
      exact ⟨hkept, Int.le_refl _⟩
    | inr hn => exact hcurrent ▸ h.started n t hn
  · rw [hnumber, hdisk]
    exact ⟨hkept, Int.le_refl _⟩

/-- A call that finds the file open, and its time as it was left. -/
theorem Inv.next {s : State} (h : Inv s) {clock a : Int}
    (hopen : s.server.currentUserIdFile.isSome = true)
    (hsame : s.disk.atime = s.server.currentUserIdFileLastMod)
    (hlen : (decimal (s.server.currentUserIdNumber + 1)).length ≤ 100)
    (hbelow : ∀ n t, .started n t ∈ s.issued → s.server.currentUserIdNumber + 1 < t) {s' : State}
    (hs : step s (.increase clock a) = some s') : Inv s' := by
  have hcurrent : s.current = s.server.currentUserIdNumber := by simp [State.current, hopen]
  have hcall : increaseId clock a s.disk s.server = writeNext s.disk s.server := by
    simp [increaseId, hopen, hsame]
  have hissued : s'.issued = .counted (s.server.currentUserIdNumber + 1) :: s.issued := by
    simp [← Option.some.inj hs, hcall, issue, hopen, writeNext]
  have hnumber : s'.server.currentUserIdNumber = s.server.currentUserIdNumber + 1 := by
    simp [← Option.some.inj hs, hcall, writeNext]
  have hcurrent' : s'.current = s.server.currentUserIdNumber + 1 := by
    simp [← Option.some.inj hs, State.current, hcall, writeNext]
  have hpos := (h.kept hopen).1
  refine ⟨?_, fun n hn => ?_, fun n t hn => ?_, fun _ => ?_⟩
  · rw [Distinct, hissued]
    refine nodup_cons_value h.distinct fun j hj => ?_
    cases j with
    | started n t =>
      have hle := (h.started n t hj).1
      have hlt := hbelow n t hj
      simp only [Issued.value]
      omega
    | counted n =>
      have hle := h.counted n hj
      simp only [Issued.value]
      omega
  · rw [hcurrent']
    rw [hissued, List.mem_cons] at hn
    cases hn with
    | inl he =>
      cases he
      exact Int.le_refl _
    | inr hn =>
      have hle := h.counted n hn
      omega
  · simp only [hissued, List.mem_cons, reduceCtorEq, false_or] at hn
    obtain ⟨hn0, hle⟩ := h.started n t hn
    exact ⟨hn0, by omega⟩
  · rw [hnumber]
    refine ⟨by omega, ?_⟩
    rw [← Option.some.inj hs]
    show _ ≤ (increaseId clock a s.disk s.server).2.1.kept
    rw [hcall]
    exact le_kept_writeNext (by omega) hlen

/-- One event. -/
theorem Inv.step {s : State} (h : Inv s) {e : Event} (hmeets : Meets s e) {s' : State}
    (hs : step s e = some s') : Inv s' := by
  cases e with
  | increase clock a =>
    cases hfile : s.server.currentUserIdFile with
    | none =>
      simp only [Meets, hfile, Option.isSome_none, Bool.false_eq_true, if_false] at hmeets
      exact h.first hfile hmeets.1 hmeets.2.1 hmeets.2.2 hs
    | some pos =>
      simp only [Meets, hfile, Option.isSome_some, if_true] at hmeets
      exact h.next (by simp [hfile]) hmeets.1 hmeets.2.1 hmeets.2.2 hs
  | access a =>
    obtain rfl := Option.some.inj hs
    exact ⟨h.distinct, h.counted, h.started, h.kept⟩
  | restart =>
    obtain rfl := Option.some.inj hs
    -- what is in the file is not less than what was in memory
    have hle : s.current ≤ s.disk.kept := by
      rw [State.current]
      split
      · exact (h.kept ‹_›).2
      · exact Int.le_refl _
    refine ⟨h.distinct, fun n hn => ?_, fun n t hn => ?_, fun hopen => ?_⟩
    · exact Int.le_trans (h.counted n hn) hle
    · exact ⟨(h.started n t hn).1, Int.le_trans (h.started n t hn).2 hle⟩
    · simp [Server.start] at hopen

theorem inv_start (disk : Disk) : Inv (.start disk) := by
  refine ⟨List.nodup_nil, ?_, ?_, ?_⟩ <;> simp [State.start, Server.start]

/-- Over every run whose calls meet the conditions, all numbers are different. -/
theorem increaseId_distinct (disk : Disk) (events : List Event)
    (hmeets : Lib.EachStep step Meets (.start disk) events) :
    Lib.Always step Distinct (.start disk) events := by
  have halways : Lib.Always step Inv (.start disk) events :=
    Lib.always_of_step (fun s e s' h hm hs => h.step hm hs) events _ (inv_start disk) hmeets
  exact halways.mono (fun s h => h.distinct) events _

/-- Two numbers, a restart, and two more. -/
theorem increaseId_distinct_restart :
    Lib.Always step Distinct (.start ⟨[], 0⟩)
      [.increase 1000 1, .increase 1000 1, .restart, .increase 2000 2, .increase 2000 2] := by
  apply increaseId_distinct
  have hempty : castInt [] = 0 := by decide
  have hone : decimal 1 = ['1'] := by decide
  have htwo : decimal 2 = ['2'] := by decide
  have hread : castInt ['1'] = 1 := by decide
  simp [Lib.EachStep, Meets, step, State.start, Server.start, increaseId,
    restoreCurrentUserIdNumber, writeNext, issue, Disk.kept, hempty, hone, htwo, hread]
  intro n t h
  omega

/-- Someone reads the file after the second call; the third one reads it from behind its digit, and
answers what the second one has. -/
theorem access_repeats :
    ¬ Lib.Always step Distinct (.start ⟨[], 0⟩)
      [.increase 1000 0, .increase 1000 0, .access 5, .increase 1000 6] := by
  have hempty : castInt [] = 0 := by decide
  have hone : decimal 1 = ['1'] := by decide
  simp [Lib.Always, step, State.start, Server.start, increaseId, restoreCurrentUserIdNumber,
    writeNext, issue, Distinct, Issued.value, hempty, hone]

end Caudium.BaseServer.UniqueId
