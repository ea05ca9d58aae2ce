import Caudium.Config.Regions
import Caudium.Lib.Search

/-!
# Stored errors (`http.pike`)

The table of errors is shared by all requests. Slot 0 counts the calls of `store_error`, the others
hold records. The slot of a call is a local copy of the counter, and only that copy goes back to 1
when it is above 1024: the counter goes on, so from the 1025th call on every record is put into
slot 1 (`storeError_id`). Records stay for 1023 further calls exactly when the calls from there on
all store the same one (`errorsKept_iff`).
-/

namespace Caudium.Http

open Lib (Str Mapping cut)

/-- `censor`. -/
def censor (what : Str) : Str :=
  match cut what "horization:".toList with
  | none => what
  | some (a, rest) =>
    match cut rest ['\n'] with
    | none => what
    | some (_, c) => a ++ " ################ (censored)\n".toList ++ c

/-- A record: the error, the URL and the request. -/
structure ErrorRecord (ε : Type) where
  err : ε
  rawUrl : Str
  raw : Str
  deriving DecidableEq

/-- What the table has in a slot. -/
inductive ErrorSlot (ε : Type) where
  | counter (n : Int)
  | stored (r : ErrorRecord ε)
  deriving DecidableEq

/-- The mapping `errors`. -/
abbrev ErrorTable (ε : Type) := Mapping Int (ErrorSlot ε)

/-- A call of `store_error`: its argument, and what it takes from the request. -/
structure ErrorCall (ε : Type) where
  err : ε
  rawUrl : Str
  raw : Str

variable {ε : Type}

def ErrorCall.record (c : ErrorCall ε) : ErrorRecord ε :=
  { err := c.err, rawUrl := c.rawUrl, raw := censor c.raw }

/-- `e[0]`, which never is a record. -/
def errorCount (e : ErrorTable ε) : Int :=
  match e.lookup 0 with
  | some (.counter n) => n
  | _ => 0

/-- `store_error`: the id, and the table it leaves; there is none before the first call. -/
def storeError (errors : Option (ErrorTable ε)) (c : ErrorCall ε) : Int × ErrorTable ε :=
  let e := errors.getD ∅
  let count := errorCount e + 1
  let e := e.insert 0 (.counter count)
  let id := if count > 1024 then 1 else count
  (id, e.insert id (.stored c.record))

/-- `get_error`. -/
def getError (errors : Option (ErrorTable ε)) (eid : Str) : Option (ErrorSlot ε) :=
  errors.bind fun e => e.lookup (castInt eid)

/-! ## Histories -/

/-- The table after a history of calls. -/
def errorsAfter (calls : List (ErrorCall ε)) : Option (ErrorTable ε) :=
  calls.foldl (fun errors c => some (storeError errors c).2) none

/-- What it has in a slot after the first `n` calls. -/
def slotAfter (calls : List (ErrorCall ε)) (n : Nat) (id : Int) : Option (ErrorSlot ε) :=
  (errorsAfter (calls.take n)).bind fun e => e.lookup id

/-- `get_error` finds what is in the slot, for an id as it is printed. -/
theorem getError_decimal (calls : List (ErrorCall ε)) (n : Nat) (id : Int) :
    getError (errorsAfter (calls.take n)) (Config.decimal id) = slotAfter calls n id := by
  rw [getError, slotAfter, Config.castInt_decimal]

/-- The id that call number `n` is answered, if it is `c`. -/
def idOfCall (calls : List (ErrorCall ε)) (n : Nat) (c : ErrorCall ε) : Int :=
  (storeError (errorsAfter (calls.take n)) c).1

/-- The record of each call is found under its id, right after it and after up to 1023 further
calls. -/
def ErrorsKept (calls : List (ErrorCall ε)) : Prop :=
  ∀ n c further, calls[n]? = some c → further ≤ 1023 → n + further < calls.length →
    slotAfter calls (n + 1 + further) (idOfCall calls n c) = some (.stored c.record)

/-- From the 1025th call on all calls have the same record. -/
def SameFromThere (calls : List (ErrorCall ε)) : Prop :=
  ∀ n c c', 1024 ≤ n → calls[n]? = some c → calls[n + 1]? = some c' → c'.record = c.record

/-! ## One call -/

/-- The slot of call number `n`. -/
def slotOfCall (n : Nat) : Int := if 1024 ≤ n then 1 else n + 1

theorem slotOfCall_ne_zero (n : Nat) : slotOfCall n ≠ 0 := by
  unfold slotOfCall
  split
  · decide
  · omega

theorem errorsAfter_succ {calls : List (ErrorCall ε)} {n : Nat} {c : ErrorCall ε}
    (h : calls[n]? = some c) :
    errorsAfter (calls.take (n + 1)) = some (storeError (errorsAfter (calls.take n)) c).2 := by
  rw [List.take_add_one, h]
  exact List.foldl_concat _ _ _ _

/-- The table has counted the calls. -/
theorem errorCount_after (calls : List (ErrorCall ε)) {n : Nat} (h : n ≤ calls.length) :
    errorCount ((errorsAfter (calls.take n)).getD ∅) = n := by
  induction n with
  | zero => rfl
  | succ n ih =>
    have hcount := ih (Nat.le_of_lt h)
    rw [errorsAfter_succ (List.getElem?_eq_getElem h), Option.getD_some, storeError]
    dsimp only
    -- The record does not go into the slot of the counter.
    have hne : (0 : Int) ≠ if errorCount ((errorsAfter (calls.take n)).getD ∅) + 1 > 1024 then 1
        else errorCount ((errorsAfter (calls.take n)).getD ∅) + 1 := by
      rw [hcount]
      split
      · decide
      · omega
    rw [errorCount, Lib.Mapping.lookup_insert_ite, if_neg hne, Lib.Mapping.lookup_insert_ite,
      if_pos rfl, hcount]
    exact (Int.natCast_succ n).symm

/-- **Only the copy goes back to 1.** -/
theorem storeError_id (calls : List (ErrorCall ε)) {n : Nat} (h : n ≤ calls.length)
    (c : ErrorCall ε) : idOfCall calls n c = slotOfCall n := by
  rw [idOfCall, storeError]
  dsimp only
  rw [errorCount_after calls h, slotOfCall]
  split
  · rw [if_pos (by omega)]
  · rw [if_neg (by omega)]

/-- **One call** stores its record in its slot and leaves the others as they are. -/
theorem slotAfter_succ {calls : List (ErrorCall ε)} {n : Nat} {c : ErrorCall ε}
    (h : calls[n]? = some c) {id : Int} (hid : id ≠ 0) :
    slotAfter calls (n + 1) id =
      if id = slotOfCall n then some (.stored c.record) else slotAfter calls n id := by
  have hlt := (List.getElem?_eq_some_iff.mp h).1
  have hslot := storeError_id calls (Nat.le_of_lt hlt) c
  rw [slotAfter, errorsAfter_succ h, Option.bind_some, ← hslot]
  unfold idOfCall storeError
  dsimp only
  rw [Lib.Mapping.lookup_insert_ite, Lib.Mapping.lookup_insert_ite, if_neg hid]
  congr 1
  unfold slotAfter
  cases errorsAfter (calls.take n) with
  | none => rfl
  | some e => rfl

/-! ## A run of calls -/

theorem SameFromThere.record_eq {calls : List (ErrorCall ε)} (h : SameFromThere calls) {n : Nat}
    (hn : 1024 ≤ n) {c : ErrorCall ε} (hc : calls[n]? = some c) (k : Nat) :
    ∀ {c'}, calls[n + k]? = some c' → c'.record = c.record := by
  induction k with
  | zero =>
    intro c' hc'
    rw [← Option.some.inj (hc.symm.trans hc')]
  | succ k ih =>
    intro c' hc'
    have hlt := (List.getElem?_eq_some_iff.mp hc').1
    have hmid : calls[n + k]? = some calls[n + k] := List.getElem?_eq_getElem (by omega)
    exact (h (n + k) _ c' (by omega) hmid hc').trans (ih hmid)

/-- Two calls with at most 1023 between them share a slot only from the 1025th on. -/
theorem le_of_slot_eq {n further : Nat} (hfurther : further + 1 ≤ 1023)
    (h : slotOfCall n = slotOfCall (n + 1 + further)) : 1024 ≤ n := by
  by_contra hlt
  unfold slotOfCall at h
  rw [if_neg hlt] at h
  split at h
  · omega
  · omega

theorem SameFromThere.kept {calls : List (ErrorCall ε)} (h : SameFromThere calls) :
    ErrorsKept calls := by
  intro n c further hc hfurther hlen
  have hn := (List.getElem?_eq_some_iff.mp hc).1
  rw [storeError_id calls (Nat.le_of_lt hn)]
  induction further with
  | zero => rw [slotAfter_succ hc (slotOfCall_ne_zero n), if_pos rfl]
  | succ further ih =>
    have hlater : calls[n + 1 + further]? = some calls[n + 1 + further] :=
      List.getElem?_eq_getElem (by omega)
    rw [← Nat.add_assoc (n + 1), slotAfter_succ hlater (slotOfCall_ne_zero n)]
    split
    -- A later call has taken the slot: it is slot 1, and the record is the same.
    next hsame =>
      have hfrom := le_of_slot_eq hfurther hsame
      rw [h.record_eq hfrom hc (1 + further) (by rw [← Nat.add_assoc]; exact hlater)]
    next hother => exact ih (by omega) (by omega)

theorem ErrorsKept.same {calls : List (ErrorCall ε)} (h : ErrorsKept calls) :
    SameFromThere calls := by
  intro n c c' hn hc hc'
  have hlt := (List.getElem?_eq_some_iff.mp hc').1
  have hkept := h n c 1 hc (by decide) hlt
  have hslot : ∀ m, 1024 ≤ m → slotOfCall m = 1 := fun m hm => if_pos hm
  rw [storeError_id calls (by omega), slotAfter_succ hc' (slotOfCall_ne_zero n), hslot n hn,
    hslot (n + 1) (by omega), if_pos rfl] at hkept
  exact ErrorSlot.stored.inj (Option.some.inj hkept)

/-- **Errors are kept** for 1023 further calls if and only if all calls from the 1025th on store
the same record. -/
theorem errorsKept_iff (calls : List (ErrorCall ε)) : ErrorsKept calls ↔ SameFromThere calls :=
  ⟨ErrorsKept.same, SameFromThere.kept⟩

/-- 1026 errors, all different. -/
def manyErrors : List (ErrorCall Nat) :=
  (List.range 1026).map fun n => { err := n, rawUrl := [], raw := [] }

theorem manyErrors_lost : ¬ ErrorsKept manyErrors := by
  intro h
  have hat : ∀ n, n < 1026 →
      manyErrors[n]? = some { err := n, rawUrl := [], raw := [] } := by
    intro n hn
    rw [manyErrors, List.getElem?_map, List.getElem?_range hn]
    rfl
  have hsame := h.same 1024 _ _ (Nat.le_refl _) (hat 1024 (by decide)) (hat 1025 (by decide))
  exact absurd (congrArg ErrorRecord.err hsame) (by decide)

end Caudium.Http
