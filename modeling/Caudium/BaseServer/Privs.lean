import Mathlib.Data.List.TakeWhile
import Caudium.Lib.Mapping
import Caudium.Lib.Runs
import Caudium.Http.ParseGot

/-!
# Changing the user and back (privs.pike)

A server that was started by root runs as another user. A `Privs` object changes the effective
user and group for as long as it lives: `create` keeps the ids that are in force, and `destroy`
sets them again. The objects are numbered by `privs_level`, and a `destroy` with a level that is
not below the current one is reported and does nothing.

The objects need not go in the order they came in. Whatever the order, the ids of the start are
in force whenever the level is 0 (`level_zero`). On the levels above, each state is the one that
a stack of objects would be in if and only if no object is destroyed behind its time, when newer
objects have taken its level and the next one (`nested_iff`). What `destroy` does not set again
is the real group (`left_group`).
-/

namespace Caudium.BaseServer.Privs

open Lib (Str Mapping runFrom EachStep Always)
open Caudium.Http (castInt)

/-! ## The objects -/

/-- An entry of the password database. -/
structure Passwd where
  name : Str
  uid : Int
  gid : Int

/-- What is asked of the system. -/
structure Os where
  getpwuid : Int → Option Passwd
  getpwnam : Str → Option Passwd
  /-- `seteuid` sets this user. -/
  userOk : Int → Bool
  /-- `setegid` sets this group. -/
  groupOk : Int → Bool

/-- A user or a group, as it is asked for; no argument is 0. -/
inductive Arg
  | int (n : Int)
  | str (s : Str)
  deriving DecidableEq

/-- False in a condition. -/
def Arg.isZero : Arg → Bool
  | .int n => n = 0
  | .str _ => false

/-- A string of digits is a number. -/
def Arg.number : Arg → Arg
  | .str s =>
    if castInt s ≠ 0 ∧ s.all Char.isDigit = true then .int (castInt s) else .str s
  | a => a

/-- The process. -/
structure Process where
  /-- `getuid()`. -/
  uid : Int
  /-- `getgid()`. -/
  gid : Int
  euid : Int
  egid : Int
  /-- What the last `initgroups` was called with, after which nothing cleared the groups. -/
  groups : Option (Str × Int)
  /-- `caudium->privs_level`. -/
  privsLevel : Nat

/-- A `Privs` object. -/
structure Object where
  pLevel : Nat
  savedUid : Int
  savedGid : Int

/-- The user and the group that are wanted, and the first and the fourth element of the entry. -/
structure Wanted where
  uid : Arg
  gid : Arg
  name : Str
  group : Arg

/-- The entry of the user. -/
def entry (os : Os) : Arg → Option Passwd
  | .int n => os.getpwuid n
  | .str s => os.getpwnam s

/-- The arguments, looked up; `none` when the user is unknown. -/
def wanted (os : Os) (uid gid : Arg) : Option Wanted :=
  match entry os uid.number with
  | some u =>
    let uid := match uid.number with
      | .str _ => Arg.int u.uid
      | uid => uid
    let gid := if gid.number.isZero then .int u.gid else gid.number
    some ⟨uid, gid, u.name, .int u.gid⟩
  | none =>
    match uid.number with
    | .int n =>
      if n = 0 then some ⟨.int 0, gid.number, "root".toList, gid.number⟩
      else if 60000 ≤ n then
        let gid := if gid.number.isZero then .int n else gid.number
        some ⟨.int n, gid, "fake-nobody".toList, gid⟩
      else none
    | .str s =>
      if s = "root".toList then some ⟨.str s, gid.number, "root".toList, gid.number⟩ else none

/-- `initgroups`; an error in it is caught. -/
def initgroups (name : Str) : Arg → Option (Str × Int)
  | .int g => some (name, g)
  | .str _ => none

/-- `setegid`, then `setgid` unless the real group is the same: root sets both groups. -/
def Process.setGroup (p : Process) (g : Int) : Process := { p with gid := g, egid := g }

/-- `seteuid` of a process that is root now. -/
def Process.setUser (os : Os) (p : Process) (n : Int) : Process :=
  { p with euid := if os.userOk n then n else 0 }

/-- What follows the look-up, as root: whether it gets to its end, and the process. -/
def Process.become (os : Os) (p : Process) (w : Wanted) : Bool × Process :=
  let p := { p with groups := initgroups w.name w.group }
  match (if w.gid.isZero then Arg.int p.gid else w.gid) with
  | .str _ => (false, p)
  | .int g =>
    if os.groupOk g then
      match w.uid with
      | .int n => (true, (p.setGroup g).setUser os n)
      | .str _ => (false, p.setGroup g)
    else (false, p)

/-- `create`: the object, whether it was made to the end (or an error was thrown), and the
process. -/
def create (os : Os) (uid gid : Arg) (p : Process) : Object × Bool × Process :=
  let q := { p with privsLevel := p.privsLevel + 1 }
  if p.uid ≠ 0 then (⟨p.privsLevel, 0, 0⟩, true, q)
  else
    let q := { q with euid := 0 }
    (⟨p.privsLevel, p.euid, p.egid⟩,
      match wanted os uid gid with
      | none => (false, q)
      | some w => q.become os w)

/-- `destroy`. -/
def destroy (os : Os) (o : Object) (p : Process) : Process :=
  if p.privsLevel ≤ o.pLevel then p
  else
    let p := { p with privsLevel := o.pLevel }
    if p.uid ≠ 0 then p
    else
      { p with
        groups := (os.getpwuid o.savedUid).map fun u => (u.name, u.gid)
        egid := if os.groupOk o.savedGid then o.savedGid else p.egid
        euid := if os.userOk o.savedUid then o.savedUid else 0 }

/-! ## Runs -/

/-- The process and the objects that live, numbered as they were made. -/
structure State where
  process : Process
  objects : Mapping Nat Object
  next : Nat

inductive Event
  /-- `Privs(reason, uid, gid)`; an object that is not made to the end lives until it is freed. -/
  | create (uid gid : Arg)
  /-- An object is destructed, or the last reference to it is gone. -/
  | destroy (i : Nat)

def step (os : Os) (s : State) : Event → Option State
  | .create uid gid =>
    let r := create os uid gid s.process
    some ⟨r.2.2, s.objects.insert s.next r.1, s.next + 1⟩
  | .destroy i =>
    match s.objects.lookup i with
    | none => none
    | some o => some ⟨destroy os o s.process, s.objects.erase i, s.next⟩

/-- A process that root has started, before there are objects. -/
def start (p : Process) : State := ⟨p, ∅, 0⟩

/-- The user and the group that are in force. -/
def Process.ids (p : Process) : Int × Int := (p.euid, p.egid)

/-- The system lets the process have the ids. -/
def Os.Allows (os : Os) (ids : Int × Int) : Prop :=
  os.userOk ids.1 = true ∧ os.groupOk ids.2 = true

/-- A process of root that may have the ids it has. Root may be root. -/
structure Rooted (os : Os) (p : Process) : Prop where
  uid : p.uid = 0
  root : os.userOk 0 = true
  allows : os.Allows p.ids

/-! ## One object -/

variable {os : Os} {p : Process} {o : Object}

theorem setUser_allowed (h : Rooted os p) {g : Int} (hg : os.groupOk g = true) (n : Int) :
    Rooted os ((p.setGroup g).setUser os n) := by
  refine ⟨h.uid, h.root, ?_, hg⟩
  show os.userOk (if os.userOk n then n else 0) = true
  split
  next hn => exact hn
  next => exact h.root

theorem become_rooted (h : Rooted os p) (he : p.euid = 0) (w : Wanted) :
    Rooted os (p.become os w).2 := by
  have hgroups : ∀ groups, Rooted os { p with groups := groups } :=
    fun groups => ⟨h.uid, h.root, h.allows⟩
  unfold Process.become
  dsimp only
  split
  · exact hgroups _
  · next g _ =>
    split
    next hg =>
      split
      · exact setUser_allowed (hgroups _) hg _
      · refine ⟨h.uid, h.root, ?_, hg⟩
        show os.userOk p.euid = true
        rw [he]
        exact h.root
    next => exact hgroups _

theorem become_level (os : Os) (p : Process) (w : Wanted) :
    (p.become os w).2.privsLevel = p.privsLevel := by
  unfold Process.become
  dsimp only
  split
  · rfl
  · split
    · split <;> rfl
    · rfl

/-- What an object keeps, and the level after it was made. -/
theorem create_spec (h : Rooted os p) (uid gid : Arg) :
    (create os uid gid p).1 = ⟨p.privsLevel, p.euid, p.egid⟩ ∧
      Rooted os (create os uid gid p).2.2 ∧
      (create os uid gid p).2.2.privsLevel = p.privsLevel + 1 := by
  have hroot : Rooted os { p with privsLevel := p.privsLevel + 1, euid := 0 } :=
    ⟨h.uid, h.root, h.root, h.allows.2⟩
  unfold create
  rw [if_neg (not_not.mpr h.uid)]
  refine ⟨rfl, ?_, ?_⟩
  · cases wanted os uid gid with
    | none => exact hroot
    | some w => exact become_rooted hroot rfl w
  · cases wanted os uid gid with
    | none => rfl
    | some w => exact become_level os _ w

/-- An object whose level is not below the current one. -/
theorem destroy_late (h : p.privsLevel ≤ o.pLevel) : destroy os o p = p := if_pos h

/-- The other objects set the ids that they have kept. -/
theorem destroy_spec (h : Rooted os p) (ho : os.Allows (o.savedUid, o.savedGid))
    (hlevel : o.pLevel < p.privsLevel) :
    Rooted os (destroy os o p) ∧ (destroy os o p).ids = (o.savedUid, o.savedGid) ∧
      (destroy os o p).privsLevel = o.pLevel := by
  unfold destroy
  rw [if_neg (Nat.not_le.mpr hlevel)]
  dsimp only
  rw [if_neg (not_not.mpr h.uid), if_pos ho.1, if_pos ho.2]
  exact ⟨⟨h.uid, h.root, ho⟩, rfl, rfl⟩

/-- Whatever is set, the level becomes that of the object. -/
theorem destroy_level (hlevel : o.pLevel < p.privsLevel) :
    (destroy os o p).privsLevel = o.pLevel := by
  unfold destroy
  rw [if_neg (Nat.not_le.mpr hlevel)]
  dsimp only
  split <;> rfl

/-- The real group stays. -/
theorem destroy_gid (os : Os) (o : Object) (p : Process) : (destroy os o p).gid = p.gid := by
  unfold destroy
  split
  · rfl
  · dsimp only
    split <;> rfl

/-! ## Level 0 -/

/-- At level 0 the ids are those of the start, and an object of level 0 has kept them. -/
structure Grounded (os : Os) (ids : Int × Int) (s : State) : Prop where
  rooted : Rooted os s.process
  ground : s.process.privsLevel = 0 → s.process.ids = ids
  saved : ∀ i o, s.objects.lookup i = some o → os.Allows (o.savedUid, o.savedGid) ∧
    (o.pLevel = 0 → (o.savedUid, o.savedGid) = ids)

theorem Grounded.step {ids : Int × Int} {s s' : State} {e : Event} (h : Grounded os ids s)
    (hs : step os s e = some s') : Grounded os ids s' := by
  cases e with
  | create uid gid =>
    obtain rfl := Option.some.inj hs
    obtain ⟨hobject, hrooted, hlevel⟩ := create_spec h.rooted uid gid
    refine ⟨hrooted, fun h0 => ?_, Lib.Mapping.forall_insert h.saved ?_⟩
    · rw [hlevel] at h0
      cases h0
    · rw [hobject]
      exact ⟨h.rooted.allows, h.ground⟩
  | destroy i =>
    rw [Privs.step] at hs
    cases hl : s.objects.lookup i with
    | none => rw [hl] at hs; cases hs
    | some o =>
      rw [hl] at hs
      obtain rfl := Option.some.inj hs
      obtain ⟨hallows, hground⟩ := h.saved i o hl
      have hsaved := Lib.Mapping.forall_erase (k := i) h.saved
      by_cases hlevel : s.process.privsLevel ≤ o.pLevel
      · rw [destroy_late hlevel]
        exact ⟨h.rooted, h.ground, hsaved⟩
      · obtain ⟨hrooted, hids, hl'⟩ := destroy_spec h.rooted hallows (Nat.not_le.mp hlevel)
        refine ⟨hrooted, fun h0 => ?_, hsaved⟩
        rw [hids]
        exact hground (hl'.symm.trans h0)

/-- **Back at level 0.** In whatever order objects are made and destroyed, and whatever fails on
the way: when the level is 0, the user and the group of the start are in force. -/
theorem level_zero {es : List Event} {s : State} (h : Rooted os p)
    (hs : runFrom (step os) (start p) es = some s) (h0 : s.process.privsLevel = 0) :
    s.process.ids = p.ids := by
  have hstart : Grounded os p.ids (start p) := by
    refine ⟨h, fun _ => rfl, fun i o ho => ?_⟩
    rw [start, AList.lookup_empty] at ho
    cases ho
  have hrun := Lib.inv_of_runFrom (P := Grounded os p.ids) (Q := fun _ => True)
    (fun s e s' _ hground hs => hground.step hs) es _ _ (fun _ _ => trivial) hstart hs
  exact hrun.ground h0

/-! ## The stack -/

/-- A system with a user for the server and one more. -/
def unix : Os where
  getpwuid := fun n =>
    if n = 0 then some ⟨"root".toList, 0, 0⟩ else
    if n = 33 then some ⟨"www".toList, 33, 33⟩ else
    if n = 1000 then some ⟨"anna".toList, 1000, 100⟩ else none
  getpwnam := fun s => if s = "anna".toList then some ⟨"anna".toList, 1000, 100⟩ else none
  userOk := fun n => 0 ≤ n
  groupOk := fun n => 0 ≤ n

/-- A server that root has started as "www". -/
def server : Process := ⟨0, 0, 33, 33, none, 0⟩

theorem server_rooted : Rooted unix server := ⟨rfl, rfl, rfl, rfl⟩

/-- A user inside of which root is needed; the outer object goes first. -/
def inner : List Event :=
  [.create (.str "anna".toList) (.int 0), .create (.int 0) (.int 0), .destroy 0]

theorem level_zero_server :
    (runFrom (step unix) (start server) inner).map (fun s => s.process.ids) = some (33, 33) := by
  have hlevel : (runFrom (step unix) (start server) inner).map (fun s => s.process.privsLevel) =
      some 0 := rfl
  cases hs : runFrom (step unix) (start server) inner with
  | none => rw [hs] at hlevel; cases hlevel
  | some s =>
    rw [hs] at hlevel
    exact congrArg some (level_zero server_rooted hs (Option.some.inj hlevel))

/-- A run beside the stack: the numbers of the objects on it with the ids that were in force
before each, the newest one first, and the ids that are to be in force. -/
structure Tracked where
  state : State
  frames : List (Nat × (Int × Int))
  current : Int × Int

/-- An object is put on the stack, with the ids that it has set; one that goes takes those above
it along, and the ids from before it are in force again. One that is not there changes nothing. -/
def Tracked.step (os : Os) (t : Tracked) (e : Event) : Option Tracked :=
  (Privs.step os t.state e).map fun s =>
    match e with
    | .create _ _ => ⟨s, (t.state.next, t.current) :: t.frames, s.process.ids⟩
    | .destroy i =>
      match t.frames.dropWhile fun f => f.1 ≠ i with
      | [] => ⟨s, t.frames, t.current⟩
      | f :: rest => ⟨s, rest, f.2⟩

def track (p : Process) : Tracked := ⟨start p, [], p.ids⟩

/-- The process is as the stack says. -/
def Agrees (t : Tracked) : Prop :=
  t.state.process.privsLevel = t.frames.length ∧ t.state.process.ids = t.current

/-- An object that is destroyed is on the stack, or its level is not below the current one. -/
def InTime (t : Tracked) : Event → Prop
  | .create _ _ => True
  | .destroy i => ∀ o, t.state.objects.lookup i = some o →
    i ∈ t.frames.map Prod.fst ∨ t.state.process.privsLevel ≤ o.pLevel

/-- What the objects on the stack have kept. -/
structure Stacked (os : Os) (t : Tracked) : Prop where
  rooted : Rooted os t.state.process
  falling : (t.frames.map Prod.fst).Pairwise (· > ·)
  old : ∀ i ∈ t.frames.map Prod.fst, i < t.state.next
  kept : ∀ above f rest, t.frames = above ++ f :: rest → os.Allows f.2 ∧
    t.state.objects.lookup f.1 = some ⟨rest.length, f.2.1, f.2.2⟩

/-- An object that is on the stack. -/
theorem dropWhile_frame {frames : List (Nat × (Int × Int))} {i : Nat}
    (h : i ∈ frames.map Prod.fst) : ∃ above ids rest, frames = above ++ (i, ids) :: rest ∧
      frames.dropWhile (fun f => f.1 ≠ i) = (i, ids) :: rest := by
  induction frames with
  | nil => cases h
  | cons f frames ih =>
    by_cases hf : f.1 = i
    · subst hf
      exact ⟨[], f.2, frames, rfl, List.dropWhile_cons_of_neg (by simp)⟩
    · obtain he | hmem := List.mem_cons.mp h
      · exact absurd he.symm hf
      · obtain ⟨above, ids, rest, hframes, hdrop⟩ := ih hmem
        refine ⟨f :: above, ids, rest, congrArg (f :: ·) hframes, ?_⟩
        rw [List.dropWhile_cons_of_pos (by simpa using hf)]
        exact hdrop

theorem dropWhile_none {frames : List (Nat × (Int × Int))} {i : Nat}
    (h : i ∉ frames.map Prod.fst) : frames.dropWhile (fun f => f.1 ≠ i) = [] := by
  refine List.dropWhile_eq_nil_iff.mpr fun f hf => ?_
  exact decide_eq_true fun he => h (List.mem_map.mpr ⟨f, hf, he⟩)

/-- Making an object. -/
theorem Stacked.create {t t' : Tracked} {uid gid : Arg} (h : Stacked os t) (ha : Agrees t)
    (hs : t.step os (.create uid gid) = some t') : Stacked os t' ∧ Agrees t' := by
  obtain rfl := Option.some.inj hs
  obtain ⟨hobject, hrooted, hlevel⟩ := create_spec h.rooted uid gid
  obtain ⟨hlen, hids⟩ := ha
  refine ⟨⟨hrooted, ?_, ?_, ?_⟩, hlevel.trans (congrArg (· + 1) hlen), rfl⟩
  · exact List.pairwise_cons.mpr ⟨h.old, h.falling⟩
  · intro i hi
    obtain rfl | hi := List.mem_cons.mp hi
    · exact Nat.lt_succ_self _
    · exact Nat.lt_succ_of_lt (h.old i hi)
  · intro above f rest hframes
    rw [Lib.Mapping.lookup_insert_ite, hobject]
    cases above with
    | nil =>
      obtain ⟨rfl, rfl⟩ := List.cons.inj hframes
      rw [if_pos rfl]
      refine ⟨?_, ?_⟩
      · rw [← hids]
        exact h.rooted.allows
      · rw [← hlen, ← hids]
        rfl
    | cons g above =>
      obtain ⟨-, hframes⟩ := List.cons.inj hframes
      -- the numbers below are smaller
      have hlt := h.old f.1 (by rw [hframes]; simp)
      rw [if_neg (Nat.ne_of_lt hlt)]
      exact h.kept above f rest hframes

/-- Destroying one. -/
theorem Stacked.destroy {t t' : Tracked} {i : Nat} (h : Stacked os t) (ha : Agrees t)
    (hs : t.step os (.destroy i) = some t') :
    (InTime t (.destroy i) → Stacked os t') ∧ (Agrees t' ↔ InTime t (.destroy i)) := by
  rw [Tracked.step, Privs.step] at hs
  cases hl : t.state.objects.lookup i with
  | none => rw [hl] at hs; cases hs
  | some o =>
    rw [hl] at hs
    obtain rfl := Option.some.inj hs
    obtain ⟨hlen, hids⟩ := ha
    have htime : InTime t (.destroy i) ↔
        (i ∈ t.frames.map Prod.fst ∨ t.state.process.privsLevel ≤ o.pLevel) := by
      constructor
      · exact fun h => h o hl
      · intro h o' ho'
        obtain rfl := Option.some.inj (hl.symm.trans ho')
        exact h
    rw [htime]
    by_cases hmem : i ∈ t.frames.map Prod.fst
    · obtain ⟨above, ids, rest, hframes, hdrop⟩ := dropWhile_frame hmem
      obtain ⟨hallows, hkept⟩ := h.kept above (i, ids) rest hframes
      obtain rfl := Option.some.inj (hl.symm.trans hkept)
      have hlevel : rest.length < t.state.process.privsLevel := by
        rw [hlen, hframes, List.length_append, List.length_cons]
        omega
      obtain ⟨hrooted, hids', hlevel'⟩ :=
        destroy_spec (o := ⟨rest.length, ids.1, ids.2⟩) h.rooted hallows hlevel
      simp only [hdrop]
      have hfalling := h.falling
      rw [hframes, List.map_append, List.map_cons, List.pairwise_append] at hfalling
      obtain ⟨-, hfalling, -⟩ := hfalling
      obtain ⟨hbelow, hfalling⟩ := List.pairwise_cons.mp hfalling
      refine ⟨fun _ => ⟨hrooted, hfalling, ?_, ?_⟩, iff_of_true ⟨hlevel', hids'⟩ (Or.inl hmem)⟩
      · intro j hj
        refine h.old j ?_
        rw [hframes, List.map_append, List.map_cons]
        exact List.mem_append_right _ (List.mem_cons_of_mem _ hj)
      · intro above' f rest' hrest
        have hrest : rest = above' ++ f :: rest' := hrest
        obtain ⟨hallows', hkept'⟩ := h.kept (above ++ (i, ids) :: above') f rest'
          (by rw [hframes, hrest, List.append_assoc]; rfl)
        have hne : f.1 ≠ i := Nat.ne_of_lt (hbelow f.1 (by rw [hrest]; simp))
        refine ⟨hallows', ?_⟩
        rw [Lib.Mapping.lookup_erase_ite, if_neg hne]
        exact hkept'
    · simp only [dropWhile_none hmem]
      by_cases hlevel : t.state.process.privsLevel ≤ o.pLevel
      · rw [destroy_late hlevel]
        refine ⟨fun _ => ⟨h.rooted, h.falling, h.old, ?_⟩,
          iff_of_true ⟨hlen, hids⟩ (Or.inr hlevel)⟩
        intro above f rest hframes
        obtain ⟨hallows, hkept⟩ := h.kept above f rest hframes
        have hne : f.1 ≠ i := by
          intro he
          refine hmem (List.mem_map.mpr ⟨f, ?_, he⟩)
          rw [hframes]
          exact List.mem_append_right _ List.mem_cons_self
        refine ⟨hallows, ?_⟩
        rw [Lib.Mapping.lookup_erase_ite, if_neg hne]
        exact hkept
      · -- the level falls below the height of the stack
        have hnot : ¬ (i ∈ t.frames.map Prod.fst ∨ t.state.process.privsLevel ≤ o.pLevel) :=
          fun hor => hor.elim hmem hlevel
        refine ⟨fun hor => absurd hor hnot, iff_of_false (fun ha => ?_) hnot⟩
        have hfell := ha.1
        rw [destroy_level (Nat.not_le.mp hlevel), ← hlen] at hfell
        exact hlevel (Nat.le_of_eq hfell.symm)

/-- **Nested privileges.** In every state of a run the level and the ids are those of the stack,
if and only if each object that is destroyed is still on the stack or is refused for its level. -/
theorem nested_iff (h : Rooted os p) (hp : p.privsLevel = 0) (es : List Event) :
    Always (Tracked.step os) Agrees (track p) es ↔
      EachStep (Tracked.step os) InTime (track p) es := by
  have hoff : ∀ (t : Tracked) (e : Event), t.step os e = none → InTime t e := by
    intro t e hs
    cases e with
    | create uid gid => exact trivial
    | destroy i =>
      intro o ho
      rw [Tracked.step, Privs.step, ho] at hs
      cases hs
  have hstart : Stacked os (track p) := by
    refine ⟨h, List.Pairwise.nil, fun i hi => absurd hi List.not_mem_nil, ?_⟩
    intro above f rest hframes
    exact absurd hframes (by simp [track])
  refine Lib.always_iff_eachStep (I := Stacked os) (H := fun _ _ => True) hoff ?_ ?_ es _ hstart
    ⟨hp, rfl⟩ (Lib.eachStep_of_forall (fun _ _ => trivial) es _)
  · intro t e t' hstacked ha _ htime hs
    cases e with
    | create uid gid => exact (hstacked.create ha hs).1
    | destroy i => exact (hstacked.destroy ha hs).1 htime
  · intro t e t' hstacked ha _ hs
    cases e with
    | create uid gid => exact iff_of_true (hstacked.create ha hs).2 trivial
    | destroy i => exact (hstacked.destroy ha hs).2

/-- The second object outlives the first one, and a third and a fourth come. -/
theorem nested_iff_server :
    Always (Tracked.step unix) Agrees (track server) [.create (.int 1000) (.int 0),
        .create (.int 0) (.int 0), .destroy 0, .create (.int 1000) (.int 0),
        .create (.int 33) (.int 0), .destroy 1] ↔
      EachStep (Tracked.step unix) InTime (track server) [.create (.int 1000) (.int 0),
        .create (.int 0) (.int 0), .destroy 0, .create (.int 1000) (.int 0),
        .create (.int 33) (.int 0), .destroy 1] :=
  nested_iff server_rooted rfl _

/-! ## The real group -/

/-- An object that was made to the end has set both groups to the same. -/
theorem create_group {uid gid : Arg} (h : p.uid = 0) (hdone : (create os uid gid p).2.1 = true) :
    (create os uid gid p).2.2.gid = (create os uid gid p).2.2.egid ∧
      os.groupOk (create os uid gid p).2.2.gid = true := by
  unfold create at hdone ⊢
  rw [if_neg (not_not.mpr h)] at hdone ⊢
  dsimp only at hdone ⊢
  cases hw : wanted os uid gid with
  | none => rw [hw] at hdone; cases hdone
  | some w =>
    rw [hw] at hdone
    dsimp only at hdone ⊢
    unfold Process.become at hdone ⊢
    dsimp only at hdone ⊢
    split
    next hgid => rw [hgid] at hdone; cases hdone
    next g hgid =>
      rw [hgid] at hdone
      dsimp only at hdone
      cases hg : os.groupOk g with
      | false => rw [hg] at hdone; cases hdone
      | true =>
        rw [if_pos rfl]
        split
        · exact ⟨rfl, hg⟩
        · exact ⟨rfl, hg⟩

/-- The real user stays. -/
theorem create_uid (os : Os) (uid gid : Arg) (p : Process) :
    (create os uid gid p).2.2.uid = p.uid := by
  unfold create
  split
  · rfl
  · dsimp only
    cases wanted os uid gid with
    | none => rfl
    | some w =>
      unfold Process.become
      dsimp only
      split
      · rfl
      · split
        · split <;> rfl
        · rfl

theorem destroy_uid (os : Os) (o : Object) (p : Process) : (destroy os o p).uid = p.uid := by
  unfold destroy
  split
  · rfl
  · dsimp only
    split <;> rfl

/-- Objects that go leave the real ids as they are. -/
theorem destroys_real {es : List Event} (hes : ∀ e ∈ es, ∃ i, e = .destroy i) {s s' : State}
    (hs : runFrom (step os) s es = some s') :
    s'.process.gid = s.process.gid ∧ s'.process.uid = s.process.uid := by
  refine Lib.inv_of_runFrom (P := fun t => t.process.gid = s.process.gid ∧
    t.process.uid = s.process.uid) (Q := fun e => ∃ i, e = .destroy i) ?_ es _ _ hes
    ⟨rfl, rfl⟩ hs
  intro t e t' he ht hstep
  obtain ⟨i, rfl⟩ := he
  rw [Privs.step] at hstep
  cases hl : t.objects.lookup i with
  | none => rw [hl] at hstep; cases hstep
  | some o =>
    rw [hl] at hstep
    obtain rfl := Option.some.inj hstep
    exact ⟨(destroy_gid os o t.process).trans ht.1, (destroy_uid os o t.process).trans ht.2⟩

/-- An object for root that asks for no group, when root has the group 0. -/
theorem create_root {u : Passwd} (h : p.uid = 0) (hroot : os.getpwuid 0 = some u)
    (hgroup : u.gid = 0) (hok : os.groupOk p.gid = true) :
    (create os (.int 0) (.int 0) p).2.2.egid = p.gid := by
  have hwanted : wanted os (.int 0) (.int 0) = some ⟨.int 0, .int 0, u.name, .int 0⟩ := by
    rw [wanted, show entry os (Arg.int 0).number = some u from hroot]
    show some (Wanted.mk (.int 0) (.int u.gid) u.name (.int u.gid)) = _
    rw [hgroup]
  unfold create
  rw [if_neg (not_not.mpr h), hwanted]
  show (Process.become os { p with privsLevel := p.privsLevel + 1, euid := 0 } _).2.egid = _
  unfold Process.become
  dsimp only
  rw [if_pos (show (Arg.int 0).isZero = true from rfl)]
  dsimp only
  rw [if_pos hok]
  rfl

/-- **The group that is left.** After an object was made to the end and any objects have gone,
an object for root without a group has the group of that object, whatever group was in force
before. -/
theorem left_group {s s' : State} {uid gid : Arg} {es : List Event} {u : Passwd}
    (h : s.process.uid = 0) (hdone : (create os uid gid s.process).2.1 = true)
    (hes : ∀ e ∈ es, ∃ i, e = .destroy i)
    (hs : runFrom (step os) s (.create uid gid :: es) = some s')
    (hroot : os.getpwuid 0 = some u) (hgroup : u.gid = 0) :
    (create os (.int 0) (.int 0) s'.process).2.2.egid =
      (create os uid gid s.process).2.2.egid := by
  obtain ⟨hsame, hok⟩ := create_group h hdone
  rw [Lib.runFrom_cons es rfl] at hs
  obtain ⟨hgid, huid⟩ := destroys_real hes hs
  rw [create_root (huid.trans ((create_uid os uid gid s.process).trans h)) hroot hgroup
    (by rw [hgid]; exact hok), hgid]
  exact hsame

/-- The passwords are read as root with the group of "anna". -/
theorem left_group_server :
    (create unix (.int 0) (.int 0) (destroy unix ⟨0, 33, 33⟩
      (create unix (.int 1000) (.int 0) server).2.2)).2.2.egid = 100 := by
  have hs : runFrom (step unix) (start server) [.create (.int 1000) (.int 0), .destroy 0] =
      some ⟨destroy unix ⟨0, 33, 33⟩ (create unix (.int 1000) (.int 0) server).2.2, ∅, 1⟩ := rfl
  exact left_group rfl rfl (fun e he => ⟨0, List.mem_singleton.mp he⟩) hs rfl rfl

end Caudium.BaseServer.Privs
