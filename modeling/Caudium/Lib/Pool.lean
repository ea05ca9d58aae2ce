import Caudium.Lib.Runs
import Mathlib.Data.List.Perm.Basic
import Mathlib.Data.List.Flatten

/-!
# Workers that read from one queue

A message of the queue is a job, or tells the worker that reads it to go (`none`). Whatever the
order of the steps, what has been put into the queue is what has been taken, in the same order, and
what is still there (`puts_eq`); each job that has been taken is done, or in the hands of one
worker (`jobs_perm`); and each message to go is obeyed by one worker (`step_counts`).
-/

namespace Lib

/-- Where a worker is in its loop. -/
inductive Worker (μ : Type) where
  | waiting
  | holding (m : Option μ)
  | working (job : μ)
  | gone
  deriving DecidableEq, Repr

structure Pool (μ : Type) where
  queue : List (Option μ)
  workers : List (Worker μ)
  deriving DecidableEq, Repr

inductive PoolAct (μ : Type) where
  | put (m : Option μ)
  | spawn
  /-- A worker reads the message. -/
  | take (i : Nat) (m : Option μ)
  /-- It begins with the job that it has read, or goes. -/
  | act (i : Nat)
  /-- It is done with the job. -/
  | done (i : Nat) (job : μ)
  deriving DecidableEq, Repr

variable {μ : Type} [DecidableEq μ]

def Pool.step (p : Pool μ) : PoolAct μ → Option (Pool μ)
  | .put m => some { p with queue := p.queue ++ [m] }
  | .spawn => some { p with workers := p.workers ++ [.waiting] }
  | .take i m =>
    if p.workers[i]? = some .waiting ∧ p.queue.head? = some m then
      some ⟨p.queue.tail, p.workers.set i (.holding m)⟩
    else none
  | .act i =>
    match p.workers[i]? with
    | some (.holding (some job)) => some { p with workers := p.workers.set i (.working job) }
    | some (.holding none) => some { p with workers := p.workers.set i .gone }
    | _ => none
  | .done i job =>
    if p.workers[i]? = some (.working job) then
      some { p with workers := p.workers.set i .waiting }
    else none

/-! ## What a run has done -/

def PoolAct.put? : PoolAct μ → Option (Option μ)
  | .put m => some m
  | _ => none

def PoolAct.take? : PoolAct μ → Option (Option μ)
  | .take _ m => some m
  | _ => none

def PoolAct.done? : PoolAct μ → Option μ
  | .done _ job => some job
  | _ => none

def puts (as : List (PoolAct μ)) : List (Option μ) := as.filterMap PoolAct.put?

def takes (as : List (PoolAct μ)) : List (Option μ) := as.filterMap PoolAct.take?

def dones (as : List (PoolAct μ)) : List μ := as.filterMap PoolAct.done?

/-- The job that a worker has in hand. -/
def Worker.job? : Worker μ → Option μ
  | .holding m => m
  | .working job => some job
  | _ => none

def Pool.inHand (p : Pool μ) : List μ := p.workers.filterMap Worker.job?

def Worker.live : Worker μ → Bool
  | .gone => false
  | _ => true

/-- The worker has been told to go. -/
def Worker.leaving : Worker μ → Bool
  | .holding none => true
  | _ => false

def Pool.live (p : Pool μ) : Nat := p.workers.countP Worker.live

/-- The messages that tell a worker to go and that have not been obeyed. -/
def Pool.stops (p : Pool μ) : Nat := p.queue.count none + p.workers.countP Worker.leaving

/-! ## A list in which one element changes -/

theorem countP_set {α : Type} {l : List α} {i : Nat} {a b : α} (p : α → Bool) (h : l[i]? = some a) :
    (l.set i b).countP p + (if p a then 1 else 0) = l.countP p + if p b then 1 else 0 := by
  induction l generalizing i with
  | nil => cases h
  | cons c l ih =>
    cases i with
    | zero =>
      cases h
      rw [List.set_cons_zero, List.countP_cons, List.countP_cons]
      omega
    | succ i =>
      have hrest := ih (i := i) h
      rw [List.set_cons_succ, List.countP_cons, List.countP_cons]
      omega

theorem filterMap_cons_toList {α β : Type} (f : α → Option β) (a : α) (l : List α) :
    (a :: l).filterMap f = (f a).toList ++ l.filterMap f := by
  rw [List.filterMap_cons]
  cases f a with
  | none => rfl
  | some b => rfl

theorem map_some_filterMap {α : Type} {l : List (Option α)} (h : none ∉ l) :
    (l.filterMap id).map some = l := by
  induction l with
  | nil => rfl
  | cons a l ih =>
    rw [List.mem_cons, not_or] at h
    cases a with
    | none => exact absurd rfl h.1
    | some a => exact congrArg (some a :: ·) (ih h.2)

theorem filterMap_set_perm {α β : Type} {l : List α} {i : Nat} {a b : α} (f : α → Option β)
    (h : l[i]? = some a) :
    ((f a).toList ++ (l.set i b).filterMap f).Perm ((f b).toList ++ l.filterMap f) := by
  induction l generalizing i with
  | nil => cases h
  | cons c l ih =>
    cases i with
    | zero =>
      cases h
      rw [List.set_cons_zero, filterMap_cons_toList, filterMap_cons_toList]
      exact List.perm_append_comm_assoc ..
    | succ i =>
      rw [List.set_cons_succ, filterMap_cons_toList, filterMap_cons_toList]
      exact (List.perm_append_comm_assoc ..).trans
        (((ih (i := i) h).append_left _).trans (List.perm_append_comm_assoc ..))

/-! ## One step -/

variable {p p' : Pool μ} {a : PoolAct μ}

/-- What a step can do. -/
theorem step_cases (h : p.step a = some p') :
    (∃ m, a = .put m ∧ p' = { p with queue := p.queue ++ [m] }) ∨
    (a = .spawn ∧ p' = { p with workers := p.workers ++ [.waiting] }) ∨
    (∃ i m, a = .take i m ∧ p.workers[i]? = some .waiting ∧ p.queue = m :: p'.queue ∧
      p'.workers = p.workers.set i (.holding m)) ∨
    (∃ i job, a = .act i ∧ p.workers[i]? = some (.holding (some job)) ∧
      p' = { p with workers := p.workers.set i (.working job) }) ∨
    (∃ i, a = .act i ∧ p.workers[i]? = some (.holding none) ∧
      p' = { p with workers := p.workers.set i .gone }) ∨
    ∃ i job, a = .done i job ∧ p.workers[i]? = some (.working job) ∧
      p' = { p with workers := p.workers.set i .waiting } := by
  cases a with
  | put m =>
    cases h
    exact .inl ⟨m, rfl, rfl⟩
  | spawn =>
    cases h
    exact .inr (.inl ⟨rfl, rfl⟩)
  | take i m =>
    rw [Pool.step] at h
    split at h
    · next hready =>
      cases h
      refine .inr (.inr (.inl ⟨i, m, rfl, hready.1, ?_, rfl⟩))
      exact (List.cons_head?_tail hready.2).symm
    · cases h
  | act i =>
    rw [Pool.step] at h
    split at h
    · next job hjob =>
      cases h
      exact .inr (.inr (.inr (.inl ⟨i, job, rfl, hjob, rfl⟩)))
    · next hstop =>
      cases h
      exact .inr (.inr (.inr (.inr (.inl ⟨i, rfl, hstop, rfl⟩))))
    · cases h
  | done i job =>
    rw [Pool.step] at h
    split at h
    · next hworking =>
      cases h
      exact .inr (.inr (.inr (.inr (.inr ⟨i, job, rfl, hworking, rfl⟩))))
    · cases h

/-- A step puts at the end of the queue and takes from its beginning. -/
theorem step_queue (h : p.step a = some p') :
    p.queue ++ a.put?.toList = a.take?.toList ++ p'.queue := by
  obtain ⟨m, rfl, rfl⟩ | ⟨rfl, rfl⟩ | ⟨i, m, rfl, -, hqueue, -⟩ | ⟨i, job, rfl, -, rfl⟩ |
    ⟨i, rfl, -, rfl⟩ | ⟨i, job, rfl, -, rfl⟩ := step_cases h
  · rfl
  · exact List.append_nil _
  · exact (List.append_nil _).trans hqueue
  · exact List.append_nil _
  · exact List.append_nil _
  · exact List.append_nil _

/-- A step moves a job from the queue into a worker's hands, or out of them. -/
theorem step_jobs (h : p.step a = some p') :
    (a.take?.toList.filterMap id ++ p.inHand).Perm (a.done?.toList ++ p'.inHand) := by
  unfold Pool.inHand
  obtain ⟨m, rfl, rfl⟩ | ⟨rfl, rfl⟩ | ⟨i, m, rfl, hi, -, hworkers⟩ | ⟨i, job, rfl, hi, rfl⟩ |
    ⟨i, rfl, hi, rfl⟩ | ⟨i, job, rfl, hi, rfl⟩ := step_cases h
  · exact List.Perm.refl _
  · show (p.workers.filterMap Worker.job?).Perm _
    rw [show (PoolAct.spawn : PoolAct μ).done?.toList = [] from rfl, List.nil_append,
      List.filterMap_append]
    exact List.Perm.of_eq (List.append_nil _).symm
  · rw [hworkers]
    have hset := filterMap_set_perm (b := Worker.holding m) Worker.job? hi
    refine (List.Perm.of_eq ?_).trans hset.symm
    cases m with
    | none => rfl
    | some job => rfl
  · exact (List.perm_append_left_iff [job]).mp
      (filterMap_set_perm (b := Worker.working job) Worker.job? hi).symm
  · exact (filterMap_set_perm (b := Worker.gone) Worker.job? hi).symm
  · exact (filterMap_set_perm (b := Worker.waiting) Worker.job? hi).symm

omit [DecidableEq μ] in
/-- What a worker that changes from `w` to `w'` does to the numbers. -/
theorem set_counts {i : Nat} {w : Worker μ} (w' : Worker μ) (h : p.workers[i]? = some w) :
    (p.workers.set i w').countP Worker.live + (if w.live then 1 else 0) =
        p.live + (if w'.live then 1 else 0) ∧
      (p.workers.set i w').countP Worker.leaving + (if w.leaving then 1 else 0) =
        p.workers.countP Worker.leaving + if w'.leaving then 1 else 0 :=
  ⟨countP_set Worker.live h, countP_set Worker.leaving h⟩

/-- The step is one of a worker that goes. -/
def Pool.obeys (p : Pool μ) : PoolAct μ → Bool
  | .act i => decide (p.workers[i]? = some (.holding none))
  | _ => false

/-- How many workers there are, and how many messages to go have not been obeyed. -/
theorem step_counts (h : p.step a = some p') :
    p'.live + (if p.obeys a then 1 else 0) = p.live + (if a = .spawn then 1 else 0) ∧
      p'.stops + (if p.obeys a then 1 else 0) = p.stops + if a = .put none then 1 else 0 := by
  obtain ⟨m, rfl, rfl⟩ | ⟨rfl, rfl⟩ | ⟨i, m, rfl, hi, hqueue, hworkers⟩ | ⟨i, job, rfl, hi, rfl⟩ |
    ⟨i, rfl, hi, rfl⟩ | ⟨i, job, rfl, hi, rfl⟩ := step_cases h
  · cases m with
    | none =>
      simp [Pool.live, Pool.stops, Pool.obeys]
      omega
    | some job => simp [Pool.live, Pool.stops, Pool.obeys]
  · simp [Pool.live, Pool.stops, Pool.obeys, Worker.live, Worker.leaving]
  · have hset := set_counts (.holding m) hi
    rw [← hworkers] at hset
    unfold Pool.live Pool.stops at *
    rw [hqueue]
    cases m with
    | none =>
      simp [Pool.obeys, Worker.live, Worker.leaving] at hset ⊢
      omega
    | some job =>
      simp [Pool.obeys, Worker.live, Worker.leaving] at hset ⊢
      omega
  · have hset := set_counts (.working job) hi
    simp [Pool.obeys, hi, Pool.live, Pool.stops, Worker.live, Worker.leaving] at hset ⊢
    omega
  · have hset := set_counts .gone hi
    simp [Pool.obeys, hi, Pool.live, Pool.stops, Worker.live, Worker.leaving] at hset ⊢
    omega
  · have hset := set_counts .waiting hi
    simp [Pool.obeys, Pool.live, Pool.stops, Worker.live, Worker.leaving] at hset ⊢
    omega

/-! ## A run -/

/-- What has been put into the queue has been taken, in the same order, or is there. -/
theorem puts_eq (as : List (PoolAct μ)) (h : runFrom Pool.step p as = some p') :
    p.queue ++ puts as = takes as ++ p'.queue := by
  induction as generalizing p with
  | nil =>
    cases h
    exact List.append_nil _
  | cons a as ih =>
    obtain ⟨q, hstep, hrest⟩ := Option.bind_eq_some_iff.mp h
    have hfirst := step_queue hstep
    calc p.queue ++ puts (a :: as) = (p.queue ++ a.put?.toList) ++ puts as := by
          rw [List.append_assoc]
          exact congrArg _ (filterMap_cons_toList ..)
      _ = a.take?.toList ++ (q.queue ++ puts as) := by rw [hfirst, List.append_assoc]
      _ = (a.take?.toList ++ takes as) ++ p'.queue := by rw [ih hrest, List.append_assoc]
      _ = takes (a :: as) ++ p'.queue := congrArg (· ++ _) (filterMap_cons_toList ..).symm

/-- Each job that has been taken is done, or in the hands of one worker. -/
theorem jobs_perm (as : List (PoolAct μ)) (h : runFrom Pool.step p as = some p') :
    ((takes as).filterMap id ++ p.inHand).Perm (dones as ++ p'.inHand) := by
  induction as generalizing p with
  | nil =>
    cases h
    exact List.Perm.refl _
  | cons a as ih =>
    obtain ⟨q, hstep, hrest⟩ := Option.bind_eq_some_iff.mp h
    have htakes : takes (a :: as) = a.take?.toList ++ takes as := filterMap_cons_toList ..
    have hdones : dones (a :: as) = a.done?.toList ++ dones as := filterMap_cons_toList ..
    rw [htakes, hdones, List.filterMap_append]
    have hswap : ((a.take?.toList.filterMap id ++ (takes as).filterMap id) ++ p.inHand).Perm
        ((takes as).filterMap id ++ (a.take?.toList.filterMap id ++ p.inHand)) := by
      rw [List.append_assoc]
      exact List.perm_append_comm_assoc ..
    -- what the first step moves, then what the others do
    refine hswap.trans (((step_jobs hstep).append_left _).trans ?_)
    refine (List.perm_append_comm_assoc ..).trans ?_
    rw [List.append_assoc]
    exact (ih hrest).append_left _

end Lib
