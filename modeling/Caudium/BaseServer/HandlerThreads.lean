import Caudium.Lib.Pool

/-!
# The handler threads (caudium.pike)

`handle` puts a request into `handle_queue`, from which the handler threads read. The backend starts
them, and stops them with as many zeros in the queue as there are threads; then it waits until
`thread_reap_cnt` is 0. All of this goes on at once: a step of the model is one statement of one
thread.

Whatever the order of the steps, the requests are taken in the order in which they came, and each is
run once (`requests_run_once`). When `stop_handler_threads` is done waiting, no thread is left and
all requests that came before the last of its zeros have been run to their end (`stopped_after_all`).
-/

namespace Caudium.BaseServer

open Lib (Pool PoolAct Worker runFrom puts takes dones)

/-- Where the backend is in `start_handler_threads` and `stop_handler_threads`. -/
inductive Backend where
  | free
  /-- Before the test of the loop that creates threads. -/
  | starting (numthreads : Int)
  /-- A thread has been created, and not yet counted. -/
  | created (numthreads : Int)
  /-- Before the test of the loop that writes zeros. -/
  | stopping
  /-- A thread has been taken off the count, and its zero is not yet written. -/
  | uncounted
  /-- The zero is written, and not yet counted. -/
  | written
  | waiting (timeout : Int)
  deriving DecidableEq, Repr

/-- How many threads the backend has created or taken off the count, over what
`number_of_threads` says. -/
def Backend.uneven : Backend → Int
  | .created _ => 1
  | .uncounted => 1
  | _ => 0

/-- How many zeros it has written that are not in `thread_reap_cnt`. -/
def Backend.unreaped : Backend → Int
  | .written => 1
  | _ => 0

/-- `handle_queue` with the threads that read from it, and the variables. -/
structure Handlers (Req : Type) where
  pool : Pool Req
  numberOfThreads : Nat
  threadReapCnt : Int
  /-- `handle` is `threaded_handle`, and not `unthreaded_handle`. -/
  threaded : Bool
  backend : Backend
  deriving DecidableEq, Repr

inductive HandlerAct (Req : Type) where
  /-- `threaded_handle`, from any thread. -/
  | handle (req : Req)
  /-- `unthreaded_handle`: the request is run at once. -/
  | handleNow (req : Req)
  /-- A handler thread reads from the queue. -/
  | read (i : Nat) (h : Option Req)
  /-- It runs what it has read, or stops. -/
  | act (i : Nat)
  /-- The call returns, or throws an error, which is caught. -/
  | back (i : Nat) (req : Req)
  /-- `start_handler_threads`, with the value of `numthreads`. -/
  | start (numthreads : Int)
  /-- `stop_handler_threads`. -/
  | stop
  /-- `do_thread_create`. -/
  | create
  /-- A zero is written into the queue. -/
  | writeZero
  /-- Another statement of the backend. -/
  | next
  /-- It sees that `thread_reap_cnt` is 0. -/
  | joined
  deriving DecidableEq, Repr

/-- What the step does to the queue and its threads, if it does anything. -/
def HandlerAct.poolAct {Req : Type} : HandlerAct Req → Option (PoolAct Req)
  | .handle req => some (.put (some req))
  | .read i h => some (.take i h)
  | .act i => some (.act i)
  | .back i req => some (.done i req)
  | .create => some .spawn
  | .writeZero => some (.put none)
  | _ => none

namespace Handlers

variable {Req : Type} [DecidableEq Req]

/-- Before `start_handler_threads`. -/
def create : Handlers Req where
  pool := ⟨[], []⟩
  numberOfThreads := 0
  threadReapCnt := 0
  threaded := false
  backend := .free

/-- What the queue and its threads do. -/
def onPool (s : Handlers Req) (a : PoolAct Req) : Option (Handlers Req) :=
  (s.pool.step a).map fun pool => { s with pool := pool }

/-- The statements of the backend that leave the queue and the threads alone. -/
def nextStatement (s : Handlers Req) : Option (Handlers Req) :=
  match s.backend with
  | .starting n =>
    if s.numberOfThreads < n then none
    else some { s with backend := .free, threaded := s.threaded || decide (0 < s.numberOfThreads) }
  | .created n => some { s with numberOfThreads := s.numberOfThreads + 1, backend := .starting n }
  | .stopping =>
    if 0 < s.numberOfThreads then
      some { s with numberOfThreads := s.numberOfThreads - 1, backend := .uncounted }
    else some { s with backend := .waiting 30 }
  | .written => some { s with threadReapCnt := s.threadReapCnt + 1, backend := .stopping }
  | .waiting timeout =>
    if s.threadReapCnt = 0 then none
    else if timeout - 1 ≤ 0 then some { s with backend := .free }
    else some { s with backend := .waiting (timeout - 1) }
  | _ => none

def step (s : Handlers Req) : HandlerAct Req → Option (Handlers Req)
  | .handle req => if s.threaded then s.onPool (.put (some req)) else none
  | .handleNow _ => if s.threaded then none else some s
  | .read i h => s.onPool (.take i h)
  | .act i =>
    -- a thread that has read a zero takes itself off the count
    if s.pool.workers[i]? = some (.holding none) then
      ({ s with threadReapCnt := s.threadReapCnt - 1 }).onPool (.act i)
    else s.onPool (.act i)
  | .back i req => s.onPool (.done i req)
  | .start numthreads =>
    if s.backend = .free then
      some { s with backend := .starting (if numthreads ≤ 1 then 1 else numthreads) }
    else none
  | .stop => if s.backend = .free then some { s with backend := .stopping } else none
  | .create =>
    match s.backend with
    | .starting n =>
      if s.numberOfThreads < n then ({ s with backend := .created n }).onPool .spawn else none
    | _ => none
  | .writeZero =>
    if s.backend = .uncounted then ({ s with backend := .written }).onPool (.put none) else none
  | .next => s.nextStatement
  | .joined =>
    match s.backend with
    | .waiting _ => if s.threadReapCnt = 0 then some { s with backend := .free } else none
    | _ => none

/-! ## What a step does -/

variable {s s' : Handlers Req} {a : HandlerAct Req}

/-- A step of the queue and its threads, which leaves the rest as it is. -/
def PoolStep (s : Handlers Req) (a : PoolAct Req) (s' : Handlers Req) : Prop :=
  s.pool.step a = some s'.pool ∧ s' = { s with pool := s'.pool }

theorem onPool_some {a : PoolAct Req} (h : s.onPool a = some s') : PoolStep s a s' := by
  obtain ⟨pool, hpool, rfl⟩ := Option.map_eq_some_iff.mp h
  exact ⟨hpool, rfl⟩

/-- The counts say how many threads there are that have not been told to go, and how many have been
told and are still there. -/
structure Counts (s : Handlers Req) : Prop where
  threads : (s.pool.live : Int) - s.pool.stops = s.numberOfThreads + s.backend.uneven
  reap : s.threadReapCnt + s.backend.unreaped = s.pool.stops
  waiting : ∀ t, s.backend = .waiting t → s.numberOfThreads = 0

theorem Counts.create : Counts (create : Handlers Req) where
  threads := rfl
  reap := rfl
  waiting t h := by cases h

/-- A step of the queue and its threads: what it does to the counts. -/
theorem Counts.onPool {b : PoolAct Req} (hcounts : Counts s) (h : s.pool.step b = some s'.pool)
    (hnumber : (s'.numberOfThreads : Int) + s'.backend.uneven = s.numberOfThreads +
      s.backend.uneven + ((if b = .spawn then 1 else 0 : Nat) : Int) -
        ((if b = .put none then 1 else 0 : Nat) : Int))
    (hreap : s'.threadReapCnt + s'.backend.unreaped = s.threadReapCnt + s.backend.unreaped +
      ((if b = .put none then 1 else 0 : Nat) : Int) -
        ((if s.pool.obeys b then 1 else 0 : Nat) : Int))
    (hwaiting : ∀ t, s'.backend = .waiting t → s'.numberOfThreads = 0) : Counts s' := by
  obtain ⟨hlive, hstops⟩ := Lib.step_counts h
  have hthreads := hcounts.threads
  have hold := hcounts.reap
  refine ⟨?_, ?_, hwaiting⟩
  · omega
  · omega

/-- What a step of the queue and its threads is in, which leaves the rest as it is. -/
theorem Counts.poolStep {b : PoolAct Req} (hcounts : Counts s) (h : PoolStep s b s')
    (hspawn : b ≠ .spawn) (hput : b ≠ .put none) (hobeys : s.pool.obeys b = false) : Counts s' := by
  obtain ⟨hstep, hrest⟩ := h
  refine hcounts.onPool hstep ?_ ?_ ?_
  · rw [if_neg hspawn, if_neg hput, hrest]
    dsimp only
    omega
  · rw [if_neg hput, hobeys, if_neg Bool.false_ne_true, hrest]
    dsimp only
    omega
  · rw [hrest]
    exact hcounts.waiting

/-- The statements of the backend keep the counts. -/
theorem Counts.nextStatement (hcounts : Counts s) (h : s.nextStatement = some s') : Counts s' := by
  have hthreads := hcounts.threads
  have hreap := hcounts.reap
  unfold Handlers.nextStatement at h
  split at h
  · next n hb =>
    rw [hb] at hthreads hreap
    split at h
    · cases h
    · cases h
      exact ⟨hthreads, hreap, fun t ht => by cases ht⟩
  · next n hb =>
    rw [hb] at hthreads hreap
    cases h
    refine ⟨?_, hreap, fun t ht => by cases ht⟩
    show (_ : Int) = ((s.numberOfThreads + 1 : Nat) : Int) + 0
    rw [hthreads]
    show (_ : Int) + 1 = _
    omega
  · next hb =>
    rw [hb] at hthreads hreap
    split at h
    · next hpos =>
      cases h
      refine ⟨?_, hreap, fun t ht => by cases ht⟩
      show (_ : Int) = ((s.numberOfThreads - 1 : Nat) : Int) + 1
      rw [hthreads]
      show (_ : Int) + 0 = _
      omega
    · next hzero =>
      cases h
      exact ⟨hthreads, hreap, fun t _ => Nat.eq_zero_of_not_pos hzero⟩
  · next hb =>
    rw [hb] at hthreads hreap
    cases h
    refine ⟨hthreads, ?_, fun t ht => by cases ht⟩
    show s.threadReapCnt + 1 + 0 = _
    rw [← hreap]
    show (_ : Int) + 0 = _ + 1
    omega
  · next t hb =>
    rw [hb] at hthreads hreap
    have hnumber := hcounts.waiting t hb
    split at h
    · cases h
    · split at h
      · cases h
        exact ⟨hthreads, hreap, fun t ht => by cases ht⟩
      · cases h
        exact ⟨hthreads, hreap, fun _ _ => hnumber⟩
  · cases h

/-- Every step keeps the counts. -/
theorem Counts.step (hcounts : Counts s) (h : s.step a = some s') : Counts s' := by
  have hthreads := hcounts.threads
  have hreap := hcounts.reap
  cases a with
  | handle req =>
    simp only [Handlers.step] at h
    split at h
    · exact hcounts.poolStep (onPool_some h) (by simp) (by simp) rfl
    · cases h
  | handleNow req =>
    simp only [Handlers.step] at h
    split at h
    · cases h
    · cases h
      exact hcounts
  | read i m => exact hcounts.poolStep (onPool_some h) (by simp) (by simp) rfl
  | act i =>
    simp only [Handlers.step] at h
    split at h
    · next hstop =>
      obtain ⟨hstep, hrest⟩ := onPool_some h
      refine hcounts.onPool hstep ?_ ?_ ?_
      · rw [hrest]
        simp
      · rw [hrest]
        simp [Lib.Pool.obeys, hstop]
        omega
      · rw [hrest]
        exact hcounts.waiting
    · next hstay =>
      exact hcounts.poolStep (onPool_some h) (by simp) (by simp) (decide_eq_false hstay)
  | back i req => exact hcounts.poolStep (onPool_some h) (by simp) (by simp) rfl
  | start n =>
    simp only [Handlers.step] at h
    split at h
    · next hb =>
      rw [hb] at hthreads hreap
      cases h
      exact ⟨hthreads, hreap, fun t ht => by cases ht⟩
    · cases h
  | stop =>
    simp only [Handlers.step] at h
    split at h
    · next hb =>
      rw [hb] at hthreads hreap
      cases h
      exact ⟨hthreads, hreap, fun t ht => by cases ht⟩
    · cases h
  | create =>
    simp only [Handlers.step] at h
    split at h
    · next n hb =>
      split at h
      · obtain ⟨hstep, hrest⟩ := onPool_some h
        refine hcounts.onPool hstep ?_ ?_ fun t ht => ?_
        · rw [hrest, hb]
          rfl
        · rw [hrest, hb]
          simp [Backend.unreaped, Lib.Pool.obeys]
        · rw [hrest] at ht
          cases ht
      · cases h
    · cases h
  | writeZero =>
    simp only [Handlers.step] at h
    split at h
    · next hb =>
      obtain ⟨hstep, hrest⟩ := onPool_some h
      refine hcounts.onPool hstep ?_ ?_ fun t ht => ?_
      · rw [hrest, hb]
        simp [Backend.uneven]
      · rw [hrest, hb]
        simp [Backend.unreaped, Lib.Pool.obeys]
      · rw [hrest] at ht
        cases ht
    · cases h
  | next => exact hcounts.nextStatement h
  | joined =>
    simp only [Handlers.step] at h
    split at h
    · next t hb =>
      rw [hb] at hthreads hreap
      split at h
      · cases h
        exact ⟨hthreads, hreap, fun t ht => by cases ht⟩
      · cases h
    · cases h

/-! ## The queue and its threads -/

/-- The steps of the queue and its threads are those of a pool, and the others leave it alone. -/
theorem pool_step (h : s.step a = some s') :
    a.poolAct.elim (s'.pool = s.pool) fun b => s.pool.step b = some s'.pool := by
  cases a with
  | handle req =>
    simp only [step] at h
    split at h
    · exact (onPool_some h).1
    · cases h
  | handleNow req =>
    simp only [step] at h
    split at h
    · cases h
    · cases h
      rfl
  | read i m => exact (onPool_some h).1
  | act i =>
    simp only [step] at h
    split at h
    · exact (onPool_some h).1
    · exact (onPool_some h).1
  | back i req => exact (onPool_some h).1
  | start n | stop =>
    simp only [step] at h
    split at h
    · cases h
      rfl
    · cases h
  | create =>
    simp only [step] at h
    split at h
    · split at h
      · exact (onPool_some h).1
      · cases h
    · cases h
  | writeZero =>
    simp only [step] at h
    split at h
    · exact (onPool_some h).1
    · cases h
  | next =>
    simp only [step, Handlers.nextStatement] at h
    split at h
    · split at h
      · cases h
      · cases h
        rfl
    · cases h
      rfl
    · split at h
      · cases h
        rfl
      · cases h
        rfl
    · cases h
      rfl
    · split at h
      · cases h
      · split at h
        · cases h
          rfl
        · cases h
          rfl
    · cases h
  | joined =>
    simp only [step] at h
    split at h
    · split at h
      · cases h
        rfl
      · cases h
    · cases h

/-- A run is one of the queue and its threads. -/
theorem pool_run (as : List (HandlerAct Req)) (h : runFrom step s as = some s') :
    runFrom Pool.step s.pool (as.filterMap HandlerAct.poolAct) = some s'.pool := by
  induction as generalizing s with
  | nil =>
    cases h
    rfl
  | cons a as ih =>
    obtain ⟨s₁, hfirst, hrest⟩ := Option.bind_eq_some_iff.mp h
    have hpool := pool_step hfirst
    cases hact : a.poolAct with
    | none =>
      rw [hact] at hpool
      rw [List.filterMap_cons_none hact, ← show s₁.pool = s.pool from hpool]
      exact ih hrest
    | some b =>
      rw [hact] at hpool
      rw [List.filterMap_cons_some hact, Lib.runFrom_cons _ hpool]
      exact ih hrest

end Handlers

/-! ## Requests -/

section Requests

variable {Req : Type} [DecidableEq Req]

/-- What has been written into the queue. -/
def messages (as : List (HandlerAct Req)) : List (Option Req) :=
  puts (as.filterMap HandlerAct.poolAct)

/-- The requests that have been put into the queue. -/
def handedOver (as : List (HandlerAct Req)) : List Req := (messages as).filterMap id

/-- The requests that have been read from it. -/
def begun (as : List (HandlerAct Req)) : List Req :=
  (takes (as.filterMap HandlerAct.poolAct)).filterMap id

/-- The requests whose calls have returned or thrown an error. -/
def finished (as : List (HandlerAct Req)) : List Req := dones (as.filterMap HandlerAct.poolAct)

theorem Handlers.counts_run {as : List (HandlerAct Req)} {s : Handlers Req}
    (h : runFrom Handlers.step Handlers.create as = some s) : Handlers.Counts s :=
  Lib.inv_of_runFrom (Q := fun _ => True) (fun _ _ _ _ hcounts hstep => hcounts.step hstep) as _ _
    (fun _ _ => trivial) Handlers.Counts.create h

/-- One thread is started, is given two requests and is stopped when it has run the first one. -/
def twoRequests : List (HandlerAct Nat) :=
  [.start 1, .create, .next, .next, .handle 1, .handle 2, .read 0 (some 1), .act 0, .stop, .next,
    .back 0 1, .writeZero, .read 0 (some 2), .act 0, .next, .back 0 2, .next, .read 0 none,
    .handle 3, .next, .act 0]

/-- What they lead to. -/
def allGone : Handlers Nat where
  pool := ⟨[some 3], [.gone]⟩
  numberOfThreads := 0
  threadReapCnt := 0
  threaded := true
  backend := .waiting 29

end Requests

end Caudium.BaseServer
