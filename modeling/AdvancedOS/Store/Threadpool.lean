import Mathlib.Logic.Function.Basic
import AdvancedOS.Lib.Lts

/-!
# The thread pool

`threadpool.h`. A `Pool` is what the mutex `queue_lock` protects, the queue of jobs, together with where
each worker is. One step is one section under the lock, one `notify_one`, one wake-up without cause, or
the end of a job.

`system numThreads` is the pool with any number of callers of `add_job`. Its lists `pushed` and `taken` are
history that no step reads.

* `Pool.Awake`: when the queue is not empty, a `notify_one` is still to come or a worker is not blocked.
* `threadpool_serves`: jobs are taken in the order in which they were pushed, none is lost or taken twice,
  and none is left behind.
-/

namespace AdvancedOS.Store

open Lts

/-- Where a worker is: before the `unique_lock`; in `cv.wait`, either blocked or woken up and before the
lock; or executing a job. -/
inductive Worker (ι : Type)
  | ready
  | blocked
  | woken
  | running (job : ι)
  deriving DecidableEq, Repr

/-- The queue of jobs and the workers. -/
structure Pool (ι : Type) where
  eventQueue : List ι
  workers : Nat → Worker ι

namespace Pool

variable {ι : Type}

def empty : Pool ι := { eventQueue := [], workers := fun _ => .ready }

/-- Worker `w` becomes `worker`. -/
def set (p : Pool ι) (w : Nat) (worker : Worker ι) : Pool ι :=
  { p with workers := Function.update p.workers w worker }

/-- `front` and `pop`, which need an element. -/
def takeFront (p : Pool ι) (w : Nat) : Option (Pool ι) :=
  match p.eventQueue with
  | [] => none
  | job :: eventQueue => some ({ p with eventQueue }.set w (.running job))

/-- The section of `ThreadLoop` under the lock: `cv.wait` blocks while its predicate is false. -/
def lockSection (p : Pool ι) (w : Nat) : Option (Pool ι) :=
  match p.workers w with
  | .ready | .woken => if p.eventQueue.isEmpty then some (p.set w .blocked) else p.takeFront w
  | .blocked | .running _ => none

/-- The end of `job()`. -/
def finishJob (p : Pool ι) (w : Nat) : Option (Pool ι) :=
  match p.workers w with
  | .running _ => some (p.set w .ready)
  | .ready | .blocked | .woken => none

/-- A wake-up of worker `w`, from `notify_one` or without cause. -/
def wake (p : Pool ι) (w : Nat) : Option (Pool ι) :=
  match p.workers w with
  | .blocked => some (p.set w .woken)
  | .ready | .woken | .running _ => none

/-- The section of `add_job` under the lock. -/
def push (p : Pool ι) (job : ι) : Pool ι := { p with eventQueue := p.eventQueue ++ [job] }

/-- `notify_one` of a pool of `n` workers wakes up one of those that are blocked, or nobody if none is. -/
def notifyOne (n : Nat) (p : Pool ι) : Option Nat → Option (Pool ι)
  | some w => if w < n then p.wake w else none
  | none => if ∃ w < n, p.workers w matches .blocked then none else some p

/-- No job is left behind: some `notify_one` is still to come, or some worker is not blocked. -/
def Awake (n : Nat) (pending : Prop) (p : Pool ι) : Prop :=
  p.eventQueue ≠ [] → pending ∨ ∃ w < n, p.workers w ≠ .blocked

variable {n w : Nat} {p q : Pool ι} {pending pending' : Prop}

@[simp] theorem set_self (p : Pool ι) (w : Nat) (worker : Worker ι) : (p.set w worker).workers w = worker :=
  Function.update_self _ _ _

theorem set_of_ne (p : Pool ι) {w v : Nat} (worker : Worker ι) (h : v ≠ w) :
    (p.set w worker).workers v = p.workers v := Function.update_of_ne h _ _

@[simp] theorem set_eventQueue (p : Pool ι) (w : Nat) (worker : Worker ι) :
    (p.set w worker).eventQueue = p.eventQueue := rfl

/-! ## What the operations do -/

/-- A section under the lock finds the queue empty and blocks, or it takes the first job. -/
theorem lockSection_cases (h : p.lockSection w = some q) :
    (p.workers w = .ready ∨ p.workers w = .woken) ∧
    (p.eventQueue = [] ∧ q = p.set w .blocked ∨
      ∃ job rest, p.eventQueue = job :: rest ∧ q = { p with eventQueue := rest }.set w (.running job)) := by
  have hpc : (p.workers w = .ready ∨ p.workers w = .woken) ∧
      (if p.eventQueue.isEmpty then some (p.set w .blocked) else p.takeFront w) = some q := by
    unfold lockSection at h
    split at h
    · next hpc => exact ⟨.inl hpc, h⟩
    · next hpc => exact ⟨.inr hpc, h⟩
    · cases h
    · cases h
  refine ⟨hpc.1, ?_⟩
  have hsection := hpc.2
  split at hsection
  · next hempty => exact .inl ⟨List.isEmpty_iff.mp hempty, (Option.some.inj hsection).symm⟩
  · unfold takeFront at hsection
    split at hsection
    · cases hsection
    · next job rest hqueue => exact .inr ⟨job, rest, hqueue, (Option.some.inj hsection).symm⟩

/-- `front` and `pop` are only applied to a queue with an element: a worker before the lock can always
go on. -/
theorem lockSection_isSome (h : p.workers w = .ready ∨ p.workers w = .woken) : (p.lockSection w).isSome := by
  have hsection : p.lockSection w =
      if p.eventQueue.isEmpty then some (p.set w .blocked) else p.takeFront w := by
    unfold lockSection
    rcases h with h | h <;> rw [h]
  rw [hsection]
  unfold takeFront
  cases p.eventQueue <;> rfl

theorem finishJob_cases (h : p.finishJob w = some q) :
    ∃ job, p.workers w = .running job ∧ q = p.set w .ready := by
  unfold finishJob at h
  split at h
  · next job hpc => exact ⟨job, hpc, (Option.some.inj h).symm⟩
  all_goals cases h

theorem wake_cases (h : p.wake w = some q) : p.workers w = .blocked ∧ q = p.set w .woken := by
  unfold wake at h
  split at h
  · next hpc => exact ⟨hpc, (Option.some.inj h).symm⟩
  all_goals cases h

theorem notifyOne_cases {target : Option Nat} (h : p.notifyOne n target = some q) :
    (∃ w < n, p.workers w = .blocked ∧ q = p.set w .woken) ∨
    ((∀ w < n, p.workers w ≠ .blocked) ∧ q = p) := by
  cases target with
  | some w =>
    rw [notifyOne] at h
    split at h
    · next hw =>
      obtain ⟨hpc, rfl⟩ := wake_cases h
      exact .inl ⟨w, hw, hpc, rfl⟩
    · cases h
  | none =>
    rw [notifyOne] at h
    split at h
    · cases h
    · next hno =>
      refine .inr ⟨fun w hw hpc => hno ⟨w, hw, by rw [hpc]⟩, (Option.some.inj h).symm⟩

/-- A `notify_one` is always possible. -/
theorem exists_notifyOne (n : Nat) (p : Pool ι) : ∃ target, (p.notifyOne n target).isSome := by
  by_cases h : ∃ w < n, p.workers w matches .blocked
  · obtain ⟨w, hw, hblocked⟩ := h
    refine ⟨some w, ?_⟩
    rw [notifyOne, if_pos hw, wake]
    split at hblocked
    · next hpc => rw [hpc]; rfl
    · cases hblocked
  · exact ⟨none, by rw [notifyOne, if_neg h]; rfl⟩

/-! ## No job is left behind -/

theorem awake_empty : Awake n pending (empty : Pool ι) := fun h => absurd rfl h

theorem awake_push (job : ι) (hpending : pending) : Awake n pending (p.push job) := fun _ => .inl hpending

/-- A section under the lock: the worker blocks only if the queue is empty, and else it runs. -/
theorem Awake.lockSection (hw : w < n) (h : p.lockSection w = some q) : Awake n pending q := by
  rcases (lockSection_cases h).2 with ⟨hempty, rfl⟩ | ⟨job, rest, -, rfl⟩
  · exact fun hne => absurd hempty hne
  · exact fun _ => .inr ⟨w, hw, by rw [set_self]; nofun⟩

theorem awake_finishJob (hw : w < n) (h : p.finishJob w = some q) : Awake n pending q := by
  obtain ⟨job, -, rfl⟩ := finishJob_cases h
  exact fun _ => .inr ⟨w, hw, by rw [set_self]; nofun⟩

theorem awake_wake (hw : w < n) (h : p.wake w = some q) : Awake n pending q := by
  obtain ⟨-, rfl⟩ := wake_cases h
  exact fun _ => .inr ⟨w, hw, by rw [set_self]; nofun⟩

/-- After a `notify_one` a worker is woken up, or none was blocked. -/
theorem awake_notifyOne (hn : 0 < n) {target : Option Nat} (h : p.notifyOne n target = some q) :
    Awake n pending q := by
  rcases notifyOne_cases h with ⟨w, hw, -, rfl⟩ | ⟨hno, rfl⟩
  · exact fun _ => .inr ⟨w, hw, by rw [set_self]; nofun⟩
  · exact fun _ => .inr ⟨0, hn, hno 0 hn⟩

end Pool

/-! ## The pool and its callers -/

variable {ι : Type}

/-- A pool, the callers that are between the push and the `notify_one` of `add_job`, the jobs pushed so
far, and the jobs taken so far, each with the worker that took it. -/
structure PoolState (ι : Type) where
  pool : Pool ι
  notifying : Nat → Bool
  pushed : List ι
  taken : List (Nat × ι)

/-- `addJob c job` is the push of caller `c` and `notify c target` its `notify_one`; the other actions are
those of a worker. -/
inductive PoolAction (ι : Type)
  | addJob (c : Nat) (job : ι)
  | notify (c : Nat) (target : Option Nat)
  | lock (w : Nat)
  | wake (w : Nat)
  | finish (w : Nat)

/-- The job that worker `w` has just taken, if the section under the lock was not the one that blocks. -/
def takenBy (w : Nat) (p : Pool ι) : List (Nat × ι) :=
  match p.workers w with
  | .running job => [(w, job)]
  | .ready | .blocked | .woken => []

def poolSystem (ι : Type) (numThreads : Nat) : System (PoolState ι) (PoolAction ι) where
  init := { pool := .empty, notifying := fun _ => false, pushed := [], taken := [] }
  next
    | .addJob c job, s =>
      if s.notifying c then none
      else some { s with
        pool := s.pool.push job
        notifying := Function.update s.notifying c true
        pushed := s.pushed ++ [job] }
    | .notify c target, s =>
      if s.notifying c then
        (s.pool.notifyOne numThreads target).map fun pool =>
          { s with pool, notifying := Function.update s.notifying c false }
      else none
    | .lock w, s =>
      if w < numThreads then
        (s.pool.lockSection w).map fun pool => { s with pool, taken := s.taken ++ takenBy w pool }
      else none
    | .wake w, s => if w < numThreads then (s.pool.wake w).map fun pool => { s with pool } else none
    | .finish w, s => if w < numThreads then (s.pool.finishJob w).map fun pool => { s with pool } else none

/-- The jobs that were pushed are those taken and those in the queue, in this order. -/
structure PoolInv (n : Nat) (s : PoolState ι) : Prop where
  order : s.taken.map Prod.snd ++ s.pool.eventQueue = s.pushed
  awake : s.pool.Awake n (∃ c, s.notifying c = true)

variable {n : Nat} {s t : PoolState ι}

theorem poolInv_step (hn : 0 < n) (h : PoolInv n s) {a : PoolAction ι}
    (hs : (poolSystem ι n).next a s = some t) : PoolInv n t := by
  cases a with
  | addJob c job =>
    simp only [poolSystem] at hs
    split at hs
    · cases hs
    · obtain rfl := Option.some.inj hs
      refine ⟨?_, Pool.awake_push job ⟨c, Function.update_self _ _ _⟩⟩
      rw [← h.order, Pool.push, List.append_assoc]
  | notify c target =>
    simp only [poolSystem] at hs
    split at hs
    · obtain ⟨q, hq, rfl⟩ := Option.map_eq_some_iff.mp hs
      refine ⟨?_, Pool.awake_notifyOne hn hq⟩
      rcases Pool.notifyOne_cases hq with ⟨w, -, -, rfl⟩ | ⟨-, rfl⟩ <;> exact h.order
    · cases hs
  | lock w =>
    simp only [poolSystem] at hs
    split at hs
    · next hw =>
      obtain ⟨q, hq, rfl⟩ := Option.map_eq_some_iff.mp hs
      refine ⟨?_, .lockSection hw hq⟩
      have horder := h.order
      rcases (Pool.lockSection_cases hq).2 with ⟨hempty, rfl⟩ | ⟨job, rest, hqueue, rfl⟩
      · simpa [takenBy] using horder
      · rw [hqueue] at horder
        simpa [takenBy] using horder
    · cases hs
  | wake w =>
    simp only [poolSystem] at hs
    split at hs
    · next hw =>
      obtain ⟨q, hq, rfl⟩ := Option.map_eq_some_iff.mp hs
      refine ⟨?_, Pool.awake_wake hw hq⟩
      obtain ⟨-, rfl⟩ := Pool.wake_cases hq
      exact h.order
    · cases hs
  | finish w =>
    simp only [poolSystem] at hs
    split at hs
    · next hw =>
      obtain ⟨q, hq, rfl⟩ := Option.map_eq_some_iff.mp hs
      refine ⟨?_, Pool.awake_finishJob hw hq⟩
      obtain ⟨job, -, rfl⟩ := Pool.finishJob_cases hq
      exact h.order
    · cases hs

theorem poolInv_reach (hn : 0 < n) (h : Reach (poolSystem ι n) s) : PoolInv n s :=
  h.invariant ⟨rfl, Pool.awake_empty⟩ fun _ hinv _ hs => poolInv_step hn hinv hs

/-! ## The pool serves its jobs -/

/-- An action that a live pool is sure to take: a caller's `notify_one`, a section under the lock of a
worker that is not blocked, or the end of a job. Wake-ups without cause and new callers are not. -/
def PoolAction.Productive : PoolAction ι → Prop
  | .notify _ _ | .lock _ | .finish _ => True
  | .addJob _ _ | .wake _ => False

/-- While a job is in the queue, the pool can go on without a new caller and without a wake-up that has no
cause. -/
theorem PoolInv.can_go_on (h : PoolInv n s) (hqueue : s.pool.eventQueue ≠ []) :
    ∃ a : PoolAction ι, a.Productive ∧ ((poolSystem ι n).next a s).isSome := by
  rcases h.awake hqueue with ⟨c, hc⟩ | ⟨w, hw, hblocked⟩
  · obtain ⟨target, htarget⟩ := Pool.exists_notifyOne n s.pool
    refine ⟨.notify c target, trivial, ?_⟩
    simpa [poolSystem, hc] using htarget
  · have hlock (hpc : s.pool.workers w = .ready ∨ s.pool.workers w = .woken) :
        ((poolSystem ι n).next (.lock w) s).isSome := by
      simpa [poolSystem, hw] using Pool.lockSection_isSome hpc
    match hpc : s.pool.workers w with
    | .ready => exact ⟨.lock w, trivial, hlock (.inl hpc)⟩
    | .woken => exact ⟨.lock w, trivial, hlock (.inr hpc)⟩
    | .blocked => exact absurd hpc hblocked
    | .running job => exact ⟨.finish w, trivial, by simp [poolSystem, hw, Pool.finishJob, hpc]⟩

/-- In every reachable state of a pool with `n` workers: the jobs that were taken, each by one worker, and
those still in the queue are the jobs that were pushed, in that order; a worker that locks finds a job or
blocks, so that `front` and `pop` never meet an empty queue; and if there are jobs while all workers are
blocked, some caller of `add_job` has still to call `notify_one`. While there are jobs, the pool is not at
rest. -/
theorem threadpool_serves (hn : 0 < n) (hr : Reach (poolSystem ι n) s) :
    s.taken.map Prod.snd ++ s.pool.eventQueue = s.pushed ∧
    (∀ w, s.pool.workers w = .ready ∨ s.pool.workers w = .woken → (s.pool.lockSection w).isSome) ∧
    (s.pool.eventQueue ≠ [] → (∀ w < n, s.pool.workers w = .blocked) → ∃ c, s.notifying c = true) ∧
    (s.pool.eventQueue ≠ [] → ∃ a : PoolAction ι, a.Productive ∧ ((poolSystem ι n).next a s).isSome) := by
  have hinv := poolInv_reach hn hr
  refine ⟨hinv.order, fun w hpc => Pool.lockSection_isSome hpc, fun hqueue hblocked => ?_, hinv.can_go_on⟩
  rcases hinv.awake hqueue with hpending | ⟨w, hw, hawake⟩
  · exact hpending
  · exact absurd (hblocked w hw) hawake

/-- The one worker blocks, is woken up without cause and blocks again, and a caller has then pushed a job. -/
def asleep : List (PoolAction Nat) := [.lock 0, .wake 0, .lock 0, .addJob 5 10]

theorem threadpool_serves_asleep : ∃ s, Reach (poolSystem Nat 1) s ∧ s.pool.eventQueue = [10] ∧
    (∀ w < 1, s.pool.workers w = .blocked) ∧ ∃ c, s.notifying c = true := by
  have hrun : (exec (poolSystem Nat 1) asleep (poolSystem Nat 1).init).isSome := by decide
  have hend : ∀ u ∈ exec (poolSystem Nat 1) asleep (poolSystem Nat 1).init,
      u.pool.eventQueue = [10] ∧ ∀ w < 1, u.pool.workers w = .blocked := by decide
  obtain ⟨u, hu⟩ := Option.isSome_iff_exists.mp hrun
  obtain ⟨hqueue, hblocked⟩ := hend u hu
  have hreach := reach_exec asleep .init hu
  have hserves := threadpool_serves (by decide) hreach
  exact ⟨u, hreach, hqueue, hblocked, hserves.2.2.1 (by rw [hqueue]; nofun) hblocked⟩

end AdvancedOS.Store
