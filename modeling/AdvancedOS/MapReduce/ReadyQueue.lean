import AdvancedOS.MapReduce.Roster

/-!
# The workers that wait for a job

A worker that has not been dropped is in `ready_queue` once, or has one job outstanding, or has just
been popped for one (`State.Pooled`). A step takes a worker from one of these places to the next
(`places_move`); only the error of a job takes it out of its place and puts it nowhere, and so does
a worker that is listed twice start in two places. `no_worker_lost` says that there is nothing else,
and `worker_lost` has a run for each.
-/

namespace AdvancedOS.MapReduce

open Lts

variable {Sh : Type} {spec : Spec Sh} {s t : State Sh} {a : Action} {ip : Str}

/-! ## Places -/

/-- How often the worker is in `ready_queue`. -/
def State.queued (s : State Sh) (ip : Str) : Nat := s.master.readyQueue.count ip

/-- How many jobs of the worker are outstanding. -/
def State.outstanding (s : State Sh) (ip : Str) : Nat := (s.calls.map Call.workerIpAddr).count ip

/-- Every worker in `worker_ips` is in `ready_queue` exactly once, with no outstanding job, or not
there, with exactly one outstanding job. Nothing is said about the worker of a dispatch between its
pop and its send. -/
def State.Pooled (s : State Sh) : Prop :=
  ∀ ip ∈ s.master.workerIps, s.run.popped ≠ some ip →
    s.queued ip = 1 ∧ s.outstanding ip = 0 ∨ s.queued ip = 0 ∧ s.outstanding ip = 1

def State.held (s : State Sh) (ip : Str) : Nat := if s.run.popped = some ip then 1 else 0

def State.places (s : State Sh) (ip : Str) : Nat := s.queued ip + s.outstanding ip + s.held ip

instance (s : State Sh) : Decidable s.Pooled :=
  inferInstanceAs (Decidable (∀ ip ∈ s.master.workerIps, _))

theorem outstanding_erase (ip : Str) {calls : List (Call Sh)} {k : Nat} {c : Call Sh} (h : calls[k]? = some c) :
    ((calls.eraseIdx k).map Call.workerIpAddr).count ip + (if c.workerIpAddr = ip then 1 else 0) =
      (calls.map Call.workerIpAddr).count ip := by
  obtain ⟨hk, rfl⟩ := List.getElem?_eq_some_iff.mp h
  have hperm := ((List.getElem_cons_eraseIdx_perm hk).map Call.workerIpAddr).count_eq ip
  rw [List.map_cons, List.count_cons] at hperm
  simpa using hperm

/-- A step that takes call number `k` and puts its worker into the queue. -/
theorem places_requeue {k : Nat} {c : Call Sh} (hcall : s.calls[k]? = some c) (hrun : t.run = s.run)
    (hqueue : t.master.readyQueue = s.master.readyQueue ++ [c.workerIpAddr])
    (hcalls : t.calls = s.calls.eraseIdx k) : t.places ip = s.places ip := by
  have herase := outstanding_erase ip hcall
  simp only [State.places, State.queued, State.outstanding, State.held, hrun, hqueue, hcalls,
    List.count_append, List.count_singleton, beq_iff_eq]
  omega

/-- A step that takes call number `k`, and leaves its worker out. -/
theorem places_forget {k : Nat} {c : Call Sh} (hcall : s.calls[k]? = some c) (hrun : t.run = s.run)
    (hqueue : t.master.readyQueue = s.master.readyQueue) (hcalls : t.calls = s.calls.eraseIdx k) :
    t.places ip + (if c.workerIpAddr = ip then 1 else 0) = s.places ip := by
  have herase := outstanding_erase ip hcall
  simp only [State.places, State.queued, State.outstanding, State.held, hrun, hqueue, hcalls]
  omega

theorem places_send {ph : Phase} {i : Nat} {x : Str} {job : Job Sh} (hrun : s.run = .send ph i x)
    (hrun' : t.run.popped = none) (hqueue : t.master.readyQueue = s.master.readyQueue)
    (hcalls : t.calls = s.calls ++ [⟨x, job, none⟩]) : t.places ip = s.places ip := by
  have hheld : s.held ip = if x = ip then 1 else 0 := by simp [State.held, hrun, RunPc.popped]
  have hheld' : t.held ip = 0 := by rw [State.held, hrun']; rfl
  have hcount : t.outstanding ip = s.outstanding ip + if x = ip then 1 else 0 := by
    simp [State.outstanding, hcalls, List.count_append, List.count_singleton]
  rw [State.places, State.places, hheld, hheld', hcount, State.queued, hqueue, State.queued]
  omega

theorem places_pop {ph : Phase} {i : Nat} {x : Str} {rest : List Str} (hrun : s.run = .dispatch ph i)
    (hqueue : s.master.readyQueue = x :: rest) (hip : ip ∉ s.master.droppedWorkerIps) :
    (s.pop ph i x rest).places ip = s.places ip := by
  have hcount : s.queued ip = rest.count ip + if x = ip then 1 else 0 := by
    rw [State.queued, hqueue, List.count_cons]
    simp
  have hheld : s.held ip = 0 := by rw [State.held, hrun]; rfl
  have hheld' : (s.pop ph i x rest).held ip = if x = ip then 1 else 0 := by
    by_cases hx : x ∈ s.master.droppedWorkerIps
    · have hne : x ≠ ip := fun h => hip (h ▸ hx)
      simp [State.held, State.pop, hx, RunPc.popped, hne]
    · simp [State.held, State.pop, hx, RunPc.popped]
  have hqueue' : (s.pop ph i x rest).queued ip = rest.count ip := rfl
  have hcalls : (s.pop ph i x rest).outstanding ip = s.outstanding ip := rfl
  rw [State.places, State.places, hqueue', hcalls, hheld', hcount, hheld]
  omega

/-! ## Steps and runs -/

/-- No error of a job is consumed for a worker that has not been dropped. -/
def Answered (a : Action) (s : State Sh) : Prop :=
  match a with
  | .poll k => ∀ c ∈ s.calls[k]?, c.status = some false → ¬ s.Live c.workerIpAddr
  | _ => True

instance (a : Action) (s : State Sh) : Decidable (Answered a s) :=
  match a with
  | .poll k => inferInstanceAs (Decidable (∀ c ∈ s.calls[k]?, _))
  | .pong _ _ | .run _ | .mkdirFails | .resume | .monitor | .respond _ _ => .isTrue trivial

/-- A worker that is still there has been there before the step. -/
theorem live_of_move (hmove : Move s a t) (h : t.Live ip) : s.Live ip := by
  cases hmove with
  | sendMap _ hclient _ | acceptMap _ _ _ hclient | acceptReduce _ _ _ hclient =>
    exact (live_update hclient rfl).mp h
  | dropMap _ _ _ _ _ | dropReduce _ _ _ _ _ => exact (isSome_update_none h).2
  | _ => exact h

theorem places_move (hg : Grounded spec s) (hmove : Move s a t) (hok : Answered a s) (hlive : t.Live ip) :
    t.places ip = s.places ip := by
  have hbefore := live_of_move hmove hlive
  cases hmove with
  | pop hrun _ hqueue => exact places_pop hrun hqueue (hg.notDropped ip hbefore)
  | sendMap hrun _ _ | sendReduce hrun _ _ => exact places_send hrun rfl rfl rfl
  | acceptMap _ hcall _ _ | acceptReduce _ hcall _ _ | rejoin _ hcall _ _ =>
    exact places_requeue hcall rfl rfl rfl
  | @discard k x job _ hcall hx =>
    have hne : x ≠ ip := fun h => hx (h ▸ hg.inPool ip hbefore)
    have hforget : (s.cleanup k s.master [] []).places ip + (if x = ip then 1 else 0) = s.places ip :=
      places_forget hcall rfl rfl rfl
    rwa [if_neg hne] at hforget
  | @errorMap k x shard _ hcall =>
    have hne : x ≠ ip := fun h => hok _ hcall rfl (h ▸ hbefore)
    have hforget : (s.cleanup k { s.master with numDroppedMapJobs := s.master.numDroppedMapJobs + 1 } [] []).places ip +
        (if x = ip then 1 else 0) = s.places ip := places_forget hcall rfl rfl rfl
    rwa [if_neg hne] at hforget
  | @errorReduce k x partition files _ hcall =>
    have hne : x ≠ ip := fun h => hok _ hcall rfl (h ▸ hbefore)
    have hforget : (s.cleanup k
        { s.master with numDroppedReduceJobs := s.master.numDroppedReduceJobs + 1 } [] []).places ip +
        (if x = ip then 1 else 0) = s.places ip := places_forget hcall rfl rfl rfl
    rwa [if_neg hne] at hforget
  | @respond k ok x job hcall =>
    have hcalls : (s.calls.set k ⟨x, job, some ok⟩).map Call.workerIpAddr = s.calls.map Call.workerIpAddr := by
      obtain ⟨hk, heq⟩ := List.getElem?_eq_some_iff.mp hcall
      refine List.ext_getElem (by simp) fun i hi hi' => ?_
      simp only [List.getElem_map, List.getElem_set]
      split
      · next h => subst h; rw [heq]
      · rfl
    simp only [State.places, State.queued, State.outstanding, State.held, hcalls]
  | abort | resume _ _ | monitor _ | pong _ _ _ | late _ _ _ _ _ | dropMap _ _ _ _ _ | dropReduce _ _ _ _ _ => rfl
  | mkdir hrun | setInitial hrun | resetDropped hrun | setFlag hrun | setTrigger hrun | check hrun | stop hrun =>
    simp only [State.places, State.queued, State.outstanding, State.held, hrun]; rfl
  | awaitInitial hrun _ | awaitFlag hrun _ | awaitTrigger hrun _ | endLoop hrun _ | requeueMap hrun _
  | requeueReduce hrun _ | joinReduce hrun _ | joinMonitor hrun _ =>
    simp only [State.places, State.queued, State.outstanding, State.held, hrun]; rfl
  | finishMap hrun _ _ | againMap hrun _ _ | finishReduce hrun _ _ | againReduce hrun _ _
  | startReduce hrun _ _ _ =>
    simp only [State.places, State.queued, State.outstanding, State.held, hrun]; rfl

theorem places_one (hnodup : spec.workers.Nodup) (h : ReachVia (system spec) Answered s) (hlive : s.Live ip) :
    s.places ip = 1 := by
  revert hlive
  refine h.invariant (I := fun s : State Sh => s.Live ip → s.places ip = 1) ?_ ?_
  · intro hlive
    have hmem := (roster_init spec).mem_of_live (grounded_init spec) hlive
    have hcount : (system spec).init.queued ip = 1 := List.count_eq_one_of_mem hnodup hmem
    rw [State.places, hcount]
    rfl
  · intro s t a hr hs hok hnext hlive
    have hmove := move_of_next hnext
    rw [places_move (grounded_reach hr) hmove hok hlive]
    exact hs (live_of_move hmove hlive)

theorem pooled_of_reach (hnodup : spec.workers.Nodup) (h : ReachVia (system spec) Answered s) : s.Pooled := by
  intro ip hip hpopped
  have hone := places_one hnodup h ((roster_reach h).present hnodup ip hip)
  rw [State.places, State.held, if_neg hpopped] at hone
  omega

/-- The worker whose job failed is nowhere. -/
theorem not_pooled_of_error {k : Nat} {c : Call Sh} (hlive : s.Live c.workerIpAddr) (hg : Grounded spec s)
    (hone : s.places c.workerIpAddr = 1) (hcall : s.calls[k]? = some c) (herror : c.status = some false)
    (h : s.next (.poll k) = some t) : ¬ t.Pooled := by
  unfold State.next State.pollStep at h
  split at h
  · cases h
  · obtain ⟨-, h⟩ := Option.ite_none_right_eq_some.mp h
    rw [hcall, Option.bind_some, herror] at h
    obtain rfl := Option.some.inj h
    have hqueue : (s.consume k c false).master.readyQueue = s.master.readyQueue := by
      obtain ⟨ip, job, status⟩ := c
      cases job <;> rfl
    have hips : (s.consume k c false).master.workerIps = s.master.workerIps := by
      obtain ⟨ip, job, status⟩ := c
      cases job <;> rfl
    have hforget : (s.consume k c false).places c.workerIpAddr +
        (if c.workerIpAddr = c.workerIpAddr then 1 else 0) = s.places c.workerIpAddr :=
      places_forget hcall rfl hqueue rfl
    rw [if_pos rfl, hone, State.places] at hforget
    intro hpooled
    have hplace := hpooled c.workerIpAddr (hips ▸ hg.inPool _ hlive) fun hpopped => by
      rw [State.held, if_pos hpopped] at hforget
      omega
    omega

/-- The workers all keep their place in every run in which no error of a live worker is consumed, if and only
if no worker is listed twice; and of all steps that may follow, only those that are not `Answered`
take one from its place. -/
theorem no_worker_lost (spec : Spec Sh) :
    ((∀ s, ReachVia (system spec) Answered s → s.Pooled) ↔ spec.workers.Nodup) ∧
    (spec.workers.Nodup → ∀ s a t, ReachVia (system spec) Answered s → s.next a = some t →
      (t.Pooled ↔ Answered a s)) := by
  refine ⟨⟨fun hall => ?_, fun hnodup s h => pooled_of_reach hnodup h⟩, ?_⟩
  · -- at the start every worker is in the queue as often as it is listed
    refine List.nodup_iff_count_le_one.mpr fun ip => ?_
    by_cases hip : ip ∈ spec.workers
    · have hstart := hall _ .init ip hip fun h => by cases h
      have hqueue : (system spec).init.queued ip = spec.workers.count ip := rfl
      omega
    · rw [List.count_eq_zero.mpr hip]
      exact Nat.zero_le 1
  · intro hnodup s a t h hnext
    refine ⟨fun hpooled => ?_, fun hok => pooled_of_reach hnodup (h.step hok hnext)⟩
    cases a with
    | poll k =>
      intro c hcall herror hlive
      exact not_pooled_of_error hlive (grounded_reach h) (places_one hnodup h hlive) hcall herror hnext hpooled
    | _ => trivial

/-- Worker 2 is dropped, and its job fails afterwards; worker 1 is back in the queue. -/
theorem no_worker_lost_of_drop : ∃ s : State Nat, ¬ s.Live [2] ∧ s.calls = [] ∧ s.queued [1] = 1 := by
  obtain ⟨s, hs, hdead, hcalls, hips, hrun⟩ :
      ∃ s ∈ execVia (system (smallSpec 1 [0, 1])) Answered
        (startUp 2 ++ List.replicate 4 (Action.run []) ++ [Action.monitor, .monitor, .monitor, .pong 1 false,
          .respond 0 true, .respond 1 false, .poll 1, .poll 0]) (system (smallSpec 1 [0, 1])).init,
      ¬ s.Live [2] ∧ s.calls = [] ∧ [1] ∈ s.master.workerIps ∧ s.run.popped = none := by
    decide +kernel
  have hpooled := (no_worker_lost (smallSpec 1 [0, 1])).1.mpr (by decide) s (reachVia_execVia _ .init hs)
  have hplace := hpooled [1] hips (by rw [hrun]; decide)
  have hnone : s.outstanding [1] = 0 := by rw [State.outstanding, hcalls]; rfl
  exact ⟨s, hdead, hcalls, by omega⟩

/-- A job that times out takes the only worker, which is still there, out of the pool: `run` waits with one
more shard to send. And a worker that is listed twice is in the queue twice. -/
theorem worker_lost :
    (∃ s : State Nat, Reach (system (smallSpec 0 [0, 1])) s ∧ s.Live [1] ∧ [1] ∈ s.master.workerIps ∧
      s.run = .dispatch .map 1 ∧ s.master.numJobs .map = 2 ∧ s.queued [1] = 0 ∧ s.outstanding [1] = 0 ∧
      ¬ s.Pooled) ∧
    (∃ spec : Spec Nat, (system spec).init.queued [1] = 2 ∧ ¬ (system spec).init.Pooled) := by
  refine ⟨?_, { smallSpec 0 [0] with workers := [[1], [1]], workers_ne := by decide }, ?_⟩
  · obtain ⟨s, hs, hlost⟩ :
        ∃ s ∈ exec (system (smallSpec 0 [0, 1]))
          (startUp 1 ++ [Action.run [], .run [], .respond 0 false, .poll 0]) (system (smallSpec 0 [0, 1])).init,
        s.Live [1] ∧ [1] ∈ s.master.workerIps ∧ s.run = .dispatch .map 1 ∧ s.master.numJobs .map = 2 ∧
          s.queued [1] = 0 ∧ s.outstanding [1] = 0 ∧ ¬ s.Pooled := by
      decide +kernel
    exact ⟨s, reach_exec _ .init hs, hlost⟩
  · decide +kernel

end AdvancedOS.MapReduce
