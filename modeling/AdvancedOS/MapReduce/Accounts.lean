import AdvancedOS.Lib.Potential
import AdvancedOS.MapReduce.Roster

/-!
# The counters of completed jobs

`num_map_msgs - num_dropped_map_jobs` is meant to be the number of map jobs that the workers still
there have completed, and likewise for the reduce jobs. `slack_next` says by how much a step moves
the two sides apart.

* An error of a job takes one off the left side, though the job was never counted.
* The reduce branch of `handle_worker_failure` leaves the map jobs of the worker counted.
* No other step moves them apart.

`counters_balanced` draws the conclusion for whole runs; `counters_drift` has a run for each of the
two.
-/

namespace AdvancedOS.MapReduce

open Lts Potential

variable {Sh : Type} {spec : Spec Sh} {s t : State Sh} {m m' : Master Sh} {a : Action} {ph : Phase}

/-! ## The two sides -/

def WorkerClient.completedJobs (client : WorkerClient Sh) : Phase → Int
  | .map => client.completedMapJobs
  | .reduce => client.completedReduceJobs

/-- The jobs that a worker has completed; one that has been dropped has no client and counts for
nothing. -/
def Master.completedJobs (m : Master Sh) (ph : Phase) (ip : Str) : Int :=
  (m.ipAddr2worker ip).elim 0 fun client => client.completedJobs ph

/-- The left sides of the tests in `poll_workers` and `schedule_monitor`. -/
def Master.countedJobs (m : Master Sh) : Phase → Int
  | .map => m.numMapMsgs - m.numDroppedMapJobs
  | .reduce => m.numReduceMsgs - m.numDroppedReduceJobs

/-- As many jobs are counted as the workers have completed. -/
def Master.Balanced (spec : Spec Sh) (m : Master Sh) : Prop :=
  ∀ ph, m.countedJobs ph = ∑ ip ∈ spec.workers.toFinset, m.completedJobs ph ip

def Master.slack (spec : Spec Sh) (m : Master Sh) (ph : Phase) : Int :=
  m.countedJobs ph - ∑ ip ∈ spec.workers.toFinset, m.completedJobs ph ip

theorem balanced_iff_slack : m.Balanced spec ↔ ∀ ph, m.slack spec ph = 0 :=
  forall_congr' fun _ => Int.sub_eq_zero.symm

instance (spec : Spec Sh) (m : Master Sh) : Decidable (m.Balanced spec) :=
  decidable_of_iff (m.countedJobs .map = ∑ ip ∈ spec.workers.toFinset, m.completedJobs .map ip ∧
      m.countedJobs .reduce = ∑ ip ∈ spec.workers.toFinset, m.completedJobs .reduce ip)
    ⟨fun h ph => by cases ph; exacts [h.1, h.2], fun h => ⟨h .map, h .reduce⟩⟩

/-- The entry of one worker is replaced. -/
theorem sum_completedJobs (ph : Phase) {ip : Str} {entry : Option (WorkerClient Sh)} (hip : ip ∈ spec.workers)
    (hclients : m'.ipAddr2worker = Function.update m.ipAddr2worker ip entry) :
    ∑ x ∈ spec.workers.toFinset, m'.completedJobs ph x + m.completedJobs ph ip =
      ∑ x ∈ spec.workers.toFinset, m.completedJobs ph x +
        entry.elim 0 fun client => client.completedJobs ph := by
  have hentry : m'.completedJobs ph ip = entry.elim 0 fun client => client.completedJobs ph := by
    rw [Master.completedJobs, hclients, Function.update_self]
  rw [← hentry]
  refine sum_change (List.mem_toFinset.mpr hip) fun x hx => ?_
  rw [Master.completedJobs, hclients, Function.update_of_ne hx, Master.completedJobs]

theorem slack_update (m' : Master Sh) {ip : Str} {client : WorkerClient Sh} {entry : Option (WorkerClient Sh)}
    (hip : ip ∈ spec.workers) (hclient : m.ipAddr2worker ip = some client)
    (hclients : m'.ipAddr2worker = Function.update m.ipAddr2worker ip entry) :
    m'.slack spec ph = m.slack spec ph + (m'.countedJobs ph - m.countedJobs ph) -
      ((entry.elim 0 fun client => client.completedJobs ph) - client.completedJobs ph) := by
  have hsum := sum_completedJobs ph hip hclients
  have hbefore : m.completedJobs ph ip = client.completedJobs ph := by
    rw [Master.completedJobs, hclient, Option.elim_some]
  rw [hbefore] at hsum
  unfold Master.slack
  omega

/-! ## What a step does to them -/

def Job.phase : Job Sh → Phase
  | .map _ => .map
  | .reduce _ _ => .reduce

/-- What `a` adds to the left side and not to the right side. -/
def drift (ph : Phase) (a : Action) (s : State Sh) : Int :=
  match a with
  | .poll k => s.calls[k]?.elim 0 fun c => if c.status = some false ∧ c.job.phase = ph then -1 else 0
  | .pong k false =>
    s.pings[k]?.elim 0 fun ip =>
      if ph = .map ∧ s.master.mapComplete = true then s.master.completedJobs .map ip else 0
  | _ => 0

theorem slack_consume (hr : Roster spec s) {call : Call Sh} {ok : Bool} :
    (s.master.consume call ok).slack spec ph =
      s.master.slack spec ph + if ok = false ∧ call.job.phase = ph then -1 else 0 := by
  obtain ⟨ip, job, status⟩ := call
  cases ok with
  | false =>
    have hcounted : (s.master.consume ⟨ip, job, status⟩ false).countedJobs ph =
        s.master.countedJobs ph + if job.phase = ph then -1 else 0 := by
      cases job <;> cases ph <;>
        simp [Master.consume, Master.countedJobs, Job.phase, sub_add_eq_sub_sub, Int.sub_eq_add_neg]
    have hcompleted : (s.master.consume ⟨ip, job, status⟩ false).completedJobs = s.master.completedJobs := by
      cases job <;> rfl
    rw [Master.slack, hcounted, hcompleted, Master.slack]
    simp only [true_and]
    omega
  | true =>
    by_cases hip : ip ∈ s.master.workerIps
    · have hlisted := hr.listed ip hip
      cases hclient : s.master.ipAddr2worker ip with
      | none => simp [Master.consume, hip, hclient, Master.slack, Master.countedJobs, Master.completedJobs]
      | some client =>
        cases job with
        | map shard =>
          simp only [Master.consume, hip, hclient, if_true]
          rw [slack_update (s.master.acceptMap ip client) hlisted hclient rfl]
          cases ph <;> simp [Master.countedJobs, Master.acceptMap, WorkerClient.completedJobs]
        | reduce partition files =>
          simp only [Master.consume, hip, hclient, if_true]
          rw [slack_update (s.master.acceptReduce ip client partition) hlisted hclient rfl]
          cases ph <;> simp [Master.countedJobs, Master.acceptReduce, WorkerClient.completedJobs]
    · simp [Master.consume, hip]

theorem slack_dropMap (hr : Roster spec s) (hg : Grounded spec s) (hmap : s.master.mapComplete = false)
    {ip : Str} {client : WorkerClient Sh} (hclient : s.master.ipAddr2worker ip = some client) :
    (s.master.dropMap ip client).1.slack spec ph = s.master.slack spec ph := by
  have hip := hr.mem_of_live hg (Option.isSome_iff_exists.mpr ⟨client, hclient⟩)
  have hnone := hg.noCompleted hmap ip client hclient
  rw [slack_update ((s.master.dropMap ip client).1) hip hclient rfl]
  cases ph with
  | map => simp [Master.countedJobs, Master.dropMap, Master.removeWorkerIp, WorkerClient.completedJobs]
  | reduce =>
    simp [Master.countedJobs, Master.dropMap, Master.removeWorkerIp, WorkerClient.completedJobs, hnone]

theorem slack_dropReduce (hr : Roster spec s) (hg : Grounded spec s) {ip : Str} {client : WorkerClient Sh}
    (hclient : s.master.ipAddr2worker ip = some client) :
    (s.master.dropReduce ip client).1.slack spec ph =
      s.master.slack spec ph + if ph = .map then s.master.completedJobs .map ip else 0 := by
  have hip := hr.mem_of_live hg (Option.isSome_iff_exists.mpr ⟨client, hclient⟩)
  rw [slack_update ((s.master.dropReduce ip client).1) hip hclient rfl]
  cases ph with
  | map =>
    simp [Master.countedJobs, Master.completedJobs, hclient, Master.dropReduce, Master.removeWorkerIp,
      WorkerClient.completedJobs]
  | reduce =>
    simp [Master.countedJobs, Master.dropReduce, Master.removeWorkerIp, WorkerClient.completedJobs]

/-- Steps of `run` and `monitor`, and answers that come in, count nothing. -/
theorem slack_other (ph : Phase) (hr : Roster spec s) (hg : Grounded spec s) (hmove : Move s a t)
    (hpoll : ∀ k, a ≠ .poll k) (hpong : ∀ k, a ≠ .pong k false) :
    t.master.slack spec ph = s.master.slack spec ph := by
  cases hmove with
  | acceptMap _ _ _ _ | acceptReduce _ _ _ _ | rejoin _ _ _ _ => exact absurd rfl (hpoll _)
  | discard _ _ _ | errorMap _ _ | errorReduce _ _ => exact absurd rfl (hpoll _)
  | late _ _ _ _ _ | dropMap _ _ _ _ _ | dropReduce _ _ _ _ _ => exact absurd rfl (hpong _)
  | @sendMap _ i ip client shard _ hclient _ =>
    have hip := hr.mem_of_live hg (Option.isSome_iff_exists.mpr ⟨client, hclient⟩)
    rw [slack_update ((s.sendMapperJob i ip client shard).master) hip hclient rfl]
    cases ph <;> simp [State.sendMapperJob, Master.countedJobs, WorkerClient.completedJobs]
  | _ => cases ph <;> rfl

theorem slack_failed {k : Nat} (hr : Roster spec s) (hg : Grounded spec s) (h : s.next (.pong k false) = some t) :
    t.master.slack spec ph = s.master.slack spec ph + drift ph (.pong k false) s := by
  obtain ⟨i, ip, -, hping, -, hstep⟩ := failed_ping h
  simp only [drift, hping, Option.elim_some]
  cases hclient : s.master.ipAddr2worker ip with
  | none =>
    have hnone : s.master.completedJobs .map ip = 0 := by rw [Master.completedJobs, hclient, Option.elim_none]
    rw [hnone, ite_self, Int.add_zero]
    rw [Master.handleWorkerFailure, hclient] at hstep
    rcases hstep with ⟨-, rfl⟩ | ⟨m, removed, hsome, rfl⟩
    · rfl
    · split at hsome
      · obtain ⟨rfl, -⟩ := Prod.mk.inj (Option.some.inj hsome)
        rfl
      · cases hsome
  | some client =>
    rw [handleWorkerFailure_of_client hclient] at hstep
    rcases hstep with ⟨hnone, -⟩ | ⟨m, removed, hsome, rfl⟩
    · cases hnone
    · cases hmap : s.master.mapComplete with
      | false =>
        rw [if_pos hmap] at hsome
        obtain rfl := (congrArg Prod.fst (Option.some.inj hsome)).symm
        rw [if_neg (fun h => by cases h.2), Int.add_zero]
        exact slack_dropMap hr hg hmap hclient
      | true =>
        rw [if_neg (by simp [hmap])] at hsome
        obtain rfl := (congrArg Prod.fst (Option.some.inj hsome)).symm
        simp only [and_true]
        exact slack_dropReduce hr hg hclient

theorem slack_next (hr : Roster spec s) (hg : Grounded spec s) (h : s.next a = some t) :
    t.master.slack spec ph = s.master.slack spec ph + drift ph a s := by
  have hmove := move_of_next h
  cases a with
  | run _ | mkdirFails | resume | monitor | respond _ _ =>
    have hother := slack_other ph hr hg hmove (fun _ h => by cases h) (fun _ h => by cases h)
    exact hother.trans (Int.add_zero _).symm
  | poll k =>
    unfold State.next State.pollStep at h
    split at h
    · cases h
    · obtain ⟨-, h⟩ := Option.ite_none_right_eq_some.mp h
      obtain ⟨call, hcall, h⟩ := Option.bind_eq_some_iff.mp h
      obtain ⟨ok, hstatus, rfl⟩ := Option.map_eq_some_iff.mp h
      simp only [drift, hcall, Option.elim_some, hstatus, Option.some.injEq]
      exact slack_consume hr
  | pong k ok =>
    cases ok with
    | true =>
      have hother := slack_other ph hr hg hmove (fun _ h => by cases h) (fun _ h => by cases h)
      exact hother.trans (Int.add_zero _).symm
    | false => exact slack_failed hr hg h

/-! ## Runs -/

/-- No error of a job is consumed, and after the map phase no worker is dropped that has completed a
map job. -/
def Counted (a : Action) (s : State Sh) : Prop :=
  match a with
  | .poll k => ∀ c ∈ s.calls[k]?, c.status ≠ some false
  | .pong k false => s.master.mapComplete = true → ∀ ip ∈ s.pings[k]?,
      ∀ client ∈ s.master.ipAddr2worker ip, client.completedMapJobs = 0
  | _ => True

instance (a : Action) (s : State Sh) : Decidable (Counted a s) :=
  match a with
  | .poll k => inferInstanceAs (Decidable (∀ c ∈ s.calls[k]?, _))
  | .pong k false => inferInstanceAs (Decidable (_ → ∀ ip ∈ s.pings[k]?, _))
  | .pong _ true | .run _ | .mkdirFails | .resume | .monitor | .respond _ _ => .isTrue trivial

theorem counted_iff_drift : Counted a s ↔ ∀ ph, drift ph a s = 0 := by
  cases a with
  | run _ | mkdirFails | resume | monitor | respond _ _ => exact iff_of_true trivial fun _ => rfl
  | poll k =>
    cases hcall : s.calls[k]? with
    | none => simp [Counted, drift, hcall]
    | some c =>
      simp only [Counted, drift, hcall, Option.mem_some_iff, forall_eq', Option.elim_some]
      constructor
      · intro hok ph
        rw [if_neg fun h => hok h.1]
      · intro hall herror
        have hphase := hall c.job.phase
        rw [if_pos ⟨herror, rfl⟩] at hphase
        cases hphase
  | pong k ok =>
    cases ok with
    | true => exact iff_of_true trivial fun _ => rfl
    | false =>
      cases hping : s.pings[k]? with
      | none => simp [Counted, drift, hping]
      | some ip =>
        simp only [Counted, drift, hping, Option.mem_some_iff, forall_eq', Option.elim_some]
        have hnone : (∀ client ∈ s.master.ipAddr2worker ip, client.completedMapJobs = 0) ↔
            s.master.completedJobs .map ip = 0 := by
          rw [Master.completedJobs]
          cases s.master.ipAddr2worker ip <;> simp [WorkerClient.completedJobs]
        rw [hnone]
        constructor
        · intro hok ph
          split
          · next hdone => exact hok hdone.2
          · rfl
        · intro hall hdone
          have hmap := hall .map
          rwa [if_pos ⟨rfl, hdone⟩] at hmap

theorem balanced_init (spec : Spec Sh) : (system spec).init.master.Balanced spec := by
  intro ph
  have hnone : ∀ ip, (Master.new spec).completedJobs ph ip = 0 := by
    intro ip
    simp only [Master.completedJobs, Master.new]
    split
    · cases ph <;> rfl
    · rfl
  have hcounted : (Master.new spec).countedJobs ph = 0 := by cases ph <;> rfl
  exact hcounted.trans (Finset.sum_eq_zero fun ip _ => hnone ip).symm

/-- As many jobs are counted as the workers that have not been dropped have completed; and of all steps that
may follow, only those that are not `Counted` change that. -/
theorem counters_balanced (h : ReachVia (system spec) Counted s) :
    s.master.Balanced spec ∧ ∀ a t, s.next a = some t → (t.master.Balanced spec ↔ Counted a s) := by
  have hstep : ∀ {s t : State Sh} {a : Action}, ReachVia (system spec) Counted s → s.master.Balanced spec →
      s.next a = some t → (t.master.Balanced spec ↔ Counted a s) := by
    intro s t a hr hs hnext
    rw [balanced_iff_slack] at hs ⊢
    rw [counted_iff_drift]
    refine forall_congr' fun ph => ?_
    rw [slack_next (roster_reach hr) (grounded_reach hr) hnext, hs ph, Int.zero_add]
  have hall : s.master.Balanced spec := by
    refine h.invariant (I := fun s : State Sh => s.master.Balanced spec) ?_ ?_
    · exact balanced_init spec
    · exact fun hr hs hok hnext => (hstep hr hs hnext).mpr hok
  exact ⟨hall, fun a t hnext => hstep h hall hnext⟩

/-- Two workers complete a shard each, and then the first one is dropped. -/
theorem counters_balanced_of_drop : ∃ s : State Nat, ¬ s.Live [1] ∧ s.master.numMapMsgs = 2 ∧
    s.master.Balanced (smallSpec 1 [0, 1]) := by
  obtain ⟨s, hs, hdead, hmsgs⟩ :
      ∃ s ∈ execVia (system (smallSpec 1 [0, 1])) Counted
        (startUp 2 ++ List.replicate 4 (Action.run []) ++ [Action.respond 0 true, .respond 1 true, .poll 0, .poll 0,
          .monitor, .monitor, .monitor, .pong 0 false]) (system (smallSpec 1 [0, 1])).init,
      ¬ s.Live [1] ∧ s.master.numMapMsgs = 2 := by
    decide +kernel
  exact ⟨s, hdead, hmsgs, (counters_balanced (reachVia_execVia _ .init hs)).1⟩

/-- The only worker answers its job with an error, and minus one job is counted. Or the worker that did
the only map job is dropped in the reduce phase, and its job is still counted. -/
theorem counters_drift :
    (∃ s : State Nat, Reach (system (smallSpec 0 [0])) s ∧ s.Live [1] ∧
      s.master.countedJobs .map = -1 ∧ ¬ s.master.Balanced (smallSpec 0 [0])) ∧
    (∃ s : State Nat, Reach (system (smallSpec 1 [0])) s ∧ s.master.mapComplete = true ∧
      s.master.countedJobs .map = 1 ∧ ¬ s.master.Balanced (smallSpec 1 [0])) := by
  refine ⟨?_, ?_⟩
  · obtain ⟨s, hs, hdrift⟩ :
        ∃ s ∈ exec (system (smallSpec 0 [0]))
          (startUp 1 ++ [Action.run [], .run [], .respond 0 false, .poll 0]) (system (smallSpec 0 [0])).init,
        s.Live [1] ∧ s.master.countedJobs .map = -1 ∧ ¬ s.master.Balanced (smallSpec 0 [0]) := by
      decide +kernel
    exact ⟨s, reach_exec _ .init hs, hdrift⟩
  · obtain ⟨s, hs, hdrift⟩ :
        ∃ s ∈ exec (system (smallSpec 1 [0]))
          (startUp 2 ++ List.replicate 4 (Action.run []) ++ [Action.respond 0 true, .poll 0, .run [], .run [],
            .monitor, .run [], .run [], .run [], .resume, .run [0], .monitor, .monitor, .pong 0 false])
          (system (smallSpec 1 [0])).init,
        s.master.mapComplete = true ∧ s.master.countedJobs .map = 1 ∧
          ¬ s.master.Balanced (smallSpec 1 [0]) := by
      decide +kernel
    exact ⟨s, reach_exec _ .init hs, hdrift⟩

end AdvancedOS.MapReduce
