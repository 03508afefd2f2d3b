import AdvancedOS.MapReduce.Going

/-!
# The master goes on

In a run that is in time, `run` and `poll_workers` do a bounded number of steps and never wait for each other;
`run` may wait for a worker, or for the next round of `monitor`.

* `work_less`: every step of `run` and `poll_workers`, and every answer, leaves less to do.
* `goes_on`: until `run` returns, one of the two has a next step, or a call has no answer, or `run` waits for
  `monitor`.
* `monitor_goes_on`: then `monitor` has a next step, and comes nearer to what `run` waits for.
-/

namespace AdvancedOS.MapReduce

open Lts Lists WorkPool

variable {Sh : Type} {spec : Spec Sh} {s t : State Sh} {a : Action} {k : Nat}

/-! ## What is left to do -/

/-- The steps that `run` has left at the end of a phase with `n` output files. -/
def Phase.rest (n : Nat) : Phase → Nat
  | .map => 4 * n + 13
  | .reduce => 3

/-- The steps that `run` has left. A job takes two of its own, and two more for its call. -/
def RunPc.work (n : Nat) (jobs : Phase → Nat) : RunPc → Nat
  | .mkdir => Phase.map.rest n + 4 * jobs .map + 11
  | .setInitial => Phase.map.rest n + 4 * jobs .map + 10
  | .awaitInitial => Phase.map.rest n + 4 * jobs .map + 9
  | .resetDropped => Phase.map.rest n + 4 * jobs .map + 8
  | .dispatch ph i => ph.rest n + 4 * (jobs ph - i) + 7
  | .send ph i _ => ph.rest n + 4 * (jobs ph - i) + 6
  | .setFlag ph => ph.rest n + 6
  | .awaitFlag ph => ph.rest n + 5
  | .setTrigger ph => ph.rest n + 4
  | .awaitTrigger ph => ph.rest n + 3
  | .check ph => ph.rest n + 2
  | .after ph => ph.rest n + 1
  | .join ph => ph.rest n
  | .stop => 2
  | .joinMonitor => 1
  | .returned => 0

def PollPc.work : PollPc → Nat
  | .next => 2
  | .wait _ => 1
  | .returned => 0

/-- The answer is to come, and then to be taken. -/
def Call.work (c : Call Sh) : Nat := if c.status.isSome then 1 else 2

/-- The steps that are left without those of `monitor`. -/
def State.work (n : Nat) (s : State Sh) : Nat :=
  s.run.work n s.master.numJobs + s.poll.work + (s.calls.map Call.work).sum

theorem sum_work_eraseIdx {calls : List (Call Sh)} {c : Call Sh} (h : calls[k]? = some c) :
    ((calls.eraseIdx k).map Call.work).sum + c.work = (calls.map Call.work).sum := by
  obtain ⟨before, after, hsplit, herase, -⟩ := exists_around h
  rw [herase, hsplit]
  simp only [List.map_append, List.map_cons, List.sum_append, List.sum_cons]
  omega

theorem sum_work_set {calls : List (Call Sh)} {c : Call Sh} (c' : Call Sh) (h : calls[k]? = some c) :
    ((calls.set k c').map Call.work).sum + c.work = (calls.map Call.work).sum + c'.work := by
  obtain ⟨before, after, hsplit, -, hset⟩ := exists_around h
  rw [hset, hsplit]
  simp only [List.map_append, List.map_cons, List.sum_append, List.sum_cons]
  omega

/-- A step of `run` that sends nothing. -/
theorem work_lt_of_run {n : Nat} (hrun : t.run.work n t.master.numJobs < s.run.work n s.master.numJobs)
    (hpoll : t.poll = s.poll := by rfl) (hcalls : t.calls = s.calls := by rfl) : t.work n < s.work n := by
  unfold State.work
  rw [hpoll, hcalls]
  omega

/-- `poll_workers` has taken an answer. -/
theorem work_cleanup {n : Nat} {m : Master Sh} {maps : List (Str × Sh)} {reduces : List (Str × Int)} {c : Call Sh}
    (hpoll : s.poll = .next) (hcall : s.calls[k]? = some c) (hjobs : m.numJobs = s.master.numJobs) :
    (s.cleanup k m maps reduces).work n < s.work n := by
  have hsum := sum_work_eraseIdx hcall
  have hpos : 0 < c.work := by unfold Call.work; split <;> decide
  have hpc : m.pollPc.work ≤ 2 := by
    unfold Master.pollPc
    split
    · exact Nat.le_succ 1
    · split <;> decide
  have hsame : ({ m with mapReduceFlag := m.mapReduceFlag && !m.handsOff } : Master Sh).numJobs = m.numJobs := by
    funext ph
    cases ph <;> rfl
  simp only [State.work, State.cleanup, hpoll, hsame, hjobs]
  show _ < _ + 2 + _
  omega

/-- Every step of `run` and `poll_workers`, and every answer, leaves less to do. -/
theorem work_less (hg : Going spec s) (hshards : spec.shards ≠ []) (hok : Timely a s) (hmove : Move s a t)
    (halive : t.aborted = false) (hnot : a.ofMonitor = false) :
    t.work spec.nOutputFiles < s.work spec.nOutputFiles := by
  have hcontrol := hg.orderly.control
  cases hmove with
  | abort => cases halive
  | mkdir hrun | setInitial hrun | awaitInitial hrun _ | resetDropped hrun =>
    refine work_lt_of_run ?_
    rw [hrun]
    simp [RunPc.work, Master.numJobs]
  | setFlag hrun | awaitFlag hrun _ | setTrigger hrun | awaitTrigger hrun _ | check hrun =>
    refine work_lt_of_run ?_
    rw [hrun]
    simp [RunPc.work]
  | finishMap hrun _ _ | finishReduce hrun _ _ | joinReduce hrun _ | stop hrun | joinMonitor hrun _ =>
    refine work_lt_of_run ?_
    rw [hrun]
    simp [RunPc.work, Phase.rest]
  | againMap hrun _ hcomplete =>
    rw [hrun] at hcontrol
    exact absurd (hcontrol.1.mapComplete.symm.trans hcomplete) (by decide)
  | againReduce hrun _ hcomplete =>
    rw [hrun] at hcontrol
    exact absurd (hcontrol.1.reduceComplete.symm.trans hcomplete) (by decide)
  | requeueMap _ hunfinished => exact absurd hg.orderly.unfinishedShards hunfinished
  | requeueReduce _ hunfinished => exact absurd hg.orderly.unfinishedPartitions hunfinished
  | @pop _ ph i ip rest hrun _ _ =>
    have hrun' : (s.pop ph i ip rest).run = .send ph i ip := by simp [State.pop, hg.orderly.dropped]
    refine work_lt_of_run ?_
    rw [hrun', hrun]
    cases ph <;> simp [RunPc.work, State.pop, Master.numJobs]
  | endLoop hrun hge =>
    refine work_lt_of_run ?_
    rw [hrun]
    simp [RunPc.work]
  | @sendMap _ i ip client shard hrun _ hshard =>
    have hlt := (List.getElem?_eq_some_iff.mp hshard).1
    simp only [State.work, State.sendMapperJob, hrun, RunPc.work, Master.numJobs, List.map_append, List.sum_append,
      List.map_singleton, List.sum_singleton, Call.work]
    simp only [Option.isSome_none, Bool.false_eq_true, if_false]
    omega
  | @sendReduce _ i ip client p hrun _ hpartition =>
    have hlt := (List.getElem?_eq_some_iff.mp hpartition).1
    simp only [State.work, State.sendReducerJob, hrun, RunPc.work, Master.numJobs, List.map_append, List.sum_append,
      List.map_singleton, List.sum_singleton, Call.work]
    simp only [Option.isSome_none, Bool.false_eq_true, if_false]
    omega
  | @startReduce order idxs hrun hpoll hidxs hperm =>
    rw [hrun] at hcontrol
    have hnone := (hg.grounded.notStarted (by rw [hrun]; decide)).2
    have hparts := partitions_perm hg.grounded hg.orderly hg.filed hshards hcontrol.1.map hidxs
    have hlength := (hperm.trans hparts).length_eq
    rw [List.length_map, List.length_range] at hlength
    simp only [State.work, State.startReduce, hrun, hpoll, RunPc.work, PollPc.work, Master.numJobs, hnone,
      Phase.rest, List.nil_append, hlength]
    omega
  | acceptMap hpoll hcall _ _ | acceptReduce hpoll hcall _ _ =>
    refine work_cleanup hpoll hcall ?_
    funext ph
    cases ph <;> rfl
  | rejoin _ hcall _ hclient => exact (hg.orderly.no_rejoin hg.grounded hcall hclient).elim
  | discard _ hcall hip => exact (hg.orderly.no_discard hcall hip).elim
  | errorMap _ hcall | errorReduce _ hcall => exact (hg.orderly.no_error hcall).elim
  | @resume isMap hpoll hflag =>
    -- it returns: in `next` the flag would be set
    rw [hpoll] at hcontrol
    have hover := hcontrol.resume hflag
    cases hreturns : s.master.pollReturns isMap with
    | true =>
      simp only [State.work, if_true, hpoll, PollPc.work]
      show s.run.work _ s.master.numJobs + 0 + _ < _
      omega
    | false =>
      rw [hreturns] at hover
      obtain ⟨ph, -, ⟨hmode, -⟩ | ⟨-, hclear⟩⟩ := hover.of_next
      · rw [hmode] at hcontrol
        cases hcontrol.2.2
      · cases hclear
  | @respond k ok ip job hcall =>
    have hsum : ((s.calls.set k ⟨ip, job, some ok⟩).map Call.work).sum + 2 = (s.calls.map Call.work).sum + 1 :=
      sum_work_set _ hcall
    have hless : ((s.calls.set k ⟨ip, job, some ok⟩).map Call.work).sum < (s.calls.map Call.work).sum := by omega
    exact Nat.add_lt_add_left hless _
  | monitor _ => cases hnot
  | pong _ _ _ => cases hnot
  | late _ _ _ _ _ | dropMap _ _ _ _ _ | dropReduce _ _ _ _ _ => cases hok.1

/-- A step of `monitor` leaves as much to do as before. -/
theorem work_monitor {n : Nat} (hok : Timely a s) (hmove : Move s a t) (hof : a.ofMonitor = true) :
    t.work n = s.work n := by
  cases hmove with
  | abort => rfl
  | monitor _ =>
    have hjobs : ∀ i b c, ({ s.master with
        initialMonitorJob := i, stopMonitoring := b, triggerMonitoring := c } : Master Sh).numJobs =
        s.master.numJobs := fun _ _ _ => by funext ph; cases ph <;> rfl
    simp only [State.work, hjobs]
  | pong _ _ _ => rfl
  | late _ _ _ _ _ | dropMap _ _ _ _ _ | dropReduce _ _ _ _ _ => cases hok.1
  | _ => cases hof

/-! ## Some step is there to be taken -/

/-- `run` waits for a step of `monitor`. -/
def State.Waits (s : State Sh) : Prop :=
  match s.run with
  | .awaitInitial => s.master.initialMonitorJob = true
  | .awaitTrigger _ => s.master.triggerMonitoring = true
  | .joinMonitor => s.monitor ≠ .done
  | _ => False

instance (s : State Sh) : Decidable s.Waits := by
  unfold State.Waits
  split <;> infer_instance

/-- A step of `run` or `poll_workers` can be taken, or a call has no answer. -/
def State.GoesOn (s : State Sh) : Prop :=
  (∃ a, a.ofMonitor = false ∧ (∀ k ok, a ≠ .respond k ok) ∧ Timely a s ∧ (s.next a).isSome) ∨
    ∃ c ∈ s.calls, c.status = none

theorem Going.run_goes (h : Going spec s) {o : List Int} (hs : (s.runStep o).isSome) : s.GoesOn := by
  refine .inl ⟨.run o, rfl, by simp, ⟨trivial, by simp, trivial⟩, ?_⟩
  rw [State.next, if_neg (by rw [h.placed.alive]; decide)]
  exact hs

/-- A call has no answer, or `poll_workers` takes the answer, which is not the last one if the flag is not set. -/
theorem Going.call_goes (h : Going spec s) {c : Call Sh} (hc : c ∈ s.calls) (hpoll : s.poll = .next)
    (htime : s.master.lastAnswer = true → s.master.mapReduceFlag = true) : s.GoesOn := by
  cases hstatus : c.status with
  | none => exact .inr ⟨c, hc, hstatus⟩
  | some ok =>
    obtain ⟨k, hk, rfl⟩ := List.mem_iff_getElem.mp hc
    refine .inl ⟨.poll k, rfl, by simp, ⟨trivial, by simp, htime⟩, ?_⟩
    rw [State.next, if_neg (by rw [h.placed.alive]; decide)]
    simp [State.pollStep, hpoll, hk, hstatus]

/-- While a job is to be handed out, the answer to another one is not the last of the phase. -/
theorem Going.not_last (h : Going spec s) {ph : Phase} {i : Nat} (hrun : s.run = .dispatch ph i)
    (hlt : i < s.master.numJobs ph) (hpoll : s.poll = .next) {c : Call Sh} (hc : c ∈ s.calls) :
    s.master.lastAnswer = false := by
  have hg := h.grounded
  have ho := h.orderly
  obtain ⟨k, hk, rfl⟩ := List.mem_iff_getElem.mp hc
  obtain ⟨hopen, -, -⟩ : (Mode.dispatching ph).Holds s.master s.poll := by
    have hcontrol := ho.control
    rwa [hrun] at hcontrol
  generalize hcall : s.calls[k] = c at hc
  have hcall : s.calls[k]? = some c := by rw [List.getElem?_eq_getElem hk, hcall]
  obtain ⟨ip, job, status⟩ := c
  cases ph with
  | map =>
    have hcount := ho.maps.count_add
    have hpending : ((mapView spec).pool s).pending.card = s.master.shards.length - i := by
      show ((s.run.pendingShards s.master.shards : List Sh) : Multiset Sh).card = _
      rw [hrun, Multiset.coe_card]
      exact List.length_drop
    have hout : 0 < ((mapView spec).pool s).calls.card := by
      show 0 < ((s.calls.filterMap Call.mapJob : List (Str × Sh)) : Multiset (Str × Sh)).card
      rw [Multiset.coe_card]
      cases job with
      | map shard => exact List.length_pos_of_mem (List.mem_filterMap.mpr ⟨_, hc, rfl⟩)
      | reduce _ _ => cases hg.noReduce hopen.mapComplete _ hc
    have htotal : ((mapView spec).pool s).jobs.card = s.master.numShards := by rw [hg.numShards]; rfl
    have hsame : ((mapView spec).pool s).count = s.master.numMapMsgs - s.master.numDroppedMapJobs := rfl
    replace hlt : i < s.master.shards.length := hlt
    simp only [Master.lastAnswer, hopen.mapComplete, Phase.isMap]
    refine decide_eq_false ?_
    omega
  | reduce =>
    have hcount := ho.reduces.count_add
    have hpending : (reduceView.pool s).pending.card = s.master.partitions.length - i := by
      show ((s.run.pendingPartitions s.master.partitions : List Int) : Multiset Int).card = _
      rw [hrun, Multiset.coe_card]
      exact List.length_drop
    have hout : 0 < (reduceView.pool s).calls.card := by
      show 0 < ((s.calls.filterMap Call.reduceJob : List (Str × Int)) : Multiset (Str × Int)).card
      rw [Multiset.coe_card]
      cases job with
      | map _ => cases (ho.open_of_mapJob hg hpoll hcall).1.mapComplete.symm.trans hopen.mapComplete
      | reduce partition _ => exact List.length_pos_of_mem (List.mem_filterMap.mpr ⟨_, hc, rfl⟩)
    have htotal := h.filed.card_jobs (by rw [hrun]; rfl)
    have hnum := hg.numPartitions
    have hsame : (reduceView.pool s).count = s.master.numReduceMsgs - s.master.numDroppedReduceJobs := rfl
    replace hlt : i < s.master.partitions.length := hlt
    simp only [Master.lastAnswer, hopen.mapComplete, Phase.isMap]
    refine decide_eq_false ?_
    omega

/-- Until `run` has returned, it or `poll_workers` can take a step, or a call has no answer, or `run` waits for
`monitor`. -/
theorem goes_on (h : Going spec s) : s.run = .returned ∨ s.Waits ∨ s.GoesOn := by
  have ho := h.orderly
  have hcontrol := ho.control
  cases hrun : s.run with
  | returned => exact .inl rfl
  | mkdir | setInitial | resetDropped | setFlag ph | setTrigger ph | check ph | stop | send ph i ip =>
    refine .inr (.inr (h.run_goes (o := []) ?_))
    rw [State.runStep, hrun]
    rfl
  | after ph =>
    refine .inr (.inr (h.run_goes (o := []) ?_))
    rw [State.runStep, hrun]
    cases ph <;> rfl
  | awaitInitial =>
    cases hset : s.master.initialMonitorJob with
    | true => exact .inr (.inl (by rw [State.Waits, hrun]; exact hset))
    | false =>
      refine .inr (.inr (h.run_goes (o := []) ?_))
      rw [State.runStep, hrun]
      simp [hset]
  | awaitTrigger ph =>
    cases hset : s.master.triggerMonitoring with
    | true => exact .inr (.inl (by rw [State.Waits, hrun]; exact hset))
    | false =>
      refine .inr (.inr (h.run_goes (o := []) ?_))
      rw [State.runStep, hrun]
      simp [hset]
  | joinMonitor =>
    by_cases hdone : s.monitor = .done
    · refine .inr (.inr (h.run_goes (o := []) ?_))
      rw [State.runStep, hrun]
      simp [hdone]
    · exact .inr (.inl (by rw [State.Waits, hrun]; exact hdone))
  | dispatch ph i =>
    by_cases hlt : i < s.master.numJobs ph
    · cases hready : s.master.readyQueue with
      | cons ip rest =>
        refine .inr (.inr (h.run_goes (o := []) ?_))
        rw [State.runStep, hrun]
        simp [hlt, hready]
      | nil =>
        -- all workers owe an answer
        have hqueue := ho.queue
        rw [State.whereabouts, hready, hrun] at hqueue
        have hne : s.calls ≠ [] := by
          intro hnone
          rw [hnone] at hqueue
          exact spec.workers_ne hqueue.symm.eq_nil
        obtain ⟨c, hc⟩ := List.exists_mem_of_ne_nil _ hne
        rw [hrun] at hcontrol
        have hlast := h.not_last hrun hlt hcontrol.2.2 hc
        exact .inr (.inr (h.call_goes hc hcontrol.2.2 fun hyes => absurd (hyes.symm.trans hlast) (by decide)))
    · refine .inr (.inr (h.run_goes (o := []) ?_))
      rw [State.runStep, hrun]
      simp [hlt]
  | awaitFlag ph =>
    cases hflag : s.master.mapReduceFlag with
    | false =>
      refine .inr (.inr (h.run_goes (o := []) ?_))
      rw [State.runStep, hrun]
      simp [hflag]
    | true =>
      rw [hrun] at hcontrol
      obtain ⟨hopen, ⟨-, hpoll⟩ | ⟨hclear, -⟩⟩ := hcontrol
      · -- the counter has not reached its total, so that an answer is to come
        have hne : s.calls ≠ [] := by
          intro hnone
          have hcounted := counted_of_awaitFlag h.grounded ho h.filed hrun hnone
          cases ph with
          | map => exact absurd hcounted (ne_of_lt ((h.inTime hpoll).1 hopen.mapComplete))
          | reduce => exact absurd hcounted (ne_of_lt ((h.inTime hpoll).2 hopen.mapComplete))
        obtain ⟨c, hc⟩ := List.exists_mem_of_ne_nil _ hne
        exact .inr (.inr (h.call_goes hc hpoll fun _ => hflag))
      · exact absurd (hflag.symm.trans hclear) (by decide)
  | join ph =>
    rw [hrun] at hcontrol
    obtain ⟨-, ⟨hflag, hpoll⟩ | ⟨-, hpoll⟩⟩ := hcontrol
    · -- `poll_workers` has not woken up yet
      refine .inr (.inr (.inl ⟨.resume, rfl, by simp, ⟨trivial, by simp, trivial⟩, ?_⟩))
      rw [State.next, if_neg (by rw [h.placed.alive]; decide)]
      simp [State.resume, hpoll, hflag]
    · obtain ⟨idxs, hidxs⟩ := h.filed.idxs
      refine .inr (.inr (h.run_goes (o := idxs.dedup) ?_))
      rw [State.runStep, hrun]
      cases ph <;> simp [hpoll, hidxs]

/-! ## What `run` waits for -/

/-- The steps of `monitor` to the end of its round. -/
def MonitorPc.left (numWorkers : Nat) : MonitorPc → Nat
  | .start => numWorkers + 5
  | .head => numWorkers + 4
  | .recv i => numWorkers - i + 3
  | .initial => 2
  | .trigger => 1
  | .sleep | .final | .done => 0

/-- The steps of `monitor` to the one that `run` waits for. -/
def MonitorPc.ahead (numWorkers : Nat) : RunPc → MonitorPc → Nat
  | .joinMonitor, .done => 0
  | .joinMonitor, .final => 1
  | .joinMonitor, .head => 2
  | .joinMonitor, pc => pc.left numWorkers + 3
  | .awaitInitial, .trigger => numWorkers + 6
  | _, .sleep => numWorkers + 5
  | _, pc => pc.left numWorkers

def State.ahead (s : State Sh) : Nat :=
  if s.Waits then s.monitor.ahead s.master.workerIps.length s.run else 0

/-- The places at which `run` waits for `monitor`, each with what it waits for. -/
theorem State.Waits.cases (h : s.Waits) :
    (s.run = .awaitInitial ∧ s.master.initialMonitorJob = true) ∨
      (∃ ph, s.run = .awaitTrigger ph ∧ s.master.triggerMonitoring = true) ∨
      (s.run = .joinMonitor ∧ s.monitor ≠ .done) := by
  unfold State.Waits at h
  split at h
  · next hrun => exact .inl ⟨hrun, h⟩
  · next ph hrun => exact .inr (.inl ⟨ph, hrun, h⟩)
  · next hrun => exact .inr (.inr ⟨hrun, h⟩)
  · exact h.elim

theorem Going.ahead_pos (h : Going spec s) (hwaits : s.Waits) : 0 < s.ahead := by
  have hstop := h.placed.stopped
  have hfinal := h.placed.final
  rw [State.ahead, if_pos hwaits]
  rcases hwaits.cases with ⟨hrun, -⟩ | ⟨ph, hrun, -⟩ | ⟨hrun, hnot⟩
  · have hon : ¬ (s.monitor = .final ∨ s.monitor = .done) := fun hover => by
      have hover := hstop (hfinal hover)
      rw [hrun] at hover
      simp at hover
    rw [hrun]
    cases hmonitor : s.monitor <;> simp_all [MonitorPc.ahead, MonitorPc.left]
  · have hon : ¬ (s.monitor = .final ∨ s.monitor = .done) := fun hover => by
      have hover := hstop (hfinal hover)
      rw [hrun] at hover
      simp at hover
    rw [hrun]
    cases hmonitor : s.monitor <;> simp_all [MonitorPc.ahead, MonitorPc.left]
  · rw [hrun]
    cases hmonitor : s.monitor <;> simp_all [MonitorPc.ahead]

theorem ahead_le (s : State Sh) : s.ahead ≤ s.master.workerIps.length + 8 := by
  have hleft : ∀ pc : MonitorPc, pc.left s.master.workerIps.length ≤ s.master.workerIps.length + 5 := by
    intro pc
    cases pc <;> simp only [MonitorPc.left] <;> omega
  unfold State.ahead
  split
  · have hle := hleft s.monitor
    unfold MonitorPc.ahead
    split <;> omega
  · exact Nat.zero_le _

/-- A step of `monitor` while `run` waits. -/
theorem Going.ahead_lt (h : Going spec s) (hwaits : s.Waits)
    (hless : t.Waits → t.monitor.ahead s.master.workerIps.length s.run <
      s.monitor.ahead s.master.workerIps.length s.run)
    (hrun : t.run = s.run := by rfl) (hips : t.master.workerIps = s.master.workerIps := by rfl) :
    t.ahead < s.ahead := by
  rw [State.ahead]
  split
  · next hstill =>
    rw [State.ahead, if_pos hwaits, hrun, hips]
    exact hless hstill
  · exact h.ahead_pos hwaits

/-- While `run` waits for `monitor`, `monitor` can take a step that brings it nearer to what `run` waits for. -/
theorem monitor_goes_on (h : Going spec s) (hwaits : s.Waits) :
    ∃ a t, a.ofMonitor = true ∧ Timely a s ∧ s.next a = some t ∧ t.ahead < s.ahead := by
  have hp := h.placed
  have hnum := h.numWorkers
  have hips := h.orderly.ips
  have halive : ¬ s.aborted = true := by rw [hp.alive]; decide
  -- a step that is not the receipt of a pong
  have hgo : ∀ {t}, s.monitorStep = some t → t.ahead < s.ahead →
      ∃ a t, a.ofMonitor = true ∧ Timely a s ∧ s.next a = some t ∧ t.ahead < s.ahead := by
    intro t hstep hless
    refine ⟨.monitor, t, rfl, ⟨trivial, by simp, trivial⟩, ?_, hless⟩
    rw [State.next, if_neg halive]
    exact hstep
  cases hmonitor : s.monitor with
  | start =>
    refine hgo (by rw [State.monitorStep, hmonitor]) (h.ahead_lt hwaits fun _ => ?_)
    rw [hmonitor]
    rcases hp.start hmonitor with hrun | hrun | ⟨hrun, -⟩ <;> rw [hrun] <;> simp [MonitorPc.ahead, MonitorPc.left]
  | head =>
    cases hstop : s.master.stopMonitoring with
    | true =>
      have hstep : s.monitorStep = some { s with monitor := .final } := by
        rw [State.monitorStep, hmonitor]
        simp [hstop]
      refine hgo hstep (h.ahead_lt hwaits fun _ => ?_)
      rcases hp.stopped hstop with hrun | hrun
      · rw [hmonitor, hrun]
        simp [MonitorPc.ahead]
      · rw [State.Waits, hrun] at hwaits
        exact hwaits.elim
    | false =>
      have hstep : s.monitorStep = some { s with pings := s.pings ++ s.master.workerIps, monitor := .recv 0 } := by
        rw [State.monitorStep, hmonitor]
        simp only [hstop]
        rw [if_neg (by decide), if_pos h.clients]
      refine hgo hstep (h.ahead_lt hwaits fun hstill => ?_)
      rw [hmonitor]
      rcases hstill.cases with ⟨hrun, -⟩ | ⟨ph, hrun, -⟩ | ⟨hrun, -⟩
      · rw [show s.run = _ from hrun]
        simp [MonitorPc.ahead, MonitorPc.left]
      · rw [show s.run = _ from hrun]
        simp [MonitorPc.ahead, MonitorPc.left]
      · cases (hp.stopping hrun).symm.trans hstop
  | recv i =>
    have hdue := hp.due i hmonitor
    by_cases hlt : (i : Int) < s.master.numWorkers
    · -- a pong is to come
      have hpos : 0 < s.pings.length := by omega
      refine ⟨.pong 0 true, { s with pings := s.pings.eraseIdx 0, monitor := .recv (i + 1) }, rfl,
        ⟨rfl, by simp, trivial⟩, ?_, h.ahead_lt hwaits fun _ => ?_⟩
      · rw [State.next, if_neg halive]
        simp [State.pong, hmonitor, List.getElem?_eq_getElem hpos, hlt]
      · have hlength : s.master.workerIps.length = spec.workers.length := by rw [hips]
        rw [hmonitor]
        rcases hwaits.cases with ⟨hrun, -⟩ | ⟨ph, hrun, -⟩ | ⟨hrun, -⟩
        all_goals
          rw [hrun]
          simp only [MonitorPc.ahead, MonitorPc.left]
          omega
    · have hstep : s.monitorStep = some { s with monitor := .initial } := by
        rw [State.monitorStep, hmonitor]
        simp [hlt]
      refine hgo hstep (h.ahead_lt hwaits fun _ => ?_)
      rw [hmonitor]
      rcases hwaits.cases with ⟨hrun, -⟩ | ⟨ph, hrun, -⟩ | ⟨hrun, -⟩
      all_goals
        rw [hrun]
        simp only [MonitorPc.ahead, MonitorPc.left]
        omega
  | initial =>
    refine hgo (by rw [State.monitorStep, hmonitor]) (h.ahead_lt hwaits fun hstill => ?_)
    rw [hmonitor]
    rcases hstill.cases with ⟨-, hset⟩ | ⟨ph, hrun, -⟩ | ⟨hrun, -⟩
    · cases hset
    · rw [show s.run = _ from hrun]
      simp [MonitorPc.ahead, MonitorPc.left]
    · rw [show s.run = _ from hrun]
      simp [MonitorPc.ahead, MonitorPc.left]
  | trigger =>
    refine hgo (by rw [State.monitorStep, hmonitor]) (h.ahead_lt hwaits fun hstill => ?_)
    rw [hmonitor]
    rcases hstill.cases with ⟨hrun, -⟩ | ⟨ph, -, hset⟩ | ⟨hrun, -⟩
    · rw [show s.run = _ from hrun]
      simp [MonitorPc.ahead]
    · cases hset
    · rw [show s.run = _ from hrun]
      simp [MonitorPc.ahead, MonitorPc.left]
  | sleep =>
    refine hgo (by rw [State.monitorStep, hmonitor]) (h.ahead_lt hwaits fun _ => ?_)
    rw [hmonitor]
    rcases hwaits.cases with ⟨hrun, -⟩ | ⟨ph, hrun, -⟩ | ⟨hrun, -⟩ <;> rw [hrun] <;>
      simp [MonitorPc.ahead, MonitorPc.left]
  | final =>
    refine hgo (by rw [State.monitorStep, hmonitor]) (h.ahead_lt hwaits fun _ => ?_)
    rw [hmonitor]
    rcases hp.stopped (hp.final (.inl hmonitor)) with hrun | hrun
    · rw [hrun]
      simp [MonitorPc.ahead]
    · rw [State.Waits, hrun] at hwaits
      exact hwaits.elim
  | done =>
    rcases hp.stopped (hp.final (.inr hmonitor)) with hrun | hrun
    · rw [State.Waits, hrun] at hwaits
      exact absurd hmonitor hwaits
    · rw [State.Waits, hrun] at hwaits
      exact hwaits.elim

end AdvancedOS.MapReduce
