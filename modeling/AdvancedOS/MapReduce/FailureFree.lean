import AdvancedOS.MapReduce.Filed

/-!
# Progress and exactly-once dispatch without failures

* `never_wedged`: `run` and `poll_workers` never wait for each other with no answer to come, if there
  is a shard and `poll_workers` takes the last answer of a phase only after `run` has set
  `map_reduce_flag`. Both conditions are needed (`wedged`).
* `exactly_once_dispatch`: no worker has two jobs, no reduce job is sent before the map phase is
  over, and past the second join every shard and every partition was sent once.
-/

namespace AdvancedOS.MapReduce

open Lts WorkPool

variable {Sh : Type} {spec : Spec Sh} {s t : State Sh} {a : Action}

/-! ## Waiting for each other -/

/-- `run` waits for `map_reduce_flag` to be cleared, or for a worker, while `poll_workers` waits for a
completion and none is to come. -/
def State.Wedged (s : State Sh) : Prop :=
  ((∃ ph, s.run = .awaitFlag ph ∧ s.master.mapReduceFlag = true) ∨
    ∃ ph i, s.run = .dispatch ph i ∧ i < s.master.numJobs ph ∧ s.master.readyQueue = []) ∧
  s.poll = .next ∧ s.calls = []

/-- The next answer is the last one of the phase that `map_complete` says. -/
def Master.lastAnswer (m : Master Sh) : Bool :=
  if m.mapComplete then decide (m.numReduceMsgs - m.numDroppedReduceJobs + 1 = m.numPartitions)
  else decide (m.numMapMsgs - m.numDroppedMapJobs + 1 = m.numShards)

/-- `poll_workers` takes the last answer of a phase only when `run` has set the flag. -/
def FlagInTime (a : Action) (s : State Sh) : Prop :=
  match a with
  | .poll _ => s.master.lastAnswer = true → s.master.mapReduceFlag = true
  | _ => True

instance (a : Action) (s : State Sh) : Decidable (FlagInTime a s) :=
  match a with
  | .poll _ => inferInstanceAs (Decidable (s.master.lastAnswer = true → _))
  | .run _ | .mkdirFails | .resume | .monitor | .pong _ _ | .respond _ _ => .isTrue trivial

/-- While `poll_workers` waits for completions, there is one to come in the phase. -/
def InTime (s : State Sh) : Prop :=
  s.poll = .next →
    (s.master.mapComplete = false → s.master.numMapMsgs - s.master.numDroppedMapJobs < s.master.numShards) ∧
    (s.master.mapComplete = true →
      s.master.numReduceMsgs - s.master.numDroppedReduceJobs < s.master.numPartitions)

theorem inTime_init (hshards : spec.shards ≠ []) : InTime (system spec).init := by
  refine fun _ => ⟨fun _ => ?_, nofun⟩
  have hpos := List.length_pos_of_ne_nil hshards
  simp only [system, Master.new]
  omega

/-- Nothing of the reduce phase has been counted before it starts. -/
theorem Orderly.reduceCount_eq_zero (hg : Grounded spec s) (h : Orderly spec s)
    (hstage : s.run.stage ≠ .reducing) : s.master.numReduceMsgs - s.master.numDroppedReduceJobs = 0 := by
  have hjobs : (reduceView.pool s).jobs = 0 := by
    show ((s.idx2files.map Prod.fst : List Int) : Multiset Int) = 0
    rw [(hg.notStarted hstage).1]
    rfl
  have hsum := h.reduces.jobs
  rw [hjobs] at hsum
  have hsent := Multiset.map_eq_zero.mp (add_eq_zero.mp hsum).1
  have hdone := h.reduces.sent
  rw [hsent] at hdone
  have hcount := h.reduces.count
  rw [(add_eq_zero.mp hdone.symm).2, Multiset.card_zero] at hcount
  exact hcount

/-- After an answer that is not the last one of its phase, there is another one to come. -/
theorem inTime_cleanup {k : Nat} {m : Master Sh} {maps : List (Str × Sh)} {reduces : List (Str × Int)}
    (ph : Phase) (hopen : m.Open ph) (hdropped : m.numDroppedWorkers = 0)
    (hreduce : ph = .map → ¬ m.Counted .reduce) (hflag : m.Counted ph → m.mapReduceFlag = true)
    (hmap : ph = .map → m.numMapMsgs - m.numDroppedMapJobs ≤ m.numShards)
    (hle : ph = .reduce → m.numReduceMsgs - m.numDroppedReduceJobs ≤ m.numPartitions) :
    InTime (s.cleanup k m maps reduces) := by
  intro hpoll
  have hnot : ¬ m.Counted ph := by
    intro hcounted
    have hoff : m.handsOff = true := by
      simp [Master.handsOff, hflag hcounted, (hopen.notifyMaster_iff hdropped hreduce).mpr hcounted]
    have hwait : (s.cleanup k m maps reduces).poll = .wait (!m.mapComplete) := by
      simp [State.cleanup, Master.pollPc, hoff]
    rw [hwait] at hpoll
    cases hpoll
  have hcomplete := hopen.mapComplete
  cases ph with
  | map =>
    refine ⟨fun _ => ?_, fun hdone => absurd (hcomplete.symm.trans hdone) (by decide)⟩
    exact lt_of_le_of_ne (hmap rfl) hnot
  | reduce =>
    refine ⟨fun hdone => absurd (hcomplete.symm.trans hdone) (by decide), fun _ => ?_⟩
    exact lt_of_le_of_ne (hle rfl) hnot

theorem inTime_move (hg : Grounded spec s) (ho : Orderly spec s) (h : InTime s) (hmove : Move s a t)
    (hok : FailureFree a) (htime : FlagInTime a s) : InTime t := by
  have hcontrol := ho.control
  cases hmove with
  | @check _ ph hrun =>
    -- `poll_workers` waits for `run` here
    intro hpoll
    rw [hrun] at hcontrol
    cases hcontrol.2.2.1.symm.trans hpoll
  | startReduce hrun _ _ _ =>
    intro _
    have hclosed := hcontrol
    rw [hrun] at hclosed
    refine ⟨fun hmap => absurd (hclosed.1.mapComplete.symm.trans hmap) (by decide), fun _ => ?_⟩
    have hzero := ho.reduceCount_eq_zero hg (by rw [hrun]; decide)
    have hnum := hg.numPartitions
    have hpos := spec.nOutputFiles_pos
    simp only [State.startReduce]
    omega
  | @acceptMap k ip client shard hpoll hcall _ _ =>
    obtain ⟨hopen, -⟩ := ho.open_of_mapJob hg hpoll hcall
    have hlt := (h hpoll).1 hopen.mapComplete
    refine inTime_cleanup .map ⟨hopen.1, hopen.2, by simp⟩ ho.noneDropped
      (fun _ => ho.not_counted hg hopen.mapComplete) (fun hcounted => htime ?_) (fun _ => ?_) (by simp)
    · simp only [Master.Counted, Master.acceptMap] at hcounted
      simp only [Master.lastAnswer, hopen.mapComplete, Phase.isMap]
      refine decide_eq_true ?_
      omega
    · simp only [Master.acceptMap]
      omega
  | @acceptReduce k ip client partition files hpoll hcall _ _ =>
    obtain ⟨hopen, -⟩ := ho.open_of_reduceJob hg hpoll hcall
    have hlt := (h hpoll).2 hopen.mapComplete
    refine inTime_cleanup .reduce ⟨hopen.1, hopen.2, hopen.3⟩ ho.noneDropped (by simp)
      (fun hcounted => htime ?_) (by simp) fun _ => ?_
    · simp only [Master.Counted, Master.acceptReduce] at hcounted
      simp only [Master.lastAnswer, hopen.mapComplete, Phase.isMap]
      refine decide_eq_true ?_
      omega
    · simp only [Master.acceptReduce]
      omega
  | @resume isMap hpoll hflag =>
    -- `poll_workers` is over when it wakes up
    intro hnext
    rw [hpoll] at hcontrol
    have hover := hcontrol.resume hflag
    rw [show (if s.master.pollReturns isMap then PollPc.returned else .next) = .next from hnext] at hover
    obtain ⟨ph, -, ⟨hmode, -⟩ | ⟨-, hclear⟩⟩ := hover.of_next
    · rw [hmode] at hcontrol
      cases hcontrol.2.2
    · cases hclear
  | rejoin _ hcall _ hclient => exact (ho.no_rejoin hg hcall hclient).elim
  | discard _ hcall hip => exact (ho.no_discard hcall hip).elim
  | errorMap _ hcall | errorReduce _ hcall => exact (ho.no_error hcall).elim
  | late _ _ _ _ _ | dropMap _ _ _ _ _ | dropReduce _ _ _ _ _ => cases hok
  | _ => exact h

/-- When `run` waits for the flag and no answer is to come, the counter of the phase has reached its
total. -/
theorem counted_of_awaitFlag (hg : Grounded spec s) (ho : Orderly spec s) (hf : Filed spec s) {ph : Phase}
    (hrun : s.run = .awaitFlag ph) (hcalls : s.calls = []) : s.master.Counted ph := by
  cases ph with
  | map =>
    have hpending : ((mapView spec).pool s).pending = 0 := by
      show ((s.run.pendingShards s.master.shards : List Sh) : Multiset Sh) = 0
      rw [hrun]
      rfl
    have hnone : ((mapView spec).pool s).calls = 0 := by
      show ((s.calls.filterMap Call.mapJob : List (Str × Sh)) : Multiset (Str × Sh)) = 0
      rw [hcalls]
      rfl
    have hcount := ho.maps.count_eq hpending hnone
    refine Eq.trans hcount ?_
    rw [hg.numShards]
    rfl
  | reduce =>
    have hpending : (reduceView.pool s).pending = 0 := by
      show ((s.run.pendingPartitions s.master.partitions : List Int) : Multiset Int) = 0
      rw [hrun]
      rfl
    have hnone : (reduceView.pool s).calls = 0 := by
      show ((s.calls.filterMap Call.reduceJob : List (Str × Int)) : Multiset (Str × Int)) = 0
      rw [hcalls]
      rfl
    have hcount := ho.reduces.count_eq hpending hnone
    rw [hf.card_jobs (by rw [hrun]; rfl), ← hg.numPartitions] at hcount
    exact hcount

/-- Without failures `run` and `poll_workers` never wait for each other with no answer to come, if
there is a shard and the flag is set in time. -/
theorem never_wedged (hshards : spec.shards ≠ [])
    (h : ReachVia (system spec) (fun a s => FailureFree a ∧ FlagInTime a s) s) : ¬ s.Wedged := by
  classical
  have hg := grounded_reach h
  have ho := orderly_reach (fun _ _ hok => hok.1) h
  have htime : InTime s := h.invariant (inTime_init hshards) fun hr hi hok hs =>
    inTime_move (grounded_reach hr) (orderly_reach (fun _ _ hok => hok.1) hr) hi (move_of_next hs)
      hok.1 hok.2
  rintro ⟨hblocked, hpoll, hcalls⟩
  rcases hblocked with ⟨ph, hrun, hflag⟩ | ⟨ph, i, hrun, -, hready⟩
  · -- the counter has reached its total, but then an answer was to come
    have hf := filed_reach hshards (fun _ _ hok => hok.1) h
    have hcounted := counted_of_awaitFlag hg ho hf hrun hcalls
    have hopen := ho.control
    rw [hrun] at hopen
    cases ph with
    | map => exact absurd hcounted (ne_of_lt ((htime hpoll).1 hopen.1.mapComplete))
    | reduce => exact absurd hcounted (ne_of_lt ((htime hpoll).2 hopen.1.mapComplete))
  · -- the workers are nowhere
    have hperm := ho.queue
    rw [State.whereabouts, hready, hrun, hcalls] at hperm
    exact spec.workers_ne hperm.symm.eq_nil

/-- One worker, one shard and one partition, up to the end of the reduce phase. -/
def oneJob : List Action :=
  startUp 1 ++ [Action.run [], .run [], .run [], .run [], .respond 0 true, .poll 0, .run [], .run [], .monitor,
    .run [], .run [], .run [], .resume, .run [0], .run [], .run [], .run [], .run [], .respond 0 true,
    .poll 0, .run [], .run [], .monitor, .monitor, .pong 0 true, .monitor, .monitor, .monitor, .run [],
    .run [], .run [], .resume, .run []]

theorem never_wedged_one_job : ∃ s : State Nat, s.run = .awaitFlag .map ∧ s.poll = .next ∧ ¬ s.Wedged := by
  obtain ⟨s, hs, hrun, hpoll⟩ :
      ∃ s ∈ execVia (system (smallSpec 0 [0])) (fun a s => FailureFree a ∧ FlagInTime a s)
        (oneJob.take 13) (system (smallSpec 0 [0])).init,
      s.run = .awaitFlag .map ∧ s.poll = .next := by
    decide +kernel
  exact ⟨s, hrun, hpoll, never_wedged (by decide) (reachVia_execVia _ .init hs)⟩

/-- The only answer is taken before `run` sets the flag; or there is no shard. -/
theorem wedged :
    (∃ s, ReachVia (system (smallSpec 0 [0])) (fun a _ => FailureFree a) s ∧ s.Wedged) ∧
    (∃ s, ReachVia (system (smallSpec 0 [])) (fun a _ => FailureFree a) s ∧ s.Wedged) := by
  have hrun : ∀ {spec : Spec Nat} (actions : List Action),
      (∃ s ∈ execVia (system spec) (fun a _ => FailureFree a) actions (system spec).init,
        s.run = .awaitFlag .map ∧ s.master.mapReduceFlag = true ∧ s.poll = .next ∧ s.calls = []) →
      ∃ s, ReachVia (system spec) (fun a _ => FailureFree a) s ∧ s.Wedged :=
    fun _ ⟨s, hs, hawait, hflag, hpoll, hcalls⟩ =>
      ⟨s, reachVia_execVia _ .init hs, .inl ⟨.map, hawait, hflag⟩, hpoll, hcalls⟩
  refine ⟨?_, ?_⟩
  · refine hrun (startUp 1 ++ [Action.run [], .run [], .respond 0 true, .poll 0, .run [], .run []]) ?_
    decide +kernel
  · refine hrun (startUp 1 ++ [Action.run [], .run []]) ?_
    decide +kernel

/-! ## Exactly once -/

/-- Without failures: a worker is in the ready queue once or owes one answer; reduce jobs are sent
when all shards are done and all their files known; and when the reduce phase is over, every shard
was sent once, and every partition once, with all files of the partition. -/
theorem exactly_once_dispatch (hworkers : spec.workers.Nodup) (hshards : spec.shards ≠ [])
    (h : ReachVia (system spec) (fun a _ => FailureFree a) s) :
    (s.master.readyQueue.Nodup ∧ (s.calls.map Call.workerIpAddr).Nodup ∧
      ∀ c ∈ s.calls, c.workerIpAddr ∉ s.master.readyQueue) ∧
    (s.reduceSent ≠ [] → s.calls.filterMap Call.mapJob = [] ∧ (s.mapDone.map Prod.snd).Perm spec.shards ∧
      ∀ x ∈ s.mapDone, ∀ f ∈ mapResultFiles spec.nOutputFiles x.1, f ∈ s.master.intermediateFiles) ∧
    (s.run = .stop ∨ s.run = .joinMonitor ∨ s.run = .returned →
      (s.mapSent.map Prod.snd).Perm spec.shards ∧
      (s.reduceSent.map fun x => x.2.1).Perm ((List.range spec.nOutputFiles).map Int.ofNat) ∧
      (∀ x ∈ s.reduceSent, ∀ f, f ∈ x.2.2 ↔
        fileIdx f = some x.2.1 ∧ ∃ y ∈ s.mapDone, f ∈ mapResultFiles spec.nOutputFiles y.1) ∧
      s.master.outputFiles.length = spec.nOutputFiles) := by
  classical
  have hg := grounded_reach h
  have ho := orderly_reach (fun _ _ hok => hok) h
  have hf := filed_reach hshards (fun _ _ hok => hok) h
  refine ⟨?_, fun hsent => ?_, fun hend => ?_⟩
  · have hnodup := ho.queue.nodup_iff.mpr hworkers
    rw [State.whereabouts, List.append_assoc, List.nodup_append] at hnodup
    obtain ⟨hready, hrest, hdisjoint⟩ := hnodup
    refine ⟨hready, (List.nodup_append.mp hrest).2.1, fun c hc hmem => ?_⟩
    exact hdisjoint _ hmem _ (List.mem_append_right _ (List.mem_map_of_mem hc)) rfl
  · have hmap : s.master.mapComplete = true := by
      by_contra hne
      exact hsent (hg.noSent (Bool.eq_false_of_not_eq_true hne))
    obtain ⟨-, hnone, hperm⟩ := ho.map_counted hg (ho.control.counted_map hmap)
    exact ⟨hnone, hperm, fun x hx f hfile => (hf.files f).mpr ⟨x, hx, hfile⟩⟩
  · have hover : s.master.Closed .reduce ∧ s.run.stage = .reducing := by
      have hcontrol := ho.control
      rcases hend with hrun | hrun | hrun <;> rw [hrun] at hcontrol ⊢ <;> exact ⟨hcontrol.1, rfl⟩
    obtain ⟨hpending, -, -⟩ := ho.map_counted hg hover.1.map
    obtain ⟨hparts, hdone⟩ := reduce_counted hg ho hf hover.2 (hover.1.reduce rfl)
    refine ⟨?_, hparts, fun x hx f => ?_, ho.outputs.trans hdone⟩
    · have hjobs := ho.maps.jobs
      rw [show ((mapView spec).pool s).pending = 0 from (Multiset.coe_eq_zero _).mpr hpending,
        add_zero] at hjobs
      exact Multiset.coe_eq_coe.mp hjobs
    · rw [hf.carried x hx, mem_filesOf, hf.files, and_comm]

theorem exactly_once_dispatch_one_job : ∃ s : State Nat, s.run = .stop ∧
    (s.mapSent.map Prod.snd).Perm [0] ∧ (s.reduceSent.map fun x => x.2.1).Perm [0] ∧
    s.master.outputFiles.length = 1 := by
  obtain ⟨s, hs, hrun⟩ :
      ∃ s ∈ execVia (system (smallSpec 0 [0])) (fun a _ => FailureFree a) oneJob
        (system (smallSpec 0 [0])).init, s.run = .stop := by
    decide +kernel
  obtain ⟨-, -, hend⟩ := exactly_once_dispatch (by decide) (by decide) (reachVia_execVia _ .init hs)
  obtain ⟨hmaps, hreduces, -, hfiles⟩ := hend (.inl hrun)
  exact ⟨s, hrun, hmaps, hreduces, hfiles⟩

end AdvancedOS.MapReduce
