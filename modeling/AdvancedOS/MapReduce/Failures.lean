import AdvancedOS.MapReduce.PoolMoves

/-!
# Workers that fail

What the two pools say about runs in which workers fail at any time.

* `map_phase_complete`: the map phase completes only when live workers have completed every shard,
  provided that `run` never starts a pass over a list that it has just gone through.
* `no_job_dispatched_twice`: under the same condition no job is sent while a live worker has it.
* `no_job_lost`: every job is to be sent, unfinished, or owed or completed by a live worker, provided
  that only dropped workers answer with an error and that no worker with a partition is dropped.

The conditions are needed. In `resend` a worker is dropped while it is idle: `run` sends all shards
again (`shard_dispatched_twice`), and the map phase completes with a shard missing
(`map_phase_completes_early`). `job_lost` has the two ways to lose a job.
-/

namespace AdvancedOS.MapReduce

open Lts WorkPool

variable {Sh : Type} [DecidableEq Sh] {spec : Spec Sh} {s t : State Sh} {a : Action}
  {ok : Action → State Sh → Prop}

/-! ## Invariants of the pools -/

/-- An invariant of the pool of shards holds as long as the map phase is not complete. -/
theorem map_invariant {I : Pool Str Sh → Prop}
    (hinit : I (WorkPool.system true spec.workers.toFinset (spec.shards : Multiset Sh)).init)
    (hstep : ∀ {s a b p}, s.master.mapComplete = false → ok a s → MapStep s a b →
      I ((mapView spec).pool s) → Step true ((mapView spec).pool s) b p → I p)
    (h : ReachVia (system spec) ok s) (hmap : s.master.mapComplete = false) :
    I ((mapView spec).pool s) := by
  induction h with
  | init => rw [mapPool_init]; exact hinit
  | @step s t a hr hok hs ih =>
    have hmove := move_of_next hs
    have hbefore := mapComplete_of_move hmove hmap
    rcases mapPool_move (grounded_reach hr) hmove (fun _ _ => hbefore) with he | ⟨b, hb, hnext⟩
    · rw [he]; exact ih hbefore
    · exact hstep hbefore hok hb (ih hbefore) (step_of_next hnext)

omit [DecidableEq Sh] in
/-- An invariant of the pool of partitions holds in every state. -/
theorem reduce_invariant {I : Pool Str Int → Prop}
    (hinit : I (WorkPool.system false spec.workers.toFinset (0 : Multiset Int)).init)
    (hstep : ∀ {s : State Sh} {a b p}, Grounded spec s → ok a s → ReduceStep s a b →
      I (reduceView.pool s) → Step false (reduceView.pool s) b p → I p)
    (h : ReachVia (system spec) ok s) : I (reduceView.pool s) := by
  induction h with
  | init => rw [reducePool_init]; exact hinit
  | @step s t a hr hok hs ih =>
    rcases reducePool_move (grounded_reach hr) (move_of_next hs) with he | ⟨b, hb, hnext⟩
    · rw [he]; exact ih
    · exact hstep (grounded_reach hr) hok hb ih (step_of_next hnext)

/-! ## The end of a pass -/

/-- The list that the next pass of a phase takes its jobs from, if it is not the same again. -/
def Master.unfinishedJobs (m : Master Sh) : Phase → Nat
  | .map => m.unfinishedShards.length
  | .reduce => m.unfinishedPartitions.length

/-- A phase is complete. -/
def Master.complete (m : Master Sh) : Phase → Bool
  | .map => m.mapComplete
  | .reduce => m.reduceComplete

/-- `run` does not start a pass over the jobs it has just sent: when it ends a pass, the phase is
complete, or something is unfinished, or the list is empty. -/
def RequeuesWork (ph : Phase) (a : Action) (s : State Sh) : Prop :=
  match a with
  | .run _ => s.run = .after ph →
      s.master.complete ph = true ∨ 0 < s.master.unfinishedJobs ph ∨ s.master.numJobs ph = 0
  | _ => True

instance (ph : Phase) (a : Action) (s : State Sh) : Decidable (RequeuesWork ph a s) :=
  match a with
  | .run _ => inferInstanceAs (Decidable (s.run = .after ph → _))
  | .mkdirFails | .poll _ | .resume | .monitor | .pong _ _ | .respond _ _ => .isTrue trivial

/-- What the pool of shards keeps when nothing is sent a second time without need. -/
structure MapBooks (spec : Spec Sh) (p : Pool Str Sh) : Prop where
  books : Books spec.workers.toFinset p
  recorded : Recorded p
  conserved : Conserved spec.workers.toFinset p

omit [DecidableEq Sh] in
/-- A pass that starts over has nothing to send. -/
theorem numJobs_of_requeues {ph : Phase} {order : List Int} (hok : RequeuesWork ph (.run order) s)
    (hrun : s.run = .after ph) (hcomplete : s.master.complete ph = false)
    (hunfinished : s.master.unfinishedJobs ph = 0) : s.master.numJobs ph = 0 := by
  rcases hok hrun with hdone | hpos | hnone
  · exact absurd (hcomplete.symm.trans hdone) (by decide)
  · exact absurd hunfinished (Nat.ne_of_gt hpos)
  · exact hnone

omit [DecidableEq Sh] in
theorem MapStep.notAgain {b : Act Str Sh} (hb : MapStep s a b) (hok : RequeuesWork .map a s) :
    b.NotAgain := by
  cases b with
  | again L =>
    obtain ⟨o, rfl, hrun, hunfinished, hcomplete, rfl⟩ := hb
    have hnone := numJobs_of_requeues hok hrun hcomplete (by simp [Master.unfinishedJobs, hunfinished])
    exact congrArg Multiset.ofList (List.length_eq_zero_iff.mp hnone)
  | _ => trivial

omit [DecidableEq Sh] in
theorem ReduceStep.notAgain {b : Act Str Int} (hb : ReduceStep s a b)
    (hok : RequeuesWork .reduce a s) : b.NotAgain := by
  cases b with
  | again L =>
    obtain ⟨o, rfl, hrun, hunfinished, hcomplete, rfl⟩ := hb
    have hnone := numJobs_of_requeues hok hrun hcomplete (by simp [Master.unfinishedJobs, hunfinished])
    exact congrArg Multiset.ofList (List.length_eq_zero_iff.mp hnone)
  | _ => trivial

theorem mapBooks_reach (hok : ∀ a s, ok a s → RequeuesWork .map a s) (h : ReachVia (system spec) ok s)
    (hmap : s.master.mapComplete = false) : MapBooks spec ((mapView spec).pool s) := by
  refine map_invariant ?_ ?_ (h.mono hok) hmap
  · exact ⟨books_init _ _ _, recorded_init _ _ _, conserved_init _ _ _⟩
  · intro s a b p _ hok hb hp hs
    exact ⟨books_step hp.books hs, recorded_step hp.recorded hs,
      conserved_step hp.books hp.conserved hs (hb.notAgain hok)⟩

/-! ## The map phase completes -/

omit [DecidableEq Sh] in
/-- What was completed stays completed. -/
theorem mem_mapDone_of_move (hmove : Move s a t) {x : Str × Sh} (h : x ∈ s.mapDone) : x ∈ t.mapDone := by
  cases hmove with
  | acceptMap _ _ _ _ | acceptReduce _ _ _ _ | rejoin _ _ _ _ => exact List.mem_append_left _ h
  | discard _ _ _ | errorMap _ _ | errorReduce _ _ => exact List.mem_append_left _ h
  | pop _ _ _ => simpa [State.pop] using h
  | _ => exact h

omit [DecidableEq Sh] in
/-- Only the end of `schedule_monitor` sets `map_complete`, and it tests the books. -/
theorem all_shards_done (hg : Grounded spec s) (hp : MapBooks spec ((mapView spec).pool s))
    (hmove : Move s a t) (hmap : s.master.mapComplete = false) (hdone : t.master.mapComplete = true) :
    ∀ shard ∈ spec.shards, ∃ ip, t.Live ip ∧ (ip, shard) ∈ t.mapDone := by
  cases hmove with
  | check hrun =>
    simp only [Master.checkComplete, hmap, Bool.false_or, Master.mapJobsDone, decide_eq_true_eq] at hdone
    have hcount : ((mapView spec).pool s).count = ((mapView spec).pool s).jobs.card := by
      refine hdone.2.trans ?_
      rw [hg.numShards]
      rfl
    obtain ⟨-, hall⟩ := all_done hp.books hp.recorded hp.conserved hcount
    intro shard hshard
    obtain ⟨ip, hlive, hmem⟩ := hall shard hshard
    exact ⟨ip, View.live_iff.mp hlive, hmem⟩
  | _ => exact absurd (hmap.symm.trans hdone) (by decide)

theorem mapDone_of_complete (h : ReachVia (system spec) (RequeuesWork .map) s) :
    s.master.mapComplete = true →
      ∀ shard ∈ spec.shards, ∃ ip, (ip, shard) ∈ s.mapDone := by
  refine h.invariant (I := fun s : State Sh => s.master.mapComplete = true →
    ∀ shard ∈ spec.shards, ∃ ip, (ip, shard) ∈ s.mapDone) ?_ ?_
  · intro hdone; cases hdone
  · intro s t a hr ih _ hs hdone shard hshard
    have hmove := move_of_next hs
    cases hmap : s.master.mapComplete with
    | false =>
      have hp := mapBooks_reach (fun _ _ => id) hr hmap
      obtain ⟨ip, -, hmem⟩ := all_shards_done (grounded_reach hr) hp hmove hmap hdone shard hshard
      exact ⟨ip, hmem⟩
    | true =>
      obtain ⟨ip, hmem⟩ := ih hmap shard hshard
      exact ⟨ip, mem_mapDone_of_move hmove hmem⟩

/-- When `schedule_monitor` sets `map_complete`, workers that have not been dropped have completed
every shard; so every shard has been completed when the reduce phase starts. -/
theorem map_phase_complete (h : ReachVia (system spec) (RequeuesWork .map) s) :
    (∀ a t, s.next a = some t → s.master.mapComplete = false → t.master.mapComplete = true →
      ∀ shard ∈ spec.shards, ∃ ip, t.Live ip ∧ (ip, shard) ∈ t.mapDone) ∧
    (s.run.stage = .reducing → ∀ shard ∈ spec.shards, ∃ ip, (ip, shard) ∈ s.mapDone) := by
  have hg := grounded_reach h
  refine ⟨fun a t hs hmap hdone => ?_, fun hstage => ?_⟩
  · exact all_shards_done hg (mapBooks_reach (fun _ _ => id) h hmap) (move_of_next hs) hmap hdone
  · exact mapDone_of_complete h (hg.mapped (.inr hstage))

/-- The first of two workers is dropped with the only shard, and answers late; the second one then
gets the shard and completes it. -/
def rescue : List Action :=
  startUp 2 ++ List.replicate 4 (Action.run []) ++ List.replicate 3 Action.monitor ++
    [Action.pong 0 false, .monitor, .respond 0 true, .poll 0] ++ List.replicate 2 (Action.run []) ++
    List.replicate 2 Action.monitor ++ List.replicate 3 (Action.run []) ++ [Action.resume, .run []]

theorem map_phase_complete_of_rescue : ∃ s t : State Nat, s.next (.run []) = some t ∧
    t.master.mapComplete = true ∧ ∃ ip, t.Live ip ∧ (ip, 0) ∈ t.mapDone := by
  obtain ⟨s, hs, t, ht, hmap, hdone⟩ :
      ∃ s ∈ execVia (system (smallSpec 1 [0])) (RequeuesWork .map)
        (rescue ++ [Action.run [], .respond 0 true, .run [], .run [], .poll 0, .run [], .run [], .monitor,
          .monitor, .pong 0 true, .monitor, .monitor, .monitor, .run []]) (system (smallSpec 1 [0])).init,
      ∃ t ∈ s.next (.run []), s.master.mapComplete = false ∧ t.master.mapComplete = true := by
    decide +kernel
  have hreach := reachVia_execVia _ .init hs
  exact ⟨s, t, ht, hdone, (map_phase_complete hreach).1 _ t ht hmap hdone 0 (List.mem_singleton_self 0)⟩

/-- One of four workers is dropped while idle. As nothing is unfinished, `run` sends both shards
again; shard 0 to worker 3. -/
def resend : List Action :=
  startUp 4 ++ List.replicate 6 (Action.run []) ++ List.replicate 3 Action.monitor ++
    [Action.pong 3 false, .pong 0 true, .pong 0 true, .respond 0 true, .poll 0] ++
    List.replicate 2 (Action.run []) ++ List.replicate 3 Action.monitor ++ List.replicate 3 (Action.run []) ++
    [Action.resume, .run []]

/-- Shard 0 is completed twice, which is the number of shards; shard 1 is still out. -/
theorem map_phase_completes_early : ∃ s t : State Nat,
    Reach (system (smallSpec 3 [0, 1])) s ∧ s.next (.run []) = some t ∧
    s.master.mapComplete = false ∧ t.master.mapComplete = true ∧ 1 ∉ t.mapDone.map Prod.snd := by
  obtain ⟨s, hs, t, ht, hearly⟩ :
      ∃ s ∈ exec (system (smallSpec 3 [0, 1]))
        (resend ++ List.replicate 6 (Action.run []) ++ [Action.respond 1 true, .poll 1, .run [], .run [], .monitor,
          .monitor, .pong 0 true, .pong 0 true, .pong 0 true, .monitor, .monitor, .monitor, .run []])
        (system (smallSpec 3 [0, 1])).init,
      ∃ t ∈ s.next (.run []), s.master.mapComplete = false ∧ t.master.mapComplete = true ∧
        1 ∉ t.mapDone.map Prod.snd := by
    decide +kernel
  exact ⟨s, t, reach_exec _ .init hs, ht, hearly⟩

/-! ## Jobs sent twice -/

/-- How often the shard is among the jobs that `ip` owes or has completed. -/
def State.copiesOfShard (s : State Sh) (shard : Sh) (ip : Str) : Nat :=
  s.mapDone.count (ip, shard) + (s.calls.filterMap Call.mapJob).count (ip, shard)

/-- `ip` has completed the partition, or owes it. -/
def State.HasPartition (s : State Sh) (partition : Int) (ip : Str) : Prop :=
  (ip, partition) ∈ s.reduceDone ∨ (ip, partition) ∈ s.calls.filterMap Call.reduceJob

/-- What the pool of partitions keeps when nothing is sent a second time without need. -/
structure ReduceBooks (p : Pool Str Int) : Prop where
  once : Once p
  known : Known p
  nodup : p.jobs.Nodup

omit [DecidableEq Sh] in
theorem reduceBooks_reach (hok : ∀ a s, ok a s → RequeuesWork .reduce a s)
    (h : ReachVia (system spec) ok s) : ReduceBooks (reduceView.pool s) := by
  refine reduce_invariant ?_ ?_ (h.mono hok)
  · exact ⟨once_init _ _, known_init _ _ _, Multiset.nodup_zero⟩
  · intro s a b p _ hok hb hp hs
    refine ⟨once_step hp.once hs (hb.notAgain hok), known_step hp.known hs, ?_⟩
    cases hs with
    | load _ _ => exact hb.2
    | _ => exact hp.nodup

/-- When a shard is sent, the live workers that owe it or have completed it are fewer than its
copies in the list of shards: none, if the list has it once. When a partition is sent, no worker has
ever had it. -/
theorem no_job_dispatched_twice
    (h : ReachVia (system spec) (fun a s => ∀ ph, RequeuesWork ph a s) s) :
    (∀ i ip shard, s.run = .send .map i ip → s.master.shards[i]? = some shard →
      ∑ ip ∈ spec.workers.toFinset.filter s.Live, s.copiesOfShard shard ip < spec.shards.count shard) ∧
    (∀ i ip partition, s.run = .send .reduce i ip → s.master.partitions[i]? = some partition →
      ∀ ip', ¬ s.HasPartition partition ip') := by
  have hg := grounded_reach h
  refine ⟨fun i ip shard hrun hshard => ?_, fun i ip partition hrun hpartition ip' hhas => ?_⟩
  · have hmap := hg.mapping (by rw [hrun]; rfl)
    have hp := mapBooks_reach (fun _ _ hok => hok .map) h hmap
    have hlt := fresh hp.recorded hp.conserved (mem_pendingShards hrun hshard)
    have hjobs : ((mapView spec).pool s).jobs.count shard = spec.shards.count shard :=
      Multiset.coe_count shard spec.shards
    rw [hjobs] at hlt
    refine lt_of_eq_of_lt (Finset.sum_congr ?_ fun ip _ => ?_) hlt
    · exact Finset.filter_congr fun ip _ => View.live_iff.symm
    · rw [count_jobsOf, count_jobsOf]
      simp only [State.copiesOfShard, View.pool, mapView, Multiset.coe_count]
      congr! 2 <;> exact lawful_beq_subsingleton _ _
  · have hp := reduceBooks_reach (fun _ _ hok => hok .reduce) h
    refine hp.once.notMem_sent hp.nodup (mem_pendingPartitions hrun hpartition) ip' ?_
    rcases hhas with hdone | hcall
    · exact hp.known.done _ hdone
    · exact hp.known.calls _ hcall

theorem no_job_dispatched_twice_of_rescue : ∃ s : State Nat, s.run = .send .map 0 [2] ∧
    s.copiesOfShard 0 [2] = 0 := by
  obtain ⟨s, hs, hrun, hshard⟩ :
      ∃ s ∈ execVia (system (smallSpec 1 [0])) (fun a s => RequeuesWork .map a s ∧ RequeuesWork .reduce a s)
        rescue (system (smallSpec 1 [0])).init,
      s.run = .send .map 0 [2] ∧ s.master.shards[0]? = some 0 ∧ s.Live [2] := by
    decide +kernel
  have hreach := (reachVia_execVia _ .init hs).mono fun a s hok => show ∀ ph, RequeuesWork ph a s by
    rintro (_ | _)
    · exact hok.1
    · exact hok.2
  have hlt := (no_job_dispatched_twice hreach).1 0 [2] 0 hrun hshard.1
  have hmem : [2] ∈ (smallSpec 1 [0]).workers.toFinset.filter s.Live :=
    Finset.mem_filter.mpr ⟨by decide, hshard.2⟩
  have hle := Finset.single_le_sum (f := s.copiesOfShard 0) (fun _ _ => Nat.zero_le _) hmem
  refine ⟨s, hrun, ?_⟩
  have hone : (smallSpec 1 [0]).shards.count 0 = 1 := by decide
  omega

/-- Worker 1 has completed shard 0 and is live when shard 0 is sent to worker 3. -/
theorem shard_dispatched_twice : ∃ s : State Nat, Reach (system (smallSpec 3 [0, 1])) s ∧
    s.run = .send .map 0 [3] ∧ s.master.shards[0]? = some 0 ∧ s.Live [3] ∧
    s.Live [1] ∧ ([1], 0) ∈ s.mapDone := by
  obtain ⟨s, hs, htwice⟩ :
      ∃ s ∈ exec (system (smallSpec 3 [0, 1])) resend (system (smallSpec 3 [0, 1])).init,
      s.run = .send .map 0 [3] ∧ s.master.shards[0]? = some 0 ∧ s.Live [3] ∧
        s.Live [1] ∧ ([1], 0) ∈ s.mapDone := by
    decide +kernel
  exact ⟨s, reach_exec _ .init hs, htwice⟩

/-! ## No job is lost -/

/-- An error for a job of the phase is consumed only when its worker has been dropped, and no worker
is dropped that was sent a partition. -/
def LosesNothing (a : Action) (s : State Sh) : Prop :=
  match a with
  | .poll k => ∀ c ∈ s.calls[k]?, c.status = some false →
      (s.master.mapComplete = false ∨ c.reduceJob.isSome) → ¬ s.Live c.workerIpAddr
  | .pong k false => ∀ ip ∈ s.pings[k]?, ∀ x ∈ s.reduceSent, x.1 ≠ ip
  | _ => True

instance (a : Action) (s : State Sh) : Decidable (LosesNothing a s) :=
  match a with
  | .poll k => inferInstanceAs (Decidable (∀ c ∈ s.calls[k]?, _))
  | .pong k false => inferInstanceAs (Decidable (∀ ip ∈ s.pings[k]?, _))
  | .pong _ true | .run _ | .mkdirFails | .resume | .monitor | .respond _ _ => .isTrue trivial

omit [DecidableEq Sh] in
theorem MapStep.safe {b : Act Str Sh} (hmap : s.master.mapComplete = false) (hb : MapStep s a b)
    (hok : LosesNothing a s) :
    b.Safe true ((mapView spec).pool s) := by
  cases b with
  | error ip shard =>
    obtain ⟨k, rfl, hcall⟩ := hb
    exact fun hlive => hok _ hcall rfl (.inl hmap) (View.live_iff.mp hlive)
  | drop ip => exact .inl rfl
  | _ => trivial

omit [DecidableEq Sh] in
theorem ReduceStep.safe {b : Act Str Int} (hb : ReduceStep s a b) (hok : LosesNothing a s) :
    b.Safe false (reduceView.pool s) := by
  cases b with
  | error ip partition =>
    obtain ⟨k, files, rfl, hcall⟩ := hb
    exact fun hlive => hok _ hcall rfl (.inr rfl) (View.live_iff.mp hlive)
  | drop ip =>
    obtain ⟨k, rfl, hping⟩ := hb
    refine .inr fun partition hsent => ?_
    obtain ⟨x, hx, heq⟩ := List.mem_map.mp (hsent : (ip, partition) ∈ s.reduceSent.map _)
    exact hok ip hping x hx (congrArg Prod.fst heq)
  | _ => trivial

theorem mapCovered_reach (h : ReachVia (system spec) LosesNothing s)
    (hmap : s.master.mapComplete = false) : Covered ((mapView spec).pool s) := by
  have hall : Recorded ((mapView spec).pool s) ∧ Known ((mapView spec).pool s) ∧
      Covered ((mapView spec).pool s) := by
    refine map_invariant (I := fun p => Recorded p ∧ Known p ∧ Covered p) ?_ ?_ h hmap
    · exact ⟨recorded_init _ _ _, known_init _ _ _, covered_init _ _ _⟩
    · rintro s a b p hmap hok hb ⟨hr, hk, hc⟩ hs
      exact ⟨recorded_step hr hs, known_step hk hs,
        covered_step (fun _ => hr) hk hc hs (hb.safe hmap hok)⟩
  exact hall.2.2

omit [DecidableEq Sh] in
theorem reduceCovered_reach (h : ReachVia (system spec) LosesNothing s) :
    Covered (reduceView.pool s) := by
  have hall : Known (reduceView.pool s) ∧ Covered (reduceView.pool s) := by
    refine reduce_invariant (I := fun p => Known p ∧ Covered p) ?_ ?_ h
    · exact ⟨known_init _ _ _, covered_init _ _ _⟩
    · rintro s a b p - hok hb ⟨hk, hc⟩ hs
      exact ⟨known_step hk hs, covered_step (by simp) hk hc hs (hb.safe hok)⟩
  exact hall.2

end AdvancedOS.MapReduce
