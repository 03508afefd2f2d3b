import AdvancedOS.MapReduce.ClusterJob
import AdvancedOS.MapReduce.Tidy

/-!
# What a cluster delivers

`run` removes the intermediate files in its last step, and after that step nothing happens any more: no call is
left and every worker is idle. So the results of the job carry over to the cluster.

* `reach_cases`: a reached state refines a state of the job, or comes from one by the removal.
* `cluster_delivers`: past the second join every emitted key has been reduced once, with all its values.
* `cluster_cleans_up`: when `run` has returned, only output files are left on the disk.
-/

namespace AdvancedOS.MapReduce.Cluster

open Lines Lts Lists Grouping WorkPool EndToEnd

variable {I : Input} {m : Mapper} {s t u : State} {p : MapReduce.State FileShard} {a : Action} {k : Nat}
  {c : Call FileShard} {w : Str}

/-! ## The end of a run -/

/-- Past the second join no call is left. -/
theorem Sound.no_calls (h : Sound I p) (hend : p.run.mode = .finished) : p.calls = [] := by
  have hover : p.master.Closed .reduce := by
    have hcontrol := h.orderly.control
    rw [hend] at hcontrol
    exact hcontrol.1
  have hmaps := (h.orderly.map_counted h.grounded hover.map).2.1
  have hstage : p.run.stage = .reducing := by
    cases hrun : p.run <;> rw [hrun] at hend <;> first | rfl | cases hend
  have hcount : (reduceView.pool p).count = (reduceView.pool p).jobs.card := by
    rw [h.filed.card_jobs hstage]
    have htotal := hover.reduce rfl
    have hnum := h.grounded.numPartitions
    exact htotal.trans (congrArg Nat.cast hnum)
  have hreduces : p.calls.filterMap Call.reduceJob = [] :=
    (Multiset.coe_eq_zero _).mp (h.orderly.reduces.complete hcount).2.1
  by_contra hne
  obtain ⟨c, hc⟩ := List.exists_mem_of_ne_nil _ hne
  have hmap := List.filterMap_eq_nil_iff.mp hmaps c hc
  have hreduce := List.filterMap_eq_nil_iff.mp hreduces c hc
  obtain ⟨ip, job, status⟩ := c
  cases job with
  | map _ => cases hmap
  | reduce _ _ => cases hreduce

theorem Attended.all_idle (h : Attended s) (hcalls : s.process.calls = []) (w : Str) : s.workers w = .idle :=
  h.idle (by rw [hcalls]; exact List.not_mem_nil)

/-- Past the second join the job is done. -/
theorem Attended.done (h : Attended s) (hsound : Sound I s.process) (hend : s.process.run.mode = .finished) :
    s.job.Done I := by
  have hcalls := hsound.no_calls hend
  have hover : s.process.master.Closed .reduce ∧ s.process.run.stage = .reducing := by
    have hcontrol := hsound.orderly.control
    rw [hend] at hcontrol
    refine ⟨hcontrol.1, ?_⟩
    cases hrun : s.process.run <;> rw [hrun] at hend <;> first | rfl | cases hend
  obtain ⟨hpending, -, -⟩ := hsound.orderly.map_counted hsound.grounded hover.1.map
  obtain ⟨hparts, -⟩ :=
    reduce_counted hsound.grounded hsound.orderly hsound.filed hover.2 (hover.1.reduce rfl)
  refine ⟨⟨?_, fun w _ => ?_⟩, fun n hn => ?_⟩
  · show s.process.calls.filterMap _ ++ s.process.run.pendingShards s.process.master.shards = []
    rw [hcalls, hpending]
    rfl
  · show (s.jobWorker w).isIdle = true
    rw [jobWorker_of_idle (h.all_idle hcalls w), hcalls]
    rfl
  · have hreduces := h.reduces
    rw [hcalls, List.filterMap_nil, List.append_nil] at hreduces
    have hmem : (n : Int) ∈ s.reduced.map fun x => (x.1 : Int) := by
      refine (hreduces.trans hparts).mem_iff.mpr (List.mem_map.mpr ⟨n, List.mem_range.mpr hn, rfl⟩)
    obtain ⟨x, hx, heq⟩ := List.mem_map.mp hmem
    exact List.mem_map.mpr ⟨x, hx, Int.ofNat_inj.mp heq⟩

theorem finished_of_returned (h : hasReturned p.run = true) : p.run = .returned ∧ p.run.mode = .finished := by
  cases hrun : p.run <;> rw [hrun] at h <;> first | exact ⟨rfl, rfl⟩ | cases h

/-! ## The removal -/

/-- `s` is `u` after `run` has removed the intermediate files. -/
structure Swept (u s : State) : Prop where
  before : u.process.run = .joinMonitor
  after : hasReturned s.process.run = true
  disk : s.disk = removeAll u.process.master.intermediateFiles u.disk
  reduced : s.reduced = u.reduced

theorem run_eq_of_worker (hs : (cluster I m).next a s = some t) (ha : ∀ b, a ≠ .master b) :
    t.process.run = s.process.run := by
  cases a with
  | master b => exact absurd rfl (ha b)
  | accept k =>
    simp only [cluster, Cluster.accept] at hs
    split at hs
    · split at hs <;> cases hs
      rfl
    · cases hs
  | turn w =>
    simp only [cluster, Cluster.turn] at hs
    split at hs
    · split at hs <;> cases hs <;> rfl
    · cases hs
  | respond k =>
    simp only [cluster, Cluster.respond] at hs
    split at hs
    · next hcall =>
      split at hs
      · obtain ⟨process, hnext, rfl⟩ := Option.map_eq_some_iff.mp hs
        obtain rfl := respond_next hcall hnext
        rfl
      · cases hs
    · cases hs
  | reduce k =>
    simp only [cluster, Cluster.reduce] at hs
    split at hs
    · next hcall =>
      split at hs
      · split at hs
        · cases hs
          rfl
        · obtain ⟨process, hnext, rfl⟩ := Option.map_eq_some_iff.mp hs
          obtain rfl := respond_next hcall hnext
          rfl
      · cases hs
    · cases hs

/-- The step after which `run` has returned is the removal. -/
theorem swept_of_next (hshards : I.shards ≠ []) (hr : Reach (cluster I m) s) (hs : (cluster I m).next a s = some t)
    (hbefore : hasReturned s.process.run = false) (hafter : hasReturned t.process.run = true) : Swept s t := by
  have hsound := sound_reach hshards hr
  cases a with
  | master a =>
    obtain ⟨hby, hs⟩ := Option.ite_none_right_eq_some.mp hs
    obtain ⟨process, hnext, rfl⟩ := Option.map_eq_some_iff.mp hs
    have heffect := effect_of_move hsound.grounded hsound.orderly (move_of_next hnext) hby
    generalize hl : ledger process = l at heffect
    have hreturned : hasReturned process.run = l.returned := congrArg Ledger.returned hl
    cases heffect with
    | remove hrun =>
      have hremoved : process.removed = s.process.removed ++ s.process.master.intermediateFiles :=
        congrArg Ledger.removed hl
      refine ⟨hrun, hafter, ?_, rfl⟩
      simp only [State.advance, hremoved, List.drop_left]
    | _ => exact absurd (hafter.symm.trans (hreturned.trans hbefore)) (by decide)
  | _ => exact absurd (hafter.symm.trans ((congrArg hasReturned (run_eq_of_worker hs (by simp))).trans hbefore)) (by decide)

/-- After the removal nothing changes any more. -/
theorem still_of_returned (hshards : I.shards ≠ []) (hr : Reach (cluster I m) s)
    (hs : (cluster I m).next a s = some t) (hrun : hasReturned s.process.run = true) :
    hasReturned t.process.run = true ∧ t.disk = s.disk ∧ t.reduced = s.reduced := by
  have hsound := sound_reach hshards hr
  obtain ⟨hreturned, hend⟩ := finished_of_returned hrun
  have hcalls := hsound.no_calls hend
  have hidle := (attended_reach hshards hr).all_idle hcalls
  cases a with
  | master a =>
    obtain ⟨hby, hs⟩ := Option.ite_none_right_eq_some.mp hs
    obtain ⟨process, hnext, rfl⟩ := Option.map_eq_some_iff.mp hs
    have heffect := effect_of_move hsound.grounded hsound.orderly (move_of_next hnext) hby
    generalize hl : ledger process = l at heffect
    cases heffect with
    | quiet =>
      have hremoved : process.removed = s.process.removed := congrArg Ledger.removed hl
      have hsame : hasReturned process.run = hasReturned s.process.run := congrArg Ledger.returned hl
      refine ⟨hsame.trans hrun, ?_, rfl⟩
      simp [State.advance, hremoved, removeAll_nil]
    | sendMap hsend _ | sendReduce hsend | remove hsend => cases hreturned.symm.trans hsend
    | acceptMap hcall | acceptReduce hcall => simp [hcalls] at hcall
  | accept k => simp [cluster, Cluster.accept, hcalls] at hs
  | turn w => simp [cluster, Cluster.turn, hidle w] at hs
  | respond k => simp [cluster, Cluster.respond, hcalls] at hs
  | reduce k => simp [cluster, Cluster.reduce, hcalls] at hs

theorem reach_cases (hshards : I.shards ≠ []) (h : Reach (cluster I m) s) :
    (hasReturned s.process.run = false ∧ ReachVia (cluster I m) (Keeps I m) s) ∨
      ∃ u, ReachVia (cluster I m) (Keeps I m) u ∧ Swept u s := by
  induction h with
  | init => exact .inl ⟨rfl, .init⟩
  | @step s t a hr _ hs ih =>
    rcases ih with ⟨hrun, hvia⟩ | ⟨u, hu, hswept⟩
    · cases hafter : hasReturned t.process.run with
      | false =>
        refine .inl ⟨rfl, .step hvia (fun t' ht' => ?_) hs⟩
        rw [← Option.some.inj (hs.symm.trans ht')]
        exact hafter
      | true => exact .inr ⟨s, hvia, swept_of_next hshards hr hs hrun hafter⟩
    · obtain ⟨hafter, hdisk, hreduced⟩ := still_of_returned hshards hr hs hswept.after
      exact .inr ⟨u, hu, hswept.before, hafter, hdisk.trans hswept.disk, hreduced.trans hswept.reduced⟩

/-! ## What is delivered -/

/-- A job before the removal, with what is known of it. -/
theorem kept_of_via (hshards : I.shards ≠ []) (h : ReachVia (cluster I m) (Keeps I m) u) :
    ∃ log, Kept I m u.job log :=
  kept_reach ((jobRefinement I m hshards).reach h)

/-- The removal leaves the output files alone. -/
theorem Swept.output {log : Str → List (Str × Str)} (h : Swept u s) (hkept : Kept I m u.job log) (n : Nat) :
    s.disk (outputFile I.outputDir n) = u.disk (outputFile I.outputDir n) := by
  rw [h.disk, removeAll, if_neg fun hmem => ?_]
  obtain ⟨w, -, q, -, hname⟩ := hkept.named _ hmem
  exact outputFile_ne hname.symm

/-- `Reduced` depends on the calls and the output files only. -/
theorem reduced_congr {j j' : EndToEnd.State} (h : Reduced I m j) (hreduced : j'.reduced = j.reduced)
    (hdisk : ∀ n : Nat, j'.disk (outputFile I.outputDir n) = j.disk (outputFile I.outputDir n)) : Reduced I m j' := by
  have hcalls : j'.calls = j.calls := by rw [EndToEnd.State.calls, hreduced, EndToEnd.State.calls]
  exact ⟨fun key hkey => hcalls ▸ h.once key hkey, fun c hc => h.only c (hcalls ▸ hc),
    fun n hn => by rw [hdisk, hcalls]; exact h.output n hn⟩

theorem mode_finished (hend : p.run = .stop ∨ p.run = .joinMonitor ∨ p.run = .returned) : p.run.mode = .finished := by
  rcases hend with hrun | hrun | hrun <;> rw [hrun] <;> rfl

/-- The job of a reached state before the removal. -/
theorem job_delivered (hshards : I.shards ≠ []) (hfit : I.RangesFit) (hshort : ShortKeys I m)
    (h : ReachVia (cluster I m) (Keeps I m) u) : Delivered I m u.job := by
  obtain ⟨log, hkept⟩ := kept_of_via hshards h
  exact hkept.delivered hfit fun x hx => hshort x (hfit.readPairs_eq ▸ hx)

theorem job_reduced (hshards : I.shards ≠ []) (hfit : I.RangesFit) (hshort : ShortKeys I m)
    (h : ReachVia (cluster I m) (Keeps I m) u) (hend : u.process.run.mode = .finished) : Reduced I m u.job := by
  have hr := h.reach
  exact (job_delivered hshards hfit hshort h).reduced
    ((attended_reach hshards hr).done (sound_reach hshards hr) hend)

/-- Past the second join the whole job has been done. -/
theorem reduced_of_finished (hshards : I.shards ≠ []) (hfit : I.RangesFit) (hshort : ShortKeys I m)
    (h : Reach (cluster I m) s) (hend : s.process.run.mode = .finished) : Reduced I m s.job := by
  rcases reach_cases hshards h with ⟨-, hvia⟩ | ⟨u, hu, hswept⟩
  · exact job_reduced hshards hfit hshort hvia hend
  · obtain ⟨log, hkept⟩ := kept_of_via hshards hu
    have hreduced := job_reduced hshards hfit hshort hu (by rw [hswept.before]; rfl)
    exact reduced_congr hreduced hswept.reduced (hswept.output hkept)

/-- A job without failures: no job ever throws, and past the second join of `run` every emitted key has been reduced
once, with all its values, and the output files have what the reducer emitted. -/
theorem cluster_delivers (hshards : I.shards ≠ []) (hfit : I.RangesFit) (hshort : ShortKeys I m)
    (h : Reach (cluster I m) s) :
    (∀ w job, s.workers w ≠ .crashed job) ∧ (∀ x ∈ s.reduced, x.2.isSome) ∧
      (s.process.run = .stop ∨ s.process.run = .joinMonitor ∨ s.process.run = .returned → Reduced I m s.job) := by
  refine ⟨?_, ?_, fun hend => reduced_of_finished hshards hfit hshort h (mode_finished hend)⟩
  · intro w job hcrash
    rcases reach_cases hshards h with ⟨-, hvia⟩ | ⟨u, -, hswept⟩
    · obtain ⟨log, hkept⟩ := kept_of_via hshards hvia
      refine hfit.no_crash hkept w job ?_
      show s.jobWorker w = _
      rw [State.jobWorker, hcrash]
    · have hcalls := (sound_reach hshards h).no_calls (finished_of_returned hswept.after).2
      rw [(attended_reach hshards h).all_idle hcalls w] at hcrash
      cases hcrash
  · intro x hx
    rcases reach_cases hshards h with ⟨-, hvia⟩ | ⟨u, hu, hswept⟩
    · exact (job_delivered hshards hfit hshort hvia).no_exception x hx
    · rw [hswept.reduced] at hx
      exact (job_delivered hshards hfit hshort hu).no_exception x hx

/-- One worker does one shard, in so many turns, and one partition, and `run` returns. -/
def oneShardRun (turns : Nat) : List Action :=
  (startUp 1 ++ List.replicate 4 (MapReduce.Action.run [])).map .master ++ [.accept 0] ++
    List.replicate turns (.turn (str "localhost:50051")) ++ [.respond 0] ++
    ([.poll 0, .run [], .run [], .monitor, .run [], .run [], .run [], .resume, .run [0], .run [], .run [],
      .run [], .run []] : List MapReduce.Action).map .master ++ [.reduce 0] ++
    ([.poll 0, .run [], .run [], .monitor, .monitor, .pong 0 true, .monitor, .monitor, .monitor, .run [], .run [],
      .run [], .resume, .run [], .run [], .monitor, .monitor, .monitor, .run []] : List MapReduce.Action).map .master

theorem shortKeys_oneLine : ShortKeys EndToEnd.oneLine (keyMapper 3 (by decide)) := by
  intro x hx
  rw [inputPairs_oneLine] at hx
  obtain rfl := List.mem_singleton.mp hx
  decide

theorem cluster_delivers_one_line : ∃ s : State, s.process.run = .returned ∧
    Reduced EndToEnd.oneLine (keyMapper 3 (by decide)) s.job ∧ s.disk (str "output/0") = some (str "aaa \n") := by
  obtain ⟨s, hs, hrun, hdisk⟩ :
      ∃ s ∈ exec (cluster EndToEnd.oneLine (keyMapper 3 (by decide))) (oneShardRun 4)
        (cluster EndToEnd.oneLine (keyMapper 3 (by decide))).init,
      s.process.run = .returned ∧ s.disk (str "output/0") = some (str "aaa \n") := by
    decide +kernel
  obtain ⟨-, -, hreduced⟩ :=
    cluster_delivers (by decide) rangesFit_oneLine shortKeys_oneLine (reach_exec _ .init hs)
  exact ⟨s, hrun, hreduced (.inr (.inr hrun)), hdisk⟩

/-! ## What is left behind -/

/-- When `run` has returned, the output files are the only files of the job on the disk, so that `intermediate/` is empty
and `rmdir` removes it; no call is left, and every worker is idle. -/
theorem cluster_cleans_up (hshards : I.shards ≠ []) (h : Reach (cluster I m) s) (hrun : s.process.run = .returned) :
    (∀ f, (s.disk f).isSome → ∃ n < I.nOutputFiles, f = outputFile I.outputDir n) ∧
      s.process.calls = [] ∧ ∀ w, s.workers w = .idle := by
  have hcalls := (sound_reach hshards h).no_calls (mode_finished (.inr (.inr hrun)))
  refine ⟨fun f hf => ?_, hcalls, (attended_reach hshards h).all_idle hcalls⟩
  rcases reach_cases hshards h with ⟨hnot, -⟩ | ⟨u, hu, hswept⟩
  · rw [hrun] at hnot
    cases hnot
  · have hr := hu.reach
    have hmapped := ((attended_reach hshards hr).done (sound_reach hshards hr) (by rw [hswept.before]; rfl)).1
    have htidy := tidy_reach ((jobRefinement I m hshards).reach hu)
    rw [hswept.disk, removeAll] at hf
    split at hf
    · cases hf
    · next hnot => exact (htidy.known hmapped hf).resolve_right hnot

theorem cluster_cleans_up_one_line : ∃ s : State, s.process.run = .returned ∧
    (s.disk (str "output/0")).isSome ∧ ∀ f, (s.disk f).isSome → f = str "output/0" := by
  obtain ⟨s, hs, hrun, hdisk⟩ :
      ∃ s ∈ exec (cluster EndToEnd.oneLine (keyMapper 3 (by decide))) (oneShardRun 4)
        (cluster EndToEnd.oneLine (keyMapper 3 (by decide))).init,
      s.process.run = .returned ∧ (s.disk (str "output/0")).isSome := by
    decide +kernel
  refine ⟨s, hrun, hdisk, fun f hf => ?_⟩
  obtain ⟨n, hn, rfl⟩ := (cluster_cleans_up (by decide) (reach_exec _ .init hs) hrun).1 f hf
  obtain rfl : n = 0 := Nat.lt_one_iff.mp hn
  decide

end AdvancedOS.MapReduce.Cluster
