import AdvancedOS.MapReduce.ClusterRun
import AdvancedOS.MapReduce.Progress

/-!
# A cluster comes to an end

In a job without failures in which `poll_workers` takes the last answer of a phase only when `run` has set the flag,
whatever has been done can be continued until `run` returns. `run`, `poll_workers` and the workers do a bounded
number of steps in all, so that only rounds of `monitor` can go on for ever.

* `weight_step`: every step that is not one of `monitor` leaves less to do.
* `cluster_goes_on`: until `run` returns, some step brings it nearer.
* `cluster_completes`: every run comes to an end, with all keys reduced.
-/

namespace AdvancedOS.MapReduce.Cluster

open Lines Lts Lists Grouping WorkPool EndToEnd

variable {I : Input} {m : Mapper} {s t u : State} {p : MapReduce.State FileShard} {a : Action} {k : Nat}
  {c : Call FileShard} {w : Str}

/-! ## The steps -/

/-- The steps of the master are in time. -/
def Punctual (a : Action) (s : State) : Prop :=
  match a with
  | .master b => Timely b s.process
  | _ => True

instance (a : Action) (s : State) : Decidable (Punctual a s) :=
  match a with
  | .master b => inferInstanceAs (Decidable (Timely b s.process))
  | .accept _ | .turn _ | .respond _ | .reduce _ => .isTrue trivial

def Action.ofMonitor : Action → Bool
  | .master b => b.ofMonitor
  | _ => false

theorem timely_respond (k : Nat) (p : MapReduce.State FileShard) : Timely (.respond k true) p := ⟨rfl, by simp, trivial⟩

/-- The master's process in a run of the cluster that is in time. -/
theorem going_of_reach (hshards : I.shards ≠ []) (h : ReachVia (cluster I m) Punctual s) :
    Going (spec I) s.process := by
  classical
  refine h.invariant (I := fun s => Going (spec I) s.process) (going_init (spec I) hshards)
    fun {s t a} _ hi hok hs => ?_
  rcases process_cases I m hs with hsame | ⟨b, ⟨rfl, -⟩ | ⟨-, k, rfl⟩, hnext⟩
  · rw [hsame]
    exact hi
  · exact going_next hshards hi hok hnext
  · exact going_next hshards hi (timely_respond k _) hnext

/-- The steps that are left, without those of `monitor`. -/
def State.weight (I : Input) (m : Mapper) (s : State) : Nat :=
  s.process.work I.nOutputFiles + s.job.weight I m

theorem job_weight_congr (hcalls : p.calls = s.process.calls)
    (hleft : (ledger p).shardsLeft = (ledger s.process).shardsLeft) :
    (s.advance p).job.weight I m = s.job.weight I m := by
  have hworkers : (s.advance p).jobWorker = s.jobWorker := jobWorker_advance fun w => by rw [hcalls]
  have hpending : (s.advance p).job.pending = s.job.pending := by
    show p.calls.filterMap (mapLeft s.workers) ++ (ledger p).shardsLeft = _
    rw [hcalls, hleft]
    rfl
  unfold EndToEnd.State.weight
  rw [hpending]
  simp only [State.job, hworkers]
  rfl

/-- A step of the master's process leaves the workers no more to do. -/
theorem job_weight_master (hshards : I.shards ≠ []) (hr : Reach (cluster I m) s) {b : MapReduce.Action}
    (hs : (cluster I m).next (.master b) s = some t) : t.job.weight I m ≤ s.job.weight I m := by
  have hsound := sound_reach hshards hr
  obtain ⟨hby, hs⟩ := Option.ite_none_right_eq_some.mp hs
  obtain ⟨process, hnext, rfl⟩ := Option.map_eq_some_iff.mp hs
  have heffect := effect_of_move hsound.grounded hsound.orderly (move_of_next hnext) hby
  cases hreturned : hasReturned process.run with
  | false =>
    rcases job_master (attended_reach hshards hr) hsound heffect hreturned with hsame | ⟨w, hw, hanswer⟩
    · rw [hsame]
    · exact Nat.le_of_lt (weight_answer hw hanswer)
  | true =>
    generalize hl : ledger process = l at heffect
    have hcalls := congrArg Ledger.calls hl
    have hleft := congrArg Ledger.shardsLeft hl
    have hover : hasReturned process.run = l.returned := congrArg Ledger.returned hl
    rw [hreturned] at hover
    cases heffect with
    | quiet | remove _ => exact Nat.le_of_eq (job_weight_congr hcalls hleft)
    | sendMap hsend _ | sendReduce hsend =>
      simp only [ledger, hsend] at hover
      cases hover
    | acceptMap hcall | acceptReduce hcall =>
      have hnone := hsound.no_calls (finished_of_returned hover.symm).2
      simp [hnone] at hcall

/-- A worker's step leaves less to do: for the workers, or an answer less to come. -/
theorem weight_worker (hshards : I.shards ≠ []) (hr : Reach (cluster I m) s) (hs : (cluster I m).next a s = some t)
    (ha : ∀ b, a ≠ .master b) :
    t.job.weight I m < s.job.weight I m ∨
      t.job = s.job ∧ ∃ k, s.process.next (.respond k true) = some t.process := by
  have hsound := sound_reach hshards hr
  have h := attended_reach hshards hr
  -- the run has not returned: there would be no call
  obtain ⟨hrun, hvia⟩ : hasReturned s.process.run = false ∧ ReachVia (cluster I m) (Keeps I m) s := by
    rcases reach_cases hshards hr with hvia | ⟨u, hu, hswept⟩
    · exact hvia
    · have hcalls := hsound.no_calls (finished_of_returned hswept.after).2
      have hidle := h.all_idle hcalls
      cases a with
      | master b => exact absurd rfl (ha b)
      | accept k => simp [cluster, Cluster.accept, hcalls] at hs
      | turn w => simp [cluster, Cluster.turn, hidle w] at hs
      | respond k => simp [cluster, Cluster.respond, hcalls] at hs
      | reduce k => simp [cluster, Cluster.reduce, hcalls] at hs
  have hjob := (jobRefinement I m hshards).reach hvia
  cases a with
  | master b => exact absurd rfl (ha b)
  | accept k =>
    obtain ⟨w, hw, i, hassign⟩ := job_accept hsound hs
    exact .inl (weight_assign hw hassign)
  | turn w =>
    obtain ⟨hw, hturn⟩ := job_turn h hsound hs
    refine .inl (weight_less (a := .turn w) hjob ((if_pos hw).trans hturn))
  | reduce k =>
    obtain ⟨n, hreduce⟩ := job_reduce h hsound hs
    exact .inl (weight_less (a := .reduce n) hjob hreduce)
  | respond k =>
    refine .inr ⟨job_respond hsound hs, k, ?_⟩
    simp only [cluster, Cluster.respond] at hs
    split at hs
    · split at hs
      · obtain ⟨process, hnext, rfl⟩ := Option.map_eq_some_iff.mp hs
        exact hnext
      · cases hs
    · cases hs

theorem weight_step (hshards : I.shards ≠ []) (h : ReachVia (cluster I m) Punctual s) (hok : Punctual a s)
    (hs : (cluster I m).next a s = some t) :
    t.weight I m + (if !a.ofMonitor then 1 else 0) ≤ s.weight I m := by
  have hr := h.reach
  have hgoing := going_of_reach hshards h
  have hless : ∀ {b q}, b.ofMonitor = false → Timely b s.process → s.process.next b = some q →
      q.work I.nOutputFiles < s.process.work I.nOutputFiles := fun hof htimely hnext =>
    work_less hgoing hshards htimely (move_of_next hnext) (hgoing.alive_next htimely hnext) hof
  unfold State.weight
  cases a with
  | master b =>
    have hjob := job_weight_master hshards hr hs
    obtain ⟨-, hs⟩ := Option.ite_none_right_eq_some.mp hs
    obtain ⟨process, hnext, rfl⟩ := Option.map_eq_some_iff.mp hs
    cases hof : b.ofMonitor with
    | true =>
      have hsame := work_monitor (n := I.nOutputFiles) hok (move_of_next hnext) hof
      simp only [Action.ofMonitor, hof]
      show process.work _ + _ + 0 ≤ _
      omega
    | false =>
      have hwork := hless hof hok hnext
      simp only [Action.ofMonitor, hof]
      show process.work _ + _ + 1 ≤ _
      omega
  | accept _ | turn _ | respond _ | reduce _ =>
    have hwork : t.process.work I.nOutputFiles ≤ s.process.work I.nOutputFiles := by
      rcases process_cases I m hs with hsame | ⟨b, ⟨hmaster, -⟩ | ⟨-, k, rfl⟩, hnext⟩
      · rw [hsame]
      · cases hmaster
      · exact Nat.le_of_lt (hless rfl (timely_respond k _) hnext)
    show _ + 1 ≤ _
    rcases weight_worker hshards hr hs (by simp) with hjob | ⟨hjob, k, hnext⟩
    · omega
    · have hwork := hless rfl (timely_respond k _) hnext
      rw [hjob]
      omega

/-! ## A call is answered -/

/-- A worker whose reduce job has thrown leaves a trace. -/
theorem threw_reach (h : Reach (cluster I m) s) : ∀ w, s.workers w = .threw → ∃ x ∈ s.reduced, x.2 = none := by
  refine h.invariant (I := fun s => ∀ w, s.workers w = .threw → ∃ x ∈ s.reduced, x.2 = none) (fun _ h => by cases h)
    fun {s t a} _ hi _ hs => ?_
  have hset : ∀ {ip worker}, worker ≠ .threw → ∀ w, (s.setWorker ip worker).workers w = .threw →
      ∃ x ∈ s.reduced, x.2 = none := by
    intro ip worker hne w hw
    simp only [State.setWorker, Function.update_apply] at hw
    split at hw
    · exact absurd hw hne
    · exact hi w hw
  cases a with
  | master b =>
    obtain ⟨-, hs⟩ := Option.ite_none_right_eq_some.mp hs
    obtain ⟨process, -, rfl⟩ := Option.map_eq_some_iff.mp hs
    exact hi
  | accept k =>
    simp only [cluster, Cluster.accept] at hs
    split at hs
    · split at hs <;> cases hs
      exact hset (by simp)
    · cases hs
  | turn w =>
    simp only [cluster, Cluster.turn] at hs
    split at hs
    · split at hs <;> cases hs <;> exact hset (by simp)
    · cases hs
  | respond k =>
    simp only [cluster, Cluster.respond] at hs
    split at hs
    · split at hs
      · obtain ⟨process, -, rfl⟩ := Option.map_eq_some_iff.mp hs
        exact hset (by simp)
      · cases hs
    · cases hs
  | reduce k =>
    simp only [cluster, Cluster.reduce] at hs
    split at hs
    · split at hs
      · split at hs
        · cases hs
          exact fun _ _ => ⟨_, List.mem_append_right _ (List.mem_singleton_self _), rfl⟩
        · obtain ⟨process, -, rfl⟩ := Option.map_eq_some_iff.mp hs
          intro w hw
          obtain ⟨x, hx, hnone⟩ := hi w hw
          exact ⟨x, List.mem_append_left _ hx, hnone⟩
      · cases hs
    · cases hs

/-- The worker of a call that has no answer can take a step. -/
theorem call_goes (hshards : I.shards ≠ []) (hfit : I.RangesFit) (hshort : ShortKeys I m) (hr : Reach (cluster I m) s)
    (halive : s.process.aborted = false) (hcall : s.process.calls[k]? = some c) (hstatus : c.status = none) :
    ∃ a t, (∀ b, a ≠ .master b) ∧ (cluster I m).next a s = some t := by
  have hsound := sound_reach hshards hr
  have h := attended_reach hshards hr
  have hc := List.mem_of_getElem? hcall
  obtain ⟨ip, job, status⟩ := c
  obtain rfl : status = none := hstatus
  have hvia : ReachVia (cluster I m) (Keeps I m) s := by
    rcases reach_cases hshards hr with hvia | ⟨u, -, hswept⟩
    · exact hvia.2
    · rw [hsound.no_calls (finished_of_returned hswept.after).2] at hc
      cases hc
  obtain ⟨q, hq⟩ : ∃ q, s.process.next (.respond k true) = some q := by
    refine Option.isSome_iff_exists.mp ?_
    rw [State.next, if_neg (by rw [halive]; decide)]
    simp [State.respond, hcall]
  cases hworker : s.workers ip with
  | crashed job =>
    obtain ⟨log, hkept⟩ := kept_of_via hshards hvia
    refine absurd ?_ (hfit.no_crash hkept ip job)
    show s.jobWorker ip = _
    rw [State.jobWorker, hworker]
  | threw =>
    obtain ⟨x, hx, hnone⟩ := threw_reach hr ip hworker
    have hsome := (job_delivered hshards hfit hshort hvia).no_exception x hx
    rw [hnone] at hsome
    cases hsome
  | idle =>
    cases job with
    | map shard => exact ⟨.accept k, _, by simp, by simp only [cluster, Cluster.accept, hcall, hworker]; rfl⟩
    | reduce p files =>
      cases hjob : handleReduceJob I.reduce ⟨I.outputDir, p.toNat, files⟩ s.disk with
      | none => exact ⟨.reduce k, _, by simp, by simp only [cluster, Cluster.reduce, hcall, hworker, hjob]; rfl⟩
      | some x => exact ⟨.reduce k, _, by simp, by simp only [cluster, Cluster.reduce, hcall, hworker, hjob, hq]; rfl⟩
  | mapping job' =>
    refine ⟨.turn ip, ?_⟩
    cases hturn : job'.turn I.files I.hash m.map s.disk <;>
      exact ⟨_, by simp, by simp only [cluster, Cluster.turn, hworker, hturn]; rfl⟩
  | mapped =>
    obtain ⟨shard, hmem⟩ := h.maps ip (by rw [hworker]; rfl)
    obtain rfl : job = .map shard := congrArg Call.job (hsound.call_eq hcall hmem rfl).symm
    exact ⟨.respond k, _, by simp, by simp only [cluster, Cluster.respond, hcall, hworker, hq]; rfl⟩

/-! ## A run comes to an end -/

/-- What is left to do, and the steps of `monitor` to the one that `run` waits for. -/
def State.measure (I : Input) (m : Mapper) (s : State) : Nat :=
  (s.process.master.workerIps.length + 9) * s.weight I m + s.process.ahead

theorem measure_lt (hweight : t.weight I m < s.weight I m)
    (hips : t.process.master.workerIps = s.process.master.workerIps) : t.measure I m < s.measure I m := by
  have hle := ahead_le t.process
  have hmul := Nat.mul_le_mul_left (s.process.master.workerIps.length + 9) (Nat.succ_le_of_lt hweight)
  rw [Nat.mul_succ] at hmul
  unfold State.measure
  rw [hips] at hle ⊢
  omega

/-- Until `run` has returned, some step brings it nearer. -/
theorem cluster_goes_on (hshards : I.shards ≠ []) (hfit : I.RangesFit) (hshort : ShortKeys I m)
    (h : ReachVia (cluster I m) Punctual s) : s.process.run = .returned ∨
      ∃ a t, Punctual a s ∧ (cluster I m).next a s = some t ∧ t.measure I m < s.measure I m := by
  have hr := h.reach
  have hgoing := going_of_reach hshards h
  have hips : ∀ {a t}, Punctual a s → (cluster I m).next a s = some t →
      t.process.master.workerIps = s.process.master.workerIps := by
    intro a t hok hs
    rw [(going_of_reach hshards (h.step hok hs)).orderly.ips, hgoing.orderly.ips]
  -- a step that is not one of `monitor`
  have hother : ∀ {a t}, a.ofMonitor = false → Punctual a s → (cluster I m).next a s = some t →
      ∃ a t, Punctual a s ∧ (cluster I m).next a s = some t ∧ t.measure I m < s.measure I m := by
    intro a t hof hok hs
    have hstep := weight_step hshards h hok hs
    rw [hof] at hstep
    exact ⟨a, t, hok, hs, measure_lt (Nat.lt_of_succ_le hstep) (hips hok hs)⟩
  rcases goes_on hgoing with hrun | hwaits | ⟨b, hof, hrespond, htimely, hsome⟩ | ⟨c, hc, hstatus⟩
  · exact .inl hrun
  · obtain ⟨b, q, hof, htimely, hnext, hahead⟩ := monitor_goes_on hgoing hwaits
    have hby : byMaster b = true := by
      cases b with
      | pong k ok =>
        obtain rfl : ok = true := htimely.1
        rfl
      | monitor => rfl
      | _ => cases hof
    have hs : (cluster I m).next (.master b) s = some (s.advance q) :=
      (if_pos hby).trans (congrArg (Option.map s.advance) hnext)
    have hstep := weight_step hshards h (a := .master b) htimely hs
    have hlength := congrArg List.length (hips (a := .master b) htimely hs)
    refine .inr ⟨.master b, s.advance q, htimely, hs, ?_⟩
    have hmul := Nat.mul_le_mul_left (s.process.master.workerIps.length + 9) (Nat.le_of_add_right_le hstep)
    unfold State.measure
    rw [hlength]
    exact Nat.add_lt_add_of_le_of_lt hmul hahead
  · obtain ⟨q, hnext⟩ := Option.isSome_iff_exists.mp hsome
    have hby : byMaster b = true := by
      cases b with
      | respond k ok => exact absurd rfl (hrespond k ok)
      | pong _ _ => cases hof
      | _ => rfl
    exact .inr (hother (a := .master b) hof htimely ((if_pos hby).trans (congrArg (Option.map s.advance) hnext)))
  · obtain ⟨k, hk, rfl⟩ := List.mem_iff_getElem.mp hc
    have hcall := List.getElem?_eq_getElem hk
    obtain ⟨a, t, ha, hs⟩ := call_goes hshards hfit hshort hr hgoing.placed.alive hcall hstatus
    cases a with
    | master b => exact absurd rfl (ha b)
    | accept _ => exact .inr (hother (a := .accept _) rfl trivial hs)
    | turn _ => exact .inr (hother (a := .turn _) rfl trivial hs)
    | respond _ => exact .inr (hother (a := .respond _) rfl trivial hs)
    | reduce _ => exact .inr (hother (a := .reduce _) rfl trivial hs)

theorem work_init : (cluster I m).init.process.work I.nOutputFiles = 4 * (I.shards.length + I.nOutputFiles) + 26 := by
  have hrest : Phase.map.rest I.nOutputFiles = 4 * I.nOutputFiles + 13 := rfl
  show Phase.map.rest I.nOutputFiles + 4 * I.shards.length + 11 + 2 + 0 = _
  omega

end AdvancedOS.MapReduce.Cluster
