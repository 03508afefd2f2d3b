import AdvancedOS.MapReduce.Moves

/-!
# What holds of the master in every run

`Grounded` connects the clients, the pool of workers and the phase that `run` is in: a worker has a
client exactly if it has not been dropped, and then it is in `worker_ips`; `map_complete` is set
between the phases and not before; no reduce job exists before; and no client ever has a partition
on record.
-/

namespace AdvancedOS.MapReduce

open Lts

variable {Sh : Type} {spec : Spec Sh} {s t : State Sh} {a : Action}

/-- How far `run` has come: the shards may still be handed out; the end of a pass over them; they
are done; the partitions are known. -/
inductive Stage
  | mapping
  | mapped
  | joining
  | reducing
  deriving DecidableEq

def Phase.stage : Phase → Stage
  | .map => .mapping
  | .reduce => .reducing

def RunPc.stage : RunPc → Stage
  | .mkdir | .setInitial | .awaitInitial | .resetDropped => .mapping
  | .dispatch ph _ | .send ph _ _ | .setFlag ph | .awaitFlag ph | .setTrigger ph
  | .awaitTrigger ph | .check ph => ph.stage
  | .after .map => .mapped
  | .join .map => .joining
  | .after .reduce | .join .reduce | .stop | .joinMonitor | .returned => .reducing

structure Grounded (spec : Spec Sh) (s : State Sh) : Prop where
  inPool : ∀ ip, (s.master.ipAddr2worker ip).isSome → ip ∈ s.master.workerIps
  notDropped : ∀ ip, (s.master.ipAddr2worker ip).isSome → ip ∉ s.master.droppedWorkerIps
  dropped : ∀ ip ∈ spec.workers, (s.master.ipAddr2worker ip).isSome ∨ ip ∈ s.master.droppedWorkerIps
  numShards : s.master.numShards = spec.shards.length
  numPartitions : s.master.numPartitions = spec.nOutputFiles
  mapping : s.run.stage = .mapping → s.master.mapComplete = false
  mapped : s.run.stage = .joining ∨ s.run.stage = .reducing → s.master.mapComplete = true
  unfinished : s.master.mapComplete = true → s.master.unfinishedShards = []
  noReduce : s.master.mapComplete = false → ∀ c ∈ s.calls, c.reduceJob = none
  noSent : s.master.mapComplete = false → s.reduceSent = []
  noCompleted : s.master.mapComplete = false → ∀ ip client,
    s.master.ipAddr2worker ip = some client → client.completedReduceJobs = 0
  unrecorded : ∀ ip client, s.master.ipAddr2worker ip = some client → client.reducePartitions = []
  notStarted : s.run.stage ≠ .reducing → s.idx2files = [] ∧ s.master.partitions = []

theorem grounded_init (spec : Spec Sh) : Grounded spec (system spec).init where
  inPool ip h := by
    by_contra hip
    simp [system, Master.new, show ip ∉ spec.workers from hip] at h
  notDropped ip _ h := by cases h
  dropped ip hip := .inl (by simp [system, Master.new, hip])
  numShards := rfl
  numPartitions := rfl
  mapping _ := rfl
  mapped h := by rcases h with h | h <;> cases h
  unfinished _ := rfl
  noReduce _ c h := by cases h
  noSent _ := rfl
  noCompleted _ ip client h := by
    simp only [system, Master.new, Option.ite_none_right_eq_some, Option.some.injEq] at h
    rw [← h.2]
    rfl
  unrecorded ip client h := by
    simp only [system, Master.new, Option.ite_none_right_eq_some, Option.some.injEq] at h
    rw [← h.2]
    rfl
  notStarted _ := ⟨rfl, rfl⟩

theorem isSome_update {m : Str → Option (WorkerClient Sh)} {ip : Str} {client client' : WorkerClient Sh}
    (h : m ip = some client) (x : Str) :
    (Function.update m ip (some client') x).isSome = (m x).isSome := by
  by_cases hx : x = ip
  · subst hx; simp [h]
  · simp [hx]

theorem isSome_update_none {m : Str → Option (WorkerClient Sh)} {ip x : Str}
    (h : (Function.update m ip none x).isSome) : x ≠ ip ∧ (m x).isSome := by
  by_cases hx : x = ip
  · subst hx; simp at h
  · exact ⟨hx, by simpa [hx] using h⟩

/-- A worker that is not in the pool has no client. -/
theorem Grounded.client_eq_none (h : Grounded spec s) {ip : Str} (hip : ip ∉ s.master.workerIps) :
    s.master.ipAddr2worker ip = none :=
  Option.not_isSome_iff_eq_none.mp fun hsome => hip (h.inPool ip hsome)

/-- The frame of `Grounded`: a step that leaves the clients and the jobs alone, and the stage. -/
theorem Grounded.frame (h : Grounded spec s) (hstage : t.run.stage = s.run.stage)
    (hcalls : s.master.mapComplete = false → ∀ c ∈ t.calls, c.reduceJob = none)
    (hclients : t.master.ipAddr2worker = s.master.ipAddr2worker := by rfl)
    (hips : t.master.workerIps = s.master.workerIps := by rfl)
    (hdropped : t.master.droppedWorkerIps = s.master.droppedWorkerIps := by rfl)
    (hshards : t.master.numShards = s.master.numShards := by rfl)
    (hnum : t.master.numPartitions = s.master.numPartitions := by rfl)
    (hcomplete : t.master.mapComplete = s.master.mapComplete := by rfl)
    (hunfinished : t.master.unfinishedShards = s.master.unfinishedShards := by rfl)
    (hpartitions : t.master.partitions = s.master.partitions := by rfl)
    (hidx : t.idx2files = s.idx2files := by rfl)
    (hsent : t.reduceSent = s.reduceSent := by rfl) : Grounded spec t where
  inPool := by rw [hclients, hips]; exact h.inPool
  notDropped := by rw [hclients, hdropped]; exact h.notDropped
  dropped := by rw [hclients, hdropped]; exact h.dropped
  numShards := hshards.trans h.numShards
  numPartitions := hnum.trans h.numPartitions
  mapping := by rw [hstage, hcomplete]; exact h.mapping
  mapped := by rw [hstage, hcomplete]; exact h.mapped
  unfinished := by rw [hcomplete, hunfinished]; exact h.unfinished
  noReduce hmap := hcalls (hcomplete ▸ hmap)
  noSent := by rw [hcomplete, hsent]; exact h.noSent
  noCompleted := by rw [hcomplete, hclients]; exact h.noCompleted
  unrecorded := by rw [hclients]; exact h.unrecorded
  notStarted := by rw [hstage, hidx, hpartitions]; exact h.notStarted

/-- A client that is replaced by another one of the same worker. -/
theorem Grounded.update (h : Grounded spec s) {ip : Str} {client client' : WorkerClient Sh}
    (hclient : s.master.ipAddr2worker ip = some client)
    (hclients : t.master.ipAddr2worker = Function.update s.master.ipAddr2worker ip (some client'))
    (hpartitions : client'.reducePartitions = client.reducePartitions)
    (hreduce : s.master.mapComplete = false →
      client'.completedReduceJobs = client.completedReduceJobs)
    (hstage : t.run.stage = s.run.stage)
    (hcalls : s.master.mapComplete = false → ∀ c ∈ t.calls, c.reduceJob = none)
    (hips : t.master.workerIps = s.master.workerIps := by rfl)
    (hdropped : t.master.droppedWorkerIps = s.master.droppedWorkerIps := by rfl)
    (hshards : t.master.numShards = s.master.numShards := by rfl)
    (hnum : t.master.numPartitions = s.master.numPartitions := by rfl)
    (hcomplete : t.master.mapComplete = s.master.mapComplete := by rfl)
    (hunfinished : t.master.unfinishedShards = s.master.unfinishedShards := by rfl)
    (hjobs : t.master.partitions = s.master.partitions := by rfl)
    (hidx : t.idx2files = s.idx2files := by rfl)
    (hsent : t.reduceSent = s.reduceSent := by rfl) : Grounded spec t where
  inPool x hx := by
    rw [hclients, isSome_update hclient] at hx
    rw [hips]
    exact h.inPool x hx
  notDropped x hx := by
    rw [hclients, isSome_update hclient] at hx
    rw [hdropped]
    exact h.notDropped x hx
  dropped x hx := by rw [hclients, isSome_update hclient, hdropped]; exact h.dropped x hx
  numShards := hshards.trans h.numShards
  numPartitions := hnum.trans h.numPartitions
  mapping := by rw [hstage, hcomplete]; exact h.mapping
  mapped := by rw [hstage, hcomplete]; exact h.mapped
  unfinished := by rw [hcomplete, hunfinished]; exact h.unfinished
  noReduce hmap := hcalls (hcomplete ▸ hmap)
  noSent := by rw [hcomplete, hsent]; exact h.noSent
  noCompleted hmap x c hx := by
    rw [hcomplete] at hmap
    rw [hclients] at hx
    by_cases hne : x = ip
    · subst hne
      rw [Function.update_self] at hx
      cases hx
      exact (hreduce hmap).trans (h.noCompleted hmap x client hclient)
    · rw [Function.update_of_ne hne] at hx
      exact h.noCompleted hmap x c hx
  unrecorded x c hx := by
    rw [hclients] at hx
    by_cases hne : x = ip
    · subst hne
      rw [Function.update_self] at hx
      cases hx
      exact hpartitions.trans (h.unrecorded x client hclient)
    · rw [Function.update_of_ne hne] at hx
      exact h.unrecorded x c hx
  notStarted := by rw [hstage, hidx, hjobs]; exact h.notStarted

/-- A worker that is dropped. -/
theorem Grounded.remove (h : Grounded spec s) {ip : Str} (hrun : t.run = s.run)
    (hclients : t.master.ipAddr2worker = Function.update s.master.ipAddr2worker ip none)
    (hips : t.master.workerIps = s.master.workerIps.erase ip)
    (hdropped : t.master.droppedWorkerIps = s.master.droppedWorkerIps ++ [ip])
    (hshards : t.master.numShards = s.master.numShards)
    (hnum : t.master.numPartitions = s.master.numPartitions)
    (hcomplete : t.master.mapComplete = s.master.mapComplete)
    (hunfinished : s.master.mapComplete = true → t.master.unfinishedShards = s.master.unfinishedShards)
    (hjobs : t.master.partitions = s.master.partitions)
    (hidx : t.idx2files = s.idx2files) (hcalls : t.calls = s.calls)
    (hsent : t.reduceSent = s.reduceSent) : Grounded spec t where
  inPool x hx := by
    rw [hclients] at hx
    obtain ⟨hne, hx⟩ := isSome_update_none hx
    rw [hips]
    exact (List.mem_erase_of_ne hne).mpr (h.inPool x hx)
  notDropped x hx := by
    rw [hclients] at hx
    obtain ⟨hne, hx⟩ := isSome_update_none hx
    rw [hdropped, List.mem_append, not_or, List.mem_singleton]
    exact ⟨h.notDropped x hx, hne⟩
  dropped x hx := by
    rw [hclients, hdropped]
    by_cases hne : x = ip
    · subst hne; exact .inr (List.mem_append_right _ (List.mem_singleton_self x))
    · rw [Function.update_of_ne hne]
      exact (h.dropped x hx).imp_right (List.mem_append_left _)
  numShards := hshards.trans h.numShards
  numPartitions := hnum.trans h.numPartitions
  mapping := by rw [hrun, hcomplete]; exact h.mapping
  mapped := by rw [hrun, hcomplete]; exact h.mapped
  unfinished hmap := by
    rw [hcomplete] at hmap
    exact (hunfinished hmap).trans (h.unfinished hmap)
  noReduce := by rw [hcomplete, hcalls]; exact h.noReduce
  noSent := by rw [hcomplete, hsent]; exact h.noSent
  noCompleted hmap x c hx := by
    rw [hcomplete] at hmap
    rw [hclients] at hx
    by_cases hne : x = ip
    · subst hne; simp at hx
    · rw [Function.update_of_ne hne] at hx
      exact h.noCompleted hmap x c hx
  unrecorded x c hx := by
    rw [hclients] at hx
    by_cases hne : x = ip
    · subst hne; simp at hx
    · rw [Function.update_of_ne hne] at hx
      exact h.unrecorded x c hx
  notStarted := by rw [hrun, hidx, hjobs]; exact h.notStarted

theorem grounded_move (h : Grounded spec s) (hmove : Move s a t) : Grounded spec t := by
  have hsame := h.noReduce
  have herase : ∀ k, s.master.mapComplete = false → ∀ c ∈ s.calls.eraseIdx k, c.reduceJob = none :=
    fun k hmap c hc => h.noReduce hmap c (List.mem_of_mem_eraseIdx hc)
  cases hmove with
  | abort | resume _ _ | monitor _ | pong _ _ _ | late _ _ _ _ _ => exact h.frame rfl hsame
  | mkdir hrun | setInitial hrun | awaitInitial hrun _ | resetDropped hrun =>
    exact h.frame (by rw [hrun]; rfl) hsame
  | endLoop hrun _ | setFlag hrun | awaitFlag hrun _ | setTrigger hrun | awaitTrigger hrun _ =>
    exact h.frame (by rw [hrun]; rfl) hsame
  | stop hrun | joinReduce hrun _ | joinMonitor hrun _ => exact h.frame (by rw [hrun]; rfl) hsame
  | @pop _ ph i ip rest hrun _ _ =>
    refine h.frame ?_ hsame
    rw [hrun, State.pop]
    split <;> rfl
  | @sendMap _ i ip client shard hrun hclient _ =>
    refine h.update hclient rfl rfl (fun _ => rfl) (by rw [hrun]; rfl) fun hmap c hc => ?_
    rcases List.mem_append.mp hc with hc | hc
    · exact hsame hmap c hc
    · rw [List.mem_singleton.mp hc]; rfl
  | @sendReduce _ i ip client partition hrun hclient _ =>
    have hcomplete := h.mapped (.inr (by rw [hrun]; rfl))
    exact { h with
      mapping := fun hstage => by cases hstage
      mapped := fun _ => hcomplete
      noReduce := fun hmap => absurd (hcomplete.symm.trans hmap) (by decide)
      noSent := fun hmap => absurd (hcomplete.symm.trans hmap) (by decide)
      notStarted := fun hstage => absurd rfl hstage }
  | @check _ ph hrun =>
    cases ph with
    | map =>
      have hmap := h.mapping (by rw [hrun]; rfl)
      exact { h with
        mapping := fun hstage => by cases hstage
        mapped := fun hstage => by rcases hstage with hstage | hstage <;> cases hstage
        unfinished := fun hdone => by
          simp only [Master.checkComplete, hmap, Bool.false_or, Master.mapJobsDone,
            decide_eq_true_eq] at hdone
          exact hdone.1
        noReduce := fun _ => h.noReduce hmap
        noSent := fun _ => h.noSent hmap
        noCompleted := fun _ => h.noCompleted hmap
        notStarted := fun _ => h.notStarted (by rw [hrun]; decide) }
    | reduce =>
      have hmap := h.mapped (.inr (by rw [hrun]; rfl))
      have hcomplete : s.master.checkComplete.mapComplete = s.master.mapComplete := by
        simp [Master.checkComplete, hmap]
      exact h.frame (by rw [hrun]; rfl) hsame rfl rfl rfl rfl rfl hcomplete
  | finishMap hrun _ hcomplete =>
    exact { h with
      mapping := fun hstage => by cases hstage
      mapped := fun _ => hcomplete
      notStarted := fun _ => h.notStarted (by rw [hrun]; decide) }
  | againMap hrun _ hcomplete =>
    exact { h with
      mapping := fun _ => hcomplete
      mapped := fun hstage => by rcases hstage with hstage | hstage <;> cases hstage
      notStarted := fun _ => h.notStarted (by rw [hrun]; decide) }
  | requeueMap hrun hunfinished =>
    have hmap : s.master.mapComplete = false := by
      by_contra hdone
      exact hunfinished (h.unfinished (Bool.eq_true_of_not_eq_false hdone))
    exact { h with
      mapping := fun _ => hmap
      mapped := fun hstage => by rcases hstage with hstage | hstage <;> cases hstage
      unfinished := fun _ => rfl
      notStarted := fun _ => h.notStarted (by rw [hrun]; decide) }
  | finishReduce hrun _ _ | againReduce hrun _ _ | requeueReduce hrun _ =>
    have hcomplete := h.mapped (.inr (by rw [hrun]; rfl))
    exact { h with
      mapping := fun hstage => by cases hstage
      mapped := fun _ => hcomplete
      notStarted := fun hstage => absurd rfl hstage }
  | @startReduce order idxs hrun _ _ _ =>
    have hcomplete := h.mapped (.inl (by rw [hrun]; rfl))
    exact { h with
      mapping := fun hstage => by cases hstage
      mapped := fun _ => hcomplete
      notStarted := fun hstage => absurd rfl hstage }
  | @acceptMap k ip client shard _ _ _ hclient =>
    exact h.update hclient rfl rfl (fun _ => rfl) rfl (herase k)
  | @acceptReduce k ip client partition files _ hcall _ hclient =>
    refine h.update hclient rfl rfl (fun hmap => ?_) rfl (herase k)
    have hnone := h.noReduce hmap _ (List.mem_of_getElem? hcall)
    cases hnone
  | @rejoin k _ _ _ _ _ _ | @discard k _ _ _ _ _ | @errorMap k _ _ _ _ | @errorReduce k _ _ _ _ _ =>
    exact h.frame rfl (herase k)
  | dropMap _ _ _ hmap _ =>
    refine h.remove rfl rfl rfl rfl rfl rfl rfl (fun hdone => ?_) rfl rfl rfl rfl
    rw [hmap] at hdone
    cases hdone
  | dropReduce _ _ _ _ _ => exact h.remove rfl rfl rfl rfl rfl rfl rfl (fun _ => rfl) rfl rfl rfl rfl
  | @respond k ok ip job hcall =>
    refine h.frame rfl fun hmap c hc => ?_
    rcases List.mem_or_eq_of_mem_set hc with hc | rfl
    · exact hsame hmap c hc
    · exact hsame hmap ⟨ip, job, none⟩ (List.mem_of_getElem? hcall)

theorem grounded_reach {ok : Action → State Sh → Prop} (h : ReachVia (system spec) ok s) :
    Grounded spec s :=
  h.invariant (grounded_init spec) fun _ hg _ hs => grounded_move hg (move_of_next hs)

/-- A worker that has not been dropped. -/
def State.Live (s : State Sh) (ip : Str) : Prop := (s.master.ipAddr2worker ip).isSome

instance (s : State Sh) (ip : Str) : Decidable (s.Live ip) := inferInstanceAs (Decidable (_ = true))

theorem live_iff_notMem_dropped (h : Grounded spec s) {ip : Str} (hip : ip ∈ spec.workers) :
    s.Live ip ↔ ip ∉ s.master.droppedWorkerIps :=
  ⟨h.notDropped ip, (h.dropped ip hip).resolve_right⟩

/-- `map_complete` is never cleared. -/
theorem mapComplete_of_move (hmove : Move s a t) (h : t.master.mapComplete = false) :
    s.master.mapComplete = false := by
  cases hmove with
  | check _ =>
    simp only [Master.checkComplete, Bool.or_eq_false_iff] at h
    exact h.1
  | _ => exact h

end AdvancedOS.MapReduce
