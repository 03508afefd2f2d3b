import AdvancedOS.MapReduce.Control

/-!
# Runs without failures

`Orderly` is what holds of the master as long as no RPC and no ping fails: no worker is dropped,
each worker is in the ready queue, in the hand of `run` or owes an answer, the hand-over is where
`Mode.Holds` says, and both pools of jobs are clean. `orderly_move` is the step lemma; it also
excludes the moves that only failures cause.
-/

namespace AdvancedOS.MapReduce

open Lts WorkPool

variable {Sh : Type} {spec : Spec Sh} {s t : State Sh} {a : Action}

/-- No RPC and no ping fails. -/
def FailureFree : Action → Prop
  | .pong _ ok | .respond _ ok => ok = true
  | _ => True

instance (a : Action) : Decidable (FailureFree a) :=
  match a with
  | .pong _ ok | .respond _ ok => inferInstanceAs (Decidable (ok = true))
  | .run _ | .mkdirFails | .poll _ | .resume | .monitor => .isTrue trivial

/-- The worker that `run` has popped and not used yet. -/
def RunPc.inHand : RunPc → List Str
  | .send _ _ ip => [ip]
  | _ => []

/-- Where the workers are. -/
def State.whereabouts (s : State Sh) : List Str :=
  s.master.readyQueue ++ s.run.inHand ++ s.calls.map Call.workerIpAddr

structure Orderly (spec : Spec Sh) (s : State Sh) : Prop where
  statuses : ∀ c ∈ s.calls, c.status ≠ some false
  noneDropped : s.master.numDroppedWorkers = 0
  dropped : s.master.droppedWorkerIps = []
  ips : s.master.workerIps = spec.workers
  queue : s.whereabouts.Perm spec.workers
  control : s.run.mode.Holds s.master s.poll
  maps : Clean ((mapView spec).pool s)
  reduces : Clean (reduceView.pool s)
  outputs : s.master.outputFiles.length = s.reduceDone.length

theorem orderly_init (spec : Spec Sh) [DecidableEq Sh] : Orderly spec (system spec).init where
  statuses c hc := by cases hc
  noneDropped := rfl
  dropped := rfl
  ips := rfl
  queue := by simp [State.whereabouts, system, Master.new, RunPc.inHand]
  control := ⟨⟨rfl, rfl, nofun⟩, rfl, rfl⟩
  maps := by rw [mapPool_init]; exact clean_init _ _ _
  reduces := by rw [reducePool_init]; exact clean_init _ _ _
  outputs := rfl

/-! ## What cannot happen -/

theorem Orderly.caller (h : Orderly spec s) {c : Call Sh} (hc : c ∈ s.calls) :
    c.workerIpAddr ∈ spec.workers :=
  h.queue.subset (List.mem_append_right _ (List.mem_map_of_mem hc))

theorem Orderly.live (hg : Grounded spec s) (h : Orderly spec s) {ip : Str} (hip : ip ∈ spec.workers) :
    (s.master.ipAddr2worker ip).isSome := by
  rcases hg.dropped ip hip with hlive | hmem
  · exact hlive
  · rw [h.dropped] at hmem
    cases hmem

theorem Orderly.unfinishedShards (h : Orderly spec s) : s.master.unfinishedShards = [] :=
  (Multiset.coe_eq_zero _).mp h.maps.unfinished

theorem Orderly.unfinishedPartitions (h : Orderly spec s) : s.master.unfinishedPartitions = [] :=
  (Multiset.coe_eq_zero _).mp h.reduces.unfinished

/-- No map job is left when the counter of the map phase has reached its total. -/
theorem Orderly.map_counted (hg : Grounded spec s) (h : Orderly spec s) (hcounted : s.master.Counted .map) :
    s.run.pendingShards s.master.shards = [] ∧ s.calls.filterMap Call.mapJob = [] ∧
      (s.mapDone.map Prod.snd).Perm spec.shards := by
  have hcount : ((mapView spec).pool s).count = ((mapView spec).pool s).jobs.card := by
    refine Eq.trans hcounted ?_
    rw [hg.numShards]
    rfl
  obtain ⟨hpending, hcalls, hdone⟩ := h.maps.complete hcount
  exact ⟨(Multiset.coe_eq_zero _).mp hpending, (Multiset.coe_eq_zero _).mp hcalls, Multiset.coe_eq_coe.mp hdone⟩

/-- Before the reduce phase its counter has not reached its total. -/
theorem Orderly.not_counted (hg : Grounded spec s) (h : Orderly spec s)
    (hmap : s.master.mapComplete = false) : ¬ s.master.Counted .reduce := by
  intro hcounted
  have hsent : (reduceView.pool s).sent = 0 := by
    show ((s.reduceSent.map fun x => (x.1, x.2.1) : List (Str × Int)) : Multiset (Str × Int)) = 0
    rw [hg.noSent hmap]
    rfl
  have hdone : (reduceView.pool s).done = 0 := by
    have hsum := h.reduces.sent
    rw [hsent] at hsum
    exact (add_eq_zero.mp hsum.symm).2
  have hcount := h.reduces.count
  rw [hdone, Multiset.card_zero] at hcount
  have hpos := spec.nOutputFiles_pos
  have htotal : s.master.numReduceMsgs - s.master.numDroppedReduceJobs = (s.master.numPartitions : Int) :=
    hcounted
  have hzero : s.master.numReduceMsgs - s.master.numDroppedReduceJobs = 0 := hcount
  have hnum := hg.numPartitions
  omega

theorem Orderly.no_rejoin (hg : Grounded spec s) (h : Orderly spec s) {k : Nat} {ip : Str} {job : Job Sh}
    {status : Option Bool} (hcall : s.calls[k]? = some ⟨ip, job, status⟩)
    (hclient : s.master.ipAddr2worker ip = none) : False := by
  have hlive := h.live hg (h.caller (List.mem_of_getElem? hcall))
  rw [hclient] at hlive
  cases hlive

theorem Orderly.no_discard (h : Orderly spec s) {k : Nat} {ip : Str} {job : Job Sh} {status : Option Bool}
    (hcall : s.calls[k]? = some ⟨ip, job, status⟩) (hip : ip ∉ s.master.workerIps) : False := by
  rw [h.ips] at hip
  exact hip (h.caller (List.mem_of_getElem? hcall))

theorem Orderly.no_error (h : Orderly spec s) {k : Nat} {ip : Str} {job : Job Sh}
    (hcall : s.calls[k]? = some ⟨ip, job, some false⟩) : False :=
  h.statuses _ (List.mem_of_getElem? hcall) rfl

/-- A map job is answered in the map phase. -/
theorem Orderly.open_of_mapJob (hg : Grounded spec s) (h : Orderly spec s) (hpoll : s.poll = .next)
    {k : Nat} {ip : Str} {shard : Sh} {status : Option Bool}
    (hcall : s.calls[k]? = some ⟨ip, .map shard, status⟩) :
    s.master.Open .map ∧ (s.run.mode = .dispatching .map ∧ s.master.mapReduceFlag = false ∨
      s.run.mode = .waiting .map ∧ s.master.mapReduceFlag = true) := by
  have hcontrol := h.control
  rw [hpoll] at hcontrol
  obtain ⟨ph, hopen, hmode⟩ := hcontrol.of_next
  cases ph with
  | map => exact ⟨hopen, hmode⟩
  | reduce =>
    have hnone := (h.map_counted hg (hopen.counted rfl)).2.1
    have hmem : (ip, shard) ∈ s.calls.filterMap Call.mapJob :=
      List.mem_filterMap.mpr ⟨_, List.mem_of_getElem? hcall, rfl⟩
    rw [hnone] at hmem
    cases hmem

/-- A reduce job is answered in the reduce phase. -/
theorem Orderly.open_of_reduceJob (hg : Grounded spec s) (h : Orderly spec s) (hpoll : s.poll = .next)
    {k : Nat} {ip : Str} {partition : Int} {files : List Str} {status : Option Bool}
    (hcall : s.calls[k]? = some ⟨ip, .reduce partition files, status⟩) :
    s.master.Open .reduce ∧ (s.run.mode = .dispatching .reduce ∧ s.master.mapReduceFlag = false ∨
      s.run.mode = .waiting .reduce ∧ s.master.mapReduceFlag = true) := by
  have hcontrol := h.control
  rw [hpoll] at hcontrol
  obtain ⟨ph, hopen, hmode⟩ := hcontrol.of_next
  cases ph with
  | map => cases hg.noReduce hopen.mapComplete _ (List.mem_of_getElem? hcall)
  | reduce => exact ⟨hopen, hmode⟩

/-! ## The pools -/

theorem MapStep.noFailure (hg : Grounded spec s) (h : Orderly spec s) (hok : FailureFree a)
    {b : Act Str Sh} {p : Pool Str Sh} [DecidableEq Sh] (hb : MapStep s a b)
    (hs : Step true ((mapView spec).pool s) b p) : b.NoFailure := by
  cases b with
  | load _ | dispatch _ _ | finish _ _ => trivial
  | discard ip shard =>
    obtain ⟨k, rfl, hcall⟩ := hb
    cases hs with
    | discard hdead _ =>
      exact hdead (View.live_iff.mpr (h.live hg (h.caller (List.mem_of_getElem? hcall))))
  | error ip shard =>
    obtain ⟨k, rfl, hcall⟩ := hb
    exact h.no_error hcall
  | drop ip =>
    obtain ⟨k, rfl, -⟩ := hb
    cases hok
  | requeue => exact hb.2 h.unfinishedShards
  | again L =>
    obtain ⟨o, rfl, hrun, -, hcomplete, -⟩ := hb
    have hcontrol := h.control
    rw [hrun] at hcontrol
    exact absurd (hcontrol.1.mapComplete.symm.trans hcomplete) (by decide)

theorem ReduceStep.noFailure (hg : Grounded spec s) (h : Orderly spec s) (hok : FailureFree a)
    {b : Act Str Int} {p : Pool Str Int} (hb : ReduceStep s a b)
    (hs : Step false (reduceView.pool s) b p) : b.NoFailure := by
  cases b with
  | load _ | dispatch _ _ | finish _ _ => trivial
  | discard ip partition =>
    obtain ⟨k, files, rfl, hcall⟩ := hb
    cases hs with
    | discard hdead _ =>
      exact hdead (View.live_iff.mpr (h.live hg (h.caller (List.mem_of_getElem? hcall))))
  | error ip partition =>
    obtain ⟨k, files, rfl, hcall⟩ := hb
    exact h.no_error hcall
  | drop ip =>
    obtain ⟨k, rfl, -⟩ := hb
    cases hok
  | requeue => exact hb.2 h.unfinishedPartitions
  | again L =>
    obtain ⟨o, rfl, hrun, -, hcomplete, -⟩ := hb
    have hcontrol := h.control
    rw [hrun] at hcontrol
    exact absurd (hcontrol.1.reduceComplete.symm.trans hcomplete) (by decide)

theorem clean_move [DecidableEq Sh] (hg : Grounded spec s) (h : Orderly spec s) (hmove : Move s a t)
    (hok : FailureFree a) : Clean ((mapView spec).pool t) ∧ Clean (reduceView.pool t) := by
  refine ⟨?_, ?_⟩
  · have hphase : ∀ k, a = .pong k false → s.master.mapComplete = false := by
      rintro k rfl
      cases hok
    rcases mapPool_move hg hmove hphase with he | ⟨b, hb, hnext⟩
    · rw [he]; exact h.maps
    · have hs := step_of_next hnext
      exact clean_step h.maps hs (hb.noFailure hg h hok hs)
  · rcases reducePool_move hg hmove with he | ⟨b, hb, hnext⟩
    · rw [he]; exact h.reduces
    · have hs := step_of_next hnext
      exact clean_step h.reduces hs (hb.noFailure hg h hok hs)

/-! ## Where the workers are -/

theorem whereabouts_eraseIdx {k : Nat} {c : Call Sh} (h : s.calls[k]? = some c)
    (hqueue : t.master.readyQueue = s.master.readyQueue ++ [c.workerIpAddr])
    (hcalls : t.calls = s.calls.eraseIdx k) (hrun : t.run = s.run) :
    t.whereabouts.Perm s.whereabouts := by
  have hperm := (perm_eraseIdx h).map Call.workerIpAddr
  rw [List.map_cons] at hperm
  simp only [State.whereabouts, hqueue, hcalls, hrun, List.append_assoc]
  refine (List.Perm.append_left _ ?_)
  refine List.perm_append_comm_assoc [c.workerIpAddr] s.run.inHand _ |>.trans ?_
  exact List.Perm.append_left _ hperm.symm

theorem whereabouts_append {ph : Phase} {i : Nat} {ip : Str} {job : Job Sh}
    (hrun : s.run = .send ph i ip) (hnext : t.run = .dispatch ph (i + 1))
    (hqueue : t.master.readyQueue = s.master.readyQueue)
    (hcalls : t.calls = s.calls ++ [⟨ip, job, none⟩]) : t.whereabouts.Perm s.whereabouts := by
  simp only [State.whereabouts, hrun, hnext, hqueue, hcalls, RunPc.inHand, List.append_nil, List.map_append,
    List.map_cons, List.map_nil, List.append_assoc]
  exact List.Perm.append_left _ List.perm_append_comm

theorem whereabouts_set {k : Nat} {ip : Str} {job : Job Sh} {ok : Bool}
    (h : s.calls[k]? = some ⟨ip, job, none⟩) :
    (s.calls.set k ⟨ip, job, some ok⟩).map Call.workerIpAddr = s.calls.map Call.workerIpAddr := by
  obtain ⟨hk, hget⟩ := List.getElem?_eq_some_iff.mp h
  rw [List.map_set]
  have hlt : k < (s.calls.map Call.workerIpAddr).length := by simpa using hk
  have hsame : (s.calls.map Call.workerIpAddr)[k] = ip := by simp [hget]
  calc (s.calls.map Call.workerIpAddr).set k ip
      = (s.calls.map Call.workerIpAddr).set k (s.calls.map Call.workerIpAddr)[k] := by rw [hsame]
    _ = s.calls.map Call.workerIpAddr := List.set_getElem_self hlt

/-! ## The step -/

/-- `run` stays in its mode. -/
theorem Orderly.holds (h : Orderly spec s) (hmode : t.run.mode = s.run.mode)
    (hsame : SameControl s.master t.master := by exact {}) (hpoll : t.poll = s.poll := by rfl) :
    t.run.mode.Holds t.master t.poll := by
  rw [hmode, hpoll]
  exact hsame.holds.mpr h.control

/-- The frame of `Orderly`: a step that leaves the workers and the calls alone. -/
theorem Orderly.frame (h : Orderly spec s) (hcontrol : t.run.mode.Holds t.master t.poll)
    (hhand : t.run.inHand = s.run.inHand) (hmaps : Clean ((mapView spec).pool t))
    (hreduces : Clean (reduceView.pool t))
    (hnone : t.master.numDroppedWorkers = 0)
    (hcalls : t.calls = s.calls := by rfl)
    (hqueue : t.master.readyQueue = s.master.readyQueue := by rfl)
    (hdropped : t.master.droppedWorkerIps = s.master.droppedWorkerIps := by rfl)
    (hips : t.master.workerIps = s.master.workerIps := by rfl)
    (hfiles : t.master.outputFiles = s.master.outputFiles := by rfl)
    (hdone : t.reduceDone = s.reduceDone := by rfl) : Orderly spec t where
  statuses := by rw [hcalls]; exact h.statuses
  noneDropped := hnone
  dropped := hdropped.trans h.dropped
  ips := hips.trans h.ips
  queue := by
    rw [State.whereabouts, hcalls, hqueue, hhand]
    exact h.queue
  control := hcontrol
  maps := hmaps
  reduces := hreduces
  outputs := by rw [hfiles, hdone]; exact h.outputs

/-- A job is sent. -/
theorem Orderly.dispatch (h : Orderly spec s) {ph : Phase} {i : Nat} {ip : Str} {job : Job Sh}
    (hrun : s.run = .send ph i ip) (hnext : t.run = .dispatch ph (i + 1))
    (hcalls : t.calls = s.calls ++ [⟨ip, job, none⟩])
    (hmaps : Clean ((mapView spec).pool t)) (hreduces : Clean (reduceView.pool t))
    (hcontrol : t.run.mode.Holds t.master t.poll)
    (hqueue : t.master.readyQueue = s.master.readyQueue := by rfl)
    (hnone : t.master.numDroppedWorkers = s.master.numDroppedWorkers := by rfl)
    (hdropped : t.master.droppedWorkerIps = s.master.droppedWorkerIps := by rfl)
    (hips : t.master.workerIps = s.master.workerIps := by rfl)
    (hfiles : t.master.outputFiles = s.master.outputFiles := by rfl)
    (hdone : t.reduceDone = s.reduceDone := by rfl) : Orderly spec t where
  statuses c hc := by
    rw [hcalls] at hc
    rcases List.mem_append.mp hc with hc | hc
    · exact h.statuses c hc
    · rw [List.mem_singleton.mp hc]
      nofun
  noneDropped := hnone.trans h.noneDropped
  dropped := hdropped.trans h.dropped
  ips := hips.trans h.ips
  queue := (whereabouts_append hrun hnext hqueue hcalls).trans h.queue
  control := hcontrol
  maps := hmaps
  reduces := hreduces
  outputs := by rw [hfiles, hdone]; exact h.outputs

/-- An answer that is accepted, or would be. -/
theorem Orderly.cleanup (h : Orderly spec s) {k : Nat} {c : Call Sh} {m : Master Sh}
    {maps : List (Str × Sh)} {reduces : List (Str × Int)} {ph : Phase}
    (hmaps : Clean ((mapView spec).pool (s.cleanup k m maps reduces)))
    (hreduces : Clean (reduceView.pool (s.cleanup k m maps reduces)))
    (hcall : s.calls[k]? = some c) (hqueue : m.readyQueue = s.master.readyQueue ++ [c.workerIpAddr])
    (hopen : m.Open ph) (hreduce : ph = .map → ¬ m.Counted .reduce)
    (hmode : s.run.mode = .dispatching ph ∧ m.mapReduceFlag = false ∨
      s.run.mode = .waiting ph ∧ m.mapReduceFlag = true)
    (houtputs : m.outputFiles.length = (s.reduceDone ++ reduces).length)
    (hnone : m.numDroppedWorkers = s.master.numDroppedWorkers := by rfl)
    (hdropped : m.droppedWorkerIps = s.master.droppedWorkerIps := by rfl)
    (hips : m.workerIps = s.master.workerIps := by rfl) :
    Orderly spec (s.cleanup k m maps reduces) where
  statuses c hc := h.statuses c (List.mem_of_mem_eraseIdx hc)
  noneDropped := hnone.trans h.noneDropped
  dropped := hdropped.trans h.dropped
  ips := hips.trans h.ips
  queue := by
    have hperm : (s.cleanup k m maps reduces).whereabouts.Perm s.whereabouts :=
      whereabouts_eraseIdx hcall hqueue rfl rfl
    exact hperm.trans h.queue
  control := hopen.holds_cleanup (hnone.trans h.noneDropped) hreduce hmode
  maps := hmaps
  reduces := hreduces
  outputs := houtputs

theorem orderly_move [DecidableEq Sh] (hg : Grounded spec s) (h : Orderly spec s) (hmove : Move s a t)
    (hok : FailureFree a) : Orderly spec t := by
  obtain ⟨hmaps, hreduces⟩ := clean_move hg h hmove hok
  have hcontrol := h.control
  have hqueue := h.queue
  cases hmove with
  | abort | monitor _ | pong _ _ _ => exact h.frame (h.holds rfl) rfl hmaps hreduces h.noneDropped
  | mkdir hrun | setInitial hrun | awaitInitial hrun _ | endLoop hrun _ =>
    exact h.frame (h.holds (by rw [hrun]; rfl)) (by rw [hrun]; rfl) hmaps hreduces h.noneDropped
  | setTrigger hrun | awaitTrigger hrun _ | stop hrun | joinMonitor hrun _ =>
    exact h.frame (h.holds (by rw [hrun]; rfl)) (by rw [hrun]; rfl) hmaps hreduces h.noneDropped
  | finishMap hrun _ _ | finishReduce hrun _ _ =>
    exact h.frame (h.holds (by rw [hrun]; rfl)) (by rw [hrun]; rfl) hmaps hreduces h.noneDropped
  | resetDropped hrun =>
    exact h.frame (h.holds (by rw [hrun]; rfl)) (by rw [hrun]; rfl) hmaps hreduces rfl
  | @pop _ ph i ip rest hrun _ hready =>
    have hpop : s.pop ph i ip rest =
        { s with master := { s.master with readyQueue := rest }, run := .send ph i ip } := by
      simp [State.pop, h.dropped]
    rw [hpop] at hmaps hreduces ⊢
    have hwhere : s.whereabouts = ip :: (rest ++ s.calls.map Call.workerIpAddr) := by
      simp [State.whereabouts, hready, hrun, RunPc.inHand]
    have hcontrol' := h.holds (t := { s with
      master := { s.master with readyQueue := rest }, run := .send ph i ip }) (by rw [hrun]; rfl)
    refine { h with queue := ?_, control := hcontrol', maps := hmaps, reduces := hreduces }
    rw [hwhere] at hqueue
    refine List.Perm.trans ?_ hqueue
    rw [State.whereabouts, List.append_assoc]
    exact List.perm_middle
  | sendMap hrun _ _ | sendReduce hrun _ _ =>
    exact h.dispatch hrun rfl rfl hmaps hreduces (h.holds (by rw [hrun]; rfl))
  | setFlag hrun =>
    rw [hrun] at hcontrol
    exact h.frame hcontrol.setFlag (by rw [hrun]; rfl) hmaps hreduces h.noneDropped
  | awaitFlag hrun hflag =>
    rw [hrun] at hcontrol
    exact h.frame (hcontrol.awaitFlag hflag) (by rw [hrun]; rfl) hmaps hreduces h.noneDropped
  | @check _ ph hrun =>
    rw [hrun] at hcontrol
    refine h.frame (hcontrol.check h.unfinishedShards h.unfinishedPartitions fun hcounted => ?_)
      (by rw [hrun]; rfl) hmaps hreduces rfl
    have hcount : s.master.numReduceMsgs - s.master.numDroppedReduceJobs = (s.reduceDone.length : Int) :=
      h.reduces.count
    have htotal : s.master.numReduceMsgs - s.master.numDroppedReduceJobs = (s.master.numPartitions : Int) :=
      hcounted
    rw [h.outputs]
    omega
  | againMap hrun _ hcomplete =>
    rw [hrun] at hcontrol
    exact absurd (hcontrol.1.mapComplete.symm.trans hcomplete) (by decide)
  | againReduce hrun _ hcomplete =>
    rw [hrun] at hcontrol
    exact absurd (hcontrol.1.reduceComplete.symm.trans hcomplete) (by decide)
  | requeueMap _ hunfinished => exact absurd h.unfinishedShards hunfinished
  | requeueReduce _ hunfinished => exact absurd h.unfinishedPartitions hunfinished
  | startReduce hrun hpoll _ _ =>
    rw [hrun, hpoll] at hcontrol
    exact h.frame hcontrol.startReduce (by rw [hrun]; rfl) hmaps hreduces h.noneDropped
  | joinReduce hrun hpoll =>
    have hover := hcontrol
    rw [hrun, hpoll] at hover
    exact h.frame (by rw [hpoll]; exact hover.joinReduce) (by rw [hrun]; rfl) hmaps hreduces h.noneDropped
  | @acceptMap k ip client shard hpoll hcall _ _ =>
    obtain ⟨hopen, hmode⟩ := h.open_of_mapJob hg hpoll hcall
    refine h.cleanup hmaps hreduces hcall rfl ⟨hopen.1, hopen.2, by simp⟩
      (fun _ => h.not_counted hg hopen.mapComplete) hmode ?_
    rw [List.append_nil]
    exact h.outputs
  | @acceptReduce k ip client partition files hpoll hcall _ _ =>
    obtain ⟨hopen, hmode⟩ := h.open_of_reduceJob hg hpoll hcall
    refine h.cleanup hmaps hreduces hcall rfl ⟨hopen.1, hopen.2, hopen.3⟩ (by simp) hmode ?_
    simp [Master.acceptReduce, h.outputs]
  | rejoin _ hcall _ hclient => exact (h.no_rejoin hg hcall hclient).elim
  | discard _ hcall hip => exact (h.no_discard hcall hip).elim
  | errorMap _ hcall | errorReduce _ hcall => exact (h.no_error hcall).elim
  | resume hpoll hflag =>
    rw [hpoll] at hcontrol
    exact h.frame (hcontrol.resume hflag) rfl hmaps hreduces h.noneDropped
  | late _ _ _ _ _ | dropMap _ _ _ _ _ | dropReduce _ _ _ _ _ => cases hok
  | @respond k ok ip job hcall =>
    refine { h with statuses := fun c hc => ?_, queue := ?_, maps := hmaps, reduces := hreduces }
    · rcases List.mem_or_eq_of_mem_set hc with hc | rfl
      · exact h.statuses c hc
      · obtain rfl : ok = true := hok
        simp
    · rw [State.whereabouts, whereabouts_set hcall]
      exact hqueue

theorem orderly_reach [DecidableEq Sh] {ok : Action → State Sh → Prop} (hok : ∀ a s, ok a s → FailureFree a)
    (h : ReachVia (system spec) ok s) : Orderly spec s :=
  h.invariant (orderly_init spec) fun hr ho hstep hs =>
    orderly_move (grounded_reach hr) ho (move_of_next hs) (hok _ _ hstep)

end AdvancedOS.MapReduce
