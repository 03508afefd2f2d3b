import AdvancedOS.MapReduce.Master

/-!
# What a step of the master can do

`Move s a t` lists the steps of the master, one constructor for each, with the guard and the state
after it written out. `move_of_next` shows that there are no others; every invariant of the
master is proved by cases of `Move`.
-/

namespace AdvancedOS.MapReduce

open Lts

variable {Sh : Type}

inductive Move (s : State Sh) : Action → State Sh → Prop
  | abort {a : Action} : Move s a s.abort
  | mkdir {o : List Int} : s.run = .mkdir → Move s (.run o) { s with run := .setInitial }
  | setInitial {o : List Int} : s.run = .setInitial →
      Move s (.run o) { s with
        master := { s.master with initialMonitorJob := true }, run := .awaitInitial }
  | awaitInitial {o : List Int} : s.run = .awaitInitial → s.master.initialMonitorJob = false →
      Move s (.run o) { s with run := .resetDropped }
  | resetDropped {o : List Int} : s.run = .resetDropped →
      Move s (.run o) { s with
        master := { s.master with numDroppedWorkers := 0 }, run := .dispatch .map 0 }
  | pop {o : List Int} {ph : Phase} {i : Nat} {ip : Str} {rest : List Str} :
      s.run = .dispatch ph i → i < s.master.numJobs ph → s.master.readyQueue = ip :: rest →
      Move s (.run o) (s.pop ph i ip rest)
  | endLoop {o : List Int} {ph : Phase} {i : Nat} :
      s.run = .dispatch ph i → s.master.numJobs ph ≤ i → Move s (.run o) { s with run := .setFlag ph }
  | sendMap {o : List Int} {i : Nat} {ip : Str} {client : WorkerClient Sh} {shard : Sh} :
      s.run = .send .map i ip → s.master.ipAddr2worker ip = some client →
      s.master.shards[i]? = some shard → Move s (.run o) (s.sendMapperJob i ip client shard)
  | sendReduce {o : List Int} {i : Nat} {ip : Str} {client : WorkerClient Sh} {partition : Int} :
      s.run = .send .reduce i ip → s.master.ipAddr2worker ip = some client →
      s.master.partitions[i]? = some partition → Move s (.run o) (s.sendReducerJob i ip partition)
  | setFlag {o : List Int} {ph : Phase} : s.run = .setFlag ph →
      Move s (.run o) { s with
        master := { s.master with mapReduceFlag := true }, run := .awaitFlag ph }
  | awaitFlag {o : List Int} {ph : Phase} : s.run = .awaitFlag ph → s.master.mapReduceFlag = false →
      Move s (.run o) { s with run := .setTrigger ph }
  | setTrigger {o : List Int} {ph : Phase} : s.run = .setTrigger ph →
      Move s (.run o) { s with
        master := { s.master with triggerMonitoring := true }, run := .awaitTrigger ph }
  | awaitTrigger {o : List Int} {ph : Phase} :
      s.run = .awaitTrigger ph → s.master.triggerMonitoring = false →
      Move s (.run o) { s with run := .check ph }
  | check {o : List Int} {ph : Phase} : s.run = .check ph →
      Move s (.run o) { s with master := s.master.checkComplete, run := .after ph }
  | finishMap {o : List Int} : s.run = .after .map → s.master.unfinishedShards = [] →
      s.master.mapComplete = true →
      Move s (.run o) { s with master := { s.master with shards := [] }, run := .join .map }
  | againMap {o : List Int} : s.run = .after .map → s.master.unfinishedShards = [] →
      s.master.mapComplete = false → Move s (.run o) { s with run := .dispatch .map 0 }
  | requeueMap {o : List Int} : s.run = .after .map → s.master.unfinishedShards ≠ [] →
      Move s (.run o) { s with
        master := { s.master with shards := s.master.unfinishedShards, unfinishedShards := [] }
        run := .dispatch .map 0 }
  | finishReduce {o : List Int} : s.run = .after .reduce → s.master.unfinishedPartitions = [] →
      s.master.reduceComplete = true →
      Move s (.run o) { s with master := { s.master with partitions := [] }, run := .join .reduce }
  | againReduce {o : List Int} : s.run = .after .reduce → s.master.unfinishedPartitions = [] →
      s.master.reduceComplete = false → Move s (.run o) { s with run := .dispatch .reduce 0 }
  | requeueReduce {o : List Int} : s.run = .after .reduce → s.master.unfinishedPartitions ≠ [] →
      Move s (.run o) { s with
        master := { s.master with
          partitions := s.master.unfinishedPartitions, unfinishedPartitions := [] }
        run := .dispatch .reduce 0 }
  | startReduce {order idxs : List Int} : s.run = .join .map → s.poll = .returned →
      s.master.intermediateFiles.mapM fileIdx = some idxs → order.Perm idxs.dedup →
      Move s (.run order) (s.startReduce order)
  | joinReduce {o : List Int} : s.run = .join .reduce → s.poll = .returned →
      Move s (.run o) { s with run := .stop }
  | stop {o : List Int} : s.run = .stop →
      Move s (.run o) { s with
        master := { s.master with stopMonitoring := true, triggerMonitoring := true }
        run := .joinMonitor }
  | joinMonitor {o : List Int} : s.run = .joinMonitor → s.monitor = .done →
      Move s (.run o) { s with run := .returned, removed := s.removed ++ s.master.intermediateFiles }
  | acceptMap {k : Nat} {ip : Str} {client : WorkerClient Sh} {shard : Sh} : s.poll = .next →
      s.calls[k]? = some ⟨ip, .map shard, some true⟩ → ip ∈ s.master.workerIps →
      s.master.ipAddr2worker ip = some client →
      Move s (.poll k) (s.cleanup k (s.master.acceptMap ip client) [(ip, shard)] [])
  | acceptReduce {k : Nat} {ip : Str} {client : WorkerClient Sh} {partition : Int} {files : List Str} :
      s.poll = .next → s.calls[k]? = some ⟨ip, .reduce partition files, some true⟩ →
      ip ∈ s.master.workerIps → s.master.ipAddr2worker ip = some client →
      Move s (.poll k)
        (s.cleanup k (s.master.acceptReduce ip client partition) [] [(ip, partition)])
  | rejoin {k : Nat} {ip : Str} {job : Job Sh} : s.poll = .next →
      s.calls[k]? = some ⟨ip, job, some true⟩ → ip ∈ s.master.workerIps →
      s.master.ipAddr2worker ip = none →
      Move s (.poll k)
        (s.cleanup k { s.master with readyQueue := s.master.readyQueue ++ [ip] } [] [])
  | discard {k : Nat} {ip : Str} {job : Job Sh} : s.poll = .next →
      s.calls[k]? = some ⟨ip, job, some true⟩ → ip ∉ s.master.workerIps →
      Move s (.poll k) (s.cleanup k s.master [] [])
  | errorMap {k : Nat} {ip : Str} {shard : Sh} : s.poll = .next →
      s.calls[k]? = some ⟨ip, .map shard, some false⟩ →
      Move s (.poll k)
        (s.cleanup k { s.master with numDroppedMapJobs := s.master.numDroppedMapJobs + 1 } [] [])
  | errorReduce {k : Nat} {ip : Str} {partition : Int} {files : List Str} : s.poll = .next →
      s.calls[k]? = some ⟨ip, .reduce partition files, some false⟩ →
      Move s (.poll k)
        (s.cleanup k { s.master with numDroppedReduceJobs := s.master.numDroppedReduceJobs + 1 } [] [])
  | resume {isMap : Bool} : s.poll = .wait isMap → s.master.mapReduceFlag = true →
      Move s .resume { s with
        master := { s.master with mapReduceFlag := false }
        poll := if s.master.pollReturns isMap then .returned else .next }
  | monitor {initial stop trigger : Bool} {pc : MonitorPc} {pings : List Str} :
      s.monitorStep = some { s with
        master := { s.master with
          initialMonitorJob := initial, stopMonitoring := stop, triggerMonitoring := trigger }
        monitor := pc, pings } →
      Move s .monitor { s with
        master := { s.master with
          initialMonitorJob := initial, stopMonitoring := stop, triggerMonitoring := trigger }
        monitor := pc, pings }
  | pong {k i : Nat} {ip : Str} : s.monitor = .recv i → s.pings[k]? = some ip →
      (i : Int) < s.master.numWorkers →
      Move s (.pong k true) { s with pings := s.pings.eraseIdx k, monitor := .recv (i + 1) }
  | late {k i : Nat} {ip : Str} : s.monitor = .recv i → s.pings[k]? = some ip →
      (i : Int) < s.master.numWorkers → s.master.mapComplete = false →
      s.master.ipAddr2worker ip = none →
      Move s (.pong k false) { s with pings := s.pings.eraseIdx k, monitor := .recv (i + 1) }
  | dropMap {k i : Nat} {ip : Str} {client : WorkerClient Sh} : s.monitor = .recv i →
      s.pings[k]? = some ip → (i : Int) < s.master.numWorkers → s.master.mapComplete = false →
      s.master.ipAddr2worker ip = some client →
      Move s (.pong k false) { s with
        master := (s.master.dropMap ip client).1
        removed := s.removed ++ (s.master.dropMap ip client).2
        pings := s.pings.eraseIdx k, monitor := .recv (i + 1) }
  | dropReduce {k i : Nat} {ip : Str} {client : WorkerClient Sh} : s.monitor = .recv i →
      s.pings[k]? = some ip → (i : Int) < s.master.numWorkers → s.master.mapComplete = true →
      s.master.ipAddr2worker ip = some client →
      Move s (.pong k false) { s with
        master := (s.master.dropReduce ip client).1
        removed := s.removed ++ (s.master.dropReduce ip client).2
        pings := s.pings.eraseIdx k, monitor := .recv (i + 1) }
  | respond {k : Nat} {ok : Bool} {ip : Str} {job : Job Sh} : s.calls[k]? = some ⟨ip, job, none⟩ →
      Move s (.respond k ok) { s with calls := s.calls.set k ⟨ip, job, some ok⟩ }

variable {s t : State Sh} {a : Action}

/-! ## There are no other steps -/

theorem move_of_send {o : List Int} {ph : Phase} {i : Nat} {ip : Str} (hrun : s.run = .send ph i ip) :
    Move s (.run o) (s.send ph i ip) := by
  unfold State.send
  split
  · exact .abort
  · next client hclient =>
    cases ph with
    | map =>
      simp only
      split
      · next shard hshard => exact .sendMap hrun hclient hshard
      · exact .abort
    | reduce =>
      simp only
      split
      · next partition hpartition => exact .sendReduce hrun hclient hpartition
      · exact .abort

theorem move_of_afterMap {o : List Int} (hrun : s.run = .after .map) : Move s (.run o) s.afterMap := by
  by_cases hunfinished : s.master.unfinishedShards = []
  · cases hcomplete : s.master.mapComplete with
    | true =>
      have hmove := Move.finishMap (o := o) hrun hunfinished hcomplete
      simpa [State.afterMap, hunfinished, hcomplete] using hmove
    | false =>
      have hmove := Move.againMap (o := o) hrun hunfinished hcomplete
      simpa [State.afterMap, hunfinished, hcomplete] using hmove
  · have hmove := Move.requeueMap (o := o) hrun hunfinished
    simpa [State.afterMap, hunfinished] using hmove

theorem move_of_afterReduce {o : List Int} (hrun : s.run = .after .reduce) :
    Move s (.run o) s.afterReduce := by
  by_cases hunfinished : s.master.unfinishedPartitions = []
  · cases hcomplete : s.master.reduceComplete with
    | true =>
      have hmove := Move.finishReduce (o := o) hrun hunfinished hcomplete
      simpa [State.afterReduce, hunfinished, hcomplete] using hmove
    | false =>
      have hmove := Move.againReduce (o := o) hrun hunfinished hcomplete
      simpa [State.afterReduce, hunfinished, hcomplete] using hmove
  · have hmove := Move.requeueReduce (o := o) hrun hunfinished
    simpa [State.afterReduce, hunfinished] using hmove

theorem move_of_runStep {o : List Int} (h : s.runStep o = some t) : Move s (.run o) t := by
  unfold State.runStep at h
  split at h
  · next hrun => cases h; exact .mkdir hrun
  · next hrun => cases h; exact .setInitial hrun
  · next hrun =>
    obtain ⟨hflag, rfl⟩ := Option.ite_none_right_eq_some.mp h |>.imp_right Option.some.inj
    exact .awaitInitial hrun hflag
  · next hrun => cases h; exact .resetDropped hrun
  · next ph i hrun =>
    split at h
    · next hlt =>
      split at h
      · cases h
      · next ip rest hqueue => cases h; exact .pop hrun hlt hqueue
    · next hge => cases h; exact .endLoop hrun (Nat.not_lt.mp hge)
  · next ph i ip hrun => cases h; exact move_of_send hrun
  · next ph hrun => cases h; exact .setFlag hrun
  · next ph hrun =>
    obtain ⟨hflag, rfl⟩ := Option.ite_none_right_eq_some.mp h |>.imp_right Option.some.inj
    exact .awaitFlag hrun hflag
  · next ph hrun => cases h; exact .setTrigger hrun
  · next ph hrun =>
    obtain ⟨hflag, rfl⟩ := Option.ite_none_right_eq_some.mp h |>.imp_right Option.some.inj
    exact .awaitTrigger hrun hflag
  · next ph hrun => cases h; exact .check hrun
  · next hrun => cases h; exact move_of_afterMap hrun
  · next hrun => cases h; exact move_of_afterReduce hrun
  · next hrun =>
    split at h
    · next hpoll =>
      split at h
      · cases h; exact .abort
      · next idxs hidxs =>
        obtain ⟨hperm, rfl⟩ := Option.ite_none_right_eq_some.mp h |>.imp_right Option.some.inj
        exact .startReduce hrun hpoll hidxs hperm
    · cases h
  · next hrun =>
    obtain ⟨hpoll, rfl⟩ := Option.ite_none_right_eq_some.mp h |>.imp_right Option.some.inj
    exact .joinReduce hrun hpoll
  · next hrun => cases h; exact .stop hrun
  · next hrun =>
    obtain ⟨hdone, rfl⟩ := Option.ite_none_right_eq_some.mp h |>.imp_right Option.some.inj
    exact .joinMonitor hrun hdone
  · cases h

theorem move_of_consume {k : Nat} {call : Call Sh} {ok : Bool} (hpoll : s.poll = .next)
    (hcall : s.calls[k]? = some call) (hstatus : call.status = some ok) :
    Move s (.poll k) (s.consume k call ok) := by
  obtain ⟨ip, job, status⟩ := call
  obtain rfl : status = some ok := hstatus
  cases ok with
  | false =>
    cases job with
    | map shard => exact .errorMap hpoll hcall
    | reduce partition files => exact .errorReduce hpoll hcall
  | true =>
    by_cases hip : ip ∈ s.master.workerIps
    · cases hclient : s.master.ipAddr2worker ip with
      | none =>
        have hmove := Move.rejoin hpoll hcall hip hclient
        simpa [State.consume, Master.consume, Master.accepts, hip, hclient] using hmove
      | some client =>
        cases job with
        | map shard =>
          have hmove := Move.acceptMap hpoll hcall hip hclient
          simpa [State.consume, Master.consume, Master.accepts, hip, hclient, Call.mapJob,
            Call.reduceJob] using hmove
        | reduce partition files =>
          have hmove := Move.acceptReduce hpoll hcall hip hclient
          simpa [State.consume, Master.consume, Master.accepts, hip, hclient, Call.mapJob,
            Call.reduceJob] using hmove
    · have hmove := Move.discard hpoll hcall hip
      simpa [State.consume, Master.consume, Master.accepts, hip] using hmove

theorem move_of_monitorStep (h : s.monitorStep = some t) : Move s .monitor t := by
  have hstep := h
  unfold State.monitorStep at h
  split at h
  · cases h; exact .monitor hstep
  · split at h
    · cases h; exact .monitor hstep
    · split at h
      · cases h; exact .monitor hstep
      · cases h; exact .abort
  · split at h
    · cases h
    · cases h; exact .monitor hstep
  · cases h; exact .monitor hstep
  · cases h; exact .monitor hstep
  · cases h; exact .monitor hstep
  · cases h; exact .monitor hstep
  · cases h

theorem move_of_pong {k : Nat} {ok : Bool} (h : s.pong k ok = some t) : Move s (.pong k ok) t := by
  unfold State.pong at h
  split at h
  · next i ip hmonitor hping =>
    split at h
    · next hlt =>
      cases ok with
      | true => cases h; exact .pong hmonitor hping hlt
      | false =>
        simp only [Bool.false_eq_true, if_false, Master.handleWorkerFailure] at h
        cases hcomplete : s.master.mapComplete with
        | false =>
          cases hclient : s.master.ipAddr2worker ip with
          | none =>
            simp only [hcomplete, hclient, if_true] at h
            cases h
            have hmove := Move.late hmonitor hping hlt hcomplete hclient
            simpa using hmove
          | some client =>
            simp only [hcomplete, hclient, if_true] at h
            cases h
            exact .dropMap hmonitor hping hlt hcomplete hclient
        | true =>
          cases hclient : s.master.ipAddr2worker ip with
          | none =>
            simp only [hcomplete, hclient] at h
            cases h
            exact .abort
          | some client =>
            simp only [hcomplete, hclient] at h
            cases h
            exact .dropReduce hmonitor hping hlt hcomplete hclient
    · cases h
  · cases h

/-- Every step is a move. -/
theorem move_of_next (h : s.next a = some t) : Move s a t := by
  unfold State.next at h
  split at h
  · cases h
  · split at h
    · exact move_of_runStep h
    · obtain ⟨-, rfl⟩ := Option.ite_none_right_eq_some.mp h |>.imp_right Option.some.inj
      exact .abort
    · unfold State.pollStep at h
      split at h
      · next hpoll =>
        obtain ⟨call, hcall, hok⟩ := Option.bind_eq_some_iff.mp h
        obtain ⟨ok, hstatus, rfl⟩ := Option.map_eq_some_iff.mp hok
        exact move_of_consume hpoll hcall hstatus
      · cases h
    · unfold State.resume at h
      split at h
      · next isMap hpoll =>
        obtain ⟨hflag, rfl⟩ := Option.ite_none_right_eq_some.mp h |>.imp_right Option.some.inj
        exact .resume hpoll hflag
      · cases h
    · exact move_of_monitorStep h
    · exact move_of_pong h
    · unfold State.respond at h
      split at h
      · next ip job hcall => cases h; exact .respond hcall
      · cases h

/-! ## Failed pings -/

theorem failed_ping {k : Nat} (h : s.next (.pong k false) = some t) :
    ∃ i ip, s.monitor = .recv i ∧ s.pings[k]? = some ip ∧ (i : Int) < s.master.numWorkers ∧
      (s.master.handleWorkerFailure ip = none ∧ t = s.abort ∨
        ∃ m removed, s.master.handleWorkerFailure ip = some (m, removed) ∧
          t = { s with
            master := m, removed := s.removed ++ removed
            pings := s.pings.eraseIdx k, monitor := .recv (i + 1) }) := by
  unfold State.next at h
  split at h
  · cases h
  · simp only [State.pong] at h
    split at h
    · next i ip hmonitor hping =>
      obtain ⟨hlt, h⟩ := Option.ite_none_right_eq_some.mp h
      rw [if_neg (by decide)] at h
      refine ⟨i, ip, hmonitor, hping, hlt, ?_⟩
      split at h
      · next hfailure => exact .inl ⟨hfailure, (Option.some.inj h).symm⟩
      · next m removed hfailure => exact .inr ⟨m, removed, hfailure, (Option.some.inj h).symm⟩
    · cases h

/-- What `handle_worker_failure` does with a worker that has a client. -/
theorem handleWorkerFailure_of_client {m : Master Sh} {ip : Str} {client : WorkerClient Sh}
    (hclient : m.ipAddr2worker ip = some client) : m.handleWorkerFailure ip =
      some (if m.mapComplete = false then m.dropMap ip client else m.dropReduce ip client) := by
  rw [Master.handleWorkerFailure, hclient]
  split <;> rfl

end AdvancedOS.MapReduce
