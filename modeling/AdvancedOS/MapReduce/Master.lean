import AdvancedOS.Lib.Lts
import AdvancedOS.MapReduce.Strings

/-!
# The master

`system spec` is `Master::run` of `master.cc` with its two other threads, `poll_workers` and
`monitor`, and with the workers' answers. One step is one lock-protected section of one thread,
one unlocked read or write between two sections, the part of an iteration of `poll_workers`
before or after its wait, the answer to one RPC, or the arrival of one pong.

* A wait on a condition variable is a program point that is left when its predicate holds.
* The order in which RPCs and pings are answered, and whether they fail, is part of the action.
* The order in which `run` takes the partitions out of its `unordered_map` is part of the action.
* A null `WorkerClient` that is used, an uncaught exception and a failed `mkdir` abort the
  process: `aborted` is set and nothing moves any more.

The master never looks into a shard, so the type `Sh` of shards is a variable. `worker2job` is
written and never read; it is left out.
-/

namespace AdvancedOS.MapReduce

open Lts

/-! ## Data -/

/-- What the master gets from a specification that `validate_mr_spec` accepts, and the shards. -/
structure Spec (Sh : Type) where
  workers : List Str
  outputDir : Str
  nOutputFiles : Nat
  shards : List Sh
  workers_ne : workers ≠ []
  nOutputFiles_pos : 0 < nOutputFiles
  nOutputFiles_le : nOutputFiles ≤ intMax

structure WorkerClient (Sh : Type) where
  mapShards : List Sh
  reducePartitions : List Int
  completedMapJobs : Int
  completedReduceJobs : Int

/-- The members of `Master`. A missing entry of `ipAddr2worker` is a null pointer. -/
structure Master (Sh : Type) where
  outputDir : Str
  initialMonitorJob : Bool
  stopMonitoring : Bool
  triggerMonitoring : Bool
  numWorkers : Int
  numDroppedWorkers : Int
  numDroppedMapJobs : Int
  numDroppedReduceJobs : Int
  numMapMsgs : Int
  numReduceMsgs : Int
  numShards : Nat
  numPartitions : Nat
  mapComplete : Bool
  reduceComplete : Bool
  mapReduceFlag : Bool
  workerIps : List Str
  droppedWorkerIps : List Str
  ipAddr2worker : Str → Option (WorkerClient Sh)
  readyQueue : List Str
  shards : List Sh
  unfinishedShards : List Sh
  partitions : List Int
  unfinishedPartitions : List Int
  intermediateFiles : List Str
  outputFiles : List Str

inductive Job (Sh : Type)
  | map (shard : Sh)
  | reduce (partition : Int) (files : List Str)
  deriving DecidableEq

/-- A job RPC whose completion has not been consumed. `status` is set when it completes: `true`
for an answer, `false` for an error. -/
structure Call (Sh : Type) where
  workerIpAddr : Str
  job : Job Sh
  status : Option Bool
  deriving DecidableEq

/-- The shard of a map call, and whose it is. -/
def Call.mapJob {Sh : Type} (c : Call Sh) : Option (Str × Sh) :=
  match c.job with
  | .map shard => some (c.workerIpAddr, shard)
  | .reduce _ _ => none

/-- The partition of a reduce call, and whose it is. -/
def Call.reduceJob {Sh : Type} (c : Call Sh) : Option (Str × Int) :=
  match c.job with
  | .map _ => none
  | .reduce partition _ => some (c.workerIpAddr, partition)

inductive Phase
  | map
  | reduce
  deriving DecidableEq, Repr

/-- Where `run` is. `dispatch` is the head of the inner `for`, `send` the lookup and the RPC after
the pop; `setFlag` to `check` are the sections of `schedule_monitor`; `after` is the end of the
outer `while`. -/
inductive RunPc
  | mkdir
  | setInitial
  | awaitInitial
  | resetDropped
  | dispatch (ph : Phase) (i : Nat)
  | send (ph : Phase) (i : Nat) (ip : Str)
  | setFlag (ph : Phase)
  | awaitFlag (ph : Phase)
  | setTrigger (ph : Phase)
  | awaitTrigger (ph : Phase)
  | check (ph : Phase)
  | after (ph : Phase)
  | join (ph : Phase)
  | stop
  | joinMonitor
  | returned
  deriving DecidableEq, Repr

/-- Where `poll_workers` is: in `Next`, in the wait for the master with its `is_map`, or over. -/
inductive PollPc
  | next
  | wait (isMap : Bool)
  | returned
  deriving DecidableEq, Repr

/-- Where `monitor` is; `recv i` is the head of its receive loop. -/
inductive MonitorPc
  | start
  | head
  | recv (i : Nat)
  | initial
  | trigger
  | sleep
  | final
  | done
  deriving DecidableEq, Repr

/-- The process. `idx2files` is the local of `run`, with the keys in the order of the iteration;
`removed` lists the files removed. The last four fields are history that no step reads: the jobs
sent, and the jobs whose answer was accepted. -/
structure State (Sh : Type) where
  master : Master Sh
  run : RunPc
  poll : PollPc
  monitor : MonitorPc
  calls : List (Call Sh)
  pings : List Str
  idx2files : List (Int × List Str)
  removed : List Str
  aborted : Bool
  mapSent : List (Str × Sh)
  mapDone : List (Str × Sh)
  reduceSent : List (Str × Int × List Str)
  reduceDone : List (Str × Int)

variable {Sh : Type}

/-! ## The constructor and the failure of a worker -/

def WorkerClient.new : WorkerClient Sh :=
  { mapShards := [], reducePartitions := [], completedMapJobs := 0, completedReduceJobs := 0 }

/-- `Master::Master`. -/
def Master.new (spec : Spec Sh) : Master Sh :=
  { outputDir := spec.outputDir
    initialMonitorJob := false
    stopMonitoring := false
    triggerMonitoring := false
    numWorkers := spec.workers.length
    numDroppedWorkers := 0
    numDroppedMapJobs := 0
    numDroppedReduceJobs := 0
    numMapMsgs := 0
    numReduceMsgs := 0
    numShards := spec.shards.length
    numPartitions := spec.nOutputFiles
    mapComplete := false
    reduceComplete := false
    mapReduceFlag := false
    workerIps := spec.workers
    droppedWorkerIps := []
    ipAddr2worker := fun ip => if ip ∈ spec.workers then some .new else none
    readyQueue := spec.workers
    shards := spec.shards
    unfinishedShards := []
    partitions := []
    unfinishedPartitions := []
    intermediateFiles := []
    outputFiles := [] }

/-- `output_dir + "/" + std::to_string(partition_id)`. -/
def outputFile (outputDir : Str) (partition : Int) : Str :=
  outputDir ++ str "/" ++ decimalInt partition

theorem outputFile_inj {dir : Str} {p q : Nat} (hp : p ≤ intMax) (hq : q ≤ intMax) :
    outputFile dir p = outputFile dir q ↔ p = q := by
  refine ⟨fun h => ?_, fun h => h ▸ rfl⟩
  have hread := congrArg stoi (List.append_cancel_left h)
  rw [stoi_decimalInt (by omega) (by omega), stoi_decimalInt (by omega) (by omega)] at hread
  exact Int.ofNat_inj.mp (Option.some.inj hread)

/-- The lambda of `handle_worker_failure`. -/
def Master.removeWorkerIp (m : Master Sh) (ip : Str) : Master Sh :=
  { m with
    ipAddr2worker := Function.update m.ipAddr2worker ip none
    workerIps := m.workerIps.erase ip
    droppedWorkerIps := m.droppedWorkerIps ++ [ip] }

/-- The map branch of `handle_worker_failure`. -/
def Master.dropMap (m : Master Sh) (ip : Str) (client : WorkerClient Sh) : Master Sh × List Str :=
  -- only the first file whose name contains the port is erased
  let madeBy := fun file : Str => decide (portOf ip <:+: file)
  ({ m.removeWorkerIp ip with
    unfinishedShards := m.unfinishedShards ++ client.mapShards
    numDroppedMapJobs := m.numDroppedMapJobs + client.completedMapJobs
    intermediateFiles := m.intermediateFiles.eraseP madeBy
    numWorkers := m.numWorkers - 1
    numDroppedWorkers := m.numDroppedWorkers + 1 }, (m.intermediateFiles.find? madeBy).toList)

/-- The reduce branch of `handle_worker_failure`. -/
def Master.dropReduce (m : Master Sh) (ip : Str) (client : WorkerClient Sh) : Master Sh × List Str :=
  ({ m.removeWorkerIp ip with
    unfinishedPartitions := m.unfinishedPartitions ++ client.reducePartitions
    numDroppedReduceJobs := m.numDroppedReduceJobs + client.completedReduceJobs
    numWorkers := m.numWorkers - 1
    numDroppedWorkers := m.numDroppedWorkers + 1 },
    client.reducePartitions.map (outputFile m.outputDir))

/-- `handle_worker_failure`, with the files it removes. `none` is the use of a null client, for
which only the map branch tests. -/
def Master.handleWorkerFailure (m : Master Sh) (ip : Str) : Option (Master Sh × List Str) :=
  if m.mapComplete = false then
    match m.ipAddr2worker ip with
    | none => some (m, [])
    | some client => some (m.dropMap ip client)
  else (m.ipAddr2worker ip).map (m.dropReduce ip)

/-! ## `poll_workers` -/

/-- `std::set::insert` of a file name. -/
def insertFile (f : Str) : List Str → List Str
  | [] => [f]
  | g :: gs => if f = g then g :: gs else if f < g then f :: g :: gs else g :: insertFile f gs

theorem mem_insertFile {f g : Str} {files : List Str} : f ∈ insertFile g files ↔ f = g ∨ f ∈ files := by
  induction files with
  | nil => simp [insertFile]
  | cons x xs ih =>
    unfold insertFile
    split
    · next he => simp [he]
    · split
      · simp
      · simp only [List.mem_cons, ih]
        tauto

theorem mem_foldl_insertFile {f : Str} {reported files : List Str} :
    f ∈ reported.foldl (fun files f => insertFile f files) files ↔ f ∈ reported ∨ f ∈ files := by
  induction reported generalizing files with
  | nil => simp
  | cons x xs ih =>
    rw [List.foldl_cons, ih, mem_insertFile, List.mem_cons]
    tauto

/-- The names stay in order, each once. -/
theorem sorted_insertFile {f : Str} {files : List Str} (h : files.Pairwise (· < ·)) :
    (insertFile f files).Pairwise (· < ·) := by
  induction files with
  | nil => exact List.pairwise_singleton _ _
  | cons g gs ih =>
    obtain ⟨hg, hgs⟩ := List.pairwise_cons.mp h
    unfold insertFile
    split
    · exact h
    · next hne =>
      split
      · next hlt =>
        refine List.pairwise_cons.mpr ⟨fun x hx => ?_, h⟩
        rcases List.mem_cons.mp hx with rfl | hx
        · exact hlt
        · exact List.lt_trans hlt (hg x hx)
      · next hnot =>
        refine List.pairwise_cons.mpr ⟨fun x hx => ?_, ih hgs⟩
        rcases mem_insertFile.mp hx with rfl | hx
        · exact Std.lt_of_le_of_ne hnot (Ne.symm hne)
        · exact hg x hx

theorem sorted_foldl_insertFile {reported files : List Str} (h : files.Pairwise (· < ·)) :
    (reported.foldl (fun files f => insertFile f files) files).Pairwise (· < ·) := by
  induction reported generalizing files with
  | nil => exact h
  | cons x xs ih => exact ih (sorted_insertFile h)

theorem nodup_of_sorted {files : List Str} (h : files.Pairwise (· < ·)) : files.Nodup := by
  refine h.imp fun {f g} hlt => ?_
  rintro rfl
  exact List.lt_irrefl f hlt

/-- An answer to a map job that is accepted. -/
def Master.acceptMap (m : Master Sh) (ip : Str) (client : WorkerClient Sh) : Master Sh :=
  { m with
    readyQueue := m.readyQueue ++ [ip]
    numMapMsgs := m.numMapMsgs + 1
    ipAddr2worker := Function.update m.ipAddr2worker ip
      (some { client with completedMapJobs := client.completedMapJobs + 1 })
    intermediateFiles := (mapResultFiles m.numPartitions ip).foldl
      (fun files f => insertFile f files) m.intermediateFiles }

/-- An answer to a reduce job that is accepted. -/
def Master.acceptReduce (m : Master Sh) (ip : Str) (client : WorkerClient Sh) (partition : Int) :
    Master Sh :=
  { m with
    readyQueue := m.readyQueue ++ [ip]
    numReduceMsgs := m.numReduceMsgs + 1
    ipAddr2worker := Function.update m.ipAddr2worker ip
      (some { client with completedReduceJobs := client.completedReduceJobs + 1 })
    outputFiles := m.outputFiles ++ [outputFile m.outputDir partition] }

/-- `poll_workers` up to `cleanup`, for a call that completed with `ok`. -/
def Master.consume (m : Master Sh) (call : Call Sh) (ok : Bool) : Master Sh :=
  if ok then
    if call.workerIpAddr ∈ m.workerIps then
      match m.ipAddr2worker call.workerIpAddr, call.job with
      | none, _ => { m with readyQueue := m.readyQueue ++ [call.workerIpAddr] }
      | some client, .map _ => m.acceptMap call.workerIpAddr client
      | some client, .reduce partition _ => m.acceptReduce call.workerIpAddr client partition
    else m
  else
    match call.job with
    | .map _ => { m with numDroppedMapJobs := m.numDroppedMapJobs + 1 }
    | .reduce _ _ => { m with numDroppedReduceJobs := m.numDroppedReduceJobs + 1 }

/-- The answer of `ip` to a job is one that `consume` counts. -/
def Master.accepts (m : Master Sh) (ip : Str) : Bool :=
  decide (ip ∈ m.workerIps) && (m.ipAddr2worker ip).isSome

/-- `notify_master`. -/
def Master.notifyMaster (m : Master Sh) : Bool :=
  decide (m.numDroppedWorkers = 0 ∧ m.numMapMsgs - m.numDroppedMapJobs = m.numShards ∧
      m.mapComplete = false) ||
    decide (m.numDroppedWorkers = 0 ∧ m.numReduceMsgs - m.numDroppedReduceJobs = m.numPartitions ∧
      m.reduceComplete = false) ||
    decide (m.numDroppedWorkers > 0)

/-- Whether `poll_workers` clears `map_reduce_flag` and waits for the master. -/
def Master.handsOff (m : Master Sh) : Bool := m.mapReduceFlag && m.notifyMaster

/-- The test at the end of an iteration of `poll_workers`. -/
def Master.pollReturns (m : Master Sh) (isMap : Bool) : Bool :=
  (m.mapComplete && isMap) || (m.reduceComplete && !isMap)

/-- Where `poll_workers` is after `cleanup`: in the wait, or past the end of the iteration. -/
def Master.pollPc (m : Master Sh) : PollPc :=
  if m.handsOff then .wait (!m.mapComplete)
  else if m.pollReturns false then .returned
  else .next

/-! ## `schedule_monitor` -/

/-- All map jobs are done, as `schedule_monitor` sees it. -/
def Master.mapJobsDone (m : Master Sh) : Bool :=
  decide (m.unfinishedShards = [] ∧ m.numMapMsgs - m.numDroppedMapJobs = m.numShards)

/-- All reduce jobs are done, as `schedule_monitor` sees it. -/
def Master.reduceJobsDone (m : Master Sh) : Bool :=
  decide (m.unfinishedPartitions = [] ∧ m.outputFiles.length = m.numPartitions)

/-- The last section of `schedule_monitor`: `if (!map_complete) .. else if (!reduce_complete) ..`,
each of which can only set its own flag. -/
def Master.checkComplete (m : Master Sh) : Master Sh :=
  { m with
    mapComplete := m.mapComplete || m.mapJobsDone
    reduceComplete := m.reduceComplete || (m.mapComplete && m.reduceJobsDone)
    mapReduceFlag := true
    numDroppedWorkers := 0 }

/-! ## `run` -/

/-- The length of the list that the inner `for` of a phase goes through. -/
def Master.numJobs (m : Master Sh) : Phase → Nat
  | .map => m.shards.length
  | .reduce => m.partitions.length

/-- `idx2files[partition]` while it is filled: the files of the partition, in the order of
`intermediate_files`. -/
def filesOf (files : List Str) (partition : Int) : List Str :=
  files.filter fun f => fileIdx f == some partition

theorem mem_filesOf {files : List Str} {p : Int} {f : Str} :
    f ∈ filesOf files p ↔ f ∈ files ∧ fileIdx f = some p := by
  simp [filesOf]

/-- `idx2files[partition]`, which is empty for a key that the map does not have. -/
def State.filesFor (s : State Sh) (partition : Int) : List Str :=
  ((s.idx2files.find? fun x => x.1 == partition).map Prod.snd).getD []

/-- A popped worker is used unless it has been dropped. -/
def State.pop (s : State Sh) (ph : Phase) (i : Nat) (ip : Str) (rest : List Str) : State Sh :=
  { s with
    master := { s.master with readyQueue := rest }
    run := if ip ∈ s.master.droppedWorkerIps then .dispatch ph i else .send ph i ip }

/-- `send_mapper_job`. -/
def State.sendMapperJob (s : State Sh) (i : Nat) (ip : Str) (client : WorkerClient Sh) (shard : Sh) :
    State Sh :=
  { s with
    master := { s.master with
      ipAddr2worker := Function.update s.master.ipAddr2worker ip
        (some { client with mapShards := client.mapShards ++ [shard] }) }
    run := .dispatch .map (i + 1)
    calls := s.calls ++ [⟨ip, .map shard, none⟩]
    mapSent := s.mapSent ++ [(ip, shard)] }

/-- `send_reducer_job`, which does not record the partition in the client. -/
def State.sendReducerJob (s : State Sh) (i : Nat) (ip : Str) (partition : Int) : State Sh :=
  { s with
    run := .dispatch .reduce (i + 1)
    calls := s.calls ++ [⟨ip, .reduce partition (s.filesFor partition), none⟩]
    reduceSent := s.reduceSent ++ [(ip, partition, s.filesFor partition)] }

def State.abort (s : State Sh) : State Sh := { s with aborted := true }

/-- The lookup of the client and the RPC of one dispatch. -/
def State.send (s : State Sh) (ph : Phase) (i : Nat) (ip : Str) : State Sh :=
  match s.master.ipAddr2worker ip with
  | none => s.abort
  | some client =>
    match ph with
    | .map =>
      match s.master.shards[i]? with
      | some shard => s.sendMapperJob i ip client shard
      | none => s.abort
    | .reduce =>
      match s.master.partitions[i]? with
      | some partition => s.sendReducerJob i ip partition
      | none => s.abort

/-- The end of the outer `while` of the map phase. -/
def State.afterMap (s : State Sh) : State Sh :=
  let m := s.master
  let complete := decide (m.unfinishedShards = [] ∧ m.mapComplete = true)
  let m := if complete then { m with shards := [] } else m
  { s with
    master := if m.unfinishedShards = [] then m
      else { m with shards := m.unfinishedShards, unfinishedShards := [] }
    run := if complete then .join .map else .dispatch .map 0 }

/-- The end of the outer `while` of the reduce phase. -/
def State.afterReduce (s : State Sh) : State Sh :=
  let m := s.master
  let complete := decide (m.unfinishedPartitions = [] ∧ m.reduceComplete = true)
  let m := if complete then { m with partitions := [] } else m
  { s with
    master := if m.unfinishedPartitions = [] then m
      else { m with partitions := m.unfinishedPartitions, unfinishedPartitions := [] }
    run := if complete then .join .reduce else .dispatch .reduce 0 }

/-- Between the phases: the partitions of the intermediate files, in the order of an unordered
map, and the second `poll_workers`. -/
def State.startReduce (s : State Sh) (order : List Int) : State Sh :=
  { s with
    master := { s.master with partitions := s.master.partitions ++ order }
    run := .dispatch .reduce 0
    poll := .next
    idx2files := order.map fun p => (p, filesOf s.master.intermediateFiles p) }

/-- The next step of `run`. `order` is used between the phases only. -/
def State.runStep (s : State Sh) (order : List Int) : Option (State Sh) :=
  match s.run with
  | .mkdir => some { s with run := .setInitial }
  | .setInitial => some { s with
      master := { s.master with initialMonitorJob := true }, run := .awaitInitial }
  | .awaitInitial =>
    if s.master.initialMonitorJob = false then some { s with run := .resetDropped } else none
  | .resetDropped => some { s with
      master := { s.master with numDroppedWorkers := 0 }, run := .dispatch .map 0 }
  | .dispatch ph i =>
    if i < s.master.numJobs ph then
      match s.master.readyQueue with
      | [] => none
      | ip :: rest => some (s.pop ph i ip rest)
    else some { s with run := .setFlag ph }
  | .send ph i ip => some (s.send ph i ip)
  | .setFlag ph => some { s with
      master := { s.master with mapReduceFlag := true }, run := .awaitFlag ph }
  | .awaitFlag ph =>
    if s.master.mapReduceFlag = false then some { s with run := .setTrigger ph } else none
  | .setTrigger ph => some { s with
      master := { s.master with triggerMonitoring := true }, run := .awaitTrigger ph }
  | .awaitTrigger ph =>
    if s.master.triggerMonitoring = false then some { s with run := .check ph } else none
  | .check ph => some { s with master := s.master.checkComplete, run := .after ph }
  | .after .map => some s.afterMap
  | .after .reduce => some s.afterReduce
  | .join .map =>
    if s.poll = .returned then
      match s.master.intermediateFiles.mapM fileIdx with
      | none => some s.abort
      | some idxs => if order.Perm idxs.dedup then some (s.startReduce order) else none
    else none
  | .join .reduce => if s.poll = .returned then some { s with run := .stop } else none
  | .stop => some { s with
      master := { s.master with stopMonitoring := true, triggerMonitoring := true }
      run := .joinMonitor }
  | .joinMonitor =>
    if s.monitor = .done then
      some { s with run := .returned, removed := s.removed ++ s.master.intermediateFiles }
    else none
  | .returned => none

/-! ## The other threads -/

/-- `poll_workers` from `cleanup` of call number `k`, up to its wait or to the end of the iteration
if it does not wait. `m` is the master before `cleanup`; the call completed the jobs `maps` and
`reduces`. -/
def State.cleanup (s : State Sh) (k : Nat) (m : Master Sh) (maps : List (Str × Sh))
    (reduces : List (Str × Int)) : State Sh :=
  { s with
    master := { m with mapReduceFlag := m.mapReduceFlag && !m.handsOff }
    poll := m.pollPc
    calls := s.calls.eraseIdx k
    mapDone := s.mapDone ++ maps
    reduceDone := s.reduceDone ++ reduces }

/-- The first part of an iteration of `poll_workers`. -/
def State.consume (s : State Sh) (k : Nat) (call : Call Sh) (ok : Bool) : State Sh :=
  let accepted := ok && s.master.accepts call.workerIpAddr
  s.cleanup k (s.master.consume call ok) (if accepted then call.mapJob.toList else [])
    (if accepted then call.reduceJob.toList else [])

/-- `poll_workers` takes the completed call number `k`. -/
def State.pollStep (s : State Sh) (k : Nat) : Option (State Sh) :=
  if s.poll = .next then
    s.calls[k]?.bind fun call => call.status.map (s.consume k call)
  else none

/-- `poll_workers` from its wait to the end of the iteration. -/
def State.resume (s : State Sh) : Option (State Sh) :=
  match s.poll with
  | .wait isMap =>
    if s.master.mapReduceFlag = true then
      some { s with
        master := { s.master with mapReduceFlag := false }
        poll := if s.master.pollReturns isMap then .returned else .next }
    else none
  | _ => none

/-- The next step of `monitor`, except for the receipt of a pong. -/
def State.monitorStep (s : State Sh) : Option (State Sh) :=
  match s.monitor with
  | .start => some { s with
      master := { s.master with initialMonitorJob := true, stopMonitoring := false }
      monitor := .head }
  | .head =>
    if s.master.stopMonitoring then some { s with monitor := .final }
    else if ∀ ip ∈ s.master.workerIps, (s.master.ipAddr2worker ip).isSome then
      some { s with pings := s.pings ++ s.master.workerIps, monitor := .recv 0 }
    else some s.abort
  | .recv i => if (i : Int) < s.master.numWorkers then none else some { s with monitor := .initial }
  | .initial => some { s with
      master := { s.master with initialMonitorJob := false }, monitor := .trigger }
  | .trigger => some { s with
      master := { s.master with triggerMonitoring := false }, monitor := .sleep }
  | .sleep => some { s with monitor := .head }
  | .final => some { s with
      master := { s.master with triggerMonitoring := false }, monitor := .done }
  | .done => none

/-- The receipt of the pong of ping number `k`. -/
def State.pong (s : State Sh) (k : Nat) (ok : Bool) : Option (State Sh) :=
  match s.monitor, s.pings[k]? with
  | .recv i, some ip =>
    if (i : Int) < s.master.numWorkers then
      if ok then some { s with pings := s.pings.eraseIdx k, monitor := .recv (i + 1) }
      else
        match s.master.handleWorkerFailure ip with
        | none => some s.abort
        | some (m, removed) => some { s with
            master := m, removed := s.removed ++ removed
            pings := s.pings.eraseIdx k, monitor := .recv (i + 1) }
    else none
  | _, _ => none

/-- Call number `k` completes. -/
def State.respond (s : State Sh) (k : Nat) (ok : Bool) : Option (State Sh) :=
  match s.calls[k]? with
  | some ⟨ip, job, none⟩ => some { s with calls := s.calls.set k ⟨ip, job, some ok⟩ }
  | _ => none

inductive Action
  | run (order : List Int)
  | mkdirFails
  | poll (k : Nat)
  | resume
  | monitor
  | pong (k : Nat) (ok : Bool)
  | respond (k : Nat) (ok : Bool)
  deriving DecidableEq

def State.next (a : Action) (s : State Sh) : Option (State Sh) :=
  if s.aborted then none
  else
    match a with
    | .run order => s.runStep order
    | .mkdirFails => if s.run = .mkdir then some s.abort else none
    | .poll k => s.pollStep k
    | .resume => s.resume
    | .monitor => s.monitorStep
    | .pong k ok => s.pong k ok
    | .respond k ok => s.respond k ok

def system (spec : Spec Sh) : System (State Sh) Action where
  init :=
    { master := .new spec
      run := .mkdir
      poll := .next
      monitor := .start
      calls := []
      pings := []
      idx2files := []
      removed := []
      aborted := false
      mapSent := []
      mapDone := []
      reduceSent := []
      reduceDone := [] }
  next := State.next

/-! ## Small runs -/

/-- A job with `n` workers beside the first one, and one partition. -/
def smallSpec (n : Nat) (shards : List Nat) : Spec Nat where
  workers := [1] :: (List.range n).map fun i => [UInt8.ofNat (i + 2)]
  outputDir := []
  nOutputFiles := 1
  shards := shards
  workers_ne := List.cons_ne_nil _ _
  nOutputFiles_pos := by decide
  nOutputFiles_le := by decide

/-- The first round of `numWorkers` pings is answered, and `run` comes to the dispatch loop. -/
def startUp (numWorkers : Nat) : List Action :=
  List.replicate 2 (Action.run []) ++ List.replicate 2 Action.monitor ++
    List.replicate numWorkers (Action.pong 0 true) ++ List.replicate 2 Action.monitor ++
    List.replicate 2 (Action.run [])

end AdvancedOS.MapReduce
