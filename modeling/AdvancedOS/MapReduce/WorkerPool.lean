import AdvancedOS.MapReduce.Master
import AdvancedOS.MapReduce.Spec

/-!
# The pool of workers

The constructor of `Master` makes three containers out of the list `worker_ipaddr_ports`, and each worker
names its intermediate files after what follows the first colon of its address. `validate_mr_spec`
counts the addresses and does not compare them.

* `construct_eq`: the containers that the constructor makes.
* `pool_consistent_iff`: they list the same workers once each, with files of their own, if and only if what
  follows the first colon is different for all of them.
-/

namespace AdvancedOS.MapReduce

variable {Sh : Type}

/-! ## The constructor -/

/-- A turn of the loop. -/
def Master.addWorker (m : Master Sh) (ip : Str) : Master Sh :=
  { m with
    ipAddr2worker := Function.update m.ipAddr2worker ip (some .new)
    readyQueue := m.readyQueue ++ [ip]
    workerIps := m.workerIps ++ [ip] }

/-- The members that the loop leaves alone, and the containers before it. -/
def Master.blank (spec : MapReduceSpec) (shards : List Sh) : Master Sh :=
  { outputDir := spec.outputDir
    initialMonitorJob := false
    stopMonitoring := false
    triggerMonitoring := false
    numWorkers := spec.nWorkers
    numDroppedWorkers := 0
    numDroppedMapJobs := 0
    numDroppedReduceJobs := 0
    numMapMsgs := 0
    numReduceMsgs := 0
    numShards := shards.length
    numPartitions := spec.nOutputFiles.toNat
    mapComplete := false
    reduceComplete := false
    mapReduceFlag := false
    workerIps := []
    droppedWorkerIps := []
    ipAddr2worker := fun _ => none
    readyQueue := []
    shards := shards
    unfinishedShards := []
    partitions := []
    unfinishedPartitions := []
    intermediateFiles := []
    outputFiles := [] }

/-- `Master::Master`; `none` is an index that `worker_ipaddr_ports` does not have. -/
def Master.construct (spec : MapReduceSpec) (shards : List Sh) : Option (Master Sh) :=
  (List.range spec.nWorkers.toNat).foldlM (fun m i => spec.workerIpaddrPorts[i]?.map m.addWorker)
    (.blank spec shards)

/-- The three containers list the same `n` workers, each once. -/
structure Master.Consistent (n : Int) (m : Master Sh) : Prop where
  numWorkers : (m.workerIps.length : Int) = n
  workerIps : m.workerIps.Nodup
  readyQueue : m.readyQueue.Perm m.workerIps
  ipAddr2worker : ∀ ip, (m.ipAddr2worker ip).isSome ↔ ip ∈ m.workerIps

/-- No two of these workers write the same file. -/
def PrivateFiles (n : Nat) (workers : List Str) : Prop :=
  workers.Pairwise fun a b => ∀ f ∈ mapResultFiles n a, f ∉ mapResultFiles n b

variable {spec : MapReduceSpec} {shards : List Sh} {m : Master Sh} {fileExists isDirectory : Str → Bool}
  {n : Nat} {workers : List Str}

theorem foldl_addWorker (m : Master Sh) (ips : List Str) : ips.foldl Master.addWorker m =
    { m with
      ipAddr2worker := fun ip => if ip ∈ ips then some .new else m.ipAddr2worker ip
      readyQueue := m.readyQueue ++ ips
      workerIps := m.workerIps ++ ips } := by
  induction ips generalizing m with
  | nil => simp
  | cons ip ips ih =>
    rw [List.foldl_cons, ih]
    have hmap : (fun x => if x ∈ ips then some WorkerClient.new else (m.addWorker ip).ipAddr2worker x) =
        fun x => if x ∈ ip :: ips then some WorkerClient.new else m.ipAddr2worker x := by
      funext x
      by_cases hx : x = ip
      · simp [hx, Master.addWorker]
      · simp [hx, Master.addWorker]
    rw [hmap]
    simp [Master.addWorker]

theorem foldlM_range_addWorker {ips : List Str} (m : Master Sh) (hn : n ≤ ips.length) :
    (List.range n).foldlM (fun m i => ips[i]?.map m.addWorker) m = some ((ips.take n).foldl Master.addWorker m) := by
  induction n with
  | zero => rfl
  | succ n ih =>
    have hget : ips[n]? = some ips[n] := List.getElem?_eq_getElem hn
    rw [List.range_succ, List.foldlM_append, ih (Nat.le_of_succ_le hn), List.take_add_one, hget, List.foldl_append]
    show (ips[n]?.map (Master.addWorker _)).bind some = _
    rw [hget]
    rfl

/-- A specification that is accepted has an address for every index. -/
theorem construct_eq (h : validateMrSpec fileExists isDirectory spec = true) (shards : List Sh) :
    Master.construct spec shards = some
      { Master.blank spec shards with
        ipAddr2worker := fun ip => if ip ∈ spec.workerIpaddrPorts then some .new else none
        readyQueue := spec.workerIpaddrPorts
        workerIps := spec.workerIpaddrPorts } := by
  obtain ⟨-, hlength, -⟩ := validateMrSpec_iff.mp h
  have hn : spec.nWorkers.toNat = spec.workerIpaddrPorts.length := by omega
  rw [Master.construct, hn, foldlM_range_addWorker _ (Nat.le_refl _), List.take_length, foldl_addWorker]
  rfl

/-- It is the master that the runs start from. -/
theorem construct_eq_new (h : validateMrSpec fileExists isDirectory spec = true) (hint : IsInt spec.nOutputFiles)
    (shards : List Sh) : ∃ s : Spec Sh, s.workers = spec.workerIpaddrPorts ∧ s.shards = shards ∧
      Master.construct spec shards = some (Master.new s) := by
  obtain ⟨hworkers, hlength, -, -, -, -, houtputs, -⟩ := validateMrSpec_iff.mp h
  have hne : spec.workerIpaddrPorts ≠ [] := List.ne_nil_of_length_pos (by omega)
  have hle : spec.nOutputFiles.toNat ≤ intMax := by
    have hmax := hint.2
    omega
  refine ⟨⟨spec.workerIpaddrPorts, spec.outputDir, spec.nOutputFiles.toNat, shards, hne, by omega, hle⟩, rfl, rfl, ?_⟩
  rw [construct_eq h, Master.new, hlength]
  rfl

/-! ## Private files -/

theorem mapResultFiles_shared {a b f : Str} (ha : f ∈ mapResultFiles n a) (hb : f ∈ mapResultFiles n b) :
    portOf a = portOf b := by
  obtain ⟨i, -, rfl⟩ := List.mem_map.mp ha
  obtain ⟨j, -, heq⟩ := List.mem_map.mp hb
  exact (intermediateFile_cancel heq).2.symm

theorem privateFiles_iff (hn : 0 < n) : PrivateFiles n workers ↔ (workers.map portOf).Nodup := by
  rw [List.Nodup, List.pairwise_map]
  refine ⟨fun h => h.imp fun hdisjoint heq => ?_, fun h => h.imp fun hne f ha hb => ?_⟩
  · have hzero : ∀ ip, intermediateFile 0 (portOf ip) ∈ mapResultFiles n ip :=
      fun ip => List.mem_map.mpr ⟨0, List.mem_range.mpr hn, rfl⟩
    exact hdisjoint _ (hzero _) (heq ▸ hzero _)
  · exact hne (mapResultFiles_shared ha hb)

/-- After the constructor the containers list the workers of an accepted specification once each, and no
two workers share a file, if and only if no two addresses have the same text after the first colon. -/
theorem pool_consistent_iff (h : validateMrSpec fileExists isDirectory spec = true) (shards : List Sh) :
    ((∃ m, Master.construct spec shards = some m ∧ m.Consistent spec.nWorkers) ∧
      PrivateFiles spec.nOutputFiles.toNat spec.workerIpaddrPorts) ↔
    (spec.workerIpaddrPorts.map portOf).Nodup := by
  obtain ⟨-, hlength, -, -, -, -, houtputs, -⟩ := validateMrSpec_iff.mp h
  rw [privateFiles_iff (by omega), and_iff_right_iff_imp]
  intro hports
  refine ⟨_, construct_eq h shards, hlength, List.Nodup.of_map _ hports, List.Perm.refl _, fun ip => ?_⟩
  show (if ip ∈ spec.workerIpaddrPorts then some WorkerClient.new else none).isSome ↔ _
  split
  · next hmem => exact iff_of_true rfl hmem
  · next hmem => exact iff_of_false Bool.false_ne_true hmem

/-- Two workers on one machine. -/
theorem pool_consistent_two_ports :
    (∃ m, Master.construct sampleSpec ([] : List Nat) = some m ∧ m.Consistent 2) ∧
    PrivateFiles 8 sampleSpec.workerIpaddrPorts :=
  (pool_consistent_iff (show validateMrSpec (fun _ => true) (fun _ => true) sampleSpec = true by decide) []).mpr
    (by decide)

/-- Two workers with the same port on two machines are accepted, and so is one worker twice. -/
theorem same_port_accepted :
    (validateMrSpec (fun _ => true) (fun _ => true)
        { sampleSpec with workerIpaddrPorts := [str "a:5000", str "b:5000"] } = true ∧
      ¬ PrivateFiles 8 [str "a:5000", str "b:5000"]) ∧
    validateMrSpec (fun _ => true) (fun _ => true)
        { sampleSpec with workerIpaddrPorts := [str "a:5000", str "a:5000"] } = true ∧
      ¬ [str "a:5000", str "a:5000"].Nodup := by
  refine ⟨⟨by decide, ?_⟩, by decide, by decide⟩
  rw [privateFiles_iff (by decide)]
  decide

end AdvancedOS.MapReduce
