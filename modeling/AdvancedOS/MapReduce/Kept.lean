import AdvancedOS.MapReduce.EndToEnd
import AdvancedOS.MapReduce.Filed

/-!
# No record is lost between the input and the reducer

`Kept` follows the pairs that the mapper emits: each of them is in a shard that is not handed out, is
still to be written by a job, or has been written by a worker. `log w` is what the worker `w` has
written, and its files have exactly these records, each in the file of its partition.

* `kept_step`, `kept_reach`: this holds in every run.
* `Kept.records`: after the map jobs, the files of a partition have exactly its pairs.
-/

namespace AdvancedOS.MapReduce.EndToEnd

open Lines Lts Lists Grouping

variable {I : Input} {m : Mapper} {s t : State} {log : Str → List (Str × Str)} {w w' : Str} {p q : Nat}

/-! ## Names -/

theorem Input.worker_inj (hw : w ∈ I.workers) (hw' : w' ∈ I.workers) (h : portOf w = portOf w') : w = w' :=
  List.inj_on_of_nodup_map I.ports_nodup hw hw' h

theorem Input.file_inj (hw : w ∈ I.workers) (hw' : w' ∈ I.workers) (hp : p < I.nOutputFiles)
    (hq : q < I.nOutputFiles) (h : intermediateFile p (portOf w) = intermediateFile q (portOf w')) :
    p = q ∧ w = w' := by
  have hle := I.nOutputFiles_le
  obtain ⟨hidx, hport⟩ := (intermediateFile_inj (by omega) (by omega)).mp h
  exact ⟨hidx, I.worker_inj hw hw' hport⟩

theorem Input.fileOfRecord_eq (hw : w ∈ I.workers) (hw' : w' ∈ I.workers) (hp : p < I.nOutputFiles)
    (x : Str × Str) : fileOfRecord I.hash I.nOutputFiles w x = intermediateFile p (portOf w') ↔
      w = w' ∧ partitionOf I.hash I.nOutputFiles x.1 = p := by
  have hlt : partitionOf I.hash I.nOutputFiles x.1 < I.nOutputFiles := Nat.mod_lt _ I.nOutputFiles_pos
  constructor
  · intro h
    obtain ⟨hpart, hworker⟩ := I.file_inj hw hw' hlt hp h
    exact ⟨hworker, hpart⟩
  · rintro ⟨rfl, rfl⟩
    rfl

theorem outputFile_ne {dir port : Str} : outputFile dir p ≠ intermediateFile q port := ne_intermediateFile

theorem workers_update {workers : Str → Worker} {worker x : Worker}
    (h : Function.update workers w worker w' = x) : w' = w ∧ worker = x ∨ workers w' = x := by
  by_cases hww : w' = w
  · subst hww
    rw [Function.update_self] at h
    exact .inl ⟨rfl, h⟩
  · rw [Function.update_of_ne hww] at h
    exact .inr h

/-! ## The invariant -/

/-- The pairs that a worker has not written yet. -/
def Worker.left (files : Files) (map : Str → List (Str × Str)) : Worker → List (Str × Str)
  | mapping job | crashed job => job.left files map
  | _ => []

/-- The pairs that the mapper emits for the lines that are read from the shards. -/
def readPairs (I : Input) (m : Mapper) : List (Str × Str) := I.shards.flatMap (shardPairs I.files m.map)

/-- The pairs of a partition. -/
def partPairs (I : Input) (p : Nat) (pairs : List (Str × Str)) : List (Str × Str) :=
  pairs.filter fun x => partitionOf I.hash I.nOutputFiles x.1 = p

structure Kept (I : Input) (m : Mapper) (s : State) (log : Str → List (Str × Str)) : Prop where
  written : ∀ w ∈ I.workers, ∀ p < I.nOutputFiles,
    (s.disk (intermediateFile p (portOf w))).getD [] = recordText (partPairs I p (log w))
  conserved : (readPairs I m).Perm (s.pending.flatMap (shardPairs I.files m.map) ++
    I.workers.flatMap fun w => log w ++ (s.workers w).left I.files m.map)
  ready : ∀ w job, s.workers w = .mapping job →
    job.base.Ready I.nOutputFiles w ∧ ∀ r ∈ job.ranges, r ∈ I.shards.flatten
  crashed : ∀ w job, s.workers w = .crashed job → ∃ r ∈ I.shards.flatten, rangeLines I.files r = none
  shards : ∀ shard ∈ s.pending, shard ∈ I.shards
  known : ∀ w ∈ I.workers, log w ≠ [] → (s.workers w).isIdle = true → ∀ p < I.nOutputFiles,
    intermediateFile p (portOf w) ∈ s.intermediateFiles
  sorted : s.intermediateFiles.Pairwise (· < ·)
  named : ∀ f ∈ s.intermediateFiles, ∃ w ∈ I.workers, ∃ p < I.nOutputFiles, intermediateFile p (portOf w) = f
  parts : (s.reduced.map Prod.fst).Nodup ∧ ∀ p ∈ s.reduced.map Prod.fst, p < I.nOutputFiles
  fresh : ∀ p < I.nOutputFiles, p ∉ s.reduced.map Prod.fst → (s.disk (outputFile I.outputDir p)).getD [] = []
  reduced : ∀ x ∈ s.reduced, ∃ pairs : List (Str × Str), pairs.Perm (partPairs I x.1 (readPairs I m)) ∧
    x.2 = ((pairs.map recordLine).mapM readRecord).map group ∧
    ∀ calls, x.2 = some calls →
      (s.disk (outputFile I.outputDir x.1)).getD [] = outputText (calls.flatMap fun y => I.reduce y.1 y.2)

theorem kept_init : Kept I m (system I m).init fun _ => [] where
  written _ _ _ _ := rfl
  conserved := by
    have hnone : (I.workers.flatMap fun _ : Str => ([] : List (Str × Str))) = [] := by simp
    show (readPairs I m).Perm (readPairs I m ++ I.workers.flatMap fun _ => [])
    rw [hnone, List.append_nil]
  ready w job h := by cases h
  crashed w job h := by cases h
  shards _ h := h
  known w _ h := absurd rfl h
  sorted := List.Pairwise.nil
  named f h := absurd h List.not_mem_nil
  parts := ⟨List.nodup_nil, fun p h => absurd h List.not_mem_nil⟩
  fresh _ _ _ := rfl
  reduced x h := absurd h List.not_mem_nil

/-- Everything that is written has been emitted. -/
theorem Kept.mem_readPairs (h : Kept I m s log) (hw : w ∈ I.workers) {x : Str × Str} (hx : x ∈ log w) :
    x ∈ readPairs I m := by
  refine h.conserved.mem_iff.mpr (List.mem_append_right _ ?_)
  exact List.mem_flatMap.mpr ⟨w, hw, List.mem_append_left _ hx⟩

theorem exists_line {x : Str × Str} (hx : x ∈ readPairs I m) : ∃ line, x ∈ m.map line := by
  obtain ⟨shard, -, hx⟩ := List.mem_flatMap.mp hx
  obtain ⟨r, -, hx⟩ := List.mem_flatMap.mp hx
  obtain ⟨line, -, hx⟩ := List.mem_flatMap.mp hx
  exact ⟨line, hx⟩

theorem newline_notMem_recordLine {x : Str × Str} (hx : x ∈ readPairs I m) : newline ∉ recordLine x := by
  obtain ⟨line, hx⟩ := exists_line hx
  rw [recordLine, List.mem_append, List.mem_append, not_or, not_or]
  exact ⟨⟨m.newline_key line x hx, by decide⟩, m.newline_value line x hx⟩

/-! ## Map jobs -/

/-- The output files are not written by map jobs. -/
theorem Wrote.output {disk disk' : Files} {pairs : List (Str × Str)}
    (h : Wrote I.hash I.nOutputFiles w disk disk' pairs) (p : Nat) :
    (disk' (outputFile I.outputDir p)).getD [] = (disk (outputFile I.outputDir p)).getD [] := by
  have hnone : ∀ x : Str × Str, fileOfRecord I.hash I.nOutputFiles w x ≠ outputFile I.outputDir p :=
    fun x => outputFile_ne.symm
  rw [h, List.filter_eq_nil_iff.mpr fun x _ => by simpa using hnone x]
  exact List.append_nil _

/-- The files of the other workers are not written, and those of `w` get the records. -/
theorem Wrote.written {disk disk' : Files} {pairs : List (Str × Str)}
    (h : Wrote I.hash I.nOutputFiles w disk disk' pairs) (hw : w ∈ I.workers) (hw' : w' ∈ I.workers)
    (hp : p < I.nOutputFiles)
    (hold : (disk (intermediateFile p (portOf w'))).getD [] = recordText (partPairs I p (log w'))) :
    (disk' (intermediateFile p (portOf w'))).getD [] =
      recordText (partPairs I p (Function.update log w (log w ++ pairs) w')) := by
  rw [h, hold]
  by_cases hww : w = w'
  · subst hww
    have hfilter : (pairs.filter fun x => fileOfRecord I.hash I.nOutputFiles w x = intermediateFile p (portOf w)) =
        partPairs I p pairs := List.filter_congr fun x _ => by simp [I.fileOfRecord_eq hw hw hp]
    have hall : partPairs I p (log w ++ pairs) = partPairs I p (log w) ++ partPairs I p pairs :=
      List.filter_append _ _
    rw [hfilter, Function.update_self, hall, recordText_append]
  · rw [Function.update_of_ne (Ne.symm hww), List.filter_eq_nil_iff.mpr fun x _ => ?_]
    · exact List.append_nil _
    · simp [I.fileOfRecord_eq hw hw' hp, hww]

/-- A step of the job of `w` in which some of its pairs are written. -/
theorem Kept.work (h : Kept I m s log) (hw : w ∈ I.workers) (worker : Worker) (flushed : List (Str × Str))
    {disk : Files} (hbusy : worker.isIdle = false)
    (hleft : flushed ++ worker.left I.files m.map = (s.workers w).left I.files m.map)
    (hwrote : Wrote I.hash I.nOutputFiles w s.disk disk flushed)
    (hready : ∀ job, worker = .mapping job →
      job.base.Ready I.nOutputFiles w ∧ ∀ r ∈ job.ranges, r ∈ I.shards.flatten)
    (hcrashed : ∀ job, worker = .crashed job → ∃ r ∈ I.shards.flatten, rangeLines I.files r = none) :
    Kept I m { s.setWorker w worker with disk := disk } (Function.update log w (log w ++ flushed)) where
  written w' hw' p hp := Wrote.written hwrote hw hw' hp (h.written w' hw' p hp)
  conserved := by
    refine h.conserved.trans (List.Perm.append_left _ (List.Perm.of_eq (List.flatMap_congr fun x _ => ?_)))
    by_cases hx : x = w
    · subst hx
      simp only [State.setWorker, Function.update_self]
      rw [List.append_assoc, hleft]
    · simp only [State.setWorker, Function.update_of_ne hx]
  ready w' job hjob := by
    rcases workers_update hjob with ⟨rfl, hnew⟩ | hold
    · exact hready job hnew
    · exact h.ready w' job hold
  crashed w' job hjob := by
    rcases workers_update hjob with ⟨-, hnew⟩ | hold
    · exact hcrashed job hnew
    · exact h.crashed w' job hold
  shards := h.shards
  known w' hw' hlog hidle p hp := by
    replace hidle : (Function.update s.workers w worker w').isIdle = true := hidle
    by_cases hww : w' = w
    · subst hww
      rw [Function.update_self, hbusy] at hidle
      cases hidle
    · rw [Function.update_of_ne hww] at hidle hlog
      exact h.known w' hw' hlog hidle p hp
  sorted := h.sorted
  named := h.named
  parts := h.parts
  fresh p hp hno := (Wrote.output hwrote p).trans (h.fresh p hp hno)
  reduced x hx := by
    obtain ⟨pairs, hperm, hcalls, houtput⟩ := h.reduced x hx
    exact ⟨pairs, hperm, hcalls, fun calls hsome => (Wrote.output hwrote x.1).trans (houtput calls hsome)⟩

theorem Kept.turn (h : Kept I m s log) (hw : w ∈ I.workers) (hs : turn I m w s = some t) :
    ∃ log', Kept I m t log' := by
  unfold EndToEnd.turn at hs
  split at hs
  · next job hjob =>
    obtain ⟨hready, hranges⟩ := h.ready w job hjob
    have hleft : (s.workers w).left I.files m.map = job.left I.files m.map := by rw [hjob, Worker.left]
    rcases job.turn_cases hready I.nOutputFiles_pos I.files I.hash m.map s.disk with
      ⟨⟨r, hr, hnone⟩, hturn⟩ | ⟨job', disk, flushed, hturn, hready', hsub, hkept, hwrote, -⟩ | ⟨disk, hturn, hwrote⟩
    · rw [hturn] at hs
      obtain rfl := Option.some.inj hs
      refine ⟨_, h.work hw (.crashed job) [] rfl hleft.symm .nil ?_ fun _ _ => ⟨r, hranges r hr, hnone⟩⟩
      intro job' heq
      cases heq
    · rw [hturn] at hs
      obtain rfl := Option.some.inj hs
      refine ⟨_, h.work hw (.mapping job') flushed rfl (hkept.trans hleft.symm) hwrote ?_ ?_⟩
      · rintro job'' ⟨⟩
        exact ⟨hready', fun r hr => hranges r (hsub hr)⟩
      · intro job'' heq
        cases heq
    · rw [hturn] at hs
      obtain rfl := Option.some.inj hs
      refine ⟨_, h.work hw .finished (job.left I.files m.map) rfl ((List.append_nil _).trans hleft.symm) hwrote ?_ ?_⟩
      · intro job' heq
        cases heq
      · intro job' heq
        cases heq
  · cases hs

/-- A shard that is handed out is work that is left. -/
theorem Kept.assign (h : Kept I m s log) (hw : w ∈ I.workers) {i : Nat} (hs : assign I w i s = some t) :
    Kept I m t log := by
  unfold EndToEnd.assign at hs
  split at hs
  · next shard hidle hshard =>
    obtain rfl := Option.some.inj hs
    obtain ⟨hi, hget⟩ := List.getElem?_eq_some_iff.mp hshard
    have hpending : (shard :: s.pending.eraseIdx i).Perm s.pending := hget ▸ List.getElem_cons_eraseIdx_perm hi
    have hchange := flatMap_change (List.Nodup.of_map _ I.ports_nodup) hw
      (f := fun x => log x ++ (s.workers x).left I.files m.map)
      (g := fun x => log x ++ (Function.update s.workers w (.mapping (.start I.nOutputFiles w shard)) x).left
        I.files m.map)
      (c := shardPairs I.files m.map shard) (fun x hx => by rw [Function.update_of_ne hx])
      (by rw [Function.update_self, hidle]; simp [Worker.left])
    refine { h with
      conserved := ?_
      ready := fun w' job hjob => ?_
      crashed := fun w' job hjob => ?_
      shards := fun x hx => h.shards x (List.mem_of_mem_eraseIdx hx)
      known := fun w' hw' hlog hidle' => ?_ }
    · refine h.conserved.trans (((hpending.symm.flatMap_right _).append_right _).trans ?_)
      rw [List.flatMap_cons, List.append_assoc]
      exact (List.perm_append_comm_assoc _ _ _).trans (hchange.symm.append_left _)
    · rcases workers_update hjob with ⟨rfl, hnew⟩ | hold
      · obtain rfl := Worker.mapping.inj hnew
        have hmem : shard ∈ s.pending := hget ▸ List.getElem_mem hi
        exact ⟨⟨rfl, rfl⟩, fun r hr => List.mem_flatten.mpr ⟨shard, h.shards shard hmem, hr⟩⟩
      · exact h.ready w' job hold
    · rcases workers_update hjob with ⟨-, hnew⟩ | hold
      · cases hnew
      · exact h.crashed w' job hold
    · replace hidle' :
          (Function.update s.workers w (.mapping (.start I.nOutputFiles w shard)) w').isIdle = true := hidle'
      by_cases hww : w' = w
      · subst hww
        rw [Function.update_self] at hidle'
        cases hidle'
      · rw [Function.update_of_ne hww] at hidle'
        exact h.known w' hw' hlog hidle'
  · cases hs

/-- The answer makes the files of the worker known. -/
theorem Kept.answer (h : Kept I m s log) (hw : w ∈ I.workers) (hs : answer I w s = some t) : Kept I m t log := by
  unfold EndToEnd.answer at hs
  split at hs
  · next hfinished =>
    obtain rfl := Option.some.inj hs
    refine { h with
      conserved := ?_
      ready := fun w' job hjob => ?_
      crashed := fun w' job hjob => ?_
      known := fun w' hw' hlog hidle p hp => mem_foldl_insertFile.mpr ?_
      sorted := sorted_foldl_insertFile h.sorted
      named := fun f hf => ?_ }
    · refine h.conserved.trans (List.Perm.append_left _ (List.Perm.of_eq (List.flatMap_congr fun x _ => ?_)))
      by_cases hx : x = w
      · subst hx
        simp only [State.setWorker, Function.update_self, hfinished, Worker.left]
      · simp only [State.setWorker, Function.update_of_ne hx]
    · rcases workers_update hjob with ⟨-, hnew⟩ | hold
      · cases hnew
      · exact h.ready w' job hold
    · rcases workers_update hjob with ⟨-, hnew⟩ | hold
      · cases hnew
      · exact h.crashed w' job hold
    · by_cases hww : w' = w
      · subst hww
        exact .inl (List.mem_map.mpr ⟨p, List.mem_range.mpr hp, rfl⟩)
      · replace hidle : (Function.update s.workers w .idle w').isIdle = true := hidle
        rw [Function.update_of_ne hww] at hidle
        exact .inr (h.known w' hw' hlog hidle p hp)
    · rcases mem_foldl_insertFile.mp hf with hf | hf
      · obtain ⟨p, hp, rfl⟩ := List.mem_map.mp hf
        exact ⟨w, hw, p, List.mem_range.mp hp, rfl⟩
      · exact h.named f hf
  · cases hs

/-! ## Reduce jobs -/

/-- The lines of the file of a worker. -/
theorem Kept.lines_file (h : Kept I m s log) (hw : w ∈ I.workers) (hp : p < I.nOutputFiles) :
    lines newline ((s.disk (intermediateFile p (portOf w))).getD []) =
      (partPairs I p (log w)).map recordLine := by
  rw [h.written w hw p hp, recordText]
  refine lines_unlines fun l hl => ?_
  obtain ⟨x, hx, rfl⟩ := List.mem_map.mp hl
  exact newline_notMem_recordLine (h.mem_readPairs hw (List.mem_of_mem_filter hx))

/-- After the map jobs everything is written. -/
theorem Kept.log_perm (h : Kept I m s log) (hmapped : s.Mapped I) :
    (I.workers.flatMap log).Perm (readPairs I m) := by
  have hleft : ∀ w ∈ I.workers, (s.workers w).left I.files m.map = [] := by
    intro w hw
    have hidle := hmapped.2 w hw
    cases hworker : s.workers w with
    | idle | finished => rfl
    | mapping job | crashed job =>
      rw [hworker] at hidle
      cases hidle
  have hall : (I.workers.flatMap fun w => log w ++ (s.workers w).left I.files m.map) = I.workers.flatMap log :=
    List.flatMap_congr fun w hw => by rw [hleft w hw, List.append_nil]
  have hconserved := h.conserved
  rw [hmapped.1, hall] at hconserved
  exact hconserved.symm

/-- The files of a partition have the pairs of the partition, in some order. -/
theorem Kept.records (h : Kept I m s log) (hmapped : s.Mapped I) (hp : p < I.nOutputFiles) :
    ∃ pairs : List (Str × Str), recordsIn s.disk (filesOf s.intermediateFiles p) = pairs.map recordLine ∧
      pairs.Perm (partPairs I p (readPairs I m)) := by
  have hle := I.nOutputFiles_le
  have hnodup : I.workers.Nodup := List.Nodup.of_map _ I.ports_nodup
  have howner : ∀ f ∈ filesOf s.intermediateFiles p, ∃ w, w ∈ I.workers ∧ intermediateFile p (portOf w) = f := by
    intro f hf
    obtain ⟨hknown, hidx⟩ := mem_filesOf.mp hf
    obtain ⟨w, hw, q, hq, rfl⟩ := h.named f hknown
    rw [fileIdx_intermediateFile (by omega)] at hidx
    obtain rfl : q = p := Int.ofNat_inj.mp (Option.some.inj hidx)
    exact ⟨w, hw, rfl⟩
  obtain ⟨ws, hfiles, hws⟩ := exists_map_eq howner
  have hmem : ∀ w, w ∈ ws ↔ w ∈ I.workers ∧ intermediateFile p (portOf w) ∈ s.intermediateFiles := by
    intro w
    constructor
    · intro hw
      have hfile : intermediateFile p (portOf w) ∈ filesOf s.intermediateFiles p :=
        hfiles ▸ List.mem_map_of_mem hw
      exact ⟨hws w hw, (mem_filesOf.mp hfile).1⟩
    · rintro ⟨hw, hknown⟩
      have hfile : intermediateFile p (portOf w) ∈ filesOf s.intermediateFiles p :=
        mem_filesOf.mpr ⟨hknown, fileIdx_intermediateFile (by omega) _⟩
      rw [← hfiles] at hfile
      obtain ⟨w', hw', heq⟩ := List.mem_map.mp hfile
      exact (I.file_inj (hws w' hw') hw hp hp heq).2 ▸ hw'
  have hwsNodup : ws.Nodup := by
    refine List.Nodup.of_map (fun w => intermediateFile p (portOf w)) (hfiles ▸ ?_)
    exact (nodup_of_sorted h.sorted).filter _
  have hperm : ws.Perm (I.workers.filter fun w => intermediateFile p (portOf w) ∈ s.intermediateFiles) := by
    refine (List.perm_ext_iff_of_nodup hwsNodup (hnodup.filter _)).mpr fun w => ?_
    rw [hmem, List.mem_filter, decide_eq_true_iff]
  refine ⟨ws.flatMap fun w => partPairs I p (log w), ?_, ?_⟩
  · rw [← hfiles, recordsIn, List.flatMap_map, List.map_flatMap]
    exact List.flatMap_congr fun w hw => h.lines_file (hws w hw) hp
  · -- a worker with no known file has written nothing
    have hnone : ∀ w ∈ I.workers, decide (intermediateFile p (portOf w) ∈ s.intermediateFiles) = false →
        partPairs I p (log w) = [] := by
      intro w hw hno
      by_cases hlog : log w = []
      · rw [hlog]
        rfl
      · exact absurd (h.known w hw hlog (hmapped.2 w hw) p hp) (of_decide_eq_false hno)
    have hknown : (ws.flatMap fun w => partPairs I p (log w)).Perm
        ((I.workers.filter fun w => intermediateFile p (portOf w) ∈ s.intermediateFiles).flatMap
          fun w => partPairs I p (log w)) := hperm.flatMap_right _
    have hparts : (I.workers.flatMap fun w => partPairs I p (log w)) = partPairs I p (I.workers.flatMap log) :=
      List.filter_flatMap.symm
    rw [flatMap_filter_of_nil hnone, hparts] at hknown
    exact hknown.trans ((h.log_perm hmapped).filter _)

/-- A reduce job of which only the output file and the calls are known. -/
theorem Kept.finish (h : Kept I m s log) (hp : p < I.nOutputFiles) (hnew : p ∉ s.reduced.map Prod.fst)
    {disk : Files} {result : Option (Groups Str Str)}
    (hother : ∀ g, g ≠ outputFile I.outputDir p → (disk g).getD [] = (s.disk g).getD [])
    (hresult : ∃ pairs : List (Str × Str), pairs.Perm (partPairs I p (readPairs I m)) ∧
      result = ((pairs.map recordLine).mapM readRecord).map group ∧
      ∀ calls, result = some calls →
        (disk (outputFile I.outputDir p)).getD [] = outputText (calls.flatMap fun y => I.reduce y.1 y.2)) :
    Kept I m { s with disk := disk, reduced := s.reduced ++ [(p, result)] } log := by
  have hle := I.nOutputFiles_le
  have hout : ∀ q < I.nOutputFiles, q ≠ p →
      (disk (outputFile I.outputDir q)).getD [] = (s.disk (outputFile I.outputDir q)).getD [] := by
    intro q hq hne
    exact hother _ fun heq => hne ((outputFile_inj (by omega) (by omega)).mp heq)
  have hparts : (s.reduced ++ [(p, result)]).map Prod.fst = s.reduced.map Prod.fst ++ [p] := by simp
  refine { h with
    written := fun w hw q hq => ?_
    parts := ⟨?_, fun q hq => ?_⟩
    fresh := fun q hq hno => ?_
    reduced := fun x hx => ?_ }
  · rw [← h.written w hw q hq]
    exact hother _ outputFile_ne.symm
  · rw [hparts, List.nodup_append_comm, List.singleton_append, List.nodup_cons]
    exact ⟨hnew, h.parts.1⟩
  · rw [hparts, List.mem_append, List.mem_singleton] at hq
    rcases hq with hq | rfl
    · exact h.parts.2 q hq
    · exact hp
  · rw [hparts, List.mem_append, List.mem_singleton, not_or] at hno
    exact (hout q hq hno.2).trans (h.fresh q hq hno.1)
  · rcases List.mem_append.mp hx with hx | hx
    · obtain ⟨pairs, hperm, hcalls, houtput⟩ := h.reduced x hx
      have hmem : x.1 ∈ s.reduced.map Prod.fst := List.mem_map_of_mem hx
      refine ⟨pairs, hperm, hcalls, fun calls hsome => (hout x.1 (h.parts.2 _ hmem) ?_).trans (houtput calls hsome)⟩
      rintro heq
      exact hnew (heq ▸ hmem)
    · obtain rfl := List.mem_singleton.mp hx
      exact hresult

theorem Kept.reduce (h : Kept I m s log) (hs : reduceStep I p s = some t) : Kept I m t log := by
  unfold reduceStep at hs
  split at hs
  · next hguard =>
    obtain ⟨hmapped, hp, hnew⟩ := hguard
    obtain ⟨pairs, hrecords, hperm⟩ := h.records hmapped hp
    have hread : readFiles s.disk (filesOf s.intermediateFiles p) =
        ((pairs.map recordLine).mapM readRecord).map group := by rw [readFiles_eq, hrecords]
    simp only [handleReduceJob] at hs
    rw [hread] at hs
    cases hcalls : ((pairs.map recordLine).mapM readRecord).map group with
    | none =>
      rw [hcalls] at hs
      obtain rfl := Option.some.inj hs
      exact h.finish hp hnew (fun _ _ => rfl) ⟨pairs, hperm, hcalls.symm, fun calls hsome => by cases hsome⟩
    | some calls =>
      rw [hcalls] at hs
      obtain rfl := Option.some.inj hs
      refine h.finish hp hnew (fun g hg => ?_) ⟨pairs, hperm, hcalls.symm, fun calls' hsome => ?_⟩
      · rw [foldl_emitOutput, if_neg (Ne.symm hg), List.append_nil]
      · obtain rfl := Option.some.inj hsome
        rw [foldl_emitOutput, if_pos rfl, h.fresh p hp hnew]
        rfl
  · cases hs

/-! ## Every step -/

theorem kept_step (h : Kept I m s log) {a : Action} (hs : (system I m).next a s = some t) :
    ∃ log', Kept I m t log' := by
  cases a with
  | assign w i =>
    simp only [system] at hs
    split at hs
    · next hw => exact ⟨log, h.assign hw hs⟩
    · cases hs
  | turn w =>
    simp only [system] at hs
    split at hs
    · next hw => exact h.turn hw hs
    · cases hs
  | answer w =>
    simp only [system] at hs
    split at hs
    · next hw => exact ⟨log, h.answer hw hs⟩
    · cases hs
  | reduce p => exact ⟨log, h.reduce hs⟩

theorem kept_reach (h : Reach (system I m) s) : ∃ log, Kept I m s log := by
  refine ReachVia.invariant (I := fun s => ∃ log, Kept I m s log) ⟨_, kept_init⟩ ?_ h
  intro s t a _ hinv _ hs
  obtain ⟨log, hkept⟩ := hinv
  exact kept_step hkept hs

end AdvancedOS.MapReduce.EndToEnd
