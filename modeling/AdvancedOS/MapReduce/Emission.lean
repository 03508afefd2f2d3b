import AdvancedOS.Lib.WriteBuffer
import AdvancedOS.MapReduce.MrTasks

/-!
# Buffered emission

`BaseMapperInternal::emit` writes nothing until `KeyValuePairDumpThreshold` pairs are collected, and `dump`
opens a file for each pair that it writes. The mapper is a writer with a buffer whose sink are the
files, so when it flushes makes no difference to them.

* `emitAll_dump`: any calls of `emit` and a last `dump` write what writing every pair at once writes.
* `buffered_emission`: which lines that adds to the file of each partition.
-/

namespace AdvancedOS.MapReduce

open WriteBuffer

/-- What `handle_map_job` sets up on the worker `ip`. -/
def BaseMapperInternal.new (n : Nat) (ip : Str) : BaseMapperInternal := ⟨n, mapResultFiles n ip, []⟩

/-- The calls of `emit` that a mapper makes. -/
def BaseMapperInternal.emitAll (hash : Str → UInt64) (m : BaseMapperInternal) (disk : Files)
    (pairs : List (Str × Str)) : Option (BaseMapperInternal × Files) :=
  pairs.foldlM (fun s x => s.1.emit hash s.2 x) (m, disk)

/-- A mapper without a buffer: each pair is appended to the file of its partition at once. -/
def writeAtOnce (hash : Str → UInt64) (n : Nat) (ip : Str) (disk : Files) (x : Str × Str) : Files :=
  appendTo disk (fileOfRecord hash n ip x) (recordLine x ++ [newline])

variable {hash : Str → UInt64} {m m' : BaseMapperInternal} {disk disk' : Files} {n : Nat} {ip : Str}
  {pairs : List (Str × Str)}

/-! ## The mapper as a writer -/

/-- The test of `emit`. -/
def isFull (pairs : List (Str × Str)) : Bool := decide (pairs.length ≥ keyValuePairDumpThreshold)

/-- The mapper with these pairs kept back, and its files. -/
def BaseMapperInternal.withBuffer (m : BaseMapperInternal) (b : Buffered (Str × Str) Files) :
    BaseMapperInternal × Files :=
  ({ m with keyValuePairs := b.kept }, b.sink)

theorem BaseMapperInternal.dump_eq (hash : Str → UInt64) (m : BaseMapperInternal) (b : Buffered (Str × Str) Files) :
    (m.withBuffer b).1.dump hash (m.withBuffer b).2 = (flush (m.dumpPair hash) b).map m.withBuffer := by
  have hwrite : (m.withBuffer b).1.dumpPair hash = m.dumpPair hash := rfl
  rw [BaseMapperInternal.dump, hwrite, flush, Option.map_map]
  rfl

theorem BaseMapperInternal.emit_eq (hash : Str → UInt64) (m : BaseMapperInternal) (b : Buffered (Str × Str) Files)
    (x : Str × Str) :
    (m.withBuffer b).1.emit hash (m.withBuffer b).2 x = (put (m.dumpPair hash) isFull b x).map m.withBuffer := by
  rw [BaseMapperInternal.emit, put, BaseMapperInternal.dump_eq]
  by_cases h : (m.withBuffer b).1.keyValuePairs.length ≥ keyValuePairDumpThreshold
  · have hfull : isFull b.kept = true := decide_eq_true h
    rw [hfull, if_pos rfl, if_pos h, Option.map_map, Option.map_map]
    rfl
  · have hfull : isFull b.kept = false := decide_eq_false h
    rw [hfull, if_neg Bool.false_ne_true, if_neg h]
    rfl

theorem BaseMapperInternal.emitAll_eq (hash : Str → UInt64) (m : BaseMapperInternal)
    (b : Buffered (Str × Str) Files) (pairs : List (Str × Str)) :
    (m.withBuffer b).1.emitAll hash (m.withBuffer b).2 pairs =
      (putAll (m.dumpPair hash) isFull b pairs).map m.withBuffer := by
  induction pairs generalizing b with
  | nil => rfl
  | cons x pairs ih =>
    rw [BaseMapperInternal.emitAll, List.foldlM_cons, m.emit_eq, putAll, List.foldlM_cons]
    cases put (m.dumpPair hash) isFull b x with
    | none => rfl
    | some b' => exact ih b'

/-- The buffer makes no difference to the files. -/
theorem BaseMapperInternal.emitAll_dump (hash : Str → UInt64) (m : BaseMapperInternal) (disk : Files)
    (pairs : List (Str × Str)) :
    ((m.emitAll hash disk pairs).bind fun s => s.1.dump hash s.2) =
      ((m.keyValuePairs ++ pairs).foldlM (m.dumpPair hash) disk).map
        fun disk => ({ m with keyValuePairs := [] }, disk) := by
  have hrun := m.emitAll_eq hash ⟨m.keyValuePairs, disk⟩ pairs
  have hflush := putAll_flush (m.dumpPair hash) isFull ⟨m.keyValuePairs, disk⟩ pairs
  calc ((m.emitAll hash disk pairs).bind fun s => s.1.dump hash s.2)
      = ((putAll (m.dumpPair hash) isFull ⟨m.keyValuePairs, disk⟩ pairs).map m.withBuffer).bind
          fun s => s.1.dump hash s.2 := congrArg (Option.bind · _) hrun
    _ = ((putAll (m.dumpPair hash) isFull ⟨m.keyValuePairs, disk⟩ pairs).bind
          (flush (m.dumpPair hash))).map m.withBuffer := by
        rw [Option.bind_map, Option.map_bind]
        exact congrArg _ (funext (m.dump_eq hash))
    _ = _ := by
        rw [hflush, Option.map_map]
        rfl

theorem BaseMapperInternal.length_emitAll (hm : m.keyValuePairs.length ≤ keyValuePairDumpThreshold)
    (h : m.emitAll hash disk pairs = some (m', disk')) :
    m'.keyValuePairs.length ≤ keyValuePairDumpThreshold := by
  have hrun := m.emitAll_eq hash ⟨m.keyValuePairs, disk⟩ pairs
  obtain ⟨b, hb, heq⟩ := Option.map_eq_some_iff.mp (hrun.symm.trans h)
  obtain rfl := congrArg Prod.fst heq
  have hfull : ∀ kept, isFull kept = false → kept.length < keyValuePairDumpThreshold :=
    fun kept hkept => Nat.not_le.mp (of_decide_eq_false hkept)
  exact length_putAll hfull (by decide) hm hb

/-! ## What is written -/

theorem dumpPair_new (hn : 0 < n) (disk : Files) (x : Str × Str) :
    (BaseMapperInternal.new n ip).dumpPair hash disk x = some (writeAtOnce hash n ip disk x) := by
  have hready : (BaseMapperInternal.new n ip).Ready n ip := ⟨rfl, rfl⟩
  rw [hready.dumpPair hash hn, writeAtOnce]
  simp [recordText, Lines.unlines]

theorem foldlM_dumpPair_new (hn : 0 < n) (disk : Files) (pairs : List (Str × Str)) :
    pairs.foldlM ((BaseMapperInternal.new n ip).dumpPair hash) disk =
      some (pairs.foldl (writeAtOnce hash n ip) disk) := by
  induction pairs generalizing disk with
  | nil => rfl
  | cons x pairs ih => rw [List.foldlM_cons, dumpPair_new hn, List.foldl_cons, ← ih]; rfl

theorem wrote_atOnce (disk : Files) (pairs : List (Str × Str)) :
    Wrote hash n ip disk (pairs.foldl (writeAtOnce hash n ip) disk) pairs := by
  induction pairs generalizing disk with
  | nil => exact .nil
  | cons x pairs ih =>
    refine .cons ?_
    have hstep : writeAtOnce hash n ip disk x = appendTo disk (fileOfRecord hash n ip x) (recordText [x]) := by
      simp [writeAtOnce, recordText, Lines.unlines]
    rw [← hstep]
    exact ih _

/-- A worker has a file of its own for every partition. -/
theorem fileOfRecord_eq_iff {p : Nat} {x : Str × Str} :
    fileOfRecord hash n ip x = intermediateFile p (portOf ip) ↔ partitionOf hash n x.1 = p := by
  constructor
  · intro h
    exact (intermediateFile_cancel h).1
  · rintro rfl
    rfl

/-- Whatever the mapper emits, no index is out of bounds, the buffer stays within its threshold and is
empty after the last `dump`; the files are then as if every pair had been written at once, and each
has got the lines of the pairs of its partition, in the order of their emission. -/
theorem buffered_emission (hn : 0 < n) (hash : Str → UInt64) (ip : Str) (disk : Files)
    (pairs : List (Str × Str)) :
    (∀ x ∈ pairs, partitionOf hash n x.1 < (BaseMapperInternal.new n ip).intermediateFiles.length) ∧
    (∀ done, done <+: pairs → ∃ m disk', (BaseMapperInternal.new n ip).emitAll hash disk done = some (m, disk') ∧
      m.keyValuePairs.length ≤ keyValuePairDumpThreshold) ∧
    ∃ m disk', ((BaseMapperInternal.new n ip).emitAll hash disk pairs).bind (fun s => s.1.dump hash s.2) =
        some (m, disk') ∧
      m.keyValuePairs = [] ∧ disk' = pairs.foldl (writeAtOnce hash n ip) disk ∧
      ∀ p < n, (disk' (intermediateFile p (portOf ip))).getD [] =
        (disk (intermediateFile p (portOf ip))).getD [] ++
          recordText (pairs.filter fun x => partitionOf hash n x.1 = p) := by
  have hdump : ∀ pairs, ((BaseMapperInternal.new n ip).emitAll hash disk pairs).bind (fun s => s.1.dump hash s.2) =
      some (BaseMapperInternal.new n ip, pairs.foldl (writeAtOnce hash n ip) disk) := by
    intro pairs
    rw [BaseMapperInternal.emitAll_dump, BaseMapperInternal.new, List.nil_append, ← BaseMapperInternal.new,
      foldlM_dumpPair_new hn]
    rfl
  refine ⟨fun x _ => ?_, fun done _ => ?_, _, _, hdump pairs, rfl, rfl, fun p _ => ?_⟩
  · rw [BaseMapperInternal.new, mapResultFiles, List.length_map, List.length_range]
    exact Nat.mod_lt _ hn
  · obtain ⟨⟨m, disk'⟩, hrun, -⟩ := Option.bind_eq_some_iff.mp (hdump done)
    exact ⟨m, disk', hrun, BaseMapperInternal.length_emitAll (Nat.zero_le _) hrun⟩
  · rw [wrote_atOnce disk pairs]
    simp only [fileOfRecord_eq_iff]

/-- One partition and one pair. -/
theorem buffered_emission_one_pair : ∃ m disk',
    ((BaseMapperInternal.new 1 (str "h:1")).emitAll (fun _ => 0) (fun _ => none) [(str "k", str "v")]).bind
      (fun s => s.1.dump (fun _ => 0) s.2) = some (m, disk') ∧
    (disk' (str "intermediate/0_1.txt")).getD [] = str "k, v\n" := by
  obtain ⟨m, disk', hrun, -, -, hfile⟩ :=
    (buffered_emission (Nat.zero_lt_one) (fun _ => 0) (str "h:1") (fun _ => none) [(str "k", str "v")]).2.2
  refine ⟨m, disk', hrun, ?_⟩
  have hname : str "intermediate/0_1.txt" = intermediateFile 0 (portOf (str "h:1")) := by decide
  rw [hname, hfile 0 Nat.zero_lt_one]
  decide

end AdvancedOS.MapReduce
