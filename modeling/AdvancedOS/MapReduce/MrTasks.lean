import AdvancedOS.Lib.Lines
import AdvancedOS.MapReduce.FileShard

/-!
# Intermediate files and output files

`mr_tasks.cc`. A mapper collects the pairs that it emits and appends them, a thousand at a time, to the
intermediate files of its worker, one line `key, value` for each; the partition of a key is its hash
modulo the number of partitions. A reducer appends to the output file of its partition.

* `Wrote`: what is appended to each file by writing some records.
* `Ready.dump`, `Ready.emit`: no record is lost between the mapper and its files.
-/

namespace AdvancedOS.MapReduce

open Lines

/-- A file that is opened with `std::ios::app`, written and closed. -/
def appendTo (disk : Files) (file text : Str) : Files :=
  Function.update disk file (some ((disk file).getD [] ++ text))

/-! ## The mapper -/

/-- `KeyValuePairDumpThreshold`. -/
def keyValuePairDumpThreshold : Nat := 1000

structure BaseMapperInternal where
  numPartitions : Nat
  intermediateFiles : List Str
  keyValuePairs : List (Str × Str)

/-- A line of an intermediate file. -/
def recordLine (x : Str × Str) : Str := x.1 ++ str ", " ++ x.2

/-- `std::hash<std::string>{}(k) % num_partitions`. -/
def partitionOf (hash : Str → UInt64) (numPartitions : Nat) (k : Str) : Nat := (hash k).toNat % numPartitions

/-- One turn of `dump`; `none` is an index that is not one of `intermediate_files`. -/
def BaseMapperInternal.dumpPair (hash : Str → UInt64) (m : BaseMapperInternal) (disk : Files)
    (x : Str × Str) : Option Files :=
  m.intermediateFiles[partitionOf hash m.numPartitions x.1]?.map fun filename =>
    appendTo disk filename (recordLine x ++ [newline])

def BaseMapperInternal.dump (hash : Str → UInt64) (m : BaseMapperInternal) (disk : Files) :
    Option (BaseMapperInternal × Files) :=
  (m.keyValuePairs.foldlM (m.dumpPair hash) disk).map fun disk => ({ m with keyValuePairs := [] }, disk)

def BaseMapperInternal.emit (hash : Str → UInt64) (m : BaseMapperInternal) (disk : Files) (x : Str × Str) :
    Option (BaseMapperInternal × Files) :=
  (if m.keyValuePairs.length ≥ keyValuePairDumpThreshold then m.dump hash disk else some (m, disk)).map
    fun (m, disk) => ({ m with keyValuePairs := m.keyValuePairs ++ [x] }, disk)

/-! ## The reducer -/

/-- `BaseReducerInternal::emit`. -/
def emitOutput (filename : Str) (disk : Files) (x : Str × Str) : Files :=
  appendTo disk filename (x.1 ++ str " " ++ x.2 ++ [newline])

/-! ## What is written -/

/-- The text of some records. -/
def recordText (pairs : List (Str × Str)) : Str := unlines newline (pairs.map recordLine)

theorem recordText_append (pairs pairs' : List (Str × Str)) :
    recordText (pairs ++ pairs') = recordText pairs ++ recordText pairs' := by
  simp [recordText, unlines]

theorem appendTo_getD (disk : Files) (file text g : Str) :
    (appendTo disk file text g).getD [] = (disk g).getD [] ++ if file = g then text else [] := by
  unfold appendTo
  by_cases h : file = g
  · subst h
    simp
  · simp [Function.update_of_ne (Ne.symm h), h]

variable {hash : Str → UInt64} {m : BaseMapperInternal} {disk disk' : Files} {n : Nat} {ip : Str}

/-- What `handle_map_job` sets up on the worker `ip`. -/
structure BaseMapperInternal.Ready (n : Nat) (ip : Str) (m : BaseMapperInternal) : Prop where
  numPartitions : m.numPartitions = n
  intermediateFiles : m.intermediateFiles = mapResultFiles n ip

/-- The file to which the worker `ip` writes a record. -/
def fileOfRecord (hash : Str → UInt64) (n : Nat) (ip : Str) (x : Str × Str) : Str :=
  intermediateFile (partitionOf hash n x.1) (portOf ip)

/-- The records are appended, each to the file of its partition. -/
def Wrote (hash : Str → UInt64) (n : Nat) (ip : Str) (disk disk' : Files) (pairs : List (Str × Str)) : Prop :=
  ∀ g, (disk' g).getD [] = (disk g).getD [] ++ recordText (pairs.filter fun x => fileOfRecord hash n ip x = g)

theorem Wrote.nil : Wrote hash n ip disk disk [] := fun _ => (List.append_nil _).symm

theorem Wrote.cons {disk₁ : Files} {x : Str × Str} {pairs : List (Str × Str)}
    (h : Wrote hash n ip (appendTo disk (fileOfRecord hash n ip x) (recordText [x])) disk₁ pairs) :
    Wrote hash n ip disk disk₁ (x :: pairs) := by
  intro g
  rw [h g, appendTo_getD, List.append_assoc]
  by_cases hg : fileOfRecord hash n ip x = g
  · rw [if_pos hg, List.filter_cons_of_pos (by simpa using hg), ← recordText_append, List.singleton_append]
  · rw [if_neg hg, List.filter_cons_of_neg (by simpa using hg), List.nil_append]

namespace BaseMapperInternal.Ready

theorem dumpPair (h : m.Ready n ip) (hash : Str → UInt64) (hn : 0 < n) (disk : Files) (x : Str × Str) :
    m.dumpPair hash disk x = some (appendTo disk (fileOfRecord hash n ip x) (recordText [x])) := by
  have hlt : partitionOf hash n x.1 < n := Nat.mod_lt _ hn
  rw [BaseMapperInternal.dumpPair, h.numPartitions, h.intermediateFiles, mapResultFiles, List.getElem?_map,
    List.getElem?_range hlt]
  simp [fileOfRecord, recordText, unlines]

theorem dumpPairs (h : m.Ready n ip) (hash : Str → UInt64) (hn : 0 < n) (pairs : List (Str × Str)) (disk : Files) :
    ∃ disk', pairs.foldlM (m.dumpPair hash) disk = some disk' ∧ Wrote hash n ip disk disk' pairs := by
  induction pairs generalizing disk with
  | nil => exact ⟨disk, rfl, .nil⟩
  | cons x pairs ih =>
    obtain ⟨disk', hrest, hwrote⟩ := ih (appendTo disk (fileOfRecord hash n ip x) (recordText [x]))
    refine ⟨disk', ?_, hwrote.cons⟩
    rw [List.foldlM_cons, h.dumpPair hash hn]
    exact hrest

/-- A dump never fails, and appends all that was collected. -/
theorem dump (h : m.Ready n ip) (hash : Str → UInt64) (hn : 0 < n) (disk : Files) :
    ∃ disk', m.dump hash disk = some ({ m with keyValuePairs := [] }, disk') ∧
      Wrote hash n ip disk disk' m.keyValuePairs := by
  obtain ⟨disk', hdump, hwrote⟩ := h.dumpPairs hash hn m.keyValuePairs disk
  exact ⟨disk', by rw [BaseMapperInternal.dump, hdump]; rfl, hwrote⟩

/-- What is emitted is collected, and what was collected before may be written. -/
theorem emit (h : m.Ready n ip) (hash : Str → UInt64) (hn : 0 < n) (disk : Files) (x : Str × Str) :
    ∃ m' disk' flushed, m.emit hash disk x = some (m', disk') ∧ m'.Ready n ip ∧
      flushed ++ m'.keyValuePairs = m.keyValuePairs ++ [x] ∧ Wrote hash n ip disk disk' flushed := by
  unfold BaseMapperInternal.emit
  split
  · obtain ⟨disk', hdump, hwrote⟩ := h.dump hash hn disk
    rw [hdump]
    exact ⟨_, disk', m.keyValuePairs, rfl, ⟨h.1, h.2⟩, by simp, hwrote⟩
  · exact ⟨_, disk, [], rfl, ⟨h.1, h.2⟩, rfl, .nil⟩

end BaseMapperInternal.Ready

end AdvancedOS.MapReduce
