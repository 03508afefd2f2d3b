import AdvancedOS.MapReduce.Emission
import AdvancedOS.MapReduce.WorkerRequest

/-!
# The format of the intermediate files

`dump` writes a pair as a line `key, value`, and nothing in the key or the value is escaped; the loop of
`handle_reduce_job` ends a record at the first newline and a key at the first comma, whose position
is an `int`.

* `readRecord_recordLine_iff`: which records are read back from their lines.
* `format_lossless_iff`: which lists of pairs are read back from the files.
-/

namespace AdvancedOS.MapReduce

open Lines Lists

/-- The loop over the lines of a file, with the pairs that it reads in their order. -/
def readRecords (disk : Files) (file : Str) : Option (List (Str × Str)) :=
  (lines newline ((disk file).getD [])).mapM readRecord

/-- The key ends before the first comma, which is not too far out for an `int`, and the record before the
first newline. -/
structure Fits (x : Str × Str) : Prop where
  key : 44 ∉ x.1 ∧ newline ∉ x.1
  value : newline ∉ x.2
  short : x.1.length + 2 ≤ intMax

variable {hash : Str → UInt64} {disk disk' : Files} {n : Nat} {ip : Str} {x : Str × Str}
  {pairs : List (Str × Str)}

/-! ## One record -/

/-- The first comma of a line is in the key, or ends it. -/
theorem recordLine_comma (x : Str × Str) : ∃ a t, recordLine x = a ++ 44 :: t ∧ 44 ∉ a ∧
    (44 ∉ x.1 ∧ a = x.1 ∨ a.length < x.1.length) := by
  rcases firstLine_append (44 : UInt8) x.1 with ⟨-, hno⟩ | ⟨t, heq⟩
  · exact ⟨x.1, 32 :: x.2, recordLine_eq x, hno, .inl ⟨hno, rfl⟩⟩
  · refine ⟨firstLine 44 x.1, t ++ 44 :: 32 :: x.2, ?_, notMem_firstLine, .inr ?_⟩
    · rw [recordLine_eq]
      nth_rewrite 1 [heq]
      rw [List.append_assoc, List.cons_append]
    · have hlength := congrArg List.length heq
      rw [List.length_append, List.length_cons] at hlength
      omega

theorem readRecord_recordLine_iff (hsize : x.1.length < 9223372036854775808) :
    readRecord (recordLine x) = some x ↔ 44 ∉ x.1 ∧ x.1.length + 2 ≤ intMax := by
  refine ⟨fun h => ?_, fun h => readRecord_recordLine h.1 h.2⟩
  obtain ⟨a, t, hline, ha, hcases⟩ := recordLine_comma x
  have hpos : intPos (recordLine x) 44 = toInt32 a.length := by rw [hline, intPos_append ha]
  have hlength : (recordLine x).length = x.1.length + (x.2.length + 2) := by
    rw [recordLine_eq, List.length_append, List.length_cons, List.length_cons]
  obtain ⟨hkey, hfits⟩ := splitAtPos_eq_some h
  -- the key is as long as the count, which tells the position of the comma
  have hmin := congrArg List.length hkey
  rw [List.length_take] at hmin
  have hcount : toSizeT (intPos (recordLine x) 44) = x.1.length := by omega
  have hcomma : intPos (recordLine x) 44 = x.1.length := eq_of_toSizeT (intPos_range _ _) hsize hcount
  rw [hcomma] at hfits hpos
  rcases hcases with ⟨hno, -⟩ | hlt
  · exact ⟨hno, by omega⟩
  · -- a position that is narrowed does not grow
    have hle := toInt32_le a.length
    omega

/-! ## A file of records -/

theorem newline_mem_recordLine : newline ∈ recordLine x ↔ newline ∈ x.1 ∨ newline ∈ x.2 := by
  have hcomma : newline ≠ 44 := by decide
  have hblank : newline ≠ 32 := by decide
  rw [recordLine_eq, List.mem_append, List.mem_cons, List.mem_cons]
  simp [hcomma, hblank]

/-- The text of some records is read back exactly if each of them is. -/
theorem mapM_recordText_iff (hsize : ∀ x ∈ pairs, x.1.length < 9223372036854775808) :
    (lines newline (recordText pairs)).mapM readRecord = some pairs ↔ ∀ x ∈ pairs, Fits x := by
  have hread : (pairs.map recordLine).mapM readRecord = some pairs ↔
      ∀ x ∈ pairs, 44 ∉ x.1 ∧ x.1.length + 2 ≤ intMax := by
    rw [mapM_eq_some_iff, List.forall₂_map_left_iff, List.forall₂_same]
    exact forall₂_congr fun x hx => readRecord_recordLine_iff (hsize x hx)
  constructor
  · intro h x hx
    have hnewline : ∀ l ∈ pairs.map recordLine, newline ∉ l := by
      refine notMem_of_length_lines ?_
      rw [List.length_map]
      exact (length_mapM h).symm
    rw [recordText, lines_unlines hnewline, hread] at h
    have hno : ¬ (newline ∈ x.1 ∨ newline ∈ x.2) :=
      newline_mem_recordLine.not.mp (hnewline _ (List.mem_map_of_mem hx))
    rw [not_or] at hno
    exact ⟨⟨(h x hx).1, hno.1⟩, hno.2, (h x hx).2⟩
  · intro h
    have hnewline : ∀ l ∈ pairs.map recordLine, newline ∉ l := by
      intro l hl
      obtain ⟨x, hx, rfl⟩ := List.mem_map.mp hl
      rw [newline_mem_recordLine, not_or]
      exact ⟨(h x hx).key.2, (h x hx).value⟩
    rw [recordText, lines_unlines hnewline, hread]
    exact fun x hx => ⟨(h x hx).key.1, (h x hx).short⟩

/-- The loop that groups the records of a file reads them first. -/
theorem readFile_eq (contents : Str) :
    readFile [] contents = ((lines newline contents).mapM readRecord).map Grouping.group :=
  foldlM_map readRecord (fun w x => Grouping.add x.1 x.2 w) _ []

/-- A dump writes the collected pairs to the files of their partitions, and if those were empty, the loop
reads exactly these pairs back, without an exception, if and only if no key has a comma or a newline
in it, no value has a newline in it, and no key is longer than `INT_MAX - 2`. -/
theorem format_lossless_iff (hn : 0 < n) (hash : Str → UInt64) (ip : Str) (disk : Files)
    (hsize : ∀ x ∈ pairs, x.1.length < 9223372036854775808)
    (hempty : ∀ p < n, (disk (intermediateFile p (portOf ip))).getD [] = []) :
    (∃ m disk', BaseMapperInternal.dump hash ⟨n, mapResultFiles n ip, pairs⟩ disk = some (m, disk') ∧
      ∀ p < n, readRecords disk' (intermediateFile p (portOf ip)) =
        some (pairs.filter fun x => partitionOf hash n x.1 = p)) ↔
    ∀ x ∈ pairs, Fits x := by
  have hready : BaseMapperInternal.Ready n ip ⟨n, mapResultFiles n ip, pairs⟩ := ⟨rfl, rfl⟩
  obtain ⟨disk', hdump, hwrote⟩ := hready.dump hash hn disk
  have hread : ∀ p < n, (readRecords disk' (intermediateFile p (portOf ip)) =
      some (pairs.filter fun x => partitionOf hash n x.1 = p) ↔
      ∀ x ∈ pairs.filter fun x => partitionOf hash n x.1 = p, Fits x) := by
    intro p hp
    rw [readRecords, hwrote, hempty p hp, List.nil_append]
    simp only [fileOfRecord_eq_iff]
    exact mapM_recordText_iff fun x hx => hsize x (List.mem_of_mem_filter hx)
  constructor
  · rintro ⟨m, disk'', hdump', hback⟩ x hx
    obtain rfl : disk' = disk'' := congrArg Prod.snd (Option.some.inj (hdump.symm.trans hdump'))
    have hlt : partitionOf hash n x.1 < n := Nat.mod_lt _ hn
    exact (hread _ hlt).mp (hback _ hlt) x (List.mem_filter.mpr ⟨hx, by simp⟩)
  · intro h
    exact ⟨_, disk', hdump, fun p hp => (hread p hp).mpr fun x hx => h x (List.mem_of_mem_filter hx)⟩

theorem format_lossless_one_pair : ∃ m disk',
    BaseMapperInternal.dump (fun _ => 0) ⟨1, mapResultFiles 1 (str "h:1"), [(str "k", str "v, w")]⟩ (fun _ => none) =
      some (m, disk') ∧
    readRecords disk' (intermediateFile 0 (portOf (str "h:1"))) = some [(str "k", str "v, w")] := by
  have hsize : ∀ x ∈ [(str "k", str "v, w")], x.1.length < 9223372036854775808 := by decide
  have hfits : ∀ x ∈ [(str "k", str "v, w")], Fits x := by
    intro x hx
    rw [List.mem_singleton.mp hx]
    exact ⟨by decide, by decide, by decide⟩
  obtain ⟨m, disk', hdump, hread⟩ :=
    (format_lossless_iff Nat.zero_lt_one (fun _ => 0) (str "h:1") (fun _ => none) hsize fun _ _ => rfl).mpr hfits
  exact ⟨m, disk', hdump, hread 0 Nat.zero_lt_one⟩

/-- The key `a,b` comes back as `a`, and a key of one newline ends the reduce job. -/
theorem key_with_comma_lost : ∃ m disk',
    BaseMapperInternal.dump (fun _ => 0) ⟨1, mapResultFiles 1 (str "h:1"), [(str "a,b", str "v")]⟩ (fun _ => none) =
      some (m, disk') ∧
    readRecords disk' (intermediateFile 0 (portOf (str "h:1"))) = some [(str "a", str ", v")] ∧
    [(str "a", str ", v")] ≠ [(str "a,b", str "v")] ∧
    (lines newline (recordText [([newline], str "v")])).mapM readRecord = none := by
  refine ⟨_, _, rfl, ?_, ?_, ?_⟩ <;> decide

end AdvancedOS.MapReduce
