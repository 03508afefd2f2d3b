import Mathlib.Algebra.Order.BigOperators.Group.List
import AdvancedOS.MapReduce.WorkerRequest

/-!
# What a reduce job computes

`handle_reduce_job` for any intermediate files whose lines have a comma and something behind it. Each line
stands for a record, whatever the byte behind the comma is; the job groups the records by key, calls
the reducer for the keys in their order, and appends what it emits to the output file.

* `readRecord_of_short`, `readRecord_of_long`: a line is read as its record, or as a pair with another key if
  the comma is too far out for `int pos`.
* `reduce_groups_iff`: when the calls are the groups of the records.
-/

namespace AdvancedOS.MapReduce

open Lines Lists Grouping

/-- A comma, and something behind it. -/
def HasRecord (line : Str) : Prop := ∃ a c t, line = a ++ 44 :: c :: t

/-- What stands before the first comma, and what follows the byte behind it. -/
def recordOf (line : Str) : Str × Str := (firstLine 44 line, line.drop ((firstLine 44 line).length + 2))

/-- The position of the first comma leaves room for `pos + 2`. -/
def Short (line : Str) : Prop := (firstLine 44 line).length + 2 ≤ intMax

variable {reduce : Str → List Str → List (Str × Str)} {query : ReduceQuery} {disk : Files} {line : Str}
  {x : Str × Str}

/-! ## One line -/

theorem HasRecord.split (h : HasRecord line) : ∃ c t, line = firstLine 44 line ++ 44 :: c :: t := by
  obtain ⟨a, c, t, hline⟩ := h
  rcases firstLine_append (44 : UInt8) line with ⟨-, hno⟩ | ⟨rest, heq⟩
  · exact absurd (hline ▸ by simp) hno
  · cases rest with
    | cons c' t' => exact ⟨c', t', heq⟩
    | nil =>
      -- the comma with something behind it would be before the first one
      have hlast := congrArg List.dropLast (heq.symm.trans hline)
      rw [List.dropLast_concat, List.dropLast_append_of_ne_nil (List.cons_ne_nil _ _)] at hlast
      have hno : (44 : UInt8) ∉ firstLine 44 line := notMem_firstLine
      exact absurd (hlast ▸ by simp) hno

theorem HasRecord.intPos_eq (h : HasRecord line) : intPos line 44 = toInt32 (firstLine 44 line).length := by
  obtain ⟨c, t, heq⟩ := h.split
  nth_rewrite 1 [heq]
  exact intPos_append notMem_firstLine

theorem HasRecord.length_lt (h : HasRecord line) : (firstLine 44 line).length + 2 ≤ line.length := by
  obtain ⟨c, t, heq⟩ := h.split
  have hlength := congrArg List.length heq
  rw [List.length_append, List.length_cons, List.length_cons] at hlength
  omega

theorem readRecord_of_short (h : HasRecord line) (hshort : Short line) : readRecord line = some (recordOf line) := by
  obtain ⟨c, t, heq⟩ := h.split
  have hpos : intPos line 44 = (firstLine 44 line).length :=
    h.intPos_eq.trans (toInt32_of_le (by omega) (by unfold Short at hshort; omega))
  have htake : line.take (firstLine 44 line).length = firstLine 44 line := by
    nth_rewrite 2 [heq]
    exact List.take_left' rfl
  rw [readRecord, splitAtPos_of_pos hpos hshort h.length_lt, htake, recordOf]

/-- The key goes beyond the comma, or it is shorter. -/
theorem readRecord_of_long (h : HasRecord line) (hlong : ¬ Short line) (hsize : line.length < 9223372036854775808)
    (hread : readRecord line = some x) : 44 ∈ x.1 ∨ x.1.length < (recordOf line).1.length := by
  obtain ⟨hkey, hfits⟩ := splitAtPos_eq_some hread
  have hrange := intPos_range line 44
  have hpos := h.intPos_eq
  unfold Short at hlong
  rcases lt_or_ge (intPos line 44) 0 with hneg | hnonneg
  · have hcount : line.length ≤ toSizeT (intPos line 44) := by
      unfold toSizeT
      omega
    obtain ⟨c, t, heq⟩ := h.split
    left
    rw [hkey, List.take_of_length_le hcount, heq]
    simp
  · right
    have hcount := toSizeT_of_nonneg hnonneg hrange.2
    have hle := toInt32_le (firstLine 44 line).length
    rw [hkey, List.length_take, hcount]
    show _ < (firstLine 44 line).length
    omega

/-! ## All lines -/

theorem mapM_readRecord_of_short {ls : List Str} (h : ∀ line ∈ ls, HasRecord line)
    (hshort : ∀ line ∈ ls, Short line) :
    ls.mapM readRecord = some (ls.map recordOf) := by
  rw [mapM_eq_some_iff, List.forall₂_map_right_iff, List.forall₂_same]
  exact fun line hline => readRecord_of_short (h line hline) (hshort line hline)

/-- If the keys that are read are those of the records, no comma was too far out. -/
theorem short_of_perm {ls : List Str} {pairs : List (Str × Str)} (h : ∀ line ∈ ls, HasRecord line)
    (hsize : ∀ line ∈ ls, line.length < 9223372036854775808) (hread : ls.mapM readRecord = some pairs)
    (hperm : (pairs.map Prod.fst).Perm ((ls.map recordOf).map Prod.fst)) : ∀ line ∈ ls, Short line := by
  have hpairs := eq_map_getD_of_mapM hread ([], [])
  have hcomma : ∀ x ∈ pairs, 44 ∉ x.1 := by
    intro x hx
    have hkey := hperm.mem_iff.mp (List.mem_map_of_mem hx)
    rw [List.map_map] at hkey
    obtain ⟨line, -, heq⟩ := List.mem_map.mp hkey
    rw [← heq]
    exact notMem_firstLine
  have hle : ∀ line ∈ ls, ((readRecord line).getD ([], [])).1.length ≤ (recordOf line).1.length := by
    intro line hmem
    obtain ⟨x, hxmem, hx⟩ := exists_mem_of_mapM hread hmem
    rw [hx, Option.getD_some]
    by_cases hshort : Short line
    · rw [readRecord_of_short (h line hmem) hshort] at hx
      rw [← Option.some.inj hx]
    · exact ((readRecord_of_long (h line hmem) hshort (hsize line hmem) hx).resolve_left (hcomma x hxmem)).le
  intro line hmem
  by_contra hlong
  obtain ⟨x, hxmem, hx⟩ := exists_mem_of_mapM hread hmem
  have hlt : ((readRecord line).getD ([], [])).1.length < (recordOf line).1.length := by
    rw [hx, Option.getD_some]
    exact (readRecord_of_long (h line hmem) hlong (hsize line hmem) hx).resolve_left (hcomma x hxmem)
  have hsum := List.sum_lt_sum _ _ hle ⟨line, hmem, hlt⟩
  have heq := (hperm.map List.length).sum_eq
  rw [hpairs] at heq
  simp only [List.map_map, Function.comp_def] at heq
  omega

/-! ## The job -/

/-- The records of the lines of all files, in the order of the files. -/
def recordsOf (disk : Files) (files : List Str) : List (Str × Str) := (recordsIn disk files).map recordOf

/-- The job calls the reducer once for every key of a record, in increasing order of the keys and with all
its values in their order; and if the reducer emits one pair under each key, the lines that
the job appends to its output file are in strictly increasing order of their keys. -/
structure Computes (reduce : Str → List Str → List (Str × Str)) (query : ReduceQuery) (disk disk' : Files)
    (calls : Grouping.Groups Str Str) : Prop where
  grouped : Grouped calls (recordsOf disk query.files)
  sorted : Sorted calls
  output : (∀ k vs, ∃ v, reduce k vs = [(k, v)]) → ∃ written : List (Str × Str),
    (disk' (outputFile query.outputDir query.partitionId)).getD [] =
      (disk (outputFile query.outputDir query.partitionId)).getD [] ++ outputText written ∧
    written.map Prod.fst = calls.map Prod.fst ∧ (written.map Prod.fst).Pairwise fun a b => a < b

/-- What a job writes whose lines can be read. -/
theorem computes_group {pairs : List (Str × Str)} (hgrouped : Grouped (group pairs) (recordsOf disk query.files)) :
    Computes reduce query disk
      (((group pairs).flatMap fun x => reduce x.1 x.2).foldl
        (emitOutput (outputFile query.outputDir query.partitionId)) disk) (group pairs) := by
  refine ⟨hgrouped, sorted_group pairs, fun hone => ⟨(group pairs).flatMap fun x => reduce x.1 x.2, ?_, ?_⟩⟩
  · rw [foldl_emitOutput, if_pos rfl]
  · have hkeys : ((group pairs).flatMap fun x => reduce x.1 x.2).map Prod.fst = (group pairs).map Prod.fst := by
      rw [List.map_flatMap]
      induction group pairs with
      | nil => rfl
      | cons x m ih =>
        obtain ⟨v, hv⟩ := hone x.1 x.2
        rw [List.flatMap_cons, hv, ih]
        rfl
    exact ⟨hkeys, hkeys ▸ sorted_group pairs⟩

theorem reduce_groups_iff (hlines : ∀ line ∈ recordsIn disk query.files, HasRecord line)
    (hsize : ∀ line ∈ recordsIn disk query.files, line.length < 9223372036854775808) :
    (∃ calls disk', handleReduceJob reduce query disk = some (calls, disk') ∧
      Computes reduce query disk disk' calls) ↔
    ∀ line ∈ recordsIn disk query.files, Short line := by
  constructor
  · rintro ⟨calls, disk', hjob, hcomputes⟩
    obtain ⟨w, hw, heq⟩ := Option.map_eq_some_iff.mp hjob
    obtain rfl : w = calls := congrArg Prod.fst heq
    rw [readFiles_eq] at hw
    obtain ⟨pairs, hread, rfl⟩ := Option.map_eq_some_iff.mp hw
    exact short_of_perm hlines hsize hread
      (perm_of_values fun k => (grouped_group pairs).values_eq hcomputes.grouped k)
  · intro hshort
    have hread : readFiles disk query.files = some (group (recordsOf disk query.files)) := by
      rw [readFiles_eq, mapM_readRecord_of_short hlines hshort]
      rfl
    exact ⟨_, _, by rw [handleReduceJob, hread]; rfl, computes_group (grouped_group _)⟩

/-- One intermediate file, and no other. -/
def oneFile (contents : Str) : Files := fun f => if f = str "f" then some contents else none

/-- Two keys, one of them twice, and a file that is missing. -/
theorem reduce_groups_two_keys : ∃ calls disk',
    handleReduceJob (fun k vs => [(k, decimal vs.length)]) ⟨str "out", 0, [str "f", str "g"]⟩
      (oneFile (str "b, 1\na, 2\nb, 3\n")) = some (calls, disk') ∧
    Computes (fun k vs => [(k, decimal vs.length)]) ⟨str "out", 0, [str "f", str "g"]⟩
      (oneFile (str "b, 1\na, 2\nb, 3\n")) disk' calls := by
  have hlines : ∀ line ∈ recordsIn (oneFile (str "b, 1\na, 2\nb, 3\n")) [str "f", str "g"],
      line ∈ [str "b, 1", str "a, 2", str "b, 3"] := by decide
  refine (reduce_groups_iff (fun line hline => ?_) fun line hline => ?_).mpr fun line hline => ?_
  · have hmem := hlines line hline
    rw [List.mem_cons, List.mem_pair] at hmem
    rcases hmem with rfl | rfl | rfl
    · exact ⟨str "b", 32, str "1", rfl⟩
    · exact ⟨str "a", 32, str "2", rfl⟩
    · exact ⟨str "b", 32, str "3", rfl⟩
  · exact (by decide : ∀ line ∈ [str "b, 1", str "a, 2", str "b, 3"], line.length < 9223372036854775808)
      line (hlines line hline)
  · exact (by unfold Short; decide : ∀ line ∈ [str "b, 1", str "a, 2", str "b, 3"], Short line)
      line (hlines line hline)

/-- A line with a key of `n` bytes. -/
def keyLine (n : Nat) : Str := List.replicate n 97 ++ 44 :: 32 :: [118]

theorem notMem_keyLine {n : Nat} : newline ∉ keyLine n := by
  rw [keyLine, List.mem_append, not_or]
  exact ⟨fun hmem => absurd (List.eq_of_mem_replicate hmem) (by decide), by decide⟩

/-- The position of the comma leaves no room for `pos + 2`. -/
theorem readRecord_keyLine {n : Nat} (hlow : intMax < n + 2) (hhigh : n ≤ intMax) :
    readRecord (keyLine n) = none := by
  have hno : (44 : UInt8) ∉ List.replicate n 97 :=
    fun hmem => absurd (List.eq_of_mem_replicate hmem) (by decide)
  refine splitAtPos_of_overflow ?_
  rw [keyLine, intPos_append hno, List.length_replicate, toInt32_of_le (by omega) (by omega)]
  omega

theorem keyLine_overflows {n : Nat} (hlow : intMax < n + 2) (hhigh : n ≤ intMax) :
    (∀ line ∈ recordsIn (oneFile (keyLine n)) [str "f"], HasRecord line) ∧
    handleReduceJob reduce ⟨str "out", 0, [str "f"]⟩ (oneFile (keyLine n)) = none := by
  have hlines : recordsIn (oneFile (keyLine n)) [str "f"] = [keyLine n] := by
    have hnil : keyLine n ≠ [] := by simp [keyLine]
    have hfile : (oneFile (keyLine n) (str "f")).getD [] = keyLine n := by
      rw [oneFile, if_pos rfl, Option.getD_some]
    rw [recordsIn, List.flatMap_singleton, hfile, lines_of_notMem notMem_keyLine, if_neg hnil]
  refine ⟨fun line hline => ?_, ?_⟩
  · rw [hlines, List.mem_singleton] at hline
    exact ⟨List.replicate n 97, 32, [118], hline⟩
  · rw [handleReduceJob, readFiles_eq, hlines, List.mapM_cons, readRecord_keyLine hlow hhigh]
    rfl

/-- With a key of `INT_MAX - 1` bytes the job computes nothing. -/
theorem long_key_overflows :
    (∀ line ∈ recordsIn (oneFile (keyLine 2147483646)) [str "f"], HasRecord line) ∧
    handleReduceJob (fun k _ => [(k, [])]) ⟨str "out", 0, [str "f"]⟩ (oneFile (keyLine 2147483646)) = none :=
  keyLine_overflows (by decide) (by decide)

end AdvancedOS.MapReduce
