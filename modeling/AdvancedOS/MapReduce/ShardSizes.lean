import Mathlib.Algebra.BigOperators.Group.List.Basic
import AdvancedOS.MapReduce.ShardLoop

/-!
# The sizes of the shards

With shards of `S` bytes and records of at most `L` bytes, every shard but the last one has more than `S` bytes
and at most `S + L`, so there are at most as many shards as the size of the input divided by `S`,
rounded up (`shards_sized`). What a cut adds beyond `S` is not taken off the next shard; `Sized` keeps account of
what is in the shards and what is still to come.
-/

namespace AdvancedOS.MapReduce

open Lines

variable {files : Files} {shardSize L : Int} {inputFiles done : List Str} {f d : Str}

/-! ## Sizes -/

/-- The bytes of the file in the range, which may end past it. -/
def Range.bytes (files : Files) (r : Range) : Int :=
  min r.stop ((files r.file).getD []).length - r.start

def FileShard.bytes (files : Files) (shard : FileShard) : Int := (shard.map (Range.bytes files)).sum

/-- The size of the input. -/
def inputSize (files : Files) (inputFiles : List Str) : Nat :=
  (inputFiles.map fun f => ((files f).getD []).length).sum

/-- The length of the longest record of the input, with its newline. -/
def longestRecord (files : Files) (inputFiles : List Str) : Nat :=
  ((inputFiles.flatMap fun f => records newline ((files f).getD [])).map List.length).foldr max 0

@[simp] theorem bytes_nil : FileShard.bytes files [] = 0 := rfl

@[simp] theorem bytes_append {s t : FileShard} :
    FileShard.bytes files (s ++ t) = FileShard.bytes files s + FileShard.bytes files t := by
  simp [FileShard.bytes]

theorem bytes_singleton {r : Range} (hfile : files r.file = some d) :
    FileShard.bytes files [r] = min r.stop d.length - r.start := by
  simp [FileShard.bytes, Range.bytes, hfile]

theorem length_le_longestRecord (hf : f ∈ inputFiles) {r : Str} (hr : r ∈ records newline ((files f).getD [])) :
    r.length ≤ longestRecord files inputFiles := by
  have hle : ∀ ls : List Nat, ∀ n ∈ ls, n ≤ ls.foldr max 0 := by
    intro ls
    induction ls with
    | nil => exact fun n hn => absurd hn List.not_mem_nil
    | cons m ls ih =>
      intro n hn
      rcases List.mem_cons.mp hn with rfl | hn
      · exact Nat.le_max_left _ _
      · exact Nat.le_trans (ih n hn) (Nat.le_max_right _ _)
  exact hle _ _ (List.mem_map_of_mem (List.mem_flatMap.mpr ⟨f, hf, hr⟩))

/-- No record of the files is longer than `L`. -/
def RecordsLe (files : Files) (L : Int) (done : List Str) : Prop :=
  ∀ f ∈ done, ∀ r ∈ records newline ((files f).getD []), (r.length : Int) ≤ L

/-! ## The loops -/

structure Sized (files : Files) (shardSize L : Int) (read : Int) (c : Cutter) : Prop where
  full : ∀ shard ∈ c.fileShards, shardSize < FileShard.bytes files shard ∧
    FileShard.bytes files shard ≤ shardSize + L
  filled : FileShard.bytes files c.shard + c.remainShardSize = shardSize
  nonempty : c.shard ≠ [] → 1 ≤ FileShard.bytes files c.shard
  total : (c.fileShards.map (FileShard.bytes files)).sum + FileShard.bytes files c.shard = read

theorem sized_takeRest {h : LoopHead} {read : Int} (hfile : files f = some d) (hs : h.Sound shardSize d)
    (hz : Sized files shardSize L read h.cutter) (hpos : 0 < h.fileSize) :
    Sized files shardSize L (read + h.fileSize) (h.takeRest f).cutter := by
  have hplace := hs.place hpos
  have hnew : FileShard.bytes files [⟨f, h.fileOffset, h.fileOffset + h.fileSize⟩] = h.fileSize := by
    rw [bytes_singleton (d := d) hfile]
    simp only
    omega
  have hfilled := hz.filled
  have htotal := hz.total
  have hnonneg : 0 ≤ FileShard.bytes files h.cutter.shard := by
    by_cases hnil : h.cutter.shard = []
    · rw [hnil]; exact Int.le_refl _
    · exact Int.le_trans (by decide) (hz.nonempty hnil)
  refine ⟨hz.full, ?_, fun _ => ?_, ?_⟩ <;> simp only [LoopHead.takeRest, bytes_append, hnew] <;> omega

theorem sized_cut {h : LoopHead} {read splitSize : Int} (hfile : files f = some d) (hs : h.Sound shardSize d)
    (hL : RecordsLe files L [f]) (hz : Sized files shardSize L read h.cutter) (hpos : 0 < h.fileSize)
    (hsplit : getSplit (h.call d) = some splitSize) :
    Sized files shardSize L (read + min splitSize h.fileSize) (h.cut shardSize f d splitSize).cutter := by
  obtain ⟨hlt, hsize, hline⟩ := getSplit_call hs hpos hsplit
  have hplace := hs.place hpos
  have hremain := hs.remain_pos
  have hoffset := hs.offset_nonneg
  have hnew : FileShard.bytes files [⟨f, h.fileOffset, h.fileOffset + splitSize⟩] = min splitSize h.fileSize := by
    rw [bytes_singleton (d := d) hfile]
    simp only
    omega
  -- the line that the cut was moved along is part of a record
  have hrest : d.drop (h.fileOffset + h.cutter.remainShardSize).toNat ≠ [] := by
    refine List.ne_nil_of_length_pos ?_
    rw [List.length_drop]
    omega
  obtain ⟨r, hr, hle⟩ : ∃ r ∈ records newline d, _ := exists_record_drop hrest
  have hrL := hL f (List.mem_singleton_self f) r (by rw [hfile]; exact hr)
  have hcall : (h.call d).rest = d.drop (h.fileOffset + h.cutter.remainShardSize).toNat := rfl
  rw [← hcall] at hle
  have hfilled := hz.filled
  have htotal := hz.total
  refine ⟨?_, ?_, ?_, ?_⟩
  · simp only [LoopHead.cut]
    refine List.forall_mem_append.mpr ⟨hz.full, ?_⟩
    simp only [List.mem_singleton, forall_eq, bytes_append, hnew]
    rcases hline with ⟨hno, hend⟩ | ⟨hmem, hend, -⟩
    · rw [if_neg hno] at hle
      omega
    · rw [if_pos hmem] at hle
      omega
  · simp [LoopHead.cut]
  · simp [LoopHead.cut]
  · simp only [LoopHead.cut, List.map_append, List.map_singleton, List.sum_append, List.sum_singleton,
      bytes_append, hnew, bytes_nil]
    omega

theorem inputSize_concat (hfile : files f = some d) :
    inputSize files (done ++ [f]) = inputSize files done + d.length := by
  simp [inputSize, hfile]

/-- The records of the files that are done bound the shards, and their bytes are in the shards. -/
theorem sizedInvariant : LoopInvariant files shardSize
    (fun done c => ∀ L, RecordsLe files L done → Sized files shardSize L (inputSize files done) c)
    (fun done f d h => ∀ L, RecordsLe files L (done ++ [f]) →
      Sized files shardSize L (inputSize files done + (d.length - max h.fileSize 0)) h.cutter) where
  start L _ := ⟨fun _ h => absurd h List.not_mem_nil, Int.zero_add _, fun h => absurd rfl h, rfl⟩
  enter {done f d c} hP _ _ L hL := by
    have hbefore := hP L fun g hg => hL g (List.mem_append_left _ hg)
    simp only
    rw [max_eq_left (Int.natCast_nonneg _), Int.sub_self, Int.add_zero]
    exact hbefore
  turn {done f d h h'} hfile hs hQ hpos hturn L hL := by
    have hz := hQ L hL
    rcases turn_ok hturn with ⟨-, rfl⟩ | ⟨splitSize, -, hsplit, -, rfl⟩
    · have hnext := sized_takeRest hfile hs hz hpos
      have hread : (inputSize files done : Int) + (d.length - max h.fileSize 0) + h.fileSize =
          inputSize files done + (d.length - max (h.takeRest f).fileSize 0) := by
        simp only [LoopHead.takeRest]
        omega
      rwa [hread] at hnext
    · have hnext := sized_cut hfile hs (fun g hg => hL g (List.mem_append_right _ hg)) hz hpos hsplit
      have hread : (inputSize files done : Int) + (d.length - max h.fileSize 0) + min splitSize h.fileSize =
          inputSize files done + (d.length - max (h.cut shardSize f d splitSize).fileSize 0) := by
        simp only [LoopHead.cut]
        omega
      rwa [hread] at hnext
  leave {done f d h} hfile _ hQ hend L hL := by
    have hz := hQ L hL
    have hread : (inputSize files done : Int) + (d.length - max h.fileSize 0) =
        inputSize files (done ++ [f]) := by
      rw [inputSize_concat hfile]
      omega
    rwa [hread] at hz

/-! ## The result -/

/-- As many shards of more than `S` bytes as there are have more bytes than `S` times their number. -/
theorem Sized.length_mul_le {read : Int} {c : Cutter} (hz : Sized files shardSize L read c) :
    c.fileShards.length * (shardSize + 1) ≤ (c.fileShards.map (FileShard.bytes files)).sum := by
  have hfull := hz.full
  generalize c.fileShards = shards at hfull
  induction shards with
  | nil => simp
  | cons shard shards ih =>
    have hhead := (hfull shard List.mem_cons_self).1
    have htail := ih fun s hs => hfull s (List.mem_cons_of_mem _ hs)
    rw [List.map_cons, List.sum_cons, List.length_cons, Int.natCast_succ, Int.add_mul, Int.one_mul]
    omega

/-- Every shard but the last has more than `S` bytes and every shard at most `S + L`, the last one has at least one,
and there are at most as many shards as the size of the input divided by `S`, rounded up. -/
theorem shards_sized {mapKilobytes : Int} (hpos : 0 < mapKilobytes) {shards : List FileShard}
    (h : shardFiles files mapKilobytes inputFiles = .ok shards) :
    (∀ shard ∈ shards.dropLast, mapKilobytes * 1024 < FileShard.bytes files shard) ∧
    (∀ shard ∈ shards, FileShard.bytes files shard ≤ mapKilobytes * 1024 + longestRecord files inputFiles) ∧
    (∀ shard ∈ shards.getLast?, 1 ≤ FileShard.bytes files shard) ∧
    (shards.length : Int) ≤ (inputSize files inputFiles + mapKilobytes * 1024 - 1) / (mapKilobytes * 1024) := by
  obtain ⟨-, c, hcut, rfl⟩ := (shardFiles_eq_ok hpos).mp h
  have hS : 0 < mapKilobytes * 1024 := by omega
  generalize mapKilobytes * 1024 = shardSize at hcut hS ⊢
  obtain ⟨hP, hremain, -⟩ := sizedInvariant.finished hS hcut
  have hz := hP (longestRecord files inputFiles) fun f hf r hr =>
    Int.ofNat_le.mpr (length_le_longestRecord hf hr)
  have hcount := hz.length_mul_le
  have hfilled := hz.filled
  have htotal := hz.total
  rw [Int.mul_add, Int.mul_one] at hcount
  have hlast : c.shard ≠ [] → 1 ≤ FileShard.bytes files c.shard := hz.nonempty
  refine ⟨fun shard hshard => ?_, fun shard hshard => ?_, fun shard hshard => ?_, ?_⟩
  · unfold Cutter.finish at hshard
    split at hshard
    · exact (hz.full shard (List.mem_of_mem_dropLast hshard)).1
    · rw [List.dropLast_concat] at hshard
      exact (hz.full shard hshard).1
  · rcases mem_finish.mp hshard with hpushed | ⟨rfl, -⟩
    · exact (hz.full shard hpushed).2
    · omega
  · rcases mem_finish.mp (List.mem_of_getLast? hshard) with hpushed | ⟨rfl, hne⟩
    · exact Int.le_trans hS (Int.le_of_lt (hz.full shard hpushed).1)
    · exact hlast hne
  · rw [Int.le_ediv_iff_mul_le hS]
    unfold Cutter.finish
    split
    · next hnil =>
      rw [hnil, bytes_nil] at htotal
      omega
    · next hne =>
      have hbyte := hlast hne
      rw [List.length_append, List.length_singleton, Int.natCast_add, Int.add_mul, Int.natCast_one, Int.one_mul]
      omega

/-- Files of 1041 bytes in two lines. -/
def twoLines : Files := fun _ => some (List.replicate 1030 97 ++ newline :: List.replicate 10 98)

theorem shards_sized_three : ∃ shards : List FileShard, shards.length = 3 ∧
    ∀ shard ∈ shards.dropLast, 1024 < FileShard.bytes twoLines shard := by
  have h : shardFiles twoLines 1 [[97], [98]] =
      .ok [[⟨[97], 0, 1031⟩], [⟨[97], 1031, 1041⟩, ⟨[98], 0, 1031⟩], [⟨[98], 1031, 1041⟩]] :=
    ok_of_toOption (by decide +kernel)
  exact ⟨_, rfl, (shards_sized (by decide) h).1⟩

end AdvancedOS.MapReduce
