import AdvancedOS.MapReduce.ShardSizes
import AdvancedOS.MapReduce.ShardStarts

/-!
# The arithmetic of `shard_files`

`InRange`: no step of `shard_files` leaves the range of its C++ type, nor does `partition_size` in `handle_map_job`
for any of the shards. `arithmetic_in_range` says exactly when that is so. The validator asks for a positive
`map_kilobytes` only: from 2097152 on the size of a shard is no `int` (`shard_size_overflows`), and from
1048576 on the length of a range need not be one. `in_range_of_small` is a bound below which nothing happens.
-/

namespace AdvancedOS.MapReduce

open Lines Cutting

variable {files : Files} {shardSize mapKilobytes : Int} {inputFiles : List Str} {h h' : LoopHead} {f d : Str}

/-- No step of `shard_files` leaves the range of its type, nor does the length of a range when `handle_map_job` keeps it
in an `int`; the loops end. -/
structure InRange (files : Files) (mapKilobytes : Int) (inputFiles : List Str) : Prop where
  /-- `shard_size` is an `int`. -/
  shardSize : mapKilobytes * 1024 ≤ intMax
  /-- At the head of the `while`: `remain_shard_size`, `file_offset` and the position to seek to. -/
  head : ∀ done f d h, AtHead files (mapKilobytes * 1024) inputFiles done f d h →
    1 ≤ h.cutter.remainShardSize ∧ h.cutter.remainShardSize ≤ mapKilobytes * 1024 ∧
    0 ≤ h.fileOffset ∧ 0 ≤ h.fileOffset + h.cutter.remainShardSize ∧
    (h.cutter.remainShardSize ≤ h.fileSize → h.fileOffset + h.cutter.remainShardSize ≤ longMax)
  /-- Every turn makes `file_size` less. -/
  turn : ∀ done f d h h', AtHead files (mapKilobytes * 1024) inputFiles done f d h → 0 < h.fileSize →
    turn (mapKilobytes * 1024) f d h = .ok h' → h'.fileSize < h.fileSize
  ends : shardFiles files mapKilobytes inputFiles ≠ .error .outOfFuel
  /-- Every offset is a `long`. -/
  offsets : shardFiles files mapKilobytes inputFiles ≠ .error .overflow
  /-- The counters of the loops that print the shards. -/
  printed : ∀ shards, shardFiles files mapKilobytes inputFiles = .ok shards →
    shards.length ≤ intMax ∧ ∀ shard ∈ shards, shard.length ≤ intMax
  /-- `partition_size` is an `int`. -/
  partitionSize : ∀ shards, shardFiles files mapKilobytes inputFiles = .ok shards →
    ∀ shard ∈ shards, ∀ r ∈ shard, 0 ≤ r.stop - r.start ∧ r.stop - r.start ≤ intMax

/-! ## The ranges -/

/-- A shard has at most as many ranges as bytes up to its cut. The length of a range is a size that `get_split`
returned, or at most that of a shard. -/
structure ShardCounts (shardSize : Int) (c : Cutter) : Prop where
  pushed : ∀ shard ∈ c.fileShards, (shard.length : Int) ≤ shardSize
  begun : c.shard.length + c.remainShardSize ≤ shardSize
  fresh : c.shard = [] → c.remainShardSize = shardSize
  range : ∀ r ∈ c.ranges, 0 ≤ r.stop - r.start ∧
    (r.stop - r.start ≤ shardSize ∨ ∃ call ∈ c.splits, r.stop - r.start = call.splitSize)
  split : ∀ call ∈ c.splits, ∃ r ∈ c.ranges, r.stop - r.start = call.splitSize

theorem counted_turn (hs : h.Sound shardSize d) (hc : ShardCounts shardSize h.cutter) (hpos : 0 < h.fileSize)
    (hturn : turn shardSize f d h = .ok h') : ShardCounts shardSize h'.cutter := by
  have hremain := hs.remain_pos
  have hle := hs.remain_le
  have hbegun := hc.begun
  rcases turn_ok hturn with ⟨hfits, rfl⟩ | ⟨splitSize, -, hsplit, -, rfl⟩
  · have hranges : (h.takeRest f).cutter.ranges =
        h.cutter.ranges ++ [⟨f, h.fileOffset, h.fileOffset + h.fileSize⟩] := by
      simp [LoopHead.takeRest, Cutter.ranges]
    refine ⟨hc.pushed, ?_, fun hnil => ?_, ?_, fun call hcall => ?_⟩
    · simp only [LoopHead.takeRest, List.length_append, List.length_singleton]
      omega
    · simp [LoopHead.takeRest] at hnil
    · rw [hranges]
      refine List.forall_mem_append.mpr ⟨hc.range, ?_⟩
      simp only [List.mem_singleton, forall_eq]
      exact ⟨by omega, .inl (by omega)⟩
    · obtain ⟨r, hr, hlength⟩ := hc.split call hcall
      exact ⟨r, hranges ▸ List.mem_append_left _ hr, hlength⟩
  · obtain ⟨hlt, hsize, -⟩ := getSplit_call hs hpos hsplit
    have hcall : splitSize = (h.call d).splitSize := hsize
    have hranges : (h.cut shardSize f d splitSize).cutter.ranges =
        h.cutter.ranges ++ [⟨f, h.fileOffset, h.fileOffset + splitSize⟩] := by
      simp [LoopHead.cut, Cutter.ranges]
    have hsplits : (h.cut shardSize f d splitSize).cutter.splits = h.cutter.splits ++ [h.call d] := rfl
    have hlength : h.fileOffset + splitSize - h.fileOffset = (h.call d).splitSize := by omega
    refine ⟨?_, ?_, fun _ => rfl, ?_, ?_⟩
    · simp only [LoopHead.cut]
      refine List.forall_mem_append.mpr ⟨hc.pushed, ?_⟩
      simp only [List.mem_singleton, forall_eq, List.length_append, List.length_singleton]
      omega
    · simp [LoopHead.cut]
    · rw [hranges, hsplits]
      refine List.forall_mem_append.mpr ⟨fun r hr => ?_, ?_⟩
      · obtain ⟨hnonneg, hshort | ⟨call, hcall, heq⟩⟩ := hc.range r hr
        · exact ⟨hnonneg, .inl hshort⟩
        · exact ⟨hnonneg, .inr ⟨call, List.mem_append_left _ hcall, heq⟩⟩
      · simp only [List.mem_singleton, forall_eq]
        exact ⟨by omega, .inr ⟨h.call d, by simp, hlength⟩⟩
    · rw [hranges, hsplits]
      refine List.forall_mem_append.mpr ⟨fun call hcall => ?_, ?_⟩
      · obtain ⟨r, hr, heq⟩ := hc.split call hcall
        exact ⟨r, List.mem_append_left _ hr, heq⟩
      · simp only [List.mem_singleton, forall_eq]
        exact ⟨_, List.mem_append_right _ (List.mem_singleton_self _), hlength⟩

theorem countedInvariant : LoopInvariant files shardSize (fun _ c => ShardCounts shardSize c)
    (fun _ _ _ h => ShardCounts shardSize h.cutter) where
  start := ⟨by simp [startCutter], by simp [startCutter], fun _ => rfl, by simp [startCutter, Cutter.ranges],
    by simp [startCutter]⟩
  enter hc _ _ := hc
  turn _ hs hc hpos hturn := counted_turn hs hc hpos hturn
  leave _ _ hc _ := hc

theorem length_finish {c : Cutter} (hc : ShardCounts shardSize c) (hremain : 1 ≤ c.remainShardSize) :
    c.finish.length = c.fileShards.length + if c.remainShardSize.toNat = shardSize.toNat then 0 else 1 := by
  have hbegun := hc.begun
  unfold Cutter.finish
  split
  · next hnil => rw [hc.fresh hnil, if_pos rfl, Nat.add_zero]
  · next hne =>
    have hlength := List.length_pos_of_ne_nil hne
    rw [if_neg (by omega), List.length_append, List.length_singleton]

theorem length_le_of_mem_finish {c : Cutter} (hc : ShardCounts shardSize c) (hremain : 1 ≤ c.remainShardSize) :
    ∀ shard ∈ c.finish, (shard.length : Int) ≤ shardSize := by
  intro shard hshard
  have hbegun := hc.begun
  rcases mem_finish.mp hshard with hpushed | ⟨rfl, -⟩
  · exact hc.pushed shard hpushed
  · omega

/-- The lengths of all ranges are at most `bound` if the sizes are that `get_split` returned, and that of a shard is. -/
theorem ranges_le_iff {c : Cutter} (hc : ShardCounts shardSize c) {bound : Int} (hbound : shardSize ≤ bound) :
    (∀ shard ∈ c.finish, ∀ r ∈ shard, 0 ≤ r.stop - r.start ∧ r.stop - r.start ≤ bound) ↔
      ∀ call ∈ c.splits, call.splitSize ≤ bound := by
  have hmem : ∀ r, r ∈ c.ranges ↔ ∃ shard ∈ c.finish, r ∈ shard := by
    intro r
    rw [← flatten_finish, List.mem_flatten]
  constructor
  · intro hle call hcall
    obtain ⟨r, hr, heq⟩ := hc.split call hcall
    obtain ⟨shard, hshard, hr⟩ := (hmem r).mp hr
    exact heq ▸ (hle shard hshard r hr).2
  · intro hle shard hshard r hr
    obtain ⟨hnonneg, hshort⟩ := hc.range r ((hmem r).mpr ⟨shard, hshard, hr⟩)
    refine ⟨hnonneg, ?_⟩
    rcases hshort with hshort | ⟨call, hcall, heq⟩
    · exact Int.le_trans hshort hbound
    · exact heq ▸ hle call hcall

/-! ## When all is in range -/

theorem ends_of_ok {P : Int → Prop} {last : Nat → Nat → Prop} {full : Prop} {x : Except Failure Cutter} {c : Cutter}
    (hx : x = .ok c) : Ends P last full x ↔
      (∀ call ∈ c.splits, P call.splitSize) ∧ last c.fileShards.length c.remainShardSize.toNat := by
  rw [hx]
  rfl

/-- The offsets are in range unless a cut is past the last one. -/
theorem offsets_iff (hpos : 0 < mapKilobytes) (hint : mapKilobytes * 1024 ≤ intMax) (hread : Readable files inputFiles) :
    shardFiles files mapKilobytes inputFiles ≠ .error .overflow ↔
      ∀ n room p, Cut lineLength (mapKilobytes * 1024).toNat (pieces files inputFiles) n room p →
        p.offset + p.cutLength lineLength room ≤ longMax := by
  have hS : 0 < mapKilobytes * 1024 := by omega
  have hends := ends_iff (fun _ => True) (fun _ _ => True) True hS (fun _ _ => trivial) hread
  have hnofuel : shardFiles files mapKilobytes inputFiles ≠ .error .outOfFuel := shardFiles_ends
  simp only [CutOk, and_true, imp_true_iff, true_or] at hends
  rw [← hends]
  unfold shardFiles cutInput at hnofuel ⊢
  simp only at hnofuel ⊢
  rw [if_neg (by omega), ← startCutter] at hnofuel ⊢
  cases hcut : cutFiles files (mapKilobytes * 1024) inputFiles (startCutter (mapKilobytes * 1024)) with
  | ok c => simp [Except.map, Ends]
  | error e =>
    rw [hcut] at hnofuel
    cases e with
    | returnedFalse => simp [Except.map, Ends]
    | overflow => simp [Except.map, Ends]
    | outOfFuel => exact absurd rfl hnofuel

/-- If the sharding succeeds, its counts and lengths are in range unless a cut is too long or there are too
many chunks. -/
theorem counts_iff (hpos : 0 < mapKilobytes) (hint : mapKilobytes * 1024 ≤ intMax) (hread : Readable files inputFiles)
    (hoffsets : ∀ n room p, Cut lineLength (mapKilobytes * 1024).toNat (pieces files inputFiles) n room p →
      p.offset + p.cutLength lineLength room ≤ longMax) :
    (∀ shards, shardFiles files mapKilobytes inputFiles = .ok shards → shards.length ≤ intMax ∧
      ∀ shard ∈ shards, ∀ r ∈ shard, 0 ≤ r.stop - r.start ∧ r.stop - r.start ≤ intMax) ↔
    ((∀ n, ¬ Exact lineLength (mapKilobytes * 1024).toNat (pieces files inputFiles) n) →
      (∀ n room p, Cut lineLength (mapKilobytes * 1024).toNat (pieces files inputFiles) n room p →
        p.cutLength lineLength room ≤ intMax) ∧
      ∀ n rest, Start lineLength (mapKilobytes * 1024).toNat (pieces files inputFiles) n rest →
        total rest < (mapKilobytes * 1024).toNat → (n + if total rest = 0 then 0 else 1) ≤ intMax) := by
  have hS : 0 < mapKilobytes * 1024 := by omega
  have hok := cutFiles_succeeds hS hread
  have hends := ends_iff (fun k => k ≤ intMax)
    (fun n room => (n + if room = (mapKilobytes * 1024).toNat then 0 else 1) ≤ intMax) False hS
    (fun h => h.elim) hread
  simp only [shardFiles_eq_ok hpos, and_iff_right hint]
  generalize mapKilobytes * 1024 = shardSize at hS hint hoffsets hok hends ⊢
  simp only [CutOk, false_or, Int.ofNat_le] at hends
  have hroom : ∀ rest : List (Piece UInt8), total rest < shardSize.toNat →
      (shardSize.toNat - total rest = shardSize.toNat ↔ total rest = 0) := by
    intro rest hlt
    omega
  constructor
  · intro hprinted hno
    obtain ⟨c, hcut⟩ := hok.mpr ⟨hoffsets, hno⟩
    obtain ⟨hc, hremain, -⟩ := countedInvariant.finished hS hcut
    obtain ⟨hcount, hlengths⟩ := hprinted c.finish ⟨c, hcut, rfl⟩
    rw [length_finish hc hremain] at hcount
    rw [ranges_le_iff hc hint] at hlengths
    obtain ⟨hcuts, hlast, -⟩ := hends.mp ((ends_of_ok hcut).mpr ⟨hlengths, hcount⟩)
    refine ⟨fun n room p hp => (hcuts n room p hp).2, fun n rest hs hlt => ?_⟩
    have hn := hlast n rest hs hlt
    simpa only [hroom rest hlt] using hn
  · rintro himp shards ⟨c, hcut, rfl⟩
    obtain ⟨hc, hremain, -⟩ := countedInvariant.finished hS hcut
    have hno := (hok.mp ⟨c, hcut⟩).2
    obtain ⟨hshort, hcount⟩ := himp hno
    have hall := hends.mpr ⟨fun n room p hp => ⟨hoffsets n room p hp, hshort n room p hp⟩, fun n rest hs hlt => by
      simpa only [hroom rest hlt] using hcount n rest hs hlt, hno⟩
    obtain ⟨hsplits, hlast⟩ := (ends_of_ok hcut).mp hall
    rw [length_finish hc hremain, ranges_le_iff hc hint]
    exact ⟨hlast, hsplits⟩

theorem inRange_iff (hpos : 0 < mapKilobytes) (hread : Readable files inputFiles) :
    InRange files mapKilobytes inputFiles ↔
      mapKilobytes ≤ 2097151 ∧
      (∀ n room p, Cut lineLength (mapKilobytes * 1024).toNat (pieces files inputFiles) n room p →
        p.offset + p.cutLength lineLength room ≤ longMax) ∧
      ((∀ n, ¬ Exact lineLength (mapKilobytes * 1024).toNat (pieces files inputFiles) n) →
        (∀ n room p, Cut lineLength (mapKilobytes * 1024).toNat (pieces files inputFiles) n room p →
          p.cutLength lineLength room ≤ intMax) ∧
        ∀ n rest, Start lineLength (mapKilobytes * 1024).toNat (pieces files inputFiles) n rest →
          total rest < (mapKilobytes * 1024).toNat → (n + if total rest = 0 then 0 else 1) ≤ intMax) := by
  have hmax : intMax = 2147483647 := rfl
  constructor
  · intro hr
    have hoffsets := (offsets_iff hpos hr.shardSize hread).mp hr.offsets
    have hsize := hr.shardSize
    refine ⟨by omega, hoffsets, (counts_iff hpos hr.shardSize hread hoffsets).mp fun shards hshards => ?_⟩
    exact ⟨(hr.printed shards hshards).1, hr.partitionSize shards hshards⟩
  · rintro ⟨hsize, hoffsets, himp⟩
    have hint : mapKilobytes * 1024 ≤ intMax := by omega
    have hS : 0 < mapKilobytes * 1024 := by omega
    have hcounts := (counts_iff hpos hint hread hoffsets).mpr himp
    refine ⟨hint, ?_, ?_, shardFiles_ends, (offsets_iff hpos hint hread).mpr hoffsets, ?_, ?_⟩
    · intro done f d h hat
      obtain ⟨-, hs, -⟩ := countedInvariant.atHead hS hat
      have hremain := hs.remain_pos
      have hoffset := hs.offset_nonneg
      refine ⟨hremain, hs.remain_le, hoffset, by omega, fun hle => ?_⟩
      have hplace := hs.place (by omega)
      have hsize := hat.length_le
      omega
    · intro done f d h h' hat hpos hturn
      obtain ⟨-, hs, -⟩ := countedInvariant.atHead hS hat
      exact (sound_turn hS hs hpos hturn).2
    · intro shards hshards
      refine ⟨(hcounts shards hshards).1, fun shard hshard => ?_⟩
      obtain ⟨-, c, hcut, rfl⟩ := (shardFiles_eq_ok hpos).mp hshards
      obtain ⟨hc, hremain, -⟩ := countedInvariant.finished hS hcut
      have hlength := length_le_of_mem_finish hc hremain shard hshard
      omega
    · intro shards hshards
      exact (hcounts shards hshards).2

theorem total_pieces : total (pieces files inputFiles) = inputSize files inputFiles := by
  simp [total, pieces, inputSize, Function.comp_def]

/-- A cut ends at most one byte after its file, and is at most a record longer than a shard. -/
theorem cut_le {n room : Nat} {p : Piece UInt8} (hread : Readable files inputFiles)
    (hcut : Cut lineLength shardSize.toNat (pieces files inputFiles) n room p) :
    ∃ f ∈ inputFiles, ∃ d, files f = some d ∧ p.offset + p.cutLength lineLength room ≤ d.length + 1 ∧
      p.cutLength lineLength room ≤ shardSize.toNat + longestRecord files inputFiles + 1 := by
  obtain ⟨xs, ys, hs, hlt, hgt, rfl⟩ := hcut
  obtain ⟨q, hq, -, htext⟩ := hs.suffix p (by simp)
  obtain ⟨f, hf, rfl⟩ := List.mem_map.mp hq
  obtain ⟨d, hfile, -⟩ := hread f hf
  refine ⟨f, hf, d, hfile, ?_⟩
  rw [hfile, Option.getD_some, Nat.sub_zero] at htext
  have hlength : p.text.length = d.length - p.offset := by rw [htext, List.length_drop]
  have hrest : d.drop (p.offset + (shardSize.toNat - total xs)) = p.text.drop (shardSize.toNat - total xs) := by
    rw [htext, List.drop_drop]
  have hline : (firstLine newline (p.text.drop (shardSize.toNat - total xs))).length ≤
      p.text.length - (shardSize.toNat - total xs) := by
    rw [← List.length_drop]
    exact (List.takeWhile_prefix _).length_le
  have hmore : d.drop (p.offset + (shardSize.toNat - total xs)) ≠ [] := by
    refine List.ne_nil_of_length_pos ?_
    rw [List.length_drop]
    omega
  obtain ⟨r, hr, hle⟩ : ∃ r ∈ records newline d, _ := exists_record_drop hmore
  have hlongest : r.length ≤ longestRecord files inputFiles :=
    length_le_longestRecord hf (by rw [hfile]; exact hr)
  rw [hrest] at hle
  rw [Piece.cutLength, lineLength]
  omega

/-- With shards of less than 2^20 kilobytes, records of at most 2^30 bytes, and an input of at most as many kilobytes as an
`int` can count shards, everything is in range. -/
theorem in_range_of_small (hpos : 0 < mapKilobytes) (hsize : mapKilobytes ≤ 1048575)
    (hread : ∀ f ∈ inputFiles, ∃ d, files f = some d ∧ d.length < longMax)
    (hrecords : longestRecord files inputFiles ≤ 1073741824)
    (hinput : inputSize files inputFiles ≤ intMax * (mapKilobytes * 1024).toNat) :
    InRange files mapKilobytes inputFiles := by
  have hmax : intMax = 2147483647 := rfl
  have hreadable : Readable files inputFiles := by
    intro f hf
    obtain ⟨d, hfile, hlong⟩ := hread f hf
    exact ⟨d, hfile, Nat.le_of_lt hlong⟩
  refine (inRange_iff hpos hreadable).mpr ⟨by omega, fun n room p hcut => ?_, fun _ => ⟨fun n room p hcut => ?_,
    fun n rest hs hlt => ?_⟩⟩
  · obtain ⟨f, hf, d, hfile, hend, -⟩ := cut_le hreadable hcut
    obtain ⟨d', hfile', hlong⟩ := hread f hf
    obtain rfl := Option.some.inj (hfile.symm.trans hfile')
    exact Nat.le_trans hend hlong
  · obtain ⟨f, -, d, -, -, hlength⟩ := cut_le hreadable hcut
    omega
  · have htotal := hs.total_le
    rw [total_pieces] at htotal
    split
    · have hle : n * (mapKilobytes * 1024).toNat ≤ intMax * (mapKilobytes * 1024).toNat := by omega
      exact Nat.le_of_mul_le_mul_right hle (by omega)
    · have hless : n * (mapKilobytes * 1024).toNat < intMax * (mapKilobytes * 1024).toNat := by omega
      exact Nat.lt_of_mul_lt_mul_right hless

/-- For a valid job everything is in range exactly if the size of a shard is, no cut is past the last offset, and, if the
sharding succeeds, no cut is longer than an `int` can say and there are not more shards. -/
theorem arithmetic_in_range {isDirectory : Str → Bool} {spec : MapReduceSpec}
    (hvalid : validateMrSpec (fileExists files) isDirectory spec = true)
    (hlong : ∀ f ∈ spec.inputFiles, ∀ d, files f = some d → d.length ≤ longMax) :
    InRange files spec.mapKilobytes spec.inputFiles ↔
      spec.mapKilobytes ≤ 2097151 ∧
      (∀ n room p, Cut lineLength (spec.mapKilobytes * 1024).toNat (pieces files spec.inputFiles) n room p →
        p.offset + p.cutLength lineLength room ≤ longMax) ∧
      ((∀ n, ¬ Exact lineLength (spec.mapKilobytes * 1024).toNat (pieces files spec.inputFiles) n) →
        (∀ n room p, Cut lineLength (spec.mapKilobytes * 1024).toNat (pieces files spec.inputFiles) n room p →
          p.cutLength lineLength room ≤ intMax) ∧
        ∀ n rest, Start lineLength (spec.mapKilobytes * 1024).toNat (pieces files spec.inputFiles) n rest →
          total rest < (spec.mapKilobytes * 1024).toNat → (n + if total rest = 0 then 0 else 1) ≤ intMax) := by
  obtain ⟨-, -, -, -, -, -, -, hpos, -⟩ := validateMrSpec_iff.mp hvalid
  exact inRange_iff hpos (readable_of_valid hvalid hlong)

/-- A file of one short line, which is not cut. -/
theorem arithmetic_in_range_small : InRange (oneLine 5) 1 [str "input/a.txt"] := by
  have hshort : ∀ n room p, ¬ Cut lineLength 1024 (pieces (oneLine 5) [str "input/a.txt"]) n room p := by
    rintro n room p ⟨xs, ys, hs, hlt, hgt, rfl⟩
    have htotal := hs.total_le
    have hpieces : total (pieces (oneLine 5) [str "input/a.txt"]) = 6 := rfl
    rw [total_append, total_cons, hpieces] at htotal
    omega
  have hvalid : validateMrSpec (fileExists (oneLine 5)) (fun _ => true) (smallJob 1) = true := by decide
  refine (arithmetic_in_range hvalid (length_oneLine (by decide))).mpr ⟨by decide, fun n room p hcut => absurd hcut (hshort n room p), fun _ =>
      ⟨fun n room p hcut => absurd hcut (hshort n room p), fun n rest hs hlt => ?_⟩⟩
  have htotal := hs.total_le
  have hpieces : total (pieces (oneLine 5) (smallJob 1).inputFiles) = 6 := rfl
  have hsize : ((smallJob 1).mapKilobytes * 1024).toNat = 1024 := rfl
  have hmax : intMax = 2147483647 := rfl
  rw [hpieces, hsize] at htotal
  split <;> omega

/-- A valid job with one file of one short line. -/
theorem shard_size_overflows :
    validateMrSpec (fileExists (oneLine 5)) (fun _ => true) (smallJob 2097152) = true ∧
    (∀ f ∈ (smallJob 2097152).inputFiles, ∀ d, oneLine 5 f = some d →
      d.length ≤ longMax ∧ ∀ l ∈ lines newline d, l.length < 1073741824) ∧
    ¬ InRange (oneLine 5) (smallJob 2097152).mapKilobytes (smallJob 2097152).inputFiles := by
  refine ⟨by decide, fun f _ d hd => ?_, fun hr => absurd hr.shardSize (by decide)⟩
  obtain rfl := Option.some.inj hd
  exact ⟨by decide, by decide⟩

end AdvancedOS.MapReduce
