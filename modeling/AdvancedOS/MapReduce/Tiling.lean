import AdvancedOS.Lib.Intervals
import AdvancedOS.MapReduce.ShardLoop

/-!
# The shards tile the input

The ranges of a file that `shard_files` makes lie side by side from 0 to the end of the file, or to one byte
further, and each begins at the beginning of a line (`Tiled`). `shards_tile` says so of every input
file, in the order of the shards.
-/

namespace AdvancedOS.MapReduce

open Intervals

/-! ## The ranges of a file -/

/-- The two vectors of a `FileShard`. -/
def FileShard.files (shard : FileShard) : List Str := shard.map Range.file

def FileShard.offsets (shard : FileShard) : List (Int × Int) := shard.map fun r => (r.start, r.stop)

variable {files : Files} {shardSize : Int} {inputFiles done : List Str} {f d : Str} {rs : List Range}

/-- The byte at `p` is in the range. -/
def Range.holds (p : Nat) (r : Range) : Bool := decide (r.start ≤ p ∧ (p : Int) < r.stop)

/-- The range starts the file, or a line of it. -/
def Range.StartsLine (d : Str) (r : Range) : Prop := r.start = 0 ∨ d[(r.start - 1).toNat]? = some newline

/-- The ranges `rs` of the file `f` with contents `d`, as far as `hi`. -/
structure TiledTo (f d : Str) (hi : Int) (rs : List Range) : Prop where
  file : ∀ r ∈ rs, r.file = f
  tiles : Tiles hi 0 (FileShard.offsets rs)
  within : ∀ r ∈ rs, r.start < d.length
  line : ∀ r ∈ rs, r.StartsLine d

/-- The ranges of a whole file: they all belong to it and none is empty; they lie side by side from 0 to the end of
the file; each starts a line; every byte is in exactly one of them; an empty file has none. -/
structure Tiled (f d : Str) (rs : List Range) : Prop where
  file : ∀ r ∈ rs, r.file = f
  nonempty : ∀ r ∈ rs, 0 ≤ r.start ∧ r.start < r.stop ∧ r.start < d.length
  contiguous : ∃ hi, (d.length : Int) ≤ hi ∧ hi ≤ d.length + 1 ∧ Tiles hi 0 (FileShard.offsets rs)
  line : ∀ r ∈ rs, r.StartsLine d
  once : ∀ p : Nat, p < d.length → rs.countP (Range.holds p) = 1
  empty : d = [] → rs = []

theorem TiledTo.concat {lo hi : Int} (h : TiledTo f d lo rs) (hlt : lo < hi) (hwithin : lo < d.length)
    (hline : Range.StartsLine d ⟨f, lo, hi⟩) : TiledTo f d hi (rs ++ [⟨f, lo, hi⟩]) where
  file := List.forall_mem_append.mpr ⟨h.file, by simp⟩
  tiles := by
    rw [FileShard.offsets, List.map_append]
    exact tiles_concat h.tiles hlt
  within := List.forall_mem_append.mpr ⟨h.within, by simpa using hwithin⟩
  line := List.forall_mem_append.mpr ⟨h.line, by simpa using hline⟩

theorem TiledTo.tiled {hi : Int} (h : TiledTo f d hi rs) (hle : (d.length : Int) ≤ hi) (hhi : hi ≤ d.length + 1) :
    Tiled f d rs where
  file := h.file
  nonempty r hr := by
    have hin := h.tiles.inside (r.start, r.stop) (List.mem_map_of_mem hr)
    exact ⟨hin.1, hin.2.1, h.within r hr⟩
  contiguous := ⟨hi, hle, hhi, h.tiles⟩
  line := h.line
  once p hp := by
    have hone := h.tiles.countP_eq_one (p := (p : Int)) (Int.natCast_nonneg p) (by omega)
    rwa [FileShard.offsets, List.countP_map] at hone
  empty hd := by
    refine List.eq_nil_iff_forall_not_mem.mpr fun r hr => ?_
    have hin := h.tiles.inside (r.start, r.stop) (List.mem_map_of_mem hr)
    have hlt := h.within r hr
    rw [hd, List.length_nil] at hlt
    exact absurd (lt_of_le_of_lt hin.1 hlt) (lt_irrefl _)

/-! ## The loops -/

/-- Between two files. -/
structure Covered (files : Files) (done : List Str) (c : Cutter) : Prop where
  tiled : ∃ rss, c.ranges = rss.flatten ∧
    List.Forall₂ (fun f rs => ∃ d, files f = some d ∧ Tiled f d rs) done rss
  pushed : ∀ shard ∈ c.fileShards, shard ≠ []

/-- At the head of the `while`. -/
structure Covering (files : Files) (done : List Str) (f d : Str) (h : LoopHead) : Prop where
  tiled : ∃ rss rs, h.cutter.ranges = rss.flatten ++ rs ∧
    List.Forall₂ (fun f rs => ∃ d, files f = some d ∧ Tiled f d rs) done rss ∧
    TiledTo f d (d.length - h.fileSize) rs
  line : 0 < h.fileSize → h.fileOffset = 0 ∨ d[(h.fileOffset - 1).toNat]? = some newline
  pushed : ∀ shard ∈ h.cutter.fileShards, shard ≠ []

theorem covering_turn {h h' : LoopHead} (hs : h.Sound shardSize d) (hc : Covering files done f d h)
    (hpos : 0 < h.fileSize) (hturn : turn shardSize f d h = .ok h') : Covering files done f d h' := by
  obtain ⟨rss, rs, hranges, hall, htiled⟩ := hc.tiled
  have hplace := hs.place hpos
  have hfrom : (d.length : Int) - h.fileSize = h.fileOffset := by omega
  rw [hfrom] at htiled
  rcases turn_ok hturn with ⟨-, rfl⟩ | ⟨splitSize, -, hsplit, -, rfl⟩
  · refine ⟨⟨rss, rs ++ [⟨f, h.fileOffset, h.fileOffset + h.fileSize⟩], ?_, hall, ?_⟩, fun h0 => ?_, hc.pushed⟩
    · rw [← List.append_assoc, ← hranges, Cutter.ranges, Cutter.ranges, List.append_assoc]
      rfl
    · have hend : (d.length : Int) - (h.takeRest f).fileSize = h.fileOffset + h.fileSize := by
        simp only [LoopHead.takeRest]
        omega
      rw [hend]
      exact htiled.concat (by omega) (by omega) (hc.line hpos)
    · exact absurd h0 (Int.lt_irrefl 0)
  · obtain ⟨hlt, hsize, hline⟩ := getSplit_call hs hpos hsplit
    have hremain := hs.remain_pos
    refine ⟨⟨rss, rs ++ [⟨f, h.fileOffset, h.fileOffset + splitSize⟩], ?_, hall, ?_⟩, fun h0 => ?_, ?_⟩
    · rw [← List.append_assoc, ← hranges]
      simp [LoopHead.cut, Cutter.ranges]
    · have hend : (d.length : Int) - (h.cut shardSize f d splitSize).fileSize = h.fileOffset + splitSize := by
        simp only [LoopHead.cut]
        omega
      rw [hend]
      exact htiled.concat (by omega) (by omega) (hc.line hpos)
    · -- what is left begins after a newline
      simp only [LoopHead.cut] at h0 ⊢
      rcases hline with ⟨-, hend⟩ | ⟨-, -, hnewline⟩
      · omega
      · exact .inr hnewline
    · simp only [LoopHead.cut]
      refine List.forall_mem_append.mpr ⟨hc.pushed, ?_⟩
      simp

theorem coveredInvariant : LoopInvariant files shardSize (Covered files) (Covering files) where
  start := ⟨⟨[], rfl, .nil⟩, fun _ h => absurd h List.not_mem_nil⟩
  enter {done f d c} hc _ _ := by
    obtain ⟨rss, hranges, hall⟩ := hc.tiled
    refine ⟨⟨rss, [], by rw [hranges, List.append_nil], hall, ?_⟩, fun _ => .inl rfl, hc.pushed⟩
    rw [Int.sub_self]
    exact ⟨by simp, rfl, by simp, by simp⟩
  turn _ hs hc hpos hturn := covering_turn hs hc hpos hturn
  leave {done f d h} hfile hs hc hend := by
    obtain ⟨rss, rs, hranges, hall, htiled⟩ := hc.tiled
    have hsize := hs.size_ge
    refine ⟨⟨rss ++ [rs], ?_, ?_⟩, hc.pushed⟩
    · rw [hranges, List.flatten_append, List.flatten_singleton]
    · exact List.rel_append hall (.cons ⟨d, hfile, htiled.tiled (by omega) (by omega)⟩ .nil)

/-! ## The result -/

/-- If `shard_files` returns true, its ranges, in the order of the shards, are those of one input file after the other,
which tile it; and no shard is empty. -/
theorem shards_tile {mapKilobytes : Int} (hpos : 0 < mapKilobytes) {shards : List FileShard}
    (h : shardFiles files mapKilobytes inputFiles = .ok shards) :
    (∃ rss, shards.flatten = rss.flatten ∧
      List.Forall₂ (fun f rs => ∃ d, files f = some d ∧ Tiled f d rs) inputFiles rss) ∧
    ∀ shard ∈ shards, shard.files.length = shard.offsets.length ∧ shard ≠ [] := by
  obtain ⟨-, c, hcut, rfl⟩ := (shardFiles_eq_ok hpos).mp h
  obtain ⟨hc, -⟩ := coveredInvariant.finished (by omega) hcut
  obtain ⟨rss, hranges, hall⟩ := hc.tiled
  refine ⟨⟨rss, (flatten_finish c).trans hranges, hall⟩, fun shard hshard => ⟨?_, ?_⟩⟩
  · rw [FileShard.files, FileShard.offsets, List.length_map, List.length_map]
  · rcases mem_finish.mp hshard with hpushed | ⟨-, hne⟩
    · exact hc.pushed shard hpushed
    · exact hne

/-- One file of 1041 bytes in two lines; the others are empty. -/
def oneLong : Files := fun f =>
  if f = [97] then some (List.replicate 1030 97 ++ newline :: List.replicate 10 98) else some []

/-- The long file, twice, with an empty file between. -/
theorem shards_tile_three : ∃ (shards : List FileShard) (rss : List (List Range)),
    shards = [[⟨[97], 0, 1031⟩], [⟨[97], 1031, 1041⟩, ⟨[97], 0, 1031⟩], [⟨[97], 1031, 1041⟩]] ∧
    shards.flatten = rss.flatten ∧ rss.length = 3 := by
  have h : shardFiles oneLong 1 [[97], [98], [97]] =
      .ok [[⟨[97], 0, 1031⟩], [⟨[97], 1031, 1041⟩, ⟨[97], 0, 1031⟩], [⟨[97], 1031, 1041⟩]] :=
    ok_of_toOption (by decide +kernel)
  obtain ⟨rss, hflatten, hall⟩ := (shards_tile (by decide) h).1
  exact ⟨_, rss, rfl, hflatten, hall.length_eq.symm⟩

end AdvancedOS.MapReduce
