import AdvancedOS.Lib.Lists
import AdvancedOS.MapReduce.FileShard

/-!
# Shards and records

`rangeLines` is how `handle_map_job` reads a range back: into a buffer of zeros as long as the range,
which it then splits into lines. `sharding_preserves_records` says exactly when all shards together give the
lines of the input: when every call of `get_split` finds a newline, not further away than an `int`
can say. `record_changed` is an input whose last line has none.

The two sides of the proof meet in `segment`, the part of the file that a range covers:
the segments of a file are read line by line like the file (`cutFile_spec`), and a range is read like its
segment exactly if it ends within the file and its length is an `int` (`rangeLines_eq_iff`).
-/

namespace AdvancedOS.MapReduce

open Lines Lists

variable {files : Files} {d f : Str} {r : Range}

/-! ## The reader -/

/-- The buffer of `handle_map_job`: `partition_size` zeros, with the bytes of the file from `start`
on read over them. `none` is the `std::length_error` of a negative size. -/
def readRange (d : Str) (r : Range) : Option Str :=
  let partitionSize := toInt32 (r.stop - r.start)
  if partitionSize < 0 then none
  else
    let bytes := (d.drop r.start.toNat).take partitionSize.toNat
    some (bytes ++ List.replicate (partitionSize.toNat - bytes.length) 0)

/-- The lines of one range, as `handle_map_job` passes them to `map`. -/
def rangeLines (files : Files) (r : Range) : Option (List Str) :=
  (readRange ((files r.file).getD []) r).map (lines newline)

/-- The lines that `handle_map_job` passes to `map`. -/
def shardLines (files : Files) (shard : FileShard) : Option (List Str) :=
  (shard.mapM (rangeLines files)).map List.flatten

/-- The lines that `std::getline` yields on the input files. -/
def inputLines (files : Files) (inputFiles : List Str) : List Str :=
  inputFiles.flatMap fun f => lines newline ((files f).getD [])

/-! ## The segment of a range -/

/-- The part of the file that a range covers. -/
def segment (d : Str) (r : Range) : Str := (d.drop r.start.toNat).take (r.stop - r.start).toNat

/-- A range as `shard_files` makes it: it starts within the file, and if it ends past it, it has
one byte more and takes the rest of the file, whose last line has no newline. -/
structure Range.Cut (d : Str) (r : Range) : Prop where
  start_nonneg : 0 ≤ r.start
  start_lt : r.start < d.length
  lt : r.start < r.stop
  stop_le : r.stop ≤ d.length + 1
  tail : r.stop = d.length + 1 → ¬ Whole newline d

/-- A range that `handle_map_job` reads as its segment. -/
def Range.Good (d : Str) (r : Range) : Prop := r.stop ≤ d.length ∧ r.stop - r.start ≤ intMax

theorem not_whole_drop {n : Nat} (hn : n < d.length) (h : ¬ Whole newline d) :
    ¬ Whole newline (d.drop n) := by
  intro hwhole
  refine h fun c hc => hwhole c ?_
  rwa [List.getLast?_drop, if_neg (by omega)]

theorem readRange_good (hc : r.Cut d) (h : r.Good d) : readRange d r = some (segment d r) := by
  have hsize := toInt32_of_le (by have := hc.lt; omega) h.2
  have hstart := hc.start_nonneg
  have hlt := hc.lt
  have hstop := h.1
  have hlength : (segment d r).length = (r.stop - r.start).toNat := by
    rw [segment, List.length_take, List.length_drop]
    omega
  unfold readRange
  rw [hsize]
  simp only
  rw [if_neg (by omega)]
  have hzero : (r.stop - r.start).toNat - (segment d r).length = 0 := by omega
  rw [← segment, hzero, List.replicate_zero, List.append_nil]

/-- A range that ends past the file: the last line gets a zero. -/
theorem readRange_past (hc : r.Cut d) (hstop : r.stop = d.length + 1) (hsize : r.stop - r.start ≤ intMax) :
    readRange d r = some (segment d r ++ [0]) ∧ ¬ Whole newline (segment d r) := by
  have hstart := hc.start_nonneg
  have hlt := hc.start_lt
  have hrest : segment d r = d.drop r.start.toNat := by
    refine List.take_of_length_le ?_
    rw [List.length_drop]
    omega
  refine ⟨?_, ?_⟩
  · unfold readRange
    rw [toInt32_of_le (by omega) hsize]
    simp only
    rw [if_neg (by omega), ← segment, hrest, List.length_drop]
    have hone : (r.stop - r.start).toNat - (d.length - r.start.toNat) = 1 := by omega
    rw [hone]
    rfl
  · rw [hrest]
    exact not_whole_drop (by omega) (hc.tail hstop)

/-- A range that is too long: what is read, if anything, is shorter than the segment by two bytes at
least. -/
theorem readRange_long (hc : r.Cut d) (hsize : r.stop - r.start > intMax) {b : Str}
    (hb : readRange d r = some b) : ∃ rest, segment d r = b ++ rest ∧ 2 ≤ rest.length := by
  have hstart := hc.start_nonneg
  have hstop := hc.stop_le
  have hwrap := toInt32_of_gt hsize
  unfold readRange at hb
  simp only at hb
  split at hb
  · cases hb
  · next hnonneg =>
    obtain rfl := Option.some.inj hb
    have hlength : ((d.drop r.start.toNat).take (toInt32 (r.stop - r.start)).toNat).length =
        (toInt32 (r.stop - r.start)).toNat := by
      rw [List.length_take, List.length_drop]
      omega
    rw [hlength, Nat.sub_self, List.replicate_zero, List.append_nil]
    refine ⟨(segment d r).drop (toInt32 (r.stop - r.start)).toNat, ?_, ?_⟩
    · have htake := List.take_append_drop (toInt32 (r.stop - r.start)).toNat (segment d r)
      rw [segment, List.take_take, min_eq_left (by omega)] at htake
      exact htake.symm
    · rw [List.length_drop, segment, List.length_take, List.length_drop]
      omega

/-! ## The lines of a range -/

theorem rangeLines_length_le (hfile : files r.file = some d) (hc : r.Cut d) {ls : List Str}
    (h : rangeLines files r = some ls) : ls.length ≤ (lines newline (segment d r)).length := by
  rw [rangeLines, hfile] at h
  obtain ⟨b, hb, rfl⟩ := Option.map_eq_some_iff.mp h
  replace hb : readRange d r = some b := hb
  rcases lt_or_ge (intMax : Int) (r.stop - r.start) with hsize | hsize
  · obtain ⟨rest, hrest, -⟩ := readRange_long hc hsize hb
    rw [hrest]
    exact length_lines_append_le
  · rcases lt_or_ge (d.length : Int) r.stop with hstop | hstop
    · obtain ⟨hpast, hwhole⟩ := readRange_past hc (le_antisymm hc.stop_le hstop) hsize
      obtain rfl := Option.some.inj (hb.symm.trans hpast)
      exact le_of_eq (length_lines_concat hwhole (by decide))
    · obtain rfl := Option.some.inj (hb.symm.trans (readRange_good hc ⟨hstop, hsize⟩))
      exact le_refl _

/-- A range is read as its segment exactly if it is good: otherwise the width of the lines tells
the difference. -/
theorem rangeLines_eq_iff (hfile : files r.file = some d) (hc : r.Cut d) :
    rangeLines files r = some (lines newline (segment d r)) ↔ r.Good d := by
  rw [rangeLines, hfile]
  refine ⟨fun h => ?_, fun h => by rw [Option.getD_some, readRange_good hc h]; rfl⟩
  obtain ⟨b, hb, hlines⟩ := Option.map_eq_some_iff.mp h
  replace hb : readRange d r = some b := hb
  have hwidth := congrArg width hlines
  rw [width_lines, width_lines] at hwidth
  rcases lt_or_ge (intMax : Int) (r.stop - r.start) with hsize | hsize
  · obtain ⟨rest, hrest, htwo⟩ := readRange_long hc hsize hb
    rw [hrest, List.length_append] at hwidth
    split at hwidth <;> split at hwidth <;> omega
  · rcases lt_or_ge (d.length : Int) r.stop with hstop | hstop
    · obtain ⟨hpast, hwhole⟩ := readRange_past hc (le_antisymm hc.stop_le hstop) hsize
      obtain rfl := Option.some.inj (hb.symm.trans hpast)
      have hzero : ¬ Whole newline (segment d r ++ [0]) := by
        intro hw
        exact absurd (hw 0 (by simp)) (by decide)
      rw [if_neg hzero, if_neg hwhole, List.length_append] at hwidth
      simp at hwidth
    · exact ⟨hstop, hsize⟩

/-! ## The ranges of a file -/

/-- The ranges cut so far. -/
def Cutter.ranges (c : Cutter) : List Range := c.fileShards.flatten ++ c.shard

/-- What `get_split` adds to a range that ends at `n`: the rest of the line there, and its newline
if there is one. -/
theorem drop_eq_firstLine {o R k : Nat} (hR : d.drop (o + R) ≠ [])
    (hkR : k = R + (firstLine newline (d.drop (o + R))).length + 1) :
    (newline ∉ d.drop (o + R) ∧ o + k = d.length + 1 ∧ ¬ Whole newline d) ∨
      (newline ∈ d.drop (o + R) ∧ o + k ≤ d.length ∧ Whole newline ((d.drop o).take k)) := by
  have hlength : (d.drop (o + R)).length = d.length - (o + R) := List.length_drop
  have hpos := List.length_pos_of_ne_nil hR
  rcases firstLine_append newline (d.drop (o + R)) with ⟨heq, hno⟩ | ⟨t, heq⟩
  · refine .inl ⟨hno, ?_, fun hwhole => hno ?_⟩
    · rw [hkR, ← heq]
      omega
    · have hlast : (d.drop (o + R)).getLast? = d.getLast? := by
        rw [List.getLast?_drop, if_neg (by omega)]
      obtain ⟨c, hc⟩ := Option.isSome_iff_exists.mp (List.getLast?_isSome.mpr hR)
      obtain rfl := hwhole c (hlast ▸ hc)
      exact List.mem_of_getLast? hc
  · have hk := congrArg List.length heq
    rw [List.length_append, List.length_cons] at hk
    refine .inr ⟨?_, by omega, ?_⟩
    · rw [heq]
      exact List.mem_append_right _ List.mem_cons_self
    · have htake : (d.drop o).take (R + (firstLine newline (d.drop (o + R))).length + 1) =
          (d.drop o).take R ++ firstLine newline (d.drop (o + R)) ++ [newline] := by
        rw [Nat.add_assoc, List.take_add, List.drop_drop, List.append_assoc]
        congr 1
        generalize firstLine newline (d.drop (o + R)) = line at heq ⊢
        rw [heq, List.take_length_add_append]
        rfl
      rw [hkR, htake]
      exact whole_append_sep

/-- One call of `get_split`, made within the file, and the range up to where it says. -/
theorem cut_of_getSplit {o : Nat} {remain k : Int} (ho : o < d.length) (hremain : 0 ≤ remain)
    (hk : getSplit ⟨d, o, remain⟩ = some k) :
    Range.Cut d ⟨f, o, o + k⟩ ∧
    lines newline (d.drop o) =
      lines newline (segment d ⟨f, o, o + k⟩) ++ lines newline (d.drop (o + k).toNat) ∧
    (SplitCall.Terminated ⟨d, o, remain⟩ ∧ SplitCall.Fits ⟨d, o, remain⟩ ↔
      Range.Good d ⟨f, o, o + k⟩) := by
  obtain ⟨R, rfl⟩ := Int.eq_ofNat_of_zero_le hremain
  have hrest : SplitCall.rest ⟨d, o, R⟩ = d.drop (o + R) := by
    rw [SplitCall.rest]
    congr 1
  unfold getSplit at hk
  rw [hrest] at hk
  split at hk
  · cases hk
  · next hseek =>
    obtain rfl := Option.some.inj hk
    have hcases := drop_eq_firstLine (d := d) (o := o) (R := R)
      (fun h => hseek (.inr h)) rfl
    have hsegment : segment d ⟨f, o, o + (R + (firstLine newline (d.drop (o + R))).length + 1)⟩ =
        (d.drop o).take (R + (firstLine newline (d.drop (o + R))).length + 1) := by
      rw [segment]
      congr 1
      simp only
      omega
    have hnext : ((o : Int) + (R + (firstLine newline (d.drop (o + R))).length + 1)).toNat =
        o + (R + (firstLine newline (d.drop (o + R))).length + 1) := by omega
    simp only [SplitCall.Terminated, SplitCall.Fits, hrest, Range.Good]
    rw [hsegment, hnext]
    generalize (firstLine newline (d.drop (o + R))).length = L at hcases ⊢
    rcases hcases with ⟨hno, hk, hwhole⟩ | ⟨hmem, hk, hwhole⟩
    · refine ⟨⟨Int.natCast_nonneg o, by simp only; omega, by simp only; omega, by simp only; omega,
        fun _ => hwhole⟩, ?_, iff_of_false (fun h => hno h.1) fun h => ?_⟩
      · have hall : (d.drop o).length ≤ R + L + 1 := by
          rw [List.length_drop]
          omega
        have hnone : d.length ≤ o + (R + L + 1) := by omega
        rw [List.take_of_length_le hall, List.drop_of_length_le hnone, lines_nil, List.append_nil]
      · omega
    · refine ⟨⟨Int.natCast_nonneg o, by simp only; omega, by simp only; omega, by simp only; omega,
        fun hpast => ?_⟩, ?_, fun h => ⟨by omega, by omega⟩, fun h => ⟨hmem, by omega⟩⟩
      · simp only at hpast
        omega
      · rw [← lines_append hwhole, ← List.drop_drop, List.take_append_drop]

/-- What cutting goes through: the ranges `rs` and the calls `ss` of `get_split` are added, the
ranges are made from the files, they have the lines `ls`, and they are good exactly if the calls
are. -/
structure Cuts (files : Files) (c c' : Cutter) (rs : List Range) (ss : List SplitCall) (ls : List Str) :
    Prop where
  ranges : c'.ranges = c.ranges ++ rs
  splits : c'.splits = c.splits ++ ss
  remain_nonneg : 0 ≤ c'.remainShardSize
  remain_le : c'.remainShardSize ≤ intMax
  made : ∀ r ∈ rs, ∃ d, files r.file = some d ∧ r.Cut d
  lines : rs.flatMap (fun r => lines newline (segment ((files r.file).getD []) r)) = ls
  good : (∀ s ∈ ss, s.Terminated ∧ s.Fits) ↔ ∀ r ∈ rs, r.Good ((files r.file).getD [])

theorem Cuts.refl {c : Cutter} (h0 : 0 ≤ c.remainShardSize) (hle : c.remainShardSize ≤ intMax) :
    Cuts files c c [] [] [] :=
  ⟨(List.append_nil _).symm, (List.append_nil _).symm, h0, hle, nofun, rfl, by simp⟩

theorem Cuts.trans {c₁ c₂ c₃ : Cutter} {rs rs' : List Range} {ss ss' : List SplitCall} {ls ls' : List Str}
    (h : Cuts files c₁ c₂ rs ss ls) (h' : Cuts files c₂ c₃ rs' ss' ls') :
    Cuts files c₁ c₃ (rs ++ rs') (ss ++ ss') (ls ++ ls') where
  ranges := by rw [h'.ranges, h.ranges, List.append_assoc]
  splits := by rw [h'.splits, h.splits, List.append_assoc]
  remain_nonneg := h'.remain_nonneg
  remain_le := h'.remain_le
  made r hr := (List.mem_append.mp hr).elim (h.made r) (h'.made r)
  lines := by rw [List.flatMap_append, h.lines, h'.lines]
  good := by
    simp only [List.forall_mem_append]
    exact and_congr h.good h'.good

/-- The rest of a file goes into the shard. -/
theorem cuts_rest (hfile : files f = some d) {o : Nat} {left : Int} {c : Cutter} (hpos : 0 < left)
    (hleft : left = d.length - o) (hfits : c.remainShardSize > left)
    (hmax : c.remainShardSize ≤ intMax) :
    Cuts files c { c with
      shard := c.shard ++ [⟨f, o, o + left⟩], remainShardSize := c.remainShardSize - left }
      [⟨f, o, o + left⟩] [] (lines newline (d.drop o)) := by
  have hcut : Range.Cut d ⟨f, o, o + left⟩ :=
    ⟨Int.natCast_nonneg o, by simp only; omega, by simp only; omega, by simp only; omega,
      fun hpast => by simp only at hpast; omega⟩
  have hgood : Range.Good d ⟨f, o, o + left⟩ := ⟨by simp only; omega, by simp only; omega⟩
  have hsegment : segment d ⟨f, o, o + left⟩ = d.drop o := by
    refine List.take_of_length_le ?_
    simp only [Int.toNat_natCast, List.length_drop]
    omega
  refine ⟨(List.append_assoc _ _ _).symm, (List.append_nil _).symm, by simp only; omega,
    by simp only; omega, fun r hr => ?_, ?_, ?_⟩
  · obtain rfl := List.mem_singleton.mp hr
    exact ⟨d, hfile, hcut⟩
  · simp [hfile, hsegment]
  · simp [hfile, hgood]

/-- A range is cut off at the end of a line, and its shard is full. -/
theorem cuts_split {shardSize : Int} (hfile : files f = some d) {o : Nat} {k : Int} {c : Cutter}
    (ho : o < d.length) (hc0 : 0 ≤ c.remainShardSize) (h0 : 0 ≤ shardSize) (hmax : shardSize ≤ intMax)
    (hk : getSplit ⟨d, o, c.remainShardSize⟩ = some k) :
    Cuts files c
      { fileShards := c.fileShards ++ [c.shard ++ [⟨f, o, o + k⟩]]
        shard := []
        remainShardSize := shardSize
        splits := c.splits ++ [⟨d, o, c.remainShardSize⟩] }
      [⟨f, o, o + k⟩] [⟨d, o, c.remainShardSize⟩] (lines newline (segment d ⟨f, o, o + k⟩)) := by
  obtain ⟨hcut, -, hgood⟩ := cut_of_getSplit (f := f) ho hc0 hk
  refine ⟨?_, rfl, h0, hmax, fun r hr => ?_, ?_, ?_⟩
  · simp [Cutter.ranges]
  · obtain rfl := List.mem_singleton.mp hr
    exact ⟨d, hfile, hcut⟩
  · simp [hfile]
  · simpa [hfile] using hgood

theorem cutFile_spec {shardSize : Int} (h0 : 0 ≤ shardSize) (hmax : shardSize ≤ intMax)
    (hfile : files f = some d) (fuel o : Nat) (left : Int) (hleft : left = d.length - o) {c c' : Cutter}
    (hc0 : 0 ≤ c.remainShardSize) (hcmax : c.remainShardSize ≤ intMax)
    (h : cutFile shardSize f d fuel o left c = .ok c') :
    ∃ rs ss, Cuts files c c' rs ss (lines newline (d.drop o)) := by
  induction fuel generalizing o left c with
  | zero =>
    unfold cutFile at h
    split at h
    · next hend =>
      obtain rfl := Except.ok.inj h
      rw [List.drop_of_length_le (by omega)]
      exact ⟨[], [], .refl hc0 hcmax⟩
    · cases h
  | succ fuel ih =>
    unfold cutFile at h
    split at h
    · next hend =>
      obtain rfl := Except.ok.inj h
      rw [List.drop_of_length_le (by omega)]
      exact ⟨[], [], .refl hc0 hcmax⟩
    · next hmore =>
      simp only at h
      split at h
      · next hfits =>
        -- the rest of the file fits into the shard
        rw [cutFile_zero] at h
        obtain rfl := Except.ok.inj h
        exact ⟨_, [], cuts_rest hfile (by omega) hleft hfits hcmax⟩
      · next hcut =>
        split at h
        · cases h
        · next k hk =>
          split at h
          · cases h
          · have ho : o < d.length := by omega
            have hpos := getSplit_pos hk hc0
            have hnext : (((o : Int) + k).toNat : Int) = o + k := by omega
            rw [← hnext] at h
            obtain ⟨rs, ss, hrest⟩ := ih _ _ (by omega) h0 hmax h
            rw [hnext] at hrest
            rw [(cut_of_getSplit (f := f) ho hc0 hk).2.1]
            exact ⟨_, _, (cuts_split hfile ho hc0 h0 hmax hk).trans hrest⟩

/-! ## All files -/

theorem cutFiles_spec {shardSize : Int} (h0 : 0 ≤ shardSize) (hmax : shardSize ≤ intMax)
    {inputFiles : List Str} {c c' : Cutter} (hc0 : 0 ≤ c.remainShardSize)
    (hcmax : c.remainShardSize ≤ intMax) (h : cutFiles files shardSize inputFiles c = .ok c') :
    ∃ rs ss, Cuts files c c' rs ss (inputLines files inputFiles) := by
  induction inputFiles generalizing c with
  | nil =>
    obtain rfl := Except.ok.inj h
    exact ⟨[], [], .refl hc0 hcmax⟩
  | cons f inputFiles ih =>
    unfold cutFiles at h
    split at h
    · cases h
    · next d hfile =>
      split at h
      · cases h
      · split at h
        · cases h
        · next c₁ hfirst =>
          obtain ⟨rs, ss, hcuts⟩ :=
            cutFile_spec h0 hmax hfile d.length 0 d.length (by simp) hc0 hcmax hfirst
          obtain ⟨rs', ss', hcuts'⟩ := ih hcuts.remain_nonneg hcuts.remain_le h
          have hlines : inputLines files (f :: inputFiles) =
              lines newline (d.drop 0) ++ inputLines files inputFiles := by
            simp [inputLines, hfile]
          rw [hlines]
          exact ⟨_, _, hcuts.trans hcuts'⟩

/-- With a negative size, only an empty file can be cut. -/
theorem cutFile_of_neg {shardSize : Int} {c c' : Cutter} (hc : c.remainShardSize < 0)
    (h : cutFile shardSize f d d.length 0 d.length c = .ok c') : c' = c ∧ d = [] := by
  cases d with
  | nil =>
    rw [List.length_nil, Int.natCast_zero, cutFile_zero] at h
    exact ⟨(Except.ok.inj h).symm, rfl⟩
  | cons b d =>
    unfold cutFile at h
    rw [if_neg (by simp)] at h
    simp only [List.length_cons] at h
    rw [if_neg (by omega), getSplit_of_neg (by simpa using hc)] at h
    cases h

theorem cutFiles_of_neg {shardSize : Int} {inputFiles : List Str} {c c' : Cutter}
    (hc : c.remainShardSize < 0) (h : cutFiles files shardSize inputFiles c = .ok c') :
    c' = c ∧ inputLines files inputFiles = [] := by
  induction inputFiles with
  | nil => exact ⟨(Except.ok.inj h).symm, rfl⟩
  | cons f inputFiles ih =>
    unfold cutFiles at h
    split at h
    · cases h
    · next d hfile =>
      split at h
      · cases h
      · split at h
        · cases h
        · next c₁ hfirst =>
          obtain ⟨rfl, rfl⟩ := cutFile_of_neg hc hfirst
          obtain ⟨hsame, hlines⟩ := ih h
          refine ⟨hsame, ?_⟩
          rw [inputLines, List.flatMap_cons, hfile]
          exact hlines

theorem cutInput_spec {mapKilobytes : Int} {inputFiles : List Str} {c : Cutter}
    (h : cutInput files mapKilobytes inputFiles = .ok c) :
    (∀ r ∈ c.ranges, ∃ d, files r.file = some d ∧ r.Cut d) ∧
    c.ranges.flatMap (fun r => lines newline (segment ((files r.file).getD []) r)) =
      inputLines files inputFiles ∧
    ((∀ s ∈ c.splits, s.Terminated ∧ s.Fits) ↔ ∀ r ∈ c.ranges, r.Good ((files r.file).getD [])) := by
  unfold cutInput at h
  simp only at h
  split at h
  · cases h
  · next hint =>
    rcases lt_or_ge (mapKilobytes * 1024) 0 with hneg | h0
    · obtain ⟨rfl, hlines⟩ := cutFiles_of_neg (by exact hneg) h
      exact ⟨nofun, hlines.symm, by simp [Cutter.ranges]⟩
    · obtain ⟨rs, ss, hcuts⟩ := cutFiles_spec h0 (by omega) (by exact h0) (by simp only; omega) h
      have hranges : c.ranges = rs := hcuts.ranges
      have hsplits : c.splits = ss := hcuts.splits
      rw [hranges, hsplits]
      exact ⟨hcuts.made, hcuts.lines, hcuts.good⟩

/-- Only the input files are looked at. -/
theorem cutFiles_congr {files' : Files} {shardSize : Int} {inputFiles : List Str}
    (h : ∀ f ∈ inputFiles, files f = files' f) (c : Cutter) :
    cutFiles files shardSize inputFiles c = cutFiles files' shardSize inputFiles c := by
  induction inputFiles generalizing c with
  | nil => rfl
  | cons f inputFiles ih =>
    have hrest := ih fun g hg => h g (List.mem_cons_of_mem f hg)
    simp only [cutFiles, h f List.mem_cons_self, hrest]

theorem cutInput_files {mapKilobytes : Int} {inputFiles : List Str} {c : Cutter}
    (h : cutInput files mapKilobytes inputFiles = .ok c) : ∀ r ∈ c.ranges, r.file ∈ inputFiles := by
  -- the other files might as well not be there
  have hcongr : cutInput (fun f => if f ∈ inputFiles then files f else none) mapKilobytes inputFiles =
      cutInput files mapKilobytes inputFiles := by
    unfold cutInput
    simp only
    split
    · rfl
    · exact cutFiles_congr (fun f hf => if_pos hf) _
  intro r hr
  obtain ⟨d, hfile, -⟩ := (cutInput_spec (hcongr.trans h)).1 r hr
  by_contra hno
  rw [if_neg hno] at hfile
  cases hfile

theorem flatten_finish (c : Cutter) : c.finish.flatten = c.ranges := by
  unfold Cutter.finish Cutter.ranges
  split
  · next hshard => rw [hshard, List.append_nil]
  · simp

/-- The lines of all shards are those of all ranges. -/
theorem mapM_shardLines (shards : List FileShard) :
    (shards.mapM (shardLines files)).map List.flatten =
      (shards.flatten.mapM (rangeLines files)).map List.flatten := by
  induction shards with
  | nil => rfl
  | cons shard shards ih =>
    rw [List.mapM_cons, List.flatten_cons, List.mapM_append, shardLines]
    cases hshard : shard.mapM (rangeLines files) with
    | none => rfl
    | some ls =>
      cases hleft : shards.mapM (shardLines files) <;> cases hright : shards.flatten.mapM (rangeLines files) <;>
        rw [hleft, hright] at ih <;> simp_all

/-! ## Records -/

/-- The shards together give the lines of the input exactly if every call of `get_split` finds a
newline, within the reach of an `int`. -/
theorem sharding_preserves_records {mapKilobytes : Int} {inputFiles : List Str} {c : Cutter}
    (h : cutInput files mapKilobytes inputFiles = .ok c) :
    (c.finish.mapM (shardLines files)).map List.flatten = some (inputLines files inputFiles) ↔
      ∀ call ∈ c.splits, call.Terminated ∧ call.Fits := by
  obtain ⟨hmade, hlines, hgood⟩ := cutInput_spec h
  have hread : ∀ r ∈ c.ranges,
      (rangeLines files r = some (lines newline (segment ((files r.file).getD []) r)) ↔
        r.Good ((files r.file).getD [])) := by
    intro r hr
    obtain ⟨d, hfile, hcut⟩ := hmade r hr
    rw [hfile]
    exact rangeLines_eq_iff hfile hcut
  rw [hgood, mapM_shardLines, flatten_finish]
  constructor
  · intro heq
    obtain ⟨lss, hlss, hflat⟩ := Option.map_eq_some_iff.mp heq
    have hranges := mapM_eq_some_iff.mp hlss
    -- no range has more lines than its segment, so none can have others
    have hle : List.Forall₂ (fun (a b : List Str) => a.length ≤ b.length) lss
        (c.ranges.map fun r => lines newline (segment ((files r.file).getD []) r)) := by
      refine List.forall₂_map_right_iff.mpr (List.Forall₂.flip ?_)
      refine ((List.forall₂_and_left _ _).mpr ⟨hmade, hranges⟩).imp ?_
      rintro r ls ⟨⟨d, hfile, hcut⟩, hls⟩
      rw [flip, hfile]
      exact rangeLines_length_le hfile hcut hls
    have hsame := eq_of_flatten_eq hle (by rw [hflat, ← hlines, List.flatMap_def])
    rw [hsame] at hranges
    have hall := List.forall₂_same.mp (List.forall₂_map_right_iff.mp hranges)
    exact fun r hr => (hread r hr).mp (hall r hr)
  · intro hall
    have hlss : c.ranges.mapM (rangeLines files) =
        some (c.ranges.map fun r => lines newline (segment ((files r.file).getD []) r)) := by
      refine mapM_eq_some_iff.mpr (List.forall₂_map_right_iff.mpr ?_)
      exact List.forall₂_same.mpr fun r hr => (hread r hr).mpr (hall r hr)
    rw [hlss, Option.map_some, ← List.flatMap_def, hlines]

/-- A file of two lines, each of them ended by a newline. -/
theorem sharding_preserves_records_two_lines : ∃ c,
    cutInput (fun _ => some [97, newline, 98, newline]) 1 [[97]] = .ok c ∧
    (c.finish.mapM (shardLines fun _ => some [97, newline, 98, newline])).map List.flatten =
      some [[97], [98]] :=
  have hcut : cutInput (fun _ => some [97, newline, 98, newline]) 1 [[97]] =
      .ok ⟨[], [⟨[97], 0, 4⟩], 1020, []⟩ := rfl
  ⟨_, hcut, (sharding_preserves_records hcut).mpr nofun⟩

theorem ok_of_toOption {ε β : Type} {x : Except ε β} {b : β} (h : x.toOption = some b) : x = .ok b := by
  cases x with
  | error e => cases h
  | ok c => exact congrArg Except.ok (Option.some.inj h)

/-- A file of one line without a newline, of more than a kilobyte: the line comes back with a zero
byte at its end. -/
theorem record_changed : ∃ c, cutInput (fun _ => some (List.replicate 1025 97)) 1 [[97]] = .ok c ∧
    (c.finish.mapM (shardLines fun _ => some (List.replicate 1025 97))).map List.flatten =
      some [List.replicate 1025 97 ++ [0]] ∧
    inputLines (fun _ => some (List.replicate 1025 97)) [[97]] = [List.replicate 1025 97] := by
  refine ⟨⟨[[⟨[97], 0, 1026⟩]], [], 1024, [⟨List.replicate 1025 97, 0, 1024⟩]⟩, ?_, ?_, ?_⟩
  · exact ok_of_toOption (by decide +kernel)
  · decide +kernel
  · decide +kernel

end AdvancedOS.MapReduce
