import AdvancedOS.Lib.Lines
import AdvancedOS.MapReduce.Strings

/-!
# Cutting the input into shards

`file_shard.h`. A shard is a list of ranges of files; the shards fill up to `map_kilobytes` and the
last range of each is extended to the end of its line by `get_split`.

A step that leaves the range of its C++ type is the failure `overflow`. `splits` is history that no
step reads: the calls of `get_split`.
-/

namespace AdvancedOS.MapReduce

open Lines

/-- The files on disk; `none` is a file that cannot be opened. -/
abbrev Files := Str → Option Str

def newline : UInt8 := 10

/-- `LONG_MAX`. -/
def longMax : Nat := 9223372036854775807

/-- One entry of `files` and `offsets` of a `FileShard`. -/
structure Range where
  file : Str
  start : Int
  stop : Int
  deriving DecidableEq, Repr

/-- `FileShard`, whose two vectors grow together. -/
abbrev FileShard := List Range

/-- The contents of the file, and the other arguments of a call of `get_split`. -/
structure SplitCall where
  contents : Str
  offset : Int
  remain : Int
  deriving DecidableEq

/-- The locals of `shard_files`. -/
structure Cutter where
  fileShards : List FileShard
  shard : FileShard
  remainShardSize : Int
  splits : List SplitCall
  deriving DecidableEq

inductive Failure
  | returnedFalse
  | overflow
  | outOfFuel
  deriving DecidableEq, Repr

/-- What `get_split` reads from: the file from the position it seeks to. -/
def SplitCall.rest (c : SplitCall) : Str := c.contents.drop (c.offset + c.remain).toNat

/-- `get_split` of a file with the given contents; `none` is `-1`. -/
def getSplit (c : SplitCall) : Option Int :=
  -- a seek to a negative position fails, and a read at the end of the file does
  if c.offset + c.remain < 0 ∨ c.rest = [] then none
  else some (c.remain + (firstLine newline c.rest).length + 1)

/-- The `while` of `shard_files` for the file `f` with `contents`. -/
def cutFile (shardSize : Int) (f contents : Str) :
    Nat → Int → Int → Cutter → Except Failure Cutter
  | fuel, fileOffset, fileSize, c =>
    if fileSize ≤ 0 then .ok c
    else
      match fuel with
      | 0 => .error .outOfFuel
      | fuel + 1 =>
        if c.remainShardSize > fileSize then
          cutFile shardSize f contents fuel fileOffset 0
            { c with
              shard := c.shard ++ [⟨f, fileOffset, fileOffset + fileSize⟩]
              remainShardSize := c.remainShardSize - fileSize }
        else
          let call : SplitCall := ⟨contents, fileOffset, c.remainShardSize⟩
          match getSplit call with
          | none => .error .returnedFalse
          | some splitSize =>
            if fileOffset + splitSize > longMax then .error .overflow
            else
              cutFile shardSize f contents fuel (fileOffset + splitSize) (fileSize - splitSize)
                { fileShards := c.fileShards ++ [c.shard ++ [⟨f, fileOffset, fileOffset + splitSize⟩]]
                  shard := []
                  remainShardSize := shardSize
                  splits := c.splits ++ [call] }

/-- The `for` of `shard_files`. The loop for a file takes at most as many turns as it has bytes. -/
def cutFiles (files : Files) (shardSize : Int) : List Str → Cutter → Except Failure Cutter
  | [], c => .ok c
  | f :: inputs, c =>
    match files f with
    | none => .error .returnedFalse
    | some contents =>
      if contents.length > longMax then .error .overflow
      else
        match cutFile shardSize f contents contents.length 0 contents.length c with
        | .error e => .error e
        | .ok c => cutFiles files shardSize inputs c

/-- `shard_files` up to the end of its `for`. -/
def cutInput (files : Files) (mapKilobytes : Int) (inputFiles : List Str) : Except Failure Cutter :=
  let shardSize := mapKilobytes * 1024
  if shardSize < -(intMax : Int) - 1 ∨ shardSize > intMax then .error .overflow
  else cutFiles files shardSize inputFiles
    { fileShards := [], shard := [], remainShardSize := shardSize, splits := [] }

/-- The last shard is pushed if it is not empty. -/
def Cutter.finish (c : Cutter) : List FileShard :=
  if c.shard = [] then c.fileShards else c.fileShards ++ [c.shard]

/-- `shard_files`. -/
def shardFiles (files : Files) (mapKilobytes : Int) (inputFiles : List Str) :
    Except Failure (List FileShard) :=
  (cutInput files mapKilobytes inputFiles).map Cutter.finish

/-! ## What a call of `get_split` finds -/

/-- A newline follows the position that `get_split` seeks to. -/
def SplitCall.Terminated (c : SplitCall) : Prop := newline ∈ c.rest

/-- The range up to the newline that follows has a length that is an `int`. -/
def SplitCall.Fits (c : SplitCall) : Prop :=
  c.remain + (firstLine newline c.rest).length + 1 ≤ intMax

instance (c : SplitCall) : Decidable c.Terminated := inferInstanceAs (Decidable (_ ∈ _))

instance (c : SplitCall) : Decidable c.Fits := inferInstanceAs (Decidable (_ ≤ _))

/-! ## The loop ends -/

@[simp] theorem cutFile_zero {shardSize offset : Int} {f contents : Str} {fuel : Nat} {c : Cutter} :
    cutFile shardSize f contents fuel offset 0 c = .ok c := by
  unfold cutFile
  simp

theorem getSplit_pos {c : SplitCall} {splitSize : Int} (h : getSplit c = some splitSize)
    (hremain : 0 ≤ c.remain) : 0 < splitSize := by
  unfold getSplit at h
  split at h
  · cases h
  · cases h
    omega

theorem getSplit_of_neg {c : SplitCall} (h : c.offset + c.remain < 0) : getSplit c = none :=
  if_pos (.inl h)

/-- The sizes that the loops start from: none is negative, or the first call of `get_split` fails. -/
def Cutter.Started (shardSize offset : Int) (c : Cutter) : Prop :=
  0 ≤ shardSize ∧ 0 ≤ c.remainShardSize ∨ c.remainShardSize < 0 ∧ offset = 0

/-- Every turn of the loop takes at least a byte of the file, so the fuel suffices. -/
theorem cutFile_ends {shardSize : Int} (f contents : Str) {fuel : Nat} {offset left : Int} {c : Cutter}
    (hc : c.Started shardSize offset) (hfuel : left ≤ fuel) :
    cutFile shardSize f contents fuel offset left c ≠ .error .outOfFuel ∧
    ∀ c', cutFile shardSize f contents fuel offset left c = .ok c' → c'.Started shardSize 0 := by
  have hend : Cutter.Started shardSize 0 c := hc.imp_right fun h => ⟨h.1, rfl⟩
  induction fuel generalizing offset left c with
  | zero =>
    unfold cutFile
    rw [if_pos (by omega)]
    exact ⟨nofun, fun c' h => Except.ok.inj h ▸ hend⟩
  | succ fuel ih =>
    unfold cutFile
    split
    · exact ⟨nofun, fun c' h => Except.ok.inj h ▸ hend⟩
    · simp only
      split
      · next hfits =>
        rw [cutFile_zero]
        refine ⟨nofun, fun c' h => Except.ok.inj h ▸ .inl ?_⟩
        rcases hc with hc | hc
        · exact ⟨hc.1, by simp only; omega⟩
        · omega
      · split
        · exact ⟨nofun, nofun⟩
        · next splitSize hsplit =>
          rcases hc with ⟨h0, hc⟩ | ⟨hneg, rfl⟩
          · have hpos := getSplit_pos hsplit hc
            split
            · exact ⟨nofun, nofun⟩
            · exact ih (.inl ⟨h0, h0⟩) (by omega) (.inl ⟨h0, h0⟩)
          · rw [getSplit_of_neg (by simpa using hneg)] at hsplit
            cases hsplit

theorem cutFiles_ends {files : Files} {shardSize : Int} {inputFiles : List Str} {c : Cutter}
    (hc : c.Started shardSize 0) : cutFiles files shardSize inputFiles c ≠ .error .outOfFuel := by
  induction inputFiles generalizing c with
  | nil => nofun
  | cons f inputFiles ih =>
    unfold cutFiles
    split
    · nofun
    · next contents _ =>
      obtain ⟨hends, hstarted⟩ := cutFile_ends f contents hc (Int.le_refl _)
      split
      · nofun
      · split
        · next e hfile =>
          rintro ⟨⟩
          exact hends hfile
        · next c₁ hfile => exact ih (hstarted c₁ hfile)

/-- `shard_files` always comes to an end. -/
theorem shardFiles_ends {files : Files} {mapKilobytes : Int} {inputFiles : List Str} :
    shardFiles files mapKilobytes inputFiles ≠ .error .outOfFuel := by
  have hcut : cutInput files mapKilobytes inputFiles ≠ .error .outOfFuel := by
    unfold cutInput
    simp only
    split
    · nofun
    · refine cutFiles_ends ?_
      rcases lt_or_ge (mapKilobytes * 1024) 0 with hneg | h0
      · exact .inr ⟨hneg, rfl⟩
      · exact .inl ⟨h0, h0⟩
  unfold shardFiles
  cases h : cutInput files mapKilobytes inputFiles with
  | error e =>
    rintro ⟨⟩
    exact hcut h
  | ok c => nofun

end AdvancedOS.MapReduce
