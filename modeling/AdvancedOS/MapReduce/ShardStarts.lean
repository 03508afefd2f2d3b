import AdvancedOS.Lib.Cutting
import AdvancedOS.MapReduce.ShardLoop
import AdvancedOS.MapReduce.Spec

/-!
# When `shard_files` succeeds

`shard_files` cuts the input into chunks of `map_kilobytes`, where a cut is moved to the end of its line: this is `Cutting`,
with the input files as pieces and `lineLength` as what a cut takes more (`cutFiles_fills`). If whole files fill
a chunk, `get_split` reads at the end of the last of them and fails: `sharding_succeeds` says that this is
the one reason why a valid job is refused, and `sharding_fails` is such a job.
-/

namespace AdvancedOS.MapReduce

open Lines Cutting

variable {files : Files} {shardSize : Int} {inputFiles : List Str} {f d : Str} {P : Int → Prop}
  {last : Nat → Nat → Prop} {full : Prop} {h : LoopHead}

/-! ## The input as pieces -/

/-- The line that `rest` begins with, and its newline. -/
def lineLength (rest : Str) : Nat := (firstLine newline rest).length + 1

/-- The input files, each from its beginning on. -/
def pieces (files : Files) (inputFiles : List Str) : List (Piece UInt8) :=
  inputFiles.map fun f => ⟨0, (files f).getD []⟩

/-- The input files can be read, and a `long` holds their sizes. -/
def Readable (files : Files) (inputFiles : List Str) : Prop :=
  ∀ f ∈ inputFiles, ∃ d, files f = some d ∧ d.length ≤ longMax

/-- What `get_split` returns if it succeeds. -/
def SplitCall.splitSize (c : SplitCall) : Int := c.remain + (firstLine newline c.rest).length + 1

/-- What is left of the file. -/
def LoopHead.piece (d : Str) (h : LoopHead) : Piece UInt8 := ⟨h.fileOffset.toNat, d.drop h.fileOffset.toNat⟩

/-! ## A turn of the loop -/

theorem length_piece (hs : h.Sound shardSize d) (hpos : 0 < h.fileSize) :
    ((h.piece d).text.length : Int) = h.fileSize := by
  have hplace := hs.place hpos
  have hoffset := hs.offset_nonneg
  rw [LoopHead.piece, List.length_drop]
  omega

theorem rest_call (hs : h.Sound shardSize d) :
    (h.call d).rest = (h.piece d).text.drop h.cutter.remainShardSize.toNat := by
  have hoffset := hs.offset_nonneg
  have hremain := hs.remain_pos
  rw [LoopHead.piece, List.drop_drop, SplitCall.rest, LoopHead.call]
  congr 1
  simp only
  omega

theorem splitSize_call (hs : h.Sound shardSize d) : (h.call d).splitSize =
    ((h.piece d).cutLength lineLength h.cutter.remainShardSize.toNat : Nat) := by
  have hremain := hs.remain_pos
  have hcall : (h.call d).remain = h.cutter.remainShardSize := rfl
  rw [SplitCall.splitSize, rest_call hs, Piece.cutLength, lineLength, hcall]
  omega

theorem getSplit_of_lt (hs : h.Sound shardSize d) (hpos : 0 < h.fileSize)
    (hlt : h.cutter.remainShardSize < h.fileSize) : getSplit (h.call d) = some (h.call d).splitSize := by
  have hremain := hs.remain_pos
  have hoffset := hs.offset_nonneg
  have hlength := length_piece hs hpos
  have hrest : (h.call d).rest ≠ [] := by
    refine List.ne_nil_of_length_pos ?_
    rw [rest_call hs, List.length_drop]
    omega
  have hseek : ¬ ((h.call d).offset + (h.call d).remain < 0 ∨ (h.call d).rest = []) := by
    rw [not_or]
    refine ⟨?_, hrest⟩
    show ¬ h.fileOffset + h.cutter.remainShardSize < 0
    omega
  exact if_neg hseek

theorem getSplit_of_eq (hs : h.Sound shardSize d) (hpos : 0 < h.fileSize)
    (heq : h.cutter.remainShardSize = h.fileSize) : getSplit (h.call d) = none := by
  refine if_pos (.inr ?_)
  have hlength := length_piece hs hpos
  rw [rest_call hs]
  exact List.drop_of_length_le (by omega)

/-- The rest of the file fits into the shard. -/
theorem turn_of_lt (hlt : h.fileSize < h.cutter.remainShardSize) : turn shardSize f d h = .ok (h.takeRest f) :=
  if_pos hlt

/-- The rest of the file fills the shard, and `get_split` reads at the end of the file. -/
theorem turn_of_eq (hs : h.Sound shardSize d) (hpos : 0 < h.fileSize)
    (heq : h.fileSize = h.cutter.remainShardSize) : turn shardSize f d h = .error .returnedFalse := by
  rw [turn, if_neg (by omega), getSplit_of_eq hs hpos heq.symm]

/-- The file goes on after the shard is full. -/
theorem turn_of_gt (hs : h.Sound shardSize d) (hgt : h.cutter.remainShardSize < h.fileSize) :
    turn shardSize f d h =
      if h.fileOffset + (h.call d).splitSize > longMax then .error .overflow
      else .ok (h.cut shardSize f d (h.call d).splitSize) := by
  have hpos : 0 < h.fileSize := Int.lt_of_lt_of_le hs.remain_pos (Int.le_of_lt hgt)
  rw [turn, if_neg (by omega), getSplit_of_lt hs hpos hgt]

theorem remainder_piece (hs : h.Sound shardSize d) :
    (h.cut shardSize f d (h.call d).splitSize).piece d =
      (h.piece d).remainder lineLength h.cutter.remainShardSize.toNat := by
  have hoffset := hs.offset_nonneg
  have hnext : (h.fileOffset + (h.call d).splitSize).toNat =
      h.fileOffset.toNat + (h.piece d).cutLength lineLength h.cutter.remainShardSize.toNat := by
    rw [splitSize_call hs]
    omega
  rw [LoopHead.piece, LoopHead.cut]
  simp only
  rw [hnext, Piece.remainder, ← List.drop_drop]
  rfl

/-! ## The loops -/

/-- How `shard_files` ends: if all is well, `P` holds of the sizes that `get_split` returned, and `last` of the number of
full shards and the room in the last one. -/
def Ends (P : Int → Prop) (last : Nat → Nat → Prop) (full : Prop) : Except Failure Cutter → Prop
  | .ok c => (∀ call ∈ c.splits, P call.splitSize) ∧ last c.fileShards.length c.remainShardSize.toNat
  | .error .returnedFalse => full
  | .error _ => False

/-- A cut whose end is in range and whose length meets `P`. -/
def CutOk (P : Int → Prop) (_ : Nat) (room : Nat) (p : Piece UInt8) : Prop :=
  p.offset + p.cutLength lineLength room ≤ longMax ∧ P (p.cutLength lineLength room)

theorem splits_cutFile {fuel : Nat} {c' : Cutter}
    (hcut : cutFile shardSize f d fuel h.fileOffset h.fileSize h.cutter = .ok c') :
    ∀ call ∈ h.cutter.splits, call ∈ c'.splits := by
  obtain ⟨h', hkept, -, rfl⟩ := cutFile_rule (Q := fun h' => ∀ call ∈ h.cutter.splits, call ∈ h'.cutter.splits)
    (fun hkept _ hturn call hcall => by
      rcases turn_ok hturn with ⟨-, rfl⟩ | ⟨splitSize, -, -, -, rfl⟩
      · exact hkept call hcall
      · exact List.mem_append_left _ (hkept call hcall)) (fun _ hcall => hcall) hcut
  exact hkept

theorem cutFiles_cons {c : Cutter} (hfile : files f = some d) (hlong : d.length ≤ longMax) :
    cutFiles files shardSize (f :: inputFiles) c =
      (cutFile shardSize f d d.length 0 d.length c).bind (cutFiles files shardSize inputFiles) := by
  rw [cutFiles, hfile]
  simp only
  rw [if_neg (by omega)]
  cases cutFile shardSize f d d.length 0 d.length c <;> rfl

theorem splits_cutFiles {c c' : Cutter} (hcut : cutFiles files shardSize inputFiles c = .ok c') :
    ∀ call ∈ c.splits, call ∈ c'.splits := by
  induction inputFiles generalizing c with
  | nil =>
    obtain rfl := Except.ok.inj hcut
    exact fun _ hcall => hcall
  | cons f inputFiles ih =>
    rw [← List.singleton_append, cutFiles_append] at hcut
    cases hfirst : cutFiles files shardSize [f] c with
    | error e =>
      rw [hfirst] at hcut
      cases hcut
    | ok c₁ =>
      rw [hfirst] at hcut
      obtain ⟨d, -, -, hfile⟩ := cutFiles_singleton.mp hfirst
      intro call hcall
      exact ih hcut call (splits_cutFile (h := ⟨0, d.length, c⟩) hfile call hcall)

theorem Ends.ok_or_full {x : Except Failure Cutter} (hends : Ends P last full x) :
    full ∨ ∃ c, x = .ok c ∧ ∀ call ∈ c.splits, P call.splitSize := by
  cases x with
  | ok c => exact .inr ⟨c, rfl, hends.1⟩
  | error e =>
    cases e with
    | returnedFalse => exact .inl hends
    | overflow | outOfFuel => exact hends.elim

/-- A size that does not meet `P` is there at the end. -/
theorem not_ends {fuel : Nat} (hP : full → ∀ k, P k) {call : SplitCall} (hcall : call ∈ h.cutter.splits)
    (hbad : ¬ P call.splitSize) : ¬ Ends P last full
      ((cutFile shardSize f d fuel h.fileOffset h.fileSize h.cutter).bind (cutFiles files shardSize inputFiles)) := by
  intro hends
  rcases hends.ok_or_full with hfull | ⟨c, hok, hsplits⟩
  · exact hbad (hP hfull _)
  · cases hfirst : cutFile shardSize f d fuel h.fileOffset h.fileSize h.cutter with
    | error e =>
      rw [hfirst] at hok
      cases hok
    | ok c₁ =>
      rw [hfirst] at hok
      exact hbad (hsplits call (splits_cutFiles hok call (splits_cutFile hfirst call hcall)))

/-- Nothing is left of the file. -/
theorem cutFile_fills_of_le {ps : List (Piece UInt8)} {fuel : Nat} (hs : h.Sound shardSize d) (hle : h.fileSize ≤ 0)
    (hend : (d.length : Int) ≤ h.fileOffset)
    (hrest : Ends P last full (cutFiles files shardSize inputFiles h.cutter) ↔
      Fills lineLength shardSize.toNat (CutOk P) last full h.cutter.fileShards.length
        h.cutter.remainShardSize.toNat ps) :
    Ends P last full ((cutFile shardSize f d fuel h.fileOffset h.fileSize h.cutter).bind
        (cutFiles files shardSize inputFiles)) ↔
      Fills lineLength shardSize.toNat (CutOk P) last full h.cutter.fileShards.length
        h.cutter.remainShardSize.toNat (h.piece d :: ps) := by
  have hempty : (h.piece d).text.length = 0 := by
    rw [LoopHead.piece, List.length_drop]
    omega
  have hremain := hs.remain_pos
  rw [cutFile_of_le hle, fills_cons_of_lt (by omega), hempty, Nat.sub_zero]
  exact hrest

/-- The loop for one file, if what comes after it is known. The induction is on the turns that are left. -/
theorem cutFile_fills (hS : 0 < shardSize) (hP : full → ∀ k, P k) {ps : List (Piece UInt8)}
    (hrest : ∀ c : Cutter, 1 ≤ c.remainShardSize → c.remainShardSize ≤ shardSize →
      (∀ call ∈ c.splits, P call.splitSize) → (Ends P last full (cutFiles files shardSize inputFiles c) ↔
        Fills lineLength shardSize.toNat (CutOk P) last full c.fileShards.length c.remainShardSize.toNat ps))
    {fuel : Nat} (hfuel : h.fileSize ≤ fuel) (hs : h.Sound shardSize d)
    (hend : h.fileSize ≤ 0 → (d.length : Int) ≤ h.fileOffset) (hsplits : ∀ call ∈ h.cutter.splits, P call.splitSize) :
    Ends P last full ((cutFile shardSize f d fuel h.fileOffset h.fileSize h.cutter).bind
        (cutFiles files shardSize inputFiles)) ↔
      Fills lineLength shardSize.toNat (CutOk P) last full h.cutter.fileShards.length
        h.cutter.remainShardSize.toNat (h.piece d :: ps) := by
  induction fuel generalizing h with
  | zero =>
    exact cutFile_fills_of_le hs hfuel (hend hfuel) (hrest h.cutter hs.remain_pos hs.remain_le hsplits)
  | succ fuel ih =>
    rcases Int.lt_or_le 0 h.fileSize with hpos | hle
    · have hremain := hs.remain_pos
      have hlength := length_piece hs hpos
      rw [cutFile_succ hpos]
      rcases Int.lt_trichotomy h.fileSize h.cutter.remainShardSize with hfits | heq | hcut
      · -- the rest of the file goes into the shard
        have hturn : turn shardSize f d h = .ok (h.takeRest f) := turn_of_lt hfits
        have hzero : cutFile shardSize f d fuel (h.takeRest f).fileOffset (h.takeRest f).fileSize
            (h.takeRest f).cutter = .ok (h.takeRest f).cutter := cutFile_of_le (Int.le_refl 0)
        have hroom : (h.takeRest f).cutter.remainShardSize.toNat =
            h.cutter.remainShardSize.toNat - (h.piece d).text.length := by
          simp only [LoopHead.takeRest]
          omega
        obtain ⟨hnext, -⟩ := sound_turn hS hs hpos hturn
        rw [hturn, fills_cons_of_lt (by omega), ← hroom]
        simp only [Except.bind, hzero]
        exact hrest (h.takeRest f).cutter hnext.remain_pos hnext.remain_le hsplits
      · rw [turn_of_eq hs hpos heq, fills_cons_of_eq (by omega)]
        rfl
      · have hgt : turn shardSize f d h = _ := turn_of_gt hs hcut
        have hsize := splitSize_call hs
        have hoffset := hs.offset_nonneg
        have hpiece : (h.piece d).offset = h.fileOffset.toNat := rfl
        rw [fills_cons_of_gt (by omega), CutOk, ← hsize, hpiece]
        by_cases hlong : h.fileOffset + (h.call d).splitSize > longMax
        · rw [hgt, if_pos hlong]
          refine iff_of_false id fun hfills => ?_
          have hrange := hfills.1.1
          omega
        · rw [if_neg hlong] at hgt
          obtain ⟨hnext, hless⟩ := sound_turn hS hs hpos hgt
          rw [hgt, ← remainder_piece hs]
          simp only [Except.bind]
          by_cases hp : P (h.call d).splitSize
          · have hcount : (h.cut shardSize f d (h.call d).splitSize).cutter.fileShards.length =
                h.cutter.fileShards.length + 1 := by simp [LoopHead.cut]
            rw [and_iff_right ⟨by omega, hp⟩, ← hcount]
            refine ih (by omega) hnext (fun hle => ?_) ?_
            · have hplace := hs.place hpos
              simp only [LoopHead.cut] at hle ⊢
              omega
            · simp only [LoopHead.cut]
              exact List.forall_mem_append.mpr ⟨hsplits, by simpa using hp⟩
          · have hcall : h.call d ∈ (h.cut shardSize f d (h.call d).splitSize).cutter.splits := by
              simp [LoopHead.cut]
            exact iff_of_false (not_ends hP hcall hp) fun hfills => hp hfills.1.2
    · exact cutFile_fills_of_le hs hle (hend hle) (hrest h.cutter hs.remain_pos hs.remain_le hsplits)

theorem cutFiles_fills (hS : 0 < shardSize) (hP : full → ∀ k, P k) (hread : Readable files inputFiles)
    {c : Cutter} (h1 : 1 ≤ c.remainShardSize) (hle : c.remainShardSize ≤ shardSize)
    (hsplits : ∀ call ∈ c.splits, P call.splitSize) :
    Ends P last full (cutFiles files shardSize inputFiles c) ↔
      Fills lineLength shardSize.toNat (CutOk P) last full c.fileShards.length c.remainShardSize.toNat
        (pieces files inputFiles) := by
  induction inputFiles generalizing c with
  | nil => exact (and_iff_right hsplits).trans fills_nil.symm
  | cons f inputFiles ih =>
    obtain ⟨d, hfile, hlong⟩ := hread f List.mem_cons_self
    have hpiece : pieces files (f :: inputFiles) =
        LoopHead.piece d ⟨0, d.length, c⟩ :: pieces files inputFiles := by
      simp [pieces, LoopHead.piece, hfile]
    rw [cutFiles_cons hfile hlong, hpiece]
    refine cutFile_fills (h := ⟨0, d.length, c⟩) hS hP (fun c' h1 hle hsplits => ?_) (Int.le_refl _)
      (sound_enter h1 hle) (fun h => h) hsplits
    exact ih (fun g hg => hread g (List.mem_cons_of_mem f hg)) h1 hle hsplits

/-- The loops end well exactly if all cuts and the end of the chunks are as they should. -/
theorem ends_iff (P : Int → Prop) (last : Nat → Nat → Prop) (full : Prop) (hS : 0 < shardSize)
    (hP : full → ∀ k, P k) (hread : Readable files inputFiles) :
    Ends P last full (cutFiles files shardSize inputFiles (startCutter shardSize)) ↔
      (∀ n room p, Cut lineLength shardSize.toNat (pieces files inputFiles) n room p → CutOk P n room p) ∧
      (∀ n rest, Start lineLength shardSize.toNat (pieces files inputFiles) n rest →
        total rest < shardSize.toNat → last n (shardSize.toNat - total rest)) ∧
      (full ∨ ∀ n, ¬ Exact lineLength shardSize.toNat (pieces files inputFiles) n) :=
  (cutFiles_fills (c := startCutter shardSize) hS hP hread hS (Int.le_refl _)
    fun _ hcall => absurd hcall List.not_mem_nil).trans (fills_iff (by omega))

theorem cutFiles_succeeds (hS : 0 < shardSize) (hread : Readable files inputFiles) :
    (∃ c, cutFiles files shardSize inputFiles (startCutter shardSize) = .ok c) ↔
      (∀ n room p, Cut lineLength shardSize.toNat (pieces files inputFiles) n room p →
        p.offset + p.cutLength lineLength room ≤ longMax) ∧
      ∀ n, ¬ Exact lineLength shardSize.toNat (pieces files inputFiles) n := by
  have hends := ends_iff (fun _ => True) (fun _ _ => True) False hS (fun h => h.elim) hread
  simp only [CutOk, and_true, imp_true_iff, true_and, false_or] at hends
  rw [← hends]
  constructor
  · rintro ⟨c, hcut⟩
    rw [hcut]
    exact ⟨fun _ _ => trivial, trivial⟩
  · intro hends
    obtain hfull | ⟨c, hcut, -⟩ := Ends.ok_or_full hends
    · exact hfull.elim
    · exact ⟨c, hcut⟩

/-! ## Valid jobs -/

/-- `file_exists`: the file can be opened. -/
def fileExists (files : Files) (name : Str) : Bool := (files name).isSome

theorem readable_of_valid {isDirectory : Str → Bool} {spec : MapReduceSpec}
    (hvalid : validateMrSpec (fileExists files) isDirectory spec = true)
    (hlong : ∀ f ∈ spec.inputFiles, ∀ d, files f = some d → d.length ≤ longMax) :
    Readable files spec.inputFiles := by
  intro f hf
  obtain ⟨-, -, -, hexists, -⟩ := validateMrSpec_iff.mp hvalid
  obtain ⟨d, hfile⟩ := Option.isSome_iff_exists.mp (hexists f hf)
  exact ⟨d, hfile, hlong f hf d hfile⟩

/-- `shard_files` returns true for a valid job exactly if whole files never fill a chunk and no cut is past the
last offset. -/
theorem sharding_succeeds {isDirectory : Str → Bool} {spec : MapReduceSpec}
    (hvalid : validateMrSpec (fileExists files) isDirectory spec = true)
    (hlong : ∀ f ∈ spec.inputFiles, ∀ d, files f = some d → d.length ≤ longMax)
    (hint : spec.mapKilobytes * 1024 ≤ intMax) :
    (∃ shards, shardFiles files spec.mapKilobytes spec.inputFiles = .ok shards) ↔
      (∀ n, ¬ Exact lineLength (spec.mapKilobytes * 1024).toNat (pieces files spec.inputFiles) n) ∧
      ∀ n room p, Cut lineLength (spec.mapKilobytes * 1024).toNat (pieces files spec.inputFiles) n room p →
        p.offset + p.cutLength lineLength room ≤ longMax := by
  obtain ⟨-, -, -, -, -, -, -, hpos, -⟩ := validateMrSpec_iff.mp hvalid
  have hS : 0 < spec.mapKilobytes * 1024 := by omega
  have hcut := cutFiles_succeeds hS (readable_of_valid hvalid hlong)
  rw [and_comm, ← hcut]
  constructor
  · rintro ⟨shards, hshards⟩
    obtain ⟨-, c, hc, -⟩ := (shardFiles_eq_ok hpos).mp hshards
    exact ⟨c, hc⟩
  · rintro ⟨c, hc⟩
    exact ⟨c.finish, (shardFiles_eq_ok hpos).mpr ⟨hint, c, hc, rfl⟩⟩

/-- A job with one worker and one file. -/
def smallJob (mapKilobytes : Int) : MapReduceSpec :=
  { nWorkers := 1
    workerIpaddrPorts := [str "localhost:50051"]
    inputFiles := [str "input/a.txt"]
    outputDir := str "output"
    nOutputFiles := 1
    mapKilobytes := mapKilobytes
    userId := str "cs6210" }

/-- A file of one line, with its newline. -/
def oneLine (n : Nat) : Files := fun _ => some (List.replicate n 97 ++ [newline])

theorem length_oneLine {n : Nat} (hn : n < longMax) :
    ∀ f ∈ (smallJob 1).inputFiles, ∀ d, oneLine n f = some d → d.length ≤ longMax := by
  intro f _ d hd
  obtain rfl := Option.some.inj hd
  rw [List.length_append, List.length_replicate]
  exact hn

theorem sharding_succeeds_small :
    shardFiles (oneLine 5) 1 [str "input/a.txt"] = .ok [[⟨str "input/a.txt", 0, 6⟩]] ∧
    ∀ n, ¬ Exact lineLength 1024 (pieces (oneLine 5) [str "input/a.txt"]) n := by
  have hvalid : validateMrSpec (fileExists (oneLine 5)) (fun _ => true) (smallJob 1) = true := by decide
  have hok : shardFiles (oneLine 5) 1 [str "input/a.txt"] = .ok [[⟨str "input/a.txt", 0, 6⟩]] :=
    ok_of_toOption (by decide +kernel)
  exact ⟨hok, ((sharding_succeeds hvalid (length_oneLine (by decide)) (by decide)).mp ⟨_, hok⟩).1⟩

/-- A file of 1024 bytes, with shards of a kilobyte. -/
theorem sharding_fails :
    validateMrSpec (fileExists (oneLine 1023)) (fun _ => true) (smallJob 1) = true ∧
    (∀ f ∈ (smallJob 1).inputFiles, ∀ d, oneLine 1023 f = some d → d.length ≤ longMax) ∧
    (smallJob 1).mapKilobytes * 1024 ≤ intMax ∧
    shardFiles (oneLine 1023) (smallJob 1).mapKilobytes (smallJob 1).inputFiles = .error .returnedFalse :=
  ⟨by decide, length_oneLine (by decide), by decide, by decide +kernel⟩

end AdvancedOS.MapReduce
