import AdvancedOS.MapReduce.Sharding

/-!
# The loops of `shard_files`

* `turn`: one turn of the `while` of `shard_files`; `cutFile_succ` says that it is.
* `AtHead`: with what the loops come to the head of the `while`; `LoopHead.Sound` is what holds there in any
  case.
* `LoopInvariant`: the rule for invariants of the two loops.
-/

namespace AdvancedOS.MapReduce

open Lines

variable {files : Files} {shardSize : Int} {inputFiles done : List Str} {f d : Str}

/-- What `shard_files` has at the head of its `while`. -/
structure LoopHead where
  fileOffset : Int
  fileSize : Int
  cutter : Cutter

/-- The cutter at the start of `shard_files`. -/
def startCutter (shardSize : Int) : Cutter :=
  { fileShards := [], shard := [], remainShardSize := shardSize, splits := [] }

/-- The rest of the file goes into the shard. -/
def LoopHead.takeRest (f : Str) (h : LoopHead) : LoopHead where
  fileOffset := h.fileOffset
  fileSize := 0
  cutter := { h.cutter with
    shard := h.cutter.shard ++ [⟨f, h.fileOffset, h.fileOffset + h.fileSize⟩]
    remainShardSize := h.cutter.remainShardSize - h.fileSize }

/-- The call of `get_split`. -/
def LoopHead.call (d : Str) (h : LoopHead) : SplitCall := ⟨d, h.fileOffset, h.cutter.remainShardSize⟩

/-- The shard is full after `splitSize` more bytes. -/
def LoopHead.cut (shardSize : Int) (f d : Str) (h : LoopHead) (splitSize : Int) : LoopHead where
  fileOffset := h.fileOffset + splitSize
  fileSize := h.fileSize - splitSize
  cutter :=
    { fileShards := h.cutter.fileShards ++
        [h.cutter.shard ++ [⟨f, h.fileOffset, h.fileOffset + splitSize⟩]]
      shard := []
      remainShardSize := shardSize
      splits := h.cutter.splits ++ [h.call d] }

/-- The body of the `while` of `shard_files`. -/
def turn (shardSize : Int) (f d : Str) (h : LoopHead) : Except Failure LoopHead :=
  if h.cutter.remainShardSize > h.fileSize then .ok (h.takeRest f)
  else
    match getSplit (h.call d) with
    | none => .error .returnedFalse
    | some splitSize =>
      if h.fileOffset + splitSize > longMax then .error .overflow
      else .ok (h.cut shardSize f d splitSize)

theorem cutFile_of_le {fuel : Nat} {offset left : Int} {c : Cutter} (h : left ≤ 0) :
    cutFile shardSize f d fuel offset left c = .ok c := by
  unfold cutFile
  rw [if_pos h]

theorem cutFile_succ {fuel : Nat} {h : LoopHead} (hpos : 0 < h.fileSize) :
    cutFile shardSize f d (fuel + 1) h.fileOffset h.fileSize h.cutter =
      (turn shardSize f d h).bind fun h => cutFile shardSize f d fuel h.fileOffset h.fileSize h.cutter := by
  rw [cutFile, if_neg (by omega), turn]
  simp only
  split
  · rfl
  · rw [LoopHead.call]
    cases getSplit ⟨d, h.fileOffset, h.cutter.remainShardSize⟩ with
    | none => rfl
    | some splitSize =>
      simp only
      split <;> rfl

theorem cutFiles_append {xs ys : List Str} {c : Cutter} :
    cutFiles files shardSize (xs ++ ys) c = (cutFiles files shardSize xs c).bind (cutFiles files shardSize ys) := by
  induction xs generalizing c with
  | nil => rfl
  | cons f xs ih =>
    rw [List.cons_append, cutFiles, cutFiles]
    split
    · rfl
    · split
      · rfl
      · split
        · rfl
        · exact ih

theorem cutFiles_singleton {c c' : Cutter} :
    cutFiles files shardSize [f] c = .ok c' ↔ ∃ d, files f = some d ∧ d.length ≤ longMax ∧
      cutFile shardSize f d d.length 0 d.length c = .ok c' := by
  rw [cutFiles]
  split
  · next hfile => simp [hfile]
  · next d hfile =>
    simp only [hfile, Option.some.injEq, exists_eq_left']
    split
    · next hlong => simp [Nat.not_le.mpr hlong]
    · next hlong =>
      rw [and_iff_right (Nat.not_lt.mp hlong)]
      split
      · next hcut => simp [hcut]
      · next c₁ hcut => simp [hcut, cutFiles]

/-- The loops come to the head of the `while` with `h`, in the file `f`, which has the contents `d`, after the files
`done`. -/
inductive AtHead (files : Files) (shardSize : Int) (inputFiles : List Str) :
    List Str → Str → Str → LoopHead → Prop
  | enter {done after : List Str} {f d : Str} {c : Cutter} : inputFiles = done ++ f :: after →
      cutFiles files shardSize done (startCutter shardSize) = .ok c → files f = some d →
      d.length ≤ longMax → AtHead files shardSize inputFiles done f d ⟨0, d.length, c⟩
  | turn {done : List Str} {f d : Str} {h h' : LoopHead} : AtHead files shardSize inputFiles done f d h →
      0 < h.fileSize → turn shardSize f d h = .ok h' → AtHead files shardSize inputFiles done f d h'

theorem AtHead.length_le {h : LoopHead} (hat : AtHead files shardSize inputFiles done f d h) : d.length ≤ longMax := by
  induction hat with
  | enter _ _ _ hlong => exact hlong
  | turn _ _ _ ih => exact ih

/-! ## One turn -/

/-- What holds at the head of the `while`. After a file whose last line was cut off without a newline, `file_size`
is -1. -/
structure LoopHead.Sound (shardSize : Int) (d : Str) (h : LoopHead) : Prop where
  remain_pos : 1 ≤ h.cutter.remainShardSize
  remain_le : h.cutter.remainShardSize ≤ shardSize
  offset_nonneg : 0 ≤ h.fileOffset
  size_ge : -1 ≤ h.fileSize
  place : 0 < h.fileSize → h.fileOffset + h.fileSize = d.length

theorem turn_ok {h h' : LoopHead} (hturn : turn shardSize f d h = .ok h') :
    (h.cutter.remainShardSize > h.fileSize ∧ h' = h.takeRest f) ∨
    ∃ splitSize, h.cutter.remainShardSize ≤ h.fileSize ∧ getSplit (h.call d) = some splitSize ∧
      h.fileOffset + splitSize ≤ longMax ∧ h' = h.cut shardSize f d splitSize := by
  unfold turn at hturn
  split at hturn
  · next hfits => exact .inl ⟨hfits, (Except.ok.inj hturn).symm⟩
  · next hcut =>
    split at hturn
    · cases hturn
    · next splitSize hsplit =>
      split at hturn
      · cases hturn
      · next hlong =>
        exact .inr ⟨splitSize, Int.not_lt.mp hcut, hsplit, Int.not_lt.mp hlong, (Except.ok.inj hturn).symm⟩

/-- A call of `get_split` within the file: the range goes on to the end of a line, with its newline, or to the
end of the file and one byte further. -/
theorem getSplit_call {h : LoopHead} {splitSize : Int} (hs : h.Sound shardSize d) (hpos : 0 < h.fileSize)
    (hsplit : getSplit (h.call d) = some splitSize) :
    h.cutter.remainShardSize < h.fileSize ∧
      splitSize = h.cutter.remainShardSize + (firstLine newline (h.call d).rest).length + 1 ∧
      (newline ∉ (h.call d).rest ∧ splitSize = h.fileSize + 1 ∨
        newline ∈ (h.call d).rest ∧ splitSize ≤ h.fileSize ∧
          d[(h.fileOffset + splitSize - 1).toNat]? = some newline) := by
  obtain ⟨o, ho⟩ := Int.eq_ofNat_of_zero_le hs.offset_nonneg
  obtain ⟨R, hR⟩ := Int.eq_ofNat_of_zero_le (Int.le_trans (by decide) hs.remain_pos)
  have hplace := hs.place hpos
  have hremain := hs.remain_pos
  have hrest : (h.call d).rest = d.drop (o + R) := by
    rw [SplitCall.rest, LoopHead.call, ho, hR]
    rfl
  unfold getSplit at hsplit
  rw [hrest] at hsplit ⊢
  split at hsplit
  · cases hsplit
  · next hseek =>
    have hsome : d.drop (o + R) ≠ [] := fun h => hseek (.inr h)
    have hlength := List.length_pos_of_ne_nil hsome
    rw [List.length_drop] at hlength
    obtain rfl := Option.some.inj hsplit
    refine ⟨by omega, rfl, ?_⟩
    have hremain' : (h.call d).remain = R := hR
    rw [hremain', ho]
    rcases drop_eq_firstLine hsome rfl with ⟨hno, hk, -⟩ | ⟨hmem, hk, hwhole⟩
    · exact .inl ⟨hno, by omega⟩
    · refine .inr ⟨hmem, by omega, ?_⟩
      have hindex : ((o : Int) + (R + (firstLine newline (d.drop (o + R))).length + 1) - 1).toNat =
          o + (R + (firstLine newline (d.drop (o + R))).length) := by omega
      rw [hindex]
      generalize (firstLine newline (d.drop (o + R))).length = n at hk hwhole ⊢
      have hlast : ((d.drop o).take (R + n + 1)).getLast? = d[o + (R + n)]? := by
        have hlength : ((d.drop o).take (R + n + 1)).length = R + n + 1 := by
          rw [List.length_take, List.length_drop]
          omega
        rw [List.getLast?_eq_getElem?, hlength, List.getElem?_take_of_lt (by omega), List.getElem?_drop]
        rfl
      have hlt : o + (R + n) < d.length := by omega
      rw [List.getElem?_eq_getElem hlt] at hlast ⊢
      exact congrArg some (hwhole _ hlast)

theorem sound_turn {h h' : LoopHead} (hS : 0 < shardSize) (hs : h.Sound shardSize d) (hpos : 0 < h.fileSize)
    (hturn : turn shardSize f d h = .ok h') : h'.Sound shardSize d ∧ h'.fileSize < h.fileSize := by
  rcases turn_ok hturn with ⟨hfits, rfl⟩ | ⟨splitSize, hle, hsplit, hlong, rfl⟩
  · refine ⟨⟨?_, ?_, hs.offset_nonneg, (by simp [LoopHead.takeRest]), fun h0 => absurd h0 (Int.lt_irrefl 0)⟩, hpos⟩
    · show 1 ≤ h.cutter.remainShardSize - h.fileSize
      omega
    · have hremain := hs.remain_le
      show h.cutter.remainShardSize - h.fileSize ≤ shardSize
      omega
  · obtain ⟨-, hsize, hline⟩ := getSplit_call hs hpos hsplit
    have hplace := hs.place hpos
    have hoffset := hs.offset_nonneg
    have hremain := hs.remain_pos
    refine ⟨⟨hS, Int.le_refl _, ?_, ?_, fun _ => ?_⟩, ?_⟩
    · show 0 ≤ h.fileOffset + splitSize
      omega
    · show -1 ≤ h.fileSize - splitSize
      omega
    · show h.fileOffset + splitSize + (h.fileSize - splitSize) = d.length
      omega
    · show h.fileSize - splitSize < h.fileSize
      omega

/-! ## Invariants of the loops -/

theorem cutFile_rule {Q : LoopHead → Prop}
    (hturn : ∀ {h h'}, Q h → 0 < h.fileSize → turn shardSize f d h = .ok h' → Q h') {fuel : Nat}
    {h : LoopHead} {c : Cutter} (hQ : Q h)
    (hcut : cutFile shardSize f d fuel h.fileOffset h.fileSize h.cutter = .ok c) :
    ∃ h', Q h' ∧ h'.fileSize ≤ 0 ∧ h'.cutter = c := by
  induction fuel generalizing h with
  | zero =>
    unfold cutFile at hcut
    split at hcut
    · next hle => exact ⟨h, hQ, hle, Except.ok.inj hcut⟩
    · cases hcut
  | succ fuel ih =>
    rcases lt_or_ge 0 h.fileSize with hpos | hle
    · rw [cutFile_succ hpos] at hcut
      cases hnext : turn shardSize f d h with
      | error e =>
        rw [hnext] at hcut
        cases hcut
      | ok h' =>
        rw [hnext] at hcut
        exact ih (hturn hQ hpos hnext) hcut
    · rw [cutFile_of_le hle] at hcut
      exact ⟨h, hQ, hle, Except.ok.inj hcut⟩

/-- An invariant of the two loops: `P` holds between two files, and `Q` at the head of the `while`. -/
structure LoopInvariant (files : Files) (shardSize : Int) (P : List Str → Cutter → Prop)
    (Q : List Str → Str → Str → LoopHead → Prop) : Prop where
  start : P [] (startCutter shardSize)
  enter : ∀ {done : List Str} {f d : Str} {c : Cutter}, P done c → files f = some d →
    d.length ≤ longMax → Q done f d ⟨0, d.length, c⟩
  turn : ∀ {done : List Str} {f d : Str} {h h' : LoopHead}, files f = some d → h.Sound shardSize d →
    Q done f d h → 0 < h.fileSize → turn shardSize f d h = .ok h' → Q done f d h'
  leave : ∀ {done : List Str} {f d : Str} {h : LoopHead}, files f = some d → h.Sound shardSize d →
    Q done f d h → h.fileSize ≤ 0 → P (done ++ [f]) h.cutter

section

variable {P : List Str → Cutter → Prop} {Q : List Str → Str → Str → LoopHead → Prop}

theorem sound_enter {c : Cutter} (h1 : 1 ≤ c.remainShardSize) (hle : c.remainShardSize ≤ shardSize) :
    LoopHead.Sound shardSize d ⟨0, d.length, c⟩ :=
  ⟨h1, hle, Int.le_refl 0, Int.le_trans (by decide) (Int.natCast_nonneg _), fun _ => Int.zero_add _⟩

theorem LoopInvariant.finished (hinv : LoopInvariant files shardSize P Q) (hS : 0 < shardSize) {c : Cutter}
    (hcut : cutFiles files shardSize inputFiles (startCutter shardSize) = .ok c) :
    P inputFiles c ∧ 1 ≤ c.remainShardSize ∧ c.remainShardSize ≤ shardSize := by
  induction inputFiles using List.reverseRecOn generalizing c with
  | nil =>
    obtain rfl := Except.ok.inj hcut
    exact ⟨hinv.start, hS, Int.le_refl _⟩
  | append_singleton done f ih =>
    rw [cutFiles_append] at hcut
    cases hbefore : cutFiles files shardSize done (startCutter shardSize) with
    | error e =>
      rw [hbefore] at hcut
      cases hcut
    | ok c₁ =>
      rw [hbefore] at hcut
      obtain ⟨d, hfile, hlong, hcut⟩ := cutFiles_singleton.mp hcut
      obtain ⟨hP, h1, hle⟩ := ih hbefore
      obtain ⟨h', ⟨hs, hQ⟩, hend, rfl⟩ := cutFile_rule
        (Q := fun h => h.Sound shardSize d ∧ Q done f d h)
        (fun ⟨hs, hQ⟩ hpos hnext => ⟨(sound_turn hS hs hpos hnext).1, hinv.turn hfile hs hQ hpos hnext⟩)
        ⟨sound_enter h1 hle, hinv.enter hP hfile hlong⟩ hcut
      exact ⟨hinv.leave hfile hs hQ hend, hs.remain_pos, hs.remain_le⟩

theorem LoopInvariant.atHead (hinv : LoopInvariant files shardSize P Q) (hS : 0 < shardSize) {h : LoopHead}
    (hat : AtHead files shardSize inputFiles done f d h) :
    files f = some d ∧ h.Sound shardSize d ∧ Q done f d h := by
  induction hat with
  | enter _ hbefore hfile hlong =>
    obtain ⟨hP, h1, hle⟩ := hinv.finished hS hbefore
    exact ⟨hfile, sound_enter h1 hle, hinv.enter hP hfile hlong⟩
  | turn _ hpos hnext ih =>
    obtain ⟨hfile, hs, hQ⟩ := ih
    exact ⟨hfile, (sound_turn hS hs hpos hnext).1, hinv.turn hfile hs hQ hpos hnext⟩

end

/-! ## `shard_files` -/

theorem shardFiles_eq_ok {mapKilobytes : Int} (hpos : 0 < mapKilobytes) {shards : List FileShard} :
    shardFiles files mapKilobytes inputFiles = .ok shards ↔ mapKilobytes * 1024 ≤ intMax ∧
      ∃ c, cutFiles files (mapKilobytes * 1024) inputFiles (startCutter (mapKilobytes * 1024)) = .ok c ∧
        c.finish = shards := by
  unfold shardFiles cutInput
  simp only
  split
  · next hint =>
    have hbig : ¬ mapKilobytes * 1024 ≤ intMax := by omega
    exact iff_of_false (fun h => by cases h) fun h => hbig h.1
  · next hint =>
    rw [and_iff_right (by omega), startCutter]
    cases cutFiles files (mapKilobytes * 1024) inputFiles _ with
    | error e => exact iff_of_false (fun h => by cases h) fun ⟨c, hc, _⟩ => by cases hc
    | ok c =>
      simp only [Except.map, Except.ok.injEq, exists_eq_left']

theorem mem_finish {c : Cutter} {shard : FileShard} :
    shard ∈ c.finish ↔ shard ∈ c.fileShards ∨ shard = c.shard ∧ shard ≠ [] := by
  unfold Cutter.finish
  split
  · next hnone =>
    rw [hnone]
    tauto
  · next hsome =>
    rw [List.mem_append, List.mem_singleton]
    refine or_congr_right ⟨fun h => ⟨h, h ▸ hsome⟩, fun h => h.1⟩

end AdvancedOS.MapReduce
