import AdvancedOS.Lib.Lists
import AdvancedOS.MapReduce.Grounded

/-!
# The intermediate files of a worker that failed

`handle_worker_failure` looks through `intermediate_files` for the first name that contains the port of the
worker, and erases that one. `failure_discards_iff` says when this is what should happen: when the
worker has at most one file, and no name that comes before it contains its port.
`failure_discards_others` has a worker with two files, and a port that is part of another one.
-/

namespace AdvancedOS.MapReduce

open Lts Lists

variable {Sh : Type} {m : Master Sh} {n : Nat} {reporters : List Str} {ip w f : Str}

/-- `intermediate_files` after map results of `reporters`. -/
def reportedFiles (n : Nat) (reporters : List Str) : List Str :=
  reporters.foldl (fun files w => (mapResultFiles n w).foldl (fun files f => insertFile f files) files) []

/-- The files of `ip` are not there, and the files that the other workers reported are. -/
def Discarded (n : Nat) (reporters : List Str) (ip : Str) (files : List Str) : Prop :=
  (∀ f ∈ mapResultFiles n ip, f ∉ files) ∧
    ∀ w ∈ reporters, w ≠ ip → ∀ f ∈ mapResultFiles n w, f ∈ files

/-- A worker that reported has one file only; and the name of another worker's file that contains its
port comes after the name of its own. -/
def Findable (n : Nat) (reporters : List Str) (ip : Str) : Prop :=
  (ip ∈ reporters → n ≤ 1) ∧
    ∀ w ∈ reporters, w ≠ ip → ∀ f ∈ mapResultFiles n w, portOf ip <:+: f →
      ip ∈ reporters ∧ ∃ g ∈ mapResultFiles n ip, g < f

instance (n : Nat) (reporters : List Str) (ip : Str) (files : List Str) :
    Decidable (Discarded n reporters ip files) :=
  inferInstanceAs (Decidable (_ ∧ _))

instance (n : Nat) (reporters : List Str) (ip : Str) : Decidable (Findable n reporters ip) :=
  inferInstanceAs (Decidable (_ ∧ _))

/-! ## The names in the set -/

theorem mem_mapResultFiles : f ∈ mapResultFiles n w ↔ ∃ i < n, f = intermediateFile i (portOf w) := by
  simp [mapResultFiles, eq_comm]

theorem mem_foldl_reported {files : List Str} :
    f ∈ reporters.foldl (fun files w => (mapResultFiles n w).foldl (fun files f => insertFile f files) files)
      files ↔ (∃ w ∈ reporters, f ∈ mapResultFiles n w) ∨ f ∈ files := by
  induction reporters generalizing files with
  | nil => simp
  | cons w reporters ih =>
    rw [List.foldl_cons, ih, mem_foldl_insertFile, List.exists_mem_cons_iff, or_left_comm, or_assoc]

theorem mem_reportedFiles : f ∈ reportedFiles n reporters ↔ ∃ w ∈ reporters, f ∈ mapResultFiles n w := by
  rw [reportedFiles, mem_foldl_reported]
  simp

theorem sorted_reportedFiles : (reportedFiles n reporters).Pairwise (· < ·) := by
  have hall : ∀ files : List Str, files.Pairwise (· < ·) → (reporters.foldl
      (fun files w => (mapResultFiles n w).foldl (fun files f => insertFile f files) files)
      files).Pairwise (· < ·) := by
    induction reporters with
    | nil => exact fun files h => h
    | cons w reporters ih => exact fun files h => ih _ (sorted_foldl_insertFile h)
  exact hall [] .nil

theorem portOf_in_name (h : f ∈ mapResultFiles n ip) : portOf ip <:+: f := by
  obtain ⟨i, -, rfl⟩ := mem_mapResultFiles.mp h
  exact ⟨str "intermediate/" ++ decimal i ++ str "_", str ".txt", rfl⟩

/-- Files of different workers have different names. -/
theorem mapResultFiles_disjoint (hn : n ≤ intMax) (hw : portOf w ≠ portOf ip) (h : f ∈ mapResultFiles n w) :
    f ∉ mapResultFiles n ip := by
  intro h'
  obtain ⟨i, hi, rfl⟩ := mem_mapResultFiles.mp h
  obtain ⟨j, hj, heq⟩ := mem_mapResultFiles.mp h'
  exact hw ((intermediateFile_inj (by omega) (by omega)).mp heq).2

/-! ## What is erased -/

/-- Nothing is erased. -/
theorem discarded_iff_of_none (hnone : ∀ f ∈ reportedFiles n reporters, ¬ portOf ip <:+: f) :
    Discarded n reporters ip (reportedFiles n reporters) ↔ Findable n reporters ip := by
  refine iff_of_true ⟨fun f hf hmem => hnone f hmem (portOf_in_name hf), fun w hw _ f hf => ?_⟩
    ⟨fun hip => ?_, fun w hw _ f hf hport => ?_⟩
  · exact mem_reportedFiles.mpr ⟨w, hw, hf⟩
  · -- the worker has no file at all
    by_contra hn
    have hzero : intermediateFile 0 (portOf ip) ∈ mapResultFiles n ip := mem_mapResultFiles.mpr ⟨0, by omega, rfl⟩
    exact hnone _ (mem_reportedFiles.mpr ⟨ip, hip, hzero⟩) (portOf_in_name hzero)
  · exact absurd hport (hnone f (mem_reportedFiles.mpr ⟨w, hw, hf⟩))

/-- `g` is erased, the first name that contains the port. -/
theorem discarded_iff_of_first (hn : n ≤ intMax) (hports : ∀ w ∈ reporters, w ≠ ip → portOf w ≠ portOf ip)
    {files : List Str} {g : Str} (hg : g ∈ reportedFiles n reporters) (hport : portOf ip <:+: g)
    (hfirst : ∀ f ∈ reportedFiles n reporters, portOf ip <:+: f → f = g ∨ g < f)
    (hmem : ∀ f, f ∈ files ↔ f ∈ reportedFiles n reporters ∧ f ≠ g) :
    Discarded n reporters ip files ↔ Findable n reporters ip := by
  obtain ⟨w, hw, hgw⟩ := mem_reportedFiles.mp hg
  constructor
  · rintro ⟨hgone, hkept⟩
    -- it is a file of the worker, as the others are all kept
    obtain rfl : w = ip := by
      by_contra hne
      exact ((hmem g).mp (hkept w hw hne g hgw)).2 rfl
    have hall : ∀ f ∈ mapResultFiles n w, f = g := by
      intro f hf
      by_contra hne
      exact hgone f hf ((hmem f).mpr ⟨mem_reportedFiles.mpr ⟨w, hw, hf⟩, hne⟩)
    refine ⟨fun _ => ?_, fun w' hw' hne f hf hinfix => ⟨hw, g, hgw, ?_⟩⟩
    · by_contra htwo
      have h0 := hall _ (mem_mapResultFiles.mpr ⟨0, by omega, rfl⟩)
      have h1 := hall _ (mem_mapResultFiles.mpr ⟨1, by omega, rfl⟩)
      exact absurd ((intermediateFile_inj (by omega) (by omega)).mp (h0.trans h1.symm)).1 (by decide)
    · have hother := mapResultFiles_disjoint hn (hports w' hw' hne) hf
      refine (hfirst f (mem_reportedFiles.mpr ⟨w', hw', hf⟩) hinfix).resolve_left fun heq => ?_
      exact hother (heq ▸ hgw)
  · rintro ⟨hone, hlater⟩
    -- it is a file of the worker, as the others come later
    obtain rfl : w = ip := by
      by_contra hne
      obtain ⟨hip, h, hh, hlt⟩ := hlater w hw hne g hgw hport
      rcases hfirst h (mem_reportedFiles.mpr ⟨ip, hip, hh⟩) (portOf_in_name hh) with rfl | hgh
      · exact List.lt_irrefl h hlt
      · exact List.lt_irrefl h (List.lt_trans hlt hgh)
    refine ⟨fun f hf hfiles => ((hmem f).mp hfiles).2 ?_, fun w' hw' hne f hf => ?_⟩
    · have hn1 := hone hw
      obtain ⟨i, hi, rfl⟩ := mem_mapResultFiles.mp hf
      obtain ⟨j, hj, rfl⟩ := mem_mapResultFiles.mp hgw
      obtain rfl : i = j := by omega
      rfl
    · refine (hmem f).mpr ⟨mem_reportedFiles.mpr ⟨w', hw', hf⟩, fun heq => ?_⟩
      exact mapResultFiles_disjoint hn (hports w' hw' hne) hf (heq ▸ hgw)

/-- After `handle_worker_failure` in the map phase, exactly the files of the failed worker are gone from
`intermediate_files` if and only if it has at most one file, and no name of another worker's file
that contains its port comes before that one. -/
theorem failure_discards_iff {client : WorkerClient Sh} (hmap : m.mapComplete = false)
    (hclient : m.ipAddr2worker ip = some client) (hn : m.numPartitions ≤ intMax)
    (hfiles : m.intermediateFiles = reportedFiles m.numPartitions reporters)
    (hports : ∀ w ∈ reporters, w ≠ ip → portOf w ≠ portOf ip) :
    ∃ m' removed, m.handleWorkerFailure ip = some (m', removed) ∧
      (Discarded m.numPartitions reporters ip m'.intermediateFiles ↔ Findable m.numPartitions reporters ip) := by
  refine ⟨_, _, by rw [Master.handleWorkerFailure, if_pos hmap, hclient], ?_⟩
  have herased : (m.dropMap ip client).1.intermediateFiles =
      (reportedFiles m.numPartitions reporters).eraseP fun file => decide (portOf ip <:+: file) := by
    rw [← hfiles]
    rfl
  rw [herased]
  rcases eraseP_cases (fun f : Str => List.lt_irrefl f) sorted_reportedFiles
      (fun file => decide (portOf ip <:+: file)) with ⟨hnone, heq⟩ | ⟨g, hg, hport, hfirst, hmem⟩
  · rw [heq]
    exact discarded_iff_of_none fun f hf => by simpa using hnone f hf
  · exact discarded_iff_of_first hn hports hg (of_decide_eq_true hport)
      (fun f hf hinfix => hfirst f hf (decide_eq_true hinfix)) hmem

/-- Two workers with one file each. -/
theorem failure_discards_one_file : ∃ (m' : Master Nat) (removed : List Str),
    ({ Master.new (smallSpec 1 []) with
      intermediateFiles := reportedFiles 1 [[1], [2]] } : Master Nat).handleWorkerFailure [1] =
        some (m', removed) ∧ Discarded 1 [[1], [2]] [1] m'.intermediateFiles := by
  have hports : ∀ w ∈ [([1] : Str), [2]], w ≠ [1] → portOf w ≠ portOf [1] := by decide
  obtain ⟨m', removed, hfailure, hiff⟩ := failure_discards_iff
    (m := { Master.new (smallSpec 1 []) with intermediateFiles := reportedFiles 1 [[1], [2]] })
    rfl rfl (by decide) rfl hports
  exact ⟨m', removed, hfailure, hiff.mpr (by decide +kernel)⟩

/-- A job with two partitions. -/
def twoPartitions : Spec Nat :=
  { smallSpec 1 [0] with nOutputFiles := 2, nOutputFiles_pos := by decide, nOutputFiles_le := by decide }

/-- A job with two workers, where the port of the first one is part of the other's. -/
def nestedPorts : Spec Nat :=
  { smallSpec 1 [0, 1] with workers := [str "a:5", str "b:45"], workers_ne := List.cons_ne_nil _ _ }

/-- A worker with two files, of which the second one stays. And a worker whose port is part of the port of
another one, whose file is erased in its place. -/
theorem failure_discards_others :
    (∃ s, Reach (system twoPartitions) s ∧ s.mapDone = [([1], 0)] ∧ ¬ s.Live [1] ∧
      s.master.mapComplete = false ∧ ¬ Discarded 2 [[1]] [1] s.master.intermediateFiles ∧
      intermediateFile 1 (portOf [1]) ∈ s.master.intermediateFiles) ∧
    (∃ s, Reach (system nestedPorts) s ∧ s.mapDone = [(str "a:5", 0), (str "b:45", 1)] ∧
      ¬ s.Live (str "a:5") ∧ s.Live (str "b:45") ∧ s.master.mapComplete = false ∧
      ¬ Discarded 1 [str "a:5", str "b:45"] (str "a:5") s.master.intermediateFiles ∧
      s.master.intermediateFiles = [str "intermediate/0_5.txt"]) := by
  refine ⟨?_, ?_⟩
  · obtain ⟨s, hs, hleft⟩ :
        ∃ s ∈ exec (system twoPartitions)
          (startUp 2 ++ [Action.run [], .run [], .respond 0 true, .poll 0, .monitor, .monitor, .monitor,
            .pong 0 false]) (system twoPartitions).init,
        s.mapDone = [([1], 0)] ∧ ¬ s.Live [1] ∧ s.master.mapComplete = false ∧
          ¬ Discarded 2 [[1]] [1] s.master.intermediateFiles ∧
          intermediateFile 1 (portOf [1]) ∈ s.master.intermediateFiles := by
      decide +kernel
    exact ⟨s, reach_exec _ .init hs, hleft⟩
  · obtain ⟨s, hs, hleft⟩ :
        ∃ s ∈ exec (system nestedPorts)
          (startUp 2 ++ List.replicate 4 (Action.run []) ++ [Action.respond 0 true, .respond 1 true, .poll 0, .poll 0,
            .monitor, .monitor, .monitor, .pong 0 false]) (system nestedPorts).init,
        s.mapDone = [(str "a:5", 0), (str "b:45", 1)] ∧ ¬ s.Live (str "a:5") ∧ s.Live (str "b:45") ∧
          s.master.mapComplete = false ∧
          ¬ Discarded 1 [str "a:5", str "b:45"] (str "a:5") s.master.intermediateFiles ∧
          s.master.intermediateFiles = [str "intermediate/0_5.txt"] := by
      decide +kernel
    exact ⟨s, reach_exec _ .init hs, hleft⟩

end AdvancedOS.MapReduce
