import AdvancedOS.MapReduce.Orderly

/-!
# The intermediate files of a run without failures

`Filed` follows the files: the master knows exactly the files that the answers to map jobs have
reported, the partitions that `run` reads off their names are `0 .. n_output_files - 1`, and a reduce
job carries all files of its partition.
-/

namespace AdvancedOS.MapReduce

open Lts WorkPool

variable {Sh : Type} {spec : Spec Sh} {s t : State Sh} {a : Action}

/-! ## Names of files -/

theorem mem_of_mapM {files : List Str} {idxs : List Int} (h : files.mapM fileIdx = some idxs) {p : Int} :
    p ∈ idxs ↔ ∃ f ∈ files, fileIdx f = some p := by
  induction files generalizing idxs with
  | nil =>
    cases h
    simp
  | cons f files ih =>
    rw [List.mapM_cons] at h
    obtain ⟨i, hi, h⟩ := Option.bind_eq_some_iff.mp h
    obtain ⟨is, his, h⟩ := Option.bind_eq_some_iff.mp h
    cases h
    simp [ih his, hi, eq_comm]

/-- A map job reports one file for every partition. -/
theorem exists_mem_mapResultFiles {n : Nat} (hn : n ≤ intMax) (ip : Str) {p : Int} :
    (∃ f ∈ mapResultFiles n ip, fileIdx f = some p) ↔ p ∈ (List.range n).map Int.ofNat := by
  simp only [mapResultFiles, List.mem_map, List.mem_range, exists_exists_and_eq_and]
  refine exists_congr fun i => and_congr_right fun hi => ?_
  rw [fileIdx_intermediateFile (by omega), Option.some.injEq]
  rfl

/-! ## The invariant -/

structure Filed (spec : Spec Sh) (s : State Sh) : Prop where
  files : ∀ f, f ∈ s.master.intermediateFiles ↔
    ∃ x ∈ s.mapDone, f ∈ mapResultFiles spec.nOutputFiles x.1
  keys : s.run.stage = .reducing →
    (s.idx2files.map Prod.fst).Perm ((List.range spec.nOutputFiles).map Int.ofNat)
  idx : ∀ x ∈ s.idx2files, x.2 = filesOf s.master.intermediateFiles x.1
  carried : ∀ x ∈ s.reduceSent, x.2.2 = filesOf s.master.intermediateFiles x.2.1

theorem filed_init (spec : Spec Sh) : Filed spec (system spec).init where
  files f := by simp [system, Master.new]
  keys h := by cases h
  idx x hx := by cases hx
  carried x hx := by cases hx

theorem Filed.frame (h : Filed spec s) (hstage : t.run.stage = s.run.stage)
    (hfiles : t.master.intermediateFiles = s.master.intermediateFiles := by rfl)
    (hdone : t.mapDone = s.mapDone := by rfl) (hidx : t.idx2files = s.idx2files := by rfl)
    (hsent : t.reduceSent = s.reduceSent := by rfl) : Filed spec t where
  files := by rw [hfiles, hdone]; exact h.files
  keys := by rw [hstage, hidx]; exact h.keys
  idx := by rw [hidx, hfiles]; exact h.idx
  carried := by rw [hsent, hfiles]; exact h.carried

/-- The partitions that `run` reads off the files are all partitions. -/
theorem partitions_perm (hg : Grounded spec s) (ho : Orderly spec s) (h : Filed spec s)
    (hshards : spec.shards ≠ []) (hcounted : s.master.Counted .map) {idxs : List Int}
    (hidxs : s.master.intermediateFiles.mapM fileIdx = some idxs) :
    idxs.dedup.Perm ((List.range spec.nOutputFiles).map Int.ofNat) := by
  have hsome : s.mapDone ≠ [] := by
    intro hnone
    have hperm := (ho.map_counted hg hcounted).2.2
    rw [hnone] at hperm
    exact hshards hperm.symm.eq_nil
  obtain ⟨x, hx⟩ := List.exists_mem_of_ne_nil _ hsome
  refine (List.perm_ext_iff_of_nodup (List.nodup_dedup _) ?_).mpr fun p => ?_
  · exact List.nodup_range.map Int.ofNat_injective
  · rw [List.mem_dedup, mem_of_mapM hidxs]
    constructor
    · rintro ⟨f, hf, hp⟩
      obtain ⟨y, -, hfile⟩ := (h.files f).mp hf
      exact (exists_mem_mapResultFiles spec.nOutputFiles_le y.1).mp ⟨f, hfile, hp⟩
    · intro hp
      obtain ⟨f, hfile, hp⟩ := (exists_mem_mapResultFiles spec.nOutputFiles_le x.1).mpr hp
      exact ⟨f, (h.files f).mpr ⟨x, hx, hfile⟩, hp⟩

/-- The files that a reduce job gets are those of its partition. -/
theorem Filed.filesFor (h : Filed spec s) {partition : Int}
    (hmem : partition ∈ s.idx2files.map Prod.fst) :
    s.filesFor partition = filesOf s.master.intermediateFiles partition := by
  obtain ⟨x, hx, rfl⟩ := List.mem_map.mp hmem
  obtain ⟨y, hy⟩ : ∃ y, s.idx2files.find? (fun y => y.1 == x.1) = some y :=
    Option.isSome_iff_exists.mp (List.find?_isSome.mpr ⟨x, hx, beq_self_eq_true _⟩)
  have hkey : y.1 = x.1 := by simpa using List.find?_some hy
  rw [State.filesFor, hy, ← hkey]
  exact h.idx y (List.mem_of_find?_eq_some hy)

theorem filed_move (hshards : spec.shards ≠ []) (hg : Grounded spec s) (ho : Orderly spec s)
    (h : Filed spec s) (hmove : Move s a t) (hok : FailureFree a) : Filed spec t := by
  have hcontrol := ho.control
  cases hmove with
  | abort | monitor _ | pong _ _ _ | respond _ | resume _ _ => exact h.frame rfl
  | mkdir hrun | setInitial hrun | awaitInitial hrun _ | resetDropped hrun =>
    exact h.frame (by rw [hrun]; rfl)
  | endLoop hrun _ | setFlag hrun | awaitFlag hrun _ | setTrigger hrun | awaitTrigger hrun _ =>
    exact h.frame (by rw [hrun]; rfl)
  | sendMap hrun _ _ | stop hrun | joinReduce hrun _ | joinMonitor hrun _ =>
    exact h.frame (by rw [hrun]; rfl)
  | finishReduce hrun _ _ | againReduce hrun _ _ | requeueReduce hrun _ =>
    exact h.frame (by rw [hrun]; rfl)
  | finishMap hrun _ _ | againMap hrun _ _ | requeueMap hrun _ =>
    exact ⟨h.files, fun hstage => (nomatch hstage), h.idx, h.carried⟩
  | @check _ ph hrun =>
    cases ph with
    | map => exact ⟨h.files, fun hstage => (nomatch hstage), h.idx, h.carried⟩
    | reduce => exact h.frame (by rw [hrun]; rfl)
  | @pop _ ph i ip rest hrun _ _ =>
    refine h.frame ?_
    rw [hrun, State.pop]
    split <;> rfl
  | @sendReduce _ i ip client partition hrun _ hpartition =>
    have hkeys := h.keys (by rw [hrun]; rfl)
    have hmem : partition ∈ s.idx2files.map Prod.fst := by
      have hpending := Multiset.mem_of_le (Multiset.le_add_left _ (Multiset.map Prod.snd (reduceView.pool s).sent))
        (mem_pendingPartitions hrun hpartition)
      rw [ho.reduces.jobs] at hpending
      exact hpending
    refine ⟨h.files, fun _ => hkeys, h.idx, fun x hx => ?_⟩
    rcases List.mem_append.mp hx with hx | hx
    · exact h.carried x hx
    · rw [List.mem_singleton.mp hx]
      exact h.filesFor hmem
  | @startReduce order idxs hrun _ hidxs hperm =>
    rw [hrun] at hcontrol
    have hkeys := partitions_perm hg ho h hshards hcontrol.1.map hidxs
    refine ⟨h.files, fun _ => ?_, fun x hx => ?_, h.carried⟩
    · refine List.Perm.trans ?_ (hperm.trans hkeys)
      simp [State.startReduce, Function.comp_def]
    · obtain ⟨p, -, rfl⟩ := List.mem_map.mp hx
      rfl
  | @acceptMap k ip client shard hpoll hcall _ _ =>
    obtain ⟨hopen, -⟩ := ho.open_of_mapJob hg hpoll hcall
    have hmap := hopen.mapComplete
    have hstage : s.run.stage ≠ .reducing := fun hstage =>
      absurd ((hg.mapped (.inr hstage)).symm.trans hmap) (by decide)
    refine ⟨fun f => ?_, fun hst => absurd hst hstage, fun x hx => ?_, fun x hx => ?_⟩
    · simp only [State.cleanup, Master.acceptMap, mem_foldl_insertFile, h.files, hg.numPartitions,
        List.mem_append, List.mem_singleton, or_and_right, exists_or, exists_eq_left]
      exact or_comm
    · rw [State.cleanup, (hg.notStarted hstage).1] at hx
      cases hx
    · rw [State.cleanup, hg.noSent hmap] at hx
      cases hx
  | acceptReduce _ _ _ _ => exact h.frame rfl rfl (List.append_nil _)
  | rejoin _ hcall _ hclient => exact (ho.no_rejoin hg hcall hclient).elim
  | discard _ hcall hip => exact (ho.no_discard hcall hip).elim
  | errorMap _ hcall | errorReduce _ hcall => exact (ho.no_error hcall).elim
  | late _ _ _ _ _ | dropMap _ _ _ _ _ | dropReduce _ _ _ _ _ => cases hok

theorem filed_reach [DecidableEq Sh] {ok : Action → State Sh → Prop} (hshards : spec.shards ≠ [])
    (hok : ∀ a s, ok a s → FailureFree a) (h : ReachVia (system spec) ok s) : Filed spec s :=
  h.invariant (filed_init spec) fun hr hf hstep hs =>
    filed_move hshards (grounded_reach hr) (orderly_reach hok hr) hf (move_of_next hs) (hok _ _ hstep)

/-! ## The end of the reduce phase -/

theorem Filed.card_jobs (h : Filed spec s) (hstage : s.run.stage = .reducing) :
    (reduceView.pool s).jobs.card = spec.nOutputFiles := by
  have hcard : (reduceView.pool s).jobs.card = (s.idx2files.map Prod.fst).length := Multiset.coe_card _
  rw [hcard, (h.keys hstage).length_eq, List.length_map, List.length_range]

/-- When the counter of the reduce phase has reached its total, every partition was sent once and is
done. -/
theorem reduce_counted (hg : Grounded spec s) (ho : Orderly spec s) (h : Filed spec s)
    (hstage : s.run.stage = .reducing) (hcounted : s.master.Counted .reduce) :
    (s.reduceSent.map fun x => x.2.1).Perm ((List.range spec.nOutputFiles).map Int.ofNat) ∧
      s.reduceDone.length = spec.nOutputFiles := by
  have hcount : (reduceView.pool s).count = (reduceView.pool s).jobs.card := by
    rw [h.card_jobs hstage, ← hg.numPartitions]
    exact hcounted
  obtain ⟨hpending, -, hdone⟩ := ho.reduces.complete hcount
  have hsent := ho.reduces.jobs
  rw [hpending, add_zero] at hsent
  refine ⟨?_, ?_⟩
  · have hperm : ((s.reduceSent.map fun x => (x.1, x.2.1)).map Prod.snd).Perm (s.idx2files.map Prod.fst) :=
      Multiset.coe_eq_coe.mp hsent
    rw [List.map_map] at hperm
    exact hperm.trans (h.keys hstage)
  · have hcard := congrArg Multiset.card hdone
    rw [Multiset.card_map, h.card_jobs hstage] at hcard
    exact hcard

end AdvancedOS.MapReduce
