import Mathlib.Algebra.GroupWithZero.Nat
import AdvancedOS.MapReduce.Kept

/-!
# Every key is reduced once

What a whole job does, and when it does what it is for.

* `Kept.weight_step`: every step leaves fewer steps, so that a run comes to an end.
* `goes_on`: until all is done there is a next step, if no worker has crashed.
* `Kept.reduced_all`: when all is done every key has been reduced once, if all records can be read back.
* `delivers_iff`: a job delivers whatever keys its mapper emits, as long as they are short, exactly if the
  length of every range is an `int`; and then it delivers exactly if the keys are short.
-/

namespace AdvancedOS.MapReduce.EndToEnd

open Lines Lts Lists Grouping

variable {I : Input} {m : Mapper} {s t : State} {log : Str → List (Str × Str)} {w : Str} {p : Nat}

/-! ## Runs come to an end -/

/-- The turns that a worker still takes, and its answer. -/
def Worker.weight (files : Files) (map : Str → List (Str × Str)) : Worker → Nat
  | mapping job => job.weight files map + 1
  | finished => 1
  | _ => 0

/-- The steps that are left. -/
def State.weight (I : Input) (m : Mapper) (s : State) : Nat :=
  (s.pending.map fun shard => shardWeight I.files m.map shard + 3).sum +
    ∑ w ∈ I.workers.toFinset, (s.workers w).weight I.files m.map + (I.nOutputFiles - s.reduced.length)

theorem sum_weight_update (hw : w ∈ I.workers) (worker : Worker) :
    ∑ x ∈ I.workers.toFinset, (Function.update s.workers w worker x).weight I.files m.map +
        (s.workers w).weight I.files m.map =
      ∑ x ∈ I.workers.toFinset, (s.workers x).weight I.files m.map + worker.weight I.files m.map := by
  have hchange := Potential.sum_change (List.mem_toFinset.mpr hw)
    (f := fun x => (s.workers x).weight I.files m.map)
    (g := fun x => (Function.update s.workers w worker x).weight I.files m.map)
    fun x hx => by rw [Function.update_of_ne hx]
  rwa [Function.update_self] at hchange

/-- Handing a shard out is a step of its own. -/
theorem weight_assign (hw : w ∈ I.workers) {i : Nat} (hs : assign I w i s = some t) :
    t.weight I m < s.weight I m := by
  unfold assign at hs
  split at hs
  · next shard hidle hshard =>
    obtain rfl := Option.some.inj hs
    obtain ⟨hi, hget⟩ := List.getElem?_eq_some_iff.mp hshard
    have hpending : (shard :: s.pending.eraseIdx i).Perm s.pending := hget ▸ List.getElem_cons_eraseIdx_perm hi
    have hshards := (hpending.map fun shard => shardWeight I.files m.map shard + 3).sum_eq
    have hworkers := sum_weight_update (m := m) (s := s) hw (.mapping (.start I.nOutputFiles w shard))
    have hstart : (Worker.mapping (.start I.nOutputFiles w shard)).weight I.files m.map =
        shardWeight I.files m.map shard + 2 := by
      simp [Worker.weight, MapJob.weight, MapJob.start, linesWeight]
    rw [hidle, hstart] at hworkers
    rw [List.map_cons, List.sum_cons] at hshards
    simp only [State.weight, Worker.weight] at hworkers ⊢
    omega
  · cases hs

theorem Kept.weight_turn (h : Kept I m s log) (hw : w ∈ I.workers) (hs : EndToEnd.turn I m w s = some t) :
    t.weight I m < s.weight I m := by
  -- whatever the worker does, its own weight is less afterwards
  have hless : ∀ worker disk, worker.weight I.files m.map < (s.workers w).weight I.files m.map →
      State.weight I m { s.setWorker w worker with disk := disk } < s.weight I m := by
    intro worker disk hless
    have hworkers := sum_weight_update (m := m) (s := s) hw worker
    simp only [State.weight, State.setWorker]
    omega
  unfold EndToEnd.turn at hs
  split at hs
  · next job hjob =>
    have hweight : (s.workers w).weight I.files m.map = job.weight I.files m.map + 1 := by rw [hjob, Worker.weight]
    have hpos : 0 < job.weight I.files m.map := Nat.succ_pos _
    rcases job.turn_cases (h.ready w job hjob).1 I.nOutputFiles_pos I.files I.hash m.map s.disk with
      ⟨-, hturn⟩ | ⟨job', disk, flushed, hturn, -, -, -, -, hjob'⟩ | ⟨disk, hturn, -⟩
    · rw [hturn] at hs
      obtain rfl := Option.some.inj hs
      exact hless (.crashed job) s.disk (by rw [hweight]; exact Nat.succ_pos _)
    · rw [hturn] at hs
      obtain rfl := Option.some.inj hs
      exact hless (.mapping job') disk (by rw [hweight]; exact Nat.succ_lt_succ hjob')
    · rw [hturn] at hs
      obtain rfl := Option.some.inj hs
      exact hless .finished disk (by rw [hweight]; exact Nat.succ_lt_succ hpos)
  · cases hs

theorem weight_answer (hw : w ∈ I.workers) (hs : answer I w s = some t) : t.weight I m < s.weight I m := by
  unfold answer at hs
  split at hs
  · next hfinished =>
    obtain rfl := Option.some.inj hs
    have hworkers := sum_weight_update (m := m) (s := s) hw .idle
    rw [hfinished] at hworkers
    simp only [State.weight, State.setWorker, Worker.weight] at hworkers ⊢
    omega
  · cases hs

/-- No partition is reduced twice. -/
theorem Kept.length_reduced (h : Kept I m s log) : s.reduced.length ≤ I.nOutputFiles := by
  have hsub : s.reduced.map Prod.fst ⊆ List.range I.nOutputFiles :=
    fun p hp => List.mem_range.mpr (h.parts.2 p hp)
  have hle := (h.parts.1.subperm hsub).length_le
  rwa [List.length_map, List.length_range] at hle

theorem Kept.weight_reduce (h : Kept I m s log) (hs : reduceStep I p s = some t) :
    t.weight I m < s.weight I m := by
  have hlog := (h.reduce hs).length_reduced
  unfold reduceStep at hs
  split at hs
  · split at hs
    all_goals
      obtain rfl := Option.some.inj hs
      rw [List.length_append, List.length_singleton] at hlog
      simp only [State.weight, List.length_append, List.length_singleton]
      omega
  · cases hs

theorem Kept.weight_step (h : Kept I m s log) {a : Action} (hs : (system I m).next a s = some t) :
    t.weight I m < s.weight I m := by
  cases a with
  | assign w i =>
    simp only [system] at hs
    split at hs
    · next hw => exact weight_assign hw hs
    · cases hs
  | turn w =>
    simp only [system] at hs
    split at hs
    · next hw => exact h.weight_turn hw hs
    · cases hs
  | answer w =>
    simp only [system] at hs
    split at hs
    · next hw => exact weight_answer hw hs
    · cases hs
  | reduce p => exact h.weight_reduce hs

theorem weight_less {a : Action} (h : Reach (system I m) s) (hs : (system I m).next a s = some t) :
    t.weight I m < s.weight I m := by
  obtain ⟨log, hkept⟩ := kept_reach h
  exact hkept.weight_step hs

/-! ## Runs go on -/

/-- Until all is done there is a next step, if no worker has crashed. -/
theorem goes_on (hcrash : ∀ w ∈ I.workers, ∀ job, s.workers w ≠ .crashed job) :
    s.Done I ∨ ∃ a, ((system I m).next a s).isSome := by
  by_cases hidle : ∀ w ∈ I.workers, (s.workers w).isIdle = true
  · cases hpending : s.pending with
    | cons shard shards =>
      obtain ⟨w, hw⟩ := List.exists_mem_of_ne_nil _ I.workers_ne
      have hworker : s.workers w = .idle := by
        have hw' := hidle w hw
        cases hworker : s.workers w with
        | idle => rfl
        | finished | mapping job | crashed job =>
          rw [hworker] at hw'
          cases hw'
      refine .inr ⟨.assign w 0, ?_⟩
      simp [system, hw, assign, hworker, hpending]
    | nil =>
      by_cases hall : ∀ p < I.nOutputFiles, p ∈ s.reduced.map Prod.fst
      · exact .inl ⟨⟨hpending, hidle⟩, hall⟩
      · push Not at hall
        obtain ⟨p, hp, hnew⟩ := hall
        refine .inr ⟨.reduce p, ?_⟩
        show (reduceStep I p s).isSome
        rw [reduceStep, if_pos ⟨⟨hpending, hidle⟩, hp, hnew⟩]
        split <;> rfl
  · push Not at hidle
    obtain ⟨w, hw, hbusy⟩ := hidle
    cases hworker : s.workers w with
    | idle => exact absurd (by rw [hworker]; rfl) hbusy
    | crashed job => exact absurd hworker (hcrash w hw job)
    | finished =>
      refine .inr ⟨.answer w, ?_⟩
      simp [system, hw, answer, hworker]
    | mapping job =>
      refine .inr ⟨.turn w, ?_⟩
      simp only [system, if_pos hw, EndToEnd.turn, hworker]
      split <;> rfl

/-! ## What is read of the input -/

theorem Input.cut (I : Input) :
    ∃ c, cutInput I.files I.mapKilobytes I.inputFiles = .ok c ∧ c.ranges = I.shards.flatten := by
  have hsharded := I.sharded
  unfold shardFiles at hsharded
  cases hcut : cutInput I.files I.mapKilobytes I.inputFiles with
  | error e =>
    rw [hcut] at hsharded
    cases hsharded
  | ok c =>
    rw [hcut] at hsharded
    have hfinish : c.finish = I.shards := Except.ok.inj hsharded
    exact ⟨c, rfl, by rw [← hfinish, flatten_finish]⟩

/-- The lines that the workers read. -/
def readLines (I : Input) : List Str := I.shards.flatten.flatMap (linesOf I.files)

theorem readPairs_eq_flatMap : readPairs I m = (readLines I).flatMap m.map := by
  rw [readPairs, readLines, List.flatMap_assoc, List.flatten_eq_flatMap, List.flatMap_assoc]
  rfl

/-- The part of its file that a range covers. -/
def Input.segment (I : Input) (r : Range) : Str := MapReduce.segment ((I.files r.file).getD []) r

theorem inputLines_eq : inputLines I.files I.inputFiles =
    I.shards.flatten.flatMap fun r => lines newline (I.segment r) := by
  obtain ⟨c, hcut, hranges⟩ := I.cut
  rw [← hranges]
  exact (cutInput_spec hcut).2.1.symm

/-- A range of a job, and a range whose length is an `int` is good. -/
theorem Input.range (I : Input) {r : Range} (hr : r ∈ I.shards.flatten) :
    ∃ d, I.files r.file = some d ∧ r.Cut d ∧ (r.stop - r.start ≤ intMax → r.Good d) := by
  obtain ⟨c, hcut, hranges⟩ := I.cut
  rw [← hranges] at hr
  obtain ⟨d, hfile, hmade⟩ := (cutInput_spec hcut).1 r hr
  have hwhole := I.whole r.file (cutInput_files hcut r hr) d hfile
  have hpast : r.stop ≠ d.length + 1 := fun hstop => hmade.tail hstop hwhole
  have hle := hmade.stop_le
  exact ⟨d, hfile, hmade, fun hfit => ⟨by omega, hfit⟩⟩

/-- A range is read whole if its length is an `int`. -/
theorem Input.rangeLines_eq (I : Input) {r : Range} (hr : r ∈ I.shards.flatten) (hfit : r.stop - r.start ≤ intMax) :
    rangeLines I.files r = some (lines newline (I.segment r)) := by
  obtain ⟨d, hfile, hcut, hgood⟩ := I.range hr
  rw [Input.segment, hfile]
  exact (rangeLines_eq_iff hfile hcut).mpr (hgood hfit)

/-- And otherwise not. -/
theorem Input.width_linesOf_lt (I : Input) {r : Range} (hr : r ∈ I.shards.flatten)
    (hlong : r.stop - r.start > intMax) : width (linesOf I.files r) < width (lines newline (I.segment r)) := by
  obtain ⟨d, hfile, hcut, -⟩ := I.range hr
  rw [Input.segment, linesOf, rangeLines, hfile, Option.getD_some, width_lines]
  cases hread : readRange d r with
  | none =>
    have hlt := hcut.start_lt
    have hstart := hcut.start_nonneg
    have hstop := hcut.stop_le
    have hpos : 0 < (MapReduce.segment d r).length := by
      rw [MapReduce.segment, List.length_take, List.length_drop]
      omega
    simp only [Option.map_none, Option.getD_none, width, List.map_nil, List.sum_nil]
    omega
  | some b =>
    obtain ⟨rest, hrest, htwo⟩ := readRange_long hcut hlong hread
    rw [Option.map_some, Option.getD_some, width_lines, hrest, List.length_append]
    split <;> split <;> omega

theorem Input.RangesFit.of_mem (hfit : I.RangesFit) {r : Range} (hr : r ∈ I.shards.flatten) :
    r.stop - r.start ≤ intMax := by
  obtain ⟨shard, hshard, hr⟩ := List.mem_flatten.mp hr
  exact hfit shard hshard r hr

theorem Input.RangesFit.readLines_eq (hfit : I.RangesFit) : readLines I = inputLines I.files I.inputFiles := by
  rw [readLines, inputLines_eq]
  refine List.flatMap_congr fun r hr => ?_
  rw [linesOf, I.rangeLines_eq hr (hfit.of_mem hr), Option.getD_some]

theorem Input.RangesFit.readPairs_eq (hfit : I.RangesFit) : readPairs I m = inputPairs I m := by
  rw [readPairs_eq_flatMap, hfit.readLines_eq, inputPairs]

theorem Input.RangesFit.no_crash (hfit : I.RangesFit) (h : Kept I m s log) (w : Str) (job : MapJob) :
    s.workers w ≠ .crashed job := by
  intro hcrash
  obtain ⟨r, hr, hnone⟩ := h.crashed w job hcrash
  rw [I.rangeLines_eq hr (hfit.of_mem hr)] at hnone
  cases hnone

/-- Something of the input is not read if a range is too long. -/
theorem width_readLines_lt (hlong : ¬ I.RangesFit) :
    width (readLines I) < width (inputLines I.files I.inputFiles) := by
  have hwidth : ∀ (f : Range → List Str) (rs : List Range),
      width (rs.flatMap f) = (rs.map fun r => width (f r)).sum := by
    intro f rs
    induction rs with
    | nil => rfl
    | cons r rs ih =>
      rw [List.flatMap_cons, List.map_cons, List.sum_cons, ← ih]
      simp [width]
  rw [readLines, inputLines_eq, hwidth, hwidth]
  refine List.sum_lt_sum _ _ (fun r hr => ?_) ?_
  · rcases lt_or_ge (intMax : Int) (r.stop - r.start) with hsize | hsize
    · exact Nat.le_of_lt (I.width_linesOf_lt hr hsize)
    · rw [linesOf, I.rangeLines_eq hr hsize, Option.getD_some]
  · by_contra hnone
    refine hlong fun shard hshard r hr => ?_
    by_contra hsize
    have hmem : r ∈ I.shards.flatten := List.mem_flatten.mpr ⟨shard, hshard, hr⟩
    exact hnone ⟨r, hmem, I.width_linesOf_lt hmem (by omega)⟩

/-! ## What is reduced -/

/-- The partition of a key. -/
abbrev Input.partOf (I : Input) (k : Str) : Nat := partitionOf I.hash I.nOutputFiles k

theorem values_partPairs (k : Str) (pairs : List (Str × Str)) :
    values k (partPairs I (I.partOf k) pairs) = values k pairs := by
  rw [values, partPairs, List.filter_filter, values]
  congr 1
  refine List.filter_congr fun x _ => ?_
  by_cases hx : x.1 = k
  · simp [hx]
  · simp [hx]

/-- The calls of a partition that has been reduced. -/
theorem Kept.calls_part (h : Kept I m s log) {x : Nat × Option (Groups Str Str)} (hx : x ∈ s.reduced) :
    s.calls.filter (fun c => c.1 = x.1) = (x.2.getD []).map fun y => (x.1, y) := by
  refine filter_flatMap_of_nodup (g := Prod.fst) (q := Prod.fst) h.parts.1 (fun x _ c hc => ?_) hx
  obtain ⟨y, -, rfl⟩ := List.mem_map.mp hc
  rfl

/-- Every call has a key that was read from a record. -/
theorem Kept.mem_calls (h : Kept I m s log) {c : Nat × Str × List Str} (hc : c ∈ s.calls) :
    ∃ z ∈ readPairs I m, ∃ y, readRecord (recordLine z) = some y ∧ y.1 = c.2.1 := by
  obtain ⟨x, hx, hc⟩ := List.mem_flatMap.mp hc
  obtain ⟨⟨k, vs⟩, hy, rfl⟩ := List.mem_map.mp hc
  obtain ⟨pairs, hperm, hcalls, -⟩ := h.reduced x hx
  cases hread : (pairs.map recordLine).mapM readRecord with
  | none =>
    rw [hcalls, hread] at hy
    cases hy
  | some ys =>
    rw [hcalls, hread] at hy
    obtain ⟨y, hmem, rfl⟩ := List.mem_map.mp (((grouped_group ys).entry _ _).mp hy).1
    obtain ⟨l, hl, hyl⟩ := exists_of_mem_mapM hread hmem
    obtain ⟨z, hz, rfl⟩ := List.mem_map.mp hl
    exact ⟨z, List.mem_of_mem_filter (hperm.mem_iff.mp hz), y, hyl, rfl⟩

/-- No record that is read belongs to a key that is too long. -/
theorem Kept.short_calls (h : Kept I m s log) {c : Nat × Str × List Str} (hc : c ∈ s.calls) :
    c.2.1.length + 2 ≤ intMax ∨ 44 ∈ c.2.1 := by
  obtain ⟨z, hz, y, hread, hkey⟩ := h.mem_calls hc
  obtain ⟨line, hline⟩ := exists_line hz
  exact hkey ▸ readRecord_key (m.size line z hline) hread

/-- All records can be read back. -/
def Readable (I : Input) (m : Mapper) : Prop := ∀ x ∈ readPairs I m, x.1.length + 2 ≤ intMax

/-- What a reduce job does if all records can be read back. -/
theorem Kept.reduced_eq (h : Kept I m s log) (hread : Readable I m) {x : Nat × Option (Groups Str Str)}
    (hx : x ∈ s.reduced) : ∃ pairs : List (Str × Str), pairs.Perm (partPairs I x.1 (readPairs I m)) ∧
      x.2 = some (group pairs) ∧ (s.disk (outputFile I.outputDir x.1)).getD [] =
        outputText ((group pairs).flatMap fun y => I.reduce y.1 y.2) := by
  obtain ⟨pairs, hperm, hcalls, houtput⟩ := h.reduced x hx
  have hall : (pairs.map recordLine).mapM readRecord = some pairs := by
    refine mapM_eq_some_iff.mpr (List.forall₂_map_left_iff.mpr (List.forall₂_same.mpr fun z hz => ?_))
    have hmem : z ∈ readPairs I m := List.mem_of_mem_filter (hperm.mem_iff.mp hz)
    obtain ⟨line, hline⟩ := exists_line hmem
    exact readRecord_recordLine (m.comma line z hline) (hread z hmem)
  rw [hall, Option.map_some] at hcalls
  exact ⟨pairs, hperm, hcalls, houtput _ hcalls⟩

theorem Kept.part_calls (h : Kept I m s log) (hread : Readable I m) {c : Nat × Str × List Str}
    (hc : c ∈ s.calls) : c.1 = I.partOf c.2.1 ∧ c.2.1 ∈ (readPairs I m).map Prod.fst := by
  obtain ⟨x, hx, hc⟩ := List.mem_flatMap.mp hc
  obtain ⟨⟨k, vs⟩, hy, rfl⟩ := List.mem_map.mp hc
  obtain ⟨pairs, hperm, hcalls, -⟩ := h.reduced_eq hread hx
  rw [hcalls] at hy
  obtain ⟨z, hz, rfl⟩ := List.mem_map.mp (((grouped_group pairs).entry _ _).mp hy).1
  obtain ⟨hmem, hpart⟩ := List.mem_filter.mp (hperm.mem_iff.mp hz)
  exact ⟨(of_decide_eq_true hpart).symm, List.mem_map_of_mem hmem⟩

/-- The one call for a key, after its partition has been reduced. -/
theorem Kept.calls_key (h : Kept I m s log) (hread : Readable I m) {k : Str}
    (hk : k ∈ (readPairs I m).map Prod.fst) (hpart : I.partOf k ∈ s.reduced.map Prod.fst) :
    ∃ vs, s.calls.filter (fun c => c.2.1 = k) = [(I.partOf k, k, vs)] ∧ vs.Perm (values k (readPairs I m)) := by
  obtain ⟨x, hx, hxp⟩ := List.mem_map.mp hpart
  obtain ⟨pairs, hperm, hcalls, -⟩ := h.reduced_eq hread hx
  rw [hxp] at hperm
  have hvalues : (values k pairs).Perm (values k (readPairs I m)) := by
    have hpart := values_perm (k := k) hperm
    rwa [values_partPairs] at hpart
  have hkey : k ∈ pairs.map Prod.fst := by
    obtain ⟨z, hz, rfl⟩ := List.mem_map.mp hk
    exact List.mem_map_of_mem (hperm.mem_iff.mpr (List.mem_filter.mpr ⟨hz, decide_eq_true rfl⟩))
  -- the calls with the key are all in its partition
  have hwhere : s.calls.filter (fun c => c.2.1 = k) =
      (s.calls.filter fun c => c.1 = x.1).filter fun c => c.2.1 = k := by
    rw [List.filter_filter]
    refine List.filter_congr fun c hc => ?_
    by_cases hck : c.2.1 = k
    · rw [hxp, (h.part_calls hread hc).1, hck]
      simp
    · simp [hck]
  refine ⟨values k pairs, ?_, hvalues⟩
  rw [hwhere, h.calls_part hx, hcalls, Option.getD_some, List.filter_map]
  have hfilter := (grouped_group pairs).filter_key k
  rw [if_pos hkey] at hfilter
  rw [← hxp]
  exact congrArg (List.map fun y => (x.1, y)) hfilter

/-! ## Jobs that deliver -/

theorem exists_bound (I : Input) (m : Mapper) :
    ∃ bound, ∀ actions s, exec (system I m) actions (system I m).init = some s → actions.length ≤ bound := by
  refine ⟨(system I m).init.weight I m, fun actions s hrun => ?_⟩
  have hle := length_exec_le weight_less actions .init hrun
  omega

theorem Kept.reduced_all (h : Kept I m s log) (hfit : I.RangesFit) (hread : Readable I m) (hdone : s.Done I) :
    Reduced I m s where
  once k hk := by
    rw [← hfit.readPairs_eq] at hk ⊢
    obtain ⟨vs, hcall, hvs⟩ := h.calls_key hread hk (hdone.2 _ (Nat.mod_lt _ I.nOutputFiles_pos))
    exact ⟨I.partOf k, vs, hcall, hvs⟩
  only c hc := by
    rw [← hfit.readPairs_eq]
    exact (h.part_calls hread hc).2
  output p hp := by
    obtain ⟨x, hx, rfl⟩ := List.mem_map.mp (hdone.2 p hp)
    obtain ⟨pairs, -, hcalls, houtput⟩ := h.reduced_eq hread hx
    rw [houtput, h.calls_part hx, hcalls, Option.getD_some, List.flatMap_map]

theorem Kept.delivered (h : Kept I m s log) (hfit : I.RangesFit) (hread : Readable I m) : Delivered I m s where
  no_crash w _ job := hfit.no_crash h w job
  no_exception x hx := by
    obtain ⟨pairs, -, hcalls, -⟩ := h.reduced_eq hread hx
    rw [hcalls]
    rfl
  goes_on := goes_on fun w _ job => hfit.no_crash h w job
  reduced hdone := h.reduced_all hfit hread hdone

theorem delivers_of_fit (hfit : I.RangesFit) (hshort : ShortKeys I m) : Delivers I m := by
  refine ⟨fun s hreach => ?_, exists_bound I m⟩
  obtain ⟨log, hkept⟩ := kept_reach hreach
  exact hkept.delivered hfit fun x hx => hshort x (hfit.readPairs_eq ▸ hx)

/-! ## Jobs that do not -/

/-- A job that delivers comes to its end. -/
theorem Delivers.exists_done (h : Delivers I m) : ∃ s log, Kept I m s log ∧ s.Done I ∧ Reduced I m s := by
  obtain ⟨s, hreach, hdone⟩ := exists_final weight_less (fun hreach => (h.1 _ hreach).goes_on) .init
  obtain ⟨log, hkept⟩ := kept_reach hreach
  exact ⟨s, log, hkept, hdone, (h.1 s hreach).reduced hdone⟩

theorem Delivers.shortKeys (h : Delivers I m) : ShortKeys I m := by
  obtain ⟨s, log, hkept, hdone, hreduced⟩ := h.exists_done
  intro x hx
  obtain ⟨p, vs, hcall, -⟩ := hreduced.once x.1 (List.mem_map_of_mem hx)
  have hmem : (p, x.1, vs) ∈ s.calls := List.mem_of_mem_filter (hcall ▸ List.mem_singleton_self _)
  rcases hkept.short_calls hmem with hshort | hcomma
  · exact hshort
  · obtain ⟨line, -, hline⟩ := List.mem_flatMap.mp hx
    exact absurd hcomma (m.comma line x hline)

/-- A pair for every byte of a line and for its newline, all with one key, so that no line can be cut short
unnoticed. -/
def byteMapper : Mapper where
  map line := List.replicate (line.length + 1) ([], [])
  comma line x hx := by
    rw [List.eq_of_mem_replicate hx]
    exact List.not_mem_nil
  newline_key line x hx := by
    rw [List.eq_of_mem_replicate hx]
    exact List.not_mem_nil
  newline_value line x hx := by
    rw [List.eq_of_mem_replicate hx]
    exact List.not_mem_nil
  size line x hx := by
    rw [List.eq_of_mem_replicate hx]
    exact Nat.succ_pos _

theorem key_byteMapper {ls : List Str} {x : Str × Str} (hx : x ∈ ls.flatMap byteMapper.map) : x.1 = [] := by
  obtain ⟨line, -, hx⟩ := List.mem_flatMap.mp hx
  rw [List.eq_of_mem_replicate hx]

theorem length_values_byteMapper (ls : List Str) : (values [] (ls.flatMap byteMapper.map)).length = width ls := by
  rw [values, List.filter_eq_self.mpr fun x hx => decide_eq_true (key_byteMapper hx), List.length_map,
    List.length_flatMap]
  simp [width, byteMapper]

theorem shortKeys_byteMapper (I : Input) : ShortKeys I byteMapper := by
  intro x hx
  rw [key_byteMapper hx]
  decide

/-- A job that delivers whatever is emitted reads all of its input. -/
theorem rangesFit_of_delivers (h : Delivers I byteMapper) : I.RangesFit := by
  by_contra hlong
  have hlt := width_readLines_lt hlong
  obtain ⟨s, log, hkept, hdone, hreduced⟩ := h.exists_done
  have hread : Readable I byteMapper := by
    intro x hx
    rw [readPairs_eq_flatMap] at hx
    rw [key_byteMapper hx]
    decide
  have hinput : (values [] (inputPairs I byteMapper)).length = width (inputLines I.files I.inputFiles) :=
    length_values_byteMapper _
  have hkey : [] ∈ (inputPairs I byteMapper).map Prod.fst := by
    by_contra hno
    rw [values_eq_nil hno, List.length_nil] at hinput
    omega
  obtain ⟨p, vs, hcall, hvs⟩ := hreduced.once [] hkey
  have hmem : (p, [], vs) ∈ s.calls := List.mem_of_mem_filter (hcall ▸ List.mem_singleton_self _)
  -- the call has only the values that were read
  obtain ⟨vs', hcall', hvs'⟩ := hkept.calls_key hread (hkept.part_calls hread hmem).2
    (hdone.2 _ (Nat.mod_lt _ I.nOutputFiles_pos))
  obtain rfl : vs = vs' := by
    have heq := hcall.symm.trans hcall'
    simp only [List.cons.injEq, Prod.mk.injEq, and_true, true_and] at heq
    exact heq.2
  have hsame := hvs.symm.trans hvs'
  have hlength := hsame.length_eq
  rw [hinput, readPairs_eq_flatMap, length_values_byteMapper] at hlength
  omega

/-! ## One line -/

/-- A job with one line, one worker and one partition. -/
def oneLine : Input where
  files f := if f = str "a" then some [120, newline] else none
  inputFiles := [str "a"]
  mapKilobytes := 1
  shards := [[⟨str "a", 0, 2⟩]]
  workers := [str "localhost:50051"]
  outputDir := str "output"
  nOutputFiles := 1
  hash _ := 0
  reduce k vs := vs.map fun v => (k, v)
  whole f _ d hd := by
    split at hd
    · obtain rfl := Option.some.inj hd
      exact whole_append_sep (s := [120])
    · cases hd
  sharded := by decide
  workers_ne := List.cons_ne_nil _ _
  ports_nodup := List.nodup_singleton _
  nOutputFiles_pos := Nat.one_pos
  nOutputFiles_le := intMax_pos

/-- A key of `n` bytes for every line. -/
def keyMapper (n : Nat) (hn : n < 9223372036854775808) : Mapper where
  map _ := [(List.replicate n 97, [])]
  comma _ x hx := by
    obtain rfl := List.mem_singleton.mp hx
    exact fun hmem => absurd (List.eq_of_mem_replicate hmem) (by decide)
  newline_key _ x hx := by
    obtain rfl := List.mem_singleton.mp hx
    exact fun hmem => absurd (List.eq_of_mem_replicate hmem) (by decide)
  newline_value _ x hx := by
    obtain rfl := List.mem_singleton.mp hx
    exact List.not_mem_nil
  size _ x hx := by
    obtain rfl := List.mem_singleton.mp hx
    rwa [List.length_replicate]

theorem rangesFit_oneLine : oneLine.RangesFit := by
  intro shard hshard r hr
  obtain rfl := List.mem_singleton.mp hshard
  obtain rfl := List.mem_singleton.mp hr
  decide

theorem inputPairs_oneLine {n : Nat} (hn : n < 9223372036854775808) :
    inputPairs oneLine (keyMapper n hn) = [(List.replicate n 97, [])] := by
  have hlines : inputLines oneLine.files oneLine.inputFiles = [[120]] := by decide
  rw [inputPairs, hlines]
  rfl

/-- A key that is too long is never reduced, though the job is done. -/
theorem lost_key {n : Nat} (hn : n < 9223372036854775808) (hlong : intMax < n + 2) :
    ∃ s, Reach (system oneLine (keyMapper n hn)) s ∧ s.Done oneLine ∧
      List.replicate n 97 ∈ (inputPairs oneLine (keyMapper n hn)).map Prod.fst ∧
      ∀ c ∈ s.calls, c.2.1 ≠ List.replicate n 97 := by
  have hgo : ∀ {s}, Reach (system oneLine (keyMapper n hn)) s →
      s.Done oneLine ∨ ∃ a, ((system oneLine (keyMapper n hn)).next a s).isSome := by
    intro s hreach
    obtain ⟨log, hkept⟩ := kept_reach hreach
    exact goes_on fun w _ job => rangesFit_oneLine.no_crash hkept w job
  obtain ⟨s, hreach, hdone⟩ := exists_final weight_less hgo .init
  obtain ⟨log, hkept⟩ := kept_reach hreach
  refine ⟨s, hreach, hdone, ?_, fun c hc hkey => ?_⟩
  · rw [inputPairs_oneLine]
    exact List.mem_singleton_self _
  · have hshort := hkept.short_calls hc
    rw [hkey, List.length_replicate] at hshort
    rcases hshort with hshort | hcomma
    · omega
    · exact absurd (List.eq_of_mem_replicate hcomma) (by decide)

/-! ## The result -/

/-- Every key is reduced once with all its values, for all mappers with short keys, exactly if the ranges
fit; and then for no mapper with a long one. -/
theorem delivers_iff (I : Input) :
    ((∀ m, ShortKeys I m → Delivers I m) ↔ I.RangesFit) ∧
      (I.RangesFit → ∀ m, Delivers I m ↔ ShortKeys I m) := by
  refine ⟨⟨fun h => ?_, fun hfit m => delivers_of_fit hfit⟩, fun hfit m => ?_⟩
  · exact rangesFit_of_delivers (h byteMapper (shortKeys_byteMapper I))
  · exact ⟨Delivers.shortKeys, delivers_of_fit hfit⟩

theorem short_key_delivered : Delivers oneLine (keyMapper 3 (by decide)) := by
  refine ((delivers_iff oneLine).2 rangesFit_oneLine _).mpr ?_
  intro x hx
  rw [inputPairs_oneLine] at hx
  obtain rfl := List.mem_singleton.mp hx
  decide

/-- The position after a key of `2^31` bytes is a negative `int`. -/
theorem long_key_lost :
    ∃ s, Reach (system oneLine (keyMapper 2147483648 (by decide))) s ∧ s.Done oneLine ∧
      List.replicate 2147483648 97 ∈ (inputPairs oneLine (keyMapper 2147483648 (by decide))).map Prod.fst ∧
      ∀ c ∈ s.calls, c.2.1 ≠ List.replicate 2147483648 97 :=
  lost_key (by decide) (by decide)

end AdvancedOS.MapReduce.EndToEnd
