import AdvancedOS.MapReduce.Kept

/-!
# Which files a job leaves behind

A map job writes the intermediate files of its worker, and a reduce job the output file of its partition; no
other file is written. As the answer to a map job lists all files of the worker, the master knows
every intermediate file that is on the disk when the map jobs are over.

* `Within`: only files with these names are written.
* `tidy_reach`: every file on the disk is an output file, or one of a worker that the master knows or that
  has not answered yet.
-/

namespace AdvancedOS.MapReduce

/-- Only files with these names are written. -/
def Within (names : List Str) (disk disk' : Files) : Prop := ∀ f ∉ names, disk' f = disk f

variable {names : List Str} {disk disk' disk'' : Files} {hash : Str → UInt64} {m m' : BaseMapperInternal}
  {f : Str}

theorem Within.refl : Within names disk disk := fun _ _ => rfl

theorem Within.trans (h : Within names disk disk') (h' : Within names disk' disk'') : Within names disk disk'' :=
  fun f hf => (h' f hf).trans (h f hf)

theorem within_appendTo {file : Str} (text : Str) (hfile : file ∈ names) :
    Within names disk (appendTo disk file text) := by
  intro f hf
  have hne : f ≠ file := fun heq => hf (heq ▸ hfile)
  exact Function.update_of_ne hne _ _

namespace BaseMapperInternal

theorem dumpPair_within {x : Str × Str} (h : m.dumpPair hash disk x = some disk') :
    Within m.intermediateFiles disk disk' := by
  obtain ⟨filename, hname, rfl⟩ := Option.map_eq_some_iff.mp h
  exact within_appendTo _ (List.mem_of_getElem? hname)

theorem dump_within (h : m.dump hash disk = some (m', disk')) : Within m.intermediateFiles disk disk' := by
  have hpairs : ∀ (pairs : List (Str × Str)) (d : Files), pairs.foldlM (m.dumpPair hash) d = some disk' →
      Within m.intermediateFiles d disk' := by
    intro pairs
    induction pairs with
    | nil =>
      intro d hd
      cases hd
      exact .refl
    | cons x pairs ih =>
      intro d hd
      rw [List.foldlM_cons] at hd
      obtain ⟨d', hfirst, hrest⟩ := Option.bind_eq_some_iff.mp hd
      exact (dumpPair_within hfirst).trans (ih d' hrest)
  obtain ⟨d, hd, heq⟩ := Option.map_eq_some_iff.mp h
  cases heq
  exact hpairs _ _ hd

theorem emit_within {x : Str × Str} (h : m.emit hash disk x = some (m', disk')) :
    Within m.intermediateFiles disk disk' := by
  obtain ⟨⟨m₁, d⟩, hdump, heq⟩ := Option.map_eq_some_iff.mp h
  cases heq
  split at hdump
  · exact dump_within hdump
  · cases hdump
    exact .refl

end BaseMapperInternal

/-- A turn of a map job writes the files of its worker. -/
theorem MapJob.turn_within {files : Files} {map : Str → List (Str × Str)} {job : MapJob}
    (h : (∃ job', job.turn files hash map disk = .goesOn job' disk') ∨ job.turn files hash map disk = .done disk') :
    Within job.base.intermediateFiles disk disk' := by
  unfold MapJob.turn at h
  split at h
  · split at h
    · rcases h with ⟨_, h⟩ | h <;> cases h
    · next hemit =>
      rcases h with ⟨_, h⟩ | h <;> cases h
      exact BaseMapperInternal.emit_within hemit
  · rcases h with ⟨_, h⟩ | h <;> cases h
    exact .refl
  · split at h
    · rcases h with ⟨_, h⟩ | h <;> cases h
    · rcases h with ⟨_, h⟩ | h <;> cases h
      exact .refl
  · split at h
    · rcases h with ⟨_, h⟩ | h <;> cases h
    · next hdump =>
      rcases h with ⟨_, h⟩ | h <;> cases h
      exact BaseMapperInternal.dump_within hdump

/-- A reduce job writes its output file. -/
theorem handleReduceJob_within {reduce : Str → List Str → List (Str × Str)} {query : ReduceQuery}
    {calls : Grouping.Groups Str Str} (h : handleReduceJob reduce query disk = some (calls, disk')) :
    Within [outputFile query.outputDir query.partitionId] disk disk' := by
  have hwrite : ∀ (file : Str) (pairs : List (Str × Str)) (d : Files),
      Within [file] d (pairs.foldl (emitOutput file) d) := by
    intro file pairs
    induction pairs with
    | nil => exact fun d => .refl
    | cons x pairs ih =>
      intro d
      exact (within_appendTo _ (List.mem_singleton_self file)).trans (ih (emitOutput file d x))
  obtain ⟨word2values, -, heq⟩ := Option.map_eq_some_iff.mp h
  cases heq
  exact hwrite _ _ disk

namespace EndToEnd

open Lts

variable {I : Input} {m : Mapper} {s t : State} {a : Action} {w : Str} {p : Nat}

/-- Every file on the disk is an output file; or it is one of a worker, and the master knows it or the worker
still owes an answer. -/
def Tidy (I : Input) (s : State) : Prop :=
  ∀ f, (s.disk f).isSome → (∃ p < I.nOutputFiles, f = outputFile I.outputDir p) ∨
    ∃ w ∈ I.workers, f ∈ mapResultFiles I.nOutputFiles w ∧
      (f ∈ s.intermediateFiles ∨ (s.workers w).isIdle = false)

theorem tidy_init : Tidy I (system I m).init := fun _ h => by cases h

/-- A worker is at work, and may have written its files. -/
theorem Tidy.work (h : Tidy I s) (hw : w ∈ I.workers) {worker : Worker} (hbusy : worker.isIdle = false)
    (disk : Files) (hwithin : Within (mapResultFiles I.nOutputFiles w) s.disk disk) :
    Tidy I { s.setWorker w worker with disk := disk } := by
  intro f hf
  by_cases hfile : f ∈ mapResultFiles I.nOutputFiles w
  · refine .inr ⟨w, hw, hfile, .inr ?_⟩
    simpa [State.setWorker] using hbusy
  · rcases h f (by rw [← hwithin f hfile]; exact hf) with houtput | ⟨x, hx, hfile', hknown⟩
    · exact .inl houtput
    · refine .inr ⟨x, hx, hfile', hknown.imp_right fun hidle => ?_⟩
      have hxw : x ≠ w := fun heq => hfile (heq ▸ hfile')
      simpa [State.setWorker, Function.update_of_ne hxw] using hidle

theorem Tidy.turn {log : Str → List (Str × Str)} (h : Tidy I s) (hkept : Kept I m s log) (hw : w ∈ I.workers)
    (hs : turn I m w s = some t) : Tidy I t := by
  unfold EndToEnd.turn at hs
  split at hs
  · next job hjob =>
    have hfiles := (hkept.ready w job hjob).1.intermediateFiles
    split at hs
    · cases hs
      exact h.work hw rfl s.disk .refl
    · next hturn =>
      cases hs
      exact h.work hw rfl _ (hfiles ▸ MapJob.turn_within (.inl ⟨_, hturn⟩))
    · next hturn =>
      cases hs
      exact h.work hw rfl _ (hfiles ▸ MapJob.turn_within (.inr hturn))
  · cases hs

theorem Tidy.assign (h : Tidy I s) (hw : w ∈ I.workers) {i : Nat} (hs : assign I w i s = some t) : Tidy I t := by
  unfold EndToEnd.assign at hs
  split at hs
  · cases hs
    exact h.work hw rfl s.disk .refl
  · cases hs

/-- The answer lists all files of the worker. -/
theorem Tidy.answer (h : Tidy I s) (hs : answer I w s = some t) : Tidy I t := by
  unfold EndToEnd.answer at hs
  split at hs
  · cases hs
    intro f hf
    rcases h f hf with houtput | ⟨x, hx, hfile, hknown⟩
    · exact .inl houtput
    · refine .inr ⟨x, hx, hfile, ?_⟩
      by_cases hxw : x = w
      · exact .inl (mem_foldl_insertFile.mpr (.inl (hxw ▸ hfile)))
      · refine hknown.imp (fun hmem => mem_foldl_insertFile.mpr (.inr hmem)) fun hidle => ?_
        simpa [State.setWorker, Function.update_of_ne hxw] using hidle
  · cases hs

theorem Tidy.reduce (h : Tidy I s) (hs : reduceStep I p s = some t) : Tidy I t := by
  unfold reduceStep at hs
  split at hs
  · next hguard =>
    split at hs
    · cases hs
      exact h
    · next hjob =>
      cases hs
      intro f hf
      by_cases hfile : f = outputFile I.outputDir p
      · exact .inl ⟨p, hguard.2.1, hfile⟩
      · refine h f ?_
        rw [← handleReduceJob_within hjob f (by simpa using hfile)]
        exact hf
  · cases hs

theorem tidy_reach (h : Reach (system I m) s) : Tidy I s := by
  refine h.invariant tidy_init fun {s t a} hr hi _ hs => ?_
  obtain ⟨log, hkept⟩ := kept_reach hr
  cases a with
  | assign w i =>
    obtain ⟨hw, hs⟩ := Option.ite_none_right_eq_some.mp hs
    exact hi.assign hw hs
  | turn w =>
    obtain ⟨hw, hs⟩ := Option.ite_none_right_eq_some.mp hs
    exact hi.turn hkept hw hs
  | answer w =>
    obtain ⟨-, hs⟩ := Option.ite_none_right_eq_some.mp hs
    exact hi.answer hs
  | reduce p => exact hi.reduce hs

/-- When the map jobs are over, the master knows every intermediate file on the disk. -/
theorem Tidy.known (h : Tidy I s) (hmapped : s.Mapped I) {f : Str} (hf : (s.disk f).isSome) :
    (∃ p < I.nOutputFiles, f = outputFile I.outputDir p) ∨ f ∈ s.intermediateFiles := by
  rcases h f hf with houtput | ⟨w, hw, -, hknown | hidle⟩
  · exact .inl houtput
  · exact .inr hknown
  · rw [hmapped.2 w hw] at hidle
    cases hidle

end EndToEnd

end AdvancedOS.MapReduce
