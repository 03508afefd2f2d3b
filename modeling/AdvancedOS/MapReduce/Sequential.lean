import AdvancedOS.MapReduce.ClusterRun

/-!
# The output of a cluster

With a reducer for which the order of the values does not matter, a cluster writes what one pass over the input
would write: however many workers there are, however the input is cut into shards, and in whatever order the steps
come.

* `sequentialOutput`: the output file of a partition, from one pass over the input.
* `cluster_agrees`: when the job is done, the output files are these.
-/

namespace AdvancedOS.MapReduce.Cluster

open Lines Lts Lists Grouping WorkPool EndToEnd

/-- What is emitted for a key does not depend on the order of its values. -/
def Symmetric (reduce : Str → List Str → List (Str × Str)) : Prop :=
  ∀ k vs vs', vs.Perm vs' → reduce k vs = reduce k vs'

/-- The pairs of the input that belong to a partition are grouped by key, and the reducer is called for each key in
order. -/
def sequentialOutput (files : Files) (inputFiles : List Str) (map : Str → List (Str × Str))
    (hash : Str → UInt64) (nOutputFiles : Nat) (reduce : Str → List Str → List (Str × Str)) (p : Nat) : Str :=
  let pairs := (inputLines files inputFiles).flatMap map
  outputText ((group (pairs.filter fun x => partitionOf hash nOutputFiles x.1 = p)).flatMap fun x => reduce x.1 x.2)

variable {I : Input} {m : Mapper} {s u : State} {n : Nat}

/-- The output file of a partition that has been reduced. -/
theorem output_of_kept {j : EndToEnd.State} {log : Str → List (Str × Str)} (hkept : Kept I m j log)
    (hfit : I.RangesFit) (hshort : ShortKeys I m) (hsym : Symmetric I.reduce) (hn : n ∈ j.reduced.map Prod.fst) :
    (j.disk (outputFile I.outputDir n)).getD [] =
      sequentialOutput I.files I.inputFiles m.map I.hash I.nOutputFiles I.reduce n := by
  obtain ⟨x, hx, rfl⟩ := List.mem_map.mp hn
  obtain ⟨pairs, hperm, -, houtput⟩ := hkept.reduced_eq (fun z hz => hshort z (hfit.readPairs_eq ▸ hz)) hx
  rw [hfit.readPairs_eq] at hperm
  rw [houtput, flatMap_group_perm hsym hperm]
  rfl

/-- When the job is done every output file is the one that a single pass over the input writes. -/
theorem output_of_finished (hshards : I.shards ≠ []) (hfit : I.RangesFit) (hshort : ShortKeys I m)
    (hsym : Symmetric I.reduce) (h : Reach (cluster I m) s) (hend : s.process.run.mode = .finished)
    (hn : n < I.nOutputFiles) :
    (s.disk (outputFile I.outputDir n)).getD [] =
      sequentialOutput I.files I.inputFiles m.map I.hash I.nOutputFiles I.reduce n := by
  have hvia : ∀ {u}, ReachVia (cluster I m) (Keeps I m) u → u.process.run.mode = .finished →
      (u.disk (outputFile I.outputDir n)).getD [] =
        sequentialOutput I.files I.inputFiles m.map I.hash I.nOutputFiles I.reduce n := by
    intro u hu hend
    have hr := hu.reach
    obtain ⟨log, hkept⟩ := kept_of_via hshards hu
    have hdone := (attended_reach hshards hr).done (sound_reach hshards hr) hend
    exact output_of_kept hkept hfit hshort hsym (hdone.2 n hn)
  rcases reach_cases hshards h with ⟨-, hs⟩ | ⟨u, hu, hswept⟩
  · exact hvia hs hend
  · obtain ⟨log, hkept⟩ := kept_of_via hshards hu
    rw [hswept.output hkept]
    exact hvia hu (by rw [hswept.before]; rfl)

/-- `oneLine` with a reducer that counts. -/
def countLine : Input := { EndToEnd.oneLine with reduce := fun k vs => [(k, decimal vs.length)] }

end AdvancedOS.MapReduce.Cluster
