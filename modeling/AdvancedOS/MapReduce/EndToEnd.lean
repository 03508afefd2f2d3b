import Mathlib.Algebra.BigOperators.Group.Finset.Basic
import Mathlib.Algebra.Order.BigOperators.Group.List
import AdvancedOS.Lib.Lts
import AdvancedOS.Lib.Potential
import AdvancedOS.MapReduce.WorkerRequest

/-!
# A whole job without failures

The shards are handed out to idle workers, any shard to any of them. The workers take their turns in any
order, and their answers are taken in any order; then one reduce job is done for every partition, with all
the files of the partition that the master knows.

* `system`: the runs, one turn of a worker at a time.
* `Reduced`: every emitted key is reduced once, with all its values.
* `Delivers`: every run comes to an end, with all keys reduced.
-/

namespace AdvancedOS.MapReduce.EndToEnd

open Lines Lts Grouping

/-! ## Jobs -/

/-- A job that has been cut into shards. Every input file that is not empty ends with a newline. -/
structure Input where
  files : Files
  inputFiles : List Str
  mapKilobytes : Int
  shards : List FileShard
  workers : List Str
  outputDir : Str
  nOutputFiles : Nat
  hash : Str → UInt64
  reduce : Str → List Str → List (Str × Str)
  whole : ∀ f ∈ inputFiles, ∀ d, files f = some d → Whole newline d
  sharded : shardFiles files mapKilobytes inputFiles = .ok shards
  workers_ne : workers ≠ []
  ports_nodup : (workers.map portOf).Nodup
  nOutputFiles_pos : 0 < nOutputFiles
  nOutputFiles_le : nOutputFiles ≤ intMax

/-- What a mapper emits for each line: keys without comma and newline, values without newline. A string has
at most `2^63 - 1` bytes. -/
structure Mapper where
  map : Str → List (Str × Str)
  comma : ∀ line, ∀ x ∈ map line, 44 ∉ x.1
  newline_key : ∀ line, ∀ x ∈ map line, newline ∉ x.1
  newline_value : ∀ line, ∀ x ∈ map line, newline ∉ x.2
  size : ∀ line, ∀ x ∈ map line, x.1.length < 9223372036854775808

/-! ## Runs -/

/-- A worker, as far as map jobs go. One that has finished owes the answer. -/
inductive Worker
  | idle
  | mapping (job : MapJob)
  | finished
  | crashed (job : MapJob)

def Worker.isIdle : Worker → Bool
  | idle => true
  | _ => false

/-- `reduced` has the partitions that are done, with the calls of `reduce`; `none` is an exception. -/
structure State where
  disk : Files
  pending : List FileShard
  workers : Str → Worker
  intermediateFiles : List Str
  reduced : List (Nat × Option (Groups Str Str))

inductive Action
  | assign (w : Str) (i : Nat)
  | turn (w : Str)
  | answer (w : Str)
  | reduce (p : Nat)

variable (I : Input) (m : Mapper)

/-- All map jobs are done and answered. -/
def State.Mapped (s : State) : Prop := s.pending = [] ∧ ∀ w ∈ I.workers, (s.workers w).isIdle = true

instance (s : State) : Decidable (s.Mapped I) := inferInstanceAs (Decidable (_ ∧ _))

def State.setWorker (s : State) (w : Str) (worker : Worker) : State :=
  { s with workers := Function.update s.workers w worker }

/-- The `i`-th of the shards that are left goes to an idle worker. -/
def assign (w : Str) (i : Nat) (s : State) : Option State :=
  match s.workers w, s.pending[i]? with
  | .idle, some shard =>
    some { s with
      pending := s.pending.eraseIdx i
      workers := Function.update s.workers w (.mapping (.start I.nOutputFiles w shard)) }
  | _, _ => none

def turn (w : Str) (s : State) : Option State :=
  match s.workers w with
  | .mapping job =>
    match job.turn I.files I.hash m.map s.disk with
    | .threw => some (s.setWorker w (.crashed job))
    | .goesOn job disk => some { s.setWorker w (.mapping job) with disk := disk }
    | .done disk => some { s.setWorker w .finished with disk := disk }
  | _ => none

/-- The master takes the answer, which has a file for every partition. -/
def answer (w : Str) (s : State) : Option State :=
  match s.workers w with
  | .finished =>
    some { s.setWorker w .idle with
      intermediateFiles := (mapResultFiles I.nOutputFiles w).foldl (fun files f => insertFile f files)
        s.intermediateFiles }
  | _ => none

/-- The reduce job of a partition. -/
def reduceStep (p : Nat) (s : State) : Option State :=
  if s.Mapped I ∧ p < I.nOutputFiles ∧ p ∉ s.reduced.map Prod.fst then
    match handleReduceJob I.reduce ⟨I.outputDir, p, filesOf s.intermediateFiles p⟩ s.disk with
    | none => some { s with reduced := s.reduced ++ [(p, none)] }
    | some (calls, disk) => some { s with disk := disk, reduced := s.reduced ++ [(p, some calls)] }
  else none

/-- `intermediate/` and the output directory are empty at the start. -/
def system : System State Action where
  init := ⟨fun _ => none, I.shards, fun _ => .idle, [], []⟩
  next
    | .assign w i, s => if w ∈ I.workers then assign I w i s else none
    | .turn w, s => if w ∈ I.workers then turn I m w s else none
    | .answer w, s => if w ∈ I.workers then answer I w s else none
    | .reduce p, s => reduceStep I p s

/-! ## What a job is to do -/

/-- All pairs that the mapper emits for the lines of the input files. -/
def inputPairs : List (Str × Str) := (inputLines I.files I.inputFiles).flatMap m.map

/-- The calls of `reduce` of the whole job, each with its partition. -/
def State.calls (s : State) : List (Nat × Str × List Str) :=
  s.reduced.flatMap fun x => (x.2.getD []).map fun y => (x.1, y)

def State.Done (s : State) : Prop := s.Mapped I ∧ ∀ p < I.nOutputFiles, p ∈ s.reduced.map Prod.fst

/-- Every emitted key is reduced once, in one partition, with all its values; no other key is; and the
output files have what the reducer emits. -/
structure Reduced (s : State) : Prop where
  once : ∀ k ∈ (inputPairs I m).map Prod.fst, ∃ p vs,
    s.calls.filter (fun c => c.2.1 = k) = [(p, k, vs)] ∧ vs.Perm (values k (inputPairs I m))
  only : ∀ c ∈ s.calls, c.2.1 ∈ (inputPairs I m).map Prod.fst
  output : ∀ p < I.nOutputFiles, (s.disk (outputFile I.outputDir p)).getD [] =
    outputText ((s.calls.filter fun c => c.1 = p).flatMap fun c => I.reduce c.2.1 c.2.2)

/-- No job throws, the run can go on until all is done, and then all keys are reduced. -/
structure Delivered (s : State) : Prop where
  no_crash : ∀ w ∈ I.workers, ∀ job, s.workers w ≠ .crashed job
  no_exception : ∀ x ∈ s.reduced, x.2.isSome
  goes_on : s.Done I ∨ ∃ a, ((system I m).next a s).isSome
  reduced : s.Done I → Reduced I m s

/-- Every range has a length that is an `int`. -/
def Input.RangesFit : Prop := ∀ shard ∈ I.shards, ∀ r ∈ shard, r.stop - r.start ≤ intMax

/-- Every key is short enough for an `int pos` and `pos + 2`. -/
def ShortKeys : Prop := ∀ x ∈ inputPairs I m, x.1.length + 2 ≤ intMax

/-- Every run is `Delivered`, and it comes to an end. -/
def Delivers : Prop :=
  (∀ s, Reach (system I m) s → Delivered I m s) ∧
    ∃ bound, ∀ actions s, exec (system I m) actions (system I m).init = some s → actions.length ≤ bound

end AdvancedOS.MapReduce.EndToEnd
