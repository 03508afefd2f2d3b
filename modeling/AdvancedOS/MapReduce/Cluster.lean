import AdvancedOS.MapReduce.EndToEnd
import AdvancedOS.MapReduce.FailureFree

/-!
# The master and its workers

`cluster I m` puts the process of the master, the workers and the disk together, for a job in which no RPC
and no ping fails. A worker takes a map call up when it is idle, runs the job turn by turn, and answers; a
reduce call is one step, since it reads files that nobody writes any more and writes one of its own.
The names that the process removes are removed from the disk.

* `masterRefinement`: a step of the cluster is a step of the master without failures, or leaves it alone.
* `Effect`: what a step of the master's process does to the calls, the shards and the files.
-/

namespace AdvancedOS.MapReduce.Cluster

open Lines Lts Lists Grouping WorkPool EndToEnd

/-! ## The processes -/

/-- What the master is given. -/
def spec (I : Input) : Spec FileShard where
  workers := I.workers
  outputDir := I.outputDir
  nOutputFiles := I.nOutputFiles
  shards := I.shards
  workers_ne := I.workers_ne
  nOutputFiles_pos := I.nOutputFiles_pos
  nOutputFiles_le := I.nOutputFiles_le

/-- A worker's process. `mapped` owes the answer to a map call; `threw` is one whose reduce job ended with an
exception. -/
inductive Worker
  | idle
  | mapping (job : MapJob)
  | mapped
  | crashed (job : MapJob)
  | threw

def Worker.isIdle : Worker → Bool
  | idle => true
  | _ => false

/-- A map call is in its hands. -/
def Worker.hasMap : Worker → Bool
  | mapping _ | mapped | crashed _ => true
  | idle | threw => false

/-- `reduced` is history: the partitions of the reduce jobs, with the calls of `reduce`; `none` is an
exception. -/
structure State where
  process : MapReduce.State FileShard
  disk : Files
  workers : Str → Worker
  reduced : List (Nat × Option (Groups Str Str))

inductive Action
  | master (a : MapReduce.Action)
  | accept (k : Nat)
  | turn (w : Str)
  | respond (k : Nat)
  | reduce (k : Nat)

def State.setWorker (s : State) (w : Str) (worker : Worker) : State :=
  { s with workers := Function.update s.workers w worker }

/-- `std::remove` of each of the names. -/
def removeAll (names : List Str) (disk : Files) : Files := fun f => if f ∈ names then none else disk f

/-- A step of the master's process, which may have removed files. -/
def State.advance (s : State) (process : MapReduce.State FileShard) : State :=
  { s with
    process
    disk := removeAll (process.removed.drop s.process.removed.length) s.disk }

/-- The answers come from the workers, and no ping fails. -/
def byMaster : MapReduce.Action → Bool
  | .respond _ _ | .pong _ false => false
  | _ => true

variable (I : Input) (m : Mapper)

/-- A map call reaches its worker. -/
def accept (k : Nat) (s : State) : Option State :=
  match s.process.calls[k]? with
  | some ⟨ip, .map shard, none⟩ =>
    match s.workers ip with
    | .idle => some (s.setWorker ip (.mapping (.start I.nOutputFiles ip shard)))
    | _ => none
  | _ => none

def turn (w : Str) (s : State) : Option State :=
  match s.workers w with
  | .mapping job =>
    match job.turn I.files I.hash m.map s.disk with
    | .threw => some (s.setWorker w (.crashed job))
    | .goesOn job disk => some { s.setWorker w (.mapping job) with disk := disk }
    | .done disk => some { s.setWorker w .mapped with disk := disk }
  | _ => none

/-- The answer to a map call arrives. -/
def respond (k : Nat) (s : State) : Option State :=
  match s.process.calls[k]? with
  | some ⟨ip, .map _, none⟩ =>
    match s.workers ip with
    | .mapped => (s.process.next (.respond k true)).map fun process => { s.setWorker ip .idle with process }
    | _ => none
  | _ => none

/-- A reduce call reaches its worker, and is answered unless the job throws. -/
def reduce (k : Nat) (s : State) : Option State :=
  match s.process.calls[k]? with
  | some ⟨ip, .reduce p files, none⟩ =>
    match s.workers ip with
    | .idle =>
      match handleReduceJob I.reduce ⟨I.outputDir, p.toNat, files⟩ s.disk with
      | none => some { s.setWorker ip .threw with reduced := s.reduced ++ [(p.toNat, none)] }
      | some (calls, disk) =>
        (s.process.next (.respond k true)).map fun process =>
          { s with process, disk, reduced := s.reduced ++ [(p.toNat, some calls)] }
    | _ => none
  | _ => none

def cluster : System State Action where
  init := ⟨(system (spec I)).init, fun _ => none, fun _ => .idle, []⟩
  next
    | .master a, s => if byMaster a then (s.process.next a).map s.advance else none
    | .accept k, s => accept I k s
    | .turn w, s => turn I m w s
    | .respond k, s => respond k s
    | .reduce k, s => reduce I k s

/-- What a step of the cluster does in the master's process: one of its own steps, the answer to a call, or nothing. -/
theorem process_cases {a : Action} {s t : State} (h : (cluster I m).next a s = some t) :
    t.process = s.process ∨ ∃ b,
      (a = .master b ∧ byMaster b = true ∨ (∀ c, a ≠ .master c) ∧ ∃ k, b = .respond k true) ∧
        s.process.next b = some t.process := by
  cases a with
  | master a =>
    obtain ⟨hby, h⟩ := Option.ite_none_right_eq_some.mp h
    obtain ⟨process, hnext, rfl⟩ := Option.map_eq_some_iff.mp h
    exact .inr ⟨a, .inl ⟨rfl, hby⟩, hnext⟩
  | accept k =>
    simp only [cluster, accept] at h
    split at h
    · split at h
      · cases h
        exact .inl rfl
      · cases h
    · cases h
  | turn w =>
    simp only [cluster, turn] at h
    split at h
    · split at h <;> cases h <;> exact .inl rfl
    · cases h
  | respond k =>
    simp only [cluster, respond] at h
    split at h
    · split at h
      · obtain ⟨process, hnext, rfl⟩ := Option.map_eq_some_iff.mp h
        exact .inr ⟨.respond k true, .inr ⟨by simp, k, rfl⟩, hnext⟩
      · cases h
    · cases h
  | reduce k =>
    simp only [cluster, reduce] at h
    split at h
    · split at h
      · split at h
        · cases h
          exact .inl rfl
        · obtain ⟨process, hnext, rfl⟩ := Option.map_eq_some_iff.mp h
          exact .inr ⟨.respond k true, .inr ⟨by simp, k, rfl⟩, hnext⟩
      · cases h
    · cases h

/-- A step of the cluster is a step of the master without failures, or leaves the master's process alone. -/
def masterRefinement : Refinement (cluster I m) (fun _ _ => True) (MapReduce.system (spec I))
    fun a _ => FailureFree a where
  abs := State.process
  init := rfl
  step _ _ h := by
    rcases process_cases I m h with hsame | ⟨b, ⟨-, hby⟩ | ⟨-, k, rfl⟩, hnext⟩
    · exact .inl hsame
    · refine .inr ⟨b, ?_, hnext⟩
      cases b with
      | respond _ _ => cases hby
      | pong k ok =>
        cases ok with
        | false => cases hby
        | true => rfl
      | _ => trivial
    · exact .inr ⟨.respond k true, rfl, hnext⟩

/-! ## What a step of the master's process does -/

section

variable {Sh : Type} {spec : Spec Sh} {s t : MapReduce.State Sh} {a : MapReduce.Action}

def hasReturned : RunPc → Bool
  | .returned => true
  | _ => false

/-- What the workers and the files see of the master's process. -/
structure Ledger (Sh : Type) where
  calls : List (Call Sh)
  shardsLeft : List Sh
  files : List Str
  sent : List (Str × Int × List Str)
  removed : List Str
  returned : Bool

def ledger (s : MapReduce.State Sh) : Ledger Sh :=
  ⟨s.calls, s.run.pendingShards s.master.shards, s.master.intermediateFiles, s.reduceSent, s.removed,
    hasReturned s.run⟩

inductive Effect (s : MapReduce.State Sh) : Ledger Sh → Prop
  | quiet : Effect s (ledger s)
  | sendMap {i : Nat} {ip : Str} {shard : Sh} {rest : List Sh} :
      s.run = .send .map i ip → (ledger s).shardsLeft = shard :: rest →
      Effect s { ledger s with calls := s.calls ++ [⟨ip, .map shard, none⟩], shardsLeft := rest }
  | sendReduce {i : Nat} {ip : Str} {p : Int} {files : List Str} : s.run = .send .reduce i ip →
      Effect s { ledger s with
        calls := s.calls ++ [⟨ip, .reduce p files, none⟩], sent := s.reduceSent ++ [(ip, p, files)] }
  | acceptMap {k : Nat} {ip : Str} {shard : Sh} : s.calls[k]? = some ⟨ip, .map shard, some true⟩ →
      Effect s { ledger s with
        calls := s.calls.eraseIdx k
        files := (mapResultFiles s.master.numPartitions ip).foldl (fun files f => insertFile f files)
          s.master.intermediateFiles }
  | acceptReduce {k : Nat} {ip : Str} {p : Int} {files : List Str} :
      s.calls[k]? = some ⟨ip, .reduce p files, some true⟩ →
      Effect s { ledger s with calls := s.calls.eraseIdx k }
  | remove : s.run = .joinMonitor →
      Effect s { ledger s with removed := s.removed ++ s.master.intermediateFiles, returned := true }

theorem Effect.of_eq (hcalls : t.calls = s.calls)
    (hleft : t.run.pendingShards t.master.shards = s.run.pendingShards s.master.shards)
    (hreturned : hasReturned t.run = hasReturned s.run)
    (hfiles : t.master.intermediateFiles = s.master.intermediateFiles := by rfl)
    (hsent : t.reduceSent = s.reduceSent := by rfl) (hremoved : t.removed = s.removed := by rfl) :
    Effect s (ledger t) := by
  have hsame : ledger t = ledger s := by
    simp only [ledger, hcalls, hleft, hreturned, hfiles, hsent, hremoved]
  rw [hsame]
  exact .quiet

theorem effect_of_move (hg : Grounded spec s) (ho : Orderly spec s) (hmove : Move s a t) (hok : byMaster a = true) :
    Effect s (ledger t) := by
  have hcontrol := ho.control
  cases hmove with
  | abort | monitor _ | pong _ _ _ | resume _ _ => exact .of_eq rfl rfl rfl
  | mkdir hrun | setInitial hrun | awaitInitial hrun _ | resetDropped hrun =>
    exact .of_eq rfl (by rw [hrun]; rfl) (by rw [hrun]; rfl)
  | setFlag hrun | awaitFlag hrun _ | setTrigger hrun | awaitTrigger hrun _ | check hrun =>
    exact .of_eq rfl (by rw [hrun]; rfl) (by rw [hrun]; rfl)
  | finishMap hrun _ _ | finishReduce hrun _ _ | againReduce hrun _ _ | requeueReduce hrun _ =>
    exact .of_eq rfl (by rw [hrun]; rfl) (by rw [hrun]; rfl)
  | startReduce hrun _ _ _ | joinReduce hrun _ | stop hrun =>
    exact .of_eq rfl (by rw [hrun]; rfl) (by rw [hrun]; rfl)
  | @pop _ ph i ip rest hrun _ _ =>
    have hsame : (s.pop ph i ip rest).run.pendingShards s.master.shards = s.run.pendingShards s.master.shards ∧
        hasReturned (s.pop ph i ip rest).run = hasReturned s.run := by
      rw [hrun, State.pop]
      cases ph <;> split <;> exact ⟨rfl, rfl⟩
    exact .of_eq rfl hsame.1 hsame.2
  | @endLoop _ ph i hrun hge =>
    refine .of_eq rfl ?_ (by rw [hrun]; rfl)
    rw [hrun]
    cases ph with
    | map => exact (List.drop_eq_nil_of_le hge).symm
    | reduce => rfl
  | againMap hrun _ hcomplete =>
    rw [hrun] at hcontrol
    exact absurd (hcontrol.1.mapComplete.symm.trans hcomplete) (by decide)
  | requeueMap _ hunfinished => exact absurd ho.unfinishedShards hunfinished
  | @sendMap _ i ip client shard hrun _ hshard =>
    have hleft : (ledger s).shardsLeft = shard :: s.master.shards.drop (i + 1) := by
      simp only [ledger, hrun, RunPc.pendingShards]
      exact drop_eq_cons hshard
    have hsend := Effect.sendMap hrun hleft
    simpa [ledger, State.sendMapperJob, hrun, RunPc.pendingShards, hasReturned] using hsend
  | @sendReduce _ i ip client p hrun _ _ =>
    have hsend := @Effect.sendReduce _ s i ip p (s.filesFor p) hrun
    simpa [ledger, State.sendReducerJob, hrun, RunPc.pendingShards, hasReturned] using hsend
  | joinMonitor hrun _ =>
    have hremove := Effect.remove hrun
    simpa [ledger, hrun, RunPc.pendingShards, hasReturned] using hremove
  | acceptMap _ hcall _ _ => exact .acceptMap hcall
  | acceptReduce _ hcall _ _ => exact .acceptReduce hcall
  | rejoin _ hcall _ hclient => exact (ho.no_rejoin hg hcall hclient).elim
  | discard _ hcall hip => exact (ho.no_discard hcall hip).elim
  | errorMap _ hcall | errorReduce _ hcall => exact (ho.no_error hcall).elim
  | late _ _ _ _ _ | dropMap _ _ _ _ _ | dropReduce _ _ _ _ _ | respond _ => cases hok

end

end AdvancedOS.MapReduce.Cluster
