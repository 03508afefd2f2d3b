import AdvancedOS.MapReduce.WorkerRequest

/-!
# The server of a worker

`worker.cc` and the `Request` classes of `worker_request.cc`. A worker has two threads, each with a completion
queue of its own: `process_map_reduce_request` for the map and the reduce requests, `process_ping_request`
for the pings. A thread constructs one object of each of its classes and then calls `Proceed` on whatever
`Next` returns. An object is named by the number of its allocation, so that an address is never used twice.

gRPC matches a request with an object of its class that is armed, which is an event of the queue; a `Finish`
is another one, with an `ok` that is false if the answer could not be sent. `Next` may return any of the events.

* `Job.turn`: `handle_map_job` and `handle_reduce_job`, with the tasks that `mr_task_factory.cc` has.
* `proceed`: `Proceed` of the three classes.
* `worker`: the two threads, taking their steps in any order, on a disk that others write to as well.
* `Loop.life`: what has happened to one object, from a history that no step reads.
-/

namespace AdvancedOS.MapReduce.Server

open Lts

/-! ## Requests and answers -/

/-- The classes of requests. -/
inductive Kind
  | map
  | reduce
  | ping
  deriving DecidableEq, Repr

/-- `MapQuery`, `ReduceQuery` and `PingQuery`. -/
inductive Query
  | map (userId : Str) (nPartitions : Int) (partitions : FileShard)
  | reduce (userId : Str) (query : ReduceQuery)
  | ping (id : Str)

/-- `MapResult`, `ReduceResult` and `PingResult`. -/
inductive Reply
  | map (files : List Str)
  | reduce (file : Str)
  | ping (id : Str)
  deriving DecidableEq, Repr

def Query.kind : Query → Kind
  | map _ _ _ => .map
  | reduce _ _ => .reduce
  | ping _ => .ping

/-- `request_` as it is constructed. -/
def Query.blank : Kind → Query
  | .map => .map [] 0 []
  | .reduce => .reduce [] ⟨[], 0, []⟩
  | .ping => .ping []

@[simp] theorem Query.kind_blank (k : Kind) : (blank k).kind = k := by
  cases k <;> rfl

/-- What a worker is started with: its address, the input files, the hash of its library, and the tasks that
were registered, by user id. -/
structure Setup where
  ipAddrPort : Str
  files : Files
  hash : Str → UInt64
  mappers : Str → Option (Str → List (Str × Str))
  reducers : Str → Option (Str → List Str → List (Str × Str))

/-! ## Jobs -/

/-- Where the handler of a request is: before it looks the task up, or with the task in its hands. -/
inductive Job
  | start (request : Query)
  | map (mapper : Str → List (Str × Str)) (job : MapJob)
  | reduce (reducer : Str → List Str → List (Str × Str)) (query : ReduceQuery)

/-- `threw` is an exception that nobody catches, or a task that is a null pointer. -/
inductive JobTurn
  | threw
  | goesOn (job : Job) (disk : Files)
  | done (reply : Reply) (disk : Files)

/-- One turn of a handler. A partition number below 1 makes no intermediate files, and none can be indexed. -/
def Job.turn (setup : Setup) : Job → Files → JobTurn
  | .start (.map userId nPartitions partitions), disk =>
    match setup.mappers userId with
    | none => .threw
    | some mapper => .goesOn (.map mapper (.start nPartitions.toNat setup.ipAddrPort partitions)) disk
  | .start (.reduce userId query), disk =>
    match setup.reducers userId with
    | none => .threw
    | some reducer => .goesOn (.reduce reducer query) disk
  | .start (.ping _), disk => .done (.ping setup.ipAddrPort) disk
  | .map mapper job, disk =>
    match job.turn setup.files setup.hash mapper disk with
    | .threw => .threw
    | .goesOn job disk => .goesOn (.map mapper job) disk
    | .done disk => .done (.map job.base.intermediateFiles) disk
  | .reduce reducer query, disk =>
    match handleReduceJob reducer query disk with
    | none => .threw
    | some (_, disk) => .done (.reduce (outputFile query.outputDir query.partitionId)) disk

/-! ## Objects and events -/

inductive RequestStatus
  | create
  | process
  | finish
  deriving DecidableEq, Repr

/-- An object: its class, `status_` and `request_`. -/
structure Request where
  kind : Kind
  status : RequestStatus
  request : Query

/-- What gRPC has for an object: the call that it waits for, the event of its match, a `Finish`, or the
event of that. -/
inductive Op
  | armed
  | matched
  | sent
  | finished (ok : Bool)
  deriving DecidableEq, Repr

/-- The `ok` with which `Next` returns. -/
def Op.ok : Op → Bool
  | finished ok => ok
  | armed | matched | sent => true

/-- It is in the completion queue. -/
def Op.isEvent : Op → Bool
  | matched | finished _ => true
  | armed | sent => false

/-- What can happen to an object. -/
inductive Entry
  | armed
  | matched (request : Query)
  | begun
  | replied (reply : Reply)
  | finished (ok : Bool)
  | deleted

/-- Where a thread is: before the objects that it still has to construct, at `Next`, before `Proceed`, in the
handler of a request, or before `status_ = FINISH` with its result. -/
inductive LoopPc
  | construct (kinds : List Kind)
  | next
  | proceed (tag : Nat)
  | handle (tag : Nat) (job : Job)
  | finish (tag : Nat) (reply : Reply)

/-- How a worker ends: an object is used after its deletion, `GPR_ASSERT(ok)` fails, or a handler throws. -/
inductive Failure
  | deleted
  | notOk
  | threw
  deriving DecidableEq, Repr

/-- A thread, with its completion queue and its objects. -/
structure Loop where
  nextId : Nat
  requests : Nat → Option Request
  ops : Nat → List Op
  pc : LoopPc
  failed : Option Failure
  life : Nat → List Entry

namespace Loop

def setRequest (s : Loop) (id : Nat) (request : Option Request) : Loop :=
  { s with requests := Function.update s.requests id request }

def setOps (s : Loop) (id : Nat) (ops : List Op) : Loop := { s with ops := Function.update s.ops id ops }

def record (s : Loop) (id : Nat) (entry : Entry) : Loop :=
  { s with life := Function.update s.life id (s.life id ++ [entry]) }

def fail (s : Loop) (why : Failure) : Loop := { s with failed := some why }

end Loop

/-- The first branch of `Proceed`: `Requestmapper`, `Requestreducer` or `Requestping`. -/
def arm (id : Nat) (r : Request) (s : Loop) : Loop :=
  ((s.setRequest id (some { r with status := .process })).setOps id (s.ops id ++ [.armed])).record id .armed

/-- The constructor sets an object up and calls `Proceed`. -/
def newRequest (kind : Kind) (s : Loop) : Loop :=
  arm s.nextId ⟨kind, .create, .blank kind⟩ { s with nextId := s.nextId + 1 }

/-- `Proceed`, up to the handler of the request if there is one. -/
def proceed (id : Nat) (s : Loop) : Loop :=
  match s.requests id with
  | none => s.fail .deleted
  | some r =>
    match r.status with
    | .create => { arm id r s with pc := .next }
    | .process => newRequest r.kind { s.record id .begun with pc := .handle id (.start r.request) }
    | .finish => { (s.setRequest id none).record id .deleted with pc := .next }

/-! ## The steps of a thread -/

/-- `arrive id request` is a request that gRPC matches with object `id`, `complete id ok` the end of a `Finish`,
`next id op` a `Next` that returns this event; the others are the steps of the thread. -/
inductive LoopAction
  | construct
  | next (id : Nat) (op : Op)
  | proceed
  | turn
  | finish
  | arrive (id : Nat) (request : Query)
  | complete (id : Nat) (ok : Bool)

def construct (s : Loop) : Option Loop :=
  match s.pc with
  | .construct [] => some { s with pc := .next }
  | .construct (kind :: kinds) => some { newRequest kind s with pc := .construct kinds }
  | _ => none

/-- `Next`, and what the loop does with `ok`; `strict` is `GPR_ASSERT(ok)`. -/
def nextEvent (strict : Bool) (id : Nat) (op : Op) (s : Loop) : Option Loop :=
  match s.pc with
  | .next =>
    if op.isEvent ∧ op ∈ s.ops id then
      if strict && !op.ok then some (s.fail .notOk)
      else
        let t := { s.setOps id ((s.ops id).erase op) with pc := .proceed id }
        match op with
        | .finished ok => some (t.record id (.finished ok))
        | _ => some t
    else none
  | _ => none

def proceedStep (s : Loop) : Option Loop :=
  match s.pc with
  | .proceed id => some (proceed id s)
  | _ => none

def turnStep (setup : Setup) (s : Loop) (disk : Files) : Option (Loop × Files) :=
  match s.pc with
  | .handle id job =>
    match job.turn setup disk with
    | .threw => some (s.fail .threw, disk)
    | .goesOn job disk => some ({ s with pc := .handle id job }, disk)
    | .done reply disk => some ({ s with pc := .finish id reply }, disk)
  | _ => none

/-- `status_ = FINISH` and `responder_.Finish`. -/
def finishStep (s : Loop) : Option Loop :=
  match s.pc with
  | .finish id reply =>
    match s.requests id with
    | none => some (s.fail .deleted)
    | some r =>
      some { ((s.setRequest id (some { r with status := .finish })).setOps id (s.ops id ++ [.sent])).record id
        (.replied reply) with pc := .next }
  | _ => none

/-- gRPC fills in `request_`. -/
def arrive (id : Nat) (request : Query) (s : Loop) : Option Loop :=
  if .armed ∈ s.ops id then
    match s.requests id with
    | none => some (s.fail .deleted)
    | some r =>
      if r.kind = request.kind then
        some (((s.setRequest id (some { r with request })).setOps id
          ((s.ops id).erase .armed ++ [.matched])).record id (.matched request))
      else none
  else none

/-- The `Finish` is done, which uses the object for the last time. -/
def complete (id : Nat) (ok : Bool) (s : Loop) : Option Loop :=
  if .sent ∈ s.ops id then
    match s.requests id with
    | none => some (s.fail .deleted)
    | some _ => some (s.setOps id ((s.ops id).erase .sent ++ [.finished ok]))
  else none

def loopStep (setup : Setup) (strict : Bool) (s : Loop) (disk : Files) : LoopAction → Option (Loop × Files)
  | .construct => (construct s).map fun s => (s, disk)
  | .next id op => (nextEvent strict id op s).map fun s => (s, disk)
  | .proceed => (proceedStep s).map fun s => (s, disk)
  | .turn => turnStep setup s disk
  | .finish => (finishStep s).map fun s => (s, disk)
  | .arrive id request => (arrive id request s).map fun s => (s, disk)
  | .complete id ok => (complete id ok s).map fun s => (s, disk)

/-! ## The worker -/

/-- `process_map_reduce_request` and `process_ping_request`. -/
inductive LoopName
  | mapReduce
  | ping
  deriving DecidableEq, Repr

/-- The objects that the thread constructs before its loop. -/
def LoopName.kinds : LoopName → List Kind
  | mapReduce => [.map, .reduce]
  | ping => [.ping]

/-- Only the ping thread asserts `ok`. -/
def LoopName.strict : LoopName → Bool
  | mapReduce => false
  | ping => true

def Loop.empty (kinds : List Kind) : Loop :=
  { nextId := 0, requests := fun _ => none, ops := fun _ => [], pc := .construct kinds, failed := none,
    life := fun _ => [] }

structure Worker where
  loops : LoopName → Loop
  disk : Files

/-- No thread has ended the process. -/
def Worker.Running (w : Worker) : Prop := (w.loops .mapReduce).failed = none ∧ (w.loops .ping).failed = none

instance (w : Worker) : Decidable w.Running := inferInstanceAs (Decidable (_ ∧ _))

/-- `write disk` is what other processes do to the files. -/
inductive WorkerAction
  | loop (name : LoopName) (a : LoopAction)
  | write (disk : Files)

def worker (setup : Setup) (disk : Files) : System Worker WorkerAction where
  init := ⟨fun name => .empty name.kinds, disk⟩
  next a w :=
    if w.Running then
      match a with
      | .loop name a =>
        (loopStep setup name.strict (w.loops name) w.disk a).map fun (loop, disk) =>
          ⟨Function.update w.loops name loop, disk⟩
      | .write disk => some { w with disk }
    else none

end AdvancedOS.MapReduce.Server
