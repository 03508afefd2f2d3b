import AdvancedOS.Store.Threadpool

/-!
# Serving the requests of the store

`store.cc`. A `ServerImpl` is the `CallData` objects, what gRPC knows of them, the thread of `HandleRpcs`, and the
pool with the jobs that it runs. An object is named by the number of its allocation, so that an address is
never used twice.

gRPC matches a request with an object that is armed, and puts one event into the completion queue for the
match and one for each `Finish`. `Next` may return any of the events. `getProductBid` may return any list.

* `proceed`: `CallData::Proceed`, which the constructor and `HandleRpcs` call.
* `jobStep`: the job that `Proceed` hands to the pool.
* `storeSystem`: the store from the moment in which `HandleRpcs` has created the first object.
* `ServerImpl.life`: what has happened to one object, from a history that no step reads.
-/

namespace AdvancedOS.Store

open Lts

variable {π : Type}

inductive CallStatus
  | create
  | process
  | finish
  deriving DecidableEq, Repr

/-- An entry of a `ProductReply`. -/
structure ProductInfo (π : Type) where
  price : π
  vendorId : String
  deriving DecidableEq, Repr

/-- `set_price` and `set_vendor_id` of a new entry. -/
def productInfo (bid : π × String) : ProductInfo π := { price := bid.1, vendorId := bid.2 }

/-- A `CallData` object: its status, the `product_name` of its request and the `products` of its reply. -/
structure CallData (π : Type) where
  status : CallStatus
  productName : String
  products : List (ProductInfo π)
  deriving DecidableEq, Repr

/-- An event of the completion queue. The code sees only its tag. -/
inductive Event
  | matched (id : Nat)
  | finished (id : Nat)
  deriving DecidableEq, Repr

def Event.tag : Event → Nat
  | .matched id | .finished id => id

/-- Where `HandleRpcs` is: at `Next`, before `Proceed`, or at the `notify_one` of `add_job`. -/
inductive RpcPc
  | next
  | proceed (tag : Nat)
  | notify
  deriving DecidableEq, Repr

/-- Where the job of a worker is: before `new CallData`, before `getProductBid`, in the loop over the bids
that are left, before `status_ = FINISH`, before `Finish`, or at its end. -/
inductive Frame (π : Type)
  | construct
  | query
  | collate (bids : List (π × String))
  | status
  | finish
  | returned
  deriving DecidableEq, Repr

/-- What can happen to an object. -/
inductive Entry (π : Type)
  | armed
  | matched (productName : String)
  | succeeded
  | bids (response : List (π × String))
  | finish (products : List (ProductInfo π))
  | finishEvent
  | deleted
  deriving DecidableEq, Repr

structure ServerImpl (π : Type) where
  nextId : Nat
  calls : Nat → Option (CallData π)
  armed : List Nat
  cq : List Event
  rpc : RpcPc
  pool : Pool Nat
  frames : Nat → Frame π
  log : List (Nat × Entry π)

namespace ServerImpl

/-- The store before the first object. -/
def empty : ServerImpl π :=
  { nextId := 0, calls := fun _ => none, armed := [], cq := [], rpc := .next, pool := .empty,
    frames := fun _ => .returned, log := [] }

def record (s : ServerImpl π) (id : Nat) (entry : Entry π) : ServerImpl π := { s with log := s.log ++ [(id, entry)] }

def setCall (s : ServerImpl π) (id : Nat) (call : Option (CallData π)) : ServerImpl π :=
  { s with calls := Function.update s.calls id call }

def setFrame (s : ServerImpl π) (w : Nat) (frame : Frame π) : ServerImpl π :=
  { s with frames := Function.update s.frames w frame }

/-- What has happened to object `id`, in order. -/
def life (s : ServerImpl π) (id : Nat) : List (Entry π) :=
  s.log.filterMap fun (tag, entry) => if tag = id then some entry else none

/-- The section of `add_job` under the lock; its caller is `HandleRpcs`. -/
def addJob (s : ServerImpl π) (id : Nat) : ServerImpl π := { s with pool := s.pool.push id, rpc := .notify }

end ServerImpl

/-- `Proceed` of the object `id`. There is no step if the object does not exist or the assertion fails. -/
def proceed (id : Nat) (s : ServerImpl π) : Option (ServerImpl π) :=
  match s.calls id with
  | none => none
  | some call =>
    if call.status = .create then
      some ({ s with armed := id :: s.armed }.setCall id (some { call with status := .process }) |>.record id .armed)
    else if call.status = .process then
      some (s.addJob id)
    else if call.status = .finish then
      some ((s.setCall id none).record id .deleted)
    else none

/-- `new CallData`: the object is set up and its constructor calls `Proceed`. -/
def newCallData (s : ServerImpl π) : Option (ServerImpl π) :=
  proceed s.nextId ({ s with nextId := s.nextId + 1 }.setCall s.nextId
    (some { status := .create, productName := "", products := [] }))

/-- The next step of the job that worker `w` runs for object `id`. `response` is what `getProductBid` returns
if the step calls it. -/
def jobStep (w id : Nat) (response : List (π × String)) (s : ServerImpl π) : Option (ServerImpl π) :=
  match s.calls id, s.frames w with
  | some _, .construct => (newCallData s).map fun s => (s.setFrame w .query).record id .succeeded
  | some _, .query => some ((s.setFrame w (.collate response)).record id (.bids response))
  | some call, .collate (bid :: bids) =>
    some ((s.setFrame w (.collate bids)).setCall id
      (some { call with products := call.products ++ [productInfo bid] }))
  | some _, .collate [] => some (s.setFrame w .status)
  | some call, .status => some ((s.setFrame w .finish).setCall id (some { call with status := .finish }))
  | some call, .finish =>
    some (({ s with cq := s.cq ++ [Event.finished id] }.setFrame w .returned).record id (.finish call.products))
  | some _, .returned => none
  | none, _ => none

/-- `arrive id productName` is a request that gRPC matches with object `id`, `next e` a `Next` that returns
`e`; `proceed` and `notify` are steps of `HandleRpcs`, the others those of worker `w`. -/
inductive StoreAction (π : Type)
  | arrive (id : Nat) (productName : String)
  | next (e : Event)
  | proceed
  | notify (target : Option Nat)
  | lock (w : Nat)
  | wake (w : Nat)
  | job (w : Nat) (response : List (π × String))
  | finishJob (w : Nat)

/-- The request and its tag are handed over. -/
def arrive (id : Nat) (productName : String) (s : ServerImpl π) : Option (ServerImpl π) :=
  match s.calls id with
  | some call =>
    if id ∈ s.armed then
      some ({ s with armed := s.armed.erase id, cq := s.cq ++ [Event.matched id] }.setCall id
        (some { call with productName }) |>.record id (.matched productName))
    else none
  | none => none

/-- The turn of the loop of `HandleRpcs` up to `Proceed`. -/
def nextEvent (e : Event) (s : ServerImpl π) : Option (ServerImpl π) :=
  if s.rpc = .next ∧ e ∈ s.cq then
    match e with
    | .matched id => some { s with cq := s.cq.erase (Event.matched id), rpc := .proceed id }
    | .finished id =>
      some ({ s with cq := s.cq.erase (Event.finished id), rpc := .proceed id }.record id .finishEvent)
  else none

/-- The rest of the turn. A `Proceed` that calls `add_job` goes on with `notify_one`. -/
def rpcProceed (s : ServerImpl π) : Option (ServerImpl π) :=
  match s.rpc with
  | .proceed tag => proceed tag { s with rpc := .next }
  | .next | .notify => none

def rpcNotify (numThreads : Nat) (target : Option Nat) (s : ServerImpl π) : Option (ServerImpl π) :=
  if s.rpc = .notify then
    (s.pool.notifyOne numThreads target).map fun pool => { s with pool, rpc := .next }
  else none

/-- A worker that has taken a job is at its beginning. -/
def lock (w : Nat) (s : ServerImpl π) : Option (ServerImpl π) :=
  (s.pool.lockSection w).map fun pool =>
    match pool.workers w with
    | .running _ => { s with pool }.setFrame w .construct
    | .ready | .blocked | .woken => { s with pool }

def job (w : Nat) (response : List (π × String)) (s : ServerImpl π) : Option (ServerImpl π) :=
  match s.pool.workers w with
  | .running id => jobStep w id response s
  | .ready | .blocked | .woken => none

def finishJob (w : Nat) (s : ServerImpl π) : Option (ServerImpl π) :=
  match s.frames w with
  | .returned => (s.pool.finishJob w).map fun pool => { s with pool }
  | .construct | .query | .collate _ | .status | .finish => none

/-- The store with `numThreads` workers, from the moment in which `HandleRpcs` has created the first object. -/
def storeSystem (π : Type) (numThreads : Nat) : System (ServerImpl π) (StoreAction π) where
  init := (newCallData .empty).getD .empty
  next
    | .arrive id productName, s => arrive id productName s
    | .next e, s => nextEvent e s
    | .proceed, s => rpcProceed s
    | .notify target, s => rpcNotify numThreads target s
    | .lock w, s => if w < numThreads then lock w s else none
    | .wake w, s => if w < numThreads then (s.pool.wake w).map fun pool => { s with pool } else none
    | .job w response, s => if w < numThreads then job w response s else none
    | .finishJob w, s => if w < numThreads then finishJob w s else none

end AdvancedOS.Store
