import AdvancedOS.Lib.LinkedList
import AdvancedOS.Lib.Lts

/-!
# Producers and consumers

`producer_consumer.c`. The nodes of the queue live in a heap, from which `malloc` takes any address that is
not allocated, also one that has been freed before. A step reads or writes only what the lock it holds
protects, or what is its own: the two mutexes are locked and unlocked in steps of their own, and the code
between them is one step.

* `addNode`, `removeNode`: what the threads do to the queue; there is no result if an assertion fails or a
  node is used that is not allocated.
* `producerStep`, `consumerStep`: `producer_routine` and `consumer_routine`.
* `system setup`: any number of both. Its lists `enqueued` and `removed` are history that no step reads.
-/

namespace AdvancedOS.Prelab

open Lts LinkedList

/-- `queue_t`, with the heap of all nodes. -/
structure Queue where
  heap : Heap Nat UInt8
  front : Option Nat
  back : Option Nat

/-- The node is added to the queue. -/
def addNode (node : Nat) (q : Queue) : Option Queue :=
  match q.back with
  | none =>
    if q.front = none then
      (setPrev q.heap node none).map fun heap => { q with heap, front := some node, back := some node }
    else none
  | some back =>
    if q.front ≠ none then
      ((setPrev q.heap node (some back)).bind fun heap => setNext heap back (some node)).map fun heap =>
        { q with heap, back := some node }
    else none

/-- `back` or the node behind the first one is told that the first one goes. -/
def detachFront (node : Nat) (q : Queue) : Option Queue :=
  match q.heap node with
  | none => none
  | some first =>
    match first.next with
    | none => some { q with back := none }
    | some next => (setPrev q.heap next none).map fun heap => { q with heap }

/-- The first node is removed from the queue, if there is one. -/
def removeNode (q : Queue) : Option (Option Nat × Queue) :=
  match q.front with
  | none => some (none, q)
  | some node =>
    (detachFront node q).bind fun q =>
      (q.heap node).map fun first => (some node, { q with front := first.next })

inductive Thread
  | producer (i : Nat)
  | consumer (j : Nat)
  deriving DecidableEq, Repr

inductive ProducerPc
  | create
  | loop
  | lockQueue (node : Nat)
  | add (node : Nat)
  | unlockQueue
  | lockNum
  | decrement
  | unlockNum
  | join
  | returned
  deriving DecidableEq, Repr

/-- `unborn` is a thread that has not been created. With `unlockQueue` goes the node that was removed. -/
inductive ConsumerPc
  | unborn
  | lockQueue
  | lockNum
  | check
  | unlockNum
  | remove
  | unlockQueue (node : Option Nat)
  | print (node : Nat)
  | free (node : Nat)
  | increment
  | exitNum
  | exitQueue
  | returned
  deriving DecidableEq, Repr

/-- A producer and the characters that it has not put into a node yet. -/
structure Producer where
  pc : ProducerPc
  rest : List UInt8
  deriving DecidableEq, Repr

structure Consumer where
  pc : ConsumerPc
  count : Nat
  printed : List UInt8
  deriving DecidableEq, Repr

/-- The threads of a run. `child i` is the consumer that producer `i` creates and joins; the others are
created by `main`. -/
structure Setup where
  numProducers : Nat
  numConsumers : Nat
  chars : Nat → List UInt8
  child : Nat → Option Nat
  producers_pos : 0 < numProducers
  consumers_pos : 0 < numConsumers
  child_lt : ∀ {i j}, i < numProducers → child i = some j → j < numConsumers
  child_inj : ∀ {i k j}, i < numProducers → k < numProducers → child i = some j → child k = some j → i = k

structure State where
  queue : Queue
  numProd : Int
  queueLock : Option Thread
  numLock : Option Thread
  producers : Nat → Producer
  consumers : Nat → Consumer
  enqueued : List (Nat × UInt8)
  removed : List (Nat × UInt8)

namespace State

def setProducer (s : State) (i : Nat) (p : Producer) : State :=
  { s with producers := Function.update s.producers i p }

def setConsumer (s : State) (j : Nat) (c : Consumer) : State :=
  { s with consumers := Function.update s.consumers j c }

/-- Producer `i` goes on at `pc`. -/
def goProducer (s : State) (i : Nat) (pc : ProducerPc) : State := s.setProducer i { s.producers i with pc }

def goConsumer (s : State) (j : Nat) (pc : ConsumerPc) : State := s.setConsumer j { s.consumers j with pc }

end State

/-- `malloc` returns `addr`, where `prev` has some value. -/
structure Malloc where
  addr : Nat
  prev : Option Nat

def producerStep (setup : Setup) (i : Nat) (malloc : Malloc) (s : State) : Option State :=
  match (s.producers i).pc with
  | .create =>
    match setup.child i with
    | some j => some ((s.goConsumer j .lockQueue).goProducer i .loop)
    | none => some (s.goProducer i .loop)
  | .loop =>
    match (s.producers i).rest with
    | [] => some (s.goProducer i .lockNum)
    | c :: rest =>
      if s.queue.heap malloc.addr = none then
        some ({ s with
          queue := { s.queue with
            heap := Function.update s.queue.heap malloc.addr (some ⟨none, malloc.prev, c⟩) } }.setProducer i
          { pc := .lockQueue malloc.addr, rest })
      else none
  | .lockQueue node =>
    if s.queueLock = none then some ({ s with queueLock := some (.producer i) }.goProducer i (.add node)) else none
  | .add node =>
    match s.queue.heap node, addNode node s.queue with
    | some new, some queue =>
      some ({ s with queue, enqueued := s.enqueued ++ [(i, new.val)] }.goProducer i .unlockQueue)
    | _, _ => none
  | .unlockQueue => some ({ s with queueLock := none }.goProducer i .loop)
  | .lockNum =>
    if s.numLock = none then some ({ s with numLock := some (.producer i) }.goProducer i .decrement) else none
  | .decrement => some ({ s with numProd := s.numProd - 1 }.goProducer i .unlockNum)
  | .unlockNum => some ({ s with numLock := none }.goProducer i .join)
  | .join =>
    match setup.child i with
    | some j => if (s.consumers j).pc = .returned then some (s.goProducer i .returned) else none
    | none => some (s.goProducer i .returned)
  | .returned => none

/-- What the history records of a removal: the consumer and the character of the node. -/
def removal (j : Nat) (q : Queue) (node : Option Nat) : List (Nat × UInt8) :=
  match node.bind q.heap with
  | some first => [(j, first.val)]
  | none => []

def consumerStep (j : Nat) (s : State) : Option State :=
  match (s.consumers j).pc with
  | .unborn => none
  | .lockQueue =>
    if s.queueLock = none then some ({ s with queueLock := some (.consumer j) }.goConsumer j .lockNum) else none
  | .lockNum =>
    if s.numLock = none then some ({ s with numLock := some (.consumer j) }.goConsumer j .check) else none
  | .check =>
    if s.queue.front ≠ none ∨ 0 < s.numProd then some (s.goConsumer j .unlockNum) else some (s.goConsumer j .exitNum)
  | .unlockNum => some ({ s with numLock := none }.goConsumer j .remove)
  | .remove =>
    (removeNode s.queue).map fun (node, queue) =>
      { s with queue, removed := s.removed ++ removal j s.queue node }.goConsumer j (.unlockQueue node)
  | .unlockQueue (some node) => some ({ s with queueLock := none }.goConsumer j (.print node))
  | .unlockQueue none => some ({ s with queueLock := none }.goConsumer j .lockQueue)
  | .print node =>
    (s.queue.heap node).map fun first =>
      s.setConsumer j { s.consumers j with pc := .free node, printed := (s.consumers j).printed ++ [first.val] }
  | .free node =>
    if (s.queue.heap node).isSome then
      some ({ s with queue := { s.queue with heap := Function.update s.queue.heap node none } }.goConsumer j
        .increment)
    else none
  | .increment => some (s.setConsumer j { s.consumers j with pc := .lockQueue, count := (s.consumers j).count + 1 })
  | .exitNum => some ({ s with numLock := none }.goConsumer j .exitQueue)
  | .exitQueue => some ({ s with queueLock := none }.goConsumer j .returned)
  | .returned => none

inductive Action
  | producer (i : Nat) (malloc : Malloc)
  | consumer (j : Nat)

/-- The consumer is created by a producer. -/
def Setup.IsChild (setup : Setup) (j : Nat) : Prop := ∃ i < setup.numProducers, setup.child i = some j

instance (setup : Setup) (j : Nat) : Decidable (setup.IsChild j) :=
  inferInstanceAs (Decidable (∃ i < setup.numProducers, setup.child i = some j))

def system (setup : Setup) : System State Action where
  init :=
    { queue := { heap := fun _ => none, front := none, back := none }
      numProd := setup.numProducers
      queueLock := none
      numLock := none
      producers := fun i => { pc := .create, rest := setup.chars i }
      consumers := fun j => { pc := if setup.IsChild j then .unborn else .lockQueue, count := 0, printed := [] }
      enqueued := []
      removed := [] }
  next
    | .producer i malloc, s => if i < setup.numProducers then producerStep setup i malloc s else none
    | .consumer j, s => if j < setup.numConsumers then consumerStep j s else none

end AdvancedOS.Prelab
