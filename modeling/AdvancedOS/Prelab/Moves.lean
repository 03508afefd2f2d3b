import AdvancedOS.Lib.Mutex
import AdvancedOS.Lib.Potential
import AdvancedOS.Prelab.ProducerConsumer

/-!
# The moves of the threads

`ProducerMove` and `ConsumerMove` say what a step can do, with one constructor for each place of a thread.

* `Locks`: a thread has a mutex exactly while it is in a section of it.
* `Children`: a consumer has not been created exactly while its producer is before `pthread_create`.
* `Counted`: `g_num_prod` is the number of producers that have not decremented it.
* `Ended`: when a consumer leaves its loop, the queue is empty and all producers have ended, for ever.
-/

namespace AdvancedOS.Prelab

open Lts LinkedList Mutex Potential Finset

/-- A step of producer `i`. -/
inductive ProducerMove (setup : Setup) (i : Nat) (s : State) : State → Prop
  | create : (s.producers i).pc = .create → setup.child i = none → ProducerMove setup i s (s.goProducer i .loop)
  | createChild {j : Nat} : (s.producers i).pc = .create → setup.child i = some j →
      ProducerMove setup i s ((s.goConsumer j .lockQueue).goProducer i .loop)
  | done : (s.producers i).pc = .loop → (s.producers i).rest = [] → ProducerMove setup i s (s.goProducer i .lockNum)
  | malloc {addr : Nat} {prev : Option Nat} {c : UInt8} {rest : List UInt8} :
      (s.producers i).pc = .loop → (s.producers i).rest = c :: rest → s.queue.heap addr = none →
      ProducerMove setup i s ({ s with
        queue := { s.queue with heap := Function.update s.queue.heap addr (some ⟨none, prev, c⟩) } }.setProducer i
          { pc := .lockQueue addr, rest })
  | lockQueue {node : Nat} : (s.producers i).pc = .lockQueue node → s.queueLock = none →
      ProducerMove setup i s ({ s with queueLock := some (.producer i) }.goProducer i (.add node))
  | add {node : Nat} {new : Node Nat UInt8} {queue : Queue} : (s.producers i).pc = .add node →
      s.queue.heap node = some new → addNode node s.queue = some queue →
      ProducerMove setup i s
        ({ s with queue, enqueued := s.enqueued ++ [(i, new.val)] }.goProducer i .unlockQueue)
  | unlockQueue : (s.producers i).pc = .unlockQueue →
      ProducerMove setup i s ({ s with queueLock := none }.goProducer i .loop)
  | lockNum : (s.producers i).pc = .lockNum → s.numLock = none →
      ProducerMove setup i s ({ s with numLock := some (.producer i) }.goProducer i .decrement)
  | decrement : (s.producers i).pc = .decrement →
      ProducerMove setup i s ({ s with numProd := s.numProd - 1 }.goProducer i .unlockNum)
  | unlockNum : (s.producers i).pc = .unlockNum →
      ProducerMove setup i s ({ s with numLock := none }.goProducer i .join)
  | join : (s.producers i).pc = .join → (∀ j, setup.child i = some j → (s.consumers j).pc = .returned) →
      ProducerMove setup i s (s.goProducer i .returned)

/-- A step of consumer `j`. -/
inductive ConsumerMove (j : Nat) (s : State) : State → Prop
  | lockQueue : (s.consumers j).pc = .lockQueue → s.queueLock = none →
      ConsumerMove j s ({ s with queueLock := some (.consumer j) }.goConsumer j .lockNum)
  | lockNum : (s.consumers j).pc = .lockNum → s.numLock = none →
      ConsumerMove j s ({ s with numLock := some (.consumer j) }.goConsumer j .check)
  | goOn : (s.consumers j).pc = .check → s.queue.front ≠ none ∨ 0 < s.numProd →
      ConsumerMove j s (s.goConsumer j .unlockNum)
  | exit : (s.consumers j).pc = .check → s.queue.front = none → s.numProd ≤ 0 →
      ConsumerMove j s (s.goConsumer j .exitNum)
  | unlockNum : (s.consumers j).pc = .unlockNum →
      ConsumerMove j s ({ s with numLock := none }.goConsumer j .remove)
  | remove {node : Option Nat} {queue : Queue} : (s.consumers j).pc = .remove →
      removeNode s.queue = some (node, queue) →
      ConsumerMove j s ({ s with queue, removed := s.removed ++ removal j s.queue node }.goConsumer j
        (.unlockQueue node))
  | unlockQueue {node : Nat} : (s.consumers j).pc = .unlockQueue (some node) →
      ConsumerMove j s ({ s with queueLock := none }.goConsumer j (.print node))
  | tryAgain : (s.consumers j).pc = .unlockQueue none →
      ConsumerMove j s ({ s with queueLock := none }.goConsumer j .lockQueue)
  | print {node : Nat} {first : Node Nat UInt8} : (s.consumers j).pc = .print node →
      s.queue.heap node = some first →
      ConsumerMove j s (s.setConsumer j
        { s.consumers j with pc := .free node, printed := (s.consumers j).printed ++ [first.val] })
  | free {node : Nat} : (s.consumers j).pc = .free node → (s.queue.heap node).isSome →
      ConsumerMove j s ({ s with
        queue := { s.queue with heap := Function.update s.queue.heap node none } }.goConsumer j .increment)
  | increment : (s.consumers j).pc = .increment →
      ConsumerMove j s (s.setConsumer j { s.consumers j with pc := .lockQueue, count := (s.consumers j).count + 1 })
  | exitNum : (s.consumers j).pc = .exitNum →
      ConsumerMove j s ({ s with numLock := none }.goConsumer j .exitQueue)
  | exitQueue : (s.consumers j).pc = .exitQueue →
      ConsumerMove j s ({ s with queueLock := none }.goConsumer j .returned)

variable {setup : Setup} {i j : Nat} {s t : State}

theorem producerStep_move {malloc : Malloc} (hs : producerStep setup i malloc s = some t) :
    ProducerMove setup i s t := by
  unfold producerStep at hs
  split at hs
  · next hpc =>
    split at hs
    · next j hchild => obtain rfl := Option.some.inj hs; exact .createChild hpc hchild
    · next hchild => obtain rfl := Option.some.inj hs; exact .create hpc hchild
  · next hpc =>
    split at hs
    · next hrest => obtain rfl := Option.some.inj hs; exact .done hpc hrest
    · next c rest hrest =>
      split at hs
      · next hfree => obtain rfl := Option.some.inj hs; exact .malloc hpc hrest hfree
      · cases hs
  · next node hpc =>
    split at hs
    · next hlock => obtain rfl := Option.some.inj hs; exact .lockQueue hpc hlock
    · cases hs
  · next node hpc =>
    split at hs
    · next new queue hnew hadd => obtain rfl := Option.some.inj hs; exact .add hpc hnew hadd
    · cases hs
  · next hpc => obtain rfl := Option.some.inj hs; exact .unlockQueue hpc
  · next hpc =>
    split at hs
    · next hlock => obtain rfl := Option.some.inj hs; exact .lockNum hpc hlock
    · cases hs
  · next hpc => obtain rfl := Option.some.inj hs; exact .decrement hpc
  · next hpc => obtain rfl := Option.some.inj hs; exact .unlockNum hpc
  · next hpc =>
    split at hs
    · next j hchild =>
      split at hs
      · next hreturned =>
        obtain rfl := Option.some.inj hs
        refine .join hpc fun j' hj' => ?_
        obtain rfl := Option.some.inj (hchild.symm.trans hj')
        exact hreturned
      · cases hs
    · next hchild =>
      obtain rfl := Option.some.inj hs
      exact .join hpc fun j' hj' => by rw [hchild] at hj'; cases hj'
  · cases hs

theorem consumerStep_move (hs : consumerStep j s = some t) : ConsumerMove j s t := by
  unfold consumerStep at hs
  split at hs
  · cases hs
  · next hpc =>
    split at hs
    · next hlock => obtain rfl := Option.some.inj hs; exact .lockQueue hpc hlock
    · cases hs
  · next hpc =>
    split at hs
    · next hlock => obtain rfl := Option.some.inj hs; exact .lockNum hpc hlock
    · cases hs
  · next hpc =>
    split at hs
    · next hmore => obtain rfl := Option.some.inj hs; exact .goOn hpc hmore
    · next hend =>
      obtain rfl := Option.some.inj hs
      exact .exit hpc (not_not.mp fun h => hend (.inl h)) (Int.not_lt.mp fun h => hend (.inr h))
  · next hpc => obtain rfl := Option.some.inj hs; exact .unlockNum hpc
  · next hpc =>
    obtain ⟨⟨node, queue⟩, hremove, rfl⟩ := Option.map_eq_some_iff.mp hs
    exact .remove hpc hremove
  · next node hpc => obtain rfl := Option.some.inj hs; exact .unlockQueue hpc
  · next hpc => obtain rfl := Option.some.inj hs; exact .tryAgain hpc
  · next node hpc =>
    obtain ⟨first, hfirst, rfl⟩ := Option.map_eq_some_iff.mp hs
    exact .print hpc hfirst
  · next node hpc =>
    split at hs
    · next hsome => obtain rfl := Option.some.inj hs; exact .free hpc hsome
    · cases hs
  · next hpc => obtain rfl := Option.some.inj hs; exact .increment hpc
  · next hpc => obtain rfl := Option.some.inj hs; exact .exitNum hpc
  · next hpc => obtain rfl := Option.some.inj hs; exact .exitQueue hpc
  · cases hs

/-! ## The sections of the mutexes -/

namespace ProducerPc

/-- The thread has `queue_p->lock`. -/
def InQueue : ProducerPc → Prop
  | .add _ | .unlockQueue => True
  | _ => False

/-- The thread has `g_num_prod_lock`. -/
def InNum : ProducerPc → Prop
  | .decrement | .unlockNum => True
  | _ => False

end ProducerPc

namespace ConsumerPc

def InQueue : ConsumerPc → Prop
  | .lockNum | .check | .unlockNum | .remove | .unlockQueue _ | .exitNum | .exitQueue => True
  | _ => False

def InNum : ConsumerPc → Prop
  | .check | .unlockNum | .exitNum => True
  | _ => False

end ConsumerPc

namespace State

def InQueue (s : State) : Thread → Prop
  | .producer i => (s.producers i).pc.InQueue
  | .consumer j => (s.consumers j).pc.InQueue

def InNum (s : State) : Thread → Prop
  | .producer i => (s.producers i).pc.InNum
  | .consumer j => (s.consumers j).pc.InNum

variable (s : State) (i j : Nat)

@[simp] theorem setProducer_self (p : Producer) : (s.setProducer i p).producers i = p := Function.update_self _ _ _

@[simp] theorem setConsumer_self (c : Consumer) : (s.setConsumer j c).consumers j = c := Function.update_self _ _ _

theorem setProducer_of_ne {k : Nat} (p : Producer) (h : k ≠ i) :
    (s.setProducer i p).producers k = s.producers k := Function.update_of_ne h _ _

theorem setConsumer_of_ne {k : Nat} (c : Consumer) (h : k ≠ j) :
    (s.setConsumer j c).consumers k = s.consumers k := Function.update_of_ne h _ _

end State

/-- Another producer or a consumer is where it was. -/
theorem places_setProducer (s : State) (i : Nat) (p : Producer) (t : Thread) (h : t ≠ .producer i) :
    ((s.setProducer i p).InQueue t ↔ s.InQueue t) ∧ ((s.setProducer i p).InNum t ↔ s.InNum t) := by
  cases t with
  | producer k =>
    have hne : k ≠ i := fun heq => h (by rw [heq])
    simp only [State.InQueue, State.InNum, State.setProducer_of_ne s i p hne, and_self]
  | consumer k => exact ⟨Iff.rfl, Iff.rfl⟩

theorem places_setConsumer (s : State) (j : Nat) (c : Consumer) (t : Thread) (h : t ≠ .consumer j) :
    ((s.setConsumer j c).InQueue t ↔ s.InQueue t) ∧ ((s.setConsumer j c).InNum t ↔ s.InNum t) := by
  cases t with
  | producer k => exact ⟨Iff.rfl, Iff.rfl⟩
  | consumer k =>
    have hne : k ≠ j := fun heq => h (by rw [heq])
    simp only [State.InQueue, State.InNum, State.setConsumer_of_ne s j c hne, and_self]

/-- Each mutex is held by the thread in its section. -/
structure Locks (s : State) : Prop where
  queue : Owns s.queueLock s.InQueue
  num : Owns s.numLock s.InNum

/-- The producer stays inside or outside of the sections of `queue_p->lock`. -/
theorem inQueue_setProducer {p : Producer} (h : p.pc.InQueue ↔ (s.producers i).pc.InQueue) (t : Thread) :
    (s.setProducer i p).InQueue t ↔ s.InQueue t := by
  by_cases ht : t = .producer i
  · rw [ht, State.InQueue, State.setProducer_self]
    exact h
  · exact (places_setProducer s i p t ht).1

theorem inNum_setProducer {p : Producer} (h : p.pc.InNum ↔ (s.producers i).pc.InNum) (t : Thread) :
    (s.setProducer i p).InNum t ↔ s.InNum t := by
  by_cases ht : t = .producer i
  · rw [ht, State.InNum, State.setProducer_self]
    exact h
  · exact (places_setProducer s i p t ht).2

theorem inQueue_setConsumer {c : Consumer} (h : c.pc.InQueue ↔ (s.consumers j).pc.InQueue) (t : Thread) :
    (s.setConsumer j c).InQueue t ↔ s.InQueue t := by
  by_cases ht : t = .consumer j
  · rw [ht, State.InQueue, State.setConsumer_self]
    exact h
  · exact (places_setConsumer s j c t ht).1

theorem inNum_setConsumer {c : Consumer} (h : c.pc.InNum ↔ (s.consumers j).pc.InNum) (t : Thread) :
    (s.setConsumer j c).InNum t ↔ s.InNum t := by
  by_cases ht : t = .consumer j
  · rw [ht, State.InNum, State.setConsumer_self]
    exact h
  · exact (places_setConsumer s j c t ht).2

/-- A consumer that is created is in no section, before and after. -/
theorem Locks.born (h : Locks s) (hpc : (s.consumers j).pc = .unborn) : Locks (s.goConsumer j .lockQueue) :=
  ⟨h.queue.same (inQueue_setConsumer (by rw [hpc]; exact Iff.rfl)),
    h.num.same (inNum_setConsumer (by rw [hpc]; exact Iff.rfl))⟩

theorem locks_producer (h : Locks s) (hchild : ∀ j, (s.producers i).pc = .create → setup.child i = some j →
    (s.consumers j).pc = .unborn) (hm : ProducerMove setup i s t) : Locks t := by
  cases hm with
  | create hpc | done hpc | malloc hpc | add hpc | decrement hpc | join hpc =>
    exact ⟨h.queue.same (inQueue_setProducer (by rw [hpc]; exact Iff.rfl)),
      h.num.same (inNum_setProducer (by rw [hpc]; exact Iff.rfl))⟩
  | createChild hpc hj =>
    have hborn := h.born (hchild _ hpc hj)
    exact ⟨hborn.queue.same (inQueue_setProducer (by rw [State.goConsumer, State.setConsumer, hpc]; exact Iff.rfl)),
      hborn.num.same (inNum_setProducer (by rw [State.goConsumer, State.setConsumer, hpc]; exact Iff.rfl))⟩
  | lockQueue hpc hfree =>
    have hqueue := h.queue
    rw [hfree] at hqueue
    refine ⟨hqueue.acquire ?_ fun u hu => (places_setProducer s i _ u hu).1,
      h.num.same (inNum_setProducer (by rw [hpc]; exact Iff.rfl))⟩
    rw [State.goProducer, State.InQueue, State.setProducer_self]
    trivial
  | unlockQueue hpc =>
    refine ⟨h.queue.release (t := .producer i) ?_ ?_ fun u hu => (places_setProducer s i _ u hu).1,
      h.num.same (inNum_setProducer (by rw [hpc]; exact Iff.rfl))⟩
    · rw [State.InQueue, hpc]
      trivial
    · rw [State.goProducer, State.InQueue, State.setProducer_self]
      exact id
  | lockNum hpc hfree =>
    have hnum := h.num
    rw [hfree] at hnum
    refine ⟨h.queue.same (inQueue_setProducer (by rw [hpc]; exact Iff.rfl)),
      hnum.acquire ?_ fun u hu => (places_setProducer s i _ u hu).2⟩
    rw [State.goProducer, State.InNum, State.setProducer_self]
    trivial
  | unlockNum hpc =>
    refine ⟨h.queue.same (inQueue_setProducer (by rw [hpc]; exact Iff.rfl)),
      h.num.release (t := .producer i) ?_ ?_ fun u hu => (places_setProducer s i _ u hu).2⟩
    · rw [State.InNum, hpc]
      trivial
    · rw [State.goProducer, State.InNum, State.setProducer_self]
      exact id

theorem locks_consumer (h : Locks s) (hm : ConsumerMove j s t) : Locks t := by
  cases hm with
  | goOn hpc | exit hpc | remove hpc | print hpc | free hpc | increment hpc =>
    exact ⟨h.queue.same (inQueue_setConsumer (by rw [hpc]; exact Iff.rfl)),
      h.num.same (inNum_setConsumer (by rw [hpc]; exact Iff.rfl))⟩
  | lockQueue hpc hfree =>
    have hqueue := h.queue
    rw [hfree] at hqueue
    refine ⟨hqueue.acquire ?_ fun u hu => (places_setConsumer s j _ u hu).1,
      h.num.same (inNum_setConsumer (by rw [hpc]; exact Iff.rfl))⟩
    rw [State.goConsumer, State.InQueue, State.setConsumer_self]
    trivial
  | unlockQueue hpc | tryAgain hpc | exitQueue hpc =>
    refine ⟨h.queue.release (t := .consumer j) ?_ ?_ fun u hu => (places_setConsumer s j _ u hu).1,
      h.num.same (inNum_setConsumer (by rw [hpc]; exact Iff.rfl))⟩
    · rw [State.InQueue, hpc]
      trivial
    · rw [State.goConsumer, State.InQueue, State.setConsumer_self]
      exact id
  | lockNum hpc hfree =>
    have hnum := h.num
    rw [hfree] at hnum
    refine ⟨h.queue.same (inQueue_setConsumer (by rw [hpc]; exact Iff.rfl)),
      hnum.acquire ?_ fun u hu => (places_setConsumer s j _ u hu).2⟩
    rw [State.goConsumer, State.InNum, State.setConsumer_self]
    trivial
  | unlockNum hpc | exitNum hpc =>
    refine ⟨h.queue.same (inQueue_setConsumer (by rw [hpc]; exact Iff.rfl)),
      h.num.release (t := .consumer j) ?_ ?_ fun u hu => (places_setConsumer s j _ u hu).2⟩
    · rw [State.InNum, hpc]
      trivial
    · rw [State.goConsumer, State.InNum, State.setConsumer_self]
      exact id

/-! ## The consumers that a producer creates -/

/-- A consumer has not been created while its producer has not created it. -/
def Children (setup : Setup) (s : State) : Prop :=
  ∀ j, (s.consumers j).pc = .unborn ↔
    ∃ i < setup.numProducers, setup.child i = some j ∧ (s.producers i).pc = .create

theorem create_setProducer {p : Producer} (hold : (s.producers i).pc ≠ .create) (hnew : p.pc ≠ .create) (k : Nat) :
    ((s.setProducer i p).producers k).pc = .create ↔ (s.producers k).pc = .create := by
  by_cases hk : k = i
  · rw [hk, State.setProducer_self]
    exact iff_of_false hnew hold
  · rw [State.setProducer_of_ne s i p hk]

theorem Children.setProducer (h : Children setup s) {p : Producer} (hold : (s.producers i).pc ≠ .create)
    (hnew : p.pc ≠ .create) : Children setup (s.setProducer i p) := by
  intro j
  have hsame := create_setProducer hold hnew
  simp only [hsame]
  exact h j

theorem Children.setConsumer (h : Children setup s) {c : Consumer} (hold : (s.consumers j).pc ≠ .unborn)
    (hnew : c.pc ≠ .unborn) : Children setup (s.setConsumer j c) := by
  intro k
  by_cases hk : k = j
  · subst hk
    rw [State.setConsumer_self]
    exact iff_of_false hnew fun hex => hold ((h k).mpr hex)
  · rw [State.setConsumer_of_ne s j c hk]
    exact h k

theorem children_producer (h : Children setup s) (hi : i < setup.numProducers) (hm : ProducerMove setup i s t) :
    Children setup t := by
  -- a producer before `pthread_create` goes on
  have hgone {p : Producer} (hp : p.pc ≠ .create) (hpc : (s.producers i).pc = .create) (k : Nat) :
      ((s.setProducer i p).producers k).pc = .create ↔ k ≠ i ∧ (s.producers k).pc = .create := by
    by_cases hk : k = i
    · rw [hk, State.setProducer_self]
      exact iff_of_false hp fun hne => hne.1 rfl
    · rw [State.setProducer_of_ne s i p hk]
      exact (and_iff_right hk).symm
  cases hm with
  | create hpc hnone =>
    intro j
    refine (h j).trans (exists_congr fun k => and_congr_right fun _ => and_congr_right fun hk => ?_)
    refine Iff.trans ?_ (hgone (p := { s.producers i with pc := .loop }) nofun hpc k).symm
    refine (and_iff_right ?_).symm
    rintro rfl
    rw [hnone] at hk
    cases hk
  | createChild hpc hj =>
    rename_i j
    intro k
    have hsame (i' : Nat) := hgone (p := { s.producers i with pc := .loop }) nofun hpc i'
    by_cases hk : k = j
    · subst hk
      refine iff_of_false ?_ ?_
      · show ((s.goConsumer k .lockQueue).consumers k).pc ≠ .unborn
        rw [State.goConsumer, State.setConsumer_self]
        nofun
      · rintro ⟨i', hi', hchild, hcreate⟩
        exact ((hsame i').mp hcreate).1 (setup.child_inj hi' hi hchild hj)
    · show ((s.goConsumer j .lockQueue).consumers k).pc = .unborn ↔ _
      rw [State.goConsumer, State.setConsumer_of_ne s j _ hk, h k]
      refine exists_congr fun i' => and_congr_right fun _ => and_congr_right fun hchild => ?_
      refine Iff.trans ?_ (hsame i').symm
      refine (and_iff_right ?_).symm
      rintro rfl
      exact hk (Option.some.inj (hchild.symm.trans hj))
  | done hpc | malloc hpc | lockQueue hpc | add hpc | unlockQueue hpc | lockNum hpc | decrement hpc | unlockNum hpc
  | join hpc =>
    exact h.setProducer (by rw [hpc]; nofun) nofun

theorem children_consumer (h : Children setup s) (hm : ConsumerMove j s t) : Children setup t := by
  cases hm with
  | lockQueue hpc | lockNum hpc | goOn hpc | exit hpc | unlockNum hpc | remove hpc | unlockQueue hpc | tryAgain hpc
  | print hpc | free hpc | increment hpc | exitNum hpc | exitQueue hpc =>
    exact h.setConsumer (by rw [hpc]; nofun) nofun

/-! ## The number of producers -/

/-- 1 for a producer that has not decremented `g_num_prod`. -/
def ProducerPc.running : ProducerPc → Nat
  | .unlockNum | .join | .returned => 0
  | .create | .loop | .lockQueue _ | .add _ | .unlockQueue | .lockNum | .decrement => 1

def Counted (setup : Setup) (s : State) : Prop :=
  s.numProd = (∑ i ∈ range setup.numProducers, (s.producers i).pc.running : Nat)

theorem Counted.setProducer (h : Counted setup s) {p : Producer}
    (hp : p.pc.running = (s.producers i).pc.running) : Counted setup (s.setProducer i p) := by
  refine h.trans (congrArg Nat.cast (sum_congr rfl fun k _ => ?_))
  by_cases hk : k = i
  · rw [hk, State.setProducer_self, hp]
  · rw [State.setProducer_of_ne s i p hk]

theorem counted_producer (h : Counted setup s) (hi : i < setup.numProducers) (hm : ProducerMove setup i s t) :
    Counted setup t := by
  cases hm with
  | decrement hpc =>
    have hsum : ∑ k ∈ range setup.numProducers, ((s.goProducer i .unlockNum).producers k).pc.running +
        (s.producers i).pc.running = ∑ k ∈ range setup.numProducers, (s.producers k).pc.running +
        ((s.goProducer i .unlockNum).producers i).pc.running :=
      sum_change (f := fun k => (s.producers k).pc.running)
        (g := fun k => ((s.goProducer i .unlockNum).producers k).pc.running) (mem_range.mpr hi) fun k hk =>
        congrArg (fun p : Producer => p.pc.running) (State.setProducer_of_ne s i _ hk)
    have hnew : ((s.goProducer i .unlockNum).producers i).pc.running = 0 := by
      rw [State.goProducer, State.setProducer_self]
      rfl
    have hold : (s.producers i).pc.running = 1 := by
      rw [hpc]
      rfl
    rw [hnew, hold] at hsum
    show s.numProd - 1 =
      ((∑ k ∈ range setup.numProducers, ((s.goProducer i .unlockNum).producers k).pc.running : Nat) : Int)
    rw [h]
    omega
  | create hpc | createChild hpc | done hpc | malloc hpc | lockQueue hpc | add hpc | unlockQueue hpc | lockNum hpc
  | unlockNum hpc | join hpc =>
    exact h.setProducer (by rw [hpc]; rfl)

theorem counted_consumer (h : Counted setup s) (hm : ConsumerMove j s t) : Counted setup t := by
  cases hm <;> exact h

/-- When the number is 0, every producer has decremented it. -/
theorem Counted.running_eq_zero (h : Counted setup s) (hzero : s.numProd = 0) (hi : i < setup.numProducers) :
    (s.producers i).pc.running = 0 := by
  have hsum : ∑ k ∈ range setup.numProducers, (s.producers k).pc.running = 0 :=
    Int.ofNat_eq_zero.mp (h.symm.trans hzero)
  exact sum_eq_zero_iff.mp hsum i (mem_range.mpr hi)

/-! ## The end of the loop of a consumer -/

/-- The consumer has left its loop. -/
def ConsumerPc.Exits : ConsumerPc → Prop
  | .exitNum | .exitQueue | .returned => True
  | _ => False

/-- The queue is empty and all producers have ended, if a consumer has left its loop. -/
def Ended (s : State) : Prop := (∃ j, (s.consumers j).pc.Exits) → s.queue.front = none ∧ s.numProd = 0

/-- From then on producers only return. -/
theorem ended_producer (h : Ended s) (hcounted : Counted setup s) (hi : i < setup.numProducers)
    (hm : ProducerMove setup i s t) : Ended t := by
  have hidle (hex : ∃ j, (s.consumers j).pc.Exits) : (s.producers i).pc.running = 0 :=
    hcounted.running_eq_zero (h hex).2 hi
  cases hm with
  | createChild hpc =>
    rename_i j _
    rintro ⟨k, hk⟩
    have hex : ∃ j, (s.consumers j).pc.Exits := by
      by_cases hkj : k = j
      · subst hkj
        have hborn : ((s.goConsumer k .lockQueue).consumers k).pc.Exits := hk
        rw [State.goConsumer, State.setConsumer_self] at hborn
        cases hborn
      · have hother : ((s.goConsumer j .lockQueue).consumers k).pc.Exits := hk
        rw [State.goConsumer, State.setConsumer_of_ne s j _ hkj] at hother
        exact ⟨k, hother⟩
    have hzero := hidle hex
    rw [hpc] at hzero
    cases hzero
  | add hpc | decrement hpc =>
    intro hex
    have hzero := hidle hex
    rw [hpc] at hzero
    cases hzero
  | create | done | malloc | lockQueue | unlockQueue | lockNum | unlockNum | join => exact h

/-- A step of a consumer inside the loop or behind it. -/
theorem Ended.setConsumer (h : Ended s) {c : Consumer} (hexits : c.pc.Exits → (s.consumers j).pc.Exits) :
    Ended (s.setConsumer j c) := by
  rintro ⟨k, hk⟩
  by_cases hkj : k = j
  · subst hkj
    rw [State.setConsumer_self] at hk
    exact h ⟨k, hexits hk⟩
  · rw [State.setConsumer_of_ne s j c hkj] at hk
    exact h ⟨k, hk⟩

theorem ended_consumer (h : Ended s) (hcounted : Counted setup s) (hm : ConsumerMove j s t) : Ended t := by
  cases hm with
  | exit hpc hfront hnum =>
    refine fun _ => ⟨hfront, Int.le_antisymm hnum ?_⟩
    show 0 ≤ s.numProd
    rw [hcounted]
    exact Int.natCast_nonneg _
  | remove hpc hremove =>
    rintro ⟨k, hk⟩
    obtain ⟨hfront, hnum⟩ := h.setConsumer (j := j) (c := { s.consumers j with pc := .unlockQueue _ }) nofun ⟨k, hk⟩
    have hfront' : s.queue.front = none := hfront
    rw [removeNode, hfront'] at hremove
    obtain ⟨-, rfl⟩ := Prod.mk.inj (Option.some.inj hremove)
    exact ⟨hfront, hnum⟩
  | exitNum hpc | exitQueue hpc => exact h.setConsumer fun _ => by rw [hpc]; trivial
  | lockQueue | lockNum | goOn | unlockNum | unlockQueue | tryAgain | print | free | increment =>
    exact h.setConsumer nofun

end AdvancedOS.Prelab
