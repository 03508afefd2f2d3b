import Mathlib.Algebra.Order.BigOperators.Group.Finset
import AdvancedOS.Prelab.HandOver

/-!
# The hand-over comes to an end

A consumer that finds the queue empty while a producer is still running tries again, as often as it likes. Every
other step brings the end nearer.

* `Owned`: a node that is allocated is in the queue or in the hand of a thread, so that none is lost.
* `State.work`: a measure of what is left to be done; `Inv.goes_on`: some step makes it less.
* `hand_over_completes`: from any state that is reached all threads can return, and then all nodes have been freed.
-/

namespace AdvancedOS.Prelab

open Lts LinkedList Mutex Potential Finset

variable {setup : Setup} {i j : Nat} {s t : State} {nodes : List Nat}

/-- All threads have returned. -/
structure State.Returned (setup : Setup) (s : State) : Prop where
  producers : ∀ i < setup.numProducers, (s.producers i).pc = .returned
  consumers : ∀ j < setup.numConsumers, (s.consumers j).pc = .returned

/-! ## No node is lost -/

def Owned (s : State) : Prop :=
  ∀ nodes, Linked s.queue.heap s.queue.front s.queue.back nodes →
    ∀ a, (s.queue.heap a).isSome → a ∈ nodes ∨ ∃ u, s.hand u = some a

/-- The queue stays, and so does what is in the hands. -/
theorem Owned.same (h : Owned s) (hqueue : t.queue = s.queue) (hhand : ∀ u a, s.hand u = some a → t.hand u = some a) :
    Owned t := by
  intro nodes hlinked a ha
  rw [hqueue] at hlinked ha
  rcases h nodes hlinked a ha with hmem | ⟨u, hu⟩
  · exact .inl hmem
  · exact .inr ⟨u, hhand u a hu⟩

theorem Owned.setProducer (h : Owned s) {p : Producer} (hp : p.hand = (s.producers i).hand) :
    Owned (s.setProducer i p) := by
  refine h.same rfl fun u a hu => ?_
  by_cases hui : u = .producer i
  · subst hui
    rwa [hand_setProducer_self, hp]
  · rwa [hand_setProducer_of_ne p hui]

theorem Owned.setConsumer (h : Owned s) {c : Consumer} (hc : c.hand = (s.consumers j).hand) :
    Owned (s.setConsumer j c) := by
  refine h.same rfl fun u a hu => ?_
  by_cases huj : u = .consumer j
  · subst huj
    rwa [hand_setConsumer_self, hc]
  · rwa [hand_setConsumer_of_ne c huj]

theorem owned_producer (h : Owned s) (hstored : Stored setup s nodes)
    (hchild : ∀ j, (s.producers i).pc = .create → setup.child i = some j → (s.consumers j).pc = .unborn)
    (hm : ProducerMove setup i s t) : Owned t := by
  cases hm with
  | createChild hpc hj =>
    have hborn := hchild _ hpc hj
    refine Owned.setProducer (h.setConsumer ?_) ?_
    · rw [Consumer.hand, Consumer.hand, hborn]
    · show Producer.hand _ = (s.producers i).hand
      rw [Producer.hand, Producer.hand, hpc]
  | @malloc addr prev c rest hpc hrest hfree =>
    have hnot : addr ∉ nodes := fun hmem => by
      have hsome := hstored.linked.allocated addr hmem
      rw [hfree] at hsome
      cases hsome
    intro nodes' hlinked' a ha
    have hlinked : Linked (Function.update s.queue.heap addr (some ⟨none, prev, c⟩)) s.queue.front s.queue.back
        nodes :=
      hstored.linked.congr fun b hb => Function.update_of_ne (fun heq => hnot (by rwa [← heq])) _ _
    obtain rfl := hlinked.chain.unique hlinked'.chain
    by_cases hab : a = addr
    · subst hab
      exact .inr ⟨.producer i, hand_setProducer_self _⟩
    · replace ha : (Function.update s.queue.heap addr (some ⟨none, prev, c⟩) a).isSome := ha
      rw [Function.update_of_ne hab] at ha
      rcases h nodes hstored.linked a ha with hmem | ⟨u, hu⟩
      · exact .inl hmem
      · have hne : u ≠ .producer i := fun heq => by
          rw [heq, State.hand, Producer.hand, hpc] at hu
          cases hu
        exact .inr ⟨u, (hand_setProducer_of_ne _ hne).trans hu⟩
  | @add node new queue hpc hnew hadd =>
    have hnode : (s.producers i).hand = some node := by rw [Producer.hand, hpc]
    obtain ⟨prev, val, hheap⟩ := hstored.new i node hnode
    obtain ⟨r, hr, hlinked, hval, -⟩ := addNode_spec hstored.linked hheap (hstored.unlinked (.producer i) node hnode)
    obtain rfl := Option.some.inj (hadd.symm.trans hr)
    intro nodes' hlinked' a ha
    obtain rfl := hlinked.chain.unique hlinked'.chain
    rcases h nodes hstored.linked a (isSome_of_val (hval a).symm ha) with hmem | ⟨u, hu⟩
    · exact .inl (List.mem_append_left _ hmem)
    · by_cases hne : u = .producer i
      · subst hne
        obtain rfl := Option.some.inj (hnode.symm.trans hu)
        exact .inl (List.mem_append_right _ (List.mem_singleton_self _))
      · exact .inr ⟨u, (hand_setProducer_of_ne _ hne).trans hu⟩
  | lockQueue hpc | create hpc | done hpc | unlockQueue hpc | lockNum hpc | decrement hpc | unlockNum hpc
  | join hpc =>
    refine Owned.setProducer (h.same rfl fun _ _ hu => hu) ?_
    show Producer.hand _ = (s.producers i).hand
    rw [Producer.hand, Producer.hand, hpc]

theorem owned_consumer (h : Owned s) (hstored : Stored setup s nodes) (hm : ConsumerMove j s t) : Owned t := by
  cases hm with
  | @remove node queue hpc hremove =>
    intro nodes' hlinked' a ha
    have hothers {u : Thread} (hu : s.hand u = some a) : ∃ u, State.hand ({ s with
        queue, removed := s.removed ++ removal j s.queue node }.goConsumer j (.unlockQueue node)) u = some a := by
      have hne : u ≠ .consumer j := fun heq => by
        rw [heq, State.hand, Consumer.hand, hpc] at hu
        cases hu
      exact ⟨u, (hand_setConsumer_of_ne _ hne).trans hu⟩
    cases nodes with
    | nil =>
      obtain ⟨-, rfl⟩ := Prod.mk.inj (Option.some.inj ((removeNode_nil hstored.linked).symm.trans hremove))
      rcases h nodes' hlinked' a ha with hmem | ⟨u, hu⟩
      · exact .inl hmem
      · exact .inr (hothers hu)
    | cons b rest =>
      obtain ⟨r, hr, hlinked, hval, -⟩ := removeNode_spec hstored.linked
      obtain ⟨rfl, rfl⟩ := Prod.mk.inj (Option.some.inj (hremove.symm.trans hr))
      obtain rfl := hlinked.chain.unique hlinked'.chain
      rcases h (b :: rest) hstored.linked a (isSome_of_val (hval a).symm ha) with hmem | ⟨u, hu⟩
      · rcases List.mem_cons.mp hmem with rfl | hmem
        · exact .inr ⟨.consumer j, hand_setConsumer_self _⟩
        · exact .inl hmem
      · exact .inr (hothers hu)
  | @free node hpc hsome =>
    have hhand : s.hand (.consumer j) = some node := by rw [State.hand, Consumer.hand, hpc]
    intro nodes' hlinked' a ha
    have hlinked : Linked (Function.update s.queue.heap node none) s.queue.front s.queue.back nodes :=
      hstored.linked.congr fun b hb =>
        Function.update_of_ne (fun heq => hstored.unlinked _ node hhand (by rwa [← heq])) _ _
    obtain rfl := hlinked.chain.unique hlinked'.chain
    replace ha : (Function.update s.queue.heap node none a).isSome := ha
    by_cases hab : a = node
    · rw [hab, Function.update_self] at ha
      cases ha
    · rw [Function.update_of_ne hab] at ha
      rcases h nodes hstored.linked a ha with hmem | ⟨u, hu⟩
      · exact .inl hmem
      · have hne : u ≠ .consumer j := fun heq => hab (Option.some.inj (hu.symm.trans (heq ▸ hhand)))
        exact .inr ⟨u, (hand_setConsumer_of_ne _ hne).trans hu⟩
  | lockQueue hpc | lockNum hpc | goOn hpc | exit hpc | unlockNum hpc | unlockQueue hpc | tryAgain hpc | print hpc
  | increment hpc | exitNum hpc | exitQueue hpc =>
    refine Owned.setConsumer (h.same rfl fun _ _ hu => hu) ?_
    show Consumer.hand _ = (s.consumers j).hand
    rw [Consumer.hand, Consumer.hand, hpc]

/-! ## What is left to be done -/

/-- How far a producer is from its end, its characters apart. -/
def ProducerPc.left : ProducerPc → Nat
  | .create => 7
  | .loop => 6
  | .lockQueue _ => 9
  | .add _ => 8
  | .unlockQueue => 7
  | .lockNum => 5
  | .decrement => 4
  | .unlockNum => 3
  | .join => 2
  | .returned => 0

def Producer.left (p : Producer) : Nat := 4 * p.rest.length + p.pc.left

/-- How far a consumer is from its end, as long as the queue has nodes (`more`) or the producers have ended (`ended`).
Otherwise it has nothing to do, and is at rest before the lock. -/
def ConsumerPc.left (more ended : Bool) : ConsumerPc → Nat
  | .unborn => 0
  | .lockQueue => if more || ended then 20 else 0
  | .lockNum => 19
  | .check => 18
  | .unlockNum => if ended && !more then 27 else 17
  | .remove => if ended && !more then 26 else 16
  | .unlockQueue none => if more || ended then 25 else 15
  | .unlockQueue (some _) => 24
  | .print _ => 23
  | .free _ => 22
  | .increment => 21
  | .exitNum => 2
  | .exitQueue => 1
  | .returned => 0

namespace State

def more (s : State) : Bool := s.queue.front.isSome

def ended (s : State) : Bool := decide (s.numProd ≤ 0)

def producersLeft (setup : Setup) (s : State) : Nat := ∑ i ∈ range setup.numProducers, (s.producers i).left

def consumersLeft (setup : Setup) (s : State) : Nat :=
  ∑ j ∈ range setup.numConsumers, (s.consumers j).pc.left s.more s.ended

/-- The number of nodes in the queue. -/
def waiting (s : State) : Nat := s.enqueued.length - s.removed.length

/-- A node in the queue outweighs what all consumers have to do at once, and a step of a producer outweighs a node
as well. -/
def work (setup : Setup) (s : State) : Nat :=
  2 * (27 * setup.numConsumers + 1) * s.producersLeft setup + (27 * setup.numConsumers + 1) * s.waiting +
    s.consumersLeft setup

end State

theorem left_le (more ended : Bool) (pc : ConsumerPc) : pc.left more ended ≤ 27 := by
  unfold ConsumerPc.left
  split <;> (try split) <;> omega

theorem consumersLeft_le (setup : Setup) (s : State) : s.consumersLeft setup ≤ 27 * setup.numConsumers := by
  calc s.consumersLeft setup ≤ ∑ j ∈ range setup.numConsumers, 27 := sum_le_sum fun j _ => left_le _ _ _
    _ = 27 * setup.numConsumers := by rw [sum_const_nat fun _ _ => rfl, card_range, Nat.mul_comm]

/-- A step of a producer, which adds one node at most. -/
theorem work_lt_of_producers (hproducers : t.producersLeft setup < s.producersLeft setup)
    (hwaiting : t.waiting ≤ s.waiting + 1) : t.work setup < s.work setup := by
  have hle := consumersLeft_le setup t
  have hmul := Nat.mul_le_mul_left (2 * (27 * setup.numConsumers + 1)) hproducers
  have hmul' := Nat.mul_le_mul_left (27 * setup.numConsumers + 1) hwaiting
  rw [Nat.mul_succ] at hmul
  rw [Nat.mul_succ] at hmul'
  unfold State.work
  omega

/-- The removal of a node. -/
theorem work_lt_of_waiting (hproducers : t.producersLeft setup = s.producersLeft setup)
    (hwaiting : t.waiting < s.waiting) : t.work setup < s.work setup := by
  have hle := consumersLeft_le setup t
  have hmul := Nat.mul_le_mul_left (27 * setup.numConsumers + 1) hwaiting
  rw [Nat.mul_succ] at hmul
  unfold State.work
  rw [hproducers]
  omega

theorem producersLeft_setProducer (hi : i < setup.numProducers) {p : Producer}
    (hless : p.left < (s.producers i).left) :
    (s.setProducer i p).producersLeft setup < s.producersLeft setup := by
  have hsum := sum_change (f := fun k => (s.producers k).left) (g := fun k => ((s.setProducer i p).producers k).left)
    (mem_range.mpr hi) fun k hk => congrArg Producer.left (State.setProducer_of_ne s i p hk)
  simp only [State.setProducer_self] at hsum
  unfold State.producersLeft
  omega

/-- A consumer goes on, and the queue and the number of producers stay. -/
theorem work_setConsumer (hj : j < setup.numConsumers) {c : Consumer}
    (hless : c.pc.left s.more s.ended < (s.consumers j).pc.left s.more s.ended) :
    (s.setConsumer j c).work setup < s.work setup := by
  have hsum := sum_change (f := fun k => (s.consumers k).pc.left s.more s.ended)
    (g := fun k => ((s.setConsumer j c).consumers k).pc.left s.more s.ended) (mem_range.mpr hj) fun k hk =>
    congrArg (fun c : Consumer => c.pc.left s.more s.ended) (State.setConsumer_of_ne s j c hk)
  simp only [State.setConsumer_self] at hsum
  have hconsumers : (s.setConsumer j c).consumersLeft setup < s.consumersLeft setup := by
    show ∑ k ∈ range setup.numConsumers, ((s.setConsumer j c).consumers k).pc.left s.more s.ended < _
    unfold State.consumersLeft
    omega
  show _ + _ + (s.setConsumer j c).consumersLeft setup < _ + _ + s.consumersLeft setup
  exact Nat.add_lt_add_left hconsumers _

theorem work_lt_producer (hi : i < setup.numProducers) (hm : ProducerMove setup i s t) :
    t.work setup < s.work setup := by
  have hleft (pc : ProducerPc) (hpc : (s.producers i).pc = pc) :
      (s.producers i).left = 4 * (s.producers i).rest.length + pc.left := by rw [← hpc]; rfl
  cases hm with
  | @malloc addr prev c rest hpc hrest _ =>
    refine work_lt_of_producers (producersLeft_setProducer hi ?_) (Nat.le_succ _)
    show 4 * rest.length + 9 < (s.producers i).left
    rw [hleft _ hpc, hrest, List.length_cons]
    show _ < _ + 6
    omega
  | @add node new queue hpc _ _ =>
    refine work_lt_of_producers (producersLeft_setProducer hi ?_) ?_
    · show _ < (s.producers i).left
      rw [hleft _ hpc]
      exact Nat.lt_succ_self _
    · show (s.enqueued ++ [(i, new.val)]).length - s.removed.length ≤ s.enqueued.length - s.removed.length + 1
      rw [List.length_append, List.length_singleton]
      omega
  | create hpc | createChild hpc | done hpc | lockQueue hpc | unlockQueue hpc | lockNum hpc | decrement hpc
  | unlockNum hpc | join hpc =>
    refine work_lt_of_producers (producersLeft_setProducer hi ?_) (Nat.le_succ _)
    show _ < (s.producers i).left
    rw [hleft _ hpc]
    exact Nat.add_lt_add_left (by simp [ProducerPc.left]) _

/-- Every step of a consumer, unless it takes the lock to find nothing. -/
theorem work_lt_consumer (hstored : Stored setup s nodes) (hj : j < setup.numConsumers)
    (hbusy : (s.consumers j).pc = .lockQueue → (s.more || s.ended) = true) (hm : ConsumerMove j s t) :
    t.work setup < s.work setup := by
  cases hm with
  | lockQueue hpc =>
    refine work_setConsumer hj ?_
    rw [hpc]
    show 19 < if s.more || s.ended then 20 else 0
    rw [if_pos (hbusy hpc)]
    exact Nat.lt_succ_self 19
  | goOn hpc hmore =>
    refine work_setConsumer hj ?_
    rw [hpc]
    have hspin : (s.ended && !s.more) = false := by
      rcases hmore with hmore | hmore
      · simp [State.more, Option.isSome_iff_ne_none.mpr hmore]
      · simp [State.ended, Int.not_le.mpr hmore]
    simp [ConsumerPc.left, hspin]
  | @remove node queue hpc hremove =>
    cases nodes with
    | nil =>
      obtain ⟨rfl, rfl⟩ := Prod.mk.inj (Option.some.inj ((removeNode_nil hstored.linked).symm.trans hremove))
      have hfront : s.more = false := by rw [State.more, hstored.linked.front_none_iff.mpr rfl]; rfl
      have hless : (s.goConsumer j (.unlockQueue none)).work setup < s.work setup := by
        refine work_setConsumer hj ?_
        rw [hpc, hfront]
        cases s.ended <;> simp [ConsumerPc.left]
      simpa [removal] using hless
    | cons a rest =>
      obtain ⟨r, hr, -, -, -⟩ := removeNode_spec hstored.linked
      obtain ⟨rfl, rfl⟩ := Prod.mk.inj (Option.some.inj (hremove.symm.trans hr))
      obtain ⟨first, hfirst⟩ := Option.isSome_iff_exists.mp (hstored.linked.allocated a List.mem_cons_self)
      refine work_lt_of_waiting rfl ?_
      have hlength := congrArg List.length hstored.order
      rw [List.length_append, List.length_map, List.length_map] at hlength
      have hvals : vals s.queue.heap (a :: rest) = first.val :: vals s.queue.heap rest := by simp [vals, hfirst]
      rw [hvals, List.length_cons] at hlength
      have hremoval : removal j s.queue (some a) = [(j, first.val)] := by simp [removal, hfirst]
      show s.enqueued.length - (s.removed ++ removal j s.queue (some a)).length <
        s.enqueued.length - s.removed.length
      rw [hremoval, List.length_append, List.length_singleton]
      omega
  | lockNum hpc | exit hpc | unlockNum hpc | unlockQueue hpc | tryAgain hpc | print hpc | free hpc | increment hpc
  | exitNum hpc | exitQueue hpc =>
    refine work_setConsumer hj ?_
    rw [hpc]
    show ConsumerPc.left s.more s.ended _ < ConsumerPc.left s.more s.ended _
    cases s.more <;> cases s.ended <;> simp [ConsumerPc.left]

/-! ## Some step brings the end nearer -/

/-- While some thread has not returned, one can go on that has something to do. -/
theorem Inv.busy_can_go (h : Inv setup s) (hleft : ¬ s.Returned setup) :
    ∃ u, CanGo setup s u ∧ ∀ j, u = .consumer j → (s.consumers j).pc = .lockQueue → (s.more || s.ended) = true := by
  by_cases hended : s.ended = true
  · have hwaits : (∃ i < setup.numProducers, (s.producers i).pc ≠ .returned) ∨
        ∃ j < setup.numConsumers, (s.consumers j).pc ≠ .returned := by
      by_contra hnone
      push Not at hnone
      exact hleft ⟨hnone.1, hnone.2⟩
    obtain ⟨u, hgo⟩ := h.can_go hwaits
    exact ⟨u, hgo, fun j _ _ => by rw [hended, Bool.or_true]⟩
  · by_cases hheld : s.queueLock ≠ none ∨ s.numLock ≠ none
    · obtain ⟨u, hlock, hgo⟩ := h.held_can_go hheld
      refine ⟨u, hgo, ?_⟩
      rintro j rfl hpc
      rcases hlock with hqueue | hnum
      · have hin := (h.locks.queue _).mp hqueue
        rw [State.InQueue, hpc] at hin
        cases hin
      · have hin := (h.locks.num _).mp hnum
        rw [State.InNum, hpc] at hin
        cases hin
    · -- some producer is still running, and no mutex keeps it
      have hpos : ∑ i ∈ range setup.numProducers, (s.producers i).pc.running ≠ 0 := by
        intro hzero
        have hnum : s.numProd = (0 : Nat) := hzero ▸ h.counted
        exact hended (by simp [State.ended, hnum])
      obtain ⟨i, hi, hrunning⟩ := exists_ne_zero_of_sum_ne_zero hpos
      obtain ⟨hqueue, hnum⟩ := not_or.mp hheld
      rcases h.producer_waits (mem_range.mp hi) with hgo | ⟨-, hlock⟩ | ⟨-, hlock⟩ | ⟨-, -, hpc, -⟩ | hpc
      · exact ⟨_, hgo, fun j hj => by cases hj⟩
      · exact absurd hlock hqueue
      · exact absurd hlock hnum
      · exact absurd (by rw [hpc]; rfl) hrunning
      · exact absurd (by rw [hpc]; rfl) hrunning

theorem Inv.work_lt (h : Inv setup s) {a : Action} (hs : (system setup).next a s = some t)
    (hbusy : ∀ j, a.thread = .consumer j → (s.consumers j).pc = .lockQueue → (s.more || s.ended) = true) :
    t.work setup < s.work setup := by
  obtain ⟨nodes, hstored⟩ := h.stored
  cases a with
  | producer i malloc =>
    obtain ⟨hi, hs⟩ := Option.ite_none_right_eq_some.mp hs
    exact work_lt_producer hi (producerStep_move hs)
  | consumer j =>
    obtain ⟨hj, hs⟩ := Option.ite_none_right_eq_some.mp hs
    exact work_lt_consumer hstored hj (hbusy j rfl) (consumerStep_move hs)

theorem Inv.goes_on (h : Inv setup s) :
    s.Returned setup ∨ ∃ a t, True ∧ (system setup).next a s = some t ∧ t.work setup < s.work setup := by
  by_cases hreturned : s.Returned setup
  · exact .inl hreturned
  · obtain ⟨u, ⟨a, rfl, hsome⟩, hbusy⟩ := h.busy_can_go hreturned
    obtain ⟨t, hs⟩ := Option.isSome_iff_exists.mp hsome
    exact .inr ⟨a, t, trivial, hs, h.work_lt hs hbusy⟩

/-! ## The end is reached -/

theorem owned_reach (hr : Reach (system setup) s) : Owned s := by
  refine hr.invariant (I := Owned) (fun _ _ a ha => by cases ha) fun {s t a} hr h _ hs => ?_
  have hinv := inv_reach hr
  obtain ⟨nodes, hstored⟩ := hinv.stored
  cases a with
  | producer i malloc =>
    obtain ⟨hi, hs⟩ := Option.ite_none_right_eq_some.mp hs
    exact owned_producer h hstored (fun j hpc hj => (hinv.children j).mpr ⟨i, hi, hj, hpc⟩) (producerStep_move hs)
  | consumer j =>
    obtain ⟨-, hs⟩ := Option.ite_none_right_eq_some.mp hs
    exact owned_consumer h hstored (consumerStep_move hs)

/-- Nothing is in a hand any more. -/
theorem Inv.heap_eq_none (h : Inv setup s) (howned : Owned s) (hreturned : s.Returned setup) (a : Nat) :
    s.queue.heap a = none := by
  obtain ⟨nodes, hstored⟩ := h.stored
  obtain ⟨rfl, -, -⟩ := h.at_end hstored hreturned.producers hreturned.consumers
  by_contra hne
  rcases howned [] hstored.linked a (Option.isSome_iff_ne_none.mpr hne) with hmem | ⟨u, hu⟩
  · cases hmem
  · cases u with
    | producer i =>
      rw [State.hand, Producer.hand] at hu
      rcases Nat.lt_or_ge i setup.numProducers with hi | hi
      · rw [hreturned.producers i hi] at hu
        cases hu
      · rw [h.bounds.producers i hi] at hu
        cases hu
    | consumer j =>
      rw [State.hand, Consumer.hand] at hu
      rcases Nat.lt_or_ge j setup.numConsumers with hj | hj
      · rw [hreturned.consumers j hj] at hu
        cases hu
      · rw [h.bounds.consumers j hj] at hu
        cases hu

/-- Threads that have returned hold no mutex. -/
theorem Inv.unlocked (h : Inv setup s) (hreturned : s.Returned setup) :
    s.queueLock = none ∧ s.numLock = none := by
  have hin {u : Thread} : ¬ (s.InQueue u ∨ s.InNum u) := by
    intro hu
    rcases h.in_setup hu with ⟨i, hi, rfl⟩ | ⟨j, hj, rfl⟩
    · rw [State.InQueue, State.InNum, hreturned.producers i hi] at hu
      exact hu.elim id id
    · rw [State.InQueue, State.InNum, hreturned.consumers j hj] at hu
      exact hu.elim id id
  constructor
  · by_contra hne
    obtain ⟨u, hu⟩ := Option.ne_none_iff_exists'.mp hne
    exact hin (.inl ((h.locks.queue u).mp hu))
  · by_contra hne
    obtain ⟨u, hu⟩ := Option.ne_none_iff_exists'.mp hne
    exact hin (.inr ((h.locks.num u).mp hu))

/-- A history of one thread is its part. -/
theorem map_snd_eq_part {history : List (Nat × UInt8)} (h : ∀ k ≠ 0, part k history = []) :
    history.map Prod.snd = part 0 history := by
  induction history with
  | nil => rfl
  | cons x history ih =>
    obtain ⟨k, c⟩ := x
    have hcons (k' : Nat) : part k' ((k, c) :: history) = part k' [(k, c)] ++ part k' history :=
      part_append k' [(k, c)] history
    obtain rfl : k = 0 := by
      by_contra hk
      have hnil := h k hk
      rw [hcons, part_self] at hnil
      cases hnil
    rw [hcons, part_self, List.map_cons, ih fun k hk => ?_]
    · rfl
    · have hnil := h k hk
      rw [hcons] at hnil
      exact (List.append_eq_nil_iff.mp hnil).2

/-- From every state that is reached all threads can return, and when they have, every node has been freed. -/
theorem hand_over_completes (hr : Reach (system setup) s) :
    (∃ t, Reach { system setup with init := s } t ∧ t.Returned setup) ∧
      (s.Returned setup → ∀ a, s.queue.heap a = none) :=
  ⟨exists_final_via (fun h => (inv_reach h).goes_on) hr, (inv_reach hr).heap_eq_none (owned_reach hr)⟩

theorem hand_over_completes_one_producer : ∃ t, Reach (system oneProducer) t ∧ t.Returned oneProducer ∧
    ∀ a, t.queue.heap a = none := by
  obtain ⟨⟨t, ht, hreturned⟩, -⟩ := hand_over_completes (.init : Reach (system oneProducer) _)
  have hreach : Reach (system oneProducer) t := ReachVia.init.trans ht
  exact ⟨t, hreach, hreturned, (hand_over_completes hreach).2 hreturned⟩

end AdvancedOS.Prelab
