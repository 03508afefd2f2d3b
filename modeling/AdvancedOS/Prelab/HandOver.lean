import AdvancedOS.Prelab.Nodes

/-!
# The hand-over is exactly once

* `Inv`: what holds in every reachable state.
* `Inv.inNum_can_go`, `Inv.inQueue_can_go`: a thread in a section can go on, or it waits for one that can.
* `hand_over`: the list is well formed and nobody uses a node of another thread or a freed one; the
  characters are removed in the order in which they were enqueued; at the end all of them have been counted;
  and there is no deadlock.
-/

namespace AdvancedOS.Prelab

open Lts LinkedList Mutex Finset

variable {setup : Setup} {i j : Nat} {s t : State} {nodes : List Nat}

/-! ## The rest of the invariant -/

/-- The producer has left its loop. -/
def ProducerPc.Finished : ProducerPc → Prop
  | .lockNum | .decrement | .unlockNum | .join | .returned => True
  | .create | .loop | .lockQueue _ | .add _ | .unlockQueue => False

/-- The threads outside of the setup, what is left to be produced, and the memory that is left. -/
structure Bounds (setup : Setup) (s : State) : Prop where
  producers : ∀ i, setup.numProducers ≤ i → s.producers i = { pc := .create, rest := setup.chars i }
  consumers : ∀ j, setup.numConsumers ≤ j → s.consumers j = { pc := .lockQueue, count := 0, printed := [] }
  finished : ∀ i, (s.producers i).pc.Finished → (s.producers i).rest = []
  memory : ∃ bound, ∀ a, bound ≤ a → s.queue.heap a = none

structure Inv (setup : Setup) (s : State) : Prop where
  locks : Locks s
  children : Children setup s
  counted : Counted setup s
  ended : Ended s
  bounds : Bounds setup s
  stored : ∃ nodes, Stored setup s nodes

theorem Bounds.setProducer (h : Bounds setup s) (hi : i < setup.numProducers) {p : Producer}
    (hp : p.pc.Finished → p.rest = []) : Bounds setup (s.setProducer i p) where
  producers k hk := by
    rw [State.setProducer_of_ne s i p (Nat.ne_of_gt (Nat.lt_of_lt_of_le hi hk))]
    exact h.producers k hk
  consumers := h.consumers
  finished k hk := by
    by_cases hki : k = i
    · subst hki
      rw [State.setProducer_self] at hk ⊢
      exact hp hk
    · rw [State.setProducer_of_ne s i p hki] at hk ⊢
      exact h.finished k hk
  memory := h.memory

theorem Bounds.setConsumer (h : Bounds setup s) (hj : j < setup.numConsumers) (c : Consumer) :
    Bounds setup (s.setConsumer j c) where
  producers := h.producers
  consumers k hk := by
    rw [State.setConsumer_of_ne s j c (Nat.ne_of_gt (Nat.lt_of_lt_of_le hj hk))]
    exact h.consumers k hk
  finished := h.finished
  memory := h.memory

theorem Bounds.congr (h : Bounds setup s) (hproducers : t.producers = s.producers)
    (hconsumers : t.consumers = s.consumers) (hmemory : ∃ bound, ∀ a, bound ≤ a → t.queue.heap a = none) :
    Bounds setup t := by
  constructor
  · rw [hproducers]; exact h.producers
  · rw [hconsumers]; exact h.consumers
  · rw [hproducers]; exact h.finished
  · exact hmemory

/-- An operation that keeps the values keeps the memory that is left. -/
theorem memory_of_val {heap heap' : Heap Nat UInt8} (h : ∃ bound, ∀ a, bound ≤ a → heap a = none)
    (hval : ∀ a, (heap' a).map Node.val = (heap a).map Node.val) : ∃ bound, ∀ a, bound ≤ a → heap' a = none := by
  obtain ⟨bound, hbound⟩ := h
  refine ⟨bound, fun a ha => ?_⟩
  have hnone := hval a
  rw [hbound a ha] at hnone
  exact Option.map_eq_none_iff.mp hnone

theorem memory_update {heap : Heap Nat UInt8} (h : ∃ bound, ∀ a, bound ≤ a → heap a = none) (b : Nat)
    (node : Option (Node Nat UInt8)) : ∃ bound, ∀ a, bound ≤ a → Function.update heap b node a = none := by
  obtain ⟨bound, hbound⟩ := h
  refine ⟨max bound (b + 1), fun a ha => ?_⟩
  have hab : a ≠ b := by omega
  rw [Function.update_of_ne hab]
  exact hbound a (by omega)

theorem bounds_producer (h : Bounds setup s) (hstored : Stored setup s nodes) (hi : i < setup.numProducers)
    (hm : ProducerMove setup i s t) : Bounds setup t := by
  cases hm with
  | createChild hpc hj =>
    exact (h.setConsumer (setup.child_lt hi hj) { s.consumers _ with pc := .lockQueue }).setProducer hi False.elim
  | malloc hpc hrest hfree =>
    refine Bounds.setProducer ?_ hi False.elim
    exact h.congr rfl rfl (memory_update h.memory _ _)
  | @add node _ _ hpc hnew hadd =>
    have hhand : (s.producers i).hand = some node := by rw [Producer.hand, hpc]
    obtain ⟨prev, val, hnode⟩ := hstored.new i node hhand
    obtain ⟨r, hr, -, hval, -⟩ := addNode_spec hstored.linked hnode (hstored.unlinked (.producer i) node hhand)
    obtain rfl := Option.some.inj (hadd.symm.trans hr)
    refine Bounds.setProducer ?_ hi False.elim
    exact h.congr rfl rfl (memory_of_val h.memory hval)
  | done hpc hrest => exact h.setProducer hi fun _ => hrest
  | create hpc | lockQueue hpc | unlockQueue hpc =>
    refine Bounds.setProducer ?_ hi False.elim
    exact h.congr rfl rfl h.memory
  | lockNum hpc | decrement hpc | unlockNum hpc | join hpc =>
    refine Bounds.setProducer ?_ hi fun _ => h.finished i (by rw [hpc]; trivial)
    exact h.congr rfl rfl h.memory

theorem bounds_consumer (h : Bounds setup s) (hstored : Stored setup s nodes) (hj : j < setup.numConsumers)
    (hm : ConsumerMove j s t) : Bounds setup t := by
  cases hm with
  | remove hpc hremove =>
    refine Bounds.setConsumer ?_ hj _
    refine h.congr rfl rfl ?_
    cases nodes with
    | nil =>
      obtain ⟨-, rfl⟩ := Prod.mk.inj (Option.some.inj ((removeNode_nil hstored.linked).symm.trans hremove))
      exact h.memory
    | cons a rest =>
      obtain ⟨r, hr, -, hval, -⟩ := removeNode_spec hstored.linked
      obtain ⟨-, rfl⟩ := Prod.mk.inj (Option.some.inj (hremove.symm.trans hr))
      exact memory_of_val h.memory hval
  | free hpc =>
    refine Bounds.setConsumer ?_ hj _
    exact h.congr rfl rfl (memory_update h.memory _ _)
  | lockQueue | lockNum | goOn | exit | unlockNum | unlockQueue | tryAgain | print | increment | exitNum
  | exitQueue =>
    refine Bounds.setConsumer ?_ hj _
    exact h.congr rfl rfl h.memory

/-! ## The invariant in every run -/

theorem init_consumer (setup : Setup) (j : Nat) :
    (system setup).init.consumers j = ⟨.unborn, 0, []⟩ ∨ (system setup).init.consumers j = ⟨.lockQueue, 0, []⟩ := by
  show Consumer.mk (if setup.IsChild j then .unborn else .lockQueue) 0 [] = _ ∨
    Consumer.mk (if setup.IsChild j then .unborn else .lockQueue) 0 [] = _
  split
  · exact .inl rfl
  · exact .inr rfl

theorem init_hand (setup : Setup) (u : Thread) : (system setup).init.hand u = none := by
  cases u with
  | producer i => rfl
  | consumer j => rcases init_consumer setup j with h | h <;> rw [State.hand, h] <;> rfl

theorem inv_init : Inv setup (system setup).init where
  locks := by
    have hfree (u : Thread) : (none : Option Thread) ≠ some u := (Option.some_ne_none u).symm
    refine ⟨fun u => iff_of_false (hfree u) ?_, fun u => iff_of_false (hfree u) ?_⟩
    all_goals
      cases u with
      | producer i => exact id
      | consumer j =>
        rcases init_consumer setup j with h | h
        · simp [State.InQueue, State.InNum, h, ConsumerPc.InQueue, ConsumerPc.InNum]
        · simp [State.InQueue, State.InNum, h, ConsumerPc.InQueue, ConsumerPc.InNum]
  children j := by
    show (if setup.IsChild j then ConsumerPc.unborn else .lockQueue) = .unborn ↔ _
    by_cases hj : setup.IsChild j
    · rw [if_pos hj]
      obtain ⟨i, hi, hchild⟩ := hj
      exact iff_of_true rfl ⟨i, hi, hchild, rfl⟩
    · rw [if_neg hj]
      refine iff_of_false (by simp) ?_
      rintro ⟨i, hi, hchild, -⟩
      exact hj ⟨i, hi, hchild⟩
  counted := by
    show (setup.numProducers : Int) = _
    simp [system, ProducerPc.running]
  ended := by
    rintro ⟨j, hj⟩
    rcases init_consumer setup j with h | h <;> rw [h] at hj <;> cases hj
  bounds := by
    refine ⟨fun _ _ => rfl, fun j hj => ?_, fun _ => False.elim, ⟨0, fun _ _ => rfl⟩⟩
    have hno : ¬ setup.IsChild j := by
      rintro ⟨i, hi, hchild⟩
      exact absurd (setup.child_lt hi hchild) (Nat.not_lt.mpr hj)
    show Consumer.mk (if setup.IsChild j then .unborn else .lockQueue) 0 [] = _
    rw [if_neg hno]
  stored := by
    have hnone {u : Thread} {a : Nat} : ¬ (system setup).init.hand u = some a := by
      simp [init_hand]
    refine ⟨[], ⟨Linked.nil _, fun _ a h => absurd h (Option.some_ne_none a).symm, fun _ _ h => absurd h hnone, fun _ _ h => absurd h hnone,
      fun _ _ _ h => absurd h hnone, rfl, fun _ => rfl, fun j => ?_, fun j => ?_⟩⟩
    · rcases init_consumer setup j with h | h <;> rw [h] <;> rfl
    · rcases init_consumer setup j with h | h <;> rw [h] <;> rfl

theorem inv_step (h : Inv setup s) {a : Action} (hs : (system setup).next a s = some t) : Inv setup t := by
  obtain ⟨nodes, hstored⟩ := h.stored
  cases a with
  | producer i malloc =>
    simp only [system] at hs
    split at hs
    · next hi =>
      have hm := producerStep_move hs
      have hchild (j : Nat) (hpc : (s.producers i).pc = .create) (hj : setup.child i = some j) :
          (s.consumers j).pc = .unborn := (h.children j).mpr ⟨i, hi, hj, hpc⟩
      exact
        { locks := locks_producer h.locks hchild hm
          children := children_producer h.children hi hm
          counted := counted_producer h.counted hi hm
          ended := ended_producer h.ended h.counted hi hm
          bounds := bounds_producer h.bounds hstored hi hm
          stored := stored_producer hstored hchild hm }
    · cases hs
  | consumer j =>
    simp only [system] at hs
    split at hs
    · next hj =>
      have hm := consumerStep_move hs
      exact
        { locks := locks_consumer h.locks hm
          children := children_consumer h.children hm
          counted := counted_consumer h.counted hm
          ended := ended_consumer h.ended h.counted hm
          bounds := bounds_consumer h.bounds hstored hj hm
          stored := stored_consumer hstored hm }
    · cases hs

theorem inv_reach (h : Reach (system setup) s) : Inv setup s :=
  h.invariant inv_init fun _ hinv _ hs => inv_step hinv hs

/-! ## What a thread waits for -/

def Action.thread : Action → Thread
  | .producer i _ => .producer i
  | .consumer j => .consumer j

/-- The thread can take a step. -/
def CanGo (setup : Setup) (s : State) (u : Thread) : Prop :=
  ∃ a : Action, a.thread = u ∧ ((system setup).next a s).isSome

/-- The node that a producer is about to add can be added: the assertions hold. -/
theorem Stored.addNode_isSome (h : Stored setup s nodes) {node : Nat} (hpc : (s.producers i).pc = .add node) :
    ∃ new queue, s.queue.heap node = some new ∧ addNode node s.queue = some queue := by
  have hhand : (s.producers i).hand = some node := by rw [Producer.hand, hpc]
  obtain ⟨prev, val, hnode⟩ := h.new i node hhand
  obtain ⟨r, hr, -⟩ := addNode_spec h.linked hnode (h.unlinked (.producer i) node hhand)
  exact ⟨_, r, hnode, hr⟩

theorem Stored.removeNode_isSome (h : Stored setup s nodes) : (removeNode s.queue).isSome := by
  cases nodes with
  | nil => rw [removeNode_nil h.linked]; rfl
  | cons a rest =>
    obtain ⟨r, hr, -⟩ := removeNode_spec h.linked
    rw [hr]
    rfl

/-- A producer can go on, or it waits for a mutex that is held, or for its consumer, or it has returned. -/
theorem Inv.producer_waits (h : Inv setup s) (hi : i < setup.numProducers) :
    CanGo setup s (.producer i) ∨
    ((∃ node, (s.producers i).pc = .lockQueue node) ∧ s.queueLock ≠ none) ∨
    ((s.producers i).pc = .lockNum ∧ s.numLock ≠ none) ∨
    (∃ j, setup.child i = some j ∧ (s.producers i).pc = .join ∧ (s.consumers j).pc ≠ .returned) ∨
    (s.producers i).pc = .returned := by
  obtain ⟨nodes, hstored⟩ := h.stored
  obtain ⟨bound, hbound⟩ := h.bounds.memory
  have hgo (hs : (producerStep setup i ⟨bound, none⟩ s).isSome) : CanGo setup s (.producer i) :=
    ⟨.producer i ⟨bound, none⟩, rfl, by
      show (if i < setup.numProducers then producerStep setup i ⟨bound, none⟩ s else none).isSome
      rwa [if_pos hi]⟩
  unfold producerStep at hgo
  match hpc : (s.producers i).pc with
  | .create =>
    refine .inl (hgo ?_)
    rw [hpc]
    cases setup.child i <;> rfl
  | .loop =>
    refine .inl (hgo ?_)
    rw [hpc]
    cases (s.producers i).rest with
    | nil => rfl
    | cons c rest => simp [hbound bound (Nat.le_refl _)]
  | .lockQueue node =>
    by_cases hfree : s.queueLock = none
    · refine .inl (hgo ?_)
      rw [hpc]
      simp [hfree]
    · exact .inr (.inl ⟨⟨node, rfl⟩, hfree⟩)
  | .add node =>
    obtain ⟨new, queue, hnew, hadd⟩ := hstored.addNode_isSome hpc
    refine .inl (hgo ?_)
    rw [hpc]
    simp [hnew, hadd]
  | .lockNum =>
    by_cases hfree : s.numLock = none
    · refine .inl (hgo ?_)
      rw [hpc]
      simp [hfree]
    · exact .inr (.inr (.inl ⟨rfl, hfree⟩))
  | .join =>
    cases hchild : setup.child i with
    | none =>
      refine .inl (hgo ?_)
      rw [hpc, hchild]
      rfl
    | some j =>
      by_cases hreturned : (s.consumers j).pc = .returned
      · refine .inl (hgo ?_)
        rw [hpc, hchild]
        simp [hreturned]
      · exact .inr (.inr (.inr (.inl ⟨j, rfl, rfl, hreturned⟩)))
  | .returned => exact .inr (.inr (.inr (.inr rfl)))
  | .unlockQueue | .decrement | .unlockNum =>
    refine .inl (hgo ?_)
    rw [hpc]
    rfl

/-- A consumer can go on, or it has not been created, waits for a mutex that is held, or has returned. -/
theorem Inv.consumer_waits (h : Inv setup s) (hj : j < setup.numConsumers) :
    CanGo setup s (.consumer j) ∨
    (s.consumers j).pc = .unborn ∨
    ((s.consumers j).pc = .lockQueue ∧ s.queueLock ≠ none) ∨
    ((s.consumers j).pc = .lockNum ∧ s.numLock ≠ none) ∨
    (s.consumers j).pc = .returned := by
  obtain ⟨nodes, hstored⟩ := h.stored
  have hgo (hs : (consumerStep j s).isSome) : CanGo setup s (.consumer j) :=
    ⟨.consumer j, rfl, by
      show (if j < setup.numConsumers then consumerStep j s else none).isSome
      rwa [if_pos hj]⟩
  have hheap {a : Nat} (ha : s.hand (.consumer j) = some a) : ∃ node, s.queue.heap a = some node :=
    Option.isSome_iff_exists.mp (hstored.allocated (.consumer j) a ha)
  unfold consumerStep at hgo
  match hpc : (s.consumers j).pc with
  | .unborn => exact .inr (.inl rfl)
  | .lockQueue =>
    by_cases hfree : s.queueLock = none
    · refine .inl (hgo ?_)
      rw [hpc]
      simp [hfree]
    · exact .inr (.inr (.inl ⟨rfl, hfree⟩))
  | .lockNum =>
    by_cases hfree : s.numLock = none
    · refine .inl (hgo ?_)
      rw [hpc]
      simp [hfree]
    · exact .inr (.inr (.inr (.inl ⟨rfl, hfree⟩)))
  | .check =>
    refine .inl (hgo ?_)
    rw [hpc]
    dsimp only
    split <;> rfl
  | .remove =>
    refine .inl (hgo ?_)
    rw [hpc]
    simpa using hstored.removeNode_isSome
  | .print node =>
    obtain ⟨first, hfirst⟩ := hheap (by rw [State.hand, Consumer.hand, hpc])
    refine .inl (hgo ?_)
    rw [hpc]
    simp [hfirst]
  | .free node =>
    obtain ⟨first, hfirst⟩ := hheap (by rw [State.hand, Consumer.hand, hpc])
    refine .inl (hgo ?_)
    rw [hpc]
    simp [hfirst]
  | .returned => exact .inr (.inr (.inr (.inr rfl)))
  | .unlockNum | .unlockQueue none | .unlockQueue (some node) | .increment | .exitNum | .exitQueue =>
    refine .inl (hgo ?_)
    rw [hpc]
    rfl

/-- Only threads of the setup are in a section. -/
theorem Inv.in_setup (h : Inv setup s) {u : Thread} (hu : s.InQueue u ∨ s.InNum u) :
    (∃ i < setup.numProducers, u = .producer i) ∨ ∃ j < setup.numConsumers, u = .consumer j := by
  cases u with
  | producer i =>
    refine .inl ⟨i, Nat.lt_of_not_le fun hle => ?_, rfl⟩
    rw [State.InQueue, State.InNum, h.bounds.producers i hle] at hu
    exact hu.elim id id
  | consumer j =>
    refine .inr ⟨j, Nat.lt_of_not_le fun hle => ?_, rfl⟩
    rw [State.InQueue, State.InNum, h.bounds.consumers j hle] at hu
    exact hu.elim id id

/-- The thread that holds `g_num_prod_lock` can go on. -/
theorem Inv.inNum_can_go (h : Inv setup s) {u : Thread} (hu : s.InNum u) : CanGo setup s u := by
  rcases h.in_setup (.inr hu) with ⟨i, hi, rfl⟩ | ⟨j, hj, rfl⟩
  · rw [State.InNum] at hu
    rcases h.producer_waits hi with hgo | ⟨⟨node, hpc⟩, -⟩ | ⟨hpc, -⟩ | ⟨j, -, hpc, -⟩ | hpc
    · exact hgo
    all_goals
      rw [hpc] at hu
      cases hu
  · rw [State.InNum] at hu
    rcases h.consumer_waits hj with hgo | hpc | ⟨hpc, -⟩ | ⟨hpc, -⟩ | hpc
    · exact hgo
    all_goals
      rw [hpc] at hu
      cases hu

/-- The thread that holds `queue_p->lock` can go on, or it waits for `g_num_prod_lock`. -/
theorem Inv.inQueue_can_go (h : Inv setup s) {u : Thread} (hu : s.InQueue u) :
    CanGo setup s u ∨ s.numLock ≠ none := by
  rcases h.in_setup (.inl hu) with ⟨i, hi, rfl⟩ | ⟨j, hj, rfl⟩
  · rw [State.InQueue] at hu
    rcases h.producer_waits hi with hgo | ⟨⟨node, hpc⟩, -⟩ | ⟨hpc, -⟩ | ⟨j, -, hpc, -⟩ | hpc
    · exact .inl hgo
    all_goals
      rw [hpc] at hu
      cases hu
  · rw [State.InQueue] at hu
    rcases h.consumer_waits hj with hgo | hpc | ⟨hpc, -⟩ | ⟨-, hheld⟩ | hpc
    · exact .inl hgo
    · rw [hpc] at hu
      cases hu
    · rw [hpc] at hu
      cases hu
    · exact .inr hheld
    · rw [hpc] at hu
      cases hu

/-- If a mutex is held, some thread that holds one can go on. -/
theorem Inv.held_can_go (h : Inv setup s) (hheld : s.queueLock ≠ none ∨ s.numLock ≠ none) :
    ∃ u, (s.queueLock = some u ∨ s.numLock = some u) ∧ CanGo setup s u := by
  have hnum (hne : s.numLock ≠ none) : ∃ u, (s.queueLock = some u ∨ s.numLock = some u) ∧ CanGo setup s u := by
    obtain ⟨u, hu⟩ := Option.ne_none_iff_exists'.mp hne
    exact ⟨u, .inr hu, h.inNum_can_go ((h.locks.num u).mp hu)⟩
  rcases hheld with hqueue | hne
  · obtain ⟨u, hu⟩ := Option.ne_none_iff_exists'.mp hqueue
    rcases h.inQueue_can_go ((h.locks.queue u).mp hu) with hgo | hne
    · exact ⟨u, .inl hu, hgo⟩
    · exact hnum hne
  · exact hnum hne

/-- While some thread has not returned, some thread can go on. -/
theorem Inv.can_go (h : Inv setup s) (hleft : (∃ i < setup.numProducers, (s.producers i).pc ≠ .returned) ∨
    ∃ j < setup.numConsumers, (s.consumers j).pc ≠ .returned) : ∃ u, CanGo setup s u := by
  by_contra hno
  have hfree : ¬ (s.queueLock ≠ none ∨ s.numLock ≠ none) := fun hheld =>
    have ⟨u, _, hgo⟩ := h.held_can_go hheld
    hno ⟨u, hgo⟩
  -- a consumer that cannot go on waits for its producer to create it, and that producer can
  have hconsumers (j : Nat) (hj : j < setup.numConsumers) : (s.consumers j).pc = .returned := by
    rcases h.consumer_waits hj with hgo | hpc | ⟨-, hheld⟩ | ⟨-, hheld⟩ | hpc
    · exact absurd ⟨_, hgo⟩ hno
    · obtain ⟨i, hi, -, hcreate⟩ := (h.children j).mp hpc
      rcases h.producer_waits hi with hgo | ⟨⟨node, hpc'⟩, -⟩ | ⟨hpc', -⟩ | ⟨k, -, hpc', -⟩ | hpc'
      · exact absurd ⟨_, hgo⟩ hno
      all_goals cases hcreate.symm.trans hpc'
    · exact absurd (.inl hheld) hfree
    · exact absurd (.inr hheld) hfree
    · exact hpc
  rcases hleft with ⟨i, hi, hleft⟩ | ⟨j, hj, hleft⟩
  · rcases h.producer_waits hi with hgo | ⟨-, hheld⟩ | ⟨-, hheld⟩ | ⟨j, hchild, -, hjoin⟩ | hpc
    · exact hno ⟨_, hgo⟩
    · exact hfree (.inl hheld)
    · exact hfree (.inr hheld)
    · exact hjoin (hconsumers j (setup.child_lt hi hchild))
    · exact hleft hpc
  · exact hleft (hconsumers j hj)

/-! ## The end -/

/-- A history in which only threads below `n` occur is as long as its parts together. -/
theorem sum_part {n : Nat} : ∀ {history : List (Nat × UInt8)}, (∀ k, n ≤ k → part k history = []) →
    ∑ k ∈ range n, (part k history).length = history.length
  | [], _ => by simp [part]
  | (k, c) :: history, h => by
    have hcons (k' : Nat) : part k' ((k, c) :: history) = part k' [(k, c)] ++ part k' history :=
      part_append k' [(k, c)] history
    have hk : k < n := Nat.lt_of_not_le fun hle => by
      have hnil := h k hle
      rw [hcons, part_self] at hnil
      cases hnil
    have ih : ∑ k ∈ range n, (part k history).length = history.length := sum_part fun k' hk' => by
      have hnil := h k' hk'
      rw [hcons] at hnil
      exact (List.append_eq_nil_iff.mp hnil).2
    have hone : ∑ k' ∈ range n, (part k' [(k, c)]).length = 1 := by
      rw [sum_eq_single_of_mem k (mem_range.mpr hk) fun k' _ hne => by rw [part_of_ne hne.symm]; rfl, part_self]
      rfl
    simp only [hcons, List.length_append, sum_add_distrib, hone, ih, List.length_cons]
    omega

/-- When all threads have returned, the queue is empty, and what was produced has been counted. -/
theorem Inv.at_end (h : Inv setup s) (hstored : Stored setup s nodes)
    (hproducers : ∀ i < setup.numProducers, (s.producers i).pc = .returned)
    (hconsumers : ∀ j < setup.numConsumers, (s.consumers j).pc = .returned) :
    nodes = [] ∧ (∀ i < setup.numProducers, part i s.enqueued = setup.chars i) ∧
      ∑ j ∈ range setup.numConsumers, (s.consumers j).count =
        ∑ i ∈ range setup.numProducers, (setup.chars i).length := by
  have hnodes : nodes = [] := by
    have hreturned := hconsumers 0 setup.consumers_pos
    exact hstored.linked.front_none_iff.mp (h.ended ⟨0, by rw [hreturned]; trivial⟩).1
  have hpart (i : Nat) (hi : i < setup.numProducers) : part i s.enqueued = setup.chars i := by
    have hpc := hproducers i hi
    have hproduced := hstored.produced i
    rw [h.bounds.finished i (by rw [hpc]; trivial), Producer.hand, hpc] at hproduced
    rw [← hproduced]
    exact ((List.append_nil _).trans (List.append_nil _)).symm
  have hcount (j : Nat) (hj : j < setup.numConsumers) : (s.consumers j).count = (part j s.removed).length := by
    have hpc := hconsumers j hj
    have hprinted := hstored.printed j
    have hcounted := hstored.counted j
    rw [Consumer.unprinted, hpc] at hprinted
    rw [Consumer.counted, hpc] at hcounted
    have hall : part j s.removed = (s.consumers j).printed := hprinted.trans (List.append_nil _)
    rw [hall]
    exact hcounted.symm
  have henqueued : ∑ i ∈ range setup.numProducers, (part i s.enqueued).length = s.enqueued.length :=
    sum_part fun i hi => by
      have hproduced := hstored.produced i
      rw [h.bounds.producers i hi] at hproduced
      exact (List.append_eq_nil_iff.mp (List.append_left_eq_self.mp hproduced)).1
  have hremoved : ∑ j ∈ range setup.numConsumers, (part j s.removed).length = s.removed.length :=
    sum_part fun j hj => by
      have hprinted := hstored.printed j
      rw [h.bounds.consumers j hj] at hprinted
      exact hprinted
  have hlength : s.removed.length = s.enqueued.length := by
    have horder := congrArg List.length hstored.order
    rw [hnodes, List.length_map, List.length_append, List.length_map] at horder
    exact horder.symm
  refine ⟨hnodes, hpart, ?_⟩
  calc ∑ j ∈ range setup.numConsumers, (s.consumers j).count
      = ∑ j ∈ range setup.numConsumers, (part j s.removed).length :=
        sum_congr rfl fun j hj => hcount j (mem_range.mp hj)
    _ = ∑ i ∈ range setup.numProducers, (part i s.enqueued).length := by rw [hremoved, hlength, henqueued]
    _ = ∑ i ∈ range setup.numProducers, (setup.chars i).length :=
        sum_congr rfl fun i hi => by rw [hpart i (mem_range.mp hi)]

/-- Any number of producers and consumers, in every reachable state.

* The queue is a well-formed list of `nodes`.
* The section of a producer meets its assertions, that of a consumer has a result, and both use allocated nodes
  only. A node in the hand of a thread is allocated, is not in the list, and is in no other hand.
* What has been enqueued is what has been removed and what the queue holds, in this order; what a producer has
  enqueued is a beginning of its characters, and a consumer prints what it removes.
* When all threads have returned, the queue is empty, everything produced has been removed, and the counts add
  up.
* If a mutex is held, a thread that holds one can go on; and some thread can go on until all have returned. -/
theorem hand_over (hr : Reach (system setup) s) : ∃ nodes,
    (Linked s.queue.heap s.queue.front s.queue.back nodes ∧ (s.queue.front = none ↔ s.queue.back = none) ∧
      (∀ a ∈ nodes, ∀ b node node', s.queue.heap a = some node → node.next = some b →
        s.queue.heap b = some node' → node'.prev = some a) ∧
      ∀ a node, s.queue.front = some a → s.queue.heap a = some node → node.prev = none) ∧
    ((∀ i node, (s.producers i).pc = .add node → (addNode node s.queue).isSome) ∧ (removeNode s.queue).isSome ∧
      ∀ u a, s.hand u = some a → (s.queue.heap a).isSome ∧ a ∉ nodes ∧ ∀ v, s.hand v = some a → v = u) ∧
    (s.enqueued.map Prod.snd = s.removed.map Prod.snd ++ vals s.queue.heap nodes ∧
      (∀ i, part i s.enqueued <+: setup.chars i) ∧ ∀ j, (s.consumers j).printed <+: part j s.removed) ∧
    ((∀ i < setup.numProducers, (s.producers i).pc = .returned) →
      (∀ j < setup.numConsumers, (s.consumers j).pc = .returned) →
      s.queue.front = none ∧ s.queue.back = none ∧ s.removed.map Prod.snd = s.enqueued.map Prod.snd ∧
        (∀ i < setup.numProducers, part i s.enqueued = setup.chars i) ∧
        ∑ j ∈ range setup.numConsumers, (s.consumers j).count =
          ∑ i ∈ range setup.numProducers, (setup.chars i).length) ∧
    (s.queueLock ≠ none ∨ s.numLock ≠ none →
      ∃ u, (s.queueLock = some u ∨ s.numLock = some u) ∧ CanGo setup s u) ∧
    ((∃ i < setup.numProducers, (s.producers i).pc ≠ .returned) ∨
      (∃ j < setup.numConsumers, (s.consumers j).pc ≠ .returned) → ∃ u, CanGo setup s u) := by
  have hinv := inv_reach hr
  obtain ⟨nodes, hstored⟩ := hinv.stored
  have hlinked := hstored.linked
  refine ⟨nodes, ⟨hlinked, hlinked.front_none_iff.trans hlinked.back_none_iff.symm,
    fun a ha b node node' hnode hnext hnode' => hlinked.chain.prev_of_next ha hnode hnext hnode',
    fun a node hfront hnode => ?_⟩, ⟨fun i node hpc => ?_, hstored.removeNode_isSome, fun u a hu => ?_⟩,
    ⟨hstored.order, fun i => ?_, fun j => ?_⟩, fun hproducers hconsumers => ?_, hinv.held_can_go, hinv.can_go⟩
  · rw [hfront] at hlinked
    exact hlinked.prev_front hnode
  · obtain ⟨-, queue, -, hadd⟩ := hstored.addNode_isSome hpc
    rw [hadd]
    rfl
  · exact ⟨hstored.allocated u a hu, hstored.unlinked u a hu, fun v hv => hstored.hands v u a hv hu⟩
  · rw [← hstored.produced i, List.append_assoc]
    exact List.prefix_append _ _
  · rw [hstored.printed j]
    exact List.prefix_append _ _
  · obtain ⟨rfl, hpart, hsum⟩ := hinv.at_end hstored hproducers hconsumers
    exact ⟨hlinked.front_none_iff.mpr rfl, hlinked.back_none_iff.mpr rfl,
      (hstored.order.trans (List.append_nil _)).symm, hpart, hsum⟩

/-- As in `main`: one producer, the consumer that it creates, and another one. -/
def oneProducer : Setup where
  numProducers := 1
  numConsumers := 2
  chars := fun _ => [97]
  child := fun i => some i
  producers_pos := Nat.zero_lt_one
  consumers_pos := Nat.zero_lt_two
  child_lt hi h := by
    obtain rfl := Option.some.inj h
    exact Nat.lt_succ_of_lt hi
  child_inj _ _ h h' := Option.some.inj (h.trans h'.symm)

/-- The first consumer removes the character; both leave their loops after the producer has ended. -/
def oneCharacter : List Action :=
  List.replicate 5 (Action.producer 0 ⟨7, none⟩) ++ List.replicate 9 (Action.consumer 0) ++
    List.replicate 4 (Action.producer 0 ⟨7, none⟩) ++ List.replicate 5 (Action.consumer 0) ++
    List.replicate 5 (Action.consumer 1) ++ [Action.producer 0 ⟨7, none⟩]

theorem hand_over_one_character : ∃ s, Reach (system oneProducer) s ∧ (s.producers 0).pc = .returned ∧
    s.queue.front = none ∧ s.removed.map Prod.snd = s.enqueued.map Prod.snd ∧
    ∑ j ∈ range 2, (s.consumers j).count = 1 := by
  have hrun : (exec (system oneProducer) oneCharacter (system oneProducer).init).isSome := by decide
  have hend : ∀ u ∈ exec (system oneProducer) oneCharacter (system oneProducer).init,
      (∀ i < 1, (u.producers i).pc = .returned) ∧ ∀ j < 2, (u.consumers j).pc = .returned := by decide
  obtain ⟨u, hu⟩ := Option.isSome_iff_exists.mp hrun
  obtain ⟨hproducers, hconsumers⟩ := hend u hu
  have hreach := reach_exec oneCharacter .init hu
  obtain ⟨nodes, -, -, -, hreturned, -⟩ := hand_over hreach
  obtain ⟨hfront, -, hremoved, -, hsum⟩ := hreturned hproducers hconsumers
  exact ⟨u, hreach, hproducers 0 Nat.zero_lt_one, hfront, hremoved, hsum⟩

end AdvancedOS.Prelab
