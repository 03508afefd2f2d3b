import AdvancedOS.Prelab.Moves

/-!
# The nodes of the queue

`Stored setup s nodes`: the queue is a doubly linked list of `nodes`. Besides, every node is in the hand of
one thread: of the producer that adds it, or of the consumer that has removed it. With the values in the nodes
the history is complete: what was enqueued has been removed, in this order, or is in the queue.

* `addNode_spec`, `removeNode_spec`: on a well-formed list the assertions hold and no freed node is used.
* `stored_producer`, `stored_consumer`: every move keeps `Stored`, for a suitable list of nodes.
-/

namespace AdvancedOS.Prelab

open Lts LinkedList

/-! ## The list operations -/

section

variable {q r : Queue} {nodes : List Nat} {a b node : Nat} {new : Node Nat UInt8} {p : Option Nat}

/-- Writing a pointer changes no value. -/
theorem val_update (heap : Heap Nat UInt8) (node' : Node Nat UInt8) (hnode : heap a = some new)
    (hval : node'.val = new.val) (b : Nat) :
    (Function.update heap a (some node') b).map Node.val = (heap b).map Node.val := by
  by_cases hb : b = a
  · rw [hb, Function.update_self, hnode, Option.map_some, Option.map_some, hval]
  · rw [Function.update_of_ne hb]

/-- The new node becomes the last one. -/
theorem addNode_spec (h : Linked q.heap q.front q.back nodes) {val : UInt8} {prev : Option Nat}
    (hnew : q.heap node = some ⟨none, prev, val⟩) (hout : node ∉ nodes) :
    ∃ r, addNode node q = some r ∧ Linked r.heap r.front r.back (nodes ++ [node]) ∧
      (∀ a, (r.heap a).map Node.val = (q.heap a).map Node.val) ∧
      ∀ a ∉ nodes, a ≠ node → r.heap a = q.heap a := by
  unfold addNode
  cases hback : q.back with
  | none =>
    obtain rfl := h.back_none_iff.mp hback
    have hfront : q.front = none := h.front_none_iff.mpr rfl
    refine ⟨{ heap := Function.update q.heap node (some ⟨none, none, val⟩), front := some node, back := some node },
      by simp [hfront, setPrev, hnew], ?_, val_update q.heap _ hnew rfl, fun a _ ha => Function.update_of_ne ha _ _⟩
    exact Linked.push_nil (Function.update_self _ _ _)
  | some b =>
    rw [hback] at h
    have hmem : b ∈ nodes := List.mem_of_getLast? h.back_eq.symm
    have hfront : q.front ≠ none := fun hnone => by
      rw [h.front_none_iff.mp hnone] at hmem
      cases hmem
    have hne : b ≠ node := by
      rintro rfl
      exact hout hmem
    obtain ⟨last, hlast⟩ := Option.isSome_iff_exists.mp (h.allocated b hmem)
    have hlast' : Function.update q.heap node (some ⟨none, some b, val⟩) b = some last :=
      (Function.update_of_ne hne _ _).trans hlast
    have hb (c : Nat) (hc : c ≠ b) : Function.update (Function.update q.heap node (some ⟨none, some b, val⟩)) b
        (some { last with next := some node }) c = Function.update q.heap node (some ⟨none, some b, val⟩) c :=
      Function.update_of_ne hc _ _
    refine ⟨{ q with
      heap := Function.update (Function.update q.heap node (some ⟨none, some b, val⟩)) b
        (some { last with next := some node })
      back := some node }, ?_, ?_, fun a => ?_, fun a hold ha => ?_⟩
    · simp [hfront, setPrev, setNext, hnew, hlast']
    · refine h.push hout ?_ ((hb node hne.symm).trans (Function.update_self _ _ _)) fun c hc hcb => ?_
      · rw [hlast]
        exact Function.update_self _ _ _
      · refine (hb c hcb).trans (Function.update_of_ne ?_ _ _)
        rintro rfl
        exact hout hc
    · exact (val_update _ { last with next := some node } hlast' rfl a).trans
        (val_update q.heap ⟨none, some b, val⟩ hnew rfl a)
    · refine (hb a ?_).trans (Function.update_of_ne ha _ _)
      rintro rfl
      exact hold hmem

theorem removeNode_nil (h : Linked q.heap q.front q.back []) : removeNode q = some (none, q) := by
  rw [removeNode, h.front_none_iff.mpr rfl]

/-- The first node is taken out. It stays allocated, but no node of the list points to it. -/
theorem removeNode_spec (h : Linked q.heap q.front q.back (node :: nodes)) :
    ∃ r, removeNode q = some (some node, r) ∧ Linked r.heap r.front r.back nodes ∧
      (∀ a, (r.heap a).map Node.val = (q.heap a).map Node.val) ∧ ∀ a ∉ nodes, r.heap a = q.heap a := by
  have hfront : q.front = some node := h.chain.1
  obtain ⟨first, hfirst⟩ := Option.isSome_iff_exists.mp (h.allocated node List.mem_cons_self)
  cases hnext : first.next with
  | none =>
    obtain rfl := h.rest_nil hfirst hnext
    refine ⟨{ q with front := none, back := none }, ?_, Linked.nil _, fun _ => rfl, fun _ _ => rfl⟩
    simp [removeNode, hfront, detachFront, hfirst, hnext]
  | some b =>
    obtain ⟨rest, rfl⟩ := h.rest_cons hfirst hnext
    -- the second node is another one
    have hne : node ≠ b := by
      rintro rfl
      exact (List.nodup_cons.mp h.nodup).1 List.mem_cons_self
    obtain ⟨second, hsecond⟩ :=
      Option.isSome_iff_exists.mp (h.allocated b (List.mem_cons_of_mem _ List.mem_cons_self))
    have hrest {c : Nat} (hc : c ∈ rest) : c ≠ b := by
      rintro rfl
      exact (List.nodup_cons.mp (List.nodup_cons.mp h.nodup).2).1 hc
    refine ⟨{ q with
      heap := Function.update q.heap b (some { second with prev := none })
      front := some b }, ?_, ?_, val_update q.heap { second with prev := none } hsecond rfl, fun a ha => ?_⟩
    · simp [removeNode, hfront, detachFront, hfirst, hnext, setPrev, hsecond, Function.update_of_ne hne]
    · refine h.pop ?_ fun c hc => Function.update_of_ne (hrest hc) _ _
      rw [hsecond]
      exact Function.update_self _ _ _
    · refine Function.update_of_ne ?_ _ _
      rintro rfl
      exact ha List.mem_cons_self

end

/-! ## Who has which node -/

/-- The new node of the producer that is not in the queue yet. -/
def Producer.hand (p : Producer) : Option Nat :=
  match p.pc with
  | .lockQueue node | .add node => some node
  | _ => none

/-- The removed node of the consumer that has not been freed yet. -/
def Consumer.hand (c : Consumer) : Option Nat :=
  match c.pc with
  | .unlockQueue node => node
  | .print node | .free node => some node
  | _ => none

def Consumer.unprinted (c : Consumer) : Option Nat :=
  match c.pc with
  | .unlockQueue node => node
  | .print node => some node
  | _ => none

theorem hand_of_unprinted {c : Consumer} {a : Nat} (h : c.unprinted = some a) : c.hand = some a := by
  unfold Consumer.unprinted at h
  unfold Consumer.hand
  split at h
  · next hpc => rw [hpc]; exact h
  · next hpc => rw [hpc]; exact h
  · cases h

/-- The count once the character just printed has been counted. -/
def Consumer.counted (c : Consumer) : Nat :=
  match c.pc with
  | .free _ | .increment => c.count + 1
  | _ => c.count

def State.hand (s : State) : Thread → Option Nat
  | .producer i => (s.producers i).hand
  | .consumer j => (s.consumers j).hand

/-- The part of thread `k` in a history. -/
def part (k : Nat) (history : List (Nat × UInt8)) : List UInt8 :=
  history.filterMap fun (k', c) => if k' = k then some c else none

theorem part_append (k : Nat) (l l' : List (Nat × UInt8)) : part k (l ++ l') = part k l ++ part k l' :=
  List.filterMap_append

theorem part_self (k : Nat) (c : UInt8) : part k [(k, c)] = [c] := by simp [part]

theorem part_of_ne {k k' : Nat} (h : k' ≠ k) (c : UInt8) : part k [(k', c)] = [] := by simp [part, h]

structure Stored (setup : Setup) (s : State) (nodes : List Nat) : Prop where
  linked : Linked s.queue.heap s.queue.front s.queue.back nodes
  new : ∀ i a, (s.producers i).hand = some a → ∃ prev val, s.queue.heap a = some ⟨none, prev, val⟩
  allocated : ∀ t a, s.hand t = some a → (s.queue.heap a).isSome
  unlinked : ∀ t a, s.hand t = some a → a ∉ nodes
  hands : ∀ t u a, s.hand t = some a → s.hand u = some a → t = u
  order : s.enqueued.map Prod.snd = s.removed.map Prod.snd ++ vals s.queue.heap nodes
  produced : ∀ i, part i s.enqueued ++ vals s.queue.heap (s.producers i).hand.toList ++ (s.producers i).rest =
    setup.chars i
  printed : ∀ j, part j s.removed =
    (s.consumers j).printed ++ vals s.queue.heap (s.consumers j).unprinted.toList
  counted : ∀ j, (s.consumers j).printed.length = (s.consumers j).counted

variable {setup : Setup} {i j : Nat} {s t : State} {nodes : List Nat}

theorem hand_setProducer_self (p : Producer) : (s.setProducer i p).hand (.producer i) = p.hand := by
  rw [State.hand, State.setProducer_self]

theorem hand_setProducer_of_ne {u : Thread} (p : Producer) (hu : u ≠ .producer i) :
    (s.setProducer i p).hand u = s.hand u := by
  cases u with
  | producer k => rw [State.hand, State.setProducer_of_ne s i p fun heq => hu (by rw [heq])]; rfl
  | consumer k => rfl

theorem hand_setConsumer_self (c : Consumer) : (s.setConsumer j c).hand (.consumer j) = c.hand := by
  rw [State.hand, State.setConsumer_self]

theorem hand_setConsumer_of_ne {u : Thread} (c : Consumer) (hu : u ≠ .consumer j) :
    (s.setConsumer j c).hand u = s.hand u := by
  cases u with
  | producer k => rfl
  | consumer k => rw [State.hand, State.setConsumer_of_ne s j c fun heq => hu (by rw [heq])]; rfl

/-- The mutexes and the number of producers play no role. -/
theorem Stored.congr (h : Stored setup s nodes) (hqueue : t.queue = s.queue) (henqueued : t.enqueued = s.enqueued)
    (hremoved : t.removed = s.removed) (hproducers : t.producers = s.producers)
    (hconsumers : t.consumers = s.consumers) : Stored setup t nodes := by
  have hhand : t.hand = s.hand := by
    funext u
    cases u with
    | producer k => rw [State.hand, hproducers]; rfl
    | consumer k => rw [State.hand, hconsumers]; rfl
  constructor
  · rw [hqueue]; exact h.linked
  · rw [hqueue, hproducers]; exact h.new
  · rw [hqueue, hhand]; exact h.allocated
  · rw [hhand]; exact h.unlinked
  · rw [hhand]; exact h.hands
  · rw [hqueue, henqueued, hremoved]; exact h.order
  · rw [hqueue, henqueued, hproducers]; exact h.produced
  · rw [hqueue, hremoved, hconsumers]; exact h.printed
  · rw [hconsumers]; exact h.counted

/-- A step of a producer that keeps its node and its characters. -/
theorem Stored.setProducer (h : Stored setup s nodes) {p : Producer} (hhand : p.hand = (s.producers i).hand)
    (hrest : p.rest = (s.producers i).rest) : Stored setup (s.setProducer i p) nodes := by
  have hkeep (k : Nat) : ((s.setProducer i p).producers k).hand = (s.producers k).hand ∧
      ((s.setProducer i p).producers k).rest = (s.producers k).rest := by
    by_cases hk : k = i
    · rw [hk, State.setProducer_self]
      exact ⟨hhand, hrest⟩
    · rw [State.setProducer_of_ne s i p hk]
      exact ⟨rfl, rfl⟩
  have hhands : (s.setProducer i p).hand = s.hand := by
    funext u
    cases u with
    | producer k => exact (hkeep k).1
    | consumer k => rfl
  exact
    { linked := h.linked
      new := fun k => by rw [(hkeep k).1]; exact h.new k
      allocated := by rw [hhands]; exact h.allocated
      unlinked := by rw [hhands]; exact h.unlinked
      hands := by rw [hhands]; exact h.hands
      order := h.order
      produced := fun k => by rw [(hkeep k).1, (hkeep k).2]; exact h.produced k
      printed := h.printed
      counted := h.counted }

/-- The counts stay right if that of the consumer that goes on is. -/
theorem counted_setConsumer (h : ∀ k, (s.consumers k).printed.length = (s.consumers k).counted) {c : Consumer}
    (hc : c.printed.length = c.counted) (k : Nat) :
    ((s.setConsumer j c).consumers k).printed.length = ((s.setConsumer j c).consumers k).counted := by
  by_cases hk : k = j
  · rw [hk, State.setConsumer_self]
    exact hc
  · rw [State.setConsumer_of_ne s j c hk]
    exact h k

/-- A step of a consumer that keeps its node and prints nothing. -/
theorem Stored.setConsumer (h : Stored setup s nodes) {c : Consumer} (hhand : c.hand = (s.consumers j).hand)
    (hunprinted : c.unprinted = (s.consumers j).unprinted) (hprinted : c.printed = (s.consumers j).printed)
    (hcounted : c.counted = (s.consumers j).counted) : Stored setup (s.setConsumer j c) nodes := by
  have hkeep (k : Nat) : ((s.setConsumer j c).consumers k).hand = (s.consumers k).hand ∧
      ((s.setConsumer j c).consumers k).unprinted = (s.consumers k).unprinted ∧
      ((s.setConsumer j c).consumers k).printed = (s.consumers k).printed ∧
      ((s.setConsumer j c).consumers k).counted = (s.consumers k).counted := by
    by_cases hk : k = j
    · rw [hk, State.setConsumer_self]
      exact ⟨hhand, hunprinted, hprinted, hcounted⟩
    · rw [State.setConsumer_of_ne s j c hk]
      exact ⟨rfl, rfl, rfl, rfl⟩
  have hhands : (s.setConsumer j c).hand = s.hand := by
    funext u
    cases u with
    | producer k => rfl
    | consumer k => exact (hkeep k).1
  exact
    { linked := h.linked
      new := h.new
      allocated := by rw [hhands]; exact h.allocated
      unlinked := by rw [hhands]; exact h.unlinked
      hands := by rw [hhands]; exact h.hands
      order := h.order
      produced := h.produced
      printed := fun k => by rw [(hkeep k).2.1, (hkeep k).2.2.1]; exact h.printed k
      counted := fun k => by rw [(hkeep k).2.2.1, (hkeep k).2.2.2]; exact h.counted k }

theorem Stored.goProducer (h : Stored setup s nodes) (pc : ProducerPc)
    (hhand : { s.producers i with pc }.hand = (s.producers i).hand) : Stored setup (s.goProducer i pc) nodes :=
  h.setProducer hhand rfl

theorem Stored.goConsumer (h : Stored setup s nodes) (pc : ConsumerPc)
    (hhand : { s.consumers j with pc }.hand = (s.consumers j).hand)
    (hunprinted : { s.consumers j with pc }.unprinted = (s.consumers j).unprinted)
    (hcounted : { s.consumers j with pc }.counted = (s.consumers j).counted) :
    Stored setup (s.goConsumer j pc) nodes :=
  h.setConsumer hhand hunprinted rfl hcounted

/-! ## Moves that use the nodes -/

/-- Only thread `v` has another node than before, and nobody else has that node. -/
theorem hands_change (h : ∀ x y a, s.hand x = some a → s.hand y = some a → x = y) {v : Thread}
    (hothers : ∀ u ≠ v, t.hand u = s.hand u) (hnew : ∀ a, t.hand v = some a → ∀ u ≠ v, s.hand u ≠ some a) :
    ∀ x y a, t.hand x = some a → t.hand y = some a → x = y := by
  intro x y a hx hy
  by_cases hxv : x = v
  · subst hxv
    by_contra hne
    rw [hothers y (Ne.symm hne)] at hy
    exact hnew a hx y (Ne.symm hne) hy
  · rw [hothers x hxv] at hx
    by_cases hyv : y = v
    · subst hyv
      exact absurd hx (hnew a hy x hxv)
    · rw [hothers y hyv] at hy
      exact h x y a hx hy

/-- Two heaps with the same values at the node in a hand. -/
theorem vals_hand {heap heap' : Heap Nat UInt8} {hand : Option Nat}
    (hsame : ∀ a, hand = some a → (heap' a).map Node.val = (heap a).map Node.val) :
    vals heap' hand.toList = vals heap hand.toList :=
  vals_congr fun a ha => hsame a (Option.mem_toList.mp ha)

/-- The new node is one that nobody has. -/
theorem Stored.malloc (h : Stored setup s nodes) {addr : Nat} {prev : Option Nat} {c : UInt8} {rest : List UInt8}
    (hpc : (s.producers i).pc = .loop) (hrest : (s.producers i).rest = c :: rest)
    (hfree : s.queue.heap addr = none) :
    Stored setup ({ s with
      queue := { s.queue with heap := Function.update s.queue.heap addr (some ⟨none, prev, c⟩) } }.setProducer i
        { pc := .lockQueue addr, rest }) nodes := by
  have hne {a : Nat} (ha : (s.queue.heap a).isSome) : a ≠ addr := by
    rintro rfl
    rw [hfree] at ha
    cases ha
  have hold (a : Nat) (ha : (s.queue.heap a).isSome) :
      Function.update s.queue.heap addr (some ⟨none, prev, c⟩) a = s.queue.heap a := Function.update_of_ne (hne ha) _ _
  have hothers (u : Thread) (hu : u ≠ .producer i) := hand_setProducer_of_ne (s := s) { pc := .lockQueue addr, rest } hu
  constructor
  · exact h.linked.congr fun a ha => hold a (h.linked.allocated a ha)
  · intro k a ha
    by_cases hk : k = i
    · rw [hk, State.setProducer_self] at ha
      obtain rfl := Option.some.inj ha
      exact ⟨prev, c, Function.update_self _ _ _⟩
    · rw [State.setProducer_of_ne _ i _ hk] at ha
      obtain ⟨prev', val, hnode⟩ := h.new k a ha
      exact ⟨prev', val, (hold a (by rw [hnode]; rfl)).trans hnode⟩
  · intro u a ha
    by_cases hu : u = .producer i
    · rw [hu, hand_setProducer_self] at ha
      obtain rfl := Option.some.inj ha
      show (Function.update s.queue.heap addr (some ⟨none, prev, c⟩) addr).isSome
      rw [Function.update_self]
      rfl
    · have hsome := h.allocated u a ((hothers u hu).symm.trans ha)
      show (Function.update s.queue.heap addr (some ⟨none, prev, c⟩) a).isSome
      rw [hold a hsome]
      exact hsome
  · intro u a ha
    by_cases hu : u = .producer i
    · rw [hu, hand_setProducer_self] at ha
      obtain rfl := Option.some.inj ha
      exact fun hmem => hne (h.linked.allocated _ hmem) rfl
    · exact h.unlinked u a ((hothers u hu).symm.trans ha)
  · refine hands_change h.hands hothers fun a ha u _ hu => ?_
    rw [hand_setProducer_self] at ha
    obtain rfl := Option.some.inj ha
    exact hne (h.allocated u _ hu) rfl
  · exact h.order.trans (congrArg _
      (vals_congr fun a ha => congrArg _ (hold a (h.linked.allocated a ha))).symm)
  · intro k
    by_cases hk : k = i
    · subst hk
      rw [State.setProducer_self]
      have hproduced := h.produced k
      have hhand : (s.producers k).hand = none := by rw [Producer.hand, hpc]
      rw [hhand, hrest] at hproduced
      show part k s.enqueued ++ vals (Function.update s.queue.heap addr (some ⟨none, prev, c⟩)) [addr] ++ rest = _
      rw [vals_singleton (Function.update_self _ _ _), ← hproduced]
      simp [vals]
    · rw [State.setProducer_of_ne _ i _ hk, ← h.produced k]
      refine congrArg (fun l => part k s.enqueued ++ l ++ (s.producers k).rest) (vals_hand fun a ha => ?_)
      exact congrArg _ (hold a (h.allocated (.producer k) a ha))
  · intro k
    refine (h.printed k).trans (congrArg ((s.consumers k).printed ++ ·) (vals_hand fun a ha => ?_).symm)
    refine congrArg _ (hold a (h.allocated (.consumer k) a (hand_of_unprinted ha)))
  · exact h.counted

/-- The values in two heaps are the same, and so are the nodes that are allocated. -/
theorem isSome_of_val {heap heap' : Heap Nat UInt8} {a : Nat}
    (hval : (heap' a).map Node.val = (heap a).map Node.val) (h : (heap a).isSome) : (heap' a).isSome := by
  have hsome := congrArg Option.isSome hval
  rw [Option.isSome_map, Option.isSome_map, h] at hsome
  exact hsome

/-- The node goes from the hand of the producer to the end of the queue. -/
theorem Stored.add (h : Stored setup s nodes) {node : Nat} {new : Node Nat UInt8} {queue : Queue}
    (hpc : (s.producers i).pc = .add node) (hnew : s.queue.heap node = some new)
    (hadd : addNode node s.queue = some queue) :
    Stored setup ({ s with queue, enqueued := s.enqueued ++ [(i, new.val)] }.goProducer i .unlockQueue)
      (nodes ++ [node]) := by
  have hhand : (s.producers i).hand = some node := by rw [Producer.hand, hpc]
  obtain ⟨prev, val, hnode⟩ := h.new i node hhand
  obtain rfl := Option.some.inj (hnew.symm.trans hnode)
  obtain ⟨r, hr, hlinked, hval, hsame⟩ := addNode_spec h.linked hnode (h.unlinked (.producer i) node hhand)
  obtain rfl := Option.some.inj (hadd.symm.trans hr)
  have hothers (u : Thread) (hu : u ≠ .producer i) :=
    hand_setProducer_of_ne (s := s) { s.producers i with pc := .unlockQueue } hu
  -- another thread has another node
  have hne {u : Thread} {a : Nat} (hu : u ≠ .producer i) (ha : s.hand u = some a) : a ≠ node := by
    rintro rfl
    exact hu (h.hands u (.producer i) _ ha hhand)
  have hnone {a : Nat} : ¬ (s.setProducer i { s.producers i with pc := .unlockQueue }).hand (.producer i) = some a := by
    rw [hand_setProducer_self]
    nofun
  have hold {u : Thread} {a : Nat} (ha : (s.setProducer i { s.producers i with pc := .unlockQueue }).hand u = some a) :
      u ≠ .producer i ∧ s.hand u = some a := by
    have hu : u ≠ .producer i := by
      rintro rfl
      exact hnone ha
    exact ⟨hu, (hothers u hu).symm.trans ha⟩
  constructor
  · exact hlinked
  · intro k a ha
    obtain ⟨hk, ha⟩ := hold (u := .producer k) ha
    obtain ⟨prev', val', hnode'⟩ := h.new k a ha
    exact ⟨prev', val', (hsame a (h.unlinked (.producer k) a ha) (hne hk ha)).trans hnode'⟩
  · intro u a ha
    exact isSome_of_val (hval a) (h.allocated u a (hold ha).2)
  · intro u a ha hmem
    obtain ⟨hu, ha⟩ := hold ha
    rcases List.mem_append.mp hmem with hmem | hmem
    · exact h.unlinked u a ha hmem
    · exact hne hu ha (List.mem_singleton.mp hmem)
  · exact hands_change h.hands hothers fun a ha => absurd ha hnone
  · show (s.enqueued ++ [(i, val)]).map Prod.snd = _ ++ vals queue.heap (nodes ++ [node])
    have hlast : vals queue.heap [node] = [val] := by
      rw [vals_congr fun a _ => hval a]
      exact vals_singleton hnode
    rw [List.map_append, h.order, vals_append, hlast, vals_congr fun a _ => hval a, List.append_assoc]
    rfl
  · intro k
    show part k (s.enqueued ++ [(i, val)]) ++ vals queue.heap _ ++ _ = _
    rw [vals_congr fun a _ => hval a, part_append]
    by_cases hk : k = i
    · subst hk
      have hproduced := h.produced k
      rw [hhand] at hproduced
      have hone : vals s.queue.heap [node] = [val] := vals_singleton hnode
      rw [State.goProducer, State.setProducer_self, part_self, ← hproduced]
      show _ ++ [] ++ _ = _ ++ vals s.queue.heap [node] ++ _
      rw [hone, List.append_nil]
    · rw [State.goProducer, State.setProducer_of_ne _ i _ hk, part_of_ne (Ne.symm hk), List.append_nil]
      exact h.produced k
  · intro k
    refine (h.printed k).trans (congrArg ((s.consumers k).printed ++ ·) (vals_congr fun a _ => hval a).symm)
  · exact h.counted

/-- The first node goes from the queue to the hand of the consumer. -/
theorem Stored.remove (h : Stored setup s nodes) {node : Option Nat} {queue : Queue}
    (hpc : (s.consumers j).pc = .remove) (hremove : removeNode s.queue = some (node, queue)) :
    ∃ nodes, Stored setup ({ s with queue, removed := s.removed ++ removal j s.queue node }.goConsumer j
      (.unlockQueue node)) nodes := by
  cases nodes with
  | nil =>
    obtain ⟨rfl, rfl⟩ := Prod.mk.inj (Option.some.inj ((removeNode_nil h.linked).symm.trans hremove))
    have hquiet : Stored setup (s.goConsumer j (.unlockQueue none)) [] :=
      h.setConsumer (by rw [Consumer.hand, Consumer.hand, hpc]) (by rw [Consumer.unprinted, Consumer.unprinted, hpc])
        rfl (by rw [Consumer.counted, Consumer.counted, hpc])
    exact ⟨[], hquiet.congr rfl rfl (List.append_nil _) rfl rfl⟩
  | cons a rest =>
    obtain ⟨r, hr, hlinked, hval, hsame⟩ := removeNode_spec h.linked
    obtain ⟨rfl, rfl⟩ := Prod.mk.inj (Option.some.inj (hremove.symm.trans hr))
    obtain ⟨first, hfirst⟩ := Option.isSome_iff_exists.mp (h.linked.allocated a List.mem_cons_self)
    have hremoval : removal j s.queue (some a) = [(j, first.val)] := by simp [removal, hfirst]
    have hone : vals s.queue.heap [a] = [first.val] := vals_singleton hfirst
    have hothers (u : Thread) (hu : u ≠ .consumer j) :=
      hand_setConsumer_of_ne (s := s) { s.consumers j with pc := .unlockQueue (some a) } hu
    have hself : (s.setConsumer j { s.consumers j with pc := .unlockQueue (some a) }).hand (.consumer j) = some a :=
      hand_setConsumer_self _
    have hout {u : Thread} {b : Nat} (hb : s.hand u = some b) : b ∉ rest := fun hmem =>
      h.unlinked u b hb (List.mem_cons_of_mem _ hmem)
    refine ⟨rest, ?_⟩
    constructor
    · exact hlinked
    · intro k b hb
      obtain ⟨prev, val, hnode⟩ := h.new k b hb
      exact ⟨prev, val, (hsame b (hout (u := .producer k) hb)).trans hnode⟩
    · intro u b hb
      refine isSome_of_val (hval b) ?_
      by_cases hu : u = .consumer j
      · subst hu
        obtain rfl := Option.some.inj (hself.symm.trans hb)
        exact h.linked.allocated _ List.mem_cons_self
      · exact h.allocated u b ((hothers u hu).symm.trans hb)
    · intro u b hb
      by_cases hu : u = .consumer j
      · subst hu
        obtain rfl := Option.some.inj (hself.symm.trans hb)
        exact (List.nodup_cons.mp h.linked.nodup).1
      · exact hout ((hothers u hu).symm.trans hb)
    · refine hands_change h.hands hothers fun b hb u _ hu => ?_
      obtain rfl := Option.some.inj (hself.symm.trans hb)
      exact h.unlinked u _ hu List.mem_cons_self
    · show _ = (s.removed ++ removal j s.queue (some a)).map Prod.snd ++ vals queue.heap rest
      have hcons := vals_append s.queue.heap [a] rest
      rw [vals_congr fun a _ => hval a, hremoval, List.map_append, List.append_assoc]
      exact h.order.trans (congrArg _ (hcons.trans (by rw [hone]; rfl)))
    · intro k
      refine Eq.trans ?_ (h.produced k)
      exact congrArg (fun l => part k s.enqueued ++ l ++ (s.producers k).rest) (vals_congr fun a _ => hval a)
    · intro k
      show part k (s.removed ++ removal j s.queue (some a)) = _ ++ vals queue.heap _
      rw [vals_congr fun a _ => hval a, hremoval, part_append, h.printed k]
      by_cases hk : k = j
      · subst hk
        have hnothing : (s.consumers k).unprinted = none := by rw [Consumer.unprinted, hpc]
        rw [hnothing, part_self, State.goConsumer, State.setConsumer_self]
        show _ ++ [] ++ [first.val] = _ ++ vals s.queue.heap [a]
        rw [hone, List.append_nil]
      · rw [part_of_ne (Ne.symm hk), State.goConsumer, State.setConsumer_of_ne _ j _ hk, List.append_nil]
    · have hcount := h.counted j
      rw [Consumer.counted, hpc] at hcount
      exact counted_setConsumer h.counted hcount

/-- The removed node still has its character. -/
theorem Stored.print (h : Stored setup s nodes) {node : Nat} {first : Node Nat UInt8}
    (hpc : (s.consumers j).pc = .print node) (hfirst : s.queue.heap node = some first) :
    Stored setup (s.setConsumer j
      { s.consumers j with pc := .free node, printed := (s.consumers j).printed ++ [first.val] }) nodes := by
  have hhand : (s.consumers j).hand = some node := by rw [Consumer.hand, hpc]
  have hhands : (s.setConsumer j
      { s.consumers j with pc := .free node, printed := (s.consumers j).printed ++ [first.val] }).hand = s.hand := by
    funext u
    by_cases hu : u = .consumer j
    · rw [hu, hand_setConsumer_self]
      exact hhand.symm
    · exact hand_setConsumer_of_ne _ hu
  exact
    { linked := h.linked
      new := h.new
      allocated := by rw [hhands]; exact h.allocated
      unlinked := by rw [hhands]; exact h.unlinked
      hands := by rw [hhands]; exact h.hands
      order := h.order
      produced := h.produced
      printed := fun k => by
        by_cases hk : k = j
        · subst hk
          have hunprinted : (s.consumers k).unprinted = some node := by rw [Consumer.unprinted, hpc]
          rw [State.setConsumer_self]
          show part k s.removed = (_ ++ [first.val]) ++ []
          rw [h.printed k, hunprinted, List.append_nil]
          exact congrArg _ (vals_singleton hfirst)
        · rw [State.setConsumer_of_ne s j _ hk]
          exact h.printed k
      counted := by
        have hcount := h.counted j
        rw [Consumer.counted, hpc] at hcount
        refine counted_setConsumer h.counted ?_
        rw [List.length_append, hcount]
        rfl }

/-- Nobody else has the node that is freed. -/
theorem Stored.free (h : Stored setup s nodes) {node : Nat} (hpc : (s.consumers j).pc = .free node) :
    Stored setup ({ s with
      queue := { s.queue with heap := Function.update s.queue.heap node none } }.goConsumer j .increment) nodes := by
  have hhand : s.hand (.consumer j) = some node := by rw [State.hand, Consumer.hand, hpc]
  have hothers (u : Thread) (hu : u ≠ .consumer j) :=
    hand_setConsumer_of_ne (s := s) { s.consumers j with pc := .increment } hu
  have hnone {a : Nat} : ¬ (s.setConsumer j { s.consumers j with pc := .increment }).hand (.consumer j) = some a := by
    rw [hand_setConsumer_self]
    nofun
  have hold {u : Thread} {a : Nat} (ha : (s.setConsumer j { s.consumers j with pc := .increment }).hand u = some a) :
      u ≠ .consumer j ∧ s.hand u = some a := by
    have hu : u ≠ .consumer j := by
      rintro rfl
      exact hnone ha
    exact ⟨hu, (hothers u hu).symm.trans ha⟩
  have hkept {u : Thread} {a : Nat} (hu : u ≠ .consumer j) (ha : s.hand u = some a) :
      Function.update s.queue.heap node none a = s.queue.heap a := by
    refine Function.update_of_ne ?_ _ _
    rintro rfl
    exact hu (h.hands u (.consumer j) _ ha hhand)
  have hlist (a : Nat) (ha : a ∈ nodes) : Function.update s.queue.heap node none a = s.queue.heap a := by
    refine Function.update_of_ne ?_ _ _
    rintro rfl
    exact h.unlinked (.consumer j) _ hhand ha
  constructor
  · exact h.linked.congr hlist
  · intro k a ha
    obtain ⟨prev, val, hnode⟩ := h.new k a ha
    exact ⟨prev, val, (hkept (u := .producer k) nofun ha).trans hnode⟩
  · intro u a ha
    obtain ⟨hu, ha⟩ := hold ha
    show (Function.update s.queue.heap node none a).isSome
    rw [hkept hu ha]
    exact h.allocated u a ha
  · exact fun u a ha => h.unlinked u a (hold ha).2
  · exact hands_change h.hands hothers fun a ha => absurd ha hnone
  · exact h.order.trans (congrArg _ (vals_congr fun a ha => congrArg _ (hlist a ha)).symm)
  · intro k
    refine Eq.trans (congrArg (fun l => part k s.enqueued ++ l ++ (s.producers k).rest) ?_) (h.produced k)
    exact vals_hand fun a ha => congrArg _ (hkept (u := .producer k) nofun ha)
  · intro k
    by_cases hk : k = j
    · subst hk
      have hunprinted : (s.consumers k).unprinted = none := by rw [Consumer.unprinted, hpc]
      rw [State.goConsumer, State.setConsumer_self]
      show part k s.removed = _ ++ []
      rw [h.printed k, hunprinted]
      rfl
    · rw [State.goConsumer, State.setConsumer_of_ne _ j _ hk]
      refine (h.printed k).trans (congrArg ((s.consumers k).printed ++ ·) (vals_hand fun a ha => ?_).symm)
      refine congrArg _ (hkept (u := .consumer k) ?_ (hand_of_unprinted ha))
      exact fun heq => hk (Thread.consumer.inj heq)
  · have hcount := h.counted j
    rw [Consumer.counted, hpc] at hcount
    exact counted_setConsumer h.counted hcount

/-! ## All moves -/

theorem stored_producer (h : Stored setup s nodes) (hchild : ∀ j, (s.producers i).pc = .create →
    setup.child i = some j → (s.consumers j).pc = .unborn) (hm : ProducerMove setup i s t) :
    ∃ nodes, Stored setup t nodes := by
  cases hm with
  | malloc hpc hrest hfree => exact ⟨nodes, h.malloc hpc hrest hfree⟩
  | add hpc hnew hadd => exact ⟨_, h.add hpc hnew hadd⟩
  | createChild hpc hj =>
    rename_i j
    have hunborn := hchild j hpc hj
    have hborn : Stored setup (s.goConsumer j .lockQueue) nodes :=
      h.setConsumer (by rw [Consumer.hand, Consumer.hand, hunborn])
        (by rw [Consumer.unprinted, Consumer.unprinted, hunborn]) rfl
        (by rw [Consumer.counted, Consumer.counted, hunborn])
    refine ⟨nodes, hborn.setProducer ?_ rfl⟩
    show _ = (s.producers i).hand
    rw [Producer.hand, Producer.hand, hpc]
  | create hpc | done hpc | lockQueue hpc | unlockQueue hpc | lockNum hpc | decrement hpc | unlockNum hpc | join hpc =>
    refine ⟨nodes, (h.goProducer _ ?_).congr rfl rfl rfl rfl rfl⟩
    rw [Producer.hand, Producer.hand, hpc]

theorem stored_consumer (h : Stored setup s nodes) (hm : ConsumerMove j s t) : ∃ nodes, Stored setup t nodes := by
  cases hm with
  | remove hpc hremove => exact h.remove hpc hremove
  | print hpc hfirst => exact ⟨nodes, h.print hpc hfirst⟩
  | free hpc => exact ⟨nodes, h.free hpc⟩
  | lockQueue hpc | lockNum hpc | goOn hpc | exit hpc | unlockNum hpc | unlockQueue hpc | tryAgain hpc | exitNum hpc
  | exitQueue hpc =>
    refine ⟨nodes, (h.goConsumer _ ?_ ?_ ?_).congr rfl rfl rfl rfl rfl⟩
    · rw [Consumer.hand, Consumer.hand, hpc]
    · rw [Consumer.unprinted, Consumer.unprinted, hpc]
    · rw [Consumer.counted, Consumer.counted, hpc]
  | increment hpc =>
    refine ⟨nodes, h.setConsumer ?_ ?_ rfl ?_⟩
    · rw [Consumer.hand, Consumer.hand, hpc]
    · rw [Consumer.unprinted, Consumer.unprinted, hpc]
    · rw [Consumer.counted, Consumer.counted, hpc]

end AdvancedOS.Prelab
