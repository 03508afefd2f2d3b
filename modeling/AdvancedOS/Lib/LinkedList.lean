import Mathlib.Data.List.Basic
import Mathlib.Logic.Function.Basic

/-!
# Doubly linked lists in a heap

A heap maps the addresses that are allocated to their nodes; a pointer is an address or NULL. Reading or
writing through a pointer is possible only at an allocated address.

* `Linked heap front back nodes`: following `next` from `front` visits `nodes` and ends at `back`, and `prev`
  mirrors `next`.
* `Linked.push_nil`, `Linked.push`: a node becomes the last one.
* `Linked.rest_nil`, `Linked.pop`: the first node is taken out.
* `vals`: the values in the list; writing pointers keeps them.
-/

namespace LinkedList

variable {α β : Type}

structure Node (α β : Type) where
  next : Option α
  prev : Option α
  val : β
  deriving DecidableEq, Repr

/-- The nodes that are allocated. -/
abbrev Heap (α β : Type) := α → Option (Node α β)

/-- `a->next = p`. -/
def setNext [DecidableEq α] (heap : Heap α β) (a : α) (p : Option α) : Option (Heap α β) :=
  (heap a).map fun node => Function.update heap a (some { node with next := p })

/-- `a->prev = p`. -/
def setPrev [DecidableEq α] (heap : Heap α β) (a : α) (p : Option α) : Option (Heap α β) :=
  (heap a).map fun node => Function.update heap a (some { node with prev := p })

/-- Following `next` from `start` visits `nodes` and ends at NULL; `prev` of each node is the one before it,
and that of the first is `before`. -/
def Chain (heap : Heap α β) : Option α → Option α → List α → Prop
  | _, start, [] => start = none
  | before, start, a :: nodes =>
    start = some a ∧ ∃ node, heap a = some node ∧ node.prev = before ∧ Chain heap (some a) node.next nodes

structure Linked (heap : Heap α β) (front back : Option α) (nodes : List α) : Prop where
  chain : Chain heap none front nodes
  back_eq : back = nodes.getLast?
  nodup : nodes.Nodup

/-- The values at some addresses. -/
def vals (heap : Heap α β) (nodes : List α) : List β := nodes.filterMap fun a => (heap a).map Node.val

variable {heap heap' : Heap α β} {before start front back p : Option α} {nodes : List α} {a b : α}
  {node : Node α β} {val : β}

/-! ## Chains -/

theorem Chain.congr (h : Chain heap before start nodes) (hsame : ∀ a ∈ nodes, heap' a = heap a) :
    Chain heap' before start nodes := by
  induction nodes generalizing before start with
  | nil => exact h
  | cons a nodes ih =>
    obtain ⟨hstart, node, hnode, hprev, hrest⟩ := h
    exact ⟨hstart, node, (hsame a List.mem_cons_self).trans hnode, hprev,
      ih hrest fun b hb => hsame b (List.mem_cons_of_mem _ hb)⟩

theorem Chain.allocated (h : Chain heap before start nodes) : ∀ a ∈ nodes, (heap a).isSome := by
  induction nodes generalizing before start with
  | nil => nofun
  | cons a nodes ih =>
    obtain ⟨-, node, hnode, -, hrest⟩ := h
    refine List.forall_mem_cons.mpr ⟨?_, ih hrest⟩
    rw [hnode]
    rfl

/-- The heap determines the nodes. -/
theorem Chain.unique (h : Chain heap before start nodes) {nodes' : List α} (h' : Chain heap before start nodes') :
    nodes = nodes' := by
  induction nodes generalizing before start nodes' with
  | nil =>
    cases nodes' with
    | nil => rfl
    | cons a nodes' => cases h.symm.trans h'.1
  | cons a nodes ih =>
    obtain ⟨hstart, node, hnode, -, hrest⟩ := h
    cases nodes' with
    | nil => cases hstart.symm.trans h'
    | cons b nodes' =>
      obtain ⟨hstart', node', hnode', -, hrest'⟩ := h'
      obtain rfl := Option.some.inj (hstart.symm.trans hstart')
      obtain rfl := Option.some.inj (hnode.symm.trans hnode')
      rw [ih hrest hrest']

/-- `prev` mirrors `next`. -/
theorem Chain.prev_of_next (h : Chain heap before start nodes) {node' : Node α β} (ha : a ∈ nodes)
    (hnode : heap a = some node) (hnext : node.next = some b) (hnode' : heap b = some node') :
    node'.prev = some a := by
  induction nodes generalizing before start with
  | nil => cases ha
  | cons c nodes ih =>
    obtain ⟨-, nodec, hc, -, hrest⟩ := h
    rcases List.mem_cons.mp ha with rfl | ha
    · obtain rfl := Option.some.inj (hc.symm.trans hnode)
      cases nodes with
      | nil => cases hrest.symm.trans hnext
      | cons d nodes =>
        obtain ⟨hstart, noded, hd, hprev, -⟩ := hrest
        obtain rfl := Option.some.inj (hstart.symm.trans hnext)
        obtain rfl := Option.some.inj (hd.symm.trans hnode')
        exact hprev
    · exact ih hrest ha

/-- A node is hung behind the last one. -/
theorem Chain.push (h : Chain heap before start (nodes ++ [b]))
    (hb : heap' b = (heap b).map fun node => { node with next := some a })
    (ha : heap' a = some ⟨none, some b, val⟩) (hsame : ∀ c ∈ nodes, heap' c = heap c) :
    Chain heap' before start (nodes ++ [b, a]) := by
  induction nodes generalizing before start with
  | nil =>
    obtain ⟨hstart, node, hnode, hprev, -⟩ := h
    rw [hnode] at hb
    exact ⟨hstart, _, hb, hprev, rfl, _, ha, rfl, rfl⟩
  | cons c nodes ih =>
    obtain ⟨hstart, node, hnode, hprev, hrest⟩ := h
    have hsame' := List.forall_mem_cons.mp hsame
    exact ⟨hstart, node, hsame'.1.trans hnode, hprev, ih hrest hsame'.2⟩

/-! ## Lists -/

theorem Linked.nil (heap : Heap α β) : Linked heap none none [] := ⟨rfl, rfl, List.nodup_nil⟩

theorem Linked.congr (h : Linked heap front back nodes) (hsame : ∀ a ∈ nodes, heap' a = heap a) :
    Linked heap' front back nodes := ⟨h.chain.congr hsame, h.back_eq, h.nodup⟩

theorem Linked.allocated (h : Linked heap front back nodes) : ∀ a ∈ nodes, (heap a).isSome := h.chain.allocated

theorem Linked.front_eq (h : Linked heap front back nodes) : front = nodes.head? := by
  cases nodes with
  | nil => exact h.chain
  | cons a nodes => exact h.chain.1

theorem Linked.front_none_iff (h : Linked heap front back nodes) : front = none ↔ nodes = [] := by
  rw [h.front_eq, List.head?_eq_none_iff]

theorem Linked.back_none_iff (h : Linked heap front back nodes) : back = none ↔ nodes = [] := by
  rw [h.back_eq, List.getLast?_eq_none_iff]

theorem Linked.prev_front (h : Linked heap (some a) back nodes) (hnode : heap a = some node) : node.prev = none := by
  cases nodes with
  | nil => cases h.chain
  | cons b nodes =>
    obtain ⟨hstart, nodeb, hb, hprev, -⟩ := h.chain
    obtain rfl := Option.some.inj hstart
    obtain rfl := Option.some.inj (hb.symm.trans hnode)
    exact hprev

theorem Linked.push_nil (hnode : heap a = some ⟨none, none, val⟩) : Linked heap (some a) (some a) [a] :=
  ⟨⟨rfl, _, hnode, rfl, rfl⟩, rfl, List.nodup_cons.mpr ⟨List.not_mem_nil, List.nodup_nil⟩⟩

theorem Linked.push (h : Linked heap front (some b) nodes) (hnew : a ∉ nodes)
    (hb : heap' b = (heap b).map fun node => { node with next := some a })
    (ha : heap' a = some ⟨none, some b, val⟩) (hsame : ∀ c ∈ nodes, c ≠ b → heap' c = heap c) :
    Linked heap' front (some a) (nodes ++ [a]) := by
  obtain ⟨init, rfl⟩ := List.getLast?_eq_some_iff.mp h.back_eq.symm
  have hne {c : α} (hc : c ∈ init) : c ≠ b := by
    rintro rfl
    exact (List.nodup_append.mp h.nodup).2.2 c hc c (List.mem_singleton_self c) rfl
  refine ⟨?_, List.getLast?_concat.symm, List.nodup_append.mpr ⟨h.nodup, ?_, ?_⟩⟩
  · rw [List.append_assoc]
    exact h.chain.push hb ha fun c hc => hsame c (List.mem_append_left _ hc) (hne hc)
  · exact List.nodup_cons.mpr ⟨List.not_mem_nil, List.nodup_nil⟩
  · intro c hc d hd
    rw [List.mem_singleton.mp hd]
    rintro rfl
    exact hnew hc

/-- A first node without a next one is the only one. -/
theorem Linked.rest_nil (h : Linked heap front back (a :: nodes)) (hnode : heap a = some node)
    (hnext : node.next = none) : nodes = [] := by
  obtain ⟨-, node', hnode', -, hrest⟩ := h.chain
  obtain rfl := Option.some.inj (hnode'.symm.trans hnode)
  rw [hnext] at hrest
  cases nodes with
  | nil => rfl
  | cons b nodes => cases hrest.1

theorem Linked.rest_cons (h : Linked heap front back (a :: nodes)) (hnode : heap a = some node)
    (hnext : node.next = some b) : ∃ rest, nodes = b :: rest := by
  obtain ⟨-, node', hnode', -, hrest⟩ := h.chain
  obtain rfl := Option.some.inj (hnode'.symm.trans hnode)
  rw [hnext] at hrest
  cases nodes with
  | nil => cases hrest
  | cons c nodes =>
    obtain rfl := Option.some.inj hrest.1
    exact ⟨nodes, rfl⟩

/-- The first of several nodes is taken out; no node of the list points to it any more. -/
theorem Linked.pop (h : Linked heap front back (a :: b :: nodes))
    (hb : heap' b = (heap b).map fun node => { node with prev := none })
    (hsame : ∀ c ∈ nodes, heap' c = heap c) : Linked heap' (some b) back (b :: nodes) := by
  obtain ⟨-, node, -, -, -, second, hsecond, -, hrest⟩ := h.chain
  rw [hsecond] at hb
  refine ⟨⟨rfl, _, hb, rfl, hrest.congr hsame⟩, ?_, (List.nodup_cons.mp h.nodup).2⟩
  rw [h.back_eq, List.getLast?_cons_cons]

/-! ## The values -/

theorem vals_congr (hsame : ∀ a ∈ nodes, (heap' a).map Node.val = (heap a).map Node.val) :
    vals heap' nodes = vals heap nodes := List.filterMap_congr hsame

theorem vals_append (heap : Heap α β) (nodes nodes' : List α) :
    vals heap (nodes ++ nodes') = vals heap nodes ++ vals heap nodes' := List.filterMap_append

theorem vals_singleton (h : heap a = some node) : vals heap [a] = [node.val] := by simp [vals, h]

end LinkedList
