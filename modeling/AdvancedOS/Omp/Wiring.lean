import AdvancedOS.Omp.Gtmp2

/-!
# The trees of `gtmp_init`

`gtmpInit` is the loop of `gtmp_init` over the nodes as `posix_memalign` returns them, with whatever is
in the memory. Its index arithmetic is in `int`.

* `gtmpInit_eq`: the nodes have the pointers and bytes of `parentPtr`, `wakeupPtr` and `hc`, as long as
  nothing overflows.
* `Wired`: the parent pointers and the wake-up pointers make trees of all nodes.
* `wired_iff`: the nodes are wired exactly if there are at most `2 ^ 29` of them.
-/

namespace AdvancedOS.Gtmp2.Wiring

open Heap

/-- `INT_MAX`. -/
def intMax : Nat := 2147483647

/-- A sum or product of type `int`; `none` is an overflow, which is undefined. -/
def int (x : Nat) : Option Nat := if x ≤ intMax then some x else none

/-- `mp_mcs_barrier_node`. A pointer to a byte of the `cn` of a node, or to the `parent_sense` of one, has
the index of the node; `none` is `NULL`. -/
structure McsBarrierNode where
  parentPtr : Option (Nat × Fin 4)
  wakeupPtrs : Fin 2 → Option Nat
  sense : Int
  parentSense : Int
  hc : Fin 4 → Int8
  cn : Fin 4 → Int8

/-! ## `gtmp_init` -/

/-- The loop that initializes the wait tree. Its index is negative where it has wrapped. -/
def childLoop (numThreads : Nat) (j : Int) (k : Nat) (node : McsBarrierNode) : McsBarrierNode :=
  if h : j < numThreads ∧ k < 4 then
    childLoop numThreads (j + 1) (k + 1)
      { node with hc := Function.update node.hc ⟨k, h.2⟩ 1, cn := Function.update node.cn ⟨k, h.2⟩ 1 }
  else node
termination_by 4 - k

/-- The first loop that initializes the wakeup tree; it leaves `k` to the second one. -/
def wakeupLoop (numThreads j k : Nat) (node : McsBarrierNode) : Nat × McsBarrierNode :=
  if h : j < numThreads ∧ k < 2 then
    wakeupLoop numThreads (j + 1) (k + 1)
      { node with wakeupPtrs := Function.update node.wakeupPtrs ⟨k, h.2⟩ (some j) }
  else (k, node)
termination_by 2 - k

/-- The second one. -/
def nullLoop (k : Nat) (node : McsBarrierNode) : McsBarrierNode :=
  if h : k < 2 then nullLoop (k + 1) { node with wakeupPtrs := Function.update node.wakeupPtrs ⟨k, h⟩ none }
  else node
termination_by 2 - k

/-- The turn of the loop for node `i`. -/
def initNode (numThreads i : Nat) (node : McsBarrierNode) : Option McsBarrierNode := do
  -- a store to `value` clears the four bytes of the union
  let node := { node with sense := 1, parentSense := 0, hc := fun _ => 0, cn := fun _ => 0 }
  let j ← int (i * 4 + 1)
  let node := childLoop numThreads j 0 node
  let node :=
    if i ≠ 0 then
      { node with parentPtr := some ((i - 1) / 4, ⟨(i - 1) % 4, Nat.mod_lt _ (Nat.succ_pos 3)⟩) }
    else { node with parentPtr := none }
  let j ← int (i * 2 + 1)
  let (k, node) := wakeupLoop numThreads j 0 node
  some (nullLoop k node)

/-- `gtmp_init`; `none` is an overflow. -/
def gtmpInit (numThreads : Nat) (nodes : Nat → McsBarrierNode) : Option (Nat → McsBarrierNode) :=
  (List.range numThreads).foldlM
    (fun nodes i => (initNode numThreads i (nodes i)).map (Function.update nodes i)) nodes

/-! ## Its result -/

variable {n : Nat}

/-- The bytes after the loop from `j` and `k` on. -/
def mark (n : Nat) (j : Int) (k : Nat) (bytes : Fin 4 → Int8) (m : Fin 4) : Int8 :=
  if k ≤ m ∧ j + m - k < n then 1 else bytes m

theorem mark_update {j : Int} {k : Nat} (hj : j < n) (hk : k < 4) (bytes : Fin 4 → Int8) :
    mark n (j + 1) (k + 1) (Function.update bytes ⟨k, hk⟩ 1) = mark n j k bytes := by
  funext m
  unfold mark
  rcases Nat.lt_trichotomy m k with hlt | heq | hgt
  · rw [if_neg (by omega), if_neg (by omega), Function.update_of_ne (Fin.ne_of_lt hlt)]
  · obtain rfl : m = ⟨k, hk⟩ := Fin.ext heq
    rw [if_neg (by simp), if_pos ⟨Nat.le_refl k, by simpa using hj⟩, Function.update_self]
  · rw [Function.update_of_ne (Fin.ne_of_gt hgt)]
    exact if_congr (by omega) rfl rfl

theorem childLoop_eq (n : Nat) (j : Int) (k : Nat) (node : McsBarrierNode) :
    childLoop n j k node = { node with hc := mark n j k node.hc, cn := mark n j k node.cn } := by
  fun_induction childLoop n j k node with
  | case1 j k node h ih => rw [ih, mark_update h.1 h.2, mark_update h.1 h.2]
  | case2 j k node h =>
    have hmark : ∀ bytes, mark n j k bytes = bytes := by
      intro bytes
      funext m
      exact if_neg fun hm => h ⟨by omega, by omega⟩
    rw [hmark, hmark]

/-- From an index that has wrapped, the loop takes all slots for children. -/
theorem childLoop_of_wrapped {j : Int} (hj : j + 3 < n) (node : McsBarrierNode) (k : Fin 4) :
    (childLoop n j 0 node).hc k = 1 ∧ (childLoop n j 0 node).cn k = 1 := by
  rw [childLoop_eq]
  exact ⟨if_pos ⟨Nat.zero_le _, by omega⟩, if_pos ⟨Nat.zero_le _, by omega⟩⟩

/-- The pointers after both wake-up loops from `j` and `k` on. -/
def aim (n j k : Nat) (ptrs : Fin 2 → Option Nat) (m : Fin 2) : Option Nat :=
  if k ≤ m then if j + (m - k) < n then some (j + (m - k)) else none else ptrs m

theorem aim_update {j k : Nat} (hj : j < n) (hk : k < 2) (ptrs : Fin 2 → Option Nat) :
    aim n (j + 1) (k + 1) (Function.update ptrs ⟨k, hk⟩ (some j)) = aim n j k ptrs := by
  funext m
  unfold aim
  rcases Nat.lt_trichotomy m k with hlt | heq | hgt
  · rw [if_neg (by omega), if_neg (by omega), Function.update_of_ne (Fin.ne_of_lt hlt)]
  · obtain rfl : m = ⟨k, hk⟩ := Fin.ext heq
    simp [hj]
  · have hidx : j + 1 + (m - (k + 1)) = j + (m - k) := by omega
    rw [if_pos (Nat.succ_le_of_lt hgt), if_pos (Nat.le_of_lt hgt), hidx]

/-- From an index that is too large on there are only null pointers. -/
theorem aim_update_none {j k : Nat} (hj : n ≤ j) (hk : k < 2) (ptrs : Fin 2 → Option Nat) :
    aim n j (k + 1) (Function.update ptrs ⟨k, hk⟩ none) = aim n j k ptrs := by
  funext m
  unfold aim
  rcases Nat.lt_trichotomy m k with hlt | heq | hgt
  · rw [if_neg (by omega), if_neg (by omega), Function.update_of_ne (Fin.ne_of_lt hlt)]
  · obtain rfl : m = ⟨k, hk⟩ := Fin.ext heq
    simp [Nat.not_lt.mpr hj]
  · rw [if_pos (Nat.succ_le_of_lt hgt), if_pos (Nat.le_of_lt hgt), if_neg (by omega), if_neg (by omega)]

theorem aim_two (n j : Nat) {k : Nat} (hk : 2 ≤ k) (ptrs : Fin 2 → Option Nat) : aim n j k ptrs = ptrs := by
  funext m
  exact if_neg (by omega)

theorem nullLoop_eq {j : Nat} (hj : n ≤ j) (k : Nat) (node : McsBarrierNode) :
    nullLoop k node = { node with wakeupPtrs := aim n j k node.wakeupPtrs } := by
  fun_induction nullLoop k node with
  | case1 k node h ih => rw [ih, aim_update_none hj h]
  | case2 k node h => rw [aim_two n j (Nat.not_lt.mp h)]

theorem wakeupLoop_eq (n j k : Nat) (node : McsBarrierNode) :
    nullLoop (wakeupLoop n j k node).1 (wakeupLoop n j k node).2 =
      { node with wakeupPtrs := aim n j k node.wakeupPtrs } := by
  fun_induction wakeupLoop n j k node with
  | case1 j k node h ih => rw [ih, aim_update h.1 h.2]
  | case2 j k node h =>
    rcases Nat.lt_or_ge k 2 with hk | hk
    · exact nullLoop_eq (Nat.not_lt.mp fun hj => h ⟨hj, hk⟩) k node
    · rw [aim_two n j hk, nullLoop_eq (Nat.le_refl n), aim_two n n hk]

/-- Node `i` as the barrier takes it to be set up. -/
def wiredNode (n i : Nat) : McsBarrierNode where
  parentPtr := Gtmp2.parentPtr i
  wakeupPtrs j := wakeupPtr n i j
  sense := 1
  parentSense := 0
  hc k := if Gtmp2.hc n i k then 1 else 0
  cn k := if Gtmp2.hc n i k then 1 else 0

theorem mark_eq (n i : Nat) :
    mark n (i * 4 + 1 : Nat) 0 (fun _ => 0) = fun k => if Gtmp2.hc n i k then 1 else 0 := by
  funext k
  refine if_congr ?_ rfl rfl
  simp only [Gtmp2.hc, decide_eq_true_eq]
  omega

theorem aim_eq (n i : Nat) (ptrs : Fin 2 → Option Nat) :
    aim n (i * 2 + 1) 0 ptrs = fun j : Fin 2 => wakeupPtr n i j := by
  funext j
  simp [aim, wakeupPtr, Nat.mul_comm i 2]

theorem initNode_eq {i : Nat} (hi : i * 4 + 1 ≤ intMax) (node : McsBarrierNode) :
    initNode n i node = some (wiredNode n i) := by
  have hchild : int (i * 4 + 1) = some (i * 4 + 1) := if_pos hi
  have hwakeup : int (i * 2 + 1) = some (i * 2 + 1) := if_pos (by omega)
  simp only [initNode, hchild, hwakeup, Option.bind_eq_bind, Option.bind_some, childLoop_eq, wakeupLoop_eq,
    mark_eq]
  split
  · next hi0 =>
    rw [wiredNode, Gtmp2.parentPtr, if_pos hi0, ← aim_eq n i node.wakeupPtrs]
    rfl
  · next hi0 =>
    rw [wiredNode, Gtmp2.parentPtr, if_neg hi0, ← aim_eq n i node.wakeupPtrs]

theorem initNode_overflow {i : Nat} (hi : intMax < i * 4 + 1) (node : McsBarrierNode) :
    initNode n i node = none := by
  have hchild : int (i * 4 + 1) = none := if_neg (Nat.not_le.mpr hi)
  simp only [initNode, hchild, Option.bind_eq_bind, Option.bind_none]

/-- The first turns of the loop. -/
theorem initNodes_eq (n m : Nat) (nodes : Nat → McsBarrierNode) :
    (List.range m).foldlM (fun nodes i => (initNode n i (nodes i)).map (Function.update nodes i)) nodes =
      if m ≤ 2 ^ 29 then some fun i => if i < m then wiredNode n i else nodes i else none := by
  have hmax : intMax = 2147483647 := rfl
  induction m with
  | zero => simp
  | succ m ih =>
    rw [List.range_succ, List.foldlM_append, ih]
    rcases Nat.lt_trichotomy m (2 ^ 29) with hlt | heq | hgt
    · rw [if_pos (Nat.le_of_lt hlt), if_pos (Nat.succ_le_of_lt hlt)]
      simp only [Option.bind_eq_bind, Option.bind_some, List.foldlM_cons, List.foldlM_nil,
        initNode_eq (n := n) (i := m) (by omega), Option.map_some]
      congr 1
      funext i
      rcases Nat.lt_trichotomy i m with hi | rfl | hi
      · rw [Function.update_of_ne (Nat.ne_of_lt hi), if_pos hi, if_pos (Nat.lt_succ_of_lt hi)]
      · rw [Function.update_self, if_pos (Nat.lt_succ_self i)]
      · rw [Function.update_of_ne (Nat.ne_of_gt hi), if_neg (by omega), if_neg (by omega)]
    · rw [if_pos (Nat.le_of_eq heq), if_neg (by omega)]
      simp only [Option.bind_eq_bind, Option.bind_some, List.foldlM_cons,
        initNode_overflow (n := n) (i := m) (by omega), Option.map_none, Option.bind_none]
    · rw [if_neg (Nat.not_le.mpr hgt), if_neg (by omega)]
      rfl

/-- What `gtmp_init` returns, if it does. -/
theorem gtmpInit_eq (n : Nat) (nodes : Nat → McsBarrierNode) :
    gtmpInit n nodes =
      if n ≤ 2 ^ 29 then some fun i => if i < n then wiredNode n i else nodes i else none :=
  initNodes_eq n n nodes

/-! ## The trees -/

/-- The child slots whose `hc` and `cn` bytes are 1. -/
def slots (n : Nat) (nodes : Nat → McsBarrierNode) : Set (Nat × Fin 4) :=
  {s | s.1 < n ∧ (nodes s.1).hc s.2 = 1 ∧ (nodes s.1).cn s.2 = 1}

/-- `parent_ptr` of node `c` leads to node `p`. -/
def Arrives (n : Nat) (nodes : Nat → McsBarrierNode) (p c : Nat) : Prop :=
  p < n ∧ c < n ∧ ∃ k, (nodes c).parentPtr = some (p, k)

/-- One of the `wakeup_ptrs` of node `p` leads to node `c`. -/
def Wakes (n : Nat) (nodes : Nat → McsBarrierNode) (p c : Nat) : Prop :=
  p < n ∧ c < n ∧ ∃ j, (nodes p).wakeupPtrs j = some c

/-- The first `n` nodes are wired as trees. -/
structure Wired (n : Nat) (nodes : Nat → McsBarrierNode) : Prop where
  /-- The parent pointers lead one-to-one to the child slots that are in use. -/
  arrivals : Set.BijOn (fun c => (nodes c).parentPtr) (Set.Ico 1 n) (some '' slots n nodes)
  /-- A byte of `hc` is the byte of `cn`, and 0 if it is not 1. -/
  bytes : ∀ i < n, ∀ k, (nodes i).cn k = (nodes i).hc k ∧ ((nodes i).hc k = 0 ∨ (nodes i).hc k = 1)
  root : 0 < n → (nodes 0).parentPtr = none
  /-- No parent pointer leads to a larger index or outside. -/
  parent_lt : ∀ c < n, ∀ s, (nodes c).parentPtr = some s → s.1 < c
  /-- Every node but node 0 is the target of exactly one wake-up pointer. -/
  wakeups : ∀ c, 1 ≤ c → c < n → ∃! s : Nat × Fin 2, s.1 < n ∧ (nodes s.1).wakeupPtrs s.2 = some c
  /-- No wake-up pointer leads to a smaller index, to node 0 or outside. -/
  wakeup_lt : ∀ i < n, ∀ j c, (nodes i).wakeupPtrs j = some c → i < c ∧ c < n
  arrival_tree : IsTree n (Arrives n nodes)
  wakeup_tree : IsTree n (Wakes n nodes)

theorem wiredNode_parentPtr {c : Nat} (hc : c ≠ 0) : (wiredNode n c).parentPtr = some (slot 4 c) := if_pos hc

theorem wiredNode_hc {p : Nat} {k : Fin 4} : (wiredNode n p).hc k = 1 ↔ child 4 (p, k) < n := by
  simp [wiredNode, Gtmp2.hc, child]

theorem wiredNode_wakeupPtrs {p c : Nat} {j : Fin 2} :
    (wiredNode n p).wakeupPtrs j = some c ↔ c < n ∧ c ≠ 0 ∧ slot 2 c = (p, j) := by
  have hptr : (wiredNode n p).wakeupPtrs j = some c ↔ c < n ∧ c = child 2 (p, j) := by
    show (if child 2 (p, j) < n then some (child 2 (p, j)) else none) = some c ↔ _
    split
    · next hlt =>
      constructor
      · rintro ⟨rfl⟩
        exact ⟨hlt, rfl⟩
      · rintro ⟨-, rfl⟩
        rfl
    · next hge =>
      constructor
      · rintro ⟨⟩
      · rintro ⟨hlt, rfl⟩
        exact absurd hlt hge
  rw [hptr, eq_child_iff]

section Nodes

variable {nodes : Nat → McsBarrierNode} (h : ∀ i < n, nodes i = wiredNode n i)
include h

theorem mem_slots {s : Nat × Fin 4} : s ∈ slots n nodes ↔ child 4 s < n := by
  constructor
  · rintro ⟨hn, hhc, -⟩
    rw [h s.1 hn] at hhc
    exact wiredNode_hc.mp hhc
  · intro hs
    have hn : s.1 < n := by
      unfold child at hs
      omega
    refine ⟨hn, ?_, ?_⟩
    · rw [h s.1 hn]
      exact wiredNode_hc.mpr hs
    · rw [h s.1 hn]
      exact wiredNode_hc.mpr hs

theorem parentPtr_eq {c : Nat} (hn : c < n) (hc : c ≠ 0) : (nodes c).parentPtr = some (slot 4 c) := by
  rw [h c hn, wiredNode_parentPtr hc]

theorem arrives_iff {p c : Nat} : Arrives n nodes p c ↔ c ∈ children 4 n p := by
  rw [mem_children (Nat.succ_pos 3)]
  constructor
  · rintro ⟨-, hn, k, hk⟩
    have hc : c ≠ 0 := by
      rintro rfl
      rw [h 0 hn] at hk
      cases hk
    rw [parentPtr_eq h hn hc, Option.some.injEq] at hk
    exact ⟨hc, hn, congrArg Prod.fst hk⟩
  · rintro ⟨hc, hn, rfl⟩
    exact ⟨Nat.lt_of_le_of_lt (parent_le 4 c) hn, hn, _, parentPtr_eq h hn hc⟩

theorem wakes_iff {p c : Nat} : Wakes n nodes p c ↔ c ∈ children 2 n p := by
  rw [mem_children Nat.zero_lt_two]
  constructor
  · rintro ⟨hp, hn, j, hj⟩
    rw [h p hp, wiredNode_wakeupPtrs] at hj
    exact ⟨hj.2.1, hn, congrArg Prod.fst hj.2.2⟩
  · rintro ⟨hc, hn, rfl⟩
    have hp := Nat.lt_of_le_of_lt (parent_le 2 c) hn
    refine ⟨hp, hn, (slot 2 c).2, ?_⟩
    rw [h _ hp, wiredNode_wakeupPtrs]
    exact ⟨hn, hc, rfl⟩

theorem bijOn_parentPtr :
    Set.BijOn (fun c => (nodes c).parentPtr) (Set.Ico 1 n) (some '' slots n nodes) := by
  have hslots : slots n nodes = {s | child 4 s < n} := Set.ext fun s => mem_slots h
  have hsome : Set.BijOn some {s : Nat × Fin 4 | child 4 s < n} (some '' slots n nodes) := by
    rw [hslots]
    exact (Option.some_injective _).injOn.bijOn_image
  refine (hsome.comp (bijOn_slot n)).congr fun c hc => ?_
  exact (parentPtr_eq h hc.2 (Nat.one_le_iff_ne_zero.mp hc.1)).symm

theorem existsUnique_wakeupPtr {c : Nat} (hc : 1 ≤ c) (hn : c < n) :
    ∃! s : Nat × Fin 2, s.1 < n ∧ (nodes s.1).wakeupPtrs s.2 = some c := by
  have hp : (slot 2 c).1 < n := Nat.lt_of_le_of_lt (parent_le 2 c) hn
  refine ⟨slot 2 c, ⟨hp, ?_⟩, ?_⟩
  · rw [h _ hp, wiredNode_wakeupPtrs]
    exact ⟨hn, Nat.one_le_iff_ne_zero.mp hc, rfl⟩
  · rintro s ⟨hs, hptr⟩
    rw [h _ hs, wiredNode_wakeupPtrs] at hptr
    exact hptr.2.2.symm

theorem wired : Wired n nodes where
  arrivals := bijOn_parentPtr h
  bytes i hi k := by
    rw [h i hi]
    refine ⟨rfl, ?_⟩
    show (if _ then _ else _) = _ ∨ (if _ then _ else _) = _
    split
    · exact .inr rfl
    · exact .inl rfl
  root hn := by
    rw [h 0 hn]
    rfl
  parent_lt c hn s hs := by
    rcases Nat.eq_zero_or_pos c with rfl | hc
    · rw [h 0 hn] at hs
      cases hs
    · rw [parentPtr_eq h hn (Nat.ne_of_gt hc), Option.some.injEq] at hs
      rw [← hs]
      exact parent_lt (Nat.ne_of_gt hc)
  wakeups c hc hn := existsUnique_wakeupPtr h hc hn
  wakeup_lt i hi j c hj := by
    rw [h i hi, wiredNode_wakeupPtrs] at hj
    obtain ⟨hn, hc, hs⟩ := hj
    obtain rfl : parent 2 c = i := congrArg Prod.fst hs
    exact ⟨parent_lt hc, hn⟩
  arrival_tree := by
    have hedges : Arrives n nodes = fun p c => c ∈ children 4 n p := by
      funext p c
      exact propext (arrives_iff h)
    rw [hedges]
    exact isTree_children (Nat.succ_pos 3)
  wakeup_tree := by
    have hedges : Wakes n nodes = fun p c => c ∈ children 2 n p := by
      funext p c
      exact propext (wakes_iff h)
    rw [hedges]
    exact isTree_children Nat.zero_lt_two

end Nodes

/-- The nodes are wired exactly if there are at most `2 ^ 29` of them. -/
theorem wired_iff (n : Nat) (mem : Nat → McsBarrierNode) :
    (∃ nodes, gtmpInit n mem = some nodes ∧ Wired n nodes) ↔ n ≤ 2 ^ 29 := by
  rw [gtmpInit_eq]
  constructor
  · rintro ⟨nodes, hinit, -⟩
    by_contra hbig
    rw [if_neg hbig] at hinit
    cases hinit
  · intro hn
    exact ⟨_, if_pos hn, wired fun i hi => if_pos hi⟩

end AdvancedOS.Gtmp2.Wiring
