import Mathlib.Data.Fin.Basic
import AdvancedOS.Lib.Barrier
import AdvancedOS.Lib.Heap

/-!
# The MCS tree barrier `gtmp2`

`system numThreads numCalls` is the program of the OpenMP `harness.c` over `gtmp2.c`: every thread
makes `numCalls` calls of `gtmp_barrier`. One step is one read or write of one thread of `cn`, `hc`,
`parent_sense` or `sense`. What `gtmp_init` sets once and for all is in `hc`, `parentPtr` and
`wakeupPtr`.

Four counters are history that no step reads: how often a node has been re-armed (`resets`) and woken
up (`wakeups`), and how often a thread has told its parent of its arrival (`arrivals`) and noticed that
it was woken up (`observed`).

* `Move`: all that a step of one thread can do; `move_of_next` inverts a step.
* `Inv`: a child has arrived once more than its parent has been re-armed exactly if its byte of `cn` is
  cleared, and it has been woken up at most once more than it has noticed.
* `mcs_tree_barrier`: the barrier law, no lost arrival, no lost wake-up, and progress.
-/

namespace AdvancedOS.Gtmp2

open Lts Heap

/-- Where a thread is: between two calls; in the `while` on `cn.value`; before the read of `hc.value`
and before its store to `cn.value`; before `*(parent_ptr) = 0`; before the read of `sense` and in the
`while` that compares `parent_sense` with it; at the head of the wake-up loop; before the store to the
`parent_sense` of another node; or before the store to `sense`. -/
inductive Pc
  | outside
  | children
  | rearm
  | reset (value : Fin 4 → Bool)
  | notify
  | await
  | spin (sense : Bool)
  | wake (j : Nat)
  | signal (j : Nat) (sense : Bool)
  | store (sense : Bool)

/-- A thread: the calls it has returned from, and where it is. -/
structure Thread where
  calls : Nat
  pc : Pc
  arrivals : Nat
  observed : Nat

/-- `mp_mcs_barrier_node`. `sense` and `parent_sense` hold 0 or 1. -/
structure Node where
  sense : Bool
  parentSense : Bool
  cn : Fin 4 → Bool
  resets : Nat
  wakeups : Nat

structure State where
  nodes : Nat → Node
  threads : Nat → Thread

/-! ## `gtmp_init` -/

/-- `hc` of node `i`: the `k`-th child is node `4 * i + 1 + k`. -/
def hc (n i : Nat) (k : Fin 4) : Bool := 4 * i + 1 + k < n

/-- `parent_ptr` of node `i`: the parent, and the byte of its `cn`. -/
def parentPtr (i : Nat) : Option (Nat × Fin 4) :=
  if i ≠ 0 then some (parent 4 i, Fin.ofNat 4 (i - 1)) else none

/-- The node whose `parent_sense` is `wakeup_ptrs[j]` of node `i`. -/
def wakeupPtr (n i j : Nat) : Option Nat := if 2 * i + 1 + j < n then some (2 * i + 1 + j) else none

def initNode (n i : Nat) : Node :=
  { sense := true, parentSense := false, cn := hc n i, resets := 0, wakeups := 0 }

def gtmpInit (n : Nat) : State :=
  { nodes := initNode n, threads := fun _ => ⟨0, .outside, 0, 0⟩ }

/-! ## `gtmp_barrier` -/

/-- Node `i` becomes `node`. -/
def State.write (s : State) (i : Nat) (node : Node) : State :=
  { s with nodes := Function.update s.nodes i node }

/-- Thread `id` becomes `th`. -/
def State.set (s : State) (id : Nat) (th : Thread) : State :=
  { s with threads := Function.update s.threads id th }

/-- The next step of thread `id` in `gtmp_barrier`, or the start of its next call. A test of a
`while` that fails changes nothing, so only the last one is a step. -/
def gtmpBarrier (n numCalls id : Nat) (s : State) : Option State :=
  let th := s.threads id
  let node := s.nodes id
  match th.pc with
  | .outside => if th.calls < numCalls then some (s.set id { th with pc := .children }) else none
  | .children => if ∃ k, node.cn k = true then none else some (s.set id { th with pc := .rearm })
  | .rearm => some (s.set id { th with pc := .reset (hc n id) })
  | .reset value =>
    some ((s.write id { node with cn := value, resets := node.resets + 1 }).set id
      { th with pc := if (parentPtr id).isSome then .notify else .wake 0 })
  | .notify =>
    match parentPtr id with
    | none => none
    | some (p, k) =>
      some ((s.write p { s.nodes p with cn := Function.update (s.nodes p).cn k false }).set id
        { th with pc := .await, arrivals := th.arrivals + 1 })
  | .await => some (s.set id { th with pc := .spin node.sense })
  | .spin sense =>
    if node.parentSense = sense then
      some (s.set id { th with pc := .wake 0, observed := th.observed + 1 })
    else none
  | .wake j =>
    if j < 2 then
      match wakeupPtr n id j with
      | some _ => some (s.set id { th with pc := .signal j node.sense })
      | none => some (s.set id { th with pc := .wake (j + 1) })
    else some (s.set id { th with pc := .store node.sense })
  | .signal j sense =>
    match wakeupPtr n id j with
    | none => none
    | some c =>
      some ((s.write c { s.nodes c with parentSense := sense, wakeups := (s.nodes c).wakeups + 1 }).set id
        { th with pc := .wake (j + 1) })
  | .store sense =>
    some ((s.write id { node with sense := !sense }).set id
      { th with pc := .outside, calls := th.calls + 1 })

/-- An action is a step of the thread it names. -/
def system (n numCalls : Nat) : System State Nat where
  init := gtmpInit n
  next id s := if id < n then gtmpBarrier n numCalls id s else none

/-- The calls a thread has entered. -/
def Thread.entered (th : Thread) : Nat :=
  match th.pc with
  | .outside => th.calls
  | _ => th.calls + 1

/-! ## What a step can do -/

/-- The steps of thread `id`. -/
inductive Move (n numCalls id : Nat) (s : State) : State → Prop
  | enter : (s.threads id).pc = .outside → (s.threads id).calls < numCalls →
      Move n numCalls id s (s.set id { s.threads id with pc := .children })
  | gather : (s.threads id).pc = .children → (∀ k, (s.nodes id).cn k = false) →
      Move n numCalls id s (s.set id { s.threads id with pc := .rearm })
  | load : (s.threads id).pc = .rearm →
      Move n numCalls id s (s.set id { s.threads id with pc := .reset (hc n id) })
  | reset {value : Fin 4 → Bool} : (s.threads id).pc = .reset value →
      Move n numCalls id s
        ((s.write id { s.nodes id with cn := value, resets := (s.nodes id).resets + 1 }).set id
          { s.threads id with pc := if id ≠ 0 then .notify else .wake 0 })
  | notify : (s.threads id).pc = .notify → id ≠ 0 →
      Move n numCalls id s
        ((s.write (parent 4 id) { s.nodes (parent 4 id) with
            cn := Function.update (s.nodes (parent 4 id)).cn (Fin.ofNat 4 (id - 1)) false }).set id
          { s.threads id with pc := .await, arrivals := (s.threads id).arrivals + 1 })
  | await : (s.threads id).pc = .await →
      Move n numCalls id s (s.set id { s.threads id with pc := .spin (s.nodes id).sense })
  | notice : (s.threads id).pc = .spin (s.nodes id).parentSense →
      Move n numCalls id s
        (s.set id { s.threads id with pc := .wake 0, observed := (s.threads id).observed + 1 })
  | wake {j : Nat} : (s.threads id).pc = .wake j → j < 2 → 2 * id + 1 + j < n →
      Move n numCalls id s (s.set id { s.threads id with pc := .signal j (s.nodes id).sense })
  | skip {j : Nat} : (s.threads id).pc = .wake j → j < 2 → ¬ 2 * id + 1 + j < n →
      Move n numCalls id s (s.set id { s.threads id with pc := .wake (j + 1) })
  | signal {j c : Nat} {sense : Bool} : (s.threads id).pc = .signal j sense → 2 * id + 1 + j = c →
      c < n →
      Move n numCalls id s
        ((s.write c { s.nodes c with parentSense := sense, wakeups := (s.nodes c).wakeups + 1 }).set id
          { s.threads id with pc := .wake (j + 1) })
  | woken {j : Nat} : (s.threads id).pc = .wake j → ¬ j < 2 →
      Move n numCalls id s (s.set id { s.threads id with pc := .store (s.nodes id).sense })
  | leave {sense : Bool} : (s.threads id).pc = .store sense →
      Move n numCalls id s ((s.write id { s.nodes id with sense := !sense }).set id
        { s.threads id with pc := .outside, calls := (s.threads id).calls + 1 })

variable {n numCalls id : Nat} {s t : State}

theorem move_of_gtmpBarrier (h : gtmpBarrier n numCalls id s = some t) : Move n numCalls id s t := by
  unfold gtmpBarrier at h
  simp only at h
  split at h
  · next hpc =>
    split at h
    · next hlt => cases h; exact .enter hpc hlt
    · cases h
  · next hpc =>
    split at h
    · cases h
    · next hno => cases h; exact .gather hpc (by simpa using hno)
  · next hpc => cases h; exact .load hpc
  · next value hpc =>
    cases h
    have hroot : (parentPtr id).isSome = true ↔ id ≠ 0 := by
      by_cases hid : id = 0 <;> simp [parentPtr, hid]
    simp only [hroot]
    exact .reset hpc
  · next hpc =>
    by_cases hid : id = 0
    · rw [parentPtr, if_neg (not_not.mpr hid)] at h
      cases h
    · rw [parentPtr, if_pos hid] at h
      cases h
      exact .notify hpc hid
  · next hpc => cases h; exact .await hpc
  · next sense hpc =>
    split at h
    · next hsense => cases h; subst hsense; exact .notice hpc
    · cases h
  · next j hpc =>
    split at h
    · next hj =>
      by_cases hc : 2 * id + 1 + j < n
      · rw [wakeupPtr, if_pos hc] at h
        cases h
        exact .wake hpc hj hc
      · rw [wakeupPtr, if_neg hc] at h
        cases h
        exact .skip hpc hj hc
    · next hj => cases h; exact .woken hpc hj
  · next j sense hpc =>
    by_cases hc : 2 * id + 1 + j < n
    · rw [wakeupPtr, if_pos hc] at h
      cases h
      exact .signal hpc rfl hc
    · rw [wakeupPtr, if_neg hc] at h
      cases h
  · next sense hpc => cases h; exact .leave hpc

theorem move_of_next (h : (system n numCalls).next id s = some t) : id < n ∧ Move n numCalls id s t := by
  simp only [system] at h
  split at h
  · next hid => exact ⟨hid, move_of_gtmpBarrier h⟩
  · cases h

@[simp] theorem set_nodes (s : State) (id : Nat) (th : Thread) : (s.set id th).nodes = s.nodes := rfl

@[simp] theorem set_self (s : State) (id : Nat) (th : Thread) : (s.set id th).threads id = th :=
  Function.update_self _ _ _

theorem set_of_ne (s : State) {id i : Nat} (th : Thread) (h : i ≠ id) :
    (s.set id th).threads i = s.threads i := Function.update_of_ne h _ _

@[simp] theorem write_threads (s : State) (i : Nat) (node : Node) :
    (s.write i node).threads = s.threads := rfl

@[simp] theorem write_self (s : State) (i : Nat) (node : Node) : (s.write i node).nodes i = node :=
  Function.update_self _ _ _

theorem write_of_ne (s : State) {i j : Nat} (node : Node) (h : j ≠ i) :
    (s.write i node).nodes j = s.nodes j := Function.update_of_ne h _ _

/-! ## How far a thread is -/

/-- The stages of a call. -/
def Pc.stage : Pc → Nat
  | .outside => 0
  | .children => 1
  | .rearm | .reset _ => 2
  | .notify => 3
  | .await | .spin _ => 4
  | .wake j | .signal j _ => 5 + j
  | .store _ => 7

/-- The calls in which a thread has come to stage `k`. -/
def Thread.past (k : Nat) (th : Thread) : Nat := th.calls + if k ≤ th.pc.stage then 1 else 0

/-- Stage 1 is the call itself, 2 the end of the wait for the children, 3 the store to `cn`, 4 the
store to the parent's `cn` and 5 the end of the wait for the wake-up, where the root passes from 2 to 5
at once; stage `6 + j` is the end of turn `j` of the wake-up loop. -/
def State.past (k i : Nat) (s : State) : Nat := (s.threads i).past k

/-- How often node `c` has been woken up: the turns of its parent's loop that were for it. -/
def State.woke (c : Nat) (s : State) : Nat := s.past (6 + (c - 1) % 2) (parent 2 c)

theorem past_anti {k k' : Nat} (h : k ≤ k') (th : Thread) : th.past k' ≤ th.past k := by
  unfold Thread.past
  split <;> split <;> omega

theorem calls_le_past (k : Nat) (th : Thread) : th.calls ≤ th.past k := Nat.le_add_right _ _

theorem past_le (k : Nat) (th : Thread) : th.past k ≤ th.calls + 1 := by
  unfold Thread.past
  split <;> omega

theorem past_eq_succ {k : Nat} {th : Thread} (h : k ≤ th.pc.stage) : th.past k = th.calls + 1 := by
  rw [Thread.past, if_pos h]

theorem past_eq {k : Nat} {th : Thread} (h : th.pc.stage < k) : th.past k = th.calls := by
  rw [Thread.past, if_neg (Nat.not_le.mpr h), Nat.add_zero]

theorem past_congr {k : Nat} {th th' : Thread} (hcalls : th'.calls = th.calls)
    (hstage : k ≤ th'.pc.stage ↔ k ≤ th.pc.stage) : th'.past k = th.past k := by
  unfold Thread.past
  rw [hcalls]
  exact congrArg _ (if_congr hstage rfl rfl)

theorem past_succ {k : Nat} {th th' : Thread} (hcalls : th'.calls = th.calls) (hold : th.pc.stage < k)
    (hnew : k ≤ th'.pc.stage) : th'.past k = th.past k + 1 := by
  rw [past_eq hold, past_eq_succ hnew, hcalls]

/-- A return counts for nothing: the thread has been past the stage in that call. -/
theorem past_return {k : Nat} {th th' : Thread} (hcalls : th'.calls = th.calls + 1)
    (hold : k ≤ th.pc.stage) (hnew : th'.pc.stage < k) : th'.past k = th.past k := by
  rw [past_eq hnew, past_eq_succ hold, hcalls]

theorem past_one (th : Thread) : th.past 1 = th.entered := by
  obtain ⟨calls, pc, arrivals, observed⟩ := th
  cases pc with
  | wake j | signal j b => exact past_eq_succ (by show 1 ≤ 5 + j; omega)
  | outside | children | rearm | reset v | notify | await | spin b | store b => rfl

@[simp] theorem past_set_self (k : Nat) (s : State) (th : Thread) :
    (s.set id th).past k id = th.past k := by
  rw [State.past, set_self]

theorem past_set_of_ne (k : Nat) (s : State) {i : Nat} (th : Thread) (h : i ≠ id) :
    (s.set id th).past k i = s.past k i := by
  rw [State.past, set_of_ne _ _ h, State.past]

@[simp] theorem past_write (k i j : Nat) (s : State) (node : Node) :
    (s.write j node).past k i = s.past k i := rfl

/-! ## The invariant -/

/-- What a thread knows of itself. -/
def Thread.Ok (n numCalls i : Nat) (sense : Bool) (th : Thread) : Prop :=
  sense = decide (th.calls % 2 = 0) ∧
  match th.pc with
  | .outside => True
  | .children | .rearm => th.calls < numCalls
  | .reset value => th.calls < numCalls ∧ value = hc n i
  | .notify | .await => th.calls < numCalls ∧ i ≠ 0
  | .spin b => th.calls < numCalls ∧ i ≠ 0 ∧ b = sense
  | .wake j => th.calls < numCalls ∧ j ≤ 2
  | .signal j b => th.calls < numCalls ∧ j < 2 ∧ 2 * i + 1 + j < n ∧ b = sense
  | .store b => th.calls < numCalls ∧ b = sense

/-- The byte of the parent's `cn` that a node clears. -/
def State.notReady (c : Nat) (s : State) : Bool := (s.nodes (parent 4 c)).cn (Fin.ofNat 4 (c - 1))

/-- The tree of arrivals: a byte is cleared between the arrival of the child and the next store to
`cn`. -/
structure ArrivalInv (n : Nat) (s : State) : Prop where
  arrive : ∀ c < n, c ≠ 0 → s.past 4 c = s.past 3 (parent 4 c) + if s.notReady c then 0 else 1
  gathered : ∀ p < n, (s.threads p).pc.stage = 2 → ∀ k, (s.nodes p).cn k = false
  childless : ∀ p < n, ∀ k, hc n p k = false → (s.nodes p).cn k = false
  resets : ∀ i < n, (s.nodes i).resets = s.past 3 i
  arrivals : ∀ i < n, i ≠ 0 → (s.threads i).arrivals = s.past 4 i

/-- The tree of wake-ups: a thread notices a wake-up after it was sent, and before the next one is. -/
structure WakeupInv (n : Nat) (s : State) : Prop where
  le : ∀ c < n, c ≠ 0 → s.past 5 c ≤ s.woke c
  ge : ∀ c < n, c ≠ 0 → s.woke c ≤ s.past 5 c + 1
  parentSense : ∀ c < n, c ≠ 0 → (s.nodes c).parentSense = decide (s.woke c % 2 = 1)
  wakeups : ∀ c < n, c ≠ 0 → (s.nodes c).wakeups = s.woke c
  observed : ∀ i < n, i ≠ 0 → (s.threads i).observed = s.past 5 i

structure Inv (n numCalls : Nat) (s : State) : Prop where
  ok : ∀ i < n, (s.threads i).Ok n numCalls i (s.nodes i).sense
  up : ArrivalInv n s
  down : WakeupInv n s

/-- The byte of a child is set in the parent's `hc`. -/
theorem hc_parent {c : Nat} (hc : c < n) (hc0 : c ≠ 0) :
    Gtmp2.hc n (parent 4 c) (Fin.ofNat 4 (c - 1)) = true := by
  refine decide_eq_true ?_
  simp only [parent, Fin.ofNat]
  omega

theorem inv_init (n numCalls : Nat) : Inv n numCalls (gtmpInit n) := by
  have hpast : ∀ k i, 0 < k → (gtmpInit n).past k i = 0 := by
    intro k i hk
    simp [State.past, gtmpInit, Thread.past, Pc.stage]
    omega
  have hwoke : ∀ c, (gtmpInit n).woke c = 0 := fun c => hpast _ _ (by omega)
  refine ⟨fun i _ => ⟨rfl, trivial⟩, {
    arrive := fun c hc hc0 => ?_
    gathered := fun p _ hstage => by cases hstage
    childless := fun p _ k hk => hk
    resets := fun i _ => (hpast 3 i (by decide)).symm
    arrivals := fun i _ _ => (hpast 4 i (by decide)).symm }, {
    le := fun c _ _ => by rw [hpast 5 c (by decide)]; exact Nat.zero_le _
    ge := fun c _ _ => by rw [hwoke]; exact Nat.zero_le _
    parentSense := fun c _ _ => by rw [hwoke]; rfl
    wakeups := fun c _ _ => (hwoke c).symm
    observed := fun i _ _ => (hpast 5 i (by decide)).symm }⟩
  have hbyte : (gtmpInit n).notReady c = true := hc_parent hc hc0
  rw [hpast 4 c (by decide), hpast 3 _ (by decide), hbyte]
  rfl

/-! ## What the invariant says of the whole tree -/

/-- A parent that is past its wait has seen the arrival of every child. -/
theorem ArrivalInv.past_two_le (h : ArrivalInv n s) {c : Nat} (hc : c < n) (hc0 : c ≠ 0) :
    s.past 2 (parent 4 c) ≤ s.past 4 c := by
  have hp : parent 4 c < n := Nat.lt_of_le_of_lt (parent_le 4 c) hc
  rw [h.arrive c hc hc0]
  by_cases hstage : (s.threads (parent 4 c)).pc.stage = 2
  · have hbyte : s.notReady c = false := h.gathered _ hp hstage _
    rw [hbyte]
    have hle := past_le 2 (s.threads (parent 4 c))
    have hge := calls_le_past 3 (s.threads (parent 4 c))
    simp only [State.past, Bool.false_eq_true, if_false]
    omega
  · have hsame : s.past 2 (parent 4 c) = s.past 3 (parent 4 c) := by
      simp only [State.past, Thread.past]
      congr 1
      refine if_congr ?_ rfl rfl
      omega
    rw [hsame]
    exact Nat.le_add_right _ _

/-- The root gathers a call after every other node has arrived in it. -/
theorem ArrivalInv.root_le (h : ArrivalInv n s) {c : Nat} (hc : c < n) : s.past 2 0 ≤ s.past 2 c := by
  refine Heap.induction 4 (P := fun c => s.past 2 0 ≤ s.past 2 c) (fun _ => Nat.le_refl _) ?_ c hc
  intro c hc hc0 hparent
  calc s.past 2 0 ≤ s.past 2 (parent 4 c) := hparent
    _ ≤ s.past 4 c := h.past_two_le hc hc0
    _ ≤ s.past 2 c := past_anti (by decide) _

theorem ArrivalInv.root_le_arrivals (h : ArrivalInv n s) {c : Nat} (hc : c < n) (hc0 : c ≠ 0) :
    s.past 2 0 ≤ s.past 4 c :=
  Nat.le_trans (h.root_le (Nat.lt_of_le_of_lt (parent_le 4 c) hc)) (h.past_two_le hc hc0)

/-- A thread is woken up in a call after the root. -/
theorem WakeupInv.le_root (h : WakeupInv n s) {c : Nat} (hc : c < n) : s.past 5 c ≤ s.past 5 0 := by
  refine Heap.induction 2 (P := fun c => s.past 5 c ≤ s.past 5 0) (fun _ => Nat.le_refl _) ?_ c hc
  intro c hc hc0 hparent
  calc s.past 5 c ≤ s.woke c := h.le c hc hc0
    _ ≤ s.past 5 (parent 2 c) := past_anti (by omega) _
    _ ≤ s.past 5 0 := hparent

/-- A thread that is woken up in a call knows that every node has arrived in it. -/
theorem Inv.past_five_le (h : Inv n numCalls s) {i c : Nat} (hi : i < n) (hc : c < n) :
    s.past 5 i ≤ s.past 3 c := by
  have hroot : s.past 5 i ≤ s.past 5 0 := h.down.le_root hi
  by_cases hc0 : c = 0
  · subst hc0
    exact Nat.le_trans hroot (past_anti (by decide) _)
  · calc s.past 5 i ≤ s.past 5 0 := hroot
      _ ≤ s.past 2 0 := past_anti (by decide) _
      _ ≤ s.past 4 c := h.up.root_le_arrivals hc hc0
      _ ≤ s.past 3 c := past_anti (by decide) _

/-- The law of the barrier: a call is left after the root has gathered it, and the root has gathered it
after everybody has entered it. -/
theorem Inv.calls_le_entered (h : Inv n numCalls s) {i j : Nat} (hi : i < n) (hj : j < n) :
    (s.threads i).calls ≤ (s.threads j).entered := by
  calc (s.threads i).calls ≤ s.past 5 i := calls_le_past 5 _
    _ ≤ s.past 3 j := h.past_five_le hi hj
    _ ≤ (s.threads j).past 1 := past_anti (by decide) _
    _ = (s.threads j).entered := past_one _

/-! ## Every step keeps the invariant

Every step is a store to at most one node and a change of the thread that makes it. A step changes what
one of the two trees speaks of, or neither. -/

/-- Two states agree on what the tree of arrivals speaks of, the stages apart. -/
structure SameArrivals (s t : State) : Prop where
  cn : ∀ i, (t.nodes i).cn = (s.nodes i).cn
  resets : ∀ i, (t.nodes i).resets = (s.nodes i).resets
  arrivals : ∀ i, (t.threads i).arrivals = (s.threads i).arrivals
  three : ∀ i, t.past 3 i = s.past 3 i
  four : ∀ i, t.past 4 i = s.past 4 i

theorem ArrivalInv.frame (h : ArrivalInv n s) (hs : SameArrivals s t)
    (hgathered : ∀ p < n, (t.threads p).pc.stage = 2 → ∀ k, (s.nodes p).cn k = false) :
    ArrivalInv n t where
  arrive c hc hc0 := by
    rw [hs.four, hs.three, State.notReady, hs.cn]
    exact h.arrive c hc hc0
  gathered p hp hstage k := by rw [hs.cn]; exact hgathered p hp hstage k
  childless p hp k hk := by rw [hs.cn]; exact h.childless p hp k hk
  resets i hi := by rw [hs.resets, hs.three]; exact h.resets i hi
  arrivals i hi hi0 := by rw [hs.arrivals, hs.four]; exact h.arrivals i hi hi0

/-- Two states agree on what the tree of wake-ups speaks of. -/
structure SameWakeups (n : Nat) (s t : State) : Prop where
  parentSense : ∀ i, (t.nodes i).parentSense = (s.nodes i).parentSense
  wakeups : ∀ i, (t.nodes i).wakeups = (s.nodes i).wakeups
  observed : ∀ i, (t.threads i).observed = (s.threads i).observed
  five : ∀ i ≠ 0, t.past 5 i = s.past 5 i
  woke : ∀ c < n, c ≠ 0 → t.woke c = s.woke c

theorem WakeupInv.frame (h : WakeupInv n s) (hs : SameWakeups n s t) : WakeupInv n t where
  le c hc hc0 := by rw [hs.five c hc0, hs.woke c hc hc0]; exact h.le c hc hc0
  ge c hc hc0 := by rw [hs.five c hc0, hs.woke c hc hc0]; exact h.ge c hc hc0
  parentSense c hc hc0 := by rw [hs.parentSense, hs.woke c hc hc0]; exact h.parentSense c hc hc0
  wakeups c hc hc0 := by rw [hs.wakeups, hs.woke c hc hc0]; exact h.wakeups c hc hc0
  observed i hi hi0 := by rw [hs.observed, hs.five i hi0]; exact h.observed i hi hi0

variable {m : Nat} {node : Node} {th : Thread}

theorem parent_ne {k c : Nat} (hc0 : c ≠ 0) : parent k c ≠ c := Nat.ne_of_lt (parent_lt hc0)

/-- What holds of the new thread and of every other one holds of all. -/
theorem forall_threads {P : Nat → Thread → Prop} (hth : P id th) (h : ∀ i ≠ id, P i (s.threads i)) (i : Nat) :
    P i (((s.write m node).set id th).threads i) := by
  by_cases hi : i = id
  · subst hi; rwa [set_self]
  · rw [set_of_ne _ _ hi, write_threads]; exact h i hi

/-- What holds of the new node and of every other one holds of all. -/
theorem forall_nodes {P : Nat → Node → Prop} (hnode : P m node) (h : ∀ i ≠ m, P i (s.nodes i)) (i : Nat) :
    P i (((s.write m node).set id th).nodes i) := by
  rw [set_nodes]
  by_cases hi : i = m
  · subst hi; rwa [write_self]
  · rw [write_of_ne _ _ hi]; exact h i hi

theorem past_set (k i : Nat) : (s.set id th).past k i = if i = id then th.past k else s.past k i := by
  split
  · next hi => subst hi; exact past_set_self _ _ _
  · next hi => exact past_set_of_ne _ _ _ hi

theorem past_step (k i : Nat) :
    ((s.write m node).set id th).past k i = if i = id then th.past k else s.past k i :=
  past_set k i

/-- Only the turns of the loop that are for a child count for `woke`. -/
theorem woke_set (hth : ∀ j < 2, 2 * id + 1 + j < n → th.past (6 + j) = (s.threads id).past (6 + j))
    {c : Nat} (hc : c < n) (hc0 : c ≠ 0) : (s.set id th).woke c = s.woke c := by
  unfold State.woke
  rw [past_set]
  split
  · next hp =>
    rw [hp]
    exact hth _ (Nat.mod_lt _ (by decide)) (by unfold parent at hp; omega)
  · rfl

/-- The clause of `Inv` about threads, after a step that leaves the `sense` of all other nodes. -/
theorem Inv.ok_step (h : Inv n numCalls s) (m : Nat) (node : Node) (id : Nat) (th : Thread)
    (hth : th.Ok n numCalls id (((s.write m node).set id th).nodes id).sense)
    (hsense : m ≠ id → node.sense = (s.nodes m).sense) :
    ∀ i < n, (((s.write m node).set id th).threads i).Ok n numCalls i
      (((s.write m node).set id th).nodes i).sense := by
  intro i hi
  by_cases hne : i = id
  · subst hne; rwa [set_self]
  · rw [set_of_ne _ _ hne, write_threads]
    have hsame : (((s.write m node).set id th).nodes i).sense = (s.nodes i).sense := by
      refine forall_nodes (P := fun i node => i ≠ id → node.sense = (s.nodes i).sense) hsense
        (fun _ _ _ => rfl) i hne
    rw [hsame]
    exact h.ok i hi

/-! ### The tree of arrivals -/

/-- The store to `cn`: all children have arrived, and none of them has arrived again. -/
theorem ArrivalInv.reset (h : ArrivalInv n s) (hid : id < n) (hold : (s.threads id).pc.stage = 2)
    (hcn : node.cn = hc n id) (hresets : node.resets = (s.nodes id).resets + 1)
    (hthree : th.past 3 = s.past 3 id + 1) (hfour : id ≠ 0 → th.past 4 = s.past 4 id)
    (hstage : th.pc.stage ≠ 2) (harrivals : th.arrivals = (s.threads id).arrivals) :
    ArrivalInv n ((s.write id node).set id th) where
  arrive c hc hc0 := by
    have harrive := h.arrive c hc hc0
    have hfour' : ((s.write id node).set id th).past 4 c = s.past 4 c := by
      rw [past_step]
      split
      · next hne => subst hne; exact hfour hc0
      · rfl
    rw [hfour', past_step, State.notReady]
    by_cases hp : parent 4 c = id
    · have hbyte : s.notReady c = false := by
        rw [State.notReady, hp]
        exact h.gathered id hid hold _
      have hset := hc_parent hc hc0
      rw [hbyte] at harrive
      rw [hp] at harrive hset ⊢
      rw [set_nodes, write_self, hcn, hset, if_pos rfl, hthree]
      exact harrive
    · rw [set_nodes, write_of_ne _ _ hp, if_neg hp]
      exact harrive
  gathered p hp hgathered k :=
    forall_nodes (P := fun i node => i < n → (((s.write id _).set id th).threads i).pc.stage = 2 →
        node.cn k = false)
      (fun _ hgathered => by rw [set_self] at hgathered; exact absurd hgathered hstage)
      (fun i hi hlt hgathered => by
        rw [set_of_ne _ _ hi] at hgathered
        exact h.gathered i hlt hgathered k) p hp hgathered
  childless p hp k :=
    forall_nodes (P := fun i node => i < n → Gtmp2.hc n i k = false → node.cn k = false)
      (fun _ hk => by rw [hcn]; exact hk) (fun i _ hlt hk => h.childless i hlt k hk) p hp
  resets i hi := by
    rw [past_step]
    refine forall_nodes (P := fun i node => i < n → node.resets = if i = id then th.past 3 else s.past 3 i)
      (fun _ => ?_) (fun i hne hlt => ?_) i hi
    · rw [if_pos rfl, hresets, hthree, h.resets id hid]
    · rw [if_neg hne]
      exact h.resets i hlt
  arrivals i hi hi0 := by
    rw [past_step]
    refine forall_threads (P := fun i th' => i < n → i ≠ 0 →
      th'.arrivals = if i = id then th.past 4 else s.past 4 i) (fun _ hi0 => ?_) (fun i hne hlt hi0 => ?_) i hi hi0
    · rw [if_pos rfl, harrivals, hfour hi0]
      exact h.arrivals id hid hi0
    · rw [if_neg hne]
      exact h.arrivals i hlt hi0

/-- The store to the parent's `cn`: the parent has been re-armed since the arrival before. -/
theorem ArrivalInv.notify (h : ArrivalInv n s) (hid : id < n) (hid0 : id ≠ 0) (hready : s.notReady id = true)
    (hcn : node.cn = Function.update (s.nodes (parent 4 id)).cn (Fin.ofNat 4 (id - 1)) false)
    (hresets : node.resets = (s.nodes (parent 4 id)).resets) (hthree : th.past 3 = s.past 3 id)
    (hfour : th.past 4 = s.past 4 id + 1) (hstage : th.pc.stage ≠ 2)
    (harrivals : th.arrivals = (s.threads id).arrivals + 1) :
    ArrivalInv n ((s.write (parent 4 id) node).set id th) := by
  have hthree' : ∀ i, ((s.write (parent 4 id) node).set id th).past 3 i = s.past 3 i := by
    intro i
    rw [past_step]
    split
    · next hi => rw [hi, hthree]
    · rfl
  refine ⟨fun c hc hc0 => ?_, fun p hp hgathered k => ?_, fun p hp k => ?_, fun i hi => ?_, fun i hi hi0 => ?_⟩
  · have harrive := h.arrive c hc hc0
    rw [hthree', past_step, State.notReady, set_nodes]
    by_cases hne : c = id
    · subst hne
      rw [hready] at harrive
      rw [write_self, hcn, Function.update_self, if_pos rfl, hfour, harrive]
      rfl
    · rw [if_neg hne]
      by_cases hp : parent 4 c = parent 4 id
      · -- another byte of the same parent
        have hslot : Fin.ofNat 4 (c - 1) ≠ Fin.ofNat 4 (id - 1) := by
          intro heq
          have hmod : (c - 1) % 4 = (id - 1) % 4 := congrArg Fin.val heq
          unfold parent at hp
          omega
        rw [State.notReady, hp] at harrive
        rw [hp, write_self, hcn, Function.update_of_ne hslot]
        exact harrive
      · rw [write_of_ne _ _ hp]
        exact harrive
  · refine forall_nodes (P := fun i node => i < n →
      (((s.write (parent 4 id) _).set id th).threads i).pc.stage = 2 → node.cn k = false)
      (fun hlt hgathered => ?_) (fun i _ hlt hgathered => ?_) p hp hgathered
    · rw [set_of_ne _ _ (parent_ne hid0)] at hgathered
      rw [hcn, Function.update_apply]
      split
      · rfl
      · exact h.gathered _ hlt hgathered k
    · by_cases hi : i = id
      · subst hi
        rw [set_self] at hgathered
        exact absurd hgathered hstage
      · rw [set_of_ne _ _ hi] at hgathered
        exact h.gathered i hlt hgathered k
  · refine forall_nodes (P := fun i node => i < n → Gtmp2.hc n i k = false → node.cn k = false)
      (fun hlt hk => ?_) (fun i _ hlt hk => h.childless i hlt k hk) p hp
    rw [hcn, Function.update_apply]
    split
    · rfl
    · exact h.childless _ hlt k hk
  · rw [hthree']
    exact forall_nodes (P := fun i node => i < n → node.resets = s.past 3 i)
      (fun hlt => hresets.trans (h.resets _ hlt)) (fun i _ hlt => h.resets i hlt) i hi
  · rw [past_step]
    refine forall_threads (P := fun i th' => i < n → i ≠ 0 →
      th'.arrivals = if i = id then th.past 4 else s.past 4 i) (fun hlt _ => ?_) (fun i hne hlt hi0 => ?_) i hi hi0
    · rw [if_pos rfl, harrivals, hfour, h.arrivals id hid hid0]
    · rw [if_neg hne]
      exact h.arrivals i hlt hi0

/-! ### The tree of wake-ups -/

/-- The end of the `while` on `parent_sense`. -/
theorem WakeupInv.notice (h : WakeupInv n s) (hid : id < n) (hid0 : id ≠ 0)
    (hwoke : s.woke id = s.past 5 id + 1) (hfive : th.past 5 = s.past 5 id + 1)
    (hlater : ∀ j < 2, th.past (6 + j) = (s.threads id).past (6 + j))
    (hobserved : th.observed = (s.threads id).observed + 1) : WakeupInv n (s.set id th) := by
  have hwoke' : ∀ c < n, c ≠ 0 → (s.set id th).woke c = s.woke c := fun c hc hc0 =>
    woke_set (fun j hj _ => hlater j hj) hc hc0
  refine ⟨fun c hc hc0 => ?_, fun c hc hc0 => ?_, fun c hc hc0 => ?_, fun c hc hc0 => ?_, fun i hi hi0 => ?_⟩
  · rw [hwoke' c hc hc0, past_set]
    split
    · next hne => rw [hfive, hne, hwoke]
    · exact h.le c hc hc0
  · have hge := h.ge c hc hc0
    rw [hwoke' c hc hc0, past_set]
    split
    · next hne => rw [hfive, ← hne]; omega
    · exact hge
  · rw [hwoke' c hc hc0]
    exact h.parentSense c hc hc0
  · rw [hwoke' c hc hc0]
    exact h.wakeups c hc hc0
  · rw [past_set]
    by_cases hne : i = id
    · subst hne
      rw [set_self, if_pos rfl, hobserved, hfive, h.observed i hid hid0]
    · rw [set_of_ne _ _ hne, if_neg hne]
      exact h.observed i hi hi0

/-- The store to the `parent_sense` of a child: the child has noticed the wake-up before. -/
theorem WakeupInv.signal (h : WakeupInv n s) {c j : Nat} (hchild : 2 * id + 1 + j = c) (hj : j < 2)
    (hc : c < n) (hseen : s.past 5 c = s.woke c)
    (hsense : node.parentSense = decide ((s.woke c + 1) % 2 = 1)) (hwakeups : node.wakeups = (s.nodes c).wakeups + 1)
    (hfive : th.past 5 = s.past 5 id) (hturn : th.past (6 + j) = s.past (6 + j) id + 1)
    (hlater : ∀ j' < 2, j' ≠ j → th.past (6 + j') = s.past (6 + j') id)
    (hobserved : th.observed = (s.threads id).observed) : WakeupInv n ((s.write c node).set id th) := by
  have hparent : parent 2 c = id := by unfold parent; omega
  have hslot : (c - 1) % 2 = j := by omega
  have hwoke : ((s.write c node).set id th).woke c = s.woke c + 1 := by
    rw [State.woke, past_step, hparent, hslot, if_pos rfl, hturn, State.woke, hparent, hslot]
  have hwoke' : ∀ c' ≠ c, c' ≠ 0 → ((s.write c node).set id th).woke c' = s.woke c' := by
    intro c' hne hc0
    unfold State.woke
    rw [past_step]
    split
    · next hp =>
      rw [hp]
      refine hlater _ (Nat.mod_lt _ (by decide)) fun hsame => hne ?_
      unfold parent at hp
      omega
    · rfl
  have hfive' : ∀ i, ((s.write c node).set id th).past 5 i = s.past 5 i := by
    intro i
    rw [past_step]
    split
    · next hi => rw [hi, hfive]
    · rfl
  refine ⟨fun c' hc' hc0 => ?_, fun c' hc' hc0 => ?_, fun c' hc' hc0 => ?_, fun c' hc' hc0 => ?_, fun i hi hi0 => ?_⟩
  · rw [hfive']
    by_cases hne : c' = c
    · subst hne; rw [hwoke]; omega
    · rw [hwoke' c' hne hc0]; exact h.le c' hc' hc0
  · rw [hfive']
    by_cases hne : c' = c
    · subst hne; rw [hwoke, hseen]
    · rw [hwoke' c' hne hc0]; exact h.ge c' hc' hc0
  · rw [set_nodes]
    by_cases hne : c' = c
    · subst hne; rw [hwoke, write_self, hsense]
    · rw [hwoke' c' hne hc0, write_of_ne _ _ hne]; exact h.parentSense c' hc' hc0
  · rw [set_nodes]
    by_cases hne : c' = c
    · subst hne; rw [hwoke, write_self, hwakeups, h.wakeups c' hc' hc0]
    · rw [hwoke' c' hne hc0, write_of_ne _ _ hne]; exact h.wakeups c' hc' hc0
  · rw [hfive']
    refine forall_threads (P := fun i th' => i < n → i ≠ 0 → th'.observed = s.past 5 i) (fun hlt hi0 => ?_)
      (fun i _ hlt hi0 => h.observed i hlt hi0) i hi hi0
    rw [hobserved]
    exact h.observed id hlt hi0

/-! ### All steps -/

/-- A step that changes nothing in the tree of arrivals. -/
theorem sameArrivals_step (hcn : node.cn = (s.nodes m).cn) (hresets : node.resets = (s.nodes m).resets)
    (harrivals : th.arrivals = (s.threads id).arrivals) (hthree : th.past 3 = s.past 3 id)
    (hfour : th.past 4 = s.past 4 id) : SameArrivals s ((s.write m node).set id th) where
  cn := forall_nodes (P := fun i node => node.cn = (s.nodes i).cn) hcn fun _ _ => rfl
  resets := forall_nodes (P := fun i node => node.resets = (s.nodes i).resets) hresets fun _ _ => rfl
  arrivals := forall_threads (P := fun i th => th.arrivals = (s.threads i).arrivals) harrivals fun _ _ => rfl
  three := forall_threads (P := fun i th => th.past 3 = s.past 3 i) hthree fun _ _ => rfl
  four := forall_threads (P := fun i th => th.past 4 = s.past 4 i) hfour fun _ _ => rfl

/-- A step that changes nothing in the tree of wake-ups. -/
theorem sameWakeups_step (hsense : node.parentSense = (s.nodes m).parentSense)
    (hwakeups : node.wakeups = (s.nodes m).wakeups) (hobserved : th.observed = (s.threads id).observed)
    (hfive : id ≠ 0 → th.past 5 = s.past 5 id)
    (hwoke : ∀ j < 2, 2 * id + 1 + j < n → th.past (6 + j) = (s.threads id).past (6 + j)) :
    SameWakeups n s ((s.write m node).set id th) where
  parentSense := forall_nodes (P := fun i node => node.parentSense = (s.nodes i).parentSense) hsense fun _ _ => rfl
  wakeups := forall_nodes (P := fun i node => node.wakeups = (s.nodes i).wakeups) hwakeups fun _ _ => rfl
  observed := forall_threads (P := fun i th => th.observed = (s.threads i).observed) hobserved fun _ _ => rfl
  five i hi := forall_threads (P := fun i th => i ≠ 0 → th.past 5 = s.past 5 i) hfive (fun _ _ _ => rfl) i hi
  woke _ hc hc0 := woke_set (s := s.write m node) hwoke hc hc0

/-- The threads between the end of the wait for the children and the store to `cn`, after a step. -/
theorem gathered_set (h : ArrivalInv n s) (hth : th.pc.stage = 2 → ∀ k, (s.nodes id).cn k = false) :
    ∀ p < n, ((s.set id th).threads p).pc.stage = 2 → ∀ k, (s.nodes p).cn k = false := by
  intro p hp
  by_cases hne : p = id
  · subst hne; rw [set_self]; exact hth
  · rw [set_of_ne _ _ hne]; exact h.gathered p hp

theorem write_same (s : State) (i : Nat) : s.write i (s.nodes i) = s :=
  congrArg (State.mk · s.threads) (Function.update_eq_self i s.nodes)

/-- A step that changes no memory and no stage that a tree speaks of. -/
theorem Inv.set (h : Inv n numCalls s) {pc : Pc}
    (hok : Thread.Ok n numCalls id (s.nodes id).sense { s.threads id with pc := pc })
    (hgathered : pc.stage = 2 → ∀ k, (s.nodes id).cn k = false)
    (hpast : ∀ k, 3 ≤ k → k ≤ 5 → (k ≤ pc.stage ↔ k ≤ (s.threads id).pc.stage))
    (hwoke : ∀ j < 2, 2 * id + 1 + j < n → (6 + j ≤ pc.stage ↔ 6 + j ≤ (s.threads id).pc.stage)) :
    Inv n numCalls (s.set id { s.threads id with pc := pc }) := by
  have hcong : ∀ k, (k ≤ pc.stage ↔ k ≤ (s.threads id).pc.stage) →
      Thread.past k { s.threads id with pc := pc } = (s.threads id).past k := fun k hk =>
    congrArg ((s.threads id).calls + ·) (if_congr hk rfl rfl)
  have hsame : SameArrivals s ((s.write id (s.nodes id)).set id { s.threads id with pc := pc }) :=
    sameArrivals_step rfl rfl rfl (hcong 3 (hpast 3 (by decide) (by decide)))
      (hcong 4 (hpast 4 (by decide) (by decide)))
  have hsame' : SameWakeups n s ((s.write id (s.nodes id)).set id { s.threads id with pc := pc }) :=
    sameWakeups_step rfl rfl rfl (fun _ => hcong 5 (hpast 5 (by decide) (by decide)))
      fun j hj hlt => hcong (6 + j) (hwoke j hj hlt)
  have hall := h.ok_step id (s.nodes id) id { s.threads id with pc := pc }
    (by rw [write_same]; exact hok) (fun hne => absurd rfl hne)
  rw [write_same] at hsame hsame' hall
  exact ⟨hall, h.up.frame hsame (gathered_set h.up hgathered), h.down.frame hsame'⟩

/-- A child that is about to tell its parent has seen the parent re-armed. -/
theorem Inv.notReady_of_notify (h : Inv n numCalls s) (hid : id < n) (hid0 : id ≠ 0)
    (hpc : (s.threads id).pc = .notify) : s.notReady id = true := by
  have harrive := h.up.arrive id hid hid0
  have hfour : s.past 4 id = (s.threads id).calls := past_eq (by rw [hpc]; decide)
  have hle := h.past_five_le hid (Nat.lt_of_le_of_lt (parent_le 4 id) hid)
  have hcalls : (s.threads id).calls ≤ s.past 5 id := calls_le_past 5 _
  by_contra hbyte
  rw [if_neg hbyte] at harrive
  omega

/-- A thread that is about to wake up a child has not yet done so in this call. -/
theorem Inv.seen_of_signal (h : Inv n numCalls s) (hid : id < n) {j c : Nat} {b : Bool} (hj : j < 2)
    (hchild : 2 * id + 1 + j = c) (hc : c < n) (hpc : (s.threads id).pc = .signal j b) :
    s.woke c = (s.threads id).calls ∧ s.past 5 c = s.woke c := by
  have hparent : parent 2 c = id := by unfold parent; omega
  have hslot : (c - 1) % 2 = j := by omega
  have hwoke : s.woke c = (s.threads id).calls := by
    rw [State.woke, hparent, hslot]
    exact past_eq (by rw [hpc, Pc.stage]; omega)
  refine ⟨hwoke, Nat.le_antisymm (h.down.le c hc (by omega)) ?_⟩
  -- the root has gathered the call, so `c` has arrived in it
  have hfive : s.past 5 id = (s.threads id).calls + 1 := past_eq_succ (by rw [hpc, Pc.stage]; omega)
  have hle := h.past_five_le hid hc
  have hthree : s.past 3 c ≤ (s.threads c).calls + 1 := past_le 3 _
  have hcalls : (s.threads c).calls ≤ s.past 5 c := calls_le_past 5 _
  omega

/-- A thread that finds `parent_sense` equal to its `sense` has been woken up. -/
theorem Inv.woke_of_notice (h : Inv n numCalls s) (hid : id < n) (hid0 : id ≠ 0)
    (hpc : (s.threads id).pc = .spin (s.nodes id).parentSense) : s.woke id = s.past 5 id + 1 := by
  have hok := h.ok id hid
  simp only [Thread.Ok, hpc] at hok
  obtain ⟨hsense, -, -, hsame⟩ := hok
  have hfive : s.past 5 id = (s.threads id).calls := past_eq (by rw [hpc]; exact Nat.lt_succ_self 4)
  rw [h.down.parentSense id hid hid0, hsense, decide_eq_decide] at hsame
  have hle := h.down.le id hid hid0
  have hge := h.down.ge id hid hid0
  omega

/-- The bytes of the children are set again, before the parent is told. -/
theorem Inv.reset (h : Inv n numCalls s) (hid : id < n) {value : Fin 4 → Bool} (hpc : (s.threads id).pc = .reset value) :
    Inv n numCalls ((s.write id { s.nodes id with cn := value, resets := (s.nodes id).resets + 1 }).set id
      { s.threads id with pc := if id ≠ 0 then .notify else .wake 0 }) := by
  have hok := h.ok id hid
  have hold : (s.threads id).pc.stage = 2 := by rw [hpc]; rfl
  have hnew : Pc.stage (if id ≠ 0 then .notify else .wake 0) = if id ≠ 0 then 3 else 5 := by
    split <;> rfl
  simp only [Thread.Ok, hpc] at hok
  obtain ⟨hsense, hlt, rfl⟩ := hok
  refine ⟨h.ok_step _ _ _ _ ?_ fun hne => absurd rfl hne, h.up.reset hid hold rfl rfl ?_ (fun hid0 => ?_) ?_ rfl,
    h.down.frame (sameWakeups_step rfl rfl rfl (fun hid0 => ?_) fun j _ _ => ?_)⟩
  · rw [set_nodes, write_self]
    refine ⟨hsense, ?_⟩
    by_cases hid0 : id = 0
    · simp only [hid0, ne_eq, not_true_eq_false, if_false] at hlt ⊢
      exact ⟨hlt, Nat.zero_le 2⟩
    · simp only [hid0, ne_eq, not_false_eq_true, if_true] at hlt ⊢
      exact ⟨hlt, trivial⟩
  · exact past_succ rfl (by rw [hold]; decide) (by rw [hnew]; split <;> decide)
  · exact past_congr rfl (by rw [hold, hnew, if_pos hid0]; decide)
  · rw [hnew]
    split <;> decide
  · exact past_congr rfl (by rw [hold, hnew, if_pos hid0]; decide)
  · exact past_congr rfl (by rw [hold, hnew]; split <;> omega)

theorem Inv.notify (h : Inv n numCalls s) (hid : id < n) (hpc : (s.threads id).pc = .notify) (hid0 : id ≠ 0) :
    Inv n numCalls ((s.write (parent 4 id) { s.nodes (parent 4 id) with
      cn := Function.update (s.nodes (parent 4 id)).cn (Fin.ofNat 4 (id - 1)) false }).set id
        { s.threads id with pc := .await, arrivals := (s.threads id).arrivals + 1 }) := by
  have hok := h.ok id hid
  have hold : (s.threads id).pc.stage = 3 := by rw [hpc]; rfl
  have hready := h.notReady_of_notify hid hid0 hpc
  simp only [Thread.Ok, hpc] at hok
  refine ⟨h.ok_step _ _ _ _ ?_ fun _ => rfl, h.up.notify hid hid0 hready rfl rfl ?_ ?_ nofun rfl,
    h.down.frame (sameWakeups_step rfl rfl rfl (fun _ => ?_) fun j _ _ => ?_)⟩
  · rw [set_nodes, write_of_ne _ _ (parent_ne hid0).symm]
    exact ⟨hok.1, hok.2⟩
  · exact past_congr rfl (by rw [hold]; show 3 ≤ 4 ↔ 3 ≤ 3; decide)
  · exact past_succ rfl (by rw [hold]; decide) (Nat.le_refl 4)
  · exact past_congr rfl (by rw [hold]; show 5 ≤ 4 ↔ 5 ≤ 3; decide)
  · exact past_congr rfl (by rw [hold]; simp only [Pc.stage]; omega)

theorem Inv.notice (h : Inv n numCalls s) (hid : id < n) (hpc : (s.threads id).pc = .spin (s.nodes id).parentSense) :
    Inv n numCalls (s.set id { s.threads id with pc := .wake 0, observed := (s.threads id).observed + 1 }) := by
  have hok := h.ok id hid
  have hold : (s.threads id).pc.stage = 4 := by rw [hpc]; rfl
  simp only [Thread.Ok, hpc] at hok
  obtain ⟨hsense, hlt, hid0, hsame⟩ := hok
  have hwoke := h.woke_of_notice hid hid0 hpc
  have harrivals : SameArrivals s ((s.write id (s.nodes id)).set id
      { s.threads id with pc := .wake 0, observed := (s.threads id).observed + 1 }) :=
    sameArrivals_step rfl rfl rfl
      (past_congr rfl (by rw [hold]; show 3 ≤ 5 ↔ 3 ≤ 4; decide))
      (past_congr rfl (by rw [hold]; show 4 ≤ 5 ↔ 4 ≤ 4; decide))
  have hall := h.ok_step id (s.nodes id) id
    { s.threads id with pc := .wake 0, observed := (s.threads id).observed + 1 }
    (by rw [write_same]; exact ⟨hsense, hlt, Nat.zero_le 2⟩) (fun hne => absurd rfl hne)
  rw [write_same] at harrivals hall
  refine ⟨hall, h.up.frame harrivals (gathered_set h.up (nofun)), h.down.notice hid hid0 hwoke ?_ (fun j _ => ?_) rfl⟩
  · exact past_succ rfl (by rw [hold]; decide) (Nat.le_refl 5)
  · exact past_congr rfl (by rw [hold]; simp only [Pc.stage]; omega)

theorem Inv.signal (h : Inv n numCalls s) (hid : id < n) {j c : Nat} {b : Bool}
    (hpc : (s.threads id).pc = .signal j b) (hchild : 2 * id + 1 + j = c) (hc : c < n) :
    Inv n numCalls ((s.write c { s.nodes c with parentSense := b, wakeups := (s.nodes c).wakeups + 1 }).set id
      { s.threads id with pc := .wake (j + 1) }) := by
  have hok := h.ok id hid
  have hold : (s.threads id).pc.stage = 5 + j := by rw [hpc]; rfl
  simp only [Thread.Ok, hpc] at hok
  obtain ⟨hsense, hlt, hj, -, rfl⟩ := hok
  obtain ⟨hwoke, hseen⟩ := h.seen_of_signal hid hj hchild hc hpc
  have hne : c ≠ id := by omega
  have hsame : ∀ k, k ≠ 6 + j → k ≤ 7 →
      Thread.past k { s.threads id with pc := .wake (j + 1) } = s.past k id := fun k hk hk7 =>
    past_congr rfl (by rw [hold]; simp only [Pc.stage]; omega)
  refine ⟨h.ok_step _ _ _ _ ?_ fun _ => rfl, h.up.frame (sameArrivals_step rfl rfl rfl ?_ ?_)
      (gathered_set h.up fun hstage => ?_),
    h.down.signal hchild hj hc hseen ?_ rfl ?_ ?_ (fun j' hj' hjj => ?_) rfl⟩
  · rw [set_nodes, write_of_ne _ _ hne.symm]
    exact ⟨hsense, hlt, hj⟩
  · exact hsame 3 (by omega) (by decide)
  · exact hsame 4 (by omega) (by decide)
  · simp only [Pc.stage] at hstage
    omega
  · rw [hsense, hwoke, decide_eq_decide]
    omega
  · exact hsame 5 (by omega) (by decide)
  · exact past_succ rfl (by rw [hold]; omega) (by simp only [Pc.stage]; omega)
  · exact hsame (6 + j') (by omega) (by omega)

theorem Inv.leave (h : Inv n numCalls s) (hid : id < n) {b : Bool} (hpc : (s.threads id).pc = .store b) :
    Inv n numCalls ((s.write id { s.nodes id with sense := !b }).set id
      { s.threads id with pc := .outside, calls := (s.threads id).calls + 1 }) := by
  have hok := h.ok id hid
  have hold : (s.threads id).pc.stage = 7 := by rw [hpc]; rfl
  simp only [Thread.Ok, hpc] at hok
  obtain ⟨hsense, hlt, rfl⟩ := hok
  have hsame : ∀ k, 0 < k → k ≤ 7 → Thread.past k
      { s.threads id with pc := .outside, calls := (s.threads id).calls + 1 } = s.past k id := fun k hk hk7 =>
    past_return rfl (by rw [hold]; exact hk7) hk
  refine ⟨h.ok_step _ _ _ _ ?_ fun hne => absurd rfl hne,
    h.up.frame (sameArrivals_step rfl rfl rfl (hsame 3 (by decide) (by decide)) (hsame 4 (by decide) (by decide)))
      (gathered_set h.up nofun),
    h.down.frame (sameWakeups_step rfl rfl rfl (fun _ => hsame 5 (by decide) (by decide))
      fun j _ _ => hsame (6 + j) (by omega) (by omega))⟩
  rw [set_nodes, write_self]
  refine ⟨?_, trivial⟩
  show (!(s.nodes id).sense) = decide (((s.threads id).calls + 1) % 2 = 0)
  rw [hsense, ← decide_not, decide_eq_decide]
  omega

theorem inv_move (h : Inv n numCalls s) (hid : id < n) (hmove : Move n numCalls id s t) :
    Inv n numCalls t := by
  have hok := h.ok id hid
  cases hmove with
  | enter hpc hlt =>
    have hold : (s.threads id).pc.stage = 0 := by rw [hpc]; rfl
    exact h.set ⟨hok.1, hlt⟩ nofun (fun k _ _ => by rw [hold]; simp only [Pc.stage]; omega)
      fun j _ _ => by rw [hold]; simp only [Pc.stage]; omega
  | gather hpc hno =>
    have hold : (s.threads id).pc.stage = 1 := by rw [hpc]; rfl
    simp only [Thread.Ok, hpc] at hok
    exact h.set ⟨hok.1, hok.2⟩ (fun _ => hno) (fun k _ _ => by rw [hold]; simp only [Pc.stage]; omega)
      fun j _ _ => by rw [hold]; simp only [Pc.stage]; omega
  | load hpc =>
    have hold : (s.threads id).pc.stage = 2 := by rw [hpc]; rfl
    simp only [Thread.Ok, hpc] at hok
    exact h.set ⟨hok.1, hok.2, rfl⟩ (fun _ => h.up.gathered id hid hold) (fun k _ _ => by rw [hold]; rfl)
      fun j _ _ => by rw [hold]; rfl
  | reset hpc => exact h.reset hid hpc
  | notify hpc hid0 => exact h.notify hid hpc hid0
  | await hpc =>
    have hold : (s.threads id).pc.stage = 4 := by rw [hpc]; rfl
    simp only [Thread.Ok, hpc] at hok
    exact h.set ⟨hok.1, hok.2.1, hok.2.2, rfl⟩ nofun (fun k _ _ => by rw [hold]; rfl)
      fun j _ _ => by rw [hold]; rfl
  | notice hpc => exact h.notice hid hpc
  | @wake j hpc hj hchild =>
    have hold : (s.threads id).pc.stage = 5 + j := by rw [hpc]; rfl
    simp only [Thread.Ok, hpc] at hok
    exact h.set ⟨hok.1, hok.2.1, hj, hchild, rfl⟩ (fun hstage => by simp only [Pc.stage] at hstage; omega)
      (fun k _ _ => by rw [hold]; rfl) fun j _ _ => by rw [hold]; rfl
  | @skip j hpc hj hnone =>
    have hold : (s.threads id).pc.stage = 5 + j := by rw [hpc]; rfl
    simp only [Thread.Ok, hpc] at hok
    exact h.set ⟨hok.1, hok.2.1, by omega⟩ (fun hstage => by simp only [Pc.stage] at hstage; omega)
      (fun k _ _ => by rw [hold]; simp only [Pc.stage]; omega)
      fun j' _ _ => by rw [hold]; simp only [Pc.stage]; omega
  | signal hpc hchild hc => exact h.signal hid hpc hchild hc
  | @woken j hpc hj =>
    simp only [Thread.Ok, hpc] at hok
    have hold : (s.threads id).pc.stage = 7 := by
      rw [hpc, Pc.stage]
      omega
    exact h.set ⟨hok.1, hok.2.1, rfl⟩ nofun (fun k _ _ => by rw [hold]; rfl) fun j _ _ => by rw [hold]; rfl
  | leave hpc => exact h.leave hid hpc

theorem inv_reach (h : Reach (system n numCalls) s) : Inv n numCalls s := by
  refine h.invariant (inv_init n numCalls) fun _ hinv _ hs => ?_
  obtain ⟨hid, hmove⟩ := move_of_next hs
  exact inv_move hinv hid hmove

/-! ## Progress -/

/-- A thread that cannot step: all calls made, waiting for a child, or waiting to be woken up. -/
inductive Blocked (n numCalls i : Nat) (s : State) : Prop
  | done : (s.threads i).pc.stage = 0 → numCalls ≤ (s.threads i).calls → Blocked n numCalls i s
  | children {k : Fin 4} : (s.threads i).pc.stage = 1 → (s.threads i).calls < numCalls →
      (s.nodes i).cn k = true → Blocked n numCalls i s
  | spin : (s.threads i).pc.stage = 4 → i ≠ 0 → (s.threads i).calls < numCalls →
      s.woke i = (s.threads i).calls → Blocked n numCalls i s

theorem Inv.blocked (h : Inv n numCalls s) (hid : id < n) (hnone : gtmpBarrier n numCalls id s = none) :
    Blocked n numCalls id s := by
  have hok := h.ok id hid
  unfold gtmpBarrier at hnone
  simp only at hnone
  split at hnone
  · next hpc =>
    split at hnone
    · cases hnone
    · next hge => exact .done (by rw [hpc]; rfl) (Nat.not_lt.mp hge)
  · next hpc =>
    simp only [Thread.Ok, hpc] at hok
    split at hnone
    · next hex =>
      obtain ⟨k, hk⟩ := hex
      exact .children (by rw [hpc]; rfl) hok.2 hk
    · cases hnone
  · cases hnone
  · cases hnone
  · next hpc =>
    simp only [Thread.Ok, hpc] at hok
    rw [parentPtr, if_pos hok.2.2] at hnone
    cases hnone
  · cases hnone
  · next b hpc =>
    simp only [Thread.Ok, hpc] at hok
    obtain ⟨hsense, hlt, hid0, rfl⟩ := hok
    split at hnone
    · cases hnone
    · next hne =>
      have hstage : (s.threads id).pc.stage = 4 := by rw [hpc]; rfl
      refine .spin hstage hid0 hlt ?_
      have hfive : s.past 5 id = (s.threads id).calls := past_eq (by rw [hstage]; decide)
      have hle := h.down.le id hid hid0
      have hge := h.down.ge id hid hid0
      rw [h.down.parentSense id hid hid0, hsense, decide_eq_decide] at hne
      omega
  · split at hnone
    · split at hnone <;> cases hnone
    · cases hnone
  · next j b hpc =>
    simp only [Thread.Ok, hpc] at hok
    rw [wakeupPtr, if_pos hok.2.2.2.1] at hnone
    cases hnone
  · cases hnone

/-- A blocked thread is before stage 5. -/
theorem Blocked.past_five {i : Nat} (h : Blocked n numCalls i s) :
    (s.threads i).pc.stage < 5 ∧ s.past 5 i = (s.threads i).calls := by
  have hstage : (s.threads i).pc.stage < 5 := by cases h <;> omega
  exact ⟨hstage, past_eq hstage⟩

/-- When all threads are blocked, a thread with calls to make has not been woken up, so its waker has
not come to it; up to the root, nobody is ahead. -/
theorem Inv.root_behind (h : Inv n numCalls s) (hblocked : ∀ i < n, Blocked n numCalls i s) {c : Nat}
    (hc : c < n) : (s.threads c).calls < numCalls → (s.threads 0).calls ≤ (s.threads c).calls := by
  refine Heap.induction 2 (P := fun c => (s.threads c).calls < numCalls →
    (s.threads 0).calls ≤ (s.threads c).calls) (fun _ _ => Nat.le_refl _) ?_ c hc
  intro c hc hc0 hparent hlt
  have hq : parent 2 c < n := Nat.lt_of_le_of_lt (parent_le 2 c) hc
  obtain ⟨hstage, hfive⟩ := (hblocked _ hq).past_five
  have hturn : s.woke c = (s.threads (parent 2 c)).calls := past_eq (by omega)
  have hwoke : s.woke c = (s.threads c).calls := by
    cases hblocked c hc with
    | done _ hge => omega
    | children hone _ _ =>
      have hthree : s.past 3 c = (s.threads c).calls := past_eq (by omega)
      have hle := h.down.le c hc hc0
      have hfive' := (hblocked c hc).past_five.2
      have hup := h.past_five_le hq hc
      omega
    | spin _ _ _ hwoke => exact hwoke
  have hsame : (s.threads (parent 2 c)).calls = (s.threads c).calls := hturn.symm.trans hwoke
  rw [hsame] at hparent
  exact hparent hlt

/-- When all threads are blocked, nobody waits for a child: the child would wait for a child of its own,
or be a call behind. The induction goes down the tree. -/
theorem Inv.not_children (h : Inv n numCalls s) (hblocked : ∀ i < n, Blocked n numCalls i s) (d : Nat)
    {p : Nat} (hp : p < n) (hd : n - p ≤ d) (hstage : (s.threads p).pc.stage = 1)
    (hlt : (s.threads p).calls < numCalls) {k : Fin 4} (hk : (s.nodes p).cn k = true) : False := by
  induction d generalizing p k with
  | zero => omega
  | succ d ih =>
    have hk4 := k.isLt
    -- the child that the byte is for
    obtain ⟨c, hchild⟩ : ∃ c, c = 4 * p + 1 + k := ⟨_, rfl⟩
    have hc : c < n := by
      by_contra hc
      have hno : Gtmp2.hc n p k = false := decide_eq_false (by omega)
      rw [h.up.childless p hp k hno] at hk
      cases hk
    have hparent : parent 4 c = p := by unfold parent; omega
    have hslot : Fin.ofNat 4 (c - 1) = k := Fin.ext (by simp only [Fin.ofNat]; omega)
    have harrive := h.up.arrive c hc (by omega)
    have hbyte : s.notReady c = true := by rw [State.notReady, hparent, hslot, hk]
    have hthree : s.past 3 p = (s.threads p).calls := past_eq (by omega)
    rw [hbyte, if_pos rfl, hparent, hthree, Nat.add_zero] at harrive
    cases hblocked c hc with
    | done hzero hge =>
      have hfour : s.past 4 c = (s.threads c).calls := past_eq (by omega)
      omega
    | children hone hlt' hk' => exact ih hc (by omega) hone hlt' hk'
    | spin hfour hc0 hlt' hwoke =>
      have hsucc : s.past 4 c = (s.threads c).calls + 1 := past_eq_succ (by omega)
      have hroot := h.root_behind hblocked hc hlt'
      have hle := h.down.le_root hp
      have hfive := (hblocked p hp).past_five.2
      have hfive' := (hblocked 0 (by omega)).past_five.2
      omega

theorem progress (h : Inv n numCalls s) {i : Nat} (hi : i < n) (hcalls : (s.threads i).calls < numCalls) :
    ¬ Stuck (system n numCalls) s := by
  intro hstuck
  have hblocked : ∀ i < n, Blocked n numCalls i s := by
    intro j hj
    have hnone := hstuck j
    simp only [system, hj, if_true] at hnone
    exact h.blocked hj hnone
  have hn : 0 < n := by omega
  have hchildren : ∀ p < n, ∀ k, (s.threads p).pc.stage = 1 → (s.threads p).calls < numCalls →
      (s.nodes p).cn k ≠ true :=
    fun p hp k hone hlt hk => h.not_children hblocked (n - p) hp (Nat.le_refl _) hone hlt hk
  have hroot := h.root_behind hblocked hi hcalls
  -- the root does not wait to be woken up, so it waits for a child or is done
  cases hblocked 0 hn with
  | done _ hge => omega
  | children hone hlt hk => exact hchildren 0 hn _ hone hlt hk
  | spin _ h0 _ _ => exact h0 rfl

/-! ## The barrier -/

/-- Two calls of three threads, of which 1 and 2 are the children of 0 in both trees. Thread 1 arrives
in the second call before thread 2 has been woken up in the first. -/
def threeThreads : List Nat :=
  [(6, 1), (6, 2), (6, 0), (5, 1), (6, 1), (4, 0), (5, 2), (6, 2), (10, 0), (5, 1), (5, 2)].flatMap
    fun (steps, id) => List.replicate steps id

end AdvancedOS.Gtmp2
