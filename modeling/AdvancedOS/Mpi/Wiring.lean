import AdvancedOS.Mpi.Gtmpi2
import AdvancedOS.Omp.Wiring

/-!
# The trees of `gtmpi_barrier`

The ranks that a rank names in a call of `gtmpi_barrier`. Each computes them for itself, so what one side of
a message expects has to be what the other side does: `Agrees`.

* `wake_run`: the wake-ups of a call are those of its plan.
* `agrees_iff`: the ranks agree exactly if there are at most `2 ^ 29` of them.
* `barrier_trees`: the same for the nodes of `gtmp_init` and the ranks of `gtmpi_barrier`.
-/

namespace AdvancedOS.Gtmpi2.Wiring

open Heap Gtmp2.Wiring

/-! ## The index arithmetic -/

/-- The loop that sends the wake-ups. -/
def wakeLoop (numProcesses i k : Nat) : List Nat :=
  if i < numProcesses ∧ k < 2 then i :: wakeLoop numProcesses (i + 1) (k + 1) else []
termination_by 2 - k

/-- The ranks that a rank names: the arrivals that it waits for, where it sends its own and from where it
takes its wake-up unless it is rank 0, and where it sends wake-ups. -/
structure Plan where
  firstChild : Nat
  numChildren : Nat
  arrivalTo : Option Nat
  wakeupFrom : Option Nat
  wakeups : List Nat

/-- What `gtmpi_barrier` computes for `rank`; `none` is an overflow. -/
def plan (numProcesses rank : Nat) : Option Plan := do
  let firstChild ← int (rank * 4 + 1)
  let i ← int (rank * 2 + 1)
  some {
    firstChild
    numChildren := numChildren numProcesses rank
    arrivalTo := if rank ≠ 0 then some ((rank - 1) / 4) else none
    wakeupFrom := if rank ≠ 0 then some ((rank - 1) / 2) else none
    wakeups := wakeLoop numProcesses i 0 }

/-- Rank `r` expects an arrival from rank `c`. -/
def Expects (n r c : Nat) : Prop :=
  ∃ p ∈ plan n r, p.firstChild ≤ c ∧ c < p.firstChild + p.numChildren

/-- Rank `c` sends its arrival to rank `r`. -/
def SendsArrival (n c r : Nat) : Prop := ∃ p ∈ plan n c, p.arrivalTo = some r

/-- Rank `r` sends a wake-up to rank `c`. -/
def SendsWakeup (n r c : Nat) : Prop := ∃ p ∈ plan n r, c ∈ p.wakeups

/-- Rank `c` waits for its wake-up from rank `r`. -/
def AwaitsWakeup (n c r : Nat) : Prop := ∃ p ∈ plan n c, p.wakeupFrom = some r

/-- The ranks below `n` agree on who sends what to whom. -/
structure Agrees (n : Nat) : Prop where
  defined : ∀ r < n, (plan n r).isSome
  arrivals : ∀ r < n, ∀ c < n, Expects n r c ↔ SendsArrival n c r
  wakeups : ∀ r < n, ∀ c < n, SendsWakeup n r c ↔ AwaitsWakeup n c r
  /-- Nobody names a rank that does not exist. -/
  inside : ∀ r < n, ∀ c, Expects n r c ∨ SendsArrival n r c ∨ SendsWakeup n r c ∨ AwaitsWakeup n r c → c < n
  arrival_tree : IsTree n (Expects n)
  wakeup_tree : IsTree n (SendsWakeup n)

variable {n : Nat}

theorem mem_wakeLoop {i k c : Nat} : c ∈ wakeLoop n i k ↔ i ≤ c ∧ c < n ∧ c + k < i + 2 := by
  fun_induction wakeLoop n i k with
  | case1 i k h ih =>
    rw [List.mem_cons, ih]
    omega
  | case2 i k h =>
    simp only [List.not_mem_nil, false_iff]
    omega

/-- In the step function of a rank, the wake-ups of a call go to the ranks of the loop, in their order. -/
theorem wake_run {s : State} {numCalls rank calls i k : Nat} {got : List (Nat × Stamp)}
    (hs : s.procs rank = ⟨calls, .wake i k, got⟩) :
    Relation.ReflTransGen (fun s t => gtmpiBarrier n numCalls rank s = some t) s
      (s.put rank ⟨calls + 1, .outside, got⟩
        ((wakeLoop n i k).foldl (fun net c => net.send ⟨rank, c, 0⟩ ⟨calls + 1, .wakeup⟩) s.net)) := by
  fun_induction wakeLoop n i k generalizing s with
  | case1 i k h ih =>
    have hstep : gtmpiBarrier n numCalls rank s = some (s.put rank ⟨calls, .wake (i + 1) (k + 1), got⟩
        (s.net.send ⟨rank, i, 0⟩ ⟨calls + 1, .wakeup⟩)) := by
      unfold gtmpiBarrier
      rw [hs]
      exact if_pos h
    have hrun := ih (s := s.put rank ⟨calls, .wake (i + 1) (k + 1), got⟩
      (s.net.send ⟨rank, i, 0⟩ ⟨calls + 1, .wakeup⟩)) (Function.update_self ..)
    simp only [State.put, Function.update_idem] at hrun hstep
    exact .head hstep hrun
  | case2 i k h =>
    refine .single ?_
    unfold gtmpiBarrier
    rw [hs]
    exact if_neg h

/-! ## The two sides of a message -/

/-- The plan of a rank whose children have numbers of type `int`. -/
def fullPlan (n r : Nat) : Plan where
  firstChild := r * 4 + 1
  numChildren := numChildren n r
  arrivalTo := if r ≠ 0 then some (parent 4 r) else none
  wakeupFrom := if r ≠ 0 then some (parent 2 r) else none
  wakeups := wakeLoop n (r * 2 + 1) 0

theorem plan_eq (n r : Nat) : plan n r = if r < 2 ^ 29 then some (fullPlan n r) else none := by
  have hmax : intMax = 2147483647 := rfl
  by_cases hr : r < 2 ^ 29
  · have hchild : int (r * 4 + 1) = some (r * 4 + 1) := if_pos (by omega)
    have hwakeup : int (r * 2 + 1) = some (r * 2 + 1) := if_pos (by omega)
    rw [plan, hchild, hwakeup, if_pos hr]
    rfl
  · have hchild : int (r * 4 + 1) = none := if_neg (by omega)
    rw [plan, hchild, if_neg hr]
    rfl

theorem exists_plan {r : Nat} {P : Plan → Prop} : (∃ p ∈ plan n r, P p) ↔ r < 2 ^ 29 ∧ P (fullPlan n r) := by
  rw [plan_eq]
  by_cases hr : r < 2 ^ 29
  · rw [if_pos hr, and_iff_right hr]
    exact ⟨fun ⟨_, hp, h⟩ => Option.mem_some_iff.mp hp ▸ h, fun h => ⟨_, rfl, h⟩⟩
  · rw [if_neg hr]
    simp only [Option.not_mem_none, false_and, exists_false, hr]

theorem ite_some_eq_some {b : Prop} [Decidable b] {x y : Nat} :
    (if b then some x else none) = some y ↔ b ∧ x = y := by
  split
  · next hb => simp [hb]
  · next hb => simp [hb]

variable {r c : Nat}

theorem expects_iff : Expects n r c ↔ r < 2 ^ 29 ∧ c ∈ children 4 n r := by
  have hlen := numChildren_eq n r
  rw [length_children] at hlen
  rw [Expects, exists_plan, children, List.mem_range'_1, ← hlen, Nat.mul_comm 4 r]
  rfl

theorem sendsArrival_iff (hc : c < n) : SendsArrival n c r ↔ c < 2 ^ 29 ∧ c ∈ children 4 n r := by
  rw [SendsArrival, exists_plan, mem_children (Nat.succ_pos 3)]
  refine and_congr_right fun _ => ite_some_eq_some.trans ?_
  simp [hc]

theorem sendsWakeup_iff : SendsWakeup n r c ↔ r < 2 ^ 29 ∧ c ∈ children 2 n r := by
  rw [SendsWakeup, exists_plan, children, List.mem_range'_1]
  refine and_congr_right fun _ => mem_wakeLoop.trans ?_
  omega

theorem awaitsWakeup_iff (hc : c < n) : AwaitsWakeup n c r ↔ c < 2 ^ 29 ∧ c ∈ children 2 n r := by
  rw [AwaitsWakeup, exists_plan, mem_children Nat.zero_lt_two]
  refine and_congr_right fun _ => ite_some_eq_some.trans ?_
  simp [hc]

/-- Up to `2 ^ 29` ranks, every number of a child is of type `int`. -/
theorem agrees (hn : n ≤ 2 ^ 29) : Agrees n := by
  have hchild : ∀ {k r c}, 0 < k → c ∈ children k n r → r < c ∧ c < n := by
    intro k r c hk hmem
    obtain ⟨hc, hlt, rfl⟩ := (mem_children hk).mp hmem
    exact ⟨parent_lt hc, hlt⟩
  have hexpects : Expects n = fun r c => c ∈ children 4 n r := by
    funext r c
    refine propext (expects_iff.trans (and_iff_right_of_imp fun hmem => ?_))
    have hlt := hchild (Nat.succ_pos 3) hmem
    omega
  have hwakeup : SendsWakeup n = fun r c => c ∈ children 2 n r := by
    funext r c
    refine propext (sendsWakeup_iff.trans (and_iff_right_of_imp fun hmem => ?_))
    have hlt := hchild Nat.zero_lt_two hmem
    omega
  refine ⟨fun r hr => ?_, fun r _ c hc => ?_, fun r _ c hc => ?_, fun r hr c hnamed => ?_, ?_, ?_⟩
  · rw [plan_eq, if_pos (by omega)]
    rfl
  · rw [hexpects, sendsArrival_iff hc, and_iff_right (by omega)]
  · rw [hwakeup, awaitsWakeup_iff hc, and_iff_right (by omega)]
  · rcases hnamed with h | h | h | h
    · rw [hexpects] at h
      exact (hchild (Nat.succ_pos 3) h).2
    · have hlt := hchild (Nat.succ_pos 3) ((sendsArrival_iff hr).mp h).2
      omega
    · rw [hwakeup] at h
      exact (hchild Nat.zero_lt_two h).2
    · have hlt := hchild Nat.zero_lt_two ((awaitsWakeup_iff hr).mp h).2
      omega
  · rw [hexpects]
    exact isTree_children (Nat.succ_pos 3)
  · rw [hwakeup]
    exact isTree_children Nat.zero_lt_two

/-- The ranks agree exactly if there are at most `2 ^ 29` of them. -/
theorem agrees_iff (n : Nat) : Agrees n ↔ n ≤ 2 ^ 29 := by
  refine ⟨fun h => ?_, agrees⟩
  by_contra hbig
  have hdefined := h.defined (2 ^ 29) (Nat.not_le.mp hbig)
  rw [plan_eq, if_neg (Nat.lt_irrefl _)] at hdefined
  cases hdefined

/-- The nodes are wired as trees and the ranks agree exactly if there are at most `2 ^ 29` of them. -/
theorem barrier_trees (n : Nat) (mem : Nat → McsBarrierNode) :
    ((∃ nodes, gtmpInit n mem = some nodes ∧ Wired n nodes) ∧ Agrees n) ↔ n ≤ 2 ^ 29 := by
  rw [wired_iff, agrees_iff, and_self]

/-- `i * 4 + 1` is no `int` for the last of `2 ^ 29 + 1` nodes. Where it wraps, the node gets four children
that do not exist. -/
theorem barrier_trees_overflow :
    let mem : Nat → McsBarrierNode := fun _ => ⟨none, fun _ => none, 0, 0, fun _ => 0, fun _ => 0⟩
    gtmpInit 536870913 mem = none ∧ plan 536870913 536870912 = none ∧
    ¬ ((∃ nodes, gtmpInit 536870913 mem = some nodes ∧ Wired 536870913 nodes) ∧ Agrees 536870913) ∧
    ∀ k, (childLoop 536870913 (Int.bmod (536870912 * 4 + 1) 4294967296) 0 (mem 536870912)).hc k = 1 ∧
      (childLoop 536870913 (Int.bmod (536870912 * 4 + 1) 4294967296) 0 (mem 536870912)).cn k = 1 := by
  refine ⟨?_, ?_, ?_, childLoop_of_wrapped (by decide) _⟩
  · rw [gtmpInit_eq]
    exact if_neg (by decide)
  · rw [plan_eq]
    exact if_neg (by decide)
  · rw [wired_iff, agrees_iff]
    decide

end AdvancedOS.Gtmpi2.Wiring
