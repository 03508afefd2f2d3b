import Mathlib.Algebra.BigOperators.Ring.Finset
import Mathlib.Tactic.Ring
import AdvancedOS.Lib.Countdown
import AdvancedOS.Mpi.Gtmpi2

/-!
# What a run of `gtmpi2` costs

A rank makes as many steps in a call as it has children in the two trees, and three or four more. A
rank other than 0 is one child in either tree, so over all ranks a call takes an arrival and a
wake-up for each of them, whatever the order in which the `MPI_ANY_SOURCE` loops take the
arrivals: `tree_runs`.
-/

namespace AdvancedOS.Gtmpi2

open Lts Fifo Fifo.Network Heap Finset

variable {n numCalls rank : Nat} {s t : State} {p p' : Proc} {net net' : Network Envelope Stamp}

/-! ## What is left -/

/-- The step is the delivery of a message. -/
def Action.delivers : Action → Bool
  | .proc _ | .recvAny _ _ => false
  | .deliver _ => true

/-- The arrivals a rank sends in a call. -/
def above (rank : Nat) : Nat := if rank = 0 then 0 else 1

/-- The wake-ups a rank sends in a call. -/
def below (n rank : Nat) : Nat := (children 2 n rank).length

/-- The steps of its call that a rank still has to make. -/
def Pc.work (n rank : Nat) : Pc → Nat
  | .outside | .aborted => 0
  | .gather f => numChildren n rank - f + above rank + below n rank + 2
  | .waitWake => below n rank + 2
  | .wake i k => min (2 - k) (n - i) + 1

/-- The messages of its call that a rank still has to send. -/
def Pc.mail (n rank : Nat) : Pc → Nat
  | .outside | .aborted => 0
  | .gather _ => above rank + below n rank
  | .waitWake => below n rank
  | .wake i k => min (2 - k) (n - i)

def Proc.work (n numCalls rank : Nat) (p : Proc) : Nat :=
  (numCalls - p.entered) * (numChildren n rank + above rank + below n rank + 3) + p.pc.work n rank

def Proc.mail (n numCalls rank : Nat) (p : Proc) : Nat :=
  (numCalls - p.entered) * (above rank + below n rank) + p.pc.mail n rank

/-- The channels that the barrier uses. -/
def channels (n : Nat) : Finset Envelope :=
  ((range n).erase 0).image arrivalEnvelope ∪ ((range n).erase 0).image wakeEnvelope

/-- The steps that the ranks still have to make. -/
def State.work (n numCalls : Nat) (s : State) : Nat :=
  ∑ rank ∈ range n, (s.procs rank).work n numCalls rank

/-- The messages that have not arrived, whether they have been sent or not. -/
def State.mail (n numCalls : Nat) (s : State) : Nat :=
  ∑ rank ∈ range n, (s.procs rank).mail n numCalls rank + inFlight (channels n) s.net

theorem arrivalEnvelope_mem_channels (hrank : rank < n) (h0 : rank ≠ 0) : arrivalEnvelope rank ∈ channels n :=
  Finset.mem_union_left _ (Finset.mem_image_of_mem _ (by simp [hrank, h0]))

theorem wakeEnvelope_mem_channels (hrank : rank < n) (h0 : rank ≠ 0) : wakeEnvelope rank ∈ channels n :=
  Finset.mem_union_right _ (Finset.mem_image_of_mem _ (by simp [hrank, h0]))

/-- Only the channels of the barrier carry messages. -/
theorem mem_channels_of_deliver {e : Envelope} (h : Inv n s) (hdel : s.net.deliver e = some net) :
    e ∈ channels n := by
  by_contra hmem
  refine queue_ne_nil_of_deliver hdel (h.quiet e fun c hc h0 => ⟨fun he => hmem ?_, fun he => hmem ?_⟩)
  · rw [he]; exact arrivalEnvelope_mem_channels hc h0
  · rw [he]; exact wakeEnvelope_mem_channels hc h0

/-! ## Every step is a piece of it -/

theorem above_zero : above 0 = 0 := rfl

theorem above_of_ne (h0 : rank ≠ 0) : above rank = 1 := if_neg h0

/-- The loop of the wake-ups starts with all of them before it. -/
theorem min_eq_below (n rank : Nat) : min (2 - 0) (n - (rank * 2 + 1)) = below n rank := by
  rw [below, length_children, Nat.sub_zero, Nat.mul_comm]

theorem ProcMove.work (hok : p'.Ok n rank) (h : ProcMove n numCalls rank net p p' net') :
    p'.work n numCalls rank + 1 = p.work n numCalls rank := by
  unfold Proc.work
  cases h with
  | @enter calls got hlt =>
    simp only [Proc.entered, Pc.work, sub_mul_eq hlt]
    omega
  | take hf hsource hrecv =>
    simp only [Proc.entered, Pc.work]
    omega
  | abort hf hsource hrecv => exact hok.elim
  | up hf h0 =>
    simp only [Proc.entered, Pc.work, above_of_ne h0]
    omega
  | top hf h0 =>
    subst h0
    simp only [Proc.entered, Pc.work, min_eq_below, above_zero]
    omega
  | woken hrecv =>
    simp only [Proc.entered, Pc.work, min_eq_below]
    omega
  | wake hi hk =>
    simp only [Proc.entered, Pc.work]
    omega
  | leave hik =>
    simp only [Proc.entered, Pc.work]
    omega

/-- What a rank has to send less, there is more on the wires. -/
theorem ProcMove.mail (hrank : rank < n) (hok : p.Ok n rank) (hok' : p'.Ok n rank)
    (h : ProcMove n numCalls rank net p p' net') :
    p'.mail n numCalls rank + inFlight (channels n) net' = p.mail n numCalls rank + inFlight (channels n) net := by
  unfold Proc.mail
  cases h with
  | @enter calls got hlt =>
    simp only [Proc.entered, Pc.mail, sub_mul_eq hlt]
    omega
  | take hf hsource hrecv =>
    rw [inFlight_recv hrecv]
    rfl
  | abort hf hsource hrecv => exact hok'.elim
  | up hf h0 =>
    rw [inFlight_send (arrivalEnvelope_mem_channels hrank h0)]
    simp only [Proc.entered, Pc.mail, above_of_ne h0]
    omega
  | top hf h0 =>
    subst h0
    simp only [Proc.entered, Pc.mail, min_eq_below, above_zero]
    omega
  | woken hrecv =>
    rw [inFlight_recv hrecv]
    simp only [Proc.entered, Pc.mail, min_eq_below]
  | @wake calls i k got hi hk =>
    -- the wake-up goes to the child of this turn of the loop
    have hchild : (⟨rank, i, 0⟩ : Envelope) = wakeEnvelope i := by
      have hi' : i = rank * 2 + 1 + k := hok.1
      rw [wakeEnvelope, parent]
      congr
      omega
    have hi0 : i ≠ 0 := by
      have hi' : i = rank * 2 + 1 + k := hok.1
      omega
    rw [hchild, inFlight_send (wakeEnvelope_mem_channels hi hi0)]
    simp only [Proc.entered, Pc.mail]
    omega
  | leave hik =>
    simp only [Proc.entered, Pc.mail]
    omega

theorem work_put (h : Inv n (s.put rank p net)) (hrank : rank < n)
    (hmove : ProcMove n numCalls rank s.net (s.procs rank) p net) :
    (s.put rank p net).work n numCalls + 1 = s.work n numCalls := by
  have hok := h.ok rank hrank
  rw [put_self] at hok
  have hstep := hmove.work hok
  have hchange := Potential.sum_change (Finset.mem_range.mpr hrank) (f := fun q => (s.procs q).work n numCalls q)
    (g := fun q => ((s.put rank p net).procs q).work n numCalls q) fun q hq => by simp only [put_of_ne s p net hq]
  rw [put_self] at hchange
  unfold State.work
  omega

theorem mail_put (h : Inv n s) (h' : Inv n (s.put rank p net)) (hrank : rank < n)
    (hmove : ProcMove n numCalls rank s.net (s.procs rank) p net) :
    (s.put rank p net).mail n numCalls = s.mail n numCalls := by
  have hok := h'.ok rank hrank
  rw [put_self] at hok
  have hstep := hmove.mail hrank (h.ok rank hrank) hok
  have hchange := Potential.sum_change (Finset.mem_range.mpr hrank) (f := fun q => (s.procs q).mail n numCalls q)
    (g := fun q => ((s.put rank p net).procs q).mail n numCalls q) fun q hq => by simp only [put_of_ne s p net hq]
  rw [put_self] at hchange
  unfold State.mail
  rw [put_net]
  omega

/-! ## The end of a run -/

/-- Nobody enters more calls than the program makes. -/
theorem entered_le_numCalls (h : Reach (system n numCalls) s) (q : Nat) : (s.procs q).entered ≤ numCalls := by
  refine h.invariant (I := fun s => ∀ q, (s.procs q).entered ≤ numCalls) (fun _ => Nat.zero_le _)
    (fun {s u a} _ hi _ hs => ?_) q
  rcases next_cases hs with ⟨rank, -, p, net, hmove, rfl⟩ | ⟨e, net, hdel, rfl⟩
  · intro q
    by_cases hq : q = rank
    · subst hq
      have hle := hi q
      rw [put_self]
      generalize hpc : s.procs q = p₀ at hmove hle
      cases hmove with
      | enter hlt => exact hlt
      | _ => exact hle
    · rw [put_of_ne s p net hq]
      exact hi q
  · exact hi

/-- The program ends when all ranks have returned from all their calls, and only then. -/
theorem stuck_iff_returned (h : Reach (system n numCalls) s) :
    Stuck (system n numCalls) s ↔ ∀ p < n, (s.procs p).pc = .outside ∧ (s.procs p).calls = numCalls := by
  have hinv := inv_reach h
  refine ⟨fun hstuck p hp => ?_, fun hout a => ?_⟩
  · have hcalls : numCalls ≤ (s.procs p).calls := by
      by_contra hlt
      obtain ⟨q, hq, hqcalls, hfree⟩ := exists_unblocked hinv hp (Nat.not_le.mp hlt)
      exact next_of_unblocked hinv hq hqcalls hfree hstuck
    have hle := entered_le_numCalls h p
    generalize s.procs p = p₀ at hcalls hle ⊢
    obtain ⟨calls, pc, got⟩ := p₀
    cases pc with
    | outside => exact ⟨rfl, Nat.le_antisymm hle hcalls⟩
    | _ => exact absurd hle (Nat.not_le.mpr (Nat.lt_succ_of_le hcalls))
  · have hproc : ∀ p < n, ∃ got, s.procs p = ⟨numCalls, .outside, got⟩ := fun p hp =>
      ⟨(s.procs p).got, by rw [← (hout p hp).1, ← (hout p hp).2]⟩
    cases a with
    | proc rank =>
      by_cases hrank : rank < n
      · obtain ⟨got, hgot⟩ := hproc rank hrank
        simp [system, hrank, gtmpiBarrier, hgot]
      · simp [system, hrank]
    | recvAny rank source =>
      by_cases hrank : rank < n
      · obtain ⟨got, hgot⟩ := hproc rank hrank
        simp [system, hrank, recvAny, hgot]
      · simp [system, hrank]
    | deliver e =>
      have hnone : s.net.deliver e = none := by
        cases hdel : s.net.deliver e with
        | none => rfl
        | some net => exact absurd (queue_eq_nil_of_outside hinv hout e) (queue_ne_nil_of_deliver hdel)
      simp [system, hnone]

/-- When all ranks have returned from all their calls, nothing is left. -/
theorem left_of_returned (hdel : ∀ e, s.net.deliver e = none)
    (hout : ∀ p < n, (s.procs p).pc = .outside ∧ (s.procs p).calls = numCalls) :
    s.work n numCalls = 0 ∧ s.mail n numCalls = 0 := by
  have hwork : s.work n numCalls = 0 := Finset.sum_eq_zero fun p hp => by
    obtain ⟨hpc, hcalls⟩ := hout p (Finset.mem_range.mp hp)
    simp [Proc.work, Proc.entered, Pc.work, hpc, hcalls]
  have hmail : ∑ rank ∈ range n, (s.procs rank).mail n numCalls rank = 0 := Finset.sum_eq_zero fun p hp => by
    obtain ⟨hpc, hcalls⟩ := hout p (Finset.mem_range.mp hp)
    simp [Proc.mail, Proc.entered, Pc.mail, hpc, hcalls]
  exact ⟨hwork, by rw [State.mail, hmail, inFlight_eq_zero hdel]⟩

/-- A step that is not a delivery. -/
theorem countdown_of_move (hr : Reach (system n numCalls) s) {a : Action} (ha : ∀ e, a ≠ .deliver e)
    (hs : (system n numCalls).next a s = some t) :
    t.work n numCalls + 1 = s.work n numCalls ∧ t.mail n numCalls = s.mail n numCalls := by
  have hinv' := inv_reach (.step hr trivial hs)
  obtain ⟨rank, hrank, p, net, hmove, rfl⟩ := move_of_step ha hs
  exact ⟨work_put hinv' hrank hmove, mail_put (inv_reach hr) hinv' hrank hmove⟩

theorem countdown (n numCalls : Nat) :
    Countdown (system n numCalls) Action.delivers (State.work n numCalls) (State.mail n numCalls) where
  work_step {s t a} hr hs := by
    cases a with
    | proc rank | recvAny rank source => exact (countdown_of_move hr (by simp) hs).1
    | deliver e =>
      obtain ⟨net, -, rfl⟩ := Option.map_eq_some_iff.mp hs
      rfl
  mail_step {s t a} hr hs := by
    cases a with
    | proc rank | recvAny rank source => exact (countdown_of_move hr (by simp) hs).2
    | deliver e =>
      obtain ⟨net, hdel, rfl⟩ := Option.map_eq_some_iff.mp hs
      have hflight := inFlight_deliver (mem_channels_of_deliver (inv_reach hr) hdel) hdel
      simp only [State.mail, Action.delivers, if_true]
      omega
  stuck {s} hr hstuck := by
    refine left_of_returned (fun e => ?_) ((stuck_iff_returned hr).mp hstuck)
    simpa [system] using hstuck (.deliver e)

/-! ## The cost of a call -/

theorem sum_above (n : Nat) : ∑ rank ∈ range n, above rank = n - 1 := by
  cases n with
  | zero => rfl
  | succ n =>
    rw [Finset.sum_range_succ', above_zero, Finset.sum_const_nat (m := 1) fun rank _ => above_of_ne (Nat.succ_ne_zero rank)]
    simp

theorem sum_below (n : Nat) : ∑ rank ∈ range n, below n rank = n - 1 := sum_length_children (by decide) n

theorem sum_numChildren (n : Nat) : ∑ rank ∈ range n, numChildren n rank = n - 1 := by
  rw [Finset.sum_congr rfl fun rank _ => numChildren_eq n rank]
  exact sum_length_children (by decide) n

theorem work_init (n numCalls : Nat) :
    (system n numCalls).init.work n numCalls = numCalls * (3 * n + 3 * (n - 1)) := by
  have hproc : ∀ rank ∈ range n, ((system n numCalls).init.procs rank).work n numCalls rank =
      numCalls * (numChildren n rank + above rank + below n rank + 3) := fun _ _ => rfl
  rw [State.work, Finset.sum_congr rfl hproc, ← Finset.mul_sum, Finset.sum_add_distrib, Finset.sum_add_distrib,
    Finset.sum_add_distrib, sum_numChildren, sum_above, sum_below, Finset.sum_const_nat (m := 3) fun _ _ => rfl,
    Finset.card_range]
  ring

theorem mail_init (n numCalls : Nat) :
    (system n numCalls).init.mail n numCalls = numCalls * (2 * (n - 1)) := by
  have hproc : ∀ rank ∈ range n, ((system n numCalls).init.procs rank).mail n numCalls rank =
      numCalls * (above rank + below n rank) := fun _ _ => rfl
  have hflight : inFlight (channels n) (system n numCalls).init.net = 0 := inFlight_empty _
  rw [State.mail, hflight, Finset.sum_congr rfl hproc, ← Finset.mul_sum, Finset.sum_add_distrib, sum_above, sum_below]
  ring

/-- Every run of the program comes to the same end at the same cost, whatever the order of its steps
and of the arrivals: it cannot go on exactly when all ranks have returned from all their calls, which
takes two messages a call for every rank but one, and `6 * n - 3` steps of the ranks; and every run can
be continued to there. -/
theorem tree_runs {as : List Action} (h : exec (system n numCalls) as (system n numCalls).init = some t) :
    as.length ≤ numCalls * (3 * n + 5 * (n - 1)) ∧
    (Stuck (system n numCalls) t ↔ ∀ p < n, (t.procs p).pc = .outside ∧ (t.procs p).calls = numCalls) ∧
    (Stuck (system n numCalls) t ↔ as.length = numCalls * (3 * n + 5 * (n - 1))) ∧
    (Stuck (system n numCalls) t → as.countP Action.delivers = numCalls * (2 * (n - 1))) ∧
    ∃ bs u, exec (system n numCalls) (as ++ bs) (system n numCalls).init = some u ∧
      ∀ p < n, (u.procs p).pc = .outside ∧ (u.procs p).calls = numCalls := by
  obtain ⟨hle, hlength, hdelivers, bs, u, hbs, hu⟩ := (countdown n numCalls).run h
  have htotal : (system n numCalls).init.work n numCalls + (system n numCalls).init.mail n numCalls =
      numCalls * (3 * n + 5 * (n - 1)) := by
    rw [work_init, mail_init]
    ring
  rw [htotal] at hle hlength
  rw [mail_init] at hdelivers
  exact ⟨hle, stuck_iff_returned (reach_exec as .init h), hlength, hdelivers, bs, u, hbs,
    (stuck_iff_returned (reach_exec _ .init hbs)).mp hu⟩

theorem tree_runs_three_ranks : ∃ t, exec (system 3 1) threeRanks (system 3 1).init = some t ∧
    threeRanks.length = 19 ∧ threeRanks.countP Action.delivers = 4 ∧ Stuck (system 3 1) t := by
  have hrun : (exec (system 3 1) threeRanks (system 3 1).init).isSome := by decide
  obtain ⟨t, ht⟩ := Option.isSome_iff_exists.mp hrun
  obtain ⟨-, -, hlength, -, -⟩ := tree_runs ht
  exact ⟨t, ht, rfl, rfl, hlength.mpr rfl⟩

end AdvancedOS.Gtmpi2
