import Mathlib.Tactic.Ring
import AdvancedOS.Lib.Countdown
import AdvancedOS.Mpi.Gtmpi1

/-!
# What a run of `gtmpi1` costs

A call of `gtmpi_barrier` is a fixed amount of work for a rank: it starts the call, makes one
`MPI_Isend` and one `MPI_Recv` a round, and leaves the loop. So the steps and the messages that are
left can be read off a state (`State.work`, `State.mail`), and every interleaving of the ranks and
the deliveries comes to the same numbers: `dissemination_runs`.
-/

namespace AdvancedOS.Gtmpi1

open Lts Fifo Fifo.Network Dissemination Finset

variable {n numCalls rank : Nat} {s t : State} {p p' : Proc} {net net' : Network Envelope Stamp}

/-! ## What is left -/

/-- The step is the delivery of a message. -/
def Action.delivers : Action → Bool
  | .proc _ => false
  | .deliver _ => true

/-- The steps of its call that a rank still has to make. -/
def Pc.work (rounds : Nat) : Pc → Nat
  | .outside => 0
  | .loop round => 2 * (rounds - round) + 1
  | .recv round => 2 * (rounds - round)

/-- The messages of its call that a rank still has to send. -/
def Pc.mail (rounds : Nat) : Pc → Nat
  | .outside => 0
  | .loop round => rounds - round
  | .recv round => rounds - (round + 1)

def Proc.work (n numCalls : Nat) (p : Proc) : Nat :=
  (numCalls - p.entered) * (2 * numRounds n + 2) + p.pc.work (numRounds n)

def Proc.mail (n numCalls : Nat) (p : Proc) : Nat :=
  (numCalls - p.entered) * numRounds n + p.pc.mail (numRounds n)

/-- The channels that the barrier uses. -/
def channels (n : Nat) : Finset Envelope :=
  (range n ×ˢ range (numRounds n)).image fun x => sendEnvelope n x.1 x.2

/-- The steps that the ranks still have to make. -/
def State.work (n numCalls : Nat) (s : State) : Nat :=
  ∑ rank ∈ range n, (s.procs rank).work n numCalls

/-- The messages that have not arrived, whether they have been sent or not. -/
def State.mail (n numCalls : Nat) (s : State) : Nat :=
  ∑ rank ∈ range n, (s.procs rank).mail n numCalls + inFlight (channels n) s.net

theorem sendEnvelope_mem_channels {round : Nat} (hrank : rank < n) (hround : round < numRounds n) :
    sendEnvelope n rank round ∈ channels n :=
  Finset.mem_image.mpr ⟨(rank, round), by simp [hrank, hround], rfl⟩

/-- Only the channels of the barrier carry messages. -/
theorem mem_channels_of_deliver {e : Envelope} (h : Inv n s) (hdel : s.net.deliver e = some net) :
    e ∈ channels n := by
  by_contra hmem
  refine queue_ne_nil_of_deliver hdel (h.quiet e fun p hp r hr he => hmem ?_)
  rw [he]
  exact sendEnvelope_mem_channels hp hr

/-! ## Every step is a piece of it -/

theorem ProcMove.work (hround : p.RoundOk n) (h : ProcMove n numCalls rank net p p' net') :
    p'.work n numCalls + 1 = p.work n numCalls := by
  unfold Proc.work
  cases h with
  | @enter calls hlt =>
    simp only [Proc.entered, Pc.work, Nat.sub_zero, sub_mul_eq hlt (2 * numRounds n + 2)]
    omega
  | send hlt =>
    simp only [Proc.entered, Pc.work]
    omega
  | @recv calls round m net hrecv =>
    have hlt : round < numRounds n := hround
    simp only [Proc.entered, Pc.work]
    omega
  | leave hge =>
    simp only [Proc.entered, Pc.work]
    omega

/-- What a rank has to send less, there is more on the wires. -/
theorem ProcMove.mail (hrank : rank < n) (h : ProcMove n numCalls rank net p p' net') :
    p'.mail n numCalls + inFlight (channels n) net' = p.mail n numCalls + inFlight (channels n) net := by
  unfold Proc.mail
  cases h with
  | @enter calls hlt =>
    simp only [Proc.entered, Pc.mail, Nat.sub_zero, Nat.add_zero, sub_mul_eq hlt (numRounds n)]
  | send hlt =>
    rw [inFlight_send (sendEnvelope_mem_channels hrank hlt)]
    simp only [Proc.entered, Pc.mail]
    omega
  | recv hrecv =>
    rw [inFlight_recv hrecv]
    rfl
  | leave hge =>
    simp only [Proc.entered, Pc.mail]
    omega

theorem work_put (h : Inv n s) (hrank : rank < n) (hmove : ProcMove n numCalls rank s.net (s.procs rank) p net) :
    (s.put rank p net).work n numCalls + 1 = s.work n numCalls := by
  have hstep := hmove.work (h.roundOk rank hrank)
  have hchange := Potential.sum_change (Finset.mem_range.mpr hrank) (f := fun q => (s.procs q).work n numCalls)
    (g := fun q => ((s.put rank p net).procs q).work n numCalls) fun q hq => by simp only [put_of_ne s p net hq]
  rw [put_self] at hchange
  unfold State.work
  omega

theorem mail_put (hrank : rank < n) (hmove : ProcMove n numCalls rank s.net (s.procs rank) p net) :
    (s.put rank p net).mail n numCalls = s.mail n numCalls := by
  have hstep := hmove.mail hrank
  have hchange := Potential.sum_change (Finset.mem_range.mpr hrank) (f := fun q => (s.procs q).mail n numCalls)
    (g := fun q => ((s.put rank p net).procs q).mail n numCalls) fun q hq => by simp only [put_of_ne s p net hq]
  rw [put_self] at hchange
  unfold State.mail
  rw [put_net]
  omega

/-! ## The end of a run -/

/-- Nobody enters more calls than the program makes. -/
theorem entered_le_numCalls (h : Reach (system n numCalls) s) (q : Nat) : (s.procs q).entered ≤ numCalls := by
  refine h.invariant (I := fun s => ∀ q, (s.procs q).entered ≤ numCalls) (fun _ => Nat.zero_le _)
    (fun {s u a} _ hi _ hs => ?_) q
  rcases next_cases hs with ⟨rank, -, p, net, hmove, rfl⟩ | ⟨e, net, hdel, rfl⟩
  · intro q
    by_cases hq : q = rank
    · subst hq
      have hle := hi q
      rw [put_self]
      generalize hpc : s.procs q = p₀ at hmove hle
      cases hmove with
      | enter hlt => exact hlt
      | send hround | recv hrecv | leave hround => exact hle
    · rw [put_of_ne s p net hq]
      exact hi q
  · exact hi

/-- The program ends when all ranks have returned from all their calls, and only then. -/
theorem stuck_iff_returned (h : Reach (system n numCalls) s) :
    Stuck (system n numCalls) s ↔ ∀ p < n, s.procs p = ⟨numCalls, .outside⟩ := by
  have hinv := inv_reach h
  refine ⟨fun hstuck p hp => ?_, fun hout a => ?_⟩
  · have hcalls : numCalls ≤ (s.procs p).calls := by
      by_contra hlt
      obtain ⟨q, hq, hqcalls, hfree⟩ := exists_unblocked hinv hp (Nat.not_le.mp hlt)
      exact next_of_unblocked hq hqcalls hfree hstuck
    have hle := entered_le_numCalls h p
    generalize s.procs p = p₀ at hcalls hle ⊢
    obtain ⟨calls, pc⟩ := p₀
    cases pc with
    | outside => exact congrArg (Proc.mk · .outside) (Nat.le_antisymm hle hcalls)
    | loop round | recv round => exact absurd hle (Nat.not_le.mpr (Nat.lt_succ_of_le hcalls))
  · cases a with
    | proc rank =>
      by_cases hrank : rank < n
      · simp [system, hrank, gtmpiBarrier, hout rank hrank]
      · simp [system, hrank]
    | deliver e =>
      have hnone : s.net.deliver e = none := by
        cases hdel : s.net.deliver e with
        | none => rfl
        | some net => exact absurd (queue_eq_nil_of_outside hinv hout e) (queue_ne_nil_of_deliver hdel)
      simp [system, hnone]

/-- When all ranks have returned from all their calls, nothing is left. -/
theorem left_of_returned (hdel : ∀ e, s.net.deliver e = none) (hout : ∀ p < n, s.procs p = ⟨numCalls, .outside⟩) :
    s.work n numCalls = 0 ∧ s.mail n numCalls = 0 := by
  have hwork : s.work n numCalls = 0 := Finset.sum_eq_zero fun p hp => by
    simp [hout p (Finset.mem_range.mp hp), Proc.work, Proc.entered, Pc.work]
  have hmail : ∑ rank ∈ range n, (s.procs rank).mail n numCalls = 0 := Finset.sum_eq_zero fun p hp => by
    simp [hout p (Finset.mem_range.mp hp), Proc.mail, Proc.entered, Pc.mail]
  exact ⟨hwork, by rw [State.mail, hmail, inFlight_eq_zero hdel]⟩

theorem countdown (n numCalls : Nat) :
    Countdown (system n numCalls) Action.delivers (State.work n numCalls) (State.mail n numCalls) where
  work_step {s t a} hr hs := by
    cases a with
    | proc rank =>
      obtain ⟨p, net, hrank, hmove, rfl⟩ := move_of_proc hs
      exact work_put (inv_reach hr) hrank hmove
    | deliver e =>
      obtain ⟨net, -, rfl⟩ := Option.map_eq_some_iff.mp hs
      rfl
  mail_step {s t a} hr hs := by
    cases a with
    | proc rank =>
      obtain ⟨p, net, hrank, hmove, rfl⟩ := move_of_proc hs
      exact mail_put hrank hmove
    | deliver e =>
      obtain ⟨net, hdel, rfl⟩ := Option.map_eq_some_iff.mp hs
      have hflight := inFlight_deliver (mem_channels_of_deliver (inv_reach hr) hdel) hdel
      simp only [State.mail, Action.delivers, if_true]
      omega
  stuck {s} hr hstuck := by
    refine left_of_returned (fun e => ?_) ((stuck_iff_returned hr).mp hstuck)
    simpa [system] using hstuck (.deliver e)

theorem work_init (n numCalls : Nat) :
    (system n numCalls).init.work n numCalls = numCalls * n * (2 * numRounds n + 2) := by
  have hproc : ∀ rank ∈ range n, ((system n numCalls).init.procs rank).work n numCalls =
      numCalls * (2 * numRounds n + 2) := fun _ _ => rfl
  rw [State.work, Finset.sum_const_nat hproc, Finset.card_range]
  ring

theorem mail_init (n numCalls : Nat) :
    (system n numCalls).init.mail n numCalls = numCalls * n * numRounds n := by
  have hproc : ∀ rank ∈ range n, ((system n numCalls).init.procs rank).mail n numCalls =
      numCalls * numRounds n := fun _ _ => rfl
  have hflight : inFlight (channels n) (system n numCalls).init.net = 0 := inFlight_empty _
  rw [State.mail, hflight, Finset.sum_const_nat hproc, Finset.card_range]
  ring

/-- Every run of the program comes to the same end at the same cost, whatever the order of its steps:
it cannot go on exactly when all ranks have returned from all their calls, which is after `2 * numRounds + 2`
steps and `numRounds` messages for every rank and call, neither more nor fewer; and every run can be
continued to there. -/
theorem dissemination_runs {as : List Action} (h : exec (system n numCalls) as (system n numCalls).init = some t) :
    as.length ≤ numCalls * n * (3 * numRounds n + 2) ∧
    (Stuck (system n numCalls) t ↔ ∀ p < n, t.procs p = ⟨numCalls, .outside⟩) ∧
    (Stuck (system n numCalls) t ↔ as.length = numCalls * n * (3 * numRounds n + 2)) ∧
    (Stuck (system n numCalls) t → as.countP Action.delivers = numCalls * n * numRounds n) ∧
    ∃ bs u, exec (system n numCalls) (as ++ bs) (system n numCalls).init = some u ∧
      ∀ p < n, u.procs p = ⟨numCalls, .outside⟩ := by
  obtain ⟨hle, hlength, hdelivers, bs, u, hbs, hu⟩ := (countdown n numCalls).run h
  have htotal : (system n numCalls).init.work n numCalls + (system n numCalls).init.mail n numCalls =
      numCalls * n * (3 * numRounds n + 2) := by
    rw [work_init, mail_init]
    ring
  rw [htotal] at hle hlength
  rw [mail_init] at hdelivers
  exact ⟨hle, stuck_iff_returned (reach_exec as .init h), hlength, hdelivers, bs, u, hbs,
    (stuck_iff_returned (reach_exec _ .init hbs)).mp hu⟩

theorem dissemination_runs_three_ranks : ∃ t, exec (system 3 1) threeRanks (system 3 1).init = some t ∧
    threeRanks.length = 24 ∧ threeRanks.countP Action.delivers = 6 ∧ Stuck (system 3 1) t := by
  have hrun : (exec (system 3 1) threeRanks (system 3 1).init).isSome := by decide
  obtain ⟨t, ht⟩ := Option.isSome_iff_exists.mp hrun
  have hrounds : numRounds 3 = 2 := by decide
  obtain ⟨-, -, hlength, -, -⟩ := dissemination_runs ht
  exact ⟨t, ht, rfl, rfl, hlength.mpr (by rw [hrounds]; rfl)⟩

end AdvancedOS.Gtmpi1
