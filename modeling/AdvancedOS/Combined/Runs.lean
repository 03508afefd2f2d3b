import AdvancedOS.Mpi.Gtmpi1Runs
import AdvancedOS.Combined.Barrier

/-!
# What a run of the combined barrier costs

In a call every thread starts, decrements `count` and returns; the thread that finds itself last also
makes the message rounds and resets `count`. Who that is differs from run to run, so what is left of
the rounds is read off the process as `gtmpi1` sees it (`Process.exchange`), and what is left of the
rest off its threads. The messages are those of `gtmpi1` between the processes, however many threads
they have: `combined_runs`.
-/

namespace AdvancedOS.Combined

open Lts Fifo Fifo.Network Dissemination Finset

variable {n t numCalls rank tid calls e e' : Nat} {s u : State} {p p' : Process} {th : Thread} {pc : Pc}
  {net net' : Network Envelope Stamp}

/-! ## What is left -/

/-- The step is the delivery of a message. -/
def Action.delivers : Action → Bool
  | .thread _ _ => false
  | .deliver _ => true

/-- The steps of its call that a thread still has to make, without those of a leader. -/
def Pc.work : Pc → Nat
  | .outside => 0
  | .arrive _ => 2
  | .loop _ _ | .recv _ _ | .flip _ | .spin _ => 1

def Thread.work (numCalls : Nat) (th : Thread) : Nat := (numCalls - th.entered) * 3 + th.pc.work

/-- The steps in the rounds and the reset of `count` that the leaders of a process still have to make. -/
def roundsWork (n numCalls : Nat) (x : Gtmpi1.Proc) : Nat :=
  (numCalls - x.entered) * (2 * numRounds n + 1) + x.pc.work (numRounds n)

def Process.work (n t numCalls : Nat) (p : Process) : Nat :=
  ∑ tid ∈ range t, (p.threads tid).work numCalls + roundsWork n numCalls p.exchange

/-- The steps that the threads still have to make. -/
def State.work (n t numCalls : Nat) (s : State) : Nat :=
  ∑ rank ∈ range n, (s.procs rank).work n t numCalls

/-- The messages that have not arrived are those of `gtmpi1`. -/
def State.mail (n numCalls : Nat) (s : State) : Nat := s.exchange.mail n numCalls

/-! ## The rounds of a step -/

/-- While a thread leads, its process is in `gtmpi1` where that thread is. -/
theorem exchange_of_leads (h : ProcessInv t numCalls e p) (htid : tid < t) (hth : p.threads tid = ⟨calls, pc⟩)
    (hleads : pc.leads) : p.exchange = pc.exchange calls := by
  have hl := leading_of_thread h htid (by rw [hth]; exact hleads)
  have hcalls := hl.calls_eq h htid
  rw [hth] at hcalls
  rw [exchange_leading hl, hth, ← hcalls]

theorem exchange_of_not_inRounds (hpc : ¬ pc.inRounds) (done : Nat) : pc.exchange done = ⟨done + 1, .outside⟩ := by
  cases pc with
  | loop b round | recv b round => exact absurd trivial hpc
  | outside | arrive b | flip b | spin b => rfl

/-- A thread outside the rounds does nothing to them. -/
theorem exchange_put_of_not_inRounds (hpc : ¬ (p.threads tid).pc.inRounds) (hth : ¬ th.pc.inRounds) :
    (p.put tid th).exchange = p.exchange := by
  unfold Process.exchange
  rw [Process.put_leaders]
  cases p.leaders with
  | nil => rfl
  | cons x rest =>
    obtain ⟨i, call⟩ := x
    by_cases hi : i = tid
    · subst hi
      simp only [Process.put_self, exchange_of_not_inRounds hpc, exchange_of_not_inRounds hth]
    · simp only [Process.put_of_ne p th hi]

/-! ## Every step is a piece of it -/

/-- A step outside the rounds is one of the three of its thread, a step in them one of the leader's. -/
theorem ThreadMove.piece (h : ProcessInv t numCalls e p) (h' : ProcessInv t numCalls e' p')
    (hround : p.exchange.RoundOk n) (htid : tid < t) (hmove : ThreadMove n t numCalls rank tid p net p' net') :
    (p'.threads tid).work numCalls + roundsWork n numCalls p'.exchange + 1 =
      (p.threads tid).work numCalls + roundsWork n numCalls p.exchange := by
  cases hmove with
  | @enter calls hth hlt =>
    have hsame : (p.put tid ⟨calls, .arrive (!p.sense)⟩).exchange = p.exchange :=
      exchange_put_of_not_inRounds (by simp [hth, Pc.inRounds]) (by simp [Pc.inRounds])
    rw [hsame, hth, Process.put_self]
    simp only [Thread.work, Thread.entered, Pc.work, sub_mul_eq hlt 3]
    omega
  | @last calls b hth hone =>
    have hok := h.ok tid htid
    rw [hth] at hok
    obtain ⟨rfl, hlt, -⟩ := hok
    have hg := gathering_of_thread h htid (by simp [hth, Thread.waits]) (by simp [hth, Pc.leads])
    rw [exchange_gathering h hg, exchange_of_leads h' htid (Process.put_self _ _ _) trivial, hth, Process.put_self]
    simp only [Thread.work, Thread.entered, Pc.work, roundsWork, Pc.exchange, Gtmpi1.Proc.entered, Gtmpi1.Pc.work,
      sub_mul_eq hlt (2 * numRounds n + 1)]
    omega
  | @wait calls b hth hne =>
    have hsame : ({ p with count := p.count - 1 }.put tid ⟨calls, .spin b⟩).exchange = p.exchange :=
      exchange_put_of_not_inRounds (p := { p with count := p.count - 1 }) (by simp [hth, Pc.inRounds]) (by simp [Pc.inRounds])
    rw [hsame, hth, Process.put_self]
    simp only [Thread.work, Thread.entered, Pc.work]
    omega
  | @send calls round b hth hlt =>
    rw [exchange_of_leads h htid hth trivial, exchange_of_leads h' htid (Process.put_self _ _ _) trivial, hth,
      Process.put_self]
    simp only [Thread.work, Thread.entered, Pc.work, roundsWork, Pc.exchange, Gtmpi1.Proc.entered, Gtmpi1.Pc.work]
    omega
  | @reset calls round b hth hge =>
    rw [exchange_of_leads h htid hth trivial, exchange_of_leads h' htid (Process.put_self _ _ _) trivial, hth,
      Process.put_self]
    simp only [Thread.work, Thread.entered, Pc.work, roundsWork, Pc.exchange, Gtmpi1.Proc.entered, Gtmpi1.Pc.work]
    omega
  | @recv calls round b m net' hth hrecv =>
    rw [exchange_of_leads h htid hth trivial] at hround
    have hlt : round < numRounds n := hround
    rw [exchange_of_leads h htid hth trivial, exchange_of_leads h' htid (Process.put_self _ _ _) trivial, hth,
      Process.put_self]
    simp only [Thread.work, Thread.entered, Pc.work, roundsWork, Pc.exchange, Gtmpi1.Proc.entered, Gtmpi1.Pc.work]
    omega
  | @flip calls b hth =>
    have hsame : ({ p with sense := b }.put tid ⟨calls + 1, .outside⟩).exchange = p.exchange :=
      exchange_put_of_not_inRounds (p := { p with sense := b }) (by simp [hth, Pc.inRounds]) (by simp [Pc.inRounds])
    rw [hsame, hth, Process.put_self]
    simp only [Thread.work, Thread.entered, Pc.work]
    omega
  | @exit calls hth =>
    have hsame : (p.put tid ⟨calls + 1, .outside⟩).exchange = p.exchange :=
      exchange_put_of_not_inRounds (by simp [hth, Pc.inRounds]) (by simp [Pc.inRounds])
    rw [hsame, hth, Process.put_self]
    simp only [Thread.work, Thread.entered, Pc.work]
    omega

theorem ThreadMove.work (h : ProcessInv t numCalls e p) (h' : ProcessInv t numCalls e' p')
    (hround : p.exchange.RoundOk n) (htid : tid < t) (hmove : ThreadMove n t numCalls rank tid p net p' net') :
    p'.work n t numCalls + 1 = p.work n t numCalls := by
  have hpiece := hmove.piece h h' hround htid
  have hchange := Potential.sum_change (Finset.mem_range.mpr htid) (f := fun i => (p.threads i).work numCalls)
    (g := fun i => (p'.threads i).work numCalls) fun i hi => by simp only [hmove.counts.1 i hi]
  unfold Process.work
  omega

/-- What the program does when it lets a thread take a step. -/
theorem move_of_thread (h : (system n t numCalls).next (.thread rank tid) s = some u) :
    ∃ p net, rank < n ∧ tid < t ∧ ThreadMove n t numCalls rank tid (s.procs rank) s.net p net ∧ u = s.put rank p net := by
  simp only [system] at h
  split at h
  · next hlt =>
    obtain ⟨⟨p, net⟩, hmove, rfl⟩ := Option.map_eq_some_iff.mp h
    exact ⟨p, net, hlt.1, hlt.2, threadMove_of_combinedBarrier hmove, rfl⟩
  · cases h

theorem work_of_thread (ht : 0 < t) (hr : Reach (system n t numCalls) s)
    (hs : (system n t numCalls).next (.thread rank tid) s = some u) : u.work n t numCalls + 1 = s.work n t numCalls := by
  have hinv' := processInv_reach ht (.step hr trivial hs)
  obtain ⟨p, net, hrank, htid, hmove, rfl⟩ := move_of_thread hs
  obtain ⟨e, he⟩ := processInv_reach ht hr rank hrank
  obtain ⟨e', he'⟩ := hinv' rank hrank
  rw [put_self] at he'
  have hstep := hmove.work he he' ((exchange_inv ht hr).roundOk rank hrank) htid
  have hchange := Potential.sum_change (Finset.mem_range.mpr hrank) (f := fun q => (s.procs q).work n t numCalls)
    (g := fun q => ((s.put rank p net).procs q).work n t numCalls) fun q hq => by simp only [put_of_ne s p net hq]
  rw [put_self] at hchange
  unfold State.work
  omega

/-- The messages change as in `gtmpi1`. -/
theorem mail_of_thread (ht : 0 < t) (hr : Reach (system n t numCalls) s)
    (hs : (system n t numCalls).next (.thread rank tid) s = some u) : u.mail n numCalls = s.mail n numCalls := by
  obtain ⟨p, net, hrank, htid, hmove, rfl⟩ := move_of_thread hs
  obtain ⟨e, he⟩ := processInv_reach ht hr rank hrank
  unfold State.mail
  rw [exchange_put]
  rcases (processInv_move he htid hmove).2 with ⟨rfl, hsame⟩ | hproc
  · rw [hsame]
    exact congrArg (Gtmpi1.State.mail n numCalls) (congrArg (Gtmpi1.State.mk · s.net) (Function.update_eq_self rank _))
  · exact Gtmpi1.mail_put hrank hproc

/-! ## The end of a run -/

/-- Nobody enters more calls than the program makes. -/
theorem entered_le_numCalls (h : Reach (system n t numCalls) s) (q i : Nat) :
    ((s.procs q).threads i).entered ≤ numCalls := by
  refine h.invariant (I := fun s => ∀ q i, ((s.procs q).threads i).entered ≤ numCalls) (fun _ _ => Nat.zero_le _)
    (fun {s u a} _ hi _ hs => ?_) q i
  rcases next_cases hs with ⟨rank, -, tid, -, p, net, hmove, rfl⟩ | ⟨e, net, hdel, rfl⟩
  · intro q i
    by_cases hq : q = rank
    · subst hq
      rw [put_self]
      by_cases htid : i = tid
      · subst htid
        have hle := hi q i
        cases hmove with
        | enter hth hlt =>
          rw [Process.put_self]
          exact hlt
        | last hth _ | wait hth _ | send hth _ | reset hth _ | recv hth _ | flip hth | exit hth =>
          rw [hth] at hle
          rw [Process.put_self]
          exact hle
      · rw [hmove.counts.1 i htid]
        exact hi q i
    · rw [put_of_ne s p net hq]
      exact hi q i
  · exact hi

/-- When all threads of a process have returned from all their calls, its rounds are over too. -/
theorem exchange_of_returned (ht : 0 < t) (h : ProcessInv t numCalls e p)
    (hout : ∀ i < t, p.threads i = ⟨numCalls, .outside⟩) : p.exchange = ⟨numCalls, .outside⟩ := by
  have hok := h.ok 0 ht
  rw [hout 0 ht] at hok
  obtain rfl : numCalls = e := hok
  exact exchange_gathering h (gathering_of_thread h ht (by simp [hout 0 ht, Thread.waits]) (by simp [hout 0 ht, Pc.leads]))

/-- The program ends when all threads have returned from all their calls, and only then. -/
theorem stuck_iff_returned (ht : 0 < t) (h : Reach (system n t numCalls) s) :
    Stuck (system n t numCalls) s ↔ ∀ p < n, ∀ i < t, (s.procs p).threads i = ⟨numCalls, .outside⟩ := by
  refine ⟨fun hstuck p hp i hi => ?_, fun hout a => ?_⟩
  · have hcalls : numCalls ≤ ((s.procs p).threads i).calls := by
      by_contra hlt
      exact progress ht h hp hi (Nat.not_le.mp hlt) hstuck
    have hle := entered_le_numCalls h p i
    generalize (s.procs p).threads i = th at hcalls hle ⊢
    obtain ⟨calls, pc⟩ := th
    cases pc with
    | outside => exact congrArg (Thread.mk · .outside) (Nat.le_antisymm hle hcalls)
    | _ => exact absurd hle (Nat.not_le.mpr (Nat.lt_succ_of_le hcalls))
  · cases a with
    | thread rank tid =>
      by_cases hlt : rank < n ∧ tid < t
      · simp [system, hlt, combinedBarrier, hout rank hlt.1 tid hlt.2]
      · simp [system, hlt]
    | deliver e =>
      have hexchange : ∀ p < n, s.exchange.procs p = ⟨numCalls, .outside⟩ := fun p hp => by
        obtain ⟨e, he⟩ := processInv_reach ht h p hp
        exact exchange_of_returned ht he (hout p hp)
      have hnone : s.net.deliver e = none := by
        cases hdel : s.net.deliver e with
        | none => rfl
        | some net =>
          exact absurd (Gtmpi1.queue_eq_nil_of_outside (exchange_inv ht h) hexchange e) (queue_ne_nil_of_deliver hdel)
      simp [system, hnone]

/-- When all threads have returned from all their calls, nothing is left. -/
theorem left_of_returned (ht : 0 < t) (h : Reach (system n t numCalls) s) (hdel : ∀ e, s.net.deliver e = none)
    (hout : ∀ p < n, ∀ i < t, (s.procs p).threads i = ⟨numCalls, .outside⟩) :
    s.work n t numCalls = 0 ∧ s.mail n numCalls = 0 := by
  have hexchange : ∀ p < n, (s.procs p).exchange = ⟨numCalls, .outside⟩ := fun p hp => by
    obtain ⟨e, he⟩ := processInv_reach ht h p hp
    exact exchange_of_returned ht he (hout p hp)
  refine ⟨Finset.sum_eq_zero fun p hp => ?_, (Gtmpi1.left_of_returned hdel hexchange).2⟩
  have hp : p < n := Finset.mem_range.mp hp
  have hthreads : ∑ i ∈ range t, ((s.procs p).threads i).work numCalls = 0 := Finset.sum_eq_zero fun i hi => by
    simp [hout p hp i (Finset.mem_range.mp hi), Thread.work, Thread.entered, Pc.work]
  rw [Process.work, hthreads, hexchange p hp]
  simp [roundsWork, Gtmpi1.Proc.entered, Gtmpi1.Pc.work]

theorem countdown (n numCalls : Nat) (ht : 0 < t) :
    Countdown (system n t numCalls) Action.delivers (State.work n t numCalls) (State.mail n numCalls) where
  work_step {s u a} hr hs := by
    cases a with
    | thread rank tid => exact work_of_thread ht hr hs
    | deliver e =>
      obtain ⟨net, -, rfl⟩ := Option.map_eq_some_iff.mp hs
      rfl
  mail_step {s u a} hr hs := by
    cases a with
    | thread rank tid => exact mail_of_thread ht hr hs
    | deliver e =>
      -- a delivery is one of `gtmpi1`
      obtain ⟨net, hdel, rfl⟩ := Option.map_eq_some_iff.mp hs
      exact (Gtmpi1.countdown n numCalls).mail_step (a := .deliver e) ((refinement_gtmpi1 n numCalls ht).reach hr)
        (by simp [Gtmpi1.system, State.exchange, hdel])
  stuck {s} hr hstuck := by
    refine left_of_returned ht hr (fun e => ?_) ((stuck_iff_returned ht hr).mp hstuck)
    simpa [system] using hstuck (.deliver e)

theorem work_init (n t numCalls : Nat) :
    (system n t numCalls).init.work n t numCalls = numCalls * n * (3 * t + 2 * numRounds n + 1) := by
  have hproc : ∀ rank ∈ range n, ((system n t numCalls).init.procs rank).work n t numCalls =
      t * (numCalls * 3) + numCalls * (2 * numRounds n + 1) := by
    intro rank _
    have hthread : ∀ tid ∈ range t, (((system n t numCalls).init.procs rank).threads tid).work numCalls = numCalls * 3 :=
      fun _ _ => rfl
    rw [Process.work, Finset.sum_const_nat hthread, Finset.card_range]
    rfl
  rw [State.work, Finset.sum_const_nat hproc, Finset.card_range]
  ring

theorem mail_init (n t numCalls : Nat) :
    (system n t numCalls).init.mail n numCalls = numCalls * n * numRounds n := Gtmpi1.mail_init n numCalls

/-- Every run of the program comes to the same end at the same cost, whatever the order of its steps
and whichever threads lead: it cannot go on exactly when all threads have returned from all their calls.
In a call every thread makes three steps, the leader of a process `2 * numRounds + 1` more, and
every process receives `numRounds` messages, however many threads it has; and every run can be continued
to the end. -/
theorem combined_runs (ht : 0 < t) {as : List Action}
    (h : exec (system n t numCalls) as (system n t numCalls).init = some u) :
    as.length ≤ numCalls * n * (3 * t + 3 * numRounds n + 1) ∧
    (Stuck (system n t numCalls) u ↔ ∀ p < n, ∀ i < t, (u.procs p).threads i = ⟨numCalls, .outside⟩) ∧
    (Stuck (system n t numCalls) u ↔ as.length = numCalls * n * (3 * t + 3 * numRounds n + 1)) ∧
    (Stuck (system n t numCalls) u → as.countP Action.delivers = numCalls * n * numRounds n) ∧
    ∃ bs v, exec (system n t numCalls) (as ++ bs) (system n t numCalls).init = some v ∧
      ∀ p < n, ∀ i < t, (v.procs p).threads i = ⟨numCalls, .outside⟩ := by
  obtain ⟨hle, hlength, hdelivers, bs, v, hbs, hv⟩ := (countdown n numCalls ht).run h
  have htotal : (system n t numCalls).init.work n t numCalls + (system n t numCalls).init.mail n numCalls =
      numCalls * n * (3 * t + 3 * numRounds n + 1) := by
    rw [work_init, mail_init]
    ring
  rw [htotal] at hle hlength
  rw [mail_init] at hdelivers
  exact ⟨hle, stuck_iff_returned ht (reach_exec as .init h), hlength, hdelivers, bs, v, hbs,
    (stuck_iff_returned ht (reach_exec _ .init hbs)).mp hv⟩

theorem combined_runs_two_by_two : ∃ u, exec (system 2 2 1) twoByTwo (system 2 2 1).init = some u ∧
    twoByTwo.length = 20 ∧ twoByTwo.countP Action.delivers = 2 ∧ Stuck (system 2 2 1) u := by
  have hrun : (exec (system 2 2 1) twoByTwo (system 2 2 1).init).isSome := by decide
  obtain ⟨u, hu⟩ := Option.isSome_iff_exists.mp hrun
  have hrounds : numRounds 2 = 1 := by decide
  obtain ⟨-, -, hlength, -, -⟩ := combined_runs (by decide) hu
  exact ⟨u, hu, rfl, rfl, hlength.mpr (by rw [hrounds]; rfl)⟩

end AdvancedOS.Combined
