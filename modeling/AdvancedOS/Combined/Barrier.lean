import AdvancedOS.Combined.Episode

/-!
# The combined barrier is a barrier

Every process keeps the invariant of its own counter (`processInv_reach`), so the message
rounds of its leaders, taken one after the other, are the calls of one rank of `gtmpi1`
(`refinement_gtmpi1`). What `gtmpi1` says of ranks then holds of processes: a process whose
exchange of a call is over knows that the exchange of every other process has begun, and
it begins only when all threads of that process have arrived. This gives the refinement of
the abstract barrier between all threads of all processes (`refinement`) and, with the
least advanced rank of `gtmpi1`, progress.
-/

namespace AdvancedOS.Combined

open Lts Fifo Fifo.Network Dissemination

variable {n t numCalls rank tid e : Nat} {s : State} {p p' : Process} {net net' : Network Envelope Stamp}

/-! ## Down to `gtmpi1` -/

theorem processInv_reach (ht : 0 < t) (h : Reach (system n t numCalls) s) :
    ∀ rank < n, ∃ e, ProcessInv t numCalls e (s.procs rank) := by
  refine h.invariant (I := fun s => ∀ rank < n, ∃ e, ProcessInv t numCalls e (s.procs rank))
    (fun _ _ => ⟨0, processInv_init ht⟩) fun _ hinv _ hs => ?_
  rcases next_cases hs with ⟨rank, hrank, tid, htid, p, net, hmove, rfl⟩ | ⟨e, net, _, rfl⟩
  · intro q hq
    by_cases hne : q = rank
    · subst hne
      obtain ⟨e, he⟩ := hinv q hq
      obtain ⟨⟨e', he', -⟩, -⟩ := processInv_move he htid hmove
      rw [put_self]
      exact ⟨e', he'⟩
    · rw [put_of_ne _ p net hne]
      exact hinv q hq
  · exact hinv

/-- The message rounds of all processes are a run of `gtmpi1`. -/
def refinement_gtmpi1 (n numCalls : Nat) (ht : 0 < t) :
    Refinement (system n t numCalls) (fun _ _ => True) (Gtmpi1.system n numCalls) (fun _ _ => True) where
  abs := State.exchange
  init := rfl
  step := by
    intro s u a hr _ hs
    rcases next_cases hs with ⟨rank, hrank, tid, htid, p, net, hmove, rfl⟩ | ⟨e, net, hdel, rfl⟩
    · obtain ⟨e, he⟩ := processInv_reach ht hr rank hrank
      rw [exchange_put]
      rcases (processInv_move he htid hmove).2 with ⟨rfl, hsame⟩ | hproc
      · left
        rw [hsame]
        exact congrArg (Gtmpi1.State.mk · s.net) (Function.update_eq_self rank _)
      · exact .inr ⟨.proc rank, trivial, Gtmpi1.next_of_move hrank hproc⟩
    · exact .inr ⟨.deliver e, trivial, by simp [Gtmpi1.system, State.exchange, hdel]⟩

theorem exchange_inv (ht : 0 < t) (h : Reach (system n t numCalls) s) : Gtmpi1.Inv n s.exchange :=
  Gtmpi1.inv_reach ((refinement_gtmpi1 n numCalls ht).reach h)

/-! ## Up to the abstract barrier -/

/-- The exchange of a call begins when all threads have entered the call. -/
theorem exchange_entered_le (h : ProcessInv t numCalls e p) (htid : tid < t) :
    p.exchange.entered ≤ (p.threads tid).entered := by
  have hok := h.ok tid htid
  rcases h.phase with hg | ⟨leader, hl⟩
  · rw [exchange_gathering h hg]
    unfold Thread.Ok at hok
    unfold Thread.entered Gtmpi1.Proc.entered
    split at hok <;> simp only [*] <;> omega
  · have hentered : (p.threads tid).entered = e + 1 := by
      by_cases hne : tid = leader
      · subst hne
        have hleads := hl.leads
        unfold Thread.Ok at hok
        unfold Thread.entered
        split at hok <;> simp only [*, Pc.leads] at hleads ⊢
      · obtain ⟨hcalls, b, hb⟩ := hl.others tid htid hne
        simp [Thread.entered, hb, hcalls]
    rw [hentered, exchange_leading hl]
    unfold Pc.exchange
    split <;> simp [Gtmpi1.Proc.entered]

/-- What a step does to the calls of its own thread, and that it leaves the other threads. -/
theorem ThreadMove.counts (h : ThreadMove n t numCalls rank tid p net p' net') :
    (∀ i, i ≠ tid → p'.threads i = p.threads i) ∧
    (((p.threads tid).entered = (p.threads tid).calls ∧
        (p'.threads tid).entered = (p.threads tid).entered + 1 ∧
        (p'.threads tid).calls = (p.threads tid).calls) ∨
      ((p'.threads tid).entered = (p.threads tid).entered ∧
        (p'.threads tid).calls = (p.threads tid).calls) ∨
      (((∃ b, (p.threads tid).pc = .flip b) ∨ (p.threads tid).pc = .spin p.sense) ∧
        (p'.threads tid).entered = (p.threads tid).entered ∧
        (p'.threads tid).calls = (p.threads tid).calls + 1)) := by
  cases h with
  | enter hpc _ => exact ⟨fun i hi => Process.put_of_ne _ _ hi, .inl (by simp [hpc, Thread.entered])⟩
  | flip hpc =>
    exact ⟨fun i hi => Process.put_of_ne _ _ hi, .inr (.inr ⟨.inl ⟨_, by rw [hpc]⟩, by simp [hpc, Thread.entered]⟩)⟩
  | exit hpc =>
    exact ⟨fun i hi => Process.put_of_ne _ _ hi, .inr (.inr ⟨.inr (by rw [hpc]), by simp [hpc, Thread.entered]⟩)⟩
  | last hpc _ | wait hpc _ | send hpc _ | reset hpc _ | recv hpc _ =>
    exact ⟨fun i hi => Process.put_of_ne _ _ hi, .inr (.inl (by simp [hpc, Thread.entered]))⟩

/-- A thread returns from a call whose exchange is over. -/
theorem calls_lt_exchange (h : ProcessInv t numCalls e p) (htid : tid < t)
    (hpc : (∃ b, (p.threads tid).pc = .flip b) ∨ (p.threads tid).pc = .spin p.sense) :
    (p.threads tid).calls < p.exchange.calls := by
  have hok := h.ok tid htid
  rcases hpc with ⟨b, hpc⟩ | hpc
  · have hl := leading_of_thread h htid (by simp [hpc, Pc.leads])
    simp only [Thread.Ok, hpc] at hok
    rw [exchange_leading hl, hpc]
    exact Nat.lt_succ_of_le (Nat.le_of_eq hok.1)
  · simp only [Thread.Ok, hpc] at hok
    have hcalls : (p.threads tid).calls + 1 = e := by
      rcases hok with ⟨-, hb⟩ | ⟨hcalls, -⟩
      · simp at hb
      · exact hcalls
    have hg := gathering_of_thread h htid (fun hwaits => by have := hwaits.1; omega) (by simp [hpc, Pc.leads])
    rw [exchange_gathering h hg]
    exact Nat.lt_of_succ_le (Nat.le_of_eq hcalls)

/-- The program refines the abstract barrier between all threads of all processes. -/
def refinement (n numCalls : Nat) (ht : 0 < t) :
    Refinement (system n t numCalls) (fun _ _ => True) (Barrier.system (Fin n × Fin t)) (fun _ _ => True) where
  abs s := ⟨fun i => ((s.procs i.1).threads i.2).entered, fun i => ((s.procs i.1).threads i.2).calls⟩
  init := rfl
  step := by
    intro s u a hr _ hs
    have hinv := processInv_reach ht hr
    rcases next_cases hs with ⟨rank, hrank, tid, htid, p, net, hmove, rfl⟩ | ⟨e, net, hdel, rfl⟩
    · obtain ⟨e, he⟩ := hinv rank hrank
      obtain ⟨hframe, hcounts⟩ := hmove.counts
      refine (Barrier.step_of_local (⟨rank, hrank⟩, ⟨tid, htid⟩) (fun j hj => ?_) ?_).imp_right fun ⟨b, hb⟩ => ⟨b, trivial, hb⟩
      · by_cases hq : (j.1 : Nat) = rank
        · have hi : (j.2 : Nat) ≠ tid := fun hi => hj (Prod.ext (Fin.ext hq) (Fin.ext hi))
          simp only [hq, put_self, hframe _ hi, and_self]
        · simp only [put_of_ne s p net hq, and_self]
      · rcases hcounts with ⟨hout, hentered, hcalls⟩ | ⟨hentered, hcalls⟩ | ⟨hpc, hentered, hcalls⟩
        · exact .enter hout (by simpa using hentered) (by simpa using hcalls)
        · exact .silent (by simpa using hentered) (by simpa using hcalls)
        · refine .leave (fun j => ?_) (by simpa using hentered) (by simpa using hcalls)
          obtain ⟨e', he'⟩ := hinv j.1 j.1.isLt
          calc ((s.procs rank).threads tid).calls < (s.procs rank).exchange.calls :=
                calls_lt_exchange he htid hpc
            _ ≤ (s.procs j.1).exchange.entered := (exchange_inv ht hr).all rank hrank j.1 j.1.isLt
            _ ≤ ((s.procs j.1).threads j.2).entered := exchange_entered_le he' j.2.isLt
    · exact .inl rfl

/-! ## Progress -/

/-- A thread whose next step is enabled keeps the system going. -/
theorem not_stuck_of_thread (hrank : rank < n) (htid : tid < t)
    (h : (combinedBarrier (combinedInit n t) numCalls rank tid (s.procs rank) s.net).isSome) :
    ¬ Stuck (system n t numCalls) s :=
  not_stuck (.thread rank tid) (by simpa [system, hrank, htid] using h)

/-- A thread that has been released and has not noticed yet can return. -/
theorem not_stuck_of_released (hrank : rank < n) (htid : tid < t)
    (hpc : ((s.procs rank).threads tid).pc = .spin (s.procs rank).sense) :
    ¬ Stuck (system n t numCalls) s := by
  refine not_stuck_of_thread hrank htid ?_
  generalize hth : (s.procs rank).threads tid = th at hpc
  obtain ⟨calls, pc⟩ := th
  cases hpc
  simp [combinedBarrier, hth]

/-- While a process gathers in a call that is to be made, a thread that does not wait moves. -/
theorem not_stuck_of_gathering (hrank : rank < n) (h : ProcessInv t numCalls e (s.procs rank))
    (hg : Gathering t e (s.procs rank)) (hcalls : e < numCalls) : ¬ Stuck (system n t numCalls) s := by
  obtain ⟨i, hi, hwaits⟩ := exists_not_waits hg
  have hok := h.ok i hi
  have hfree := hg.free i hi
  generalize hth : (s.procs rank).threads i = th at hok hwaits hfree
  obtain ⟨calls, pc⟩ := th
  cases pc with
  | outside =>
    obtain rfl : calls = e := hok
    exact not_stuck_of_thread hrank hi (by simp [combinedBarrier, hth, hcalls])
  | arrive b =>
    by_cases hone : (s.procs rank).count = 1
    · exact not_stuck_of_thread hrank hi (by simp [combinedBarrier, hth, hone])
    · exact not_stuck_of_thread hrank hi (by simp [combinedBarrier, hth, hone])
  | spin b =>
    rcases hok with ⟨heq, -⟩ | ⟨-, rfl⟩
    · exact absurd ⟨heq, b, rfl⟩ hwaits
    · exact not_stuck_of_released hrank hi (by rw [hth])
  | loop b round | recv b round | flip b => exact absurd trivial hfree

/-- A process whose rank in `gtmpi1` has calls to make and is not blocked has a thread that
moves, or a message to be delivered. -/
theorem not_stuck_of_exchange (hrank : rank < n) (h : ProcessInv t numCalls e (s.procs rank))
    (hcalls : (s.exchange.procs rank).calls < numCalls) (hfree : ¬ Gtmpi1.Blocked n s.exchange rank) :
    ¬ Stuck (system n t numCalls) s := by
  have hproc : s.exchange.procs rank = (s.procs rank).exchange := rfl
  rcases h.phase with hg | ⟨leader, hl⟩
  · rw [hproc, exchange_gathering h hg] at hcalls
    exact not_stuck_of_gathering hrank h hg hcalls
  · have hleads := hl.leads
    rw [Gtmpi1.Blocked, hproc, exchange_leading hl] at hfree
    generalize hth : (s.procs rank).threads leader = th at hleads hfree
    obtain ⟨calls, pc⟩ := th
    cases pc with
    | loop b round =>
      by_cases hround : round < numRounds n
      · exact not_stuck_of_thread hrank hl.lt (by simp [combinedBarrier, combinedInit, hth, hround])
      · exact not_stuck_of_thread hrank hl.lt (by simp [combinedBarrier, combinedInit, hth, hround])
    | recv b round =>
      have hne : s.net.queue (recvEnvelope n rank round) ≠ [] := fun he => hfree ⟨round, rfl, he⟩
      rcases recv_or_deliver hne with ⟨m, net, hrecv⟩ | ⟨net, hdel⟩
      · exact not_stuck_of_thread hrank hl.lt (by simp [combinedBarrier, combinedInit, hth, hrecv])
      · exact not_stuck (.deliver (recvEnvelope n rank round)) (by simp [system, hdel])
    | flip b => exact not_stuck_of_thread hrank hl.lt (by simp [combinedBarrier, hth])
    | outside | arrive b | spin b => exact hleads.elim

/-- A thread behind the exchange of its process has been released, or its leader is about to
release it. -/
theorem not_stuck_of_behind (hrank : rank < n) (htid : tid < t)
    (h : ProcessInv t numCalls e (s.procs rank))
    (hbehind : ((s.procs rank).threads tid).calls < (s.procs rank).exchange.calls) :
    ¬ Stuck (system n t numCalls) s := by
  rcases h.phase with hg | ⟨leader, hl⟩
  · rw [exchange_gathering h hg] at hbehind
    rcases (h.ok tid htid).calls_cases with heq | ⟨-, hpc⟩
    · exact absurd hbehind (Nat.not_lt.mpr (Nat.le_of_eq heq.symm))
    · exact not_stuck_of_released hrank htid hpc
  · have hcalls := hl.calls_eq h htid
    -- the exchange is ahead of a waiting thread only between the rounds and `sense = my_sense`
    rw [exchange_leading hl, hcalls] at hbehind
    have hleads := hl.leads
    generalize hth : (s.procs rank).threads leader = th at hleads hbehind
    obtain ⟨calls, pc⟩ := th
    cases pc with
    | flip b => exact not_stuck_of_thread hrank hl.lt (by simp [combinedBarrier, hth])
    | loop b round | recv b round => exact absurd hbehind (Nat.lt_irrefl _)
    | outside | arrive b | spin b => exact hleads.elim

theorem progress (ht : 0 < t) (h : Reach (system n t numCalls) s) (hrank : rank < n) (htid : tid < t)
    (hcalls : ((s.procs rank).threads tid).calls < numCalls) : ¬ Stuck (system n t numCalls) s := by
  have hinv := processInv_reach ht h
  obtain ⟨e, he⟩ := hinv rank hrank
  by_cases hbehind : ((s.procs rank).threads tid).calls < (s.procs rank).exchange.calls
  · exact not_stuck_of_behind hrank htid he hbehind
  · have hexchange : (s.exchange.procs rank).calls < numCalls :=
      Nat.lt_of_le_of_lt (Nat.not_lt.mp hbehind) hcalls
    obtain ⟨q, hq, hqcalls, hfree⟩ := Gtmpi1.exists_unblocked (exchange_inv ht h) hrank hexchange
    obtain ⟨e', he'⟩ := hinv q hq
    exact not_stuck_of_exchange hq he' hqcalls hfree

/-! ## The barrier -/

/-- Every call number up to the number of exchanges begun has one entry in the history. -/
theorem exists_leader (h : ProcessInv t numCalls e p) {k : Nat} (hk : 1 ≤ k) (hle : k ≤ p.leaders.length) :
    ∃! tid, (tid, k) ∈ p.leaders := by
  have hmem : k ∈ p.leaders.map Prod.snd := by
    rw [h.leadersCalls, List.mem_reverse, List.mem_range'_1]
    omega
  obtain ⟨x, hx, rfl⟩ := List.mem_map.mp hmem
  refine ⟨x.1, hx, fun i hi => ?_⟩
  have hnodup : (p.leaders.map Prod.snd).Nodup := by
    rw [h.leadersCalls, List.nodup_reverse]
    exact List.nodup_range'
  exact congrArg Prod.fst (List.inj_on_of_nodup_map hnodup hi hx rfl)

/-- No thread has returned from a call that nobody has led. -/
theorem calls_le_leaders (h : ProcessInv t numCalls e p) (htid : tid < t) :
    (p.threads tid).calls ≤ p.leaders.length := by
  have hle : (p.threads tid).calls ≤ e := by
    rcases (h.ok tid htid).calls_cases with heq | ⟨hlt, -⟩ <;> omega
  rcases h.phase with hg | ⟨leader, hl⟩
  · rwa [hg.leaders]
  · obtain ⟨rest, hleaders, hlength⟩ := hl.leaders
    rw [hleaders, List.length_cons]
    omega

theorem leads_of_inRounds {pc : Pc} (h : pc.inRounds) : pc.leads := by
  cases pc <;> first | exact h | trivial

/-- A thread in the message rounds is the latest leader, in the call that it is in. -/
theorem head_of_inRounds (h : ProcessInv t numCalls e p) (htid : tid < t)
    (hpc : (p.threads tid).pc.inRounds) : p.leaders.head? = some (tid, (p.threads tid).calls + 1) := by
  have hl := leading_of_thread h htid (leads_of_inRounds hpc)
  obtain ⟨rest, hleaders, -⟩ := hl.leaders
  rw [hleaders, hl.calls_eq h htid, List.head?_cons]

theorem count_of_outside (h : ProcessInv t numCalls e p)
    (hout : ∀ tid < t, (p.threads tid).pc = .outside) : p.count = t := by
  rcases h.phase with hg | ⟨leader, hl⟩
  · have hwaiting : p.waiting t e = ∅ := by
      ext i
      simp only [mem_waiting, Thread.waits, Finset.notMem_empty, iff_false]
      rintro ⟨hi, -, b, hb⟩
      rw [hout i hi] at hb
      cases hb
    simpa [hwaiting] using hg.count
  · have hleads := hl.leads
    rw [hout leader hl.lt] at hleads
    exact hleads.elim

/-- One call of two processes with two threads each; thread 1 leads in both. -/
def twoByTwo : List Action :=
  [.thread 0 0, .thread 0 0, .thread 0 1, .thread 0 1, .thread 0 1,
    .thread 1 0, .thread 1 0, .thread 1 1, .thread 1 1, .thread 1 1,
    .deliver ⟨0, 1, 1⟩, .deliver ⟨1, 0, 1⟩, .thread 0 1, .thread 0 1, .thread 0 1, .thread 0 0,
    .thread 1 1, .thread 1 1, .thread 1 1, .thread 1 0]

end AdvancedOS.Combined
