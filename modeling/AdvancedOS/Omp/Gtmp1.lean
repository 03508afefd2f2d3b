import AdvancedOS.Combined.Barrier

/-!
# The sense-reversing barrier `gtmp1`

`system numThreads numCalls` is the program of the OpenMP `harness.c` over `gtmp1.c`: every thread
makes `numCalls` calls of `gtmp_barrier`. One step is one access of one thread to `count` or `sense`.

The state has two history variables that no step reads: `last`, the threads whose
`__sync_fetch_and_sub` returned 1, each with the number of its call, latest first; and `flips`, how
often `sense` has been stored.

`gtmp1` is `combined_barrier` on one process, which has no message rounds to make
(`refinement_combined`). So the invariant of the combined barrier for one process is the invariant
of `gtmp1`, where `flips` is the episode (`inv_reach`).
-/

namespace AdvancedOS.Gtmp1

open Lts

/-- Where a thread is: between two calls; before `__sync_fetch_and_sub` with its `my_sense`; before
`count = num_threads`; before `sense = my_sense`; or in the `while` that waits for `sense`. -/
inductive Pc
  | outside
  | arrive (mySense : Bool)
  | reset (mySense : Bool)
  | flip (mySense : Bool)
  | spin (mySense : Bool)
  deriving DecidableEq, Repr

/-- A thread: the calls it has returned from, and where it is. -/
structure Thread where
  calls : Nat
  pc : Pc
  deriving DecidableEq, Repr

structure State where
  count : Int
  sense : Bool
  threads : Nat → Thread
  last : List (Nat × Nat)
  flips : Nat

/-- Thread `tid` becomes `th`. -/
def State.put (s : State) (tid : Nat) (th : Thread) : State :=
  { s with threads := Function.update s.threads tid th }

/-- `gtmp_init`. -/
def gtmpInit (numThreads : Nat) : State :=
  { count := numThreads, sense := false, threads := fun _ => ⟨0, .outside⟩, last := [], flips := 0 }

/-- The next step of thread `tid` in `gtmp_barrier`, or the start of its next call. -/
def gtmpBarrier (numThreads numCalls tid : Nat) (s : State) : Option State :=
  match s.threads tid with
  | ⟨calls, .outside⟩ =>
    if calls < numCalls then some (s.put tid ⟨calls, .arrive (!s.sense)⟩) else none
  | ⟨calls, .arrive mySense⟩ =>
    if s.count = 1 then
      some ({ s with count := s.count - 1, last := (tid, calls + 1) :: s.last }.put tid
        ⟨calls, .reset mySense⟩)
    else some ({ s with count := s.count - 1 }.put tid ⟨calls, .spin mySense⟩)
  | ⟨calls, .reset mySense⟩ => some ({ s with count := numThreads }.put tid ⟨calls, .flip mySense⟩)
  | ⟨calls, .flip mySense⟩ =>
    some ({ s with sense := mySense, flips := s.flips + 1 }.put tid ⟨calls + 1, .outside⟩)
  | ⟨calls, .spin mySense⟩ =>
    -- a test of `sense` that fails changes nothing, so only the last one is a step
    if s.sense = mySense then some (s.put tid ⟨calls + 1, .outside⟩) else none

/-- An action is a step of the thread it names. -/
def system (numThreads numCalls : Nat) : System State Nat where
  init := gtmpInit numThreads
  next tid s := if tid < numThreads then gtmpBarrier numThreads numCalls tid s else none

/-- The calls a thread has entered. -/
def Thread.entered (th : Thread) : Nat :=
  match th.pc with
  | .outside => th.calls
  | _ => th.calls + 1

/-! ## One process of the combined barrier -/

def Pc.toCombined : Pc → Combined.Pc
  | .outside => .outside
  | .arrive b => .arrive b
  | .reset b => .loop b 0
  | .flip b => .flip b
  | .spin b => .spin b

def Thread.toCombined (th : Thread) : Combined.Thread := ⟨th.calls, th.pc.toCombined⟩

def State.process (s : State) : Combined.Process :=
  { count := s.count, sense := s.sense, threads := fun i => (s.threads i).toCombined, leaders := s.last }

variable {n numCalls tid : Nat} {s t : State}

@[simp] theorem calls_toCombined (th : Thread) : th.toCombined.calls = th.calls := rfl

@[simp] theorem entered_toCombined (th : Thread) : th.toCombined.entered = th.entered := by
  obtain ⟨calls, pc⟩ := th
  cases pc <;> rfl

/-- The change of one thread is the change of that thread in the process. -/
theorem process_put (s : State) (tid : Nat) (th : Thread) :
    (s.put tid th).process = s.process.put tid th.toCombined := by
  unfold State.process Combined.Process.put State.put
  congr 1
  funext i
  by_cases hi : i = tid
  · subst hi; simp
  · simp [hi]

/-- The steps of `gtmp1` are the steps of the combined barrier of one process. -/
theorem combinedBarrier_process (n numCalls tid : Nat) (s : State) :
    Combined.combinedBarrier (Combined.combinedInit 1 n) numCalls 0 tid s.process .empty =
      (gtmpBarrier n numCalls tid s).map fun t => (t.process, .empty) := by
  have hrounds : Dissemination.numRounds 1 = 0 := rfl
  have hthread : s.process.threads tid = (s.threads tid).toCombined := rfl
  have hcount : s.process.count = s.count := rfl
  have hsense : s.process.sense = s.sense := rfl
  unfold gtmpBarrier Combined.combinedBarrier
  rw [hthread]
  generalize s.threads tid = th
  obtain ⟨calls, pc⟩ := th
  cases pc with
  | outside =>
    by_cases hlt : calls < numCalls
    · simp [Thread.toCombined, Pc.toCombined, hlt, process_put, hsense]
    · simp [Thread.toCombined, Pc.toCombined, hlt]
  | arrive b =>
    by_cases hone : s.count = 1
    · simp [Thread.toCombined, Pc.toCombined, hcount, hone, process_put]
      rfl
    · simp [Thread.toCombined, Pc.toCombined, hcount, hone, process_put]
      rfl
  | reset b =>
    simp [Thread.toCombined, Pc.toCombined, process_put, Combined.combinedInit, hrounds]
    rfl
  | flip b =>
    simp [Thread.toCombined, Pc.toCombined, process_put]
    rfl
  | spin b =>
    by_cases hb : s.sense = b
    · simp [Thread.toCombined, Pc.toCombined, hsense, hb, process_put]
    · simp [Thread.toCombined, Pc.toCombined, hsense, hb]

/-- Only the store of `sense` changes `flips`, and it is the only step that changes `sense`. -/
theorem flips_gtmpBarrier (h : gtmpBarrier n numCalls tid s = some t) :
    (t.flips = s.flips ∧ t.sense = s.sense) ∨
    ((s.threads tid).pc = .flip t.sense ∧ t.flips = s.flips + 1) := by
  unfold gtmpBarrier at h
  split at h
  · split at h
    · cases h; exact .inl ⟨rfl, rfl⟩
    · cases h
  · split at h <;> cases h <;> exact .inl ⟨rfl, rfl⟩
  · cases h; exact .inl ⟨rfl, rfl⟩
  · next hpc => cases h; exact .inr ⟨by rw [hpc]; rfl, rfl⟩
  · split at h
    · cases h; exact .inl ⟨rfl, rfl⟩
    · cases h

/-- The state as the combined barrier sees it: one process, and no messages. -/
def State.combined (n : Nat) (s : State) : Combined.State :=
  { procs := Function.update (fun _ => Combined.initProcess n) 0 s.process, net := .empty }

@[simp] theorem combined_procs (s : State) : (s.combined n).procs 0 = s.process := by
  simp [State.combined]

theorem combined_next {a : Nat} (ha : a < n) :
    (Combined.system 1 n numCalls).next (.thread 0 a) (s.combined n) =
      (gtmpBarrier n numCalls a s).map fun t => t.combined n := by
  have hnet : (s.combined n).net = .empty := rfl
  simp only [Combined.system, Nat.zero_lt_one, ha, and_self, if_true, combined_procs, hnet,
    combinedBarrier_process, Option.map_map]
  congr 1
  funext t
  exact congrArg (Combined.State.mk · Fifo.Network.empty) (Function.update_idem _ _ _)

/-- `gtmp1` refines the combined barrier of one process. -/
def refinement_combined (n numCalls : Nat) :
    Refinement (system n numCalls) (fun _ _ => True) (Combined.system 1 n numCalls) (fun _ _ => True) where
  abs := State.combined n
  init := congrArg (Combined.State.mk · Fifo.Network.empty) (Function.update_eq_self _ _)
  step := by
    intro s t a _ _ hs
    simp only [system] at hs
    split at hs
    · next ha => exact .inr ⟨.thread 0 a, trivial, by rw [combined_next ha, hs]; rfl⟩
    · cases hs

theorem combined_reach (h : Reach (system n numCalls) s) :
    Reach (Combined.system 1 n numCalls) (s.combined n) :=
  (refinement_combined n numCalls).reach h

/-! ## The invariant -/

/-- `flips` is the episode that the invariant of the combined barrier speaks of. -/
theorem inv_reach (hn : 0 < n) (h : Reach (system n numCalls) s) :
    Combined.ProcessInv n numCalls s.flips s.process := by
  refine h.invariant (I := fun s => Combined.ProcessInv n numCalls s.flips s.process)
    (Combined.processInv_init hn) fun {s t a} _ hinv _ hs => ?_
  simp only [system] at hs
  split at hs
  · next ha =>
    have hstep := combinedBarrier_process n numCalls a s
    rw [hs] at hstep
    have hmove := Combined.threadMove_of_combinedBarrier hstep
    obtain ⟨⟨e, he, hsense⟩, -⟩ := Combined.processInv_move hinv ha hmove
    rcases flips_gtmpBarrier hs with ⟨hflips, hsame⟩ | ⟨hpc, hflips⟩
    · -- `sense` is as it was, so the episode is
      rcases hsense with ⟨rfl, -⟩ | ⟨-, hnot⟩
      · rwa [hflips]
      · have hnot' : t.sense = !s.sense := hnot
        rw [hsame] at hnot'
        simp at hnot'
    · -- the thread stores what `sense` is not
      have hok := hinv.ok a ha
      have hthread : s.process.threads a = ⟨(s.threads a).calls, .flip t.sense⟩ := by
        show (s.threads a).toCombined = _
        rw [Thread.toCombined, hpc]
        rfl
      rw [hthread] at hok
      rcases hsense with ⟨-, hsame⟩ | ⟨rfl, -⟩
      · have hnot : t.sense = !s.sense := hok.2
        have hsame' : t.sense = s.sense := hsame
        rw [hsame'] at hnot
        simp at hnot
      · rwa [hflips]
  · cases hs

/-- `count` is between 0 and the number of threads. -/
theorem count_nonneg {e : Nat} {p : Combined.Process} (h : Combined.ProcessInv n numCalls e p) :
    0 ≤ p.count := by
  rcases h.phase with hg | ⟨leader, hl⟩
  · have hcount := hg.count
    have hlt := hg.lt
    omega
  · rw [hl.count]
    unfold Combined.Pc.leaderCount
    split <;> omega

/-- A thread in the `while` has not been released, or it has been released by the latest flip,
which it can still see. -/
theorem spin_cases {b : Bool} (h : Combined.ProcessInv n numCalls s.flips s.process) (htid : tid < n)
    (hpc : (s.threads tid).pc = .spin b) :
    (s.flips = (s.threads tid).calls ∧ s.sense = !b) ∨
    (s.flips = (s.threads tid).calls + 1 ∧ s.sense = b) := by
  have hok := h.ok tid htid
  have hthread : s.process.threads tid = ⟨(s.threads tid).calls, .spin b⟩ := by
    show (s.threads tid).toCombined = _
    rw [Thread.toCombined, hpc]
    rfl
  rw [hthread] at hok
  rcases hok with ⟨hcalls, hb⟩ | ⟨hcalls, hb⟩
  · have hb' : b = !s.sense := hb
    exact .inl ⟨hcalls.symm, by rw [hb', Bool.not_not]⟩
  · exact .inr ⟨hcalls.symm, hb.symm⟩

/-! ## Progress -/

/-- A thread that the combined barrier lets step can step. -/
theorem progress (hn : 0 < n) (h : Reach (system n numCalls) s) (htid : tid < n)
    (hcalls : (s.threads tid).calls < numCalls) : ¬ Stuck (system n numCalls) s := by
  intro hstuck
  have hproc : ((s.combined n).procs 0).threads tid = (s.threads tid).toCombined := by
    rw [combined_procs]
    rfl
  refine Combined.progress hn (combined_reach h) Nat.zero_lt_one htid (by rw [hproc]; exact hcalls)
    fun a => ?_
  cases a with
  | thread rank i =>
    by_cases hlt : rank < 1 ∧ i < n
    · obtain ⟨hrank, hi⟩ := hlt
      obtain rfl : rank = 0 := by omega
      have hnone := hstuck i
      simp only [system, hi, if_true] at hnone
      rw [combined_next hi, hnone]
      rfl
    · simp only [Combined.system]
      rw [if_neg hlt]
  | deliver e => rfl

/-! ## The barrier -/

/-- The sense-reversing barrier synchronises its threads: nobody returns from a call before everybody
has entered it; every call that some thread has returned from had exactly one last thread, no call
two; `count` is never negative; a thread in the `while` either waits for the next flip, or `sense`
still has the value that it waits for; and the program is not stuck while a thread has calls to
make. -/
theorem sense_reversing_barrier (hn : 0 < n) (h : Reach (system n numCalls) s) :
    (∀ i < n, ∀ j < n, (s.threads i).calls ≤ (s.threads j).entered) ∧
    (∀ i < n, ∀ k, 1 ≤ k → k ≤ (s.threads i).calls → ∃! tid, (tid, k) ∈ s.last) ∧
    (s.last.map Prod.snd).Nodup ∧
    0 ≤ s.count ∧
    (∀ i < n, ∀ b, (s.threads i).pc = .spin b →
      (s.flips = (s.threads i).calls ∧ s.sense = !b) ∨
      (s.flips = (s.threads i).calls + 1 ∧ s.sense = b)) ∧
    ((∃ i < n, (s.threads i).calls < numCalls) → ¬ Stuck (system n numCalls) s) := by
  have hinv := inv_reach hn h
  refine ⟨fun i hi j hj => ?_, fun i hi k hk hle => ?_, ?_, count_nonneg hinv,
    fun i hi b hpc => spin_cases hinv hi hpc, ?_⟩
  · have hsafe := Barrier.safe_of_refinement (Combined.refinement 1 numCalls hn) (combined_reach h)
      (⟨0, Nat.zero_lt_one⟩, ⟨i, hi⟩) (⟨0, Nat.zero_lt_one⟩, ⟨j, hj⟩)
    simpa [Combined.refinement, State.process] using hsafe
  · exact Combined.exists_leader hinv hk (Nat.le_trans hle (Combined.calls_le_leaders hinv hi))
  · have hcalls : s.last.map Prod.snd = (List.range' 1 s.last.length).reverse := hinv.leadersCalls
    rw [hcalls, List.nodup_reverse]
    exact List.nodup_range'
  · rintro ⟨i, hi, hcalls⟩
    exact progress hn h hi hcalls

/-- Two calls of two threads. In the first, thread 1 arrives last, and returns and enters the second
call before thread 0 has noticed the flip. -/
def twoThreads : List Nat := [0, 0, 1, 1, 1, 1, 1, 1, 0, 0, 0, 0, 0, 1]

theorem sense_reversing_barrier_two_threads : ∃ s, Reach (system 2 2) s ∧
    (∀ i < 2, s.threads i = ⟨2, .outside⟩) ∧
    (∀ k, 1 ≤ k → k ≤ 2 → ∃! tid, (tid, k) ∈ s.last) ∧ 0 ≤ s.count := by
  have hrun : (exec (system 2 2) twoThreads (system 2 2).init).isSome := by decide
  have hout : ∀ u ∈ exec (system 2 2) twoThreads (system 2 2).init, ∀ i < 2,
      u.threads i = ⟨2, .outside⟩ := by decide
  obtain ⟨u, hu⟩ := Option.isSome_iff_exists.mp hrun
  obtain ⟨-, hone, -, hcount, -⟩ := sense_reversing_barrier (by decide) (reach_exec twoThreads .init hu)
  refine ⟨u, reach_exec twoThreads .init hu, hout u hu, fun k hk hle => ?_, hcount⟩
  exact hone 0 (by decide) k hk (by rwa [hout u hu 0 (by decide)])

end AdvancedOS.Gtmp1
