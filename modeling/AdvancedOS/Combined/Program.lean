import AdvancedOS.Mpi.Gtmpi1

/-!
# The combined barrier: the program

`system numProcesses numThreads numCalls` is the program of the combined `harness.c` over
`combined.c`: every process initialises the barrier, and every one of its threads makes
`numCalls` calls of `combined_barrier`. One step is one access of one thread to `count` or
`sense`, one MPI operation of one thread, or the delivery of one message.

A process keeps one history variable that no step reads, `leaders`: the threads that found
themselves last and went on to the message rounds, each with the number of its call,
latest first.

* `ThreadMove`: all that a step of one thread can do; `next_cases` inverts a step.
* `Process.exchange`: a process as the dissemination barrier `gtmpi1` sees it.
-/

namespace AdvancedOS.Combined

open Lts Fifo Fifo.Network Dissemination

/-- Where a thread is: between two calls; before `__sync_fetch_and_sub` with its `my_sense`; at
the head of the round loop; in the `MPI_Recv` of a round; between `count = num_threads` and
`sense = my_sense`; or in the `while` that waits for `sense`. -/
inductive Pc
  | outside
  | arrive (mySense : Bool)
  | loop (mySense : Bool) (round : Nat)
  | recv (mySense : Bool) (round : Nat)
  | flip (mySense : Bool)
  | spin (mySense : Bool)
  deriving DecidableEq, Repr

/-- A thread: the calls it has returned from, and where it is. -/
structure Thread where
  calls : Nat
  pc : Pc
  deriving DecidableEq, Repr

/-- A process: the shared `count` and `sense`, its threads, and who has led the calls so far. -/
structure Process where
  count : Int
  sense : Bool
  threads : Nat → Thread
  leaders : List (Nat × Nat)

structure State where
  procs : Nat → Process
  net : Network Envelope Stamp

/-- The globals of `combined.c` that no step changes. -/
structure Globals where
  numRounds : Nat
  numProcesses : Nat
  numThreads : Nat

/-- The globals set by `combined_init`; `count` and `sense` start as `initProcess` has them. -/
def combinedInit (numProcesses numThreads : Nat) : Globals :=
  { numRounds := numRounds numProcesses, numProcesses, numThreads }

def initProcess (numThreads : Nat) : Process :=
  { count := numThreads, sense := false, threads := fun _ => ⟨0, .outside⟩, leaders := [] }

inductive Action
  | thread (rank tid : Nat)
  | deliver (e : Envelope)
  deriving DecidableEq, Repr

/-- Thread `tid` becomes `th`. -/
def Process.put (p : Process) (tid : Nat) (th : Thread) : Process :=
  { p with threads := Function.update p.threads tid th }

/-- Process `rank` becomes `p`, and the network becomes `net`. -/
def State.put (s : State) (rank : Nat) (p : Process) (net : Network Envelope Stamp) : State :=
  { procs := Function.update s.procs rank p, net }

/-- The next step of thread `tid` of process `rank` in `combined_barrier`, or the start of its
next call. -/
def combinedBarrier (g : Globals) (numCalls rank tid : Nat) (p : Process)
    (net : Network Envelope Stamp) : Option (Process × Network Envelope Stamp) :=
  match p.threads tid with
  | ⟨calls, .outside⟩ =>
    if calls < numCalls then some (p.put tid ⟨calls, .arrive (!p.sense)⟩, net) else none
  | ⟨calls, .arrive mySense⟩ =>
    if p.count = 1 then
      some ({ p with count := p.count - 1, leaders := (tid, calls + 1) :: p.leaders }.put tid
        ⟨calls, .loop mySense 0⟩, net)
    else some ({ p with count := p.count - 1 }.put tid ⟨calls, .spin mySense⟩, net)
  | ⟨calls, .loop mySense round⟩ =>
    if round < g.numRounds then
      some (p.put tid ⟨calls, .recv mySense round⟩,
        net.send (sendEnvelope g.numProcesses rank round) ⟨calls + 1, round⟩)
    else some ({ p with count := g.numThreads }.put tid ⟨calls, .flip mySense⟩, net)
  | ⟨calls, .recv mySense round⟩ =>
    (net.recv (recvEnvelope g.numProcesses rank round)).map fun (_, net') =>
      (p.put tid ⟨calls, .loop mySense (round + 1)⟩, net')
  | ⟨calls, .flip mySense⟩ =>
    some ({ p with sense := mySense }.put tid ⟨calls + 1, .outside⟩, net)
  | ⟨calls, .spin mySense⟩ =>
    -- a test of `sense` that fails changes nothing, so only the last one is a step
    if p.sense = mySense then some (p.put tid ⟨calls + 1, .outside⟩, net) else none

def system (numProcesses numThreads numCalls : Nat) : System State Action where
  init := { procs := fun _ => initProcess numThreads, net := .empty }
  next
    | .thread rank tid, s =>
      if rank < numProcesses ∧ tid < numThreads then
        (combinedBarrier (combinedInit numProcesses numThreads) numCalls rank tid (s.procs rank)
          s.net).map fun (p, net) => s.put rank p net
      else none
    | .deliver e, s => (s.net.deliver e).map fun net => { s with net }

/-! ## What a step can do -/

/-- The calls a thread has entered. -/
def Thread.entered (th : Thread) : Nat :=
  match th.pc with
  | .outside => th.calls
  | _ => th.calls + 1

/-- The thread found itself last and has not yet released the others. -/
def Pc.leads : Pc → Prop
  | .loop _ _ | .recv _ _ | .flip _ => True
  | _ => False

/-- The thread is in the message rounds. -/
def Pc.inRounds : Pc → Prop
  | .loop _ _ | .recv _ _ => True
  | _ => False

/-- The steps of thread `tid` of process `rank`: from what to what, and what they do to the
network. -/
inductive ThreadMove (n t numCalls rank tid : Nat) (p : Process) (net : Network Envelope Stamp) :
    Process → Network Envelope Stamp → Prop
  | enter {calls : Nat} : p.threads tid = ⟨calls, .outside⟩ → calls < numCalls →
      ThreadMove n t numCalls rank tid p net (p.put tid ⟨calls, .arrive (!p.sense)⟩) net
  | last {calls : Nat} {b : Bool} : p.threads tid = ⟨calls, .arrive b⟩ → p.count = 1 →
      ThreadMove n t numCalls rank tid p net
        ({ p with count := p.count - 1, leaders := (tid, calls + 1) :: p.leaders }.put tid
          ⟨calls, .loop b 0⟩) net
  | wait {calls : Nat} {b : Bool} : p.threads tid = ⟨calls, .arrive b⟩ → p.count ≠ 1 →
      ThreadMove n t numCalls rank tid p net
        ({ p with count := p.count - 1 }.put tid ⟨calls, .spin b⟩) net
  | send {calls round : Nat} {b : Bool} : p.threads tid = ⟨calls, .loop b round⟩ →
      round < numRounds n →
      ThreadMove n t numCalls rank tid p net (p.put tid ⟨calls, .recv b round⟩)
        (net.send (sendEnvelope n rank round) ⟨calls + 1, round⟩)
  | reset {calls round : Nat} {b : Bool} : p.threads tid = ⟨calls, .loop b round⟩ →
      ¬ round < numRounds n →
      ThreadMove n t numCalls rank tid p net ({ p with count := t }.put tid ⟨calls, .flip b⟩) net
  | recv {calls round : Nat} {b : Bool} {m : Stamp} {net' : Network Envelope Stamp} :
      p.threads tid = ⟨calls, .recv b round⟩ →
      net.recv (recvEnvelope n rank round) = some (m, net') →
      ThreadMove n t numCalls rank tid p net (p.put tid ⟨calls, .loop b (round + 1)⟩) net'
  | flip {calls : Nat} {b : Bool} : p.threads tid = ⟨calls, .flip b⟩ →
      ThreadMove n t numCalls rank tid p net
        ({ p with sense := b }.put tid ⟨calls + 1, .outside⟩) net
  | exit {calls : Nat} : p.threads tid = ⟨calls, .spin p.sense⟩ →
      ThreadMove n t numCalls rank tid p net (p.put tid ⟨calls + 1, .outside⟩) net

theorem threadMove_of_combinedBarrier {n t numCalls rank tid : Nat} {p p' : Process}
    {net net' : Network Envelope Stamp}
    (h : combinedBarrier (combinedInit n t) numCalls rank tid p net = some (p', net')) :
    ThreadMove n t numCalls rank tid p net p' net' := by
  unfold combinedBarrier at h
  split at h
  · next calls hpc =>
    split at h
    · next hlt => cases h; exact .enter hpc hlt
    · cases h
  · next calls b hpc =>
    split at h
    · next hone => cases h; exact .last hpc hone
    · next hne => cases h; exact .wait hpc hne
  · next calls b round hpc =>
    split at h
    · next hlt => cases h; exact .send hpc hlt
    · next hge => cases h; exact .reset hpc hge
  · next calls b round hpc =>
    obtain ⟨⟨m, net₁⟩, hrecv, he⟩ := Option.map_eq_some_iff.mp h
    cases he
    exact .recv hpc hrecv
  · next calls b hpc => cases h; exact .flip hpc
  · next calls b hpc =>
    split at h
    · next hb => cases h; exact .exit (hb ▸ hpc)
    · cases h

/-- A step of the program is a step of one thread or a delivery. -/
theorem next_cases {n t numCalls : Nat} {s u : State} {a : Action}
    (h : (system n t numCalls).next a s = some u) :
    (∃ rank < n, ∃ tid < t, ∃ p net,
      ThreadMove n t numCalls rank tid (s.procs rank) s.net p net ∧ u = s.put rank p net) ∨
    ∃ e net, s.net.deliver e = some net ∧ u = { s with net } := by
  cases a with
  | thread rank tid =>
    simp only [system] at h
    split at h
    · next hlt =>
      obtain ⟨⟨p, net⟩, hmove, rfl⟩ := Option.map_eq_some_iff.mp h
      exact .inl ⟨rank, hlt.1, tid, hlt.2, p, net, threadMove_of_combinedBarrier hmove, rfl⟩
    · cases h
  | deliver e =>
    obtain ⟨net, hdel, rfl⟩ := Option.map_eq_some_iff.mp h
    exact .inr ⟨e, net, hdel, rfl⟩

@[simp] theorem put_net (s : State) (rank : Nat) (p : Process) (net : Network Envelope Stamp) :
    (s.put rank p net).net = net := rfl

@[simp] theorem put_self (s : State) (rank : Nat) (p : Process) (net : Network Envelope Stamp) :
    (s.put rank p net).procs rank = p := Function.update_self _ _ _

theorem put_of_ne (s : State) {rank q : Nat} (p : Process) (net : Network Envelope Stamp)
    (h : q ≠ rank) : (s.put rank p net).procs q = s.procs q := Function.update_of_ne h _ _

@[simp] theorem Process.put_count (p : Process) (tid : Nat) (th : Thread) :
    (p.put tid th).count = p.count := rfl

@[simp] theorem Process.put_sense (p : Process) (tid : Nat) (th : Thread) :
    (p.put tid th).sense = p.sense := rfl

@[simp] theorem Process.put_leaders (p : Process) (tid : Nat) (th : Thread) :
    (p.put tid th).leaders = p.leaders := rfl

@[simp] theorem Process.put_self (p : Process) (tid : Nat) (th : Thread) :
    (p.put tid th).threads tid = th := Function.update_self _ _ _

theorem Process.put_of_ne (p : Process) {tid i : Nat} (th : Thread) (h : i ≠ tid) :
    (p.put tid th).threads i = p.threads i := Function.update_of_ne h _ _

/-! ## A process as `gtmpi1` sees it -/

/-- What the latest leader makes of the message rounds after `done` of them: they stay open as
long as that thread is in them. -/
def Pc.exchange (done : Nat) : Pc → Gtmpi1.Proc
  | .loop _ round => ⟨done, .loop round⟩
  | .recv _ round => ⟨done, .recv round⟩
  | _ => ⟨done + 1, .outside⟩

/-- The message rounds a process has made, as calls of `gtmpi_barrier`. -/
def Process.exchange (p : Process) : Gtmpi1.Proc :=
  match p.leaders with
  | [] => ⟨0, .outside⟩
  | (tid, _) :: rest => (p.threads tid).pc.exchange rest.length

/-- The state as `gtmpi1` sees it. -/
def State.exchange (s : State) : Gtmpi1.State :=
  { procs := fun rank => (s.procs rank).exchange, net := s.net }

theorem exchange_put (s : State) (rank : Nat) (p : Process) (net : Network Envelope Stamp) :
    (s.put rank p net).exchange = s.exchange.put rank p.exchange net := by
  unfold State.exchange Gtmpi1.State.put
  congr 1
  funext q
  by_cases hq : q = rank
  · subst hq; simp
  · simp [put_of_ne s p net hq, hq]

end AdvancedOS.Combined
