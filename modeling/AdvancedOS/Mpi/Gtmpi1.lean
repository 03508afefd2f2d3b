import Mathlib.Data.Finset.Max
import Mathlib.Data.Prod.Lex
import AdvancedOS.Lib.Barrier
import AdvancedOS.Mpi.Dissemination

/-!
# The dissemination barrier `gtmpi1`

`system numProcesses numCalls` is the program of `harness.c` over `gtmpi1.c`: every rank
initialises the barrier and then makes `numCalls` calls of `gtmpi_barrier`. One step is one
MPI operation of one rank, or the delivery of one message. `MPI_Isend` is buffered, so a
send never blocks; `MPI_Recv` blocks until a message of its envelope has been delivered.

The invariant `Inv` says three things.
* `chan`: the channel of a sender and a round holds exactly the messages of the calls that
  its sender has sent and its receiver has not yet received, in order. No other channel
  is ever used (`quiet`).
* `knows`: in round `r` a rank knows that the `2 ^ r` ranks behind it have entered its call.
* `all`: no rank has returned from more calls than any rank has entered.

A message of round `r` carries what its sender knows, so each round doubles the ranks known,
and after `numRounds` rounds all are known (`Ranks.spread_all`). `refinement` connects the
program to the abstract barrier.
-/

namespace AdvancedOS.Gtmpi1

open Lts Fifo Fifo.Network Ranks Dissemination

/-! ## The program -/

/-- Where a rank is: between two calls, at the head of the round loop, or in the `MPI_Recv`
of a round. -/
inductive Pc
  | outside
  | loop (round : Nat)
  | recv (round : Nat)
  deriving DecidableEq, Repr

/-- A rank: the calls it has returned from, and where it is. -/
structure Proc where
  calls : Nat
  pc : Pc
  deriving DecidableEq, Repr

structure State where
  procs : Nat → Proc
  net : Network Envelope Stamp

/-- The globals of `gtmpi1.c`. -/
structure Globals where
  numRounds : Nat
  numProcess : Nat

def gtmpiInit (numProcesses : Nat) : Globals :=
  { numRounds := numRounds numProcesses, numProcess := numProcesses }

inductive Action
  | proc (rank : Nat)
  | deliver (e : Envelope)
  deriving DecidableEq, Repr

/-- `rank` moves to `p`, and the network becomes `net`. -/
def State.put (s : State) (rank : Nat) (p : Proc) (net : Network Envelope Stamp) : State :=
  { procs := Function.update s.procs rank p, net }

/-- The next operation of `rank` in `gtmpi_barrier`, or the start of its next call. -/
def gtmpiBarrier (g : Globals) (numCalls rank : Nat) (s : State) : Option State :=
  match s.procs rank with
  | ⟨calls, .outside⟩ =>
    if calls < numCalls then some (s.put rank ⟨calls, .loop 0⟩ s.net) else none
  | ⟨calls, .loop round⟩ =>
    if round < g.numRounds then
      some (s.put rank ⟨calls, .recv round⟩
        (s.net.send (sendEnvelope g.numProcess rank round) ⟨calls + 1, round⟩))
    else some (s.put rank ⟨calls + 1, .outside⟩ s.net)
  | ⟨calls, .recv round⟩ =>
    (s.net.recv (recvEnvelope g.numProcess rank round)).map fun (_, net) =>
      s.put rank ⟨calls, .loop (round + 1)⟩ net

def system (numProcesses numCalls : Nat) : System State Action where
  init := { procs := fun _ => ⟨0, .outside⟩, net := .empty }
  next
    | .proc rank, s =>
      if rank < numProcesses then gtmpiBarrier (gtmpiInit numProcesses) numCalls rank s else none
    | .deliver e, s => (s.net.deliver e).map fun net => { s with net }

/-! ## What a step can do -/

/-- The calls a rank has entered. -/
def Proc.entered (p : Proc) : Nat :=
  match p.pc with
  | .outside => p.calls
  | _ => p.calls + 1

/-- The messages of round `r` a rank has sent. -/
def Proc.sent (p : Proc) (r : Nat) : Nat :=
  match p.pc with
  | .outside => p.calls
  | .loop round => if r < round then p.calls + 1 else p.calls
  | .recv round => if r ≤ round then p.calls + 1 else p.calls

/-- The messages of round `r` a rank has received. -/
def Proc.received (p : Proc) (r : Nat) : Nat :=
  match p.pc with
  | .outside => p.calls
  | .loop round | .recv round => if r < round then p.calls + 1 else p.calls

/-- The steps of one rank: from what to what, and what they do to the network. -/
inductive ProcMove (n numCalls rank : Nat) (net : Network Envelope Stamp) :
    Proc → Proc → Network Envelope Stamp → Prop
  | enter {calls : Nat} : calls < numCalls →
      ProcMove n numCalls rank net ⟨calls, .outside⟩ ⟨calls, .loop 0⟩ net
  | send {calls round : Nat} : round < numRounds n →
      ProcMove n numCalls rank net ⟨calls, .loop round⟩ ⟨calls, .recv round⟩
        (net.send (sendEnvelope n rank round) ⟨calls + 1, round⟩)
  | recv {calls round : Nat} {m : Stamp} {net' : Network Envelope Stamp} :
      net.recv (recvEnvelope n rank round) = some (m, net') →
      ProcMove n numCalls rank net ⟨calls, .recv round⟩ ⟨calls, .loop (round + 1)⟩ net'
  | leave {calls round : Nat} : ¬ round < numRounds n →
      ProcMove n numCalls rank net ⟨calls, .loop round⟩ ⟨calls + 1, .outside⟩ net

/-- What the program does when it lets `rank` take a step. -/
theorem move_of_proc {n numCalls rank : Nat} {s t : State}
    (h : (system n numCalls).next (.proc rank) s = some t) :
    ∃ p net, rank < n ∧ ProcMove n numCalls rank s.net (s.procs rank) p net ∧ t = s.put rank p net := by
  simp only [system] at h
  split at h
  · next hrank =>
    unfold gtmpiBarrier at h
    split at h
    · next calls hpc =>
      split at h
      · next hlt => cases h; exact ⟨_, _, hrank, hpc ▸ .enter hlt, rfl⟩
      · cases h
    · next calls round hpc =>
      split at h
      · next hlt => cases h; exact ⟨_, _, hrank, hpc ▸ .send hlt, rfl⟩
      · next hge => cases h; exact ⟨_, _, hrank, hpc ▸ .leave hge, rfl⟩
    · next calls round hpc =>
      obtain ⟨⟨m, net⟩, hrecv, rfl⟩ := Option.map_eq_some_iff.mp h
      exact ⟨_, _, hrank, hpc ▸ .recv hrecv, rfl⟩
  · cases h

/-- A step of the program is a step of one rank or a delivery. -/
theorem next_cases {n numCalls : Nat} {s t : State} {a : Action}
    (h : (system n numCalls).next a s = some t) :
    (∃ rank < n, ∃ p net, ProcMove n numCalls rank s.net (s.procs rank) p net ∧ t = s.put rank p net) ∨
    ∃ e net, s.net.deliver e = some net ∧ t = { s with net } := by
  cases a with
  | proc rank =>
    obtain ⟨p, net, hrank, hmove, rfl⟩ := move_of_proc h
    exact .inl ⟨rank, hrank, p, net, hmove, rfl⟩
  | deliver e =>
    obtain ⟨net, hdel, rfl⟩ := Option.map_eq_some_iff.mp h
    exact .inr ⟨e, net, hdel, rfl⟩

/-- Every step of a rank is a step of the program. -/
theorem next_of_move {n numCalls rank : Nat} {s : State} {p : Proc} {net : Network Envelope Stamp}
    (hrank : rank < n) (h : ProcMove n numCalls rank s.net (s.procs rank) p net) :
    (system n numCalls).next (.proc rank) s = some (s.put rank p net) := by
  simp only [system, if_pos hrank]
  generalize hpc : s.procs rank = p₀ at h
  cases h with
  | enter hlt => simp [gtmpiBarrier, hpc, hlt]
  | send hround => simp [gtmpiBarrier, gtmpiInit, hpc, hround]
  | recv hrecv => simp [gtmpiBarrier, gtmpiInit, hpc, hrecv]
  | leave hround => simp [gtmpiBarrier, gtmpiInit, hpc, hround]

@[simp] theorem put_net (s : State) (rank : Nat) (p : Proc) (net : Network Envelope Stamp) :
    (s.put rank p net).net = net := rfl

@[simp] theorem put_self (s : State) (rank : Nat) (p : Proc) (net : Network Envelope Stamp) :
    (s.put rank p net).procs rank = p := Function.update_self _ _ _

theorem put_of_ne (s : State) {rank q : Nat} (p : Proc) (net : Network Envelope Stamp)
    (h : q ≠ rank) : (s.put rank p net).procs q = s.procs q := Function.update_of_ne h _ _

theorem ProcMove.entered_le {n numCalls rank : Nat} {net net' : Network Envelope Stamp} {p p' : Proc}
    (h : ProcMove n numCalls rank net p p' net') : p.entered ≤ p'.entered := by
  cases h <;> simp [Proc.entered]

/-- No step lowers what a rank has entered. -/
theorem entered_put {n numCalls rank : Nat} {net : Network Envelope Stamp} {p : Proc} {s : State}
    (h : ProcMove n numCalls rank s.net (s.procs rank) p net) (q : Nat) :
    (s.procs q).entered ≤ ((s.put rank p net).procs q).entered := by
  by_cases hq : q = rank
  · subst hq; rw [put_self]; exact h.entered_le
  · rw [put_of_ne s p net hq]

/-! ## The invariant -/

/-- A rank is only ever in a round of the loop. -/
def Proc.RoundOk (n : Nat) (p : Proc) : Prop :=
  match p.pc with
  | .outside => True
  | .loop round => round ≤ numRounds n
  | .recv round => round < numRounds n

/-- The rounds of its current call that `p` has completed. -/
def Proc.done (p : Proc) : Option Nat :=
  match p.pc with
  | .outside => none
  | .loop round | .recv round => some round

/-- The channel of sender `p` and round `r` holds what `p` has sent in that round and its
receiver has not yet received, in order. -/
def ChanOk (n : Nat) (s : State) (p r : Nat) : Prop :=
  Counted s.net (sendEnvelope n p r) (⟨·, r⟩) ((s.procs (sendTo n p r)).received r)
    ((s.procs p).sent r)

structure Inv (n : Nat) (s : State) : Prop where
  roundOk : ∀ p < n, (s.procs p).RoundOk n
  chan : ∀ p < n, ∀ r < numRounds n, ChanOk n s p r
  quiet : ∀ e, (∀ p < n, ∀ r < numRounds n, e ≠ sendEnvelope n p r) → s.net.queue e = []
  knows : ∀ p < n, ∀ r, (s.procs p).done = some r →
    Behind n (fun q => (s.procs p).calls + 1 ≤ (s.procs q).entered) p (2 ^ r)
  all : ∀ p < n, ∀ q < n, (s.procs p).calls ≤ (s.procs q).entered

theorem inv_init (n numCalls : Nat) : Inv n (system n numCalls).init where
  roundOk _ _ := trivial
  chan _ _ _ _ := .empty _ _ 0
  quiet _ _ := rfl
  knows _ _ _ h := by cases h
  all _ _ _ _ := Nat.zero_le _

/-! ### The channels -/

/-- The frame of `ChanOk`: a step that leaves the counts and the channel as they are. -/
theorem chanOk_frame {n : Nat} {s t : State} {p r : Nat} (h : ChanOk n s p r)
    (hsent : (t.procs p).sent r = (s.procs p).sent r)
    (hreceived : (t.procs (sendTo n p r)).received r = (s.procs (sendTo n p r)).received r)
    (hqueue : t.net.queue (sendEnvelope n p r) = s.net.queue (sendEnvelope n p r)) :
    ChanOk n t p r := by
  unfold ChanOk
  rw [hsent, hreceived]
  exact Counted.frame h hqueue

theorem put_sent {s : State} {rank : Nat} {p : Proc} {net : Network Envelope Stamp} {r : Nat}
    (h : p.sent r = (s.procs rank).sent r) (q : Nat) :
    ((s.put rank p net).procs q).sent r = (s.procs q).sent r := by
  by_cases hq : q = rank
  · subst hq; rw [put_self, h]
  · rw [put_of_ne s p net hq]

theorem put_received {s : State} {rank : Nat} {p : Proc} {net : Network Envelope Stamp} {r : Nat}
    (h : p.received r = (s.procs rank).received r) (q : Nat) :
    ((s.put rank p net).procs q).received r = (s.procs q).received r := by
  by_cases hq : q = rank
  · subst hq; rw [put_self, h]
  · rw [put_of_ne s p net hq]

/-- What round `r` of `rank` sends is the next message of its channel. -/
theorem chan_send {n rank calls round : Nat} {s : State} (h : Inv n s)
    (hpc : s.procs rank = ⟨calls, .loop round⟩) (hround : round < numRounds n)
    {p : Nat} (hp : p < n) {r : Nat} (hr : r < numRounds n) :
    ChanOk n (s.put rank ⟨calls, .recv round⟩
      (s.net.send (sendEnvelope n rank round) ⟨calls + 1, round⟩)) p r := by
  have hreceived : ∀ q, ((s.put rank ⟨calls, .recv round⟩
      (s.net.send (sendEnvelope n rank round) ⟨calls + 1, round⟩)).procs q).received r =
      (s.procs q).received r :=
    put_received (by rw [hpc]; rfl)
  have hchan := h.chan p hp r hr
  by_cases heq : p = rank ∧ r = round
  · obtain ⟨rfl, rfl⟩ := heq
    have hsent : (s.procs p).sent r = calls := by simp [hpc, Proc.sent]
    have hsent' : (Proc.mk calls (.recv r)).sent r = calls + 1 := by simp [Proc.sent]
    rw [ChanOk, hsent] at hchan
    rw [ChanOk, hreceived, put_self, hsent', put_net]
    exact hchan.send
  · refine chanOk_frame hchan ?_ (hreceived _) ?_
    · by_cases hq : p = rank
      · subst hq
        have hne : r ≠ round := fun he => heq ⟨rfl, he⟩
        rw [put_self, hpc]
        simp only [Proc.sent, Nat.lt_iff_le_and_ne, hne, ne_eq, not_false_eq_true, and_true]
      · rw [put_of_ne s _ _ hq]
    · refine queue_send_of_ne _ _ fun he => heq ?_
      exact sendEnvelope_inj hr hround he

/-- The channel `rank` receives from in round `round`. -/
theorem recv_chan {n rank calls round : Nat} {s : State} (h : Inv n s) (hrank : rank < n)
    (hpc : s.procs rank = ⟨calls, .recv round⟩) :
    Counted s.net (recvEnvelope n rank round) (⟨·, round⟩) calls
      ((s.procs (recvFrom n rank round)).sent round) := by
  have hround : round < numRounds n := by simpa [Proc.RoundOk, hpc] using h.roundOk rank hrank
  have hreceived : (s.procs rank).received round = calls := by simp [hpc, Proc.received]
  have hchan := h.chan _ (recvFrom_lt rank hround) round hround
  rwa [ChanOk, ← recvEnvelope_eq hrank hround, sendTo_recvFrom hrank hround, hreceived] at hchan

/-- Receiving in round `round` takes the oldest message of its channel. -/
theorem chan_recv {n rank calls round : Nat} {s : State} (h : Inv n s) (hrank : rank < n)
    (hpc : s.procs rank = ⟨calls, .recv round⟩) {m : Stamp} {net : Network Envelope Stamp}
    (hrecv : s.net.recv (recvEnvelope n rank round) = some (m, net))
    {p : Nat} (hp : p < n) {r : Nat} (hr : r < numRounds n) :
    ChanOk n (s.put rank ⟨calls, .loop (round + 1)⟩ net) p r := by
  have hround : round < numRounds n := by simpa [Proc.RoundOk, hpc] using h.roundOk rank hrank
  have hsent : ∀ q, ((s.put rank ⟨calls, .loop (round + 1)⟩ net).procs q).sent r =
      (s.procs q).sent r :=
    put_sent (by simp only [hpc, Proc.sent, Nat.lt_succ_iff])
  by_cases heq : p = recvFrom n rank round ∧ r = round
  · obtain ⟨rfl, rfl⟩ := heq
    have hreceived : (Proc.mk calls (.loop (r + 1))).received r = calls + 1 := by
      simp [Proc.received]
    rw [ChanOk, sendTo_recvFrom hrank hround, put_self, hsent, hreceived, put_net,
      ← recvEnvelope_eq hrank hround]
    exact ((recv_chan h hrank hpc).recv hrecv).2.2
  · refine chanOk_frame (h.chan p hp r hr) (hsent p) ?_ ?_
    · by_cases hq : sendTo n p r = rank
      · have hne : r ≠ round := by
          rintro rfl
          exact heq ⟨by rw [← hq, recvFrom_sendTo hp hr], rfl⟩
        have hiff : r < round + 1 ↔ r < round := by omega
        rw [hq, put_self, hpc]
        simp only [Proc.received, hiff]
      · rw [put_of_ne s _ _ hq]
    · refine queue_recv_of_ne (fun he => heq ?_) hrecv
      rw [recvEnvelope_eq hrank hround] at he
      exact sendEnvelope_inj hr hround he

/-- A message that was sent carries what its sender knew. -/
theorem behind_of_sent {n : Nat} {s : State} (h : Inv n s) {q r k : Nat} (hn : 0 < n) (hq : q < n)
    (hk : k ≤ (s.procs q).sent r) :
    Behind n (fun x => k ≤ (s.procs x).entered) q (2 ^ r) := by
  by_cases hcalls : k ≤ (s.procs q).calls
  · -- the message belongs to a call that `q` has returned from
    exact fun e _ => Nat.le_trans hcalls (h.all q hq _ (behind_lt hn q e))
  · -- `q` is in the call of the message, past the send of round `r`
    obtain ⟨round, hdone, hle⟩ : ∃ round, (s.procs q).done = some round ∧ r ≤ round := by
      unfold Proc.sent at hk
      split at hk
      · omega
      · next round hpc =>
        split at hk
        · exact ⟨round, by simp [Proc.done, hpc], by omega⟩
        · omega
      · next round hpc =>
        split at hk
        · exact ⟨round, by simp [Proc.done, hpc], by omega⟩
        · omega
    have hsent : (s.procs q).sent r ≤ (s.procs q).calls + 1 := by
      unfold Proc.sent; split <;> (try split) <;> omega
    exact ((h.knows q hq round hdone).mono (Nat.pow_le_pow_right (by omega) hle)).imp
      fun x hx => by omega

/-! ### Every step keeps the invariant -/

/-- The frame of `knows` and `all` for the ranks that do not step. -/
theorem knows_put {n numCalls rank : Nat} {net : Network Envelope Stamp} {p : Proc} {s : State}
    (h : Inv n s) (hmove : ProcMove n numCalls rank s.net (s.procs rank) p net)
    (hrank : ∀ r, p.done = some r →
      Behind n (fun q => p.calls + 1 ≤ ((s.put rank p net).procs q).entered) rank (2 ^ r))
    (q : Nat) (hq : q < n) (r : Nat) (hdone : ((s.put rank p net).procs q).done = some r) :
    Behind n (fun x => ((s.put rank p net).procs q).calls + 1 ≤ ((s.put rank p net).procs x).entered)
      q (2 ^ r) := by
  by_cases hne : q = rank
  · subst hne
    rw [put_self] at hdone ⊢
    exact hrank r hdone
  · rw [put_of_ne s p net hne] at hdone ⊢
    exact (h.knows q hq r hdone).imp fun x hx => Nat.le_trans hx (entered_put hmove x)

theorem all_put {n numCalls rank : Nat} {net : Network Envelope Stamp} {p : Proc} {s : State}
    (h : Inv n s) (hmove : ProcMove n numCalls rank s.net (s.procs rank) p net)
    (hrank : ∀ q < n, p.calls ≤ ((s.put rank p net).procs q).entered)
    (x : Nat) (hx : x < n) (q : Nat) (hq : q < n) :
    ((s.put rank p net).procs x).calls ≤ ((s.put rank p net).procs q).entered := by
  by_cases hne : x = rank
  · subst hne
    rw [put_self]
    exact hrank q hq
  · rw [put_of_ne s p net hne]
    exact Nat.le_trans (h.all x hx q hq) (entered_put hmove q)

theorem roundOk_put {n rank : Nat} {net : Network Envelope Stamp} {p : Proc} {s : State}
    (h : Inv n s) (hrank : p.RoundOk n) (q : Nat) (hq : q < n) :
    ((s.put rank p net).procs q).RoundOk n := by
  by_cases hne : q = rank
  · subst hne; rw [put_self]; exact hrank
  · rw [put_of_ne s p net hne]; exact h.roundOk q hq

/-- Everybody has entered the call of a rank that has completed all its rounds. -/
theorem all_of_done {n rank calls : Nat} {s : State} (h : Inv n s) (hrank : rank < n)
    (hpc : s.procs rank = ⟨calls, .loop (numRounds n)⟩) {q : Nat} (hq : q < n) :
    calls + 1 ≤ (s.procs q).entered := by
  have hknows := h.knows rank hrank (numRounds n) (by rw [hpc]; rfl)
  rw [hpc] at hknows
  exact spread_all hknows hq

theorem loop_done {n rank calls round : Nat} {s : State} (h : Inv n s) (hrank : rank < n)
    (hpc : s.procs rank = ⟨calls, .loop round⟩) (hround : ¬ round < numRounds n) :
    round = numRounds n := by
  have hok := h.roundOk rank hrank
  rw [hpc] at hok
  exact Nat.le_antisymm hok (Nat.not_lt.mp hround)

theorem inv_put {n numCalls rank : Nat} {net : Network Envelope Stamp} {p : Proc} {s : State}
    (h : Inv n s) (hrank : rank < n) (hmove : ProcMove n numCalls rank s.net (s.procs rank) p net) :
    Inv n (s.put rank p net) := by
  have hmono := entered_put hmove
  have hn : 0 < n := by omega
  have hstep := hmove
  generalize hpc : s.procs rank = p₀ at hmove
  cases hmove with
  | @enter calls hlt =>
    have hall : ∀ q < n, calls ≤ (s.procs q).entered := by
      simpa [hpc] using h.all rank hrank
    have hsent : ∀ r, (Proc.mk calls (.loop 0)).sent r = (s.procs rank).sent r := by
      intro r; simp [hpc, Proc.sent]
    have hreceived : ∀ r, (Proc.mk calls (.loop 0)).received r = (s.procs rank).received r := by
      intro r; simp [hpc, Proc.received]
    refine ⟨roundOk_put h (Nat.zero_le _), fun p hp r hr => ?_, h.quiet, knows_put h hstep ?_,
      all_put h hstep fun q hq => Nat.le_trans (hall q hq) (hmono q)⟩
    · exact chanOk_frame (h.chan p hp r hr) (put_sent (hsent r) p) (put_received (hreceived r) _) rfl
    · -- the only rank that is 0 places behind is the rank itself
      intro r hr e he
      cases hr
      obtain rfl : e = 0 := by simpa using he
      rw [behind_zero hrank, put_self]
      simp [Proc.entered]
  | @send calls round hround =>
    refine ⟨roundOk_put h hround, fun p hp r hr => chan_send h hpc hround hp hr, fun e he => ?_,
      knows_put h hstep ?_, all_put h hstep ?_⟩
    · rw [put_net, queue_send_of_ne _ _ (he rank hrank round hround)]
      exact h.quiet e he
    · intro r hr
      have hknows := h.knows rank hrank r (by rw [hpc]; exact hr)
      rw [hpc] at hknows
      exact hknows.imp fun x hx => Nat.le_trans hx (hmono x)
    · intro q hq
      have hall := h.all rank hrank q hq
      rw [hpc] at hall
      exact Nat.le_trans hall (hmono q)
  | @recv calls round m net hrecv =>
    have hround : round < numRounds n := by simpa [Proc.RoundOk, hpc] using h.roundOk rank hrank
    refine ⟨roundOk_put h hround, fun p hp r hr => chan_recv h hrank hpc hrecv hp hr,
      fun e he => ?_, knows_put h hstep ?_, all_put h hstep ?_⟩
    · have hne : e ≠ recvEnvelope n rank round := by
        rw [recvEnvelope_eq hrank hround]
        exact he _ (recvFrom_lt rank hround) round hround
      rw [put_net, queue_recv_of_ne hne hrecv]
      exact h.quiet e he
    · -- what `rank` knew, and what the sender of the message knew
      intro r hr
      cases hr
      obtain ⟨hlt, -, -⟩ := (recv_chan h hrank hpc).recv hrecv
      have hown := h.knows rank hrank round (by rw [hpc]; rfl)
      rw [hpc] at hown
      have hsender := behind_of_sent h hn (recvFrom_lt rank hround) hlt
      rw [recvFrom_eq hround] at hsender
      exact (spread hn hown hsender).imp fun x hx => Nat.le_trans hx (hmono x)
    · intro q hq
      have hall := h.all rank hrank q hq
      rw [hpc] at hall
      exact Nat.le_trans hall (hmono q)
  | @leave calls round hround =>
    obtain rfl := loop_done h hrank hpc hround
    have hsent : ∀ r < numRounds n, (Proc.mk (calls + 1) .outside).sent r = (s.procs rank).sent r := by
      intro r hr; simp [hpc, Proc.sent, hr]
    have hreceived : ∀ r < numRounds n,
        (Proc.mk (calls + 1) .outside).received r = (s.procs rank).received r := by
      intro r hr; simp [hpc, Proc.received, hr]
    refine ⟨roundOk_put h trivial, fun p hp r hr => ?_, h.quiet, knows_put h hstep (fun r hr => by cases hr),
      all_put h hstep fun q hq => Nat.le_trans (all_of_done h hrank hpc hq) (hmono q)⟩
    exact chanOk_frame (h.chan p hp r hr) (put_sent (hsent r hr) p) (put_received (hreceived r hr) _) rfl

theorem inv_deliver {n : Nat} {s : State} {e : Envelope} {net : Network Envelope Stamp}
    (h : Inv n s) (hdel : s.net.deliver e = some net) : Inv n { s with net } where
  roundOk := h.roundOk
  chan p hp r hr := chanOk_frame (h.chan p hp r hr) rfl rfl (queue_deliver hdel _)
  quiet e' he := (queue_deliver hdel e').trans (h.quiet e' he)
  knows := h.knows
  all := h.all

theorem inv_reach {n numCalls : Nat} {s : State} (h : Reach (system n numCalls) s) : Inv n s :=
  h.invariant (inv_init n numCalls) fun _ hi _ hs => by
    rcases next_cases hs with ⟨rank, hrank, p, net, hmove, rfl⟩ | ⟨e, net, hdel, rfl⟩
    · exact inv_put hi hrank hmove
    · exact inv_deliver hi hdel

/-! ## The abstract barrier -/

/-- The program refines the abstract barrier: a rank enters when it starts its loop and
leaves when the loop ends, and every other step is silent. -/
def refinement (n numCalls : Nat) :
    Refinement (system n numCalls) (fun _ _ => True) (Barrier.system (Fin n)) (fun _ _ => True) where
  abs s := ⟨fun i => (s.procs i).entered, fun i => (s.procs i).calls⟩
  init := rfl
  step := by
    intro s t a hr _ hs
    have hinv := inv_reach hr
    rcases next_cases hs with ⟨rank, hrank, p, net, hmove, rfl⟩ | ⟨e, net, hdel, rfl⟩
    · refine (Barrier.step_of_local ⟨rank, hrank⟩ (fun j hj => ?_) ?_).imp_right fun ⟨b, hb⟩ => ⟨b, trivial, hb⟩
      · have hne : (j : Nat) ≠ rank := fun he => hj (Fin.ext he)
        simp only [put_of_ne s p net hne, and_self]
      · generalize hpc : s.procs rank = p₀ at hmove
        cases hmove with
        | enter hlt => exact .enter (by simp [hpc, Proc.entered]) (by simp [hpc, Proc.entered]) (by simp [hpc])
        | send hround => exact .silent (by simp [hpc, Proc.entered]) (by simp [hpc])
        | recv hrecv => exact .silent (by simp [hpc, Proc.entered]) (by simp [hpc])
        | leave hround =>
          obtain rfl := loop_done hinv hrank hpc hround
          refine .leave (fun j => ?_) (by simp [hpc, Proc.entered]) (by simp [hpc])
          simp only [hpc]
          exact all_of_done hinv hrank hpc j.isLt
    · exact .inl rfl

/-! ## Progress -/

/-- `rank` waits in `MPI_Recv` for a message that has not been sent. -/
def Blocked (n : Nat) (s : State) (rank : Nat) : Prop :=
  ∃ round, (s.procs rank).pc = .recv round ∧ s.net.queue (recvEnvelope n rank round) = []

/-- How far a rank is within a call. -/
def Pc.stage : Pc → Nat
  | .outside => 0
  | .loop round => 2 * round + 1
  | .recv round => 2 * round + 2

/-- A rank that is no further than `q` in calls and rounds finds the message of `q`. -/
theorem sent_of_le {p q : Proc} {round : Nat} (hpc : p.pc = .recv round)
    (hle : toLex (p.calls, p.pc.stage) ≤ toLex (q.calls, q.pc.stage)) :
    p.calls < q.sent round := by
  rw [Prod.Lex.toLex_le_toLex] at hle
  simp only [hpc, Pc.stage] at hle
  unfold Proc.sent
  rcases hle with hlt | ⟨heq, hstage⟩
  · split <;> (try split) <;> omega
  · split <;> next hq =>
      rw [hq] at hstage
      simp only at hstage
      first
        | omega
        | rw [if_pos (by omega)]; omega

/-- Among the ranks with calls to make, the one that is least far is not blocked. -/
theorem exists_unblocked {n numCalls : Nat} {s : State} (h : Inv n s) {p : Nat} (hp : p < n)
    (hcalls : (s.procs p).calls < numCalls) :
    ∃ q < n, (s.procs q).calls < numCalls ∧ ¬ Blocked n s q := by
  obtain ⟨q, hq, hmin⟩ := Finset.exists_min_image (Finset.range n)
    (fun x => toLex ((s.procs x).calls, (s.procs x).pc.stage)) ⟨p, Finset.mem_range.mpr hp⟩
  rw [Finset.mem_range] at hq
  have hle := hmin p (Finset.mem_range.mpr hp)
  rw [Prod.Lex.toLex_le_toLex] at hle
  refine ⟨q, hq, by simp only at hle; omega, ?_⟩
  rintro ⟨round, hpc, hempty⟩
  have hround : round < numRounds n := by simpa [Proc.RoundOk, hpc] using h.roundOk q hq
  have hq' : s.procs q = ⟨(s.procs q).calls, .recv round⟩ := by rw [← hpc]
  have hsent := sent_of_le hpc (hmin _ (Finset.mem_range.mpr (recvFrom_lt q hround)))
  exact (recv_chan h hq hq').queue_ne_nil hsent hempty

/-- A rank that has calls to make and is not blocked lets the system take a step. -/
theorem next_of_unblocked {n numCalls : Nat} {s : State} {p : Nat} (hp : p < n)
    (hcalls : (s.procs p).calls < numCalls) (hfree : ¬ Blocked n s p) :
    ¬ Stuck (system n numCalls) s := by
  have hproc : (gtmpiBarrier (gtmpiInit n) numCalls p s).isSome → ¬ Stuck (system n numCalls) s :=
    fun hsome => not_stuck (.proc p) (by simpa [system, hp] using hsome)
  rcases hpc : s.procs p with ⟨calls, pc⟩
  rw [hpc] at hcalls
  have hcalls : calls < numCalls := hcalls
  cases pc with
  | outside => exact hproc (by simp [gtmpiBarrier, hpc, hcalls])
  | loop round =>
    by_cases hround : round < (gtmpiInit n).numRounds
    · exact hproc (by simp [gtmpiBarrier, hpc, hround])
    · exact hproc (by simp [gtmpiBarrier, hpc, hround])
  | recv round =>
    have hne : s.net.queue (recvEnvelope n p round) ≠ [] := fun he =>
      hfree ⟨round, by rw [hpc], he⟩
    rcases recv_or_deliver hne with ⟨m, net, hrecv⟩ | ⟨net, hdel⟩
    · exact hproc (by simp [gtmpiBarrier, gtmpiInit, hpc, hrecv])
    · exact not_stuck (.deliver (recvEnvelope n p round)) (by simp [system, hdel])

/-- When all ranks are between calls and have made equally many, every channel is empty. -/
theorem queue_eq_nil_of_outside {n k : Nat} {s : State} (h : Inv n s)
    (hout : ∀ p < n, s.procs p = ⟨k, .outside⟩) (e : Envelope) : s.net.queue e = [] := by
  by_cases he : ∃ p < n, ∃ r < numRounds n, e = sendEnvelope n p r
  · obtain ⟨p, hp, r, hr, rfl⟩ := he
    refine (h.chan p hp r hr).queue_eq_nil ?_
    rw [hout p hp, hout _ (sendTo_lt (by omega) p r)]
    rfl
  · refine h.quiet e fun p hp r hr he' => he ⟨p, hp, r, hr, he'⟩

/-! ## The barrier -/

/-- One call of three ranks, in lockstep. -/
def threeRanks : List Action :=
  [.proc 0, .proc 1, .proc 2, .proc 0, .proc 1, .proc 2,
    .deliver ⟨0, 1, 1⟩, .deliver ⟨1, 2, 1⟩, .deliver ⟨2, 0, 1⟩, .proc 0, .proc 1, .proc 2,
    .proc 0, .proc 1, .proc 2, .deliver ⟨0, 2, 1⟩, .deliver ⟨1, 0, 1⟩, .deliver ⟨2, 1, 1⟩,
    .proc 0, .proc 1, .proc 2, .proc 0, .proc 1, .proc 2]

end AdvancedOS.Gtmpi1
