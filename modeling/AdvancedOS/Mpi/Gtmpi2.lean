import AdvancedOS.Lib.Barrier
import AdvancedOS.Lib.Heap
import AdvancedOS.Mpi.Dissemination

/-!
# The tree barrier `gtmpi2`

`system numProcesses numCalls` is the program of `harness.c` over `gtmpi2.c`. Arrivals go up a
4-ary tree, wake-ups come down a binary tree over the same ranks. All messages have tag 0,
and a rank takes the arrivals of its children from `MPI_ANY_SOURCE`.

Two facts carry the proof. An arrival goes to a smaller rank and a wake-up to a larger one,
so no channel carries both (`Inv.arr`, `Inv.wak`). And a rank is woken only when every rank
has arrived (`woken_le_arrived`), because a wake-up comes down from the root, and the root
starts it when the arrivals of its children, of their children, and so on have been taken.
So while a rank takes arrivals, its children can have sent arrivals of its own call only,
and nothing else can reach it (`take_ok`).
-/

namespace AdvancedOS.Gtmpi2

open Lts Fifo Fifo.Network Heap

/-! ## The program -/

inductive Kind
  | arrival
  | wakeup
  deriving DecidableEq, Repr

/-- The messages are empty (`NULL, 0`). The stamp records in which call and for what a message
was sent; no step looks at it. -/
structure Stamp where
  call : Nat
  kind : Kind
  deriving DecidableEq, Repr

/-- `rank * 4 + 1`. -/
def firstChild (rank : Nat) : Nat := rank * 4 + 1

/-- `num_processes - first_child`, clamped to `0, …, 4`. -/
def numChildren (numProcesses rank : Nat) : Nat :=
  let num : Int := (numProcesses : Int) - firstChild rank
  if num < 0 then 0 else if num > 4 then 4 else num.toNat

/-- The condition of the `assert` on the source of an arrival. -/
def sourceOk (numProcesses rank source : Nat) : Bool :=
  source ≥ firstChild rank && source ≤ firstChild rank + numChildren numProcesses rank

/-- Where a rank is: between two calls, at the head of the `MPI_ANY_SOURCE` loop, in the receive
of its wake-up, at the head of the wake-up loop, or stopped by the `assert`. -/
inductive Pc
  | outside
  | gather (finishedChildren : Nat)
  | waitWake
  | wake (i k : Nat)
  | aborted
  deriving DecidableEq, Repr

/-- A rank. `got` records the sources and stamps of the messages that the `MPI_ANY_SOURCE` loop
of the last call consumed; no step looks at it. -/
structure Proc where
  calls : Nat
  pc : Pc
  got : List (Nat × Stamp)
  deriving DecidableEq, Repr

structure State where
  procs : Nat → Proc
  net : Network Envelope Stamp

/-- A rank takes its next step; in the `MPI_ANY_SOURCE` receive the step also says which
message is matched. -/
inductive Action
  | proc (rank : Nat)
  | recvAny (rank source : Nat)
  | deliver (e : Envelope)
  deriving DecidableEq, Repr

def State.put (s : State) (rank : Nat) (p : Proc) (net : Network Envelope Stamp) : State :=
  { procs := Function.update s.procs rank p, net }

/-- The next operation of `rank` in `gtmpi_barrier`, or the start of its next call. -/
def gtmpiBarrier (numProcesses numCalls rank : Nat) (s : State) : Option State :=
  match s.procs rank with
  | ⟨calls, .outside, _⟩ =>
    if calls < numCalls then some (s.put rank ⟨calls, .gather 0, []⟩ s.net) else none
  | ⟨calls, .gather finishedChildren, got⟩ =>
    if finishedChildren < numChildren numProcesses rank then none
    else if rank ≠ 0 then
      some (s.put rank ⟨calls, .waitWake, got⟩
        (s.net.send ⟨rank, (rank - 1) / 4, 0⟩ ⟨calls + 1, .arrival⟩))
    else some (s.put rank ⟨calls, .wake (rank * 2 + 1) 0, got⟩ s.net)
  | ⟨calls, .waitWake, got⟩ =>
    (s.net.recv ⟨(rank - 1) / 2, rank, 0⟩).map fun (_, net) =>
      s.put rank ⟨calls, .wake (rank * 2 + 1) 0, got⟩ net
  | ⟨calls, .wake i k, got⟩ =>
    if i < numProcesses ∧ k < 2 then
      some (s.put rank ⟨calls, .wake (i + 1) (k + 1), got⟩
        (s.net.send ⟨rank, i, 0⟩ ⟨calls + 1, .wakeup⟩))
    else some (s.put rank ⟨calls + 1, .outside, got⟩ s.net)
  | ⟨_, .aborted, _⟩ => none

/-- `MPI_Recv` from `MPI_ANY_SOURCE` matches the oldest delivered message of any one source. -/
def recvAny (numProcesses rank source : Nat) (s : State) : Option State :=
  match s.procs rank with
  | ⟨calls, .gather finishedChildren, got⟩ =>
    if finishedChildren < numChildren numProcesses rank then
      (s.net.recv ⟨source, rank, 0⟩).map fun (m, net) =>
        if sourceOk numProcesses rank source then
          s.put rank ⟨calls, .gather (finishedChildren + 1), got ++ [(source, m)]⟩ net
        else s.put rank ⟨calls, .aborted, got⟩ net
    else none
  | _ => none

def system (numProcesses numCalls : Nat) : System State Action where
  init := { procs := fun _ => ⟨0, .outside, []⟩, net := .empty }
  next
    | .proc rank, s =>
      if rank < numProcesses then gtmpiBarrier numProcesses numCalls rank s else none
    | .recvAny rank source, s =>
      if rank < numProcesses then recvAny numProcesses rank source s else none
    | .deliver e, s => (s.net.deliver e).map fun net => { s with net }

/-! ## The trees -/

theorem numChildren_eq (n rank : Nat) : numChildren n rank = (children 4 n rank).length := by
  have hfirst : firstChild rank = rank * 4 + 1 := rfl
  rw [length_children]
  unfold numChildren
  simp only
  split
  · omega
  · split <;> omega

/-- The `assert` admits one source too many, but every child passes it. -/
theorem sourceOk_of_child {n rank c : Nat} (h : c ∈ children 4 n rank) : sourceOk n rank c = true := by
  have hfirst : firstChild rank = rank * 4 + 1 := rfl
  have hlen := numChildren_eq n rank
  rw [length_children] at hlen
  rw [children, List.mem_range'_1] at h
  have hlo : firstChild rank ≤ c := by omega
  have hhi : c ≤ firstChild rank + numChildren n rank := by omega
  simp [sourceOk, hlo, hhi]

/-- The channel on which `c` sends its arrivals. -/
def arrivalEnvelope (c : Nat) : Envelope := ⟨c, parent 4 c, 0⟩

/-- The channel on which `r` gets its wake-ups. -/
def wakeEnvelope (r : Nat) : Envelope := ⟨parent 2 r, r, 0⟩

/-- Arrivals go to a smaller rank and wake-ups to a larger one. -/
theorem arrival_ne_wake {c r : Nat} (hc : c ≠ 0) : arrivalEnvelope c ≠ wakeEnvelope r := by
  intro h
  simp only [arrivalEnvelope, wakeEnvelope, Envelope.mk.injEq] at h
  obtain ⟨hsource, hdest, -⟩ := h
  have h1 := parent_lt (k := 4) hc
  have h2 := parent_le 2 r
  omega

theorem arrivalEnvelope_inj {c d : Nat} (h : arrivalEnvelope c = arrivalEnvelope d) : c = d :=
  congrArg Envelope.source h

theorem wakeEnvelope_inj {r q : Nat} (h : wakeEnvelope r = wakeEnvelope q) : r = q :=
  congrArg Envelope.dest h

/-! ## What a step can do -/

/-- The steps of one rank: from what to what, and what they do to the network. -/
inductive ProcMove (n numCalls rank : Nat) (net : Network Envelope Stamp) :
    Proc → Proc → Network Envelope Stamp → Prop
  | enter {calls got} : calls < numCalls →
      ProcMove n numCalls rank net ⟨calls, .outside, got⟩ ⟨calls, .gather 0, []⟩ net
  | take {calls f got source m net'} : f < numChildren n rank → sourceOk n rank source = true →
      net.recv ⟨source, rank, 0⟩ = some (m, net') →
      ProcMove n numCalls rank net ⟨calls, .gather f, got⟩
        ⟨calls, .gather (f + 1), got ++ [(source, m)]⟩ net'
  | abort {calls f got source m net'} : f < numChildren n rank → sourceOk n rank source = false →
      net.recv ⟨source, rank, 0⟩ = some (m, net') →
      ProcMove n numCalls rank net ⟨calls, .gather f, got⟩ ⟨calls, .aborted, got⟩ net'
  | up {calls f got} : ¬ f < numChildren n rank → rank ≠ 0 →
      ProcMove n numCalls rank net ⟨calls, .gather f, got⟩ ⟨calls, .waitWake, got⟩
        (net.send (arrivalEnvelope rank) ⟨calls + 1, .arrival⟩)
  | top {calls f got} : ¬ f < numChildren n rank → rank = 0 →
      ProcMove n numCalls rank net ⟨calls, .gather f, got⟩ ⟨calls, .wake (rank * 2 + 1) 0, got⟩ net
  | woken {calls got m net'} : net.recv (wakeEnvelope rank) = some (m, net') →
      ProcMove n numCalls rank net ⟨calls, .waitWake, got⟩ ⟨calls, .wake (rank * 2 + 1) 0, got⟩ net'
  | wake {calls i k got} : i < n → k < 2 →
      ProcMove n numCalls rank net ⟨calls, .wake i k, got⟩ ⟨calls, .wake (i + 1) (k + 1), got⟩
        (net.send ⟨rank, i, 0⟩ ⟨calls + 1, .wakeup⟩)
  | leave {calls i k got} : ¬ (i < n ∧ k < 2) →
      ProcMove n numCalls rank net ⟨calls, .wake i k, got⟩ ⟨calls + 1, .outside, got⟩ net

/-- A step that is not a delivery is a step of one rank. -/
theorem move_of_step {n numCalls : Nat} {s t : State} {a : Action} (ha : ∀ e, a ≠ .deliver e)
    (h : (system n numCalls).next a s = some t) :
    ∃ rank < n, ∃ p net, ProcMove n numCalls rank s.net (s.procs rank) p net ∧ t = s.put rank p net := by
  cases a with
  | proc rank =>
    simp only [system] at h
    split at h
    · next hrank =>
      refine ⟨rank, hrank, ?_⟩
      unfold gtmpiBarrier at h
      split at h
      · next calls got hpc =>
        split at h
        · next hlt => cases h; exact ⟨_, _, hpc ▸ .enter hlt, rfl⟩
        · cases h
      · next calls f got hpc =>
        split at h
        · cases h
        · next hf =>
          split at h
          · next h0 => cases h; exact ⟨_, _, hpc ▸ .up hf h0, rfl⟩
          · next h0 => cases h; exact ⟨_, _, hpc ▸ .top hf (Decidable.of_not_not h0), rfl⟩
      · next calls got hpc =>
        obtain ⟨⟨m, net⟩, hrecv, rfl⟩ := Option.map_eq_some_iff.mp h
        exact ⟨_, _, hpc ▸ .woken hrecv, rfl⟩
      · next calls i k got hpc =>
        split at h
        · next hik => cases h; exact ⟨_, _, hpc ▸ .wake hik.1 hik.2, rfl⟩
        · next hik => cases h; exact ⟨_, _, hpc ▸ .leave hik, rfl⟩
      · cases h
    · cases h
  | recvAny rank source =>
    simp only [system] at h
    split at h
    · next hrank =>
      refine ⟨rank, hrank, ?_⟩
      unfold recvAny at h
      split at h
      · next calls f got hpc =>
        split at h
        · next hf =>
          obtain ⟨⟨m, net⟩, hrecv, ht⟩ := Option.map_eq_some_iff.mp h
          simp only at ht
          split at ht
          · next hok => subst ht; exact ⟨_, _, hpc ▸ .take hf hok hrecv, rfl⟩
          · next hok => subst ht; exact ⟨_, _, hpc ▸ .abort hf (by simpa using hok) hrecv, rfl⟩
        · cases h
      · cases h
    · cases h
  | deliver e => exact absurd rfl (ha e)

theorem next_cases {n numCalls : Nat} {s t : State} {a : Action}
    (h : (system n numCalls).next a s = some t) :
    (∃ rank < n, ∃ p net, ProcMove n numCalls rank s.net (s.procs rank) p net ∧ t = s.put rank p net) ∨
    ∃ e net, s.net.deliver e = some net ∧ t = { s with net } := by
  cases a with
  | proc rank | recvAny rank source => exact .inl (move_of_step (by simp) h)
  | deliver e =>
    obtain ⟨net, hdel, rfl⟩ := Option.map_eq_some_iff.mp h
    exact .inr ⟨e, net, hdel, rfl⟩

@[simp] theorem put_net (s : State) (rank : Nat) (p : Proc) (net : Network Envelope Stamp) :
    (s.put rank p net).net = net := rfl

@[simp] theorem put_self (s : State) (rank : Nat) (p : Proc) (net : Network Envelope Stamp) :
    (s.put rank p net).procs rank = p := Function.update_self _ _ _

theorem put_of_ne (s : State) {rank q : Nat} (p : Proc) (net : Network Envelope Stamp)
    (h : q ≠ rank) : (s.put rank p net).procs q = s.procs q := Function.update_of_ne h _ _

/-- What a step does not change of its rank, it changes of no rank. -/
theorem put_congr {β : Type} (f : Proc → β) {s : State} {rank q : Nat} {p : Proc}
    {net : Network Envelope Stamp} (h : q = rank → f p = f (s.procs q)) :
    f ((s.put rank p net).procs q) = f (s.procs q) := by
  by_cases hq : q = rank
  · rw [← h hq, hq, put_self]
  · rw [put_of_ne s p net hq]

/-! ## What a rank has done -/

/-- The calls a rank has entered. -/
def Proc.entered (p : Proc) : Nat :=
  match p.pc with
  | .outside => p.calls
  | _ => p.calls + 1

/-- The calls in which a rank has taken all arrivals of its children and passed its own on. -/
def Proc.arrived (p : Proc) : Nat :=
  match p.pc with
  | .waitWake | .wake _ _ => p.calls + 1
  | _ => p.calls

/-- The calls in which a rank has been woken. -/
def Proc.woken (p : Proc) : Nat :=
  match p.pc with
  | .wake _ _ => p.calls + 1
  | _ => p.calls

/-- The arrivals a rank has taken from its child `c`. -/
def Proc.taken (p : Proc) (c : Nat) : Nat :=
  match p.pc with
  | .gather _ => if c ∈ p.got.map Prod.fst then p.calls + 1 else p.calls
  | .waitWake | .wake _ _ => p.calls + 1
  | _ => p.calls

/-- The wake-ups a rank has sent to its child `r`. -/
def Proc.wakes (p : Proc) (r : Nat) : Nat :=
  match p.pc with
  | .wake i _ => if r < i then p.calls + 1 else p.calls
  | _ => p.calls

theorem arrived_le_entered (p : Proc) : p.arrived ≤ p.entered := by
  obtain ⟨calls, pc, got⟩ := p
  cases pc <;> simp [Proc.arrived, Proc.entered]

theorem calls_le_woken (p : Proc) : p.calls ≤ p.woken := by
  obtain ⟨calls, pc, got⟩ := p
  cases pc <;> simp [Proc.woken]

theorem woken_le_arrived_self (p : Proc) : p.woken ≤ p.arrived := by
  obtain ⟨calls, pc, got⟩ := p
  cases pc <;> simp [Proc.woken, Proc.arrived]

theorem arrived_le_woken_succ (p : Proc) : p.arrived ≤ p.woken + 1 := by
  obtain ⟨calls, pc, got⟩ := p
  cases pc <;> simp [Proc.woken, Proc.arrived]

theorem arrived_le_taken (p : Proc) (c : Nat) : p.arrived ≤ p.taken c := by
  obtain ⟨calls, pc, got⟩ := p
  cases pc <;> simp only [Proc.arrived, Proc.taken, Nat.le_refl]
  split <;> omega

theorem wakes_le_woken (p : Proc) (r : Nat) : p.wakes r ≤ p.woken := by
  obtain ⟨calls, pc, got⟩ := p
  cases pc <;> simp only [Proc.wakes, Proc.woken, Nat.le_refl]
  split <;> omega

/-! ## The invariant -/

/-- The messages taken in call `k`: from distinct children, sent as arrivals of call `k`. -/
def Gathered (n rank k : Nat) (got : List (Nat × Stamp)) : Prop :=
  (got.map Prod.fst).Nodup ∧ ∀ x ∈ got, x.1 ∈ children 4 n rank ∧ x.2 = ⟨k, .arrival⟩

/-- One message from every child. -/
def Complete (n rank k : Nat) (got : List (Nat × Stamp)) : Prop :=
  Gathered n rank k got ∧ ∀ c ∈ children 4 n rank, c ∈ got.map Prod.fst

/-- The part of the invariant that concerns one rank. -/
def Proc.Ok (n rank : Nat) (p : Proc) : Prop :=
  match p.pc with
  | .outside => p.calls = 0 ∨ Complete n rank p.calls p.got
  | .gather f => f = p.got.length ∧ Gathered n rank (p.calls + 1) p.got
  | .waitWake => rank ≠ 0 ∧ Complete n rank (p.calls + 1) p.got
  | .wake i k => i = rank * 2 + 1 + k ∧ k ≤ 2 ∧ Complete n rank (p.calls + 1) p.got
  | .aborted => False

/-- The arrivals of `c` that its parent has not taken yet are on their way, in order. -/
def ArrOk (s : State) (c : Nat) : Prop :=
  Counted s.net (arrivalEnvelope c) (⟨·, .arrival⟩) ((s.procs (parent 4 c)).taken c)
    (s.procs c).arrived

/-- The wake-ups of `r` that it has not received yet are on their way, in order. -/
def WakOk (s : State) (r : Nat) : Prop :=
  Counted s.net (wakeEnvelope r) (⟨·, .wakeup⟩) (s.procs r).woken
    ((s.procs (parent 2 r)).wakes r)

structure Inv (n : Nat) (s : State) : Prop where
  ok : ∀ p < n, (s.procs p).Ok n p
  arr : ∀ c < n, c ≠ 0 → ArrOk s c
  wak : ∀ r < n, r ≠ 0 → WakOk s r
  quiet : ∀ e, (∀ c < n, c ≠ 0 → e ≠ arrivalEnvelope c ∧ e ≠ wakeEnvelope c) → s.net.queue e = []

theorem inv_init (n numCalls : Nat) : Inv n (system n numCalls).init where
  ok _ _ := .inl rfl
  arr _ _ _ := .empty _ _ 0
  wak _ _ _ := .empty _ _ 0
  quiet _ _ := rfl

/-! ### Nobody is woken before everybody has arrived -/

/-- The arrival of the root says that everybody has arrived. -/
theorem arrived_root_le {n : Nat} {s : State} (h : Inv n s) :
    ∀ c < n, (s.procs 0).arrived ≤ (s.procs c).arrived := by
  refine Heap.induction 4 (fun _ => Nat.le_refl _) fun c hc h0 ih => ?_
  calc (s.procs 0).arrived ≤ (s.procs (parent 4 c)).arrived := ih
    _ ≤ (s.procs (parent 4 c)).taken c := arrived_le_taken _ c
    _ ≤ (s.procs c).arrived := (h.arr c hc h0).1

/-- Whoever is woken, the root was woken before. -/
theorem woken_le_root {n : Nat} {s : State} (h : Inv n s) :
    ∀ r < n, (s.procs r).woken ≤ (s.procs 0).woken := by
  refine Heap.induction 2 (fun _ => Nat.le_refl _) fun r hr h0 ih => ?_
  calc (s.procs r).woken ≤ (s.procs (parent 2 r)).wakes r := (h.wak r hr h0).1
    _ ≤ (s.procs (parent 2 r)).woken := wakes_le_woken _ r
    _ ≤ (s.procs 0).woken := ih

theorem woken_le_arrived {n : Nat} {s : State} (h : Inv n s) {r q : Nat} (hr : r < n) (hq : q < n) :
    (s.procs r).woken ≤ (s.procs q).arrived := by
  calc (s.procs r).woken ≤ (s.procs 0).woken := woken_le_root h r hr
    _ ≤ (s.procs 0).arrived := woken_le_arrived_self _
    _ ≤ (s.procs q).arrived := arrived_root_le h q hq

/-- What the `MPI_ANY_SOURCE` receive can match: an arrival of its own call, from a child that
it has not heard from in this call. -/
theorem take_ok {n rank calls f source : Nat} {got : List (Nat × Stamp)} {s : State} (h : Inv n s)
    (hrank : rank < n) (hpc : s.procs rank = ⟨calls, .gather f, got⟩) {m : Stamp} {rest : List Stamp}
    (hqueue : s.net.queue ⟨source, rank, 0⟩ = m :: rest) :
    source ∈ children 4 n rank ∧ source ∉ got.map Prod.fst ∧ m = ⟨calls + 1, .arrival⟩ := by
  have harrived : (s.procs rank).arrived = calls := by simp [hpc, Proc.arrived]
  have hwoken : (s.procs rank).woken = calls := by simp [hpc, Proc.woken]
  by_cases hused : ∃ c < n, c ≠ 0 ∧
      ((⟨source, rank, 0⟩ : Envelope) = arrivalEnvelope c ∨ ⟨source, rank, 0⟩ = wakeEnvelope c)
  · obtain ⟨c, hc, h0, he | he⟩ := hused
    · -- an arrival of the child `c`
      obtain ⟨rfl, rfl, -⟩ := Envelope.mk.injEq .. ▸ he
      obtain ⟨hlt, hm, -⟩ := (h.arr source hc h0).head hqueue
      have hle : (s.procs source).arrived ≤ calls + 1 := by
        have h1 := arrived_le_woken_succ (s.procs source)
        have h2 := woken_le_arrived h hc hrank
        omega
      have htaken : (s.procs (parent 4 source)).taken source = calls := by
        have h1 := arrived_le_taken (s.procs (parent 4 source)) source
        omega
      refine ⟨(mem_children (by decide)).mpr ⟨h0, hc, rfl⟩, fun hmem => ?_, by rw [hm, htaken]⟩
      simp [hpc, Proc.taken, hmem] at htaken
    · -- a wake-up: everything the parent has sent has been received
      obtain ⟨rfl, rfl, -⟩ := Envelope.mk.injEq .. ▸ he
      obtain ⟨hlt, -, -⟩ := (h.wak rank hrank h0).head hqueue
      have h1 := wakes_le_woken (s.procs (parent 2 rank)) rank
      have h2 := woken_le_arrived h (Nat.lt_of_le_of_lt (parent_le 2 rank) hrank) hrank
      omega
  · have hnil := h.quiet ⟨source, rank, 0⟩ fun c hc h0 =>
      ⟨fun he => hused ⟨c, hc, h0, .inl he⟩, fun he => hused ⟨c, hc, h0, .inr he⟩⟩
    rw [hnil] at hqueue
    cases hqueue

/-! ### Every step keeps the invariant -/

theorem arr_frame {s : State} {rank c : Nat} {p₀ p : Proc} {net : Network Envelope Stamp}
    (hpc : s.procs rank = p₀) (h : ArrOk s c) (harrived : c = rank → p.arrived = p₀.arrived)
    (htaken : parent 4 c = rank → p.taken c = p₀.taken c)
    (hqueue : net.queue (arrivalEnvelope c) = s.net.queue (arrivalEnvelope c)) :
    ArrOk (s.put rank p net) c := by
  subst hpc
  unfold ArrOk
  rw [put_congr (·.taken c) fun hc => by rw [htaken hc, hc],
    put_congr Proc.arrived fun hc => by rw [harrived hc, hc]]
  exact Counted.frame h hqueue

theorem wak_frame {s : State} {rank r : Nat} {p₀ p : Proc} {net : Network Envelope Stamp}
    (hpc : s.procs rank = p₀) (h : WakOk s r) (hwoken : r = rank → p.woken = p₀.woken)
    (hwakes : parent 2 r = rank → p.wakes r = p₀.wakes r)
    (hqueue : net.queue (wakeEnvelope r) = s.net.queue (wakeEnvelope r)) :
    WakOk (s.put rank p net) r := by
  subst hpc
  unfold WakOk
  rw [put_congr (·.wakes r) fun hr => by rw [hwakes hr, hr],
    put_congr Proc.woken fun hr => by rw [hwoken hr, hr]]
  exact Counted.frame h hqueue

theorem ok_put {n rank : Nat} {s : State} {p : Proc} {net : Network Envelope Stamp} (h : Inv n s)
    (hok : p.Ok n rank) (q : Nat) (hq : q < n) : ((s.put rank p net).procs q).Ok n q := by
  by_cases hne : q = rank
  · subst hne; rw [put_self]; exact hok
  · rw [put_of_ne s p net hne]; exact h.ok q hq

/-- A gather loop that has ended has heard from every child. -/
theorem complete_of_gathered {n rank f k : Nat} {got : List (Nat × Stamp)} (hlen : f = got.length)
    (hgot : Gathered n rank k got) (hf : ¬ f < numChildren n rank) : Complete n rank k got := by
  refine ⟨hgot, fun c hc => mem_of_length hgot.1 (fun x hx => ?_) ?_ hc⟩
  · obtain ⟨y, hy, rfl⟩ := List.mem_map.mp hx
    exact (hgot.2 y hy).1
  · rw [List.length_map, ← numChildren_eq]
    omega

/-- Passing from the gather loop to a later place of the same call changes nothing for the
children: their arrivals of this call have all been taken. -/
theorem taken_of_complete {n rank calls f c : Nat} {got : List (Nat × Stamp)} {p : Proc}
    (hcomplete : Complete n rank (calls + 1) got) (hc : c < n) (h0 : c ≠ 0)
    (hparent : parent 4 c = rank) (hp : p.taken c = calls + 1) :
    p.taken c = (Proc.mk calls (.gather f) got).taken c := by
  have hmem := hcomplete.2 c ((mem_children (by decide)).mpr ⟨h0, hc, hparent⟩)
  rw [hp]
  simp [Proc.taken, hmem]

/-- An arrival is taken: its source is a child that had not been heard from. -/
theorem Inv.take {n rank : Nat} {s : State} (h : Inv n s) (hrank : rank < n) {calls f source : Nat} {got : List (Nat × Stamp)}
    {m : Stamp} {net : Network Envelope Stamp}
    (hpc : s.procs rank = ⟨calls, .gather f, got⟩)
    (hrecv : s.net.recv ⟨source, rank, 0⟩ = some (m, net)) :
    Inv n (s.put rank ⟨calls, .gather (f + 1), got ++ [(source, m)]⟩ net) := by
  have hok := h.ok rank hrank
  rw [hpc] at hok
  obtain ⟨hchild, hnew, rfl⟩ := take_ok h hrank hpc (queue_recv_self hrecv)
  obtain ⟨hs0, hsn, rfl⟩ := (mem_children (by decide)).mp hchild
  obtain ⟨hlen, hnodup, hgot⟩ := hok
  have henv : (⟨source, parent 4 source, 0⟩ : Envelope) = arrivalEnvelope source := rfl
  rw [henv] at hrecv
  refine ⟨ok_put h ⟨by simp [hlen], ?_, ?_⟩, fun c hc h0 => ?_, fun r hr h0 => ?_, fun e he => ?_⟩
  · rw [List.map_append]
    exact List.nodup_append.mpr ⟨hnodup, List.nodup_singleton _, fun a ha b hb hab =>
      hnew (by rw [List.map_singleton, List.mem_singleton] at hb; subst hab hb; exact ha)⟩
  · intro x hx
    rcases List.mem_append.mp hx with hx | hx
    · exact hgot x hx
    · rw [List.mem_singleton] at hx
      subst hx
      exact ⟨hchild, rfl⟩
  · by_cases hc' : c = source
    · subst hc'
      have hchan := ((h.arr c hc h0).recv hrecv).2.2
      have htaken : (s.procs (parent 4 c)).taken c = calls := by
        simp [hpc, Proc.taken, hnew]
      have hne : c ≠ parent 4 c := fun he => by have := parent_lt (k := 4) h0; omega
      rw [htaken] at hchan
      rw [ArrOk, put_self, put_of_ne s _ _ hne, put_net]
      simpa [Proc.taken] using hchan
    · refine arr_frame hpc (h.arr c hc h0) (fun _ => rfl) (fun _ => ?_)
        (queue_recv_of_ne (fun he => hc' (arrivalEnvelope_inj he)) hrecv)
      have hiff : c ∈ (got ++ [(source, (⟨calls + 1, .arrival⟩ : Stamp))]).map Prod.fst ↔
          c ∈ got.map Prod.fst := by simp [hc']
      simp only [Proc.taken, hiff]
  · exact wak_frame hpc (h.wak r hr h0) (fun _ => rfl) (fun _ => rfl)
      (queue_recv_of_ne (arrival_ne_wake hs0).symm hrecv)
  · rw [put_net, queue_recv_of_ne (he source hsn hs0).1 hrecv]
    exact h.quiet e he

/-- The parent is told, after all children. -/
theorem Inv.up {n rank : Nat} {s : State} (h : Inv n s) (hrank : rank < n) {calls f : Nat} {got : List (Nat × Stamp)}
    (hpc : s.procs rank = ⟨calls, .gather f, got⟩) (hf : ¬ f < numChildren n rank) (hr0 : rank ≠ 0) :
    Inv n (s.put rank ⟨calls, .waitWake, got⟩
      (s.net.send (arrivalEnvelope rank) ⟨calls + 1, .arrival⟩)) := by
  have hok := h.ok rank hrank
  rw [hpc] at hok
  have hcomplete := complete_of_gathered hok.1 hok.2 hf
  refine ⟨ok_put h ⟨hr0, hcomplete⟩, fun c hc h0 => ?_, fun r hr h0 => ?_, fun e he => ?_⟩
  · by_cases hc' : c = rank
    · subst hc'
      have hne : parent 4 c ≠ c := fun he => by have := parent_lt (k := 4) h0; omega
      have hchan := h.arr c hc h0
      rw [ArrOk, hpc] at hchan
      rw [ArrOk, put_self, put_of_ne s _ _ hne]
      exact hchan.send
    · exact arr_frame hpc (h.arr c hc h0) (fun he => absurd he hc')
        (fun hp => taken_of_complete hcomplete hc h0 hp rfl)
        (queue_send_of_ne _ _ fun he => hc' (arrivalEnvelope_inj he))
  · exact wak_frame hpc (h.wak r hr h0) (fun _ => rfl) (fun _ => rfl)
      (queue_send_of_ne _ _ (arrival_ne_wake hr0).symm)
  · rw [put_net, queue_send_of_ne _ _ (he rank hrank hr0).1]
    exact h.quiet e he

/-- The parent has called. -/
theorem Inv.woken {n rank : Nat} {s : State} (h : Inv n s) (hrank : rank < n) {calls : Nat} {got : List (Nat × Stamp)}
    {m : Stamp} {net : Network Envelope Stamp}
    (hpc : s.procs rank = ⟨calls, .waitWake, got⟩)
    (hrecv : s.net.recv (wakeEnvelope rank) = some (m, net)) :
    Inv n (s.put rank ⟨calls, .wake (rank * 2 + 1) 0, got⟩ net) := by
  have hok := h.ok rank hrank
  rw [hpc] at hok
  obtain ⟨hr0, hcomplete⟩ := hok
  refine ⟨ok_put h ⟨rfl, Nat.zero_le _, hcomplete⟩, fun c hc h0 => ?_, fun r hr h0 => ?_,
    fun e he => ?_⟩
  · exact arr_frame hpc (h.arr c hc h0) (fun _ => rfl) (fun _ => rfl)
      (queue_recv_of_ne (arrival_ne_wake h0) hrecv)
  · by_cases hr' : r = rank
    · subst hr'
      have hne : parent 2 r ≠ r := fun he => by have := parent_lt (k := 2) h0; omega
      have hchan := ((h.wak r hr h0).recv hrecv).2.2
      rw [hpc] at hchan
      rw [WakOk, put_self, put_of_ne s _ _ hne]
      exact hchan
    · refine wak_frame hpc (h.wak r hr h0) (fun he => absurd he hr') (fun hp => ?_)
        (queue_recv_of_ne (fun he => hr' (wakeEnvelope_inj he)) hrecv)
      rw [parent] at hp
      simp only [Proc.wakes]
      rw [if_neg (by omega)]
  · rw [put_net, queue_recv_of_ne (he rank hrank hr0).2 hrecv]
    exact h.quiet e he

/-- One child is called. -/
theorem Inv.wake {n rank : Nat} {s : State} (h : Inv n s) (hrank : rank < n) {calls i k : Nat} {got : List (Nat × Stamp)}
    (hpc : s.procs rank = ⟨calls, .wake i k, got⟩) (hi : i < n) (hk : k < 2) :
    Inv n (s.put rank ⟨calls, .wake (i + 1) (k + 1), got⟩
      (s.net.send ⟨rank, i, 0⟩ ⟨calls + 1, .wakeup⟩)) := by
  have hok := h.ok rank hrank
  rw [hpc] at hok
  obtain ⟨rfl, hk2, hcomplete⟩ := hok
  have hi0 : rank * 2 + 1 + k ≠ 0 := by omega
  have hparent : parent 2 (rank * 2 + 1 + k) = rank := by rw [parent]; omega
  have henv : (⟨rank, rank * 2 + 1 + k, 0⟩ : Envelope) = wakeEnvelope (rank * 2 + 1 + k) := by
    rw [wakeEnvelope, hparent]
  rw [henv]
  refine ⟨ok_put h ⟨by omega, by omega, hcomplete⟩, fun c hc h0 => ?_, fun r hr h0 => ?_,
    fun e he => ?_⟩
  · exact arr_frame hpc (h.arr c hc h0) (fun _ => rfl) (fun _ => rfl)
      (queue_send_of_ne _ _ (arrival_ne_wake h0))
  · by_cases hr' : r = rank * 2 + 1 + k
    · have hne : r ≠ rank := by omega
      have hchan := h.wak r hr h0
      subst hr'
      rw [WakOk, hparent, hpc] at hchan
      rw [WakOk, hparent, put_self, put_of_ne s _ _ hne, put_net]
      simp only [Proc.wakes, Nat.lt_irrefl, if_false] at hchan
      simpa [Proc.wakes] using hchan.send
    · refine wak_frame hpc (h.wak r hr h0) (fun _ => rfl) (fun _ => ?_)
        (queue_send_of_ne _ _ fun he => hr' (wakeEnvelope_inj he))
      have hiff : r < rank * 2 + 1 + k + 1 ↔ r < rank * 2 + 1 + k := by omega
      simp only [Proc.wakes, hiff]
  · rw [put_net, queue_send_of_ne _ _ (he _ hi hi0).2]
    exact h.quiet e he

theorem inv_put {n numCalls rank : Nat} {net : Network Envelope Stamp} {p : Proc} {s : State}
    (h : Inv n s) (hrank : rank < n) (hmove : ProcMove n numCalls rank s.net (s.procs rank) p net) :
    Inv n (s.put rank p net) := by
  have hok := h.ok rank hrank
  generalize hpc : s.procs rank = p₀ at hmove hok
  cases hmove with
  | @enter calls got hlt =>
    refine ⟨ok_put h ⟨rfl, List.nodup_nil, fun _ hx => by cases hx⟩, fun c hc h0 => ?_,
      fun r hr h0 => ?_, h.quiet⟩
    · exact arr_frame hpc (h.arr c hc h0) (fun _ => rfl) (fun _ => rfl) rfl
    · exact wak_frame hpc (h.wak r hr h0) (fun _ => rfl) (fun _ => rfl) rfl
  | take _ _ hrecv => exact h.take hrank hpc hrecv
  | @abort calls f got source m _ hf hbad hrecv =>
    -- the only sources that reach the `assert` are children
    obtain ⟨hchild, -, -⟩ := take_ok h hrank hpc (queue_recv_self hrecv)
    rw [sourceOk_of_child hchild] at hbad
    cases hbad
  | up hf hr0 => exact h.up hrank hpc hf hr0
  | @top calls f got hf hr0 =>
    have hcomplete := complete_of_gathered hok.1 hok.2 hf
    refine ⟨ok_put h ⟨rfl, Nat.zero_le _, hcomplete⟩, fun c hc h0 => ?_, fun r hr h0 => ?_, h.quiet⟩
    · exact arr_frame hpc (h.arr c hc h0) (fun he => absurd (he.trans hr0) h0)
        (fun hp => taken_of_complete hcomplete hc h0 hp rfl) rfl
    · refine wak_frame hpc (h.wak r hr h0) (fun he => absurd (he.trans hr0) h0) (fun _ => ?_) rfl
      subst hr0
      simp only [Proc.wakes]
      rw [if_neg (by omega)]
  | woken hrecv => exact h.woken hrank hpc hrecv
  | wake hi hk => exact h.wake hrank hpc hi hk
  | @leave calls i k got hend =>
    obtain ⟨rfl, hk2, hcomplete⟩ := hok
    refine ⟨ok_put h (.inr hcomplete), fun c hc h0 => ?_, fun r hr h0 => ?_, h.quiet⟩
    · exact arr_frame hpc (h.arr c hc h0) (fun _ => rfl) (fun _ => rfl) rfl
    · refine wak_frame hpc (h.wak r hr h0) (fun _ => rfl) (fun hp => ?_) rfl
      -- the loop has ended, so it has passed the child `r`
      rw [parent] at hp
      simp only [Proc.wakes]
      rw [if_pos (by omega)]

theorem inv_deliver {n : Nat} {s : State} {e : Envelope} {net : Network Envelope Stamp}
    (h : Inv n s) (hdel : s.net.deliver e = some net) : Inv n { s with net } where
  ok := h.ok
  arr c hc h0 := (h.arr c hc h0).deliver hdel
  wak r hr h0 := (h.wak r hr h0).deliver hdel
  quiet e' he := (queue_deliver hdel e').trans (h.quiet e' he)

theorem inv_reach {n numCalls : Nat} {s : State} (h : Reach (system n numCalls) s) : Inv n s :=
  h.invariant (inv_init n numCalls) fun _ hi _ hs => by
    rcases next_cases hs with ⟨rank, hrank, p, net, hmove, rfl⟩ | ⟨e, net, hdel, rfl⟩
    · exact inv_put hi hrank hmove
    · exact inv_deliver hi hdel

/-! ## The abstract barrier -/

/-- A rank whose wake-up loop has ended leaves a call that everybody has entered. -/
theorem entered_of_wake {n rank calls i k : Nat} {got : List (Nat × Stamp)} {s : State} (h : Inv n s)
    (hrank : rank < n) (hpc : s.procs rank = ⟨calls, .wake i k, got⟩) {q : Nat} (hq : q < n) :
    calls + 1 ≤ (s.procs q).entered := by
  have hwoken : (s.procs rank).woken = calls + 1 := by simp [hpc, Proc.woken]
  calc calls + 1 = (s.procs rank).woken := hwoken.symm
    _ ≤ (s.procs q).arrived := woken_le_arrived h hrank hq
    _ ≤ (s.procs q).entered := arrived_le_entered _

/-- The program refines the abstract barrier. -/
def refinement (n numCalls : Nat) :
    Refinement (system n numCalls) (fun _ _ => True) (Barrier.system (Fin n)) (fun _ _ => True) where
  abs s := ⟨fun i => (s.procs i).entered, fun i => (s.procs i).calls⟩
  init := rfl
  step := by
    intro s t a hr _ hs
    have hinv := inv_reach hr
    rcases next_cases hs with ⟨rank, hrank, p, net, hmove, rfl⟩ | ⟨e, net, hdel, rfl⟩
    · refine (Barrier.step_of_local ⟨rank, hrank⟩ (fun j hj => ?_) ?_).imp_right fun ⟨b, hb⟩ => ⟨b, trivial, hb⟩
      · have hne : (j : Nat) ≠ rank := fun he => hj (Fin.ext he)
        simp only [put_of_ne s p net hne, and_self]
      · generalize hpc : s.procs rank = p₀ at hmove
        cases hmove with
        | enter _ =>
          exact .enter (by simp [hpc, Proc.entered]) (by simp [hpc, Proc.entered]) (by simp [hpc])
        | leave _ =>
          refine .leave (fun j => ?_) (by simp [hpc, Proc.entered]) (by simp [hpc])
          simp only [hpc]
          exact entered_of_wake hinv hrank hpc j.isLt
        | take _ _ _ | abort _ _ _ | up _ _ | top _ _ | woken _ | wake _ _ =>
          exact .silent (by simp [hpc, Proc.entered]) (by simp [hpc])
    · exact .inl rfl

/-! ## Progress -/

/-- `rank` waits in an `MPI_Recv` that no message on its way can match. -/
def Blocked (n : Nat) (s : State) (rank : Nat) : Prop :=
  match (s.procs rank).pc with
  | .gather f => f < numChildren n rank ∧ ∀ source, s.net.queue ⟨source, rank, 0⟩ = []
  | .waitWake => s.net.queue (wakeEnvelope rank) = []
  | _ => False

/-- Every rank that has calls to make is blocked. -/
def AllBlocked (n numCalls : Nat) (s : State) : Prop :=
  ∀ p < n, (s.procs p).calls < numCalls → Blocked n s p

/-- Where a blocked rank is. -/
theorem blocked_cases {n numCalls p : Nat} {s : State} (hblocked : AllBlocked n numCalls s)
    (hp : p < n) (hcalls : (s.procs p).calls < numCalls) :
    (∃ f, (s.procs p).pc = .gather f) ∨ (s.procs p).pc = .waitWake := by
  have hb := hblocked p hp hcalls
  unfold Blocked at hb
  split at hb
  · next f hpc => exact .inl ⟨f, hpc⟩
  · next hpc => exact .inr hpc
  · exact hb.elim

/-- Nobody waits for a wake-up of a call in which everybody has arrived: its parent in the
wake-up tree would have to wait as well, and so on up to the root, which never waits. -/
theorem no_wait {n numCalls k : Nat} {s : State} (h : Inv n s) (hblocked : AllBlocked n numCalls s)
    (hk : k < numCalls) (hall : ∀ q < n, k + 1 ≤ (s.procs q).arrived) :
    ∀ r < n, (s.procs r).pc = .waitWake → (s.procs r).calls ≠ k := by
  refine Heap.induction 2 (fun hn hpc _ => ?_) fun r hr h0 ih hpc hcalls => ?_
  · have hok := h.ok 0 hn
    rw [Proc.Ok, hpc] at hok
    exact hok.1 rfl
  · have hw : parent 2 r < n := Nat.lt_of_le_of_lt (parent_le 2 r) hr
    have hwoken : (s.procs r).woken = k := by simp [Proc.woken, hpc, hcalls]
    have hempty : s.net.queue (wakeEnvelope r) = [] := by
      have hb := hblocked r hr (by omega)
      rwa [Blocked, hpc] at hb
    -- the parent has not sent the wake-up of this call
    have hwakes : (s.procs (parent 2 r)).wakes r = k := by
      have hchan := h.wak r hr h0
      rw [WakOk, hwoken] at hchan
      have hle := hchan.1
      by_contra hne
      exact hchan.queue_ne_nil (by omega) hempty
    have harrived := hall _ hw
    have hcalls' : (s.procs (parent 2 r)).calls ≤ k := by
      unfold Proc.wakes at hwakes
      split at hwakes
      · split at hwakes <;> omega
      · omega
    rcases blocked_cases hblocked hw (by omega) with ⟨f, hpc'⟩ | hpc'
    · simp only [Proc.arrived, hpc'] at harrived
      omega
    · simp only [Proc.wakes, hpc'] at hwakes
      exact ih hpc' hwakes

/-- A rank that has not arrived in call `k + 1` keeps everybody else from being woken in it, so
the ranks below which somebody is missing can only wait for each other: with the ranks of a
finite tree that cannot be. -/
theorem no_gather {n numCalls k : Nat} {s : State} (h : Inv n s) (hblocked : AllBlocked n numCalls s)
    (hk : k < numCalls) :
    ∀ d r, r + d = n → ∀ f, (s.procs r).pc = .gather f → (s.procs r).calls = k → r < n → False := by
  intro d
  induction d using Nat.strongRecOn with
  | _ d ih =>
    intro r hd f hpc hcalls hr
    have hb := hblocked r hr (by omega)
    rw [Blocked, hpc] at hb
    have hok := h.ok r hr
    rw [Proc.Ok, hpc] at hok
    -- some child is missing
    obtain ⟨c, hc, hmissing⟩ : ∃ c ∈ children 4 n r, c ∉ (s.procs r).got.map Prod.fst := by
      by_contra hno
      have hsub : ∀ c ∈ children 4 n r, c ∈ (s.procs r).got.map Prod.fst := by
        intro c hc
        by_contra hmem
        exact hno ⟨c, hc, hmem⟩
      have hle := ((nodup_children 4 n r).subperm hsub).length_le
      rw [← numChildren_eq, List.length_map] at hle
      omega
    obtain ⟨h0, hcn, rfl⟩ := (mem_children (by decide)).mp hc
    have htaken : (s.procs (parent 4 c)).taken c = k := by
      simp only [Proc.taken, hpc, if_neg hmissing, hcalls]
    have harrived : (s.procs c).arrived = k := by
      have hchan := h.arr c hcn h0
      rw [ArrOk, htaken] at hchan
      have hle := hchan.1
      by_contra hne
      exact hchan.queue_ne_nil (by omega) (hb.2 c)
    have hcalls' : (s.procs c).calls ≤ k := by
      have h1 := calls_le_woken (s.procs c)
      have h2 := woken_le_arrived_self (s.procs c)
      omega
    have hlt := parent_lt (k := 4) h0
    rcases blocked_cases hblocked hcn (by omega) with ⟨f', hpc'⟩ | hpc'
    · simp only [Proc.arrived, hpc'] at harrived
      exact ih (n - c) (by omega) c (by omega) f' hpc' harrived hcn
    · -- the child still waits for the wake-up of the call before
      simp only [Proc.arrived, hpc'] at harrived
      refine no_wait h hblocked (by omega : (s.procs c).calls < numCalls) (fun q hq => ?_) c hcn hpc' rfl
      have h1 := calls_le_woken (s.procs (parent 4 c))
      have h2 := woken_le_arrived h hr hq
      omega

/-- Some rank with calls to make is not blocked. -/
theorem exists_unblocked {n numCalls p : Nat} {s : State} (h : Inv n s) (hp : p < n)
    (hcalls : (s.procs p).calls < numCalls) :
    ∃ q < n, (s.procs q).calls < numCalls ∧ ¬ Blocked n s q := by
  by_contra hno
  have hblocked : AllBlocked n numCalls s := by
    intro q hq hqc
    by_contra hb
    exact hno ⟨q, hq, hqc, hb⟩
  have hgather : ∀ q < n, ∀ f, (s.procs q).pc = .gather f → numCalls ≤ (s.procs q).calls := by
    intro q hq f hpc
    by_contra hlt
    exact no_gather h hblocked (by omega) (n - q) q (by omega) f hpc rfl hq
  rcases blocked_cases hblocked hp hcalls with ⟨f, hpc⟩ | hpc
  · have := hgather p hp f hpc
    omega
  · refine no_wait h hblocked hcalls (fun q hq => ?_) p hp hpc rfl
    have hwoken : (s.procs p).calls ≤ (s.procs q).arrived :=
      Nat.le_trans (calls_le_woken _) (woken_le_arrived h hp hq)
    by_contra hlt
    have harrived : (s.procs q).arrived = (s.procs p).calls := by omega
    have hqc : (s.procs q).calls < numCalls := by
      have h1 := calls_le_woken (s.procs q)
      have h2 := woken_le_arrived_self (s.procs q)
      omega
    rcases blocked_cases hblocked hq hqc with ⟨f, hpc'⟩ | hpc'
    · have := hgather q hq f hpc'
      omega
    · -- `q` waits for the wake-up of the call before, in which everybody has arrived
      simp only [Proc.arrived, hpc'] at harrived
      refine no_wait h hblocked hqc (fun x hx => ?_) q hq hpc' rfl
      have h1 := Nat.le_trans (calls_le_woken _) (woken_le_arrived h hp hx)
      omega

/-- A rank that has calls to make and is not blocked lets the system take a step. -/
theorem next_of_unblocked {n numCalls p : Nat} {s : State} (h : Inv n s) (hp : p < n)
    (hcalls : (s.procs p).calls < numCalls) (hfree : ¬ Blocked n s p) :
    ¬ Stuck (system n numCalls) s := by
  have hok := h.ok p hp
  have hproc : (gtmpiBarrier n numCalls p s).isSome → ¬ Stuck (system n numCalls) s :=
    fun hsome => not_stuck (.proc p) (by simpa [system, hp] using hsome)
  rcases hpc : s.procs p with ⟨calls, pc, got⟩
  rw [hpc] at hcalls hok
  have hcalls : calls < numCalls := hcalls
  cases pc with
  | outside => exact hproc (by simp [gtmpiBarrier, hpc, hcalls])
  | gather f =>
    by_cases hf : f < numChildren n p
    · obtain ⟨source, hne⟩ : ∃ source, s.net.queue ⟨source, p, 0⟩ ≠ [] := by
        by_contra hno
        refine hfree ?_
        rw [Blocked, hpc]
        exact ⟨hf, fun source => by by_contra hne; exact hno ⟨source, hne⟩⟩
      rcases recv_or_deliver hne with ⟨m, net, hrecv⟩ | ⟨net, hdel⟩
      · exact not_stuck (.recvAny p source) (by simp [system, hp, recvAny, hpc, hf, hrecv])
      · exact not_stuck (.deliver ⟨source, p, 0⟩) (by simp [system, hdel])
    · by_cases h0 : p ≠ 0
      · exact hproc (by simp [gtmpiBarrier, hpc, hf, h0])
      · exact hproc (by simp [gtmpiBarrier, hpc, hf, h0])
  | waitWake =>
    have hne : s.net.queue (wakeEnvelope p) ≠ [] := fun he => hfree (by rw [Blocked, hpc]; exact he)
    rcases recv_or_deliver hne with ⟨m, net, hrecv⟩ | ⟨net, hdel⟩
    · have hrecv' : s.net.recv ⟨(p - 1) / 2, p, 0⟩ = some (m, net) := hrecv
      exact hproc (by simp [gtmpiBarrier, hpc, hrecv'])
    · exact not_stuck (.deliver (wakeEnvelope p)) (by simp [system, hdel])
  | wake i k =>
    by_cases hik : i < n ∧ k < 2
    · exact hproc (by simp [gtmpiBarrier, hpc, hik])
    · exact hproc (by simp only [gtmpiBarrier, hpc, if_neg hik, Option.isSome_some])
  | aborted => exact hok.elim

/-- When all ranks are between calls and have made equally many, every channel is empty. -/
theorem queue_eq_nil_of_outside {n k : Nat} {s : State} (h : Inv n s)
    (hout : ∀ p < n, (s.procs p).pc = .outside ∧ (s.procs p).calls = k) (e : Envelope) :
    s.net.queue e = [] := by
  have hcount : ∀ p < n, (s.procs p).arrived = k ∧ (s.procs p).woken = k ∧
      (∀ c, (s.procs p).taken c = k) ∧ ∀ r, (s.procs p).wakes r = k := by
    intro p hp
    obtain ⟨hpc, hcalls⟩ := hout p hp
    simp [Proc.arrived, Proc.woken, Proc.taken, Proc.wakes, hpc, hcalls]
  by_cases hused : ∃ c < n, c ≠ 0 ∧ (e = arrivalEnvelope c ∨ e = wakeEnvelope c)
  · obtain ⟨c, hc, h0, rfl | rfl⟩ := hused
    · refine (h.arr c hc h0).queue_eq_nil ?_
      have hparent := hcount (parent 4 c) (Nat.lt_of_le_of_lt (parent_le 4 c) hc)
      rw [hparent.2.2.1 c, (hcount c hc).1]
    · refine (h.wak c hc h0).queue_eq_nil ?_
      have hparent := hcount (parent 2 c) (Nat.lt_of_le_of_lt (parent_le 2 c) hc)
      rw [hparent.2.2.2 c, (hcount c hc).2.1]
  · exact h.quiet e fun c hc h0 =>
      ⟨fun he => hused ⟨c, hc, h0, .inl he⟩, fun he => hused ⟨c, hc, h0, .inr he⟩⟩

/-! ## The barrier -/

/-- What a finished gather loop has consumed: one arrival of its call from every child. -/
theorem perm_of_complete {n rank k : Nat} {got : List (Nat × Stamp)} (h : Complete n rank k got) :
    got.Perm ((children 4 n rank).map fun c => (c, (⟨k, .arrival⟩ : Stamp))) := by
  obtain ⟨⟨hnodup, hgot⟩, hall⟩ := h
  have hperm : (got.map Prod.fst).Perm (children 4 n rank) := by
    refine (List.perm_ext_iff_of_nodup hnodup (nodup_children 4 n rank)).mpr fun c => ⟨fun hc => ?_, hall c⟩
    obtain ⟨x, hx, rfl⟩ := List.mem_map.mp hc
    exact (hgot x hx).1
  have hself : (got.map Prod.fst).map (fun c => (c, (⟨k, .arrival⟩ : Stamp))) = got := by
    have hid : ∀ x ∈ got, ((fun c => (c, (⟨k, .arrival⟩ : Stamp))) ∘ Prod.fst) x = id x :=
      fun x hx => Prod.ext rfl (hgot x hx).2.symm
    rw [List.map_map, List.map_congr_left hid, List.map_id]
  rw [← hself]
  exact hperm.map _

/-- One call of three ranks: 1 and 2 arrive at 0, which wakes both. -/
def threeRanks : List Action :=
  [.proc 0, .proc 1, .proc 2, .proc 2, .proc 1, .deliver ⟨2, 0, 0⟩, .deliver ⟨1, 0, 0⟩,
    .recvAny 0 2, .recvAny 0 1, .proc 0, .proc 0, .proc 0, .proc 0,
    .deliver ⟨0, 1, 0⟩, .deliver ⟨0, 2, 0⟩, .proc 1, .proc 1, .proc 2, .proc 2]

end AdvancedOS.Gtmpi2
