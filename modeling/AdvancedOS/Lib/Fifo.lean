import Mathlib.Logic.Function.Basic

/-!
# Networks of FIFO channels

One channel per key `κ` (for message passing: a source, a destination and a tag). A
message is first on the wire, then in the mailbox of its destination, and is matched from
there. Delivery and matching keep the order of the channel; nothing relates two channels,
so messages of different channels overtake each other freely.

The lemmas are about `queue`, all that has been sent on a channel and not yet matched:
sending appends to it, delivering does not change it, matching takes its head.

`Counted net k mk a b` is the usual invariant of a channel whose messages are numbered: `b`
messages `mk 1, …, mk b` have been sent, the first `a` of them have been matched, and the
channel holds the others in order. `Counted.send`, `Counted.recv`, `Counted.deliver` and
`Counted.frame` say how the operations change it.
-/

namespace Fifo

variable {κ μ : Type}

/-- The channels of a network: what is on the wire and what has been delivered. -/
structure Network (κ μ : Type) where
  wire : κ → List μ
  mailbox : κ → List μ

namespace Network

/-- No message anywhere. -/
def empty : Network κ μ := ⟨fun _ => [], fun _ => []⟩

/-- Everything sent on channel `k` and not yet matched, oldest first. -/
def queue (net : Network κ μ) (k : κ) : List μ := net.mailbox k ++ net.wire k

/-- The message a receive would match is the head of the channel. -/
theorem head?_queue_of_mailbox {net : Network κ μ} {k : κ} {m : μ}
    (h : (net.mailbox k).head? = some m) : (net.queue k).head? = some m := by
  simp [queue, h]

variable [DecidableEq κ]

/-- A buffered send: it never blocks. -/
def send (net : Network κ μ) (k : κ) (m : μ) : Network κ μ :=
  { net with wire := Function.update net.wire k (net.wire k ++ [m]) }

/-- The oldest message on the wire of `k` arrives at its destination. -/
def deliver (net : Network κ μ) (k : κ) : Option (Network κ μ) :=
  match net.wire k with
  | [] => none
  | m :: rest =>
    some { wire := Function.update net.wire k rest,
           mailbox := Function.update net.mailbox k (net.mailbox k ++ [m]) }

/-- Match the oldest delivered message of `k`. -/
def recv (net : Network κ μ) (k : κ) : Option (μ × Network κ μ) :=
  match net.mailbox k with
  | [] => none
  | m :: rest => some (m, { net with mailbox := Function.update net.mailbox k rest })

theorem queue_send_self (net : Network κ μ) (k : κ) (m : μ) :
    (net.send k m).queue k = net.queue k ++ [m] := by
  simp [queue, send]

theorem queue_send_of_ne (net : Network κ μ) {k j : κ} (m : μ) (h : j ≠ k) :
    (net.send k m).queue j = net.queue j := by
  simp [queue, send, h]

theorem queue_deliver {net net' : Network κ μ} {k : κ} (h : net.deliver k = some net') (j : κ) :
    net'.queue j = net.queue j := by
  unfold deliver at h
  split at h
  · cases h
  · next m rest hw =>
    cases h
    by_cases hj : j = k
    · subst hj; simp [queue, hw]
    · simp [queue, hj]

/-- A matched message is the head of its channel. -/
theorem queue_recv_self {net net' : Network κ μ} {k : κ} {m : μ} (h : net.recv k = some (m, net')) :
    net.queue k = m :: net'.queue k := by
  unfold recv at h
  split at h
  · cases h
  · next m' rest hm =>
    cases h
    simp [queue, hm]

theorem queue_recv_of_ne {net net' : Network κ μ} {k j : κ} {m : μ} (hj : j ≠ k)
    (h : net.recv k = some (m, net')) : net'.queue j = net.queue j := by
  unfold recv at h
  split at h
  · cases h
  · cases h; simp [queue, hj]

/-- A channel with an unmatched message is never stuck: the message can be matched, or
delivered. -/
theorem recv_or_deliver {net : Network κ μ} {k : κ} (h : net.queue k ≠ []) :
    (∃ m net', net.recv k = some (m, net')) ∨ ∃ net', net.deliver k = some net' := by
  unfold recv deliver
  cases hm : net.mailbox k with
  | cons m rest => exact .inl ⟨m, _, rfl⟩
  | nil =>
    cases hw : net.wire k with
    | cons m rest => exact .inr ⟨_, rfl⟩
    | nil => exact absurd (by simp [queue, hm, hw]) h

end Network

/-! ## Numbered channels -/

/-- The messages number `a + 1, …, b`. -/
def window (mk : Nat → μ) (a b : Nat) : List μ := (List.range' (a + 1) (b - a)).map mk

theorem window_self (mk : Nat → μ) (a : Nat) : window mk a a = [] := by
  simp [window]

theorem window_succ {mk : Nat → μ} {a b : Nat} (h : a ≤ b) :
    window mk a (b + 1) = window mk a b ++ [mk (b + 1)] := by
  have hlen : b + 1 - a = (b - a) + 1 := by omega
  have hlast : a + 1 + 1 * (b - a) = b + 1 := by omega
  rw [window, hlen, List.range'_concat, List.map_append, hlast]
  rfl

theorem window_cons {mk : Nat → μ} {a b : Nat} (h : a < b) :
    window mk a b = mk (a + 1) :: window mk (a + 1) b := by
  have hlen : b - a = (b - (a + 1)) + 1 := by omega
  rw [window, hlen, List.range'_succ]
  rfl

/-- `b` numbered messages were sent on channel `k`, and the first `a` were matched. -/
def Counted (net : Network κ μ) (k : κ) (mk : Nat → μ) (a b : Nat) : Prop :=
  a ≤ b ∧ net.queue k = window mk a b

namespace Counted

variable {net net' : Network κ μ} {k j : κ} {mk : Nat → μ} {a b : Nat}

theorem empty (k : κ) (mk : Nat → μ) (a : Nat) : Counted (Network.empty : Network κ μ) k mk a a :=
  ⟨Nat.le_refl a, (window_self mk a).symm⟩

theorem frame (h : Counted net k mk a b) (hqueue : net'.queue k = net.queue k) :
    Counted net' k mk a b := ⟨h.1, hqueue.trans h.2⟩

/-- The head of a channel is the first message not yet matched. -/
theorem head (h : Counted net k mk a b) {m : μ} {rest : List μ} (hqueue : net.queue k = m :: rest) :
    a < b ∧ m = mk (a + 1) ∧ rest = window mk (a + 1) b := by
  have hne : a ≠ b := by
    rintro rfl
    rw [h.2, window_self] at hqueue
    cases hqueue
  have hlt : a < b := Nat.lt_of_le_of_ne h.1 hne
  rw [h.2, window_cons hlt] at hqueue
  cases hqueue
  exact ⟨hlt, rfl, rfl⟩

theorem queue_eq_nil (h : Counted net k mk a b) (hab : a = b) : net.queue k = [] := by
  rw [h.2, hab, window_self]

theorem queue_ne_nil (h : Counted net k mk a b) (hab : a < b) : net.queue k ≠ [] := by
  rw [h.2, window_cons hab]
  exact List.cons_ne_nil _ _

section

variable [DecidableEq κ]

theorem send (h : Counted net k mk a b) : Counted (net.send k (mk (b + 1))) k mk a (b + 1) :=
  ⟨Nat.le_succ_of_le h.1, by rw [Network.queue_send_self, h.2, window_succ h.1]⟩

theorem recv (h : Counted net k mk a b) {m : μ} (hrecv : net.recv k = some (m, net')) :
    a < b ∧ m = mk (a + 1) ∧ Counted net' k mk (a + 1) b := by
  obtain ⟨hlt, hm, hrest⟩ := h.head (Network.queue_recv_self hrecv)
  exact ⟨hlt, hm, hlt, hrest⟩

theorem deliver (h : Counted net k mk a b) (hdel : net.deliver j = some net') :
    Counted net' k mk a b := h.frame (Network.queue_deliver hdel k)

end

end Counted

end Fifo
