import AdvancedOS.Lib.Fifo
import AdvancedOS.Lib.Ranks

/-!
# The dissemination rounds

`gtmpi1.c` and `combined.c` run the same rounds: in round `round` a rank sends an empty
message to the rank `1 << round` ahead of it and receives one from the rank `1 << round`
behind it. This module has the ranks of these two calls as both files compute them, the
envelopes of MPI messages, and the ring arithmetic of the two ranks.

An MPI message is matched by its source, destination and tag, and messages of one
envelope do not overtake each other, so the network has one FIFO channel per envelope. The
messages are empty (`NULL, 0`). What travels on the model's channels is a stamp, the call
and the round in which the message was sent; no step of the model looks at it.
-/

namespace AdvancedOS

open Fifo Ranks

/-- What MPI matches a message by. -/
structure Envelope where
  source : Nat
  dest : Nat
  tag : Nat
  deriving DecidableEq, Repr

namespace Dissemination

/-- The call and the round a message was sent in. -/
structure Stamp where
  call : Nat
  round : Nat
  deriving DecidableEq, Repr

/-- `ceil(log2(num_processes))`. -/
def numRounds (numProcesses : Nat) : Nat := Nat.clog 2 numProcesses

/-- `(rank + (1 << round)) % num_process`. -/
def sendTo (numProcess rank round : Nat) : Nat := (rank + 1 <<< round) % numProcess

/-- `(rank - (1 << round) + num_process) % num_process`, where the difference may be
negative and `%` truncates towards zero. -/
def recvFrom (numProcess rank round : Nat) : Nat :=
  (((rank : Int) - ((1 <<< round : Nat) : Int) + numProcess).tmod numProcess).toNat

/-- The channel on which `rank` sends in a round: all messages have tag 1. -/
def sendEnvelope (numProcess rank round : Nat) : Envelope :=
  ⟨rank, sendTo numProcess rank round, 1⟩

/-- The channel from which `rank` receives in a round. -/
def recvEnvelope (numProcess rank round : Nat) : Envelope :=
  ⟨recvFrom numProcess rank round, rank, 1⟩

variable {n : Nat}

theorem sendTo_eq (n rank round : Nat) : sendTo n rank round = (rank + 2 ^ round) % n := by
  rw [sendTo, Nat.one_shiftLeft]

/-- In C the truncated remainder would be negative for a negative operand. It never is:
in every round `1 << round` is less than the number of processes. -/
theorem recvFrom_eq {rank round : Nat} (hround : round < numRounds n) :
    recvFrom n rank round = behind n rank (2 ^ round) := by
  have hlt : 2 ^ round < n := pow_lt_of_lt_clog hround
  have hnat : (rank : Int) - ((1 <<< round : Nat) : Int) + n = ((rank + (n - 2 ^ round) : Nat) : Int) := by
    rw [Nat.one_shiftLeft]
    omega
  rw [recvFrom, hnat, Int.tmod_eq_emod_of_nonneg (by omega), ← Int.natCast_emod, Int.toNat_natCast,
    behind, Nat.mod_eq_of_lt hlt]

theorem sendTo_lt (hn : 0 < n) (rank round : Nat) : sendTo n rank round < n :=
  Nat.mod_lt _ hn

theorem recvFrom_lt (rank : Nat) {round : Nat} (hround : round < numRounds n) :
    recvFrom n rank round < n := by
  rw [recvFrom_eq hround]
  exact behind_lt (Nat.zero_lt_of_lt (pow_lt_of_lt_clog hround)) _ _

/-- Whoever `rank` receives from in a round sends to `rank` in that round. -/
theorem sendTo_recvFrom {rank round : Nat} (hrank : rank < n) (hround : round < numRounds n) :
    sendTo n (recvFrom n rank round) round = rank := by
  rw [recvFrom_eq hround, sendTo_eq, ahead_behind hrank]

theorem recvFrom_sendTo {rank round : Nat} (hrank : rank < n) (hround : round < numRounds n) :
    recvFrom n (sendTo n rank round) round = rank := by
  rw [recvFrom_eq hround, sendTo_eq, behind_ahead hrank]

theorem recvEnvelope_eq {rank round : Nat} (hrank : rank < n) (hround : round < numRounds n) :
    recvEnvelope n rank round = sendEnvelope n (recvFrom n rank round) round := by
  rw [recvEnvelope, sendEnvelope, sendTo_recvFrom hrank hround]

/-- A channel belongs to one sender and one round: this is why one tag is enough. -/
theorem sendEnvelope_inj {p q r r' : Nat} (hr : r < numRounds n) (hr' : r' < numRounds n)
    (h : sendEnvelope n p r = sendEnvelope n q r') : p = q ∧ r = r' := by
  simp only [sendEnvelope, Envelope.mk.injEq, sendTo_eq] at h
  obtain ⟨rfl, hto, -⟩ := h
  exact ⟨rfl, ahead_pow_inj (pow_lt_of_lt_clog hr) (pow_lt_of_lt_clog hr') hto⟩

end Dissemination

end AdvancedOS
