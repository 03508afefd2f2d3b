import AdvancedOS.Lib.Lts
import AdvancedOS.Lib.Fifo
import AdvancedOS.Lib.Potential

/-!
# Runs of a known length

A system in which every step does a fixed piece of the work that is left. Some of its steps are
deliveries, and the two kinds of steps are counted apart.

* `Countdown`: how many steps of either kind are left in a state, exactly.
* `Countdown.run`: all runs that cannot go on have the same number of steps of either kind, no run is
  longer, and every run can be continued to such an end.
* `inFlight`: the messages on the wires of some channels, which is what deliveries count down.
-/

namespace Lts

universe u v

variable {σ : Type u} {α : Type v} {S : System σ α}

theorem exec_append (as bs : List α) (s : σ) : exec S (as ++ bs) s = (exec S as s).bind (exec S bs) := by
  induction as generalizing s with
  | nil => rfl
  | cons a as ih =>
    rw [List.cons_append, exec, exec, Option.bind_assoc]
    exact congrArg (S.next a s).bind (funext ih)

/-- A countdown that exactly the steps that meet `p` make less, by one each. -/
theorem countP_add {p : α → Bool} {left : σ → Nat}
    (hcount : ∀ {s t a}, Reach S s → S.next a s = some t → left t + (if p a then 1 else 0) = left s) :
    ∀ (as : List α) {s t : σ}, Reach S s → exec S as s = some t → as.countP p + left t = left s
  | [], s, t, _, he => by cases he; exact Nat.zero_add _
  | a :: as, s, t, h, he => by
    obtain ⟨u, hu, hrest⟩ := Option.bind_eq_some_iff.mp he
    have hstep := hcount h hu
    have htail := countP_add hcount as (.step h trivial hu) hrest
    rw [List.countP_cons]
    omega

/-- A run whose steps all make a weight less can be continued until it cannot go on. -/
theorem exists_exec_stuck {weight : σ → Nat}
    (hless : ∀ {s t a}, Reach S s → S.next a s = some t → weight t < weight s) {s : σ} (h : Reach S s) :
    ∃ bs t, exec S bs s = some t ∧ Stuck S t := by
  generalize hn : weight s = n
  induction n using Nat.strongRecOn generalizing s with
  | ind n ih =>
    by_cases hstuck : Stuck S s
    · exact ⟨[], s, rfl, hstuck⟩
    · obtain ⟨a, ha⟩ := Classical.not_forall.mp hstuck
      obtain ⟨u, hu⟩ := Option.ne_none_iff_exists'.mp ha
      obtain ⟨bs, t, hbs, ht⟩ := ih _ (hn ▸ hless h hu) (.step h trivial hu) rfl
      exact ⟨a :: bs, t, by rw [exec, hu, Option.bind_some, hbs], ht⟩

/-- One of the pieces of equal size that are left. -/
theorem sub_mul_eq {m n : Nat} (h : m < n) (k : Nat) : (n - m) * k = (n - (m + 1)) * k + k := by
  have hsub : n - m = n - (m + 1) + 1 := by omega
  rw [hsub, Nat.succ_mul]

/-- `work` and `mail` say how many steps are left: `mail` of those that meet `p`, and `work` of the
others. Where nothing can be done, nothing is left. -/
structure Countdown (S : System σ α) (p : α → Bool) (work mail : σ → Nat) : Prop where
  work_step : ∀ {s t a}, Reach S s → S.next a s = some t → work t + (if !p a then 1 else 0) = work s
  mail_step : ∀ {s t a}, Reach S s → S.next a s = some t → mail t + (if p a then 1 else 0) = mail s
  stuck : ∀ {s}, Reach S s → Stuck S s → work s = 0 ∧ mail s = 0

namespace Countdown

variable {p : α → Bool} {work mail : σ → Nat}

theorem weight_step (h : Countdown S p work mail) {s t : σ} {a : α} (hs : Reach S s) (ht : S.next a s = some t) :
    work t + mail t + 1 = work s + mail s := by
  have hwork := h.work_step hs ht
  have hmail := h.mail_step hs ht
  cases hp : p a <;> simp only [hp, Bool.not_true, Bool.not_false, if_true, Bool.false_eq_true, if_false] at hwork hmail <;>
    omega

/-- A run cannot go on when nothing is left. -/
theorem stuck_iff (h : Countdown S p work mail) {s : σ} (hs : Reach S s) :
    Stuck S s ↔ work s + mail s = 0 := by
  refine ⟨fun hstuck => Nat.add_eq_zero_iff.mpr (h.stuck hs hstuck), fun hzero a => ?_⟩
  by_contra hne
  obtain ⟨t, ht⟩ := Option.ne_none_iff_exists'.mp hne
  have hstep := h.weight_step hs ht
  omega

/-- The steps of a run, and what is left after it. -/
theorem run (h : Countdown S p work mail) {as : List α} {t : σ} (he : exec S as S.init = some t) :
    as.length ≤ work S.init + mail S.init ∧
    (Stuck S t ↔ as.length = work S.init + mail S.init) ∧
    (Stuck S t → as.countP p = mail S.init) ∧
    ∃ bs u, exec S (as ++ bs) S.init = some u ∧ Stuck S u := by
  have ht : Reach S t := reach_exec as .init he
  have hwork := countP_add (p := fun a => !p a) h.work_step as .init he
  have hmail := countP_add (p := p) h.mail_step as .init he
  have hlength := List.length_eq_countP_add_countP p (l := as)
  have hother : as.countP (fun a => decide ¬ p a = true) = as.countP fun a => !p a :=
    List.countP_congr fun a _ => by simp
  refine ⟨by omega, ?_, fun hstuck => ?_, ?_⟩
  · rw [h.stuck_iff ht]
    omega
  · have hzero := h.stuck ht hstuck
    omega
  · obtain ⟨bs, u, hbs, hu⟩ := exists_exec_stuck (fun hs hnext => Nat.lt_of_succ_le (Nat.le_of_eq (h.weight_step hs hnext))) ht
    exact ⟨bs, u, by rw [exec_append, he, Option.bind_some, hbs], hu⟩

end Countdown

end Lts

namespace Fifo.Network

open Finset

variable {κ μ : Type} {E : Finset κ} {net net' : Network κ μ} {k : κ} {m : μ}

/-- The messages on the wires of the channels `E`. -/
def inFlight (E : Finset κ) (net : Network κ μ) : Nat := ∑ k ∈ E, (net.wire k).length

theorem inFlight_empty (E : Finset κ) : inFlight E (empty : Network κ μ) = 0 :=
  Finset.sum_eq_zero fun _ _ => rfl

variable [DecidableEq κ]

theorem inFlight_send (hk : k ∈ E) : inFlight E (net.send k m) = inFlight E net + 1 := by
  have hchange := Potential.sum_change hk (f := fun j => (net.wire j).length)
    (g := fun j => ((net.send k m).wire j).length) fun j hj => by simp [send, hj]
  have hself : ((net.send k m).wire k).length = (net.wire k).length + 1 := by simp [send]
  unfold inFlight
  omega

theorem inFlight_deliver (hk : k ∈ E) (h : net.deliver k = some net') :
    inFlight E net' + 1 = inFlight E net := by
  unfold deliver at h
  split at h
  · cases h
  · next first rest hwire =>
    cases h
    have hchange := Potential.sum_change hk (f := fun j => (net.wire j).length)
      (g := fun j => (Function.update net.wire k rest j).length) fun j hj => by simp [hj]
    simp only [Function.update_self, hwire, List.length_cons] at hchange
    unfold inFlight
    simp only
    omega

theorem inFlight_recv (h : net.recv k = some (m, net')) : inFlight E net' = inFlight E net := by
  unfold recv at h
  split at h
  · cases h
  · cases h; rfl

/-- A message that can be delivered is in its channel. -/
theorem queue_ne_nil_of_deliver (h : net.deliver k = some net') : net.queue k ≠ [] := by
  unfold deliver at h
  split at h
  · cases h
  · next first rest hwire => simp [queue, hwire]

/-- When nothing can be delivered, nothing is on the wires. -/
theorem inFlight_eq_zero (h : ∀ k, net.deliver k = none) : inFlight E net = 0 := by
  refine Finset.sum_eq_zero fun k _ => ?_
  have hnone := h k
  unfold deliver at hnone
  split at hnone
  · next hwire => rw [hwire, List.length_nil]
  · cases hnone

end Fifo.Network
