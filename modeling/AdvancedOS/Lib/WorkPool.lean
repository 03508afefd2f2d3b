import Mathlib.Algebra.BigOperators.Ring.Finset
import Mathlib.Algebra.Order.BigOperators.Group.Finset
import Mathlib.Algebra.Order.Group.Defs
import Mathlib.Algebra.Order.Ring.Int
import Mathlib.Algebra.Order.Group.Multiset
import AdvancedOS.Lib.Lts
import AdvancedOS.Lib.Potential

/-!
# A pool of jobs and workers

The abstract model of a master that hands jobs to workers which may fail. A job is sent to a live
worker, which is then owed an answer (`calls`). The answer of a live worker completes the job; that
of a dropped worker is discarded; an error completes nothing. When a worker is dropped, the jobs
recorded for it (`held`) go back to `unfinished`. When all pending jobs are sent, the master goes on
with the unfinished ones (`requeue`), or sends some list of jobs again (`again`).

With `keeps` the pool records every job it sends; without, it records none.

* `Books`: the counter of completions never exceeds the completions of the live workers.
* `Recorded`: a live worker holds the jobs it was sent and has answered or still owes.
* `Conserved`: without `again`, the pending, unfinished and held jobs are the jobs of the pool.
* `all_done`: then, when the counter equals the number of jobs, every job is completed by a live
  worker.
* `fresh`: then, a job that is sent is held by fewer live workers than the pool has copies of it.
* `Covered`: if only dropped workers answer with an error, no job is lost.
* `Clean`: if no worker fails, every job is sent once.
-/

namespace WorkPool

open Lts Potential

variable {W J : Type} [DecidableEq W]

/-- The state of the pool; `count` is what the master compares with the number of jobs. -/
@[ext] structure Pool (W J : Type) where
  jobs : Multiset J
  pending : Multiset J
  unfinished : Multiset J
  held : W → Option (Multiset J)
  completed : W → Int
  calls : Multiset (W × J)
  sent : Multiset (W × J)
  done : Multiset (W × J)
  count : Int

inductive Act (W J : Type)
  | load (L : Multiset J)
  | dispatch (w : W) (j : J)
  | finish (w : W) (j : J)
  | discard (w : W) (j : J)
  | error (w : W) (j : J)
  | drop (w : W)
  | requeue
  | again (L : Multiset J)

/-- A worker that has not been dropped. -/
def Pool.Live (p : Pool W J) (w : W) : Prop := (p.held w).isSome

instance (p : Pool W J) (w : W) : Decidable (p.Live w) := inferInstanceAs (Decidable (_ = true))

/-- The jobs recorded for a worker; none for a dropped one. -/
def Pool.heldBy (p : Pool W J) (w : W) : Multiset J := (p.held w).getD 0

/-- The jobs of one worker. -/
def jobsOf (w : W) (M : Multiset (W × J)) : Multiset J :=
  (M.filter fun x => x.1 = w).map Prod.snd

/-! ## Jobs of one worker -/

@[simp] theorem jobsOf_zero (w : W) : jobsOf w (0 : Multiset (W × J)) = 0 := by simp [jobsOf]

@[simp] theorem jobsOf_cons_self (w : W) (j : J) (M : Multiset (W × J)) :
    jobsOf w ((w, j) ::ₘ M) = j ::ₘ jobsOf w M := by simp [jobsOf]

theorem jobsOf_cons_of_ne {w w' : W} (h : w' ≠ w) (j : J) (M : Multiset (W × J)) :
    jobsOf w ((w', j) ::ₘ M) = jobsOf w M := by simp [jobsOf, h]

theorem mem_jobsOf {w : W} {j : J} {M : Multiset (W × J)} : j ∈ jobsOf w M ↔ (w, j) ∈ M := by
  simp [jobsOf]

theorem count_jobsOf [DecidableEq J] (w : W) (j : J) (M : Multiset (W × J)) :
    (jobsOf w M).count j = M.count (w, j) := by
  induction M using Multiset.induction_on with
  | empty => simp
  | cons x M ih =>
    obtain ⟨w', j'⟩ := x
    by_cases hw : w' = w
    · subst hw
      by_cases hj : j = j'
      · subst hj; simp [ih]
      · rw [jobsOf_cons_self, Multiset.count_cons_of_ne hj, ih,
          Multiset.count_cons_of_ne fun he => hj (congrArg Prod.snd he)]
    · rw [jobsOf_cons_of_ne hw, ih,
        Multiset.count_cons_of_ne fun he => hw (congrArg Prod.fst he).symm]

theorem jobsOf_mono {w : W} {M M' : Multiset (W × J)} (h : M ≤ M') : jobsOf w M ≤ jobsOf w M' :=
  Multiset.map_le_map (Multiset.filter_le_filter _ h)

theorem jobsOf_erase_self [DecidableEq J] {w : W} {j : J} {M : Multiset (W × J)} (h : (w, j) ∈ M) :
    jobsOf w M = j ::ₘ jobsOf w (M.erase (w, j)) := by
  rw [← jobsOf_cons_self, Multiset.cons_erase h]

theorem jobsOf_erase_of_ne [DecidableEq J] {w w' : W} (hne : w' ≠ w) {j : J} {M : Multiset (W × J)}
    (h : (w', j) ∈ M) : jobsOf w (M.erase (w', j)) = jobsOf w M := by
  rw [← jobsOf_cons_of_ne hne j (M.erase (w', j)), Multiset.cons_erase h]

theorem heldBy_update (p : Pool W J) (w : W) (o : Option (Multiset J)) (jobs pending unfinished : Multiset J)
    (completed : W → Int) (calls sent done : Multiset (W × J)) (count : Int) :
    Pool.heldBy ⟨jobs, pending, unfinished, Function.update p.held w o, completed, calls, sent, done, count⟩ =
      Function.update p.heldBy w (o.getD 0) := by
  funext x
  by_cases hx : x = w
  · subst hx; simp [Pool.heldBy]
  · simp [Pool.heldBy, hx]

/-! ## What an action does -/

variable [DecidableEq J]

/-- What one action does. -/
def Pool.next (keeps : Bool) (a : Act W J) (p : Pool W J) : Option (Pool W J) :=
  match a with
  | .load L => if p.jobs = 0 ∧ p.pending = 0 then some { p with jobs := L, pending := L } else none
  | .dispatch w j =>
    if p.Live w ∧ j ∈ p.pending then
      some { p with
        pending := p.pending.erase j
        held := Function.update p.held w (some (if keeps then j ::ₘ p.heldBy w else p.heldBy w))
        calls := (w, j) ::ₘ p.calls
        sent := (w, j) ::ₘ p.sent }
    else none
  | .finish w j =>
    if p.Live w ∧ (w, j) ∈ p.calls then
      some { p with
        completed := Function.update p.completed w (p.completed w + 1)
        calls := p.calls.erase (w, j)
        done := (w, j) ::ₘ p.done
        count := p.count + 1 }
    else none
  | .discard w j =>
    if ¬ p.Live w ∧ (w, j) ∈ p.calls then some { p with calls := p.calls.erase (w, j) } else none
  | .error w j =>
    if (w, j) ∈ p.calls then
      some { p with calls := p.calls.erase (w, j), count := p.count - 1 }
    else none
  | .drop w =>
    if p.Live w then
      some { p with
        unfinished := p.unfinished + p.heldBy w
        held := Function.update p.held w none
        completed := Function.update p.completed w 0
        count := p.count - p.completed w }
    else none
  | .requeue =>
    if p.pending = 0 then some { p with pending := p.unfinished, unfinished := 0 } else none
  | .again L => if p.pending = 0 then some { p with pending := L } else none

/-- The pool of `jobs` and live `workers`. -/
def system (keeps : Bool) (workers : Finset W) (jobs : Multiset J) :
    System (Pool W J) (Act W J) :=
  { init :=
      { jobs, pending := jobs, unfinished := 0
        held := fun w => if w ∈ workers then some 0 else none
        completed := fun _ => 0, calls := 0, sent := 0, done := 0, count := 0 }
    next := Pool.next keeps }


/-- What one action does, by cases. -/
inductive Step (keeps : Bool) (p : Pool W J) : Act W J → Pool W J → Prop
  | load {L : Multiset J} : p.jobs = 0 → p.pending = 0 →
      Step keeps p (.load L) { p with jobs := L, pending := L }
  | dispatch {w : W} {j : J} : p.Live w → j ∈ p.pending →
      Step keeps p (.dispatch w j) { p with
        pending := p.pending.erase j
        held := Function.update p.held w (some (if keeps then j ::ₘ p.heldBy w else p.heldBy w))
        calls := (w, j) ::ₘ p.calls
        sent := (w, j) ::ₘ p.sent }
  | finish {w : W} {j : J} : p.Live w → (w, j) ∈ p.calls →
      Step keeps p (.finish w j) { p with
        completed := Function.update p.completed w (p.completed w + 1)
        calls := p.calls.erase (w, j)
        done := (w, j) ::ₘ p.done
        count := p.count + 1 }
  | discard {w : W} {j : J} : ¬ p.Live w → (w, j) ∈ p.calls →
      Step keeps p (.discard w j) { p with calls := p.calls.erase (w, j) }
  | error {w : W} {j : J} : (w, j) ∈ p.calls →
      Step keeps p (.error w j) { p with calls := p.calls.erase (w, j), count := p.count - 1 }
  | drop {w : W} : p.Live w →
      Step keeps p (.drop w) { p with
        unfinished := p.unfinished + p.heldBy w
        held := Function.update p.held w none
        completed := Function.update p.completed w 0
        count := p.count - p.completed w }
  | requeue : p.pending = 0 →
      Step keeps p .requeue { p with pending := p.unfinished, unfinished := 0 }
  | again {L : Multiset J} : p.pending = 0 → Step keeps p (.again L) { p with pending := L }

theorem step_of_next {keeps : Bool} {a : Act W J} {p p' : Pool W J} (h : p.next keeps a = some p') :
    Step keeps p a p' := by
  cases a <;> simp only [Pool.next, Option.ite_none_right_eq_some, Option.some.injEq] at h <;>
    obtain ⟨hguard, rfl⟩ := h
  case load L => exact .load hguard.1 hguard.2
  case dispatch w j => exact .dispatch hguard.1 hguard.2
  case finish w j => exact .finish hguard.1 hguard.2
  case discard w j => exact .discard hguard.1 hguard.2
  case error w j => exact .error hguard
  case drop w => exact .drop hguard
  case requeue => exact .requeue hguard
  case again L => exact .again hguard

/-- A live worker stays live until it is dropped, and a dropped one stays dropped. -/
theorem Step.live_iff {keeps : Bool} {a : Act W J} {p p' : Pool W J} (h : Step keeps p a p') (w : W) :
    p'.Live w ↔ p.Live w ∧ a ≠ .drop w := by
  cases h with
  | @dispatch w' j hlive _ =>
    by_cases hw : w = w'
    · subst hw; simpa [Pool.Live] using hlive
    · simp [Pool.Live, hw]
  | @drop w' hlive =>
    by_cases hw : w = w'
    · subst hw; simp [Pool.Live]
    · simp [Pool.Live, hw, Ne.symm hw]
  | load | finish | discard | error | requeue | again => simp [Pool.Live]

/-! ## The counter -/

/-- Every live worker is a worker of the pool, the completions of a live worker are counted, and
the counter never exceeds the completions of the live workers. -/
structure Books (workers : Finset W) (p : Pool W J) : Prop where
  mem : ∀ w, p.Live w → w ∈ workers
  dropped : ∀ w, ¬ p.Live w → p.completed w = 0
  completed : ∀ w, p.Live w → p.completed w = (jobsOf w p.done).card
  count : p.count ≤ ∑ w ∈ workers, p.completed w

theorem books_init (keeps : Bool) (workers : Finset W) (jobs : Multiset J) :
    Books workers (system keeps workers jobs).init where
  mem w hw := by
    by_contra hno
    simp [system, Pool.Live, hno] at hw
  dropped _ _ := rfl
  completed w _ := by simp [system]
  count := by simp [system]

theorem books_step {keeps : Bool} {workers : Finset W} {a : Act W J} {p p' : Pool W J}
    (h : Books workers p) (hs : Step keeps p a p') : Books workers p' := by
  have hlive := hs.live_iff
  have hmem : ∀ w, p'.Live w → w ∈ workers := fun w hw => h.mem w ((hlive w).mp hw).1
  cases hs with
  | load _ _ | discard _ _ | requeue _ | again _ => exact ⟨h.mem, h.dropped, h.completed, h.count⟩
  | dispatch _ _ =>
    have hsame : ∀ w, _ ↔ p.Live w := fun w => (hlive w).trans (by simp)
    exact ⟨hmem, fun w hw => h.dropped w fun hw' => hw ((hsame w).mpr hw'),
      fun w hw => h.completed w ((hsame w).mp hw), h.count⟩
  | error _ => exact ⟨h.mem, h.dropped, h.completed, by have := h.count; simp only; omega⟩
  | @finish w j hw hcall =>
    refine ⟨hmem, fun w' hw' => ?_, fun w' hw' => ?_, ?_⟩
    · have hne : w' ≠ w := by rintro rfl; exact hw' hw
      simp only [Function.update_of_ne hne]
      exact h.dropped w' hw'
    · by_cases hne : w' = w
      · subst hne
        simp [h.completed w' hw]
      · simp only [Function.update_of_ne hne, jobsOf_cons_of_ne (Ne.symm hne)]
        exact h.completed w' hw'
    · have hsum := sum_update (h.mem w hw) p.completed (p.completed w + 1)
      have hcount := h.count
      simp only
      omega
  | @drop w hw =>
    refine ⟨hmem, fun w' hw' => ?_, fun w' hw' => ?_, ?_⟩
    · by_cases hne : w' = w
      · subst hne; simp
      · simp only [Function.update_of_ne hne]
        exact h.dropped w' fun hw'' => hw' ((hlive w').mpr ⟨hw'', by simpa using Ne.symm hne⟩)
    · obtain ⟨hw'', hne⟩ := (hlive w').mp hw'
      have hne' : w' ≠ w := fun he => hne (by rw [he])
      simp only [Function.update_of_ne hne']
      exact h.completed w' hw''
    · have hsum := sum_update (h.mem w hw) p.completed 0
      have hcount := h.count
      simp only
      omega

/-! ## The record of a worker -/

/-- A live worker holds the jobs it has completed and those it owes. -/
def Recorded (p : Pool W J) : Prop :=
  ∀ w, p.Live w → jobsOf w p.done + jobsOf w p.calls ≤ p.heldBy w

theorem recorded_init (keeps : Bool) (workers : Finset W) (jobs : Multiset J) :
    Recorded (system keeps workers jobs).init := fun w _ => by simp [system]

theorem recorded_step {a : Act W J} {p p' : Pool W J} (h : Recorded p) (hs : Step true p a p') :
    Recorded p' := by
  intro w hw
  obtain ⟨hw', hdrop⟩ := (hs.live_iff w).mp hw
  have hle := h w hw'
  cases hs with
  | load _ _ | requeue _ | again _ => exact hle
  | @dispatch w₀ j _ _ =>
    rw [heldBy_update]
    by_cases hne : w = w₀
    · subst hne
      rw [Function.update_self, jobsOf_cons_self, Multiset.add_cons]
      exact Multiset.cons_le_cons j hle
    · rw [Function.update_of_ne hne, jobsOf_cons_of_ne (Ne.symm hne)]
      exact hle
  | @finish w₀ j _ hcall =>
    by_cases hne : w = w₀
    · subst hne
      rw [jobsOf_cons_self, Multiset.cons_add, ← Multiset.add_cons, ← jobsOf_erase_self hcall]
      exact hle
    · rw [jobsOf_cons_of_ne (Ne.symm hne), jobsOf_erase_of_ne (Ne.symm hne) hcall]
      exact hle
  | discard _ _ | error _ =>
    exact le_trans (Multiset.add_le_add_left (jobsOf_mono (Multiset.erase_le _ _))) hle
  | @drop w₀ _ =>
    have hne : w ≠ w₀ := fun he => hdrop (by rw [he])
    rw [heldBy_update, Function.update_of_ne hne]
    exact hle

/-! ## Conservation of jobs -/

/-- The pending jobs, the unfinished jobs and those that live workers hold are the jobs of the
pool. -/
def Conserved (workers : Finset W) (p : Pool W J) : Prop :=
  p.pending + p.unfinished + ∑ w ∈ workers, p.heldBy w = p.jobs

/-- No job is sent a second time without need. -/
def Act.NotAgain : Act W J → Prop
  | .again L => L = 0
  | _ => True

theorem conserved_init (keeps : Bool) (workers : Finset W) (jobs : Multiset J) :
    Conserved workers (system keeps workers jobs).init := by
  have hzero : ∀ w ∈ workers, (system keeps workers jobs).init.heldBy w = 0 := by
    intro w hw
    simp [Pool.heldBy, system, hw]
  rw [Conserved, Finset.sum_eq_zero hzero]
  simp [system]

theorem conserved_step {workers : Finset W} {a : Act W J} {p p' : Pool W J} (hb : Books workers p)
    (h : Conserved workers p) (hs : Step true p a p') (ha : a.NotAgain) : Conserved workers p' := by
  unfold Conserved at h ⊢
  cases hs with
  | again hpending =>
    obtain rfl := (ha : _ = (0 : Multiset J))
    rw [hpending] at h
    exact h
  | finish _ _ | discard _ _ | error _ => exact h
  | @load L hjobs hpending =>
    rw [hjobs, hpending, zero_add] at h
    have hzero : p.unfinished + ∑ w ∈ workers, p.heldBy w = 0 := h
    calc L + p.unfinished + ∑ w ∈ workers, p.heldBy w
        = L + (p.unfinished + ∑ w ∈ workers, p.heldBy w) := add_assoc _ _ _
      _ = L := by rw [hzero, add_zero]
  | requeue hpending =>
    rw [hpending, zero_add] at h
    rw [add_zero]
    exact h
  | @dispatch w j hw hj =>
    have hsum := sum_update (hb.mem w hw) p.heldBy (j ::ₘ p.heldBy w)
    rw [Multiset.add_cons, ← Multiset.cons_add] at hsum
    rw [heldBy_update]
    calc p.pending.erase j + p.unfinished +
          ∑ x ∈ workers, Function.update p.heldBy w (j ::ₘ p.heldBy w) x
        = p.pending.erase j + p.unfinished + (j ::ₘ ∑ x ∈ workers, p.heldBy x) := by
          rw [Multiset.add_left_inj.mp hsum]
      _ = j ::ₘ p.pending.erase j + p.unfinished + ∑ x ∈ workers, p.heldBy x := by
          rw [Multiset.add_cons, Multiset.cons_add, Multiset.cons_add]
      _ = p.jobs := by rw [Multiset.cons_erase hj, h]
  | @drop w hw =>
    have hsum := sum_update (hb.mem w hw) p.heldBy 0
    rw [add_zero] at hsum
    rw [heldBy_update]
    calc p.pending + (p.unfinished + p.heldBy w) + ∑ x ∈ workers, Function.update p.heldBy w 0 x
        = p.pending + p.unfinished + (∑ x ∈ workers, Function.update p.heldBy w 0 x + p.heldBy w) := by
          rw [← add_assoc p.pending, add_assoc _ (p.heldBy w), add_comm (p.heldBy w)]
      _ = p.jobs := by rw [hsum, h]

omit [DecidableEq J] in
/-- When the counter has reached the number of jobs, live workers have completed all of them. -/
theorem all_done {workers : Finset W} {p : Pool W J} (hb : Books workers p) (hr : Recorded p)
    (hc : Conserved workers p) (hcount : p.count = p.jobs.card) :
    p.pending = 0 ∧ ∀ j ∈ p.jobs, ∃ w, p.Live w ∧ (w, j) ∈ p.done := by
  have hheld : ∀ w ∈ workers, p.completed w ≤ ((p.heldBy w).card : Int) := by
    intro w _
    by_cases hw : p.Live w
    · rw [hb.completed w hw]
      exact_mod_cast Multiset.card_le_card (le_trans (Multiset.le_add_right _ _) (hr w hw))
    · rw [hb.dropped w hw]
      exact Int.natCast_nonneg _
  have hcard : ((p.pending.card + p.unfinished.card : Nat) : Int) +
      ∑ w ∈ workers, ((p.heldBy w).card : Int) = p.jobs.card := by
    rw [← hc, Multiset.card_add, Multiset.card_add, Multiset.card_sum]
    push_cast
    rfl
  have hle := Finset.sum_le_sum hheld
  have hcount' := hb.count
  have hsum : ∑ w ∈ workers, p.completed w = ∑ w ∈ workers, ((p.heldBy w).card : Int) := by omega
  have hempty : p.pending.card = 0 ∧ p.unfinished.card = 0 := by omega
  refine ⟨Multiset.card_eq_zero.mp hempty.1, fun j hj => ?_⟩
  rw [← hc, Multiset.card_eq_zero.mp hempty.1, Multiset.card_eq_zero.mp hempty.2, add_zero, zero_add,
    Multiset.mem_sum] at hj
  obtain ⟨w, hw, hj⟩ := hj
  have hlive : p.Live w := by
    by_contra hno
    have hnone : p.heldBy w = 0 := by
      have hheld' : p.held w = none := by simpa [Pool.Live] using hno
      simp [Pool.heldBy, hheld']
    rw [hnone] at hj
    exact Multiset.notMem_zero j hj
  refine ⟨w, hlive, ?_⟩
  -- a live worker has completed as many jobs as it holds, so it has completed these
  have heq := (Finset.sum_eq_sum_iff_of_le hheld).mp hsum w hw
  rw [hb.completed w hlive] at heq
  have hdone : jobsOf w p.done = p.heldBy w :=
    Multiset.eq_of_le_of_card_le (le_trans (Multiset.le_add_right _ _) (hr w hlive)) (by omega)
  exact mem_jobsOf.mp (hdone ▸ hj)

/-- A pending job is held by fewer live workers than the pool has copies of it. -/
theorem fresh {workers : Finset W} {p : Pool W J} (hr : Recorded p) (hc : Conserved workers p)
    {j : J} (hj : j ∈ p.pending) :
    ∑ w ∈ workers.filter p.Live, ((jobsOf w p.done).count j + (jobsOf w p.calls).count j) <
      p.jobs.count j := by
  have hle : ∀ w ∈ workers.filter p.Live,
      (jobsOf w p.done).count j + (jobsOf w p.calls).count j ≤ (p.heldBy w).count j := by
    intro w hw
    rw [← Multiset.count_add]
    exact Multiset.count_le_of_le j (hr w (Finset.mem_filter.mp hw).2)
  have hpos := Multiset.count_pos.mpr hj
  calc ∑ w ∈ workers.filter p.Live, ((jobsOf w p.done).count j + (jobsOf w p.calls).count j)
      ≤ ∑ w ∈ workers.filter p.Live, (p.heldBy w).count j := Finset.sum_le_sum hle
    _ ≤ ∑ w ∈ workers, (p.heldBy w).count j :=
        Finset.sum_le_sum_of_subset (Finset.filter_subset _ _)
    _ < p.jobs.count j := by
        rw [← hc, Multiset.count_add, Multiset.count_add, Multiset.count_sum']
        omega

/-! ## No job is lost -/

/-- What workers owe and what they have completed was sent to them. -/
structure Known (p : Pool W J) : Prop where
  calls : ∀ x ∈ p.calls, x ∈ p.sent
  done : ∀ x ∈ p.done, x ∈ p.sent

theorem known_init (keeps : Bool) (workers : Finset W) (jobs : Multiset J) :
    Known (system keeps workers jobs).init where
  calls x hx := absurd hx (Multiset.notMem_zero x)
  done x hx := absurd hx (Multiset.notMem_zero x)

theorem known_step {keeps : Bool} {a : Act W J} {p p' : Pool W J} (h : Known p)
    (hs : Step keeps p a p') : Known p' := by
  cases hs with
  | load _ _ | drop _ | requeue _ | again _ => exact ⟨h.calls, h.done⟩
  | dispatch _ _ =>
    refine ⟨fun x hx => ?_, fun x hx => Multiset.mem_cons_of_mem (h.done x hx)⟩
    rcases Multiset.mem_cons.mp hx with rfl | hx
    · exact Multiset.mem_cons_self _ _
    · exact Multiset.mem_cons_of_mem (h.calls x hx)
  | finish _ hcall =>
    refine ⟨fun x hx => h.calls x (Multiset.mem_of_mem_erase hx), fun x hx => ?_⟩
    rcases Multiset.mem_cons.mp hx with rfl | hx
    · exact h.calls _ hcall
    · exact h.done x hx
  | discard _ _ | error _ => exact ⟨fun x hx => h.calls x (Multiset.mem_of_mem_erase hx), h.done⟩

/-- Every job is pending, unfinished, owed by a live worker or completed by one. -/
def Covered (p : Pool W J) : Prop :=
  ∀ j ∈ p.jobs, j ∈ p.pending ∨ j ∈ p.unfinished ∨
    ∃ w, p.Live w ∧ ((w, j) ∈ p.calls ∨ (w, j) ∈ p.done)

/-- Only dropped workers answer with an error, and a worker is only dropped when what it was sent
is on record. -/
def Act.Safe (keeps : Bool) (p : Pool W J) : Act W J → Prop
  | .error w _ => ¬ p.Live w
  | .drop w => keeps = true ∨ ∀ j, (w, j) ∉ p.sent
  | _ => True

theorem covered_init (keeps : Bool) (workers : Finset W) (jobs : Multiset J) :
    Covered (system keeps workers jobs).init := fun _ hj => .inl hj

omit [DecidableEq J] in
/-- The jobs of a worker that is dropped are on its record. -/
theorem mem_heldBy_of_drop {keeps : Bool} {p : Pool W J} (hr : keeps = true → Recorded p) (hk : Known p)
    {w : W} (hw : p.Live w) (ha : Act.Safe keeps p (.drop w)) {j : J}
    (hj : (w, j) ∈ p.calls ∨ (w, j) ∈ p.done) : j ∈ p.heldBy w := by
  rcases ha with hkeeps | hnone
  · refine Multiset.mem_of_le (hr hkeeps w hw) (Multiset.mem_add.mpr ?_)
    exact hj.symm.imp mem_jobsOf.mpr mem_jobsOf.mpr
  · rcases hj with hcall | hdone
    · exact absurd (hk.calls _ hcall) (hnone j)
    · exact absurd (hk.done _ hdone) (hnone j)

theorem covered_step {keeps : Bool} {a : Act W J} {p p' : Pool W J} (hr : keeps = true → Recorded p)
    (hk : Known p) (h : Covered p) (hs : Step keeps p a p') (ha : a.Safe keeps p) : Covered p' := by
  have hlive := hs.live_iff
  intro j hj
  cases hs with
  | load _ _ => exact .inl hj
  | requeue hpending =>
    rcases h j hj with hp | hu | hw
    · rw [hpending] at hp; exact absurd hp (Multiset.notMem_zero j)
    · exact .inl hu
    · exact .inr (.inr hw)
  | again hpending =>
    rcases h j hj with hp | hu | hw
    · rw [hpending] at hp; exact absurd hp (Multiset.notMem_zero j)
    · exact .inr (.inl hu)
    · exact .inr (.inr hw)
  | @dispatch w j' hw _ =>
    rcases h j hj with hp | hu | ⟨w', hw', hj'⟩
    · by_cases hne : j = j'
      · subst hne
        exact .inr (.inr ⟨w, (hlive w).mpr ⟨hw, by simp⟩, .inl (Multiset.mem_cons_self _ _)⟩)
      · exact .inl ((Multiset.mem_erase_of_ne hne).mpr hp)
    · exact .inr (.inl hu)
    · exact .inr (.inr ⟨w', (hlive w').mpr ⟨hw', by simp⟩, hj'.imp_left Multiset.mem_cons_of_mem⟩)
  | @finish w j' hw _ =>
    rcases h j hj with hp | hu | ⟨w', hw', hj'⟩
    · exact .inl hp
    · exact .inr (.inl hu)
    · refine .inr (.inr ⟨w', hw', ?_⟩)
      rcases hj' with hcall | hdone
      · by_cases hne : (w', j) = (w, j')
        · exact .inr (hne ▸ Multiset.mem_cons_self _ _)
        · exact .inl ((Multiset.mem_erase_of_ne hne).mpr hcall)
      · exact .inr (Multiset.mem_cons_of_mem hdone)
  | discard hdead _ | error _ =>
    -- the call that goes is that of a dropped worker
    rcases h j hj with hp | hu | ⟨w', hw', hj'⟩
    · exact .inl hp
    · exact .inr (.inl hu)
    · refine .inr (.inr ⟨w', hw', hj'.imp_left fun hcall => (Multiset.mem_erase_of_ne ?_).mpr hcall⟩)
      rintro ⟨⟩
      first | exact hdead hw' | exact ha hw'
  | @drop w hw =>
    rcases h j hj with hp | hu | ⟨w', hw', hj'⟩
    · exact .inl hp
    · exact .inr (.inl (Multiset.mem_add.mpr (.inl hu)))
    · by_cases hne : w' = w
      · subst hne
        exact .inr (.inl (Multiset.mem_add.mpr (.inr (mem_heldBy_of_drop hr hk hw ha hj'))))
      · exact .inr (.inr ⟨w', (hlive w').mpr ⟨hw', by simpa using Ne.symm hne⟩, hj'⟩)

/-! ## A pool without records -/

/-- A pool that records nothing sends each copy of a job once. -/
structure Once (p : Pool W J) : Prop where
  held : ∀ w, p.heldBy w = 0
  unfinished : p.unfinished = 0
  jobs : p.sent.map Prod.snd + p.pending = p.jobs

theorem once_init (workers : Finset W) (jobs : Multiset J) : Once (system false workers jobs).init where
  held w := by
    by_cases hw : w ∈ workers
    · simp [Pool.heldBy, system, hw]
    · simp [Pool.heldBy, system, hw]
  unfinished := rfl
  jobs := zero_add _

theorem once_step {a : Act W J} {p p' : Pool W J} (h : Once p) (hs : Step false p a p')
    (ha : a.NotAgain) : Once p' := by
  cases hs with
  | again hpending =>
    obtain rfl := (ha : _ = (0 : Multiset J))
    exact ⟨h.held, h.unfinished, by rw [← hpending]; exact h.jobs⟩
  | finish _ _ | discard _ _ | error _ => exact ⟨h.held, h.unfinished, h.jobs⟩
  | @load L hjobs hpending =>
    have hsent : p.sent.map Prod.snd = 0 := by
      have hjobs' := h.jobs
      rwa [hjobs, hpending, add_zero] at hjobs'
    exact ⟨h.held, h.unfinished, by simp [hsent]⟩
  | @dispatch w j _ hj =>
    refine ⟨fun w' => ?_, h.unfinished, ?_⟩
    · rw [heldBy_update]
      by_cases hne : w' = w
      · subst hne; simpa using h.held w'
      · rw [Function.update_of_ne hne]; exact h.held w'
    · rw [Multiset.map_cons, Multiset.cons_add, ← Multiset.add_cons, Multiset.cons_erase hj]
      exact h.jobs
  | @drop w _ =>
    refine ⟨fun w' => ?_, by simp [h.unfinished, h.held w], h.jobs⟩
    rw [heldBy_update]
    by_cases hne : w' = w
    · subst hne; simp
    · rw [Function.update_of_ne hne]; exact h.held w'
  | requeue hpending =>
    refine ⟨h.held, rfl, ?_⟩
    have hjobs := h.jobs
    rw [hpending, ← h.unfinished] at hjobs
    exact hjobs

omit [DecidableEq W] in
/-- In a pool without records and without repeated jobs, a pending job was never sent. -/
theorem Once.notMem_sent {p : Pool W J} (h : Once p) (hnodup : p.jobs.Nodup) {j : J}
    (hj : j ∈ p.pending) (w : W) : (w, j) ∉ p.sent := by
  intro hsent
  have hmem : j ∈ p.sent.map Prod.snd := Multiset.mem_map_of_mem Prod.snd hsent
  have hcount := Multiset.nodup_iff_count_le_one.mp hnodup j
  rw [← h.jobs, Multiset.count_add] at hcount
  have h1 := Multiset.count_pos.mpr hmem
  have h2 := Multiset.count_pos.mpr hj
  omega

/-! ## No worker fails -/

/-- Nothing has failed: every job sent is owed or completed, and every job was sent once or is
pending. -/
structure Clean (p : Pool W J) : Prop where
  unfinished : p.unfinished = 0
  sent : p.sent = p.calls + p.done
  jobs : p.sent.map Prod.snd + p.pending = p.jobs
  count : p.count = p.done.card

/-- An action of a pool without failures. -/
def Act.NoFailure : Act W J → Prop
  | .load _ | .dispatch _ _ | .finish _ _ => True
  | _ => False

theorem clean_init (keeps : Bool) (workers : Finset W) (jobs : Multiset J) :
    Clean (system keeps workers jobs).init where
  unfinished := rfl
  sent := rfl
  jobs := zero_add _
  count := rfl

theorem clean_step {keeps : Bool} {a : Act W J} {p p' : Pool W J} (h : Clean p)
    (hs : Step keeps p a p') (ha : a.NoFailure) : Clean p' := by
  cases hs with
  | discard _ _ | error _ | drop _ | requeue _ | again _ => exact ha.elim
  | @load L hjobs hpending =>
    have hsent : p.sent.map Prod.snd = 0 := by
      have hjobs' := h.jobs
      rwa [hjobs, hpending, add_zero] at hjobs'
    exact ⟨h.unfinished, h.sent, by simp [hsent], h.count⟩
  | @dispatch w j _ hj =>
    refine ⟨h.unfinished, by rw [h.sent, Multiset.cons_add], ?_, h.count⟩
    rw [Multiset.map_cons, Multiset.cons_add, ← Multiset.add_cons, Multiset.cons_erase hj]
    exact h.jobs
  | @finish w j _ hcall =>
    refine ⟨h.unfinished, ?_, h.jobs, by simp [h.count]⟩
    rw [Multiset.add_cons, ← Multiset.cons_add, Multiset.cons_erase hcall]
    exact h.sent

omit [DecidableEq W] [DecidableEq J] in
/-- When the counter has reached the number of jobs, all are completed and none is owed. -/
theorem Clean.complete {p : Pool W J} (h : Clean p) (hcount : p.count = p.jobs.card) :
    p.pending = 0 ∧ p.calls = 0 ∧ p.done.map Prod.snd = p.jobs := by
  have hcard : p.sent.card + p.pending.card = p.jobs.card := by
    rw [← h.jobs, Multiset.card_add, Multiset.card_map]
  have hsent : p.sent.card = p.calls.card + p.done.card := by rw [h.sent, Multiset.card_add]
  have hdone := h.count
  have hpending : p.pending = 0 := Multiset.card_eq_zero.mp (by omega)
  have hcalls : p.calls = 0 := Multiset.card_eq_zero.mp (by omega)
  refine ⟨hpending, hcalls, ?_⟩
  rw [← h.jobs, h.sent, hcalls, hpending, zero_add, add_zero]

omit [DecidableEq W] [DecidableEq J] in
/-- When nothing is pending or owed, the counter has reached the number of jobs. -/
theorem Clean.count_eq {p : Pool W J} (h : Clean p) (hpending : p.pending = 0) (hcalls : p.calls = 0) :
    p.count = p.jobs.card := by
  rw [h.count, ← h.jobs, h.sent, hpending, hcalls, zero_add, add_zero, Multiset.card_map]

omit [DecidableEq W] [DecidableEq J] in
/-- A job is counted, out, or still to be handed out. -/
theorem Clean.count_add {p : Pool W J} (h : Clean p) : p.count + p.calls.card + p.pending.card = p.jobs.card := by
  rw [h.count, ← h.jobs, h.sent, Multiset.card_add, Multiset.card_map, Multiset.card_add]
  omega

end WorkPool
