import AdvancedOS.Lib.Lts

/-!
# What a barrier is for

The abstract barrier counts, for every party, the calls it has entered and the calls it
has returned from. A party may enter when it is outside. It may return from its call
number `k` only when every party has entered its own call number `k`.

`safe` is the law of the barrier; `safe_of_refinement` gives it to every system that
refines the abstract one.
-/

namespace Barrier

open Lts

variable {ι : Type}

/-- Calls entered and calls returned from, by party. -/
@[ext] structure Counts (ι : Type) where
  entered : ι → Nat
  returned : ι → Nat

inductive Act (ι : Type)
  | enter (i : ι)
  | leave (i : ι)

open Classical in
/-- The abstract barrier. -/
noncomputable def system (ι : Type) : System (Counts ι) (Act ι) where
  init := ⟨fun _ => 0, fun _ => 0⟩
  next
    | .enter i, c =>
      if c.entered i = c.returned i then
        some { c with entered := Function.update c.entered i (c.entered i + 1) }
      else none
    | .leave i, c =>
      if ∀ j, c.returned i < c.entered j then
        some { c with returned := Function.update c.returned i (c.returned i + 1) }
      else none

/-- No party has returned from more calls than any party has entered. -/
theorem safe {c : Counts ι} (h : Reach (system ι) c) (i j : ι) : c.returned i ≤ c.entered j := by
  induction h generalizing i j with
  | init => exact Nat.le_refl 0
  | @step s t a _ _ hs ih =>
    cases a with
    | enter k =>
      simp only [system] at hs
      split at hs
      · cases hs
        by_cases hj : j = k
        · subst hj
          simpa using Nat.le_succ_of_le (ih i j)
        · simpa [hj] using ih i j
      · cases hs
    | leave k =>
      simp only [system] at hs
      split at hs
      · next hk =>
        cases hs
        by_cases hi : i = k
        · subst hi
          simp only [Function.update_self]
          exact hk j
        · simpa [hi] using ih i j
      · cases hs

/-- What one party does to its own counts in a step: nothing, entering, or leaving. -/
inductive Local (c c' : Counts ι) (i : ι) : Prop
  | silent : c'.entered i = c.entered i → c'.returned i = c.returned i → Local c c' i
  | enter : c.entered i = c.returned i → c'.entered i = c.entered i + 1 →
      c'.returned i = c.returned i → Local c c' i
  | leave : (∀ j, c.returned i < c.entered j) → c'.entered i = c.entered i →
      c'.returned i = c.returned i + 1 → Local c c' i

open Classical in
/-- A change of the counts of one party is a step of the abstract barrier, or none. -/
theorem step_of_local {c c' : Counts ι} (i : ι)
    (hframe : ∀ j, j ≠ i → c'.entered j = c.entered j ∧ c'.returned j = c.returned j)
    (h : Local c c' i) : c' = c ∨ ∃ b, (system ι).next b c = some c' := by
  have hent : ∀ {k}, c'.entered i = k → c'.entered = Function.update c.entered i k := fun hk => by
    funext j
    by_cases hj : j = i
    · subst hj; simp [hk]
    · simp [hj, (hframe j hj).1]
  have hret : ∀ {k}, c'.returned i = k → c'.returned = Function.update c.returned i k := fun hk => by
    funext j
    by_cases hj : j = i
    · subst hj; simp [hk]
    · simp [hj, (hframe j hj).2]
  cases h with
  | silent he hr =>
    left
    ext1
    · rw [hent he, Function.update_eq_self]
    · rw [hret hr, Function.update_eq_self]
  | enter hout he hr =>
    refine .inr ⟨.enter i, ?_⟩
    simp only [system, hout, if_true, Option.some.injEq]
    ext1
    · rw [hent he, hout]
    · rw [hret hr, Function.update_eq_self]
  | leave hall he hr =>
    refine .inr ⟨.leave i, ?_⟩
    simp only [system, if_pos hall, Option.some.injEq]
    ext1
    · rw [hent he, Function.update_eq_self]
    · rw [hret hr]

/-- Every system that refines the abstract barrier obeys its law. -/
theorem safe_of_refinement {σ α : Type} {S : System σ α} {ok : α → σ → Prop}
    (R : Refinement S ok (system ι) fun _ _ => True) {s : σ} (h : ReachVia S ok s) (i j : ι) :
    (R.abs s).returned i ≤ (R.abs s).entered j :=
  safe (R.reach h) i j

end Barrier
