import Mathlib.Algebra.BigOperators.Group.Finset.Basic
import Mathlib.Order.Monotone.Basic

/-!
# Potentials

A run whose costs are paid from a potential, and potentials that are sums over the parts of a system.

* `sum_update`, `sum_change`: a step of one part changes the sum by the change of that part.
* `Pays.sum_cost_le`: all costs together are at most the potential at the start.
* `Pays.eventually_free`: from some time on nothing costs.
-/

namespace Potential

open Finset

/-! ## Sums over the parts of a system -/

theorem sum_update {W M : Type} [DecidableEq W] [AddCommMonoid M] {S : Finset W} {w : W} (hw : w ∈ S)
    (f : W → M) (v : M) : ∑ x ∈ S, Function.update f w v x + f w = ∑ x ∈ S, f x + v := by
  have hrest : ∑ x ∈ S.erase w, Function.update f w v x = ∑ x ∈ S.erase w, f x :=
    Finset.sum_congr rfl fun x hx => Function.update_of_ne (Finset.ne_of_mem_erase hx) _ _
  rw [← Finset.add_sum_erase S _ hw, ← Finset.add_sum_erase S f hw, hrest, Function.update_self,
    add_comm v, add_right_comm, add_comm (f w)]

/-- A step in which only part `w` changes. -/
theorem sum_change {W M : Type} [DecidableEq W] [AddCommMonoid M] {S : Finset W} {w : W} (hw : w ∈ S)
    {f g : W → M} (hoff : ∀ x ≠ w, g x = f x) : ∑ x ∈ S, g x + f w = ∑ x ∈ S, f x + g w := by
  have hg : g = Function.update f w (g w) := by
    funext x
    by_cases hx : x = w
    · rw [hx, Function.update_self]
    · rw [Function.update_of_ne hx, hoff x hx]
  calc ∑ x ∈ S, g x + f w = ∑ x ∈ S, Function.update f w (g w) x + f w := by rw [← hg]
    _ = ∑ x ∈ S, f x + g w := sum_update hw f (g w)

/-! ## Costs -/

/-- Every step pays its cost out of the potential. -/
def Pays (f cost : Nat → Nat) : Prop := ∀ t, f (t + 1) + cost t ≤ f t

variable {f cost : Nat → Nat}

theorem Pays.antitone (h : Pays f cost) : Antitone f :=
  antitone_nat_of_succ_le fun t => Nat.le_of_add_right_le (h t)

theorem Pays.sum_cost_le (h : Pays f cost) (T : Nat) : ∑ t ∈ range T, cost t ≤ f 0 := by
  have hsum : f T + ∑ t ∈ range T, cost t ≤ f 0 := by
    induction T with
    | zero => simp
    | succ T ih =>
      have hstep := h T
      rw [sum_range_succ]
      omega
  exact Nat.le_trans (Nat.le_add_left _ _) hsum

theorem Pays.eventually_free (h : Pays f cost) : ∃ T, ∀ t, T ≤ t → cost t = 0 := by
  -- induction on the potential: at the next cost there is less of it left
  have hind : ∀ n T, f T ≤ n → ∃ T', ∀ t, T' ≤ t → cost t = 0 := by
    intro n
    induction n with
    | zero =>
      intro T hT
      refine ⟨T, fun t ht => ?_⟩
      have hstep := h t
      have hanti := h.antitone ht
      omega
    | succ n ih =>
      intro T hT
      by_cases hall : ∀ t, T ≤ t → cost t = 0
      · exact ⟨T, hall⟩
      · push Not at hall
        obtain ⟨t, ht, hcost⟩ := hall
        have hstep := h t
        have hanti := h.antitone ht
        exact ih (t + 1) (by omega)
  exact hind (f 0) 0 (Nat.le_refl _)

end Potential
