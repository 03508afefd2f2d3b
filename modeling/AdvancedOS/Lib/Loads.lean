import Mathlib.Algebra.BigOperators.Group.List.Basic
import Mathlib.Algebra.Order.Group.Defs
import Mathlib.Order.Lattice

/-!
# Loads

Jobs with loads of their own are put on places one after the other.

* `loadOf`: what a list of jobs puts on a place.
* `Within.add_least`: a job that is put on a place with the least load keeps the loads within a bound that is
  at least its own load.
-/

namespace Loads

variable {ι κ K : Type} [AddCommGroup K] {loads : ι → K}

section

variable [DecidableEq ι]

/-- The sum of the loads of the jobs on the place. -/
def loadOf (load : κ → K) (jobs : List (κ × ι)) (p : ι) : K :=
  ((jobs.filter fun x => x.2 = p).map fun x => load x.1).sum

variable {load : κ → K} {jobs : List (κ × ι)} {p : ι}

@[simp] theorem loadOf_nil : loadOf load [] p = 0 := rfl

theorem loadOf_concat (k : κ) (q : ι) :
    loadOf load (jobs ++ [(k, q)]) p = loadOf load jobs p + if q = p then load k else 0 := by
  by_cases h : q = p <;> simp [loadOf, h]

theorem loadOf_of_notMem (h : p ∉ jobs.map Prod.snd) : loadOf load jobs p = 0 := by
  have hnone : jobs.filter (fun x => x.2 = p) = [] := by
    refine List.filter_eq_nil_iff.mpr fun x hx heq => h ?_
    exact of_decide_eq_true heq ▸ List.mem_map_of_mem hx
  rw [loadOf, hnone]
  rfl

end

variable [LinearOrder K] [IsOrderedAddMonoid K]

/-- The loads of any two of the places differ by at most the bound. -/
def Within (places : Set ι) (bound : K) (loads : ι → K) : Prop :=
  ∀ p ∈ places, ∀ q ∈ places, loads p ≤ loads q + bound

variable {places : Set ι} {bound u : K} {p : ι}

theorem within_of_le (h : ∀ p ∈ places, 0 ≤ loads p ∧ loads p ≤ bound) : Within places bound loads := by
  intro p hp q hq
  calc loads p ≤ bound := (h p hp).2
    _ ≤ loads q + bound := le_add_of_nonneg_left (h q hq).1

theorem Within.add_least [DecidableEq ι] (h : Within places bound loads) (hp : p ∈ places)
    (hleast : ∀ q ∈ places, loads p ≤ loads q) (hu : 0 ≤ u) (hbound : u ≤ bound) :
    Within places bound (Function.update loads p (loads p + u)) := by
  have hstep : ∀ q ∈ places, loads p + u ≤ loads q + bound :=
    fun q hq => add_le_add (hleast q hq) hbound
  intro a ha b hb
  by_cases hap : a = p
  · subst hap
    by_cases hba : b = a
    · subst hba
      exact le_add_of_nonneg_right (hu.trans hbound)
    · rw [Function.update_self, Function.update_of_ne hba]
      exact hstep b hb
  · rw [Function.update_of_ne hap]
    by_cases hbp : b = p
    · subst hbp
      rw [Function.update_self, add_right_comm]
      exact (h a ha b hb).trans (le_add_of_nonneg_right hu)
    · rw [Function.update_of_ne hbp]
      exact h a ha b hb

end Loads
