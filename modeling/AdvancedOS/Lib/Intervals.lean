import Mathlib.Data.List.Basic
import Mathlib.Order.Lattice

/-!
# Intervals side by side

`Tiles hi lo spans`: half-open intervals, none of them empty, that follow each other without a gap from
`lo` to `hi`.

* `tiles_concat`: one more interval at the end.
* `Tiles.inside`: where the intervals lie.
* `Tiles.countP_eq_one`: a point between `lo` and `hi` lies in exactly one of them.
-/

namespace Intervals

universe u

variable {α : Type u} [LinearOrder α] {lo hi p : α} {spans : List (α × α)}

def Tiles (hi : α) : α → List (α × α) → Prop
  | lo, [] => lo = hi
  | lo, (a, b) :: spans => a = lo ∧ a < b ∧ Tiles hi b spans

theorem tiles_concat {mid : α} (h : Tiles mid lo spans) (hlt : mid < hi) : Tiles hi lo (spans ++ [(mid, hi)]) := by
  induction spans generalizing lo with
  | nil => exact ⟨h.symm, hlt, rfl⟩
  | cons x spans ih => exact ⟨h.1, h.2.1, ih h.2.2⟩

theorem Tiles.le (h : Tiles hi lo spans) : lo ≤ hi := by
  induction spans generalizing lo with
  | nil => exact le_of_eq h
  | cons x spans ih => exact h.1 ▸ le_trans (le_of_lt h.2.1) (ih h.2.2)

theorem Tiles.inside (h : Tiles hi lo spans) : ∀ x ∈ spans, lo ≤ x.1 ∧ x.1 < x.2 ∧ x.2 ≤ hi := by
  induction spans generalizing lo with
  | nil => exact fun x hx => absurd hx List.not_mem_nil
  | cons y spans ih =>
    obtain ⟨rfl, hlt, hrest⟩ := h
    intro x hx
    rcases List.mem_cons.mp hx with rfl | hx
    · exact ⟨le_refl _, hlt, hrest.le⟩
    · obtain ⟨h1, h2, h3⟩ := ih hrest x hx
      exact ⟨le_trans (le_of_lt hlt) h1, h2, h3⟩

/-- No interval holds a point before the first one. -/
theorem Tiles.countP_eq_zero (h : Tiles hi lo spans) (hp : p < lo) :
    spans.countP (fun x => decide (x.1 ≤ p ∧ p < x.2)) = 0 := by
  refine List.countP_eq_zero.mpr fun x hx hin => ?_
  have hlo := (h.inside x hx).1
  exact absurd (lt_of_lt_of_le hp hlo) (not_lt_of_ge (of_decide_eq_true hin).1)

theorem Tiles.countP_eq_one (h : Tiles hi lo spans) (hlo : lo ≤ p) (hhi : p < hi) :
    spans.countP (fun x => decide (x.1 ≤ p ∧ p < x.2)) = 1 := by
  induction spans generalizing lo with
  | nil => exact absurd (lt_of_le_of_lt (h ▸ hlo) hhi) (lt_irrefl _)
  | cons x spans ih =>
    obtain ⟨a, b⟩ := x
    obtain ⟨rfl, -, hrest⟩ := h
    rw [List.countP_cons]
    rcases lt_or_ge p b with hp | hp
    · rw [hrest.countP_eq_zero hp, if_pos (decide_eq_true ⟨hlo, hp⟩)]
    · rw [ih hrest hp, if_neg fun hin => absurd (of_decide_eq_true hin).2 (not_lt_of_ge hp)]

end Intervals
