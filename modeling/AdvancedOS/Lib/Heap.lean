import Mathlib.Algebra.BigOperators.Group.Finset.Basic
import Mathlib.Algebra.GroupWithZero.Nat
import Mathlib.Data.List.Perm.Subperm
import Mathlib.Data.List.Nodup
import Mathlib.Data.Set.Function
import Mathlib.Logic.Relation
import Mathlib.Order.Interval.Set.Defs

/-!
# Trees over ranks

The `k`-ary tree on the ranks `0, …, n - 1` with the layout of an array heap: the parent of
`c ≠ 0` is `(c - 1) / k`, and the children of `p` are the ranks from `k * p + 1` on, at most `k`
of them and all below `n`.

* `isTree_children`: its edges make a tree.
* `sum_length_children`: there are as many children as ranks other than 0.
* `bijOn_slot`: every rank other than 0 is one of the `k` slots of its parent, and every slot whose
  number is below `n` is taken.
-/

namespace Heap

/-- The parent of a rank other than 0. -/
def parent (k c : Nat) : Nat := (c - 1) / k

/-- The children of `p` below `n`. -/
def children (k n p : Nat) : List Nat :=
  List.range' (k * p + 1) (min k (n - (k * p + 1)))

theorem parent_lt {k c : Nat} (hc : c ≠ 0) : parent k c < c :=
  Nat.lt_of_le_of_lt (Nat.div_le_self _ _) (by omega)

theorem parent_le (k c : Nat) : parent k c ≤ c :=
  Nat.le_trans (Nat.div_le_self _ _) (by omega)

theorem mem_children {k n p c : Nat} (hk : 0 < k) :
    c ∈ children k n p ↔ c ≠ 0 ∧ c < n ∧ parent k c = p := by
  have hdiv : c ≠ 0 → (parent k c = p ↔ k * p + 1 ≤ c ∧ c < k * p + 1 + k) := by
    intro hc
    rw [parent, Nat.div_eq_iff hk]
    rw [Nat.mul_comm p k]
    omega
  rw [children, List.mem_range'_1]
  constructor
  · rintro ⟨hlo, hhi⟩
    have hc : c ≠ 0 := by omega
    exact ⟨hc, by omega, (hdiv hc).mpr ⟨hlo, by omega⟩⟩
  · rintro ⟨hc, hn, hp⟩
    obtain ⟨hlo, hhi⟩ := (hdiv hc).mp hp
    exact ⟨hlo, by omega⟩

theorem length_children (k n p : Nat) : (children k n p).length = min k (n - (k * p + 1)) :=
  List.length_range'

theorem nodup_children (k n p : Nat) : (children k n p).Nodup := List.nodup_range'

/-- Distinct children, as many as there are, are all of them. -/
theorem mem_of_length {k n p : Nat} {l : List Nat} (hnd : l.Nodup)
    (hsub : ∀ c ∈ l, c ∈ children k n p) (hlen : (children k n p).length ≤ l.length) {c : Nat}
    (hc : c ∈ children k n p) : c ∈ l :=
  ((hnd.subperm hsub).perm_of_length_le hlen).mem_iff.mpr hc

/-- What holds at 0, and at every rank whose parent has it, holds everywhere. -/
theorem induction (k : Nat) {P : Nat → Prop} {n : Nat} (h0 : 0 < n → P 0)
    (hstep : ∀ c < n, c ≠ 0 → P (parent k c) → P c) : ∀ c < n, P c := by
  intro c
  induction c using Nat.strongRecOn with
  | _ c ih =>
    intro hc
    by_cases h : c = 0
    · subst h; exact h0 hc
    · exact hstep c hc h (ih _ (parent_lt h) (Nat.lt_of_le_of_lt (parent_le k c) hc))

/-! ## Trees -/

/-- The edges from parents to children make a tree of the ranks below `n` with the root 0: every edge
leads to a larger rank below `n`, every rank other than 0 has exactly one parent, and every rank is
reached from 0. -/
structure IsTree (n : Nat) (child : Nat → Nat → Prop) : Prop where
  edge : ∀ p c, child p c → p < c ∧ c < n
  parent : ∀ c < n, c ≠ 0 → ∃! p, child p c
  reach : ∀ c < n, Relation.ReflTransGen child 0 c

theorem isTree_children {k n : Nat} (hk : 0 < k) : IsTree n fun p c => c ∈ children k n p where
  edge p c hc := by
    obtain ⟨hc0, hn, rfl⟩ := (mem_children hk).mp hc
    exact ⟨parent_lt hc0, hn⟩
  parent c hn hc0 :=
    ⟨Heap.parent k c, (mem_children hk).mpr ⟨hc0, hn, rfl⟩, fun _ hp => ((mem_children hk).mp hp).2.2.symm⟩
  reach := by
    refine Heap.induction k (fun _ => .refl) fun c hn hc0 hparent => ?_
    exact hparent.tail ((mem_children hk).mpr ⟨hc0, hn, rfl⟩)

/-- Every rank other than 0 is the child of exactly one rank. -/
theorem sum_length_children {k : Nat} (hk : 0 < k) (n : Nat) :
    ∑ p ∈ Finset.range n, (children k n p).length = n - 1 := by
  have hmaps : ∀ c ∈ (Finset.range n).erase 0, parent k c ∈ Finset.range n := by
    intro c hc
    have hlt := Finset.mem_range.mp (Finset.mem_of_mem_erase hc)
    exact Finset.mem_range.mpr (Nat.lt_of_le_of_lt (parent_le k c) hlt)
  have hfiber : ∀ p ∈ Finset.range n,
      (((Finset.range n).erase 0).filter fun c => parent k c = p).card = (children k n p).length := by
    intro p _
    rw [← List.toFinset_card_of_nodup (nodup_children k n p)]
    refine congrArg Finset.card (Finset.ext fun c => ?_)
    rw [List.mem_toFinset, mem_children hk, Finset.mem_filter, Finset.mem_erase, Finset.mem_range, and_assoc]
  have hcard : ((Finset.range n).erase 0).card = n - 1 := by
    rcases n with _ | n
    · rfl
    · rw [Finset.card_erase_of_mem (by simp), Finset.card_range]
  rw [← hcard, Finset.card_eq_sum_card_fiberwise hmaps]
  exact (Finset.sum_congr rfl hfiber).symm

/-! ## Slots -/

/-- The parent of a rank other than 0, and which of its `k` children the rank is. -/
def slot (k : Nat) [NeZero k] (c : Nat) : Nat × Fin k := (parent k c, Fin.ofNat k (c - 1))

/-- The rank in a slot. -/
def child (k : Nat) (s : Nat × Fin k) : Nat := k * s.1 + 1 + s.2

variable {k : Nat} [NeZero k]

theorem child_slot {c : Nat} (hc : c ≠ 0) : child k (slot k c) = c := by
  have hdiv := Nat.div_add_mod (c - 1) k
  show k * ((c - 1) / k) + 1 + (c - 1) % k = c
  omega

theorem slot_child (s : Nat × Fin k) : slot k (child k s) = s := by
  obtain ⟨p, m⟩ := s
  have hpred : k * p + 1 + m - 1 = k * p + m := by omega
  refine Prod.ext ?_ (Fin.ext ?_)
  · show (k * p + 1 + m - 1) / k = p
    rw [hpred, Nat.mul_add_div (Nat.pos_of_neZero k), Nat.div_eq_of_lt m.isLt, Nat.add_zero]
  · show (k * p + 1 + m - 1) % k = m
    rw [hpred, Nat.mul_add_mod, Nat.mod_eq_of_lt m.isLt]

theorem eq_child_iff {c : Nat} {s : Nat × Fin k} : c = child k s ↔ c ≠ 0 ∧ slot k c = s := by
  constructor
  · rintro rfl
    exact ⟨by unfold child; omega, slot_child s⟩
  · rintro ⟨hc, rfl⟩
    exact (child_slot hc).symm

/-- The slots that are taken are those whose rank is below `n`. -/
theorem bijOn_slot (n : Nat) : Set.BijOn (slot k) (Set.Ico 1 n) {s | child k s < n} := by
  have hinv : Set.InvOn (child k) (slot k) (Set.Ico 1 n) {s | child k s < n} :=
    ⟨fun c hc => child_slot (Nat.one_le_iff_ne_zero.mp hc.1), fun s _ => slot_child s⟩
  refine hinv.bijOn ?_ ?_
  · intro c hc
    show child k (slot k c) < n
    rw [child_slot (Nat.one_le_iff_ne_zero.mp hc.1)]
    exact hc.2
  · intro s hs
    exact ⟨by unfold child; omega, hs⟩

end Heap
