import Mathlib.Algebra.BigOperators.Group.Finset.Basic
import Mathlib.Data.Nat.Find
import AdvancedOS.Lib.Potential
import AdvancedOS.Cpu.OneEach

/-!
# Pass after pass, with room for every domain

The invocations of `CPUScheduler` one after another, for the same domains, of which there are no more than
processors. A domain that is not pinned stays where it is. The usages of a pass are arbitrary, and exact numbers
here: a pass rebalances if they put the loads of the processors far enough apart.

One pass may leave domains together (`Roomy.oneEach_iff`). But it moves the first domain that clashes with one
before it and no other, to a processor that none of the domains before it is on. So the first clash comes later and
later, and the passes settle.

* `Roomy.apartUpTo`: how many domains do not clash, from domain 1 on; `Roomy.apartUpTo_pass` for one pass.
* `Roomy.settles`: what any sequence of passes comes to.
-/

namespace AdvancedOS.Cpu

open Finset Potential

/-- `calculate_pcpu_workload`, from loads of 0. -/
def calculatePcpuWorkload (nVms : Nat) (usage : Nat → ℚ) (mapping : Nat → Nat) : Nat → ℚ :=
  (List.range nVms).foldl
    (fun workloads vm => Function.update workloads (mapping vm) (workloads (mapping vm) + usage vm)) fun _ => 0

/-- `calculate_std_dev`, before the root is taken. -/
def variance (nHostCpus : Nat) (workloads : Nat → ℚ) : ℚ :=
  let mean := ((List.range nHostCpus).map workloads).sum / nHostCpus
  ((List.range nHostCpus).map fun p => (workloads p - mean) * (workloads p - mean)).sum / nHostCpus

/-- `BALANCE_THRESHOLD`. -/
def balanceThreshold : ℚ := 5

namespace Roomy

/-- The standard deviation of the loads is above the threshold. -/
def Unbalanced (r : Roomy) (usage : Nat → ℚ) : Prop :=
  balanceThreshold * balanceThreshold < variance r.nHostCpus (calculatePcpuWorkload r.nVms usage r.mapping)

instance (r : Roomy) (usage : Nat → ℚ) : Decidable (r.Unbalanced usage) := inferInstanceAs (Decidable (_ < _))

theorem place_lt (r : Roomy) {vm : Nat} (hvm : vm < r.nVms) : r.place vm < r.nHostCpus := by
  rcases r.place_cases with ⟨-, hplace⟩ | ⟨e, d, h, -, -, hhighest, hplace⟩
  · rw [hplace]
    exact r.mapping_lt vm hvm
  · rw [hplace]
    split
    · exact hhighest.lt
    · exact r.mapping_lt vm hvm

/-- Where the domains are after a pass. -/
def pass (r : Roomy) (usage : Nat → ℚ) : Roomy :=
  if r.Unbalanced usage then { r with mapping := r.place, mapping_lt := fun _ => r.place_lt } else r

/-- Where they are after `t` passes. -/
def passes (r : Roomy) (usage : Nat → Nat → ℚ) : Nat → Roomy
  | 0 => r
  | t + 1 => (r.passes usage t).pass (usage t)

/-- The number of passes that rebalance, of the first `T`. -/
def rebalancings (r : Roomy) (usage : Nat → Nat → ℚ) (T : Nat) : Nat :=
  ((range T).filter fun t => (r.passes usage t).Unbalanced (usage t)).card

/-- The number of domains that pass `t` moves. -/
def moved (r : Roomy) (usage : Nat → Nat → ℚ) (t : Nat) : Nat :=
  ((range r.nVms).filter fun vm => (r.passes usage (t + 1)).mapping vm ≠ (r.passes usage t).mapping vm).card

open Classical in
/-- The domains from 1 on and before this one are on different processors. -/
noncomputable def apartUpTo (r : Roomy) : Nat :=
  Nat.findGreatest (fun i => Set.InjOn r.mapping (Set.Ico 1 i)) r.nVms

variable {r : Roomy} {usage : Nat → ℚ}

@[simp] theorem pass_nVms (r : Roomy) (usage : Nat → ℚ) : (r.pass usage).nVms = r.nVms := by
  unfold pass
  split <;> rfl

@[simp] theorem passes_nVms (r : Roomy) (usage : Nat → Nat → ℚ) (t : Nat) : (r.passes usage t).nVms = r.nVms := by
  induction t with
  | zero => rfl
  | succ t ih => rw [passes, pass_nVms, ih]

/-! ## One pass -/

theorem apartUpTo_le (r : Roomy) : r.apartUpTo ≤ r.nVms := by
  classical
  exact Nat.findGreatest_le _

theorem injOn_apartUpTo (r : Roomy) : Set.InjOn r.mapping (Set.Ico 1 r.apartUpTo) := by
  classical
  have hzero : Set.InjOn r.mapping (Set.Ico 1 0) := by simp
  exact Nat.findGreatest_spec (P := fun i => Set.InjOn r.mapping (Set.Ico 1 i)) (Nat.zero_le r.nVms) hzero

theorem le_apartUpTo {i : Nat} (hle : i ≤ r.nVms) (hinj : Set.InjOn r.mapping (Set.Ico 1 i)) : i ≤ r.apartUpTo := by
  classical
  exact Nat.le_findGreatest hle hinj

/-- All domains but domain 0 are apart. -/
theorem apartUpTo_eq_iff : r.apartUpTo = r.nVms ↔ Set.InjOn r.mapping (Set.Ico 1 r.nVms) := by
  refine ⟨fun heq => ?_, fun hinj => Nat.le_antisymm r.apartUpTo_le (le_apartUpTo (Nat.le_refl _) hinj)⟩
  rw [← heq]
  exact r.injOn_apartUpTo

/-- Two domains clash at the earliest from domain 2 on. -/
theorem two_le_apartUpTo (h : 2 ≤ r.nVms) : 2 ≤ r.apartUpTo := by
  refine le_apartUpTo h fun a ha b hb _ => ?_
  have ha' := Set.mem_Ico.mp ha
  have hb' := Set.mem_Ico.mp hb
  omega

/-- The first domain that clashes. -/
theorem apartUpTo_of_clash {e d : Nat} (hclash : Clash r.mapping e d) (hlt : d < r.nVms) : r.apartUpTo = d := by
  refine Nat.le_antisymm ?_ (le_apartUpTo (Nat.le_of_lt hlt) hclash.apart)
  by_contra hgt
  have he : e ∈ Set.Ico 1 r.apartUpTo := ⟨hclash.pos, Nat.lt_trans hclash.lt (Nat.not_le.mp hgt)⟩
  have hd : d ∈ Set.Ico 1 r.apartUpTo := ⟨Nat.lt_trans hclash.pos hclash.lt, Nat.not_le.mp hgt⟩
  exact Nat.ne_of_lt hclash.lt (r.injOn_apartUpTo he hd hclash.eq)

/-- A pass leaves all domains where they are, and if it rebalances, they were apart; or it moves one domain, not
domain 0, and more of them are apart. -/
theorem pass_cases (r : Roomy) (usage : Nat → ℚ) :
    (∀ vm, (r.pass usage).mapping vm = r.mapping vm) ∧ (r.Unbalanced usage → r.apartUpTo = r.nVms) ∨
    ∃ d h, 0 < d ∧ d < r.nVms ∧ h ≠ r.mapping d ∧
      (∀ vm, (r.pass usage).mapping vm = if vm = d then h else r.mapping vm) ∧
      r.apartUpTo < (r.pass usage).apartUpTo := by
  unfold pass
  split
  · next hunbalanced =>
    rcases r.place_cases with ⟨hapart, hplace⟩ | ⟨e, d, h, hclash, hlt, hhighest, hplace⟩
    · exact .inl ⟨hplace, fun _ => apartUpTo_eq_iff.mpr hapart⟩
    · have hd : h ≠ r.mapping d := fun heq => hhighest.free e ⟨hclash.pos, hclash.lt⟩ (hclash.eq.trans heq.symm)
      refine .inr ⟨d, h, Nat.lt_trans hclash.pos hclash.lt, hlt, hd, hplace, ?_⟩
      rw [apartUpTo_of_clash hclash hlt]
      refine le_apartUpTo hlt (injOn_succ (fun a ha b hb heq => ?_) fun k hk => ?_)
      · replace heq : r.place a = r.place b := heq
        rw [hplace, hplace, if_neg (Nat.ne_of_lt ha.2), if_neg (Nat.ne_of_lt hb.2)] at heq
        exact hclash.apart ha hb heq
      · show r.place k ≠ r.place d
        rw [hplace, hplace, if_neg (Nat.ne_of_lt hk.2), if_pos rfl]
        exact hhighest.free k hk
  · next hbalanced => exact .inl ⟨fun _ => rfl, fun h => absurd h hbalanced⟩

theorem apartUpTo_pass (r : Roomy) (usage : Nat → ℚ) : r.apartUpTo ≤ (r.pass usage).apartUpTo := by
  rcases r.pass_cases usage with ⟨hstay, -⟩ | ⟨-, -, -, -, -, -, hless⟩
  · refine le_apartUpTo (by simpa using r.apartUpTo_le) fun a ha b hb heq => ?_
    rw [hstay, hstay] at heq
    exact r.injOn_apartUpTo ha hb heq
  · exact Nat.le_of_lt hless

/-! ## Any number of passes -/

section

variable (r : Roomy) (usage : Nat → Nat → ℚ)

theorem apartUpTo_mono {s t : Nat} (h : s ≤ t) : (r.passes usage s).apartUpTo ≤ (r.passes usage t).apartUpTo :=
  have hpass (t : Nat) : (r.passes usage t).apartUpTo ≤ (r.passes usage (t + 1)).apartUpTo :=
    (r.passes usage t).apartUpTo_pass (usage t)
  monotone_nat_of_le_succ hpass h

/-- A pass moves no domain, or one, after which more of them are apart. -/
theorem moved_cases (t : Nat) :
    r.moved usage t = 0 ∧ ((r.passes usage t).Unbalanced (usage t) → (r.passes usage t).apartUpTo = r.nVms) ∨
    r.moved usage t = 1 ∧ (r.passes usage t).apartUpTo < (r.passes usage (t + 1)).apartUpTo := by
  rcases (r.passes usage t).pass_cases (usage t) with ⟨hstay, hsettled⟩ | ⟨d, h, -, hlt, hne, hplace, hless⟩
  · rw [passes_nVms] at hsettled
    refine .inl ⟨?_, hsettled⟩
    rw [moved, card_eq_zero, filter_eq_empty_iff]
    exact fun vm _ => not_not.mpr (hstay vm)
  · rw [passes_nVms] at hlt
    refine .inr ⟨?_, hless⟩
    rw [moved, card_eq_one]
    refine ⟨d, ?_⟩
    ext vm
    rw [mem_filter, mem_range, mem_singleton, passes, hplace]
    by_cases hvm : vm = d
    · subst hvm
      simp [hlt, hne]
    · simp [hvm]

theorem pays : Pays (fun t => r.nVms - (r.passes usage t).apartUpTo) (r.moved usage) := by
  intro t
  have hle := (r.passes usage (t + 1)).apartUpTo_le
  rw [passes_nVms] at hle
  rcases r.moved_cases usage t with ⟨hmoved, -⟩ | ⟨hmoved, hless⟩
  · rw [hmoved]
    exact Nat.sub_le_sub_left (r.apartUpTo_mono usage (Nat.le_succ t)) _
  · show r.nVms - (r.passes usage (t + 1)).apartUpTo + r.moved usage t ≤ r.nVms - (r.passes usage t).apartUpTo
    omega

/-- Each pass that rebalances moves the first clash on, until there is none. -/
theorem min_le_apartUpTo (T : Nat) :
    min r.nVms (r.rebalancings usage T + 2) ≤ (r.passes usage T).apartUpTo := by
  induction T with
  | zero =>
    rcases Nat.lt_or_ge r.nVms 2 with hlt | hge
    · refine le_trans (min_le_left _ _) (le_apartUpTo (Nat.le_refl _) fun a ha b hb _ => ?_)
      have ha' := Set.mem_Ico.mp ha
      have hb' := Set.mem_Ico.mp hb
      omega
    · simpa [rebalancings] using .inr (two_le_apartUpTo hge)
  | succ T ih =>
    have hmono := r.apartUpTo_mono usage (Nat.le_succ T)
    have hrange : r.rebalancings usage (T + 1) =
        r.rebalancings usage T + if (r.passes usage T).Unbalanced (usage T) then 1 else 0 := by
      rw [rebalancings, range_add_one, filter_insert]
      split
      · rw [card_insert_of_notMem (by simp)]
        rfl
      · rfl
    rw [hrange]
    split
    · next hunbalanced =>
      rcases r.moved_cases usage T with ⟨-, hsettled⟩ | ⟨-, hless⟩
      · exact le_trans (min_le_left _ _) (hsettled hunbalanced ▸ hmono)
      · have hle : min r.nVms (r.rebalancings usage T + 1 + 2) ≤ min r.nVms (r.rebalancings usage T + 2) + 1 := by
          omega
        exact le_trans hle (le_trans (Nat.succ_le_succ ih) hless)
    · exact le_trans ih hmono

theorem mapping_zero (t : Nat) : (r.passes usage t).mapping 0 = r.mapping 0 := by
  induction t with
  | zero => rfl
  | succ t ih =>
    rw [passes]
    rcases (r.passes usage t).pass_cases (usage t) with ⟨hstay, -⟩ | ⟨d, h, hpos, -, -, hplace, -⟩
    · rw [hstay, ih]
    · rw [hplace, if_neg (Nat.ne_of_lt hpos), ih]

theorem eq_of_moved_eq_zero {t vm : Nat} (h : r.moved usage t = 0) (hvm : vm < r.nVms) :
    (r.passes usage (t + 1)).mapping vm = (r.passes usage t).mapping vm := by
  by_contra hne
  have hmem : vm ∈ (range r.nVms).filter fun vm =>
      (r.passes usage (t + 1)).mapping vm ≠ (r.passes usage t).mapping vm :=
    mem_filter.mpr ⟨mem_range.mpr hvm, hne⟩
  exact absurd (card_pos.mpr ⟨vm, hmem⟩) (Nat.not_lt.mpr (Nat.le_of_eq h))

/-- Whatever the usages: a pass moves one domain at most, and never domain 0; all passes together move at most two
domains fewer than there are; after as many rebalancing passes all domains but domain 0 are on different processors;
and from some pass on every domain stays. -/
theorem settles :
    (∀ t, r.moved usage t ≤ 1) ∧ (∀ t, (r.passes usage t).mapping 0 = r.mapping 0) ∧
    (∀ T, ∑ t ∈ range T, r.moved usage t ≤ r.nVms - 2) ∧
    (∀ T, r.nVms ≤ r.rebalancings usage T + 2 → Set.InjOn (r.passes usage T).mapping (Set.Ico 1 r.nVms)) ∧
    ∃ T, ∀ t, T ≤ t → ∀ vm < r.nVms, (r.passes usage t).mapping vm = (r.passes usage T).mapping vm := by
  have hpays := r.pays usage
  refine ⟨fun t => ?_, r.mapping_zero usage, fun T => ?_, fun T hmany => ?_, ?_⟩
  · rcases r.moved_cases usage t with ⟨hmoved, -⟩ | ⟨hmoved, -⟩ <;> omega
  · have hstart := r.min_le_apartUpTo usage 0
    refine le_trans (hpays.sum_cost_le T) ?_
    show r.nVms - (r.passes usage 0).apartUpTo ≤ r.nVms - 2
    omega
  · have hle := r.min_le_apartUpTo usage T
    rw [min_eq_left hmany] at hle
    have heq := Nat.le_antisymm (r.passes usage T).apartUpTo_le (by rwa [passes_nVms])
    have hinj := apartUpTo_eq_iff.mp heq
    rwa [passes_nVms] at hinj
  · obtain ⟨T, hfree⟩ := hpays.eventually_free
    refine ⟨T, fun t ht vm hvm => ?_⟩
    induction t, ht using Nat.le_induction with
    | base => rfl
    | succ t ht ih => rw [r.eq_of_moved_eq_zero usage (hfree t ht) hvm, ih]

end

/-- Three domains on processor 0, of four: the first pass moves domain 2 to processor 3, and no later one moves
domain 1 away from domain 0. -/
example : [0, 1, 2].map (Roomy.passes ⟨4, 3, fun _ => 0, by decide, by decide⟩ (fun _ _ => 50) 3).mapping =
    [0, 0, 3] := by
  decide +kernel

end Roomy

end AdvancedOS.Cpu
