import Mathlib.Algebra.Order.Field.Rat
import Mathlib.Data.List.GetD
import Mathlib.Tactic.Linarith
import Mathlib.Tactic.Positivity
import AdvancedOS.Cpu.Rebalance
import AdvancedOS.Cpu.Scheduler

/-!
# The usages as percentages

What `calculate_vm_cpu_usages` divides, and how `qsort` orders the quotients. The dividend is in 64 bits without
a sign; the divisor is the product of two `int`s, which is converted to `double` only after it has been computed.
The quotients are exact numbers here.

* `cpuUsages_eq`: the usages, while the divisor fits.
* `Sample.right_iff`: exactly when they are the percentages of the interval.
* `usageOf_ne`, `cmpVmUsage_of_neg`: when the divisor does not fit, no `int` would do in its place, and a negative
  one turns the order round.
-/

namespace AdvancedOS.Cpu

/-- `interval * 1000000000`, in `int`; `none` is an overflow, which is undefined. -/
def intervalNs (interval : Int32) : Option Int :=
  if -2147483648 ≤ interval.toInt * 1000000000 ∧ interval.toInt * 1000000000 ≤ 2147483647 then
    some (interval.toInt * 1000000000)
  else none

/-- The quotient of the dividend and the length of the interval. -/
def usageOf (dividend : LL) (ns : Int) : ℚ := dividend.toNat / ns

/-- `calculate_vm_cpu_usages` with its division. A turn of the loop fails if an index is out of bounds or
the divisor overflows. -/
def cpuUsages (interval : Int32) (cpuTimes : Nat → LL) (currentCpuTimes : List LL) : Option (List Usage) :=
  match calculateVmCpuUsages cpuTimes 0 currentCpuTimes with
  | .error _ => none
  | .ok usages =>
    usages.mapM fun usage => (intervalNs interval).map fun ns => ⟨usage.vmId, usageOf usage.dividend ns⟩

/-- `cmp_vm_usage`. -/
def cmpVmUsage (vm1 vm2 : Usage) : Int :=
  if vm1.cpuUsage > vm2.cpuUsage then -1
  else if vm1.cpuUsage = vm2.cpuUsage then 0
  else 1

/-- What `qsort` with `cmp_vm_usage` may make of the usages. -/
structure Sorts (usages sorted : List Usage) : Prop where
  perm : sorted.Perm usages
  ascending : sorted.Pairwise fun vm1 vm2 => cmpVmUsage vm1 vm2 ≤ 0

/-- The CPU times at the end of an interval, of domains whose times do not decrease and do not grow by more than
the interval. -/
structure Sample where
  interval : Int32
  cpuTimes : Nat → LL
  currentCpuTimes : List LL
  interval_pos : 1 ≤ interval.toInt
  grown : ∀ i < currentCpuTimes.length, (cpuTimes i).toNat ≤ (currentCpuTimes.getD i 0).toNat
  within : ∀ i < currentCpuTimes.length,
    ((currentCpuTimes.getD i 0).toNat - (cpuTimes i).toNat : Int) ≤ interval.toInt * 1000000000

namespace Sample

/-- The CPU time that a domain has consumed in the interval. -/
def consumed (s : Sample) (i : Nat) : Nat := (s.currentCpuTimes.getD i 0).toNat - (s.cpuTimes i).toNat

def percent (s : Sample) (i : Nat) : ℚ := 100 * s.consumed i / (s.interval.toInt * 1000000000)

/-- The usages are the percentages, and sorting them sorts the domains by the time that they have consumed. -/
structure Exact (s : Sample) (usages : List Usage) : Prop where
  computed : cpuUsages s.interval s.cpuTimes s.currentCpuTimes = some usages
  eq : usages = (List.range s.currentCpuTimes.length).map fun i => ⟨i, s.percent i⟩
  bounded : ∀ u ∈ usages, 0 ≤ u.cpuUsage ∧ u.cpuUsage ≤ 100
  ordered : ∀ sorted, Sorts usages sorted → sorted.Pairwise fun a b => s.consumed b.vmId ≤ s.consumed a.vmId

def Right (s : Sample) : Prop := ∃ usages, s.Exact usages

end Sample

variable {interval : Int32} {cpuTimes : Nat → LL} {currents : List LL} {ns : Int} {usages sorted : List Usage}

/-! ## The division -/

/-- The divisor fits for an interval of one or two seconds. -/
theorem intervalNs_eq (hpos : 1 ≤ interval.toInt) :
    intervalNs interval = if interval.toInt ≤ 2 then some (interval.toInt * 1000000000) else none := by
  unfold intervalNs
  split <;> split <;> first | rfl | omega

theorem cpuUsages_eq (hlen : currents.length ≤ maxVm) (hns : intervalNs interval = some ns) :
    cpuUsages interval cpuTimes currents =
      some (currents.mapIdx fun i t => ⟨i, usageOf (100 * (t - cpuTimes i)) ns⟩) := by
  have hsteps : calculateVmCpuUsages cpuTimes 0 currents = .ok _ :=
    calculateVmCpuUsages_ok ((Nat.zero_add _).le.trans hlen)
  simp only [cpuUsages, hsteps, hns, Option.map_some, Nat.zero_add]
  refine (List.mapM_pure ..).trans (congrArg some ?_)
  exact List.ext_getElem (by simp) fun i _ _ => by simp

/-- What the loop needs once there is a domain. -/
theorem of_cpuUsages_eq_some (h : cpuUsages interval cpuTimes currents = some usages) (hne : currents ≠ []) :
    currents.length ≤ maxVm ∧ (intervalNs interval).isSome := by
  unfold cpuUsages at h
  rcases Nat.lt_or_ge maxVm currents.length with hlong | hlen
  · rw [calculateVmCpuUsages_error (Nat.zero_le _) (by omega)] at h
    cases h
  · refine ⟨hlen, ?_⟩
    rw [calculateVmCpuUsages_ok (by omega)] at h
    obtain ⟨t, currents, rfl⟩ := List.exists_cons_of_ne_nil hne
    cases hns : intervalNs interval with
    | none => simp [hns, List.mapIdx_cons] at h
    | some ns => rfl

/-- If the divisor does not fit, a domain that has consumed a nanosecond gets a wrong usage from every `int`. -/
theorem usageOf_ne (hinterval : 2 < interval.toInt) (hns : ns ≤ 2147483647) :
    usageOf (100 * 1) ns ≠ 100 * 1 / (interval.toInt * 1000000000) := by
  have hdividend : (100 * 1 : LL).toNat = 100 * 1 := rfl
  unfold usageOf
  rw [hdividend, Nat.cast_mul]
  intro heq
  have hinj := inv_injective (mul_left_cancel₀ (by norm_num) heq)
  have hint : ns = interval.toInt * 1000000000 := by exact_mod_cast hinj
  omega

/-! ## The order -/

theorem cmpVmUsage_nonpos {vm1 vm2 : Usage} : cmpVmUsage vm1 vm2 ≤ 0 ↔ vm2.cpuUsage ≤ vm1.cpuUsage := by
  unfold cmpVmUsage
  split
  · next hgt => exact iff_of_true (by decide) (le_of_lt hgt)
  · next hle =>
    split
    · next heq => exact iff_of_true (le_refl _) heq.ge
    · next hne =>
      refine iff_of_false (by decide) fun hge => hne (le_antisymm (not_lt.mp hle) hge)

/-- A negative divisor turns the order round. -/
theorem cmpVmUsage_of_neg {vm1 vm2 : Nat} {dividend1 dividend2 : LL} (hns : ns < 0) :
    cmpVmUsage ⟨vm1, usageOf dividend1 ns⟩ ⟨vm2, usageOf dividend2 ns⟩ ≤ 0 ↔ dividend1 ≤ dividend2 := by
  have hneg : (ns : ℚ) < 0 := by exact_mod_cast hns
  rw [cmpVmUsage_nonpos, UInt64.le_iff_toNat_le]
  show (dividend2.toNat : ℚ) / ns ≤ dividend1.toNat / ns ↔ _
  rw [div_le_div_right_of_neg hneg, Nat.cast_le]

namespace Sample

variable {s : Sample} {i : Nat}

theorem divisor_pos (s : Sample) : (0 : ℚ) < s.interval.toInt * 1000000000 := by
  have hpos : (1 : ℚ) ≤ s.interval.toInt := by exact_mod_cast s.interval_pos
  linarith

theorem consumed_le (s : Sample) (hi : i < s.currentCpuTimes.length) :
    (s.consumed i : Int) ≤ s.interval.toInt * 1000000000 := by
  have hgrown := s.grown i hi
  have hwithin := s.within i hi
  unfold consumed
  omega

/-- The dividend fits for an interval of one or two seconds. -/
theorem dividend_eq (s : Sample) (hinterval : s.interval.toInt ≤ 2) (hi : i < s.currentCpuTimes.length) :
    (100 * (s.currentCpuTimes.getD i 0 - s.cpuTimes i)).toNat = 100 * s.consumed i := by
  have hle := s.consumed_le hi
  have hsub : (s.currentCpuTimes.getD i 0 - s.cpuTimes i).toNat = s.consumed i :=
    UInt64.toNat_sub_of_le _ _ (UInt64.le_iff_toNat_le.mpr (s.grown i hi))
  rw [UInt64.toNat_mul, hsub]
  exact Nat.mod_eq_of_lt (by simp; omega)

theorem percent_le_iff (s : Sample) {j : Nat} : s.percent i ≤ s.percent j ↔ s.consumed i ≤ s.consumed j := by
  unfold percent
  rw [div_le_div_iff_of_pos_right s.divisor_pos, mul_le_mul_iff_right₀ (by norm_num), Nat.cast_le]

theorem percent_mem (s : Sample) (hi : i < s.currentCpuTimes.length) : 0 ≤ s.percent i ∧ s.percent i ≤ 100 := by
  have hle : (s.consumed i : ℚ) ≤ s.interval.toInt * 1000000000 := by exact_mod_cast s.consumed_le hi
  unfold percent
  refine ⟨div_nonneg (mul_nonneg (by norm_num) (Nat.cast_nonneg _)) s.divisor_pos.le, ?_⟩
  rw [div_le_iff₀ s.divisor_pos]
  exact mul_le_mul_of_nonneg_left hle (by norm_num)

theorem ordered (s : Sample)
    (heq : usages = (List.range s.currentCpuTimes.length).map fun i => ⟨i, s.percent i⟩)
    (hsorts : Sorts usages sorted) :
    sorted.Pairwise fun a b => s.consumed b.vmId ≤ s.consumed a.vmId := by
  have husage : ∀ u ∈ sorted, u.cpuUsage = s.percent u.vmId := by
    intro u hu
    obtain ⟨i, -, rfl⟩ := List.mem_map.mp (heq ▸ hsorts.perm.mem_iff.mp hu)
    rfl
  refine hsorts.ascending.imp_of_mem fun {a b} ha hb hle => ?_
  rw [cmpVmUsage_nonpos, husage a ha, husage b hb] at hle
  exact s.percent_le_iff.mp hle

/-- The usages are right exactly if there is no domain, or the domains fit into `cpu_times` and the interval has
at most two seconds. -/
theorem right_iff (s : Sample) :
    s.Right ↔ s.currentCpuTimes = [] ∨ s.currentCpuTimes.length ≤ maxVm ∧ s.interval.toInt ≤ 2 := by
  constructor
  · rintro ⟨usages, hexact⟩
    by_cases hne : s.currentCpuTimes = []
    · exact .inl hne
    · obtain ⟨hlen, hsome⟩ := of_cpuUsages_eq_some hexact.computed hne
      refine .inr ⟨hlen, ?_⟩
      rw [intervalNs_eq s.interval_pos] at hsome
      by_contra hno
      rw [if_neg hno] at hsome
      cases hsome
  · intro h
    have heq : cpuUsages s.interval s.cpuTimes s.currentCpuTimes =
        some ((List.range s.currentCpuTimes.length).map fun i => ⟨i, s.percent i⟩) := by
      rcases h with hnil | ⟨hlen, hinterval⟩
      · rw [hnil]
        rfl
      · rw [cpuUsages_eq hlen ((intervalNs_eq s.interval_pos).trans (if_pos hinterval))]
        refine congrArg some (List.ext_getElem (by simp) fun i hi _ => ?_)
        have hi' : i < s.currentCpuTimes.length := by simpa using hi
        have hdividend := s.dividend_eq hinterval hi'
        rw [List.getD_eq_getElem _ _ hi'] at hdividend
        simp only [List.getElem_mapIdx, List.getElem_map, List.getElem_range, usageOf, percent, hdividend]
        push_cast
        rfl
    refine ⟨_, heq, rfl, fun u hu => ?_, fun sorted => s.ordered rfl⟩
    obtain ⟨i, hi, rfl⟩ := List.mem_map.mp hu
    exact s.percent_mem (List.mem_range.mp hi)

/-- A domain whose CPU time goes from one second to two in an interval of three. -/
def threeSeconds : Sample where
  interval := 3
  cpuTimes _ := 1000000000
  currentCpuTimes := [2000000000]
  interval_pos := by decide
  grown := by decide
  within := by decide

/-- The divisor overflows. -/
theorem not_right_threeSeconds : intervalNs threeSeconds.interval = none ∧
    cpuUsages threeSeconds.interval threeSeconds.cpuTimes threeSeconds.currentCpuTimes = none ∧
    ¬ threeSeconds.Right := by
  have hnone : cpuUsages threeSeconds.interval threeSeconds.cpuTimes threeSeconds.currentCpuTimes = none := rfl
  refine ⟨rfl, hnone, ?_⟩
  rintro ⟨usages, hexact⟩
  rw [hexact.computed] at hnone
  cases hnone

end Sample

end AdvancedOS.Cpu
