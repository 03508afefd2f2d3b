import Mathlib.Tactic.Ring
import AdvancedOS.Lib.Lists
import AdvancedOS.Memory.Coordinator

/-!
# What a pass takes from the host

A pass takes from the host 100 MB for each request to inflate a balloon, less 100 MB for each request
to deflate one (`net`). `host_reserve` says exactly when at least 200 MB are left after a pass that
takes something: when what the domains lack beyond what others can give is no more than the host
has. Otherwise the unsigned subtraction of `hostCheck` wraps and the test succeeds (`host_drained`).
-/

namespace AdvancedOS.Memory

/-- `INT_MAX`. -/
def intMax : Nat := 2147483647

/-- What a pass finds: the free memory of the host in bytes and the domains, of which there are as many
as `virConnectListAllDomains` can return. -/
structure Host where
  freeMemory : LL
  domains : List Domain
  count_le : domains.length ≤ intMax

/-- The memory in MB that requests take from the host. -/
def net (rs : List Request) : Int :=
  100 * (rs.countP (·.kind = .inflate) - rs.countP (·.kind = .deflate) : Int)

/-- The domains that lack memory. -/
def lacking (vms : List Vm) : Nat := vms.countP (·.status = .lacks)

/-- The domains that have extra memory. -/
def giving (vms : List Vm) : Nat := vms.countP (·.status = .extra)

variable {vms : List Vm}

/-! ## The loops -/

theorem lacking_cons (vm : Vm) (vms : List Vm) :
    lacking (vm :: vms) = lacking vms + if vm.status = .lacks then 1 else 0 := by
  simp [lacking, List.countP_cons]

theorem giving_cons (vm : Vm) (vms : List Vm) :
    giving (vm :: vms) = giving vms + if vm.status = .extra then 1 else 0 := by
  simp [giving, List.countP_cons]

theorem lacking_le (vms : List Vm) : lacking vms ≤ vms.length := List.countP_le_length

/-- The first loop does not overflow. -/
theorem tally_spec {t : Tally} (hneeded : t.memNeeded.toNat + 100 * vms.length < 2 ^ 64)
    (havail : t.memAvail.toNat + 100 * vms.length < 2 ^ 64) :
    (tally vms t).memNeeded.toNat = t.memNeeded.toNat + 100 * lacking vms ∧
    (tally vms t).memAvail.toNat = t.memAvail.toNat + 100 * giving vms ∧
    (tally vms t).vmLackMemCnt = t.vmLackMemCnt + lacking vms := by
  induction vms generalizing t with
  | nil => exact ⟨rfl, rfl, rfl⟩
  | cons vm vms ih =>
    rw [List.length_cons] at hneeded havail
    rw [lacking_cons, giving_cons]
    unfold tally
    cases hstatus : vm.status with
    | lacks =>
      have hsum := toNat_add_unit (x := t.memNeeded) (by omega)
      obtain ⟨hn, ha, hc⟩ := ih (t := { t with
        memNeeded := t.memNeeded + memAllocUnit, vmLackMemCnt := t.vmLackMemCnt + 1 })
        (by simp only; omega) (by simp only; omega)
      simp only at hn ha hc
      refine ⟨?_, ?_, ?_⟩ <;> simp <;> omega
    | extra =>
      have hsum := toNat_add_unit (x := t.memAvail) (by omega)
      obtain ⟨hn, ha, hc⟩ := ih (t := { t with memAvail := t.memAvail + memAllocUnit })
        (by simp only; omega) (by simp only; omega)
      simp only at hn ha hc
      refine ⟨?_, ?_, ?_⟩ <;> simp <;> omega
    | enough =>
      obtain ⟨hn, ha, hc⟩ := ih (t := t) (by omega) (by omega)
      refine ⟨?_, ?_, ?_⟩ <;> simp <;> omega

theorem net_eq (rs : List Request) :
    net rs = 100 * ((served .inflate rs).length - (served .deflate rs).length : Int) := by
  simp only [net, served, List.length_map, List.countP_eq_length_filter]

/-- If there is memory for all, everybody is served. -/
theorem net_applyAll (i : Nat) (vms : List Vm) :
    net (applyAll i vms) = 100 * (lacking vms : Int) - 100 * giving vms := by
  obtain ⟨hdeflate, hinflate⟩ := applyAll_spec i vms
  rw [net_eq, hdeflate, hinflate, List.length_findIdxs, List.length_findIdxs, lacking, giving]
  ring

/-- Otherwise, as many domains get memory as `mem_avail` pays for. -/
theorem net_applySome (i : Nat) {memAvail : LL} {a : Nat} (hb : memAvail.toNat = 100 * a) (vms : List Vm) :
    net (applySome i memAvail vms) = 100 * (min a (lacking vms) : Nat) - 100 * (giving vms : Int) := by
  obtain ⟨hdeflate, hinflate, -⟩ := applySome_spec i hb vms
  rw [net_eq, hdeflate, hinflate, List.length_take, List.length_findIdxs, List.length_findIdxs, lacking, giving]
  ring

/-! ## The test of the host -/

theorem hostCheck_spec {host needed avail : LL} {n a : Nat} (hn : needed.toNat = 100 * n)
    (ha : avail.toNat = 100 * a) (hlt : a < n) :
    hostCheck host needed avail =
      if host - UInt64.ofNat (100 * (n - a)) ≥ hostMemLow then needed else avail := by
  have hneeded : needed > avail := UInt64.lt_iff_toNat_lt.mpr (by omega)
  have hshortfall : needed - avail = UInt64.ofNat (100 * (n - a)) := by
    have hmax := needed.toNat_lt
    rw [← UInt64.toNat_inj, UInt64.toNat_sub_of_le _ _ (UInt64.le_of_lt hneeded), UInt64.toNat_ofNat',
      Nat.mod_eq_of_lt (by omega)]
    omega
  rw [hostCheck, if_pos hneeded, hshortfall]

/-- The test succeeds if 200 MB are left, and also if there is less memory than the domains need: the
subtraction wraps. -/
theorem grants_iff {host : LL} {shortfall : Nat} (hbound : shortfall < 2 ^ 63) :
    host - UInt64.ofNat shortfall ≥ hostMemLow ↔ host.toNat < shortfall ∨ shortfall + 200 ≤ host.toNat := by
  have hlow : hostMemLow.toNat = 200 := rfl
  have hmax := host.toNat_lt
  rw [ge_iff_le, UInt64.le_iff_toNat_le, UInt64.toNat_sub, UInt64.toNat_ofNat', hlow,
    Nat.mod_eq_of_lt (a := shortfall) (by omega)]
  rcases Nat.lt_or_ge host.toNat shortfall with hwrap | hfits
  · rw [Nat.mod_eq_of_lt (by omega)]
    omega
  · have hsub : 2 ^ 64 - shortfall + host.toNat = (host.toNat - shortfall) + 2 ^ 64 := by omega
    rw [hsub, Nat.add_mod_right, Nat.mod_eq_of_lt (by omega)]
    omega

/-- What the first loop adds up in a pass. -/
theorem tally_zero (hlen : vms.length ≤ intMax) :
    (tally vms ⟨0, 0, 0⟩).memNeeded.toNat = 100 * lacking vms ∧
    (tally vms ⟨0, 0, 0⟩).memAvail.toNat = 100 * giving vms ∧
    (tally vms ⟨0, 0, 0⟩).vmLackMemCnt = lacking vms := by
  have hmax : intMax = 2147483647 := rfl
  simpa using @tally_spec vms ⟨0, 0, 0⟩ (by simp; omega) (by simp; omega)

/-- There is memory for all if enough domains can give some or the host grants what is missing. -/
theorem requests_eq (host : LL) (hlen : vms.length ≤ intMax) :
    requests host vms =
      if lacking vms ≤ giving vms ∨ host - UInt64.ofNat (100 * (lacking vms - giving vms)) ≥ hostMemLow then
        applyAll 0 vms
      else applySome 0 (tally vms ⟨0, 0, 0⟩).memAvail vms := by
  obtain ⟨hn, ha, hc⟩ := tally_zero hlen
  unfold requests
  simp only
  rcases Nat.lt_or_ge (giving vms) (lacking vms) with hlt | hge
  · rw [hostCheck_spec hn ha hlt]
    split
    · next hcheck => rw [if_pos (UInt64.le_refl _), if_pos (.inr hcheck)]
    · next hcheck =>
      have hnot : ¬ (tally vms ⟨0, 0, 0⟩).memAvail ≥ (tally vms ⟨0, 0, 0⟩).memNeeded := by
        rw [ge_iff_le, UInt64.le_iff_toNat_le]
        omega
      rw [if_neg hnot, if_pos (by omega), if_neg (not_or.mpr ⟨by omega, hcheck⟩)]
  · have hle : ¬ (tally vms ⟨0, 0, 0⟩).memNeeded > (tally vms ⟨0, 0, 0⟩).memAvail := by
      rw [gt_iff_lt, UInt64.lt_iff_toNat_lt]
      omega
    rw [hostCheck, if_neg hle, if_pos (UInt64.not_lt.mp hle), if_pos (.inl hge)]

/-- What a pass takes from the host. -/
theorem net_requests (host : LL) (hlen : vms.length ≤ intMax) :
    net (requests host vms) =
      if lacking vms ≤ giving vms ∨ host.toNat < 100 * (lacking vms - giving vms) ∨
          100 * (lacking vms - giving vms) + 200 ≤ host.toNat then
        100 * (lacking vms : Int) - 100 * giving vms
      else 0 := by
  have hmax : intMax = 2147483647 := rfl
  have hl := lacking_le vms
  have hbound : 100 * (lacking vms - giving vms) < 2 ^ 63 := by omega
  simp only [requests_eq host hlen, grants_iff hbound]
  split
  · exact net_applyAll 0 vms
  · next hshort =>
    rw [net_applySome 0 (tally_zero hlen).2.1, Nat.min_eq_left (by omega), Int.sub_self]

/-! ## The reserve -/

/-- A pass that takes memory from the host leaves 200 MB exactly if what the domains lack, less what
other domains can give, is no more than what the host has. -/
theorem host_reserve (host : Host) :
    (∀ rs hostMemAvail, memoryScheduler host.freeMemory host.domains = some rs →
      getHostMem host.freeMemory = some hostMemAvail → 0 < net rs → net rs + 200 ≤ hostMemAvail.toNat) ↔
    ∀ vms hostMemAvail, host.domains.mapM Domain.vm = some vms →
      getHostMem host.freeMemory = some hostMemAvail →
      100 * lacking vms ≤ 100 * giving vms + hostMemAvail.toNat := by
  have hnet : ∀ {vms} (hostMemAvail : LL), host.domains.mapM Domain.vm = some vms →
      net (requests hostMemAvail vms) = _ := fun {vms} hostMemAvail hvms =>
    net_requests hostMemAvail (by rw [Lists.length_mapM hvms]; exact host.count_le)
  constructor
  · intro h vms hostMemAvail hvms hhost
    have hreserve := h _ _ (memoryScheduler_eq hvms hhost) hhost
    rw [hnet hostMemAvail hvms] at hreserve
    by_contra hdeficit
    rw [if_pos (by omega)] at hreserve
    omega
  · intro h rs hostMemAvail hrs hhost
    obtain ⟨vms, hvms, hrest⟩ := Option.bind_eq_some_iff.mp hrs
    obtain rfl := Option.some.inj (hrs.symm.trans (memoryScheduler_eq hvms hhost))
    have hdeficit := h vms hostMemAvail hvms hhost
    rw [hnet hostMemAvail hvms]
    split
    · omega
    · omega

/-- The host has 50 MB left, and a domain lacks memory: it gets 100 MB. -/
theorem host_drained : ∃ rs hostMemAvail,
    memoryScheduler (50 * 1024 * 1024)
      [⟨some [⟨.unused, 50 * 1024⟩, ⟨.actualBalloon, 512 * 1024⟩], 1024 * 1024⟩] = some rs ∧
    getHostMem (50 * 1024 * 1024) = some hostMemAvail ∧
    0 < net rs ∧ ¬ net rs + 200 ≤ hostMemAvail.toNat :=
  ⟨[⟨0, .inflate, 612 * 1024⟩], 50, by decide, by decide, by decide, by decide⟩

end AdvancedOS.Memory
