import Mathlib.Algebra.GroupWithZero.Nat
import Mathlib.Data.List.Basic

/-!
# The memory coordinator

`memory_coordinator.c`. `memoryScheduler` is one pass of `MemoryScheduler`: from what the hypervisor
says of the host and of each domain to the calls of `virDomainSetMemory`, in their order. A pass that
calls `error(.., 1)` leaves the program.

* `applyAll_spec`, `applySome_spec`: which domains the loops at the end of a pass serve.
* `Decided`: the requests of a pass go through the domains in their order, with at most one for each,
  and only for a domain that has the status for it.
* `decided_requests`: both loops make such requests.
-/

namespace AdvancedOS.Memory

/-- `unsigned long long`. -/
abbrev LL := UInt64

def unusedMemLow : LL := 100
def unusedMemHigh : LL := 300
def memAllocUnit : LL := 100
def hostMemLow : LL := 200

/-- The tag of a `virDomainMemoryStatStruct`. -/
inductive StatTag
  | unused
  | available
  | actualBalloon
  | other
  deriving DecidableEq, Repr

/-- `virDomainMemoryStatStruct`, in KB. -/
structure Stat where
  tag : StatTag
  val : LL

/-- What the hypervisor says of a domain: its memory statistics, if the query succeeds, and its maximum
memory in KB. -/
structure Domain where
  stats : Option (List Stat)
  maxMemory : LL

/-- The entries of `unused_mems`, `available_mems` and `balloon_mems` for a domain, in MB. -/
structure MemStats where
  unused : LL
  available : LL
  balloon : LL

/-- The inner loop of `get_mem_stats`, over arrays of zeros. -/
def getMemStats (stats : List Stat) : MemStats :=
  stats.foldl
    (fun mems stat =>
      match stat.tag with
      | .unused => { mems with unused := stat.val / 1024 }
      | .available => { mems with available := stat.val / 1024 }
      | .actualBalloon => { mems with balloon := stat.val / 1024 }
      | .other => mems)
    ⟨0, 0, 0⟩

/-- `get_host_mem`, from the free memory of the host in bytes. -/
def getHostMem (freeMemory : LL) : Option LL :=
  let ret := freeMemory / 1024 / 1024
  if ret = 0 then none else some ret

/-- `vm_status`: 0, 1 and 2. -/
inductive VmStatus
  | extra
  | lacks
  | enough
  deriving DecidableEq, Repr

/-- A domain of a pass: its statistics, and its maximum memory in KB. -/
structure Vm where
  mems : MemStats
  maxMemory : LL

/-- The status that the first loop gives a domain. -/
def Vm.status (vm : Vm) : VmStatus :=
  if vm.mems.unused < unusedMemLow then
    let maxMem := vm.maxMemory / 1024
    if maxMem < vm.mems.balloon + memAllocUnit then .enough else .lacks
  else if vm.mems.unused > unusedMemHigh then .extra
  else .enough

/-- What the first loop adds up. -/
structure Tally where
  memNeeded : LL
  memAvail : LL
  vmLackMemCnt : Nat

/-- The first loop. -/
def tally : List Vm → Tally → Tally
  | [], t => t
  | vm :: vms, t =>
    match vm.status with
    | .lacks =>
      tally vms { t with memNeeded := t.memNeeded + memAllocUnit, vmLackMemCnt := t.vmLackMemCnt + 1 }
    | .extra => tally vms { t with memAvail := t.memAvail + memAllocUnit }
    | .enough => tally vms t

/-- The test of the host: `mem_avail` after it. -/
def hostCheck (hostMemAvail memNeeded memAvail : LL) : LL :=
  if memNeeded > memAvail then
    if hostMemAvail - (memNeeded - memAvail) ≥ hostMemLow then memNeeded else memAvail
  else memAvail

inductive Kind
  | deflate
  | inflate
  deriving DecidableEq, Repr

/-- A call of `virDomainSetMemory` for the domain with index `vm`; the target is in KB. -/
structure Request where
  vm : Nat
  kind : Kind
  target : LL
  deriving DecidableEq, Repr

def Vm.deflate (i : Nat) (vm : Vm) : Request := ⟨i, .deflate, (vm.mems.balloon - memAllocUnit) * 1024⟩

def Vm.inflate (i : Nat) (vm : Vm) : Request := ⟨i, .inflate, (vm.mems.balloon + memAllocUnit) * 1024⟩

/-- The loop for the case that there is memory for all, from index `i`. -/
def applyAll : Nat → List Vm → List Request
  | _, [] => []
  | i, vm :: vms =>
    match vm.status with
    | .extra => vm.deflate i :: applyAll (i + 1) vms
    | .lacks => vm.inflate i :: applyAll (i + 1) vms
    | .enough => applyAll (i + 1) vms

/-- The loop for the case that there is not. -/
def applySome : Nat → LL → List Vm → List Request
  | _, _, [] => []
  | i, memAvail, vm :: vms =>
    match vm.status with
    | .extra => vm.deflate i :: applySome (i + 1) memAvail vms
    | .lacks =>
      if memAvail > 0 then vm.inflate i :: applySome (i + 1) (memAvail - memAllocUnit) vms
      else applySome (i + 1) memAvail vms
    | .enough => applySome (i + 1) memAvail vms

/-- `MemoryScheduler` from its first loop on. -/
def requests (hostMemAvail : LL) (vms : List Vm) : List Request :=
  let t := tally vms ⟨0, 0, 0⟩
  let memAvail := hostCheck hostMemAvail t.memNeeded t.memAvail
  if memAvail ≥ t.memNeeded then applyAll 0 vms
  else if t.vmLackMemCnt > 0 then applySome 0 memAvail vms
  else []

/-- The statistics of a domain; `none` is a query that fails. -/
def Domain.vm (domain : Domain) : Option Vm :=
  domain.stats.map fun stats => ⟨getMemStats stats, domain.maxMemory⟩

/-- `MemoryScheduler`; `none` is a pass that leaves the program. -/
def memoryScheduler (freeMemory : LL) (domains : List Domain) : Option (List Request) :=
  (domains.mapM Domain.vm).bind fun vms =>
    (getHostMem freeMemory).map fun hostMemAvail => requests hostMemAvail vms

/-! ## A domain of a pass -/

/-- More than 300 MB are unused. -/
def Vm.Extra (vm : Vm) : Prop := 300 < vm.mems.unused.toNat

/-- Less than 100 MB are unused, and the maximum memory leaves room for 100 MB more. -/
def Vm.Needy (vm : Vm) : Prop :=
  vm.mems.unused.toNat < 100 ∧ vm.mems.balloon.toNat + 100 ≤ vm.maxMemory.toNat / 1024

instance (vm : Vm) : Decidable vm.Extra := inferInstanceAs (Decidable (_ < _))
instance (vm : Vm) : Decidable vm.Needy := inferInstanceAs (Decidable (_ ∧ _))

variable {vm : Vm}

theorem toNat_add_unit {x : LL} (h : x.toNat + 100 < 2 ^ 64) : (x + memAllocUnit).toNat = x.toNat + 100 := by
  rw [UInt64.toNat_add]
  exact Nat.mod_eq_of_lt h

theorem Vm.status_eq_extra : vm.status = .extra ↔ vm.Extra := by
  have hlow : vm.mems.unused < unusedMemLow ↔ vm.mems.unused.toNat < 100 := UInt64.lt_iff_toNat_lt
  have hhigh : vm.mems.unused > unusedMemHigh ↔ 300 < vm.mems.unused.toNat := UInt64.lt_iff_toNat_lt
  simp only [Vm.status, Vm.Extra, hlow, hhigh]
  grind

theorem Vm.status_eq_lacks (hballoon : vm.mems.balloon.toNat + 100 < 2 ^ 64) :
    vm.status = .lacks ↔ vm.Needy := by
  have hlow : vm.mems.unused < unusedMemLow ↔ vm.mems.unused.toNat < 100 := UInt64.lt_iff_toNat_lt
  have hfull : vm.maxMemory / 1024 < vm.mems.balloon + memAllocUnit ↔
      vm.maxMemory.toNat / 1024 < vm.mems.balloon.toNat + 100 := by
    rw [UInt64.lt_iff_toNat_lt, toNat_add_unit hballoon, UInt64.toNat_div]
    rfl
  simp only [Vm.status, Vm.Needy, hlow, hfull]
  grind

/-- A balloon is a number of KB, divided by 1024. -/
theorem balloon_lt {domain : Domain} (hvm : domain.vm = some vm) : vm.mems.balloon.toNat < 2 ^ 54 := by
  obtain ⟨stats, -, rfl⟩ := Option.map_eq_some_iff.mp hvm
  refine List.foldlRecOn stats _ (motive := fun mems : MemStats => mems.balloon.toNat < 2 ^ 54) (by decide) ?_
  intro mems hmems stat _
  have hdiv : (stat.val / 1024).toNat < 2 ^ 54 := by
    rw [UInt64.toNat_div]
    exact Nat.div_lt_of_lt_mul stat.val.toNat_lt
  cases htag : stat.tag with
  | actualBalloon => simpa only [htag] using hdiv
  | unused => simpa only [htag] using hmems
  | available => simpa only [htag] using hmems
  | other => simpa only [htag] using hmems

/-- What a request to deflate a domain asks for, unless the target wraps. -/
theorem Vm.deflate_target (hle : 100 ≤ vm.mems.balloon.toNat) (hlt : vm.mems.balloon.toNat < 2 ^ 54)
    (i : Nat) : (vm.deflate i).target.toNat = (vm.mems.balloon.toNat - 100) * 1024 := by
  have hunit : memAllocUnit ≤ vm.mems.balloon := UInt64.le_iff_toNat_le.mpr hle
  have hsub : (vm.mems.balloon - memAllocUnit).toNat = vm.mems.balloon.toNat - 100 :=
    UInt64.toNat_sub_of_le _ _ hunit
  show ((vm.mems.balloon - memAllocUnit) * 1024).toNat = _
  rw [UInt64.toNat_mul, hsub]
  exact Nat.mod_eq_of_lt (by show _ * 1024 < _; omega)

/-- What a request to inflate a domain asks for. -/
theorem Vm.inflate_target (hmax : vm.mems.balloon.toNat + 100 ≤ vm.maxMemory.toNat / 1024) (i : Nat) :
    (vm.inflate i).target.toNat = (vm.mems.balloon.toNat + 100) * 1024 := by
  have hlt := vm.maxMemory.toNat_lt
  show ((vm.mems.balloon + memAllocUnit) * 1024).toNat = _
  rw [UInt64.toNat_mul, toNat_add_unit (by omega)]
  exact Nat.mod_eq_of_lt (by show _ * 1024 < _; omega)

/-! ## The loops at the end of a pass -/

/-- The domains with a request of a kind, in the order of the requests. -/
def served (kind : Kind) (rs : List Request) : List Nat :=
  (rs.filter fun r => r.kind = kind).map fun r => r.vm

/-- `mem_avail` after some domains, in the loop for the case that there is not memory for all. -/
def memAvailAfter : LL → List Vm → LL
  | memAvail, [] => memAvail
  | memAvail, vm :: vms =>
    if vm.status = .lacks ∧ memAvail > 0 then memAvailAfter (memAvail - memAllocUnit) vms
    else memAvailAfter memAvail vms

/-- `mem_avail` is positive as long as it pays for a domain. -/
theorem memAvail_pos_iff {memAvail : LL} {a : Nat} (hb : memAvail.toNat = 100 * a) : memAvail > 0 ↔ 0 < a := by
  rw [gt_iff_lt, UInt64.lt_iff_toNat_lt, hb]
  show 0 < 100 * a ↔ 0 < a
  omega

/-- So it does not wrap when a domain is paid for. -/
theorem toNat_sub_unit {memAvail : LL} {a : Nat} (hb : memAvail.toNat = 100 * a) (ha : 0 < a) :
    (memAvail - memAllocUnit).toNat = 100 * (a - 1) := by
  have hle : memAllocUnit ≤ memAvail := by
    rw [UInt64.le_iff_toNat_le]
    show 100 ≤ memAvail.toNat
    omega
  rw [UInt64.toNat_sub_of_le _ _ hle, hb]
  show 100 * a - 100 = 100 * (a - 1)
  omega

@[simp] theorem served_deflate_deflate (i : Nat) (vm : Vm) (rs : List Request) :
    served .deflate (vm.deflate i :: rs) = i :: served .deflate rs := rfl

@[simp] theorem served_deflate_inflate (i : Nat) (vm : Vm) (rs : List Request) :
    served .deflate (vm.inflate i :: rs) = served .deflate rs := rfl

@[simp] theorem served_inflate_inflate (i : Nat) (vm : Vm) (rs : List Request) :
    served .inflate (vm.inflate i :: rs) = i :: served .inflate rs := rfl

@[simp] theorem served_inflate_deflate (i : Nat) (vm : Vm) (rs : List Request) :
    served .inflate (vm.deflate i :: rs) = served .inflate rs := rfl

/-- If there is memory for all, every domain gets the call for its status. -/
theorem applyAll_spec (i : Nat) (vms : List Vm) :
    served .deflate (applyAll i vms) = vms.findIdxs (fun vm => vm.status = .extra) i ∧
    served .inflate (applyAll i vms) = vms.findIdxs (fun vm => vm.status = .lacks) i := by
  induction vms generalizing i with
  | nil => exact ⟨rfl, rfl⟩
  | cons vm vms ih =>
    obtain ⟨hdeflate, hinflate⟩ := ih (i + 1)
    unfold applyAll
    cases hstatus : vm.status with
    | extra => simp [hstatus, hdeflate, hinflate]
    | lacks => simp [hstatus, hdeflate, hinflate]
    | enough => simp [hstatus, hdeflate, hinflate]

/-- Otherwise `mem_avail` pays for the domains that lack memory, in their order, until it is used up. -/
theorem applySome_spec (i : Nat) {memAvail : LL} {a : Nat} (hb : memAvail.toNat = 100 * a) (vms : List Vm) :
    served .deflate (applySome i memAvail vms) = vms.findIdxs (fun vm => vm.status = .extra) i ∧
    served .inflate (applySome i memAvail vms) = (vms.findIdxs (fun vm => vm.status = .lacks) i).take a ∧
    (memAvailAfter memAvail vms).toNat + 100 * (served .inflate (applySome i memAvail vms)).length = 100 * a := by
  induction vms generalizing i memAvail a with
  | nil => exact ⟨rfl, List.take_nil.symm, hb⟩
  | cons vm vms ih =>
    unfold applySome memAvailAfter
    cases hstatus : vm.status with
    | extra =>
      obtain ⟨hdeflate, hinflate, hleft⟩ := ih (i + 1) hb
      simpa [hstatus, hdeflate, hinflate] using hleft
    | enough =>
      obtain ⟨hdeflate, hinflate, hleft⟩ := ih (i + 1) hb
      simpa [hstatus, hdeflate, hinflate] using hleft
    | lacks =>
      by_cases hpos : memAvail > 0
      · have hunit := (memAvail_pos_iff hb).mp hpos
        obtain ⟨hdeflate, hinflate, hleft⟩ := ih (i + 1) (toNat_sub_unit hb hunit)
        obtain ⟨a, rfl⟩ := Nat.exists_eq_succ_of_ne_zero (Nat.pos_iff_ne_zero.mp hunit)
        simp only [if_pos hpos, true_and, served_deflate_inflate, served_inflate_inflate, List.length_cons,
          List.findIdxs_cons, hstatus]
        refine ⟨by simpa using hdeflate, by simpa using hinflate, ?_⟩
        simp only [Nat.succ_sub_one] at hleft
        omega
      · obtain rfl : a = 0 := Nat.eq_zero_of_not_pos fun h => hpos ((memAvail_pos_iff hb).mpr h)
        obtain ⟨hdeflate, hinflate, hleft⟩ := ih (i + 1) hb
        simpa [hstatus, hpos, hdeflate, hinflate] using hleft

theorem applySome_append (i : Nat) (memAvail : LL) (done rest : List Vm) :
    applySome i memAvail (done ++ rest) =
      applySome i memAvail done ++ applySome (i + done.length) (memAvailAfter memAvail done) rest := by
  induction done generalizing i memAvail with
  | nil => rfl
  | cons vm done ih =>
    have hindex : i + (done.length + 1) = i + 1 + done.length := by omega
    simp only [List.cons_append, List.length_cons, hindex, applySome, memAvailAfter]
    cases hstatus : vm.status with
    | extra => simp [ih]
    | enough => simp [ih]
    | lacks => by_cases hpos : memAvail > 0 <;> simp [hpos, ih]

/-! ## The requests of a pass -/

/-- Requests for some of the domains from index `i` on, each with the status for it. -/
inductive Decided : Nat → List Vm → List Request → Prop
  | nil {i : Nat} : Decided i [] []
  | skip {i : Nat} {vm : Vm} {vms : List Vm} {rs : List Request} :
      Decided (i + 1) vms rs → Decided i (vm :: vms) rs
  | deflate {i : Nat} {vm : Vm} {vms : List Vm} {rs : List Request} :
      vm.status = .extra → Decided (i + 1) vms rs → Decided i (vm :: vms) (vm.deflate i :: rs)
  | inflate {i : Nat} {vm : Vm} {vms : List Vm} {rs : List Request} :
      vm.status = .lacks → Decided (i + 1) vms rs → Decided i (vm :: vms) (vm.inflate i :: rs)

theorem Decided.none {i : Nat} {vms : List Vm} : Decided i vms [] := by
  induction vms generalizing i with
  | nil => exact .nil
  | cons vm vms ih => exact .skip ih

/-- A request is made for a domain with the status for it. -/
theorem Decided.mem {i : Nat} {vms : List Vm} {rs : List Request} (hd : Decided i vms rs) {r : Request}
    (hr : r ∈ rs) : ∃ vm, vms[r.vm - i]? = some vm ∧ i ≤ r.vm ∧
      (vm.status = .extra ∧ r = vm.deflate r.vm ∨ vm.status = .lacks ∧ r = vm.inflate r.vm) := by
  have hlater : ∀ {i vm vms} {r : Request} {P : Vm → Prop},
      (∃ vm', vms[r.vm - (i + 1)]? = some vm' ∧ i + 1 ≤ r.vm ∧ P vm') →
      ∃ vm', (vm :: vms : List Vm)[r.vm - i]? = some vm' ∧ i ≤ r.vm ∧ P vm' := by
    rintro i vm vms r P ⟨vm', hget, hle, hP⟩
    refine ⟨vm', ?_, by omega, hP⟩
    rw [show r.vm - i = (r.vm - (i + 1)) + 1 by omega]
    exact hget
  induction hd with
  | nil => cases hr
  | skip _ ih => exact hlater (ih hr)
  | @deflate i vm vms rs hs _ ih =>
    rcases List.mem_cons.mp hr with rfl | hr
    · exact ⟨vm, by simp [Vm.deflate], Nat.le_refl _, .inl ⟨hs, rfl⟩⟩
    · exact hlater (ih hr)
  | @inflate i vm vms rs hs _ ih =>
    rcases List.mem_cons.mp hr with rfl | hr
    · exact ⟨vm, by simp [Vm.inflate], Nat.le_refl _, .inr ⟨hs, rfl⟩⟩
    · exact hlater (ih hr)

/-- The requests go through the domains in their order. -/
theorem Decided.pairwise {i : Nat} {vms : List Vm} {rs : List Request} (hd : Decided i vms rs) :
    (rs.map fun r => r.vm).Pairwise (· < ·) := by
  have hfirst : ∀ {i vms rs} {r : Request}, Decided (i + 1) vms rs → r.vm = i →
      ∀ j ∈ rs.map (fun r => r.vm), r.vm < j := by
    rintro i vms rs r hd hi j hj
    obtain ⟨r', hr', rfl⟩ := List.mem_map.mp hj
    obtain ⟨-, -, hle, -⟩ := hd.mem hr'
    omega
  induction hd with
  | nil => exact .nil
  | skip _ ih => exact ih
  | deflate _ hd ih => exact .cons (hfirst hd rfl) ih
  | inflate _ hd ih => exact .cons (hfirst hd rfl) ih

theorem decided_applyAll (i : Nat) (vms : List Vm) : Decided i vms (applyAll i vms) := by
  induction vms generalizing i with
  | nil => exact .nil
  | cons vm vms ih =>
    unfold applyAll
    split
    · next h => exact .deflate h (ih (i + 1))
    · next h => exact .inflate h (ih (i + 1))
    · exact .skip (ih (i + 1))

theorem decided_applySome (i : Nat) (memAvail : LL) (vms : List Vm) :
    Decided i vms (applySome i memAvail vms) := by
  induction vms generalizing i memAvail with
  | nil => exact .nil
  | cons vm vms ih =>
    unfold applySome
    split
    · next h => exact .deflate h (ih _ _)
    · next h =>
      split
      · exact .inflate h (ih _ _)
      · exact .skip (ih _ _)
    · exact .skip (ih _ _)

theorem decided_requests (hostMemAvail : LL) (vms : List Vm) :
    Decided 0 vms (requests hostMemAvail vms) := by
  unfold requests
  simp only
  split
  · exact decided_applyAll _ _
  · split
    · exact decided_applySome _ _ _
    · exact .none

/-- A pass that does not leave the program. -/
theorem memoryScheduler_eq {freeMemory hostMemAvail : LL} {domains : List Domain} {vms : List Vm}
    (hvms : domains.mapM Domain.vm = some vms) (hhost : getHostMem freeMemory = some hostMemAvail) :
    memoryScheduler freeMemory domains = some (requests hostMemAvail vms) := by
  rw [memoryScheduler, hvms, hhost]
  rfl

end AdvancedOS.Memory
