import AdvancedOS.Memory.HostReserve

/-!
# What a pass redistributes

`extra` and `needy` are the domains that a pass moves memory between, in the order of the list.
`Redistributes` says how: every domain with extra memory is deflated and, if there is memory for all,
every needy one inflated; otherwise as many needy ones, in their order, as there are domains with extra
memory.

* `requests_allocate`: which domains get which call, for all statistics.
* `redistribution`: the calls move 100 MB each exactly if every domain with extra memory has a balloon of
  at least 100 MB. The inflations test the maximum memory, the deflations test nothing: the target wraps
  (`deflated_up`).
-/

namespace AdvancedOS.Memory

/-- The indices of the domains with extra memory. -/
def extra (vms : List Vm) : List Nat := vms.findIdxs fun vm => vm.Extra

/-- The indices of the needy domains. -/
def needy (vms : List Vm) : List Nat := vms.findIdxs fun vm => vm.Needy

/-- There is memory for all: enough domains have extra memory, or the check of the host, which is in unsigned
arithmetic, grants what is missing. -/
def Suffices (hostMemAvail : LL) (vms : List Vm) : Prop :=
  (needy vms).length ≤ (extra vms).length ∨
    hostMemAvail - UInt64.ofNat (100 * ((needy vms).length - (extra vms).length)) ≥ hostMemLow

instance (hostMemAvail : LL) (vms : List Vm) : Decidable (Suffices hostMemAvail vms) :=
  inferInstanceAs (Decidable (_ ∨ _))

/-- The domains that get a call of each kind. -/
structure Allocates (hostMemAvail : LL) (vms : List Vm) (rs : List Request) : Prop where
  deflated : served .deflate rs = extra vms
  inflated : served .inflate rs =
    if Suffices hostMemAvail vms then needy vms else (needy vms).take (extra vms).length
  /-- No domain gets two calls. -/
  once : (rs.map fun r => r.vm).Nodup
  /-- Without memory for all, as many domains are inflated as deflated. -/
  balanced : ¬ Suffices hostMemAvail vms → (served .inflate rs).length = (served .deflate rs).length
  /-- The running `mem_avail` is what was taken less what was handed out: it never wraps. -/
  memAvail : ¬ Suffices hostMemAvail vms → ∀ done rest, vms = done ++ rest →
    let memAvail := (tally vms ⟨0, 0, 0⟩).memAvail
    rs = applySome 0 memAvail done ++ applySome done.length (memAvailAfter memAvail done) rest ∧
    (memAvailAfter memAvail done).toNat + 100 * (served .inflate (applySome 0 memAvail done)).length =
      100 * (extra vms).length

/-- A request moves 100 MB: its target is that much below or above the balloon. -/
def Request.Exact (vms : List Vm) (r : Request) : Prop :=
  ∃ vm, vms[r.vm]? = some vm ∧
    match r.kind with
    | .deflate => r.target.toNat + 100 * 1024 = vm.mems.balloon.toNat * 1024
    | .inflate => r.target.toNat = vm.mems.balloon.toNat * 1024 + 100 * 1024

/-- The requests of a pass redistribute memory. -/
structure Redistributes (hostMemAvail : LL) (vms : List Vm) (rs : List Request) : Prop
    extends Allocates hostMemAvail vms rs where
  exact : ∀ r ∈ rs, r.Exact vms

variable {vms : List Vm}

/-! ## A pass -/

theorem extra_eq (vms : List Vm) : extra vms = vms.findIdxs fun vm => vm.status = .extra := by
  simp only [extra, Vm.status_eq_extra]

theorem needy_eq (hballoon : ∀ vm ∈ vms, vm.mems.balloon.toNat < 2 ^ 54) :
    needy vms = vms.findIdxs fun vm => vm.status = .lacks := by
  have hfrom : ∀ i, (∀ vm ∈ vms, vm.mems.balloon.toNat < 2 ^ 54) →
      vms.findIdxs (fun vm => vm.Needy) i = vms.findIdxs (fun vm => vm.status = .lacks) i := by
    induction vms with
    | nil => exact fun _ _ => rfl
    | cons vm vms ih =>
      intro i h
      have hlt := h vm List.mem_cons_self
      have hvm : vm.status = .lacks ↔ vm.Needy := Vm.status_eq_lacks (by omega)
      have hrest := fun vm hvm => h vm (List.mem_cons_of_mem _ hvm)
      simp only [List.findIdxs_cons, hvm, ih hrest _ hrest]
  exact hfrom 0 hballoon

theorem length_extra (vms : List Vm) : (extra vms).length = giving vms := by
  rw [extra_eq, List.length_findIdxs, giving]

theorem length_needy (hballoon : ∀ vm ∈ vms, vm.mems.balloon.toNat < 2 ^ 54) :
    (needy vms).length = lacking vms := by
  rw [needy_eq hballoon, List.length_findIdxs, lacking]

/-- Which domains get which call, for all statistics. -/
theorem requests_allocate (hostMemAvail : LL) (hlen : vms.length ≤ intMax)
    (hballoon : ∀ vm ∈ vms, vm.mems.balloon.toNat < 2 ^ 54) :
    Allocates hostMemAvail vms (requests hostMemAvail vms) := by
  have hsuffices : Suffices hostMemAvail vms ↔ lacking vms ≤ giving vms ∨
      hostMemAvail - UInt64.ofNat (100 * (lacking vms - giving vms)) ≥ hostMemLow := by
    rw [Suffices, length_extra, length_needy hballoon]
  have hrequests := requests_eq hostMemAvail hlen
  have hall := applyAll_spec 0 vms
  have havail := (tally_zero hlen).2.1
  have hsome := applySome_spec 0 havail vms
  rw [← extra_eq, ← needy_eq hballoon] at hall hsome
  rw [← length_extra] at havail hsome
  have honce : ((requests hostMemAvail vms).map fun r => r.vm).Nodup :=
    (decided_requests hostMemAvail vms).pairwise.imp Nat.ne_of_lt
  by_cases henough : Suffices hostMemAvail vms
  · rw [if_pos (hsuffices.mp henough)] at hrequests
    refine ⟨?_, ?_, honce, fun hshort => absurd henough hshort, fun hshort => absurd henough hshort⟩
    · rw [hrequests, hall.1]
    · rw [hrequests, hall.2, if_pos henough]
  · have hshort : (extra vms).length ≤ (needy vms).length := by
      have hnot : ¬ (needy vms).length ≤ (extra vms).length := fun hle => henough (.inl hle)
      omega
    rw [if_neg fun h => henough (hsuffices.mpr h)] at hrequests
    refine ⟨?_, ?_, honce, fun _ => ?_, fun _ done rest hvms => ⟨?_, ?_⟩⟩
    · rw [hrequests, hsome.1]
    · rw [hrequests, hsome.2.1, if_neg henough]
    · rw [hrequests, hsome.1, hsome.2.1, List.length_take, Nat.min_eq_left hshort]
    · have happend := applySome_append 0 (tally vms ⟨0, 0, 0⟩).memAvail done rest
      rwa [← hvms, ← hrequests, Nat.zero_add] at happend
    · exact (applySome_spec 0 havail done).2.2

theorem balloon_lt_of_mapM {domains : List Domain} (hvms : domains.mapM Domain.vm = some vms) :
    ∀ vm ∈ vms, vm.mems.balloon.toNat < 2 ^ 54 := by
  intro vm hvm
  obtain ⟨domain, -, hdomain⟩ := Lists.exists_of_mem_mapM hvms hvm
  exact balloon_lt hdomain

/-- Every request of a pass moves 100 MB if no target wraps. -/
theorem exact_requests (hostMemAvail : LL) (hballoon : ∀ vm ∈ vms, vm.mems.balloon.toNat < 2 ^ 54)
    (hextra : ∀ vm ∈ vms, vm.Extra → 100 ≤ vm.mems.balloon.toNat) :
    ∀ r ∈ requests hostMemAvail vms, r.Exact vms := by
  intro r hr
  obtain ⟨vm, hvm, -, hstatus⟩ := (decided_requests hostMemAvail vms).mem hr
  rw [Nat.sub_zero] at hvm
  have hmem := List.mem_of_getElem? hvm
  have hlt := hballoon vm hmem
  refine ⟨vm, hvm, ?_⟩
  rcases hstatus with ⟨hs, hreq⟩ | ⟨hs, hreq⟩
  · have hle := hextra vm hmem (Vm.status_eq_extra.mp hs)
    have htarget := vm.deflate_target hle hlt r.vm
    rw [hreq]
    show (vm.deflate r.vm).target.toNat + 100 * 1024 = _
    omega
  · have hneedy := (Vm.status_eq_lacks (by omega)).mp hs
    have htarget := vm.inflate_target hneedy.2 r.vm
    rw [hreq]
    show (vm.inflate r.vm).target.toNat = _
    omega

/-- A domain with extra memory is deflated, and an exact deflation needs a balloon of 100 MB. -/
theorem Redistributes.balloon {hostMemAvail : LL} {rs : List Request}
    (h : Redistributes hostMemAvail vms rs) {vm : Vm} (hvm : vm ∈ vms) (hextra : vm.Extra) :
    100 ≤ vm.mems.balloon.toNat := by
  obtain ⟨i, hi, rfl⟩ := List.mem_iff_getElem.mp hvm
  have hserved : i ∈ served .deflate rs := by
    rw [h.deflated, extra, List.mem_findIdxs_iff_exists_getElem_pos]
    exact ⟨hi, decide_eq_true hextra⟩
  obtain ⟨r, hr, rfl⟩ := List.mem_map.mp hserved
  obtain ⟨hr, hkind⟩ := List.mem_filter.mp hr
  obtain ⟨vm, hget, hexact⟩ := h.exact r hr
  rw [List.getElem?_eq_getElem hi, Option.some.injEq] at hget
  rw [of_decide_eq_true hkind, ← hget] at hexact
  simp only at hexact
  omega

/-- A pass redistributes memory exactly if every domain with extra memory has a balloon of at least
100 MB. -/
theorem redistribution (host : Host) :
    (∀ vms hostMemAvail rs, host.domains.mapM Domain.vm = some vms →
      getHostMem host.freeMemory = some hostMemAvail →
      memoryScheduler host.freeMemory host.domains = some rs → Redistributes hostMemAvail vms rs) ↔
    ∀ vms hostMemAvail, host.domains.mapM Domain.vm = some vms →
      getHostMem host.freeMemory = some hostMemAvail →
      ∀ vm ∈ vms, vm.Extra → 100 ≤ vm.mems.balloon.toNat := by
  constructor
  · intro h vms hostMemAvail hvms hhost vm hvm hextra
    exact (h vms hostMemAvail _ hvms hhost (memoryScheduler_eq hvms hhost)).balloon hvm hextra
  · intro h vms hostMemAvail rs hvms hhost hrs
    obtain rfl := Option.some.inj (hrs.symm.trans (memoryScheduler_eq hvms hhost))
    have hballoon := balloon_lt_of_mapM hvms
    have hlen : vms.length ≤ intMax := by
      rw [Lists.length_mapM hvms]
      exact host.count_le
    exact ⟨requests_allocate hostMemAvail hlen hballoon,
      exact_requests hostMemAvail hballoon (h vms hostMemAvail hvms hhost)⟩

/-- The hypervisor does not say how large the balloon of a domain with 400 MB unused is: the domain is
told to take all memory there is. -/
theorem deflated_up : ∃ vms hostMemAvail rs,
    [(⟨some [⟨.unused, 400 * 1024⟩], 1024 * 1024⟩ : Domain)].mapM Domain.vm = some vms ∧
    getHostMem (1024 * 1024 * 1024) = some hostMemAvail ∧
    memoryScheduler (1024 * 1024 * 1024) [⟨some [⟨.unused, 400 * 1024⟩], 1024 * 1024⟩] = some rs ∧
    rs = [⟨0, .deflate, 18446744073709449216⟩] ∧ ¬ Redistributes hostMemAvail vms rs := by
  refine ⟨[⟨⟨400, 0, 0⟩, 1024 * 1024⟩], 1024, _, rfl, by decide, rfl, by decide, fun h => ?_⟩
  have hballoon := h.balloon List.mem_cons_self (by decide)
  exact absurd hballoon (by decide)

end AdvancedOS.Memory
