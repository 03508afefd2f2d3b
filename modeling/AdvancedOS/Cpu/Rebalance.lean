import Mathlib.Algebra.Order.Ring.Rat
import Mathlib.Data.List.Nodup
import AdvancedOS.Lib.Loads
import AdvancedOS.Lib.Places

/-!
# Rebalancing with more domains than processors

The branch `n_vms > n_host_cpus` of `CPUScheduler`. Of the usages, which `qsort` has put into some order,
the first `n_host_cpus` are placed by the first loop: a domain keeps its processor if that is free in
`new_mapping`, and goes to the lowest free one if not. An entry 0 of `new_mapping` is a free one, although
0 is also a domain. The second loop places the others, each on a processor with the least of the
`workloads` so far. Usages and loads are exact numbers here.

* `Round.placed`: what the first loop does, turn by turn; it always finds a place.
* `Round.pinned_once`: every domain is pinned once, and to a processor that exists.
* `Round.stable`: with the same usages, the next round pins every domain where it is.
-/

namespace AdvancedOS.Cpu

open Places

/-- `VM_CPU_Usage`. -/
structure Usage where
  vmId : Nat
  cpuUsage : ℚ

/-- `new_mapping`, `workloads`, and the calls of `pin_vm_to_pcpu` in their order. -/
structure Placement where
  newMapping : Nat → Nat
  workloads : Nat → ℚ
  pins : List (Nat × Nat)

namespace Placement

def start : Placement := ⟨fun _ => 0, fun _ => 0, []⟩

/-- The domain gets the processor `p` in the first loop. -/
def put (s : Placement) (u : Usage) (p : Nat) : Placement where
  newMapping := Function.update s.newMapping p u.vmId
  workloads := Function.update s.workloads p u.cpuUsage
  pins := s.pins ++ [(u.vmId, p)]

end Placement

/-- The first entry of `new_mapping` that is 0. -/
def firstFree (nHostCpus : Nat) (newMapping : Nat → Nat) : Option Nat :=
  (List.range nHostCpus).find? fun j => newMapping j = 0

/-- A turn of the first loop. -/
def placeFirst (nHostCpus : Nat) (mapping : Nat → Nat) (s : Placement) (u : Usage) : Placement :=
  if s.newMapping (mapping u.vmId) = 0 then s.put u (mapping u.vmId)
  else
    match firstFree nHostCpus s.newMapping with
    | some j => s.put u j
    | none => s

/-- `min_wl` and `min_wl_p_cpu` after the search; `none` is `DBL_MAX`, which is above every load. -/
def minWorkload (nHostCpus : Nat) (workloads : Nat → ℚ) : Option ℚ × Nat :=
  (List.range nHostCpus).foldl
    (fun least j => if least.1.all (workloads j < ·) then (some (workloads j), j) else least) (none, 0)

/-- A turn of the second loop. -/
def placeLeast (nHostCpus : Nat) (s : Placement) (u : Usage) : Placement :=
  let p := (minWorkload nHostCpus s.workloads).2
  { s with
    workloads := Function.update s.workloads p (s.workloads p + u.cpuUsage)
    pins := s.pins ++ [(u.vmId, p)] }

/-- The branch, for the sorted usages. -/
def rebalance (nHostCpus : Nat) (mapping : Nat → Nat) (sorted : List Usage) : Placement :=
  (sorted.drop nHostCpus).foldl (placeLeast nHostCpus)
    ((sorted.take nHostCpus).foldl (placeFirst nHostCpus mapping) .start)

/-- `VIR_CPU_MAPLEN`. -/
def virCpuMaplen (nHostCpus : Nat) : Nat := (nHostCpus + 7) / 8

/-- `pin_vm_to_pcpu`: the CPU map for libvirt; `none` is an index out of bounds. -/
def pinVmToPcpu (cpuMapLen p : Nat) : Option (List UInt8) :=
  if p / 8 < cpuMapLen then some ((List.replicate cpuMapLen 0).set (p / 8) (1 <<< UInt8.ofNat (p % 8)))
  else none

/-- Where a domain is after these calls: on the processor of the last one for it, or where it was. -/
def whereIs (mapping : Nat → Nat) (pins : List (Nat × Nat)) (vm : Nat) : Nat :=
  ((pins.reverse.find? fun x => x.1 = vm).map Prod.snd).getD (mapping vm)

/-- What a round works on: the usages of the domains, in the order in which `qsort` leaves them, and where
the domains are. -/
structure Round where
  nHostCpus : Nat
  nVms : Nat
  usage : Nat → ℚ
  sorted : List Usage
  mapping : Nat → Nat
  nHostCpus_pos : 0 < nHostCpus
  nHostCpus_lt : nHostCpus < nVms
  mapping_lt : ∀ vm < nVms, mapping vm < nHostCpus
  perm : sorted.Perm ((List.range nVms).map fun vm => ⟨vm, usage vm⟩)

namespace Round

def result (r : Round) : Placement := rebalance r.nHostCpus r.mapping r.sorted

/-- The domains that the first loop places, in their order. -/
def first (r : Round) : List Usage := r.sorted.take r.nHostCpus

end Round

variable {n nHostCpus : Nat} {mapping : Nat → Nat} {s : Placement} {u : Usage} {us : List Usage} {p vm : Nat}
  {r : Round}

/-! ## The first loop -/

/-- The processor that a turn of the first loop finds. -/
structure Finds (nHostCpus : Nat) (mapping : Nat → Nat) (s : Placement) (u : Usage) (p : Nat) : Prop where
  lt : p < nHostCpus
  free : s.newMapping p = 0
  own : p = mapping u.vmId ∨ s.newMapping (mapping u.vmId) ≠ 0 ∧ ∀ q < nHostCpus, s.newMapping q = 0 → p ≤ q

theorem firstFree_eq_some (h : firstFree nHostCpus s.newMapping = some p) :
    p < nHostCpus ∧ s.newMapping p = 0 ∧ ∀ q < nHostCpus, s.newMapping q = 0 → p ≤ q := by
  obtain ⟨hfree, front, rest, heq, hnone⟩ := List.find?_eq_some_iff_append.mp h
  have hmem : p ∈ List.range nHostCpus := heq ▸ by simp
  refine ⟨List.mem_range.mp hmem, of_decide_eq_true hfree, fun q hq hqfree => ?_⟩
  have hsorted : (front ++ p :: rest).Pairwise (· < ·) := heq ▸ List.pairwise_lt_range
  have hq' : q ∈ front ++ p :: rest := heq ▸ List.mem_range.mpr hq
  rcases List.mem_append.mp hq' with hfront | hrest
  · exact absurd (decide_eq_true hqfree) (by simpa using hnone q hfront)
  · rcases List.mem_cons.mp hrest with rfl | hrest
    · exact Nat.le_refl _
    · exact Nat.le_of_lt ((List.pairwise_cons.mp (List.pairwise_append.mp hsorted).2.1).1 q hrest)

/-- While an entry is free, the turn finds one. -/
theorem placeFirst_cases (hfree : ∃ q < nHostCpus, s.newMapping q = 0) (hmapping : mapping u.vmId < nHostCpus) :
    ∃ p, Finds nHostCpus mapping s u p ∧ placeFirst nHostCpus mapping s u = s.put u p := by
  unfold placeFirst
  split
  · next hown => exact ⟨_, ⟨hmapping, hown, .inl rfl⟩, rfl⟩
  · next hown =>
    cases hfind : firstFree nHostCpus s.newMapping with
    | none =>
      obtain ⟨q, hq, hqfree⟩ := hfree
      exact absurd (decide_eq_true hqfree) (by simpa using List.find?_eq_none.mp hfind q (List.mem_range.mpr hq))
    | some p =>
      obtain ⟨hlt, hpfree, hlow⟩ := firstFree_eq_some hfind
      exact ⟨p, ⟨hlt, hpfree, .inr ⟨hown, hlow⟩⟩, rfl⟩

/-- The processors whose entry is not 0. -/
def marked (nHostCpus : Nat) (s : Placement) : Finset Nat :=
  (Finset.range nHostCpus).filter fun p => s.newMapping p ≠ 0

theorem mem_marked : p ∈ marked nHostCpus s ↔ p < nHostCpus ∧ s.newMapping p ≠ 0 := by
  rw [marked, Finset.mem_filter, Finset.mem_range]

theorem free_of_notMem_marked (hp : p < nHostCpus) (h : p ∉ marked nHostCpus s) : s.newMapping p = 0 := by
  by_contra hne
  exact h (mem_marked.mpr ⟨hp, hne⟩)

theorem Finds.notMem_marked (h : Finds nHostCpus mapping s u p) : p ∉ marked nHostCpus s :=
  fun hmem => (mem_marked.mp hmem).2 h.free

/-- The processors of these domains, without domain 0. -/
def homes (mapping : Nat → Nat) (us : List Usage) : List Nat :=
  (us.filter fun u => u.vmId ≠ 0).map fun u => mapping u.vmId

theorem homes_concat :
    homes mapping (us ++ [u]) = homes mapping us ++ if u.vmId = 0 then [] else [mapping u.vmId] := by
  by_cases h : u.vmId = 0 <;> simp [homes, h]

theorem length_homes (h : ∀ u ∈ us, u.vmId ≠ 0) : (homes mapping us).length = us.length := by
  rw [homes, List.filter_eq_self.mpr fun u hu => decide_eq_true (h u hu), List.length_map]

theorem length_homes_le : (homes mapping us).length ≤ us.length := by
  rw [homes, List.length_map]
  exact List.length_filter_le _ _

theorem Finds.marked_put (h : Finds nHostCpus mapping s u p) : marked nHostCpus (s.put u p) =
    if u.vmId = 0 then marked nHostCpus s else insert p (marked nHostCpus s) := by
  ext q
  split
  · next h0 =>
    rw [mem_marked, mem_marked, Placement.put]
    by_cases hq : q = p
    · subst hq
      simp [h0, h.free]
    · simp [hq]
  · next h0 =>
    rw [Finset.mem_insert, mem_marked, mem_marked, Placement.put]
    by_cases hq : q = p
    · subst hq
      simp [h0, h.lt]
    · simp [hq]

/-- Domain 0 leaves the marks as they are, and the others take places. -/
theorem Finds.seated (h : Finds nHostCpus mapping s u p)
    (hseated : Seated (Finset.range nHostCpus) (homes mapping us) (marked nHostCpus s))
    (hmapping : mapping u.vmId < nHostCpus) :
    Seated (Finset.range nHostCpus) (homes mapping (us ++ [u])) (marked nHostCpus (s.put u p)) := by
  rw [homes_concat, h.marked_put]
  split
  · rwa [List.append_nil]
  · have hp : p ∈ Finset.range nHostCpus := Finset.mem_range.mpr h.lt
    rcases h.own with rfl | ⟨htaken, hlow⟩
    · exact hseated.own hp h.notMem_marked
    · refine hseated.moved (mem_marked.mpr ⟨hmapping, htaken⟩) hp h.notMem_marked fun q hq hqfree => ?_
      have hqlt := Finset.mem_range.mp hq
      exact hlow q hqlt (free_of_notMem_marked hqlt hqfree)

theorem exists_entry_of_seated (h : Seated (Finset.range nHostCpus) (homes mapping us) (marked nHostCpus s))
    (hlt : us.length < nHostCpus) : ∃ q < nHostCpus, s.newMapping q = 0 := by
  have hhomes : (homes mapping us).length < (Finset.range nHostCpus).card := by
    rw [Finset.card_range]
    exact Nat.lt_of_le_of_lt length_homes_le hlt
  obtain ⟨q, hq, hfree⟩ := h.exists_free hhomes
  have hqlt := Finset.mem_range.mp hq
  exact ⟨q, hqlt, free_of_notMem_marked hqlt hfree⟩

/-- The turns of the first loop for these domains. -/
def placeAll (nHostCpus : Nat) (mapping : Nat → Nat) (us : List Usage) : Placement :=
  us.foldl (placeFirst nHostCpus mapping) .start

theorem placeAll_concat : placeAll nHostCpus mapping (us ++ [u]) =
    placeFirst nHostCpus mapping (placeAll nHostCpus mapping us) u := by
  rw [placeAll, List.foldl_append]
  rfl

/-- There are not more domains than processors, and they are on some of them. -/
structure Fitting (nHostCpus : Nat) (mapping : Nat → Nat) (us : List Usage) : Prop where
  le : us.length ≤ nHostCpus
  lt : ∀ u ∈ us, mapping u.vmId < nHostCpus

theorem Fitting.of_concat (h : Fitting nHostCpus mapping (us ++ [u])) :
    Fitting nHostCpus mapping us ∧ us.length < nHostCpus ∧ mapping u.vmId < nHostCpus := by
  have hle := h.le
  rw [List.length_append, List.length_singleton] at hle
  exact ⟨⟨Nat.le_of_succ_le hle, fun v hv => h.lt v (List.mem_append_left _ hv)⟩, hle, h.lt u (by simp)⟩

theorem Fitting.of_prefix {done : List Usage} (h : Fitting nHostCpus mapping us) (hdone : done <+: us) :
    Fitting nHostCpus mapping done :=
  ⟨hdone.length_le.trans h.le, fun u hu => h.lt u (hdone.subset hu)⟩

theorem seated_placeAll (h : Fitting nHostCpus mapping us) :
    Seated (Finset.range nHostCpus) (homes mapping us) (marked nHostCpus (placeAll nHostCpus mapping us)) := by
  induction us using List.reverseRecOn with
  | nil =>
    have hnone : marked nHostCpus .start = ∅ := Finset.filter_false_of_mem fun p _ hne => hne rfl
    show Seated _ [] (marked nHostCpus .start)
    rw [hnone]
    exact Seated.nil _
  | append_singleton us u ih =>
    obtain ⟨hus, hlt, hmapping⟩ := h.of_concat
    obtain ⟨p, hfinds, heq⟩ := placeFirst_cases (exists_entry_of_seated (ih hus) hlt) hmapping
    rw [placeAll_concat, heq]
    exact hfinds.seated (ih hus) hmapping

/-- The search for a free processor finds one, in every turn. -/
theorem finds_placeAll (h : Fitting nHostCpus mapping (us ++ [u])) :
    ∃ p, Finds nHostCpus mapping (placeAll nHostCpus mapping us) u p ∧
      placeAll nHostCpus mapping (us ++ [u]) = (placeAll nHostCpus mapping us).put u p := by
  obtain ⟨hus, hlt, hmapping⟩ := h.of_concat
  obtain ⟨p, hfinds, heq⟩ := placeFirst_cases (exists_entry_of_seated (seated_placeAll hus) hlt) hmapping
  exact ⟨p, hfinds, placeAll_concat.trans heq⟩

/-- Every domain is pinned in its turn, to a processor that exists. -/
theorem pins_placeAll (h : Fitting nHostCpus mapping us) :
    (placeAll nHostCpus mapping us).pins.map Prod.fst = us.map Usage.vmId ∧
      ∀ x ∈ (placeAll nHostCpus mapping us).pins, x.2 < nHostCpus := by
  induction us using List.reverseRecOn with
  | nil => exact ⟨rfl, fun x hx => absurd hx List.not_mem_nil⟩
  | append_singleton us u ih =>
    obtain ⟨hkeys, hlt⟩ := ih h.of_concat.1
    obtain ⟨p, hfinds, heq⟩ := finds_placeAll h
    rw [heq, Placement.put]
    refine ⟨by rw [List.map_append, List.map_append, hkeys]; rfl, fun x hx => ?_⟩
    rcases List.mem_append.mp hx with hx | hx
    · exact hlt x hx
    · rw [List.mem_singleton.mp hx]
      exact hfinds.lt

/-! ## The second loop -/

/-- The search over the first processors knows the least of their loads, and where it is. -/
theorem minWorkload_cases (workloads : Nat → ℚ) (n : Nat) :
    n = 0 ∧ minWorkload n workloads = (none, 0) ∨
      ∃ p < n, minWorkload n workloads = (some (workloads p), p) ∧ ∀ q < n, workloads p ≤ workloads q := by
  induction n with
  | zero => exact .inl ⟨rfl, rfl⟩
  | succ n ih =>
    right
    have hstep : minWorkload (n + 1) workloads =
        if (minWorkload n workloads).1.all (workloads n < ·) then (some (workloads n), n)
        else minWorkload n workloads := by
      rw [minWorkload, List.range_succ, List.foldl_append]
      rfl
    rcases ih with ⟨rfl, heq⟩ | ⟨p, hp, heq, hleast⟩
    · rw [heq, Option.all_none, if_pos rfl] at hstep
      exact ⟨0, Nat.zero_lt_one, hstep, fun q hq => by rw [Nat.lt_one_iff.mp hq]⟩
    · rw [heq, Option.all_some] at hstep
      rcases lt_or_ge (workloads n) (workloads p) with hlt | hge
      · rw [if_pos (decide_eq_true hlt)] at hstep
        refine ⟨n, Nat.lt_succ_self n, hstep, fun q hq => ?_⟩
        rcases Nat.lt_succ_iff_lt_or_eq.mp hq with hq | rfl
        · exact hlt.le.trans (hleast q hq)
        · exact le_refl _
      · rw [if_neg (by simpa using hge)] at hstep
        refine ⟨p, Nat.lt_succ_of_lt hp, hstep, fun q hq => ?_⟩
        rcases Nat.lt_succ_iff_lt_or_eq.mp hq with hq | rfl
        · exact hleast q hq
        · exact hge

/-- A turn of the second loop puts the domain on a processor with the least load. -/
theorem placeLeast_cases (hpos : 0 < nHostCpus) (s : Placement) (u : Usage) :
    ∃ p < nHostCpus, (∀ q < nHostCpus, s.workloads p ≤ s.workloads q) ∧ placeLeast nHostCpus s u =
      { s with
        workloads := Function.update s.workloads p (s.workloads p + u.cpuUsage)
        pins := s.pins ++ [(u.vmId, p)] } := by
  rcases minWorkload_cases s.workloads nHostCpus with ⟨hzero, -⟩ | ⟨p, hp, heq, hleast⟩
  · omega
  · refine ⟨p, hp, hleast, ?_⟩
    simp only [placeLeast, heq]

theorem pins_placeLeast (hpos : 0 < nHostCpus) (hlt : ∀ x ∈ s.pins, x.2 < nHostCpus) (us : List Usage) :
    (us.foldl (placeLeast nHostCpus) s).pins.map Prod.fst = s.pins.map Prod.fst ++ us.map Usage.vmId ∧
      ∀ x ∈ (us.foldl (placeLeast nHostCpus) s).pins, x.2 < nHostCpus := by
  induction us generalizing s with
  | nil => exact ⟨(List.append_nil _).symm, hlt⟩
  | cons u us ih =>
    obtain ⟨p, hp, -, heq⟩ := placeLeast_cases hpos s u
    rw [List.foldl_cons, heq]
    obtain ⟨hkeys, hrest⟩ := @ih
      { s with
        workloads := Function.update s.workloads p (s.workloads p + u.cpuUsage)
        pins := s.pins ++ [(u.vmId, p)] } (fun x hx => by
          rcases List.mem_append.mp hx with hx | hx
          · exact hlt x hx
          · rw [List.mem_singleton.mp hx]
            exact hp)
    exact ⟨by rw [hkeys]; simp, hrest⟩

/-! ## The CPU map -/

/-- Bit `q` of a CPU map. -/
def bitOf (cpumaps : List UInt8) (q : Nat) : Bool := (cpumaps[q / 8]?.getD 0).toNat.testBit (q % 8)

theorem testBit_shift : ∀ k < 8, ∀ j < 8, ((1 : UInt8) <<< UInt8.ofNat k).toNat.testBit j = decide (j = k) := by
  decide

theorem pinVmToPcpu_eq (hp : p < nHostCpus) : ∃ cpumaps, pinVmToPcpu (virCpuMaplen nHostCpus) p = some cpumaps ∧
    cpumaps.length = virCpuMaplen nHostCpus ∧ ∀ q, bitOf cpumaps q = true ↔ q = p := by
  have hbound : p / 8 < virCpuMaplen nHostCpus := by
    unfold virCpuMaplen
    omega
  refine ⟨_, by rw [pinVmToPcpu, if_pos hbound], by rw [List.length_set, List.length_replicate], fun q => ?_⟩
  unfold bitOf
  by_cases hq : q / 8 = p / 8
  · rw [hq, List.getElem?_set_self (by rwa [List.length_replicate]), Option.getD_some,
      testBit_shift _ (Nat.mod_lt _ (by decide)) _ (Nat.mod_lt _ (by decide)), decide_eq_true_iff]
    omega
  · rw [List.getElem?_set_ne (Ne.symm hq), List.getElem?_replicate]
    refine iff_of_false ?_ (fun h => hq (h ▸ rfl))
    split <;> simp

/-! ## A round -/

namespace Round

theorem vmIds (r : Round) : (r.sorted.map Usage.vmId).Perm (List.range r.nVms) := by
  have hperm := r.perm.map Usage.vmId
  rwa [List.map_map, show Usage.vmId ∘ (fun vm => (⟨vm, r.usage vm⟩ : Usage)) = id from rfl, List.map_id] at hperm

theorem length_sorted (r : Round) : r.sorted.length = r.nVms := by
  rw [r.perm.length_eq, List.length_map, List.length_range]

theorem vmId_lt (r : Round) (hu : u ∈ r.sorted) : u.vmId < r.nVms :=
  List.mem_range.mp (r.vmIds.mem_iff.mp (List.mem_map_of_mem hu))

theorem fitting (r : Round) : Fitting r.nHostCpus r.mapping r.first :=
  ⟨List.length_take_le _ _, fun _ hu => r.mapping_lt _ (r.vmId_lt (List.mem_of_mem_take hu))⟩

theorem result_eq (r : Round) : r.result =
    (r.sorted.drop r.nHostCpus).foldl (placeLeast r.nHostCpus) (placeAll r.nHostCpus r.mapping r.first) := rfl

/-- The domains are pinned in the order of their usages. -/
theorem pins_result (r : Round) : r.result.pins.map Prod.fst = r.sorted.map Usage.vmId ∧
    ∀ x ∈ r.result.pins, x.2 < r.nHostCpus := by
  obtain ⟨hkeys, hlt⟩ := pins_placeAll r.fitting
  obtain ⟨hall, hlt'⟩ := pins_placeLeast r.nHostCpus_pos hlt (r.sorted.drop r.nHostCpus)
  rw [result_eq]
  refine ⟨?_, hlt'⟩
  rw [hall, hkeys, first, ← List.map_append, List.take_append_drop]

/-- Every domain is pinned exactly once, to a processor that exists, with the CPU map that has exactly its
bit; and while the first loop places its domains, it finds a free processor in every turn. -/
theorem pinned_once (r : Round) :
    (r.result.pins.map Prod.fst).Perm (List.range r.nVms) ∧
    (∀ x ∈ r.result.pins, x.2 < r.nHostCpus ∧
      ∃ cpumaps, pinVmToPcpu (virCpuMaplen r.nHostCpus) x.2 = some cpumaps ∧
        cpumaps.length = virCpuMaplen r.nHostCpus ∧ ∀ q, bitOf cpumaps q = true ↔ q = x.2) ∧
    ∀ done u, done ++ [u] <+: r.first →
      (firstFree r.nHostCpus (placeAll r.nHostCpus r.mapping done).newMapping).isSome := by
  obtain ⟨hkeys, hlt⟩ := r.pins_result
  refine ⟨hkeys ▸ r.vmIds, fun x hx => ⟨hlt x hx, pinVmToPcpu_eq (hlt x hx)⟩, fun done u hdone => ?_⟩
  obtain ⟨q, hfinds, -⟩ := finds_placeAll (r.fitting.of_prefix hdone)
  rw [Option.isSome_iff_ne_none, firstFree, Ne, List.find?_eq_none]
  exact fun hnone => hnone q (List.mem_range.mpr hfinds.lt) (decide_eq_true hfinds.free)

end Round

/-! ## The next round -/

theorem whereIs_eq {pins : List (Nat × Nat)} (hnodup : (pins.map Prod.fst).Nodup) (h : (vm, p) ∈ pins) :
    whereIs mapping pins vm = p := by
  have hsome : (pins.reverse.find? fun x => x.1 = vm).isSome := by
    rw [List.find?_isSome]
    exact ⟨(vm, p), List.mem_reverse.mpr h, decide_eq_true rfl⟩
  obtain ⟨x, hx⟩ := Option.isSome_iff_exists.mp hsome
  have hmem : x ∈ pins := List.mem_reverse.mp (List.mem_of_find?_eq_some hx)
  have hvm : x.1 = vm := by simpa using List.find?_some hx
  -- the domain is pinned once
  have heq : x = (vm, p) := List.inj_on_of_nodup_map hnodup hmem h hvm
  rw [whereIs, hx, heq]
  rfl

/-- A turn that finds the domain where the first round has put it does what the first round did. -/
theorem Finds.placeFirst_eq {mapping' : Nat → Nat} (h : Finds nHostCpus mapping s u p) (heq : mapping' u.vmId = p) :
    placeFirst nHostCpus mapping' s u = s.put u p := by
  rw [placeFirst, heq, if_pos h.free]

theorem placeAll_eq {mapping' : Nat → Nat} (h : Fitting nHostCpus mapping us)
    (heq : ∀ x ∈ (placeAll nHostCpus mapping us).pins, mapping' x.1 = x.2) :
    placeAll nHostCpus mapping' us = placeAll nHostCpus mapping us := by
  induction us using List.reverseRecOn with
  | nil => rfl
  | append_singleton us u ih =>
    obtain ⟨p, hfinds, hput⟩ := finds_placeAll h
    rw [hput] at heq ⊢
    have hlast : mapping' u.vmId = p := heq (u.vmId, p) (List.mem_append_right _ List.mem_cons_self)
    rw [placeAll_concat, ih h.of_concat.1 fun x hx => heq x (List.mem_append_left _ hx)]
    exact hfinds.placeFirst_eq hlast

theorem pins_prefix_placeLeast (s : Placement) (us : List Usage) :
    s.pins <+: (us.foldl (placeLeast nHostCpus) s).pins := by
  induction us generalizing s with
  | nil => exact List.prefix_rfl
  | cons u us ih => exact (List.prefix_append _ _).trans (ih (placeLeast nHostCpus s u))

namespace Round

/-- Where the round leaves a domain. -/
def pinned (r : Round) (vm : Nat) : Nat := whereIs r.mapping r.result.pins vm

theorem nodup_pins (r : Round) : (r.result.pins.map Prod.fst).Nodup :=
  r.pinned_once.1.nodup_iff.mpr List.nodup_range

theorem pinned_eq (r : Round) {x : Nat × Nat} (hx : x ∈ r.result.pins) : r.pinned x.1 = x.2 :=
  whereIs_eq r.nodup_pins hx

theorem pinned_lt (r : Round) (hvm : vm < r.nVms) : r.pinned vm < r.nHostCpus := by
  obtain ⟨x, hx, rfl⟩ := List.mem_map.mp (r.pinned_once.1.mem_iff.mpr (List.mem_range.mpr hvm))
  rw [r.pinned_eq hx]
  exact r.pins_result.2 x hx

/-- The next round, with the same usages in the same order: the domains are where they were pinned. -/
def again (r : Round) : Round := { r with mapping := r.pinned, mapping_lt := fun _ hvm => r.pinned_lt hvm }

/-- It writes the same arrays and makes the same calls. -/
theorem result_again (r : Round) : r.again.result = r.result := by
  have hall : placeAll r.nHostCpus r.pinned r.first = placeAll r.nHostCpus r.mapping r.first := by
    refine placeAll_eq r.fitting fun x hx => r.pinned_eq ?_
    rw [result_eq]
    exact (pins_prefix_placeLeast _ _).subset hx
  show (r.sorted.drop r.nHostCpus).foldl (placeLeast r.nHostCpus) (placeAll r.nHostCpus r.pinned r.first) = _
  rw [hall, result_eq]

theorem pinned_again (r : Round) (hvm : vm < r.nVms) : r.again.pinned vm = r.pinned vm := by
  obtain ⟨x, hx, rfl⟩ := List.mem_map.mp (r.pinned_once.1.mem_iff.mpr (List.mem_range.mpr hvm))
  rw [r.pinned_eq hx, r.again.pinned_eq (r.result_again ▸ hx)]

/-- The rounds after the first, with the same usages. -/
theorem pinned_iterate (r : Round) (k : Nat) :
    (again^[k] r).nVms = r.nVms ∧ ∀ vm < r.nVms, (again^[k] r).pinned vm = r.pinned vm := by
  induction k with
  | zero => exact ⟨rfl, fun _ _ => rfl⟩
  | succ k ih =>
    rw [Function.iterate_succ_apply']
    refine ⟨ih.1, fun vm hvm => ?_⟩
    rw [pinned_again _ (ih.1.symm ▸ hvm), ih.2 vm hvm]

/-- The next round pins every domain to the processor that it is on; and so does every later one, so that
no domain moves any more. -/
theorem stable (r : Round) :
    (r.again.result.pins.map Prod.fst).Perm (List.range r.nVms) ∧
    (∀ x ∈ r.again.result.pins, x.2 = r.again.mapping x.1) ∧
    ∀ k, ∀ vm < r.nVms, (again^[k] r).pinned vm = r.pinned vm := by
  refine ⟨r.again.pinned_once.1, fun x hx => ?_, fun k => (r.pinned_iterate k).2⟩
  exact (r.pinned_eq (r.result_again ▸ hx)).symm

end Round

end AdvancedOS.Cpu
