import Mathlib.Data.Finset.Max
import Mathlib.Data.List.TakeWhile
import AdvancedOS.Cpu.Rebalance

/-!
# How rebalancing spreads the load

What the branch `n_vms > n_host_cpus` is for: the domains with the largest usages get processors of their own,
and the others even the loads out. The entry of `new_mapping` for domain 0 is 0, which is free, so that
a later turn of the first loop can put another domain on its processor and overwrite its load.

* `Round.apart_iff`: when the first loop gives its domains different processors.
* `tracked_placeAll`, `tracked_placeLeast`: then `workloads` holds the loads of the processors.
* `Round.within`: the entries of `workloads` differ by at most the largest usage.
* `Round.spread_iff`: the load is spread exactly if domain 0 is undisturbed.
-/

namespace AdvancedOS.Cpu

open Places Loads

variable {nHostCpus : Nat} {mapping : Nat → Nat} {s : Placement} {u : Usage} {us done : List Usage} {p t vm : Nat}
  {usage : Nat → ℚ} {bound : ℚ} {r : Round}

namespace Round

/-- The domains that are placed before domain 0. -/
def before (r : Round) : List Usage := r.first.takeWhile fun u => u.vmId ≠ 0

/-- The highest processor that none of the other domains of the first loop is on. -/
structure Highest (r : Round) (t : Nat) : Prop where
  lt : t < r.nHostCpus
  free : t ∉ homes r.mapping r.first
  above : ∀ p < r.nHostCpus, t < p → p ∈ homes r.mapping r.first

/-- The first loop does not place domain 0; or domain 0 is on the highest processor that no other domain of
the first loop is on; or it has to leave its own, for that one, as those below are taken. -/
def Undisturbed (r : Round) : Prop :=
  (∀ u ∈ r.first, u.vmId ≠ 0) ∨
    ∃ t, r.Highest t ∧ (r.mapping 0 = t ∨
      (r.mapping 0 < t ∨ r.mapping 0 ∈ homes r.mapping r.before) ∧
        r.before.length = t + ((homes r.mapping r.before).toFinset.filter (t < ·)).card)

/-- The domains that the first loop places are on different processors; `workloads` holds the sum of the usages of
the domains on each; and the loads of any two processors differ by at most the usage of one
domain. -/
structure Spread (r : Round) : Prop where
  apart : ((r.result.pins.take r.nHostCpus).map Prod.snd).Nodup
  tracked : ∀ p < r.nHostCpus, r.result.workloads p = loadOf r.usage r.result.pins p
  balanced : ∃ vm < r.nVms, ∀ p < r.nHostCpus, ∀ q < r.nHostCpus,
    loadOf r.usage r.result.pins p ≤ loadOf r.usage r.result.pins q + r.usage vm

end Round

/-! ## The marks and the pins -/

/-- What a turn pins stays pinned. -/
theorem pins_subset_placeAll (h : Fitting nHostCpus mapping us) (hdone : done <+: us) :
    (placeAll nHostCpus mapping done).pins ⊆ (placeAll nHostCpus mapping us).pins := by
  induction us using List.reverseRecOn with
  | nil => rw [List.prefix_nil.mp hdone]; exact List.Subset.refl _
  | append_singleton us u ih =>
    rcases List.prefix_concat_iff.mp hdone with rfl | hdone
    · exact List.Subset.refl _
    · obtain ⟨p, -, heq⟩ := finds_placeAll h
      rw [heq]
      exact List.Subset.trans (ih h.of_concat.1 hdone) (List.subset_append_left _ _)

/-- The calls for the domains other than 0. -/
def others (pins : List (Nat × Nat)) : List (Nat × Nat) := pins.filter fun x => x.1 ≠ 0

theorem nodup_snd_iff {pins : List (Nat × Nat)} (hkeys : (pins.map Prod.fst).Nodup) (hpin : (0, p) ∈ pins)
    (hothers : ((others pins).map Prod.snd).Nodup) :
    (pins.map Prod.snd).Nodup ↔ p ∉ (others pins).map Prod.snd := by
  obtain ⟨front, rest, rfl⟩ := List.append_of_mem hpin
  have hsplit : others (front ++ (0, p) :: rest) = front ++ rest := by
    rw [List.map_append, List.map_cons, List.nodup_middle, List.nodup_cons] at hkeys
    have hne : ∀ x ∈ front ++ rest, x.1 ≠ 0 := by
      intro x hx h0
      rw [← List.map_append] at hkeys
      exact hkeys.1 (List.mem_map.mpr ⟨x, hx, h0⟩)
    rw [others, List.filter_append, List.filter_cons_of_neg (by simp), ← List.filter_append]
    exact List.filter_eq_self.mpr fun x hx => decide_eq_true (hne x hx)
  rw [hsplit] at hothers ⊢
  rw [List.map_append, List.map_cons, List.nodup_middle, List.nodup_cons, ← List.map_append, and_iff_left hothers]

/-- The marked processors are those of the other domains, and these have different ones. -/
theorem others_placeAll (h : Fitting nHostCpus mapping us) :
    (∀ p, p ∈ marked nHostCpus (placeAll nHostCpus mapping us) ↔
      p ∈ (others (placeAll nHostCpus mapping us).pins).map Prod.snd) ∧
    ((others (placeAll nHostCpus mapping us).pins).map Prod.snd).Nodup := by
  induction us using List.reverseRecOn with
  | nil =>
    refine ⟨fun p => iff_of_false (fun hmem => (mem_marked.mp hmem).2 rfl) List.not_mem_nil, List.nodup_nil⟩
  | append_singleton us u ih =>
    obtain ⟨hmarked, hnodup⟩ := ih h.of_concat.1
    obtain ⟨p, hfinds, heq⟩ := finds_placeAll h
    rw [heq, hfinds.marked_put]
    have hothers : others ((placeAll nHostCpus mapping us).put u p).pins =
        others (placeAll nHostCpus mapping us).pins ++ if u.vmId = 0 then [] else [(u.vmId, p)] := by
      by_cases h0 : u.vmId = 0 <;> simp [others, Placement.put, h0]
    rw [hothers]
    split
    · rw [List.append_nil]
      exact ⟨hmarked, hnodup⟩
    · have hnew : p ∉ (others (placeAll nHostCpus mapping us).pins).map Prod.snd :=
        fun hmem => hfinds.notMem_marked ((hmarked p).mpr hmem)
      rw [List.map_append, List.map_singleton]
      refine ⟨fun q => ?_, List.nodup_append.mpr ⟨hnodup, List.nodup_singleton p, ?_⟩⟩
      · rw [Finset.mem_insert, List.mem_append, List.mem_singleton, hmarked, or_comm]
      · intro a ha b hb hab
        have hap : a = p := hab.trans (List.mem_singleton.mp hb)
        exact hnew (hap ▸ ha)

theorem marked_subset_placeAll (h : Fitting nHostCpus mapping us) (hdone : done <+: us) :
    marked nHostCpus (placeAll nHostCpus mapping done) ⊆ marked nHostCpus (placeAll nHostCpus mapping us) := by
  intro p hp
  rw [(others_placeAll (h.of_prefix hdone)).1] at hp
  rw [(others_placeAll h).1]
  obtain ⟨x, hx, rfl⟩ := List.mem_map.mp hp
  obtain ⟨hx, hne⟩ := List.mem_filter.mp hx
  exact List.mem_map_of_mem (List.mem_filter.mpr ⟨pins_subset_placeAll h hdone hx, hne⟩)

/-! ## The first loop -/

namespace Round

theorem length_first (r : Round) : r.first.length = r.nHostCpus := by
  rw [first, List.length_take, r.length_sorted]
  exact Nat.min_eq_left r.nHostCpus_lt.le

theorem nodup_first (r : Round) : (r.first.map Usage.vmId).Nodup :=
  (r.vmIds.nodup_iff.mpr List.nodup_range).sublist ((List.take_sublist _ _).map _)

theorem take_pins (r : Round) :
    r.result.pins.take r.nHostCpus = (placeAll r.nHostCpus r.mapping r.first).pins := by
  obtain ⟨rest, hrest⟩ : (placeAll r.nHostCpus r.mapping r.first).pins <+: r.result.pins := by
    rw [result_eq]
    exact pins_prefix_placeLeast _ _
  have hlength : (placeAll r.nHostCpus r.mapping r.first).pins.length = r.nHostCpus := by
    have hkeys := congrArg List.length (pins_placeAll r.fitting).1
    rwa [List.length_map, List.length_map, r.length_first] at hkeys
  rw [← hrest]
  exact List.take_left' hlength

/-- Domain 0 among the first domains, with those before it and those after it. -/
theorem split_first (r : Round) (h : ¬ ∀ u ∈ r.first, u.vmId ≠ 0) : ∃ zero after,
    zero.vmId = 0 ∧ r.first = r.before ++ zero :: after ∧ (∀ u ∈ r.before, u.vmId ≠ 0) ∧ ∀ u ∈ after, u.vmId ≠ 0 := by
  have hbefore : ∀ u ∈ r.before, u.vmId ≠ 0 := fun u hu => by simpa using List.mem_takeWhile_imp hu
  have hsplit : r.before ++ r.first.dropWhile (fun u => u.vmId ≠ 0) = r.first := List.takeWhile_append_dropWhile
  cases hrest : r.first.dropWhile (fun u => u.vmId ≠ 0) with
  | nil =>
    rw [hrest, List.append_nil] at hsplit
    exact absurd (hsplit ▸ hbefore) h
  | cons zero after =>
    rw [hrest] at hsplit
    have hzero : zero.vmId = 0 := by
      have hhead := List.head?_dropWhile_not (fun u : Usage => decide (u.vmId ≠ 0)) r.first
      rw [hrest] at hhead
      simpa using hhead
    refine ⟨zero, after, hzero, hsplit.symm, hbefore, fun u hu h0 => ?_⟩
    -- no domain is in the list twice
    have hnodup := r.nodup_first
    rw [← hsplit, List.map_append, List.map_cons] at hnodup
    have hnot := (List.nodup_cons.mp (List.nodup_append.mp hnodup).2.1).1
    exact hnot (hzero ▸ h0 ▸ List.mem_map_of_mem hu)

/-- With domain 0 among them, the others have one processor left, the highest that none of them is on. -/
theorem exists_highest (r : Round) (h : ¬ ∀ u ∈ r.first, u.vmId ≠ 0) : ∃ t, r.Highest t ∧
    t ∉ marked r.nHostCpus (placeAll r.nHostCpus r.mapping r.first) ∧
    ∀ p < r.nHostCpus, p ∉ marked r.nHostCpus (placeAll r.nHostCpus r.mapping r.first) → p = t := by
  have hseated := seated_placeAll r.fitting
  obtain ⟨zero, after, hzero, hsplit, hbefore, hafter⟩ := r.split_first h
  have hcard : (homes r.mapping r.first).length + 1 = (Finset.range r.nHostCpus).card := by
    have hhomes : homes r.mapping r.first = homes r.mapping r.before ++ homes r.mapping after := by
      rw [hsplit]
      simp [homes, hzero]
    have hlength := r.length_first
    rw [hsplit, List.length_append, List.length_cons] at hlength
    rw [hhomes, List.length_append, length_homes hbefore, length_homes hafter, Finset.card_range]
    omega
  obtain ⟨t, ht, hfree, hlast⟩ := hseated.exists_last hcard
  refine ⟨t, ⟨Finset.mem_range.mp ht, hseated.not_home hfree, fun p hp hlt => ?_⟩, hfree, fun p hp => ?_⟩
  · exact hseated.above_last ht hfree hlast (Finset.mem_range.mpr hp) hlt
  · exact hlast p (Finset.mem_range.mpr hp)

theorem Highest.unique {t t' : Nat} (h : r.Highest t) (h' : r.Highest t') : t = t' := by
  rcases Nat.lt_trichotomy t t' with hlt | heq | hgt
  · exact absurd (h.above t' h'.lt hlt) h'.free
  · exact heq
  · exact absurd (h'.above t h.lt hgt) h.free

/-- Domain 0 gets that processor. -/
theorem finds_highest_iff {zero : Usage} (hzero : zero.vmId = 0) (hbefore : r.before <+: r.first)
    (hnone : ∀ u ∈ r.before, u.vmId ≠ 0) (ht : t < r.nHostCpus)
    (hfree : t ∉ marked r.nHostCpus (placeAll r.nHostCpus r.mapping r.before))
    (hfinds : Finds r.nHostCpus r.mapping (placeAll r.nHostCpus r.mapping r.before) zero p) :
    p = t ↔ r.mapping 0 = t ∨ (r.mapping 0 < t ∨ r.mapping 0 ∈ homes r.mapping r.before) ∧
      r.before.length = t + ((homes r.mapping r.before).toFinset.filter (t < ·)).card := by
  have hseated := seated_placeAll (r.fitting.of_prefix hbefore)
  have htrange := Finset.mem_range.mpr ht
  have hbelow := hseated.below_iff htrange hfree
  have hrange : (Finset.range r.nHostCpus).filter (· < t) = Finset.range t := by
    ext q
    rw [Finset.mem_filter, Finset.mem_range, Finset.mem_range]
    omega
  rw [hrange, Finset.card_range, length_homes hnone] at hbelow
  rw [← hbelow]
  have hmapping : r.mapping 0 < r.nHostCpus := r.mapping_lt 0 (Nat.zero_lt_of_lt r.nHostCpus_lt)
  refine hseated.next_iff htrange hfree (Finset.mem_range.mpr hmapping) (Finset.mem_range.mpr hfinds.lt)
    hfinds.notMem_marked ?_
  have hown := hfinds.own
  rw [hzero] at hown
  refine hown.imp id fun ⟨htaken, hlow⟩ => ⟨mem_marked.mpr ⟨hmapping, htaken⟩, fun q hq hqfree => ?_⟩
  have hqlt := Finset.mem_range.mp hq
  exact hlow q hqlt (free_of_notMem_marked hqlt hqfree)

/-- The first loop gives its domains different processors exactly if domain 0 is undisturbed. -/
theorem apart_iff (r : Round) :
    ((placeAll r.nHostCpus r.mapping r.first).pins.map Prod.snd).Nodup ↔ r.Undisturbed := by
  obtain ⟨hmarked, hnodup⟩ := others_placeAll r.fitting
  have hkeys := (pins_placeAll r.fitting).1
  by_cases hnone : ∀ u ∈ r.first, u.vmId ≠ 0
  · have hall : others (placeAll r.nHostCpus r.mapping r.first).pins =
        (placeAll r.nHostCpus r.mapping r.first).pins := by
      refine List.filter_eq_self.mpr fun x hx => decide_eq_true fun h0 => ?_
      have hmem : x.1 ∈ r.first.map Usage.vmId := hkeys ▸ List.mem_map_of_mem hx
      obtain ⟨u, hu, heq⟩ := List.mem_map.mp hmem
      exact hnone u hu (heq.trans h0)
    rw [hall] at hnodup
    exact iff_of_true hnodup (.inl hnone)
  · obtain ⟨zero, after, hzero, hsplit, hbefore, hafter⟩ := r.split_first hnone
    obtain ⟨t, hhighest, hfree, hlast⟩ := r.exists_highest hnone
    have hturn : r.before ++ [zero] <+: r.first := ⟨after, by rw [hsplit]; simp⟩
    have hearlier : r.before <+: r.first := (List.prefix_append _ _).trans hturn
    obtain ⟨p, hfinds, hput⟩ := finds_placeAll (r.fitting.of_prefix hturn)
    have hpin : (0, p) ∈ (placeAll r.nHostCpus r.mapping r.first).pins := by
      refine pins_subset_placeAll r.fitting hturn ?_
      rw [hput, Placement.put, hzero]
      exact List.mem_append_right _ List.mem_cons_self
    -- the processors of the others are the marked ones, which all but the highest are
    have hsnd : ((placeAll r.nHostCpus r.mapping r.first).pins.map Prod.snd).Nodup ↔
        p ∉ marked r.nHostCpus (placeAll r.nHostCpus r.mapping r.first) := by
      rw [hmarked]
      exact nodup_snd_iff (hkeys ▸ r.nodup_first) hpin hnodup
    have hp : p ∉ marked r.nHostCpus (placeAll r.nHostCpus r.mapping r.first) ↔ p = t :=
      ⟨hlast p hfinds.lt, fun heq => heq ▸ hfree⟩
    have hbeforefree : t ∉ marked r.nHostCpus (placeAll r.nHostCpus r.mapping r.before) :=
      fun hmem => hfree (marked_subset_placeAll r.fitting hearlier hmem)
    rw [hsnd, hp, finds_highest_iff hzero hearlier hbefore hhighest.lt hbeforefree hfinds]
    constructor
    · exact fun h => .inr ⟨t, hhighest, h⟩
    · rintro (h | ⟨t', hhighest', h⟩)
      · exact absurd h hnone
      · rwa [hhighest.unique hhighest']

end Round

/-! ## The loads -/

/-- While no processor is used twice, `workloads` holds the loads. -/
theorem tracked_placeAll (h : Fitting nHostCpus mapping us) (husage : ∀ u ∈ us, u.cpuUsage = usage u.vmId)
    (hnodup : ((placeAll nHostCpus mapping us).pins.map Prod.snd).Nodup) (p : Nat) :
    (placeAll nHostCpus mapping us).workloads p = loadOf usage (placeAll nHostCpus mapping us).pins p := by
  induction us using List.reverseRecOn with
  | nil => rfl
  | append_singleton us u ih =>
    obtain ⟨q, -, heq⟩ := finds_placeAll h
    rw [heq, Placement.put] at hnodup ⊢
    rw [List.map_append, List.map_singleton, List.nodup_append] at hnodup
    have hrest := ih h.of_concat.1 (fun v hv => husage v (List.mem_append_left _ hv)) hnodup.1
    rw [loadOf_concat]
    show Function.update (placeAll nHostCpus mapping us).workloads q u.cpuUsage p = _
    by_cases hq : q = p
    · subst hq
      have hnew : q ∉ (placeAll nHostCpus mapping us).pins.map Prod.snd :=
        fun hmem => hnodup.2.2 q hmem q List.mem_cons_self rfl
      rw [Function.update_self, loadOf_of_notMem hnew, zero_add, if_pos rfl, husage u (by simp)]
    · rw [Function.update_of_ne (Ne.symm hq), if_neg hq, add_zero, hrest]

/-- The second loop adds what it puts on a processor. -/
theorem tracked_placeLeast (hpos : 0 < nHostCpus) (husage : ∀ u ∈ us, u.cpuUsage = usage u.vmId)
    (h : ∀ p, s.workloads p = loadOf usage s.pins p) (p : Nat) :
    (us.foldl (placeLeast nHostCpus) s).workloads p = loadOf usage (us.foldl (placeLeast nHostCpus) s).pins p := by
  induction us generalizing s with
  | nil => exact h p
  | cons u us ih =>
    rw [List.foldl_cons]
    refine ih (fun v hv => husage v (List.mem_cons_of_mem u hv)) fun p => ?_
    obtain ⟨q, -, -, heq⟩ := placeLeast_cases hpos s u
    rw [heq, loadOf_concat]
    show Function.update s.workloads q (s.workloads q + u.cpuUsage) p = _
    by_cases hq : q = p
    · subst hq
      rw [Function.update_self, if_pos rfl, h q, husage u List.mem_cons_self]
    · rw [Function.update_of_ne (Ne.symm hq), if_neg hq, add_zero, h p]

/-- An entry is 0 or a usage after the first loop. -/
theorem bounded_placeAll (h : Fitting nHostCpus mapping us) (h0 : 0 ≤ bound)
    (hbound : ∀ u ∈ us, 0 ≤ u.cpuUsage ∧ u.cpuUsage ≤ bound) (p : Nat) :
    0 ≤ (placeAll nHostCpus mapping us).workloads p ∧ (placeAll nHostCpus mapping us).workloads p ≤ bound := by
  induction us using List.reverseRecOn with
  | nil => exact ⟨le_refl _, h0⟩
  | append_singleton us u ih =>
    obtain ⟨q, -, heq⟩ := finds_placeAll h
    have hrest := ih h.of_concat.1 fun v hv => hbound v (List.mem_append_left _ hv)
    rw [heq, Placement.put]
    by_cases hq : p = q
    · subst hq
      simpa using hbound u (by simp)
    · simpa [hq] using hrest

theorem within_placeLeast (hpos : 0 < nHostCpus) (hbound : ∀ u ∈ us, 0 ≤ u.cpuUsage ∧ u.cpuUsage ≤ bound)
    (h : Within {p | p < nHostCpus} bound s.workloads) :
    Within {p | p < nHostCpus} bound (us.foldl (placeLeast nHostCpus) s).workloads := by
  induction us generalizing s with
  | nil => exact h
  | cons u us ih =>
    rw [List.foldl_cons]
    refine ih (fun v hv => hbound v (List.mem_cons_of_mem u hv)) ?_
    obtain ⟨p, hp, hleast, heq⟩ := placeLeast_cases hpos s u
    obtain ⟨hu, hle⟩ := hbound u List.mem_cons_self
    rw [heq]
    exact h.add_least hp hleast hu hle

namespace Round

theorem cpuUsage_eq (r : Round) (hu : u ∈ r.sorted) : u.cpuUsage = r.usage u.vmId := by
  obtain ⟨vm, -, rfl⟩ := List.mem_map.mp (r.perm.mem_iff.mp hu)
  rfl

/-- The entries of `workloads` differ by at most the largest usage. -/
theorem within (r : Round) (hnonneg : ∀ vm < r.nVms, 0 ≤ r.usage vm) :
    ∃ vm < r.nVms, Within {p | p < r.nHostCpus} (r.usage vm) r.result.workloads := by
  have hne : (Finset.range r.nVms).Nonempty := ⟨0, Finset.mem_range.mpr (Nat.zero_lt_of_lt r.nHostCpus_lt)⟩
  obtain ⟨vm, hvm, hmax⟩ := Finset.exists_max_image (Finset.range r.nVms) r.usage hne
  have hvmlt := Finset.mem_range.mp hvm
  have hbound : ∀ u ∈ r.sorted, 0 ≤ u.cpuUsage ∧ u.cpuUsage ≤ r.usage vm := by
    intro u hu
    rw [r.cpuUsage_eq hu]
    exact ⟨hnonneg _ (r.vmId_lt hu), hmax _ (Finset.mem_range.mpr (r.vmId_lt hu))⟩
  refine ⟨vm, hvmlt, ?_⟩
  rw [result_eq]
  refine within_placeLeast r.nHostCpus_pos (fun u hu => hbound u (List.mem_of_mem_drop hu)) ?_
  refine within_of_le fun p _ => ?_
  exact bounded_placeAll r.fitting (hnonneg vm hvmlt) (fun u hu => hbound u (List.mem_of_mem_take hu)) p

/-- The load is spread if and only if domain 0 is undisturbed. -/
theorem spread_iff (r : Round) (hnonneg : ∀ vm < r.nVms, 0 ≤ r.usage vm) : r.Spread ↔ r.Undisturbed := by
  constructor
  · intro h
    have hapart := h.apart
    rw [take_pins] at hapart
    exact r.apart_iff.mp hapart
  · intro h
    have hapart := r.apart_iff.mpr h
    have htracked : ∀ p, r.result.workloads p = loadOf r.usage r.result.pins p := by
      rw [result_eq]
      refine tracked_placeLeast r.nHostCpus_pos (fun u hu => r.cpuUsage_eq (List.mem_of_mem_drop hu)) ?_
      exact tracked_placeAll r.fitting (fun u hu => r.cpuUsage_eq (List.mem_of_mem_take hu)) hapart
    obtain ⟨vm, hvm, hwithin⟩ := r.within hnonneg
    refine ⟨r.take_pins ▸ hapart, fun p _ => htracked p, vm, hvm, fun p hp q hq => ?_⟩
    rw [← htracked, ← htracked]
    exact hwithin p hp q hq

/-- Three domains that use 10, 5 and 1 percent of a processor. -/
def threeUsages : Nat → ℚ
  | 0 => 10
  | 1 => 5
  | _ => 1

/-- They are on two processors, domain 0 on the given one and the others on the first. -/
def three (p : Fin 2) : Round where
  nHostCpus := 2
  nVms := 3
  usage := threeUsages
  sorted := (List.range 3).map fun vm => ⟨vm, threeUsages vm⟩
  mapping := Function.update (fun _ => 0) 0 p
  nHostCpus_pos := Nat.zero_lt_two
  nHostCpus_lt := Nat.lt_succ_self 2
  mapping_lt := by revert p; decide
  perm := List.Perm.refl _

theorem threeUsages_nonneg : ∀ vm < 3, 0 ≤ threeUsages vm := by decide

/-- Domain 0 is alone. -/
theorem spread_three : (three 1).Spread := by
  have hhighest : (three 1).Highest 1 := ⟨by decide, by decide, fun p hp hlt => absurd hp (Nat.not_lt.mpr hlt)⟩
  exact ((three 1).spread_iff threeUsages_nonneg).mpr (.inr ⟨1, hhighest, .inl rfl⟩)

/-- Domain 1 joins domain 0. -/
theorem not_spread_three : (three 0).result.pins = [(0, 0), (1, 0), (2, 1)] ∧
    loadOf threeUsages (three 0).result.pins 0 = 15 ∧ loadOf threeUsages (three 0).result.pins 1 = 1 ∧
    ¬ (three 0).Spread := by
  have hpins : (three 0).result.pins = [(0, 0), (1, 0), (2, 1)] := by decide +kernel
  refine ⟨hpins, by rw [hpins]; decide +kernel, by rw [hpins]; decide +kernel, fun h => ?_⟩
  have hapart := h.apart
  rw [hpins] at hapart
  exact absurd hapart (by decide)

end Round

end AdvancedOS.Cpu
