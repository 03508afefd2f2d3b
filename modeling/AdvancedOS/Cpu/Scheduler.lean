import Mathlib.Data.List.Nodup
import AdvancedOS.Lib.Lists
import AdvancedOS.Lib.Lts

/-!
# The history of the CPU scheduler

The part of `CPUScheduler` in `vcpu_scheduler.c` that turns the cumulative CPU times of the domains into
usages: `cpu_times` is an array of `MAX_VM` entries that survives from one invocation to the next, and
its entry `i` is for whatever domain stands at position `i` of the list that libvirt returns. What
follows the usages (the mapping to processors, and floating-point numbers) does not touch
`cpu_times`.

`system` is the sequence of invocations, with any list of domains in each. Three of its fields are history
that no step reads: `prev`, what the previous invocation recorded; `slots`, what was last recorded at
each position; and `history`, all records so far.

* `usages_faithful`: while the domains stay at their positions, every usage is the difference between two
  times of one domain, and no index is out of bounds.
* `usage_of_other_vm`: otherwise it need not be.
-/

namespace AdvancedOS.Cpu

open Lts Lists

/-- `unsigned long long`. -/
abbrev LL := UInt64

/-- `MAX_VM`. -/
def maxVm : Nat := 32

variable {ν : Type}

/-- A domain that libvirt lists, and its CPU statistics: `none` is a query that fails, `some none` are
statistics without a `VIR_DOMAIN_CPU_STATS_CPUTIME`. -/
structure Domain (ν : Type) where
  vm : ν
  cpuStats : Option (Option LL)

inductive Failure
  | exit
  | outOfBounds
  deriving DecidableEq, Repr

/-- `get_vm_cpu_times`, over an array of zeros; `none` leaves the program. -/
def getVmCpuTimes (domains : List (Domain ν)) : Option (List LL) :=
  domains.mapM fun domain => domain.cpuStats.map fun cpuTime => cpuTime.getD 0

/-- `VM_CPU_Usage`. Of `cpu_usage` this is the dividend `100 * (current_cpu_times[i] - cpu_times[i])`,
which the program divides by the length of the interval. -/
structure VmCpuUsage where
  vmId : Nat
  dividend : LL
  deriving DecidableEq, Repr

/-- `calculate_vm_cpu_usages`, from index `i` on. -/
def calculateVmCpuUsages (cpuTimes : Nat → LL) : Nat → List LL → Except Failure (List VmCpuUsage)
  | _, [] => .ok []
  | i, currentCpuTime :: rest =>
    if i < maxVm then
      (calculateVmCpuUsages cpuTimes (i + 1) rest).map
        (⟨i, 100 * (currentCpuTime - cpuTimes i)⟩ :: ·)
    else .error .outOfBounds

/-- The loops that copy `current_cpu_times` to `cpu_times`, from index `i` on. -/
def copyCpuTimes : Nat → List LL → (Nat → LL) → Except Failure (Nat → LL)
  | _, [], cpuTimes => .ok cpuTimes
  | i, currentCpuTime :: rest, cpuTimes =>
    if i < maxVm then copyCpuTimes (i + 1) rest (Function.update cpuTimes i currentCpuTime)
    else .error .outOfBounds

/-- `CPUScheduler`: the usages, if any are computed, and `cpu_times` after it. -/
def cpuScheduler (cpuTimes : Nat → LL) (domains : List (Domain ν)) :
    Except Failure (Option (List VmCpuUsage) × (Nat → LL)) :=
  match getVmCpuTimes domains with
  | none => .error .exit
  | some currentCpuTimes =>
    -- if `cpu_times` has not been initialised
    if cpuTimes 0 = 0 then (copyCpuTimes 0 currentCpuTimes cpuTimes).map fun cpuTimes => (none, cpuTimes)
    else
      match calculateVmCpuUsages cpuTimes 0 currentCpuTimes with
      | .error e => .error e
      | .ok usages =>
        (copyCpuTimes 0 currentCpuTimes cpuTimes).map fun cpuTimes => (some usages, cpuTimes)

/-! ## The sequence of invocations -/

/-- What libvirt returns: every domain is listed once. -/
structure Listing (ν : Type) where
  domains : List (Domain ν)
  nodup : (domains.map Domain.vm).Nodup

/-- The domains in their order, each with its cumulative CPU time. -/
def Listing.records (l : Listing ν) : List (ν × LL) :=
  l.domains.map fun domain => (domain.vm, (domain.cpuStats.getD none).getD 0)

structure State (ν : Type) where
  cpuTimes : Nat → LL
  prev : List (ν × LL)
  slots : Nat → Option (ν × LL)
  history : List (ν × LL)

/-- The history after an invocation. -/
def State.record (s : State ν) (l : Listing ν) (cpuTimes : Nat → LL) : State ν where
  cpuTimes := cpuTimes
  prev := l.records
  slots i := l.records[i]?.or (s.slots i)
  history := l.records ++ s.history

/-- An action is an invocation, with what libvirt returns in it. An invocation that fails is the last. -/
def system (ν : Type) : System (State ν) (Listing ν) where
  init := { cpuTimes := fun _ => 0, prev := [], slots := fun _ => none, history := [] }
  next l s :=
    match cpuScheduler s.cpuTimes l.domains with
    | .error _ => none
    | .ok (_, cpuTimes) => some (s.record l cpuTimes)

/-- Cumulative times do not decrease. -/
def Monotone (l : Listing ν) (s : State ν) : Prop :=
  ∀ v t t', (v, t) ∈ s.history → (v, t') ∈ l.records → t ≤ t'

/-- The domains fit into `cpu_times`, and when usages are computed, every domain stands where the
previous invocation found it; or that invocation did not find it, and its position was last another
domain's at no time. -/
structure InPlace (l : Listing ν) (s : State ν) : Prop where
  le : l.domains.length ≤ maxVm
  same : s.cpuTimes 0 ≠ 0 → ∀ i v t, l.records[i]? = some (v, t) →
    (∃ t', s.prev[i]? = some (v, t')) ∨
    (∀ t', (v, t') ∉ s.prev) ∧ ∀ w t', s.slots i = some (w, t') → w = v

/-- The record that the usage of the domain at position `i` is computed from is its own: of the previous
invocation, if that found it, and not of another domain in any case. -/
structure Faithful (s : State ν) (i : Nat) (v : ν) (t : LL) (usage : VmCpuUsage) : Prop where
  usage : usage = ⟨i, 100 * (t - s.cpuTimes i)⟩
  le : s.cpuTimes i ≤ t
  prev : ∀ t', (v, t') ∈ s.prev → s.cpuTimes i = t'
  own : ∀ w t', s.slots i = some (w, t') → w = v ∧ s.cpuTimes i = t'

variable {l : Listing ν} {s u : State ν} {cpuTimes cpuTimes' : Nat → LL} {i : Nat} {currents : List LL}
  {usages : List VmCpuUsage}

/-! ## The loops -/

theorem calculateVmCpuUsages_ok (h : i + currents.length ≤ maxVm) :
    calculateVmCpuUsages cpuTimes i currents =
      .ok (currents.mapIdx fun k t => ⟨i + k, 100 * (t - cpuTimes (i + k))⟩) := by
  induction currents generalizing i with
  | nil => rfl
  | cons t currents ih =>
    rw [List.length_cons] at h
    rw [calculateVmCpuUsages, if_pos (by omega), ih (by omega), List.mapIdx_cons]
    simp only [Except.map, Nat.add_zero, Nat.add_assoc, Nat.add_comm 1]

theorem copyCpuTimes_ok (cpuTimes : Nat → LL) (h : i + currents.length ≤ maxVm) :
    ∃ cpuTimes', copyCpuTimes i currents cpuTimes = .ok cpuTimes' ∧
      ∀ k, cpuTimes' k = if i ≤ k then (currents[k - i]?).getD (cpuTimes k) else cpuTimes k := by
  induction currents generalizing i cpuTimes with
  | nil => exact ⟨cpuTimes, rfl, fun k => by simp⟩
  | cons t currents ih =>
    rw [List.length_cons] at h
    have hrest : i + 1 + currents.length ≤ maxVm := by omega
    obtain ⟨cpuTimes', hcopy, hval⟩ := @ih (i + 1) (Function.update cpuTimes i t) hrest
    refine ⟨cpuTimes', ?_, fun k => ?_⟩
    · rw [copyCpuTimes, if_pos (by omega), hcopy]
    · rw [hval]
      rcases Nat.lt_trichotomy i k with hlt | rfl | hgt
      · have hk : k - i = (k - (i + 1)) + 1 := by omega
        rw [if_pos (by omega), if_pos (by omega), hk, List.getElem?_cons_succ, Function.update_of_ne (by omega)]
      · rw [if_neg (by omega), if_pos (Nat.le_refl i), Nat.sub_self, Function.update_self]
        rfl
      · rw [if_neg (by omega), if_neg (by omega), Function.update_of_ne (by omega)]

theorem calculateVmCpuUsages_error (hi : i ≤ maxVm) (h : maxVm < i + currents.length) :
    calculateVmCpuUsages cpuTimes i currents = .error .outOfBounds := by
  induction currents generalizing i with
  | nil => simp at h; omega
  | cons t currents ih =>
    rw [List.length_cons] at h
    unfold calculateVmCpuUsages
    split
    · rw [ih (by omega) (by omega)]
      rfl
    · rfl

theorem copyCpuTimes_error (hi : i ≤ maxVm) (h : maxVm < i + currents.length) :
    copyCpuTimes i currents cpuTimes = .error .outOfBounds := by
  induction currents generalizing i cpuTimes with
  | nil => simp at h; omega
  | cons t currents ih =>
    rw [List.length_cons] at h
    unfold copyCpuTimes
    split
    · exact ih (by omega) (by omega)
    · rfl

theorem snd_records (h : getVmCpuTimes l.domains = some currents) : l.records.map Prod.snd = currents := by
  have hforall := mapM_eq_some_iff.mp h
  unfold Listing.records
  clear h
  generalize l.domains = domains at hforall
  induction hforall with
  | nil => rfl
  | @cons domain t domains currents hd _ ih =>
    obtain ⟨c, hc, rfl⟩ := Option.map_eq_some_iff.mp hd
    rw [List.map_cons, List.map_cons, ih, hc]
    rfl

/-- The array is large enough exactly for `MAX_VM` domains. -/
theorem cpuScheduler_outOfBounds_iff :
    cpuScheduler cpuTimes l.domains = .error .outOfBounds ↔
      maxVm < l.domains.length ∧ (getVmCpuTimes l.domains).isSome := by
  unfold cpuScheduler
  cases hcurrents : getVmCpuTimes l.domains with
  | none => simp
  | some currents =>
    have hlen : currents.length = l.domains.length := length_mapM hcurrents
    simp only [Option.isSome_some, and_true, ← hlen]
    rcases Nat.lt_or_ge maxVm currents.length with hlt | hge
    · rw [copyCpuTimes_error (Nat.zero_le _) (by omega),
        calculateVmCpuUsages_error (Nat.zero_le _) (by omega)]
      refine iff_of_true ?_ hlt
      split <;> rfl
    · have hbound : 0 + currents.length ≤ maxVm := by omega
      obtain ⟨cpuTimes', hcopy, -⟩ := copyCpuTimes_ok cpuTimes hbound
      rw [calculateVmCpuUsages_ok (by omega), hcopy]
      refine iff_of_false ?_ (Nat.not_lt.mpr hge)
      split <;> nofun

/-- What an invocation that does not fail computes and records. -/
theorem cpuScheduler_ok {usages : Option (List VmCpuUsage)}
    (h : cpuScheduler cpuTimes l.domains = .ok (usages, cpuTimes')) :
    (∀ k, cpuTimes' k = (l.records[k]?.map Prod.snd).getD (cpuTimes k)) ∧
    ∀ us, usages = some us → cpuTimes 0 ≠ 0 ∧
      us = l.records.mapIdx fun k r => ⟨k, 100 * (r.2 - cpuTimes k)⟩ := by
  have hle : l.domains.length ≤ maxVm ∨ getVmCpuTimes l.domains = none := by
    by_contra hno
    obtain ⟨hlong, hsome⟩ := not_or.mp hno
    have hout : cpuScheduler cpuTimes l.domains = .error .outOfBounds :=
      cpuScheduler_outOfBounds_iff.mpr ⟨Nat.not_le.mp hlong, Option.isSome_iff_ne_none.mpr hsome⟩
    rw [hout] at h
    cases h
  unfold cpuScheduler at h
  cases hcurrents : getVmCpuTimes l.domains with
  | none => rw [hcurrents] at h; cases h
  | some currents =>
    have hlen : currents.length = l.domains.length := length_mapM hcurrents
    rw [hcurrents] at h hle
    have hbound : 0 + currents.length ≤ maxVm := by
      rcases hle with hle | hle
      · omega
      · cases hle
    obtain ⟨cpuTimes'', hcopy, hval⟩ := copyCpuTimes_ok cpuTimes hbound
    have hsnd := snd_records hcurrents
    have hval' : ∀ k, cpuTimes'' k = (l.records[k]?.map Prod.snd).getD (cpuTimes k) := by
      intro k
      rw [hval, if_pos (Nat.zero_le k), Nat.sub_zero, ← hsnd, List.getElem?_map]
    simp only at h
    rw [calculateVmCpuUsages_ok hbound, hcopy] at h
    split at h
    · obtain ⟨rfl, rfl⟩ := Prod.mk.inj (Except.ok.inj h)
      exact ⟨hval', nofun⟩
    · next hinit =>
      obtain ⟨rfl, rfl⟩ := Prod.mk.inj (Except.ok.inj h)
      refine ⟨hval', fun us hus => ⟨hinit, ?_⟩⟩
      obtain rfl := Option.some.inj hus
      rw [← hsnd]
      refine List.ext_getElem? fun k => ?_
      simp only [List.getElem?_mapIdx, List.getElem?_map, Option.map_map, Nat.zero_add]
      rfl

/-! ## The array and its history -/

/-- An entry of `cpu_times` is what was last recorded at its position, and the previous invocation was the
last one for the positions that it filled. -/
structure Inv (s : State ν) : Prop where
  slots : ∀ i v t, s.slots i = some (v, t) → s.cpuTimes i = t ∧ (v, t) ∈ s.history
  empty : ∀ i, s.slots i = none → s.cpuTimes i = 0
  prev : ∀ i v t, s.prev[i]? = some (v, t) → s.slots i = some (v, t)
  nodup : (s.prev.map Prod.fst).Nodup

theorem inv_reach (h : Reach (system ν) s) : Inv s := by
  have hinit : Inv (system ν).init := ⟨nofun, fun _ _ => rfl, nofun, List.nodup_nil⟩
  refine h.invariant hinit fun {s u l} _ hinv _ hs => ?_
  simp only [system] at hs
  split at hs
  · cases hs
  · next usages cpuTimes' hok =>
    obtain rfl := Option.some.inj hs
    obtain ⟨hval, -⟩ := cpuScheduler_ok hok
    refine ⟨fun i v t hslot => ?_, fun i hslot => ?_, fun i v t hprev => ?_, ?_⟩
    · simp only [State.record] at hslot ⊢
      rw [hval]
      cases hget : l.records[i]? with
      | none =>
        rw [hget] at hslot
        obtain ⟨htime, hmem⟩ := hinv.slots i v t hslot
        exact ⟨htime, List.mem_append_right _ hmem⟩
      | some r =>
        rw [hget] at hslot
        obtain rfl := Option.some.inj hslot
        exact ⟨rfl, List.mem_append_left _ (List.mem_of_getElem? hget)⟩
    · simp only [State.record, Option.or_eq_none_iff] at hslot ⊢
      rw [hval, hslot.1]
      exact hinv.empty i hslot.2
    · simp only [State.record] at hprev ⊢
      rw [hprev]
      rfl
    · show (l.records.map Prod.fst).Nodup
      rw [Listing.records, List.map_map]
      exact l.nodup

/-! ## The usages -/

/-- While the domains stay at their positions, no index is out of bounds, and every usage is computed
from two times of one domain. -/
theorem usages_faithful (h : Reach (system ν) s) (hmono : Monotone l s) (hplace : InPlace l s) :
    cpuScheduler s.cpuTimes l.domains ≠ .error .outOfBounds ∧
    ∀ us cpuTimes', cpuScheduler s.cpuTimes l.domains = .ok (some us, cpuTimes') →
      us.length = l.records.length ∧
      ∀ i v t, l.records[i]? = some (v, t) → ∃ usage, us[i]? = some usage ∧ Faithful s i v t usage := by
  have hinv := inv_reach h
  refine ⟨fun hout => ?_, fun us cpuTimes' hok => ?_⟩
  · exact absurd (cpuScheduler_outOfBounds_iff.mp hout).1 (Nat.not_lt.mpr hplace.le)
  · obtain ⟨hinit, rfl⟩ := (cpuScheduler_ok hok).2 us rfl
    refine ⟨List.length_mapIdx, fun i v t hget => ⟨⟨i, 100 * (t - s.cpuTimes i)⟩, ?_, ?_⟩⟩
    · rw [List.getElem?_mapIdx, hget]
      rfl
    · have hmem := List.mem_of_getElem? hget
      rcases hplace.same hinit i v t hget with ⟨t', hprev⟩ | ⟨habsent, howner⟩
      · have hslot := hinv.prev i v t' hprev
        obtain ⟨htime, hhist⟩ := hinv.slots i v t' hslot
        refine ⟨rfl, by rw [htime]; exact hmono v t' t hhist hmem, fun t'' hmem'' => ?_, fun w t'' hslot' => ?_⟩
        · -- the previous invocation lists the domain once
          have hsame := List.inj_on_of_nodup_map hinv.nodup (List.mem_of_getElem? hprev) hmem'' rfl
          rw [htime]
          exact congrArg Prod.snd hsame
        · obtain ⟨rfl, rfl⟩ := Prod.mk.inj (Option.some.inj (hslot.symm.trans hslot'))
          exact ⟨rfl, htime⟩
      · refine ⟨rfl, ?_, fun t' hmem' => absurd hmem' (habsent t'), fun w t' hslot => ?_⟩
        · cases hslot : s.slots i with
          | none =>
            rw [hinv.empty i hslot]
            exact UInt64.zero_le
          | some r =>
            obtain ⟨w, t'⟩ := r
            obtain ⟨htime, hhist⟩ := hinv.slots i w t' hslot
            obtain rfl := howner w t' hslot
            rw [htime]
            exact hmono w t' t hhist hmem
        · exact ⟨howner w t' hslot, (hinv.slots i w t' hslot).1⟩

/-- The domains 1, 2, … with these CPU times. -/
def listing (l : List (Nat × LL)) (h : (l.map Prod.fst).Nodup) : Listing Nat where
  domains := l.map fun (vm, t) => ⟨vm, some (some t)⟩
  nodup := by rwa [List.map_map]

/-- The state after domain 1 was found with time 1000 and domain 2 with time 10. -/
def twoDomains : State Nat :=
  (system Nat).init.record (listing [(1, 1000), (2, 10)] (by decide)) fun
    | 0 => 1000
    | 1 => 10
    | _ => 0

theorem reach_twoDomains : Reach (system Nat) twoDomains := by
  refine .step (a := listing [(1, 1000), (2, 10)] (by decide)) .init trivial ?_
  have hcopy : (copyCpuTimes 0 [1000, 10] fun _ => 0) = .ok (Function.update (Function.update (fun _ => 0) 0 1000) 1 10) :=
    rfl
  have hfun : (Function.update (Function.update (fun _ => 0) 0 1000) 1 10 : Nat → LL) = fun
      | 0 => 1000
      | 1 => 10
      | _ => 0 := by
    funext k
    match k with
    | 0 | 1 => rfl
    | k + 2 => rfl
  show some _ = some twoDomains
  rw [twoDomains, ← hfun]
  rfl

/-- Both domains are found again where they were. -/
theorem usages_faithful_two_domains : ∃ us cpuTimes',
    cpuScheduler twoDomains.cpuTimes (listing [(1, 1500), (2, 20)] (by decide)).domains = .ok (some us, cpuTimes') ∧
    ∃ usage, us[1]? = some usage ∧ Faithful twoDomains 1 2 20 usage := by
  have hrun : cpuScheduler twoDomains.cpuTimes (listing [(1, 1500), (2, 20)] (by decide)).domains =
      .ok (some [⟨0, 100 * (1500 - 1000)⟩, ⟨1, 100 * (20 - 10)⟩],
        Function.update (Function.update twoDomains.cpuTimes 0 1500) 1 20) := rfl
  have hfaithful := usages_faithful (l := listing [(1, 1500), (2, 20)] (by decide)) reach_twoDomains
    (by
      intro v t t' hold hnew
      simp only [twoDomains, State.record, listing, Listing.records, system] at hold hnew
      simp at hold hnew
      rcases hold with ⟨rfl, rfl⟩ | ⟨rfl, rfl⟩ <;> simp at hnew <;> subst hnew <;> decide)
    ⟨by decide, fun _ i v t hget => .inl (by
      match i with
      | 0 => obtain ⟨rfl, rfl⟩ := Prod.mk.inj (Option.some.inj hget); exact ⟨1000, rfl⟩
      | 1 => obtain ⟨rfl, rfl⟩ := Prod.mk.inj (Option.some.inj hget); exact ⟨10, rfl⟩
      | i + 2 => cases hget)⟩
  exact ⟨_, _, hrun, (hfaithful.2 _ _ hrun).2 1 2 20 rfl⟩

/-- Domain 1 is gone: the usage of domain 2, whose time went from 10 to 20, is computed from the time of
domain 1, and the difference wraps. And a 33rd domain is out of bounds. -/
theorem usage_of_other_vm :
    (∃ s, Reach (system Nat) s ∧ (2, 10) ∈ s.prev ∧
      ∃ cpuTimes', cpuScheduler s.cpuTimes (listing [(2, 20)] (by decide)).domains =
        .ok (some [⟨0, 100 * (20 - 1000)⟩], cpuTimes') ∧ ¬ (1000 : LL) ≤ 20) ∧
    cpuScheduler (fun _ => 0) (listing ((List.range 33).map fun i => (i, 1)) (by decide)).domains =
      .error .outOfBounds :=
  ⟨⟨twoDomains, reach_twoDomains, by simp [twoDomains, State.record, listing, Listing.records],
    _, rfl, by decide⟩, rfl⟩

end AdvancedOS.Cpu
