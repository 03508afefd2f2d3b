import Mathlib.Data.Set.Function
import Mathlib.Order.Interval.Finset.Nat
import AdvancedOS.Cpu.Rebalance

/-!
# Rebalancing with room for every domain

The branch `n_vms <= n_host_cpus` of `CPUScheduler`. A domain whose processor is free in `new_mapping` stays there
and is not pinned. For any other domain the search for a free processor does not stop at the first one: the domain is
pinned to all of them in turn, ends on the highest, and leaves none for the domains after it. Here too an
entry 0 is a free one, although 0 is also a domain.

* `sweep_eq`: what the search does.
* `Turns`: what the turns so far have done, and `Turns.step` for one more turn.
* `Roomy.still`: a domain that is alone on its processor is not moved.
* `Roomy.oneEach_iff`: exactly when every domain ends on a processor of its own.
-/

namespace AdvancedOS.Cpu

/-- `new_mapping`, and the calls of `pin_vm_to_pcpu` in their order. -/
structure Slots where
  newMapping : Nat → Nat
  pins : List (Nat × Nat)

/-- A turn of the search for a free processor. -/
def pinFree (i : Nat) (s : Slots) (j : Nat) : Slots :=
  if s.newMapping j = 0 then ⟨Function.update s.newMapping j i, s.pins ++ [(i, j)]⟩ else s

/-- A turn of the loop over the domains. -/
def assignOne (nHostCpus : Nat) (mapping : Nat → Nat) (s : Slots) (i : Nat) : Slots :=
  if s.newMapping (mapping i) = 0 then { s with newMapping := Function.update s.newMapping (mapping i) i }
  else (List.range nHostCpus).foldl (pinFree i) s

/-- The branch, for the first `nVms` domains. -/
def assign (nHostCpus : Nat) (mapping : Nat → Nat) (nVms : Nat) : Slots :=
  (List.range nVms).foldl (assignOne nHostCpus mapping) ⟨fun _ => 0, []⟩

/-- Two domains share a processor, and before the second of them no two domains other than 0 do. -/
structure Clash (mapping : Nat → Nat) (e d : Nat) : Prop where
  pos : 0 < e
  lt : e < d
  eq : mapping e = mapping d
  apart : Set.InjOn mapping (Set.Ico 1 d)

/-- The highest processor that no domain before `d` is on, domain 0 apart. -/
structure HighestFree (nHostCpus : Nat) (mapping : Nat → Nat) (d h : Nat) : Prop where
  lt : h < nHostCpus
  free : ∀ k ∈ Set.Ico 1 d, mapping k ≠ h
  above : ∀ p < nHostCpus, h < p → ∃ k ∈ Set.Ico 1 d, mapping k = p

/-- What a round works on when no processor has to take two domains. -/
structure Roomy where
  nHostCpus : Nat
  nVms : Nat
  mapping : Nat → Nat
  le : nVms ≤ nHostCpus
  mapping_lt : ∀ vm < nVms, mapping vm < nHostCpus

namespace Roomy

def result (r : Roomy) : Slots := assign r.nHostCpus r.mapping r.nVms

/-- Where the round leaves a domain. -/
def place (r : Roomy) (vm : Nat) : Nat := whereIs r.mapping r.result.pins vm

/-- No two domains end on the same processor, and a domain that shares its processor with no other is
not moved. -/
structure OneEach (r : Roomy) : Prop where
  apart : ∀ a < r.nVms, ∀ b < r.nVms, r.place a = r.place b → a = b
  still : ∀ vm < r.nVms, (∀ a < r.nVms, a ≠ vm → r.mapping a ≠ r.mapping vm) → r.place vm = r.mapping vm

/-- No two domains share a processor; or two do, neither of which is domain 0, without the second no
two do, and the processor that it gets holds no domain. -/
def Mendable (r : Roomy) : Prop :=
  Set.InjOn r.mapping (Set.Iio r.nVms) ∨
    ∃ e d h, 0 < e ∧ e < d ∧ d < r.nVms ∧ r.mapping e = r.mapping d ∧
      Set.InjOn r.mapping (Set.Iio r.nVms \ {d}) ∧
      HighestFree r.nHostCpus r.mapping d h ∧ ∀ vm < r.nVms, r.mapping vm ≠ h

end Roomy

variable {n i e d h vm : Nat} {mapping : Nat → Nat} {s : Slots}

/-! ## The search -/

/-- The free entries among the first `n`. -/
def freeEntries (n : Nat) (newMapping : Nat → Nat) : List Nat := (List.range n).filter fun j => newMapping j = 0

/-- All free processors get the domain. -/
theorem sweep_eq (i : Nat) (s : Slots) (n : Nat) : (List.range n).foldl (pinFree i) s =
    ⟨fun p => if p < n ∧ s.newMapping p = 0 then i else s.newMapping p,
      s.pins ++ (freeEntries n s.newMapping).map fun j => (i, j)⟩ := by
  induction n with
  | zero => simp [freeEntries]
  | succ n ih =>
    have hsame : (if n < n ∧ s.newMapping n = 0 then i else s.newMapping n) = s.newMapping n :=
      if_neg fun hlt => Nat.lt_irrefl n hlt.1
    rw [List.range_succ, List.foldl_append, ih, List.foldl_cons, List.foldl_nil]
    simp only [pinFree, hsame]
    split
    · next hfree =>
      simp only [freeEntries, List.range_succ, List.filter_append, List.map_append, List.append_assoc]
      congr 1
      · funext p
        by_cases hp : p = n
        · simp [hp, hfree]
        · have hiff : p < n + 1 ↔ p < n := by omega
          simp [hp, hiff]
      · simp [hfree]
    · next htaken =>
      simp only [freeEntries, List.range_succ, List.filter_append]
      congr 1
      · funext p
        by_cases hp : p = n
        · simp [hp, htaken]
        · have hiff : p < n + 1 ↔ p < n := by omega
          simp [hiff]
      · simp [htaken]

/-- The last free entry is the highest. -/
theorem freeEntries_concat (hfree : ∃ p < n, s.newMapping p = 0) :
    ∃ front h, freeEntries n s.newMapping = front ++ [h] ∧ h < n ∧ s.newMapping h = 0 ∧
      ∀ p < n, h < p → s.newMapping p ≠ 0 := by
  obtain ⟨q, hq, hqfree⟩ := hfree
  have hmem : ∀ p, p ∈ freeEntries n s.newMapping ↔ p < n ∧ s.newMapping p = 0 := by
    intro p
    rw [freeEntries, List.mem_filter, List.mem_range, decide_eq_true_iff]
  rcases List.eq_nil_or_concat' (freeEntries n s.newMapping) with hnil | ⟨front, h, heq⟩
  · exact absurd ((hmem q).mpr ⟨hq, hqfree⟩) (hnil ▸ List.not_mem_nil)
  · obtain ⟨hlt, hhfree⟩ := (hmem h).mp (heq ▸ by simp)
    have hsorted : (front ++ [h]).Pairwise (· < ·) := heq ▸ List.pairwise_lt_range.filter _
    refine ⟨front, h, heq, hlt, hhfree, fun p hp hhp hpfree => ?_⟩
    have hp' : p ∈ front ++ [h] := heq ▸ (hmem p).mpr ⟨hp, hpfree⟩
    rcases List.mem_append.mp hp' with hfront | hlast
    · have hph := (List.pairwise_append.mp hsorted).2.2 p hfront h (List.mem_singleton.mpr rfl)
      omega
    · exact absurd (List.mem_singleton.mp hlast) (Nat.ne_of_gt hhp)

/-! ## The turns -/

/-- After the turns of the first `i` domains: all were on free processors; or one was not, which is now on the
highest that was free, and no processor is free any more. -/
inductive Turns (n : Nat) (mapping : Nat → Nat) (i : Nat) (s : Slots) : Prop
  | apart (hapart : Set.InjOn mapping (Set.Ico 1 i)) (hpins : s.pins = [])
      (hmarked : ∀ p, s.newMapping p ≠ 0 ↔ ∃ k ∈ Set.Ico 1 i, mapping k = p)
  | moved (e d h : Nat) (front : List (Nat × Nat)) (hclash : Clash mapping e d) (hlt : d < i)
      (hhighest : HighestFree n mapping d h) (hpins : s.pins = front ++ [(d, h)]) (honly : ∀ x ∈ front, x.1 = d)
      (hfull : ∀ p < n, s.newMapping p ≠ 0)

/-- Fewer domains than processors leave a processor free. -/
theorem exists_free (mapping : Nat → Nat) (hi : i < n) : ∃ p < n, ∀ k ∈ Set.Ico 1 i, mapping k ≠ p := by
  have hcard : ((Finset.Ico 1 i).image mapping).card < (Finset.range n).card := by
    refine Nat.lt_of_le_of_lt Finset.card_image_le ?_
    rw [Nat.card_Ico, Finset.card_range]
    omega
  obtain ⟨p, hp, hfree⟩ := Finset.exists_mem_notMem_of_card_lt_card hcard
  refine ⟨p, Finset.mem_range.mp hp, fun k hk heq => hfree ?_⟩
  exact Finset.mem_image.mpr ⟨k, Finset.mem_Ico.mpr hk, heq⟩

theorem mem_Ico_succ {k : Nat} : k ∈ Set.Ico 1 (i + 1) ↔ k ∈ Set.Ico 1 i ∨ 0 < i ∧ k = i := by
  rw [Set.mem_Ico, Set.mem_Ico]
  omega

theorem injOn_succ (hapart : Set.InjOn mapping (Set.Ico 1 i)) (hnew : ∀ k ∈ Set.Ico 1 i, mapping k ≠ mapping i) :
    Set.InjOn mapping (Set.Ico 1 (i + 1)) := by
  intro a ha b hb heq
  rcases mem_Ico_succ.mp ha with ha | ⟨-, rfl⟩ <;> rcases mem_Ico_succ.mp hb with hb | ⟨-, rfl⟩
  · exact hapart ha hb heq
  · exact absurd heq (hnew a ha)
  · exact absurd heq.symm (hnew b hb)
  · rfl

/-- Domain 0 does not mark its processor, any other domain does. -/
theorem marked_succ (hmarked : ∀ p, s.newMapping p ≠ 0 ↔ ∃ k ∈ Set.Ico 1 i, mapping k = p)
    (hfree : s.newMapping (mapping i) = 0) (p : Nat) :
    Function.update s.newMapping (mapping i) i p ≠ 0 ↔ ∃ k ∈ Set.Ico 1 (i + 1), mapping k = p := by
  by_cases hp : p = mapping i
  · subst hp
    rw [Function.update_self]
    constructor
    · exact fun hne => ⟨i, mem_Ico_succ.mpr (.inr ⟨Nat.pos_of_ne_zero hne, rfl⟩), rfl⟩
    · rintro ⟨k, hk, heq⟩
      rcases mem_Ico_succ.mp hk with hk | ⟨hpos, -⟩
      · exact absurd hfree ((hmarked _).mpr ⟨k, hk, heq⟩)
      · exact Nat.ne_of_gt hpos
  · rw [Function.update_of_ne hp, hmarked]
    constructor
    · exact fun ⟨k, hk, heq⟩ => ⟨k, mem_Ico_succ.mpr (.inl hk), heq⟩
    · rintro ⟨k, hk, rfl⟩
      rcases mem_Ico_succ.mp hk with hk | ⟨-, rfl⟩
      · exact ⟨k, hk, rfl⟩
      · exact absurd rfl hp

/-- After a search, no processor is free. -/
theorem sweep_full (hpos : 0 < i) (p : Nat) (hp : p < n) : ((List.range n).foldl (pinFree i) s).newMapping p ≠ 0 := by
  rw [sweep_eq]
  show (if p < n ∧ s.newMapping p = 0 then i else s.newMapping p) ≠ 0
  split
  · exact Nat.ne_of_gt hpos
  · next hno => exact fun hzero => hno ⟨hp, hzero⟩

/-- The first search. -/
theorem turns_sweep (hapart : Set.InjOn mapping (Set.Ico 1 i)) (hpins : s.pins = [])
    (hmarked : ∀ p, s.newMapping p ≠ 0 ↔ ∃ k ∈ Set.Ico 1 i, mapping k = p) (hi : i < n)
    (htaken : s.newMapping (mapping i) ≠ 0) : Turns n mapping (i + 1) ((List.range n).foldl (pinFree i) s) := by
  obtain ⟨e, he, heq⟩ := (hmarked (mapping i)).mp htaken
  have hfree : ∃ p < n, s.newMapping p = 0 := by
    obtain ⟨q, hq, hqfree⟩ := exists_free mapping hi
    refine ⟨q, hq, ?_⟩
    by_contra hne
    obtain ⟨k, hk, hkq⟩ := (hmarked q).mp hne
    exact hqfree k hk hkq
  obtain ⟨front, h, hentries, hlt, hhfree, habove⟩ := freeEntries_concat hfree
  have hhighest : HighestFree n mapping i h :=
    ⟨hlt, fun k hk hkh => (hmarked h).mpr ⟨k, hk, hkh⟩ hhfree, fun p hp hhp => (hmarked p).mp (habove p hp hhp)⟩
  refine .moved e i h (front.map fun j => (i, j)) ⟨he.1, he.2, heq, hapart⟩ (Nat.lt_succ_self i) hhighest ?_ ?_
    (sweep_full (Nat.lt_trans he.1 he.2))
  · rw [sweep_eq, hentries, hpins, List.nil_append, List.map_append, List.map_singleton]
  · intro x hx
    obtain ⟨j, -, rfl⟩ := List.mem_map.mp hx
    rfl

theorem Turns.step (hturns : Turns n mapping i s) (hi : i < n) (hmapping : mapping i < n) :
    Turns n mapping (i + 1) (assignOne n mapping s i) := by
  unfold assignOne
  cases hturns with
  | apart hapart hpins hmarked =>
    split
    · next hfree =>
      have hnew : ∀ k ∈ Set.Ico 1 i, mapping k ≠ mapping i :=
        fun k hk heq => (hmarked (mapping i)).mpr ⟨k, hk, heq⟩ hfree
      exact .apart (injOn_succ hapart hnew) hpins (marked_succ hmarked hfree)
    · next htaken => exact turns_sweep hapart hpins hmarked hi htaken
  | moved e d h front hclash hlt hhighest hpins honly hfull =>
    -- nothing is free any more, so that the search finds nothing
    have hnone : freeEntries n s.newMapping = [] := by
      refine List.filter_eq_nil_iff.mpr fun p hp => ?_
      simpa using hfull p (List.mem_range.mp hp)
    rw [if_neg (hfull _ hmapping)]
    refine .moved e d h front hclash (Nat.lt_succ_of_lt hlt) hhighest ?_ honly
      (sweep_full (Nat.lt_trans hclash.pos (Nat.lt_trans hclash.lt hlt)))
    rw [sweep_eq, hnone, List.map_nil, List.append_nil]
    exact hpins

theorem turns_assign (hi : i ≤ n) (hmapping : ∀ vm < i, mapping vm < n) : Turns n mapping i (assign n mapping i) := by
  induction i with
  | zero =>
    refine .apart (fun a ha => absurd ha.2 (Nat.not_lt_zero a)) rfl fun p => iff_of_false (fun hne => hne rfl) ?_
    exact fun ⟨k, hk, _⟩ => absurd hk.2 (Nat.not_lt_zero k)
  | succ i ih =>
    rw [assign, List.range_succ, List.foldl_append]
    exact (ih (Nat.le_of_succ_le hi) fun vm hvm => hmapping vm (Nat.lt_succ_of_lt hvm)).step hi
      (hmapping i (Nat.lt_succ_self i))

/-! ## The places -/

theorem whereIs_concat {pins : List (Nat × Nat)} (honly : ∀ x ∈ pins, x.1 = d) :
    whereIs mapping (pins ++ [(d, h)]) vm = if vm = d then h else mapping vm := by
  unfold whereIs
  rw [List.reverse_concat]
  split
  · next heq => simp [heq]
  · next hne =>
    have hnone : pins.reverse.find? (fun x => x.1 = vm) = none := by
      refine List.find?_eq_none.mpr fun x hx => ?_
      simpa [honly x (List.mem_reverse.mp hx)] using Ne.symm hne
    simp [hnone, Ne.symm hne]

theorem HighestFree.unique {h' : Nat} (hh : HighestFree n mapping d h) (hh' : HighestFree n mapping d h') :
    h = h' := by
  rcases Nat.lt_trichotomy h h' with hlt | heq | hgt
  · obtain ⟨k, hk, hkh⟩ := hh.above h' hh'.lt hlt
    exact absurd hkh (hh'.free k hk)
  · exact heq
  · obtain ⟨k, hk, hkh⟩ := hh'.above h hh.lt hgt
    exact absurd hkh (hh.free k hk)

namespace Roomy

/-- The domains stay, or the first that clashes with another one goes to the highest free processor. -/
theorem place_cases (r : Roomy) :
    Set.InjOn r.mapping (Set.Ico 1 r.nVms) ∧ (∀ vm, r.place vm = r.mapping vm) ∨
    ∃ e d h, Clash r.mapping e d ∧ d < r.nVms ∧ HighestFree r.nHostCpus r.mapping d h ∧
      ∀ vm, r.place vm = if vm = d then h else r.mapping vm := by
  rcases turns_assign r.le r.mapping_lt with
    ⟨hapart, hpins, -⟩ | ⟨e, d, h, front, hclash, hlt, hhighest, hpins, honly, -⟩
  · refine .inl ⟨hapart, fun vm => ?_⟩
    rw [place, result, hpins]
    rfl
  · refine .inr ⟨e, d, h, hclash, hlt, hhighest, fun vm => ?_⟩
    rw [place, result, hpins, whereIs_concat honly]

theorem still (r : Roomy) (hvm : ∀ a < r.nVms, a ≠ vm → r.mapping a ≠ r.mapping vm) : r.place vm = r.mapping vm := by
  rcases r.place_cases with ⟨-, hplace⟩ | ⟨e, d, h, hclash, hlt, -, hplace⟩
  · exact hplace vm
  · rw [hplace, if_neg]
    rintro rfl
    exact hvm e (Nat.lt_trans hclash.lt hlt) (Nat.ne_of_lt hclash.lt) hclash.eq

/-- The domain that goes to `h` makes room, and has to find some. -/
theorem apart_iff_of_moved (r : Roomy) (hlt : d < r.nVms) (hd : r.mapping d ≠ h)
    (hplace : ∀ vm, r.place vm = if vm = d then h else r.mapping vm) :
    (∀ a < r.nVms, ∀ b < r.nVms, r.place a = r.place b → a = b) ↔
      Set.InjOn r.mapping (Set.Iio r.nVms \ {d}) ∧ ∀ vm < r.nVms, r.mapping vm ≠ h := by
  constructor
  · intro hall
    refine ⟨fun a ha b hb heq => ?_, fun vm hvm heq => ?_⟩
    · have had : a ≠ d := ha.2
      have hbd : b ≠ d := hb.2
      refine hall a ha.1 b hb.1 ?_
      rw [hplace, hplace, if_neg had, if_neg hbd, heq]
    · have hne : vm ≠ d := fun hvd => hd (hvd ▸ heq)
      refine hne (hall vm hvm d hlt ?_)
      rw [hplace, hplace, if_neg hne, if_pos rfl, heq]
  · rintro ⟨hinj, hnobody⟩ a ha b hb hab
    rw [hplace, hplace] at hab
    split at hab
    · next had =>
      split at hab
      · next hbd => exact had.trans hbd.symm
      · exact absurd hab.symm (hnobody b hb)
    · next had =>
      split at hab
      · exact absurd hab (hnobody a ha)
      · next hbd => exact hinj ⟨ha, had⟩ ⟨hb, hbd⟩ hab

/-- With a clash, the round is mendable if that is the only one. -/
theorem mendable_iff_of_clash (r : Roomy) (hclash : Clash r.mapping e d) (hlt : d < r.nVms)
    (hhighest : HighestFree r.nHostCpus r.mapping d h) : r.Mendable ↔
      Set.InjOn r.mapping (Set.Iio r.nVms \ {d}) ∧ ∀ vm < r.nVms, r.mapping vm ≠ h := by
  have hevm : e < r.nVms := Nat.lt_trans hclash.lt hlt
  constructor
  · rintro (hinj | ⟨e', d', h', hpos, hed, -, heq, hinj, hhighest', hnobody⟩)
    · exact absurd (hinj hevm hlt hclash.eq) (Nat.ne_of_lt hclash.lt)
    · -- of the two that clash, the one that the others can do without is the second
      have hsame : d' = d := by
        by_contra hne
        by_cases hed' : d' = e
        · subst hed'
          have hsame := hclash.apart ⟨hpos, Nat.lt_trans hed hclash.lt⟩ ⟨hclash.pos, hclash.lt⟩ heq
          exact absurd hsame (Nat.ne_of_lt hed)
        · exact absurd (hinj ⟨hevm, Ne.symm hed'⟩ ⟨hlt, Ne.symm hne⟩ hclash.eq) (Nat.ne_of_lt hclash.lt)
      subst hsame
      rw [hhighest'.unique hhighest] at hnobody
      exact ⟨hinj, hnobody⟩
  · exact fun ⟨hinj, hnobody⟩ => .inr ⟨e, d, h, hclash.pos, hclash.lt, hlt, hclash.eq, hinj, hhighest, hnobody⟩

/-- Every domain ends on a processor of its own exactly if the clashes are mendable. -/
theorem oneEach_iff (r : Roomy) : r.OneEach ↔ r.Mendable := by
  have hiff : r.OneEach ↔ ∀ a < r.nVms, ∀ b < r.nVms, r.place a = r.place b → a = b :=
    ⟨fun h => h.apart, fun h => ⟨h, fun _ _ => r.still⟩⟩
  rw [hiff]
  rcases r.place_cases with ⟨hapart, hplace⟩ | ⟨e, d, h, hclash, hlt, hhighest, hplace⟩
  · simp only [hplace]
    constructor
    · exact fun h => .inl fun a ha b hb => h a ha b hb
    · rintro (h | ⟨e, d, h, hpos, hed, hd, heq, -⟩)
      · exact fun a ha b hb => h ha hb
      · have hsame := hapart ⟨hpos, Nat.lt_trans hed hd⟩ ⟨Nat.lt_trans hpos hed, hd⟩ heq
        exact absurd hsame (Nat.ne_of_lt hed)
  · have hd : r.mapping d ≠ h := hclash.eq ▸ hhighest.free e ⟨hclash.pos, hclash.lt⟩
    rw [r.apart_iff_of_moved hlt hd hplace, r.mendable_iff_of_clash hclash hlt hhighest]

/-- Two domains on processor 0, of two. -/
def two : Roomy where
  nHostCpus := 2
  nVms := 2
  mapping _ := 0
  le := Nat.le_refl 2
  mapping_lt _ _ := Nat.zero_lt_two

/-- They stay there: domain 0 does not mark the processor. -/
theorem not_oneEach_two : two.result.pins = [] ∧ two.place 0 = 0 ∧ two.place 1 = 0 ∧ ¬ two.OneEach := by
  refine ⟨rfl, rfl, rfl, fun h => ?_⟩
  exact absurd (h.apart 0 (by decide) 1 (by decide) rfl) Nat.zero_ne_one

end Roomy

end AdvancedOS.Cpu
