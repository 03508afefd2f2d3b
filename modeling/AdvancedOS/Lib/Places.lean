import Mathlib.Data.Finset.Card
import Mathlib.Data.Finset.Max
import Mathlib.Order.Lattice

/-!
# Taking places

Guests arrive one after the other, each with a home among the places. A guest takes the home if it is free,
and the lowest free place if not. Which places are taken in the end does not depend on the order
of the guests: the homes, and of the other places the lowest.

* `Seated`: the places that guests with some homes have taken.
* `Seated.own`, `Seated.moved`: one more guest.
* `Seated.exists_free`: as long as there are fewer guests than places, a place is free.
* `Seated.above_last`: if one place is left, every higher one is a home.
* `Seated.next_iff`: when the next guest takes a given free place.
* `Seated.below_iff`: when all places below a free one are taken.
-/

namespace Places

variable {α : Type} [LinearOrder α] {places taken : Finset α} {homes : List α} {home p t : α}

structure Seated (places : Finset α) (homes : List α) (taken : Finset α) : Prop where
  subset : taken ⊆ places
  card : taken.card = homes.length
  home_taken : ∀ h ∈ homes, h ∈ taken
  lowest : ∀ x ∈ taken, x ∉ homes → ∀ y ∈ places, y ∉ taken → x < y

theorem Seated.nil (places : Finset α) : Seated places [] ∅ :=
  ⟨Finset.empty_subset _, rfl, fun _ h => absurd h List.not_mem_nil, fun _ h => absurd h (Finset.notMem_empty _)⟩

/-- A place that is taken by the next guest, who is at home there or finds it the lowest. -/
theorem Seated.insert (h : Seated places homes taken) (hp : p ∈ places) (hfree : p ∉ taken)
    (hhome : home ∈ Insert.insert p taken) (hlow : p ≠ home → ∀ y ∈ places, y ∉ taken → p ≤ y) :
    Seated places (homes ++ [home]) (Insert.insert p taken) := by
  refine ⟨Finset.insert_subset hp h.subset, ?_, fun x hx => ?_, fun x hx hhomes y hy hfree' => ?_⟩
  · rw [Finset.card_insert_of_notMem hfree, h.card, List.length_append, List.length_singleton]
  · rcases List.mem_append.mp hx with hx | hx
    · exact Finset.mem_insert_of_mem (h.home_taken x hx)
    · exact List.mem_singleton.mp hx ▸ hhome
  · rw [List.mem_append, List.mem_singleton, not_or] at hhomes
    rw [Finset.mem_insert, not_or] at hfree'
    rcases Finset.mem_insert.mp hx with rfl | hx
    · exact lt_of_le_of_ne (hlow hhomes.2 y hy hfree'.2) (Ne.symm hfree'.1)
    · exact h.lowest x hx hhomes.1 y hy hfree'.2

theorem Seated.own (h : Seated places homes taken) (hp : p ∈ places) (hfree : p ∉ taken) :
    Seated places (homes ++ [p]) (Insert.insert p taken) :=
  h.insert hp hfree (Finset.mem_insert_self p taken) fun hne => absurd rfl hne

theorem Seated.moved (h : Seated places homes taken) (hhome : home ∈ taken) (hp : p ∈ places) (hfree : p ∉ taken)
    (hlow : ∀ y ∈ places, y ∉ taken → p ≤ y) : Seated places (homes ++ [home]) (Insert.insert p taken) :=
  h.insert hp hfree (Finset.mem_insert_of_mem hhome) fun _ => hlow

theorem Seated.exists_free (h : Seated places homes taken) (hlt : homes.length < places.card) :
    ∃ p ∈ places, p ∉ taken := by
  obtain ⟨p, hp, hfree⟩ := Finset.exists_mem_notMem_of_card_lt_card (h.card ▸ hlt : taken.card < places.card)
  exact ⟨p, hp, hfree⟩

/-! ## A free place -/

theorem Seated.not_home (h : Seated places homes taken) (hfree : t ∉ taken) : t ∉ homes :=
  fun hmem => hfree (h.home_taken t hmem)

/-- Above a free place only homes are taken. -/
theorem Seated.home_of_lt (h : Seated places homes taken) (ht : t ∈ places) (hfree : t ∉ taken) (hp : p ∈ taken)
    (hlt : t < p) : p ∈ homes := by
  by_contra hno
  exact lt_asymm hlt (h.lowest p hp hno t ht hfree)

/-- If only one place is left, every higher one is a home. -/
theorem Seated.above_last (h : Seated places homes taken) (ht : t ∈ places) (hfree : t ∉ taken)
    (hlast : ∀ y ∈ places, y ∉ taken → y = t) (hp : p ∈ places) (hlt : t < p) : p ∈ homes := by
  have htaken : p ∈ taken := by
    by_contra hno
    exact absurd (hlast p hp hno) (ne_of_gt hlt)
  exact h.home_of_lt ht hfree htaken hlt

/-- One place is left if there are as many guests as other places. -/
theorem Seated.exists_last (h : Seated places homes taken) (hcard : homes.length + 1 = places.card) :
    ∃ t ∈ places, t ∉ taken ∧ ∀ y ∈ places, y ∉ taken → y = t := by
  have hone : (places \ taken).card = 1 := by
    rw [Finset.card_sdiff_of_subset h.subset, h.card]
    omega
  obtain ⟨t, ht⟩ := Finset.card_eq_one.mp hone
  have hmem : ∀ y, y ∈ places ∧ y ∉ taken ↔ y = t := by
    intro y
    rw [← Finset.mem_sdiff, ht, Finset.mem_singleton]
  exact ⟨t, ((hmem t).mpr rfl).1, ((hmem t).mpr rfl).2, fun y hy hfree => (hmem y).mp ⟨hy, hfree⟩⟩

/-- The next guest takes a free place that is the home, or that is the lowest if the home is taken. -/
theorem Seated.next_iff (h : Seated places homes taken) (ht : t ∈ places) (hfree : t ∉ taken) (hhome : home ∈ places)
    (hp : p ∈ places) (hpfree : p ∉ taken)
    (hnext : p = home ∨ home ∈ taken ∧ ∀ q ∈ places, q ∉ taken → p ≤ q) :
    p = t ↔ home = t ∨ (home < t ∨ home ∈ homes) ∧ ∀ q ∈ places, q < t → q ∈ taken := by
  constructor
  · rintro rfl
    rcases hnext with heq | ⟨htaken, hlow⟩
    · exact .inl heq.symm
    · refine .inr ⟨?_, fun q hq hlt => ?_⟩
      · rcases lt_or_ge home p with hlt | hge
        · exact .inl hlt
        · have hlt : p < home := lt_of_le_of_ne hge (ne_of_mem_of_not_mem htaken hpfree).symm
          exact .inr (h.home_of_lt hp hpfree htaken hlt)
      · by_contra hqfree
        exact not_lt_of_ge (hlow q hq hqfree) hlt
  · rintro (heq | ⟨hwhere, hall⟩)
    · rcases hnext with hp | ⟨htaken, -⟩
      · exact hp.trans heq
      · exact absurd (heq ▸ htaken) hfree
    · have htaken : home ∈ taken := hwhere.elim (hall home hhome) (h.home_taken home)
      rcases hnext with rfl | ⟨-, hlow⟩
      · exact absurd htaken hpfree
      · exact le_antisymm (hlow t ht hfree) (not_lt.mp fun hlt => hpfree (hall p hp hlt))

/-- All places below a free one are taken exactly if the guests fill them and the homes above. -/
theorem Seated.below_iff (h : Seated places homes taken) (ht : t ∈ places) (hfree : t ∉ taken) :
    (∀ p ∈ places, p < t → p ∈ taken) ↔
      homes.length = (places.filter (· < t)).card + (homes.toFinset.filter (t < ·)).card := by
  have habove : taken.filter (t < ·) = homes.toFinset.filter (t < ·) := by
    ext p
    rw [Finset.mem_filter, Finset.mem_filter, List.mem_toFinset]
    exact ⟨fun hp => ⟨h.home_of_lt ht hfree hp.1 hp.2, hp.2⟩, fun hp => ⟨h.home_taken p hp.1, hp.2⟩⟩
  have hbelow : taken.filter (· < t) ⊆ places.filter (· < t) := Finset.filter_subset_filter _ h.subset
  have hsplit : taken.card = (taken.filter (· < t)).card + (taken.filter (t < ·)).card := by
    rw [← Finset.card_filter_add_card_filter_not (· < t)]
    congr 2
    refine Finset.filter_congr fun p hp => ?_
    have hne : p ≠ t := ne_of_mem_of_not_mem hp hfree
    rw [not_lt, le_iff_lt_or_eq]
    exact ⟨fun hle => hle.resolve_right (Ne.symm hne), .inl⟩
  rw [← h.card, hsplit, habove, Nat.add_right_cancel_iff]
  constructor
  · intro hall
    refine congrArg Finset.card (hbelow.antisymm fun p hp => ?_)
    obtain ⟨hp, hlt⟩ := Finset.mem_filter.mp hp
    exact Finset.mem_filter.mpr ⟨hall p hp hlt, hlt⟩
  · intro hcard p hp hlt
    have heq := Finset.eq_of_subset_of_card_le hbelow hcard.ge
    exact (Finset.mem_filter.mp (heq ▸ Finset.mem_filter.mpr ⟨hp, hlt⟩)).1

end Places
