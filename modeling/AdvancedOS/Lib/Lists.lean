import Mathlib.Data.List.Forall2
import Mathlib.Data.List.Perm.Basic

/-!
# Loops over lists

* `mapM_eq_some_iff`: a loop whose body may fail, element by element.
* `length_mapM`, `eq_map_getD_of_mapM`: it makes one element out of each.
* `exists_mem_of_mapM`, `exists_of_mem_mapM`: what an element is made into, and what it is made from.
* `foldlM_map`: a loop that puts each element into an accumulator makes the elements first.
* `exists_map_eq`: a list of images is the image of a list.
* `flatMap_change`: what one part of a list has more, the list has more.
* `flatMap_filter_of_nil`: parts that are empty may be left out.
* `filter_flatMap_of_nodup`: if the parts have different keys, one of them is found by its key.
* `eraseP_cases`: what is erased from a list in order is the least element that the test finds.
-/

namespace Lists

section

variable {β γ : Type} {g : β → Option γ} {xs : List β} {ys : List γ}

/-- A loop over a list whose body may fail. -/
theorem mapM_eq_some_iff : xs.mapM g = some ys ↔ List.Forall₂ (fun x y => g x = some y) xs ys := by
  induction xs generalizing ys with
  | nil => cases ys <;> simp
  | cons x xs ih =>
    rw [List.mapM_cons]
    constructor
    · intro h
      obtain ⟨y, hy, h⟩ := Option.bind_eq_some_iff.mp h
      obtain ⟨ys', hys, h⟩ := Option.bind_eq_some_iff.mp h
      obtain rfl := Option.some.inj h
      exact .cons hy (ih.mp hys)
    · rintro (_ | ⟨hy, hys⟩)
      rw [hy, ih.mpr hys]
      rfl

theorem exists_mapM_eq (h : ∀ x ∈ xs, (g x).isSome) : ∃ ys, xs.mapM g = some ys := by
  induction xs with
  | nil => exact ⟨[], rfl⟩
  | cons x xs ih =>
    rw [List.forall_mem_cons] at h
    obtain ⟨y, hy⟩ := Option.isSome_iff_exists.mp h.1
    obtain ⟨ys, hys⟩ := ih h.2
    exact ⟨y :: ys, by simp [List.mapM_cons, hy, hys]⟩

theorem length_mapM (h : xs.mapM g = some ys) : ys.length = xs.length :=
  (mapM_eq_some_iff.mp h).length_eq.symm

/-- The elements that it makes, told without the failures. -/
theorem eq_map_getD_of_mapM (h : xs.mapM g = some ys) (y : γ) : ys = xs.map fun x => (g x).getD y := by
  have hall := mapM_eq_some_iff.mp h
  clear h
  induction hall with
  | nil => rfl
  | cons hx _ ih => rw [List.map_cons, hx, ← ih, Option.getD_some]

theorem exists_mem_of_mapM (h : xs.mapM g = some ys) {x : β} (hx : x ∈ xs) : ∃ y ∈ ys, g x = some y := by
  have hall := mapM_eq_some_iff.mp h
  clear h
  induction hall with
  | nil => cases hx
  | @cons x' y xs ys hxy _ ih =>
    rcases List.mem_cons.mp hx with rfl | hx
    · exact ⟨y, List.mem_cons_self, hxy⟩
    · obtain ⟨z, hz, hxz⟩ := ih hx
      exact ⟨z, List.mem_cons_of_mem y hz, hxz⟩

theorem exists_of_mem_mapM (h : xs.mapM g = some ys) {y : γ} (hy : y ∈ ys) : ∃ x ∈ xs, g x = some y := by
  have hall := mapM_eq_some_iff.mp h
  induction hall with
  | nil => cases hy
  | @cons x y' xs ys hx hxs ih =>
    rcases List.mem_cons.mp hy with rfl | hy
    · exact ⟨x, List.mem_cons_self, hx⟩
    · obtain ⟨z, hz, hzy⟩ := ih (mapM_eq_some_iff.mpr hxs) hy
      exact ⟨z, List.mem_cons_of_mem x hz, hzy⟩

end

theorem foldlM_map {β γ δ : Type} (g : β → Option γ) (f : δ → γ → δ) (xs : List β) (d : δ) :
    xs.foldlM (fun d x => (g x).map (f d)) d = (xs.mapM g).map (List.foldl f d) := by
  induction xs generalizing d with
  | nil => rfl
  | cons x xs ih =>
    rw [List.foldlM_cons, List.mapM_cons]
    cases g x with
    | none => rfl
    | some y =>
      show xs.foldlM (fun d x => (g x).map (f d)) (f d y) = _
      rw [ih]
      cases xs.mapM g <;> rfl

theorem exists_map_eq {β γ : Type} {f : β → γ} {P : β → Prop} {ys : List γ} (h : ∀ y ∈ ys, ∃ x, P x ∧ f x = y) :
    ∃ xs : List β, xs.map f = ys ∧ ∀ x ∈ xs, P x := by
  induction ys with
  | nil => exact ⟨[], rfl, fun x hx => absurd hx List.not_mem_nil⟩
  | cons y ys ih =>
    obtain ⟨x, hx, rfl⟩ := h y List.mem_cons_self
    obtain ⟨xs, rfl, hxs⟩ := ih fun z hz => h z (List.mem_cons_of_mem _ hz)
    exact ⟨x :: xs, rfl, List.forall_mem_cons.mpr ⟨hx, hxs⟩⟩

theorem flatMap_change {β γ : Type} {ws : List β} (hnodup : ws.Nodup) {w : β} (hw : w ∈ ws)
    {f g : β → List γ} {c : List γ} (hoff : ∀ x ≠ w, g x = f x) (hon : g w = f w ++ c) :
    (ws.flatMap g).Perm (c ++ ws.flatMap f) := by
  induction ws with
  | nil => cases hw
  | cons x ws ih =>
    rw [List.nodup_cons] at hnodup
    rw [List.flatMap_cons, List.flatMap_cons]
    by_cases hx : x = w
    · subst hx
      have hrest : ws.flatMap g = ws.flatMap f :=
        List.flatMap_congr fun y hy => hoff y fun hyx => hnodup.1 (hyx ▸ hy)
      rw [hon, hrest, ← List.append_assoc]
      exact List.perm_append_comm.append_right _
    · have hrest := ih hnodup.2 ((List.mem_cons.mp hw).resolve_left (Ne.symm hx))
      rw [hoff x hx]
      exact (hrest.append_left _).trans (List.perm_append_comm_assoc _ _ _)

theorem flatMap_filter_of_nil {β γ : Type} {ws : List β} {q : β → Bool} {f : β → List γ}
    (h : ∀ w ∈ ws, q w = false → f w = []) : (ws.filter q).flatMap f = ws.flatMap f := by
  induction ws with
  | nil => rfl
  | cons x ws ih =>
    have hrest := ih fun w hw => h w (List.mem_cons_of_mem x hw)
    cases hq : q x with
    | true => rw [List.filter_cons_of_pos hq, List.flatMap_cons, List.flatMap_cons, hrest]
    | false =>
      rw [List.filter_cons_of_neg (by simp [hq]), List.flatMap_cons, h x List.mem_cons_self hq, hrest]
      rfl

theorem filter_flatMap_of_nodup {β γ κ : Type} [DecidableEq κ] {xs : List β} {g : β → κ} {f : β → List γ}
    {q : γ → κ} (hnodup : (xs.map g).Nodup) (hq : ∀ x ∈ xs, ∀ c ∈ f x, q c = g x) {x : β} (hx : x ∈ xs) :
    (xs.flatMap f).filter (fun c => q c = g x) = f x := by
  induction xs with
  | nil => cases hx
  | cons y xs ih =>
    rw [List.map_cons, List.nodup_cons] at hnodup
    rw [List.forall_mem_cons] at hq
    rw [List.flatMap_cons, List.filter_append]
    rcases List.mem_cons.mp hx with rfl | hx
    · have hrest : (xs.flatMap f).filter (fun c => q c = g x) = [] := by
        refine List.filter_eq_nil_iff.mpr fun c hc heq => hnodup.1 ?_
        obtain ⟨z, hz, hc⟩ := List.mem_flatMap.mp hc
        rw [← of_decide_eq_true heq, hq.2 z hz c hc]
        exact List.mem_map_of_mem hz
      rw [hrest, List.append_nil]
      exact List.filter_eq_self.mpr fun c hc => decide_eq_true (hq.1 c hc)
    · have hfirst : (f y).filter (fun c => q c = g x) = [] := by
        refine List.filter_eq_nil_iff.mpr fun c hc heq => hnodup.1 ?_
        rw [← hq.1 c hc, of_decide_eq_true heq]
        exact List.mem_map_of_mem hx
      rw [hfirst, List.nil_append]
      exact ih hnodup.2 hq.2 hx

theorem eraseP_cases {β : Type} {r : β → β → Prop} (hirrefl : ∀ x, ¬ r x x) {l : List β} (h : l.Pairwise r)
    (p : β → Bool) :
    ((∀ x ∈ l, ¬ p x) ∧ l.eraseP p = l) ∨
      ∃ a ∈ l, p a ∧ (∀ x ∈ l, p x → x = a ∨ r a x) ∧ ∀ x, x ∈ l.eraseP p ↔ x ∈ l ∧ x ≠ a := by
  rcases List.exists_or_eq_self_of_eraseP p l with heq | ⟨a, l₁, l₂, hnone, ha, rfl, heq⟩
  · by_cases hall : ∀ x ∈ l, ¬ p x
    · exact .inl ⟨hall, heq⟩
    · obtain ⟨x, hx, hp⟩ := by simpa using hall
      have hlength := List.length_eraseP_of_mem hx hp
      have hpos := List.length_pos_of_mem hx
      rw [heq] at hlength
      omega
  · refine .inr ⟨a, by simp, ha, fun x hx hp => ?_, fun x => ?_⟩
    · rcases List.mem_append.mp hx with hx | hx
      · exact absurd hp (hnone x hx)
      · rcases List.mem_cons.mp hx with rfl | hx
        · exact .inl rfl
        · exact .inr ((List.pairwise_cons.mp (List.pairwise_append.mp h).2.1).1 x hx)
    · -- nothing in the list occurs twice
      have hnot : a ∉ l₁ ++ l₂ := by
        intro hmem
        rcases List.mem_append.mp hmem with hmem | hmem
        · exact hnone a hmem ha
        · exact hirrefl a ((List.pairwise_cons.mp (List.pairwise_append.mp h).2.1).1 a hmem)
      rw [heq]
      constructor
      · intro hx
        refine ⟨?_, fun hxa => hnot (hxa ▸ hx)⟩
        simp only [List.mem_append, List.mem_cons] at hx ⊢
        tauto
      · rintro ⟨hx, hne⟩
        simp only [List.mem_append, List.mem_cons] at hx ⊢
        tauto

/-- Around one place of a list. -/
theorem exists_around {β : Type} {l : List β} {k : Nat} {x : β} (h : l[k]? = some x) :
    ∃ before after, l = before ++ x :: after ∧ l.eraseIdx k = before ++ after ∧
      ∀ y, l.set k y = before ++ y :: after := by
  obtain ⟨hk, rfl⟩ := List.getElem?_eq_some_iff.mp h
  refine ⟨l.take k, l.drop (k + 1), ?_, List.eraseIdx_eq_take_drop_succ l k, fun y => ?_⟩
  · rw [List.getElem_cons_drop, List.take_append_drop]
  · exact List.set_eq_take_cons_drop y hk

end Lists
