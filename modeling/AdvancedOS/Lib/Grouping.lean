import Mathlib.Data.List.Induction
import Mathlib.Data.List.Nodup
import Mathlib.Data.List.Perm.Basic

/-!
# Grouping values by key

An ordered map from keys to lists of values, as it is filled by a loop over pairs: a key that is not in
the map gets an empty list at its place in the order, then the value is put at the end of the list
of the key.

* `grouped_group`: after the loop every key of a pair has one entry, with all its values.
* `Grouped.filter_key`: the entries with a given key.
* `values_perm`: the values of a key do not depend on the order of the pairs, up to their order.
* `sorted_group`: the keys are in order.
* `perm_of_values`: pairs with the same values for every key have the same keys.
* `flatMap_group_perm`: what is computed from each group does not depend on the order of the pairs, if it does
  not depend on the order of the values.
-/

namespace Grouping

variable {κ ν : Type}

/-- The keys of a map in their order, each with its values. -/
abbrev Groups (κ ν : Type) := List (κ × List ν)

/-- A new key, with no values yet. -/
def insertKey [LT κ] [DecidableLT κ] (k : κ) : Groups κ ν → Groups κ ν
  | [] => [(k, [])]
  | x :: m => if k < x.1 then (k, []) :: x :: m else x :: insertKey k m

theorem insertKey_perm [LT κ] [DecidableLT κ] (k : κ) (m : Groups κ ν) : (insertKey k m).Perm ((k, []) :: m) := by
  induction m with
  | nil => exact List.Perm.refl _
  | cons x m ih =>
    rw [insertKey]
    split
    · exact List.Perm.refl _
    · exact (ih.cons x).trans (List.Perm.swap _ _ _)

section

variable [DecidableEq κ]

/-- The values that come with the key. -/
def values (k : κ) (pairs : List (κ × ν)) : List ν := (pairs.filter fun x => x.1 = k).map Prod.snd

/-- A value for a key of the map. -/
def push (k : κ) (v : ν) (m : Groups κ ν) : Groups κ ν :=
  m.map fun x => if x.1 = k then (x.1, x.2 ++ [v]) else x

def add [LT κ] [DecidableLT κ] (k : κ) (v : ν) (m : Groups κ ν) : Groups κ ν :=
  push k v (if k ∈ m.map Prod.fst then m else insertKey k m)

def group [LT κ] [DecidableLT κ] (pairs : List (κ × ν)) : Groups κ ν :=
  pairs.foldl (fun m x => add x.1 x.2 m) []

/-- The map holds the pairs. -/
structure Grouped (m : Groups κ ν) (pairs : List (κ × ν)) : Prop where
  nodup : (m.map Prod.fst).Nodup
  entry : ∀ k vs, (k, vs) ∈ m ↔ k ∈ pairs.map Prod.fst ∧ vs = values k pairs

variable {k : κ} {v : ν} {m : Groups κ ν} {pairs : List (κ × ν)}

theorem values_concat_self : values k (pairs ++ [(k, v)]) = values k pairs ++ [v] := by simp [values]

theorem values_concat_of_ne {k' : κ} (h : k' ≠ k) : values k' (pairs ++ [(k, v)]) = values k' pairs := by
  simp [values, Ne.symm h]

theorem values_eq_nil (h : k ∉ pairs.map Prod.fst) : values k pairs = [] := by
  rw [values, List.map_eq_nil_iff, List.filter_eq_nil_iff]
  intro x hx hkey
  exact h (List.mem_map.mpr ⟨x, hx, of_decide_eq_true hkey⟩)

theorem values_perm {pairs' : List (κ × ν)} (h : pairs.Perm pairs') : (values k pairs).Perm (values k pairs') :=
  (h.filter _).map _

theorem map_fst_push : (push k v m).map Prod.fst = m.map Prod.fst := by
  rw [push, List.map_map]
  refine List.map_congr_left fun x _ => ?_
  rw [Function.comp_apply]
  split <;> rfl

/-- What is in the map after a push, told from the keys it had. -/
theorem mem_push {k' : κ} {vs : List ν} :
    (k', vs) ∈ push k v m ↔ if k' = k then ∃ ws, (k, ws) ∈ m ∧ vs = ws ++ [v] else (k', vs) ∈ m := by
  rw [push, List.mem_map]
  split
  · next h =>
    subst h
    constructor
    · rintro ⟨⟨k'', ws⟩, hx, heq⟩
      split at heq
      · next h =>
        obtain ⟨rfl, rfl⟩ := Prod.mk.inj heq
        exact ⟨ws, hx, rfl⟩
      · next h => exact absurd (congrArg Prod.fst heq) h
    · rintro ⟨ws, hmem, rfl⟩
      exact ⟨(k', ws), hmem, if_pos rfl⟩
  · next h =>
    constructor
    · rintro ⟨x, hx, heq⟩
      split at heq
      · next hk => exact absurd ((congrArg Prod.fst heq).symm.trans hk) h
      · exact heq ▸ hx
    · exact fun hmem => ⟨(k', vs), hmem, if_neg h⟩

section

variable [LT κ] [DecidableLT κ]

/-- One turn of the loop. -/
theorem Grouped.add (h : Grouped m pairs) (k : κ) (v : ν) : Grouped (add k v m) (pairs ++ [(k, v)]) := by
  have hkeys : k ∈ m.map Prod.fst ↔ k ∈ pairs.map Prod.fst := by
    constructor
    · intro hmem
      obtain ⟨⟨k, vs⟩, hx, rfl⟩ := List.mem_map.mp hmem
      exact ((h.entry _ _).mp hx).1
    · intro hmem
      exact List.mem_map.mpr ⟨(k, values k pairs), (h.entry _ _).mpr ⟨hmem, rfl⟩, rfl⟩
  constructor
  · rw [Grouping.add, map_fst_push]
    split
    · exact h.nodup
    · next hnew => exact ((insertKey_perm k m).map _).nodup_iff.mpr (List.nodup_cons.mpr ⟨hnew, h.nodup⟩)
  · intro k' vs
    rw [Grouping.add, mem_push]
    split
    · next hk =>
      subst hk
      have hvalues : ∀ ws, (k', ws) ∈ (if k' ∈ m.map Prod.fst then m else insertKey k' m) ↔
          ws = values k' pairs := by
        intro ws
        split
        · next hold => rw [h.entry, and_iff_right (hkeys.mp hold)]
        · next hnew =>
          have hno : k' ∉ pairs.map Prod.fst := mt hkeys.mpr hnew
          rw [(insertKey_perm k' m).mem_iff, List.mem_cons, values_eq_nil hno, h.entry, Prod.mk.injEq]
          simp [hno]
      simp only [hvalues, exists_eq_left, values_concat_self, List.map_append, List.map_cons, List.mem_append,
        List.mem_cons, true_or, or_true, true_and]
    · next hk =>
      have hsame : (k', vs) ∈ (if k ∈ m.map Prod.fst then m else insertKey k m) ↔ (k', vs) ∈ m := by
        split
        · exact Iff.rfl
        · rw [(insertKey_perm k m).mem_iff, List.mem_cons, Prod.mk.injEq]
          simp [hk]
      rw [hsame, h.entry, values_concat_of_ne hk]
      simp [hk]

theorem grouped_group (pairs : List (κ × ν)) : Grouped (group pairs) pairs := by
  induction pairs using List.reverseRecOn with
  | nil => exact ⟨List.nodup_nil, fun k vs => by simp [group]⟩
  | append_singleton pairs x ih =>
    rw [group, List.foldl_append]
    exact ih.add x.1 x.2

end

/-! ## The order of the keys -/

/-- Every key comes before those that stand after it. -/
def Sorted [LT κ] (m : Groups κ ν) : Prop := (m.map Prod.fst).Pairwise fun a b => a < b

section

variable [LT κ] [DecidableLT κ] [Trans (fun a b : κ => a < b) (fun a b : κ => a < b) (fun a b : κ => a < b)]
  [Std.Trichotomous (fun a b : κ => a < b)]

omit [DecidableEq κ] in
theorem Sorted.insertKey (h : Sorted m) (hnew : k ∉ m.map Prod.fst) : Sorted (insertKey k m) := by
  induction m with
  | nil => exact List.pairwise_singleton _ _
  | cons x m ih =>
    obtain ⟨hx, hm⟩ := List.pairwise_cons.mp h
    rw [List.map_cons, List.mem_cons, not_or] at hnew
    rw [Grouping.insertKey]
    split
    · next hlt =>
      refine List.pairwise_cons.mpr ⟨fun a ha => ?_, h⟩
      rcases List.mem_cons.mp ha with rfl | ha
      · exact hlt
      · exact Trans.trans hlt (hx a ha)
    · next hle =>
      have hxk : x.1 < k := by
        by_contra hlt
        exact hnew.1 (Std.Trichotomous.trichotomous (r := fun a b : κ => a < b) k x.1 hle hlt)
      refine List.pairwise_cons.mpr ⟨fun a ha => ?_, ih hm hnew.2⟩
      rcases List.mem_cons.mp (((insertKey_perm k m).map _).mem_iff.mp ha) with rfl | ha
      · exact hxk
      · exact hx a ha

theorem Sorted.add (h : Sorted m) (k : κ) (v : ν) : Sorted (add k v m) := by
  unfold Sorted
  rw [Grouping.add, map_fst_push]
  split
  · exact h
  · next hnew => exact h.insertKey hnew

theorem sorted_group (pairs : List (κ × ν)) : Sorted (group pairs) := by
  induction pairs using List.reverseRecOn with
  | nil => exact List.Pairwise.nil
  | append_singleton pairs x ih =>
    rw [group, List.foldl_append]
    exact ih.add x.1 x.2

end

/-! ## What the groups tell -/

theorem length_values : (values k pairs).length = (pairs.map Prod.fst).count k := by
  rw [values, List.length_map, List.count, List.countP_map, List.countP_eq_length_filter]
  rfl

theorem perm_of_values {pairs' : List (κ × ν)} (h : ∀ k, values k pairs = values k pairs') :
    (pairs.map Prod.fst).Perm (pairs'.map Prod.fst) := by
  refine List.perm_iff_count.mpr fun k => ?_
  rw [← length_values, ← length_values, h]

/-- Pairs that the same map holds have the same values for every key. -/
theorem Grouped.values_eq {pairs' : List (κ × ν)} (h : Grouped m pairs) (h' : Grouped m pairs') (k : κ) :
    values k pairs = values k pairs' := by
  by_cases hk : k ∈ pairs.map Prod.fst
  · exact ((h'.entry _ _).mp ((h.entry k _).mpr ⟨hk, rfl⟩)).2
  · have hk' : k ∉ pairs'.map Prod.fst :=
      fun hmem => hk ((h.entry _ _).mp ((h'.entry k _).mpr ⟨hmem, rfl⟩)).1
    rw [values_eq_nil hk, values_eq_nil hk']

/-- A key of the pairs has one entry, and another key none. -/
theorem Grouped.filter_key (h : Grouped m pairs) (k : κ) :
    m.filter (fun x => x.1 = k) = if k ∈ pairs.map Prod.fst then [(k, values k pairs)] else [] := by
  have hmem : ∀ x, x ∈ m.filter (fun x => x.1 = k) ↔ k ∈ pairs.map Prod.fst ∧ x = (k, values k pairs) := by
    rintro ⟨k', vs⟩
    rw [List.mem_filter, h.entry, decide_eq_true_iff, Prod.mk.injEq]
    constructor
    · rintro ⟨⟨hk, hvs⟩, rfl⟩
      exact ⟨hk, rfl, hvs⟩
    · rintro ⟨hk, rfl, hvs⟩
      exact ⟨⟨hk, hvs⟩, rfl⟩
  have hnodup : (m.filter fun x => x.1 = k).Nodup := (List.Nodup.of_map _ h.nodup).filter _
  split
  · next hk =>
    refine List.perm_singleton.mp ((List.perm_ext_iff_of_nodup hnodup (List.nodup_singleton _)).mpr fun x => ?_)
    rw [hmem, and_iff_right hk, List.mem_singleton]
  · next hk =>
    refine List.eq_nil_iff_forall_not_mem.mpr fun x hx => ?_
    exact hk ((hmem x).mp hx).1

theorem Grouped.flatMap_eq {β : Type} (h : Grouped m pairs) (f : κ → List ν → List β) :
    m.flatMap (fun x => f x.1 x.2) = (m.map Prod.fst).flatMap fun k => f k (values k pairs) := by
  rw [List.flatMap_map]
  refine List.flatMap_congr fun x hx => ?_
  rw [← ((h.entry x.1 x.2).mp hx).2]

theorem Grouped.mem_keys (h : Grouped m pairs) (k : κ) : k ∈ m.map Prod.fst ↔ k ∈ pairs.map Prod.fst := by
  constructor
  · intro hk
    obtain ⟨x, hx, rfl⟩ := List.mem_map.mp hk
    exact ((h.entry x.1 x.2).mp hx).1
  · intro hk
    exact List.mem_map.mpr ⟨(k, values k pairs), (h.entry _ _).mpr ⟨hk, rfl⟩, rfl⟩

/-! ## The order of the pairs -/

section

variable [LT κ] [DecidableLT κ] [Trans (fun a b : κ => a < b) (fun a b : κ => a < b) (fun a b : κ => a < b)]
  [Std.Trichotomous (fun a b : κ => a < b)] [Std.Asymm (fun a b : κ => a < b)]

omit [DecidableLT κ] [DecidableEq κ] [Trans (fun a b : κ => a < b) (fun a b : κ => a < b) (fun a b : κ => a < b)]
  [Std.Trichotomous (fun a b : κ => a < b)] in
/-- There is one way to put some keys in order. -/
theorem eq_of_increasing {ks ks' : List κ} (h : ks.Pairwise fun a b => a < b) (h' : ks'.Pairwise fun a b => a < b)
    (hmem : ∀ k, k ∈ ks ↔ k ∈ ks') : ks = ks' := by
  have hne : ∀ {a b : κ}, a < b → a ≠ b := by
    rintro a b hlt rfl
    exact Std.Asymm.asymm (r := fun a b : κ => a < b) _ _ hlt hlt
  have hperm := (List.perm_ext_iff_of_nodup (h.imp hne) (h'.imp hne)).mpr hmem
  exact hperm.eq_of_pairwise (fun a b _ _ hab hba => absurd hba (Std.Asymm.asymm (r := fun a b : κ => a < b) _ _ hab)) h h'

theorem keys_group_perm {pairs' : List (κ × ν)} (h : pairs.Perm pairs') :
    (group pairs).map Prod.fst = (group pairs').map Prod.fst := by
  refine eq_of_increasing (sorted_group pairs) (sorted_group pairs') fun k => ?_
  rw [(grouped_group pairs).mem_keys, (grouped_group pairs').mem_keys]
  exact (h.map _).mem_iff

theorem flatMap_group_perm {β : Type} {f : κ → List ν → List β} {pairs' : List (κ × ν)}
    (hf : ∀ k vs vs', vs.Perm vs' → f k vs = f k vs') (h : pairs.Perm pairs') :
    (group pairs).flatMap (fun x => f x.1 x.2) = (group pairs').flatMap fun x => f x.1 x.2 := by
  rw [(grouped_group pairs).flatMap_eq, (grouped_group pairs').flatMap_eq, keys_group_perm h]
  exact List.flatMap_congr fun k _ => hf _ _ _ (values_perm h)

end

end

end Grouping
