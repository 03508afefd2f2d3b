import Mathlib.Algebra.GroupWithZero.Nat
import Mathlib.Data.List.Basic
import Mathlib.Data.List.Forall2
import Mathlib.Data.List.TakeWhile

/-!
# Lines

`lines sep s` splits `s` at the separator the way `std::getline` does in a loop: every separator ends
a line, and what follows the last separator is a line if it is not empty.

* `lines_append`: the lines of a text that ends with a separator, and of what follows.
* `firstLine_append`: the first line and what follows it.
* `lines_unlines`: lines that are written one after the other are read back.
* `lines_intercalate`: so are lines with separators only between them, if the last one is not empty.
* `width_lines`: how long a text is, told from its lines.
* `length_lines_append_le`: a prefix has no more lines.
* `notMem_of_length_lines`: as many lines are read as were written only if none has a separator.
* `exists_record_drop`: from any position on, the first line is part of a record, which is a line with its
  separator.
* `words_dropWhile`, `words_of_word`: the words of a text, taken off it one by one.
* `eq_of_flatten_eq`: lists of lists that agree in total and of which one is nowhere longer agree.
-/

namespace Lines

variable {α : Type} {sep c : α} {l s t : List α}

/-! ## Whole texts -/

/-- The text is empty or ends with a separator. -/
def Whole (sep : α) (s : List α) : Prop := ∀ c ∈ s.getLast?, c = sep

@[simp] theorem whole_nil : Whole sep ([] : List α) := fun _ h => by cases h

theorem whole_cons (h : s ≠ []) : Whole sep (c :: s) ↔ Whole sep s := by
  obtain ⟨d, s, rfl⟩ := List.exists_cons_of_ne_nil h
  simp [Whole, List.getLast?_cons_cons]

theorem whole_singleton : Whole sep [c] ↔ c = sep := by simp [Whole]

@[simp] theorem whole_append_sep : Whole sep (s ++ [sep]) := by simp [Whole]

section

variable [DecidableEq α]

instance (sep : α) (s : List α) : Decidable (Whole sep s) :=
  inferInstanceAs (Decidable (∀ c ∈ s.getLast?, c = sep))

/-! ## Splitting -/

def lines (sep : α) : List α → List (List α)
  | [] => []
  | c :: s =>
    if c = sep then [] :: lines sep s
    else
      match lines sep s with
      | [] => [[c]]
      | l :: ls => (c :: l) :: ls

/-- The text with these lines, each with its separator. -/
def unlines (sep : α) (ls : List (List α)) : List α := ls.flatMap fun l => l ++ [sep]

@[simp] theorem lines_nil : lines sep [] = [] := rfl

@[simp] theorem lines_sep_cons : lines sep (sep :: s) = [] :: lines sep s := if_pos rfl

theorem lines_cons_of_nil (h : c ≠ sep) (hs : lines sep s = []) : lines sep (c :: s) = [[c]] := by
  rw [lines, if_neg h, hs]

theorem lines_cons_of_cons (h : c ≠ sep) {ls : List (List α)} (hs : lines sep s = l :: ls) :
    lines sep (c :: s) = (c :: l) :: ls := by
  rw [lines, if_neg h, hs]

@[simp] theorem lines_eq_nil : lines sep s = [] ↔ s = [] := by
  cases s with
  | nil => simp
  | cons c s =>
    by_cases h : c = sep
    · subst h; simp
    · cases hs : lines sep s with
      | nil => simp [lines_cons_of_nil h hs]
      | cons l ls => simp [lines_cons_of_cons h hs]

theorem length_lines_cons (h : c ≠ sep) : (lines sep (c :: s)).length = max 1 (lines sep s).length := by
  cases hs : lines sep s with
  | nil => rw [lines_cons_of_nil h hs]; rfl
  | cons l ls =>
    rw [lines_cons_of_cons h hs, List.length_cons, List.length_cons]
    omega

/-! ## Splitting and joining -/

/-- A text that ends with a separator can be split there. -/
theorem lines_append (h : Whole sep s) : lines sep (s ++ t) = lines sep s ++ lines sep t := by
  induction s with
  | nil => rfl
  | cons c s ih =>
    by_cases hs : s = []
    · subst hs
      obtain rfl := whole_singleton.mp h
      simp
    · have hrest := ih ((whole_cons hs).mp h)
      by_cases hc : c = sep
      · subst hc
        simp [hrest]
      · obtain ⟨l, ls, hlines⟩ := List.exists_cons_of_ne_nil (mt lines_eq_nil.mp hs)
        rw [hlines, List.cons_append] at hrest
        rw [List.cons_append, lines_cons_of_cons hc hrest, lines_cons_of_cons hc hlines, List.cons_append]

theorem lines_append_sep (h : sep ∉ l) : lines sep (l ++ sep :: t) = l :: lines sep t := by
  induction l with
  | nil => exact lines_sep_cons
  | cons c l ih =>
    rw [List.mem_cons, not_or] at h
    exact lines_cons_of_cons (Ne.symm h.1) (ih h.2)

/-- Lines without separators that are written one after the other are read back. -/
theorem lines_unlines {ls : List (List α)} (h : ∀ l ∈ ls, sep ∉ l) : lines sep (unlines sep ls) = ls := by
  induction ls with
  | nil => rfl
  | cons l ls ih =>
    rw [unlines, List.flatMap_cons, List.append_assoc, List.singleton_append,
      lines_append_sep (h l List.mem_cons_self)]
    exact congrArg (l :: ·) (ih fun l' hl' => h l' (List.mem_cons_of_mem l hl'))

omit [DecidableEq α] in
theorem whole_unlines {ls : List (List α)} : Whole sep (unlines sep ls) := by
  rcases List.eq_nil_or_concat ls with rfl | ⟨ls, l, rfl⟩
  · exact whole_nil
  · rw [unlines, List.concat_eq_append, List.flatMap_append, List.flatMap_singleton, ← List.append_assoc]
    exact whole_append_sep

theorem lines_of_notMem (h : sep ∉ l) : lines sep l = if l = [] then [] else [l] := by
  induction l with
  | nil => rfl
  | cons c l ih =>
    rw [List.mem_cons, not_or] at h
    rw [if_neg (List.cons_ne_nil c l)]
    by_cases hl : l = []
    · subst hl
      exact lines_cons_of_nil (Ne.symm h.1) lines_nil
    · exact lines_cons_of_cons (Ne.symm h.1) ((ih h.2).trans (if_neg hl))

omit [DecidableEq α] in
theorem intercalate_concat (ls : List (List α)) (l : List α) :
    [sep].intercalate (ls ++ [l]) = unlines sep ls ++ l := by
  induction ls with
  | nil => exact List.intercalate_singleton
  | cons l' ls ih =>
    rw [List.cons_append, List.intercalate_cons_of_ne_nil (by simp), ih, unlines, unlines,
      List.flatMap_cons, List.append_assoc, List.append_assoc, List.append_assoc]

omit [DecidableEq α] in
theorem mem_unlines {ls : List (List α)} (h : c ∈ unlines sep ls) : c = sep ∨ ∃ l ∈ ls, c ∈ l := by
  obtain ⟨l, hl, hc⟩ := List.mem_flatMap.mp h
  rcases List.mem_append.mp hc with hc | hc
  · exact .inr ⟨l, hl, hc⟩
  · exact .inl (List.mem_singleton.mp hc)

omit [DecidableEq α] in
theorem mem_intercalate {ls : List (List α)} (h : c ∈ [sep].intercalate ls) :
    c = sep ∨ ∃ l ∈ ls, c ∈ l := by
  rcases List.eq_nil_or_concat ls with rfl | ⟨ls, l, rfl⟩
  · cases h
  · rw [List.concat_eq_append, intercalate_concat] at h
    rcases List.mem_append.mp h with h | h
    · rcases mem_unlines h with hsep | ⟨l', hl', hc⟩
      · exact .inl hsep
      · exact .inr ⟨l', by simp [hl'], hc⟩
    · exact .inr ⟨l, by simp, h⟩

/-- Lines with separators between them are read back; what is lost is an empty last line. -/
theorem lines_intercalate_concat {ls : List (List α)} (h : ∀ l ∈ ls, sep ∉ l) (hl : sep ∉ l) :
    lines sep ([sep].intercalate (ls ++ [l])) = ls ++ if l = [] then [] else [l] := by
  rw [intercalate_concat, lines_append whole_unlines, lines_unlines h, lines_of_notMem hl]

theorem lines_intercalate {ls : List (List α)} (h : ∀ l ∈ ls, sep ∉ l) (hlast : ∀ l ∈ ls.getLast?, l ≠ []) :
    lines sep ([sep].intercalate ls) = ls := by
  rcases List.eq_nil_or_concat ls with rfl | ⟨ls, l, rfl⟩
  · rfl
  · rw [List.concat_eq_append] at h hlast ⊢
    have hne : l ≠ [] := hlast l (by simp)
    rw [lines_intercalate_concat (fun l' hl' => h l' (by simp [hl'])) (h l (by simp)), if_neg hne]

/-- The text up to the first separator. -/
def firstLine (sep : α) (s : List α) : List α := s.takeWhile (· ≠ sep)

theorem notMem_firstLine : sep ∉ firstLine sep s := fun h => by
  simpa using List.mem_takeWhile_imp h

theorem firstLine_append_sep (h : sep ∉ l) : firstLine sep (l ++ sep :: t) = l := by
  rw [firstLine, List.takeWhile_append_of_pos fun c hc => by simpa using ne_of_mem_of_not_mem hc h]
  simp

/-- After the first line there is nothing, or a separator. -/
theorem firstLine_append (sep : α) (s : List α) :
    s = firstLine sep s ∧ sep ∉ s ∨ ∃ t, s = firstLine sep s ++ sep :: t := by
  induction s with
  | nil => exact .inl ⟨rfl, by simp⟩
  | cons c s ih =>
    by_cases hc : c = sep
    · subst hc
      exact .inr ⟨s, by simp [firstLine]⟩
    · have hcons : firstLine sep (c :: s) = c :: firstLine sep s := by simp [firstLine, hc]
      rw [hcons]
      rcases ih with ⟨heq, hno⟩ | ⟨t, heq⟩
      · exact .inl ⟨congrArg (c :: ·) heq, by simp [Ne.symm hc, hno]⟩
      · exact .inr ⟨t, congrArg (c :: ·) heq⟩

/-! ## Counting -/

/-- The length of the text with these lines. -/
def width (ls : List (List α)) : Nat := (ls.map fun l => l.length + 1).sum

/-- The lines of a text tell its length: one more if the last line has no separator. -/
theorem width_lines : width (lines sep s) = s.length + if Whole sep s then 0 else 1 := by
  induction s with
  | nil => simp [width]
  | cons c s ih =>
    by_cases hs : s = []
    · subst hs
      by_cases hc : c = sep
      · subst hc; simp [width, whole_singleton]
      · simp [lines_cons_of_nil hc lines_nil, width, whole_singleton, hc]
    · simp only [whole_cons hs, List.length_cons]
      by_cases hc : c = sep
      · subst hc
        simp only [width, lines_sep_cons, List.map_cons, List.length_nil, List.sum_cons] at ih ⊢
        omega
      · obtain ⟨l, ls, hlines⟩ := List.exists_cons_of_ne_nil (mt lines_eq_nil.mp hs)
        rw [lines_cons_of_cons hc hlines]
        rw [hlines] at ih
        simp only [width, List.map_cons, List.length_cons, List.sum_cons] at ih ⊢
        omega

theorem length_le_of_mem_lines (h : l ∈ lines sep s) : l.length ≤ s.length := by
  have hwidth := @width_lines _ sep s _
  obtain ⟨before, after, hlines⟩ := List.append_of_mem h
  rw [hlines] at hwidth
  simp only [width, List.map_append, List.map_cons, List.sum_append, List.sum_cons] at hwidth
  split at hwidth <;> omega

theorem notMem_of_mem_lines (h : l ∈ lines sep s) : sep ∉ l := by
  induction s generalizing l with
  | nil => cases h
  | cons c s ih =>
    by_cases hc : c = sep
    · subst hc
      rw [lines_sep_cons, List.mem_cons] at h
      rcases h with rfl | h
      · exact List.not_mem_nil
      · exact ih h
    · cases hs : lines sep s with
      | nil =>
        rw [lines_cons_of_nil hc hs, List.mem_singleton] at h
        subst h
        rw [List.mem_singleton]
        exact Ne.symm hc
      | cons l' ls =>
        rw [lines_cons_of_cons hc hs, List.mem_cons] at h
        rcases h with rfl | h
        · rw [List.mem_cons, not_or]
          exact ⟨Ne.symm hc, ih (hs ▸ List.mem_cons_self)⟩
        · exact ih (hs ▸ List.mem_cons_of_mem _ h)

theorem length_lines_append_le : (lines sep s).length ≤ (lines sep (s ++ t)).length := by
  induction s with
  | nil => exact Nat.zero_le _
  | cons c s ih =>
    by_cases hc : c = sep
    · subst hc
      simpa using ih
    · rw [List.cons_append, length_lines_cons hc, length_lines_cons hc]
      omega

/-- A text whose last line goes on has as many lines. -/
theorem length_lines_concat (hs : ¬ Whole sep s) (hc : c ≠ sep) :
    (lines sep (s ++ [c])).length = (lines sep s).length := by
  induction s with
  | nil => exact absurd whole_nil hs
  | cons d s ih =>
    by_cases hnil : s = []
    · subst hnil
      rw [whole_singleton] at hs
      simp [lines, hs, hc]
    · have hrest := ih (mt (whole_cons hnil).mpr hs)
      by_cases hd : d = sep
      · subst hd
        simpa using hrest
      · rw [List.cons_append, length_lines_cons hd, length_lines_cons hd, hrest]

/-- A separator in a line that is written makes two lines out of it. -/
theorem two_le_length_lines (h : sep ∈ l) : 2 ≤ (lines sep (l ++ [sep])).length := by
  obtain ⟨a, t, rfl, ha⟩ : ∃ a t, l = a ++ sep :: t ∧ sep ∉ a := by
    rcases firstLine_append sep l with ⟨-, hno⟩ | ⟨t, heq⟩
    · exact absurd h hno
    · exact ⟨firstLine sep l, t, heq, notMem_firstLine⟩
  have hrest : lines sep (t ++ [sep]) ≠ [] := mt lines_eq_nil.mp (by simp)
  rw [List.append_assoc, List.cons_append, lines_append_sep ha, List.length_cons]
  exact Nat.succ_le_succ (List.length_pos_iff.mpr hrest)

theorem lines_unlines_cons (l : List α) (ls : List (List α)) :
    lines sep (unlines sep (l :: ls)) = lines sep (l ++ [sep]) ++ lines sep (unlines sep ls) := by
  rw [unlines, List.flatMap_cons, lines_append whole_append_sep, unlines]

theorem length_le_lines_unlines (ls : List (List α)) : ls.length ≤ (lines sep (unlines sep ls)).length := by
  induction ls with
  | nil => exact Nat.zero_le _
  | cons l ls ih =>
    have hpos : 0 < (lines sep (l ++ [sep])).length :=
      List.length_pos_iff.mpr (mt lines_eq_nil.mp (by simp))
    rw [lines_unlines_cons, List.length_append, List.length_cons]
    omega

/-- As many lines are read as were written only if none of them has a separator. -/
theorem notMem_of_length_lines {ls : List (List α)} (h : (lines sep (unlines sep ls)).length = ls.length) :
    ∀ l ∈ ls, sep ∉ l := by
  induction ls with
  | nil => exact fun l hl => absurd hl List.not_mem_nil
  | cons l ls ih =>
    have hle : ls.length ≤ (lines sep (unlines sep ls)).length := length_le_lines_unlines ls
    have hpos : 0 < (lines sep (l ++ [sep])).length :=
      List.length_pos_iff.mpr (mt lines_eq_nil.mp (by simp))
    rw [lines_unlines_cons, List.length_append, List.length_cons] at h
    refine List.forall_mem_cons.mpr ⟨fun hmem => ?_, ih (by omega)⟩
    have htwo := two_le_length_lines hmem
    omega

/-! ## Records -/

/-- The lines, each with the separator that ends it. -/
def records (sep : α) : List α → List (List α)
  | [] => []
  | c :: s =>
    if c = sep then [c] :: records sep s
    else
      match records sep s with
      | [] => [[c]]
      | r :: rs => (c :: r) :: rs

theorem records_cons_sep : records sep (sep :: s) = [sep] :: records sep s := if_pos rfl

theorem records_cons_of_nil (h : c ≠ sep) (hs : records sep s = []) : records sep (c :: s) = [[c]] := by
  rw [records, if_neg h, hs]

theorem records_cons_of_cons (h : c ≠ sep) {r : List α} {rs : List (List α)} (hs : records sep s = r :: rs) :
    records sep (c :: s) = (c :: r) :: rs := by
  rw [records, if_neg h, hs]

theorem exists_record (hs : s ≠ []) : ∃ r rs, records sep s = r :: rs ∧
    r.length = (firstLine sep s).length + if sep ∈ s then 1 else 0 := by
  induction s with
  | nil => exact absurd rfl hs
  | cons c s ih =>
    by_cases hc : c = sep
    · subst hc
      exact ⟨[c], _, records_cons_sep, by simp [firstLine]⟩
    · have hfirst : firstLine sep (c :: s) = c :: firstLine sep s := by simp [firstLine, hc]
      by_cases hnil : s = []
      · subst hnil
        exact ⟨[c], [], records_cons_of_nil hc rfl, by simp [firstLine, hc, Ne.symm hc]⟩
      · obtain ⟨r, rs, hrecords, hlength⟩ := ih hnil
        refine ⟨c :: r, rs, records_cons_of_cons hc hrecords, ?_⟩
        have hmem : sep ∈ c :: s ↔ sep ∈ s := by simp [Ne.symm hc]
        rw [hfirst, List.length_cons, List.length_cons, hlength]
        simp only [hmem]
        omega

/-- From any position on, the first line is part of a record. -/
theorem exists_record_drop {n : Nat} (hs : s.drop n ≠ []) : ∃ r ∈ records sep s,
    ((firstLine sep (s.drop n)).length + if sep ∈ s.drop n then 1 else 0) ≤ r.length := by
  induction s generalizing n with
  | nil => exact absurd (List.drop_nil) hs
  | cons c s ih =>
    cases n with
    | zero =>
      obtain ⟨r, rs, hrecords, hlength⟩ : ∃ r rs, records sep (c :: s) = r :: rs ∧ _ :=
        exists_record (List.cons_ne_nil c s)
      exact ⟨r, hrecords ▸ List.mem_cons_self, le_of_eq hlength.symm⟩
    | succ n =>
      obtain ⟨r, hr, hle⟩ := ih hs
      by_cases hc : c = sep
      · subst hc
        rw [records_cons_sep]
        exact ⟨r, List.mem_cons_of_mem _ hr, hle⟩
      · obtain ⟨r', rs, hrecords⟩ := List.exists_cons_of_ne_nil (List.ne_nil_of_mem hr)
        rw [hrecords] at hr
        rw [records_cons_of_cons hc hrecords]
        rcases List.mem_cons.mp hr with rfl | hr
        · exact ⟨c :: r, List.mem_cons_self, Nat.le_succ_of_le hle⟩
        · exact ⟨r, List.mem_cons_of_mem _ hr, hle⟩

end

/-- Lists of lists with the same elements in total, of which one is nowhere longer. -/
theorem eq_of_flatten_eq {β : Type} {as bs : List (List β)}
    (h : List.Forall₂ (fun a b => a.length ≤ b.length) as bs) (heq : as.flatten = bs.flatten) :
    as = bs := by
  have hle : ∀ {as bs : List (List β)}, List.Forall₂ (fun a b => a.length ≤ b.length) as bs →
      as.flatten.length ≤ bs.flatten.length := by
    intro as bs h
    induction h with
    | nil => exact Nat.le_refl _
    | cons hab _ ih =>
      rw [List.flatten_cons, List.flatten_cons, List.length_append, List.length_append]
      omega
  induction h with
  | nil => rfl
  | @cons a b as bs hab hrest ih =>
    rw [List.flatten_cons, List.flatten_cons] at heq
    have hlength := congrArg List.length heq
    rw [List.length_append, List.length_append] at hlength
    have htail := hle hrest
    obtain ⟨rfl, hflat⟩ := List.append_inj heq (by omega)
    rw [ih hflat]

/-! ## Words -/

section

variable {p : α → Bool}

/-- What stands between delimiters. -/
def words (p : α → Bool) (s : List α) : List (List α) := (s.splitOnP p).filter fun w => !w.isEmpty

theorem mem_splitOnP {w : List α} (h : w ∈ s.splitOnP p) : w.Sublist s ∧ ∀ c ∈ w, p c = false := by
  induction s generalizing w with
  | nil =>
    obtain rfl := List.mem_singleton.mp h
    exact ⟨.slnil, nofun⟩
  | cons c s ih =>
    rw [List.splitOnP_cons_eq_if_modifyHead] at h
    split at h
    · rcases List.mem_cons.mp h with rfl | h
      · exact ⟨List.nil_sublist _, nofun⟩
      · exact ⟨(ih h).1.cons c, (ih h).2⟩
    · next hc =>
      obtain ⟨l, ls, hsplit⟩ := List.exists_cons_of_ne_nil (List.splitOnP_ne_nil p s)
      rw [hsplit] at h ih
      rcases List.mem_cons.mp h with rfl | h
      · obtain ⟨hsub, hno⟩ := ih List.mem_cons_self
        refine ⟨hsub.cons_cons c, fun x hx => ?_⟩
        rcases List.mem_cons.mp hx with rfl | hx
        · simpa using hc
        · exact hno x hx
      · obtain ⟨hsub, hno⟩ := ih (List.mem_cons_of_mem _ h)
        exact ⟨hsub.cons c, hno⟩

/-- A word is part of the text, and has no delimiter. -/
theorem mem_words {w : List α} (h : w ∈ words p s) : w.Sublist s ∧ ∀ c ∈ w, p c = false :=
  mem_splitOnP (List.mem_of_mem_filter h)

/-- Delimiters before the first word do not matter. -/
theorem words_dropWhile (s : List α) : words p (s.dropWhile p) = words p s := by
  induction s with
  | nil => rfl
  | cons c s ih =>
    cases hc : p c with
    | true => rw [List.dropWhile_cons_of_pos hc, ih, words, words, List.splitOnP_cons_eq_if_modifyHead, if_pos hc]; rfl
    | false => rw [List.dropWhile_cons_of_neg (by simp [hc])]

/-- The first word, and those behind the delimiter that ends it. -/
theorem words_of_word (h : p c = false) (s : List α) : words p (c :: s) =
    (c :: s).takeWhile (fun x => !p x) :: words p ((c :: s).dropWhile fun x => !p x).tail := by
  have hword : ∀ x ∈ (c :: s).takeWhile (fun x => !p x), p x = false := fun x hx => by
    have hx := List.mem_takeWhile_imp hx
    simpa using hx
  have hne : ((c :: s).takeWhile fun x => !p x) ≠ [] := by simp [h]
  have hsplit := List.takeWhile_append_dropWhile (p := fun x => !p x) (l := c :: s)
  cases hrest : (c :: s).dropWhile (fun x => !p x) with
  | nil =>
    rw [hrest, List.append_nil] at hsplit
    nth_rewrite 1 [← hsplit]
    rw [words, List.splitOnP_eq_singleton hword]
    simp [words, h]
  | cons d t =>
    have hd : p d = true := by
      have hd := List.head?_dropWhile_not (fun x => !p x) (c :: s)
      rw [hrest] at hd
      simpa using hd
    rw [hrest] at hsplit
    nth_rewrite 1 [← hsplit]
    rw [words, List.splitOnP_append_cons_of_forall_mem hword d hd]
    simp [words, h]

end

end Lines
