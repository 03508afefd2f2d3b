import Mathlib.Algebra.BigOperators.Group.List.Basic
import Mathlib.Algebra.GroupWithZero.Nat

/-!
# Cutting pieces into chunks

A list of pieces is cut into chunks of a given size: a chunk takes whole pieces as long as they fit, and of
the piece in which the size is reached it takes some more elements, `extra` of them. What is left of that piece begins
the next chunk.

* `Start ps n rest`: after `n` chunks of `ps`, `rest` is left.
* `Cut`: where a chunk ends within a piece; `Exact`: a chunk ends between two pieces.
* `Fills`: the chunks one piece after the other, with a condition on each cut; `fills_iff` says that the condition
  then holds of every `Cut`.
-/

namespace Cutting

universe u

/-- What is left of a text from `offset` on. -/
structure Piece (α : Type u) where
  offset : Nat
  text : List α

variable {α : Type u} {extra : List α → Nat} {size n room : Nat} {p : Piece α} {ps xs ys rest : List (Piece α)}
  {ok : Nat → Nat → Piece α → Prop} {last : Nat → Nat → Prop} {full : Prop}

def total (ps : List (Piece α)) : Nat := (ps.map fun p => p.text.length).sum

@[simp] theorem total_nil : total ([] : List (Piece α)) = 0 := rfl

@[simp] theorem total_cons : total (p :: ps) = p.text.length + total ps := rfl

@[simp] theorem total_append : total (xs ++ ys) = total xs + total ys := by
  simp [total]

/-- What a chunk with room for `room` more takes of a longer piece. -/
def Piece.cutLength (extra : List α → Nat) (room : Nat) (p : Piece α) : Nat := room + extra (p.text.drop room)

def Piece.remainder (extra : List α → Nat) (room : Nat) (p : Piece α) : Piece α :=
  ⟨p.offset + p.cutLength extra room, p.text.drop (p.cutLength extra room)⟩

/-- After `n` chunks of `ps`, `rest` is left. -/
inductive Start (extra : List α → Nat) (size : Nat) (ps : List (Piece α)) : Nat → List (Piece α) → Prop
  | first : Start extra size ps 0 ps
  | next {n : Nat} {xs ys : List (Piece α)} {p : Piece α} : Start extra size ps n (xs ++ p :: ys) →
      total xs < size → size < total xs + p.text.length →
      Start extra size ps (n + 1) (p.remainder extra (size - total xs) :: ys)

/-- Chunk `n` ends within the piece `p`, where `room` elements of it fill the chunk. -/
def Cut (extra : List α → Nat) (size : Nat) (ps : List (Piece α)) (n room : Nat) (p : Piece α) : Prop :=
  ∃ xs ys, Start extra size ps n (xs ++ p :: ys) ∧ total xs < size ∧ size < total xs + p.text.length ∧
    room = size - total xs

/-- Whole pieces fill chunk `n`. -/
def Exact (extra : List α → Nat) (size : Nat) (ps : List (Piece α)) (n : Nat) : Prop :=
  ∃ xs ys, Start extra size ps n (xs ++ ys) ∧ total xs = size

/-- The chunks one piece after the other: `n` chunks are full, and there is room for `room` more elements in the next. Every
cut meets `ok` and the end meets `last`; a chunk may end between two pieces, where nothing more is said, only if `full`. -/
inductive Fills (extra : List α → Nat) (size : Nat) (ok : Nat → Nat → Piece α → Prop) (last : Nat → Nat → Prop)
    (full : Prop) : Nat → Nat → List (Piece α) → Prop
  | nil {n room : Nat} : last n room → Fills extra size ok last full n room []
  | fits {n room : Nat} {p : Piece α} {ps : List (Piece α)} : p.text.length < room →
      Fills extra size ok last full n (room - p.text.length) ps → Fills extra size ok last full n room (p :: ps)
  | cut {n room : Nat} {p : Piece α} {ps : List (Piece α)} : room < p.text.length → ok n room p →
      Fills extra size ok last full (n + 1) size (p.remainder extra room :: ps) →
      Fills extra size ok last full n room (p :: ps)
  | exact {n room : Nat} {p : Piece α} {ps : List (Piece α)} : p.text.length = room → full →
      Fills extra size ok last full n room (p :: ps)

theorem fills_nil : Fills extra size ok last full n room [] ↔ last n room := by
  refine ⟨fun hfills => ?_, .nil⟩
  cases hfills with
  | nil hlast => exact hlast

theorem fills_cons_of_lt (h : p.text.length < room) : Fills extra size ok last full n room (p :: ps) ↔
    Fills extra size ok last full n (room - p.text.length) ps := by
  refine ⟨fun hfills => ?_, .fits h⟩
  cases hfills with
  | fits _ hrest => exact hrest
  | cut hcut _ _ => omega
  | exact heq _ => omega

theorem fills_cons_of_eq (h : p.text.length = room) : Fills extra size ok last full n room (p :: ps) ↔ full := by
  refine ⟨fun hfills => ?_, .exact h⟩
  cases hfills with
  | fits hfits _ => omega
  | cut hcut _ _ => omega
  | exact _ hfull => exact hfull

theorem fills_cons_of_gt (h : room < p.text.length) : Fills extra size ok last full n room (p :: ps) ↔
    ok n room p ∧ Fills extra size ok last full (n + 1) size (p.remainder extra room :: ps) := by
  refine ⟨fun hfills => ?_, fun hfills => .cut h hfills.1 hfills.2⟩
  cases hfills with
  | fits hfits _ => omega
  | cut _ hok hrest => exact ⟨hok, hrest⟩
  | exact heq _ => omega

theorem Fills.of_append (h : Fills extra size ok last full n room (xs ++ ys)) (hlt : total xs < room) :
    Fills extra size ok last full n (room - total xs) ys := by
  induction xs generalizing room with
  | nil => exact h
  | cons p xs ih =>
    rw [total_cons] at hlt ⊢
    rw [List.cons_append, fills_cons_of_lt (by omega)] at h
    rw [← Nat.sub_sub]
    exact ih h (by omega)

theorem Fills.full_of_exact (h : Fills extra size ok last full n room (xs ++ ys)) (hroom : 0 < room)
    (heq : total xs = room) : full := by
  induction xs generalizing room with
  | nil =>
    rw [total_nil] at heq
    omega
  | cons p xs ih =>
    rw [total_cons] at heq
    rw [List.cons_append] at h
    rcases Nat.lt_or_ge p.text.length room with hfits | hge
    · exact ih ((fills_cons_of_lt hfits).mp h) (by omega) (by omega)
    · exact (fills_cons_of_eq (by omega)).mp h

/-- Every chunk has at least `size` elements. -/
theorem Start.total_le (hs : Start extra size ps n rest) : n * size + total rest ≤ total ps := by
  induction hs with
  | first => exact Nat.le_of_eq (by rw [Nat.zero_mul, Nat.zero_add])
  | @next n xs ys p _ hlt hgt ih =>
    have hlength : (p.remainder extra (size - total xs)).text.length ≤ p.text.length - (size - total xs) := by
      rw [Piece.remainder, List.length_drop, Piece.cutLength]
      omega
    rw [total_append, total_cons] at ih
    rw [total_cons, Nat.succ_mul]
    omega

/-- What is left are ends of the pieces. -/
theorem Start.suffix (hs : Start extra size ps n rest) :
    ∀ p ∈ rest, ∃ q ∈ ps, q.offset ≤ p.offset ∧ p.text = q.text.drop (p.offset - q.offset) := by
  induction hs with
  | first => exact fun p hp => ⟨p, hp, Nat.le_refl _, by rw [Nat.sub_self, List.drop_zero]⟩
  | @next n xs ys p _ _ _ ih =>
    intro p' hp'
    rcases List.mem_cons.mp hp' with rfl | hp'
    · obtain ⟨q, hq, hle, htext⟩ := ih p (by simp)
      refine ⟨q, hq, Nat.le_trans hle (Nat.le_add_right _ _), ?_⟩
      show p.text.drop (p.cutLength extra (size - total xs)) =
        q.text.drop (p.offset + p.cutLength extra (size - total xs) - q.offset)
      generalize p.cutLength extra (size - total xs) = k
      rw [htext, List.drop_drop, Nat.sub_add_comm hle]
    · exact ih p' (by simp [hp'])

/-- What the chunks do from a start on is what they do from the beginning. -/
theorem Fills.of_start (h : Fills extra size ok last full 0 size ps) (hs : Start extra size ps n rest) :
    Fills extra size ok last full n size rest := by
  induction hs with
  | first => exact h
  | next _ hlt hgt ih =>
    exact ((fills_cons_of_gt (by omega)).mp (ih.of_append hlt)).2

/-- With `xs` in the chunk that was begun, the chunks go on. The induction is on what is left. -/
theorem fills_from (hsize : 0 < size) (hok : ∀ n room p, Cut extra size ps n room p → ok n room p)
    (hlast : ∀ n rest, Start extra size ps n rest → total rest < size → last n (size - total rest))
    (hfull : full ∨ ∀ n, ¬ Exact extra size ps n) (hs : Start extra size ps n (xs ++ ys)) (hlt : total xs < size) :
    Fills extra size ok last full n (size - total xs) ys := by
  generalize hleft : total ys + ys.length = left
  induction left using Nat.strongRecOn generalizing n xs ys with
  | _ left ih =>
    cases ys with
    | nil =>
      rw [List.append_nil] at hs
      exact .nil (hlast n xs hs hlt)
    | cons p ys =>
      rw [total_cons, List.length_cons] at hleft
      have hnext : total (xs ++ [p]) = total xs + p.text.length := by simp
      rw [List.append_cons] at hs
      rcases Nat.lt_trichotomy p.text.length (size - total xs) with hfits | heq | hcut
      · refine .fits hfits ?_
        rw [Nat.sub_sub, ← hnext]
        exact ih (total ys + ys.length) (by omega) hs (by omega) rfl
      · refine .exact heq ?_
        exact hfull.resolve_right fun hno => hno n ⟨xs ++ [p], ys, hs, by omega⟩
      · rw [← List.append_cons] at hs
        have hnew := hs.next hlt (by omega)
        refine .cut hcut (hok n _ p ⟨xs, ys, hs, hlt, by omega, rfl⟩) ?_
        have hless : total (p.remainder extra (size - total xs) :: ys) < p.text.length + total ys := by
          rw [total_cons, Piece.remainder, List.length_drop, Piece.cutLength]
          omega
        rw [← List.nil_append (p.remainder extra (size - total xs) :: ys)] at hnew
        exact ih _ (by rw [List.length_cons]; omega) hnew hsize rfl

/-- The chunks can be filled one piece after the other exactly if every cut meets `ok`, the last start meets `last`, and no
chunk ends between two pieces, unless `full`. -/
theorem fills_iff (hsize : 0 < size) : Fills extra size ok last full 0 size ps ↔
    (∀ n room p, Cut extra size ps n room p → ok n room p) ∧
    (∀ n rest, Start extra size ps n rest → total rest < size → last n (size - total rest)) ∧
    (full ∨ ∀ n, ¬ Exact extra size ps n) := by
  constructor
  · intro h
    refine ⟨?_, fun n rest hs hlt => ?_, ?_⟩
    · rintro n room p ⟨xs, ys, hs, hlt, hgt, rfl⟩
      exact ((fills_cons_of_gt (by omega)).mp ((h.of_start hs).of_append hlt)).1
    · have hend := h.of_start hs
      rw [← List.append_nil rest] at hend
      exact fills_nil.mp (hend.of_append hlt)
    · by_cases hfull : full
      · exact .inl hfull
      · refine .inr fun n hexact => ?_
        obtain ⟨xs, ys, hs, heq⟩ := hexact
        exact hfull ((h.of_start hs).full_of_exact hsize heq)
  · rintro ⟨hok, hlast, hfull⟩
    have hfirst : Start extra size ps 0 ([] ++ ps) := .first
    exact fills_from hsize hok hlast hfull hfirst hsize

end Cutting
