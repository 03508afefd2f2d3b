import Mathlib.Data.List.Basic

/-!
# Writing through a buffer

A writer keeps the items that it is given and passes all of them on to a sink when a test on what it has
kept says so, before it keeps the next one. The sink may fail.

* `putAll_flush`: after a last flush the sink is as if every item had been written at once, whatever the
  test.
* `length_putAll`: a test that holds from `n` items on keeps at most `n` of them back.
-/

namespace WriteBuffer

variable {α σ : Type}

/-- What is kept back, and the sink. -/
structure Buffered (α σ : Type) where
  kept : List α
  sink : σ

variable (write : σ → α → Option σ) (full : List α → Bool)

def flush (b : Buffered α σ) : Option (Buffered α σ) :=
  (b.kept.foldlM write b.sink).map fun sink => ⟨[], sink⟩

def put (b : Buffered α σ) (x : α) : Option (Buffered α σ) :=
  (if full b.kept then flush write b else some b).map fun b => { b with kept := b.kept ++ [x] }

def putAll (b : Buffered α σ) (xs : List α) : Option (Buffered α σ) := xs.foldlM (put write full) b

variable {write full} {b b' : Buffered α σ} {n : Nat}

/-- One item: a later flush writes what was kept and then the item, also if there was a flush in between. -/
theorem put_flush (b : Buffered α σ) (x : α) (xs : List α) :
    ((put write full b x).bind fun b => (b.kept ++ xs).foldlM write b.sink) =
      (b.kept ++ x :: xs).foldlM write b.sink := by
  unfold put
  cases full b.kept with
  | false => simp [List.foldlM_append, Option.bind_assoc]
  | true =>
    rw [if_pos rfl, flush, List.foldlM_append]
    cases b.kept.foldlM write b.sink with
    | none => rfl
    | some sink => rfl

theorem putAll_flush (write : σ → α → Option σ) (full : List α → Bool) (b : Buffered α σ) (xs : List α) :
    (putAll write full b xs).bind (flush write) =
      ((b.kept ++ xs).foldlM write b.sink).map fun sink => ⟨[], sink⟩ := by
  induction xs generalizing b with
  | nil => simp [putAll, flush]
  | cons x xs ih =>
    rw [← put_flush, putAll, List.foldlM_cons]
    cases put write full b x with
    | none => rfl
    | some b' => exact ih b'

theorem length_put {x : α} (hfull : ∀ kept, full kept = false → kept.length < n) (hn : 0 < n)
    (h : put write full b x = some b') : b'.kept.length ≤ n := by
  obtain ⟨b₁, hb₁, rfl⟩ := Option.map_eq_some_iff.mp h
  show (b₁.kept ++ [x]).length ≤ n
  rw [List.length_append, List.length_singleton]
  cases htest : full b.kept with
  | false =>
    rw [htest] at hb₁
    obtain rfl := Option.some.inj hb₁
    exact hfull _ htest
  | true =>
    rw [htest] at hb₁
    obtain ⟨sink, -, rfl⟩ := Option.map_eq_some_iff.mp hb₁
    exact hn

theorem length_putAll {xs : List α} (hfull : ∀ kept, full kept = false → kept.length < n) (hn : 0 < n)
    (hb : b.kept.length ≤ n) (h : putAll write full b xs = some b') : b'.kept.length ≤ n := by
  induction xs generalizing b with
  | nil =>
    obtain rfl := Option.some.inj h
    exact hb
  | cons x xs ih =>
    rw [putAll, List.foldlM_cons] at h
    obtain ⟨b₁, hb₁, hrest⟩ := Option.bind_eq_some_iff.mp h
    exact ih (length_put hfull hn hb₁) hrest

end WriteBuffer
