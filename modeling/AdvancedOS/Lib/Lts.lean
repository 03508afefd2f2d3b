import Mathlib.Logic.Function.Basic

/-!
# Labelled transition systems

A system is a start state and a partial step function: `next a s = none` means that the
action `a` is not enabled in `s`. Every nondeterministic choice is part of the action, so
an interleaving of several threads is a list of actions.

* `ReachVia S ok`: the states reached by steps that all meet `ok`; `Reach S` puts no
  condition on the steps.
* `ReachVia.invariant`: an invariant of the start state that every step keeps holds in
  every state reached.
* `exec`: a run as a function of its list of actions, for concrete runs.
* `occurrences`: how often a run takes a step of some kind; `occurrences_eq` reads it off a counter.
* `length_exec_le`, `exists_final`: with a weight that every step makes less, a run has a bounded
  number of steps, and can be continued to the end.
* `exists_final_via`: a run can be continued to the end if some step always makes a measure less;
  `countP_le_weight` bounds the number of some of its steps.
* `Refinement`: a state function under which every step of one system is a step of
  another one or changes nothing; `Refinement.reach` carries reachability across.
-/

namespace Lts

universe u v w

/-- A transition system with states `σ` and actions `α`. -/
structure System (σ : Type u) (α : Type v) where
  init : σ
  next : α → σ → Option σ

variable {σ : Type u} {α : Type v} {τ : Type w} {β : Type v}

/-- States reached from the start by steps that all meet `ok`. -/
inductive ReachVia (S : System σ α) (ok : α → σ → Prop) : σ → Prop
  | init : ReachVia S ok S.init
  | step {s t : σ} {a : α} : ReachVia S ok s → ok a s → S.next a s = some t → ReachVia S ok t

/-- States reached from the start by any steps. -/
abbrev Reach (S : System σ α) : σ → Prop := ReachVia S fun _ _ => True

/-- No action is enabled. -/
def Stuck (S : System σ α) (s : σ) : Prop := ∀ a, S.next a s = none

theorem not_stuck {S : System σ α} {s : σ} (a : α) (h : (S.next a s).isSome) : ¬ Stuck S s :=
  fun hs => by rw [hs a] at h; cases h

/-- The invariant rule. The step case may use that the state before the step is reached. -/
theorem ReachVia.invariant {S : System σ α} {ok : α → σ → Prop} {I : σ → Prop}
    (hinit : I S.init)
    (hstep : ∀ {s t a}, ReachVia S ok s → I s → ok a s → S.next a s = some t → I t)
    {s : σ} (h : ReachVia S ok s) : I s := by
  induction h with
  | init => exact hinit
  | step hr hok hs ih => exact hstep hr ih hok hs

/-- A weaker condition on the steps reaches at least as much. -/
theorem ReachVia.mono {S : System σ α} {ok ok' : α → σ → Prop} (hle : ∀ a s, ok a s → ok' a s)
    {s : σ} (h : ReachVia S ok s) : ReachVia S ok' s := by
  induction h with
  | init => exact .init
  | step _ hok hs ih => exact .step ih (hle _ _ hok) hs

theorem ReachVia.reach {S : System σ α} {ok : α → σ → Prop} {s : σ} (h : ReachVia S ok s) : Reach S s :=
  h.mono fun _ _ _ => trivial

/-! ## Concrete runs -/

/-- Run a list of actions from `s`; `none` when one of them is not enabled. -/
def exec (S : System σ α) : List α → σ → Option σ
  | [], s => some s
  | a :: as, s => (S.next a s).bind (exec S as)

theorem reach_exec {S : System σ α} :
    ∀ (as : List α) {s t : σ}, Reach S s → exec S as s = some t → Reach S t
  | [], _, _, h, he => by cases he; exact h
  | a :: as, s, t, h, he => by
    obtain ⟨u, hu, hrest⟩ := Option.bind_eq_some_iff.mp he
    exact reach_exec as (.step h trivial hu) hrest

/-- The same run where every step is also tested. -/
def execVia (S : System σ α) (ok : α → σ → Prop) [∀ a s, Decidable (ok a s)] :
    List α → σ → Option σ
  | [], s => some s
  | a :: as, s => if ok a s then (S.next a s).bind (execVia S ok as) else none

theorem reachVia_execVia {S : System σ α} {ok : α → σ → Prop} [∀ a s, Decidable (ok a s)] :
    ∀ (as : List α) {s t : σ}, ReachVia S ok s → execVia S ok as s = some t → ReachVia S ok t
  | [], _, _, h, he => by cases he; exact h
  | a :: as, s, t, h, he => by
    unfold execVia at he
    split at he
    · next hok =>
      obtain ⟨u, hu, hrest⟩ := Option.bind_eq_some_iff.mp he
      exact reachVia_execVia as (.step h hok hu) hrest
    · cases he

/-! ## Counting the steps of a run -/

/-- How many steps of the run meet `p`. -/
def occurrences (S : System σ α) (p : α → σ → Prop) [∀ a s, Decidable (p a s)] : List α → σ → Nat
  | [], _ => 0
  | a :: as, s => (if p a s then 1 else 0) + (S.next a s).elim 0 (occurrences S p as)

/-- A counter that exactly the steps that meet `p` increase, by one each. -/
theorem occurrences_eq {S : System σ α} {ok p : α → σ → Prop} [∀ a s, Decidable (ok a s)]
    [∀ a s, Decidable (p a s)] {f : σ → Nat}
    (hcount : ∀ {s t a}, ReachVia S ok s → ok a s → S.next a s = some t →
      f t = f s + if p a s then 1 else 0) :
    ∀ (as : List α) {s t : σ}, ReachVia S ok s → execVia S ok as s = some t →
      f t = f s + occurrences S p as s
  | [], s, t, _, he => by cases he; rfl
  | a :: as, s, t, h, he => by
    unfold execVia at he
    split at he
    · next hok =>
      obtain ⟨u, hu, hrest⟩ := Option.bind_eq_some_iff.mp he
      have hstep := hcount h hok hu
      have htail := occurrences_eq hcount as (.step h hok hu) hrest
      rw [occurrences, hu, Option.elim_some]
      omega
    · cases he

/-! ## Runs that come to an end -/

section

variable {S : System σ α} {weight : σ → Nat}

theorem length_exec_le (hless : ∀ {s t a}, Reach S s → S.next a s = some t → weight t < weight s) :
    ∀ (as : List α) {s t : σ}, Reach S s → exec S as s = some t → as.length + weight t ≤ weight s
  | [], s, t, _, he => by cases he; exact Nat.le_of_eq (Nat.zero_add _)
  | a :: as, s, t, h, he => by
    obtain ⟨u, hu, hrest⟩ := Option.bind_eq_some_iff.mp he
    have hstep := hless h hu
    have hle := length_exec_le hless as (.step h trivial hu) hrest
    rw [List.length_cons]
    omega

theorem exists_final {final : σ → Prop}
    (hless : ∀ {s t a}, Reach S s → S.next a s = some t → weight t < weight s)
    (hgo : ∀ {s}, Reach S s → final s ∨ ∃ a, (S.next a s).isSome) {s : σ} (h : Reach S s) :
    ∃ t, Reach S t ∧ final t := by
  -- induction on the weight that is left
  generalize hn : weight s = n
  induction n using Nat.strongRecOn generalizing s with
  | ind n ih =>
    rcases hgo h with hfinal | ⟨a, ha⟩
    · exact ⟨s, h, hfinal⟩
    · obtain ⟨t, ht⟩ := Option.isSome_iff_exists.mp ha
      exact ih _ (hn ▸ hless h ht) (.step h trivial ht) rfl

end

/-! ## Runs that can be completed -/

section

variable {S : System σ α} {ok : α → σ → Prop} {measure : σ → Nat}

/-- A run, and a run from where it ends. -/
theorem ReachVia.trans {s t : σ} (h : ReachVia S ok s) (h' : ReachVia { S with init := s } ok t) :
    ReachVia S ok t := by
  induction h' with
  | init => exact h
  | step _ hok hs ih => exact .step ih hok hs

/-- In every state that is reached and not final, some step makes the measure less. Other steps may
make it greater. -/
theorem exists_final_via {final : σ → Prop}
    (hgo : ∀ {s}, ReachVia S ok s → final s ∨ ∃ a t, ok a s ∧ S.next a s = some t ∧ measure t < measure s) {s : σ}
    (h : ReachVia S ok s) : ∃ t, ReachVia { S with init := s } ok t ∧ final t := by
  generalize hn : measure s = n
  induction n using Nat.strongRecOn generalizing s with
  | ind n ih =>
    rcases hgo h with hfinal | ⟨a, u, hok, hnext, hless⟩
    · exact ⟨s, .init, hfinal⟩
    · obtain ⟨t, ht, hfinal⟩ := ih _ (hn ▸ hless) (.step h hok hnext) rfl
      have hfirst : ReachVia { S with init := s } ok u := .step .init hok hnext
      exact ⟨t, hfirst.trans ht, hfinal⟩

/-- A weight that no step makes greater bounds the number of the steps that make it less. -/
theorem countP_le_weight {weight : σ → Nat} [∀ a s, Decidable (ok a s)] {p : α → Bool}
    (hless : ∀ {s t a}, ReachVia S ok s → ok a s → S.next a s = some t →
      weight t + (if p a then 1 else 0) ≤ weight s) :
    ∀ (as : List α) {s t : σ}, ReachVia S ok s → execVia S ok as s = some t → as.countP p + weight t ≤ weight s
  | [], s, t, _, he => by cases he; exact Nat.le_of_eq (Nat.zero_add _)
  | a :: as, s, t, h, he => by
    unfold execVia at he
    split at he
    · next hok =>
      obtain ⟨u, hu, hrest⟩ := Option.bind_eq_some_iff.mp he
      have hstep := hless h hok hu
      have hle := countP_le_weight hless as (.step h hok hu) hrest
      rw [List.countP_cons]
      omega
    · cases he

end

/-! ## Refinement -/

/-- `S` by steps that meet `ok` refines `T` by steps that meet `ok'`: the start states correspond
under `abs`, and every step taken from a reached state is such a step of `T` or leaves the abstract
state as it is. -/
structure Refinement (S : System σ α) (ok : α → σ → Prop) (T : System τ β) (ok' : β → τ → Prop) where
  abs : σ → τ
  init : abs S.init = T.init
  step : ∀ {s t a}, ReachVia S ok s → ok a s → S.next a s = some t →
    abs t = abs s ∨ ∃ b, ok' b (abs s) ∧ T.next b (abs s) = some (abs t)

theorem Refinement.reach {S : System σ α} {ok : α → σ → Prop} {T : System τ β} {ok' : β → τ → Prop}
    (R : Refinement S ok T ok') {s : σ} (h : ReachVia S ok s) : ReachVia T ok' (R.abs s) := by
  induction h with
  | init => rw [R.init]; exact .init
  | step hr hok hs ih =>
    rcases R.step hr hok hs with he | ⟨b, hb, hnext⟩
    · rw [he]; exact ih
    · exact .step ih hb hnext

end Lts
