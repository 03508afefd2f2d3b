import Mathlib.Data.Nat.ModEq
import Mathlib.Data.Nat.Log

/-!
# Ranks on a ring

`behind n p d` is the rank `d` places before `p` on a ring of `n` ranks. `spread` is the
doubling argument of a dissemination pattern: whoever knows the `2 ^ r` ranks behind it,
and hears from the rank `2 ^ r` behind it which knows as many, knows the `2 ^ (r + 1)` ranks
behind it. After `Nat.clog 2 n` rounds that is everyone (`spread_all`).
-/

namespace Ranks

/-- The rank `d` places behind `p`. -/
def behind (n p d : Nat) : Nat := (p + (n - d % n)) % n

variable {n : Nat}

theorem behind_lt (hn : 0 < n) (p d : Nat) : behind n p d < n := Nat.mod_lt _ hn

theorem behind_add_modEq (hn : 0 < n) (p d : Nat) : behind n p d + d ≡ p [MOD n] := by
  have hd : d % n ≤ n := Nat.le_of_lt (Nat.mod_lt _ hn)
  calc behind n p d + d ≡ (p + (n - d % n)) + d % n [MOD n] :=
        (Nat.mod_modEq _ n).add (Nat.mod_modEq d n).symm
    _ = p + n := by omega
    _ ≡ p [MOD n] := by simp [Nat.ModEq]

/-- `behind` is the only rank that leads back to `p`. -/
theorem eq_behind {x p d : Nat} (hx : x < n) (h : x + d ≡ p [MOD n]) : x = behind n p d := by
  have hn : 0 < n := by omega
  have hmod : x ≡ behind n p d [MOD n] :=
    Nat.ModEq.add_right_cancel' d (h.trans (behind_add_modEq hn p d).symm)
  exact Nat.ModEq.eq_of_lt_of_lt hmod hx (behind_lt hn p d)

theorem behind_zero {p : Nat} (hp : p < n) : behind n p 0 = p :=
  (eq_behind hp (by rfl)).symm

theorem behind_behind (hn : 0 < n) (p a b : Nat) :
    behind n (behind n p a) b = behind n p (a + b) := by
  apply eq_behind (behind_lt hn _ _)
  have h1 := (behind_add_modEq hn (behind n p a) b).add_right a
  have h2 := behind_add_modEq hn p a
  rw [Nat.add_assoc, Nat.add_comm b a] at h1
  exact h1.trans h2

/-- The rank `a` behind the one `a` ahead of `p` is `p`. -/
theorem behind_ahead {p : Nat} (hp : p < n) (a : Nat) : behind n ((p + a) % n) a = p :=
  (eq_behind hp (Nat.mod_modEq _ n).symm).symm

theorem ahead_behind {p : Nat} (hp : p < n) (a : Nat) : (behind n p a + a) % n = p := by
  have h := behind_add_modEq (by omega : 0 < n) p a
  rw [Nat.ModEq, Nat.mod_eq_of_lt hp] at h
  exact h

/-- Every rank is less than `n` places behind any other. -/
theorem exists_behind {p q : Nat} (hq : q < n) : ∃ d < n, behind n p d = q := by
  have hn : 0 < n := by omega
  refine ⟨behind n p q, behind_lt hn p q, (eq_behind hq ?_).symm⟩
  rw [Nat.add_comm]
  exact behind_add_modEq hn p q

/-- Distinct offsets below `n` lead to distinct ranks. -/
theorem ahead_inj {p a b : Nat} (ha : a < n) (hb : b < n) (h : (p + a) % n = (p + b) % n) :
    a = b :=
  Nat.ModEq.eq_of_lt_of_lt (Nat.ModEq.add_left_cancel' p h) ha hb

/-- Offsets of different rounds lead to different ranks. -/
theorem ahead_pow_inj {p r r' : Nat} (hr : 2 ^ r < n) (hr' : 2 ^ r' < n)
    (h : (p + 2 ^ r) % n = (p + 2 ^ r') % n) : r = r' :=
  Nat.pow_right_injective (Nat.le_refl 2) (ahead_inj hr hr' h)

theorem pow_lt_of_lt_clog {r : Nat} (h : r < Nat.clog 2 n) : 2 ^ r < n :=
  (Nat.lt_clog_iff_pow_lt (by omega)).mp h

/-! ## Doubling -/

/-- `P` holds of the `d` ranks behind `p`, `p` itself included. -/
def Behind (n : Nat) (P : Nat → Prop) (p d : Nat) : Prop := ∀ e < d, P (behind n p e)

theorem Behind.mono {P : Nat → Prop} {p d e : Nat} (h : Behind n P p d) (hle : e ≤ d) :
    Behind n P p e := fun x hx => h x (by omega)

theorem Behind.imp {P Q : Nat → Prop} {p d : Nat} (hPQ : ∀ q, P q → Q q) (h : Behind n P p d) :
    Behind n Q p d := fun x hx => hPQ _ (h x hx)

theorem spread (hn : 0 < n) {P : Nat → Prop} {p r : Nat} (hp : Behind n P p (2 ^ r))
    (hq : Behind n P (behind n p (2 ^ r)) (2 ^ r)) : Behind n P p (2 ^ (r + 1)) := by
  intro e he
  rw [Nat.pow_succ] at he
  by_cases hlt : e < 2 ^ r
  · exact hp e hlt
  · have h := hq (e - 2 ^ r) (by omega)
    rw [behind_behind hn] at h
    rwa [show 2 ^ r + (e - 2 ^ r) = e by omega] at h

theorem spread_all {P : Nat → Prop} {p : Nat} (h : Behind n P p (2 ^ Nat.clog 2 n))
    {q : Nat} (hq : q < n) : P q := by
  obtain ⟨d, hd, rfl⟩ := exists_behind (p := p) hq
  exact h d (Nat.lt_of_lt_of_le hd (Nat.le_pow_clog (by omega) n))

end Ranks
