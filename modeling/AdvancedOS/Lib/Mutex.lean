import Mathlib.Logic.Basic

/-!
# Mutexes

`Owns lock inside`: a mutex is held by the one thread that is inside the sections it protects, and free if no
thread is. So two threads are never inside at once.
-/

namespace Mutex

variable {T : Type} {lock : Option T} {inside inside' : T → Prop} {t u : T}

/-- The thread inside is the owner. -/
def Owns (lock : Option T) (inside : T → Prop) : Prop := ∀ t, lock = some t ↔ inside t

theorem Owns.exclusive (h : Owns lock inside) (ht : inside t) (hu : inside u) : t = u :=
  Option.some.inj (((h t).mpr ht).symm.trans ((h u).mpr hu))

/-- Nobody enters or leaves. -/
theorem Owns.same (h : Owns lock inside) (hsame : ∀ t, inside' t ↔ inside t) : Owns lock inside' :=
  fun t => (h t).trans (hsame t).symm

theorem Owns.acquire (h : Owns none inside) (ht : inside' t) (hsame : ∀ u ≠ t, inside' u ↔ inside u) :
    Owns (some t) inside' := by
  intro u
  by_cases hu : u = t
  · subst hu
    exact iff_of_true rfl ht
  · refine iff_of_false (fun heq => hu (Option.some.inj heq).symm) fun hin => ?_
    cases (h u).mpr ((hsame u hu).mp hin)

theorem Owns.release (h : Owns lock inside) (ht : inside t) (hout : ¬ inside' t)
    (hsame : ∀ u ≠ t, inside' u ↔ inside u) : Owns none inside' := by
  intro u
  refine iff_of_false nofun fun hin => ?_
  by_cases hu : u = t
  · subst hu
    exact hout hin
  · exact hu (h.exclusive ((hsame u hu).mp hin) ht)

end Mutex
