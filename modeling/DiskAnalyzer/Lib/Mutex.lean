import Mathlib.Logic.Function.Basic

/-!
# Who is inside a mutex

`Exclusive held inside`: the mutex is held exactly when some thread is inside, and at most one is.
Locking a free mutex, unlocking it from inside and handing it to another thread keep this, and so
does any step that neither enters nor leaves.
-/

namespace Mutex

variable {θ : Type*} {held : Prop} {inside : θ → Prop} {t : θ}

/-- A mutex and the threads inside it. -/
structure Exclusive (held : Prop) (inside : θ → Prop) : Prop where
  held_iff : held ↔ ∃ t, inside t
  unique : ∀ t u, inside t → inside u → t = u

theorem Exclusive.of_none (h : ∀ t, ¬ inside t) (hfree : ¬ held) : Exclusive held inside :=
  ⟨⟨fun hh => absurd hh hfree, fun ⟨t, ht⟩ => absurd ht (h t)⟩, fun t _ ht => absurd ht (h t)⟩

theorem Exclusive.congr {held' : Prop} {inside' : θ → Prop} (h : Exclusive held inside)
    (hheld : held' ↔ held) (hinside : ∀ u, inside' u ↔ inside u) : Exclusive held' inside' := by
  obtain rfl : inside' = inside := funext fun u => propext (hinside u)
  exact ⟨hheld.trans h.held_iff, h.unique⟩

/-- Locking a free mutex. -/
theorem Exclusive.lock {held' : Prop} {inside' : θ → Prop} (h : Exclusive held inside)
    (hfree : ¬ held) (hheld' : held') (hinside' : ∀ u, inside' u ↔ u = t ∨ inside u) :
    Exclusive held' inside' := by
  have hnone : ∀ u, ¬ inside u := fun u hu => hfree (h.held_iff.2 ⟨u, hu⟩)
  have honly : ∀ u, inside' u → u = t := fun u hu =>
    ((hinside' u).1 hu).resolve_right (hnone u)
  refine ⟨⟨fun _ => ⟨t, (hinside' t).2 (Or.inl rfl)⟩, fun _ => hheld'⟩, ?_⟩
  intro u v hu hv
  rw [honly u hu, honly v hv]

/-- Handing the mutex to another thread, which will unlock it. -/
theorem Exclusive.pass {u : θ} {held' : Prop} {inside' : θ → Prop} (h : Exclusive held inside)
    (ht : inside t) (hheld' : held') (hinside' : ∀ v, inside' v ↔ v = u ∨ v ≠ t ∧ inside v) :
    Exclusive held' inside' := by
  have honly : ∀ v, inside' v → v = u := fun v hv =>
    ((hinside' v).1 hv).resolve_right fun hin => hin.1 (h.unique v t hin.2 ht)
  refine ⟨⟨fun _ => ⟨u, (hinside' u).2 (Or.inl rfl)⟩, fun _ => hheld'⟩, ?_⟩
  intro v w hv hw
  rw [honly v hv, honly w hw]

/-- Unlocking from inside. -/
theorem Exclusive.unlock {held' : Prop} {inside' : θ → Prop} (h : Exclusive held inside)
    (ht : inside t) (hheld' : ¬ held') (hinside' : ∀ u, inside' u ↔ u ≠ t ∧ inside u) :
    Exclusive held' inside' := by
  refine .of_none (fun u hu => ?_) hheld'
  obtain ⟨hne, hin⟩ := (hinside' u).1 hu
  exact hne (h.unique u t hin ht)

end Mutex
