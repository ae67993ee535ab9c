import Mathlib.Tactic.TypeStar

/-!
# Entries in a table

Owners keep entries in a table, each under its own key. A `Registry` is kept when every owner's
entry is there and no two owners have the same key.

* `Registry.mono`: fewer owners, whose entries stay.
* `Registry.enter`: an owner enters under a key that the table does not map.
* `Registry.leave`: an owner gives up its key, whatever the table says there afterwards.
-/

variable {ω κ ι : Type*} {holds holds' : ω → ι → Prop} {key : ω → κ} {val val' : κ → Option ι}

/-- Every entry is there, and no two owners share a key. -/
structure Registry (holds : ω → ι → Prop) (key : ω → κ) (val : κ → Option ι) : Prop where
  entry : ∀ {o v}, holds o v → val (key o) = some v
  apart : ∀ {o o' v v'}, holds o v → holds o' v' → key o = key o' → o = o'

namespace Registry

theorem mono (h : Registry holds key val) (hholds : ∀ o v, holds' o v → holds o v)
    (hval : ∀ o, val' (key o) = val (key o)) : Registry holds' key val' :=
  ⟨fun ho => (hval _).trans (h.entry (hholds _ _ ho)),
    fun ho ho' => h.apart (hholds _ _ ho) (hholds _ _ ho')⟩

/-- Entries of others stay, and the new key was free. -/
theorem enter (h : Registry holds key val) {o : ω} {v : ι} (hfree : val (key o) = none)
    (hnew : val' (key o) = some v) (hval : ∀ p, key p ≠ key o → val' (key p) = val (key p))
    (hholds : ∀ p u, holds' p u → holds p u ∨ p = o ∧ u = v) : Registry holds' key val' := by
  have hne : ∀ {p u}, holds p u → key p ≠ key o := by
    intro p u hp heq
    rw [← heq, h.entry hp] at hfree
    simp at hfree
  refine ⟨fun {p u} hp => ?_, fun {p p' u u'} hp hp' heq => ?_⟩
  · rcases hholds p u hp with hp | ⟨rfl, rfl⟩
    · rw [hval p (hne hp)]
      exact h.entry hp
    · exact hnew
  · rcases hholds p u hp with hp | ⟨rfl, -⟩
    · rcases hholds p' u' hp' with hp' | ⟨rfl, -⟩
      · exact h.apart hp hp' heq
      · exact absurd heq (hne hp)
    · rcases hholds p' u' hp' with hp' | ⟨rfl, -⟩
      · exact absurd heq.symm (hne hp')
      · rfl

/-- Nobody else's entry is under the key. -/
theorem leave (h : Registry holds key val) {o : ω} {v : ι} (ho : holds o v)
    (hval : ∀ p, key p ≠ key o → val' (key p) = val (key p))
    (hholds : ∀ p u, holds' p u → holds p u ∧ p ≠ o) : Registry holds' key val' := by
  refine ⟨fun {p u} hp => ?_, fun hp hp' => h.apart (hholds _ _ hp).1 (hholds _ _ hp').1⟩
  obtain ⟨hp, hne⟩ := hholds p u hp
  rw [hval p fun heq => hne (h.apart hp ho heq)]
  exact h.entry hp

end Registry
