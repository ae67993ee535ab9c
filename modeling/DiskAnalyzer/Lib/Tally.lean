import Mathlib.Data.Set.Card

/-!
# A count kept by hand

A number is meant to be the size of a set that changes by one member at a time. A `Tally` is kept
when the number follows.

* `Tally.enter`, `Tally.leave`: one member more, or less.
* `Tally.eq_zero_iff`: the count is 0 when there are no members.
-/

universe u

variable {α : Type u} {cnt cnt' : Int} {p q : α → Prop} {a : α}

/-- There are `cnt` members. -/
structure Tally (cnt : Int) (p : α → Prop) : Prop where
  finite : {a | p a}.Finite
  eq_ncard : cnt = {a | p a}.ncard

namespace Tally

theorem zero (h : ∀ a, ¬ p a) : Tally 0 p := by
  have hempty : {a | p a} = ∅ := Set.eq_empty_of_forall_notMem h
  refine ⟨?_, ?_⟩
  · rw [hempty]
    exact Set.finite_empty
  · rw [hempty, Set.ncard_empty]
    rfl

theorem congr (h : Tally cnt p) (hiff : ∀ a, q a ↔ p a) : Tally cnt q := by
  have heq : q = p := funext fun a => propext (hiff a)
  rwa [heq]

/-- No member enters or leaves. -/
theorem same (h : Tally cnt p) (hcnt : cnt' = cnt) (hiff : ∀ a, q a ↔ p a) : Tally cnt' q := by
  rw [hcnt]
  exact h.congr hiff

theorem enter (h : Tally cnt p) (hcnt : cnt' = cnt + 1) (ha : ¬ p a) (ha' : q a)
    (hrest : ∀ b, b ≠ a → (q b ↔ p b)) : Tally cnt' q := by
  have hset : {b | q b} = insert a {b | p b} := by
    ext b
    by_cases hb : b = a
    · simp [hb, ha']
    · simp [hb, hrest b hb]
  have hcard := Set.ncard_insert_of_notMem (s := {b | p b}) ha h.finite
  refine ⟨?_, ?_⟩
  · rw [hset]
    exact h.finite.insert a
  · rw [hset, hcnt, h.eq_ncard]
    omega

theorem leave (h : Tally cnt p) (hcnt : cnt' = cnt - 1) (ha : p a) (ha' : ¬ q a)
    (hrest : ∀ b, b ≠ a → (q b ↔ p b)) : Tally cnt' q := by
  have hset : {b | q b} = {b | p b} \ {a} := by
    ext b
    by_cases hb : b = a
    · simp [hb, ha']
    · simp [hb, hrest b hb]
  have hcard := Set.ncard_sdiff_singleton_add_one (s := {b | p b}) ha h.finite
  refine ⟨?_, ?_⟩
  · rw [hset]
    exact h.finite.sdiff
  · rw [hset, hcnt, h.eq_ncard]
    omega

theorem nonneg (h : Tally cnt p) : 0 ≤ cnt := by
  rw [h.eq_ncard]
  exact Int.natCast_nonneg _

theorem eq_zero_iff (h : Tally cnt p) : cnt = 0 ↔ ∀ a, ¬ p a := by
  rw [h.eq_ncard, Int.natCast_eq_zero, Set.ncard_eq_zero h.finite, Set.eq_empty_iff_forall_notMem]
  rfl

end Tally
