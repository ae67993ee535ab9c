import Mathlib.Order.SetNotation
import Mathlib.Order.Disjoint
import Mathlib.Data.Set.Basic
import Mathlib.Data.Set.Insert

/-!
# Pools of names grown at the top

A pool hands out names from a set of free ones and takes them back. It is grown lazily: when the
last free name is taken, a larger one is put in its place. What makes the new name fresh is that
the largest free name is above every used one, and that is the invariant `Pool`.

* `Pool.take`, `Pool.takeLast`: handing out a name.
* `Pool.give`: taking a used name back.
* `Pool.shrink`: forgetting every free name but one, which is safe exactly when no used name is
  above the one that is kept.
* `Segment`: a pool that has lost no name. It is kept by `take`, `takeLast` and `give`, not by
  `shrink`.
* `Filled`: the same where the names end at `cap`. Once `cap` is used the largest free name need
  not be above the used ones, and then `takeLast` is safe only when the next name is not in use;
  `used_iff` tells when the pool is empty.
-/

namespace IdPool

variable {ι : Type*} [LinearOrder ι] {free used : Set ι} {a b : ι}

/-- Free and used names are different, and the largest free name is above every used one. -/
structure Pool (free used : Set ι) : Prop where
  disjoint : ∀ x ∈ free, x ∉ used
  top : ∃ m ∈ free, (∀ x ∈ free, x ≤ m) ∧ ∀ x ∈ used, x < m

/-- Handing out a name that is not the largest free one. -/
theorem Pool.take (h : Pool free used) (hlt : ∃ m ∈ free, a < m) :
    Pool {x | x ∈ free ∧ x ≠ a} {x | x = a ∨ x ∈ used} := by
  obtain ⟨m, hm, hfree, hused⟩ := h.top
  obtain ⟨b, hb, hab⟩ := hlt
  have ham : a < m := lt_of_lt_of_le hab (hfree b hb)
  refine ⟨?_, m, ⟨hm, ne_of_gt ham⟩, fun x hx => hfree x hx.1, ?_⟩
  · intro x hx hxa
    cases hxa with
    | inl heq => exact hx.2 heq
    | inr hxu => exact h.disjoint x hx.1 hxu
  · intro x hx
    cases hx with
    | inl heq => rw [heq]; exact ham
    | inr hxu => exact hused x hxu

/-- Handing out the last free name and putting a larger one in its place. -/
theorem Pool.takeLast (h : Pool free used) (hfree : ∀ x, x ∈ free ↔ x = a) (hab : a < b) :
    Pool {x | x = b} {x | x = a ∨ x ∈ used} := by
  obtain ⟨m, hm, -, hused⟩ := h.top
  obtain rfl : m = a := (hfree m).1 hm
  refine ⟨?_, b, rfl, fun x hx => le_of_eq hx, ?_⟩
  · intro x hx hxu
    obtain rfl : x = b := hx
    cases hxu with
    | inl heq => exact absurd heq (ne_of_gt hab)
    | inr hxu => exact absurd (hused x hxu) (not_lt_of_gt hab)
  · intro x hx
    cases hx with
    | inl heq => rw [heq]; exact hab
    | inr hxu => exact lt_trans (hused x hxu) hab

/-- Taking a used name back. -/
theorem Pool.give (h : Pool free used) (ha : a ∈ used) :
    Pool {x | x = a ∨ x ∈ free} {x | x ∈ used ∧ x ≠ a} := by
  obtain ⟨m, hm, hfree, hused⟩ := h.top
  refine ⟨?_, m, Or.inr hm, ?_, fun x hx => hused x hx.1⟩
  · intro x hx hxu
    cases hx with
    | inl heq => exact hxu.2 heq
    | inr hxf => exact h.disjoint x hxf hxu.1
  · intro x hx
    cases hx with
    | inl heq => rw [heq]; exact le_of_lt (hused a ha)
    | inr hxf => exact hfree x hxf

/-- Keeping one free name, with no used name above it. -/
theorem Pool.shrink (h : Pool free used) (ha : a ∈ free) (hused : ∀ x ∈ used, ¬ a < x) :
    Pool {x | x = a} used := by
  refine ⟨?_, a, rfl, fun x hx => le_of_eq hx, ?_⟩
  · intro x hx
    obtain rfl : x = a := hx
    exact h.disjoint x ha
  · intro x hx
    have hne : x ≠ a := fun heq => h.disjoint a ha (heq ▸ hx)
    exact lt_of_le_of_ne (not_lt.1 (hused x hx)) hne

/-- The pool only depends on which names are free and which are used. -/
theorem Pool.congr {free' used' : Set ι} (h : Pool free used) (hf : ∀ x, x ∈ free' ↔ x ∈ free)
    (hu : ∀ x, x ∈ used' ↔ x ∈ used) : Pool free' used' := by
  obtain rfl : free' = free := Set.ext hf
  obtain rfl : used' = used := Set.ext hu
  exact h

/-- The free and the used names make up an initial segment that begins with `first`. -/
structure Segment (first : ι) (free used : Set ι) : Prop extends Pool free used where
  low : ∀ x, x ∈ free ∨ x ∈ used → first ≤ x
  filled : ∀ m ∈ free, ∀ x, first ≤ x → x ≤ m → x ∈ free ∨ x ∈ used

variable {first : ι}

theorem Segment.take (h : Segment first free used) (ha : a ∈ free) (hlt : ∃ m ∈ free, a < m) :
    Segment first {x | x ∈ free ∧ x ≠ a} {x | x = a ∨ x ∈ used} := by
  refine ⟨h.toPool.take hlt, ?_, ?_⟩
  · rintro x (hx | rfl | hx)
    · exact h.low x (Or.inl hx.1)
    · exact h.low x (Or.inl ha)
    · exact h.low x (Or.inr hx)
  · intro m hm x hlow hle
    by_cases hxa : x = a
    · exact Or.inr (Or.inl hxa)
    · exact (h.filled m hm.1 x hlow hle).imp (fun hx => ⟨hx, hxa⟩) Or.inr

/-- The larger name is the next one. -/
theorem Segment.takeLast (h : Segment first free used) (hfree : ∀ x, x ∈ free ↔ x = a)
    (hab : a < b) (hnext : ∀ x ≤ b, x ≤ a ∨ x = b) :
    Segment first {x | x = b} {x | x = a ∨ x ∈ used} := by
  have ha : a ∈ free := (hfree a).2 rfl
  refine ⟨h.toPool.takeLast hfree hab, ?_, ?_⟩
  · rintro x (rfl | rfl | hx)
    · exact le_trans (h.low a (Or.inl ha)) (le_of_lt hab)
    · exact h.low x (Or.inl ha)
    · exact h.low x (Or.inr hx)
  · rintro m rfl x hlow hle
    rcases hnext x hle with hxa | hxb
    · exact Or.inr ((h.filled a ha x hlow hxa).imp_left (hfree x).1)
    · exact Or.inl hxb

theorem Segment.give (h : Segment first free used) (ha : a ∈ used) :
    Segment first {x | x = a ∨ x ∈ free} {x | x ∈ used ∧ x ≠ a} := by
  obtain ⟨top, htop, -, hused⟩ := h.top
  refine ⟨h.toPool.give ha, ?_, ?_⟩
  · rintro x ((rfl | hx) | hx)
    · exact h.low x (Or.inr ha)
    · exact h.low x (Or.inl hx)
    · exact h.low x (Or.inr hx.1)
  · intro m hm x hlow hle
    by_cases hxa : x = a
    · exact Or.inl (Or.inl hxa)
    · have hx : x ∈ free ∨ x ∈ used := by
        rcases hm with rfl | hm
        · exact h.filled top htop x hlow (le_trans hle (le_of_lt (hused m ha)))
        · exact h.filled m hm x hlow hle
      exact hx.imp Or.inr fun hx => ⟨hx, hxa⟩

theorem Segment.congr {free' used' : Set ι} (h : Segment first free used)
    (hf : ∀ x, x ∈ free' ↔ x ∈ free) (hu : ∀ x, x ∈ used' ↔ x ∈ used) :
    Segment first free' used' := by
  obtain rfl : free' = free := Set.ext hf
  obtain rfl : used' = used := Set.ext hu
  exact h

/-- The free and the used names are those from `first` to some name that is free or the last of
all, `cap`. -/
structure Filled (first cap : ι) (free used : Set ι) : Prop where
  disjoint : ∀ x ∈ free, x ∉ used
  top : ∃ m, m ≤ cap ∧ (m ∈ free ∨ m = cap) ∧ ∀ x, x ∈ free ∨ x ∈ used ↔ first ≤ x ∧ x ≤ m

variable {cap : ι}

/-- The names up to `m`, of which those that are not used are free. -/
theorem Filled.of_free {m : ι} (hm : m ≤ cap) (htop : first ≤ m ∧ m ∉ used ∨ m = cap)
    (hused : ∀ x ∈ used, first ≤ x ∧ x ≤ m)
    (hfree : ∀ x, x ∈ free ↔ first ≤ x ∧ x ≤ m ∧ x ∉ used) : Filled first cap free used := by
  refine ⟨fun x hx => ((hfree x).1 hx).2.2, m, hm, ?_, ?_⟩
  · exact htop.imp_left fun h => (hfree m).2 ⟨h.1, le_refl m, h.2⟩
  · intro x
    by_cases hx : x ∈ used
    · exact iff_of_true (Or.inr hx) (hused x hx)
    · simp [hfree, hx]

theorem Filled.le_cap (h : Filled first cap free used) (ha : a ∈ free) : a ≤ cap := by
  obtain ⟨m, hm, -, hall⟩ := h.top
  exact le_trans ((hall a).1 (Or.inl ha)).2 hm

theorem Filled.take (h : Filled first cap free used) (ha : a ∈ free) (hlt : ∃ b ∈ free, a < b) :
    Filled first cap {x | x ∈ free ∧ x ≠ a} {x | x = a ∨ x ∈ used} := by
  obtain ⟨m, hm, htop, hall⟩ := h.top
  obtain ⟨b, hb, hab⟩ := hlt
  have hbm : b ≤ m := ((hall b).1 (Or.inl hb)).2
  have ham : a < m := lt_of_lt_of_le hab hbm
  refine ⟨?_, m, hm, htop.imp_left fun hmf => ⟨hmf, ne_of_gt ham⟩, ?_⟩
  · intro x hx hxu
    cases hxu with
    | inl heq => exact hx.2 heq
    | inr hxu => exact h.disjoint x hx.1 hxu
  · intro x
    rw [← hall]
    by_cases hxa : x = a
    · exact iff_of_true (Or.inr (Or.inl hxa)) (Or.inl (hxa ▸ ha))
    · exact or_congr (and_iff_left hxa) (or_iff_right hxa)

/-- The next name must be new. -/
theorem Filled.takeLast (h : Filled first cap free used) (hfree : ∀ x, x ∈ free ↔ x = a)
    (hab : a < b) (hb : b ≤ cap) (hnext : ∀ x ≤ b, x ≤ a ∨ x = b) (hnew : b ∉ used) :
    Filled first cap {x | x = b} {x | x = a ∨ x ∈ used} := by
  obtain ⟨m, hm, htop, hall⟩ := h.top
  have ha : first ≤ a := ((hall a).1 (Or.inl ((hfree a).2 rfl))).1
  have hbf : b ∉ free := fun hf => ne_of_gt hab ((hfree b).1 hf)
  -- Were `cap` the top, `b` would be free or used.
  obtain rfl : m = a := by
    rcases htop with hmf | rfl
    · exact (hfree m).1 hmf
    · exact absurd ((hall b).2 ⟨le_trans ha (le_of_lt hab), hb⟩) (not_or.2 ⟨hbf, hnew⟩)
  have hall' : ∀ x, x = m ∨ x ∈ used ↔ first ≤ x ∧ x ≤ m := fun x => by rw [← hall, hfree]
  refine ⟨?_, b, hb, Or.inl rfl, ?_⟩
  · intro x hx hxu
    obtain rfl : x = b := hx
    exact hxu.elim (ne_of_gt hab) hnew
  · intro x
    show x = b ∨ x = m ∨ x ∈ used ↔ first ≤ x ∧ x ≤ b
    rw [hall']
    constructor
    · intro hx
      rcases hx with rfl | hx
      · exact ⟨le_trans ha (le_of_lt hab), le_refl _⟩
      · exact ⟨hx.1, le_trans hx.2 (le_of_lt hab)⟩
    · intro hx
      exact (hnext x hx.2).symm.imp_right fun hxm => ⟨hx.1, hxm⟩

/-- Handing out the last name of all. -/
theorem Filled.takeCap (h : Filled first cap free used) (hfree : ∀ x, x ∈ free ↔ x = cap) :
    Filled first cap {x | x ∈ (∅ : Set ι)} {x | x = cap ∨ x ∈ used} := by
  obtain ⟨m, hm, htop, hall⟩ := h.top
  obtain rfl : m = cap := by
    rcases htop with hmf | heq
    · exact (hfree m).1 hmf
    · exact heq
  refine ⟨fun x hx => absurd hx id, m, le_refl m, Or.inr rfl, ?_⟩
  intro x
  rw [← hall, hfree]
  exact or_iff_right id

theorem Filled.give (h : Filled first cap free used) (ha : a ∈ used) :
    Filled first cap {x | x = a ∨ x ∈ free} {x | x ∈ used ∧ x ≠ a} := by
  obtain ⟨m, hm, htop, hall⟩ := h.top
  refine ⟨?_, m, hm, htop.imp_left Or.inr, ?_⟩
  · intro x hx hxu
    cases hx with
    | inl heq => exact hxu.2 heq
    | inr hxf => exact h.disjoint x hxf hxu.1
  · intro x
    rw [← hall]
    by_cases hxa : x = a
    · exact iff_of_true (Or.inl (Or.inl hxa)) (Or.inr (hxa ▸ ha))
    · exact or_congr (or_iff_right hxa) (and_iff_left hxa)

/-- **All names are in use** exactly when none is free. -/
theorem Filled.used_iff (h : Filled first cap free used) :
    (∀ x, first ≤ x → x ≤ cap → x ∈ used) ↔ ∀ x, x ∉ free := by
  obtain ⟨m, hm, htop, hall⟩ := h.top
  constructor
  · intro hused x hx
    have hrange := (hall x).1 (Or.inl hx)
    exact h.disjoint x hx (hused x hrange.1 (le_trans hrange.2 hm))
  · intro hfree x hlow hx
    obtain rfl : m = cap := htop.resolve_left (hfree m)
    exact ((hall x).2 ⟨hlow, hx⟩).resolve_left (hfree x)

theorem Filled.congr {free' used' : Set ι} (h : Filled first cap free used)
    (hf : ∀ x, x ∈ free' ↔ x ∈ free) (hu : ∀ x, x ∈ used' ↔ x ∈ used) :
    Filled first cap free' used' := by
  obtain rfl : free' = free := Set.ext hf
  obtain rfl : used' = used := Set.ext hu
  exact h

end IdPool
