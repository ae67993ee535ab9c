import Mathlib.Algebra.Order.Quantale
import Mathlib.Order.ConditionallyCompleteLattice.Basic
import Mathlib.Order.CompletePartialOrder

/-!
# Assertions about heaps

A heap is a partial map from addresses to contents. An assertion is a set of heaps: what a piece of
a program owns and what it finds there. The product of two assertions holds of the heaps that split
into one for each, so ownership is exclusive: nothing is owned by both factors.

Assertions under this product are a commutative quantale. Entailment is `≤`, an existential is `⨆`,
a fact about no heap is `⨆` over its proofs, and Mathlib's lemmas about quantales, commutative
monoids and finite products are the rules of the logic.
-/

namespace Sep

universe u v

/-- A partial map from addresses to contents. -/
def Heap (ι : Type u) (κ : Type v) := ι → Option κ

variable {ι : Type u} {κ : Type v}

namespace Heap

/-- The heap with nothing in it. -/
def empty : Heap ι κ := fun _ => none

@[simp] theorem empty_apply (a : ι) : (empty : Heap ι κ) a = none := rfl

/-- `h` is `h₁` and `h₂` together, and no address is in both. -/
def Splits (h h₁ h₂ : Heap ι κ) : Prop :=
  ∀ a, (h a = h₁ a ∧ h₂ a = none) ∨ (h a = h₂ a ∧ h₁ a = none)

/-- The two heaps together, when they split it. -/
def union (h₁ h₂ : Heap ι κ) : Heap ι κ := fun a => (h₁ a).or (h₂ a)

theorem Splits.symm {h h₁ h₂ : Heap ι κ} (hs : h.Splits h₁ h₂) : h.Splits h₂ h₁ :=
  fun a => (hs a).symm

theorem Splits.eq_union {h h₁ h₂ : Heap ι κ} (hs : h.Splits h₁ h₂) : h = union h₁ h₂ := by
  funext a
  rcases hs a with ⟨ha, hn⟩ | ⟨ha, hn⟩ <;> simp [union, ha, hn]

/-- What a part holds, the whole holds. -/
theorem Splits.left {h h₁ h₂ : Heap ι κ} (hs : h.Splits h₁ h₂) {a : ι} {c : κ}
    (ha : h₁ a = some c) : h a = some c := by
  rcases hs a with ⟨he, -⟩ | ⟨-, hn⟩
  · exact he.trans ha
  · rw [ha] at hn; cases hn

/-- What a part holds, the other does not. -/
theorem Splits.right_none {h h₁ h₂ : Heap ι κ} (hs : h.Splits h₁ h₂) {a : ι} {c : κ}
    (ha : h₁ a = some c) : h₂ a = none := by
  rcases hs a with ⟨-, hn⟩ | ⟨-, hn⟩
  · exact hn
  · rw [ha] at hn; cases hn

@[simp] theorem splits_empty_left {h h₂ : Heap ι κ} : h.Splits empty h₂ ↔ h = h₂ := by
  constructor
  · intro hs
    funext a
    rcases hs a with ⟨ha, hn⟩ | ⟨ha, -⟩
    · rw [ha, hn]; rfl
    · exact ha
  · rintro rfl a
    exact Or.inr ⟨rfl, rfl⟩

theorem Splits.assoc {h h₁₂ h₁ h₂ h₃ : Heap ι κ} (hs : h.Splits h₁₂ h₃)
    (hs' : h₁₂.Splits h₁ h₂) : h.Splits h₁ (union h₂ h₃) ∧ (union h₂ h₃).Splits h₂ h₃ := by
  constructor <;> intro a <;> simp only [union] <;>
    rcases hs a with ⟨e, n⟩ | ⟨e, n⟩ <;> rcases hs' a with ⟨e', n'⟩ | ⟨e', n'⟩ <;>
    simp_all

variable [DecidableEq ι]

/-- One address. -/
def single (a : ι) (c : κ) : Heap ι κ := fun b => if b = a then some c else none

@[simp] theorem single_self (a : ι) (c : κ) : single a c a = some c := if_pos rfl

@[simp] theorem single_ne {a b : ι} (h : b ≠ a) (c : κ) : single a c b = none := if_neg h

end Heap

/-! ## Assertions -/

/-- A set of heaps. -/
def Assertion (ι : Type u) (κ : Type v) := Heap ι κ → Prop

namespace Assertion

instance : CompleteLattice (Assertion ι κ) := inferInstanceAs (CompleteLattice (Heap ι κ → Prop))

theorem sSup_holds (S : Set (Assertion ι κ)) (h : Heap ι κ) : sSup S h ↔ ∃ P ∈ S, P h := by
  refine (iff_of_eq (@sSup_apply (Heap ι κ) (fun _ => Prop) _ S h)).trans ?_
  rw [iSup_Prop_eq]
  exact ⟨fun ⟨P, hP⟩ => ⟨P.1, P.2, hP⟩, fun ⟨P, hS, hP⟩ => ⟨⟨P, hS⟩, hP⟩⟩

theorem iSup_holds {γ : Sort*} (P : γ → Assertion ι κ) (h : Heap ι κ) :
    (⨆ x, P x) h ↔ ∃ x, P x h := by
  rw [iSup, sSup_holds]
  simp

theorem sup_holds (P Q : Assertion ι κ) (h : Heap ι κ) : (P ⊔ Q) h ↔ P h ∨ Q h := Iff.rfl

/-- Nothing is owned. -/
instance : One (Assertion ι κ) := ⟨fun h => h = Heap.empty⟩

/-- Separating conjunction: one part of the heap for each factor. -/
instance : Mul (Assertion ι κ) := ⟨fun P Q h => ∃ h₁ h₂, h.Splits h₁ h₂ ∧ P h₁ ∧ Q h₂⟩

theorem mul_comm' (P Q : Assertion ι κ) : P * Q = Q * P := by
  funext h
  refine propext ⟨?_, ?_⟩ <;> rintro ⟨h₁, h₂, hs, hP, hQ⟩ <;> exact ⟨h₂, h₁, hs.symm, hQ, hP⟩

instance : CommMonoid (Assertion ι κ) where
  mul_assoc P Q R := by
    funext h
    refine propext ⟨?_, ?_⟩
    · rintro ⟨h₁₂, h₃, hs, ⟨h₁, h₂, hs', hP, hQ⟩, hR⟩
      exact ⟨h₁, _, (hs.assoc hs').1, hP, h₂, h₃, (hs.assoc hs').2, hQ, hR⟩
    · rintro ⟨h₁, h₂₃, hs, hP, h₂, h₃, hs', hQ, hR⟩
      have ha := hs.symm.assoc hs'.symm
      exact ⟨_, h₃, ha.1.symm, ⟨h₁, h₂, ha.2.symm, hP, hQ⟩, hR⟩
  mul_comm := mul_comm'
  one_mul P := by
    funext h
    refine propext ⟨?_, fun hP => ⟨Heap.empty, h, Heap.splits_empty_left.2 rfl, rfl, hP⟩⟩
    rintro ⟨h₁, h₂, hs, rfl, hP⟩
    rwa [Heap.splits_empty_left.1 hs]
  mul_one P := by
    rw [mul_comm']
    funext h
    refine propext ⟨?_, fun hP => ⟨Heap.empty, h, Heap.splits_empty_left.2 rfl, rfl, hP⟩⟩
    rintro ⟨h₁, h₂, hs, rfl, hP⟩
    rwa [Heap.splits_empty_left.1 hs]

instance : IsQuantale (Assertion ι κ) where
  mul_sSup_distrib P S := by
    funext h
    refine propext ⟨?_, ?_⟩
    · rintro ⟨h₁, h₂, hs, hP, hS⟩
      obtain ⟨Q, hQS, hQ⟩ := (sSup_holds _ _).1 hS
      exact (iSup_holds _ _).2 ⟨Q, (iSup_holds _ _).2 ⟨hQS, h₁, h₂, hs, hP, hQ⟩⟩
    · intro hx
      obtain ⟨Q, hx⟩ := (iSup_holds _ _).1 hx
      obtain ⟨hQS, h₁, h₂, hs, hP, hQ⟩ := (iSup_holds _ _).1 hx
      exact ⟨h₁, h₂, hs, hP, (sSup_holds _ _).2 ⟨Q, hQS, hQ⟩⟩
  sSup_mul_distrib S P := by
    funext h
    refine propext ⟨?_, ?_⟩
    · rintro ⟨h₁, h₂, hs, hS, hP⟩
      obtain ⟨Q, hQS, hQ⟩ := (sSup_holds _ _).1 hS
      exact (iSup_holds _ _).2 ⟨Q, (iSup_holds _ _).2 ⟨hQS, h₁, h₂, hs, hQ, hP⟩⟩
    · intro hx
      obtain ⟨Q, hx⟩ := (iSup_holds _ _).1 hx
      obtain ⟨hQS, h₁, h₂, hs, hQ, hP⟩ := (iSup_holds _ _).1 hx
      exact ⟨h₁, h₂, hs, (sSup_holds _ _).2 ⟨Q, hQS, hQ⟩, hP⟩

/-! A fact that comes with a proof and not with a heap is an `⨆` over a proposition, so these are
stated for any sort. -/

theorem mul_iSup {γ : Sort*} (P : Assertion ι κ) (Q : γ → Assertion ι κ) :
    P * ⨆ x, Q x = ⨆ x, P * Q x := by
  rw [iSup, mul_sSup_distrib, iSup_range]

theorem iSup_mul {γ : Sort*} (P : γ → Assertion ι κ) (Q : Assertion ι κ) :
    (⨆ x, P x) * Q = ⨆ x, P x * Q := by
  rw [iSup, sSup_mul_distrib, iSup_range]

/-- `P`, taken out of `W`: with what is left it gives `W` back. -/
def lent (P W : Assertion ι κ) : Assertion ι κ := ⨆ K, ⨆ _ : P * K ≤ W, P * K

theorem lent_le (P W : Assertion ι κ) : lent P W ≤ W := iSup_le fun _ => iSup_le fun h => h

theorem le_lent {P K W : Assertion ι κ} (h : P * K ≤ W) : P * K ≤ lent P W :=
  le_iSup_of_le K (le_iSup_of_le h le_rfl)

/-- What a part lends, the whole lends. -/
theorem lent_mul_le {P W W' F : Assertion ι κ} (h : W * F ≤ W') : lent P W * F ≤ lent P W' := by
  simp only [lent, iSup_mul]
  refine iSup_le fun K => iSup_le fun hK => ?_
  rw [mul_assoc]
  refine le_lent ?_
  rw [← mul_assoc]
  exact (mul_le_mul' hK le_rfl).trans h

section PointsTo

variable [DecidableEq ι]

/-- The one address `a`, holding `c`. -/
def pointsTo (a : ι) (c : κ) : Assertion ι κ := fun h => h = Heap.single a c

end PointsTo

end Assertion

end Sep
