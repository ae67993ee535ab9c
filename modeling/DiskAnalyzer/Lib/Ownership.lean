import Mathlib.Data.List.Nodup
import Mathlib.Data.List.Perm.Subperm
import Mathlib.Data.Set.Insert
import Mathlib.Logic.Function.Basic

/-!
# Who holds what

Objects pass between owners by hand: an owner holds a list of them. A `Ledger` is kept when no
object is held twice, by one owner or by two, and when every object held has been made.

* `Ledger.move`: one owner gives an object to another.
* `Ledger.create`: an owner receives a new object.
* `Ledger.drop`: owners lose objects.
-/

namespace Ownership

universe u v

variable {ω : Type u} {α : Type v} {holds holds' : ω → List α} {used used' : Set α}

/-- Every object that is held has been made, and is held once. -/
structure Ledger (holds : ω → List α) (used : Set α) : Prop where
  nodup : ∀ o, (holds o).Nodup
  owner : ∀ {o o' : ω} {a : α}, a ∈ holds o → a ∈ holds o' → o = o'
  made : ∀ {o : ω} {a : α}, a ∈ holds o → a ∈ used

/-- Losing objects, and making others. -/
theorem Ledger.drop (h : Ledger holds used) (hsub : ∀ o, (holds' o).Subperm (holds o))
    (hused : ∀ a ∈ used, a ∈ used') : Ledger holds' used' := by
  refine ⟨?_, fun {o o' a} ha ha' => ?_, fun {o a} ha => ?_⟩
  · intro o
    obtain ⟨l, hperm, hl⟩ := hsub o
    exact hperm.nodup_iff.1 ((h.nodup o).sublist hl)
  · exact h.owner ((hsub o).subset ha) ((hsub o').subset ha')
  · exact hused a (h.made ((hsub o).subset ha))

/-- Nobody's holdings change, up to order. -/
theorem Ledger.congr (h : Ledger holds used) (hperm : ∀ o, (holds' o).Perm (holds o)) :
    Ledger holds' used := h.drop (fun o => (hperm o).subperm) fun _ ha => ha

/-- Receiving an object that nobody holds. -/
theorem Ledger.gain (h : Ledger holds used) {a : α} (ha : ∀ o, a ∉ holds o) (hmade : a ∈ used)
    {o : ω} (hto : (holds' o).Perm (a :: holds o)) (hrest : ∀ u, u ≠ o → holds' u = holds u) :
    Ledger holds' used := by
  have hmem : ∀ {u x}, x ∈ holds' u → x = a ∧ u = o ∨ x ∈ holds u := by
    intro u x hx
    by_cases hu : u = o
    · subst hu
      rcases List.mem_cons.1 (hto.subset hx) with rfl | hx
      · exact Or.inl ⟨rfl, rfl⟩
      · exact Or.inr hx
    · exact Or.inr (hrest u hu ▸ hx)
  refine ⟨?_, fun {u u' x} hx hx' => ?_, fun {u x} hx => ?_⟩
  · intro u
    by_cases hu : u = o
    · subst hu
      exact hto.nodup_iff.2 (List.nodup_cons.2 ⟨ha u, h.nodup u⟩)
    · rw [hrest u hu]
      exact h.nodup u
  · rcases hmem hx with ⟨rfl, rfl⟩ | hxu
    · rcases hmem hx' with ⟨-, rfl⟩ | hxu'
      · rfl
      · exact absurd hxu' (ha u')
    · rcases hmem hx' with ⟨rfl, rfl⟩ | hxu'
      · exact absurd hxu (ha u)
      · exact h.owner hxu hxu'
  · rcases hmem hx with ⟨rfl, -⟩ | hx
    · exact hmade
    · exact h.made hx

/-- Receiving a new object. -/
theorem Ledger.create (h : Ledger holds used) {a : α} (ha : a ∉ used) {o : ω}
    (hto : (holds' o).Perm (a :: holds o)) (hrest : ∀ u, u ≠ o → holds' u = holds u) :
    Ledger holds' (insert a used) :=
  (h.drop (fun _ => List.Subperm.refl _) fun _ hx => Set.mem_insert_of_mem a hx).gain
    (fun _ hx => ha (h.made hx)) (Set.mem_insert a used) hto hrest

/-- Giving an object away. -/
theorem Ledger.move [DecidableEq ω] (h : Ledger holds used) {a : α} {o p : ω} (hne : o ≠ p)
    (hfrom : (holds o).Perm (a :: holds' o)) (hto : (holds' p).Perm (a :: holds p))
    (hrest : ∀ u, u ≠ o → u ≠ p → holds' u = holds u) : Ledger holds' used := by
  have ha : a ∈ holds o := hfrom.symm.subset List.mem_cons_self
  have hmid : Ledger (Function.update holds o (holds' o)) used := by
    refine h.drop (fun u => ?_) fun _ hx => hx
    by_cases hu : u = o
    · subst hu
      rw [Function.update_self]
      exact ((List.sublist_cons_self a _).subperm).trans hfrom.symm.subperm
    · rw [Function.update_of_ne hu]
  refine hmid.gain (?_) (h.made ha) (o := p) ?_ ?_
  · intro u hu
    by_cases huo : u = o
    · subst huo
      rw [Function.update_self] at hu
      exact (List.nodup_cons.1 (hfrom.nodup_iff.1 (h.nodup u))).1 hu
    · rw [Function.update_of_ne huo] at hu
      exact huo (h.owner hu ha)
  · rwa [Function.update_of_ne hne.symm]
  · intro u hu
    by_cases huo : u = o
    · rw [huo, Function.update_self]
    · rw [Function.update_of_ne huo, hrest u huo hu]

end Ownership
