import Mathlib.Logic.Function.Basic

/-!
# A store and an index on one of its columns

A store maps ids to records, and an index maps a key of the records back to their ids. The index
is in step with the store (`Indexes`) when its entries are exactly the pairs of a stored record's
key and its id. Two records then never share a key. An index may be searchable for some keys only;
its answers for the others are nobody's business.

* `Indexes.insert`, `Indexes.erase`, `Indexes.replace`: the updates of the pair.
* `Indexes.congr`: an index counts as what it answers.
-/

namespace Index

variable {ι κ α : Type*} {valid : κ → Prop} {key : α → κ} {store : ι → Option α}
  {index : κ → Option ι}

/-- The index has the entries of the store, and no others. -/
def Indexes (valid : κ → Prop) (key : α → κ) (store : ι → Option α) (index : κ → Option ι) :
    Prop :=
  ∀ k, valid k → ∀ i, index k = some i ↔ ∃ a, store i = some a ∧ key a = k

theorem Indexes.congr (h : Indexes valid key store index) {index' : κ → Option ι}
    (hindex : ∀ k, valid k → index' k = index k) : Indexes valid key store index' := by
  intro k hk i
  rw [hindex k hk, h k hk]

/-- A stored record is what its key leads to. -/
theorem Indexes.index_key (h : Indexes valid key store index) {i : ι} {a : α}
    (ha : store i = some a) (hk : valid (key a)) : index (key a) = some i :=
  (h _ hk i).2 ⟨a, ha, rfl⟩

/-- Records with the same key are one record. -/
theorem Indexes.unique (h : Indexes valid key store index) {i j : ι} {a b : α}
    (ha : store i = some a) (hb : store j = some b) (hk : valid (key a)) (heq : key a = key b) :
    i = j := by
  have hi := h.index_key ha hk
  have hj := h.index_key hb (heq ▸ hk)
  rw [heq] at hi
  exact Option.some.inj (hi.symm.trans hj)

variable [DecidableEq ι]

/-- Writing a record that keeps its key. -/
theorem Indexes.replace (h : Indexes valid key store index) {i : ι} {a b : α}
    (hi : store i = some a) (hkey : key b = key a) :
    Indexes valid key (Function.update store i (some b)) index := by
  intro k hvalid j
  rw [h k hvalid j]
  by_cases hj : j = i
  · subst hj
    simp [hi, hkey]
  · rw [Function.update_of_ne hj]

variable [DecidableEq κ]

/-- A record with a new id and a new key. -/
theorem Indexes.insert (h : Indexes valid key store index) {i : ι} {a : α} (hi : store i = none)
    (hk : index (key a) = none) :
    Indexes valid key (Function.update store i (some a))
      (Function.update index (key a) (some i)) := by
  intro k hvalid j
  by_cases hj : j = i
  · subst hj
    by_cases hkey : k = key a
    · simp [hkey]
    · have hnot : index k ≠ some j := by
        intro hsome
        obtain ⟨b, hb, -⟩ := (h k hvalid j).1 hsome
        rw [hi] at hb
        exact absurd hb (by simp)
      simp [Function.update_of_ne hkey, hnot, Ne.symm hkey]
  · by_cases hkey : k = key a
    · subst hkey
      have hnot := h (key a) hvalid j
      rw [hk] at hnot
      simp only [Function.update_self, Function.update_of_ne hj, Option.some.injEq, ← hnot]
      simp [Ne.symm hj]
    · rw [Function.update_of_ne hkey, Function.update_of_ne hj]
      exact h k hvalid j

/-- Taking out a record and the entry of its key. -/
theorem Indexes.erase (h : Indexes valid key store index) {i : ι} {a : α} (hi : store i = some a)
    (hk : valid (key a)) :
    Indexes valid key (Function.update store i none) (Function.update index (key a) none) := by
  intro k hvalid j
  by_cases hj : j = i
  · subst hj
    by_cases hkey : k = key a
    · simp [hkey]
    · have hnot : index k ≠ some j := by
        intro hsome
        obtain ⟨b, hb, hbk⟩ := (h k hvalid j).1 hsome
        obtain rfl := Option.some.inj (hi.symm.trans hb)
        exact hkey hbk.symm
      simp [Function.update_of_ne hkey, hnot]
  · rw [Function.update_of_ne hj]
    by_cases hkey : k = key a
    · subst hkey
      have hnot : ¬ ∃ b, store j = some b ∧ key b = key a := by
        rintro ⟨b, hb, hbk⟩
        exact hj (h.unique hi hb hk hbk.symm).symm
      simp [hnot]
    · rw [Function.update_of_ne hkey]
      exact h k hvalid j

end Index
