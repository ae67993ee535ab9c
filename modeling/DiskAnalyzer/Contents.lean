import DiskAnalyzer.ThreadsProof

/-!
# Treaps with other contents

No operation on a treap looks at what its nodes point to, so each commutes with a change of the
contents (`insertNode_map`, `extract_map`). A change of one record is such a change
(`modify_eq_map`), where the ids are in order.
-/

namespace DiskAnalyzer

namespace Treap

variable {α β : Type}

/-- The same treap with other contents. -/
def map (g : Int → α → β) : Treap α → Treap β
  | nil => nil
  | node i h a l r => node i h (g i a) (l.map g) (r.map g)

variable (g : Int → α → β)

@[simp] theorem map_nil : (nil : Treap α).map g = nil := rfl

@[simp] theorem map_node (i h : Int) (a : α) (l r : Treap α) :
    (node i h a l r).map g = node i h (g i a) (l.map g) (r.map g) := rfl

theorem lighter_map (h : Int) (t : Treap α) : lighter h (t.map g) = lighter h t := by
  cases t <;> rfl

theorem swingLeft_map (t : Treap α) : swingLeft (t.map g) = (swingLeft t).map g := by
  cases t with
  | nil => rfl
  | node i h a l r => cases l <;> rfl

theorem swingRight_map (t : Treap α) : swingRight (t.map g) = (swingRight t).map g := by
  cases t with
  | nil => rfl
  | node i h a l r => cases r <;> rfl

theorem swing_map (t : Treap α) : swing (t.map g) = (swing t).map g := by
  cases t with
  | nil => rfl
  | node i h a l r =>
    have hl := swingLeft_map g (node i h a l r)
    have hr := swingRight_map g (node i h a l r)
    simp only [map_node] at hl hr
    simp only [map_node, swing, lighter_map]
    split_ifs
    · exact hl
    · exact hr
    · rfl

theorem insertNode_map (t : Treap α) (j k : Int) (b : α) :
    treapInsertNode (t.map g) (node j k (g j b) nil nil) =
      (treapInsertNode t (node j k b nil nil)).map g := by
  induction t with
  | nil => rfl
  | node i h a l r ihl ihr =>
    simp only [map_node, treapInsertNode, ihl, ihr]
    split_ifs <;> rw [← swing_map] <;> rfl

theorem unlink_map (t : Treap α) :
    unlink (t.map g) = ((unlink t).1.map g, (unlink t).2.map g) := by
  cases t with
  | nil => rfl
  | node i h a l r =>
    cases l with
    | nil => rfl
    | node j k b jl jr =>
      cases r with
      | nil => rfl
      | node j' k' b' jl' jr' =>
        simp only [map_node, unlink]
        split_ifs <;> rfl

@[simp] theorem size_map (t : Treap α) : (t.map g).size = t.size := by
  induction t with
  | nil => rfl
  | node i h a l r ihl ihr => simp only [map_node, size_node, ihl, ihr]

theorem extract_map (id : Int) (t : Treap α) :
    treapExtract (t.map g) id = ((treapExtract t id).1.map g, (treapExtract t id).2.map g) := by
  induction hn : t.size using Nat.strong_induction_on generalizing t with
  | _ n ih =>
    have hdescend : ∀ s : Treap α, s.size ≤ n →
        descend id (s.map g) = ((descend id s).1.map g, (descend id s).2.map g) := by
      intro s hs
      cases s with
      | nil => rfl
      | node i h a l r =>
        rw [size_node] at hs
        simp only [map_node, descend_node, ih l.size (by omega) l rfl, ih r.size (by omega) r rfl]
        split_ifs <;> rfl
    cases t with
    | nil => simp
    | node i h a l r =>
      by_cases hi : i = id
      · subst hi
        have hun := unlink_map g (node i h a l r)
        have hle := size_unlink_snd (node i h a l r)
        simp only [map_node] at hun ⊢
        rw [extract_self, extract_self, hun]
        rcases hu : unlink (node i h a l r) with ⟨_ | ⟨j, k, b, jl, jr⟩, t'⟩
        · rw [hu] at hle
          exact hdescend t' (by simp only at hle; omega)
        · rfl
      · simp only [map_node]
        rw [extract_of_ne hi, extract_of_ne hi]
        exact hdescend (node i h a l r) (by omega)

theorem inorder_map (t : Treap α) :
    (t.map g).inorder = t.inorder.map fun e => (e.1, e.2.1, g e.1 e.2.2) := by
  induction t with
  | nil => rfl
  | node i h a l r ihl ihr => simp [ihl, ihr]

@[simp] theorem ids_map (t : Treap α) : (t.map g).ids = t.ids := by
  rw [ids, inorder_map, List.map_map, ids]
  rfl

theorem ordered_map {t : Treap α} : (t.map g).Ordered ↔ t.Ordered := by
  rw [Ordered, Ordered, ids_map]

theorem map_congr {t : Treap α} {f g : Int → α → β}
    (h : ∀ e ∈ t.inorder, f e.1 e.2.2 = g e.1 e.2.2) : t.map f = t.map g := by
  induction t with
  | nil => rfl
  | node i k a l r ihl ihr =>
    simp only [inorder_node, List.mem_append, List.mem_cons] at h
    rw [map_node, map_node, ihl fun e he => h e (Or.inl he), ihr fun e he => h e (Or.inr (Or.inr he)),
      h (i, k, a) (Or.inr (Or.inl rfl))]

theorem map_self (t : Treap α) : (t.map fun _ a => a) = t := by
  induction t with
  | nil => rfl
  | node i h a l r ihl ihr => rw [map_node, ihl, ihr]

theorem map_map {γ : Type} (g : Int → α → β) (g' : Int → β → γ) (t : Treap α) :
    (t.map g).map g' = t.map fun i a => g' i (g i a) := by
  induction t with
  | nil => rfl
  | node i h a l r ihl ihr => rw [map_node, map_node, map_node, ihl, ihr]

/-- Writing through the pointer `treap_find` stores changes the record with the id. -/
theorem modify_eq_map {t : Treap α} (ho : t.Ordered) (id : Int) (f : α → α) :
    t.modify id f = t.map fun i a => if i = id then f a else a := by
  have hsame : ∀ s : Treap α, (∀ x ∈ s.ids, x ≠ id) →
      (s.map fun i a => if i = id then f a else a) = s := by
    intro s hs
    rw [map_congr (g := fun _ a => a) fun e he => if_neg (hs e.1 (mem_ids_of_mem he)), map_self]
  induction t with
  | nil => rfl
  | node i h a l r ihl ihr =>
    obtain ⟨hl, hr, hli, hir⟩ := ordered_node.1 ho
    rw [modify, map_node]
    by_cases hi : i = id
    · subst hi
      rw [if_pos rfl, if_pos rfl, hsame l fun x hx => (hli x hx).ne,
        hsame r fun x hx => (hir x hx).ne']
    · rw [if_neg hi, if_neg hi]
      by_cases hlt : i < id
      · rw [if_pos hlt, ihr hr, hsame l fun x hx => ((hli x hx).trans hlt).ne]
      · rw [if_neg hlt, ihl hl, hsame r fun x hx => by have := hir x hx; omega]

/-- Changing the record of a node just put in is putting it in changed. -/
theorem modify_insertNode {t : Treap α} (ho : t.Ordered) {id : Int} (hid : id ∉ t.ids) (h : Int)
    (a : α) (f : α → α) : (treapInsertNode t (node id h a nil nil)).modify id f =
      treapInsertNode t (node id h (f a) nil nil) := by
  have hkeep : (t.map fun i b => if i = id then f b else b) = t := by
    rw [map_congr (g := fun _ b => b) fun e he => if_neg fun heq : e.1 = id =>
      hid (heq ▸ mem_ids_of_mem he), map_self]
  have hins := insertNode_map (fun i b => if i = id then f b else b) t id h a
  rw [modify_eq_map (ordered_insertNode ho hid h a), ← hins, hkeep, if_pos rfl]

/-- Where a lookup finds `a`, only `a` is changed. -/
theorem modify_of_find {t : Treap α} {id : Int} {a : α} (hf : treapFind t id = some a) (f : α → α) :
    t.modify id f = t.modify id fun _ => f a := by
  induction t with
  | nil => rfl
  | node i h b l r ihl ihr =>
    rw [treapFind] at hf
    rw [modify, modify]
    by_cases hi : i = id
    · rw [if_pos hi] at hf
      rw [if_pos hi, if_pos hi, Option.some.inj hf]
    rw [if_neg hi] at hf
    rw [if_neg hi, if_neg hi]
    by_cases hlt : i < id
    · rw [if_pos hlt] at hf
      rw [if_pos hlt, if_pos hlt, ihr hf]
    · rw [if_neg hlt] at hf
      rw [if_neg hlt, if_neg hlt, ihl hf]

theorem modify_self (t : Treap α) (id : Int) : (t.modify id fun a => a) = t := by
  induction t with
  | nil => rfl
  | node i h b l r ihl ihr => simp only [modify, ihl, ihr, ite_self]

end Treap

end DiskAnalyzer
