import DiskAnalyzer.Memory.Nodes

/-!
# `get_free_id` and `return_id` on the memory
-/

namespace DiskAnalyzer.Memory

open Sep Treap Assertion

variable {P F : Owned}

theorem nullAt_none (a : Unit) : nullAt a none = 1 := by simp [nullAt]

theorem fits_null : Fits (held nullAt) 1 none () := by
  have h := fits_held nullAt () none
  rwa [nullAt_none] at h

/-- A node of the free ids that has been taken out. -/
theorem freeAt_node (id h : Int) (q : Addr) :
    treapAt (held nullAt) (node id h () nil nil) (some q) = head q 5 * cell (idOf q) (int id) *
      cell (heapVal q) (int h) * cell (analOf q) (.ptr none) * cell (chldLeft q) (.ptr none) *
        cell (chldRight q) (.ptr none) := by
  rw [treapAt_some, treapIn_nil, treapIn_nil, nodeAt, held]
  simp only [nullAt, mul_iSup, mul_one, iSup_iSup_eq_left]

/-- What `get_free_id` leaves: the node and the free ids of the model, with a successor made or
not. -/
def takenOut (rand : Int) (t : Treap Unit) (trp : Addr) (ret : Ptr) : Owned :=
  ⨆ made : Option Int, ⨆ _ : made = none ∨ made = some rand,
    treapAt (held nullAt) (DiskAnalyzer.getFreeId made () t).1 ret *
      treapIn (held nullAt) (DiskAnalyzer.getFreeId made () t).2 trp

/-- **`get_free_id`** takes out the node the model takes out. -/
theorem getFreeId_spec (rand : Int) (t : Treap Unit) (trp : Addr) {fuel : Nat}
    (hfuel : t.size + 1 < fuel) :
    Triple (treapIn (held nullAt) t trp) (getFreeId fuel trp rand) (takenOut rand t trp) := by
  have hextract (made : Option Int) (hmade : made = none ∨ made = some rand) {s : Treap Unit}
      {id : Int} (hs : s.size < fuel) (heq : DiskAnalyzer.getFreeId made () t =
        DiskAnalyzer.treapExtract s id) :
      Triple (treapIn (held nullAt) s trp) (treapExtract fuel trp id) (takenOut rand t trp) := by
    refine (treapExtract_spec id fuel s trp hs).post fun ret => ?_
    refine le_iSup_of_le made (le_iSup_of_le hmade ?_)
    rw [heq]
  unfold getFreeId
  cases t with
  | nil =>
    rw [treapIn_nil]
    refine .loadPtr ?_
    refine .ret (le_iSup_of_le none (le_iSup_of_le (Or.inl rfl) ?_))
    simp [DiskAnalyzer.getFreeId, treapAt]
  | node id h a l r =>
    rw [treapIn_node, Triple.iSup_iff]
    intro q
    have hback : cell trp (.ptr (some q)) * (nodeAt (held nullAt) id h a q *
        treapIn (held nullAt) l (chldLeft q) * treapIn (held nullAt) r (chldRight q)) ≤
        treapIn (held nullAt) (node id h a l r) trp := by
      rw [treapIn_node]
      exact le_iSup_of_le q le_rfl
    refine .loadPtr ?_
    cases r with
    | node j k b jl jr =>
      rw [treapIn_node _ j k b jl jr (chldRight q)] at hback ⊢
      simp only [mul_iSup, iSup_le_iff, Triple.iSup_iff] at hback ⊢
      intro q'
      refine .loadPtr ?_
      refine loadInt_spec ?_
      exact (hextract none (Or.inl rfl) (by omega) rfl).pre (hback q')
    | nil =>
      rw [treapIn_nil] at hback ⊢
      refine .loadPtr ?_
      cases l with
      | node j k b jl jr =>
        rw [treapIn_node _ j k b jl jr (chldLeft q)] at hback ⊢
        simp only [mul_iSup, iSup_mul, iSup_le_iff, Triple.iSup_iff] at hback ⊢
        intro q'
        refine .loadPtr ?_
        refine loadInt_spec ?_
        exact (hextract none (Or.inl rfl) (by omega) rfl).pre (hback q')
      | nil =>
        rw [treapIn_nil] at hback ⊢
        refine .loadPtr ?_
        refine loadInt_spec ?_
        by_cases hlt : id < ID_MAX
        · rw [if_pos hlt]
          have hins := (treapInsertNew_grown fits_null (id + 1) rand (node id h a nil nil) fuel trp
            (by omega)).pre (mul_le_mul' hback le_rfl)
          rw [mul_one] at hins
          refine .bind hins fun ret => ?_
          simp only [grown, Triple.sup_iff, Triple.iSup_iff]
          constructor
          · rintro rfl
            rw [if_pos one_ne_zero]
            refine .ret (le_iSup_of_le none (le_iSup_of_le (Or.inl rfl) ?_))
            simp [DiskAnalyzer.getFreeId, hlt, insertNew_eq, treapAt]
          · rintro rfl
            rw [if_neg (by simp)]
            refine hextract (some rand) (Or.inr rfl) ?_ ?_
            · rw [size_insertNode]
              exact hfuel
            · simp [DiskAnalyzer.getFreeId, hlt, insertNew_eq]
        · rw [if_neg hlt, pure_bind, if_neg (by simp)]
          exact (hextract none (Or.inl rfl) (by omega)
            (by simp [DiskAnalyzer.getFreeId, hlt])).pre hback

theorem size_extract_le {α : Type} (t : Treap α) (id : Int) :
    (DiskAnalyzer.treapExtract t id).2.size ≤ t.size := by
  rw [← remove_snd]
  exact size_remove_le t id

theorem size_getFreeId_le (rand : Option Int) (t : Treap Unit) :
    (DiskAnalyzer.getFreeId rand () t).2.size ≤ t.size + 1 := by
  have hle (s : Treap Unit) (id : Int) (hs : s.size ≤ t.size + 1) :
      (DiskAnalyzer.treapExtract s id).2.size ≤ t.size + 1 := (size_extract_le s id).trans hs
  match t with
  | nil => exact Nat.zero_le _
  | node id h a nil nil =>
    by_cases hlt : id < ID_MAX
    · cases rand with
      | none => simp [DiskAnalyzer.getFreeId, hlt, insertNew_eq]
      | some k =>
        simp only [DiskAnalyzer.getFreeId, hlt, insertNew_eq, if_true, Option.map_some]
        exact hle _ id (size_insertNode _ _ _ _).le
    · simp only [DiskAnalyzer.getFreeId, hlt, if_false]
      exact hle _ id (Nat.le_succ _)
  | node id h a (node j k b jl jr) nil => exact hle _ j (Nat.le_succ _)
  | node id h a l (node j k b jl jr) => exact hle _ id (Nat.le_succ _)

/-- There is one node. -/
def Alone : Treap Unit → Bool
  | node _ _ _ nil nil => true
  | _ => false

theorem lone_spec (t : Treap Unit) (trp : Addr) :
    Triple (treapIn (held nullAt) t trp) (lone trp) fun ret =>
      ⨆ _ : ret = Alone t, treapIn (held nullAt) t trp := by
  unfold lone
  cases t with
  | nil =>
    rw [treapIn_nil]
    refine .loadPtr ?_
    exact .ret (le_iSup_of_le rfl le_rfl)
  | node id h a l r =>
    rw [treapIn_node, Triple.iSup_iff]
    intro q
    have hback : cell trp (.ptr (some q)) * (nodeAt (held nullAt) id h a q *
        treapIn (held nullAt) l (chldLeft q) * treapIn (held nullAt) r (chldRight q)) ≤
        treapIn (held nullAt) (node id h a l r) trp := by
      rw [treapIn_node]
      exact le_iSup_of_le q le_rfl
    rw [← treapIn_node]
    refine .loadPtr ?_
    cases l with
    | node j k b jl jr =>
      rw [treapIn_node _ j k b jl jr (chldLeft q)] at hback ⊢
      simp only [mul_iSup, iSup_mul, iSup_le_iff, Triple.iSup_iff] at hback ⊢
      intro q'
      refine .loadPtr ?_
      exact .ret (le_iSup_of_le rfl (hback q'))
    | nil =>
      rw [treapIn_nil] at hback ⊢
      refine .loadPtr ?_
      cases r with
      | nil =>
        rw [treapIn_nil] at hback ⊢
        refine .loadPtr ?_
        exact .ret (le_iSup_of_le rfl hback)
      | node j k b jl jr =>
        rw [treapIn_node _ j k b jl jr (chldRight q)] at hback ⊢
        simp only [mul_iSup, iSup_le_iff, Triple.iSup_iff] at hback ⊢
        intro q'
        refine .loadPtr ?_
        exact .ret (le_iSup_of_le rfl (hback q'))

/-- The first statement of `return_id`. -/
def cleared (t : Treap Unit) : Treap Unit :=
  match t with
  | node id h a nil nil => (DiskAnalyzer.treapRemove (node id h a nil nil) id).2
  | t => t

theorem returnId_eq (t nd : Treap Unit) :
    DiskAnalyzer.returnId t nd = DiskAnalyzer.treapInsertNode (cleared t) nd := by
  match t with
  | nil => rfl
  | node id h a nil nil => rfl
  | node id h a nil (node _ _ _ _ _) => rfl
  | node id h a (node _ _ _ _ _) r => rfl

theorem size_cleared_le (t : Treap Unit) : (cleared t).size ≤ t.size := by
  unfold cleared
  split
  · exact size_remove_le _ _
  · exact le_rfl

theorem size_returnId_le (t : Treap Unit) (id h : Int) :
    (DiskAnalyzer.returnId t (node id h () nil nil)).size ≤ t.size + 1 := by
  rw [returnId_eq, size_insertNode]
  exact Nat.succ_le_succ (size_cleared_le t)

theorem cleared_spec (t : Treap Unit) (trp : Addr) {fuel : Nat} (hfuel : t.size < fuel) :
    Triple (treapIn (held nullAt) t trp) (if Alone t then removeRoot fuel trp else pure ())
      fun _ => treapIn (held nullAt) (cleared t) trp := by
  match t with
  | nil => exact .ret le_rfl
  | node id h a nil (node _ _ _ _ _) => exact .ret le_rfl
  | node id h a (node _ _ _ _ _) r => exact .ret le_rfl
  | node id h a nil nil =>
    rw [Alone, if_pos rfl]
    unfold removeRoot
    have hopen := treapIn_node (held nullAt) id h a nil nil trp
    refine Triple.pre ?_ hopen.le
    rw [Triple.iSup_iff]
    intro q
    refine .loadPtr ?_
    simp only [Triple.deref_some, pure_bind]
    refine loadInt_spec ?_
    refine Triple.pre (.bind (treapRemove_spec freed_nullAt id trp hfuel) fun ret => ?_)
      ((le_iSup _ q).trans hopen.ge)
    rw [Triple.iSup_iff]
    exact fun _ => .ret le_rfl

/-- **`return_id`** gives the id back as the model does, whatever the node points to. -/
theorem returnId_spec (id h : Int) (v : Word) (q : Addr) (t : Treap Unit) (trp : Addr) {fuel : Nat}
    (hfuel : t.size < fuel) :
    Triple (treapIn (held nullAt) t trp * detached id h v q) (returnId fuel trp (some q))
      fun _ => treapIn (held nullAt) (DiskAnalyzer.returnId t (node id h () nil nil)) trp := by
  unfold returnId
  refine .call (lone_spec t trp) fun alone => ?_
  simp only [iSup_mul, Triple.iSup_iff]
  rintro rfl
  refine .call (cleared_spec t trp hfuel) fun _ => ?_
  simp only [Triple.deref_some, pure_bind]
  rw [detached, returnId_eq]
  refine .store ?_
  have hsize := size_cleared_le t
  refine Triple.pre (treapInsertNode_spec id h () nil nil (some q) (cleared t) fuel trp (by omega))
    (le_of_eq ?_)
  rw [freeAt_node]
  ac_rfl

end DiskAnalyzer.Memory
