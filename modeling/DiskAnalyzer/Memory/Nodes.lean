import DiskAnalyzer.Memory.Removal
import DiskAnalyzer.Memory.Threads
import DiskAnalyzer.Contents

/-!
# Nodes that are still in use

A node goes into a treap while the caller keeps its record, or the word that points to it. Such a
node is a hole: its content is `none`, and what it would own is owned beside the treap (`withHole`).
Insertion and extraction do not look at the contents, so they treat a hole like any node, and when
its content is given back (`fill`) the treap is the one of the model.
-/

namespace DiskAnalyzer.Memory

open Sep Treap Assertion

variable {α β : Type} {P F : Owned}

/-! ## Holes -/

section Holes

variable (R : α → Addr → Owned)

/-- A treap with the same nodes. -/
theorem treapIn_map {γ : Type} (f : γ → α) (t : Treap γ) (c : Addr) :
    treapIn R (t.map fun _ a => f a) c = treapIn (fun a => R (f a)) t c := by
  induction t generalizing c with
  | nil => rw [map_nil, treapIn_nil, treapIn_nil]
  | node i h a l r ihl ihr =>
    rw [map_node, treapIn_node, treapIn_node]
    simp only [ihl, ihr, nodeAt]

/-- What comes with a node, unless it is the one whose word `hole` is owned elsewhere. -/
def withHole (hole : Addr) : Option α → Addr → Owned
  | some a, c => R a c
  | none, c => ⨆ _ : c = hole, 1

/-- The number of nodes whose content is elsewhere. -/
def holes : Treap (Option α) → Nat
  | nil => 0
  | node _ _ o l r => holes l + holes r + if o = none then 1 else 0

variable {R} in
/-- **The contents are given back.** `M` is what comes with a node meanwhile, `X` what makes a node
without content one with `b`. -/
theorem fill {M : Option α → Addr → Owned} {X : Owned} {b : α} (hsome : ∀ a c, M (some a) c ≤ R a c)
    (hnone : ∀ c, M none c * X ≤ R b c) (t : Treap (Option α)) (c : Addr) :
    treapIn M t c * X ^ holes t ≤ treapIn R (t.map fun _ o => o.getD b) c := by
  induction t generalizing c with
  | nil => simp [holes]
  | node i h o l r ihl ihr =>
    rw [map_node, treapIn_node, treapIn_node, iSup_mul]
    refine iSup_mono fun q => ?_
    have hnode : nodeAt M i h o q * X ^ (if o = none then 1 else 0) ≤
        nodeAt R i h (o.getD b) q := by
      cases o with
      | some a =>
        rw [if_neg (by simp), pow_zero, mul_one]
        exact mul_le_mul' le_rfl (hsome a _)
      | none =>
        rw [if_pos rfl, pow_one]
        exact (mul_assoc _ _ _).le.trans (mul_le_mul' le_rfl (hnone _))
    rw [holes, pow_add, pow_add]
    calc _ = cell c (.ptr (some q)) * (nodeAt M i h o q * X ^ (if o = none then 1 else 0) *
            (treapIn M l (chldLeft q) * X ^ holes l) *
            (treapIn M r (chldRight q) * X ^ holes r)) := by ac_rfl
      _ ≤ _ := mul_le_mul' le_rfl
        (mul_le_mul' (mul_le_mul' hnode (ihl _)) (ihr _))

/-- The word of a hole is elsewhere. -/
theorem withHole_none (hole : Addr) (a : α) (c : Addr) :
    withHole R hole none c * R a hole ≤ R a c := by
  rw [withHole, iSup_mul]
  refine iSup_le fun hc => ?_
  rw [hc, one_mul]

theorem holes_eq (t : Treap (Option α)) : holes t = t.inorder.countP (·.2.2.isNone) := by
  induction t with
  | nil => rfl
  | node i h o l r ihl ihr =>
    rw [holes, ihl, ihr, inorder_node, List.countP_append, List.countP_cons]
    cases o with
    | none => simp only [if_pos, Option.isNone_none]; omega
    | some a => simp

/-- A node of a treap, taken out. -/
theorem treapIn_lent {t : Treap α} {i h : Int} {a : α} (hm : (i, h, a) ∈ t.inorder) (c : Addr) :
    treapIn R t c ≤ ⨆ q, lent (nodeAt R i h a q) (treapIn R t c) := by
  induction t generalizing c with
  | nil => cases hm
  | node j k b l r ihl ihr =>
    have hopen := treapIn_node R j k b l r c
    rw [inorder_node, List.mem_append, List.mem_cons] at hm
    rcases hm with hm | hm | hm
    · refine hopen.le.trans (iSup_le fun q => ?_)
      refine le_trans (le_of_eq ?_) ((mul_le_mul' (ihl hm (chldLeft q)) le_rfl).trans
        (le_of_eq (iSup_mul _ (cell c (.ptr (some q)) *
          (nodeAt R j k b q * treapIn R r (chldRight q))))) |>.trans ?_)
      · ac_rfl
      · exact iSup_mono fun q' => lent_mul_le (fill_left _)
    · obtain ⟨rfl, rfl, rfl⟩ : i = j ∧ h = k ∧ a = b := by simpa using hm
      refine hopen.le.trans (iSup_mono fun q => ?_)
      have hput : nodeAt R i h a q * (cell c (.ptr (some q)) *
          (treapIn R l (chldLeft q) * treapIn R r (chldRight q))) ≤ treapIn R (node i h a l r) c := by
        rw [hopen]
        exact le_iSup_of_le q (le_of_eq (by ac_rfl))
      exact le_trans (le_of_eq (by ac_rfl)) (le_lent hput)
    · refine hopen.le.trans (iSup_le fun q => ?_)
      refine le_trans (le_of_eq ?_) ((mul_le_mul' (ihr hm (chldRight q)) le_rfl).trans
        (le_of_eq (iSup_mul _ (cell c (.ptr (some q)) *
          (nodeAt R j k b q * treapIn R l (chldLeft q))))) |>.trans ?_)
      · ac_rfl
      · exact iSup_mono fun q' => lent_mul_le (fill_right _)

end Holes

/-! ## Parked nodes -/

section Parked

/-- A detached node of which the pointer still points somewhere. -/
def detached (id h : Int) (v : Word) (q : Addr) : Owned :=
  head q 5 * cell (idOf q) (int id) * cell (heapVal q) (int h) * cell (analOf q) v *
    cell (chldLeft q) (.ptr none) * cell (chldRight q) (.ptr none)

instance (id h : Int) (v : Word) (q : Addr) [hF : Frame P (head q 5 * cell (idOf q) (int id) *
    cell (heapVal q) (int h) * cell (analOf q) v * cell (chldLeft q) (.ptr none) *
      cell (chldRight q) (.ptr none)) F] : Frame P (detached id h v q) F :=
  ⟨by rw [detached]; exact hF.eq⟩

/-- A treap with one more node, of which the content is elsewhere. -/
def parked (t : Treap α) (id h : Int) : Treap (Option α) :=
  DiskAnalyzer.treapInsertNode (t.map fun _ a => some a) (node id h none nil nil)

theorem parked_map (t : Treap α) (id h : Int) (a : α) :
    ((parked t id h).map fun _ o => o.getD a) =
      DiskAnalyzer.treapInsertNode t (node id h a nil nil) := by
  have hins := insertNode_map (fun _ o => o.getD a) (t.map fun _ a => some a) id h none
  rw [map_map] at hins
  simp only [Option.getD_some, Option.getD_none, map_self] at hins
  exact hins.symm

theorem isNone_countP (t : Treap α) :
    (t.map fun _ a => some a).inorder.countP (·.2.2.isNone) = 0 := by
  rw [List.countP_eq_zero, inorder_map]
  intro e he
  obtain ⟨e', -, rfl⟩ := List.mem_map.1 he
  simp

theorem holes_parked (t : Treap α) (id h : Int) : holes (parked t id h) = 1 := by
  rw [holes_eq, parked, (perm_insertNode _ id h none).countP_eq, List.countP_cons, isNone_countP]
  rfl

theorem mem_parked (t : Treap α) (id h : Int) : (id, h, none) ∈ (parked t id h).inorder := by
  rw [parked, mem_inorder_insertNode]
  exact Or.inl rfl

theorem ordered_parked {t : Treap α} (ho : t.Ordered) {id : Int} (hid : id ∉ t.ids) (h : Int) :
    (parked t id h).Ordered :=
  ordered_insertNode ((ordered_map _).2 ho) (by rwa [ids_map]) h none

/-- A parked node that is taken out again leaves no hole. -/
theorem extract_parked {t : Treap α} (ho : t.Ordered) {id : Int} (hid : id ∉ t.ids) (h : Int) :
    (DiskAnalyzer.treapExtract (parked t id h) id).1 = node id h none nil nil ∧
      holes (DiskAnalyzer.treapExtract (parked t id h) id).2 = 0 := by
  have hord := ordered_parked ho hid h
  refine ⟨(extract_of_mem hord (mem_parked t id h)).1, ?_⟩
  rw [holes_eq, List.countP_eq_zero]
  intro e he
  obtain ⟨hmem, hne⟩ := (mem_inorder_extract hord).1 he
  rw [parked, mem_inorder_insertNode, inorder_map] at hmem
  rcases hmem with rfl | hmem
  · exact absurd rfl hne
  · obtain ⟨e', -, rfl⟩ := List.mem_map.1 hmem
    simp

variable (S : α → Ptr → Owned)

/-- **A node is put in, its pointer kept.** -/
theorem park_spec (id h : Int) (v : Word) (q : Addr) (t : Treap α) (trp : Addr) {fuel : Nat}
    (hfuel : t.size < fuel) :
    Triple (treapIn (held S) t trp * detached id h v q) (treapInsertNode fuel trp (some q))
      fun _ => treapIn (withHole (held S) (analOf q)) (parked t id h) trp * cell (analOf q) v := by
  have hins := treapInsertNode_spec (R := withHole (held S) (analOf q)) id h none nil nil (some q)
    (t.map fun _ a => some a) fuel trp (by rwa [size_map])
  have hsame : (fun a => withHole (held S) (analOf q) (some a)) = held S := rfl
  rw [treapIn_map, hsame, treapAt_some, treapIn_nil, treapIn_nil, nodeAt] at hins
  simp only [withHole, iSup_pos, mul_one] at hins
  refine Triple.pre (hins.frame (cell (analOf q) v)) (le_of_eq ?_)
  rw [detached]
  ac_rfl

theorem analOf_inj {p q : Addr} : analOf p = analOf q ↔ p = q := by
  cases p
  cases q
  simp [analOf, Addr.add]

/-- The node that was put in is in the treap. -/
theorem parked_lent (id h : Int) (q : Addr) (t : Treap α) (trp : Addr) :
    treapIn (withHole (held S) (analOf q)) (parked t id h) trp ≤
      lent (nodeAt (withHole (held S) (analOf q)) id h none q)
        (treapIn (withHole (held S) (analOf q)) (parked t id h) trp) := by
  refine (treapIn_lent _ (mem_parked t id h) trp).trans (iSup_le fun q' => ?_)
  by_cases hq : q' = q
  · rw [hq]
  · have hne : analOf q' ≠ analOf q := fun he => hq (analOf_inj.1 he)
    have hbot : nodeAt (withHole (held S) (analOf q)) id h none q' = ⊥ := by
      simp [nodeAt, withHole, hne]
    simp [lent, hbot]

/-- The id of a parked node. -/
theorem loadParked_spec (id h : Int) (q : Addr) (t : Treap α) (trp : Addr) {k : Int → Code β}
    {Q : β → Owned} [hF : Frame P (treapIn (withHole (held S) (analOf q)) (parked t id h) trp) F]
    (hk : Triple (treapIn (withHole (held S) (analOf q)) (parked t id h) trp * F) (k id) Q) :
    Triple P (loadInt (idOf q) >>= k) Q := by
  rw [hF.eq]
  refine Triple.pre ?_ (mul_le_mul' (parked_lent S id h q t trp) le_rfl)
  simp only [lent, iSup_mul, Triple.iSup_iff]
  intro K hK
  have hback : nodeAt (withHole (held S) (analOf q)) id h none q * K * F ≤
      treapIn (withHole (held S) (analOf q)) (parked t id h) trp * F := mul_le_mul' hK le_rfl
  rw [nodeAt] at hback ⊢
  refine loadInt_spec ?_
  exact hk.pre (le_trans (le_of_eq (by ac_rfl)) hback)

/-- The parked node's content is given back. -/
theorem unpark (id h : Int) (a : α) (q : Addr) (t : Treap α) (trp : Addr) :
    treapIn (withHole (held S) (analOf q)) (parked t id h) trp * held S a (analOf q) ≤
      treapIn (held S) (DiskAnalyzer.treapInsertNode t (node id h a nil nil)) trp := by
  have h := fill (M := withHole (held S) (analOf q)) (fun _ _ => le_rfl)
    (withHole_none (held S) (analOf q) a) (parked t id h) trp
  rwa [holes_parked, pow_one, parked_map] at h

/-- **The parked node is taken out again**, and is the caller's. -/
theorem takeBack_spec {t : Treap α} (ho : t.Ordered) {id : Int} (hid : id ∉ t.ids) (h : Int) (a : α)
    (v : Word) (q trp : Addr) {fuel : Nat} (hfuel : t.size + 1 < fuel) :
    Triple (treapIn (withHole (held S) (analOf q)) (parked t id h) trp * cell (analOf q) v)
      (treapExtract fuel trp id) fun ret => ⨆ _ : ret = some q, treapIn (held S)
        (DiskAnalyzer.treapExtract (DiskAnalyzer.treapInsertNode t (node id h a nil nil)) id).2 trp *
          detached id h v q := by
  have hsize : (parked t id h).size < fuel := by
    rw [parked, size_insertNode, size_map]
    exact hfuel
  have hmap := extract_map (fun _ o => o.getD a) id (parked t id h)
  rw [parked_map] at hmap
  obtain ⟨hnode, hnone⟩ := extract_parked ho hid h
  have hfill := fill (M := withHole (held S) (analOf q)) (fun _ _ => le_rfl)
    (withHole_none (held S) (analOf q) a) (DiskAnalyzer.treapExtract (parked t id h) id).2 trp
  rw [hnone, pow_zero, mul_one] at hfill
  have hextract := treapExtract_spec (R := withHole (held S) (analOf q)) id fuel (parked t id h) trp
    hsize
  refine (hextract.frame (cell (analOf q) v)).post fun ret => ?_
  rw [hnode, treapAt_node, hmap]
  simp only [treapIn_nil, nodeAt, withHole, iSup_mul, mul_iSup]
  refine iSup_le fun q' => iSup_le fun hret => iSup_le fun hq => ?_
  obtain rfl := analOf_inj.1 hq
  refine le_iSup_of_le hret (le_trans (le_of_eq ?_) (mul_le_mul' hfill le_rfl))
  rw [detached]
  ac_rfl

end Parked

end DiskAnalyzer.Memory
