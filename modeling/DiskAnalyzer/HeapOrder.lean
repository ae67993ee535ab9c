import DiskAnalyzer.TreapProof
import DiskAnalyzer.Lib.Run

/-!
# `treap.c`: the heap order

`heap_val` is there to keep the treap balanced: no node may be heavier than its children
(`HeapOrdered`). The search order does not depend on it, so a violation is seen by no lookup.

**Insertion** keeps the heap order. The new node starts as a leaf, and while the recursion
returns it is swung up as long as its parent is heavier; `Overhangs` says that nothing but the
root of the subtree returned can be lighter than the parent.

**Extraction** at a node with two children swings one of them up and goes on below it. The source
takes the *heavier* child, which then is the parent of the lighter one. `meld` is what is left of
the two subtrees, and `heapOrdered_meld_iff` says when it is in order all the same: when the
values on the right spine of the left subtree, and the root of the right one, are all equal
(`Ties`).
-/

namespace DiskAnalyzer

open Treap

variable {α : Type}

namespace Treap

/-! ## The order -/

/-- A parent of heap value `h` may have this treap as a child. -/
def Under (h : Int) : Treap α → Prop
  | nil => True
  | node _ k _ _ _ => h ≤ k

/-- Every node's `heap_val` is at most those of its children. -/
def HeapOrdered : Treap α → Prop
  | nil => True
  | node _ h _ l r => l.Under h ∧ r.Under h ∧ l.HeapOrdered ∧ r.HeapOrdered

/-- Both children may stand under `h`, whatever the root is. -/
def Overhangs (h : Int) : Treap α → Prop
  | nil => True
  | node _ _ _ l r => l.Under h ∧ r.Under h

@[simp] theorem under_nil (h : Int) : (nil : Treap α).Under h := trivial

@[simp] theorem under_node {h i k : Int} {a : α} {l r : Treap α} :
    (node i k a l r).Under h ↔ h ≤ k := Iff.rfl

@[simp] theorem heapOrdered_nil : (nil : Treap α).HeapOrdered := trivial

@[simp] theorem heapOrdered_node {i h : Int} {a : α} {l r : Treap α} :
    (node i h a l r).HeapOrdered ↔ l.Under h ∧ r.Under h ∧ l.HeapOrdered ∧ r.HeapOrdered := Iff.rfl

@[simp] theorem overhangs_nil (h : Int) : (nil : Treap α).Overhangs h := trivial

@[simp] theorem overhangs_node {h i k : Int} {a : α} {l r : Treap α} :
    (node i k a l r).Overhangs h ↔ l.Under h ∧ r.Under h := Iff.rfl

theorem Under.mono {g h : Int} (hgh : g ≤ h) {t : Treap α} (ht : t.Under h) : t.Under g := by
  cases t with
  | nil => exact trivial
  | node i k a l r => exact le_trans hgh ht

theorem not_lighter_iff {h : Int} {t : Treap α} : lighter h t = false ↔ t.Under h := by
  cases t with
  | nil => simp [lighter]
  | node i k a l r => simp [lighter]

/-- In a heap-ordered treap a bound of the root is a bound of all of it. -/
theorem HeapOrdered.le_of_mem {h : Int} {t : Treap α} (ht : t.HeapOrdered) (hu : t.Under h)
    {e : Int × Int × α} (he : e ∈ t.inorder) : h ≤ e.2.1 := by
  induction t generalizing h with
  | nil => exact absurd he List.not_mem_nil
  | node i k a l r ihl ihr =>
    obtain ⟨hul, hur, hl, hr⟩ := ht
    have hhk : h ≤ k := hu
    simp only [inorder_node, List.mem_append, List.mem_cons] at he
    rcases he with hel | rfl | her
    · exact ihl hl (hul.mono hhk) hel
    · exact hhk
    · exact ihr hr (hur.mono hhk) her

theorem under_of_forall {h : Int} {t : Treap α} (hall : ∀ e ∈ t.inorder, h ≤ e.2.1) :
    t.Under h := by
  cases t with
  | nil => exact trivial
  | node i k a l r => exact hall (i, k, a) (by simp)

/-! ## Insertion -/

/-- A left child that may only overhang is put right by the swing. -/
theorem heapOrdered_swing_left {i h : Int} {a : α} {l r : Treap α} (hl : l.HeapOrdered)
    (hover : l.Overhangs h) (hur : r.Under h) (hr : r.HeapOrdered) :
    (swing (node i h a l r)).HeapOrdered ∧
      ∀ g, g ≤ h → (swing (node i h a l r)).Overhangs g := by
  rw [swing]
  split_ifs with hll hlr
  · cases l with
    | nil => exact absurd hll (by simp [lighter])
    | node j k b jl jr =>
      have hkh : k < h := by simpa [lighter] using hll
      obtain ⟨hujl, hujr, hjl, hjr⟩ := hl
      obtain ⟨hojl, hojr⟩ := hover
      refine ⟨⟨hujl, le_of_lt hkh, hjl, hojr, hur, hjr, hr⟩, ?_⟩
      intro g hgh
      exact ⟨hojl.mono hgh, hgh⟩
  · exact absurd (not_lighter_iff.2 hur) (by simp [hlr])
  · have hul : l.Under h := not_lighter_iff.1 (by simpa using hll)
    refine ⟨⟨hul, hur, hl, hr⟩, ?_⟩
    intro g hgh
    exact ⟨hul.mono hgh, hur.mono hgh⟩

/-- The same for the right child. -/
theorem heapOrdered_swing_right {i h : Int} {a : α} {l r : Treap α} (hr : r.HeapOrdered)
    (hover : r.Overhangs h) (hul : l.Under h) (hl : l.HeapOrdered) :
    (swing (node i h a l r)).HeapOrdered ∧
      ∀ g, g ≤ h → (swing (node i h a l r)).Overhangs g := by
  rw [swing, not_lighter_iff.2 hul]
  simp only [Bool.false_eq_true, if_false]
  split_ifs with hlr
  · cases r with
    | nil => exact absurd hlr (by simp [lighter])
    | node j k b jl jr =>
      have hkh : k < h := by simpa [lighter] using hlr
      obtain ⟨hujl, hujr, hjl, hjr⟩ := hr
      obtain ⟨hojl, hojr⟩ := hover
      refine ⟨⟨le_of_lt hkh, hujr, ⟨hul, hojl, hl, hjl⟩, hjr⟩, ?_⟩
      intro g hgh
      exact ⟨hgh, hojr.mono hgh⟩
  · have hur : r.Under h := not_lighter_iff.1 (by simpa using hlr)
    refine ⟨⟨hul, hur, hl, hr⟩, ?_⟩
    intro g hgh
    exact ⟨hul.mono hgh, hur.mono hgh⟩

/-- One insertion: the order is kept, and only the root of the result may be lighter than what
the treap stood under before. -/
theorem insertNode_overhangs {t : Treap α} (ht : t.HeapOrdered) (j k : Int) (b : α) :
    (treapInsertNode t (node j k b nil nil)).HeapOrdered ∧
      ∀ g, t.Under g → (treapInsertNode t (node j k b nil nil)).Overhangs g := by
  induction t with
  | nil => simp [treapInsertNode]
  | node i h a l r ihl ihr =>
    obtain ⟨hul, hur, hl, hr⟩ := ht
    rw [treapInsertNode]
    split_ifs
    · obtain ⟨hord, hover⟩ := ihl hl
      exact heapOrdered_swing_left hord (hover h hul) hur hr
    · obtain ⟨hord, hover⟩ := ihr hr
      exact heapOrdered_swing_right hord (hover h hur) hul hl

/-- **Insertion keeps the heap order.** -/
theorem heapOrdered_insertNode {t : Treap α} (ht : t.HeapOrdered) (j k : Int) (b : α) :
    (treapInsertNode t (node j k b nil nil)).HeapOrdered := (insertNode_overhangs ht j k b).1

/-! ## Extraction -/

/-- What extraction leaves of the two subtrees of the node: the heavier root comes up. -/
def meld : Treap α → Treap α → Treap α
  | nil, r => r
  | node j k b jl jr, nil => node j k b jl jr
  | node j k b jl jr, node j' k' b' jl' jr' =>
    if k < k' then node j' k' b' (meld (node j k b jl jr) jl') jr'
    else node j k b jl (meld jr (node j' k' b' jl' jr'))
termination_by l r => l.size + r.size
decreasing_by all_goals simp only [size_node]; omega

@[simp] theorem meld_nil_left (r : Treap α) : meld nil r = r := by rw [meld]

@[simp] theorem meld_nil_right (l : Treap α) : meld l nil = l := by
  cases l with
  | nil => exact meld_nil_left nil
  | node j k b jl jr => rw [meld]

theorem meld_node (j k : Int) (b : α) (jl jr : Treap α) (j' k' : Int) (b' : α)
    (jl' jr' : Treap α) :
    meld (node j k b jl jr) (node j' k' b' jl' jr') =
      if k < k' then node j' k' b' (meld (node j k b jl jr) jl') jr'
      else node j k b jl (meld jr (node j' k' b' jl' jr')) := by
  rw [meld]

theorem inorder_meld (l r : Treap α) : (meld l r).inorder = l.inorder ++ r.inorder := by
  induction l, r using meld.induct with
  | case1 r => simp
  | case2 j k b jl jr => simp
  | case3 j k b jl jr j' k' b' jl' jr' hlt ih =>
    rw [meld_node, if_pos hlt, inorder_node, ih]
    simp
  | case4 j k b jl jr j' k' b' jl' jr' hlt ih =>
    rw [meld_node, if_neg hlt, inorder_node, ih]
    simp

/-- **Extraction at the node itself** leaves its two subtrees melded. -/
theorem extract_root {id h : Int} {a : α} {l r : Treap α} (ho : (node id h a l r).Ordered) :
    (treapExtract (node id h a l r) id).2 = meld l r := by
  induction l, r using meld.induct generalizing h a with
  | case1 r => rw [extract_self, unlink, meld_nil_left]
  | case2 j k b jl jr =>
    rw [extract_self, meld_nil_right]
    rfl
  | case3 j k b jl jr j' k' b' jl' jr' hlt ih =>
    obtain ⟨hol, hor, hli, hir⟩ := ordered_node.1 ho
    obtain ⟨hojl, -, -, -⟩ := ordered_node.1 hor
    have hj : ¬ j' < id := by
      have := hir j' (by simp)
      omega
    have hbelow : (node id h a (node j k b jl jr) jl').Ordered :=
      ordered_node.2 ⟨hol, hojl, hli, fun x hx => hir x (by simp [hx])⟩
    rw [extract_self, meld_node, if_pos hlt, ← ih hbelow]
    simp only [unlink, hlt, if_true, swingRight, descend_node, hj, if_false]
  | case4 j k b jl jr j' k' b' jl' jr' hlt ih =>
    obtain ⟨hol, hor, hli, hir⟩ := ordered_node.1 ho
    obtain ⟨-, hojr, -, -⟩ := ordered_node.1 hol
    have hj : j < id := hli j (by simp)
    have hbelow : (node id h a jr (node j' k' b' jl' jr')).Ordered :=
      ordered_node.2 ⟨hojr, hor, fun x hx => hli x (by simp [hx]), hir⟩
    rw [extract_self, meld_node, if_neg hlt, ← ih hbelow]
    simp only [unlink, hlt, if_false, swingLeft, descend_node, hj, if_true]

/-- The right spine of the left subtree carries the heap value of the right subtree's root. -/
def Ties : Treap α → Treap α → Prop
  | nil, _ => True
  | node _ _ _ _ _, nil => True
  | node _ k _ _ jr, node j' k' b' jl' jr' => k = k' ∧ Ties jr (node j' k' b' jl' jr')

/-- **When the melded subtrees are in order.** -/
theorem heapOrdered_meld_iff {l r : Treap α} (hl : l.HeapOrdered) (hr : r.HeapOrdered) :
    (meld l r).HeapOrdered ↔ Ties l r := by
  induction l generalizing r with
  | nil => simpa [Ties] using hr
  | node j k b jl jr _ ihr =>
    cases r with
    | nil => simpa [Ties] using hl
    | node j' k' b' jl' jr' =>
      obtain ⟨hujl, hujr, hjl, hjr⟩ := hl
      rw [meld_node, Ties]
      split_ifs with hlt
      · -- The right root is heavier and comes up: the left one stays somewhere below it.
        constructor
        · intro hord
          obtain ⟨hu, -, hm, -⟩ := hord
          have hmem : (j, k, b) ∈ (meld (node j k b jl jr) jl').inorder := by
            simp [inorder_meld]
          have hle : k' ≤ k := hm.le_of_mem hu hmem
          omega
        · exact fun ht => absurd ht.1 (by omega)
      · rw [heapOrdered_node, ihr hjr hr]
        constructor
        · intro hord
          obtain ⟨-, hu, -, ht⟩ := hord
          have hm : (meld jr (node j' k' b' jl' jr')).HeapOrdered := (ihr hjr hr).2 ht
          have hmem : (j', k', b') ∈ (meld jr (node j' k' b' jl' jr')).inorder := by
            simp [inorder_meld]
          have hle : k ≤ k' := hm.le_of_mem hu hmem
          exact ⟨by omega, ht⟩
        · intro htie
          obtain ⟨hk, ht⟩ := htie
          refine ⟨hujl, under_of_forall ?_, hjl, ht⟩
          intro e he
          rw [inorder_meld, List.mem_append] at he
          rcases he with hej | her
          · exact hjr.le_of_mem hujr hej
          · exact hr.le_of_mem (show (node j' k' b' jl' jr').Under k from le_of_eq hk) her

/-- The subtree lookup of `id` ends at. -/
def subtreeAt : Treap α → Int → Treap α
  | nil, _ => nil
  | node i h a l r, id =>
    if i = id then node i h a l r
    else if i < id then subtreeAt r id
    else subtreeAt l id

/-- The node that holds `id`, when there is one, has a child missing or tied subtrees. -/
def Removable (t : Treap α) (id : Int) : Prop :=
  match subtreeAt t id with
  | nil => True
  | node _ _ _ l r => Ties l r

theorem removable_of_lt {i id : Int} (hi : i < id) (h : Int) (a : α) (l r : Treap α) :
    (node i h a l r).Removable id ↔ r.Removable id := by
  rw [Removable, subtreeAt, if_neg (by omega), if_pos hi, Removable]

theorem removable_of_gt {i id : Int} (hi : id < i) (h : Int) (a : α) (l r : Treap α) :
    (node i h a l r).Removable id ↔ l.Removable id := by
  rw [Removable, subtreeAt, if_neg (by omega), if_neg (by omega), Removable]

theorem removable_self (id h : Int) (a : α) (l r : Treap α) :
    (node id h a l r).Removable id ↔ Ties l r := by
  rw [Removable, subtreeAt, if_pos rfl]

theorem HeapOrdered.under_extract {h : Int} {t : Treap α} (ht : t.HeapOrdered) (hu : t.Under h)
    (ho : t.Ordered) (id : Int) : (treapExtract t id).2.Under h :=
  under_of_forall fun _ he => ht.le_of_mem hu ((mem_inorder_extract ho).1 he).1

/-- **When an extraction keeps the heap order.** -/
theorem heapOrdered_extract_iff {t : Treap α} (ht : t.HeapOrdered) (ho : t.Ordered) (id : Int) :
    (treapExtract t id).2.HeapOrdered ↔ t.Removable id := by
  induction t with
  | nil => simp [Removable, subtreeAt]
  | node i h a l r ihl ihr =>
    obtain ⟨hul, hur, hl, hr⟩ := ht
    obtain ⟨hol, hor, -, -⟩ := ordered_node.1 ho
    rcases lt_trichotomy i id with hi | rfl | hi
    · rw [extract_of_ne (ne_of_lt hi), descend_node, if_pos hi, removable_of_lt hi, ← ihr hr hor,
        heapOrdered_node]
      exact ⟨fun hall => hall.2.2.2, fun hx => ⟨hul, hr.under_extract hur hor id, hl, hx⟩⟩
    · rw [extract_root ho, removable_self]
      exact heapOrdered_meld_iff hl hr
    · rw [extract_of_ne (ne_of_gt hi), descend_node, if_neg (by omega), removable_of_gt hi,
        ← ihl hl hol, heapOrdered_node]
      exact ⟨fun hall => hall.2.2.1, fun hx => ⟨hl.under_extract hul hol id, hur, hx, hr⟩⟩

/-! ## Runs -/

/-- The operation brings an id that is not in the treap. -/
def Op.Fresh (t : Treap α) : Op α → Prop
  | insertNew id _ _ => id ∉ t.ids
  | insertNode id _ _ => id ∉ t.ids
  | _ => True

/-- The operation is not an extraction that melds two subtrees which are not tied. -/
def Op.Level (t : Treap α) : Op α → Prop
  | extract id => t.Removable id
  | remove id => t.Removable id
  | _ => True

/-- One call. A `treap_insert_new` may also fail, before it draws a heap value. -/
inductive Called : Treap α → Op α → Treap α → Prop
  | done {t : Treap α} {op : Op α} : op.Fresh t → Called t op (op.run t)
  | failed {t : Treap α} {id rand : Int} {a : α} :
      treapInsertNew t id a none = none → Called t (.insertNew id a rand) t

/-- Calls on a treap that starts empty. -/
def calls (α : Type) : Lts.System (Treap α) (Op α) where
  init t := t = nil
  step := Called

theorem run_insertNew (t : Treap α) (id rand : Int) (a : α) :
    Op.run t (.insertNew id a rand) = treapInsertNode t (node id rand a nil nil) := by
  simp [Op.run, insertNew_eq]

theorem run_remove (t : Treap α) (id : Int) :
    Op.run t (.remove id) = (treapExtract t id).2 := remove_snd t id

theorem Called.ordered {t t' : Treap α} {op : Op α} (hc : Called t op t') (ho : t.Ordered) :
    t'.Ordered := by
  cases hc with
  | failed => exact ho
  | done hfresh =>
    cases op with
    | insertNew id a rand =>
      rw [run_insertNew]
      exact ordered_insertNode ho hfresh rand a
    | insertNode id h a => exact ordered_insertNode ho hfresh h a
    | extract id => exact ordered_extract ho id
    | remove id =>
      rw [run_remove]
      exact ordered_extract ho id

/-- **One call keeps the heap order exactly when it is level.** -/
theorem Called.heapOrdered_iff {t t' : Treap α} {op : Op α} (hc : Called t op t') (ho : t.Ordered)
    (ht : t.HeapOrdered) : t'.HeapOrdered ↔ op.Level t := by
  cases hc with
  | failed => exact iff_of_true ht trivial
  | done hfresh =>
    cases op with
    | insertNew id a rand =>
      rw [run_insertNew]
      exact iff_of_true (heapOrdered_insertNode ht id rand a) trivial
    | insertNode id h a => exact iff_of_true (heapOrdered_insertNode ht id h a) trivial
    | extract id => exact heapOrdered_extract_iff ht ho id
    | remove id =>
      rw [run_remove]
      exact heapOrdered_extract_iff ht ho id

/-- **The heap order over runs.** After any calls whose extractions are all level, the treap is
heap-ordered, and the next call keeps it so exactly when it is level too. -/
theorem heapOrdered_of_level {t : Treap α}
    (h : ((calls α).guard fun t op => op.Level t).Reachable t) :
    t.HeapOrdered ∧ ∀ op t', Called t op t' → (t'.HeapOrdered ↔ op.Level t) := by
  have hinv : t.Ordered ∧ t.HeapOrdered := by
    refine Lts.System.Reachable.invariant (I := fun t => t.Ordered ∧ t.HeapOrdered) ?_ ?_ h
    · intro s hs
      obtain rfl : s = nil := hs
      exact ⟨ordered_nil, heapOrdered_nil⟩
    · intro s op s' hs hstep
      obtain ⟨hcall, hlevel⟩ := hstep
      exact ⟨hcall.ordered hs.1, (hcall.heapOrdered_iff hs.1 hs.2).2 hlevel⟩
  exact ⟨hinv.2, fun op t' hc => hc.heapOrdered_iff hinv.1 hinv.2⟩

/-- Three nodes in heap order: 2 on top of 1 and 3. -/
def threeNodes : Treap Unit := node 2 0 () (node 1 1 () nil nil) (node 3 2 () nil nil)

theorem reachable_threeNodes {P : Treap Unit → Op Unit → Prop}
    (hP : ∀ t id h, P t (.insertNode id h ())) :
    ((calls Unit).guard P).Reachable threeNodes := by
  have h0 : ((calls Unit).guard P).Reachable nil := .of_init rfl
  have h1 := h0.step (l := .insertNode 2 0 ()) ⟨.done (by simp [Op.Fresh]), hP _ _ _⟩
  have h2 := h1.step (l := .insertNode 1 1 ())
    ⟨.done (by simp [Op.Fresh, Op.run, treapInsertNode]), hP _ _ _⟩
  exact h2.step (l := .insertNode 3 2 ())
    ⟨.done (by simp [Op.Fresh, Op.run, treapInsertNode, swing, lighter]), hP _ _ _⟩

/-- The extraction of 1, which has no children, is level; that of 2 is not. -/
theorem heapOrdered_of_level_run :
    (treapExtract threeNodes 1).2.HeapOrdered ∧ ¬ (treapExtract threeNodes 2).2.HeapOrdered := by
  have h := (heapOrdered_of_level
    (reachable_threeNodes (P := fun t op => op.Level t) fun _ _ _ => trivial)).2
  constructor
  · exact (h (.extract 1) _ (.done trivial)).2 (by simp [Op.Level, threeNodes, Removable,
      subtreeAt, Ties])
  · intro hord
    have hlevel := (h (.extract 2) _ (.done trivial)).1 hord
    simp [Op.Level, threeNodes, Removable, subtreeAt, Ties] at hlevel

/-- Extracting 2 brings up 3, with heap value 2, above 1, with heap value 1. -/
theorem not_heapOrdered_extract :
    ¬ ∀ t, (calls Unit).Reachable t → t.HeapOrdered := by
  intro hall
  have hreach : (calls Unit).Reachable threeNodes := by
    obtain ⟨s, ls, hs, hrun⟩ := reachable_threeNodes (P := fun _ _ => True) fun _ _ _ => trivial
    exact ⟨s, ls, hs, hrun.imp fun _ _ _ hstep => hstep.1⟩
  have hord : (treapExtract threeNodes 2).2.HeapOrdered :=
    hall _ (hreach.step (l := .extract 2) (.done trivial))
  have ho : threeNodes.Ordered := by simp [threeNodes, Ordered]
  rw [threeNodes, extract_root ho] at hord
  simp [meld_node, HeapOrdered] at hord

end Treap

end DiskAnalyzer
