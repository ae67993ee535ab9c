import DiskAnalyzer.Memory.Treap

/-!
# Insertion and extraction refine the model

`treapIn R t c`: the word `c` holds the root of a treap of blocks that is `t`, and nothing is
shared. `R a w` is what comes with a node whose pointer stands for `a`, the word `w` that holds the
pointer included, so the results here hold for the store, whose nodes own records, for the free
ids, whose nodes hold `NULL`, and in between.

Each function takes a `treapIn` to a `treapIn` of what the model's function of the same name gives
(`treapInsertNew_grown`, `treapInsertNode_spec`, `treapExtract_spec`), for every treap, ordered or
not. A bound on the recursion above the number of nodes is enough.
-/

namespace DiskAnalyzer.Memory

open Sep Treap Assertion

variable {α β : Type} {P F : Owned} {Q : β → Owned}

theorem loadInt_spec {a : Addr} {n : Int} [Owns P a (int n) F] {k : Int → Code β}
    (hk : Triple P (k n) Q) : Triple P (loadInt a >>= k) Q := by
  rw [loadInt, bind_assoc]
  refine Triple.loadData (v := .int n) ?_
  simpa using hk

theorem loadStr_spec {a : Addr} {s : Bytes} [Owns P a (.data (.str s)) F] {k : Bytes → Code β}
    (hk : Triple P (k s) Q) : Triple P (loadStr a >>= k) Q := by
  rw [loadStr, bind_assoc]
  refine Triple.loadData (v := .str s) ?_
  simpa using hk

/-! ## Treaps in memory -/

section Treaps

variable (R : α → Addr → Owned)

/-- A node, without its children. -/
def nodeAt (i h : Int) (a : α) (q : Addr) : Owned :=
  head q 5 * cell (idOf q) (int i) * cell (heapVal q) (int h) * R a (analOf q)

/-- What a `struct treap *` points to. -/
def treapAt : Treap α → Ptr → Owned
  | nil, p => ⨆ _ : p = none, 1
  | node i h a l r, p => ⨆ q, ⨆ _ : p = some q, nodeAt R i h a q *
      (⨆ lp, cell (chldLeft q) (.ptr lp) * treapAt l lp) *
      (⨆ rp, cell (chldRight q) (.ptr rp) * treapAt r rp)

/-- What a `struct treap **` points to. -/
def treapIn (t : Treap α) (c : Addr) : Owned := ⨆ p, cell c (.ptr p) * treapAt R t p

theorem treapAt_node (i h : Int) (a : α) (l r : Treap α) (p : Ptr) :
    treapAt R (node i h a l r) p = ⨆ q, ⨆ _ : p = some q,
      nodeAt R i h a q * treapIn R l (chldLeft q) * treapIn R r (chldRight q) := rfl

theorem treapAt_some (i h : Int) (a : α) (l r : Treap α) (q : Addr) :
    treapAt R (node i h a l r) (some q) =
      nodeAt R i h a q * treapIn R l (chldLeft q) * treapIn R r (chldRight q) := by
  simp only [treapAt_node, Option.some.injEq, iSup_iSup_eq_right]

@[simp] theorem treapIn_nil (c : Addr) : treapIn R nil c = cell c (.ptr none) := by
  simp only [treapIn, treapAt, mul_iSup, mul_one, iSup_iSup_eq_left]

theorem treapIn_node (i h : Int) (a : α) (l r : Treap α) (c : Addr) :
    treapIn R (node i h a l r) c = ⨆ q, cell c (.ptr (some q)) *
      (nodeAt R i h a q * treapIn R l (chldLeft q) * treapIn R r (chldRight q)) := by
  simp only [treapIn, treapAt_node, mul_iSup]
  rw [iSup_comm]
  simp only [iSup_iSup_eq_left]

instance (i h : Int) (a : α) (q : Addr) : Owns (nodeAt R i h a q) (idOf q) (int i)
    (head q 5 * cell (heapVal q) (int h) * R a (analOf q)) := ⟨by unfold nodeAt; ac_rfl⟩

instance (i h : Int) (a : α) (q : Addr) : Owns (nodeAt R i h a q) (heapVal q) (int h)
    (head q 5 * cell (idOf q) (int i) * R a (analOf q)) := ⟨by unfold nodeAt; ac_rfl⟩

theorem swingLeft_spec (i h j k : Int) (a b : α) (jl jr r : Treap α) (trp : Addr) :
    Triple (treapIn R (node i h a (node j k b jl jr) r) trp) (swingLeft trp) fun _ =>
      treapIn R (node j k b jl (node i h a jr r)) trp := by
  have hjr (c : Addr) : treapIn R jr c = ⨆ p, cell c (.ptr p) * treapAt R jr p := rfl
  simp only [treapIn_node, hjr, mul_iSup, iSup_mul, Triple.iSup_iff]
  intro self lft swtch
  unfold swingLeft
  refine .loadPtr ?_
  simp only [Triple.deref_some, pure_bind]
  refine .loadPtr ?_
  simp only [Triple.deref_some, pure_bind]
  refine .loadPtr ?_
  refine .store ?_
  refine .store ?_
  refine .store_last ?_
  refine le_iSup_of_le lft (le_iSup_of_le self (le_iSup_of_le swtch (le_of_eq ?_)))
  ac_rfl

theorem swingRight_spec (i h j k : Int) (a b : α) (l jl jr : Treap α) (trp : Addr) :
    Triple (treapIn R (node i h a l (node j k b jl jr)) trp) (swingRight trp) fun _ =>
      treapIn R (node j k b (node i h a l jl) jr) trp := by
  have hjl (c : Addr) : treapIn R jl c = ⨆ p, cell c (.ptr p) * treapAt R jl p := rfl
  simp only [treapIn_node, hjl, mul_iSup, iSup_mul, Triple.iSup_iff]
  intro self rgt swtch
  unfold swingRight
  refine .loadPtr ?_
  simp only [Triple.deref_some, pure_bind]
  refine .loadPtr ?_
  simp only [Triple.deref_some, pure_bind]
  refine .loadPtr ?_
  refine .store ?_
  refine .store ?_
  refine .store_last ?_
  refine le_iSup_of_le rgt (le_iSup_of_le self (le_iSup_of_le swtch (le_of_eq ?_)))
  ac_rfl

theorem lighter_spec (i h : Int) (a : α) (t : Treap α) (q c : Addr) :
    Triple (nodeAt R i h a q * treapIn R t c) (lighter q c) fun ret =>
      ⨆ _ : ret = Treap.lighter h t, nodeAt R i h a q * treapIn R t c := by
  unfold lighter
  cases t with
  | nil =>
    rw [treapIn_nil]
    refine .loadPtr ?_
    exact .ret (le_iSup_of_le rfl le_rfl)
  | node j k b jl jr =>
    simp only [treapIn_node, mul_iSup, Triple.iSup_iff]
    intro q'
    refine .loadPtr ?_
    refine loadInt_spec ?_
    refine loadInt_spec ?_
    exact .ret (le_iSup_of_le rfl (le_iSup_of_le q' le_rfl))

theorem swing_spec (i h : Int) (a : α) (l r : Treap α) (trp : Addr) :
    Triple (treapIn R (node i h a l r) trp) (swing trp) fun _ =>
      treapIn R (Treap.swing (node i h a l r)) trp := by
  unfold swing
  rw [treapIn_node, Triple.iSup_iff]
  intro t
  have hback : cell trp (.ptr (some t)) *
      (nodeAt R i h a t * treapIn R l (chldLeft t) * treapIn R r (chldRight t)) ≤
      treapIn R (node i h a l r) trp := by
    rw [treapIn_node]
    exact le_iSup_of_le t le_rfl
  refine .loadPtr ?_
  simp only [Triple.deref_some, pure_bind]
  refine .call (lighter_spec R i h a l t (chldLeft t)) fun ret => ?_
  simp only [iSup_mul, Triple.iSup_iff]
  rintro rfl
  by_cases hl : Treap.lighter h l = true
  · rw [Treap.swing, if_pos hl, if_pos hl]
    refine Triple.pre ?_ (le_trans (le_of_eq (by ac_rfl)) hback)
    cases l with
    | nil => cases hl
    | node j k b jl jr => exact swingLeft_spec R i h j k a b jl jr r trp
  rw [Treap.swing, if_neg hl, if_neg hl]
  refine .call (lighter_spec R i h a r t (chldRight t)) fun ret => ?_
  simp only [iSup_mul, Triple.iSup_iff]
  rintro rfl
  by_cases hr : Treap.lighter h r = true
  · rw [if_pos hr, if_pos hr]
    refine Triple.pre ?_ (le_trans (le_of_eq (by ac_rfl)) hback)
    cases r with
    | nil => cases hr
    | node j k b jl jr => exact swingRight_spec R i h j k a b l jl jr trp
  · rw [if_neg hr, if_neg hr]
    exact .ret (le_trans (le_of_eq (by ac_rfl)) hback)

/-! ## Insertion -/

theorem block_node (q : Addr) (v₀ v₁ v₂ v₃ v₄ : Word) :
    block q [v₀, v₁, v₂, v₃, v₄] = head q 5 * (cell (idOf q) v₀ * (cell (heapVal q) v₁ *
      (cell (analOf q) v₂ * (cell (chldLeft q) v₃ * cell (chldRight q) v₄)))) := by
  simp only [block, words_cons, words_nil, mul_one]
  rfl

instance (q : Addr) (v₀ v₁ v₂ v₃ v₄ : Word) [h : Frame P (head q 5 * (cell (idOf q) v₀ *
    (cell (heapVal q) v₁ * (cell (analOf q) v₂ * (cell (chldLeft q) v₃ *
      cell (chldRight q) v₄))))) F] : Frame P (block q [v₀, v₁, v₂, v₃, v₄]) F :=
  ⟨by rw [block_node]; exact h.eq⟩

/-- A pointer that can be put in a node: in the node's word, with what comes with it, it is the
node's content. -/
def Fits (X : Owned) (anal : Ptr) (a : α) : Prop := ∀ c, X * cell c (.ptr anal) ≤ R a c

variable {R}

theorem treapCreateNode_spec {X : Owned} {anal : Ptr} {a : α} (hX : Fits R X anal a)
    (id rand : Int) :
    Triple X (treapCreateNode id anal rand) fun ret =>
      (⨆ _ : ret = none, X) ⊔ ⨆ q, ⨆ _ : ret = some q, treapAt R (node id rand a nil nil) ret := by
  unfold treapCreateNode
  refine .malloc ?_ fun ret => ?_
  · exact .ret (le_sup_of_le_left (le_iSup_of_le rfl le_rfl))
  · rw [show List.replicate 5 (Val.undef : Word) = [.undef, .undef, .undef, .undef, .undef] from rfl,
      block_node]
    refine .store ?_
    refine .store ?_
    refine .store ?_
    refine .store ?_
    refine .store ?_
    refine .ret (le_sup_of_le_right (le_iSup_of_le ret (le_iSup_of_le rfl ?_)))
    simp only [treapAt_node, treapIn_nil]
    refine le_iSup_of_le ret (le_iSup_of_le rfl ?_)
    have hnode : head ret 5 * cell (idOf ret) (int id) * cell (heapVal ret) (int rand) *
        (X * cell (analOf ret) (.ptr anal)) ≤ nodeAt R id rand a ret := mul_le_mul' le_rfl (hX _)
    exact le_trans (le_of_eq (by ac_rfl)) (mul_le_mul' (mul_le_mul' hnode le_rfl) le_rfl)

theorem treapIn_of_treapAt {t : Treap α} (c : Addr) (p : Ptr) :
    cell c (.ptr p) * treapAt R t p ≤ treapIn R t c := le_iSup_of_le p le_rfl

variable (R) in
/-- What an insertion leaves: the treap with the new node, or what there was. -/
def grown (X : Owned) (t : Treap α) (id rand : Int) (a : α) (trp : Addr) (ret : Int) : Owned :=
  (⨆ _ : ret = 1, treapIn R t trp * X) ⊔
    ⨆ _ : ret = 0, treapIn R (DiskAnalyzer.treapInsertNode t (node id rand a nil nil)) trp

theorem attach_spec {X : Owned} {anal : Ptr} {a : α} (hX : Fits R X anal a) (chld : Addr)
    (id rand : Int) :
    Triple (treapIn R nil chld * X) (attach chld id anal rand) (grown R X nil id rand a chld) := by
  unfold attach
  rw [treapIn_nil]
  refine .call (treapCreateNode_spec hX id rand) fun new => ?_
  simp only [Quantale.sup_mul_distrib, iSup_mul, Triple.sup_iff, Triple.iSup_iff]
  constructor
  · rintro rfl
    refine .ret (le_sup_of_le_left (le_iSup_of_le rfl (le_of_eq ?_)))
    rw [treapIn_nil, mul_comm]
  · rintro q rfl
    refine .store ?_
    refine .ret (le_sup_of_le_right (le_iSup_of_le rfl ?_))
    exact treapIn_of_treapAt chld (some q)

theorem treapInsertNode_node (i h j k : Int) (a b : α) (l r : Treap α) :
    DiskAnalyzer.treapInsertNode (node i h a l r) (node j k b nil nil) =
      if j < i then
        Treap.swing (node i h a (DiskAnalyzer.treapInsertNode l (node j k b nil nil)) r)
      else Treap.swing (node i h a l (DiskAnalyzer.treapInsertNode r (node j k b nil nil))) := rfl

/-- The recursive call or the new child: either way, an insertion below. -/
theorem treapInsertNew_below {X : Owned} {anal : Ptr} {a : α} (hX : Fits R X anal a) {fuel : Nat}
    {s : Treap α} {chld : Addr} {id rand : Int}
    (ih : Triple (treapIn R s chld * X) (treapInsertNew fuel chld id anal rand)
      (grown R X s id rand a chld)) {k : Int → Code β} [hF : Frame P (treapIn R s chld * X) F]
    (hk : ∀ ret, Triple (grown R X s id rand a chld ret * F) (k ret) Q) :
    Triple P
      (loadPtr chld >>= fun below =>
        (if below.isSome then treapInsertNew fuel chld id anal rand
          else attach chld id anal rand) >>= k) Q := by
  rw [hF.eq]
  cases s with
  | nil =>
    rw [treapIn_nil]
    refine .loadPtr ?_
    rw [← treapIn_nil R]
    exact .call (attach_spec hX chld id rand) hk
  | node j h b jl jr =>
    rw [treapIn_node]
    simp only [iSup_mul, Triple.iSup_iff]
    intro q
    refine .loadPtr ?_
    have hfold : cell chld (.ptr (some q)) *
        (nodeAt R j h b q * treapIn R jl (chldLeft q) * treapIn R jr (chldRight q)) * X ≤
        treapIn R (node j h b jl jr) chld * X := by
      rw [treapIn_node]
      exact mul_le_mul' (le_iSup_of_le q le_rfl) le_rfl
    exact (ih.pre hfold).call hk

theorem swing_ne_nil {t : Treap α} (ht : t ≠ nil) (trp : Addr) :
    Triple (treapIn R t trp) (swing trp) fun _ => treapIn R (Treap.swing t) trp := by
  cases t with
  | nil => exact absurd rfl ht
  | node i h a l r => exact swing_spec R i h a l r trp

/-- What an insertion in a child makes of the whole treap, of which `F` is the rest. -/
theorem grown_above {X F : Owned} {a : α} {id rand : Int} {s : Treap α} {chld trp : Addr}
    {W : Treap α → Treap α} (hne : ∀ s', W s' ≠ nil)
    (hfill : ∀ s', treapIn R s' chld * F ≤ treapIn R (W s') trp)
    (hins : DiskAnalyzer.treapInsertNode (W s) (node id rand a nil nil) =
      Treap.swing (W (DiskAnalyzer.treapInsertNode s (node id rand a nil nil)))) (ret : Int) :
    Triple (grown R X s id rand a chld ret * F)
      (if ret ≠ 0 then return 1
       else do
        swing trp
        return 0)
      (grown R X (W s) id rand a trp) := by
  simp only [grown, Quantale.sup_mul_distrib, iSup_mul, Triple.sup_iff, Triple.iSup_iff]
  constructor
  · rintro rfl
    refine .ret (le_sup_of_le_left (le_iSup_of_le rfl ?_))
    calc treapIn R s chld * X * F = treapIn R s chld * F * X := by ac_rfl
      _ ≤ treapIn R (W s) trp * X := mul_le_mul' (hfill s) le_rfl
  · rintro rfl
    refine Triple.bind ((swing_ne_nil (hne _) trp).pre (hfill _)) fun _ => ?_
    exact .ret (le_sup_of_le_right (le_iSup_of_le rfl (le_of_eq (by rw [hins]))))

/-- A child taken out and put back. -/
theorem fill_left {i h : Int} {b : α} {r : Treap α} {t trp : Addr} (s : Treap α) :
    treapIn R s (chldLeft t) *
        (cell trp (.ptr (some t)) * (nodeAt R i h b t * treapIn R r (chldRight t))) ≤
      treapIn R (node i h b s r) trp := by
  rw [treapIn_node]
  exact le_iSup_of_le t (le_of_eq (by ac_rfl))

theorem fill_right {i h : Int} {b : α} {l : Treap α} {t trp : Addr} (s : Treap α) :
    treapIn R s (chldRight t) *
        (cell trp (.ptr (some t)) * (nodeAt R i h b t * treapIn R l (chldLeft t))) ≤
      treapIn R (node i h b l s) trp := by
  rw [treapIn_node]
  exact le_iSup_of_le t (le_of_eq (by ac_rfl))

/-- **`treap_insert_new`** leaves what the insertion of the model leaves, or the treap and what was
to go into it. -/
theorem treapInsertNew_grown {X : Owned} {anal : Ptr} {a : α} (hX : Fits R X anal a)
    (id rand : Int) (t : Treap α) : ∀ (fuel : Nat) (trp : Addr), t.size < fuel →
      Triple (treapIn R t trp * X) (treapInsertNew fuel trp id anal rand)
        (grown R X t id rand a trp) := by
  induction t with
  | nil =>
    intro fuel trp hfuel
    obtain ⟨fuel, rfl⟩ : ∃ n, fuel = n + 1 := ⟨fuel - 1, by omega⟩
    rw [treapInsertNew, treapIn_nil]
    refine .loadPtr ?_
    refine .call (treapCreateNode_spec hX id rand) fun new => ?_
    simp only [Quantale.sup_mul_distrib, iSup_mul, Triple.sup_iff, Triple.iSup_iff]
    constructor
    · rintro rfl
      refine .store ?_
      refine .ret (le_sup_of_le_left (le_iSup_of_le rfl (le_of_eq ?_)))
      rw [treapIn_nil]
    · rintro q rfl
      refine .store ?_
      refine .ret (le_sup_of_le_right (le_iSup_of_le rfl ?_))
      exact treapIn_of_treapAt trp (some q)
  | node i h b l r ihl ihr =>
    intro fuel trp hfuel
    rw [size_node] at hfuel
    obtain ⟨fuel, rfl⟩ : ∃ n, fuel = n + 1 := ⟨fuel - 1, by omega⟩
    rw [treapInsertNew, treapIn_node]
    simp only [iSup_mul, Triple.iSup_iff]
    intro t
    refine .loadPtr ?_
    refine loadInt_spec ?_
    have hins := treapInsertNode_node i h id rand b a l r
    by_cases hlt : id < i
    · rw [if_pos hlt] at hins
      rw [if_pos hlt]
      refine treapInsertNew_below hX (ihl fuel (chldLeft t) (by omega)) fun ret => ?_
      exact grown_above (W := fun s => node i h b s r) (fun _ => by simp) fill_left hins ret
    · rw [if_neg hlt] at hins
      rw [if_neg hlt]
      refine treapInsertNew_below hX (ihr fuel (chldRight t) (by omega)) fun ret => ?_
      exact grown_above (W := fun s => node i h b l s) (fun _ => by simp) fill_right hins ret

theorem treapInsertNode_below {n : Treap α} {nd : Ptr} {fuel : Nat} {s : Treap α} {chld : Addr}
    (ih : Triple (treapIn R s chld * treapAt R n nd) (treapInsertNode fuel chld nd)
      fun _ => treapIn R (DiskAnalyzer.treapInsertNode s n) chld) (hn : n ≠ nil)
    {k : Unit → Code β} [hF : Frame P (treapIn R s chld * treapAt R n nd) F]
    (hk : Triple (treapIn R (DiskAnalyzer.treapInsertNode s n) chld * F) (k ()) Q) :
    Triple P
      (loadPtr chld >>= fun below =>
        (if below.isSome then treapInsertNode fuel chld nd else store chld (.ptr nd)) >>= k) Q := by
  rw [hF.eq]
  cases s with
  | nil =>
    rw [treapIn_nil]
    refine .loadPtr ?_
    have hnil : DiskAnalyzer.treapInsertNode nil n = n := by
      cases n with
      | nil => exact absurd rfl hn
      | node j k b jl jr => rfl
    rw [hnil] at hk
    refine .store (hk.pre ?_)
    exact (mul_assoc _ _ _).symm.le.trans (mul_le_mul' (treapIn_of_treapAt chld nd) le_rfl)
  | node i h a l r =>
    rw [treapIn_node]
    simp only [iSup_mul, Triple.iSup_iff]
    intro q
    refine .loadPtr ?_
    have hfold : cell chld (.ptr (some q)) *
        (nodeAt R i h a q * treapIn R l (chldLeft q) * treapIn R r (chldRight q)) *
          treapAt R n nd ≤ treapIn R (node i h a l r) chld * treapAt R n nd := by
      rw [treapIn_node]
      exact mul_le_mul' (le_iSup_of_le q le_rfl) le_rfl
    exact (ih.pre hfold).call fun _ => hk

/-- **`treap_insert_node`** leaves what the insertion of the model leaves. -/
theorem treapInsertNode_spec (j k : Int) (b : α) (jl jr : Treap α) (nd : Ptr) (t : Treap α) :
    ∀ (fuel : Nat) (trp : Addr), t.size < fuel →
      Triple (treapIn R t trp * treapAt R (node j k b jl jr) nd) (treapInsertNode fuel trp nd)
        fun _ => treapIn R (DiskAnalyzer.treapInsertNode t (node j k b jl jr)) trp := by
  induction t with
  | nil =>
    intro fuel trp hfuel
    obtain ⟨fuel, rfl⟩ : ∃ n, fuel = n + 1 := ⟨fuel - 1, by omega⟩
    rw [treapInsertNode, treapIn_nil]
    refine .loadPtr ?_
    exact .store_last (treapIn_of_treapAt trp nd)
  | node i h a l r ihl ihr =>
    intro fuel trp hfuel
    rw [size_node] at hfuel
    obtain ⟨fuel, rfl⟩ : ∃ n, fuel = n + 1 := ⟨fuel - 1, by omega⟩
    rw [treapInsertNode, treapIn_node]
    simp only [treapAt_node, iSup_mul, mul_iSup, Triple.iSup_iff]
    rintro q rfl t
    refine .loadPtr ?_
    simp only [Triple.deref_some, pure_bind]
    refine loadInt_spec ?_
    refine loadInt_spec ?_
    rw [← treapAt_some R j k b jl jr q]
    by_cases hlt : j < i
    · rw [if_pos hlt, DiskAnalyzer.treapInsertNode, if_pos hlt]
      refine treapInsertNode_below (ihl fuel (chldLeft t) (by omega)) (by simp) ?_
      exact (swing_ne_nil (by simp) trp).pre (fill_left _)
    · rw [if_neg hlt, DiskAnalyzer.treapInsertNode, if_neg hlt]
      refine treapInsertNode_below (ihr fuel (chldRight t) (by omega)) (by simp) ?_
      exact (swing_ne_nil (by simp) trp).pre (fill_right _)

/-! ## Extraction -/

theorem treapIn_open (t : Treap α) (c : Addr) :
    treapIn R t c = ⨆ p, cell c (.ptr p) * treapAt R t p := rfl

/-- The node with its links cleared, and what stands in its place. -/
theorem detach_spec (i h : Int) (a : α) (t : Treap α) (q trp : Addr) (p : Ptr)
    (x y : Word) :
    Triple (cell trp (.ptr (some q)) * nodeAt R i h a q * cell (chldLeft q) x *
        cell (chldRight q) y * treapAt R t p)
      (detach trp q p) fun ret =>
        treapAt R (node i h a nil nil) ret * treapIn R t trp := by
  unfold detach
  refine .store ?_
  refine .store ?_
  refine .store ?_
  refine .ret ?_
  rw [treapAt_some, treapIn_nil, treapIn_nil, treapIn_open]
  simp only [mul_iSup]
  exact le_iSup_of_le p (le_of_eq (by ac_rfl))

/-- The first block of `treap_extract` is the unlinking of the model. -/
theorem unlink_spec (i h : Int) (a : α) (l r : Treap α) (trp : Addr) :
    Triple (treapIn R (node i h a l r) trp) (unlink trp) fun ret =>
      treapAt R (DiskAnalyzer.unlink (node i h a l r)).1 ret *
        treapIn R (DiskAnalyzer.unlink (node i h a l r)).2 trp := by
  rw [treapIn_node, Triple.iSup_iff]
  intro t
  unfold unlink
  refine .loadPtr ?_
  simp only [Triple.deref_some, pure_bind]
  cases l with
  | nil =>
    simp only [treapIn_nil, treapIn_open r (chldRight t), mul_iSup, Triple.iSup_iff]
    intro p
    refine .loadPtr ?_
    refine .loadPtr ?_
    exact (detach_spec i h a r t trp p _ _).pre (le_of_eq (by ac_rfl))
  | node j k b jl jr =>
    rw [treapIn_node R j k b jl jr (chldLeft t)]
    simp only [iSup_mul, mul_iSup, Triple.iSup_iff]
    intro tl
    refine .loadPtr ?_
    cases r with
    | nil =>
      rw [treapIn_nil]
      refine .loadPtr ?_
      rw [← treapAt_some R j k b jl jr tl]
      exact (detach_spec i h a _ t trp (some tl) _ _).pre (le_of_eq (by ac_rfl))
    | node j' k' b' jl' jr' =>
      rw [treapIn_node R j' k' b' jl' jr' (chldRight t)]
      simp only [mul_iSup, Triple.iSup_iff]
      intro tr
      refine .loadPtr ?_
      refine loadInt_spec ?_
      refine loadInt_spec ?_
      have hback : cell trp (.ptr (some t)) * (nodeAt R i h a t *
          (cell (chldLeft t) (.ptr (some tl)) *
            (nodeAt R j k b tl * treapIn R jl (chldLeft tl) * treapIn R jr (chldRight tl))) *
          (cell (chldRight t) (.ptr (some tr)) *
            (nodeAt R j' k' b' tr * treapIn R jl' (chldLeft tr) * treapIn R jr' (chldRight tr)))) ≤
          treapIn R (node i h a (node j k b jl jr) (node j' k' b' jl' jr')) trp := by
        simp only [treapIn_node, mul_iSup, iSup_mul]
        exact le_iSup_of_le t (le_iSup_of_le tr (le_iSup_of_le tl le_rfl))
      have hnil (s : Treap α) : treapIn R s trp ≤ treapAt R nil none * treapIn R s trp := by
        simp [treapAt]
      rw [DiskAnalyzer.unlink]
      by_cases hlt : k < k'
      · rw [if_pos hlt, if_pos hlt]
        refine .bind ((swingRight_spec R i h j' k' a b' _ jl' jr' trp).pre hback) fun _ => ?_
        exact .ret (hnil _)
      · rw [if_neg hlt, if_neg hlt]
        refine .bind ((swingLeft_spec R i h j k a b jl jr _ trp).pre hback) fun _ => ?_
        exact .ret (hnil _)

/-- The second half of `treap_extract`, in a treap whose children are small enough. -/
theorem descend_spec {id : Int} {fuel : Nat}
    (ih : ∀ (t : Treap α) (trp : Addr), t.size < fuel →
      Triple (treapIn R t trp) (treapExtract fuel trp id) fun ret =>
        treapAt R (DiskAnalyzer.treapExtract t id).1 ret *
          treapIn R (DiskAnalyzer.treapExtract t id).2 trp)
    {t : Treap α} (ht : t ≠ nil) (hsize : t.size ≤ fuel) (trp : Addr) :
    Triple (treapIn R t trp)
      (do
        let t' ← deref (← loadPtr trp)
        let i' ← loadInt (idOf t')
        if i' < id then treapExtract fuel (chldRight t') id
        else treapExtract fuel (chldLeft t') id)
      fun ret => treapAt R (descend id t).1 ret * treapIn R (descend id t).2 trp := by
  cases t with
  | nil => exact absurd rfl ht
  | node i h a l r =>
    rw [size_node] at hsize
    rw [treapIn_node, Triple.iSup_iff]
    intro t
    refine .loadPtr ?_
    simp only [Triple.deref_some, pure_bind]
    refine loadInt_spec ?_
    rw [descend_node]
    by_cases hlt : i < id
    · rw [if_pos hlt, if_pos hlt]
      refine .last (ih r (chldRight t) (by omega)) fun ret => ?_
      rw [mul_assoc]
      exact mul_le_mul' le_rfl (fill_right _)
    · rw [if_neg hlt, if_neg hlt]
      refine .last (ih l (chldLeft t) (by omega)) fun ret => ?_
      rw [mul_assoc]
      exact mul_le_mul' le_rfl (fill_left _)

/-- Nothing is returned when a child has come up. -/
theorem unlink_snd_ne_nil {i h : Int} {a : α} {l r t' : Treap α}
    (hu : DiskAnalyzer.unlink (node i h a l r) = (nil, t')) : t' ≠ nil := by
  cases l with
  | nil => simp [DiskAnalyzer.unlink] at hu
  | node j k b jl jr =>
    cases r with
    | nil => simp [DiskAnalyzer.unlink] at hu
    | node j' k' b' jl' jr' =>
      simp only [DiskAnalyzer.unlink, Prod.mk.injEq, true_and] at hu
      split_ifs at hu <;> rw [← hu] <;> simp [Treap.swingLeft, Treap.swingRight]

/-- **`treap_extract`** returns the node the model extracts, and leaves what the model leaves. -/
theorem treapExtract_spec (id : Int) (fuel : Nat) : ∀ (t : Treap α) (trp : Addr), t.size < fuel →
    Triple (treapIn R t trp) (treapExtract fuel trp id) fun ret =>
      treapAt R (DiskAnalyzer.treapExtract t id).1 ret *
        treapIn R (DiskAnalyzer.treapExtract t id).2 trp := by
  induction fuel with
  | zero => exact fun t _ h => absurd h (Nat.not_lt_zero _)
  | succ fuel ih =>
    intro t trp hfuel
    cases t with
    | nil =>
      rw [treapExtract, extract_nil, treapIn_nil]
      refine .loadPtr ?_
      exact .ret (by simp [treapAt])
    | node i h a l r =>
      rw [treapExtract, treapIn_node, Triple.iSup_iff]
      intro t
      refine .loadPtr ?_
      refine loadInt_spec ?_
      have hback : cell trp (.ptr (some t)) *
          (nodeAt R i h a t * treapIn R l (chldLeft t) * treapIn R r (chldRight t)) ≤
          treapIn R (node i h a l r) trp := by
        rw [treapIn_node]
        exact le_iSup_of_le t le_rfl
      by_cases hi : i = id
      · subst hi
        rw [if_pos rfl, extract_self]
        refine .bind ((unlink_spec i h a l r trp).pre hback) fun ret => ?_
        have hle := size_unlink_snd (node i h a l r)
        rcases hu : DiskAnalyzer.unlink (node i h a l r) with ⟨_ | ⟨j, k, b, jl, jr⟩, t'⟩
        · rw [hu] at hle
          simp only [treapAt, iSup_mul, one_mul, Triple.iSup_iff]
          rintro rfl
          exact descend_spec ih (unlink_snd_ne_nil hu) (by simp only at hle; omega) trp
        · simp only [treapAt_node, iSup_mul, Triple.iSup_iff]
          rintro q rfl
          exact .ret (le_iSup_of_le q (le_iSup_of_le rfl le_rfl))
      · rw [if_neg hi, extract_of_ne hi]
        simp only [pure_bind]
        exact (descend_spec ih (by simp) (by omega) trp).pre hback

end Treaps

end DiskAnalyzer.Memory
