import DiskAnalyzer.Treap
import Mathlib.Data.List.Nodup
import Mathlib.Data.Nat.Init

/-!
# `treap.c`: a finite map ordered by id

The treap is read through its in-order list of `(id, heap value, pointer)` triples. Rotations do
not change that list, whatever the heap values are, so the search order is a statement about it
alone: `Ordered` says the ids increase strictly along it.

* `perm_insertNode`, `ordered_insertNode`: insertion adds one triple and keeps the order.
* `extract_spec`: extraction, which rotates the sought node down before it unlinks it, drops
  exactly the triple of the id it was asked for.
* `mem_inorder_iff_find`: lookup reads the list.

The reference map is a function from ids to what is stored under them.
-/

namespace DiskAnalyzer

open Treap

variable {α : Type}

namespace Treap

/-! ## The in-order list -/

/-- The stored triples, left to right. -/
def inorder : Treap α → List (Int × Int × α)
  | nil => []
  | node i h a l r => l.inorder ++ (i, h, a) :: r.inorder

/-- The ids, left to right. -/
def ids (t : Treap α) : List Int := t.inorder.map Prod.fst

@[simp] theorem inorder_nil : (nil : Treap α).inorder = [] := rfl
@[simp] theorem inorder_node (i h : Int) (a : α) (l r : Treap α) :
    (node i h a l r).inorder = l.inorder ++ (i, h, a) :: r.inorder := rfl
@[simp] theorem ids_nil : (nil : Treap α).ids = [] := rfl
@[simp] theorem ids_node (i h : Int) (a : α) (l r : Treap α) :
    (node i h a l r).ids = l.ids ++ i :: r.ids := by simp [ids]

theorem mem_ids {t : Treap α} {id : Int} : id ∈ t.ids ↔ ∃ h a, (id, h, a) ∈ t.inorder := by
  simp [ids]

theorem mem_ids_of_mem {t : Treap α} {e : Int × Int × α} (he : e ∈ t.inorder) : e.1 ∈ t.ids :=
  List.mem_map_of_mem he

theorem size_eq_length (t : Treap α) : t.size = t.inorder.length := by
  induction t with
  | nil => rfl
  | node i h a l r ihl ihr => simp [ihl, ihr, Nat.add_assoc]

/-- **Rotations keep the in-order list.** -/
@[simp] theorem inorder_swingLeft (t : Treap α) : (swingLeft t).inorder = t.inorder := by
  unfold swingLeft
  split
  · simp
  · rfl

@[simp] theorem inorder_swingRight (t : Treap α) : (swingRight t).inorder = t.inorder := by
  unfold swingRight
  split
  · simp
  · rfl

@[simp] theorem inorder_swing (t : Treap α) : (swing t).inorder = t.inorder := by
  unfold swing
  split
  · rfl
  · split_ifs <;> simp

/-! ## The search order -/

/-- The ids increase strictly from left to right: the search-tree order. -/
def Ordered (t : Treap α) : Prop := t.ids.Pairwise (· < ·)

theorem ordered_nil : (nil : Treap α).Ordered := List.Pairwise.nil

theorem ordered_node {i h : Int} {a : α} {l r : Treap α} :
    (node i h a l r).Ordered ↔
      l.Ordered ∧ r.Ordered ∧ (∀ x ∈ l.ids, x < i) ∧ ∀ x ∈ r.ids, i < x := by
  simp only [Ordered, ids_node, List.pairwise_append, List.pairwise_cons, List.mem_cons]
  constructor
  · rintro ⟨hl, ⟨hir, hr⟩, hlr⟩
    exact ⟨hl, hr, fun x hx => hlr x hx i (Or.inl rfl), hir⟩
  · rintro ⟨hl, hr, hli, hir⟩
    refine ⟨hl, ⟨hir, hr⟩, ?_⟩
    intro x hx y hy
    rcases hy with rfl | hy
    · exact hli x hx
    · exact lt_trans (hli x hx) (hir y hy)

theorem ordered_of_inorder_eq {t t' : Treap α} (h : t'.inorder = t.inorder) (ho : t.Ordered) :
    t'.Ordered := by
  unfold Ordered ids at *
  rwa [h]

theorem Ordered.nodup {t : Treap α} (ho : t.Ordered) : t.ids.Nodup := ho.imp ne_of_lt

/-- In an ordered treap an id holds one heap value and one pointer. -/
theorem Ordered.unique {t : Treap α} (ho : t.Ordered) {id h h' : Int} {a a' : α}
    (hm : (id, h, a) ∈ t.inorder) (hm' : (id, h', a') ∈ t.inorder) : h = h' ∧ a = a' := by
  have heq := List.inj_on_of_nodup_map ho.nodup hm hm' rfl
  simpa using heq

/-! ## Insertion -/

/-- Inserting a childless node adds its triple and nothing else. No order is needed. -/
theorem perm_insertNode (t : Treap α) (j k : Int) (b : α) :
    (treapInsertNode t (node j k b nil nil)).inorder.Perm ((j, k, b) :: t.inorder) := by
  induction t with
  | nil => simp [treapInsertNode]
  | node i h a l r ihl ihr =>
    rw [treapInsertNode]
    split_ifs with hji
    · rw [inorder_swing, inorder_node, inorder_node]
      exact ihl.append_right _
    · rw [inorder_swing, inorder_node, inorder_node]
      refine ((ihr.cons (i, h, a)).append_left l.inorder).trans ?_
      refine ((List.Perm.swap (j, k, b) (i, h, a) r.inorder).append_left l.inorder).trans ?_
      exact List.perm_middle

theorem mem_inorder_insertNode {t : Treap α} {j k : Int} {b : α} {e : Int × Int × α} :
    e ∈ (treapInsertNode t (node j k b nil nil)).inorder ↔ e = (j, k, b) ∨ e ∈ t.inorder := by
  rw [(perm_insertNode t j k b).mem_iff, List.mem_cons]

theorem mem_ids_insertNode {t : Treap α} {j k : Int} {b : α} {x : Int} :
    x ∈ (treapInsertNode t (node j k b nil nil)).ids ↔ x = j ∨ x ∈ t.ids := by
  rw [ids, ((perm_insertNode t j k b).map Prod.fst).mem_iff]
  simp [ids]

/-- **Insertion keeps the search order**, whatever the heap values. -/
theorem ordered_insertNode {t : Treap α} (ho : t.Ordered) {j : Int} (hj : j ∉ t.ids) (k : Int)
    (b : α) : (treapInsertNode t (node j k b nil nil)).Ordered := by
  induction t with
  | nil => simp [treapInsertNode, Ordered]
  | node i h a l r ihl ihr =>
    obtain ⟨hl, hr, hli, hir⟩ := ordered_node.1 ho
    simp only [ids_node, List.mem_append, List.mem_cons, not_or] at hj
    obtain ⟨hjl, hji, hjr⟩ := hj
    rw [treapInsertNode]
    split_ifs with hlt
    · refine ordered_of_inorder_eq (inorder_swing _) (ordered_node.2 ⟨ihl hl hjl, hr, ?_, hir⟩)
      intro x hx
      rcases mem_ids_insertNode.1 hx with rfl | hx
      · exact hlt
      · exact hli x hx
    · refine ordered_of_inorder_eq (inorder_swing _) (ordered_node.2 ⟨hl, ihr hr hjr, hli, ?_⟩)
      intro x hx
      rcases mem_ids_insertNode.1 hx with rfl | hx
      · omega
      · exact hir x hx

/-- `treap_insert_new` is `treap_insert_node` of a fresh node, when there is one. -/
theorem insertNew_eq (t : Treap α) (id : Int) (a : α) (rand : Option Int) :
    treapInsertNew t id a rand =
      rand.map fun heapVal => treapInsertNode t (node id heapVal a nil nil) := by
  cases rand with
  | none => induction t <;> simp_all [treapInsertNew, treapCreateNode]
  | some heapVal =>
    induction t with
    | nil => rfl
    | node i h b l r ihl ihr =>
      simp only [Option.map_some] at ihl ihr ⊢
      rw [treapInsertNew, treapInsertNode]
      split_ifs with hlt
      · rw [ihl, Option.map_some]
      · rw [ihr, Option.map_some]

/-! ## Lookup -/

/-- **Lookup reads the in-order list.** -/
theorem find_eq_some_iff {t : Treap α} (ho : t.Ordered) {id : Int} {a : α} :
    treapFind t id = some a ↔ ∃ h, (id, h, a) ∈ t.inorder := by
  induction t with
  | nil => simp [treapFind]
  | node i k b l r ihl ihr =>
    obtain ⟨hl, hr, hli, hir⟩ := ordered_node.1 ho
    have hnl : ∀ h, (id, h, a) ∈ l.inorder → id < i := fun h hm => hli _ (mem_ids_of_mem hm)
    have hnr : ∀ h, (id, h, a) ∈ r.inorder → i < id := fun h hm => hir _ (mem_ids_of_mem hm)
    simp only [inorder_node, List.mem_append, List.mem_cons, Prod.mk.injEq]
    rw [treapFind]
    split_ifs with hi hlt
    · subst hi
      constructor
      · rintro ⟨⟩
        exact ⟨k, Or.inr (Or.inl ⟨rfl, rfl, rfl⟩)⟩
      · rintro ⟨h, hm | ⟨-, -, rfl⟩ | hm⟩
        · exact absurd (hnl h hm) (lt_irrefl _)
        · rfl
        · exact absurd (hnr h hm) (lt_irrefl _)
    · rw [ihr hr]
      constructor
      · rintro ⟨h, hm⟩
        exact ⟨h, Or.inr (Or.inr hm)⟩
      · rintro ⟨h, hm | ⟨rfl, -, -⟩ | hm⟩
        · exact absurd (hnl h hm) (by omega)
        · exact absurd rfl hi
        · exact ⟨h, hm⟩
    · rw [ihl hl]
      constructor
      · rintro ⟨h, hm⟩
        exact ⟨h, Or.inl hm⟩
      · rintro ⟨h, hm | ⟨rfl, -, -⟩ | hm⟩
        · exact ⟨h, hm⟩
        · exact absurd rfl hi
        · exact absurd (hnr h hm) (by omega)

/-- What lookup returns is stored under that id, in any treap. -/
theorem mem_of_find {t : Treap α} {id : Int} {a : α} (h : treapFind t id = some a) :
    ∃ k, (id, k, a) ∈ t.inorder := by
  induction t with
  | nil => simp [treapFind] at h
  | node i k b l r ihl ihr =>
    rw [treapFind] at h
    split_ifs at h with hi hlt
    · obtain rfl : b = a := by simpa using h
      exact ⟨k, by simp [hi]⟩
    · obtain ⟨k', hk'⟩ := ihr h
      exact ⟨k', by simp [hk']⟩
    · obtain ⟨k', hk'⟩ := ihl h
      exact ⟨k', by simp [hk']⟩

theorem find_eq_none_iff {t : Treap α} (ho : t.Ordered) {id : Int} :
    treapFind t id = none ↔ id ∉ t.ids := by
  rw [Option.eq_none_iff_forall_ne_some, mem_ids]
  simp only [ne_eq, find_eq_some_iff ho, not_exists]
  exact forall_comm

/-- After an insertion the new id is found; for other ids lookup has not changed. -/
theorem find_insertNode {t : Treap α} (ho : t.Ordered) {j : Int} (hj : j ∉ t.ids) (k : Int)
    (b : α) : treapFind (treapInsertNode t (node j k b nil nil)) =
      Function.update (treapFind t) j (some b) := by
  funext id
  refine Option.ext ?_
  intro a
  rw [find_eq_some_iff (ordered_insertNode ho hj k b), Function.update_apply]
  simp only [mem_inorder_insertNode]
  split_ifs with hid
  · subst hid
    have hno : ∀ h, (id, h, a) ∉ t.inorder := fun h hm => hj (mem_ids_of_mem hm)
    simp [hno, eq_comm]
  · rw [find_eq_some_iff ho]
    simp [hid]

theorem size_insertNode (t : Treap α) (j k : Int) (b : α) :
    (treapInsertNode t (node j k b nil nil)).size = t.size + 1 := by
  rw [size_eq_length, (perm_insertNode t j k b).length_eq, List.length_cons, ← size_eq_length]

/-! ## Extraction -/

/-- The second half of `treap_extract`: search on in the child on the id's side. -/
def descend (id : Int) : Treap α → Treap α × Treap α
  | nil => (nil, nil)
  | node i h a l r =>
    if i < id then ((treapExtract r id).1, node i h a l (treapExtract r id).2)
    else ((treapExtract l id).1, node i h a (treapExtract l id).2 r)

theorem descend_node (id i h : Int) (a : α) (l r : Treap α) :
    descend id (node i h a l r) =
      if i < id then ((treapExtract r id).1, node i h a l (treapExtract r id).2)
      else ((treapExtract l id).1, node i h a (treapExtract l id).2 r) := rfl

@[simp] theorem extract_nil (id : Int) : treapExtract (nil : Treap α) id = (nil, nil) := by
  rw [treapExtract]

theorem extract_of_ne {i id : Int} (hi : i ≠ id) (h : Int) (a : α) (l r : Treap α) :
    treapExtract (node i h a l r) id = descend id (node i h a l r) := by
  rw [treapExtract]
  split <;> rename_i heq <;> rw [if_neg hi] at heq
  · simp at heq
  · simp at heq
  · simp only [Prod.mk.injEq, node.injEq, true_and] at heq
    obtain ⟨rfl, rfl, rfl, rfl, rfl⟩ := heq
    rfl

/-- At the sought id: what `unlink` returned, or the search resumed below the swung-up child. -/
theorem extract_self (id h : Int) (a : α) (l r : Treap α) :
    treapExtract (node id h a l r) id =
      match unlink (node id h a l r) with
      | (node j k b jl jr, t') => (node j k b jl jr, t')
      | (nil, t') => descend id t' := by
  rw [treapExtract]
  split <;> rename_i heq <;> rw [if_pos rfl] at heq <;> rw [heq] <;> rfl

/-- What extraction of `id` from `t` should give. -/
def ExtractSpec (t : Treap α) (id : Int) (res : Treap α × Treap α) : Prop :=
  (id ∉ t.ids → res = (nil, t)) ∧
    ∀ h a, (id, h, a) ∈ t.inorder →
      res.1 = node id h a nil nil ∧ res.2.inorder = t.inorder.filter fun e => e.1 ≠ id

theorem filter_ne_self {s : List (Int × Int × α)} {id : Int} (h : ∀ e ∈ s, e.1 ≠ id) :
    s.filter (fun e => e.1 ≠ id) = s := List.filter_eq_self.2 (by simpa using h)

theorem filter_root {i h : Int} {a : α} {l r : Treap α} (ho : (node i h a l r).Ordered) :
    (node i h a l r).inorder.filter (fun e => e.1 ≠ i) = l.inorder ++ r.inorder := by
  obtain ⟨-, -, hli, hir⟩ := ordered_node.1 ho
  have hl : ∀ e ∈ l.inorder, e.1 ≠ i := fun e he => ne_of_lt (hli _ (mem_ids_of_mem he))
  have hr : ∀ e ∈ r.inorder, e.1 ≠ i := fun e he => ne_of_gt (hir _ (mem_ids_of_mem he))
  simp only [inorder_node, List.filter_append, List.filter_cons, filter_ne_self hl,
    filter_ne_self hr]
  simp

/-- Searching on below a node that does not hold the id. -/
theorem descend_spec {i id : Int} (hi : i ≠ id) {h : Int} {a : α} {l r : Treap α}
    (ho : (node i h a l r).Ordered) (ihl : ExtractSpec l id (treapExtract l id))
    (ihr : ExtractSpec r id (treapExtract r id)) :
    ExtractSpec (node i h a l r) id (descend id (node i h a l r)) := by
  obtain ⟨-, -, hli, hir⟩ := ordered_node.1 ho
  rw [descend_node]
  refine ⟨?_, ?_⟩
  · intro hid
    simp only [ids_node, List.mem_append, List.mem_cons, not_or] at hid
    rw [ihl.1 hid.1, ihr.1 hid.2.2]
    split_ifs <;> rfl
  · intro h' a' hm
    simp only [inorder_node, List.mem_append, List.mem_cons, Prod.mk.injEq] at hm
    split_ifs with hlt
    · have hmr : (id, h', a') ∈ r.inorder := by
        rcases hm with hm | ⟨rfl, -, -⟩ | hm
        · exact absurd (show id < i from hli _ (mem_ids_of_mem hm)) (by omega)
        · exact absurd rfl hi
        · exact hm
      have hl : ∀ e ∈ l.inorder, e.1 ≠ id := fun e he => by
        have := hli _ (mem_ids_of_mem he)
        omega
      obtain ⟨hret, hrest⟩ := ihr.2 h' a' hmr
      refine ⟨hret, ?_⟩
      simp only [inorder_node, List.filter_append, List.filter_cons, filter_ne_self hl, hrest]
      simp [hi]
    · have hml : (id, h', a') ∈ l.inorder := by
        rcases hm with hm | ⟨rfl, -, -⟩ | hm
        · exact hm
        · exact absurd rfl hi
        · exact absurd (show i < id from hir _ (mem_ids_of_mem hm)) (by omega)
      have hr : ∀ e ∈ r.inorder, e.1 ≠ id := fun e he => by
        have := hir _ (mem_ids_of_mem he)
        omega
      obtain ⟨hret, hrest⟩ := ihl.2 h' a' hml
      refine ⟨hret, ?_⟩
      simp only [inorder_node, List.filter_append, List.filter_cons, filter_ne_self hr, hrest]
      simp [hi]

/-- Swinging the lighter of two children up does not put the sought id back at the root. -/
theorem unlink_two {id h : Int} {a : α} {l r : Treap α} (ho : (node id h a l r).Ordered)
    (hl : l ≠ nil) (hr : r ≠ nil) :
    ∃ i' h' a' l' r', unlink (node id h a l r) = (nil, node i' h' a' l' r') ∧ i' ≠ id ∧
      (node i' h' a' l' r').inorder = (node id h a l r).inorder := by
  obtain ⟨-, -, hli, hir⟩ := ordered_node.1 ho
  match l, r, hl, hr with
  | node j k b jl jr, node j' k' b' jl' jr', _, _ =>
    have hj : j < id := hli j (by simp)
    have hj' : id < j' := hir j' (by simp)
    simp only [unlink]
    split_ifs
    · exact ⟨j', k', b', _, jr', rfl, by omega, by simp⟩
    · exact ⟨j, k, b, jl, _, rfl, by omega, by simp⟩

/-- With a missing child the node is unlinked at once. -/
theorem unlink_one (id h : Int) (a : α) {l r : Treap α} (hlr : l = nil ∨ r = nil) :
    ∃ t', unlink (node id h a l r) = (node id h a nil nil, t') ∧
      t'.inorder = l.inorder ++ r.inorder := by
  rcases hlr with rfl | rfl
  · exact ⟨r, by simp [unlink], by simp⟩
  · cases l with
    | nil => exact ⟨nil, by simp [unlink], by simp⟩
    | node j k b jl jr => exact ⟨node j k b jl jr, by simp [unlink], by simp⟩

/-- **Extraction drops exactly the triple of its id**, and returns that node with its links
cleared; a missing id leaves the treap as it was. -/
theorem extract_spec (t : Treap α) (id : Int) (ho : t.Ordered) :
    ExtractSpec t id (treapExtract t id) := by
  -- On the size, since the search resumes below a rotated node and not in a subterm.
  induction hn : t.size using Nat.strong_induction_on generalizing t with
  | _ n ih =>
    cases t with
    | nil => exact ⟨fun _ => extract_nil id, fun h a hm => by simp at hm⟩
    | node i h a l r =>
      have below : ∀ {i' h' : Int} {a' : α} {l' r' : Treap α}, i' ≠ id →
          (node i' h' a' l' r').inorder = (node i h a l r).inorder →
          ExtractSpec (node i' h' a' l' r') id (descend id (node i' h' a' l' r')) := by
        intro i' h' a' l' r' hi' heq
        have ho' := ordered_of_inorder_eq heq ho
        have hlen := congrArg List.length heq
        simp only [← size_eq_length, size_node] at hlen hn
        obtain ⟨hol, hor, -, -⟩ := ordered_node.1 ho'
        exact descend_spec hi' ho' (ih l'.size (by omega) l' hol rfl)
          (ih r'.size (by omega) r' hor rfl)
      by_cases hi : i = id
      · subst hi
        by_cases hlr : l = nil ∨ r = nil
        · obtain ⟨t', hun, hin⟩ := unlink_one i h a hlr
          rw [extract_self, hun]
          refine ⟨fun hid => by simp at hid, ?_⟩
          intro h' a' hm
          obtain ⟨rfl, rfl⟩ := ho.unique hm (show (i, h, a) ∈ _ by simp)
          exact ⟨rfl, by rw [hin, filter_root ho]⟩
        · obtain ⟨hl, hr⟩ := not_or.1 hlr
          obtain ⟨i', h', a', l', r', hun, hi', heq⟩ := unlink_two ho hl hr
          obtain ⟨hmiss, hhit⟩ := below hi' heq
          rw [extract_self, hun]
          refine ⟨fun hid => by simp at hid, ?_⟩
          intro h₀ a₀ hm
          rw [← heq] at hm ⊢
          exact hhit h₀ a₀ hm
      · rw [extract_of_ne hi]
        exact below hi rfl

theorem extract_of_notMem {t : Treap α} (ho : t.Ordered) {id : Int} (hid : id ∉ t.ids) :
    treapExtract t id = (nil, t) := (extract_spec t id ho).1 hid

theorem extract_of_mem {t : Treap α} (ho : t.Ordered) {id h : Int} {a : α}
    (hm : (id, h, a) ∈ t.inorder) :
    (treapExtract t id).1 = node id h a nil nil ∧
      (treapExtract t id).2.inorder = t.inorder.filter fun e => e.1 ≠ id :=
  (extract_spec t id ho).2 h a hm

theorem extract_eq_of_mem {t : Treap α} (ho : t.Ordered) {id h : Int} {a : α}
    (hm : (id, h, a) ∈ t.inorder) :
    treapExtract t id = (node id h a nil nil, (treapExtract t id).2) :=
  Prod.ext (extract_of_mem ho hm).1 rfl

theorem inorder_extract {t : Treap α} (ho : t.Ordered) (id : Int) :
    (treapExtract t id).2.inorder = t.inorder.filter fun e => e.1 ≠ id := by
  by_cases hid : id ∈ t.ids
  · obtain ⟨h, a, hm⟩ := mem_ids.1 hid
    exact (extract_of_mem ho hm).2
  · rw [extract_of_notMem ho hid]
    exact (filter_ne_self fun e he (heq : e.1 = id) => hid (heq ▸ mem_ids_of_mem he)).symm

theorem mem_inorder_extract {t : Treap α} (ho : t.Ordered) {id : Int} {e : Int × Int × α} :
    e ∈ (treapExtract t id).2.inorder ↔ e ∈ t.inorder ∧ e.1 ≠ id := by
  rw [inorder_extract ho, List.mem_filter, decide_eq_true_iff]

theorem mem_ids_extract {t : Treap α} (ho : t.Ordered) {id x : Int} :
    x ∈ (treapExtract t id).2.ids ↔ x ∈ t.ids ∧ x ≠ id := by
  simp only [mem_ids, mem_inorder_extract ho]
  constructor
  · rintro ⟨h, a, hm, hne⟩
    exact ⟨⟨h, a, hm⟩, hne⟩
  · rintro ⟨⟨h, a, hm⟩, hne⟩
    exact ⟨h, a, hm, hne⟩

theorem ordered_extract {t : Treap α} (ho : t.Ordered) (id : Int) :
    (treapExtract t id).2.Ordered := by
  unfold Ordered ids
  rw [inorder_extract ho]
  exact ho.sublist (List.filter_sublist.map _)

/-- After an extraction the id is not found; for other ids lookup has not changed. -/
theorem find_extract {t : Treap α} (ho : t.Ordered) (id : Int) :
    treapFind (treapExtract t id).2 = Function.update (treapFind t) id none := by
  funext x
  refine Option.ext ?_
  intro a
  rw [find_eq_some_iff (ordered_extract ho id), Function.update_apply]
  simp only [mem_inorder_extract ho]
  split_ifs with hx
  · simp [hx]
  · rw [find_eq_some_iff ho]
    simp [hx]

/-! ### Without the search order -/

/-- What extraction of `id` from any `t` gives: nothing, or one triple with that id. -/
def Takes (t : Treap α) (id : Int) (res : Treap α × Treap α) : Prop :=
  (res.1 = nil ∧ res.2.inorder = t.inorder) ∨
    ∃ h a, res.1 = node id h a nil nil ∧ t.inorder.Perm ((id, h, a) :: res.2.inorder)

theorem descend_takes {i h : Int} {a : α} {l r : Treap α} {id : Int}
    (ihl : Takes l id (treapExtract l id)) (ihr : Takes r id (treapExtract r id)) :
    Takes (node i h a l r) id (descend id (node i h a l r)) := by
  rw [descend_node]
  split_ifs
  · rcases ihr with ⟨hnil, heq⟩ | ⟨h', a', hnode, hperm⟩
    · exact Or.inl ⟨hnil, by rw [inorder_node, inorder_node, heq]⟩
    · refine Or.inr ⟨h', a', hnode, ?_⟩
      simp only [inorder_node]
      refine ((hperm.cons (i, h, a)).append_left l.inorder).trans ?_
      refine ((List.Perm.swap (id, h', a') (i, h, a) _).append_left l.inorder).trans ?_
      exact List.perm_middle
  · rcases ihl with ⟨hnil, heq⟩ | ⟨h', a', hnode, hperm⟩
    · exact Or.inl ⟨hnil, by rw [inorder_node, inorder_node, heq]⟩
    · refine Or.inr ⟨h', a', hnode, ?_⟩
      simp only [inorder_node]
      exact hperm.append_right _

/-- **Extraction takes out one triple of its id, or none**, whatever the order of the treap. -/
theorem extract_takes (t : Treap α) (id : Int) : Takes t id (treapExtract t id) := by
  induction hn : t.size using Nat.strong_induction_on generalizing t with
  | _ n ih =>
    cases t with
    | nil => exact Or.inl ⟨by rw [extract_nil], by rw [extract_nil]⟩
    | node i h a l r =>
      have below : ∀ {i' h' : Int} {a' : α} {l' r' : Treap α},
          (node i' h' a' l' r').inorder = (node i h a l r).inorder →
          Takes (node i h a l r) id (descend id (node i' h' a' l' r')) := by
        intro i' h' a' l' r' heq
        have hlen := congrArg List.length heq
        simp only [← size_eq_length, size_node] at hlen hn
        have htakes := descend_takes (i := i') (h := h') (a := a')
          (ih l'.size (by omega) l' rfl) (ih r'.size (by omega) r' rfl)
        unfold Takes at htakes ⊢
        rw [← heq]
        exact htakes
      by_cases hi : i = id
      · subst hi
        rw [extract_self]
        cases l with
        | nil => exact Or.inr ⟨h, a, rfl, List.Perm.refl _⟩
        | node j k b jl jr =>
          cases r with
          | nil =>
            exact Or.inr ⟨h, a, rfl,
              List.perm_append_singleton (i, h, a) (node j k b jl jr).inorder⟩
          | node j' k' b' jl' jr' =>
            simp only [unlink]
            split_ifs
            · exact below (by simp)
            · exact below (by simp)
      · rw [extract_of_ne hi]
        exact below rfl

/-- A node that has been extracted is one node less. -/
theorem size_extract {t : Treap α} {id i h : Int} {a : α} {l r : Treap α}
    (he : (treapExtract t id).1 = node i h a l r) : t.size = (treapExtract t id).2.size + 1 := by
  rcases extract_takes t id with ⟨hnil, -⟩ | ⟨_, _, -, hperm⟩
  · rw [hnil] at he
    exact absurd he (by simp)
  · rw [size_eq_length, hperm.length_eq, List.length_cons, ← size_eq_length]

theorem remove_snd (t : Treap α) (id : Int) : (treapRemove t id).2 = (treapExtract t id).2 := by
  unfold treapRemove
  split <;> rename_i heq <;> rw [heq]

/-! ## The walk -/

/-- **The walk lists the treap in order** when every record can be sent. -/
theorem showInOrder_eq (t : Treap α) :
    threadsShowInOrder (fun _ _ => false) t = (t.inorder.map fun e => (e.1, e.2.2), false) := by
  induction t with
  | nil => rfl
  | node i h a l r ihl ihr => simp [threadsShowInOrder, ihl, ihr]

/-! ## The reference map -/

/-- A finite map from ids to a heap value and a pointer. -/
abbrev IdMap (α : Type) := Int → Option (Int × α)

/-- The treap stores exactly the map's entries, in search order. -/
structure Represents (t : Treap α) (m : IdMap α) : Prop where
  ordered : t.Ordered
  mem_iff : ∀ id h a, (id, h, a) ∈ t.inorder ↔ m id = some (h, a)

theorem Represents.mem_ids_iff {t : Treap α} {m : IdMap α} (hr : Represents t m) {id : Int} :
    id ∈ t.ids ↔ m id ≠ none := by
  rw [mem_ids, Option.ne_none_iff_exists']
  constructor
  · rintro ⟨h, a, hm⟩
    exact ⟨(h, a), (hr.mem_iff id h a).1 hm⟩
  · rintro ⟨⟨h, a⟩, hm⟩
    exact ⟨h, a, (hr.mem_iff id h a).2 hm⟩

theorem represents_nil : Represents (nil : Treap α) fun _ => none :=
  ⟨ordered_nil, fun _ _ _ => by simp⟩

theorem Represents.find {t : Treap α} {m : IdMap α} (hr : Represents t m) (id : Int) :
    treapFind t id = (m id).map Prod.snd := by
  refine Option.ext ?_
  intro a
  rw [find_eq_some_iff hr.ordered]
  simp [hr.mem_iff]

theorem Represents.insertNode {t : Treap α} {m : IdMap α} (hr : Represents t m) {id : Int}
    (hid : m id = none) (heapVal : Int) (a : α) :
    Represents (treapInsertNode t (node id heapVal a nil nil))
      (Function.update m id (some (heapVal, a))) := by
  have hnot : id ∉ t.ids := fun h => hr.mem_ids_iff.1 h hid
  refine ⟨ordered_insertNode hr.ordered hnot _ _, ?_⟩
  intro x h b
  rw [mem_inorder_insertNode]
  by_cases hx : x = id
  · subst hx
    have hno : (x, h, b) ∉ t.inorder := fun hm => hnot (mem_ids_of_mem hm)
    simp [hno, eq_comm]
  · simp [hx, hr.mem_iff]

theorem Represents.extract {t : Treap α} {m : IdMap α} (hr : Represents t m) (id : Int) :
    Represents (treapExtract t id).2 (Function.update m id none) := by
  refine ⟨ordered_extract hr.ordered id, ?_⟩
  intro x h b
  rw [mem_inorder_extract hr.ordered]
  by_cases hx : x = id
  · simp [hx]
  · simp [hx, hr.mem_iff]

/-- The operations on a treap. Every insertion draws or brings its own heap value. -/
inductive Op (α : Type) where
  | insertNew (id : Int) (anal : α) (rand : Int)
  | insertNode (id heapVal : Int) (anal : α)
  | extract (id : Int)
  | remove (id : Int)

/-- An operation on the treap, allocation succeeding. -/
def Op.run (t : Treap α) : Op α → Treap α
  | insertNew id a rand => (treapInsertNew t id a (some rand)).getD t
  | insertNode id h a => treapInsertNode t (node id h a nil nil)
  | extract id => (treapExtract t id).2
  | remove id => (treapRemove t id).2

/-- The same operation on the reference map. -/
def Op.apply (m : IdMap α) : Op α → IdMap α
  | insertNew id a rand => Function.update m id (some (rand, a))
  | insertNode id h a => Function.update m id (some (h, a))
  | extract id => Function.update m id none
  | remove id => Function.update m id none

/-- Insertions bring an id that is not present. -/
def Op.Valid (m : IdMap α) : Op α → Prop
  | insertNew id _ _ => m id = none
  | insertNode id _ _ => m id = none
  | _ => True

/-- Every operation of the sequence is valid where it happens. -/
def ValidFrom (m : IdMap α) : List (Op α) → Prop
  | [] => True
  | op :: ops => op.Valid m ∧ ValidFrom (op.apply m) ops

theorem Represents.run {t : Treap α} {m : IdMap α} (hr : Represents t m) {op : Op α}
    (hv : op.Valid m) : Represents (op.run t) (op.apply m) := by
  cases op with
  | insertNew id a rand =>
    have hnew : Op.run t (.insertNew id a rand) = treapInsertNode t (node id rand a nil nil) := by
      simp [Op.run, insertNew_eq]
    rw [hnew]
    exact hr.insertNode hv rand a
  | insertNode id h a => exact hr.insertNode hv h a
  | extract id => exact hr.extract id
  | remove id =>
    show Represents (treapRemove t id).2 _
    rw [remove_snd]
    exact hr.extract id

theorem Represents.runAll {ops : List (Op α)} {t : Treap α} {m : IdMap α} (hr : Represents t m)
    (hv : ValidFrom m ops) : Represents (ops.foldl Op.run t) (ops.foldl Op.apply m) := by
  induction ops generalizing t m with
  | nil => exact hr
  | cons op ops ih => exact ih (hr.run hv.1) hv.2

/-- **The treap is a finite map ordered by id.** After any sequence of valid operations on the
empty treap, whatever the heap values: the treap stores the reference map's entries and no other;
lookup agrees with it; extraction returns the node of a present id with both links cleared and
leaves the map without that id, and returns `NULL` and changes nothing for an absent one; and the
walk lists every entry once, the ids strictly increasing. -/
theorem treap_refines_idMap (ops : List (Op α)) (hv : ValidFrom (fun _ => none) ops) :
    let t := ops.foldl Op.run nil
    let m := ops.foldl Op.apply fun _ => none
    Represents t m ∧
      (∀ id, treapFind t id = (m id).map Prod.snd) ∧
      (∀ id h a, m id = some (h, a) →
        (treapExtract t id).1 = node id h a nil nil ∧
          Represents (treapExtract t id).2 (Function.update m id none)) ∧
      (∀ id, m id = none → treapExtract t id = (nil, t)) ∧
      ((threadsShowInOrder (fun _ _ => false) t).1.map Prod.fst).Pairwise (· < ·) ∧
      ∀ id a, (id, a) ∈ (threadsShowInOrder (fun _ _ => false) t).1 ↔ ∃ h, m id = some (h, a) := by
  intro t m
  have hr : Represents t m := represents_nil.runAll hv
  refine ⟨hr, hr.find, ?_, ?_, ?_, ?_⟩
  · intro id h a hm
    exact ⟨(extract_of_mem hr.ordered ((hr.mem_iff id h a).2 hm)).1, hr.extract id⟩
  · intro id hm
    exact extract_of_notMem hr.ordered fun hid => hr.mem_ids_iff.1 hid hm
  · rw [showInOrder_eq, List.map_map]
    exact hr.ordered
  · intro id a
    simp [showInOrder_eq, hr.mem_iff]

/-- An insertion of each kind, a rotation, and an extraction from below two children. -/
theorem treap_refines_idMap_run :
    let ops : List (Op Nat) :=
      [.insertNew 5 50 9, .insertNode 8 4 80, .insertNew 3 30 2, .extract 8, .remove 7]
    treapFind (ops.foldl Op.run nil) 5 = some 50 := by
  intro ops
  have hv : ValidFrom (fun _ => none) ops := by
    simp [ops, ValidFrom, Op.Valid, Op.apply]
  rw [(treap_refines_idMap ops hv).2.1 5]
  rfl

end Treap

end DiskAnalyzer
