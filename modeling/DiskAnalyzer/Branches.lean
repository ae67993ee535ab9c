import DiskAnalyzer.HashProof
import DiskAnalyzer.TreeProof
import DiskAnalyzer.Lib.Run

/-!
# `tree.c`: dead branches

A node that has no info and no children is of no use to any path. `tree_insert` makes none: the
nodes it creates lead to the one whose info it writes. `tree_remove` means to unlink the ones it
makes, on the way back, but never does (`remove_unlink`).

* `Shaped`: every hash is the hash of a list of children with distinct names, so its `size` is
  their number and each is in the bucket of its key. Both updates keep this, always.
* `NoDead`: every node below the root has info or a child. Insertion keeps it; a removal keeps it
  exactly when the node of the path is the root or has a child left (`remove_noDead_iff`).
* `Same`: equality up to the order in the buckets. It does not change whether there are dead
  branches, so a trie that a removal left one in is not the trie of before.
-/

namespace DiskAnalyzer

variable {α : Type}

/-! ## Children by list -/

theorem mem_children_hashOf {β : Type} {l : List (Bytes × β)} {k : Int} {e : Bytes × β} :
    e ∈ (hashOf l).children k ↔ e ∈ l ∧ getKey e.1 = k := by
  simp [hashOf]

/-- What is true of each child in a bucket is true of each child in the list. -/
theorem Hash.Named.forall_children {β : Type} {h : Hash β} {l : List (Bytes × β)} (hl : h.Named l)
    {P : β → Prop} : (∀ k e, e ∈ h.children k → P e.2) ↔ ∀ e ∈ l, P e.2 := by
  obtain ⟨rfl, -, -⟩ := hl
  simp only [mem_children_hashOf]
  exact ⟨fun hall e he => hall (getKey e.1) e ⟨he, rfl⟩, fun hall _ e he => hall e he.1⟩

namespace Tree

/-- At this node and below, `size` is the number of children and each is in its bucket. -/
inductive Shaped : Tree α → Prop
  | mk {i : Option α} {h : Hash (Tree α)} (l : List (Bytes × Tree α)) :
      h.Named l → (∀ e ∈ l, Shaped e.2) → Shaped (.mk i h)

/-- Some bucket is not empty. -/
def HasChild (t : Tree α) : Prop := ∃ k e, e ∈ t.hsh.children k

/-- The node is of use. -/
def Alive (t : Tree α) : Prop := t.info ≠ none ∨ t.HasChild

/-- Every node below this one is of use. -/
inductive NoDead : Tree α → Prop
  | mk {i : Option α} {h : Hash (Tree α)} : (∀ k e, e ∈ h.children k → e.2.Alive) →
      (∀ k e, e ∈ h.children k → NoDead e.2) → NoDead (.mk i h)

theorem Shaped.good {t : Tree α} (ht : t.Shaped) : t.Good := by
  induction ht with
  | mk l hl _ ih => exact .mk hl.goodHash (hl.forall_children.2 ih)

theorem shaped_treeInit : (treeInit : Tree α).Shaped :=
  .mk [] Hash.named_empty fun _ he => absurd he List.not_mem_nil

theorem noDead_treeInit : (treeInit : Tree α).NoDead :=
  .mk (fun _ _ he => absurd he List.not_mem_nil) fun _ _ he => absurd he List.not_mem_nil

section Named

variable {i : Option α} {h : Hash (Tree α)} {l : List (Bytes × Tree α)}

theorem noDead_iff (hl : h.Named l) :
    (mk i h).NoDead ↔ ∀ e ∈ l, e.2.Alive ∧ e.2.NoDead := by
  rw [← hl.forall_children (P := fun n => n.Alive ∧ n.NoDead)]
  constructor
  · intro hd
    cases hd with
    | mk hal hnd => exact fun k e he => ⟨hal k e he, hnd k e he⟩
  · exact fun hall => .mk (fun k e he => (hall k e he).1) fun k e he => (hall k e he).2

theorem hasChild_iff (hl : h.Named l) : (mk i h).HasChild ↔ l ≠ [] := by
  obtain ⟨rfl, -, -⟩ := hl
  constructor
  · intro hc hnil
    obtain ⟨k, e, he⟩ := hc
    exact absurd (mem_children_hashOf.1 he).1 (by simp [hnil])
  · intro hne
    obtain ⟨e, he⟩ := List.exists_mem_of_ne_nil l hne
    exact ⟨getKey e.1, e, mem_children_hashOf.2 ⟨he, rfl⟩⟩

theorem size_ne_zero_iff (hl : h.Named l) : h.size ≠ 0 ↔ (mk i h).HasChild := by
  rw [hasChild_iff hl, hl.eq]
  simp [hashOf]

/-- Writing a child that a lookup found: its new value decides. -/
theorem noDead_set_iff (hl : h.Named l) (hd : (mk i h).NoDead) {p : Bytes} {n : Tree α}
    (hf : hashFind h p = some n) {n' : Tree α} :
    (mk i (hashSet h p n')).NoDead ↔ n'.Alive ∧ n'.NoDead := by
  have hmem := hl.mem_of_find hf
  rw [noDead_iff (hl.set p n')]
  constructor
  · intro hall
    exact hall (component p, n') (List.mem_map.2 ⟨_, hmem, by simp⟩)
  · intro hn e he
    rcases mem_replaceNamed he with he | rfl
    · exact (noDead_iff hl).1 hd e he
    · exact hn

theorem hasChild_set (hl : h.Named l) {p : Bytes} {n : Tree α} (hf : hashFind h p = some n)
    (n' : Tree α) : (mk i (hashSet h p n')).HasChild := by
  rw [hasChild_iff (hl.set p n'), replaceNamed, ne_eq, List.map_eq_nil_iff]
  exact List.ne_nil_of_mem (hl.mem_of_find hf)

theorem shaped_set (hl : h.Named l) (hsub : ∀ e ∈ l, e.2.Shaped) (p : Bytes) {n' : Tree α}
    (hn : n'.Shaped) : (mk i (hashSet h p n')).Shaped := by
  refine .mk _ (hl.set p n') ?_
  intro e he
  rcases mem_replaceNamed he with he | rfl
  · exact hsub e he
  · exact hn

/-- Adding a child under a new name. -/
theorem shaped_add (hl : h.Named l) (hsub : ∀ e ∈ l, e.2.Shaped) {name : Bytes}
    (hname : GoodName name) (hf : hashFind h name = none) {n' : Tree α} (hn : n'.Shaped) :
    (mk i (hashSet (hashInsert h name treeInit).1 name n')).Shaped := by
  refine .mk _ (hl.add hname hf treeInit n') ?_
  intro e he
  rcases List.mem_append.1 he with he | he
  · exact hsub e he
  · obtain rfl := List.mem_singleton.1 he
    exact hn

theorem noDead_add (hl : h.Named l) (hd : (mk i h).NoDead) {name : Bytes}
    (hname : GoodName name) (hf : hashFind h name = none) {n' : Tree α} (ha : n'.Alive)
    (hn : n'.NoDead) :
    (mk i (hashSet (hashInsert h name treeInit).1 name n')).NoDead := by
  rw [noDead_iff (hl.add hname hf treeInit n')]
  intro e he
  rcases List.mem_append.1 he with he | he
  · exact (noDead_iff hl).1 hd e he
  · obtain rfl := List.mem_singleton.1 he
    exact ⟨ha, hn⟩

theorem hasChild_add (hl : h.Named l) {name : Bytes} (hname : GoodName name)
    (hf : hashFind h name = none) (n' : Tree α) :
    (mk i (hashSet (hashInsert h name treeInit).1 name n')).HasChild :=
  (hasChild_iff (hl.add hname hf treeInit n')).2 (by simp)

end Named

theorem Shaped.child {t n : Tree α} (ht : t.Shaped) {p : Bytes}
    (hf : hashFind t.hsh p = some n) : n.Shaped := by
  cases ht with
  | mk l hl hsub => exact hsub _ (hl.mem_of_find hf)

theorem NoDead.child {t n : Tree α} (hd : t.NoDead) {p : Bytes}
    (hf : hashFind t.hsh p = some n) : n.Alive ∧ n.NoDead := by
  obtain ⟨k, name, hmem⟩ := mem_of_hashFind hf
  cases hd with
  | mk hal hnd => exact ⟨hal k _ hmem, hnd k _ hmem⟩

/-! ## The two updates -/

theorem Shaped.insert {t : Tree α} (ht : t.Shaped) (p : Bytes) (i : Option α) :
    (treeInsert t p i none).2.Shaped := by
  induction p using components.induct generalizing t with
  | case1 p hp =>
    rw [treeInsert_of_nil hp]
    cases ht with
    | mk l hl hsub => exact .mk l hl hsub
  | case2 p hp _ ih =>
    have hcomp := hashFind_component ht.good.hsh (skipSlashes p)
    cases hf : hashFind t.hsh (skipSlashes p) with
    | some n =>
      have hbelow := ih (ht.child hf)
      rw [treeInsert_found hp hf]
      cases ht with
      | mk l hl hsub => exact shaped_set hl hsub _ hbelow
    | none =>
      rw [hf] at hcomp
      rw [treeInsert_new hp hcomp hf i (by simp)]
      cases ht with
      | mk l hl hsub =>
        exact shaped_add hl hsub (goodName_component hp) hcomp (ih shaped_treeInit)

/-- **An insertion leaves no dead branch**, and a node that is of use. -/
theorem insert_noDead {t : Tree α} (ht : t.Shaped) (hd : t.NoDead) (p : Bytes) (i : α) :
    (treeInsert t p (some i) none).2.Alive ∧ (treeInsert t p (some i) none).2.NoDead := by
  induction p using components.induct generalizing t with
  | case1 p hp =>
    rw [treeInsert_of_nil hp]
    refine ⟨Or.inl (by simp), ?_⟩
    cases hd with
    | mk hal hnd => exact .mk hal hnd
  | case2 p hp _ ih =>
    have hcomp := hashFind_component ht.good.hsh (skipSlashes p)
    cases hf : hashFind t.hsh (skipSlashes p) with
    | some n =>
      have hbelow := ih (ht.child hf) (hd.child hf).2
      rw [treeInsert_found hp hf]
      cases ht with
      | mk l hl hsub =>
        exact ⟨Or.inr (hasChild_set hl hf _), (noDead_set_iff hl hd hf).2 hbelow⟩
    | none =>
      obtain ⟨hal, hnd⟩ := ih shaped_treeInit noDead_treeInit
      rw [hf] at hcomp
      rw [treeInsert_new hp hcomp hf (some i) (by simp)]
      cases ht with
      | mk l hl hsub =>
        have hname := goodName_component hp
        exact ⟨Or.inr (hasChild_add hl hname hcomp _), noDead_add hl hd hname hcomp hal hnd⟩

theorem Shaped.remove {t : Tree α} (ht : t.Shaped) (p : Bytes) : (treeRemove t p).2.Shaped := by
  induction p using components.induct generalizing t with
  | case1 p hp =>
    rw [treeRemove_of_nil hp]
    cases ht with
    | mk l hl hsub => split <;> exact .mk l hl hsub
  | case2 p hp _ ih =>
    cases hf : hashFind t.hsh (skipSlashes p) with
    | none =>
      rw [treeRemove_of_ne hp, hf]
      exact ht
    | some n =>
      have hbelow := ih (ht.child hf)
      rw [treeRemove_child ht.good hp hf]
      split_ifs
      · exact ht
      · cases ht with
        | mk l hl hsub => exact shaped_set hl hsub _ hbelow

/-- The node of the path, if it has an info to lose, has a child. -/
def StaysUsed (t : Tree α) (p : Bytes) : Prop :=
  ∀ n, treeGetPath t p = some n → n.info = none ∨ n.hsh.size ≠ 0

theorem staysUsed_of_nil {t : Tree α} {p : Bytes} (hp : skipSlashes p = []) :
    t.StaysUsed p ↔ t.info = none ∨ t.hsh.size ≠ 0 := by
  rw [StaysUsed, treeGetPath, dif_pos hp]
  simp

theorem staysUsed_of_ne {t n : Tree α} {p : Bytes} (hp : skipSlashes p ≠ [])
    (hf : hashFind t.hsh (skipSlashes p) = some n) :
    t.StaysUsed p ↔ n.StaysUsed (afterComponent (skipSlashes p)) := by
  rw [StaysUsed, treeGetPath_of_ne hp, hf, StaysUsed]

/-- The removal of a path that is mapped, seen from the node's parent. -/
theorem remove_alive_iff {t : Tree α} (ht : t.Shaped) (hd : t.NoDead) {p : Bytes}
    (hret : (treeRemove t p).1 = 0) :
    (treeRemove t p).2.Alive ∧ (treeRemove t p).2.NoDead ↔ t.StaysUsed p := by
  induction p using components.induct generalizing t with
  | case1 p hp =>
    rw [treeRemove_of_nil hp] at hret ⊢
    rw [staysUsed_of_nil hp]
    cases ht with
    | mk l hl hsub =>
      rename_i i h
      cases i with
      | none => exact absurd hret (by simp)
      | some i =>
        have hnd : (mk none h).NoDead := (noDead_iff hl).2 ((noDead_iff hl).1 hd)
        simp only [info_mk, hsh_mk, Option.some_ne_none, false_or,
          size_ne_zero_iff (i := none) hl, Alive, ne_eq, not_true_eq_false]
        exact and_iff_left hnd
  | case2 p hp _ ih =>
    cases hf : hashFind t.hsh (skipSlashes p) with
    | none =>
      rw [treeRemove_of_ne hp, hf] at hret
      exact absurd hret one_ne_zero
    | some n =>
      rw [treeRemove_child ht.good hp hf] at hret ⊢
      rw [staysUsed_of_ne hp hf]
      split_ifs at hret ⊢ with hr
      · exact absurd hret one_ne_zero
      · rw [← ih (ht.child hf) (hd.child hf).2 (not_not.1 hr)]
        cases ht with
        | mk l hl hsub =>
          refine Iff.trans (and_iff_right (Or.inr (hasChild_set hl hf _))) ?_
          exact noDead_set_iff hl hd hf

/-- **When a removal leaves no dead branch.** -/
theorem remove_noDead_iff {t : Tree α} (ht : t.Shaped) (hd : t.NoDead) (p : Bytes) :
    (treeRemove t p).2.NoDead ↔ skipSlashes p = [] ∨ t.StaysUsed p := by
  by_cases hret : (treeRemove t p).1 = 0
  · rw [← remove_alive_iff ht hd hret]
    by_cases hp : skipSlashes p = []
    · refine iff_of_true ?_ (Or.inl hp)
      rw [treeRemove_of_nil hp]
      cases hd with
      | mk hal hnd => split <;> exact .mk hal hnd
    · have hal : (treeRemove t p).2.Alive := by
        cases hf : hashFind t.hsh (skipSlashes p) with
        | none =>
          rw [treeRemove_of_ne hp, hf] at hret
          exact absurd hret one_ne_zero
        | some n =>
          rw [treeRemove_child ht.good hp hf] at hret ⊢
          split_ifs at hret ⊢
          · exact absurd hret one_ne_zero
          · cases ht with
            | mk l hl hsub => exact Or.inr (hasChild_set hl hf _)
      simp [hp, hal]
  · obtain ⟨hok, hfail, -, -⟩ := remove_spec ht.good p
    have hval : t.val (components p) = none := by
      by_contra hne
      exact hret (hok.2 hne)
    rw [hfail hret]
    refine iff_of_true hd (Or.inr ?_)
    intro n hn
    rw [getPath_eq ht.good] at hn
    rw [val, hn, Option.bind_some] at hval
    exact Or.inl hval

/-! ## Up to bucket order -/

/-- The same trie but for the order in the buckets: the children of a bucket can be paired, name by
name, and the pairs are the same in turn. -/
inductive Same : Tree α → Tree α → Prop
  | mk {i : Option α} {h h' : Hash (Tree α)} (pairs : Int → List (Bytes × Tree α × Tree α)) :
      h.size = h'.size →
      (∀ k, ((pairs k).map fun x => (x.1, x.2.1)).Perm (h.children k)) →
      (∀ k, h'.children k = (pairs k).map fun x => (x.1, x.2.2)) →
      (∀ k, ∀ x ∈ pairs k, Same x.2.1 x.2.2) → Same (.mk i h) (.mk i h')

theorem Good.same {t : Tree α} (ht : t.Good) : Same t t := by
  induction ht with
  | @mk i h _ _ ih =>
    refine .mk (fun k => (h.children k).map fun e => (e.1, e.2, e.2)) rfl ?_ ?_ ?_
    · intro k
      rw [List.map_map]
      exact List.Perm.of_eq (List.map_id _)
    · intro k
      rw [List.map_map]
      exact (List.map_id _).symm
    · intro k x hx
      obtain ⟨e, he, rfl⟩ := List.mem_map.1 hx
      exact ih k e he

theorem Same.alive {s t : Tree α} (h : Same s t) (ht : t.Alive) : s.Alive := by
  cases h with
  | mk pairs _ hperm heq _ =>
    rcases ht with hi | hchild
    · exact Or.inl hi
    · obtain ⟨k, e, he⟩ := hchild
      rw [hsh_mk, heq k] at he
      obtain ⟨x, hx, -⟩ := List.mem_map.1 he
      exact Or.inr ⟨k, (x.1, x.2.1), (hperm k).mem_iff.1 (List.mem_map.2 ⟨x, hx, rfl⟩)⟩

/-- The order in the buckets is nothing to dead branches. -/
theorem Same.noDead {s t : Tree α} (h : Same s t) (ht : t.NoDead) : s.NoDead := by
  induction h with
  | @mk i h h' pairs _ hperm heq hsame ih =>
    have hpair : ∀ k e, e ∈ h.children k → ∃ x ∈ pairs k, x.2.1 = e.2 := by
      intro k e he
      obtain ⟨x, hx, rfl⟩ := List.mem_map.1 ((hperm k).mem_iff.2 he)
      exact ⟨x, hx, rfl⟩
    have hmem : ∀ k, ∀ x ∈ pairs k, (x.1, x.2.2) ∈ h'.children k := by
      intro k x hx
      rw [heq k]
      exact List.mem_map.2 ⟨x, hx, rfl⟩
    cases ht with
    | mk hal hnd =>
      constructor
      · intro k e he
        obtain ⟨x, hx, hxe⟩ := hpair k e he
        exact hxe ▸ (hsame k x hx).alive (hal k _ (hmem k x hx))
      · intro k e he
        obtain ⟨x, hx, hxe⟩ := hpair k e he
        exact hxe ▸ ih k x hx (hnd k _ (hmem k x hx))

/-! ## Inserting and removing -/

theorem listSet_listSet {β : Type} (chain : List (Bytes × β)) (p : Bytes) (x y : β) :
    listSet (listSet chain p x) p y = listSet chain p y := by
  induction chain with
  | nil => rfl
  | cons e next ih =>
    obtain ⟨name, node⟩ := e
    by_cases hm : nameMatches name p = true
    · simp only [listSet, hm, if_true]
    · simp only [listSet, hm, if_false, ih, Bool.false_eq_true]

theorem listSet_self {β : Type} {chain : List (Bytes × β)} {p : Bytes} {x : β}
    (h : listFind chain p = some x) : listSet chain p x = chain := by
  induction chain with
  | nil => rfl
  | cons e next ih =>
    obtain ⟨name, node⟩ := e
    rw [listFind] at h
    rw [listSet]
    split_ifs at h ⊢ with hm
    · rw [Option.some.inj h]
    · rw [ih h]

theorem setChild_setChild (t : Tree α) (p : Bytes) (n n' : Tree α) :
    (t.setChild p n).setChild p n' = t.setChild p n' := by
  simp [setChild, hashSet, listSet_listSet]

theorem setChild_self {t n : Tree α} {p : Bytes} (hf : hashFind t.hsh p = some n) :
    t.setChild p n = t := by
  cases t with
  | mk i h =>
    rw [hsh_mk, hashFind] at hf
    simp [setChild, hashSet, listSet_self hf]

theorem getPath_treeInit (p : Bytes) :
    (treeGetPath (treeInit : Tree α) p).getD treeInit = treeInit := by
  by_cases hp : skipSlashes p = []
  · rw [treeGetPath, dif_pos hp, Option.getD_some]
  · rw [treeGetPath_of_ne hp, show (treeInit : Tree α).hsh = Hash.empty from rfl]
    rfl

/-- The node an insertion ends at: the one that was there, or a new one. -/
theorem getPath_insert {t : Tree α} (hg : t.Good) (p : Bytes) (i : Option α) :
    treeGetPath (treeInsert t p i none).2 p =
      some (mk i ((treeGetPath t p).getD treeInit).hsh) := by
  induction p using components.induct generalizing t with
  | case1 p hp =>
    rw [treeInsert_of_nil hp, treeGetPath, dif_pos hp, treeGetPath, dif_pos hp, Option.getD_some]
  | case2 p hp _ ih =>
    have hcomp := hashFind_component hg.hsh (skipSlashes p)
    rw [treeGetPath_of_ne hp t]
    cases hf : hashFind t.hsh (skipSlashes p) with
    | some n =>
      rw [treeInsert_found hp hf, treeGetPath_of_ne hp, hsh_setChild, hashFind_set_self hf]
      exact ih (hg.child hf)
    | none =>
      rw [hf] at hcomp
      have hname := goodName_component hp
      rw [treeInsert_new hp hcomp hf i (by simp), treeGetPath_of_ne hp, hsh_mk,
        ← hashFind_component (good_hashSet (good_hashInsert hg.hsh hname _) _ _),
        hashFind_set_self (hashFind_insert_self hname hcomp _)]
      exact (ih good_treeInit).trans (by rw [getPath_treeInit, Option.getD_none])

/-- Inserting at a node that is there and has no info, and removing again. -/
theorem remove_insert {t n : Tree α} (hg : t.Good) {p : Bytes} (hn : treeGetPath t p = some n)
    (hi : n.info = none) (i : α) : treeRemove (treeInsert t p (some i) none).2 p = (0, t) := by
  induction p using components.induct generalizing t with
  | case1 p hp =>
    rw [treeGetPath, dif_pos hp] at hn
    obtain rfl := Option.some.inj hn
    rw [treeInsert_of_nil hp, treeRemove_of_nil hp]
    cases t with
    | mk i' h =>
      obtain rfl : i' = none := hi
      rfl
  | case2 p hp _ ih =>
    rw [treeGetPath_of_ne hp] at hn
    cases hf : hashFind t.hsh (skipSlashes p) with
    | none =>
      rw [hf] at hn
      exact absurd hn (by simp)
    | some m =>
      rw [hf] at hn
      have hgood := (insert_spec hg p (some i) none).1
      rw [treeInsert_found hp hf] at hgood ⊢
      rw [treeRemove_child hgood hp (hashFind_set_self hf _), ih (hg.child hf) hn]
      simp [setChild_setChild, setChild_self hf]

/-! ## Runs -/

/-- A removal that is not at the root leaves the node of the path with a child, or finds nothing
to remove there. -/
def Op.Spares (t : Tree α) : Op α → Prop
  | insert _ _ => True
  | remove p => skipSlashes p = [] ∨ t.StaysUsed p

/-- Updates of a trie that `tree_init` started, allocation succeeding. -/
def updates (α : Type) : Lts.System (Tree α) (Op α) := Lts.System.ofFun (· = treeInit) Op.run

theorem Shaped.run {t : Tree α} (ht : t.Shaped) (op : Op α) : (op.run t).Shaped := by
  cases op with
  | insert p i => exact ht.insert p (some i)
  | remove p => exact ht.remove p

theorem run_noDead_iff {t : Tree α} (ht : t.Shaped) (hd : t.NoDead) (op : Op α) :
    (op.run t).NoDead ↔ op.Spares t := by
  cases op with
  | insert p i => exact iff_of_true (insert_noDead ht hd p i).2 trivial
  | remove p => exact remove_noDead_iff ht hd p

/-- **Sizes and buckets are right in every run.** -/
theorem shaped_of_reachable {t : Tree α} (h : (updates α).Reachable t) : t.Shaped := by
  apply h.invariant
  · intro s hs
    obtain rfl : s = treeInit := hs
    exact shaped_treeInit
  · intro s op s' hs hstep
    obtain rfl : op.run s = s' := hstep
    exact hs.run op

/-- The path "/a". -/
def pathA : Bytes := [slash, 97]

/-- A new node has no child: the removal of a path that an insertion made is not spared. -/
theorem not_spares_pathA :
    ¬ (Op.remove pathA).Spares (treeInsert (treeInit : Tree Nat) pathA (some 1) none).2 := by
  intro hspares
  rcases hspares with hp | hstays
  · exact absurd hp (by decide)
  · have hnew := getPath_insert (good_treeInit (α := Nat)) pathA (some 1)
    rw [getPath_treeInit] at hnew
    have hlost := hstays _ hnew
    simp [treeInit, Hash.empty] at hlost

end Tree

end DiskAnalyzer
