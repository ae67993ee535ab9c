import DiskAnalyzer.Tree
import Mathlib.Data.Nat.Init
import Mathlib.Tactic.Push

/-!
# `tree.c`: a finite map from component lists

A trie is read by walking it along a list of components. `Good` says every stored name can be a
component; with that, what `hash_find` does with the rest of a path is a walk along its
components (`getPath_eq`), whatever the keys of the names are.

* `insert_spec`, `remove_spec`: the two updates change the map at one component list.
* `findPrefix_eq_some_iff`: the prefix search stops at the shortest mapped prefix.
* `tree_refines_pathMap`: any sequence of updates, against the reference map.

`tree_remove` means to unlink nodes that have become useless. It hands `hash_remove` the wrong
part of the path, so it never unlinks anything (`remove_unlink`); the map does not notice.
-/

namespace DiskAnalyzer

variable {α : Type}

namespace Tree

/-! ## Walking a trie -/

/-- Every name stored at or below this node can be a component. -/
inductive Good : Tree α → Prop
  | mk {i : Option α} {h : Hash (Tree α)} : h.Good → (∀ k e, e ∈ h.children k → Good e.2) →
      Good (.mk i h)

theorem Good.hsh {t : Tree α} (hg : t.Good) : t.hsh.Good := by
  cases hg with
  | mk hh _ => exact hh

theorem Good.sub {t : Tree α} (hg : t.Good) {k : Int} {e : Bytes × Tree α}
    (he : e ∈ t.hsh.children k) : e.2.Good := by
  cases hg with
  | mk _ hb => exact hb k e he

theorem Good.child {t n : Tree α} (hg : t.Good) {path : Bytes} (h : hashFind t.hsh path = some n) :
    n.Good := by
  obtain ⟨k, name, hmem⟩ := mem_of_hashFind h
  exact hg.sub hmem

theorem good_treeInit : (treeInit : Tree α).Good :=
  .mk Hash.good_empty fun _ _ he => absurd he List.not_mem_nil

/-- The node a list of components leads to. -/
def walk (t : Tree α) : List Bytes → Option (Tree α)
  | [] => some t
  | c :: cs => (hashFind t.hsh c).bind fun n => n.walk cs

/-- The info stored under a list of components. -/
def val (t : Tree α) (cs : List Bytes) : Option α := (t.walk cs).bind info

@[simp] theorem val_nil (t : Tree α) : t.val [] = t.info := rfl

theorem val_cons (t : Tree α) (c : Bytes) (cs : List Bytes) :
    t.val (c :: cs) = (hashFind t.hsh c).bind fun n => n.val cs := by
  unfold val
  rw [walk, Option.bind_assoc]

theorem val_treeInit (cs : List Bytes) : (treeInit : Tree α).val cs = none := by
  cases cs with
  | nil => rfl
  | cons c cs => rw [val_cons, show (treeInit : Tree α).hsh = Hash.empty from rfl]; rfl

/-! ## Replacing one child -/

theorem good_mk_hashSet {i : Option α} {h : Hash (Tree α)} (hg : h.Good)
    (hb : ∀ k e, e ∈ h.children k → e.2.Good) (path : Bytes) {n : Tree α} (hn : n.Good) :
    (mk i (hashSet h path n)).Good := by
  refine .mk (good_hashSet hg path n) ?_
  intro k e he
  rw [children_hashSet] at he
  split_ifs at he
  · rcases mem_listSet he with he | ⟨heq, -⟩
    · exact hb k e he
    · rw [heq]; exact hn
  · exact hb k e he

theorem good_setChild {t n : Tree α} (hg : t.Good) (path : Bytes) (hn : n.Good) :
    (t.setChild path n).Good := good_mk_hashSet hg.hsh (fun _ _ he => hg.sub he) path hn

theorem good_hashInsert_below {h : Hash (Tree α)} (hb : ∀ k e, e ∈ h.children k → e.2.Good)
    (name : Bytes) {k : Int} {e : Bytes × Tree α}
    (he : e ∈ (hashInsert h name treeInit).1.children k) : e.2.Good := by
  cases hf : hashFind h name with
  | some node =>
    rw [hashInsert_of_some hf] at he
    exact hb k e he
  | none =>
    rw [children_hashInsert hf] at he
    split_ifs at he
    · rw [listPush_eq, List.mem_append, List.mem_singleton] at he
      rcases he with he | rfl
      · exact hb k e he
      · exact good_treeInit
    · exact hb k e he

/-- The node `tree_insert` makes for a missing component, then writes. -/
theorem good_insertChild {t n : Tree α} (hg : t.Good) {name : Bytes} (hname : GoodName name)
    (hn : n.Good) :
    (mk t.info (hashSet (hashInsert t.hsh name treeInit).1 name n)).Good :=
  good_mk_hashSet (good_hashInsert hg.hsh hname _)
    (fun _ _ he => good_hashInsert_below (fun _ _ he => hg.sub he) name he) name hn

theorem find_setChild {t n : Tree α} (hg : t.Good) {path : Bytes} {old : Tree α}
    (h : hashFind t.hsh path = some old) {c : Bytes} (hc : GoodName c) :
    hashFind (t.setChild path n).hsh c =
      if c = component path then some n else hashFind t.hsh c := by
  have hcc := component_self hc.2
  rw [hsh_setChild]
  split_ifs with heq
  · rw [hashFind_congr (good_hashSet hg.hsh path n) (hcc.trans heq)]
    exact hashFind_set_self h n
  · exact hashFind_set_ne hg.hsh (fun h' => heq (by rw [h', hcc])) n

theorem find_insertChild {t n : Tree α} (hg : t.Good) {name : Bytes} (hname : GoodName name)
    (h : hashFind t.hsh name = none) {c : Bytes} (hc : GoodName c) :
    hashFind (hashSet (hashInsert t.hsh name treeInit).1 name n) c =
      if c = name then some n else hashFind t.hsh c := by
  have hcc := component_self hc.2
  have hnn := component_self hname.2
  split_ifs with heq
  · rw [heq]
    exact hashFind_set_self (hashFind_insert_self hname h _) n
  · rw [hashFind_set_ne (good_hashInsert hg.hsh hname _)
      (fun h' => heq (by rw [← hcc, ← h', hnn])) n]
    exact hashFind_insert_ne hname (fun h' => heq (by rw [h', hcc])) h _

/-! ## Lookup -/

/-- **`tree_get_path` walks along the components**, however many slashes separate them. -/
theorem getPath_eq {t : Tree α} (hg : t.Good) (p : Bytes) :
    treeGetPath t p = t.walk (components p) := by
  -- On the cursor of the source's loop; the node moves with it.
  induction p using components.induct generalizing t with
  | case1 p hp => rw [treeGetPath, dif_pos hp, components_of_nil hp, walk]
  | case2 p hp _ ih =>
    rw [treeGetPath_of_ne hp, components_of_ne hp, walk, hashFind_component hg.hsh]
    cases hf : hashFind t.hsh (skipSlashes p) with
    | none => rfl
    | some n => exact ih (hg.child hf)

/-- What the shortest mapped prefix of the names is mapped to. -/
def Shortest (t : Tree α) (cs : List Bytes) (i : α) : Prop :=
  ∃ k ≤ cs.length, t.val (cs.take k) = some i ∧ ∀ j < k, t.val (cs.take j) = none

theorem shortest_of_info {t : Tree α} {i' : α} (hi : t.info = some i') (cs : List Bytes) (i : α) :
    Shortest t cs i ↔ i' = i := by
  constructor
  · intro hex
    obtain ⟨k, _, hv, hj⟩ := hex
    cases k with
    | zero => simpa [hi] using hv
    | succ k =>
      have h0 := hj 0 (by omega)
      simp [hi] at h0
  · intro h
    exact ⟨0, Nat.zero_le _, by simpa [hi] using h, fun j hj => absurd hj (by omega)⟩

theorem not_shortest_nil {t : Tree α} (hi : t.info = none) (i : α) : ¬ Shortest t [] i := by
  intro hex
  obtain ⟨k, _, hv, _⟩ := hex
  simp [hi] at hv

/-- A node without info is passed. -/
theorem shortest_cons {t : Tree α} (hi : t.info = none) (c : Bytes) (cs : List Bytes) (i : α) :
    Shortest t (c :: cs) i ↔ ∃ n, hashFind t.hsh c = some n ∧ Shortest n cs i := by
  cases hf : hashFind t.hsh c with
  | none =>
    have hval : ∀ k, t.val ((c :: cs).take (k + 1)) = none := fun k => by
      rw [List.take_succ_cons, val_cons, hf, Option.bind_none]
    refine iff_of_false (fun hex => ?_) (by simp)
    obtain ⟨k, _, hv, _⟩ := hex
    cases k with
    | zero => simp [hi] at hv
    | succ k =>
      rw [hval] at hv
      contradiction
  | some n =>
    have hval : ∀ k, t.val ((c :: cs).take (k + 1)) = n.val (cs.take k) := fun k => by
      rw [List.take_succ_cons, val_cons, hf, Option.bind_some]
    have hshift : Shortest t (c :: cs) i ↔ Shortest n cs i := by
      constructor
      · intro hex
        obtain ⟨k, hk, hv, hj⟩ := hex
        cases k with
        | zero => simp [hi] at hv
        | succ k =>
          rw [hval] at hv
          refine ⟨k, by simpa using hk, hv, ?_⟩
          intro j hjk
          rw [← hval]
          exact hj (j + 1) (by omega)
      · intro hex
        obtain ⟨k, hk, hv, hj⟩ := hex
        refine ⟨k + 1, by simpa using hk, by rw [hval]; exact hv, ?_⟩
        intro j hjk
        cases j with
        | zero => simpa using hi
        | succ j => rw [hval]; exact hj j (by omega)
    rw [hshift]
    simp

theorem findPrefixLoop_eq_some_iff {t : Tree α} (hg : t.Good) (hi : t.info = none) (p : Bytes)
    (i : α) : treeFindPrefixLoop t p = some i ↔ Shortest t (components p) i := by
  induction p using components.induct generalizing t with
  | case1 p hp =>
    rw [treeFindPrefixLoop_of_nil hp, components_of_nil hp]
    exact iff_of_false (by simp) (not_shortest_nil hi i)
  | case2 p hp _ ih =>
    rw [treeFindPrefixLoop_of_ne hp, components_of_ne hp, shortest_cons hi,
      ← hashFind_component hg.hsh]
    cases hf : hashFind t.hsh (component (skipSlashes p)) with
    | none => simp
    | some n =>
      simp only [Option.some.injEq, exists_eq_left']
      cases hni : n.info with
      | none => exact ih (hg.child hf) hni
      | some i' => rw [shortest_of_info hni, Option.some.injEq]

/-- **The prefix search stops at the shortest mapped prefix.** -/
theorem findPrefix_eq_some_iff {t : Tree α} (hg : t.Good) (p : Bytes) (i : α) :
    treeFindPrefix t p = some i ↔
      ∃ k ≤ (components p).length, t.val ((components p).take k) = some i ∧
        ∀ j < k, t.val ((components p).take j) = none := by
  change treeFindPrefix t p = some i ↔ Shortest t (components p) i
  unfold treeFindPrefix
  cases hi : t.info with
  | none => exact findPrefixLoop_eq_some_iff hg hi p i
  | some i' => rw [shortest_of_info hi, Option.some.injEq]

/-- The search fails only when no prefix is mapped. -/
theorem findPrefix_ne_none_iff {t : Tree α} (hg : t.Good) (p : Bytes) :
    treeFindPrefix t p ≠ none ↔
      ∃ k ≤ (components p).length, t.val ((components p).take k) ≠ none := by
  rw [Option.ne_none_iff_exists']
  constructor
  · intro hex
    obtain ⟨i, hi⟩ := hex
    obtain ⟨k, hk, hv, -⟩ := (findPrefix_eq_some_iff hg p i).1 hi
    exact ⟨k, hk, by simp [hv]⟩
  · intro hex
    obtain ⟨k, hk, hv⟩ := hex
    -- The shortest of the mapped prefixes is the one the search finds.
    induction k using Nat.strong_induction_on with
    | _ k ih =>
      by_cases hall : ∀ j < k, t.val ((components p).take j) = none
      · obtain ⟨i, hi⟩ := Option.ne_none_iff_exists'.1 hv
        exact ⟨i, (findPrefix_eq_some_iff hg p i).2 ⟨k, hk, hi, hall⟩⟩
      · push Not at hall
        obtain ⟨j, hj, hvj⟩ := hall
        exact ih j hj (by omega) hvj

/-- It fails when no prefix is mapped. -/
theorem findPrefix_eq_none_iff {t : Tree α} (hg : t.Good) (p : Bytes) :
    treeFindPrefix t p = none ↔ ∀ cs, cs <+: components p → t.val cs = none := by
  rw [← not_iff_not, ← ne_eq, findPrefix_ne_none_iff hg]
  push Not
  constructor
  · rintro ⟨k, -, hk⟩
    exact ⟨_, List.take_prefix k _, hk⟩
  · rintro ⟨cs, hcs, hval⟩
    refine ⟨cs.length, hcs.length_le, ?_⟩
    rwa [← List.prefix_iff_eq_take.1 hcs]

/-! ## Updates -/

/-- Replacing the child under one name, in the cases where `b` holds and its value under `cs₀` is
what changes. -/
theorem val_replaceChild (t : Tree α) {t' n' : Tree α} {name : Bytes} (hinfo : t'.info = t.info)
    (hfind : ∀ c, GoodName c →
      hashFind t'.hsh c = if c = name then some n' else hashFind t.hsh c)
    {b : Prop} [Decidable b] {cs₀ : List Bytes} {i : Option α}
    (hval : ∀ cs, GoodNames cs → n'.val cs =
      if b ∧ cs = cs₀ then i else (hashFind t.hsh name).bind fun n => n.val cs)
    {cs : List Bytes} (hcs : GoodNames cs) :
    t'.val cs = if b ∧ cs = name :: cs₀ then i else t.val cs := by
  cases cs with
  | nil => simp [hinfo]
  | cons c cs =>
    have hc := hcs c List.mem_cons_self
    have hcs' : GoodNames cs := fun d hd => hcs d (List.mem_cons_of_mem _ hd)
    rw [val_cons, val_cons, hfind c hc]
    by_cases heq : c = name
    · rw [if_pos heq, Option.bind_some, hval cs hcs', heq]
      simp
    · rw [if_neg heq, if_neg fun h => heq (List.cons.inj h.2).1]

theorem insert_none_fst (t : Tree α) (p : Bytes) (i : Option α) :
    (treeInsert t p i none).1 = 0 := by
  induction p using components.induct generalizing t with
  | case1 p hp => rw [treeInsert_of_nil hp]
  | case2 p hp _ ih =>
    rw [treeInsert_of_ne hp]
    cases hf : hashFind t.hsh (skipSlashes p) with
    | some n => exact ih n
    | none =>
      rw [if_neg (by simp)]
      exact ih _

/-- A component that is there: the cursor moves into it. -/
theorem treeInsert_found {t n : Tree α} {p : Bytes} (hp : skipSlashes p ≠ [])
    (hf : hashFind t.hsh (skipSlashes p) = some n) (i : Option α) (alloc : Alloc) :
    treeInsert t p i alloc =
      ((treeInsert n (afterComponent (skipSlashes p)) i alloc).1,
        t.setChild (skipSlashes p) (treeInsert n (afterComponent (skipSlashes p)) i alloc).2) := by
  rw [treeInsert_of_ne hp, hf]

/-- A component that is not there: the cursor moves into a new node. -/
theorem treeInsert_new {t : Tree α} {p : Bytes} (hp : skipSlashes p ≠ [])
    (hf : hashFind t.hsh (component (skipSlashes p)) = none)
    (hf' : hashFind t.hsh (skipSlashes p) = none) (i : Option α) {alloc : Alloc}
    (ha : alloc ≠ some 0) :
    treeInsert t p i alloc =
      ((treeInsert treeInit (afterComponent (skipSlashes p)) i (alloc.map Nat.pred)).1,
        .mk t.info (hashSet (hashInsert t.hsh (component (skipSlashes p)) treeInit).1
          (component (skipSlashes p))
          (treeInsert treeInit (afterComponent (skipSlashes p)) i (alloc.map Nat.pred)).2)) := by
  rw [treeInsert_of_ne hp, hf']
  dsimp only
  rw [if_neg ha, congrArg Prod.snd (hashInsert_of_none hf treeInit)]

/-- **One insertion.** It writes the info of the path, and nothing if an allocation fails; the
components it created on the way carry no info. -/
theorem insert_spec {t : Tree α} (hg : t.Good) (p : Bytes) (i : Option α) (alloc : Alloc) :
    (treeInsert t p i alloc).2.Good ∧
      ∀ cs, GoodNames cs → (treeInsert t p i alloc).2.val cs =
        if (treeInsert t p i alloc).1 = 0 ∧ cs = components p then i else t.val cs := by
  -- On the cursor; the subtree below the component is the one the recursion writes.
  induction p using components.induct generalizing t alloc with
  | case1 p hp =>
    rw [treeInsert_of_nil hp, components_of_nil hp]
    refine ⟨.mk hg.hsh fun _ _ he => hg.sub he, ?_⟩
    intro cs _
    cases cs with
    | nil => simp
    | cons c cs => simp [val_cons]
  | case2 p hp _ ih =>
    have hname := goodName_component hp
    rw [components_of_ne hp]
    cases hf : hashFind t.hsh (skipSlashes p) with
    | some n =>
      obtain ⟨hgood, hval⟩ := ih (hg.child hf) alloc
      rw [treeInsert_found hp hf]
      refine ⟨good_setChild hg _ hgood, ?_⟩
      intro cs hcs
      refine val_replaceChild t (info_setChild t _ _) (fun c hc => find_setChild hg hf hc)
        (fun cs' hcs' => ?_) hcs
      rw [hval cs' hcs', hashFind_component hg.hsh, hf]
      rfl
    | none =>
      by_cases ha : alloc = some 0
      · rw [treeInsert_of_ne hp, hf]
        dsimp only
        rw [if_pos ha]
        exact ⟨hg, fun cs _ => by simp⟩
      · have hf' : hashFind t.hsh (component (skipSlashes p)) = none := by
          rw [hashFind_component hg.hsh, hf]
        obtain ⟨hgood, hval⟩ := ih good_treeInit (alloc.map Nat.pred)
        rw [treeInsert_new hp hf' hf i ha]
        refine ⟨good_insertChild hg hname hgood, ?_⟩
        intro cs hcs
        refine val_replaceChild t (info_mk t.info _)
          (fun c hc => find_insertChild hg hname hf' hc) (fun cs' hcs' => ?_) hcs
        rw [hval cs' hcs', hf', val_treeInit]
        rfl

/-- `tree_remove` hands `hash_remove` a path that does not start with a name. -/
theorem remove_unlink {h : Hash (Tree α)} (hg : h.Good) (p : Bytes) :
    hashRemove h (afterComponent (skipSlashes p)) = (1, h) := by
  apply hashRemove_eq_self hg
  cases hq : afterComponent (skipSlashes p) with
  | nil => rfl
  | cons b q =>
    have hb := afterComponent_head hq
    simp [component, hb]

/-- So the step after the recursion only writes the child back. -/
theorem treeRemove_child {t n : Tree α} (hg : t.Good) {p : Bytes} (hp : skipSlashes p ≠ [])
    (hf : hashFind t.hsh (skipSlashes p) = some n) :
    treeRemove t p =
      if (treeRemove n (afterComponent (skipSlashes p))).1 ≠ 0 then (1, t)
      else (0, t.setChild (skipSlashes p) (treeRemove n (afterComponent (skipSlashes p))).2) := by
  rw [treeRemove_of_ne hp, hf]
  dsimp only
  rw [hsh_setChild, remove_unlink (good_hashSet hg.hsh _ _)]
  split_ifs <;> rfl

/-- **One removal.** It returns 0 exactly when the path has info, and then clears it. -/
theorem remove_spec {t : Tree α} (hg : t.Good) (p : Bytes) :
    ((treeRemove t p).1 = 0 ↔ t.val (components p) ≠ none) ∧
      ((treeRemove t p).1 ≠ 0 → treeRemove t p = (1, t)) ∧
      (treeRemove t p).2.Good ∧
      ∀ cs, GoodNames cs → (treeRemove t p).2.val cs =
        if (treeRemove t p).1 = 0 ∧ cs = components p then none else t.val cs := by
  induction p using components.induct generalizing t with
  | case1 p hp =>
    rw [treeRemove_of_nil hp, components_of_nil hp]
    cases hi : t.info with
    | none => simp [hi, hg]
    | some i =>
      refine ⟨by simp [hi], by simp, .mk hg.hsh fun _ _ he => hg.sub he, ?_⟩
      intro cs _
      cases cs with
      | nil => simp
      | cons c cs => simp [val_cons]
  | case2 p hp _ ih =>
    have hname := goodName_component hp
    rw [components_of_ne hp, val_cons, hashFind_component hg.hsh]
    cases hf : hashFind t.hsh (skipSlashes p) with
    | none =>
      rw [treeRemove_of_ne hp, hf]
      simp [hg]
    | some n =>
      obtain ⟨hret, hfail, hgood, hval⟩ := ih (hg.child hf)
      rw [treeRemove_child hg hp hf, Option.bind_some, ← hret]
      by_cases hr : (treeRemove n (afterComponent (skipSlashes p))).1 = 0
      · rw [if_neg (by simp [hr])]
        refine ⟨by simp [hr], by simp, good_setChild hg _ hgood, ?_⟩
        intro cs hcs
        refine val_replaceChild t (info_setChild t _ _) (fun c hc => find_setChild hg hf hc)
          (fun cs' hcs' => ?_) hcs
        rw [hval cs' hcs', hashFind_component hg.hsh, hf]
        simp [hr]
      · rw [if_pos hr]
        simp [hr, hg]

/-! ## The reference map -/

/-- A finite map from component lists. -/
abbrev PathMap (α : Type) := List Bytes → Option α

/-- The trie stores the map's entries. -/
structure Represents (t : Tree α) (m : PathMap α) : Prop where
  good : t.Good
  val_eq : ∀ cs, GoodNames cs → t.val cs = m cs

theorem represents_treeInit : Represents (treeInit : Tree α) fun _ => none :=
  ⟨good_treeInit, fun cs _ => val_treeInit cs⟩

theorem Represents.insert {t : Tree α} {m : PathMap α} (hr : Represents t m) (p : Bytes)
    (i : α) :
    Represents (treeInsert t p (some i) none).2 (Function.update m (components p) (some i)) := by
  obtain ⟨hgood, hval⟩ := insert_spec hr.good p (some i) none
  refine ⟨hgood, ?_⟩
  intro cs hcs
  rw [hval cs hcs, insert_none_fst, Function.update_apply, hr.val_eq cs hcs]
  simp

theorem Represents.remove {t : Tree α} {m : PathMap α} (hr : Represents t m) (p : Bytes) :
    Represents (treeRemove t p).2 (Function.update m (components p) none) := by
  obtain ⟨hret, -, hgood, hval⟩ := remove_spec hr.good p
  refine ⟨hgood, ?_⟩
  intro cs hcs
  rw [hval cs hcs, Function.update_apply, hr.val_eq cs hcs]
  rw [hr.val_eq _ (goodNames_components p)] at hret
  by_cases heq : cs = components p
  · by_cases hm : m (components p) = none
    · simp [heq, hm]
    · simp [heq, hret.2 hm]
  · simp [heq]

/-- The operations on a trie of paths. -/
inductive Op (α : Type) where
  | insert (path : Bytes) (info : α)
  | remove (path : Bytes)

/-- An operation on the trie, allocation succeeding. -/
def Op.run (t : Tree α) : Op α → Tree α
  | insert path i => (treeInsert t path (some i) none).2
  | remove path => (treeRemove t path).2

/-- The same operation on the reference map. -/
def Op.apply (m : PathMap α) : Op α → PathMap α
  | insert path i => Function.update m (components path) (some i)
  | remove path => Function.update m (components path) none

theorem Represents.runAll {ops : List (Op α)} {t : Tree α} {m : PathMap α} (hr : Represents t m) :
    Represents (ops.foldl Op.run t) (ops.foldl Op.apply m) := by
  induction ops generalizing t m with
  | nil => exact hr
  | cons op ops ih =>
    cases op with
    | insert path i => exact ih (hr.insert path i)
    | remove path => exact ih (hr.remove path)

/-- **The trie of paths is a finite map.** After any sequence of operations and for any path:
lookup reaches a node with info exactly when the path is mapped, and the info is the mapped one;
the prefix search returns the info of the shortest mapped prefix; removal returns 0 exactly when
the path is mapped, and then unmaps that path and no other, and otherwise returns 1 and changes
nothing; insertion returns 0 and maps the path. -/
theorem tree_refines_pathMap (ops : List (Op α)) (p : Bytes) :
    let t := ops.foldl Op.run treeInit
    let m := ops.foldl Op.apply fun _ => none
    Represents t m ∧
      (treeGetPath t p).bind info = m (components p) ∧
      (treeFindPrefix t p ≠ none ↔
        ∃ k ≤ (components p).length, m ((components p).take k) ≠ none) ∧
      (∀ i, treeFindPrefix t p = some i ↔
        ∃ k ≤ (components p).length, m ((components p).take k) = some i ∧
          ∀ j < k, m ((components p).take j) = none) ∧
      ((treeRemove t p).1 = 0 ↔ m (components p) ≠ none) ∧
      ((treeRemove t p).1 ≠ 0 → treeRemove t p = (1, t)) ∧
      Represents (treeRemove t p).2 (Function.update m (components p) none) ∧
      ∀ i, (treeInsert t p (some i) none).1 = 0 ∧
        Represents (treeInsert t p (some i) none).2
          (Function.update m (components p) (some i)) := by
  intro t m
  have hr : Represents t m := represents_treeInit.runAll
  obtain ⟨hret, hfail, -, -⟩ := remove_spec hr.good p
  rw [hr.val_eq _ (goodNames_components p)] at hret
  have htake : ∀ k, t.val ((components p).take k) = m ((components p).take k) := fun k =>
    hr.val_eq _ fun c hc => goodName_of_mem_components (List.mem_of_mem_take hc)
  refine ⟨hr, ?_, ?_, ?_, hret, hfail, hr.remove p, ?_⟩
  · rw [getPath_eq hr.good]
    exact hr.val_eq _ (goodNames_components p)
  · rw [findPrefix_ne_none_iff hr.good]
    simp only [htake]
  · intro i
    rw [findPrefix_eq_some_iff hr.good]
    simp only [htake]
  · intro i
    exact ⟨insert_none_fst t p (some i), hr.insert p i⟩

end Tree

end DiskAnalyzer
