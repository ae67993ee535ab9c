import DiskAnalyzer.Threads
import DiskAnalyzer.TreapProof
import DiskAnalyzer.TreeProof
import DiskAnalyzer.Lib.IdPool
import DiskAnalyzer.Lib.Run

/-!
# `threads_manager.c`: the ids in use

The free ids are a pool grown at the top: `get_free_id` puts the successor of the last free id in
its place. What keeps ids apart is `IdsInv`, the pool invariant for the two treaps.

A failing add hands its id back through `return_id`, which takes a lone free node for that
successor and drops it. When two ids were free before the add, the lone node is an id that was
free all along, and dropping it can leave a used id above the largest free one (`Fragile`).
Away from that, every run keeps the ids distinct (`ids_distinct`); with it, six requests are enough
to hand out an id twice (`ids_collide`).
-/

namespace DiskAnalyzer

open Treap IdPool

variable {α : Type}

/-! ## Treaps of few nodes -/

namespace Treap

@[simp] theorem setAnal_node {β : Type} (i h : Int) (a : α) (l r : Treap α) (b : β) :
    (node i h a l r).setAnal b = node i h b nil nil := rfl

theorem mem_ids_modify {t : Treap α} {id : Int} {f : α → α} :
    (t.modify id f).ids = t.ids := by
  induction t with
  | nil => rfl
  | node i h a l r ihl ihr =>
    rw [modify]
    split_ifs <;> simp [ihl, ihr]

theorem mem_ids_added {t : Treap α} {id h j x : Int} {a : α} {f : α → α} :
    x ∈ ((treapInsertNode t (node id h a nil nil)).modify j f).ids ↔ x = id ∨ x ∈ t.ids := by
  rw [mem_ids_modify, mem_ids_insertNode]

theorem ordered_modify {t : Treap α} {id : Int} {f : α → α} :
    (t.modify id f).Ordered ↔ t.Ordered := by
  unfold Ordered
  rw [mem_ids_modify]

theorem find_modify_self (t : Treap α) (id : Int) (f : α → α) :
    treapFind (t.modify id f) id = (treapFind t id).map f := by
  induction t with
  | nil => rfl
  | node i h a l r ihl ihr =>
    rw [modify]
    split_ifs with hi hlt
    · rw [treapFind, treapFind, if_pos hi, if_pos hi, Option.map_some]
    · rw [treapFind, treapFind, if_neg hi, if_neg hi, if_pos hlt, if_pos hlt, ihr]
    · rw [treapFind, treapFind, if_neg hi, if_neg hi, if_neg hlt, if_neg hlt, ihl]

theorem find_modify_ne (t : Treap α) {id x : Int} (hx : x ≠ id) (f : α → α) :
    treapFind (t.modify id f) x = treapFind t x := by
  induction t with
  | nil => rfl
  | node i h a l r ihl ihr =>
    rw [modify]
    split_ifs with hi hlt
    · have hne : i ≠ x := fun heq => hx (heq.symm.trans hi)
      rw [treapFind, treapFind, if_neg hne, if_neg hne]
    · rw [treapFind, treapFind, ihr]
    · rw [treapFind, treapFind, ihl]

theorem find_modify (t : Treap α) (id : Int) (f : α → α) :
    treapFind (t.modify id f) = Function.update (treapFind t) id ((treapFind t id).map f) := by
  funext x
  by_cases hx : x = id
  · rw [hx, find_modify_self, Function.update_self]
  · rw [find_modify_ne t hx, Function.update_of_ne hx]

@[simp] theorem size_modify (t : Treap α) (id : Int) (f : α → α) :
    (t.modify id f).size = t.size := by
  induction t with
  | nil => rfl
  | node i h a l r ihl ihr =>
    rw [modify]
    split_ifs <;> simp [ihl, ihr]

/-- An ordered treap with one id is one node. -/
theorem eq_node_of_ids {t : Treap Unit} (ho : t.Ordered) {m : Int}
    (h : ∀ x, x ∈ t.ids ↔ x = m) : ∃ k, t = node m k () nil nil := by
  cases t with
  | nil => exact absurd ((h m).2 rfl) List.not_mem_nil
  | node i k a l r =>
    obtain ⟨-, -, hli, hir⟩ := ordered_node.1 ho
    have hi : i = m := (h i).1 (by simp)
    have hl : l = nil := by
      cases l with
      | nil => rfl
      | node j k' b jl jr =>
        have hj : j = m := (h j).1 (by simp)
        exact absurd (hli j (by simp)) (by omega)
    have hr : r = nil := by
      cases r with
      | nil => rfl
      | node j k' b jl jr =>
        have hj : j = m := (h j).1 (by simp)
        exact absurd (hir j (by simp)) (by omega)
    exact ⟨k, by rw [hi, hl, hr]⟩

theorem extract_leaf (id h : Int) (a : α) :
    treapExtract (node id h a nil nil) id = (node id h a nil nil, nil) := by
  rw [extract_self]
  rfl

/-- Extracting an id that is there. -/
theorem extract_fst_of_mem {t : Treap Unit} (ho : t.Ordered) {id : Int} (hid : id ∈ t.ids) :
    ∃ h, (treapExtract t id).1 = node id h () nil nil := by
  obtain ⟨h, a, hm⟩ := mem_ids.1 hid
  exact ⟨h, (extract_of_mem ho hm).1⟩

end Treap

/-! ## `get_free_id` and `return_id` -/

/-- The successor of the last free id is made before that id is extracted. -/
theorem getFreeId_lone {id h : Int} (hlt : id < ID_MAX) {k : Int} :
    ∃ t', getFreeId (some k) () (node id h () nil nil) = (node id h () nil nil, t') ∧
      t'.Ordered ∧ ∀ x, x ∈ t'.ids ↔ x = id + 1 := by
  have hnew : treapInsertNew (node id h () nil nil) (id + 1) () (some k) =
      some (treapInsertNode (node id h () nil nil) (node (id + 1) k () nil nil)) := by
    rw [insertNew_eq, Option.map_some]
  have hleaf : (node id h () nil nil : Treap Unit).Ordered := by simp [Ordered]
  have hord := ordered_insertNode hleaf (show id + 1 ∉ (node id h () nil nil).ids by simp) k ()
  have hmem : (id, h, ()) ∈
      (treapInsertNode (node id h () nil nil) (node (id + 1) k () nil nil)).inorder := by
    rw [mem_inorder_insertNode]
    simp
  refine ⟨(treapExtract (treapInsertNode (node id h () nil nil)
    (node (id + 1) k () nil nil)) id).2, ?_, ordered_extract hord id, ?_⟩
  · rw [getFreeId]
    simp only [hnew, if_pos hlt]
    exact extract_eq_of_mem hord hmem
  · intro x
    rw [mem_ids_extract hord, mem_ids_insertNode]
    simp only [ids_node, ids_nil, List.nil_append, List.mem_singleton]
    omega

/-- **What `get_free_id` can do.** It fails and changes nothing; or it grows the pool and takes the
last free id; or it takes `ID_MAX`, the last id of all; or it takes an id below another free one. -/
theorem getFreeId_cases {t : Treap Unit} (ho : t.Ordered) (rand : Option Int) :
    getFreeId rand () t = (nil, t) ∨
      ∃ id h, (getFreeId rand () t).1 = node id h () nil nil ∧ (getFreeId rand () t).2.Ordered ∧
        ((t = node id h () nil nil ∧ id < ID_MAX ∧
            ∀ x, x ∈ (getFreeId rand () t).2.ids ↔ x = id + 1) ∨
          (t = node id h () nil nil ∧ ID_MAX ≤ id ∧ (getFreeId rand () t).2 = nil) ∨
          ((∃ m ∈ t.ids, id < m) ∧ id ∈ t.ids ∧
            ∀ x, x ∈ (getFreeId rand () t).2.ids ↔ x ∈ t.ids ∧ x ≠ id)) := by
  -- Taking an id below another one: the root below its right child, or the left child.
  have below : ∀ id, getFreeId rand () t = treapExtract t id → id ∈ t.ids → (∃ m ∈ t.ids, id < m) →
      ∃ id h, (getFreeId rand () t).1 = node id h () nil nil ∧ (getFreeId rand () t).2.Ordered ∧
        ((t = node id h () nil nil ∧ id < ID_MAX ∧
            ∀ x, x ∈ (getFreeId rand () t).2.ids ↔ x = id + 1) ∨
          (t = node id h () nil nil ∧ ID_MAX ≤ id ∧ (getFreeId rand () t).2 = nil) ∨
          ((∃ m ∈ t.ids, id < m) ∧ id ∈ t.ids ∧
            ∀ x, x ∈ (getFreeId rand () t).2.ids ↔ x ∈ t.ids ∧ x ≠ id)) := by
    intro id heq hid hlt
    obtain ⟨h, hret⟩ := extract_fst_of_mem ho hid
    rw [heq]
    exact ⟨id, h, hret, ordered_extract ho id, Or.inr (Or.inr ⟨hlt, hid, fun x =>
      mem_ids_extract ho⟩)⟩
  match t, ho, below with
  | nil, _, _ => exact Or.inl rfl
  | node id h a l (node j k b jl jr), ho, below =>
    obtain ⟨-, -, -, hir⟩ := ordered_node.1 ho
    exact Or.inr (below id rfl (by simp) ⟨j, by simp, hir j (by simp)⟩)
  | node id h a (node j k b jl jr) nil, ho, below =>
    obtain ⟨-, -, hli, -⟩ := ordered_node.1 ho
    exact Or.inr (below j rfl (by simp) ⟨id, by simp, hli j (by simp)⟩)
  | node id h a nil nil, ho, _ =>
    by_cases hlt : id < ID_MAX
    · cases rand with
      | none =>
        left
        rw [getFreeId]
        simp [hlt, insertNew_eq]
      | some k =>
        obtain ⟨t', heq, hord, hids⟩ := getFreeId_lone (h := h) (k := k) hlt
        right
        rw [heq]
        exact ⟨id, h, rfl, hord, Or.inl ⟨rfl, hlt, hids⟩⟩
    · right
      have heq : getFreeId rand () (node id h a nil nil) = (node id h a nil nil, nil) := by
        rw [getFreeId]
        simp [hlt, extract_leaf]
      rw [heq]
      exact ⟨id, h, rfl, ordered_nil, Or.inr (Or.inl ⟨rfl, by omega, rfl⟩)⟩

/-- A lone node is dropped. -/
theorem returnId_lone (m k : Int) (nd : Treap Unit) :
    returnId (node m k () nil nil) nd = treapInsertNode nil nd := by
  rw [returnId, remove_snd, extract_leaf]

theorem returnId_of_ne {t : Treap Unit} (h : ∀ m k, t ≠ node m k () nil nil) (nd : Treap Unit) :
    returnId t nd = treapInsertNode t nd := by
  unfold returnId
  split
  · exact absurd rfl (h _ _)
  · rfl

/-! ## What an add does to the ids -/

/-- The id `get_free_id` gives this add, if the add gets that far. -/
def handsOut (env : AddEnv) (man : ThreadsManager) (anal : Analysis) : Option Int :=
  if env.isDir = false ∨ (treeFindPrefix man.paths anal.path).isSome then none
  else
    match (getFreeId env.rand () man.availableIds).1 with
    | nil => none
    | node id _ _ _ _ => some id

/-- The add fails after it got an id. -/
def AddFails (env : AddEnv) (man : ThreadsManager) (anal : Analysis) (id : Int) : Prop :=
  env.idp = false ∨ (treeInsert man.paths anal.path (some id) env.alloc).1 ≠ 0 ∨ env.fork = none

/-- The node of a failing add goes back; that of a succeeding add stays in the store. -/
theorem addFork_ids (env : AddEnv) (man : ThreadsManager) (anal : Analysis) (fd h : Int) {id : Int}
    (ho : man.analyses.Ordered) (hid : id ∉ man.analyses.ids) :
    let res := (threadsAddFork env
      { man with analyses := treapInsertNode man.analyses (node id h anal nil nil) }
      anal fd id).man
    res.analyses.Ordered ∧
      (env.fork = none → (∀ x, x ∈ res.analyses.ids ↔ x ∈ man.analyses.ids) ∧
        res.availableIds = returnId man.availableIds (node id h () nil nil)) ∧
      (env.fork ≠ none → (∀ x, x ∈ res.analyses.ids ↔ x = id ∨ x ∈ man.analyses.ids) ∧
        res.availableIds = man.availableIds) := by
  intro res
  have hord := ordered_insertNode ho hid h anal
  have hmem : (id, h, anal) ∈ (treapInsertNode man.analyses (node id h anal nil nil)).inorder := by
    rw [mem_inorder_insertNode]
    simp
  cases hfork : env.fork with
  | none =>
    have hres : res = (threadsAddFork env _ anal fd id).man := rfl
    simp only [threadsAddFork, hfork, (extract_of_mem hord hmem).1, setAnal_node,
      ThreadsManager.returnId] at hres
    rw [hres]
    refine ⟨ordered_extract hord id, fun _ => ⟨fun x => ?_, rfl⟩, fun hne => absurd rfl hne⟩
    rw [mem_ids_extract hord, mem_ids_insertNode]
    constructor
    · intro hx
      exact hx.1.resolve_left hx.2
    · intro hx
      exact ⟨Or.inr hx, fun heq => hid (heq ▸ hx)⟩
  | some pid =>
    have hres : res = (threadsAddFork env _ anal fd id).man := rfl
    simp only [threadsAddFork, hfork] at hres
    rw [hres]
    exact ⟨ordered_modify.2 hord, fun h => by simp at h, fun _ => ⟨fun x => mem_ids_added, rfl⟩⟩

/-- An add that has its node gives the id back, or keeps it. -/
theorem addNode_ids (env : AddEnv) (man : ThreadsManager) (anal : Analysis) (fd : Int) {id h : Int}
    (ho : man.analyses.Ordered) (hid : id ∉ man.analyses.ids) :
    let res := (threadsAddNode env man anal fd (node id h () nil nil) id).man
    res.analyses.Ordered ∧
      ((AddFails env man anal id ∧ (∀ x, x ∈ res.analyses.ids ↔ x ∈ man.analyses.ids) ∧
          res.availableIds = returnId man.availableIds (node id h () nil nil)) ∨
        (¬ AddFails env man anal id ∧
          (∀ x, x ∈ res.analyses.ids ↔ x = id ∨ x ∈ man.analyses.ids) ∧
          res.availableIds = man.availableIds)) := by
  intro res
  have hres : res = (threadsAddNode env man anal fd (node id h () nil nil) id).man := rfl
  rw [threadsAddNode] at hres
  by_cases hidp : env.idp = false
  · rw [if_pos hidp] at hres
    rw [hres]
    exact ⟨ho, Or.inl ⟨Or.inl hidp, fun x => Iff.rfl, rfl⟩⟩
  rw [if_neg hidp] at hres
  dsimp only at hres
  by_cases hins : (treeInsert man.paths anal.path (some id) env.alloc).1 ≠ 0
  · rw [if_pos hins] at hres
    rw [hres]
    exact ⟨ho, Or.inl ⟨Or.inr (Or.inl hins), fun x => Iff.rfl, rfl⟩⟩
  rw [if_neg hins] at hres
  obtain ⟨hord, hfail, hok⟩ := addFork_ids env
    { man with paths := (treeInsert man.paths anal.path (some id) env.alloc).2 }
    { anal with lastStart := env.now } fd h ho hid
  rw [hres]
  refine ⟨hord, ?_⟩
  by_cases hfork : env.fork = none
  · exact Or.inl ⟨Or.inr (Or.inr hfork), (hfail hfork).1, (hfail hfork).2⟩
  · refine Or.inr ⟨?_, (hok hfork).1, (hok hfork).2⟩
    intro hfails
    rcases hfails with h | h | h
    · exact hidp h
    · exact hins h
    · exact hfork h

/-- **What an add does to the ids.** Nothing; or it takes an id out of the free treap and gives it
back; or it takes an id and keeps it. -/
theorem threadsAdd_ids {man : ThreadsManager} (ho : man.analyses.Ordered)
    (hf : man.availableIds.Ordered) (hd : ∀ x ∈ man.availableIds.ids, x ∉ man.analyses.ids)
    (env : AddEnv) (anal : Analysis) (fd : Int) :
    let res := (threadsAdd env man anal fd).man
    (handsOut env man anal = none ∧ res.analyses = man.analyses ∧
        res.availableIds = man.availableIds) ∨
      ∃ id h, handsOut env man anal = some id ∧
        (getFreeId env.rand () man.availableIds).1 = node id h () nil nil ∧ res.analyses.Ordered ∧
        ((AddFails env man anal id ∧ (∀ x, x ∈ res.analyses.ids ↔ x ∈ man.analyses.ids) ∧
            res.availableIds =
              returnId (getFreeId env.rand () man.availableIds).2 (node id h () nil nil)) ∨
          (¬ AddFails env man anal id ∧
            (∀ x, x ∈ res.analyses.ids ↔ x = id ∨ x ∈ man.analyses.ids) ∧
            res.availableIds = (getFreeId env.rand () man.availableIds).2)) := by
  intro res
  have hres : res = (threadsAdd env man anal fd).man := rfl
  rw [threadsAdd] at hres
  by_cases hdir : env.isDir = false
  · rw [if_pos hdir] at hres
    exact Or.inl ⟨by simp [handsOut, hdir], by rw [hres], by rw [hres]⟩
  rw [if_neg hdir] at hres
  cases hpre : treeFindPrefix man.paths anal.path with
  | some otherId =>
    rw [hpre] at hres
    exact Or.inl ⟨by simp [handsOut, hpre], by rw [hres], by rw [hres]⟩
  | none =>
    have hout : handsOut env man anal =
        match (getFreeId env.rand () man.availableIds).1 with
        | nil => none
        | node id _ _ _ _ => some id := by
      rw [handsOut, if_neg (by simp [hdir, hpre])]
    rw [hpre] at hres
    dsimp only at hres
    cases getFreeId_cases hf env.rand with
    | inl hnil =>
      rw [hnil] at hres hout
      exact Or.inl ⟨hout, by rw [hres], by rw [hres]⟩
    | inr hsome =>
      obtain ⟨id, h, hnode, -, hcases⟩ := hsome
      have hid : id ∉ man.analyses.ids := by
        apply hd
        rcases hcases with ⟨ht, -⟩ | ⟨ht, -⟩ | ⟨-, hmem, -⟩
        · simp [ht]
        · simp [ht]
        · exact hmem
      have hget : getFreeId env.rand () man.availableIds =
          (node id h () nil nil, (getFreeId env.rand () man.availableIds).2) := Prod.ext hnode rfl
      rw [hnode] at hout
      rw [hget] at hres
      dsimp only at hres
      have hnodeIds := addNode_ids env
        { man with availableIds := (getFreeId env.rand () man.availableIds).2 } anal fd (h := h)
        ho hid
      dsimp only at hnodeIds
      rw [← hres] at hnodeIds
      exact Or.inr ⟨id, h, hout, hnode, hnodeIds⟩

/-! ## Runs of requests -/

/-- The requests that move ids. -/
inductive Request where
  | add (env : AddEnv) (anal : Analysis) (fd : Int)
  | remove (dirPath : Bytes) (inGroup : Int → Bool) (id fd : Int)

/-- Handling one request. -/
def serve (man : ThreadsManager) : Request → ThreadsManager
  | .add env anal fd => (threadsAdd env man anal fd).man
  | .remove dirPath inGroup id fd => (threadsRemove dirPath inGroup man id fd).man

/-- Requests handled one after another, from what `threads_startup` builds from an empty file. -/
def requests : Lts.System ThreadsManager Request :=
  .ofFun (fun man => ∃ env, threadsStartup env [] = some man) serve

/-- The request does not get the id `ID_MAX`. -/
def BelowMax (man : ThreadsManager) : Request → Prop
  | .add env anal _ => handsOut env man anal ≠ some ID_MAX
  | .remove _ _ _ _ => True

/-- Two ids are free, and a used one is above the smaller of them. -/
def Fragile (man : ThreadsManager) : Prop :=
  ∃ a m, (∀ x, x ∈ man.availableIds.ids ↔ x = a ∨ x = m) ∧ a < m ∧
    ∃ x ∈ man.analyses.ids, a < x

/-- No add fails in a fragile state. -/
def FailsSafely (man : ThreadsManager) : Request → Prop
  | .add env anal _ => ∀ id, handsOut env man anal = some id → AddFails env man anal id →
      ¬ Fragile man
  | .remove _ _ _ _ => True

/-- No id is in use twice. -/
structure IdsDistinct (man : ThreadsManager) : Prop where
  used : man.analyses.ids.Nodup
  free : man.availableIds.ids.Nodup
  disjoint : ∀ x ∈ man.availableIds.ids, x ∉ man.analyses.ids

/-- What keeps the ids apart: both treaps are search trees, and the free ids are a pool grown at
the top. -/
structure IdsInv (man : ThreadsManager) : Prop where
  store : man.analyses.Ordered
  free : man.availableIds.Ordered
  bound : ∀ x ∈ man.availableIds.ids, x ≤ ID_MAX
  pool : Pool {x | x ∈ man.availableIds.ids} {x | x ∈ man.analyses.ids}

theorem IdsInv.distinct {man : ThreadsManager} (h : IdsInv man) : IdsDistinct man :=
  ⟨h.store.nodup, h.free.nodup, h.pool.disjoint⟩

/-- What `threads_startup` builds from an empty file. -/
theorem threadsStartup_nil {env : StartEnv} {man : ThreadsManager}
    (h : threadsStartup env [] = some man) :
    ∃ k, man = ⟨0, nil, treeInit, node 1 k () nil nil⟩ := by
  have hcount : readCount ⟨[], env.reads⟩ = none ∨
      ∃ fd, readCount ⟨[], env.reads⟩ = some (0, fd) := by
    unfold readCount Fd.read
    by_cases hr : env.reads = some 0
    · simp [hr]
    · simp [hr]
  rw [threadsStartup] at h
  cases hcount with
  | inl hnone => rw [hnone] at h; simp at h
  | inr hsome =>
    obtain ⟨fd, hfd⟩ := hsome
    rw [hfd] at h
    cases hrand : env.randFree 1 with
    | none => simp [loadLoop, freeLoop, treapFind, treapInsertNew, treapCreateNode, hrand,
        ID_MAX] at h
    | some k =>
      simp only [loadLoop, freeLoop, treapFind, treapInsertNew, treapCreateNode, hrand, ID_MAX,
        initialForks, Int.toNat_zero, Int.zero_add, Int.toNat_one, Option.map_some] at h
      by_cases hs : env.sockets = false
      · simp [hs] at h
      · exact ⟨k, by simpa [hs, eq_comm] using h⟩

theorem idsInv_startup {env : StartEnv} {man : ThreadsManager}
    (h : threadsStartup env [] = some man) : IdsInv man := by
  obtain ⟨k, rfl⟩ := threadsStartup_nil h
  refine ⟨ordered_nil, by simp [Ordered], by simp [ID_MAX], fun x _ => by simp, 1, by simp,
    ?_, ?_⟩
  · intro x hx
    have hx' : x = 1 := by simpa using hx
    omega
  · intro x hx
    simp at hx

/-- The free treap after `get_free_id` gave `id`. -/
theorem getFreeId_of_node {t : Treap Unit} (ho : t.Ordered) {rand : Option Int} {id h : Int}
    (hget : (getFreeId rand () t).1 = node id h () nil nil) :
    (getFreeId rand () t).2.Ordered ∧
      ((t = node id h () nil nil ∧ id < ID_MAX ∧
          ∀ x, x ∈ (getFreeId rand () t).2.ids ↔ x = id + 1) ∨
        (t = node id h () nil nil ∧ ID_MAX ≤ id ∧ (getFreeId rand () t).2 = nil) ∨
        ((∃ m ∈ t.ids, id < m) ∧ id ∈ t.ids ∧
          ∀ x, x ∈ (getFreeId rand () t).2.ids ↔ x ∈ t.ids ∧ x ≠ id)) := by
  rcases getFreeId_cases ho rand with hnil | ⟨id', h', hnode, hord, hcases⟩
  · rw [hnil] at hget
    exact absurd hget (by simp)
  · rw [hget] at hnode
    simp only [node.injEq, and_true] at hnode
    obtain ⟨rfl, rfl⟩ := hnode
    exact ⟨hord, hcases⟩

/-- Taking an id and giving it back leaves the free ids as they were, or, when two were free, only
the one that was taken. -/
theorem ids_returnId_getFreeId {t : Treap Unit} (ho : t.Ordered) {rand : Option Int} {id h : Int}
    (hget : (getFreeId rand () t).1 = node id h () nil nil) :
    let t' := returnId (getFreeId rand () t).2 (node id h () nil nil)
    t'.Ordered ∧ ((∀ x, x ∈ t'.ids ↔ x ∈ t.ids) ∨
      (∀ x, x ∈ t'.ids ↔ x = id) ∧ id ∈ t.ids ∧
        ∃ m, id < m ∧ ∀ x, x ∈ t.ids ↔ x = id ∨ x = m) := by
  intro t'
  have ht' : t' = returnId (getFreeId rand () t).2 (node id h () nil nil) := rfl
  obtain ⟨hord, hcases⟩ := getFreeId_of_node ho hget
  rcases hcases with ⟨ht, -, hids⟩ | ⟨ht, -, hnil⟩ | ⟨⟨m, hm, hlt⟩, hid, hids⟩
  · -- The successor is dropped again.
    obtain ⟨k, hk⟩ := eq_node_of_ids hord hids
    rw [hk, returnId_lone] at ht'
    rw [ht', ht]
    exact ⟨by simp [treapInsertNode, Ordered], Or.inl fun x => Iff.rfl⟩
  · rw [hnil] at ht'
    rw [ht', ht]
    exact ⟨by simp [returnId, treapInsertNode, Ordered], Or.inl fun x => Iff.rfl⟩
  · by_cases hlone : ∃ m k, (getFreeId rand () t).2 = node m k () nil nil
    · -- A free id is taken for the successor and dropped.
      obtain ⟨m', k, hk⟩ := hlone
      rw [hk] at hids ht'
      rw [returnId_lone] at ht'
      rw [ht']
      have hm' : m = m' := by simpa using (hids m).2 ⟨hm, ne_of_gt hlt⟩
      refine ⟨by simp [treapInsertNode, Ordered], Or.inr ⟨fun x => by simp [treapInsertNode], hid,
        m, hlt, ?_⟩⟩
      intro x
      have hx := hids x
      simp only [ids_node, ids_nil, List.nil_append, List.mem_singleton] at hx
      by_cases heq : x = id
      · simp [heq, hid]
      · rw [hm', hx]
        simp [heq]
    · have hne : ∀ m k, (getFreeId rand () t).2 ≠ node m k () nil nil := fun m k heq =>
        hlone ⟨m, k, heq⟩
      have hnot : id ∉ (getFreeId rand () t).2.ids := fun hmem => ((hids id).1 hmem).2 rfl
      rw [returnId_of_ne hne] at ht'
      rw [ht']
      refine ⟨ordered_insertNode hord hnot h (), Or.inl ?_⟩
      intro x
      rw [mem_ids_insertNode, hids]
      by_cases heq : x = id
      · simp [heq, hid]
      · simp [heq]

/-- A failing add. -/
theorem idsInv_returned {man res : ThreadsManager} (hi : IdsInv man) {rand : Option Int}
    {id h : Int} (hget : (getFreeId rand () man.availableIds).1 = node id h () nil nil)
    (hsafe : ¬ Fragile man) (hord : res.analyses.Ordered)
    (hused : ∀ x, x ∈ res.analyses.ids ↔ x ∈ man.analyses.ids)
    (hfree : res.availableIds = returnId (getFreeId rand () man.availableIds).2
      (node id h () nil nil)) : IdsInv res := by
  obtain ⟨hord', hcases⟩ := ids_returnId_getFreeId hi.free hget
  rw [← hfree] at hord' hcases
  rcases hcases with hids | ⟨hids, hid, m, hlt, htwo⟩
  · exact ⟨hord, hord', fun x hx => hi.bound x ((hids x).1 hx), hi.pool.congr hids hused⟩
  · refine ⟨hord, hord', ?_, (hi.pool.shrink (a := id) hid ?_).congr hids hused⟩
    · intro x hx
      rw [(hids x).1 hx]
      exact hi.bound id hid
    · intro x hx hgt
      exact hsafe ⟨id, m, htwo, hlt, x, hx, hgt⟩

/-- A succeeding add. -/
theorem idsInv_kept {man res : ThreadsManager} (hi : IdsInv man) {rand : Option Int}
    {id h : Int} (hget : (getFreeId rand () man.availableIds).1 = node id h () nil nil)
    (hmax : id ≠ ID_MAX) (hord : res.analyses.Ordered)
    (hused : ∀ x, x ∈ res.analyses.ids ↔ x = id ∨ x ∈ man.analyses.ids)
    (hfree : res.availableIds = (getFreeId rand () man.availableIds).2) : IdsInv res := by
  obtain ⟨hord', hcases⟩ := getFreeId_of_node hi.free hget
  rw [← hfree] at hord' hcases
  rcases hcases with ⟨ht, hlt, hids⟩ | ⟨ht, hge, -⟩ | ⟨hm, -, hids⟩
  · have hlone : ∀ x, x ∈ man.availableIds.ids ↔ x = id := fun x => by simp [ht]
    refine ⟨hord, hord', fun x hx => ?_,
      (hi.pool.takeLast hlone (show id < id + 1 by omega)).congr hids hused⟩
    have := (hids x).1 hx
    omega
  · have hle := hi.bound id (by simp [ht])
    exact absurd (le_antisymm hle hge) hmax
  · exact ⟨hord, hord', fun x hx => hi.bound x ((hids x).1 hx).1,
      (hi.pool.take hm).congr hids hused⟩

theorem idsInv_remove {man : ThreadsManager} (hi : IdsInv man) (dirPath : Bytes)
    (inGroup : Int → Bool) (id fd : Int) :
    IdsInv (threadsRemove dirPath inGroup man id fd).man := by
  by_cases hid : id ∈ man.analyses.ids
  · obtain ⟨h, a, hm⟩ := mem_ids.1 hid
    obtain ⟨hret, -⟩ := extract_of_mem hi.store hm
    have hex : treapExtract man.analyses id =
        (node id h a nil nil, (treapExtract man.analyses id).2) := Prod.ext hret rfl
    have hnot : id ∉ man.availableIds.ids := fun hf => hi.pool.disjoint id hf hid
    rw [threadsRemove, hex]
    refine ⟨ordered_extract hi.store id, ordered_insertNode hi.free hnot h (), fun x hx => ?_,
      (hi.pool.give hid).congr (fun x => mem_ids_insertNode) fun x => mem_ids_extract hi.store⟩
    rcases mem_ids_insertNode.1 hx with rfl | hx
    · obtain ⟨m, hm, -, hused⟩ := hi.pool.top
      exact le_of_lt (lt_of_lt_of_le (hused x hid) (hi.bound m hm))
    · exact hi.bound x hx
  · rw [threadsRemove, extract_of_notMem hi.store hid]
    exact hi

/-- **One request.** -/
theorem idsInv_serve {man : ThreadsManager} (hi : IdsInv man) {r : Request}
    (hmax : BelowMax man r) (hsafe : FailsSafely man r) : IdsInv (serve man r) := by
  cases r with
  | add env anal fd =>
    rcases threadsAdd_ids hi.store hi.free hi.pool.disjoint env anal fd with
      ⟨-, hstore, hfree⟩ | ⟨id, h, hout, hget, hord, hcases⟩
    · exact ⟨by rw [serve, hstore]; exact hi.store, by rw [serve, hfree]; exact hi.free,
        by rw [serve, hfree]; exact hi.bound, by rw [serve, hstore, hfree]; exact hi.pool⟩
    · rcases hcases with ⟨hfails, hused, hfree⟩ | ⟨-, hused, hfree⟩
      · exact idsInv_returned hi hget (hsafe id hout hfails) hord hused hfree
      · have hne : id ≠ ID_MAX := fun heq => hmax (by rw [← heq]; exact hout)
        exact idsInv_kept hi hget hne hord hused hfree
  | remove dirPath inGroup id fd => exact idsInv_remove hi dirPath inGroup id fd

/-- A start on an empty file where nothing fails. -/
def quietStart : StartEnv where
  reads := none
  record := fun _ => true
  rand := fun _ => some 0
  memory := fun _ => (0, 0)
  alloc := fun _ => none
  randFree := fun _ => some 0
  sockets := true
  fork := fun _ _ => some 1
  now := fun _ => 0

/-- An add where nothing fails but, with `none`, the fork request. -/
def addOf (path : String) (fork : Option Int) : Request :=
  .add ⟨true, some 0, true, none, fork, 0⟩
    ⟨0, 0, 0, 0, str path, 2, ANALYSIS_PENDING, ANALYSIS_RESUMED, 0⟩ 5

def removeOf (id : Int) : Request := .remove (str "/data/") (fun _ => true) id 5

/-- An add that succeeds is safe anywhere. -/
theorem failsSafely_addOf (man : ThreadsManager) (path : String) (pid : Int) :
    FailsSafely man (addOf path (some pid)) := by
  intro id _ hfails
  rcases hfails with h | h | h
  · exact absurd h (by simp)
  · exact absurd (Tree.insert_none_fst _ _ _) h
  · exact absurd h (by simp)

/-- With one free id a state is not fragile. -/
theorem not_fragile_of_lone {man : ThreadsManager} {m : Int} (h : man.availableIds.ids = [m]) :
    ¬ Fragile man := by
  intro hex
  obtain ⟨a, b, hids, hlt, _⟩ := hex
  have ha : a = m := by simpa [h] using (hids a).2 (Or.inl rfl)
  have hb : b = m := by simpa [h] using (hids b).2 (Or.inr rfl)
  omega

/-- **Ids are distinct**, in every run of requests that hands out no `ID_MAX` and whose failing
adds do not fail in a fragile state. -/
theorem ids_distinct {man : ThreadsManager}
    (h : (requests.guard fun man r => BelowMax man r ∧ FailsSafely man r).Reachable man) :
    IdsDistinct man := by
  have hinv : IdsInv man := by
    refine h.invariant (?_) (?_)
    · intro s hs
      obtain ⟨env, henv⟩ := hs
      exact idsInv_startup henv
    · intro s r t hs hstep
      obtain ⟨hserve, hmax, hsafe⟩ := hstep
      rw [← show serve s r = t from hserve]
      exact idsInv_serve hs hmax hsafe
  exact hinv.distinct

/-- An add, one that fails, and another. -/
theorem ids_distinct_run :
    IdsDistinct ([addOf "/a" (some 10), addOf "/d" none, addOf "/e" (some 13)].foldl serve
      ⟨0, nil, treeInit, node 1 0 () nil nil⟩) := by
  refine ids_distinct ⟨_, [addOf "/a" (some 10), addOf "/d" none, addOf "/e" (some 13)],
    ⟨quietStart, rfl⟩, .cons ⟨rfl, ?_, failsSafely_addOf _ _ _⟩ (.cons ⟨rfl, ?_, ?_⟩
      (.cons ⟨rfl, ?_, failsSafely_addOf _ _ _⟩ (.nil _)))⟩
  · show handsOut _ _ _ ≠ some ID_MAX
    decide +kernel
  · show handsOut _ _ _ ≠ some ID_MAX
    decide +kernel
  · intro id _ _
    exact not_fragile_of_lone (m := 2) (by decide +kernel)
  · show handsOut _ _ _ ≠ some ID_MAX
    decide +kernel

/-- Three adds, a remove that leaves 2 and 4 free, an add that fails (2 stays, 4 is dropped), and
an add that gets 2 and grows the pool by 3, which is in use. -/
def collidingRequests : List Request :=
  [addOf "/a" (some 10), addOf "/b" (some 11), addOf "/c" (some 12), removeOf 2,
    addOf "/d" none, addOf "/e" (some 13)]

theorem ids_collide :
    ∃ man, (requests.guard BelowMax).Reachable man ∧ ¬ IdsDistinct man := by
  have hstart : threadsStartup quietStart [] = some ⟨0, nil, treeInit, node 1 0 () nil nil⟩ := rfl
  refine ⟨_, ⟨_, collidingRequests, ⟨quietStart, hstart⟩,
    .cons ⟨rfl, ?_⟩ (.cons ⟨rfl, ?_⟩ (.cons ⟨rfl, ?_⟩ (.cons ⟨rfl, ?_⟩ (.cons ⟨rfl, ?_⟩
      (.cons ⟨rfl, ?_⟩ (.nil _))))))⟩, ?_⟩
  · show handsOut _ _ _ ≠ some ID_MAX
    decide +kernel
  · show handsOut _ _ _ ≠ some ID_MAX
    decide +kernel
  · show handsOut _ _ _ ≠ some ID_MAX
    decide +kernel
  · trivial
  · show handsOut _ _ _ ≠ some ID_MAX
    decide +kernel
  · show handsOut _ _ _ ≠ some ID_MAX
    decide +kernel
  · intro h
    refine h.disjoint 3 ?_ ?_
    · decide +kernel
    · decide +kernel

end DiskAnalyzer
