import DiskAnalyzer.Partition

/-!
# `threads_manager.c`: ids when the id space is full

`get_free_id` keeps one id free: when it hands out the last one it first makes its successor.
While the last free id is the largest of all, the successor is new. Once `ID_MAX` has been handed
out or loaded there is nothing left to make, and then the last free id can be any id that was
given back, with a successor that is in use (`Spent`).

`Packed` is what the manager's ids satisfy in either regime: those that are free or in use are
1 up to some `m`, and `m` is free or `ID_MAX`. A start establishes it, removals keep it, and so
does every add that does not find the manager `Spent`. `idsUnique_iff` says that a `Packed`
manager that is not `Spent` is exactly one where `get_free_id` does what it should.
-/

namespace DiskAnalyzer

open Treap IdPool Decimal

variable {man man' : ThreadsManager}

/-- The free and the used ids are those from 1 to some id that is free or `ID_MAX`. -/
structure Packed (man : ThreadsManager) : Prop where
  store : man.analyses.Ordered
  free : man.availableIds.Ordered
  filled : Filled 1 ID_MAX {x | x ∈ man.availableIds.ids} {x | x ∈ man.analyses.ids}

/-- The last free id is not `ID_MAX`, and its successor is in use. -/
def Spent (man : ThreadsManager) : Prop :=
  ∃ id h, man.availableIds = node id h () nil nil ∧ id < ID_MAX ∧ id + 1 ∈ man.analyses.ids

/-- What `get_free_id` does here, whatever heap value it draws: it returns and makes no id that is
in use, and it returns `NULL` exactly when all are. -/
structure IdsUnique (man : ThreadsManager) : Prop where
  returns : ∀ rand id h l r,
    (getFreeId (some rand) () man.availableIds).1 = node id h () l r → id ∉ man.analyses.ids
  inserts : ∀ rand, ∀ x ∈ (getFreeId (some rand) () man.availableIds).2.ids,
    x ∉ man.availableIds.ids → x ∉ man.analyses.ids
  null : ∀ rand, (getFreeId (some rand) () man.availableIds).1 = nil ↔
    ∀ x, 1 ≤ x → x ≤ ID_MAX → x ∈ man.analyses.ids

/-- With memory, `get_free_id` returns `NULL` for the empty treap only. -/
theorem getFreeId_eq_nil_iff {t : Treap Unit} (ho : t.Ordered) (rand : Int) :
    (getFreeId (some rand) () t).1 = nil ↔ ∀ x, x ∉ t.ids := by
  constructor
  · intro hnil x hx
    exact getFreeId_ne_nil ho hx rand hnil
  · intro hnone
    cases t with
    | nil => rfl
    | node i h a l r => exact absurd (show i ∈ _ by simp) (hnone i)

/-- **When the ids stay unique.** -/
theorem Packed.idsUnique_iff (hp : Packed man) : IdsUnique man ↔ ¬ Spent man := by
  constructor
  · intro hu hspent
    obtain ⟨id, h, hlone, hlt, hnext⟩ := hspent
    obtain ⟨t', hget, -, hids⟩ := getFreeId_lone (h := h) (k := 0) hlt
    rw [← hlone] at hget
    have hmem : id + 1 ∈ (getFreeId (some 0) () man.availableIds).2.ids := by
      rw [hget]
      exact (hids _).2 rfl
    have hfresh : id + 1 ∉ man.availableIds.ids := by simp [hlone]
    exact hu.inserts 0 _ hmem hfresh hnext
  · intro hspent
    refine ⟨?_, ?_, ?_⟩
    · intro rand id h l r hget
      rcases getFreeId_cases hp.free (some rand) with hnil | ⟨i, k, hnode, -, hcases⟩
      · rw [hnil] at hget
        exact absurd hget (by simp)
      · obtain rfl : i = id := by
          rw [hnode] at hget
          exact (Treap.node.inj hget).1
        apply hp.filled.disjoint i
        rcases hcases with ⟨ht, -⟩ | ⟨ht, -⟩ | ⟨-, hmem, -⟩
        · simp [ht]
        · simp [ht]
        · exact hmem
    · intro rand x hx hnew
      rcases getFreeId_cases hp.free (some rand) with hnil | ⟨i, k, -, -, hcases⟩
      · rw [hnil] at hx
        exact absurd hx hnew
      · rcases hcases with ⟨ht, hlt, hids⟩ | ⟨-, -, hnil⟩ | ⟨-, -, hids⟩
        · obtain rfl := (hids x).1 hx
          exact fun hused => hspent ⟨i, k, ht, hlt, hused⟩
        · rw [hnil] at hx
          exact absurd hx List.not_mem_nil
        · exact absurd ((hids x).1 hx).1 hnew
    · intro rand
      rw [getFreeId_eq_nil_iff hp.free]
      exact hp.filled.used_iff.symm

/-! ## Adds and removals -/

/-- **An add that returns 0** keeps the ids packed when the successor of the last one is new. -/
theorem AddExit.packed {env : AddEnv} {anal : Analysis} {fd : Int} {res : AddResult}
    (hp : Packed man) (hspent : ¬ Spent man) (h : AddExit env man anal fd res)
    (hret : res.ret = 0) : Packed res.man := by
  cases h with
  | @added id h pid _ hget hout _ _ =>
    obtain ⟨hord, hcases⟩ := getFreeId_of_node hp.free hget
    have hfree := mem_ids_of_getFreeId hget
    refine ⟨?_, hord, ?_⟩
    · unfold Ordered
      rw [mem_ids_modify]
      exact ordered_insertNode hp.store (hp.filled.disjoint id hfree) h _
    · rcases hcases with ⟨ht, hlt, hids⟩ | ⟨ht, hge, hnil⟩ | ⟨hm, hid, hids⟩
      · have hlone : ∀ x, x ∈ man.availableIds.ids ↔ x = id := fun x => by simp [ht]
        have hnext : id + 1 ∉ man.analyses.ids := fun hu => hspent ⟨id, h, ht, hlt, hu⟩
        exact (hp.filled.takeLast hlone (show id < id + 1 by omega) (by omega)
          (fun x hx => by omega) hnext).congr hids fun x => mem_ids_added
      · obtain rfl : id = ID_MAX := le_antisymm (hp.filled.le_cap hfree) hge
        have hlone : ∀ x, x ∈ man.availableIds.ids ↔ x = ID_MAX := fun x => by simp [ht]
        exact (hp.filled.takeCap hlone).congr (fun x => by simp [hnil]) fun x => mem_ids_added
      · exact (hp.filled.take hid hm).congr hids fun x => mem_ids_added
  | _ => exact absurd hret one_ne_zero

theorem Packed.remove (hp : Packed man) (dirPath : Bytes) (inGroup : Int → Bool) (id fd : Int) :
    Packed (threadsRemove dirPath inGroup man id fd).man := by
  by_cases hid : id ∈ man.analyses.ids
  · obtain ⟨h, a, hm⟩ := mem_ids.1 hid
    have hex := extract_eq_of_mem hp.store hm
    have hnot : id ∉ man.availableIds.ids := fun hf => hp.filled.disjoint id hf hid
    rw [threadsRemove, hex]
    exact ⟨ordered_extract hp.store id, ordered_insertNode hp.free hnot h (),
      (hp.filled.give hid).congr (fun x => mem_ids_insertNode) fun x => mem_ids_extract hp.store⟩
  · rw [threadsRemove, extract_of_notMem hp.store hid]
    exact hp

/-! ## Starting up -/

/-- The ids of `n` records, as the loading loop reads them from its `k`-th round on. -/
def recordIds (env : StartEnv) : Nat → Nat → Fd → List Int
  | 0, _, _ => []
  | n + 1, k, fd =>
    match analysisRead (env.memory k).1 (env.memory k).2 fd with
    | .error _ => []
    | .ok (id, _, fd') => id :: recordIds env n (k + 1) fd'

/-- The ids in a data file. -/
def dataIds (env : StartEnv) (file : Bytes) : List Int :=
  match readCount ⟨file, env.reads⟩ with
  | none => []
  | some (analysisCnt, fd) => recordIds env analysisCnt.toNat 0 fd

/-- The loading loop keeps the largest id in `mxId`. -/
structure Largest (ld : Loaded) : Prop where
  le : ∀ x ∈ ld.analyses.ids, x ≤ ld.mxId
  mem : ld.mxId = 0 ∨ ld.mxId ∈ ld.analyses.ids

/-- **The store holds the ids that were read.** -/
theorem loadLoop_some {env : StartEnv} {n k : Nat} {ld ld' : Loaded}
    (h : loadLoop env n k ld = some ld') (hl : Largest ld) :
    ld'.analyses.ids.Perm (recordIds env n k ld.fd ++ ld.analyses.ids) ∧ Largest ld' ∧
      (ld.analyses.Ordered → (recordIds env n k ld.fd ++ ld.analyses.ids).Nodup →
        ld'.analyses.Ordered) := by
  induction n generalizing k ld with
  | zero =>
    obtain rfl := Option.some.inj h
    exact ⟨List.Perm.refl _, hl, fun ho _ => ho⟩
  | succ n ih =>
    rw [loadLoop] at h
    cases hone : loadOne env k ld with
    | none =>
      rw [hone] at h
      exact absurd h (by simp)
    | some ld₁ =>
      rw [hone] at h
      obtain ⟨id, anal, heap, hread, hins, hmx⟩ := loadOne_some hone
      have hids : ld₁.analyses.ids.Perm (id :: ld.analyses.ids) := by
        rw [hins]
        exact (perm_insertNode ld.analyses id heap anal).map Prod.fst
      have hl₁ : Largest ld₁ := by
        refine ⟨?_, ?_⟩
        · intro x hx
          rw [hmx]
          rcases List.mem_cons.1 (hids.mem_iff.1 hx) with rfl | hx
          · exact le_max_left _ _
          · exact le_trans (hl.le x hx) (le_max_right _ _)
        · rw [hmx, hids.mem_iff, List.mem_cons]
          rcases max_choice id ld.mxId with hmax | hmax
          · exact Or.inr (Or.inl hmax)
          · rw [hmax]
            exact hl.mem.imp_right Or.inr
      obtain ⟨hperm, hlast, hord⟩ := ih h hl₁
      have hall : (recordIds env n (k + 1) ld₁.fd ++ ld₁.analyses.ids).Perm
          (recordIds env (n + 1) k ld.fd ++ ld.analyses.ids) := by
        rw [recordIds, hread]
        exact (hids.append_left _).trans List.perm_middle
      refine ⟨hperm.trans hall, hlast, ?_⟩
      intro ho hnd
      have hnd₁ := hall.nodup_iff.2 hnd
      have hnew : id ∉ ld.analyses.ids :=
        (List.nodup_cons.1 (hids.nodup_iff.1 hnd₁.of_append_right)).1
      exact hord (hins ▸ ordered_insertNode ho hnew heap anal) hnd₁

theorem ids_initialForks {env : StartEnv} {t t' : Treap Analysis}
    (h : initialForks env t = some t') : t'.ids = t.ids := by
  induction t generalizing t' with
  | nil =>
    obtain rfl := Option.some.inj h
    rfl
  | node i k a l r ihl ihr =>
    rw [initialForks] at h
    cases hf : forked env i a with
    | none =>
      rw [forked] at hf
      rw [hf] at h
      exact absurd h (by simp)
    | some b =>
      rw [forked] at hf
      rw [hf] at h
      cases hl : initialForks env l with
      | none =>
        rw [hl] at h
        exact absurd h (by simp)
      | some l' =>
        rw [hl] at h
        obtain ⟨r', hr, rfl⟩ := Option.map_eq_some_iff.1 h
        rw [ids_node, ids_node, ihl hl, ihr hr]

/-- A start that succeeds has run both loops. -/
theorem loaded_of_startup {env : StartEnv} {file : Bytes} (h : threadsStartup env file = some man) :
    ∃ ld, man.analyses.ids = ld.analyses.ids ∧ ld.analyses.ids.Perm (dataIds env file) ∧
      Largest ld ∧ ((dataIds env file).Nodup → ld.analyses.Ordered) ∧
      freeLoop env ld.analyses (ld.mxId + 1).toNat 1 nil = some man.availableIds := by
  obtain ⟨cnt, fd, ld, hcount, hload, hfree, hfork⟩ := startup_some h
  obtain ⟨hperm, hlargest, hord⟩ := loadLoop_some hload ⟨by simp, Or.inl rfl⟩
  rw [ids_nil, List.append_nil] at hperm hord
  rw [dataIds, hcount]
  exact ⟨ld, ids_initialForks hfork, hperm, hlargest, hord ordered_nil, hfree⟩

/-- The store of a start holds the ids of the file. -/
theorem ids_startup {env : StartEnv} {file : Bytes} (h : threadsStartup env file = some man) :
    man.analyses.ids.Perm (dataIds env file) := by
  obtain ⟨ld, hids, hperm, -, -, -⟩ := loaded_of_startup h
  rwa [hids]

/-- **A start from distinct ids in range** leaves them packed. -/
theorem packed_startup {env : StartEnv} {file : Bytes} (h : threadsStartup env file = some man)
    (hnd : (dataIds env file).Nodup) (hrange : ∀ id ∈ dataIds env file, InRange id) :
    Packed man := by
  obtain ⟨ld, hids, hperm, hlargest, hord, hfree⟩ := loaded_of_startup h
  have hstore := hord hnd
  obtain ⟨hford, hfmem⟩ := freeLoop_spec hstore hfree ordered_nil (by simp)
  have hpos : ∀ x ∈ ld.analyses.ids, InRange x := fun x hx => hrange x (hperm.mem_iff.1 hx)
  have hmx : 0 ≤ ld.mxId ∧ ld.mxId ≤ ID_MAX := by
    rcases hlargest.mem with hzero | hmem
    · rw [hzero]
      exact ⟨le_refl _, by decide⟩
    · have hrange := hpos _ hmem
      unfold InRange at hrange
      omega
  have hall : ∀ x, x ∈ man.availableIds.ids ↔
      1 ≤ x ∧ x ≤ min (ld.mxId + 1) ID_MAX ∧ x ∉ ld.analyses.ids := by
    intro x
    rw [hfmem, le_min_iff]
    simp only [ids_nil, List.not_mem_nil, false_or]
    constructor
    · exact fun hx => ⟨hx.1, ⟨by omega, hx.2.2.1⟩, hx.2.2.2⟩
    · exact fun hx => ⟨hx.1, by omega, hx.2.1.2, hx.2.2⟩
  have hle : ∀ x ∈ ld.analyses.ids, 1 ≤ x ∧ x ≤ min (ld.mxId + 1) ID_MAX := by
    intro x hx
    have hmax := hlargest.le x hx
    exact ⟨(hpos x hx).1, le_min (by omega) (hpos x hx).2⟩
  have hfilled : Filled 1 ID_MAX {x | x ∈ man.availableIds.ids} {x | x ∈ ld.analyses.ids} := by
    refine .of_free (min_le_right _ _) ?_ hle hall
    by_cases hcap : ld.mxId + 1 ≤ ID_MAX
    · left
      rw [min_eq_left hcap]
      refine ⟨by omega, fun hmem => ?_⟩
      have hmax := hlargest.le _ hmem
      omega
    · exact Or.inr (min_eq_right (by omega))
  refine ⟨?_, hford, hfilled.congr (fun x => Iff.rfl) fun x => ?_⟩
  · rw [Ordered, hids]
    exact hstore
  · show x ∈ man.analyses.ids ↔ _
    rw [hids]
    exact Iff.rfl

/-! ## Runs -/

/-- Adds that return 0 and removals, after a start from distinct ids in range. -/
def idRuns : Lts.System ThreadsManager Event where
  init man := ∃ env file, threadsStartup env file = some man ∧ (dataIds env file).Nodup ∧
    ∀ id ∈ dataIds env file, InRange id
  step man e man' :=
    match e with
    | .add env path priority memory fd =>
      (threadsAdd env man (newAnalysis path priority memory) fd).ret = 0 ∧
        (threadsAdd env man (newAnalysis path priority memory) fd).man = man'
    | .remove dirPath inGroup id fd => (threadsRemove dirPath inGroup man id fd).man = man'
    | _ => False

/-- The event is not an add that finds the manager spent. -/
def Unspent (man : ThreadsManager) : Event → Prop
  | .add .. => ¬ Spent man
  | _ => True

theorem packed_of_reachable (h : (idRuns.guard Unspent).Reachable man) : Packed man := by
  apply h.invariant
  · intro man hinit
    obtain ⟨env, file, hup, hnd, hrange⟩ := hinit
    exact packed_startup hup hnd hrange
  · intro man e man' hp hstep
    obtain ⟨hstep, hok⟩ := hstep
    cases e with
    | add env path priority memory fd =>
      obtain ⟨hret, rfl⟩ := hstep
      exact (threadsAdd_exit env man _ fd).packed hp hok hret
    | remove dirPath inGroup id fd =>
      obtain rfl := hstep
      exact hp.remove dirPath inGroup id fd
    | _ => exact hstep.elim

/-- **Ids in every run**, whether `ID_MAX` has been reached or not: while no add finds the manager
spent, the ids stay unique in exactly the states that are not spent. -/
theorem idsUnique_iff_of_reachable (h : (idRuns.guard Unspent).Reachable man) :
    IdsUnique man ↔ ¬ Spent man := (packed_of_reachable h).idsUnique_iff

/-- After a start from an empty file the one free id is 1, and 2 is not in use. -/
theorem idsUnique_iff_of_reachable_empty : IdsUnique emptyService.man := by
  have hinit : idRuns.init emptyService.man :=
    ⟨quietStart, [], rfl, by simp [dataIds, readCount, Fd.read, recordIds, quietStart],
      by simp [dataIds, readCount, Fd.read, recordIds, quietStart]⟩
  rw [idsUnique_iff_of_reachable (.of_init hinit)]
  rintro ⟨id, h, -, -, hused⟩
  exact absurd hused (by simp [emptyService])

/-! ## A full id space -/

/-- A complete analysis of the path that `k` spells in ten digits. -/
def numbered (k : Nat) : Analysis :=
  ⟨0, 0, 0, 0, slash :: digits 10 k, 2, ANALYSIS_COMPLETE, ANALYSIS_RESUMED, -1⟩

/-- The analyses `numbered k` to `numbered (k + n - 1)`, each under its number. -/
def numberedFrom : Nat → Nat → Treap Analysis
  | _, 0 => nil
  | k, n + 1 => node k 0 (numbered k) nil (numberedFrom (k + 1) n)

theorem inorder_numberedFrom (k n : Nat) :
    (numberedFrom k n).inorder =
      (List.range' k n).map fun j : Nat => ((j : Int), (0 : Int), numbered j) := by
  induction n generalizing k with
  | zero => rfl
  | succ n ih => simp [numberedFrom, ih, List.range'_succ]

theorem slash_notMem_digits (p n : Nat) : slash ∉ digits p n := fun h =>
  absurd (isDigit_of_mem_digits h) (by decide)

theorem components_numbered {k : Nat} (hk : k < 2 ^ 31) :
    components (numbered k).path = [digits 10 k] := by
  have hlen : (digits 10 k).length = 10 := length_digits_of_lt (by omega)
  have hgood : GoodName (digits 10 k) :=
    ⟨fun hnil => by simp [hnil] at hlen, slash_notMem_digits 10 k⟩
  have hskip : skipSlashes (slash :: digits 10 k) = digits 10 k :=
    (List.dropWhile_cons_of_pos (by simp)).trans (skipSlashes_self hgood)
  show components (slash :: digits 10 k) = _
  rw [components_of_ne (by rw [hskip]; exact hgood.1), hskip, component_self hgood.2,
    afterComponent_self hgood.2, components_nil]

theorem loadable_numbered {k n : Nat} (hk : 1 ≤ k) (hn : (k + n : Int) ≤ ID_MAX + 1) :
    Loadable (numberedFrom k n).inorder := by
  rw [inorder_numberedFrom]
  have hrange : ∀ j ∈ List.range' k n, k ≤ j ∧ j < k + n := fun j hj => List.mem_range'_1.1 hj
  have hmax : ∀ j ∈ List.range' k n, j < 2 ^ 31 := by
    intro j hj
    have := hrange j hj
    unfold ID_MAX at hn
    omega
  have hnodup : (List.range' k n).Nodup := List.nodup_range'
  refine ⟨?_, ?_, ?_, ?_⟩
  · intro e he
    obtain ⟨j, hj, rfl⟩ := List.mem_map.1 he
    have := hrange j hj
    exact ⟨by omega, by omega⟩
  · intro e he
    obtain ⟨j, hj, rfl⟩ := List.mem_map.1 he
    have hlen : (digits 10 j).length = 10 :=
      length_digits_of_lt (lt_of_lt_of_le (hmax j hj) (by decide))
    have hzero : FitsInt 0 := by decide
    refine ⟨hzero, hzero, hzero, ⟨?_, ?_⟩, show FitsInt 2 by decide,
      show FitsInt ANALYSIS_COMPLETE by decide, show FitsInt ANALYSIS_RESUMED by decide⟩
    · intro hmem
      rcases List.mem_cons.1 hmem with h0 | hmem
      · exact absurd h0 (by decide)
      · exact zero_notMem_digits 10 j hmem
    · simp [numbered, hlen]
  · rw [List.pairwise_map]
    exact hnodup.imp fun hne heq => hne (by simpa using heq)
  · rw [List.pairwise_map]
    refine hnodup.imp_of_mem ?_
    intro i j hi hj hne heq
    dsimp only at heq
    rw [components_numbered (hmax i hi), components_numbered (hmax j hj)] at heq
    have hval := congrArg atoi (List.cons.inj heq).1
    rw [atoi_digits (hmax i hi), atoi_digits (hmax j hj)] at hval
    exact hne (by simpa using hval)

/-- A start from the records 2 to `ID_MAX` leaves 1 as the only free id. -/
theorem startup_full {n : Nat} (hn : (n : Int) + 1 = ID_MAX) :
    ∃ man, idRuns.init man ∧ (∀ x, x ∈ man.analyses.ids ↔ 2 ≤ x ∧ x ≤ ID_MAX) ∧
      ∃ h, man.availableIds = node 1 h () nil nil := by
  have hmem : ∀ x, x ∈ (numberedFrom 2 n).ids ↔ 2 ≤ x ∧ x ≤ ID_MAX := by
    intro x
    rw [ids, inorder_numberedFrom, List.map_map, List.mem_map]
    constructor
    · intro hx
      obtain ⟨j, hj, rfl⟩ := hx
      have := List.mem_range'_1.1 hj
      simp only [Function.comp_apply]
      omega
    · intro hx
      exact ⟨x.toNat, List.mem_range'_1.2 (by omega), by simp only [Function.comp_apply]; omega⟩
  have hload : Loadable (numberedFrom 2 n).inorder := loadable_numbered (by omega) (by omega)
  let full : ThreadsManager := ⟨(numberedFrom 2 n).size, numberedFrom 2 n, treeInit, nil⟩
  have hord : full.analyses.Ordered := by
    show ((numberedFrom 2 n).inorder.map Prod.fst).Pairwise (· < ·)
    rw [inorder_numberedFrom, List.map_map, List.pairwise_map]
    exact (List.pairwise_lt_range' 1).imp fun h => by simpa using h
  obtain ⟨file, man, -, hup, hre⟩ := restart_eq hord rfl hload [] quietStart_succeeds (le_refl _)
  have hused : ∀ x, x ∈ man.analyses.ids ↔ 2 ≤ x ∧ x ≤ ID_MAX := fun x =>
    (hre.ids x).trans (hmem x)
  have hperm := ids_startup hup
  have hlast : ID_MAX ≤ maxId full.analyses.inorder := by
    have hmax : ID_MAX ∈ full.analyses.ids := (hmem _).2 ⟨by decide, le_refl _⟩
    obtain ⟨h, a, he⟩ := mem_ids.1 hmax
    exact le_maxId he
  have hfree : ∀ x, x ∈ man.availableIds.ids ↔ x = 1 := by
    intro x
    rw [hre.free, min_eq_right (by omega), hmem]
    unfold ID_MAX
    omega
  refine ⟨man, ⟨quietStart, file, hup, hperm.nodup_iff.1 hre.ordered.nodup, ?_⟩, hused,
    eq_node_of_ids hre.freeOrdered hfree⟩
  intro x hx
  have := (hused x).1 (hperm.mem_iff.2 hx)
  exact ⟨by omega, this.2⟩

/-- With the ids 2 to `ID_MAX` loaded, the next call makes 2 a free id. -/
theorem not_idsUnique_full :
    ¬ ∀ man, idRuns.Reachable man → ID_MAX ∈ man.analyses.ids → IdsUnique man := by
  intro hall
  obtain ⟨man, hinit, hused, h, hlone⟩ := startup_full (n := 99999) (by decide)
  have hunique := hall man (.of_init hinit) ((hused _).2 ⟨by decide, le_refl _⟩)
  obtain ⟨t', hget, -, hids⟩ := getFreeId_lone (h := h) (k := 0) (show (1 : Int) < ID_MAX by decide)
  rw [← hlone] at hget
  have hmem : (2 : Int) ∈ (getFreeId (some 0) () man.availableIds).2.ids := by
    rw [hget]
    exact (hids _).2 rfl
  exact hunique.inserts 0 2 hmem (by simp [hlone]) ((hused 2).2 ⟨le_refl _, by decide⟩)

end DiskAnalyzer
