import DiskAnalyzer.ThreadsProof
import Mathlib.Data.Int.Interval
import Mathlib.Order.Interval.Finset.Basic
import Mathlib.Tactic.ByContra

/-!
# `threads_manager.c`: shutting down and starting up

`threads_shutdown` writes a count and one record for each analysis, in the order in which the save
loop empties the treap. `threads_startup` reads the count and that many records, whatever follows
them in the file, and rebuilds the store, the trie of paths and the free ids.

* `analysisRead_write`: one record, followed by anything.
* `save_eq`: the save loop writes every record once.
* `loadLoop_eq`: the loading loop builds the map of the records it reads.
* `freeLoop_spec`: the free ids are those of an initial segment that are not used.
* `restart_eq`: the restart, with what the ten characters of a field make of a number.
* `startup_shutdown`: the restart of records whose numbers are not negative.
-/

namespace DiskAnalyzer

open Treap Decimal Analysis

/-! ## One record -/

/-- A field is ten characters wide. -/
theorem length_writeInt {n : Int} (h : FitsInt n) : (writeInt n).length = 10 := by
  obtain ⟨hl, hu⟩ := h
  unfold writeInt snprintf printPrec
  rw [List.length_take]
  split_ifs with hn
  · rw [List.length_cons, length_digits]
    omega
  · rw [length_digits]
    omega

theorem zero_notMem_writeInt (n : Int) : 0 ∉ writeInt n := by
  intro h
  have hmem : (0 : UInt8) ∈ printPrec 10 n := List.mem_of_mem_take h
  unfold printPrec at hmem
  split_ifs at hmem with hn
  · rcases List.mem_cons.1 hmem with h | h
    · exact absurd h (by decide)
    · exact zero_notMem_digits _ _ h
  · exact zero_notMem_digits _ _ hmem

/-- The number in a field, when it is not negative. -/
theorem atoi_writeInt {n : Int} (h : FitsInt n) (h0 : 0 ≤ n) : atoi (writeInt n) = n := by
  have hfit : writeInt n = printPrec 10 n := by
    unfold writeInt snprintf
    apply List.take_of_length_le
    rw [printPrec, if_neg (by omega), length_digits_of_lt]
    have := h.2
    omega
  rw [hfit, atoi_printPrec h]

/-- Reading `n` bytes that are there, and whatever follows. -/
theorem readStringBySize_append {s : Bytes} (h0 : 0 ∉ s) (hs : s.length + 1 < 2 ^ 31)
    (rest : Bytes) :
    readStringBySize s.length ⟨s ++ rest, none⟩ = .ok (s, ⟨rest, none⟩) := by
  rw [readStringBySize, if_neg (by omega)]
  simp [Fd.read, cstr_eq_self h0]

theorem readInt_writeInt {n : Int} (h : FitsInt n) (rest : Bytes) :
    readInt ⟨writeInt n ++ rest, none⟩ = .ok (atoi (writeInt n), ⟨rest, none⟩) := by
  have hread := readStringBySize_append (zero_notMem_writeInt n)
    (by rw [length_writeInt h]; decide) rest
  rw [length_writeInt h] at hread
  rw [readInt, show (10 : Int) = ((10 : Nat) : Int) from rfl, hread]

/-- What a record must be for its file to tell it: every number a non-negative `int` (the priority,
which is not compared below, any `int`), and a path that is a C string of `int` length. -/
structure Storable (a : Analysis) : Prop where
  totalTime : 0 ≤ a.totalTime ∧ FitsInt a.totalTime
  cntDirs : 0 ≤ a.cntDirs ∧ FitsInt a.cntDirs
  cntFiles : 0 ≤ a.cntFiles ∧ FitsInt a.cntFiles
  path : 0 ∉ a.path ∧ a.path.length + 1 < 2 ^ 31
  priority : FitsInt a.priority
  status : 0 ≤ a.status ∧ FitsInt a.status
  suspended : 0 ≤ a.suspended ∧ FitsInt a.suspended

/-- What a record must be for its file to be read: every number an `int`. -/
structure Writable (a : Analysis) : Prop where
  totalTime : FitsInt a.totalTime
  cntDirs : FitsInt a.cntDirs
  cntFiles : FitsInt a.cntFiles
  path : 0 ∉ a.path ∧ a.path.length + 1 < 2 ^ 31
  priority : FitsInt a.priority
  status : FitsInt a.status
  suspended : FitsInt a.suspended

theorem Storable.writable {a : Analysis} (h : Storable a) : Writable a :=
  ⟨h.totalTime.2, h.cntDirs.2, h.cntFiles.2, h.path, h.priority, h.status.2, h.suspended.2⟩

/-- `b` has what the file says of `a`: the path, and ten characters of each number. -/
structure Reread (a b : Analysis) : Prop where
  totalTime : b.totalTime = atoi (writeInt a.totalTime)
  cntDirs : b.cntDirs = atoi (writeInt a.cntDirs)
  cntFiles : b.cntFiles = atoi (writeInt a.cntFiles)
  path : b.path = a.path
  priority : b.priority = atoi (writeInt a.priority)
  status : b.status = atoi (writeInt a.status)
  suspended : b.suspended = atoi (writeInt a.suspended)

/-- What has been read can be written. -/
theorem Reread.writable {a b : Analysis} (h : Reread a b) (ha : Writable a) : Writable b where
  totalTime := h.totalTime ▸ fitsInt_wrap32 _
  cntDirs := h.cntDirs ▸ fitsInt_wrap32 _
  cntFiles := h.cntFiles ▸ fitsInt_wrap32 _
  path := h.path ▸ ha.path
  priority := h.priority ▸ fitsInt_wrap32 _
  status := h.status ▸ fitsInt_wrap32 _
  suspended := h.suspended ▸ fitsInt_wrap32 _

/-- The fields that survive a restart. -/
structure SameRecord (a b : Analysis) : Prop where
  totalTime : b.totalTime = a.totalTime
  cntDirs : b.cntDirs = a.cntDirs
  cntFiles : b.cntFiles = a.cntFiles
  path : b.path = a.path
  status : b.status = a.status
  suspended : b.suspended = a.suspended

theorem Reread.sameRecord {a b : Analysis} (h : Reread a b) (ha : Storable a) : SameRecord a b where
  totalTime := h.totalTime.trans (atoi_writeInt ha.totalTime.2 ha.totalTime.1)
  cntDirs := h.cntDirs.trans (atoi_writeInt ha.cntDirs.2 ha.cntDirs.1)
  cntFiles := h.cntFiles.trans (atoi_writeInt ha.cntFiles.2 ha.cntFiles.1)
  path := h.path
  status := h.status.trans (atoi_writeInt ha.status.2 ha.status.1)
  suspended := h.suspended.trans (atoi_writeInt ha.suspended.2 ha.suspended.1)

theorem fitsInt_length {s : Bytes} (h : s.length + 1 < 2 ^ 31) : FitsInt (s.length : Int) := by
  unfold FitsInt
  omega

theorem writeString_append {s : Bytes} (hs : FitsInt (s.length : Int)) (rest : Bytes) :
    writeString s ++ rest = writeInt s.length ++ (s ++ rest) := by
  have hfit : snprintf (s.length + 1) s = s := by simp [snprintf]
  rw [writeString, wrap32_of_fitsInt hs, hfit, List.append_assoc]

theorem readString_writeString {s : Bytes} (h0 : 0 ∉ s) (hs : s.length + 1 < 2 ^ 31)
    (rest : Bytes) : readString ⟨writeString s ++ rest, none⟩ = .ok (s, ⟨rest, none⟩) := by
  have hlen := fitsInt_length hs
  rw [writeString_append hlen, readString, readInt_writeInt hlen]
  dsimp only
  rw [atoi_writeInt hlen (by omega), readStringBySize_append h0 hs]

/-- A field in the sequence of reads. -/
theorem readInt_bind {β : Type} {n : Int} (h : FitsInt n) (rest : Bytes)
    (k : Int × Fd → Except Fail β) :
    (readInt ⟨writeInt n ++ rest, none⟩ >>= k) = k (atoi (writeInt n), ⟨rest, none⟩) := by
  rw [readInt_writeInt h]
  rfl

theorem readString_bind {β : Type} {s : Bytes} (h0 : 0 ∉ s) (hs : s.length + 1 < 2 ^ 31)
    (rest : Bytes) (k : Bytes × Fd → Except Fail β) :
    (readString ⟨writeString s ++ rest, none⟩ >>= k) = k (s, ⟨rest, none⟩) := by
  rw [readString_writeString h0 hs]
  rfl

/-- **Reading a record back**, followed by anything. -/
theorem analysisRead_write {id : Int} (hid : 0 ≤ id ∧ FitsInt id) {a : Analysis} (ha : Writable a)
    (lastStart pid : Int) (rest : Bytes) :
    ∃ b, analysisRead lastStart pid ⟨analysisWrite id a ++ rest, none⟩ = .ok (id, b, ⟨rest, none⟩) ∧
      Reread a b := by
  refine ⟨⟨atoi (writeInt a.totalTime), lastStart, atoi (writeInt a.cntFiles),
    atoi (writeInt a.cntDirs), a.path, atoi (writeInt a.priority), atoi (writeInt a.status),
    atoi (writeInt a.suspended), pid⟩, ?_, ⟨rfl, rfl, rfl, rfl, rfl, rfl, rfl⟩⟩
  -- The fields in the order of the file.
  rw [analysisRead, analysisWrite]
  simp only [List.append_assoc]
  rw [readInt_bind hid.2]
  dsimp only
  rw [readInt_bind ha.totalTime]
  dsimp only
  rw [readInt_bind ha.cntDirs]
  dsimp only
  rw [readInt_bind ha.cntFiles]
  dsimp only
  rw [readString_bind ha.path.1 ha.path.2]
  dsimp only
  rw [readInt_bind ha.priority]
  dsimp only
  rw [readInt_bind ha.status]
  dsimp only
  rw [readInt_bind ha.suspended, atoi_writeInt hid.2 hid.1]
  rfl

/-! ## The save loop -/

/-- What the data file says of a node: its id, its heap value (which is not written), its record. -/
abbrev Entry := Int × Int × Analysis

/-- The records of a list of nodes, one after another. -/
def savedBytes (es : List Entry) : Bytes := es.flatMap fun e => analysisWrite e.1 e.2.2

/-- **The save loop writes every record once**, in the order in which it empties the treap. -/
theorem save_eq {t : Treap Analysis} (ho : t.Ordered) {n : Nat} (hn : t.size ≤ n) :
    ∃ es : List Entry, es.Perm t.inorder ∧ treapSave n t = some (savedBytes es) := by
  induction n generalizing t with
  | zero =>
    cases t with
    | nil => exact ⟨[], List.Perm.refl _, rfl⟩
    | node id h a l r => simp at hn
  | succ n ih =>
    cases t with
    | nil => exact ⟨[], List.Perm.refl _, rfl⟩
    | node id h a l r =>
      -- Each round removes the root; what is left is its two subtrees, rearranged.
      have hleft : (treapRemove (node id h a l r) id).2.inorder = l.inorder ++ r.inorder := by
        rw [remove_snd, inorder_extract ho, filter_root ho]
      have ho' : (treapRemove (node id h a l r) id).2.Ordered := by
        rw [remove_snd]
        exact ordered_extract ho id
      have hsize : (treapRemove (node id h a l r) id).2.size ≤ n := by
        rw [size_eq_length, hleft, List.length_append, ← size_eq_length, ← size_eq_length]
        simp only [size_node] at hn
        omega
      obtain ⟨es, hperm, hsave⟩ := ih ho' hsize
      refine ⟨(id, h, a) :: es, ?_, ?_⟩
      · rw [hleft] at hperm
        exact (hperm.cons _).trans List.perm_middle.symm
      · rw [treapSave, hsave]
        rfl

/-! ## The loading loop -/

/-- Records that a file tells apart and whole: ids in range and distinct, paths distinct as
component lists, every record storable. -/
structure Savable (es : List Entry) : Prop where
  range : ∀ e ∈ es, 1 ≤ e.1 ∧ e.1 ≤ ID_MAX
  records : ∀ e ∈ es, Storable e.2.2
  ids : es.Pairwise fun e e' => e.1 ≠ e'.1
  paths : es.Pairwise fun e e' => components e.2.2.path ≠ components e'.2.2.path

/-- Records that a file tells apart. -/
structure Loadable (es : List Entry) : Prop where
  range : ∀ e ∈ es, 1 ≤ e.1 ∧ e.1 ≤ ID_MAX
  records : ∀ e ∈ es, Writable e.2.2
  ids : es.Pairwise fun e e' => e.1 ≠ e'.1
  paths : es.Pairwise fun e e' => components e.2.2.path ≠ components e'.2.2.path

theorem Savable.loadable {es : List Entry} (h : Savable es) : Loadable es :=
  ⟨h.range, fun e he => (h.records e he).writable, h.ids, h.paths⟩

theorem Loadable.perm {es es' : List Entry} (h : Loadable es) (hp : es.Perm es') : Loadable es' :=
  ⟨fun e he => h.range e (hp.mem_iff.2 he), fun e he => h.records e (hp.mem_iff.2 he),
    (hp.pairwise_iff fun hne => hne.symm).1 h.ids, (hp.pairwise_iff fun hne => hne.symm).1 h.paths⟩

/-- The largest id, 0 when there is none. -/
def maxId (es : List Entry) : Int := es.foldr (fun e m => max e.1 m) 0

instance : LeftCommutative fun (e : Entry) (m : Int) => max e.1 m :=
  ⟨fun e e' m => max_left_comm e.1 e'.1 m⟩

theorem maxId_perm {es es' : List Entry} (h : es.Perm es') : maxId es = maxId es' :=
  h.foldr_eq 0

theorem maxId_nonneg (es : List Entry) : 0 ≤ maxId es := by
  induction es with
  | nil => exact le_refl _
  | cons e es ih => exact le_trans ih (le_max_right _ _)

/-- Nothing fails while starting up. -/
structure StartEnv.Succeeds (env : StartEnv) : Prop where
  reads : env.reads = none
  record : ∀ k, env.record k = true
  rand : ∀ k, env.rand k ≠ none
  alloc : ∀ k, env.alloc k = none
  randFree : ∀ i, env.randFree i ≠ none
  sockets : env.sockets = true
  fork : ∀ id a, env.fork id a ≠ none

/-- The loop has read the records of `es` and built the store and the trie they make. -/
structure LoadInv (es : List Entry) (ld : Loaded) : Prop where
  ordered : ld.analyses.Ordered
  ids : ∀ x, x ∈ ld.analyses.ids ↔ ∃ e ∈ es, e.1 = x
  records : ∀ e ∈ es, ∃ k b, (e.1, k, b) ∈ ld.analyses.inorder ∧ Reread e.2.2 b
  good : ld.paths.Good
  paths : ∀ cs, GoodNames cs → ∀ i, ld.paths.val cs = some i ↔
    ∃ e ∈ es, e.1 = i ∧ components e.2.2.path = cs
  mxId : ld.mxId = maxId es

theorem loadInv_nil (fd : Fd) : LoadInv [] ⟨nil, treeInit, 0, fd⟩ where
  ordered := ordered_nil
  ids := by simp
  records := by simp
  good := Tree.good_treeInit
  paths cs _ i := by simp [Tree.val_treeInit]
  mxId := rfl

/-- **One round.** It reads the record ahead and adds it. -/
theorem loadOne_eq {env : StartEnv} (he : env.Succeeds) {es : List Entry} {ld : Loaded}
    {e : Entry} (hs : Loadable (e :: es)) (hi : LoadInv es ld) {rest : Bytes}
    (hfd : ld.fd = ⟨analysisWrite e.1 e.2.2 ++ rest, none⟩) (k : Nat) :
    ∃ ld', loadOne env k ld = some ld' ∧ ld'.fd = ⟨rest, none⟩ ∧ LoadInv (e :: es) ld' := by
  obtain ⟨hlow, hhigh⟩ := hs.range e List.mem_cons_self
  have hid : 0 ≤ e.1 ∧ FitsInt e.1 := by
    unfold FitsInt
    unfold ID_MAX at hhigh
    omega
  obtain ⟨b, hread, hsame⟩ := analysisRead_write hid (hs.records e List.mem_cons_self)
    (env.memory k).1 (env.memory k).2 rest
  obtain ⟨heap, hrand⟩ := Option.ne_none_iff_exists'.1 (he.rand k)
  have hnew : e.1 ∉ ld.analyses.ids := by
    intro hmem
    obtain ⟨e', he', heq⟩ := (hi.ids e.1).1 hmem
    exact (List.pairwise_cons.1 hs.ids).1 e' he' heq.symm
  obtain ⟨hgood, hval⟩ := Tree.insert_spec hi.good b.path (some e.1) none
  refine ⟨⟨treapInsertNode ld.analyses (node e.1 heap b nil nil),
    (treeInsert ld.paths b.path (some e.1) none).2, max e.1 ld.mxId, ⟨rest, none⟩⟩, ?_, rfl, ?_⟩
  · rw [loadOne, if_neg (by simp [he.record k]), hfd, hread]
    dsimp only
    rw [insertNew_eq, hrand, he.alloc]
    simp [Tree.insert_none_fst]
  · refine ⟨ordered_insertNode hi.ordered hnew heap b, ?_, ?_, hgood,
      ?_, ?_⟩
    · intro x
      rw [mem_ids_insertNode, hi.ids]
      simp [eq_comm]
    · intro e' he'
      rcases List.mem_cons.1 he' with rfl | he'
      · exact ⟨heap, b, mem_inorder_insertNode.2 (Or.inl rfl), hsame⟩
      · obtain ⟨k', b', hmem, hsame'⟩ := hi.records e' he'
        exact ⟨k', b', mem_inorder_insertNode.2 (Or.inr hmem), hsame'⟩
    · intro cs hcs i
      rw [hval cs hcs, Tree.insert_none_fst, hsame.path]
      by_cases hcs' : cs = components e.2.2.path
      · have hother : ∀ e' ∈ es, components e'.2.2.path ≠ cs := fun e' he' heq =>
          (List.pairwise_cons.1 hs.paths).1 e' he' (heq.trans hcs').symm
        simp only [hcs', if_pos, Option.some.injEq, List.mem_cons, exists_eq_or_imp,
          and_true]
        constructor
        · intro heq
          exact Or.inl heq
        · intro hor
          rcases hor with heq | ⟨e', he', -, hp⟩
          · exact heq
          · exact absurd (hp.trans hcs'.symm) (hother e' he')
      · rw [if_neg fun h => hcs' h.2, hi.paths cs hcs i]
        simp [Ne.symm hcs']
    · show max e.1 ld.mxId = maxId (e :: es)
      rw [hi.mxId]
      rfl

/-- **The loop reads as many records as it is told**, and leaves what follows them. -/
theorem loadLoop_eq {env : StartEnv} (he : env.Succeeds) (todo : List Entry) {es : List Entry}
    {ld : Loaded} (hs : Loadable (todo ++ es)) (hi : LoadInv es ld) {rest : Bytes}
    (hfd : ld.fd = ⟨savedBytes todo ++ rest, none⟩) (k : Nat) :
    ∃ ld', loadLoop env todo.length k ld = some ld' ∧ LoadInv (todo.reverse ++ es) ld' := by
  induction todo generalizing es ld k with
  | nil => exact ⟨ld, rfl, hi⟩
  | cons e todo ih =>
    have hperm : ((e :: todo) ++ es).Perm (todo ++ e :: es) := List.perm_middle.symm
    have hsub : (e :: es).Sublist ((e :: todo) ++ es) :=
      (List.sublist_append_right todo es).cons_cons e
    have hs' : Loadable (e :: es) :=
      ⟨fun x hx => hs.range x (hsub.subset hx), fun x hx => hs.records x (hsub.subset hx),
        hs.ids.sublist hsub, hs.paths.sublist hsub⟩
    have hfd' : ld.fd = ⟨analysisWrite e.1 e.2.2 ++ (savedBytes todo ++ rest), none⟩ := by
      rw [hfd, savedBytes, List.flatMap_cons, List.append_assoc]
      rfl
    obtain ⟨ld₁, hone, hfd₁, hi₁⟩ := loadOne_eq he hs' hi hfd' k
    obtain ⟨ld', hloop, hi'⟩ := ih (hs.perm hperm) hi₁ hfd₁ (k + 1)
    refine ⟨ld', ?_, ?_⟩
    · rw [List.length_cons, loadLoop, hone]
      exact hloop
    · rw [List.reverse_cons, List.append_assoc]
      exact hi'

/-! ## The free ids and the initial forks -/

/-- **The loop over the free ids** adds the ids of its range that are not used, up to `ID_MAX`. -/
theorem freeLoop_spec {env : StartEnv} {t : Treap Analysis} (ho : t.Ordered) {n : Nat} {i : Int}
    {free free' : Treap Unit} (h : freeLoop env t n i free = some free') (hf : free.Ordered)
    (hlt : ∀ x ∈ free.ids, x < i) :
    free'.Ordered ∧ ∀ x, x ∈ free'.ids ↔
      x ∈ free.ids ∨ (i ≤ x ∧ x < i + n ∧ x ≤ ID_MAX ∧ x ∉ t.ids) := by
  induction n generalizing i free with
  | zero =>
    obtain rfl := Option.some.inj h
    refine ⟨hf, fun x => ⟨Or.inl, fun h => h.resolve_right ?_⟩⟩
    intro hx
    have hlow := hx.1
    have hhigh := hx.2.1
    rw [Nat.cast_zero] at hhigh
    omega
  | succ n ih =>
    rw [freeLoop] at h
    by_cases hmax : ID_MAX < i
    · rw [if_pos hmax] at h
      obtain rfl := Option.some.inj h
      refine ⟨hf, fun x => ⟨Or.inl, fun h => h.resolve_right ?_⟩⟩
      intro hx
      omega
    · rw [if_neg hmax] at h
      cases hfind : treapFind t i with
      | some a =>
        rw [hfind] at h
        have hused : i ∈ t.ids := by
          by_contra hnot
          rw [(find_eq_none_iff ho).2 hnot] at hfind
          exact absurd hfind (by simp)
        obtain ⟨hord, hmem⟩ := ih h hf fun x hx => lt_trans (hlt x hx) (lt_add_one i)
        refine ⟨hord, ?_⟩
        intro x
        rw [hmem]
        have hne : x ∉ t.ids → x ≠ i := fun hx heq => hx (heq ▸ hused)
        constructor
        · intro h
          exact h.imp_right fun hx => ⟨by omega, by omega, hx.2.2.1, hx.2.2.2⟩
        · intro h
          exact h.imp_right fun hx => ⟨by have := hne hx.2.2.2; omega, by omega, hx.2.2.1, hx.2.2.2⟩
      | none =>
        have hunused := (find_eq_none_iff ho).1 hfind
        have hnew : i ∉ free.ids := fun hmem => absurd (hlt i hmem) (lt_irrefl i)
        rw [hfind, insertNew_eq] at h
        cases hrand : env.randFree i with
        | none =>
          rw [hrand] at h
          exact absurd h (by simp)
        | some heap =>
          rw [hrand] at h
          obtain ⟨hord, hmem⟩ := ih h (ordered_insertNode hf hnew heap ()) fun x hx => by
            rcases mem_ids_insertNode.1 hx with rfl | hx
            · omega
            · have := hlt x hx
              omega
          refine ⟨hord, ?_⟩
          intro x
          rw [hmem, mem_ids_insertNode]
          constructor
          · intro h
            rcases h with (rfl | hx) | hx
            · exact Or.inr ⟨le_refl _, by omega, by omega, hunused⟩
            · exact Or.inl hx
            · exact Or.inr ⟨by omega, by omega, hx.2.2.1, hx.2.2.2⟩
          · intro h
            rcases h with hx | hx
            · exact Or.inl (Or.inr hx)
            · by_cases heq : x = i
              · exact Or.inl (Or.inl heq)
              · exact Or.inr ⟨by omega, by omega, hx.2.2.1, hx.2.2.2⟩

/-- It only fails for want of memory. -/
theorem freeLoop_ne_none {env : StartEnv} (he : env.Succeeds) (t : Treap Analysis) (n : Nat)
    (i : Int) (free : Treap Unit) : freeLoop env t n i free ≠ none := by
  induction n generalizing i free with
  | zero => simp [freeLoop]
  | succ n ih =>
    rw [freeLoop]
    split_ifs with hmax
    · simp
    · cases hfind : treapFind t i with
      | some a => exact ih (i + 1) free
      | none =>
        obtain ⟨heap, hrand⟩ := Option.ne_none_iff_exists'.1 (he.randFree i)
        rw [insertNew_eq, hrand]
        exact ih (i + 1) _

/-- What `initial_forks` makes of one record. -/
def forked (env : StartEnv) (id : Int) (a : Analysis) : Option Analysis :=
  if a.status ≠ ANALYSIS_COMPLETE then
    (env.fork id a).map fun pid => { a with pid, lastStart := env.now id }
  else some { a with pid := -1 }

theorem forked_ne_none {env : StartEnv} (he : env.Succeeds) (id : Int) (a : Analysis) :
    forked env id a ≠ none := by
  rw [forked]
  split_ifs
  · rw [ne_eq, Option.map_eq_none_iff]
    exact he.fork id a
  · simp

theorem sameRecord_forked {env : StartEnv} {id : Int} {a b : Analysis}
    (h : forked env id a = some b) : SameRecord a b := by
  rw [forked] at h
  split_ifs at h
  · obtain ⟨pid, -, rfl⟩ := Option.map_eq_some_iff.1 h
    exact ⟨rfl, rfl, rfl, rfl, rfl, rfl⟩
  · obtain rfl := Option.some.inj h
    exact ⟨rfl, rfl, rfl, rfl, rfl, rfl⟩

theorem SameRecord.trans {a b c : Analysis} (h : SameRecord a b) (h' : SameRecord b c) :
    SameRecord a c :=
  ⟨h'.totalTime.trans h.totalTime, h'.cntDirs.trans h.cntDirs, h'.cntFiles.trans h.cntFiles,
    h'.path.trans h.path, h'.status.trans h.status, h'.suspended.trans h.suspended⟩

/-- **The initial forks** only write pids and start times. -/
theorem initialForks_eq {env : StartEnv} (he : env.Succeeds) (t : Treap Analysis) :
    ∃ t', initialForks env t = some t' ∧ t'.ids = t.ids ∧
      ∀ id h a, (id, h, a) ∈ t.inorder → ∃ b, forked env id a = some b ∧
        (id, h, b) ∈ t'.inorder := by
  induction t with
  | nil => exact ⟨nil, rfl, rfl, fun id h a hm => absurd hm List.not_mem_nil⟩
  | node i k a l r ihl ihr =>
    obtain ⟨l', hl', hlids, hlrec⟩ := ihl
    obtain ⟨r', hr', hrids, hrrec⟩ := ihr
    obtain ⟨b, hb⟩ := Option.ne_none_iff_exists'.1 (forked_ne_none he i a)
    refine ⟨node i k b l' r', ?_, by simp [hlids, hrids], ?_⟩
    · rw [forked] at hb
      rw [initialForks, hb, hl', hr']
      rfl
    · intro id h a' hm
      simp only [inorder_node, List.mem_append, List.mem_cons, Prod.mk.injEq] at hm ⊢
      rcases hm with hm | ⟨rfl, rfl, rfl⟩ | hm
      · obtain ⟨b', hb', hmem⟩ := hlrec id h a' hm
        exact ⟨b', hb', Or.inl hmem⟩
      · exact ⟨b, hb, Or.inr (Or.inl ⟨rfl, rfl, rfl⟩)⟩
      · obtain ⟨b', hb', hmem⟩ := hrrec id h a' hm
        exact ⟨b', hb', Or.inr (Or.inr hmem)⟩

/-! ## The restart -/

/-- A store that can be saved: its counter is right and its records can be told apart. -/
structure Saved (man : ThreadsManager) : Prop where
  ordered : man.analyses.Ordered
  cnt : man.analysisCnt = man.analyses.size
  savable : Savable man.analyses.inorder

/-- `man'` is `man` restarted. -/
structure Restored (man man' : ThreadsManager) : Prop where
  ordered : man'.analyses.Ordered
  cnt : man'.analysisCnt = man.analysisCnt
  ids : ∀ x, x ∈ man'.analyses.ids ↔ x ∈ man.analyses.ids
  records : ∀ id a, treapFind man.analyses id = some a →
    ∃ b, treapFind man'.analyses id = some b ∧ SameRecord a b
  good : man'.paths.Good
  paths : ∀ cs, GoodNames cs → ∀ i, man'.paths.val cs = some i ↔
    ∃ a, treapFind man.analyses i = some a ∧ components a.path = cs
  freeOrdered : man'.availableIds.Ordered
  free : ∀ i, i ∈ man'.availableIds.ids ↔
    1 ≤ i ∧ i ≤ min (maxId man.analyses.inorder + 1) ID_MAX ∧ i ∉ man.analyses.ids

/-- There are no more records than ids. -/
theorem Loadable.length_le {es : List Entry} (h : Loadable es) : (es.length : Int) ≤ ID_MAX := by
  have hnodup : (es.map Prod.fst).Nodup := List.pairwise_map.2 h.ids
  have hsub : (es.map Prod.fst).toFinset ⊆ Finset.Icc 1 ID_MAX := by
    intro x hx
    obtain ⟨e, he, rfl⟩ := List.mem_map.1 (List.mem_toFinset.1 hx)
    exact Finset.mem_Icc.2 (h.range e he)
  have hcard := Finset.card_le_card hsub
  rw [List.toFinset_card_of_nodup hnodup, List.length_map, Int.card_Icc] at hcard
  unfold ID_MAX at *
  omega

/-- The count in front of the records. -/
theorem readCount_append {n : Int} (h : FitsInt n) (h0 : 0 ≤ n) (rest : Bytes) :
    readCount ⟨writeInt n ++ rest, none⟩ = some (n, ⟨rest, none⟩) := by
  have hlen := length_writeInt h
  have hne : writeInt n ≠ [] := fun hnil => by simp [hnil] at hlen
  have hread : Fd.read ⟨writeInt n ++ rest, none⟩ 10 = some (writeInt n, ⟨rest, none⟩) := by
    rw [← hlen]
    simp [Fd.read]
  rw [readCount, hread]
  dsimp only
  rw [if_neg hne, cstr_eq_self (zero_notMem_writeInt n), atoi_writeInt h h0]

/-- What `threads_startup` returns once its loops have run. -/
theorem startup_of_loops {env : StartEnv} (he : env.Succeeds) {file : Bytes} {cnt : Int} {fd : Fd}
    {ld : Loaded} {free : Treap Unit} {store : Treap Analysis}
    (hcount : readCount ⟨file, none⟩ = some (cnt, fd))
    (hload : loadLoop env cnt.toNat 0 ⟨nil, treeInit, 0, fd⟩ = some ld)
    (hfree : freeLoop env ld.analyses (ld.mxId + 1).toNat 1 nil = some free)
    (hfork : initialForks env ld.analyses = some store) :
    threadsStartup env file = some ⟨cnt, store, ld.paths, free⟩ := by
  rw [threadsStartup, he.reads, hcount]
  dsimp only
  rw [hload]
  dsimp only
  rw [hfree]
  dsimp only
  rw [if_neg (by simp [he.sockets]), hfork]
  rfl

/-- One round: a record is read and its id goes into the store. -/
theorem loadOne_some {env : StartEnv} {k : Nat} {ld ld' : Loaded}
    (h : loadOne env k ld = some ld') :
    ∃ id anal heap, analysisRead (env.memory k).1 (env.memory k).2 ld.fd = .ok (id, anal, ld'.fd) ∧
      ld'.analyses = treapInsertNode ld.analyses (node id heap anal nil nil) ∧
      ld'.mxId = max id ld.mxId := by
  rw [loadOne] at h
  split_ifs at h
  cases hread : analysisRead (env.memory k).1 (env.memory k).2 ld.fd with
  | error e =>
    rw [hread] at h
    exact absurd h (by simp)
  | ok res =>
    obtain ⟨id, anal, fd⟩ := res
    rw [hread] at h
    dsimp only at h
    rw [insertNew_eq] at h
    cases hrand : env.rand k with
    | none =>
      rw [hrand] at h
      exact absurd h (by simp)
    | some heap =>
      rw [hrand] at h
      dsimp only [Option.map_some] at h
      split_ifs at h
      obtain rfl := Option.some.inj h
      exact ⟨id, anal, heap, rfl, rfl, rfl⟩

/-- A start that succeeds has run its loops. -/
theorem startup_some {env : StartEnv} {file : Bytes} {man : ThreadsManager}
    (h : threadsStartup env file = some man) :
    ∃ cnt fd ld, readCount ⟨file, env.reads⟩ = some (cnt, fd) ∧
      loadLoop env cnt.toNat 0 ⟨nil, treeInit, 0, fd⟩ = some ld ∧
      freeLoop env ld.analyses (ld.mxId + 1).toNat 1 nil = some man.availableIds ∧
      initialForks env ld.analyses = some man.analyses := by
  rw [threadsStartup] at h
  cases hcount : readCount ⟨file, env.reads⟩ with
  | none => simp [hcount] at h
  | some p =>
    obtain ⟨cnt, fd⟩ := p
    simp only [hcount] at h
    cases hload : loadLoop env cnt.toNat 0 ⟨nil, treeInit, 0, fd⟩ with
    | none => simp [hload] at h
    | some ld =>
      simp only [hload] at h
      cases hfree : freeLoop env ld.analyses (ld.mxId + 1).toNat 1 nil with
      | none => simp [hfree] at h
      | some free =>
        simp only [hfree] at h
        split_ifs at h
        obtain ⟨store, hfork, rfl⟩ := Option.map_eq_some_iff.1 h
        exact ⟨cnt, fd, ld, rfl, hload, hfree, hfork⟩

/-- `man'` is what `env` makes of the saved `man`. -/
structure Rebuilt (env : StartEnv) (man man' : ThreadsManager) : Prop where
  ordered : man'.analyses.Ordered
  cnt : man'.analysisCnt = man.analysisCnt
  ids : ∀ x, x ∈ man'.analyses.ids ↔ x ∈ man.analyses.ids
  records : ∀ id a, treapFind man.analyses id = some a →
    ∃ b c, Reread a b ∧ forked env id b = some c ∧ treapFind man'.analyses id = some c
  good : man'.paths.Good
  paths : ∀ cs, GoodNames cs → ∀ i, man'.paths.val cs = some i ↔
    ∃ a, treapFind man.analyses i = some a ∧ components a.path = cs
  freeOrdered : man'.availableIds.Ordered
  free : ∀ i, i ∈ man'.availableIds.ids ↔
    1 ≤ i ∧ i ≤ min (maxId man.analyses.inorder + 1) ID_MAX ∧ i ∉ man.analyses.ids

/-- **A restart rebuilds the store.** Whatever the heap values, in the old treap and in the new
ones, and whatever the data file held before. -/
theorem restart_eq {man : ThreadsManager} (ho : man.analyses.Ordered)
    (hcnt : man.analysisCnt = man.analyses.size) (hs : Loadable man.analyses.inorder)
    (old : Bytes) {env : StartEnv} (he : env.Succeeds) {rounds : Nat}
    (hr : man.analyses.size ≤ rounds) :
    ∃ file man', threadsShutdown rounds man old = some file ∧
      threadsStartup env file = some man' ∧ Rebuilt env man man' := by
  obtain ⟨es, hperm, hsave⟩ := save_eq ho hr
  have hsav : Loadable es := hs.perm hperm.symm
  have hlen : es.length = man.analyses.size := by rw [hperm.length_eq, size_eq_length]
  have hcnt' : man.analysisCnt = es.length := by rw [hcnt, hlen]
  have hle := hsav.length_le
  have hfits : FitsInt man.analysisCnt := by
    unfold FitsInt
    unfold ID_MAX at hle
    omega
  let rest := old.drop (writeInt man.analysisCnt ++ savedBytes es).length
  have hfile : threadsShutdown rounds man old =
      some (writeInt man.analysisCnt ++ (savedBytes es ++ rest)) := by
    rw [threadsShutdown, hsave, Option.map_some, overwrite, ← List.append_assoc]
    rfl
  -- What the loading loop reads is what the save loop wrote.
  obtain ⟨ld, hload, hinv⟩ := loadLoop_eq he es (by rw [List.append_nil]; exact hsav)
    (loadInv_nil ⟨savedBytes es ++ rest, none⟩) rfl 0
  rw [List.append_nil] at hinv
  have hmem : ∀ e, e ∈ es.reverse ↔ e ∈ man.analyses.inorder := fun e => by
    rw [List.mem_reverse, hperm.mem_iff]
  have hids : ∀ x, x ∈ ld.analyses.ids ↔ x ∈ man.analyses.ids := by
    intro x
    rw [hinv.ids, ids, List.mem_map]
    simp only [hmem]
  have hmx : ld.mxId = maxId man.analyses.inorder := by
    rw [hinv.mxId]
    exact maxId_perm (es.reverse_perm.trans hperm)
  have hmx0 := maxId_nonneg man.analyses.inorder
  obtain ⟨free, hfree⟩ := Option.ne_none_iff_exists'.1
    (freeLoop_ne_none he ld.analyses (ld.mxId + 1).toNat 1 nil)
  obtain ⟨hford, hfmem⟩ := freeLoop_spec hinv.ordered hfree ordered_nil (by simp)
  obtain ⟨store, hfork, hsids, hsrec⟩ := initialForks_eq he ld.analyses
  have hsord : store.Ordered := by
    unfold Ordered
    rw [hsids]
    exact hinv.ordered
  refine ⟨_, ⟨man.analysisCnt, store, ld.paths, free⟩, hfile, ?_, hsord, rfl, ?_,
    ?_, hinv.good, ?_, hford, ?_⟩
  · have hcount := readCount_append hfits (by omega) (savedBytes es ++ rest)
    rw [← show man.analysisCnt.toNat = es.length by omega] at hload
    exact startup_of_loops he hcount hload hfree hfork
  · intro x
    rw [hsids, hids]
  · intro id a ha
    obtain ⟨h, hm⟩ := (find_eq_some_iff ho).1 ha
    obtain ⟨k, b, hb, hsame⟩ := hinv.records (id, h, a) ((hmem _).2 hm)
    obtain ⟨c, hforked, hc⟩ := hsrec id k b hb
    exact ⟨b, c, hsame, hforked, (find_eq_some_iff hsord).2 ⟨k, hc⟩⟩
  · intro cs hcs i
    rw [hinv.paths cs hcs i]
    simp only [hmem, find_eq_some_iff ho]
    constructor
    · intro hex
      obtain ⟨e, hm, hid, hp⟩ := hex
      exact ⟨e.2.2, ⟨e.2.1, hid ▸ hm⟩, hp⟩
    · intro hex
      obtain ⟨a, ⟨h, hm⟩, hp⟩ := hex
      exact ⟨(i, h, a), hm, rfl, hp⟩
  · intro i
    rw [hfmem, hids]
    simp only [ids_nil, List.not_mem_nil, false_or]
    constructor
    · intro hex
      obtain ⟨hlow, hhigh, hmax, hnot⟩ := hex
      exact ⟨hlow, le_min (by omega) hmax, hnot⟩
    · intro hex
      obtain ⟨hlow, hhigh, hnot⟩ := hex
      have hmin := le_min_iff.1 hhigh
      exact ⟨hlow, by omega, hmin.2, hnot⟩

/-- **A restart restores the store** when the numbers in it are not negative. -/
theorem startup_shutdown {man : ThreadsManager} (hs : Saved man) (old : Bytes) {env : StartEnv}
    (he : env.Succeeds) {rounds : Nat} (hr : man.analyses.size ≤ rounds) :
    ∃ file man', threadsShutdown rounds man old = some file ∧
      threadsStartup env file = some man' ∧ Restored man man' := by
  obtain ⟨file, man', hdown, hup, h⟩ := restart_eq hs.ordered hs.cnt hs.savable.loadable old he hr
  refine ⟨file, man', hdown, hup, h.ordered, h.cnt, h.ids, ?_, h.good, h.paths, h.freeOrdered,
    h.free⟩
  intro id a ha
  obtain ⟨b, c, hread, hforked, hc⟩ := h.records id a ha
  obtain ⟨k, hm⟩ := (find_eq_some_iff hs.ordered).1 ha
  have hstorable := hs.savable.records _ hm
  exact ⟨c, hc, (hread.sameRecord hstorable).trans (sameRecord_forked hforked)⟩

theorem quietStart_succeeds : quietStart.Succeeds where
  reads := rfl
  record _ := rfl
  rand _ := by simp [quietStart]
  alloc _ := rfl
  randFree _ := by simp [quietStart]
  sockets := rfl
  fork _ _ := by simp [quietStart]

/-- Two analyses, one complete and one suspended; the file held a longer store. -/
theorem startup_shutdown_two :
    let a : Analysis := ⟨7, 0, 30, 4, str "/a", 2, ANALYSIS_COMPLETE, ANALYSIS_RESUMED, 10⟩
    let b : Analysis := ⟨0, 5, 0, 1, str "/b/c", 1, ANALYSIS_INPROGRESS, ANALYSIS_SUSPENDED, 12⟩
    let man : ThreadsManager :=
      ⟨2, node 1 5 a nil (node 3 9 b nil nil), treeInit, node 2 0 () nil (node 4 1 () nil nil)⟩
    ∃ file man', threadsShutdown 2 man (List.replicate 500 43) = some file ∧
      threadsStartup quietStart file = some man' ∧ Restored man man' := by
  intro a b man
  have hcomp : components (str "/a") ≠ components (str "/b/c") := by decide +kernel
  have ha : Storable a := ⟨by decide, by decide, by decide, by decide +kernel, by decide, by decide,
    by decide⟩
  have hb : Storable b := ⟨by decide, by decide, by decide, by decide +kernel, by decide, by decide,
    by decide⟩
  refine startup_shutdown ⟨by simp [man, Ordered], rfl, ?_, ?_, ?_, ?_⟩ _ quietStart_succeeds
    (le_refl _)
  · simp [man, ID_MAX]
  · simp [man, ha, hb]
  · simp [man]
  · simpa [man, a, b] using hcomp

end DiskAnalyzer
