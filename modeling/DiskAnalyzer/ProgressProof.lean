import DiskAnalyzer.Forks
import DiskAnalyzer.HashProof
import DiskAnalyzer.TreeProof

/-!
# `tree.c`: loading what was saved

`Tree.Stored` says that every hash of a tree holds a list of children with names a file can hold;
the operations on trees keep it. Saving such a tree and loading the file gives the tree back, with
every bucket in its order (`treeBuild_treeSave`), up to what ten characters of size and a flag can
say of a state (`State.reload`).

The loader takes the children one by one, so the proof is about a hash that holds those already
read (`hashBuild_hashSave`), inside an induction over the tree.
-/

namespace DiskAnalyzer

open Decimal

variable {α β : Type}

/-! ## Trees a file can hold -/

namespace Tree

inductive Stored : Tree α → Prop
  | mk {i : Option α} {h : Hash (Tree α)} {l : List (Bytes × Tree α)} : h.Holds l →
      (∀ e ∈ l, Stored e.2) → Stored (.mk i h)

theorem Stored.good {t : Tree α} (ht : t.Stored) : t.Good := by
  induction ht with
  | mk hl _ ih =>
    refine .mk hl.good fun k e he => ih e ?_
    rw [hl.eq] at he
    exact List.mem_of_mem_filter he

theorem stored_treeInit : (treeInit : Tree α).Stored :=
  .mk Hash.holds_empty fun _ he => absurd he List.not_mem_nil

theorem Stored.withInfo {t : Tree α} (ht : t.Stored) (i : Option α) : (Tree.mk i t.hsh).Stored := by
  cases ht with
  | mk hl hsub => exact .mk hl hsub

theorem Stored.child {t n : Tree α} (ht : t.Stored) {path : Bytes}
    (h : hashFind t.hsh path = some n) : n.Stored := by
  cases ht with
  | mk hl hsub => exact hsub _ (hl.mem_of_find h)

theorem Stored.setChild {t n : Tree α} (ht : t.Stored) (path : Bytes) (hn : n.Stored) :
    (t.setChild path n).Stored := by
  cases ht with
  | mk hl hsub =>
    refine .mk (hl.set path n) ?_
    intro e he
    rcases mem_replaceNamed he with he | rfl
    · exact hsub e he
    · exact hn

theorem Stored.addChild {t n : Tree α} (ht : t.Stored) {name : Bytes} (hname : NameOk name)
    (hf : hashFind t.hsh name = none) (new : Tree α) (hn : n.Stored) :
    (Tree.mk t.info (hashSet (hashInsert t.hsh name new).1 name n)).Stored := by
  cases ht with
  | mk hl hsub =>
    refine .mk (hl.add hname hf new n) ?_
    intro e he
    rcases List.mem_append.1 he with he | he
    · exact hsub e he
    · obtain rfl : e = (name, n) := by simpa using he
      exact hn

theorem stored_treeInsert {t : Tree α} (ht : t.Stored) {path : Bytes}
    (hpath : ∀ c ∈ components path, NameOk c) (i : Option α) :
    (treeInsert t path i none).2.Stored := by
  induction path using components.induct generalizing t with
  | case1 path hp =>
    rw [treeInsert_of_nil hp]
    exact ht.withInfo i
  | case2 path hp _ ih =>
    rw [components_of_ne hp] at hpath
    have hrest := fun c hc => hpath c (List.mem_cons_of_mem _ hc)
    cases hf : hashFind t.hsh (skipSlashes path) with
    | some n =>
      rw [treeInsert_found hp hf]
      exact ht.setChild _ (ih (ht.child hf) hrest)
    | none =>
      have hf' : hashFind t.hsh (component (skipSlashes path)) = none := by
        rwa [hashFind_component ht.good.hsh]
      rw [treeInsert_new hp hf' hf i (by simp)]
      exact ht.addChild (hpath _ List.mem_cons_self) hf' _ (ih stored_treeInit hrest)

theorem stored_treeSetPath {t n : Tree State} (ht : t.Stored) (path : Bytes) (hn : n.Stored) :
    (treeSetPath t path n).Stored := by
  induction path using components.induct generalizing t with
  | case1 path hp =>
    rw [treeSetPath, dif_pos hp]
    exact hn
  | case2 path hp _ ih =>
    rw [treeSetPath, dif_neg hp]
    dsimp only
    cases hf : hashFind t.hsh (skipSlashes path) with
    | none => exact ht
    | some nxt => exact ht.setChild _ (ih (ht.child hf))

end Tree

/-! ## Changing every state of a tree -/

mutual

/-- The tree with `f` applied to its infos. -/
def Tree.map (f : α → β) : Tree α → Tree β
  | .mk info hsh => .mk (info.map f) (hashMap f hsh)

def hashMap (f : α → β) : Hash (Tree α) → Hash (Tree β)
  | ⟨size, children⟩ => ⟨size, fun k => listMap f (children k)⟩

def listMap (f : α → β) : List (Bytes × Tree α) → List (Bytes × Tree β)
  | [] => []
  | e :: next => childMap f e :: listMap f next

def childMap (f : α → β) : Bytes × Tree α → Bytes × Tree β
  | (path, node) => (path, node.map f)

end

theorem listMap_eq (f : α → β) (l : List (Bytes × Tree α)) : listMap f l = l.map (childMap f) := by
  induction l with
  | nil => rw [listMap, List.map_nil]
  | cons e next ih => rw [listMap, ih, List.map_cons]

@[simp] theorem fst_childMap (f : α → β) (e : Bytes × Tree α) : (childMap f e).1 = e.1 := by
  obtain ⟨path, node⟩ := e
  rw [childMap]

@[simp] theorem snd_childMap (f : α → β) (e : Bytes × Tree α) : (childMap f e).2 = e.2.map f := by
  obtain ⟨path, node⟩ := e
  rw [childMap]

theorem hashMap_hashOf (f : α → β) (l : List (Bytes × Tree α)) :
    hashMap f (hashOf l) = hashOf (l.map (childMap f)) := by
  rw [hashOf, hashMap, hashOf, List.length_map]
  congr 1
  funext k
  rw [listMap_eq, List.filter_map]
  congr 2
  funext e
  simp

theorem Hash.Holds.map {h : Hash (Tree α)} {l : List (Bytes × Tree α)} (hl : h.Holds l)
    (f : α → β) : (hashMap f h).Holds (l.map (childMap f)) := by
  refine ⟨by rw [hl.eq, hashMap_hashOf], ?_, ?_⟩
  · have hfst : (Prod.fst ∘ childMap f : Bytes × Tree α → Bytes) = Prod.fst := by
      funext e
      simp
    rw [List.map_map, hfst]
    exact hl.names
  · intro e he
    obtain ⟨e', he', rfl⟩ := List.mem_map.1 he
    rw [fst_childMap]
    exact hl.nameOk e' he'

namespace Tree

@[simp] theorem info_map (f : α → β) (t : Tree α) : (t.map f).info = t.info.map f := by
  cases t
  rw [map]
  rfl

theorem Stored.map {t : Tree α} (ht : t.Stored) (f : α → β) : (t.map f).Stored := by
  induction ht with
  | mk hl _ ih =>
    rw [Tree.map]
    refine .mk (hl.map f) ?_
    intro e he
    obtain ⟨e', he', rfl⟩ := List.mem_map.1 he
    rw [snd_childMap]
    exact ih e' he'

theorem listFind_map (f : α → β) (l : List (Bytes × Tree α)) (path : Bytes) :
    listFind (listMap f l) path = (listFind l path).map (map f) := by
  induction l with
  | nil =>
    rw [listMap]
    rfl
  | cons e next ih =>
    obtain ⟨name, node⟩ := e
    rw [listMap, childMap, listFind, listFind, ih]
    split_ifs <;> rfl

theorem hashFind_map (f : α → β) (t : Tree α) (path : Bytes) :
    hashFind (t.map f).hsh path = (hashFind t.hsh path).map (map f) := by
  obtain ⟨i, size, children⟩ := t
  rw [map, hashMap]
  exact listFind_map f _ path

theorem val_map (f : α → β) (t : Tree α) (cs : List Bytes) :
    (t.map f).val cs = (t.val cs).map f := by
  induction cs generalizing t with
  | nil => simp
  | cons c cs ih =>
    rw [val_cons, val_cons, hashFind_map]
    cases hashFind t.hsh c with
    | none => rfl
    | some n => exact ih n

end Tree

/-! ## The fields of the file -/

/-- What a file says of a state: ten characters of its size, and whether it is done. -/
def State.reload (st : State) : State :=
  ⟨atoi (snprintf 11 (printWidth 10 st.size)), if st.done ≠ 0 then 1 else 0⟩

theorem le_length_printWidth (n : Int) : 10 ≤ (printWidth 10 n).length := by
  rw [printWidth]
  split_ifs
  · rw [List.length_cons, length_digits]
    omega
  · rw [length_digits]
    omega

theorem length_sizeField (n : Int) : (snprintf 11 (printWidth 10 n)).length = 10 := by
  have hlen := le_length_printWidth n
  rw [snprintf, List.length_take]
  omega

theorem zero_notMem_sizeField (n : Int) : 0 ∉ snprintf 11 (printWidth 10 n) := fun h =>
  zero_notMem_printWidth 10 n (List.mem_of_mem_take h)

theorem stateRead_stateWrite (info : Option State) (rest : Bytes) :
    stateRead (stateWrite info ++ rest) = some (info.map State.reload, rest) := by
  cases info with
  | none => rfl
  | some st =>
    have hlen := length_sizeField st.size
    have hcstr := cstr_eq_self (zero_notMem_sizeField st.size)
    have hflag : stateWrite (some st) ++ rest = 49 :: (if st.done ≠ 0 then 49 else 48) ::
        (snprintf 11 (printWidth 10 st.size) ++ rest) := by
      rw [stateWrite]
      split_ifs <;> rfl
    rw [hflag, stateRead, if_neg (by decide), if_neg (by rw [List.length_append]; omega),
      List.take_left' hlen, List.drop_left' hlen, hcstr, Option.map_some, State.reload]
    split_ifs <;> rfl

theorem length_lengthField {n : Nat} (h : FitsInt n) : (printWidth 10 (n : Int)).length = 10 := by
  obtain ⟨-, hlt⟩ := h
  rw [printWidth, if_neg (by omega), Int.natAbs_natCast]
  exact length_digits_of_lt (by norm_num; omega)

theorem NameOk.fitsInt {name : Bytes} (hn : NameOk name) : FitsInt name.length := by
  have hshort := hn.short
  constructor <;> omega

theorem childSave_eq {name : Bytes} (hn : NameOk name) (node : Tree State) :
    childSave (name, node) =
      43 :: (printWidth 10 (name.length : Int) ++ (name ++ treeSave node)) := by
  have hlen := length_lengthField hn.fitsInt
  rw [childSave, wrap32_of_fitsInt hn.fitsInt, snprintf, List.take_of_length_le]
  · rw [List.append_assoc, List.append_assoc]
    rfl
  · rw [List.length_append]
    omega

/-! ## Saving and loading -/

theorem listSave_eq (l : List (Bytes × Tree State)) : listSave l = l.flatMap childSave := by
  induction l with
  | nil => rw [listSave, List.flatMap_nil]
  | cons e next ih => rw [listSave, ih, List.flatMap_cons]

theorem hashSave_eq (h : Hash (Tree State)) :
    hashSave h = h.entries.flatMap childSave ++ str "-" := by
  obtain ⟨size, children⟩ := h
  rw [hashSave, Hash.entries, List.flatMap_assoc]
  simp only [listSave_eq]

/-- One child: its node is read with less fuel, and the rest is read into the hash with it. -/
theorem hashBuild_childSave {fuel : Nat} {info : Option State} {h : Hash (Tree State)}
    {name : Bytes} (hn : NameOk name) (hf : hashFind h name = none) {node node' : Tree State}
    {fd : Bytes} (hnode : treeBuild fuel treeInit (treeSave node ++ fd) = some (.ok (node', fd))) :
    hashBuild (fuel + 1) (.mk info h) (childSave (name, node) ++ fd) =
      hashBuild fuel (.mk info (hashSet (hashInsert h name treeInit).1 name node')) fd := by
  have hlen := length_lengthField hn.fitsInt
  have hsz : atoi (printWidth 10 (name.length : Int)) = name.length := atoi_printWidth hn.fitsInt 10
  have hshort := hn.short
  have hnew : (hashInsert h name treeInit).2 = treeInit := by rw [hashInsert_of_none hf]
  have hbytes : childSave (name, node) ++ fd =
      43 :: (printWidth 10 (name.length : Int) ++ (name ++ (treeSave node ++ fd))) := by
    rw [childSave_eq hn]
    simp
  rw [hbytes, hashBuild, if_pos rfl, if_neg (by rw [List.length_append]; omega)]
  dsimp only
  rw [List.take_left' hlen, List.drop_left' hlen, cstr_eq_self (zero_notMem_printWidth _ _), hsz,
    if_neg (by omega), if_neg (by omega), if_neg (by rw [List.length_append]; omega),
    Int.toNat_natCast, List.take_left' rfl, List.drop_left' rfl, cstr_eq_self hn.noNul, Tree.hsh_mk,
    hnew, hnode]
  rfl

/-- A node whose children load: loading its hash behind the children already read. -/
theorem hashBuild_hashSave {l : List (Bytes × Tree State)} (info : Option State)
    (hl : ∀ e ∈ l, ∃ n, ∀ fuel ≥ n, ∀ rest,
      treeBuild fuel treeInit (treeSave e.2 ++ rest) = some (.ok (e.2.map State.reload, rest)))
    (hs : ∀ e ∈ l, NameOk e.1) {h : Hash (Tree State)} {read : List (Bytes × Tree State)}
    (hread : h.Holds read) (hnames : ((read ++ l).map Prod.fst).Nodup) :
    ∃ n, ∀ fuel ≥ n, ∀ rest,
      hashBuild fuel (.mk info h) (l.flatMap childSave ++ (str "-" ++ rest)) =
        some (.ok (.mk info (hashOf (read ++ l.map (childMap State.reload))), rest)) := by
  -- On what is still in the file.
  induction l generalizing h read with
  | nil =>
    refine ⟨1, ?_⟩
    intro fuel hfuel rest
    obtain ⟨fuel, rfl⟩ := Nat.exists_eq_succ_of_ne_zero (by omega : fuel ≠ 0)
    rw [List.map_nil, List.append_nil, ← hread.eq]
    rfl
  | cons e l ih =>
    obtain ⟨name, node⟩ := e
    have hn : NameOk name := hs _ List.mem_cons_self
    have hf : hashFind h name = none := by
      rw [hread.find_eq_none, component_self hn.good.2]
      rw [List.map_append, List.nodup_append] at hnames
      exact fun hmem => hnames.2.2 name hmem name (by simp) rfl
    obtain ⟨n, hnode⟩ := hl _ List.mem_cons_self
    have hadd := hread.add hn hf treeInit (node.map State.reload)
    obtain ⟨m, hrest⟩ := ih (fun e he => hl e (List.mem_cons_of_mem _ he))
      (fun e he => hs e (List.mem_cons_of_mem _ he)) hadd (by
        rw [List.append_cons] at hnames
        rwa [List.map_append, List.map_append, List.map_cons, List.map_nil] at hnames ⊢)
    refine ⟨max n m + 1, ?_⟩
    intro fuel hfuel rest
    obtain ⟨fuel, rfl⟩ := Nat.exists_eq_succ_of_ne_zero (by omega : fuel ≠ 0)
    rw [List.flatMap_cons, List.append_assoc,
      hashBuild_childSave hn hf (hnode fuel (by omega) _), hrest fuel (by omega) rest,
      List.map_cons, childMap, List.append_assoc, List.singleton_append]

/-- **Loading what was saved.** Behind the saved bytes the file may go on. -/
theorem treeBuild_treeSave {t : Tree State} (ht : t.Stored) :
    ∃ n, ∀ fuel ≥ n, ∀ rest,
      treeBuild fuel treeInit (treeSave t ++ rest) = some (.ok (t.map State.reload, rest)) := by
  induction ht with
  | @mk info h l hl _ ih =>
    have hsaved := hl.entries
    obtain ⟨n, hn⟩ := hashBuild_hashSave (info.map State.reload)
      (fun e he => ih e (hl.entries_perm.mem_iff.1 he)) hsaved.nameOk Hash.holds_empty
      (by simpa using hsaved.names)
    refine ⟨n + 1, ?_⟩
    intro fuel hfuel rest
    obtain ⟨fuel, rfl⟩ := Nat.exists_eq_succ_of_ne_zero (by omega : fuel ≠ 0)
    have hmap : hashMap State.reload h = hashOf (h.entries.map (childMap State.reload)) := by
      rw [← hashMap_hashOf, ← hsaved.eq]
    have hempty : (treeInit : Tree State).hsh = Hash.empty := rfl
    rw [treeSave, List.append_assoc, treeBuild, stateRead_stateWrite]
    dsimp only
    rw [hempty, hashSave_eq, List.append_assoc, hn fuel (by omega) rest, List.nil_append, Tree.map,
      hmap]

theorem readProgress_overwrite_save {t : Tree State} (ht : t.Stored) (file : Bytes) :
    ∃ n, ∀ fuel ≥ n,
      forksReadProgress fuel (overwrite file (forksSave t)) = some (0, t.map State.reload) := by
  obtain ⟨n, hn⟩ := treeBuild_treeSave ht
  refine ⟨n, ?_⟩
  intro fuel hfuel
  have hfile : overwrite file (forksSave t) =
      48 :: (treeSave t ++ file.drop (forksSave t).length) := rfl
  rw [hfile, forksReadProgress, if_neg (by decide), if_neg (by decide), hn fuel hfuel]

end DiskAnalyzer
