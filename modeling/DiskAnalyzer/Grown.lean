import DiskAnalyzer.Keys
import DiskAnalyzer.ProgressProof
import Mathlib.Logic.Relation

/-!
# `tree.c`: every tree the operations build can be saved

`tree_init` makes a tree, and `tree_insert`, `hash_insert` and writes to the info of a node change
it, at the root or at a node a lookup has reached. None of them takes a name away. So when the
names of a tree that was built so (`Built`) can be put into a file, those of all the trees on the
way could, and the tree is one of those whose file gives it back (`built_stored`). With sizes the
format can say, all of it comes back (`treeBuild_treeSave_of_built`).
-/

namespace DiskAnalyzer

open Decimal Relation

variable {α β : Type}

namespace Tree

/-! ## What is in a tree -/

/-- Every name stored at or below this node meets `P`. -/
inductive Names (P : Bytes → Prop) : Tree α → Prop
  | mk {i : Option α} {h : Hash (Tree α)} : (∀ k e, e ∈ h.children k → P e.1) →
      (∀ k e, e ∈ h.children k → Names P e.2) → Names P (.mk i h)

/-- Every info at or below this node meets `P`. -/
inductive Infos (P : α → Prop) : Tree α → Prop
  | mk {i : Option α} {h : Hash (Tree α)} : (∀ a ∈ i, P a) →
      (∀ k e, e ∈ h.children k → Infos P e.2) → Infos P (.mk i h)

variable {P : Bytes → Prop}

theorem names_iff {t : Tree α} :
    t.Names P ↔ ∀ k e, e ∈ t.hsh.children k → P e.1 ∧ e.2.Names P := by
  constructor
  · intro ht k e he
    cases ht with
    | mk hname hsub => exact ⟨hname k e he, hsub k e he⟩
  · intro h
    obtain ⟨i, hsh⟩ := t
    exact .mk (fun k e he => (h k e he).1) fun k e he => (h k e he).2

/-- The info of a node is not a name. -/
theorem names_withInfo {t : Tree α} {i : Option α} : (mk i t.hsh).Names P ↔ t.Names P := by
  rw [names_iff, names_iff, hsh_mk]

theorem names_treeInit : (treeInit : Tree α).Names P :=
  .mk (fun _ _ he => absurd he List.not_mem_nil) fun _ _ he => absurd he List.not_mem_nil

/-- Where the infos agree, so do two maps over them. -/
theorem Infos.map_congr {Q : α → Prop} {f g : α → β} (hfg : ∀ a, Q a → f a = g a) {t : Tree α}
    (ht : t.Infos Q) : t.map f = t.map g := by
  induction ht with
  | @mk i h hi _ ih =>
    obtain ⟨size, children⟩ := h
    rw [Tree.map, Tree.map, hashMap, hashMap]
    congr 1
    · cases i with
      | none => rfl
      | some a => rw [Option.map_some, Option.map_some, hfg a (hi a rfl)]
    · congr 1
      funext k
      rw [listMap_eq, listMap_eq]
      refine List.map_congr_left ?_
      intro e he
      obtain ⟨path, node⟩ := e
      rw [childMap, childMap, ih k _ he]

end Tree

/-! ## What the operations keep of a chain -/

/-- Writing through a lookup's pointer keeps every name, and every child but the one found. -/
theorem mem_listSet_of_mem {chain : List (Bytes × β)} {e : Bytes × β} (he : e ∈ chain)
    (path : Bytes) (node : β) :
    e ∈ listSet chain path node ∨
      listFind chain path = some e.2 ∧ (e.1, node) ∈ listSet chain path node := by
  induction chain with
  | nil => exact absurd he List.not_mem_nil
  | cons e' next ih =>
    obtain ⟨name, node'⟩ := e'
    rw [listSet, listFind]
    split_ifs with hm
    · rcases List.mem_cons.1 he with rfl | he
      · exact Or.inr ⟨rfl, List.mem_cons_self⟩
      · exact Or.inl (List.mem_cons_of_mem _ he)
    · rcases List.mem_cons.1 he with rfl | he
      · exact Or.inl List.mem_cons_self
      · exact (ih he).imp (List.mem_cons_of_mem _) (And.imp_right (List.mem_cons_of_mem _))

theorem mem_hashSet_of_mem {hsh : Hash β} {k : Int} {e : Bytes × β} (he : e ∈ hsh.children k)
    (path : Bytes) (node : β) :
    e ∈ (hashSet hsh path node).children k ∨
      hashFind hsh path = some e.2 ∧ (e.1, node) ∈ (hashSet hsh path node).children k := by
  rw [children_hashSet]
  split_ifs with hk
  · rw [hashFind, ← hk]
    exact mem_listSet_of_mem he path node
  · exact Or.inl he

theorem mem_hashInsert_of_mem {hsh : Hash β} {k : Int} {e : Bytes × β} (he : e ∈ hsh.children k)
    (name : Bytes) (new : β) : e ∈ (hashInsert hsh name new).1.children k := by
  cases hf : hashFind hsh name with
  | some node => rwa [hashInsert_of_some hf]
  | none =>
    rw [children_hashInsert hf]
    split_ifs
    · rw [listPush_eq]
      exact List.mem_append_left _ he
    · exact he

/-- What an insertion has made, or found, is what a lookup of the name finds then. -/
theorem hashInsert_snd_of_find {hsh : Hash β} {name : Bytes} {new node : β}
    (h : hashFind (hashInsert hsh name new).1 name = some node) :
    (hashInsert hsh name new).2 = node := by
  cases hf : hashFind hsh name with
  | some node' =>
    rw [hashInsert_of_some hf] at h ⊢
    exact Option.some.inj (hf.symm.trans h)
  | none =>
    rw [hashFind, children_hashInsert hf, if_pos rfl] at h
    rw [congrArg Prod.snd (hashInsert_of_none hf new)]
    rw [hashFind] at hf
    generalize hsh.children (getKey name) = chain at h hf
    induction chain with
    | nil =>
      rw [listPush, listFind] at h
      split_ifs at h
      · exact Option.some.inj h
      · simp [listFind] at h
    | cons e next ih =>
      obtain ⟨name', node'⟩ := e
      rw [listFind] at hf
      split_ifs at hf with hm
      rw [listPush, listFind, if_neg hm] at h
      exact ih h hf

/-- A name that is found is the path's first component. -/
theorem nameOk_of_find {hsh : Hash β} (hok : ∀ k e, e ∈ hsh.children k → NameOk e.1)
    {path : Bytes} {node : β} (h : hashFind hsh path = some node) : NameOk (component path) := by
  have hchain := hok (getKey path)
  rw [hashFind] at h
  generalize hsh.children (getKey path) = chain at h hchain
  induction chain with
  | nil => simp [listFind] at h
  | cons e next ih =>
    obtain ⟨name, node'⟩ := e
    have hname : NameOk name := hchain _ List.mem_cons_self
    rw [listFind] at h
    split_ifs at h with hm
    · rwa [← (nameMatches_iff hname.good path).1 hm]
    · exact ih h fun e he => hchain e (List.mem_cons_of_mem _ he)

/-! ## Building a tree -/

namespace Tree

/-- One call on a tree or on a node of it. -/
inductive Grows : Tree α → Tree α → Prop
  | insert (t : Tree α) (path : Bytes) (info : Option α) (alloc : Alloc) :
      Grows t (treeInsert t path info alloc).2
  | hash (t : Tree α) (name : Bytes) :
      Grows t (.mk t.info (hashInsert t.hsh name treeInit).1)
  | info (t : Tree α) (i : Option α) : Grows t (.mk i t.hsh)
  | child {t n n' : Tree α} {path : Bytes} : hashFind t.hsh path = some n → Grows n n' →
      Grows t (t.setChild path n')

/-- The trees the operations make from a fresh one. -/
def Built (t : Tree α) : Prop := ReflTransGen Grows treeInit t

theorem Names.child {P : Bytes → Prop} {t n : Tree α} (ht : t.Names P) {path : Bytes}
    (h : hashFind t.hsh path = some n) : n.Names P := by
  obtain ⟨k, name, hmem⟩ := mem_of_hashFind h
  exact (names_iff.1 ht k _ hmem).2

/-- A name met before a child was replaced is met after it. -/
theorem Names.of_setChild {P : Bytes → Prop} {t n n' : Tree α} {path : Bytes}
    (hf : hashFind t.hsh path = some n) (hn : n'.Names P → n.Names P)
    (ht : (t.setChild path n').Names P) : t.Names P := by
  rw [names_iff] at ht ⊢
  intro k e he
  rcases mem_hashSet_of_mem he path n' with hmem | ⟨hfind, hmem⟩
  · exact ht k e hmem
  · obtain rfl : n = e.2 := Option.some.inj (hf.symm.trans hfind)
    exact ⟨(ht k _ hmem).1, hn (ht k _ hmem).2⟩

theorem Names.of_treeInsert {P : Bytes → Prop} {t : Tree α} {path : Bytes} {info : Option α}
    {alloc : Alloc} (ht : (treeInsert t path info alloc).2.Names P) : t.Names P := by
  induction path using components.induct generalizing t alloc with
  | case1 path hp =>
    rw [treeInsert_of_nil hp] at ht
    exact names_withInfo.1 ht
  | case2 path hp _ ih =>
    rw [treeInsert_of_ne hp] at ht
    cases hf : hashFind t.hsh (skipSlashes path) with
    | some n =>
      rw [hf] at ht
      exact ht.of_setChild hf ih
    | none =>
      rw [hf] at ht
      dsimp only at ht
      split_ifs at ht with halloc
      · exact ht
      · rw [names_iff] at ht ⊢
        intro k e he
        have hins := mem_hashInsert_of_mem he (component (skipSlashes path)) treeInit
        rcases mem_hashSet_of_mem hins (component (skipSlashes path)) _ with hmem | ⟨hfind, hmem⟩
        · exact ht k e hmem
        · rw [← hashInsert_snd_of_find hfind]
          exact ⟨(ht k _ hmem).1, ih (ht k _ hmem).2⟩

/-- **No operation takes a name away.** -/
theorem Grows.names {P : Bytes → Prop} {t t' : Tree α} (h : Grows t t') (ht : t'.Names P) :
    t.Names P := by
  induction h with
  | insert => exact ht.of_treeInsert
  | hash t name =>
    rw [names_iff] at ht ⊢
    exact fun k e he => ht k e (mem_hashInsert_of_mem he name treeInit)
  | info => exact names_withInfo.1 ht
  | child hf _ ih => exact ht.of_setChild hf ih

theorem Stored.insert {t : Tree α} (ht : t.Stored) {path : Bytes} {info : Option α}
    {alloc : Alloc} (hok : (treeInsert t path info alloc).2.Names NameOk) :
    (treeInsert t path info alloc).2.Stored := by
  induction path using components.induct generalizing t alloc with
  | case1 path hp =>
    rw [treeInsert_of_nil hp]
    exact ht.withInfo info
  | case2 path hp _ ih =>
    rw [treeInsert_of_ne hp] at hok ⊢
    cases hf : hashFind t.hsh (skipSlashes path) with
    | some n =>
      rw [hf] at hok
      exact ht.setChild _ (ih (ht.child hf) (hok.child (hashFind_set_self hf _)))
    | none =>
      have hf' : hashFind t.hsh (component (skipSlashes path)) = none := by
        rwa [hashFind_component ht.good.hsh]
      have hnew : (hashInsert t.hsh (component (skipSlashes path)) treeInit).2 = treeInit := by
        rw [hashInsert_of_none hf']
      rw [hf] at hok
      dsimp only at hok ⊢
      rw [hnew] at hok ⊢
      split_ifs at hok ⊢ with halloc
      · exact ht
      · have hset := hashFind_set_self
          (hashFind_insert_self (goodName_component hp) hf' treeInit)
          (treeInsert treeInit (afterComponent (skipSlashes path)) info
            (alloc.map Nat.pred)).2
        have hname := nameOk_of_find (fun k e he => (names_iff.1 hok k e he).1) hset
        rw [component_self (slash_notMem_component _)] at hname
        exact ht.addChild hname hf' _ (ih stored_treeInit (hok.child hset))

/-- **The operations keep a tree one that a file can hold**, while the names allow it. -/
theorem Grows.stored {t t' : Tree α} (h : Grows t t') (ht : t.Stored) (hok : t'.Names NameOk) :
    t'.Stored := by
  induction h with
  | insert => exact ht.insert hok
  | hash t name =>
    cases hf : hashFind t.hsh name with
    | some n =>
      rw [hashInsert_of_some hf]
      exact ht.withInfo t.info
    | none =>
      have hmem : (name, treeInit) ∈ (hashInsert t.hsh name treeInit).1.children (getKey name) := by
        rw [children_hashInsert hf, if_pos rfl, listPush_eq]
        exact List.mem_append_right _ List.mem_cons_self
      cases ht with
      | mk hl hsub =>
        refine .mk (hl.insert (names_iff.1 hok _ _ hmem).1 hf treeInit) ?_
        intro e he
        rcases List.mem_append.1 he with he | he
        · exact hsub e he
        · obtain rfl : e = (name, treeInit) := by simpa using he
          exact stored_treeInit
  | info t i => exact ht.withInfo i
  | child hf _ ih => exact ht.setChild _ (ih (ht.child hf) (hok.child (hashFind_set_self hf _)))

/-- **A tree that was built with names a file can hold** is one that a file gives back. -/
theorem built_stored {t : Tree α} (ht : t.Built) (hok : t.Names NameOk) : t.Stored := by
  -- On the calls, the last first: the names of a tree are those of the finished one.
  induction ht with
  | refl => exact stored_treeInit
  | tail _ hlast ih => exact hlast.stored (ih (hlast.names hok)) hok

end Tree

/-! ## Round trips -/

/-- A state as a file keeps it whose size is not negative. -/
def State.flagged (st : State) : State := ⟨st.size, if st.done ≠ 0 then 1 else 0⟩

/-- A size the ten characters of a file can say. -/
def State.InRange (st : State) : Prop := 0 ≤ st.size ∧ st.size < 2 ^ 31

theorem State.reload_eq_flagged {st : State} (h : st.InRange) : st.reload = st.flagged := by
  obtain ⟨hlow, hhigh⟩ := h
  have hwidth : (printWidth 10 st.size).length = 10 := by
    have hlen := length_lengthField (n := st.size.toNat) ⟨by omega, by omega⟩
    rwa [Int.toNat_of_nonneg hlow] at hlen
  have hfield : snprintf 11 (printWidth 10 st.size) = printWidth 10 st.size := by
    rw [snprintf, List.take_of_length_le]
    omega
  rw [State.reload, State.flagged, hfield, atoi_printWidth ⟨by omega, hhigh⟩]

/-- **The progress format round-trips.** Behind the saved bytes the file may go on: they are left
for the next read. -/
theorem treeBuild_treeSave_of_built {t : Tree State} (ht : t.Built) (hok : t.Names NameOk)
    (hsize : t.Infos State.InRange) :
    ∃ n, ∀ fuel ≥ n, ∀ rest,
      treeBuild fuel treeInit (treeSave t ++ rest) = some (.ok (t.map State.flagged, rest)) := by
  rw [← hsize.map_congr fun _ => State.reload_eq_flagged]
  exact treeBuild_treeSave (Tree.built_stored ht hok)

/-! ## Roots with one child -/

/-- A root with one child. -/
def Tree.ofName (info : Option State) (name : Bytes) : Tree State :=
  .mk info (hashInsert Hash.empty name treeInit).1

theorem mem_ofName (info : Option State) {name : Bytes} {k : Int} {e : Bytes × Tree State}
    (he : e ∈ (Tree.ofName info name).hsh.children k) : e = (name, treeInit) := by
  rw [Tree.ofName, Tree.hsh_mk, children_hashInsert (hashFind_empty name)] at he
  split_ifs at he
  · exact List.mem_singleton.1 he
  · exact absurd he List.not_mem_nil

theorem built_ofName (info : Option State) (name : Bytes) : (Tree.ofName info name).Built :=
  .tail (.single (.hash treeInit name)) (.info _ info)

theorem names_ofName {P : Bytes → Prop} {name : Bytes} (hname : P name) (info : Option State) :
    (Tree.ofName info name).Names P := by
  rw [Tree.names_iff]
  intro k e he
  obtain rfl := mem_ofName info he
  exact ⟨hname, Tree.names_treeInit⟩

theorem infos_ofName {info : Option State} (hinfo : ∀ st ∈ info, st.InRange) (name : Bytes) :
    (Tree.ofName info name).Infos State.InRange := by
  refine .mk hinfo ?_
  intro k e he
  obtain rfl := mem_ofName info he
  exact .mk (fun _ h => absurd h (by simp)) fun _ _ h => absurd h List.not_mem_nil

theorem treeBuild_treeSave_ofName :
    ∃ n, ∀ fuel ≥ n, ∀ rest,
      treeBuild fuel treeInit (treeSave (Tree.ofName (some ⟨7, 3⟩) (str "a")) ++ rest) =
        some (.ok ((Tree.ofName (some ⟨7, 3⟩) (str "a")).map State.flagged, rest)) :=
  treeBuild_treeSave_of_built (built_ofName _ _) (names_ofName (by decide) _)
    (infos_ofName (fun st h => Option.some.inj h ▸ ⟨by decide, by decide⟩) _)

/-! ## A name too long for the format

`hash_build` adds one to the length of a name to allocate it, which `INT_MAX` does not allow, and
`list_save` casts the length to an `int`, so from `INT_MAX + 1` on it saves another. -/

theorem treeSave_ofName {name : Bytes} (hkey : 0 ≤ getKey name ∧ getKey name < HASH_MOD)
    (info : Option State) :
    treeSave (Tree.ofName info name) =
      stateWrite info ++ (childSave (name, treeInit) ++ str "-") := by
  have hinsert : (hashInsert Hash.empty name (treeInit : Tree State)).1 =
      hashOf [(name, treeInit)] := by
    rw [hashInsert_of_none (hashFind_empty name)]
    exact hashOf_single name treeInit _ (by decide)
  have hentries :
      (hashInsert Hash.empty name (treeInit : Tree State)).1.entries = [(name, treeInit)] := by
    rw [Hash.entries, hinsert]
    refine List.perm_singleton.1 ((buckets_perm _ _).trans (List.Perm.of_eq ?_))
    rw [List.filter_eq_self]
    intro e he
    obtain rfl := List.mem_singleton.1 he
    rw [decide_eq_true_eq]
    exact hkey
  rw [Tree.ofName, treeSave, hashSave_eq, hentries, List.flatMap_singleton]

/-- The length field of a child with a name of this length. -/
theorem childSave_of_field {name : Bytes} {n : Nat} (hlen : name.length = n) {field more : Bytes}
    (hprint : printWidth 10 (wrap32 n) = field ++ more) (hfield : field.length = 10)
    (node : Tree State) : ∃ fd, childSave (name, node) = 43 :: (field ++ fd) := by
  refine ⟨(more ++ name).take n ++ treeSave node, ?_⟩
  rw [childSave, hlen, hprint, snprintf, List.append_assoc field, List.take_append, hfield,
    List.take_of_length_le (by omega), List.append_assoc, List.append_assoc,
    show 11 + n - 1 - 10 = n by omega]
  rfl

/-- A child is not read whose length field holds nothing a buffer can have. -/
theorem treeBuild_of_field {name : Bytes} (hkey : 0 ≤ getKey name ∧ getKey name < HASH_MOD)
    {field : Bytes} (hfield : field.length = 10)
    (hsave : ∃ fd, childSave (name, (treeInit : Tree State)) = 43 :: (field ++ fd))
    (hsz : atoi (cstr field) < -1 ∨ 2 ^ 31 ≤ atoi (cstr field) + 1) (info : Option State)
    (fuel : Nat) (rest : Bytes) (r : Tree State × Bytes) :
    treeBuild fuel treeInit (treeSave (Tree.ofName info name) ++ rest) ≠ some (.ok r) := by
  obtain ⟨fd, hfd⟩ := hsave
  rw [treeSave_ofName hkey, List.append_assoc]
  cases fuel with
  | zero => simp [treeBuild]
  | succ fuel =>
    rw [treeBuild, stateRead_stateWrite, hfd]
    cases fuel with
    | zero => simp [hashBuild]
    | succ fuel =>
      dsimp only
      rw [List.append_assoc, List.cons_append, List.append_assoc, hashBuild, if_pos rfl,
        if_neg (by rw [List.length_append]; omega), List.take_left' hfield]
      dsimp only
      rcases hsz with hneg | hmax
      · rw [if_neg (by omega), if_pos hneg]
        simp
      · rw [if_pos (Or.inr hmax)]
        simp

/-- A name of so many letters can be put into a tree, and the tree is not read back. -/
def LostLength (n : Nat) : Prop :=
  let t := Tree.ofName none (List.replicate n 97)
  t.Built ∧
    t.Names (fun n => GoodName n ∧ 0 ≤ getKey n ∧ getKey n < HASH_MOD ∧ 0 ∉ n) ∧
    t.Infos State.InRange ∧
    ∀ fuel rest r, treeBuild fuel treeInit (treeSave t ++ rest) ≠ some (.ok r)

theorem lostLength {n : Nat} (hn : 0 < n) {field more : Bytes}
    (hprint : printWidth 10 (wrap32 n) = field ++ more) (hfield : field.length = 10)
    (hsz : atoi (cstr field) < -1 ∨ 2 ^ 31 ≤ atoi (cstr field) + 1) : LostLength n := by
  have hmem : ∀ {b : UInt8}, b ∈ List.replicate n (97 : UInt8) → b = 97 :=
    List.eq_of_mem_replicate
  have hkey : 0 ≤ getKey (List.replicate n 97) ∧ getKey (List.replicate n 97) < HASH_MOD := by
    refine getKey_range fun b hb => ?_
    rw [hmem hb]
    decide
  have hgood : GoodName (List.replicate n 97) := by
    constructor
    · rw [Ne, List.replicate_eq_nil_iff]
      exact hn.ne'
    · exact fun h => absurd (hmem h) (by decide)
  have hnul : 0 ∉ List.replicate n (97 : UInt8) := fun h => absurd (hmem h) (by decide)
  refine ⟨built_ofName _ _, names_ofName ⟨hgood, hkey.1, hkey.2, hnul⟩ _,
    infos_ofName (fun _ h => absurd h (by simp)) _, fun fuel rest r => ?_⟩
  exact treeBuild_of_field hkey hfield (childSave_of_field List.length_replicate hprint hfield _)
    hsz none fuel rest r

/-- Neither `INT_MAX` letters nor one more come back. -/
theorem not_treeBuild_treeSave_of_long : LostLength 2147483647 ∧ LostLength 2147483648 := by
  have hmax : printWidth 10 (wrap32 ((2147483647 : Nat) : Int)) = str "2147483647" ++ [] := by
    decide +kernel
  have hmin : printWidth 10 (wrap32 ((2147483648 : Nat) : Int)) = str "-214748364" ++ str "8" := by
    decide +kernel
  exact ⟨lostLength (by decide) hmax (by decide) (by decide +kernel),
    lostLength (by decide) hmin (by decide) (by decide +kernel)⟩

end DiskAnalyzer
