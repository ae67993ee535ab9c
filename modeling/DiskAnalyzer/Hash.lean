import DiskAnalyzer.Bytes
import Mathlib.Logic.Function.Basic

/-!
# `hash.c`: buckets of named children

A `struct hash` counts its children and keeps them in collision lists, one list a key. The
functions here do not look inside the children, so their type is a variable; `tree.c` puts
tries there.

`children` is a function on all of `Int`: the source indexes an array of `HASH_MOD` lists with
the value of `get_key`, and whether that value is in range is a separate question. A pointer to a
child, written through, is `hashSet`: the same list with that child replaced.
-/

namespace DiskAnalyzer

def HASH_MULT : Int := 437
def HASH_ADD : Int := 47
def HASH_MOD : Int := 1000

/-- The loop of `get_key`. C's `%` truncates towards zero. -/
def getKeyLoop (key : Int) : Bytes → Int
  | [] => key
  | c :: path =>
    if c = slash then key
    else getKeyLoop (((key + schar c) * HASH_MULT + HASH_ADD).tmod HASH_MOD) path

def getKey (path : Bytes) : Int := getKeyLoop 0 path

/-- `struct hash`, with `struct list` chains of a name and a child. -/
structure Hash (β : Type) where
  size : Int
  children : Int → List (Bytes × β)

namespace Hash

def empty {β : Type} : Hash β := ⟨0, fun _ => []⟩

end Hash

variable {β : Type}

/-! ## Chains -/

/-- `list_push`: the new child goes to the end of the chain. -/
def listPush : List (Bytes × β) → Bytes → β → List (Bytes × β)
  | [], path, new => [(path, new)]
  | e :: next, path, new => e :: listPush next path new

/-- The comparison of `list_find` and `list_remove`, up to the longer of the two lengths. -/
def nameMatches (name path : Bytes) : Bool :=
  strncmpEq name path (max name.length (component path).length)

/-- `list_find`. -/
def listFind : List (Bytes × β) → Bytes → Option β
  | [], _ => none
  | (name, node) :: next, path => if nameMatches name path then some node else listFind next path

/-- `list_remove`: `none` is the return value 1. -/
def listRemove : List (Bytes × β) → Bytes → Option (List (Bytes × β))
  | [], _ => none
  | (name, node) :: next, path =>
    if nameMatches name path then some next
    else (listRemove next path).map fun next' => (name, node) :: next'

/-- Writing through the pointer `list_find` returned. -/
def listSet : List (Bytes × β) → Bytes → β → List (Bytes × β)
  | [], _, _ => []
  | (name, node) :: next, path, node' =>
    if nameMatches name path then (name, node') :: next
    else (name, node) :: listSet next path node'

/-! ## Buckets -/

/-- `hash_find`. -/
def hashFind (hsh : Hash β) (path : Bytes) : Option β :=
  listFind (hsh.children (getKey path)) path

/-- `hash_insert`, allocation succeeding: the hash and the child now under that name, which is
`new` (the node `list_new_node` makes) unless the name was there. -/
def hashInsert (hsh : Hash β) (path : Bytes) (new : β) : Hash β × β :=
  match listFind (hsh.children (getKey path)) path with
  | some node => (hsh, node)
  | none =>
    (⟨hsh.size + 1,
      Function.update hsh.children (getKey path)
        (listPush (hsh.children (getKey path)) path new)⟩, new)

/-- `hash_remove`: the return value and the hash. -/
def hashRemove (hsh : Hash β) (path : Bytes) : Int × Hash β :=
  match listRemove (hsh.children (getKey path)) path with
  | none => (1, hsh)
  | some chain => (0, ⟨hsh.size - 1, Function.update hsh.children (getKey path) chain⟩)

/-- Writing through the pointer `hash_find` returned. -/
def hashSet (hsh : Hash β) (path : Bytes) (node : β) : Hash β :=
  ⟨hsh.size,
    Function.update hsh.children (getKey path)
      (listSet (hsh.children (getKey path)) path node)⟩

/-! ## Keys and names -/

theorem getKeyLoop_component (key : Int) (path : Bytes) :
    getKeyLoop key (component path) = getKeyLoop key path := by
  induction path generalizing key with
  | nil => rfl
  | cons c path ih =>
    by_cases hc : c = slash
    · simp [component, getKeyLoop, hc]
    · have hcomp : component (c :: path) = c :: component path := by simp [component, hc]
      rw [hcomp, getKeyLoop, getKeyLoop, if_neg hc, if_neg hc, ih]

/-- The key of a path is the key of its first component. -/
theorem getKey_component (path : Bytes) : getKey (component path) = getKey path :=
  getKeyLoop_component 0 path

/-- **A stored name matches exactly the paths that start with it.** -/
theorem nameMatches_iff {name : Bytes} (hn : GoodName name) (path : Bytes) :
    nameMatches name path = true ↔ name = component path := strncmpEq_component hn path

/-- All names stored in a chain can be components. -/
def GoodChain (chain : List (Bytes × β)) : Prop := ∀ e ∈ chain, GoodName e.1

theorem GoodChain.tail {e : Bytes × β} {chain : List (Bytes × β)} (h : GoodChain (e :: chain)) :
    GoodChain chain := fun e' he' => h e' (List.mem_cons_of_mem _ he')

theorem listPush_eq (chain : List (Bytes × β)) (path : Bytes) (new : β) :
    listPush chain path new = chain ++ [(path, new)] := by
  induction chain with
  | nil => rfl
  | cons e next ih => rw [listPush, ih, List.cons_append]

/-- A chain is searched by component. -/
theorem listFind_congr {chain : List (Bytes × β)} (hg : GoodChain chain) {p q : Bytes}
    (h : component p = component q) : listFind chain p = listFind chain q := by
  induction chain with
  | nil => rfl
  | cons e next ih =>
    obtain ⟨name, node⟩ := e
    have hname : GoodName name := hg _ List.mem_cons_self
    have hb : nameMatches name p = nameMatches name q := by
      rw [Bool.eq_iff_iff, nameMatches_iff hname, nameMatches_iff hname, h]
    rw [listFind, listFind, hb, ih hg.tail]

theorem listFind_push_self {chain : List (Bytes × β)} {name : Bytes} (hn : GoodName name)
    (h : listFind chain name = none) (new : β) :
    listFind (listPush chain name new) name = some new := by
  induction chain with
  | nil =>
    have hm : nameMatches name name = true :=
      (nameMatches_iff hn name).2 (component_self hn.2).symm
    rw [listPush, listFind, if_pos hm]
  | cons e next ih =>
    obtain ⟨name', node⟩ := e
    rw [listFind] at h
    split_ifs at h with hm
    rw [listPush, listFind, if_neg hm, ih h]

theorem listFind_push_ne {chain : List (Bytes × β)} {name path : Bytes} (hn : GoodName name)
    (hne : name ≠ component path) (new : β) :
    listFind (listPush chain name new) path = listFind chain path := by
  induction chain with
  | nil =>
    have hm : ¬ nameMatches name path = true := fun hm => hne ((nameMatches_iff hn path).1 hm)
    simp only [listPush, listFind, if_neg hm]
  | cons e next ih =>
    obtain ⟨name', node⟩ := e
    simp only [listPush, listFind, ih]

theorem listFind_set_self {chain : List (Bytes × β)} {path : Bytes} {old : β}
    (h : listFind chain path = some old) (node : β) :
    listFind (listSet chain path node) path = some node := by
  induction chain with
  | nil => simp [listFind] at h
  | cons e next ih =>
    obtain ⟨name, node'⟩ := e
    rw [listFind] at h
    rw [listSet]
    split_ifs at h ⊢ with hm
    · rw [listFind, if_pos hm]
    · rw [listFind, if_neg hm, ih h]

theorem listFind_set_ne {chain : List (Bytes × β)} (hg : GoodChain chain) {p q : Bytes}
    (hne : component p ≠ component q) (node : β) :
    listFind (listSet chain p node) q = listFind chain q := by
  induction chain with
  | nil => rfl
  | cons e next ih =>
    obtain ⟨name, node'⟩ := e
    have hname : GoodName name := hg _ List.mem_cons_self
    rw [listSet]
    split_ifs with hm
    · have hq : ¬ nameMatches name q = true := fun hq =>
        hne (((nameMatches_iff hname p).1 hm).symm.trans ((nameMatches_iff hname q).1 hq))
      rw [listFind, listFind, if_neg hq, if_neg hq]
    · rw [listFind, listFind, ih hg.tail]

/-- What a search finds is in the chain. -/
theorem mem_of_listFind {chain : List (Bytes × β)} {path : Bytes} {node : β}
    (h : listFind chain path = some node) : ∃ name, (name, node) ∈ chain := by
  induction chain with
  | nil => simp [listFind] at h
  | cons e next ih =>
    obtain ⟨name, node'⟩ := e
    rw [listFind] at h
    split_ifs at h with hm
    · obtain rfl : node' = node := by simpa using h
      exact ⟨name, List.mem_cons_self⟩
    · obtain ⟨name', hmem⟩ := ih h
      exact ⟨name', List.mem_cons_of_mem _ hmem⟩

theorem mem_listSet {chain : List (Bytes × β)} {path : Bytes} {node : β} {e : Bytes × β}
    (h : e ∈ listSet chain path node) : e ∈ chain ∨ (e.2 = node ∧ ∃ old, (e.1, old) ∈ chain) := by
  induction chain with
  | nil => simp [listSet] at h
  | cons e' next ih =>
    obtain ⟨name, node'⟩ := e'
    rw [listSet] at h
    split_ifs at h with hm
    · rcases List.mem_cons.1 h with rfl | h
      · exact Or.inr ⟨rfl, node', List.mem_cons_self⟩
      · exact Or.inl (List.mem_cons_of_mem _ h)
    · rcases List.mem_cons.1 h with rfl | h
      · exact Or.inl List.mem_cons_self
      · rcases ih h with h | ⟨he, old, hold⟩
        · exact Or.inl (List.mem_cons_of_mem _ h)
        · exact Or.inr ⟨he, old, List.mem_cons_of_mem _ hold⟩

/-- A path that starts with a slash, or is empty, matches no stored name. -/
theorem listRemove_eq_none {chain : List (Bytes × β)} (hg : GoodChain chain) {path : Bytes}
    (h : component path = []) : listRemove chain path = none := by
  induction chain with
  | nil => rfl
  | cons e next ih =>
    obtain ⟨name, node⟩ := e
    have hname : GoodName name := hg _ List.mem_cons_self
    have hm : ¬ nameMatches name path = true := fun hm =>
      hname.1 (((nameMatches_iff hname path).1 hm).trans h)
    rw [listRemove, if_neg hm, ih hg.tail, Option.map_none]

/-! ## Buckets, by name -/

namespace Hash

/-- All stored names can be components. -/
def Good (hsh : Hash β) : Prop := ∀ k, GoodChain (hsh.children k)

theorem good_empty : (empty : Hash β).Good := fun _ _ he => absurd he List.not_mem_nil

end Hash

open Hash

@[simp] theorem hashFind_empty (path : Bytes) : hashFind (empty : Hash β) path = none := rfl

theorem hashFind_congr {hsh : Hash β} (hg : hsh.Good) {p q : Bytes}
    (h : component p = component q) : hashFind hsh p = hashFind hsh q := by
  have hk : getKey p = getKey q := by rw [← getKey_component p, h, getKey_component]
  rw [hashFind, hashFind, hk, listFind_congr (hg _) h]

/-- A path finds the child its first component names. -/
theorem hashFind_component {hsh : Hash β} (hg : hsh.Good) (path : Bytes) :
    hashFind hsh (component path) = hashFind hsh path :=
  hashFind_congr hg (component_self (slash_notMem_component path))

theorem mem_of_hashFind {hsh : Hash β} {path : Bytes} {node : β}
    (h : hashFind hsh path = some node) : ∃ k name, (name, node) ∈ hsh.children k :=
  ⟨_, mem_of_listFind h⟩

theorem hashInsert_of_none {hsh : Hash β} {path : Bytes} (h : hashFind hsh path = none)
    (new : β) :
    hashInsert hsh path new =
      (⟨hsh.size + 1,
        Function.update hsh.children (getKey path)
          (listPush (hsh.children (getKey path)) path new)⟩, new) := by
  rw [hashFind] at h
  rw [hashInsert, h]

theorem hashInsert_of_some {hsh : Hash β} {path : Bytes} {node : β}
    (h : hashFind hsh path = some node) (new : β) : hashInsert hsh path new = (hsh, node) := by
  rw [hashFind] at h
  rw [hashInsert, h]

theorem children_hashInsert {hsh : Hash β} {path : Bytes} (h : hashFind hsh path = none)
    (new : β) (k : Int) :
    (hashInsert hsh path new).1.children k =
      if k = getKey path then listPush (hsh.children k) path new else hsh.children k := by
  rw [hashInsert_of_none h]
  simp only [Function.update_apply]
  split_ifs with hk
  · rw [hk]
  · rfl

theorem children_hashSet (hsh : Hash β) (path : Bytes) (node : β) (k : Int) :
    (hashSet hsh path node).children k =
      if k = getKey path then listSet (hsh.children k) path node else hsh.children k := by
  simp only [hashSet, Function.update_apply]
  split_ifs with hk
  · rw [hk]
  · rfl

@[simp] theorem size_hashSet (hsh : Hash β) (path : Bytes) (node : β) :
    (hashSet hsh path node).size = hsh.size := rfl

theorem good_hashInsert {hsh : Hash β} (hg : hsh.Good) {name : Bytes} (hn : GoodName name)
    (new : β) : (hashInsert hsh name new).1.Good := by
  cases hf : hashFind hsh name with
  | some node => rwa [hashInsert_of_some hf]
  | none =>
    intro k e he
    rw [children_hashInsert hf] at he
    split_ifs at he
    · rw [listPush_eq, List.mem_append, List.mem_singleton] at he
      rcases he with he | rfl
      · exact hg k e he
      · exact hn
    · exact hg k e he

theorem good_hashSet {hsh : Hash β} (hg : hsh.Good) (path : Bytes) (node : β) :
    (hashSet hsh path node).Good := by
  intro k e he
  rw [children_hashSet] at he
  split_ifs at he
  · rcases mem_listSet he with he | ⟨-, old, hold⟩
    · exact hg k e he
    · exact hg k (e.1, old) hold
  · exact hg k e he

/-- Inserting a new name makes it findable. -/
theorem hashFind_insert_self {hsh : Hash β} {name : Bytes} (hn : GoodName name)
    (h : hashFind hsh name = none) (new : β) :
    hashFind (hashInsert hsh name new).1 name = some new := by
  rw [hashFind, children_hashInsert h, if_pos rfl]
  exact listFind_push_self hn h new

theorem hashFind_insert_ne {hsh : Hash β} {name path : Bytes} (hn : GoodName name)
    (hne : name ≠ component path) (h : hashFind hsh name = none) (new : β) :
    hashFind (hashInsert hsh name new).1 path = hashFind hsh path := by
  rw [hashFind, hashFind, children_hashInsert h]
  split_ifs
  · rw [listFind_push_ne hn hne]
  · rfl

theorem hashFind_set_self {hsh : Hash β} {path : Bytes} {old : β}
    (h : hashFind hsh path = some old) (node : β) :
    hashFind (hashSet hsh path node) path = some node := by
  rw [hashFind, children_hashSet, if_pos rfl]
  exact listFind_set_self h node

theorem hashFind_set_ne {hsh : Hash β} (hg : hsh.Good) {p q : Bytes}
    (hne : component p ≠ component q) (node : β) :
    hashFind (hashSet hsh p node) q = hashFind hsh q := by
  rw [hashFind, hashFind, children_hashSet]
  split_ifs
  · rw [listFind_set_ne (hg _) hne]
  · rfl

/-- `hash_remove` of a path without a first component removes nothing. -/
theorem hashRemove_eq_self {hsh : Hash β} (hg : hsh.Good) {path : Bytes}
    (h : component path = []) : hashRemove hsh path = (1, hsh) := by
  rw [hashRemove, listRemove_eq_none (hg _) h]

end DiskAnalyzer
