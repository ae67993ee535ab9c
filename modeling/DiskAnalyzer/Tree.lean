import DiskAnalyzer.Hash

/-!
# `tree.c`: tries of paths

A `struct tree` is one directory: an info pointer and the hash of its subdirectories. The
manager's trie holds ids in the info, a worker's holds sizes, so the info is a type variable.

The loops of the source keep a cursor in the path string and hand what is left of it to
`hash_find`, so the comparison always sees a component that goes on. The functions here do the
same: they recurse on what is left of the path.
-/

namespace DiskAnalyzer

/-- `struct tree`; `none` is a `NULL` info. -/
inductive Tree (α : Type) where
  | mk (info : Option α) (hsh : Hash (Tree α)) : Tree α

variable {α : Type}

namespace Tree

def info : Tree α → Option α
  | mk i _ => i

def hsh : Tree α → Hash (Tree α)
  | mk _ h => h

@[simp] theorem info_mk (i : Option α) (h : Hash (Tree α)) : (mk i h).info = i := rfl
@[simp] theorem hsh_mk (i : Option α) (h : Hash (Tree α)) : (mk i h).hsh = h := rfl

/-- Write the subdirectory a lookup of `path` returned. -/
def setChild (tre : Tree α) (path : Bytes) (chld : Tree α) : Tree α :=
  mk tre.info (hashSet tre.hsh path chld)

@[simp] theorem info_setChild (tre : Tree α) (path : Bytes) (chld : Tree α) :
    (tre.setChild path chld).info = tre.info := rfl
@[simp] theorem hsh_setChild (tre : Tree α) (path : Bytes) (chld : Tree α) :
    (tre.setChild path chld).hsh = hashSet tre.hsh path chld := rfl

end Tree

/-- `tree_init`, and the node of `list_new_node`. -/
def treeInit : Tree α := .mk none Hash.empty

/-- Which allocation of a new component fails: `some k` lets `k` components be created and fails
on the next one, `none` never fails. -/
abbrev Alloc := Option Nat

/-- `tree_insert`: the return value, and the trie. On a failed allocation the components created
so far stay. -/
def treeInsert (tre : Tree α) (path : Bytes) (info : Option α) (alloc : Alloc) :
    Int × Tree α :=
  if h : skipSlashes path = [] then (0, .mk info tre.hsh)
  else
    have := length_afterComponent_lt h
    let parse := skipSlashes path
    match hashFind tre.hsh parse with
    | some nxt =>
      let (ret, nxt') := treeInsert nxt (afterComponent parse) info alloc
      (ret, tre.setChild parse nxt')
    | none =>
      if alloc = some 0 then (1, tre)
      else
        let (hsh, nxt) := hashInsert tre.hsh (component parse) treeInit
        let (ret, nxt') := treeInsert nxt (afterComponent parse) info (alloc.map Nat.pred)
        (ret, .mk tre.info (hashSet hsh (component parse) nxt'))
termination_by path.length

theorem treeInsert_of_nil {path : Bytes} (h : skipSlashes path = []) (tre : Tree α)
    (info : Option α) (alloc : Alloc) :
    treeInsert tre path info alloc = (0, .mk info tre.hsh) := by
  rw [treeInsert, dif_pos h]

theorem treeInsert_of_ne {path : Bytes} (h : skipSlashes path ≠ []) (tre : Tree α)
    (info : Option α) (alloc : Alloc) :
    treeInsert tre path info alloc =
      match hashFind tre.hsh (skipSlashes path) with
      | some nxt =>
        ((treeInsert nxt (afterComponent (skipSlashes path)) info alloc).1,
          tre.setChild (skipSlashes path)
            (treeInsert nxt (afterComponent (skipSlashes path)) info alloc).2)
      | none =>
        if alloc = some 0 then (1, tre)
        else
          let new := hashInsert tre.hsh (component (skipSlashes path)) treeInit
          let below := treeInsert new.2 (afterComponent (skipSlashes path)) info
            (alloc.map Nat.pred)
          (below.1, .mk tre.info (hashSet new.1 (component (skipSlashes path)) below.2)) := by
  rw [treeInsert, dif_neg h]

/-- `tree_get_path`: the node of the path, if there is one. -/
def treeGetPath (tre : Tree α) (path : Bytes) : Option (Tree α) :=
  if h : skipSlashes path = [] then some tre
  else
    have := length_afterComponent_lt h
    let parse := skipSlashes path
    match hashFind tre.hsh parse with
    | some nxt => treeGetPath nxt (afterComponent parse)
    | none => none
termination_by path.length

theorem treeGetPath_of_ne {path : Bytes} (h : skipSlashes path ≠ []) (tre : Tree α) :
    treeGetPath tre path =
      match hashFind tre.hsh (skipSlashes path) with
      | some nxt => treeGetPath nxt (afterComponent (skipSlashes path))
      | none => none := by
  rw [treeGetPath, dif_neg h]

/-- The loop of `tree_find_prefix`, entered at a node without info. -/
def treeFindPrefixLoop (tre : Tree α) (path : Bytes) : Option α :=
  if h : skipSlashes path = [] then none
  else
    have := length_afterComponent_lt h
    let parse := skipSlashes path
    match hashFind tre.hsh parse with
    | some nxt =>
      match nxt.info with
      | some i => some i
      | none => treeFindPrefixLoop nxt (afterComponent parse)
    | none => none
termination_by path.length

theorem treeFindPrefixLoop_of_nil {path : Bytes} (h : skipSlashes path = []) (tre : Tree α) :
    treeFindPrefixLoop tre path = none := by
  rw [treeFindPrefixLoop, dif_pos h]

theorem treeFindPrefixLoop_of_ne {path : Bytes} (h : skipSlashes path ≠ []) (tre : Tree α) :
    treeFindPrefixLoop tre path =
      match hashFind tre.hsh (skipSlashes path) with
      | some nxt =>
        match nxt.info with
        | some i => some i
        | none => treeFindPrefixLoop nxt (afterComponent (skipSlashes path))
      | none => none := by
  rw [treeFindPrefixLoop, dif_neg h]

/-- `tree_find_prefix`: what `*info` holds when it returns 1, `none` when it returns 0. -/
def treeFindPrefix (tre : Tree α) (path : Bytes) : Option α :=
  match tre.info with
  | some i => some i
  | none => treeFindPrefixLoop tre path

/-- `tree_remove`: the return value, and the trie. A call that returns 1 has written nothing. The
last step hands `hash_remove` the path behind the component, as the source does. -/
def treeRemove (tre : Tree α) (path : Bytes) : Int × Tree α :=
  if h : skipSlashes path = [] then
    match tre.info with
    | some _ => (0, .mk none tre.hsh)
    | none => (1, tre)
  else
    have := length_afterComponent_lt h
    let parse := skipSlashes path
    match hashFind tre.hsh parse with
    | none => (1, tre)
    | some nxt =>
      let path' := afterComponent parse
      let (ret, nxt') := treeRemove nxt path'
      if ret ≠ 0 then (1, tre)
      else
        let tre' := tre.setChild parse nxt'
        if nxt'.info.isNone ∧ nxt'.hsh.size = 0 then
          (0, .mk tre'.info (hashRemove tre'.hsh path').2)
        else (0, tre')
termination_by path.length

theorem treeRemove_of_nil {path : Bytes} (h : skipSlashes path = []) (tre : Tree α) :
    treeRemove tre path =
      match tre.info with
      | some _ => (0, .mk none tre.hsh)
      | none => (1, tre) := by
  rw [treeRemove, dif_pos h]

theorem treeRemove_of_ne {path : Bytes} (h : skipSlashes path ≠ []) (tre : Tree α) :
    treeRemove tre path =
      match hashFind tre.hsh (skipSlashes path) with
      | none => (1, tre)
      | some nxt =>
        let path' := afterComponent (skipSlashes path)
        let below := treeRemove nxt path'
        if below.1 ≠ 0 then (1, tre)
        else
          let tre' := tre.setChild (skipSlashes path) below.2
          if below.2.info.isNone ∧ below.2.hsh.size = 0 then
            (0, .mk tre'.info (hashRemove tre'.hsh path').2)
          else (0, tre') := by
  rw [treeRemove, dif_neg h]

end DiskAnalyzer
