import DiskAnalyzer.Memory.Removal

/-!
# `hash.c` and `tree.c` on the memory

The functions of `hash.c` and `tree.c` as they run. A `struct tree` is one block: the info pointer,
the size of its hash and the array of `HASH_MOD` list heads. A list node is a block that points to
its name and to the block of its child.

A `const char *` argument is the string it points to. What a list keeps is a pointer to a string of
its own, made by `strndup`.
-/

namespace DiskAnalyzer.Memory

open Sep

/-! ## Members -/

/-- The members of a `struct list` at an address. -/
def listPath (l : Addr) : Addr := l.add 0
def nodeOf (l : Addr) : Addr := l.add 1
def nextOf (l : Addr) : Addr := l.add 2

/-- The members of a `struct tree` at an address; its hash is inside it. -/
def infoOf (t : Addr) : Addr := t.add 0
def hshOf (t : Addr) : Addr := t.add 1

/-- The members of a `struct hash` at an address. -/
def sizeOf (h : Addr) : Addr := h.add 0
def childAt (h : Addr) (k : Nat) : Addr := h.add (1 + k)

/-- `&hsh->children[key]`; the array has `HASH_MOD` elements. -/
def childOf (h : Addr) (key : Int) : Code Addr :=
  if 0 ≤ key ∧ key < HASH_MOD then return childAt h key.toNat else fault

/-- `memset(a, 0, n * sizeof(void *))`. -/
def clearWords : Nat → Addr → Code Unit
  | 0, _ => return ()
  | n + 1, a => do
    store a (.ptr none)
    clearWords n (a.add 1)

/-! ## Lists -/

/-- A `struct tree` with nothing in it. -/
def treeBlank (t : Addr) : Code Unit := do
  store (infoOf t) (.ptr none)
  store (sizeOf (hshOf t)) (int 0)
  clearWords 1000 (childAt (hshOf t) 0)

/-- `list_new_node`. The list node is not freed when its child cannot be made. -/
def listNewNode (path : Ptr) : Code Ptr := do
  match ← malloc 3 with
  | none => return none
  | some lst =>
    let node ← malloc 1002
    store (nodeOf lst) (.ptr node)
    match node with
    | none => return none
    | some node =>
      treeBlank node
      store (nextOf lst) (.ptr none)
      store (listPath lst) (.ptr path)
      return some lst

/-- `list_push`: the child, `NULL` when it could not be made. -/
def listPush : Nat → Addr → Ptr → Code Ptr
  | 0, _, _ => fault
  | fuel + 1, lst, path => do
    match ← loadPtr lst with
    | none =>
      let new ← listNewNode path
      store lst (.ptr new)
      match new with
      | none => return none
      | some new => loadPtr (nodeOf new)
    | some l => listPush fuel (nextOf l) path

/-- The name of a list node. -/
def nameOf (l : Addr) : Code Bytes := do loadStr (← deref (← loadPtr (listPath l)))

/-- `list_find`. -/
def listFind : Nat → Ptr → Bytes → Code Ptr
  | 0, _, _ => fault
  | _ + 1, none, _ => return none
  | fuel + 1, some l, path => do
    let name ← nameOf l
    if nameMatches name path then loadPtr (nodeOf l)
    else listFind fuel (← loadPtr (nextOf l)) path

/-- `list_remove`. What is below the removed child is not freed. -/
def listRemove : Nat → Addr → Bytes → Code Int
  | 0, _, _ => fault
  | fuel + 1, lst, path => do
    match ← loadPtr lst with
    | none => return 1
    | some l =>
      let name ← nameOf l
      if nameMatches name path then
        store lst (.ptr (← loadPtr (nextOf l)))
        free (← loadPtr (nodeOf l))
        free (← loadPtr (listPath l))
        free (some l)
        return 0
      else listRemove fuel (nextOf l) path

/-! ## Buckets -/

/-- `hash_find`. -/
def hashFind (fuel : Nat) (hsh : Addr) (path : Bytes) : Code Ptr := do
  let c ← childOf hsh (getKey path)
  listFind fuel (← loadPtr c) path

/-- `hash_insert`, of a string that has been made for it. -/
def hashInsert (fuel : Nat) (hsh : Addr) (path : Ptr) : Code Ptr := do
  let name ← loadStr (← deref path)
  let c ← childOf hsh (getKey name)
  match ← listFind fuel (← loadPtr c) name with
  | some node => return some node
  | none =>
    match ← listPush fuel c path with
    | none => return none
    | some node =>
      let size ← loadInt (sizeOf hsh)
      store (sizeOf hsh) (int (size + 1))
      return some node

/-- `hash_remove`. -/
def hashRemove (fuel : Nat) (hsh : Addr) (path : Bytes) : Code Int := do
  let c ← childOf hsh (getKey path)
  let ret ← listRemove fuel c path
  if ret ≠ 0 then return 1
  else
    let size ← loadInt (sizeOf hsh)
    store (sizeOf hsh) (int (size - 1))
    return 0

/-! ## Tries -/

/-- `tree_init`: 1 when there is no block. -/
def treeInit (tre : Addr) : Code Int := do
  let t ← malloc 1002
  store tre (.ptr t)
  match t with
  | none => return 1
  | some t =>
    treeBlank t
    return 0

/-- `strndup`. -/
def strndup (s : Bytes) : Code Ptr := do
  match ← malloc 1 with
  | none => return none
  | some x =>
    store x (.data (.str s))
    return some x

/-- `tree_insert`, entered with the cursor at `tre` and `path` left. -/
def treeInsert : Nat → Addr → Bytes → Ptr → Code Int
  | 0, _, _, _ => fault
  | fuel + 1, tre, path, info =>
    if skipSlashes path = [] then do
      free (← loadPtr (infoOf tre))
      store (infoOf tre) (.ptr info)
      return 0
    else do
      match ← hashFind fuel (hshOf tre) (skipSlashes path) with
      | some nxt => treeInsert fuel nxt (afterComponent (skipSlashes path)) info
      | none =>
        match ← strndup (component (skipSlashes path)) with
        | none => return 1
        | some s =>
          match ← hashInsert fuel (hshOf tre) (some s) with
          | none =>
            free (some s)
            return 1
          | some nxt => treeInsert fuel nxt (afterComponent (skipSlashes path)) info

/-- `tree_get_path`. -/
def treeGetPath : Nat → Addr → Bytes → Code Ptr
  | 0, _, _ => fault
  | fuel + 1, tre, path =>
    if skipSlashes path = [] then return some tre
    else do
      match ← hashFind fuel (hshOf tre) (skipSlashes path) with
      | none => return none
      | some nxt => treeGetPath fuel nxt (afterComponent (skipSlashes path))

/-- The loop of `tree_find_prefix`. -/
def treeFindPrefixLoop : Nat → Addr → Bytes → Code Ptr
  | 0, _, _ => fault
  | fuel + 1, tre, path =>
    if skipSlashes path = [] then return none
    else do
      match ← hashFind fuel (hshOf tre) (skipSlashes path) with
      | none => return none
      | some nxt =>
        match ← loadPtr (infoOf nxt) with
        | some i => return some i
        | none => treeFindPrefixLoop fuel nxt (afterComponent (skipSlashes path))

/-- `tree_find_prefix`: what `*info` holds when it returns 1, `NULL` when it returns 0. -/
def treeFindPrefix (fuel : Nat) (tre : Addr) (path : Bytes) : Code Ptr := do
  match ← loadPtr (infoOf tre) with
  | some i => return some i
  | none => treeFindPrefixLoop fuel tre path

/-- `tree_remove`. -/
def treeRemove : Nat → Addr → Bytes → Code Int
  | 0, _, _ => fault
  | fuel + 1, tre, path =>
    if skipSlashes path = [] then do
      match ← loadPtr (infoOf tre) with
      | none => return 1
      | some i =>
        free (some i)
        store (infoOf tre) (.ptr none)
        return 0
    else do
      match ← hashFind fuel (hshOf tre) (skipSlashes path) with
      | none => return 1
      | some nxt =>
        let ret ← treeRemove fuel nxt (afterComponent (skipSlashes path))
        if ret ≠ 0 then return 1
        else
          let info ← loadPtr (infoOf nxt)
          let size ← loadInt (sizeOf (hshOf nxt))
          if info = none ∧ size = 0 then
            let _ ← hashRemove fuel (hshOf tre) (afterComponent (skipSlashes path))
            return 0
          else return 0

/-! ## Clearing -/

/-- `for (int i = 0; i < n; ++i)`, from `i`. -/
def forWords : Nat → Nat → (Nat → Code Unit) → Code Unit
  | 0, _, _ => return ()
  | n + 1, i, body => do
    body i
    forWords n (i + 1) body

mutual

/-- `list_clear`. -/
def listClear : Nat → Addr → Code Unit
  | 0, _ => fault
  | fuel + 1, lst => do
    match ← loadPtr lst with
    | none => return ()
    | some toClear =>
      store lst (.ptr (← loadPtr (nextOf toClear)))
      treeClear fuel (nodeOf toClear)
      free (← loadPtr (listPath toClear))
      free (some toClear)
      listClear fuel lst

/-- `tree_clear`, with `hash_clear` in it. -/
def treeClear : Nat → Addr → Code Unit
  | 0, _ => fault
  | fuel + 1, tre => do
    let t ← deref (← loadPtr tre)
    free (← loadPtr (infoOf t))
    store (infoOf t) (.ptr none)
    forWords 1000 0 fun i => listClear fuel (childAt (hshOf t) i)
    store (sizeOf (hshOf t)) (int 0)
    free (← loadPtr tre)

end

end DiskAnalyzer.Memory
