import DiskAnalyzer.Analysis
import DiskAnalyzer.Tree

/-!
# `tree.c`: the progress of a traversal and its file format

A worker's tree carries a state at every directory it has begun: the size counted so far, and
whether the directory is done. A tree is saved in preorder. A node is `0`, or `1`, its done flag
and ten characters of size; behind it come its children, each a `+`, ten digits of length, the
name and the child's tree; a `-` ends them.
-/

namespace DiskAnalyzer

open Decimal

/-- `struct state`. -/
structure State where
  size : Int
  done : Int
  deriving DecidableEq, Repr

/-! ## Saving -/

/-- `state_write`. -/
def stateWrite : Option State → Bytes
  | none => str "0"
  | some st => str "1" ++ (if st.done ≠ 0 then str "1" else str "0") ++
      snprintf 11 (printWidth 10 st.size)

mutual

/-- `tree_save`, without the memory it frees. -/
def treeSave : Tree State → Bytes
  | .mk info hsh => stateWrite info ++ hashSave hsh

/-- `hash_save`. -/
def hashSave : Hash (Tree State) → Bytes
  | ⟨_, children⟩ =>
    (List.range HASH_MOD.toNat).flatMap (fun i : Nat => listSave (children i)) ++ str "-"

/-- `list_save`. -/
def listSave : List (Bytes × Tree State) → Bytes
  | [] => []
  | e :: next => childSave e ++ listSave next

/-- One round of `list_save`. The length is passed as an `int`. -/
def childSave : Bytes × Tree State → Bytes
  | (path, node) =>
    str "+" ++ snprintf (11 + path.length) (printWidth 10 (wrap32 path.length) ++ path) ++
      treeSave node

end

/-! ## Loading

Each `read` of the file takes what is ahead, up to what it asks for. -/

/-- `state_read`: `none` is a short read. It returns `NULL` then, too, and when `errno` happens to
be 0 the caller goes on and fails at the end of the file. -/
def stateRead : Bytes → Option (Option State × Bytes)
  | [] => none
  | exists_ :: fd =>
    if exists_ = 48 then some (none, fd)
    else
      match fd with
      | [] => none
      | done :: fd =>
        if fd.length < 10 then none
        else some (some ⟨atoi (cstr (fd.take 10)), schar done - 48⟩, fd.drop 10)

mutual

/-- `tree_build`: the tree and what is left of the file. `fuel` bounds the calls that are nested or
follow each other; `none` is a file that needs more. -/
def treeBuild : Nat → Tree State → Bytes → Option (Except Fail (Tree State × Bytes))
  | 0, _, _ => none
  | fuel + 1, tre, fd =>
    match stateRead fd with
    | none => some (.error .error)
    | some (info, fd) => hashBuild fuel (.mk info tre.hsh) fd

/-- `hash_build`, on the hash of `tre`. With the length -1 it writes in front of the name, and no
`malloc` has what one below -1 asks for. -/
def hashBuild : Nat → Tree State → Bytes → Option (Except Fail (Tree State × Bytes))
  | 0, _, _ => none
  | fuel + 1, tre, fd =>
    match fd with
    | [] => some (.error .error)
    | movement :: fd =>
      if movement = 43 then
        if fd.length < 10 then some (.error .error)
        else
          let sz := atoi (cstr (fd.take 10))
          let fd := fd.drop 10
          if sz = -1 ∨ 2 ^ 31 ≤ sz + 1 then some (.error .undefined)
          else if sz < -1 then some (.error .error)
          else if (fd.length : Int) < sz then some (.error .error)
          else
            let name := cstr (fd.take sz.toNat)
            let (hsh, nxt) := hashInsert tre.hsh name treeInit
            match treeBuild fuel nxt (fd.drop sz.toNat) with
            | none => none
            | some (.error e) => some (.error e)
            | some (.ok (nxt, fd)) => hashBuild fuel (.mk tre.info (hashSet hsh name nxt)) fd
      else if movement = 45 then some (.ok (tre, fd))
      else some (.error .error)

end

end DiskAnalyzer
