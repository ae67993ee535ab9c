import DiskAnalyzer.Lib.Triple
import DiskAnalyzer.Analysis
import DiskAnalyzer.TreapProof

/-!
# `treap.c` on the memory

The functions of `treap.c` as they run: nodes are blocks, `struct treap **` is the address of the
word that holds the root or a child, and every step reads or writes one word. `DiskAnalyzer.Treap`
says what the functions compute, this file says how, and `Memory.TreapProof` that the two agree and
that nothing else is touched.

A word holds a pointer, an `int` or a whole string: no function of the manager writes inside a
string once it is made. Recursions and loops take a bound on their depth, `fuel`, and running out is
undefined like everything else that may not happen, so a triple says that the bound is enough.
-/

namespace DiskAnalyzer.Memory

open Sep

/-- What a word holds beside a pointer. -/
inductive Scalar where
  | int (n : Int)
  | str (s : Bytes)
  deriving DecidableEq, Repr

abbrev Code := Prog Scalar

abbrev Owned := Assert Scalar

abbrev Word := Val Scalar

/-- A word that holds an `int`. -/
def int (n : Int) : Word := .data (.int n)

def loadInt (a : Addr) : Code Int := do
  match ← loadData a with
  | .int n => return n
  | .str _ => fault

def loadStr (a : Addr) : Code Bytes := do
  match ← loadData a with
  | .str s => return s
  | .int _ => fault

/-! ## Members -/

/-- The members of a `struct treap` at an address. -/
def idOf (t : Addr) : Addr := t.add 0
def heapVal (t : Addr) : Addr := t.add 1
def analOf (t : Addr) : Addr := t.add 2
def chldLeft (t : Addr) : Addr := t.add 3
def chldRight (t : Addr) : Addr := t.add 4

/-- The members of a `struct analysis` at an address. -/
def totalTime (a : Addr) : Addr := a.add 0
def lastStart (a : Addr) : Addr := a.add 1
def cntFiles (a : Addr) : Addr := a.add 2
def cntDirs (a : Addr) : Addr := a.add 3
def pathOf (a : Addr) : Addr := a.add 4
def priorityOf (a : Addr) : Addr := a.add 5
def statusOf (a : Addr) : Addr := a.add 6
def suspendedOf (a : Addr) : Addr := a.add 7
def pidOf (a : Addr) : Addr := a.add 8

/-! ## Nodes and rotations -/

/-- `treap_create_node`. `rand` is the heap value drawn. -/
def treapCreateNode (id : Int) (anal : Ptr) (rand : Int) : Code Ptr := do
  match ← malloc 5 with
  | none => return none
  | some ret =>
    store (idOf ret) (int id)
    store (heapVal ret) (int rand)
    store (analOf ret) (.ptr anal)
    store (chldLeft ret) (.ptr none)
    store (chldRight ret) (.ptr none)
    return some ret

/-- `swing_left`. -/
def swingLeft (trp : Addr) : Code Unit := do
  let self ← deref (← loadPtr trp)
  let lft ← deref (← loadPtr (chldLeft self))
  let swtch ← loadPtr (chldRight lft)
  store trp (.ptr (some lft))
  store (chldLeft self) (.ptr swtch)
  store (chldRight lft) (.ptr (some self))

/-- `swing_right`. -/
def swingRight (trp : Addr) : Code Unit := do
  let self ← deref (← loadPtr trp)
  let rgt ← deref (← loadPtr (chldRight self))
  let swtch ← loadPtr (chldLeft rgt)
  store trp (.ptr (some rgt))
  store (chldRight self) (.ptr swtch)
  store (chldLeft rgt) (.ptr (some self))

/-- `chld && heap_val > chld->heap_val`. -/
def lighter (t chld : Addr) : Code Bool := do
  match ← loadPtr chld with
  | none => return false
  | some c =>
    let h ← loadInt (heapVal t)
    let k ← loadInt (heapVal c)
    return decide (h > k)

/-- The last statement of both insertions. -/
def swing (trp : Addr) : Code Unit := do
  let t ← deref (← loadPtr trp)
  if ← lighter t (chldLeft t) then swingLeft trp
  else if ← lighter t (chldRight t) then swingRight trp
  else return ()

/-! ## Insertion -/

/-- A child that is not there is made: 1 when it cannot be. -/
def attach (chld : Addr) (id : Int) (anal : Ptr) (rand : Int) : Code Int := do
  match ← treapCreateNode id anal rand with
  | none => return 1
  | some new =>
    store chld (.ptr (some new))
    return 0

/-- `treap_insert_new`: 1 when a node could not be made. -/
def treapInsertNew : Nat → Addr → Int → Ptr → Int → Code Int
  | 0, _, _, _, _ => fault
  | fuel + 1, trp, id, anal, rand => do
    match ← loadPtr trp with
    | none =>
      let new ← treapCreateNode id anal rand
      store trp (.ptr new)
      return if new = none then 1 else 0
    | some t =>
      let i ← loadInt (idOf t)
      let chld := if id < i then chldLeft t else chldRight t
      let below ← loadPtr chld
      let ret ← (if below.isSome then treapInsertNew fuel chld id anal rand
        else attach chld id anal rand)
      if ret ≠ 0 then return 1
      else
        swing trp
        return 0

/-- `treap_insert_node`. -/
def treapInsertNode : Nat → Addr → Ptr → Code Unit
  | 0, _, _ => fault
  | fuel + 1, trp, nd => do
    match ← loadPtr trp with
    | none => store trp (.ptr nd)
    | some t =>
      let j ← loadInt (idOf (← deref nd))
      let i ← loadInt (idOf t)
      let chld := if j < i then chldLeft t else chldRight t
      let below ← loadPtr chld
      let _ ← (if below.isSome then treapInsertNode fuel chld nd else store chld (.ptr nd))
      swing trp

/-! ## Lookup and extraction -/

/-- `treap_find`: what it stores through its last argument, `none` when it returns 0. -/
def treapFind : Nat → Ptr → Int → Code (Option Ptr)
  | 0, _, _ => fault
  | _ + 1, none, _ => return none
  | fuel + 1, some t, id => do
    let i ← loadInt (idOf t)
    if i = id then
      let anal ← loadPtr (analOf t)
      return some anal
    else if i < id then treapFind fuel (← loadPtr (chldRight t)) id
    else treapFind fuel (← loadPtr (chldLeft t)) id

/-- The end of the first block of `treap_extract`, when it has a node to return. -/
def detach (trp : Addr) (ret : Addr) (rest : Ptr) : Code Ptr := do
  store trp (.ptr rest)
  store (chldRight ret) (.ptr none)
  store (chldLeft ret) (.ptr none)
  return some ret

/-- The first block of `treap_extract`, at the node that holds the id. -/
def unlink (trp : Addr) : Code Ptr := do
  let t ← deref (← loadPtr trp)
  let l ← loadPtr (chldLeft t)
  let r ← loadPtr (chldRight t)
  match l, r with
  | none, _ => detach trp t r
  | some _, none => detach trp t l
  | some l, some r =>
    let k ← loadInt (heapVal l)
    let k' ← loadInt (heapVal r)
    if k < k' then
      swingRight trp
    else
      swingLeft trp
    return none

/-- `treap_extract`. -/
def treapExtract : Nat → Addr → Int → Code Ptr
  | 0, _, _ => fault
  | fuel + 1, trp, id => do
    match ← loadPtr trp with
    | none => return none
    | some t =>
      let i ← loadInt (idOf t)
      match ← (if i = id then unlink trp else pure none) with
      | some ret => return some ret
      | none =>
        let t' ← deref (← loadPtr trp)
        let i' ← loadInt (idOf t')
        if i' < id then treapExtract fuel (chldRight t') id
        else treapExtract fuel (chldLeft t') id

/-! ## Removing, clearing and saving -/

/-- `if (anal) { free(anal->path); free(anal); }`. -/
def freeAnal (anal : Ptr) : Code Unit := do
  match anal with
  | none => return ()
  | some a =>
    free (← loadPtr (pathOf a))
    free (some a)

/-- `treap_remove`. -/
def treapRemove (fuel : Nat) (trp : Addr) (id : Int) : Code Int := do
  match ← treapExtract fuel trp id with
  | none => return 1
  | some toDelete =>
    freeAnal (← loadPtr (analOf toDelete))
    free (some toDelete)
    return 0

/-- `treap_clear`. -/
def treapClear : Nat → Addr → Code Unit
  | 0, _ => fault
  | fuel + 1, trp => do
    match ← loadPtr trp with
    | none => return ()
    | some t =>
      let id ← loadInt (idOf t)
      let _ ← treapRemove fuel trp id
      treapClear fuel trp

/-- `analysis_write`: the bytes of its one `write`, none when it has no buffer. -/
def analysisWrite (id : Int) (anal : Ptr) : Code Bytes := do
  let a ← deref anal
  let path ← loadStr (← deref (← loadPtr (pathOf a)))
  match ← malloc 1 with
  | none => return []
  | some toPrint =>
    let time ← loadInt (totalTime a)
    let dirs ← loadInt (cntDirs a)
    let files ← loadInt (cntFiles a)
    let priority ← loadInt (priorityOf a)
    let status ← loadInt (statusOf a)
    let suspended ← loadInt (suspendedOf a)
    let out := writeInt id ++ writeInt time ++ writeInt dirs ++ writeInt files ++
      writeString path ++ writeInt priority ++ writeInt status ++ writeInt suspended
    store toPrint (.data (.str out))
    free (some toPrint)
    return out

/-- `treap_save`: the bytes written. -/
def treapSave : Nat → Addr → Code Bytes
  | 0, _ => fault
  | fuel + 1, trp => do
    match ← loadPtr trp with
    | none => return []
    | some t =>
      let id ← loadInt (idOf t)
      let out ← analysisWrite id (← loadPtr (analOf t))
      let _ ← treapRemove fuel trp id
      let rest ← treapSave fuel trp
      return out ++ rest

end DiskAnalyzer.Memory
