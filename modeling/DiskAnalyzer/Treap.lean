import Mathlib.Data.Int.Order.Basic

/-!
# `treap.c`: the algorithm

A node is `struct treap`: an id (the search key), a heap value drawn by `rand()` when the node
is created, the pointer it carries, and two children. A `struct treap **` argument is an owned
tree passed in and out, so an operation returns the tree it leaves behind; a detached node is a
tree too, with both links `nil`.

The pointer is a type variable. The manager keeps `struct analysis *` values in it, the two
treaps of `struct threads_manager` differing only in whether the pointer is `NULL`.
-/

namespace DiskAnalyzer

/-- `struct treap *`, with `nil` for `NULL`. -/
inductive Treap (α : Type) where
  | nil : Treap α
  | node (id heapVal : Int) (anal : α) (chldLeft chldRight : Treap α) : Treap α
  deriving DecidableEq, Repr

namespace Treap

variable {α : Type}

/-- Number of nodes. -/
def size : Treap α → Nat
  | nil => 0
  | node _ _ _ l r => l.size + r.size + 1

@[simp] theorem size_nil : (nil : Treap α).size = 0 := rfl
@[simp] theorem size_node (i h : Int) (a : α) (l r : Treap α) :
    (node i h a l r).size = l.size + r.size + 1 := rfl

/-! ## Rotations -/

/-- `swing_left`: the left child comes up. -/
def swingLeft : Treap α → Treap α
  | node i h a (node j k b jl jr) r => node j k b jl (node i h a jr r)
  | t => t

/-- `swing_right`: the right child comes up. -/
def swingRight : Treap α → Treap α
  | node i h a l (node j k b jl jr) => node j k b (node i h a l jl) jr
  | t => t

@[simp] theorem size_swingLeft (t : Treap α) : (swingLeft t).size = t.size := by
  unfold swingLeft
  split
  · simp only [size_node]; omega
  · rfl

@[simp] theorem size_swingRight (t : Treap α) : (swingRight t).size = t.size := by
  unfold swingRight
  split
  · simp only [size_node]; omega
  · rfl

/-- `chld && heap_val > chld->heap_val`. -/
def lighter (heapVal : Int) : Treap α → Bool
  | nil => false
  | node _ k _ _ _ => heapVal > k

/-- The last statement of both insertions: swing a child up when it is lighter. -/
def swing : Treap α → Treap α
  | nil => nil
  | node i h a l r =>
    if lighter h l then swingLeft (node i h a l r)
    else if lighter h r then swingRight (node i h a l r)
    else node i h a l r

end Treap

open Treap

variable {α : Type}

/-! ## Insertion -/

/-- `treap_create_node`. `rand` is the heap value drawn, `none` when `malloc` fails. -/
def treapCreateNode (rand : Option Int) (id : Int) (anal : α) : Option (Treap α) :=
  rand.map fun heapVal => node id heapVal anal nil nil

/-- `treap_insert_new`: `none` is the return value 1, which leaves the treap as it was. -/
def treapInsertNew : Treap α → Int → α → Option Int → Option (Treap α)
  | nil, id, anal, rand => treapCreateNode rand id anal
  | node i h a l r, id, anal, rand =>
    if id < i then (treapInsertNew l id anal rand).map fun l' => swing (node i h a l' r)
    else (treapInsertNew r id anal rand).map fun r' => swing (node i h a l r')

/-- `treap_insert_node`. The node is never `NULL` in the source. -/
def treapInsertNode : Treap α → Treap α → Treap α
  | t, nil => t
  | nil, n => n
  | node i h a l r, node j k b jl jr =>
    if j < i then swing (node i h a (treapInsertNode l (node j k b jl jr)) r)
    else swing (node i h a l (treapInsertNode r (node j k b jl jr)))

/-! ## Lookup and extraction -/

/-- `treap_find`: the pointer it stores through its last argument, `none` when it returns 0. -/
def treapFind : Treap α → Int → Option α
  | nil, _ => none
  | node i _ a l r, id =>
    if i = id then some a
    else if i < id then treapFind r id
    else treapFind l id

/-- The first block of `treap_extract`, run at a node that holds the id. With at most one child
the node is unlinked, its own links cleared, and the result is the node and what replaces it.
With two, a child is swung up, nothing is returned yet (`nil`), and the search goes on. -/
def unlink : Treap α → Treap α × Treap α
  | nil => (nil, nil)
  | node i h a nil r => (node i h a nil nil, r)
  | node i h a l nil => (node i h a nil nil, l)
  | node i h a (node j k b jl jr) (node j' k' b' jl' jr') =>
    let t := node i h a (node j k b jl jr) (node j' k' b' jl' jr')
    (nil, if k < k' then swingRight t else swingLeft t)

theorem size_unlink_snd (t : Treap α) : (unlink t).2.size ≤ t.size := by
  unfold unlink
  split
  · simp
  · simp only [size_node]; omega
  · simp only [size_node]; omega
  · simp only
    split_ifs <;> simp

/-- `treap_extract`: the extracted node, `nil` for `NULL`, and the treap left behind. -/
def treapExtract (t : Treap α) (id : Int) : Treap α × Treap α :=
  match t with
  | nil => (nil, nil)
  | node i h a l r =>
    match _ht : (if i = id then unlink (node i h a l r) else (nil, node i h a l r)) with
    | (node j k b jl jr, t') => (node j k b jl jr, t')
    | (nil, nil) => (nil, nil)
    | (nil, node i' h' a' l' r') =>
      if i' < id then
        ((treapExtract r' id).1, node i' h' a' l' (treapExtract r' id).2)
      else
        ((treapExtract l' id).1, node i' h' a' (treapExtract l' id).2 r')
termination_by t.size
decreasing_by
  all_goals
    have hsize : l'.size + r'.size + 1 ≤ l.size + r.size + 1 := by
      have hle := size_unlink_snd (node i h a l r)
      split_ifs at _ht with hi
      · rw [_ht] at hle; exact hle
      · simp only [Prod.mk.injEq, node.injEq, true_and] at _ht
        obtain ⟨rfl, rfl, rfl, rfl, rfl⟩ := _ht
        exact Nat.le_refl _
    simp only [size_node]
    omega

/-- `treap_remove`: the extracted node is freed. The value is the source's, 0 when it was there. -/
def treapRemove (t : Treap α) (id : Int) : Int × Treap α :=
  match treapExtract t id with
  | (node _ _ _ _ _, t') => (0, t')
  | (nil, t') => (1, t')

/-! ## The walk of `threads_show_in_order`

The in-order walk that answers a list request. `analysisList` sends one record and returns the
source's error flag; the walk stops at the first record that cannot be sent. -/

/-- The records sent, in order, and the return value. -/
def threadsShowInOrder (analysisList : Int → α → Bool) : Treap α → List (Int × α) × Bool
  | nil => ([], false)
  | node i _ a l r =>
    match threadsShowInOrder analysisList l with
    | (sent, true) => (sent, true)
    | (sent, false) =>
      if analysisList i a then (sent, true)
      else
        let (sent', err) := threadsShowInOrder analysisList r
        (sent ++ (i, a) :: sent', err)

end DiskAnalyzer
