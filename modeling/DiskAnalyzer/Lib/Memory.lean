import DiskAnalyzer.Lib.Assertion
import Mathlib.Algebra.BigOperators.Group.Finset.Basic
import Mathlib.Control.Lawful

/-!
# Programs on a C memory

The memory is made of blocks of words. `malloc` makes a block, with a header word that keeps its
length in front of what the program sees, and may refuse; `free` takes a whole block back. Reading
or writing a word that is not there, reading a word of another kind, following `NULL` and freeing
what is not the start of a block are undefined: the program has no result.

`Triple P c Q`: from every memory part of which satisfies `P`, whatever `malloc` refuses, `c` ends
with a result, leaves the rest of the memory as it is, and what it has then satisfies `Q`. So a
program with a triple does nothing undefined, does not run for ever, touches what it owns only, and
what `Q` does not mention has been freed.

The scalars are a type variable.
-/

namespace Sep

/-- A word of a block. Word 0 is the header. -/
structure Addr where
  block : Nat
  word : Nat
  deriving DecidableEq, Repr

/-- The `n`-th word from an address, as a member or an element is. -/
def Addr.add (a : Addr) (n : Nat) : Addr := ⟨a.block, a.word + n⟩

/-- `none` is `NULL`. -/
abbrev Ptr := Option Addr

/-- What a word holds. `undef` is what `malloc` leaves. -/
inductive Val (σ : Type) where
  | undef : Val σ
  | ptr (p : Ptr) : Val σ
  | data (v : σ) : Val σ
  deriving DecidableEq, Repr

/-- A header with the length of its block, or a word. -/
inductive Cell (σ : Type) where
  | head (n : Nat) : Cell σ
  | word (v : Val σ) : Cell σ
  deriving DecidableEq, Repr

/-- The memory, and the answers of the `malloc` calls to come. Blocks from `next` on are unused. -/
structure Mem (σ : Type) where
  cells : Heap Addr (Cell σ)
  next : Nat
  grants : Nat → Bool
  fresh : ∀ a : Addr, next ≤ a.block → cells a = none

/-- Programs; `none` is undefined behaviour. -/
abbrev Prog (σ : Type) (α : Type) := StateT (Mem σ) Option α

variable {σ α β : Type}

/-! ## Primitives -/

/-- What the program may not do. -/
def fault : Prog σ α := fun _ => none

/-- `*a`, read. -/
def load (a : Addr) : Prog σ (Val σ) := fun m =>
  match m.cells a with
  | some (.word v) => some (v, m)
  | _ => none

def Mem.write (m : Mem σ) (a : Addr) (v : Val σ) (h : (m.cells a).isSome) : Mem σ where
  cells b := if b = a then some (.word v) else m.cells b
  next := m.next
  grants := m.grants
  fresh b hb := by
    have hne : b ≠ a := by
      rintro rfl
      rw [m.fresh b hb] at h
      cases h
    rw [if_neg hne, m.fresh b hb]

/-- `*a = v`. -/
def store (a : Addr) (v : Val σ) : Prog σ Unit := fun m =>
  match h : m.cells a with
  | some (.word _) => some ((), m.write a v (by rw [h]; rfl))
  | _ => none

/-- A word that holds a pointer. -/
def loadPtr (a : Addr) : Prog σ Ptr := do
  match ← load a with
  | .ptr p => return p
  | _ => fault

/-- A word that holds a scalar. -/
def loadData (a : Addr) : Prog σ σ := do
  match ← load a with
  | .data v => return v
  | _ => fault

/-- The address in a pointer that is followed. -/
def deref : Ptr → Prog σ Addr
  | none => fault
  | some a => return a

/-- A new block of `n` words. -/
def Mem.alloc (m : Mem σ) (n : Nat) : Mem σ where
  cells b :=
    if b.block = m.next then
      if b.word = 0 then some (.head n) else if b.word ≤ n then some (.word .undef) else none
    else m.cells b
  next := m.next + 1
  grants k := m.grants (k + 1)
  fresh b hb := by
    rw [if_neg (by omega), m.fresh b (by omega)]

/-- `malloc` of `n` words by a caller that takes for granted that it is given them. -/
def grant (n : Nat) : Prog σ Addr := fun m => some (⟨m.next, 1⟩, m.alloc n)

/-- A request that is refused. -/
def Mem.refuse (m : Mem σ) : Mem σ := { m with grants := fun k => m.grants (k + 1) }

/-- `malloc` of `n` words. -/
def malloc (n : Nat) : Prog σ Ptr := fun m =>
  if m.grants 0 then some (some ⟨m.next, 1⟩, m.alloc n) else some (none, m.refuse)

/-- Taking back a block of `n` words. -/
def Mem.release (m : Mem σ) (b n : Nat) : Mem σ where
  cells c := if c.block = b ∧ c.word ≤ n then none else m.cells c
  next := m.next
  grants := m.grants
  fresh c hc := by
    split_ifs
    · rfl
    · exact m.fresh c hc

/-- `free`. -/
def free : Ptr → Prog σ Unit
  | none => return ()
  | some a => fun m =>
    match m.cells ⟨a.block, 0⟩ with
    | some (.head n) => if a.word = 1 then some ((), m.release a.block n) else none
    | _ => none

/-! ## What is owned -/

abbrev Assert (σ : Type) := Assertion Addr (Cell σ)

/-- The word `a` holds `v`. -/
def cell (a : Addr) (v : Val σ) : Assert σ := Assertion.pointsTo a (.word v)

/-- The words from `a` on hold `vs`. -/
def words (a : Addr) : List (Val σ) → Assert σ
  | [] => 1
  | v :: vs => cell a v * words (a.add 1) vs

/-- `a` is the start of a block of `n` words: the header, which is what allows `free`. -/
def head (a : Addr) (n : Nat) : Assert σ :=
  ⨆ _ : a.word = 1, Assertion.pointsTo ⟨a.block, 0⟩ (.head n)

/-- The whole block `malloc` made at `a`, its words holding `vs`. -/
def block (a : Addr) (vs : List (Val σ)) : Assert σ := head a vs.length * words a vs

@[simp] theorem words_nil (a : Addr) : words (σ := σ) a [] = 1 := rfl

@[simp] theorem words_cons (a : Addr) (v : Val σ) (vs : List (Val σ)) :
    words a (v :: vs) = cell a v * words (a.add 1) vs := rfl

@[simp] theorem Addr.add_zero (a : Addr) : a.add 0 = a := rfl

@[simp] theorem Addr.add_add (a : Addr) (m n : Nat) : (a.add m).add n = a.add (m + n) := by
  simp only [Addr.add, Nat.add_assoc]

theorem words_append (a : Addr) (vs ws : List (Val σ)) :
    words a (vs ++ ws) = words a vs * words (a.add vs.length) ws := by
  induction vs generalizing a with
  | nil => simp
  | cons v vs ih =>
    rw [List.cons_append, words_cons, words_cons, ih, Addr.add_add, mul_assoc, List.length_cons,
      Nat.add_comm 1]

/-- An array, element by element. -/
theorem words_replicate (a : Addr) (n : Nat) (v : Val σ) :
    words a (List.replicate n v) = ∏ k ∈ Finset.range n, cell (a.add k) v := by
  induction n with
  | zero => rfl
  | succ n ih =>
    rw [List.replicate_succ', words_append, ih, List.length_replicate, words_cons, words_nil,
      mul_one, Finset.prod_range_succ]

/-- The heap the words from `a` on make. -/
def wordsHeap (a : Addr) (vs : List (Val σ)) : Heap Addr (Cell σ) := fun b =>
  if b.block = a.block ∧ a.word ≤ b.word then (vs[b.word - a.word]?).map .word else none

theorem words_holds (a : Addr) (vs : List (Val σ)) : words a vs (wordsHeap a vs) := by
  induction vs generalizing a with
  | nil =>
    show wordsHeap a [] = Heap.empty
    funext b
    simp [wordsHeap]
  | cons v vs ih =>
    refine ⟨Heap.single a (.word v), wordsHeap (a.add 1) vs, fun b => ?_, rfl, ih (a.add 1)⟩
    by_cases hb : b = a
    · subst hb
      left
      simp [wordsHeap, Addr.add]
    · right
      refine ⟨?_, Heap.single_ne hb _⟩
      have hw : b.block = a.block → b.word ≠ a.word := fun hblk hw => hb (by cases a; cases b; simp_all)
      by_cases hin : b.block = a.block ∧ a.word + 1 ≤ b.word
      · rw [wordsHeap, if_pos ⟨hin.1, by omega⟩, wordsHeap, if_pos (by exact hin),
          show b.word - a.word = b.word - (a.add 1).word + 1 by simp only [Addr.add]; omega,
          List.getElem?_cons_succ]
      · rw [wordsHeap, if_neg (by grind), wordsHeap, if_neg (by exact hin)]

/-- What is found at the words is known. -/
theorem eq_wordsHeap {a : Addr} {vs : List (Val σ)} {h : Heap Addr (Cell σ)} (hw : words a vs h) :
    h = wordsHeap a vs := by
  induction vs generalizing a h with
  | nil =>
    obtain rfl : h = Heap.empty := hw
    funext b
    simp [wordsHeap]
  | cons v vs ih =>
    obtain ⟨h₁, h₂, hs, rfl, hw₂⟩ := hw
    have h₂' := ih hw₂
    subst h₂'
    obtain ⟨k₁, k₂, hk, rfl, hk₂⟩ := words_holds a (v :: vs)
    rw [hs.eq_union, hk.eq_union, ih hk₂]

/-- The heap a block makes. -/
def blockHeap (b : Nat) (vs : List (Val σ)) : Heap Addr (Cell σ) := fun c =>
  if c.block = b then
    if c.word = 0 then some (.head vs.length) else (vs[c.word - 1]?).map .word
  else none

theorem block_holds (a : Addr) (vs : List (Val σ)) (h : Heap Addr (Cell σ)) :
    block a vs h ↔ a.word = 1 ∧ h = blockHeap a.block vs := by
  have hsplit (ha : a.word = 1) : (blockHeap a.block vs).Splits
      (Heap.single ⟨a.block, 0⟩ (.head vs.length)) (wordsHeap a vs) := by
    intro c
    by_cases hc : c = ⟨a.block, 0⟩
    · subst hc
      left
      simp [blockHeap, wordsHeap, ha]
    · right
      refine ⟨?_, Heap.single_ne hc _⟩
      simp only [blockHeap, wordsHeap, ha]
      by_cases hb : c.block = a.block
      · have hw : c.word ≠ 0 := fun hw => hc (by cases c; simp_all)
        rw [if_pos hb, if_neg hw, if_pos ⟨hb, by omega⟩]
      · rw [if_neg hb, if_neg (fun h => hb h.1)]
  rw [block, head, Assertion.iSup_mul, Assertion.iSup_holds]
  constructor
  · rintro ⟨ha, h₁, h₂, hs, rfl, hw⟩
    rw [eq_wordsHeap hw] at hs
    exact ⟨ha, hs.eq_union.trans (hsplit ha).eq_union.symm⟩
  · rintro ⟨ha, rfl⟩
    exact ⟨ha, _, _, hsplit ha, rfl, words_holds a vs⟩

end Sep
