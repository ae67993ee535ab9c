import DiskAnalyzer.Hash
import DiskAnalyzer.Lib.Decimal
import Mathlib.Algebra.Order.Ring.Int

/-!
# `get_key`: which names have a bucket

`get_key` reduces with `%` after every byte. C's `%` takes the sign of its left operand and a plain
`char` is signed, so the key of a prefix is the remainder of the prefix or that remainder minus
`HASH_MOD`. Which of the two it is follows from the exact value of the polynomial (`keySum`): a
byte that takes the remainder below zero makes the key negative, and it stays so until a byte takes
the remainder to `HASH_MOD` or to zero (`zero_le_getKey_iff`).
-/

namespace DiskAnalyzer

open Decimal

/-! ## The values `get_key` computes -/

/-- The values of the subexpressions of the loop's body, one byte after the other. -/
def keySteps (key : Int) : Bytes → List Int
  | [] => []
  | c :: path =>
    if c = slash then []
    else
      let sum := key + schar c
      let key' := (sum * HASH_MULT + HASH_ADD).tmod HASH_MOD
      [sum, sum * HASH_MULT, sum * HASH_MULT + HASH_ADD, key'] ++ keySteps key' path

/-- The length and every intermediate value of `get_key(path)` is an `int`, and its result is the
index of one of the `HASH_MOD` lists. -/
structure KeyOk (path : Bytes) : Prop where
  length : FitsInt path.length
  steps : ∀ x ∈ keySteps 0 path, FitsInt x
  nonneg : 0 ≤ getKey path
  lt : getKey path < HASH_MOD

/-- The polynomial `get_key` reduces, unreduced. -/
def keySum (name : Bytes) : Int :=
  name.foldl (fun sum c => (sum + schar c) * HASH_MULT + HASH_ADD) 0

/-- Its remainder, between 0 and `HASH_MOD`. -/
def keyRem (name : Bytes) : Int := keySum name % HASH_MOD

/-- The byte after `name` takes the remainder below zero. -/
def Borrows (name : Bytes) (c : UInt8) : Prop :=
  keyRem name + schar c < 0 ∧ keyRem (name ++ [c]) ≠ 0

/-- The byte after `name` takes the remainder to `HASH_MOD` or to zero. -/
def Repays (name : Bytes) (c : UInt8) : Prop :=
  HASH_MOD ≤ keyRem name + schar c ∨ keyRem (name ++ [c]) = 0

/-- Every byte that borrows is followed by one that repays. -/
def Repaid (name : Bytes) : Prop :=
  ∀ s c t, name = s ++ c :: t → Borrows s c → ∃ u d v, t = u ++ d :: v ∧ Repays (s ++ c :: u) d

theorem schar_range (c : UInt8) : -128 ≤ schar c ∧ schar c < 128 := by
  have hc := c.toNat_lt
  unfold schar
  split_ifs <;> omega

theorem getKeyLoop_append {key : Int} {s : Bytes} (hs : slash ∉ s) (t : Bytes) :
    getKeyLoop key (s ++ t) = getKeyLoop (getKeyLoop key s) t := by
  induction s generalizing key with
  | nil => rfl
  | cons c s ih =>
    have hc : c ≠ slash := fun h => hs (h ▸ List.mem_cons_self)
    rw [List.cons_append, getKeyLoop, getKeyLoop, if_neg hc, if_neg hc]
    exact ih fun h => hs (List.mem_cons_of_mem _ h)

theorem getKey_concat {s : Bytes} {c : UInt8} (hs : slash ∉ s ++ [c]) :
    getKey (s ++ [c]) = ((getKey s + schar c) * HASH_MULT + HASH_ADD).tmod HASH_MOD := by
  have hc : c ≠ slash := fun h => hs (h ▸ List.mem_concat_self)
  rw [getKey, getKeyLoop_append (fun h => hs (List.mem_append_left _ h)), getKeyLoop, if_neg hc]
  rfl

theorem keyRem_concat (s : Bytes) (c : UInt8) :
    keyRem (s ++ [c]) = ((keyRem s + schar c) * HASH_MULT + HASH_ADD) % HASH_MOD := by
  have hsum : keySum (s ++ [c]) = (keySum s + schar c) * HASH_MULT + HASH_ADD := by
    rw [keySum, List.foldl_append]
    rfl
  rw [keyRem, hsum, keyRem]
  simp only [HASH_MULT, HASH_ADD, HASH_MOD]
  omega

/-! ## The sign of a key -/

theorem tmod_hashMod (x : Int) :
    x.tmod HASH_MOD =
      if 0 ≤ x ∨ HASH_MOD ∣ x then x % HASH_MOD else x % HASH_MOD - HASH_MOD := by
  rw [Int.tmod_eq_emod]
  split_ifs <;> simp [HASH_MOD]

theorem getKey_eq {s : Bytes} (hs : slash ∉ s) :
    -HASH_MOD < getKey s ∧ getKey s < HASH_MOD ∧ getKey s % HASH_MOD = keyRem s := by
  induction s using List.reverseRecOn with
  | nil => decide
  | append_singleton s c ih =>
    obtain ⟨-, -, hrem⟩ := ih fun h => hs (List.mem_append_left _ h)
    rw [getKey_concat hs, keyRem_concat, ← hrem, tmod_hashMod]
    simp only [HASH_MULT, HASH_ADD, HASH_MOD]
    split_ifs <;> omega

/-- **A key is the remainder of its name, or `HASH_MOD` below it.** -/
theorem getKey_cases {s : Bytes} (hs : slash ∉ s) :
    0 ≤ getKey s ∧ getKey s = keyRem s ∨ getKey s < 0 ∧ getKey s = keyRem s - HASH_MOD := by
  obtain ⟨hlow, hhigh, hrem⟩ := getKey_eq hs
  rw [← hrem]
  simp only [HASH_MOD] at hlow hhigh ⊢
  omega

/-- What one byte does to the sign of the key. -/
theorem zero_le_getKey_concat {s : Bytes} {c : UInt8} (hs : slash ∉ s ++ [c]) :
    0 ≤ getKey (s ++ [c]) ↔ Repays s c ∨ ¬ Borrows s c ∧ 0 ≤ getKey s := by
  have hstep : 0 ≤ getKey (s ++ [c]) ↔
      0 ≤ (getKey s + schar c) * HASH_MULT + HASH_ADD ∨
        HASH_MOD ∣ (getKey s + schar c) * HASH_MULT + HASH_ADD := by
    rw [getKey_concat hs, tmod_hashMod]
    simp only [HASH_MOD]
    split_ifs <;> omega
  have hc := schar_range c
  have hrem := keyRem_concat s c
  rw [hstep, Repays, Borrows]
  rcases getKey_cases fun h => hs (List.mem_append_left _ h) with ⟨hsign, hkey⟩ | ⟨hsign, hkey⟩
  · rw [hkey] at hsign ⊢
    simp only [HASH_MULT, HASH_ADD, HASH_MOD] at *
    omega
  · rw [hkey] at hsign ⊢
    simp only [HASH_MULT, HASH_ADD, HASH_MOD] at *
    omega

theorem Repays.not_borrows {s : Bytes} {c : UInt8} (h : Repays s c) : ¬ Borrows s c := by
  unfold Repays Borrows HASH_MOD at *
  omega

theorem repaid_concat (s : Bytes) (c : UInt8) :
    Repaid (s ++ [c]) ↔ Repays s c ∨ ¬ Borrows s c ∧ Repaid s := by
  constructor
  · intro h
    by_cases hr : Repays s c
    · exact .inl hr
    refine .inr ⟨fun hb => ?_, ?_⟩
    · obtain ⟨u, d, v, hnil, -⟩ := h s c [] rfl hb
      simp at hnil
    · intro s' c' t ht hb
      obtain ⟨u, d, v, huv, hd⟩ := h s' c' (t ++ [c]) (by simp [ht]) hb
      rcases List.eq_nil_or_concat v with rfl | ⟨v', e, rfl⟩
      · obtain ⟨rfl, heq⟩ := List.append_inj' huv rfl
        obtain rfl : c = d := by simpa using heq
        exact absurd (ht ▸ hd) hr
      · rw [List.concat_eq_append, ← List.cons_append, ← List.append_assoc] at huv
        obtain ⟨rfl, -⟩ := List.append_inj' huv rfl
        exact ⟨u, d, v', rfl, hd⟩
  · intro h s' c' t ht hb
    rcases List.eq_nil_or_concat t with rfl | ⟨t', e, rfl⟩
    · obtain ⟨rfl, heq⟩ := List.append_inj' ht rfl
      obtain rfl : c = c' := by simpa using heq
      exact absurd hb (h.elim Repays.not_borrows And.left)
    · rw [List.concat_eq_append, ← List.cons_append, ← List.append_assoc] at ht
      obtain ⟨rfl, heq⟩ := List.append_inj' ht rfl
      obtain rfl : c = e := by simpa using heq
      rcases h with hr | ⟨-, hs⟩
      · exact ⟨t', c, [], by simp, hr⟩
      · obtain ⟨u, d, v, rfl, hd⟩ := hs s' c' t' rfl hb
        exact ⟨u, d, v ++ [c], by simp, hd⟩

/-- **A key is not negative exactly if every borrow has been repaid.** -/
theorem zero_le_getKey_iff {s : Bytes} (hs : slash ∉ s) : 0 ≤ getKey s ↔ Repaid s := by
  induction s using List.reverseRecOn with
  | nil => exact ⟨fun _ s c t h => absurd h (by simp), fun _ => le_refl 0⟩
  | append_singleton s c ih =>
    rw [zero_le_getKey_concat hs, repaid_concat, ih fun h => hs (List.mem_append_left _ h)]

/-- ASCII names never borrow. -/
theorem repaid_of_ascii {s : Bytes} (hs : ∀ b ∈ s, b.toNat < 128) : Repaid s := by
  rintro s c t rfl ⟨hb, -⟩
  have hc : 0 ≤ schar c := by
    rw [schar, if_pos (hs c (by simp))]
    omega
  have hrem : 0 ≤ keyRem s := Int.emod_nonneg _ (by decide)
  omega

theorem zero_le_getKey (path : Bytes) : 0 ≤ getKey path ↔ Repaid (component path) := by
  rw [← getKey_component, zero_le_getKey_iff (slash_notMem_component path)]

theorem getKey_lt (path : Bytes) : getKey path < HASH_MOD := by
  rw [← getKey_component]
  exact (getKey_eq (slash_notMem_component path)).2.1

theorem getKey_range {path : Bytes} (hpath : ∀ b ∈ path, b.toNat < 128) :
    0 ≤ getKey path ∧ getKey path < HASH_MOD := by
  refine ⟨(zero_le_getKey path).2 (repaid_of_ascii fun b hb => ?_), getKey_lt path⟩
  exact hpath b ((List.takeWhile_sublist _).subset hb)

/-! ## Overflow -/

theorem fitsInt_keySteps (path : Bytes) {key : Int} (hlow : -HASH_MOD < key)
    (hhigh : key < HASH_MOD) : ∀ x ∈ keySteps key path, FitsInt x := by
  induction path generalizing key with
  | nil => simp [keySteps]
  | cons c path ih =>
    rw [keySteps]
    split_ifs
    · simp
    have hc := schar_range c
    have hkey' : -HASH_MOD < ((key + schar c) * HASH_MULT + HASH_ADD).tmod HASH_MOD ∧
        ((key + schar c) * HASH_MULT + HASH_ADD).tmod HASH_MOD < HASH_MOD := by
      rw [tmod_hashMod]
      simp only [HASH_MULT, HASH_ADD, HASH_MOD]
      split_ifs <;> omega
    intro x hx
    rcases List.mem_append.1 hx with hx | hx
    · simp only [List.mem_cons, List.not_mem_nil, or_false] at hx
      simp only [HASH_MULT, HASH_ADD, HASH_MOD] at *
      unfold FitsInt
      rcases hx with rfl | rfl | rfl | rfl <;> omega
    · exact ih hkey'.1 hkey'.2 x hx

/-! ## The lists a path leads to -/

/-- `k` is an index of the array. -/
def Inside (k : Int) : Prop := 0 ≤ k ∧ k < HASH_MOD

instance (k : Int) : Decidable (Inside k) := by unfold Inside; infer_instance

/-- The memory of two hashes is the same. -/
def Hash.AgreesInside {β : Type} (a b : Hash β) : Prop :=
  a.size = b.size ∧ ∀ k, Inside k → a.children k = b.children k

/-- `hash_find`, `hash_insert` and `hash_remove` of this path neither read nor write a list that
is not in the array. -/
structure StaysInside (β : Type) (path : Bytes) : Prop where
  find : ∀ a b : Hash β, a.AgreesInside b → hashFind a path = hashFind b path
  insert : ∀ (a b : Hash β) (new : β), a.AgreesInside b →
    (hashInsert a path new).2 = (hashInsert b path new).2 ∧
      (hashInsert a path new).1.AgreesInside (hashInsert b path new).1
  insert_outside : ∀ (a : Hash β) (new : β) (k : Int), ¬ Inside k →
    (hashInsert a path new).1.children k = a.children k
  remove : ∀ a b : Hash β, a.AgreesInside b →
    (hashRemove a path).1 = (hashRemove b path).1 ∧
      (hashRemove a path).2.AgreesInside (hashRemove b path).2
  remove_outside : ∀ (a : Hash β) (k : Int), ¬ Inside k →
    (hashRemove a path).2.children k = a.children k

theorem Hash.AgreesInside.update {β : Type} {a b : Hash β} (h : a.AgreesInside b) {k : Int}
    (chain : List (Bytes × β)) {m n : Int} (hmn : m = n) :
    Hash.AgreesInside ⟨m, Function.update a.children k chain⟩
      ⟨n, Function.update b.children k chain⟩ := by
  refine ⟨hmn, fun j hj => ?_⟩
  dsimp only
  rw [Function.update_apply, Function.update_apply, h.2 j hj]

theorem staysInside {β : Type} {path : Bytes} (hkey : Inside (getKey path)) :
    StaysInside β path where
  find a b h := by rw [hashFind, hashFind, h.2 _ hkey]
  insert a b new h := by
    rw [hashInsert, hashInsert, h.2 _ hkey]
    cases listFind (b.children (getKey path)) path with
    | some node => exact ⟨rfl, h⟩
    | none => exact ⟨rfl, h.update _ (by rw [h.1])⟩
  insert_outside a new k hk := by
    have hne : k ≠ getKey path := fun h => hk (h ▸ hkey)
    rw [hashInsert]
    cases listFind (a.children (getKey path)) path with
    | some node => rfl
    | none => exact Function.update_of_ne hne _ _
  remove a b h := by
    rw [hashRemove, hashRemove, h.2 _ hkey]
    cases listRemove (b.children (getKey path)) path with
    | none => exact ⟨rfl, h⟩
    | some chain => exact ⟨rfl, h.update _ (by rw [h.1])⟩
  remove_outside a k hk := by
    have hne : k ≠ getKey path := fun h => hk (h ▸ hkey)
    rw [hashRemove]
    cases listRemove (a.children (getKey path)) path with
    | none => rfl
    | some chain => exact Function.update_of_ne hne _ _

/-- **Which C strings have a bucket.** -/
theorem keyOk_iff (β : Type) (path : Bytes) :
    KeyOk path ∧ StaysInside β path ↔ path.length < 2 ^ 31 ∧ Repaid (component path) := by
  constructor
  · rintro ⟨h, -⟩
    have hlen := h.length.2
    exact ⟨by omega, (zero_le_getKey path).1 h.nonneg⟩
  · rintro ⟨hlen, hs⟩
    have hkey : Inside (getKey path) := ⟨(zero_le_getKey path).2 hs, getKey_lt path⟩
    refine ⟨⟨?_, fitsInt_keySteps path (by decide) (by decide), hkey.1, hkey.2⟩, staysInside hkey⟩
    unfold FitsInt
    omega

/-- A two-byte name, `é` in UTF-8, whose second byte borrows. -/
theorem getKey_eAcute :
    getKey [0xC3, 0xA9] = -542 ∧ ¬ ∀ path : Bytes, 0 ∉ path → KeyOk path := by
  refine ⟨by decide, fun h => ?_⟩
  have hneg : ¬ (0 : Int) ≤ getKey [0xC3, 0xA9] := by decide
  exact hneg (h _ (by decide)).nonneg

end DiskAnalyzer
