import DiskAnalyzer.Memory.Tree
import DiskAnalyzer.Keys

/-!
# Lists and buckets on the memory
-/

namespace DiskAnalyzer.Memory

open Sep Assertion

variable {β γ : Type} {P F : Owned} {Q : γ → Owned}

/-! ## Chains in memory -/

section Chains

variable (T : β → Addr → Owned)

/-- A list node with its name and its child, without the rest of the list. -/
def linkAt (name : Bytes) (b : β) (x : Addr) : Owned :=
  head x 3 * (⨆ s, cell (listPath x) (.ptr s) * strAt name s) *
    ⨆ n, cell (nodeOf x) (.ptr (some n)) * T b n

/-- What a `struct list *` points to. -/
def chainAt : List (Bytes × β) → Ptr → Owned
  | [], p => ⨆ _ : p = none, 1
  | e :: l, p => ⨆ x, ⨆ _ : p = some x,
      linkAt T e.1 e.2 x * ⨆ q, cell (nextOf x) (.ptr q) * chainAt l q

/-- What a `struct list **` points to. -/
def chainIn (l : List (Bytes × β)) (c : Addr) : Owned := ⨆ p, cell c (.ptr p) * chainAt T l p

theorem chainAt_cons (name : Bytes) (b : β) (l : List (Bytes × β)) (p : Ptr) :
    chainAt T ((name, b) :: l) p =
      ⨆ x, ⨆ _ : p = some x, linkAt T name b x * chainIn T l (nextOf x) := rfl

theorem chainAt_some (name : Bytes) (b : β) (l : List (Bytes × β)) (x : Addr) :
    chainAt T ((name, b) :: l) (some x) = linkAt T name b x * chainIn T l (nextOf x) := by
  simp only [chainAt_cons, Option.some.injEq, iSup_iSup_eq_right]

theorem chainIn_open (l : List (Bytes × β)) (c : Addr) :
    chainIn T l c = ⨆ p, cell c (.ptr p) * chainAt T l p := rfl

@[simp] theorem chainIn_nil (c : Addr) : chainIn T [] c = cell c (.ptr none) := by
  simp only [chainIn, chainAt, mul_iSup, mul_one, iSup_iSup_eq_left]

theorem chainIn_cons (name : Bytes) (b : β) (l : List (Bytes × β)) (c : Addr) :
    chainIn T ((name, b) :: l) c = ⨆ x, cell c (.ptr (some x)) *
      (linkAt T name b x * chainIn T l (nextOf x)) := by
  simp only [chainIn_open T _ c, chainAt_cons, mul_iSup]
  rw [iSup_comm]
  simp only [iSup_iSup_eq_left]

variable {T}

/-- A list node taken apart. -/
theorem linkAt_cases {name : Bytes} {b : β} {x : Addr} {c : Code γ}
    (h : ∀ s n, Triple (head x 3 * cell (listPath x) (.ptr (some s)) *
      (head s 1 * cell s (.data (.str name))) * cell (nodeOf x) (.ptr (some n)) * T b n * F) c Q) :
    Triple (linkAt T name b x * F) c Q := by
  simp only [linkAt, strAt, mul_iSup, iSup_mul, Triple.iSup_iff]
  rintro n path s rfl
  rw [block_one]
  exact (h s n).pre (le_of_eq (by ac_rfl))

theorem linkAt_intro {name : Bytes} {b : β} {x s n : Addr} :
    head x 3 * cell (listPath x) (.ptr (some s)) * (head s 1 * cell s (.data (.str name))) *
      cell (nodeOf x) (.ptr (some n)) * T b n ≤ linkAt T name b x := by
  rw [← block_one]
  simp only [linkAt, strAt, mul_iSup, iSup_mul]
  exact le_iSup_of_le n (le_iSup_of_le (some s) (le_iSup_of_le s (le_iSup_of_le rfl
    (le_of_eq (by ac_rfl)))))

/-! ## Lookup -/

variable (T) in
/-- What a lookup gives: nothing, or the child taken out of the list. `K` is the rest, and whatever
is put in the child's place makes the list with that child replaced. -/
def foundIn (whole : Owned) (put : β → Owned) : Option β → Ptr → Owned
  | none, ret => ⨆ _ : ret = none, whole
  | some b, ret => ⨆ n, ⨆ _ : ret = some n, ⨆ K : Owned, ⨆ _ : ∀ b', T b' n * K ≤ put b', T b n * K

theorem foundIn_above {whole whole' F : Owned} {put put' : β → Owned} (hsame : whole * F ≤ whole')
    (hput : ∀ b', put b' * F ≤ put' b') (b : Option β) (ret : Ptr) :
    foundIn T whole put b ret * F ≤ foundIn T whole' put' b ret := by
  cases b with
  | none =>
    simp only [foundIn, iSup_mul]
    exact iSup_le fun hret => le_iSup_of_le hret hsame
  | some b =>
    simp only [foundIn, iSup_mul]
    refine iSup_le fun n => iSup_le fun hret => iSup_le fun K => iSup_le fun hK => ?_
    refine le_iSup_of_le n (le_iSup_of_le hret (le_iSup_of_le (K * F) (le_iSup_of_le ?_ ?_)))
    · intro b'
      calc T b' n * (K * F) = T b' n * K * F := (mul_assoc _ _ _).symm
        _ ≤ put b' * F := mul_le_mul' (hK b') le_rfl
        _ ≤ _ := hput b'
    · rw [mul_assoc]

/-- **`list_find`** finds what the model finds. -/
theorem listFind_spec (path : Bytes) (l : List (Bytes × β)) : ∀ (fuel : Nat) (p : Ptr),
    l.length < fuel → Triple (chainAt T l p) (listFind fuel p path)
      (foundIn T (chainAt T l p) (fun b => chainAt T (listSet l path b) p)
        (DiskAnalyzer.listFind l path)) := by
  induction l with
  | nil =>
    intro fuel p hfuel
    obtain ⟨fuel, rfl⟩ : ∃ n, fuel = n + 1 := ⟨fuel - 1, by omega⟩
    refine Triple.pre (P := ⨆ _ : p = none, 1) ?_ le_rfl
    rw [Triple.iSup_iff]
    rintro rfl
    rw [listFind]
    exact .ret (le_iSup_of_le rfl (le_iSup_of_le rfl le_rfl))
  | cons e l ih =>
    obtain ⟨name, b⟩ := e
    intro fuel p hfuel
    rw [List.length_cons] at hfuel
    obtain ⟨fuel, rfl⟩ : ∃ n, fuel = n + 1 := ⟨fuel - 1, by omega⟩
    rw [DiskAnalyzer.listFind]
    refine Triple.pre (P := ⨆ x, ⨆ _ : p = some x, linkAt T name b x * chainIn T l (nextOf x)) ?_
      le_rfl
    simp only [Triple.iSup_iff]
    rintro x rfl
    rw [listFind]
    refine linkAt_cases fun s n => ?_
    simp only [nameOf, bind_assoc]
    refine .loadPtr ?_
    simp only [Triple.deref_some, pure_bind]
    refine loadStr_spec ?_
    by_cases hm : nameMatches name path = true
    · rw [if_pos hm, if_pos hm]
      refine .loadPtr_last (le_iSup_of_le n (le_iSup_of_le rfl (le_iSup_of_le ?_ (le_iSup_of_le ?_ ?_))))
      · exact head x 3 * cell (listPath x) (.ptr (some s)) *
          (head s 1 * cell s (.data (.str name))) * cell (nodeOf x) (.ptr (some n)) *
            chainIn T l (nextOf x)
      · intro b'
        have hset : listSet ((name, b) :: l) path b' = (name, b') :: l := by
          rw [listSet, if_pos hm]
        simp only [hset, chainAt_some]
        refine le_trans (le_of_eq ?_) (mul_le_mul' (linkAt_intro (s := s) (n := n)) le_rfl)
        ac_rfl
      · exact le_of_eq (by ac_rfl)
    · rw [if_neg hm, if_neg hm]
      rw [chainIn_open]
      simp only [mul_iSup, Triple.iSup_iff]
      intro q
      refine .loadPtr ?_
      refine .last (ih fuel q (by omega)) fun ret => foundIn_above ?_ (fun b' => ?_) _ _
      · rw [chainAt_some, chainIn_open]
        simp only [mul_iSup]
        refine le_iSup_of_le q ?_
        refine le_trans (le_of_eq ?_) (mul_le_mul' (linkAt_intro (s := s) (n := n)) le_rfl)
        ac_rfl
      · have hset : listSet ((name, b) :: l) path b' = (name, b) :: listSet l path b' := by
          rw [listSet, if_neg hm]
        simp only [hset, chainAt_some, chainIn_open T (listSet l path b'), mul_iSup]
        refine le_iSup_of_le q ?_
        refine le_trans (le_of_eq ?_) (mul_le_mul' (linkAt_intro (s := s) (n := n)) le_rfl)
        ac_rfl

/-! ## Insertion -/

/-- `memset` to zero. -/
theorem clearWords_spec (n : Nat) : ∀ a : Addr, Triple (words a (List.replicate n .undef))
    (clearWords n a) fun _ => words a (List.replicate n (.ptr none)) := by
  induction n with
  | zero => exact fun a => .ret le_rfl
  | succ n ih =>
    intro a
    rw [clearWords, List.replicate_succ, List.replicate_succ, words_cons, words_cons]
    refine .store ?_
    exact .last (ih (a.add 1)) fun _ => (mul_comm _ _).le

theorem block_tree (t : Addr) (v w : Word) {vs : List Word} (hvs : vs.length = 1000) :
    block t (v :: w :: vs) = head t 1002 * cell (infoOf t) v * cell (sizeOf (hshOf t)) w *
      words (childAt (hshOf t) 0) vs := by
  rw [block, List.length_cons, List.length_cons, hvs, words_cons, words_cons, mul_assoc, mul_assoc]
  rfl

/-- What is made of a new block. -/
def blankAt (t : Addr) : Owned :=
  head t 1002 * cell (infoOf t) (.ptr none) * cell (sizeOf (hshOf t)) (int 0) *
    words (childAt (hshOf t) 0) (List.replicate 1000 (.ptr none))

theorem treeBlank_spec (t : Addr) : Triple (block t (List.replicate 1002 .undef)) (treeBlank t)
    fun _ => blankAt t := by
  rw [List.replicate_succ, List.replicate_succ, block_tree t _ _ List.length_replicate]
  unfold treeBlank
  refine .store ?_
  refine .store ?_
  refine .last (clearWords_spec 1000 _) fun _ => le_of_eq ?_
  rw [blankAt]
  ac_rfl

/-- The list node that `list_new_node` leaves behind when it cannot make the child. -/
def lost : Owned := ⨆ x, block x [.undef, .ptr none, .undef]

theorem block_link (x : Addr) (v₀ v₁ v₂ : Word) :
    block x [v₀, v₁, v₂] =
      head x 3 * (cell (listPath x) v₀ * (cell (nodeOf x) v₁ * cell (nextOf x) v₂)) := by
  simp only [block, words_cons, words_nil, mul_one]
  rfl

instance (x : Addr) (v₀ v₁ v₂ : Word) [h : Frame P (head x 3 * (cell (listPath x) v₀ *
    (cell (nodeOf x) v₁ * cell (nextOf x) v₂))) F] : Frame P (block x [v₀, v₁, v₂]) F :=
  ⟨by rw [block_link]; exact h.eq⟩

/-- **`list_new_node`** makes the node with a blank child, or leaves at most a node that is lost. -/
theorem listNewNode_spec {new : β} (hnew : ∀ n, blankAt n ≤ T new n) (name : Bytes) (s : Addr) :
    Triple (block s [.data (.str name)]) (listNewNode (some s)) fun ret =>
      (⨆ _ : ret = none, block s [.data (.str name)] * (1 ⊔ lost)) ⊔
        ⨆ x, ⨆ _ : ret = some x, ⨆ n, head x 3 * cell (listPath x) (.ptr (some s)) *
          block s [.data (.str name)] * cell (nodeOf x) (.ptr (some n)) * T new n *
            cell (nextOf x) (.ptr none) := by
  unfold listNewNode
  refine .malloc ?_ fun x => ?_
  · refine .ret (le_sup_of_le_left (le_iSup_of_le rfl ?_))
    exact (mul_one _).ge.trans (mul_le_mul' le_rfl le_sup_left)
  rw [show List.replicate 3 (Val.undef : Word) = [.undef, .undef, .undef] from rfl, block_link]
  refine .malloc ?_ fun n => ?_
  · refine .store ?_
    refine .ret (le_sup_of_le_left (le_iSup_of_le rfl ?_))
    have hlost : block x [.undef, .ptr none, .undef] ≤ lost := le_iSup_of_le x le_rfl
    rw [block_link] at hlost
    refine le_trans (le_of_eq ?_) (mul_le_mul' le_rfl (hlost.trans le_sup_right))
    ac_rfl
  · refine .store ?_
    refine .call (treeBlank_spec n) fun _ => ?_
    refine .store ?_
    refine .store ?_
    refine .ret (le_sup_of_le_right (le_iSup_of_le x (le_iSup_of_le rfl (le_iSup_of_le n ?_))))
    refine le_trans (le_of_eq ?_) (mul_le_mul' (mul_le_mul' le_rfl (hnew n)) le_rfl)
    ac_rfl

variable (T) in
/-- What an insertion gives: nothing, at the cost of at most a lost node, or the new child taken
out, as by a lookup. -/
def pushedIn (new : β) (whole : Owned) (put : β → Owned) (ret : Ptr) : Owned :=
  (⨆ _ : ret = none, whole * (1 ⊔ lost)) ⊔ foundIn T ⊥ put (some new) ret

theorem pushedIn_above {new : β} {whole whole' F : Owned} {put put' : β → Owned}
    (hsame : whole * F ≤ whole') (hput : ∀ b', put b' * F ≤ put' b') (ret : Ptr) :
    pushedIn T new whole put ret * F ≤ pushedIn T new whole' put' ret := by
  rw [pushedIn, Quantale.sup_mul_distrib]
  refine sup_le_sup ?_ (foundIn_above (by simp) hput (some new) ret)
  rw [iSup_mul]
  refine iSup_le fun hret => le_iSup_of_le hret ?_
  calc whole * (1 ⊔ lost) * F = whole * F * (1 ⊔ lost) := by ac_rfl
    _ ≤ whole' * (1 ⊔ lost) := mul_le_mul' hsame le_rfl

/-- **`list_push`** puts the new child at the end of the list. -/
theorem listPush_spec {new : β} (hnew : ∀ n, blankAt n ≤ T new n) (name : Bytes) (s : Addr)
    (l : List (Bytes × β)) : ∀ (fuel : Nat) (c : Addr), l.length < fuel →
      Triple (chainIn T l c * block s [.data (.str name)]) (listPush fuel c (some s))
        (pushedIn T new (chainIn T l c * block s [.data (.str name)])
          fun b => chainIn T (DiskAnalyzer.listPush l name b) c) := by
  induction l with
  | nil =>
    intro fuel c hfuel
    obtain ⟨fuel, rfl⟩ : ∃ n, fuel = n + 1 := ⟨fuel - 1, by omega⟩
    rw [listPush, chainIn_nil]
    refine .loadPtr ?_
    refine .call (listNewNode_spec hnew name s) fun ret => ?_
    simp only [Quantale.sup_mul_distrib, iSup_mul, Triple.sup_iff, Triple.iSup_iff]
    constructor
    · rintro rfl
      refine .store ?_
      exact .ret (le_sup_of_le_left (le_iSup_of_le rfl (le_of_eq (by ac_rfl))))
    · rintro x rfl n
      refine .store ?_
      refine .loadPtr_last (le_sup_of_le_right (le_iSup_of_le n (le_iSup_of_le rfl ?_)))
      refine le_iSup_of_le (cell c (.ptr (some x)) * head x 3 * cell (listPath x) (.ptr (some s)) *
        block s [.data (.str name)] * cell (nodeOf x) (.ptr (some n)) *
          cell (nextOf x) (.ptr none)) (le_iSup_of_le (fun b => ?_) (le_of_eq (by ac_rfl)))
      show _ ≤ chainIn T [(name, b)] c
      rw [chainIn_cons]
      refine le_iSup_of_le x ?_
      rw [chainIn_nil, block_one]
      refine le_trans (le_of_eq ?_)
        (mul_le_mul' le_rfl (mul_le_mul' (linkAt_intro (s := s) (n := n)) le_rfl))
      ac_rfl
  | cons e l ih =>
    obtain ⟨name', b'⟩ := e
    intro fuel c hfuel
    rw [List.length_cons] at hfuel
    obtain ⟨fuel, rfl⟩ : ∃ n, fuel = n + 1 := ⟨fuel - 1, by omega⟩
    rw [listPush, chainIn_cons]
    simp only [iSup_mul, Triple.iSup_iff]
    intro x
    refine .loadPtr ?_
    refine .last (ih fuel (nextOf x) (by omega)) fun ret => pushedIn_above ?_ (fun b => ?_) ret
    · exact le_iSup_of_le x (le_of_eq (by ac_rfl))
    · show _ ≤ chainIn T ((name', b') :: DiskAnalyzer.listPush l name b) c
      rw [chainIn_cons]
      exact le_iSup_of_le x (le_of_eq (by ac_rfl))

/-! ## Removal -/

/-- **`list_remove`** of a name that is not there changes nothing. -/
theorem listRemove_spec (path : Bytes) (l : List (Bytes × β)) : ∀ (fuel : Nat) (c : Addr),
    l.length < fuel → DiskAnalyzer.listRemove l path = none →
      Triple (chainIn T l c) (listRemove fuel c path) fun ret => ⨆ _ : ret = 1, chainIn T l c := by
  induction l with
  | nil =>
    intro fuel c hfuel _
    obtain ⟨fuel, rfl⟩ : ∃ n, fuel = n + 1 := ⟨fuel - 1, by omega⟩
    rw [listRemove, chainIn_nil]
    refine .loadPtr ?_
    exact .ret (le_iSup_of_le rfl le_rfl)
  | cons e l ih =>
    obtain ⟨name, b⟩ := e
    intro fuel c hfuel hnone
    rw [List.length_cons] at hfuel
    obtain ⟨fuel, rfl⟩ : ∃ n, fuel = n + 1 := ⟨fuel - 1, by omega⟩
    rw [DiskAnalyzer.listRemove] at hnone
    split_ifs at hnone with hm
    rw [listRemove, chainIn_cons, Triple.iSup_iff]
    intro x
    refine .loadPtr ?_
    refine Triple.pre (linkAt_cases fun s n => ?_)
      (le_of_eq (show _ = linkAt T name b x * (cell c (.ptr (some x)) * chainIn T l (nextOf x)) by
        ac_rfl))
    simp only [nameOf, bind_assoc]
    refine .loadPtr ?_
    simp only [Triple.deref_some, pure_bind]
    refine loadStr_spec ?_
    rw [if_neg hm]
    refine .last (ih fuel (nextOf x) (by omega) (by simpa using hnone)) fun ret => ?_
    rw [iSup_mul]
    refine iSup_le fun hret => le_iSup_of_le hret (le_iSup_of_le x ?_)
    refine le_trans (le_of_eq ?_)
      (mul_le_mul' le_rfl (mul_le_mul' (linkAt_intro (s := s) (n := n)) le_rfl))
    ac_rfl

end Chains

/-! ## Buckets in memory -/

section Buckets

variable (T : β → Addr → Owned)

/-- The lists of a hash, without the one with index `k`. -/
def others (h : Hash β) (a : Addr) (k : Nat) : Owned :=
  ∏ j ∈ (Finset.range 1000).erase k, chainIn T (h.children j) (childAt a j)

/-- What a `struct hash *` points to. -/
def hashAt (h : Hash β) (a : Addr) : Owned :=
  cell (sizeOf a) (int h.size) * ∏ k ∈ Finset.range 1000, chainIn T (h.children k) (childAt a k)

theorem mem_range_of_inside {key : Int} (hkey : Inside key) :
    key.toNat ∈ Finset.range 1000 ∧ (key.toNat : Int) = key := by
  obtain ⟨h0, h1⟩ := hkey
  have hmod : key < 1000 := h1
  rw [Finset.mem_range]
  omega

/-- One list taken out. -/
theorem hashAt_focus {key : Int} (hkey : Inside key) (h : Hash β) (a : Addr) :
    hashAt T h a = cell (sizeOf a) (int h.size) *
      (chainIn T (h.children key) (childAt a key.toNat) * others T h a key.toNat) := by
  obtain ⟨hmem, hcast⟩ := mem_range_of_inside hkey
  rw [hashAt, ← Finset.mul_prod_erase _ _ hmem, hcast, others]

/-- A list put back. -/
theorem hashAt_update {key : Int} (hkey : Inside key) (h : Hash β) (a : Addr) (size : Int)
    (l : List (Bytes × β)) :
    hashAt T ⟨size, Function.update h.children key l⟩ a = cell (sizeOf a) (int size) *
      (chainIn T l (childAt a key.toNat) * others T h a key.toNat) := by
  have hcast := (mem_range_of_inside hkey).2
  rw [hashAt_focus T hkey]
  simp only [Function.update_self]
  rw [others, others]
  refine congrArg _ (congrArg _ (Finset.prod_congr rfl fun j hj => ?_))
  have hne : (j : Int) ≠ key := by
    have hj' := Finset.ne_of_mem_erase hj
    omega
  simp only [Function.update_of_ne hne]

attribute [irreducible] others hashAt

theorem childOf_inside {key : Int} (hkey : Inside key) (a : Addr) :
    childOf a key = pure (childAt a key.toNat) := if_pos hkey

variable {T}

/-- **`hash_find`** finds what the model finds. -/
theorem hashFind_spec {path : Bytes} (hkey : Inside (getKey path)) (h : Hash β) (a : Addr)
    {fuel : Nat} (hfuel : (h.children (getKey path)).length < fuel) :
    Triple (hashAt T h a) (hashFind fuel a path)
      (foundIn T (hashAt T h a) (fun b => hashAt T (hashSet h path b) a)
        (DiskAnalyzer.hashFind h path)) := by
  rw [hashFind, childOf_inside hkey, pure_bind, hashAt_focus T hkey, chainIn_open]
  simp only [iSup_mul, mul_iSup, Triple.iSup_iff]
  intro p
  refine .loadPtr ?_
  refine .last (listFind_spec path _ fuel p hfuel) fun ret => foundIn_above ?_ (fun b => ?_) _ _
  · exact le_iSup_of_le p (le_of_eq (by ac_rfl))
  · rw [hashSet, hashAt_update T hkey, chainIn_open]
    simp only [iSup_mul, mul_iSup]
    exact le_iSup_of_le p (le_of_eq (by ac_rfl))

theorem listSet_push {l : List (Bytes × β)} {name : Bytes} (hn : nameMatches name name = true)
    (hnone : DiskAnalyzer.listFind l name = none) (new b : β) :
    listSet (DiskAnalyzer.listPush l name new) name b = DiskAnalyzer.listPush l name b := by
  induction l with
  | nil => rw [DiskAnalyzer.listPush, listSet, if_pos hn, DiskAnalyzer.listPush]
  | cons e l ih =>
    obtain ⟨name', b'⟩ := e
    rw [DiskAnalyzer.listFind] at hnone
    split_ifs at hnone with hm
    rw [DiskAnalyzer.listPush, listSet, if_neg hm, ih hnone, DiskAnalyzer.listPush]

/-- **`hash_insert`** of a new name: the hash of the model with the child taken out, or the hash as
it was with the name given back. -/
theorem hashInsert_spec {name : Bytes} (hkey : Inside (getKey name))
    (hn : nameMatches name name = true) {new : β} (hnew : ∀ n, blankAt n ≤ T new n) (h : Hash β)
    (hnone : DiskAnalyzer.hashFind h name = none) (a s : Addr) {fuel : Nat}
    (hfuel : (h.children (getKey name)).length < fuel) :
    Triple (hashAt T h a * block s [.data (.str name)]) (hashInsert fuel a (some s))
      (pushedIn T new (hashAt T h a * block s [.data (.str name)])
        fun b => hashAt T (hashSet (DiskAnalyzer.hashInsert h name new).1 name b) a) := by
  have hlist : DiskAnalyzer.listFind (h.children (getKey name)) name = none := hnone
  have hput (b : β) : hashAt T (hashSet (DiskAnalyzer.hashInsert h name new).1 name b) a =
      cell (sizeOf a) (int (h.size + 1)) *
        (chainIn T (DiskAnalyzer.listPush (h.children (getKey name)) name b)
          (childAt a (getKey name).toNat) * others T h a (getKey name).toNat) := by
    rw [hashInsert_of_none hnone, hashSet]
    simp only [Function.update_self, Function.update_idem, listSet_push hn hlist]
    rw [hashAt_update T hkey]
  have hopen : hashAt T h a * block s [.data (.str name)] = ⨆ p,
      cell (sizeOf a) (int h.size) * (cell (childAt a (getKey name).toNat) (.ptr p) *
        chainAt T (h.children (getKey name)) p * others T h a (getKey name).toNat) *
          (head s 1 * cell s (.data (.str name))) := by
    rw [hashAt_focus T hkey, chainIn_open, block_one]
    simp only [iSup_mul, mul_iSup]
  refine Triple.pre (Triple.iSup_iff.2 fun p => ?_) hopen.le
  rw [hashInsert]
  simp only [Triple.deref_some, pure_bind]
  refine loadStr_spec ?_
  rw [childOf_inside hkey, pure_bind]
  refine .loadPtr ?_
  refine .call (listFind_spec (T := T) name _ fuel p hfuel) fun ret => ?_
  rw [hlist]
  simp only [foundIn, iSup_mul, Triple.iSup_iff]
  rintro rfl
  have hfold : chainAt T (h.children (getKey name)) p * (cell (sizeOf a) (int h.size) *
      (cell (childAt a (getKey name).toNat) (.ptr p) * others T h a (getKey name).toNat) *
      (head s 1 * cell s (.data (.str name)))) ≤
      chainIn T (h.children (getKey name)) (childAt a (getKey name).toNat) *
        block s [.data (.str name)] *
        (cell (sizeOf a) (int h.size) * others T h a (getKey name).toNat) := by
    rw [block_one, chainIn_open]
    simp only [iSup_mul]
    exact le_iSup_of_le p (le_of_eq (by ac_rfl))
  refine Triple.pre ?_ hfold
  refine .call (listPush_spec hnew name s _ fuel _ hfuel) fun ret => ?_
  rw [pushedIn, Quantale.sup_mul_distrib, Triple.sup_iff]
  simp only [foundIn, iSup_mul, Triple.iSup_iff]
  constructor
  · rintro rfl
    refine .ret (le_sup_of_le_left (le_iSup_of_le rfl (le_of_eq ?_)))
    rw [hashAt_focus T hkey]
    ac_rfl
  · rintro n rfl K hK
    refine loadInt_spec ?_
    refine .store ?_
    refine .ret (le_sup_of_le_right (le_iSup_of_le n (le_iSup_of_le rfl ?_)))
    refine le_iSup_of_le (K * (cell (sizeOf a) (int (h.size + 1)) *
      others T h a (getKey name).toNat)) (le_iSup_of_le (fun b => ?_) (le_of_eq (by ac_rfl)))
    refine le_trans (le_of_eq (mul_assoc _ _ _).symm) ((mul_le_mul' (hK b) le_rfl).trans ?_)
    exact (le_of_eq (by ac_rfl)).trans (hput b).ge

/-- **`hash_remove`** of a path without a first component changes nothing. -/
theorem hashRemove_spec {path : Bytes} (hpath : component path = []) {h : Hash β} (hg : h.Good)
    (a : Addr) {fuel : Nat} (hfuel : (h.children 0).length < fuel) :
    Triple (hashAt T h a) (hashRemove fuel a path) fun ret => ⨆ _ : ret = 1, hashAt T h a := by
  have hkey : getKey path = 0 := by rw [← getKey_component, hpath]; rfl
  have hin : Inside (getKey path) := by rw [hkey]; exact ⟨le_rfl, by decide⟩
  have hnone := listRemove_eq_none (hg (getKey path)) hpath
  rw [← hkey] at hfuel
  rw [hashRemove, childOf_inside hin, pure_bind, hashAt_focus T hin]
  refine .call (listRemove_spec (T := T) path _ fuel _ hfuel hnone) fun ret => ?_
  simp only [iSup_mul, Triple.iSup_iff]
  rintro rfl
  exact .ret (le_iSup_of_le rfl (le_of_eq (by ac_rfl)))

end Buckets

end DiskAnalyzer.Memory
