import DiskAnalyzer.Memory.HashProof
import DiskAnalyzer.Branches
import Mathlib.Algebra.Order.BigOperators.Group.List

/-!
# Tries on the memory
-/

namespace DiskAnalyzer.Memory

open Sep Assertion

variable {α β : Type} {P F : Owned} {Q : β → Owned}

/-! ## Tries in memory -/

section Tries

/-- What an info pointer owns: one block, whose words `enc` gives. -/
def infoOwned (enc : α → List Word) : Option α → Ptr → Owned
  | none, p => ⨆ _ : p = none, 1
  | some a, p => ⨆ x, ⨆ _ : p = some x, block x (enc a)

/-- A word with an info pointer. -/
def infoIn (enc : α → List Word) (i : Option α) (c : Addr) : Owned :=
  ⨆ p, cell c (.ptr p) * infoOwned enc i p

variable (enc : α → List Word)

mutual

/-- What a `struct tree *` points to. -/
def treeAt : Tree α → Addr → Owned
  | .mk i h, t => head t 1002 * infoIn enc i (infoOf t) * bucketsAt h (hshOf t)

def bucketsAt : Hash (Tree α) → Addr → Owned
  | ⟨size, children⟩, a => cell (sizeOf a) (int size) *
      ∏ k ∈ Finset.range 1000, chldrenIn (children k) (childAt a k)

def chldrenIn : List (Bytes × Tree α) → Addr → Owned
  | [], c => cell c (.ptr none)
  | e :: l, c => ⨆ x, cell c (.ptr (some x)) * (entryAt e x * chldrenIn l (nextOf x))

def entryAt : Bytes × Tree α → Addr → Owned
  | (name, t), x => head x 3 * (⨆ s, cell (listPath x) (.ptr s) * strAt name s) *
      ⨆ n, cell (nodeOf x) (.ptr (some n)) * treeAt t n

end

theorem chldrenIn_eq (l : List (Bytes × Tree α)) (c : Addr) :
    chldrenIn enc l c = chainIn (treeAt enc) l c := by
  induction l generalizing c with
  | nil => rw [chldrenIn, chainIn_nil]
  | cons e l ih =>
    obtain ⟨name, t⟩ := e
    rw [chldrenIn, chainIn_cons]
    simp only [ih, entryAt, linkAt]

theorem treeAt_mk (i : Option α) (h : Hash (Tree α)) (t : Addr) :
    treeAt enc (.mk i h) t = head t 1002 * infoIn enc i (infoOf t) *
      hashAt (treeAt enc) h (hshOf t) := by
  obtain ⟨size, children⟩ := h
  rw [treeAt, bucketsAt, hashAt]
  simp only [chldrenIn_eq]

mutual

/-- The number of list nodes below a node. -/
def names : Tree α → Nat
  | .mk _ h => namesHash h

def namesHash : Hash (Tree α) → Nat
  | ⟨_, children⟩ => ((List.range 1000).map fun k : Nat => namesList (children k)).sum

def namesList : List (Bytes × Tree α) → Nat
  | [] => 0
  | e :: l => namesEntry e + namesList l + 1

def namesEntry : Bytes × Tree α → Nat
  | (_, t) => names t

end

theorem le_sum_range (f : Nat → Nat) {n k : Nat} (hk : k ∈ Finset.range n) :
    f k ≤ ((List.range n).map f).sum :=
  List.single_le_sum (fun _ _ => Nat.zero_le _) _
    (List.mem_map.2 ⟨k, List.mem_range.2 (Finset.mem_range.1 hk), rfl⟩)

theorem namesList_le {t : Tree α} {key : Int} (hkey : Inside key) :
    namesList (t.hsh.children key) ≤ names t := by
  obtain ⟨hmem, hcast⟩ := mem_range_of_inside hkey
  obtain ⟨i, size, children⟩ := t
  have hle := le_sum_range (fun k : Nat => namesList (children k)) hmem
  rw [hcast] at hle
  exact hle.trans_eq (by rw [names, namesHash])

theorem length_le_namesList (l : List (Bytes × Tree α)) : l.length ≤ namesList l := by
  induction l with
  | nil => exact Nat.zero_le _
  | cons e l ih =>
    rw [List.length_cons, namesList]
    omega

theorem names_lt_of_mem {l : List (Bytes × Tree α)} {e : Bytes × Tree α} (he : e ∈ l) :
    names e.2 < namesList l := by
  induction l with
  | nil => cases he
  | cons e' l ih =>
    rw [namesList]
    rcases List.mem_cons.1 he with rfl | he
    · have hentry : namesEntry e = names e.2 := by
        obtain ⟨name, t⟩ := e
        rw [namesEntry]
      omega
    · have := ih he
      omega

/-- A list that is searched is short enough. -/
theorem length_children_le {t : Tree α} {key : Int} (hkey : Inside key) :
    (t.hsh.children key).length ≤ names t :=
  (length_le_namesList _).trans (namesList_le hkey)

/-- A child that is found is smaller. -/
theorem names_find {t n : Tree α} {path : Bytes} (hkey : Inside (getKey path))
    (hf : DiskAnalyzer.hashFind t.hsh path = some n) : names n < names t := by
  obtain ⟨name, hmem⟩ := mem_of_listFind hf
  exact (names_lt_of_mem hmem).trans_le (namesList_le hkey)

variable {enc}

/-- A word with an info pointer, taken apart. -/
theorem infoIn_intro (i : Option α) (p : Ptr) (c : Addr) :
    cell c (.ptr p) * infoOwned enc i p ≤ infoIn enc i c := le_iSup_of_le p le_rfl

theorem infoIn_none (c : Addr) : infoIn enc none c = cell c (.ptr none) := by
  simp only [infoIn, infoOwned, mul_iSup, mul_one, iSup_iSup_eq_left]

theorem infoIn_some (a : α) (c : Addr) :
    infoIn enc (some a) c = ⨆ x, cell c (.ptr (some x)) * block x (enc a) := by
  simp only [infoIn, infoOwned, mul_iSup]
  rw [iSup_comm]
  simp only [iSup_iSup_eq_left]

/-- A new node is a trie with nothing in it. -/
theorem blankAt_le (n : Addr) : blankAt n ≤ treeAt enc DiskAnalyzer.treeInit n := by
  have hword (k : Nat) : (childAt (hshOf n) 0).add k = childAt (hshOf n) k := by
    simp only [childAt, Addr.add_add, Nat.add_zero]
  rw [blankAt, words_replicate, DiskAnalyzer.treeInit, treeAt_mk, infoIn_none, hashAt]
  simp only [Hash.empty, chainIn_nil, hword, mul_assoc]
  exact le_rfl

/-- `free` of an info pointer. -/
theorem freeInfo_spec (enc : α → List Word) (i : Option α) (c : Addr) {k : Unit → Code β}
    [hF : Frame P (infoIn enc i c) F] (hk : ∀ p, Triple (cell c (.ptr p) * F) (k ()) Q) :
    Triple P (loadPtr c >>= fun p => free p >>= k) Q := by
  rw [hF.eq]
  cases i with
  | none =>
    rw [infoIn_none]
    refine .loadPtr ?_
    simp only [free, pure_bind]
    exact hk none
  | some a =>
    simp only [infoIn_some, iSup_mul, Triple.iSup_iff]
    intro x
    refine .loadPtr ?_
    exact .free (enc a) (hk (some x))

theorem strndup_spec (s : Bytes) : Triple (1 : Owned) (strndup s) fun ret =>
    (⨆ _ : ret = none, 1) ⊔ ⨆ x, ⨆ _ : ret = some x, block x [.data (.str s)] := by
  unfold strndup
  refine .malloc ?_ fun x => ?_
  · exact .ret (le_sup_of_le_left (le_iSup_of_le rfl le_rfl))
  · rw [show List.replicate 1 (Val.undef : Word) = [.undef] from rfl, block_one]
    refine .store ?_
    refine .ret (le_sup_of_le_right (le_iSup_of_le x (le_iSup_of_le rfl (le_of_eq ?_))))
    rw [block_one, mul_one, mul_comm]

/-! ## Insertion -/

/-- The array accesses a path makes are inside. -/
def KeysInside (path : Bytes) : Prop := ∀ c ∈ components path, Inside (getKey c)

theorem KeysInside.head {path : Bytes} (h : KeysInside path) (hp : skipSlashes path ≠ []) :
    Inside (getKey (skipSlashes path)) := by
  rw [← getKey_component]
  exact h _ (by rw [components_of_ne hp]; exact List.mem_cons_self)

theorem KeysInside.tail {path : Bytes} (h : KeysInside path) (hp : skipSlashes path ≠ []) :
    KeysInside (afterComponent (skipSlashes path)) :=
  fun c hc => h c (by rw [components_of_ne hp]; exact List.mem_cons_of_mem _ hc)

/-- What an insertion leaves: the trie of the model, for some number of components that could be
made. The info is in it, where its pointer finds it; or it is still the caller's and a list node may
be lost. -/
def inserted (enc : α → List Word) (t : Tree α) (path : Bytes) (i : Option α) (p : Ptr) (tre : Addr)
    (ret : Int) : Owned :=
  ⨆ alloc, ⨆ _ : ret = (DiskAnalyzer.treeInsert t path i alloc).1,
    if ret = 0 then
      lent (infoOwned enc i p) (treeAt enc (DiskAnalyzer.treeInsert t path i alloc).2 tre)
    else
      treeAt enc (DiskAnalyzer.treeInsert t path i alloc).2 tre * (infoOwned enc i p * (1 ⊔ lost))

/-- A node without its hash. -/
def rootAt (enc : α → List Word) (i : Option α) (t : Addr) : Owned :=
  head t 1002 * infoIn enc i (infoOf t)

theorem treeAt_open (t : Tree α) (tre : Addr) :
    treeAt enc t tre = rootAt enc t.info tre * hashAt (treeAt enc) t.hsh (hshOf tre) := by
  cases t with
  | mk i h => exact treeAt_mk enc i h tre

/-- A child of a node, with what is around it. -/
theorem treeAt_child {i : Option α} {tre : Addr} {h : Hash (Tree α)} {K X : Owned}
    (hK : X * K ≤ hashAt (treeAt enc) h (hshOf tre)) :
    X * (K * rootAt enc i tre) ≤ treeAt enc (.mk i h) tre := by
  rw [treeAt_open]
  calc X * (K * rootAt enc i tre) = rootAt enc i tre * (X * K) := by ac_rfl
    _ ≤ _ := mul_le_mul' le_rfl hK

theorem names_treeInit : names (DiskAnalyzer.treeInit : Tree α) = 0 := by
  have hsum (n : Nat) : ((List.range n).map fun _ => 0).sum = 0 := by simp
  rw [DiskAnalyzer.treeInit, Hash.empty, names, namesHash]
  simp only [namesList, hsum]

/-- An insertion in a child is one in the whole trie. -/
theorem inserted_above {t n : Tree α} {path rest : Bytes} {i : Option α} {p : Ptr}
    {tre nxt : Addr} (h : ∀ alloc, ∃ alloc',
      (DiskAnalyzer.treeInsert t path i alloc').1 = (DiskAnalyzer.treeInsert n rest i alloc).1 ∧
      treeAt enc (DiskAnalyzer.treeInsert n rest i alloc).2 nxt * F ≤
        treeAt enc (DiskAnalyzer.treeInsert t path i alloc').2 tre) (ret : Int) :
    inserted enc n rest i p nxt ret * F ≤ inserted enc t path i p tre ret := by
  simp only [inserted, iSup_mul]
  refine iSup_le fun alloc => iSup_le fun hret => ?_
  obtain ⟨alloc', hsame, hle⟩ := h alloc
  refine le_iSup_of_le alloc' (le_iSup_of_le (hret.trans hsame.symm) ?_)
  split_ifs
  · exact lent_mul_le hle
  · refine le_trans (le_of_eq ?_) (mul_le_mul' hle le_rfl)
    ac_rfl

/-- An insertion that stops at this node. -/
theorem inserted_refused {t : Tree α} {path : Bytes} (hp : skipSlashes path ≠ [])
    (hf : DiskAnalyzer.hashFind t.hsh (skipSlashes path) = none) (i : Option α) (p : Ptr)
    (tre : Addr) {X : Owned} (hX : X ≤ 1 ⊔ lost) :
    treeAt enc t tre * infoOwned enc i p * X ≤ inserted enc t path i p tre 1 := by
  have hins : DiskAnalyzer.treeInsert t path i (some 0) = (1, t) := by
    rw [treeInsert_of_ne hp, hf, if_pos rfl]
  refine le_iSup_of_le (some 0) (le_iSup_of_le (by rw [hins]) ?_)
  rw [if_neg one_ne_zero, hins, mul_assoc]
  exact mul_le_mul' le_rfl (mul_le_mul' le_rfl hX)

/-- **`tree_insert`** inserts as the model does. -/
theorem treeInsert_spec (i : Option α) (info : Ptr) (fuel : Nat) :
    ∀ (t : Tree α) (path : Bytes) (tre : Addr), t.Good → KeysInside path →
      names t + path.length < fuel →
        Triple (treeAt enc t tre * infoOwned enc i info) (treeInsert fuel tre path info)
          (inserted enc t path i info tre) := by
  induction fuel with
  | zero => exact fun _ _ _ _ _ hf => absurd hf (Nat.not_lt_zero _)
  | succ fuel ih =>
    intro t path tre hg hkeys hfuel
    by_cases hp : skipSlashes path = []
    · rw [treeInsert, if_pos hp, treeAt_open, rootAt]
      refine freeInfo_spec enc t.info (infoOf tre) fun p => ?_
      refine .store ?_
      refine .ret (le_iSup_of_le none (le_iSup_of_le ?_ ?_))
      · rw [treeInsert_of_nil hp]
      · rw [treeInsert_of_nil hp, if_pos rfl]
        have hput : infoOwned enc i info * (head tre 1002 * cell (infoOf tre) (.ptr info) *
            hashAt (treeAt enc) t.hsh (hshOf tre)) ≤ treeAt enc (.mk i t.hsh) tre := by
          rw [treeAt_mk]
          refine le_trans (le_of_eq ?_)
            (mul_le_mul' (mul_le_mul' le_rfl (infoIn_intro i info _)) le_rfl)
          ac_rfl
        exact le_trans (le_of_eq (by ac_rfl)) (le_lent hput)
    have hlen := length_afterComponent_lt hp
    have hkey := hkeys.head hp
    have hshort := length_children_le (t := t) hkey
    rw [treeInsert, if_neg hp, treeAt_open]
    refine .call (hashFind_spec (T := treeAt enc) hkey t.hsh (hshOf tre) (by omega)) fun ret => ?_
    cases hf : DiskAnalyzer.hashFind t.hsh (skipSlashes path) with
    | some n =>
      have hsmall := names_find hkey hf
      simp only [foundIn, iSup_mul, Triple.iSup_iff]
      rintro nxt rfl K hK
      refine .last (ih n _ nxt (hg.child hf) (hkeys.tail hp) (by omega)) fun ret => ?_
      refine inserted_above (fun alloc => ?_) ret
      refine ⟨alloc, ?_⟩
      rw [Tree.treeInsert_found hp hf]
      exact ⟨rfl, treeAt_child (hK _)⟩
    | none =>
      have hname := goodName_component hp
      have hself : nameMatches (component (skipSlashes path)) (component (skipSlashes path)) = true :=
        (nameMatches_iff hname _).2 (component_self hname.2).symm
      have hkey' : Inside (getKey (component (skipSlashes path))) := by rwa [getKey_component]
      have hnone : DiskAnalyzer.hashFind t.hsh (component (skipSlashes path)) = none := by
        rwa [hashFind_component hg.hsh]
      have hshort' := length_children_le (t := t) hkey'
      simp only [foundIn, iSup_mul, Triple.iSup_iff]
      rintro rfl
      refine .call (strndup_spec (component (skipSlashes path))) fun s => ?_
      simp only [Quantale.sup_mul_distrib, iSup_mul, Triple.sup_iff, Triple.iSup_iff]
      constructor
      · rintro rfl
        refine .ret (le_trans (le_of_eq ?_) (inserted_refused hp hf i info tre le_sup_left))
        rw [treeAt_open]
        ac_rfl
      · rintro s rfl
        refine .call (hashInsert_spec (T := treeAt enc) hkey' hself blankAt_le t.hsh hnone
          (hshOf tre) s (by omega)) fun ret => ?_
        rw [pushedIn, Quantale.sup_mul_distrib, Triple.sup_iff]
        simp only [foundIn, iSup_mul, Triple.iSup_iff]
        constructor
        · rintro rfl
          refine .free [.data (.str (component (skipSlashes path)))] ?_
          refine .ret (le_trans (le_of_eq ?_) (inserted_refused hp hf i info tre le_rfl))
          rw [treeAt_open]
          ac_rfl
        · rintro nxt rfl K hK
          refine .last (ih _ _ nxt Tree.good_treeInit (hkeys.tail hp)
            (by rw [names_treeInit]; omega)) fun ret => ?_
          refine inserted_above (fun alloc => ⟨alloc.map Nat.succ, ?_⟩) ret
          have hmap : (alloc.map Nat.succ).map Nat.pred = alloc := by cases alloc <;> rfl
          rw [Tree.treeInsert_new hp hnone hf i (by cases alloc <;> simp), hmap]
          exact ⟨rfl, treeAt_child (hK _)⟩

/-! ## Lookup -/

/-- A child that a lookup found, given back as it was. -/
theorem treeAt_same {t n : Tree α} {tre nxt : Addr} {K : Owned} {path : Bytes}
    (hf : DiskAnalyzer.hashFind t.hsh path = some n)
    (hK : treeAt enc n nxt * K ≤ hashAt (treeAt enc) (hashSet t.hsh path n) (hshOf tre)) :
    treeAt enc n nxt * (K * rootAt enc t.info tre) ≤ treeAt enc t tre := by
  have hset : t.setChild path n = t := Tree.setChild_self hf
  rw [← hset]
  exact treeAt_child hK

variable (enc) in
/-- What a pointer to a node owns. -/
def nodeOwned : Option (Tree α) → Ptr → Owned
  | none, p => ⨆ _ : p = none, 1
  | some n, p => ⨆ x, ⨆ _ : p = some x, treeAt enc n x

/-- **`tree_get_path`** finds the node the model finds, and changes nothing. -/
theorem treeGetPath_spec (fuel : Nat) : ∀ (t : Tree α) (path : Bytes) (tre : Addr),
    KeysInside path → names t + path.length < fuel →
      Triple (treeAt enc t tre) (treeGetPath fuel tre path) fun ret =>
        lent (nodeOwned enc (DiskAnalyzer.treeGetPath t path) ret) (treeAt enc t tre) := by
  induction fuel with
  | zero => exact fun _ _ _ _ hf => absurd hf (Nat.not_lt_zero _)
  | succ fuel ih =>
    intro t path tre hkeys hfuel
    by_cases hp : skipSlashes path = []
    · rw [treeGetPath, if_pos hp, DiskAnalyzer.treeGetPath, dif_pos hp]
      have hself : treeAt enc t tre ≤ nodeOwned enc (some t) (some tre) * 1 := by
        rw [mul_one]
        exact le_iSup_of_le tre (le_iSup_of_le rfl le_rfl)
      refine .ret (hself.trans (le_lent ?_))
      rw [mul_one]
      simp only [nodeOwned, Option.some.injEq, iSup_le_iff]
      rintro x rfl
      exact le_rfl
    have hlen := length_afterComponent_lt hp
    have hkey := hkeys.head hp
    have hshort := length_children_le (t := t) hkey
    rw [treeGetPath, if_neg hp, treeGetPath_of_ne hp]
    refine Triple.pre ?_ (treeAt_open t tre).le
    refine .call (hashFind_spec (T := treeAt enc) hkey t.hsh (hshOf tre) (by omega)) fun ret => ?_
    cases hf : DiskAnalyzer.hashFind t.hsh (skipSlashes path) with
    | some n =>
      have hsmall := names_find hkey hf
      simp only [foundIn, iSup_mul, Triple.iSup_iff]
      rintro nxt rfl K hK
      refine .last (ih n _ nxt (hkeys.tail hp) (by omega)) fun ret => lent_mul_le ?_
      exact treeAt_same hf (hK n)
    | none =>
      simp only [foundIn, iSup_mul, Triple.iSup_iff]
      rintro rfl
      refine .ret (le_trans ?_ (le_lent (P := nodeOwned enc none none) (K := treeAt enc t tre) ?_))
      · rw [treeAt_open]
        simp only [nodeOwned, iSup_pos, one_mul]
        exact (mul_comm _ _).le
      · simp [nodeOwned]

/-- Reading an info pointer: what it owns, and what is left of the node. -/
theorem loadInfo_spec (enc : α → List Word) (n : Tree α) {t : Addr} {k : Ptr → Code β}
    [hF : Frame P (treeAt enc n t) F]
    (hk : ∀ p K, infoOwned enc n.info p * K ≤ treeAt enc n t →
      Triple (infoOwned enc n.info p * K * F) (k p) Q) :
    Triple P (loadPtr (infoOf t) >>= k) Q := by
  rw [hF.eq]
  have hopen : treeAt enc n t = ⨆ p, infoOwned enc n.info p * (head t 1002 *
      cell (infoOf t) (.ptr p) * hashAt (treeAt enc) n.hsh (hshOf t)) := by
    rw [treeAt_open, rootAt, infoIn]
    simp only [mul_iSup, iSup_mul]
    exact iSup_congr fun p => by ac_rfl
  have hback := hopen.ge
  rw [hopen, iSup_mul, Triple.iSup_iff]
  intro p
  refine .loadPtr ((hk p _ ((le_iSup _ p).trans hback)).pre (le_of_eq ?_))
  ac_rfl

/-- An info pointer is `NULL`, or has its block. -/
theorem infoOwned_cases {i : Option α} {p : Ptr} {c : Code β}
    (hnone : i = none → p = none → Triple (infoOwned enc none none * F) c Q)
    (hsome : ∀ a x, i = some a → p = some x → Triple (infoOwned enc i p * F) c Q) :
    Triple (infoOwned enc i p * F) c Q := by
  cases i with
  | none =>
    rw [infoOwned]
    simp only [iSup_mul, Triple.iSup_iff]
    rintro rfl
    exact (hnone rfl rfl).pre (by simp [infoOwned])
  | some a =>
    refine Triple.pre (P := ⨆ x, ⨆ _ : p = some x, infoOwned enc (some a) p * F) ?_ ?_
    · simp only [Triple.iSup_iff]
      exact fun x hx => hsome a x rfl hx
    · simp only [infoOwned, iSup_mul]
      refine iSup_le fun x => iSup_le fun hx => le_iSup_of_le x (le_iSup_of_le hx ?_)
      exact le_iSup_of_le x (le_iSup_of_le hx le_rfl)

/-- Nothing is found, and nothing changes. -/
theorem le_lent_none (W : Owned) : W ≤ lent (infoOwned enc none none) W := by
  have h : infoOwned enc none none * W = W := by simp [infoOwned]
  exact h.ge.trans (le_lent h.le)

theorem treeFindPrefixLoop_spec (fuel : Nat) : ∀ (t : Tree α) (path : Bytes) (tre : Addr),
    KeysInside path → names t + path.length < fuel →
      Triple (treeAt enc t tre) (treeFindPrefixLoop fuel tre path) fun ret =>
        lent (infoOwned enc (DiskAnalyzer.treeFindPrefixLoop t path) ret) (treeAt enc t tre) := by
  induction fuel with
  | zero => exact fun _ _ _ _ hf => absurd hf (Nat.not_lt_zero _)
  | succ fuel ih =>
    intro t path tre hkeys hfuel
    by_cases hp : skipSlashes path = []
    · rw [treeFindPrefixLoop, if_pos hp, treeFindPrefixLoop_of_nil hp]
      exact .ret (le_lent_none _)
    have hlen := length_afterComponent_lt hp
    have hkey := hkeys.head hp
    have hshort := length_children_le (t := t) hkey
    rw [treeFindPrefixLoop, if_neg hp, treeFindPrefixLoop_of_ne hp]
    refine Triple.pre ?_ (treeAt_open t tre).le
    refine .call (hashFind_spec (T := treeAt enc) hkey t.hsh (hshOf tre) (by omega)) fun ret => ?_
    cases hf : DiskAnalyzer.hashFind t.hsh (skipSlashes path) with
    | none =>
      simp only [foundIn, iSup_mul, Triple.iSup_iff]
      rintro rfl
      refine .ret (le_trans (le_of_eq ?_) (le_lent_none _))
      rw [treeAt_open]
      exact mul_comm _ _
    | some n =>
      have hsmall := names_find hkey hf
      simp only [foundIn, iSup_mul, Triple.iSup_iff]
      rintro nxt rfl K hK
      refine loadInfo_spec enc n fun p K' hK' => ?_
      have hback := treeAt_same hf (hK n)
      rw [mul_assoc]
      refine infoOwned_cases (fun hi hq => ?_) fun a x hi hq => ?_
      · subst hq
        rw [hi] at hK' ⊢
        have hnode : infoOwned enc none none * (K' * (K * rootAt enc t.info tre)) ≤
            treeAt enc n nxt * (K * rootAt enc t.info tre) := by
          rw [← mul_assoc]
          exact mul_le_mul' hK' le_rfl
        refine Triple.pre ?_ hnode
        exact .last (ih n _ nxt (hkeys.tail hp) (by omega)) fun ret => lent_mul_le hback
      · subst hq
        rw [hi] at hK' ⊢
        refine .ret ?_
        rw [← mul_assoc]
        exact (mul_le_mul' (le_lent hK') le_rfl).trans (lent_mul_le hback)

/-- **`tree_find_prefix`** finds the info the model finds, and changes nothing. -/
theorem treeFindPrefix_spec {t : Tree α} {path : Bytes} (tre : Addr) (hkeys : KeysInside path)
    {fuel : Nat} (hfuel : names t + path.length < fuel) :
    Triple (treeAt enc t tre) (treeFindPrefix fuel tre path) fun ret =>
      lent (infoOwned enc (DiskAnalyzer.treeFindPrefix t path) ret) (treeAt enc t tre) := by
  rw [treeFindPrefix, DiskAnalyzer.treeFindPrefix]
  refine loadInfo_spec enc t fun p K hK => ?_
  rw [mul_assoc]
  refine infoOwned_cases (fun hi hq => ?_) fun a x hi hq => ?_
  · subst hq
    rw [hi] at hK ⊢
    rw [mul_one]
    exact (treeFindPrefixLoop_spec fuel t path tre hkeys hfuel).pre hK
  · subst hq
    rw [hi] at hK ⊢
    rw [mul_one]
    exact .ret (le_lent hK)

/-! ## Removal -/

theorem length_listSet {γ : Type} (l : List (Bytes × γ)) (path : Bytes) (b : γ) :
    (listSet l path b).length = l.length := by
  induction l with
  | nil => rfl
  | cons e l ih =>
    obtain ⟨name, b'⟩ := e
    rw [listSet]
    split_ifs <;> simp [ih]

theorem length_children_hashSet {γ : Type} (h : Hash γ) (path : Bytes) (b : γ) (k : Int) :
    ((hashSet h path b).children k).length = (h.children k).length := by
  rw [children_hashSet]
  split_ifs
  · exact length_listSet _ _ _
  · rfl

/-- Reading the size of a hash. -/
theorem loadSize_spec {γ δ : Type} {Q : δ → Owned} (T : γ → Addr → Owned) (h : Hash γ) {a : Addr}
    {k : Int → Code δ} [hF : Frame P (hashAt T h a) F]
    (hk : Triple (hashAt T h a * F) (k h.size) Q) : Triple P (loadInt (sizeOf a) >>= k) Q := by
  rw [hashAt] at hk hF
  rw [hF.eq]
  exact loadInt_spec hk

/-- The case of `tree_remove` in which the path has ended. -/
theorem treeRemove_here {path : Bytes} (hp : skipSlashes path = []) (t : Tree α) (tre : Addr)
    (fuel : Nat) :
    Triple (treeAt enc t tre) (treeRemove (fuel + 1) tre path) fun ret =>
      ⨆ _ : ret = (DiskAnalyzer.treeRemove t path).1,
        treeAt enc (DiskAnalyzer.treeRemove t path).2 tre := by
  rw [treeRemove, if_pos hp, treeRemove_of_nil hp]
  have hopen : treeAt enc t tre = rootAt enc t.info tre * hashAt (treeAt enc) t.hsh (hshOf tre) :=
    treeAt_open t tre
  cases hi : t.info with
  | none =>
    rw [hi, rootAt, infoIn_none] at hopen
    rw [hopen]
    refine .loadPtr ?_
    exact .ret (le_iSup_of_le rfl le_rfl)
  | some a =>
    rw [hi, rootAt, infoIn_some] at hopen
    rw [hopen]
    simp only [mul_iSup, iSup_mul, Triple.iSup_iff]
    intro x
    refine .loadPtr ?_
    refine .free (enc a) ?_
    refine .store ?_
    refine .ret (le_iSup_of_le rfl (le_of_eq ?_))
    simp only [treeAt_mk, infoIn_none]
    ac_rfl

/-- The end of `tree_remove`, on the way back. -/
theorem pruned_spec {t n' : Tree α} {path : Bytes} {tre nxt : Addr} {K : Owned} {fuel : Nat}
    (hg : t.Good)
    (hK : ∀ b', treeAt enc b' nxt * K ≤
      hashAt (treeAt enc) (hashSet t.hsh (skipSlashes path) b') (hshOf tre))
    (hfuel : names t < fuel) :
    Triple (treeAt enc n' nxt * (K * rootAt enc t.info tre))
      (do
        let info ← loadPtr (infoOf nxt)
        let size ← loadInt (sizeOf (hshOf nxt))
        if info = none ∧ size = 0 then
          let _ ← hashRemove fuel (hshOf tre) (afterComponent (skipSlashes path))
          return 0
        else return 0)
      fun ret : Int => ⨆ _ : ret = 0, treeAt enc (t.setChild (skipSlashes path) n') tre := by
  have hback (p : Ptr) : hashAt (treeAt enc) n'.hsh (hshOf nxt) * (head nxt 1002 *
      (cell (infoOf nxt) (.ptr p) * infoOwned enc n'.info p) * (K * rootAt enc t.info tre)) ≤
      hashAt (treeAt enc) (hashSet t.hsh (skipSlashes path) n') (hshOf tre) *
        rootAt enc t.info tre := by
    have hnode : head nxt 1002 * (cell (infoOf nxt) (.ptr p) * infoOwned enc n'.info p) *
        hashAt (treeAt enc) n'.hsh (hshOf nxt) ≤ treeAt enc n' nxt := by
      rw [treeAt_open, rootAt]
      exact mul_le_mul' (mul_le_mul' le_rfl (infoIn_intro _ _ _)) le_rfl
    refine le_trans (le_of_eq ?_) (mul_le_mul' ((mul_le_mul' hnode le_rfl).trans (hK n')) le_rfl)
    ac_rfl
  have hdone : hashAt (treeAt enc) (hashSet t.hsh (skipSlashes path) n') (hshOf tre) *
      rootAt enc t.info tre ≤ treeAt enc (t.setChild (skipSlashes path) n') tre := by
    rw [treeAt_open, mul_comm]
    exact le_rfl
  rw [treeAt_open n', rootAt, infoIn]
  simp only [mul_iSup, iSup_mul, Triple.iSup_iff]
  intro p
  refine .loadPtr ?_
  refine loadSize_spec (treeAt enc) n'.hsh ?_
  refine Triple.pre ?_ (le_trans (le_of_eq (by ac_rfl)) (hback p))
  split_ifs
  · have hrest : component (afterComponent (skipSlashes path)) = [] := by
      cases hq : afterComponent (skipSlashes path) with
      | nil => rfl
      | cons b q => simp [component, afterComponent_head hq]
    refine .call (hashRemove_spec (T := treeAt enc) hrest (good_hashSet hg.hsh (skipSlashes path) n') _ ?_)
      fun ret => ?_
    · have hzero : (t.hsh.children 0).length ≤ names t :=
        length_children_le ⟨le_rfl, by decide⟩
      rw [length_children_hashSet]
      omega
    · simp only [iSup_mul, Triple.iSup_iff]
      rintro rfl
      exact .ret (le_iSup_of_le rfl hdone)
  · exact .ret (le_iSup_of_le rfl hdone)

/-- **`tree_remove`** removes as the model does: the nodes stay. -/
theorem treeRemove_spec (fuel : Nat) : ∀ (t : Tree α) (path : Bytes) (tre : Addr), t.Good →
    KeysInside path → names t + path.length < fuel →
      Triple (treeAt enc t tre) (treeRemove fuel tre path) fun ret =>
        ⨆ _ : ret = (DiskAnalyzer.treeRemove t path).1,
          treeAt enc (DiskAnalyzer.treeRemove t path).2 tre := by
  induction fuel with
  | zero => exact fun _ _ _ _ _ hf => absurd hf (Nat.not_lt_zero _)
  | succ fuel ih =>
    intro t path tre hg hkeys hfuel
    by_cases hp : skipSlashes path = []
    · exact treeRemove_here hp t tre fuel
    have hlen := length_afterComponent_lt hp
    have hkey := hkeys.head hp
    have hshort := length_children_le (t := t) hkey
    rw [treeRemove, if_neg hp]
    refine Triple.pre ?_ (treeAt_open t tre).le
    refine .call (hashFind_spec (T := treeAt enc) hkey t.hsh (hshOf tre) (by omega)) fun ret => ?_
    cases hf : DiskAnalyzer.hashFind t.hsh (skipSlashes path) with
    | none =>
      simp only [foundIn, iSup_mul, Triple.iSup_iff]
      rintro rfl
      rw [treeRemove_of_ne hp, hf]
      refine .ret (le_iSup_of_le rfl ?_)
      rw [treeAt_open]
      exact (mul_comm _ _).le
    | some n =>
      have hsmall := names_find hkey hf
      simp only [foundIn, iSup_mul, Triple.iSup_iff]
      rintro nxt rfl K hK
      refine .call (ih n _ nxt (hg.child hf) (hkeys.tail hp) (by omega)) fun ret => ?_
      simp only [iSup_mul, Triple.iSup_iff]
      rintro rfl
      rw [Tree.treeRemove_child hg hp hf]
      obtain ⟨-, hfail, -, -⟩ := Tree.remove_spec (hg.child hf) (afterComponent (skipSlashes path))
      by_cases hret : (DiskAnalyzer.treeRemove n (afterComponent (skipSlashes path))).1 ≠ 0
      · rw [if_pos hret, if_pos hret, hfail hret]
        exact .ret (le_iSup_of_le rfl (treeAt_same hf (hK n)))
      · rw [if_neg hret, if_neg hret]
        refine pruned_spec hg hK ?_
        omega

/-! ## Clearing -/

/-- A loop that does its body's work at each element of an array. -/
theorem forWords_spec {A B : Nat → Owned} {f : Nat → Code Unit} (n : Nat) : ∀ i : Nat,
    (∀ k, k < n → Triple (A (i + k)) (f (i + k)) fun _ => B (i + k)) →
      Triple (∏ k ∈ Finset.range n, A (i + k)) (forWords n i f)
        fun _ => ∏ k ∈ Finset.range n, B (i + k) := by
  induction n with
  | zero => exact fun i _ => .ret le_rfl
  | succ n ih =>
    intro i hbody
    have hshift (X : Nat → Owned) : ∏ k ∈ Finset.range (n + 1), X (i + k) =
        X i * ∏ k ∈ Finset.range n, X (i + 1 + k) := by
      rw [Finset.prod_range_succ', mul_comm]
      simp only [Nat.add_zero, Nat.add_assoc, Nat.add_comm 1]
    rw [hshift, hshift, forWords]
    refine .call (hbody 0 (by omega)) fun _ => ?_
    refine .last (ih (i + 1) fun k hk => ?_) fun _ => (mul_comm _ _).le
    have h := hbody (k + 1) (by omega)
    rwa [show i + (k + 1) = i + 1 + k by omega] at h

/-- The loop of `hash_clear`. -/
theorem clearLists_spec {γ : Type} {T : γ → Addr → Owned} {h : Hash γ} {a : Addr} {fuel : Nat}
    (hlist : ∀ k : Nat, k < 1000 → Triple (chainIn T (h.children k) (childAt a k))
      (listClear fuel (childAt a k)) fun _ => cell (childAt a k) (.ptr none)) :
    Triple (∏ k ∈ Finset.range 1000, chainIn T (h.children k) (childAt a k))
      (forWords 1000 0 fun i => listClear fuel (childAt a i))
      fun _ => words (childAt a 0) (List.replicate 1000 (.ptr none)) := by
  have hloop := forWords_spec (A := fun k => chainIn T (h.children k) (childAt a k))
    (B := fun k => cell (childAt a k) (.ptr none)) (f := fun i => listClear fuel (childAt a i))
    1000 0 fun k hk => by
      rw [Nat.zero_add]
      exact hlist k hk
  have hword (k : Nat) : (childAt a 0).add k = childAt a k := by
    simp only [childAt, Addr.add_add, Nat.add_zero]
  simp only [Nat.zero_add] at hloop
  rw [words_replicate]
  simp only [hword]
  exact hloop

/-- `list_clear` and `tree_clear`, with the bounds each needs. -/
theorem clear_spec (fuel : Nat) :
    (∀ (l : List (Bytes × Tree α)) (c : Addr), 2 * namesList l < fuel →
      Triple (chainIn (treeAt enc) l c) (listClear fuel c) fun _ => cell c (.ptr none)) ∧
    ∀ (t : Tree α) (c : Addr) (tre : Addr), 2 * names t + 1 < fuel →
      Triple (cell c (.ptr (some tre)) * treeAt enc t tre) (treeClear fuel c)
        fun _ => cell c (.ptr (some tre)) := by
  induction fuel with
  | zero => exact ⟨fun _ _ h => absurd h (Nat.not_lt_zero _), fun _ _ _ h => absurd h (by omega)⟩
  | succ fuel ih =>
    constructor
    · intro l c hfuel
      rw [listClear]
      cases l with
      | nil =>
        rw [chainIn_nil]
        refine .loadPtr ?_
        exact .ret le_rfl
      | cons e l =>
        obtain ⟨name, t⟩ := e
        have hnames : namesList ((name, t) :: l) = names t + namesList l + 1 := by
          rw [namesList, namesEntry]
        rw [chainIn_cons, Triple.iSup_iff]
        intro x
        rw [mul_left_comm]
        refine linkAt_cases fun s n => ?_
        rw [chainIn_open _ l]
        simp only [mul_iSup, Triple.iSup_iff]
        intro p
        refine .loadPtr ?_
        refine .loadPtr ?_
        refine .store ?_
        refine .call (ih.2 t (nodeOf x) n (by omega)) fun _ => ?_
        refine .loadPtr ?_
        refine free_one ?_
        refine .free [.ptr (some s), .ptr (some n), .ptr p] ?_
        refine (ih.1 l c (by omega)).pre ?_
        rw [chainIn_open _ l]
        exact le_iSup_of_le p (le_of_eq (by ac_rfl))
    · intro t c tre hfuel
      rw [treeClear, treeAt_open, rootAt]
      refine .loadPtr ?_
      simp only [Triple.deref_some, pure_bind]
      refine freeInfo_spec enc t.info (infoOf tre) fun p => ?_
      refine .store ?_
      rw [hashAt]
      refine .call (clearLists_spec (T := treeAt enc) (h := t.hsh) fun k hk => ih.1 _ _ ?_)
        fun _ => ?_
      · have hle : namesList (t.hsh.children k) ≤ names t :=
          namesList_le ⟨by omega, show (k : Int) < 1000 by omega⟩
        omega
      refine .store ?_
      refine .loadPtr ?_
      have hfree := Triple.free_last tre
        (.ptr none :: int 0 :: List.replicate 1000 (.ptr none) : List Word)
      rw [block_tree tre _ _ List.length_replicate] at hfree
      refine ((hfree.frame (cell c (.ptr (some tre)))).pre (le_of_eq ?_)).post fun _ => ?_
      · ac_rfl
      · rw [one_mul]

/-- **`tree_clear`** frees every node, every list node, every name and every info. -/
theorem treeClear_spec (t : Tree α) (c tre : Addr) {fuel : Nat} (hfuel : 2 * names t + 1 < fuel) :
    Triple (cell c (.ptr (some tre)) * treeAt enc t tre) (treeClear fuel c)
      fun _ => cell c (.ptr (some tre)) :=
  (clear_spec fuel).2 t c tre hfuel

/-! ## Sizes -/

theorem sum_range_replace {f g : Nat → Nat} {k : Nat} (hsame : ∀ j, j ≠ k → f j = g j) (n : Nat)
    (hk : k < n) :
    ((List.range n).map f).sum + g k = ((List.range n).map g).sum + f k := by
  induction n with
  | zero => exact absurd hk (Nat.not_lt_zero k)
  | succ n ih =>
    simp only [List.range_succ, List.map_append, List.sum_append, List.map_cons, List.map_nil,
      List.sum_cons, List.sum_nil]
    by_cases hn : k = n
    · subst hn
      have hrest : (List.range k).map f = (List.range k).map g :=
        List.map_congr_left fun j hj => hsame j (List.mem_range.1 hj).ne
      rw [hrest]
      omega
    · have hlt := ih (by omega)
      rw [hsame n fun h => hn h.symm]
      omega

/-- One list changes. -/
theorem names_update {i j : Option α} {h : Hash (Tree α)} {key s : Int} (hkey : Inside key)
    (l : List (Bytes × Tree α)) :
    names (.mk j ⟨s, Function.update h.children key l⟩) + namesList (h.children key) =
      names (.mk i h) + namesList l := by
  obtain ⟨hmem, hcast⟩ := mem_range_of_inside hkey
  obtain ⟨size, children⟩ := h
  have hsum := sum_range_replace (f := fun k : Nat => namesList (Function.update children key l k))
    (g := fun k : Nat => namesList (children k)) (k := key.toNat) (fun j hj => by
      rw [Function.update_of_ne fun he => hj (by omega)]) 1000 (Finset.mem_range.1 hmem)
  simp only [hcast, Function.update_self] at hsum
  rw [names, namesHash, names, namesHash]
  exact hsum

theorem namesList_set {l : List (Bytes × Tree α)} {path : Bytes} {n : Tree α}
    (hf : DiskAnalyzer.listFind l path = some n) (n' : Tree α) :
    namesList (listSet l path n') + names n = namesList l + names n' := by
  induction l with
  | nil => cases hf
  | cons e l ih =>
    obtain ⟨name, t⟩ := e
    rw [DiskAnalyzer.listFind] at hf
    rw [listSet]
    split_ifs at hf ⊢ with hm
    · obtain rfl : t = n := by simpa using hf
      simp only [namesList, namesEntry]
      omega
    · have := ih hf
      simp only [namesList, namesEntry]
      omega

theorem namesList_push (l : List (Bytes × Tree α)) (name : Bytes) (n : Tree α) :
    namesList (DiskAnalyzer.listPush l name n) = namesList l + names n + 1 := by
  induction l with
  | nil => simp only [DiskAnalyzer.listPush, namesList, namesEntry]; omega
  | cons e l ih => simp only [DiskAnalyzer.listPush, namesList, ih]; omega

theorem names_setChild {t n : Tree α} {path : Bytes} (hkey : Inside (getKey path))
    (hf : DiskAnalyzer.hashFind t.hsh path = some n) (n' : Tree α) :
    names (t.setChild path n') + names n = names t + names n' := by
  have hupdate := names_update (i := t.info) (j := t.info) (h := t.hsh) (s := t.hsh.size) hkey
    (listSet (t.hsh.children (getKey path)) path n')
  have hset := namesList_set hf n'
  cases t with
  | mk i h =>
    simp only [Tree.info_mk, Tree.hsh_mk] at hupdate hset
    rw [Tree.setChild, hashSet]
    simp only [Tree.info_mk, Tree.hsh_mk]
    omega

theorem names_addChild {t : Tree α} {name : Bytes} (hn : nameMatches name name = true)
    (hkey : Inside (getKey name)) (hf : DiskAnalyzer.hashFind t.hsh name = none) (n' : Tree α) :
    names (.mk t.info (hashSet (DiskAnalyzer.hashInsert t.hsh name DiskAnalyzer.treeInit).1 name n'))
      = names t + names n' + 1 := by
  rw [hashInsert_of_none hf, hashSet]
  simp only [Function.update_self, Function.update_idem, listSet_push hn hf]
  have hupdate := names_update (i := t.info) (j := t.info) (h := t.hsh) (s := t.hsh.size + 1) hkey
    (DiskAnalyzer.listPush (t.hsh.children (getKey name)) name n')
  rw [namesList_push] at hupdate
  cases t with
  | mk i h =>
    simp only [Tree.info_mk, Tree.hsh_mk] at hupdate ⊢
    omega

/-- **An insertion makes at most one node for each character.** -/
theorem names_treeInsert_le {t : Tree α} (hg : t.Good) {path : Bytes} (hkeys : KeysInside path)
    (i : Option α) (alloc : Alloc) :
    names (DiskAnalyzer.treeInsert t path i alloc).2 ≤ names t + path.length := by
  induction path using components.induct generalizing t alloc with
  | case1 p hp =>
    rw [treeInsert_of_nil hp]
    cases t with
    | mk i' h => simp only [names, Tree.hsh_mk]; omega
  | case2 p hp hlen ih =>
    have hlen := length_afterComponent_lt hp
    have hkey := hkeys.head hp
    cases hf : DiskAnalyzer.hashFind t.hsh (skipSlashes p) with
    | some n =>
      have hbelow := ih (hg.child hf) (hkeys.tail hp) alloc
      have hset := names_setChild hkey hf
        (DiskAnalyzer.treeInsert n (afterComponent (skipSlashes p)) i alloc).2
      rw [Tree.treeInsert_found hp hf]
      simp only
      omega
    | none =>
      by_cases ha : alloc = some 0
      · rw [treeInsert_of_ne hp, hf]
        simp [ha]
      · have hname := goodName_component hp
        have hnone : DiskAnalyzer.hashFind t.hsh (component (skipSlashes p)) = none := by
          rwa [hashFind_component hg.hsh]
        have hbelow := ih Tree.good_treeInit (hkeys.tail hp) (alloc.map Nat.pred)
        rw [names_treeInit] at hbelow
        rw [Tree.treeInsert_new hp hnone hf i ha]
        simp only
        rw [names_addChild ((nameMatches_iff hname _).2 (component_self hname.2).symm)
          (by rwa [getKey_component]) hnone]
        omega

/-- **A removal leaves every node where it is.** -/
theorem names_treeRemove {t : Tree α} (hg : t.Good) {path : Bytes} (hkeys : KeysInside path) :
    names (DiskAnalyzer.treeRemove t path).2 = names t := by
  induction path using components.induct generalizing t with
  | case1 p hp =>
    rw [treeRemove_of_nil hp]
    cases t with
    | mk i h => cases i <;> rfl
  | case2 p hp hlen ih =>
    cases hf : DiskAnalyzer.hashFind t.hsh (skipSlashes p) with
    | none => rw [treeRemove_of_ne hp, hf]
    | some n =>
      have hset := names_setChild (hkeys.head hp) hf
        (DiskAnalyzer.treeRemove n (afterComponent (skipSlashes p))).2
      rw [ih (hg.child hf) (hkeys.tail hp)] at hset
      rw [Tree.treeRemove_child hg hp hf]
      split_ifs
      · rfl
      · simp only
        omega

end Tries

end DiskAnalyzer.Memory
