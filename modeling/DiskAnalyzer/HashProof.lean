import DiskAnalyzer.Hash
import DiskAnalyzer.Lib.Decimal
import Mathlib.Data.List.Perm.Basic
import Mathlib.Data.List.Nodup

/-!
# `hash.c`: a hash as the list of its children

`hashOf` spreads a list of named children over the buckets, keeping their order in each. A hash
that has only been inserted into and written through holds the children inserted, in that order
(`Hash.Holds`). Reading the buckets one after the other (`Hash.entries`) gives another list of
the same children, and the hash of that list is the hash itself (`hashOf_entries`): a file that
lists the buckets says everything about a hash.
-/

namespace DiskAnalyzer

variable {β : Type}

/-- A name that a hash and a file can hold: a component with a bucket, and a C string whose buffer's
size is an `int`. -/
structure NameOk (n : Bytes) : Prop where
  good : GoodName n
  zero_le_key : 0 ≤ getKey n
  key_lt : getKey n < HASH_MOD
  noNul : 0 ∉ n
  short : n.length + 1 < 2 ^ 31

instance (n : Bytes) : Decidable (NameOk n) :=
  decidable_of_iff
    (GoodName n ∧ 0 ≤ getKey n ∧ getKey n < HASH_MOD ∧ 0 ∉ n ∧ n.length + 1 < 2 ^ 31)
    ⟨fun h => ⟨h.1, h.2.1, h.2.2.1, h.2.2.2.1, h.2.2.2.2⟩,
      fun h => ⟨h.good, h.zero_le_key, h.key_lt, h.noNul, h.short⟩⟩

/-- The hash with these children. -/
def hashOf (l : List (Bytes × β)) : Hash β := ⟨l.length, fun k => l.filter (getKey ·.1 = k)⟩

/-- One child, in the bucket of its name. -/
theorem hashOf_single (name : Bytes) (child : β) (size : Int) (hsize : size = 1) :
    (⟨size, Function.update (fun _ => []) (getKey name) [(name, child)]⟩ : Hash β) =
      hashOf [(name, child)] := by
  rw [hashOf, hsize, List.length_singleton]
  congr 1
  funext k
  rw [Function.update_apply, List.filter_singleton]
  by_cases hk : k = getKey name
  · rw [if_pos hk, decide_eq_true hk.symm]
    rfl
  · rw [if_neg hk, decide_eq_false (Ne.symm hk)]
    rfl

namespace Hash

/-- The children in a hash, in the order of their insertion. -/
structure Holds (h : Hash β) (l : List (Bytes × β)) : Prop where
  eq : h = hashOf l
  names : (l.map Prod.fst).Nodup
  nameOk : ∀ e ∈ l, NameOk e.1

/-- The children, bucket by bucket. -/
def entries (h : Hash β) : List (Bytes × β) :=
  (List.range HASH_MOD.toNat).flatMap fun i : Nat => h.children i

theorem holds_empty : (empty : Hash β).Holds [] := ⟨rfl, List.nodup_nil, by simp⟩

theorem holds_single {name : Bytes} (hname : NameOk name) (child : β) :
    (hashOf [(name, child)]).Holds [(name, child)] :=
  ⟨rfl, List.nodup_singleton name, List.forall_mem_singleton.2 hname⟩

/-- The same without the bounds of keys and lengths: each name is one component. -/
structure Named (h : Hash β) (l : List (Bytes × β)) : Prop where
  eq : h = hashOf l
  names : (l.map Prod.fst).Nodup
  good : ∀ e ∈ l, GoodName e.1

theorem named_empty : (empty : Hash β).Named [] := ⟨rfl, List.nodup_nil, by simp⟩

theorem Holds.named {h : Hash β} {l : List (Bytes × β)} (hl : h.Holds l) : h.Named l :=
  ⟨hl.eq, hl.names, fun e he => (hl.nameOk e he).good⟩

theorem Named.goodHash {h : Hash β} {l : List (Bytes × β)} (hl : h.Named l) : h.Good := by
  obtain ⟨rfl, -, hs⟩ := hl
  intro k e he
  exact hs e (List.mem_of_mem_filter he)

theorem Holds.good {h : Hash β} {l : List (Bytes × β)} (hl : h.Holds l) : h.Good :=
  hl.named.goodHash

end Hash

open Hash

/-! ## Lookups and updates -/

/-- A chain is searched for the first child of that name. -/
theorem listFind_eq {chain : List (Bytes × β)} (hg : GoodChain chain) (path : Bytes) :
    listFind chain path = (chain.find? (·.1 = component path)).map Prod.snd := by
  induction chain with
  | nil => rfl
  | cons e next ih =>
    obtain ⟨name, node⟩ := e
    have hname : GoodName name := hg _ List.mem_cons_self
    rw [listFind, List.find?_cons]
    by_cases hm : name = component path
    · rw [if_pos ((nameMatches_iff hname path).2 hm), decide_eq_true hm]
      rfl
    · rw [if_neg fun h => hm ((nameMatches_iff hname path).1 h), decide_eq_false hm]
      exact ih hg.tail

theorem Hash.Named.find {h : Hash β} {l : List (Bytes × β)} (hl : h.Named l) (path : Bytes) :
    hashFind h path = (l.find? (·.1 = component path)).map Prod.snd := by
  rw [hashFind, listFind_eq (hl.goodHash _), hl.eq]
  dsimp only [hashOf]
  rw [List.find?_filter]
  congr 2
  funext e
  by_cases he : e.1 = component path
  · simp [he, getKey_component]
  · simp [he]

theorem Hash.Named.find_eq_none {h : Hash β} {l : List (Bytes × β)} (hl : h.Named l)
    {path : Bytes} : hashFind h path = none ↔ component path ∉ l.map Prod.fst := by
  rw [hl.find, Option.map_eq_none_iff, List.find?_eq_none]
  constructor
  · intro hall hmem
    obtain ⟨e, he, heq⟩ := List.mem_map.1 hmem
    exact hall e he (by simpa using heq)
  · intro hmem e he heq
    exact hmem (List.mem_map.2 ⟨e, he, by simpa using heq⟩)

theorem Hash.Named.mem_of_find {h : Hash β} {l : List (Bytes × β)} (hl : h.Named l) {path : Bytes}
    {x : β} (hx : hashFind h path = some x) : (component path, x) ∈ l := by
  rw [hl.find] at hx
  obtain ⟨e, he, rfl⟩ := Option.map_eq_some_iff.1 hx
  have hname : e.1 = component path := by simpa using List.find?_some he
  rw [← hname]
  exact List.mem_of_find?_eq_some he

theorem Hash.Named.insert {h : Hash β} {l : List (Bytes × β)} (hl : h.Named l) {name : Bytes}
    (hn : GoodName name) (hf : hashFind h name = none) (new : β) :
    (hashInsert h name new).1.Named (l ++ [(name, new)]) := by
  have hnew : name ∉ l.map Prod.fst := by
    have hmem := hl.find_eq_none.1 hf
    rwa [component_self hn.2] at hmem
  refine ⟨?_, ?_, ?_⟩
  · rw [hashInsert_of_none hf, hl.eq]
    rw [hashOf, hashOf, List.length_append, List.length_singleton, Int.natCast_add]
    dsimp only
    congr 1
    funext k
    rw [Function.update_apply, List.filter_append]
    by_cases hk : k = getKey name
    · subst hk
      simp [listPush_eq]
    · simp [hk, Ne.symm hk]
  · rw [List.map_append, List.nodup_append]
    refine ⟨hl.names, by simp, ?_⟩
    intro a ha b hb
    obtain rfl : b = name := by simpa using hb
    exact fun hab => hnew (hab ▸ ha)
  · intro e he
    rcases List.mem_append.1 he with he | he
    · exact hl.good e he
    · obtain rfl : e = (name, new) := by simpa using he
      exact hn

theorem Hash.Holds.find {h : Hash β} {l : List (Bytes × β)} (hl : h.Holds l) (path : Bytes) :
    hashFind h path = (l.find? (·.1 = component path)).map Prod.snd := hl.named.find path

theorem Hash.Holds.find_eq_none {h : Hash β} {l : List (Bytes × β)} (hl : h.Holds l)
    {path : Bytes} : hashFind h path = none ↔ component path ∉ l.map Prod.fst :=
  hl.named.find_eq_none

theorem Hash.Holds.mem_of_find {h : Hash β} {l : List (Bytes × β)} (hl : h.Holds l) {path : Bytes}
    {x : β} (hx : hashFind h path = some x) : (component path, x) ∈ l := hl.named.mem_of_find hx

theorem Hash.Holds.insert {h : Hash β} {l : List (Bytes × β)} (hl : h.Holds l) {name : Bytes}
    (hn : NameOk name) (hf : hashFind h name = none) (new : β) :
    (hashInsert h name new).1.Holds (l ++ [(name, new)]) := by
  obtain ⟨heq, hnames, -⟩ := hl.named.insert hn.good hf new
  refine ⟨heq, hnames, ?_⟩
  intro e he
  rcases List.mem_append.1 he with he | he
  · exact hl.nameOk e he
  · obtain rfl : e = (name, new) := by simpa using he
    exact hn

/-- Replacing the children of that name. -/
def replaceNamed (name : Bytes) (node : β) (l : List (Bytes × β)) : List (Bytes × β) :=
  l.map fun e => if e.1 = name then (e.1, node) else e

theorem names_replaceNamed (name : Bytes) (node : β) (l : List (Bytes × β)) :
    (replaceNamed name node l).map Prod.fst = l.map Prod.fst := by
  rw [replaceNamed, List.map_map]
  refine List.map_congr_left ?_
  intro e _
  simp only [Function.comp_apply]
  split_ifs <;> rfl

theorem replaceNamed_of_notMem {name : Bytes} {l : List (Bytes × β)} (h : name ∉ l.map Prod.fst)
    (node : β) : replaceNamed name node l = l := by
  rw [replaceNamed, List.map_congr_left (g := id)]
  · exact List.map_id l
  · intro e he
    rw [if_neg fun heq => h (List.mem_map.2 ⟨e, he, heq⟩)]
    rfl

/-- Replacing the child added last. -/
theorem replaceNamed_append {name : Bytes} {l : List (Bytes × β)} (h : name ∉ l.map Prod.fst)
    (new node : β) : replaceNamed name node (l ++ [(name, new)]) = l ++ [(name, node)] := by
  have hrest := replaceNamed_of_notMem h node
  rw [replaceNamed] at hrest ⊢
  rw [List.map_append, hrest]
  simp

theorem mem_replaceNamed {name : Bytes} {node : β} {l : List (Bytes × β)} {e : Bytes × β}
    (h : e ∈ replaceNamed name node l) : e ∈ l ∨ e = (name, node) := by
  obtain ⟨e', he', rfl⟩ := List.mem_map.1 h
  split_ifs with hname
  · exact Or.inr (by rw [hname])
  · exact Or.inl he'

theorem listSet_eq {chain : List (Bytes × β)} (hg : GoodChain chain)
    (hnames : (chain.map Prod.fst).Nodup) (path : Bytes) (node : β) :
    listSet chain path node = replaceNamed (component path) node chain := by
  induction chain with
  | nil => rfl
  | cons e next ih =>
    obtain ⟨name, node'⟩ := e
    have hname : GoodName name := hg _ List.mem_cons_self
    rw [List.map_cons, List.nodup_cons] at hnames
    rw [listSet, replaceNamed, List.map_cons]
    by_cases hm : name = component path
    · rw [if_pos ((nameMatches_iff hname path).2 hm), if_pos hm]
      have hrest := replaceNamed_of_notMem (hm ▸ hnames.1) node
      rw [replaceNamed] at hrest
      rw [hrest]
    · rw [if_neg fun h => hm ((nameMatches_iff hname path).1 h), if_neg hm, ih hg.tail hnames.2,
        replaceNamed]

/-- Replacing does not change which names there are. -/
theorem exists_of_mem_replaceNamed {name : Bytes} {node : β} {l : List (Bytes × β)}
    {e : Bytes × β} (h : e ∈ replaceNamed name node l) : ∃ e' ∈ l, e'.1 = e.1 := by
  have hmem : e.1 ∈ (replaceNamed name node l).map Prod.fst := List.mem_map_of_mem h
  rw [names_replaceNamed] at hmem
  exact List.mem_map.1 hmem

theorem Hash.Named.set {h : Hash β} {l : List (Bytes × β)} (hl : h.Named l) (path : Bytes)
    (node : β) : (hashSet h path node).Named (replaceNamed (component path) node l) := by
  refine ⟨?_, ?_, ?_⟩
  · have hg := hl.goodHash
    obtain ⟨rfl, hnames, -⟩ := hl
    unfold hashSet
    simp only [hashOf, replaceNamed, List.length_map]
    congr 1
    funext k
    have hkey : ∀ e : Bytes × β, getKey (if e.1 = component path then (e.1, node) else e).1 =
        getKey e.1 := by
      intro e
      split_ifs <;> rfl
    rw [Function.update_apply, List.filter_map]
    simp only [Function.comp_def, hkey]
    split_ifs with hk
    · subst hk
      exact listSet_eq (hg _) (hnames.sublist (List.filter_sublist.map _)) path node
    · have hrest : component path ∉ (l.filter fun e => getKey e.1 = k).map Prod.fst := by
        intro hmem
        obtain ⟨e, he, heq⟩ := List.mem_map.1 hmem
        have hek : getKey e.1 = k := by simpa using List.of_mem_filter he
        rw [heq, getKey_component] at hek
        exact hk hek.symm
      exact (replaceNamed_of_notMem hrest node).symm
  · rw [names_replaceNamed]
    exact hl.names
  · intro e he
    obtain ⟨e', he', heq⟩ := exists_of_mem_replaceNamed he
    exact heq ▸ hl.good e' he'

theorem Hash.Named.add {h : Hash β} {l : List (Bytes × β)} (hl : h.Named l) {name : Bytes}
    (hn : GoodName name) (hf : hashFind h name = none) (new node : β) :
    (hashSet (hashInsert h name new).1 name node).Named (l ++ [(name, node)]) := by
  have hset := (hl.insert hn hf new).set name node
  have hnew := hl.find_eq_none.1 hf
  rw [component_self hn.2] at hset hnew
  rwa [replaceNamed_append hnew] at hset

theorem Hash.Holds.set {h : Hash β} {l : List (Bytes × β)} (hl : h.Holds l) (path : Bytes)
    (node : β) : (hashSet h path node).Holds (replaceNamed (component path) node l) := by
  obtain ⟨heq, hnames, -⟩ := hl.named.set path node
  refine ⟨heq, hnames, ?_⟩
  intro e he
  obtain ⟨e', he', heq'⟩ := exists_of_mem_replaceNamed he
  exact heq' ▸ hl.nameOk e' he'

/-- Inserting a new name and writing its child. -/
theorem Hash.Holds.add {h : Hash β} {l : List (Bytes × β)} (hl : h.Holds l) {name : Bytes}
    (hn : NameOk name) (hf : hashFind h name = none) (new node : β) :
    (hashSet (hashInsert h name new).1 name node).Holds (l ++ [(name, node)]) := by
  have hset := (hl.insert hn hf new).set name node
  have hnew := hl.find_eq_none.1 hf
  rw [component_self hn.good.2] at hset hnew
  rwa [replaceNamed_append hnew] at hset

/-! ## Bucket by bucket -/

/-- The first `n` buckets have the children with these keys. -/
theorem buckets_perm (l : List (Bytes × β)) (n : Nat) :
    ((List.range n).flatMap fun i : Nat => (hashOf l).children i).Perm
      (l.filter fun e => 0 ≤ getKey e.1 ∧ getKey e.1 < n) := by
  induction n with
  | zero =>
    refine List.Perm.of_eq (List.filter_eq_nil_iff.2 ?_).symm
    intro e _
    simp only [decide_eq_true_eq]
    omega
  | succ n ih =>
    rw [List.range_succ, List.flatMap_append, List.flatMap_singleton]
    have hsplit := List.filter_append_perm (fun e : Bytes × β => decide (getKey e.1 < n))
      (l.filter fun e => 0 ≤ getKey e.1 ∧ getKey e.1 < (n + 1 : Nat))
    refine (ih.append_right _).trans (List.Perm.trans (List.Perm.of_eq ?_) hsplit)
    rw [List.filter_filter, List.filter_filter]
    congr 1
    · refine List.filter_congr ?_
      intro e _
      simp only [← Bool.decide_and, decide_eq_decide]
      omega
    · refine List.filter_congr ?_
      intro e _
      simp only [← decide_not, ← Bool.decide_and, decide_eq_decide]
      omega

/-- A bucket, among the first `n`. -/
theorem filter_buckets (l : List (Bytes × β)) (n : Nat) (k : Int) :
    ((List.range n).flatMap fun i : Nat => (hashOf l).children i).filter (getKey ·.1 = k) =
      if 0 ≤ k ∧ k < n then (hashOf l).children k else [] := by
  induction n with
  | zero => rw [if_neg (by omega)]; rfl
  | succ n ih =>
    have hlast : ((hashOf l).children n).filter (getKey ·.1 = k) =
        if k = n then (hashOf l).children k else [] := by
      dsimp only [hashOf]
      rw [List.filter_filter]
      split_ifs with hk
      · refine List.filter_congr ?_
        intro e _
        rw [← Bool.decide_and, decide_eq_decide]
        omega
      · refine List.filter_eq_nil_iff.2 ?_
        intro e _
        rw [← Bool.decide_and, decide_eq_true_eq]
        omega
    rw [List.range_succ, List.flatMap_append, List.flatMap_singleton, List.filter_append, ih, hlast]
    by_cases hk : k = n
    · rw [if_neg (by omega), if_pos hk, if_pos (by omega), List.nil_append]
    · rw [if_neg hk, List.append_nil]
      congr 1
      rw [eq_iff_iff]
      omega

theorem Hash.Holds.entries_perm {h : Hash β} {l : List (Bytes × β)} (hl : h.Holds l) :
    h.entries.Perm l := by
  rw [entries, hl.eq]
  refine (buckets_perm l _).trans (List.Perm.of_eq (List.filter_eq_self.2 ?_))
  intro e he
  obtain ⟨-, hlow, hhigh, -, -⟩ := hl.nameOk e he
  rw [decide_eq_true_eq]
  exact ⟨hlow, hhigh⟩

/-- **A hash is the hash of its buckets' children.** -/
theorem Hash.Holds.entries {h : Hash β} {l : List (Bytes × β)} (hl : h.Holds l) :
    h.Holds h.entries := by
  have hperm := hl.entries_perm
  refine ⟨?_, (hperm.map _).nodup_iff.2 hl.names, fun e he => hl.nameOk e (hperm.mem_iff.1 he)⟩
  have hsize : (h.entries.length : Int) = l.length := by rw [hperm.length_eq]
  have hchildren : (fun k => h.entries.filter (getKey ·.1 = k)) = (hashOf l).children := by
    funext k
    rw [Hash.entries, hl.eq, filter_buckets]
    split_ifs with hk
    · rfl
    · refine (List.filter_eq_nil_iff.2 ?_).symm
      intro e he
      obtain ⟨-, hlow, hhigh, -, -⟩ := hl.nameOk e he
      rw [decide_eq_true_eq]
      rintro rfl
      exact hk ⟨hlow, hhigh⟩
  rw [hashOf, hchildren, hsize]
  exact hl.eq

end DiskAnalyzer
