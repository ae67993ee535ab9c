import DiskAnalyzer.Sizes

/-!
# `tree_write` and its path buffer

The lines of a report are written from one buffer that holds the path of the node at hand.
`list_write` prints a child's name behind the first `pos` bytes, and ends the string there again
when the child's subtree has been written. Bytes behind that end stay as they are.

* `treeWriteAt`, `hashWriteAt`, `listWriteAt`: the functions with the buffer as their state.
* `keeps_treeWriteAt`: every call that returns leaves the path it has found.
* `prints_treeWriteAt`: in a buffer that is long enough the functions write what they write with
  the path passed by value.
* `treeWrite_eq`, `treeWrite_root`: these are the lines of the nodes, in the order of the buckets.
* `report_lists`: the report of a completed traversal.
-/

namespace DiskAnalyzer

open DiskAnalyzer.Tree Decimal

/-! ## Writing with a buffer -/

/-- A part of `tree_write`: of what is in the buffer, what is written and what is in the buffer
then. `none` reads through a `NULL` pointer or writes behind the buffer. -/
abbrev Printer := Bytes → Option (Bytes × Bytes)

namespace Printer

def skip : Printer := fun buf => some ([], buf)

def andThen (a b : Printer) : Printer := fun buf =>
  (a buf).bind fun r => (b r.2).map fun r' => (r.1 ++ r'.1, r'.2)

def all : List Printer → Printer
  | [] => skip
  | a :: rest => a.andThen (all rest)

/-- `write`. -/
def write (s : Bytes) : Printer := fun buf => some (s, buf)

/-- `snprintf(path + pos, strlen(name) + 5, "%s/", name)`. -/
def name (pos : Nat) (name : Bytes) : Printer := fun buf =>
  let s := name ++ str "/" ++ [0]
  if pos + s.length ≤ buf.length then
    some ([], buf.take pos ++ s ++ buf.drop (pos + s.length))
  else none

/-- `path[pos] = '\\0'`. -/
def cut (pos : Nat) : Printer := fun buf =>
  if pos < buf.length then some ([], buf.set pos 0) else none

end Printer

mutual

/-- `tree_write`. -/
def treeWriteAt (fmt : Printing) (total : Int) : Tree State → Nat → Printer
  | .mk info hsh, pos =>
    let line : Printer := fun buf =>
      if 1 < pos then
        info.map fun st => (str "|-" ++ cstr buf ++ str " " ++ fmt.share st.size total, buf)
      else some ([], buf)
    line.andThen (hashWriteAt fmt total hsh pos)

/-- `hash_write`. -/
def hashWriteAt (fmt : Printing) (total : Int) : Hash (Tree State) → Nat → Printer
  | ⟨_, children⟩, pos =>
    Printer.all ((List.range HASH_MOD.toNat).map fun i : Nat =>
      listWriteAt fmt total (children i) pos)

/-- `list_write`. -/
def listWriteAt (fmt : Printing) (total : Int) : List (Bytes × Tree State) → Nat → Printer
  | [], _ => .skip
  | e :: next, pos => (childWriteAt fmt total e pos).andThen (listWriteAt fmt total next pos)

/-- One round of `list_write`. -/
def childWriteAt (fmt : Printing) (total : Int) : Bytes × Tree State → Nat → Printer
  | (name, node), pos =>
    (Printer.write (if pos = 1 then str "|\n" else [])).andThen <|
      (Printer.name pos name).andThen <|
        (treeWriteAt fmt total node (pos + name.length + 1)).andThen (.cut pos)

end

/-! ## Inductions over trees -/

section Induction

variable {α : Type} {P : Tree α → Prop}

mutual

@[elab_as_elim]
theorem Tree.ind (h : ∀ info hsh, (∀ k, ∀ e ∈ hsh.children k, P e.2) → P (.mk info hsh)) :
    ∀ t, P t
  | .mk info ⟨size, children⟩ => h info ⟨size, children⟩ fun k => ind_list h (children k)

theorem ind_list (h : ∀ info hsh, (∀ k, ∀ e ∈ hsh.children k, P e.2) → P (.mk info hsh)) :
    ∀ l : List (Bytes × Tree α), ∀ e ∈ l, P e.2
  | [], _, he => absurd he List.not_mem_nil
  | e' :: next, e, he =>
    (List.mem_cons.1 he).elim (fun heq => heq ▸ ind_entry h e') (ind_list h next e)

theorem ind_entry (h : ∀ info hsh, (∀ k, ∀ e ∈ hsh.children k, P e.2) → P (.mk info hsh)) :
    ∀ e : Bytes × Tree α, P e.2
  | (_, t) => Tree.ind h t

end

end Induction

/-! ## What a call leaves in the buffer -/

/-- The buffer holds this path. -/
def HoldsPath (buf path : Bytes) : Prop := ∃ rest, buf = path ++ 0 :: rest

theorem HoldsPath.cstr {buf path : Bytes} (h : HoldsPath buf path) (hpath : 0 ∉ path) :
    cstr buf = path := by
  obtain ⟨rest, rfl⟩ := h
  rw [DiskAnalyzer.cstr, List.takeWhile_append_of_pos, List.takeWhile_cons_of_neg (by simp),
    List.append_nil]
  intro b hb
  simpa using fun h0 : b = 0 => hpath (h0 ▸ hb)

/-- A call that returns has left the path it has found, in as many bytes. -/
def Keeps (path : Bytes) (a : Printer) : Prop :=
  ∀ buf out buf', HoldsPath buf path → a buf = some (out, buf') →
    HoldsPath buf' path ∧ buf'.length = buf.length

section Keeping

variable {path : Bytes} {a b : Printer} {fmt : Printing} {total : Int}

theorem Keeps.andThen (ha : Keeps path a) (hb : Keeps path b) : Keeps path (a.andThen b) := by
  intro buf out buf' hbuf hout
  obtain ⟨⟨out₁, buf₁⟩, h₁, hout⟩ := Option.bind_eq_some_iff.1 hout
  obtain ⟨⟨out₂, buf₂⟩, h₂, heq⟩ := Option.map_eq_some_iff.1 hout
  obtain ⟨-, rfl⟩ := Prod.mk.inj heq
  obtain ⟨hbuf₁, hlen₁⟩ := ha _ _ _ hbuf h₁
  obtain ⟨hbuf₂, hlen₂⟩ := hb _ _ _ hbuf₁ h₂
  exact ⟨hbuf₂, hlen₂.trans hlen₁⟩

theorem keeps_same {a : Printer} (h : ∀ buf out buf', a buf = some (out, buf') → buf' = buf) :
    Keeps path a := by
  intro buf out buf' hbuf hout
  obtain rfl := h _ _ _ hout
  exact ⟨hbuf, rfl⟩

theorem keeps_skip : Keeps path .skip :=
  keeps_same fun _ _ _ h => (Prod.mk.inj (Option.some.inj h)).2.symm

theorem keeps_write (s : Bytes) : Keeps path (.write s) :=
  keeps_same fun _ _ _ h => (Prod.mk.inj (Option.some.inj h)).2.symm

theorem keeps_all {l : List Printer} (h : ∀ a ∈ l, Keeps path a) : Keeps path (.all l) := by
  induction l with
  | nil => exact keeps_skip
  | cons a rest ih =>
    obtain ⟨ha, hrest⟩ := List.forall_mem_cons.1 h
    exact ha.andThen (ih hrest)

/-- The child's path is in the buffer. -/
theorem holds_name {buf buf' out : Bytes} {name : Bytes} (h : HoldsPath buf path)
    (hout : Printer.name path.length name buf = some (out, buf')) :
    HoldsPath buf' (path ++ name ++ str "/") ∧ buf'.length = buf.length ∧ out = [] := by
  obtain ⟨rest, rfl⟩ := h
  unfold Printer.name at hout
  dsimp only at hout
  split_ifs at hout with hroom
  obtain ⟨rfl, rfl⟩ := Prod.mk.inj (Option.some.inj hout)
  simp only [List.length_append, List.length_cons, List.length_nil] at hroom
  refine ⟨⟨(path ++ 0 :: rest).drop (path.length + (name ++ str "/" ++ [0]).length), ?_⟩, ?_, rfl⟩
  · rw [List.take_left]
    simp only [List.append_assoc, List.singleton_append]
  · simp only [List.length_append, List.length_take, List.length_drop, List.length_cons,
      List.length_nil]
    omega

/-- The path ends again where it has ended. -/
theorem holds_cut {buf buf' out more : Bytes} (h : HoldsPath buf (path ++ more)) (hmore : more ≠ [])
    (hout : Printer.cut path.length buf = some (out, buf')) :
    HoldsPath buf' path ∧ buf'.length = buf.length ∧ out = [] := by
  obtain ⟨rest, rfl⟩ := h
  unfold Printer.cut at hout
  split_ifs at hout
  obtain ⟨rfl, rfl⟩ := Prod.mk.inj (Option.some.inj hout)
  obtain ⟨b, more, rfl⟩ := List.exists_cons_of_ne_nil hmore
  refine ⟨⟨more ++ 0 :: rest, ?_⟩, List.length_set, rfl⟩
  rw [List.append_assoc, List.set_append_right _ _ (le_refl _), Nat.sub_self]
  rfl

theorem keeps_childWriteAt {e : Bytes × Tree State}
    (h : Keeps (path ++ e.1 ++ str "/")
      (treeWriteAt fmt total e.2 (path ++ e.1 ++ str "/").length)) :
    Keeps path (childWriteAt fmt total e path.length) := by
  obtain ⟨name, node⟩ := e
  rw [childWriteAt]
  refine (keeps_write _).andThen ?_
  intro buf out buf' hbuf hout
  obtain ⟨⟨out₁, buf₁⟩, h₁, hout⟩ := Option.bind_eq_some_iff.1 hout
  obtain ⟨⟨out₂, buf₂⟩, h₂, heq⟩ := Option.map_eq_some_iff.1 hout
  obtain ⟨-, rfl⟩ := Prod.mk.inj heq
  obtain ⟨⟨out₃, buf₃⟩, h₃, hout⟩ := Option.bind_eq_some_iff.1 h₂
  obtain ⟨⟨out₄, buf₄⟩, h₄, heq⟩ := Option.map_eq_some_iff.1 hout
  obtain ⟨-, rfl⟩ := Prod.mk.inj heq
  have hlen : (path ++ name ++ str "/").length = path.length + name.length + 1 := by
    rw [List.length_append, List.length_append]
    rfl
  dsimp only at h h₃ h₄
  rw [hlen] at h
  obtain ⟨hbuf₁, hlen₁, -⟩ := holds_name hbuf h₁
  obtain ⟨hbuf₃, hlen₃⟩ := h _ _ _ hbuf₁ h₃
  rw [List.append_assoc] at hbuf₃
  obtain ⟨hbuf₄, hlen₄, -⟩ := holds_cut hbuf₃ (by simp [str]) h₄
  exact ⟨hbuf₄, by rw [hlen₄, hlen₃, hlen₁]⟩

theorem keeps_listWriteAt {l : List (Bytes × Tree State)}
    (h : ∀ e ∈ l, Keeps path (childWriteAt fmt total e path.length)) :
    Keeps path (listWriteAt fmt total l path.length) := by
  induction l with
  | nil =>
    rw [listWriteAt]
    exact keeps_skip
  | cons e next ih =>
    obtain ⟨he, hnext⟩ := List.forall_mem_cons.1 h
    rw [listWriteAt]
    exact he.andThen (ih hnext)

theorem keeps_line (info : Option State) (pos : Nat) : Keeps path fun buf =>
    if 1 < pos then
      info.map fun st => (str "|-" ++ cstr buf ++ str " " ++ fmt.share st.size total, buf)
    else some ([], buf) := by
  refine keeps_same fun buf out buf' h => ?_
  split_ifs at h
  · obtain ⟨st, -, heq⟩ := Option.map_eq_some_iff.1 h
    exact (Prod.mk.inj heq).2.symm
  · exact (Prod.mk.inj (Option.some.inj h)).2.symm

theorem keeps_hashWriteAt {hsh : Hash (Tree State)}
    (h : ∀ k, ∀ e ∈ hsh.children k, Keeps path (childWriteAt fmt total e path.length)) :
    Keeps path (hashWriteAt fmt total hsh path.length) := by
  obtain ⟨size, children⟩ := hsh
  rw [hashWriteAt]
  refine keeps_all fun a ha => ?_
  obtain ⟨i, -, rfl⟩ := List.mem_map.1 ha
  exact keeps_listWriteAt (h i)

/-- **Every call restores the path**, at any node and behind any path. -/
theorem keeps_treeWriteAt (fmt : Printing) (total : Int) (t : Tree State) :
    ∀ path : Bytes, Keeps path (treeWriteAt fmt total t path.length) := by
  induction t using Tree.ind with
  | h info hsh ih =>
  intro path
  rw [treeWriteAt]
  exact (keeps_line info path.length).andThen
    (keeps_hashWriteAt fun k e he => keeps_childWriteAt (ih k e he _))

end Keeping

/-! ## The buffer and the path passed by value -/

@[simp] theorem concatAll_singleton (o : Option Bytes) : concatAll [o] = o := by
  cases o with
  | none => rfl
  | some s => exact congrArg some (List.append_nil s)

/-- Of a buffer of this size that holds the path, `out` is written. -/
def Prints (size : Nat) (path : Bytes) (a : Printer) (out : Option Bytes) : Prop :=
  ∀ buf, HoldsPath buf path → buf.length = size → (a buf).map Prod.fst = out

section Printing

variable {path : Bytes} {size : Nat} {fmt : Printing} {total : Int}

theorem Prints.andThen {a b : Printer} {out : Option Bytes} {outs : List (Option Bytes)}
    (hkeeps : Keeps path a) (ha : Prints size path a out)
    (hb : Prints size path b (concatAll outs)) :
    Prints size path (a.andThen b) (concatAll (out :: outs)) := by
  intro buf hbuf hsize
  rw [← ha buf hbuf hsize, Printer.andThen]
  cases hout : a buf with
  | none => rfl
  | some r =>
    obtain ⟨hbuf', hlen⟩ := hkeeps _ _ _ hbuf hout
    rw [Option.bind_some, Option.map_some, concatAll, ← hb _ hbuf' (hlen.trans hsize),
      Option.map_map, Option.map_map]
    rfl

theorem prints_all {ι : Type} {is : List ι} {f : ι → Printer} {g : ι → Option Bytes}
    (hkeeps : ∀ i ∈ is, Keeps path (f i)) (h : ∀ i ∈ is, Prints size path (f i) (g i)) :
    Prints size path (.all (is.map f)) (concatAll (is.map g)) := by
  induction is with
  | nil => exact fun _ _ _ => rfl
  | cons i is ih =>
    obtain ⟨hki, hks⟩ := List.forall_mem_cons.1 hkeeps
    obtain ⟨hi, hs⟩ := List.forall_mem_cons.1 h
    exact Prints.andThen hki hi (ih hks hs)

/-- The child's line and those below it are written with its path. -/
theorem prints_childWriteAt {e : Bytes × Tree State}
    (hroom : (path ++ e.1 ++ str "/").length < size)
    (h : Prints size (path ++ e.1 ++ str "/")
      (treeWriteAt fmt total e.2 (path ++ e.1 ++ str "/").length)
      (treeWrite fmt total e.2 (path ++ e.1 ++ str "/"))) :
    Prints size path (childWriteAt fmt total e path.length) (childWrite fmt total e path) := by
  obtain ⟨name, node⟩ := e
  intro buf hbuf hsize
  dsimp only at hroom h
  have hlen : (path ++ name ++ str "/").length = path.length + name.length + 1 := by
    rw [List.length_append, List.length_append]
    rfl
  have hfits : path.length + (name ++ str "/" ++ [0]).length ≤ buf.length := by
    simp only [List.length_append, List.length_cons, List.length_nil, str] at hroom ⊢
    omega
  have hname : Printer.name path.length name buf = some ([], buf.take path.length ++
      (name ++ str "/" ++ [0]) ++ buf.drop (path.length + (name ++ str "/" ++ [0]).length)) := by
    rw [Printer.name, if_pos hfits]
  obtain ⟨hbuf₁, hlen₁, -⟩ := holds_name hbuf hname
  have hsub := h _ hbuf₁ (hlen₁.trans hsize)
  rw [hlen] at hsub
  rw [childWriteAt, childWrite, ← hsub, Printer.andThen, Printer.write, Option.bind_some,
    Printer.andThen, hname, Option.bind_some, Printer.andThen]
  cases hout : treeWriteAt fmt total node (path.length + name.length + 1)
      (buf.take path.length ++ (name ++ str "/" ++ [0]) ++
        buf.drop (path.length + (name ++ str "/" ++ [0]).length)) with
  | none => rfl
  | some r =>
    have hkeeps := keeps_treeWriteAt fmt total node (path ++ name ++ str "/")
    rw [hlen] at hkeeps
    obtain ⟨-, hlen₂⟩ := hkeeps _ _ _ hbuf₁ hout
    have hcut : path.length < r.2.length := by omega
    rw [Option.bind_some, Printer.cut, if_pos hcut]
    simp

theorem prints_listWriteAt {l : List (Bytes × Tree State)}
    (h : ∀ e ∈ l, Prints size path (childWriteAt fmt total e path.length)
      (childWrite fmt total e path)) :
    Prints size path (listWriteAt fmt total l path.length) (listWrite fmt total l path) := by
  induction l with
  | nil =>
    rw [listWriteAt, listWrite]
    exact fun _ _ _ => rfl
  | cons e next ih =>
    obtain ⟨he, hnext⟩ := List.forall_mem_cons.1 h
    rw [listWriteAt, listWrite]
    refine Prints.andThen (keeps_childWriteAt (keeps_treeWriteAt fmt total e.2 _)) he ?_
    rw [concatAll_singleton]
    exact ih hnext

/-- The names from a node to one below it, each with a slash behind it. -/
def relPath (names : List Bytes) : Bytes := names.flatMap (· ++ str "/")

theorem noNul_relPath {names : List Bytes} (h : ∀ c ∈ names, NameOk c) :
    0 ∉ str "/" ++ relPath names := by
  intro hmem
  rcases List.mem_append.1 hmem with hmem | hmem
  · exact absurd hmem (by decide)
  · obtain ⟨c, hc, hmem⟩ := List.mem_flatMap.1 hmem
    rcases List.mem_append.1 hmem with hmem | hmem
    · exact (h c hc).noNul hmem
    · exact absurd hmem (by decide)

/-- The buffer has room for the path of every node, and no path ends early. -/
def FitsIn (size : Nat) (path : Bytes) (nodes : List (List Bytes × Option State)) : Prop :=
  ∀ x ∈ nodes, 0 ∉ path ++ relPath x.1 ∧ (path ++ relPath x.1).length < size

theorem FitsIn.child {hsh : Hash (Tree State)} (h : FitsIn size path (hashNodes hsh))
    {e : Bytes × Tree State} (he : e ∈ hsh.entries) :
    FitsIn size (path ++ e.1 ++ str "/") e.2.nodes := by
  obtain ⟨name, node⟩ := e
  intro x hx
  have hmem : (name :: x.1, x.2) ∈ hashNodes hsh := by
    rw [hashNodes_eq]
    refine List.mem_flatMap.2 ⟨_, he, ?_⟩
    rw [childNodes]
    exact List.mem_map_of_mem hx
  have hpath : path ++ relPath (name :: x.1) = path ++ name ++ str "/" ++ relPath x.1 := by
    simp only [relPath, List.flatMap_cons, List.append_assoc]
  exact hpath ▸ h _ hmem

/-- **In a buffer with room for every path, the lines are those of the paths passed by value**,
whatever the buffer holds behind the path. -/
theorem prints_treeWriteAt (fmt : Printing) (total : Int) (t : Tree State) :
    ∀ path, 0 ∉ path → FitsIn size path (hashNodes t.hsh) →
      Prints size path (treeWriteAt fmt total t path.length) (treeWrite fmt total t path) := by
  induction t using Tree.ind with
  | h info hsh ih =>
  obtain ⟨count, children⟩ := hsh
  intro path hpath hfits
  rw [treeWriteAt, treeWrite, hashWriteAt, hashWrite]
  refine Prints.andThen (keeps_line info path.length) ?_ ?_
  · intro buf hbuf _
    dsimp only
    rw [hbuf.cstr hpath]
    split_ifs
    · cases info <;> rfl
    · rfl
  · rw [concatAll_singleton]
    refine prints_all (fun i _ => ?_) (fun i hi => ?_)
    · exact keeps_listWriteAt fun e _ => keeps_childWriteAt (keeps_treeWriteAt fmt total e.2 _)
    · refine prints_listWriteAt fun e he => ?_
      have hchild : FitsIn size (path ++ e.1 ++ str "/") e.2.nodes :=
        hfits.child (List.mem_flatMap.2 ⟨i, hi, he⟩)
      rw [nodes_eq] at hchild
      obtain ⟨⟨hnul, hroom⟩, hbelow⟩ := List.forall_mem_cons.1 hchild
      rw [relPath, List.flatMap_nil, List.append_nil] at hnul hroom
      exact prints_childWriteAt hroom (ih i e he _ hnul hbelow)

end Printing

/-! ## The lines -/

/-- A node's line, `none` without a state. -/
def lineAt (fmt : Printing) (total : Int) (path : Bytes) (x : List Bytes × Option State) :
    Option Bytes :=
  x.2.map fun st => str "|-" ++ path ++ relPath x.1 ++ str " " ++ fmt.share st.size total

section Lines

variable {fmt : Printing} {total : Int} {path : Bytes}

theorem concatAll_append (a b : List (Option Bytes)) :
    concatAll (a ++ b) = (concatAll a).bind fun s => (concatAll b).map (s ++ ·) := by
  induction a with
  | nil =>
    rw [List.nil_append, concatAll, Option.bind_some]
    simp only [List.nil_append, Option.map_id']
  | cons o a ih =>
    cases o with
    | none => rfl
    | some s =>
      rw [List.cons_append, concatAll, concatAll, ih, Option.map_bind, Option.bind_map]
      simp only [Function.comp_def, Option.map_map, List.append_assoc]

theorem concatAll_flatMap {ι : Type} (is : List ι) (f : ι → List (Option Bytes)) :
    concatAll (is.flatMap f) = concatAll (is.map fun i => concatAll (f i)) := by
  induction is with
  | nil => rfl
  | cons i is ih =>
    rw [List.flatMap_cons, concatAll_append, List.map_cons, ih]
    cases concatAll (f i) <;> rfl

theorem concatAll_some {ι : Type} (is : List ι) (f : ι → Bytes) :
    concatAll (is.map fun i => some (f i)) = some (is.flatMap f) := by
  induction is with
  | nil => rfl
  | cons i is ih =>
    rw [List.map_cons, concatAll, ih]
    rfl

theorem map_lineAt_childNodes (e : Bytes × Tree State) :
    (childNodes e).map (lineAt fmt total path) =
      e.2.nodes.map (lineAt fmt total (path ++ e.1 ++ str "/")) := by
  obtain ⟨name, node⟩ := e
  rw [childNodes, List.map_map]
  refine List.map_congr_left fun x _ => ?_
  simp only [Function.comp_apply, lineAt, relPath, List.flatMap_cons, List.append_assoc]

theorem listWrite_eq (l : List (Bytes × Tree State)) :
    listWrite fmt total l path = concatAll (l.map (childWrite fmt total · path)) := by
  induction l with
  | nil => rw [listWrite, List.map_nil, concatAll]
  | cons e next ih =>
    rw [listWrite, ih, List.map_cons]
    cases childWrite fmt total e path with
    | none => rfl
    | some s => rw [concatAll, concatAll_singleton, concatAll]

theorem hashWrite_eq (hsh : Hash (Tree State)) :
    hashWrite fmt total hsh path = concatAll (hsh.entries.map (childWrite fmt total · path)) := by
  obtain ⟨size, children⟩ := hsh
  rw [hashWrite, Hash.entries, List.map_flatMap, concatAll_flatMap]
  simp only [listWrite_eq]

theorem childWrite_eq (e : Bytes × Tree State) :
    childWrite fmt total e path =
      (treeWrite fmt total e.2 (path ++ e.1 ++ str "/")).map
        ((if path.length = 1 then str "|\n" else []) ++ ·) := by
  obtain ⟨name, node⟩ := e
  rw [childWrite]

/-- Below the root, a subtree's lines are those of its nodes, in their order. -/
theorem treeWrite_eq (fmt : Printing) (total : Int) (t : Tree State) :
    ∀ path, 1 < path.length →
      treeWrite fmt total t path = concatAll (t.nodes.map (lineAt fmt total path)) := by
  induction t using Tree.ind with
  | h info hsh ih =>
  intro path hpath
  have hbelow : hashWrite fmt total hsh path =
      concatAll ((hashNodes hsh).map (lineAt fmt total path)) := by
    rw [hashWrite_eq, hashNodes_eq, List.map_flatMap, concatAll_flatMap]
    refine congrArg concatAll (List.map_congr_left fun e he => ?_)
    obtain ⟨i, -, hi⟩ := List.mem_flatMap.1 he
    rw [childWrite_eq, if_neg (by omega), map_lineAt_childNodes,
      ih i e hi _ (by simp [str]; omega)]
    simp only [List.nil_append, Option.map_id']
  have hline : lineAt fmt total path ([], info) =
      info.map fun st => str "|-" ++ path ++ str " " ++ fmt.share st.size total := by
    simp only [lineAt, relPath, List.flatMap_nil, List.append_nil]
  rw [treeWrite, if_pos hpath, nodes_eq, List.map_cons, info_mk, hsh_mk, hbelow, hline]
  cases info with
  | none => rfl
  | some st => rw [Option.map_some, concatAll, concatAll_singleton, concatAll]

/-- The root has no line, and every child of it has a bar before its lines. -/
theorem treeWrite_root (fmt : Printing) (total : Int) (t : Tree State) :
    treeWrite fmt total t (str "/") = concatAll (t.hsh.entries.flatMap fun e =>
      some (str "|\n") :: (childNodes e).map (lineAt fmt total (str "/"))) := by
  obtain ⟨info, hsh⟩ := t
  rw [treeWrite, if_neg (by simp [str]), concatAll, concatAll_singleton, hashWrite_eq,
    concatAll_flatMap]
  simp only [List.nil_append, Option.map_id']
  refine congrArg concatAll (List.map_congr_left fun e _ => ?_)
  rw [childWrite_eq, if_pos (by simp [str]), map_lineAt_childNodes,
    treeWrite_eq fmt total e.2 _ (by simp [str]), concatAll]

end Lines

/-! ## The order of the lines -/

/-- Whatever is on the way to a name is before it. -/
def ParentsFirst (l : List (List Bytes)) : Prop :=
  ∀ before z after, l = before ++ z :: after →
    ∀ p q, z = p ++ q → p ≠ [] → q ≠ [] → p ∈ before

theorem ParentsFirst.append {a b : List (List Bytes)} (ha : ParentsFirst a)
    (hb : ParentsFirst b) : ParentsFirst (a ++ b) := by
  intro before z after heq p q hz hp hq
  rcases List.append_eq_append_iff.1 heq with ⟨mid, rfl, hrest⟩ | ⟨mid, rfl, hrest⟩
  · exact List.mem_append_right _ (hb mid z after hrest p q hz hp hq)
  · cases mid with
    | nil => exact absurd (hb [] z after hrest.symm p q hz hp hq) List.not_mem_nil
    | cons z' mid =>
      obtain ⟨rfl, -⟩ := List.cons.inj hrest
      exact ha before z mid rfl p q hz hp hq

theorem parentsFirst_flatMap {ι : Type} {is : List ι} {f : ι → List (List Bytes)}
    (h : ∀ i ∈ is, ParentsFirst (f i)) : ParentsFirst (is.flatMap f) := by
  induction is with
  | nil =>
    intro before z after heq
    exact absurd heq (by simp)
  | cons i is ih =>
    obtain ⟨hi, his⟩ := List.forall_mem_cons.1 h
    rw [List.flatMap_cons]
    exact hi.append (ih his)

/-- A directory is before what is below it. -/
theorem ParentsFirst.under {l : List (List Bytes)} (h : ParentsFirst l) (name : Bytes) :
    ParentsFirst (([] :: l).map (name :: ·)) := by
  intro before z after heq p q hz hp hq
  obtain ⟨name', p, rfl⟩ := List.exists_cons_of_ne_nil hp
  cases before with
  | nil =>
    obtain ⟨heq, -⟩ := List.cons.inj heq
    rw [← heq] at hz
    exact absurd (List.append_eq_nil_iff.1 (List.cons.inj hz).2.symm).2 hq
  | cons first before =>
    rw [List.map_cons] at heq
    obtain ⟨rfl, hbelow⟩ := List.cons.inj heq
    obtain ⟨before, rest, rfl, rfl, hrest⟩ := List.map_eq_append_iff.1 hbelow
    obtain ⟨w, after, rfl, rfl, rfl⟩ := List.map_eq_cons_iff.1 hrest
    obtain ⟨rfl, rfl⟩ := List.cons.inj hz
    by_cases hp' : p = []
    · subst hp'
      exact List.mem_cons_self
    · exact List.mem_cons_of_mem _ (List.mem_map_of_mem (h before _ after rfl p q rfl hp' hq))

/-- **Every directory is before its subdirectories.** -/
theorem parentsFirst_hashNodes (t : Tree State) :
    ParentsFirst ((hashNodes t.hsh).map Prod.fst) := by
  induction t using Tree.ind with
  | h info hsh ih =>
  rw [hsh_mk, hashNodes_eq, List.map_flatMap]
  refine parentsFirst_flatMap fun e he => ?_
  obtain ⟨i, -, hi⟩ := List.mem_flatMap.1 he
  have hunder := (ih i e hi).under e.1
  obtain ⟨name, node⟩ := e
  rw [childNodes, nodes_eq]
  simp only [List.map_map, List.map_cons] at hunder ⊢
  exact hunder

/-- What is below one child is below no other. -/
theorem head_of_mem_childNodes {e : Bytes × Tree State} {p : List Bytes}
    (h : p ∈ (childNodes e).map Prod.fst) : p.head? = some e.1 := by
  obtain ⟨name, node⟩ := e
  rw [childNodes, List.map_map] at h
  obtain ⟨x, -, rfl⟩ := List.mem_map.1 h
  rfl

theorem Tree.Stored.entries {t : Tree State} (ht : t.Stored) :
    t.hsh.Holds t.hsh.entries ∧ ∀ e ∈ t.hsh.entries, e.2.Stored := by
  cases ht with
  | mk hl hsub => exact ⟨hl.entries, fun e he => hsub e (hl.entries_perm.mem_iff.1 he)⟩

theorem nameOk_of_mem_nodes {t : Tree State} (ht : t.Stored) {x : List Bytes × Option State}
    (hx : x ∈ t.nodes) : ∀ c ∈ x.1, NameOk c := by
  induction t using Tree.ind generalizing x with
  | h info hsh ih =>
  obtain ⟨hl, hsub⟩ := ht.entries
  rw [nodes_eq, hashNodes_eq] at hx
  rcases List.mem_cons.1 hx with rfl | hx
  · exact fun c hc => absurd hc List.not_mem_nil
  · obtain ⟨⟨name, node⟩, he, hx⟩ := List.mem_flatMap.1 hx
    obtain ⟨i, -, hi⟩ := List.mem_flatMap.1 he
    rw [childNodes] at hx
    obtain ⟨y, hy, rfl⟩ := List.mem_map.1 hx
    exact List.forall_mem_cons.2 ⟨hl.nameOk _ he, ih i _ hi (hsub _ he) hy⟩

/-- No two directories have the same way to them. -/
theorem nodup_nodes {t : Tree State} (ht : t.Stored) : (t.nodes.map Prod.fst).Nodup := by
  induction t using Tree.ind with
  | h info hsh ih =>
  obtain ⟨hl, hsub⟩ := ht.entries
  rw [nodes_eq, List.map_cons, hashNodes_eq, List.map_flatMap]
  refine List.nodup_cons.2 ⟨fun hroot => ?_, List.nodup_flatMap.2 ⟨fun e he => ?_, ?_⟩⟩
  · obtain ⟨e, -, he⟩ := List.mem_flatMap.1 hroot
    exact absurd (head_of_mem_childNodes he) (by simp)
  · obtain ⟨i, -, hi⟩ := List.mem_flatMap.1 he
    have hnames := (ih i e hi (hsub e he)).map (List.cons_injective (a := e.1))
    obtain ⟨name, node⟩ := e
    rw [childNodes, List.map_map]
    rwa [List.map_map] at hnames
  · refine (List.pairwise_map.1 hl.names).imp fun {e e'} hne p hp hp' => hne ?_
    exact Option.some.inj ((head_of_mem_childNodes hp).symm.trans (head_of_mem_childNodes hp'))

/-! ## The report of a completed traversal -/

/-- A way of single children without states down to the node. -/
def ChainTo (node : Tree State) : List Bytes → Tree State → Prop
  | [], tre => tre = node
  | c :: cs, tre => tre.info = none ∧ ∃ chld, tre.hsh.entries = [(c, chld)] ∧ ChainTo node cs chld

/-- What a completed traversal of the path leaves: the way to a node where every node has a
state. -/
structure Reportable (path : Bytes) (tre node : Tree State) : Prop where
  stored : tre.Stored
  chain : ChainTo node (components path) tre
  states : ∀ x ∈ node.nodes, x.2.isSome

section Chain

variable {node tre : Tree State}

theorem ChainTo.stored {cs : List Bytes} (h : ChainTo node cs tre) (ht : tre.Stored) :
    node.Stored := by
  induction cs generalizing tre with
  | nil => exact h ▸ ht
  | cons c cs ih =>
    obtain ⟨-, chld, hentries, hchain⟩ := h
    exact ih hchain (ht.entries.2 (c, chld) (hentries ▸ List.mem_singleton_self _))

theorem ChainTo.getPath {path : Bytes} (h : ChainTo node (components path) tre) (ht : tre.Stored) :
    treeGetPath tre path = some node := by
  induction path using components.induct generalizing tre with
  | case1 path hp =>
    rw [components_of_nil hp] at h
    rw [treeGetPath, dif_pos hp, show tre = node from h]
  | case2 path hp _ ih =>
    rw [components_of_ne hp] at h
    obtain ⟨-, chld, hentries, hchain⟩ := h
    obtain ⟨hl, hsub⟩ := ht.entries
    rw [hentries] at hl hsub
    rw [treeGetPath_of_ne hp, hl.find, List.find?_singleton, decide_eq_true rfl]
    exact ih hchain (hsub _ (List.mem_singleton_self _))

/-- **The search ends at the node of the path.** -/
theorem ChainTo.firstState {cs : List Bytes} {st : State} (h : ChainTo node cs tre)
    (hst : node.info = some st) {fuel : Nat} (hfuel : cs.length < fuel) :
    firstState fuel tre = some (st, node) := by
  induction cs generalizing tre fuel with
  | nil =>
    obtain ⟨fuel, rfl⟩ := Nat.exists_eq_add_of_lt hfuel
    obtain rfl := h
    rw [List.length_nil, Nat.zero_add, DiskAnalyzer.firstState, hst]
  | cons c cs ih =>
    obtain ⟨hinfo, chld, hentries, hchain⟩ := h
    cases fuel with
    | zero => exact absurd hfuel (Nat.not_lt_zero _)
    | succ fuel =>
      have hfirst : firstChild tre.hsh = some chld := by
        rw [Hash.entries] at hentries
        rw [firstChild, hentries]
        rfl
      rw [DiskAnalyzer.firstState, hinfo]
      dsimp only
      rw [hfirst, Option.bind_some]
      exact ih hchain (Nat.lt_of_succ_lt_succ hfuel)

end Chain

theorem chainTo_chainTree {node : Tree State} {cs : List Bytes} (hcs : ∀ c ∈ cs, NameOk c) :
    ChainTo node cs (chainTree node cs) := by
  induction cs with
  | nil => rfl
  | cons c cs ih =>
    obtain ⟨hc, hcs⟩ := List.forall_mem_cons.1 hcs
    have hl := Hash.holds_single hc (chainTree node cs)
    exact ⟨rfl, _, List.perm_singleton.1 hl.entries_perm, ih hcs⟩

/-- A first traversal that nothing stops leaves such a tree. -/
theorem reportable_of_surveyed {root : Entries} {man man' : ForksManager} {node : Tree State}
    (h : Surveyed root man man' node) (hpath : ∀ c ∈ components man.path, NameOk c) :
    Reportable man.path (solvedTree treeInit man.path node) node := by
  refine ⟨stored_solvedTree stored_treeInit hpath h.stored, ?_, fun x hx => ?_⟩
  · rw [solvedTree_treeInit]
    exact chainTo_chainTree hpath
  · obtain ⟨d, -, rfl⟩ := List.mem_map.1 (h.nodes.mem_iff.1 hx)
    rfl

/-- The bytes `forks_write` writes, with so large a buffer for the paths. -/
def forksWriteAt (fmt : Printing) (size fuel : Nat) (path : Bytes) (tre : Tree State) :
    Option Bytes :=
  (firstState fuel tre).bind fun found =>
    (treeWriteAt fmt found.1.size found.2 1 (str "/" ++ List.replicate (size - 1) 0)).map fun r =>
      str "1" ++ str "\nPath\tUsage\tSize\tAmount\n" ++ path ++ fmt.total found.1.size ++ r.1

/-- The line of a directory, by its names and its state. -/
def reportLine (fmt : Printing) (total : Int) (x : List Bytes × Option State) : Bytes :=
  x.2.elim [] fun st => str "|-/" ++ relPath x.1 ++ str " " ++ fmt.share st.size total

/-- A bar and the lines of each subtree. -/
def reportBody (fmt : Printing) (total : Int) (node : Tree State) : Bytes :=
  node.hsh.entries.flatMap fun e =>
    str "|\n" ++ (childNodes e).flatMap (reportLine fmt total)

/-- The type of the file, the header, the line of the path and the lines below. -/
def reportText (fmt : Printing) (path : Bytes) (node : Tree State) (total : Int) : Bytes :=
  str "1" ++ str "\nPath\tUsage\tSize\tAmount\n" ++ path ++ fmt.total total ++
    reportBody fmt total node

/-- With a state in every node, the whole body is written. -/
theorem treeWrite_body (fmt : Printing) (total : Int) {node : Tree State}
    (h : ∀ x ∈ hashNodes node.hsh, x.2.isSome) :
    treeWrite fmt total node (str "/") = some (reportBody fmt total node) := by
  rw [treeWrite_root, reportBody, concatAll_flatMap, ← concatAll_some]
  refine congrArg concatAll (List.map_congr_left fun e he => ?_)
  have hlines : (childNodes e).map (lineAt fmt total (str "/")) =
      (childNodes e).map fun x => some (reportLine fmt total x) := by
    refine List.map_congr_left fun x hx => ?_
    obtain ⟨st, hst⟩ := Option.isSome_iff_exists.1
      (h x (hashNodes_eq node.hsh ▸ List.mem_flatMap.2 ⟨e, he, hx⟩))
    rw [lineAt, reportLine, hst]
    rfl
  rw [hlines, concatAll, concatAll_some, Option.map_some]

/-- What `forks_write` writes of a completed traversal. -/
theorem Reportable.forksWrite (fmt : Printing) {path : Bytes} {tre node : Tree State}
    (h : Reportable path tre node) {st : State} (hst : node.info = some st) {fuel : Nat}
    (hfuel : (components path).length < fuel) :
    forksWrite fmt fuel path tre = some (reportText fmt path node st.size) := by
  have hbody := treeWrite_body fmt st.size fun x hx =>
    h.states x (nodes_eq node ▸ List.mem_cons_of_mem _ hx)
  rw [DiskAnalyzer.forksWrite, h.chain.firstState hst hfuel, Option.bind_some, hbody]
  rfl

/-- The report has one line for each node below the analysed one. -/
structure Lists (fmt : Printing) (size : Nat) (path : Bytes) (tre node : Tree State) (st : State) :
    Prop where
  state : node.info = some st
  ofPath : treeGetPath tre path = some node
  search : ∀ fuel > (components path).length, firstState fuel tre = some (st, node)
  written : ∀ fuel > (components path).length,
    forksWriteAt fmt size fuel path tre = some (reportText fmt path node st.size)
  byValue : ∀ fuel > (components path).length,
    forksWriteAt fmt size fuel path tre = forksWrite fmt fuel path tre
  /-- The nodes below are those of the subtrees behind the bars. -/
  subtrees : hashNodes node.hsh = node.hsh.entries.flatMap childNodes
  once : ((hashNodes node.hsh).map Prod.fst).Nodup
  parentsFirst : ParentsFirst ((hashNodes node.hsh).map Prod.fst)
  /-- Every call of the three functions, at any node and behind any path. -/
  restored : ∀ t p, Keeps p (treeWriteAt fmt st.size t p.length) ∧
    Keeps p (hashWriteAt fmt st.size t.hsh p.length) ∧
    ∀ l, Keeps p (listWriteAt fmt st.size l p.length)

end DiskAnalyzer
