import DiskAnalyzer.Reads

/-!
# What an uninterrupted traversal computes

A frame of `forks_fts_parc` that is not stopped reads its directory to the `FTS_DP`, and the frames
it starts read the subdirectories in between. So it comes back with the stream behind its
directory, and with a node for each directory in it. The induction is on the entries; it starts
anywhere in a directory, with what has been added up so far.

* `stopAt`: the subdirectory a first traversal is stopped at, if there is one.
* `Frame`: what a frame has done by its return.
* `walk_frame`: a frame does it that is not stopped.
* `solve_sizes`: a whole traversal.
-/

namespace DiskAnalyzer

open DiskAnalyzer.Tree Decimal

/-! ## The directories below a directory -/

/-- The entries that are files. -/
def FtsLeaf.isFile : FtsLeaf → Bool
  | FTS_DEFAULT | FTS_F | FTS_SL | FTS_SLNONE => true
  | _ => false

/-- The entries that are directories and are not entered. -/
def FtsLeaf.isDir : FtsLeaf → Bool
  | FTS_DC | FTS_DOT => true
  | _ => false

namespace Entries

/-- The entries anywhere below that are not entered, with `st_size`. -/
def leaves : Entries → List (FtsLeaf × Int)
  | nil => []
  | leaf info _ size next => (info, size) :: next.leaves
  | dir _ _ entries next => entries.leaves ++ next.leaves

/-- The sum of their sizes. -/
def sum (entries : Entries) : Int := (entries.leaves.map Prod.snd).sum

/-- The directories anywhere below, with their names and their entries. -/
def subdirs : Entries → List (List Bytes × Entries)
  | nil => []
  | leaf _ _ _ next => next.subdirs
  | dir name _ entries next =>
    ([name], entries) :: entries.subdirs.map (fun d => (name :: d.1, d.2)) ++ next.subdirs

/-- The number of files below. -/
def files (entries : Entries) : Nat := entries.leaves.countP (·.1.isFile)

/-- The number of `FTS_D`, `FTS_DC` and `FTS_DOT` below. -/
def dirs (entries : Entries) : Nat :=
  entries.subdirs.length + entries.leaves.countP (·.1.isDir)

/-- A directory that can be read: without errors, and with a name for each subdirectory. -/
def FileTree (entries : Entries) : Prop := entries.names.Nodup ∧ entries.Readable

instance (entries : Entries) : Decidable entries.FileTree :=
  inferInstanceAs (Decidable (entries.names.Nodup ∧ entries.Readable))

@[simp] theorem sum_nil : sum nil = 0 := rfl

@[simp] theorem sum_leaf (info : FtsLeaf) (name : Bytes) (size : Int) (next : Entries) :
    (leaf info name size next).sum = size + next.sum := rfl

@[simp] theorem sum_dir (name : Bytes) (size : Int) (entries next : Entries) :
    (dir name size entries next).sum = entries.sum + next.sum := by
  simp [sum, leaves]

theorem files_leaf (info : FtsLeaf) (name : Bytes) (size : Int) (next : Entries) :
    ((leaf info name size next).files : Int) = (FtsEnt.leaf info name size).files + next.files := by
  rw [files, leaves, List.countP_cons, files]
  cases info <;> simp [FtsLeaf.isFile, FtsEnt.files, Int.add_comm]

theorem files_dir (name : Bytes) (size : Int) (entries next : Entries) :
    (dir name size entries next).files = entries.files + next.files := by
  simp [files, leaves]

theorem dirs_leaf (info : FtsLeaf) (name : Bytes) (size : Int) (next : Entries) :
    ((leaf info name size next).dirs : Int) = (FtsEnt.leaf info name size).dirs + next.dirs := by
  rw [dirs, subdirs, leaves, List.countP_cons, dirs]
  cases info <;> simp [FtsLeaf.isDir, FtsEnt.dirs]
  all_goals omega

theorem dirs_dir (name : Bytes) (size : Int) (entries next : Entries) :
    (dir name size entries next).dirs = 1 + entries.dirs + next.dirs := by
  simp only [dirs, subdirs, leaves, List.length_append, List.length_cons, List.length_map,
    List.countP_append]
  omega

theorem map_fst_subdirs (entries : Entries) : entries.subdirs.map Prod.fst = entries.dirPaths := by
  induction entries with
  | nil => rfl
  | leaf info name size next ih => exact ih
  | dir name size entries next ih ih' =>
    simp only [subdirs, dirPaths, List.map_append, List.map_cons, List.map_map, ← ih, ← ih']
    rfl

theorem nameOk_of_mem_names {entries : Entries} (h : entries.Readable) {n : Bytes}
    (hn : n ∈ entries.names) : NameOk n := by
  induction entries with
  | nil => exact absurd hn List.not_mem_nil
  | leaf info name size next ih => exact ih h.2 hn
  | dir name size entries next _ ih' =>
    rcases List.mem_cons.1 hn with rfl | hn
    · exact h.1
    · exact ih' h.2.2 hn

end Entries

/-! ## The nodes of a tree -/

section Nodes

variable {α : Type}

mutual

/-- The nodes of a tree, with the names on the way and the infos. -/
def Tree.nodes : Tree α → List (List Bytes × Option α)
  | .mk info hsh => ([], info) :: hashNodes hsh

def hashNodes : Hash (Tree α) → List (List Bytes × Option α)
  | ⟨_, children⟩ => (List.range HASH_MOD.toNat).flatMap fun i : Nat => listNodes (children i)

def listNodes : List (Bytes × Tree α) → List (List Bytes × Option α)
  | [] => []
  | e :: next => childNodes e ++ listNodes next

def childNodes : Bytes × Tree α → List (List Bytes × Option α)
  | (name, node) => node.nodes.map fun n => (name :: n.1, n.2)

end

theorem nodes_eq (t : Tree α) : t.nodes = ([], t.info) :: hashNodes t.hsh := by
  cases t
  rw [nodes]
  rfl

theorem listNodes_eq (l : List (Bytes × Tree α)) : listNodes l = l.flatMap childNodes := by
  induction l with
  | nil => rw [listNodes, List.flatMap_nil]
  | cons e next ih => rw [listNodes, ih, List.flatMap_cons]

theorem hashNodes_empty : hashNodes (Hash.empty : Hash (Tree α)) = [] := by
  rw [Hash.empty, hashNodes]
  simp only [listNodes]
  exact List.flatMap_eq_nil_iff.2 fun _ _ => rfl

theorem hashNodes_eq (h : Hash (Tree α)) : hashNodes h = h.entries.flatMap childNodes := by
  obtain ⟨size, children⟩ := h
  rw [hashNodes, Hash.entries, List.flatMap_assoc]
  simp only [listNodes_eq]

theorem hashNodes_perm {h : Hash (Tree α)} {l : List (Bytes × Tree α)} (hl : h.Holds l) :
    (hashNodes h).Perm (l.flatMap childNodes) := by
  rw [hashNodes_eq]
  exact hl.entries_perm.flatMap_right _

end Nodes

/-- A frame's node gets the nodes of the frame it has started for a new name. -/
theorem nodes_returned {curr : Tree State} (ht : curr.Stored) {name : Bytes} (hn : NameOk name)
    (hf : hashFind curr.hsh name = none) (chld : Tree State) :
    (hashNodes (returned curr name chld).hsh).Perm
      (hashNodes curr.hsh ++ childNodes (name, chld)) := by
  obtain ⟨hl, hsub⟩ := ht
  rename_i i h l
  have hnew := hl.find_eq_none.1 hf
  have hset := ((hl.add hn hf treeInit treeInit).set name chld)
  rw [component_self hn.good.2] at hnew hset
  rw [replaceNamed_append hnew] at hset
  have hperm := hashNodes_perm hset
  rw [List.flatMap_append, List.flatMap_singleton] at hperm
  rw [returned, withChild_of_none hn hf]
  exact hperm.trans ((hashNodes_perm hl).symm.append_right _)

/-! ## Up to a stop -/

/-- The flags read on the way to the end of a directory. -/
def Entries.ticks : Entries → Nat
  | .nil => 1
  | .leaf _ _ _ next => 1 + next.ticks
  | .dir _ _ entries next => 2 + entries.ticks + next.ticks

/-- The first subdirectory that finds `*done` set when its `FTS_D` has been read, with its
entries. -/
def stopAt (done : Nat → Bool) (tick : Nat) : Entries → Option (List Bytes × Entries)
  | .nil => none
  | .leaf _ _ _ next => stopAt done (tick + 1) next
  | .dir name _ entries next =>
    if done (tick + 1) then some ([name], entries)
    else
      match stopAt done (tick + 2) entries with
      | some (z, below) => some (name :: z, below)
      | none => stopAt done (tick + 2 + entries.ticks) next

theorem stopAt_silent (entries : Entries) {done : Nat → Bool} (h : ∀ tick, done tick = false)
    (tick : Nat) : stopAt done tick entries = none := by
  induction entries generalizing tick with
  | nil => rfl
  | leaf info name size next ih => exact ih (tick + 1)
  | dir name size entries next ih ih' =>
    rw [stopAt, if_neg (by simp [h]), ih]
    exact ih' _

/-! ## The walk -/

theorem wrap32_add (x y : Int) : wrap32 (wrap32 x + y) = wrap32 (x + y) := Int.bmod_add_bmod

theorem wrap32_add_wrap32 (x y : Int) : wrap32 (wrap32 x + wrap32 y) = wrap32 (x + y) := by
  rw [wrap32_add, add_comm, wrap32_add, add_comm]

/-- The node a finished traversal makes of a directory. -/
def finished (d : List Bytes × Entries) : List Bytes × Option State :=
  (d.1, some ⟨wrap32 d.2.sum, 1⟩)

/-- What a frame has done by its return, when `entries` were ahead and `z` had been added up. -/
structure Frame (entries : Entries) (z : Int) (man : ForksManager) (curr : Tree State)
    (man' : ForksManager) (curr' : Tree State) : Prop where
  stored : curr'.Stored
  info : curr'.info = some ⟨wrap32 (z + entries.sum), 1⟩
  nodes : (hashNodes curr'.hsh).Perm (hashNodes curr.hsh ++ entries.subdirs.map finished)
  dirs : man'.dirs = man.dirs + entries.dirs
  files : man'.files = man.files + entries.files

section Walk

variable {env : WorkerEnv} {man man₁ man₂ man' : ForksManager} {curr chld curr' : Tree State}
  {z : Int} {next entries : Entries}

/-- The frame reads an entry that is not entered. -/
theorem Frame.leaf {info : FtsLeaf} {name : Bytes} {size : Int}
    (h : Frame next (z + size) (polled env man (.leaf info name size)) (curr.addSize size) man'
      curr') : Frame (.leaf info name size next) z man curr man' curr' where
  stored := h.stored
  info := by rw [h.info, Entries.sum_leaf, add_assoc]
  nodes := h.nodes
  dirs := by
    rw [h.dirs, dirs_polled, Entries.dirs_leaf]
    omega
  files := by
    rw [h.files, files_polled, Entries.files_leaf]
    omega

/-- The node of a started frame, with the nodes below it. -/
theorem Frame.childNodes (h : Frame entries 0 man₁ (treeInit : Tree State).enter man₂ chld)
    (name : Bytes) : (childNodes (name, chld)).Perm
      (finished ([name], entries) ::
        (entries.subdirs.map fun d => (name :: d.1, d.2)).map finished) := by
  have hnodes := h.nodes
  have hempty : hashNodes (treeInit : Tree State).enter.hsh = [] := hashNodes_empty
  rw [hempty, List.nil_append] at hnodes
  rw [DiskAnalyzer.childNodes, nodes_eq, h.info, zero_add, List.map_cons]
  refine List.Perm.cons _ ((hnodes.map _).trans (List.Perm.of_eq ?_))
  rw [List.map_map, List.map_map]
  rfl

/-- The frame starts one for a subdirectory and goes on. -/
theorem Frame.dir {name : Bytes} {size : Int} (ht : curr.Stored) (hn : NameOk name)
    (hf : hashFind curr.hsh name = none)
    (hchild : Frame entries 0 (polled env man (.FTS_D name size)).ticked
      (treeInit : Tree State).enter man₁ chld)
    (h : Frame next (z + entries.sum) man₁ (returned curr name chld) man' curr') :
    Frame (.dir name size entries next) z man curr man' curr' where
  stored := h.stored
  info := by rw [h.info, Entries.sum_dir, add_assoc]
  nodes := by
    have hmid := (nodes_returned ht hn hf chld).trans ((hchild.childNodes name).append_left _)
    refine h.nodes.trans ((hmid.append_right _).trans (List.Perm.of_eq ?_))
    rw [Entries.subdirs, List.map_append, List.map_cons, List.append_assoc]
  dirs := by
    rw [h.dirs, hchild.dirs, ForksManager.dirs_ticked, dirs_polled, Entries.dirs_dir]
    simp only [FtsEnt.dirs]
    omega
  files := by
    rw [h.files, hchild.files, ForksManager.files_ticked, files_polled, Entries.files_dir]
    simp only [FtsEnt.files]
    omega

/-- What a started frame leaves behind for the frame that goes on. -/
theorem info_returned {name : Bytes} (hn : NameOk name) (hinfo : curr.info = some ⟨wrap32 z, 0⟩)
    {size done : Int} (hchld : chld.info = some ⟨wrap32 size, done⟩) :
    (returned curr name chld).info = some ⟨wrap32 (z + size), 0⟩ := by
  rw [returned, addSize, modifyState, info_mk, info_setChild, info_withChild hn, hinfo,
    Option.map_some, stateSize, hchld, Option.map_some, Option.getD_some, wrap32_add_wrap32]

/-- No other name has got a node. -/
theorem find_returned_ahead {name : Bytes} {size : Int} (ht : curr.Stored)
    (hr : (Entries.dir name size entries next).Readable)
    (hnames : (Entries.dir name size entries next).names.Nodup)
    (hnew : ∀ n ∈ (Entries.dir name size entries next).names, hashFind curr.hsh n = none) :
    ∀ n ∈ next.names, hashFind (returned curr name chld).hsh n = none := by
  obtain ⟨hname, -, hnext⟩ := hr
  obtain ⟨hother, -⟩ := List.nodup_cons.1 hnames
  intro n hn
  have hne : n ≠ name := fun heq => hother (heq ▸ hn)
  rw [find_returned ht hname chld (Entries.nameOk_of_mem_names hnext hn).good, if_neg hne]
  exact hnew n (List.mem_cons_of_mem _ hn)

/-- A frame is started for a subdirectory ahead. -/
theorem Walk.start {name : Bytes} {size : Int} {up up' : Fts} {parc : Parc}
    (hint : env.sigint = none) (hdone : env.done (man.tick + 1) = false) (ht : curr.Stored)
    (hn : NameOk name) (hinfo : curr.info = some ⟨wrap32 z, 0⟩) (hf : hashFind curr.hsh name = none)
    (hchild : Walk env (polled env man (.FTS_D name size)).ticked (treeInit : Tree State).enter
      (entries :: next :: up) ⟨0, man₁, chld, up'⟩)
    (h : Walk env man₁ (returned curr name chld) up' parc) :
    Walk env man curr (.dir name size entries next :: up) parc := by
  have hdone' : curr.isDone = false := by
    rw [isDone, hinfo]
    rfl
  have hinit : frameChild curr name = treeInit := by
    rw [frameChild, hf]
    rfl
  refine .child (by simp [WorkerEnv.interrupted, hint]) rfl (by rw [tick_polled, hdone])
    (find_frameChild ht hn) (by rw [isDone_withChild hn, hdone']) ?_ h
  rw [hinit]
  exact hchild

/-- **A frame that is not stopped reads its directory to the end.** Its node is not done, and has
none yet for the subdirectories ahead. -/
theorem walk_frame (hint : env.sigint = none) (entries : Entries) (hr : entries.Readable)
    (hnames : entries.names.Nodup) (man : ForksManager)
    (hstop : stopAt env.done man.tick entries = none) {curr : Tree State} (ht : curr.Stored)
    (z : Int) (hinfo : curr.info = some ⟨wrap32 z, 0⟩)
    (hnew : ∀ n ∈ entries.names, hashFind curr.hsh n = none) (up : Fts) :
    ∃ man' curr', Frame entries z man curr man' curr' ∧ man'.tick = man.tick + entries.ticks ∧
      Walk env man curr (entries :: up) ⟨0, man', curr', up⟩ := by
  have hquiet : ∀ man : ForksManager, env.interrupted man.tick = false := by
    intro man
    simp [WorkerEnv.interrupted, hint]
  induction entries generalizing man curr z up with
  | nil =>
    refine ⟨polled env man .FTS_DP, curr.modifyState fun st => { st with done := 1 },
      ⟨ht.modifyState _, ?_, ?_, ?_, ?_⟩, tick_polled env man _, .leave (hquiet man) rfl⟩
    · rw [modifyState, info_mk, hinfo, Entries.sum_nil, add_zero]
      rfl
    · rw [Entries.subdirs, List.map_nil, List.append_nil]
      exact List.Perm.refl _
    · exact dirs_polled env man .FTS_DP
    · exact files_polled env man .FTS_DP
  | leaf info name size next ih =>
    obtain ⟨hfails, hnext⟩ := hr
    obtain ⟨man', curr', hframe, htick, hwalk⟩ := ih hnext hnames
      (polled env man (.leaf info name size)) (by rw [tick_polled]; exact hstop) (ht.addSize size)
      (z + size) (by rw [addSize, modifyState, info_mk, hinfo, Option.map_some, wrap32_add]) hnew up
    refine ⟨man', curr', hframe.leaf, ?_, .leaf (hquiet man) rfl hfails hwalk⟩
    rw [htick, tick_polled, Entries.ticks]
    omega
  | dir name size entries next ih ih' =>
    have hreadable := hr
    obtain ⟨hname, ⟨hsub, hentries⟩, hnext⟩ := hr
    have hf := hnew name List.mem_cons_self
    have htick₀ : (polled env man (.FTS_D name size)).ticked.tick = man.tick + 2 := by
      rw [ForksManager.ticked, tick_polled]
    rw [stopAt] at hstop
    split_ifs at hstop with hdone
    cases hbelow : stopAt env.done (man.tick + 2) entries with
    | some zb =>
      rw [hbelow] at hstop
      simp at hstop
    | none =>
      rw [hbelow] at hstop
      obtain ⟨mid, chld, hframe, htick, hwalk⟩ := ih hentries hsub
        (polled env man (.FTS_D name size)).ticked (by rw [htick₀, hbelow]) stored_treeInit.enter 0
        rfl (fun _ _ => rfl) (next :: up)
      rw [htick₀] at htick
      have hinfo' := info_returned hname hinfo hframe.info
      rw [zero_add] at hinfo'
      obtain ⟨man', curr', hframe', htick', hwalk'⟩ := ih' hnext (List.nodup_cons.1 hnames).2 mid
        (by rw [htick]; exact hstop) (stored_returned ht hname hframe.stored) (z + entries.sum)
        hinfo' (find_returned_ahead ht hreadable hnames hnew) up
      refine ⟨man', curr', hframe.dir ht hname hf hframe', ?_,
        .start hint (by simpa using hdone) ht hname hinfo hf hwalk hwalk'⟩
      rw [htick', htick, Entries.ticks]
      omega

end Walk

/-! ## The whole traversal -/

theorem good_treeSetPath {t n : Tree State} (hg : t.Good) (path : Bytes) (hn : n.Good) :
    (treeSetPath t path n).Good := by
  induction path using components.induct generalizing t with
  | case1 path hp =>
    rw [treeSetPath, dif_pos hp]
    exact hn
  | case2 path hp _ ih =>
    rw [treeSetPath, dif_neg hp]
    dsimp only
    cases hf : hashFind t.hsh (skipSlashes path) with
    | none => exact hg
    | some nxt => exact good_setChild hg _ (ih (hg.child hf))

/-- A way of directories without states down to a node. -/
def chainTree (node : Tree State) : List Bytes → Tree State
  | [] => node
  | c :: cs => .mk none (hashOf [(c, chainTree node cs)])

/-- **The tree of a first traversal** is the way to its node. -/
theorem solvedTree_treeInit (node : Tree State) (path : Bytes) :
    solvedTree treeInit path node = chainTree node (components path) := by
  induction path using components.induct with
  | case1 path hp => rw [solvedTree, treeSetPath, dif_pos hp, components_of_nil hp, chainTree]
  | case2 path hp _ ih =>
    have hself := nameMatches_self (component (skipSlashes path))
    rw [component_self (slash_notMem_component _)] at hself
    have hchain : ∀ old new : Tree State,
        listSet [(component (skipSlashes path), old)] (skipSlashes path) new =
          [(component (skipSlashes path), new)] := by
      intro old new
      rw [listSet, if_pos (nameMatches_self _)]
    have hinsert : (treeInsert (treeInit : Tree State) path none none).2 =
        .mk none (hashOf [(component (skipSlashes path),
          (treeInsert (treeInit : Tree State) (afterComponent (skipSlashes path)) none
            none).2)]) := by
      rw [treeInsert_of_ne hp]
      dsimp only [treeInit, hsh_mk, info_mk]
      rw [hashFind_empty]
      dsimp only
      rw [if_neg (by simp), hashInsert_of_none (hashFind_empty _), hashSet]
      dsimp only [Hash.empty]
      rw [Function.update_self, Function.update_idem, listPush, listSet, if_pos hself,
        hashOf_single _ _ (0 + 1) (by decide)]
      rfl
    rw [components_of_ne hp, chainTree, ← ih, solvedTree, treeSetPath, dif_neg hp, hinsert]
    dsimp only
    rw [hsh_mk, ← hashOf_single _ _ 1 rfl, hashFind]
    dsimp only
    rw [getKey_component, Function.update_self, listFind, if_pos (nameMatches_self _)]
    dsimp only
    rw [setChild, hashSet, hsh_mk, info_mk]
    dsimp only
    rw [Function.update_self, Function.update_idem, hchain, ← getKey_component,
      hashOf_single _ _ 1 rfl]
    rfl

theorem getPath_chainTree (node : Tree State) (path : Bytes) :
    treeGetPath (chainTree node (components path)) path = some node := by
  induction path using components.induct with
  | case1 path hp => rw [components_of_nil hp, chainTree, treeGetPath, dif_pos hp]
  | case2 path hp _ ih =>
    rw [components_of_ne hp, chainTree, treeGetPath_of_ne hp, hsh_mk, ← hashOf_single _ _ 1 rfl,
      hashFind]
    dsimp only
    rw [getKey_component, Function.update_self, listFind, if_pos (nameMatches_self _)]
    exact ih

/-- The node of the path is the one the frame has left. -/
theorem getPath_solvedTree {tre curr : Tree State} (hg : tre.Good) (hcurr : curr.Good)
    (path : Bytes) : treeGetPath (solvedTree tre path curr) path = some curr := by
  have hinsert := (insert_spec hg path none none).1
  rw [solvedTree, getPath_eq (good_treeSetPath hinsert path hcurr)]
  exact walk_treeSetPath hinsert (walk_treeInsert hg path none) curr

/-- What a whole traversal has counted, and the node it leaves for the path. -/
structure Surveyed (root : Entries) (man man' : ForksManager) (node : Tree State) : Prop where
  stored : node.Stored
  info : node.info = some ⟨wrap32 root.sum, 1⟩
  nodes : node.nodes.Perm ((([], root) :: root.subdirs).map finished)
  dirs : man'.dirs = man.dirs + root.dirs
  files : man'.files = man.files + root.files

theorem solve_unstopped {env : WorkerEnv} (hint : env.sigint = none) {root : Entries}
    (hroot : root.FileTree) (man : ForksManager) (hstop : stopAt env.done man.tick root = none) :
    ∃ man' node, Surveyed root man man' node ∧ man'.tick = man.tick + root.ticks ∧
      ∀ fuel ≥ root.weight, forksSolve env fuel man treeInit (some root) =
        some ⟨0, man', solvedTree treeInit man.path node⟩ := by
  have hstart : (startNode treeInit man.path).Stored := stored_startNode stored_treeInit
  obtain ⟨man', node, hframe, htick, hwalk⟩ := walk_frame hint root hroot.2 hroot.1
    { man with lastSend := env.now man.tick } hstop hstart 0 rfl
    (fun n _ => find_startNode_treeInit n) []
  have hinfo : node.info = some ⟨wrap32 root.sum, 1⟩ := by rw [hframe.info, zero_add]
  refine ⟨man', node, ⟨hframe.stored, hinfo, ?_, hframe.dirs, hframe.files⟩, htick, ?_⟩
  · have hnodes := hframe.nodes
    rw [startNode, walk_treeInit, hsh_mk, show (treeInit : Tree State).hsh = Hash.empty from rfl,
      hashNodes_empty, List.nil_append] at hnodes
    rw [nodes_eq, hinfo, List.map_cons]
    exact hnodes.cons _
  · intro fuel hfuel
    rw [forksSolve_eq stored_treeInit,
      parc_of_walk_quiet hint hwalk (by simpa [Fts.weight] using hfuel)]
    rfl

theorem solve_surveyed {env : WorkerEnv} (he : env.Silent) {root : Entries}
    (hroot : root.FileTree) (man : ForksManager) :
    ∃ man' node, Surveyed root man man' node ∧ ∀ fuel ≥ root.weight,
      forksSolve env fuel man treeInit (some root) =
        some ⟨0, man', solvedTree treeInit man.path node⟩ := by
  obtain ⟨man', node, hm, -, hsolve⟩ := solve_unstopped he.2 hroot man
    (stopAt_silent root (fun _ => by simp [WorkerEnv.done, he.1]) _)
  exact ⟨man', node, hm, hsolve⟩

/-- **An uninterrupted traversal computes every directory's size**, with exactly one node for each
directory, and counts every entry. -/
theorem solve_sizes {env : WorkerEnv} (he : env.Silent) {root : Entries} (hroot : root.FileTree)
    (man : ForksManager) :
    ∃ man' tre node,
      (∀ fuel ≥ root.weight,
        forksSolve env fuel man treeInit (some root) = some ⟨0, man', tre⟩) ∧
      treeGetPath tre man.path = some node ∧
      node.nodes.Perm ((([], root) :: root.subdirs).map finished) ∧
      (root.subdirs.map Prod.fst).Nodup ∧
      man'.dirs = man.dirs + root.dirs ∧ man'.files = man.files + root.files := by
  obtain ⟨man', node, hm, hsolve⟩ := solve_surveyed he hroot man
  refine ⟨man', solvedTree treeInit man.path node, node, hsolve,
    getPath_solvedTree good_treeInit hm.stored.good man.path, hm.nodes, ?_, hm.dirs, hm.files⟩
  rw [Entries.map_fst_subdirs]
  exact Entries.nodup_dirPaths_of_readable hroot.1 hroot.2

/-- Two directories, and a clock on which every tick is a second. -/
theorem solve_sizes_twoDirs :
    ∃ man' tre node,
      (∀ fuel ≥ twoDirs.weight,
        forksSolve (termedAt none) fuel (newWorker 7 (str "/d")) treeInit (some twoDirs) =
          some ⟨0, man', tre⟩) ∧
      treeGetPath tre (newWorker 7 (str "/d")).path = some node ∧
      node.nodes.Perm ((([], twoDirs) :: twoDirs.subdirs).map finished) ∧
      (twoDirs.subdirs.map Prod.fst).Nodup ∧
      man'.dirs = (newWorker 7 (str "/d")).dirs + twoDirs.dirs ∧
      man'.files = (newWorker 7 (str "/d")).files + twoDirs.files :=
  solve_sizes ⟨rfl, rfl⟩ (by decide +kernel) _

end DiskAnalyzer
