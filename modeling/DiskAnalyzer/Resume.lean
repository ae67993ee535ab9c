import DiskAnalyzer.Announce
import DiskAnalyzer.Counting
import Mathlib.Data.List.Perm.Subperm

/-!
# Resuming a stopped traversal

A worker that was stopped saves its tree, and the next worker for the analysis starts from it. The
results should be those of one worker that was never stopped. They are not: the next worker counts
every directory with a frame of its own again, `.` and `..` included, and it needs a frame for each
directory that has no state yet. What is saved by not going into a directory that is done is less
than what is counted twice on the way (`counted_too_often`).

`same_iff_not_stopped` compares an analysis with at most one stop with an uninterrupted one.
-/

namespace DiskAnalyzer

open DiskAnalyzer.Tree

/-! ## The workers of an analysis -/

/-- What an analysis ends with: the last worker's tree, and the messages of all its workers. -/
structure Outcome where
  tre : Tree State
  sent : List Sent

/-- A worker up to its `'1'`: it loads the progress, and `forks_solve` runs to its end. -/
def lastWorker (env : WorkerEnv) (fuel : Nat) (id : Int) (path : Bytes) (root : Entries)
    (file : Bytes) : Option Outcome :=
  (forksReadProgress fuel file).bind fun loaded =>
    (forksSolve env fuel ⟨id, path, 0, 0, 0, 0, []⟩ loaded.2 (some root)).bind fun solved =>
      if loaded.1 = 0 ∧ solved.ret = 0 then
        some ⟨solved.tre, (forksSendResult env solved.man.ticked.ticked 1).sent⟩
      else none

/-- An analysis whose workers are stopped, each before the next, and then a last one. -/
def analyse (last : WorkerEnv) (fmt : Printing) (fuel : Nat) (id : Int) (path : Bytes)
    (root : Entries) : List WorkerEnv → Bytes → Option Outcome
  | [], file => lastWorker last fuel id path root file
  | stop :: stops, file =>
    (forksAdd stop fmt fuel id path (some root) file).bind fun out =>
      (analyse last fmt fuel id path root stops out.file).map fun o =>
        { o with sent := o.sent ++ out.sent }

/-- The size at a directory, by its components below the analysed one. -/
def sizeAt (tre : Tree State) (path : Bytes) (p : List Bytes) : Option Int :=
  (tre.val (components path ++ p)).map State.size

/-- The same sizes for the analysed directory and all below it, and the same counts. -/
structure Same (path : Bytes) (root : Entries) (a b : Outcome) : Prop where
  sizes : ∀ p ∈ [] :: root.dirPaths, sizeAt a.tre path p = sizeAt b.tre path p
  dirs : dirsSent a.sent = dirsSent b.sent
  files : filesSent a.sent = filesSent b.sent

/-- No signal arrives. -/
def WorkerEnv.Silent (env : WorkerEnv) : Prop := env.sigterm = none ∧ env.sigint = none

/-- `SIGTERM` arrives before the first traversal of the directory is over, and `SIGINT` does not. -/
def WorkerEnv.Stops (env : WorkerEnv) (id : Int) (path : Bytes) (root : Entries) : Prop :=
  env.sigint = none ∧ ∀ fuel man tre,
    Traversed env fuel id path (some root) [] man tre → env.done man.tick = true

/-! ## The node a traversal starts from -/

section Solve

variable {tre : Tree State} {path : Bytes}

/-- The node of the path, with a state that `tree_insert` has made it lose and the first frame has
made new. -/
def startNode (tre : Tree State) (path : Bytes) : Tree State :=
  .mk (some ⟨0, 0⟩) ((tre.walk (components path)).getD treeInit).hsh

/-- The tree with the node of the path replaced. -/
def solvedTree (tre : Tree State) (path : Bytes) (curr : Tree State) : Tree State :=
  treeSetPath (treeInsert tre path none none).2 path curr

theorem walk_append (t : Tree State) (cs ds : List Bytes) :
    t.walk (cs ++ ds) = (t.walk cs).bind fun n => n.walk ds := by
  induction cs generalizing t with
  | nil => rfl
  | cons c cs ih =>
    rw [List.cons_append, walk, walk, Option.bind_assoc]
    simp only [ih]

theorem val_append (t : Tree State) (cs ds : List Bytes) :
    t.val (cs ++ ds) = (t.walk cs).bind fun n => n.val ds := by
  unfold val
  rw [walk_append, Option.bind_assoc]

theorem walk_treeInit (cs : List Bytes) :
    ((treeInit : Tree State).walk cs).getD treeInit = treeInit := by
  cases cs <;> rfl

theorem stored_walk {t : Tree State} (ht : t.Stored) {cs : List Bytes} {n : Tree State}
    (h : t.walk cs = some n) : n.Stored := by
  induction cs generalizing t with
  | nil =>
    obtain rfl := Option.some.inj h
    exact ht
  | cons c cs ih =>
    obtain ⟨n', hn', h⟩ := Option.bind_eq_some_iff.1 h
    exact ih (ht.child hn') h

theorem stored_startNode (ht : tre.Stored) : (startNode tre path).Stored := by
  unfold startNode
  cases hw : tre.walk (components path) with
  | none => exact stored_treeInit.withInfo _
  | some n => exact (stored_walk ht hw).withInfo _

/-- `tree_insert` with `NULL` makes the node, or takes its state. -/
theorem walk_treeInsert (hg : tre.Good) (path : Bytes) (i : Option State) :
    (treeInsert tre path i none).2.walk (components path) =
      some (.mk i ((tre.walk (components path)).getD treeInit).hsh) := by
  induction path using components.induct generalizing tre with
  | case1 path hp =>
    rw [treeInsert_of_nil hp, components_of_nil hp]
    rfl
  | case2 path hp _ ih =>
    have hname := goodName_component hp
    have hcomp := component_self hname.2
    rw [components_of_ne hp, walk, walk]
    cases hf : hashFind tre.hsh (skipSlashes path) with
    | some n =>
      have hf' : hashFind tre.hsh (component (skipSlashes path)) = some n := by
        rw [hashFind_component hg.hsh, hf]
      rw [treeInsert_found hp hf, find_setChild hg hf hname, if_pos rfl, hf', Option.bind_some,
        Option.bind_some, ih (hg.child hf)]
    | none =>
      have hf' : hashFind tre.hsh (component (skipSlashes path)) = none := by
        rw [hashFind_component hg.hsh, hf]
      rw [treeInsert_new hp hf' hf i (by simp), hsh_mk, find_insertChild hg hname hf' hname,
        if_pos rfl, hf', Option.bind_some, Option.bind_none, Option.map_none, ih good_treeInit,
        walk_treeInit]
      rfl

theorem walk_treeSetPath {t old : Tree State} (hg : t.Good) {path : Bytes}
    (h : t.walk (components path) = some old) (n : Tree State) :
    (treeSetPath t path n).walk (components path) = some n := by
  induction path using components.induct generalizing t with
  | case1 path hp =>
    rw [treeSetPath, dif_pos hp, components_of_nil hp]
    rfl
  | case2 path hp _ ih =>
    have hname := goodName_component hp
    rw [components_of_ne hp, walk, hashFind_component hg.hsh] at h
    obtain ⟨nxt, hf, h⟩ := Option.bind_eq_some_iff.1 h
    rw [treeSetPath, dif_neg hp, components_of_ne hp, walk]
    dsimp only
    rw [hf]
    dsimp only
    rw [find_setChild hg hf hname, if_pos rfl, Option.bind_some, ih (hg.child hf) h]

/-- What is stored below the analysed directory is what the traversal has left. -/
theorem val_solvedTree (hg : tre.Good) (curr : Tree State) (p : List Bytes) :
    (solvedTree tre path curr).val (components path ++ p) = curr.val p := by
  rw [val_append, solvedTree, walk_treeSetPath (insert_spec hg path none none).1
    (walk_treeInsert hg path none), Option.bind_some]

/-- The traversal starts with the states below the analysed directory. -/
theorem hasState_startNode {c : Bytes} {p : List Bytes} :
    (startNode tre path).HasState (c :: p) ↔ tre.HasState (components path ++ c :: p) := by
  unfold startNode HasState
  rw [val_append]
  cases hw : tre.walk (components path) with
  | none => exact Iff.rfl
  | some n =>
    rw [val_cons, Option.bind_some, val_cons]
    exact Iff.rfl

theorem hasState_startNode_nil : (startNode tre path).HasState [] := Option.some_ne_none _

theorem find_startNode_treeInit (n : Bytes) : hashFind (startNode treeInit path).hsh n = none := by
  rw [startNode, walk_treeInit]
  rfl

/-- `forks_solve` runs `forks_fts_parc` once. -/
theorem forksSolve_eq (ht : tre.Stored) (env : WorkerEnv) (fuel : Nat) (man : ForksManager)
    (root : Entries) :
    forksSolve env fuel man tre (some root) =
      (forksFtsParc env fuel { man with lastSend := env.now man.tick } (startNode tre man.path)
        [root]).map fun parc =>
          ⟨if parc.ret ≠ 0 then 1 else 0, parc.man, solvedTree tre man.path parc.curr⟩ := by
  unfold forksSolve
  dsimp only
  rw [getPath_eq (insert_spec ht.good man.path none none).1, walk_treeInsert ht.good]
  dsimp only
  rw [if_neg (by simp [isDone])]
  rfl

variable {env : WorkerEnv} {root : Entries}

/-- With enough fuel `forks_solve` returns 0, after a walk. -/
theorem exists_solve (hint : env.sigint = none) (hroot : root.Directory) (ht : tre.Stored)
    (man : ForksManager) :
    ∃ t man' curr' ftsp',
      Calm env t { man with lastSend := env.now man.tick } (startNode tre man.path) [root] man'
        curr' ftsp' ∧
      ∀ fuel > root.weight, forksSolve env fuel man tre (some root) =
        some ⟨0, man', solvedTree tre man.path curr'⟩ := by
  have hstart : (startNode tre man.path).Stored := stored_startNode ht
  have hclean : ∀ e ∈ [root], e.Clean := List.forall_mem_singleton.2 hroot.2.2
  obtain ⟨t, man', curr', ftsp', hcalm⟩ :=
    exists_calm env { man with lastSend := env.now man.tick } (startNode tre man.path) hclean
      (List.cons_ne_nil root [])
  refine ⟨t, man', curr', ftsp', hcalm, ?_⟩
  intro fuel hfuel
  rw [forksSolve_eq ht, hcalm.parc hint hclean hstart (by simpa [Fts.weight] using hfuel)]
  rfl

end Solve

/-! ## What is counted twice -/

section Twice

variable {stop last : WorkerEnv} {t u : Trace} {man mid man₂ man' : ForksManager}
  {curr c₁ curr₂ c₂ : Tree State} {f₁ f₂ : Fts} {root : Entries}

/-- The directories strictly between the analysed one and `z`. -/
def between (z : List Bytes) : List (List Bytes) :=
  (List.range (z.length - 1)).map fun i => z.take (i + 1)

theorem mem_between {z q : List Bytes} (h : q ∈ between z) : q ≠ [] ∧ ∃ r, r ≠ [] ∧ q ++ r = z := by
  obtain ⟨i, hi, rfl⟩ := List.mem_map.1 h
  rw [List.mem_range] at hi
  have htake : (z.take (i + 1)).length = i + 1 := by
    rw [List.length_take]
    omega
  refine ⟨?_, z.drop (i + 1), ?_, List.take_append_drop _ _⟩
  · intro hnil
    simp [hnil] at htake
  · intro hnil
    have hdrop := List.length_drop (l := z) (i := i + 1)
    rw [hnil, List.length_nil] at hdrop
    omega

theorem nodup_between (z : List Bytes) : (between z).Nodup := by
  refine List.Nodup.of_map List.length ?_
  have hlengths : (between z).map List.length = (List.range (z.length - 1)).map (· + 1) := by
    rw [between, List.map_map]
    refine List.map_congr_left ?_
    intro i hi
    rw [List.mem_range] at hi
    rw [Function.comp_apply, List.length_take]
    omega
  rw [hlengths]
  exact List.nodup_range.map fun _ _ h => Nat.succ.inj h

/-- **Two traversals count too much.** A first one, stopped or not, and a second one behind which
every directory has a state count more directories together than there are. -/
theorem counted_too_often (hroot : root.Directory)
    (h₁ : Calm stop t man curr [root] mid c₁ f₁) (ht : curr.Stored) (hcurr : curr.isDone = false)
    (hstate : curr.HasState []) (habsent : ∀ n, hashFind curr.hsh n = none)
    (h₂ : Calm last u man₂ curr₂ [root] man' c₂ f₂) (ht₂ : curr₂.Stored)
    (hcurr₂ : curr₂.isDone = false) (hlast : last.sigterm = none)
    (hloaded : ∀ p ∈ root.dirPaths, curr₂.HasState p → c₁.HasState p)
    (hall : ∀ p ∈ root.dirPaths, c₂.HasState p) :
    man.dirs + man₂.dirs + root.dirCount < mid.dirs + man'.dirs := by
  classical
  have hgood : ∀ p ∈ root.dirPaths, GoodNames p := fun p hp =>
    Entries.goodNames_of_mem_dirPaths hroot.2.2 hp
  have hnodup := Entries.nodup_dirPaths hroot.2.1 hroot.2.2
  have hcount := Entries.dirCount_eq hroot.2.2
  have hdots := hroot.1
  have hdirs₁ := h₁.le_dirs hdots hcurr
  have hdirs₂ := h₂.le_dirs hdots hcurr₂
  rw [h₂.stops_eq_zero hlast] at hdirs₂
  -- The directories that have a state after the first traversal, and those that have none.
  have hsplit := List.length_eq_length_filter_add (l := root.dirPaths)
    fun p => decide (c₁.HasState p)
  have hfound : (root.dirPaths.filter fun p => decide (c₁.HasState p)).length ≤
      t.visited.length := by
    refine (List.subperm_of_subset (hnodup.filter _) ?_).length_le
    intro p hp
    obtain ⟨hp, hp'⟩ := List.mem_filter.1 hp
    refine (h₁.origin ht (hgood p hp) (of_decide_eq_true hp')).resolve_right ?_
    intro hold
    obtain ⟨n, -, q, rfl⟩ := Entries.head_of_mem_dirPaths hp
    obtain ⟨m, hm, -⟩ := hasState_cons.1 hold
    rw [habsent n] at hm
    simp at hm
  rcases h₁.fresh ht hroot.2.2 hroot.2.1 hcurr hstate fun n _ => habsent n with hfin | ⟨z, hz⟩
  · have hnone : (root.dirPaths.filter fun p => !decide (c₁.HasState p)) = [] :=
      List.filter_eq_nil_iff.2 fun p hp => by simpa using hfin.states p hp
    rw [hnone, List.length_nil] at hsplit
    rw [hfin.stops] at hdirs₁
    omega
  · -- The second traversal starts a frame for each that has none, and for those above `z`.
    have hvisited : ∀ p ∈ root.dirPaths, ¬ c₁.HasState p → p ∈ u.visited := fun p hp hp' =>
      (h₂.origin ht₂ (hgood p hp) (hall p hp)).resolve_right fun hold => hp' (hloaded p hp hold)
    have hz' := hvisited z hz.mem hz.noState
    have hagain : ((root.dirPaths.filter fun p => !decide (c₁.HasState p)) ++ between z).length ≤
        u.visited.length := by
      refine (List.subperm_of_subset
        (List.nodup_append.2 ⟨hnodup.filter _, nodup_between z, ?_⟩) ?_).length_le
      · intro p hp q hq hpq
        obtain ⟨-, r, hr, hqr⟩ := mem_between hq
        have hnot := (List.mem_filter.1 hp).2
        simp [hpq, hz.above q r hr hqr] at hnot
      · intro p hp
        rcases List.mem_append.1 hp with hp | hp
        · obtain ⟨hp, hp'⟩ := List.mem_filter.1 hp
          exact hvisited p hp (by simpa using hp')
        · obtain ⟨hne, r, -, hqr⟩ := mem_between hp
          exact h₂.prefix_visited hne (hqr.symm ▸ hz')
    rw [List.length_append, between, List.length_map, List.length_range] at hagain
    have hpos : 0 < z.length := by
      obtain ⟨n, -, q, rfl⟩ := Entries.head_of_mem_dirPaths hz.mem
      exact Nat.succ_pos _
    have hstops := hz.stops_le
    omega

end Twice

/-! ## Stopped once, or not -/

section Resumed

variable {stop last whole : WorkerEnv} {fmt : Printing} {id : Int} {path file : Bytes}
  {root : Entries} {tre : Tree State}

/-- A worker when it has been forked. -/
def newWorker (id : Int) (path : Bytes) : ForksManager := ⟨id, path, 0, 0, 0, 0, []⟩

theorem stored_solvedTree (ht : tre.Stored) (hpath : ∀ c ∈ components path, NameOk c)
    {curr : Tree State} (hcurr : curr.Stored) : (solvedTree tre path curr).Stored :=
  stored_treeSetPath (stored_treeInsert ht hpath none) path hcurr

/-- The stopped worker saves the tree its walk has left. -/
theorem exists_stopped (hstop : stop.Stops id path root) (hroot : root.Directory) :
    ∃ t mid c₁ f₁,
      Calm stop t { newWorker id path with lastSend := stop.now 0 } (startNode treeInit path) [root]
        mid c₁ f₁ ∧
      ∀ fuel > root.weight, ∀ fmt, forksAdd stop fmt fuel id path (some root) [] =
        some ⟨0, (forksSendResult stop mid.ticked.ticked 2).sent,
          overwrite [] (forksSave (solvedTree treeInit path c₁))⟩ := by
  obtain ⟨hint, hdone⟩ := hstop
  obtain ⟨t, mid, c₁, f₁, hcalm, hsolve⟩ :=
    exists_solve hint hroot stored_treeInit (newWorker id path)
  refine ⟨t, mid, c₁, f₁, hcalm, ?_⟩
  intro fuel hfuel fmt
  have hmid := hdone fuel mid _ ⟨treeInit, rfl, hsolve fuel hfuel⟩
  have h₁ : stop.done mid.ticked.tick = true := WorkerEnv.done_mono hmid (Nat.le_succ _)
  have h₂ : stop.done mid.ticked.ticked.tick = true := WorkerEnv.done_mono h₁ (Nat.le_succ _)
  unfold forksAdd
  dsimp only [forksReadProgress]
  rw [if_neg (by decide), if_neg (by decide)]
  have hsolve' := hsolve fuel hfuel
  rw [newWorker] at hsolve'
  rw [hsolve']
  dsimp only
  rw [if_neg (by decide), forksFinish, if_neg (by simp [WorkerEnv.interrupted, hint])]
  dsimp only
  rw [if_pos h₁]
  exact if_neg (by simpa [forksSendResult] using h₂)

/-- The last worker ends with the tree its walk has left. -/
theorem exists_last (hlast : last.Silent) (hroot : root.Directory) (ht : tre.Stored) (id : Int)
    (path : Bytes) :
    ∃ u man' c₂ f₂,
      Calm last u { newWorker id path with lastSend := last.now 0 } (startNode tre path) [root]
        man' c₂ f₂ ∧
      ∀ fuel > root.weight, ∀ file, forksReadProgress fuel file = some (0, tre) →
        lastWorker last fuel id path root file =
          some ⟨solvedTree tre path c₂, (forksSendResult last man'.ticked.ticked 1).sent⟩ := by
  obtain ⟨u, man', c₂, f₂, hcalm, hsolve⟩ :=
    exists_solve hlast.2 hroot ht (newWorker id path)
  refine ⟨u, man', c₂, f₂, hcalm, ?_⟩
  intro fuel hfuel file hread
  have hsolve' := hsolve fuel hfuel
  rw [newWorker] at hsolve'
  rw [lastWorker, hread, Option.bind_some, hsolve', Option.bind_some, if_pos ⟨rfl, rfl⟩]

theorem dirsSent_append (a b : List Sent) : dirsSent (a ++ b) = dirsSent a + dirsSent b := by
  unfold dirsSent
  rw [List.map_append, List.sum_append]

theorem isSome_of_sizeAt (ht : tre.Good) {curr : Tree State} {p : List Bytes} :
    sizeAt (solvedTree tre path curr) path p ≠ none ↔ curr.HasState p := by
  rw [sizeAt, val_solvedTree ht]
  unfold HasState
  rw [ne_eq, Option.map_eq_none_iff]

/-- A directory without a state in the file has none when the next traversal starts. -/
theorem hasState_loaded {c₁ : Tree State} (ht : tre.Good) {p : List Bytes} (hp : p ≠ [])
    (h : (startNode ((solvedTree tre path c₁).map State.reload) path).HasState p) :
    c₁.HasState p := by
  obtain ⟨c, q, rfl⟩ := List.exists_cons_of_ne_nil hp
  rw [hasState_startNode] at h
  unfold HasState at h ⊢
  rwa [val_map, val_solvedTree ht, ne_eq, Option.map_eq_none_iff] at h

/-- Without a stop every directory gets a state. -/
theorem hasState_of_silent (hwhole : whole.Silent) (hroot : root.Directory) {t : Trace}
    {man man' : ForksManager} {c₀ : Tree State} {f₀ : Fts}
    (h : Calm whole t man (startNode treeInit path) [root] man' c₀ f₀) {p : List Bytes}
    (hp : p ∈ root.dirPaths) : c₀.HasState p := by
  rcases h.fresh (stored_startNode stored_treeInit) hroot.2.2 hroot.2.1 rfl hasState_startNode_nil
      fun n _ => find_startNode_treeInit n with hfin | ⟨z, hz⟩
  · exact hfin.states p hp
  · have hdone := hz.done
    simp [WorkerEnv.done, hwhole.1] at hdone

theorem dirs_newWorker (now : Int) :
    ({ newWorker id path with lastSend := now } : ForksManager).dirs = 0 := rfl

/-- **One stop changes the result**: a directory has no size, or too many are counted. -/
theorem not_same_of_stopped (hroot : root.Directory) (hpath : ∀ c ∈ components path, NameOk c)
    (hlast : last.Silent) (hwhole : whole.Silent) {t u u₀ : Trace} {mid man' man₀ : ForksManager}
    {c₀ c₁ c₂ : Tree State} {f₀ f₁ f₂ : Fts} {now now₁ now₂ : Int}
    (h₁ : Calm stop t { newWorker id path with lastSend := now₁ } (startNode treeInit path) [root]
      mid c₁ f₁)
    (h₂ : Calm last u { newWorker id path with lastSend := now₂ }
      (startNode ((solvedTree treeInit path c₁).map State.reload) path) [root] man' c₂ f₂)
    (h₀ : Calm whole u₀ { newWorker id path with lastSend := now } (startNode treeInit path) [root]
      man₀ c₀ f₀) :
    ¬ Same path root
      ⟨solvedTree ((solvedTree treeInit path c₁).map State.reload) path c₂,
        (forksSendResult last man'.ticked.ticked 1).sent ++
          (forksSendResult stop mid.ticked.ticked 2).sent⟩
      ⟨solvedTree treeInit path c₀, (forksSendResult whole man₀.ticked.ticked 1).sent⟩ := by
  intro hsame
  have hinit : (treeInit : Tree State).Good := good_treeInit
  have hstart : (startNode treeInit path).Stored := stored_startNode stored_treeInit
  have hloaded : ((solvedTree treeInit path c₁).map State.reload).Stored :=
    (stored_solvedTree stored_treeInit hpath (h₁.stored hstart)).map _
  have hall : ∀ p ∈ root.dirPaths, c₂.HasState p := by
    intro p hp
    have hsize := hsame.sizes p (List.mem_cons_of_mem _ hp)
    rw [← isSome_of_sizeAt hloaded.good, hsize, isSome_of_sizeAt hinit]
    exact hasState_of_silent hwhole hroot h₀ hp
  have hold : ∀ p ∈ root.dirPaths,
      (startNode ((solvedTree treeInit path c₁).map State.reload) path).HasState p →
        c₁.HasState p := by
    intro p hp
    obtain ⟨c, -, q, rfl⟩ := Entries.head_of_mem_dirPaths hp
    exact hasState_loaded hinit (List.cons_ne_nil c q)
  have htwice := counted_too_often hroot h₁ hstart rfl hasState_startNode_nil
    find_startNode_treeInit h₂ (stored_startNode hloaded) rfl hlast.1 hold hall
  have honce := h₀.dirs_le
  have hnil : Fts.dirCount [] = 0 := rfl
  have hdirs := hsame.dirs
  rw [dirsSent_append, (sent_sendResult last _ (by decide)).1,
    (sent_sendResult stop _ (by decide)).1, (sent_sendResult whole _ (by decide)).1] at hdirs
  simp only [ForksManager.dirs_ticked] at hdirs
  rw [dirs_newWorker, dirs_newWorker] at htwice
  rw [dirs_newWorker, Fts.dirCount_cons] at honce
  omega

/-- **An analysis with at most one stop** gives the uninterrupted result exactly when it has
none. -/
theorem same_iff_not_stopped {stopped : Option WorkerEnv} (hroot : root.Directory)
    (hpath : ∀ c ∈ components path, NameOk c) (hlast : last.Silent) (hwhole : whole.Silent)
    (hstop : ∀ stop ∈ stopped, stop.Stops id path root) :
    ∃ n, ∀ fuel ≥ n, ∃ a b,
      analyse last fmt fuel id path root stopped.toList [] = some a ∧
        analyse whole fmt fuel id path root [] [] = some b ∧
        (Same path root a b ↔ stopped = none) := by
  obtain ⟨u₀, man₀, c₀, f₀, hcalm₀, hrun₀⟩ :=
    exists_last hwhole hroot stored_treeInit id path
  cases stopped with
  | none =>
    obtain ⟨u, man', c₂, f₂, hcalm, hrun⟩ := exists_last hlast hroot stored_treeInit id path
    obtain ⟨⟨hdirs, hfiles⟩, rfl, -⟩ := hcalm₀.clock hwhole.1 hcalm hlast.1 rfl rfl
    refine ⟨root.weight + 1, fun fuel hfuel =>
      ⟨_, _, hrun fuel hfuel [] rfl, hrun₀ fuel hfuel [] rfl, fun _ => rfl,
        fun _ => ⟨fun _ _ => rfl, ?_, ?_⟩⟩⟩
    · rw [(sent_sendResult last _ (by decide)).1, (sent_sendResult whole _ (by decide)).1]
      exact hdirs
    · rw [(sent_sendResult last _ (by decide)).2, (sent_sendResult whole _ (by decide)).2]
      exact hfiles
  | some stop =>
    obtain ⟨t, mid, c₁, f₁, hcalm₁, hadd⟩ := exists_stopped (hstop stop rfl) hroot
    have hsaved : (solvedTree treeInit path c₁).Stored := stored_solvedTree stored_treeInit hpath
      (hcalm₁.stored (stored_startNode stored_treeInit))
    obtain ⟨n, hread⟩ := readProgress_overwrite_save hsaved []
    obtain ⟨u, man', c₂, f₂, hcalm₂, hrun⟩ :=
      exists_last hlast hroot (hsaved.map State.reload) id path
    have hnot := not_same_of_stopped hroot hpath hlast hwhole hcalm₁ hcalm₂ hcalm₀
    refine ⟨max (root.weight + 1) n, fun fuel hfuel => ⟨_, _, ?_, hrun₀ fuel (by omega) [] rfl,
      fun hsame => absurd hsame hnot, fun hnone => absurd hnone (Option.some_ne_none stop)⟩⟩
    rw [Option.toList, analyse, hadd fuel (by omega) fmt, Option.bind_some, analyse,
      hrun fuel (by omega) _ (hread fuel (by omega)), Option.map_some]

end Resumed

/-! ## A directory with two subdirectories -/

/-- The first subdirectory has a file of 7 bytes, the second is empty. -/
def twoDirs : Entries :=
  .leaf .FTS_DOT (str ".") 40 <| .leaf .FTS_DOT (str "..") 60 <|
    .dir (str "a") 40
      (.leaf .FTS_DOT (str ".") 40 <| .leaf .FTS_DOT (str "..") 60 <|
        .leaf .FTS_F (str "f") 7 .nil) <|
    .dir (str "b") 40 emptyDir .nil

/-- A worker that `SIGTERM` reaches then, or never. -/
def termedAt (sigterm : Option Nat) : WorkerEnv := ⟨sigterm, none, fun tick => tick, fun _ => true⟩

theorem same_iff_not_stopped_twoDirs :
    ∃ n, ∀ fuel ≥ n, ∃ a b,
      analyse (termedAt none) bytesOnly fuel 7 (str "/d") twoDirs
          (some (termedAt (some 0))).toList [] = some a ∧
        analyse (termedAt none) bytesOnly fuel 7 (str "/d") twoDirs [] [] = some b ∧
        (Same (str "/d") twoDirs a b ↔ some (termedAt (some 0)) = none) := by
  refine same_iff_not_stopped (by decide) (by decide +kernel) ⟨rfl, rfl⟩ ⟨rfl, rfl⟩ ?_
  intro stop hstop
  obtain rfl := Option.some.inj hstop
  exact ⟨rfl, fun _ man _ _ => decide_eq_true (Nat.zero_le man.tick)⟩

/-- `SIGTERM` reaches the worker in the first subdirectory. The entries of that are counted twice,
and so is the size of its file. -/
theorem resumed_counts_twice :
    ∃ a b,
      analyse (termedAt none) bytesOnly 60 7 (str "/d") twoDirs [termedAt (some 8)] [] = some a ∧
        analyse (termedAt none) bytesOnly 60 7 (str "/d") twoDirs [] [] = some b ∧
        ¬ Same (str "/d") twoDirs a b ∧
        (sizeAt a.tre (str "/d") [str "a"], dirsSent a.sent, filesSent a.sent) = (some 214, 14, 2) ∧
        (sizeAt b.tre (str "/d") [str "a"], dirsSent b.sent, filesSent b.sent) =
          (some 107, 8, 1) := by
  have hstopped : (analyse (termedAt none) bytesOnly 60 7 (str "/d") twoDirs
      [termedAt (some 8)] []).map (fun o =>
        (sizeAt o.tre (str "/d") [str "a"], dirsSent o.sent, filesSent o.sent)) =
      some (some 214, 14, 2) := by decide +kernel
  have hwhole : (analyse (termedAt none) bytesOnly 60 7 (str "/d") twoDirs [] []).map (fun o =>
        (sizeAt o.tre (str "/d") [str "a"], dirsSent o.sent, filesSent o.sent)) =
      some (some 107, 8, 1) := by decide +kernel
  obtain ⟨a, ha, ha'⟩ := Option.map_eq_some_iff.1 hstopped
  obtain ⟨b, hb, hb'⟩ := Option.map_eq_some_iff.1 hwhole
  refine ⟨a, b, ha, hb, fun hsame => ?_, ha', hb'⟩
  have hsize := hsame.sizes [str "a"] (by decide)
  obtain ⟨hsize', -⟩ := Prod.mk.inj ha'
  obtain ⟨hsize'', -⟩ := Prod.mk.inj hb'
  rw [hsize', hsize''] at hsize
  exact absurd hsize (by decide)

end DiskAnalyzer
