import DiskAnalyzer.Halted

/-!
# What a stopped first traversal saves

`forks_save` writes the tree the frames have left. It is true (`Honest`) if each of the frames above
the stop has found a subdirectory to stop at. A frame that has not has taken the end of another
directory for that of its own, and its node is saved as done (`saved_iff`).
-/

namespace DiskAnalyzer

open DiskAnalyzer.Tree Decimal

/-- The saved tree says the truth of a directory, `left` reads being left: what is done has been
read, with everything below it, and sizes are those of entries below. -/
structure Honest (root : Entries) (left : Nat) (node : Tree State) : Prop where
  read : ∀ p st, (p, some st) ∈ node.nodes → st.done = 1 → ∃ r, Closes root 0 p r ∧ left ≤ r
  below : ∀ p st q info, (p, some st) ∈ node.nodes → st.done = 1 → (p ++ q, info) ∈ node.nodes →
    ∃ st', info = some st' ∧ st'.done = 1
  size : ∀ p st, (p, some st) ∈ node.nodes → ∃ sizes r, (p, sizes, r) ∈ root.extents 0 ∧
    ∃ read, read <+: sizes ∧ st.size = wrap32 read.sum

section Honesty

variable {env : WorkerEnv} {root : Entries} {node : Tree State} {left : Nat}

/-- A directory is at one path. -/
theorem Closes.unique {q : List Bytes} {r r' : Nat} {after : Nat} (hroot : root.FileTree)
    (h : Closes root after q r) (h' : Closes root after q r') : r = r' := by
  have hnodup : ((root.extents after).map Prod.fst).Nodup := by
    rw [Entries.extents, List.map_cons, Entries.map_fst_closings]
    refine List.nodup_cons.2 ⟨fun hnil => ?_,
      Entries.nodup_dirPaths_of_readable hroot.1 hroot.2⟩
    obtain ⟨n, -, p, hp⟩ := Entries.head_of_mem_dirPaths hnil
    simp at hp
  obtain ⟨sizes, hmem⟩ := h
  obtain ⟨sizes', hmem'⟩ := h'
  have heq := List.inj_on_of_nodup_map hnodup hmem hmem' rfl
  exact (Prod.mk.inj (Prod.mk.inj heq).2).2

theorem Honest.not_lies (h : Honest root left node) (hroot : root.FileTree) {left' : Nat}
    (hleft : left' ≤ left) : ¬ Lies root 0 left' node := by
  rintro ⟨q, st, r, hq, hst, hcloses, hr⟩
  obtain ⟨r', hcloses', hr'⟩ := h.read q st hq hst
  have heq := hcloses.unique hroot hcloses'
  omega

/-- A traversal that is not stopped. -/
theorem Frame.honest {man man' : ForksManager} {curr : Tree State}
    (h : Frame root 0 man curr man' node) (hcurr : curr.hsh = Hash.empty) :
    Honest root 0 node := by
  have hnodes : ∀ x ∈ node.nodes, ∃ d ∈ ([], root) :: root.subdirs, x = finished d := by
    intro x hx
    have hperm := h.nodes
    rw [hcurr, hashNodes_empty, List.nil_append] at hperm
    rw [nodes_eq, h.info, zero_add] at hx
    rcases List.mem_cons.1 hx with rfl | hx
    · exact ⟨_, List.mem_cons_self, rfl⟩
    · obtain ⟨d, hd, rfl⟩ := List.mem_map.1 (hperm.mem_iff.1 hx)
      exact ⟨d, List.mem_cons_of_mem _ hd, rfl⟩
  have hextents : ∀ d ∈ ([], root) :: root.subdirs, ∃ r, (d.1, d.2.sizes, r) ∈ root.extents 0 := by
    intro d hd
    rcases List.mem_cons.1 hd with rfl | hd
    · exact ⟨0, List.mem_cons_self⟩
    · obtain ⟨r, hr⟩ := Entries.exists_closing hd 0
      exact ⟨r, List.mem_cons_of_mem _ hr⟩
  refine ⟨fun p st hp _ => ?_, fun p st q info _ _ hq => ?_, fun p st hp => ?_⟩
  · obtain ⟨d, hd, heq⟩ := hnodes _ hp
    obtain ⟨rfl, -⟩ := Prod.mk.inj heq
    obtain ⟨r, hr⟩ := hextents d hd
    exact ⟨r, ⟨_, hr⟩, Nat.zero_le r⟩
  · obtain ⟨d, -, heq⟩ := hnodes _ hq
    exact ⟨_, (Prod.mk.inj heq).2, rfl⟩
  · obtain ⟨d, hd, heq⟩ := hnodes _ hp
    obtain ⟨rfl, hst⟩ := Prod.mk.inj heq
    obtain rfl := Option.some.inj hst
    obtain ⟨r, hr⟩ := hextents d hd
    exact ⟨_, r, hr, _, List.prefix_refl _, rfl⟩

/-- A traversal that is stopped where there is a subdirectory to stop at for every frame. -/
theorem Unwound.honest {stop : List Bytes × Entries} {curr : Tree State} {h : Entries} {tl : Fts}
    {read : List Int} {d : Int} (hu : Unwound root [] 0 stop curr node h tl read d)
    (hcurr : curr.hsh = Hash.empty) (hstop : stop.1.length ≤ stop.2.chain + 1) :
    Honest root (Fts.weight (h :: tl)) node := by
  obtain ⟨rfl, -, nodes, hnodes, hsound⟩ := hu.halts hstop
  rw [List.append_nil] at hsound
  have hinfo := hu.info
  rw [zero_add] at hinfo
  have hmem : ∀ x, x ∈ node.nodes ↔ x = ([], some ⟨wrap32 read.sum, 0⟩) ∨ x ∈ nodes := by
    intro x
    rw [nodes_eq, hinfo, List.mem_cons, hnodes, hcurr, hashNodes_empty]
    simp
  have hown : ∀ {p : List Bytes} {st : State}, (p, some st) ∈ node.nodes → st.done = 1 →
      (p, some st) ∈ nodes := by
    intro p st hp hst
    refine ((hmem _).1 hp).resolve_left fun heq => ?_
    obtain rfl := Option.some.inj (Prod.mk.inj heq).2
    exact Int.zero_ne_one hst
  refine ⟨fun p st hp hst => ?_, fun p st q info hp hst hq => ?_, fun p st hp => ?_⟩
  · obtain ⟨st', sizes, r, heq, hclosing, hleft, -⟩ := hsound.sound _ (hown hp hst)
    obtain rfl := Option.some.inj heq
    exact ⟨r, ⟨sizes, List.mem_cons_of_mem _ hclosing⟩, hleft hst⟩
  · have hp' := hown hp hst
    rcases (hmem _).1 hq with heq | hq
    · obtain ⟨n, -, p', hp''⟩ := hsound.head hp'
      dsimp only at hp''
      rw [hp''] at heq
      simp at heq
    · exact hsound.below p st q info hp' hst hq
  · rcases (hmem _).1 hp with heq | hp
    · obtain ⟨rfl, hst⟩ := Prod.mk.inj heq
      obtain rfl := Option.some.inj hst
      exact ⟨_, 0, List.mem_cons_self, read, ⟨_, hu.sizes⟩, rfl⟩
    · obtain ⟨st', sizes, r, heq, hclosing, -, hread⟩ := hsound.sound _ hp
      obtain rfl := Option.some.inj heq
      exact ⟨sizes, r, List.mem_cons_of_mem _ hclosing, hread⟩

theorem Honest.congr {root' : Entries} (h : Honest root left node)
    (heq : root.extents 0 = root'.extents 0) : Honest root' left node where
  read p st hp hst := by
    obtain ⟨r, ⟨sizes, hmem⟩, hr⟩ := h.read p st hp hst
    exact ⟨r, ⟨sizes, heq ▸ hmem⟩, hr⟩
  below := h.below
  size p st hp := by
    obtain ⟨sizes, r, hmem, hread⟩ := h.size p st hp
    exact ⟨sizes, r, heq ▸ hmem, hread⟩

/-- There is a subdirectory to stop at for every frame above the stop. -/
def StopsFit (done : Nat → Bool) (tick : Nat) (root : Entries) : Prop :=
  ∀ z below, stopAt done tick root = some (z, below) → z.length ≤ below.chain + 1

/-- A first traversal without errors. -/
theorem exists_honest_iff (hint : env.sigint = none) (hroot : root.FileTree) (man : ForksManager)
    {curr : Tree State} (ht : curr.Stored) (hinfo : curr.info = some ⟨0, 0⟩)
    (hcurr : curr.hsh = Hash.empty) :
    ∃ man' node ftsp', Walk env man curr [root] ⟨0, man', node, ftsp'⟩ ∧
      (Honest root ftsp'.weight node ↔ StopsFit env.done man.tick root) := by
  have hnew : ∀ n ∈ root.names, hashFind curr.hsh n = none := by
    intro n _
    rw [hcurr]
    rfl
  unfold StopsFit
  cases hstop : stopAt env.done man.tick root with
  | none =>
    obtain ⟨man', node, hframe, -, hwalk⟩ :=
      walk_frame hint root hroot.2 hroot.1 man hstop ht 0 hinfo hnew []
    exact ⟨man', node, [], hwalk, fun _ _ _ h => absurd h (Option.some_ne_none _).symm,
      fun _ => hframe.honest hcurr⟩
  | some stop =>
    obtain ⟨man', node, h, tl, read, d, -, hwalk, hu⟩ :=
      walk_halted hint root hroot.2 hroot.1 man hstop ht 0 hinfo hnew []
    rw [List.append_nil] at hwalk
    refine ⟨man', node, h :: tl, hwalk, fun hhonest z below hz => ?_, fun hfit => ?_⟩
    · obtain rfl := Option.some.inj hz
      by_contra hlong
      have hlies := hu.lies (by dsimp only; omega)
      rw [List.append_nil] at hlies
      refine hhonest.not_lies hroot ?_ hlies
      rw [Fts.weight_cons]
      exact Nat.le_add_left _ _
    · exact hu.honest hcurr (hfit stop.1 stop.2 rfl)

end Honesty

/-! ## Error entries

A traversal that reads an error entry saves nothing. One that does not goes the same way if the
error entries are files. -/

namespace Entries

/-- The error entries made files. -/
def mended : Entries → Entries
  | nil => nil
  | leaf info name size next => leaf (if info.fails then .FTS_F else info) name size next.mended
  | dir name size entries next => dir name size entries.mended next.mended

theorem mended_leaf (info : FtsLeaf) (name : Bytes) (size : Int) (next : Entries) :
    (leaf info name size next).mended =
      leaf (if info.fails then .FTS_F else info) name size next.mended := rfl

theorem mended_dir (name : Bytes) (size : Int) (entries next : Entries) :
    (dir name size entries next).mended = dir name size entries.mended next.mended := rfl

/-- Names that a file can hold, and no two alike in a directory. -/
def Named : Entries → Prop
  | nil => True
  | leaf _ _ _ next => next.Named
  | dir name _ entries next =>
    NameOk name ∧ (entries.names.Nodup ∧ entries.Named) ∧ next.Named

instance decidableNamed : (entries : Entries) → Decidable entries.Named
  | nil => isTrue trivial
  | leaf _ _ _ next => decidableNamed next
  | dir name _ entries next =>
    have := decidableNamed entries
    have := decidableNamed next
    inferInstanceAs (Decidable (NameOk name ∧ (entries.names.Nodup ∧ entries.Named) ∧
      next.Named))

@[simp] theorem names_mended (entries : Entries) : entries.mended.names = entries.names := by
  induction entries with
  | nil => rfl
  | leaf info name size next ih => exact ih
  | dir name size entries next ih ih' => rw [mended_dir, names, names, ih']

theorem readable_mended {entries : Entries} (h : entries.Named) : entries.mended.Readable := by
  induction entries with
  | nil => trivial
  | leaf info name size next ih =>
    refine ⟨?_, ih h⟩
    split_ifs with hfails
    · rfl
    · simpa using hfails
  | dir name size entries next ih ih' =>
    obtain ⟨hname, ⟨hnames, hentries⟩, hnext⟩ := h
    exact ⟨hname, ⟨by rwa [names_mended], ih hentries⟩, ih' hnext⟩

@[simp] theorem weight_mended (entries : Entries) : entries.mended.weight = entries.weight := by
  induction entries with
  | nil => rfl
  | leaf info name size next ih => rw [mended_leaf, weight, weight, ih]
  | dir name size entries next ih ih' => rw [mended_dir, weight, weight, ih, ih']

@[simp] theorem chain_mended (entries : Entries) : entries.mended.chain = entries.chain := by
  induction entries with
  | nil => rfl
  | leaf info name size next ih => exact ih
  | dir name size entries next ih _ => rw [mended_dir, chain, chain, ih]

@[simp] theorem ticks_mended (entries : Entries) : entries.mended.ticks = entries.ticks := by
  induction entries with
  | nil => rfl
  | leaf info name size next ih => rw [mended_leaf, ticks, ticks, ih]
  | dir name size entries next ih ih' => rw [mended_dir, ticks, ticks, ih, ih']

@[simp] theorem sizes_mended (entries : Entries) : entries.mended.sizes = entries.sizes := by
  induction entries with
  | nil => rfl
  | leaf info name size next ih => rw [mended_leaf, sizes_leaf, sizes_leaf, ih]
  | dir name size entries next ih ih' => rw [mended_dir, sizes_dir, sizes_dir, ih, ih']

@[simp] theorem closings_mended (entries : Entries) (after : Nat) :
    entries.mended.closings after = entries.closings after := by
  induction entries generalizing after with
  | nil => rfl
  | leaf info name size next ih => exact ih after
  | dir name size entries next ih ih' =>
    rw [mended_dir, closings, closings, sizes_mended, weight_mended, ih, ih']

theorem stopAt_mended (done : Nat → Bool) (tick : Nat) (entries : Entries) :
    stopAt done tick entries.mended =
      (stopAt done tick entries).map fun stop => (stop.1, stop.2.mended) := by
  induction entries generalizing tick with
  | nil => rfl
  | leaf info name size next ih => exact ih (tick + 1)
  | dir name size entries next ih ih' =>
    rw [mended_dir, stopAt, stopAt]
    split_ifs
    · rfl
    · rw [ih, ticks_mended, ih']
      cases stopAt done (tick + 2) entries <;> rfl

end Entries

section Mended

variable {env : WorkerEnv} {root : Entries}

theorem read_mended {ftsp up : Fts} {nxt : FtsEnt} (h : ftsRead ftsp = some (nxt, up))
    (hfails : nxt.fails = false) :
    ftsRead (ftsp.map Entries.mended) = some (nxt, up.map Entries.mended) := by
  cases ftsp with
  | nil => simp [ftsRead] at h
  | cons e ftsp =>
    cases e with
    | nil =>
      obtain ⟨rfl, rfl⟩ := Prod.mk.inj (Option.some.inj h)
      rfl
    | leaf info name size next =>
      obtain ⟨rfl, rfl⟩ := Prod.mk.inj (Option.some.inj h)
      rw [FtsEnt.fails] at hfails
      rw [List.map_cons, Entries.mended_leaf, if_neg (by simp [hfails])]
      rfl
    | dir name size entries next =>
      obtain ⟨rfl, rfl⟩ := Prod.mk.inj (Option.some.inj h)
      rfl

theorem skip_mended (ftsp : Fts) :
    (ftsSkip ftsp).map Entries.mended = ftsSkip (ftsp.map Entries.mended) := by
  cases ftsp <;> rfl

theorem Walk.mended {man : ForksManager} {curr : Tree State} {ftsp : Fts} {parc : Parc}
    (h : Walk env man curr ftsp parc) (hret : parc.ret = 0) :
    Walk env man curr (ftsp.map Entries.mended)
      { parc with ftsp := parc.ftsp.map Entries.mended } := by
  induction h with
  | interrupted hint => exact .interrupted hint
  | fails hint hread hfails => simp at hret
  | leaf hint hread hfails hrest ih =>
    exact .leaf hint (read_mended hread hfails) hfails (ih hret)
  | stop hint hread hdone => exact .stop hint (read_mended hread rfl) hdone
  | skip hint hread hdone hfind hcurr hrest ih =>
    have hwalk := ih hret
    rw [skip_mended] at hwalk
    exact .skip hint (read_mended hread rfl) hdone hfind hcurr hwalk
  | child hint hread hdone hfind hcurr hchild hrest ih ih' =>
    exact .child hint (read_mended hread rfl) hdone hfind hcurr (ih rfl) (ih' hret)
  | childFails hint hread hdone hfind hcurr hchild hne ih => simp at hret
  | leave hint hread => exact .leave hint (read_mended hread rfl)

/-- **A first traversal that reads no error entry** leaves a true tree, if there is a subdirectory
to stop at for every frame above the stop, and otherwise not. -/
theorem honest_iff (hint : env.sigint = none) (hnames : root.names.Nodup) (hroot : root.Named)
    {fuel : Nat} {man : ForksManager} {curr : Tree State} {parc : Parc} (ht : curr.Stored)
    (hinfo : curr.info = some ⟨0, 0⟩) (hcurr : curr.hsh = Hash.empty)
    (hparc : forksFtsParc env fuel man curr [root] = some parc) (hret : parc.ret = 0) :
    Honest root parc.ftsp.weight parc.curr ↔ StopsFit env.done man.tick root := by
  have hmended := (walk_of_parc hparc).mended hret
  have hfile : root.mended.FileTree :=
    ⟨by rwa [Entries.names_mended], Entries.readable_mended hroot⟩
  obtain ⟨man', node, ftsp', hwalk, hiff⟩ := exists_honest_iff hint hfile man ht hinfo hcurr
  -- The run is a function of the stream.
  have heq := (parc_of_walk_quiet hint hmended (le_refl _)).symm.trans
    (parc_of_walk_quiet hint hwalk (le_refl _))
  obtain ⟨-, -, hnode, hftsp⟩ := Parc.mk.inj (Option.some.inj heq)
  have hweight : ftsp'.weight = parc.ftsp.weight := by
    rw [← hftsp]
    unfold Fts.weight
    rw [List.map_map]
    exact congrArg List.sum (List.map_congr_left fun e _ => e.weight_mended)
  have hextents : root.mended.extents 0 = root.extents 0 := by
    rw [Entries.extents, Entries.sizes_mended, Entries.closings_mended, Entries.extents]
  rw [hweight, ← hnode] at hiff
  have hfit : StopsFit env.done man.tick root.mended ↔ StopsFit env.done man.tick root := by
    unfold StopsFit
    rw [Entries.stopAt_mended]
    cases stopAt env.done man.tick root with
    | none => simp
    | some stop => simp [Prod.ext_iff]
  rw [← hfit, ← hiff]
  exact ⟨fun h => h.congr hextents.symm, fun h => h.congr hextents⟩

end Mended

/-! ## The saved file -/

section File

variable {env : WorkerEnv} {root : Entries} {fmt : Printing} {fuel : Nat} {id : Int} {path : Bytes}
  {out : WorkerExit}

/-- Every state of the tree is at the analysed directory or below. -/
theorem mem_nodes_chainTree {node : Tree State} {cs : List Bytes} {x : List Bytes × Option State}
    (hx : x ∈ (chainTree node cs).nodes) (hinfo : x.2 ≠ none) :
    ∃ y ∈ node.nodes, x = (cs ++ y.1, y.2) := by
  induction cs generalizing x with
  | nil => exact ⟨x, hx, rfl⟩
  | cons c cs ih =>
    rw [chainTree, nodes_eq] at hx
    rcases List.mem_cons.1 hx with rfl | hx
    · exact absurd rfl hinfo
    · rw [hsh_mk, hashOf, hashNodes] at hx
      obtain ⟨k, -, hx⟩ := List.mem_flatMap.1 hx
      rw [listNodes_eq] at hx
      obtain ⟨e, he, hx⟩ := List.mem_flatMap.1 hx
      obtain rfl := List.mem_singleton.1 (List.mem_of_mem_filter he)
      obtain ⟨w, hw, rfl⟩ := List.mem_map.1 hx
      obtain ⟨y, hy, rfl⟩ := ih hw hinfo
      exact ⟨y, hy, rfl⟩

/-- A worker that has saved a first traversal. -/
theorem parc_of_saved (hadd : forksAdd env fmt fuel id path (some root) [] = some out)
    (hsaved : out.file.head? = some 48) :
    ∃ parc, forksFtsParc env fuel { newWorker id path with lastSend := env.now 0 }
        (startNode treeInit path) [root] = some parc ∧ parc.ret = 0 ∧
      out.file = forksSave (solvedTree treeInit path parc.curr) := by
  unfold forksAdd at hadd
  dsimp only [forksReadProgress] at hadd
  rw [if_neg (by decide), if_neg (by decide)] at hadd
  split at hadd
  · contradiction
  · rename_i ret man tre hsolve
    rw [forksSolve_eq stored_treeInit] at hsolve
    obtain ⟨parc, hparc, heq⟩ := Option.map_eq_some_iff.1 hsolve
    obtain ⟨rfl, rfl, rfl⟩ := Solved.mk.inj heq
    by_cases hret : parc.ret = 0
    · refine ⟨parc, hparc, hret, ?_⟩
      simp only [hret, ne_eq, not_true_eq_false, if_false] at hadd
      unfold forksFinish at hadd
      dsimp only at hadd
      generalize (if env.done parc.man.ticked.tick then 2 else 1) = result at hadd
      split_ifs at hadd
      · obtain rfl := Option.some.inj hadd
        simp at hsaved
      · obtain ⟨report, hreport, rfl⟩ := Option.map_eq_some_iff.1 hadd
        have hhead := (head_overwrite (head_report hreport)).symm.trans hsaved
        exact absurd hhead (by decide)
      · obtain rfl := Option.some.inj hadd
        exact List.append_nil _
    · simp only [hret, ne_eq, not_false_eq_true, if_true, Int.one_ne_zero] at hadd
      obtain rfl := Option.some.inj hadd
      simp at hsaved

/-- **When saved progress is true**: if a first traversal is not stopped, or there is a subdirectory
to stop at for every frame above the stop. -/
theorem saved_iff (hint : env.sigint = none) (hnames : root.names.Nodup) (hroot : root.Named)
    (hadd : forksAdd env fmt fuel id path (some root) [] = some out)
    (hsaved : out.file.head? = some 48) :
    ∃ parc tre, forksFtsParc env fuel { newWorker id path with lastSend := env.now 0 }
        (startNode treeInit path) [root] = some parc ∧
      out.file = forksSave tre ∧ treeGetPath tre path = some parc.curr ∧
      (∀ x ∈ tre.nodes, x.2 ≠ none →
        ∃ y ∈ parc.curr.nodes, x = (components path ++ y.1, y.2)) ∧
      (Honest root parc.ftsp.weight parc.curr ↔ StopsFit env.done 0 root) := by
  obtain ⟨parc, hparc, hret, hfile⟩ := parc_of_saved hadd hsaved
  have hstart : (startNode treeInit path).Stored := stored_startNode stored_treeInit
  have hempty : (startNode treeInit path).hsh = Hash.empty := by
    rw [startNode, walk_treeInit, hsh_mk]
    rfl
  rw [solvedTree_treeInit] at hfile
  exact ⟨parc, _, hparc, hfile, getPath_chainTree parc.curr path,
    fun x hx hinfo => mem_nodes_chainTree hx hinfo,
    honest_iff hint hnames hroot hstart rfl hempty hparc hret⟩

/-- An empty directory in a directory in a directory, in front of a file. -/
def nestedDirs : Entries :=
  .leaf .FTS_DOT (str ".") 40 <| .leaf .FTS_DOT (str "..") 60 <|
    .dir (str "p") 40
      (.leaf .FTS_DOT (str ".") 40 <| .leaf .FTS_DOT (str "..") 60 <|
        .dir (str "z") 40 emptyDir <| .leaf .FTS_F (str "f") 7 .nil) .nil

/-- `SIGTERM` arrives in front of `z`. -/
theorem saved_iff_nestedDirs :
    ∃ out, forksAdd (termedAt (some 5)) bytesOnly 20 7 (str "/d") (some nestedDirs) [] = some out ∧
      ∃ parc tre, forksFtsParc (termedAt (some 5)) 20
          { newWorker 7 (str "/d") with lastSend := (termedAt (some 5)).now 0 }
          (startNode treeInit (str "/d")) [nestedDirs] = some parc ∧
        out.file = forksSave tre ∧ treeGetPath tre (str "/d") = some parc.curr ∧
        (∀ x ∈ tre.nodes, x.2 ≠ none →
          ∃ y ∈ parc.curr.nodes, x = (components (str "/d") ++ y.1, y.2)) ∧
        (Honest nestedDirs parc.ftsp.weight parc.curr ↔
          StopsFit (termedAt (some 5)).done 0 nestedDirs) := by
  have hrun : (forksAdd (termedAt (some 5)) bytesOnly 20 7 (str "/d") (some nestedDirs) []).map
      (fun out => out.file.head?) = some (some 48) := by decide +kernel
  obtain ⟨out, hadd, hsaved⟩ := Option.map_eq_some_iff.1 hrun
  exact ⟨out, hadd, saved_iff rfl (by decide) (by decide +kernel) hadd hsaved⟩

/-- The frame of `/d` takes the end of `z` for its own, two entries of `p` and its own end being
left: it saves `/d` as done. -/
theorem not_honest :
    (forksFtsParc (termedAt (some 5)) 20 (newWorker 7 (str "/d")) (startNode treeInit (str "/d"))
        [nestedDirs]).map (fun parc => (parc.curr.info, parc.ftsp.weight)) =
      some (some ⟨300, 1⟩, 3) ∧
    ¬ ∀ (env : WorkerEnv) (root : Entries) (fmt : Printing) (fuel : Nat) (id : Int) (path : Bytes)
      (out : WorkerExit) (parc : Parc), env.sigint = none → root.names.Nodup → root.Named →
      forksAdd env fmt fuel id path (some root) [] = some out → out.file.head? = some 48 →
      forksFtsParc env fuel { newWorker id path with lastSend := env.now 0 }
        (startNode treeInit path) [root] = some parc →
      Honest root parc.ftsp.weight parc.curr := by
  have hparc : (forksFtsParc (termedAt (some 5)) 20 (newWorker 7 (str "/d"))
      (startNode treeInit (str "/d")) [nestedDirs]).map
        (fun parc => (parc.curr.info, parc.ftsp.weight)) = some (some ⟨300, 1⟩, 3) := by
    decide +kernel
  refine ⟨hparc, fun h => ?_⟩
  have hrun : (forksAdd (termedAt (some 5)) bytesOnly 20 7 (str "/d") (some nestedDirs) []).map
      (fun out => out.file.head?) = some (some 48) := by decide +kernel
  obtain ⟨out, hadd, hsaved⟩ := Option.map_eq_some_iff.1 hrun
  obtain ⟨parc, hparc, hpair⟩ := Option.map_eq_some_iff.1 hparc
  obtain ⟨hinfo, hleft⟩ := Prod.mk.inj hpair
  have hhonest := h (termedAt (some 5)) nestedDirs bytesOnly 20 7 (str "/d") out parc rfl
    (by decide) (by decide +kernel) hadd hsaved hparc
  have hmem : (([], some ⟨300, 1⟩) : List Bytes × Option State) ∈ parc.curr.nodes := by
    rw [nodes_eq, hinfo]
    exact List.mem_cons_self
  obtain ⟨r, hcloses, hr⟩ := hhonest.read [] _ hmem rfl
  rw [closes_iff, hleft] at *
  rcases hcloses with ⟨-, rfl⟩ | ⟨sizes, hmem'⟩
  · omega
  · obtain ⟨n, -, q, hq⟩ := Entries.head_of_mem_closings hmem'
    simp at hq

end File

end DiskAnalyzer
