import DiskAnalyzer.Sizes

/-!
# `.` and `..`

`forks_solve` opens its stream with `FTS_SEEDOT`, so every directory is also read as its own `.` and
as the `..` of each directory in it, and `forks_fts_parc` counts and adds these like entries of
their own. A `.` makes up for the `FTS_D`, whose size is not added; it is counted beside it all the
same. A `..` is another directory, for the analysed path one that is not even below it.

* `sum_eq`, `dirs_eq`, `files_eq`: what is added and counted, by what there is.
* `solve_dots`: the directories are never counted right.
-/

namespace DiskAnalyzer

open DiskAnalyzer.Tree Decimal

namespace Entries

/-! ## What is on the disk -/

/-- What is strictly below a directory: whether it is a directory, and its `st_size`. -/
def content : Entries → List (Bool × Int)
  | nil => []
  | leaf info _ size next =>
    if info = .FTS_DOT then next.content else (info.isDir, size) :: next.content
  | dir _ size entries next => (true, size) :: entries.content ++ next.content

/-- The number of directories strictly below. -/
def dirsBelow (entries : Entries) : Nat := entries.content.countP (·.1)

/-- The number of other entries below. -/
def filesBelow (entries : Entries) : Nat := entries.content.countP (!·.1)

/-- The sizes of everything strictly below, each once. -/
def total (entries : Entries) : Int := (entries.content.map Prod.snd).sum

/-! ## What is read -/

/-- The `FTS_DOT` entries of a directory itself. -/
def dotSizes : Entries → List (Bytes × Int)
  | nil => []
  | leaf info name size next =>
    if info = .FTS_DOT then (name, size) :: next.dotSizes else next.dotSizes
  | dir _ _ _ next => next.dotSizes

/-- Each subdirectory, of a directory of size `own`, has its `.` and `..`. -/
def Dotted (own : Int) : Entries → Prop
  | nil => True
  | leaf _ _ _ next => next.Dotted own
  | dir _ size entries next =>
    (entries.dotSizes.Perm [(str ".", size), (str "..", own)] ∧ entries.Dotted size) ∧
      next.Dotted own

/-- A directory as `FTS_SEEDOT` shows it: its size is `own`, and that of the directory above it
`parent`. -/
def SeeDot (own parent : Int) (entries : Entries) : Prop :=
  entries.dotSizes.Perm [(str ".", own), (str "..", parent)] ∧ entries.Dotted own

/-- The sizes of the `..` of all the directories below one of size `own`. -/
def ups (own : Int) : Entries → Int
  | nil => 0
  | leaf _ _ _ next => next.ups own
  | dir _ size entries next => own + entries.ups size + next.ups own

theorem sum_dotSizes {own parent : Int} {entries : Entries} (h : entries.SeeDot own parent) :
    (entries.dotSizes.map Prod.snd).sum = own + parent := by
  rw [(h.1.map Prod.snd).sum_eq]
  simp

/-! ## The difference -/

/-- What is added, anywhere in a directory. -/
theorem sum_eq_of_dotted {entries : Entries} {own : Int} (h : entries.Dotted own) :
    entries.sum = (entries.dotSizes.map Prod.snd).sum + entries.total + entries.ups own := by
  induction entries generalizing own with
  | nil => rfl
  | leaf info name size next ih =>
    rw [sum_leaf, ih h, total, total, content, dotSizes, ups]
    split_ifs
    · simp only [List.map_cons, List.sum_cons]
      omega
    · simp only [List.map_cons, List.sum_cons]
      omega
  | dir name size entries next ih ih' =>
    obtain ⟨hsub, hnext⟩ := h
    have hentries := ih hsub.2
    rw [sum_dotSizes hsub] at hentries
    rw [sum_dir, hentries, ih' hnext]
    simp only [total, content, dotSizes, ups, List.map_append, List.map_cons, List.sum_append,
      List.sum_cons]
    omega

/-- **What is added** beside the sizes on the disk: that of the directory above, for the directory
and for each one below. -/
theorem sum_eq {entries : Entries} {own parent : Int} (h : entries.SeeDot own parent) :
    entries.sum = own + entries.total + (parent + entries.ups own) := by
  have hdots := sum_dotSizes h
  rw [sum_eq_of_dotted h.2, hdots]
  omega

theorem dirs_eq_of_dotted {entries : Entries} {own : Int} (h : entries.Dotted own) :
    entries.dirs = entries.dirsBelow + entries.dotSizes.length + 2 * entries.subdirs.length := by
  induction entries generalizing own with
  | nil => rfl
  | leaf info name size next ih =>
    have hnext := ih h
    simp only [dirs, dirsBelow, content, dotSizes, subdirs, leaves, List.countP_cons] at hnext ⊢
    by_cases hdot : info = .FTS_DOT
    · -- Counted as a directory, and not one below.
      have hdir : info.isDir = true := by
        rw [hdot]
        rfl
      rw [if_pos hdot, if_pos hdot, if_pos hdir, List.length_cons]
      omega
    · rw [if_neg hdot, if_neg hdot, List.countP_cons]
      dsimp only
      omega
  | dir name size entries next ih ih' =>
    obtain ⟨hsub, hnext⟩ := h
    have hentries := ih hsub.2
    have hrest := ih' hnext
    rw [hsub.1.length_eq] at hentries
    rw [dirs_dir, hentries, hrest]
    simp only [dirsBelow, content, dotSizes, subdirs, List.countP_append, List.countP_cons,
      List.length_append, List.length_cons, List.length_map, List.length_nil, if_pos]
    omega

/-- **What is counted** as a directory beside those on the disk: two for the directory and for each
one below. -/
theorem dirs_eq {entries : Entries} {own parent : Int} (h : entries.SeeDot own parent) :
    entries.dirs = entries.dirsBelow + 2 * (entries.subdirs.length + 1) := by
  rw [dirs_eq_of_dotted h.2, h.1.length_eq, List.length_cons, List.length_singleton]
  omega

/-- **The files are counted right.** -/
theorem files_eq {entries : Entries} (h : entries.Readable) :
    entries.files = entries.filesBelow := by
  induction entries with
  | nil => rfl
  | leaf info name size next ih =>
    have hnext := ih h.2
    have hfails := h.1
    simp only [files, filesBelow, content, leaves, List.countP_cons] at hnext ⊢
    cases info <;> simp_all [FtsLeaf.isFile, FtsLeaf.isDir, FtsLeaf.fails]
  | dir name size entries next ih ih' =>
    rw [files_dir, ih h.2.1.2, ih' h.2.2]
    simp [filesBelow, content]

/-- Every directory below has its `.` and `..`. -/
theorem seeDot_of_mem_subdirs {entries : Entries} {own : Int} (h : entries.Dotted own)
    {d : List Bytes × Entries} (hd : d ∈ entries.subdirs) :
    ∃ own' parent', d.2.SeeDot own' parent' := by
  induction entries generalizing own d with
  | nil => exact absurd hd List.not_mem_nil
  | leaf info name size next ih => exact ih h hd
  | dir name size entries next ih ih' =>
    obtain ⟨hsub, hnext⟩ := h
    rcases List.mem_append.1 hd with hd | hd
    · rcases List.mem_cons.1 hd with rfl | hd
      · exact ⟨size, own, hsub⟩
      · obtain ⟨d', hd', rfl⟩ := List.mem_map.1 hd
        exact ih hsub.2 (d := d') hd'
    · exact ih' hnext hd

end Entries

/-! ## What is reported -/

/-- What a traversal has counted, and the sizes at its nodes, are what is on the disk. -/
structure OnDisk (root : Entries) (man : ForksManager) (node : Tree State) : Prop where
  dirs : man.dirs = root.dirsBelow
  files : man.files = root.filesBelow
  sizes : ∀ d ∈ ([], root) :: root.subdirs, ∀ own parent, d.2.SeeDot own parent →
    own + d.2.total < 2 ^ 31 → (d.1, some ⟨own + d.2.total, 1⟩) ∈ node.nodes

/-- **The report is never what is on the disk**: each directory is counted three times, the
analysed one twice, and each size has those of the `..` below in it. The files are right. -/
theorem solve_dots {env : WorkerEnv} (he : env.Silent) {root : Entries} (hroot : root.FileTree)
    {own parent : Int} (hdots : root.SeeDot own parent) (id : Int) (path : Bytes) :
    ∃ man' tre node,
      (∀ fuel ≥ root.weight,
        forksSolve env fuel (newWorker id path) treeInit (some root) = some ⟨0, man', tre⟩) ∧
      treeGetPath tre path = some node ∧ ¬ OnDisk root man' node ∧
      man'.dirs = root.dirsBelow + 2 * (root.subdirs.length + 1) ∧
      man'.files = root.filesBelow ∧
      ∀ d ∈ ([], root) :: root.subdirs, ∃ own parent, d.2.SeeDot own parent ∧
        (d.1, some ⟨wrap32 (own + d.2.total + (parent + d.2.ups own)), 1⟩) ∈ node.nodes := by
  obtain ⟨man', node, hm, hsolve⟩ := solve_surveyed he hroot (newWorker id path)
  have hdirs : man'.dirs = root.dirsBelow + 2 * (root.subdirs.length + 1) := by
    rw [hm.dirs, Entries.dirs_eq hdots]
    push_cast
    exact zero_add _
  refine ⟨man', solvedTree treeInit path node, node, hsolve,
    getPath_solvedTree good_treeInit hm.stored.good path, ?_, hdirs, ?_, ?_⟩
  · intro h
    have hright := h.dirs
    omega
  · rw [hm.files, Entries.files_eq hroot.2]
    exact zero_add _
  · intro d hd
    obtain ⟨own', parent', hsee⟩ : ∃ own' parent', d.2.SeeDot own' parent' := by
      rcases List.mem_cons.1 hd with rfl | hd
      · exact ⟨own, parent, hdots⟩
      · exact Entries.seeDot_of_mem_subdirs hdots.2 hd
    refine ⟨own', parent', hsee, ?_⟩
    rw [← Entries.sum_eq hsee]
    exact hm.nodes.mem_iff.2 (List.mem_map_of_mem hd)

/-- A directory with one subdirectory, which has a file of 7 bytes. -/
def oneDir : Entries :=
  .leaf .FTS_DOT (str ".") 40 <| .leaf .FTS_DOT (str "..") 60 <|
    .dir (str "a") 50
      (.leaf .FTS_DOT (str ".") 50 <| .leaf .FTS_DOT (str "..") 40 <|
        .leaf .FTS_F (str "f") 7 .nil) .nil

theorem seeDot_oneDir : oneDir.SeeDot 40 60 :=
  ⟨List.Perm.refl _, ⟨List.Perm.refl _, trivial⟩, trivial⟩

theorem solve_dots_oneDir :
    ∃ man' tre node,
      (∀ fuel ≥ oneDir.weight,
        forksSolve (termedAt none) fuel (newWorker 7 (str "/d")) treeInit (some oneDir) =
          some ⟨0, man', tre⟩) ∧
      treeGetPath tre (str "/d") = some node ∧ ¬ OnDisk oneDir man' node ∧
      man'.dirs = oneDir.dirsBelow + 2 * (oneDir.subdirs.length + 1) ∧
      man'.files = oneDir.filesBelow ∧
      ∀ d ∈ ([], oneDir) :: oneDir.subdirs, ∃ own parent, d.2.SeeDot own parent ∧
        (d.1, some ⟨wrap32 (own + d.2.total + (parent + d.2.ups own)), 1⟩) ∈ node.nodes :=
  solve_dots ⟨rfl, rfl⟩ (by decide +kernel) seeDot_oneDir 7 (str "/d")

/-- The subdirectory is counted like five, and has 97 bytes instead of 57. -/
theorem dots_counted :
    ∃ man' tre node,
      forksSolve (termedAt none) 20 (newWorker 7 (str "/d")) treeInit (some oneDir) =
        some ⟨0, man', tre⟩ ∧
      treeGetPath tre (str "/d") = some node ∧ ¬ OnDisk oneDir man' node ∧
      (oneDir.dirsBelow, man'.dirs) = (1, 5) ∧
      (50 + 7, sizeAt tre (str "/d") [str "a"]) = (57, some 97) ∧
      (40 + oneDir.total, sizeAt tre (str "/d") []) = (97, some 197) := by
  have hrun : (forksSolve (termedAt none) 20 (newWorker 7 (str "/d")) treeInit (some oneDir)).map
      (fun s => (s.ret, s.man.dirs, sizeAt s.tre (str "/d") [str "a"], sizeAt s.tre (str "/d") [],
        (treeGetPath s.tre (str "/d")).isSome)) = some (0, 5, some 97, some 197, true) := by
    decide +kernel
  obtain ⟨⟨ret, man', tre⟩, hsolve, hs⟩ := Option.map_eq_some_iff.1 hrun
  simp only [Prod.mk.injEq] at hs
  obtain ⟨rfl, hdirs, hsub, htop, hnode⟩ := hs
  obtain ⟨node, hnode⟩ := Option.isSome_iff_exists.1 hnode
  refine ⟨man', tre, node, hsolve, hnode, ?_, ?_, ?_, ?_⟩
  · intro h
    have hright := h.dirs
    rw [hdirs, show oneDir.dirsBelow = 1 from rfl] at hright
    exact absurd hright (by decide)
  · rw [hdirs]
    rfl
  · rw [hsub]
  · rw [htop]
    rfl

end DiskAnalyzer
