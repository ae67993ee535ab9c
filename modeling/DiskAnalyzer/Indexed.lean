import DiskAnalyzer.ThreadsProof
import DiskAnalyzer.Lib.Index

/-!
# `threads_manager.c`: the store, the counter and the paths

An add and a removal change three structures one after the other: the trie of paths, the store and
the counter. `AddExit` lists the ways out of `threads_add` with what each leaves behind, and from
it follows what keeps the three in step (`InStep`): the trie is an index of the store by path, and
the counter is its size.

An index by path is what the refusal of an add needs: a directory is refused exactly when an
analysis of the store covers it, and the refusal names that analysis (`store_in_step`).
-/

namespace DiskAnalyzer

open Treap Decimal Index

/-! ## The ways out of an add -/

/-- The node `get_free_id` gives has no children. No order is needed. -/
theorem getFreeId_fst (rand : Option Int) (t : Treap Unit) :
    (getFreeId rand () t).1 = nil ∨ ∃ id h, (getFreeId rand () t).1 = node id h () nil nil := by
  have htakes : ∀ (t : Treap Unit) (id : Int),
      (treapExtract t id).1 = nil ∨ ∃ i h, (treapExtract t id).1 = node i h () nil nil := by
    intro t id
    rcases extract_takes t id with ⟨hnil, -⟩ | ⟨h, a, hnode, -⟩
    · exact Or.inl hnil
    · exact Or.inr ⟨id, h, hnode⟩
  match t with
  | nil => exact Or.inl rfl
  | node id h a l (node j k b jl jr) => exact htakes _ id
  | node id h a (node j k b jl jr) nil => exact htakes _ j
  | node id h a nil nil =>
    rw [getFreeId]
    split_ifs
    · cases treapInsertNew (node id h a nil nil) (id + 1) () rand with
      | none => exact Or.inl rfl
      | some t' => exact htakes t' id
    · exact htakes _ id

/-- What the exits of `threads_add` return and leave behind. -/
inductive AddExit (env : AddEnv) (man : ThreadsManager) (anal : Analysis) (fd : Int) :
    AddResult → Prop
  | notDir : env.isDir = false → AddExit env man anal fd ⟨1, analysisPathNoExists fd anal.path, man⟩
  | covered {i : Int} : env.isDir = true → treeFindPrefix man.paths anal.path = some i →
      AddExit env man anal fd ⟨1, analysisPathAlreadyExists fd anal.path i, man⟩
  | noId : treeFindPrefix man.paths anal.path = none →
      (getFreeId env.rand () man.availableIds).1 = nil →
      AddExit env man anal fd ⟨1, analysisCustomMessage fd
        (str "Could not create new id. Try removing some analyses.\n"),
        { man with availableIds := (getFreeId env.rand () man.availableIds).2 }⟩
  | noMemory {id h : Int} : treeFindPrefix man.paths anal.path = none →
      (getFreeId env.rand () man.availableIds).1 = node id h () nil nil →
      AddExit env man anal fd ⟨1, analysisCustomMessage fd
        (str "There was a memory allocation error. Try again.\n"),
        { man with
          availableIds := returnId (getFreeId env.rand () man.availableIds).2
            (node id h () nil nil) }⟩
  | noNode {id h : Int} : treeFindPrefix man.paths anal.path = none →
      (getFreeId env.rand () man.availableIds).1 = node id h () nil nil →
      (treeInsert man.paths anal.path (some id) env.alloc).1 ≠ 0 →
      AddExit env man anal fd ⟨1, analysisCustomMessage fd
        (str "There was a memory allocation error. Try again.\n"),
        { man with
          paths := (treeInsert man.paths anal.path (some id) env.alloc).2
          availableIds := returnId (getFreeId env.rand () man.availableIds).2
            (node id h () nil nil) }⟩
  | noFork {id h : Int} : treeFindPrefix man.paths anal.path = none →
      (getFreeId env.rand () man.availableIds).1 = node id h () nil nil →
      handsOut env man anal = some id →
      (treeInsert man.paths anal.path (some id) env.alloc).1 = 0 →
      AddExit env man anal fd ⟨1, analysisCustomMessage fd
        (str "There was an error starting the analysis process. Try again.\n"),
        { man with
          analyses := (treapExtract (treapInsertNode man.analyses
            (node id h { anal with lastStart := env.now } nil nil)) id).2
          paths := (treeRemove (treeInsert man.paths anal.path (some id) env.alloc).2 anal.path).2
          availableIds := returnId (getFreeId env.rand () man.availableIds).2
            ((treapExtract (treapInsertNode man.analyses
              (node id h { anal with lastStart := env.now } nil nil)) id).1.setAnal ()) }⟩
  | added {id h pid : Int} : treeFindPrefix man.paths anal.path = none →
      (getFreeId env.rand () man.availableIds).1 = node id h () nil nil →
      handsOut env man anal = some id → env.fork = some pid →
      (treeInsert man.paths anal.path (some id) env.alloc).1 = 0 →
      AddExit env man anal fd ⟨0, analysisCreated fd id
          { anal with lastStart := env.now, pid, status := ANALYSIS_INPROGRESS },
        { analysisCnt := man.analysisCnt + 1
          analyses := (treapInsertNode man.analyses
            (node id h { anal with lastStart := env.now } nil nil)).modify id fun _ =>
              { anal with lastStart := env.now, pid, status := ANALYSIS_INPROGRESS }
          paths := (treeInsert man.paths anal.path (some id) env.alloc).2
          availableIds := (getFreeId env.rand () man.availableIds).2 }⟩

/-- **What `threads_add` can do.** -/
theorem threadsAdd_exit (env : AddEnv) (man : ThreadsManager) (anal : Analysis) (fd : Int) :
    AddExit env man anal fd (threadsAdd env man anal fd) := by
  rw [threadsAdd]
  by_cases hdir : env.isDir = false
  · rw [if_pos hdir]
    exact .notDir hdir
  rw [if_neg hdir]
  cases hpre : treeFindPrefix man.paths anal.path with
  | some i => exact .covered (by simpa using hdir) hpre
  | none =>
    dsimp only
    have hpair : getFreeId env.rand () man.availableIds =
        ((getFreeId env.rand () man.availableIds).1, (getFreeId env.rand () man.availableIds).2) :=
      rfl
    rcases getFreeId_fst env.rand man.availableIds with hnil | ⟨id, h, hget⟩
    · rw [hpair, hnil]
      exact .noId hpre hnil
    have hout : handsOut env man anal = some id := by
      rw [handsOut, if_neg (by simp [hdir, hpre]), hget]
    rw [hpair, hget]
    dsimp only
    rw [threadsAddNode]
    by_cases hidp : env.idp = false
    · rw [if_pos hidp]
      exact .noMemory hpre hget
    rw [if_neg hidp]
    dsimp only
    by_cases hins : (treeInsert man.paths anal.path (some id) env.alloc).1 = 0
    · rw [if_neg (by simpa using hins), threadsAddFork]
      cases hfork : env.fork with
      | none => exact .noFork hpre hget hout hins
      | some pid => exact .added hpre hget hout hfork hins
    · rw [if_pos hins]
      exact .noNode hpre hget hins

/-! ## Store, counter and paths -/

/-- The store is a search treap of as many nodes as are counted, and the trie is its index by
path. -/
structure InStep (man : ThreadsManager) : Prop where
  store : man.analyses.Ordered
  trie : man.paths.Good
  counted : man.analysisCnt = man.analyses.size
  indexed : Indexes GoodNames (fun anal => components anal.path) (treapFind man.analyses)
    man.paths.val

/-- The same counter, and the same maps from ids to analyses and from paths to ids. -/
structure SameMaps (man man' : ThreadsManager) : Prop where
  counter : man'.analysisCnt = man.analysisCnt
  store : ∀ id, treapFind man'.analyses id = treapFind man.analyses id
  paths : ∀ cs, GoodNames cs → man'.paths.val cs = man.paths.val cs

/-- `get_free_id` hands out no id in use. -/
def FreshId (man : ThreadsManager) : Request → Prop
  | .add env anal _ => ∀ id, handsOut env man anal = some id → id ∉ man.analyses.ids
  | .remove _ _ _ _ => True

variable {env : AddEnv} {man : ThreadsManager} {anal : Analysis} {fd : Int}

theorem InStep.sameMaps {man' : ThreadsManager} (hi : InStep man) (hsame : SameMaps man man')
    (hstore : man'.analyses.Ordered) (htrie : man'.paths.Good)
    (hsize : man'.analyses.size = man.analyses.size) : InStep man' := by
  refine ⟨hstore, htrie, ?_, ?_⟩
  · rw [hsame.counter, hsize, hi.counted]
  · have hfind : treapFind man'.analyses = treapFind man.analyses := funext hsame.store
    rw [hfind]
    exact hi.indexed.congr hsame.paths

/-- Where no prefix is found, the path has no id. -/
theorem val_of_findPrefix_none {t : Tree Int} (hg : t.Good) {path : Bytes}
    (h : treeFindPrefix t path = none) : t.val (components path) = none := by
  by_contra hval
  refine (Tree.findPrefix_ne_none_iff hg path).2 ⟨_, le_refl _, ?_⟩ h
  rwa [List.take_length]

/-- A path that was not there, put in and taken out. -/
theorem val_remove_insert {t : Tree Int} (hg : t.Good) {path : Bytes} {i : Int} {alloc : Alloc}
    (hval : t.val (components path) = none) (hret : (treeInsert t path (some i) alloc).1 = 0)
    {cs : List Bytes} (hcs : GoodNames cs) :
    (treeRemove (treeInsert t path (some i) alloc).2 path).2.val cs = t.val cs := by
  obtain ⟨hgood, hins⟩ := Tree.insert_spec hg path (some i) alloc
  obtain ⟨hrem, -, -, hval'⟩ := Tree.remove_spec hgood path
  have hhere := hins _ (goodNames_components path)
  rw [if_pos ⟨hret, rfl⟩] at hhere
  have hret' := hrem.2 (by rw [hhere]; simp)
  rw [hval' cs hcs, hins cs hcs]
  by_cases heq : cs = components path
  · rw [if_pos ⟨hret', heq⟩, heq, hval]
  · rw [if_neg fun h => heq h.2, if_neg fun h => heq h.2]

/-- A node put into the store and taken out again. -/
theorem extract_insertNode {t : Treap Analysis} (ho : t.Ordered) {id : Int} (hid : id ∉ t.ids)
    (h : Int) (a : Analysis) :
    (∀ x, treapFind (treapExtract (treapInsertNode t (node id h a nil nil)) id).2 x =
        treapFind t x) ∧
      (treapExtract (treapInsertNode t (node id h a nil nil)) id).2.size = t.size := by
  have hord := ordered_insertNode ho hid h a
  have hmem : (id, h, a) ∈ (treapInsertNode t (node id h a nil nil)).inorder := by
    rw [mem_inorder_insertNode]
    exact Or.inl rfl
  constructor
  · intro x
    rw [find_extract hord, find_insertNode ho hid, Function.update_idem,
      Function.update_eq_self_iff.2 ((find_eq_none_iff ho).2 hid).symm]
  · have hsize := size_extract (extract_of_mem hord hmem).1
    rw [size_insertNode] at hsize
    omega

/-- **A failing or refused add** leaves the counter and both maps. -/
theorem AddExit.sameMaps {res : AddResult} (hi : InStep man)
    (hfresh : FreshId man (.add env anal fd)) (h : AddExit env man anal fd res)
    (hret : res.ret ≠ 0) : SameMaps man res.man := by
  cases h with
  | notDir => exact ⟨rfl, fun _ => rfl, fun _ _ => rfl⟩
  | covered => exact ⟨rfl, fun _ => rfl, fun _ _ => rfl⟩
  | noId => exact ⟨rfl, fun _ => rfl, fun _ _ => rfl⟩
  | noMemory => exact ⟨rfl, fun _ => rfl, fun _ _ => rfl⟩
  | noNode _ _ hins =>
    refine ⟨rfl, fun _ => rfl, ?_⟩
    intro cs hcs
    rw [(Tree.insert_spec hi.trie _ _ _).2 cs hcs, if_neg fun h => hins h.1]
  | noFork hpre _ hout hins =>
    refine ⟨rfl, (extract_insertNode hi.store (hfresh _ hout) _ _).1, ?_⟩
    exact fun cs hcs => val_remove_insert hi.trie (val_of_findPrefix_none hi.trie hpre) hins hcs
  | added => exact absurd rfl hret

theorem AddExit.inStep {res : AddResult} (hi : InStep man)
    (hfresh : FreshId man (.add env anal fd)) (h : AddExit env man anal fd res) :
    InStep res.man := by
  have hkeep := h.sameMaps hi hfresh
  cases h with
  | notDir => exact hi
  | covered => exact hi
  | noId => exact hi.sameMaps (hkeep one_ne_zero) hi.store hi.trie rfl
  | noMemory => exact hi.sameMaps (hkeep one_ne_zero) hi.store hi.trie rfl
  | noNode =>
    exact hi.sameMaps (hkeep one_ne_zero) hi.store (Tree.insert_spec hi.trie _ _ _).1 rfl
  | noFork _ _ hout =>
    refine hi.sameMaps (hkeep one_ne_zero) ?_ ?_ (extract_insertNode hi.store (hfresh _ hout) _ _).2
    · exact ordered_extract (ordered_insertNode hi.store (hfresh _ hout) _ _) _
    · exact (Tree.remove_spec (Tree.insert_spec hi.trie _ _ _).1 _).2.2.1
  | @added id h pid hpre _ hout _ hins =>
    have hid := hfresh id hout
    have hval := val_of_findPrefix_none hi.trie hpre
    refine ⟨ordered_modify.2 (ordered_insertNode hi.store hid _ _),
      (Tree.insert_spec hi.trie _ _ _).1, ?_, ?_⟩
    · dsimp only
      rw [size_modify, size_insertNode, hi.counted, Nat.cast_add, Nat.cast_one]
    · dsimp only
      rw [find_modify, find_insertNode hi.store hid, Function.update_self, Option.map_some,
        Function.update_idem]
      refine (hi.indexed.insert
        (a := { anal with lastStart := env.now, pid, status := ANALYSIS_INPROGRESS })
        ((find_eq_none_iff hi.store).2 hid) hval).congr ?_
      intro cs hcs
      rw [(Tree.insert_spec hi.trie _ _ _).2 cs hcs, Function.update_apply]
      simp [hins]

theorem inStep_remove (hi : InStep man) (dirPath : Bytes) (inGroup : Int → Bool) (id fd : Int) :
    InStep (threadsRemove dirPath inGroup man id fd).man := by
  by_cases hid : id ∈ man.analyses.ids
  · obtain ⟨h, a, hm⟩ := mem_ids.1 hid
    have hex := extract_eq_of_mem hi.store hm
    have hfind : treapFind man.analyses id = some a := (find_eq_some_iff hi.store).2 ⟨h, hm⟩
    obtain ⟨hret, -, hgood, hval⟩ := Tree.remove_spec hi.trie a.path
    have hindex := hi.indexed.index_key hfind (goodNames_components a.path)
    have hret' := hret.2 (by rw [hindex]; simp)
    rw [threadsRemove, hex]
    refine ⟨ordered_extract hi.store id, hgood, ?_, ?_⟩
    · have hsize := size_extract (extract_of_mem hi.store hm).1
      dsimp only
      rw [hi.counted, hsize]
      omega
    · dsimp only
      rw [find_extract hi.store]
      refine (hi.indexed.erase hfind (goodNames_components a.path)).congr ?_
      intro cs hcs
      rw [hval cs hcs, Function.update_apply]
      simp [hret']
  · rw [threadsRemove, extract_of_notMem hi.store hid]
    exact hi

/-- **One request.** -/
theorem inStep_serve (hi : InStep man) {r : Request} (hfresh : FreshId man r) :
    InStep (serve man r) := by
  cases r with
  | add env anal fd => exact (threadsAdd_exit env man anal fd).inStep hi hfresh
  | remove dirPath inGroup id fd => exact inStep_remove hi dirPath inGroup id fd

/-! ## Refusals -/

/-- The first byte of a message that is not of a number. -/
def messageStart (msg : Bytes) : Option UInt8 :=
  (msg.dropWhile fun b => isDigit b || b == 45).head?

theorem messageStart_custom {fd : Int} (hfd : 0 ≤ fd) {c : UInt8}
    (hc : (isDigit c || c == 45) = false) {text : Bytes} (htext : text ≠ []) :
    messageStart (analysisCustomMessage fd (c :: text)) = some c := by
  have hlen := length_printWidth_le (fitsInt_wrap32 ((c :: text).length : Nat))
  have hpos := List.length_pos_iff.2 htext
  rw [analysisCustomMessage, if_neg (by omega), snprintf, List.length_cons, messageStart,
    List.take_append, List.take_of_length_le (by rw [List.length_cons] at hlen; omega),
    List.dropWhile_append_of_pos]
  · obtain ⟨n, hn⟩ : ∃ n, 11 + (text.length + 1) - 1 -
        (printWidth 10 (wrap32 ((text.length + 1 : Nat) : Int))).length = n + 1 := by
      rw [List.length_cons] at hlen
      exact ⟨_, (Nat.succ_pred_eq_of_pos (by omega)).symm⟩
    rw [hn, List.take_succ_cons, List.dropWhile_cons_of_neg (by simpa using hc)]
    rfl
  · intro b hb
    rcases isDigit_or_minus hb with h | rfl
    · simp [h]
    · rfl

theorem messageStart_message {fd : Int} (hfd : 0 ≤ fd) {c d : UInt8}
    (hc : (isDigit c || c == 45) = false) (path : Bytes) {text : Bytes}
    (htext : text.take 2 = [c, d]) : messageStart (analysisMessage fd path text) = some c := by
  have htake : snprintf (path.length + 150) text =
      c :: d :: (text.drop 2).take (path.length + 147) := by
    rw [← List.take_append_drop 2 text, htext]
    rfl
  rw [analysisMessage, htake]
  exact messageStart_custom hfd hc (List.cons_ne_nil _ _)

/-- The analysis `i` of the store is about the path or a directory above it. -/
def Covers (man : ThreadsManager) (i : Int) (path : Bytes) : Prop :=
  ∃ anal, treapFind man.analyses i = some anal ∧ components anal.path <+: components path

/-- The add is refused: the path is included in the analysis `i`. -/
def Refused (env : AddEnv) (man : ThreadsManager) (anal : Analysis) (i : Int) : Prop :=
  ∀ fd, threadsAdd env man anal fd = ⟨1, analysisPathAlreadyExists fd anal.path i, man⟩

theorem refused_of_findPrefix (hdir : env.isDir = true) {i : Int}
    (h : treeFindPrefix man.paths anal.path = some i) : Refused env man anal i := by
  intro fd
  rw [threadsAdd, if_neg (by simp [hdir]), h]

theorem messageStart_pathAlreadyExists (path : Bytes) (id : Int) :
    messageStart (analysisPathAlreadyExists 0 path id) = some 68 := by
  have hstr : str "Directory '" = 68 :: 105 :: str "rectory '" := by decide +kernel
  refine messageStart_message (d := 105) (le_refl 0) (by decide) path ?_
  simp only [hstr, List.cons_append, List.take_succ_cons, List.take_zero]

theorem messageStart_created (id : Int) (anal : Analysis) :
    messageStart (analysisCreated 0 id anal) = some 67 := by
  have hstr : str "Created analysis task with ID '" =
      67 :: 114 :: str "eated analysis task with ID '" := by decide +kernel
  refine messageStart_message (d := 114) (le_refl 0) (by decide) anal.path ?_
  simp only [hstr, List.cons_append, List.take_succ_cons, List.take_zero]

/-- An add that finds no prefix says so in other words. -/
theorem AddExit.not_refused {res : AddResult} (hdir : env.isDir = true)
    (hpre : treeFindPrefix man.paths anal.path = none) (h : AddExit env man anal 0 res) :
    messageStart res.reply ≠ some 68 := by
  cases h with
  | notDir hno => exact absurd (hdir.symm.trans hno) (by decide)
  | covered _ hsome => exact absurd (hpre.symm.trans hsome) (by simp)
  | noId =>
    dsimp only
    decide +kernel
  | noMemory =>
    dsimp only
    decide +kernel
  | noNode =>
    dsimp only
    decide +kernel
  | noFork =>
    dsimp only
    decide +kernel
  | added =>
    rw [messageStart_created]
    decide

theorem not_refused (hdir : env.isDir = true) (hpre : treeFindPrefix man.paths anal.path = none)
    (i : Int) : ¬ Refused env man anal i := by
  intro href
  refine (threadsAdd_exit env man anal 0).not_refused hdir hpre ?_
  rw [href 0]
  dsimp only
  rw [messageStart_pathAlreadyExists]

theorem InStep.covers_of_findPrefix (hi : InStep man) {path : Bytes} {i : Int}
    (h : treeFindPrefix man.paths path = some i) : Covers man i path := by
  obtain ⟨k, -, hval, -⟩ := (Tree.findPrefix_eq_some_iff hi.trie path i).1 h
  have hgood : GoodNames ((components path).take k) := fun c hc =>
    goodNames_components path c (List.mem_of_mem_take hc)
  obtain ⟨a, ha, hpath⟩ := (hi.indexed _ hgood i).1 hval
  have hpath' : components a.path = (components path).take k := hpath
  exact ⟨a, ha, hpath' ▸ List.take_prefix k _⟩

theorem InStep.findPrefix_of_covers (hi : InStep man) {path : Bytes} {i : Int}
    (h : Covers man i path) : treeFindPrefix man.paths path ≠ none := by
  obtain ⟨a, ha, hpre⟩ := h
  refine (Tree.findPrefix_ne_none_iff hi.trie path).2 ⟨_, hpre.length_le, ?_⟩
  rw [← List.prefix_iff_eq_take.1 hpre, hi.indexed.index_key ha (goodNames_components a.path)]
  simp

/-- **Store, counter and path index stay in step**, in every run of requests whose adds get no id
in use. -/
theorem store_in_step (h : (requests.guard FreshId).Reachable man) :
    man.analysisCnt = man.analyses.size ∧
      (∀ cs, GoodNames cs → ∀ i, man.paths.val cs = some i ↔
        ∃ h anal, (i, h, anal) ∈ man.analyses.inorder ∧ components anal.path = cs) ∧
      (∀ env anal, env.isDir = true →
        ((∃ i, Refused env man anal i) ↔ ∃ i, Covers man i anal.path) ∧
          ((∃ i, Covers man i anal.path) →
            ∃ i, Refused env man anal i ∧ Covers man i anal.path)) ∧
      ∀ env anal fd, FreshId man (.add env anal fd) → (threadsAdd env man anal fd).ret ≠ 0 →
        SameMaps man (threadsAdd env man anal fd).man := by
  have hi : InStep man := by
    refine h.invariant ?_ ?_
    · rintro s ⟨env, henv⟩
      obtain ⟨k, rfl⟩ := threadsStartup_nil henv
      refine ⟨ordered_nil, Tree.good_treeInit, rfl, ?_⟩
      intro cs _ i
      simp [treapFind, Tree.val_treeInit]
    · rintro s r t hs ⟨rfl, hfresh⟩
      exact inStep_serve hs hfresh
  refine ⟨hi.counted, ?_, ?_, ?_⟩
  · intro cs hcs i
    rw [hi.indexed cs hcs i]
    simp only [find_eq_some_iff hi.store]
    constructor
    · rintro ⟨a, ⟨h, hm⟩, hpath⟩
      exact ⟨h, a, hm, hpath⟩
    · rintro ⟨h, a, hm, hpath⟩
      exact ⟨a, ⟨h, hm⟩, hpath⟩
  · intro env anal hdir
    have hcovers : (∃ i, Covers man i anal.path) →
        ∃ i, Refused env man anal i ∧ Covers man i anal.path := by
      rintro ⟨i, hcov⟩
      obtain ⟨j, hj⟩ := Option.ne_none_iff_exists'.1 (hi.findPrefix_of_covers hcov)
      exact ⟨j, refused_of_findPrefix hdir hj, hi.covers_of_findPrefix hj⟩
    refine ⟨⟨?_, fun hcov => (hcovers hcov).imp fun _ h => h.1⟩, hcovers⟩
    rintro ⟨i, href⟩
    cases hpre : treeFindPrefix man.paths anal.path with
    | none => exact absurd href (not_refused hdir hpre i)
    | some j => exact ⟨j, hi.covers_of_findPrefix hpre⟩
  · exact fun env anal fd hfresh hret => (threadsAdd_exit env man anal fd).sameMaps hi hfresh hret

theorem freshId_of_all {env : AddEnv} {anal : Analysis} {fd : Int}
    (h : (handsOut env man anal).all (fun id => decide (id ∉ man.analyses.ids)) = true) :
    FreshId man (.add env anal fd) := by
  intro id hid
  rw [hid] at h
  simpa using h

/-- An analysis of `/a/b`, one of `/a`, a refused one of `/a/c`, one that fails, and a removal. -/
def overlappingRequests : List Request :=
  [addOf "/a/b" (some 10), addOf "/a" (some 11), addOf "/a/c" (some 12), addOf "/d" none,
    removeOf 2]

theorem store_in_step_run :
    (overlappingRequests.foldl serve ⟨0, nil, treeInit, node 1 0 () nil nil⟩).analysisCnt =
      (overlappingRequests.foldl serve ⟨0, nil, treeInit, node 1 0 () nil nil⟩).analyses.size := by
  refine (store_in_step ⟨_, overlappingRequests, ⟨quietStart, rfl⟩, .cons ⟨rfl, ?_⟩
    (.cons ⟨rfl, ?_⟩ (.cons ⟨rfl, ?_⟩ (.cons ⟨rfl, ?_⟩ (.cons ⟨rfl, trivial⟩ (.nil _)))))⟩).1
  · exact freshId_of_all (by decide +kernel)
  · exact freshId_of_all (by decide +kernel)
  · exact freshId_of_all (by decide +kernel)
  · exact freshId_of_all (by decide +kernel)

end DiskAnalyzer
