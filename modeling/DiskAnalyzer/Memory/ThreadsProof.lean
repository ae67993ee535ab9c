import DiskAnalyzer.Memory.FreeIds
import DiskAnalyzer.Memory.TreeProof
import DiskAnalyzer.Indexed

/-!
# The operations of the store on the memory
-/

namespace DiskAnalyzer.Memory

open Sep Treap Assertion

variable {β : Type} {P F : Owned} {Q : β → Owned}

/-! ## The store in memory -/

/-- The info of the manager's trie is a block with an id. -/
abbrev idWords (id : Int) : List Word := [int id]

/-- What `man->paths` points to. -/
def pathsIn (t : Tree Int) (c : Addr) : Owned := ⨆ x, cell c (.ptr (some x)) * treeAt idWords t x

/-- A `struct threads_manager` and all it owns. -/
def managerAt (man : ThreadsManager) (m : Addr) : Owned :=
  cell (analysisCntOf m) (int man.analysisCnt) *
    treapIn (held analysisAt) man.analyses (analysesOf m) * pathsIn man.paths (pathsOf m) *
      treapIn (held nullAt) man.availableIds (availableIdsOf m)

/-- The pieces of a manager, put together. -/
theorem managerAt_intro (man : ThreadsManager) (m t : Addr) :
    cell (analysisCntOf m) (int man.analysisCnt) *
      treapIn (held analysisAt) man.analyses (analysesOf m) *
        (cell (pathsOf m) (.ptr (some t)) * treeAt idWords man.paths t) *
          treapIn (held nullAt) man.availableIds (availableIdsOf m) ≤ managerAt man m :=
  mul_le_mul' (mul_le_mul' le_rfl (le_iSup_of_le t le_rfl)) le_rfl

/-! ## Records in use -/

/-- A record and its path, at their addresses. -/
def recordAt (a : Analysis) (last pid : Word) (x s : Addr) : Owned :=
  block x (recordWords a last pid (some s)) * block s [.data (.str a.path)]

theorem recordAt_open (a : Analysis) (last pid : Word) (x s : Addr) :
    recordAt a last pid x s = head x 9 * (cell (totalTime x) (int a.totalTime) *
      (cell (lastStart x) last * (cell (cntFiles x) (int a.cntFiles) *
        (cell (cntDirs x) (int a.cntDirs) * (cell (pathOf x) (.ptr (some s)) *
          (cell (priorityOf x) (int a.priority) * (cell (statusOf x) (int a.status) *
            (cell (suspendedOf x) (int a.suspended) * cell (pidOf x) pid)))))))) *
      (head s 1 * cell s (.data (.str a.path))) := by
  rw [recordAt, recordWords, block_record, block_one]

/-- A node's word and the record it points to. -/
theorem recordAt_held (a : Analysis) (x s c : Addr) :
    cell c (.ptr (some x)) * recordAt a (int a.lastStart) (int a.pid) x s ≤ held analysisAt a c :=
  le_iSup_of_le (some x) (mul_le_mul' le_rfl (analysisAt_intro (Or.inl rfl)))

instance (a : Analysis) (last pid : Word) (x s : Addr) [h : Frame P (head x 9 *
    (cell (totalTime x) (int a.totalTime) * (cell (lastStart x) last *
      (cell (cntFiles x) (int a.cntFiles) * (cell (cntDirs x) (int a.cntDirs) *
        (cell (pathOf x) (.ptr (some s)) * (cell (priorityOf x) (int a.priority) *
          (cell (statusOf x) (int a.status) * (cell (suspendedOf x) (int a.suspended) *
            cell (pidOf x) pid)))))))) * (head s 1 * cell s (.data (.str a.path)))) F] :
    Frame P (recordAt a last pid x s) F :=
  ⟨by rw [recordAt_open]; exact h.eq⟩

theorem loadPath_spec (a : Analysis) (last pid : Word) (x s : Addr)
    [hF : Frame P (recordAt a last pid x s) F] {k : Bytes → Code β}
    (hk : Triple (recordAt a last pid x s * F) (k a.path) Q) :
    Triple P (loadPath x >>= k) Q := by
  rw [hF.eq]
  rw [recordAt_open] at hk ⊢
  simp only [loadPath, bind_assoc]
  refine .loadPtr ?_
  simp only [Triple.deref_some, pure_bind]
  exact loadStr_spec hk

theorem infoOwned_at {α : Type} (enc : α → List Word) (a : α) (x : Addr) :
    infoOwned enc (some a) (some x) = block x (enc a) := by
  simp only [infoOwned, Option.some.injEq, iSup_iSup_eq_right]

/-- `fork_request` writes the pid when there is an answer. `I` holds the id. -/
theorem forkRequest_spec {I G : Owned} {id : Int} {idp : Addr} (hI : I = cell idp (int id) * G)
    (a : Analysis) (last pid : Word) (x s : Addr) (fork : Option Int) :
    Triple (I * recordAt a last pid x s) (forkRequest idp x fork) fun ret =>
      (⨆ _ : fork = none ∧ ret = 1, I * recordAt a last pid x s) ⊔
        ⨆ p, ⨆ _ : fork = some p ∧ ret = 0, I * recordAt { a with pid := p } last (int p) x s := by
  unfold forkRequest
  rw [hI]
  refine loadInt_spec ?_
  refine loadPath_spec a last pid x s ?_
  cases fork with
  | none => exact .ret (le_sup_of_le_left (le_iSup_of_le ⟨rfl, rfl⟩ (le_of_eq (by ac_rfl))))
  | some p =>
    rw [recordAt_open]
    refine .store ?_
    refine loadInt_spec ?_
    refine .ret (le_sup_of_le_right (le_iSup_of_le p (le_iSup_of_le ⟨rfl, rfl⟩ (le_of_eq ?_))))
    rw [recordAt_open]
    ac_rfl

theorem storeLast_spec (a : Analysis) (last pid : Word) (x s : Addr)
    [hF : Frame P (recordAt a last pid x s) F] {n : Int} {k : Unit → Code β}
    (hk : Triple (recordAt { a with lastStart := n } (int n) pid x s * F) (k ()) Q) :
    Triple P (store (lastStart x) (int n) >>= k) Q := by
  rw [hF.eq]
  rw [recordAt_open] at hk ⊢
  refine .store ?_
  exact hk.pre (le_of_eq (by ac_rfl))

/-! ## Adding -/

/-- The caller's record: what an add is given, `last_start` and `pid` aside. -/
def ownRecord (a : Analysis) (x : Addr) : Owned := ⨆ last, ⨆ pid, record a last pid x

theorem recordAt_le (a : Analysis) (last pid : Word) (x s : Addr) :
    recordAt a last pid x s ≤ ownRecord a x :=
  le_iSup_of_le last (le_iSup_of_le pid (le_iSup_of_le (some s)
    (mul_le_mul' le_rfl (le_iSup_of_le s (le_iSup_of_le rfl le_rfl)))))

/-- What an add leaves: the manager of the model, which has taken the record if it returns 0. -/
def added (r : AddResult) (a : Analysis) (m x : Addr) (out : Int × Bytes) : Owned :=
  ⨆ _ : out = (r.ret, r.reply), managerAt r.man m * if r.ret = 0 then 1 else ownRecord a x

theorem analysisCreated_spec (fd id : Int) (a : Analysis) (last pid : Word) (x s : Addr) :
    Triple (recordAt a last pid x s) (analysisCreated fd id x) fun out =>
      ⨆ _ : out = DiskAnalyzer.analysisCreated fd id a, recordAt a last pid x s := by
  unfold analysisCreated
  refine loadPath_spec a last pid x s ?_
  rw [recordAt_open]
  refine loadInt_spec ?_
  exact .ret (le_iSup_of_le rfl (mul_one _).le)

/-- The model when the fork manager does not answer: the node goes back to the free ids. -/
theorem threadsAddFork_none {env : AddEnv} (hfork : env.fork = none) {man : ThreadsManager} {id : Int}
    (ho : man.analyses.Ordered) (hid : id ∉ man.analyses.ids) (h : Int) (a : Analysis) (fd : Int) :
    DiskAnalyzer.threadsAddFork env { man with
        analyses := DiskAnalyzer.treapInsertNode man.analyses (node id h a nil nil) } a fd id =
      ⟨1, analysisCustomMessage fd
          (str "There was an error starting the analysis process. Try again.\n"),
        { man with
          analyses := (DiskAnalyzer.treapExtract (DiskAnalyzer.treapInsertNode man.analyses
            (node id h a nil nil)) id).2
          paths := (DiskAnalyzer.treeRemove man.paths a.path).2
          availableIds := DiskAnalyzer.returnId man.availableIds (node id h () nil nil) }⟩ := by
  have hmem : (id, h, a) ∈ (DiskAnalyzer.treapInsertNode man.analyses
      (node id h a nil nil)).inorder := mem_inorder_insertNode.2 (Or.inl rfl)
  have hnode := (extract_of_mem (ordered_insertNode ho hid h a) hmem).1
  simp only [DiskAnalyzer.threadsAddFork, hfork, hnode, setAnal, ThreadsManager.returnId]

/-- The model when the fork manager answers: the record in the store has the pid. -/
theorem threadsAddFork_some {env : AddEnv} {p : Int} (hfork : env.fork = some p)
    {man : ThreadsManager} {id : Int} (ho : man.analyses.Ordered) (hid : id ∉ man.analyses.ids)
    (h : Int) (a : Analysis) (fd : Int) :
    DiskAnalyzer.threadsAddFork env { man with
        analyses := DiskAnalyzer.treapInsertNode man.analyses (node id h a nil nil) } a fd id =
      ⟨0, DiskAnalyzer.analysisCreated fd id { a with pid := p, status := ANALYSIS_INPROGRESS },
        { man with
          analysisCnt := man.analysisCnt + 1
          analyses := DiskAnalyzer.treapInsertNode man.analyses
            (node id h { a with pid := p, status := ANALYSIS_INPROGRESS } nil nil) }⟩ := by
  simp only [DiskAnalyzer.threadsAddFork, hfork, modify_insertNode ho hid]

/-- The parked node has its record, the trie its id. -/
theorem taken (man : ThreadsManager) (id h : Int) (a : Analysis) {m x s q t idp : Addr} {K : Owned}
    (hK : block idp (idWords id) * K ≤ treeAt idWords man.paths t) :
    recordAt a (int a.lastStart) (int a.pid) x s * (cell (analysisCntOf m) (int man.analysisCnt) *
      (block idp (idWords id) *
        (treapIn (withHole (held analysisAt) (analOf q)) (parked man.analyses id h) (analysesOf m) *
          cell (analOf q) (.ptr (some x)) * (cell (pathsOf m) (.ptr (some t)) * K) *
            treapIn (held nullAt) man.availableIds (availableIdsOf m)))) ≤
      managerAt { man with
        analyses := DiskAnalyzer.treapInsertNode man.analyses (node id h a nil nil) } m := by
  have hput := (mul_le_mul' le_rfl (recordAt_held a x s (analOf q))).trans
    (unpark analysisAt id h a q man.analyses (analysesOf m))
  have hman := managerAt_intro { man with
    analyses := DiskAnalyzer.treapInsertNode man.analyses (node id h a nil nil) } m t
  refine le_trans (le_of_eq ?_) ((mul_le_mul' (mul_le_mul' (mul_le_mul' le_rfl hput)
    (mul_le_mul' le_rfl hK)) le_rfl).trans hman)
  ac_rfl

/-- **`threads_add` from `fork_request` on**: the node is put in, its record still the caller's. -/
theorem threadsAddFork_spec (man : ThreadsManager) (id h : Int) (a : Analysis) (pid : Word)
    (m x s q t idp : Addr) {fuel : Nat} (ho : man.analyses.Ordered) (hid : id ∉ man.analyses.ids)
    (hg : man.paths.Good) (hkeys : KeysInside a.path) (hsize : man.analyses.size + 1 < fuel)
    (hnames : names man.paths + a.path.length < fuel) (hfree : man.availableIds.size < fuel)
    (w : AddWorld) (env : AddEnv) (henv : env.fork = w.fork) (fd : Int) :
    Triple (cell (analysisCntOf m) (int man.analysisCnt) *
        (treapIn (withHole (held analysisAt) (analOf q)) (parked man.analyses id h) (analysesOf m) *
          cell (analOf q) (.ptr (some x))) * recordAt a (int a.lastStart) pid x s *
        (cell (pathsOf m) (.ptr (some t)) * lent (block idp (idWords id))
          (treeAt idWords man.paths t)) * treapIn (held nullAt) man.availableIds (availableIdsOf m))
      (threadsAddFork fuel w m x q idp fd id) (added (DiskAnalyzer.threadsAddFork env { man with
        analyses := DiskAnalyzer.treapInsertNode man.analyses (node id h a nil nil) } a fd id)
          a m x) := by
  unfold threadsAddFork
  simp only [lent, mul_iSup, iSup_mul, Triple.iSup_iff]
  intro K hK
  have hid' : block idp (idWords id) = cell idp (int id) * head idp 1 := by
    rw [idWords, block_one, mul_comm]
  refine .call (forkRequest_spec hid' a (int a.lastStart) pid x s w.fork) fun ret => ?_
  simp only [Quantale.sup_mul_distrib, iSup_mul, Triple.sup_iff, Triple.iSup_iff]
  constructor
  · rintro ⟨hfork, rfl⟩
    rw [if_pos one_ne_zero]
    refine loadParked_spec analysisAt id h q man.analyses (analysesOf m) ?_
    refine .call (takeBack_spec analysisAt ho hid h a (.ptr (some x)) q (analysesOf m) hsize)
      fun ret => ?_
    simp only [iSup_mul, Triple.iSup_iff]
    rintro rfl
    refine loadPath_spec a (int a.lastStart) pid x s ?_
    refine .loadPtr ?_
    simp only [Triple.deref_some, pure_bind]
    refine .call ((treeRemove_spec fuel man.paths a.path t hg hkeys hnames).pre hK) fun _ => ?_
    simp only [iSup_mul, Triple.iSup_iff]
    intro _
    refine .call (returnId_spec id h (.ptr (some x)) q man.availableIds (availableIdsOf m) hfree)
      fun _ => ?_
    rw [threadsAddFork_none (henv.trans hfork) ho hid]
    refine .ret (le_iSup_of_le rfl ?_)
    rw [if_neg one_ne_zero]
    refine le_trans (le_of_eq ?_) (mul_le_mul' (managerAt_intro _ m t)
      (recordAt_le a (int a.lastStart) pid x s))
    ac_rfl
  · rintro p ⟨hfork, rfl⟩
    rw [if_neg (by simp)]
    refine loadInt_spec ?_
    refine .store ?_
    rw [recordAt_open]
    refine .store ?_
    refine .call (analysisCreated_spec fd id { a with pid := p, status := ANALYSIS_INPROGRESS }
      (int a.lastStart) (int p) x s) fun reply => ?_
    simp only [iSup_mul, Triple.iSup_iff]
    rintro rfl
    rw [threadsAddFork_some (henv.trans hfork) ho hid]
    refine .ret (le_iSup_of_le rfl ?_)
    rw [if_pos rfl, mul_one]
    exact taken { man with analysisCnt := man.analysisCnt + 1 } id h
      { a with pid := p, status := ANALYSIS_INPROGRESS } hK

/-- What bounds the depth of every recursion on a manager. -/
def load (man : ThreadsManager) : Nat :=
  man.analyses.size + man.availableIds.size + 2 * names man.paths

/-- The message about `malloc`. -/
def memoryError (fd : Int) : Bytes :=
  analysisCustomMessage fd (str "There was a memory allocation error. Try again.\n")

/-- What else a reply may leave: the message about `malloc`, a list node. -/
def spared (fd : Int) (reply : Bytes) : Owned := if reply = memoryError fd then 1 ⊔ lost else 1

theorem one_le_spared (fd : Int) (reply : Bytes) : 1 ≤ spared fd reply := by
  rw [spared]
  split_ifs
  · exact le_sup_left
  · exact le_rfl

/-- What an add meets, with the answers of `malloc`. -/
def AddWorld.env (w : AddWorld) (rand : Option Int) (idp : Bool) (alloc : Alloc) : AddEnv where
  isDir := w.isDir
  rand := rand
  idp := idp
  alloc := alloc
  fork := w.fork
  now := w.now

/-- Both exits for want of memory: the node goes back. -/
theorem refused_spec (man : ThreadsManager) (id h : Int) (a : Analysis) (last pid v : Word)
    (m x s q : Addr) {fuel : Nat} (hfree : man.availableIds.size < fuel) (fd : Int) :
    Triple (managerAt man m * recordAt a last pid x s * detached id h v q)
      (do
        returnId fuel (availableIdsOf m) (some q)
        pure (1, memoryError fd))
      (added ⟨1, memoryError fd, man.returnId (node id h () nil nil)⟩ a m x) := by
  rw [managerAt]
  refine .call (returnId_spec id h v q man.availableIds (availableIdsOf m) hfree) fun _ => ?_
  refine .ret (le_iSup_of_le rfl ?_)
  rw [if_neg one_ne_zero]
  refine le_trans (le_of_eq ?_) (mul_le_mul' le_rfl (recordAt_le a last pid x s))
  rw [managerAt, ThreadsManager.returnId]
  ac_rfl

theorem names_lt_of_load {man : ThreadsManager} {n fuel : Nat} (h : load man + 2 * n + 1 < fuel) :
    names man.paths + n < fuel := by
  rw [load] at h
  omega

/-- The model when the path cannot be put in. -/
theorem threadsAddNode_refused {env : AddEnv} (hidp : env.idp = true) {man : ThreadsManager}
    {a : Analysis} {id : Int}
    (hret : (DiskAnalyzer.treeInsert man.paths a.path (some id) env.alloc).1 ≠ 0) (nd : Treap Unit)
    (fd : Int) : DiskAnalyzer.threadsAddNode env man a fd nd id =
      ⟨1, memoryError fd, ThreadsManager.returnId { man with
        paths := (DiskAnalyzer.treeInsert man.paths a.path (some id) env.alloc).2 } nd⟩ := by
  simp only [DiskAnalyzer.threadsAddNode, hidp, Bool.true_eq_false, if_false, if_pos hret]
  rfl

/-- The model when it can: the node goes into the store. -/
theorem threadsAddNode_made {env : AddEnv} (hidp : env.idp = true) {man : ThreadsManager}
    {a : Analysis} {id : Int}
    (hret : (DiskAnalyzer.treeInsert man.paths a.path (some id) env.alloc).1 = 0) (h : Int) (fd : Int) :
    DiskAnalyzer.threadsAddNode env man a fd (node id h () nil nil) id =
      DiskAnalyzer.threadsAddFork env { man with
        paths := (DiskAnalyzer.treeInsert man.paths a.path (some id) env.alloc).2
        analyses := DiskAnalyzer.treapInsertNode man.analyses
          (node id h { a with lastStart := env.now } nil nil) } { a with lastStart := env.now } fd id := by
  simp only [DiskAnalyzer.threadsAddNode, hidp, Bool.true_eq_false, if_false, hret, ne_eq,
    not_true_eq_false, setAnal]

/-- **`threads_add` once it holds a node**: what the model does, for some answers of `malloc`. -/
theorem threadsAddNode_spec (man : ThreadsManager) (id h : Int) (a : Analysis) (last pid v : Word)
    (m x s q : Addr) {fuel : Nat} (ho : man.analyses.Ordered) (hid : id ∉ man.analyses.ids)
    (hg : man.paths.Good) (hkeys : KeysInside a.path)
    (hfuel : load man + 2 * a.path.length + 1 < fuel) (w : AddWorld) (made : Option Int) (fd : Int) :
    Triple (managerAt man m * recordAt a last pid x s * detached id h v q)
      (threadsAddNode fuel w m x q fd) fun out => ⨆ idp, ⨆ alloc,
        added (DiskAnalyzer.threadsAddNode (w.env made idp alloc) man a fd (node id h () nil nil) id)
          a m x out * spared fd out.2 := by
  have hfree : man.availableIds.size < fuel := by rw [load] at hfuel; omega
  unfold threadsAddNode
  rw [managerAt, pathsIn, detached]
  simp only [mul_iSup, iSup_mul, Triple.iSup_iff]
  intro t
  refine .store ?_
  refine loadInt_spec ?_
  refine .malloc ?_ fun idp => ?_
  · have hback := refused_spec man id h a last pid (.ptr (some x)) m x s q hfree fd
    refine (hback.conseq ?_ fun out => ?_)
    · refine le_trans (le_of_eq ?_) (mul_le_mul' (mul_le_mul' (managerAt_intro man m t) le_rfl) le_rfl)
      rw [detached]
      ac_rfl
    · refine le_iSup_of_le false (le_iSup_of_le none ?_)
      exact le_mul_of_le_of_one_le le_rfl (one_le_spared fd out.2)
  · rw [show List.replicate 1 (Val.undef : Word) = [.undef] from rfl, block_one]
    refine .store ?_
    refine loadPath_spec a last pid x s ?_
    refine .loadPtr ?_
    simp only [Triple.deref_some, pure_bind]
    have hins : Triple (treeAt idWords man.paths t * infoOwned idWords (some id) (some idp))
        (treeInsert fuel t a.path (some idp)) _ :=
      treeInsert_spec (some id) (some idp) fuel man.paths a.path t hg hkeys (names_lt_of_load hfuel)
    rw [infoOwned_at] at hins
    refine .call hins fun ret => ?_
    simp only [inserted, iSup_mul, Triple.iSup_iff]
    rintro alloc rfl
    by_cases hret : (DiskAnalyzer.treeInsert man.paths a.path (some id) alloc).1 = 0
    · rw [if_pos hret, if_neg (not_not.2 hret), infoOwned_at]
      refine storeLast_spec a last pid x s ?_
      have hsize : man.analyses.size + 1 < fuel := by rw [load] at hfuel; omega
      refine .call (park_spec analysisAt id h (.ptr (some x)) q man.analyses (analysesOf m)
        (by omega)) fun _ => ?_
      have hle := names_treeInsert_le hg hkeys (some id) alloc
      have hnames : names (DiskAnalyzer.treeInsert man.paths a.path (some id) alloc).2 +
          a.path.length < fuel := by rw [load] at hfuel; omega
      have hfork := threadsAddFork_spec { man with
          paths := (DiskAnalyzer.treeInsert man.paths a.path (some id) alloc).2 } id h
        { a with lastStart := w.now } pid m x s q t idp ho hid (Tree.insert_spec hg _ _ alloc).1 hkeys
        hsize hnames hfree w (w.env made true alloc) rfl fd
      refine .last hfork fun out => ?_
      refine le_iSup_of_le true (le_iSup_of_le alloc ?_)
      rw [threadsAddNode_made (by exact rfl) hret]
      refine mul_le_mul' le_rfl ?_
      exact one_le_spared fd out.2
    · rw [if_neg hret, if_pos hret, infoOwned_at]
      refine .free [int id] ?_
      have hback := refused_spec { man with
        paths := (DiskAnalyzer.treeInsert man.paths a.path (some id) alloc).2 } id h a last pid
          (.ptr (some x)) m x s q hfree fd
      refine (hback.frame (1 ⊔ lost)).conseq ?_ fun out => ?_
      · refine le_trans (le_of_eq ?_) (mul_le_mul' (mul_le_mul' (mul_le_mul'
          (managerAt_intro _ m t) le_rfl) le_rfl) le_rfl)
        rw [detached]
        ac_rfl
      · refine le_iSup_of_le true (le_iSup_of_le alloc ?_)
        rw [threadsAddNode_refused (by exact rfl) hret, added, iSup_mul]
        refine iSup_le fun hout => le_trans (le_of_eq ?_) (mul_le_mul' (le_iSup_of_le hout le_rfl) le_rfl)
        rw [hout, spared, if_pos rfl]
        rfl

/-- What an add leaves, for some answers of `malloc`. -/
def addedFor (w : AddWorld) (man : ThreadsManager) (a : Analysis) (fd : Int) (m x : Addr)
    (out : Int × Bytes) : Owned :=
  ⨆ made, ⨆ _ : made = none ∨ made = some w.rand, ⨆ idp, ⨆ alloc,
    added (DiskAnalyzer.threadsAdd (w.env made idp alloc) man a fd) a m x out * spared fd out.2

/-- Whatever `malloc` answers, an add gets no id in use. -/
def AddWorld.Fresh (w : AddWorld) (man : ThreadsManager) (a : Analysis) (fd : Int) : Prop :=
  ∀ made idp alloc, FreshId man (.add (w.env made idp alloc) a fd)

/-- An add that keeps nothing of the record. -/
theorem refused_le {w : AddWorld} {man man' : ThreadsManager} {a : Analysis} {fd : Int} {m x : Addr}
    {reply : Bytes} (made : Option Int) (hmade : made = none ∨ made = some w.rand)
    (hres : DiskAnalyzer.threadsAdd (w.env made false none) man a fd = ⟨1, reply, man'⟩) :
    managerAt man' m * ownRecord a x ≤ addedFor w man a fd m x (1, reply) := by
  refine le_iSup_of_le made (le_iSup_of_le hmade (le_iSup_of_le false (le_iSup_of_le none ?_)))
  refine le_mul_of_le_of_one_le ?_ (one_le_spared fd reply)
  rw [hres]
  refine le_iSup_of_le rfl ?_
  rw [if_neg one_ne_zero]

/-- The model when there is no free id. -/
theorem threadsAdd_noId (env : AddEnv) (hdir : env.isDir = true) {man : ThreadsManager}
    {a : Analysis} (hpre : DiskAnalyzer.treeFindPrefix man.paths a.path = none)
    (hnil : (DiskAnalyzer.getFreeId env.rand () man.availableIds).1 = nil) (fd : Int) :
    DiskAnalyzer.threadsAdd env man a fd = ⟨1, analysisCustomMessage fd
        (str "Could not create new id. Try removing some analyses.\n"),
      { man with availableIds := (DiskAnalyzer.getFreeId env.rand () man.availableIds).2 }⟩ := by
  rw [DiskAnalyzer.threadsAdd, hdir, if_neg (by simp), hpre]
  cases hget : DiskAnalyzer.getFreeId env.rand () man.availableIds with
  | mk nd free =>
    rw [hget] at hnil
    obtain rfl := hnil
    rfl

/-- The model when there is one. -/
theorem threadsAdd_node (env : AddEnv) (hdir : env.isDir = true) {man : ThreadsManager}
    {a : Analysis} (hpre : DiskAnalyzer.treeFindPrefix man.paths a.path = none) {id h : Int}
    (hnode : (DiskAnalyzer.getFreeId env.rand () man.availableIds).1 = node id h () nil nil)
    (fd : Int) : DiskAnalyzer.threadsAdd env man a fd = DiskAnalyzer.threadsAddNode env
      { man with availableIds := (DiskAnalyzer.getFreeId env.rand () man.availableIds).2 } a fd
        (node id h () nil nil) id := by
  rw [DiskAnalyzer.threadsAdd, hdir, if_neg (by simp), hpre]
  cases hget : DiskAnalyzer.getFreeId env.rand () man.availableIds with
  | mk nd free =>
    rw [hget] at hnode
    obtain rfl := hnode
    rfl

theorem handsOut_of_node (env : AddEnv) (hdir : env.isDir = true) {man : ThreadsManager}
    {a : Analysis} (hpre : DiskAnalyzer.treeFindPrefix man.paths a.path = none) {id h : Int}
    (hnode : (DiskAnalyzer.getFreeId env.rand () man.availableIds).1 = node id h () nil nil) :
    handsOut env man a = some id := by
  rw [handsOut, if_neg (by simp [hdir, hpre]), hnode]

/-- **`threads_add`** does what the model does, for some answers of `malloc`. Unless it returns 0
the record is still the caller's; a list node is lost with a message about `malloc` only. -/
theorem threadsAdd_spec (w : AddWorld) (man : ThreadsManager) (a : Analysis) (last pid : Word)
    (m x s : Addr) (fd : Int) {fuel : Nat} (hi : InStep man) (hfresh : w.Fresh man a fd)
    (hkeys : KeysInside a.path) (hfuel : load man + 2 * a.path.length + 2 < fuel) :
    Triple (managerAt man m * recordAt a last pid x s) (threadsAdd fuel w m x fd)
      (addedFor w man a fd m x) := by
  unfold threadsAdd
  refine loadPath_spec a last pid x s ?_
  by_cases hdir : w.isDir = false
  · rw [if_pos hdir]
    have hres : DiskAnalyzer.threadsAdd (w.env none false none) man a fd =
        ⟨1, analysisPathNoExists fd a.path, man⟩ := by rw [DiskAnalyzer.threadsAdd]; exact if_pos hdir
    refine .ret (le_trans ?_ (refused_le none (Or.inl rfl) hres))
    rw [mul_comm]
    exact mul_le_mul' le_rfl (recordAt_le a last pid x s)
  rw [if_neg hdir]
  have hdir' : w.isDir = true := by simpa using hdir
  simp only [managerAt, pathsIn, mul_iSup, iSup_mul, Triple.iSup_iff]
  intro t
  refine .loadPtr ?_
  simp only [Triple.deref_some, pure_bind]
  have hnames : names man.paths + a.path.length < fuel := by rw [load] at hfuel; omega
  have hfind : Triple (treeAt idWords man.paths t) (treeFindPrefix fuel t a.path) _ :=
    treeFindPrefix_spec t hkeys hnames
  refine .call hfind fun ret => ?_
  simp only [lent, iSup_mul, Triple.iSup_iff]
  intro K hK
  cases hpre : DiskAnalyzer.treeFindPrefix man.paths a.path with
  | some other =>
    rw [hpre] at hK
    simp only [infoOwned, iSup_mul, Triple.iSup_iff]
    rintro otherId rfl
    rw [infoOwned_at, block_one] at hK
    rw [block_one]
    refine loadInt_spec ?_
    have hres : DiskAnalyzer.threadsAdd (w.env none false none) man a fd =
        ⟨1, analysisPathAlreadyExists fd a.path other, man⟩ := by
      rw [DiskAnalyzer.threadsAdd, hpre]
      exact if_neg hdir
    refine .ret (le_trans ?_ (refused_le none (Or.inl rfl) hres))
    refine le_trans (le_of_eq ?_) (mul_le_mul' ((mul_le_mul' (mul_le_mul' le_rfl
      (mul_le_mul' le_rfl hK)) le_rfl).trans (managerAt_intro man m t))
        (recordAt_le a last pid x s))
    ac_rfl
  | none =>
    rw [hpre] at hK
    simp only [infoOwned, iSup_mul, Triple.iSup_iff, one_mul] at hK ⊢
    rintro rfl
    simp only [iSup_pos] at hK
    refine .call (getFreeId_spec w.rand man.availableIds (availableIdsOf m)
      (by rw [load] at hfuel; omega)) fun nd => ?_
    simp only [takenOut, iSup_mul, Triple.iSup_iff]
    intro made hmade
    have hman := (mul_le_mul' (mul_le_mul' le_rfl (mul_le_mul' le_rfl hK)) le_rfl).trans
      (managerAt_intro { man with
        availableIds := (DiskAnalyzer.getFreeId made () man.availableIds).2 } m t)
    rcases getFreeId_fst made man.availableIds with hnil | ⟨id, h, hnode⟩
    · rw [hnil]
      simp only [treapAt, iSup_mul, Triple.iSup_iff, one_mul]
      rintro rfl
      have hres := threadsAdd_noId (w.env made false none) hdir' (a := a) hpre hnil fd
      refine .ret (le_trans ?_ (refused_le made hmade hres))
      refine le_trans (le_of_eq ?_) (mul_le_mul' hman (recordAt_le a last pid x s))
      ac_rfl
    · rw [hnode, treapAt_node]
      simp only [iSup_mul, Triple.iSup_iff]
      rintro q rfl
      rw [← treapAt_some, freeAt_node, ← detached]
      have hres (idp : Bool) (alloc : Alloc) :=
        threadsAdd_node (w.env made idp alloc) hdir' (a := a) hpre hnode fd
      have hid : id ∉ man.analyses.ids :=
        hfresh made true none id (handsOut_of_node (w.env made true none) hdir' hpre hnode)
      have hsize := size_getFreeId_le made man.availableIds
      have hload : load { man with
          availableIds := (DiskAnalyzer.getFreeId made () man.availableIds).2 } +
            2 * a.path.length + 1 < fuel := by
        simp only [load] at hfuel ⊢
        omega
      have hadd := threadsAddNode_spec { man with
          availableIds := (DiskAnalyzer.getFreeId made () man.availableIds).2 } id h a last pid
        (.ptr none) m x s q hi.store hid hi.trie hkeys hload w made fd
      refine hadd.conseq ?_ fun out => ?_
      · refine le_trans (le_of_eq ?_) (mul_le_mul' (mul_le_mul' hman le_rfl) le_rfl)
        ac_rfl
      · refine le_iSup_of_le made (le_iSup_of_le hmade ?_)
        simp only [hres]
        exact le_rfl

end DiskAnalyzer.Memory
