import DiskAnalyzer.ServiceProof

/-!
# `threads_manager.c`: no id is lost

While no add fails after it has got an id, the ids that are free or in use are those of an initial
segment (`Segment`): an add moves an id over, or moves the last free one and puts its successor in
its place, a removal moves an id back, and a start makes every smaller id that no record has free.
So there is always a free id (`ids_partition`).

Adds that fail can lose ids, but only after a removal. Without removals the next id is the only
free one (`Lone`), and every id that is handed out is new.
-/

namespace DiskAnalyzer

open Treap IdPool

/-- `get_free_id` fails on a treap that is not empty only for want of memory. -/
theorem getFreeId_ne_nil {t : Treap Unit} (ho : t.Ordered) {x : Int} (hx : x ∈ t.ids) (rand : Int) :
    (getFreeId (some rand) () t).1 ≠ nil := by
  match t, ho, hx with
  | node id h a l (node j k b jl jr), ho, _ =>
    obtain ⟨h', hex⟩ := extract_fst_of_mem ho (show id ∈ _ by simp)
    exact ne_of_eq_of_ne hex (by simp)
  | node id h a (node j k b jl jr) nil, ho, _ =>
    obtain ⟨h', hex⟩ := extract_fst_of_mem ho (show j ∈ _ by simp)
    exact ne_of_eq_of_ne hex (by simp)
  | node id h () nil nil, ho, _ =>
    by_cases hlt : id < ID_MAX
    · obtain ⟨t', heq, -⟩ := getFreeId_lone (h := h) (k := rand) hlt
      rw [heq]
      simp
    · rw [getFreeId, if_neg hlt, extract_leaf]
      simp

/-- Every event of these runs: adds that return 0, removals, by a request or by a failing worker's
message, and restarts. -/
def Kept (man : ThreadsManager) : Event → Prop
  | .add env path priority memory fd =>
    (threadsAdd env man (newAnalysis path priority memory) fd).ret = 0
  | .remove .. => True
  | .result _ _ result _ _ _ _ => result = 48
  | .restart _ => True
  | _ => False

/-- The add does not get the id `ID_MAX`. -/
def NotLast (man : ThreadsManager) : Event → Prop
  | .add env path priority memory _ =>
    handsOut env man (newAnalysis path priority memory) ≠ some ID_MAX
  | _ => True

/-- The free and the used ids make up a segment, and no larger id fits a record. -/
structure Partitioned (man : ThreadsManager) : Prop where
  free : man.availableIds.Ordered
  segment : Segment 1 {x | x ∈ man.availableIds.ids} {x | x ∈ man.analyses.ids}

variable {man man' : ThreadsManager} {s s' : Service}

/-- With all free ids below those in use impossible, an add of these runs gets a new id. -/
theorem Partitioned.freshId (hp : Partitioned man) (env : AddEnv) (anal : Analysis) (fd : Int) :
    FreshId man (.add env anal fd) := by
  intro id hout
  rw [handsOut] at hout
  split_ifs at hout
  rcases getFreeId_cases hp.free env.rand with hnil | ⟨i, h, hget, -, -⟩
  · rw [hnil] at hout
    exact absurd hout (by simp)
  · rw [hget] at hout
    obtain rfl := Option.some.inj hout
    exact hp.segment.disjoint i (mem_ids_of_getFreeId hget)

/-- **An add that returns 0.** -/
theorem AddExit.partitioned {env : AddEnv} {anal : Analysis} {fd : Int} {res : AddResult}
    (hp : Partitioned man) (hs : Sound man) (hlast : handsOut env man anal ≠ some ID_MAX)
    (h : AddExit env man anal fd res) (hret : res.ret = 0) : Partitioned res.man := by
  cases h with
  | @added id h pid _ hget hout _ _ =>
    obtain ⟨hord, hcases⟩ := getFreeId_of_node hp.free hget
    refine ⟨hord, ?_⟩
    rcases hcases with ⟨ht, -, hids⟩ | ⟨ht, hge, -⟩ | ⟨hm, hid, hids⟩
    · have hlone : ∀ x, x ∈ man.availableIds.ids ↔ x = id := fun x => by simp [ht]
      have htake := hp.segment.takeLast hlone (show id < id + 1 by omega) fun x hx => by omega
      exact htake.congr hids fun x => mem_ids_added
    · have hle := (hs.free id (by simp [ht])).2
      exact absurd (hout.trans (congrArg some (le_antisymm hle hge))) hlast
    · exact (hp.segment.take hid hm).congr hids fun x => mem_ids_added
  | _ => exact absurd hret one_ne_zero

theorem Partitioned.remove (hp : Partitioned man) (hs : Sound man) (dirPath : Bytes)
    (inGroup : Int → Bool) (id fd : Int) :
    Partitioned (threadsRemove dirPath inGroup man id fd).man := by
  by_cases hid : id ∈ man.analyses.ids
  · obtain ⟨h, a, hm⟩ := mem_ids.1 hid
    have hex := extract_eq_of_mem hs.inStep.store hm
    have hnot : id ∉ man.availableIds.ids := fun hf => hp.segment.disjoint id hf hid
    rw [threadsRemove, hex]
    exact ⟨ordered_insertNode hp.free hnot h (),
      (hp.segment.give hid).congr (fun x => mem_ids_insertNode) fun x =>
        mem_ids_extract hs.inStep.store⟩
  · rw [threadsRemove, extract_of_notMem hs.inStep.store hid]
    exact hp

theorem le_maxId {es : List Entry} {e : Entry} (he : e ∈ es) : e.1 ≤ maxId es := by
  induction es with
  | nil => exact absurd he List.not_mem_nil
  | cons e' es ih =>
    rcases List.mem_cons.1 he with rfl | he
    · exact le_max_left _ _
    · exact le_trans (ih he) (le_max_right _ _)

theorem maxId_lt {es : List Entry} {m : Int} (hm : 0 < m) (hes : ∀ e ∈ es, e.1 < m) :
    maxId es < m := by
  induction es with
  | nil => exact hm
  | cons e es ih =>
    exact max_lt (hes e List.mem_cons_self) (ih fun e he => hes e (List.mem_cons_of_mem _ he))

/-- **A restart** makes the segment end behind the largest used id. -/
theorem Rebuilt.partitioned {env : StartEnv} (h : Rebuilt env man man') (hp : Partitioned man)
    (hs : Sound man) : Partitioned man' := by
  obtain ⟨top, htop, -, hused⟩ := hp.segment.top
  have hrange := hs.free top htop
  have hmax : maxId man.analyses.inorder < top :=
    maxId_lt (by have := hrange.1; omega) fun e he => hused e.1 (mem_ids_of_mem he)
  have hle : ∀ x, x ∈ man.analyses.ids → x ≤ maxId man.analyses.inorder := by
    intro x hx
    obtain ⟨k, a, hm⟩ := mem_ids.1 hx
    exact le_maxId hm
  have hfree : ∀ x, x ∈ man'.availableIds.ids ↔
      1 ≤ x ∧ x ≤ maxId man.analyses.inorder + 1 ∧ x ∉ man.analyses.ids := by
    intro x
    rw [h.free, min_eq_left (by have := hrange.2; omega)]
  have hnonneg := maxId_nonneg man.analyses.inorder
  refine ⟨h.freeOrdered, ⟨⟨?_, maxId man.analyses.inorder + 1, ?_, ?_, ?_⟩, ?_, ?_⟩⟩
  · intro x hx hx'
    exact ((hfree x).1 hx).2.2 ((h.ids x).1 hx')
  · refine (hfree _).2 ⟨by omega, le_refl _, ?_⟩
    intro hmem
    have := hle _ hmem
    omega
  · exact fun x hx => ((hfree x).1 hx).2.1
  · intro x hx
    have := hle x ((h.ids x).1 hx)
    omega
  · rintro x (hx | hx)
    · exact ((hfree x).1 hx).1
    · exact (hs.used x ((h.ids x).1 hx)).1
  · intro m hm x hlow hx
    by_cases hmem : x ∈ man.analyses.ids
    · exact Or.inr ((h.ids x).2 hmem)
    · exact Or.inl ((hfree x).2 ⟨hlow, le_trans hx ((hfree m).1 hm).2.1, hmem⟩)

/-- **One event.** -/
theorem partitioned_handle {e : Event} (hp : Partitioned s.man) (hs : Sound s.man)
    (hwf : WellFormed e) (hkept : Kept s.man e) (hlast : NotLast s.man e)
    (h : handle s e = some s') : Partitioned s'.man ∧ Sound s'.man := by
  have hfresh : GetsFreshId s.man e := by
    cases e with
    | add env path priority memory fd => exact hp.freshId env _ fd
    | _ => trivial
  refine ⟨?_, sound_handle hs hfresh hwf h⟩
  have hmove := storeMove_of_handle hs hfresh hwf h
  cases e with
  | add env path priority memory fd =>
    obtain rfl := Option.some.inj h
    exact (threadsAdd_exit env s.man _ fd).partitioned hp hs hlast hkept
  | remove dirPath inGroup id fd =>
    obtain rfl := Option.some.inj h
    exact hp.remove hs dirPath inGroup id fd
  | suspend => exact hkept.elim
  | resume => exact hkept.elim
  | result dirPath inGroup result id cntDirs cntFiles now =>
    obtain rfl := Option.some.inj h
    dsimp only
    rw [threadsReadResults, if_pos (show result = 48 from hkept)]
    exact hp.remove hs dirPath inGroup id (-1)
  | restart env =>
    cases hmove with
    | kept _ hno => exact absurd rfl (hno env)
    | restarted hrebuilt => exact hrebuilt.partitioned hp hs

/-- What `threads_startup` builds from an empty file. -/
theorem sound_startup {env : StartEnv} (h : threadsStartup env [] = some man) :
    Sound man ∧ Partitioned man := by
  obtain ⟨k, rfl⟩ := threadsStartup_nil h
  have hone : InRange 1 := ⟨le_refl _, by decide⟩
  refine ⟨⟨⟨ordered_nil, Tree.good_treeInit, rfl, ?_⟩, ?_, ?_, ?_⟩, ⟨?_, ?_⟩⟩
  · intro cs _ i
    simp [treapFind, Tree.val_treeInit]
  · intro id a ha
    exact absurd ha (by simp [treapFind])
  · simp
  · simpa using hone
  · simp [Ordered]
  · refine ⟨⟨fun x _ => by simp, 1, by simp, by simp, by simp⟩, by simp, ?_⟩
    intro m hm x hlow hle
    obtain rfl : m = 1 := by simpa using hm
    left
    simpa using le_antisymm hle hlow

/-- **The ids partition an initial segment**, in every run of adds that return 0, removals, failing
workers' messages and restarts that hands out no `ID_MAX`. -/
theorem ids_partition
    (h : (service.guard fun s e => WellFormed e ∧ Kept s.man e ∧ NotLast s.man e).Reachable s) :
    s.man.availableIds.ids.Nodup ∧ s.man.analyses.ids.Nodup ∧
      (∃ m ∈ s.man.availableIds.ids, (∀ x ∈ s.man.availableIds.ids, 1 ≤ x ∧ x ≤ m) ∧
        (∀ x ∈ s.man.analyses.ids, 1 ≤ x ∧ x < m) ∧
        ∀ x, 1 ≤ x → x ≤ m → Xor (x ∈ s.man.availableIds.ids) (x ∈ s.man.analyses.ids)) ∧
      ∀ rand, (getFreeId (some rand) () s.man.availableIds).1 ≠ nil := by
  have hinv : Partitioned s.man ∧ Sound s.man := by
    refine h.invariant (I := fun s => Partitioned s.man ∧ Sound s.man) ?_ ?_
    · rintro s ⟨-, env, henv⟩
      exact ⟨(sound_startup henv).2, (sound_startup henv).1⟩
    · rintro s e t ⟨hp, hs⟩ ⟨hstep, hwf, hkept, hlast⟩
      exact partitioned_handle hp hs hwf hkept hlast hstep
  obtain ⟨hp, hs⟩ := hinv
  obtain ⟨m, hm, hle, hlt⟩ := hp.segment.top
  refine ⟨hp.free.nodup, hs.inStep.store.nodup, ⟨m, hm, ?_, ?_, ?_⟩, ?_⟩
  · exact fun x hx => ⟨hp.segment.low x (Or.inl hx), hle x hx⟩
  · exact fun x hx => ⟨hp.segment.low x (Or.inr hx), hlt x hx⟩
  · intro x hlow hx
    rcases hp.segment.filled m hm x hlow hx with hf | hu
    · exact Or.inl ⟨hf, hp.segment.disjoint x hf⟩
    · exact Or.inr ⟨hu, fun hf => hp.segment.disjoint x hf hu⟩
  · exact getFreeId_ne_nil hp.free hm

/-- An add of a path, at a reading of the clock, whose worker has a pid. -/
def addEvent (path : String) (pid now : Int) : Event :=
  .add ⟨true, some 0, true, none, some pid, now⟩ (str path) 2 (0, 0) 5

/-- The manager over an empty data file. -/
def emptyService : Service := ⟨⟨0, nil, treeInit, node 1 0 () nil nil⟩, []⟩

theorem init_emptyService : service.init emptyService := ⟨rfl, quietStart, rfl⟩

/-- The states that events lead to. -/
def handled (s : Service) (es : List Event) : Service :=
  es.foldl (fun s e => (handle s e).getD s) s

theorem handle_getD {e : Event} (h : (handle s e).isSome = true) :
    handle s e = some ((handle s e).getD s) := by
  obtain ⟨s', hs'⟩ := Option.isSome_iff_exists.1 h
  rw [hs', Option.getD_some]

/-- Two adds, a removal that leaves ids 1 and 3 free, a restart, and a worker that fails. -/
def reusingEvents : List Event :=
  [addEvent "/a" 10 0, addEvent "/b" 11 0, .remove (str "/data/") (fun _ => true) 1 5,
    .restart quietStart, .result (str "/data/") (fun _ => true) 48 2 0 0 0]

theorem ids_partition_run :
    (getFreeId (some 0) () (handled emptyService reusingEvents).man.availableIds).1 ≠ nil := by
  refine (ids_partition ⟨_, reusingEvents, init_emptyService,
    .cons ⟨handle_getD rfl, ⟨?_, ?_⟩, ?_, ?_⟩ (.cons ⟨handle_getD rfl, ⟨?_, ?_⟩, ?_, ?_⟩
      (.cons ⟨handle_getD rfl, trivial, trivial, trivial⟩
        (.cons ⟨handle_getD ?_, quietStart_succeeds, trivial, trivial⟩
          (.cons ⟨handle_getD rfl, trivial, rfl, trivial⟩ (.nil _)))))⟩).2.2.2 0
  · decide +kernel
  · decide
  · show (threadsAdd _ _ _ _).ret = 0
    decide +kernel
  · show handsOut _ _ _ ≠ some ID_MAX
    decide +kernel
  · decide +kernel
  · decide
  · show (threadsAdd _ _ _ _).ret = 0
    decide +kernel
  · show handsOut _ _ _ ≠ some ID_MAX
    decide +kernel
  · decide +kernel

/-! ## Without removals -/

/-- Nothing is removed, by a request or for a worker that has failed. -/
def NoRemoval : Event → Prop
  | .remove .. => False
  | .result _ _ result _ _ _ _ => result ≠ 48
  | _ => True

/-- The ids below some `m` are in use, and `m`, if it is an id, is the only free one. -/
def Lone (man : ThreadsManager) : Prop :=
  ∃ m, 1 ≤ m ∧ (∀ x, x ∈ man.analyses.ids ↔ 1 ≤ x ∧ x < m) ∧
    (m ≤ ID_MAX ∧ (∃ h, man.availableIds = node m h () nil nil) ∨
      m = ID_MAX + 1 ∧ man.availableIds = nil)

/-- `get_free_id` of a lone node. -/
theorem getFreeId_leaf (rand : Option Int) (m h : Int) :
    getFreeId rand () (node m h () nil nil) = (nil, node m h () nil nil) ∨
      (∃ k, m < ID_MAX ∧
        getFreeId rand () (node m h () nil nil) =
          (node m h () nil nil, node (m + 1) k () nil nil)) ∨
      ID_MAX ≤ m ∧ getFreeId rand () (node m h () nil nil) = (node m h () nil nil, nil) := by
  by_cases hlt : m < ID_MAX
  · cases rand with
    | none =>
      left
      rw [getFreeId, if_pos hlt, insertNew_eq]
      rfl
    | some k =>
      obtain ⟨t', heq, hord, hids⟩ := getFreeId_lone (h := h) (k := k) hlt
      obtain ⟨k', rfl⟩ := eq_node_of_ids hord hids
      exact Or.inr (Or.inl ⟨k', hlt, heq⟩)
  · right
    right
    refine ⟨by omega, ?_⟩
    rw [getFreeId, if_neg hlt, extract_leaf]

/-- An add that finds no free id leaves the free ids as they were. -/
theorem Lone.got_none (hl : Lone man) {rand : Option Int}
    (hget : (getFreeId rand () man.availableIds).1 = nil) :
    (getFreeId rand () man.availableIds).2 = man.availableIds := by
  obtain ⟨m, -, -, ⟨-, h, hfree⟩ | ⟨-, hfree⟩⟩ := hl
  · rw [hfree] at hget ⊢
    rcases getFreeId_leaf rand m h with heq | ⟨k, -, heq⟩ | ⟨-, heq⟩
    · rw [heq]
    · rw [heq] at hget
      exact absurd hget (by simp)
    · rw [heq] at hget
      exact absurd hget (by simp)
  · rw [hfree]
    rfl

/-- **The id an add gets is new.** It can be given back, and it can be kept. -/
theorem Lone.got (hl : Lone man) {rand : Option Int} {id h : Int}
    (hget : (getFreeId rand () man.availableIds).1 = node id h () nil nil) :
    id ∉ man.analyses.ids ∧
      returnId (getFreeId rand () man.availableIds).2 (node id h () nil nil) =
        man.availableIds ∧
      ∀ man' : ThreadsManager, man'.availableIds = (getFreeId rand () man.availableIds).2 →
        (∀ x, x ∈ man'.analyses.ids ↔ x = id ∨ x ∈ man.analyses.ids) → Lone man' := by
  obtain ⟨m, hm, hused, ⟨hmax, h', hfree⟩ | ⟨-, hfree⟩⟩ := hl
  · rw [hfree] at hget ⊢
    have hnext : ∀ man' : ThreadsManager, (∀ x, x ∈ man'.analyses.ids ↔ x = m ∨
        x ∈ man.analyses.ids) → ∀ x, x ∈ man'.analyses.ids ↔ 1 ≤ x ∧ x < m + 1 := by
      intro man' hids x
      rw [hids, hused]
      omega
    rcases getFreeId_leaf rand m h' with heq | ⟨k, hlt, heq⟩ | ⟨hge, heq⟩
    · rw [heq] at hget
      exact absurd hget (by simp)
    · rw [heq] at hget ⊢
      simp only [node.injEq, and_true] at hget
      obtain ⟨rfl, rfl⟩ := hget
      refine ⟨fun hmem => by have := (hused m).1 hmem; omega, returnId_lone _ _ _, ?_⟩
      intro man' hfree' hids
      exact ⟨m + 1, by omega, hnext man' hids, Or.inl ⟨by omega, k, hfree'⟩⟩
    · rw [heq] at hget ⊢
      simp only [node.injEq, and_true] at hget
      obtain ⟨rfl, rfl⟩ := hget
      refine ⟨fun hmem => by have := (hused m).1 hmem; omega, rfl, ?_⟩
      intro man' hfree' hids
      exact ⟨m + 1, by omega, hnext man' hids, Or.inr ⟨by omega, hfree'⟩⟩
  · rw [hfree] at hget
    exact absurd hget (by simp [getFreeId])

theorem Lone.freshId (hl : Lone man) (env : AddEnv) (anal : Analysis) (fd : Int) :
    FreshId man (.add env anal fd) := by
  intro id hout
  rw [handsOut] at hout
  split_ifs at hout
  rcases getFreeId_fst env.rand man.availableIds with hnil | ⟨i, h, hget⟩
  · rw [hnil] at hout
    exact absurd hout (by simp)
  · have hgot := (hl.got hget).1
    rw [hget] at hout
    obtain rfl := Option.some.inj hout
    exact hgot

theorem Lone.congr (hl : Lone man) (hfree : man'.availableIds = man.availableIds)
    (hused : ∀ x, x ∈ man'.analyses.ids ↔ x ∈ man.analyses.ids) : Lone man' := by
  obtain ⟨m, hm, hids, hcases⟩ := hl
  refine ⟨m, hm, fun x => ?_, ?_⟩
  · rw [hused, hids]
  · rw [hfree]
    exact hcases

theorem AddExit.lone {env : AddEnv} {anal : Analysis} {fd : Int} {res : AddResult}
    (hl : Lone man) (hi : InStep man) (h : AddExit env man anal fd res) : Lone res.man := by
  cases h with
  | notDir => exact hl
  | covered => exact hl
  | noId _ hget => exact hl.congr (hl.got_none hget) fun _ => Iff.rfl
  | noMemory _ hget => exact hl.congr (hl.got hget).2.1 fun _ => Iff.rfl
  | noNode _ hget => exact hl.congr (hl.got hget).2.1 fun _ => Iff.rfl
  | @noFork id h _ hget =>
    obtain ⟨hid, hback, -⟩ := hl.got hget
    have hord := ordered_insertNode hi.store hid h { anal with lastStart := env.now }
    have hmem : (id, h, { anal with lastStart := env.now }) ∈ (treapInsertNode man.analyses
        (node id h { anal with lastStart := env.now } nil nil)).inorder := by
      rw [mem_inorder_insertNode]
      exact Or.inl rfl
    refine hl.congr ?_ ?_
    · dsimp only
      rw [(extract_of_mem hord hmem).1]
      exact hback
    · intro x
      dsimp only
      rw [mem_ids_extract hord, mem_ids_insertNode]
      constructor
      · exact fun hx => hx.1.resolve_left hx.2
      · exact fun hx => ⟨Or.inr hx, fun heq => hid (heq ▸ hx)⟩
  | @added id h pid _ hget =>
    exact (hl.got hget).2.2 _ rfl fun x => mem_ids_added

/-- **A restart** makes the next id free again. -/
theorem Rebuilt.lone {env : StartEnv} (h : Rebuilt env man man') (hl : Lone man) : Lone man' := by
  obtain ⟨m, hm, hused, hcases⟩ := hl
  have hmax : maxId man.analyses.inorder = m - 1 := by
    have hlt : maxId man.analyses.inorder < m :=
      maxId_lt (by omega) fun e he => ((hused e.1).1 (mem_ids_of_mem he)).2
    by_cases hone : m = 1
    · have := maxId_nonneg man.analyses.inorder
      omega
    · obtain ⟨k, a, hmem⟩ := mem_ids.1 ((hused (m - 1)).2 ⟨by omega, by omega⟩)
      have := le_maxId hmem
      omega
  have hfree : ∀ x, x ∈ man'.availableIds.ids ↔ x = m ∧ m ≤ ID_MAX := by
    intro x
    rw [h.free, hmax, hused, le_min_iff]
    omega
  refine ⟨m, hm, fun x => by rw [h.ids, hused], ?_⟩
  by_cases hlast : m ≤ ID_MAX
  · refine Or.inl ⟨hlast, eq_node_of_ids h.freeOrdered fun x => ?_⟩
    rw [hfree]
    exact and_iff_left hlast
  · right
    constructor
    · rcases hcases with hle | hend
      · exact absurd hle.1 hlast
      · exact hend.1
    · cases hnode : man'.availableIds with
      | nil => rfl
      | node i k a l r =>
        have hi := (hfree i).1 (by simp [hnode])
        exact absurd hi.2 hlast

/-- **One event without a removal.** -/
theorem lone_handle {e : Event} (hl : Lone s.man) (hs : Sound s.man) (hwf : WellFormed e)
    (hno : NoRemoval e) (h : handle s e = some s') : Lone s'.man ∧ Sound s'.man := by
  have hfresh : GetsFreshId s.man e := by
    cases e with
    | add env path priority memory fd => exact hl.freshId env _ fd
    | _ => trivial
  refine ⟨?_, sound_handle hs hfresh hwf h⟩
  have hmove := storeMove_of_handle hs hfresh hwf h
  have hrewrites : ∀ {man' : ThreadsManager}, Rewrites s.man man' → Lone man' := fun hr =>
    hl.congr hr.availableIds fun x => by rw [hr.ids]
  cases e with
  | add env path priority memory fd =>
    obtain rfl := Option.some.inj h
    exact (threadsAdd_exit env s.man _ fd).lone hl hs.inStep
  | remove => exact hno.elim
  | suspend inGroup id fd now =>
    obtain rfl := Option.some.inj h
    exact hrewrites (threadsSuspend_rewrites inGroup now s.man id fd)
  | resume inGroup id fd now =>
    obtain rfl := Option.some.inj h
    exact hrewrites (threadsResume_rewrites inGroup now s.man id fd)
  | result dirPath inGroup result id cntDirs cntFiles now =>
    obtain rfl := Option.some.inj h
    exact hrewrites (threadsReadResults_rewrites dirPath inGroup now s.man hno id cntDirs cntFiles)
  | restart env =>
    cases hmove with
    | kept _ hrest => exact absurd rfl (hrest env)
    | restarted hrebuilt => exact hrebuilt.lone hl

theorem lone_startup {env : StartEnv} (h : threadsStartup env [] = some man) : Lone man := by
  obtain ⟨k, rfl⟩ := threadsStartup_nil h
  refine ⟨1, le_refl _, fun x => ?_, Or.inl ⟨by decide, k, rfl⟩⟩
  simp only [ids_nil, List.not_mem_nil, false_iff]
  omega

end DiskAnalyzer
