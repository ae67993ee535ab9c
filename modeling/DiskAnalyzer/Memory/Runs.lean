import DiskAnalyzer.Memory.Requests
import DiskAnalyzer.Partition

/-!
# Runs on the memory

The calls the manager gets, one after another, and its shutdown. Every call does what the model does
(`serve_spec`), so a run is a run of the model, and after `threads_shutdown` nothing is left but the
members of the `struct threads_manager` and what the calls themselves have lost.
-/

namespace DiskAnalyzer.Memory

open Sep Treap Assertion Decimal

variable {β : Type} {P F : Owned} {Q : β → Owned}

/-! ## Calls -/

/-- What the manager is called for: a task that has been read, or a message of a worker. -/
inductive Call where
  | request (w : World) (tsk : Task) (path : Ptr) (fd : Int)
  | results (dirPath : Bytes) (inGroup : Int → Bool) (now : Int) (result : UInt8)
      (id cntDirs cntFiles : Int)

namespace Call

/-- The call: what it sends. -/
def serve (fuel : Nat) (m : Addr) : Call → Code Bytes
  | .request w tsk path fd => requestThread fuel w m tsk.cnt tsk.id tsk.priority path fd
  | .results dirPath inGroup now result id cntDirs cntFiles => do
    threadsReadResults fuel dirPath inGroup now m result id cntDirs cntFiles
    return []

/-- What the call is given. -/
def given : Call → Owned
  | .request _ tsk path _ => taskAt tsk.cnt tsk.path path
  | .results .. => 1

/-- What the call may lose. -/
def lost : Call → Bytes → Owned
  | .request _ _ _ fd, reply => spared fd reply
  | .results .., _ => 1

/-- What the model does with the call, for some answers of `malloc`. -/
def Does (man : ThreadsManager) : Call → Bytes → ThreadsManager → Prop
  | .request w tsk _ fd, reply, man' => Answered w man tsk fd reply man'
  | .results dirPath inGroup now result id cntDirs cntFiles, reply, man' => reply = [] ∧
      man' = DiskAnalyzer.threadsReadResults dirPath inGroup now man result id cntDirs cntFiles

/-- What the callers promise: a path of C whose keys are inside, no id handed out twice, and one
last message from each worker. -/
def Promised (n : Nat) (man : ThreadsManager) : Call → Prop
  | .request w tsk _ fd => tsk.cnt = 1 → Addable w man tsk fd n ∧
      (0 ∉ tsk.path ∧ tsk.path.length + 1 < 2 ^ 31) ∧ FitsInt tsk.priority
  | .results _ _ _ result id _ _ => Awaited man result id

end Call

/-- What holds of a manager that can be called `k` more times. -/
structure Ready (fuel n k : Nat) (man : ThreadsManager) : Prop where
  sound : Sound man
  stored : Stored man n
  room : 2 * (load man + (2 * n + 3) * k + n + 1) < fuel

/-- **One call** takes a step of the model. -/
theorem serve_spec (m : Addr) {fuel n k : Nat} {man : ThreadsManager} {c : Call}
    (hman : Ready fuel n (k + 1) man) (hc : c.Promised n man) :
    Triple (managerAt man m * c.given) (c.serve fuel m) fun reply =>
      ⨆ man', ⨆ _ : c.Does man reply man', managerAt man' m * c.lost reply := by
  obtain ⟨hs, hst, hroom⟩ := hman
  cases c with
  | request w tsk path fd =>
    exact requestThread_spec w man tsk fd m path hs.inStep hst (fun h1 => (hc h1).1) (by omega)
  | results dirPath inGroup now result id cntDirs cntFiles =>
    rw [Call.given, mul_one]
    refine .bind (threadsReadResults_spec dirPath inGroup now man m result id cntDirs cntFiles
      hs.inStep hst hc (by omega)) fun _ => ?_
    refine .ret (le_iSup_of_le _ (le_iSup_of_le ⟨rfl, rfl⟩ ?_))
    rw [Call.lost, mul_one]

/-! ## What a call keeps -/

/-- The event of the model that a call is. -/
structure Lawful (n : Nat) (man : ThreadsManager) (e : Event) : Prop where
  wellFormed : WellFormed e
  fresh : GetsFreshId man e
  paths : ∀ env path priority memory fd, e = .add env path priority memory fd →
    KeysInside path ∧ path.length ≤ n
  running : ∀ env, e ≠ .restart env

/-- No record is removed. -/
def Call.Keeps : Call → Prop
  | .request _ tsk _ _ => tsk.cnt ≠ 4
  | .results _ _ _ result _ _ _ => result ≠ 48

/-- A call is an event of the model, or changes nothing. -/
theorem does_cases {n : Nat} {man man' : ThreadsManager} {c : Call} {reply : Bytes}
    (hc : c.Promised n man) (h : c.Does man reply man') : man' = man ∨ ∃ e,
      handle ⟨man, []⟩ e = some ⟨man', []⟩ ∧ Lawful n man e ∧ (c.Keeps → NoRemoval e) := by
  cases c with
  | results dirPath inGroup now result id cntDirs cntFiles =>
    obtain ⟨-, rfl⟩ := h
    exact Or.inr ⟨.result dirPath inGroup result id cntDirs cntFiles now, rfl,
      ⟨trivial, trivial, by simp, by simp⟩, fun hkeep => hkeep⟩
  | request w tsk path fd =>
    cases h with
    | refused => exact Or.inl rfl
    | @served made idp alloc hmade =>
      rw [DiskAnalyzer.requestThread]
      by_cases h1 : tsk.cnt = 1
      · obtain ⟨⟨hfresh, hkeys, hshort⟩, hwf⟩ := hc h1
        rw [if_pos h1]
        refine Or.inr ⟨.add (w.add.env made idp alloc) tsk.path tsk.priority (0, 0) fd, rfl,
          ⟨hwf, hfresh made idp alloc, ?_, by simp⟩, fun _ => trivial⟩
        intro env p priority memory fd' heq
        obtain ⟨-, rfl, -⟩ := Event.add.inj heq
        exact ⟨hkeys, hshort⟩
      rw [if_neg h1]
      by_cases h2 : tsk.cnt = 2
      · rw [if_pos h2]
        exact Or.inr ⟨.suspend w.inGroup tsk.id fd w.now, rfl, ⟨trivial, trivial, by simp, by simp⟩,
          fun _ => trivial⟩
      rw [if_neg h2]
      by_cases h3 : tsk.cnt = 3
      · rw [if_pos h3]
        exact Or.inr ⟨.resume w.inGroup tsk.id fd w.now, rfl, ⟨trivial, trivial, by simp, by simp⟩,
          fun _ => trivial⟩
      rw [if_neg h3]
      by_cases h4 : tsk.cnt = 4
      · rw [if_pos h4]
        exact Or.inr ⟨.remove w.dirPath w.inGroup tsk.id fd, rfl,
          ⟨trivial, trivial, by simp, by simp⟩, fun hkeep => absurd h4 hkeep⟩
      left
      rw [if_neg h4]
      split_ifs <;> rfl

/-- Every event keeps the paths bounded. -/
theorem stored_handle {n : Nat} {man man' : ThreadsManager} {e : Event} (hs : Sound man)
    (hst : Stored man n) (he : Lawful n man e) (h : handle ⟨man, []⟩ e = some ⟨man', []⟩) :
    Stored man' n := by
  have hmove := storeMove_of_handle hs he.fresh he.wellFormed h
  cases hmove with
  | kept hfind =>
    intro i a ha
    exact hst i a (hfind ▸ ha)
  | added _ _ _ _ hfind =>
    refine forall_update hst hfind ?_
    rintro a ⟨⟩
    exact he.paths _ _ _ _ _ rfl
  | removed hfind => exact forall_update hst hfind fun a ha => absurd ha (by simp)
  | failed hfind => exact forall_update hst hfind fun a ha => absurd ha (by simp)
  | suspended ha _ _ _ hfind =>
    refine forall_update hst hfind ?_
    rintro _ ⟨⟩
    have hold := hst _ _ ha
    exact hold
  | resumed ha _ _ hfind =>
    refine forall_update hst hfind ?_
    rintro _ ⟨⟩
    have hold := hst _ _ ha
    exact hold
  | resulted _ ha hfind =>
    refine forall_update hst hfind ?_
    rintro _ ⟨⟩
    have hpath : ∀ (r : UInt8) (d f now : Int) (a : Analysis),
        (Analysis.result r d f now a).path = a.path := by
      intro r d f now a
      rw [Analysis.result]
      split_ifs <;> rfl
    rw [hpath]
    exact hst _ _ ha
  | restarted => exact absurd rfl (he.running _)

theorem load_threadsAdd {man : ThreadsManager} {env : AddEnv} {a : Analysis} {fd : Int}
    {res : AddResult} {n : Nat} (hi : InStep man) (hfresh : FreshId man (.add env a fd))
    (hkeys : KeysInside a.path) (hshort : a.path.length ≤ n) (h : AddExit env man a fd res) :
    load res.man ≤ load man + 2 * n + 3 := by
  have hget := size_getFreeId_le env.rand man.availableIds
  cases h with
  | notDir => simp only [load]; omega
  | covered => simp only [load]; omega
  | noId => simp only [load]; omega
  | @noMemory id h =>
    have hback := size_returnId_le (DiskAnalyzer.getFreeId env.rand () man.availableIds).2 id h
    simp only [load]
    omega
  | @noNode id h =>
    have hback := size_returnId_le (DiskAnalyzer.getFreeId env.rand () man.availableIds).2 id h
    have hins := names_treeInsert_le hi.trie hkeys (some id) env.alloc
    simp only [load]
    omega
  | @noFork id h _ _ hout =>
    have hback := size_returnId_le (DiskAnalyzer.getFreeId env.rand () man.availableIds).2 id h
    have hins := names_treeInsert_le hi.trie hkeys (some id) env.alloc
    have hrem := names_treeRemove (Tree.insert_spec hi.trie a.path (some id) env.alloc).1 hkeys
    have hord := ordered_insertNode hi.store (hfresh id hout) h { a with lastStart := env.now }
    have hnode := (extract_of_mem hord (mem_inorder_insertNode.2 (Or.inl rfl))).1
    have hsize := size_extract hnode
    rw [size_insertNode] at hsize
    simp only [load, hnode, setAnal]
    omega
  | @added id h =>
    have hins := names_treeInsert_le hi.trie hkeys (some id) env.alloc
    simp only [load, size_modify, size_insertNode]
    omega

theorem load_threadsRemove {man : ThreadsManager} {n : Nat} (hi : InStep man) (hst : Stored man n)
    (dirPath : Bytes) (inGroup : Int → Bool) (id fd : Int) :
    load (DiskAnalyzer.threadsRemove dirPath inGroup man id fd).man ≤ load man := by
  by_cases hid : id ∈ man.analyses.ids
  · obtain ⟨h, a, hm⟩ := mem_ids.1 hid
    have hex := extract_eq_of_mem hi.store hm
    have hsize := size_extract (extract_of_mem hi.store hm).1
    have hkeys := (hst id a ((find_eq_some_iff hi.store).2 ⟨h, hm⟩)).1
    have hrem := names_treeRemove hi.trie hkeys
    rw [DiskAnalyzer.threadsRemove, hex]
    simp only [load, size_insertNode]
    omega
  · rw [DiskAnalyzer.threadsRemove, extract_of_notMem hi.store hid]

theorem load_rewrites {man man' : ThreadsManager} (h : Rewrites man man') : load man' = load man := by
  rcases h with rfl | ⟨id, f, -, rfl⟩
  · rfl
  · simp only [load, size_modify]

/-- An event needs room for one more node and one more path. -/
theorem load_handle {n : Nat} {man man' : ThreadsManager} {e : Event} (hi : InStep man)
    (hst : Stored man n) (he : Lawful n man e) (h : handle ⟨man, []⟩ e = some ⟨man', []⟩) :
    load man' ≤ load man + 2 * n + 3 := by
  have hremove (dirPath : Bytes) (inGroup : Int → Bool) (id fd : Int) :
      load (DiskAnalyzer.threadsRemove dirPath inGroup man id fd).man ≤ load man + 2 * n + 3 :=
    (load_threadsRemove hi hst dirPath inGroup id fd).trans (by omega)
  have hsame {man'' : ThreadsManager} (hr : Rewrites man man'') :
      load man'' ≤ load man + 2 * n + 3 := by
    rw [load_rewrites hr]
    omega
  cases e with
  | add env path priority memory fd =>
    obtain ⟨hkeys, hshort⟩ := he.paths _ _ _ _ _ rfl
    obtain rfl := (Service.mk.inj (Option.some.inj h)).1
    exact load_threadsAdd hi he.fresh hkeys hshort (threadsAdd_exit _ _ _ _)
  | remove dirPath inGroup id fd =>
    obtain rfl := (Service.mk.inj (Option.some.inj h)).1
    exact hremove dirPath inGroup id fd
  | suspend inGroup id fd now =>
    obtain rfl := (Service.mk.inj (Option.some.inj h)).1
    exact hsame (threadsSuspend_rewrites inGroup now man id fd)
  | resume inGroup id fd now =>
    obtain rfl := (Service.mk.inj (Option.some.inj h)).1
    exact hsame (threadsResume_rewrites inGroup now man id fd)
  | result dirPath inGroup result id cntDirs cntFiles now =>
    obtain rfl := (Service.mk.inj (Option.some.inj h)).1
    by_cases hfail : result = 48
    · rw [DiskAnalyzer.threadsReadResults, if_pos hfail]
      exact hremove dirPath inGroup id (-1)
    · exact hsame (threadsReadResults_rewrites dirPath inGroup now man hfail id cntDirs cntFiles)
  | restart env => exact absurd rfl (he.running env)

/-- **A call keeps the manager ready** for the calls that are left. -/
theorem ready_does {fuel n k : Nat} {man man' : ThreadsManager} {c : Call} {reply : Bytes}
    (hman : Ready fuel n (k + 1) man) (hc : c.Promised n man) (h : c.Does man reply man') :
    Ready fuel n k man' := by
  obtain ⟨hs, hst, hroom⟩ := hman
  rw [Nat.mul_succ (2 * n + 3) k] at hroom
  rcases does_cases hc h with rfl | ⟨e, he, hlawful, -⟩
  · exact ⟨hs, hst, by omega⟩
  · have hle := load_handle hs.inStep hst hlawful he
    exact ⟨sound_handle hs hlawful.fresh hlawful.wellFormed he, stored_handle hs hst hlawful he,
      by omega⟩

/-- **A run on the memory is a run of the model.** -/
theorem serveAll_spec (m : Addr) {fuel n : Nat} {man : ThreadsManager} {calls : List Call}
    (hman : Ready fuel n calls.length man)
    (hcalls : Admitted (fun man c => Call.Does man c) (fun man c => c.Promised n man) man calls) :
    Triple (managerAt man m * (calls.map Call.given).prod) (serveAll (Call.serve fuel m) calls)
      fun replies => ⨆ man', ⨆ _ : Served (fun man c => Call.Does man c) man calls replies man',
        managerAt man' m * leftOver Call.lost calls replies := by
  have hcall : ∀ (man : ThreadsManager) (c : Call), (∃ k, Ready fuel n (k + 1) man) ∧
      c.Promised n man → Triple (managerAt man m * c.given) (c.serve fuel m) fun reply =>
        ⨆ man', ⨆ _ : c.Does man reply man', managerAt man' m * c.lost reply := by
    rintro man c ⟨⟨k, hready⟩, hc⟩
    exact serve_spec m hready hc
  refine Triple.serveAll hcall calls man ?_
  exact hcalls.strengthen (I := fun k man => Ready fuel n k man)
    (fun k man c hready hc => ⟨⟨k, hready⟩, hc⟩)
    (fun k man c reply man' hready hc h => ready_does hready hc h) hman

/-! ## Shutting down -/

/-- The members of a `struct threads_manager` that has been shut down. -/
def closedAt (man : ThreadsManager) (m : Addr) : Owned :=
  cell (analysisCntOf m) (int man.analysisCnt) * cell (analysesOf m) (.ptr none) *
    (⨆ t, cell (pathsOf m) (.ptr t)) * cell (availableIdsOf m) (.ptr none)

/-- What is saved: the count, and the records for which there is a buffer, in the order in which the
model saves them. -/
def SavedBy (man : ThreadsManager) (saved : Bytes) : Prop :=
  ∃ es : List (Int × Analysis), es.Sublist (drained man.analyses.size man.analyses) ∧
    saved = snprintf 11 (printPrec 10 man.analysisCnt) ++ written es

/-- The model's own save is one of them. -/
theorem savedBy_shutdown {man : ThreadsManager} (hstore : man.analyses.Ordered) (old : Bytes) :
    ∃ saved, SavedBy man saved ∧
      DiskAnalyzer.threadsShutdown man.analyses.size man old = some (overwrite old saved) := by
  refine ⟨_, ⟨drained man.analyses.size man.analyses, List.Sublist.refl _, rfl⟩, ?_⟩
  rw [DiskAnalyzer.threadsShutdown, treapSave_eq (drains_of_ordered hstore), Option.map_some]

/-- **`threads_shutdown`** frees all a manager owns. -/
theorem threadsShutdown_spec (man : ThreadsManager) (m : Addr) {fuel : Nat}
    (hstore : man.analyses.Ordered) (hfree : man.availableIds.Ordered) (hfuel : 2 * load man + 1 < fuel) :
    Triple (managerAt man m) (threadsShutdown fuel m) fun saved =>
      ⨆ _ : SavedBy man saved, closedAt man m := by
  rw [load] at hfuel
  unfold threadsShutdown
  rw [managerAt, pathsIn]
  simp only [mul_iSup, iSup_mul, Triple.iSup_iff]
  intro t
  refine loadInt_spec ?_
  refine .call (treapSave_spec man.analyses.size fuel man.analyses (analysesOf m)
    (drains_of_ordered hstore) (by omega)) fun saved => ?_
  simp only [iSup_mul, Triple.iSup_iff]
  rintro es ⟨hsub, rfl⟩
  have hclear : Triple (cell (pathsOf m) (.ptr (some t)) * treeAt idWords man.paths t)
    (treeClear fuel (pathsOf m)) _ := treeClear_spec man.paths (pathsOf m) t (by omega)
  refine .call hclear fun _ => ?_
  have hids : Triple (treapIn (held nullAt) man.availableIds (availableIdsOf m))
    (treapClear fuel (availableIdsOf m)) _ := treapClear_spec freed_nullAt man.availableIds.size fuel
      man.availableIds (availableIdsOf m) (drains_of_ordered hfree) (by omega)
  refine .call hids fun _ => ?_
  refine .ret (le_iSup_of_le ⟨es, hsub, rfl⟩ ?_)
  rw [closedAt]
  simp only [mul_iSup, iSup_mul]
  exact le_iSup_of_le (some t) (le_of_eq (by ac_rfl))

/-- The calls, and the shutdown. -/
def session (fuel : Nat) (m : Addr) (calls : List Call) : Code (List Bytes × Bytes) := do
  let replies ← serveAll (Call.serve fuel m) calls
  let saved ← threadsShutdown fuel m
  return (replies, saved)

/-- The requests that are answered with the message about `malloc`. -/
def refusals : List Call → List Bytes → Nat
  | .request _ _ _ fd :: calls, reply :: replies =>
    (if reply = memoryError fd then 1 else 0) + refusals calls replies
  | .results .. :: calls, _ :: replies => refusals calls replies
  | _, _ => 0

theorem leftOver_eq (calls : List Call) (replies : List Bytes) :
    leftOver Call.lost calls replies = (1 ⊔ lost) ^ refusals calls replies := by
  induction calls generalizing replies with
  | nil => simp [leftOver, refusals]
  | cons c calls ih =>
    cases replies with
    | nil => simp [leftOver, refusals]
    | cons reply replies =>
      cases c with
      | request w tsk path fd =>
        rw [leftOver, refusals, ih, pow_add, Call.lost, spared]
        split_ifs
        · rw [pow_one]
        · rw [pow_zero]
      | results => rw [leftOver, refusals, ih, Call.lost, one_mul]

/-- **A session leaves nothing behind.** Whatever `malloc` answers, the calls of a session do what
the model does, what is saved is what the model saves, and all the manager owned has been freed. A
list node is lost with a message about `malloc` only. `I` is what the callers' conditions keep. -/
theorem session_spec {I : ThreadsManager → Prop} {ok : ThreadsManager → Call → Prop} (m : Addr)
    {fuel n : Nat} {man : ThreadsManager} {calls : List Call}
    (hok : ∀ man c, I man → ok man c → c.Promised n man)
    (hstep : ∀ k man c reply man', Ready fuel n (k + 1) man → I man → ok man c →
      c.Does man reply man' → I man')
    (hord : ∀ man, I man → man.availableIds.Ordered) (hman : Ready fuel n calls.length man)
    (hI : I man) (hcalls : Admitted (fun man c => Call.Does man c) ok man calls) :
    Triple (managerAt man m * (calls.map Call.given).prod) (session fuel m calls) fun out =>
      ⨆ man', ⨆ _ : Served (fun man c => Call.Does man c) man calls out.1 man' ∧
        SavedBy man' out.2, closedAt man' m * (1 ⊔ lost) ^ refusals calls out.1 := by
  have hkeep : ∀ k man c reply man', (Ready fuel n (k + 1) man ∧ I man) → ok man c →
      c.Does man reply man' → Ready fuel n k man' ∧ I man' := by
    rintro k man c reply man' ⟨hready, hI⟩ hc h
    exact ⟨ready_does hready (hok man c hI hc) h, hstep k man c reply man' hready hI hc h⟩
  have hpromised : Admitted (fun man c => Call.Does man c) (fun man c => c.Promised n man) man
      calls := hcalls.strengthen (I := fun k man => Ready fuel n k man ∧ I man)
    (fun _ man c h hc => hok man c h.2 hc) hkeep ⟨hman, hI⟩
  unfold session
  refine .bind (serveAll_spec m hman hpromised) fun replies => ?_
  simp only [Triple.iSup_iff]
  intro man' hserved
  obtain ⟨hready, hlast⟩ := hserved.invariant (I := fun k man => Ready fuel n k man ∧ I man) hkeep
    hcalls ⟨hman, hI⟩
  have hroom := hready.room
  refine .call (threadsShutdown_spec man' m hready.sound.inStep.store (hord man' hlast) (by omega))
    fun saved => ?_
  simp only [iSup_mul, Triple.iSup_iff]
  intro hsaved
  refine .ret (le_iSup_of_le man' (le_iSup_of_le ⟨hserved, hsaved⟩ (le_of_eq ?_)))
  rw [leftOver_eq]

/-- A call after which the free ids are a search tree as before. -/
def Call.Orderly (n : Nat) (man : ThreadsManager) (c : Call) : Prop :=
  c.Promised n man ∧ ∀ reply man', c.Does man reply man' → man.availableIds.Ordered →
    man'.availableIds.Ordered

/-- What the callers promise when nothing is removed: nothing about ids. -/
def Call.Plain (n : Nat) (man : ThreadsManager) (c : Call) : Prop :=
  c.Keeps ∧ match c with
    | .request _ tsk _ _ => tsk.cnt = 1 → KeysInside tsk.path ∧ tsk.path.length ≤ n ∧
        (0 ∉ tsk.path ∧ tsk.path.length + 1 < 2 ^ 31) ∧ FitsInt tsk.priority
    | .results _ _ _ result id _ _ => Awaited man result id

/-- The id of an add is new. -/
theorem promised_of_plain {n : Nat} {man : ThreadsManager} {c : Call} (hl : Lone man)
    (hc : c.Plain n man) : c.Promised n man := by
  cases c with
  | results => exact hc.2
  | request w tsk path fd =>
    intro h1
    obtain ⟨hkeys, hshort, hwf⟩ := hc.2 h1
    exact ⟨⟨fun made idp alloc => hl.freshId _ _ fd, hkeys, hshort⟩, hwf⟩

theorem lone_does {fuel n k : Nat} {man man' : ThreadsManager} {c : Call} {reply : Bytes}
    (hman : Ready fuel n (k + 1) man) (hl : Lone man) (hc : c.Plain n man)
    (h : c.Does man reply man') : Lone man' := by
  have hpromised := promised_of_plain hl hc
  rcases does_cases hpromised h with rfl | ⟨e, he, hlawful, hkeep⟩
  · exact hl
  · exact (lone_handle hl hman.sound hlawful.wellFormed (hkeep hc.1) he).1

theorem ordered_of_lone {man : ThreadsManager} (hl : Lone man) : man.availableIds.Ordered := by
  obtain ⟨m, -, -, ⟨-, h, hfree⟩ | ⟨-, hfree⟩⟩ := hl
  · rw [hfree]
    simp [Ordered]
  · rw [hfree]
    exact ordered_nil

/-- A manager that has been started from an empty file. -/
theorem ready_startup {env : StartEnv} {man : ThreadsManager} {fuel n k : Nat}
    (h : DiskAnalyzer.threadsStartup env [] = some man)
    (hroom : 2 * ((2 * n + 3) * k + n + 2) < fuel) : Ready fuel n k man := by
  refine ⟨(sound_startup h).1, ?_, ?_⟩
  · obtain ⟨_, rfl⟩ := threadsStartup_nil h
    intro id a ha
    simp [DiskAnalyzer.treapFind] at ha
  · obtain ⟨_, rfl⟩ := threadsStartup_nil h
    simp only [load, size_nil, size_node, names_treeInit]
    omega

theorem ready_emptyService {fuel n k : Nat} (hroom : 2 * ((2 * n + 3) * k + n + 2) < fuel) :
    Ready fuel n k emptyService.man :=
  ready_startup (show DiskAnalyzer.threadsStartup quietStart [] = _ from rfl) hroom

/-- A world in which every path is a directory and workers answer. -/
def quietWorld : World :=
  ⟨⟨true, 0, some 7, 10⟩, str "/data/", fun _ => true, 20, fun _ => 30⟩

/-- A directory is added, its worker says what it has counted, and the list is asked for. -/
def oneDir (path : Addr) : List Call :=
  [.request quietWorld ⟨1, 0, str "/a", 2⟩ (some path) 5,
    .results (str "/data/") (fun _ => true) 25 50 1 3 4, .request quietWorld ⟨6, 0, [], 0⟩ none 5]

theorem keysInside_oneName : KeysInside (str "/a") := by
  intro c hc
  rw [components_of_ne (by decide), components_of_nil (by decide), List.mem_singleton] at hc
  rw [hc]
  decide

theorem admitted_oneDir {man : ThreadsManager} (path : Addr) :
    Admitted (fun man c => Call.Does man c) (fun man c => c.Plain 2 man) man (oneDir path) := by
  refine ⟨⟨by simp [Call.Keeps], fun _ => ⟨keysInside_oneName, by decide, by decide, by decide⟩⟩,
    fun _ _ _ => ⟨⟨by simp [Call.Keeps], fun h => absurd h (by decide)⟩,
      fun _ _ _ => ⟨⟨by simp [Call.Keeps], fun h => absurd h (by decide)⟩, fun _ _ _ => trivial⟩⟩⟩

/-- A removal of one of the ids below `m` leaves a search tree. -/
theorem orderly_remove {n : Nat} {man : ThreadsManager} (hl : Lone man) (hi : InStep man) (w : World)
    (id fd : Int) : (Call.request w ⟨4, id, [], 0⟩ none fd).Orderly n man := by
  refine ⟨fun h => absurd h (by norm_num), fun reply man' h hord => ?_⟩
  rcases h with h | ⟨idp, alloc, -⟩
  · exact hord
  show (DiskAnalyzer.threadsRemove w.dirPath w.inGroup man id fd).man.availableIds.Ordered
  by_cases hid : id ∈ man.analyses.ids
  · obtain ⟨h, a, hm⟩ := mem_ids.1 hid
    rw [DiskAnalyzer.threadsRemove, extract_eq_of_mem hi.store hm]
    refine ordered_insertNode hord (fun hfree => ?_) h ()
    obtain ⟨m, -, hused, ⟨-, k, hnode⟩ | ⟨-, hnil⟩⟩ := hl
    · rw [hnode, ids_node] at hfree
      have hlt := ((hused id).1 hid).2
      simp at hfree
      omega
    · rw [hnil] at hfree
      simp at hfree
  · rw [DiskAnalyzer.threadsRemove, extract_of_notMem hi.store hid]
    exact hord

/-- Calls without removals, and a removal. -/
theorem admitted_removed {fuel n : Nat} {man : ThreadsManager} {calls : List Call}
    (hcalls : Admitted (fun man c => Call.Does man c) (fun man c => c.Plain n man) man calls)
    (hman : Ready fuel n (calls.length + 1) man) (hl : Lone man) (w : World) (id fd : Int) :
    Admitted (fun man c => Call.Does man c) (fun man c => c.Orderly n man) man
      (calls ++ [.request w ⟨4, id, [], 0⟩ none fd]) := by
  induction calls generalizing man with
  | nil => exact ⟨orderly_remove hl hman.sound.inStep w id fd, fun _ _ _ => trivial⟩
  | cons c calls ih =>
    obtain ⟨hc, hrest⟩ := hcalls
    have hpromised := promised_of_plain hl hc
    have hlone (reply : Bytes) (man' : ThreadsManager) (h : c.Does man reply man') : Lone man' :=
      lone_does hman hl hc h
    exact ⟨⟨hpromised, fun reply man' h _ => ordered_of_lone (hlone reply man' h)⟩,
      fun reply man' h => ih (hrest reply man' h) (ready_does hman hpromised h) (hlone reply man' h)⟩

/-- The same calls, and the directory is removed. -/
def oneRemoved (path : Addr) : List Call :=
  oneDir path ++ [.request quietWorld ⟨4, 1, [], 0⟩ none 5]

end DiskAnalyzer.Memory
