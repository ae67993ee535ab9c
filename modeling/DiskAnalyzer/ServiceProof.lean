import DiskAnalyzer.Indexed
import DiskAnalyzer.RestartProof
import DiskAnalyzer.Service

/-!
# The manager's operations: what an event does to the store

`StoreMove` says, for each event, which record it writes and how; everything about runs of the
service starts from it. What makes the moves possible is `Sound`: the store, the counter and the
trie are in step, every record can be written to the data file, and the ids are those a file may
hold.
-/

namespace DiskAnalyzer

open Treap Decimal Index

/-! ## Ids in range -/

namespace Treap

variable {α : Type}

theorem mem_ids_of_mem_extract {t : Treap α} {id x : Int} (hx : x ∈ (treapExtract t id).2.ids) :
    x ∈ t.ids := by
  rcases extract_takes t id with ⟨-, heq⟩ | ⟨h, a, -, hperm⟩
  · rwa [ids, heq] at hx
  · rw [ids, (hperm.map Prod.fst).mem_iff]
    exact List.mem_cons_of_mem _ hx

theorem mem_ids_of_extract {t : Treap α} {id i h : Int} {a : α} {l r : Treap α}
    (he : (treapExtract t id).1 = node i h a l r) : i ∈ t.ids := by
  rcases extract_takes t id with ⟨hnil, -⟩ | ⟨h', a', hnode, hperm⟩
  · rw [hnil] at he
    exact absurd he (by simp)
  · rw [hnode, node.injEq] at he
    rw [ids, (hperm.map Prod.fst).mem_iff, ← he.1]
    exact List.mem_cons_self

/-- The id `get_free_id` gives was free. -/
theorem mem_ids_of_getFreeId {rand : Option Int} {t : Treap Unit} {id h : Int}
    (hget : (getFreeId rand () t).1 = node id h () nil nil) : id ∈ t.ids := by
  match t with
  | nil => exact absurd hget (by simp [getFreeId])
  | node i k a l (node j k' b jl jr) => exact mem_ids_of_extract hget
  | node i k a (node j k' b jl jr) nil => exact mem_ids_of_extract hget
  | node i k a nil nil =>
    rw [getFreeId] at hget
    split_ifs at hget
    · rw [insertNew_eq] at hget
      cases rand with
      | none => exact absurd hget (by simp)
      | some k' =>
        -- The successor is made, but the id itself is extracted.
        rcases extract_takes (treapInsertNode (node i k a nil nil) (node (i + 1) k' () nil nil)) i
          with ⟨hnil, -⟩ | ⟨h', a', hnode, -⟩
        · exact absurd (hnil.symm.trans hget) (by simp)
        · obtain ⟨rfl, -⟩ := node.inj (hnode.symm.trans hget)
          simp
    · exact mem_ids_of_extract hget

/-- Ordered treaps with the same ids have the same size. -/
theorem size_eq_of_ids {β : Type} {t : Treap α} {t' : Treap β} (ho : t.Ordered) (ho' : t'.Ordered)
    (h : ∀ x, x ∈ t'.ids ↔ x ∈ t.ids) : t'.size = t.size := by
  have hperm := (List.perm_ext_iff_of_nodup ho'.nodup ho.nodup).2 h
  have hlen := hperm.length_eq
  rwa [ids, ids, List.length_map, List.length_map, ← size_eq_length, ← size_eq_length] at hlen

end Treap

/-- The ids a data file may hold. -/
def InRange (id : Int) : Prop := 1 ≤ id ∧ id ≤ ID_MAX

theorem getFreeId_inRange (rand : Option Int) {t : Treap Unit} (ht : ∀ x ∈ t.ids, InRange x) :
    (∀ x ∈ (getFreeId rand () t).2.ids, InRange x) ∧
      ∀ id h, (getFreeId rand () t).1 = node id h () nil nil → InRange id := by
  have htakes : ∀ {t : Treap Unit} (id : Int), (∀ x ∈ t.ids, InRange x) →
      (∀ x ∈ (treapExtract t id).2.ids, InRange x) ∧
        ∀ i h, (treapExtract t id).1 = node i h () nil nil → InRange i := by
    intro t id ht
    exact ⟨fun x hx => ht x (mem_ids_of_mem_extract hx), fun i h he => ht i (mem_ids_of_extract he)⟩
  match t with
  | nil => exact ⟨ht, fun id h he => absurd he (by simp [getFreeId])⟩
  | node id h a l (node j k b jl jr) => exact htakes id ht
  | node id h a (node j k b jl jr) nil => exact htakes j ht
  | node id h a nil nil =>
    rw [getFreeId]
    have hid := ht id (by simp)
    split_ifs with hlt
    · rw [insertNew_eq]
      cases rand with
      | none => exact ⟨ht, fun id h he => absurd he (by simp)⟩
      | some k =>
        refine htakes id ?_
        intro x hx
        rcases mem_ids_insertNode.1 hx with rfl | hx
        · exact ⟨by have := hid.1; omega, by omega⟩
        · exact ht x hx
    · exact htakes id ht

theorem returnId_inRange {t : Treap Unit} {id h : Int} (ht : ∀ x ∈ t.ids, InRange x)
    (hid : InRange id) : ∀ x ∈ (returnId t (node id h () nil nil)).ids, InRange x := by
  intro x hx
  by_cases hlone : ∃ m k, t = node m k () nil nil
  · obtain ⟨m, k, rfl⟩ := hlone
    rw [returnId_lone] at hx
    obtain rfl : x = id := by simpa [treapInsertNode] using hx
    exact hid
  · rw [returnId_of_ne fun m k heq => hlone ⟨m, k, heq⟩] at hx
    rcases mem_ids_insertNode.1 hx with rfl | hx
    · exact hid
    · exact ht x hx

/-! ## Sound states -/

/-- The flags of a record have one of the values the header defines. -/
structure Coded (a : Analysis) : Prop where
  status : a.status = ANALYSIS_PENDING ∨ a.status = ANALYSIS_INPROGRESS ∨
    a.status = ANALYSIS_COMPLETE
  suspended : a.suspended = ANALYSIS_SUSPENDED ∨ a.suspended = ANALYSIS_RESUMED

theorem Coded.fits {a : Analysis} (h : Coded a) :
    (0 ≤ a.status ∧ FitsInt a.status) ∧ 0 ≤ a.suspended ∧ FitsInt a.suspended := by
  obtain ⟨hstatus, hsuspended⟩ := h
  simp only [ANALYSIS_PENDING, ANALYSIS_INPROGRESS, ANALYSIS_COMPLETE, ANALYSIS_SUSPENDED,
    ANALYSIS_RESUMED] at hstatus hsuspended
  unfold FitsInt
  omega

/-- What every operation on a record keeps. -/
structure RecordOk (a : Analysis) : Prop extends Coded a where
  totalTime : FitsInt a.totalTime
  cntDirs : FitsInt a.cntDirs
  cntFiles : FitsInt a.cntFiles
  path : 0 ∉ a.path ∧ a.path.length + 1 < 2 ^ 31
  priority : FitsInt a.priority

theorem RecordOk.writable {a : Analysis} (h : RecordOk a) : Writable a :=
  ⟨h.totalTime, h.cntDirs, h.cntFiles, h.path, h.priority, h.fits.1.2, h.fits.2.2⟩

/-- What holds between events. -/
structure Sound (man : ThreadsManager) : Prop where
  inStep : InStep man
  records : ∀ id a, treapFind man.analyses id = some a → RecordOk a
  used : ∀ x ∈ man.analyses.ids, InRange x
  free : ∀ x ∈ man.availableIds.ids, InRange x

/-- A sound store can be saved. -/
theorem Sound.loadable {man : ThreadsManager} (hs : Sound man) :
    Loadable man.analyses.inorder := by
  have hfind : ∀ e ∈ man.analyses.inorder, treapFind man.analyses e.1 = some e.2.2 := fun e he =>
    (find_eq_some_iff hs.inStep.store).2 ⟨e.2.1, he⟩
  have hids : man.analyses.inorder.Pairwise fun e e' => e.1 ≠ e'.1 :=
    List.pairwise_map.1 hs.inStep.store.nodup
  refine ⟨fun e he => hs.used e.1 (mem_ids_of_mem he),
    fun e he => (hs.records _ _ (hfind e he)).writable, hids, ?_⟩
  refine hids.imp_of_mem ?_
  intro e e' he he' hne heq
  exact hne (hs.inStep.indexed.unique (hfind e he) (hfind e' he') (goodNames_components _) heq)

/-! ## Events -/

/-- What the callers and the system promise: paths are C strings whose length is an `int`,
priorities are `int`s, and a restart succeeds. -/
def WellFormed : Event → Prop
  | .add _ path priority _ _ => (0 ∉ path ∧ path.length + 1 < 2 ^ 31) ∧ FitsInt priority
  | .restart env => env.Succeeds
  | _ => True

/-- An add gets no id in use. -/
def GetsFreshId (man : ThreadsManager) : Event → Prop
  | .add env path priority memory fd =>
    FreshId man (.add env (newAnalysis path priority memory) fd)
  | _ => True

/-- The id of the analysis an event creates. -/
def created (man : ThreadsManager) : Event → Option Int
  | .add env path priority memory fd =>
    if (threadsAdd env man (newAnalysis path priority memory) fd).ret = 0 then
      handsOut env man (newAnalysis path priority memory)
    else none
  | _ => none

/-- **What an event does to the store.** -/
inductive StoreMove (man : ThreadsManager) : Event → ThreadsManager → Prop
  | kept {e : Event} {man' : ThreadsManager} :
      treapFind man'.analyses = treapFind man.analyses → (∀ env, e ≠ .restart env) →
      created man e = none → signalled man e = none → StoreMove man e man'
  | added {env : AddEnv} {path : Bytes} {priority : Int} {memory : Int × Int} {fd id pid : Int}
      {man' : ThreadsManager} :
      created man (.add env path priority memory fd) = some id →
      handsOut env man (newAnalysis path priority memory) = some id → env.fork = some pid →
      treapFind man.analyses id = none →
      treapFind man'.analyses = Function.update (treapFind man.analyses) id
        (some { newAnalysis path priority memory with
          lastStart := env.now, pid, status := ANALYSIS_INPROGRESS }) →
      StoreMove man (.add env path priority memory fd) man'
  | removed {dirPath : Bytes} {inGroup : Int → Bool} {id fd : Int} {man' : ThreadsManager} :
      treapFind man'.analyses = Function.update (treapFind man.analyses) id none →
      StoreMove man (.remove dirPath inGroup id fd) man'
  | failed {dirPath : Bytes} {inGroup : Int → Bool} {id cntDirs cntFiles now : Int}
      {man' : ThreadsManager} :
      treapFind man'.analyses = Function.update (treapFind man.analyses) id none →
      StoreMove man (.result dirPath inGroup 48 id cntDirs cntFiles now) man'
  | suspended {inGroup : Int → Bool} {id fd now : Int} {a : Analysis} {man' : ThreadsManager} :
      treapFind man.analyses id = some a → a.suspended ≠ ANALYSIS_SUSPENDED →
      a.status ≠ ANALYSIS_COMPLETE →
      signalled man (.suspend inGroup id fd now) =
        (if a.Live inGroup then some (.tstp, a.pid) else none) →
      treapFind man'.analyses =
        Function.update (treapFind man.analyses) id (some (a.suspend inGroup now)) →
      StoreMove man (.suspend inGroup id fd now) man'
  | resumed {inGroup : Int → Bool} {id fd now : Int} {a : Analysis} {man' : ThreadsManager} :
      treapFind man.analyses id = some a → a.suspended ≠ ANALYSIS_RESUMED →
      signalled man (.resume inGroup id fd now) =
        (if a.Live inGroup then some (.cont, a.pid) else none) →
      treapFind man'.analyses =
        Function.update (treapFind man.analyses) id (some (a.resume inGroup now)) →
      StoreMove man (.resume inGroup id fd now) man'
  | resulted {dirPath : Bytes} {inGroup : Int → Bool} {result : UInt8}
      {id cntDirs cntFiles now : Int} {a : Analysis} {man' : ThreadsManager} : result ≠ 48 →
      treapFind man.analyses id = some a →
      treapFind man'.analyses = Function.update (treapFind man.analyses) id
        (some (a.result result cntDirs cntFiles now)) →
      StoreMove man (.result dirPath inGroup result id cntDirs cntFiles now) man'
  | restarted {env : StartEnv} {man' : ThreadsManager} : Rebuilt env man man' →
      StoreMove man (.restart env) man'

variable {s s' : Service} {man : ThreadsManager}

theorem find_threadsRemove (hi : InStep man) (dirPath : Bytes) (inGroup : Int → Bool)
    (id fd : Int) :
    treapFind (threadsRemove dirPath inGroup man id fd).man.analyses =
      Function.update (treapFind man.analyses) id none := by
  by_cases hid : id ∈ man.analyses.ids
  · obtain ⟨h, a, hm⟩ := mem_ids.1 hid
    have hex := extract_eq_of_mem hi.store hm
    rw [threadsRemove, hex]
    exact find_extract hi.store id
  · rw [threadsRemove, extract_of_notMem hi.store hid]
    exact (Function.update_eq_self_iff.2 ((find_eq_none_iff hi.store).2 hid).symm).symm

theorem AddExit.storeMove {env : AddEnv} {path : Bytes} {priority : Int} {memory : Int × Int}
    {fd : Int} (hi : InStep man)
    (hfresh : FreshId man (.add env (newAnalysis path priority memory) fd)) :
    StoreMove man (.add env path priority memory fd)
      (threadsAdd env man (newAnalysis path priority memory) fd).man := by
  have hexit := threadsAdd_exit env man (newAnalysis path priority memory) fd
  have hkeep := hexit.sameMaps hi hfresh
  generalize hres : threadsAdd env man (newAnalysis path priority memory) fd = res at hexit hkeep ⊢
  cases hexit with
  | @added id h pid hpre _ hout hfork hins =>
    have hid := hfresh id hout
    have hcreated : created man (.add env path priority memory fd) = some id := by
      rw [created, hres, if_pos rfl, hout]
    refine .added hcreated hout hfork ((find_eq_none_iff hi.store).2 hid) ?_
    dsimp only
    rw [find_modify, find_insertNode hi.store hid, Function.update_self, Option.map_some,
      Function.update_idem]
  | _ =>
    refine .kept (funext (hkeep one_ne_zero).store) (fun _ => by simp) ?_ rfl
    rw [created, hres, if_neg one_ne_zero]

/-- **Every event is a move.** -/
theorem storeMove_of_handle {e : Event} (hs : Sound s.man) (hfresh : GetsFreshId s.man e)
    (hwf : WellFormed e) (h : handle s e = some s') : StoreMove s.man e s'.man := by
  cases e with
  | add env path priority memory fd =>
    obtain rfl := Option.some.inj h
    exact AddExit.storeMove hs.inStep hfresh
  | remove dirPath inGroup id fd =>
    obtain rfl := Option.some.inj h
    exact .removed (find_threadsRemove hs.inStep dirPath inGroup id fd)
  | suspend inGroup id fd now =>
    obtain rfl := Option.some.inj h
    cases hfind : treapFind s.man.analyses id with
    | none =>
      refine .kept ?_ (fun _ => by simp) rfl ?_
      · simp [threadsSuspend, hfind]
      · simp [signalled, threadsSuspend, hfind]
    | some a =>
      by_cases hok : a.suspended ≠ ANALYSIS_SUSPENDED ∧ a.status ≠ ANALYSIS_COMPLETE
      · refine .suspended hfind hok.1 hok.2 ?_ ?_
        · by_cases hlive : a.Live inGroup <;>
            simp [signalled, threadsSuspend, hfind, hok, hlive]
        · simp only [threadsSuspend, hfind, if_pos hok]
          rw [find_modify, hfind, Option.map_some]
      · refine .kept ?_ (fun _ => by simp) rfl ?_
        · simp only [threadsSuspend, hfind, if_neg hok]
          split_ifs <;> rfl
        · simp only [signalled, threadsSuspend, hfind, if_neg hok]
          split_ifs <;> rfl
  | resume inGroup id fd now =>
    obtain rfl := Option.some.inj h
    cases hfind : treapFind s.man.analyses id with
    | none =>
      refine .kept ?_ (fun _ => by simp) rfl ?_
      · simp [threadsResume, hfind]
      · simp [signalled, threadsResume, hfind]
    | some a =>
      by_cases hok : a.suspended ≠ ANALYSIS_RESUMED
      · refine .resumed hfind hok ?_ ?_
        · by_cases hlive : a.Live inGroup <;>
            simp [signalled, threadsResume, hfind, hok, hlive]
        · simp only [threadsResume, hfind, if_pos hok]
          rw [find_modify, hfind, Option.map_some]
      · refine .kept ?_ (fun _ => by simp) rfl ?_
        · simp only [threadsResume, hfind, if_neg hok]
          split_ifs <;> rfl
        · simp only [signalled, threadsResume, hfind, if_neg hok]
          split_ifs <;> rfl
  | result dirPath inGroup result id cntDirs cntFiles now =>
    obtain rfl := Option.some.inj h
    by_cases hfailed : result = 48
    · subst hfailed
      refine .failed ?_
      simp only [threadsReadResults, if_pos]
      exact find_threadsRemove hs.inStep dirPath inGroup id (-1)
    · cases hfind : treapFind s.man.analyses id with
      | none =>
        refine .kept ?_ (fun _ => by simp) rfl ?_
        · simp [threadsReadResults, hfailed, hfind]
        · rw [signalled, if_neg hfailed]
      | some a =>
        refine .resulted hfailed hfind ?_
        simp only [threadsReadResults, if_neg hfailed, hfind]
        rw [find_modify, hfind, Option.map_some]
  | restart env =>
    obtain ⟨file, man', hdown, hup, hrebuilt⟩ := restart_eq hs.inStep.store hs.inStep.counted
      hs.loadable s.file hwf (le_refl _)
    rw [handle, hdown, Option.bind_some, hup, Option.map_some] at h
    obtain rfl := Option.some.inj h
    exact .restarted hrebuilt

/-! ## Sound states stay sound -/

theorem InStep.modify (hi : InStep man) (id : Int) {f : Analysis → Analysis}
    (hf : ∀ a, (f a).path = a.path) :
    InStep { man with analyses := man.analyses.modify id f } := by
  refine ⟨ordered_modify.2 hi.store, hi.trie, ?_, ?_⟩
  · rw [size_modify]
    exact hi.counted
  · dsimp only
    rw [find_modify]
    cases hfind : treapFind man.analyses id with
    | none =>
      rw [Option.map_none, Function.update_eq_self_iff.2 hfind.symm]
      exact hi.indexed
    | some a =>
      have hkey : components (f a).path = components a.path := by rw [hf]
      exact hi.indexed.replace hfind hkey

theorem Rebuilt.find_some {env : StartEnv} {man' : ThreadsManager} (h : Rebuilt env man man')
    (ho : man.analyses.Ordered) {id : Int} {c : Analysis}
    (hc : treapFind man'.analyses id = some c) :
    ∃ a b, treapFind man.analyses id = some a ∧ Reread a b ∧ forked env id b = some c := by
  have hid : id ∈ man.analyses.ids := by
    rw [← h.ids]
    by_contra hnot
    rw [(find_eq_none_iff h.ordered).2 hnot] at hc
    exact absurd hc (by simp)
  obtain ⟨k, a, hm⟩ := mem_ids.1 hid
  have hfind : treapFind man.analyses id = some a := (find_eq_some_iff ho).2 ⟨k, hm⟩
  obtain ⟨b, c', hread, hforked, hc'⟩ := h.records id a hfind
  obtain rfl := Option.some.inj (hc'.symm.trans hc)
  exact ⟨a, b, hfind, hread, hforked⟩

theorem Rebuilt.inStep {env : StartEnv} {man' : ThreadsManager} (h : Rebuilt env man man')
    (hi : InStep man) : InStep man' := by
  refine ⟨h.ordered, h.good, ?_, ?_⟩
  · rw [h.cnt, size_eq_of_ids hi.store h.ordered h.ids, hi.counted]
  · intro cs hcs i
    rw [h.paths cs hcs i]
    constructor
    · rintro ⟨a, ha, rfl⟩
      obtain ⟨b, c, hread, hforked, hc⟩ := h.records i a ha
      have hpath : c.path = a.path := (sameRecord_forked hforked).path.trans hread.path
      exact ⟨c, hc, congrArg components hpath⟩
    · rintro ⟨c, hc, rfl⟩
      obtain ⟨a, b, ha, hread, hforked⟩ := h.find_some hi.store hc
      have hpath : c.path = a.path := (sameRecord_forked hforked).path.trans hread.path
      exact ⟨a, ha, (congrArg components hpath).symm⟩

/-- At most one record has been written, and not its path. -/
def Rewrites (man man' : ThreadsManager) : Prop :=
  man' = man ∨ ∃ (id : Int) (f : Analysis → Analysis), (∀ a, (f a).path = a.path) ∧
    man' = { man with analyses := man.analyses.modify id f }

theorem Rewrites.inStep {man' : ThreadsManager} (h : Rewrites man man') (hi : InStep man) :
    InStep man' := by
  rcases h with rfl | ⟨id, f, hf, rfl⟩
  · exact hi
  · exact hi.modify id hf

theorem Rewrites.availableIds {man' : ThreadsManager} (h : Rewrites man man') :
    man'.availableIds = man.availableIds := by
  rcases h with rfl | ⟨id, f, -, rfl⟩
  · rfl
  · rfl

theorem Rewrites.ids {man' : ThreadsManager} (h : Rewrites man man') :
    man'.analyses.ids = man.analyses.ids := by
  rcases h with rfl | ⟨id, f, -, rfl⟩
  · rfl
  · exact mem_ids_modify

theorem threadsSuspend_rewrites (inGroup : Int → Bool) (now : Int) (man : ThreadsManager)
    (id fd : Int) : Rewrites man (threadsSuspend inGroup now man id fd).man := by
  rw [threadsSuspend]
  cases treapFind man.analyses id with
  | none => exact Or.inl rfl
  | some a =>
    by_cases hok : a.suspended ≠ ANALYSIS_SUSPENDED ∧ a.status ≠ ANALYSIS_COMPLETE
    · simp only [if_pos hok]
      exact Or.inr ⟨id, Analysis.suspend inGroup now, fun _ => rfl, rfl⟩
    · simp only [if_neg hok]
      left
      split_ifs <;> rfl

theorem threadsResume_rewrites (inGroup : Int → Bool) (now : Int) (man : ThreadsManager)
    (id fd : Int) : Rewrites man (threadsResume inGroup now man id fd).man := by
  rw [threadsResume]
  cases treapFind man.analyses id with
  | none => exact Or.inl rfl
  | some a =>
    by_cases hok : a.suspended ≠ ANALYSIS_RESUMED
    · simp only [if_pos hok]
      exact Or.inr ⟨id, Analysis.resume inGroup now, fun _ => rfl, rfl⟩
    · simp only [if_neg hok]
      left
      split_ifs <;> rfl

theorem threadsReadResults_rewrites (dirPath : Bytes) (inGroup : Int → Bool) (now : Int)
    (man : ThreadsManager) {result : UInt8} (hresult : result ≠ 48) (id cntDirs cntFiles : Int) :
    Rewrites man (threadsReadResults dirPath inGroup now man result id cntDirs cntFiles) := by
  rw [threadsReadResults, if_neg hresult]
  cases treapFind man.analyses id with
  | none => exact Or.inl rfl
  | some _ =>
    refine Or.inr ⟨id, Analysis.result result cntDirs cntFiles now, ?_, rfl⟩
    intro a
    rw [Analysis.result]
    split_ifs <;> rfl

theorem inStep_handle {e : Event} (hs : Sound s.man) (hfresh : GetsFreshId s.man e)
    (hwf : WellFormed e) (h : handle s e = some s') : InStep s'.man := by
  have hmove := storeMove_of_handle hs hfresh hwf h
  cases e with
  | add env path priority memory fd =>
    obtain rfl := Option.some.inj h
    exact (threadsAdd_exit env s.man _ fd).inStep hs.inStep hfresh
  | remove dirPath inGroup id fd =>
    obtain rfl := Option.some.inj h
    exact inStep_remove hs.inStep dirPath inGroup id fd
  | suspend inGroup id fd now =>
    obtain rfl := Option.some.inj h
    exact (threadsSuspend_rewrites inGroup now s.man id fd).inStep hs.inStep
  | resume inGroup id fd now =>
    obtain rfl := Option.some.inj h
    exact (threadsResume_rewrites inGroup now s.man id fd).inStep hs.inStep
  | result dirPath inGroup result id cntDirs cntFiles now =>
    obtain rfl := Option.some.inj h
    dsimp only
    by_cases hresult : result = 48
    · rw [threadsReadResults, if_pos hresult]
      exact inStep_remove hs.inStep dirPath inGroup id (-1)
    · exact (threadsReadResults_rewrites dirPath inGroup now s.man hresult id cntDirs
        cntFiles).inStep hs.inStep
  | restart env =>
    cases hmove with
    | kept _ hno => exact absurd rfl (hno env)
    | restarted hrebuilt => exact hrebuilt.inStep hs.inStep

theorem AddExit.free_inRange {env : AddEnv} {anal : Analysis} {fd : Int} {res : AddResult}
    (hs : Sound man) (hfresh : FreshId man (.add env anal fd)) (h : AddExit env man anal fd res) :
    ∀ x ∈ res.man.availableIds.ids, InRange x := by
  obtain ⟨hrest, hgot⟩ := getFreeId_inRange env.rand hs.free
  cases h with
  | notDir => exact hs.free
  | covered => exact hs.free
  | noId => exact hrest
  | noMemory _ hget => exact returnId_inRange hrest (hgot _ _ hget)
  | noNode _ hget => exact returnId_inRange hrest (hgot _ _ hget)
  | @noFork id h _ hget hout =>
    have hord := ordered_insertNode hs.inStep.store (hfresh id hout) h
      { anal with lastStart := env.now }
    have hmem : (id, h, { anal with lastStart := env.now }) ∈ (treapInsertNode man.analyses
        (node id h { anal with lastStart := env.now } nil nil)).inorder := by
      rw [mem_inorder_insertNode]
      exact Or.inl rfl
    dsimp only
    rw [(extract_of_mem hord hmem).1]
    exact returnId_inRange hrest (hgot _ _ hget)
  | added => exact hrest

theorem RecordOk.suspend {a : Analysis} (h : RecordOk a) (inGroup : Int → Bool) (now : Int) :
    RecordOk (a.suspend inGroup now) := by
  refine { h with totalTime := ?_, suspended := Or.inl rfl }
  rw [Analysis.suspend]
  dsimp only
  split_ifs
  · exact fitsInt_wrap32 _
  · exact h.totalTime

theorem RecordOk.resume {a : Analysis} (h : RecordOk a) (inGroup : Int → Bool) (now : Int) :
    RecordOk (a.resume inGroup now) := { h with suspended := Or.inr rfl }

theorem RecordOk.result {a : Analysis} (h : RecordOk a) (result : UInt8)
    (cntDirs cntFiles now : Int) : RecordOk (a.result result cntDirs cntFiles now) := by
  have hsum : ∀ x : Int, FitsInt (wrap32 x) := fitsInt_wrap32
  rw [Analysis.result]
  split_ifs
  · exact { h with
      status := Or.inr (Or.inr rfl), totalTime := hsum _, cntDirs := hsum _, cntFiles := hsum _ }
  · exact { h with cntDirs := hsum _, cntFiles := hsum _ }

/-- The flags survive a restart. -/
theorem Reread.flags {a b : Analysis} (h : Reread a b) (ha : Coded a) :
    b.status = a.status ∧ b.suspended = a.suspended := by
  obtain ⟨⟨hs0, hs⟩, hu0, hu⟩ := ha.fits
  exact ⟨h.status.trans (atoi_writeInt hs hs0), h.suspended.trans (atoi_writeInt hu hu0)⟩

theorem RecordOk.reread {a b : Analysis} (ha : RecordOk a) (h : Reread a b) : RecordOk b := by
  obtain ⟨hstatus, hsuspended⟩ := h.flags ha.toCoded
  have hw := h.writable ha.writable
  exact ⟨⟨hstatus ▸ ha.status, hsuspended ▸ ha.suspended⟩, hw.totalTime, hw.cntDirs, hw.cntFiles,
    hw.path, hw.priority⟩

theorem RecordOk.forked {env : StartEnv} {id : Int} {b c : Analysis} (hb : RecordOk b)
    (h : forked env id b = some c) : RecordOk c := by
  rw [DiskAnalyzer.forked] at h
  split_ifs at h
  · obtain ⟨pid, -, rfl⟩ := Option.map_eq_some_iff.1 h
    exact { hb with }
  · obtain rfl := Option.some.inj h
    exact { hb with }

theorem recordOk_new {path : Bytes} {priority : Int} (memory : Int × Int) (lastStart pid : Int)
    (hpath : 0 ∉ path ∧ path.length + 1 < 2 ^ 31) (hpriority : FitsInt priority) :
    RecordOk { newAnalysis path priority memory with
      lastStart, pid, status := ANALYSIS_INPROGRESS } := by
  have hzero : FitsInt 0 := by decide
  exact ⟨⟨Or.inr (Or.inl rfl), Or.inr rfl⟩, hzero, hzero, hzero, hpath, hpriority⟩

theorem handsOut_inRange {env : AddEnv} {anal : Analysis} {id : Int}
    (hfree : ∀ x ∈ man.availableIds.ids, InRange x) (h : handsOut env man anal = some id) :
    InRange id := by
  rw [handsOut] at h
  split_ifs at h
  rcases getFreeId_fst env.rand man.availableIds with hnil | ⟨i, k, hget⟩
  · rw [hnil] at h
    exact absurd h (by simp)
  · have hid := (getFreeId_inRange env.rand hfree).2 i k hget
    rw [hget] at h
    obtain rfl := Option.some.inj h
    exact hid

/-- What holds of every record of a store, and of the ids, after a write to one of them. -/
theorem forall_update {P : Int → Analysis → Prop} {store store' : Int → Option Analysis}
    (h : ∀ i a, store i = some a → P i a) {id : Int} {b : Option Analysis}
    (hstore : store' = Function.update store id b) (hb : ∀ a, b = some a → P id a) :
    ∀ i a, store' i = some a → P i a := by
  intro i a ha
  rw [hstore, Function.update_apply] at ha
  split_ifs at ha with hi
  · rw [hi]
    exact hb a ha
  · exact h i a ha

/-- **A move keeps what every record has**, and ids in range. -/
theorem StoreMove.records {e : Event} {man' : ThreadsManager} (h : StoreMove man e man')
    (hs : Sound man) (hwf : WellFormed e) :
    ∀ i a, treapFind man'.analyses i = some a → RecordOk a ∧ InRange i := by
  have hall : ∀ i a, treapFind man.analyses i = some a → RecordOk a ∧ InRange i := by
    intro i a ha
    obtain ⟨k, hm⟩ := (find_eq_some_iff hs.inStep.store).1 ha
    exact ⟨hs.records i a ha, hs.used i (mem_ids_of_mem hm)⟩
  cases h with
  | kept hfind =>
    rw [hfind]
    exact hall
  | added _ hout _ _ hfind =>
    refine forall_update hall hfind ?_
    rintro a ⟨⟩
    exact ⟨recordOk_new _ _ _ hwf.1 hwf.2, handsOut_inRange hs.free hout⟩
  | removed hfind => exact forall_update hall hfind fun a ha => absurd ha (by simp)
  | failed hfind => exact forall_update hall hfind fun a ha => absurd ha (by simp)
  | suspended ha _ _ _ hfind =>
    refine forall_update hall hfind ?_
    rintro _ ⟨⟩
    exact ⟨(hall _ _ ha).1.suspend _ _, (hall _ _ ha).2⟩
  | resumed ha _ _ hfind =>
    refine forall_update hall hfind ?_
    rintro _ ⟨⟩
    exact ⟨(hall _ _ ha).1.resume _ _, (hall _ _ ha).2⟩
  | resulted _ ha hfind =>
    refine forall_update hall hfind ?_
    rintro _ ⟨⟩
    exact ⟨(hall _ _ ha).1.result _ _ _ _, (hall _ _ ha).2⟩
  | restarted hrebuilt =>
    intro i c hc
    obtain ⟨a, b, ha, hread, hforked⟩ := hrebuilt.find_some hs.inStep.store hc
    exact ⟨((hall i a ha).1.reread hread).forked hforked, (hall i a ha).2⟩

theorem free_remove (hs : Sound man) (dirPath : Bytes) (inGroup : Int → Bool) (id fd : Int) :
    ∀ x ∈ (threadsRemove dirPath inGroup man id fd).man.availableIds.ids, InRange x := by
  by_cases hid : id ∈ man.analyses.ids
  · obtain ⟨h, a, hm⟩ := mem_ids.1 hid
    have hex := extract_eq_of_mem hs.inStep.store hm
    intro x hx
    rw [threadsRemove, hex] at hx
    rcases mem_ids_insertNode.1 hx with rfl | hx
    · exact hs.used x hid
    · exact hs.free x hx
  · rw [threadsRemove, extract_of_notMem hs.inStep.store hid]
    exact hs.free

theorem free_handle {e : Event} (hs : Sound s.man) (hfresh : GetsFreshId s.man e)
    (hmove : StoreMove s.man e s'.man) (h : handle s e = some s') :
    ∀ x ∈ s'.man.availableIds.ids, InRange x := by
  cases e with
  | add env path priority memory fd =>
    obtain rfl := Option.some.inj h
    exact (threadsAdd_exit env s.man _ fd).free_inRange hs hfresh
  | remove dirPath inGroup id fd =>
    obtain rfl := Option.some.inj h
    exact free_remove hs dirPath inGroup id fd
  | suspend inGroup id fd now =>
    obtain rfl := Option.some.inj h
    dsimp only
    rw [(threadsSuspend_rewrites inGroup now s.man id fd).availableIds]
    exact hs.free
  | resume inGroup id fd now =>
    obtain rfl := Option.some.inj h
    dsimp only
    rw [(threadsResume_rewrites inGroup now s.man id fd).availableIds]
    exact hs.free
  | result dirPath inGroup result id cntDirs cntFiles now =>
    obtain rfl := Option.some.inj h
    dsimp only
    by_cases hresult : result = 48
    · rw [threadsReadResults, if_pos hresult]
      exact free_remove hs dirPath inGroup id (-1)
    · rw [(threadsReadResults_rewrites dirPath inGroup now s.man hresult id cntDirs
        cntFiles).availableIds]
      exact hs.free
  | restart env =>
    cases hmove with
    | kept _ hno => exact absurd rfl (hno env)
    | restarted hrebuilt =>
      intro x hx
      obtain ⟨hlow, hhigh, -⟩ := (hrebuilt.free x).1 hx
      exact ⟨hlow, (le_min_iff.1 hhigh).2⟩

/-- **Sound states stay sound.** -/
theorem sound_handle {e : Event} (hs : Sound s.man) (hfresh : GetsFreshId s.man e)
    (hwf : WellFormed e) (h : handle s e = some s') : Sound s'.man := by
  have hmove := storeMove_of_handle hs hfresh hwf h
  have hrecords := hmove.records hs hwf
  have hstep := inStep_handle hs hfresh hwf h
  refine ⟨hstep, fun i a ha => (hrecords i a ha).1, ?_, ?_⟩
  · intro x hx
    obtain ⟨k, a, hm⟩ := mem_ids.1 hx
    exact (hrecords x a ((find_eq_some_iff hstep.store).2 ⟨k, hm⟩)).2
  · exact free_handle hs hfresh hmove h

end DiskAnalyzer
