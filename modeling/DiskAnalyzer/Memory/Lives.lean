import DiskAnalyzer.Memory.Runs
import DiskAnalyzer.Memory.StartupProof

/-!
# A life of the manager on the memory

`do_threads_manager` from `threads_startup` to `threads_shutdown`: it is given the members of a
`struct threads_manager` and what its callers hand over, and it gives back the members.
-/

namespace DiskAnalyzer.Memory

open Sep Treap Assertion Decimal

/-! ## From start to end -/

/-- `do_threads_manager`, the calls one after another: the replies and what is saved, `none` when the
manager could not be started. -/
def doThreadsManager (fuel : Nat) (w : StartWorld) (file : Bytes) (man : Addr) (calls : List Call) :
    Code (Option (List Bytes × Bytes)) := do
  let ret ← threadsStartup fuel w file man
  if ret ≠ 0 then return none
  else
    let out ← session fuel man calls
    return some out

/-- A life of the model, from a data file. -/
def Lived (w : StartWorld) (file : Bytes) (calls : List Call) (replies : List Bytes) (saved : Bytes) :
    Prop :=
  ∃ man man', DiskAnalyzer.threadsStartup w.env file = some man ∧
    Served (fun man c => Call.Does man c) man calls replies man' ∧ SavedBy man' saved

/-- What a life leaves. -/
def livedAt (w : StartWorld) (file : Bytes) (m : Addr) (calls : List Call)
    (out : Option (List Bytes × Bytes)) : Owned :=
  (⨆ _ : out = none, membersAt m * (calls.map Call.given).prod * stray) ⊔
    ⨆ replies, ⨆ saved, ⨆ _ : out = some (replies, saved) ∧ Lived w file calls replies saved,
      membersAt m * (1 ⊔ lost) ^ refusals calls replies

theorem closed_le (man : ThreadsManager) (m : Addr) : closedAt man m ≤ membersAt m := by
  rw [closedAt, membersAt]
  exact mul_le_mul' (mul_le_mul' (mul_le_mul' (le_wordAt _ _) (le_wordAt _ _))
    (ptr_le_wordAt _)) (le_wordAt _ _)

/-- **A life leaves what it was given**, whatever `malloc` answers. `I` is what the callers'
conditions keep. -/
theorem life_spec {I : ThreadsManager → Prop} {ok : ThreadsManager → Call → Prop} (w : StartWorld)
    {file : Bytes} (m : Addr) {fuel n : Nat} {calls : List Call}
    (hclean : CleanFile n fuel file w.reads) (hok : ∀ man c, I man → ok man c → c.Promised n man)
    (hstep : ∀ k man c reply man', Ready fuel n (k + 1) man → I man → ok man c →
      c.Does man reply man' → I man')
    (hord : ∀ man, I man → man.availableIds.Ordered)
    (hman : ∀ man, DiskAnalyzer.threadsStartup w.env file = some man →
      Ready fuel n calls.length man ∧ I man ∧ Admitted (fun man c => Call.Does man c) ok man calls) :
    Triple (membersAt m * (calls.map Call.given).prod) (doThreadsManager fuel w file m calls)
      (livedAt w file m calls) := by
  unfold doThreadsManager
  refine .call (threadsStartup_spec w file m hclean) fun ret => ?_
  rw [startedAt, Quantale.sup_mul_distrib, Triple.sup_iff]
  simp only [iSup_mul, Triple.iSup_iff]
  constructor
  · rintro rfl
    refine .ret (le_sup_of_le_left (le_iSup_of_le rfl (le_of_eq ?_)))
    ac_rfl
  · rintro man ⟨rfl, hstart⟩
    rw [if_neg (by simp)]
    obtain ⟨hready, hI, hcalls⟩ := hman man hstart
    refine .bind (session_spec m hok hstep hord hready hI hcalls) fun out => ?_
    simp only [Triple.iSup_iff]
    rintro man' ⟨hserved, hsaved⟩
    refine .ret (le_sup_of_le_right (le_iSup_of_le out.1 (le_iSup_of_le out.2 (le_iSup_of_le
      ⟨rfl, man, man', hstart, hserved, hsaved⟩ ?_))))
    exact mul_le_mul' (closed_le man' m) le_rfl

/-! ## The first life -/

/-- What bounds the depth of every recursion in a life with `k` calls that starts from `s` records. -/
def lifeDepth (n s k : Nat) : Nat := 2 * ((2 * n + 3) * (s + k) + ID_MAX.toNat + n + 1)

theorem cleanFile_nil {n fuel : Nat} (hfuel : 2 * ID_MAX.toNat + 1 < fuel) (reads : Option Nat) :
    CleanFile n fuel [] reads := by
  intro cnt fd hcount
  have hcnt : cnt = 0 := by
    simp only [readCount, Fd.read] at hcount
    split_ifs at hcount
    simpa using (congrArg Prod.fst (Option.some.inj hcount)).symm
  subst hcnt
  exact ⟨trivial, by simpa using hfuel⟩

/-- Everything is made, and workers answer. -/
def quietStartWorld : StartWorld :=
  ⟨none, fun _ => 0, fun _ => 0, true, fun _ _ => some 7, fun _ => 10⟩

/-- What the save loop wrote can be read. -/
theorem clean_saved {n : Nat} (todo : List Entry) {ids : List Int} {rest : Bytes}
    (hs : Loadable todo) (hpaths : ∀ e ∈ todo, KeysInside e.2.2.path ∧ e.2.2.path.length ≤ n)
    (hids : ∀ e ∈ todo, e.1 ∉ ids) : Clean n todo.length ids ⟨savedBytes todo ++ rest, none⟩ := by
  induction todo generalizing ids with
  | nil => trivial
  | cons e todo ih =>
    obtain ⟨hlow, hhigh⟩ := hs.range e List.mem_cons_self
    have hid : 0 ≤ e.1 ∧ FitsInt e.1 := by
      unfold FitsInt
      unfold ID_MAX at hhigh
      omega
    obtain ⟨b, hb, hsame⟩ := analysisRead_write hid (hs.records e List.mem_cons_self) 0 0
      (savedBytes todo ++ rest)
    have hbytes : savedBytes (e :: todo) ++ rest =
        DiskAnalyzer.analysisWrite e.1 e.2.2 ++ (savedBytes todo ++ rest) := by
      rw [savedBytes, List.flatMap_cons, List.append_assoc]
      rfl
    have hrest : Clean n todo.length (e.1 :: ids) ⟨savedBytes todo ++ rest, none⟩ := by
      refine ih ⟨fun x hx => hs.range x (List.mem_cons_of_mem _ hx),
        fun x hx => hs.records x (List.mem_cons_of_mem _ hx), hs.ids.of_cons, hs.paths.of_cons⟩
        (fun x hx => hpaths x (List.mem_cons_of_mem _ hx)) fun x hx => ?_
      rw [List.mem_cons, not_or]
      exact ⟨((List.pairwise_cons.1 hs.ids).1 x hx).symm, hids x (List.mem_cons_of_mem _ hx)⟩
    rw [List.length_cons, Clean, Legible, hbytes, hb]
    refine ⟨⟨by simp, ?_⟩, ?_⟩
    · rintro _ _ _ heq
      obtain ⟨rfl, rfl, -⟩ : e.1 = _ ∧ b = _ ∧ _ := by simpa using heq
      rw [hsame.path]
      exact ⟨hids e List.mem_cons_self, hpaths e List.mem_cons_self⟩
    · rintro _ _ _ heq
      obtain ⟨rfl, -, rfl⟩ : e.1 = _ ∧ b = _ ∧ _ = _ := by simpa using heq
      exact hrest

/-- **The file of a sound manager is clean**, whatever it held before. -/
theorem cleanFile_saved {man : ThreadsManager} (hs : Sound man) {n fuel : Nat} (hst : Stored man n)
    {old file : Bytes}
    (hdown : DiskAnalyzer.threadsShutdown man.analyses.size man old = some file)
    (hfuel : 2 * ((n + 1) * man.analyses.size + ID_MAX.toNat) + 1 < fuel) :
    CleanFile n fuel file none := by
  obtain ⟨es, hperm, hsave⟩ := save_eq hs.inStep.store le_rfl
  have hload : Loadable es := hs.loadable.perm hperm.symm
  have hlen : es.length = man.analyses.size := by rw [hperm.length_eq, size_eq_length]
  have hcnt : man.analysisCnt = es.length := by rw [hs.inStep.counted, hlen]
  have hle := hload.length_le
  have hfits : FitsInt man.analysisCnt := by
    unfold FitsInt
    unfold ID_MAX at hle
    omega
  have hfile : file = writeInt man.analysisCnt ++ (savedBytes es ++
      old.drop (writeInt man.analysisCnt ++ savedBytes es).length) := by
    rw [DiskAnalyzer.threadsShutdown, hsave, Option.map_some, overwrite] at hdown
    rw [← Option.some.inj hdown, ← List.append_assoc]
    rfl
  intro cnt fd hcount
  rw [hfile, readCount_append hfits (by omega)] at hcount
  obtain ⟨rfl, rfl⟩ := Prod.mk.inj (Option.some.inj hcount)
  rw [show man.analysisCnt.toNat = es.length by omega]
  refine ⟨clean_saved es hload (fun e he => ?_) (by simp), by rwa [hlen]⟩
  exact hst e.1 e.2.2 ((find_eq_some_iff hs.inStep.store).2 ⟨e.2.1, hperm.mem_iff.1 he⟩)

/-- What a start leaves as it was read. -/
theorem paths_startup {env : StartEnv} {file : Bytes} {man : ThreadsManager}
    (h : DiskAnalyzer.threadsStartup env file = some man) : ∃ cnt fd ld,
      readCount ⟨file, env.reads⟩ = some (cnt, fd) ∧
        DiskAnalyzer.loadLoop env cnt.toNat 0 ⟨nil, DiskAnalyzer.treeInit, 0, fd⟩ = some ld ∧
          man.analysisCnt = cnt ∧ man.paths = ld.paths := by
  obtain ⟨cnt, fd, ld, hcount, hload, hfree, -⟩ := startup_some h
  rw [DiskAnalyzer.threadsStartup, hcount] at h
  simp only [hload, hfree] at h
  split_ifs at h
  obtain ⟨t, -, heq⟩ := Option.map_eq_some_iff.1 h
  exact ⟨cnt, fd, ld, hcount, hload, by rw [← heq], by rw [← heq]⟩

theorem size_free_le {man : ThreadsManager} (hs : Sound man) (ho : man.availableIds.Ordered) :
    man.availableIds.size ≤ ID_MAX.toNat := by
  have hsub : man.availableIds.ids.toFinset ⊆ Finset.Icc 1 ID_MAX := by
    intro x hx
    exact Finset.mem_Icc.2 (hs.free x (List.mem_toFinset.1 hx))
  have hcard := Finset.card_le_card hsub
  rw [List.toFinset_card_of_nodup ho.nodup, Int.card_Icc, ids, List.length_map,
    ← size_eq_length] at hcard
  simpa using hcard

/-- **A manager that has been restarted.** -/
theorem ready_restarted {w : StartWorld} (hw : w.env.Succeeds) {man man' : ThreadsManager}
    (hs : Sound man) {n k fuel : Nat} (hst : Stored man n) {old file : Bytes}
    (hdown : DiskAnalyzer.threadsShutdown man.analyses.size man old = some file)
    (hup : DiskAnalyzer.threadsStartup w.env file = some man')
    (hfuel : lifeDepth n man.analyses.size k < fuel) :
    Ready fuel n k man' ∧ Rebuilt w.env man man' := by
  obtain ⟨file', man'', hdown', hup', hrebuilt⟩ := restart_eq hs.inStep.store hs.inStep.counted
    hs.loadable old hw le_rfl
  obtain rfl := Option.some.inj (hdown.symm.trans hdown')
  obtain rfl := Option.some.inj (hup.symm.trans hup')
  have hhandle : handle ⟨man, old⟩ (.restart w.env) = some ⟨man', file⟩ := by
    rw [handle, hdown, Option.bind_some, hup, Option.map_some]
  have hsound : Sound man' :=
    sound_handle (s := ⟨man, old⟩) (e := .restart w.env) hs trivial hw hhandle
  have hsize : man'.analyses.size = man.analyses.size :=
    size_eq_of_ids hs.inStep.store hrebuilt.ordered hrebuilt.ids
  have hfree := size_free_le hsound hrebuilt.freeOrdered
  have hnames : names man'.paths ≤ (n + 1) * man.analyses.size := by
    obtain ⟨cnt, fd, ld, hcount, hload, hcnt, hpaths⟩ := paths_startup hup
    have hreads : w.env.reads = none := hw.reads
    rw [hreads] at hcount
    have hclean := (cleanFile_saved hs hst hdown (Nat.lt_succ_self _) cnt fd hcount).1
    have hroom := (loading_loadLoop cnt.toNat (loading_start fd) (by simp) hclean hload).room
    have hsame := hsound.inStep.counted
    rw [hpaths, ← hsize, show man'.analyses.size = cnt.toNat by omega]
    omega
  refine ⟨⟨hsound, ?_, ?_⟩, hrebuilt⟩
  · intro id c hc
    obtain ⟨a, b, ha, hread, hforked⟩ := hrebuilt.find_some hs.inStep.store hc
    rw [(sameRecord_forked hforked).path, hread.path]
    exact hst id a ha
  · have hsum : (2 * n + 3) * (man.analyses.size + k) =
        man.analyses.size + 2 * ((n + 1) * man.analyses.size) + (2 * n + 3) * k := by ring
    rw [lifeDepth, hsum] at hfuel
    rw [load, hsize]
    omega

theorem quietStartWorld_succeeds : quietStartWorld.env.Succeeds where
  reads := rfl
  record _ := rfl
  rand _ := by simp [StartWorld.env]
  alloc _ := rfl
  randFree _ := by simp [StartWorld.env]
  sockets := rfl
  fork _ _ := by simp [StartWorld.env, quietStartWorld]

/-- The request that adds the directory. -/
def addDir : Call := .request quietWorld ⟨1, 0, str "/a", 2⟩ none 5

/-- The manager that has one directory. -/
def oneAdded : ThreadsManager :=
  (DiskAnalyzer.requestThread (quietWorld.env (some 0) true none) emptyService.man
    ⟨1, 0, str "/a", 2⟩ 5).2

theorem lone_oneAdded : Ready 100 2 0 oneAdded ∧ Lone oneAdded := by
  have hready : Ready 100 2 1 emptyService.man := ready_emptyService (by norm_num)
  have hl : Lone emptyService.man :=
    lone_startup (show DiskAnalyzer.threadsStartup quietStart [] = _ from rfl)
  have hplain : addDir.Plain 2 emptyService.man := by
    refine ⟨by simp [addDir, Call.Keeps], fun _ => ⟨keysInside_oneName, ?_, ?_, ?_⟩⟩ <;> decide
  have hdoes : addDir.Does emptyService.man _ oneAdded := .served true none (Or.inr rfl)
  exact ⟨ready_does hready (promised_of_plain hl hplain) hdoes, lone_does hready hl hplain hdoes⟩

/-- What it saves. -/
def oneSaved : Bytes :=
  (DiskAnalyzer.threadsShutdown oneAdded.analyses.size oneAdded []).getD []

theorem shutdown_oneAdded :
    DiskAnalyzer.threadsShutdown oneAdded.analyses.size oneAdded [] = some oneSaved := by
  have hs := lone_oneAdded.1.sound
  obtain ⟨file, -, hdown, -⟩ := restart_eq hs.inStep.store hs.inStep.counted hs.loadable []
    quietStartWorld_succeeds le_rfl
  rw [oneSaved, hdown, Option.getD_some]

theorem lifeDepth_oneAdded : lifeDepth 2 oneAdded.analyses.size 2 < 300000 := by
  have hroom := lone_oneAdded.1.room
  have hmax : ID_MAX.toNat = 100000 := rfl
  rw [load] at hroom
  rw [lifeDepth]
  omega

/-- The list is asked for, and the directory is removed. -/
def listAndRemove : List Call :=
  [.request quietWorld ⟨6, 0, [], 0⟩ none 5] ++ [.request quietWorld ⟨4, 1, [], 0⟩ none 5]

theorem admitted_listAndRemove {man : ThreadsManager}
    (hup : DiskAnalyzer.threadsStartup quietStartWorld.env oneSaved = some man) :
    Admitted (fun man c => Call.Does man c) (fun man c => c.Orderly 2 man) man listAndRemove := by
  obtain ⟨hready₀, hl⟩ := lone_oneAdded
  obtain ⟨hready, hrebuilt⟩ := ready_restarted quietStartWorld_succeeds hready₀.sound hready₀.stored
    shutdown_oneAdded hup lifeDepth_oneAdded
  have hlist : Admitted (fun man c => Call.Does man c) (fun man c => c.Plain 2 man) man
      [.request quietWorld ⟨6, 0, [], 0⟩ none 5] :=
    ⟨⟨by simp [Call.Keeps], fun h => absurd h (by decide)⟩, fun _ _ _ => trivial⟩
  exact admitted_removed hlist hready (hrebuilt.lone hl) quietWorld 1 5

end DiskAnalyzer.Memory
