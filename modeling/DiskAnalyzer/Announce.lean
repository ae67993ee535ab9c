import DiskAnalyzer.Walk

/-!
# A worker's announcement and its file

On its way out a worker reads `*interrupted`, then `*done` to choose its last message, then `*done`
again to choose what it writes. `Exits` lists the ways out; the traversal itself only sends
progress messages, so the last message tells which way was taken.
-/

namespace DiskAnalyzer

/-- Only progress messages have been added. -/
def ProgressOnly (before after : List Sent) : Prop :=
  ∃ ms, after = ms ++ before ∧ ∀ m ∈ ms, m.result = 2

theorem ProgressOnly.refl (ms : List Sent) : ProgressOnly ms ms :=
  ⟨[], rfl, fun _ hm => absurd hm List.not_mem_nil⟩

theorem ProgressOnly.trans {a b c : List Sent} (h : ProgressOnly a b) (h' : ProgressOnly b c) :
    ProgressOnly a c := by
  obtain ⟨ms, rfl, hms⟩ := h
  obtain ⟨ms', rfl, hms'⟩ := h'
  refine ⟨ms' ++ ms, by rw [List.append_assoc], ?_⟩
  intro m hm
  rcases List.mem_append.1 hm with hm | hm
  · exact hms' m hm
  · exact hms m hm

/-- What starts without messages ends with a progress message or none. -/
theorem ProgressOnly.head {ms : List Sent} (h : ProgressOnly [] ms) {m : Sent}
    (hm : ms.head? = some m) : m.result = 2 := by
  obtain ⟨ms', rfl, hms⟩ := h
  rw [List.append_nil] at hm
  exact hms m (List.mem_of_mem_head? hm)

variable {env : WorkerEnv}

@[simp] theorem sent_count (man : ForksManager) (nxt : FtsEnt) :
    (man.count nxt).sent = man.sent := by
  unfold ForksManager.count
  split <;> rfl

theorem progressOnly_polled (man : ForksManager) (nxt : FtsEnt) :
    ProgressOnly man.sent (polled env man nxt).sent := by
  rw [polled, sent_count, sendProgress]
  split_ifs
  · exact ⟨[_], rfl, by simp⟩
  · exact .refl _

/-- **The traversal sends progress messages only.** -/
theorem Walk.progressOnly {man : ForksManager} {curr : Tree State} {ftsp : Fts} {parc : Parc}
    (h : Walk env man curr ftsp parc) : ProgressOnly man.sent parc.man.sent := by
  induction h with
  | interrupted hint => exact .refl _
  | fails hint hread hfails => exact progressOnly_polled _ _
  | leaf hint hread hfails hrest ih => exact (progressOnly_polled _ _).trans ih
  | stop hint hread hdone => exact progressOnly_polled _ _
  | skip hint hread hdone hfind hcurr hrest ih => exact (progressOnly_polled _ _).trans ih
  | child hint hread hdone hfind hcurr hchild hrest ih ih' =>
    exact (progressOnly_polled _ _).trans (ih.trans ih')
  | childFails hint hread hdone hfind hcurr hchild hret ih =>
    exact (progressOnly_polled _ _).trans ih
  | leave hint hread => exact progressOnly_polled _ _

theorem progressOnly_solve {fuel : Nat} {man : ForksManager} {tre : Tree State}
    {root : Option Entries} {solved : Solved} (h : forksSolve env fuel man tre root = some solved) :
    ProgressOnly man.sent solved.man.sent := by
  unfold forksSolve at h
  dsimp only at h
  split at h
  · contradiction
  · split_ifs at h
    · obtain rfl := Option.some.inj h
      exact .refl _
    · split at h
      · obtain rfl := Option.some.inj h
        exact .refl _
      · obtain ⟨parc, hparc, rfl⟩ := Option.map_eq_some_iff.1 h
        exact (walk_of_parc hparc).progressOnly

theorem path_count (man : ForksManager) (nxt : FtsEnt) : (man.count nxt).path = man.path := by
  unfold ForksManager.count
  split <;> rfl

theorem path_polled (man : ForksManager) (nxt : FtsEnt) : (polled env man nxt).path = man.path := by
  rw [polled, path_count, sendProgress]
  split_ifs <;> rfl

theorem Walk.man_path {man : ForksManager} {curr : Tree State} {ftsp : Fts} {parc : Parc}
    (h : Walk env man curr ftsp parc) : parc.man.path = man.path := by
  induction h with
  | interrupted hint => rfl
  | leaf hint hread hfails hrest ih => exact ih.trans (path_polled _ _)
  | skip hint hread hdone hfind hcurr hrest ih => exact ih.trans (path_polled _ _)
  | child hint hread hdone hfind hcurr hchild hrest ih ih' =>
    exact ih'.trans (ih.trans (path_polled _ _))
  | childFails hint hread hdone hfind hcurr hchild hret ih => exact ih.trans (path_polled _ _)
  | _ => exact path_polled _ _

theorem path_solve {fuel : Nat} {man : ForksManager} {tre : Tree State} {root : Option Entries}
    {solved : Solved} (h : forksSolve env fuel man tre root = some solved) :
    solved.man.path = man.path := by
  unfold forksSolve at h
  dsimp only at h
  split at h
  · contradiction
  · split_ifs at h
    · obtain rfl := Option.some.inj h
      rfl
    · split at h
      · obtain rfl := Option.some.inj h
        rfl
      · obtain ⟨parc, hparc, rfl⟩ := Option.map_eq_some_iff.1 h
        exact (walk_of_parc hparc).man_path

/-! ## The ways out -/

variable {fmt : Printing} {fuel : Nat} {id : Int} {path : Bytes} {root : Option Entries}
  {file : Bytes} {out : WorkerExit}

/-- The code of the last message. -/
def WorkerExit.last (out : WorkerExit) : Option Nat := out.sent.head?.map Sent.result

/-- A worker that has loaded its progress and has come back from `forks_solve` with 0. -/
def Traversed (env : WorkerEnv) (fuel : Nat) (id : Int) (path : Bytes) (root : Option Entries)
    (file : Bytes) (man : ForksManager) (tre : Tree State) : Prop :=
  ∃ saved, forksReadProgress fuel file = some (0, saved) ∧
    forksSolve env fuel ⟨id, path, 0, 0, 0, 0, []⟩ saved root = some ⟨0, man, tre⟩

/-- How a worker leaves: with an error, with the report it has found, because of `*interrupted`, or
by one of the four combinations of its two reads of `*done`. -/
inductive Exits (env : WorkerEnv) (fmt : Printing) (fuel : Nat) (id : Int) (path : Bytes)
    (root : Option Entries) (file : Bytes) (out : WorkerExit) : Prop
  | failed : out.last = some 0 → Exits env fmt fuel id path root file out
  | complete : out.last = some 1 → file.head? = some 49 → out.file = file →
      Exits env fmt fuel id path root file out
  | interrupted (man : ForksManager) (tre : Tree State) :
      Traversed env fuel id path root file man tre → env.interrupted man.tick = true →
      out.sent = man.sent → Exits env fmt fuel id path root file out
  | finished (man : ForksManager) (tre : Tree State) :
      Traversed env fuel id path root file man tre → env.interrupted man.tick = false →
      out.last = some (if env.done (man.tick + 1) then 2 else 1) →
      (if env.done (man.tick + 2) then out.file = overwrite file (forksSave tre)
        else ∃ report, forksWrite fmt fuel path tre = some report ∧
          out.file = overwrite file report) →
      Exits env fmt fuel id path root file out

theorem exits_of_finish {man : ForksManager} {tre : Tree State}
    (htrav : Traversed env fuel id path root file man tre) (hpath : man.path = path)
    (h : forksFinish env fmt fuel file man tre = some out) :
    Exits env fmt fuel id path root file out := by
  unfold forksFinish at h
  cases hint : env.interrupted man.tick with
  | true =>
    rw [if_pos hint] at h
    obtain rfl := Option.some.inj h
    exact .interrupted man tre htrav hint rfl
  | false =>
    rw [if_neg (by simp [hint])] at h
    have hlast : ∀ d : Bool,
        ((forksSendResult env man.ticked.ticked (if d then 2 else 1)).sent.head?).map
          Sent.result = some (if d then 2 else 1) := by
      intro d
      cases d <;> rfl
    have htick : (forksSendResult env man.ticked.ticked
        (if env.done man.ticked.tick then 2 else 1)).tick = man.tick + 2 := rfl
    dsimp only at h
    rw [htick] at h
    cases hdone : env.done (man.tick + 2) with
    | false =>
      rw [if_pos hdone] at h
      obtain ⟨report, hreport, rfl⟩ := Option.map_eq_some_iff.1 h
      refine .finished man tre htrav hint (hlast _) ?_
      rw [if_neg (by simp [hdone])]
      exact ⟨report, hpath ▸ hreport, rfl⟩
    | true =>
      rw [if_neg (by simp [hdone])] at h
      obtain rfl := Option.some.inj h
      refine .finished man tre htrav hint (hlast _) ?_
      rw [if_pos hdone]

theorem head_of_complete {progress : Int} {saved : Tree State}
    (h : forksReadProgress fuel file = some (progress, saved)) (hpos : 0 < progress) :
    file.head? = some 49 := by
  unfold forksReadProgress at h
  split at h
  · simp only [Option.some.injEq, Prod.mk.injEq] at h
    omega
  · split_ifs at h with hone hzero
    · rw [hone]
      rfl
    · simp only [Option.some.injEq, Prod.mk.injEq] at h
      omega
    · split at h
      · contradiction
      · contradiction
      · simp only [Option.some.injEq, Prod.mk.injEq] at h
        omega
      · simp only [Option.some.injEq, Prod.mk.injEq] at h
        omega

/-- **Every worker that returns leaves in one of these ways.** -/
theorem exits_of_add (h : forksAdd env fmt fuel id path root file = some out) :
    Exits env fmt fuel id path root file out := by
  unfold forksAdd at h
  dsimp only at h
  split at h
  · contradiction
  · rename_i progress saved hprogress
    split_ifs at h with hneg hpos
    · obtain rfl := Option.some.inj h
      exact .failed rfl
    · obtain rfl := Option.some.inj h
      exact .complete rfl (head_of_complete hprogress hpos) rfl
    · obtain rfl : progress = 0 := by omega
      split at h
      · contradiction
      · rename_i ret man tre hsolve
        split_ifs at h with hret
        · obtain rfl := Option.some.inj h
          exact .failed rfl
        · obtain rfl : ret = 0 := not_not.1 hret
          exact exits_of_finish ⟨saved, hprogress, hsolve⟩ (path_solve hsolve) h

/-! ## What the file holds -/

/-- The file is complete: as the worker has found it, or with the report of its traversal. -/
def HoldsReport (env : WorkerEnv) (fmt : Printing) (fuel : Nat) (id : Int) (path : Bytes)
    (root : Option Entries) (file : Bytes) (out : WorkerExit) : Prop :=
  out.file.head? = some 49 ∧ (out.file = file ∨ ∃ man tre report,
    Traversed env fuel id path root file man tre ∧ forksWrite fmt fuel path tre = some report ∧
      out.file = overwrite file report)

/-- The file holds the progress of the traversal. -/
def HoldsProgress (env : WorkerEnv) (fuel : Nat) (id : Int) (path : Bytes) (root : Option Entries)
    (file : Bytes) (out : WorkerExit) : Prop :=
  out.file.head? = some 48 ∧ ∃ man tre, Traversed env fuel id path root file man tre ∧
    out.file = overwrite file (forksSave tre)

theorem head_report {tre : Tree State} {report : Bytes}
    (h : forksWrite fmt fuel path tre = some report) : report.head? = some 49 := by
  obtain ⟨found, -, hfound⟩ := Option.bind_eq_some_iff.1 h
  obtain ⟨body, -, rfl⟩ := Option.map_eq_some_iff.1 hfound
  rfl

theorem head_overwrite {old new : Bytes} {b : UInt8} (h : new.head? = some b) :
    (overwrite old new).head? = some b := by
  cases new with
  | nil => simp at h
  | cons c new => exact h

/-- `*done` changes between two reads only when the signal arrives there. -/
theorem done_succ_of_ne {tick : Nat} (h : env.done tick = false)
    (hne : env.sigterm ≠ some (tick + 1)) : env.done (tick + 1) = false := by
  unfold WorkerEnv.done at h ⊢
  cases hsig : env.sigterm with
  | none => rfl
  | some t =>
    simp only [hsig, Option.any_some, decide_eq_false_iff_not, ne_eq, Option.some.injEq] at h hne ⊢
    omega

/-- **Announcement and file agree**: after a `'1'` unless `SIGTERM` arrives between the two reads of
`*done`, and after a `'2'` unless `SIGINT` has stopped the worker. -/
theorem announcement_matches_file (h : forksAdd env fmt fuel id path root file = some out) :
    (out.last = some 1 → (∀ man tre, Traversed env fuel id path root file man tre →
        env.sigterm ≠ some (man.tick + 2)) → HoldsReport env fmt fuel id path root file out) ∧
      (out.last = some 2 → (∀ man tre, Traversed env fuel id path root file man tre →
        env.interrupted man.tick = false) → HoldsProgress env fuel id path root file out) := by
  rcases exits_of_add h with hfailed | ⟨hlast, hhead, hfile⟩ | ⟨man, tre, htrav, hint, hsent⟩ |
    ⟨man, tre, htrav, hint, hlast, hfile⟩
  · exact ⟨fun h1 => by simp [hfailed] at h1, fun h2 => by simp [hfailed] at h2⟩
  · exact ⟨fun _ _ => ⟨hfile ▸ hhead, Or.inl hfile⟩, fun h2 => by simp [hlast] at h2⟩
  · refine ⟨fun h1 _ => ?_, ?_⟩
    · -- A stopped worker has sent progress messages only.
      obtain ⟨saved, -, hsolve⟩ := htrav
      obtain ⟨m, hm, hresult⟩ := Option.map_eq_some_iff.1 h1
      rw [hsent] at hm
      have htwo := (progressOnly_solve hsolve).head hm
      omega
    · intro _ hquiet
      rw [hquiet man tre htrav] at hint
      contradiction
  · refine ⟨fun h1 hapart => ?_, fun h2 _ => ?_⟩
    · have hdone : env.done (man.tick + 1) = false := by
        cases hdone : env.done (man.tick + 1) with
        | false => rfl
        | true => simp [hlast, hdone] at h1
      rw [if_neg (by simp [done_succ_of_ne hdone (hapart man tre htrav)])] at hfile
      obtain ⟨report, hreport, hfile⟩ := hfile
      refine ⟨?_, Or.inr ⟨man, tre, report, htrav, hreport, hfile⟩⟩
      rw [hfile]
      exact head_overwrite (head_report hreport)
    · have hdone : env.done (man.tick + 1) = true := by
        cases hdone : env.done (man.tick + 1) with
        | true => rfl
        | false => simp [hlast, hdone] at h2
      rw [if_pos (WorkerEnv.done_mono hdone (Nat.le_succ _))] at hfile
      refine ⟨?_, man, tre, htrav, hfile⟩
      rw [hfile]
      exact head_overwrite rfl

/-- An empty directory. -/
def emptyDir : Entries := .leaf .FTS_DOT (str ".") 40 (.leaf .FTS_DOT (str "..") 60 .nil)

/-- The text of sizes below a kilobyte; `%.2f%%` of a directory is not needed for an empty one. -/
def bytesOnly : Printing where
  total size := str "\t100%\t" ++ Decimal.printPrec 1 size ++ str ".00B\t" ++
    List.replicate 50 35 ++ str "\n"
  share _ _ := []

/-- A worker for `/d` whose clock advances one second a tick. -/
def quickWorker (sigterm sigint : Option Nat) : Option WorkerExit :=
  forksAdd ⟨sigterm, sigint, fun tick => tick, fun _ => true⟩ bytesOnly 9 7 (str "/d")
    (some emptyDir) []

theorem announcement_matches_file_run :
    ∃ out, quickWorker none none = some out ∧
      HoldsReport ⟨none, none, fun tick => tick, fun _ => true⟩ bytesOnly 9 7 (str "/d")
        (some emptyDir) [] out := by
  have hlast : (quickWorker none none).bind WorkerExit.last = some 1 := by decide +kernel
  obtain ⟨out, hout, h1⟩ := Option.bind_eq_some_iff.1 hlast
  exact ⟨out, hout, (announcement_matches_file hout).1 h1 fun _ _ _ => by simp⟩

/-- `SIGINT` behind a progress message: the last message is a `'2'`, and the file is empty. -/
theorem interrupted_without_progress :
    (quickWorker none (some 1)).map (fun out => (out.last, out.file)) = some (some 2, []) := by
  decide +kernel

end DiskAnalyzer
