import DiskAnalyzer.Traversal

/-!
# What a traversal counts, and where it has been

Inductions over `Calm`.

* `Calm.dirs`, `Calm.skips_le`: the directories counted, by what the frames have done.
* `Calm.dirs_le`: no entry of the stream is counted twice.
* `Calm.origin`, `Calm.prefix_visited`: where a node with a state comes from.
* `Calm.after_done`, `Calm.fresh`: a traversal once `*done` is set, and a first traversal.
* `Calm.clock`: without signals neither the clock nor the network changes the result.
-/

namespace DiskAnalyzer

open DiskAnalyzer.Tree

/-! ## Counters -/

/-- The directories a message or an entry stands for. -/
def FtsEnt.dirs : FtsEnt → Int
  | .FTS_D _ _ | .leaf .FTS_DC _ _ | .leaf .FTS_DOT _ _ => 1
  | _ => 0

def FtsEnt.files : FtsEnt → Int
  | .leaf .FTS_DEFAULT _ _ | .leaf .FTS_F _ _ | .leaf .FTS_SL _ _ | .leaf .FTS_SLNONE _ _ => 1
  | _ => 0

def dirsSent (msgs : List Sent) : Int := (msgs.map Sent.cntDirs).sum

def filesSent (msgs : List Sent) : Int := (msgs.map Sent.cntFiles).sum

namespace ForksManager

/-- The directories counted so far, whether a message has told of them or not. -/
def dirs (man : ForksManager) : Int := man.cntDirs + dirsSent man.sent

def files (man : ForksManager) : Int := man.cntFiles + filesSent man.sent

@[simp] theorem dirs_ticked (man : ForksManager) : man.ticked.dirs = man.dirs := rfl
@[simp] theorem files_ticked (man : ForksManager) : man.ticked.files = man.files := rfl

theorem dirs_count (man : ForksManager) (nxt : FtsEnt) :
    (man.count nxt).dirs = man.dirs + nxt.dirs := by
  unfold count dirs FtsEnt.dirs
  split <;> simp <;> omega

theorem files_count (man : ForksManager) (nxt : FtsEnt) :
    (man.count nxt).files = man.files + nxt.files := by
  unfold count files FtsEnt.files
  split <;> simp <;> omega

end ForksManager

variable {env : WorkerEnv} {t : Trace} {man man' : ForksManager} {curr curr' : Tree State}
  {ftsp ftsp' : Fts}

/-- A message takes the counters over, unless it tells of a failure. -/
theorem sent_sendResult (env : WorkerEnv) (man : ForksManager) {result : Nat} (h : result ≠ 0) :
    dirsSent (forksSendResult env man result).sent = man.dirs ∧
      filesSent (forksSendResult env man result).sent = man.files := by
  unfold forksSendResult ForksManager.dirs ForksManager.files dirsSent filesSent
  simp [h]

theorem dirs_sendResult (env : WorkerEnv) (man : ForksManager) {result : Nat} (h : result ≠ 0) :
    (forksSendResult env man result).dirs = man.dirs := by
  rw [← (sent_sendResult env man h).1]
  exact Int.zero_add _

theorem files_sendResult (env : WorkerEnv) (man : ForksManager) {result : Nat} (h : result ≠ 0) :
    (forksSendResult env man result).files = man.files := by
  rw [← (sent_sendResult env man h).2]
  exact Int.zero_add _

theorem dirs_polled (env : WorkerEnv) (man : ForksManager) (nxt : FtsEnt) :
    (polled env man nxt).dirs = man.dirs + nxt.dirs := by
  rw [polled, ForksManager.dirs_count, sendProgress]
  split_ifs
  · rw [dirs_sendResult env _ (by decide), ForksManager.dirs_ticked]
  · rw [ForksManager.dirs_ticked]

theorem files_polled (env : WorkerEnv) (man : ForksManager) (nxt : FtsEnt) :
    (polled env man nxt).files = man.files + nxt.files := by
  rw [polled, ForksManager.files_count, sendProgress]
  split_ifs
  · rw [files_sendResult env _ (by decide), ForksManager.files_ticked]
  · rw [ForksManager.files_ticked]

theorem tick_polled (env : WorkerEnv) (man : ForksManager) (nxt : FtsEnt) :
    (polled env man nxt).tick = man.tick + 1 := by
  unfold polled sendProgress ForksManager.count
  split <;> split_ifs <;> rfl

/-- A leaf is a directory when it is `.` or `..`, as there are no cycles. -/
theorem dirs_leaf {info : FtsLeaf} (h : info ≠ .FTS_DC) (name : Bytes) (size : Int) :
    (FtsEnt.leaf info name size).dirs = if info = .FTS_DOT then 1 else 0 := by
  cases info <;> first | rfl | exact absurd rfl h

/-! ## The directories counted -/

/-- **The directories counted**: three for a frame, for its `FTS_D`, `.` and `..`; one for a skip;
three for a stop; less what is still ahead. -/
theorem Calm.dirs (h : Calm env t man curr ftsp man' curr' ftsp') :
    man'.dirs + ftsp'.dots =
      man.dirs + ftsp.dots + 3 * (t.visited.length + t.redone) + t.skips + 3 * t.stops := by
  induction h with
  | leaf hinfo hrest ih =>
    rw [dirs_polled, dirs_leaf hinfo] at ih
    simp only [Fts.dots_cons, Entries.dots] at ih ⊢
    split_ifs at ih ⊢ <;> omega
  | stop hdone hdir =>
    have hdots := hdir.1
    simp only [ForksManager.dirs_ticked, dirs_polled, FtsEnt.dirs, Fts.dots_cons, Entries.dots,
      Trace.stop, List.length_nil]
    omega
  | skip hdone hname hcurr =>
    simp only [ForksManager.dirs_ticked, dirs_polled, FtsEnt.dirs, Fts.dots_cons, Entries.dots,
      Trace.skip, List.length_nil]
    omega
  | @child t u man mid man' curr chld curr' name size entries next up ftsp ftsp' hdone hname hdir
      hcurr hchild hrest ih ih' =>
    have hdots := hdir.1
    simp only [ForksManager.dirs_ticked, dirs_polled, FtsEnt.dirs, Fts.dots_cons] at ih
    simp only [Fts.dots_cons, Entries.dots, Trace.child, List.length_append, List.length_map]
    -- The frame itself is visited or done again.
    cases (frameChild curr name).isDone <;> simp <;> omega
  | leave =>
    simp only [dirs_polled, FtsEnt.dirs, Fts.dots_cons, Entries.dots, Trace.zero, List.length_nil]
    omega

/-- What is ahead never holds more than two of `.` and `..` on a level. -/
theorem Calm.dots_le (h : Calm env t man curr ftsp man' curr' ftsp')
    (hftsp : ∀ e ∈ ftsp, e.dots ≤ 2) : ∀ e ∈ ftsp', e.dots ≤ 2 := by
  induction h with
  | leaf hinfo hrest ih =>
    obtain ⟨he, hup⟩ := List.forall_mem_cons.1 hftsp
    rw [Entries.dots] at he
    exact ih (List.forall_mem_cons.2 ⟨by omega, hup⟩)
  | stop hdone hdir =>
    obtain ⟨he, hup⟩ := List.forall_mem_cons.1 hftsp
    exact List.forall_mem_cons.2 ⟨hdir.1.le, List.forall_mem_cons.2 ⟨he, hup⟩⟩
  | skip hdone hname hcurr =>
    obtain ⟨he, hup⟩ := List.forall_mem_cons.1 hftsp
    exact List.forall_mem_cons.2 ⟨he, hup⟩
  | child hdone hname hdir hcurr hchild hrest ih ih' =>
    obtain ⟨he, hup⟩ := List.forall_mem_cons.1 hftsp
    exact ih' (ih (List.forall_mem_cons.2 ⟨hdir.1.le, List.forall_mem_cons.2 ⟨he, hup⟩⟩))
  | leave => exact (List.forall_mem_cons.1 hftsp).2

/-- A frame skips only when its node is done, and then once. -/
theorem Calm.skips_le (h : Calm env t man curr ftsp man' curr' ftsp') :
    t.skips ≤ t.redone + if curr.isDone then 1 else 0 := by
  induction h with
  | leaf hinfo hrest ih => rwa [isDone_addSize] at ih
  | stop hdone hdir => exact Nat.zero_le _
  | skip hdone hname hcurr =>
    rw [hcurr]
    exact Nat.le_refl _
  | child hdone hname hdir hcurr hchild hrest ih ih' =>
    rw [isDone_enter] at ih
    rw [isDone_returned hname, hcurr] at ih'
    simp only [Trace.child, hcurr] at ih' ⊢
    simp only [Bool.false_eq_true, if_false] at ih' ⊢
    omega
  | leave => exact Nat.zero_le _

/-- **At least so many directories are counted.** Each frame that was skipped or has stopped costs
at most one. -/
theorem Calm.le_dirs {entries : Entries} (h : Calm env t man curr [entries] man' curr' ftsp')
    (hdots : entries.dots = 2) (hcurr : curr.isDone = false) :
    man.dirs + 2 + 3 * t.visited.length ≤ man'.dirs + t.stops := by
  have hdirs := h.dirs
  have hlength := h.length
  have hskips := h.skips_le
  have hleft := Fts.dots_le (h.dots_le (by simp [hdots]))
  have hroot : Fts.dots [entries] = 2 := by simp [Fts.dots, hdots]
  rw [hroot] at hdirs
  rw [hcurr, if_neg (by decide)] at hskips
  rw [List.length_singleton] at hlength
  omega

/-- **No entry is counted twice.** -/
theorem Calm.dirs_le (h : Calm env t man curr ftsp man' curr' ftsp') :
    man'.dirs + ftsp'.dirCount ≤ man.dirs + ftsp.dirCount := by
  induction h with
  | leaf hinfo hrest ih =>
    rw [dirs_polled, dirs_leaf hinfo] at ih
    simp only [Fts.dirCount_cons, Entries.dirCount] at ih ⊢
    split_ifs at ih ⊢ <;> omega
  | stop hdone hdir =>
    simp only [ForksManager.dirs_ticked, dirs_polled, FtsEnt.dirs, Fts.dirCount_cons,
      Entries.dirCount]
    omega
  | skip hdone hname hcurr =>
    simp only [ForksManager.dirs_ticked, dirs_polled, FtsEnt.dirs, Fts.dirCount_cons,
      Entries.dirCount]
    omega
  | child hdone hname hdir hcurr hchild hrest ih ih' =>
    simp only [ForksManager.dirs_ticked, dirs_polled, FtsEnt.dirs, Fts.dirCount_cons,
      Entries.dirCount] at ih ih' ⊢
    omega
  | leave =>
    simp only [dirs_polled, FtsEnt.dirs, Fts.dirCount_cons, Entries.dirCount]
    omega

/-! ## The flag -/

theorem Calm.tick_le (h : Calm env t man curr ftsp man' curr' ftsp') : man.tick ≤ man'.tick := by
  induction h with
  | leaf hinfo hrest ih =>
    rw [tick_polled] at ih
    omega
  | child hdone hname hdir hcurr hchild hrest ih ih' =>
    simp only [ForksManager.ticked, tick_polled] at ih
    omega
  | _ =>
    simp only [ForksManager.ticked, tick_polled]
    omega

/-- Without `SIGTERM` no frame stops. -/
theorem Calm.stops_eq_zero (h : Calm env t man curr ftsp man' curr' ftsp')
    (hterm : env.sigterm = none) : t.stops = 0 := by
  induction h with
  | leaf hinfo hrest ih => exact ih
  | stop hdone hdir =>
    simp [WorkerEnv.done, hterm] at hdone
  | child hdone hname hdir hcurr hchild hrest ih ih' => simp only [Trace.child, ih, ih']
  | _ => rfl

/-! ## Where the states come from -/

/-- A state stays. -/
theorem Calm.hasState (h : Calm env t man curr ftsp man' curr' ftsp') (ht : curr.Stored)
    {p : List Bytes} (hp : GoodNames p) (hcurr : curr.HasState p) : curr'.HasState p := by
  induction h generalizing p with
  | leaf hinfo hrest ih => exact ih (ht.modifyState _) hp ((hasState_addSize _).2 hcurr)
  | stop hdone hdir => exact hcurr
  | skip hdone hname hdone' =>
    rw [hasState_modifyState, hasState_withChild ht hname hp]
    exact hcurr
  | @child t u man mid man' curr chld curr' name size entries next up ftsp ftsp' hdone hname hdir
      hdone' hchild hrest ih ih' =>
    have hstored := hchild.stored (stored_frameChild ht).enter
    refine ih' (stored_returned ht hname hstored) hp ?_
    cases p with
    | nil => rwa [hasState_returned_nil hname]
    | cons c p =>
      have hc := hp c List.mem_cons_self
      by_cases hcn : c = name
      · subst hcn
        rw [hasState_returned ht hname]
        refine ih (stored_frameChild ht).enter (fun d hd => hp d (List.mem_cons_of_mem _ hd)) ?_
        rw [hasState_enter, hasState_frameChild]
        exact Or.inr hcurr
      · rwa [hasState_returned_ne ht hname hc hcn]
  | leave => rwa [hasState_modifyState]

/-- **A state was there or belongs to a frame that was started.** -/
theorem Calm.origin (h : Calm env t man curr ftsp man' curr' ftsp') (ht : curr.Stored)
    {p : List Bytes} (hp : GoodNames p) (hcurr : curr'.HasState p) :
    p ∈ t.visited ∨ curr.HasState p := by
  induction h generalizing p with
  | leaf hinfo hrest ih =>
    rcases ih (ht.modifyState _) hp hcurr with hv | hv
    · exact Or.inl hv
    · exact Or.inr ((hasState_addSize _).1 hv)
  | stop hdone hdir => exact Or.inr hcurr
  | skip hdone hname hdone' =>
    rw [hasState_modifyState, hasState_withChild ht hname hp] at hcurr
    exact Or.inr hcurr
  | @child t u man mid man' curr chld curr' name size entries next up ftsp ftsp' hdone hname hdir
      hdone' hchild hrest ih ih' =>
    have hstored := hchild.stored (stored_frameChild ht).enter
    rcases ih' (stored_returned ht hname hstored) hp hcurr with hv | hv
    · exact Or.inl (List.mem_append_right _ hv)
    · cases p with
      | nil => exact Or.inr ((hasState_returned_nil hname).1 hv)
      | cons c p =>
        have hc := hp c List.mem_cons_self
        by_cases hcn : c = name
        · subst hcn
          rw [hasState_returned ht hname] at hv
          have hp' : GoodNames p := fun d hd => hp d (List.mem_cons_of_mem _ hd)
          rcases ih (stored_frameChild ht).enter hp' hv with hv | hv
          · exact Or.inl (List.mem_append_left _
              (List.mem_append_right _ (List.mem_map_of_mem hv)))
          · rcases hasState_enter.1 hv with rfl | hv
            · -- The frame's own node: it was done, and then it had a state, or it is visited.
              cases hfr : (frameChild curr c).isDone with
              | false =>
                refine Or.inl (List.mem_append_left _ (List.mem_append_left _ ?_))
                simp
              | true =>
                refine Or.inr (hasState_frameChild.1 ?_)
                rw [hasState_nil]
                intro hnone
                rw [isDone, hnone] at hfr
                exact absurd hfr (by decide)
            · exact Or.inr (hasState_frameChild.1 hv)
        · exact Or.inr ((hasState_returned_ne ht hname hc hcn).1 hv)
  | leave => exact Or.inr ((hasState_modifyState _).1 hcurr)

/-- A frame whose node is done starts no frame. -/
theorem Calm.visited_eq_nil (h : Calm env t man curr ftsp man' curr' ftsp')
    (hcurr : curr.isDone = true) : t.visited = [] := by
  induction h with
  | leaf hinfo hrest ih => exact ih (by rwa [isDone_addSize])
  | child hdone hname hdir hdone' => rw [hdone'] at hcurr; simp at hcurr
  | _ => rfl

/-- **A frame is started from the frame above it.** -/
theorem Calm.prefix_visited (h : Calm env t man curr ftsp man' curr' ftsp') {p q : List Bytes}
    (hp : p ≠ []) (hpq : p ++ q ∈ t.visited) : p ∈ t.visited := by
  induction h generalizing p q with
  | leaf hinfo hrest ih => exact ih hp hpq
  | @child t u man mid man' curr chld curr' name size entries next up ftsp ftsp' hdone hname hdir
      hcurr hchild hrest ih ih' =>
    rcases List.mem_append.1 hpq with hpq | hpq
    · obtain ⟨c, p, rfl⟩ := List.exists_cons_of_ne_nil hp
      refine List.mem_append_left _ ?_
      rcases List.mem_append.1 hpq with hpq' | hpq'
      · split_ifs at hpq' with hfr
        · exact absurd hpq' List.not_mem_nil
        · obtain ⟨rfl, rfl⟩ : c = name ∧ p = [] := by simp_all
          exact List.mem_append_left _ (by simp [hfr])
      · obtain ⟨r, hr, heq⟩ := List.mem_map.1 hpq'
        obtain ⟨rfl, rfl⟩ := List.cons.inj heq
        by_cases hnil : p = []
        · subst hnil
          refine List.mem_append_left _ ?_
          cases hfr : (frameChild curr name).isDone with
          | false => simp
          | true =>
            rw [hchild.visited_eq_nil (by rwa [isDone_enter])] at hr
            exact absurd hr List.not_mem_nil
        · exact List.mem_append_right _ (List.mem_map_of_mem (ih hnil hr))
    · exact List.mem_append_right _ (ih' hp hpq)
  | _ => exact absurd hpq List.not_mem_nil

/-! ## A first traversal -/

/-- **Once `*done` is set** no frame is started, and at most one more stops. -/
theorem Calm.after_done (h : Calm env t man curr ftsp man' curr' ftsp')
    (hdone : env.done man.tick = true) :
    t.stops ≤ 1 ∧ ∀ p, curr'.HasState p ↔ curr.HasState p := by
  have hlate : ∀ {man : ForksManager} (nxt : FtsEnt), env.done man.tick = true →
      env.done (polled env man nxt).tick = true := by
    intro man nxt hman
    rw [tick_polled]
    exact WorkerEnv.done_mono hman (Nat.le_succ _)
  induction h with
  | leaf hinfo hrest ih =>
    obtain ⟨hstops, hstate⟩ := ih (hlate _ hdone)
    exact ⟨hstops, fun p => (hstate p).trans (hasState_addSize _)⟩
  | stop hdone' hdir => exact ⟨Nat.le_refl _, fun _ => Iff.rfl⟩
  | skip hdone' hname hcurr =>
    rw [hlate _ hdone] at hdone'
    simp at hdone'
  | child hdone' hname hdir hcurr hchild hrest ih ih' =>
    rw [hlate _ hdone] at hdone'
    simp at hdone'
  | leave => exact ⟨Nat.zero_le _, fun _ => hasState_modifyState _⟩

/-- A first traversal has read the directory to its end, and every directory below has a state. -/
structure Finished (entries : Entries) (up : Fts) (t : Trace) (curr' : Tree State) (ftsp' : Fts) :
    Prop where
  stops : t.stops = 0
  rest : ftsp' = up
  states : ∀ p ∈ entries.dirPaths, curr'.HasState p

/-- A first traversal has been stopped at a directory: it has no state, those above it have, and at
most the frames of those have stopped. -/
structure Stopped (env : WorkerEnv) (entries : Entries) (t : Trace) (man' : ForksManager)
    (curr' : Tree State) (z : List Bytes) : Prop where
  done : env.done man'.tick = true
  mem : z ∈ entries.dirPaths
  stops_le : t.stops ≤ z.length
  noState : ¬ curr'.HasState z
  above : ∀ q r, r ≠ [] → q ++ r = z → curr'.HasState q

section Child

variable {u : Trace} {mid : ForksManager} {chld : Tree State} {name : Bytes} {size : Int}
  {entries next : Entries} {up : Fts}

/-- The traversals of a child and of the rest of its directory come to their ends. -/
theorem Finished.child (hfin : Finished entries (next :: up) t chld ftsp)
    (hfin' : Finished next up u curr' ftsp') (ht : curr.Stored) (hname : NameOk name)
    (hclean : entries.Clean) (hret : (returned curr name chld).Stored) (hroot : chld.HasState [])
    (hrest : Calm env u mid (returned curr name chld) ftsp man' curr' ftsp') (done : Bool) :
    Finished (.dir name size entries next) up (.child name done t u) curr' ftsp' := by
  refine ⟨?_, hfin'.rest, ?_⟩
  · simp only [Trace.child, hfin.stops, hfin'.stops]
  · intro p hp
    -- What the child left stays for the rest of the directory.
    have hbelow : ∀ q, GoodNames q → chld.HasState q → curr'.HasState (name :: q) := by
      intro q hq hstate
      refine hrest.hasState hret (List.forall_mem_cons.2 ⟨hname.good, hq⟩) ?_
      rw [hasState_returned ht hname]
      exact hstate
    rcases List.mem_append.1 hp with hp | hp
    · rcases List.mem_cons.1 hp with rfl | hp
      · exact hbelow [] (by simp [GoodNames]) hroot
      · obtain ⟨q, hq, rfl⟩ := List.mem_map.1 hp
        exact hbelow q (Entries.goodNames_of_mem_dirPaths hclean hq) (hfin.states q hq)
    · exact hfin'.states p hp

/-- The traversal of a child is stopped, and the frame starts no other. -/
theorem Stopped.child {z : List Bytes} (hz : Stopped env entries t mid chld z) (ht : curr.Stored)
    (hname : NameOk name) (hroot : curr.HasState [])
    (hrest : Calm env u mid (returned curr name chld) ftsp man' curr' ftsp') (done : Bool) :
    Stopped env (.dir name size entries next) (.child name done t u) man' curr' (name :: z) := by
  obtain ⟨hstops, hsame⟩ := hrest.after_done hz.done
  refine ⟨WorkerEnv.done_mono hz.done hrest.tick_le, List.mem_append_left _
    (List.mem_cons_of_mem _ (List.mem_map_of_mem hz.mem)), ?_, ?_, ?_⟩
  · have hle := hz.stops_le
    simp only [Trace.child, List.length_cons]
    omega
  · rw [hsame, hasState_returned ht hname]
    exact hz.noState
  · intro q r hr hqr
    rw [hsame]
    cases q with
    | nil => exact (hasState_returned_nil hname).2 hroot
    | cons c q =>
      obtain ⟨rfl, hqr'⟩ := List.cons.inj hqr
      rw [hasState_returned ht hname]
      exact hz.above q r hr hqr'

end Child

/-- **A first traversal** of a directory, the node having no children yet. -/
theorem Calm.fresh {entries : Entries} {up : Fts}
    (h : Calm env t man curr (entries :: up) man' curr' ftsp') (ht : curr.Stored)
    (hclean : entries.Clean) (hnames : entries.names.Nodup) (hcurr : curr.isDone = false)
    (hstate : curr.HasState []) (habsent : ∀ n ∈ entries.names, hashFind curr.hsh n = none) :
    Finished entries up t curr' ftsp' ∨ ∃ z, Stopped env entries t man' curr' z := by
  generalize hftsp : entries :: up = ftsp at h
  induction h generalizing entries up with
  | leaf hinfo hrest ih =>
    obtain ⟨rfl, rfl⟩ := List.cons.inj hftsp
    have hnext := ih (ht.modifyState _) hclean.2.2 hnames (by rwa [isDone_addSize])
      ((hasState_addSize _).2 hstate) habsent rfl
    rcases hnext with hfin | ⟨z, hz⟩
    · exact Or.inl ⟨hfin.stops, hfin.rest, hfin.states⟩
    · exact Or.inr ⟨z, hz.done, hz.mem, hz.stops_le, hz.noState, hz.above⟩
  | @stop man curr name size entries next up hdone hdir =>
    obtain ⟨rfl, rfl⟩ := List.cons.inj hftsp
    refine Or.inr ⟨[name], WorkerEnv.done_mono hdone (Nat.le_succ _), List.mem_cons_self,
      Nat.le_refl _, ?_, ?_⟩
    · rw [hasState_cons, habsent name List.mem_cons_self]
      simp
    · intro q r hr hqr
      rcases List.append_eq_singleton_iff.1 hqr with ⟨rfl, -⟩ | ⟨-, rfl⟩
      · exact hstate
      · exact absurd rfl hr
  | skip hdone hname hskip =>
    rw [hcurr] at hskip
    simp at hskip
  | @child t u man mid man' curr chld curr' name size entries next up ftsp ftsp' hdone hname hdir
      hcurr' hchild hrest ih ih' =>
    obtain ⟨rfl, rfl⟩ := List.cons.inj hftsp
    obtain ⟨hnew, hnames⟩ := List.nodup_cons.1 hnames
    have habsent' := List.forall_mem_cons.1 habsent
    have hinit : frameChild curr name = treeInit := by
      rw [frameChild, habsent'.1]
      rfl
    have hstored := hchild.stored (stored_frameChild ht).enter
    have hret := stored_returned ht hname hstored
    have hroot : (returned curr name chld).HasState [] := (hasState_returned_nil hname).2 hstate
    rcases ih (stored_frameChild ht).enter hdir.2.2 hdir.2.1 (by rw [hinit]; rfl)
        (hasState_enter.2 (Or.inl rfl)) (by rw [hinit]; exact fun n _ => rfl) rfl with
      hfin | ⟨z, hz⟩
    · -- The child has come to its end, and the frame goes on with its own directory.
      have hchldRoot : chld.HasState [] :=
        hchild.hasState (stored_frameChild ht).enter (by simp [GoodNames])
          (hasState_enter.2 (Or.inl rfl))
      have hgone : ∀ n ∈ next.names, hashFind (returned curr name chld).hsh n = none := by
        intro n hn
        have hnok : GoodName n := by
          have hp := Entries.mem_dirPaths_of_mem_names hn
          exact Entries.goodNames_of_mem_dirPaths hclean.2.2 hp n List.mem_cons_self
        have hne : n ≠ name := fun hnn => hnew (hnn ▸ hn)
        rw [find_returned ht hname chld hnok, if_neg hne]
        exact habsent'.2 n hn
      rcases ih' hret hclean.2.2 hnames (by rwa [isDone_returned hname]) hroot hgone
          hfin.rest.symm with hfin' | ⟨z, hz⟩
      · exact Or.inl (hfin.child hfin' ht hname hdir.2.2 hret hchldRoot hrest _)
      · refine Or.inr ⟨z, hz.done, List.mem_append_right _ hz.mem, ?_, hz.noState, hz.above⟩
        simp only [Trace.child, hfin.stops]
        have hle := hz.stops_le
        omega
    · exact Or.inr ⟨name :: z, hz.child ht hname hstate hrest _⟩
  | leave =>
    obtain ⟨rfl, rfl⟩ := List.cons.inj hftsp
    exact Or.inl ⟨rfl, rfl, fun p hp => absurd hp List.not_mem_nil⟩

/-! ## The clock -/

/-- **Without signals** two workers that start at the same node compute the same. -/
theorem Calm.clock (h : Calm env t man curr ftsp man' curr' ftsp') (hterm : env.sigterm = none)
    {env₂ : WorkerEnv} {t₂ : Trace} {man₂ man₂' : ForksManager} {curr₂' : Tree State}
    {ftsp₂' : Fts} (h₂ : Calm env₂ t₂ man₂ curr ftsp man₂' curr₂' ftsp₂')
    (hterm₂ : env₂.sigterm = none) (hdirs : man₂.dirs = man.dirs)
    (hfiles : man₂.files = man.files) :
    (man₂'.dirs = man'.dirs ∧ man₂'.files = man'.files) ∧ curr₂' = curr' ∧ ftsp₂' = ftsp' := by
  have hnever : ∀ {env : WorkerEnv} (tick : Nat), env.sigterm = none → env.done tick = false := by
    intro env tick hnone
    rw [WorkerEnv.done, hnone]
    rfl
  induction h generalizing t₂ man₂ man₂' curr₂' ftsp₂' with
  | leaf hinfo hrest ih =>
    cases h₂ with
    | leaf hinfo₂ hrest₂ =>
      exact ih hrest₂ (by rw [dirs_polled, dirs_polled, hdirs])
        (by rw [files_polled, files_polled, hfiles])
  | stop hdone hdir =>
    rw [hnever _ hterm] at hdone
    simp at hdone
  | skip hdone hname hcurr =>
    cases h₂ with
    | stop hdone₂ hdir₂ =>
      rw [hnever _ hterm₂] at hdone₂
      simp at hdone₂
    | skip hdone₂ hname₂ hcurr₂ =>
      simp [dirs_polled, files_polled, hdirs, hfiles]
    | child hdone₂ hname₂ hdir₂ hcurr₂ hchild₂ hrest₂ =>
      rw [hcurr] at hcurr₂
      simp at hcurr₂
  | child hdone hname hdir hcurr hchild hrest ih ih' =>
    cases h₂ with
    | stop hdone₂ hdir₂ =>
      rw [hnever _ hterm₂] at hdone₂
      simp at hdone₂
    | skip hdone₂ hname₂ hcurr₂ =>
      rw [hcurr] at hcurr₂
      simp at hcurr₂
    | child hdone₂ hname₂ hdir₂ hcurr₂ hchild₂ hrest₂ =>
      obtain ⟨⟨hd, hf⟩, rfl, rfl⟩ := ih hchild₂
        (by rw [ForksManager.dirs_ticked, ForksManager.dirs_ticked, dirs_polled, dirs_polled,
          hdirs])
        (by rw [ForksManager.files_ticked, ForksManager.files_ticked, files_polled, files_polled,
          hfiles])
      exact ih' hrest₂ hd hf
  | leave =>
    cases h₂ with
    | leave => simp [dirs_polled, files_polled, hdirs, hfiles]

end DiskAnalyzer
