import DiskAnalyzer.Attached
import DiskAnalyzer.Lib.Tally

/-!
# The count a list request announces

`threads_get_all` sends `analysis_cnt` and then one record for each node of `man->analyses`, and the
client reads as many records as were announced. `threads_add` puts its node into the store in one
section and counts it in another, with the fork request in between; `threads_remove` takes out and
uncounts in one.

* `AddPc.uncounted`: where a node has come into the store that is not counted. An add whose node a
  removal has taken out stays there.
* `Lags`: the count and the number of these adds make up the number of nodes. Every step keeps it.

So the count is right at the very moments at which no add is uncounted.
-/

namespace DiskAnalyzer.Concurrent

open Treap

variable {κ ρ β : Type}

/-! ## The request and its client -/

/-- What `threads_get_all` sends when every `send` succeeds: the count, and the records. -/
def threadsGetAll (s : State κ ρ) : Int × List (Int × Nat) :=
  (s.analysisCnt, (threadsShowInOrder (fun _ _ => false) s.analyses).1)

/-- The rounds of the client's loop. At the end of the stream `client_read_string` reads nothing,
for ever. -/
def readRecords : Nat → List β → Option (List β)
  | 0, _ => some []
  | _ + 1, [] => none
  | cnt + 1, record :: records => (readRecords cnt records).map (record :: ·)

/-- `while (cnt--)`: a negative count does not come to 0. -/
def clientReads (cnt : Int) (records : List β) : Option (List β) :=
  if cnt < 0 then none else readRecords cnt.toNat records

theorem readRecords_eq_self (cnt : Nat) (records : List β) :
    readRecords cnt records = some records ↔ cnt = records.length := by
  induction records generalizing cnt with
  | nil => cases cnt <;> simp [readRecords]
  | cons record records ih =>
    cases cnt with
    | zero => simp [readRecords]
    | succ cnt => simp [readRecords, ih]

/-- The client reads all records and comes to its end when their number is announced. -/
theorem clientReads_eq_self (cnt : Int) (records : List β) :
    clientReads cnt records = some records ↔ cnt = records.length := by
  rw [clientReads]
  split_ifs with hneg
  · constructor
    · simp
    · omega
  · rw [readRecords_eq_self]
    omega

theorem length_threadsGetAll (s : State κ ρ) : (threadsGetAll s).2.length = s.analyses.size := by
  rw [threadsGetAll, showInOrder_eq, List.length_map, size_eq_length]

/-! ## Nodes that are not counted -/

/-- The add has put its node into the store, and has neither counted it nor taken a node out. -/
def AddPc.uncounted : AddPc → Bool
  | stored _ | requested _ | answered _ | refused _ => true
  | extracted none | unpathed none => true
  | _ => false

/-- **The count lags behind the store** by the adds that have not counted their nodes. -/
def Lags (s : State κ ρ) : Prop :=
  Tally (s.analyses.size - s.analysisCnt) fun k => (s.add k).uncounted = true

variable {pidOf : κ → Int} {s s' : State κ ρ} {k : κ}

theorem Loaded.lags (h : Loaded pidOf s) : Lags s := by
  rw [Lags, h.cnt, Int.sub_self]
  refine Tally.zero ?_
  intro k
  rcases h.add k with hpc | ⟨hpc, -⟩ <;> simp [hpc, AddPc.uncounted]

theorem size_extract_cases (t : Treap Nat) (id : Int) :
    detached (treapExtract t id).1 = none ∧ (treapExtract t id).2.size = t.size ∨
      ∃ nd, detached (treapExtract t id).1 = some nd ∧ t.size = (treapExtract t id).2.size + 1 := by
  rcases extract_nodes t id with ⟨hnone, hin⟩ | ⟨nd, hsome, -, hperm⟩
  · exact Or.inl ⟨hnone, by rw [size_eq_length, size_eq_length, hin]⟩
  · refine Or.inr ⟨nd, hsome, ?_⟩
    rw [size_eq_length, size_eq_length, hperm.length_eq, List.length_cons]

/-! ## Steps -/

variable [DecidableEq κ]

theorem AddMove.lags {e : AddEvent} (h : AddMove pidOf s k e s') (hl : Lags s) : Lags s' := by
  have hrest : ∀ w, w ≠ k → ((s'.add w).uncounted = true ↔ (s.add w).uncounted = true) := by
    intro w hw
    rw [h.add_ne hw]
  -- A step that neither puts a node in nor counts or takes out one.
  have same : s'.analyses.size - s'.analysisCnt = s.analyses.size - s.analysisCnt →
      (s'.add k).uncounted = (s.add k).uncounted → Lags s' := by
    intro hcnt hself
    rw [Lags, hcnt]
    refine hl.congr ?_
    intro w
    by_cases hw : w = k
    · rw [hw, hself]
    · exact hrest w hw
  cases h with
  | findPrefix pc hpc hres =>
    refine same rfl ?_
    rcases hres with rfl | ⟨-, rfl⟩ <;> simp [State.setAdd, hpc, AddPc.uncounted]
  | getFreeId rand pc hpc hres =>
    refine same rfl ?_
    rcases hres with ⟨-, rfl⟩ | ⟨nd, -, rfl⟩ <;> simp [State.setAdd, hpc, AddPc.uncounted]
  | treeInsert nd alloc pc hpc hres =>
    refine same rfl ?_
    rcases hres with ⟨-, rfl⟩ | ⟨-, rfl⟩ <;> simp [State.setAdd, hpc, AddPc.uncounted]
  | giveBack nd hpc =>
    refine same rfl ?_
    rcases hpc with hpc | hpc <;> simp [State.setAdd, hpc, AddPc.uncounted]
  | treeRemove trp hpc hlive =>
    refine same rfl ?_
    cases trp <;> simp [State.setAdd, hpc, AddPc.uncounted]
  | insertNode nd now hpc =>
    have hsize : (treapInsertNode s.analyses nd.toTreap).size = s.analyses.size + 1 :=
      size_insertNode _ _ _ _
    have hcnt : ((treapInsertNode s.analyses nd.toTreap).size : Int) - s.analysisCnt =
        s.analyses.size - s.analysisCnt + 1 := by omega
    refine Tally.enter hl (a := k) hcnt ?_ ?_ hrest
    · simp [hpc, AddPc.uncounted]
    · simp [State.setAdd, AddPc.uncounted]
  | finish nd hpc hfreed =>
    have hcnt : (s.analyses.size : Int) - (s.analysisCnt + 1) =
        s.analyses.size - s.analysisCnt - 1 := by omega
    refine Tally.leave hl (a := k) hcnt ?_ ?_ hrest
    · simp [hpc, AddPc.uncounted]
    · simp [State.setAdd, AddPc.uncounted]
  | extract nd hpc =>
    rcases size_extract_cases s.analyses nd.id with ⟨hnone, hsize⟩ | ⟨nd', hsome, hsize⟩
    · -- A removal has been there before: the add stays uncounted.
      refine same ?_ ?_
      · simp only [State.setAdd, hsize]
      · simp [State.setAdd, hnone, hpc, AddPc.uncounted]
    · have hcnt : ((treapExtract s.analyses nd.id).2.size : Int) - s.analysisCnt =
          s.analyses.size - s.analysisCnt - 1 := by omega
      refine Tally.leave hl (a := k) hcnt ?_ ?_ hrest
      · simp [hpc, AddPc.uncounted]
      · simp [State.setAdd, hsome, AddPc.uncounted]
  | _ => exact same rfl (by simp_all [State.setAdd, AddPc.uncounted])

variable [DecidableEq ρ]

theorem RemoveMove.lags {r : Option ρ} {e : RemoveEvent} (h : RemoveMove pidOf s r e s')
    (hl : Lags s) : Lags s' := by
  obtain ⟨-, hadd, -⟩ := h.frame
  have same : s'.analyses.size - s'.analysisCnt = s.analyses.size - s.analysisCnt → Lags s' := by
    intro hcnt
    rw [Lags, hcnt, hadd]
    exact hl
  cases h with
  | extractNone id hpc hnone =>
    rcases size_extract_cases s.analyses id with ⟨-, hsize⟩ | ⟨nd, hsome, -⟩
    · refine same ?_
      cases r <;> simp [leave, State.setRemove, hsize]
    · simp [hnone] at hsome
  | extract id trp hpc hsome =>
    rcases size_extract_cases s.analyses id with ⟨hnone, -⟩ | ⟨nd, -, hsize⟩
    · simp [hsome] at hnone
    · refine same ?_
      simp only [State.setRemove]
      omega
  | clear trp hpc => cases r <;> exact same rfl
  | _ => exact same rfl

/-- **One step.** -/
theorem lags_step {e : Event κ ρ} (hl : Lags s) (h : (system pidOf).step s e s') : Lags s' := by
  cases e with
  | add k e => exact (addMove_of_step h).lags hl
  | remove r e => exact (removeMove_of_step h).lags hl
  | work k e delivered =>
    obtain ⟨pc, -, rfl⟩ := Option.map_eq_some_iff.1 h
    exact hl
  | results e =>
    have hmove := resultsMove_of_step h
    rw [Lags, hmove.frame]
    cases hmove <;> exact hl

theorem lags_of_reachable (h : (system pidOf).Reachable s) : Lags s := by
  refine h.invariant (I := Lags) ?_ ?_
  · intro s₀ h₀
    exact Loaded.lags (show Loaded pidOf s₀ from h₀)
  · intro s₁ e s₂ h₁ hstep
    exact lags_step h₁ hstep

/-- **The count is the number of nodes when no add is uncounted**, and at no other moment; then it
is not negative and the client reads all the records that follow it and comes to its end. -/
theorem count_eq_size_iff (h : (system pidOf).Reachable s) :
    (s.analysisCnt = s.analyses.size ∧ 0 ≤ (threadsGetAll s).1 ∧
        clientReads (threadsGetAll s).1 (threadsGetAll s).2 = some (threadsGetAll s).2) ↔
      ∀ k, (s.add k).uncounted = false := by
  have hzero := (lags_of_reachable h).eq_zero_iff
  rw [clientReads_eq_self, length_threadsGetAll, threadsGetAll]
  simp only [Bool.not_eq_true] at hzero
  rw [← hzero]
  constructor
  · rintro ⟨heq, -⟩
    omega
  · intro hsub
    have heq : s.analysisCnt = s.analyses.size := by omega
    exact ⟨heq, by omega, heq⟩

/-- An empty manager with two adds to come. -/
def oneMoreAdd : State Bool Unit := emptyManager 5 fun k => if k then str "/b" else str "/a"

def boolPids (k : Bool) : Int := if k then 101 else 100

/-- A whole removal. -/
def removalOf (id : Int) : List (Event Bool Unit) :=
  [.call id, .extract, .unlink, .signal, .treeRemove, .insertNode, .report, .freePath, .freeRecord,
    .clear].map (.remove (some ()))

/-- One add, and the beginning of the other. -/
def addedOne : List (Event Bool Unit) :=
  addUntilPid false 7 ++ addFinish false ++ (addUntilPid true 3).take 4

theorem count_eq_size_iff_addedOne :
    clientReads (threadsGetAll (followed boolPids (fun _ _ => true) oneMoreAdd addedOne)).1
        (threadsGetAll (followed boolPids (fun _ _ => true) oneMoreAdd addedOne)).2 =
      some (threadsGetAll (followed boolPids (fun _ _ => true) oneMoreAdd addedOne)).2 := by
  have hfollow : (follow boolPids (fun _ _ => true) oneMoreAdd addedOne).isSome := by
    decide +kernel
  have hrun := run_of_follow_all hfollow
  have hreach : (system boolPids).Reachable _ :=
    ⟨oneMoreAdd, addedOne, loaded_emptyManager boolPids 5 _, hrun⟩
  exact ((count_eq_size_iff hreach).2 (by decide +kernel)).2.2

/-- A list request between the two sections of an add: one record is sent and none announced. A
removal in between: the announced count is -1, and the client does not come to its end. -/
theorem count_lags_size :
    ∃ s t : State Nat Nat, (system pids).Reachable s ∧ s.analysisCnt = 0 ∧ s.analyses.size = 1 ∧
      (threadsGetAll s).2.length = 1 ∧ (system pids).Reachable t ∧ t.analysisCnt = -1 ∧
      t.analyses.size = 0 ∧ clientReads (threadsGetAll t).1 (threadsGetAll t).2 = none := by
  have hfollow : (follow pids (fun _ _ => true) twoAdds (addUntilPid 0 7)).isSome := by
    decide +kernel
  have hfollow' : (follow pids (fun _ _ => true) twoAdds (addUntilPid 0 7 ++
      [.remove (some 0) (.call 1), .remove (some 0) .extract])).isSome := by
    decide +kernel
  have hrun := run_of_follow_all hfollow
  have hrun' := run_of_follow_all hfollow'
  refine ⟨_, _, ⟨twoAdds, _, loaded_emptyManager pids 5 _, hrun⟩, ?_, ?_, ?_,
    ⟨twoAdds, _, loaded_emptyManager pids 5 _, hrun'⟩, ?_, ?_, ?_⟩
  all_goals decide +kernel

end DiskAnalyzer.Concurrent
