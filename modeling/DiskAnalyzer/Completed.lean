import DiskAnalyzer.ConcurrentProof

/-!
# A completed analysis stays completed

Two sections write `status`: the last one of `threads_add` sets `ANALYSIS_INPROGRESS`, and
`threads_read_results` sets `ANALYSIS_COMPLETE` when it applies a `'1'`. They are ordered only by
the time they take: a worker replies with its pid before it traverses, and the add runs its last
section after it has read that pid.

The invariant `Settled` says that a completed analysis belongs to an add that will not run its last
section any more. It is kept by the runs in which no `'1'` overtakes an add.
-/

namespace DiskAnalyzer.Concurrent

open Treap

variable {κ ρ : Type} {pidOf : κ → Int} {s s' : State κ ρ} {k : κ}

/-- `threads_add` will not run its last section any more. -/
def AddPc.settled : AddPc → Bool
  | noMemory _ | refused _ | extracted _ | unpathed _ | failed | released | done => true
  | _ => false

/-- The analysis that the results thread is about to complete. -/
def State.completing (s : State κ ρ) : Option κ :=
  match s.results with
  | .got m => if m.result = .complete then (treapFind s.analyses m.id).bind s.anal else none
  | _ => none

/-- The worker's `'1'` is not applied before the add that waits for its pid is through. -/
def AddsFirst (s : State κ ρ) : Event κ ρ → Prop
  | .results (.apply _) => ∀ k ∈ s.completing, (s.add k).settled
  | _ => True

instance (s : State κ ρ) (e : Event κ ρ) : Decidable (AddsFirst s e) := by
  unfold AddsFirst
  split <;> infer_instance

def Complete (s : State κ ρ) (k : κ) : Prop := (s.heap k).status = ANALYSIS_COMPLETE

def Settled (s : State κ ρ) : Prop := ∀ k, Complete s k → (s.add k).settled

theorem Loaded.settled (h : Loaded pidOf s) : Settled s := by
  intro k hk
  rcases h.add k with hdone | ⟨-, hpending, -⟩
  · rw [hdone]
    rfl
  · rw [Complete, hpending] at hk
    exact absurd hk (by decide)

variable [DecidableEq κ]

/-- What a write to the record of `k` that leaves `status` alone does. -/
theorem complete_update {f : Analysis → Analysis}
    (hf : (f (s.heap k)).status = (s.heap k).status) (w : κ) :
    (Function.update s.heap k (f (s.heap k)) w).status = (s.heap w).status := by
  by_cases hw : w = k
  · subst hw
    rw [Function.update_self, hf]
  · rw [Function.update_of_ne hw]

theorem settled_update {pc : AddPc} (hpc : (s.add k).settled → pc.settled) (w : κ) :
    (s.add w).settled → (Function.update s.add k pc w).settled := by
  intro hset
  by_cases hw : w = k
  · subst hw
    rw [Function.update_self]
    exact hpc hset
  · rwa [Function.update_of_ne hw]

/-! ## Who writes `status` -/

/-- **Adds** leave a completed analysis completed, complete none, and stay settled: the last
section is run by an add that is not settled. -/
theorem AddMove.status {e : AddEvent} (h : AddMove pidOf s k e s') (hs : Settled s) (w : κ) :
    (Complete s' w ↔ Complete s w) ∧ ((s.add w).settled → (s'.add w).settled) := by
  have quiet : ∀ {s₁ : State κ ρ} {pc : AddPc}, (∀ w, (s₁.heap w).status = (s.heap w).status) →
      s₁.add = Function.update s.add k pc → ((s.add k).settled → pc.settled) →
      (Complete s₁ w ↔ Complete s w) ∧ ((s.add w).settled → (s₁.add w).settled) := by
    intro s₁ pc hheap hadd hpc
    refine ⟨by rw [Complete, Complete, hheap w], ?_⟩
    rw [hadd]
    exact settled_update hpc w
  cases h with
  | finish nd hpc hfreed =>
    -- An add that is about to run its last section has no completed analysis.
    have hk : ¬ Complete s k := fun hc => by
      have hset := hs k hc
      rw [hpc] at hset
      exact absurd hset (by simp [AddPc.settled])
    refine ⟨?_, settled_update (fun _ => rfl) w⟩
    by_cases hw : w = k
    · subst hw
      refine ⟨fun hc => ?_, fun hc => absurd hc hk⟩
      simp only [Complete, State.modify, State.setAdd, Function.update_self] at hc
      exact absurd hc (by decide)
    · simp only [Complete, State.modify, State.setAdd, Function.update_of_ne hw]
  | insertNode nd now hpc =>
    exact quiet (complete_update (f := fun anal => { anal with lastStart := now }) rfl) rfl
      (by simp [hpc, AddPc.settled])
  | answer nd hpc hreplied hfreed =>
    exact quiet (complete_update (f := fun anal => { anal with pid := pidOf k }) rfl) rfl
      (by simp [hpc, AddPc.settled])
  | getFreeId rand pc hpc hres => exact quiet (fun _ => rfl) rfl (by simp [hpc, AddPc.settled])
  | findPrefix pc hpc hres => exact quiet (fun _ => rfl) rfl (by simp [hpc, AddPc.settled])
  | treeInsert nd alloc pc hpc hres =>
    exact quiet (fun _ => rfl) rfl (by simp [hpc, AddPc.settled])
  | _ => exact quiet (fun _ => rfl) rfl (by simp_all [AddPc.settled])

variable [DecidableEq ρ]

/-- **Results** complete the analyses of settled adds only, and undo nothing. -/
theorem ResultsMove.status {e : ResultsEvent} (h : ResultsMove s e s')
    (hok : AddsFirst s (.results e : Event κ ρ)) (w : κ) :
    (Complete s w → Complete s' w) ∧ (Complete s' w → Complete s w ∨ (s.add w).settled) := by
  cases h with
  | apply m now addr k hgot hfind hderef =>
    by_cases hw : w = k
    · subst hw
      simp only [Complete, State.modify, Function.update_self, applied]
      split_ifs with hm
      · have hcompleting : w ∈ s.completing := by
          simp [State.completing, hgot, hm, hfind, (deref_eq_some hderef).1]
        exact ⟨fun _ => rfl, fun _ => Or.inr (hok w hcompleting)⟩
      · exact ⟨id, Or.inl⟩
    · simp only [Complete, State.modify, Function.update_of_ne hw]
      exact ⟨id, Or.inl⟩
  | _ => exact ⟨id, Or.inl⟩

/-- **One step** in which no `'1'` overtakes an add. -/
theorem settled_step {e : Event κ ρ} (hs : Settled s) (h : (system pidOf).step s e s')
    (hok : AddsFirst s e) : Settled s' ∧ ∀ w, Complete s w → Complete s' w := by
  cases e with
  | add k e =>
    have hmove := addMove_of_step h
    refine ⟨fun w hc => ?_, fun w hc => ((hmove.status hs w).1).2 hc⟩
    obtain ⟨hiff, hset⟩ := hmove.status hs w
    exact hset (hs w (hiff.1 hc))
  | remove r e =>
    obtain ⟨hheap, hadd, -⟩ := (removeMove_of_step h).frame
    unfold Settled Complete
    rw [hheap, hadd]
    exact ⟨hs, fun _ => id⟩
  | work k e delivered =>
    obtain ⟨pc, -, rfl⟩ := Option.map_eq_some_iff.1 h
    exact ⟨hs, fun _ => id⟩
  | results e =>
    have hmove := resultsMove_of_step h
    refine ⟨fun w hc => ?_, fun w hc => (hmove.status hok w).1 hc⟩
    rw [hmove.frame]
    rcases (hmove.status hok w).2 hc with hw | hw
    · exact hs w hw
    · exact hw

theorem settled_of_reachable (h : ((system pidOf).guard AddsFirst).Reachable s) : Settled s := by
  refine Lts.System.Reachable.invariant (I := Settled) (?_) (?_) h
  · intro s₀ h₀
    exact Loaded.settled (show Loaded pidOf s₀ from h₀)
  · intro s₁ e s₂ hs hstep
    exact (settled_step hs hstep.1 hstep.2).1

/-- **A completed analysis stays completed** in every run in which no `'1'` overtakes an add. -/
theorem complete_stays {t : State κ ρ} {es : List (Event κ ρ)}
    (hs : ((system pidOf).guard AddsFirst).Reachable s)
    (hrun : Lts.Run ((system pidOf).guard AddsFirst).step s es t) (hc : Complete s k) :
    Complete t k := by
  have hboth : Settled t ∧ Complete t k := by
    refine hrun.invariant (I := fun t => Settled t ∧ Complete t k) (fun s₁ e s₂ h₁ hstep => ?_)
      ⟨settled_of_reachable hs, hc⟩
    obtain ⟨hset, hkeep⟩ := settled_step h₁.1 hstep.1 hstep.2
    exact ⟨hset, hkeep k h₁.2⟩
  exact hboth.2

/-- An add, its worker's traversal and its `'1'`, in the usual order. -/
def usualOrder : List (Event Nat Nat) :=
  addUntilPid 0 7 ++ addFinish 0 ++ traverse 0 ++ [.results (.read 0), .results (.apply 20)]

/-- The `'1'` is applied while the add still reads the pid. -/
def overtaking : List (Event Nat Nat) :=
  addUntilPid 0 7 ++ traverse 0 ++ [.results (.read 0), .results (.apply 20)]

/-- Whether a step meets the condition. -/
def addsFirst (s : State Nat Nat) (e : Event Nat Nat) : Bool := AddsFirst s e

theorem complete_stays_usual :
    Complete (followed pids addsFirst (followed pids addsFirst twoAdds usualOrder)
      (addUntilPid 1 3)) 0 := by
  have hok : ∀ s e, addsFirst s e → AddsFirst s e := fun _ _ h => of_decide_eq_true h
  exact complete_stays ⟨twoAdds, usualOrder, loaded_emptyManager pids 5 _,
    run_of_follow hok (by decide +kernel)⟩ (run_of_follow hok (by decide +kernel))
    (show (State.heap _ 0).status = _ by decide +kernel)

/-- The last section of an add runs after the `'1'` of its worker has been applied. -/
theorem completed_overwritten :
    ∃ s t : State Nat Nat, (system pids).Reachable s ∧
      Lts.Run (system pids).step s (addFinish 0) t ∧ Complete s 0 ∧ Stored s 0 ∧ Stored t 0 ∧
        (t.heap 0).status = ANALYSIS_INPROGRESS := by
  have hfollow : (follow pids (fun _ _ => true) twoAdds overtaking).isSome := by decide +kernel
  have hrun := run_of_follow_all hfollow
  refine ⟨_, _, ⟨twoAdds, overtaking, loaded_emptyManager pids 5 _, hrun⟩,
    run_of_follow_all (by decide +kernel), ?_, ?_, ?_, ?_⟩
  · exact show (State.heap _ 0).status = _ by decide +kernel
  · decide +kernel
  · decide +kernel
  · decide +kernel

end DiskAnalyzer.Concurrent
