import DiskAnalyzer.Concurrent
import Mathlib.Tactic.SplitIfs

/-!
# What each step can do

The inversion of the step functions: one constructor for each way through `threads_add` and
`threads_remove`, with what must hold before and the state after. The proofs about runs go through
these and not through the functions.
-/

namespace DiskAnalyzer.Concurrent

open Treap

variable {κ ρ : Type}

/-- An analysis is in `man->analyses`. -/
def Stored (s : State κ ρ) (k : κ) : Prop := ∃ e ∈ s.analyses.inorder, s.anal e.2.2 = some k

instance [DecidableEq κ] (s : State κ ρ) (k : κ) : Decidable (Stored s k) :=
  inferInstanceAs (Decidable (∃ e ∈ s.analyses.inorder, s.anal e.2.2 = some k))

/-- A pointer that can be followed leads to a live record. -/
theorem deref_eq_some {s : State κ ρ} {addr : Nat} {k : κ} (h : s.deref addr = some k) :
    s.anal addr = some k ∧ s.freed k = false := by
  unfold State.deref at h
  split at h
  · simp at h
  · rename_i w hw
    split_ifs at h with hf
    obtain rfl := Option.some.inj h
    exact ⟨hw, by simpa using hf⟩

variable [DecidableEq κ]

/-- The steps of `threads_add`. -/
inductive AddMove (pidOf : κ → Int) (s : State κ ρ) (k : κ) : AddEvent → State κ ρ → Prop
  | notDirectory : s.add k = .ready → AddMove pidOf s k .notDirectory (s.setAdd k .failed)
  | findPrefix (pc : AddPc) : s.add k = .ready →
      pc = .failed ∨ treeFindPrefix s.paths (s.heap k).path = none ∧ pc = .checked →
      AddMove pidOf s k .findPrefix (s.setAdd k pc)
  | getFreeId (rand : Option Int) (pc : AddPc) : s.add k = .checked →
      (detached (getFreeId rand s.next s.availableIds).1 = none ∧ pc = .failed ∨
        ∃ nd, detached (getFreeId rand s.next s.availableIds).1 = some nd ∧ pc = .taken nd) →
      AddMove pidOf s k (.getFreeId rand)
        (({ s with
          availableIds := (getFreeId rand s.next s.availableIds).2
          next := s.next + 1 }.setAnal s.next none).setAdd k pc)
  | attach (nd : Node) : s.add k = .taken nd →
      AddMove pidOf s k .attach ((s.setAnal nd.addr (some k)).setAdd k (.attached nd))
  | mallocFails (nd : Node) : s.add k = .attached nd →
      AddMove pidOf s k .mallocFails (s.setAdd k (.noMemory nd))
  | treeInsert (nd : Node) (alloc : Alloc) (pc : AddPc) : s.add k = .attached nd →
      ((DiskAnalyzer.treeInsert s.paths (s.heap k).path (some nd.id) alloc).1 ≠ 0 ∧
          pc = .noMemory nd ∨
        (DiskAnalyzer.treeInsert s.paths (s.heap k).path (some nd.id) alloc).1 = 0 ∧
          pc = .pathed nd) →
      AddMove pidOf s k (.treeInsert alloc)
        ({ s with paths :=
          (DiskAnalyzer.treeInsert s.paths (s.heap k).path (some nd.id) alloc).2 }.setAdd k pc)
  | giveBack (nd : Node) : s.add k = .noMemory nd ∨ s.add k = .unpathed (some nd) →
      AddMove pidOf s k .returnId ((giveBack s nd).setAdd k .failed)
  | insertNode (nd : Node) (now : Int) : s.add k = .pathed nd →
      AddMove pidOf s k (.insertNode now)
        (({ s with analyses := treapInsertNode s.analyses nd.toTreap }.modify k
          fun anal => { anal with lastStart := now }).setAdd k (.stored nd))
  | connect (nd : Node) : s.add k = .stored nd → s.pathFreed k = false →
      (treeGetPath s.paths (s.heap k).path).bind Tree.info = some nd.id →
      AddMove pidOf s k .connect
        ({ s with worker := Function.update s.worker k (.forked nd.id) }.setAdd k (.requested nd))
  | connectFails (nd : Node) : s.add k = .stored nd →
      AddMove pidOf s k .connectFails (s.setAdd k (.refused nd))
  | answer (nd : Node) : s.add k = .requested nd → s.replied k → s.freed k = false →
      AddMove pidOf s k .answer
        ((s.modify k fun anal => { anal with pid := pidOf k }).setAdd k (.answered nd))
  | answerFails (nd : Node) : s.add k = .requested nd →
      AddMove pidOf s k .answerFails (s.setAdd k (.refused nd))
  | finish (nd : Node) : s.add k = .answered nd → s.freed k = false →
      AddMove pidOf s k .finish
        (({ s with analysisCnt := s.analysisCnt + 1 }.modify k
          fun anal => { anal with status := ANALYSIS_INPROGRESS }).setAdd k .done)
  | extract (nd : Node) : s.add k = .refused nd →
      AddMove pidOf s k .extract
        ({ s with analyses := (treapExtract s.analyses nd.id).2 }.setAdd k
          (.extracted (detached (treapExtract s.analyses nd.id).1)))
  | treeRemove (trp : Option Node) : s.add k = .extracted trp → s.pathFreed k = false →
      AddMove pidOf s k .treeRemove
        ({ s with paths := (DiskAnalyzer.treeRemove s.paths (s.heap k).path).2 }.setAdd k
          (.unpathed trp))
  | release : s.add k = .failed → s.pathFreed k = false → s.freed k = false →
      AddMove pidOf s k .release
        ({ s with
          pathFreed := Function.update s.pathFreed k true
          freed := Function.update s.freed k true }.setAdd k .released)

theorem addMove_of_step {pidOf : κ → Int} {s s' : State κ ρ} {k : κ} {e : AddEvent}
    (h : addStep pidOf s k e = some s') : AddMove pidOf s k e s' := by
  unfold addStep at h
  split at h
  · obtain rfl := Option.some.inj h
    exact .notDirectory ‹_›
  · obtain rfl := Option.some.inj h
    refine .findPrefix _ ‹_› ?_
    split_ifs with hpre
    · exact Or.inl rfl
    · exact Or.inr ⟨by simpa using hpre, rfl⟩
  · dsimp only at h
    obtain rfl := Option.some.inj h
    refine .getFreeId _ _ ‹_› ?_
    cases detached (getFreeId _ s.next s.availableIds).1 with
    | none => exact Or.inl ⟨rfl, rfl⟩
    | some nd => exact Or.inr ⟨nd, rfl, rfl⟩
  · obtain rfl := Option.some.inj h
    exact .attach _ ‹_›
  · obtain rfl := Option.some.inj h
    exact .mallocFails _ ‹_›
  · dsimp only at h
    obtain rfl := Option.some.inj h
    refine .treeInsert _ _ _ ‹_› ?_
    split_ifs with hret
    · exact Or.inl ⟨hret, rfl⟩
    · exact Or.inr ⟨not_not.1 hret, rfl⟩
  · obtain rfl := Option.some.inj h
    exact .giveBack _ (Or.inl ‹_›)
  · obtain rfl := Option.some.inj h
    exact .insertNode _ _ ‹_›
  · split_ifs at h with hlive
    obtain rfl := Option.some.inj h
    exact .connect _ ‹_› hlive.1 hlive.2
  · obtain rfl := Option.some.inj h
    exact .connectFails _ ‹_›
  · split_ifs at h with hlive
    obtain rfl := Option.some.inj h
    exact .answer _ ‹_› hlive.1 hlive.2
  · obtain rfl := Option.some.inj h
    exact .answerFails _ ‹_›
  · split_ifs at h with hfreed
    obtain rfl := Option.some.inj h
    exact .finish _ ‹_› (by simpa using hfreed)
  · obtain rfl := Option.some.inj h
    exact .extract _ ‹_›
  · split_ifs at h with hfreed
    obtain rfl := Option.some.inj h
    exact .treeRemove _ ‹_› (by simpa using hfreed)
  · obtain rfl := Option.some.inj h
    exact .giveBack _ (Or.inr ‹_›)
  · split_ifs at h with hfreed
    obtain rfl := Option.some.inj h
    obtain ⟨hpath, hrecord⟩ := not_or.1 hfreed
    exact .release ‹_› (by simpa using hpath) (by simpa using hrecord)
  · contradiction

variable [DecidableEq ρ]

/-- The steps of `threads_remove`. -/
inductive RemoveMove (pidOf : κ → Int) (s : State κ ρ) (r : Option ρ) :
    RemoveEvent → State κ ρ → Prop
  | call (id : Int) : s.remove r = .idle → r ≠ none →
      RemoveMove pidOf s r (.call id) (s.setRemove r (.called id))
  | extractNone (id : Int) : s.remove r = .called id →
      detached (treapExtract s.analyses id).1 = none →
      RemoveMove pidOf s r .extract (leave { s with analyses := (treapExtract s.analyses id).2 } r)
  | extract (id : Int) (trp : Node) : s.remove r = .called id →
      detached (treapExtract s.analyses id).1 = some trp →
      RemoveMove pidOf s r .extract
        ({ s with
          analyses := (treapExtract s.analyses id).2
          analysisCnt := s.analysisCnt - 1 }.setRemove r (.extracted trp))
  | unlink (trp : Node) : s.remove r = .extracted trp →
      RemoveMove pidOf s r .unlink
        ({ s with file := Function.update s.file trp.id .absent }.setRemove r (.unlinked trp))
  | signal (trp : Node) (k : κ) (interrupted : κ → Bool) : s.remove r = .unlinked trp →
      s.deref trp.addr = some k →
      (interrupted = fun w => s.interrupted w ||
        ((s.heap k).pid ≠ -1 && pidOf w = (s.heap k).pid && (s.worker w).alive)) →
      RemoveMove pidOf s r .signal ({ s with interrupted }.setRemove r (.signalled trp))
  | treeRemove (trp : Node) (k : κ) : s.remove r = .signalled trp → s.deref trp.addr = some k →
      s.pathFreed k = false →
      RemoveMove pidOf s r .treeRemove
        ({ s with paths := (DiskAnalyzer.treeRemove s.paths (s.heap k).path).2 }.setRemove r
          (.unpathed trp))
  | insertNode (trp : Node) : s.remove r = .unpathed trp →
      RemoveMove pidOf s r .insertNode
        ({ s with availableIds := treapInsertNode s.availableIds trp.toTreap }.setRemove r
          (.given trp))
  | report (trp : Node) (k : κ) : s.remove r = .given trp → s.deref trp.addr = some k →
      s.pathFreed k = false → RemoveMove pidOf s r .report (s.setRemove r (.reported trp))
  | freePath (trp : Node) (k : κ) : s.remove r = .reported trp → s.deref trp.addr = some k →
      s.pathFreed k = false →
      RemoveMove pidOf s r .freePath
        ({ s with pathFreed := Function.update s.pathFreed k true }.setRemove r (.pathFreed trp))
  | freeRecord (trp : Node) (k : κ) : s.remove r = .pathFreed trp → s.deref trp.addr = some k →
      RemoveMove pidOf s r .freeRecord
        ({ s with freed := Function.update s.freed k true }.setRemove r (.recordFreed trp))
  | clear (trp : Node) : s.remove r = .recordFreed trp →
      RemoveMove pidOf s r .clear (leave (s.setAnal trp.addr none) r)

theorem removeMove_of_step {pidOf : κ → Int} {s s' : State κ ρ} {r : Option ρ} {e : RemoveEvent}
    (h : removeStep pidOf s r e = some s') : RemoveMove pidOf s r e s' := by
  unfold removeStep at h
  split at h
  · split_ifs at h with hr
    obtain rfl := Option.some.inj h
    exact .call _ ‹_› hr
  · dsimp only at h
    split at h
    · obtain rfl := Option.some.inj h
      exact .extractNone _ ‹_› ‹_›
    · obtain rfl := Option.some.inj h
      exact .extract _ _ ‹_› ‹_›
  · obtain rfl := Option.some.inj h
    exact .unlink _ ‹_›
  · obtain ⟨k, hk, rfl⟩ := Option.map_eq_some_iff.1 h
    exact .signal _ k _ ‹_› hk rfl
  · obtain ⟨k, hk, h⟩ := Option.bind_eq_some_iff.1 h
    split_ifs at h with hp
    obtain rfl := Option.some.inj h
    exact .treeRemove _ k ‹_› hk (by simpa using hp)
  · obtain rfl := Option.some.inj h
    exact .insertNode _ ‹_›
  · obtain ⟨k, hk, h⟩ := Option.bind_eq_some_iff.1 h
    split_ifs at h with hp
    obtain rfl := Option.some.inj h
    exact .report _ k ‹_› hk (by simpa using hp)
  · obtain ⟨k, hk, h⟩ := Option.bind_eq_some_iff.1 h
    split_ifs at h with hp
    obtain rfl := Option.some.inj h
    exact .freePath _ k ‹_› hk (by simpa using hp)
  · obtain ⟨k, hk, rfl⟩ := Option.map_eq_some_iff.1 h
    exact .freeRecord _ k ‹_› hk
  · obtain rfl := Option.some.inj h
    exact .clear _ ‹_›
  · contradiction

/-- The steps of `threads_read_results`. -/
inductive ResultsMove (s : State κ ρ) : ResultsEvent → State κ ρ → Prop
  | readFailed (i : Nat) (m : Message κ) : s.results = .accepting → s.msgs[i]? = some m →
      m.result = .failed →
      ResultsMove s (.read i) ({ s with
        msgs := s.msgs.eraseIdx i, results := .removing m }.setRemove none (.called m.id))
  | read (i : Nat) (m : Message κ) : s.results = .accepting → s.msgs[i]? = some m →
      m.result ≠ .failed →
      ResultsMove s (.read i) { s with msgs := s.msgs.eraseIdx i, results := .got m }
  | readFails (i : Nat) : s.results = .accepting →
      ResultsMove s (.readFails i) { s with msgs := s.msgs.eraseIdx i }
  | applyNone (m : Message κ) (now : Int) : s.results = .got m →
      treapFind s.analyses m.id = none →
      ResultsMove s (.apply now) { s with results := .accepting }
  | apply (m : Message κ) (now : Int) (addr : Nat) (k : κ) : s.results = .got m →
      treapFind s.analyses m.id = some addr → s.deref addr = some k →
      ResultsMove s (.apply now) ({ s with results := .accepting }.modify k (applied m now))

theorem resultsMove_of_step {s s' : State κ ρ} {e : ResultsEvent}
    (h : resultsStep s e = some s') : ResultsMove s e s' := by
  unfold resultsStep at h
  split at h
  · obtain ⟨m, hm, rfl⟩ := Option.map_eq_some_iff.1 h
    dsimp only
    split_ifs with hfailed
    · exact .readFailed _ m ‹_› hm hfailed
    · exact .read _ m ‹_› hm hfailed
  · split_ifs at h
    obtain rfl := Option.some.inj h
    exact .readFails _ ‹_›
  · split at h
    · obtain rfl := Option.some.inj h
      exact .applyNone _ _ ‹_› ‹_›
    · obtain ⟨k, hk, rfl⟩ := Option.map_eq_some_iff.1 h
      exact .apply _ _ _ k ‹_› ‹_› hk
  · contradiction

/-! ## Runs by execution -/

/-- Take the steps that exist and meet a condition. -/
def follow (pidOf : κ → Int) (ok : State κ ρ → Event κ ρ → Bool) (s : State κ ρ)
    (es : List (Event κ ρ)) : Option (State κ ρ) :=
  es.foldlM (fun s e => if ok s e then exec pidOf s e else none) s

/-- Where that leads. -/
def followed (pidOf : κ → Int) (ok : State κ ρ → Event κ ρ → Bool) (s : State κ ρ)
    (es : List (Event κ ρ)) : State κ ρ := (follow pidOf ok s es).getD s

/-- What is followed is a run, with all its steps meeting what the condition checks. -/
theorem run_of_follow {pidOf : κ → Int} {ok : State κ ρ → Event κ ρ → Bool}
    {P : State κ ρ → Event κ ρ → Prop} (hP : ∀ s e, ok s e → P s e) {s : State κ ρ}
    {es : List (Event κ ρ)} (h : (follow pidOf ok s es).isSome) :
    Lts.Run ((system pidOf).guard P).step s es (followed pidOf ok s es) :=
  (system pidOf).run_followed (f := exec pidOf) (fun _ _ _ hstep => hstep) hP h

/-- The same without a condition. -/
theorem run_of_follow_all {pidOf : κ → Int} {s : State κ ρ} {es : List (Event κ ρ)}
    (h : (follow pidOf (fun _ _ => true) s es).isSome) :
    Lts.Run (system pidOf).step s es (followed pidOf (fun _ _ => true) s es) :=
  (system pidOf).run_followed_all (f := exec pidOf) (fun _ _ _ hstep => hstep) h

/-- One step by execution. -/
def stepped (pidOf : κ → Int) (s : State κ ρ) (e : Event κ ρ) : State κ ρ :=
  (exec pidOf s e).getD s

theorem step_stepped {pidOf : κ → Int} {s : State κ ρ} {e : Event κ ρ}
    (h : (exec pidOf s e).isSome) : (system pidOf).step s e (stepped pidOf s e) := by
  obtain ⟨t, ht⟩ := Option.isSome_iff_exists.1 h
  rw [stepped, ht]
  exact ht

/-- An empty manager, add 0 being for `/a` and all others for `/b`. -/
def twoAdds : State Nat Nat := emptyManager 5 fun k => if k = 0 then str "/a" else str "/b"

/-- The workers' pids. -/
def pids (k : Nat) : Int := k + 100

/-- An add up to the reply of its worker, and the rest of it. -/
def addUntilPid (k : κ) (rand : Int) : List (Event κ ρ) :=
  [.add k .findPrefix, .add k (.getFreeId (some rand)), .add k .attach,
    .add k (.treeInsert none), .add k (.insertNode 10), .add k .connect, .work k .sendPid true]

def addFinish (k : κ) : List (Event κ ρ) := [.add k .answer, .add k .finish]

/-- A worker's traversal, and its announcement. -/
def traverse (k : κ) : List (Event κ ρ) :=
  [.work k .readProgress true, .work k .checkInterrupted true, .work k .solveEnds true,
    .work k .checkInterrupted true, .work k (.announce 3 5) true]

/-! ## Frames -/

/-- `threads_remove` writes to no record and moves no add. -/
theorem RemoveMove.frame {pidOf : κ → Int} {s s' : State κ ρ} {r : Option ρ} {e : RemoveEvent}
    (h : RemoveMove pidOf s r e s') : s'.heap = s.heap ∧ s'.add = s.add ∧ s'.msgs = s.msgs := by
  cases h with
  | extractNone id hpc hnone => cases r <;> exact ⟨rfl, rfl, rfl⟩
  | clear trp hpc => cases r <;> exact ⟨rfl, rfl, rfl⟩
  | _ => exact ⟨rfl, rfl, rfl⟩

/-- The results thread moves no add. -/
theorem ResultsMove.frame {s s' : State κ ρ} {e : ResultsEvent} (h : ResultsMove s e s') :
    s'.add = s.add := by
  cases h <;> rfl

end DiskAnalyzer.Concurrent
