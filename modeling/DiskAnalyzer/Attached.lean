import DiskAnalyzer.Delivery
import DiskAnalyzer.TreeProof

/-!
# Which analysis a node is attached to

The field `anal` of a node is written by one add, when it attaches its analysis to the node it has
taken, and cleared by `return_id` and at the end of `threads_remove`. So an analysis is attached
to one node at most, the one its add has taken, whatever the order of steps (`Attached`).
-/

namespace DiskAnalyzer.Concurrent

open Treap

variable {κ ρ : Type}

/-- The worker that wrote a file. -/
def File.writer : File κ → Option κ
  | absent | empty => none
  | progress w | report w => some w

/-- `Loaded`, with what `threads_startup` makes of the ids, the trie and the fields: no two stored
analyses have one id, no free node has an analysis, and every file is of a stored analysis. -/
structure Started (pidOf : κ → Int) (s : State κ ρ) : Prop extends Loaded pidOf s where
  ordered : s.analyses.Ordered
  good : s.paths.Good
  attached : ∀ n k, s.anal n = some k → n ∈ addrs s.analyses
  files : ∀ id w, (s.file id).writer = some w →
    ∃ h n, (id, h, n) ∈ s.analyses.inorder ∧ s.anal n = some w

theorem started_emptyManager (pidOf : κ → Int) (rand : Int) (path : κ → Bytes) :
    Started pidOf (emptyManager rand path : State κ ρ) where
  toLoaded := loaded_emptyManager pidOf rand path
  ordered := ordered_nil
  good := Tree.good_treeInit
  attached := by simp [emptyManager]
  files := by simp [emptyManager, File.writer]

/-- The parties run in any order, from a manager that has started. -/
def started (pidOf : κ → Int) [DecidableEq κ] [DecidableEq ρ] :
    Lts.System (State κ ρ) (Event κ ρ) where
  init := Started pidOf
  step := (system pidOf).step

variable {pidOf : κ → Int} {s s' : State κ ρ} {k : κ}

/-! ## Where an add's analysis can be -/

/-- The node an add's analysis can be attached to, as far as the add can tell. -/
def AddPc.At : AddPc → Nat → Prop
  | ready, _ | checked, _ | taken _, _ => False
  | attached nd, n | noMemory nd, n | pathed nd, n | stored nd, n | requested nd, n
  | answered nd, n | refused nd, n => n = nd.addr
  | extracted _, _ | unpathed _, _ | failed, _ | released, _ | done, _ => True

/-- The node an add has attached its analysis to and not yet put into the store or given back. -/
def AddPc.attachedTo : AddPc → Option Node
  | attached nd | noMemory nd | pathed nd => some nd
  | _ => none

theorem AddPc.held_of_attachedTo {pc : AddPc} {nd : Node} (h : pc.attachedTo = some nd) :
    nd.addr ∈ pc.held := by
  cases pc <;> simp [attachedTo] at h <;> simp [held, h]

/-- Every analysis is attached to one node at most, and an add that holds a node with an analysis
has attached it. -/
structure Attached (s : State κ ρ) : Prop where
  nodes : Nodes s
  serving : Serving s
  inj : ∀ n n' k, s.anal n = some k → s.anal n' = some k → n = n'
  place : ∀ k n, s.anal n = some k → (s.add k).At n
  own : ∀ k nd j, (s.add k).attachedTo = some nd → s.anal nd.addr = some j → j = k

theorem Started.attachedOnce (h : Started pidOf s) : Attached s := by
  have hstored : ∀ n k, s.anal n = some k →
      s.add k = .done ∧ ∃ i h, (i, h, n) ∈ s.analyses.inorder ∧
      (treeGetPath s.paths (s.heap k).path).bind Tree.info = some i := by
    intro n k hk
    obtain ⟨⟨i, h', n'⟩, hm, rfl⟩ := List.mem_map.1 (h.attached n k hk)
    obtain ⟨k', hk', hdone, hpath, -⟩ := h.stored i h' n' hm
    obtain rfl := Option.some.inj (hk.symm.trans hk')
    exact ⟨hdone, i, h', hm, hpath⟩
  refine ⟨h.nodesHeld, ?_, ?_, ?_, ?_⟩
  · rw [Serving, h.results]
    exact h.remove none
  · intro n n' k hk hk'
    obtain ⟨-, i, h₁, hm, hpath⟩ := hstored n k hk
    obtain ⟨-, i', h₂, hm', hpath'⟩ := hstored n' k hk'
    obtain rfl := Option.some.inj (hpath.symm.trans hpath')
    exact (h.ordered.unique hm hm').2
  · intro k n hk
    rw [(hstored n k hk).1]
    trivial
  · intro k nd j hat
    rcases h.add k with hdone | ⟨hready, -⟩
    · rw [hdone] at hat
      exact absurd hat (by simp [AddPc.attachedTo])
    · rw [hready] at hat
      exact absurd hat (by simp [AddPc.attachedTo])

/-! ## What steps do to `anal` -/

section Frames

variable [DecidableEq κ]

theorem AddMove.add_ne {e : AddEvent} (h : AddMove pidOf s k e s') {w : κ} (hw : w ≠ k) :
    s'.add w = s.add w := by
  cases h <;> exact Function.update_of_ne hw _ _

/-- Only attaching writes an analysis into a node. -/
theorem AddMove.anal_of {e : AddEvent} (h : AddMove pidOf s k e s') {n : Nat} {w : κ}
    (hw : s'.anal n = some w) :
    s.anal n = some w ∨
      w = k ∧ ∃ nd, s.add k = .taken nd ∧ s'.add k = .attached nd ∧ n = nd.addr := by
  cases h with
  | getFreeId rand pc hpc hres => exact Or.inl (anal_setAnal_none hw)
  | attach nd hpc =>
    by_cases hn : n = nd.addr
    · have hk : k = w := by simpa [State.setAnal, State.setAdd, hn] using hw
      refine Or.inr ⟨hk.symm, nd, hpc, ?_, hn⟩
      simp [State.setAdd]
    · left
      simpa [State.setAnal, State.setAdd, hn] using hw
  | giveBack nd hpc => exact Or.inl (anal_setAnal_none hw)
  | _ => exact Or.inl hw

/-- An add that stands somewhere else now is where it was. -/
theorem AddMove.place {e : AddEvent} (h : AddMove pidOf s k e s') {n : Nat}
    (hat : (s.add k).At n) : (s'.add k).At n := by
  cases h with
  | findPrefix pc hpc hres =>
    rw [hpc] at hat
    exact hat.elim
  | getFreeId rand pc hpc hres =>
    rw [hpc] at hat
    exact hat.elim
  | treeInsert nd alloc pc hpc hres =>
    rw [hpc] at hat
    rcases hres with ⟨-, rfl⟩ | ⟨-, rfl⟩ <;> simpa [State.setAdd, AddPc.At] using hat
  | _ => simp_all [State.setAdd, AddPc.At]

theorem AddMove.attachedTo {e : AddEvent} (h : AddMove pidOf s k e s') {nd : Node}
    (hat : (s'.add k).attachedTo = some nd) :
    (s.add k).attachedTo = some nd ∨ s.add k = .taken nd ∧ s'.anal nd.addr = some k := by
  cases h with
  | findPrefix pc hpc hres =>
    rcases hres with rfl | ⟨-, rfl⟩ <;> simp [State.setAdd, AddPc.attachedTo] at hat
  | getFreeId rand pc hpc hres =>
    rcases hres with ⟨-, rfl⟩ | ⟨nd', -, rfl⟩ <;> simp [State.setAdd, AddPc.attachedTo] at hat
  | attach nd' hpc =>
    obtain rfl : nd' = nd := by simpa [State.setAdd, AddPc.attachedTo] using hat
    exact Or.inr ⟨hpc, by simp [State.setAnal, State.setAdd]⟩
  | treeInsert nd' alloc pc hpc hres =>
    rcases hres with ⟨-, rfl⟩ | ⟨-, rfl⟩ <;>
      simpa [State.setAdd, AddPc.attachedTo, hpc] using hat
  | mallocFails nd' hpc => simpa [State.setAdd, AddPc.attachedTo, hpc] using hat
  | _ => simp [State.setAdd, AddPc.attachedTo] at hat

variable [DecidableEq ρ]

theorem RemoveMove.anal_of {r : Option ρ} {e : RemoveEvent} (h : RemoveMove pidOf s r e s')
    {n : Nat} {w : κ} (hw : s'.anal n = some w) : s.anal n = some w := by
  cases h with
  | extractNone => cases r <;> exact hw
  | clear trp hpc =>
    refine anal_setAnal_none (b := trp.addr) ?_
    cases r <;> exact hw
  | _ => exact hw

omit [DecidableEq ρ] in
theorem ResultsMove.anal {e : ResultsEvent} [DecidableEq ρ] (h : ResultsMove s e s') :
    s'.anal = s.anal := by
  cases h <;> rfl

end Frames

/-! ## Steps -/

variable [DecidableEq κ]

theorem AddMove.attached {e : AddEvent} (h : AddMove pidOf s k e s') [DecidableEq ρ]
    (ha : Attached s) : Attached s' := by
  have hnew : ∀ {n nd}, s.add k = .taken nd → s.anal n ≠ some k := by
    intro n nd hpc hn
    have hplace := ha.place k n hn
    rw [hpc] at hplace
    exact hplace
  refine ⟨h.nodes ha.nodes, ?_, ?_, ?_, ?_⟩
  · cases h <;> exact ha.serving
  · intro n n' w hn hn'
    rcases h.anal_of hn with hold | ⟨rfl, nd, hpc, -, rfl⟩
    · rcases h.anal_of hn' with hold' | ⟨rfl, nd, hpc, -, rfl⟩
      · exact ha.inj n n' w hold hold'
      · exact absurd hold (hnew hpc)
    · rcases h.anal_of hn' with hold' | ⟨-, nd', hpc', -, rfl⟩
      · exact absurd hold' (hnew hpc)
      · rw [AddPc.taken.inj (hpc.symm.trans hpc')]
  · intro w n hn
    rcases h.anal_of hn with hold | ⟨rfl, nd, -, hpc', rfl⟩
    · by_cases hw : w = k
      · subst hw
        exact h.place (ha.place w n hold)
      · rw [h.add_ne hw]
        exact ha.place w n hold
    · rw [hpc']
      rfl
  · intro w nd j hat hj
    by_cases hw : w = k
    · subst hw
      rcases h.attachedTo hat with hold | ⟨hpc, hanal⟩
      · rcases h.anal_of hj with hj | ⟨hjw, -⟩
        · exact ha.own w nd j hold hj
        · exact hjw
      · exact (Option.some.inj (hanal.symm.trans hj)).symm
    · rw [h.add_ne hw] at hat
      rcases h.anal_of hj with hj | ⟨-, nd', hpc, -, heq⟩
      · exact ha.own w nd j hat hj
      · -- Two adds would hold the node.
        have hheld : nd.addr ∈ holds s (.add w) := AddPc.held_of_attachedTo hat
        have hheld' : nd.addr ∈ holds s (.add k) := by simp [holds, hpc, heq]
        exact absurd (Owner.add.inj (ha.nodes.owner hheld hheld')) hw

theorem RemoveMove.attached [DecidableEq ρ] {r : Option ρ} {e : RemoveEvent}
    (h : RemoveMove pidOf s r e s') (ha : Attached s) : Attached s' := by
  obtain ⟨-, hadd, -⟩ := h.frame
  refine ⟨h.nodes ha.nodes, h.serving ha.serving, ?_, ?_, ?_⟩
  · exact fun n n' w hn hn' => ha.inj n n' w (h.anal_of hn) (h.anal_of hn')
  · intro w n hn
    rw [hadd]
    exact ha.place w n (h.anal_of hn)
  · intro w nd j hat hj
    rw [hadd] at hat
    exact ha.own w nd j hat (h.anal_of hj)

/-- **One step**, whatever it is. -/
theorem attached_step [DecidableEq ρ] {e : Event κ ρ} (ha : Attached s)
    (h : (system pidOf).step s e s') : Attached s' := by
  cases e with
  | add k e => exact (addMove_of_step h).attached ha
  | remove r e => exact (removeMove_of_step h).attached ha
  | work k e delivered =>
    obtain ⟨pc, -, rfl⟩ := Option.map_eq_some_iff.1 h
    exact ⟨ha.nodes, ha.serving, ha.inj, ha.place, ha.own⟩
  | results e =>
    have hmove := resultsMove_of_step h
    have hidle : s.results = .accepting → s.remove none = .idle := by
      intro hres
      simpa [Serving, hres] using ha.serving
    refine ⟨hmove.nodes ha.nodes hidle, hmove.serving ha.serving, ?_, ?_, ?_⟩
    · rw [hmove.anal]
      exact ha.inj
    · rw [hmove.anal, hmove.frame]
      exact ha.place
    · rw [hmove.anal, hmove.frame]
      exact ha.own

theorem attached_of_reachable [DecidableEq ρ] {ok : State κ ρ → Event κ ρ → Prop}
    (h : ((started pidOf).guard ok).Reachable s) : Attached s := by
  refine h.invariant (I := Attached) ?_ ?_
  · intro s₀ h₀
    exact Started.attachedOnce (show Started pidOf s₀ from h₀)
  · intro s₁ e s₂ h₁ hstep
    exact attached_step h₁ hstep.1

end DiskAnalyzer.Concurrent
