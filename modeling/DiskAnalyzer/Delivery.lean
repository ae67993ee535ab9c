import DiskAnalyzer.ConcurrentProof
import DiskAnalyzer.Lib.Ownership

/-!
# A result message only touches the analysis it was computed for

Messages carry an id, and ids are used again. Whose analysis a message reaches depends on which
node carries its id in `man->analyses` when it is applied, and on what the field `anal` of that
node holds.

* `Nodes`: the two treaps and the threads in between hold different nodes, so `anal` is written
  only while its node is outside `man->analyses`, or to clear it.
* `Matched`: the analysis stored under the id of a message in flight, if there is one, is its
  sender's.

The second is kept by the steps that meet `IdsFresh`: a worker sends a message when no other
analysis has its id, and an add inserts its node when no message in flight carries its id.
-/

namespace DiskAnalyzer.Concurrent

open Treap

/-! ## Nodes in the treaps -/

theorem addrs_insertNode (t : Treap Nat) (nd : Node) :
    (addrs (treapInsertNode t nd.toTreap)).Perm (nd.addr :: addrs t) :=
  (perm_insertNode t nd.id nd.heapVal nd.addr).map _

/-- Extraction keeps the nodes, or takes out the one it returns. -/
theorem extract_nodes (t : Treap Nat) (id : Int) :
    (detached (treapExtract t id).1 = none ∧ (treapExtract t id).2.inorder = t.inorder) ∨
      ∃ nd, detached (treapExtract t id).1 = some nd ∧ nd.id = id ∧
        t.inorder.Perm ((id, nd.heapVal, nd.addr) :: (treapExtract t id).2.inorder) := by
  rcases extract_takes t id with ⟨hnil, heq⟩ | ⟨h, addr, hnode, hperm⟩
  · exact Or.inl ⟨by rw [hnil]; rfl, heq⟩
  · exact Or.inr ⟨⟨id, h, addr⟩, by rw [hnode]; rfl, rfl, hperm⟩

theorem mem_of_mem_extract {t : Treap Nat} {i : Int} {e : Int × Int × Nat}
    (he : e ∈ (treapExtract t i).2.inorder) : e ∈ t.inorder := by
  rcases extract_nodes t i with ⟨-, hin⟩ | ⟨nd, -, -, hperm⟩
  · exact hin ▸ he
  · exact hperm.symm.subset (List.mem_cons_of_mem _ he)

/-- `get_free_id` takes one node, or none, out of the treap it was given or out of one with a new
node. -/
theorem getFreeId_nodes (rand : Option Int) (null : Nat) (t : Treap Nat) :
    ∃ new : List Nat, (new = [] ∨ new = [null]) ∧
      ((detached (getFreeId rand null t).1 = none ∧
          (addrs (getFreeId rand null t).2).Perm (new ++ addrs t)) ∨
        ∃ nd, detached (getFreeId rand null t).1 = some nd ∧
          (new ++ addrs t).Perm (nd.addr :: addrs (getFreeId rand null t).2)) := by
  have took : ∀ (t' : Treap Nat) (id : Int) (new : List Nat), (new = [] ∨ new = [null]) →
      (addrs t').Perm (new ++ addrs t) → getFreeId rand null t = treapExtract t' id →
      ∃ new : List Nat, (new = [] ∨ new = [null]) ∧
        ((detached (getFreeId rand null t).1 = none ∧
            (addrs (getFreeId rand null t).2).Perm (new ++ addrs t)) ∨
          ∃ nd, detached (getFreeId rand null t).1 = some nd ∧
            (new ++ addrs t).Perm (nd.addr :: addrs (getFreeId rand null t).2)) := by
    intro t' id new hnew hperm heq
    rw [heq]
    refine ⟨new, hnew, ?_⟩
    rcases extract_nodes t' id with ⟨hnone, hin⟩ | ⟨nd, hnd, -, hin⟩
    · exact Or.inl ⟨hnone, by rw [addrs, hin]; exact hperm⟩
    · exact Or.inr ⟨nd, hnd, hperm.symm.trans (hin.map _)⟩
  have plain : ∀ id, getFreeId rand null t = treapExtract t id → _ := fun id heq =>
    took t id [] (Or.inl rfl) (List.Perm.refl _) heq
  cases t with
  | nil => exact ⟨[], Or.inl rfl, Or.inl ⟨rfl, List.Perm.refl _⟩⟩
  | node id h a l r =>
    cases r with
    | node j k b jl jr => exact plain id rfl
    | nil =>
      cases l with
      | node j k b jl jr => exact plain j rfl
      | nil =>
        by_cases hlt : id < ID_MAX
        · cases rand with
          | none =>
            refine ⟨[], Or.inl rfl, Or.inl ⟨?_, ?_⟩⟩ <;> rw [getFreeId] <;>
              simp [hlt, insertNew_eq, detached]
          | some heapVal =>
            refine took (treapInsertNode (node id h a nil nil) (node (id + 1) heapVal null nil nil))
              id [null] (Or.inr rfl) ((perm_insertNode _ _ _ _).map _) ?_
            rw [getFreeId]
            simp [hlt, insertNew_eq]
        · refine plain id ?_
          rw [getFreeId]
          simp [hlt]

/-- `return_id` adds the node, and may lose another. -/
theorem returnId_nodes (t : Treap Nat) (nd : Node) :
    ∃ kept : List Nat, kept.Subperm (addrs t) ∧
      (addrs (returnId t nd.toTreap)).Perm (nd.addr :: kept) := by
  unfold returnId
  split
  · rename_i id h a
    refine ⟨addrs (treapRemove (node id h a nil nil) id).2, ?_, addrs_insertNode _ _⟩
    rw [remove_snd]
    rcases extract_nodes (node id h a nil nil) id with ⟨-, hin⟩ | ⟨nd', -, -, hin⟩
    · rw [addrs, hin, ← addrs]
    · have hperm : (addrs (node id h a nil nil)).Perm (nd'.addr :: addrs
          (treapExtract (node id h a nil nil) id).2) := hin.map _
      exact (List.sublist_cons_self _ _).subperm.trans hperm.symm.subperm
  · exact ⟨addrs t, List.Subperm.refl _, addrs_insertNode _ _⟩

/-! ## Who holds a node -/

variable {κ ρ : Type}

inductive Owner (κ ρ : Type) where
  | store
  | free
  | add (k : κ)
  | remove (r : Option ρ)
  deriving DecidableEq

/-- The node a thread has detached and not yet put into a treap. -/
def AddPc.held : AddPc → List Nat
  | taken nd | attached nd | noMemory nd | pathed nd => [nd.addr]
  | extracted (some nd) | unpathed (some nd) => [nd.addr]
  | _ => []

@[simp] theorem AddPc.held_failed : failed.held = [] := rfl
@[simp] theorem AddPc.held_taken (nd : Node) : (taken nd).held = [nd.addr] := rfl
@[simp] theorem AddPc.held_pathed (nd : Node) : (pathed nd).held = [nd.addr] := rfl
@[simp] theorem AddPc.held_stored (nd : Node) : (stored nd).held = [] := rfl
@[simp] theorem AddPc.held_extracted (trp : Option Node) :
    (extracted trp).held = (trp.map Node.addr).toList := by cases trp <;> rfl

def RemovePc.held : RemovePc → List Nat
  | extracted nd | unlinked nd | signalled nd | unpathed nd => [nd.addr]
  | _ => []

@[simp] theorem RemovePc.held_extracted (nd : Node) : (extracted nd).held = [nd.addr] := rfl
@[simp] theorem RemovePc.held_unpathed (nd : Node) : (unpathed nd).held = [nd.addr] := rfl
@[simp] theorem RemovePc.held_given (nd : Node) : (given nd).held = [] := rfl
@[simp] theorem RemovePc.held_called (id : Int) : (called id).held = [] := rfl
@[simp] theorem RemovePc.held_idle : idle.held = [] := rfl

def holds (s : State κ ρ) : Owner κ ρ → List Nat
  | .store => addrs s.analyses
  | .free => addrs s.availableIds
  | .add k => (s.add k).held
  | .remove r => (s.remove r).held

/-- The nodes made so far. -/
def made (s : State κ ρ) : Set Nat := {a | a < s.next}

/-- **Nodes are held once.** -/
def Nodes (s : State κ ρ) : Prop := Ownership.Ledger (holds s) (made s)

variable {pidOf : κ → Int} {s s' : State κ ρ} {k : κ}

theorem Loaded.nodesHeld (h : Loaded pidOf s) : Nodes s := by
  obtain ⟨hstore, hfree, hdisj⟩ := List.nodup_append.1 h.nodes
  have hadd : ∀ k, (s.add k).held = [] := by
    intro k
    rcases h.add k with hdone | ⟨hready, -⟩
    · rw [hdone]; rfl
    · rw [hready]; rfl
  have hremove : ∀ r, (s.remove r).held = [] := by
    intro r
    rw [h.remove r]
    rfl
  refine ⟨?_, fun {o o' a} ha ha' => ?_, fun {o a} ha => ?_⟩
  · intro o
    cases o <;> simp [holds, hstore, hfree, hadd, hremove]
  · cases o <;> cases o' <;> simp only [holds, hadd, hremove, List.not_mem_nil] at ha ha' <;>
      first | rfl | exact absurd rfl (hdisj _ ha _ ha') | exact absurd rfl (hdisj _ ha' _ ha)
  · cases o <;> simp only [holds, hadd, hremove, List.not_mem_nil] at ha
    · exact h.next a (List.mem_append_left _ ha)
    · exact h.next a (List.mem_append_right _ ha)

/-- A step after which everybody holds what he held. -/
theorem Nodes.keep (hn : Nodes s) (hnext : s'.next = s.next)
    (hperm : ∀ o, (holds s' o).Perm (holds s o)) : Nodes s' := by
  unfold Nodes made
  rw [hnext]
  exact Ownership.Ledger.congr hn hperm

/-! ## Messages -/

/-- The message the results thread has read and not yet used. -/
def State.reading (s : State κ ρ) : Option (Message κ) :=
  match s.results, s.remove none with
  | .got m, _ => some m
  | .removing m, .called _ => some m
  | _, _ => none

/-- A message that can still touch an analysis. -/
def Pending (s : State κ ρ) (m : Message κ) : Prop := s.reading = some m ∨ m ∈ s.msgs

/-- The results thread removes by the id of its message, and removes nothing else. -/
def Serving (s : State κ ρ) : Prop :=
  match s.results with
  | .removing m => ∀ id, s.remove none = .called id → id = m.id
  | _ => s.remove none = .idle

/-- **The analysis stored under a pending message's id is its sender's.** -/
def Matched (s : State κ ρ) : Prop :=
  ∀ m, Pending s m → ∀ e ∈ s.analyses.inorder, e.1 = m.id → ∀ k, s.anal e.2.2 = some k →
    k = m.sender

/-- The node an event inserts. -/
def inserts (s : State κ ρ) : Event κ ρ → Option Node
  | .add k (.insertNode _) =>
    match s.add k with
    | .pathed nd => some nd
    | _ => none
  | _ => none

/-- The message an event sends. -/
def sends (s : State κ ρ) : Event κ ρ → Option (Message κ)
  | .work k e true => workerSays s.file k (s.worker k) e
  | _ => none

/-- A worker sends when no other analysis has its id, and an add inserts its node when no pending
message carries its id. -/
def IdsFresh (s : State κ ρ) (e : Event κ ρ) : Prop :=
  (∀ nd ∈ inserts s e, (∀ m ∈ s.reading, m.id ≠ nd.id) ∧ ∀ m ∈ s.msgs, m.id ≠ nd.id) ∧
    ∀ m ∈ sends s e, ∀ e ∈ s.analyses.inorder, e.1 = m.id → ∀ w ∈ s.anal e.2.2, w = m.sender

instance [DecidableEq κ] (s : State κ ρ) (e : Event κ ρ) : Decidable (IdsFresh s e) :=
  inferInstanceAs (Decidable (_ ∧ _))

theorem IdsFresh.insertNode {now : Int} {nd : Node} {m : Message κ}
    (h : IdsFresh s (.add k (.insertNode now))) (hpc : s.add k = .pathed nd) (hm : Pending s m) :
    m.id ≠ nd.id := by
  obtain ⟨hreading, hmsgs⟩ := h.1 nd (by rw [inserts, hpc]; rfl)
  rcases hm with hm | hm
  · exact hreading m hm
  · exact hmsgs m hm

/-- What the invariants of this file say together. -/
structure Delivers (s : State κ ρ) : Prop where
  nodes : Nodes s
  serving : Serving s
  matched : Matched s

/-- Nothing new is pending, stored or attached. -/
theorem Matched.quiet (hm : Matched s) (hpending : ∀ m, Pending s' m → Pending s m)
    (hstore : ∀ e ∈ s'.analyses.inorder, e ∈ s.analyses.inorder)
    (hanal : ∀ e ∈ s'.analyses.inorder, ∀ k, s'.anal e.2.2 = some k → s.anal e.2.2 = some k) :
    Matched s' :=
  fun m hp e he hid k hk => hm m (hpending m hp) e (hstore e he) hid k (hanal e he k hk)

theorem mem_addrs {t : Treap Nat} {e : Int × Int × Nat} (he : e ∈ t.inorder) : e.2.2 ∈ addrs t :=
  List.mem_map_of_mem he

/-- Clearing a field attaches nothing. -/
theorem anal_setAnal_none {a b : Nat} (h : (s.setAnal b none).anal a = some k) :
    s.anal a = some k := by
  by_cases ha : a = b
  · subst ha
    simp [State.setAnal] at h
  · simpa [State.setAnal, ha] using h

/-! ## Steps keep nodes held once -/

variable [DecidableEq κ]

@[simp] theorem holds_setAdd (s : State κ ρ) (k : κ) (pc : AddPc) [DecidableEq ρ]
    (o : Owner κ ρ) : holds (s.setAdd k pc) o = if o = .add k then pc.held else holds s o := by
  cases o with
  | add w => by_cases hw : w = k <;> simp [holds, State.setAdd, hw]
  | _ => rfl

@[simp] theorem holds_setRemove [DecidableEq ρ] (s : State κ ρ) (r : Option ρ) (pc : RemovePc)
    (o : Owner κ ρ) :
    holds (s.setRemove r pc) o = if o = .remove r then pc.held else holds s o := by
  cases o with
  | remove u => by_cases hu : u = r <;> simp [holds, State.setRemove, hu]
  | _ => rfl

theorem holds_leave [DecidableEq ρ] (s : State κ ρ) (r : Option ρ) (o : Owner κ ρ) :
    holds (leave s r) o = if o = .remove r then [] else holds s o := by
  cases r <;> rw [leave, holds_setRemove] <;> rfl

variable [DecidableEq ρ]

/-- A step that moves a node. -/
theorem Nodes.moved (hn : Nodes s) (hnext : s'.next = s.next) {o p : Owner κ ρ} {a : Nat}
    (hne : o ≠ p) (hfrom : (holds s o).Perm (a :: holds s' o))
    (hto : (holds s' p).Perm (a :: holds s p))
    (hrest : ∀ u, u ≠ o → u ≠ p → holds s' u = holds s u) : Nodes s' := by
  unfold Nodes made
  rw [hnext]
  exact Ownership.Ledger.move hn hne hfrom hto hrest

/-- `get_free_id`: a node is made, or not, and one is taken, or not. -/
theorem Nodes.getFreeId (hn : Nodes s) (hheld : (s.add k).held = []) {rand : Option Int}
    {pc : AddPc}
    (hres : detached (getFreeId rand s.next s.availableIds).1 = none ∧ pc = .failed ∨
      ∃ nd, detached (getFreeId rand s.next s.availableIds).1 = some nd ∧ pc = .taken nd) :
    Nodes (({ s with
      availableIds := (DiskAnalyzer.getFreeId rand s.next s.availableIds).2
      next := s.next + 1 }.setAnal s.next none).setAdd k pc) := by
  obtain ⟨new, hnew, htook⟩ := getFreeId_nodes rand s.next s.availableIds
  have hmid : Ownership.Ledger
      (Function.update (holds s) .free (new ++ addrs s.availableIds)) {a | a < s.next + 1} := by
    have hbelow : ∀ a ∈ made s, a ∈ {a | a < s.next + 1} := fun a ha => Nat.lt_succ_of_lt ha
    rcases hnew with rfl | rfl
    · refine Ownership.Ledger.drop hn (fun o => ?_) hbelow
      by_cases ho : o = .free
      · rw [ho, Function.update_self]
        exact List.Subperm.refl _
      · rw [Function.update_of_ne ho]
    · have hfresh : s.next ∉ made s := Nat.lt_irrefl s.next
      have hcreate : Ownership.Ledger
          (Function.update (holds s) .free ([s.next] ++ addrs s.availableIds))
          (insert s.next (made s)) :=
        hn.create hfresh (o := .free) (by rw [Function.update_self]; exact List.Perm.refl _)
          fun u hu => by rw [Function.update_of_ne hu]
      refine hcreate.drop (fun o => List.Subperm.refl _) ?_
      intro a ha
      rcases ha with rfl | ha
      · exact Nat.lt_succ_self _
      · exact hbelow a ha
  rcases htook with ⟨hnone, hperm⟩ | ⟨nd, hsome, hperm⟩
  · obtain ⟨-, rfl⟩ := hres.resolve_right fun h => by
      obtain ⟨nd, hnd, -⟩ := h
      rw [hnone] at hnd
      simp at hnd
    refine hmid.congr ?_
    intro o
    cases o with
    | add w => by_cases hw : w = k <;> simp [holds, State.setAdd, State.setAnal, hw, hheld]
    | free => simpa [holds, State.setAdd, State.setAnal] using hperm
    | _ => exact List.Perm.refl _
  · obtain ⟨nd', hnd', rfl⟩ := hres.resolve_left fun h => by
      rw [hsome] at h
      simp at h
    obtain rfl : nd = nd' := Option.some.inj (hsome.symm.trans hnd')
    refine hmid.move (o := .free) (p := .add k) (a := nd.addr) (by simp) ?_ ?_ ?_
    · simpa [holds, State.setAdd, State.setAnal] using hperm
    · simp [holds, State.setAdd, hheld]
    · intro u hu hu'
      rw [holds_setAdd, if_neg hu', Function.update_of_ne hu]
      cases u <;> first | rfl | exact absurd rfl hu

/-- `return_id`: a node may be lost, and one is given back. -/
theorem Nodes.giveBack (hn : Nodes s) {nd : Node} (hheld : (s.add k).held = [nd.addr]) :
    Nodes ((giveBack s nd).setAdd k .failed) := by
  obtain ⟨kept, hkept, hperm⟩ := returnId_nodes s.availableIds nd
  have hmid : Ownership.Ledger (Function.update (holds s) .free kept) (made s) := by
    refine Ownership.Ledger.drop hn (fun o => ?_) fun _ ha => ha
    by_cases ho : o = .free
    · rw [ho, Function.update_self]
      exact hkept
    · rw [Function.update_of_ne ho]
  refine hmid.move (o := .add k) (p := .free) (a := nd.addr) (by simp) ?_ ?_ ?_
  · simp [holds, State.setAdd, hheld]
  · simpa [holds, DiskAnalyzer.Concurrent.giveBack, State.setAdd] using hperm
  · intro u hu hu'
    rw [holds_setAdd, if_neg hu, Function.update_of_ne hu']
    cases u <;> first | rfl | exact absurd rfl hu'

theorem AddMove.nodes {e : AddEvent} (h : AddMove pidOf s k e s') (hn : Nodes s) : Nodes s' := by
  have keep : ∀ {t : State κ ρ} {pc : AddPc}, Nodes t → pc.held = (t.add k).held →
      Nodes (t.setAdd k pc) := by
    intro t pc h₁ hpc
    refine h₁.keep rfl ?_
    intro o
    rw [holds_setAdd]
    split_ifs with ho
    · rw [ho, hpc]
      exact List.Perm.refl _
    · exact List.Perm.refl _
  cases h with
  | notDirectory hpc => exact keep hn (by rw [hpc]; rfl)
  | findPrefix pc hpc hres =>
    exact keep hn (by rcases hres with rfl | ⟨-, rfl⟩ <;> rw [hpc] <;> rfl)
  | getFreeId rand pc hpc hres => exact hn.getFreeId (by rw [hpc]; rfl) hres
  | attach nd hpc => exact keep (t := s.setAnal nd.addr (some k)) hn (hpc ▸ rfl)
  | mallocFails nd hpc => exact keep hn (by rw [hpc]; rfl)
  | treeInsert nd alloc pc hpc hres =>
    refine keep (t := { s with paths := _ }) hn ?_
    rcases hres with ⟨-, rfl⟩ | ⟨-, rfl⟩ <;> rw [hpc] <;> rfl
  | giveBack nd hpc => exact hn.giveBack (by rcases hpc with hpc | hpc <;> rw [hpc] <;> rfl)
  | insertNode nd now hpc =>
    refine hn.moved rfl (o := .add k) (p := .store) (a := nd.addr) (by simp) ?_ ?_
      ?_
    · simp [holds, State.setAdd, hpc]
    · exact addrs_insertNode s.analyses nd
    · intro u hu hu'
      rw [holds_setAdd, if_neg hu]
      cases u <;> first | rfl | exact absurd rfl hu'
  | connect nd hpc hlive hid => exact keep (t := { s with worker := _ }) hn (by rw [hpc]; rfl)
  | connectFails nd hpc => exact keep hn (by rw [hpc]; rfl)
  | answer nd hpc hreplied hfreed => exact keep (t := s.modify k _) hn (hpc ▸ rfl)
  | answerFails nd hpc => exact keep hn (by rw [hpc]; rfl)
  | finish nd hpc hfreed =>
    exact keep (t := State.modify { s with analysisCnt := _ } k _) hn (hpc ▸ rfl)
  | extract nd hpc =>
    have hheld : (s.add k).held = [] := by rw [hpc]; rfl
    rcases extract_nodes s.analyses nd.id with ⟨hnone, hin⟩ | ⟨nd', hsome, -, hperm⟩
    · rw [hnone]
      refine hn.keep rfl ?_
      intro o
      cases o with
      | add w => by_cases hw : w = k <;> simp [holds, State.setAdd, hw, hheld]
      | store => simp [holds, State.setAdd, addrs, hin]
      | _ => exact List.Perm.refl _
    · rw [hsome]
      refine hn.moved rfl (o := .store) (p := .add k) (a := nd'.addr) (by simp) ?_ ?_
        ?_
      · exact hperm.map _
      · simp [holds, State.setAdd, hheld]
      · intro u hu hu'
        rw [holds_setAdd, if_neg hu']
        cases u <;> first | rfl | exact absurd rfl hu
  | treeRemove trp hpc hlive =>
    refine keep (t := { s with paths := _ }) hn ?_
    rw [hpc]
    cases trp <;> rfl
  | release hpc hpath hrecord =>
    exact keep (t := { s with pathFreed := _, freed := _ }) hn (by rw [hpc]; rfl)

/-- The steps of `threads_remove` that move a node are its two treap operations. -/
theorem RemoveMove.nodes {r : Option ρ} {e : RemoveEvent} (h : RemoveMove pidOf s r e s')
    (hn : Nodes s) : Nodes s' := by
  have keep : ∀ {t : State κ ρ} {pc : RemovePc}, Nodes t → pc.held = (t.remove r).held →
      Nodes (t.setRemove r pc) := by
    intro t pc h₁ hpc
    refine h₁.keep rfl ?_
    intro o
    rw [holds_setRemove]
    split_ifs with ho
    · rw [ho, hpc]
      exact List.Perm.refl _
    · exact List.Perm.refl _
  have hleave : ∀ {t : State κ ρ}, Nodes t → (t.remove r).held = [] → Nodes (leave t r) := by
    intro t h₁ hheld
    refine h₁.keep (by cases r <;> rfl) fun o => ?_
    rw [holds_leave]
    split_ifs with ho
    · rw [ho]
      simp [holds, hheld]
    · exact List.Perm.refl _
  cases h with
  | call id hpc hr => exact keep hn (by rw [hpc]; rfl)
  | extractNone id hpc hnone =>
    have hin : (treapExtract s.analyses id).2.inorder = s.analyses.inorder := by
      rcases extract_nodes s.analyses id with ⟨-, hin⟩ | ⟨nd, hsome, -, -⟩
      · exact hin
      · rw [hnone] at hsome
        simp at hsome
    have hmid : Nodes { s with analyses := (treapExtract s.analyses id).2 } := by
      refine hn.keep rfl ?_
      intro o
      cases o with
      | store => simp [holds, addrs, hin]
      | _ => exact List.Perm.refl _
    exact hleave hmid (hpc ▸ rfl)
  | extract id trp hpc hsome =>
    have hheld : (s.remove r).held = [] := by rw [hpc]; rfl
    have hperm : (addrs s.analyses).Perm (trp.addr :: addrs (treapExtract s.analyses id).2) := by
      rcases extract_nodes s.analyses id with ⟨hnone, -⟩ | ⟨nd, hnd, -, hperm⟩
      · rw [hsome] at hnone
        simp at hnone
      · obtain rfl : trp = nd := Option.some.inj (hsome.symm.trans hnd)
        exact hperm.map _
    refine hn.moved rfl (o := .store) (p := .remove r) (a := trp.addr) (by simp) hperm ?_
      ?_
    · simp [holds, State.setRemove, hheld]
    · intro u hu hu'
      rw [holds_setRemove, if_neg hu']
      cases u <;> first | rfl | exact absurd rfl hu
  | unlink trp hpc => exact keep (t := { s with file := _ }) hn (hpc ▸ rfl)
  | signal trp k interrupted hpc hk hint =>
    exact keep (t := { s with interrupted }) hn (hpc ▸ rfl)
  | treeRemove trp k hpc hk hlive => exact keep (t := { s with paths := _ }) hn (hpc ▸ rfl)
  | insertNode trp hpc =>
    refine hn.moved rfl (o := .remove r) (p := .free) (a := trp.addr) (by simp) ?_ ?_
      ?_
    · simp [holds, State.setRemove, hpc]
    · exact addrs_insertNode s.availableIds trp
    · intro u hu hu'
      rw [holds_setRemove, if_neg hu]
      cases u <;> first | rfl | exact absurd rfl hu'
  | report trp k hpc hk hlive => exact keep hn (hpc ▸ rfl)
  | freePath trp k hpc hk hlive => exact keep (t := { s with pathFreed := _ }) hn (hpc ▸ rfl)
  | freeRecord trp k hpc hk => exact keep (t := { s with freed := _ }) hn (hpc ▸ rfl)
  | clear trp hpc => exact hleave (t := s.setAnal trp.addr none) hn (hpc ▸ rfl)

/-- The results thread and the workers hold no node. -/
theorem ResultsMove.nodes {e : ResultsEvent} (h : ResultsMove s e s') (hn : Nodes s)
    (hidle : s.results = .accepting → s.remove none = .idle) : Nodes s' := by
  cases h with
  | readFailed i m hpc hm hfailed =>
    refine hn.keep rfl ?_
    intro o
    rw [holds_setRemove]
    split_ifs with ho
    · rw [ho]
      simp [holds, hidle hpc]
    · cases o <;> exact List.Perm.refl _
  | _ => exact hn.keep rfl fun o => by cases o <;> exact List.Perm.refl _

/-! ## Steps keep messages matched -/

omit [DecidableEq ρ] in
theorem AddMove.matched {e : AddEvent} (h : AddMove pidOf s k e s') (hd : Delivers s)
    (hok : IdsFresh s (.add k e : Event κ ρ)) : Matched s' := by
  have hm := hd.matched
  cases h with
  | getFreeId rand pc hpc hres =>
    exact hm.quiet (fun _ => id) (fun _ => id) fun e he w hw => anal_setAnal_none hw
  | attach nd hpc =>
    -- The node is the add's, so it is not in the store.
    refine hm.quiet (fun _ => id) (fun _ => id) ?_
    intro e he w hw
    have hne : e.2.2 ≠ nd.addr := by
      intro heq
      have hstore : nd.addr ∈ holds s .store := heq ▸ mem_addrs he
      have hadd : nd.addr ∈ holds s (.add k) := by simp [holds, hpc]
      exact absurd (hd.nodes.owner hstore hadd) (by simp)
    simpa [State.setAnal, State.setAdd, hne] using hw
  | giveBack nd hpc =>
    exact hm.quiet (fun _ => id) (fun _ => id) fun e he w hw => anal_setAnal_none hw
  | insertNode nd now hpc =>
    intro m hp e he hid w hw
    rcases mem_inorder_insertNode.1 he with rfl | he
    · exact absurd hid.symm (hok.insertNode hpc hp)
    · exact hm m hp e he hid w hw
  | extract nd hpc => exact hm.quiet (fun _ => id) (fun _ => mem_of_mem_extract) fun _ _ _ => id
  | _ => exact hm.quiet (fun _ => id) (fun _ => id) fun _ _ _ => id

omit [DecidableEq κ] in
/-- A thread that removes makes no message pending. -/
theorem pending_setRemove {r : Option ρ} {pc : RemovePc} (hpc : ∀ id, pc = .called id → r ≠ none)
    {m : Message κ} (h : Pending (s.setRemove r pc) m) : Pending s m := by
  refine h.imp (fun hr => ?_) id
  cases r with
  | some r => simpa [State.reading, State.setRemove] using hr
  | none =>
    cases hres : s.results with
    | accepting => simp [State.reading, State.setRemove, hres] at hr
    | got m' =>
      rw [State.reading, hres]
      simpa [State.reading, State.setRemove, hres] using hr
    | removing m' =>
      cases pc with
      | called id => exact absurd rfl (hpc id rfl)
      | _ => simp [State.reading, State.setRemove, hres] at hr

omit [DecidableEq κ] in
theorem pending_leave {r : Option ρ} {m : Message κ} (h : Pending (leave s r) m) : Pending s m := by
  cases r with
  | some r => exact pending_setRemove (by simp) h
  | none =>
    refine h.imp (fun hr => ?_) id
    simp [State.reading, leave, State.setRemove] at hr

theorem RemoveMove.matched {r : Option ρ} {e : RemoveEvent} (h : RemoveMove pidOf s r e s')
    (hm : Matched s) : Matched s' := by
  cases h with
  | call i hpc hr =>
    exact hm.quiet (fun _ => pending_setRemove fun _ _ => hr) (fun _ => id) fun _ _ _ => id
  | extractNone i hpc hnone =>
    refine hm.quiet (?_) (fun e he => mem_of_mem_extract (i := i) ?_) ?_
    · intro _ hp
      exact pending_leave (s := { s with analyses := (treapExtract s.analyses i).2 }) hp
    · cases r <;> exact he
    · intro e he w hw
      cases r <;> exact hw
  | extract i trp hpc hsome =>
    exact hm.quiet (fun _ => pending_setRemove (by simp)) (fun _ => mem_of_mem_extract)
      fun _ _ _ => id
  | clear trp hpc =>
    refine hm.quiet (?_) (?_) ?_
    · intro _ hp
      exact pending_leave (s := s.setAnal trp.addr none) hp
    · intro e he
      cases r <;> exact he
    · intro e he w hw
      refine anal_setAnal_none (b := trp.addr) ?_
      cases r <;> exact hw
  | _ =>
    exact hm.quiet (fun _ => pending_setRemove (by simp)) (fun _ => id) fun _ _ _ => id

theorem ResultsMove.matched {e : ResultsEvent} (h : ResultsMove s e s') (hm : Matched s) :
    Matched s' := by
  cases h with
  | readFailed i m hpc hi hfailed =>
    refine hm.quiet (fun m' hp => Or.inr ?_) (fun _ => id) fun _ _ _ => id
    rcases hp with hr | hmem
    · obtain rfl : m = m' := by simpa [State.reading, State.setRemove] using hr
      exact List.mem_of_getElem? hi
    · exact List.mem_of_mem_eraseIdx hmem
  | read i m hpc hi hfailed =>
    refine hm.quiet (fun m' hp => Or.inr ?_) (fun _ => id) fun _ _ _ => id
    rcases hp with hr | hmem
    · obtain rfl : m = m' := by simpa [State.reading] using hr
      exact List.mem_of_getElem? hi
    · exact List.mem_of_mem_eraseIdx hmem
  | readFails i hpc =>
    exact hm.quiet (fun m' hp => hp.imp id List.mem_of_mem_eraseIdx) (fun _ => id) fun _ _ _ => id
  | applyNone m now hpc hnone =>
    refine hm.quiet (fun m' hp => hp.imp (fun hr => ?_) id) (fun _ => id) fun _ _ _ => id
    simp [State.reading] at hr
  | apply m now addr k hpc hfind hk =>
    refine hm.quiet (fun m' hp => hp.imp (fun hr => ?_) id) (fun _ => id) fun _ _ _ => id
    simp [State.reading, State.modify] at hr

omit [DecidableEq ρ] in
theorem workStep_matched {e : WorkEvent} {delivered : Bool}
    (h : workStep s k e delivered = some s') (hm : Matched s)
    (hok : IdsFresh s (.work k e delivered : Event κ ρ)) : Matched s' := by
  obtain ⟨pc, -, rfl⟩ := Option.map_eq_some_iff.1 h
  cases delivered with
  | false => exact hm.quiet (fun _ => id) (fun _ => id) fun _ _ _ => id
  | true =>
    intro m hp e' he hid w hw
    rcases hp with hr | hmem
    · exact hm m (Or.inl hr) e' he hid w hw
    · rcases List.mem_append.1 hmem with hsays | hold
      · have hsays' := Option.mem_toList.1 hsays
        exact hok.2 m hsays' e' he hid w hw
      · exact hm m (Or.inr hold) e' he hid w hw

/-! ## The results thread and its removals -/

omit [DecidableEq κ] in
theorem Serving.setRemove (hs : Serving s) {r : Option ρ} {pc : RemovePc}
    (hbusy : r = none → s.remove none ≠ .idle) (hpc : ∀ id, pc = .called id → r ≠ none) :
    Serving (s.setRemove r pc) := by
  cases r with
  | some r => simpa [Serving, State.setRemove] using hs
  | none =>
    unfold Serving at hs ⊢
    cases hres : s.results with
    | removing m =>
      simp only [State.setRemove, hres, Function.update_self]
      exact fun id hid => absurd rfl (hpc id hid)
    | _ => exact absurd (by simpa [hres] using hs) (hbusy rfl)

omit [DecidableEq κ] in
theorem Serving.leave (hs : Serving s) (r : Option ρ) : Serving (leave s r) := by
  cases r with
  | some r => exact hs.setRemove (by simp) (by simp)
  | none => simp [Serving, DiskAnalyzer.Concurrent.leave, State.setRemove]

theorem RemoveMove.serving {r : Option ρ} {e : RemoveEvent} (h : RemoveMove pidOf s r e s')
    (hs : Serving s) : Serving s' := by
  cases h with
  | call id hpc hr => exact hs.setRemove (fun hnone => absurd hnone hr) fun _ _ => hr
  | extractNone i hpc hnone =>
    exact Serving.leave (s := { s with analyses := (treapExtract s.analyses i).2 }) hs r
  | clear trp hpc => exact Serving.leave (s := s.setAnal trp.addr none) hs r
  | _ => exact hs.setRemove (by rintro rfl; simp_all) (by simp)

theorem ResultsMove.serving {e : ResultsEvent} (h : ResultsMove s e s') (hs : Serving s) :
    Serving s' := by
  unfold Serving at hs
  cases h with
  | readFailed i m hpc hi hfailed => simp [Serving, State.setRemove]
  | _ => simp_all [Serving, State.modify]

/-! ## Runs -/

omit [DecidableEq κ] [DecidableEq ρ] in
theorem Loaded.delivers (h : Loaded pidOf s) : Delivers s := by
  refine ⟨h.nodesHeld, ?_, ?_⟩
  · rw [Serving, h.results]
    exact h.remove none
  · intro m hp
    rcases hp with hr | hmem
    · simp [State.reading, h.results] at hr
    · simp [h.msgs] at hmem

/-- **One step** that keeps ids fresh. -/
theorem delivers_step {e : Event κ ρ} (hd : Delivers s) (h : (system pidOf).step s e s')
    (hok : IdsFresh s e) : Delivers s' := by
  cases e with
  | add k e =>
    have hmove := addMove_of_step h
    refine ⟨hmove.nodes hd.nodes, ?_, hmove.matched hd hok⟩
    cases hmove <;> exact hd.serving
  | remove r e =>
    have hmove := removeMove_of_step h
    exact ⟨hmove.nodes hd.nodes, hmove.serving hd.serving, hmove.matched hd.matched⟩
  | work k e delivered =>
    refine ⟨?_, ?_, workStep_matched h hd.matched hok⟩
    · obtain ⟨pc, -, rfl⟩ := Option.map_eq_some_iff.1 h
      exact hd.nodes
    · obtain ⟨pc, -, rfl⟩ := Option.map_eq_some_iff.1 h
      exact hd.serving
  | results e =>
    have hmove := resultsMove_of_step h
    refine ⟨hmove.nodes hd.nodes fun hres => ?_, hmove.serving hd.serving, hmove.matched hd.matched⟩
    simpa [Serving, hres] using hd.serving

/-- What the results thread does to an analysis because of a message: it writes to the record, or
takes the analysis out of the store. -/
inductive Touches (s : State κ ρ) (m : Message κ) (k : κ) : Event κ ρ → State κ ρ → Prop
  | writes (now : Int) (s' : State κ ρ) : s.results = .got m → s'.heap k ≠ s.heap k →
      Touches s m k (.results (.apply now)) s'
  | removes (s' : State κ ρ) : s.results = .removing m → Stored s k → ¬ Stored s' k →
      Touches s m k (.remove none .extract) s'

theorem Delivers.writes (hd : Delivers s) {now : Int} (h : ResultsMove s (.apply now) s')
    {m : Message κ} (hgot : s.results = .got m) (hk : s'.heap k ≠ s.heap k) : k = m.sender := by
  cases h with
  | applyNone m' now hpc hnone => exact absurd rfl hk
  | apply m' now addr w hpc hfind hw =>
    obtain rfl : m = m' := ResultsPc.got.inj (hgot.symm.trans hpc)
    obtain rfl : k = w := by
      by_contra hne
      simp [State.modify, hne] at hk
    obtain ⟨h, hmem⟩ := mem_of_find hfind
    exact hd.matched m (Or.inl (by simp [State.reading, hgot])) _ hmem rfl k (deref_eq_some hw).1

theorem Delivers.removes (hd : Delivers s) (h : RemoveMove pidOf s none .extract s')
    {m : Message κ} (hremoving : s.results = .removing m) (hk : Stored s k)
    (hk' : ¬ Stored s' k) : k = m.sender := by
  obtain ⟨e, he, hek⟩ := hk
  have hserving := hd.serving
  rw [Serving, hremoving] at hserving
  cases h with
  | extractNone i hpc hnone =>
    refine absurd ⟨e, ?_, hek⟩ hk'
    rcases extract_nodes s.analyses i with ⟨-, hin⟩ | ⟨nd, hsome, -, -⟩
    · exact hin.symm ▸ he
    · rw [hnone] at hsome
      simp at hsome
  | extract i trp hpc hsome =>
    rcases extract_nodes s.analyses i with ⟨hnone, -⟩ | ⟨nd, -, -, hperm⟩
    · rw [hnone] at hsome
      simp at hsome
    · rcases List.mem_cons.1 (hperm.subset he) with rfl | he'
      · exact hd.matched m (Or.inl (by simp [State.reading, hremoving, hpc])) _ he
          (hserving i hpc) k hek
      · exact absurd ⟨e, he', hek⟩ hk'

/-- **A result message only touches the analysis it was computed for**, in every run that keeps
ids fresh. -/
theorem touches_own {e : Event κ ρ} {m : Message κ}
    (hs : ((system pidOf).guard IdsFresh).Reachable s)
    (hstep : (system pidOf).step s e s') (h : Touches s m k e s') :
    k = m.sender := by
  have hd : Delivers s := by
    refine Lts.System.Reachable.invariant (I := Delivers) (?_)
      (?_) hs
    · intro s₀ h₀
      exact Loaded.delivers (show Loaded pidOf s₀ from h₀)
    · intro s₁ e s₂ h₁ hstep
      exact delivers_step h₁ hstep.1 hstep.2
  cases h with
  | writes now s' hgot hk => exact hd.writes (resultsMove_of_step hstep) hgot hk
  | removes s' hremoving hk hk' => exact hd.removes (removeMove_of_step hstep) hremoving hk hk'

/-- Up to the application of the worker's `'1'`. -/
def inTime : List (Event Nat Nat) :=
  addUntilPid 0 7 ++ addFinish 0 ++ traverse 0 ++ [.results (.read 0)]

def idsFresh (s : State Nat Nat) (e : Event Nat Nat) : Bool := IdsFresh s e

theorem touches_own_inTime :
    let s := followed pids idsFresh twoAdds inTime
    Touches s ⟨.complete, 1, 3, 5, 0⟩ 0 (.results (.apply 20))
        (stepped pids s (.results (.apply 20))) ∧
      (0 : Nat) = (⟨.complete, 1, 3, 5, 0⟩ : Message Nat).sender := by
  intro s
  have htouch : Touches s ⟨.complete, 1, 3, 5, 0⟩ 0 (.results (.apply 20))
      (stepped pids s (.results (.apply 20))) :=
    .writes 20 _ (by decide +kernel) (by decide +kernel)
  have hfollow : (follow pids idsFresh twoAdds inTime).isSome := by decide +kernel
  have hrun := run_of_follow (P := IdsFresh) (fun _ _ h => of_decide_eq_true h) hfollow
  exact ⟨htouch, touches_own ⟨twoAdds, inTime, loaded_emptyManager pids 5 _, hrun⟩
    (step_stepped (by decide +kernel)) htouch⟩

/-- A whole removal by a request thread. -/
def removal (r : Nat) (id : Int) : List (Event Nat Nat) :=
  [.call id, .extract, .unlink, .signal, .treeRemove, .insertNode, .report, .freePath, .freeRecord,
    .clear].map (.remove (some r))

/-- The analysis is removed while the `'1'` is in flight, and another add gets its id. -/
def tooLate : List (Event Nat Nat) :=
  addUntilPid 0 7 ++ addFinish 0 ++ traverse 0 ++ removal 0 1 ++ addUntilPid 1 3 ++ addFinish 1 ++
    [.results (.read 0)]

/-- The `'1'` of a removed analysis completes the analysis that has got its id. -/
theorem touches_other :
    ∃ (s s' : State Nat Nat) (m : Message Nat), (system pids).Reachable s ∧
      (system pids).step s (.results (.apply 20)) s' ∧ Touches s m 1 (.results (.apply 20)) s' ∧
      m.sender = 0 ∧ (s.heap 1).status = ANALYSIS_INPROGRESS ∧
      (s'.heap 1).status = ANALYSIS_COMPLETE := by
  have hfollow : (follow pids (fun _ _ => true) twoAdds tooLate).isSome := by decide +kernel
  have hrun := run_of_follow_all hfollow
  exact ⟨_, _, ⟨.complete, 1, 3, 5, 0⟩, ⟨twoAdds, tooLate, loaded_emptyManager pids 5 _, hrun⟩,
    step_stepped (by decide +kernel), .writes 20 _ (by decide +kernel) (by decide +kernel), rfl,
    by decide +kernel, by decide +kernel⟩

end DiskAnalyzer.Concurrent
