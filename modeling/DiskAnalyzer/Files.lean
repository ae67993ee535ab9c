import DiskAnalyzer.Listed
import DiskAnalyzer.Released

/-!
# Whose file a worker reads

An analysis's file is named by its id. `threads_remove` unlinks it before it signals the worker,
the worker writes it after it has announced its result, and the id is used again.

* `Attends`: an analysis is in the store under an id, or a removal has just taken it out and has not
  yet unlinked the file.
* `Written`: whoever has written a file attends to its id, and an id that is in use is in use once.

As long as workers touch their files only while their analyses attend to them, an add that fails
leaves no file behind, and no id is handed out that is in use (`FilesKept`), a worker reads what a
worker of its own analysis has written, or nothing.
-/

namespace DiskAnalyzer.Concurrent

open Treap

variable {κ ρ : Type}

/-! ## Who uses an id -/

/-- The node an add holds. -/
def AddPc.node : AddPc → Option Node
  | taken nd | attached nd | noMemory nd | pathed nd => some nd
  | extracted trp | unpathed trp => trp
  | _ => none

/-- The node a removal holds. -/
def RemovePc.node : RemovePc → Option Node
  | extracted trp | unlinked trp | signalled trp | unpathed trp => some trp
  | _ => none

/-- The ids that are in use. -/
def uses (s : State κ ρ) : Owner κ ρ → List Int
  | .store => s.analyses.ids
  | .free => []
  | .add k => ((s.add k).node.map Node.id).toList
  | .remove r => ((s.remove r).node.map Node.id).toList

/-- **Ids are used once.** -/
def IdsOnce (s : State κ ρ) : Prop := Ownership.Ledger (uses s) Set.univ

def Used (s : State κ ρ) (id : Int) : Prop :=
  id ∈ s.analyses.ids ∨ (∃ k, id ∈ uses s (.add k)) ∨ ∃ r, id ∈ uses s (.remove r)

instance [Fintype κ] [Fintype ρ] (s : State κ ρ) (id : Int) : Decidable (Used s id) :=
  inferInstanceAs (Decidable (_ ∨ _ ∨ _))

theorem used_of_uses {s : State κ ρ} {o : Owner κ ρ} {id : Int} (h : id ∈ uses s o) :
    Used s id := by
  cases o with
  | store => exact Or.inl h
  | free => exact absurd h List.not_mem_nil
  | add k => exact Or.inr (Or.inl ⟨k, h⟩)
  | remove r => exact Or.inr (Or.inr ⟨r, h⟩)

/-! ## Who touches a file -/

/-- The removal has not yet unlinked the file of its node's id. -/
def RemovePc.linked : RemovePc → Option Node
  | extracted trp => some trp
  | _ => none

/-- The analysis is in the store under the id, or has just been taken out. -/
def Attends (s : State κ ρ) (k : κ) (id : Int) : Prop :=
  (∃ x ∈ s.analyses.inorder, x.1 = id ∧ s.anal x.2.2 = some k) ∨
    ∃ r, ∃ trp ∈ (s.remove r).linked, trp.id = id ∧ s.anal trp.addr = some k

instance [DecidableEq κ] [Fintype ρ] (s : State κ ρ) (k : κ) (id : Int) :
    Decidable (Attends s k id) := inferInstanceAs (Decidable (_ ∨ _))

/-- The file a worker's step reads or writes. -/
def WorkerPc.touches : WorkerPc → WorkEvent → Option Int
  | replied id, .readProgress => some id
  | writing id, .write => some id
  | _, _ => none

/-- The worker that reads or writes a file, and the file's id. -/
def touches (s : State κ ρ) : Event κ ρ → Option (κ × Int)
  | .work k e _ => ((s.worker k).touches e).map fun id => (k, id)
  | _ => none

/-- A worker reads and writes its file only while its analysis attends to it; an add that takes its
node out of the store again leaves no file written by a worker; and `get_free_id` hands out no id
that is in use. -/
def FilesKept (s : State κ ρ) (e : Event κ ρ) : Prop :=
  (∀ p ∈ touches s e, Attends s p.1 p.2) ∧
    (∀ nd ∈ withdraws s e, (s.file nd.id).writer = none) ∧ ∀ nd ∈ takes s e, ¬ Used s nd.id

instance [DecidableEq κ] [Fintype κ] [Fintype ρ] (s : State κ ρ) (e : Event κ ρ) :
    Decidable (FilesKept s e) := inferInstanceAs (Decidable (_ ∧ _ ∧ _))

/-- Like `Attends`, for an analysis whose node may have lost it. -/
def Tends (s : State κ ρ) (w : κ) (id : Int) : Prop :=
  (∃ h n, (id, h, n) ∈ s.analyses.inorder ∧ ∀ k, s.anal n = some k → k = w) ∨
    ∃ r trp, (s.remove r).linked = some trp ∧ trp.id = id ∧ ∀ k, s.anal trp.addr = some k → k = w

/-- **Whoever has written a file attends to its id.** -/
structure Written (s : State κ ρ) : Prop where
  attached : Attached s
  ids : IdsOnce s
  file : ∀ id w, (s.file id).writer = some w → Tends s w id

variable {pidOf : κ → Int} {s s' : State κ ρ} {k : κ}

theorem Attends.tends {id : Int} (h : Attends s k id) : Tends s k id := by
  rcases h with ⟨x, hx, rfl, hk⟩ | ⟨r, trp, htrp, rfl, hk⟩
  · exact Or.inl ⟨x.2.1, x.2.2, hx, fun j hj => Option.some.inj (hj.symm.trans hk)⟩
  · exact Or.inr ⟨r, trp, htrp, rfl, fun j hj => Option.some.inj (hj.symm.trans hk)⟩

theorem RemovePc.node_of_linked {pc : RemovePc} {trp : Node} (h : pc.linked = some trp) :
    pc.node = some trp := by
  cases pc <;> simp_all [linked, node]

theorem RemovePc.held_of_linked {pc : RemovePc} {trp : Node} (h : pc.linked = some trp) :
    trp.addr ∈ pc.held := by
  cases pc <;> simp_all [linked, held]

theorem uses_of_linked {r : Option ρ} {trp : Node} (h : (s.remove r).linked = some trp) :
    trp.id ∈ uses s (.remove r) := by
  simp [uses, RemovePc.node_of_linked h]

/-- In the store an id is under one node. -/
theorem IdsOnce.unique (hi : IdsOnce s) {id h h' : Int} {n n' : Nat}
    (hm : (id, h, n) ∈ s.analyses.inorder) (hm' : (id, h', n') ∈ s.analyses.inorder) : n = n' := by
  have hnodup : s.analyses.ids.Nodup := hi.nodup .store
  have heq := List.inj_on_of_nodup_map hnodup hm hm' rfl
  simp only [Prod.mk.injEq] at heq
  exact heq.2.2

/-- Two analyses that attend to one id are the same. -/
theorem Tends.eq (hi : IdsOnce s) {w : κ} {id : Int} (hw : Tends s w id) (hk : Attends s k id) :
    k = w := by
  rcases hk with ⟨⟨_, h, n⟩, hm, rfl, hk⟩ | ⟨r, trp, htrp, rfl, hk⟩
  · rcases hw with ⟨h', n', hm', hw⟩ | ⟨r', trp', htrp', hid, hw⟩
    · obtain rfl := hi.unique hm hm'
      exact hw k hk
    · have huse := hid ▸ uses_of_linked htrp'
      exact absurd (hi.owner (o := .store) (mem_ids_of_mem hm) huse) (by simp)
  · have huse := uses_of_linked htrp
    rcases hw with ⟨h', n', hm', hw⟩ | ⟨r', trp', htrp', hid, hw⟩
    · exact absurd (hi.owner (o := .store) (mem_ids_of_mem hm') huse) (by simp)
    · obtain rfl := Owner.remove.inj (hi.owner huse (hid ▸ uses_of_linked htrp'))
      obtain rfl := Option.some.inj (htrp.symm.trans htrp')
      exact hw k hk

theorem Started.written (h : Started pidOf s) : Written s := by
  have hadd : ∀ k, (s.add k).node = none := by
    intro k
    rcases h.add k with hpc | ⟨hpc, -⟩ <;> rw [hpc] <;> rfl
  have hremove : ∀ r, (s.remove r).node = none := by
    intro r
    rw [h.remove r]
    rfl
  refine ⟨h.attachedOnce, ⟨?_, ?_, fun _ => trivial⟩, ?_⟩
  · intro o
    cases o <;> simp [uses, hadd, hremove, h.ordered.nodup]
  · intro o o' id hid hid'
    cases o <;> cases o' <;> simp_all [uses]
  · intro id w hw
    obtain ⟨h', n, hm, hk⟩ := h.files id w hw
    exact Or.inl ⟨h', n, hm, fun j hj => Option.some.inj (hj.symm.trans hk)⟩

/-! ## Steps use ids once -/

theorem ids_extract_cases (t : Treap Nat) (id : Int) :
    detached (treapExtract t id).1 = none ∧ (treapExtract t id).2.ids = t.ids ∨
      ∃ nd, detached (treapExtract t id).1 = some nd ∧
        t.ids.Perm (nd.id :: (treapExtract t id).2.ids) := by
  rcases extract_nodes t id with ⟨hnone, hin⟩ | ⟨nd, hsome, rfl, hperm⟩
  · exact Or.inl ⟨hnone, by rw [ids, ids, hin]⟩
  · exact Or.inr ⟨nd, hsome, hperm.map _⟩

theorem IdsOnce.keep (hi : IdsOnce s) (hsame : ∀ o, uses s' o = uses s o) : IdsOnce s' := by
  refine Ownership.Ledger.congr hi ?_
  intro o
  rw [hsame o]

section Ids

variable [DecidableEq κ] [DecidableEq ρ]

@[simp] theorem uses_setAdd (s : State κ ρ) (k : κ) (pc : AddPc) (o : Owner κ ρ) :
    uses (s.setAdd k pc) o = if o = .add k then (pc.node.map Node.id).toList else uses s o := by
  cases o with
  | add w => by_cases hw : w = k <;> simp [uses, State.setAdd, hw]
  | _ => rfl

@[simp] theorem uses_setRemove (s : State κ ρ) (r : Option ρ) (pc : RemovePc) (o : Owner κ ρ) :
    uses (s.setRemove r pc) o =
      if o = .remove r then (pc.node.map Node.id).toList else uses s o := by
  cases o with
  | remove u => by_cases hu : u = r <;> simp [uses, State.setRemove, hu]
  | _ => rfl

theorem uses_leave (s : State κ ρ) (r : Option ρ) (o : Owner κ ρ) :
    uses (leave s r) o = if o = .remove r then [] else uses s o := by
  cases r <;> rw [leave, uses_setRemove] <;> rfl

/-- A step that leaves every id with its user. -/
theorem IdsOnce.setAdd {t : State κ ρ} {pc : AddPc} (hi : IdsOnce s)
    (ht : ∀ o, uses t o = uses s o) (hpc : pc.node = (s.add k).node) : IdsOnce (t.setAdd k pc) := by
  refine hi.keep ?_
  intro o
  rw [uses_setAdd]
  split_ifs with ho
  · rw [ho, hpc]
    rfl
  · exact ht o

theorem IdsOnce.setRemove {t : State κ ρ} {r : Option ρ} {pc : RemovePc} (hi : IdsOnce s)
    (ht : ∀ o, uses t o = uses s o) (hpc : pc.node = (s.remove r).node) :
    IdsOnce (t.setRemove r pc) := by
  refine hi.keep ?_
  intro o
  rw [uses_setRemove]
  split_ifs with ho
  · rw [ho, hpc]
    rfl
  · exact ht o

theorem IdsOnce.leave {t : State κ ρ} {r : Option ρ} (hi : IdsOnce s)
    (ht : ∀ o, uses t o = uses s o) (hpc : (s.remove r).node = none) :
    IdsOnce (Concurrent.leave t r) := by
  refine hi.keep ?_
  intro o
  rw [uses_leave]
  split_ifs with ho
  · rw [ho]
    simp [uses, hpc]
  · exact ht o

theorem AddMove.idsOnce {e : AddEvent} (h : AddMove pidOf s k e s') (hi : IdsOnce s)
    (hok : ∀ nd ∈ takes s (.add k e : Event κ ρ), ¬ Used s nd.id) : IdsOnce s' := by
  cases h with
  | findPrefix pc hpc hres =>
    refine hi.setAdd (fun _ => rfl) ?_
    rcases hres with rfl | ⟨-, rfl⟩ <;> rw [hpc] <;> rfl
  | getFreeId rand pc hpc hres =>
    have hnone : uses s (.add k) = [] := by simp [uses, hpc, AddPc.node]
    rcases hres with ⟨-, rfl⟩ | ⟨nd, hnd, rfl⟩
    · refine hi.keep ?_
      intro o
      cases o with
      | add w =>
        by_cases hw : w = k <;> simp [uses, State.setAdd, State.setAnal, AddPc.node, hw, hpc]
      | _ => rfl
    · -- The id is new to those who use ids.
      refine Ownership.Ledger.gain hi (a := nd.id) (o := .add k) ?_ trivial ?_ ?_
      · exact fun o ho => hok nd hnd (used_of_uses ho)
      · simp [hnone, AddPc.node]
      · intro u hu
        rw [uses_setAdd, if_neg hu]
        cases u <;> rfl
  | attach nd hpc =>
    exact hi.setAdd (t := s.setAnal nd.addr (some k)) (fun o => by cases o <;> rfl) (hpc ▸ rfl)
  | treeInsert nd alloc pc hpc hres =>
    refine hi.setAdd (t := { s with paths := _ }) (fun o => by cases o <;> rfl) ?_
    rcases hres with ⟨-, rfl⟩ | ⟨-, rfl⟩ <;> rw [hpc] <;> rfl
  | giveBack nd hpc =>
    refine Ownership.Ledger.drop hi (fun o => ?_) fun _ _ => trivial
    rw [uses_setAdd]
    split_ifs with ho
    · exact List.nil_subperm
    · cases o <;> exact List.Subperm.refl _
  | insertNode nd now hpc =>
    refine Ownership.Ledger.move hi (o := .add k) (p := .store) (a := nd.id) (by simp) ?_ ?_ ?_
    · simp [uses, State.setAdd, hpc, AddPc.node]
    · exact (perm_insertNode s.analyses nd.id nd.heapVal nd.addr).map Prod.fst
    · intro u hu hu'
      rw [uses_setAdd, if_neg hu]
      cases u <;> first | rfl | exact absurd rfl hu'
  | extract nd hpc =>
    have hnone : uses s (.add k) = [] := by simp [uses, hpc, AddPc.node]
    rcases ids_extract_cases s.analyses nd.id with ⟨hdet, hids⟩ | ⟨nd', hdet, hperm⟩
    · rw [hdet]
      refine hi.keep ?_
      intro o
      cases o with
      | add w => by_cases hw : w = k <;> simp [uses, State.setAdd, AddPc.node, hw, hpc]
      | store => exact hids
      | _ => rfl
    · rw [hdet]
      refine Ownership.Ledger.move hi (o := .store) (p := .add k) (a := nd'.id) (by simp) hperm
        ?_ ?_
      · simp [hnone, AddPc.node]
      · intro u hu hu'
        rw [uses_setAdd, if_neg hu']
        cases u <;> first | rfl | exact absurd rfl hu
  | treeRemove trp hpc hlive =>
    exact hi.setAdd (t := { s with paths := _ }) (fun o => by cases o <;> rfl) (by rw [hpc]; rfl)
  | _ => exact hi.setAdd (fun o => by cases o <;> rfl) (by simp_all [AddPc.node])

theorem RemoveMove.idsOnce {r : Option ρ} {e : RemoveEvent} (h : RemoveMove pidOf s r e s')
    (hi : IdsOnce s) : IdsOnce s' := by
  cases h with
  | extractNone id hpc hnone =>
    refine hi.leave (t := { s with analyses := _ }) ?_ (by rw [hpc]; rfl)
    intro o
    cases o with
    | store =>
      rcases ids_extract_cases s.analyses id with ⟨-, hids⟩ | ⟨nd, hsome, -⟩
      · exact hids
      · exact absurd (hnone.symm.trans hsome) (by simp)
    | _ => rfl
  | extract id trp hpc hsome =>
    rcases ids_extract_cases s.analyses id with ⟨hnone, -⟩ | ⟨nd, hnd, hperm⟩
    · exact absurd (hnone.symm.trans hsome) (by simp)
    · obtain rfl := Option.some.inj (hnd.symm.trans hsome)
      refine Ownership.Ledger.move hi (o := .store) (p := .remove r) (a := nd.id) (by simp) hperm
        ?_ ?_
      · simp [uses, State.setRemove, hpc, RemovePc.node]
      · intro u hu hu'
        rw [uses_setRemove, if_neg hu']
        cases u <;> first | rfl | exact absurd rfl hu
  | insertNode trp hpc =>
    refine Ownership.Ledger.drop hi (fun o => ?_) fun _ _ => trivial
    rw [uses_setRemove]
    split_ifs with ho
    · exact List.nil_subperm
    · cases o <;> exact List.Subperm.refl _
  | clear trp hpc =>
    exact hi.leave (t := s.setAnal trp.addr none) (fun o => by cases o <;> rfl) (by rw [hpc]; rfl)
  | _ => exact hi.setRemove (fun o => by cases o <;> rfl) (by simp_all [RemovePc.node])

end Ids

/-! ## Steps keep who has written -/

section Frames

variable [DecidableEq κ]

/-- A node leaves the store when its id is withdrawn. -/
theorem AddMove.inorder_keep {e : AddEvent} (h : AddMove pidOf s k e s') {x : Int × Int × Nat}
    (hx : x ∈ s.analyses.inorder)
    (hne : ∀ nd ∈ withdraws s (.add k e : Event κ ρ), nd.id ≠ x.1) : x ∈ s'.analyses.inorder := by
  cases h with
  | insertNode nd now hpc =>
    have hperm := perm_insertNode s.analyses nd.id nd.heapVal nd.addr
    exact hperm.symm.subset (List.mem_cons_of_mem _ hx)
  | extract nd hpc =>
    rcases extract_nodes s.analyses nd.id with ⟨-, hin⟩ | ⟨nd', -, -, hperm⟩
    · exact hin.symm ▸ hx
    · rcases List.mem_cons.1 (hperm.subset hx) with rfl | hx
      · exact absurd rfl (hne nd (by simp [withdraws, hpc]))
      · exact hx
  | _ => exact hx

/-- Nobody attaches an analysis to a node that the add does not hold. -/
theorem AddMove.anal_other {e : AddEvent} (h : AddMove pidOf s k e s') (ha : Attached s)
    {o : Owner κ ρ} {n : Nat} (hn : n ∈ holds s o) (ho : o ≠ .add k) {w : κ}
    (hw : s'.anal n = some w) : s.anal n = some w := by
  refine (h.anal_of hw).resolve_right fun hnew => ?_
  obtain ⟨-, nd, hpc, -, rfl⟩ := hnew
  have hheld : nd.addr ∈ holds s (.add k) := by simp [holds, hpc]
  exact ho (ha.nodes.owner hn hheld)

theorem AddMove.tends {e : AddEvent} (h : AddMove pidOf s k e s') (ha : Attached s) {w : κ}
    {id : Int} (ht : Tends s w id)
    (hne : ∀ nd ∈ withdraws s (.add k e : Event κ ρ), nd.id ≠ id) : Tends s' w id := by
  rcases ht with ⟨h', n, hm, hn⟩ | ⟨r, trp, htrp, hid, hn⟩
  · have hstore : n ∈ holds s .store := mem_addrs hm
    refine Or.inl ⟨h', n, h.inorder_keep hm hne, ?_⟩
    intro j hj
    exact hn j (h.anal_other ha hstore (by simp) hj)
  · have hheld : trp.addr ∈ holds s (.remove r) := RemovePc.held_of_linked htrp
    refine Or.inr ⟨r, trp, by rwa [h.remove], hid, ?_⟩
    intro j hj
    exact hn j (h.anal_other ha hheld (by simp) hj)

theorem AddMove.file {e : AddEvent} (h : AddMove pidOf s k e s') : s'.file = s.file := by
  cases h <;> rfl

/-- What a worker's step has written. -/
theorem writer_workerWrites {file : Int → File κ} {pc : WorkerPc} {e : WorkEvent} {id : Int} {w : κ}
    (hw : (workerWrites file k pc e id).writer = some w) :
    (file id).writer = some w ∨ w = k ∧ pc.touches e = some id := by
  unfold workerWrites at hw
  split at hw
  · rename_i i
    left
    split_ifs at hw with habsent
    · by_cases hid : id = i
      · simp [hid, File.writer] at hw
      · simpa [hid] using hw
    · exact hw
  · rename_i i
    by_cases hid : id = i
    · obtain rfl : k = w := by simpa [hid, File.writer] using hw
      exact Or.inr ⟨rfl, by rw [hid]; rfl⟩
    · left
      simpa [hid] using hw
  · exact Or.inl hw

variable [DecidableEq ρ]

/-- A node leaves the store when the removal takes it. -/
theorem RemoveMove.inorder_keep {r : Option ρ} {e : RemoveEvent} (h : RemoveMove pidOf s r e s')
    {x : Int × Int × Nat} (hx : x ∈ s.analyses.inorder) :
    x ∈ s'.analyses.inorder ∨
      ∃ trp, (s'.remove r).linked = some trp ∧ x = (trp.id, trp.heapVal, trp.addr) := by
  cases h with
  | extractNone id hpc hnone =>
    left
    have hin : (treapExtract s.analyses id).2.inorder = s.analyses.inorder := by
      rcases extract_nodes s.analyses id with ⟨-, hin⟩ | ⟨nd, hsome, -⟩
      · exact hin
      · exact absurd (hnone.symm.trans hsome) (by simp)
    cases r <;> exact hin.symm ▸ hx
  | extract id trp hpc hsome =>
    rcases extract_nodes s.analyses id with ⟨hnone, -⟩ | ⟨nd, hnd, rfl, hperm⟩
    · exact absurd (hnone.symm.trans hsome) (by simp)
    · obtain rfl := Option.some.inj (hnd.symm.trans hsome)
      rcases List.mem_cons.1 (hperm.subset hx) with rfl | hx
      · exact Or.inr ⟨nd, by simp [State.setRemove, RemovePc.linked], rfl⟩
      · exact Or.inl hx
  | clear trp hpc => cases r <;> exact Or.inl hx
  | _ => exact Or.inl hx

theorem RemoveMove.file {r : Option ρ} {e : RemoveEvent} (h : RemoveMove pidOf s r e s')
    (id : Int) : s'.file id = s.file id ∨ s'.file id = .absent := by
  cases h with
  | unlink trp hpc =>
    by_cases hid : id = trp.id
    · exact Or.inr (by simp [State.setRemove, hid])
    · exact Or.inl (by simp [State.setRemove, hid])
  | extractNone => cases r <;> exact Or.inl rfl
  | clear => cases r <;> exact Or.inl rfl
  | _ => exact Or.inl rfl

/-- A removal attends to its node's id until it unlinks the file. -/
theorem RemoveMove.linked {r : Option ρ} {e : RemoveEvent} (h : RemoveMove pidOf s r e s')
    {trp : Node} (hl : (s.remove r).linked = some trp) : s'.file trp.id = .absent := by
  cases h with
  | unlink trp' hpc =>
    obtain rfl : trp' = trp := by simpa [hpc, RemovePc.linked] using hl
    simp [State.setRemove]
  | _ => simp_all [RemovePc.linked]

theorem RemoveMove.tends {r : Option ρ} {e : RemoveEvent} (h : RemoveMove pidOf s r e s') {w : κ}
    {id : Int} (ht : Tends s w id) : Tends s' w id ∨ s'.file id = .absent := by
  rcases ht with ⟨h', n, hm, hn⟩ | ⟨r', trp, htrp, rfl, hn⟩
  · left
    rcases h.inorder_keep hm with hm | ⟨trp, htrp, heq⟩
    · exact Or.inl ⟨h', n, hm, fun j hj => hn j (h.anal_of hj)⟩
    · simp only [Prod.mk.injEq] at heq
      obtain ⟨rfl, -, rfl⟩ := heq
      exact Or.inr ⟨r, trp, htrp, rfl, fun j hj => hn j (h.anal_of hj)⟩
  · by_cases heq : r' = r
    · subst heq
      exact Or.inr (h.linked htrp)
    · left
      rw [← h.remove_ne heq] at htrp
      exact Or.inr ⟨r', trp, htrp, rfl, fun j hj => hn j (h.anal_of hj)⟩

end Frames

/-! ## Steps -/

section Steps

variable [DecidableEq κ]

theorem workStep_written {e : WorkEvent} {delivered : Bool}
    (h : workStep s k e delivered = some s') (hw : Written s)
    (hok : FilesKept s (.work k e delivered : Event κ ρ)) : Written s' := by
  obtain ⟨pc, -, rfl⟩ := Option.map_eq_some_iff.1 h
  refine ⟨⟨hw.attached.nodes, hw.attached.serving, hw.attached.inj, hw.attached.place,
    hw.attached.own⟩, hw.ids, ?_⟩
  intro id w hwriter
  rcases writer_workerWrites hwriter with hold | ⟨rfl, htouches⟩
  · exact hw.file id w hold
  · exact (hok.1 (w, id) (by simp [touches, htouches])).tends

variable [DecidableEq ρ]

theorem AddMove.written {e : AddEvent} (h : AddMove pidOf s k e s') (hw : Written s)
    (hok : FilesKept s (.add k e : Event κ ρ)) : Written s' := by
  refine ⟨h.attached hw.attached, h.idsOnce hw.ids hok.2.2, ?_⟩
  intro id w hwriter
  rw [h.file] at hwriter
  refine h.tends hw.attached (hw.file id w hwriter) ?_
  -- An add that takes its node out leaves no file under that id.
  intro nd hnd hid
  have hnone := hok.2.1 nd hnd
  rw [hid, hwriter] at hnone
  simp at hnone

theorem RemoveMove.written {r : Option ρ} {e : RemoveEvent} (h : RemoveMove pidOf s r e s')
    (hw : Written s) : Written s' := by
  refine ⟨h.attached hw.attached, h.idsOnce hw.ids, ?_⟩
  intro id w hwriter
  have hpresent : s'.file id ≠ .absent := by
    intro habsent
    simp [habsent, File.writer] at hwriter
  have hsame := (h.file id).resolve_right hpresent
  rw [hsame] at hwriter
  exact (h.tends (hw.file id w hwriter)).resolve_right hpresent

theorem ResultsMove.written {e : ResultsEvent} (h : ResultsMove s e s') (hw : Written s)
    (ha : Attached s') : Written s' := by
  cases h with
  | readFailed i m hpc hi hfailed =>
    have hidle : s.remove none = .idle := by simpa [Serving, hpc] using hw.attached.serving
    refine ⟨ha, hw.ids.keep ?_, ?_⟩
    · intro o
      rw [uses_setRemove]
      split_ifs with ho
      · rw [ho]
        simp [uses, hidle, RemovePc.node]
      · cases o <;> rfl
    · intro id w hwriter
      rcases hw.file id w hwriter with hstore | ⟨r, trp, htrp, hid, hn⟩
      · exact Or.inl hstore
      · refine Or.inr ⟨r, trp, ?_, hid, hn⟩
        have hne : r ≠ none := by
          rintro rfl
          simp [hidle, RemovePc.linked] at htrp
        simpa [State.setRemove, hne] using htrp
  | _ => exact ⟨ha, hw.ids.keep fun o => by cases o <;> rfl, hw.file⟩

/-- **One step** that keeps to the files of its own analysis. -/
theorem written_step {e : Event κ ρ} (hw : Written s) (h : (system pidOf).step s e s')
    (hok : FilesKept s e) : Written s' := by
  cases e with
  | add k e => exact (addMove_of_step h).written hw hok
  | remove r e => exact (removeMove_of_step h).written hw
  | work k e delivered => exact workStep_written h hw hok
  | results e => exact (resultsMove_of_step h).written hw (attached_step hw.attached h)

theorem written_of_reachable (h : ((started pidOf).guard FilesKept).Reachable s) : Written s := by
  refine h.invariant (I := Written) ?_ ?_
  · intro s₀ h₀
    exact Started.written (show Started pidOf s₀ from h₀)
  · intro s₁ e s₂ h₁ hstep
    exact written_step h₁ hstep.1 hstep.2

end Steps

variable [DecidableEq κ] [DecidableEq ρ]

def filesKept (s : State Bool Unit) (e : Event Bool Unit) : Bool := FilesKept s e

/-- An analysis is completed, its report written, and it is removed; its id is used again. -/
def removedAfterWrite : List (Event Bool Unit) :=
  addUntilPid false 7 ++ addFinish false ++ traverse false ++ [.work false .write true] ++
    removalOf 1 ++ addUntilPid true 3

def afterWrite : State Bool Unit := followed boolPids filesKept oneMoreAdd removedAfterWrite

/-- The removal comes between the announcement and the report. -/
def removedBeforeWrite : List (Event Bool Unit) :=
  addUntilPid false 7 ++ addFinish false ++ traverse false ++ removalOf 1 ++
    [.work false .write true] ++ addUntilPid true 3

end DiskAnalyzer.Concurrent
