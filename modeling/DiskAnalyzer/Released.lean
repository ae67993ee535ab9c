import DiskAnalyzer.Attached
import Mathlib.Data.Fintype.Option

/-!
# A removed node is released before it is used again

`threads_remove` puts its node among the free ids and only then reports the analysis, frees it and
clears the field that points to it. In between an add may be given that very node. As long as
`get_free_id` hands out no node that a removal still points to (`NotReused`), what the removal
reports and frees is the analysis it has extracted, no analysis is freed in `man->analyses`, and no
node there has lost its analysis.

The invariant is `Releases`: a node that is back among the free ids while a removal points to it is
held by nobody else, so nobody else writes its field.
-/

namespace DiskAnalyzer.Concurrent

open Treap

variable {κ ρ : Type}

/-- The node `threads_remove` points to. -/
def RemovePc.points : RemovePc → Option Node
  | extracted trp | unlinked trp | signalled trp | unpathed trp | given trp | reported trp
  | pathFreed trp | recordFreed trp => some trp
  | _ => none

/-- The node `threads_remove` points to, once it is back among the free ids. -/
def RemovePc.left : RemovePc → Option Node
  | given trp | reported trp | pathFreed trp | recordFreed trp => some trp
  | _ => none

/-- The add has not put its node into the store yet. -/
def AddPc.early : AddPc → Bool
  | ready | checked | taken _ | attached _ | noMemory _ | pathed _ => true
  | _ => false

/-- The add has failed, and has taken its node out of the store if it had put it there. -/
def AddPc.gone : AddPc → Bool
  | extracted _ | unpathed _ | failed | released => true
  | _ => false

/-- The node an event takes from the free ids. -/
def takes (s : State κ ρ) : Event κ ρ → Option Node
  | .add _ (.getFreeId rand) => detached (getFreeId rand s.next s.availableIds).1
  | _ => none

/-- The node of the add that takes its analysis out of the store again. -/
def withdraws (s : State κ ρ) : Event κ ρ → Option Node
  | .add k .extract =>
    match s.add k with
    | .refused nd => some nd
    | _ => none
  | _ => none

/-- `get_free_id` hands out no node that a removal points to, and an add that fails takes its own
node out of the store, if it is there. -/
def NotReused (s : State κ ρ) (e : Event κ ρ) : Prop :=
  (∀ nd ∈ takes s e, ∀ r, ∀ trp ∈ (s.remove r).left, trp.addr ≠ nd.addr) ∧
    ∀ nd ∈ withdraws s e, nd.addr ∈ addrs s.analyses →
      ∃ trp ∈ detached (treapExtract s.analyses nd.id).1, trp.addr = nd.addr

instance [Fintype ρ] (s : State κ ρ) (e : Event κ ρ) : Decidable (NotReused s e) :=
  inferInstanceAs (Decidable (_ ∧ _))

/-- Somebody holds the node who is not the free treap. -/
def Held (s : State κ ρ) (n : Nat) : Prop := ∃ o, o ≠ .free ∧ n ∈ holds s o

variable {pidOf : κ → Int} {s s' : State κ ρ} {k : κ}

theorem stored_iff : Stored s k ↔ ∃ n ∈ addrs s.analyses, s.anal n = some k := by
  constructor
  · rintro ⟨e, he, hk⟩
    exact ⟨e.2.2, mem_addrs he, hk⟩
  · rintro ⟨n, hn, hk⟩
    obtain ⟨e, he, rfl⟩ := List.mem_map.1 hn
    exact ⟨e, he, hk⟩

theorem held_store {n : Nat} (h : n ∈ addrs s.analyses) : Held s n := ⟨.store, by simp, h⟩

theorem held_add {n : Nat} (h : n ∈ (s.add k).held) : Held s n := ⟨.add k, by simp, h⟩

theorem held_remove {r : Option ρ} {n : Nat} (h : n ∈ (s.remove r).held) : Held s n :=
  ⟨.remove r, by simp, h⟩

/-- Holding neither in the store nor as an add or a removal is not holding. -/
theorem Held.elim {n : Nat} {P : Prop} (h : Held s n) (hstore : n ∈ addrs s.analyses → P)
    (hadd : ∀ k, n ∈ (s.add k).held → P) (hremove : ∀ r, n ∈ (s.remove r).held → P) : P := by
  obtain ⟨o, ho, hn⟩ := h
  cases o with
  | store => exact hstore hn
  | free => exact absurd rfl ho
  | add k => exact hadd k hn
  | remove r => exact hremove r hn

theorem RemovePc.held_or_left {pc : RemovePc} {trp : Node} (h : pc.points = some trp) :
    trp.addr ∈ pc.held ∨ pc.left = some trp := by
  cases pc <;> simp [points] at h <;> simp [held, left, h]

/-! ## Frames -/

section Frames

variable [DecidableEq κ]

theorem detached_addr {t : Treap Nat} {id : Int} {trp : Node}
    (h : detached (treapExtract t id).1 = some trp) :
    (addrs t).Perm (trp.addr :: addrs (treapExtract t id).2) := by
  rcases extract_nodes t id with ⟨hnone, -⟩ | ⟨nd, hnd, -, hperm⟩
  · exact absurd (hnone.symm.trans h) (by simp)
  · obtain rfl := Option.some.inj (hnd.symm.trans h)
    exact hperm.map _

theorem AddMove.inorder {e : AddEvent} (h : AddMove pidOf s k e s') {x : Int × Int × Nat}
    (hx : x ∈ s'.analyses.inorder) :
    x ∈ s.analyses.inorder ∨
      ∃ nd, s.add k = .pathed nd ∧ s'.add k = .stored nd ∧ x = (nd.id, nd.heapVal, nd.addr) := by
  cases h with
  | insertNode nd now hpc =>
    have hperm := perm_insertNode s.analyses nd.id nd.heapVal nd.addr
    rcases List.mem_cons.1 (hperm.subset hx) with rfl | hx
    · exact Or.inr ⟨nd, hpc, by simp [State.setAdd], rfl⟩
    · exact Or.inl hx
  | extract nd hpc => exact Or.inl (mem_of_mem_extract hx)
  | _ => exact Or.inl hx

theorem AddMove.store {e : AddEvent} (h : AddMove pidOf s k e s') {n : Nat}
    (hn : n ∈ addrs s'.analyses) :
    n ∈ addrs s.analyses ∨ ∃ nd, s.add k = .pathed nd ∧ s'.add k = .stored nd ∧ n = nd.addr := by
  obtain ⟨x, hx, rfl⟩ := List.mem_map.1 hn
  rcases h.inorder hx with hx | ⟨nd, hpc, hpc', rfl⟩
  · exact Or.inl (mem_addrs hx)
  · exact Or.inr ⟨nd, hpc, hpc', rfl⟩

/-- The nodes an add holds after a step. -/
theorem AddMove.held_self {e : AddEvent} (h : AddMove pidOf s k e s') {n : Nat}
    (hn : n ∈ (s'.add k).held) :
    Held s n ∨ ∃ nd ∈ takes s (.add k e : Event κ ρ), n = nd.addr := by
  cases h with
  | findPrefix pc hpc hres =>
    rcases hres with rfl | ⟨-, rfl⟩ <;> simp [State.setAdd, AddPc.held] at hn
  | getFreeId rand pc hpc hres =>
    rcases hres with ⟨-, rfl⟩ | ⟨nd, hnd, rfl⟩
    · simp [State.setAdd] at hn
    · exact Or.inr ⟨nd, hnd, by simpa [State.setAdd] using hn⟩
  | treeInsert nd alloc pc hpc hres =>
    refine Or.inl (held_add (k := k) ?_)
    rcases hres with ⟨-, rfl⟩ | ⟨-, rfl⟩ <;> simpa [State.setAdd, AddPc.held, hpc] using hn
  | extract nd hpc =>
    rcases extract_nodes s.analyses nd.id with ⟨hnone, -⟩ | ⟨nd', hsome, -, hperm⟩
    · simp [State.setAdd, hnone] at hn
    · obtain rfl : n = nd'.addr := by simpa [State.setAdd, hsome] using hn
      exact Or.inl (held_store ((detached_addr hsome).symm.subset List.mem_cons_self))
  | treeRemove trp hpc hlive =>
    refine Or.inl (held_add (k := k) ?_)
    cases trp <;> simpa [State.setAdd, AddPc.held, hpc] using hn
  | attach nd hpc =>
    exact Or.inl (held_add (k := k) (by simpa [State.setAdd, AddPc.held, hpc] using hn))
  | mallocFails nd hpc =>
    exact Or.inl (held_add (k := k) (by simpa [State.setAdd, AddPc.held, hpc] using hn))
  | _ => simp [State.setAdd, AddPc.held] at hn

theorem AddMove.remove {e : AddEvent} (h : AddMove pidOf s k e s') : s'.remove = s.remove := by
  cases h <;> rfl

/-- Only `get_free_id` makes somebody hold a node. -/
theorem AddMove.held {e : AddEvent} (h : AddMove pidOf s k e s') {n : Nat} (hn : Held s' n) :
    Held s n ∨ ∃ nd ∈ takes s (.add k e : Event κ ρ), n = nd.addr := by
  refine hn.elim ?_ ?_ ?_
  · intro hn
    rcases h.store hn with hn | ⟨nd, hpc, -, rfl⟩
    · exact Or.inl (held_store hn)
    · exact Or.inl (held_add (k := k) (by simp [hpc]))
  · intro w hn
    by_cases hw : w = k
    · subst hw
      exact h.held_self hn
    · rw [h.add_ne hw] at hn
      exact Or.inl (held_add hn)
  · intro r hn
    rw [h.remove] at hn
    exact Or.inl (held_remove hn)

/-- Who clears a field: `get_free_id` makes a node, and `return_id` gives one back. -/
theorem AddMove.anal_none {e : AddEvent} (h : AddMove pidOf s k e s') {n : Nat}
    (hn : s'.anal n = none) :
    s.anal n = none ∨ n = s.next ∨ n ∈ (s.add k).held ∧ s'.add k = .failed := by
  cases h with
  | getFreeId rand pc hpc hres =>
    by_cases heq : n = s.next
    · exact Or.inr (Or.inl heq)
    · left
      simpa [State.setAnal, State.setAdd, heq] using hn
  | attach nd hpc =>
    by_cases heq : n = nd.addr
    · exact absurd hn (by simp [State.setAnal, State.setAdd, heq])
    · left
      simpa [State.setAnal, State.setAdd, heq] using hn
  | giveBack nd hpc =>
    by_cases heq : n = nd.addr
    · refine Or.inr (Or.inr ⟨?_, by simp [State.setAdd]⟩)
      rcases hpc with hpc | hpc <;> simp [hpc, heq, AddPc.held]
    · left
      simpa [Concurrent.giveBack, State.setAnal, State.setAdd, heq] using hn
  | _ => exact Or.inl hn

/-- An analysis gets into the store by its own add. -/
theorem AddMove.stored {e : AddEvent} (h : AddMove pidOf s k e s') (ha : Attached s) {w : κ}
    (hw : Stored s' w) :
    Stored s w ∨ w = k ∧ ∃ nd, s.add k = .pathed nd ∧ s'.add k = .stored nd := by
  obtain ⟨n, hn, hw⟩ := stored_iff.1 hw
  rcases h.store hn with hn | ⟨nd, hpc, hpc', rfl⟩
  · rcases h.anal_of hw with hw | ⟨-, nd, hpc, -, rfl⟩
    · exact Or.inl (stored_iff.2 ⟨n, hn, hw⟩)
    · have hadd : nd.addr ∈ holds s (.add k) := by simp [holds, hpc]
      exact absurd (ha.nodes.owner (show nd.addr ∈ holds s .store from hn) hadd) (by simp)
  · rcases h.anal_of hw with hw | ⟨-, nd', hpc'', -⟩
    · exact Or.inr ⟨ha.own k nd w (by simp [hpc, AddPc.attachedTo]) hw, nd, hpc, hpc'⟩
    · exact absurd (hpc.symm.trans hpc'') (by simp)

theorem AddMove.next_le {e : AddEvent} (h : AddMove pidOf s k e s') : s.next ≤ s'.next := by
  cases h with
  | getFreeId rand pc hpc hres => exact Nat.le_succ _
  | _ => exact le_refl _

variable [DecidableEq ρ]

theorem RemoveMove.remove_ne {r r' : Option ρ} {e : RemoveEvent} (h : RemoveMove pidOf s r e s')
    (hr : r' ≠ r) : s'.remove r' = s.remove r' := by
  cases h with
  | extractNone => cases r <;> exact Function.update_of_ne hr _ _
  | clear => cases r <;> exact Function.update_of_ne hr _ _
  | _ => exact Function.update_of_ne hr _ _

theorem RemoveMove.inorder {r : Option ρ} {e : RemoveEvent} (h : RemoveMove pidOf s r e s')
    {x : Int × Int × Nat} (hx : x ∈ s'.analyses.inorder) : x ∈ s.analyses.inorder := by
  cases h with
  | extractNone id hpc hnone =>
    refine mem_of_mem_extract (i := id) ?_
    cases r <;> exact hx
  | extract id trp hpc hsome => exact mem_of_mem_extract hx
  | clear trp hpc => cases r <;> exact hx
  | _ => exact hx

theorem RemoveMove.store {r : Option ρ} {e : RemoveEvent} (h : RemoveMove pidOf s r e s') {n : Nat}
    (hn : n ∈ addrs s'.analyses) : n ∈ addrs s.analyses := by
  obtain ⟨x, hx, rfl⟩ := List.mem_map.1 hn
  exact mem_addrs (h.inorder hx)

theorem RemoveMove.held {r : Option ρ} {e : RemoveEvent} (h : RemoveMove pidOf s r e s') {n : Nat}
    (hn : Held s' n) : Held s n := by
  obtain ⟨-, hadd, -⟩ := h.frame
  refine hn.elim (fun hn => held_store (h.store hn)) (fun w hn => held_add (hadd ▸ hn)) ?_
  intro r' hn
  by_cases hr : r' = r
  · subst hr
    cases h with
    | extractNone => cases r' <;> simp [leave, State.setRemove, RemovePc.held] at hn
    | extract id trp hpc hsome =>
      obtain rfl : n = trp.addr := by simpa [State.setRemove] using hn
      exact held_store ((detached_addr hsome).symm.subset List.mem_cons_self)
    | clear => cases r' <;> simp [leave, State.setRemove, RemovePc.held] at hn
    | unlink trp hpc =>
      exact held_remove (r := r') (by simpa [State.setRemove, RemovePc.held, hpc] using hn)
    | signal trp k interrupted hpc =>
      exact held_remove (r := r') (by simpa [State.setRemove, RemovePc.held, hpc] using hn)
    | treeRemove trp k hpc =>
      exact held_remove (r := r') (by simpa [State.setRemove, RemovePc.held, hpc] using hn)
    | _ => simp [State.setRemove, RemovePc.held] at hn
  · rw [h.remove_ne hr] at hn
    exact held_remove hn

theorem RemoveMove.stored {r : Option ρ} {e : RemoveEvent} (h : RemoveMove pidOf s r e s') {w : κ}
    (hw : Stored s' w) : Stored s w := by
  obtain ⟨n, hn, hw⟩ := stored_iff.1 hw
  exact stored_iff.2 ⟨n, h.store hn, h.anal_of hw⟩

/-- Where a removal's node goes among the free ids. -/
theorem RemoveMove.left {r : Option ρ} {e : RemoveEvent} (h : RemoveMove pidOf s r e s')
    {trp : Node} (hleft : (s'.remove r).left = some trp) :
    (s.remove r).left = some trp ∨
      s.remove r = .unpathed trp ∧ trp.addr ∈ addrs s'.availableIds := by
  cases h with
  | extractNone => cases r <;> simp [leave, State.setRemove, RemovePc.left] at hleft
  | clear => cases r <;> simp [leave, State.setRemove, RemovePc.left] at hleft
  | insertNode trp' hpc =>
    obtain rfl : trp' = trp := by simpa [State.setRemove, RemovePc.left] using hleft
    exact Or.inr ⟨hpc, (addrs_insertNode s.availableIds trp').symm.subset List.mem_cons_self⟩
  | report trp' k hpc => simpa [State.setRemove, RemovePc.left, hpc] using hleft
  | freePath trp' k hpc => simpa [State.setRemove, RemovePc.left, hpc] using hleft
  | freeRecord trp' k hpc => simpa [State.setRemove, RemovePc.left, hpc] using hleft
  | _ => simp [State.setRemove, RemovePc.left] at hleft

/-- A removal points to the node it pointed to, or to one it has just taken out of the store. -/
theorem RemoveMove.points {r : Option ρ} {e : RemoveEvent} (h : RemoveMove pidOf s r e s')
    {trp : Node} (hpoints : (s'.remove r).points = some trp) :
    (s.remove r).points = some trp ∨ trp.addr ∈ addrs s.analyses := by
  cases h with
  | extractNone => cases r <;> simp [leave, State.setRemove, RemovePc.points] at hpoints
  | extract id trp' hpc hsome =>
    obtain rfl : trp' = trp := by simpa [State.setRemove, RemovePc.points] using hpoints
    exact Or.inr ((detached_addr hsome).symm.subset List.mem_cons_self)
  | clear => cases r <;> simp [leave, State.setRemove, RemovePc.points] at hpoints
  | call => simp [State.setRemove, RemovePc.points] at hpoints
  | _ => exact Or.inl (by simp_all [State.setRemove, RemovePc.points])

/-- It points to that node until it has cleared its field. -/
theorem RemoveMove.points_keep {r : Option ρ} {e : RemoveEvent} (h : RemoveMove pidOf s r e s')
    {trp : Node} (hpoints : (s.remove r).points = some trp) (he : e ≠ .clear) :
    (s'.remove r).points = some trp := by
  cases h with
  | clear => exact absurd rfl he
  | _ => simp_all [State.setRemove, RemovePc.points]

/-- Only the end of `threads_remove` clears a field. -/
theorem RemoveMove.anal_none {r : Option ρ} {e : RemoveEvent} (h : RemoveMove pidOf s r e s')
    {n : Nat} (hn : s'.anal n = none) :
    s.anal n = none ∨
      ∃ trp, (s.remove r).left = some trp ∧ n = trp.addr ∧ (s'.remove r).points = none := by
  cases h with
  | extractNone => left; cases r <;> exact hn
  | clear trp hpc =>
    by_cases heq : n = trp.addr
    · refine Or.inr ⟨trp, by simp [hpc, RemovePc.left], heq, ?_⟩
      cases r <;> simp [leave, State.setRemove, RemovePc.points]
    · left
      cases r <;> simpa [leave, State.setRemove, State.setAnal, heq] using hn
  | _ => exact Or.inl hn

/-- What `threads_remove` frees is attached to its node. -/
theorem RemoveMove.freed {r : Option ρ} {e : RemoveEvent} (h : RemoveMove pidOf s r e s') {w : κ}
    (hw : s'.pathFreed w = true ∨ s'.freed w = true) :
    (s.pathFreed w = true ∨ s.freed w = true) ∨
      ∃ trp, (s.remove r).left = some trp ∧ s.anal trp.addr = some w := by
  cases h with
  | extractNone => left; cases r <;> exact hw
  | clear trp hpc => left; cases r <;> exact hw
  | freePath trp k hpc hk hlive =>
    by_cases heq : w = k
    · exact Or.inr ⟨trp, by simp [hpc, RemovePc.left], heq ▸ (deref_eq_some hk).1⟩
    · left
      simpa [State.setRemove, heq] using hw
  | freeRecord trp k hpc hk =>
    by_cases heq : w = k
    · exact Or.inr ⟨trp, by simp [hpc, RemovePc.left], heq ▸ (deref_eq_some hk).1⟩
    · left
      simpa [State.setRemove, heq] using hw
  | _ => exact Or.inl hw

end Frames

/-! ## The invariant -/

/-- **Nodes are released before they are used again.** -/
structure Releases (s : State κ ρ) : Prop where
  attached : Attached s
  /-- A node that is back among the free ids is held by nobody else. -/
  left : ∀ r trp, (s.remove r).left = some trp → trp.addr ∈ made s ∧ ¬ Held s trp.addr
  apart : ∀ r r' trp trp', (s.remove r).left = some trp → (s.remove r').left = some trp' →
    trp.addr = trp'.addr → r = r'
  pointed : ∀ r trp, (s.remove r).points = some trp → s.anal trp.addr ≠ none
  stored : ∀ n ∈ addrs s.analyses, s.anal n ≠ none
  attachedTo : ∀ k nd, (s.add k).attachedTo = some nd → s.anal nd.addr ≠ none
  gone : ∀ k, (s.add k).gone = true → ¬ Stored s k
  early : ∀ k, (s.add k).early = true → ¬ (s.pathFreed k = true ∨ s.freed k = true)
  freed : ∀ k, s.pathFreed k = true ∨ s.freed k = true → ¬ Stored s k

theorem Started.releases (h : Started pidOf s) : Releases s := by
  have hremove : ∀ r, (s.remove r).points = none ∧ (s.remove r).left = none := by
    intro r
    rw [h.remove r]
    exact ⟨rfl, rfl⟩
  have hnotFreed : ∀ k, ¬ (s.pathFreed k = true ∨ s.freed k = true) := by
    intro k
    obtain ⟨hpath, hrecord⟩ := h.heap k
    simp [hpath, hrecord]
  refine ⟨h.attachedOnce, ?_, ?_, ?_, ?_, ?_, ?_, fun k _ => hnotFreed k,
    fun k hk => absurd hk (hnotFreed k)⟩
  · intro r trp hr
    exact absurd ((hremove r).2.symm.trans hr) (by simp)
  · intro r r' trp trp' hr
    exact absurd ((hremove r).2.symm.trans hr) (by simp)
  · intro r trp hr
    exact absurd ((hremove r).1.symm.trans hr) (by simp)
  · intro n hn
    obtain ⟨⟨i, h', n'⟩, hm, rfl⟩ := List.mem_map.1 hn
    obtain ⟨k, hk, -⟩ := h.stored i h' n' hm
    dsimp only
    rw [hk]
    simp
  · intro k nd hat
    rcases h.add k with hdone | ⟨hready, -⟩
    · simp [hdone, AddPc.attachedTo] at hat
    · simp [hready, AddPc.attachedTo] at hat
  · intro k hgone
    rcases h.add k with hdone | ⟨hready, -⟩
    · simp [hdone, AddPc.gone] at hgone
    · simp [hready, AddPc.gone] at hgone

/-- The nodes of different holders are different. -/
theorem Releases.ne_of_points (hr : Releases s) {r : Option ρ} {trp : Node}
    (hpoints : (s.remove r).points = some trp) :
    trp.addr ∈ made s ∧ trp.addr ∉ addrs s.analyses ∧ ∀ k, trp.addr ∉ (s.add k).held := by
  rcases RemovePc.held_or_left hpoints with hheld | hleft
  · have howner : trp.addr ∈ holds s (.remove r) := hheld
    refine ⟨hr.attached.nodes.made howner, fun hn => ?_, fun k hn => ?_⟩
    · have hstore : trp.addr ∈ holds s .store := hn
      exact absurd (hr.attached.nodes.owner howner hstore) (by simp)
    · exact absurd (hr.attached.nodes.owner howner (show trp.addr ∈ holds s (.add k) from hn))
        (by simp)
  · obtain ⟨hmade, hnot⟩ := hr.left r trp hleft
    exact ⟨hmade, fun hn => hnot (held_store hn), fun k hn => hnot (held_add hn)⟩

section Steps

variable [DecidableEq κ]

/-- A field that is not the add's stays as it is. -/
theorem AddMove.anal_ne_none {e : AddEvent} (h : AddMove pidOf s k e s') {n : Nat}
    (hmade : n ∈ made s) (hheld : n ∉ (s.add k).held ∨ s'.add k ≠ .failed)
    (hn : s.anal n ≠ none) : s'.anal n ≠ none := by
  intro hnone
  rcases h.anal_none hnone with hnone | rfl | ⟨hself, hfailed⟩
  · exact hn hnone
  · exact absurd hmade (Nat.lt_irrefl _)
  · rcases hheld with hheld | hpc
    · exact hheld hself
    · exact hpc hfailed

/-- An add that fails leaves no analysis in the store. -/
theorem AddMove.gone {e : AddEvent} (h : AddMove pidOf s k e s') (hr : Releases s)
    (hok : NotReused s (.add k e : Event κ ρ)) (hgone : (s'.add k).gone = true) :
    ¬ Stored s' k := by
  intro hk
  have hstored : Stored s k := by
    rcases h.stored hr.attached hk with hk | ⟨-, nd, -, hpc⟩
    · exact hk
    · simp [hpc, AddPc.gone] at hgone
  obtain ⟨n, hn, hkn⟩ := stored_iff.1 hstored
  have hplace := hr.attached.place k n hkn
  cases h with
  | notDirectory hpc => simp [hpc, AddPc.At] at hplace
  | findPrefix pc hpc hres => simp [hpc, AddPc.At] at hplace
  | getFreeId rand pc hpc hres => simp [hpc, AddPc.At] at hplace
  | giveBack nd hpc =>
    rcases hpc with hpc | hpc
    · -- The analysis is attached to the node the add gives back, which is not in the store.
      obtain rfl : n = nd.addr := by simpa [hpc, AddPc.At] using hplace
      have hheld : nd.addr ∈ holds s (.add k) := by simp [holds, hpc, AddPc.held]
      exact absurd (hr.attached.nodes.owner (show nd.addr ∈ holds s .store from hn) hheld) (by simp)
    · exact hr.gone k (by simp [hpc, AddPc.gone]) hstored
  | extract nd hpc =>
    obtain rfl : n = nd.addr := by simpa [hpc, AddPc.At] using hplace
    obtain ⟨trp, htrp, haddr⟩ := hok.2 nd (by simp [withdraws, hpc]) hn
    obtain ⟨n', hn', hkn'⟩ := stored_iff.1 hk
    obtain rfl := hr.attached.inj n' nd.addr k hkn' hkn
    have hnodup : (addrs s.analyses).Nodup := hr.attached.nodes.nodup .store
    have hcons := (detached_addr htrp).nodup_iff.1 hnodup
    rw [haddr] at hcons
    exact (List.nodup_cons.1 hcons).1 hn'
  | treeRemove trp hpc hlive => exact hr.gone k (by simp [hpc, AddPc.gone]) hstored
  | release hpc hpath hrecord => exact hr.gone k (by simp [hpc, AddPc.gone]) hstored
  | treeInsert nd alloc pc hpc hres =>
    rcases hres with ⟨-, rfl⟩ | ⟨-, rfl⟩ <;> simp [State.setAdd, AddPc.gone] at hgone
  | _ => simp [State.setAdd, AddPc.gone] at hgone

theorem AddMove.early {e : AddEvent} (h : AddMove pidOf s k e s')
    (hearly : (s'.add k).early = true) : (s.add k).early = true := by
  cases h with
  | treeInsert nd alloc pc hpc hres => simp [hpc, AddPc.early]
  | findPrefix pc hpc hres => simp [hpc, AddPc.early]
  | getFreeId rand pc hpc hres => simp [hpc, AddPc.early]
  | attach nd hpc => simp [hpc, AddPc.early]
  | mallocFails nd hpc => simp [hpc, AddPc.early]
  | _ => simp [State.setAdd, AddPc.early] at hearly

/-- What an add frees is its own, when it has failed. -/
theorem AddMove.freed {e : AddEvent} (h : AddMove pidOf s k e s') {w : κ}
    (hw : s'.pathFreed w = true ∨ s'.freed w = true) :
    (s.pathFreed w = true ∨ s.freed w = true) ∨
      w = k ∧ s.add k = .failed ∧ s'.add k = .released := by
  cases h with
  | release hpc hpath hrecord =>
    by_cases heq : w = k
    · exact Or.inr ⟨heq, hpc, by simp [State.setAdd]⟩
    · left
      simpa [State.setAdd, heq] using hw
  | _ => exact Or.inl hw

theorem AddMove.releases [DecidableEq ρ] {e : AddEvent} (h : AddMove pidOf s k e s')
    (hr : Releases s) (hok : NotReused s (.add k e : Event κ ρ)) : Releases s' := by
  have hremove := h.remove
  have hmade : ∀ {n}, n ∈ made s → n ∈ made s' := fun hn => lt_of_lt_of_le hn h.next_le
  have hgone : ∀ w, (s'.add w).gone = true → ¬ Stored s' w := by
    intro w hw hstored
    by_cases heq : w = k
    · subst heq
      exact h.gone hr hok hw hstored
    · rw [h.add_ne heq] at hw
      exact hr.gone w hw ((h.stored hr.attached hstored).resolve_right fun hk => heq hk.1)
  refine ⟨h.attached hr.attached, ?_, ?_, ?_, ?_, ?_, hgone, ?_, ?_⟩
  · intro r trp hleft
    rw [hremove] at hleft
    obtain ⟨hm, hnot⟩ := hr.left r trp hleft
    refine ⟨hmade hm, fun hheld => ?_⟩
    rcases h.held hheld with hheld | ⟨nd, hnd, heq⟩
    · exact hnot hheld
    · exact hok.1 nd hnd r trp hleft heq
  · rw [hremove]
    exact hr.apart
  · intro r trp hpoints
    rw [hremove] at hpoints
    obtain ⟨hm, -, hadd⟩ := hr.ne_of_points hpoints
    exact h.anal_ne_none hm (Or.inl (hadd k)) (hr.pointed r trp hpoints)
  · intro n hn
    rcases h.store hn with hn | ⟨nd, hpc, hpc', rfl⟩
    · have hstore : n ∈ holds s .store := hn
      refine h.anal_ne_none (hr.attached.nodes.made hstore) (Or.inl fun hheld => ?_)
        (hr.stored n hn)
      have hadd : n ∈ holds s (.add k) := hheld
      exact absurd (hr.attached.nodes.owner hstore hadd) (by simp)
    · have hheld : nd.addr ∈ holds s (.add k) := by simp [holds, hpc]
      refine h.anal_ne_none (hr.attached.nodes.made hheld) (Or.inr (by simp [hpc'])) ?_
      exact hr.attachedTo k nd (by simp [hpc, AddPc.attachedTo])
  · intro w nd hat
    by_cases heq : w = k
    · subst heq
      rcases h.attachedTo hat with hold | ⟨-, hanal⟩
      · have hheld : nd.addr ∈ holds s (.add w) := AddPc.held_of_attachedTo hold
        refine h.anal_ne_none (hr.attached.nodes.made hheld) (Or.inr ?_) (hr.attachedTo w nd hold)
        intro hfailed
        simp [hfailed, AddPc.attachedTo] at hat
      · simp [hanal]
    · rw [h.add_ne heq] at hat
      have hheld : nd.addr ∈ holds s (.add w) := AddPc.held_of_attachedTo hat
      refine h.anal_ne_none (hr.attached.nodes.made hheld) (Or.inl fun hself => ?_)
        (hr.attachedTo w nd hat)
      exact heq (Owner.add.inj (hr.attached.nodes.owner hheld
        (show nd.addr ∈ holds s (.add k) from hself)))
  · intro w hearly hfreed
    rcases h.freed hfreed with hfreed | ⟨rfl, -, hpc⟩
    · by_cases heq : w = k
      · subst heq
        exact hr.early w (h.early hearly) hfreed
      · rw [h.add_ne heq] at hearly
        exact hr.early w hearly hfreed
    · simp [hpc, AddPc.early] at hearly
  · intro w hfreed hstored
    rcases h.freed hfreed with hfreed | ⟨rfl, -, hpc⟩
    · rcases h.stored hr.attached hstored with hold | ⟨rfl, nd, hpc, -⟩
      · exact hr.freed w hfreed hold
      · exact hr.early w (by simp [hpc, AddPc.early]) hfreed
    · exact hgone w (by simp [hpc, AddPc.gone]) hstored

variable [DecidableEq ρ]

/-- A field that is cleared is of a node that only this removal still points to. -/
theorem RemoveMove.anal_ne_none {r : Option ρ} {e : RemoveEvent} {n : Nat}
    (h : RemoveMove pidOf s r e s') (hr : Releases s) (hheld : Held s n) (hn : s.anal n ≠ none) :
    s'.anal n ≠ none := by
  intro hnone
  rcases h.anal_none hnone with hnone | ⟨trp, hleft, rfl, -⟩
  · exact hn hnone
  · exact (hr.left r trp hleft).2 hheld

/-- A node a removal gives back is held by nobody else. -/
theorem RemoveMove.left_released {r r' : Option ρ} {e : RemoveEvent} {trp : Node}
    (h : RemoveMove pidOf s r e s') (hr : Releases s) (hleft : (s'.remove r').left = some trp) :
    trp.addr ∈ made s' ∧ ¬ Held s' trp.addr := by
  have ha := h.attached hr.attached
  have hkeep : (s.remove r').left = some trp → trp.addr ∈ made s' ∧ ¬ Held s' trp.addr := by
    intro hold
    obtain ⟨hm, hnot⟩ := hr.left r' trp hold
    refine ⟨?_, fun hheld => hnot (h.held hheld)⟩
    cases h with
    | extractNone => cases r <;> exact hm
    | clear => cases r <;> exact hm
    | _ => exact hm
  by_cases heq : r' = r
  · subst heq
    rcases h.left hleft with hold | ⟨hpc, hfree⟩
    · exact hkeep hold
    · have hown : trp.addr ∈ holds s' .free := hfree
      refine ⟨ha.nodes.made hown, ?_⟩
      intro hheld
      obtain ⟨o, ho, hn⟩ := hheld
      exact ho (ha.nodes.owner hn hown)
  · rw [h.remove_ne heq] at hleft
    exact hkeep hleft

/-- A node that is given back was held, so no other removal had left it. -/
theorem RemoveMove.left_apart {r r₁ r₂ : Option ρ} {e : RemoveEvent} {trp trp' : Node}
    (h : RemoveMove pidOf s r e s') (hr : Releases s) (h₁ : (s'.remove r₁).left = some trp)
    (h₂ : (s'.remove r₂).left = some trp') (heq : trp.addr = trp'.addr) : r₁ = r₂ := by
  have hone : ∀ {r' trp trp'}, r' ≠ r → (s'.remove r).left = some trp →
      (s'.remove r').left = some trp' → trp.addr ≠ trp'.addr := by
    intro r' trp trp' hne hleft hleft' heq
    rw [h.remove_ne hne] at hleft'
    rcases h.left hleft with hold | ⟨hpc, -⟩
    · exact hne (hr.apart r r' trp trp' hold hleft' heq).symm
    · refine (hr.left r' trp' hleft').2 (held_remove (r := r) ?_)
      simp [hpc, heq]
  by_cases hr₁ : r₁ = r
  · by_cases hr₂ : r₂ = r
    · rw [hr₁, hr₂]
    · exact absurd heq (hone hr₂ (hr₁ ▸ h₁) h₂)
  · by_cases hr₂ : r₂ = r
    · exact absurd heq.symm (hone hr₁ (hr₂ ▸ h₂) h₁)
    · rw [h.remove_ne hr₁] at h₁
      rw [h.remove_ne hr₂] at h₂
      exact hr.apart r₁ r₂ trp trp' h₁ h₂ heq

/-- No other removal's node loses its analysis. -/
theorem RemoveMove.pointed {r r' : Option ρ} {e : RemoveEvent} {trp : Node}
    (h : RemoveMove pidOf s r e s') (hr : Releases s)
    (hpoints : (s'.remove r').points = some trp) : s'.anal trp.addr ≠ none := by
  have hkeep : (s.remove r').points = some trp → s'.anal trp.addr ≠ none := by
    intro hold hnone
    rcases h.anal_none hnone with hnone | ⟨trp', hleft, heq, hpc⟩
    · exact hr.pointed r' trp hold hnone
    · rcases RemovePc.held_or_left hold with hheld | hleft'
      · exact (hr.left r trp' hleft).2 (heq ▸ held_remove hheld)
      · obtain rfl := hr.apart r r' trp' trp hleft hleft' heq.symm
        exact absurd (hpc.symm.trans hpoints) (by simp)
  by_cases heq : r' = r
  · subst heq
    rcases h.points hpoints with hold | hstore
    · exact hkeep hold
    · exact h.anal_ne_none hr (held_store hstore) (hr.stored _ hstore)
  · rw [h.remove_ne heq] at hpoints
    exact hkeep hpoints

theorem RemoveMove.releases {r : Option ρ} {e : RemoveEvent} (h : RemoveMove pidOf s r e s')
    (hr : Releases s) : Releases s' := by
  obtain ⟨-, hadd, -⟩ := h.frame
  refine ⟨h.attached hr.attached, fun _ _ => h.left_released hr, fun _ _ _ _ => h.left_apart hr,
    fun _ _ => h.pointed hr, ?_, ?_, ?_, ?_, ?_⟩
  · intro n hn
    exact h.anal_ne_none hr (held_store (h.store hn)) (hr.stored n (h.store hn))
  · intro k nd hat
    rw [hadd] at hat
    exact h.anal_ne_none hr (held_add (AddPc.held_of_attachedTo hat)) (hr.attachedTo k nd hat)
  · intro k hgone hstored
    rw [hadd] at hgone
    exact hr.gone k hgone (h.stored hstored)
  · intro k hearly hfreed
    rw [hadd] at hearly
    rcases h.freed hfreed with hfreed | ⟨trp, hleft, hk⟩
    · exact hr.early k hearly hfreed
    · -- An early add holds the node its analysis is attached to.
      have hplace := hr.attached.place k _ hk
      refine (hr.left r trp hleft).2 (held_add (k := k) ?_)
      generalize s.add k = pc at hearly hplace
      cases pc <;> simp_all [AddPc.early, AddPc.At, AddPc.held]
  · intro k hfreed hstored
    have hold := h.stored hstored
    rcases h.freed hfreed with hfreed | ⟨trp, hleft, hk⟩
    · exact hr.freed k hfreed hold
    · obtain ⟨n, hn, hkn⟩ := stored_iff.1 hold
      obtain rfl := hr.attached.inj n trp.addr k hkn hk
      exact (hr.left r trp hleft).2 (held_store hn)

/-- The results thread starts to remove when it removes nothing. -/
theorem ResultsMove.releases {e : ResultsEvent} (h : ResultsMove s e s') (hr : Releases s)
    (ha : Attached s') : Releases s' := by
  have hidle : s.results = .accepting → s.remove none = .idle := by
    intro hres
    simpa [Serving, hres] using hr.attached.serving
  cases h with
  | readFailed i m hpc hm hfailed =>
    have hremove : ∀ r trp, ((Function.update s.remove none (.called m.id)) r).points = some trp →
        (s.remove r).points = some trp := by
      intro r trp hpoints
      by_cases heq : r = none
      · simp [heq, RemovePc.points] at hpoints
      · rwa [Function.update_of_ne heq] at hpoints
    have hleft : ∀ r trp, ((Function.update s.remove none (.called m.id)) r).left = some trp →
        (s.remove r).left = some trp := by
      intro r trp hl
      by_cases heq : r = none
      · simp [heq, RemovePc.left] at hl
      · rwa [Function.update_of_ne heq] at hl
    have hheld : ∀ n, Held ({ s with
        msgs := s.msgs.eraseIdx i, results := .removing m }.setRemove none (.called m.id)) n →
        Held s n := by
      rintro n ⟨o, ho, hn⟩
      rw [holds_setRemove] at hn
      split_ifs at hn
      · simp at hn
      · exact ⟨o, ho, hn⟩
    refine ⟨ha, ?_, ?_, ?_, hr.stored, hr.attachedTo, hr.gone, hr.early, hr.freed⟩
    · intro r trp hl
      obtain ⟨hm, hnot⟩ := hr.left r trp (hleft r trp hl)
      exact ⟨hm, fun hn => hnot (hheld _ hn)⟩
    · intro r r' trp trp' hl hl'
      exact hr.apart r r' trp trp' (hleft r trp hl) (hleft r' trp' hl')
    · exact fun r trp hpoints => hr.pointed r trp (hremove r trp hpoints)
  | _ =>
    exact ⟨ha, hr.left, hr.apart, hr.pointed, hr.stored, hr.attachedTo, hr.gone, hr.early, hr.freed⟩

/-- **One step** that uses no node again too early. -/
theorem releases_step {e : Event κ ρ} (hr : Releases s) (h : (system pidOf).step s e s')
    (hok : NotReused s e) : Releases s' := by
  have ha := attached_step hr.attached h
  cases e with
  | add k e => exact (addMove_of_step h).releases hr hok
  | remove r e => exact (removeMove_of_step h).releases hr
  | work k e delivered =>
    obtain ⟨pc, -, rfl⟩ := Option.map_eq_some_iff.1 h
    exact ⟨ha, hr.left, hr.apart, hr.pointed, hr.stored, hr.attachedTo, hr.gone, hr.early, hr.freed⟩
  | results e => exact (resultsMove_of_step h).releases hr ha

/-- A removal points to its node and the node to its analysis until the removal clears it. -/
theorem Releases.points_step {e : Event κ ρ} (hr : Releases s) (h : (system pidOf).step s e s')
    (hr' : Releases s') {r : Option ρ} {trp : Node} (hpoints : (s.remove r).points = some trp)
    (hk : s.anal trp.addr = some k) (he : e ≠ .remove r .clear) :
    (s'.remove r).points = some trp ∧ s'.anal trp.addr = some k := by
  cases e with
  | add w e =>
    have hmove := addMove_of_step h
    have hpoints' : (s'.remove r).points = some trp := by rwa [hmove.remove]
    refine ⟨hpoints', ?_⟩
    obtain ⟨w', hw'⟩ := Option.ne_none_iff_exists'.1 (hr'.pointed r trp hpoints')
    rcases hmove.anal_of hw' with hold | ⟨-, nd, hpc, -, heq⟩
    · rw [hw', ← hold, hk]
    · refine absurd ?_ ((hr.ne_of_points hpoints).2.2 w)
      simp [hpc, heq]
  | remove r' e =>
    have hmove := removeMove_of_step h
    have hpoints' : (s'.remove r).points = some trp := by
      by_cases heq : r = r'
      · subst heq
        exact hmove.points_keep hpoints fun hclear => he (by rw [hclear])
      · rwa [hmove.remove_ne heq]
    refine ⟨hpoints', ?_⟩
    obtain ⟨w', hw'⟩ := Option.ne_none_iff_exists'.1 (hr'.pointed r trp hpoints')
    rw [hw', ← hmove.anal_of hw', hk]
  | work w e delivered =>
    obtain ⟨pc, -, rfl⟩ := Option.map_eq_some_iff.1 h
    exact ⟨hpoints, hk⟩
  | results e =>
    have hmove := resultsMove_of_step h
    rw [hmove.anal]
    refine ⟨?_, hk⟩
    cases hmove with
    | readFailed i m hpc hm hfailed =>
      by_cases heq : r = none
      · have hidle : s.remove none = .idle := by simpa [Serving, hpc] using hr.attached.serving
        simp [heq, hidle, RemovePc.points] at hpoints
      · simpa [State.setRemove, heq] using hpoints
    | _ => exact hpoints

end Steps

variable [DecidableEq κ] [DecidableEq ρ]

theorem releases_of_reachable (h : ((started pidOf).guard NotReused).Reachable s) :
    Releases s := by
  refine h.invariant (I := Releases) ?_ ?_
  · intro s₀ h₀
    exact Started.releases (show Started pidOf s₀ from h₀)
  · intro s₁ e s₂ h₁ hstep
    exact releases_step h₁ hstep.1 hstep.2

/-- An empty manager with one request thread that removes, add 0 being for `/a` and all others for
`/b`. -/
def oneRemover : State Nat Unit := emptyManager 5 fun k => if k = 0 then str "/a" else str "/b"

/-- A removal up to the return of its node to the free ids, and the rest of it. -/
def removeUntilGiven (id : Int) : List (Event Nat Unit) :=
  [.call id, .extract, .unlink, .signal, .treeRemove, .insertNode].map (.remove (some ()))

def removeRest : List (Event Nat Unit) :=
  [.report, .freePath, .freeRecord, .clear].map (.remove (some ()))

def notReused (s : State Nat Unit) (e : Event Nat Unit) : Bool := NotReused s e

/-- An analysis is removed, and then its node is used again. -/
def usedAgain : List (Event Nat Unit) :=
  addUntilPid 0 7 ++ addFinish 0 ++ removeUntilGiven 1 ++ removeRest ++ addUntilPid 1 3 ++
    addFinish 1

/-- An analysis is added and a removal takes it out of the store. -/
def takenOut : List (Event Nat Unit) :=
  addUntilPid 0 7 ++ addFinish 0 ++ (removeUntilGiven 1).take 2

/-- The removal gives the node back, an add is given it, and the removal goes on. -/
def usedTooEarly : List (Event Nat Unit) :=
  (removeUntilGiven 1).drop 2 ++ addUntilPid 1 3 ++ addFinish 1 ++ removeRest.dropLast

end DiskAnalyzer.Concurrent
