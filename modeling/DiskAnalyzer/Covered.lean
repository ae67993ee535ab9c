import DiskAnalyzer.Lib.Registry
import DiskAnalyzer.Listed
import DiskAnalyzer.Released

/-!
# No covered path is put into the trie

`threads_add` looks for a mapped prefix of its path in one section and maps the path in another.
The trie is a table of the analyses' ids under their paths:

* `Entered`: the analyses with an entry, from the insertion until `tree_remove`, whoever calls it.
* `Entries`: every entry is there and no two are under one path; and no prefix of the path of an
  add that has checked it and not yet mapped it is mapped.

The second is lost when another add maps such a prefix in between. The first is lost when a removal
takes out an analysis whose add then fails and clears the path again. `PathsApart` excludes both.
-/

namespace DiskAnalyzer.Concurrent

open Treap

variable {κ ρ : Type}

/-- The components of an analysis's path. -/
def State.key (s : State κ ρ) (k : κ) : List Bytes := components (s.heap k).path

/-- The add has looked for a prefix of its path and not yet mapped the path. -/
def AddPc.looked : AddPc → Bool
  | checked | taken _ | attached _ => true
  | _ => false

/-- The node of an add whose path is mapped, while the add holds the node. -/
def AddPc.mapped : AddPc → Option Node
  | pathed nd => some nd
  | extracted trp => trp
  | _ => none

/-- The node of a removal that has not yet called `tree_remove`. -/
def RemovePc.mapped : RemovePc → Option Node
  | extracted trp | unlinked trp | signalled trp => some trp
  | _ => none

/-- The add whose path an event maps. -/
def maps (s : State κ ρ) : Event κ ρ → Option κ
  | .add k (.treeInsert alloc) =>
    match s.add k with
    | .attached nd =>
      if (treeInsert s.paths (s.heap k).path (some nd.id) alloc).1 = 0 then some k else none
    | _ => none
  | _ => none

/-- The add that takes its analysis out of the store again, and its node. -/
def gives (s : State κ ρ) : Event κ ρ → Option (κ × Node)
  | .add k .extract =>
    match s.add k with
    | .refused nd => some (k, nd)
    | _ => none
  | _ => none

/-- No add maps a path while another one has looked for a prefix of the same path or of one below
it; and an add whose fork request has failed takes its own analysis out of the store. -/
def PathsApart (s : State κ ρ) (e : Event κ ρ) : Prop :=
  (∀ k ∈ maps s e, ∀ j, (s.add j).looked = true → j ≠ k → ¬ s.key k <+: s.key j) ∧
    ∀ p ∈ gives s e, ∃ trp ∈ detached (treapExtract s.analyses p.2.id).1, s.anal trp.addr = some p.1

instance [DecidableEq κ] [Fintype κ] (s : State κ ρ) (e : Event κ ρ) :
    Decidable (PathsApart s e) := inferInstanceAs (Decidable (_ ∧ _))

/-- Where an analysis is attached, once its add gives back no node that is attached to it. -/
def AddPc.Keeps : AddPc → Nat → Prop
  | ready, _ | checked, _ | taken _, _ | failed, _ | released, _ => False
  | attached nd, n | noMemory nd, n | pathed nd, n | stored nd, n | requested nd, n
  | answered nd, n | refused nd, n => n = nd.addr
  | extracted trp, n | unpathed trp, n => ∃ nd ∈ trp, n = nd.addr
  | done, _ => True

/-- An analysis has the entry of an id: its add holds the node, or the node is in the store, or a
removal has just taken it out. -/
inductive Entered (s : State κ ρ) (k : κ) : Int → Prop
  | held (nd : Node) : (s.add k).mapped = some nd → Entered s k nd.id
  | stored (i h : Int) (n : Nat) : (i, h, n) ∈ s.analyses.inorder → s.anal n = some k →
      Entered s k i
  | removed (r : Option ρ) (trp : Node) : (s.remove r).mapped = some trp →
      s.anal trp.addr = some k → Entered s k trp.id

/-- **Every analysis has its own entry, and no add is about to map a covered path.** -/
structure Entries (s : State κ ρ) : Prop where
  attached : Attached s
  good : s.paths.Good
  keeps : ∀ n k, s.anal n = some k → (s.add k).Keeps n
  found : ∀ k, s.add k ≠ .extracted none
  registry : Registry (Entered s) s.key s.paths.val
  looked : ∀ k, (s.add k).looked = true → ∀ cs, cs <+: s.key k → s.paths.val cs = none

variable {pidOf : κ → Int} {s s' : State κ ρ} {k : κ}

theorem AddPc.held_of_mapped {pc : AddPc} {nd : Node} (h : pc.mapped = some nd) :
    nd.addr ∈ pc.held := by
  cases pc with
  | pathed nd' => simpa [mapped, held, eq_comm] using congrArg Node.addr (Option.some.inj h)
  | extracted trp =>
    obtain rfl : trp = some nd := h
    simp
  | _ => simp [mapped] at h

theorem AddPc.addr_of_mapped {pc : AddPc} {nd : Node} {n : Nat} (h : pc.mapped = some nd)
    (hk : pc.Keeps n) : n = nd.addr := by
  cases pc with
  | pathed nd' =>
    obtain rfl := Option.some.inj h
    exact hk
  | extracted trp =>
    obtain rfl : trp = some nd := h
    obtain ⟨nd', hnd', rfl⟩ := hk
    rw [Option.some.inj hnd']
  | _ => simp [mapped] at h

theorem RemovePc.held_of_mapped {pc : RemovePc} {trp : Node} (h : pc.mapped = some trp) :
    trp.addr ∈ pc.held := by
  cases pc <;> simp [mapped] at h <;> simp [held, h]

theorem goodNames_key (s : State κ ρ) (k : κ) : GoodNames (s.key k) := goodNames_components _

theorem goodNames_below {cs : List Bytes} (h : cs <+: s.key k) : GoodNames cs :=
  fun _ hc => goodNames_components _ _ (h.subset hc)

theorem mem_of_detached {t : Treap Nat} {id : Int} {trp : Node}
    (h : detached (treapExtract t id).1 = some trp) :
    (trp.id, trp.heapVal, trp.addr) ∈ t.inorder := by
  rcases extract_nodes t id with ⟨hnone, -⟩ | ⟨nd, hsome, rfl, hperm⟩
  · exact absurd (hnone.symm.trans h) (by simp)
  · obtain rfl := Option.some.inj (hsome.symm.trans h)
    exact hperm.symm.subset List.mem_cons_self

/-- An analysis has no entry when the node it is attached to, if any, is held by an add or a removal
that has cleared the path. -/
theorem not_entered (ha : Attached s) {o : Owner κ ρ} {m : Nat} (hheld : m ∈ holds s o)
    (hstore : o ≠ .store) (hremove : ∀ r, o = .remove r → (s.remove r).mapped = none)
    (hmapped : (s.add k).mapped = none) (hat : ∀ n, s.anal n = some k → n = m) (v : Int) :
    ¬ Entered s k v := by
  rintro (⟨nd, hnd⟩ | ⟨i, h, n, hm, hk⟩ | ⟨r, trp, hr, hk⟩)
  · exact absurd (hmapped.symm.trans hnd) (by simp)
  · obtain rfl := hat n hk
    exact hstore (ha.nodes.owner hheld (show n ∈ holds s .store from mem_addrs hm))
  · have htrp : m ∈ holds s (.remove r) := hat _ hk ▸ RemovePc.held_of_mapped hr
    exact absurd ((hremove r (ha.nodes.owner hheld htrp)).symm.trans hr) (by simp)

/-- What is entered in a path that is cleared is gone with its owner. -/
theorem Entries.clearPath (he : Entries s) {v : Int} (hv : Entered s k v) (ha : Attached s')
    (hpaths : s'.paths = (treeRemove s.paths (s.heap k).path).2) (hkey : s'.key = s.key)
    (hkeeps : ∀ n w, s'.anal n = some w → (s'.add w).Keeps n)
    (hfound : ∀ w, s'.add w ≠ .extracted none)
    (hentered : ∀ w u, Entered s' w u → Entered s w u) (hgone : ∀ u, ¬ Entered s' k u)
    (hlooked : ∀ w, (s'.add w).looked = true → (s.add w).looked = true) : Entries s' := by
  obtain ⟨-, -, hgood, hval⟩ := Tree.remove_spec he.good (s.heap k).path
  refine ⟨ha, hpaths ▸ hgood, hkeeps, hfound, ?_, ?_⟩
  · rw [hkey]
    refine he.registry.leave hv ?_ ?_
    · intro w hw
      rw [hpaths, hval _ (goodNames_key s _), if_neg fun h => hw h.2]
    · intro w u hu
      refine ⟨hentered w u hu, ?_⟩
      rintro rfl
      exact hgone u hu
  · intro w hw cs hcs
    rw [hkey] at hcs
    rw [hpaths, hval cs (goodNames_below hcs), he.looked w (hlooked w hw) cs hcs, ite_self]

theorem Started.entries (h : Started pidOf s) : Entries s := by
  have hdone : ∀ n k, s.anal n = some k → s.add k = .done := by
    intro n k hk
    obtain ⟨⟨i, h', n'⟩, hm, rfl⟩ := List.mem_map.1 (h.attached n k hk)
    obtain ⟨k', hk', hdone, -⟩ := h.stored i h' n' hm
    rwa [Option.some.inj (hk.symm.trans hk')]
  have hpc : ∀ k, (s.add k).looked = false ∧ (s.add k).mapped = none ∧
      s.add k ≠ .extracted none := by
    intro k
    rcases h.add k with hpc | ⟨hpc, -⟩ <;> rw [hpc] <;> simp [AddPc.looked, AddPc.mapped]
  have hremove : ∀ r, (s.remove r).mapped = none := by
    intro r
    rw [h.remove r]
    rfl
  have hentered : ∀ {k v}, Entered s k v →
      ∃ h n, (v, h, n) ∈ s.analyses.inorder ∧ s.anal n = some k ∧
        s.paths.val (s.key k) = some v := by
    intro k v hv
    cases hv with
    | held nd hnd => exact absurd ((hpc k).2.1.symm.trans hnd) (by simp)
    | removed r trp hr => exact absurd ((hremove r).symm.trans hr) (by simp)
    | stored i h' n hm hanal =>
      obtain ⟨k', hk', -, hpath, -⟩ := h.stored v h' n hm
      obtain rfl := Option.some.inj (hanal.symm.trans hk')
      refine ⟨h', n, hm, hanal, ?_⟩
      rwa [Tree.getPath_eq h.good] at hpath
  refine ⟨h.attachedOnce, h.good, ?_, fun k => (hpc k).2.2, ⟨?_, ?_⟩, ?_⟩
  · intro n k hk
    rw [hdone n k hk]
    trivial
  · intro k v hv
    exact (hentered hv).elim fun _ ⟨_, _, _, hval⟩ => hval
  · intro k k' v v' hv hv' heq
    obtain ⟨h₁, n, hm, hk, hval⟩ := hentered hv
    obtain ⟨h₂, n', hm', hk', hval'⟩ := hentered hv'
    rw [heq, hval'] at hval
    obtain rfl := Option.some.inj hval
    obtain ⟨-, rfl⟩ := h.ordered.unique hm hm'
    exact Option.some.inj (hk.symm.trans hk')
  · intro k hlooked
    exact absurd ((hpc k).1.symm.trans hlooked) (by simp)

/-! ## What steps do to the entries -/

section Frames

variable [DecidableEq κ]

/-- A record is written, but not its path. -/
theorem key_of_heap {anal : Analysis} (hheap : s'.heap = Function.update s.heap k anal)
    (hpath : anal.path = (s.heap k).path) : s'.key = s.key := by
  funext w
  by_cases hw : w = k
  · simp [State.key, hheap, hw, hpath]
  · simp [State.key, hheap, hw]

theorem AddMove.key {e : AddEvent} (h : AddMove pidOf s k e s') : s'.key = s.key := by
  cases h with
  | insertNode nd now hpc => exact key_of_heap rfl rfl
  | answer nd hpc => exact key_of_heap rfl rfl
  | finish nd hpc => exact key_of_heap rfl rfl
  | _ => rfl

/-- The analysis of the add that steps stays where the add can tell it to be. -/
theorem AddMove.keeps_self {e : AddEvent} (h : AddMove pidOf s k e s') (he : Entries s)
    (hok : PathsApart s (.add k e : Event κ ρ)) {n : Nat} (hn : s'.anal n = some k) :
    (s'.add k).Keeps n := by
  rcases h.anal_of hn with hold | ⟨-, nd, -, hpc, rfl⟩
  · have hkeeps := he.keeps n k hold
    cases h with
    | findPrefix pc hpc hres => simp [hpc, AddPc.Keeps] at hkeeps
    | getFreeId rand pc hpc hres => simp [hpc, AddPc.Keeps] at hkeeps
    | treeInsert nd alloc pc hpc hres =>
      rcases hres with ⟨-, rfl⟩ | ⟨-, rfl⟩ <;> simpa [State.setAdd, AddPc.Keeps, hpc] using hkeeps
    | giveBack nd hpc =>
      obtain rfl : n = nd.addr := by
        rcases hpc with hpc | hpc <;> simpa [hpc, AddPc.Keeps] using hkeeps
      simp [Concurrent.giveBack, State.setAnal, State.setAdd] at hn
    | extract nd hpc =>
      obtain rfl : n = nd.addr := by simpa [hpc, AddPc.Keeps] using hkeeps
      obtain ⟨trp, htrp, hanal⟩ := hok.2 (k, nd) (by simp [gives, hpc])
      simp only [State.setAdd, Function.update_self]
      exact ⟨trp, htrp, he.attached.inj _ _ k hold hanal⟩
    | _ => simp_all [State.setAdd, AddPc.Keeps]
  · rw [hpc]
    rfl

theorem AddMove.keeps {e : AddEvent} (h : AddMove pidOf s k e s') (he : Entries s)
    (hok : PathsApart s (.add k e : Event κ ρ)) {n : Nat} {w : κ} (hn : s'.anal n = some w) :
    (s'.add w).Keeps n := by
  by_cases hw : w = k
  · subst hw
    exact h.keeps_self he hok hn
  · rw [h.add_ne hw]
    rcases h.anal_of hn with hold | ⟨heq, -⟩
    · exact he.keeps n w hold
    · exact absurd heq hw

/-- Where an add's path is mapped and its node with it: it has mapped the path, or taken the node
out of the store. -/
theorem AddMove.mapped {e : AddEvent} (h : AddMove pidOf s k e s') {nd : Node}
    (hm : (s'.add k).mapped = some nd) :
    (s.add k = .attached nd ∧ s'.add k = .pathed nd) ∨
      ∃ nd', gives s (.add k e : Event κ ρ) = some (k, nd') ∧
        detached (treapExtract s.analyses nd'.id).1 = some nd := by
  cases h with
  | findPrefix pc hpc hres =>
    rcases hres with rfl | ⟨-, rfl⟩ <;> simp [State.setAdd, AddPc.mapped] at hm
  | getFreeId rand pc hpc hres =>
    rcases hres with ⟨-, rfl⟩ | ⟨nd, hnd, rfl⟩ <;> simp [State.setAdd, AddPc.mapped] at hm
  | treeInsert nd' alloc pc hpc hres =>
    rcases hres with ⟨-, rfl⟩ | ⟨-, rfl⟩
    · simp [State.setAdd, AddPc.mapped] at hm
    · obtain rfl : nd' = nd := by simpa [State.setAdd, AddPc.mapped] using hm
      exact Or.inl ⟨hpc, by simp [State.setAdd]⟩
  | extract nd' hpc =>
    refine Or.inr ⟨nd', by simp [gives, hpc], ?_⟩
    simpa [State.setAdd, AddPc.mapped] using hm
  | _ => simp [State.setAdd, AddPc.mapped] at hm

/-- A removal that points to an analysis pointed to it before. -/
theorem AddMove.removed {e : AddEvent} (h : AddMove pidOf s k e s') (ha : Attached s)
    {r : Option ρ} {trp : Node} {w : κ} (hr : (s'.remove r).mapped = some trp)
    (hw : s'.anal trp.addr = some w) :
    (s.remove r).mapped = some trp ∧ s.anal trp.addr = some w := by
  rw [h.remove] at hr
  refine ⟨hr, (h.anal_of hw).resolve_right ?_⟩
  rintro ⟨rfl, nd, hpc, -, heq⟩
  have hheld : trp.addr ∈ holds s (.remove r) := RemovePc.held_of_mapped hr
  have hheld' : trp.addr ∈ holds s (.add w) := by simp [holds, hpc, heq]
  exact absurd (ha.nodes.owner hheld hheld') (by simp)

/-- What an add enters is the path it maps, under the id of its node. -/
theorem AddMove.entered {e : AddEvent} (h : AddMove pidOf s k e s') (he : Entries s)
    (hok : PathsApart s (.add k e : Event κ ρ)) {w : κ} {v : Int} (hv : Entered s' w v) :
    Entered s w v ∨
      w = k ∧ ∃ nd, s.add k = .attached nd ∧ s'.add k = .pathed nd ∧ v = nd.id := by
  cases hv with
  | held nd hnd =>
    by_cases hw : w = k
    · subst hw
      rcases h.mapped hnd with ⟨hpc, hpc'⟩ | ⟨nd', hgives, hsome⟩
      · exact Or.inr ⟨rfl, nd, hpc, hpc', rfl⟩
      · obtain ⟨trp, htrp, hanal⟩ := hok.2 _ hgives
        obtain rfl := Option.some.inj (hsome.symm.trans htrp)
        exact Or.inl (.stored nd.id nd.heapVal nd.addr (mem_of_detached hsome) hanal)
    · rw [h.add_ne hw] at hnd
      exact Or.inl (.held nd hnd)
  | removed r trp hr hanal =>
    obtain ⟨hr, hanal⟩ := h.removed he.attached hr hanal
    exact Or.inl (.removed r trp hr hanal)
  | stored i h' n hm hanal =>
    rcases h.inorder hm with hm | ⟨nd, hpc, -, heq⟩
    · rcases h.anal_of hanal with hanal | ⟨-, nd, hpc, -, rfl⟩
      · exact Or.inl (.stored v h' n hm hanal)
      · have hstore : nd.addr ∈ holds s .store := mem_addrs hm
        have hheld : nd.addr ∈ holds s (.add k) := by simp [holds, hpc]
        exact absurd (he.attached.nodes.owner hstore hheld) (by simp)
    · -- The node that is put into the store is the one the add has attached its analysis to.
      simp only [Prod.mk.injEq] at heq
      obtain ⟨rfl, -, rfl⟩ := heq
      rcases h.anal_of hanal with hanal | ⟨-, nd', hpc', -⟩
      · obtain rfl := he.attached.own k nd w (by simp [hpc, AddPc.attachedTo]) hanal
        exact Or.inl (.held nd (by simp [hpc, AddPc.mapped]))
      · exact absurd (hpc.symm.trans hpc') (by simp)

theorem AddMove.looked {e : AddEvent} (h : AddMove pidOf s k e s')
    (hl : (s'.add k).looked = true) :
    (s.add k).looked = true ∨ treeFindPrefix s.paths (s.heap k).path = none := by
  cases h with
  | findPrefix pc hpc hres =>
    rcases hres with rfl | ⟨hnone, -⟩
    · simp [State.setAdd, AddPc.looked] at hl
    · exact Or.inr hnone
  | getFreeId rand pc hpc hres => simp [hpc, AddPc.looked]
  | treeInsert nd alloc pc hpc hres => simp [hpc, AddPc.looked]
  | attach nd hpc => simp [hpc, AddPc.looked]
  | _ => simp [State.setAdd, AddPc.looked] at hl

theorem AddMove.found {e : AddEvent} (h : AddMove pidOf s k e s')
    (hok : PathsApart s (.add k e : Event κ ρ)) : s'.add k ≠ .extracted none := by
  cases h with
  | findPrefix pc hpc hres => rcases hres with rfl | ⟨-, rfl⟩ <;> simp [State.setAdd]
  | getFreeId rand pc hpc hres => rcases hres with ⟨-, rfl⟩ | ⟨nd, -, rfl⟩ <;> simp [State.setAdd]
  | treeInsert nd alloc pc hpc hres => rcases hres with ⟨-, rfl⟩ | ⟨-, rfl⟩ <;> simp [State.setAdd]
  | extract nd hpc =>
    obtain ⟨trp, htrp, -⟩ := hok.2 (k, nd) (by simp [gives, hpc])
    have hsome : detached (treapExtract s.analyses nd.id).1 = some trp := htrp
    simp [State.setAdd, hsome]
  | _ => simp [State.setAdd]

variable [DecidableEq ρ]

/-- A removal points to the node it pointed to, or has just taken it out of the store. -/
theorem RemoveMove.mapped {r : Option ρ} {e : RemoveEvent} (h : RemoveMove pidOf s r e s')
    {trp : Node} (hm : (s'.remove r).mapped = some trp) :
    (s.remove r).mapped = some trp ∨ (trp.id, trp.heapVal, trp.addr) ∈ s.analyses.inorder := by
  cases h with
  | extractNone => cases r <;> simp [leave, State.setRemove, RemovePc.mapped] at hm
  | extract id trp' hpc hsome =>
    obtain rfl : trp' = trp := by simpa [State.setRemove, RemovePc.mapped] using hm
    exact Or.inr (mem_of_detached hsome)
  | clear trp' hpc => cases r <;> simp [leave, State.setRemove, RemovePc.mapped] at hm
  | unlink trp' hpc => exact Or.inl (by simpa [State.setRemove, RemovePc.mapped, hpc] using hm)
  | signal trp' w interrupted hpc =>
    exact Or.inl (by simpa [State.setRemove, RemovePc.mapped, hpc] using hm)
  | _ => simp [State.setRemove, RemovePc.mapped] at hm

/-- A removal enters nothing. -/
theorem RemoveMove.entered {r : Option ρ} {e : RemoveEvent} (h : RemoveMove pidOf s r e s')
    {w : κ} {v : Int} (hv : Entered s' w v) : Entered s w v := by
  obtain ⟨-, hadd, -⟩ := h.frame
  cases hv with
  | held nd hnd =>
    rw [hadd] at hnd
    exact .held nd hnd
  | stored i h' n hm hanal => exact .stored v h' n (h.inorder hm) (h.anal_of hanal)
  | removed r' trp hr hanal =>
    have hold := h.anal_of hanal
    by_cases heq : r' = r
    · subst heq
      rcases h.mapped hr with hr | hm
      · exact .removed r' trp hr hold
      · exact .stored trp.id trp.heapVal trp.addr hm hold
    · rw [h.remove_ne heq] at hr
      exact .removed r' trp hr hold

theorem ResultsMove.analyses {e : ResultsEvent} (h : ResultsMove s e s') :
    s'.analyses = s.analyses := by
  cases h <;> rfl

/-- The removal the results thread starts has taken nothing out yet. -/
theorem ResultsMove.mapped {e : ResultsEvent} (h : ResultsMove s e s') {r : Option ρ} {trp : Node}
    (hm : (s'.remove r).mapped = some trp) : (s.remove r).mapped = some trp := by
  cases h with
  | readFailed i m hpc hi hfailed =>
    by_cases heq : r = none
    · simp [State.setRemove, heq, RemovePc.mapped] at hm
    · simpa [State.setRemove, heq] using hm
  | _ => exact hm

end Frames

/-! ## Steps -/

section Steps

variable [DecidableEq κ]

/-- A step of an add that maps no path and clears none. -/
theorem AddMove.quiet {e : AddEvent} (h : AddMove pidOf s k e s') (he : Entries s)
    (hok : PathsApart s (.add k e : Event κ ρ)) (hgood : s'.paths.Good)
    (hval : ∀ cs, GoodNames cs → s'.paths.val cs = s.paths.val cs)
    (hpc : ∀ nd, s'.add k ≠ .pathed nd) [DecidableEq ρ] : Entries s' := by
  refine ⟨h.attached he.attached, hgood, fun n w hn => h.keeps he hok hn, ?_, ?_, ?_⟩
  · intro w
    by_cases hw : w = k
    · subst hw
      exact h.found hok
    · rw [h.add_ne hw]
      exact he.found w
  · rw [h.key]
    refine he.registry.mono ?_ fun w => hval _ (goodNames_components _)
    intro w v hv
    refine (h.entered he hok hv).resolve_right ?_
    rintro ⟨-, nd, -, hpathed, -⟩
    exact hpc nd hpathed
  · intro w hw cs hcs
    rw [h.key] at hcs
    rw [hval cs (goodNames_below hcs)]
    by_cases heq : w = k
    · subst heq
      rcases h.looked hw with hold | hnone
      · exact he.looked w hold cs hcs
      · exact (Tree.findPrefix_eq_none_iff he.good _).1 hnone cs hcs
    · rw [h.add_ne heq] at hw
      exact he.looked w hw cs hcs

/-- The add maps its path, which nothing covers. -/
theorem Entries.mapPath (he : Entries s) {nd : Node} {alloc : Alloc} (hpc : s.add k = .attached nd)
    (hret : (treeInsert s.paths (s.heap k).path (some nd.id) alloc).1 = 0)
    (h : AddMove pidOf s k (.treeInsert alloc) s')
    (hpaths : s'.paths = (treeInsert s.paths (s.heap k).path (some nd.id) alloc).2)
    (hpc' : s'.add k = .pathed nd)
    (hok : PathsApart s (.add k (.treeInsert alloc) : Event κ ρ)) [DecidableEq ρ] : Entries s' := by
  obtain ⟨hgood, hval⟩ := Tree.insert_spec he.good (s.heap k).path (some nd.id) alloc
  have hself : (s.add k).looked = true := by simp [hpc, AddPc.looked]
  have hval' : ∀ cs, GoodNames cs →
      s'.paths.val cs = if cs = s.key k then some nd.id else s.paths.val cs := by
    intro cs hcs
    rw [hpaths, hval cs hcs]
    refine if_congr ?_ rfl rfl
    simp [hret, State.key]
  refine ⟨h.attached he.attached, hpaths ▸ hgood, fun n w hn => h.keeps he hok hn, ?_, ?_, ?_⟩
  · intro w
    by_cases hw : w = k
    · subst hw
      exact h.found hok
    · rw [h.add_ne hw]
      exact he.found w
  · rw [h.key]
    refine he.registry.enter (o := k) (v := nd.id) (he.looked k hself _ List.prefix_rfl) ?_ ?_ ?_
    · rw [hval' _ (goodNames_key s _), if_pos rfl]
    · intro w hw
      rw [hval' _ (goodNames_key s _), if_neg hw]
    · intro w v hv
      rcases h.entered he hok hv with hv | ⟨rfl, nd', hpc₂, -, rfl⟩
      · exact Or.inl hv
      · exact Or.inr ⟨rfl, congrArg Node.id (AddPc.attached.inj (hpc₂.symm.trans hpc))⟩
  · intro w hw cs hcs
    rw [h.key] at hcs
    have hne : w ≠ k := by
      rintro rfl
      simp [hpc', AddPc.looked] at hw
    rw [h.add_ne hne] at hw
    rw [hval' cs (goodNames_below hcs), if_neg, he.looked w hw cs hcs]
    -- The other add would have looked for this very prefix.
    rintro rfl
    exact hok.1 k (by simp [maps, hpc, hret]) w hw hne hcs

theorem AddMove.entries {e : AddEvent} (h : AddMove pidOf s k e s') (he : Entries s)
    (hok : PathsApart s (.add k e : Event κ ρ)) [DecidableEq ρ] : Entries s' := by
  have hmove := h
  cases h with
  | treeInsert nd alloc pc hpc hres =>
    rcases hres with ⟨hret, rfl⟩ | ⟨hret, rfl⟩
    · obtain ⟨hgood, hval⟩ := Tree.insert_spec he.good (s.heap k).path (some nd.id) alloc
      refine hmove.quiet he hok hgood ?_ (by simp [State.setAdd])
      intro cs hcs
      refine (hval cs hcs).trans (if_neg ?_)
      exact fun h => hret h.1
    · exact he.mapPath hpc hret hmove rfl (by simp [State.setAdd]) hok
  | treeRemove trp hpc hlive =>
    cases trp with
    | none => exact absurd hpc (he.found k)
    | some nd =>
      have hv : Entered s k nd.id := .held nd (by simp [hpc, AddPc.mapped])
      have ha := hmove.attached he.attached
      refine he.clearPath hv ha rfl hmove.key (fun n w hn => hmove.keeps he hok hn) ?_ ?_ ?_ ?_
      · intro w
        by_cases hw : w = k
        · subst hw
          exact hmove.found hok
        · rw [hmove.add_ne hw]
          exact he.found w
      · intro w u hu
        refine (hmove.entered he hok hu).resolve_right ?_
        rintro ⟨-, nd', hpc', -⟩
        simp [hpc] at hpc'
      · refine not_entered ha (o := .add k) (m := nd.addr) ?_ (by simp) (by simp) ?_ ?_
        · simp [holds, State.setAdd, AddPc.held]
        · simp [State.setAdd, AddPc.mapped]
        · intro n hn
          simpa [State.setAdd, AddPc.Keeps] using hmove.keeps he hok hn
      · intro w hw
        by_cases heq : w = k
        · subst heq
          simp [State.setAdd, AddPc.looked] at hw
        · rwa [hmove.add_ne heq] at hw
  | findPrefix pc hpc hres =>
    refine hmove.quiet he hok he.good (fun _ _ => rfl) ?_
    rcases hres with rfl | ⟨-, rfl⟩ <;> simp [State.setAdd]
  | getFreeId rand pc hpc hres =>
    refine hmove.quiet he hok he.good (fun _ _ => rfl) ?_
    rcases hres with ⟨-, rfl⟩ | ⟨nd, -, rfl⟩ <;> simp [State.setAdd]
  | _ => exact hmove.quiet he hok he.good (fun _ _ => rfl) (by simp [State.setAdd])

variable [DecidableEq ρ]

theorem RemoveMove.entries {r : Option ρ} {e : RemoveEvent} (h : RemoveMove pidOf s r e s')
    (he : Entries s) : Entries s' := by
  have hmove := h
  have ha := h.attached he.attached
  obtain ⟨hheap, hadd, -⟩ := h.frame
  have hkey : s'.key = s.key := by
    funext w
    rw [State.key, State.key, hheap]
  have hkeeps : ∀ n w, s'.anal n = some w → (s'.add w).Keeps n := by
    intro n w hn
    rw [hadd]
    exact he.keeps n w (h.anal_of hn)
  have hfound : ∀ w, s'.add w ≠ .extracted none := by
    intro w
    rw [hadd]
    exact he.found w
  have hlooked : ∀ w, (s'.add w).looked = true → (s.add w).looked = true := by
    intro w
    rw [hadd]
    exact id
  have quiet : s'.paths = s.paths → Entries s' := by
    intro hpaths
    refine ⟨ha, hpaths ▸ he.good, hkeeps, hfound, ?_, ?_⟩
    · rw [hkey, hpaths]
      exact he.registry.mono (fun w v => hmove.entered) fun w => rfl
    · intro w hw cs hcs
      rw [hkey] at hcs
      rw [hpaths]
      exact he.looked w (hlooked w hw) cs hcs
  cases h with
  | treeRemove trp k hpc hk hlive =>
    have hanal := (deref_eq_some hk).1
    have hv : Entered s k trp.id := .removed r trp (by simp [hpc, RemovePc.mapped]) hanal
    have hheld : trp.addr ∈ holds s (.remove r) := by simp [holds, hpc, RemovePc.held]
    refine he.clearPath hv ha rfl hkey hkeeps hfound (fun w u => hmove.entered) ?_ hlooked
    refine not_entered ha (o := .remove r) (m := trp.addr) ?_ (by simp) ?_ ?_ ?_
    · simp [holds, State.setRemove]
    · rintro r' hr'
      obtain rfl := Owner.remove.inj hr'
      simp [State.setRemove, RemovePc.mapped]
    · -- An add whose path is mapped with its node in hand would hold the removal's node.
      have hkept := he.keeps _ _ hanal
      refine Option.eq_none_iff_forall_ne_some.2 ?_
      intro nd hnd
      have hself : nd.addr ∈ holds s (.add k) := AddPc.held_of_mapped hnd
      rw [← AddPc.addr_of_mapped hnd hkept] at hself
      exact absurd (he.attached.nodes.owner hheld hself) (by simp)
    · exact fun n hn => he.attached.inj _ _ k hn hanal
  | extractNone => cases r <;> exact quiet rfl
  | clear trp hpc => cases r <;> exact quiet rfl
  | _ => exact quiet rfl

theorem ResultsMove.entries {e : ResultsEvent} (h : ResultsMove s e s') (he : Entries s)
    (ha : Attached s') : Entries s' := by
  have hkey : s'.key = s.key := by
    cases h with
    | apply m now addr k hpc => exact key_of_heap rfl (by rw [applied]; split_ifs <;> rfl)
    | _ => rfl
  have hpaths : s'.paths = s.paths := by cases h <;> rfl
  have hentered : ∀ w v, Entered s' w v → Entered s w v := by
    intro w v hv
    cases hv with
    | held nd hnd =>
      rw [h.frame] at hnd
      exact .held nd hnd
    | stored i h' n hm hanal =>
      rw [h.anal] at hanal
      rw [h.analyses] at hm
      exact .stored v h' n hm hanal
    | removed r trp hr hanal =>
      rw [h.anal] at hanal
      exact .removed r trp (h.mapped hr) hanal
  refine ⟨ha, hpaths ▸ he.good, ?_, ?_, ?_, ?_⟩
  · rw [h.anal, h.frame]
    exact he.keeps
  · rw [h.frame]
    exact he.found
  · rw [hkey, hpaths]
    exact he.registry.mono hentered fun w => rfl
  · rw [h.frame, hkey, hpaths]
    exact he.looked

/-- **One step** that maps no prefix of a path another add has looked for. -/
theorem entries_step {e : Event κ ρ} (he : Entries s) (h : (system pidOf).step s e s')
    (hok : PathsApart s e) : Entries s' := by
  have ha := attached_step he.attached h
  cases e with
  | add k e => exact (addMove_of_step h).entries he hok
  | remove r e => exact (removeMove_of_step h).entries he
  | work k e delivered =>
    obtain ⟨pc, -, rfl⟩ := Option.map_eq_some_iff.1 h
    refine ⟨ha, he.good, he.keeps, he.found, he.registry.mono ?_ fun _ => rfl, he.looked⟩
    rintro w v (⟨nd, hnd⟩ | ⟨i, h', n, hm, hanal⟩ | ⟨r, trp, hr, hanal⟩)
    · exact .held nd hnd
    · exact .stored v h' n hm hanal
    · exact .removed r trp hr hanal
  | results e => exact (resultsMove_of_step h).entries he ha

theorem entries_of_reachable (h : ((started pidOf).guard PathsApart).Reachable s) : Entries s := by
  refine h.invariant (I := Entries) ?_ ?_
  · intro s₀ h₀
    exact Started.entries (show Started pidOf s₀ from h₀)
  · intro s₁ e s₂ h₁ hstep
    exact entries_step h₁ hstep.1 hstep.2

end Steps

variable [DecidableEq κ] [DecidableEq ρ]

def pathsApart (s : State Bool Unit) (e : Event Bool Unit) : Bool := PathsApart s e

/-- One add, and the other up to the insertion of its path. -/
def oneMapped : List (Event Bool Unit) :=
  addUntilPid false 7 ++ addFinish false ++ (addUntilPid true 3).take 3

def mappedOne : State Bool Unit := followed boolPids pathsApart oneMoreAdd oneMapped

/-- An empty manager with two adds of one path to come. -/
def samePath : State Bool Unit := emptyManager 5 fun _ => str "/a"

/-- Both adds look for a prefix, and one of them is served. -/
def bothLooked : List (Event Bool Unit) :=
  .add true .findPrefix :: addUntilPid false 7 ++ addFinish false ++
    [.add true (.getFreeId (some 3)), .add true .attach]

/-- A removal takes out an analysis whose add is on its way and clears the path; the other add maps
it again and is served; the first add fails. -/
def removedTooEarly : List (Event Bool Unit) :=
  addUntilPid false 7 ++ (removalOf 1).take 5 ++ addUntilPid true 3 ++ addFinish true ++
    [.add false .answerFails, .add false .extract, .add false .treeRemove]

end DiskAnalyzer.Concurrent
