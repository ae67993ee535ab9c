import DiskAnalyzer.Memory.ThreadsProof

/-!
# Records in the store, on the memory
-/

namespace DiskAnalyzer.Memory

open Sep Treap Assertion Decimal

variable {β : Type} {P F : Owned} {Q : β → Owned}

/-! ## Finding a record -/

/-- A manager with another store. -/
theorem managerAt_store (man : ThreadsManager) (t : Treap Analysis) (m : Addr) :
    treapIn (held analysisAt) t (analysesOf m) * (cell (analysisCntOf m) (int man.analysisCnt) *
      pathsIn man.paths (pathsOf m) * treapIn (held nullAt) man.availableIds (availableIdsOf m)) =
        managerAt { man with analyses := t } m := by
  rw [managerAt]
  ac_rfl

/-- `K` is what a manager has beside the record of an id: with another record in its place it is the
manager with another record. -/
def Around (man : ThreadsManager) (m : Addr) (id : Int) (a : Analysis) (x s : Addr) (K : Owned) :
    Prop :=
  ∀ (f : Analysis → Analysis) last, last = int (f a).lastStart ∨ (f a).status = ANALYSIS_COMPLETE →
    recordAt (f a) last (int (f a).pid) x s * K ≤
      managerAt { man with analyses := man.analyses.modify id f } m

/-- The record is put back as it was. -/
theorem Around.same {man : ThreadsManager} {m : Addr} {id : Int} {a : Analysis} {x s : Addr}
    {K : Owned} (h : Around man m id a x s K) {last : Word}
    (hlast : last = int a.lastStart ∨ a.status = ANALYSIS_COMPLETE) :
    recordAt a last (int a.pid) x s * K ≤ managerAt man m := by
  have hput := h (fun b => b) last hlast
  rwa [modify_self] at hput

/-- A lookup: what follows has no record, or one that it may change. -/
theorem findRecord_spec (man : ThreadsManager) (m : Addr) (id : Int) {fuel : Nat}
    (hfuel : man.analyses.size < fuel) {k : Option Ptr → Code β}
    (hnone : DiskAnalyzer.treapFind man.analyses id = none → Triple (managerAt man m) (k none) Q)
    (hsome : ∀ a x s last K, DiskAnalyzer.treapFind man.analyses id = some a →
      last = int a.lastStart ∨ a.status = ANALYSIS_COMPLETE → Around man m id a x s K →
      Triple (recordAt a last (int a.pid) x s * K) (k (some (some x))) Q) :
    Triple (managerAt man m) (loadPtr (analysesOf m) >>= fun p => treapFind fuel p id >>= k) Q := by
  have hman := managerAt_store man man.analyses m
  refine Triple.pre ?_ hman.ge
  rw [treapIn_open]
  simp only [iSup_mul, Triple.iSup_iff]
  intro p
  refine .loadPtr ?_
  have hfind := treapFind_spec (S := analysisAt) id man.analyses fuel p hfuel
  refine .call hfind fun ret => ?_
  have hback (t : Treap Analysis) : treapAt (held analysisAt) t p *
      (cell (analysesOf m) (.ptr p) * (cell (analysisCntOf m) (int man.analysisCnt) *
        pathsIn man.paths (pathsOf m) * treapIn (held nullAt) man.availableIds (availableIdsOf m))) ≤
      managerAt { man with analyses := t } m := by
    rw [← managerAt_store, treapIn_open t (analysesOf m)]
    simp only [iSup_mul]
    exact le_iSup_of_le p (le_of_eq (by ac_rfl))
  cases hf : DiskAnalyzer.treapFind man.analyses id with
  | none =>
    simp only [found, iSup_mul, Triple.iSup_iff]
    rintro rfl
    exact (hnone hf).pre (hback man.analyses)
  | some a =>
    simp only [found, iSup_mul, Triple.iSup_iff]
    rintro ap rfl K hK
    rw [mul_assoc]
    refine analysisAt_cases fun x s last hap hlast => ?_
    subst hap
    refine (hsome a x s last _ hf hlast fun f last' hlast' => ?_).pre (le_of_eq (by rw [recordAt]))
    rw [← mul_assoc, modify_of_find hf]
    exact (mul_le_mul' ((mul_le_mul' (analysisAt_intro hlast') le_rfl).trans (hK (f a))) le_rfl).trans
      (hback _)

/-! ## Reading -/

/-- **`threads_status`** answers as the model does, and changes nothing. -/
theorem threadsStatus_spec (man : ThreadsManager) (m : Addr) (id fd : Int) {fuel : Nat}
    (hfuel : man.analyses.size < fuel) :
    Triple (managerAt man m) (threadsStatus fuel m id fd) fun out =>
      ⨆ _ : out = DiskAnalyzer.threadsStatus man id fd, managerAt man m := by
  unfold threadsStatus DiskAnalyzer.threadsStatus
  refine findRecord_spec man m id hfuel (fun hf => ?_) fun a x s last K hf hlast hK => ?_
  · rw [hf]
    exact .ret (le_iSup_of_le rfl le_rfl)
  · rw [hf]
    simp only [Triple.deref_some, pure_bind]
    refine loadPath_spec a last (int a.pid) x s ?_
    have hsame := hK.same hlast
    rw [recordAt_open] at hsame ⊢
    refine loadInt_spec ?_
    refine loadInt_spec ?_
    exact .ret (le_iSup_of_le rfl hsame)

/-- **`threads_result`** answers as the model does, and changes nothing. -/
theorem threadsResult_spec (dirPath : Bytes) (man : ThreadsManager) (m : Addr) (id fd : Int)
    {fuel : Nat} (hfuel : man.analyses.size < fuel) :
    Triple (managerAt man m) (threadsResult fuel dirPath m id fd) fun out =>
      ⨆ _ : out = DiskAnalyzer.threadsResult dirPath man id fd, managerAt man m := by
  unfold threadsResult DiskAnalyzer.threadsResult
  refine findRecord_spec man m id hfuel (fun hf => ?_) fun a x s last K hf hlast hK => ?_
  · rw [hf]
    exact .ret (le_iSup_of_le rfl le_rfl)
  · rw [hf]
    simp only [Triple.deref_some, pure_bind]
    have hsame := hK.same hlast
    rw [recordAt_open] at hsame ⊢
    refine loadInt_spec ?_
    by_cases hdone : a.status = ANALYSIS_COMPLETE
    · rw [if_pos hdone, if_pos hdone]
      exact .ret (le_iSup_of_le rfl hsame)
    · rw [if_neg hdone, if_neg hdone]
      rw [← recordAt_open] at hsame ⊢
      refine loadPath_spec a last (int a.pid) x s ?_
      exact .ret (le_iSup_of_le rfl hsame)

/-! ## Listing -/

/-- A record that is owned with other things. -/
theorem splitRecord_spec (a : Analysis) (p : Ptr) [hF : Frame P (analysisAt a p) F] {c : Code β}
    (h : ∀ x s last, p = some x → last = int a.lastStart ∨ a.status = ANALYSIS_COMPLETE →
      Triple (recordAt a last (int a.pid) x s * F) c Q) : Triple P c Q := by
  rw [hF.eq]
  exact analysisAt_cases h

/-- **`analysis_list`** writes the line of the record, and changes nothing. -/
theorem analysisList_spec (now fd id : Int) (a : Analysis) {last : Word} (x s : Addr)
    (hlast : last = int a.lastStart ∨ a.status = ANALYSIS_COMPLETE) :
    Triple (recordAt a last (int a.pid) x s) (analysisList now fd id x) fun out =>
      ⨆ _ : out = DiskAnalyzer.analysisList now fd id a, recordAt a last (int a.pid) x s := by
  unfold analysisList
  refine loadPath_spec a last (int a.pid) x s ?_
  rw [recordAt_open]
  refine loadInt_spec ?_
  refine loadInt_spec ?_
  refine loadInt_spec ?_
  refine loadInt_spec ?_
  by_cases hrun : a.status ≠ ANALYSIS_COMPLETE ∧ a.suspended ≠ ANALYSIS_SUSPENDED
  · obtain rfl := hlast.resolve_right hrun.1
    rw [if_pos hrun]
    refine loadInt_spec ?_
    refine loadInt_spec ?_
    refine loadInt_spec ?_
    exact .ret (le_iSup_of_le rfl (mul_one _).le)
  · rw [if_neg hrun, pure_bind]
    refine loadInt_spec ?_
    refine loadInt_spec ?_
    refine .ret (le_iSup_of_le ?_ (mul_one _).le)
    simp only [DiskAnalyzer.analysisList, listedTime, if_neg hrun, newAnalysis]
    rfl

/-- **`threads_show_in_order`** writes the lines of the records in order. -/
theorem threadsShowInOrder_spec (now : Int → Int) (fd : Int) (t : Treap Analysis) :
    ∀ (fuel : Nat) (p : Ptr), t.size < fuel →
      Triple (treapAt (held analysisAt) t p) (threadsShowInOrder fuel now p fd) fun out =>
        ⨆ _ : out = t.inorder.map fun e => DiskAnalyzer.analysisList (now e.1) fd e.1 e.2.2,
          treapAt (held analysisAt) t p := by
  induction t with
  | nil =>
    intro fuel p hfuel
    obtain ⟨fuel, rfl⟩ : ∃ n, fuel = n + 1 := ⟨fuel - 1, by omega⟩
    simp only [treapAt, Triple.iSup_iff]
    rintro rfl
    rw [threadsShowInOrder]
    exact .ret (le_iSup_of_le rfl (le_iSup_of_le rfl le_rfl))
  | node i h a l r ihl ihr =>
    intro fuel p hfuel
    rw [size_node] at hfuel
    obtain ⟨fuel, rfl⟩ : ∃ n, fuel = n + 1 := ⟨fuel - 1, by omega⟩
    simp only [treapAt_node, Triple.iSup_iff]
    rintro q rfl
    have hopen : nodeAt (held analysisAt) i h a q = ⨆ p, head q 5 * cell (idOf q) (int i) *
        cell (heapVal q) (int h) * (cell (analOf q) (.ptr p) * analysisAt a p) := by
      simp only [nodeAt, held, mul_iSup]
    have hback (pl pr : Ptr) (x s : Addr) (last : Word)
        (hlast : last = int a.lastStart ∨ a.status = ANALYSIS_COMPLETE) :
        recordAt a last (int a.pid) x s * (head q 5 * cell (idOf q) (int i) *
          cell (heapVal q) (int h) * cell (analOf q) (.ptr (some x)) *
          (cell (chldLeft q) (.ptr pl) * treapAt (held analysisAt) l pl) *
          (cell (chldRight q) (.ptr pr) * treapAt (held analysisAt) r pr)) ≤
        treapAt (held analysisAt) (node i h a l r) (some q) := by
      rw [treapAt_some, hopen, treapIn_open l, treapIn_open r]
      simp only [iSup_mul, mul_iSup]
      refine le_iSup_of_le pr (le_iSup_of_le pl (le_iSup_of_le (some x) ?_))
      refine (mul_le_mul' (analysisAt_intro hlast) le_rfl).trans (le_of_eq ?_)
      ac_rfl
    rw [threadsShowInOrder, hopen, treapIn_open l (chldLeft q), treapIn_open r (chldRight q)]
    simp only [mul_iSup, iSup_mul, Triple.iSup_iff]
    intro pr pl p
    refine .loadPtr ?_
    refine .call (ihl fuel pl (by omega)) fun before => ?_
    simp only [iSup_mul, Triple.iSup_iff]
    rintro rfl
    refine loadInt_spec ?_
    refine .loadPtr ?_
    refine splitRecord_spec a p fun x s last hp hlast => ?_
    subst hp
    simp only [Triple.deref_some, pure_bind]
    refine .call (analysisList_spec (now i) fd i a x s hlast) fun line => ?_
    simp only [iSup_mul, Triple.iSup_iff]
    rintro rfl
    refine .loadPtr ?_
    refine .call (ihr fuel pr (by omega)) fun after => ?_
    simp only [iSup_mul, Triple.iSup_iff]
    rintro rfl
    refine .ret (le_iSup_of_le ?_ (le_trans (le_of_eq ?_) (hback pl pr x s last hlast)))
    · rw [inorder_node, List.map_append, List.map_cons]
    · ac_rfl

/-- **`threads_get_all`** writes what the model writes, and changes nothing. -/
theorem threadsGetAll_spec (now : Int → Int) (man : ThreadsManager) (m : Addr) (fd : Int)
    {fuel : Nat} (hfuel : man.analyses.size < fuel) :
    Triple (managerAt man m) (threadsGetAll fuel now m fd) fun out =>
      ⨆ _ : out = DiskAnalyzer.threadsGetAll now man fd, managerAt man m := by
  unfold threadsGetAll
  rw [managerAt, treapIn_open man.analyses (analysesOf m)]
  simp only [mul_iSup, iSup_mul, Triple.iSup_iff]
  intro p
  refine loadInt_spec ?_
  refine .loadPtr ?_
  refine .call (threadsShowInOrder_spec now fd man.analyses fuel p hfuel) fun lines => ?_
  simp only [iSup_mul, Triple.iSup_iff]
  rintro rfl
  refine .ret (le_iSup_of_le ?_ (le_iSup_of_le p (le_of_eq (by ac_rfl))))
  rw [DiskAnalyzer.threadsGetAll, showInOrder_eq, List.map_map]
  rfl

/-! ## Signalling -/

theorem live_spec (inGroup : Int → Bool) (a : Analysis) (last : Word) (x s : Addr) :
    Triple (recordAt a last (int a.pid) x s) (live inGroup x) fun out =>
      ⨆ _ : out = if a.Live inGroup then some a.pid else none, recordAt a last (int a.pid) x s := by
  unfold live
  rw [recordAt_open]
  refine loadInt_spec ?_
  exact .ret (le_iSup_of_le rfl le_rfl)

theorem addElapsed_spec (now : Int) (a : Analysis) (pid : Word) (x s : Addr) :
    Triple (recordAt a (int a.lastStart) pid x s) (addElapsed now x) fun _ =>
      recordAt { a with totalTime := wrap32 (a.totalTime + (now - a.lastStart)) }
        (int a.lastStart) pid x s := by
  unfold addElapsed
  rw [recordAt_open]
  refine loadInt_spec ?_
  refine loadInt_spec ?_
  refine .store_last (le_of_eq ?_)
  rw [recordAt_open]
  ac_rfl

theorem storeSuspended_spec (a : Analysis) (last pid : Word) (x s : Addr)
    [hF : Frame P (recordAt a last pid x s) F] {n : Int} {k : Unit → Code β}
    (hk : Triple (recordAt { a with suspended := n } last pid x s * F) (k ()) Q) :
    Triple P (store (suspendedOf x) (int n) >>= k) Q := by
  rw [hF.eq]
  rw [recordAt_open] at hk ⊢
  refine .store ?_
  exact hk.pre (le_of_eq (by ac_rfl))

/-- **`threads_suspend`** does what the model does. -/
theorem threadsSuspend_spec (inGroup : Int → Bool) (now : Int) (man : ThreadsManager) (m : Addr)
    (id fd : Int) {fuel : Nat} (hfuel : man.analyses.size < fuel) :
    Triple (managerAt man m) (threadsSuspend fuel inGroup now m id fd) fun out =>
      ⨆ _ : out = ((DiskAnalyzer.threadsSuspend inGroup now man id fd).reply,
          (DiskAnalyzer.threadsSuspend inGroup now man id fd).signalled),
        managerAt (DiskAnalyzer.threadsSuspend inGroup now man id fd).man m := by
  unfold threadsSuspend DiskAnalyzer.threadsSuspend
  refine findRecord_spec man m id hfuel (fun hf => ?_) fun a x s last K hf hlast hK => ?_
  · rw [hf]
    exact .ret (le_iSup_of_le rfl le_rfl)
  · rw [hf]
    simp only [Triple.deref_some, pure_bind]
    refine loadPath_spec a last (int a.pid) x s ?_
    have hsame := hK.same hlast
    rw [recordAt_open] at hsame ⊢
    refine loadInt_spec ?_
    refine loadInt_spec ?_
    rw [← recordAt_open] at hsame ⊢
    by_cases hrun : a.suspended ≠ ANALYSIS_SUSPENDED ∧ a.status ≠ ANALYSIS_COMPLETE
    · rw [if_pos hrun, if_pos hrun]
      obtain rfl := hlast.resolve_right hrun.2
      refine .call (live_spec inGroup a (int a.lastStart) x s) fun pid => ?_
      simp only [iSup_mul, Triple.iSup_iff]
      rintro rfl
      have hput := hK (Analysis.suspend inGroup now) (int a.lastStart) (Or.inl rfl)
      by_cases hlive : a.Live inGroup
      · rw [if_pos hlive, if_pos Option.isSome_some]
        refine .call (addElapsed_spec now a (int a.pid) x s) fun _ => ?_
        refine storeSuspended_spec { a with
          totalTime := wrap32 (a.totalTime + (now - a.lastStart)) } (int a.lastStart) (int a.pid) x s ?_
        refine .ret (le_iSup_of_le rfl (le_trans (le_of_eq ?_) hput))
        rw [Analysis.suspend, if_pos hlive]
      · rw [if_neg hlive, if_neg (by simp), pure_bind]
        refine storeSuspended_spec a (int a.lastStart) (int a.pid) x s ?_
        refine .ret (le_iSup_of_le rfl (le_trans (le_of_eq ?_) hput))
        rw [Analysis.suspend, if_neg hlive]
    · rw [if_neg hrun, if_neg hrun]
      by_cases hsus : a.suspended = ANALYSIS_SUSPENDED
      · rw [if_pos hsus, if_pos hsus]
        exact .ret (le_iSup_of_le rfl hsame)
      · rw [if_neg hsus, if_neg hsus]
        exact .ret (le_iSup_of_le rfl hsame)

/-- **`threads_resume`** does what the model does. -/
theorem threadsResume_spec (inGroup : Int → Bool) (now : Int) (man : ThreadsManager) (m : Addr)
    (id fd : Int) {fuel : Nat} (hfuel : man.analyses.size < fuel) :
    Triple (managerAt man m) (threadsResume fuel inGroup now m id fd) fun out =>
      ⨆ _ : out = ((DiskAnalyzer.threadsResume inGroup now man id fd).reply,
          (DiskAnalyzer.threadsResume inGroup now man id fd).signalled),
        managerAt (DiskAnalyzer.threadsResume inGroup now man id fd).man m := by
  unfold threadsResume DiskAnalyzer.threadsResume
  refine findRecord_spec man m id hfuel (fun hf => ?_) fun a x s last K hf hlast hK => ?_
  · rw [hf]
    exact .ret (le_iSup_of_le rfl le_rfl)
  · rw [hf]
    simp only [Triple.deref_some, pure_bind]
    refine loadPath_spec a last (int a.pid) x s ?_
    have hsame := hK.same hlast
    rw [recordAt_open] at hsame ⊢
    refine loadInt_spec ?_
    refine loadInt_spec ?_
    rw [← recordAt_open] at hsame ⊢
    by_cases hrun : a.suspended ≠ ANALYSIS_RESUMED
    · rw [if_pos hrun, if_pos hrun]
      refine .call (live_spec inGroup a last x s) fun pid => ?_
      simp only [iSup_mul, Triple.iSup_iff]
      rintro rfl
      by_cases hlive : a.Live inGroup
      · rw [if_pos hlive, if_pos Option.isSome_some]
        have hput := hK (Analysis.resume inGroup now) (int (wrap32 now))
          (Or.inl (by rw [Analysis.resume, if_pos hlive]))
        refine storeLast_spec a last (int a.pid) x s ?_
        refine storeSuspended_spec { a with lastStart := wrap32 now } (int (wrap32 now)) (int a.pid)
          x s ?_
        refine .ret (le_iSup_of_le rfl (le_trans (le_of_eq ?_) hput))
        rw [Analysis.resume, if_pos hlive]
      · rw [if_neg hlive, if_neg (by simp), pure_bind]
        have hput := hK (Analysis.resume inGroup now) last
          (by rw [Analysis.resume, if_neg hlive]; exact hlast)
        refine storeSuspended_spec a last (int a.pid) x s ?_
        refine .ret (le_iSup_of_le rfl (le_trans (le_of_eq ?_) hput))
        rw [Analysis.resume, if_neg hlive]
    · rw [if_neg hrun, if_neg hrun]
      by_cases hdone : a.status = ANALYSIS_COMPLETE
      · rw [if_pos hdone, if_pos hdone]
        exact .ret (le_iSup_of_le rfl hsame)
      · rw [if_neg hdone, if_neg hdone]
        exact .ret (le_iSup_of_le rfl hsame)

/-! ## Removing -/

theorem analysisRemoved_spec (fd id : Int) (a : Analysis) (last pid : Word) (x s : Addr) :
    Triple (recordAt a last pid x s) (analysisRemoved fd id x) fun out =>
      ⨆ _ : out = DiskAnalyzer.analysisRemoved fd id a, recordAt a last pid x s := by
  unfold analysisRemoved
  refine loadPath_spec a last pid x s ?_
  rw [recordAt_open]
  refine loadInt_spec ?_
  exact .ret (le_iSup_of_le rfl (mul_one _).le)

/-- Every stored path can be looked for, and is no longer than `n`. -/
def Stored (man : ThreadsManager) (n : Nat) : Prop :=
  ∀ id a, DiskAnalyzer.treapFind man.analyses id = some a → KeysInside a.path ∧ a.path.length ≤ n

/-- A node of the store that has been taken out, and its record. -/
theorem taken_cases {id h : Int} {a : Analysis} {ret : Ptr} {c : Code β}
    (hc : ∀ q x s last, ret = some q → last = int a.lastStart ∨ a.status = ANALYSIS_COMPLETE →
      Triple (detached id h (.ptr (some x)) q * recordAt a last (int a.pid) x s * F) c Q) :
    Triple (treapAt (held analysisAt) (node id h a nil nil) ret * F) c Q := by
  rw [treapAt_node]
  simp only [treapIn_nil, nodeAt, held, mul_iSup, iSup_mul, Triple.iSup_iff]
  intro q hret p
  refine Triple.pre (analysisAt_cases (F := head q 5 * cell (idOf q) (int id) *
    cell (heapVal q) (int h) * cell (analOf q) (.ptr p) * cell (chldLeft q) (.ptr none) *
      cell (chldRight q) (.ptr none) * F) fun x s last hp hlast => ?_) (le_of_eq (by ac_rfl))
  subst hp
  refine (hc q x s last hret hlast).pre (le_of_eq ?_)
  rw [detached, recordAt]
  ac_rfl

theorem freeRecord_spec (a : Analysis) (last pid : Word) (x s : Addr)
    [hF : Frame P (recordAt a last pid x s) F] {k : Unit → Code β} (hk : Triple F (k ()) Q) :
    Triple P (freeAnal (some x) >>= k) Q := by
  rw [hF.eq]
  have hle : recordAt a last pid x s ≤ record a last pid x :=
    le_iSup_of_le (some s) (mul_le_mul' le_rfl (le_iSup_of_le s (le_iSup_of_le rfl le_rfl)))
  refine .call ((record_freed a last pid x).pre hle) fun _ => ?_
  rwa [one_mul]

/-- **`threads_remove`** does what the model does, and frees the record. -/
theorem threadsRemove_spec (dirPath : Bytes) (inGroup : Int → Bool) (man : ThreadsManager)
    (m : Addr) (id fd : Int) {n fuel : Nat} (hi : InStep man) (hst : Stored man n)
    (hfuel : load man + 2 * n + 1 < fuel) :
    Triple (managerAt man m) (threadsRemove fuel dirPath inGroup m id fd) fun out =>
      ⨆ _ : out = ((DiskAnalyzer.threadsRemove dirPath inGroup man id fd).reply,
          (DiskAnalyzer.threadsRemove dirPath inGroup man id fd).file,
          (DiskAnalyzer.threadsRemove dirPath inGroup man id fd).interrupted),
        managerAt (DiskAnalyzer.threadsRemove dirPath inGroup man id fd).man m := by
  have hload : man.analyses.size < fuel ∧ man.availableIds.size < fuel ∧
      names man.paths + n < fuel := by
    rw [load] at hfuel
    omega
  unfold threadsRemove
  rw [managerAt]
  have hextract := treapExtract_spec (R := held analysisAt) id fuel man.analyses (analysesOf m) hload.1
  refine .call hextract fun ret => ?_
  by_cases hid : id ∈ man.analyses.ids
  · obtain ⟨h, a, hm⟩ := mem_ids.1 hid
    have hex := extract_eq_of_mem hi.store hm
    have hres : DiskAnalyzer.threadsRemove dirPath inGroup man id fd =
        ⟨DiskAnalyzer.analysisRemoved fd id a, some (snprintf 60 (dirPath ++ printPrec 1 id)),
          if a.pid ≠ -1 ∧ inGroup a.pid then some a.pid else none,
          { analysisCnt := man.analysisCnt - 1
            analyses := (DiskAnalyzer.treapExtract man.analyses id).2
            paths := (DiskAnalyzer.treeRemove man.paths a.path).2
            availableIds := DiskAnalyzer.treapInsertNode man.availableIds (node id h () nil nil) }⟩ := by
      rw [DiskAnalyzer.threadsRemove, hex]
    obtain ⟨hkeys, hshort⟩ := hst id a ((find_eq_some_iff hi.store).2 ⟨h, hm⟩)
    have hnames : names man.paths + a.path.length < fuel := by omega
    rw [(extract_of_mem hi.store hm).1, mul_assoc]
    refine taken_cases fun q x s last hret hlast => ?_
    subst hret
    rw [pathsIn]
    simp only [mul_iSup, iSup_mul, Triple.iSup_iff]
    intro t
    refine loadInt_spec ?_
    refine .store ?_
    rw [detached]
    refine .loadPtr ?_
    simp only [Triple.deref_some, pure_bind]
    refine .call (live_spec inGroup a last x s) fun pid => ?_
    simp only [iSup_mul, Triple.iSup_iff]
    rintro rfl
    refine loadPath_spec a last (int a.pid) x s ?_
    refine .loadPtr ?_
    simp only [Triple.deref_some, pure_bind]
    have hremove : Triple (treeAt idWords man.paths t) (treeRemove fuel t a.path) _ :=
      treeRemove_spec fuel man.paths a.path t hi.trie hkeys hnames
    refine .call hremove fun _ => ?_
    simp only [iSup_mul, Triple.iSup_iff]
    intro _
    refine .call (park_spec nullAt id h (.ptr (some x)) q man.availableIds (availableIdsOf m) hload.2.1)
      fun _ => ?_
    refine .call (analysisRemoved_spec fd id a last (int a.pid) x s) fun reply => ?_
    simp only [iSup_mul, Triple.iSup_iff]
    rintro rfl
    refine freeRecord_spec a last (int a.pid) x s ?_
    refine .store ?_
    rw [hres]
    refine .ret (le_iSup_of_le rfl ?_)
    have hput : treapIn (withHole (held nullAt) (analOf q)) (parked man.availableIds id h)
        (availableIdsOf m) * cell (analOf q) (.ptr none) ≤ treapIn (held nullAt)
          (DiskAnalyzer.treapInsertNode man.availableIds (node id h () nil nil)) (availableIdsOf m) := by
      refine (mul_le_mul' le_rfl ?_).trans (unpark nullAt id h () q man.availableIds (availableIdsOf m))
      exact (one_mul _).ge.trans (fits_null (analOf q))
    have hman := managerAt_intro { analysisCnt := man.analysisCnt - 1
                                   analyses := (DiskAnalyzer.treapExtract man.analyses id).2
                                   paths := (DiskAnalyzer.treeRemove man.paths a.path).2
                                   availableIds := DiskAnalyzer.treapInsertNode man.availableIds
                                     (node id h () nil nil) } m t
    refine le_trans (le_of_eq ?_) ((mul_le_mul' le_rfl hput).trans hman)
    ac_rfl
  · have hres : DiskAnalyzer.threadsRemove dirPath inGroup man id fd =
        ⟨analysisIdNoExists fd id, none, none, man⟩ := by
      rw [DiskAnalyzer.threadsRemove, extract_of_notMem hi.store hid]
    rw [hres, extract_of_notMem hi.store hid]
    simp only [treapAt, iSup_mul, Triple.iSup_iff, one_mul]
    rintro rfl
    refine .ret (le_iSup_of_le rfl (le_of_eq ?_))
    rw [managerAt]
    ac_rfl

/-! ## Results -/

/-- The last message of a worker is about a record that is not complete. -/
def Awaited (man : ThreadsManager) (result : UInt8) (id : Int) : Prop :=
  result = 49 → ∀ a, DiskAnalyzer.treapFind man.analyses id = some a → a.status ≠ ANALYSIS_COMPLETE

/-- **`threads_read_results`** does what the model does. -/
theorem threadsReadResults_spec (dirPath : Bytes) (inGroup : Int → Bool) (now : Int)
    (man : ThreadsManager) (m : Addr) (result : UInt8) (id dirs files : Int) {n fuel : Nat}
    (hi : InStep man) (hst : Stored man n) (hresult : Awaited man result id)
    (hfuel : load man + 2 * n + 1 < fuel) :
    Triple (managerAt man m) (threadsReadResults fuel dirPath inGroup now m result id dirs files)
      fun _ => managerAt
        (DiskAnalyzer.threadsReadResults dirPath inGroup now man result id dirs files) m := by
  unfold threadsReadResults DiskAnalyzer.threadsReadResults
  by_cases hfail : result = 48
  · rw [if_pos hfail, if_pos hfail]
    refine .bind (threadsRemove_spec dirPath inGroup man m id (-1) hi hst hfuel) fun out => ?_
    simp only [Triple.iSup_iff]
    exact fun _ => .ret le_rfl
  rw [if_neg hfail, if_neg hfail]
  have hsize : man.analyses.size < fuel := by rw [load] at hfuel; omega
  refine findRecord_spec man m id hsize (fun hf => ?_) fun a x s last K hf hlast hK => ?_
  · rw [hf]
    exact .ret le_rfl
  rw [hf]
  simp only [Triple.deref_some, pure_bind]
  rw [recordAt_open]
  refine loadInt_spec ?_
  refine .store ?_
  refine loadInt_spec ?_
  refine .store ?_
  by_cases hdone : result = 49
  · obtain rfl := hlast.resolve_right (hresult hdone a hf)
    rw [if_pos hdone]
    refine .store ?_
    refine .last (addElapsed_spec now { a with
        cntDirs := wrap32 (a.cntDirs + dirs)
        cntFiles := wrap32 (a.cntFiles + files)
        status := ANALYSIS_COMPLETE } (int a.pid) x s) fun _ => ?_
    have hsame : Analysis.result result dirs files now a = { a with
        cntDirs := wrap32 (a.cntDirs + dirs)
        cntFiles := wrap32 (a.cntFiles + files)
        status := ANALYSIS_COMPLETE
        totalTime := wrap32 (a.totalTime + (now - a.lastStart)) } := by
      rw [Analysis.result, if_pos hdone]
    have hput := hK (Analysis.result result dirs files now) (int a.lastStart)
    rw [hsame] at hput
    refine le_trans (le_of_eq ?_) (hput (Or.inl rfl))
    ac_rfl
  · rw [if_neg hdone]
    have hsame : Analysis.result result dirs files now a = { a with
        cntDirs := wrap32 (a.cntDirs + dirs), cntFiles := wrap32 (a.cntFiles + files) } := by
      rw [Analysis.result, if_neg hdone]
    have hput := hK (Analysis.result result dirs files now) last
    rw [hsame, recordAt_open] at hput
    refine .ret (le_trans (le_of_eq ?_) (hput hlast))
    ac_rfl

end DiskAnalyzer.Memory
