import DiskAnalyzer.Memory.ServiceProof
import DiskAnalyzer.ServiceProof

/-!
# Requests on the memory
-/

namespace DiskAnalyzer.Memory

open Sep Treap Assertion Decimal

variable {β : Type} {P F : Owned} {Q : β → Owned}

/-! ## Adding -/

/-- A task's path, which `request_thread` frees. -/
def taskAt (cnt : Int) (s : Bytes) (p : Ptr) : Owned := if cnt = 1 then strAt s p else 1

theorem freeAdded_spec (r : AddResult) (a : Analysis) (m x : Addr) (out : Int × Bytes) :
    Triple (added r a m x out) (if out.1 ≠ 0 then freeAnal (some x) else pure ()) fun _ =>
      ⨆ _ : out.2 = r.reply, managerAt r.man m := by
  simp only [added, Triple.iSup_iff]
  rintro rfl
  by_cases hret : r.ret = 0
  · rw [if_pos hret, if_neg (not_not.2 hret), mul_one]
    exact .ret (le_iSup_of_le rfl le_rfl)
  · rw [if_neg hret, if_pos hret, ownRecord]
    simp only [mul_iSup, Triple.iSup_iff]
    intro last pid
    refine .last (record_freed a last pid x) fun _ => ?_
    rw [one_mul]
    exact le_iSup_of_le trivial le_rfl

/-- What a request for an add leaves: no record could be made, or the model's add for some answers
of `malloc`. -/
def addAnswered (w : AddWorld) (man : ThreadsManager) (path : Bytes) (priority fd : Int) (m : Addr)
    (reply : Bytes) : Owned :=
  (⨆ _ : reply = [], managerAt man m) ⊔
    ⨆ made, ⨆ _ : made = none ∨ made = some w.rand, ⨆ idp, ⨆ alloc,
      ⨆ _ : reply = (DiskAnalyzer.threadsAdd (w.env made idp alloc) man
          (newAnalysis path priority (0, 0)) fd).reply,
        managerAt (DiskAnalyzer.threadsAdd (w.env made idp alloc) man
          (newAnalysis path priority (0, 0)) fd).man m * spared fd reply

/-- **The first case of `request_thread`** frees the path of the task, and the record unless the
manager has taken it. -/
theorem requestAdd_spec (w : AddWorld) (man : ThreadsManager) (s : Bytes) (priority fd : Int)
    (m path : Addr) {fuel : Nat} (hi : InStep man)
    (hfresh : w.Fresh man (newAnalysis s priority (0, 0)) fd) (hkeys : KeysInside s)
    (hfuel : load man + 2 * s.length + 2 < fuel) :
    Triple (managerAt man m * block path [.data (.str s)])
      (requestAdd fuel w m path priority fd) (addAnswered w man s priority fd m) := by
  unfold requestAdd
  refine .malloc ?_ fun anal => ?_
  · refine .free [.data (.str s)] ?_
    exact .ret (le_sup_of_le_left (le_iSup_of_le rfl le_rfl))
  rw [show List.replicate 9 (Val.undef : Word) = [.undef, .undef, .undef, .undef, .undef, .undef,
    .undef, .undef, .undef] from rfl, block_record, block_one]
  refine .store ?_
  refine loadStr_spec ?_
  refine .call (strndup_spec s) fun ret => ?_
  simp only [Quantale.sup_mul_distrib, iSup_mul, Triple.sup_iff, Triple.iSup_iff]
  constructor
  · rintro rfl
    refine .free [.data (.str s)] ?_
    refine .free [int 0, .undef, .undef, .undef, .undef, .undef, .undef, .undef, .undef] ?_
    refine .ret (le_sup_of_le_left (le_iSup_of_le rfl ?_))
    rw [one_mul]
  · rintro p rfl
    refine .store ?_
    refine .store ?_
    refine .store ?_
    refine .store ?_
    refine .store ?_
    refine .store ?_
    refine .free [.data (.str s)] ?_
    rw [block_one]
    refine Triple.pre (.bind (threadsAdd_spec w man (newAnalysis s priority (0, 0)) .undef .undef m
      anal p fd hi hfresh hkeys hfuel) fun out => ?_) (le_of_eq ?_)
    · obtain ⟨ret, reply⟩ := out
      simp only [addedFor, Triple.iSup_iff]
      intro made hmade idp alloc
      have hfree := freeAdded_spec (DiskAnalyzer.threadsAdd (w.env made idp alloc) man
        (newAnalysis s priority (0, 0)) fd) (newAnalysis s priority (0, 0)) m anal (ret, reply)
      refine .call hfree fun _ => ?_
      simp only [iSup_mul, Triple.iSup_iff]
      intro hreply
      refine .ret (le_sup_of_le_right (le_iSup_of_le made (le_iSup_of_le hmade (le_iSup_of_le idp
        (le_iSup_of_le alloc (le_iSup_of_le hreply le_rfl))))))
    · rw [recordAt_open]
      simp only [newAnalysis]
      ac_rfl

/-! ## All requests -/

/-- What a request meets, with the answers of `malloc`. -/
def World.env (w : World) (rand : Option Int) (idp : Bool) (alloc : Alloc) : RequestEnv where
  add := w.add.env rand idp alloc
  memory := (0, 0)
  dirPath := w.dirPath
  inGroup := w.inGroup
  now := w.now
  clock := w.clock

/-- A reply and what is left: no record could be made, or the model's for some answers of
`malloc`. -/
inductive Answered (w : World) (man : ThreadsManager) (tsk : Task) (fd : Int) :
    Bytes → ThreadsManager → Prop
  | refused : tsk.cnt = 1 → Answered w man tsk fd [] man
  | served {made : Option Int} (idp : Bool) (alloc : Alloc) : made = none ∨ made = some w.add.rand →
      Answered w man tsk fd (DiskAnalyzer.requestThread (w.env made idp alloc) man tsk fd).1
        (DiskAnalyzer.requestThread (w.env made idp alloc) man tsk fd).2

/-- What a request leaves. -/
def answeredAt (w : World) (man : ThreadsManager) (tsk : Task) (fd : Int) (m : Addr) (reply : Bytes) :
    Owned :=
  ⨆ man', ⨆ _ : Answered w man tsk fd reply man', managerAt man' m * spared fd reply

/-- A request that needs no memory. -/
theorem answered_le {w : World} {man man' : ThreadsManager} {tsk : Task} {fd : Int} {reply : Bytes}
    (m : Addr) (hres : DiskAnalyzer.requestThread (w.env none true none) man tsk fd = (reply, man')) :
    managerAt man' m ≤ answeredAt w man tsk fd m reply := by
  have hserved : Answered w man tsk fd _ _ := .served true none (Or.inl rfl)
  rw [hres] at hserved
  refine le_iSup_of_le man' (le_iSup_of_le hserved ?_)
  exact le_mul_of_le_of_one_le le_rfl (one_le_spared fd reply)

/-- The path of an add can be put in, and its id is new. -/
structure Addable (w : World) (man : ThreadsManager) (tsk : Task) (fd : Int) (n : Nat) : Prop where
  fresh : w.add.Fresh man (newAnalysis tsk.path tsk.priority (0, 0)) fd
  keys : KeysInside tsk.path
  short : tsk.path.length ≤ n

/-- **The `switch` of `request_thread`**: the reply of the model, and its manager. -/
theorem requestThread_spec (w : World) (man : ThreadsManager) (tsk : Task) (fd : Int) (m : Addr)
    (path : Ptr) {n fuel : Nat} (hi : InStep man) (hst : Stored man n)
    (hadd : tsk.cnt = 1 → Addable w man tsk fd n) (hfuel : load man + 2 * n + 2 < fuel) :
    Triple (managerAt man m * taskAt tsk.cnt tsk.path path)
      (requestThread fuel w m tsk.cnt tsk.id tsk.priority path fd) (answeredAt w man tsk fd m) := by
  have hsize : man.analyses.size < fuel := by rw [load] at hfuel; omega
  unfold requestThread
  by_cases h1 : tsk.cnt = 1
  · obtain ⟨hfresh, hkeys, hshort⟩ := hadd h1
    rw [if_pos h1, taskAt, if_pos h1, strAt]
    simp only [mul_iSup, Triple.iSup_iff]
    rintro x rfl
    simp only [Triple.deref_some, pure_bind]
    refine (requestAdd_spec w.add man tsk.path tsk.priority fd m x hi hfresh hkeys (by omega)).post
      fun reply => ?_
    refine sup_le (iSup_le ?_) (iSup_le fun made => iSup_le fun hmade => iSup_le fun idp =>
      iSup_le fun alloc => iSup_le ?_)
    · rintro rfl
      refine le_iSup_of_le man (le_iSup_of_le (.refused h1) ?_)
      exact le_mul_of_le_of_one_le le_rfl (one_le_spared fd [])
    · rintro rfl
      have hserved : Answered w man tsk fd _ _ := .served idp alloc hmade
      rw [DiskAnalyzer.requestThread, if_pos h1] at hserved
      exact le_iSup_of_le _ (le_iSup_of_le hserved le_rfl)
  rw [if_neg h1, taskAt, if_neg h1, mul_one]
  by_cases h2 : tsk.cnt = 2
  · rw [if_pos h2]
    refine .bind (threadsSuspend_spec w.inGroup w.now man m tsk.id fd hsize) fun out => ?_
    simp only [Triple.iSup_iff]
    rintro rfl
    refine .ret (answered_le m ?_)
    rw [DiskAnalyzer.requestThread, if_neg h1, if_pos h2]
    rfl
  rw [if_neg h2]
  by_cases h3 : tsk.cnt = 3
  · rw [if_pos h3]
    refine .bind (threadsResume_spec w.inGroup w.now man m tsk.id fd hsize) fun out => ?_
    simp only [Triple.iSup_iff]
    rintro rfl
    refine .ret (answered_le m ?_)
    rw [DiskAnalyzer.requestThread, if_neg h1, if_neg h2, if_pos h3]
    rfl
  rw [if_neg h3]
  by_cases h4 : tsk.cnt = 4
  · rw [if_pos h4]
    refine .bind (threadsRemove_spec w.dirPath w.inGroup man m tsk.id fd hi hst (by omega))
      fun out => ?_
    simp only [Triple.iSup_iff]
    rintro rfl
    refine .ret (answered_le m ?_)
    rw [DiskAnalyzer.requestThread, if_neg h1, if_neg h2, if_neg h3, if_pos h4]
    rfl
  rw [if_neg h4]
  by_cases h5 : tsk.cnt = 5
  · rw [if_pos h5]
    refine (threadsStatus_spec man m tsk.id fd hsize).post fun reply => iSup_le ?_
    rintro rfl
    refine answered_le m ?_
    rw [DiskAnalyzer.requestThread, if_neg h1, if_neg h2, if_neg h3, if_neg h4, if_pos h5]
  rw [if_neg h5]
  by_cases h6 : tsk.cnt = 6
  · rw [if_pos h6]
    refine .bind (threadsGetAll_spec w.clock man m fd hsize) fun out => ?_
    simp only [Triple.iSup_iff]
    rintro rfl
    refine .ret (answered_le m ?_)
    rw [DiskAnalyzer.requestThread, if_neg h1, if_neg h2, if_neg h3, if_neg h4, if_neg h5, if_pos h6]
    rfl
  rw [if_neg h6]
  by_cases h7 : tsk.cnt = 7
  · rw [if_pos h7]
    refine .bind (threadsResult_spec w.dirPath man m tsk.id fd hsize) fun out => ?_
    simp only [Triple.iSup_iff]
    rintro rfl
    refine .ret (answered_le m ?_)
    rw [DiskAnalyzer.requestThread, if_neg h1, if_neg h2, if_neg h3, if_neg h4, if_neg h5, if_neg h6,
      if_pos h7]
    rfl
  · rw [if_neg h7]
    refine .ret (answered_le m ?_)
    rw [DiskAnalyzer.requestThread, if_neg h1, if_neg h2, if_neg h3, if_neg h4, if_neg h5, if_neg h6,
      if_neg h7]

end DiskAnalyzer.Memory
