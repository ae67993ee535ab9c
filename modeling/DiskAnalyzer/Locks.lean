import DiskAnalyzer.Lib.Mutex
import DiskAnalyzer.Lib.Run
import Mathlib.Tactic.SplitIfs

/-!
# `analyses_mutex`: who locks what

A mutex is a value, free or held, in `struct threads_manager`. Adding, suspending, resuming,
removing and reading results lock the manager's; `threads_status`, `threads_get_all` and
`threads_result` receive the manager by value and lock the mutex of their copy.

A thread is where it stands in the code as far as `analyses_mutex` is concerned. Sections under
the other mutexes are outside. Any number of request threads run, each serving one request, next
to the results thread, which serves one message after another.
-/

namespace DiskAnalyzer.Locks

/-- `pthread_mutex_t`. -/
inductive Mtx where
  | free
  | held
  deriving DecidableEq, Repr

/-- The sections guarded by the manager's `analyses_mutex`. -/
inductive Section where
  /-- `threads_add`: `treap_insert_node`, `treap_extract` after a failed fork request, and the
  last section. -/
  | addInsert
  | addExtract
  | addFinish
  | suspend
  | resume
  | remove
  /-- `threads_read_results`, and `threads_remove` called from it. -/
  | results
  | resultsRemove
  deriving DecidableEq, Repr

/-- The operations that receive the manager by value. -/
inductive Reader where
  | status
  | getAll
  | result
  deriving DecidableEq, Repr

/-- Where a thread stands. -/
inductive Pc where
  /-- `request_thread`, before it calls an operation. -/
  | ready
  /-- At `pthread_mutex_lock` of the manager's mutex, and behind it. -/
  | want (sec : Section)
  | inside (sec : Section)
  /-- `threads_add` waits for `fork_request`. -/
  | forking
  /-- At `pthread_mutex_lock` of a copy, and behind it. -/
  | wantCopy (op : Reader) (copy : Mtx)
  | insideCopy (op : Reader) (copy : Mtx)
  /-- The results thread between two messages. -/
  | reading
  | returned
  deriving DecidableEq, Repr

/-- Where a thread goes when it leaves a section. -/
def Section.next : Section → Pc
  | addInsert => .forking
  | addExtract | addFinish | suspend | resume | remove => .returned
  | results | resultsRemove => .reading

/-- The sections a request starts with, and those of a message. -/
def requestSections : List Section := [.addInsert, .suspend, .resume, .remove]
def messageSections : List Section := [.results, .resultsRemove]

/-- One thread's step: the manager's mutex and the thread before and after. -/
inductive Move : Mtx → Pc → Mtx → Pc → Prop
  /-- A request that touches no analysis: unreadable, or an add that fails before it inserts. -/
  | refused (m : Mtx) : Move m .ready m .returned
  | call {sec : Section} (m : Mtx) : sec ∈ requestSections → Move m .ready m (.want sec)
  /-- The call of an operation that receives `*man`: the mutex is copied with it. -/
  | callByValue (m : Mtx) (op : Reader) : Move m .ready m (.wantCopy op m)
  | message {sec : Section} (m : Mtx) : sec ∈ messageSections → Move m .reading m (.want sec)
  | forked (m : Mtx) : Move m .forking m (.want .addFinish)
  | forkFailed (m : Mtx) : Move m .forking m (.want .addExtract)
  | lock (sec : Section) : Move .free (.want sec) .held (.inside sec)
  | unlock (m : Mtx) (sec : Section) : Move m (.inside sec) .free sec.next
  | lockCopy (m : Mtx) (op : Reader) : Move m (.wantCopy op .free) m (.insideCopy op .held)
  | unlockCopy (m : Mtx) (op : Reader) (copy : Mtx) : Move m (.insideCopy op copy) m .returned

variable {ι : Type}

/-- Request threads and the results thread (`none`). -/
abbrev Thread (ι : Type) := Option ι

structure State (ι : Type) where
  mutex : Mtx
  pc : Thread ι → Pc

/-- No request is being served. -/
def start : State ι := ⟨.free, fun t => if t = none then .reading else .ready⟩

/-- The threads run in any order. A step is labelled with the thread and where it gets to. -/
def system (ι : Type) [DecidableEq ι] : Lts.System (State ι) (Thread ι × Pc) where
  init s := s = start
  step s l s' := Move s.mutex (s.pc l.1) s'.mutex l.2 ∧ s'.pc = Function.update s.pc l.1 l.2

/-! ## What the lock is for -/

/-- A thread waits at a mutex that is held. -/
def Blocked (s : State ι) (t : Thread ι) : Prop :=
  (∃ sec, s.pc t = .want sec ∧ s.mutex = .held) ∨ ∃ op, s.pc t = .wantCopy op .held

/-- A thread is in a section guarded by the manager's mutex, or by a copy of it. -/
def Writing (s : State ι) (t : Thread ι) : Prop := ∃ sec, s.pc t = .inside sec
def Reading (s : State ι) (t : Thread ι) : Prop := ∃ op copy, s.pc t = .insideCopy op copy

/-- Nobody waits for a mutex that nobody is behind, and readers exclude writers. -/
structure Sound (s : State ι) : Prop where
  live : ∀ t, Blocked s t → ∃ u, Writing s u ∨ Reading s u
  excludes : ∀ t u, Reading s t → ¬ Writing s u

/-! ## Steps that find every copy in agreement -/

/-- Copies are made while the mutex is free; a copy is locked while the manager's mutex is free,
and the manager's while no copy is held. -/
def CopiesAgree (s : State ι) (l : Thread ι × Pc) : Prop :=
  match l.2 with
  | .wantCopy _ copy => copy = .free
  | .insideCopy _ _ => s.mutex = .free
  | .inside _ => ∀ u op, s.pc u ≠ .insideCopy op .held
  | _ => True

/-- What agreement preserves. -/
structure Inv (s : State ι) : Prop where
  exclusive : Mutex.Exclusive (s.mutex = .held) (Writing s)
  copies : ∀ t op copy, s.pc t = .wantCopy op copy → copy = .free
  reading : ∀ t op copy, s.pc t = .insideCopy op copy → copy = .held
  excludes : ∀ t u, Reading s t → ¬ Writing s u

theorem Inv.sound {s : State ι} (h : Inv s) : Sound s := by
  refine ⟨fun t ht => ?_, h.excludes⟩
  rcases ht with ⟨sec, -, hheld⟩ | ⟨op, hcopy⟩
  · obtain ⟨u, hu⟩ := h.exclusive.held_iff.1 hheld
    exact ⟨u, Or.inl hu⟩
  · exact absurd (h.copies t op .held hcopy) (by decide)

theorem inv_start : Inv (start : State ι) := by
  have hpc : ∀ t : Thread ι,
      (start : State ι).pc t = .reading ∨ (start : State ι).pc t = .ready := by
    intro t
    by_cases ht : t = none
    · exact Or.inl (if_pos ht)
    · exact Or.inr (if_neg ht)
  have hnone : ∀ t : Thread ι, ¬ Writing (start : State ι) t := by
    intro t hw
    obtain ⟨sec, hsec⟩ := hw
    rcases hpc t with h | h <;> rw [hsec] at h <;> simp at h
  refine ⟨.of_none hnone (by simp [start]), ?_, ?_,
    fun t u _ => hnone u⟩
  · intro t op copy h
    rcases hpc t with h' | h' <;> rw [h] at h' <;> simp at h'
  · intro t op copy h
    rcases hpc t with h' | h' <;> rw [h] at h' <;> simp at h'

/-- What a step does to the manager's mutex: enter, leave, or neither. -/
theorem Move.cases {m m' : Mtx} {pc pc' : Pc} (h : Move m pc m' pc') :
    (∃ sec, m = .free ∧ pc = .want sec ∧ m' = .held ∧ pc' = .inside sec) ∨
      (∃ sec, pc = .inside sec ∧ m' = .free ∧ pc' = sec.next) ∨
      (m' = m ∧ (∀ sec, pc ≠ .inside sec) ∧ ∀ sec, pc' ≠ .inside sec) := by
  cases h with
  | lock sec => exact Or.inl ⟨sec, rfl, rfl, rfl, rfl⟩
  | unlock m sec => exact Or.inr (Or.inl ⟨sec, rfl, rfl, rfl⟩)
  | _ => exact Or.inr (Or.inr ⟨rfl, by simp, by simp⟩)

/-- Only the lock of a copy leads behind it, and it leaves the copy held. -/
theorem Move.insideCopy {m m' : Mtx} {pc : Pc} {op : Reader} {copy : Mtx}
    (h : Move m pc m' (.insideCopy op copy)) : copy = .held := by
  generalize hpc' : Pc.insideCopy op copy = pc' at h
  cases h with
  | lockCopy m op => exact (Pc.insideCopy.inj hpc').2
  | unlock m sec => cases sec <;> simp [Section.next] at hpc'
  | _ => simp at hpc'

theorem Section.next_ne (sec sec' : Section) : sec.next ≠ .inside sec' := by
  cases sec <;> simp [Section.next]

variable [DecidableEq ι]

section Step

variable {s s' : State ι} {t : Thread ι} {pc' : Pc}

/-- What holds of where each thread stands, and of where the one that moves gets to. -/
theorem forall_pc {P : Pc → Prop} (hpc : s'.pc = Function.update s.pc t pc')
    (h : ∀ u, P (s.pc u)) (ht : P pc') (u : Thread ι) : P (s'.pc u) := by
  by_cases hu : u = t
  · rw [hpc, hu, Function.update_self]
    exact ht
  · rw [hpc, Function.update_of_ne hu]
    exact h u

/-- The manager's mutex keeps to the threads in its sections, whatever the copies say. -/
theorem Move.exclusive (hmove : Move s.mutex (s.pc t) s'.mutex pc')
    (hpc : s'.pc = Function.update s.pc t pc')
    (h : Mutex.Exclusive (s.mutex = .held) (Writing s)) :
    Mutex.Exclusive (s'.mutex = .held) (Writing s') := by
  have hself : s'.pc t = pc' := by rw [hpc, Function.update_self]
  have hother : ∀ u, u ≠ t → s'.pc u = s.pc u := fun u hu => by
    rw [hpc, Function.update_of_ne hu]
  rcases hmove.cases with ⟨sec, hm, hfrom, hm', rfl⟩ | ⟨sec, hfrom, hm', rfl⟩ | ⟨hm, hfrom, hto⟩
  · -- Into a guarded section.
    refine h.lock (t := t) (by simp [hm]) hm' ?_
    intro u
    by_cases hu : u = t
    · simp [Writing, hu, hself]
    · simp [Writing, hu, hother u hu]
  · -- Out of it.
    refine h.unlock (show Writing s t from ⟨sec, hfrom⟩) (by simp [hm']) ?_
    intro u
    by_cases hu : u = t
    · simp [Writing, hu, hself, sec.next_ne]
    · simp [Writing, hu, hother u hu]
  · refine h.congr (by rw [hm]) ?_
    intro u
    by_cases hu : u = t
    · simp [Writing, hu, hself, hfrom, hto]
    · simp [Writing, hother u hu]

/-- Agreement keeps readers and writers apart: nobody gets behind a copy while the manager's
mutex is held, nor into a section while a copy is. -/
theorem Inv.excludes_step (hi : Inv s) (hpc : s'.pc = Function.update s.pc t pc')
    (hok : CopiesAgree s (t, pc')) {u v : Thread ι} (hr : Reading s' u) : ¬ Writing s' v := by
  intro hw
  obtain ⟨op, copy, hr⟩ := hr
  obtain ⟨sec, hw⟩ := hw
  rw [hpc] at hr hw
  by_cases hu : u = t
  · rw [hu, Function.update_self] at hr
    subst hr
    by_cases hv : v = t
    · rw [hv, Function.update_self] at hw
      cases hw
    · rw [Function.update_of_ne hv] at hw
      have hheld := hi.exclusive.held_iff.2 ⟨v, sec, hw⟩
      rw [show s.mutex = .free from hok] at hheld
      cases hheld
  · rw [Function.update_of_ne hu] at hr
    by_cases hv : v = t
    · rw [hv, Function.update_self] at hw
      subst hw
      have hheld := hi.reading u op copy hr
      exact hok u op (hheld ▸ hr)
    · rw [Function.update_of_ne hv] at hw
      exact hi.excludes u v ⟨op, copy, hr⟩ ⟨sec, hw⟩

end Step

/-- **One step** that finds every copy in agreement. -/
theorem inv_step {s s' : State ι} {l : Thread ι × Pc} (hi : Inv s)
    (hstep : (system ι).step s l s') (hok : CopiesAgree s l) : Inv s' := by
  obtain ⟨t, pc'⟩ := l
  obtain ⟨hmove, hpc⟩ := hstep
  refine ⟨hmove.exclusive hpc hi.exclusive, ?_, ?_, fun u v hr => hi.excludes_step hpc hok hr⟩
  · refine forall_pc (P := fun pc => ∀ op copy, pc = .wantCopy op copy → copy = .free) hpc
      hi.copies ?_
    rintro op copy rfl
    exact hok
  · refine forall_pc (P := fun pc => ∀ op copy, pc = .insideCopy op copy → copy = .held) hpc
      hi.reading ?_
    rintro op copy rfl
    exact hmove.insideCopy

/-- The state with the threads of two requests moved. -/
def two (m : Mtx) (a b : Pc) : State Nat :=
  ⟨m, Function.update (Function.update start.pc (some 0) a) (some 1) b⟩

theorem two_pc (m : Mtx) (a b : Pc) (t : Thread Nat) :
    (two m a b).pc t = if t = some 1 then b else if t = some 0 then a else
      if t = none then .reading else .ready := by
  simp only [two, Function.update_apply, start]

theorem two_ready : two .free .ready .ready = start := by
  unfold two start
  congr 1
  funext t
  simp only [Function.update_apply]
  split_ifs <;> simp_all

/-- A step of the first or the second of the two. -/
theorem two_first {m m' : Mtx} {a a' b : Pc} (h : Move m a m' a') :
    (system Nat).step (two m a b) (some 0, a') (two m' a' b) := by
  refine ⟨h, funext ?_⟩
  intro t
  simp only [Function.update_apply, two_pc]
  split_ifs <;> simp_all

theorem two_second {m m' : Mtx} {a b b' : Pc} (h : Move m b m' b') :
    (system Nat).step (two m a b) (some 1, b') (two m' a b') := by
  refine ⟨h, funext ?_⟩
  intro t
  simp only [Function.update_apply, two_pc]
  split_ifs <;> simp_all

end DiskAnalyzer.Locks
