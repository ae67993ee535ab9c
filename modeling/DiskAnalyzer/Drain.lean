import DiskAnalyzer.Lib.Tally
import DiskAnalyzer.RequestsProof

/-!
# The wait for the request threads

`Tight`: whoever is in a section of `counter_mutex` holds it, so nothing comes between a read of the
counter and the write, and nothing is lost. The drain loop keeps this only if it is not entered: its
second turn unlocks a mutex that the manager does not hold.

What is left then is `Loose`: the counter, and what has been read of it, are at least the number of
threads that have not counted themselves out. So a decrement may be lost, and the loop waits for
ever; but it never ends too early (`out_of_exited`).
-/

namespace DiskAnalyzer.Requests

open Lts

variable {κ : Type}

/-! ## `counter_mutex` -/

/-- The manager is between a lock and the unlock that belongs to it. -/
def ManagerPc.inCounter : ManagerPc → Bool
  | incr .lock => false
  | incr _ | drainCheck | drainUnlock | drainLast => true
  | _ => false

def ThreadPc.inCounter : ThreadPc → Bool
  | decr .lock => false
  | decr _ => true
  | _ => false

/-- The drain loop has been reached. -/
def ManagerPc.draining : ManagerPc → Bool
  | drainCheck | drainUnlock | drainLast | killing | exited => true
  | _ => false

/-- The drain loop has been left. -/
def ManagerPc.drained : ManagerPc → Bool
  | drainLast | killing | exited => true
  | _ => false

/-- The thread has counted itself out. -/
def ThreadPc.out : ThreadPc → Bool
  | decr .unlock | finished => true
  | _ => false

/-- The increment of the thread to be created has been written. -/
def ManagerPc.ahead : ManagerPc → Bool
  | incr .unlock | creating => true
  | _ => false

def State.inCounter (s : State κ) : Party → Prop
  | .manager => s.manager.inCounter = true
  | .thread k => (s.thread k).pc.inCounter = true

/-- Sections of `counter_mutex` exclude each other, and nothing is lost. -/
structure Tight (s : State κ) : Prop where
  holder : ∀ p, s.counterMutex = some p ↔ s.inCounter p
  readManager : ∀ cnt, s.manager = .incr (.write cnt) → cnt = s.cntThreads
  readThread : ∀ k cnt, (s.thread k).pc = .decr (.write cnt) → cnt = s.cntThreads
  exact : s.cntThreads = s.incrs - s.decrs

/-- Behind the first unlock of the drain loop: the counter is not below the threads that count. -/
structure Loose (s : State κ) : Prop where
  draining : s.manager.draining = true
  counter : (s.incrs : Int) - s.decrs ≤ s.cntThreads
  read : ∀ k cnt, (s.thread k).pc = .decr (.write cnt) → (s.incrs : Int) - s.decrs ≤ cnt

/-- The threads behind the two totals. -/
structure Accounts (s : State κ) : Prop where
  incrs : s.incrs = s.created + if s.manager.ahead then 1 else 0
  out : Tally s.decrs fun k => (s.thread k).pc.out = true
  created : ∀ k, (s.thread k).pc.out = true → k < s.created
  drained : s.manager.drained = true → s.incrs ≤ s.decrs

/-- The drain loop is not entered: its first check finds 0. -/
def FindsZero (s : State κ) (e : Event κ) : Prop :=
  e = .manager → s.manager = .drainCheck → s.cntThreads = 0

instance [DecidableEq κ] (s : State κ) (e : Event κ) : Decidable (FindsZero s e) :=
  inferInstanceAs (Decidable (_ → _ → _))

theorem tight_start : Tight (start : State κ) where
  holder p := by cases p <;> simp [start, State.inCounter, ManagerPc.inCounter, ThreadPc.inCounter]
  readManager cnt h := absurd h (by simp [start])
  readThread k cnt h := absurd h (by simp [start])
  exact := rfl

theorem accounts_start : Accounts (start : State κ) where
  incrs := rfl
  out := .zero fun k => by simp [start, ThreadPc.out]
  created k h := absurd h (by simp [start, ThreadPc.out])
  drained h := absurd h (by simp [start, ManagerPc.drained])

/-! ## One step -/

section Steps

variable {s s' u : State κ} {e : Event κ} {k : Nat}

/-- Neither the counter nor a section of `counter_mutex` is touched. -/
structure SameCounter (s s' : State κ) : Prop where
  counterMutex : s'.counterMutex = s.counterMutex
  cntThreads : s'.cntThreads = s.cntThreads
  incrs : s'.incrs = s.incrs
  decrs : s'.decrs = s.decrs
  inCounter : ∀ p, s'.inCounter p ↔ s.inCounter p
  readManager : ∀ cnt, s'.manager = .incr (.write cnt) → s.manager = .incr (.write cnt)
  readThread : ∀ k cnt, (s'.thread k).pc = .decr (.write cnt) → (s.thread k).pc = .decr (.write cnt)

theorem Tight.same (hs : Tight s) (h : SameCounter s s') : Tight s' := by
  refine ⟨?_, ?_, ?_, ?_⟩
  · intro p
    rw [h.counterMutex, h.inCounter, hs.holder]
  · intro cnt hm
    rw [h.cntThreads, hs.readManager cnt (h.readManager cnt hm)]
  · intro k cnt hk
    rw [h.cntThreads, hs.readThread k cnt (h.readThread k cnt hk)]
  · rw [h.cntThreads, h.incrs, h.decrs, hs.exact]

/-- The manager goes on outside the sections. -/
theorem Tight.manager (hs : Tight s)
    (hrest : s'.counterMutex = s.counterMutex ∧ s'.cntThreads = s.cntThreads ∧
      s'.incrs = s.incrs ∧ s'.decrs = s.decrs ∧ s'.thread = s.thread)
    (hin : s'.manager.inCounter = s.manager.inCounter)
    (hread : ∀ cnt, s'.manager ≠ .incr (.write cnt)) : Tight s' := by
  obtain ⟨hmutex, hcnt, hincrs, hdecrs, hthread⟩ := hrest
  refine hs.same ⟨hmutex, hcnt, hincrs, hdecrs, ?_, fun cnt hm => absurd hm (hread cnt), ?_⟩
  · intro p
    cases p with
    | manager => simp only [State.inCounter, hin]
    | thread k => simp only [State.inCounter, hthread]
  · intro k cnt hk
    rwa [hthread] at hk

/-- A thread goes on outside the sections. -/
theorem Tight.thread (hs : Tight s) {t : Thread κ}
    (hrest : u.counterMutex = s.counterMutex ∧ u.cntThreads = s.cntThreads ∧
      u.incrs = s.incrs ∧ u.decrs = s.decrs ∧ u.manager = s.manager ∧ u.thread = s.thread)
    (hin : (s.thread k).pc.inCounter = false) (hin' : t.pc.inCounter = false) :
    Tight (u.setThread k t) := by
  obtain ⟨hmutex, hcnt, hincrs, hdecrs, hmanager, hthread⟩ := hrest
  have hpc : ∀ j, ((u.setThread k t).thread j).pc = if j = k then t.pc else (s.thread j).pc := by
    intro j
    rw [thread_setThread, hthread]
    split_ifs <;> rfl
  refine hs.same ⟨hmutex, hcnt, hincrs, hdecrs, ?_, ?_, ?_⟩
  · intro p
    cases p with
    | manager => simp only [State.inCounter, State.setThread, hmanager]
    | thread j =>
      simp only [State.inCounter, hpc]
      split_ifs with hj
      · simp [hj, hin, hin']
      · exact Iff.rfl
  · intro cnt hm
    simpa [State.setThread, hmanager] using hm
  · intro j cnt hj
    rw [hpc] at hj
    split_ifs at hj
    · rw [hj] at hin'
      exact absurd hin' (by simp [ThreadPc.inCounter])
    · exact hj

/-- The manager locks. -/
theorem Tight.lockManager (hs : Tight s) {pc : ManagerPc} (hfree : s.counterMutex = none)
    (hin : pc.inCounter = true) (hread : ∀ cnt, pc ≠ .incr (.write cnt)) :
    Tight { s with counterMutex := some .manager, manager := pc } := by
  have hnone : ∀ p, ¬ s.inCounter p := by
    intro p hp
    have hheld := (hs.holder p).2 hp
    rw [hfree] at hheld
    exact absurd hheld (by simp)
  refine ⟨?_, fun cnt hm => absurd hm (hread cnt), hs.readThread, hs.exact⟩
  intro p
  cases p with
  | manager => simp [State.inCounter, hin]
  | thread k =>
    have hk := hnone (.thread k)
    simpa [State.inCounter] using hk

/-- The manager unlocks what it has locked. -/
theorem Tight.unlockManager (hs : Tight s) {pc : ManagerPc} (hin : s.manager.inCounter = true)
    (hin' : pc.inCounter = false) : Tight { s with counterMutex := none, manager := pc } := by
  have hheld : s.counterMutex = some .manager := (hs.holder .manager).2 hin
  refine ⟨?_, ?_, hs.readThread, hs.exact⟩
  · intro p
    cases p with
    | manager => simp [State.inCounter, hin']
    | thread k =>
      have hk := (hs.holder (.thread k)).not.1 (by simp [hheld])
      simpa [State.inCounter] using hk
  · intro cnt hm
    have hpc : pc = .incr (.write cnt) := hm
    rw [hpc] at hin'
    exact absurd hin' (by simp [ManagerPc.inCounter])

/-- Whoever holds the mutex is alone. -/
theorem Tight.alone (hs : Tight s) {p q : Party} (hp : s.inCounter p) (hq : s.inCounter q) :
    p = q := by
  have hheld := (hs.holder p).2 hp
  have hheld' := (hs.holder q).2 hq
  exact Option.some.inj (hheld.symm.trans hheld')

theorem inCounter_of_write {k : Nat} {cnt : Int} (hk : (s.thread k).pc = .decr (.write cnt)) :
    s.inCounter (.thread k) := by
  simp [State.inCounter, hk, ThreadPc.inCounter]

theorem Tight.decrLock (hs : Tight s) (hfree : s.counterMutex = none) :
    Tight ({ s with counterMutex := some (.thread k) }.setPc k (.decr .read)) := by
  have hnone : ∀ p, ¬ s.inCounter p := by
    intro p hp
    have hheld := (hs.holder p).2 hp
    rw [hfree] at hheld
    exact absurd hheld (by simp)
  refine ⟨?_, hs.readManager, ?_, hs.exact⟩
  · intro p
    show some (Party.thread k) = some p ↔ _
    cases p with
    | manager =>
      have hm := hnone .manager
      simpa [State.inCounter, State.setPc, State.setThread] using hm
    | thread j =>
      have hj := hnone (.thread j)
      simp only [State.inCounter, pc_setPc] at hj ⊢
      split_ifs with heq
      · simp [heq, ThreadPc.inCounter]
      · simp [hj, Ne.symm heq]
  · intro j cnt hj
    rw [pc_setPc] at hj
    split_ifs at hj with heq
    · exact absurd hj (by simp)
    · exact hs.readThread j cnt hj

theorem Tight.decrRead (hs : Tight s) (hk : (s.thread k).pc = .decr .read) :
    Tight (s.setPc k (.decr (.write s.cntThreads))) := by
  refine ⟨?_, hs.readManager, ?_, hs.exact⟩
  · intro p
    refine (hs.holder p).trans ?_
    cases p with
    | manager => exact Iff.rfl
    | thread j =>
      simp only [State.inCounter, pc_setPc]
      split_ifs with heq
      · simp [heq, hk, ThreadPc.inCounter]
      · exact Iff.rfl
  · intro j cnt hj
    rw [pc_setPc] at hj
    split_ifs at hj with heq
    · obtain rfl : s.cntThreads = cnt := by simpa using hj
      rfl
    · exact hs.readThread j cnt hj

theorem Tight.decrWrite (hs : Tight s) {cnt : Int} (hk : (s.thread k).pc = .decr (.write cnt)) :
    Tight ({ s with cntThreads := cnt - 1, decrs := s.decrs + 1 }.setPc k (.decr .unlock)) := by
  have hin := inCounter_of_write hk
  have hcnt := hs.readThread k cnt hk
  refine ⟨?_, ?_, ?_, ?_⟩
  · intro p
    refine (hs.holder p).trans ?_
    cases p with
    | manager => exact Iff.rfl
    | thread j =>
      simp only [State.inCounter, pc_setPc]
      split_ifs with heq
      · simp [heq, hk, ThreadPc.inCounter]
      · exact Iff.rfl
  · intro c hm
    have hmanager : s.inCounter .manager := by
      show s.manager.inCounter = true
      rw [show s.manager = .incr (.write c) from hm]
      rfl
    exact absurd (hs.alone hin hmanager) (by simp)
  · intro j c hj
    rw [pc_setPc] at hj
    split_ifs at hj with heq
    · exact absurd hj (by simp)
    · have hother := hs.alone hin (inCounter_of_write (s := s) hj)
      exact absurd (Party.thread.inj hother).symm heq
  · show cnt - 1 = (s.incrs : Int) - ((s.decrs + 1 : Nat) : Int)
    have hexact := hs.exact
    omega

theorem Tight.decrUnlock (hs : Tight s) (hk : (s.thread k).pc = .decr .unlock) :
    Tight ({ s with counterMutex := none }.setPc k .finished) := by
  have hin : s.inCounter (.thread k) := by simp [State.inCounter, hk, ThreadPc.inCounter]
  refine ⟨?_, hs.readManager, ?_, hs.exact⟩
  · intro p
    have hp : s.inCounter p → p = .thread k := fun hp => hs.alone hp hin
    cases p with
    | manager =>
      simp only [State.inCounter] at hp
      simpa [State.inCounter, State.setPc, State.setThread] using hp
    | thread j =>
      simp only [State.inCounter, pc_setPc] at hp ⊢
      split_ifs with heq
      · simp [State.setPc, State.setThread, ThreadPc.inCounter]
      · simpa [State.setPc, State.setThread, heq] using hp
  · intro j cnt hj
    rw [pc_setPc] at hj
    split_ifs at hj
    exact hs.readThread j cnt hj

theorem Tight.incrRead (hs : Tight s) (hm : s.manager = .incr .read) :
    Tight { s with manager := .incr (.write s.cntThreads) } := by
  refine ⟨?_, ?_, hs.readThread, hs.exact⟩
  · intro p
    refine (hs.holder p).trans ?_
    cases p with
    | manager => simp [State.inCounter, hm, ManagerPc.inCounter]
    | thread j => exact Iff.rfl
  · intro cnt hread
    obtain rfl : s.cntThreads = cnt := by simpa using hread
    rfl

theorem Tight.incrWrite (hs : Tight s) {cnt : Int} (hm : s.manager = .incr (.write cnt)) :
    Tight { s with cntThreads := cnt + 1, incrs := s.incrs + 1, manager := .incr .unlock } := by
  have hin : s.inCounter .manager := by simp [State.inCounter, hm, ManagerPc.inCounter]
  have hcnt := hs.readManager cnt hm
  refine ⟨?_, fun c h => absurd h (by simp), ?_, ?_⟩
  · intro p
    refine (hs.holder p).trans ?_
    cases p with
    | manager => simp [State.inCounter, hm, ManagerPc.inCounter]
    | thread j => exact Iff.rfl
  · intro j c hj
    have hother := hs.alone hin (inCounter_of_write (s := s) hj)
    exact absurd hother (by simp)
  · show cnt + 1 = ((s.incrs + 1 : Nat) : Int) - (s.decrs : Int)
    have hexact := hs.exact
    omega

theorem Tight.create (hs : Tight s) (hh : Handed s) (hm : s.manager = .creating) :
    Tight { s.setThread s.created ⟨.start, none⟩ with
      created := s.created + 1, manager := .checking } := by
  have hchecking : Tight { s with created := s.created + 1, manager := .checking } :=
    hs.manager ⟨rfl, rfl, rfl, rfl, rfl⟩ (by simp [hm, ManagerPc.inCounter]) (by simp)
  have habsent : (s.thread s.created).pc = .absent := (hh.absent _).2 (le_refl _)
  exact hchecking.thread ⟨rfl, rfl, rfl, rfl, rfl, rfl⟩ (by simp [habsent, ThreadPc.inCounter])
    (by simp [ThreadPc.inCounter])

/-- **One step that does not enter the drain loop.** -/
theorem Move.tight (h : Move s e s') (hs : Tight s) (hh : Handed s) (hok : FindsZero s e)
    (hout : s.manager ≠ .drainUnlock) : Tight s' := by
  have hrest : s.counterMutex = s.counterMutex ∧ s.cntThreads = s.cntThreads ∧
      s.incrs = s.incrs ∧ s.decrs = s.decrs ∧ s.thread = s.thread := ⟨rfl, rfl, rfl, rfl, rfl⟩
  have hrest' : s.counterMutex = s.counterMutex ∧ s.cntThreads = s.cntThreads ∧
      s.incrs = s.incrs ∧ s.decrs = s.decrs ∧ s.manager = s.manager ∧ s.thread = s.thread :=
    ⟨rfl, rfl, rfl, rfl, rfl, rfl⟩
  cases h with
  | done =>
    exact hs.same ⟨rfl, rfl, rfl, rfl, fun p => by cases p <;> exact Iff.rfl, fun _ h => h,
      fun _ _ h => h⟩
  | createFails => exact hs
  | check pc hm hpc =>
    rcases hpc with rfl | rfl
    · exact hs.manager hrest (by simp [hm, ManagerPc.inCounter]) (by simp)
    · exact hs.manager hrest (by simp [hm, ManagerPc.inCounter]) (by simp)
  | unlockSocket again pc hm hpc =>
    rcases hpc with rfl | rfl
    · exact hs.manager hrest (by simp [hm, ManagerPc.inCounter]) (by simp)
    · exact hs.manager hrest (by simp [hm, ManagerPc.inCounter]) (by simp)
  | lockSocket hm | accept c hm | refuse e again hm | spin hm | drainEnd hm | kill hm =>
    exact hs.manager hrest (by simp [hm, ManagerPc.inCounter]) (by simp)
  | drainMore hm hne => exact absurd (hok rfl hm) hne
  | create hm => exact hs.create hh hm
  | incrLock hm hfree => exact hs.lockManager hfree rfl (by simp)
  | drainLock hm hfree => exact hs.lockManager hfree rfl (by simp)
  | incrUnlock hm => exact hs.unlockManager (by simp [hm, ManagerPc.inCounter]) rfl
  | drainLast hm => exact hs.unlockManager (by simp [hm, ManagerPc.inCounter]) rfl
  | incrRead hm => exact hs.incrRead hm
  | incrWrite cnt hm => exact hs.incrWrite hm
  | copy k hk =>
    exact hs.thread hrest' (by simp [hk, ThreadPc.inCounter]) (by simp [ThreadPc.inCounter])
  | release k hk =>
    exact hs.thread (u := { s with socketMutex := false }) hrest'
      (by simp [hk, ThreadPc.inCounter]) (by simp [ThreadPc.inCounter])
  | serve k hk =>
    exact hs.thread hrest' (by simp [hk, ThreadPc.inCounter]) (by simp [ThreadPc.inCounter])
  | decrLock k hk hfree => exact hs.decrLock hfree
  | decrRead k hk => exact hs.decrRead hk
  | decrWrite k cnt hk => exact hs.decrWrite hk
  | decrUnlock k hk => exact hs.decrUnlock hk
  | drainUnlock hm => exact absurd hm hout

/-- The loop is entered only when it finds something. -/
theorem Move.outside (h : Move s e s') (hok : FindsZero s e) (hout : s.manager ≠ .drainUnlock) :
    s'.manager ≠ .drainUnlock := by
  cases h with
  | drainMore hm hne => exact absurd (hok rfl hm) hne
  | check pc hm hpc => rcases hpc with rfl | rfl <;> simp
  | unlockSocket again pc hm hpc => rcases hpc with rfl | rfl <;> simp
  | done | createFails | copy k hk | release k hk | serve k hk | decrLock k hk | decrRead k hk
  | decrWrite k cnt hk | decrUnlock k hk => exact hout
  | _ => simp

/-- What is never above the counter, nor above what has been read of it. -/
theorem Tight.loose (hs : Tight s) (hdrain : s'.manager.draining = true)
    (hrest : s'.cntThreads = s.cntThreads ∧ s'.incrs = s.incrs ∧ s'.decrs = s.decrs ∧
      s'.thread = s.thread) : Loose s' := by
  obtain ⟨hcnt, hincrs, hdecrs, hthread⟩ := hrest
  have hexact := hs.exact
  refine ⟨hdrain, ?_, ?_⟩
  · rw [hcnt, hincrs, hdecrs, hexact]
  · intro k cnt hk
    rw [hthread] at hk
    rw [hincrs, hdecrs, ← hexact, hs.readThread k cnt hk]

/-- The manager goes on in the drain loop. -/
theorem Loose.manager (hs : Loose s) (hdrain : s'.manager.draining = true)
    (hrest : s'.cntThreads = s.cntThreads ∧ s'.incrs = s.incrs ∧ s'.decrs = s.decrs ∧
      s'.thread = s.thread) : Loose s' := by
  obtain ⟨hcnt, hincrs, hdecrs, hthread⟩ := hrest
  refine ⟨hdrain, ?_, ?_⟩
  · rw [hcnt, hincrs, hdecrs]
    exact hs.counter
  · intro k cnt hk
    rw [hthread] at hk
    rw [hincrs, hdecrs]
    exact hs.read k cnt hk

/-- A thread goes on, and does not read the counter. -/
theorem Loose.thread (hs : Loose s) {t : Thread κ}
    (hrest : u.manager = s.manager ∧ u.cntThreads = s.cntThreads ∧ u.incrs = s.incrs ∧
      u.decrs = s.decrs ∧ u.thread = s.thread)
    (ht : ∀ cnt, t.pc = .decr (.write cnt) → (s.incrs : Int) - s.decrs ≤ cnt) :
    Loose (u.setThread k t) := by
  obtain ⟨hmanager, hcnt, hincrs, hdecrs, hthread⟩ := hrest
  refine ⟨?_, ?_, ?_⟩
  · show u.manager.draining = true
    rw [hmanager]
    exact hs.draining
  · show (u.incrs : Int) - u.decrs ≤ u.cntThreads
    rw [hcnt, hincrs, hdecrs]
    exact hs.counter
  · intro j cnt hj
    show (u.incrs : Int) - u.decrs ≤ cnt
    rw [hincrs, hdecrs]
    rw [thread_setThread, hthread] at hj
    split_ifs at hj
    · exact ht cnt hj
    · exact hs.read j cnt hj

theorem Loose.decrWrite (hs : Loose s) {cnt : Int} (hk : (s.thread k).pc = .decr (.write cnt)) :
    Loose ({ s with cntThreads := cnt - 1, decrs := s.decrs + 1 }.setPc k (.decr .unlock)) := by
  have hle := hs.read k cnt hk
  refine ⟨hs.draining, ?_, ?_⟩
  · show (s.incrs : Int) - ((s.decrs + 1 : Nat) : Int) ≤ cnt - 1
    omega
  · intro j c hj
    rw [pc_setPc] at hj
    split_ifs at hj with heq
    · exact absurd hj (by simp)
    have hother := hs.read j c hj
    show (s.incrs : Int) - ((s.decrs + 1 : Nat) : Int) ≤ c
    omega

/-- **One step in the drain loop.** -/
theorem Move.loose (h : Move s e s') (hs : Loose s) : Loose s' := by
  have hdrain := hs.draining
  cases h with
  | done => exact hs.manager hdrain ⟨rfl, rfl, rfl, rfl⟩
  | createFails => exact hs
  | drainMore | drainEnd | drainUnlock | drainLast | kill =>
    exact hs.manager rfl ⟨rfl, rfl, rfl, rfl⟩
  | check pc hm | lockSocket hm | accept c hm | refuse e again hm | unlockSocket again pc hm
  | incrLock hm | incrRead hm | incrWrite cnt hm | incrUnlock hm | create hm | spin hm
  | drainLock hm => exact absurd hdrain (by simp [hm, ManagerPc.draining])
  | copy k hk => exact hs.thread ⟨rfl, rfl, rfl, rfl, rfl⟩ (by simp)
  | release k hk =>
    exact hs.thread (u := { s with socketMutex := false }) ⟨rfl, rfl, rfl, rfl, rfl⟩ (by simp)
  | serve k hk => exact hs.thread ⟨rfl, rfl, rfl, rfl, rfl⟩ (by simp)
  | decrLock k hk =>
    exact hs.thread (u := { s with counterMutex := some (.thread k) }) ⟨rfl, rfl, rfl, rfl, rfl⟩
      (by simp)
  | decrRead k hk =>
    refine hs.thread ⟨rfl, rfl, rfl, rfl, rfl⟩ ?_
    intro cnt hcnt
    obtain rfl : s.cntThreads = cnt := by simpa using hcnt
    exact hs.counter
  | decrWrite k cnt hk => exact hs.decrWrite hk
  | decrUnlock k hk =>
    exact hs.thread (u := { s with counterMutex := none }) ⟨rfl, rfl, rfl, rfl, rfl⟩ (by simp)

/-- What holds in every run. -/
def Kept (s : State κ) : Prop := (Tight s ∧ s.manager ≠ .drainUnlock) ∨ Loose s

theorem Kept.counter (hs : Kept s) : (s.incrs : Int) - s.decrs ≤ s.cntThreads := by
  rcases hs with ⟨htight, -⟩ | hloose
  · rw [htight.exact]
  · exact hloose.counter

theorem Move.kept (h : Move s e s') (hs : Kept s) (hh : Handed s) : Kept s' := by
  rcases hs with ⟨htight, hout⟩ | hloose
  · by_cases hok : FindsZero s e
    · exact Or.inl ⟨h.tight htight hh hok hout, h.outside hok hout⟩
    · -- The loop is entered.
      right
      simp only [FindsZero, Classical.not_imp] at hok
      obtain ⟨rfl, hm, hne⟩ := hok
      cases h with
      | drainMore => exact htight.loose rfl ⟨rfl, rfl, rfl, rfl⟩
      | drainEnd hm' hzero => exact absurd hzero hne
      | check pc hm' | lockSocket hm' | refuse e again hm' | unlockSocket again pc hm'
      | incrLock hm' | incrRead hm' | incrWrite cnt hm' | incrUnlock hm' | create hm' | spin hm'
      | drainLock hm' | drainUnlock hm' | drainLast hm' | kill hm' =>
        exact absurd (hm.symm.trans hm') (by simp)
  · exact Or.inr (h.loose hloose)

/-- The manager goes on. -/
theorem Accounts.manager (hs : Accounts s)
    (hrest : s'.created = s.created ∧ s'.incrs = s.incrs ∧ s'.decrs = s.decrs ∧
      s'.thread = s.thread) (hahead : s'.manager.ahead = s.manager.ahead)
    (hdrained : s'.manager.drained = true → s.incrs ≤ s.decrs) : Accounts s' := by
  obtain ⟨hcreated, hincrs, hdecrs, hthread⟩ := hrest
  refine ⟨?_, ?_, ?_, ?_⟩
  · rw [hincrs, hcreated, hahead]
    exact hs.incrs
  · rw [hdecrs, hthread]
    exact hs.out
  · rw [hthread, hcreated]
    exact hs.created
  · rw [hincrs, hdecrs]
    exact hdrained

/-- A thread goes on, and has counted itself out or not as before. -/
theorem Accounts.thread (hs : Accounts s) {t : Thread κ}
    (hrest : u.created = s.created ∧ u.incrs = s.incrs ∧ u.decrs = s.decrs ∧
      u.manager = s.manager ∧ u.thread = s.thread)
    (hout : t.pc.out = (s.thread k).pc.out) : Accounts (u.setThread k t) := by
  obtain ⟨hcreated, hincrs, hdecrs, hmanager, hthread⟩ := hrest
  have hsame : ∀ j, ((u.setThread k t).thread j).pc.out = (s.thread j).pc.out := by
    intro j
    rw [thread_setThread, hthread]
    split_ifs with hj
    · rw [hj, hout]
    · rfl
  refine ⟨?_, ?_, ?_, ?_⟩
  · show u.incrs = u.created + if u.manager.ahead then 1 else 0
    rw [hincrs, hcreated, hmanager]
    exact hs.incrs
  · show Tally u.decrs _
    rw [hdecrs]
    exact hs.out.congr fun j => by rw [hsame]
  · intro j hj
    show j < u.created
    rw [hcreated]
    exact hs.created j (hsame j ▸ hj)
  · show u.manager.drained = true → u.incrs ≤ u.decrs
    rw [hmanager, hincrs, hdecrs]
    exact hs.drained

theorem Accounts.create (hs : Accounts s) (hh : Handed s) (hm : s.manager = .creating) :
    Accounts { s.setThread s.created ⟨.start, none⟩ with
      created := s.created + 1, manager := .checking } := by
  have habsent : (s.thread s.created).pc = .absent := (hh.absent _).2 (le_refl _)
  have hincrs : s.incrs = s.created + 1 := by simpa [hm, ManagerPc.ahead] using hs.incrs
  have hsame : ∀ j, ((s.setThread s.created ⟨.start, none⟩).thread j).pc.out =
      (s.thread j).pc.out := by
    intro j
    rw [thread_setThread]
    split_ifs with hj
    · simp [hj, habsent, ThreadPc.out]
    · rfl
  refine ⟨?_, ?_, ?_, fun h => absurd h (by simp [ManagerPc.drained])⟩
  · simpa [ManagerPc.ahead, State.setThread] using hincrs
  · exact hs.out.congr fun j => by rw [← hsame]
  · intro j hj
    have hlt := hs.created j (hsame j ▸ hj)
    show j < s.created + 1
    omega

theorem Accounts.decrWrite (hs : Accounts s) (hh : Handed s) {cnt : Int}
    (hk : (s.thread k).pc = .decr (.write cnt)) : Accounts
      ({ s with cntThreads := cnt - 1, decrs := s.decrs + 1 }.setPc k (.decr .unlock)) := by
  refine ⟨hs.incrs, ?_, ?_, ?_⟩
  · refine hs.out.enter (a := k) ?_ (by simp [hk, ThreadPc.out]) (by simp [pc_setPc, ThreadPc.out])
      ?_
    · show ((s.decrs + 1 : Nat) : Int) = s.decrs + 1
      omega
    · intro j hj
      rw [pc_setPc, if_neg hj]
  · intro j hj
    rw [pc_setPc] at hj
    split_ifs at hj with heq
    · rw [heq]
      exact hh.lt_created (by simp [hk, ThreadPc.before])
    · exact hs.created j hj
  · intro hdrained
    have hle := hs.drained hdrained
    show s.incrs ≤ s.decrs + 1
    omega

theorem Move.accounts (h : Move s e s') (hs : Accounts s) (hh : Handed s) (hk : Kept s) :
    Accounts s' := by
  have hrest : s.created = s.created ∧ s.incrs = s.incrs ∧ s.decrs = s.decrs ∧
      s.thread = s.thread := ⟨rfl, rfl, rfl, rfl⟩
  have hrest' : s.created = s.created ∧ s.incrs = s.incrs ∧ s.decrs = s.decrs ∧
      s.manager = s.manager ∧ s.thread = s.thread := ⟨rfl, rfl, rfl, rfl, rfl⟩
  cases h with
  | done => exact hs.manager hrest rfl hs.drained
  | createFails => exact hs
  | check pc hm hpc =>
    rcases hpc with rfl | rfl
    · exact hs.manager hrest (by simp [hm, ManagerPc.ahead]) (by simp [ManagerPc.drained])
    · exact hs.manager hrest (by simp [hm, ManagerPc.ahead]) (by simp [ManagerPc.drained])
  | unlockSocket again pc hm hpc =>
    rcases hpc with rfl | rfl
    · exact hs.manager hrest (by simp [hm, ManagerPc.ahead]) (by simp [ManagerPc.drained])
    · exact hs.manager hrest (by simp [hm, ManagerPc.ahead]) (by simp [ManagerPc.drained])
  | lockSocket hm | accept c hm | refuse e again hm | spin hm | incrLock hm | incrRead hm
  | incrUnlock hm | drainLock hm | drainMore hm | drainUnlock hm =>
    exact hs.manager hrest (by simp [hm, ManagerPc.ahead]) (by simp [ManagerPc.drained])
  | drainLast hm | kill hm =>
    exact hs.manager hrest (by simp [hm, ManagerPc.ahead])
      fun _ => hs.drained (by simp [hm, ManagerPc.drained])
  | drainEnd hm hzero =>
    refine hs.manager hrest (by simp [hm, ManagerPc.ahead]) fun _ => ?_
    have hle := hk.counter
    omega
  | incrWrite cnt hm =>
    have hincrs : s.incrs = s.created := by simpa [hm, ManagerPc.ahead] using hs.incrs
    refine ⟨?_, hs.out, hs.created, fun h => absurd h (by simp [ManagerPc.drained])⟩
    simpa [ManagerPc.ahead] using hincrs
  | create hm => exact hs.create hh hm
  | copy k hk => exact hs.thread hrest' (by simp [hk, ThreadPc.out])
  | release k hk =>
    exact hs.thread (u := { s with socketMutex := false }) hrest' (by simp [hk, ThreadPc.out])
  | serve k hk => exact hs.thread hrest' (by simp [hk, ThreadPc.out])
  | decrLock k hk =>
    exact hs.thread (u := { s with counterMutex := some (.thread k) }) hrest'
      (by simp [hk, ThreadPc.out])
  | decrRead k hk => exact hs.thread hrest' (by simp [hk, ThreadPc.out])
  | decrWrite k cnt hk => exact hs.decrWrite hh hk
  | decrUnlock k hk =>
    exact hs.thread (u := { s with counterMutex := none }) hrest' (by simp [hk, ThreadPc.out])

end Steps

/-! ## Runs -/

/-- Whose unlock of `counter_mutex` a step is. -/
def unlocks (s : State κ) : Event κ → Option Party
  | .manager =>
    if s.manager = .incr .unlock ∨ s.manager = .drainUnlock ∨ s.manager = .drainLast then
      some .manager
    else none
  | .thread k => if (s.thread k).pc = .decr .unlock then some (.thread k) else none
  | _ => none

/-- No one has read the counter and not written it. -/
def State.Settled (s : State κ) : Prop :=
  (∀ cnt, s.manager ≠ .incr (.write cnt)) ∧ ∀ k cnt, (s.thread k).pc ≠ .decr (.write cnt)

section Runs

variable [DecidableEq κ] {s s' t : State κ}

theorem kept_of_reachable (h : system.Reachable s) : Kept s ∧ Accounts s := by
  have hall : Handed s ∧ Kept s ∧ Accounts s := by
    refine h.invariant (I := fun s => Handed s ∧ Kept s ∧ Accounts s) ?_ ?_
    · intro s₀ h₀
      rw [show s₀ = start from h₀]
      exact ⟨handed_start, Or.inl ⟨tight_start, by simp [start]⟩, accounts_start⟩
    · intro s e s' hs hstep
      obtain ⟨hh, hk, ha⟩ := hs
      have hmove := move_of_step hstep
      exact ⟨hmove.handed hh, hmove.kept hk hh, hmove.accounts ha hh hk⟩
  exact hall.2

/-- **The drain loop never ends too early**: in every run, entered or not, it is left only when all
threads have counted themselves out. -/
theorem out_of_drained (h : system.Reachable s) (hm : s.manager.drained = true) :
    ∀ k < s.created, (s.thread k).pc.out = true := by
  obtain ⟨-, ha⟩ := kept_of_reachable h
  have hle := ha.drained hm
  have hincrs := ha.incrs
  intro k hk
  by_contra hnot
  -- The threads that are out are some of those created, and not `k`.
  have hsub :
      {j | (s.thread j).pc.out = true} ⊆ ((Finset.range s.created).erase k : Finset Nat) := by
    intro j hj
    have hlt := ha.created j hj
    have hne : j ≠ k := by
      rintro rfl
      exact hnot hj
    simp [hne, hlt]
  have hcard := Set.ncard_le_ncard hsub (Finset.finite_toSet _)
  rw [Set.ncard_coe_finset, Finset.card_erase_of_mem (Finset.mem_range.2 hk),
    Finset.card_range] at hcard
  have htally := ha.out.eq_ncard
  omega

theorem tight_of_reachable (h : (system.guard FindsZero).Reachable s) :
    Tight s ∧ s.manager ≠ .drainUnlock ∧ Handed s := by
  refine h.invariant (I := fun s => Tight s ∧ s.manager ≠ .drainUnlock ∧ Handed s) ?_ ?_
  · intro s₀ h₀
    rw [show s₀ = start from h₀]
    exact ⟨tight_start, by simp [start], handed_start⟩
  · intro s e s' hs hstep
    obtain ⟨ht, hout, hh⟩ := hs
    have hmove := move_of_step hstep.1
    exact ⟨hmove.tight ht hh hstep.2 hout, hmove.outside hstep.2 hout, hmove.handed hh⟩

/-- A run that meets a condition is a run. -/
theorem reachable_of_guard {ok : State κ → Event κ → Prop} (h : (system.guard ok).Reachable s) :
    system.Reachable s := by
  obtain ⟨s₀, es, h₀, hrun⟩ := h
  exact ⟨s₀, es, h₀, hrun.imp fun _ _ _ hstep => hstep.1⟩

/-- **Shutdown waits for exactly the running request threads**, in every run in which the first
check of the drain loop finds 0: whoever unlocks `counter_mutex` holds it, the counter is the number
of increments less that of decrements, and `SIGTERM` is sent when all threads have counted
themselves out. -/
theorem waits_for_threads (h : (system.guard FindsZero).Reachable s) :
    (∀ e s' p, system.step s e s' → unlocks s e = some p → s.counterMutex = some p) ∧
      (s.Settled → s.cntThreads = s.incrs - s.decrs) ∧
      (s.manager = .killing ∨ s.manager = .exited →
        ∀ k < s.created, (s.thread k).pc.out = true) := by
  obtain ⟨ht, hout, -⟩ := tight_of_reachable h
  refine ⟨?_, fun _ => ht.exact, ?_⟩
  · intro e s' p _ hunlocks
    rw [ht.holder]
    cases e with
    | manager =>
      simp only [unlocks] at hunlocks
      split_ifs at hunlocks with hm
      obtain rfl := Option.some.inj hunlocks
      rcases hm with hm | hm | hm
      · simp [State.inCounter, hm, ManagerPc.inCounter]
      · exact absurd hm hout
      · simp [State.inCounter, hm, ManagerPc.inCounter]
    | thread k =>
      simp only [unlocks] at hunlocks
      split_ifs at hunlocks with hk
      obtain rfl := Option.some.inj hunlocks
      simp [State.inCounter, hk, ThreadPc.inCounter]
    | done | accept c | again | fail | createFails => exact absurd hunlocks (by simp [unlocks])
  · intro hm
    refine out_of_drained (reachable_of_guard h) ?_
    rcases hm with hm | hm <;> simp [hm, ManagerPc.drained]

/-- **Once the loop has been entered**, the manager never holds `counter_mutex` again, so that each
of its unlocks from then on, one on every turn and one behind the loop, is of a mutex it does not
hold. -/
theorem unheld_of_turn (hm : s.manager = .drainUnlock) (hstep : system.step s .manager s')
    {es : List (Event κ)} (hrun : Run system.step s' es t) :
    t.manager.draining = true ∧ t.counterMutex ≠ some .manager := by
  refine hrun.invariant (I := fun t => t.manager.draining = true ∧ t.counterMutex ≠ some .manager)
    ?_ ?_
  · intro t e t' ht hstep
    obtain ⟨hdrain, hmutex⟩ := ht
    cases move_of_step hstep with
    | done | createFails | drainMore | drainEnd | kill =>
      exact ⟨by first | exact hdrain | rfl, hmutex⟩
    | drainUnlock | drainLast => exact ⟨rfl, by simp⟩
    | check pc hm | lockSocket hm | accept c hm | refuse e again hm | unlockSocket again pc hm
    | incrLock hm | incrRead hm | incrWrite cnt hm | incrUnlock hm | create hm | spin hm
    | drainLock hm => exact absurd hdrain (by simp [hm, ManagerPc.draining])
    | copy k hk | release k hk | serve k hk | decrRead k hk | decrWrite k cnt hk =>
      exact ⟨hdrain, hmutex⟩
    | decrLock k hk | decrUnlock k hk => exact ⟨hdrain, by simp [State.setPc, State.setThread]⟩
  · have hexec : managerStep s = some { s with counterMutex := none, manager := .drainCheck } := by
      simp only [managerStep, hm]
    obtain rfl := Option.some.inj (hexec.symm.trans hstep)
    exact ⟨rfl, by simp⟩

end Runs

/-! ### Two shutdowns -/

open Lts.System

/-- A thread counts itself out. -/
def countedOut (k : Nat) : List (Event Bool) := List.replicate 5 (.thread k)

/-- `done` is set, and the manager comes to the first check of the drain loop. -/
def draining : List (Event Bool) := [.done, .manager, .manager, .manager]

/-- The threads are out before the check. -/
def quiet : List (Event Bool) :=
  acceptedBy 0 true ++ acceptedBy 1 false ++ countedOut 1 ++ countedOut 0 ++ draining ++
    [.manager, .manager, .manager]

/-- The manager takes a turn, and a thread reads the counter. -/
def overlap : List (Event Bool) :=
  acceptedBy 0 true ++ acceptedBy 1 false ++ draining ++
    [.manager, .manager, .thread 0, .thread 0, .thread 0, .manager]

/-- The manager unlocks, and the other thread counts itself out between read and write. -/
def lostDecrement : List (Event Bool) :=
  overlap ++ [.manager] ++ countedOut 1 ++ [.thread 0, .thread 0]

def quietEnd : State Bool := followed exec (fun s e => decide (FindsZero s e)) start quiet

theorem waits_for_threads_quiet :
    quietEnd.manager = .exited ∧
      (∀ e s' p, system.step quietEnd e s' → unlocks quietEnd e = some p →
        quietEnd.counterMutex = some p) ∧
      (quietEnd.Settled → quietEnd.cntThreads = quietEnd.incrs - quietEnd.decrs) ∧
      (quietEnd.manager = .killing ∨ quietEnd.manager = .exited →
        ∀ k < quietEnd.created, (quietEnd.thread k).pc.out = true) := by
  have hfollow : (follow exec (fun s e => decide (FindsZero s e)) start quiet).isSome := by
    decide +kernel
  have hrun := run_followed (S := system) (P := FindsZero) (fun _ _ _ h => h)
    (fun _ _ h => of_decide_eq_true h) hfollow
  exact ⟨by decide +kernel, waits_for_threads ⟨start, quiet, rfl, hrun⟩⟩

theorem settled_of_finished {t : State Bool} (h : system.Reachable t)
    (hm : t.manager = .drainCheck) (hcreated : t.created = 2)
    (h0 : (t.thread 0).pc = .finished) (h1 : (t.thread 1).pc = .finished) : t.Settled := by
  refine ⟨by simp [hm], ?_⟩
  intro k cnt
  have habsent := (handed_of_reachable h).absent k
  match k with
  | 0 => simp [h0]
  | 1 => simp [h1]
  | k + 2 => simp [habsent.2 (by omega)]

/-- **A mutex unlocked under another's feet**: the manager unlocks `counter_mutex` while a thread
holds it, and a decrement is lost. Both threads are finished, and the counter is 1. -/
theorem lost_decrement :
    ∃ s t : State Bool, (system.Reachable s ∧ unlocks s .manager = some .manager ∧
        (exec s .manager).isSome ∧ s.counterMutex = some (.thread 0)) ∧
      system.Reachable t ∧ t.Settled ∧ t.manager = .drainCheck ∧ t.created = 2 ∧
        (t.thread 0).pc = .finished ∧ (t.thread 1).pc = .finished ∧
        t.incrs = 2 ∧ t.decrs = 2 ∧ t.cntThreads = 1 := by
  have hoverlap : (follow exec (fun _ _ => true) start overlap).isSome := by decide +kernel
  have hlost : (follow exec (fun _ _ => true) start lostDecrement).isSome := by decide +kernel
  have hrun := run_followed_all (S := system) (fun _ _ _ h => h) hoverlap
  have hrun' := run_followed_all (S := system) (fun _ _ _ h => h) hlost
  have hreached : system.Reachable (followed exec (fun _ _ => true) start lostDecrement) :=
    ⟨start, lostDecrement, rfl, hrun'⟩
  refine ⟨_, _, ⟨⟨start, overlap, rfl, hrun⟩, ?_, ?_, ?_⟩, hreached,
    settled_of_finished hreached ?_ ?_ ?_ ?_, ?_, ?_, ?_, ?_, ?_, ?_, ?_⟩
  all_goals decide +kernel

end DiskAnalyzer.Requests
