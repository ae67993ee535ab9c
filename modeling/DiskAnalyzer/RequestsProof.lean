import DiskAnalyzer.Lib.Mutex
import DiskAnalyzer.Requests
import Mathlib.Data.List.Basic
import Mathlib.Data.List.Nodup

/-!
# One thread for each connection

`Handed`: `socket_mutex` is held by the manager from `accept` to `pthread_create`, and by the thread
it has created until that one has copied `client_fd`. So the field is written only when everything
accepted before has been copied, and the `k`-th thread copies the `k`-th connection.
-/

namespace DiskAnalyzer.Requests

open Mutex Lts

variable {κ : Type}

/-! ## What each step can do -/

inductive Move (s : State κ) : Event κ → State κ → Prop
  | done : Move s .done { s with done := true }
  | check (pc : ManagerPc) : s.manager = .checking → pc = .spinning ∨ pc = .locking →
      Move s .manager { s with manager := pc }
  | lockSocket : s.manager = .locking → s.socketMutex = false →
      Move s .manager { s with socketMutex := true, manager := .accepting }
  | accept (c : κ) : s.manager = .accepting → c ∉ s.accepted →
      Move s (.accept c)
        { s with clientFd := some c, accepted := s.accepted ++ [c], manager := .incr .lock }
  | refuse (e : Event κ) (again : Bool) : s.manager = .accepting →
      Move s e { s with clientFd := none, manager := .refused again }
  | unlockSocket (again : Bool) (pc : ManagerPc) : s.manager = .refused again →
      pc = .checking ∨ pc = .spinning →
      Move s .manager { s with socketMutex := false, manager := pc }
  | incrLock : s.manager = .incr .lock → s.counterMutex = none →
      Move s .manager { s with counterMutex := some .manager, manager := .incr .read }
  | incrRead : s.manager = .incr .read →
      Move s .manager { s with manager := .incr (.write s.cntThreads) }
  | incrWrite (cnt : Int) : s.manager = .incr (.write cnt) →
      Move s .manager
        { s with cntThreads := cnt + 1, incrs := s.incrs + 1, manager := .incr .unlock }
  | incrUnlock : s.manager = .incr .unlock →
      Move s .manager { s with counterMutex := none, manager := .creating }
  | createFails : Move s .createFails s
  | create : s.manager = .creating →
      Move s .manager { s.setThread s.created ⟨.start, none⟩ with
        created := s.created + 1, manager := .checking }
  | spin : s.manager = .spinning → Move s .manager { s with manager := .drainLock }
  | drainLock : s.manager = .drainLock → s.counterMutex = none →
      Move s .manager { s with counterMutex := some .manager, manager := .drainCheck }
  | drainMore : s.manager = .drainCheck → s.cntThreads ≠ 0 →
      Move s .manager { s with manager := .drainUnlock }
  | drainEnd : s.manager = .drainCheck → s.cntThreads = 0 →
      Move s .manager { s with manager := .drainLast }
  | drainUnlock : s.manager = .drainUnlock →
      Move s .manager { s with counterMutex := none, manager := .drainCheck }
  | drainLast : s.manager = .drainLast →
      Move s .manager { s with counterMutex := none, manager := .killing }
  | kill : s.manager = .killing → Move s .manager { s with manager := .exited }
  | copy (k : Nat) : (s.thread k).pc = .start →
      Move s (.thread k) (s.setThread k ⟨.copied, s.clientFd⟩)
  | release (k : Nat) : (s.thread k).pc = .copied →
      Move s (.thread k) ({ s with socketMutex := false }.setPc k .serving)
  | serve (k : Nat) : (s.thread k).pc = .serving → Move s (.thread k) (s.setPc k (.decr .lock))
  | decrLock (k : Nat) : (s.thread k).pc = .decr .lock → s.counterMutex = none →
      Move s (.thread k) ({ s with counterMutex := some (.thread k) }.setPc k (.decr .read))
  | decrRead (k : Nat) : (s.thread k).pc = .decr .read →
      Move s (.thread k) (s.setPc k (.decr (.write s.cntThreads)))
  | decrWrite (k : Nat) (cnt : Int) : (s.thread k).pc = .decr (.write cnt) →
      Move s (.thread k)
        ({ s with cntThreads := cnt - 1, decrs := s.decrs + 1 }.setPc k (.decr .unlock))
  | decrUnlock (k : Nat) : (s.thread k).pc = .decr .unlock →
      Move s (.thread k) ({ s with counterMutex := none }.setPc k .finished)

theorem move_of_managerStep {s s' : State κ} (h : managerStep s = some s') :
    Move s .manager s' := by
  unfold managerStep at h
  split at h
  · obtain rfl := Option.some.inj h
    refine .check _ ‹_› ?_
    split_ifs
    · exact Or.inl rfl
    · exact Or.inr rfl
  · split_ifs at h with hheld
    obtain rfl := Option.some.inj h
    exact .lockSocket ‹_› (by simpa using hheld)
  · contradiction
  · obtain rfl := Option.some.inj h
    refine .unlockSocket _ _ ‹_› ?_
    split_ifs
    · exact Or.inl rfl
    · exact Or.inr rfl
  · unfold incrStep at h
    split at h
    · split_ifs at h with hfree
      obtain rfl := Option.some.inj h
      exact .incrLock ‹_› hfree
    · obtain rfl := Option.some.inj h
      exact .incrRead ‹_›
    · obtain rfl := Option.some.inj h
      exact .incrWrite _ ‹_›
    · obtain rfl := Option.some.inj h
      exact .incrUnlock ‹_›
  · obtain rfl := Option.some.inj h
    exact .create ‹_›
  · split_ifs at h
    obtain rfl := Option.some.inj h
    exact .spin ‹_›
  · split_ifs at h with hfree
    obtain rfl := Option.some.inj h
    exact .drainLock ‹_› hfree
  · obtain rfl := Option.some.inj h
    by_cases hcnt : s.cntThreads = 0
    · rw [if_neg (by simp [hcnt])]
      exact .drainEnd ‹_› hcnt
    · rw [if_pos hcnt]
      exact .drainMore ‹_› hcnt
  · obtain rfl := Option.some.inj h
    exact .drainUnlock ‹_›
  · obtain rfl := Option.some.inj h
    exact .drainLast ‹_›
  · obtain rfl := Option.some.inj h
    exact .kill ‹_›
  · contradiction

theorem move_of_threadStep {s s' : State κ} {k : Nat} (h : threadStep s k = some s') :
    Move s (.thread k) s' := by
  unfold threadStep at h
  split at h
  · contradiction
  · obtain rfl := Option.some.inj h
    exact .copy k ‹_›
  · obtain rfl := Option.some.inj h
    exact .release k ‹_›
  · obtain rfl := Option.some.inj h
    exact .serve k ‹_›
  · unfold decrStep at h
    split at h
    · split_ifs at h with hfree
      obtain rfl := Option.some.inj h
      exact .decrLock k ‹_› hfree
    · obtain rfl := Option.some.inj h
      exact .decrRead k ‹_›
    · obtain rfl := Option.some.inj h
      exact .decrWrite k _ ‹_›
    · obtain rfl := Option.some.inj h
      exact .decrUnlock k ‹_›
  · contradiction

theorem move_of_step [DecidableEq κ] {s s' : State κ} {e : Event κ} (h : exec s e = some s') :
    Move s e s' := by
  cases e with
  | done =>
    obtain rfl := Option.some.inj h
    exact .done
  | accept c =>
    rw [exec] at h
    split_ifs at h with hc
    obtain rfl := Option.some.inj h
    exact .accept c hc.1 hc.2
  | again =>
    rw [exec] at h
    split_ifs at h with hc
    obtain rfl := Option.some.inj h
    exact .refuse _ true hc
  | fail =>
    rw [exec] at h
    split_ifs at h with hc
    obtain rfl := Option.some.inj h
    exact .refuse _ false hc
  | createFails =>
    rw [exec] at h
    split_ifs at h with hc
    obtain rfl := Option.some.inj h
    exact .createFails
  | manager => exact move_of_managerStep h
  | thread k => exact move_of_threadStep h

/-! ### Threads under an update -/

section Frame

variable (s : State κ) (j k : Nat) (t : Thread κ) (pc : ThreadPc)

theorem thread_setThread : (s.setThread k t).thread j = if j = k then t else s.thread j := by
  by_cases hj : j = k
  · rw [if_pos hj, hj]
    exact Function.update_self ..
  · rw [if_neg hj]
    exact Function.update_of_ne hj ..

theorem pc_setPc : ((s.setPc k pc).thread j).pc = if j = k then pc else (s.thread j).pc := by
  rw [State.setPc, thread_setThread]
  split_ifs <;> rfl

theorem clientFd_setPc : ((s.setPc k pc).thread j).clientFd = (s.thread j).clientFd := by
  rw [State.setPc, thread_setThread]
  split_ifs with hj
  · rw [hj]
  · rfl

end Frame

/-! ## `socket_mutex` -/

/-- From `accept` on, up to `pthread_create`. -/
def ManagerPc.offers : ManagerPc → Bool
  | incr _ | creating => true
  | _ => false

/-- The manager holds `socket_mutex`. -/
def ManagerPc.holds : ManagerPc → Bool
  | accepting | refused _ | incr _ | creating => true
  | _ => false

/-- The thread has `socket_mutex` to release. -/
def ThreadPc.holds : ThreadPc → Bool
  | start | copied => true
  | _ => false

/-- The thread has not copied `client_fd`. -/
def ThreadPc.before : ThreadPc → Bool
  | absent | start => true
  | _ => false

def State.holdsSocket (s : State κ) : Party → Prop
  | .manager => s.manager.holds = true
  | .thread k => (s.thread k).pc.holds = true

/-- What `socket_mutex` and the threads' copies are worth. -/
structure Handed (s : State κ) : Prop where
  socket : Exclusive (s.socketMutex = true) s.holdsSocket
  nodup : s.accepted.Nodup
  length : s.accepted.length = s.created + if s.manager.offers then 1 else 0
  absent : ∀ k, (s.thread k).pc = .absent ↔ s.created ≤ k
  offered : s.manager.offers = true → s.clientFd = s.accepted[s.created]?
  started : ∀ k, (s.thread k).pc = .start →
    k + 1 = s.created ∧ s.clientFd = s.accepted[k]?
  before : ∀ k, (s.thread k).pc.before = true → (s.thread k).clientFd = none
  copied : ∀ k, (s.thread k).pc.before = false → (s.thread k).clientFd = s.accepted[k]?

theorem handed_start : Handed (start : State κ) where
  socket := by
    refine .of_none ?_ (by simp [start])
    intro p
    cases p <;> simp [State.holdsSocket, start, ManagerPc.holds, ThreadPc.holds]
  nodup := List.nodup_nil
  length := rfl
  absent k := by simp [start]
  offered h := absurd h (by simp [start, ManagerPc.offers])
  started k h := absurd h (by simp [start])
  before _ _ := rfl
  copied k h := absurd h (by simp [start, ThreadPc.before])

/-- A step that does not go near the connections. -/
structure SameSocket (s s' : State κ) : Prop where
  socketMutex : s'.socketMutex = s.socketMutex
  clientFd : s'.clientFd = s.clientFd
  accepted : s'.accepted = s.accepted
  created : s'.created = s.created
  holds : s'.manager.holds = s.manager.holds
  offers : s'.manager.offers = s.manager.offers
  thread : ∀ k, s'.thread k = s.thread k ∨
    (s'.thread k).clientFd = (s.thread k).clientFd ∧
      (s.thread k).pc.before = false ∧ (s.thread k).pc.holds = false ∧
      (s'.thread k).pc.before = false ∧ (s'.thread k).pc.holds = false

theorem Handed.same {s s' : State κ} (hs : Handed s) (h : SameSocket s s') : Handed s' := by
  obtain ⟨hmutex, hfd, hacc, hcreated, hholds, hoffers, hthread⟩ := h
  have hpc : ∀ k, (s'.thread k).clientFd = (s.thread k).clientFd ∧
      (s'.thread k).pc.before = (s.thread k).pc.before ∧
      (s'.thread k).pc.holds = (s.thread k).pc.holds ∧
      ((s'.thread k).pc = .absent ↔ (s.thread k).pc = .absent) ∧
      ((s'.thread k).pc = .start ↔ (s.thread k).pc = .start) := by
    intro k
    rcases hthread k with heq | ⟨hc, hb, hh, hb', hh'⟩
    · simp [heq]
    · refine ⟨hc, hb'.trans hb.symm, hh'.trans hh.symm, ?_, ?_⟩
      · cases hp : (s.thread k).pc <;> cases hp' : (s'.thread k).pc <;>
          simp_all [ThreadPc.before]
      · cases hp : (s.thread k).pc <;> cases hp' : (s'.thread k).pc <;>
          simp_all [ThreadPc.before]
  refine ⟨?_, ?_, ?_, ?_, ?_, ?_, ?_, ?_⟩
  · refine hs.socket.congr (by rw [hmutex]) ?_
    intro p
    cases p with
    | manager => simp only [State.holdsSocket, hholds]
    | thread k => simp only [State.holdsSocket, (hpc k).2.2.1]
  · rw [hacc]
    exact hs.nodup
  · rw [hacc, hcreated, hoffers]
    exact hs.length
  · intro k
    rw [(hpc k).2.2.2.1, hcreated]
    exact hs.absent k
  · intro ho
    rw [hfd, hacc, hcreated]
    exact hs.offered (hoffers ▸ ho)
  · intro k hk
    rw [hfd, hacc, hcreated]
    exact hs.started k ((hpc k).2.2.2.2.1 hk)
  · intro k hk
    rw [(hpc k).1]
    exact hs.before k ((hpc k).2.1 ▸ hk)
  · intro k hk
    rw [(hpc k).1, hacc]
    exact hs.copied k ((hpc k).2.1 ▸ hk)

/-- A step of a thread that has released `socket_mutex`. -/
theorem Handed.setPc {s s₁ : State κ} (hs : Handed s) {k : Nat} {pc : ThreadPc}
    (hrest : s₁.socketMutex = s.socketMutex ∧ s₁.clientFd = s.clientFd ∧
      s₁.accepted = s.accepted ∧ s₁.created = s.created ∧ s₁.manager = s.manager ∧
      s₁.thread = s.thread)
    (hpast : (s.thread k).pc.before = false ∧ (s.thread k).pc.holds = false)
    (hpast' : pc.before = false ∧ pc.holds = false) : Handed (s₁.setPc k pc) := by
  obtain ⟨hmutex, hfd, hacc, hcreated, hmanager, hthread⟩ := hrest
  refine hs.same ⟨hmutex, hfd, hacc, hcreated, congrArg _ hmanager, congrArg _ hmanager, ?_⟩
  intro j
  by_cases hj : j = k
  · right
    rw [clientFd_setPc, pc_setPc, if_pos hj, hthread, hj]
    exact ⟨rfl, hpast.1, hpast.2, hpast'.1, hpast'.2⟩
  · left
    rw [State.setPc, thread_setThread, if_neg hj, hthread]

/-- While the manager holds `socket_mutex`, no thread has it to release. -/
theorem Handed.holds_false {s : State κ} (hs : Handed s) (hm : s.manager.holds = true) (k : Nat) :
    (s.thread k).pc.holds = false := by
  by_contra hk
  have heq : Party.thread k = Party.manager :=
    hs.socket.unique _ _ (by simpa [State.holdsSocket] using hk) hm
  exact absurd heq (by simp)

theorem Handed.not_start {s : State κ} (hs : Handed s) (hm : s.manager.holds = true) (k : Nat) :
    (s.thread k).pc ≠ .start := by
  intro hk
  have hfalse := hs.holds_false hm k
  rw [hk] at hfalse
  exact absurd hfalse (by simp [ThreadPc.holds])

/-- A thread that has copied is one of those created. -/
theorem Handed.lt_created {s : State κ} (hs : Handed s) {k : Nat}
    (hk : (s.thread k).pc.before = false) : k < s.created := by
  by_contra hge
  rw [(hs.absent k).2 (by omega)] at hk
  exact absurd hk (by simp [ThreadPc.before])

theorem Handed.accept {s : State κ} (hs : Handed s) {c : κ} (hm : s.manager = .accepting)
    (hc : c ∉ s.accepted) : Handed
      { s with clientFd := some c, accepted := s.accepted ++ [c], manager := .incr .lock } := by
  have hlen : s.accepted.length = s.created := by simpa [hm, ManagerPc.offers] using hs.length
  have hholds : s.manager.holds = true := by simp [hm, ManagerPc.holds]
  refine ⟨?_, ?_, ?_, hs.absent, ?_, ?_, hs.before, ?_⟩
  · refine hs.socket.congr Iff.rfl ?_
    intro p
    cases p with
    | manager => simp [State.holdsSocket, hm, ManagerPc.holds]
    | thread k => exact Iff.rfl
  · exact List.nodup_append_comm.1 (List.nodup_cons.2 ⟨hc, hs.nodup⟩)
  · simp [ManagerPc.offers, hlen]
  · intro _
    simp [← hlen]
  · intro k hk
    exact absurd hk (hs.not_start hholds k)
  · intro k hk
    have hlt := hs.lt_created hk
    rw [List.getElem?_append_left (by omega)]
    exact hs.copied k hk

theorem Handed.create {s : State κ} (hs : Handed s) (hm : s.manager = .creating) : Handed
    { s.setThread s.created ⟨.start, none⟩ with
      created := s.created + 1, manager := .checking } := by
  have hholds : s.manager.holds = true := by simp [hm, ManagerPc.holds]
  have hoffers : s.manager.offers = true := by simp [hm, ManagerPc.offers]
  have hlen : s.accepted.length = s.created + 1 := by simpa [hoffers] using hs.length
  -- The thread is handed the mutex.
  have hinside : ∀ k, ((s.setThread s.created ⟨.start, none⟩).thread k).pc.holds = true ↔
      k = s.created := by
    intro k
    rw [thread_setThread]
    split_ifs with hk
    · simp [ThreadPc.holds, hk]
    · simp [hs.holds_false hholds k, hk]
  refine ⟨?_, hs.nodup, ?_, ?_, ?_, ?_, ?_, ?_⟩
  · have hinsideManager : s.holdsSocket .manager := hholds
    refine hs.socket.pass (u := .thread s.created) hinsideManager ?_ ?_
    · exact hs.socket.held_iff.2 ⟨.manager, hholds⟩
    · intro p
      cases p with
      | manager => simp [State.holdsSocket, ManagerPc.holds]
      | thread k =>
        show ((s.setThread s.created ⟨.start, none⟩).thread k).pc.holds = true ↔ _
        rw [hinside]
        simp [State.holdsSocket, hs.holds_false hholds k]
  · simpa [ManagerPc.offers, State.setThread] using hlen
  · intro k
    show ((s.setThread s.created ⟨.start, none⟩).thread k).pc = .absent ↔ s.created + 1 ≤ k
    rw [thread_setThread]
    split_ifs with hk
    · simp [hk]
    · rw [hs.absent k]
      omega
  · intro h
    exact absurd h (by simp [ManagerPc.offers])
  · intro k hk
    change ((s.setThread s.created ⟨.start, none⟩).thread k).pc = .start at hk
    rw [thread_setThread] at hk
    split_ifs at hk with heq
    · rw [heq]
      exact ⟨rfl, hs.offered hoffers⟩
    · exact absurd hk (hs.not_start hholds k)
  · intro k hk
    change ((s.setThread s.created ⟨.start, none⟩).thread k).pc.before = true at hk
    show ((s.setThread s.created ⟨.start, none⟩).thread k).clientFd = none
    rw [thread_setThread] at hk ⊢
    split_ifs at hk ⊢
    · rfl
    · exact hs.before k hk
  · intro k hk
    change ((s.setThread s.created ⟨.start, none⟩).thread k).pc.before = false at hk
    show ((s.setThread s.created ⟨.start, none⟩).thread k).clientFd = s.accepted[k]?
    rw [thread_setThread] at hk ⊢
    split_ifs at hk ⊢
    · exact absurd hk (by simp [ThreadPc.before])
    · exact hs.copied k hk

/-- A thread that has been created gets to where it has its connection. -/
theorem Handed.setThread {s : State κ} (hs : Handed s) {b : Bool} {k : Nat} {t : Thread κ}
    (hk : k < s.created) (hbefore : t.pc.before = false) (hfd : t.clientFd = s.accepted[k]?)
    (hsocket : Exclusive (b = true) ({ s with socketMutex := b }.setThread k t).holdsSocket) :
    Handed ({ s with socketMutex := b }.setThread k t) := by
  refine ⟨hsocket, hs.nodup, hs.length, ?_, hs.offered, ?_, ?_, ?_⟩
  · intro j
    rw [thread_setThread]
    split_ifs with hj
    · rw [hj]
      refine iff_of_false ?_ (Nat.not_le.2 hk)
      intro habsent
      simp [habsent, ThreadPc.before] at hbefore
    · exact hs.absent j
  · intro j hj
    rw [thread_setThread] at hj
    split_ifs at hj
    · simp [hj, ThreadPc.before] at hbefore
    · exact hs.started j hj
  · intro j hj
    rw [thread_setThread] at hj ⊢
    split_ifs at hj ⊢
    · simp [hbefore] at hj
    · exact hs.before j hj
  · intro j hj
    rw [thread_setThread] at hj ⊢
    split_ifs at hj ⊢ with heq
    · rw [heq]
      exact hfd
    · exact hs.copied j hj

theorem Handed.copy {s : State κ} (hs : Handed s) {k : Nat} (hk : (s.thread k).pc = .start) :
    Handed (s.setThread k ⟨.copied, s.clientFd⟩) := by
  obtain ⟨hlast, hfd⟩ := hs.started k hk
  refine hs.setThread (b := s.socketMutex) (by omega) rfl hfd ?_
  refine hs.socket.congr Iff.rfl ?_
  intro p
  cases p with
  | manager => exact Iff.rfl
  | thread j =>
    simp only [State.holdsSocket, thread_setThread]
    split_ifs with hj
    · simp [hj, hk, ThreadPc.holds]
    · exact Iff.rfl

theorem Handed.release {s : State κ} (hs : Handed s) {k : Nat} (hk : (s.thread k).pc = .copied) :
    Handed ({ s with socketMutex := false }.setPc k .serving) := by
  have hbefore : (s.thread k).pc.before = false := by simp [hk, ThreadPc.before]
  have hinside : s.holdsSocket (.thread k) := by simp [State.holdsSocket, hk, ThreadPc.holds]
  have hmanager : s.manager.holds = false := by
    by_contra hm
    have hfalse := hs.holds_false (by simpa using hm) k
    simp [hk, ThreadPc.holds] at hfalse
  refine hs.setThread (hs.lt_created hbefore) rfl (hs.copied k hbefore) ?_
  refine hs.socket.unlock hinside (by simp) ?_
  intro p
  cases p with
  | manager => simp [State.holdsSocket, State.setThread, hmanager]
  | thread j =>
    simp only [State.holdsSocket, thread_setThread]
    split_ifs with hj
    · simp [hj, ThreadPc.holds]
    · simp [hj]

/-- A step of the manager that does not go near the connections. -/
theorem Handed.manager {s s' : State κ} (hs : Handed s)
    (hrest : s'.socketMutex = s.socketMutex ∧ s'.clientFd = s.clientFd ∧
      s'.accepted = s.accepted ∧ s'.created = s.created ∧ s'.thread = s.thread)
    (hholds : s'.manager.holds = s.manager.holds)
    (hoffers : s'.manager.offers = s.manager.offers) : Handed s' := by
  obtain ⟨hmutex, hfd, hacc, hcreated, hthread⟩ := hrest
  refine hs.same ⟨hmutex, hfd, hacc, hcreated, hholds, hoffers, ?_⟩
  intro k
  left
  rw [hthread]

theorem Handed.lockSocket {s : State κ} (hs : Handed s) (hm : s.manager = .locking)
    (hfree : s.socketMutex = false) :
    Handed { s with socketMutex := true, manager := .accepting } := by
  refine ⟨?_, hs.nodup, ?_, hs.absent, ?_, hs.started, hs.before, hs.copied⟩
  · refine hs.socket.lock (t := Party.manager) (by simp [hfree]) rfl ?_
    intro p
    cases p with
    | manager => simp [State.holdsSocket, ManagerPc.holds]
    | thread k => simp [State.holdsSocket]
  · simpa [hm, ManagerPc.offers] using hs.length
  · intro h
    exact absurd h (by simp [ManagerPc.offers])

theorem Handed.refuse {s : State κ} (hs : Handed s) (again : Bool) (hm : s.manager = .accepting) :
    Handed { s with clientFd := none, manager := .refused again } := by
  have hholds : s.manager.holds = true := by simp [hm, ManagerPc.holds]
  refine ⟨?_, hs.nodup, ?_, hs.absent, ?_, ?_, hs.before, hs.copied⟩
  · refine hs.socket.congr Iff.rfl ?_
    intro p
    cases p with
    | manager => simp [State.holdsSocket, hm, ManagerPc.holds]
    | thread k => exact Iff.rfl
  · simpa [hm, ManagerPc.offers] using hs.length
  · intro h
    exact absurd h (by simp [ManagerPc.offers])
  · intro k hk
    exact absurd hk (hs.not_start hholds k)

theorem Handed.unlockSocket {s : State κ} (hs : Handed s) {again : Bool} {pc : ManagerPc}
    (hm : s.manager = .refused again) (hpc : pc = .checking ∨ pc = .spinning) :
    Handed { s with socketMutex := false, manager := pc } := by
  have hholds : s.manager.holds = true := by simp [hm, ManagerPc.holds]
  have hinside : s.holdsSocket .manager := hholds
  have hpc' : pc.holds = false ∧ pc.offers = false := by
    rcases hpc with rfl | rfl <;> exact ⟨rfl, rfl⟩
  refine ⟨?_, hs.nodup, ?_, hs.absent, ?_, hs.started, hs.before, hs.copied⟩
  · refine hs.socket.unlock hinside (by simp) ?_
    intro p
    cases p with
    | manager => simp [State.holdsSocket, hpc'.1]
    | thread k => simp [State.holdsSocket]
  · have hlen : s.accepted.length = s.created := by simpa [hm, ManagerPc.offers] using hs.length
    simp [hpc'.2, hlen]
  · intro h
    exact absurd h (by simp [hpc'.2])

/-- **One step.** -/
theorem Move.handed {s s' : State κ} {e : Event κ} (h : Move s e s') (hs : Handed s) :
    Handed s' := by
  have hrest : s.socketMutex = s.socketMutex ∧ s.clientFd = s.clientFd ∧
      s.accepted = s.accepted ∧ s.created = s.created ∧ s.thread = s.thread :=
    ⟨rfl, rfl, rfl, rfl, rfl⟩
  have hrest' : s.socketMutex = s.socketMutex ∧ s.clientFd = s.clientFd ∧
      s.accepted = s.accepted ∧ s.created = s.created ∧ s.manager = s.manager ∧
      s.thread = s.thread := ⟨rfl, rfl, rfl, rfl, rfl, rfl⟩
  cases h with
  | done => exact hs.manager hrest rfl rfl
  | check pc hm hpc =>
    refine hs.manager hrest ?_ ?_ <;> rcases hpc with rfl | rfl <;> simp [hm, ManagerPc.holds,
      ManagerPc.offers]
  | lockSocket hm hfree => exact hs.lockSocket hm hfree
  | accept c hm hc => exact hs.accept hm hc
  | refuse e again hm => exact hs.refuse again hm
  | unlockSocket again pc hm hpc => exact hs.unlockSocket hm hpc
  | createFails => exact hs
  | create hm => exact hs.create hm
  | incrLock hm | incrRead hm | incrWrite cnt hm | incrUnlock hm | spin hm | drainLock hm
  | drainMore hm | drainEnd hm | drainUnlock hm | drainLast hm | kill hm =>
    exact hs.manager hrest (by simp [hm, ManagerPc.holds]) (by simp [hm, ManagerPc.offers])
  | copy k hk => exact hs.copy hk
  | release k hk => exact hs.release hk
  | serve k hk | decrLock k hk | decrRead k hk | decrWrite k cnt hk | decrUnlock k hk =>
    exact hs.setPc hrest' (by simp [hk, ThreadPc.before, ThreadPc.holds]) ⟨rfl, rfl⟩

section Served

variable {s s' : State κ} {e : Event κ}

theorem handed_of_reachable [DecidableEq κ] (h : system.Reachable s) : Handed s := by
  refine h.invariant ?_ ?_
  · intro s₀ h₀
    rw [show s₀ = start from h₀]
    exact handed_start
  · intro s e s' hs hstep
    exact (move_of_step hstep).handed hs

/-- The connection a thread has copied is the one accepted for it. -/
theorem Handed.accepted_of_copied (hs : Handed s) {k : Nat} {c : κ}
    (hk : (s.thread k).clientFd = some c) : s.accepted[k]? = some c := by
  cases hb : (s.thread k).pc.before with
  | false => rw [← hs.copied k hb, hk]
  | true =>
    rw [hs.before k hb] at hk
    exact absurd hk (by simp)

theorem Handed.unique (hs : Handed s) {k k' : Nat} {c : κ} (hk : (s.thread k).clientFd = some c)
    (hk' : (s.thread k').clientFd = some c) : k = k' := by
  obtain ⟨hlt, hget⟩ := List.getElem?_eq_some_iff.1 (hs.accepted_of_copied hk)
  obtain ⟨hlt', hget'⟩ := List.getElem?_eq_some_iff.1 (hs.accepted_of_copied hk')
  exact (hs.nodup.getElem_inj_iff).1 (hget.trans hget'.symm)

/-- A connection is copied, or it is in `client_fd` and on its way to the last thread, with
`socket_mutex` held. -/
theorem Handed.copied_or_offered (hs : Handed s) {c : κ} (hc : c ∈ s.accepted) :
    (∃ k, (s.thread k).clientFd = some c) ∨
      s.clientFd = some c ∧ s.socketMutex = true ∧
        (s.manager.offers = true ∨ ∃ k, (s.thread k).pc = .start ∧ s.accepted[k]? = some c) := by
  obtain ⟨k, hlt, hget⟩ := List.getElem_of_mem hc
  have hsome : s.accepted[k]? = some c := List.getElem?_eq_some_iff.2 ⟨hlt, hget⟩
  have hlen := hs.length
  by_cases hk : k < s.created
  · have habsent := (hs.absent k).not.2 (by omega)
    by_cases hstart : (s.thread k).pc = .start
    · have hinside : s.holdsSocket (.thread k) := by
        simp [State.holdsSocket, hstart, ThreadPc.holds]
      right
      exact ⟨(hs.started k hstart).2.trans hsome, hs.socket.held_iff.2 ⟨_, hinside⟩,
        Or.inr ⟨k, hstart, hsome⟩⟩
    · left
      have hb : (s.thread k).pc.before = false := by
        cases hpc : (s.thread k).pc <;> simp_all [ThreadPc.before]
      exact ⟨k, (hs.copied k hb).trans hsome⟩
  · right
    have hoffers : s.manager.offers = true := by
      by_contra hno
      simp only [hno, if_false] at hlen
      omega
    have heq : k = s.created := by
      simp only [hoffers, if_true] at hlen
      omega
    have hholds : s.holdsSocket .manager := by
      cases hm : s.manager <;> simp_all [ManagerPc.offers, ManagerPc.holds, State.holdsSocket]
    refine ⟨?_, hs.socket.held_iff.2 ⟨_, hholds⟩, Or.inl hoffers⟩
    rw [hs.offered hoffers, ← heq, hsome]

/-- A step that writes `client_fd` comes when everything accepted has been copied. -/
theorem Handed.copied_of_write (hs : Handed s) (h : Move s e s') (hfd : s'.clientFd ≠ s.clientFd)
    {c : κ} (hc : c ∈ s.accepted) : ∃ k, (s.thread k).clientFd = some c := by
  have hm : s.manager = .accepting := by
    cases h <;> first | assumption | exact absurd rfl hfd
  rcases hs.copied_or_offered hc with hk | ⟨-, -, hoffers | ⟨k, hstart, -⟩⟩
  · exact hk
  · exact absurd hoffers (by simp [hm, ManagerPc.offers])
  · exact absurd hstart (hs.not_start (by simp [hm, ManagerPc.holds]) k)

/-- **Each connection is served by exactly one request thread.** The `k`-th thread copies the `k`-th
connection and no other; the field is not written before what it holds has been copied; and every
connection accepted is copied by one thread, or by none yet while the field still holds it and the
mutex is held for its thread. -/
theorem served_once [DecidableEq κ] (h : system.Reachable s) :
    (∀ k, (s.thread k).pc.before = false →
        ∃ c, (s.thread k).clientFd = some c ∧ s.accepted[k]? = some c) ∧
      (∀ e s', system.step s e s' → s'.clientFd ≠ s.clientFd →
        ∀ c ∈ s.accepted, ∃ k, (s.thread k).clientFd = some c) ∧
      (∀ c k k', (s.thread k).clientFd = some c → (s.thread k').clientFd = some c → k = k') ∧
      ∀ c ∈ s.accepted, (∃ k, (s.thread k).clientFd = some c) ∨
        s.clientFd = some c ∧ s.socketMutex = true ∧
          (s.manager.offers = true ∨
            ∃ k, (s.thread k).pc = .start ∧ s.accepted[k]? = some c) := by
  have hs := handed_of_reachable h
  refine ⟨?_, ?_, ?_, ?_⟩
  · intro k hk
    have hlt : k < s.accepted.length := by
      have hcreated := hs.lt_created hk
      have hlen := hs.length
      omega
    exact ⟨s.accepted[k], by rw [hs.copied k hk, List.getElem?_eq_getElem hlt],
      List.getElem?_eq_getElem hlt⟩
  · exact fun e s' hstep hfd c hc => hs.copied_of_write (move_of_step hstep) hfd hc
  · exact fun c k k' => hs.unique
  · exact fun c hc => hs.copied_or_offered hc

end Served

/-! ### Two connections -/

open Lts.System

/-- An accept with the thread it makes; the thread copies, and releases the mutex. -/
def acceptedBy (k : Nat) (c : Bool) : List (Event Bool) :=
  [.manager, .manager, .accept c, .manager, .manager, .manager, .manager, .createFails, .manager,
    .thread k, .thread k]

/-- The second `accept` fails first. -/
def twoConnections : List (Event Bool) :=
  acceptedBy 0 true ++ [.manager, .manager, .again, .manager] ++ acceptedBy 1 false

def twoConnectionsEnd : State Bool := followed exec (fun _ _ => true) start twoConnections

theorem served_once_two :
    (∃ c, (twoConnectionsEnd.thread 1).clientFd = some c ∧
        twoConnectionsEnd.accepted[1]? = some c) ∧
      ∀ c k k', (twoConnectionsEnd.thread k).clientFd = some c →
        (twoConnectionsEnd.thread k').clientFd = some c → k = k' := by
  have hfollow : (follow exec (fun _ _ => true) start twoConnections).isSome := by decide +kernel
  have hrun := run_followed_all (S := system) (fun _ _ _ h => h) hfollow
  have hserved := served_once ⟨start, twoConnections, rfl, hrun⟩
  exact ⟨hserved.1 1 (by decide +kernel), hserved.2.2.1⟩

end DiskAnalyzer.Requests
