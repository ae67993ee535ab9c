import DiskAnalyzer.Lib.Run
import Mathlib.Logic.Function.Basic

/-!
# Accepting connections, and waiting for the threads that serve them

`do_requests_manager` and the request threads it creates, in their single steps. The manager takes
`socket_mutex`, accepts into the one field `client_fd`, and creates a thread; the thread copies the
field and releases the mutex. `cnt_threads` goes up before a thread is created and down when it is
done, each time in a section under `counter_mutex` that reads the counter in one step and writes it
in another. The drain loop at the end locks `counter_mutex` once and unlocks it on each turn.

* A mutex is free after an unlock, whoever held it. `counter_mutex` carries its holder's name, which
  no step reads.
* A connection stands for the descriptor `accept` gives it, so no two are the same; -1 is `none`.
* Request threads are numbered as they are created. What one does between its copy and its last
  `decr_counter` is up to the run; so is when `done` is set, and how often `pthread_create` fails.
-/

namespace DiskAnalyzer.Requests

variable {κ : Type}

/-- `incr_counter` and `decr_counter`. -/
inductive CountPc where
  | lock
  | read
  /-- The counter has been read. -/
  | write (cnt : Int)
  | unlock
  deriving DecidableEq, Repr

/-- `do_requests_manager`. -/
inductive ManagerPc where
  /-- At the check of `done`. -/
  | checking
  | locking
  | accepting
  /-- `accept` has failed; `again` says whether the loop goes on. -/
  | refused (again : Bool)
  | incr (pc : CountPc)
  | creating
  /-- In `while (!done)` behind the loop. -/
  | spinning
  | drainLock
  /-- At `while (cnt_threads)`. -/
  | drainCheck
  /-- At the `unlock` inside that loop. -/
  | drainUnlock
  /-- At the `unlock` behind it. -/
  | drainLast
  /-- At `kill(getppid(), SIGTERM)`. -/
  | killing
  | exited
  deriving DecidableEq, Repr

/-- `request_thread`. -/
inductive ThreadPc where
  | absent
  /-- Created, `client_fd` not copied. -/
  | start
  /-- Copied, `socket_mutex` not released. -/
  | copied
  | serving
  | decr (pc : CountPc)
  | finished
  deriving DecidableEq, Repr

/-- A request thread with its `client_fd`. -/
structure Thread (κ : Type) where
  pc : ThreadPc
  clientFd : Option κ
  deriving DecidableEq, Repr

inductive Party where
  | manager
  | thread (k : Nat)
  deriving DecidableEq, Repr

structure State (κ : Type) where
  done : Bool
  /-- `socket_mutex` is held. -/
  socketMutex : Bool
  /-- `man->requests_connection.client_fd`. -/
  clientFd : Option κ
  counterMutex : Option Party
  cntThreads : Int
  manager : ManagerPc
  /-- The threads created so far. -/
  created : Nat
  thread : Nat → Thread κ
  /-- The connections accepted so far, and the increments and decrements written so far. -/
  accepted : List κ
  incrs : Nat
  decrs : Nat

def start : State κ :=
  ⟨false, false, none, none, 0, .checking, 0, fun _ => ⟨.absent, none⟩, [], 0, 0⟩

inductive Event (κ : Type) where
  /-- `reqman_handler`. -/
  | done
  /-- `accept` returns a connection, fails with `EAGAIN`, or fails otherwise. -/
  | accept (c : κ)
  | again
  | fail
  /-- `pthread_create` fails. -/
  | createFails
  /-- The step of the manager, or of a thread, where there is only one. -/
  | manager
  | thread (k : Nat)
  deriving DecidableEq, Repr

def State.setThread (s : State κ) (k : Nat) (t : Thread κ) : State κ :=
  { s with thread := Function.update s.thread k t }

def State.setPc (s : State κ) (k : Nat) (pc : ThreadPc) : State κ :=
  s.setThread k { s.thread k with pc }

/-- A step of `incr_counter`. -/
def incrStep (s : State κ) : CountPc → Option (State κ)
  | .lock =>
    if s.counterMutex = none then
      some { s with counterMutex := some .manager, manager := .incr .read }
    else none
  | .read => some { s with manager := .incr (.write s.cntThreads) }
  | .write cnt =>
    some { s with cntThreads := cnt + 1, incrs := s.incrs + 1, manager := .incr .unlock }
  | .unlock => some { s with counterMutex := none, manager := .creating }

/-- A step of `decr_counter`. -/
def decrStep (s : State κ) (k : Nat) : CountPc → Option (State κ)
  | .lock =>
    if s.counterMutex = none then
      some ({ s with counterMutex := some (.thread k) }.setPc k (.decr .read))
    else none
  | .read => some (s.setPc k (.decr (.write s.cntThreads)))
  | .write cnt =>
    some ({ s with cntThreads := cnt - 1, decrs := s.decrs + 1 }.setPc k (.decr .unlock))
  | .unlock => some ({ s with counterMutex := none }.setPc k .finished)

/-- The manager's step where it does not depend on a system call. -/
def managerStep (s : State κ) : Option (State κ) :=
  match s.manager with
  | .checking => some { s with manager := if s.done then .spinning else .locking }
  | .locking =>
    if s.socketMutex then none else some { s with socketMutex := true, manager := .accepting }
  | .accepting => none
  | .refused again =>
    some { s with socketMutex := false, manager := if again then .checking else .spinning }
  | .incr pc => incrStep s pc
  | .creating =>
    some { s.setThread s.created ⟨.start, none⟩ with
      created := s.created + 1, manager := .checking }
  | .spinning => if s.done then some { s with manager := .drainLock } else none
  | .drainLock =>
    if s.counterMutex = none then
      some { s with counterMutex := some .manager, manager := .drainCheck }
    else none
  | .drainCheck =>
    some { s with manager := if s.cntThreads ≠ 0 then .drainUnlock else .drainLast }
  | .drainUnlock => some { s with counterMutex := none, manager := .drainCheck }
  | .drainLast => some { s with counterMutex := none, manager := .killing }
  | .killing => some { s with manager := .exited }
  | .exited => none

/-- The step of a request thread. Every way out of it calls `decr_counter`. -/
def threadStep (s : State κ) (k : Nat) : Option (State κ) :=
  match (s.thread k).pc with
  | .absent => none
  | .start => some (s.setThread k ⟨.copied, s.clientFd⟩)
  | .copied => some ({ s with socketMutex := false }.setPc k .serving)
  | .serving => some (s.setPc k (.decr .lock))
  | .decr pc => decrStep s k pc
  | .finished => none

section Exec

variable [DecidableEq κ]

def exec (s : State κ) : Event κ → Option (State κ)
  | .done => some { s with done := true }
  | .accept c =>
    if s.manager = .accepting ∧ c ∉ s.accepted then
      some { s with clientFd := some c, accepted := s.accepted ++ [c], manager := .incr .lock }
    else none
  | .again =>
    if s.manager = .accepting then some { s with clientFd := none, manager := .refused true }
    else none
  | .fail =>
    if s.manager = .accepting then some { s with clientFd := none, manager := .refused false }
    else none
  | .createFails => if s.manager = .creating then some s else none
  | .manager => managerStep s
  | .thread k => threadStep s k

/-- The manager and the threads run in any order. -/
def system : Lts.System (State κ) (Event κ) where
  init s := s = start
  step s e s' := exec s e = some s'

end Exec

end DiskAnalyzer.Requests
