import DiskAnalyzer.Lib.Run
import Mathlib.Logic.Function.Basic

/-!
# Stopping the manager

`manager.c` from a `SIGTERM` to the fork manager on: the fork manager, the two threads of the
threads manager, and the workers, with the signals between them and the connections of the workers
to the results socket. Workers are named by `ω`; what a worker says in a message is a `μ`.

* A pending signal is one bit for each process and signal; when it is delivered is up to the run. A
  handler is one step. `++cnt_forks` is two, so a handler can run in between.
* Connections are accepted in the order they were made. A worker that has exited leaves its
  connection and its message behind.
* System calls succeed. Which requests there are, and when workers send and exit, is up to the run.
-/

namespace DiskAnalyzer.Shutdown

variable {ω μ : Type}

/-! ## `SIGTERM` -/

/-- What `SIGTERM` does to a process. -/
inductive Disposition where
  | forkmanHandler1
  | forkmanHandler2
  | reqmanHandler
  | resmanHandler
  | forkchildHandler
  | ignore
  deriving DecidableEq, Repr

/-- A process, as far as `SIGTERM` goes, with its copy of `done`. -/
structure Process where
  sigterm : Disposition
  pending : Bool
  done : Int
  deriving DecidableEq, Repr

/-- What a handler sends: `SIGTERM` to `pid`, or `SIGUSR1` to the parent. -/
inductive Kill where
  | pidTerm
  | parentUsr1
  deriving DecidableEq, Repr

def forkmanHandler1 (p : Process) : Process × Option Kill :=
  ({ p with sigterm := .forkmanHandler2 }, some .pidTerm)

def forkmanHandler2 (p : Process) : Process × Option Kill :=
  ({ p with sigterm := .ignore, done := 1 }, none)

def reqmanHandler (p : Process) : Process × Option Kill :=
  ({ p with sigterm := .resmanHandler, done := 1 }, none)

def resmanHandler (p : Process) : Process × Option Kill :=
  let done := p.done + 1
  ({ p with done, sigterm := if done ≥ 3 then .ignore else p.sigterm },
    if done = 2 then some .parentUsr1 else none)

/-- `forkchild_handler` for `SIGTERM`. -/
def forkchildHandler (p : Process) : Process × Option Kill :=
  ({ p with sigterm := .ignore, done := 1 }, none)

/-- A pending `SIGTERM` is delivered. -/
def Process.deliver (p : Process) : Process × Option Kill :=
  let p := { p with pending := false }
  match p.sigterm with
  | .forkmanHandler1 => forkmanHandler1 p
  | .forkmanHandler2 => forkmanHandler2 p
  | .reqmanHandler => reqmanHandler p
  | .resmanHandler => resmanHandler p
  | .forkchildHandler => forkchildHandler p
  | .ignore => (p, none)

/-- `SIGTERM` is sent to a process. -/
def Process.kill (p : Process) : Process :=
  if p.sigterm = .ignore then p else { p with pending := true }

/-- `fork`: the child inherits what `SIGTERM` does, and no pending signal. -/
def Process.fork (p : Process) : Process := { p with pending := false }

/-! ## The parties -/

/-- `do_forks_manager`. -/
inductive ForkPc where
  /-- In the loop. -/
  | accepting
  | forked
  /-- In `++cnt_forks`, which has read the counter. -/
  | counting (cnt : Int)
  /-- After `kill(0, SIGTERM)`. -/
  | waiting
  | finished
  deriving DecidableEq, Repr

/-- `do_requests_manager`. -/
inductive RequestsPc where
  | accepting
  | exited
  deriving DecidableEq, Repr

/-- A connection to the results socket, with what has been sent on it. -/
structure Connection (ω μ : Type) where
  sender : ω
  message : Option μ
  deriving DecidableEq, Repr

/-- `do_responses_manager`. -/
inductive ResultsPc (ω μ : Type) where
  /-- At the check of `done != 3`. -/
  | checking
  | accepting
  /-- In `threads_read_results`. -/
  | reading (conn : Connection ω μ)
  | left
  deriving DecidableEq, Repr

inductive WorkerPc where
  | absent
  /-- `forks_add` has not yet called `signal`. -/
  | forked
  | running
  /-- Connected to the results socket, the message not sent. -/
  | connected
  | exited
  /-- `wait` has returned it. -/
  | reaped
  deriving DecidableEq, Repr

structure State (ω μ : Type) where
  /-- The `SIGTERM` from outside has been sent. -/
  stopped : Bool
  fork : Process
  forkPc : ForkPc
  cntForks : Int
  resmanDone : Bool
  /-- `SIGUSR1` and `SIGCHLD` are pending for the fork manager. -/
  usr1 : Bool
  chld : Bool
  threads : Process
  cntThreads : Nat
  requests : RequestsPc
  results : ResultsPc ω μ
  /-- `threads_shutdown` has written the data file. -/
  written : Bool
  worker : ω → WorkerPc
  proc : ω → Process
  backlog : List (Connection ω μ)
  /-- The messages workers have sent, and those `threads_read_results` has read and applied. -/
  sent : List (ω × μ)
  applied : List (ω × μ)

/-- The manager has started: no worker, no request, no signal. -/
def start : State ω μ where
  stopped := false
  fork := ⟨.forkmanHandler1, false, 0⟩
  forkPc := .accepting
  cntForks := 0
  resmanDone := false
  usr1 := false
  chld := false
  threads := ⟨.reqmanHandler, false, 0⟩
  cntThreads := 0
  requests := .accepting
  results := .checking
  written := false
  worker := fun _ => .absent
  proc := fun _ => ⟨.forkmanHandler1, false, 0⟩
  backlog := []
  sent := []
  applied := []

/-- The process can be signalled. -/
def WorkerPc.alive : WorkerPc → Bool
  | forked | running | connected => true
  | _ => false

/-- Send what a handler sends. -/
def State.send (s : State ω μ) : Option Kill → State ω μ
  | none => s
  | some .pidTerm => { s with threads := s.threads.kill }
  | some .parentUsr1 => { s with usr1 := true }

/-! ## Steps -/

inductive ForkEvent (ω : Type) where
  /-- `SIGTERM`, `SIGUSR1` and `SIGCHLD` are delivered. -/
  | term
  | usr1
  | chld (w : ω)
  | fork (w : ω)
  | readCnt
  | writeCnt
  | killGroup
  | finish
  deriving DecidableEq, Repr

inductive ThreadsEvent where
  | term
  | request
  | requestEnds
  | requestsEnd
  | check
  | accept
  | read
  | shutdown
  deriving DecidableEq, Repr

inductive WorkEvent (μ : Type) where
  | term
  | signal
  | connect
  | send (m : μ)
  | exit
  deriving DecidableEq, Repr

inductive Event (ω μ : Type) where
  /-- `SIGTERM` is sent to the fork manager. -/
  | stop
  | fork (e : ForkEvent ω)
  | threads (e : ThreadsEvent)
  | work (w : ω) (e : WorkEvent μ)
  deriving DecidableEq, Repr

section Exec

variable [DecidableEq ω]

def State.setWorker (s : State ω μ) (w : ω) (pc : WorkerPc) : State ω μ :=
  { s with worker := Function.update s.worker w pc }

/-- `kill(0, SIGTERM)`. -/
def State.killGroup (s : State ω μ) : State ω μ :=
  { s with
    fork := s.fork.kill
    threads := s.threads.kill
    proc := fun w => if (s.worker w).alive then (s.proc w).kill else s.proc w }

/-- The steps of the fork manager: its handlers and `do_forks_manager`. A fork request may come at
any time. -/
def forkStep (s : State ω μ) (e : ForkEvent ω) : Option (State ω μ) :=
  match s.forkPc, e with
  | _, .term =>
    if s.fork.pending then
      some ({ s with fork := s.fork.deliver.1 }.send s.fork.deliver.2)
    else none
  | _, .usr1 =>
    -- `forkman_resman_done`
    if s.usr1 then some { s with usr1 := false, resmanDone := true } else none
  | _, .chld w =>
    -- `child_done_handler`: `wait` returns one of the children that have exited.
    if s.chld ∧ s.worker w = .exited then
      some ({ s with chld := false, cntForks := s.cntForks - 1 }.setWorker w .reaped)
    else none
  | .accepting, .fork w =>
    if s.worker w = .absent then
      some ({ s with
        forkPc := .forked
        proc := Function.update s.proc w s.fork.fork }.setWorker w .forked)
    else none
  | .forked, .readCnt => some { s with forkPc := .counting s.cntForks }
  | .counting cnt, .writeCnt => some { s with forkPc := .accepting, cntForks := cnt + 1 }
  | .accepting, .killGroup =>
    if s.fork.done ≠ 0 then some { s.killGroup with forkPc := .waiting } else none
  | .waiting, .finish =>
    if s.cntForks = 0 ∧ s.resmanDone then
      some { s with forkPc := .finished, threads := s.threads.kill }
    else none
  | _, _ => none

/-- The steps of the threads manager: its handlers, the requests thread with its request threads,
the results thread, and `threads_shutdown` once both are joined. -/
def threadsStep (s : State ω μ) (e : ThreadsEvent) : Option (State ω μ) :=
  match s.requests, s.results, e with
  | _, _, .term =>
    if s.threads.pending then
      some ({ s with threads := s.threads.deliver.1 }.send s.threads.deliver.2)
    else none
  | .accepting, _, .request => some { s with cntThreads := s.cntThreads + 1 }
  | _, _, .requestEnds =>
    if 0 < s.cntThreads then some { s with cntThreads := s.cntThreads - 1 } else none
  | .accepting, _, .requestsEnd =>
    if s.threads.done ≠ 0 ∧ s.cntThreads = 0 then
      some { s with requests := .exited, fork := s.fork.kill }
    else none
  | _, .checking, .check =>
    some { s with results := if s.threads.done ≠ 3 then .accepting else .left }
  | _, .accepting, .accept =>
    match s.backlog with
    | [] => some { s with results := .checking }
    | conn :: backlog => some { s with results := .reading conn, backlog }
  | _, .reading ⟨sender, some m⟩, .read =>
    some { s with results := .checking, applied := s.applied ++ [(sender, m)] }
  | .exited, .left, .shutdown => some { s with written := true }
  | _, _, _ => none

/-- A message on the connection a worker has made and not used. -/
def Connection.fill (w : ω) (m : μ) (conn : Connection ω μ) : Connection ω μ :=
  if conn.sender = w ∧ conn.message.isNone then { conn with message := some m } else conn

def ResultsPc.fill (w : ω) (m : μ) : ResultsPc ω μ → ResultsPc ω μ
  | reading conn => reading (conn.fill w m)
  | pc => pc

/-- The steps of a worker. -/
def workStep (s : State ω μ) (w : ω) (e : WorkEvent μ) : Option (State ω μ) :=
  match s.worker w, e with
  | pc, .term =>
    if pc.alive ∧ (s.proc w).pending then
      some ({ s with proc := Function.update s.proc w (s.proc w).deliver.1 }.send
        (s.proc w).deliver.2)
    else none
  | .forked, .signal =>
    some ({ s with
      proc := Function.update s.proc w { s.proc w with sigterm := .forkchildHandler } }.setWorker w
        .running)
  | .running, .connect =>
    some ({ s with backlog := s.backlog ++ [(⟨w, none⟩ : Connection ω μ)] }.setWorker w .connected)
  | .connected, .send m =>
    some ({ s with
      backlog := s.backlog.map (Connection.fill w m)
      results := s.results.fill w m
      sent := s.sent ++ [(w, m)] }.setWorker w .running)
  | .running, .exit => some ({ s with chld := true }.setWorker w .exited)
  | _, _ => none

def exec (s : State ω μ) : Event ω μ → Option (State ω μ)
  | .stop => if s.stopped then none else some { s with stopped := true, fork := s.fork.kill }
  | .fork e => forkStep s e
  | .threads e => threadsStep s e
  | .work w e => workStep s w e

/-- The parties run in any order. -/
def system : Lts.System (State ω μ) (Event ω μ) where
  init s := s = start
  step s e s' := exec s e = some s'

end Exec

end DiskAnalyzer.Shutdown
