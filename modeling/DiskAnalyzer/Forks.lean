import DiskAnalyzer.Fts
import DiskAnalyzer.Report

/-!
# `forks_manager.c`: a worker's traversal

A worker walks the stream of its directory with one frame of `forks_fts_parc` a directory, each
frame writing to its node of the tree of sizes. It polls the flags its signal handlers set, and
sends a progress message whenever a second has passed since the traversal began.

Time runs in ticks: every read of `*done` or `*interrupted` is one, and a signal sets its flag
before one of them (`none`: never). What the clock shows and whether a message arrives depends on
the tick. `*suspended` delays the worker and changes nothing else.

Allocation succeeds.
-/

namespace DiskAnalyzer

open Decimal

/-- A message `forks_send_result` has built: its code, its counts (0 when they are left out), and
whether it has arrived. -/
structure Sent where
  result : Nat
  cntDirs : Int
  cntFiles : Int
  delivered : Bool
  deriving DecidableEq, Repr

/-- `struct forks_manager` in a worker, with the ticks passed and the messages built, last first.
The tree is passed on its own. -/
structure ForksManager where
  id : Int
  path : Bytes
  cntDirs : Int
  cntFiles : Int
  lastSend : Int
  tick : Nat
  sent : List Sent
  deriving DecidableEq, Repr

/-- When the signals arrive, what `time(NULL)` returns, and which messages arrive. -/
structure WorkerEnv where
  sigterm : Option Nat
  sigint : Option Nat
  now : Nat → Int
  delivers : Nat → Bool

namespace WorkerEnv

/-- `*(man->done)`. -/
def done (env : WorkerEnv) (tick : Nat) : Bool := env.sigterm.any (· ≤ tick)

/-- The flag stays set. -/
theorem done_mono {env : WorkerEnv} {m n : Nat} (h : env.done m = true) (hmn : m ≤ n) :
    env.done n = true := by
  unfold done at h ⊢
  cases hsig : env.sigterm with
  | none => simp [hsig] at h
  | some k =>
    simp only [hsig, Option.any_some, decide_eq_true_eq] at h ⊢
    omega

/-- `*(man->interrupted)`. -/
def interrupted (env : WorkerEnv) (tick : Nat) : Bool := env.sigint.any (· ≤ tick)

theorem interrupted_mono {env : WorkerEnv} {m n : Nat} (h : env.interrupted m = true)
    (hmn : m ≤ n) : env.interrupted n = true := by
  unfold interrupted at h ⊢
  cases hsig : env.sigint with
  | none => simp [hsig] at h
  | some k =>
    simp only [hsig, Option.any_some, decide_eq_true_eq] at h ⊢
    omega

end WorkerEnv

namespace ForksManager

def ticked (man : ForksManager) : ForksManager := { man with tick := man.tick + 1 }

/-- The counters. -/
def count (man : ForksManager) : FtsEnt → ForksManager
  | .leaf .FTS_DEFAULT _ _ | .leaf .FTS_F _ _ | .leaf .FTS_SL _ _ | .leaf .FTS_SLNONE _ _ =>
    { man with cntFiles := man.cntFiles + 1 }
  | .FTS_D _ _ | .leaf .FTS_DC _ _ | .leaf .FTS_DOT _ _ => { man with cntDirs := man.cntDirs + 1 }
  | _ => man

end ForksManager

/-- `forks_send_result`. A failing worker's message has no counts, but they are reset all the
same. -/
def forksSendResult (env : WorkerEnv) (man : ForksManager) (result : Nat) : ForksManager :=
  let msg : Sent :=
    if result = 0 then ⟨0, 0, 0, env.delivers man.tick⟩
    else ⟨result, man.cntDirs, man.cntFiles, env.delivers man.tick⟩
  { man with cntDirs := 0, cntFiles := 0, sent := msg :: man.sent }

/-- The progress message. `last_send` stays. -/
def sendProgress (env : WorkerEnv) (man : ForksManager) : ForksManager :=
  if 1 ≤ env.now man.tick - man.lastSend then forksSendResult env man 2 else man

namespace Tree

/-- Writing to the state of a node that has one. -/
def modifyState (curr : Tree State) (f : State → State) : Tree State :=
  .mk (curr.info.map f) curr.hsh

/-- `((struct state *)(curr->info))->size += size`. -/
def addSize (curr : Tree State) (size : Int) : Tree State :=
  curr.modifyState fun st => { st with size := wrap32 (st.size + size) }

/-- `curr->info && ((struct state *)(curr->info))->done`. -/
def isDone (curr : Tree State) : Bool := curr.info.any fun st => st.done ≠ 0

/-- `((struct state *)(curr->info))->size`, of a node that has a state. -/
def stateSize (curr : Tree State) : Int := (curr.info.map State.size).getD 0

/-- The first statement of `forks_fts_parc`. -/
def enter (curr : Tree State) : Tree State :=
  match curr.info with
  | some _ => curr
  | none => .mk (some ⟨0, 0⟩) curr.hsh

end Tree

/-- Where a frame of `forks_fts_parc` has got to. -/
structure Parc where
  ret : Int
  man : ForksManager
  curr : Tree State
  ftsp : Fts

/-- The entries that end the traversal with an error. -/
def FtsLeaf.fails : FtsLeaf → Bool
  | FTS_DNR | FTS_ERR | FTS_NS | FTS_NSOK => true
  | _ => false

/-- A round of the loop up to the first `switch`. -/
def polled (env : WorkerEnv) (man : ForksManager) (nxt : FtsEnt) : ForksManager :=
  (sendProgress env man.ticked).count nxt

/-- The child for a directory's name is made when it is missing. -/
def withChild (curr : Tree State) (name : Bytes) : Tree State :=
  if (hashFind curr.hsh name).isNone then (treeInsert curr name none none).2 else curr

/-- The loop of `forks_fts_parc`, in a frame whose node has a state. `fuel` bounds the entries
read; `none` is a traversal that needs more, or that reads through a `NULL` pointer. -/
def forksFtsParc (env : WorkerEnv) : Nat → ForksManager → Tree State → Fts → Option Parc
  | 0, _, _, _ => none
  | fuel + 1, man, curr, ftsp =>
    if env.interrupted man.tick then some ⟨0, man.ticked, curr, ftsp⟩
    else
      match ftsRead ftsp with
      | none => none
      | some (.leaf info name size, ftsp) =>
        let man := polled env man (.leaf info name size)
        if info.fails then some ⟨1, man, curr, ftsp⟩
        else forksFtsParc env fuel man (curr.addSize size) ftsp
      | some (.FTS_D name size, ftsp) =>
        let man := polled env man (.FTS_D name size)
        if env.done man.tick then some ⟨0, man.ticked, curr, ftsp⟩
        else
          let man := man.ticked
          let curr := withChild curr name
          match hashFind curr.hsh name with
          | none => none
          | some chld =>
            if curr.isDone then forksFtsParc env fuel man curr (ftsSkip ftsp)
            else
              match forksFtsParc env fuel man chld.enter ftsp with
              | none => none
              | some ⟨ret, man, chld, ftsp⟩ =>
                if ret ≠ 0 then some ⟨1, man, curr.setChild name chld, ftsp⟩
                else
                  forksFtsParc env fuel man ((curr.setChild name chld).addSize chld.stateSize) ftsp
      | some (.FTS_DP, ftsp) =>
        some ⟨0, polled env man .FTS_DP, curr.modifyState fun st => { st with done := 1 }, ftsp⟩

/-- Writing through the pointer `tree_get_path` returned. -/
def treeSetPath (tre : Tree State) (path : Bytes) (node : Tree State) : Tree State :=
  if h : skipSlashes path = [] then node
  else
    have := length_afterComponent_lt h
    let parse := skipSlashes path
    match hashFind tre.hsh parse with
    | some nxt => tre.setChild parse (treeSetPath nxt (afterComponent parse) node)
    | none => tre
termination_by path.length

/-- What `forks_solve` returns and leaves behind. -/
structure Solved where
  ret : Int
  man : ForksManager
  tre : Tree State

/-- `forks_solve` on the stream of the analysed directory, `none` when `fts_open` fails. The first
`fts_read` returns that directory's `FTS_D`, which nobody looks at. -/
def forksSolve (env : WorkerEnv) (fuel : Nat) (man : ForksManager) (tre : Tree State)
    (root : Option Entries) : Option Solved :=
  let tre := (treeInsert tre man.path none none).2
  match treeGetPath tre man.path with
  | none => none
  | some curr =>
    if curr.isDone then some ⟨0, man, tre⟩
    else
      match root with
      | none => some ⟨1, man, tre⟩
      | some entries =>
        (forksFtsParc env fuel { man with lastSend := env.now man.tick } curr.enter [entries]).map
          fun parc => ⟨if parc.ret ≠ 0 then 1 else 0, parc.man, treeSetPath tre man.path parc.curr⟩

/-! ## From the request to the exit -/

/-- `forks_read_progress` on what the file holds: the return value and the tree. `none` is a use of
memory that is not its own, or a file that needs more fuel. -/
def forksReadProgress (fuel : Nat) (file : Bytes) : Option (Int × Tree State) :=
  match file with
  | [] => some (0, treeInit)
  | type :: fd =>
    if type = 49 then some (1, treeInit)
    else if type = 0 then some (0, treeInit)
    else
      match treeBuild fuel treeInit fd with
      | none => none
      | some (.error .undefined) => none
      | some (.error .error) => some (-1, treeInit)
      | some (.ok (tre, _)) => some (0, tre)

/-- The bytes `forks_save` writes. -/
def forksSave (tre : Tree State) : Bytes := str "0" ++ treeSave tre

/-- A worker that has returned from `forks_add`: the messages it has built, last first, and what
its file holds. -/
structure WorkerExit where
  ret : Int
  sent : List Sent
  file : Bytes

/-- `forks_add` behind `forks_solve`, which has returned 0: the decision, read twice. -/
def forksFinish (env : WorkerEnv) (fmt : Printing) (fuel : Nat) (file : Bytes) (man : ForksManager)
    (tre : Tree State) : Option WorkerExit :=
  if env.interrupted man.tick then some ⟨0, man.sent, file⟩
  else
    let man := man.ticked
    let man := forksSendResult env man.ticked (if env.done man.tick then 2 else 1)
    if env.done man.tick = false then
      (forksWrite fmt fuel man.path tre).map fun report => ⟨0, man.sent, overwrite file report⟩
    else some ⟨0, man.sent, overwrite file (forksSave tre)⟩

/-- `forks_add` in the worker, from `forks_read_progress` on. -/
def forksAdd (env : WorkerEnv) (fmt : Printing) (fuel : Nat) (id : Int) (path : Bytes)
    (root : Option Entries) (file : Bytes) : Option WorkerExit :=
  let man : ForksManager := ⟨id, path, 0, 0, 0, 0, []⟩
  match forksReadProgress fuel file with
  | none => none
  | some (progress, tre) =>
    if progress < 0 then some ⟨-1, (forksSendResult env man 0).sent, file⟩
    else if 0 < progress then some ⟨0, (forksSendResult env man 1).sent, file⟩
    else
      match forksSolve env fuel man tre root with
      | none => none
      | some ⟨ret, man, tre⟩ =>
        if ret ≠ 0 then some ⟨0, (forksSendResult env man 0).sent, file⟩
        else forksFinish env fmt fuel file man tre

end DiskAnalyzer
