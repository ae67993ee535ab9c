import DiskAnalyzer.Lib.Run
import DiskAnalyzer.Threads
import DiskAnalyzer.TreapProof

/-!
# The manager and its workers, one locked section at a time

Any number of add and remove requests run beside the results thread and the workers. A step is one
section between a lock and its unlock, or one access to shared data outside of them. Analyses are
named by the add request that made them, remove requests by `ρ`; the results thread removes as
`none`.

A node of the two treaps is an address; `anal` is the field of that name of the node there, so a
thread that keeps a pointer to a node reads what others have written into it. Addresses are drawn
from a counter and not used again. A step that follows a `NULL` pointer or one to freed memory does
not exist.

Signals come from `threads_remove` only: nobody stops the manager here.
-/

namespace DiskAnalyzer.Concurrent

open Treap

variable {κ ρ : Type}

/-- The first byte of a result message. -/
inductive Result where
  | failed
  | complete
  | progress
  deriving DecidableEq, Repr

/-- A result message, with the worker that sent it (which the bytes do not say). -/
structure Message (κ : Type) where
  result : Result
  id : Int
  cntDirs : Int
  cntFiles : Int
  sender : κ
  deriving DecidableEq, Repr

/-- A detached node. -/
structure Node where
  id : Int
  heapVal : Int
  addr : Nat
  deriving DecidableEq, Repr

def Node.toTreap (nd : Node) : Treap Nat := node nd.id nd.heapVal nd.addr nil nil

/-- The node an extraction returns. -/
def detached : Treap Nat → Option Node
  | nil => none
  | node id heapVal addr _ _ => some ⟨id, heapVal, addr⟩

/-- An analysis's file, with the worker that wrote it. -/
inductive File (κ : Type) where
  | absent
  | empty
  | progress (writer : κ)
  | report (writer : κ)
  deriving DecidableEq, Repr

/-! ## Where the parties stand -/

/-- `request_thread` in `threads_add`: what it has done last. -/
inductive AddPc where
  | ready
  | checked
  | taken (nd : Node)
  | attached (nd : Node)
  /-- An allocation has failed. -/
  | noMemory (nd : Node)
  | pathed (nd : Node)
  | stored (nd : Node)
  | requested (nd : Node)
  | answered (nd : Node)
  /-- `fork_request` has returned 1. -/
  | refused (nd : Node)
  | extracted (trp : Option Node)
  | unpathed (trp : Option Node)
  | failed
  | released
  | done
  deriving DecidableEq, Repr

/-- `threads_remove`. -/
inductive RemovePc where
  | idle
  | called (id : Int)
  | extracted (trp : Node)
  | unlinked (trp : Node)
  | signalled (trp : Node)
  | unpathed (trp : Node)
  /-- The node is back among the free ids; `trp` still points to it. -/
  | given (trp : Node)
  | reported (trp : Node)
  | pathFreed (trp : Node)
  | recordFreed (trp : Node)
  | returned
  deriving DecidableEq, Repr

/-- `forks_add` in the worker. -/
inductive WorkerPc where
  | absent
  | forked (id : Int)
  | replied (id : Int)
  /-- In `forks_solve`, before and past the check of `*interrupted`. -/
  | solving (id : Int)
  | passed (id : Int)
  /-- `forks_solve` has returned 0; `*interrupted` was not set. -/
  | solved (id : Int)
  | announcing (id : Int)
  | writing (id : Int)
  | exited
  deriving DecidableEq, Repr

/-- `threads_read_results`. -/
inductive ResultsPc (κ : Type) where
  | accepting
  | got (m : Message κ)
  | removing (m : Message κ)
  deriving DecidableEq, Repr

structure State (κ ρ : Type) where
  analysisCnt : Int
  analyses : Treap Nat
  paths : Tree Int
  availableIds : Treap Nat
  /-- The address the next node gets. -/
  next : Nat
  anal : Nat → Option κ
  heap : κ → Analysis
  /-- `free` of the record's path, and of the record. -/
  pathFreed : κ → Bool
  freed : κ → Bool
  add : κ → AddPc
  remove : Option ρ → RemovePc
  worker : κ → WorkerPc
  /-- The worker has sent its pid. -/
  replied : κ → Bool
  /-- `SIGINT` has reached the worker. -/
  interrupted : κ → Bool
  file : Int → File κ
  msgs : List (Message κ)
  results : ResultsPc κ

/-! ## Steps -/

inductive AddEvent where
  | notDirectory
  | findPrefix
  | getFreeId (rand : Option Int)
  | attach
  | mallocFails
  | treeInsert (alloc : Alloc)
  | insertNode (now : Int)
  | connect
  | connectFails
  | answer
  | answerFails
  | finish
  | extract
  | treeRemove
  | returnId
  | release
  deriving DecidableEq, Repr

inductive RemoveEvent where
  | call (id : Int)
  | extract
  | unlink
  | signal
  | treeRemove
  | insertNode
  | report
  | freePath
  | freeRecord
  | clear
  deriving DecidableEq, Repr

inductive WorkEvent where
  /-- The request cannot be read; `man->id` holds what it held. -/
  | readPathFails (garbage : Int)
  | sendPid
  | sendPidFails
  | readProgressFails
  | readProgress
  | checkInterrupted
  | sendProgress (cntDirs cntFiles : Int)
  | readEntry
  | solveFails
  | solveEnds
  | announce (cntDirs cntFiles : Int)
  | write
  deriving DecidableEq, Repr

inductive ResultsEvent where
  | read (i : Nat)
  | readFails (i : Nat)
  | apply (now : Int)
  deriving DecidableEq, Repr

inductive Event (κ ρ : Type) where
  | add (k : κ) (e : AddEvent)
  | remove (r : Option ρ) (e : RemoveEvent)
  /-- `delivered`: what the worker sends in this step, if anything, arrives. -/
  | work (k : κ) (e : WorkEvent) (delivered : Bool)
  | results (e : ResultsEvent)
  deriving DecidableEq, Repr

section Exec

variable [DecidableEq κ] [DecidableEq ρ]

namespace State

def setAdd (s : State κ ρ) (k : κ) (pc : AddPc) : State κ ρ :=
  { s with add := Function.update s.add k pc }

def setRemove (s : State κ ρ) (r : Option ρ) (pc : RemovePc) : State κ ρ :=
  { s with remove := Function.update s.remove r pc }

def setAnal (s : State κ ρ) (addr : Nat) (k : Option κ) : State κ ρ :=
  { s with anal := Function.update s.anal addr k }

/-- Write to a record. -/
def modify (s : State κ ρ) (k : κ) (f : Analysis → Analysis) : State κ ρ :=
  { s with heap := Function.update s.heap k (f (s.heap k)) }

end State

/-- `return_id`; the node is never `NULL` when this is reached. -/
def giveBack (s : State κ ρ) (nd : Node) : State κ ρ :=
  { s.setAnal nd.addr none with availableIds := DiskAnalyzer.returnId s.availableIds nd.toTreap }

/-- The steps of `threads_add`, and the `free`s of `request_thread` after it has failed. `pidOf` is
the pid of an analysis's worker. -/
def addStep (pidOf : κ → Int) (s : State κ ρ) (k : κ) (e : AddEvent) : Option (State κ ρ) :=
  match s.add k, e with
  | .ready, .notDirectory => some (s.setAdd k .failed)
  | .ready, .findPrefix =>
    some (s.setAdd k
      (if (treeFindPrefix s.paths (s.heap k).path).isSome then .failed else .checked))
  | .checked, .getFreeId rand =>
    let (newId, availableIds) := getFreeId rand s.next s.availableIds
    some (({ s with availableIds, next := s.next + 1 }.setAnal s.next none).setAdd k
      (match detached newId with
        | none => .failed
        | some nd => .taken nd))
  | .taken nd, .attach => some ((s.setAnal nd.addr (some k)).setAdd k (.attached nd))
  | .attached nd, .mallocFails => some (s.setAdd k (.noMemory nd))
  | .attached nd, .treeInsert alloc =>
    let (ret, paths) := DiskAnalyzer.treeInsert s.paths (s.heap k).path (some nd.id) alloc
    some ({ s with paths }.setAdd k (if ret ≠ 0 then .noMemory nd else .pathed nd))
  | .noMemory nd, .returnId => some ((giveBack s nd).setAdd k .failed)
  | .pathed nd, .insertNode now =>
    some (({ s with analyses := treapInsertNode s.analyses nd.toTreap }.modify k
      fun anal => { anal with lastStart := now }).setAdd k (.stored nd))
  | .stored nd, .connect =>
    -- `*id` is the trie's; `anal->path` is read.
    if s.pathFreed k = false ∧
        (treeGetPath s.paths (s.heap k).path).bind Tree.info = some nd.id then
      some ({ s with worker := Function.update s.worker k (.forked nd.id) }.setAdd k
        (.requested nd))
    else none
  | .stored nd, .connectFails => some (s.setAdd k (.refused nd))
  | .requested nd, .answer =>
    if s.replied k ∧ s.freed k = false then
      some ((s.modify k fun anal => { anal with pid := pidOf k }).setAdd k (.answered nd))
    else none
  | .requested nd, .answerFails => some (s.setAdd k (.refused nd))
  | .answered _, .finish =>
    if s.freed k then none
    else
      some (({ s with analysisCnt := s.analysisCnt + 1 }.modify k
        fun anal => { anal with status := ANALYSIS_INPROGRESS }).setAdd k .done)
  | .refused nd, .extract =>
    let (trp, analyses) := treapExtract s.analyses nd.id
    some ({ s with analyses }.setAdd k (.extracted (detached trp)))
  | .extracted trp, .treeRemove =>
    if s.pathFreed k then none
    else
      some ({ s with paths := (DiskAnalyzer.treeRemove s.paths (s.heap k).path).2 }.setAdd k
        (.unpathed trp))
  | .unpathed (some trp), .returnId => some ((giveBack s trp).setAdd k .failed)
  | .failed, .release =>
    if s.pathFreed k ∨ s.freed k then none
    else
      some ({ s with
        pathFreed := Function.update s.pathFreed k true
        freed := Function.update s.freed k true }.setAdd k .released)
  | _, _ => none

/-- The worker is a process that can be signalled. -/
def WorkerPc.alive : WorkerPc → Bool
  | absent | exited => false
  | _ => true

/-- The record a node points to, when the pointer may be followed. -/
def State.deref (s : State κ ρ) (addr : Nat) : Option κ :=
  match s.anal addr with
  | none => none
  | some k => if s.freed k then none else some k

/-- The results thread goes on to the next message when its `threads_remove` returns. -/
def leave (s : State κ ρ) : Option ρ → State κ ρ
  | none => { s with results := .accepting }.setRemove none .idle
  | some r => s.setRemove (some r) .returned

/-- The steps of `threads_remove`. -/
def removeStep (pidOf : κ → Int) (s : State κ ρ) (r : Option ρ) (e : RemoveEvent) :
    Option (State κ ρ) :=
  match s.remove r, e with
  | .idle, .call id => if r = none then none else some (s.setRemove r (.called id))
  | .called id, .extract =>
    let (trp, analyses) := treapExtract s.analyses id
    match detached trp with
    | none => some (leave { s with analyses } r)
    | some trp =>
      some ({ s with analyses, analysisCnt := s.analysisCnt - 1 }.setRemove r (.extracted trp))
  | .extracted trp, .unlink =>
    some ({ s with file := Function.update s.file trp.id .absent }.setRemove r (.unlinked trp))
  | .unlinked trp, .signal =>
    (s.deref trp.addr).map fun k =>
      let pid := (s.heap k).pid
      { s with
        interrupted := fun w =>
          s.interrupted w || (pid ≠ -1 && pidOf w = pid && (s.worker w).alive) }.setRemove r
        (.signalled trp)
  | .signalled trp, .treeRemove =>
    (s.deref trp.addr).bind fun k =>
      if s.pathFreed k then none
      else
        some ({ s with paths := (DiskAnalyzer.treeRemove s.paths (s.heap k).path).2 }.setRemove r
          (.unpathed trp))
  | .unpathed trp, .insertNode =>
    some ({ s with availableIds := treapInsertNode s.availableIds trp.toTreap }.setRemove r
      (.given trp))
  | .given trp, .report =>
    (s.deref trp.addr).bind fun k =>
      if s.pathFreed k then none else some (s.setRemove r (.reported trp))
  | .reported trp, .freePath =>
    (s.deref trp.addr).bind fun k =>
      if s.pathFreed k then none
      else
        some ({ s with pathFreed := Function.update s.pathFreed k true }.setRemove r
          (.pathFreed trp))
  | .pathFreed trp, .freeRecord =>
    (s.deref trp.addr).map fun k =>
      { s with freed := Function.update s.freed k true }.setRemove r (.recordFreed trp)
  | .recordFreed trp, .clear => some (leave (s.setAnal trp.addr none) r)
  | _, _ => none

/-- The result message of a worker's step. -/
def workerSays (file : Int → File κ) (k : κ) : WorkerPc → WorkEvent → Option (Message κ)
  | .forked _, .readPathFails garbage => some ⟨.failed, garbage, 0, 0, k⟩
  | .forked id, .sendPidFails => some ⟨.failed, id, 0, 0, k⟩
  | .replied id, .readProgressFails => some ⟨.failed, id, 0, 0, k⟩
  | .replied id, .readProgress =>
    match file id with
    | .report _ => some ⟨.complete, id, 0, 0, k⟩
    | _ => none
  | .passed id, .sendProgress cntDirs cntFiles => some ⟨.progress, id, cntDirs, cntFiles, k⟩
  | .passed id, .solveFails => some ⟨.failed, id, 0, 0, k⟩
  | .announcing id, .announce cntDirs cntFiles => some ⟨.complete, id, cntDirs, cntFiles, k⟩
  | _, _ => none

/-- Where a worker's step leads. -/
def workerGoes (file : Int → File κ) (interrupted : Bool) : WorkerPc → WorkEvent → Option WorkerPc
  | .forked _, .readPathFails _ => some .exited
  | .forked _, .sendPidFails => some .exited
  | .forked id, .sendPid => some (.replied id)
  | .replied _, .readProgressFails => some .exited
  | .replied id, .readProgress =>
    match file id with
    | .report _ => some .exited
    | _ => some (.solving id)
  | .solving id, .checkInterrupted => some (if interrupted then .solved id else .passed id)
  | .passed id, .sendProgress _ _ => some (.passed id)
  | .passed id, .readEntry => some (.solving id)
  | .passed _, .solveFails => some .exited
  | .passed id, .solveEnds => some (.solved id)
  | .solved id, .checkInterrupted => some (if interrupted then .exited else .announcing id)
  | .announcing id, .announce _ _ => some (.writing id)
  | .writing _, .write => some .exited
  | _, _ => none

/-- What a worker's step does to the files: `open` with `O_CREAT`, and the report. -/
def workerWrites (file : Int → File κ) (k : κ) : WorkerPc → WorkEvent → Int → File κ
  | .replied id, .readProgress =>
    if file id = .absent then Function.update file id .empty else file
  | .writing id, .write => Function.update file id (.report k)
  | _, _ => file

/-- The steps of a worker. -/
def workStep (s : State κ ρ) (k : κ) (e : WorkEvent) (delivered : Bool) : Option (State κ ρ) :=
  (workerGoes s.file (s.interrupted k) (s.worker k) e).map fun pc =>
    { s with
      worker := Function.update s.worker k pc
      replied := Function.update s.replied k (s.replied k || e == .sendPid)
      file := workerWrites s.file k (s.worker k) e
      msgs := if delivered then (workerSays s.file k (s.worker k) e).toList ++ s.msgs else s.msgs }

/-- What the section of `threads_read_results` does to the record it has found. -/
def applied (m : Message κ) (now : Int) (anal : Analysis) : Analysis :=
  let anal := { anal with
    cntDirs := anal.cntDirs + m.cntDirs
    cntFiles := anal.cntFiles + m.cntFiles }
  if m.result = .complete then
    { anal with
      status := ANALYSIS_COMPLETE
      totalTime := anal.totalTime + (now - anal.lastStart) }
  else anal

/-- The steps of `threads_read_results`. Messages arrive in any order. -/
def resultsStep (s : State κ ρ) (e : ResultsEvent) : Option (State κ ρ) :=
  match s.results, e with
  | .accepting, .read i =>
    s.msgs[i]?.map fun m =>
      let s := { s with msgs := s.msgs.eraseIdx i }
      if m.result = .failed then { s with results := .removing m }.setRemove none (.called m.id)
      else { s with results := .got m }
  | .accepting, .readFails i =>
    if i < s.msgs.length then some { s with msgs := s.msgs.eraseIdx i } else none
  | .got m, .apply now =>
    match treapFind s.analyses m.id with
    | none => some { s with results := .accepting }
    | some addr =>
      (s.deref addr).map fun k => { s with results := .accepting }.modify k (applied m now)
  | _, _ => none

def exec (pidOf : κ → Int) (s : State κ ρ) : Event κ ρ → Option (State κ ρ)
  | .add k e => addStep pidOf s k e
  | .remove r e => removeStep pidOf s r e
  | .work k e delivered => workStep s k e delivered
  | .results e => resultsStep s e

end Exec

/-- The addresses of a treap's nodes. -/
def addrs (t : Treap Nat) : List Nat := t.inorder.map fun e => e.2.2

/-- The threads manager after `threads_startup`: restored analyses count as added, their workers
have replied with their pids, and the records of add requests to come are as `request_thread`
fills them. -/
structure Loaded (pidOf : κ → Int) (s : State κ ρ) : Prop where
  nodes : (addrs s.analyses ++ addrs s.availableIds).Nodup
  next : ∀ a ∈ addrs s.analyses ++ addrs s.availableIds, a < s.next
  cnt : s.analysisCnt = s.analyses.size
  stored : ∀ i h n, (i, h, n) ∈ s.analyses.inorder → ∃ k, s.anal n = some k ∧ s.add k = .done ∧
    (treeGetPath s.paths (s.heap k).path).bind Tree.info = some i ∧
    if (s.heap k).status = ANALYSIS_COMPLETE then s.worker k = .absent ∧ (s.heap k).pid = -1
    else s.worker k = .replied i ∧ (s.heap k).pid = pidOf k
  free : ∀ i h n, (i, h, n) ∈ s.availableIds.inorder → i ∉ s.analyses.ids ∧ s.anal n = none
  add : ∀ k, s.add k = .done ∨ s.add k = .ready ∧ (s.heap k).status = ANALYSIS_PENDING ∧
    s.worker k = .absent
  heap : ∀ k, s.pathFreed k = false ∧ s.freed k = false
  remove : ∀ r, s.remove r = .idle
  interrupted : ∀ k, s.interrupted k = false
  msgs : s.msgs = []
  results : s.results = .accepting

/-- The manager over an empty data file: id 1 is free. `rand` is the heap value of its node, `path`
gives the paths of the add requests to come. -/
def emptyManager (rand : Int) (path : κ → Bytes) : State κ ρ where
  analysisCnt := 0
  analyses := nil
  paths := treeInit
  availableIds := node 1 rand 0 nil nil
  next := 1
  anal := fun _ => none
  heap := fun k => ⟨0, 0, 0, 0, path k, 1, ANALYSIS_PENDING, ANALYSIS_RESUMED, 0⟩
  pathFreed := fun _ => false
  freed := fun _ => false
  add := fun _ => .ready
  remove := fun _ => .idle
  worker := fun _ => .absent
  replied := fun _ => false
  interrupted := fun _ => false
  file := fun _ => .absent
  msgs := []
  results := .accepting

theorem loaded_emptyManager (pidOf : κ → Int) (rand : Int) (path : κ → Bytes) :
    Loaded pidOf (emptyManager rand path : State κ ρ) where
  nodes := by simp [emptyManager, addrs]
  next := by simp [emptyManager, addrs]
  cnt := rfl
  stored := by simp [emptyManager]
  free := by simp [emptyManager]
  add := fun _ => Or.inr ⟨rfl, rfl, rfl⟩
  heap := fun _ => ⟨rfl, rfl⟩
  remove := fun _ => rfl
  interrupted := fun _ => rfl
  msgs := rfl
  results := rfl

/-- The parties run in any order. -/
def system (pidOf : κ → Int) [DecidableEq κ] [DecidableEq ρ] :
    Lts.System (State κ ρ) (Event κ ρ) where
  init := Loaded pidOf
  step s e s' := exec pidOf s e = some s'

end DiskAnalyzer.Concurrent
