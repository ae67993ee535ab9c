import DiskAnalyzer.Memory.Tree
import DiskAnalyzer.Replies

/-!
# `threads_manager.c` on the memory

The operations of the store as they run, one at a time: the pointers they follow, the nodes they
move between the two treaps, the blocks they make and free. What `malloc` answers is in the memory;
the rest of what a request meets on its way is an argument, as in `DiskAnalyzer.Threads`. Sends
succeed.

The messages about an analysis are the model's, of a record that has the fields the message reads.
-/

namespace DiskAnalyzer.Memory

open Sep Decimal

/-! ## Members -/

/-- The members of a `struct threads_manager` at an address, without mutexes and sockets. -/
def analysisCntOf (man : Addr) : Addr := man.add 0
def analysesOf (man : Addr) : Addr := man.add 1
def pathsOf (man : Addr) : Addr := man.add 2
def availableIdsOf (man : Addr) : Addr := man.add 3

/-- `anal->path`, as the string it is. -/
def loadPath (anal : Addr) : Code Bytes := do loadStr (← deref (← loadPtr (pathOf anal)))

/-! ## Free ids -/

/-- `get_free_id`. `rand` is the heap value of a node it makes. -/
def getFreeId (fuel : Nat) (trp : Addr) (rand : Int) : Code Ptr := do
  match ← loadPtr trp with
  | none => return none
  | some t =>
    match ← loadPtr (chldRight t) with
    | some _ =>
      let id ← loadInt (idOf t)
      treapExtract fuel trp id
    | none =>
      match ← loadPtr (chldLeft t) with
      | some l =>
        let left ← loadInt (idOf l)
        treapExtract fuel trp left
      | none =>
        let id ← loadInt (idOf t)
        let ret ← (if id < ID_MAX then treapInsertNew fuel trp (id + 1) none rand else pure 0)
        if ret ≠ 0 then return none
        else treapExtract fuel trp id

/-- `(*trp) && !((*trp)->chld_left) && !((*trp)->chld_right)`. -/
def lone (trp : Addr) : Code Bool := do
  match ← loadPtr trp with
  | none => return false
  | some t =>
    match ← loadPtr (chldLeft t) with
    | some _ => return false
    | none =>
      let r ← loadPtr (chldRight t)
      return r.isNone

/-- `treap_remove(trp, (*trp)->id)`. -/
def removeRoot (fuel : Nat) (trp : Addr) : Code Unit := do
  let id ← loadInt (idOf (← deref (← loadPtr trp)))
  let _ ← treapRemove fuel trp id

/-- `return_id`. -/
def returnId (fuel : Nat) (trp : Addr) (nd : Ptr) : Code Unit := do
  let alone ← lone trp
  let _ ← (if alone then removeRoot fuel trp else pure ())
  store (analOf (← deref nd)) (.ptr none)
  treapInsertNode fuel trp nd

/-! ## Adding -/

/-- What `threads_add` meets on its way, beside `malloc`. -/
structure AddWorld where
  /-- `stat` succeeds and finds a directory. -/
  isDir : Bool
  /-- The heap value of a new free id. -/
  rand : Int
  /-- The pid `fork_request` reads, `none` when it returns 1. -/
  fork : Option Int
  /-- `time(NULL)`, as the `int` `last_start` holds it. -/
  now : Int
  deriving DecidableEq, Repr

/-- `fork_request(*id, anal)`: what it reads and writes of the memory. -/
def forkRequest (id anal : Addr) (fork : Option Int) : Code Int := do
  let _ ← loadInt id
  let _ ← loadPath anal
  match fork with
  | none => return 1
  | some pid =>
    store (pidOf anal) (int pid)
    let _ ← loadInt (priorityOf anal)
    return 0

/-- `analysis_created`. -/
def analysisCreated (fd id : Int) (anal : Addr) : Code Bytes := do
  let path ← loadPath anal
  let priority ← loadInt (priorityOf anal)
  return DiskAnalyzer.analysisCreated fd id (newAnalysis path priority (0, 0))

/-- `threads_add` from `fork_request` on. -/
def threadsAddFork (fuel : Nat) (env : AddWorld) (man anal newId id : Addr) (fd valId : Int) :
    Code (Int × Bytes) := do
  let ret ← forkRequest id anal env.fork
  if ret ≠ 0 then
    let trp ← treapExtract fuel (analysesOf man) (← loadInt (idOf newId))
    let path ← loadPath anal
    let _ ← treeRemove fuel (← deref (← loadPtr (pathsOf man))) path
    returnId fuel (availableIdsOf man) trp
    return (1, analysisCustomMessage fd
      (str "There was an error starting the analysis process. Try again.\n"))
  else
    let cnt ← loadInt (analysisCntOf man)
    store (analysisCntOf man) (int (cnt + 1))
    store (statusOf anal) (int ANALYSIS_INPROGRESS)
    let reply ← analysisCreated fd valId anal
    return (0, reply)

/-- `threads_add` once it holds a node. -/
def threadsAddNode (fuel : Nat) (env : AddWorld) (man anal newId : Addr) (fd : Int) :
    Code (Int × Bytes) := do
  let memError := analysisCustomMessage fd
    (str "There was a memory allocation error. Try again.\n")
  store (analOf newId) (.ptr (some anal))
  let valId ← loadInt (idOf newId)
  match ← malloc 1 with
  | none =>
    returnId fuel (availableIdsOf man) (some newId)
    return (1, memError)
  | some id =>
    store id (int valId)
    let path ← loadPath anal
    let ret ← treeInsert fuel (← deref (← loadPtr (pathsOf man))) path (some id)
    if ret ≠ 0 then
      free (some id)
      returnId fuel (availableIdsOf man) (some newId)
      return (1, memError)
    else
      store (lastStart anal) (int env.now)
      treapInsertNode fuel (analysesOf man) (some newId)
      threadsAddFork fuel env man anal newId id fd valId

/-- `threads_add`. -/
def threadsAdd (fuel : Nat) (env : AddWorld) (man anal : Addr) (fd : Int) : Code (Int × Bytes) := do
  let path ← loadPath anal
  if env.isDir = false then return (1, analysisPathNoExists fd path)
  else
    match ← treeFindPrefix fuel (← deref (← loadPtr (pathsOf man))) path with
    | some otherId =>
      let other ← loadInt otherId
      return (1, analysisPathAlreadyExists fd path other)
    | none =>
      match ← getFreeId fuel (availableIdsOf man) env.rand with
      | none =>
        return (1, analysisCustomMessage fd
          (str "Could not create new id. Try removing some analyses.\n"))
      | some newId => threadsAddNode fuel env man anal newId fd

/-! ## Signalling -/

/-- `anal->pid != -1 && !kill(anal->pid, 0) && getpgid(getpid()) == getpgid(anal->pid)`: the pid
when it holds. -/
def live (inGroup : Int → Bool) (anal : Addr) : Code (Option Int) := do
  let pid ← loadInt (pidOf anal)
  return if pid ≠ -1 ∧ inGroup pid then some pid else none

/-- `anal->total_time += (time(NULL) - anal->last_start)`. -/
def addElapsed (now : Int) (anal : Addr) : Code Unit := do
  let time ← loadInt (totalTime anal)
  let last ← loadInt (lastStart anal)
  store (totalTime anal) (int (wrap32 (time + (now - last))))

/-- `threads_suspend`: what it sends, and the process it signals. -/
def threadsSuspend (fuel : Nat) (inGroup : Int → Bool) (now : Int) (man : Addr) (id fd : Int) :
    Code (Bytes × Option Int) := do
  match ← treapFind fuel (← loadPtr (analysesOf man)) id with
  | none => return (analysisIdNoExists fd id, none)
  | some p =>
    let anal ← deref p
    let path ← loadPath anal
    let suspended ← loadInt (suspendedOf anal)
    let status ← loadInt (statusOf anal)
    if suspended ≠ ANALYSIS_SUSPENDED ∧ status ≠ ANALYSIS_COMPLETE then
      let pid ← live inGroup anal
      let _ ← (if pid.isSome then addElapsed now anal else pure ())
      store (suspendedOf anal) (int ANALYSIS_SUSPENDED)
      return (analysisSuspended fd id (newAnalysis path 0 (0, 0)), pid)
    else if suspended = ANALYSIS_SUSPENDED then
      return (analysisAlreadySuspended fd id (newAnalysis path 0 (0, 0)), none)
    else return (analysisAlreadyDone fd id (newAnalysis path 0 (0, 0)), none)

/-- `threads_resume`: what it sends, and the process it signals. -/
def threadsResume (fuel : Nat) (inGroup : Int → Bool) (now : Int) (man : Addr) (id fd : Int) :
    Code (Bytes × Option Int) := do
  match ← treapFind fuel (← loadPtr (analysesOf man)) id with
  | none => return (analysisIdNoExists fd id, none)
  | some p =>
    let anal ← deref p
    let path ← loadPath anal
    let suspended ← loadInt (suspendedOf anal)
    let status ← loadInt (statusOf anal)
    if suspended ≠ ANALYSIS_RESUMED then
      let pid ← live inGroup anal
      let _ ← (if pid.isSome then store (lastStart anal) (int (wrap32 now)) else pure ())
      store (suspendedOf anal) (int ANALYSIS_RESUMED)
      return (analysisResumed fd id (newAnalysis path 0 (0, 0)), pid)
    else if status = ANALYSIS_COMPLETE then
      return (analysisAlreadyDone fd id (newAnalysis path 0 (0, 0)), none)
    else return (analysisAlreadyResumed fd id (newAnalysis path 0 (0, 0)), none)

/-! ## Removing -/

/-- `analysis_removed`. -/
def analysisRemoved (fd id : Int) (anal : Addr) : Code Bytes := do
  let path ← loadPath anal
  let status ← loadInt (statusOf anal)
  return DiskAnalyzer.analysisRemoved fd id { newAnalysis path 0 (0, 0) with status }

/-- `threads_remove`: what it sends, the file it removes and the process it interrupts. -/
def threadsRemove (fuel : Nat) (dirPath : Bytes) (inGroup : Int → Bool) (man : Addr) (id fd : Int) :
    Code (Bytes × Option Bytes × Option Int) := do
  match ← treapExtract fuel (analysesOf man) id with
  | none => return (analysisIdNoExists fd id, none, none)
  | some trp =>
    let cnt ← loadInt (analysisCntOf man)
    store (analysisCntOf man) (int (cnt - 1))
    let anal ← deref (← loadPtr (analOf trp))
    let pid ← live inGroup anal
    let path ← loadPath anal
    let _ ← treeRemove fuel (← deref (← loadPtr (pathsOf man))) path
    treapInsertNode fuel (availableIdsOf man) (some trp)
    let reply ← analysisRemoved fd id anal
    freeAnal (some anal)
    store (analOf trp) (.ptr none)
    return (reply, some (snprintf 60 (dirPath ++ printPrec 1 id)), pid)

/-! ## Reading -/

/-- `threads_status`. -/
def threadsStatus (fuel : Nat) (man : Addr) (id fd : Int) : Code Bytes := do
  match ← treapFind fuel (← loadPtr (analysesOf man)) id with
  | none => return analysisIdNoExists fd id
  | some p =>
    let anal ← deref p
    let path ← loadPath anal
    let status ← loadInt (statusOf anal)
    let suspended ← loadInt (suspendedOf anal)
    return analysisStatus fd id { newAnalysis path 0 (0, 0) with status, suspended }

/-- `threads_result`: the character it writes, and the message it sends. -/
def threadsResult (fuel : Nat) (dirPath : Bytes) (man : Addr) (id fd : Int) :
    Code (UInt8 × Bytes) := do
  match ← treapFind fuel (← loadPtr (analysesOf man)) id with
  | none => return (48, analysisIdNoExists fd id)
  | some p =>
    let anal ← deref p
    let status ← loadInt (statusOf anal)
    if status = ANALYSIS_COMPLETE then return (49, analysisReport dirPath fd id)
    else
      let path ← loadPath anal
      return (48, analysisNotDone fd id (newAnalysis path 0 (0, 0)))

/-- `analysis_list`. `last_start` is read only where it matters. -/
def analysisList (now fd id : Int) (anal : Addr) : Code Bytes := do
  let path ← loadPath anal
  let priority ← loadInt (priorityOf anal)
  let status ← loadInt (statusOf anal)
  let suspended ← loadInt (suspendedOf anal)
  let totalTime ← loadInt (totalTime anal)
  let last ← (if status ≠ ANALYSIS_COMPLETE ∧ suspended ≠ ANALYSIS_SUSPENDED then
    loadInt (lastStart anal) else pure 0)
  let cntFiles ← loadInt (cntFiles anal)
  let cntDirs ← loadInt (cntDirs anal)
  return DiskAnalyzer.analysisList now fd id
    { newAnalysis path priority (last, 0) with status, suspended, totalTime, cntFiles, cntDirs }

/-- `threads_show_in_order`. -/
def threadsShowInOrder : Nat → (Int → Int) → Ptr → Int → Code (List Bytes)
  | 0, _, _, _ => fault
  | _ + 1, _, none, _ => return []
  | fuel + 1, now, some t, fd => do
    let before ← threadsShowInOrder fuel now (← loadPtr (chldLeft t)) fd
    let id ← loadInt (idOf t)
    let line ← analysisList (now id) fd id (← deref (← loadPtr (analOf t)))
    let after ← threadsShowInOrder fuel now (← loadPtr (chldRight t)) fd
    return before ++ line :: after

/-- `threads_get_all`: the count, and the lines. -/
def threadsGetAll (fuel : Nat) (now : Int → Int) (man : Addr) (fd : Int) :
    Code (Bytes × List Bytes) := do
  let cnt ← loadInt (analysisCntOf man)
  let lines ← threadsShowInOrder fuel now (← loadPtr (analysesOf man)) fd
  return (snprintf 11 (printWidth 10 cnt), lines)

/-! ## Results -/

/-- `threads_read_results` of a message that could be read. -/
def threadsReadResults (fuel : Nat) (dirPath : Bytes) (inGroup : Int → Bool) (now : Int)
    (man : Addr) (result : UInt8) (id cntDirs' cntFiles' : Int) : Code Unit := do
  if result = 48 then
    let _ ← threadsRemove fuel dirPath inGroup man id (-1)
    return ()
  else
    match ← treapFind fuel (← loadPtr (analysesOf man)) id with
    | none => return ()
    | some p =>
      let anal ← deref p
      let dirs ← loadInt (cntDirs anal)
      store (cntDirs anal) (int (wrap32 (dirs + cntDirs')))
      let files ← loadInt (cntFiles anal)
      store (cntFiles anal) (int (wrap32 (files + cntFiles')))
      if result = 49 then
        store (statusOf anal) (int ANALYSIS_COMPLETE)
        addElapsed now anal
      else return ()

/-! ## Requests -/

/-- What a request meets on its way, beside `malloc`. -/
structure World where
  add : AddWorld
  /-- `DIR_PATH`. -/
  dirPath : Bytes
  /-- The process exists and is in the manager's process group. -/
  inGroup : Int → Bool
  /-- `time(NULL)`. -/
  now : Int
  /-- `time(NULL)` when the line of an id is made. -/
  clock : Int → Int

/-- The first case of `request_thread`. `path` is `tsk.path`. -/
def requestAdd (fuel : Nat) (env : AddWorld) (man path : Addr) (priority fd : Int) : Code Bytes := do
  match ← malloc 9 with
  | none =>
    free (some path)
    return []
  | some anal =>
    store (totalTime anal) (int 0)
    match ← strndup (← loadStr path) with
    | none =>
      free (some path)
      free (some anal)
      return []
    | some s =>
      store (pathOf anal) (.ptr (some s))
      store (priorityOf anal) (int priority)
      store (statusOf anal) (int ANALYSIS_PENDING)
      store (suspendedOf anal) (int ANALYSIS_RESUMED)
      store (cntFiles anal) (int 0)
      store (cntDirs anal) (int 0)
      free (some path)
      let (ret, reply) ← threadsAdd fuel env man anal fd
      let _ ← (if ret ≠ 0 then freeAnal (some anal) else pure ())
      return reply

/-- The `switch` of `request_thread`. -/
def requestThread (fuel : Nat) (env : World) (man : Addr) (cnt id priority : Int) (path : Ptr)
    (fd : Int) : Code Bytes := do
  if cnt = 1 then requestAdd fuel env.add man (← deref path) priority fd
  else if cnt = 2 then
    let (reply, _) ← threadsSuspend fuel env.inGroup env.now man id fd
    return reply
  else if cnt = 3 then
    let (reply, _) ← threadsResume fuel env.inGroup env.now man id fd
    return reply
  else if cnt = 4 then
    let (reply, _, _) ← threadsRemove fuel env.dirPath env.inGroup man id fd
    return reply
  else if cnt = 5 then threadsStatus fuel man id fd
  else if cnt = 6 then
    let (cntbuf, lines) ← threadsGetAll fuel env.clock man fd
    return cntbuf ++ lines.flatten
  else if cnt = 7 then
    let (sol, message) ← threadsResult fuel env.dirPath man id fd
    return sol :: message
  else return []

/-! ## Shutting down -/

/-- `threads_shutdown`: what it writes from the start of the file. -/
def threadsShutdown (fuel : Nat) (man : Addr) : Code Bytes := do
  let cnt ← loadInt (analysisCntOf man)
  let saved ← treapSave fuel (analysesOf man)
  treeClear fuel (pathsOf man)
  treapClear fuel (availableIdsOf man)
  return snprintf 11 (printPrec 10 cnt) ++ saved

end DiskAnalyzer.Memory
