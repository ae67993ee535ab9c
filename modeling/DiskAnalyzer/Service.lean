import DiskAnalyzer.Threads
import DiskAnalyzer.Lib.Run

/-!
# The manager's operations, one after another

`threads_suspend`, `threads_resume`, `threads_read_results` and `threads_get_all`, each run from
its first lock to its last unlock, and the system in which these, adds, removals and restarts
follow each other in any order (`service`). Between a shutdown and the next start the store is the
data file.

A process can be signalled when it exists and is in the manager's group (`inGroup`); who that is
comes with each operation.
-/

namespace DiskAnalyzer

open Treap Decimal

/-! ## Operations on one record -/

/-- The record `request_thread` makes for an add. `memory` is what `malloc` left in `last_start`
and `pid`. -/
def newAnalysis (path : Bytes) (priority : Int) (memory : Int × Int) : Analysis where
  totalTime := 0
  lastStart := memory.1
  cntFiles := 0
  cntDirs := 0
  path := path
  priority := priority
  status := ANALYSIS_PENDING
  suspended := ANALYSIS_RESUMED
  pid := memory.2

namespace Analysis

/-- The worker can be signalled. -/
def Live (inGroup : Int → Bool) (anal : Analysis) : Prop := anal.pid ≠ -1 ∧ inGroup anal.pid = true

instance (inGroup : Int → Bool) (anal : Analysis) : Decidable (anal.Live inGroup) :=
  inferInstanceAs (Decidable (_ ∧ _))

/-- What an accepted `threads_suspend` writes. -/
def suspend (inGroup : Int → Bool) (now : Int) (anal : Analysis) : Analysis :=
  { anal with
    totalTime :=
      if anal.Live inGroup then wrap32 (anal.totalTime + (now - anal.lastStart))
      else anal.totalTime
    suspended := ANALYSIS_SUSPENDED }

/-- What an accepted `threads_resume` writes. -/
def resume (inGroup : Int → Bool) (now : Int) (anal : Analysis) : Analysis :=
  { anal with
    lastStart := if anal.Live inGroup then wrap32 now else anal.lastStart
    suspended := ANALYSIS_RESUMED }

/-- What `threads_read_results` writes; `'1'` is the last message. -/
def result (result : UInt8) (cntDirs cntFiles now : Int) (anal : Analysis) : Analysis :=
  let anal := { anal with
    cntDirs := wrap32 (anal.cntDirs + cntDirs)
    cntFiles := wrap32 (anal.cntFiles + cntFiles) }
  if result = 49 then
    { anal with
      status := ANALYSIS_COMPLETE
      totalTime := wrap32 (anal.totalTime + (now - anal.lastStart)) }
  else anal

end Analysis

/-! ## Operations on the store -/

/-- What a request sends, the process it signals, and what it leaves behind. -/
structure SignalResult where
  reply : Bytes
  signalled : Option Int
  man : ThreadsManager

/-- `threads_suspend`; the signal is `SIGTSTP`. -/
def threadsSuspend (inGroup : Int → Bool) (now : Int) (man : ThreadsManager) (id fd : Int) :
    SignalResult :=
  match treapFind man.analyses id with
  | none => ⟨analysisIdNoExists fd id, none, man⟩
  | some anal =>
    if anal.suspended ≠ ANALYSIS_SUSPENDED ∧ anal.status ≠ ANALYSIS_COMPLETE then
      ⟨analysisSuspended fd id anal, if anal.Live inGroup then some anal.pid else none,
        { man with analyses := man.analyses.modify id (Analysis.suspend inGroup now) }⟩
    else if anal.suspended = ANALYSIS_SUSPENDED then
      ⟨analysisAlreadySuspended fd id anal, none, man⟩
    else ⟨analysisAlreadyDone fd id anal, none, man⟩

/-- `threads_resume`; the signal is `SIGCONT`. -/
def threadsResume (inGroup : Int → Bool) (now : Int) (man : ThreadsManager) (id fd : Int) :
    SignalResult :=
  match treapFind man.analyses id with
  | none => ⟨analysisIdNoExists fd id, none, man⟩
  | some anal =>
    if anal.suspended ≠ ANALYSIS_RESUMED then
      ⟨analysisResumed fd id anal, if anal.Live inGroup then some anal.pid else none,
        { man with analyses := man.analyses.modify id (Analysis.resume inGroup now) }⟩
    else if anal.status = ANALYSIS_COMPLETE then ⟨analysisAlreadyDone fd id anal, none, man⟩
    else ⟨analysisAlreadyResumed fd id anal, none, man⟩

/-- `threads_read_results` of a message that could be read. -/
def threadsReadResults (dirPath : Bytes) (inGroup : Int → Bool) (now : Int) (man : ThreadsManager)
    (result : UInt8) (id cntDirs cntFiles : Int) : ThreadsManager :=
  if result = 48 then (threadsRemove dirPath inGroup man id (-1)).man
  else
    match treapFind man.analyses id with
    | none => man
    | some _ =>
      { man with
        analyses := man.analyses.modify id (Analysis.result result cntDirs cntFiles now) }

/-- `threads_get_all`: the count, and the lines of the records as they are walked. The clock is
read for each line. -/
def threadsGetAll (now : Int → Int) (man : ThreadsManager) (fd : Int) : Bytes × List Bytes :=
  (snprintf 11 (printWidth 10 man.analysisCnt),
    (threadsShowInOrder (fun _ _ => false) man.analyses).1.map fun e =>
      analysisList (now e.1) fd e.1 e.2)

/-! ## Runs -/

/-- What happens to the manager. -/
inductive Event where
  | add (env : AddEnv) (path : Bytes) (priority : Int) (memory : Int × Int) (fd : Int)
  | remove (dirPath : Bytes) (inGroup : Int → Bool) (id fd : Int)
  | suspend (inGroup : Int → Bool) (id fd now : Int)
  | resume (inGroup : Int → Bool) (id fd now : Int)
  | result (dirPath : Bytes) (inGroup : Int → Bool) (result : UInt8)
      (id cntDirs cntFiles now : Int)
  | restart (env : StartEnv)

/-- The signals workers receive: `SIGTSTP`, `SIGCONT` and `SIGINT`. -/
inductive Signal where
  | tstp
  | cont
  | int
  deriving DecidableEq, Repr

/-- The signal an event sends, and the process it sends it to. -/
def signalled (man : ThreadsManager) : Event → Option (Signal × Int)
  | .suspend inGroup id fd now =>
    (threadsSuspend inGroup now man id fd).signalled.map fun pid => (.tstp, pid)
  | .resume inGroup id fd now =>
    (threadsResume inGroup now man id fd).signalled.map fun pid => (.cont, pid)
  | .remove dirPath inGroup id fd =>
    (threadsRemove dirPath inGroup man id fd).interrupted.map fun pid => (.int, pid)
  | .result dirPath inGroup result id _ _ _ =>
    if result = 48 then
      (threadsRemove dirPath inGroup man id (-1)).interrupted.map fun pid => (.int, pid)
    else none
  | _ => none

/-- The manager and its data file. -/
structure Service where
  man : ThreadsManager
  file : Bytes

/-- Handling one event; a start that fails leaves nothing. -/
def handle (s : Service) : Event → Option Service
  | .add env path priority memory fd =>
    some { s with man := (threadsAdd env s.man (newAnalysis path priority memory) fd).man }
  | .remove dirPath inGroup id fd =>
    some { s with man := (threadsRemove dirPath inGroup s.man id fd).man }
  | .suspend inGroup id fd now =>
    some { s with man := (threadsSuspend inGroup now s.man id fd).man }
  | .resume inGroup id fd now => some { s with man := (threadsResume inGroup now s.man id fd).man }
  | .result dirPath inGroup result id cntDirs cntFiles now =>
    some { s with
      man := threadsReadResults dirPath inGroup now s.man result id cntDirs cntFiles }
  | .restart env =>
    (threadsShutdown s.man.analyses.size s.man s.file).bind fun file =>
      (threadsStartup env file).map fun man => ⟨man, file⟩

/-- Events one after another, from what `threads_startup` builds from an empty file. -/
def service : Lts.System Service Event where
  init s := s.file = [] ∧ ∃ env, threadsStartup env [] = some s.man
  step s e s' := handle s e = some s'

end DiskAnalyzer
