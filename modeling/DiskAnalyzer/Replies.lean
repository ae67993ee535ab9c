import DiskAnalyzer.Service
import DiskAnalyzer.Task

/-!
# Requests and their replies

`request_thread` from a task it has read to the bytes it sends, and `main` of the client from these
bytes to what it received. Requests of kinds 1 to 5 are answered by one message, a list by a count
and that many messages, a request for a report by one character and one message.

The client has one loop around `read` (`clientReadString`). Where it fails, the client leaves out
what it wanted to print and goes on.
-/

namespace DiskAnalyzer

open Treap Decimal ByteStream

/-! ## The manager's side -/

/-- `threads_status`: what it sends. -/
def threadsStatus (man : ThreadsManager) (id fd : Int) : Bytes :=
  match treapFind man.analyses id with
  | none => analysisIdNoExists fd id
  | some anal => analysisStatus fd id anal

/-- `threads_result`: the character it writes, and the message it sends. -/
def threadsResult (dirPath : Bytes) (man : ThreadsManager) (id fd : Int) : UInt8 × Bytes :=
  match treapFind man.analyses id with
  | none => (48, analysisIdNoExists fd id)
  | some anal =>
    if anal.status = ANALYSIS_COMPLETE then (49, analysisReport dirPath fd id)
    else (48, analysisNotDone fd id anal)

/-- What a request meets on its way. -/
structure RequestEnv where
  add : AddEnv
  /-- What `malloc` leaves in `last_start` and `pid` of a new record. -/
  memory : Int × Int
  /-- `DIR_PATH`. -/
  dirPath : Bytes
  /-- The process exists and is in the manager's process group. -/
  inGroup : Int → Bool
  /-- `time(NULL)`. -/
  now : Int
  /-- `time(NULL)` when the line of an id is made. -/
  clock : Int → Int

/-- The `switch` of `request_thread`, allocation succeeding: what is sent, and what is left. -/
def requestThread (env : RequestEnv) (man : ThreadsManager) (tsk : Task) (fd : Int) :
    Bytes × ThreadsManager :=
  if tsk.cnt = 1 then
    let res := threadsAdd env.add man (newAnalysis tsk.path tsk.priority env.memory) fd
    (res.reply, res.man)
  else if tsk.cnt = 2 then
    let res := threadsSuspend env.inGroup env.now man tsk.id fd
    (res.reply, res.man)
  else if tsk.cnt = 3 then
    let res := threadsResume env.inGroup env.now man tsk.id fd
    (res.reply, res.man)
  else if tsk.cnt = 4 then
    let res := threadsRemove env.dirPath env.inGroup man tsk.id fd
    (res.reply, res.man)
  else if tsk.cnt = 5 then (threadsStatus man tsk.id fd, man)
  else if tsk.cnt = 6 then
    let (cntbuf, lines) := threadsGetAll env.clock man fd
    (cntbuf ++ lines.flatten, man)
  else if tsk.cnt = 7 then
    let (sol, message) := threadsResult env.dirPath man tsk.id fd
    (sol :: message, man)
  else ([], man)

/-! ## The client's side -/

/-- `client_read_string`: the bytes, `none` for the return value 1. -/
def clientReadString : Nat → Source → Result (Option Bytes)
  | 0, s => .ok (some []) s
  | _ + 1, [] => .hang
  | _ + 1, .error :: s => .ok none s
  | n + 1, .data c :: s =>
    if c.length ≤ n + 1 then
      (clientReadString (n + 1 - c.length) s).bind fun bs s' => .ok (bs.map (c ++ ·)) s'
    else .ok (some (c.take (n + 1))) (.data (c.drop (n + 1)) :: s)

/-- Ten digits, then as many bytes as they say, the same in all three branches of `main`: the
string that is printed or opened, `none` when a read fails. -/
def clientMessage (s : Source) : Result (Option Bytes) :=
  (clientReadString 10 s).bind fun szbuf s =>
    match szbuf with
    | none => .ok none s
    | some szbuf =>
      let sz := atoi (cstr szbuf)
      if sz < 0 ∨ 2 ^ 31 ≤ sz + 1 then .undefined
      else (clientReadString sz.toNat s).bind fun response s => .ok (response.map cstr) s

/-- The rounds of the loop over the records: the lines it prints. -/
def clientRecords : Nat → Source → Result (List Bytes)
  | 0, s => .ok [] s
  | cnt + 1, s =>
    (clientMessage s).bind fun line s =>
      (clientRecords cnt s).bind fun lines s => .ok (line.toList ++ lines) s

/-- What `main` of the client takes out of a reply. -/
inductive Received where
  | message (response : Option Bytes)
  | list (lines : List Bytes)
  | report (sol : UInt8) (bufin : Option Bytes)
  | nothing
  deriving DecidableEq, Repr

/-- `main` of the client, once its request is sent. A negative count does not come to 0 before it
wraps. -/
def clientReceive (cnt : Int) (s : Source) : Result Received :=
  if cnt < 6 then (clientMessage s).bind fun response s => .ok (.message response) s
  else if cnt = 6 then
    (clientReadString 10 s).bind fun cntbuf s =>
      match cntbuf with
      | none => .ok .nothing s
      | some cntbuf =>
        let cnt := atoi (cstr cntbuf)
        if cnt < 0 then .undefined
        else (clientRecords cnt.toNat s).bind fun lines s => .ok (.list lines) s
  else if cnt = 7 then
    (clientReadString 1 s).bind fun sol s =>
      match sol with
      | none => .ok .nothing s
      | some sol =>
        (clientMessage s).bind fun bufin s => .ok (.report (sol.headD 0) bufin) s
  else .ok .nothing s

end DiskAnalyzer
