import DiskAnalyzer.Bytes
import DiskAnalyzer.Lib.Decimal

/-!
# `analysis.c`: records, their file format and the messages about them

An analysis is saved as eight fields of ten characters around a path. Numbers are printed by
`snprintf` with a buffer of eleven bytes, so a field is ten characters wide whatever the number.

Messages are the bytes handed to `send`: ten digits of length, then the text. Nothing is sent to
a negative descriptor, which is what `threads_remove` is called with when a worker fails.
-/

namespace DiskAnalyzer

open Decimal

def ANALYSIS_PENDING : Int := 0
def ANALYSIS_INPROGRESS : Int := 1
def ANALYSIS_COMPLETE : Int := 2

def ANALYSIS_SUSPENDED : Int := 1
def ANALYSIS_RESUMED : Int := 0

/-- `struct analysis`. -/
structure Analysis where
  totalTime : Int
  lastStart : Int
  cntFiles : Int
  cntDirs : Int
  path : Bytes
  priority : Int
  status : Int
  suspended : Int
  pid : Int
  deriving DecidableEq, Repr

/-! ## Reading -/

/-- A file open for reading: the bytes ahead, and how many more reads succeed (`none`: all). -/
structure Fd where
  rest : Bytes
  reads : Option Nat

/-- `read` of a regular file: at most `n` of the bytes ahead, `none` for a negative result. -/
def Fd.read (fd : Fd) (n : Nat) : Option (Bytes × Fd) :=
  if fd.reads = some 0 then none
  else some (fd.rest.take n, ⟨fd.rest.drop n, fd.reads.map Nat.pred⟩)

/-- Why a reader did not return 0: it reported an error, or the length it decoded makes its
buffer arithmetic undefined. -/
inductive Fail where
  | error
  | undefined
  deriving DecidableEq, Repr

namespace Analysis

/-- `read_string_by_size`: one `read` into a zeroed buffer. -/
def readStringBySize (sz : Int) (fd : Fd) : Except Fail (Bytes × Fd) :=
  if sz < 0 ∨ 2 ^ 31 ≤ sz + 1 then .error .undefined
  else
    match fd.read sz.toNat with
    | none => .error .error
    | some (buf, fd') => .ok (cstr buf, fd')

/-- `read_int`. -/
def readInt (fd : Fd) : Except Fail (Int × Fd) :=
  match readStringBySize 10 fd with
  | .error e => .error e
  | .ok (string, fd') => .ok (atoi string, fd')

/-- `read_string`. -/
def readString (fd : Fd) : Except Fail (Bytes × Fd) :=
  match readInt fd with
  | .error e => .error e
  | .ok (sz, fd') => readStringBySize sz fd'

end Analysis

open Analysis

/-- `analysis_read` into a freshly allocated record: the id, the record and what is left of the
file. `last_start` and `pid` are not in the file and keep what the allocation holds. -/
def analysisRead (lastStart pid : Int) (fd : Fd) : Except Fail (Int × Analysis × Fd) := do
  let (id, fd) ← readInt fd
  let (totalTime, fd) ← readInt fd
  let (cntDirs, fd) ← readInt fd
  let (cntFiles, fd) ← readInt fd
  let (path, fd) ← readString fd
  let (priority, fd) ← readInt fd
  let (status, fd) ← readInt fd
  let (suspended, fd) ← readInt fd
  return (id,
    { totalTime, lastStart, cntFiles, cntDirs, path, priority, status, suspended, pid }, fd)

/-! ## Writing -/

/-- `write_int`: what it appends to the string in `dest`. -/
def writeInt (output : Int) : Bytes := snprintf 11 (printPrec 10 output)

/-- `write_string`. The length is passed as an `int`. -/
def writeString (output : Bytes) : Bytes :=
  writeInt (wrap32 output.length) ++ snprintf (output.length + 1) output

/-- `analysis_write`, allocation succeeding: the bytes of its one `write`. -/
def analysisWrite (id : Int) (anal : Analysis) : Bytes :=
  writeInt id ++ writeInt anal.totalTime ++ writeInt anal.cntDirs ++ writeInt anal.cntFiles ++
    writeString anal.path ++ writeInt anal.priority ++ writeInt anal.status ++
    writeInt anal.suspended

/-! ## Messages -/

/-- `analysis_custom_message`. -/
def analysisCustomMessage (fd : Int) (msg : Bytes) : Bytes :=
  if fd < 0 then []
  else snprintf (11 + msg.length) (printWidth 10 (wrap32 msg.length) ++ msg)

theorem length_field {n : Nat} (h : n < 2 ^ 31) : (printWidth 10 n).length = 10 := by
  rw [printWidth, if_neg (by omega)]
  exact length_digits_of_lt (lt_of_lt_of_le h (by norm_num))

/-- A number in a field of ten. -/
theorem atoi_field {n : Nat} (h : n < 2 ^ 31) : atoi (cstr (printWidth 10 n)) = n := by
  rw [cstr_eq_self, atoi_printWidth ⟨by omega, by omega⟩]
  rw [printWidth, if_neg (by omega)]
  exact zero_notMem_digits _ _

/-- The messages about an analysis, in a buffer of `strlen(path) + 150` bytes. -/
def analysisMessage (fd : Int) (path text : Bytes) : Bytes :=
  analysisCustomMessage fd (snprintf (path.length + 150) text)

def analysisCreated (fd id : Int) (anal : Analysis) : Bytes :=
  analysisMessage fd anal.path
    (str "Created analysis task with ID '" ++ printPrec 1 id ++ str "' for '" ++ anal.path ++
      str "' and priority '" ++
      (if anal.priority = 1 then str "low"
       else if anal.priority = 2 then str "normal" else str "high") ++ str "'.\n")

def analysisPathNoExists (fd : Int) (path : Bytes) : Bytes :=
  analysisMessage fd path (str "There is no directory at '" ++ path ++ str "'.\n")

def analysisPathAlreadyExists (fd : Int) (path : Bytes) (id : Int) : Bytes :=
  analysisMessage fd path
    (str "Directory '" ++ path ++ str "' is already included in analysis with ID '" ++
      printPrec 1 id ++ str "'.\n")

def analysisIdNoExists (fd id : Int) : Bytes :=
  analysisMessage fd [] (str "No existing analysis for task ID '" ++ printPrec 1 id ++ str "'.\n")

/-- The replies about a stored analysis that name its id and its path. -/
def analysisAbout (fd id : Int) (anal : Analysis) (before after : Bytes) : Bytes :=
  analysisMessage fd anal.path
    (before ++ printPrec 1 id ++ str "' for '" ++ anal.path ++ after)

def analysisSuspended (fd id : Int) (anal : Analysis) : Bytes :=
  analysisAbout fd id anal (str "Suspended analysis task with ID '") (str "'.\n")

def analysisAlreadyDone (fd id : Int) (anal : Analysis) : Bytes :=
  analysisAbout fd id anal (str "Analysis task with ID '") (str "' is already done.\n")

def analysisAlreadySuspended (fd id : Int) (anal : Analysis) : Bytes :=
  analysisAbout fd id anal (str "Analysis task with ID '") (str "' has already been suspended.\n")

def analysisAlreadyResumed (fd id : Int) (anal : Analysis) : Bytes :=
  analysisAbout fd id anal (str "Analysis task with ID '") (str "' has already been resumed.\n")

def analysisResumed (fd id : Int) (anal : Analysis) : Bytes :=
  analysisAbout fd id anal (str "Resumed analysis task with ID '") (str "'.\n")

def analysisRemoved (fd id : Int) (anal : Analysis) : Bytes :=
  analysisMessage fd anal.path
    (str "Removed analysis task with ID '" ++ printPrec 1 id ++ str "', status '" ++
      (if anal.status = ANALYSIS_PENDING then str "pending"
       else if anal.status = ANALYSIS_INPROGRESS then str "in progress" else str "done") ++
      str "' for '" ++ anal.path ++ str "'.\n")

def analysisNotDone (fd id : Int) (anal : Analysis) : Bytes :=
  analysisAbout fd id anal (str "Analysis task with ID '") (str "' is not done yet.\n")

/-- `analysis_report`: the file name, in a buffer of fifty bytes. -/
def analysisReport (dirPath : Bytes) (fd id : Int) : Bytes :=
  analysisCustomMessage fd (snprintf 50 (dirPath ++ printPrec 1 id))

/-- The status as `analysis_status` and `analysis_list` word it. -/
def statusWord (anal : Analysis) : Bytes :=
  if anal.status = ANALYSIS_PENDING then str "pending"
  else if anal.suspended = ANALYSIS_SUSPENDED ∨ anal.status = ANALYSIS_INPROGRESS then
    str "in progress"
  else str "done"

def analysisStatus (fd id : Int) (anal : Analysis) : Bytes :=
  analysisAbout fd id anal (str "Analysis task with ID '")
    (str "' has status '" ++ statusWord anal ++ str "'.\n")

/-! ## The list -/

/-- `%wd` and `%ws`: spaces in front, up to `w` characters. -/
def padLeft (w : Nat) (s : Bytes) : Bytes := List.replicate (w - s.length) 32 ++ s

/-- The `total_time` of `analysis_list`, at a reading of the clock. -/
def listedTime (now : Int) (anal : Analysis) : Int :=
  wrap32 (anal.totalTime +
    if anal.status ≠ ANALYSIS_COMPLETE ∧ anal.suspended ≠ ANALYSIS_SUSPENDED then
      now - anal.lastStart
    else 0)

/-- `analysis_list`: the bytes of one line. -/
def analysisList (now fd id : Int) (anal : Analysis) : Bytes :=
  let prio := if anal.priority = 1 then str "*" else if anal.priority = 2 then str "**"
    else str "***"
  let status := if anal.status = ANALYSIS_PENDING then str "pending"
    else if anal.suspended = ANALYSIS_SUSPENDED ∨ anal.status = ANALYSIS_INPROGRESS then
      str "in progress"
    else str "done"
  let totalTime := listedTime now anal
  analysisMessage fd anal.path
    (padLeft 5 (printPrec 1 id) ++ str "\t" ++ padLeft 3 prio ++ str "\t" ++ anal.path ++
      str "\t" ++ padLeft 5 (printPrec 1 (totalTime.tdiv 60)) ++ str "m " ++
      padLeft 2 (printPrec 1 (totalTime.tmod 60)) ++ str "s\t" ++ padLeft 15 status ++
      str "\t" ++ printPrec 1 anal.cntFiles ++ str " files, " ++ printPrec 1 anal.cntDirs ++
      str " dirs\n")

end DiskAnalyzer
