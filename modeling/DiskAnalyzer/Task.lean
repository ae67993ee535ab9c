import DiskAnalyzer.Bytes
import DiskAnalyzer.Lib.Decimal
import DiskAnalyzer.Lib.Stream

/-!
# `options_handler.c` and `task.c`: a request and its encoding

The client turns its options into a `struct task` and sends it as a string of four-character
fields; the manager reads the fields back. A field is printed by `snprintf` with `%04d` into five
bytes, so it is four characters wide whatever the number.

`getopt_long` and `realpath` are outside the sources: what they return is an argument.
-/

namespace DiskAnalyzer

open Decimal ByteStream

/-- `struct task`. -/
structure Task where
  cnt : Int
  id : Int
  path : Bytes
  priority : Int
  deriving DecidableEq, Repr

/-! ## From options to a task -/

/-- What one call of `getopt_long` leaves: its value (`none` for -1), `optarg`, and whether it set
`errno`. -/
structure Opt where
  val : Option Char
  optarg : Bytes
  errno : Bool

/-- The first `switch` of `get_task`: `none` is the return value -1. -/
def taskOfOption (opt : Opt) (tsk : Task) : Option Task :=
  match opt.val with
  | none => none
  | some '?' => none
  | some 'a' => some { tsk with cnt := 1, path := opt.optarg }
  | some 'l' => some { tsk with cnt := 6 }
  | some 'S' => some { tsk with cnt := 2, id := atoi opt.optarg }
  | some 'R' => some { tsk with cnt := 3, id := atoi opt.optarg }
  | some 'r' => some { tsk with cnt := 4, id := atoi opt.optarg }
  | some 'i' => some { tsk with cnt := 5, id := atoi opt.optarg }
  | some 'p' => some { tsk with cnt := 7, id := atoi opt.optarg }
  | some 'h' => some { tsk with cnt := 8 }
  | some _ => some tsk

/-- The priority of an add: 2 unless the second option gives one. -/
def addPriority (opt : Opt) : Option Int :=
  if opt.val = none then some 2
  else if opt.val ≠ some 'p' then none
  else some (atoi opt.optarg)

/-- `get_task`: `none` is the return value -1. `tsk` is the caller's uninitialized task; `more` says
that arguments are left after the options. -/
def getTask (opt1 opt2 opt3 : Opt) (more : Bool) (realpath : Bytes → Option Bytes) (tsk : Task) :
    Option Task :=
  if opt1.errno then none
  else
    match taskOfOption opt1 tsk with
    | none => none
    | some tsk =>
      if opt2.errno then none
      else if tsk.cnt ≠ 1 then
        if opt2.val ≠ none ∨ more then none else some tsk
      else
        match addPriority opt2 with
        | none => none
        | some priority =>
          if opt3.errno ∨ opt3.val ≠ none ∨ more then none
          else (realpath tsk.path).map fun fullPath => { tsk with priority, path := fullPath }

/-! ## From a task to bytes -/

/-- `appendInt`: what it appends to the string in `dest`. -/
def appendInt (src : Int) : Bytes := snprintf 5 (printWidth 4 src)

/-- `appendString`. -/
def appendString (src : Bytes) : Bytes :=
  appendInt (wrap32 src.length) ++ snprintf (src.length + 1) src

/-- `taskToString`, allocation succeeding. -/
def taskToString (src : Task) : Bytes :=
  if src.cnt = 6 then appendInt 6
  else if src.cnt = 1 then appendInt 1 ++ appendInt src.priority ++ appendString src.path
  else appendInt src.cnt ++ appendInt src.id

/-! ## From bytes to a task -/

namespace Task

/-- `readStringBySize`. No `malloc` has the bytes a length below -1 asks for, converted to `size_t`;
with -1 it has none, and the loop reads behind them. -/
def readStringBySize (sz : Int) (s : Source) : Result Bytes :=
  if 2 ^ 31 ≤ sz + 1 then .undefined
  else if sz < -1 then .error
  else if sz = -1 then readPast s
  else (readFull sz.toNat s).bind fun buf s' => .ok (cstr buf) s'

/-- `readInt`. When the read fails, the buffer has been freed, its pointer is not `NULL`, and
`atoi` is called on it. -/
def readInt (s : Source) : Result Int :=
  match readStringBySize 4 s with
  | .ok string s' => .ok (atoi string) s'
  | .error => .undefined
  | .hang => .hang
  | .undefined => .undefined

/-- `readString`. -/
def readString (s : Source) : Result Bytes := (readInt s).bind readStringBySize

end Task

/-- `readTask` into an uninitialized task; an `error` is the return value -1. -/
def readTask (dest : Task) (s : Source) : Result Task :=
  (Task.readInt s).bind fun cnt s =>
    if cnt = 6 then .ok { dest with cnt } s
    else if cnt = 1 then
      (Task.readInt s).bind fun priority s =>
        (Task.readString s).bind fun path s => .ok { dest with cnt, priority, path } s
    else (Task.readInt s).bind fun id s => .ok { dest with cnt, id } s

end DiskAnalyzer
