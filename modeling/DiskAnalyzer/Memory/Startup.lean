import DiskAnalyzer.Memory.Threads

/-!
# `threads_startup` on the memory

The data file is read into records, the records go into the store and their paths into the trie, the
ids below the largest that are not in use become free, and the analyses that are not complete are
started. Every exit with -1 clears what has been built.

`read_string_by_size` does not look at what `malloc` returns; here it is given what it asks for. The
mutexes are made.
-/

namespace DiskAnalyzer.Memory

open Sep Decimal

/-! ## Reading a record -/

/-- `read_string_by_size`: the buffer, and what is left of the file, `none` for the return value -1. -/
def readStringBySize (sz : Int) (fd : Fd) : Code (Addr × Option Fd) :=
  if sz < 0 ∨ 2 ^ 31 ≤ sz + 1 then fault
  else do
    let ret ← grant 1
    match fd.read sz.toNat with
    | none =>
      free (some ret)
      return (ret, none)
    | some (buf, fd) =>
      store ret (.data (.str (cstr buf)))
      return (ret, some fd)

/-- `read_int`. -/
def readInt (fd : Fd) : Code (Option (Int × Fd)) := do
  match ← readStringBySize 10 fd with
  | (_, none) => return none
  | (string, some fd) =>
    let s ← loadStr string
    free (some string)
    return some (atoi s, fd)

/-- `read_int` into a member, and what follows when it returns 0. -/
def readMember {α : Type} (dest : Addr) (fd : Fd) (k : Fd → Code (Option α)) : Code (Option α) := do
  match ← readInt fd with
  | none => return none
  | some (n, fd) =>
    store dest (int n)
    k fd

/-- `read_string` into `anal->path`, and what follows when it returns 0. -/
def readPath {α : Type} (anal : Addr) (fd : Fd) (k : Fd → Code (Option α)) : Code (Option α) := do
  match ← readInt fd with
  | none => return none
  | some (sz, fd) =>
    let (ret, fd) ← readStringBySize sz fd
    store (pathOf anal) (.ptr (some ret))
    match fd with
    | none => return none
    | some fd => k fd

/-- `analysis_read`: the id, and what is left of the file; `none` for the return value -1. -/
def analysisRead (anal : Addr) (fd : Fd) : Code (Option (Int × Fd)) := do
  match ← readInt fd with
  | none => return none
  | some (id, fd) =>
    readMember (totalTime anal) fd fun fd =>
      readMember (cntDirs anal) fd fun fd =>
        readMember (cntFiles anal) fd fun fd =>
          readPath anal fd fun fd =>
            readMember (priorityOf anal) fd fun fd =>
              readMember (statusOf anal) fd fun fd =>
                readMember (suspendedOf anal) fd fun fd => return some (id, fd)

/-! ## Loading -/

/-- What `threads_startup` meets on its way, beside `malloc`; functions of a number count the
analyses. -/
structure StartWorld where
  /-- How many reads of the data file succeed. -/
  reads : Option Nat
  /-- The heap value of a store node. -/
  rand : Nat → Int
  /-- The heap value of the node of a free id. -/
  randFree : Int → Int
  /-- Both acceptor sockets are made. -/
  sockets : Bool
  /-- The pid `fork_request` reads for an id and a path, `none` when it returns 1. -/
  fork : Int → Bytes → Option Int
  /-- `time(NULL)` after the fork request of an id, as the `int` `last_start` holds it. -/
  now : Int → Int

/-- `treap_clear(&(man->analyses)); tree_clear(&(man->paths))`. -/
def clearStore (fuel : Nat) (man : Addr) : Code Unit := do
  treapClear fuel (analysesOf man)
  treeClear fuel (pathsOf man)

/-- One round of the loading loop: the largest id and the file, `none` for the return value -1. -/
def loadOne (fuel : Nat) (w : StartWorld) (man : Addr) (k : Nat) (mxId : Int) (fd : Fd) :
    Code (Option (Int × Fd)) := do
  match ← malloc 9 with
  | none =>
    clearStore fuel man
    return none
  | some anal =>
    match ← analysisRead anal fd with
    | none =>
      free (some anal)
      clearStore fuel man
      return none
    | some (id, fd) =>
      let ret ← treapInsertNew fuel (analysesOf man) id (some anal) (w.rand k)
      if ret ≠ 0 then
        free (some anal)
        clearStore fuel man
        return none
      else
        match ← malloc 1 with
        | none =>
          clearStore fuel man
          return none
        | some idp =>
          store idp (int id)
          let path ← loadPath anal
          let ret ← treeInsert fuel (← deref (← loadPtr (pathsOf man))) path (some idp)
          if ret ≠ 0 then
            free (some idp)
            clearStore fuel man
            return none
          else return some (if id > mxId then id else mxId, fd)

/-- The loading loop: `n` rounds from the `k`-th. -/
def loadLoop (fuel : Nat) (w : StartWorld) (man : Addr) : Nat → Nat → Int → Fd → Code (Option Int)
  | 0, _, mxId, _ => return some mxId
  | n + 1, k, mxId, fd => do
    match ← loadOne fuel w man k mxId fd with
    | none => return none
    | some (mxId, fd) => loadLoop fuel w man n (k + 1) mxId fd

/-- The loop over the free ids: `n` rounds from `i`; 1 when a node cannot be made. -/
def freeLoop (fuel : Nat) (w : StartWorld) (man : Addr) : Nat → Int → Code Int
  | 0, _ => return 0
  | n + 1, i =>
    if ID_MAX < i then return 0
    else do
      match ← treapFind fuel (← loadPtr (analysesOf man)) i with
      | some _ => freeLoop fuel w man n (i + 1)
      | none =>
        let ret ← treapInsertNew fuel (availableIdsOf man) i none (w.randFree i)
        if ret ≠ 0 then return 1
        else freeLoop fuel w man n (i + 1)

/-- The first statement of `initial_forks`: 1 when `fork_request` returns 1. -/
def initialFork (w : StartWorld) (trp : Addr) : Code Int := do
  let anal ← deref (← loadPtr (analOf trp))
  let status ← loadInt (statusOf anal)
  if status ≠ ANALYSIS_COMPLETE then
    let id ← loadInt (idOf trp)
    let path ← loadPath anal
    let ret ← forkRequest (idOf trp) anal (w.fork id path)
    if ret ≠ 0 then return 1
    else
      store (lastStart anal) (int (w.now id))
      return 0
  else
    store (pidOf anal) (int (-1))
    return 0

/-- `initial_forks`. -/
def initialForks : Nat → StartWorld → Ptr → Code Int
  | 0, _, _ => fault
  | _ + 1, _, none => return 0
  | fuel + 1, w, some trp => do
    let ret ← initialFork w trp
    if ret ≠ 0 then return 1
    else
      let left ← initialForks fuel w (← loadPtr (chldLeft trp))
      if left ≠ 0 then return 1
      else initialForks fuel w (← loadPtr (chldRight trp))

/-! ## Starting up -/

/-- The exits of `threads_startup` from the free ids on. -/
def clearAll (fuel : Nat) (man : Addr) : Code Int := do
  treapClear fuel (availableIdsOf man)
  clearStore fuel man
  return -1

/-- `threads_startup` once the data file has been read. -/
def threadsStartupIds (fuel : Nat) (w : StartWorld) (mxId : Int) (man : Addr) : Code Int := do
  store (availableIdsOf man) (.ptr none)
  let ret ← freeLoop fuel w man (mxId + 1).toNat 1
  if ret ≠ 0 then clearAll fuel man
  else if w.sockets = false then clearAll fuel man
  else
    let ret ← initialForks fuel w (← loadPtr (analysesOf man))
    if ret ≠ 0 then clearAll fuel man
    else return 0

/-- `threads_startup` once the number of analyses is known. -/
def threadsStartupLoad (fuel : Nat) (w : StartWorld) (cnt : Int) (fd : Fd) (man : Addr) :
    Code Int := do
  let ret ← treeInit (pathsOf man)
  if ret ≠ 0 then return -1
  else
    store (analysesOf man) (.ptr none)
    match ← loadLoop fuel w man cnt.toNat 0 0 fd with
    | none => return -1
    | some mxId => threadsStartupIds fuel w mxId man

/-- `threads_startup` on a data file that can be opened. -/
def threadsStartup (fuel : Nat) (w : StartWorld) (file : Bytes) (man : Addr) : Code Int := do
  match ← malloc 1 with
  | none => return -1
  | some string =>
    match Fd.read ⟨file, w.reads⟩ 10 with
    | none =>
      free (some string)
      return -1
    | some (bytes, fd) =>
      store string (.data (.str (cstr bytes)))
      let cnt ← (if bytes = [] then pure 0 else do
        let s ← loadStr string
        return atoi s)
      store (analysisCntOf man) (int cnt)
      free (some string)
      threadsStartupLoad fuel w cnt fd man

end DiskAnalyzer.Memory
