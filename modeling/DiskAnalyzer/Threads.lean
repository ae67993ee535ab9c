import DiskAnalyzer.Analysis
import DiskAnalyzer.Treap
import DiskAnalyzer.Tree

/-!
# `threads_manager.c`: the store, one request at a time

The manager's state is a treap of analyses, a trie from their paths to their ids, a treap of free
ids and a counter. A node moves between the two treaps; in the store it carries its analysis, among
the free ids it carries `NULL`, so the two treaps have different types here and moving a node is
`Treap.setAnal`.

This file has the bodies of the operations, each run from its first lock to its last unlock. What
the operations ask of their surroundings (is the path a directory, does `malloc` succeed, which
heap value does `rand` give, does the fork manager answer) is an argument.
-/

namespace DiskAnalyzer

open Treap Decimal

def ID_MAX : Int := 100000

/-- A detached node with another pointer in it. -/
def Treap.setAnal {α β : Type} : Treap α → β → Treap β
  | nil, _ => nil
  | node id heapVal _ _ _, b => node id heapVal b nil nil

/-- Writing through the pointer `treap_find` stores. -/
def Treap.modify {α : Type} (t : Treap α) (id : Int) (f : α → α) : Treap α :=
  match t with
  | nil => nil
  | node i h a l r =>
    if i = id then node i h (f a) l r
    else if i < id then node i h a l (r.modify id f)
    else node i h a (l.modify id f) r

/-- `struct threads_manager`, without its mutexes and sockets. -/
structure ThreadsManager where
  analysisCnt : Int
  analyses : Treap Analysis
  paths : Tree Int
  availableIds : Treap Unit

/-! ## Free ids -/

/-- `get_free_id`: the extracted node, `nil` for `NULL`, and the treap. The last node makes its
successor first; `rand` is what creating that node draws, and `null` what its pointer holds. -/
def getFreeId {α : Type} (rand : Option Int) (null : α) (trp : Treap α) : Treap α × Treap α :=
  match trp with
  | nil => (nil, nil)
  | node id _ _ chldLeft nil =>
    match chldLeft with
    | nil =>
      if id < ID_MAX then
        match treapInsertNew trp (id + 1) null rand with
        | none => (nil, trp)
        | some trp' => treapExtract trp' id
      else treapExtract trp id
    | node left _ _ _ _ => treapExtract trp left
  | node id _ _ _ (node _ _ _ _ _) => treapExtract trp id

/-- `return_id`: a lone node is taken for the successor `get_free_id` made. -/
def returnId {α : Type} (trp nd : Treap α) : Treap α :=
  match trp with
  | node id _ _ nil nil => treapInsertNode (treapRemove trp id).2 nd
  | _ => treapInsertNode trp nd

/-! ## Adding -/

/-- What `threads_add` meets on its way. -/
structure AddEnv where
  /-- `stat` succeeds and finds a directory. -/
  isDir : Bool
  /-- The heap value of a new free id, `none` when its allocation fails. -/
  rand : Option Int
  /-- `malloc` of the id stored in the trie succeeds. -/
  idp : Bool
  /-- The allocations of `tree_insert`. -/
  alloc : Alloc
  /-- The pid `fork_request` reads, `none` when it returns 1. -/
  fork : Option Int
  /-- `time(NULL)`, as the `int` `last_start` holds it. -/
  now : Int
  deriving DecidableEq, Repr

/-- What a request returns, sends and leaves behind. -/
structure AddResult where
  ret : Int
  reply : Bytes
  man : ThreadsManager

/-- The exits of `threads_add` that give the id back end with the id returned. -/
def ThreadsManager.returnId (man : ThreadsManager) (nd : Treap Unit) : ThreadsManager :=
  { man with availableIds := DiskAnalyzer.returnId man.availableIds nd }

/-- `threads_add` from `fork_request` on; the node is in the store and in the trie. -/
def threadsAddFork (env : AddEnv) (man : ThreadsManager) (anal : Analysis) (fd valId : Int) :
    AddResult :=
  match env.fork with
  | none =>
    let (trp, analyses) := treapExtract man.analyses valId
    let paths := (treeRemove man.paths anal.path).2
    ⟨1, analysisCustomMessage fd
        (str "There was an error starting the analysis process. Try again.\n"),
      { man with analyses, paths }.returnId (trp.setAnal ())⟩
  | some pid =>
    let anal := { anal with pid, status := ANALYSIS_INPROGRESS }
    ⟨0, analysisCreated fd valId anal,
      { man with
        analysisCnt := man.analysisCnt + 1
        analyses := man.analyses.modify valId fun _ => anal }⟩

/-- `threads_add` once it holds a node. -/
def threadsAddNode (env : AddEnv) (man : ThreadsManager) (anal : Analysis) (fd : Int)
    (newId : Treap Unit) (valId : Int) : AddResult :=
  let memError := analysisCustomMessage fd
    (str "There was a memory allocation error. Try again.\n")
  if env.idp = false then ⟨1, memError, man.returnId newId⟩
  else
    let (ret, paths) := treeInsert man.paths anal.path (some valId) env.alloc
    let man := { man with paths }
    if ret ≠ 0 then ⟨1, memError, man.returnId newId⟩
    else
      let anal := { anal with lastStart := env.now }
      threadsAddFork env
        { man with analyses := treapInsertNode man.analyses (newId.setAnal anal) } anal fd valId

/-- `threads_add`. -/
def threadsAdd (env : AddEnv) (man : ThreadsManager) (anal : Analysis) (fd : Int) : AddResult :=
  if env.isDir = false then ⟨1, analysisPathNoExists fd anal.path, man⟩
  else
    match treeFindPrefix man.paths anal.path with
    | some otherId => ⟨1, analysisPathAlreadyExists fd anal.path otherId, man⟩
    | none =>
      match getFreeId env.rand () man.availableIds with
      | (nil, availableIds) =>
        ⟨1, analysisCustomMessage fd
            (str "Could not create new id. Try removing some analyses.\n"),
          { man with availableIds }⟩
      | (node valId heapVal _ l r, availableIds) =>
        threadsAddNode env { man with availableIds } anal fd (node valId heapVal () l r) valId

/-! ## Removing -/

/-- What `threads_remove` sends, the file it removes, the process it interrupts, and what it
leaves behind. -/
structure RemoveResult where
  reply : Bytes
  file : Option Bytes
  interrupted : Option Int
  man : ThreadsManager

/-- `threads_remove`. `dirPath` is `DIR_PATH`; `inGroup pid` says that the process exists and is in
the manager's process group. -/
def threadsRemove (dirPath : Bytes) (inGroup : Int → Bool) (man : ThreadsManager) (id fd : Int) :
    RemoveResult :=
  match treapExtract man.analyses id with
  | (nil, analyses) => ⟨analysisIdNoExists fd id, none, none, { man with analyses }⟩
  | (node i h anal _ _, analyses) =>
    ⟨analysisRemoved fd id anal,
      some (snprintf 60 (dirPath ++ printPrec 1 id)),
      if anal.pid ≠ -1 ∧ inGroup anal.pid then some anal.pid else none,
      { analysisCnt := man.analysisCnt - 1
        analyses
        paths := (treeRemove man.paths anal.path).2
        availableIds := treapInsertNode man.availableIds (node i h () nil nil) }⟩

/-! ## Starting up -/

/-- What `threads_startup` meets on its way; the functions count the analyses or the nodes it
makes. -/
structure StartEnv where
  /-- How many reads of the data file succeed. -/
  reads : Option Nat
  /-- `malloc` of the record and of the id pointer succeeds. -/
  record : Nat → Bool
  /-- The heap value of a store node, `none` when its allocation fails. -/
  rand : Nat → Option Int
  /-- What a fresh record holds in `last_start` and `pid`. -/
  memory : Nat → Int × Int
  /-- The allocations of `tree_insert`. -/
  alloc : Nat → Alloc
  /-- The heap value of the node of a free id. -/
  randFree : Int → Option Int
  /-- Both acceptor sockets are made. -/
  sockets : Bool
  /-- The pid `fork_request` reads for an analysis, `none` when it returns 1. -/
  fork : Int → Analysis → Option Int
  /-- `time(NULL)` after the fork request of an id, as the `int` `last_start` holds it. -/
  now : Int → Int

/-- What the loop of `threads_startup` builds. -/
structure Loaded where
  analyses : Treap Analysis
  paths : Tree Int
  mxId : Int
  fd : Fd

/-- One round of the loading loop. -/
def loadOne (env : StartEnv) (k : Nat) (ld : Loaded) : Option Loaded :=
  if env.record k = false then none
  else
    match analysisRead (env.memory k).1 (env.memory k).2 ld.fd with
    | .error _ => none
    | .ok (id, anal, fd) =>
      match treapInsertNew ld.analyses id anal (env.rand k) with
      | none => none
      | some analyses =>
        let (ret, paths) := treeInsert ld.paths anal.path (some id) (env.alloc k)
        if ret ≠ 0 then none else some ⟨analyses, paths, max id ld.mxId, fd⟩

/-- The loading loop: `n` rounds from the `k`-th. -/
def loadLoop (env : StartEnv) : Nat → Nat → Loaded → Option Loaded
  | 0, _, ld => some ld
  | n + 1, k, ld =>
    match loadOne env k ld with
    | none => none
    | some ld' => loadLoop env n (k + 1) ld'

/-- The loop over the free ids: `n` rounds from `i`. -/
def freeLoop (env : StartEnv) (analyses : Treap Analysis) :
    Nat → Int → Treap Unit → Option (Treap Unit)
  | 0, _, free => some free
  | n + 1, i, free =>
    if ID_MAX < i then some free
    else
      match treapFind analyses i with
      | some _ => freeLoop env analyses n (i + 1) free
      | none =>
        match treapInsertNew free i () (env.randFree i) with
        | none => none
        | some free' => freeLoop env analyses n (i + 1) free'

/-- `initial_forks`: `none` is the return value 1. -/
def initialForks (env : StartEnv) : Treap Analysis → Option (Treap Analysis)
  | nil => some nil
  | node id h anal l r =>
    let forked :=
      if anal.status ≠ ANALYSIS_COMPLETE then
        (env.fork id anal).map fun pid => { anal with pid, lastStart := env.now id }
      else some { anal with pid := -1 }
    match forked with
    | none => none
    | some anal' =>
      match initialForks env l with
      | none => none
      | some l' => (initialForks env r).map fun r' => node id h anal' l' r'

/-- The first ten bytes of the data file. -/
def readCount (fd : Fd) : Option (Int × Fd) :=
  match fd.read 10 with
  | none => none
  | some (string, fd') => some (if string = [] then 0 else atoi (cstr string), fd')

/-- `threads_startup` on a data file that can be opened, with the mutexes made: `none` is the
return value -1. -/
def threadsStartup (env : StartEnv) (file : Bytes) : Option ThreadsManager :=
  match readCount ⟨file, env.reads⟩ with
  | none => none
  | some (analysisCnt, fd) =>
    match loadLoop env analysisCnt.toNat 0 ⟨nil, treeInit, 0, fd⟩ with
    | none => none
    | some ld =>
      match freeLoop env ld.analyses (ld.mxId + 1).toNat 1 nil with
      | none => none
      | some availableIds =>
        if env.sockets = false then none
        else
          (initialForks env ld.analyses).map fun analyses =>
            { analysisCnt, analyses, paths := ld.paths, availableIds }

/-! ## Shutting down -/

/-- `treap_save`: each round writes the root and removes it. `n` bounds the rounds; `none` is a
save that needs more. -/
def treapSave : Nat → Treap Analysis → Option Bytes
  | _, nil => some []
  | 0, node _ _ _ _ _ => none
  | n + 1, node id h anal l r =>
    (treapSave n (treapRemove (node id h anal l r) id).2).map (analysisWrite id anal ++ ·)

/-- `threads_shutdown`: what it leaves in the data file, for at most `rounds` rounds of the save
loop. -/
def threadsShutdown (rounds : Nat) (man : ThreadsManager) (old : Bytes) : Option Bytes :=
  (treapSave rounds man.analyses).map fun saved =>
    overwrite old (snprintf 11 (printPrec 10 man.analysisCnt) ++ saved)

end DiskAnalyzer
