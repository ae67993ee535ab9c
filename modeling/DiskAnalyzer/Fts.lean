import DiskAnalyzer.Bytes

/-!
# The stream of `fts`

A directory is the list of its entries in the order `fts_read` gives them, with a subdirectory's
entries in place. `fts_open` is called with `FTS_SEEDOT`, so `.` and `..` are entries too.

An open stream is the stack of what is left of the directories it is in. Reading goes down into a
subdirectory (`FTS_D`) and up again behind its last entry (`FTS_DP`); `fts_set` with `FTS_SKIP`
drops what is left of the directory just entered.
-/

namespace DiskAnalyzer

/-- The values of `fts_info` other than `FTS_D` and `FTS_DP`. -/
inductive FtsLeaf where
  | FTS_DC
  | FTS_DEFAULT
  | FTS_DNR
  | FTS_DOT
  | FTS_ERR
  | FTS_F
  | FTS_NS
  | FTS_NSOK
  | FTS_SL
  | FTS_SLNONE
  deriving DecidableEq, Repr

/-- The entries of a directory, with `fts_name` and `st_size`. -/
inductive Entries where
  | nil
  | leaf (info : FtsLeaf) (name : Bytes) (size : Int) (next : Entries)
  | dir (name : Bytes) (size : Int) (entries : Entries) (next : Entries)
  deriving DecidableEq, Repr

/-- What `fts_read` returns. -/
inductive FtsEnt where
  | leaf (info : FtsLeaf) (name : Bytes) (size : Int)
  | FTS_D (name : Bytes) (size : Int)
  | FTS_DP
  deriving DecidableEq, Repr

/-- An open stream. -/
abbrev Fts := List Entries

/-- `fts_read`: the entry, `none` for `NULL`. -/
def ftsRead : Fts → Option (FtsEnt × Fts)
  | [] => none
  | .nil :: up => some (.FTS_DP, up)
  | .leaf info name size next :: up => some (.leaf info name size, next :: up)
  | .dir name size entries next :: up => some (.FTS_D name size, entries :: next :: up)

/-- `fts_set` with `FTS_SKIP` on the directory just read. -/
def ftsSkip : Fts → Fts
  | [] => []
  | _ :: up => .nil :: up

end DiskAnalyzer
