import DiskAnalyzer.Progress

/-!
# `tree_write` and `forks_write`: the report

The report is a header, a line for the analysed directory, and a line for every directory below it
in the order of the buckets. The numbers of a line are printed from floats; what they look like is
a parameter.
-/

namespace DiskAnalyzer

/-- The text of the numbers in a line. -/
structure Printing where
  /-- The usage, size and bar of the analysed directory, of its size. -/
  total : Int → Bytes
  /-- The percentage, size and bar of a directory, of its size and the analysed directory's. -/
  share : Int → Int → Bytes

/-- What is written, one part after another, until one of them cannot be. -/
def concatAll : List (Option Bytes) → Option Bytes
  | [] => some []
  | none :: _ => none
  | some s :: rest => (concatAll rest).map (s ++ ·)

mutual

/-- `tree_write`, with what `path` holds up to `pos`: `none` is a node without a state. -/
def treeWrite (fmt : Printing) (total : Int) : Tree State → Bytes → Option Bytes
  | .mk info hsh, path =>
    let line :=
      if 1 < path.length then
        info.map fun st => str "|-" ++ path ++ str " " ++ fmt.share st.size total
      else some []
    concatAll [line, hashWrite fmt total hsh path]

/-- `hash_write`. -/
def hashWrite (fmt : Printing) (total : Int) : Hash (Tree State) → Bytes → Option Bytes
  | ⟨_, children⟩, path =>
    concatAll ((List.range HASH_MOD.toNat).map fun i : Nat => listWrite fmt total (children i) path)

/-- `list_write`. -/
def listWrite (fmt : Printing) (total : Int) :
    List (Bytes × Tree State) → Bytes → Option Bytes
  | [], _ => some []
  | e :: next, path => concatAll [childWrite fmt total e path, listWrite fmt total next path]

/-- One round of `list_write`. -/
def childWrite (fmt : Printing) (total : Int) : Bytes × Tree State → Bytes → Option Bytes
  | (name, node), path =>
    let bar := if path.length = 1 then str "|\n" else []
    (treeWrite fmt total node (path ++ name ++ str "/")).map (bar ++ ·)

end

/-- The first child in the order of the buckets. -/
def firstChild (hsh : Hash (Tree State)) : Option (Tree State) :=
  (((List.range HASH_MOD.toNat).flatMap fun i : Nat => hsh.children i).head?).map Prod.snd

/-- The search of `forks_write` for the analysed node: `none` when it needs more than `fuel` rounds,
or comes to a node with neither a state nor a child and stays there. -/
def firstState : Nat → Tree State → Option (State × Tree State)
  | 0, _ => none
  | fuel + 1, tre =>
    match tre.info with
    | some st => some (st, tre)
    | none => (firstChild tre.hsh).bind fun chld => firstState fuel chld

/-- The bytes `forks_write` writes, `none` when it does not come to its end. -/
def forksWrite (fmt : Printing) (fuel : Nat) (path : Bytes) (tre : Tree State) : Option Bytes :=
  (firstState fuel tre).bind fun found =>
    (treeWrite fmt found.1.size found.2 (str "/")).map fun body =>
      str "1" ++ str "\nPath\tUsage\tSize\tAmount\n" ++ path ++ fmt.total found.1.size ++ body

end DiskAnalyzer
