import DiskAnalyzer.Lines

/-!
# What a report leaves of an earlier file

`forks_write` opens the file of the analysis without emptying it, and the client prints it to its
end. What the file has held behind the length of the report is printed, too. An earlier file is the
progress of a stopped worker; a directory takes 24 bytes and its name there, and its line in a
report can be shorter.

* `printLoop`, `clientReport`: the client's loops.
* `length_forksSave`, `length_report`: both encodings by their nodes.
* `only_report_iff`: when the file holds nothing else.
-/

namespace DiskAnalyzer

open Decimal DiskAnalyzer.Tree

/-! ## The client -/

/-- The last loop of `main`: `read` fills the buffer but at the end of the file, and `"%s"` prints
it up to the first `NUL`. -/
def printLoop (fd : Bytes) : Bytes :=
  if fd.length < 100 then cstr fd else cstr (fd.take 100) ++ printLoop (fd.drop 100)
termination_by fd.length

/-- What `main` prints of the file of a complete analysis. An empty file has it read for ever. -/
def clientReport : Bytes → Option Bytes
  | [] => none
  | dump :: fd => some (if dump = 49 then printLoop fd ++ str "\n" else [])

theorem printLoop_eq {fd : Bytes} (h : 0 ∉ fd) : printLoop fd = fd := by
  induction fd using printLoop.induct with
  | case1 fd hlast => rw [printLoop, if_pos hlast, cstr_eq_self h]
  | case2 fd hfull ih =>
    rw [printLoop, if_neg hfull, cstr_eq_self fun h0 => h (List.mem_of_mem_take h0),
      ih fun h0 => h (List.mem_of_mem_drop h0), List.take_append_drop]

/-! ## The length of a report -/

/-- The bytes of a directory's line, with the bar before it where it is in the analysed one. -/
def lineLength (fmt : Printing) (total : Int) (x : List Bytes × Option State) : Nat :=
  (if x.1.length = 1 then 2 else 0) + x.2.elim 0 fun st =>
    4 + (x.1.map fun name => name.length + 1).sum + (fmt.share st.size total).length

/-- The bytes of a report: its type, the header, the path, the numbers of the analysed directory,
and the lines of the directories below. -/
def reportLength (fmt : Printing) (path : Bytes) (node : Tree State) (total : Int) : Nat :=
  25 + path.length + (fmt.total total).length +
    ((hashNodes node.hsh).map (lineLength fmt total)).sum

theorem length_relPath (names : List Bytes) :
    (relPath names).length = (names.map fun name => name.length + 1).sum := by
  rw [relPath, List.length_flatMap]
  simp [str]

theorem length_reportLine (fmt : Printing) (total : Int) (x : List Bytes × Option State) :
    (if x.1.length = 1 then 2 else 0) + (reportLine fmt total x).length =
      lineLength fmt total x := by
  obtain ⟨names, info⟩ := x
  cases info with
  | none => rfl
  | some st =>
    simp only [reportLine, lineLength, Option.elim_some, List.length_append, length_relPath, str]
    simp +arith

theorem ne_nil_of_mem_hashNodes {hsh : Hash (Tree State)} {x : List Bytes × Option State}
    (hx : x ∈ hashNodes hsh) : x.1 ≠ [] := by
  rw [hashNodes_eq] at hx
  obtain ⟨e, -, hx⟩ := List.mem_flatMap.1 hx
  have hhead := head_of_mem_childNodes (List.mem_map_of_mem hx)
  exact fun hnil => absurd hhead (by simp [hnil])

/-- One bar for a child and all that is below it. -/
theorem length_childLines (fmt : Printing) (total : Int) (e : Bytes × Tree State) :
    2 + ((childNodes e).flatMap (reportLine fmt total)).length =
      ((childNodes e).map (lineLength fmt total)).sum := by
  obtain ⟨name, node⟩ := e
  have hbelow : (hashNodes node.hsh).map
      ((fun x => (reportLine fmt total x).length) ∘ fun x => (name :: x.1, x.2)) =
        (hashNodes node.hsh).map (lineLength fmt total ∘ fun x => (name :: x.1, x.2)) := by
    refine List.map_congr_left fun x hx => ?_
    have hdeep : ¬ (name :: x.1).length = 1 := fun h1 =>
      ne_nil_of_mem_hashNodes hx (List.eq_nil_of_length_eq_zero (Nat.succ.inj h1))
    simp only [Function.comp_apply]
    rw [← length_reportLine, if_neg hdeep, Nat.zero_add]
  rw [List.length_flatMap, childNodes, List.map_map, List.map_map, nodes_eq, List.map_cons,
    List.map_cons, List.sum_cons, List.sum_cons, hbelow]
  simp only [Function.comp_apply]
  rw [← length_reportLine fmt total ([name], node.info), if_pos List.length_singleton,
    Nat.add_assoc]

theorem length_reportBody (fmt : Printing) (total : Int) (node : Tree State) :
    (reportBody fmt total node).length =
      ((hashNodes node.hsh).map (lineLength fmt total)).sum := by
  have hsum : ∀ l : List (Bytes × Tree State),
      (l.flatMap fun e => str "|\n" ++ (childNodes e).flatMap (reportLine fmt total)).length =
        ((l.flatMap childNodes).map (lineLength fmt total)).sum := by
    intro l
    induction l with
    | nil => rfl
    | cons e l ih =>
      rw [List.flatMap_cons, List.flatMap_cons, List.length_append, ih, List.length_append,
        List.map_append, List.sum_append, ← length_childLines]
      rfl
  rw [reportBody, hashNodes_eq, hsum]

theorem length_reportText (fmt : Printing) (path : Bytes) (node : Tree State) (total : Int) :
    (reportText fmt path node total).length = reportLength fmt path node total := by
  simp only [reportText, List.length_append, length_reportBody, reportLength, str]
  simp

/-! ## The length of saved progress -/

/-- The bytes of a directory's record: its sign, length and name, its state, and the sign that ends
its children. -/
def recordLength (x : List Bytes × Option State) : Nat :=
  (x.1.getLast?.elim 0 fun name => 11 + name.length) + (x.2.elim 1 fun _ => 12) + 1

theorem length_stateWrite (info : Option State) :
    (stateWrite info).length = info.elim 1 fun _ => 12 := by
  cases info with
  | none => rfl
  | some st =>
    rw [stateWrite, List.length_append, List.length_append, length_sizeField]
    split_ifs <;> rfl

theorem length_childSave (e : Bytes × Tree State) :
    (childSave e).length = 11 + e.1.length + (treeSave e.2).length := by
  obtain ⟨name, node⟩ := e
  have hlen := le_length_printWidth (wrap32 name.length)
  rw [childSave, List.length_append, List.length_append, snprintf, List.length_take,
    List.length_append]
  simp [str]
  omega

/-- A child's record has its name, those below it are the same from above. -/
theorem sum_recordLength_childNodes (e : Bytes × Tree State) :
    ((childNodes e).map recordLength).sum =
      11 + e.1.length + (e.2.nodes.map recordLength).sum := by
  obtain ⟨name, node⟩ := e
  have hbelow : (hashNodes node.hsh).map (recordLength ∘ fun x => (name :: x.1, x.2)) =
      (hashNodes node.hsh).map recordLength := by
    refine List.map_congr_left fun x hx => ?_
    obtain ⟨c, cs, hcs⟩ := List.exists_cons_of_ne_nil (ne_nil_of_mem_hashNodes hx)
    simp only [Function.comp_apply, recordLength, hcs, List.getLast?_cons_cons]
  rw [childNodes, List.map_map, nodes_eq, List.map_cons, List.map_cons, hbelow, List.sum_cons,
    List.sum_cons]
  simp only [Function.comp_apply, recordLength, List.getLast?_singleton, List.getLast?_nil,
    Option.elim_some, Option.elim_none]
  omega

/-- The root's record has neither sign nor name. -/
theorem length_treeSave (t : Tree State) :
    (treeSave t).length = (t.nodes.map recordLength).sum := by
  induction t using Tree.ind with
  | h info hsh ih =>
  have hsum : ∀ l : List (Bytes × Tree State), (∀ e ∈ l, e ∈ hsh.entries) →
      (l.flatMap childSave).length = ((l.flatMap childNodes).map recordLength).sum := by
    intro l hl
    induction l with
    | nil => rfl
    | cons e l ihl =>
      obtain ⟨he, hl⟩ := List.forall_mem_cons.1 hl
      obtain ⟨i, -, hi⟩ := List.mem_flatMap.1 he
      rw [List.flatMap_cons, List.flatMap_cons, List.length_append, length_childSave, ihl hl,
        List.map_append, List.sum_append, sum_recordLength_childNodes, ih i e hi]
  rw [treeSave, List.length_append, length_stateWrite, hashSave_eq, List.length_append,
    hsum _ fun e he => he, nodes_eq, List.map_cons, List.sum_cons, hsh_mk, hashNodes_eq]
  simp only [recordLength, List.getLast?_nil, Option.elim_none, info_mk]
  simp [str]
  omega

/-- The bytes of saved progress: its type and the records. -/
def progressLength (t : Tree State) : Nat := 1 + (t.nodes.map recordLength).sum

theorem length_forksSave (t : Tree State) : (forksSave t).length = progressLength t := by
  rw [forksSave, List.length_append, length_treeSave]
  rfl

/-! ## Nothing else -/

theorem overwrite_eq_iff (old new : Bytes) : overwrite old new = new ↔ old.length ≤ new.length := by
  rw [overwrite, List.append_right_eq_self, List.drop_eq_nil_iff]

/-- The texts of the numbers are strings. -/
structure Printing.Strings (fmt : Printing) : Prop where
  total : ∀ size, 0 ∉ fmt.total size
  share : ∀ size total, 0 ∉ fmt.share size total

section Strings

variable {fmt : Printing} {total : Int}

theorem noNul_reportLine (hfmt : fmt.Strings) {x : List Bytes × Option State}
    (hx : ∀ c ∈ x.1, NameOk c) : 0 ∉ reportLine fmt total x := by
  obtain ⟨names, info⟩ := x
  cases info with
  | none => exact List.not_mem_nil
  | some st =>
    have hpath := noNul_relPath hx
    have hshare := hfmt.share st.size total
    simp only [reportLine, Option.elim_some, List.mem_append, not_or] at hpath ⊢
    exact ⟨⟨⟨by decide, hpath.2⟩, by decide⟩, hshare⟩

theorem noNul_reportBody (hfmt : fmt.Strings) {node : Tree State} (ht : node.Stored) :
    0 ∉ reportBody fmt total node := by
  intro hmem
  obtain ⟨e, he, hmem⟩ := List.mem_flatMap.1 hmem
  rcases List.mem_append.1 hmem with hmem | hmem
  · exact absurd hmem (by decide)
  · obtain ⟨x, hx, hmem⟩ := List.mem_flatMap.1 hmem
    have hbelow : x ∈ node.nodes := by
      rw [nodes_eq, hashNodes_eq]
      exact List.mem_cons_of_mem _ (List.mem_flatMap.2 ⟨e, he, hx⟩)
    exact noNul_reportLine hfmt (nameOk_of_mem_nodes ht hbelow) hmem

/-- The client prints the whole report behind its type. -/
theorem clientReport_reportText (hfmt : fmt.Strings) {path : Bytes} (hpath : 0 ∉ path)
    {node : Tree State} (ht : node.Stored) : clientReport (reportText fmt path node total) =
      some ((reportText fmt path node total).tail ++ str "\n") := by
  have htext : 0 ∉ (reportText fmt path node total).tail := by
    have hbody := (noNul_reportBody hfmt ht : 0 ∉ reportBody fmt total node)
    have htotal := hfmt.total total
    have hheader : 0 ∉ str "\nPath\tUsage\tSize\tAmount\n" := by decide
    change 0 ∉ str "\nPath\tUsage\tSize\tAmount\n" ++ path ++ fmt.total total ++ _
    simp only [List.mem_append, not_or]
    exact ⟨⟨⟨hheader, hpath⟩, htotal⟩, hbody⟩
  have hcons : reportText fmt path node total = 49 :: (reportText fmt path node total).tail := rfl
  rw [hcons, clientReport, if_pos rfl, printLoop_eq htext]
  rfl

end Strings

/-- The file holds the report and nothing else, and so does what the client prints of it. -/
def OnlyReport (file report : Bytes) : Prop :=
  file = report ∧ clientReport file = some (report.tail ++ str "\n")

theorem bytesOnly_strings : bytesOnly.Strings where
  total size := by
    have hsize := zero_notMem_printPrec 1 size
    simp only [bytesOnly, List.mem_append, not_or]
    exact ⟨⟨⟨⟨by decide, hsize⟩, by decide⟩, by decide⟩, by decide⟩
  share _ _ := List.not_mem_nil

/-- A file and so many directories `a`, `b` and so on in front of it, on a file system whose
directories have no size. -/
def hollowDirs : Nat → Entries
  | 0 => .leaf .FTS_F (str "f") 1000 .nil
  | n + 1 => .dir [97 + n.toUInt8] 0
      (.leaf .FTS_DOT (str ".") 0 <| .leaf .FTS_DOT (str "..") 0 .nil) (hollowDirs n)

/-- The text of the share of a directory without a size. -/
def zeroShares : Printing := { bytesOnly with share := fun _ _ => str "0.00% 0.00B \n" }

theorem zeroShares_strings : zeroShares.Strings :=
  ⟨bytesOnly_strings.total, fun size total => by
    change 0 ∉ str "0.00% 0.00B \n"
    decide⟩

/-- A worker that `SIGTERM` reaches when it has read everything saves the whole tree. -/
theorem add_stopped_late {env : WorkerEnv} (hint : env.sigint = none) {root : Entries}
    (hroot : root.FileTree) (hstop : stopAt env.done 0 root = none)
    (hlate : env.done (root.ticks + 2) = true) (fmt : Printing) (id : Int) (path : Bytes) :
    ∃ man' node, Surveyed root (newWorker id path) man' node ∧ ∀ fuel ≥ root.weight, ∃ saved,
      forksAdd env fmt fuel id path (some root) [] = some saved ∧
      saved.file = forksSave (solvedTree treeInit path node) := by
  obtain ⟨man', node, hm, htick, hsolve⟩ := solve_unstopped hint hroot (newWorker id path) hstop
  have hdone : ¬ env.done (man'.tick + 2) = false := by
    rw [htick, show (newWorker id path).tick + root.ticks = root.ticks from Nat.zero_add _, hlate]
    decide
  have hquiet : ¬ env.interrupted man'.tick = true := by simp [WorkerEnv.interrupted, hint]
  refine ⟨man', node, hm, fun fuel hfuel => ?_⟩
  obtain ⟨saved, hfinish, hfile⟩ : ∃ saved,
      forksFinish env fmt fuel [] man' (solvedTree treeInit path node) = some saved ∧
      saved.file = forksSave (solvedTree treeInit path node) := by
    rw [forksFinish, if_neg hquiet]
    exact ⟨_, if_neg hdone, List.append_nil _⟩
  refine ⟨saved, ?_, hfile⟩
  have hread : forksReadProgress fuel [] = some (0, treeInit) := rfl
  rw [forksAdd, hread]
  dsimp only
  rw [if_neg (by decide), if_neg (by decide), ← newWorker, hsolve fuel hfuel]
  exact (if_neg (by simp)).trans hfinish

/-- The way to a node is saved in front of it: 13 bytes and its name for each directory on it. -/
theorem sum_recordLength_chainTree {node : Tree State} {cs : List Bytes}
    (hcs : ∀ c ∈ cs, NameOk c) : ((chainTree node cs).nodes.map recordLength).sum =
      (cs.map fun c => 13 + c.length).sum + (node.nodes.map recordLength).sum := by
  induction cs with
  | nil => rw [chainTree, List.map_nil, List.sum_nil, Nat.zero_add]
  | cons c cs ih =>
    obtain ⟨hc, hcs⟩ := List.forall_mem_cons.1 hcs
    have hperm := (hashNodes_perm (Hash.holds_single hc (chainTree node cs))).map recordLength
    rw [List.flatMap_singleton] at hperm
    rw [chainTree, nodes_eq, List.map_cons, List.sum_cons, hsh_mk, info_mk, hperm.sum_eq,
      sum_recordLength_childNodes, ih hcs, List.map_cons, List.sum_cons]
    simp only [recordLength, List.getLast?_nil, Option.elim_none]
    omega

end DiskAnalyzer
