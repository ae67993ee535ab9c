import DiskAnalyzer.ProgressProof

/-!
# Traversals of a file system without errors

A worker that `SIGINT` does not reach, on a stream without error entries, goes through its loop in
five ways (`Calm`): it adds an entry to the size, it stops at a subdirectory because of `*done`, it
skips one because its own node is done, it starts a frame for one, or it leaves at the end of the
directory. The frames do not know which directory the stream is in. A frame that stops, or skips,
leaves the stream deeper than the frame that goes on expects, so entries are counted at the wrong
node; how many levels the stream is off is what `Calm.length` says.

There is one from every such stream (`exists_calm`), and with enough fuel it is what the loop does
(`Calm.parc`).
-/

namespace DiskAnalyzer

/-! ## Directories -/

namespace Entries

/-- The entries `.` and `..` of a directory itself. -/
def dots : Entries → Nat
  | nil => 0
  | leaf info _ _ next => (if info = .FTS_DOT then 1 else 0) + next.dots
  | dir _ _ _ next => next.dots

/-- The names of its subdirectories. -/
def names : Entries → List Bytes
  | nil => []
  | leaf _ _ _ next => next.names
  | dir name _ _ next => name :: next.names

/-- What is left of a directory, without errors and cycles: its subdirectories have names a file can
hold and are directories themselves. -/
def Clean : Entries → Prop
  | nil => True
  | leaf info _ _ next => info.fails = false ∧ info ≠ .FTS_DC ∧ next.Clean
  | dir name _ entries next =>
    NameOk name ∧ (entries.dots = 2 ∧ entries.names.Nodup ∧ entries.Clean) ∧ next.Clean

/-- A directory as `fts` reads it: with its `.` and `..`, and a name for each subdirectory. -/
def Directory (entries : Entries) : Prop :=
  entries.dots = 2 ∧ entries.names.Nodup ∧ entries.Clean

instance decidableClean : (entries : Entries) → Decidable entries.Clean
  | nil => isTrue trivial
  | leaf info _ _ next =>
    have := decidableClean next
    inferInstanceAs (Decidable (info.fails = false ∧ info ≠ .FTS_DC ∧ next.Clean))
  | dir name _ entries next =>
    have := decidableClean entries
    have := decidableClean next
    inferInstanceAs (Decidable (NameOk name ∧
      (entries.dots = 2 ∧ entries.names.Nodup ∧ entries.Clean) ∧ next.Clean))

instance (entries : Entries) : Decidable entries.Directory :=
  inferInstanceAs (Decidable (entries.dots = 2 ∧ entries.names.Nodup ∧ entries.Clean))

/-- The directories below this one, by their components. -/
def dirPaths : Entries → List (List Bytes)
  | nil => []
  | leaf _ _ _ next => next.dirPaths
  | dir name _ entries next => [name] :: entries.dirPaths.map (name :: ·) ++ next.dirPaths

/-- Everything that is counted as a directory, at any depth. -/
def dirCount : Entries → Nat
  | nil => 0
  | leaf info _ _ next => (if info = .FTS_DOT then 1 else 0) + next.dirCount
  | dir _ _ entries next => 1 + entries.dirCount + next.dirCount

/-- The number of reads to the end of the directory, `FTS_DP` included. -/
def weight : Entries → Nat
  | nil => 1
  | leaf _ _ _ next => next.weight + 1
  | dir _ _ entries next => entries.weight + next.weight + 1

theorem weight_pos (entries : Entries) : 0 < entries.weight := by
  cases entries <;> simp [weight]

theorem dirCount_eq {entries : Entries} (h : entries.Clean) :
    entries.dirCount = 3 * entries.dirPaths.length + entries.dots := by
  induction entries with
  | nil => rfl
  | leaf info name size next ih =>
    obtain ⟨-, -, hnext⟩ := h
    simp only [dirCount, dirPaths, dots, ih hnext]
    omega
  | dir name size entries next ih ih' =>
    obtain ⟨-, ⟨hdots, -, hentries⟩, hnext⟩ := h
    simp only [dirCount, dirPaths, dots, ih hentries, ih' hnext, hdots, List.length_append,
      List.length_cons, List.length_map]
    omega

theorem head_of_mem_dirPaths {entries : Entries} {p : List Bytes} (h : p ∈ entries.dirPaths) :
    ∃ n ∈ entries.names, ∃ q, p = n :: q := by
  induction entries with
  | nil => exact absurd h List.not_mem_nil
  | leaf info name size next ih => exact ih h
  | dir name size entries next ih ih' =>
    rcases List.mem_append.1 h with h | h
    · rcases List.mem_cons.1 h with rfl | h
      · exact ⟨name, List.mem_cons_self, [], rfl⟩
      · obtain ⟨q, -, rfl⟩ := List.mem_map.1 h
        exact ⟨name, List.mem_cons_self, q, rfl⟩
    · obtain ⟨n, hn, hq⟩ := ih' h
      exact ⟨n, List.mem_cons_of_mem _ hn, hq⟩

theorem mem_dirPaths_of_mem_names {entries : Entries} {n : Bytes} (h : n ∈ entries.names) :
    [n] ∈ entries.dirPaths := by
  induction entries with
  | nil => exact absurd h List.not_mem_nil
  | leaf info name size next ih => exact ih h
  | dir name size entries next ih ih' =>
    rcases List.mem_cons.1 h with rfl | h
    · exact List.mem_cons_self
    · exact List.mem_append_right _ (ih' h)

/-- What is left of a directory that can be read: no error among its entries, and a name for each
subdirectory. -/
def Readable : Entries → Prop
  | nil => True
  | leaf info _ _ next => info.fails = false ∧ next.Readable
  | dir name _ entries next =>
    NameOk name ∧ (entries.names.Nodup ∧ entries.Readable) ∧ next.Readable

instance decidableReadable : (entries : Entries) → Decidable entries.Readable
  | nil => isTrue trivial
  | leaf info _ _ next =>
    have := decidableReadable next
    inferInstanceAs (Decidable (info.fails = false ∧ next.Readable))
  | dir name _ entries next =>
    have := decidableReadable entries
    have := decidableReadable next
    inferInstanceAs (Decidable (NameOk name ∧ (entries.names.Nodup ∧ entries.Readable) ∧
      next.Readable))

theorem Clean.readable {entries : Entries} (h : entries.Clean) : entries.Readable := by
  induction entries with
  | nil => trivial
  | leaf info name size next ih => exact ⟨h.1, ih h.2.2⟩
  | dir name size entries next ih ih' =>
    obtain ⟨hname, ⟨-, hsub, hentries⟩, hnext⟩ := h
    exact ⟨hname, ⟨hsub, ih hentries⟩, ih' hnext⟩

theorem nodup_dirPaths_of_readable {entries : Entries} (hnames : entries.names.Nodup)
    (h : entries.Readable) : entries.dirPaths.Nodup := by
  induction entries with
  | nil => exact List.nodup_nil
  | leaf info name size next ih => exact ih hnames h.2
  | dir name size entries next ih ih' =>
    obtain ⟨-, ⟨hsub, hentries⟩, hnext⟩ := h
    obtain ⟨hname, hnames⟩ := List.nodup_cons.1 hnames
    refine List.nodup_append.2 ⟨List.nodup_cons.2 ⟨?_, ?_⟩, ih' hnames hnext, ?_⟩
    · intro hmem
      obtain ⟨q, hq, heq⟩ := List.mem_map.1 hmem
      obtain ⟨n, -, r, rfl⟩ := head_of_mem_dirPaths hq
      simp at heq
    · exact (ih hsub hentries).map fun _ _ heq => List.tail_eq_of_cons_eq heq
    · intro p hp p' hp' heq
      subst heq
      obtain ⟨n, hn, q, rfl⟩ := head_of_mem_dirPaths hp'
      refine hname ?_
      rcases List.mem_cons.1 hp with hp | hp
      · exact (List.cons.inj hp).1 ▸ hn
      · obtain ⟨r, -, heq⟩ := List.mem_map.1 hp
        exact (List.cons.inj heq).1 ▸ hn

theorem nodup_dirPaths {entries : Entries} (hnames : entries.names.Nodup) (h : entries.Clean) :
    entries.dirPaths.Nodup := nodup_dirPaths_of_readable hnames h.readable

theorem nameOk_of_mem_dirPaths {entries : Entries} (h : entries.Clean) {p : List Bytes}
    (hp : p ∈ entries.dirPaths) {n : Bytes} (hn : n ∈ p) : NameOk n := by
  induction entries generalizing p with
  | nil => exact absurd hp List.not_mem_nil
  | leaf info name size next ih => exact ih h.2.2 hp hn
  | dir name size entries next ih ih' =>
    obtain ⟨hname, ⟨-, -, hentries⟩, hnext⟩ := h
    rcases List.mem_append.1 hp with hp | hp
    · rcases List.mem_cons.1 hp with rfl | hp
      · rwa [List.mem_singleton.1 hn]
      · obtain ⟨q, hq, rfl⟩ := List.mem_map.1 hp
        rcases List.mem_cons.1 hn with rfl | hn
        · exact hname
        · exact ih hentries hq hn
    · exact ih' hnext hp hn

theorem goodNames_of_mem_dirPaths {entries : Entries} (h : entries.Clean) {p : List Bytes}
    (hp : p ∈ entries.dirPaths) : GoodNames p := fun _ hn => (nameOk_of_mem_dirPaths h hp hn).good

end Entries

namespace Fts

def dots (ftsp : Fts) : Nat := (ftsp.map Entries.dots).sum

def dirCount (ftsp : Fts) : Nat := (ftsp.map Entries.dirCount).sum

def weight (ftsp : Fts) : Nat := (ftsp.map Entries.weight).sum

@[simp] theorem dots_cons (e : Entries) (up : Fts) : Fts.dots (e :: up) = e.dots + Fts.dots up := by
  simp [dots]

@[simp] theorem dirCount_cons (e : Entries) (up : Fts) :
    Fts.dirCount (e :: up) = e.dirCount + Fts.dirCount up := by simp [dirCount]

@[simp] theorem weight_cons (e : Entries) (up : Fts) :
    Fts.weight (e :: up) = e.weight + Fts.weight up := by simp [weight]

/-- A directory on the stream has at most two of these entries ahead. -/
theorem dots_le {ftsp : Fts} (h : ∀ e ∈ ftsp, e.dots ≤ 2) : ftsp.dots ≤ 2 * ftsp.length := by
  induction ftsp with
  | nil => exact Nat.le_refl _
  | cons e up ih =>
    have hup := ih fun e' he' => h e' (List.mem_cons_of_mem _ he')
    have he := h e List.mem_cons_self
    rw [dots_cons, List.length_cons]
    omega

end Fts

/-! ## Nodes with a state -/

namespace Tree

/-- There is a state under these components. -/
def HasState (t : Tree State) (p : List Bytes) : Prop := t.val p ≠ none

theorem hasState_nil {t : Tree State} : t.HasState [] ↔ t.info ≠ none := Iff.rfl

theorem hasState_cons {t : Tree State} {c : Bytes} {p : List Bytes} :
    t.HasState (c :: p) ↔ ∃ n, hashFind t.hsh c = some n ∧ n.HasState p := by
  unfold HasState
  rw [val_cons]
  cases hashFind t.hsh c <;> simp

theorem hasState_modifyState {t : Tree State} (f : State → State) {p : List Bytes} :
    (t.modifyState f).HasState p ↔ t.HasState p := by
  cases p with
  | nil => simp [HasState, modifyState]
  | cons c p => rfl

theorem hasState_addSize {t : Tree State} (size : Int) {p : List Bytes} :
    (t.addSize size).HasState p ↔ t.HasState p := hasState_modifyState _

theorem hasState_enter {t : Tree State} {p : List Bytes} :
    t.enter.HasState p ↔ p = [] ∨ t.HasState p := by
  unfold enter
  cases hi : t.info with
  | some st =>
    refine ⟨Or.inr, fun h => h.elim (fun hp => ?_) id⟩
    rw [hp, hasState_nil, hi]
    exact Option.some_ne_none st
  | none =>
    cases p with
    | nil => simp [HasState]
    | cons c p =>
      rw [hasState_cons, hasState_cons]
      simp

@[simp] theorem isDone_addSize (t : Tree State) (size : Int) :
    (t.addSize size).isDone = t.isDone := by
  unfold isDone addSize modifyState
  rw [info_mk, Option.any_map]

@[simp] theorem isDone_setChild (t : Tree State) (path : Bytes) (n : Tree State) :
    (t.setChild path n).isDone = t.isDone := rfl

@[simp] theorem isDone_enter (t : Tree State) : t.enter.isDone = t.isDone := by
  unfold enter isDone
  cases hi : t.info <;> simp [hi]

theorem Stored.modifyState {t : Tree State} (ht : t.Stored) (f : State → State) :
    (t.modifyState f).Stored := ht.withInfo _

theorem Stored.addSize {t : Tree State} (ht : t.Stored) (size : Int) : (t.addSize size).Stored :=
  ht.modifyState _

theorem Stored.enter {t : Tree State} (ht : t.Stored) : t.enter.Stored := by
  unfold Tree.enter
  split
  · exact ht
  · exact ht.withInfo _

end Tree

/-! ## The child of a frame -/

open DiskAnalyzer.Tree

section Child

variable {curr : Tree State} {name : Bytes}

theorem withChild_of_some {n : Tree State} (h : hashFind curr.hsh name = some n) :
    withChild curr name = curr := by
  unfold withChild
  rw [h]
  rfl

/-- A missing child is made without a state. -/
theorem withChild_of_none (hn : NameOk name) (h : hashFind curr.hsh name = none) :
    withChild curr name =
      .mk curr.info (hashSet (hashInsert curr.hsh name treeInit).1 name treeInit) := by
  have hskip := skipSlashes_self hn.good
  have hcomp := component_self hn.good.2
  have hafter := afterComponent_self hn.good.2
  unfold withChild
  rw [if_pos (by rw [h]; rfl), treeInsert_new (by rw [hskip]; exact hn.good.1)
    (by rw [hskip, hcomp, h]) (by rw [hskip, h]) _ (by simp), hskip, hcomp, hafter,
    treeInsert_of_nil rfl]
  rfl

theorem info_withChild (hn : NameOk name) :
    (withChild curr name).info = curr.info := by
  cases hf : hashFind curr.hsh name with
  | some n => rw [withChild_of_some hf]
  | none => rw [withChild_of_none hn hf, info_mk]

theorem isDone_withChild (hn : NameOk name) :
    (withChild curr name).isDone = curr.isDone := by
  unfold isDone
  rw [info_withChild hn]

theorem stored_withChild (ht : curr.Stored) (hn : NameOk name) : (withChild curr name).Stored := by
  cases hf : hashFind curr.hsh name with
  | some n => rwa [withChild_of_some hf]
  | none =>
    rw [withChild_of_none hn hf]
    exact ht.addChild hn hf _ stored_treeInit

theorem find_withChild (ht : curr.Stored) (hn : NameOk name) {c : Bytes} (hc : GoodName c) :
    hashFind (withChild curr name).hsh c =
      if c = name then some ((hashFind curr.hsh name).getD treeInit) else hashFind curr.hsh c := by
  cases hf : hashFind curr.hsh name with
  | some n =>
    rw [withChild_of_some hf]
    split_ifs with hcn
    · rw [hcn, hf]
      rfl
    · rfl
  | none =>
    rw [withChild_of_none hn hf]
    exact find_insertChild ht.good hn.good hf hc

/-- The node for which a frame is started: a new one, or one from earlier. -/
def frameChild (curr : Tree State) (name : Bytes) : Tree State :=
  (hashFind curr.hsh name).getD treeInit

theorem find_frameChild (ht : curr.Stored) (hn : NameOk name) :
    hashFind (withChild curr name).hsh name = some (frameChild curr name) := by
  rw [find_withChild ht hn hn.good, if_pos rfl, frameChild]

theorem stored_frameChild (ht : curr.Stored) : (frameChild curr name).Stored := by
  unfold frameChild
  cases hf : hashFind curr.hsh name with
  | some n => exact ht.child hf
  | none => exact stored_treeInit

theorem hasState_frameChild {p : List Bytes} :
    (frameChild curr name).HasState p ↔ curr.HasState (name :: p) := by
  rw [hasState_cons, frameChild]
  cases hf : hashFind curr.hsh name with
  | some n => simp
  | none => simp [HasState, val_treeInit]

theorem hasState_withChild (ht : curr.Stored) (hn : NameOk name) {p : List Bytes}
    (hp : GoodNames p) : (withChild curr name).HasState p ↔ curr.HasState p := by
  cases p with
  | nil => rw [hasState_nil, info_withChild hn, hasState_nil]
  | cons c p =>
    by_cases hcn : c = name
    · rw [hcn, ← hasState_frameChild, frameChild, find_frameChild ht hn, Option.getD_some,
        hasState_frameChild]
    · rw [hasState_cons, hasState_cons, find_withChild ht hn (hp c List.mem_cons_self), if_neg hcn]

/-- The node of a frame when a frame it has started returns. -/
def returned (curr : Tree State) (name : Bytes) (chld : Tree State) : Tree State :=
  ((withChild curr name).setChild name chld).addSize chld.stateSize

theorem stored_returned (ht : curr.Stored) (hn : NameOk name) {chld : Tree State}
    (hc : chld.Stored) : (returned curr name chld).Stored :=
  ((stored_withChild ht hn).setChild name hc).modifyState _

theorem isDone_returned (hn : NameOk name) (chld : Tree State) :
    (returned curr name chld).isDone = curr.isDone := by
  rw [returned, isDone_addSize, isDone_setChild, isDone_withChild hn]

theorem find_returned (ht : curr.Stored) (hn : NameOk name) (chld : Tree State) {c : Bytes}
    (hc : GoodName c) :
    hashFind (returned curr name chld).hsh c =
      if c = name then some chld else hashFind curr.hsh c := by
  have hset := find_setChild (n := chld) (stored_withChild ht hn).good (find_frameChild ht hn) hc
  rw [component_self hn.good.2, find_withChild ht hn hc] at hset
  refine hset.trans ?_
  split_ifs <;> rfl

theorem hasState_returned_nil (hn : NameOk name) {chld : Tree State} :
    (returned curr name chld).HasState [] ↔ curr.HasState [] := by
  rw [returned, hasState_addSize, hasState_nil, info_setChild, info_withChild hn, hasState_nil]

theorem hasState_returned (ht : curr.Stored) (hn : NameOk name) {chld : Tree State}
    {p : List Bytes} : (returned curr name chld).HasState (name :: p) ↔ chld.HasState p := by
  rw [hasState_cons, find_returned ht hn chld hn.good, if_pos rfl]
  simp

theorem hasState_returned_ne (ht : curr.Stored) (hn : NameOk name) {chld : Tree State} {c : Bytes}
    (hc : GoodName c) (hne : c ≠ name) {p : List Bytes} :
    (returned curr name chld).HasState (c :: p) ↔ curr.HasState (c :: p) := by
  rw [hasState_cons, hasState_cons, find_returned ht hn chld hc, if_neg hne]

end Child

/-! ## The walk -/

/-- What a frame and the frames it has started have done. -/
structure Trace where
  /-- The nodes of started frames, from the frame's own, that were not done when started. -/
  visited : List (List Bytes)
  /-- The started frames whose nodes were done. -/
  redone : Nat
  /-- The subdirectories skipped. -/
  skips : Nat
  /-- The frames that have returned because of `*done`. -/
  stops : Nat

namespace Trace

def zero : Trace := ⟨[], 0, 0, 0⟩

def skip : Trace := ⟨[], 0, 1, 0⟩

def stop : Trace := ⟨[], 0, 0, 1⟩

/-- A frame for the child `name`, which was done or not, and what came behind it. -/
def child (name : Bytes) (done : Bool) (t u : Trace) : Trace where
  visited := (if done then [] else [[name]]) ++ t.visited.map (name :: ·) ++ u.visited
  redone := (if done then 1 else 0) + t.redone + u.redone
  skips := t.skips + u.skips
  stops := t.stops + u.stops

end Trace

/-- The loop on a stream without errors, from a round to the return. A frame that skips a
subdirectory reads the `FTS_DP` of that subdirectory next, and leaves. -/
inductive Calm (env : WorkerEnv) :
    Trace → ForksManager → Tree State → Fts → ForksManager → Tree State → Fts → Prop
  | leaf {t : Trace} {man man' : ForksManager} {curr curr' : Tree State} {info : FtsLeaf}
      {name : Bytes} {size : Int} {next : Entries} {up ftsp' : Fts} : info ≠ .FTS_DC →
      Calm env t (polled env man (.leaf info name size)) (curr.addSize size) (next :: up)
        man' curr' ftsp' →
      Calm env t man curr (.leaf info name size next :: up) man' curr' ftsp'
  | stop {man : ForksManager} {curr : Tree State} {name : Bytes} {size : Int}
      {entries next : Entries} {up : Fts} :
      env.done (polled env man (.FTS_D name size)).tick = true → entries.Directory →
      Calm env .stop man curr (.dir name size entries next :: up)
        (polled env man (.FTS_D name size)).ticked curr (entries :: next :: up)
  | skip {man : ForksManager} {curr : Tree State} {name : Bytes} {size : Int}
      {entries next : Entries} {up : Fts} :
      env.done (polled env man (.FTS_D name size)).tick = false → NameOk name →
      curr.isDone = true →
      Calm env .skip man curr (.dir name size entries next :: up)
        (polled env (polled env man (.FTS_D name size)).ticked .FTS_DP)
        ((withChild curr name).modifyState fun st => { st with done := 1 }) (next :: up)
  | child {t u : Trace} {man mid man' : ForksManager} {curr chld curr' : Tree State} {name : Bytes}
      {size : Int} {entries next : Entries} {up ftsp ftsp' : Fts} :
      env.done (polled env man (.FTS_D name size)).tick = false → NameOk name →
      entries.Directory → curr.isDone = false →
      Calm env t (polled env man (.FTS_D name size)).ticked (frameChild curr name).enter
        (entries :: next :: up) mid chld ftsp →
      Calm env u mid (returned curr name chld) ftsp man' curr' ftsp' →
      Calm env (.child name (frameChild curr name).isDone t u) man curr
        (.dir name size entries next :: up) man' curr' ftsp'
  | leave {man : ForksManager} {curr : Tree State} {up : Fts} :
      Calm env .zero man curr (.nil :: up) (polled env man .FTS_DP)
        (curr.modifyState fun st => { st with done := 1 }) up

section Walks

variable {env : WorkerEnv} {t : Trace} {man man' : ForksManager} {curr curr' : Tree State}
  {ftsp ftsp' : Fts}

theorem Calm.stored (h : Calm env t man curr ftsp man' curr' ftsp') (ht : curr.Stored) :
    curr'.Stored := by
  induction h with
  | leaf hinfo hrest ih => exact ih (ht.addSize _)
  | stop hdone hdir => exact ht
  | skip hdone hname hcurr => exact (stored_withChild ht hname).modifyState _
  | child hdone hname hdir hcurr hchild hrest ih ih' =>
    exact ih' (stored_returned ht hname (ih (stored_frameChild ht).enter))
  | leave => exact ht.modifyState _

/-- **How far the stream is off.** A frame that comes back has read its directory to the end, or
the stream is one level deeper for every skip and two for every stop. -/
theorem Calm.length (h : Calm env t man curr ftsp man' curr' ftsp') :
    ftsp'.length + 1 = ftsp.length + t.skips + 2 * t.stops := by
  induction h with
  | leaf hinfo hrest ih => exact ih
  | stop hdone hdir => rfl
  | skip hdone hname hcurr => rfl
  | child hdone hname hdir hcurr hchild hrest ih ih' =>
    simp only [List.length_cons, Trace.child] at ih ih' ⊢
    omega
  | leave => rfl

theorem Calm.clean (h : Calm env t man curr ftsp man' curr' ftsp') (hclean : ∀ e ∈ ftsp, e.Clean) :
    ∀ e ∈ ftsp', e.Clean := by
  induction h with
  | leaf hinfo hrest ih =>
    obtain ⟨⟨-, -, hnext⟩, hup⟩ := List.forall_mem_cons.1 hclean
    exact ih (List.forall_mem_cons.2 ⟨hnext, hup⟩)
  | stop hdone hdir =>
    obtain ⟨⟨-, -, hnext⟩, hup⟩ := List.forall_mem_cons.1 hclean
    exact List.forall_mem_cons.2 ⟨hdir.2.2, List.forall_mem_cons.2 ⟨hnext, hup⟩⟩
  | skip hdone hname hcurr =>
    obtain ⟨⟨-, -, hnext⟩, hup⟩ := List.forall_mem_cons.1 hclean
    exact List.forall_mem_cons.2 ⟨hnext, hup⟩
  | child hdone hname hdir hcurr hchild hrest ih ih' =>
    obtain ⟨⟨-, -, hnext⟩, hup⟩ := List.forall_mem_cons.1 hclean
    exact ih' (ih (List.forall_mem_cons.2 ⟨hdir.2.2, List.forall_mem_cons.2 ⟨hnext, hup⟩⟩))
  | leave => exact (List.forall_mem_cons.1 hclean).2

/-- A walk reads something. -/
theorem Calm.weight_lt (h : Calm env t man curr ftsp man' curr' ftsp') :
    ftsp'.weight < ftsp.weight := by
  induction h with
  | leaf hinfo hrest ih =>
    simp only [Fts.weight_cons, Entries.weight] at ih ⊢
    omega
  | stop hdone hdir =>
    simp only [Fts.weight_cons, Entries.weight]
    omega
  | skip hdone hname hcurr =>
    simp only [Fts.weight_cons, Entries.weight]
    omega
  | child hdone hname hdir hcurr hchild hrest ih ih' =>
    simp only [Fts.weight_cons, Entries.weight] at ih ⊢
    omega
  | leave =>
    rw [Fts.weight_cons]
    exact Nat.lt_add_of_pos_left (Entries.weight_pos _)

/-- **A walk is what the loop does**, when it has fuel for what is ahead: it returns 0. -/
theorem Calm.parc (h : Calm env t man curr ftsp man' curr' ftsp') (hint : env.sigint = none)
    (hclean : ∀ e ∈ ftsp, e.Clean) (ht : curr.Stored) {fuel : Nat} (hfuel : ftsp.weight < fuel) :
    forksFtsParc env fuel man curr ftsp = some ⟨0, man', curr', ftsp'⟩ := by
  have hquiet : ∀ man : ForksManager, ¬ env.interrupted man.tick = true := by
    intro man
    simp [WorkerEnv.interrupted, hint]
  induction h generalizing fuel with
  | leaf hinfo hrest ih =>
    obtain ⟨⟨hfails, -, hnext⟩, hup⟩ := List.forall_mem_cons.1 hclean
    rw [Fts.weight_cons, Entries.weight] at hfuel
    obtain ⟨fuel, rfl⟩ := Nat.exists_eq_succ_of_ne_zero (by omega : fuel ≠ 0)
    rw [forksFtsParc, if_neg (hquiet _)]
    dsimp only [ftsRead]
    rw [if_neg (by simp [hfails])]
    exact ih (List.forall_mem_cons.2 ⟨hnext, hup⟩) (ht.addSize _)
      (by rw [Fts.weight_cons]; omega)
  | stop hdone hdir =>
    obtain ⟨fuel, rfl⟩ := Nat.exists_eq_succ_of_ne_zero (by omega : fuel ≠ 0)
    rw [forksFtsParc, if_neg (hquiet _)]
    exact if_pos hdone
  | skip hdone hname hcurr =>
    rw [Fts.weight_cons, Entries.weight] at hfuel
    obtain ⟨fuel, rfl⟩ := Nat.exists_eq_add_of_lt (by omega : 1 < fuel)
    rw [forksFtsParc, if_neg (hquiet _)]
    dsimp only [ftsRead]
    rw [if_neg (by simp [hdone]), find_frameChild ht hname]
    dsimp only
    rw [isDone_withChild hname, if_pos hcurr]
    -- The next entry is the `FTS_DP` of the skipped subdirectory.
    rw [Nat.add_comm, forksFtsParc, if_neg (hquiet _)]
    rfl
  | child hdone hname hdir hcurr hchild hrest ih ih' =>
    obtain ⟨⟨-, -, hnext⟩, hup⟩ := List.forall_mem_cons.1 hclean
    have hbelow := List.forall_mem_cons.2 ⟨hdir.2.2, List.forall_mem_cons.2 ⟨hnext, hup⟩⟩
    have hlt := hchild.weight_lt
    simp only [Fts.weight_cons, Entries.weight] at hfuel hlt
    obtain ⟨fuel, rfl⟩ := Nat.exists_eq_succ_of_ne_zero (by omega : fuel ≠ 0)
    rw [forksFtsParc, if_neg (hquiet _)]
    dsimp only [ftsRead]
    rw [if_neg (by simp [hdone]), find_frameChild ht hname]
    dsimp only
    rw [isDone_withChild hname, if_neg (by simp [hcurr]),
      ih hbelow (stored_frameChild ht).enter (by simp only [Fts.weight_cons]; omega)]
    dsimp only
    rw [if_neg (by simp)]
    exact ih' (hchild.clean hbelow)
      (stored_returned ht hname (hchild.stored (stored_frameChild ht).enter)) (by omega)
  | leave =>
    obtain ⟨fuel, rfl⟩ := Nat.exists_eq_succ_of_ne_zero (by omega : fuel ≠ 0)
    rw [forksFtsParc, if_neg (hquiet _)]
    rfl

/-- On a stream without errors there is a walk. -/
theorem exists_calm (env : WorkerEnv) (man : ForksManager) (curr : Tree State)
    (hclean : ∀ e ∈ ftsp, e.Clean) (hne : ftsp ≠ []) :
    ∃ t man' curr' ftsp', Calm env t man curr ftsp man' curr' ftsp' := by
  -- On what is ahead in the stream.
  generalize hn : ftsp.weight = n
  induction n using Nat.strong_induction_on generalizing man curr ftsp with
  | _ n ih =>
    obtain ⟨e, up, rfl⟩ := List.exists_cons_of_ne_nil hne
    obtain ⟨he, hup⟩ := List.forall_mem_cons.1 hclean
    cases e with
    | nil => exact ⟨_, _, _, _, .leave⟩
    | leaf info name size next =>
      obtain ⟨hfails, hcycle, hnext⟩ := he
      rw [Fts.weight_cons, Entries.weight] at hn
      obtain ⟨t, man', curr', ftsp', hcalm⟩ := ih (n - 1) (by omega)
        (polled env man (.leaf info name size)) (curr.addSize size)
        (List.forall_mem_cons.2 ⟨hnext, hup⟩) (List.cons_ne_nil _ _)
        (by rw [Fts.weight_cons]; omega)
      exact ⟨t, man', curr', ftsp', .leaf hcycle hcalm⟩
    | dir name size entries next =>
      obtain ⟨hname, hdir, hnext⟩ := he
      rw [Fts.weight_cons, Entries.weight] at hn
      cases hdone : env.done (polled env man (.FTS_D name size)).tick with
      | true => exact ⟨_, _, _, _, .stop hdone hdir⟩
      | false =>
        cases hcurr : curr.isDone with
        | true => exact ⟨_, _, _, _, .skip hdone hname hcurr⟩
        | false =>
          have hbelow : ∀ e ∈ entries :: next :: up, e.Clean :=
            List.forall_mem_cons.2 ⟨hdir.2.2, List.forall_mem_cons.2 ⟨hnext, hup⟩⟩
          obtain ⟨t, mid, chld, ftsp, hcalm⟩ := ih (n - 1) (by omega)
            (polled env man (.FTS_D name size)).ticked (frameChild curr name).enter hbelow
            (List.cons_ne_nil _ _) (by simp only [Fts.weight_cons]; omega)
          have hlen := hcalm.length
          have hlt := hcalm.weight_lt
          simp only [List.length_cons, Fts.weight_cons] at hlen hlt
          have hne' : ftsp ≠ [] := by
            rintro rfl
            rw [List.length_nil] at hlen
            omega
          obtain ⟨u, man', curr', ftsp', hcalm'⟩ :=
            ih ftsp.weight (by omega) mid (returned curr name chld) (hcalm.clean hbelow) hne' rfl
          exact ⟨_, man', curr', ftsp', .child hdone hname hdir hcurr hcalm hcalm'⟩

end Walks

end DiskAnalyzer
