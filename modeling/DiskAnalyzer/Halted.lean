import DiskAnalyzer.Sizes

/-!
# Frames above a stop

`*done` is read behind the `FTS_D` of a subdirectory. The frame that finds it set returns there, in
front of the entries of that subdirectory, and the frames that have started it go on in the same
stream: each adds up what it reads until the next `FTS_D`, where it stops too, or until an
`FTS_DP`, which it takes for the end of its own directory. So the saved tree is true if there is a
subdirectory to stop at for every frame, and otherwise it has a node that is done and whose
directory has not been read.

* `walk_late`: a frame that goes on once `*done` is set.
* `Unwound`: what a frame above the stop has done by its return.
* `walk_halted`: a frame in which the traversal is stopped, by induction on the entries.
-/

namespace DiskAnalyzer

open DiskAnalyzer.Tree Decimal

namespace Entries

/-- The sizes of the entries anywhere below, in the order of the reads. -/
def sizes (entries : Entries) : List Int := entries.leaves.map Prod.snd

/-- The length of the way from first subdirectory to first subdirectory. -/
def chain : Entries → Nat
  | nil => 0
  | leaf _ _ _ next => next.chain
  | dir _ _ entries _ => entries.chain + 1

/-- The directories below, with the sizes below each and the number of reads left behind its
`FTS_DP`, when `after` are left behind the `FTS_DP` of this one. -/
def closings (after : Nat) : Entries → List (List Bytes × List Int × Nat)
  | nil => []
  | leaf _ _ _ next => next.closings after
  | dir name _ entries next =>
    ([name], entries.sizes, next.weight + after) ::
        (entries.closings (next.weight + after)).map (fun d => (name :: d.1, d.2)) ++
      next.closings after

/-- This directory, by the empty path, and the directories below. -/
def extents (after : Nat) (entries : Entries) : List (List Bytes × List Int × Nat) :=
  ([], entries.sizes, after) :: entries.closings after

@[simp] theorem sizes_leaf (info : FtsLeaf) (name : Bytes) (size : Int) (next : Entries) :
    (leaf info name size next).sizes = size :: next.sizes := rfl

@[simp] theorem sizes_dir (name : Bytes) (size : Int) (entries next : Entries) :
    (dir name size entries next).sizes = entries.sizes ++ next.sizes := by
  simp [sizes, leaves]

theorem sum_sizes (entries : Entries) : entries.sizes.sum = entries.sum := rfl

theorem map_fst_closings (entries : Entries) (after : Nat) :
    (entries.closings after).map Prod.fst = entries.dirPaths := by
  induction entries generalizing after with
  | nil => rfl
  | leaf info name size next ih => exact ih after
  | dir name size entries next ih ih' =>
    simp only [closings, dirPaths, List.map_append, List.map_cons, List.map_map, ih']
    rw [← ih (next.weight + after), List.map_map]
    rfl

theorem after_lt {entries : Entries} {after : Nat} {d : List Bytes × List Int × Nat}
    (h : d ∈ entries.closings after) : after < d.2.2 := by
  induction entries generalizing after d with
  | nil => exact absurd h List.not_mem_nil
  | leaf info name size next ih => exact ih h
  | dir name size entries next ih ih' =>
    have hpos := next.weight_pos
    rcases List.mem_append.1 h with h | h
    · rcases List.mem_cons.1 h with rfl | h
      · dsimp only
        omega
      · obtain ⟨d, hd, rfl⟩ := List.mem_map.1 h
        have hlt := ih hd
        dsimp only
        omega
    · exact ih' h

theorem exists_closing {entries : Entries} {d : List Bytes × Entries} (h : d ∈ entries.subdirs)
    (after : Nat) : ∃ r, (d.1, d.2.sizes, r) ∈ entries.closings after := by
  induction entries generalizing after d with
  | nil => exact absurd h List.not_mem_nil
  | leaf info name size next ih => exact ih h after
  | dir name size entries next ih ih' =>
    rcases List.mem_append.1 h with h | h
    · rcases List.mem_cons.1 h with rfl | h
      · exact ⟨_, List.mem_cons_self⟩
      · obtain ⟨d, hd, rfl⟩ := List.mem_map.1 h
        obtain ⟨r, hr⟩ := ih hd (next.weight + after)
        exact ⟨r, List.mem_append_left _ (List.mem_cons_of_mem _ (List.mem_map_of_mem hr))⟩
    · obtain ⟨r, hr⟩ := ih' h after
      exact ⟨r, List.mem_append_right _ hr⟩

end Entries

theorem Entries.head_of_mem_closings {entries : Entries} {after : Nat}
    {d : List Bytes × List Int × Nat} (h : d ∈ entries.closings after) :
    ∃ n ∈ entries.names, ∃ q, d.1 = n :: q :=
  head_of_mem_dirPaths (map_fst_closings entries after ▸ List.mem_map_of_mem h)

theorem Fts.weight_append (a b : Fts) : Fts.weight (a ++ b) = a.weight + b.weight := by
  unfold Fts.weight
  rw [List.map_append, List.sum_append]

/-! ## Frames behind the stop -/

section Late

variable {env : WorkerEnv}

theorem done_polled {man : ForksManager} (nxt : FtsEnt) (h : env.done man.tick = true) :
    env.done (polled env man nxt).tick = true := by
  rw [tick_polled]
  exact WorkerEnv.done_mono h (Nat.le_succ _)

theorem eq_mk_of_info {curr : Tree State} {info : Option State} (h : curr.info = info) :
    curr = .mk info curr.hsh := by
  cases curr
  rw [info_mk] at h
  rw [h, hsh_mk]

/-- **A frame that goes on once `*done` is set** takes what is next in the stream for the rest of
its directory: it is done at the next `FTS_DP`, or stops at an `FTS_D` in front of that. -/
theorem walk_late (hint : env.sigint = none) {e : Entries} (he : e.Readable) (up : Fts)
    {man : ForksManager} (hdone : env.done man.tick = true) {curr : Tree State} {s d : Int}
    (hinfo : curr.info = some ⟨wrap32 s, d⟩) :
    (e.chain = 0 ∧ ∃ man', env.done man'.tick = true ∧ Walk env man curr (e :: up)
      ⟨0, man', .mk (some ⟨wrap32 (s + e.sizes.sum), 1⟩) curr.hsh, up⟩) ∨
    ∃ entries next read man', e.chain = entries.chain + 1 ∧ entries.Readable ∧ next.Readable ∧
      read ++ (entries.sizes ++ next.sizes) = e.sizes ∧ env.done man'.tick = true ∧
      Walk env man curr (e :: up)
        ⟨0, man', .mk (some ⟨wrap32 (s + read.sum), d⟩) curr.hsh, entries :: next :: up⟩ := by
  have hquiet : ∀ man : ForksManager, env.interrupted man.tick = false := by
    intro man
    simp [WorkerEnv.interrupted, hint]
  induction e generalizing man curr s with
  | nil =>
    refine .inl ⟨rfl, polled env man .FTS_DP, done_polled _ hdone, ?_⟩
    have hwalk : Walk env man curr (.nil :: up) ⟨0, polled env man .FTS_DP,
        curr.modifyState fun st => { st with done := 1 }, up⟩ := .leave (hquiet man) rfl
    rw [modifyState, hinfo] at hwalk
    simpa [Entries.sizes, Entries.leaves] using hwalk
  | leaf info name size next ih =>
    obtain ⟨hfails, hnext⟩ := he
    have hinfo' : (curr.addSize size).info = some ⟨wrap32 (s + size), d⟩ := by
      rw [addSize, modifyState, info_mk, hinfo, Option.map_some, wrap32_add]
    rcases ih hnext (done_polled (.leaf info name size) hdone) hinfo' with
      ⟨hchain, man', hman', hwalk⟩ | ⟨entries, rest, read, man', hchain, hentries, hrest, hread,
        hman', hwalk⟩
    · rw [add_assoc] at hwalk
      exact .inl ⟨hchain, man', hman', .leaf (hquiet man) rfl hfails hwalk⟩
    · rw [add_assoc] at hwalk
      refine .inr ⟨entries, rest, size :: read, man', hchain, hentries, hrest, ?_, hman',
        .leaf (hquiet man) rfl hfails hwalk⟩
      rw [List.cons_append, hread, Entries.sizes_leaf]
  | dir name size entries next =>
    obtain ⟨-, ⟨-, hentries⟩, hnext⟩ := he
    have hdone' := done_polled (.FTS_D name size) hdone
    refine .inr ⟨entries, next, [], (polled env man (.FTS_D name size)).ticked, rfl, hentries,
      hnext, ?_, WorkerEnv.done_mono hdone' (Nat.le_succ _), ?_⟩
    · rw [Entries.sizes_dir, List.nil_append]
    · rw [List.sum_nil, add_zero, ← hinfo, ← eq_mk_of_info rfl]
      exact .stop (hquiet man) rfl hdone'

end Late

/-! ## The frames above the stop -/

/-- The nodes made for the directories ahead tell the truth, `left` reads being left. -/
structure SoundNodes (entries : Entries) (after left : Nat)
    (nodes : List (List Bytes × Option State)) : Prop where
  sound : ∀ x ∈ nodes, ∃ st sizes r, x.2 = some st ∧ (x.1, sizes, r) ∈ entries.closings after ∧
    (st.done = 1 → left ≤ r) ∧ ∃ read, read <+: sizes ∧ st.size = wrap32 read.sum
  below : ∀ p st q info, (p, some st) ∈ nodes → st.done = 1 → (p ++ q, info) ∈ nodes →
    ∃ st', info = some st' ∧ st'.done = 1

/-- The directory at `q` has been read when `r` reads are left. -/
def Closes (entries : Entries) (after : Nat) (q : List Bytes) (r : Nat) : Prop :=
  ∃ sizes, (q, sizes, r) ∈ entries.extents after

theorem closes_iff {entries : Entries} {after r : Nat} {q : List Bytes} :
    Closes entries after q r ↔
      q = [] ∧ r = after ∨ ∃ sizes, (q, sizes, r) ∈ entries.closings after := by
  constructor
  · rintro ⟨sizes, hmem⟩
    rcases List.mem_cons.1 hmem with heq | hmem
    · obtain ⟨rfl, heq'⟩ := Prod.mk.inj heq
      exact .inl ⟨rfl, (Prod.mk.inj heq').2⟩
    · exact .inr ⟨sizes, hmem⟩
  · rintro (⟨rfl, rfl⟩ | ⟨sizes, hmem⟩)
    · exact ⟨_, List.mem_cons_self⟩
    · exact ⟨sizes, List.mem_cons_of_mem _ hmem⟩

/-- A node says that it is done, and is not when `left` reads are left. -/
def Lies (entries : Entries) (after left : Nat) (node : Tree State) : Prop :=
  ∃ q st r, (q, some st) ∈ node.nodes ∧ st.done = 1 ∧ Closes entries after q r ∧ r < left

/-- A frame that comes back after the stop at `stop`, with the stream at `h`: it has added up what
has been read. -/
structure Unwound (entries : Entries) (up : Fts) (z : Int) (stop : List Bytes × Entries)
    (curr curr' : Tree State) (h : Entries) (tl : Fts) (read : List Int) (d : Int) : Prop where
  stored : curr'.Stored
  rest : tl ≠ []
  readable : ∀ e ∈ h :: tl, e.Readable
  sizes : read ++ (h :: tl).flatMap Entries.sizes = entries.sizes
  info : curr'.info = some ⟨wrap32 (z + read.sum), d⟩
  halts : stop.1.length ≤ stop.2.chain + 1 → d = 0 ∧
    h.chain + stop.1.length = stop.2.chain + 1 ∧ ∃ nodes,
      (∀ x, x ∈ hashNodes curr'.hsh ↔ x ∈ hashNodes curr.hsh ∨ x ∈ nodes) ∧
      SoundNodes entries up.weight (Fts.weight (h :: tl ++ up)) nodes
  lies : stop.2.chain + 1 < stop.1.length →
    Lies entries up.weight (Fts.weight (tl ++ up)) curr'

section Unwinding

variable {env : WorkerEnv} {curr chld curr' : Tree State} {z s d d' : Int} {name : Bytes}
  {size : Int} {entries next h : Entries} {up tl : Fts} {stop : List Bytes × Entries}
  {read : List Int}
  {info : FtsLeaf} {nodes : List (List Bytes × Option State)} {after left left' : Nat}

theorem SoundNodes.leaf (hn : SoundNodes next after left nodes) :
    SoundNodes (.leaf info name size next) after left nodes := ⟨hn.sound, hn.below⟩

theorem Unwound.leaf (hu : Unwound next up (z + size) stop (curr.addSize size) curr' h tl read d) :
    Unwound (.leaf info name size next) up z stop curr curr' h tl (size :: read) d where
  stored := hu.stored
  rest := hu.rest
  readable := hu.readable
  sizes := by rw [List.cons_append, hu.sizes, Entries.sizes_leaf]
  info := by rw [hu.info, List.sum_cons, add_assoc]
  halts hstop := by
    obtain ⟨hd, hchain, nodes, hnodes, hsound⟩ := hu.halts hstop
    exact ⟨hd, hchain, nodes, hnodes, hsound.leaf⟩
  lies hstop := by
    obtain ⟨q, st, r, hq, hst, hcloses, hr⟩ := hu.lies hstop
    rw [closes_iff] at hcloses
    exact ⟨q, st, r, hq, hst, closes_iff.2 hcloses, hr⟩

theorem mem_childNodes {x : List Bytes × Option State} :
    x ∈ childNodes (name, chld) ↔
      x = ([name], chld.info) ∨ ∃ y ∈ hashNodes chld.hsh, x = (name :: y.1, y.2) := by
  rw [childNodes, nodes_eq, List.map_cons, List.mem_cons, List.mem_map]
  simp only [eq_comm]

/-- A directory has been read to its end. -/
theorem SoundNodes.finished (size : Int)
    (hnodes : (childNodes (name, chld)).Perm (finished ([name], entries) ::
      (entries.subdirs.map fun d => (name :: d.1, d.2)).map finished))
    (hleft : left ≤ next.weight + after) :
    (∀ x ∈ childNodes (name, chld), ∃ st sizes r, x.2 = some st ∧
        (x.1, sizes, r) ∈ (Entries.dir name size entries next).closings after ∧
        (st.done = 1 → left ≤ r) ∧ ∃ read, read <+: sizes ∧ st.size = wrap32 read.sum) ∧
      ∀ x ∈ childNodes (name, chld), ∃ st, x.2 = some st ∧ st.done = 1 := by
  have hall : ∀ x ∈ childNodes (name, chld), ∃ d : List Bytes × Entries, ∃ r,
      x = DiskAnalyzer.finished d ∧
        (d.1, d.2.sizes, r) ∈ (Entries.dir name size entries next).closings after ∧
        next.weight + after ≤ r := by
    intro x hx
    rcases List.mem_cons.1 (hnodes.mem_iff.1 hx) with rfl | hx
    · exact ⟨_, _, rfl, List.mem_cons_self, le_refl _⟩
    · obtain ⟨d', hd', rfl⟩ := List.mem_map.1 hx
      obtain ⟨d, hd, rfl⟩ := List.mem_map.1 hd'
      obtain ⟨r, hr⟩ := Entries.exists_closing hd (next.weight + after)
      exact ⟨_, r, rfl, List.mem_append_left _ (List.mem_cons_of_mem _ (List.mem_map_of_mem hr)),
        (Entries.after_lt hr).le⟩
  constructor
  · intro x hx
    obtain ⟨d, r, rfl, hd, hr⟩ := hall x hx
    exact ⟨_, _, r, rfl, hd, fun _ => hleft.trans hr, d.2.sizes, List.prefix_refl _, rfl⟩
  · intro x hx
    obtain ⟨d, r, rfl, -, -⟩ := hall x hx
    exact ⟨_, rfl, rfl⟩

theorem SoundNodes.mono (hn : SoundNodes entries after left nodes) (hleft : left' ≤ left) :
    SoundNodes entries after left' nodes where
  sound x hx := by
    obtain ⟨st, sizes, r, hst, hmem, hdone, hread⟩ := hn.sound x hx
    exact ⟨st, sizes, r, hst, hmem, fun h => hleft.trans (hdone h), hread⟩
  below := hn.below

theorem SoundNodes.head (hn : SoundNodes entries after left nodes) {x : List Bytes × Option State}
    (hx : x ∈ nodes) : ∃ n ∈ entries.names, ∃ q, x.1 = n :: q := by
  obtain ⟨st, sizes, r, -, hmem, -⟩ := hn.sound x hx
  exact Entries.head_of_mem_closings hmem

/-- The nodes of a directory read to its end, and of those behind it. -/
theorem SoundNodes.append (hn : SoundNodes next after left nodes) (hother : name ∉ next.names)
    (hnodes : (childNodes (name, chld)).Perm (DiskAnalyzer.finished ([name], entries) ::
      (entries.subdirs.map fun d => (name :: d.1, d.2)).map DiskAnalyzer.finished))
    (hleft : left ≤ next.weight + after) :
    SoundNodes (.dir name size entries next) after left (childNodes (name, chld) ++ nodes) := by
  obtain ⟨hsound, hdone⟩ := SoundNodes.finished size hnodes hleft
  have hhead : ∀ x ∈ childNodes (name, chld), ∃ q, x.1 = name :: q := by
    intro x hx
    rcases mem_childNodes.1 hx with rfl | ⟨y, -, rfl⟩
    · exact ⟨[], rfl⟩
    · exact ⟨y.1, rfl⟩
  refine ⟨fun x hx => ?_, fun p st q info hp hst hq => ?_⟩
  · rcases List.mem_append.1 hx with hx | hx
    · exact hsound x hx
    · obtain ⟨st, sizes, r, hst, hmem, hrest⟩ := hn.sound x hx
      exact ⟨st, sizes, r, hst, List.mem_append_right _ hmem, hrest⟩
  · rcases List.mem_append.1 hp with hp | hp
    · rcases List.mem_append.1 hq with hq | hq
      · exact hdone _ hq
      · -- A directory below this one is not one behind it.
        obtain ⟨p', hp'⟩ := hhead _ hp
        obtain ⟨n, hn', q', hq'⟩ := hn.head hq
        dsimp only at hp' hq'
        rw [hp', List.cons_append] at hq'
        exact absurd ((List.cons.inj hq').1 ▸ hn') hother
    · rcases List.mem_append.1 hq with hq | hq
      · obtain ⟨p', hp'⟩ := hhead _ hq
        obtain ⟨n, hn', q', hq'⟩ := hn.head hp
        dsimp only at hp' hq'
        rw [hq', List.cons_append] at hp'
        exact absurd ((List.cons.inj hp').1 ▸ hn') hother
      · exact hn.below p st q info hp hst hq

/-- The nodes of a directory the traversal has been stopped in. -/
theorem SoundNodes.halted (hn : SoundNodes entries (next.weight + after) left nodes)
    (hinfo : chld.info = some ⟨wrap32 read.sum, 0⟩) (hread : read <+: entries.sizes)
    (hnodes : ∀ x ∈ hashNodes chld.hsh, x ∈ nodes) :
    SoundNodes (.dir name size entries next) after left (childNodes (name, chld)) := by
  refine ⟨fun x hx => ?_, fun p st q info hp hst hq => ?_⟩
  · rcases mem_childNodes.1 hx with rfl | ⟨y, hy, rfl⟩
    · exact ⟨_, _, _, hinfo, List.mem_cons_self, fun h => absurd h Int.zero_ne_one, read, hread,
        rfl⟩
    · obtain ⟨st, sizes, r, hst, hmem, hrest⟩ := hn.sound y (hnodes y hy)
      exact ⟨st, sizes, r, hst, List.mem_append_left _ (List.mem_cons_of_mem _
        (List.mem_map_of_mem hmem)), hrest⟩
  · rcases mem_childNodes.1 hp with hp | ⟨y, hy, hp⟩
    · -- The directory itself is not done.
      obtain ⟨-, hst'⟩ := Prod.mk.inj hp
      rw [hinfo] at hst'
      obtain rfl := Option.some.inj hst'
      exact absurd hst Int.zero_ne_one
    · obtain ⟨rfl, hst'⟩ := Prod.mk.inj hp
      obtain ⟨n, -, p', hp'⟩ := hn.head (hnodes y hy)
      have hy' : (y.1, some st) ∈ nodes := by
        rw [hst']
        exact hnodes y hy
      rcases mem_childNodes.1 hq with hq | ⟨y', hy'', hq⟩
      · obtain ⟨hpath, -⟩ := Prod.mk.inj hq
        rw [hp'] at hpath
        simp at hpath
      · obtain ⟨hpath, rfl⟩ := Prod.mk.inj hq
        rw [List.cons_append] at hpath
        have hq' : (y.1 ++ q, y'.2) ∈ nodes := by
          rw [(List.cons.inj hpath).2]
          exact hnodes y' hy''
        exact hn.below y.1 st q y'.2 hy' hst hq'

/-- The stop is in what comes behind a subdirectory that has been read to its end. -/
theorem Unwound.behind {man₁ man₂ : ForksManager} (ht : curr.Stored) (hn : NameOk name)
    (hf : hashFind curr.hsh name = none) (hother : name ∉ next.names)
    (hframe : Frame entries 0 man₁ (treeInit : Tree State).enter man₂ chld)
    (hu : Unwound next up (z + entries.sum) stop (returned curr name chld) curr' h tl read d)
    (hleft : Fts.weight (h :: tl ++ up) ≤ next.weight + up.weight) :
    Unwound (.dir name size entries next) up z stop curr curr' h tl (entries.sizes ++ read) d where
  stored := hu.stored
  rest := hu.rest
  readable := hu.readable
  sizes := by rw [List.append_assoc, hu.sizes, Entries.sizes_dir]
  info := by rw [hu.info, List.sum_append, Entries.sum_sizes, add_assoc]
  halts hstop := by
    obtain ⟨hd, hchain, nodes, hnodes, hsound⟩ := hu.halts hstop
    refine ⟨hd, hchain, childNodes (name, chld) ++ nodes, fun x => ?_,
      hsound.append hother (hframe.childNodes name) hleft⟩
    rw [hnodes, (nodes_returned ht hn hf chld).mem_iff, List.mem_append, List.mem_append, or_assoc]
  lies hstop := by
    obtain ⟨q, st, r, hq, hst, hcloses, hr⟩ := hu.lies hstop
    refine ⟨q, st, r, hq, hst, ?_, hr⟩
    rw [closes_iff] at hcloses ⊢
    exact hcloses.imp_right fun h => h.imp fun sizes hmem => List.mem_append_right _ hmem

/-- A lie below stays one when the frame has stopped at the next `FTS_D`. -/
theorem Lies.below (hl : Lies entries (next.weight + after) left chld)
    (hnodes : ∀ x ∈ childNodes (name, chld), x ∈ hashNodes curr'.hsh) (hleft : left ≤ left') :
    Lies (.dir name size entries next) after left' curr' := by
  obtain ⟨q, st, r, hq, hst, hcloses, hr⟩ := hl
  have hmem : (name :: q, some st) ∈ curr'.nodes := by
    rw [nodes_eq]
    refine List.mem_cons_of_mem _ (hnodes _ ?_)
    rw [childNodes]
    exact List.mem_map_of_mem hq
  refine ⟨name :: q, st, r, hmem, hst, closes_iff.2 (.inr ?_), hr.trans_le hleft⟩
  rcases closes_iff.1 hcloses with ⟨rfl, rfl⟩ | ⟨sizes, hmem'⟩
  · exact ⟨_, List.mem_cons_self⟩
  · exact ⟨sizes, List.mem_append_left _ (List.mem_cons_of_mem _ (List.mem_map_of_mem hmem'))⟩

/-- The frame takes the end of another directory for that of its own. -/
theorem Unwound.closes {z' : List Bytes} {below e : Entries} (ht : curr.Stored) (hn : NameOk name)
    (hnext : next.Readable) (hchain : h.chain = 0)
    (hu : Unwound entries (next :: up) 0 (z', below) (treeInit : Tree State).enter chld h (e :: tl)
      read d) :
    Unwound (.dir name size entries next) up z (name :: z', below) curr
      (.mk (some ⟨wrap32 (z + read.sum + h.sizes.sum), 1⟩) (returned curr name chld).hsh) e
      (tl ++ [next]) (read ++ h.sizes) 1 where
  stored := (stored_returned ht hn hu.stored).withInfo _
  rest := by simp
  readable := by
    have hreadable := hu.readable
    simp only [List.mem_cons, List.mem_append, List.not_mem_nil, or_false] at hreadable ⊢
    rintro x (rfl | hx | rfl)
    · exact hreadable _ (.inr (.inl rfl))
    · exact hreadable _ (.inr (.inr hx))
    · exact hnext
  sizes := by
    rw [Entries.sizes_dir, ← hu.sizes]
    simp [List.append_assoc]
  info := by rw [info_mk, List.sum_append, add_assoc]
  halts hstop := by
    rw [List.length_cons] at hstop
    obtain ⟨-, hlen, -⟩ := hu.halts (by dsimp only at hstop ⊢; omega)
    dsimp only at hstop hlen
    omega
  lies _ := by
    refine ⟨[], _, up.weight, by rw [nodes_eq, info_mk]; exact List.mem_cons_self, rfl,
      ⟨_, List.mem_cons_self⟩, ?_⟩
    have hpos := next.weight_pos
    rw [List.append_assoc, Fts.weight_append, List.singleton_append, Fts.weight_cons]
    omega

/-- The frame stops at the next subdirectory. -/
theorem Unwound.stops {z' : List Bytes} {below e deep rest : Entries} {more : List Int}
    (ht : curr.Stored) (hn : NameOk name) (hf : hashFind curr.hsh name = none)
    (hnext : next.Readable) (hdeep : deep.Readable) (hrest : rest.Readable)
    (hchain : h.chain = deep.chain + 1) (hmore : more ++ (deep.sizes ++ rest.sizes) = h.sizes)
    (hleft : Fts.weight (deep :: rest :: e :: tl ++ next :: up) ≤
      Fts.weight (h :: e :: tl ++ next :: up))
    (hu : Unwound entries (next :: up) 0 (z', below) (treeInit : Tree State).enter chld h (e :: tl)
      read d) :
    Unwound (.dir name size entries next) up z (name :: z', below) curr
      (.mk (some ⟨wrap32 (z + read.sum + more.sum), 0⟩) (returned curr name chld).hsh) deep
      (rest :: e :: tl ++ [next]) (read ++ more) 0 where
  stored := (stored_returned ht hn hu.stored).withInfo _
  rest := by simp
  readable := by
    have hreadable := hu.readable
    simp only [List.cons_append, List.mem_cons, List.mem_append, List.not_mem_nil,
      or_false] at hreadable ⊢
    rintro x (rfl | rfl | rfl | hx | rfl)
    · exact hdeep
    · exact hrest
    · exact hreadable _ (.inr (.inl rfl))
    · exact hreadable _ (.inr (.inr hx))
    · exact hnext
  sizes := by
    rw [Entries.sizes_dir, ← hu.sizes]
    simp [List.append_assoc, ← hmore]
  info := by rw [info_mk, List.sum_append, add_assoc]
  halts hstop := by
    rw [List.length_cons] at hstop
    obtain ⟨rfl, hlen, nodes, hnodes, hsound⟩ := hu.halts (by dsimp only at hstop ⊢; omega)
    have hinfo := hu.info
    have hempty : hashNodes (treeInit : Tree State).enter.hsh = [] := hashNodes_empty
    rw [zero_add] at hinfo
    rw [Fts.weight_cons] at hsound
    refine ⟨rfl, ?_, childNodes (name, chld), fun x => ?_,
      (hsound.mono ?_).halted hinfo ⟨_, hu.sizes⟩ fun x hx => ?_⟩
    · rw [List.length_cons]
      dsimp only at hlen ⊢
      omega
    · rw [hsh_mk, (nodes_returned ht hn hf chld).mem_iff, List.mem_append]
    · simpa [List.append_assoc] using hleft
    · rw [hnodes, hempty] at hx
      exact hx.resolve_left List.not_mem_nil
  lies hstop := by
    rw [List.length_cons] at hstop
    by_cases hlies : below.chain + 1 < z'.length
    · have hl := hu.lies hlies
      rw [Fts.weight_cons] at hl
      refine hl.below (fun x hx => ?_) ?_
      · rw [hsh_mk, (nodes_returned ht hn hf chld).mem_iff]
        exact List.mem_append_right _ hx
      · have happend : rest :: e :: tl ++ [next] ++ up = rest :: (e :: tl ++ next :: up) := by simp
        rw [happend, Fts.weight_cons rest]
        exact Nat.le_add_left _ _
    · obtain ⟨-, hlen, -⟩ := hu.halts (by dsimp only; omega)
      dsimp only at hstop hlen
      omega

/-- The stop is in the subdirectory: the frame goes on behind it. -/
theorem Unwound.above {man : ForksManager} {z' : List Bytes} {below : Entries}
    (hint : env.sigint = none) (hdone : env.done man.tick = true) (ht : curr.Stored)
    (hn : NameOk name) (hinfo : curr.info = some ⟨wrap32 z, 0⟩) (hf : hashFind curr.hsh name = none)
    (hnext : next.Readable)
    (hu : Unwound entries (next :: up) 0 (z', below) (treeInit : Tree State).enter chld h tl read
      d) :
    ∃ man' curr' h' tl' read' d', env.done man'.tick = true ∧
      Walk env man (returned curr name chld) (h :: tl ++ next :: up)
        ⟨0, man', curr', h' :: tl' ++ up⟩ ∧
      Unwound (.dir name size entries next) up z (name :: z', below) curr curr' h' tl' read'
        d' := by
  have hinfo' : (returned curr name chld).info = some ⟨wrap32 (z + read.sum), 0⟩ := by
    have hchld := info_returned hn hinfo hu.info
    rwa [zero_add] at hchld
  obtain ⟨e, tl, rfl⟩ := List.exists_cons_of_ne_nil hu.rest
  rcases walk_late hint (hu.readable h List.mem_cons_self) (e :: tl ++ next :: up) hdone hinfo' with
    ⟨hchain, man', hman', hwalk⟩ | ⟨deep, rest, more, man', hchain, hdeep, hrest, hmore, hman',
      hwalk⟩
  · refine ⟨man', _, e, tl ++ [next], read ++ h.sizes, 1, hman', ?_,
      hu.closes ht hn hnext hchain⟩
    simpa [List.append_assoc] using hwalk
  · refine ⟨man', _, deep, rest :: e :: tl ++ [next], read ++ more, 0, hman', ?_,
      hu.stops ht hn hf hnext hdeep hrest hchain hmore hwalk.weight_le⟩
    simpa [List.append_assoc] using hwalk

/-- **A frame in which a first traversal is stopped.** The induction is on the entries ahead. -/
theorem walk_halted (hint : env.sigint = none) (entries : Entries) (hr : entries.Readable)
    (hnames : entries.names.Nodup) (man : ForksManager)
    (hstop : stopAt env.done man.tick entries = some stop) {curr : Tree State} (ht : curr.Stored)
    (z : Int) (hinfo : curr.info = some ⟨wrap32 z, 0⟩)
    (hnew : ∀ n ∈ entries.names, hashFind curr.hsh n = none) (up : Fts) :
    ∃ man' curr' h tl read d, env.done man'.tick = true ∧
      Walk env man curr (entries :: up) ⟨0, man', curr', h :: tl ++ up⟩ ∧
      Unwound entries up z stop curr curr' h tl read d := by
  have hquiet : ∀ man : ForksManager, env.interrupted man.tick = false := by
    intro man
    simp [WorkerEnv.interrupted, hint]
  induction entries generalizing man curr z up stop with
  | nil => simp [stopAt] at hstop
  | leaf info name size next ih =>
    obtain ⟨hfails, hnext⟩ := hr
    obtain ⟨man', curr', h, tl, read, d, hdone, hwalk, hu⟩ := ih hnext hnames
      (polled env man (.leaf info name size)) (by rw [tick_polled]; exact hstop) (ht.addSize size)
      (z + size) (by rw [addSize, modifyState, info_mk, hinfo, Option.map_some, wrap32_add]) hnew up
    exact ⟨man', curr', h, tl, size :: read, d, hdone, .leaf (hquiet man) rfl hfails hwalk, hu.leaf⟩
  | dir name size entries next ih ih' =>
    have hreadable := hr
    obtain ⟨hname, ⟨hsub, hentries⟩, hnext⟩ := hr
    obtain ⟨hother, hnames'⟩ := List.nodup_cons.1 hnames
    have hf := hnew name List.mem_cons_self
    have htick : (polled env man (.FTS_D name size)).ticked.tick = man.tick + 2 := by
      rw [ForksManager.ticked, tick_polled]
    rw [stopAt] at hstop
    split_ifs at hstop with hdone
    · -- The frame stops in front of the entries of the subdirectory.
      obtain rfl := Option.some.inj hstop
      have hdone' : env.done (polled env man (.FTS_D name size)).tick = true := by
        rw [tick_polled, hdone]
      refine ⟨_, curr, entries, [next], [], 0, WorkerEnv.done_mono hdone' (Nat.le_succ _),
        .stop (hquiet man) rfl hdone', ht, by simp, by simp [hentries, hnext], ?_, ?_, ?_, ?_⟩
      · simp
      · rw [hinfo, List.sum_nil, add_zero]
      · intro _
        refine ⟨rfl, rfl, [], fun x => by simp, ⟨fun x hx => absurd hx List.not_mem_nil, ?_⟩⟩
        intro p st q info hp
        exact absurd hp List.not_mem_nil
      · intro hlong
        rw [List.length_singleton] at hlong
        omega
    · have hdone' : env.done (man.tick + 1) = false := by simpa using hdone
      cases hbelow : stopAt env.done (man.tick + 2) entries with
      | some zb =>
        rw [hbelow] at hstop
        obtain rfl := Option.some.inj hstop
        obtain ⟨mid, chld, h, tl, read, d, hmid, hwalk, hu⟩ := ih hentries hsub
          (polled env man (.FTS_D name size)).ticked (by rw [htick, hbelow]) stored_treeInit.enter
          0 rfl (fun _ _ => rfl) (next :: up)
        obtain ⟨man', curr', h', tl', read', d', hman', hwalk', hu'⟩ :=
          hu.above hint hmid ht hname hinfo hf hnext
        exact ⟨man', curr', h', tl', read', d', hman',
          .start hint hdone' ht hname hinfo hf hwalk hwalk', hu'⟩
      | none =>
        rw [hbelow] at hstop
        obtain ⟨mid, chld, hframe, hmid, hwalk⟩ := walk_frame hint entries hentries hsub
          (polled env man (.FTS_D name size)).ticked (by rw [htick, hbelow]) stored_treeInit.enter
          0 rfl (fun _ _ => rfl) (next :: up)
        have hinfo' := info_returned hname hinfo hframe.info
        rw [zero_add] at hinfo'
        obtain ⟨man', curr', h, tl, read, d, hman', hwalk', hu⟩ := ih' hnext hnames' mid
          (by rw [hmid, htick]; exact hstop) (stored_returned ht hname hframe.stored)
          (z + entries.sum) hinfo' (find_returned_ahead ht hreadable hnames hnew) up
        exact ⟨man', curr', h, tl, entries.sizes ++ read, d, hman',
          .start hint hdone' ht hname hinfo hf hwalk hwalk',
          hu.behind ht hname hf hother hframe hwalk'.weight_le⟩

end Unwinding

end DiskAnalyzer
