import DiskAnalyzer.Resume
import DiskAnalyzer.Walk

/-!
# The entries a traversal reads

Every `fts_read` of a traversal finds an entry, and the recursion ends, whatever the tree of sizes
holds and whenever the signals arrive (`exists_solved`). A frame may return before the end of its
directory, because of a flag, or at the end of another. But it never leaves the stream more than
one level higher than it found it, and a new frame's stream is two levels deep at least.

What a traversal does to the counters and sends is the same for every tree of sizes: it depends on
the entries read alone (`Walk.reads`).
-/

namespace DiskAnalyzer

open DiskAnalyzer.Tree

/-! ## Lookups behind an insertion -/

section Lookups

variable {β : Type}

theorem eq_of_strncmpEq {a b : Bytes} {n : Nat} (ha : a.length ≤ n) (hb : b.length ≤ n)
    (h : strncmpEq a b n = true) : a = b := by
  induction n generalizing a b with
  | zero =>
    rw [List.eq_nil_of_length_eq_zero (by omega : a.length = 0),
      List.eq_nil_of_length_eq_zero (by omega : b.length = 0)]
  | succ n ih =>
    cases a with
    | nil =>
      cases b with
      | nil => rfl
      | cons y b => simp [strncmpEq] at h
    | cons x a =>
      cases b with
      | nil => simp [strncmpEq] at h
      | cons y b =>
        simp only [strncmpEq, Bool.and_eq_true, beq_iff_eq] at h
        rw [List.length_cons] at ha hb
        rw [h.1, ih (by omega) (by omega) h.2]

theorem nameMatches_self (path : Bytes) : nameMatches (component path) path = true := by
  have h := strncmpEq_self_append (component path) [] (afterComponent path)
  rw [List.append_nil, component_append_after] at h
  rwa [nameMatches, max_self]

/-- What matches the first component alone matches the path, even a stored name that is not a
component. -/
theorem nameMatches_of_component {name path : Bytes}
    (h : nameMatches name (component path) = true) : nameMatches name path = true := by
  rw [nameMatches, component_self (slash_notMem_component path)] at h
  rw [eq_of_strncmpEq (Nat.le_max_left _ _) (Nat.le_max_right _ _) h]
  exact nameMatches_self path

theorem find_set_push {chain : List (Bytes × β)} {path : Bytes} (h : listFind chain path = none)
    (new node : β) :
    listFind (listSet (listPush chain (component path) new) (component path) node) path =
      some node := by
  induction chain with
  | nil =>
    have hcomp := nameMatches_self (component path)
    rw [component_self (slash_notMem_component path)] at hcomp
    rw [listPush, listSet, if_pos hcomp, listFind, if_pos (nameMatches_self path)]
  | cons e next ih =>
    obtain ⟨name, old⟩ := e
    rw [listFind] at h
    split_ifs at h with hm
    have hm' : ¬ nameMatches name (component path) = true := fun hm' =>
      hm (nameMatches_of_component hm')
    rw [listPush, listSet, if_neg hm', listFind, if_neg hm, ih h]

theorem find_of_component {chain : List (Bytes × β)} {path : Bytes}
    (h : listFind chain path = none) : listFind chain (component path) = none := by
  induction chain with
  | nil => rfl
  | cons e next ih =>
    obtain ⟨name, old⟩ := e
    rw [listFind] at h ⊢
    split_ifs at h with hm
    rw [if_neg fun hm' => hm (nameMatches_of_component hm'), ih h]

/-- A path finds what was inserted for it and written to, in any hash. -/
theorem hashFind_grown {hsh : Hash β} {path : Bytes} (h : hashFind hsh path = none)
    (new node : β) :
    hashFind (hashSet (hashInsert hsh (component path) new).1 (component path) node) path =
      some node := by
  have hcomp : hashFind hsh (component path) = none := by
    rw [hashFind, getKey_component]
    exact find_of_component h
  rw [hashFind, children_hashSet, children_hashInsert hcomp, getKey_component, if_pos rfl,
    if_pos rfl]
  exact find_set_push h new node

/-- `tree_get_path` finds the node `tree_insert` has made, in any tree. -/
theorem exists_getPath_insert (t : Tree β) (path : Bytes) (info : Option β) :
    ∃ n, treeGetPath (treeInsert t path info none).2 path = some n ∧ n.info = info := by
  induction path using components.induct generalizing t with
  | case1 path hp =>
    refine ⟨_, by rw [treeGetPath, dif_pos hp], ?_⟩
    rw [treeInsert_of_nil hp, info_mk]
  | case2 path hp _ ih =>
    rw [treeGetPath_of_ne hp, treeInsert_of_ne hp]
    cases hf : hashFind t.hsh (skipSlashes path) with
    | some nxt =>
      dsimp only
      rw [hsh_setChild, hashFind_set_self hf]
      exact ih nxt
    | none =>
      dsimp only
      rw [if_neg (by simp), hsh_mk, hashFind_grown hf]
      exact ih _

theorem exists_find_withChild (curr : Tree State) {name : Bytes} (hn : GoodName name) :
    ∃ chld, hashFind (withChild curr name).hsh name = some chld := by
  rw [withChild]
  cases hf : hashFind curr.hsh name with
  | some chld => exact ⟨chld, by simpa using hf⟩
  | none =>
    have hskip := skipSlashes_self hn
    simp only [Option.isNone_none, if_true]
    rw [treeInsert_of_ne (by rw [hskip]; exact hn.1), hskip, hf]
    dsimp only
    rw [if_neg (by simp), hsh_mk, hashFind_grown hf]
    exact ⟨_, rfl⟩

end Lookups

/-! ## The end of the stream -/

/-- What is left of a directory that has no error entries. -/
def Entries.NoErrors : Entries → Prop
  | nil => True
  | leaf info _ _ next => info.fails = false ∧ next.NoErrors
  | dir name _ entries next => GoodName name ∧ entries.NoErrors ∧ next.NoErrors

instance Entries.decidableNoErrors : (entries : Entries) → Decidable entries.NoErrors
  | nil => isTrue trivial
  | leaf info _ _ next =>
    have := decidableNoErrors next
    inferInstanceAs (Decidable (info.fails = false ∧ next.NoErrors))
  | dir name _ entries next =>
    have := decidableNoErrors entries
    have := decidableNoErrors next
    inferInstanceAs (Decidable (GoodName name ∧ entries.NoErrors ∧ next.NoErrors))

section Total

variable {env : WorkerEnv} {man : ForksManager} {curr : Tree State} {ftsp : Fts} {parc : Parc}

theorem weight_of_read {nxt : FtsEnt} {up : Fts} (h : ftsRead ftsp = some (nxt, up)) :
    ftsp.weight = up.weight + 1 := by
  cases ftsp with
  | nil => simp [ftsRead] at h
  | cons e ftsp =>
    cases e <;>
      (simp only [ftsRead, Option.some.injEq, Prod.mk.injEq] at h; obtain ⟨-, rfl⟩ := h) <;>
      simp only [Fts.weight_cons, Entries.weight] <;> omega

theorem weight_skip_le (ftsp : Fts) : (ftsSkip ftsp).weight ≤ ftsp.weight := by
  cases ftsp with
  | nil => exact le_refl _
  | cons e ftsp =>
    have hpos := e.weight_pos
    simp only [ftsSkip, Fts.weight_cons, Entries.weight]
    omega

/-- The stream only gets shorter. -/
theorem Walk.weight_le (h : Walk env man curr ftsp parc) : parc.ftsp.weight ≤ ftsp.weight := by
  induction h with
  | interrupted hint => exact le_refl _
  | fails hint hread hfails =>
    have hw := weight_of_read hread
    dsimp only
    omega
  | leaf hint hread hfails hrest ih =>
    have hw := weight_of_read hread
    omega
  | stop hint hread hdone =>
    have hw := weight_of_read hread
    dsimp only
    omega
  | skip hint hread hdone hfind hcurr hrest ih =>
    have hw := weight_of_read hread
    exact (ih.trans (weight_skip_le _)).trans (by omega)
  | child hint hread hdone hfind hcurr hchild hrest ih ih' =>
    have hw := weight_of_read hread
    dsimp only at ih
    omega
  | childFails hint hread hdone hfind hcurr hchild hret ih =>
    have hw := weight_of_read hread
    dsimp only at ih ⊢
    omega
  | leave hint hread =>
    have hw := weight_of_read hread
    dsimp only
    omega

/-- The relation is the function, with fuel for every read that is left, and `k` for the round that
finds `*interrupted` set. -/
theorem parc_of_walk_add (h : Walk env man curr ftsp parc) {k fuel : Nat}
    (hk : ∀ tick, env.interrupted tick = true → 0 < k) (hfuel : ftsp.weight + k ≤ fuel) :
    forksFtsParc env fuel man curr ftsp = some parc := by
  induction h generalizing fuel with
  | interrupted hint =>
    have hpos := hk _ hint
    obtain ⟨fuel, rfl⟩ := Nat.exists_eq_succ_of_ne_zero (by omega : fuel ≠ 0)
    rw [forksFtsParc, if_pos hint]
  | fails hint hread hfails =>
    have hw := weight_of_read hread
    obtain ⟨fuel, rfl⟩ := Nat.exists_eq_succ_of_ne_zero (by omega : fuel ≠ 0)
    rw [forksFtsParc, if_neg (by simp [hint]), hread]
    exact if_pos hfails
  | leaf hint hread hfails hrest ih =>
    have hw := weight_of_read hread
    obtain ⟨fuel, rfl⟩ := Nat.exists_eq_succ_of_ne_zero (by omega : fuel ≠ 0)
    rw [forksFtsParc, if_neg (by simp [hint]), hread]
    dsimp only
    rw [if_neg (by simp [hfails]), ih (by omega)]
  | stop hint hread hdone =>
    have hw := weight_of_read hread
    obtain ⟨fuel, rfl⟩ := Nat.exists_eq_succ_of_ne_zero (by omega : fuel ≠ 0)
    rw [forksFtsParc, if_neg (by simp [hint]), hread]
    exact if_pos hdone
  | @skip man curr chld ftsp up name size parc hint hread hdone hfind hcurr hrest ih =>
    have hw := weight_of_read hread
    obtain ⟨fuel, rfl⟩ := Nat.exists_eq_succ_of_ne_zero (by omega : fuel ≠ 0)
    rw [forksFtsParc, if_neg (by simp [hint]), hread]
    dsimp only
    rw [if_neg (by simp [hdone]), hfind]
    dsimp only
    rw [if_pos hcurr]
    have hle := weight_skip_le up
    exact ih (by omega)
  | child hint hread hdone hfind hcurr hchild hrest ih ih' =>
    have hw := weight_of_read hread
    have hle := hchild.weight_le
    dsimp only at hle
    obtain ⟨fuel, rfl⟩ := Nat.exists_eq_succ_of_ne_zero (by omega : fuel ≠ 0)
    rw [forksFtsParc, if_neg (by simp [hint]), hread]
    dsimp only
    rw [if_neg (by simp [hdone]), hfind]
    dsimp only
    rw [if_neg (by simp [hcurr]), ih (by omega)]
    exact ih' (by omega)
  | childFails hint hread hdone hfind hcurr hchild hret ih =>
    have hw := weight_of_read hread
    obtain ⟨fuel, rfl⟩ := Nat.exists_eq_succ_of_ne_zero (by omega : fuel ≠ 0)
    rw [forksFtsParc, if_neg (by simp [hint]), hread]
    dsimp only
    rw [if_neg (by simp [hdone]), hfind]
    dsimp only
    rw [if_neg (by simp [hcurr]), ih (by omega)]
    exact if_pos hret
  | leave hint hread =>
    have hw := weight_of_read hread
    obtain ⟨fuel, rfl⟩ := Nat.exists_eq_succ_of_ne_zero (by omega : fuel ≠ 0)
    rw [forksFtsParc, if_neg (by simp [hint]), hread]

theorem parc_of_walk (h : Walk env man curr ftsp parc) {fuel : Nat} (hfuel : ftsp.weight < fuel) :
    forksFtsParc env fuel man curr ftsp = some parc :=
  parc_of_walk_add h (fun _ _ => Nat.one_pos) hfuel

theorem parc_of_walk_quiet (hint : env.sigint = none) (h : Walk env man curr ftsp parc)
    {fuel : Nat} (hfuel : ftsp.weight ≤ fuel) :
    forksFtsParc env fuel man curr ftsp = some parc :=
  parc_of_walk_add (k := 0) h (fun _ h => by simp [WorkerEnv.interrupted, hint] at h) hfuel

/-- **A frame finds its entries and returns 0**, with the stream at most one level higher. -/
theorem exists_walk (env : WorkerEnv) (man : ForksManager) (curr : Tree State)
    (hftsp : ∀ e ∈ ftsp, e.NoErrors) (hne : ftsp ≠ []) :
    ∃ man' curr' ftsp', Walk env man curr ftsp ⟨0, man', curr', ftsp'⟩ ∧
      (∀ e ∈ ftsp', e.NoErrors) ∧ ftsp.length ≤ ftsp'.length + 1 := by
  -- On what is ahead in the stream.
  generalize hn : ftsp.weight = n
  induction n using Nat.strong_induction_on generalizing man curr ftsp with
  | _ n ih =>
    cases hint : env.interrupted man.tick with
    | true => exact ⟨_, _, _, .interrupted hint, hftsp, Nat.le_succ _⟩
    | false =>
      obtain ⟨e, up, rfl⟩ := List.exists_cons_of_ne_nil hne
      obtain ⟨he, hup⟩ := List.forall_mem_cons.1 hftsp
      cases e with
      | nil => exact ⟨_, _, _, .leave hint rfl, hup, le_refl _⟩
      | leaf info name size next =>
        obtain ⟨hfails, hnext⟩ := he
        rw [Fts.weight_cons, Entries.weight] at hn
        obtain ⟨man', curr', ftsp', hwalk, hftsp', hlen⟩ := ih (n - 1) (by omega)
          (polled env man (.leaf info name size)) (curr.addSize size)
          (List.forall_mem_cons.2 ⟨hnext, hup⟩) (List.cons_ne_nil _ _)
          (by rw [Fts.weight_cons]; omega)
        exact ⟨man', curr', ftsp', .leaf hint rfl hfails hwalk, hftsp', hlen⟩
      | dir name size entries next =>
        obtain ⟨hname, hentries, hnext⟩ := he
        rw [Fts.weight_cons, Entries.weight] at hn
        have hbelow : ∀ e ∈ entries :: next :: up, e.NoErrors :=
          List.forall_mem_cons.2 ⟨hentries, List.forall_mem_cons.2 ⟨hnext, hup⟩⟩
        cases hdone : env.done (polled env man (.FTS_D name size)).tick with
        | true =>
          refine ⟨_, _, entries :: next :: up, .stop hint rfl hdone, hbelow, ?_⟩
          simp only [List.length_cons]
          omega
        | false =>
          obtain ⟨chld, hfind⟩ := exists_find_withChild curr hname
          cases hcurr : (withChild curr name).isDone with
          | true =>
            -- The next entry is the `FTS_DP` of the skipped subdirectory.
            have hskip : ∀ e ∈ Entries.nil :: next :: up, e.NoErrors :=
              List.forall_mem_cons.2 ⟨trivial, List.forall_mem_cons.2 ⟨hnext, hup⟩⟩
            have hle := weight_skip_le (entries :: next :: up)
            obtain ⟨man', curr', ftsp', hwalk, hftsp', hlen⟩ :=
              ih (ftsSkip (entries :: next :: up)).weight
                (by simp only [Fts.weight_cons] at hle ⊢; omega)
                (polled env man (.FTS_D name size)).ticked (withChild curr name) hskip
                (List.cons_ne_nil _ _) rfl
            refine ⟨man', curr', ftsp', .skip hint rfl hdone hfind hcurr hwalk, hftsp', ?_⟩
            simp only [List.length_cons] at hlen ⊢
            omega
          | false =>
            obtain ⟨mid, chld', ftsp, hwalk, hftsp', hlen⟩ := ih (n - 1) (by omega)
              (polled env man (.FTS_D name size)).ticked chld.enter hbelow
              (List.cons_ne_nil _ _) (by simp only [Fts.weight_cons]; omega)
            have hle := hwalk.weight_le
            simp only [List.length_cons, Fts.weight_cons] at hlen hle
            have hne' : ftsp ≠ [] := by
              rintro rfl
              rw [List.length_nil] at hlen
              omega
            obtain ⟨man', curr', ftsp', hwalk', hftsp'', hlen'⟩ :=
              ih ftsp.weight (by omega) mid
                (((withChild curr name).setChild name chld').addSize chld'.stateSize) hftsp' hne'
                rfl
            refine ⟨man', curr', ftsp', .child hint rfl hdone hfind hcurr hwalk hwalk', hftsp'',
              ?_⟩
            rw [List.length_cons]
            omega

/-- `forks_solve` always traverses: `tree_insert` has taken the state of its node. -/
theorem forksSolve_parc (env : WorkerEnv) (man : ForksManager) (tre : Tree State)
    (root : Entries) :
    ∃ curr, ∀ fuel, forksSolve env fuel man tre (some root) =
      (forksFtsParc env fuel { man with lastSend := env.now man.tick } curr [root]).map fun parc =>
        ⟨if parc.ret ≠ 0 then 1 else 0, parc.man,
          treeSetPath (treeInsert tre man.path none none).2 man.path parc.curr⟩ := by
  obtain ⟨curr, hcurr, hinfo⟩ := exists_getPath_insert tre man.path none
  refine ⟨curr.enter, fun fuel => ?_⟩
  rw [forksSolve]
  dsimp only
  rw [hcurr]
  exact if_neg (by simp [isDone, hinfo])

/-- Reading these entries leads from one stream to the other. A directory that has been entered may
be skipped. -/
inductive FtsReads : Fts → List FtsEnt → Fts → Prop
  | refl (ftsp : Fts) : FtsReads ftsp [] ftsp
  | read {ftsp up ftsp' : Fts} {nxt : FtsEnt} {es : List FtsEnt} :
      ftsRead ftsp = some (nxt, up) → FtsReads up es ftsp' → FtsReads ftsp (nxt :: es) ftsp'
  | skip {ftsp up ftsp' : Fts} {name : Bytes} {size : Int} {es : List FtsEnt} :
      ftsRead ftsp = some (.FTS_D name size, up) → FtsReads (ftsSkip up) es ftsp' →
      FtsReads ftsp (.FTS_D name size :: es) ftsp'

theorem FtsReads.append {ftsp mid ftsp' : Fts} {es es' : List FtsEnt} (h : FtsReads ftsp es mid)
    (h' : FtsReads mid es' ftsp') : FtsReads ftsp (es ++ es') ftsp' := by
  induction h with
  | refl => exact h'
  | read hread hrest ih => exact .read hread (ih h')
  | skip hread hrest ih => exact .skip hread (ih h')

/-- An error entry. -/
def FtsEnt.fails : FtsEnt → Bool
  | .leaf info _ _ => info.fails
  | _ => false

/-- A round that reads an entry: behind a directory `*done` is read as well. -/
def round (env : WorkerEnv) (man : ForksManager) (nxt : FtsEnt) : ForksManager :=
  match nxt with
  | .FTS_D name size => (polled env man (.FTS_D name size)).ticked
  | nxt => polled env man nxt

/-- **A frame is one round after the other over the entries read**, whatever its tree. Once
`*interrupted` is set, the rounds read nothing. -/
theorem Walk.reads (h : Walk env man curr ftsp parc) :
    ∃ es k, FtsReads ftsp es parc.ftsp ∧
      parc.man = ForksManager.ticked^[k] (es.foldl (round env) man) ∧
      (parc.ret ≠ 0 ↔ es.any FtsEnt.fails = true) ∧
      (k ≠ 0 → env.interrupted parc.man.tick = true) := by
  induction h with
  | @interrupted man curr ftsp hint =>
    exact ⟨[], 1, .refl _, rfl, by simp, fun _ => WorkerEnv.interrupted_mono hint (Nat.le_succ _)⟩
  | fails hint hread hfails =>
    exact ⟨[_], 0, .read hread (.refl _), rfl, by simp [FtsEnt.fails, hfails], by simp⟩
  | leaf hint hread hfails hrest ih =>
    obtain ⟨es, k, hreads, hman, hret, hk⟩ := ih
    exact ⟨_ :: es, k, .read hread hreads, hman, by simp [FtsEnt.fails, hfails, hret], hk⟩
  | stop hint hread hdone =>
    exact ⟨[_], 0, .read hread (.refl _), rfl, by simp [FtsEnt.fails], by simp⟩
  | skip hint hread hdone hfind hcurr hrest ih =>
    obtain ⟨es, k, hreads, hman, hret, hk⟩ := ih
    exact ⟨_ :: es, k, .skip hread hreads, hman, by simp [FtsEnt.fails, hret], hk⟩
  | @child man man' curr chld chld' ftsp up up' name size parc hint hread hdone hfind hcurr hchild
      hrest ih ih' =>
    obtain ⟨es, k, hreads, hman, hret, hk⟩ := ih
    obtain ⟨es', k', hreads', hman', hret', hk'⟩ := ih'
    dsimp only at hreads hman hret hk
    have hnone : es.any FtsEnt.fails = false := by simpa using hret
    cases k with
    | zero =>
      refine ⟨_ :: (es ++ es'), k', .read hread (hreads.append hreads'), ?_, ?_, hk'⟩
      · rw [hman', hman, List.foldl_cons, List.foldl_append]
        rfl
      · rw [List.any_cons, List.any_append, hnone, hret']
        simp [FtsEnt.fails]
    | succ k =>
      -- The frame has returned because of `*interrupted`, and so does this one.
      have hint' := hk (Nat.succ_ne_zero k)
      cases hrest with
      | interrupted =>
        refine ⟨_ :: es, k + 2, .read hread hreads, ?_, ?_, fun _ => ?_⟩
        · dsimp only
          rw [hman, ← Function.iterate_succ_apply' ForksManager.ticked]
          rfl
        · rw [List.any_cons, hnone]
          simp [FtsEnt.fails]
        · exact WorkerEnv.interrupted_mono hint' (Nat.le_succ _)
      | fails h | leaf h | stop h | skip h | child h | childFails h | leave h =>
        exact absurd hint' (by simp [h])
  | childFails hint hread hdone hfind hcurr hchild hret ih =>
    obtain ⟨es, k, hreads, hman, hret', hk⟩ := ih
    exact ⟨_ :: es, k, .read hread hreads, hman, by simpa [FtsEnt.fails, hret] using hret', hk⟩
  | leave hint hread =>
    exact ⟨[_], 0, .read hread (.refl _), rfl, by simp [FtsEnt.fails], by simp⟩

/-- The rounds of `forks_solve`. -/
theorem solve_reads {tre : Tree State} {root : Entries} {fuel : Nat} {solved : Solved}
    (h : forksSolve env fuel man tre (some root) = some solved) :
    ∃ es k ftsp', FtsReads [root] es ftsp' ∧
      solved.man = ForksManager.ticked^[k]
        (es.foldl (round env) { man with lastSend := env.now man.tick }) ∧
      (solved.ret ≠ 0 ↔ es.any FtsEnt.fails = true) ∧
      (k ≠ 0 → env.interrupted solved.man.tick = true) := by
  obtain ⟨curr, hsolve⟩ := forksSolve_parc env man tre root
  rw [hsolve] at h
  obtain ⟨parc, hparc, rfl⟩ := Option.map_eq_some_iff.1 h
  obtain ⟨es, k, hreads, hman, hret, hk⟩ := (walk_of_parc hparc).reads
  exact ⟨es, k, parc.ftsp, hreads, hman, by simpa using hret, hk⟩

end Total

end DiskAnalyzer
