import DiskAnalyzer.Forks
import Mathlib.Tactic.SplitIfs

/-!
# Runs of `forks_fts_parc`

`Walk` is the loop as a relation: one constructor for each way through a round. Facts about every
traversal are inductions over it.
-/

namespace DiskAnalyzer

/-- The loop, from a round on to the frame's return. -/
inductive Walk (env : WorkerEnv) : ForksManager → Tree State → Fts → Parc → Prop
  | interrupted {man : ForksManager} {curr : Tree State} {ftsp : Fts} :
      env.interrupted man.tick = true → Walk env man curr ftsp ⟨0, man.ticked, curr, ftsp⟩
  | fails {man : ForksManager} {curr : Tree State} {ftsp up : Fts} {info : FtsLeaf} {name : Bytes}
      {size : Int} : env.interrupted man.tick = false →
      ftsRead ftsp = some (.leaf info name size, up) → info.fails = true →
      Walk env man curr ftsp ⟨1, polled env man (.leaf info name size), curr, up⟩
  | leaf {man : ForksManager} {curr : Tree State} {ftsp up : Fts} {info : FtsLeaf} {name : Bytes}
      {size : Int} {parc : Parc} : env.interrupted man.tick = false →
      ftsRead ftsp = some (.leaf info name size, up) → info.fails = false →
      Walk env (polled env man (.leaf info name size)) (curr.addSize size) up parc →
      Walk env man curr ftsp parc
  | stop {man : ForksManager} {curr : Tree State} {ftsp up : Fts} {name : Bytes} {size : Int} :
      env.interrupted man.tick = false → ftsRead ftsp = some (.FTS_D name size, up) →
      env.done (polled env man (.FTS_D name size)).tick = true →
      Walk env man curr ftsp ⟨0, (polled env man (.FTS_D name size)).ticked, curr, up⟩
  | skip {man : ForksManager} {curr chld : Tree State} {ftsp up : Fts} {name : Bytes} {size : Int}
      {parc : Parc} : env.interrupted man.tick = false →
      ftsRead ftsp = some (.FTS_D name size, up) →
      env.done (polled env man (.FTS_D name size)).tick = false →
      hashFind (withChild curr name).hsh name = some chld → (withChild curr name).isDone = true →
      Walk env (polled env man (.FTS_D name size)).ticked (withChild curr name) (ftsSkip up)
        parc → Walk env man curr ftsp parc
  | child {man man' : ForksManager} {curr chld chld' : Tree State} {ftsp up up' : Fts}
      {name : Bytes} {size : Int} {parc : Parc} :
      env.interrupted man.tick = false → ftsRead ftsp = some (.FTS_D name size, up) →
      env.done (polled env man (.FTS_D name size)).tick = false →
      hashFind (withChild curr name).hsh name = some chld → (withChild curr name).isDone = false →
      Walk env (polled env man (.FTS_D name size)).ticked chld.enter up ⟨0, man', chld', up'⟩ →
      Walk env man' (((withChild curr name).setChild name chld').addSize chld'.stateSize) up'
        parc → Walk env man curr ftsp parc
  | childFails {man man' : ForksManager} {curr chld chld' : Tree State} {ftsp up up' : Fts}
      {name : Bytes} {size ret : Int} :
      env.interrupted man.tick = false → ftsRead ftsp = some (.FTS_D name size, up) →
      env.done (polled env man (.FTS_D name size)).tick = false →
      hashFind (withChild curr name).hsh name = some chld → (withChild curr name).isDone = false →
      Walk env (polled env man (.FTS_D name size)).ticked chld.enter up
        ⟨ret, man', chld', up'⟩ → ret ≠ 0 →
      Walk env man curr ftsp ⟨1, man', (withChild curr name).setChild name chld', up'⟩
  | leave {man : ForksManager} {curr : Tree State} {ftsp up : Fts} :
      env.interrupted man.tick = false → ftsRead ftsp = some (.FTS_DP, up) →
      Walk env man curr ftsp
        ⟨0, polled env man .FTS_DP, curr.modifyState fun st => { st with done := 1 }, up⟩

theorem walk_of_parc {env : WorkerEnv} {fuel : Nat} {man : ForksManager} {curr : Tree State}
    {ftsp : Fts} {parc : Parc} (h : forksFtsParc env fuel man curr ftsp = some parc) :
    Walk env man curr ftsp parc := by
  induction fuel generalizing man curr ftsp parc with
  | zero => simp [forksFtsParc] at h
  | succ fuel ih =>
    rw [forksFtsParc] at h
    split_ifs at h with hint
    · obtain rfl := Option.some.inj h
      exact .interrupted hint
    · have hint' : env.interrupted man.tick = false := by simpa using hint
      split at h
      · contradiction
      · rename_i info name size up hread
        dsimp only at h
        split_ifs at h with hfails
        · obtain rfl := Option.some.inj h
          exact .fails hint' hread hfails
        · exact .leaf hint' hread (by simpa using hfails) (ih h)
      · rename_i name size up hread
        dsimp only at h
        cases hdone : env.done (polled env man (.FTS_D name size)).tick with
        | true =>
          rw [if_pos hdone] at h
          obtain rfl := Option.some.inj h
          exact .stop hint' hread hdone
        | false =>
          rw [if_neg (by simp [hdone])] at h
          split at h
          · contradiction
          · rename_i chld hfind
            cases hcurr : (withChild curr name).isDone with
            | true =>
              rw [if_pos hcurr] at h
              exact .skip hint' hread hdone hfind hcurr (ih h)
            | false =>
              rw [if_neg (by simp [hcurr])] at h
              split at h
              · contradiction
              · rename_i ret man' chld' up' hchild
                split_ifs at h with hret
                · obtain rfl := Option.some.inj h
                  exact .childFails hint' hread hdone hfind hcurr (ih hchild) hret
                · obtain rfl : ret = 0 := not_not.1 hret
                  exact .child hint' hread hdone hfind hcurr (ih hchild) (ih h)
      · obtain rfl := Option.some.inj h
        exact .leave hint' ‹_›

end DiskAnalyzer
