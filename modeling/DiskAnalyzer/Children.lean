import DiskAnalyzer.Lib.Run
import DiskAnalyzer.Lib.Tally

/-!
# The fork manager's count of its workers

`do_forks_manager` counts a worker after `forks_add`; `child_done_handler` waits for one child and
counts it out. `SIGCHLD` is one pending bit, so the handler may run once for several exits, and it
may run inside `++cnt_forks`, which reads the counter in one step and writes it in another. The
handler runs on the main loop's stack: while it runs, the loop stands still, and `SIGCHLD` is
blocked.

* `Loses`: the two kinds of steps that make the count wrong. A worker exits while `SIGCHLD` is
  pending, or `SIGCHLD` is delivered inside `++cnt_forks`.
* `Balanced`: the counter, with the increment and the decrements still to come, is the number of
  workers that run and of steps that lost one. Every step keeps it.

So between two iterations the count exceeds the workers by exactly the number of such steps
(`cntForks_eq`), and the loop that waits for 0 at shutdown is left only when there were none.

The counter is unbounded here; an `int` holds the number of processes of a system.
-/

namespace DiskAnalyzer.Children

open Lts

variable {ω : Type}

/-- `do_forks_manager`. -/
inductive MainPc where
  /-- Between two iterations. -/
  | accepting
  /-- `forks_add` has returned in the parent. -/
  | forked
  /-- In `++cnt_forks`, which has read the counter. -/
  | counting (cnt : Int)
  /-- In the loop after `kill(0, SIGTERM)`. -/
  | waiting
  | left
  deriving DecidableEq, Repr

/-- `child_done_handler`. -/
inductive HandlerPc where
  | idle
  | entered
  /-- `wait` has returned. -/
  | waited
  /-- In `--cnt_forks`, which has read the counter. -/
  | counting (cnt : Int)
  deriving DecidableEq, Repr

inductive WorkerPc where
  | absent
  | running
  /-- Terminated, and not waited for. -/
  | exited
  | reaped
  deriving DecidableEq, Repr

/-- The fork manager's process and its workers, named by `ω`. -/
structure State (ω : Type) where
  main : MainPc
  handler : HandlerPc
  /-- `SIGCHLD` is pending. -/
  pending : Bool
  cntForks : Int
  resmanDone : Bool
  worker : ω → WorkerPc

def start : State ω := ⟨.accepting, .idle, false, 0, false, fun _ => .absent⟩

inductive Event (ω : Type) where
  /-- A request is accepted, and `fork` makes the worker `w`. -/
  | fork (w : ω)
  | readCnt
  | writeCnt
  /-- `done` is set, and `kill(0, SIGTERM)` sent. -/
  | stop
  /-- `forkman_resman_done`. -/
  | resman
  | leave
  | exit (w : ω)
  /-- `SIGCHLD` is delivered. -/
  | deliver
  /-- `wait` returns the worker `w`. -/
  | wait (w : ω)
  | handlerRead
  | handlerWrite
  deriving DecidableEq, Repr

section Exec

variable [DecidableEq ω]

def State.setWorker (s : State ω) (w : ω) (pc : WorkerPc) : State ω :=
  { s with worker := Function.update s.worker w pc }

/-- One step. The main loop moves only when no handler runs. -/
def exec (s : State ω) (e : Event ω) : Option (State ω) :=
  match s.handler, e with
  | .idle, .fork w =>
    if s.main = .accepting ∧ s.worker w = .absent then
      some ({ s with main := .forked }.setWorker w .running)
    else none
  | .idle, .readCnt =>
    if s.main = .forked then some { s with main := .counting s.cntForks } else none
  | .idle, .writeCnt =>
    match s.main with
    | .counting cnt => some { s with main := .accepting, cntForks := cnt + 1 }
    | _ => none
  | .idle, .stop => if s.main = .accepting then some { s with main := .waiting } else none
  | .idle, .leave =>
    if s.main = .waiting ∧ s.cntForks = 0 ∧ s.resmanDone then some { s with main := .left }
    else none
  | .idle, .deliver =>
    if s.pending then some { s with handler := .entered, pending := false } else none
  | .entered, .wait w =>
    if s.worker w = .exited then some ({ s with handler := .waited }.setWorker w .reaped) else none
  | .waited, .handlerRead => some { s with handler := .counting s.cntForks }
  | .counting cnt, .handlerWrite => some { s with handler := .idle, cntForks := cnt - 1 }
  | _, .resman => some { s with resmanDone := true }
  | _, .exit w =>
    if s.worker w = .running then some ({ s with pending := true }.setWorker w .exited) else none
  | _, _ => none

/-- The steps in any order. -/
def system : System (State ω) (Event ω) where
  init s := s = start
  step s e s' := exec s e = some s'

end Exec

/-! ## What each step can do -/

section Moves

variable [DecidableEq ω]

inductive Move (s : State ω) : Event ω → State ω → Prop
  | fork (w : ω) : s.handler = .idle → s.main = .accepting → s.worker w = .absent →
      Move s (.fork w) ({ s with main := .forked }.setWorker w .running)
  | readCnt : s.handler = .idle → s.main = .forked →
      Move s .readCnt { s with main := .counting s.cntForks }
  | writeCnt (cnt : Int) : s.handler = .idle → s.main = .counting cnt →
      Move s .writeCnt { s with main := .accepting, cntForks := cnt + 1 }
  | stop : s.handler = .idle → s.main = .accepting → Move s .stop { s with main := .waiting }
  | resman : Move s .resman { s with resmanDone := true }
  | leave : s.handler = .idle → s.main = .waiting → s.cntForks = 0 →
      Move s .leave { s with main := .left }
  | exit (w : ω) : s.worker w = .running →
      Move s (.exit w) ({ s with pending := true }.setWorker w .exited)
  | deliver : s.handler = .idle → s.pending = true →
      Move s .deliver { s with handler := .entered, pending := false }
  | wait (w : ω) : s.handler = .entered → s.worker w = .exited →
      Move s (.wait w) ({ s with handler := .waited }.setWorker w .reaped)
  | handlerRead : s.handler = .waited →
      Move s .handlerRead { s with handler := .counting s.cntForks }
  | handlerWrite (cnt : Int) : s.handler = .counting cnt →
      Move s .handlerWrite { s with handler := .idle, cntForks := cnt - 1 }

theorem move_of_step {s s' : State ω} {e : Event ω} (h : exec s e = some s') : Move s e s' := by
  unfold exec at h
  split at h
  · split_ifs at h with hc
    obtain rfl := Option.some.inj h
    exact .fork _ ‹_› hc.1 hc.2
  · split_ifs at h with hc
    obtain rfl := Option.some.inj h
    exact .readCnt ‹_› hc
  · split at h
    · obtain rfl := Option.some.inj h
      exact .writeCnt _ ‹_› ‹_›
    · contradiction
  · split_ifs at h with hc
    obtain rfl := Option.some.inj h
    exact .stop ‹_› hc
  · split_ifs at h with hc
    obtain rfl := Option.some.inj h
    exact .leave ‹_› hc.1 hc.2.1
  · split_ifs at h with hc
    obtain rfl := Option.some.inj h
    exact .deliver ‹_› hc
  · split_ifs at h with hc
    obtain rfl := Option.some.inj h
    exact .wait _ ‹_› hc
  · obtain rfl := Option.some.inj h
    exact .handlerRead ‹_›
  · obtain rfl := Option.some.inj h
    exact .handlerWrite _ ‹_›
  · obtain rfl := Option.some.inj h
    exact .resman
  · split_ifs at h with hc
    obtain rfl := Option.some.inj h
    exact .exit _ hc
  · contradiction

end Moves

/-! ## The balance -/

/-- In `++cnt_forks`, between its two steps. -/
def MainPc.inside : MainPc → Bool
  | counting _ => true
  | _ => false

/-- **The steps that lose one.** -/
def Loses (s : State ω) : Event ω → Prop
  | .exit _ => s.pending = true
  | .deliver => s.main.inside = true
  | _ => False

instance (s : State ω) (e : Event ω) : Decidable (Loses s e) := by
  unfold Loses
  split <;> infer_instance

/-- The counter when the increment and the decrement under way are done. -/
def State.due (s : State ω) : Int :=
  match s.main with
  | .counting cnt => cnt + 1
  | .forked => s.cntForks + 1 - if s.handler = .idle then 0 else 1
  | _ => s.cntForks - if s.handler = .idle then 0 else 1

/-- The decrements a pending signal will make. -/
def State.coming (s : State ω) : Int := if s.pending then 1 else 0

/-- After `n` steps that lost one. -/
structure Balanced (n : Nat) (s : State ω) : Prop where
  live : Tally (s.due - s.coming - n) fun w => s.worker w = .running
  read : ∀ cnt, s.handler = .counting cnt → cnt = s.cntForks
  /-- Who is to be waited for has exited. -/
  exited : ∃ z, (Tally z fun w => s.worker w = .exited) ∧
    s.coming + (if s.handler = .entered then 1 else 0) ≤ z

theorem balanced_start : Balanced 0 (start : State ω) where
  live := by
    have hzero : (start : State ω).due - (start : State ω).coming - ((0 : Nat) : Int) = 0 := rfl
    rw [hzero]
    exact .zero fun w => by simp [start]
  read cnt h := absurd h (by simp [start])
  exited := ⟨0, .zero fun w => by simp [start], le_refl _⟩

@[simp] theorem due_setWorker [DecidableEq ω] (s : State ω) (w : ω) (pc : WorkerPc) :
    (s.setWorker w pc).due = s.due := rfl

@[simp] theorem coming_setWorker [DecidableEq ω] (s : State ω) (w : ω) (pc : WorkerPc) :
    (s.setWorker w pc).coming = s.coming := rfl

/-- What a step loses. -/
def lost (s : State ω) (e : Event ω) : Nat := if Loses s e then 1 else 0

section Steps

variable [DecidableEq ω] {n : Nat} {s s' : State ω} {e : Event ω}

theorem Move.live (h : Move s e s') (hs : Balanced n s) :
    Tally (s'.due - s'.coming - ((n + lost s e : Nat) : Int)) fun w => s'.worker w = .running := by
  cases h with
  | fork w hidle hmain habsent =>
    refine hs.live.enter (a := w) ?_ (by simp [habsent]) (by simp [State.setWorker]) ?_
    · rw [due_setWorker, coming_setWorker]
      simp [State.due, State.coming, lost, Loses, hidle, hmain]
      omega
    · intro v hv
      simp [State.setWorker, hv]
  | readCnt hidle hmain =>
    refine hs.live.same ?_ fun w => Iff.rfl
    simp [State.due, State.coming, lost, Loses, hidle, hmain]
  | writeCnt cnt hidle hmain =>
    refine hs.live.same ?_ fun w => Iff.rfl
    simp [State.due, State.coming, lost, Loses, hidle, hmain]
  | stop hidle hmain =>
    refine hs.live.same ?_ fun w => Iff.rfl
    simp [State.due, State.coming, lost, Loses, hidle, hmain]
  | resman =>
    refine hs.live.same ?_ fun w => Iff.rfl
    simp [State.due, State.coming, lost, Loses]
  | leave hidle hmain =>
    refine hs.live.same ?_ fun w => Iff.rfl
    simp [State.due, State.coming, lost, Loses, hidle, hmain]
  | exit w hrunning =>
    refine hs.live.leave (a := w) ?_ hrunning (by simp [State.setWorker]) ?_
    · have hdue : ({ s with pending := true } : State ω).due = s.due := rfl
      rw [due_setWorker, coming_setWorker, hdue]
      -- A signal that is pending already does not become two.
      cases hpending : s.pending <;> simp [State.coming, lost, Loses, hpending] <;> omega
    · intro v hv
      simp [State.setWorker, hv]
  | deliver hidle hpending =>
    refine hs.live.same ?_ fun w => Iff.rfl
    -- Inside the increment, the decrement to come will be written over.
    cases hmain : s.main <;>
      simp [State.due, State.coming, lost, Loses, MainPc.inside, hidle, hpending, hmain]
  | wait w hentered hexited =>
    refine hs.live.same ?_ ?_
    · rw [due_setWorker, coming_setWorker]
      simp [State.due, State.coming, lost, Loses, hentered]
    · intro v
      by_cases hv : v = w
      · simp [State.setWorker, hv, hexited]
      · simp [State.setWorker, hv]
  | handlerRead hwaited =>
    refine hs.live.same ?_ fun w => Iff.rfl
    simp [State.due, State.coming, lost, Loses, hwaited]
  | handlerWrite cnt hcounting =>
    have hread := hs.read cnt hcounting
    refine hs.live.same ?_ fun w => Iff.rfl
    cases hmain : s.main <;>
      simp [State.due, State.coming, lost, Loses, hcounting, hmain, hread]

/-- The main loop writes the counter only when no handler runs. -/
theorem Move.read (h : Move s e s') (hs : Balanced n s) (cnt : Int)
    (hcounting : s'.handler = .counting cnt) : cnt = s'.cntForks := by
  cases h with
  | fork w hidle => exact absurd (hidle.symm.trans hcounting) (by simp)
  | readCnt hidle => exact absurd (hidle.symm.trans hcounting) (by simp)
  | writeCnt cnt' hidle => exact absurd (hidle.symm.trans hcounting) (by simp)
  | stop hidle => exact absurd (hidle.symm.trans hcounting) (by simp)
  | leave hidle => exact absurd (hidle.symm.trans hcounting) (by simp)
  | resman => exact hs.read cnt hcounting
  | exit w => exact hs.read cnt hcounting
  | deliver => exact absurd hcounting (by simp)
  | wait w => exact absurd hcounting (by simp [State.setWorker])
  | handlerRead =>
    obtain rfl : s.cntForks = cnt := by simpa using hcounting
    rfl
  | handlerWrite => exact absurd hcounting (by simp)

/-- Every run of the handler has a worker of its own to wait for. -/
theorem Move.exited (h : Move s e s') (hs : Balanced n s) :
    ∃ z, (Tally z fun w => s'.worker w = .exited) ∧
      s'.coming + (if s'.handler = .entered then 1 else 0) ≤ z := by
  obtain ⟨z, htally, hle⟩ := hs.exited
  cases h with
  | fork w hidle hmain habsent =>
    refine ⟨z, htally.congr ?_, hle⟩
    intro v
    by_cases hv : v = w
    · simp [State.setWorker, hv, habsent]
    · simp [State.setWorker, hv]
  | exit w hrunning =>
    refine ⟨z + 1,
      htally.enter (a := w) rfl (by simp [hrunning]) (by simp [State.setWorker]) ?_, ?_⟩
    · intro v hv
      simp [State.setWorker, hv]
    · have hcoming : 0 ≤ s.coming := by
        rw [State.coming]
        split_ifs <;> decide
      have hcoming' : ({ s with pending := true } : State ω).coming = 1 := rfl
      have hsame : (({ s with pending := true } : State ω).setWorker w .exited).handler =
          s.handler := rfl
      rw [coming_setWorker, hcoming', hsame]
      omega
  | deliver hidle hpending =>
    refine ⟨z, htally, ?_⟩
    simp only [State.coming, hpending, hidle] at hle ⊢
    simpa using hle
  | wait w hentered hexited =>
    refine ⟨z - 1, htally.leave (a := w) rfl hexited (by simp [State.setWorker]) ?_, ?_⟩
    · intro v hv
      simp [State.setWorker, hv]
    · have hsame : ({ s with handler := .waited } : State ω).coming = s.coming := rfl
      rw [coming_setWorker, hsame]
      simp only [State.setWorker, hentered, if_true] at hle ⊢
      simp only [reduceCtorEq, if_false]
      omega
  | handlerRead hwaited =>
    refine ⟨z, htally, ?_⟩
    simpa [State.coming, hwaited] using hle
  | handlerWrite cnt hcounting =>
    refine ⟨z, htally, ?_⟩
    simpa [State.coming, hcounting] using hle
  | _ => exact ⟨z, htally, hle⟩

/-- **One step**: it moves the balance by what it loses. -/
theorem balanced_step (hs : Balanced n s) (h : exec s e = some s') :
    Balanced (n + lost s e) s' := by
  have hmove := move_of_step h
  exact ⟨hmove.live hs, hmove.read hs, hmove.exited hs⟩

theorem balanced_of_reachedWith (h : system.ReachedWith Loses n s) : Balanced n s := by
  refine h.invariant ?_ ?_ ?_
  · intro s₀ h₀
    rw [show s₀ = start from h₀]
    exact balanced_start
  · intro n s e s' hs hstep hok
    have hnext := balanced_step hs hstep
    rwa [lost, if_neg hok] at hnext
  · intro n s e s' hs hstep hno
    have hnext := balanced_step hs hstep
    rwa [lost, if_pos hno] at hnext

end Steps

/-! ## The count between two iterations -/

/-- The workers that have not terminated. -/
noncomputable def State.live (s : State ω) : Int := {w | s.worker w = .running}.ncard

/-- No `SIGCHLD` is pending, no handler runs, and the main loop is between two iterations, of its
own or of the wait for its workers. -/
structure State.Quiet (s : State ω) : Prop where
  pending : s.pending = false
  handler : s.handler = .idle
  main : s.main = .accepting ∨ s.main = .waiting

section Count

variable [DecidableEq ω] {n : Nat} {s : State ω}

/-- The count exceeds the workers by what was lost. -/
theorem cntForks_eq (h : system.ReachedWith Loses n s) (hq : s.Quiet) :
    s.cntForks = s.live + n := by
  have hcard := (balanced_of_reachedWith h).live.eq_ncard
  have hdue : s.due = s.cntForks := by
    rcases hq.main with hmain | hmain <;> simp [State.due, hmain, hq.handler]
  have hcoming : s.coming = 0 := by simp [State.coming, hq.pending]
  rw [hdue, hcoming] at hcard
  rw [State.live, ← hcard]
  omega

omit [DecidableEq ω] in
theorem live_eq_zero (h : ∀ w, s.worker w ≠ .running) : s.live = 0 := by
  have hempty : {w | s.worker w = .running} = ∅ := Set.eq_empty_of_forall_notMem h
  rw [State.live, hempty, Set.ncard_empty]
  rfl

/-- **The handler always finds a child that has exited**, so that `wait` does not block. -/
theorem exists_exited (h : system.Reachable s) (hentered : s.handler = .entered) :
    ∃ w, s.worker w = .exited := by
  obtain ⟨n, hn⟩ : ∃ n, system.ReachedWith Loses n s := System.reachable_iff_reachedWith.1 h
  obtain ⟨z, htally, hle⟩ := (balanced_of_reachedWith hn).exited
  by_contra hnone
  have hz := htally.eq_zero_iff.2 fun w hw => hnone ⟨w, hw⟩
  rw [State.coming, hentered, if_pos rfl, hz] at hle
  split_ifs at hle <;> omega

/-- **The count is exact when no step lost one**: no worker exited while `SIGCHLD` was pending, and
no `SIGCHLD` was delivered inside `++cnt_forks`. In a run with such a step the count is too high
for good, and the loop that waits for 0 is not left when all workers are gone. -/
theorem cntForks_eq_live_iff (h : system.ReachedWith Loses n s) (hq : s.Quiet) :
    (s.cntForks = s.live ↔ n = 0) ∧
      (s.main = .waiting → s.resmanDone = true → (∀ w, s.worker w ≠ .running) →
        ((∃ t, system.step s .leave t) ↔ n = 0)) := by
  have hcnt := cntForks_eq h hq
  refine ⟨by omega, ?_⟩
  intro hmain hresman hnone
  have hstep : (∃ t, system.step s .leave t) ↔ s.cntForks = 0 := by
    have hexec : exec s .leave = if s.main = .waiting ∧ s.cntForks = 0 ∧ s.resmanDone then
        some { s with main := .left } else none := by
      simp only [exec, hq.handler]
    show (∃ t, exec s .leave = some t) ↔ _
    rw [hexec]
    by_cases hzero : s.cntForks = 0 <;> simp [hmain, hresman, hzero]
  rw [hstep, hcnt, live_eq_zero hnone]
  omega

end Count

/-! ### Three runs -/

open Lts.System

/-- A worker is forked and counted. -/
def counted (w : Bool) : List (Event Bool) := [.fork w, .readCnt, .writeCnt]

/-- A run of the handler. -/
def handled (w : Bool) : List (Event Bool) := [.deliver, .wait w, .handlerRead, .handlerWrite]

/-- Each worker is waited for before the next one exits. -/
def oneByOne : List (Event Bool) :=
  counted false ++ counted true ++ .exit false :: handled false ++ .exit true :: handled true ++
    [.stop, .resman]

/-- Both exit before the handler runs. -/
def together : List (Event Bool) :=
  counted false ++ counted true ++ [.exit false, .exit true] ++ handled false ++ [.stop, .resman]

/-- The handler runs inside `++cnt_forks`. -/
def insideCount : List (Event Bool) :=
  [.fork false, .readCnt, .exit false] ++ handled false ++ [.writeCnt, .stop, .resman]

def oneByOneEnd : State Bool :=
  followed exec (fun s e => decide (¬ Loses s e)) start oneByOne

theorem cntForks_eq_live_iff_oneByOne :
    (oneByOneEnd.cntForks = oneByOneEnd.live ↔ 0 = 0) ∧
      (oneByOneEnd.main = .waiting → oneByOneEnd.resmanDone = true →
        (∀ w, oneByOneEnd.worker w ≠ .running) →
          ((∃ t, system.step oneByOneEnd .leave t) ↔ 0 = 0)) := by
  have hfollow : (follow exec (fun s e => decide (¬ Loses s e)) start oneByOne).isSome := by
    decide +kernel
  have hrun := run_followed (S := system) (P := fun s e => ¬ Loses s e) (fun _ _ _ h => h)
    (fun _ _ h => of_decide_eq_true h) hfollow
  have hreached : system.ReachedWith Loses 0 oneByOneEnd :=
    reachedWith_zero_iff.2 ⟨start, oneByOne, rfl, hrun⟩
  exact cntForks_eq_live_iff hreached ⟨by decide +kernel, by decide +kernel, by decide +kernel⟩

/-- **A worker too many, for good**: all workers are gone, nothing is pending, the counter is 1, and
the loop that waits for 0 is not left. -/
theorem cntForks_ne_live :
    ∃ s t : State Bool, (system.Reachable s ∧ s.Quiet ∧ s.cntForks = 1 ∧ s.live = 0 ∧
        s.main = .waiting ∧ s.resmanDone = true ∧ exec s .leave = none) ∧
      system.Reachable t ∧ t.Quiet ∧ t.cntForks = 1 ∧ t.live = 0 ∧
        t.main = .waiting ∧ t.resmanDone = true ∧ exec t .leave = none := by
  have htogether : (follow exec (fun _ _ => true) start together).isSome := by decide +kernel
  have hinside : (follow exec (fun _ _ => true) start insideCount).isSome := by decide +kernel
  have hrun := run_followed_all (S := system) (fun _ _ _ h => h) htogether
  have hrun' := run_followed_all (S := system) (fun _ _ _ h => h) hinside
  refine ⟨_, _, ⟨⟨start, together, rfl, hrun⟩, ⟨?_, ?_, ?_⟩, ?_, live_eq_zero ?_, ?_, ?_, ?_⟩,
    ⟨start, insideCount, rfl, hrun'⟩, ⟨?_, ?_, ?_⟩, ?_, live_eq_zero ?_, ?_, ?_, ?_⟩
  all_goals decide +kernel

end DiskAnalyzer.Children
