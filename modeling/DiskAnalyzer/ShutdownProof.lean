import DiskAnalyzer.Lib.Tally
import DiskAnalyzer.Shutdown
import Mathlib.Data.List.Perm.Basic
import Mathlib.Tactic.SplitIfs

/-!
# No result is lost at shutdown

The results thread leaves its loop at the third `SIGTERM` of the threads manager. The fork manager
sends that one when its count of children is 0, so when it comes all workers have exited and every
message has been sent. Whether it has also been read is another matter: the loop ends without a
look at the connections that wait.

* `Signalled`: how far `done` of the threads manager can be, by what the fork manager has sent.
* `Counts`: the fork manager's counter is at least the number of children that are not reaped.
* `Accounts`: the messages sent are those applied and those on connections, each once.

All are kept by the steps that meet `Drains`: the results thread leaves when no connection waits,
and a worker has its own handler when `SIGTERM` reaches it.
-/

namespace DiskAnalyzer.Shutdown

variable {ω μ : Type}

/-! ## What each step can do -/

/-- What a handler sends goes to the threads manager if it is `SIGTERM`, and to the fork manager's
`SIGUSR1` otherwise. -/
theorem send_frame (s : State ω μ) (k : Option Kill) : ∃ usr1, s.send k = { s with
    threads := if k = some .pidTerm then s.threads.kill else s.threads
    usr1 } := by
  cases k with
  | none => exact ⟨s.usr1, rfl⟩
  | some k =>
    cases k with
    | pidTerm => exact ⟨s.usr1, rfl⟩
    | parentUsr1 => exact ⟨true, rfl⟩

section Moves

variable [DecidableEq ω]

inductive ForkMove (s : State ω μ) : ForkEvent ω → State ω μ → Prop
  | term (usr1 : Bool) : ForkMove s .term { s with
      fork := s.fork.deliver.1
      threads := if s.fork.deliver.2 = some .pidTerm then s.threads.kill else s.threads
      usr1 }
  | usr1 : ForkMove s .usr1 { s with usr1 := false, resmanDone := true }
  | chld (w : ω) : s.worker w = .exited →
      ForkMove s (.chld w)
        ({ s with chld := false, cntForks := s.cntForks - 1 }.setWorker w .reaped)
  | fork (w : ω) : s.forkPc = .accepting → s.worker w = .absent →
      ForkMove s (.fork w) ({ s with
        forkPc := .forked
        proc := Function.update s.proc w s.fork.fork }.setWorker w .forked)
  | readCnt : s.forkPc = .forked →
      ForkMove s .readCnt { s with forkPc := .counting s.cntForks }
  | writeCnt (cnt : Int) : s.forkPc = .counting cnt →
      ForkMove s .writeCnt { s with forkPc := .accepting, cntForks := cnt + 1 }
  | killGroup : s.forkPc = .accepting → s.fork.done ≠ 0 →
      ForkMove s .killGroup { s.killGroup with forkPc := .waiting }
  | finish : s.forkPc = .waiting → s.cntForks = 0 →
      ForkMove s .finish { s with forkPc := .finished, threads := s.threads.kill }

theorem forkMove_of_step {s s' : State ω μ} {e : ForkEvent ω} (h : forkStep s e = some s') :
    ForkMove s e s' := by
  unfold forkStep at h
  split at h
  · split_ifs at h
    obtain rfl := Option.some.inj h
    obtain ⟨usr1, hsend⟩ := send_frame { s with fork := s.fork.deliver.1 } s.fork.deliver.2
    rw [hsend]
    exact .term usr1
  · split_ifs at h
    obtain rfl := Option.some.inj h
    exact .usr1
  · split_ifs at h with hexited
    obtain rfl := Option.some.inj h
    exact .chld _ hexited.2
  · split_ifs at h with habsent
    obtain rfl := Option.some.inj h
    exact .fork _ ‹_› habsent
  · obtain rfl := Option.some.inj h
    exact .readCnt ‹_›
  · obtain rfl := Option.some.inj h
    exact .writeCnt _ ‹_›
  · split_ifs at h with hdone
    obtain rfl := Option.some.inj h
    exact .killGroup ‹_› hdone
  · split_ifs at h with hzero
    obtain rfl := Option.some.inj h
    exact .finish ‹_› hzero.1
  · contradiction

omit [DecidableEq ω] in
inductive ThreadsMove (s : State ω μ) : ThreadsEvent → State ω μ → Prop
  | term (usr1 : Bool) : s.threads.pending = true → ThreadsMove s .term { s with
      threads := if s.threads.deliver.2 = some .pidTerm then s.threads.deliver.1.kill
        else s.threads.deliver.1
      usr1 }
  | request : ThreadsMove s .request { s with cntThreads := s.cntThreads + 1 }
  | requestEnds : ThreadsMove s .requestEnds { s with cntThreads := s.cntThreads - 1 }
  | requestsEnd : ThreadsMove s .requestsEnd { s with requests := .exited, fork := s.fork.kill }
  | check (pc : ResultsPc ω μ) : s.results = .checking →
      (pc = .accepting ∨ s.threads.done = 3 ∧ pc = .left) →
      ThreadsMove s .check { s with results := pc }
  | acceptNone : s.results = .accepting → ThreadsMove s .accept { s with results := .checking }
  | accept (conn : Connection ω μ) (backlog : List (Connection ω μ)) : s.results = .accepting →
      s.backlog = conn :: backlog →
      ThreadsMove s .accept { s with results := .reading conn, backlog }
  | read (w : ω) (m : μ) : s.results = .reading ⟨w, some m⟩ →
      ThreadsMove s .read
        { s with results := .checking, applied := s.applied ++ [(w, m)] }
  | shutdown : s.results = .left → ThreadsMove s .shutdown { s with written := true }

omit [DecidableEq ω] in
theorem threadsMove_of_step {s s' : State ω μ} {e : ThreadsEvent}
    (h : threadsStep s e = some s') : ThreadsMove s e s' := by
  unfold threadsStep at h
  split at h
  · split_ifs at h with hpending
    obtain rfl := Option.some.inj h
    obtain ⟨usr1, hsend⟩ := send_frame
      { s with threads := s.threads.deliver.1 } s.threads.deliver.2
    rw [hsend]
    exact .term usr1 hpending
  · obtain rfl := Option.some.inj h
    exact .request
  · split_ifs at h
    obtain rfl := Option.some.inj h
    exact .requestEnds
  · split_ifs at h
    obtain rfl := Option.some.inj h
    exact .requestsEnd
  · obtain rfl := Option.some.inj h
    refine .check _ ‹_› ?_
    split_ifs with hdone
    · exact Or.inl rfl
    · exact Or.inr ⟨not_not.1 hdone, rfl⟩
  · split at h
    · obtain rfl := Option.some.inj h
      exact .acceptNone ‹_›
    · obtain rfl := Option.some.inj h
      exact .accept _ _ ‹_› ‹_›
  · obtain rfl := Option.some.inj h
    exact .read _ _ ‹_›
  · obtain rfl := Option.some.inj h
    exact .shutdown ‹_›
  · contradiction

inductive WorkMove (s : State ω μ) (w : ω) : WorkEvent μ → State ω μ → Prop
  | term (usr1 : Bool) : WorkMove s w .term { s with
      proc := Function.update s.proc w (s.proc w).deliver.1
      threads := if (s.proc w).deliver.2 = some .pidTerm then s.threads.kill else s.threads
      usr1 }
  | signal : s.worker w = .forked →
      WorkMove s w .signal ({ s with
        proc := Function.update s.proc w { s.proc w with sigterm := .forkchildHandler } }.setWorker
          w .running)
  | connect : s.worker w = .running →
      WorkMove s w .connect
        ({ s with backlog := s.backlog ++ [(⟨w, none⟩ : Connection ω μ)] }.setWorker w .connected)
  | send (m : μ) : s.worker w = .connected →
      WorkMove s w (.send m) ({ s with
        backlog := s.backlog.map (Connection.fill w m)
        results := s.results.fill w m
        sent := s.sent ++ [(w, m)] }.setWorker w .running)
  | exit : s.worker w = .running →
      WorkMove s w .exit ({ s with chld := true }.setWorker w .exited)

theorem workMove_of_step {s s' : State ω μ} {w : ω} {e : WorkEvent μ}
    (h : workStep s w e = some s') : WorkMove s w e s' := by
  unfold workStep at h
  split at h
  · split_ifs at h
    obtain rfl := Option.some.inj h
    obtain ⟨usr1, hsend⟩ := send_frame
      { s with proc := Function.update s.proc w (s.proc w).deliver.1 } (s.proc w).deliver.2
    rw [hsend]
    exact .term usr1
  · obtain rfl := Option.some.inj h
    exact .signal ‹_›
  · obtain rfl := Option.some.inj h
    exact .connect ‹_›
  · obtain rfl := Option.some.inj h
    exact .send _ ‹_›
  · obtain rfl := Option.some.inj h
    exact .exit ‹_›
  · contradiction

end Moves

/-! ## Signals -/

/-- `done`, with a pending `SIGTERM`. -/
def Process.reach (p : Process) : Int := p.done + if p.pending then 1 else 0

theorem reach_kill (p : Process) : p.kill.reach ≤ p.reach + 1 := by
  unfold Process.kill Process.reach
  split_ifs <;> simp_all

/-- Only `forkman_handler1` sends `SIGTERM`. -/
theorem deliver_snd {p : Process} (h : p.deliver.2 = some .pidTerm) :
    p.sigterm = .forkmanHandler1 := by
  unfold Process.deliver at h
  cases hp : p.sigterm <;> simp_all [forkmanHandler2, reqmanHandler, resmanHandler,
    forkchildHandler]

theorem kill_eq (p : Process) : p.kill.sigterm = p.sigterm ∧ p.kill.done = p.done := by
  unfold Process.kill
  split_ifs <;> exact ⟨rfl, rfl⟩

/-- The fork manager has left its loop. -/
def ForkPc.closing : ForkPc → Bool
  | waiting | finished => true
  | _ => false

/-- How often the fork manager has sent `SIGTERM` to the threads manager. -/
def terms (fork : Process) : ForkPc → Int
  | .finished => 3
  | .waiting => 2
  | _ => if fork.sigterm = .forkmanHandler1 then 0 else 1

theorem terms_of_not_over {fork : Process} {pc : ForkPc} (h : pc.closing = false) :
    terms fork pc = if fork.sigterm = .forkmanHandler1 then 0 else 1 := by
  cases pc <;> simp_all [ForkPc.closing, terms]

theorem terms_of_ne {fork fork' : Process} (h : fork.sigterm ≠ .forkmanHandler1)
    (h' : fork'.sigterm ≠ .forkmanHandler1) (pc : ForkPc) : terms fork pc = terms fork' pc := by
  cases pc <;> simp [terms, h, h']

/-- **`done` of the threads manager counts the signals of the fork manager**, at most. -/
structure Signalled (fork : Process) (pc : ForkPc) (threads : Process) : Prop where
  forkman : fork.done = 0 ∧ (fork.sigterm = .forkmanHandler1 ∨ fork.sigterm = .forkmanHandler2) ∨
    fork.sigterm = .ignore
  closing : pc.closing = true → fork.sigterm = .ignore
  threadman : threads.done = 0 ∧ threads.sigterm = .reqmanHandler ∨
    threads.sigterm = .resmanHandler ∨ threads.sigterm = .ignore
  reach : threads.reach ≤ terms fork pc

namespace Signalled

variable {fork threads : Process} {pc pc' : ForkPc}

/-- The fork manager sends `SIGTERM` to the threads manager once more. -/
theorem send {fork' : Process} (h : Signalled fork pc threads)
    (hfork : fork'.done = 0 ∧ (fork'.sigterm = .forkmanHandler1 ∨
      fork'.sigterm = .forkmanHandler2) ∨ fork'.sigterm = .ignore)
    (hclosing : pc'.closing = true → fork'.sigterm = .ignore)
    (hterms : terms fork' pc' = terms fork pc + 1) : Signalled fork' pc' threads.kill := by
  obtain ⟨hsig, hdone⟩ := kill_eq threads
  refine ⟨hfork, hclosing, ?_, ?_⟩
  · rw [hsig, hdone]
    exact h.threadman
  · have hkill := reach_kill threads
    have hreach := h.reach
    omega

/-- The fork manager is sent a `SIGTERM`. -/
theorem killFork (h : Signalled fork pc threads) : Signalled fork.kill pc threads := by
  obtain ⟨hsig, hdone⟩ := kill_eq fork
  have hterms : terms fork.kill pc = terms fork pc := by cases pc <;> simp [terms, hsig]
  refine ⟨?_, ?_, h.threadman, hterms ▸ h.reach⟩
  · rw [hsig, hdone]
    exact h.forkman
  · rw [hsig]
    exact h.closing

/-- The fork manager goes on in its loop. -/
theorem goes (h : Signalled fork pc threads) (hpc : pc.closing = false)
    (hpc' : pc'.closing = false) : Signalled fork pc' threads := by
  refine ⟨h.forkman, ?_, h.threadman, ?_⟩
  · intro hclosing
    rw [hpc'] at hclosing
    simp at hclosing
  · rw [terms_of_not_over hpc', ← terms_of_not_over hpc]
    exact h.reach

/-- The fork manager takes its `SIGTERM`; the first one is passed on. -/
theorem forkTerm (h : Signalled fork pc threads) :
    Signalled fork.deliver.1 pc
      (if fork.deliver.2 = some .pidTerm then threads.kill else threads) := by
  rcases h.forkman with ⟨hdone, hfork | hfork⟩ | hfork
  · have hclosing : pc.closing = false := by
      by_contra hclosing
      have hignore := h.closing (by simpa using hclosing)
      simp [hfork] at hignore
    have hdeliver : fork.deliver =
        ({ fork with pending := false, sigterm := .forkmanHandler2 }, some .pidTerm) := by
      simp [Process.deliver, hfork, forkmanHandler1]
    rw [hdeliver, if_pos rfl]
    refine h.send (Or.inl ⟨hdone, Or.inr rfl⟩) ?_ ?_
    · intro hclosing'
      rw [hclosing] at hclosing'
      simp at hclosing'
    · rw [terms_of_not_over hclosing, terms_of_not_over hclosing, if_pos hfork, if_neg (by simp)]
      rfl
  · have hdeliver : fork.deliver =
        ({ fork with pending := false, sigterm := .ignore, done := 1 }, none) := by
      simp [Process.deliver, hfork, forkmanHandler2]
    rw [hdeliver, if_neg (by simp)]
    refine ⟨Or.inr rfl, fun _ => rfl, h.threadman, ?_⟩
    have hne : fork.sigterm ≠ .forkmanHandler1 := by simp [hfork]
    calc threads.reach ≤ terms fork pc := h.reach
      _ = terms _ pc := terms_of_ne hne (by simp) pc
  · have hdeliver : fork.deliver = ({ fork with pending := false }, none) := by
      simp [Process.deliver, hfork]
    rw [hdeliver, if_neg (by simp)]
    refine ⟨Or.inr hfork, fun _ => hfork, h.threadman, ?_⟩
    have hne : fork.sigterm ≠ .forkmanHandler1 := by simp [hfork]
    calc threads.reach ≤ terms fork pc := h.reach
      _ = terms _ pc := terms_of_ne hne hne pc

/-- The threads manager takes its `SIGTERM`, and sends none. -/
theorem threadsTerm (h : Signalled fork pc threads) (hpending : threads.pending = true) :
    Signalled fork pc threads.deliver.1 ∧ threads.deliver.2 ≠ some .pidTerm := by
  have hreach := h.reach
  rw [Process.reach, if_pos hpending] at hreach
  rcases h.threadman with ⟨hdone, hthreads⟩ | hthreads | hthreads
  · have hdeliver : threads.deliver =
        ({ threads with pending := false, sigterm := .resmanHandler, done := 1 }, none) := by
      simp [Process.deliver, hthreads, reqmanHandler]
    rw [hdeliver]
    refine ⟨⟨h.forkman, h.closing, Or.inr (Or.inl rfl), ?_⟩, by simp⟩
    simp only [Process.reach, Bool.false_eq_true, if_false]
    omega
  · have hdeliver : threads.deliver.1.done = threads.done + 1 ∧
        threads.deliver.1.pending = false ∧ (threads.deliver.1.sigterm = .resmanHandler ∨
          threads.deliver.1.sigterm = .ignore) ∧ threads.deliver.2 ≠ some .pidTerm := by
      simp only [Process.deliver, hthreads, resmanHandler]
      split_ifs <;> simp
    obtain ⟨hdone, hfalse, hsig, hsend⟩ := hdeliver
    refine ⟨⟨h.forkman, h.closing, Or.inr hsig, ?_⟩, hsend⟩
    rw [Process.reach, hdone, hfalse, if_neg (by simp)]
    omega
  · have hdeliver : threads.deliver = ({ threads with pending := false }, none) := by
      simp [Process.deliver, hthreads]
    rw [hdeliver]
    refine ⟨⟨h.forkman, h.closing, Or.inr (Or.inr hthreads), ?_⟩, by simp⟩
    simp only [Process.reach, Bool.false_eq_true, if_false]
    omega

/-- The fork manager leaves its loop once it has been told to. -/
theorem killGroup (h : Signalled fork .accepting threads) (hdone : fork.done ≠ 0) :
    Signalled fork.kill .waiting threads.kill := by
  obtain ⟨hsig, -⟩ := kill_eq fork
  have hignore : fork.sigterm = .ignore := h.forkman.resolve_left fun hzero => hdone hzero.1
  refine h.send (Or.inr (hsig.trans hignore)) (fun _ => hsig.trans hignore) ?_
  simp [terms, hignore]

theorem finish (h : Signalled fork .waiting threads) :
    Signalled fork .finished threads.kill := by
  have hignore : fork.sigterm = .ignore := h.closing rfl
  exact h.send (Or.inr hignore) (fun _ => hignore) rfl

/-- **The third `SIGTERM` is the last thing the fork manager does.** -/
theorem finished (h : Signalled fork pc threads) (hdone : threads.done = 3) : pc = .finished := by
  have hreach := h.reach
  rw [Process.reach, hdone] at hreach
  have hpending : (0 : Int) ≤ if threads.pending then 1 else 0 := by split_ifs <;> simp
  have hterms : 3 ≤ terms fork pc := by omega
  cases pc with
  | finished => rfl
  | waiting => simp [terms] at hterms
  | _ =>
    simp only [terms] at hterms
    split_ifs at hterms <;> omega

end Signalled

/-! ## The fork manager's counter -/

/-- Forked, and `wait` has not returned it. -/
def WorkerPc.unreaped : WorkerPc → Bool
  | absent | reaped => false
  | _ => true

/-- What the counter comes to once the fork manager has counted its last child. -/
def ForkPc.counted (cntForks : Int) : ForkPc → Int
  | forked => cntForks + 1
  | counting cnt => cnt + 1
  | _ => cntForks

/-- **The counter is an upper bound**: a `SIGCHLD` that comes within `++cnt_forks`, or with another
one pending, is not counted. -/
structure Counts (pc : ForkPc) (cntForks : Int) (worker : ω → WorkerPc) : Prop where
  bound : ∃ n, Tally n (fun w => (worker w).unreaped = true) ∧ n ≤ pc.counted cntForks
  finished : pc = .finished → ∀ w, (worker w).unreaped = false

namespace Counts

variable {pc pc' : ForkPc} {cnt cnt' : Int} {worker worker' : ω → WorkerPc}

/-- No worker is forked or reaped. -/
theorem goes (h : Counts pc cnt worker) (hcnt : pc'.counted cnt' = pc.counted cnt)
    (hpc : pc' = .finished → pc = .finished)
    (hworker : ∀ w, (worker' w).unreaped = (worker w).unreaped) : Counts pc' cnt' worker' := by
  obtain ⟨n, htally, hn⟩ := h.bound
  refine ⟨⟨n, htally.congr ?_, hcnt ▸ hn⟩, ?_⟩
  · intro w
    rw [hworker w]
  · intro hfinished w
    rw [hworker w]
    exact h.finished (hpc hfinished) w

/-- The fork manager has seen its counter at 0. -/
theorem finish (h : Counts .waiting 0 worker) : Counts .finished 0 worker := by
  obtain ⟨n, htally, hn⟩ := h.bound
  have hzero : n = 0 := le_antisymm hn htally.nonneg
  refine ⟨⟨n, htally, hn⟩, fun _ w => ?_⟩
  simpa using htally.eq_zero_iff.1 hzero w

variable [DecidableEq ω] {w : ω}

/-- A worker goes on, neither forked nor reaped. -/
theorem work {wpc : WorkerPc} (h : Counts pc cnt worker)
    (hw : wpc.unreaped = (worker w).unreaped) :
    Counts pc cnt (Function.update worker w wpc) := by
  refine h.goes rfl id ?_
  intro v
  by_cases hv : v = w
  · rw [hv, Function.update_self, hw]
  · rw [Function.update_of_ne hv]

theorem fork (h : Counts .accepting cnt worker) (hw : worker w = .absent) :
    Counts .forked cnt (Function.update worker w .forked) := by
  obtain ⟨n, htally, hn⟩ := h.bound
  refine ⟨⟨n + 1, htally.enter (a := w) rfl ?_ ?_ ?_, ?_⟩, by simp⟩
  · simp [hw, WorkerPc.unreaped]
  · simp [WorkerPc.unreaped]
  · intro v hv
    rw [Function.update_of_ne hv]
  · simp only [ForkPc.counted] at hn ⊢
    omega

theorem chld (h : Counts pc cnt worker) (hw : worker w = .exited) :
    Counts pc (cnt - 1) (Function.update worker w .reaped) := by
  obtain ⟨n, htally, hn⟩ := h.bound
  refine ⟨⟨n - 1, htally.leave (a := w) rfl ?_ ?_ ?_, ?_⟩, ?_⟩
  · simp [hw, WorkerPc.unreaped]
  · simp [WorkerPc.unreaped]
  · intro v hv
    rw [Function.update_of_ne hv]
  · -- Within `++cnt_forks` the decrement is lost.
    cases pc <;> simp only [ForkPc.counted] at hn ⊢ <;> omega
  · intro hfinished
    have hunreaped := h.finished hfinished w
    simp [hw, WorkerPc.unreaped] at hunreaped

end Counts

section Counts

variable [DecidableEq ω] {s s' : State ω μ}

theorem ForkMove.counts {e : ForkEvent ω} (h : ForkMove s e s')
    (hs : Counts s.forkPc s.cntForks s.worker) : Counts s'.forkPc s'.cntForks s'.worker := by
  cases h with
  | term usr1 => exact hs
  | usr1 => exact hs
  | chld w hexited => exact hs.chld hexited
  | fork w haccepting habsent =>
    rw [haccepting] at hs
    exact hs.fork habsent
  | readCnt hforked =>
    refine hs.goes ?_ (by simp) fun _ => rfl
    simp [hforked, ForkPc.counted]
  | writeCnt cnt hcounting =>
    refine hs.goes ?_ (by simp) fun _ => rfl
    simp [hcounting, ForkPc.counted]
  | killGroup haccepting hdone =>
    refine hs.goes ?_ (by simp) fun _ => rfl
    simp [haccepting, ForkPc.counted, State.killGroup]
  | finish hwaiting hzero =>
    rw [hwaiting, hzero] at hs
    show Counts .finished s.cntForks s.worker
    rw [hzero]
    exact hs.finish

theorem WorkMove.counts {w : ω} {e : WorkEvent μ} (h : WorkMove s w e s')
    (hs : Counts s.forkPc s.cntForks s.worker) : Counts s'.forkPc s'.cntForks s'.worker := by
  cases h with
  | term usr1 => exact hs
  | signal hpc | connect hpc | send m hpc | exit hpc =>
    refine hs.work ?_
    rw [hpc]
    rfl

end Counts

/-! ## Messages -/

/-- The connection the results thread reads from. -/
def ResultsPc.conns : ResultsPc ω μ → List (Connection ω μ)
  | reading conn => [conn]
  | _ => []

/-- The connections whose message is not applied. -/
def State.conns (s : State ω μ) : List (Connection ω μ) := s.results.conns ++ s.backlog

/-- The message on a connection. -/
def Connection.said (conn : Connection ω μ) : Option (ω × μ) :=
  conn.message.map (conn.sender, ·)

section Accounts

variable [DecidableEq ω]

/-- The connection waits for the message of `w`. -/
def Connection.awaits (w : ω) (conn : Connection ω μ) : Bool :=
  conn.sender = w ∧ conn.message.isNone

theorem fill_eq (w : ω) (m : μ) (conn : Connection ω μ) :
    conn.fill w m = if conn.awaits w then { conn with message := some m } else conn := by
  simp [Connection.fill, Connection.awaits]

theorem awaits_fill (w v : ω) (m : μ) (conn : Connection ω μ) :
    (conn.fill w m).awaits v = (conn.awaits v && decide (v ≠ w)) := by
  rw [fill_eq]
  by_cases hw : conn.awaits w
  · obtain ⟨rfl, hnone⟩ : conn.sender = w ∧ conn.message.isNone = true := by
      simpa [Connection.awaits] using hw
    rw [if_pos hw]
    by_cases hv : v = conn.sender
    · simp [Connection.awaits, hv]
    · simp [Connection.awaits, Ne.symm hv]
  · rw [if_neg hw]
    by_cases hv : v = w
    · simpa [hv] using hw
    · simp [hv]

/-- Filling the connections that wait adds the message once for each of them. -/
theorem perm_said_fill (w : ω) (m : μ) (conns : List (Connection ω μ)) :
    ((conns.map (Connection.fill w m)).filterMap Connection.said).Perm
      (List.replicate (conns.countP (Connection.awaits w)) (w, m) ++
        conns.filterMap Connection.said) := by
  induction conns with
  | nil => exact List.Perm.refl _
  | cons conn conns ih =>
    rw [List.map_cons, fill_eq]
    by_cases hw : conn.awaits w
    · obtain ⟨rfl, hnone⟩ : conn.sender = w ∧ conn.message = none := by
        simpa [Connection.awaits] using hw
      rw [if_pos hw, List.countP_cons_of_pos hw, List.replicate_succ, List.cons_append,
        List.filterMap_cons_some (by rfl : Connection.said _ = some (conn.sender, m)),
        List.filterMap_cons_none (by simp [Connection.said, hnone])]
      exact ih.cons _
    · rw [if_neg hw, List.countP_cons_of_neg hw]
      cases hsaid : conn.said with
      | none =>
        rw [List.filterMap_cons_none hsaid, List.filterMap_cons_none hsaid]
        exact ih
      | some said =>
        rw [List.filterMap_cons_some hsaid, List.filterMap_cons_some hsaid]
        exact (ih.cons said).trans List.perm_middle.symm

/-- **Every message sent has been applied or is on a connection**, and each once; a worker that has
connected has one connection without a message, another one has none. -/
structure Accounts (conns : List (Connection ω μ)) (worker : ω → WorkerPc)
    (sent applied : List (ω × μ)) : Prop where
  awaits : ∀ w, conns.countP (Connection.awaits w) = if worker w = .connected then 1 else 0
  perm : sent.Perm (applied ++ conns.filterMap Connection.said)

namespace Accounts

variable {conns : List (Connection ω μ)} {worker : ω → WorkerPc} {sent applied : List (ω × μ)}
  {w : ω} {m : μ}

/-- A worker goes on, neither to a connection nor from one. -/
theorem work {pc : WorkerPc} (h : Accounts conns worker sent applied)
    (hw : worker w ≠ .connected) (hpc : pc ≠ .connected) :
    Accounts conns (Function.update worker w pc) sent applied := by
  refine ⟨?_, h.perm⟩
  intro v
  rw [h.awaits v]
  by_cases hv : v = w
  · rw [hv, Function.update_self, if_neg hw, if_neg hpc]
  · rw [Function.update_of_ne hv]

theorem connect (h : Accounts conns worker sent applied) (hw : worker w ≠ .connected) :
    Accounts (conns ++ [⟨w, none⟩]) (Function.update worker w .connected) sent applied := by
  refine ⟨?_, ?_⟩
  · intro v
    have hawaits := h.awaits v
    rw [List.countP_append, hawaits, List.countP_singleton]
    by_cases hv : v = w
    · rw [hv, Function.update_self, if_neg hw]
      simp [Connection.awaits]
    · rw [Function.update_of_ne hv]
      simp [Connection.awaits, Ne.symm hv]
  · rw [List.filterMap_append, List.filterMap_cons_none rfl]
    simpa using h.perm

/-- The message goes on the one connection that waits for it. -/
theorem send (h : Accounts conns worker sent applied) (hw : worker w = .connected) :
    Accounts (conns.map (Connection.fill w m)) (Function.update worker w .running)
      (sent ++ [(w, m)]) applied := by
  have hone := h.awaits w
  rw [if_pos hw] at hone
  refine ⟨?_, ?_⟩
  · intro v
    rw [List.countP_map]
    have hfill : Connection.awaits v ∘ Connection.fill w m =
        fun conn => conn.awaits v && decide (v ≠ w) := by
      funext conn
      exact awaits_fill w v m conn
    rw [hfill]
    by_cases hv : v = w
    · rw [hv, Function.update_self, if_neg (by simp)]
      simp
    · rw [Function.update_of_ne hv, ← h.awaits v]
      simp [hv]
  · have hfill := perm_said_fill w m conns
    rw [hone] at hfill
    calc
      List.Perm (sent ++ [(w, m)]) ((w, m) :: sent) := List.perm_append_singleton _ _
      List.Perm _ ((w, m) :: (applied ++ conns.filterMap Connection.said)) := h.perm.cons _
      List.Perm _ (applied ++ (w, m) :: conns.filterMap Connection.said) := List.perm_middle.symm
      List.Perm _ (applied ++ (conns.map (Connection.fill w m)).filterMap Connection.said) :=
        hfill.symm.append_left applied

theorem read (h : Accounts (⟨w, some m⟩ :: conns) worker sent applied) :
    Accounts conns worker sent (applied ++ [(w, m)]) := by
  refine ⟨?_, ?_⟩
  · intro v
    rw [← h.awaits v, List.countP_cons_of_neg (by simp [Connection.awaits])]
  · have hperm := h.perm
    rw [List.filterMap_cons_some (by rfl : Connection.said _ = some (w, m))] at hperm
    rw [List.append_assoc]
    exact hperm

end Accounts

variable {s s' : State ω μ}

theorem ForkMove.accounts {e : ForkEvent ω} (h : ForkMove s e s')
    (hs : Accounts s.conns s.worker s.sent s.applied) :
    Accounts s'.conns s'.worker s'.sent s'.applied := by
  cases h with
  | chld w hexited => exact hs.work (by simp [hexited]) (by simp)
  | fork w haccepting habsent => exact hs.work (by simp [habsent]) (by simp)
  | _ => exact hs

theorem ThreadsMove.accounts {e : ThreadsEvent} (h : ThreadsMove s e s')
    (hs : Accounts s.conns s.worker s.sent s.applied) :
    Accounts s'.conns s'.worker s'.sent s'.applied := by
  cases h with
  | check pc hchecking hpc =>
    have hconns : pc.conns = [] := by rcases hpc with rfl | ⟨-, rfl⟩ <;> rfl
    rw [State.conns, hchecking] at hs
    rw [State.conns, hconns]
    exact hs
  | acceptNone haccepting =>
    rw [State.conns, haccepting] at hs
    exact hs
  | accept conn backlog haccepting hbacklog =>
    rw [State.conns, haccepting, hbacklog] at hs
    exact hs
  | read w m hreading =>
    rw [State.conns, hreading] at hs
    exact hs.read
  | _ => exact hs

theorem WorkMove.accounts {w : ω} {e : WorkEvent μ} (h : WorkMove s w e s')
    (hs : Accounts s.conns s.worker s.sent s.applied) :
    Accounts s'.conns s'.worker s'.sent s'.applied := by
  cases h with
  | term usr1 => exact hs
  | connect hpc =>
    have hconnect := hs.connect (w := w) (by simp [hpc])
    rw [State.conns, List.append_assoc] at hconnect
    exact hconnect
  | send m hpc =>
    have hfill : (s.results.fill w m).conns = s.results.conns.map (Connection.fill w m) := by
      cases s.results <;> rfl
    have hsend := hs.send (m := m) hpc
    rw [State.conns, List.map_append, ← hfill] at hsend
    exact hsend
  | signal hpc | exit hpc => exact hs.work (by simp [hpc]) (by simp)

end Accounts

/-! ## Runs -/

section Runs

variable [DecidableEq ω] {s s' : State ω μ}

/-- **The steps that lose nothing**: the results thread comes to its last check with no connection
waiting, and `SIGTERM` reaches a worker after `signal`. -/
def Drains (s : State ω μ) : Event ω μ → Prop
  | .threads .check => s.threads.done = 3 → s.backlog = []
  | .work w .term => (s.proc w).sigterm ≠ .forkmanHandler1
  | _ => True

instance (s : State ω μ) (e : Event ω μ) : Decidable (Drains s e) := by
  unfold Drains
  split <;> infer_instance

/-- What the steps keep. -/
structure Kept (s : State ω μ) : Prop where
  signalled : Signalled s.fork s.forkPc s.threads
  counts : Counts s.forkPc s.cntForks s.worker
  accounts : Accounts s.conns s.worker s.sent s.applied
  left : s.results = .left → s.forkPc = .finished ∧ s.backlog = []
  written : s.written = true → s.results = .left

theorem kept_start : Kept (start : State ω μ) where
  signalled :=
    { forkman := Or.inl ⟨rfl, Or.inl rfl⟩
      closing := by simp [start, ForkPc.closing]
      threadman := Or.inl ⟨rfl, rfl⟩
      reach := by simp [start, Process.reach, terms] }
  counts := by
    refine ⟨⟨0, Tally.zero ?_, le_refl 0⟩, fun _ _ => rfl⟩
    intro w
    simp [start, WorkerPc.unreaped]
  accounts := by
    refine ⟨?_, List.Perm.refl _⟩
    intro w
    rfl
  left := by simp [start]
  written := by simp [start]

theorem ForkMove.signalled {e : ForkEvent ω} (h : ForkMove s e s')
    (hs : Signalled s.fork s.forkPc s.threads) : Signalled s'.fork s'.forkPc s'.threads := by
  cases h with
  | term usr1 => exact hs.forkTerm
  | fork w haccepting habsent =>
    exact hs.goes (by simp [haccepting, ForkPc.closing]) rfl
  | readCnt hforked => exact hs.goes (by simp [hforked, ForkPc.closing]) rfl
  | writeCnt cnt hcounting => exact hs.goes (by simp [hcounting, ForkPc.closing]) rfl
  | killGroup haccepting hdone =>
    rw [haccepting] at hs
    exact hs.killGroup hdone
  | finish hwaiting hzero =>
    rw [hwaiting] at hs
    exact hs.finish
  | _ => exact hs

omit [DecidableEq ω] in
theorem ThreadsMove.signalled {e : ThreadsEvent} (h : ThreadsMove s e s')
    (hs : Signalled s.fork s.forkPc s.threads) : Signalled s'.fork s'.forkPc s'.threads := by
  cases h with
  | term usr1 hpending =>
    obtain ⟨hterm, hnone⟩ := hs.threadsTerm hpending
    simp only [if_neg hnone]
    exact hterm
  | requestsEnd => exact hs.killFork
  | _ => exact hs

theorem WorkMove.signalled {w : ω} {e : WorkEvent μ} (h : WorkMove s w e s')
    (hdrains : Drains s (.work w e)) (hs : Signalled s.fork s.forkPc s.threads) :
    Signalled s'.fork s'.forkPc s'.threads := by
  cases h with
  | term usr1 =>
    have hnone : (s.proc w).deliver.2 ≠ some .pidTerm := fun hsend => hdrains (deliver_snd hsend)
    simp only [if_neg hnone]
    exact hs
  | _ => exact hs

/-! ### The end of the loop -/

theorem ForkMove.kept {e : ForkEvent ω} (h : ForkMove s e s') (hs : Kept s) : Kept s' := by
  have hframe : s'.results = s.results ∧ s'.backlog = s.backlog ∧ s'.written = s.written ∧
      (s.forkPc = .finished → s'.forkPc = .finished) := by
    cases h with
    | finish hwaiting hzero => exact ⟨rfl, rfl, rfl, fun _ => rfl⟩
    | fork w hpc | readCnt hpc | writeCnt cnt hpc | killGroup hpc =>
      refine ⟨rfl, rfl, rfl, ?_⟩
      simp [hpc]
    | _ => exact ⟨rfl, rfl, rfl, id⟩
  obtain ⟨hresults, hbacklog, hwritten, hpc⟩ := hframe
  refine ⟨h.signalled hs.signalled, h.counts hs.counts, h.accounts hs.accounts, ?_, ?_⟩
  · intro hleft
    obtain ⟨hfinished, hempty⟩ := hs.left (hresults ▸ hleft)
    exact ⟨hpc hfinished, hbacklog.trans hempty⟩
  · rw [hwritten, hresults]
    exact hs.written

theorem ThreadsMove.kept {e : ThreadsEvent} (h : ThreadsMove s e s')
    (hdrains : Drains s (.threads e)) (hs : Kept s) : Kept s' := by
  have hcounts : Counts s'.forkPc s'.cntForks s'.worker := by cases h <;> exact hs.counts
  -- Before its last check the results thread has not left, and nothing is written.
  have inside : s.results ≠ .left → s'.written = s.written → s'.results ≠ .left →
      (s'.results = .left → s'.forkPc = .finished ∧ s'.backlog = []) ∧
        (s'.written = true → s'.results = .left) := by
    intro hin hwritten hin'
    refine ⟨fun hleft => absurd hleft hin', fun hw => ?_⟩
    exact absurd (hs.written (hwritten ▸ hw)) hin
  have hend : (s'.results = .left → s'.forkPc = .finished ∧ s'.backlog = []) ∧
      (s'.written = true → s'.results = .left) := by
    cases h with
    | check pc hchecking hpc =>
      obtain rfl | ⟨hdone, rfl⟩ := hpc
      · exact inside (by simp [hchecking]) rfl (by simp)
      · exact ⟨fun _ => ⟨hs.signalled.finished hdone, hdrains hdone⟩, fun _ => rfl⟩
    | shutdown hleft => exact ⟨hs.left, fun _ => hleft⟩
    | acceptNone hpc | accept conn backlog hpc | read w m hpc =>
      exact inside (by simp [hpc]) rfl (by simp)
    | _ => exact ⟨hs.left, hs.written⟩
  exact ⟨h.signalled hs.signalled, hcounts, h.accounts hs.accounts, hend.1, hend.2⟩

theorem WorkMove.kept {w : ω} {e : WorkEvent μ} (h : WorkMove s w e s')
    (hdrains : Drains s (.work w e)) (hs : Kept s) : Kept s' := by
  have hend : (s'.results = .left → s'.forkPc = .finished ∧ s'.backlog = []) ∧
      (s'.written = true → s'.results = .left) := by
    cases h with
    | connect hpc =>
      refine ⟨?_, hs.written⟩
      intro hleft
      -- A worker that connects is not reaped, so the fork manager still waits for it.
      have hunreaped := hs.counts.finished (hs.left hleft).1 w
      simp [hpc, WorkerPc.unreaped] at hunreaped
    | send m hpc =>
      have hfill : s.results.fill w m = .left ↔ s.results = .left := by
        cases s.results <;> simp [ResultsPc.fill]
      refine ⟨?_, fun hw => hfill.2 (hs.written hw)⟩
      intro hleft
      obtain ⟨hfinished, hempty⟩ := hs.left (hfill.1 hleft)
      refine ⟨hfinished, ?_⟩
      simp [State.setWorker, hempty]
    | _ => exact ⟨hs.left, hs.written⟩
  exact ⟨h.signalled hdrains hs.signalled, h.counts hs.counts, h.accounts hs.accounts, hend.1,
    hend.2⟩

/-- **One step.** -/
theorem kept_step {e : Event ω μ} (hs : Kept s) (h : system.step s e s') (hdrains : Drains s e) :
    Kept s' := by
  cases e with
  | stop =>
    change (if s.stopped then none else _) = some s' at h
    split_ifs at h
    obtain rfl := Option.some.inj h
    exact ⟨hs.signalled.killFork, hs.counts, hs.accounts, hs.left, hs.written⟩
  | fork e => exact (forkMove_of_step h).kept hs
  | threads e => exact (threadsMove_of_step h).kept hdrains hs
  | work w e => exact (workMove_of_step h).kept hdrains hs

/-- **No result is lost** when no connection waits at the last check of the results thread and
`SIGTERM` reaches every worker after `signal`: once the data file is written, the messages sent are
those applied, each as often, and there is no worker left to send another. -/
theorem sent_perm_applied (h : (system.guard Drains).Reachable s) (hwritten : s.written = true) :
    s.sent.Perm s.applied ∧ ∀ w, s.worker w = .absent ∨ s.worker w = .reaped := by
  have hs : Kept s := by
    refine h.invariant (I := Kept) ?_ ?_
    · intro s₀ h₀
      rw [show s₀ = start from h₀]
      exact kept_start
    · intro s₁ e s₂ h₁ hstep
      exact kept_step h₁ hstep.1 hstep.2
  have hleft := hs.written hwritten
  obtain ⟨hfinished, hempty⟩ := hs.left hleft
  refine ⟨?_, ?_⟩
  · have hperm := hs.accounts.perm
    rw [State.conns, hleft, hempty] at hperm
    simpa [ResultsPc.conns] using hperm
  · intro w
    have hunreaped := hs.counts.finished hfinished w
    cases hpc : s.worker w <;> simp_all [WorkerPc.unreaped]

/-! ### Three shutdowns -/

open Lts.System

/-- A worker is forked and counted. -/
def oneWorker : List (Event Bool Nat) := [.fork (.fork false), .fork .readCnt, .fork .writeCnt]

/-- `SIGTERM`, up to where the fork manager waits for its children. -/
def stopping : List (Event Bool Nat) :=
  [.stop, .fork .term, .threads .term, .threads .requestsEnd, .fork .term, .fork .killGroup,
    .threads .term, .fork .usr1]

/-- The worker sends its result and exits. -/
def lastResult : List (Event Bool Nat) :=
  [.work false .connect, .work false (.send 7), .work false .exit]

/-- The handshake to its end. -/
def ending : List (Event Bool Nat) :=
  [.fork (.chld false), .fork .finish, .threads .term, .threads .check, .threads .shutdown]

/-- The results thread comes to the connection before the third `SIGTERM`. -/
def drained : List (Event Bool Nat) :=
  oneWorker ++ [.work false .signal] ++ stopping ++ [.work false .term] ++ lastResult ++
    [.threads .check, .threads .accept, .threads .read] ++ ending

/-- It does not. -/
def overtaken : List (Event Bool Nat) :=
  oneWorker ++ [.work false .signal] ++ stopping ++ [.work false .term] ++ lastResult ++ ending

/-- The worker gets its `SIGTERM` before `signal`, and passes it on. -/
def inherited : List (Event Bool Nat) :=
  oneWorker ++ stopping ++ [.work false .term, .threads .term, .threads .check, .threads .shutdown,
    .work false .signal] ++ lastResult

/-- Where the first of these leads. -/
def drainedEnd : State Bool Nat := followed exec (fun s e => decide (Drains s e)) start drained

theorem sent_perm_applied_drained :
    drainedEnd.sent.Perm drainedEnd.applied ∧ drainedEnd.sent = [(false, 7)] := by
  have hfollow : (follow exec (fun s e => decide (Drains s e)) start drained).isSome := by
    decide +kernel
  have hrun := run_followed (S := system) (P := Drains) (fun _ _ _ h => h)
    (fun _ _ h => of_decide_eq_true h) hfollow
  have hwritten : drainedEnd.written = true := by decide +kernel
  exact ⟨(sent_perm_applied ⟨start, drained, rfl, hrun⟩ hwritten).1, by decide +kernel⟩

/-- A result that is sent and never applied: the worker has sent it and exited before the third
`SIGTERM`, or the results thread has left before the worker sends. -/
theorem sent_not_applied :
    ∃ s t : State Bool Nat, system.Reachable s ∧ s.written = true ∧ s.worker false = .reaped ∧
      s.sent = [(false, 7)] ∧ s.applied = [] ∧ system.Reachable t ∧ t.written = true ∧
      t.worker false = .exited ∧ t.sent = [(false, 7)] ∧ t.applied = [] := by
  have hclosingtaken : (follow exec (fun _ _ => true) start overtaken).isSome := by decide +kernel
  have hinherited : (follow exec (fun _ _ => true) start inherited).isSome := by decide +kernel
  have hrun := run_followed_all (S := system) (fun _ _ _ h => h) hclosingtaken
  have hrun' := run_followed_all (S := system) (fun _ _ _ h => h) hinherited
  refine ⟨_, _, ⟨start, overtaken, rfl, hrun⟩, ?_, ?_, ?_, ?_, ⟨start, inherited, rfl, hrun'⟩,
    ?_, ?_, ?_, ?_⟩
  all_goals decide +kernel

end Runs

end DiskAnalyzer.Shutdown
