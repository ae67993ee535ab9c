import DiskAnalyzer.Partition

/-!
# The suspended flag of a worker

The manager's record of an analysis says whether it is suspended; the worker has a flag of its
own, which `forkchild_handler` sets and clears. Here the workers run beside the service: a process
that can be signalled has the flag and the signals it has not received yet, which it receives in
the order they were sent.

`Agree` says that the two are the same once the signals are received. What each event does to it
is `agree_step`: exactly the events that do not meet `Meets` break it. A start is one of them when
a suspended analysis is not complete, because the worker it makes does not know; the others send
a signal to a worker that is named by the records of two analyses.
-/

namespace DiskAnalyzer

open Treap

/-! ## Workers -/

/-- `forkchild_handler`: `*suspended` after a signal. -/
def receive (suspended : Bool) : Signal → Bool
  | .tstp => true
  | .cont => false
  | .int => suspended

/-- The flag of a worker and the signals on their way to it, oldest first. -/
structure Worker where
  suspended : Bool
  pending : List Signal
  deriving DecidableEq, Repr

/-- The flag when everything that has been sent is received. -/
def Worker.received (v : Worker) : Bool := v.pending.foldl receive v.suspended

/-- A worker as the fork manager makes it. -/
def freshWorker : Worker := ⟨false, []⟩

/-- The service, and the workers by their pids. -/
structure World where
  svc : Service
  worker : Int → Option Worker

inductive WorldEvent where
  | handle (e : Event)
  | deliver (pid : Int)
  | exit (pid : Int)

/-- The pid of the worker an add starts. A fork request that fails leaves no worker. -/
def startedBy (man : ThreadsManager) : Event → Option Int
  | .add env path priority memory fd =>
    (created man (.add env path priority memory fd)).bind fun _ => env.fork
  | _ => none

/-- The workers of a manager that has just started. -/
def forkedWorkers (man : ThreadsManager) (pid : Int) : Option Worker :=
  if 0 < pid ∧ ∃ e ∈ man.analyses.inorder,
      e.2.2.status ≠ ANALYSIS_COMPLETE ∧ e.2.2.pid = pid then
    some freshWorker
  else none

namespace World

def start (w : World) : Option Int → World
  | none => w
  | some pid => { w with worker := Function.update w.worker pid (some freshWorker) }

def send (w : World) : Option (Signal × Int) → World
  | none => w
  | some (s, pid) =>
    { w with
      worker := Function.update w.worker pid
        ((w.worker pid).map fun v => { v with pending := v.pending ++ [s] }) }

/-- The workers beside the manager `man` that an event leads to. -/
def workers (w : World) (e : Event) (man : ThreadsManager) : Int → Option Worker :=
  match e with
  | .restart _ => forkedWorkers man
  | e => ((w.start (startedBy w.svc.man e)).send (signalled w.svc.man e)).worker

def next (w : World) : WorldEvent → Option World
  | .handle e => (DiskAnalyzer.handle w.svc e).map fun svc => ⟨svc, w.workers e svc.man⟩
  | .deliver pid =>
    match w.worker pid with
    | some ⟨suspended, s :: pending⟩ =>
      some { w with
        worker := Function.update w.worker pid (some ⟨receive suspended s, pending⟩) }
    | _ => none
  | .exit pid => some { w with worker := Function.update w.worker pid none }

/-- What the system and the callers promise: the pid of a new process is positive and not in use,
the manager's group is made up of the workers. Analyses are not removed. -/
def Possible (w : World) : WorldEvent → Prop
  | .handle e => WellFormed e ∧ NoRemoval e ∧
    match e with
    | .add env _ _ _ _ => ∀ pid, env.fork = some pid → 0 < pid ∧ w.worker pid = none
    | .suspend inGroup _ _ _ => inGroup = fun pid => (w.worker pid).isSome
    | .resume inGroup _ _ _ => inGroup = fun pid => (w.worker pid).isSome
    | .restart env => ∀ id a pid, env.fork id a = some pid → 0 < pid
    | _ => True
  | _ => True

end World

/-- The service and its workers, from an empty data file. -/
def signals : Lts.System World WorldEvent where
  init w := service.init w.svc ∧ w.worker = fun _ => none
  step w e w' := w.Possible e ∧ w.next e = some w'

/-! ## Agreement -/

/-- The record of an analysis that is not complete has this pid. -/
def Names (man : ThreadsManager) (id : Int) (a : Analysis) (pid : Int) : Prop :=
  treapFind man.analyses id = some a ∧ a.status ≠ ANALYSIS_COMPLETE ∧ a.pid = pid

/-- The flag of every worker says what the record says. -/
def Agree (w : World) : Prop :=
  ∀ id a v, Names w.svc.man id a a.pid → w.worker a.pid = some v →
    (v.received = true ↔ a.suspended = ANALYSIS_SUSPENDED)

/-- The id a request or a message is about. -/
def Event.about : Event → Option Int
  | .remove _ _ id _ => some id
  | .suspend _ id _ _ => some id
  | .resume _ id _ _ => some id
  | .result _ _ _ id _ _ _ => some id
  | _ => none

/-- A start finds every analysis complete or not suspended. A new worker does not get the pid in
the record of a suspended analysis, and a signal to a worker says what the records of any other
analyses with its pid say; analyses that are complete do not count. -/
def Meets (w : World) : WorldEvent → Prop
  | .handle (.restart _) =>
    ∀ id a, Names w.svc.man id a a.pid → a.suspended ≠ ANALYSIS_SUSPENDED
  | .handle e =>
    (∀ pid, startedBy w.svc.man e = some pid →
      ∀ id a, Names w.svc.man id a pid → a.suspended ≠ ANALYSIS_SUSPENDED) ∧
    ∀ s pid, signalled w.svc.man e = some (s, pid) →
      ∀ id a, e.about ≠ some id → Names w.svc.man id a pid →
        (a.suspended = ANALYSIS_SUSPENDED ↔ s = .tstp)
  | _ => True

/-- What a message leaves in a record: the pid, the flag, and the status if it was complete. -/
theorem Analysis.result_keeps (result : UInt8) (cntDirs cntFiles now : Int) (a : Analysis) :
    (a.result result cntDirs cntFiles now).pid = a.pid ∧
      (a.result result cntDirs cntFiles now).suspended = a.suspended ∧
        (a.status = ANALYSIS_COMPLETE →
          (a.result result cntDirs cntFiles now).status = ANALYSIS_COMPLETE) := by
  rw [Analysis.result]
  split_ifs
  · exact ⟨rfl, rfl, fun _ => rfl⟩
  · exact ⟨rfl, rfl, id⟩

/-- What every step keeps. -/
structure Settled (w : World) : Prop where
  lone : Lone w.svc.man
  sound : Sound w.svc.man
  noWorker : ∀ pid ≤ 0, w.worker pid = none

variable {w w' : World}

theorem received_send (v : Worker) {s : Signal} (hs : s ≠ .int) :
    Worker.received { v with pending := v.pending ++ [s] } = true ↔ s = .tstp := by
  rw [Worker.received, List.foldl_append, List.foldl_cons, List.foldl_nil]
  cases s with
  | tstp => simp [receive]
  | cont => simp [receive]
  | int => exact absurd rfl hs

/-- **A signal** to the worker of an analysis whose record is written at the same time. -/
theorem agree_signal {s : Signal} {inGroup : Int → Bool} {id : Int} {a a' : Analysis}
    (hagree : Agree w) (hnone : w.worker (-1) = none)
    (hgroup : inGroup = fun pid => (w.worker pid).isSome)
    (hstore : treapFind w'.svc.man.analyses =
      Function.update (treapFind w.svc.man.analyses) id (some a'))
    (hpid : a'.pid = a.pid) (hs : s ≠ .int)
    (hsus : a'.suspended = ANALYSIS_SUSPENDED ↔ s = .tstp)
    (hworker : w'.worker =
      (w.send (if a.Live inGroup then some (s, a.pid) else none)).worker) :
    Agree w' ↔ (a.Live inGroup → ∀ i b, i ≠ id → Names w.svc.man i b a.pid →
      (b.suspended = ANALYSIS_SUSPENDED ↔ s = .tstp)) := by
  have hother : ∀ i b pid, i ≠ id → (Names w'.svc.man i b pid ↔ Names w.svc.man i b pid) := by
    intro i b pid hi
    rw [Names, Names, hstore, Function.update_of_ne hi]
  have hself : ∀ i b pid, i = id → Names w'.svc.man i b pid → b = a' := by
    rintro i b pid rfl ⟨hb, -, -⟩
    rw [hstore, Function.update_self] at hb
    exact (Option.some.inj hb).symm
  by_cases hlive : a.Live inGroup
  · rw [if_pos hlive] at hworker
    have hsome := hlive.2
    rw [hgroup] at hsome
    obtain ⟨v, hv⟩ := Option.isSome_iff_exists.1 hsome
    have hv' : w'.worker a.pid = some { v with pending := v.pending ++ [s] } := by
      rw [hworker, World.send]
      dsimp only
      rw [Function.update_self, hv, Option.map_some]
    have hrest : ∀ pid, pid ≠ a.pid → w'.worker pid = w.worker pid := by
      intro pid hne
      rw [hworker, World.send]
      exact Function.update_of_ne hne _ _
    constructor
    · intro hagree' _ i b hi hb
      have hb' := (hother i b a.pid hi).2 hb
      rw [← received_send v hs]
      refine (hagree' i b _ ?_ ?_).symm
      · rwa [hb.2.2]
      · rw [hb.2.2, hv']
    · intro hothers i b u hb hu
      by_cases hi : i = id
      · rw [hself i b _ hi hb, hpid, hv'] at hu
        obtain rfl := Option.some.inj hu
        rw [received_send v hs, hself i b _ hi hb, hsus]
      · have hb' := (hother i b _ hi).1 hb
        by_cases hp : b.pid = a.pid
        · rw [hp, hv'] at hu
          obtain rfl := Option.some.inj hu
          rw [received_send v hs]
          exact (hothers hlive i b hi (hp ▸ hb')).symm
        · exact hagree i b u hb' (by rwa [← hrest _ hp])
  · rw [if_neg hlive] at hworker
    have hdead : w.worker a.pid = none := by
      by_cases hp : a.pid = -1
      · rw [hp, hnone]
      · rw [← Option.not_isSome_iff_eq_none]
        exact fun h => hlive ⟨hp, by rw [hgroup]; exact h⟩
    refine iff_of_true ?_ fun h => absurd h hlive
    intro i b u hb hu
    rw [hworker] at hu
    by_cases hi : i = id
    · rw [hself i b _ hi hb, hpid] at hu
      exact absurd (hdead.symm.trans hu) (by simp)
    · exact hagree i b u ((hother i b _ hi).1 hb) hu

/-- Steps after which fewer workers stand beside records that say the same. -/
theorem Agree.mono (hagree : Agree w)
    (h : ∀ id a v, Names w'.svc.man id a a.pid → w'.worker a.pid = some v →
      ∃ b u, Names w.svc.man id b b.pid ∧ w.worker b.pid = some u ∧ u.received = v.received ∧
        b.suspended = a.suspended) : Agree w' := by
  intro id a v ha hv
  obtain ⟨b, u, hb, hu, hreceived, hsus⟩ := h id a v ha hv
  rw [← hreceived, ← hsus]
  exact hagree id b u hb hu

/-- **A new worker.** -/
theorem agree_started {id pid : Int} {a : Analysis} (hagree : Agree w)
    (hnone : treapFind w.svc.man.analyses id = none)
    (hstore : treapFind w'.svc.man.analyses =
      Function.update (treapFind w.svc.man.analyses) id (some a))
    (hpid : a.pid = pid) (hsus : a.suspended = ANALYSIS_RESUMED)
    (hworker : w'.worker = Function.update w.worker pid (some freshWorker)) :
    Agree w' ↔ ∀ i b, Names w.svc.man i b pid → b.suspended ≠ ANALYSIS_SUSPENDED := by
  have hold : ∀ i b p, Names w.svc.man i b p → i ≠ id := by
    rintro i b p ⟨hb, -, -⟩ rfl
    exact absurd (hnone.symm.trans hb) (by simp)
  have hother : ∀ i b p, i ≠ id → (Names w'.svc.man i b p ↔ Names w.svc.man i b p) := by
    intro i b p hi
    rw [Names, Names, hstore, Function.update_of_ne hi]
  have hnew : freshWorker.received = false := rfl
  constructor
  · intro hagree' i b hb hbs
    have hb' := (hother i b pid (hold i b pid hb)).2 hb
    have hflag := (hagree' i b freshWorker (by rwa [hb.2.2]) ?_).2 hbs
    · exact absurd (hnew.symm.trans hflag) (by decide)
    · rw [hworker, hb.2.2, Function.update_self]
  · intro hothers i b v hb hv
    rw [hworker] at hv
    by_cases hi : i = id
    · obtain ⟨hfind, -, -⟩ := hb
      rw [hi, hstore, Function.update_self] at hfind
      obtain rfl := Option.some.inj hfind
      rw [hpid, Function.update_self] at hv
      obtain rfl := Option.some.inj hv
      rw [hnew, hsus]
      decide
    · have hb' := (hother i b _ hi).1 hb
      by_cases hp : b.pid = pid
      · rw [hp, Function.update_self] at hv
        obtain rfl := Option.some.inj hv
        rw [hnew]
        exact iff_of_false (by decide) (hothers i b (hp ▸ hb'))
      · rw [Function.update_of_ne hp] at hv
        exact hagree i b v hb' hv

/-- **A start.** -/
theorem agree_restarted {env : StartEnv} (hsound : Sound w.svc.man)
    (hrebuilt : Rebuilt env w.svc.man w'.svc.man)
    (hpos : ∀ id a pid, env.fork id a = some pid → 0 < pid)
    (hworker : w'.worker = forkedWorkers w'.svc.man) :
    Agree w' ↔ ∀ id a, Names w.svc.man id a a.pid → a.suspended ≠ ANALYSIS_SUSPENDED := by
  have hnew : freshWorker.received = false := rfl
  constructor
  · rintro hagree' id a ⟨ha, hstatus, -⟩ hsus
    obtain ⟨b, c, hread, hforked, hc⟩ := hrebuilt.records id a ha
    have hsame := sameRecord_forked hforked
    obtain ⟨hbstatus, hbsus⟩ := hread.flags (hsound.records id a ha).toCoded
    have hcstatus : c.status ≠ ANALYSIS_COMPLETE := by rwa [hsame.status, hbstatus]
    have hcpid : 0 < c.pid := by
      rw [forked, if_pos (by rwa [hbstatus])] at hforked
      obtain ⟨pid, hpid, rfl⟩ := Option.map_eq_some_iff.1 hforked
      exact hpos id b pid hpid
    have hw : w'.worker c.pid = some freshWorker := by
      obtain ⟨k, hm⟩ := mem_of_find hc
      rw [hworker]
      exact if_pos ⟨hcpid, _, hm, hcstatus, rfl⟩
    have hcsus : c.suspended = ANALYSIS_SUSPENDED := by rw [hsame.suspended, hbsus, hsus]
    have hflag := (hagree' id c freshWorker ⟨hc, hcstatus, rfl⟩ hw).2 hcsus
    exact absurd (hnew.symm.trans hflag) (by decide)
  · rintro hothers id c v ⟨hc, hstatus, -⟩ hv
    obtain ⟨a, b, ha, hread, hforked⟩ := hrebuilt.find_some hsound.inStep.store hc
    have hsame := sameRecord_forked hforked
    obtain ⟨hbstatus, hbsus⟩ := hread.flags (hsound.records id a ha).toCoded
    rw [hworker, forkedWorkers] at hv
    split_ifs at hv
    obtain rfl := Option.some.inj hv
    rw [hnew, hsame.suspended, hbsus]
    exact iff_of_false (by decide) (hothers id a ⟨ha, by rwa [← hbstatus, ← hsame.status], rfl⟩)

/-! ## Steps -/

theorem noWorker_update {worker : Int → Option Worker} (h : ∀ pid ≤ 0, worker pid = none)
    {pid : Int} {v : Option Worker} (hv : pid ≤ 0 → v = none) :
    ∀ p ≤ 0, Function.update worker pid v p = none := by
  intro p hp
  by_cases heq : p = pid
  · rw [heq, Function.update_self]
    exact hv (heq ▸ hp)
  · rw [Function.update_of_ne heq]
    exact h p hp

theorem noWorker_send (h : ∀ pid ≤ 0, w.worker pid = none) (o : Option (Signal × Int)) :
    ∀ pid ≤ 0, (w.send o).worker pid = none := by
  match o with
  | none => exact h
  | some (s, pid) =>
    refine noWorker_update h fun hpid => ?_
    rw [h pid hpid, Option.map_none]

theorem workers_of_ne {e : Event} (he : ∀ env, e ≠ .restart env) (man : ThreadsManager) :
    w.workers e man = ((w.start (startedBy w.svc.man e)).send (signalled w.svc.man e)).worker := by
  cases e with
  | restart env => exact absurd rfl (he env)
  | _ => rfl

theorem meets_of_ne {e : Event} (he : ∀ env, e ≠ .restart env) :
    Meets w (.handle e) ↔
      (∀ pid, startedBy w.svc.man e = some pid →
        ∀ id a, Names w.svc.man id a pid → a.suspended ≠ ANALYSIS_SUSPENDED) ∧
      ∀ s pid, signalled w.svc.man e = some (s, pid) →
        ∀ id a, e.about ≠ some id → Names w.svc.man id a pid →
          (a.suspended = ANALYSIS_SUSPENDED ↔ s = .tstp) := by
  cases e with
  | restart env => exact absurd rfl (he env)
  | _ => exact Iff.rfl

/-- An event that starts no worker and sends no signal. -/
theorem meets_of_quiet {e : Event} (he : ∀ env, e ≠ .restart env)
    (hstart : startedBy w.svc.man e = none) (hsig : signalled w.svc.man e = none) :
    Meets w (.handle e) := by
  rw [meets_of_ne he, hstart, hsig]
  exact ⟨fun _ h => absurd h (by simp), fun _ _ h => absurd h (by simp)⟩

theorem workers_of_quiet {e : Event} (he : ∀ env, e ≠ .restart env)
    (hstart : startedBy w.svc.man e = none) (hsig : signalled w.svc.man e = none)
    (man : ThreadsManager) : w.workers e man = w.worker := by
  rw [workers_of_ne he, hstart, hsig]
  rfl

/-- **An accepted suspend or resume request.** -/
theorem agree_signalled {e : Event} {svc : Service} {s : Signal} {inGroup : Int → Bool} {id : Int}
    {a a' : Analysis} (hset : Settled w) (hagree : Agree w) (he : ∀ env, e ≠ .restart env)
    (hstart : startedBy w.svc.man e = none) (habout : e.about = some id)
    (hgroup : inGroup = fun pid => (w.worker pid).isSome)
    (hsig : signalled w.svc.man e = if a.Live inGroup then some (s, a.pid) else none)
    (hstore : treapFind svc.man.analyses =
      Function.update (treapFind w.svc.man.analyses) id (some a'))
    (hpid : a'.pid = a.pid) (hs : s ≠ .int)
    (hsus : a'.suspended = ANALYSIS_SUSPENDED ↔ s = .tstp) :
    (∀ pid ≤ 0, w.workers e svc.man pid = none) ∧
      (Agree ⟨svc, w.workers e svc.man⟩ ↔ Meets w (.handle e)) := by
  have hworkers : w.workers e svc.man =
      (w.send (if a.Live inGroup then some (s, a.pid) else none)).worker := by
    rw [workers_of_ne he, hstart, hsig]
    rfl
  have hkey : Agree ⟨svc, w.workers e svc.man⟩ ↔
      (a.Live inGroup → ∀ i b, i ≠ id → Names w.svc.man i b a.pid →
        (b.suspended = ANALYSIS_SUSPENDED ↔ s = .tstp)) :=
    agree_signal hagree (hset.noWorker (-1) (by decide)) hgroup hstore hpid hs hsus hworkers
  rw [hkey, meets_of_ne he, hstart, hsig, habout]
  refine ⟨?_, ?_⟩
  · rw [hworkers]
    exact noWorker_send hset.noWorker _
  constructor
  · intro hothers
    refine ⟨fun p hp => absurd hp (by simp), fun s' p hp i b hi hb => ?_⟩
    split_ifs at hp with hlive
    obtain ⟨rfl, rfl⟩ := Prod.mk.inj (Option.some.inj hp)
    exact hothers hlive i b (fun heq => hi (congrArg some heq.symm)) hb
  · intro hmeets hlive i b hi hb
    exact hmeets.2 s a.pid (if_pos hlive) i b (fun heq => hi (Option.some.inj heq).symm) hb

/-- An add that stores its analysis starts a worker. -/
theorem agree_added {e : Event} {svc : Service} {id pid : Int} {a : Analysis} (hset : Settled w)
    (hagree : Agree w) (he : ∀ env, e ≠ .restart env) (hstart : startedBy w.svc.man e = some pid)
    (hsig : signalled w.svc.man e = none) (hpos : 0 < pid)
    (hfree : treapFind w.svc.man.analyses id = none)
    (hstore : treapFind svc.man.analyses =
      Function.update (treapFind w.svc.man.analyses) id (some a))
    (hpid : a.pid = pid) (hsus : a.suspended = ANALYSIS_RESUMED) :
    (∀ pid ≤ 0, w.workers e svc.man pid = none) ∧
      (Agree ⟨svc, w.workers e svc.man⟩ ↔ Meets w (.handle e)) := by
  have hworkers : w.workers e svc.man = Function.update w.worker pid (some freshWorker) := by
    rw [workers_of_ne he, hstart, hsig]
    rfl
  have hkey : Agree ⟨svc, w.workers e svc.man⟩ ↔
      ∀ i b, Names w.svc.man i b pid → b.suspended ≠ ANALYSIS_SUSPENDED :=
    agree_started hagree hfree hstore hpid hsus hworkers
  refine ⟨?_, ?_⟩
  · rw [hworkers]
    exact noWorker_update hset.noWorker fun hle => by omega
  rw [hkey, meets_of_ne he, hstart, hsig]
  constructor
  · intro hothers
    refine ⟨fun p hp => ?_, fun s p hp => absurd hp (by simp)⟩
    obtain rfl := Option.some.inj hp
    exact hothers
  · exact fun hmeets => hmeets.1 pid rfl

/-- A result message that removes nothing changes no flag and signals no worker. -/
theorem agree_resulted {e : Event} {svc : Service} {id : Int} {a : Analysis} (result : UInt8)
    (cntDirs cntFiles now : Int) (hset : Settled w) (hagree : Agree w)
    (he : ∀ env, e ≠ .restart env) (hstart : startedBy w.svc.man e = none)
    (hsig : signalled w.svc.man e = none) (ha : treapFind w.svc.man.analyses id = some a)
    (hstore : treapFind svc.man.analyses = Function.update (treapFind w.svc.man.analyses) id
      (some (a.result result cntDirs cntFiles now))) :
    (∀ pid ≤ 0, w.workers e svc.man pid = none) ∧
      (Agree ⟨svc, w.workers e svc.man⟩ ↔ Meets w (.handle e)) := by
  rw [workers_of_quiet he hstart hsig]
  refine ⟨hset.noWorker, iff_of_true ?_ (meets_of_quiet he hstart hsig)⟩
  refine hagree.mono fun i b v hb hv => ?_
  obtain ⟨hfind, hstatus, -⟩ := hb
  dsimp only at hfind
  rw [hstore, Function.update_apply] at hfind
  split_ifs at hfind with hi
  · obtain rfl := Option.some.inj hfind
    obtain ⟨hpid, hsus, hdone⟩ := Analysis.result_keeps result cntDirs cntFiles now a
    rw [hpid] at hv
    exact ⟨a, v, ⟨hi ▸ ha, fun h => hstatus (hdone h), rfl⟩, hv, rfl, hsus.symm⟩
  · exact ⟨b, v, ⟨hfind, hstatus, rfl⟩, hv, rfl, rfl⟩

/-- **An event of the service**, and what it does to the flags. -/
theorem agree_handle {e : Event} {svc : Service} (hset : Settled w) (hagree : Agree w)
    (hwf : w.Possible (.handle e)) (h : handle w.svc e = some svc) :
    Settled ⟨svc, w.workers e svc.man⟩ ∧
      (Agree ⟨svc, w.workers e svc.man⟩ ↔ Meets w (.handle e)) := by
  obtain ⟨hwell, hno, hposs⟩ := hwf
  obtain ⟨hlone, hsound⟩ := lone_handle hset.lone hset.sound hwell hno h
  suffices hkey : (∀ pid ≤ 0, w.workers e svc.man pid = none) ∧
      (Agree ⟨svc, w.workers e svc.man⟩ ↔ Meets w (.handle e)) from
    ⟨⟨hlone, hsound, hkey.1⟩, hkey.2⟩
  have hfresh : GetsFreshId w.svc.man e := by
    cases e with
    | add env path priority memory fd => exact hset.lone.freshId env _ fd
    | _ => trivial
  have hmove := storeMove_of_handle hset.sound hfresh hwell h
  generalize hman : svc.man = man' at hmove
  cases hmove with
  | kept hstore hrest hcreated hsig =>
    subst hman
    have hstart : startedBy w.svc.man e = none := by
      cases e with
      | add => rw [startedBy, hcreated, Option.bind_none]
      | _ => rfl
    rw [workers_of_quiet hrest hstart hsig]
    refine ⟨hset.noWorker, iff_of_true ?_ (meets_of_quiet hrest hstart hsig)⟩
    refine hagree.mono fun id a v ha hv => ⟨a, v, ?_, hv, rfl, rfl⟩
    rwa [Names, ← hstore]
  | @added env path priority memory fd id pid _ hcreated _ hfork hfree hstore =>
    subst hman
    have hne : ∀ env', Event.add env path priority memory fd ≠ .restart env' := fun _ => by simp
    have hstart : startedBy w.svc.man (.add env path priority memory fd) = some pid := by
      rw [startedBy, hcreated, Option.bind_some, hfork]
    exact agree_added hset hagree hne hstart rfl (hposs pid hfork).1 hfree hstore rfl rfl
  | removed => exact hno.elim
  | failed => exact absurd rfl hno
  | suspended _ _ _ hsig hstore =>
    subst hman
    exact agree_signalled hset hagree (fun _ => by simp) rfl rfl hposs hsig hstore rfl (by decide)
      (iff_of_true rfl rfl)
  | resumed _ _ hsig hstore =>
    subst hman
    exact agree_signalled hset hagree (fun _ => by simp) rfl rfl hposs hsig hstore rfl (by decide)
      (iff_of_false (show ANALYSIS_RESUMED ≠ ANALYSIS_SUSPENDED by decide) (by decide))
  | @resulted dirPath inGroup result id cntDirs cntFiles now a _ hfailed ha hstore =>
    subst hman
    have hne : ∀ env, Event.result dirPath inGroup result id cntDirs cntFiles now ≠ .restart env :=
      fun _ => by simp
    have hsig : signalled w.svc.man (.result dirPath inGroup result id cntDirs cntFiles now) =
        none := by
      rw [signalled, if_neg hfailed]
    exact agree_resulted result cntDirs cntFiles now hset hagree hne rfl hsig ha hstore
  | @restarted env _ hrebuilt =>
    subst hman
    refine ⟨fun pid hpid => if_neg fun h => by omega, ?_⟩
    exact agree_restarted hset.sound hrebuilt hposs rfl

/-- **One step.** -/
theorem agree_step {e : WorldEvent} (hset : Settled w) (hagree : Agree w)
    (h : signals.step w e w') : Settled w' ∧ (Agree w' ↔ Meets w e) := by
  obtain ⟨hposs, hnext⟩ := h
  cases e with
  | handle e =>
    obtain ⟨svc, hsvc, rfl⟩ := Option.map_eq_some_iff.1 hnext
    exact agree_handle hset hagree hposs hsvc
  | deliver pid =>
    rw [World.next] at hnext
    split at hnext
    · next suspended s pending hv =>
      obtain rfl := Option.some.inj hnext
      refine ⟨⟨hset.lone, hset.sound, noWorker_update hset.noWorker fun hle => ?_⟩,
        iff_of_true ?_ trivial⟩
      · exact absurd ((hset.noWorker pid hle).symm.trans hv) (by simp)
      refine hagree.mono fun id a v ha hu => ?_
      dsimp only at hu
      by_cases hp : a.pid = pid
      · rw [hp, Function.update_self] at hu
        obtain rfl := Option.some.inj hu
        exact ⟨a, ⟨suspended, s :: pending⟩, ha, hp ▸ hv, rfl, rfl⟩
      · rw [Function.update_of_ne hp] at hu
        exact ⟨a, v, ha, hu, rfl, rfl⟩
    · exact absurd hnext (by simp)
  | exit pid =>
    obtain rfl := Option.some.inj hnext
    refine ⟨⟨hset.lone, hset.sound, noWorker_update hset.noWorker fun _ => rfl⟩,
      iff_of_true ?_ trivial⟩
    refine hagree.mono fun id a v ha hu => ?_
    dsimp only at hu
    by_cases hp : a.pid = pid
    · rw [hp, Function.update_self] at hu
      exact absurd hu (by simp)
    · rw [Function.update_of_ne hp] at hu
      exact ⟨a, v, ha, hu, rfl, rfl⟩

/-- **The flags agree** in every state that steps meeting `Meets` lead to, and the first step that
does not meet it breaks their agreement. -/
theorem flags_agree (h : (signals.guard Meets).Reachable w) :
    Agree w ∧ ∀ e w', signals.step w e w' → (Agree w' ↔ Meets w e) := by
  have hinv : Settled w ∧ Agree w := by
    refine h.invariant (I := fun w => Settled w ∧ Agree w) ?_ ?_
    · rintro w ⟨⟨-, env, henv⟩, hworker⟩
      refine ⟨⟨lone_startup henv, (sound_startup henv).1, fun pid _ => by rw [hworker]⟩, ?_⟩
      intro id a v _ hv
      rw [hworker] at hv
      exact absurd hv (by simp)
    · rintro w e w' ⟨hset, hagree⟩ ⟨hstep, hmeets⟩
      obtain ⟨hset', hiff⟩ := agree_step hset hagree hstep
      exact ⟨hset', hiff.2 hmeets⟩
  exact ⟨hinv.2, fun e w' hstep => (agree_step hinv.1 hinv.2 hstep).2⟩

/-! ## Two runs -/

def World.after (w : World) (e : WorldEvent) : World := (w.next e).getD w

theorem next_after {e : WorldEvent} (h : (w.next e).isSome = true) :
    w.next e = some (w.after e) := by
  obtain ⟨w', hw'⟩ := Option.isSome_iff_exists.1 h
  rw [World.after, hw', Option.getD_some]

/-- An analysis of `/a` with a worker, which is suspended and receives its signal. -/
def World.added : World := World.after ⟨emptyService, fun _ => none⟩ (.handle (addEvent "/a" 10 0))

def World.stopped : World :=
  World.added.after (.handle (.suspend (fun pid => (World.added.worker pid).isSome) 1 5 0))

def World.waiting : World := World.stopped.after (.deliver 10)

/-- One analysis is stored, and its worker has the pid of its record. -/
theorem step_added : signals.step ⟨emptyService, fun _ => none⟩ (.handle (addEvent "/a" 10 0))
    World.added := by
  refine ⟨⟨⟨?_, ?_⟩, trivial, fun pid hpid => ⟨?_, rfl⟩⟩, next_after rfl⟩
  · decide +kernel
  · decide
  · obtain rfl := Option.some.inj hpid
    decide

theorem step_stopped : signals.step World.added
    (.handle (.suspend (fun pid => (World.added.worker pid).isSome) 1 5 0)) World.stopped :=
  ⟨⟨trivial, trivial, rfl⟩, next_after rfl⟩

theorem flags_agree_waiting : Agree World.waiting := by
  refine (flags_agree ⟨_, [.handle (addEvent "/a" 10 0),
    .handle (.suspend (fun pid => (World.added.worker pid).isSome) 1 5 0), .deliver 10],
    ⟨init_emptyService, rfl⟩, .cons ⟨step_added, ?_, ?_⟩ (.cons ⟨step_stopped, ?_, ?_⟩
      (.cons ⟨⟨trivial, next_after ?_⟩, trivial⟩ (.nil _)))⟩).1
  · exact fun _ _ id a ha => absurd ha.1 (by simp [emptyService, treapFind])
  · exact fun _ _ h => absurd h (by simp [signalled, addEvent])
  · exact fun _ h => absurd h (by simp [startedBy])
  · intro s pid _ id a hid ha
    have hone : ∀ x ∈ World.added.svc.man.analyses.ids, x = 1 := by decide +kernel
    obtain ⟨k, hm⟩ := mem_of_find ha.1
    exact absurd (congrArg some (hone id (mem_ids_of_mem hm)).symm) hid
  · decide +kernel

/-- The analysis is suspended when the manager stops, and its new worker runs. -/
theorem flags_disagree : ∃ w, signals.Reachable w ∧ ∃ a, treapFind w.svc.man.analyses 1 = some a ∧
    a.status ≠ ANALYSIS_COMPLETE ∧ a.suspended = ANALYSIS_SUSPENDED ∧
      w.worker a.pid = some ⟨false, []⟩ := by
  refine ⟨World.waiting.after (.handle (.restart quietStart)), ⟨_, [.handle (addEvent "/a" 10 0),
    .handle (.suspend (fun pid => (World.added.worker pid).isSome) 1 5 0), .deliver 10,
    .handle (.restart quietStart)], ⟨init_emptyService, rfl⟩, .cons step_added
      (.cons step_stopped (.cons ⟨trivial, next_after ?_⟩
        (.cons ⟨⟨quietStart_succeeds, trivial, ?_⟩, next_after ?_⟩ (.nil _))))⟩,
    ⟨0, 0, 0, 0, str "/a", 2, ANALYSIS_INPROGRESS, ANALYSIS_SUSPENDED, 1⟩, ?_, ?_, rfl, ?_⟩
  · decide +kernel
  · rintro id a pid hpid
    obtain rfl := Option.some.inj hpid
    decide
  · decide +kernel
  · decide +kernel
  · decide
  · decide +kernel

end DiskAnalyzer
