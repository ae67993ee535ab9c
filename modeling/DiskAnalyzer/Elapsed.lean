import DiskAnalyzer.Partition

/-!
# The elapsed time of an analysis

`analysis_list` shows `total_time`, plus the time since `last_start` while an analysis runs. A
stopwatch runs beside the manager here: it measures how long each analysis has been running, that
is, stored in a manager that is up, neither suspended nor complete.

The listed time is the measured one (`listedTime_eq_ran`) as long as every suspension and
resumption finds the worker alive, a completion finds the analysis running, and a shutdown finds
none running. `Exact` is what the two fields then say; `last_start` is the `int` of a clock that
need not fit one, so it speaks of the time modulo `2 ^ 32`.
-/

namespace DiskAnalyzer

open Treap Decimal

namespace Analysis

/-- Neither complete nor suspended. -/
def Running (anal : Analysis) : Prop :=
  anal.status ≠ ANALYSIS_COMPLETE ∧ anal.suspended ≠ ANALYSIS_SUSPENDED

instance (anal : Analysis) : Decidable anal.Running := inferInstanceAs (Decidable (_ ∧ _))

end Analysis

/-! ## The stopwatch -/

/-- The service, the last reading of the clock, how long the analysis of each id has been running,
and when it was created. -/
structure Timed where
  svc : Service
  clock : Int
  ran : Int → Int
  born : Int → Int

inductive TimedEvent where
  /-- A list request, or any other that changes nothing. -/
  | look (now : Int)
  | handle (e : Event) (now : Int)
  /-- The manager stops at `down` and starts again; the worker of `id` is back at `up id`. -/
  | restart (env : StartEnv) (down : Int) (up : Int → Int) (now : Int)

/-- `d` for an analysis that is running, 0 otherwise. -/
def spent (man : ThreadsManager) (id d : Int) : Int :=
  if (treapFind man.analyses id).any fun a => decide a.Running then d else 0

namespace Timed

/-- Time passes. -/
def pass (t : Timed) (now : Int) : Timed :=
  { t with
    clock := now
    ran := fun id => t.ran id + spent t.svc.man id (now - t.clock) }

/-- The stopwatch of a new analysis starts. -/
def create (t : Timed) : Option Int → Timed
  | none => t
  | some id =>
    { t with ran := Function.update t.ran id 0, born := Function.update t.born id t.clock }

def next (t : Timed) : TimedEvent → Option Timed
  | .look now => some (t.pass now)
  | .handle e now =>
    (DiskAnalyzer.handle t.svc e).map fun svc =>
      { (t.pass now).create (created t.svc.man e) with svc }
  | .restart env down up now =>
    (DiskAnalyzer.handle t.svc (.restart env)).map fun svc =>
      { t with
        svc
        clock := now
        ran := fun id =>
          t.ran id + spent t.svc.man id (down - t.clock) + spent svc.man id (now - up id) }

end Timed

/-- The event happens at this reading of the clock. Analyses are not removed. -/
def Event.At (now : Int) : Event → Prop
  | .add env _ _ _ _ => env.now = wrap32 now
  | .suspend _ _ _ n => n = now
  | .resume _ _ _ n => n = now
  | .result _ _ r _ _ _ n => r ≠ 48 ∧ n = now
  | .remove .. => False
  | .restart _ => False

/-- The readings of the clock do not decrease. -/
def InOrder (t : Timed) : TimedEvent → Prop
  | .look now => t.clock ≤ now
  | .handle e now => t.clock ≤ now ∧ e.At now
  | .restart env down up now =>
    t.clock ≤ down ∧ ∀ id, down ≤ up id ∧ up id ≤ now ∧ env.now id = wrap32 (up id)

/-- Events in the order of the clock, from an empty data file. -/
def timed : Lts.System Timed TimedEvent where
  init t := service.init t.svc
  step t e t' := InOrder t e ∧ t.next e = some t'

/-- What the callers and the system promise. -/
def TimedEvent.WellFormed : TimedEvent → Prop
  | .look _ => True
  | .handle e _ => DiskAnalyzer.WellFormed e
  | .restart env _ _ _ => env.Succeeds

/-- The event neither loses time nor counts time twice: suspend and resume requests that are
accepted find the worker alive, unless the analysis is complete, the last message of a worker
finds the analysis running, and a shutdown finds none running. -/
def Counts (t : Timed) : TimedEvent → Prop
  | .handle (.suspend inGroup id _ _) _ =>
    ∀ a, treapFind t.svc.man.analyses id = some a → a.Running → a.Live inGroup
  | .handle (.resume inGroup id _ _) _ =>
    ∀ a, treapFind t.svc.man.analyses id = some a → a.suspended = ANALYSIS_SUSPENDED →
      a.status ≠ ANALYSIS_COMPLETE → a.Live inGroup
  | .handle (.result _ _ result id _ _ _) _ =>
    result = 49 → ∀ a, treapFind t.svc.man.analyses id = some a → a.Running
  | .restart _ _ _ _ => ∀ id a, treapFind t.svc.man.analyses id = some a → ¬ a.Running
  | _ => True

/-! ## What the two fields say -/

/-- The fields of the record say that it has been running for `ran`. -/
def Exact (ran now : Int) (a : Analysis) : Prop :=
  (2 : Int) ^ 32 ∣ a.totalTime + (if a.Running then now - a.lastStart else 0) - ran

namespace Exact

variable {ran now : Int} {a : Analysis}

theorem listedTime_eq (h : Exact ran now a) (hran : FitsInt ran) : listedTime now a = ran :=
  wrap32_eq_of_dvd hran h

theorem pass (h : Exact ran now a) (d : Int) :
    Exact (ran + if a.Running then d else 0) (now + d) a := by
  unfold Exact at h ⊢
  split_ifs at h ⊢ <;> omega

theorem new (path : Bytes) (priority : Int) (memory : Int × Int) (pid now : Int) :
    Exact 0 now { newAnalysis path priority memory with
      lastStart := wrap32 now, pid, status := ANALYSIS_INPROGRESS } := by
  have hnow := dvd_wrap32_sub now
  have hrunning : Analysis.Running { newAnalysis path priority memory with
      lastStart := wrap32 now, pid, status := ANALYSIS_INPROGRESS } := by
    constructor
    · exact (by decide : ANALYSIS_INPROGRESS ≠ ANALYSIS_COMPLETE)
    · exact (by decide : ANALYSIS_RESUMED ≠ ANALYSIS_SUSPENDED)
  unfold Exact
  rw [if_pos hrunning]
  dsimp only [newAnalysis]
  omega

theorem suspend {inGroup : Int → Bool} (h : Exact ran now a) (hrun : a.Running)
    (hlive : a.Live inGroup) : Exact ran now (a.suspend inGroup now) := by
  have hnot : ¬ (a.suspend inGroup now).Running := fun hr => hr.2 rfl
  have htotal := dvd_wrap32_sub (a.totalTime + (now - a.lastStart))
  unfold Exact at h ⊢
  rw [if_pos hrun] at h
  rw [if_neg hnot]
  simp only [Analysis.suspend, if_pos hlive]
  omega

theorem resume {inGroup : Int → Bool} (h : Exact ran now a)
    (hsus : a.suspended = ANALYSIS_SUSPENDED)
    (hlive : a.status ≠ ANALYSIS_COMPLETE → a.Live inGroup) :
    Exact ran now (a.resume inGroup now) := by
  have hnot : ¬ a.Running := fun hr => hr.2 hsus
  have hnow := dvd_wrap32_sub now
  unfold Exact at h ⊢
  rw [if_neg hnot] at h
  split_ifs with hrun
  · simp only [Analysis.resume, if_pos (hlive hrun.1)]
    omega
  · exact h

theorem result {result : UInt8} (h : Exact ran now a) (hrun : result = 49 → a.Running)
    (cntDirs cntFiles : Int) : Exact ran now (a.result result cntDirs cntFiles now) := by
  unfold Analysis.result
  split_ifs with hlast
  · have htotal := dvd_wrap32_sub (a.totalTime + (now - a.lastStart))
    unfold Exact at h ⊢
    rw [if_pos (hrun hlast)] at h
    rw [if_neg fun hr => hr.1 rfl]
    dsimp only
    omega
  · exact h

/-- The time of a record that is not running, if it fits an `int`, survives a restart. -/
theorem reread {b : Analysis} (h : Exact ran now a) (hok : RecordOk a) (hran : 0 ≤ ran)
    (hfits : FitsInt ran) (hnot : ¬ a.Running) (hread : Reread a b) : b.totalTime = ran := by
  unfold Exact at h
  rw [if_neg hnot] at h
  have htotal : a.totalTime = ran := by
    obtain ⟨hlow, hhigh⟩ := hok.totalTime
    obtain ⟨hlow', hhigh'⟩ := hfits
    omega
  rw [hread.totalTime, htotal]
  exact atoi_writeInt hfits hran

end Exact

/-- What is known of the time of a record: `ran` of it have been measured since `born`. -/
structure Measured (ran now born : Int) (a : Analysis) : Prop where
  nonneg : 0 ≤ ran
  since : ran ≤ now - born
  exact : FitsInt ran → Exact ran now a

/-- The stopwatch of every stored analysis agrees with its record. -/
structure Clocked (t : Timed) : Prop where
  lone : Lone t.svc.man
  sound : Sound t.svc.man
  records : ∀ id a, treapFind t.svc.man.analyses id = some a →
    Measured (t.ran id) t.clock (t.born id) a

/-- Stored analyses are kept, and their stopwatches do not go back. -/
def Later (t t' : Timed) : Prop :=
  ∀ id a, treapFind t.svc.man.analyses id = some a →
    ∃ a', treapFind t'.svc.man.analyses id = some a' ∧ t.ran id ≤ t'.ran id ∧
      t'.born id = t.born id

theorem Later.refl (t : Timed) : Later t t := fun _ a ha => ⟨a, ha, le_refl _, rfl⟩

theorem Later.trans {t t' t'' : Timed} (h : Later t t') (h' : Later t' t'') : Later t t'' := by
  intro id a ha
  obtain ⟨a', ha', hran, hborn⟩ := h id a ha
  obtain ⟨a'', ha'', hran', hborn'⟩ := h' id a' ha'
  exact ⟨a'', ha'', hran.trans hran', hborn'.trans hborn⟩

theorem spent_of_find {man : ThreadsManager} {id : Int} {a : Analysis}
    (h : treapFind man.analyses id = some a) (d : Int) :
    spent man id d = if a.Running then d else 0 := by
  rw [spent, h, Option.any_some]
  simp only [decide_eq_true_eq]

theorem spent_nonneg (man : ThreadsManager) (id : Int) {d : Int} (hd : 0 ≤ d) :
    0 ≤ spent man id d := by
  unfold spent
  split_ifs
  · exact hd
  · exact le_refl 0

/-! ## Steps -/

variable {t t' : Timed} {now : Int}

theorem Measured.pass {ran born clock : Int} {a : Analysis} (h : Measured ran clock born a)
    (hnow : clock ≤ now) :
    Measured (ran + if a.Running then now - clock else 0) now born a := by
  have hnonneg := h.nonneg
  have hsince := h.since
  have hspent : 0 ≤ (if a.Running then now - clock else 0) ∧
      (if a.Running then now - clock else 0) ≤ now - clock := by
    split_ifs <;> omega
  refine ⟨by omega, by omega, fun hfits => ?_⟩
  have hexact := (h.exact ⟨by omega, by have := hfits.2; omega⟩).pass (now - clock)
  rwa [add_sub_cancel] at hexact

/-- **Time passes.** -/
theorem clocked_pass (hc : Clocked t) (hnow : t.clock ≤ now) :
    Clocked (t.pass now) ∧ Later t (t.pass now) := by
  refine ⟨⟨hc.lone, hc.sound, ?_⟩, ?_⟩
  · intro id a ha
    have hpass := (hc.records id a ha).pass hnow
    rwa [← spent_of_find ha] at hpass
  · intro id a ha
    exact ⟨a, ha, le_add_of_nonneg_right (spent_nonneg _ _ (by omega)), rfl⟩

/-- A write to one record, when no time passes. -/
theorem measured_update {b : Analysis} {id : Int} {store : Int → Option Analysis}
    (hrec : ∀ i a, treapFind t.svc.man.analyses i = some a →
      Measured (t.ran i) t.clock (t.born i) a)
    (hstore : store = Function.update (treapFind t.svc.man.analyses) id (some b))
    (hb : Measured (t.ran id) t.clock (t.born id) b) :
    ∀ i a, store i = some a → Measured (t.ran i) t.clock (t.born i) a := by
  refine forall_update hrec hstore ?_
  rintro a ⟨⟩
  exact hb

theorem later_update {svc : Service} {b : Analysis} {id : Int}
    (hstore : treapFind svc.man.analyses =
      Function.update (treapFind t.svc.man.analyses) id (some b)) : Later t { t with svc } := by
  intro i a ha
  by_cases hi : i = id
  · refine ⟨b, ?_, le_refl _, rfl⟩
    rw [hi]
    exact (congrFun hstore id).trans (Function.update_self _ _ _)
  · refine ⟨a, ?_, le_refl _, rfl⟩
    rw [← ha]
    exact (congrFun hstore i).trans (Function.update_of_ne hi _ _)

/-- A new record, whose stopwatch starts. -/
theorem measured_create {b : Analysis} {id : Int} {store : Int → Option Analysis}
    (hrec : ∀ i a, treapFind t.svc.man.analyses i = some a →
      Measured (t.ran i) t.clock (t.born i) a)
    (hstore : store = Function.update (treapFind t.svc.man.analyses) id (some b))
    (hb : Exact 0 t.clock b) (i : Int) (a : Analysis) (ha : store i = some a) :
    Measured ((t.create (some id)).ran i) t.clock ((t.create (some id)).born i) a := by
  dsimp only [Timed.create]
  rw [hstore, Function.update_apply] at ha
  split_ifs at ha with hi
  · obtain rfl := Option.some.inj ha
    rw [hi, Function.update_self, Function.update_self]
    exact ⟨le_refl _, by omega, fun _ => hb⟩
  · rw [Function.update_of_ne hi, Function.update_of_ne hi]
    exact hrec i a ha

theorem later_create {svc : Service} {b : Analysis} {id : Int}
    (hnone : treapFind t.svc.man.analyses id = none)
    (hstore : treapFind svc.man.analyses =
      Function.update (treapFind t.svc.man.analyses) id (some b)) :
    Later t { t.create (some id) with svc } := by
  intro i a ha
  have hi : i ≠ id := by
    intro heq
    rw [heq, hnone] at ha
    simp at ha
  refine ⟨a, ?_, ?_, ?_⟩
  · rw [← ha]
    exact (congrFun hstore i).trans (Function.update_of_ne hi _ _)
  · exact le_of_eq (Function.update_of_ne hi _ _).symm
  · exact Function.update_of_ne hi _ _

/-- **One event**, at a reading of the clock. -/
theorem clocked_handle {e : Event} {svc : Service} (hc : Clocked t) (hat : e.At t.clock)
    (hwf : WellFormed e) (hok : Counts t (.handle e t.clock)) (h : handle t.svc e = some svc) :
    Clocked { t.create (created t.svc.man e) with svc } ∧
      Later t { t.create (created t.svc.man e) with svc } := by
  have hno : NoRemoval e := by
    cases e with
    | result => exact hat.1
    | remove => exact hat.elim
    | _ => trivial
  obtain ⟨hlone, hsound⟩ := lone_handle hc.lone hc.sound hwf hno h
  have hfresh : GetsFreshId t.svc.man e := by
    cases e with
    | add env path priority memory fd => exact hc.lone.freshId env _ fd
    | _ => trivial
  have hmove := storeMove_of_handle hc.sound hfresh hwf h
  -- Every event but an add writes at most one record and leaves the stopwatches alone.
  have hwrite : ∀ {id : Int} {b : Analysis}, created t.svc.man e = none →
      treapFind svc.man.analyses =
        Function.update (treapFind t.svc.man.analyses) id (some b) →
      Measured (t.ran id) t.clock (t.born id) b →
      Clocked { t.create (created t.svc.man e) with svc } ∧
        Later t { t.create (created t.svc.man e) with svc } := by
    intro id b hcreated hstore hb
    rw [hcreated]
    have hrecords := measured_update hc.records hstore hb
    exact ⟨⟨hlone, hsound, hrecords⟩, later_update hstore⟩
  generalize hman : svc.man = man' at hmove
  cases hmove with
  | kept hstore _ hcreated =>
    subst hman
    rw [hcreated]
    refine ⟨⟨hlone, hsound, ?_⟩, ?_⟩
    · dsimp only [Timed.create]
      rw [hstore]
      exact hc.records
    · intro id a ha
      exact ⟨a, by rw [← ha]; exact congrFun hstore id, le_refl _, rfl⟩
  | @added env path priority memory fd id pid _ hcreated _ _ hnone hstore =>
    subst hman
    rw [hcreated]
    have hnew := Exact.new path priority memory pid t.clock
    rw [← show env.now = wrap32 t.clock from hat] at hnew
    exact ⟨⟨hlone, hsound, measured_create hc.records hstore hnew⟩, later_create hnone hstore⟩
  | removed => exact hno.elim
  | failed => exact absurd rfl hno
  | @suspended inGroup id fd n a _ ha hsus hstatus _ hstore =>
    subst hman
    have hm := hc.records id a ha
    obtain rfl : n = t.clock := hat
    refine hwrite rfl hstore ⟨hm.nonneg, hm.since, fun hfits => ?_⟩
    exact (hm.exact hfits).suspend ⟨hstatus, hsus⟩ (hok a ha ⟨hstatus, hsus⟩)
  | @resumed inGroup id fd n a _ ha hsus _ hstore =>
    subst hman
    have hm := hc.records id a ha
    obtain rfl : n = t.clock := hat
    have hsus' := (hc.sound.records id a ha).suspended.resolve_right hsus
    refine hwrite rfl hstore ⟨hm.nonneg, hm.since, fun hfits => ?_⟩
    exact (hm.exact hfits).resume hsus' (hok a ha hsus')
  | @resulted dirPath inGroup result id cntDirs cntFiles n a _ _ ha hstore =>
    subst hman
    have hm := hc.records id a ha
    obtain rfl : n = t.clock := hat.2
    refine hwrite rfl hstore ⟨hm.nonneg, hm.since, fun hfits => ?_⟩
    exact (hm.exact hfits).result (fun hlast => hok hlast a ha) cntDirs cntFiles
  | restarted => exact hat.elim

/-- **A restart** that finds no analysis running. -/
theorem clocked_restart {env : StartEnv} {down : Int} {up : Int → Int} {svc : Service}
    (hc : Clocked t) (horder : InOrder t (.restart env down up now)) (hwf : env.Succeeds)
    (hok : Counts t (.restart env down up now)) (h : handle t.svc (.restart env) = some svc)
    (ht : t.next (.restart env down up now) = some t') : Clocked t' ∧ Later t t' := by
  obtain ⟨hdown, hup⟩ := horder
  obtain ⟨hlone, hsound⟩ := lone_handle (e := .restart env) hc.lone hc.sound hwf trivial h
  have hrebuilt : Rebuilt env t.svc.man svc.man := by
    generalize hman : svc.man = man'
    have hmove := storeMove_of_handle hc.sound (e := .restart env) trivial hwf h
    rw [hman] at hmove
    cases hmove with
    | kept _ hno => exact absurd rfl (hno env)
    | restarted hrebuilt => exact hrebuilt
  rw [Timed.next, h, Option.map_some] at ht
  obtain rfl := Option.some.inj ht
  -- A record and what is made of it, neither of them running.
  have hpair : ∀ id a c, treapFind t.svc.man.analyses id = some a →
      treapFind svc.man.analyses id = some c →
      ¬ c.Running ∧ (FitsInt (t.ran id) → c.totalTime = t.ran id) ∧
        t.ran id + spent t.svc.man id (down - t.clock) + spent svc.man id (now - up id) =
          t.ran id := by
    intro id a c ha hc'
    obtain ⟨b, c', hread, hforked, hfind⟩ := hrebuilt.records id a ha
    obtain rfl := Option.some.inj (hfind.symm.trans hc')
    have hm := hc.records id a ha
    have hnot := hok id a ha
    have hsame := sameRecord_forked hforked
    have hflags := hread.flags (hc.sound.records id a ha).toCoded
    have hnot' : ¬ c'.Running := by
      rintro ⟨hstatus, hsus⟩
      refine hnot ⟨?_, ?_⟩
      · rwa [hsame.status, hflags.1] at hstatus
      · rwa [hsame.suspended, hflags.2] at hsus
    refine ⟨hnot', fun hfits => ?_, ?_⟩
    · rw [hsame.totalTime]
      exact (hm.exact hfits).reread (hc.sound.records id a ha) hm.nonneg hfits hnot hread
    · rw [spent_of_find ha, if_neg hnot, spent_of_find hfind, if_neg hnot', add_zero, add_zero]
  refine ⟨⟨hlone, hsound, ?_⟩, ?_⟩
  · intro id c hc'
    obtain ⟨a, b, ha, -, -⟩ := hrebuilt.find_some hc.sound.inStep.store hc'
    obtain ⟨hnot, htotal, hran⟩ := hpair id a c ha hc'
    have hm := hc.records id a ha
    have hsince := hm.since
    have := hup id
    dsimp only at hc' ⊢
    rw [hran]
    refine ⟨hm.nonneg, by omega, fun hfits => ?_⟩
    rw [Exact, if_neg hnot, htotal hfits, add_zero, sub_self]
    exact dvd_zero _
  · intro id a ha
    obtain ⟨b, c, -, -, hc'⟩ := hrebuilt.records id a ha
    exact ⟨c, hc', le_of_eq (hpair id a c ha hc').2.2.symm, rfl⟩

/-- **One step.** -/
theorem clocked_step {e : TimedEvent} (hc : Clocked t) (hwf : e.WellFormed) (hok : Counts t e)
    (h : timed.step t e t') : Clocked t' ∧ Later t t' := by
  obtain ⟨horder, hnext⟩ := h
  cases e with
  | look now =>
    obtain rfl := Option.some.inj hnext
    exact clocked_pass hc horder
  | handle e now =>
    obtain ⟨hpass, hlater⟩ := clocked_pass hc horder.1
    obtain ⟨svc, hsvc, rfl⟩ := Option.map_eq_some_iff.1 hnext
    have hok' : Counts (t.pass now) (.handle e now) := hok
    obtain ⟨hc', hlater'⟩ := clocked_handle hpass horder.2 hwf hok' hsvc
    exact ⟨hc', hlater.trans hlater'⟩
  | restart env down up now =>
    obtain ⟨svc, hsvc, -⟩ := Option.map_eq_some_iff.1 hnext
    exact clocked_restart hc horder hwf hok hsvc hnext

/-- **Elapsed time is the time spent running**, in every run in which no event loses time or counts
it twice: of every analysis, the list shows what the stopwatch says, as long as that fits an
`int`, which is never more than the time since it was created, and never less than what the list
showed before. -/
theorem listedTime_eq_ran {es : List TimedEvent}
    (h : (timed.guard fun t e => e.WellFormed ∧ Counts t e).Reachable t)
    (hrun : Lts.Run (timed.guard fun t e => e.WellFormed ∧ Counts t e).step t es t') :
    (∀ id a, treapFind t.svc.man.analyses id = some a → FitsInt (t.ran id) →
      listedTime t.clock a = t.ran id ∧ listedTime t.clock a ≤ t.clock - t.born id) ∧
    ∀ id a, treapFind t.svc.man.analyses id = some a →
      ∃ a', treapFind t'.svc.man.analyses id = some a' ∧ t'.born id = t.born id ∧
        (FitsInt (t'.ran id) → listedTime t.clock a ≤ listedTime t'.clock a') := by
  have hc : Clocked t := by
    refine h.invariant (I := Clocked) ?_ ?_
    · rintro t ⟨-, env, henv⟩
      refine ⟨lone_startup henv, (sound_startup henv).1, ?_⟩
      obtain ⟨k, hman⟩ := threadsStartup_nil henv
      intro id a ha
      rw [hman] at ha
      exact absurd ha (by simp [treapFind])
    · rintro t e t' hc ⟨hstep, hwf, hok⟩
      exact (clocked_step hc hwf hok hstep).1
  have hlater : Clocked t' ∧ Later t t' := by
    refine hrun.invariant (I := fun t' => Clocked t' ∧ Later t t') ?_ ⟨hc, .refl t⟩
    rintro t₁ e t₂ ⟨hc₁, hlater⟩ ⟨hstep, hwf, hok⟩
    obtain ⟨hc₂, hlater'⟩ := clocked_step hc₁ hwf hok hstep
    exact ⟨hc₂, hlater.trans hlater'⟩
  obtain ⟨hc', hlater⟩ := hlater
  refine ⟨fun id a ha hfits => ?_, fun id a ha => ?_⟩
  · have hm := hc.records id a ha
    rw [(hm.exact hfits).listedTime_eq hfits]
    exact ⟨rfl, hm.since⟩
  · obtain ⟨a', ha', hran, hborn⟩ := hlater id a ha
    refine ⟨a', ha', hborn, fun hfits' => ?_⟩
    have hm := hc.records id a ha
    have hnonneg := hm.nonneg
    have hfits : FitsInt (t.ran id) := ⟨by omega, lt_of_le_of_lt hran hfits'.2⟩
    rw [(hm.exact hfits).listedTime_eq hfits,
      ((hc'.records id a' ha').exact hfits').listedTime_eq hfits']
    exact hran

/-! ## Two runs -/

/-- The states that events lead to. -/
def ticked (t : Timed) (es : List TimedEvent) : Timed :=
  es.foldl (fun t e => (t.next e).getD t) t

theorem next_getD {e : TimedEvent} (h : (t.next e).isSome = true) :
    t.next e = some ((t.next e).getD t) := by
  obtain ⟨t', ht'⟩ := Option.isSome_iff_exists.1 h
  rw [ht', Option.getD_some]

theorem forall_records {man : ThreadsManager} {p : Analysis → Prop}
    (h : ∀ e ∈ man.analyses.inorder, p e.2.2) :
    ∀ id a, treapFind man.analyses id = some a → p a := by
  intro id a ha
  obtain ⟨k, hm⟩ := mem_of_find ha
  exact h _ hm

/-- An empty data file, at time 0. -/
def emptyTimed : Timed := ⟨emptyService, 0, fun _ => 0, fun _ => 0⟩

/-- The manager is back at time `up`, all at once. -/
def startAt (up : Int) : StartEnv := { quietStart with now := fun _ => wrap32 up }

theorem startAt_succeeds (up : Int) : (startAt up).Succeeds := { quietStart_succeeds with }

theorem init_emptyTimed (ok : Timed → TimedEvent → Prop) : (timed.guard ok).init emptyTimed :=
  init_emptyService

/-- An analysis that runs from 0 to 10 and from 40 to 50; the manager is down from 20 to 30. -/
def pausedEvents : List TimedEvent :=
  [.handle (addEvent "/a" 10 0) 0, .handle (.suspend (fun _ => true) 1 5 10) 10,
    .restart (startAt 30) 20 (fun _ => 30) 30, .handle (.resume (fun _ => true) 1 5 40) 40,
    .handle (.result (str "/data/") (fun _ => true) 49 1 3 9 50) 50, .look 60]

theorem listedTime_eq_ran_paused :
    ∃ a, treapFind (ticked emptyTimed pausedEvents).svc.man.analyses 1 = some a ∧
      listedTime (ticked emptyTimed pausedEvents).clock a = 20 := by
  have hreach : (timed.guard fun t e => e.WellFormed ∧ Counts t e).Reachable
      (ticked emptyTimed pausedEvents) := by
    have hup : (20 : Int) ≤ 30 := by decide
    refine ⟨_, pausedEvents, init_emptyTimed _,
      .cons ⟨⟨⟨?_, rfl⟩, next_getD rfl⟩, ⟨?_, ?_⟩, trivial⟩
        (.cons ⟨⟨⟨?_, rfl⟩, next_getD rfl⟩, trivial, forall_records ?_ 1⟩
          (.cons ⟨⟨⟨?_, fun _ => ⟨hup, le_refl _, rfl⟩⟩, next_getD ?_⟩, startAt_succeeds 30,
              forall_records ?_⟩
            (.cons ⟨⟨⟨?_, rfl⟩, next_getD rfl⟩, trivial, forall_records ?_ 1⟩
              (.cons ⟨⟨⟨?_, ?_, rfl⟩, next_getD rfl⟩, trivial, fun _ => forall_records ?_ 1⟩
                (.cons ⟨⟨Int.le_of_sub_nonneg ?_, next_getD rfl⟩, trivial, trivial⟩
                  (.nil _))))))⟩
    all_goals decide +kernel
  obtain ⟨a, ha⟩ : ∃ a, treapFind (ticked emptyTimed pausedEvents).svc.man.analyses 1 = some a :=
    Option.isSome_iff_exists.1 (by decide +kernel)
  have hran : (ticked emptyTimed pausedEvents).ran 1 = 20 := by decide +kernel
  refine ⟨a, ha, ?_⟩
  rw [((listedTime_eq_ran hreach (.nil _)).1 1 a ha (by rw [hran]; decide)).1, hran]

/-- An analysis that runs from 0 to 100, when the manager stops, and again from 200. -/
def stoppedEvents : List TimedEvent :=
  [.handle (addEvent "/a" 10 0) 0, .look 100]

/-- A hundred seconds are shown, and none after a restart. -/
theorem listedTime_goes_back :
    ∃ t t' es, (timed.guard fun _ e => e.WellFormed).Reachable t ∧
      Lts.Run (timed.guard fun _ e => e.WellFormed).step t es t' ∧
      t.ran 1 = 100 ∧ (treapFind t.svc.man.analyses 1).map (listedTime t.clock) = some 100 ∧
      t'.ran 1 = 100 ∧ (treapFind t'.svc.man.analyses 1).map (listedTime t'.clock) = some 0 := by
  have hup : (100 : Int) ≤ 200 := by decide
  refine ⟨ticked emptyTimed stoppedEvents, _, [.restart (startAt 200) 100 (fun _ => 200) 200],
    ⟨_, stoppedEvents, init_emptyTimed _,
      .cons ⟨⟨⟨?_, rfl⟩, next_getD rfl⟩, ?_, ?_⟩
        (.cons ⟨⟨Int.le_of_sub_nonneg ?_, next_getD rfl⟩, trivial⟩ (.nil _))⟩,
    .cons ⟨⟨⟨?_, fun _ => ⟨hup, le_refl _, rfl⟩⟩, next_getD ?_⟩, startAt_succeeds 200⟩ (.nil _), ?_⟩
  all_goals decide +kernel

end DiskAnalyzer
