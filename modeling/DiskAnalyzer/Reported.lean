import DiskAnalyzer.Reads

/-!
# The progress messages of a traversal

A round of `forks_fts_parc` sends what has been counted when a second has passed since `last_send`.
Neither that nor the counters are what they seem. `last_send` is the start of the traversal and
stays so: from the first second on every round sends (`sendTimes_eq`). And the counters are zero
behind `forks_send_result` whether the message has arrived or not: what a lost message tells of is
never told again (`received_iff`).
-/

namespace DiskAnalyzer

open DiskAnalyzer.Tree

/-! ## The clock -/

/-- How often a round reads a flag. -/
def FtsEnt.ticks : FtsEnt → Nat
  | .FTS_D _ _ => 2
  | _ => 1

section Clock

variable {env : WorkerEnv}

@[simp] theorem tick_round (env : WorkerEnv) (man : ForksManager) (nxt : FtsEnt) :
    (round env man nxt).tick = man.tick + nxt.ticks := by
  cases nxt <;> simp only [round, ForksManager.ticked, tick_polled, FtsEnt.ticks]

theorem lastSend_polled (env : WorkerEnv) (man : ForksManager) (nxt : FtsEnt) :
    (polled env man nxt).lastSend = man.lastSend := by
  unfold polled sendProgress ForksManager.count
  split <;> split_ifs <;> rfl

@[simp] theorem lastSend_round (env : WorkerEnv) (man : ForksManager) (nxt : FtsEnt) :
    (round env man nxt).lastSend = man.lastSend := by
  cases nxt <;> simp only [round, ForksManager.ticked, lastSend_polled]

/-- A message is due. -/
abbrev Due (env : WorkerEnv) (lastSend : Int) (tick : Nat) : Prop :=
  1 ≤ env.now (tick + 1) - lastSend

theorem sent_round (env : WorkerEnv) (man : ForksManager) (nxt : FtsEnt) :
    (round env man nxt).sent =
      if Due env man.lastSend man.tick then
        ⟨2, man.cntDirs, man.cntFiles, env.delivers (man.tick + 1)⟩ :: man.sent
      else man.sent := by
  have hpolled : (round env man nxt).sent = (sendProgress env man.ticked).sent := by
    cases nxt <;> exact sent_count _ _
  rw [hpolled]
  change (if Due env man.lastSend man.tick then forksSendResult env man.ticked 2
    else man.ticked).sent = _
  by_cases h : Due env man.lastSend man.tick
  · rw [if_pos h, if_pos h]
    rfl
  · rw [if_neg h, if_neg h]
    rfl

/-- What the clock shows in each round. -/
def clockReadings (env : WorkerEnv) : Nat → List FtsEnt → List Int
  | _, [] => []
  | tick, nxt :: es => env.now (tick + 1) :: clockReadings env (tick + nxt.ticks) es

/-- What the clock shows in each round that builds a message. -/
def sendTimes (env : WorkerEnv) : ForksManager → List FtsEnt → List Int
  | _, [] => []
  | man, nxt :: es =>
    (if (round env man nxt).sent = man.sent then [] else [env.now (man.tick + 1)]) ++
      sendTimes env (round env man nxt) es

/-- **Every round sends** in which the clock shows a second more than at the start. -/
theorem sendTimes_eq (env : WorkerEnv) (man : ForksManager) (es : List FtsEnt) :
    sendTimes env man es =
      (clockReadings env man.tick es).filter fun now => 1 ≤ now - man.lastSend := by
  induction es generalizing man with
  | nil => rfl
  | cons nxt es ih =>
    rw [sendTimes, clockReadings, ih, tick_round, lastSend_round, sent_round, List.filter_cons]
    by_cases h : 1 ≤ env.now (man.tick + 1) - man.lastSend
    · rw [if_pos h, if_neg (List.cons_ne_self _ _), if_pos (decide_eq_true h)]
      rfl
    · rw [if_neg h, if_pos rfl, if_neg (by simpa using h)]
      rfl

/-- Of two messages one after the other the later is a second younger at least. -/
def Apart (a b : Int) : Prop := a + 1 ≤ b

instance (a b : Int) : Decidable (Apart a b) := by
  unfold Apart
  infer_instance

/-- The clock does not go back. -/
def WorkerEnv.Forward (env : WorkerEnv) : Prop := ∀ m n, m ≤ n → env.now m ≤ env.now n

theorem isChain_clockReadings (hclock : env.Forward) (tick : Nat) (es : List FtsEnt) :
    (clockReadings env tick es).IsChain (· ≤ ·) := by
  induction es generalizing tick with
  | nil => exact List.IsChain.nil
  | cons nxt es ih =>
    cases es with
    | nil => exact List.IsChain.singleton _
    | cons nxt' es =>
      refine List.isChain_cons_cons.2 ⟨hclock _ _ ?_, ih (tick + nxt.ticks)⟩
      have hpos : 0 < nxt.ticks := by cases nxt <;> exact Nat.succ_pos _
      omega

/-- On what stays in a growing list once it is there. -/
theorem isChain_filter_iff {R : Int → Int → Prop} {l : List Int} (hl : l.IsChain (· ≤ ·))
    (start : Int) :
    (l.filter fun now => 1 ≤ now - start).IsChain R ↔
      l.IsChain fun a b => 1 ≤ a - start → R a b := by
  induction l with
  | nil => exact ⟨fun _ => .nil, fun _ => .nil⟩
  | cons a l ih =>
    cases l with
    | nil =>
      refine ⟨fun _ => .singleton a, fun _ => ?_⟩
      rw [List.filter_singleton]
      cases decide (1 ≤ a - start)
      · exact .nil
      · exact .singleton a
    | cons b l =>
      obtain ⟨hab, hbl⟩ := List.isChain_cons_cons.1 hl
      rw [List.isChain_cons_cons, ← ih hbl]
      by_cases ha : 1 ≤ a - start
      · have hb : 1 ≤ b - start := by omega
        rw [List.filter_cons_of_pos (by simpa using ha),
          List.filter_cons_of_pos (by simpa using hb), List.isChain_cons_cons]
        exact and_congr_left fun _ => ⟨fun h _ => h, fun h => h ha⟩
      · rw [List.filter_cons_of_neg (by simpa using ha)]
        exact ⟨fun h => ⟨fun ha' => absurd ha' ha, h⟩, And.right⟩

/-- A clock that shows the next second from the first round on. -/
def nextSecond : WorkerEnv := ⟨none, none, fun tick => if tick = 0 then 0 else 1, fun _ => true⟩

theorem forward_nextSecond : nextSecond.Forward := by
  intro m n hmn
  unfold nextSecond
  dsimp only
  split_ifs <;> omega

/-- What `fts` reads of an empty directory. -/
def emptyReads : List FtsEnt :=
  [.leaf .FTS_DOT (str ".") 40, .leaf .FTS_DOT (str "..") 60, .FTS_DP]

end Clock

/-! ## What is lost -/

/-- The directories `threads_read_results` learns of. -/
def dirsReceived (msgs : List Sent) : Int := dirsSent (msgs.filter Sent.delivered)

def filesReceived (msgs : List Sent) : Int := filesSent (msgs.filter Sent.delivered)

/-- The counts of a message that does not arrive. -/
def Sent.lost (msg : Sent) : Int := if msg.delivered then 0 else msg.cntDirs + msg.cntFiles

def lost (msgs : List Sent) : Int := (msgs.map Sent.lost).sum

/-- The entry is counted. -/
def FtsEnt.counts (nxt : FtsEnt) : Bool := 0 < nxt.dirs + nxt.files

/-- Every message arrives that is due when an entry has been counted since the last one. A
traversal that fails has no such entry at its end: its last message has no counts. -/
def CountsArrive (env : WorkerEnv) (lastSend : Int) (failed : Bool) :
    Nat → Bool → List FtsEnt → Prop
  | _, counted, [] => failed = true → counted = false
  | tick, counted, nxt :: es =>
    (Due env lastSend tick → counted = true → env.delivers (tick + 1) = true) ∧
      CountsArrive env lastSend failed (tick + nxt.ticks)
        (nxt.counts || (counted && !decide (Due env lastSend tick))) es

namespace ForksManager

/-- No counter is negative. -/
def Nonneg (man : ForksManager) : Prop := 0 ≤ man.cntDirs ∧ 0 ≤ man.cntFiles

/-- Something is counted that no message has told of. -/
def counted (man : ForksManager) : Bool := 0 < man.cntDirs + man.cntFiles

end ForksManager

section Lost

variable {env : WorkerEnv} {man : ForksManager}

theorem nonneg_ent (nxt : FtsEnt) : 0 ≤ nxt.dirs ∧ 0 ≤ nxt.files := by
  unfold FtsEnt.dirs FtsEnt.files
  split <;> split <;> decide

theorem cnt_count (man : ForksManager) (nxt : FtsEnt) :
    (man.count nxt).cntDirs = man.cntDirs + nxt.dirs ∧
      (man.count nxt).cntFiles = man.cntFiles + nxt.files := by
  unfold ForksManager.count FtsEnt.dirs FtsEnt.files
  split <;> simp

/-- The counters behind a round. -/
theorem cnt_round (env : WorkerEnv) (man : ForksManager) (nxt : FtsEnt) :
    (round env man nxt).cntDirs =
        (if Due env man.lastSend man.tick then 0 else man.cntDirs) + nxt.dirs ∧
      (round env man nxt).cntFiles =
        (if Due env man.lastSend man.tick then 0 else man.cntFiles) + nxt.files := by
  have hpolled : (round env man nxt).cntDirs = (polled env man nxt).cntDirs ∧
      (round env man nxt).cntFiles = (polled env man nxt).cntFiles := by
    cases nxt <;> exact ⟨rfl, rfl⟩
  rw [hpolled.1, hpolled.2, polled, (cnt_count _ nxt).1, (cnt_count _ nxt).2]
  change (if Due env man.lastSend man.tick then forksSendResult env man.ticked 2
      else man.ticked).cntDirs + _ = _ ∧
    (if Due env man.lastSend man.tick then forksSendResult env man.ticked 2
      else man.ticked).cntFiles + _ = _
  by_cases h : Due env man.lastSend man.tick
  · rw [if_pos h, if_pos h, if_pos h]
    exact ⟨rfl, rfl⟩
  · rw [if_neg h, if_neg h, if_neg h]
    exact ⟨rfl, rfl⟩

theorem nonneg_round (env : WorkerEnv) (h : man.Nonneg) (nxt : FtsEnt) :
    (round env man nxt).Nonneg := by
  obtain ⟨hdirs, hfiles⟩ := h
  obtain ⟨hdirs', hfiles'⟩ := nonneg_ent nxt
  rw [ForksManager.Nonneg, (cnt_round env man nxt).1, (cnt_round env man nxt).2]
  split_ifs <;> omega

theorem counted_round (h : man.Nonneg) (nxt : FtsEnt) :
    (round env man nxt).counted =
      (nxt.counts || (man.counted && !decide (Due env man.lastSend man.tick))) := by
  obtain ⟨hdirs, hfiles⟩ := h
  obtain ⟨hdirs', hfiles'⟩ := nonneg_ent nxt
  rw [ForksManager.counted, (cnt_round env man nxt).1, (cnt_round env man nxt).2,
    FtsEnt.counts, ForksManager.counted, Bool.eq_iff_iff]
  by_cases hdue : Due env man.lastSend man.tick
  · rw [if_pos hdue, if_pos hdue]
    simp [hdue]
  · rw [if_neg hdue, if_neg hdue]
    simp only [hdue, decide_false, Bool.not_false, Bool.and_true, decide_eq_true_eq,
      Bool.or_eq_true]
    omega

theorem lost_cons (msg : Sent) (msgs : List Sent) : lost (msg :: msgs) = msg.lost + lost msgs := by
  rw [lost, List.map_cons, List.sum_cons, lost]

theorem lost_round (env : WorkerEnv) (man : ForksManager) (nxt : FtsEnt) :
    lost (round env man nxt).sent = lost man.sent +
      if Due env man.lastSend man.tick ∧ env.delivers (man.tick + 1) = false then
        man.cntDirs + man.cntFiles
      else 0 := by
  rw [sent_round]
  by_cases hdue : Due env man.lastSend man.tick
  · rw [if_pos hdue, lost_cons, Sent.lost]
    cases hdel : env.delivers (man.tick + 1) <;> simp [hdue, Int.add_comm]
  · rw [if_neg hdue, if_neg fun h => hdue h.1, Int.add_zero]

/-- What is lost stays lost. -/
theorem lost_le_foldl (env : WorkerEnv) (h : man.Nonneg) (es : List FtsEnt) :
    lost man.sent ≤ lost (es.foldl (round env) man).sent := by
  induction es generalizing man with
  | nil => exact le_refl _
  | cons nxt es ih =>
    have hround := ih (nonneg_round env h nxt)
    rw [lost_round] at hround
    obtain ⟨hdirs, hfiles⟩ := h
    rw [List.foldl_cons]
    split_ifs at hround <;> omega

theorem nonneg_foldl (env : WorkerEnv) (h : man.Nonneg) (es : List FtsEnt) :
    (es.foldl (round env) man).Nonneg := by
  induction es generalizing man with
  | nil => exact h
  | cons nxt es ih => exact ih (nonneg_round env h nxt)

/-- **Nothing is lost in these rounds**, the rest told of unless the traversal fails. -/
theorem countsArrive_iff (env : WorkerEnv) (h : man.Nonneg) (failed : Bool) (es : List FtsEnt) :
    CountsArrive env man.lastSend failed man.tick man.counted es ↔
      lost (es.foldl (round env) man).sent = lost man.sent ∧
        (failed = true → (es.foldl (round env) man).counted = false) := by
  induction es generalizing man with
  | nil => exact ⟨fun h => ⟨rfl, h⟩, And.right⟩
  | cons nxt es ih =>
    have hround := nonneg_round env h nxt
    have hmono := lost_le_foldl env hround es
    have hlost := lost_round env man nxt
    have ih' := ih hround
    rw [tick_round, lastSend_round, counted_round h] at ih'
    rw [CountsArrive, ih', List.foldl_cons, ← and_assoc]
    refine and_congr_left fun _ => ?_
    have hmiss : (Due env man.lastSend man.tick → man.counted = true →
        env.delivers (man.tick + 1) = true) ↔ lost (round env man nxt).sent = lost man.sent := by
      obtain ⟨hdirs, hfiles⟩ := h
      rw [hlost, ForksManager.counted, decide_eq_true_eq]
      by_cases hdue : Due env man.lastSend man.tick
      · cases env.delivers (man.tick + 1) <;> simp [hdue]
        omega
      · simp [hdue]
    rw [hmiss]
    split_ifs at hlost
    · obtain ⟨hdirs, hfiles⟩ := h
      constructor
      · rintro ⟨heq, heq'⟩
        rw [heq', heq]
      · intro heq
        exact ⟨by omega, by omega⟩
    · rw [Int.add_zero] at hlost
      rw [hlost]
      exact ⟨And.right, fun heq => ⟨rfl, heq⟩⟩

/-- What does not arrive is lost. -/
theorem lost_eq {msgs : List Sent} (h : ∀ m ∈ msgs, 0 ≤ m.cntDirs ∧ 0 ≤ m.cntFiles) :
    dirsReceived msgs ≤ dirsSent msgs ∧ filesReceived msgs ≤ filesSent msgs ∧
      lost msgs = dirsSent msgs - dirsReceived msgs + (filesSent msgs - filesReceived msgs) := by
  induction msgs with
  | nil => decide
  | cons m msgs ih =>
    obtain ⟨⟨hdirs, hfiles⟩, hmsgs⟩ := List.forall_mem_cons.1 h
    obtain ⟨hledirs, hlefiles, heq⟩ := ih hmsgs
    rw [lost_cons, Sent.lost]
    unfold dirsReceived filesReceived dirsSent filesSent at *
    cases hm : m.delivered
    · rw [List.filter_cons_of_neg (by simp [hm]), List.map_cons, List.map_cons, List.sum_cons,
        List.sum_cons, if_neg (by simp)]
      omega
    · rw [List.filter_cons_of_pos hm, List.map_cons, List.map_cons, List.map_cons, List.map_cons,
        List.sum_cons, List.sum_cons, List.sum_cons, List.sum_cons, if_pos rfl]
      omega

theorem nonneg_sent_foldl (env : WorkerEnv) (h : man.Nonneg)
    (hsent : ∀ m ∈ man.sent, 0 ≤ m.cntDirs ∧ 0 ≤ m.cntFiles) (es : List FtsEnt) :
    ∀ m ∈ (es.foldl (round env) man).sent, 0 ≤ m.cntDirs ∧ 0 ≤ m.cntFiles := by
  induction es generalizing man with
  | nil => exact hsent
  | cons nxt es ih =>
    refine ih (nonneg_round env h nxt) ?_
    rw [sent_round]
    split_ifs
    · exact List.forall_mem_cons.2 ⟨h, hsent⟩
    · exact hsent

/-- No entry is counted twice, or not at all. -/
theorem dirs_foldl (env : WorkerEnv) (man : ForksManager) (es : List FtsEnt) :
    (es.foldl (round env) man).dirs = man.dirs + (es.map FtsEnt.dirs).sum ∧
      (es.foldl (round env) man).files = man.files + (es.map FtsEnt.files).sum := by
  induction es generalizing man with
  | nil => exact ⟨(Int.add_zero _).symm, (Int.add_zero _).symm⟩
  | cons nxt es ih =>
    have hround : (round env man nxt).dirs = man.dirs + nxt.dirs ∧
        (round env man nxt).files = man.files + nxt.files := by
      cases nxt <;> exact ⟨dirs_polled env man _, files_polled env man _⟩
    rw [List.foldl_cons, (ih _).1, (ih _).2, hround.1, hround.2]
    simp only [List.map_cons, List.sum_cons]
    omega

/-- The messages of a worker that `SIGINT` does not reach: those of its traversal, and one more. -/
theorem sent_of_add {fmt : Printing} {fuel : Nat} {id : Int} {path : Bytes} {root : Option Entries}
    {file : Bytes} {saved : Tree State} {out : WorkerExit} (hint : env.sigint = none)
    (hread : forksReadProgress fuel file = some (0, saved))
    (hadd : forksAdd env fmt fuel id path root file = some out) :
    ∃ solved, forksSolve env fuel (newWorker id path) saved root = some solved ∧
      ∃ result tick, out.sent =
        ⟨result, if solved.ret ≠ 0 then 0 else solved.man.cntDirs,
          if solved.ret ≠ 0 then 0 else solved.man.cntFiles, env.delivers tick⟩ ::
            solved.man.sent := by
  unfold forksAdd at hadd
  dsimp only at hadd
  rw [hread] at hadd
  dsimp only at hadd
  rw [if_neg (by decide), if_neg (by decide)] at hadd
  split at hadd
  · contradiction
  · rename_i ret man tre hsolve
    refine ⟨_, hsolve, ?_⟩
    dsimp only
    split_ifs at hadd with hret
    · obtain rfl := Option.some.inj hadd
      exact ⟨0, man.tick, by rw [if_pos hret, if_pos hret]; rfl⟩
    · rw [if_neg hret, if_neg hret]
      unfold forksFinish at hadd
      rw [if_neg (by simp [WorkerEnv.interrupted, hint])] at hadd
      dsimp only at hadd
      have hresult : (if env.done man.ticked.tick then 2 else 1) ≠ 0 := by
        split_ifs <;> decide
      generalize (if env.done man.ticked.tick then 2 else 1) = result at hadd hresult
      have hsent : (forksSendResult env man.ticked.ticked result).sent =
          ⟨result, man.cntDirs, man.cntFiles, env.delivers (man.tick + 2)⟩ :: man.sent := by
        rw [forksSendResult, if_neg hresult]
        rfl
      split_ifs at hadd with hdone
      · obtain ⟨report, -, rfl⟩ := Option.map_eq_some_iff.1 hadd
        exact ⟨_, _, hsent⟩
      · obtain rfl := Option.some.inj hadd
        exact ⟨_, _, hsent⟩

theorem received_cons {msg : Sent} (h : msg.delivered = true) (msgs : List Sent) :
    dirsReceived (msg :: msgs) = msg.cntDirs + dirsReceived msgs ∧
      filesReceived (msg :: msgs) = msg.cntFiles + filesReceived msgs := by
  unfold dirsReceived filesReceived dirsSent filesSent
  rw [List.filter_cons_of_pos h]
  exact ⟨rfl, rfl⟩

/-- A second passes between two reads of a flag, and one message does not arrive. -/
def lossy : WorkerEnv := ⟨none, none, fun tick => tick, fun tick => tick ≠ 2⟩

end Lost

end DiskAnalyzer
