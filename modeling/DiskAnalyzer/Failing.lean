import DiskAnalyzer.Forks
import DiskAnalyzer.Lib.Stream

/-!
# A worker that fails

`forks_add` returns in two processes. In the parent -1 means that `fork` failed, and
`do_forks_manager` then shuts everything down; in the worker -1 is what three of the four failures
return (the request, the pid, the saved progress), and the worker takes the same branch. Its
`SIGTERM` to itself only sets its `done`, so it goes on to `kill(0, SIGTERM)`, which reaches the
fork manager, the threads manager and every worker.

Only a failing `forks_solve` returns 0. So a failure is contained exactly when the worker has come
that far (`contained_iff`).
-/

namespace DiskAnalyzer

open Decimal ByteStream

/-! ## The request -/

/-- What `fork_request` sends. -/
def forkRequest (id : Int) (path : Bytes) : Bytes :=
  snprintf (10 + 10 + path.length + 4)
    (printWidth 10 id ++ printWidth 10 (wrap32 path.length) ++ path)

/-- `forks_read_path`: the return value, and what it leaves in `id` and in `path`. `junk` is what
`id` held before, which nobody has set; `none` is a call that does not return, or that uses memory
that is not its own. No `malloc` has what a length below -1 asks for. -/
def forksReadPath (junk : Int) (malloc : Bool) (request : Source) : Option (Int × Int × Bytes) :=
  match readFull 10 request with
  | .error => some (1, junk, [])
  | .ok vessel request =>
    let id := atoi (cstr vessel)
    match readFull 10 request with
    | .error => some (1, id, [])
    | .ok vessel request =>
      let sz := atoi (cstr vessel)
      if 2 ^ 31 ≤ sz + 1 then none
      else if malloc = false ∨ sz < -1 then some (1, id, [])
      else
        match if sz = -1 then readPast request else readFull sz.toNat request with
        | .error => some (1, id, [])
        | .ok path _ => some (0, id, cstr path)
        | _ => none
    | _ => none
  | _ => none

/-! ## `forks_add` in the worker -/

/-- What a worker meets on its way to `forks_solve`. -/
structure ChildEnv where
  /-- `id` as the worker inherits it. -/
  junk : Int
  malloc : Bool
  /-- The connection its request comes on. -/
  request : Source
  sendsPid : Bool
  /-- What the file of its id holds, `none` when `open` fails. -/
  file : Option Bytes

/-- How `forks_add` returns in the worker: the messages it has sent, last first, and the id they
carry. -/
structure ChildExit where
  ret : Int
  id : Int
  sent : List Sent
  deriving DecidableEq, Repr

/-- `forks_add` in the worker. -/
def forksAddChild (env : WorkerEnv) (fmt : Printing) (fuel : Nat) (child : ChildEnv)
    (root : Option Entries) : Option ChildExit :=
  match forksReadPath child.junk child.malloc child.request with
  | none => none
  | some (ret, id, path) =>
    let failed : ChildExit := ⟨-1, id, (forksSendResult env ⟨id, path, 0, 0, 0, 0, []⟩ 0).sent⟩
    if ret ≠ 0 then some failed
    else if child.sendsPid = false then some failed
    else
      match child.file with
      | none => some failed
      | some file =>
        (forksAdd env fmt fuel id path root file).map fun x => ⟨x.ret, id, x.sent⟩

/-! ## `do_forks_manager` behind `forks_add` -/

/-- Who a `kill` of `do_forks_manager` names: the process itself, its group, or `pid`, which is the
threads manager in the fork manager and in every worker. -/
inductive Target where
  | self
  | group
  | threadsManager
  deriving DecidableEq, Repr

inductive Call where
  | accept
  | sigterm (target : Target)
  /-- `while (cnt_forks || !resman_done)`, for ever. -/
  | spin
  | exit
  deriving DecidableEq, Repr

/-- The globals of the fork manager when it forked. In a worker nothing changes them: it has no
children, and no one sends it `SIGUSR1`. -/
structure Inherited where
  cntForks : Int
  resmanDone : Bool
  deriving DecidableEq, Repr

/-- What `do_forks_manager` calls once `forks_add` has returned `ret`. In a worker, `SIGTERM` sets
`done` and is ignored from then on. -/
def afterForksAdd (inh : Inherited) (ret : Int) : List Call :=
  if ret < 0 then
    .sigterm .self :: .sigterm .group ::
      if inh.cntForks ≠ 0 ∨ inh.resmanDone = false then [.spin]
      else [.sigterm .threadsManager, .exit]
  else if ret = 0 then [.exit]
  else [.accept]

/-- The worker has failed: its last message is the one that says so. -/
def ChildExit.Fails (x : ChildExit) : Prop :=
  ∃ delivered sent, x.sent = ⟨0, 0, 0, delivered⟩ :: sent

/-- **The failure stays with the worker** started for `id`. -/
structure Contained (id : Int) (inh : Inherited) (x : ChildExit) : Prop where
  ends : .exit ∈ afterForksAdd inh x.ret
  noAccept : .accept ∉ afterForksAdd inh x.ret
  noSigterm : ∀ target, .sigterm target ∈ afterForksAdd inh x.ret → target = .self
  reports : x.id = id

/-- A file `tree_build` does not reject, and whose analysis is not complete. -/
def Accepted (fuel : Nat) (file : Bytes) : Prop :=
  ∃ tre, forksReadProgress fuel file = some (0, tre)

/-! ## Reading the request -/

/-- A field in front of what is a prefix. -/
theorem field_of_prefix {v d p q : Bytes} (hlen : v.length = p.length) (h : v ++ d <+: p ++ q) :
    v = p ∧ d <+: q := by
  obtain ⟨t, ht⟩ := h
  rw [List.append_assoc] at ht
  obtain ⟨rfl, hd⟩ := List.append_inj ht hlen
  exact ⟨rfl, t, hd⟩

section Request

variable {id : Int} {path : Bytes}

/-- The buffer of `fork_request` suffices. -/
theorem forkRequest_eq (hid : 0 ≤ id ∧ FitsInt id) (hpath : path.length < 2 ^ 31) :
    forkRequest id path = printWidth 10 id.toNat ++ (printWidth 10 path.length ++ path) := by
  obtain ⟨n, rfl⟩ := Int.eq_ofNat_of_zero_le hid.1
  have hn : n < 2 ^ 31 := by
    have hlt := hid.2.2
    omega
  rw [forkRequest, wrap32_of_fitsInt ⟨by omega, by omega⟩, snprintf, List.take_of_length_le,
    List.append_assoc, Int.toNat_natCast]
  rw [List.length_append, List.length_append, length_field hn, length_field (by omega)]
  omega

/-- The whole request is decoded, however it is cut, and whatever is behind it. -/
theorem forksReadPath_whole (hid : 0 ≤ id ∧ FitsInt id) (hpath : path.length + 1 < 2 ^ 31)
    {request : Source} (h : delivered request = forkRequest id path) (junk : Int) :
    forksReadPath junk true request = some (0, id, cstr path) := by
  have hid' : id.toNat < 2 ^ 31 := by
    have hlt := hid.2.2
    omega
  rw [forkRequest_eq hid (by omega)] at h
  obtain ⟨s₁, hread₁, h₁⟩ := readFull_delivered h
  obtain ⟨s₂, hread₂, h₂⟩ := readFull_delivered h₁
  obtain ⟨s₃, hread₃, -⟩ := readFull_delivered (h₂.trans (List.append_nil _).symm)
  rw [length_field hid'] at hread₁
  rw [length_field (by omega)] at hread₂
  rw [forksReadPath, hread₁]
  dsimp only
  rw [hread₂]
  dsimp only
  rw [atoi_field (by omega), if_neg (by omega), if_neg (by simp), if_neg (by omega),
    Int.toNat_natCast, hread₃]
  dsimp only
  rw [atoi_field hid', Int.toNat_of_nonneg hid.1]

/-- **Reading a request of which some bytes arrive.** -/
theorem forksReadPath_spec (hid : 0 ≤ id ∧ FitsInt id) (hpath : path.length + 1 < 2 ^ 31)
    {junk : Int} {malloc : Bool} {request : Source}
    (harrives : delivered request <+: forkRequest id path) {ret id' : Int} {path' : Bytes}
    (hread : forksReadPath junk malloc request = some (ret, id', path')) :
    (ret = 0 → id' = id ∧ delivered request = forkRequest id path ∧ malloc = true) ∧
      (ret ≠ 0 → delivered request ≠ forkRequest id path ∨ malloc = false) := by
  refine ⟨fun hret => ?_, fun hret => ?_⟩
  swap
  · by_contra hboth
    obtain ⟨hwhole, hmalloc⟩ := not_or.1 hboth
    rw [Bool.not_eq_false] at hmalloc
    rw [hmalloc, forksReadPath_whole hid hpath (not_not.1 hwhole)] at hread
    exact hret (Prod.mk.inj (Option.some.inj hread)).1.symm
  subst hret
  have hid' : id.toNat < 2 ^ 31 := by
    have hlt := hid.2.2
    omega
  have hlen' := length_field (n := path.length) (by omega)
  rw [forkRequest_eq hid (by omega)] at harrives ⊢
  rw [forksReadPath] at hread
  cases h₁ : readFull 10 request with
  | error | hang | undefined => simp [h₁] at hread
  | ok vessel request₁ =>
    have hd₁ := delivered_of_readFull h₁
    rw [hd₁] at harrives
    obtain ⟨rfl, harrives₁⟩ :=
      field_of_prefix ((length_readFull h₁).trans (length_field hid').symm) harrives
    rw [h₁] at hread
    dsimp only at hread
    rw [atoi_field hid', Int.toNat_of_nonneg hid.1] at hread
    cases h₂ : readFull 10 request₁ with
    | error | hang | undefined => simp [h₂] at hread
    | ok vessel₂ request₂ =>
      have hd₂ := delivered_of_readFull h₂
      rw [hd₂] at harrives₁
      obtain ⟨rfl, harrives₂⟩ :=
        field_of_prefix ((length_readFull h₂).trans hlen'.symm) harrives₁
      rw [h₂] at hread
      dsimp only at hread
      rw [atoi_field (by omega), if_neg (by omega)] at hread
      rw [if_neg (by omega : ¬ (path.length : Int) = -1), Int.toNat_natCast] at hread
      split_ifs at hread with hmalloc
      · simp at hread
      · cases h₃ : readFull path.length request₂ with
        | error | hang | undefined => simp [h₃] at hread
        | ok bytes request₃ =>
          have hd₃ := delivered_of_readFull h₃
          rw [hd₃] at harrives₂
          obtain ⟨rfl, hrest⟩ :=
            field_of_prefix (q := []) (length_readFull h₃) (by simpa using harrives₂)
          obtain ⟨rfl, -⟩ : id = id' ∧ cstr bytes = path' := by simpa [h₃] using hread
          refine ⟨rfl, ?_, by simpa using fun h => hmalloc (Or.inl h)⟩
          rw [hd₁, hd₂, hd₃, List.prefix_nil.1 hrest, List.append_nil]

end Request

/-! ## Where a worker fails -/

section Exits

variable {env : WorkerEnv} {fmt : Printing} {fuel : Nat}

theorem not_fails_sendResult (man : ForksManager) (ret id : Int) {result : Nat}
    (hresult : result ≠ 0) :
    ¬ (⟨ret, id, (forksSendResult env man result).sent⟩ : ChildExit).Fails := by
  intro h
  obtain ⟨d, sent, heq⟩ := h
  simp only [forksSendResult, if_neg hresult, List.cons.injEq, Sent.mk.injEq] at heq
  exact hresult heq.1.1

theorem finish_ret {file : Bytes} {man : ForksManager} {tre : Tree State} {x : WorkerExit}
    (h : forksFinish env fmt fuel file man tre = some x) : x.ret = 0 := by
  rw [forksFinish] at h
  dsimp only at h
  generalize forksSendResult env man.ticked.ticked (if env.done man.ticked.tick then 2 else 1) =
    man' at h
  split_ifs at h
  · obtain rfl := Option.some.inj h
    rfl
  · obtain ⟨report, -, rfl⟩ := Option.map_eq_some_iff.1 h
    rfl
  · obtain rfl := Option.some.inj h
    rfl

/-- What `forks_read_progress` decides. -/
theorem forksAdd_exit {id : Int} {path file : Bytes} {root : Option Entries} {x : WorkerExit}
    (h : forksAdd env fmt fuel id path root file = some x) :
    (x.ret = 0 ∧ Accepted fuel file) ∨ (x.ret = -1 ∧ ¬ Accepted fuel file) ∨
      ¬ (⟨x.ret, id, x.sent⟩ : ChildExit).Fails := by
  rw [forksAdd] at h
  cases hprogress : forksReadProgress fuel file with
  | none => simp [hprogress] at h
  | some res =>
    obtain ⟨progress, tre⟩ := res
    have haccepted : Accepted fuel file ↔ progress = 0 := by
      simp [Accepted, hprogress]
    rw [hprogress] at h
    dsimp only at h
    rw [haccepted]
    split_ifs at h with hneg hpos
    · obtain rfl := Option.some.inj h
      exact Or.inr (Or.inl ⟨rfl, by omega⟩)
    · obtain rfl := Option.some.inj h
      exact Or.inr (Or.inr (not_fails_sendResult _ _ _ (by decide)))
    · left
      refine ⟨?_, by omega⟩
      -- `forks_solve` is reached, and whatever comes of it the worker returns 0.
      cases hsolve : forksSolve env fuel ⟨id, path, 0, 0, 0, 0, []⟩ tre root with
      | none => simp [hsolve] at h
      | some solved =>
        obtain ⟨ret, man, tre'⟩ := solved
        rw [hsolve] at h
        dsimp only at h
        split_ifs at h
        · obtain rfl := Option.some.inj h
          rfl
        · exact finish_ret h

/-- A worker that returns 0 ends. -/
theorem contained_of_ret_zero {id : Int} (inh : Inherited) {x : ChildExit} (hret : x.ret = 0)
    (hid : x.id = id) : Contained id inh x where
  ends := by simp [afterForksAdd, hret]
  noAccept := by simp [afterForksAdd, hret]
  noSigterm target h := by simp [afterForksAdd, hret] at h
  reports := hid

/-- One that returns -1 sends `SIGTERM` to its group. -/
theorem not_contained_of_ret_neg {id : Int} (inh : Inherited) {x : ChildExit} (hret : x.ret = -1) :
    ¬ Contained id inh x := by
  intro h
  have hgroup := h.noSigterm .group (by simp [afterForksAdd, hret])
  exact absurd hgroup (by simp)

/-- **A failure is contained exactly when it is one of `forks_solve`**: the whole request has
arrived and there was memory for its path, the pid was sent, and the file was opened and not
rejected. -/
theorem contained_iff {id : Int} {path : Bytes} (hid : 0 ≤ id ∧ FitsInt id)
    (hpath : path.length + 1 < 2 ^ 31) {child : ChildEnv}
    (harrives : delivered child.request <+: forkRequest id path) {root : Option Entries}
    {x : ChildExit} (h : forksAddChild env fmt fuel child root = some x) (hfails : x.Fails)
    (inh : Inherited) :
    Contained id inh x ↔
      delivered child.request = forkRequest id path ∧ child.malloc = true ∧
        child.sendsPid = true ∧ ∃ file, child.file = some file ∧ Accepted fuel file := by
  rw [forksAddChild] at h
  cases hread : forksReadPath child.junk child.malloc child.request with
  | none => simp [hread] at h
  | some res =>
    obtain ⟨ret, id', path'⟩ := res
    obtain ⟨hzero, hfailed⟩ := forksReadPath_spec hid hpath harrives hread
    rw [hread] at h
    dsimp only at h
    by_cases hret : ret = 0
    · obtain ⟨rfl, hwhole, hmalloc⟩ := hzero hret
      rw [if_neg (by simp [hret])] at h
      by_cases hpid : child.sendsPid = false
      · rw [if_pos hpid] at h
        obtain rfl := Option.some.inj h
        refine iff_of_false (not_contained_of_ret_neg inh rfl) ?_
        intro hcond
        simp [hpid] at hcond
      · rw [if_neg hpid] at h
        cases hfile : child.file with
        | none =>
          rw [hfile] at h
          obtain rfl := Option.some.inj h
          refine iff_of_false (not_contained_of_ret_neg inh rfl) ?_
          simp
        | some file =>
          rw [hfile] at h
          obtain ⟨exit, hadd, rfl⟩ := Option.map_eq_some_iff.1 h
          rcases forksAdd_exit hadd with ⟨hexit, haccepted⟩ | ⟨hexit, hrejected⟩ | hno
          · exact iff_of_true (contained_of_ret_zero inh hexit rfl)
              ⟨hwhole, hmalloc, by simpa using hpid, file, rfl, haccepted⟩
          · refine iff_of_false (not_contained_of_ret_neg inh hexit) ?_
            intro hcond
            obtain ⟨-, -, -, file', hfile', haccepted⟩ := hcond
            obtain rfl := Option.some.inj hfile'
            exact hrejected haccepted
          · exact absurd hfails hno
    · rw [if_pos hret] at h
      obtain rfl := Option.some.inj h
      refine iff_of_false (not_contained_of_ret_neg inh rfl) ?_
      intro hcond
      rcases hfailed hret with hpart | hmalloc
      · exact hpart hcond.1
      · simp [hmalloc] at hcond

end Exits

/-! ### Four workers for `/a`, started with id 7 -/

def quietWorker : WorkerEnv := ⟨none, none, fun _ => 0, fun _ => true⟩

def noText : Printing := ⟨fun _ => [], fun _ _ => []⟩

/-- Its request arrives, and its file is empty. -/
def childOfSeven : ChildEnv :=
  ⟨99, true, ofChunks [forkRequest 7 (str "/a")], true, some []⟩

/-- `fts_open` fails. -/
theorem contained_iff_seven :
    Contained 7 ⟨1, false⟩ ⟨0, 7, [⟨0, 0, 0, true⟩]⟩ ↔
      delivered childOfSeven.request = forkRequest 7 (str "/a") ∧ childOfSeven.malloc = true ∧
        childOfSeven.sendsPid = true ∧
          ∃ file, childOfSeven.file = some file ∧ Accepted 9 file := by
  have hrun : forksAddChild quietWorker noText 9 childOfSeven none =
      some ⟨0, 7, [⟨0, 0, 0, true⟩]⟩ := by decide +kernel
  have harrives : delivered childOfSeven.request = forkRequest 7 (str "/a") := by
    simp [childOfSeven, ofChunks, delivered]
  exact contained_iff (by decide) (by decide) (harrives ▸ List.prefix_refl _) hrun
    ⟨true, [], rfl⟩ ⟨1, false⟩

/-- **A failing worker stops everything.** Its request cannot be read, its pid cannot be sent, or
its file is rejected: it sends `SIGTERM` to its group and then waits for ever for children it does
not have. Where the id could not be read, the message carries whatever `id` held. -/
theorem failure_not_contained :
    let unread := { childOfSeven with request := [.data (str "000"), .error] }
    let unsent := { childOfSeven with sendsPid := false }
    let rejected := { childOfSeven with file := some (str "0") }
    let calls : List Call := [.sigterm .self, .sigterm .group, .spin]
    (∃ x, forksAddChild quietWorker noText 9 unread none = some x ∧ x.id = 99 ∧
        afterForksAdd ⟨1, false⟩ x.ret = calls ∧ ¬ Contained 7 ⟨1, false⟩ x) ∧
      (∃ x, forksAddChild quietWorker noText 9 unsent none = some x ∧ x.id = 7 ∧
        afterForksAdd ⟨1, false⟩ x.ret = calls ∧ ¬ Contained 7 ⟨1, false⟩ x) ∧
      ∃ x, forksAddChild quietWorker noText 9 rejected none = some x ∧ x.id = 7 ∧
        afterForksAdd ⟨1, false⟩ x.ret = calls ∧ ¬ Contained 7 ⟨1, false⟩ x := by
  intro unread unsent rejected calls
  refine ⟨⟨⟨-1, 99, [⟨0, 0, 0, true⟩]⟩, ?_, rfl, rfl, not_contained_of_ret_neg _ rfl⟩,
    ⟨⟨-1, 7, [⟨0, 0, 0, true⟩]⟩, ?_, rfl, rfl, not_contained_of_ret_neg _ rfl⟩,
    ⟨-1, 7, [⟨0, 0, 0, true⟩]⟩, ?_, rfl, rfl, not_contained_of_ret_neg _ rfl⟩
  all_goals decide +kernel

end DiskAnalyzer
