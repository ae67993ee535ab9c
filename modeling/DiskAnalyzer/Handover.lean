import DiskAnalyzer.Applied
import DiskAnalyzer.Lib.Run

/-!
# A request, from `fork_request` to its worker

Any number of calls of `fork_request` run side by side, each on a connection of its own. The fork
manager accepts the connections in any order and forks a worker for each, which inherits the
descriptor, reads the request and sends its pid back.

* `Taken`: a connection that has been accepted. Nothing makes it acceptable again, so no two workers
  hold the same one (`Single`).
* `Link`: what a worker and the call on the other end of its connection have of each other. Only
  the two of them move it.
* `exact_of_reachable`: what a worker decodes, and which worker a pid names, in every state of every
  run.

The kernel gives a new process no pid of a process that exists; the pid of one that has been waited
for may come back.
-/

namespace DiskAnalyzer.Handover

open Lts ByteStream Decimal

/-- What `fork_request` is called with. -/
structure Request where
  id : Int
  path : Bytes
  inRange : InRange id
  cString : 0 ∉ path

/-- What is sent of `request`: up to its `strlen`. -/
def Request.message (r : Request) : Bytes := cstr (forkRequest r.id r.path)

/-- `forks_send_pid`: the ten characters that are sent. -/
def pidMessage (pid : Nat) : Bytes := snprintf 11 (printWidth 10 pid)

/-- `fork_request`. -/
inductive ClientPc where
  | idle
  /-- Connected, `pos` bytes sent. -/
  | sending (pos : Nat)
  | reading
  | returned (ret : Int)
  deriving DecidableEq, Repr

/-- A call of `fork_request` and its connection. -/
structure Exchange where
  client : ClientPc
  /-- `anal->pid`, once this call has set it. -/
  pid : Option Int
  request : Channel
  reply : Channel
  /-- Connected, and not accepted. -/
  queued : Bool
  deriving DecidableEq, Repr

/-- `forks_add` in the worker. -/
inductive WorkerPc where
  /-- In `forks_read_path`. -/
  | reading
  /-- In `forks_send_pid`. -/
  | sending (pos : Nat)
  /-- Behind it, or failed. -/
  | on
  /-- Terminated, and not waited for. -/
  | exited
  | reaped
  deriving DecidableEq, Repr

structure Worker (κ : Type) where
  /-- Its copy of `man->connection.client_fd`. -/
  fd : κ
  pid : Nat
  pc : WorkerPc
  /-- What `forks_read_path` has returned, and what it has left in `man->id` and `man->path`. -/
  read : Option (Int × Int × Bytes)
  deriving DecidableEq, Repr

/-- `do_forks_manager`. -/
inductive ManagerPc (κ : Type) where
  | accepting
  /-- `accept` has returned `fd`. -/
  | forking (fd : κ)
  | stopped
  deriving DecidableEq, Repr

/-- The calls are named by `κ`, the workers by `ω`. -/
structure State (κ ω : Type) where
  manager : ManagerPc κ
  call : κ → Exchange
  worker : ω → Option (Worker κ)

variable {κ ω : Type}

def start : State κ ω :=
  ⟨.accepting, fun _ => ⟨.idle, none, .empty, .empty, false⟩, fun _ => none⟩

inductive Event (κ ω : Type) where
  | connect (c : κ)
  /-- `send` takes `n` bytes of the request. -/
  | send (c : κ) (n : Nat)
  /-- A chunk of the request arrives. -/
  | arrive (c : κ) (n : Nat)
  | accept (c : κ)
  | fork (w : ω) (pid : Nat)
  | forkFails
  /-- `forks_read_path` returns; its last `read` has failed if `broken`. -/
  | readPath (w : ω) (junk : Int) (malloc broken : Bool)
  /-- `send` takes `n` characters of the pid. -/
  | sendPid (w : ω) (n : Nat)
  | sendPidFails (w : ω)
  /-- A chunk of the pid arrives. -/
  | arriveBack (c : κ) (n : Nat)
  | readPid (c : κ)
  /-- `socket`, `connect`, `send` or `read` fails, and `fork_request` returns 1. -/
  | fail (c : κ)
  | exit (w : ω)
  /-- `wait` returns this worker. -/
  | wait (w : ω)
  | stop
  deriving DecidableEq, Repr

section Exec

variable [DecidableEq κ] [DecidableEq ω]

def State.setCall (s : State κ ω) (c : κ) (y : Exchange) : State κ ω :=
  { s with call := Function.update s.call c y }

def State.setWorker (s : State κ ω) (w : ω) (x : Worker κ) : State κ ω :=
  { s with worker := Function.update s.worker w (some x) }

section Fields

variable (s : State κ ω) (c : κ) (y : Exchange)

omit [DecidableEq ω]

@[simp] theorem manager_setCall : (s.setCall c y).manager = s.manager := rfl
@[simp] theorem worker_setCall : (s.setCall c y).worker = s.worker := rfl
@[simp] theorem call_setCall_self : (s.setCall c y).call c = y := Function.update_self ..
@[simp] theorem call_setCall_ne {c' : κ} (h : c' ≠ c) : (s.setCall c y).call c' = s.call c' :=
  Function.update_of_ne h ..

theorem setCall_self : s.setCall c (s.call c) = s := by
  rw [State.setCall, Function.update_eq_self]

end Fields

section Fields

variable (s : State κ ω) (w : ω) (x : Worker κ)

omit [DecidableEq κ]

@[simp] theorem manager_setWorker : (s.setWorker w x).manager = s.manager := rfl
@[simp] theorem call_setWorker : (s.setWorker w x).call = s.call := rfl
@[simp] theorem worker_setWorker_self : (s.setWorker w x).worker w = some x :=
  Function.update_self ..
@[simp] theorem worker_setWorker_ne {v : ω} (h : v ≠ w) :
    (s.setWorker w x).worker v = s.worker v := Function.update_of_ne h ..

end Fields

/-- What the reads of a worker have met. -/
def source (ch : Channel) (broken : Bool) : Source :=
  ofChunks ch.arrived ++ if broken then [.error] else []

/-- The step of a worker that is there. -/
def execWorker (s : State κ ω) (w : ω) (x : Worker κ) : Event κ ω → Option (State κ ω)
  | .readPath _ junk malloc broken =>
    if x.pc = .reading then
      (forksReadPath junk malloc (source (s.call x.fd).request broken)).map fun r =>
        s.setWorker w { x with pc := if r.1 = 0 then .sending 0 else .on, read := some r }
    else none
  | .sendPid _ n =>
    match x.pc with
    | .sending pos =>
      let y := s.call x.fd
      if n ≤ 10 - pos then
        some ((s.setCall x.fd { y with reply := y.reply.send (pidMessage x.pid) pos n }).setWorker w
          { x with pc := if pos + n = 10 then .on else .sending (pos + n) })
      else none
    | _ => none
  | .sendPidFails _ =>
    match x.pc with
    | .sending _ => some (s.setWorker w { x with pc := .on })
    | _ => none
  | .exit _ =>
    if x.pc ≠ .exited ∧ x.pc ≠ .reaped then some (s.setWorker w { x with pc := .exited }) else none
  | .wait _ => if x.pc = .exited then some (s.setWorker w { x with pc := .reaped }) else none
  | _ => none

variable (req : κ → Request)

/-- One step. -/
def exec (s : State κ ω) (e : Event κ ω) : Option (State κ ω) :=
  match e with
  | .connect c =>
    let y := s.call c
    if y.client = .idle then some (s.setCall c { y with client := .sending 0, queued := true })
    else none
  | .send c n =>
    let y := s.call c
    let msg := (req c).message
    match y.client with
    | .sending pos =>
      if n ≤ msg.length - pos then
        some (s.setCall c { y with
          client := if pos + n = msg.length then .reading else .sending (pos + n)
          request := y.request.send msg pos n })
      else none
    | _ => none
  | .arrive c n =>
    let y := s.call c
    if 0 < n ∧ n ≤ y.request.flight.length then
      some (s.setCall c { y with request := y.request.arrive n })
    else none
  | .accept c =>
    let y := s.call c
    if s.manager = .accepting ∧ y.queued then
      some ({ s with manager := .forking c }.setCall c { y with queued := false })
    else none
  | .fork w pid =>
    match s.manager with
    | .forking fd =>
      if s.worker w = none then
        some ({ s with manager := .accepting }.setWorker w ⟨fd, pid, .reading, none⟩)
      else none
    | _ => none
  | .forkFails =>
    match s.manager with
    | .forking _ => some { s with manager := .stopped }
    | _ => none
  | .arriveBack c n =>
    let y := s.call c
    if 0 < n ∧ n ≤ y.reply.flight.length then
      some (s.setCall c { y with reply := y.reply.arrive n })
    else none
  | .readPid c =>
    let y := s.call c
    if y.client = .reading then
      match forkRequestPid (ofChunks y.reply.arrived) with
      | .ok pid _ => some (s.setCall c { y with client := .returned 0, pid := some pid })
      | _ => none
    else none
  | .fail c =>
    let y := s.call c
    match y.client with
    | .returned _ => none
    | _ => some (s.setCall c { y with client := .returned 1 })
  | .stop => if s.manager = .accepting then some { s with manager := .stopped } else none
  | .readPath w .. | .sendPid w _ | .sendPidFails w | .exit w | .wait w =>
    (s.worker w).bind fun x => execWorker s w x e

/-- What the kernel sees to: a new process gets a positive pid that no process has. -/
def Granted (s : State κ ω) : Event κ ω → Prop
  | .fork _ pid => 0 < pid ∧ pid < 2 ^ 31 ∧
      ∀ w x, s.worker w = some x → x.pid = pid → x.pc = .reaped
  | _ => True

instance [Fintype ω] (s : State κ ω) (e : Event κ ω) : Decidable (Granted s e) :=
  match e with
  | .fork _ pid => inferInstanceAs (Decidable (0 < pid ∧ pid < 2 ^ 31 ∧
      ∀ w, ∀ x ∈ s.worker w, x.pid = pid → x.pc = .reaped))
  | .connect _ | .send _ _ | .arrive _ _ | .accept _ | .forkFails | .readPath .. | .sendPid _ _
  | .sendPidFails _ | .arriveBack _ _ | .readPid _ | .fail _ | .exit _ | .wait _ | .stop =>
    inferInstanceAs (Decidable True)

/-- The steps in any order. -/
def system : System (State κ ω) (Event κ ω) :=
  System.guard ⟨fun s => s = start, fun s e s' => exec req s e = some s'⟩ Granted

end Exec

/-! ## What each step can do -/

/-- A step of `fork_request`, or of the network below its connection. -/
inductive CallMove (msg : Bytes) (y : Exchange) : Exchange → Prop
  | connect : y.client = .idle → CallMove msg y { y with client := .sending 0, queued := true }
  | send (pos n : Nat) : y.client = .sending pos → n ≤ msg.length - pos →
      CallMove msg y { y with
        client := if pos + n = msg.length then .reading else .sending (pos + n)
        request := y.request.send msg pos n }
  | arrive (n : Nat) : CallMove msg y { y with request := y.request.arrive n }
  | arriveBack (n : Nat) : CallMove msg y { y with reply := y.reply.arrive n }
  | readPid (pid : Int) (rest : Source) : y.client = .reading →
      forkRequestPid (ofChunks y.reply.arrived) = .ok pid rest →
      CallMove msg y { y with client := .returned 0, pid := some pid }
  | fail : CallMove msg y { y with client := .returned 1 }

/-- A step of a worker, with what it does to its connection. -/
inductive WorkerMove (x : Worker κ) (y : Exchange) : Worker κ → Exchange → Prop
  | readPath (junk : Int) (malloc broken : Bool) (r : Int × Int × Bytes) : x.pc = .reading →
      forksReadPath junk malloc (source y.request broken) = some r →
      WorkerMove x y { x with pc := if r.1 = 0 then .sending 0 else .on, read := some r } y
  | sendPid (pos n : Nat) : x.pc = .sending pos → n ≤ 10 - pos →
      WorkerMove x y { x with pc := if pos + n = 10 then .on else .sending (pos + n) }
        { y with reply := y.reply.send (pidMessage x.pid) pos n }
  | sendPidFails (pos : Nat) : x.pc = .sending pos → WorkerMove x y { x with pc := .on } y
  | exit : x.pc ≠ .reaped → WorkerMove x y { x with pc := .exited } y
  | wait : x.pc = .exited → WorkerMove x y { x with pc := .reaped } y

section Moves

variable [DecidableEq κ] [DecidableEq ω]

inductive Move (req : κ → Request) (s : State κ ω) : State κ ω → Prop
  | call (c : κ) (y : Exchange) : CallMove (req c).message (s.call c) y → Move req s (s.setCall c y)
  | worker (w : ω) (x x' : Worker κ) (y : Exchange) : s.worker w = some x →
      WorkerMove x (s.call x.fd) x' y → Move req s ((s.setCall x.fd y).setWorker w x')
  | accept (c : κ) : (s.call c).queued = true →
      Move req s ({ s with manager := .forking c }.setCall c { s.call c with queued := false })
  | fork (w : ω) (pid : Nat) (fd : κ) : s.manager = .forking fd → s.worker w = none →
      0 < pid → pid < 2 ^ 31 → (∀ v x, s.worker v = some x → x.pid = pid → x.pc = .reaped) →
      Move req s ({ s with manager := .accepting }.setWorker w ⟨fd, pid, .reading, none⟩)
  | stop : Move req s { s with manager := .stopped }

variable {req : κ → Request} {s s' : State κ ω} {e : Event κ ω}

theorem move_of_execWorker {w : ω} {x : Worker κ} (hx : s.worker w = some x)
    (h : execWorker s w x e = some s') : Move req s s' := by
  -- A step that leaves the connection alone sets it to what it is.
  have hquiet : ∀ x', WorkerMove x (s.call x.fd) x' (s.call x.fd) →
      Move req s (s.setWorker w x') := by
    intro x' hmove
    have : Move req s _ := .worker w x x' _ hx hmove
    rwa [setCall_self] at this
  unfold execWorker at h
  split at h
  · split_ifs at h with hpc
    obtain ⟨r, hread, rfl⟩ := Option.map_eq_some_iff.1 h
    exact hquiet _ (.readPath _ _ _ r hpc hread)
  · split at h
    · obtain ⟨hn, h⟩ := Option.ite_none_right_eq_some.1 h
      obtain rfl := Option.some.inj h
      exact .worker w x _ _ hx (.sendPid _ _ ‹_› hn)
    · contradiction
  · split at h
    · obtain rfl := Option.some.inj h
      exact hquiet _ (.sendPidFails _ ‹_›)
    · contradiction
  · split_ifs at h with hpc
    obtain rfl := Option.some.inj h
    exact hquiet _ (.exit hpc.2)
  · split_ifs at h with hpc
    obtain rfl := Option.some.inj h
    exact hquiet _ (.wait hpc)
  · contradiction

theorem move_of_step (h : (system req).step s e s') : Move req s s' := by
  obtain ⟨hexec, hgranted⟩ := h
  change exec req s e = some s' at hexec
  cases e with
  | connect c =>
    simp only [exec] at hexec
    split_ifs at hexec with hidle
    obtain rfl := Option.some.inj hexec
    exact .call c _ (.connect hidle)
  | send c n =>
    simp only [exec] at hexec
    split at hexec
    · obtain ⟨hn, hexec⟩ := Option.ite_none_right_eq_some.1 hexec
      obtain rfl := Option.some.inj hexec
      exact .call c _ (.send _ n ‹_› hn)
    · contradiction
  | arrive c n =>
    simp only [exec] at hexec
    split_ifs at hexec
    obtain rfl := Option.some.inj hexec
    exact .call c _ (.arrive n)
  | accept c =>
    simp only [exec] at hexec
    split_ifs at hexec with hc
    obtain rfl := Option.some.inj hexec
    exact .accept c hc.2
  | fork w pid =>
    simp only [exec] at hexec
    split at hexec
    · split_ifs at hexec with hnone
      obtain rfl := Option.some.inj hexec
      exact .fork w pid _ ‹_› hnone hgranted.1 hgranted.2.1 hgranted.2.2
    · contradiction
  | forkFails =>
    simp only [exec] at hexec
    split at hexec
    · obtain rfl := Option.some.inj hexec
      exact .stop
    · contradiction
  | arriveBack c n =>
    simp only [exec] at hexec
    split_ifs at hexec
    obtain rfl := Option.some.inj hexec
    exact .call c _ (.arriveBack n)
  | readPid c =>
    simp only [exec] at hexec
    split_ifs at hexec with hreading
    split at hexec
    · obtain rfl := Option.some.inj hexec
      exact .call c _ (.readPid _ _ hreading ‹_›)
    · contradiction
  | fail c =>
    simp only [exec] at hexec
    split at hexec
    · contradiction
    · obtain rfl := Option.some.inj hexec
      exact .call c _ .fail
  | stop =>
    simp only [exec] at hexec
    split_ifs at hexec
    obtain rfl := Option.some.inj hexec
    exact .stop
  | readPath w | sendPid w | sendPidFails w | exit w | wait w =>
    obtain ⟨x, hx, hstep⟩ := Option.bind_eq_some_iff.1 hexec
    exact move_of_execWorker hx hstep

end Moves

/-! ## The bytes -/

section Bytes

variable {r : Request}

theorem Request.fitsId (r : Request) : 0 ≤ r.id ∧ FitsInt r.id := by
  have hid := r.inRange
  unfold InRange ID_MAX at hid
  unfold FitsInt
  omega

/-- A request has no NUL in it. -/
theorem Request.message_eq (r : Request) (hshort : r.path.length < 2 ^ 31) :
    r.message = forkRequest r.id r.path := by
  rw [message, cstr_eq_self]
  intro h
  rw [forkRequest_eq r.fitsId hshort, List.mem_append, List.mem_append] at h
  rcases h with h | h | h
  · exact zero_notMem_printWidth _ _ h
  · exact zero_notMem_printWidth _ _ h
  · exact r.cString h

/-- **The whole request is decoded.** -/
theorem Request.read (hshort : r.path.length + 1 < 2 ^ 31) {request : Source}
    (h : delivered request = r.message) (junk : Int) :
    forksReadPath junk true request = some (0, r.id, r.path) := by
  rw [r.message_eq (by omega)] at h
  rw [forksReadPath_whole r.fitsId hshort h, cstr_eq_self r.cString]

theorem delivered_source (ch : Channel) (broken : Bool) :
    delivered (source ch broken) = ch.arrived.flatten := by
  rw [source, ofChunks]
  induction ch.arrived with
  | nil => cases broken <;> rfl
  | cons c cs ih => rw [List.map_cons, List.cons_append, delivered, ih, List.flatten_cons]

/-- Of a request of which some bytes arrive, nothing else is decoded. -/
theorem decoded_of_prefix (hshort : r.path.length + 1 < 2 ^ 31) {ch : Channel}
    (harrives : ch.arrived.flatten <+: r.message) {junk : Int} {malloc broken : Bool}
    {a : Int × Int × Bytes} (hread : forksReadPath junk malloc (source ch broken) = some a)
    (hret : a.1 = 0) : a = (0, r.id, r.path) := by
  obtain ⟨ret, id, path⟩ := a
  have hmsg := r.message_eq (by omega)
  rw [hmsg, ← delivered_source ch broken] at harrives
  obtain ⟨-, hwhole, rfl⟩ := (forksReadPath_spec r.fitsId hshort harrives hread).1 hret
  rw [← hmsg] at hwhole
  rw [Request.read hshort hwhole] at hread
  exact (Option.some.inj hread).symm

/-- One byte more, and the length has no room for the NUL. -/
theorem forksReadPath_long (hlong : r.path.length + 1 = 2 ^ 31) {cs : List Bytes}
    (h : cs.flatten = r.message) (junk : Int) (malloc : Bool) :
    forksReadPath junk malloc (ofChunks cs) = none := by
  have hlen := length_field (n := r.id.toNat) (by
    have hlt := r.fitsId.2.2
    omega)
  have hlen' := length_field (n := r.path.length) (by omega)
  rw [r.message_eq (by omega), forkRequest_eq r.fitsId (by omega)] at h
  have h20 : 20 ≤ cs.flatten.length := by
    rw [h, List.length_append, List.length_append]
    omega
  have hnumber : longNumber 10 cs.flatten = r.path.length := by
    rw [longNumber, h, List.drop_left' hlen, List.take_left' hlen', atoi_field (by omega)]
  obtain ⟨cs', -, hread⟩ := forksReadPath_numbers junk malloc h20
  rw [hread, hnumber, if_pos (by omega)]

theorem pidMessage_eq {pid : Nat} (hpid : pid < 2 ^ 31) : pidMessage pid = printWidth 10 pid := by
  have hlen := length_field hpid
  rw [pidMessage, snprintf, List.take_of_length_le]
  omega

theorem length_pidMessage {pid : Nat} (hpid : pid < 2 ^ 31) : (pidMessage pid).length = 10 := by
  rw [pidMessage_eq hpid, length_field hpid]

/-- The pid is read once it is there. -/
theorem forkRequestPid_whole {pid : Nat} (hpid : pid < 2 ^ 31) {cs : List Bytes}
    (h : cs.flatten = pidMessage pid) :
    ∃ rest, forkRequestPid (ofChunks cs) = .ok pid rest := by
  rw [pidMessage_eq hpid] at h
  obtain ⟨cs', hread, -, hnum⟩ := readField_chunks (n := pid) ⟨by omega, by omega, by omega⟩
    (h.trans (List.append_nil _).symm)
  refine ⟨ofChunks cs', ?_⟩
  rw [forkRequestPid, hread, Result.ok_bind, hnum]

theorem field_of_readPid {cs : List Bytes} {p : Int} {rest : Source}
    (h : forkRequestPid (ofChunks cs) = .ok p rest) :
    ∃ v d, cs.flatten = v ++ d ∧ v.length = 10 ∧ p = atoi (cstr v) := by
  rw [forkRequestPid] at h
  cases hread : readFull 10 (ofChunks cs) with
  | ok v s =>
    rw [hread, Result.ok_bind, Result.ok.injEq] at h
    have hfront := delivered_of_readFull hread
    rw [delivered_ofChunks] at hfront
    exact ⟨v, delivered s, hfront, length_readFull hread, h.1.symm⟩
  | error | hang | undefined => simp [hread] at h

/-- And nothing else is. -/
theorem pid_of_prefix {pid : Nat} (hpid : pid < 2 ^ 31) {cs : List Bytes}
    (harrives : cs.flatten <+: pidMessage pid) {p : Int} {rest : Source}
    (h : forkRequestPid (ofChunks cs) = .ok p rest) : p = pid := by
  obtain ⟨v, d, hfront, hlen, rfl⟩ := field_of_readPid h
  rw [hfront, ← List.append_nil (pidMessage pid)] at harrives
  obtain ⟨rfl, -⟩ := field_of_prefix (hlen.trans (length_pidMessage hpid).symm) harrives
  rw [pidMessage_eq hpid, atoi_field hpid]

end Bytes

/-! ## A connection is accepted once -/

/-- Accepted, now or before. -/
def Exchange.Taken (y : Exchange) : Prop := y.client ≠ .idle ∧ y.queued = false

section Calls

variable {msg : Bytes} {x x' : Worker κ} {y y' : Exchange}

theorem CallMove.taken (h : CallMove msg y y') (ht : y.Taken) : y'.Taken := by
  cases h with
  | connect hidle => exact absurd hidle ht.1
  | send pos n hpc =>
    refine ⟨?_, ht.2⟩
    dsimp only
    split_ifs <;> simp
  | arrive n | arriveBack n => exact ht
  | readPid pid | fail => exact ⟨by simp, ht.2⟩

theorem CallMove.queued (h : CallMove msg y y') (hq : y.queued = true → y.client ≠ .idle) :
    y'.queued = true → y'.client ≠ .idle := by
  cases h with
  | connect => simp
  | send pos n hpc =>
    intro _
    dsimp only
    split_ifs <;> simp
  | arrive n | arriveBack n => exact hq
  | readPid pid | fail => simp

/-- What a worker keeps, and what it leaves alone. -/
theorem WorkerMove.keeps (h : WorkerMove x y x' y') :
    x'.fd = x.fd ∧ x'.pid = x.pid ∧ (x.pc = .reaped → x'.pc = .reaped) ∧
      y' = { y with reply := y'.reply } := by
  cases h with
  | readPath junk malloc broken r hpc => exact ⟨rfl, rfl, fun h => by simp [hpc] at h, rfl⟩
  | sendPid pos n hpc => exact ⟨rfl, rfl, fun h => by simp [hpc] at h, rfl⟩
  | sendPidFails pos hpc => exact ⟨rfl, rfl, fun h => by simp [hpc] at h, rfl⟩
  | exit hpc => exact ⟨rfl, rfl, fun h => absurd h hpc, rfl⟩
  | wait hpc => exact ⟨rfl, rfl, fun _ => rfl, rfl⟩

end Calls

/-- No connection is held twice. -/
structure Single (s : State κ ω) : Prop where
  queued : ∀ c, (s.call c).queued = true → (s.call c).client ≠ .idle
  forking : ∀ c, s.manager = .forking c → (s.call c).Taken
  taken : ∀ w x, s.worker w = some x → (s.call x.fd).Taken ∧ s.manager ≠ .forking x.fd
  unique : ∀ w v x z, s.worker w = some x → s.worker v = some z → x.fd = z.fd → w = v

theorem single_start : Single (start : State κ ω) where
  queued c h := by simp [start] at h
  forking c h := by simp [start] at h
  taken w x h := by simp [start] at h
  unique w v x z h := by simp [start] at h

/-- No two processes that exist have the same pid. -/
def Distinct (s : State κ ω) : Prop :=
  ∀ w v x z, s.worker w = some x → s.worker v = some z → x.pid = z.pid →
    w = v ∨ x.pc = .reaped ∨ z.pc = .reaped

section Steps

variable [DecidableEq κ] [DecidableEq ω] {req : κ → Request} {s s' : State κ ω}

/-- What becomes of a connection. -/
theorem Move.call_cases (h : Move req s s') (c : κ) :
    CallMove (req c).message (s.call c) (s'.call c) ∨ s'.call c = s.call c ∨
      (∃ w x x', s.worker w = some x ∧ x.fd = c ∧ WorkerMove x (s.call c) x' (s'.call c)) ∨
        (s.call c).queued = true ∧ s'.call c = { s.call c with queued := false } := by
  cases h with
  | call c' y hmove =>
    by_cases hc : c = c'
    · subst hc
      left
      rwa [call_setCall_self]
    · right; left
      rw [call_setCall_ne _ _ _ hc]
  | worker w x x' y hx hmove =>
    by_cases hc : c = x.fd
    · subst hc
      right; right; left
      rw [call_setWorker, call_setCall_self]
      exact ⟨w, x, x', hx, rfl, hmove⟩
    · right; left
      rw [call_setWorker, call_setCall_ne _ _ _ hc]
  | accept c' hq =>
    by_cases hc : c = c'
    · subst hc
      right; right; right
      rw [call_setCall_self]
      exact ⟨hq, rfl⟩
    · right; left
      rw [call_setCall_ne _ _ _ hc]
  | fork | stop => exact Or.inr (Or.inl rfl)

theorem Move.taken (h : Move req s s') {c : κ} (ht : (s.call c).Taken) : (s'.call c).Taken := by
  rcases h.call_cases c with hmove | heq | ⟨w, x, x', -, -, hmove⟩ | ⟨hq, -⟩
  · exact hmove.taken ht
  · rwa [heq]
  · rw [hmove.keeps.2.2.2]
    exact ht
  · rw [ht.2] at hq
    contradiction

theorem Move.forking (h : Move req s s') {c : κ} (hc : s'.manager = .forking c) :
    s.manager = .forking c ∨
      (s.call c).queued = true ∧ s'.call c = { s.call c with queued := false } := by
  cases h with
  | call | worker => exact Or.inl hc
  | accept c' hq =>
    obtain rfl := ManagerPc.forking.inj hc
    right
    rw [call_setCall_self]
    exact ⟨hq, rfl⟩
  | fork | stop => exact absurd hc (by simp)

/-- A worker was there, or has just been forked for the connection in hand. -/
theorem Move.worker_cases (h : Move req s s') {w : ω} {x' : Worker κ}
    (hx' : s'.worker w = some x') :
    (∃ x, s.worker w = some x ∧ x'.fd = x.fd ∧ x'.pid = x.pid ∧
        (x.pc = .reaped → x'.pc = .reaped)) ∨
      (s.manager = .forking x'.fd ∧ s'.manager = .accepting ∧
        (∀ v z, s.worker v = some z → z.pid = x'.pid → z.pc = .reaped) ∧
          ∀ v, v ≠ w → s'.worker v = s.worker v) := by
  cases h with
  | call | accept | stop => exact Or.inl ⟨x', hx', rfl, rfl, id⟩
  | worker v x x₁ y hx hmove =>
    left
    by_cases hw : w = v
    · subst hw
      rw [worker_setWorker_self] at hx'
      obtain rfl := Option.some.inj hx'
      exact ⟨x, hx, hmove.keeps.1, hmove.keeps.2.1, hmove.keeps.2.2.1⟩
    · rw [worker_setWorker_ne _ _ _ hw] at hx'
      exact ⟨x', hx', rfl, rfl, id⟩
  | fork v pid fd hm hnone hpos hlt hfree =>
    by_cases hw : w = v
    · subst hw
      rw [worker_setWorker_self] at hx'
      obtain rfl := Option.some.inj hx'
      right
      exact ⟨hm, rfl, hfree, fun v hv => worker_setWorker_ne _ _ _ hv⟩
    · rw [worker_setWorker_ne _ _ _ hw] at hx'
      exact Or.inl ⟨x', hx', rfl, rfl, id⟩

/-- Which holds its connection from then on. -/
theorem Move.worker_stays (h : Move req s s') {w : ω} {x : Worker κ} (hx : s.worker w = some x) :
    ∃ x', s'.worker w = some x' ∧ x'.fd = x.fd := by
  cases h with
  | call | accept | stop => exact ⟨x, hx, rfl⟩
  | worker v x₀ x' y hx₀ hmove =>
    by_cases hw : w = v
    · subst hw
      obtain rfl := Option.some.inj (hx₀.symm.trans hx)
      exact ⟨x', worker_setWorker_self _ _ _, hmove.keeps.1⟩
    · exact ⟨x, (worker_setWorker_ne _ _ _ hw).trans hx, rfl⟩
  | fork v pid fd hm hnone =>
    have hw : w ≠ v := fun h => by simp [← h, hx] at hnone
    exact ⟨x, (worker_setWorker_ne _ _ _ hw).trans hx, rfl⟩

/-- **One step** does not hand out a connection that has been accepted. -/
theorem Move.single (h : Move req s s') (hs : Single s) : Single s' := by
  have htaken : ∀ w x, s'.worker w = some x →
      (s'.call x.fd).Taken ∧ s'.manager ≠ .forking x.fd := by
    intro w x hx
    rcases h.worker_cases hx with ⟨x₀, hx₀, hfd, -⟩ | ⟨hm, hm', -⟩
    · have hold := hs.taken w x₀ hx₀
      rw [hfd]
      refine ⟨h.taken hold.1, ?_⟩
      intro hm
      rcases h.forking hm with hm | ⟨hq, -⟩
      · exact hold.2 hm
      · rw [hold.1.2] at hq
        contradiction
    · exact ⟨h.taken (hs.forking _ hm), by simp [hm']⟩
  refine ⟨?_, ?_, htaken, ?_⟩
  · intro c
    rcases h.call_cases c with hmove | heq | ⟨w, x, x', -, -, hmove⟩ | ⟨-, heq⟩
    · exact hmove.queued (hs.queued c)
    · rw [heq]
      exact hs.queued c
    · rw [hmove.keeps.2.2.2]
      exact hs.queued c
    · simp [heq]
  · intro c hc
    rcases h.forking hc with hc | ⟨hq, heq⟩
    · exact h.taken (hs.forking c hc)
    · rw [heq]
      exact ⟨hs.queued c hq, rfl⟩
  · intro w v x z hx hz hfd
    by_contra hne
    rcases h.worker_cases hx with ⟨x₀, hx₀, hxfd, -⟩ | ⟨hm, -, -, hsame⟩
    · rcases h.worker_cases hz with ⟨z₀, hz₀, hzfd, -⟩ | ⟨hm, -⟩
      · exact hne (hs.unique w v x₀ z₀ hx₀ hz₀ (by rw [← hxfd, hfd, hzfd]))
      · exact (hs.taken w x₀ hx₀).2 (by rw [hm, ← hxfd, hfd])
    · rw [hsame v (Ne.symm hne)] at hz
      exact (hs.taken v z hz).2 (by rw [hm, hfd])

/-- **And gives no pid of a process that exists.** -/
theorem Move.distinct (h : Move req s s') (hs : Distinct s) : Distinct s' := by
  intro w v x z hx hz hpid
  by_cases hne : w = v
  · exact Or.inl hne
  rcases h.worker_cases hx with ⟨x₀, hx₀, -, hxpid, hxpc⟩ | ⟨-, -, hfree, hsame⟩
  · rcases h.worker_cases hz with ⟨z₀, hz₀, -, hzpid, hzpc⟩ | ⟨-, -, hfree, hsame⟩
    · exact (hs w v x₀ z₀ hx₀ hz₀ (by rw [← hxpid, hpid, hzpid])).imp_right (Or.imp hxpc hzpc)
    · rw [hsame w hne] at hx
      exact Or.inr (Or.inl (hfree w x hx hpid))
  · rw [hsame v (Ne.symm hne)] at hz
    exact Or.inr (Or.inr (hfree v z hz hpid.symm))

end Steps

/-! ## The two ends of a connection -/

/-- What a call has sent. -/
structure Sends (r : Request) (y : Exchange) : Prop where
  idle : y.client = .idle → y.request.bytes = []
  sending : ∀ pos, y.client = .sending pos → y.request.bytes = r.message.take pos
  sent : y.request.bytes <+: r.message

/-- What a worker has answered to the call on its connection. -/
structure Link (r : Request) (x : Worker κ) (y : Exchange) : Prop where
  pid : x.pid < 2 ^ 31
  decoded : ∀ a, x.read = some a → a.1 = 0 → a = (0, r.id, r.path)
  fresh : x.pc = .reading → x.read = none
  silent : x.read ≠ some (0, r.id, r.path) → y.reply.bytes = []
  sending : ∀ pos, x.pc = .sending pos →
    x.read = some (0, r.id, r.path) ∧ y.reply.bytes = (pidMessage x.pid).take pos
  reply : y.reply.bytes <+: pidMessage x.pid
  returned : y.client = .returned 0 → x.read = some (0, r.id, r.path) ∧ y.pid = some (x.pid : Int)

/-- No one has answered. -/
structure Unlinked (y : Exchange) : Prop where
  silent : y.reply.bytes = []
  waiting : y.client ≠ .returned 0

section Ends

variable {r : Request} {x x' : Worker κ} {y y' : Exchange}

theorem Sends.congr (h : Sends r y) (hc : y'.client = y.client) (hr : y'.request = y.request) :
    Sends r y' :=
  ⟨by rw [hc, hr]; exact h.idle, by rw [hc, hr]; exact h.sending, by rw [hr]; exact h.sent⟩

theorem CallMove.sends (h : CallMove r.message y y') (hs : Sends r y) : Sends r y' := by
  cases h with
  | connect hidle =>
    refine ⟨fun h => by simp at h, fun pos hpos => ?_, hs.sent⟩
    obtain rfl := ClientPc.sending.inj hpos
    exact hs.idle hidle
  | send pos n hpc hn =>
    have hbytes := Channel.bytes_send (hs.sending pos hpc) n
    refine ⟨fun h => ?_, fun pos' hpos' => ?_, hbytes ▸ List.take_prefix _ _⟩
    · dsimp only at h
      split_ifs at h
    · dsimp only at hpos' ⊢
      split_ifs at hpos'
      obtain rfl := ClientPc.sending.inj hpos'
      exact hbytes
  | arrive n =>
    have hbytes := Channel.bytes_arrive y.request n
    refine ⟨fun h => ?_, fun pos h => ?_, ?_⟩ <;> dsimp only <;> rw [hbytes]
    · exact hs.idle h
    · exact hs.sending pos h
    · exact hs.sent
  | arriveBack n => exact hs.congr rfl rfl
  | readPid pid | fail => exact ⟨fun h => by simp at h, fun pos h => by simp at h, hs.sent⟩

theorem arrived_ne_nil {cs : List Bytes} {p : Int} {rest : Source}
    (h : forkRequestPid (ofChunks cs) = .ok p rest) : cs.flatten ≠ [] := by
  obtain ⟨v, d, hfront, hlen, -⟩ := field_of_readPid h
  intro hnil
  have := congrArg List.length hfront
  rw [hnil, List.length_append, hlen, List.length_nil] at this
  omega

/-- The reply stands, and the call has not come to an end. -/
theorem Link.congr (h : Link r x y) (hr : y'.reply.bytes = y.reply.bytes)
    (hc : y'.client = .returned 0 → y.client = .returned 0 ∧ y'.pid = y.pid) : Link r x y' where
  pid := h.pid
  decoded := h.decoded
  fresh := h.fresh
  silent hread := hr.trans (h.silent hread)
  sending pos hpc := by rw [hr]; exact h.sending pos hpc
  reply := by rw [hr]; exact h.reply
  returned hret := by rw [(hc hret).2]; exact h.returned (hc hret).1

theorem CallMove.link (h : CallMove r.message y y') (hl : Link r x y) : Link r x y' := by
  cases h with
  | connect => exact hl.congr rfl fun h => by simp at h
  | send pos n =>
    refine hl.congr rfl fun h => ?_
    dsimp only at h
    split_ifs at h
  | arrive n => exact hl.congr rfl fun h => ⟨h, rfl⟩
  | arriveBack n => exact hl.congr (Channel.bytes_arrive _ n) fun h => ⟨h, rfl⟩
  | readPid p rest hpc hread =>
    have harrived := y.reply.arrived_prefix
    -- Only a worker that has read its request has answered.
    have hdone : x.read = some (0, r.id, r.path) := by
      by_contra hne
      rw [hl.silent hne] at harrived
      exact arrived_ne_nil hread (List.prefix_nil.1 harrived)
    obtain rfl := pid_of_prefix hl.pid (harrived.trans hl.reply) hread
    exact ⟨hl.pid, hl.decoded, hl.fresh, hl.silent, hl.sending, hl.reply, fun _ => ⟨hdone, rfl⟩⟩
  | fail => exact hl.congr rfl fun h => by simp at h

theorem CallMove.unlinked (h : CallMove r.message y y') (hu : Unlinked y) : Unlinked y' := by
  cases h with
  | connect => exact ⟨hu.silent, by simp⟩
  | send pos n =>
    refine ⟨hu.silent, ?_⟩
    dsimp only
    split_ifs <;> simp
  | arrive n => exact ⟨hu.silent, hu.waiting⟩
  | arriveBack n => exact ⟨(Channel.bytes_arrive _ n).trans hu.silent, hu.waiting⟩
  | readPid p rest hpc hread =>
    have harrived := y.reply.arrived_prefix
    rw [hu.silent] at harrived
    exact absurd (List.prefix_nil.1 harrived) (arrived_ne_nil hread)
  | fail => exact ⟨hu.silent, by simp⟩

/-- A new worker. -/
theorem Unlinked.link (h : Unlinked y) {fd : κ} {pid : Nat} (hpid : pid < 2 ^ 31) :
    Link r ⟨fd, pid, .reading, none⟩ y where
  pid := hpid
  decoded a ha := absurd ha (by simp)
  fresh _ := rfl
  silent _ := h.silent
  sending pos hpc := absurd hpc (by simp)
  reply := h.silent ▸ List.nil_prefix
  returned hret := absurd hret h.waiting

/-- Behind the exchange, a worker goes on. -/
theorem Link.moved (h : Link r x y) {pc : WorkerPc} (hreading : pc ≠ .reading)
    (hsending : ∀ pos, pc ≠ .sending pos) : Link r { x with pc } y where
  pid := h.pid
  decoded := h.decoded
  fresh hpc := absurd hpc hreading
  silent := h.silent
  sending pos hpc := absurd hpc (hsending pos)
  reply := h.reply
  returned := h.returned

/-- **A worker answers what it was sent.** -/
theorem WorkerMove.link (h : WorkerMove x y x' y') (hshort : r.path.length + 1 < 2 ^ 31)
    (hs : Sends r y) (hl : Link r x y) : Link r x' y' := by
  cases h with
  | readPath junk malloc broken a hpc hread =>
    have hnone := hl.fresh hpc
    have hsilent := hl.silent (by simp [hnone])
    have hdecoded : a.1 = 0 → a = (0, r.id, r.path) :=
      decoded_of_prefix hshort (y.request.arrived_prefix.trans hs.sent) hread
    refine ⟨hl.pid, ?_, ?_, fun _ => hsilent, ?_, hl.reply, ?_⟩
    · intro b hb
      obtain rfl := Option.some.inj hb
      exact hdecoded
    · intro h
      dsimp only at h
      split_ifs at h
    · intro pos h
      dsimp only at h ⊢
      split_ifs at h with hret
      obtain rfl := WorkerPc.sending.inj h
      exact ⟨congrArg some (hdecoded hret), hsilent⟩
    · intro h
      have hread := (hl.returned h).1
      rw [hnone] at hread
      contradiction
  | sendPid pos n hpc hn =>
    obtain ⟨hread, hbytes⟩ := hl.sending pos hpc
    have hbytes' := Channel.bytes_send hbytes n
    refine ⟨hl.pid, hl.decoded, ?_, fun h => absurd hread h, ?_, hbytes' ▸ List.take_prefix _ _,
      hl.returned⟩
    · intro h
      dsimp only at h
      split_ifs at h
    · intro pos' h
      dsimp only at h ⊢
      split_ifs at h
      obtain rfl := WorkerPc.sending.inj h
      exact ⟨hread, hbytes'⟩
  | sendPidFails | exit | wait => exact hl.moved (by simp) (by simp)

end Ends

/-- Every call has sent what it was called with, and either a worker answers it or no one has. -/
structure Linked (req : κ → Request) (s : State κ ω) : Prop where
  sends : ∀ c, Sends (req c) (s.call c)
  link : ∀ w x, s.worker w = some x → Link (req x.fd) x (s.call x.fd)
  unlinked : ∀ c, (∀ w x, s.worker w = some x → x.fd ≠ c) → Unlinked (s.call c)

theorem linked_start (req : κ → Request) : Linked req (start : State κ ω) where
  sends c := ⟨fun _ => rfl, fun pos h => by simp [start] at h, List.nil_prefix⟩
  link w x h := by simp [start] at h
  unlinked c _ := ⟨rfl, by simp [start]⟩

section Runs

variable [DecidableEq κ] [DecidableEq ω] {req : κ → Request} {s s' : State κ ω}

theorem Move.sends (h : Move req s s') {c : κ} (hs : Sends (req c) (s.call c)) :
    Sends (req c) (s'.call c) := by
  rcases h.call_cases c with hmove | heq | ⟨w, x, x', -, -, hmove⟩ | ⟨-, heq⟩
  · exact hmove.sends hs
  · rwa [heq]
  · rw [hmove.keeps.2.2.2]
    exact hs.congr rfl rfl
  · rw [heq]
    exact hs.congr rfl rfl

theorem Move.link (h : Move req s s') (hshort : ∀ c, (req c).path.length + 1 < 2 ^ 31)
    (hsingle : Single s) (hs : Linked req s) {v : ω} {z : Worker κ} (hz : s'.worker v = some z) :
    Link (req z.fd) z (s'.call z.fd) := by
  cases h with
  | call c y hmove =>
    have hlink := hs.link v z hz
    by_cases hc : z.fd = c
    · rw [hc] at hlink ⊢
      rw [call_setCall_self]
      exact hmove.link hlink
    · rwa [call_setCall_ne _ _ _ hc]
  | worker w x x' y hx hmove =>
    by_cases hv : v = w
    · subst hv
      rw [worker_setWorker_self] at hz
      obtain rfl := Option.some.inj hz
      rw [hmove.keeps.1, call_setWorker, call_setCall_self]
      exact hmove.link (hshort _) (hs.sends _) (hs.link v x hx)
    · rw [worker_setWorker_ne _ _ _ hv, worker_setCall] at hz
      have hfd : z.fd ≠ x.fd := fun h => hv (hsingle.unique v w z x hz hx h)
      rw [call_setWorker, call_setCall_ne _ _ _ hfd]
      exact hs.link v z hz
  | accept c =>
    have hlink := hs.link v z hz
    by_cases hc : z.fd = c
    · rw [hc] at hlink ⊢
      rw [call_setCall_self]
      exact hlink.congr rfl fun h => ⟨h, rfl⟩
    · rwa [call_setCall_ne _ _ _ hc]
  | fork w pid fd hm hnone hpos hlt =>
    by_cases hv : v = w
    · subst hv
      rw [worker_setWorker_self] at hz
      obtain rfl := Option.some.inj hz
      -- The connection in hand has had no worker.
      have hfree : Unlinked (s.call fd) := by
        refine hs.unlinked fd fun u x hx hfd => (hsingle.taken u x hx).2 ?_
        rw [hm, hfd]
      exact hfree.link hlt
    · rw [worker_setWorker_ne _ _ _ hv] at hz
      exact hs.link v z hz
  | stop => exact hs.link v z hz

theorem Move.unlinked (h : Move req s s') (hs : Linked req s) {c : κ}
    (hc : ∀ w x, s'.worker w = some x → x.fd ≠ c) : Unlinked (s'.call c) := by
  have hnone : ∀ w x, s.worker w = some x → x.fd ≠ c := by
    intro w x hx
    obtain ⟨x', hx', hfd⟩ := h.worker_stays hx
    exact hfd ▸ hc w x' hx'
  have hu := hs.unlinked c hnone
  rcases h.call_cases c with hmove | heq | ⟨w, x, x', hx, hfd, -⟩ | ⟨-, heq⟩
  · exact hmove.unlinked hu
  · rwa [heq]
  · exact absurd hfd (hnone w x hx)
  · rw [heq]
    exact ⟨hu.silent, hu.waiting⟩

/-- **One step** moves a connection at one of its ends. -/
theorem Move.linked (h : Move req s s') (hshort : ∀ c, (req c).path.length + 1 < 2 ^ 31)
    (hsingle : Single s) (hs : Linked req s) : Linked req s' where
  sends c := h.sends (hs.sends c)
  link _ _ hz := h.link hshort hsingle hs hz
  unlinked _ hc := h.unlinked hs hc

end Runs

/-! ## What is handed over -/

section Handed

variable [DecidableEq κ] [DecidableEq ω] {req : κ → Request} {s : State κ ω}

/-- The worker `w` holds the other end of the connection of `c`, and no other does; it has decoded
what `c` was called with, and `c` has its pid. -/
structure HandedTo (req : κ → Request) (s : State κ ω) (c : κ) (w : ω) (x : Worker κ) : Prop where
  worker : s.worker w = some x
  fd : x.fd = c
  only : ∀ v z, s.worker v = some z → z.fd = c → v = w
  read : x.read = some (0, (req c).id, (req c).path)
  pid : (s.call c).pid = some (x.pid : Int)

/-- **The exchange is exact.** -/
structure Exact (req : κ → Request) (s : State κ ω) : Prop where
  /-- A request that has arrived is decoded, … -/
  decodes : ∀ w x, s.worker w = some x →
    (s.call x.fd).request.arrived.flatten = (req x.fd).message → ∀ junk,
      forksReadPath junk true (ofChunks (s.call x.fd).request.arrived) =
        some (0, (req x.fd).id, (req x.fd).path)
  /-- … and nothing else has been. -/
  decoded : ∀ w x a, s.worker w = some x → x.read = some a → a.1 = 0 →
    a = (0, (req x.fd).id, (req x.fd).path)
  /-- A pid that has arrived is read. -/
  replies : ∀ w x, s.worker w = some x →
    (s.call x.fd).reply.arrived.flatten = pidMessage x.pid →
      ∃ rest, forkRequestPid (ofChunks (s.call x.fd).reply.arrived) = .ok x.pid rest
  /-- A call that returns 0 has the pid of the worker of its connection, which no other worker
  beside it has. -/
  handed : ∀ c, (s.call c).client = .returned 0 → ∃ w x, HandedTo req s c w x ∧
    ∀ v z, s.worker v = some z → z.pid = x.pid → v = w ∨ x.pc = .reaped ∨ z.pc = .reaped

theorem kept_of_reachable (hshort : ∀ c, (req c).path.length + 1 < 2 ^ 31)
    (h : (system req).Reachable s) : Single s ∧ Distinct s ∧ Linked req s := by
  refine h.invariant (I := fun s => Single s ∧ Distinct s ∧ Linked req s) ?_ ?_
  · intro s₀ h₀
    rw [show s₀ = start from h₀]
    exact ⟨single_start, fun w v x z hx => by simp [start] at hx, linked_start req⟩
  · intro s e s' hs hstep
    have hmove := move_of_step hstep
    exact ⟨hmove.single hs.1, hmove.distinct hs.2.1, hmove.linked hshort hs.1 hs.2.2⟩

/-- **The fork exchange hands over the request.** In every state of every run. -/
theorem exact_of_reachable (hshort : ∀ c, (req c).path.length + 1 < 2 ^ 31)
    (h : (system req).Reachable s) : Exact req s := by
  obtain ⟨hsingle, hdistinct, hlinked⟩ := kept_of_reachable hshort h
  refine ⟨?_, ?_, ?_, ?_⟩
  · intro w x hx harrived junk
    exact Request.read (hshort _) ((delivered_ofChunks _).trans harrived) junk
  · exact fun w x a hx => (hlinked.link w x hx).decoded a
  · exact fun w x hx harrived => forkRequestPid_whole (hlinked.link w x hx).pid harrived
  · intro c hret
    -- Someone has answered.
    obtain ⟨w, x, hx, rfl⟩ : ∃ w x, s.worker w = some x ∧ x.fd = c := by
      by_contra hnone
      exact (hlinked.unlinked c fun w x hx hfd => hnone ⟨w, x, hx, hfd⟩).waiting hret
    obtain ⟨hread, hpid⟩ := (hlinked.link w x hx).returned hret
    refine ⟨w, x, ⟨hx, rfl, fun v z hz => hsingle.unique v w z x hz hx, hread, hpid⟩, ?_⟩
    intro v z hz hpid
    exact (hdistinct v w z x hz hx hpid).imp_right Or.symm

end Handed

/-! ### Two runs -/

open Lts.System

/-- Two calls, for "/a" and "/bc". -/
def twoRequests : Bool → Request
  | false => ⟨1, str "/a", ⟨by decide, by decide⟩, by decide +kernel⟩
  | true => ⟨2, str "/bc", ⟨by decide, by decide⟩, by decide +kernel⟩

/-- A call sends all its request, in two pieces that are cut otherwise on their way. -/
def requested (c : Bool) : List (Event Bool Bool) :=
  [.connect c, .send c 13, .arrive c 7, .send c (9 + if c then 1 else 0), .arrive c 6,
    .arrive c (9 + if c then 1 else 0)]

/-- The connection of `c` is accepted, and its worker answers. -/
def served (c : Bool) (pid : Nat) : List (Event Bool Bool) :=
  [.accept c, .fork c pid, .readPath c 0 true false, .sendPid c 4, .sendPid c 6]

/-- The pid arrives, in two pieces. -/
def answered (c : Bool) : List (Event Bool Bool) := [.arriveBack c 9, .arriveBack c 1, .readPid c]

/-- The second call is accepted first, and answered last. -/
def crossed : List (Event Bool Bool) :=
  requested false ++ requested true ++ served true 8 ++ served false 7 ++ answered false ++
    answered true

/-- A worker ends before its pid is read, and the next one gets it. -/
def reused : List (Event Bool Bool) :=
  requested false ++ served false 7 ++ [.exit false, .wait false] ++ requested true ++
    served true 7 ++ answered false

def ends (es : List (Event Bool Bool)) : State Bool Bool :=
  followed (exec twoRequests) (fun s e => decide (Granted s e)) start es

theorem reachable_ends {es : List (Event Bool Bool)}
    (h : (follow (exec twoRequests) (fun s e => decide (Granted s e)) start es).isSome) :
    (system twoRequests).Reachable (ends es) :=
  ⟨start, es, rfl, run_followed (fun _ _ _ hstep => hstep) (fun _ _ hok => of_decide_eq_true hok) h⟩

theorem exact_of_reachable_crossed :
    (ends crossed).worker false = some ⟨false, 7, .on, some (0, 1, str "/a")⟩ ∧
      (ends crossed).worker true = some ⟨true, 8, .on, some (0, 2, str "/bc")⟩ ∧
        Exact twoRequests (ends crossed) := by
  refine ⟨by decide +kernel, by decide +kernel, exact_of_reachable ?_ (reachable_ends ?_)⟩
  · intro c
    cases c <;> decide +kernel
  · decide +kernel

/-- A request with a path of `n` bytes. -/
def longRequest (n : Nat) : Request where
  id := 1
  path := List.replicate n 97
  inRange := ⟨by decide, by decide⟩
  cString h := absurd (List.eq_of_mem_replicate h) (by decide)

theorem length_longRequest (n : Nat) : (longRequest n).path.length = n := List.length_replicate

/-- **A pid that comes back, a path that is too long, and no memory for one.** When the first call
returns 0, the pid it has is that of the second worker too. The length of the long path plus 1 is no
`int`. Without memory, `forks_read_path` returns 1. -/
theorem not_exact_reused :
    ((system twoRequests).Reachable (ends reused) ∧
      ((ends reused).call false).client = .returned 0 ∧
      ((ends reused).call false).pid = some 7 ∧
      (ends reused).worker false = some ⟨false, 7, .reaped, some (0, 1, str "/a")⟩ ∧
      (ends reused).worker true = some ⟨true, 7, .on, some (0, 2, str "/bc")⟩) ∧
    (∀ cs, cs.flatten = (longRequest (2 ^ 31 - 1)).message → ∀ junk malloc,
      forksReadPath junk malloc (ofChunks cs) = none) ∧
    forksReadPath 0 false (ofChunks [(twoRequests false).message]) = some (1, 1, []) := by
  refine ⟨⟨reachable_ends (by decide +kernel), ?_⟩, ?_, by decide +kernel⟩
  · refine ⟨?_, ?_, ?_, ?_⟩ <;> decide +kernel
  · intro cs h junk malloc
    refine forksReadPath_long ?_ h junk malloc
    rw [length_longRequest]
    omega

end DiskAnalyzer.Handover
