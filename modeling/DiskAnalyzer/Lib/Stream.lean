import Mathlib.Data.List.Basic

/-!
# Blocking reads from a byte stream

A stream is what successive calls of `read` meet: chunks of data, errors, and behind the last of
them the end of the stream. `read` takes at most as many bytes as it is asked for and leaves the
rest of the chunk; at the end of the stream it returns 0 for ever.

`readFull n` is the usual loop around it: read until `n` bytes have come. It has four outcomes,
since a loop that does not treat 0 as an end never returns there.

* `readFull_chunks`: where enough bytes come, the loop returns them whatever the chunks are, and
  consumes those bytes only.
* `readFull_enough`, `readFull_short`: what it does with any stream.

A `Channel` is where a stream comes from: bytes are sent in pieces, and arrive in pieces cut
otherwise. What has arrived is a prefix of what has been sent (`Channel.arrived_prefix`).
-/

namespace ByteStream

/-- What one `read` meets. -/
inductive Event where
  | data (bytes : List UInt8)
  | error
  deriving DecidableEq

abbrev Source := List Event

/-- The outcome of a reader: a value and what is left of the stream, a reported error, a loop that
never returns, or a use of memory that is not its own. -/
inductive Result (α : Type) where
  | ok (a : α) (s : Source)
  | error
  | hang
  | undefined
  deriving DecidableEq

variable {α β : Type}

namespace Result

/-- Reading on after a value. -/
def bind (r : Result α) (f : α → Source → Result β) : Result β :=
  match r with
  | ok a s => f a s
  | error => error
  | hang => hang
  | undefined => undefined

@[simp] theorem ok_bind (a : α) (s : Source) (f : α → Source → Result β) :
    (ok a s).bind f = f a s := rfl

@[simp] theorem error_bind (f : α → Source → Result β) : (error : Result α).bind f = error := rfl
@[simp] theorem hang_bind (f : α → Source → Result β) : (hang : Result α).bind f = hang := rfl
@[simp] theorem undefined_bind (f : α → Source → Result β) :
    (undefined : Result α).bind f = undefined := rfl

end Result

open Result

/-- `while (left) { cnt = read(fd, .., left); if (cnt < 0) fail; left -= cnt; }`. -/
def readFull : Nat → Source → Result (List UInt8)
  | 0, s => ok [] s
  | _ + 1, [] => hang
  | _ + 1, .error :: _ => error
  | n + 1, .data c :: s =>
    if c.length ≤ n + 1 then (readFull (n + 1 - c.length) s).bind fun bs s' => ok (c ++ bs) s'
    else ok (c.take (n + 1)) (.data (c.drop (n + 1)) :: s)

/-- The loop returns as many bytes as it was asked for. -/
theorem length_readFull {n : Nat} {s s' : Source} {bs : List UInt8}
    (h : readFull n s = ok bs s') : bs.length = n := by
  induction n, s using readFull.induct generalizing bs s' with
  | case1 s => simp only [readFull, ok.injEq] at h; rw [← h.1]; rfl
  | case2 n => simp [readFull] at h
  | case3 n s => simp [readFull] at h
  | case4 n c s hle ih =>
    rw [readFull, if_pos hle] at h
    cases hread : readFull (n + 1 - c.length) s with
    | ok bs' s'' =>
      rw [hread, ok_bind, ok.injEq] at h
      rw [← h.1, List.length_append, ih hread]
      omega
    | error | hang | undefined => simp [hread] at h
  | case5 n c s hle =>
    rw [readFull, if_neg hle, ok.injEq] at h
    rw [← h.1, List.length_take]
    omega

/-- A stream that delivers these chunks and ends. -/
def ofChunks (cs : List (List UInt8)) : Source := cs.map .data

/-- **Chunks do not matter.** If the chunks begin with `bs`, the loop returns `bs` and leaves what
follows. -/
theorem readFull_chunks {cs : List (List UInt8)} {bs rest : List UInt8}
    (h : cs.flatten = bs ++ rest) :
    ∃ cs', readFull bs.length (ofChunks cs) = ok bs (ofChunks cs') ∧ cs'.flatten = rest := by
  induction cs generalizing bs with
  | nil =>
    obtain ⟨rfl, rfl⟩ : bs = [] ∧ rest = [] := List.append_eq_nil_iff.1 h.symm
    exact ⟨[], rfl, rfl⟩
  | cons c cs ih =>
    cases bs with
    | nil => exact ⟨c :: cs, rfl, h⟩
    | cons b bs =>
      rw [List.flatten_cons] at h
      by_cases hle : c.length ≤ (b :: bs).length
      · -- The chunk is used up.
        obtain ⟨bs', hbs⟩ : ∃ bs', b :: bs = c ++ bs' := by
          refine ⟨(b :: bs).drop c.length, ?_⟩
          have htake := congrArg (List.take c.length) h
          rw [List.take_left, List.take_append_of_le_length hle] at htake
          nth_rewrite 1 [htake]
          rw [List.take_append_drop]
        rw [hbs, List.append_assoc] at h
        obtain ⟨cs', hread, hrest⟩ := ih (List.append_cancel_left h)
        refine ⟨cs', ?_, hrest⟩
        have hlen : (b :: bs).length - c.length = bs'.length := by
          rw [hbs, List.length_append]
          omega
        rw [List.length_cons] at hle hlen ⊢
        rw [ofChunks, List.map_cons, readFull, if_pos hle, hlen]
        rw [show cs.map Event.data = ofChunks cs from rfl, hread, ok_bind, hbs]
      · -- The chunk goes on.
        have hge : (b :: bs).length ≤ c.length := by omega
        have htake := congrArg (List.take (b :: bs).length) h
        have hdrop := congrArg (List.drop (b :: bs).length) h
        rw [List.take_left, List.take_append_of_le_length hge] at htake
        rw [List.drop_left, List.drop_append_of_le_length hge] at hdrop
        refine ⟨c.drop (b :: bs).length :: cs, ?_, hdrop⟩
        rw [List.length_cons] at hle htake ⊢
        rw [ofChunks, List.map_cons, readFull, if_neg hle, htake]
        rfl

/-! ## What arrives before an error -/

/-- The bytes in front of the first error. -/
def delivered : Source → List UInt8
  | [] => []
  | .error :: _ => []
  | .data c :: s => c ++ delivered s

theorem delivered_of_readFull {n : Nat} {s s' : Source} {bs : List UInt8}
    (h : readFull n s = ok bs s') : delivered s = bs ++ delivered s' := by
  induction n, s using readFull.induct generalizing bs s' with
  | case1 s =>
    obtain ⟨rfl, rfl⟩ := by simpa [readFull] using h
    rfl
  | case2 n => simp [readFull] at h
  | case3 n s => simp [readFull] at h
  | case4 n c s hle ih =>
    rw [readFull, if_pos hle] at h
    cases hread : readFull (n + 1 - c.length) s with
    | ok bs' s'' =>
      rw [hread, ok_bind, ok.injEq] at h
      obtain ⟨rfl, rfl⟩ := h
      rw [delivered, ih hread, List.append_assoc]
    | error | hang | undefined => simp [hread] at h
  | case5 n c s hle =>
    rw [readFull, if_neg hle, ok.injEq] at h
    obtain ⟨rfl, rfl⟩ := h
    rw [delivered, delivered, ← List.append_assoc, List.take_append_drop]

/-- **What the loop reads is told by the bytes that arrive**: enough of them are returned, and the
others are left, with the errors behind them. -/
theorem readFull_enough {n : Nat} {s : Source} (h : n ≤ (delivered s).length) :
    ∃ s', readFull n s = ok ((delivered s).take n) s' ∧ delivered s' = (delivered s).drop n ∧
      (Event.error ∈ s' ↔ Event.error ∈ s) := by
  induction n, s using readFull.induct with
  | case1 s => exact ⟨s, by rw [readFull, List.take_zero], rfl, Iff.rfl⟩
  | case2 n => exact absurd h (Nat.not_succ_le_zero n)
  | case3 n s => exact absurd h (Nat.not_succ_le_zero n)
  | case4 n c s hle ih =>
    rw [delivered, List.length_append] at h
    obtain ⟨s', hread, hrest, herror⟩ := ih (by omega)
    refine ⟨s', ?_, ?_, ?_⟩
    · rw [readFull, if_pos hle, hread, ok_bind, delivered, List.take_append,
        List.take_of_length_le hle]
    · rw [hrest, delivered, List.drop_append, List.drop_eq_nil_of_le hle, List.nil_append]
    · simpa using herror
  | case5 n c s hle =>
    have hlt : n + 1 ≤ c.length := by omega
    refine ⟨_, by rw [readFull, if_neg hle, delivered, List.take_append_of_le_length hlt], ?_, ?_⟩
    · rw [delivered, delivered, List.drop_append_of_le_length hlt]
    · simp

/-- What is in front is read. -/
theorem readFull_delivered {s : Source} {bs rest : List UInt8} (h : delivered s = bs ++ rest) :
    ∃ s', readFull bs.length s = ok bs s' ∧ delivered s' = rest := by
  obtain ⟨s', hread, hrest, -⟩ := readFull_enough (n := bs.length) (s := s) (by simp [h])
  rw [h, List.take_left] at hread
  rw [h, List.drop_left] at hrest
  exact ⟨s', hread, hrest⟩

/-- **And too few of them make it fail, or never return.** -/
theorem readFull_short {n : Nat} {s : Source} (h : (delivered s).length < n) :
    readFull n s = if Event.error ∈ s then error else hang := by
  induction n, s using readFull.induct with
  | case1 s => exact absurd h (Nat.not_lt_zero _)
  | case2 n => rfl
  | case3 n s => rw [readFull, if_pos List.mem_cons_self]
  | case4 n c s hle ih =>
    rw [delivered, List.length_append] at h
    rw [readFull, if_pos hle, ih (by omega)]
    by_cases herror : Event.error ∈ s <;> simp [herror]
  | case5 n c s hle =>
    rw [delivered, List.length_append] at h
    omega

theorem readFull_ne_undefined {n : Nat} {s : Source} : readFull n s ≠ undefined := by
  by_cases hn : n ≤ (delivered s).length
  · obtain ⟨s', hread, -⟩ := readFull_enough hn
    rw [hread]
    exact fun h => nomatch h
  · rw [readFull_short (Nat.lt_of_not_le hn)]
    split_ifs <;> exact fun h => nomatch h

/-- The loop with a count below 0, which `read` takes for more than any buffer holds: what comes is
written behind the buffer. -/
def readPast : Source → Result (List UInt8)
  | [] => hang
  | .error :: _ => error
  | .data c :: s => if c = [] then readPast s else undefined

theorem readPast_eq (s : Source) :
    readPast s =
      if delivered s ≠ [] then undefined else if Event.error ∈ s then error else hang := by
  induction s with
  | nil => rfl
  | cons e s ih =>
    cases e with
    | error => simp [readPast, delivered]
    | data c =>
      by_cases hc : c = []
      · simp [readPast, delivered, hc, ih]
      · simp [readPast, delivered, hc]

theorem readPast_ne_ok (s : Source) {bs : List UInt8} {s' : Source} : readPast s ≠ ok bs s' := by
  rw [readPast_eq]
  split_ifs <;> simp

@[simp] theorem delivered_ofChunks (cs : List (List UInt8)) :
    delivered (ofChunks cs) = cs.flatten := by
  induction cs with
  | nil => rfl
  | cons c cs ih =>
    rw [List.flatten_cons, ← ih]
    rfl

@[simp] theorem error_notMem_ofChunks (cs : List (List UInt8)) : Event.error ∉ ofChunks cs := by
  simp [ofChunks]

/-! ## Channels -/

/-- One direction of a connection: the chunks that have arrived, and the bytes under way. -/
structure Channel where
  arrived : List (List UInt8)
  flight : List UInt8
  deriving DecidableEq, Repr

namespace Channel

def empty : Channel := ⟨[], []⟩

/-- All that has been sent. -/
def bytes (ch : Channel) : List UInt8 := ch.arrived.flatten ++ ch.flight

/-- Behind the first `pos` bytes of a message, `n` more are sent. -/
def send (ch : Channel) (msg : List UInt8) (pos n : Nat) : Channel :=
  { ch with flight := ch.flight ++ (msg.drop pos).take n }

/-- The next `n` bytes arrive, as one chunk. -/
def arrive (ch : Channel) (n : Nat) : Channel :=
  ⟨ch.arrived ++ [ch.flight.take n], ch.flight.drop n⟩

@[simp] theorem bytes_empty : empty.bytes = [] := rfl

theorem bytes_send {ch : Channel} {msg : List UInt8} {pos : Nat} (h : ch.bytes = msg.take pos)
    (n : Nat) : (ch.send msg pos n).bytes = msg.take (pos + n) := by
  rw [List.take_add, ← h, bytes, bytes, send, List.append_assoc]

@[simp] theorem bytes_arrive (ch : Channel) (n : Nat) : (ch.arrive n).bytes = ch.bytes := by
  simp [bytes, arrive]

theorem arrived_prefix (ch : Channel) : ch.arrived.flatten <+: ch.bytes :=
  List.prefix_append _ _

end Channel

end ByteStream
