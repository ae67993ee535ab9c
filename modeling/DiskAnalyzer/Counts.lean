import DiskAnalyzer.Framed
import DiskAnalyzer.Progress

/-!
# The lengths that are read, and the counts passed to `read`

Four readers decode a length with `atoi`, allocate one byte more and read as many bytes: a loop
reads them from a socket (`readString`, `forks_read_path`), a single call from a file
(`read_string`, `hash_build`). Here each of them is followed with the calls of `read` that it makes,
with the room their buffer has and with the count they pass.

What is left of a length that is not negative is never more than the buffer has left
(`within_loopCalls`). The readers differ below 0. No `malloc` gives what a length below -1 asks for;
three of them report that, and `read_string` zeroes the buffer it has not got. With -1 `malloc` is
asked for no bytes, and `read` for more than there are anywhere.
-/

namespace DiskAnalyzer

open Decimal ByteStream

/-! ## Calls of `read` -/

/-- An `int` as the count of `read`. -/
def sizeT (n : Int) : Nat := (n % 2 ^ 64).toNat

/-- A call of `read`: the bytes its buffer has left, the count, and what comes. -/
structure ReadCall where
  room : Int
  count : Nat
  got : Bytes
  deriving DecidableEq

def ReadCall.Within (call : ReadCall) : Prop := (call.count : Int) ≤ call.room

instance (call : ReadCall) : Decidable call.Within := by unfold ReadCall.Within; infer_instance

/-- The calls of `while (left) { cnt = read(fd, dest + sz - left, left); .. }`, where `dest` has
`size` bytes. At the end of the stream the last of them is made for ever. -/
def loopCalls (size sz : Int) : Int → Source → List ReadCall
  | left, [] => if left = 0 then [] else [⟨size - (sz - left), sizeT left, []⟩]
  | left, .error :: _ => if left = 0 then [] else [⟨size - (sz - left), sizeT left, []⟩]
  | left, .data c :: s =>
    if left = 0 then []
    else
      let got := c.take (sizeT left)
      ⟨size - (sz - left), sizeT left, got⟩ :: loopCalls size sz (left - got.length) s

/-- What a reader does with a length. -/
inductive Sized where
  /-- It reports an error before it reads, or no length has come. -/
  | unread
  /-- It uses memory that is not its own before it reads, or an `int` overflows. -/
  | undefined
  | reads (sz : Int) (calls : List ReadCall)
  deriving DecidableEq

/-- The length is not negative, and no count is more than the buffer has left. -/
def Sized.Safe : Sized → Prop
  | unread => True
  | undefined => False
  | reads sz calls => 0 ≤ sz ∧ ∀ call ∈ calls, call.Within

/-- `malloc(sz + 1)`, and what a reader does without and with its buffer. A length below -1 is
converted to more bytes than there are. -/
def allocated (malloc : Int → Bool) (sz : Int) (null buffer : Sized) : Sized :=
  if 2 ^ 31 ≤ sz + 1 then .undefined
  else if sz < -1 ∨ malloc (sz + 1) = false then null
  else buffer

/-! ## The readers -/

/-- The loop into a new buffer. -/
def loopReads (malloc : Int → Bool) (sz : Int) (s : Source) : Sized :=
  allocated malloc sz .unread (.reads sz (loopCalls (sz + 1) sz sz s))

/-- `readString`. The length of a field in which a read fails is decoded from a freed buffer. -/
def Task.readStringReads (malloc : Int → Bool) (s : Source) : Sized :=
  match readInt s with
  | .ok sz s' => loopReads malloc sz s'
  | .undefined => .undefined
  | _ => .unread

/-- `forks_read_path`. -/
def forksReadPathReads (malloc : Int → Bool) (request : Source) : Sized :=
  match readFull 10 request with
  | .ok _ request =>
    match readFull 10 request with
    | .ok vessel request => loopReads malloc (atoi (cstr vessel)) request
    | _ => .unread
  | _ => .unread

/-- A single call that fills a buffer of `sz + 1` bytes up to the last. -/
def ReadCall.single (sz : Int) (rest : Bytes) : ReadCall :=
  ⟨sz + 1, sizeT sz, rest.take (sizeT sz)⟩

/-- `read_string` of the analyses. The buffer is zeroed before its pointer is looked at. -/
def Analysis.readStringReads (malloc : Int → Bool) (fd : Fd) : Sized :=
  match readInt fd with
  | .error _ => .unread
  | .ok (sz, fd') => allocated malloc sz .undefined (.reads sz [.single sz fd'.rest])

/-- `hash_build` with a name: its end is written before it is read. -/
def hashNameReads (malloc : Int → Bool) (sz : Int) (fd : Bytes) : Sized :=
  allocated malloc sz .unread (if sz < 0 then .undefined else .reads sz [.single sz fd])

mutual

/-- `tree_build`: the lengths it decodes, each with the file behind it, and what is left of the file
when it returns 0. `fuel` bounds the calls, as that of `treeBuild` does. -/
def treeLengths (malloc : Int → Bool) : Nat → Bytes → List (Int × Bytes) × Option Bytes
  | 0, _ => ([], none)
  | fuel + 1, fd =>
    match stateRead fd with
    | none => ([], none)
    | some (_, fd) => hashLengths malloc fuel fd

/-- `hash_build`. -/
def hashLengths (malloc : Int → Bool) : Nat → Bytes → List (Int × Bytes) × Option Bytes
  | 0, _ => ([], none)
  | fuel + 1, fd =>
    match fd with
    | [] => ([], none)
    | movement :: fd =>
      if movement = 43 then
        if fd.length < 10 then ([], none)
        else
          let sz := atoi (cstr (fd.take 10))
          let fd := fd.drop 10
          if 2 ^ 31 ≤ sz + 1 ∨ sz < 0 ∨ malloc (sz + 1) = false ∨ (fd.length : Int) < sz then
            ([(sz, fd)], none)
          else
            match treeLengths malloc fuel (fd.drop sz.toNat) with
            | (inner, none) => ((sz, fd) :: inner, none)
            | (inner, some rest) =>
              let (next, left) := hashLengths malloc fuel rest
              ((sz, fd) :: inner ++ next, left)
      else if movement = 45 then ([], some fd)
      else ([], none)

end

/-- A length that gets no buffer too small for it: one more overflows no `int`, and where it is -1,
`malloc` does not give a buffer of no bytes. -/
def FitsBuffer (malloc : Int → Bool) (sz : Int) : Prop :=
  sz + 1 < 2 ^ 31 ∧ (sz = -1 → malloc 0 = false)

/-! ## Counts -/

theorem sizeT_le {n : Int} (h : 0 ≤ n) : (sizeT n : Int) ≤ n := by
  unfold sizeT
  omega

theorem sizeT_of_lt {n : Nat} (h : n < 2 ^ 64) : sizeT n = n := by
  unfold sizeT
  omega

section Loop

variable {size sz left : Int} {s : Source}

theorem loopCalls_zero : loopCalls size sz 0 s = [] := by
  rcases s with - | ⟨- | -, s⟩ <;> rfl

/-- What is left of a length is less than what its buffer has left. -/
theorem within_left (h : 0 ≤ left) (got : Bytes) :
    ReadCall.Within ⟨sz + 1 - (sz - left), sizeT left, got⟩ := by
  have hle := sizeT_le h
  unfold ReadCall.Within
  dsimp only
  omega

/-- **No call of the loop asks for more than its buffer has left.** -/
theorem within_loopCalls (h : 0 ≤ left) :
    ∀ call ∈ loopCalls (sz + 1) sz left s, call.Within := by
  induction s generalizing left with
  | nil =>
    rw [loopCalls]
    split_ifs
    · simp
    · exact List.forall_mem_singleton.2 (within_left h [])
  | cons e s ih =>
    cases e with
    | error =>
      rw [loopCalls]
      split_ifs
      · simp
      · exact List.forall_mem_singleton.2 (within_left h [])
    | data c =>
      rw [loopCalls]
      split_ifs
      · simp
      have hleft : 0 ≤ left - (c.take (sizeT left)).length := by
        have hgot : (c.take (sizeT left)).length ≤ sizeT left := List.length_take_le _ _
        have hle := sizeT_le h
        omega
      exact List.forall_mem_cons.2 ⟨within_left h _, ih hleft⟩

/-- **The calls are those of the loop**: what they bring is what it returns. -/
theorem loopCalls_got {n : Nat} {s s' : Source} {bs : Bytes} (hn : n < 2 ^ 64)
    (h : readFull n s = .ok bs s') : (loopCalls size sz n s).flatMap (·.got) = bs := by
  induction n, s using readFull.induct generalizing bs s' with
  | case1 s =>
    obtain ⟨rfl, rfl⟩ := by simpa [readFull] using h
    rw [Nat.cast_zero, loopCalls_zero, List.flatMap_nil]
  | case2 n => simp [readFull] at h
  | case3 n s => simp [readFull] at h
  | case4 n c s hle ih =>
    rw [readFull, if_pos hle] at h
    cases hread : readFull (n + 1 - c.length) s with
    | ok bs' s'' =>
      rw [hread, Result.ok_bind] at h
      obtain ⟨rfl, rfl⟩ := Result.ok.inj h
      rw [loopCalls, if_neg (by omega), sizeT_of_lt hn, List.take_of_length_le hle,
        List.flatMap_cons, ← ih (by omega) hread, Nat.cast_sub hle]
    | error | hang | undefined => simp [hread] at h
  | case5 n c s hle =>
    rw [readFull, if_neg hle] at h
    obtain ⟨rfl, rfl⟩ := Result.ok.inj h
    rw [loopCalls, if_neg (by omega), sizeT_of_lt hn, List.flatMap_cons,
      List.length_take_of_le (by omega), sub_self, loopCalls_zero, List.flatMap_nil,
      List.append_nil]

end Loop

/-! ## When a reader keeps to its buffer -/

section Safe

variable {malloc : Int → Bool} {sz : Int}

/-- A reader that reports what `malloc` refuses, and whose buffer is too small for -1 only. -/
theorem safe_allocated {buffer : Sized} (hpast : sz = -1 → ¬ buffer.Safe)
    (hsafe : 0 ≤ sz → buffer.Safe) :
    (allocated malloc sz .unread buffer).Safe ↔ FitsBuffer malloc sz := by
  unfold allocated FitsBuffer
  split_ifs with hover hnull
  · exact iff_of_false id fun h => by omega
  · refine iff_of_true trivial ⟨by omega, fun hsz => ?_⟩
    subst hsz
    exact hnull.resolve_left (lt_irrefl _)
  · obtain ⟨hlow, hbuffer⟩ := not_or.1 hnull
    by_cases hsz : sz = -1
    · refine iff_of_false (hpast hsz) fun h => hbuffer ?_
      rw [hsz]
      exact h.2 hsz
    · exact iff_of_true (hsafe (by omega)) ⟨by omega, fun h => absurd h hsz⟩

theorem safe_loopReads (s : Source) : (loopReads malloc sz s).Safe ↔ FitsBuffer malloc sz := by
  refine safe_allocated (fun hsz => ?_) fun h0 => ⟨h0, within_loopCalls h0⟩
  rintro ⟨h0, -⟩
  omega

theorem within_single (h : 0 ≤ sz) (rest : Bytes) : (ReadCall.single sz rest).Within := by
  have hle := sizeT_le h
  unfold ReadCall.Within ReadCall.single
  dsimp only
  omega

theorem safe_hashNameReads (fd : Bytes) :
    (hashNameReads malloc sz fd).Safe ↔ FitsBuffer malloc sz := by
  refine safe_allocated (fun hsz => ?_) fun h0 => ?_
  · rw [if_pos (by omega)]
    exact id
  · rw [if_neg (not_lt.2 h0)]
    exact ⟨h0, by simpa using within_single h0 fd⟩

/-- `readString` of bytes that arrive with no failing read. -/
theorem safe_readStringReads {s : Source} (hend : Event.error ∉ s) :
    (Task.readStringReads malloc s).Safe ↔
      (4 ≤ (delivered s).length → FitsBuffer malloc (number (delivered s))) := by
  unfold Task.readStringReads
  by_cases h4 : 4 ≤ (delivered s).length
  · obtain ⟨s', hread, -⟩ := readInt_enough h4
    rw [hread]
    exact (safe_loopReads s').trans ⟨fun h _ => h, fun h => h h4⟩
  · rw [readInt_short (not_le.1 h4), cutOff, if_neg hend]
    exact iff_of_true trivial fun h => absurd h h4

theorem safe_forksReadPathReads (s : Source) :
    (forksReadPathReads malloc s).Safe ↔
      (20 ≤ (delivered s).length → FitsBuffer malloc (longNumber 10 (delivered s))) := by
  unfold forksReadPathReads
  by_cases h10 : 10 ≤ (delivered s).length
  swap
  · rw [readFull_short (not_le.1 h10)]
    refine iff_of_true ?_ fun h => by omega
    split_ifs <;> trivial
  obtain ⟨s₁, hread₁, hrest₁, -⟩ := readFull_enough h10
  have hlen : (delivered s₁).length = (delivered s).length - 10 := by rw [hrest₁, List.length_drop]
  rw [hread₁]
  dsimp only
  by_cases h20 : 10 ≤ (delivered s₁).length
  · obtain ⟨s₂, hread₂, -⟩ := readFull_enough h20
    rw [hread₂, hrest₁]
    exact (safe_loopReads s₂).trans ⟨fun h _ => h, fun h => h (by omega)⟩
  · rw [readFull_short (not_le.1 h20)]
    refine iff_of_true ?_ fun h => by omega
    split_ifs <;> trivial

theorem readInt_of_reads {fd : Fd} (h : fd.reads ≠ some 0) :
    Analysis.readInt fd =
      .ok (longNumber 0 fd.rest, ⟨fd.rest.drop 10, fd.reads.map Nat.pred⟩) := by
  simp [Analysis.readInt, Analysis.readStringBySize, Fd.read, h, longNumber]

theorem readInt_of_no_reads {fd : Fd} (h : fd.reads = some 0) :
    Analysis.readInt fd = .error .error := by
  simp [Analysis.readInt, Analysis.readStringBySize, Fd.read, h]

/-- The buffer of `read_string` has to be there, too. -/
theorem safe_readStringReads_file (fd : Fd) :
    (Analysis.readStringReads malloc fd).Safe ↔
      (fd.reads ≠ some 0 → 0 ≤ longNumber 0 fd.rest ∧ longNumber 0 fd.rest + 1 < 2 ^ 31 ∧
        malloc (longNumber 0 fd.rest + 1) = true) := by
  by_cases hreads : fd.reads = some 0
  · rw [Analysis.readStringReads, readInt_of_no_reads hreads]
    exact iff_of_true trivial fun h => absurd hreads h
  rw [Analysis.readStringReads, readInt_of_reads hreads]
  dsimp only
  generalize longNumber 0 fd.rest = sz
  refine Iff.trans ?_ ⟨fun h _ => h, fun h => h hreads⟩
  unfold allocated
  split_ifs with hover hnull
  · exact iff_of_false id fun h => by omega
  · refine iff_of_false id ?_
    rintro ⟨h0, -, hbuffer⟩
    rcases hnull with hlow | hnull
    · omega
    · rw [hnull] at hbuffer
      contradiction
  · obtain ⟨-, hbuffer⟩ := not_or.1 hnull
    exact ⟨fun h => ⟨h.1, by omega, by simpa using hbuffer⟩,
      fun h => ⟨h.1, List.forall_mem_singleton.2 (within_single h.1 _)⟩⟩

/-- **What `readString` is modelled to do is what its calls say**: it uses memory that is not its
own only where a call asks for more than a buffer has, or a length has no buffer. -/
theorem not_safe_of_readString {s : Source} (h : Task.readString s = .undefined) :
    ¬ (Task.readStringReads (fun _ => true) s).Safe := by
  unfold Task.readStringReads
  rw [Task.readString] at h
  cases hread : Task.readInt s with
  | undefined => exact id
  | error | hang => simp [hread] at h
  | ok sz s' =>
    rw [hread, Result.ok_bind, Task.readStringBySize] at h
    dsimp only
    rw [safe_loopReads]
    rintro ⟨hmax, hpast⟩
    rw [if_neg (by omega)] at h
    split_ifs at h with hlow hone
    · exact absurd (hpast hone) (by simp)
    · cases hfull : readFull sz.toNat s' with
      | undefined => exact readFull_ne_undefined hfull
      | ok | error | hang => simp [hfull] at h

theorem readString_undefined_iff (fd : Fd) :
    Analysis.readString fd = .error .undefined ↔
      ¬ (Analysis.readStringReads (fun _ => true) fd).Safe := by
  rw [safe_readStringReads_file, Analysis.readString]
  by_cases hreads : fd.reads = some 0
  · rw [readInt_of_no_reads hreads]
    exact iff_of_false (by simp) (not_not.2 fun h => absurd hreads h)
  rw [readInt_of_reads hreads]
  dsimp only
  generalize longNumber 0 fd.rest = sz
  rw [Analysis.readStringBySize]
  by_cases hbad : sz < 0 ∨ 2 ^ 31 ≤ sz + 1
  · rw [if_pos hbad]
    refine iff_of_true rfl fun h => ?_
    have hgood := h hreads
    omega
  · rw [if_neg hbad]
    refine iff_of_false ?_ (not_not.2 fun _ => ⟨by omega, by omega, rfl⟩)
    split <;> simp

end Safe

/-! ## The file of a tree -/

/-- What is left of the file when 0 is returned. -/
def leftOf : Option (Except Fail (Tree State × Bytes)) → Option Bytes
  | some (.ok (_, fd)) => some fd
  | _ => none

/-- What `hash_build` returns, and the lengths on its way. -/
structure Agrees (r : Option (Except Fail (Tree State × Bytes)))
    (met : List (Int × Bytes) × Option Bytes) : Prop where
  undefined : r = some (.error .undefined) ↔ ∃ e ∈ met.1, ¬ FitsBuffer (fun _ => true) e.1
  left : met.2 = leftOf r

/-- Nothing is decoded where the file ends, or where the fuel does. -/
theorem agrees_nothing {r : Option (Except Fail (Tree State × Bytes))}
    (h : r = none ∨ r = some (.error .error)) : Agrees r ([], none) := by
  rcases h with rfl | rfl <;> exact ⟨by simp, rfl⟩

/-- One length more, behind which the file goes on. -/
theorem Agrees.cons {r : Option (Except Fail (Tree State × Bytes))} {e : Int × Bytes}
    {met : List (Int × Bytes) × Option Bytes} (h : Agrees r met)
    (he : FitsBuffer (fun _ => true) e.1) : Agrees r (e :: met.1, met.2) := by
  refine ⟨h.undefined.trans ?_, h.left⟩
  rw [List.exists_mem_cons_iff]
  exact (or_iff_right (not_not.2 he)).symm

/-- The lengths of one part of the file behind those of another, all of them small enough. -/
theorem Agrees.append {r : Option (Except Fail (Tree State × Bytes))} {l : List (Int × Bytes)}
    {met : List (Int × Bytes) × Option Bytes} (h : Agrees r met)
    (hl : ∀ e ∈ l, FitsBuffer (fun _ => true) e.1) : Agrees r (l ++ met.1, met.2) := by
  induction l with
  | nil => exact h
  | cons e l ih =>
    exact (ih fun e' he' => hl e' (List.mem_cons_of_mem e he')).cons (hl e List.mem_cons_self)

theorem fitsBuffer_true {sz : Int} :
    FitsBuffer (fun _ => true) sz ↔ ¬ (sz = -1 ∨ 2 ^ 31 ≤ sz + 1) := by
  simp [FitsBuffer, and_comm]

section Step

variable {fuel : Nat}
    (ihtree : ∀ tre fd, Agrees (treeBuild fuel tre fd) (treeLengths (fun _ => true) fuel fd))
    (ihhash : ∀ tre fd, Agrees (hashBuild fuel tre fd) (hashLengths (fun _ => true) fuel fd))

include ihtree ihhash

/-- A name and what is behind it. -/
theorem agrees_name (tre : Tree State) {fd : Bytes} (h10 : ¬ fd.length < 10) :
    Agrees (hashBuild (fuel + 1) tre (43 :: fd))
      (hashLengths (fun _ => true) (fuel + 1) (43 :: fd)) := by
  rw [hashBuild, hashLengths, if_pos rfl, if_pos rfl, if_neg h10, if_neg h10]
  dsimp only
  generalize atoi (cstr (fd.take 10)) = sz
  generalize fd.drop 10 = fd
  by_cases hbad : sz = -1 ∨ 2 ^ 31 ≤ sz + 1
  · rw [if_pos hbad, if_pos (by omega)]
    refine ⟨iff_of_true rfl ⟨_, List.mem_singleton_self _, ?_⟩, rfl⟩
    exact fun h => fitsBuffer_true.1 h hbad
  rw [if_neg hbad]
  have hfits := fitsBuffer_true.2 hbad
  have hstop : (2 ^ 31 ≤ sz + 1 ∨ sz < 0 ∨ true = false ∨ (fd.length : Int) < sz) ↔
      sz < -1 ∨ (fd.length : Int) < sz := by
    simp only [reduceCtorEq, false_or]
    omega
  by_cases hends : sz < -1 ∨ (fd.length : Int) < sz
  · rw [if_pos (hstop.2 hends)]
    have hagrees : Agrees (some (.error .error)) ([(sz, fd)], none) :=
      (agrees_nothing (Or.inr rfl)).cons hfits
    split_ifs
    · exact hagrees
    · exact hagrees
    · omega
  rw [if_neg (fun h => hends (Or.inl h)), if_neg (fun h => hends (Or.inr h)),
    if_neg (fun h => hends (hstop.1 h))]
  have htree := ihtree (hashInsert tre.hsh (cstr (fd.take sz.toNat)) treeInit).2 (fd.drop sz.toNat)
  revert htree
  generalize treeBuild fuel _ (fd.drop sz.toNat) = r
  obtain ⟨inner, left⟩ := treeLengths (fun _ => true) fuel (fd.drop sz.toNat)
  intro htree
  obtain rfl := htree.left
  match r, htree with
  | none, htree => exact htree.cons hfits
  | some (.error e), htree => exact htree.cons hfits
  | some (.ok (node, rest)), htree =>
    refine (ihhash _ rest).append (List.forall_mem_cons.2 ⟨hfits, fun e he => ?_⟩)
    by_contra hunfit
    exact absurd (htree.undefined.2 ⟨e, he, hunfit⟩) (by simp)

theorem agrees_hash (tre : Tree State) (fd : Bytes) :
    Agrees (hashBuild (fuel + 1) tre fd) (hashLengths (fun _ => true) (fuel + 1) fd) := by
  cases fd with
  | nil =>
    rw [hashBuild, hashLengths]
    exact agrees_nothing (Or.inr rfl)
  | cons movement fd =>
    by_cases hname : movement = 43 ∧ ¬ fd.length < 10
    · obtain ⟨rfl, h10⟩ := hname
      exact agrees_name ihtree ihhash tre h10
    rw [hashBuild, hashLengths]
    split_ifs with hplus h10 hminus
    · exact agrees_nothing (Or.inr rfl)
    · exact absurd ⟨hplus, h10⟩ hname
    · exact ⟨by simp, rfl⟩
    · exact agrees_nothing (Or.inr rfl)

end Step

/-- **The lengths are those of the readers**: `tree_build` and `hash_build` use memory that is not
theirs exactly when one of the lengths has a buffer that is too small. -/
theorem agrees_build (fuel : Nat) :
    (∀ tre fd, Agrees (treeBuild fuel tre fd) (treeLengths (fun _ => true) fuel fd)) ∧
      ∀ tre fd, Agrees (hashBuild fuel tre fd) (hashLengths (fun _ => true) fuel fd) := by
  induction fuel with
  | zero =>
    exact ⟨fun tre fd => agrees_nothing (Or.inl (by rw [treeBuild])),
      fun tre fd => agrees_nothing (Or.inl (by rw [hashBuild]))⟩
  | succ fuel ih =>
    refine ⟨fun tre fd => ?_, agrees_hash ih.1 ih.2⟩
    rw [treeBuild, treeLengths]
    cases stateRead fd with
    | none => exact agrees_nothing (Or.inr rfl)
    | some e => exact ih.2 _ _

theorem hashBuild_undefined_iff (fuel : Nat) (tre : Tree State) (fd : Bytes) :
    hashBuild fuel tre fd = some (.error .undefined) ↔
      ∃ e ∈ (hashLengths (fun _ => true) fuel fd).1,
        ¬ (hashNameReads (fun _ => true) e.1 e.2).Safe := by
  rw [((agrees_build fuel).2 tre fd).undefined]
  exact exists_congr fun e => and_congr_right fun _ => not_congr (safe_hashNameReads e.2).symm

/-- **When no length makes a reader run past its buffer.** -/
theorem counts_within_iff (malloc : Int → Bool) :
    (∀ cs, (Task.readStringReads malloc (ofChunks cs)).Safe ↔
        (4 ≤ cs.flatten.length → FitsBuffer malloc (number cs.flatten))) ∧
      (∀ cs, (forksReadPathReads malloc (ofChunks cs)).Safe ↔
        (20 ≤ cs.flatten.length → FitsBuffer malloc (longNumber 10 cs.flatten))) ∧
      (∀ fd : Fd, (Analysis.readStringReads malloc fd).Safe ↔
        (fd.reads ≠ some 0 → 0 ≤ longNumber 0 fd.rest ∧ longNumber 0 fd.rest + 1 < 2 ^ 31 ∧
          malloc (longNumber 0 fd.rest + 1) = true)) ∧
      ∀ fuel fd, (∀ e ∈ (hashLengths malloc fuel fd).1, (hashNameReads malloc e.1 e.2).Safe) ↔
        ∀ e ∈ (hashLengths malloc fuel fd).1, FitsBuffer malloc e.1 := by
  refine ⟨fun cs => ?_, fun cs => ?_, safe_readStringReads_file, fun fuel fd => ?_⟩
  · rw [safe_readStringReads (error_notMem_ofChunks cs), delivered_ofChunks]
  · rw [safe_forksReadPathReads, delivered_ofChunks]
  · exact forall₂_congr fun e _ => safe_hashNameReads e.2

/-- The length -1: the sockets are read with the largest count there is into a buffer of no bytes,
the file of analyses too, and the end of a name of no bytes is written in front of it. -/
theorem not_counts_within :
    Task.readStringReads (fun _ => true) (ofChunks [str "-001"]) =
        .reads (-1) [⟨0, 2 ^ 64 - 1, []⟩] ∧
      forksReadPathReads (fun _ => true) (ofChunks [str "0000000007-000000001"]) =
        .reads (-1) [⟨0, 2 ^ 64 - 1, []⟩] ∧
      Analysis.readStringReads (fun _ => true) ⟨str "-000000001", none⟩ =
        .reads (-1) [⟨0, 2 ^ 64 - 1, []⟩] ∧
      Analysis.readStringReads (fun _ => true) ⟨str "-000000002", none⟩ = .undefined ∧
      (hashLengths (fun _ => true) 1 (str "+-000000001")).1 = [(-1, [])] ∧
      hashNameReads (fun _ => true) (-1) [] = .undefined ∧
      ¬ (∀ cs, (Task.readStringReads (fun _ => true) (ofChunks cs)).Safe) ∧
      ¬ (∀ cs, (forksReadPathReads (fun _ => true) (ofChunks cs)).Safe) ∧
      ¬ (∀ fd, (Analysis.readStringReads (fun _ => true) fd).Safe) ∧
      ¬ ∀ fuel fd, ∀ e ∈ (hashLengths (fun _ => true) fuel fd).1,
        (hashNameReads (fun _ => true) e.1 e.2).Safe := by
  have htask : Task.readStringReads (fun _ => true) (ofChunks [str "-001"]) =
      .reads (-1) [⟨0, 2 ^ 64 - 1, []⟩] := by decide +kernel
  have hpath : forksReadPathReads (fun _ => true) (ofChunks [str "0000000007-000000001"]) =
      .reads (-1) [⟨0, 2 ^ 64 - 1, []⟩] := by decide +kernel
  have hfile : Analysis.readStringReads (fun _ => true) ⟨str "-000000001", none⟩ =
      .reads (-1) [⟨0, 2 ^ 64 - 1, []⟩] := by decide +kernel
  have hmet : (hashLengths (fun _ => true) 1 (str "+-000000001")).1 = [(-1, [])] := by
    decide +kernel
  have hname : hashNameReads (fun _ => true) (-1) [] = .undefined := by decide +kernel
  have hneg : ∀ calls, ¬ (Sized.reads (-1) calls).Safe := fun calls h => absurd h.1 (by decide)
  refine ⟨htask, hpath, hfile, by decide +kernel, hmet, hname, fun h => ?_, fun h => ?_,
    fun h => ?_, fun h => ?_⟩
  · exact hneg _ (htask ▸ h [str "-001"])
  · exact hneg _ (hpath ▸ h [str "0000000007-000000001"])
  · exact hneg _ (hfile ▸ h ⟨str "-000000001", none⟩)
  · have hsafe := h 1 (str "+-000000001") (-1, []) (by rw [hmet]; exact List.mem_singleton_self _)
    rw [hname] at hsafe
    exact hsafe

end DiskAnalyzer
