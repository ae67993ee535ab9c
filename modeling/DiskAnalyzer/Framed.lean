import DiskAnalyzer.Failing
import DiskAnalyzer.RepliesProof

/-!
# Framed messages and the end of the stream

Every message has a length its reader knows or reads first, and each reader has its own loop around
`read`. All of them stop at a negative result and at no other: at the end of the stream, where
`read` returns 0, they go on for ever.

What `readTask` does is told by the bytes that arrive in front of the first error, and by whether
there is one (`taskRead`). Where the stream ends and no `read` fails, a reader returns exactly when
everything it waits for is there, or when it has refused the length it was told
(`framed_reads_end_iff`).
-/

namespace DiskAnalyzer

open Decimal ByteStream

/-! ## The managers' loops -/

/-- The first loop of `threads_read_results`. -/
def readResultValue : Source → Result UInt8
  | [] => .hang
  | .error :: _ => .error
  | .data [] :: s => readResultValue s
  | .data (b :: c) :: s => .ok b (.data c :: s)

/-- What `threads_read_results` has read: behind a `'0'` no numbers come. -/
structure ResultMessage where
  result : UInt8
  id : Int
  counts : Option (Int × Int)
  deriving DecidableEq

/-- `threads_read_results` up to the lock; an `error` is the return value 1. -/
def readResultMessage (s : Source) : Result ResultMessage :=
  (readResultValue s).bind fun result s =>
    (readFull 10 s).bind fun buffer s =>
      let id := atoi (cstr buffer)
      if result = 48 then .ok ⟨result, id, none⟩ s
      else
        (readFull 10 s).bind fun dirs s =>
          (readFull 10 s).bind fun files s =>
            .ok ⟨result, id, some (atoi (cstr dirs), atoi (cstr files))⟩ s

/-- The loop of `fork_request` for the pid. -/
def forkRequestPid (s : Source) : Result Int :=
  (readFull 10 s).bind fun vessel s => .ok (atoi (cstr vessel)) s

/-! ## A request, by the bytes that arrive -/

/-- The number in the field in front. -/
def number (b : Bytes) : Int := atoi (cstr (b.take 4))

/-- The length of the path of an add. -/
def pathLength (b : Bytes) : Int := number (b.drop 8)

/-- How many bytes the number fields of a request take: the kind tells. -/
def taskNumbers (b : Bytes) : Nat :=
  if b.length < 4 then 4 else if number b = 6 then 4 else if number b = 1 then 12 else 8

/-- The request in these bytes. -/
def taskOf (dest : Task) (b : Bytes) : Task :=
  if number b = 6 then { dest with cnt := 6 }
  else if number b = 1 then
    { dest with
      cnt := 1
      priority := number (b.drop 4)
      path := cstr ((b.drop 12).take (pathLength b).toNat) }
  else { dest with cnt := number b, id := number (b.drop 4) }

/-- The bytes of the request in front. -/
def taskLength (b : Bytes) : Nat :=
  taskNumbers b + if number b = 1 then (pathLength b).toNat else 0

/-- All bytes of the request are there. -/
def TaskWhole (b : Bytes) : Prop :=
  taskNumbers b ≤ b.length ∧ (number b = 1 → 0 ≤ pathLength b ∧ 12 + pathLength b ≤ b.length)

/-- The length of the path is there, and too small. -/
def TaskRefused (b : Bytes) : Prop := 12 ≤ b.length ∧ number b = 1 ∧ pathLength b < -1

theorem taskNumbers_of_add {b : Bytes} (h : 4 ≤ b.length) (h1 : number b = 1) :
    taskNumbers b = 12 := by
  rw [taskNumbers, if_neg (not_lt.2 h), if_neg (by rw [h1]; decide), if_pos h1]

theorem four_le_taskNumbers (b : Bytes) : 4 ≤ taskNumbers b := by
  unfold taskNumbers
  split_ifs <;> decide

/-- What comes of a number field that is cut off: an error has a freed buffer decoded, and the end
of the stream is read for ever. -/
def cutOff {α : Type} (s : Source) : Result α := if Event.error ∈ s then .undefined else .hang

theorem cutOff_congr {α : Type} {s s' : Source} (h : Event.error ∈ s' ↔ Event.error ∈ s) :
    (cutOff s' : Result α) = cutOff s := by
  unfold cutOff
  by_cases herror : Event.error ∈ s
  · rw [if_pos herror, if_pos (h.2 herror)]
  · rw [if_neg herror, if_neg fun h' => herror (h.1 h')]

@[simp] theorem cutOff_bind {α β : Type} (s : Source) (f : α → Source → Result β) :
    (cutOff s).bind f = cutOff s := by
  unfold cutOff
  split_ifs <;> rfl

section Numbers

variable {s : Source}

theorem readInt_enough (h : 4 ≤ (delivered s).length) :
    ∃ s', Task.readInt s = .ok (number (delivered s)) s' ∧
      delivered s' = (delivered s).drop 4 ∧ (Event.error ∈ s' ↔ Event.error ∈ s) := by
  obtain ⟨s', hread, hrest, herror⟩ := readFull_enough h
  refine ⟨s', ?_, hrest, herror⟩
  rw [Task.readInt, Task.readStringBySize, if_neg (by decide), if_neg (by decide),
    if_neg (by decide), show (4 : Int).toNat = 4 from rfl, hread]
  rfl

theorem readInt_short (h : (delivered s).length < 4) : Task.readInt s = cutOff s := by
  rw [Task.readInt, Task.readStringBySize, if_neg (by decide), if_neg (by decide),
    if_neg (by decide), show (4 : Int).toNat = 4 from rfl, readFull_short h, cutOff]
  by_cases herror : Event.error ∈ s <;> simp [herror]

theorem pathLength_lt (b : Bytes) : (pathLength b).natAbs < 10000 := by
  have hlen : (cstr ((b.drop 8).take 4)).length ≤ 4 :=
    (List.takeWhile_sublist _).length_le.trans (List.length_take_le _ _)
  calc (pathLength b).natAbs < 10 ^ (cstr ((b.drop 8).take 4)).length := natAbs_atoi_lt (by omega)
    _ ≤ 10 ^ 4 := Nat.pow_le_pow_right (by decide) hlen

/-- A request that is cut off in a number. -/
theorem readTask_short (dest : Task) (h : (delivered s).length < taskNumbers (delivered s)) :
    readTask dest s = cutOff s := by
  rw [readTask]
  by_cases h4 : (delivered s).length < 4
  · rw [readInt_short h4, cutOff_bind]
  obtain ⟨s₁, hread₁, hrest₁, herror₁⟩ := readInt_enough (not_lt.1 h4)
  have hlen₁ : (delivered s₁).length = (delivered s).length - 4 := by rw [hrest₁, List.length_drop]
  rw [taskNumbers, if_neg h4] at h
  rw [hread₁, Result.ok_bind]
  by_cases h6 : number (delivered s) = 6
  · rw [if_pos h6] at h
    exact absurd h h4
  rw [if_neg h6] at h
  rw [if_neg h6]
  by_cases h1 : number (delivered s) = 1
  · rw [if_pos h1] at h
    rw [if_pos h1]
    by_cases h8 : (delivered s₁).length < 4
    · rw [readInt_short h8, cutOff_bind, cutOff_congr herror₁]
    · obtain ⟨s₂, hread₂, hrest₂, herror₂⟩ := readInt_enough (not_lt.1 h8)
      have h12 : (delivered s₂).length < 4 := by
        rw [hrest₂, List.length_drop]
        omega
      rw [hread₂, Result.ok_bind, Task.readString, readInt_short h12, cutOff_bind, cutOff_bind,
        cutOff_congr herror₂, cutOff_congr herror₁]
  · rw [if_neg h1] at h
    rw [if_neg h1, readInt_short (by omega), cutOff_bind, cutOff_congr herror₁]

/-- A request without a path. -/
theorem readTask_numbers (dest : Task) (h : taskNumbers (delivered s) ≤ (delivered s).length)
    (h1 : number (delivered s) ≠ 1) :
    ∃ s', readTask dest s = .ok (taskOf dest (delivered s)) s' ∧
      delivered s' = (delivered s).drop (taskNumbers (delivered s)) := by
  have h4 : 4 ≤ (delivered s).length := by
    unfold taskNumbers at h
    split_ifs at h <;> omega
  obtain ⟨s₁, hread₁, hrest₁, -⟩ := readInt_enough h4
  rw [taskNumbers, if_neg (not_lt.2 h4), if_neg h1] at h ⊢
  rw [readTask, taskOf, hread₁, Result.ok_bind, if_neg h1, if_neg h1]
  split_ifs at h ⊢ with h6
  · rw [h6]
    exact ⟨s₁, rfl, hrest₁⟩
  · have h8 : 4 ≤ (delivered s₁).length := by
      rw [hrest₁, List.length_drop]
      omega
    obtain ⟨s₂, hread₂, hrest₂, -⟩ := readInt_enough h8
    rw [hread₂, Result.ok_bind, hrest₁]
    exact ⟨s₂, rfl, by rw [hrest₂, hrest₁, List.drop_drop]⟩

/-- The numbers of an add: its path is read by its length. -/
theorem readTask_add (dest : Task) (h : 12 ≤ (delivered s).length) (h1 : number (delivered s) = 1) :
    ∃ s', delivered s' = (delivered s).drop 12 ∧ (Event.error ∈ s' ↔ Event.error ∈ s) ∧
      readTask dest s =
        (Task.readStringBySize (pathLength (delivered s)) s').bind fun path rest =>
          .ok { dest with cnt := 1, priority := number ((delivered s).drop 4), path } rest := by
  obtain ⟨s₁, hread₁, hrest₁, herror₁⟩ := readInt_enough (by omega : 4 ≤ (delivered s).length)
  have h8 : 4 ≤ (delivered s₁).length := by
    rw [hrest₁, List.length_drop]
    omega
  obtain ⟨s₂, hread₂, hrest₂, herror₂⟩ := readInt_enough h8
  have h12 : 4 ≤ (delivered s₂).length := by
    rw [hrest₂, List.length_drop, hrest₁, List.length_drop]
    omega
  obtain ⟨s₃, hread₃, hrest₃, herror₃⟩ := readInt_enough h12
  refine ⟨s₃, ?_, herror₃.trans (herror₂.trans herror₁), ?_⟩
  · rw [hrest₃, hrest₂, hrest₁, List.drop_drop, List.drop_drop]
  · rw [readTask, hread₁, Result.ok_bind, if_neg (by rw [h1]; decide), if_pos h1, hread₂,
      Result.ok_bind, Task.readString, hread₃, Result.ok_bind, hrest₂, hrest₁, List.drop_drop, h1,
      pathLength]

/-- A path that comes. -/
theorem readStringBySize_enough {sz : Int} (h0 : 0 ≤ sz) (hmax : sz + 1 < 2 ^ 31)
    (h : sz.toNat ≤ (delivered s).length) :
    ∃ s', Task.readStringBySize sz s = .ok (cstr ((delivered s).take sz.toNat)) s' ∧
      delivered s' = (delivered s).drop sz.toNat := by
  obtain ⟨s', hread, hrest, -⟩ := readFull_enough h
  refine ⟨s', ?_, hrest⟩
  rw [Task.readStringBySize, if_neg (by omega), if_neg (by omega), if_neg (by omega), hread]
  rfl

/-- A path that is cut off. -/
theorem readStringBySize_short {sz : Int} (h0 : 0 ≤ sz) (hmax : sz + 1 < 2 ^ 31)
    (h : (delivered s).length < sz.toNat) :
    Task.readStringBySize sz s = if Event.error ∈ s then .error else .hang := by
  rw [Task.readStringBySize, if_neg (by omega), if_neg (by omega), if_neg (by omega),
    readFull_short h]
  split_ifs <;> rfl

/-- A length no `malloc` has the memory for. -/
theorem readStringBySize_refused {sz : Int} (h : sz < -1) :
    Task.readStringBySize sz s = .error := by
  rw [Task.readStringBySize, if_neg (by omega), if_pos h]

theorem readStringBySize_past : Task.readStringBySize (-1) s = readPast s := by
  rw [Task.readStringBySize, if_neg (by decide), if_neg (by decide), if_pos rfl]

/-- What `readTask` does with a stream, by the bytes that arrive in front of the first error. -/
inductive TaskRead (dest : Task) (s : Source) : Result Task → Prop
  /-- The bytes end in a number. -/
  | number (h : (delivered s).length < taskNumbers (delivered s)) : TaskRead dest s (cutOff s)
  | whole (h : TaskWhole (delivered s)) {s' : Source}
      (hrest : delivered s' = (delivered s).drop (taskLength (delivered s))) :
      TaskRead dest s (.ok (taskOf dest (delivered s)) s')
  | refused (h : TaskRefused (delivered s)) : TaskRead dest s .error
  /-- The bytes end in the path. -/
  | path (h12 : 12 ≤ (delivered s).length) (h1 : DiskAnalyzer.number (delivered s) = 1)
      (h0 : 0 ≤ pathLength (delivered s))
      (hcut : (delivered s).length < 12 + pathLength (delivered s)) :
      TaskRead dest s (if Event.error ∈ s then .error else .hang)
  /-- There is no buffer for the path. -/
  | past (h12 : 12 ≤ (delivered s).length) (h1 : DiskAnalyzer.number (delivered s) = 1)
      (hpast : pathLength (delivered s) = -1) :
      TaskRead dest s
        (if 12 < (delivered s).length then .undefined
        else if Event.error ∈ s then .error else .hang)

theorem taskRead (dest : Task) (s : Source) : TaskRead dest s (readTask dest s) := by
  by_cases hnumbers : taskNumbers (delivered s) ≤ (delivered s).length
  swap
  · rw [readTask_short dest (not_le.1 hnumbers)]
    exact .number (not_le.1 hnumbers)
  by_cases h1 : number (delivered s) = 1
  swap
  · obtain ⟨s', hread, hrest⟩ := readTask_numbers dest hnumbers h1
    rw [hread]
    refine .whole ⟨hnumbers, fun h => absurd h h1⟩ ?_
    rw [hrest, taskLength, if_neg h1, Nat.add_zero]
  have hadd := taskNumbers_of_add ((four_le_taskNumbers _).trans hnumbers) h1
  have h12 : 12 ≤ (delivered s).length := hadd ▸ hnumbers
  obtain ⟨s', hrest, herror, hread⟩ := readTask_add dest h12 h1
  have hlen : (delivered s').length = (delivered s).length - 12 := by rw [hrest, List.length_drop]
  have hsz := pathLength_lt (delivered s)
  rw [hread]
  rcases lt_trichotomy (pathLength (delivered s)) (-1) with hneg | hpast | hpos
  · rw [readStringBySize_refused hneg]
    exact .refused ⟨h12, h1, hneg⟩
  · have hmore : delivered s' ≠ [] ↔ 12 < (delivered s).length := by
      rw [← List.length_pos_iff]
      omega
    rw [hpast, readStringBySize_past, readPast_eq]
    simp only [hmore, herror]
    have hcase : TaskRead dest s _ := .past h12 h1 hpast
    split_ifs at hcase ⊢ <;> exact hcase
  by_cases hfits : (pathLength (delivered s)).toNat ≤ (delivered s').length
  · obtain ⟨s'', hpath, hrest'⟩ :=
      readStringBySize_enough (by omega) (by omega : pathLength (delivered s) + 1 < 2 ^ 31) hfits
    have hcase : TaskRead dest s (.ok _ s'') := .whole ⟨hnumbers, fun _ => ⟨by omega, by omega⟩⟩
      (by rw [hrest', hrest, List.drop_drop, taskLength, hadd, if_pos h1])
    rw [taskOf, if_neg (by rw [h1]; decide), if_pos h1, ← hrest] at hcase
    rw [hpath]
    exact hcase
  · rw [readStringBySize_short (by omega) (by omega) (not_le.1 hfits)]
    simp only [herror]
    have hcase : TaskRead dest s _ := .path h12 h1 (by omega) (by omega)
    split_ifs at hcase ⊢ <;> exact hcase

end Numbers

/-! ## Whether a reader returns -/

/-- The call returns, and with a failure unless the message is complete. -/
def Ends (whole fails succeeds : Prop) : Prop := fails ∨ whole ∧ succeeds

def Result.Ends {α : Type} (whole : Prop) (r : Result α) : Prop :=
  DiskAnalyzer.Ends whole (r = .error) (∃ a s, r = .ok a s)

theorem not_ends {α : Type} {whole : Prop} {r : Result α} (h : r = .hang ∨ r = .undefined) :
    ¬ Result.Ends whole r := by
  rintro (hfails | ⟨-, a, s, hok⟩)
  · rcases h with h | h <;> rw [h] at hfails <;> contradiction
  · rcases h with h | h <;> rw [h] at hok <;> contradiction

/-- The number in ten characters behind the first `n`. -/
def longNumber (n : Nat) (b : Bytes) : Int := atoi (cstr ((b.drop n).take 10))

/-- All bytes of the request to a worker are there, and its path fits. -/
def PathWhole (b : Bytes) : Prop :=
  20 ≤ b.length ∧ 0 ≤ longNumber 10 b ∧ longNumber 10 b + 1 < 2 ^ 31 ∧
    20 + longNumber 10 b ≤ b.length

/-- The length of the path is there, and there is no memory for it. -/
def PathRefused (malloc : Bool) (b : Bytes) : Prop :=
  20 ≤ b.length ∧ longNumber 10 b + 1 < 2 ^ 31 ∧ (malloc = false ∨ longNumber 10 b < -1)

/-- All bytes of the result are there. -/
def ResultWhole (b : Bytes) : Prop := 11 ≤ b.length ∧ (b.head? = some 48 ∨ 31 ≤ b.length)

section Ends

variable {cs : List Bytes}

theorem ends_readTask (cs : List Bytes) (dest : Task) :
    Result.Ends (TaskWhole cs.flatten) (readTask dest (ofChunks cs)) ↔
      TaskWhole cs.flatten ∨ TaskRefused cs.flatten := by
  have hend := error_notMem_ofChunks cs
  have hread := taskRead dest (ofChunks cs)
  rw [← delivered_ofChunks cs]
  generalize readTask dest (ofChunks cs) = r at hread ⊢
  cases hread with
  | number h =>
    rw [cutOff, if_neg hend]
    refine iff_of_false (not_ends (Or.inl rfl)) (not_or.2 ⟨fun hwhole => ?_, fun hrefused => ?_⟩)
    · exact absurd hwhole.1 (not_le.2 h)
    · obtain ⟨h12, h1, -⟩ := hrefused
      exact absurd h12 (taskNumbers_of_add (by omega) h1 ▸ not_le.2 h)
  | whole h hrest => exact iff_of_true (Or.inr ⟨h, _, _, rfl⟩) (Or.inl h)
  | refused h => exact iff_of_true (Or.inl rfl) (Or.inr h)
  | path h12 h1 h0 hcut =>
    rw [if_neg hend]
    refine iff_of_false (not_ends (Or.inl rfl)) (not_or.2 ⟨fun hwhole => ?_, fun hrefused => ?_⟩)
    · exact absurd (hwhole.2 h1).2 (not_le.2 hcut)
    · exact absurd hrefused.2.2 (by omega)
  | past h12 h1 hpast =>
    rw [if_neg hend]
    refine iff_of_false (not_ends ?_) (not_or.2 ⟨fun hwhole => ?_, fun hrefused => ?_⟩)
    · split_ifs
      · exact Or.inr rfl
      · exact Or.inl rfl
    · exact absurd (hwhole.2 h1).1 (by omega)
    · exact absurd hrefused.2.2 (by omega)

/-- A loop for a known number of bytes, on a stream that ends. -/
theorem readFull_ends (cs : List Bytes) (n : Nat) :
    (∃ cs', n ≤ cs.flatten.length ∧ cs'.flatten = cs.flatten.drop n ∧
        readFull n (ofChunks cs) = .ok (cs.flatten.take n) (ofChunks cs')) ∨
      cs.flatten.length < n ∧ readFull n (ofChunks cs) = .hang := by
  by_cases hn : n ≤ cs.flatten.length
  · obtain ⟨cs', hread, hrest⟩ := readFull_chunks (List.take_append_drop n cs.flatten).symm
    rw [List.length_take_of_le hn] at hread
    exact Or.inl ⟨cs', hn, hrest, hread⟩
  · have hshort : (delivered (ofChunks cs)).length < n := by
      rw [delivered_ofChunks]
      omega
    exact Or.inr ⟨by omega, by rw [readFull_short hshort, if_neg (error_notMem_ofChunks cs)]⟩

theorem ends_forkRequestPid (cs : List Bytes) :
    Result.Ends (10 ≤ cs.flatten.length) (forkRequestPid (ofChunks cs)) ↔
      10 ≤ cs.flatten.length := by
  rw [forkRequestPid]
  rcases readFull_ends cs 10 with ⟨cs', hlen, -, hread⟩ | ⟨hlen, hread⟩
  · rw [hread]
    exact iff_of_true (Or.inr ⟨hlen, _, _, rfl⟩) hlen
  · rw [hread]
    exact iff_of_false (not_ends (Or.inl rfl)) (by omega)

/-- The client's loop is the same loop, with its failure as a value. -/
theorem ends_clientReadString (cs : List Bytes) (n : Nat) :
    Ends (n ≤ cs.flatten.length) (∃ s, clientReadString n (ofChunks cs) = .ok none s)
        (∃ bs s, clientReadString n (ofChunks cs) = .ok (some bs) s) ↔
      n ≤ cs.flatten.length := by
  rcases readFull_ends cs n with ⟨cs', hlen, -, hread⟩ | ⟨hlen, hread⟩
  · rw [clientReadString_of_readFull hread]
    exact iff_of_true (Or.inr ⟨hlen, _, _, rfl⟩) hlen
  · rw [clientReadString_of_hang hread]
    refine iff_of_false ?_ (by omega)
    rintro (⟨s, hfails⟩ | ⟨-, bs, s, hok⟩) <;> contradiction

theorem readResultValue_ends (cs : List Bytes) :
    (∃ b cs', cs.flatten = b :: cs'.flatten ∧
        readResultValue (ofChunks cs) = .ok b (ofChunks cs')) ∨
      cs.flatten = [] ∧ readResultValue (ofChunks cs) = .hang := by
  induction cs with
  | nil => exact Or.inr ⟨rfl, rfl⟩
  | cons c cs ih =>
    cases c with
    | nil => exact ih
    | cons b c => exact Or.inl ⟨b, c :: cs, rfl, rfl⟩

theorem ends_readResultMessage (cs : List Bytes) :
    Result.Ends (ResultWhole cs.flatten) (readResultMessage (ofChunks cs)) ↔
      ResultWhole cs.flatten := by
  rw [readResultMessage]
  rcases readResultValue_ends cs with ⟨b, cs₁, hflat, hread⟩ | ⟨hflat, hread⟩
  swap
  · rw [hread, hflat]
    exact iff_of_false (not_ends (Or.inl rfl)) fun h => absurd h.1 (by decide)
  rw [hread, Result.ok_bind, hflat, ResultWhole, List.length_cons, List.head?_cons]
  rcases readFull_ends cs₁ 10 with ⟨cs₂, hlen₁, hrest₁, hread₁⟩ | ⟨hlen₁, hread₁⟩
  swap
  · rw [hread₁]
    exact iff_of_false (not_ends (Or.inl rfl)) (by omega)
  rw [hread₁, Result.ok_bind]
  dsimp only
  by_cases hzero : b = 48
  · rw [if_pos hzero, hzero]
    have hwhole : 11 ≤ cs₁.flatten.length + 1 ∧
        (some (48 : UInt8) = some 48 ∨ 31 ≤ cs₁.flatten.length + 1) := ⟨by omega, Or.inl rfl⟩
    exact iff_of_true (Or.inr ⟨hwhole, _, _, rfl⟩) hwhole
  rw [if_neg hzero]
  have hkind : some b ≠ some (48 : UInt8) := fun h => hzero (Option.some.inj h)
  have hlen₂ : cs₂.flatten.length = cs₁.flatten.length - 10 := by rw [hrest₁, List.length_drop]
  rcases readFull_ends cs₂ 10 with ⟨cs₃, hle₂, hrest₂, hread₂⟩ | ⟨hlt, hread₂⟩
  swap
  · rw [hread₂]
    refine iff_of_false (not_ends (Or.inl rfl)) ?_
    rintro ⟨-, h48 | h31⟩
    · exact hkind h48
    · omega
  rw [hread₂, Result.ok_bind]
  have hlen₃ : cs₃.flatten.length = cs₂.flatten.length - 10 := by rw [hrest₂, List.length_drop]
  rcases readFull_ends cs₃ 10 with ⟨cs₄, hle₃, -, hread₃⟩ | ⟨hlt, hread₃⟩
  · rw [hread₃]
    have hwhole : 11 ≤ cs₁.flatten.length + 1 ∧
        (some b = some 48 ∨ 31 ≤ cs₁.flatten.length + 1) := ⟨by omega, Or.inr (by omega)⟩
    exact iff_of_true (Or.inr ⟨hwhole, _, _, rfl⟩) hwhole
  · rw [hread₃]
    refine iff_of_false (not_ends (Or.inl rfl)) ?_
    rintro ⟨-, h48 | h31⟩
    · exact hkind h48
    · omega

/-- What `forks_read_path` returns after its last loop. -/
def pathReturn (id : Int) : Result Bytes → Option (Int × Int × Bytes)
  | .ok path _ => some (0, id, cstr path)
  | .error => some (1, id, [])
  | .hang => none
  | .undefined => none

/-- A request to a worker that ends in front of its path. -/
theorem forksReadPath_short (junk : Int) (malloc : Bool) (h : cs.flatten.length < 20) :
    forksReadPath junk malloc (ofChunks cs) = none := by
  rw [forksReadPath]
  rcases readFull_ends cs 10 with ⟨cs₁, hlen₁, hrest₁, hread₁⟩ | ⟨hlen₁, hread₁⟩
  swap
  · rw [hread₁]
  have hlen : cs₁.flatten.length = cs.flatten.length - 10 := by rw [hrest₁, List.length_drop]
  rcases readFull_ends cs₁ 10 with ⟨cs₂, hlen₂, -⟩ | ⟨-, hread₂⟩
  · omega
  · rw [hread₁]
    dsimp only
    rw [hread₂]

/-- One with both its numbers: its path is read by its length. -/
theorem forksReadPath_numbers (junk : Int) (malloc : Bool) (h : 20 ≤ cs.flatten.length) :
    ∃ cs', cs'.flatten = cs.flatten.drop 20 ∧
      forksReadPath junk malloc (ofChunks cs) =
        if 2 ^ 31 ≤ longNumber 10 cs.flatten + 1 then none
        else if malloc = false ∨ longNumber 10 cs.flatten < -1 then
          some (1, atoi (cstr (cs.flatten.take 10)), [])
        else
          pathReturn (atoi (cstr (cs.flatten.take 10)))
            (if longNumber 10 cs.flatten = -1 then readPast (ofChunks cs')
            else readFull (longNumber 10 cs.flatten).toNat (ofChunks cs')) := by
  rcases readFull_ends cs 10 with ⟨cs₁, -, hrest₁, hread₁⟩ | ⟨hlen₁, -⟩
  swap
  · omega
  have hlen : cs₁.flatten.length = cs.flatten.length - 10 := by rw [hrest₁, List.length_drop]
  rcases readFull_ends cs₁ 10 with ⟨cs₂, -, hrest₂, hread₂⟩ | ⟨hlen₂, -⟩
  swap
  · omega
  refine ⟨cs₂, by rw [hrest₂, hrest₁, List.drop_drop], ?_⟩
  rw [longNumber, ← hrest₁, forksReadPath, hread₁]
  dsimp only
  rw [hread₂]
  dsimp only
  generalize (if atoi (cstr (cs₁.flatten.take 10)) = -1 then readPast (ofChunks cs₂) else _) = r
  cases r <;> rfl

theorem ends_forksReadPath (cs : List Bytes) (junk : Int) (malloc : Bool) :
    Ends (PathWhole cs.flatten)
        (∃ id path, forksReadPath junk malloc (ofChunks cs) = some (1, id, path))
        (∃ id path, forksReadPath junk malloc (ofChunks cs) = some (0, id, path)) ↔
      PathWhole cs.flatten ∨ PathRefused malloc cs.flatten := by
  have hlost : forksReadPath junk malloc (ofChunks cs) = none → ¬ Ends (PathWhole cs.flatten)
      (∃ id path, forksReadPath junk malloc (ofChunks cs) = some (1, id, path))
      (∃ id path, forksReadPath junk malloc (ofChunks cs) = some (0, id, path)) := by
    intro hnone
    rw [hnone]
    rintro (⟨id, path, hfails⟩ | ⟨-, id, path, hok⟩) <;> contradiction
  by_cases h20 : 20 ≤ cs.flatten.length
  swap
  · exact iff_of_false (hlost (forksReadPath_short junk malloc (not_le.1 h20)))
      (not_or.2 ⟨fun hwhole => h20 hwhole.1, fun hrefused => h20 hrefused.1⟩)
  obtain ⟨cs', hrest, hpath⟩ := forksReadPath_numbers junk malloc h20
  have hlen : cs'.flatten.length = cs.flatten.length - 20 := by rw [hrest, List.length_drop]
  by_cases hmax : 2 ^ 31 ≤ longNumber 10 cs.flatten + 1
  · rw [if_pos hmax] at hpath
    exact iff_of_false (hlost hpath) (not_or.2
      ⟨fun hwhole => hmax.not_gt hwhole.2.2.1, fun hrefused => hmax.not_gt hrefused.2.1⟩)
  rw [if_neg hmax] at hpath
  by_cases hrefused : malloc = false ∨ longNumber 10 cs.flatten < -1
  · rw [if_pos hrefused] at hpath
    exact iff_of_true (Or.inl ⟨_, _, hpath⟩) (Or.inr ⟨h20, not_le.1 hmax, hrefused⟩)
  rw [if_neg hrefused] at hpath
  by_cases hpast : longNumber 10 cs.flatten = -1
  · -- What comes is written behind the buffer, and when nothing comes, the loop goes on.
    rw [if_pos hpast, readPast_eq, if_neg (error_notMem_ofChunks cs')] at hpath
    refine iff_of_false (hlost ?_)
      (not_or.2 ⟨fun hwhole => ?_, fun hrefused' => hrefused hrefused'.2.2⟩)
    · rw [hpath]
      split_ifs <;> rfl
    · have h0 := hwhole.2.1
      omega
  rw [if_neg hpast] at hpath
  have hneg : ¬ longNumber 10 cs.flatten < -1 := fun h => hrefused (Or.inr h)
  rcases readFull_ends cs' (longNumber 10 cs.flatten).toNat with
    ⟨cs₃, hfits, -, hread⟩ | ⟨hcut, hread⟩
  · rw [hread] at hpath
    have hwhole : PathWhole cs.flatten := ⟨h20, by omega, not_le.1 hmax, by omega⟩
    exact iff_of_true (Or.inr ⟨hwhole, _, _, hpath⟩) (Or.inl hwhole)
  · rw [hread] at hpath
    refine iff_of_false (hlost hpath)
      (not_or.2 ⟨fun hwhole => ?_, fun hrefused' => hrefused hrefused'.2.2⟩)
    have hfits := hwhole.2.2.2
    omega

/-- **When the framed reads end at the end of the stream**: when the message is complete, or its
length has been refused. Otherwise they read for ever, or behind a buffer of no bytes. -/
theorem framed_reads_end_iff (cs : List Bytes) :
    (∀ dest, Result.Ends (TaskWhole cs.flatten) (readTask dest (ofChunks cs)) ↔
        TaskWhole cs.flatten ∨ TaskRefused cs.flatten) ∧
      (∀ junk malloc, Ends (PathWhole cs.flatten)
          (∃ id path, forksReadPath junk malloc (ofChunks cs) = some (1, id, path))
          (∃ id path, forksReadPath junk malloc (ofChunks cs) = some (0, id, path)) ↔
        PathWhole cs.flatten ∨ PathRefused malloc cs.flatten) ∧
      (Result.Ends (ResultWhole cs.flatten) (readResultMessage (ofChunks cs)) ↔
        ResultWhole cs.flatten) ∧
      (Result.Ends (10 ≤ cs.flatten.length) (forkRequestPid (ofChunks cs)) ↔
        10 ≤ cs.flatten.length) ∧
      ∀ n, Ends (n ≤ cs.flatten.length) (∃ s, clientReadString n (ofChunks cs) = .ok none s)
          (∃ bs s, clientReadString n (ofChunks cs) = .ok (some bs) s) ↔
        n ≤ cs.flatten.length :=
  ⟨ends_readTask cs, ends_forksReadPath cs, ends_readResultMessage cs, ends_forkRequestPid cs,
    ends_clientReadString cs⟩

/-- Streams that end in the first field: no reader returns. -/
theorem framed_reads_hang :
    readTask ⟨0, 0, [], 0⟩ (ofChunks [str "00"]) = .hang ∧
      forksReadPath 0 true (ofChunks [str "00000"]) = none ∧
      readResultMessage (ofChunks [str "1"]) = .hang ∧
      forkRequestPid (ofChunks [str "00000"]) = .hang ∧
      clientReadString 10 (ofChunks [str "00000"]) = .hang ∧
      ¬ Result.Ends (TaskWhole (str "00")) (readTask ⟨0, 0, [], 0⟩ (ofChunks [str "00"])) := by
  have htask : readTask ⟨0, 0, [], 0⟩ (ofChunks [str "00"]) = .hang := by decide +kernel
  exact ⟨htask, by decide +kernel, by decide +kernel, by decide +kernel, by decide +kernel,
    not_ends (Or.inl htask)⟩

end Ends

end DiskAnalyzer
