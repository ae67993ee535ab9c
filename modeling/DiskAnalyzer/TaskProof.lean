import DiskAnalyzer.Task
import DiskAnalyzer.Threads

/-!
# `task.c`: requests on the wire

What the manager decodes from a request does not depend on how the bytes are cut into reads
(`readTask_chunks`): every field is four characters, whatever the number. A number of at most four
digits is its field's value; a larger one is cut to its first four digits, and the manager decodes
another number.

Ids go up to `ID_MAX`, which has six digits, so `survives_iff`: a request with an id survives
exactly when the id has at most four digits.
-/

namespace DiskAnalyzer

open Decimal ByteStream

/-! ## Fields -/

/-- A field is four characters wide, whatever the number. -/
theorem length_appendInt (n : Int) : (appendInt n).length = 4 := by
  unfold appendInt snprintf printWidth
  rw [List.length_take]
  split_ifs with hn
  · rw [List.length_cons, length_digits]
    omega
  · rw [length_digits]
    omega

theorem zero_notMem_appendInt (n : Int) : 0 ∉ appendInt n := by
  intro h
  have hmem : (0 : UInt8) ∈ printWidth 4 n := List.mem_of_mem_take h
  unfold printWidth at hmem
  split_ifs at hmem with hn
  · rcases List.mem_cons.1 hmem with h | h
    · exact absurd h (by decide)
    · exact zero_notMem_digits _ _ h
  · exact zero_notMem_digits _ _ hmem

theorem atoi_appendInt {n : Int} (h0 : 0 ≤ n) (h : n ≤ 9999) : atoi (appendInt n) = n := by
  have hfit : appendInt n = printWidth 4 n := by
    unfold appendInt snprintf
    apply List.take_of_length_le
    rw [printWidth, if_neg (by omega), length_digits_of_lt]
    · decide
    · simp only [show max 1 4 = 4 from rfl]
      omega
  rw [hfit, atoi_printWidth (by unfold FitsInt; omega)]

/-- **A number of five digits or more becomes another one.** -/
theorem atoi_appendInt_lt {n : Int} (h : 10000 ≤ n) : atoi (appendInt n) < 10000 := by
  have hdigits : ∀ b ∈ appendInt n, isDigit b = true := by
    intro b hb
    have hmem : b ∈ printWidth 4 n := List.mem_of_mem_take hb
    rw [printWidth, if_neg (by omega)] at hmem
    exact isDigit_of_mem_digits hmem
  have hlt := (atoi_lt_of_isDigit hdigits (by rw [length_appendInt]; decide)).2
  rwa [length_appendInt] at hlt

/-! ## Reading from chunks -/

theorem readStringBySize_chunks {s rest : Bytes} (h0 : 0 ∉ s) (hs : s.length + 1 < 2 ^ 31)
    {cs : List Bytes} (h : cs.flatten = s ++ rest) :
    ∃ cs', Task.readStringBySize s.length (ofChunks cs) = .ok s (ofChunks cs') ∧
      cs'.flatten = rest := by
  obtain ⟨cs', hread, hrest⟩ := readFull_chunks h
  refine ⟨cs', ?_, hrest⟩
  rw [Task.readStringBySize, if_neg (by omega), if_neg (by omega), if_neg (by omega),
    Int.toNat_natCast, hread, Result.ok_bind, cstr_eq_self h0]

theorem readInt_chunks (n : Int) {rest : Bytes} {cs : List Bytes}
    (h : cs.flatten = appendInt n ++ rest) :
    ∃ cs', Task.readInt (ofChunks cs) = .ok (atoi (appendInt n)) (ofChunks cs') ∧
      cs'.flatten = rest := by
  have hlen := length_appendInt n
  obtain ⟨cs', hread, hrest⟩ := readStringBySize_chunks (zero_notMem_appendInt n)
    (by rw [hlen]; decide) h
  refine ⟨cs', ?_, hrest⟩
  rw [hlen] at hread
  rw [Task.readInt, show (4 : Int) = ((4 : Nat) : Int) from rfl, hread]

theorem readString_chunks {s rest : Bytes} (h0 : 0 ∉ s) (hs : s.length < 10000)
    {cs : List Bytes} (h : cs.flatten = appendString s ++ rest) :
    ∃ cs', Task.readString (ofChunks cs) = .ok s (ofChunks cs') ∧ cs'.flatten = rest := by
  have hwrap : wrap32 (s.length : Int) = s.length := by
    apply wrap32_of_fitsInt
    unfold FitsInt
    omega
  have hfit : snprintf (s.length + 1) s = s := by simp [snprintf]
  rw [appendString, hwrap, hfit, List.append_assoc] at h
  obtain ⟨cs₁, hread, hrest⟩ := readInt_chunks _ h
  obtain ⟨cs', hread', hrest'⟩ := readStringBySize_chunks h0 (by omega) hrest
  refine ⟨cs', ?_, hrest'⟩
  rw [Task.readString, hread, Result.ok_bind, atoi_appendInt (by omega) (by omega), hread']

/-- What `readTask` decodes from the bytes of a task. -/
def decoded (dest src : Task) : Task :=
  if src.cnt = 6 then { dest with cnt := 6 }
  else if src.cnt = 1 then
    { dest with cnt := 1, priority := atoi (appendInt src.priority), path := src.path }
  else { dest with cnt := src.cnt, id := atoi (appendInt src.id) }

/-- **Decoding from chunks**: the outcome does not depend on them, and exactly the bytes of the
task are consumed. -/
theorem readTask_chunks {src : Task} (hcnt : 0 ≤ src.cnt ∧ src.cnt ≤ 9999)
    (hpath : src.cnt = 1 → 0 ∉ src.path ∧ src.path.length < 10000) (dest : Task) {rest : Bytes}
    {cs : List Bytes} (h : cs.flatten = taskToString src ++ rest) :
    ∃ cs', readTask dest (ofChunks cs) = .ok (decoded dest src) (ofChunks cs') ∧
      cs'.flatten = rest := by
  rw [taskToString] at h
  by_cases h6 : src.cnt = 6
  · rw [if_pos h6] at h
    obtain ⟨cs', hread, hrest⟩ := readInt_chunks 6 h
    refine ⟨cs', ?_, hrest⟩
    rw [readTask, hread, Result.ok_bind, atoi_appendInt (by decide) (by decide), if_pos rfl,
      decoded, if_pos h6]
  · rw [if_neg h6] at h
    by_cases h1 : src.cnt = 1
    · rw [if_pos h1, List.append_assoc, List.append_assoc] at h
      obtain ⟨h0, hlen⟩ := hpath h1
      obtain ⟨cs₁, hread₁, hrest₁⟩ := readInt_chunks 1 h
      obtain ⟨cs₂, hread₂, hrest₂⟩ := readInt_chunks _ hrest₁
      obtain ⟨cs', hread₃, hrest⟩ := readString_chunks h0 hlen hrest₂
      refine ⟨cs', ?_, hrest⟩
      rw [readTask, hread₁, Result.ok_bind, atoi_appendInt (by decide) (by decide),
        if_neg (by decide), if_pos rfl, hread₂, Result.ok_bind, hread₃, Result.ok_bind, decoded,
        if_neg h6, if_pos h1]
    · rw [if_neg h1, List.append_assoc] at h
      obtain ⟨cs₁, hread₁, hrest₁⟩ := readInt_chunks _ h
      obtain ⟨cs', hread₂, hrest⟩ := readInt_chunks _ hrest₁
      refine ⟨cs', ?_, hrest⟩
      rw [readTask, hread₁, Result.ok_bind, atoi_appendInt hcnt.1 hcnt.2, if_neg h6, if_neg h1,
        hread₂, Result.ok_bind, decoded, if_neg h6, if_neg h1]

/-! ## What was read -/

/-- A string read by its size is a C string of at most that many bytes. -/
theorem readStringBySize_ok {sz : Int} {s s' : Source} {string : Bytes}
    (h : Task.readStringBySize sz s = .ok string s') : 0 ∉ string ∧ (string.length : Int) ≤ sz := by
  rw [Task.readStringBySize] at h
  split_ifs at h with hmax hneg hpast
  · exact absurd h (readPast_ne_ok s)
  cases hread : readFull sz.toNat s with
  | ok buf s'' =>
    obtain ⟨rfl, -⟩ : cstr buf = string ∧ s'' = s' := by simpa [hread] using h
    have hlen := length_readFull hread
    have hle : (cstr buf).length ≤ buf.length := (List.takeWhile_sublist _).length_le
    refine ⟨?_, by omega⟩
    intro h0
    simpa using List.mem_takeWhile_imp h0
  | error | hang | undefined => simp [hread] at h

/-- A number on the wire is an `int` of at most four characters. -/
theorem readInt_ok {s s' : Source} {n : Int} (h : Task.readInt s = .ok n s') :
    n.natAbs < 10000 := by
  rw [Task.readInt] at h
  split at h
  · rename_i string s'' hread
    obtain ⟨rfl, -⟩ : atoi string = n ∧ s'' = s' := by simpa using h
    have hlen := (readStringBySize_ok hread).2
    calc (atoi string).natAbs < 10 ^ string.length := natAbs_atoi_lt (by omega)
      _ ≤ 10 ^ 4 := Nat.pow_le_pow_right (by decide) (by omega)
  all_goals simp at h

/-- **What `readTask` returns**: a path of at most 9999 bytes, an id of at most four characters. -/
theorem readTask_ok {dest tsk : Task} {s s' : Source} (h : readTask dest s = .ok tsk s') :
    (tsk.cnt = 1 → 0 ∉ tsk.path ∧ tsk.path.length < 10000) ∧
      (tsk.cnt ≠ 1 → tsk.cnt ≠ 6 → tsk.id.natAbs < 10000) := by
  rw [readTask] at h
  cases hcnt : Task.readInt s with
  | ok cnt s₁ =>
    rw [hcnt, Result.ok_bind] at h
    split_ifs at h with h6 h1
    · obtain ⟨rfl, -⟩ := by simpa using h
      exact ⟨fun h1 => by simp only at h1; omega, fun _ hne => absurd h6 hne⟩
    · cases hprio : Task.readInt s₁ with
      | ok priority s₂ =>
        rw [hprio, Result.ok_bind, Task.readString] at h
        cases hsz : Task.readInt s₂ with
        | ok sz s₃ =>
          rw [hsz, Result.ok_bind] at h
          cases hpath : Task.readStringBySize sz s₃ with
          | ok path s₄ =>
            obtain ⟨rfl, -⟩ := by simpa [hpath] using h
            have hlen := readInt_ok hsz
            obtain ⟨h0, hle⟩ := readStringBySize_ok hpath
            have hlt : path.length < 10000 := by omega
            exact ⟨fun _ => ⟨h0, hlt⟩, fun hne => absurd h1 hne⟩
          | error | hang | undefined => simp [hpath] at h
        | error | hang | undefined => simp [hsz] at h
      | error | hang | undefined => simp [hprio] at h
    · cases hid : Task.readInt s₁ with
      | ok id s₂ =>
        obtain ⟨rfl, -⟩ := by simpa [hid] using h
        exact ⟨fun h => absurd h h1, fun _ _ => readInt_ok hid⟩
      | error | hang | undefined => simp [hid] at h
  | error | hang | undefined => simp [hcnt] at h

/-! ## The client's requests -/

/-- A value `getopt_long` can return for the client's option string. -/
def ValidOpt (opt : Opt) : Prop :=
  opt.val = none ∨ ∃ c ∈ ['a', 'p', 'S', 'R', 'r', 'i', 'l', 'h', '?'], opt.val = some c

/-- The first `switch` sets the request kind, and the path only for an add. -/
theorem taskOfOption_cnt {opt : Opt} (hopt : ValidOpt opt) {tsk res : Task}
    (h : taskOfOption opt tsk = some res) : 1 ≤ res.cnt ∧ res.cnt ≤ 8 := by
  rcases hopt with hval | ⟨c, hc, hval⟩
  · rw [taskOfOption, hval] at h
    exact absurd h (by simp)
  · rw [taskOfOption, hval] at h
    simp only [List.mem_cons, List.not_mem_nil, or_false] at hc
    rcases hc with rfl | rfl | rfl | rfl | rfl | rfl | rfl | rfl | rfl <;>
      simp only [Option.some.injEq, reduceCtorEq] at h <;> subst h <;> simp

/-- What `get_task` returns has the kind of its first option. -/
theorem getTask_cnt {opt1 opt2 opt3 : Opt} (hopt : ValidOpt opt1) {more : Bool}
    {realpath : Bytes → Option Bytes} {tsk res : Task}
    (h : getTask opt1 opt2 opt3 more realpath tsk = some res) : 1 ≤ res.cnt ∧ res.cnt ≤ 8 := by
  rw [getTask] at h
  by_cases he : opt1.errno
  · simp [he] at h
  · rw [if_neg he] at h
    cases htask : taskOfOption opt1 tsk with
    | none => simp [htask] at h
    | some tsk' =>
      have hcnt := taskOfOption_cnt hopt htask
      rw [htask] at h
      dsimp only at h
      by_cases h2 : opt2.errno
      · simp [h2] at h
      rw [if_neg h2] at h
      by_cases h1 : tsk'.cnt ≠ 1
      · rw [if_pos h1] at h
        split_ifs at h
        obtain rfl : tsk' = res := by simpa using h
        exact hcnt
      · rw [if_neg h1] at h
        cases hprio : addPriority opt2 with
        | none => simp [hprio] at h
        | some priority =>
          rw [hprio] at h
          dsimp only at h
          split_ifs at h
          obtain ⟨fullPath, -, rfl⟩ := Option.map_eq_some_iff.1 h
          exact hcnt

/-- A request the client can send: an add with a path of fewer than 10000 bytes, a request about an
id up to `ID_MAX`, or a list. `realpath` returns C strings. -/
def Produced (src : Task) : Prop :=
  (∃ opt1 opt2 opt3 more realpath tsk, ValidOpt opt1 ∧
    (∀ p q, realpath p = some q → (0 : UInt8) ∉ q) ∧
    getTask opt1 opt2 opt3 more realpath tsk = some src) ∧
  (src.cnt = 1 → 0 ∉ src.path ∧ src.path.length < 10000) ∧
  (src.cnt ≠ 1 → src.cnt ≠ 6 → 0 ≤ src.id ∧ src.id ≤ ID_MAX) ∧ src.cnt ≠ 8

/-- The fields that matter for the kind of the request. -/
structure SameRequest (src dst : Task) : Prop where
  cnt : dst.cnt = src.cnt
  id : src.cnt ≠ 1 → src.cnt ≠ 6 → dst.id = src.id
  path : src.cnt = 1 → dst.path = src.path
  priority : src.cnt = 1 → 0 ≤ src.priority → src.priority ≤ 9999 → dst.priority = src.priority

/-- However the stream is cut, the request is decoded and its bytes are consumed, no more. -/
def Survives (src : Task) : Prop :=
  ∀ (dest : Task) (cs : List Bytes) (rest : Bytes), cs.flatten = taskToString src ++ rest →
    ∃ dst cs', readTask dest (ofChunks cs) = .ok dst (ofChunks cs') ∧ cs'.flatten = rest ∧
      SameRequest src dst

theorem sameRequest_decoded {src : Task}
    (hid : src.cnt ≠ 1 → src.cnt ≠ 6 → 0 ≤ src.id ∧ src.id ≤ 9999) (dest : Task) :
    SameRequest src (decoded dest src) := by
  unfold decoded
  by_cases h6 : src.cnt = 6
  · rw [if_pos h6]
    have h1 : src.cnt ≠ 1 := by omega
    exact ⟨h6.symm, fun _ h => absurd h6 h, fun h => absurd h h1, fun h => absurd h h1⟩
  · rw [if_neg h6]
    by_cases h1 : src.cnt = 1
    · rw [if_pos h1]
      exact ⟨h1.symm, fun h => absurd h1 h, fun _ => rfl, fun _ h0 h => atoi_appendInt h0 h⟩
    · rw [if_neg h1]
      obtain ⟨h0, hle⟩ := hid h1 h6
      exact ⟨rfl, fun _ _ => atoi_appendInt h0 hle, fun h => absurd h h1, fun h => absurd h h1⟩

/-- **When a request survives the wire**: exactly when its id, if it has one, has at most four
digits. -/
theorem survives_iff {src : Task} (h : Produced src) :
    Survives src ↔ (src.cnt ≠ 1 → src.cnt ≠ 6 → src.id ≤ 9999) := by
  obtain ⟨⟨opt1, opt2, opt3, more, realpath, tsk, hopt, -, hget⟩, hpath, hid, -⟩ := h
  obtain ⟨hlow, hhigh⟩ := getTask_cnt hopt hget
  have hcnt : 0 ≤ src.cnt ∧ src.cnt ≤ 9999 := by omega
  constructor
  · intro hsurv h1 h6
    by_contra hgt
    have hflat : [taskToString src].flatten = taskToString src ++ [] := by simp
    obtain ⟨dst, cs', hread, -, hsame⟩ := hsurv src _ _ hflat
    obtain ⟨cs'', hread', -⟩ := readTask_chunks hcnt hpath src hflat
    have heq : dst = decoded src src := by
      rw [hread] at hread'
      exact (Result.ok.inj hread').1
    have hdec : (decoded src src).id = atoi (appendInt src.id) := by
      rw [decoded, if_neg h6, if_neg h1]
    have hlt := atoi_appendInt_lt (n := src.id) (by omega)
    have hid' := hsame.id h1 h6
    rw [heq, hdec] at hid'
    omega
  · intro hle dest cs rest hcs
    obtain ⟨cs', hread, hrest⟩ := readTask_chunks hcnt hpath dest hcs
    refine ⟨_, cs', hread, hrest, sameRequest_decoded (fun h1 h6 => ?_) dest⟩
    exact ⟨(hid h1 h6).1, hle h1 h6⟩

/-- An add with a path, cut into single bytes or not. -/
theorem survives_add : Survives ⟨1, 0, str "/home/u", 2⟩ := by
  refine (survives_iff ⟨⟨⟨some 'a', str "u", false⟩, ⟨none, [], false⟩, ⟨none, [], false⟩, false,
    fun _ => some (str "/home/u"), ⟨0, 0, [], 0⟩, Or.inr ⟨'a', by decide, rfl⟩, ?_, rfl⟩, ?_, ?_,
    by decide⟩).2 (fun h => absurd rfl h)
  · intro p q hq
    obtain rfl : str "/home/u" = q := by simpa using hq
    decide +kernel
  · intro _
    decide +kernel
  · intro h
    exact absurd rfl h

/-- `-r 10000`: the manager is told to remove analysis 1000. -/
theorem not_survives_remove : ¬ ∀ src, Produced src → Survives src := by
  intro hall
  have hprod : Produced ⟨4, 10000, [], 0⟩ := by
    refine ⟨⟨⟨some 'r', str "10000", false⟩, ⟨none, [], false⟩, ⟨none, [], false⟩, false,
      fun _ => none, ⟨0, 0, [], 0⟩, Or.inr ⟨'r', by decide, rfl⟩, ?_, by decide +kernel⟩,
      ?_, ?_, ?_⟩
    · intro p q hq
      simp at hq
    · intro h
      simp at h
    · intro _ _
      decide
    · decide
  have hbytes : taskToString ⟨4, 10000, [], 0⟩ = str "00041000" := by decide +kernel
  obtain ⟨dst, cs', hread, -, hsame⟩ := hall _ hprod ⟨0, 0, [], 0⟩ [str "00041000"] []
    (by rw [hbytes]; simp)
  have hid : readTask ⟨0, 0, [], 0⟩ (ofChunks [str "00041000"]) =
      .ok ⟨4, 1000, [], 0⟩ (ofChunks []) := by decide +kernel
  rw [hread] at hid
  have hdst := (Result.ok.inj hid).1
  have := hsame.id (by decide) (by decide)
  rw [hdst] at this
  exact absurd this (by decide)

end DiskAnalyzer
