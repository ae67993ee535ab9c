import DiskAnalyzer.Framed
import DiskAnalyzer.Partition

/-!
# A result, from the worker to the store

`forks_send_result` prints a code and fields of ten characters, and `threads_read_results` takes as
many fields as the code tells: none but the id behind a `'0'`, two counts behind anything else.
What it reads is what was printed, however the stream is cut (`readResultMessage_chunks`), and what
it then does is one update of one record, or one removal (`result_applied`).
-/

namespace DiskAnalyzer

open Treap Decimal ByteStream

/-! ## The bytes -/

/-- `forks_send_result`: the characters of `response` that are sent. -/
def forksResponse (man : ForksManager) (result : Nat) : Bytes :=
  cstr (snprintf 32
    (if result = 0 then 48 :: printWidth 10 man.id
     else
      (result + 48).toUInt8 ::
        (printWidth 10 man.id ++ printWidth 10 man.cntDirs ++ printWidth 10 man.cntFiles)))

/-- A field of ten characters, in a stream that is cut anyhow. -/
theorem readField_chunks {n : Int} (hn : 0 ≤ n ∧ FitsInt n) {cs : List Bytes} {rest : Bytes}
    (h : cs.flatten = printWidth 10 n ++ rest) :
    ∃ cs', readFull 10 (ofChunks cs) = .ok (printWidth 10 n) (ofChunks cs') ∧
      cs'.flatten = rest ∧ atoi (cstr (printWidth 10 n)) = n := by
  obtain ⟨k, rfl⟩ := Int.eq_ofNat_of_zero_le hn.1
  have hk : k < 2 ^ 31 := by
    have := hn.2.2
    omega
  obtain ⟨cs', hread, hrest⟩ := readFull_chunks h
  rw [length_field hk] at hread
  exact ⟨cs', hread, hrest, atoi_field hk⟩

theorem length_printWidth_field {n : Int} (hn : 0 ≤ n ∧ FitsInt n) :
    (printWidth 10 n).length = 10 := by
  obtain ⟨k, rfl⟩ := Int.eq_ofNat_of_zero_le hn.1
  have := hn.2.2
  exact length_field (by omega)

/-- A worker whose numbers fit their fields. -/
structure Printable (w : ForksManager) : Prop where
  id : InRange w.id
  dirs : 0 ≤ w.cntDirs ∧ FitsInt w.cntDirs
  files : 0 ≤ w.cntFiles ∧ FitsInt w.cntFiles

variable {w : ForksManager}

theorem Printable.fitsId (hw : Printable w) : 0 ≤ w.id ∧ FitsInt w.id := by
  have hid := hw.id
  unfold InRange ID_MAX at hid
  unfold FitsInt
  omega

theorem forksResponse_zero (hw : Printable w) :
    forksResponse w 0 = 48 :: printWidth 10 w.id := by
  have hlen := length_printWidth_field hw.fitsId
  rw [forksResponse, if_pos rfl, snprintf, List.take_of_length_le, cstr_eq_self]
  · intro h
    rcases List.mem_cons.1 h with h | h
    · exact absurd h (by decide)
    · exact zero_notMem_printWidth 10 w.id h
  · rw [List.length_cons, hlen]
    decide

/-- Such a code is neither `'0'` nor the end of the message. -/
theorem code_ne {result : Nat} (h0 : result ≠ 0) (h2 : result ≤ 2) :
    (result + 48).toUInt8 ≠ 48 ∧ (result + 48).toUInt8 ≠ 0 := by
  obtain rfl | rfl : result = 1 ∨ result = 2 := by omega
  · decide
  · decide

/-- The codes of a worker that has not failed. -/
theorem forksResponse_counts (hw : Printable w) {result : Nat} (h0 : result ≠ 0)
    (h2 : result ≤ 2) :
    forksResponse w result = (result + 48).toUInt8 ::
      (printWidth 10 w.id ++ (printWidth 10 w.cntDirs ++ printWidth 10 w.cntFiles)) := by
  have hlen := length_printWidth_field hw.fitsId
  have hlen₁ := length_printWidth_field hw.dirs
  have hlen₂ := length_printWidth_field hw.files
  rw [forksResponse, if_neg h0, snprintf, List.take_of_length_le, cstr_eq_self, List.append_assoc]
  · intro h
    simp only [List.mem_cons, List.mem_append] at h
    rcases h with h | (h | h) | h
    · exact (code_ne h0 h2).2 h.symm
    · exact zero_notMem_printWidth 10 _ h
    · exact zero_notMem_printWidth 10 _ h
    · exact zero_notMem_printWidth 10 _ h
  · simp only [List.length_cons, List.length_append]
    omega

/-- What the message says. -/
def resultMessage (w : ForksManager) (result : Nat) : ResultMessage :=
  ⟨(result + 48).toUInt8, w.id, if result = 0 then none else some (w.cntDirs, w.cntFiles)⟩

/-- **The message is read as it was sent**, and nothing behind it. -/
theorem readResultMessage_chunks (hw : Printable w) {result : Nat} (h2 : result ≤ 2)
    {cs : List Bytes} {rest : Bytes} (h : cs.flatten = forksResponse w result ++ rest) :
    ∃ cs', readResultMessage (ofChunks cs) = .ok (resultMessage w result) (ofChunks cs') ∧
      cs'.flatten = rest := by
  have hcode : ∃ b fields, forksResponse w result = b :: fields ∧ b = (result + 48).toUInt8 := by
    by_cases h0 : result = 0
    · rw [h0]
      exact ⟨_, _, forksResponse_zero hw, rfl⟩
    · exact ⟨_, _, forksResponse_counts hw h0 h2, rfl⟩
  obtain ⟨b, fields, hb, rfl⟩ := hcode
  rw [hb] at h
  rcases readResultValue_ends cs with ⟨b, cs₁, hflat, hread⟩ | ⟨hflat, -⟩
  swap
  · rw [hflat] at h
    exact absurd h (by simp)
  rw [hflat, List.cons_append, List.cons.injEq] at h
  obtain ⟨rfl, hfields⟩ := h
  by_cases h0 : result = 0
  · subst h0
    obtain rfl : printWidth 10 w.id = fields := by
      rw [forksResponse_zero hw] at hb
      exact (List.cons.inj hb).2
    obtain ⟨cs₂, hread₁, hrest₁, hid⟩ := readField_chunks hw.fitsId hfields
    refine ⟨cs₂, ?_, hrest₁⟩
    rw [readResultMessage, hread, Result.ok_bind, hread₁, Result.ok_bind]
    dsimp only
    rw [hid, if_pos (by decide)]
    rfl
  · have hne := (code_ne h0 h2).1
    rw [forksResponse_counts hw h0 h2] at hb
    obtain rfl := (List.cons.inj hb).2
    rw [List.append_assoc, List.append_assoc] at hfields
    obtain ⟨cs₂, hread₁, hrest₁, hid⟩ := readField_chunks hw.fitsId hfields
    obtain ⟨cs₃, hread₂, hrest₂, hdirs⟩ := readField_chunks hw.dirs hrest₁
    obtain ⟨cs₄, hread₃, hrest₃, hfiles⟩ := readField_chunks hw.files hrest₂
    refine ⟨cs₄, ?_, hrest₃⟩
    rw [readResultMessage, hread, Result.ok_bind, hread₁, Result.ok_bind]
    dsimp only
    rw [if_neg hne, hread₂, Result.ok_bind, hread₃, Result.ok_bind, hid, hdirs, hfiles,
      resultMessage, if_neg h0]

/-! ## The store -/

/-- `threads_read_results`: the store it leaves. Where a read fails the return value is 1, and the
store is not touched. -/
def readResults (dirPath : Bytes) (inGroup : Int → Bool) (now : Int) (man : ThreadsManager)
    (s : Source) : Result ThreadsManager :=
  (readResultMessage s).bind fun msg s =>
    let counts := msg.counts.getD (0, 0)
    .ok (threadsReadResults dirPath inGroup now man msg.result msg.id counts.1 counts.2) s

/-- What a message that does not report a failure makes of its record: the counts are added, and
the last message, code 1, completes it. -/
def Analysis.told (w : ForksManager) (result : Nat) (now : Int) (a : Analysis) : Analysis :=
  { a with
    cntDirs := a.cntDirs + w.cntDirs
    cntFiles := a.cntFiles + w.cntFiles
    status := if result = 1 then ANALYSIS_COMPLETE else a.status
    totalTime := if result = 1 then wrap32 (a.totalTime + (now - a.lastStart)) else a.totalTime }

/-- One record has been written, and nothing else. -/
structure Written (id : Int) (a : Analysis) (man man' : ThreadsManager) : Prop where
  store : treapFind man'.analyses = Function.update (treapFind man.analyses) id (some a)
  counter : man'.analysisCnt = man.analysisCnt
  paths : man'.paths = man.paths
  free : man'.availableIds = man.availableIds

/-- The record `a` has been removed, from the store and from the trie, its id is free, and nothing
else has changed. -/
structure Erased (id : Int) (a : Analysis) (man man' : ThreadsManager) : Prop where
  store : treapFind man'.analyses = Function.update (treapFind man.analyses) id none
  counter : man'.analysisCnt = man.analysisCnt - 1
  paths : ∀ cs, GoodNames cs →
    man'.paths.val cs = if cs = components a.path then none else man.paths.val cs
  free : ∀ x, x ∈ man'.availableIds.ids ↔ x = id ∨ x ∈ man.availableIds.ids

variable {man : ThreadsManager}

theorem InStep.erased (hi : InStep man) {id : Int} {a : Analysis}
    (ha : treapFind man.analyses id = some a) (dirPath : Bytes) (inGroup : Int → Bool) (fd : Int) :
    Erased id a man (threadsRemove dirPath inGroup man id fd).man := by
  obtain ⟨h, hm⟩ := (find_eq_some_iff hi.store).1 ha
  have hex := extract_eq_of_mem hi.store hm
  obtain ⟨hret, -, -, hval⟩ := Tree.remove_spec hi.trie a.path
  have hindex := hi.indexed.index_key ha (goodNames_components a.path)
  have hret' := hret.2 (by rw [hindex]; simp)
  rw [threadsRemove, hex]
  refine ⟨find_extract hi.store id, rfl, ?_, fun x => mem_ids_insertNode⟩
  intro cs hcs
  simp only [hval cs hcs, hret', true_and]

theorem threadsRemove_absent (ho : man.analyses.Ordered) {id : Int}
    (ha : treapFind man.analyses id = none) (dirPath : Bytes) (inGroup : Int → Bool) (fd : Int) :
    (threadsRemove dirPath inGroup man id fd).man = man := by
  rw [threadsRemove, extract_of_notMem ho ((find_eq_none_iff ho).1 ha)]

theorem Analysis.path_result (result : UInt8) (cntDirs cntFiles now : Int) (a : Analysis) :
    (a.result result cntDirs cntFiles now).path = a.path := by
  rw [Analysis.result]
  split_ifs <;> rfl

/-- Sums that fit are not wrapped. -/
theorem Analysis.result_eq_told {result : Nat} (h0 : result ≠ 0) (h2 : result ≤ 2) (now : Int)
    {a : Analysis} (hdirs : FitsInt (a.cntDirs + w.cntDirs))
    (hfiles : FitsInt (a.cntFiles + w.cntFiles)) :
    a.result (result + 48).toUInt8 w.cntDirs w.cntFiles now = a.told w result now := by
  rw [Analysis.result, Analysis.told, wrap32_of_fitsInt hdirs, wrap32_of_fitsInt hfiles]
  obtain rfl | rfl : result = 1 ∨ result = 2 := by omega
  · rfl
  · rfl

/-- **A result updates its analysis and nothing else.** For every store, worker, code and cutting
of the stream: the bytes are used up; the store, the counter and the paths stay in step; without a
record of that id nothing changes; and otherwise the code 0 removes the record, and the others add
the counts to it. -/
theorem result_applied (hi : InStep man) (dirPath : Bytes) (inGroup : Int → Bool) (now : Int)
    {result : Nat} (h2 : result ≤ 2) (hw : Printable w)
    (hadd : ∀ a, treapFind man.analyses w.id = some a →
      FitsInt (a.cntDirs + w.cntDirs) ∧ FitsInt (a.cntFiles + w.cntFiles))
    {cs : List Bytes} (hcs : cs.flatten = forksResponse w result) :
    ∃ man' cs', readResults dirPath inGroup now man (ofChunks cs) = .ok man' (ofChunks cs') ∧
      cs'.flatten = [] ∧ InStep man' ∧
      (treapFind man.analyses w.id = none → man' = man) ∧
      ∀ a, treapFind man.analyses w.id = some a →
        (result = 0 → Erased w.id a man man') ∧
          (result ≠ 0 → Written w.id (a.told w result now) man man') := by
  obtain ⟨cs', hread, hrest⟩ := readResultMessage_chunks hw h2 (hcs.trans (List.append_nil _).symm)
  rw [readResults, hread, Result.ok_bind, resultMessage]
  refine ⟨_, cs', rfl, hrest, ?_⟩
  dsimp only
  rw [threadsReadResults]
  by_cases h0 : result = 0
  · subst h0
    rw [if_pos rfl]
    refine ⟨inStep_remove hi dirPath inGroup w.id (-1), ?_, ?_⟩
    · exact fun ha => threadsRemove_absent hi.store ha dirPath inGroup (-1)
    · exact fun a ha => ⟨fun _ => hi.erased ha dirPath inGroup (-1), fun h => absurd rfl h⟩
  · have hne := (code_ne h0 h2).1
    rw [if_neg hne, if_neg h0, Option.getD_some]
    dsimp only
    cases ha : treapFind man.analyses w.id with
    | none => exact ⟨hi, fun _ => rfl, fun a h => absurd h (by simp)⟩
    | some a =>
      obtain ⟨hdirs, hfiles⟩ := hadd a ha
      have htold := a.result_eq_told h0 h2 now hdirs hfiles
      refine ⟨hi.modify w.id (Analysis.path_result _ _ _ now), fun h => absurd h (by simp), ?_⟩
      intro a' ha'
      obtain rfl := Option.some.inj ha'
      refine ⟨fun h => absurd h h0, fun _ => ⟨?_, rfl, rfl, rfl⟩⟩
      dsimp only
      rw [find_modify, ha, Option.map_some, htold]

/-- The store after an add of "/a", which got the id 1. -/
def oneAnalysis : ThreadsManager :=
  (threadsAdd ⟨true, some 0, true, none, some 10, 5⟩ emptyService.man
    (newAnalysis (str "/a") 2 (0, 0)) 5).man

theorem inStep_oneAnalysis : InStep oneAnalysis :=
  (threadsAdd_exit _ _ _ _).inStep
    (sound_startup (show threadsStartup quietStart [] = some emptyService.man from rfl)).1.inStep
    fun _ _ => List.not_mem_nil

/-- The last message of the worker of 1, seven seconds after its start: 3 directories, 4 files. -/
theorem result_applied_one :
    ∃ man', (∃ cs', readResults [] (fun _ => true) 12 oneAnalysis
      (ofChunks [str "10000", str "000001000000000300000000", str "04"]) =
        .ok man' (ofChunks cs')) ∧ treapFind man'.analyses 1 =
          some ⟨7, 5, 4, 3, str "/a", 2, ANALYSIS_COMPLETE, ANALYSIS_RESUMED, 10⟩ := by
  have hfind : treapFind oneAnalysis.analyses 1 =
      some ⟨0, 5, 0, 0, str "/a", 2, ANALYSIS_INPROGRESS, ANALYSIS_RESUMED, 10⟩ := by
    decide +kernel
  obtain ⟨man', cs', hread, -, -, -, heffect⟩ := result_applied
    (w := ⟨1, str "/a", 3, 4, 0, 0, []⟩) inStep_oneAnalysis [] (fun _ => true) 12
    (show 1 ≤ 2 by decide) ⟨⟨by decide, by decide⟩, by decide, by decide⟩ (fun a ha => by
      rw [hfind] at ha
      obtain rfl := Option.some.inj ha
      decide)
    (show [str "10000", str "000001000000000300000000", str "04"].flatten = _ by decide +kernel)
  refine ⟨man', ⟨cs', hread⟩, ?_⟩
  rw [((heffect _ hfind).2 (by decide)).store, Function.update_self]
  rfl

end DiskAnalyzer
