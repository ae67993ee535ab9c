import DiskAnalyzer.Partition
import DiskAnalyzer.TaskProof

/-!
# `analysis.c`: which records come back from the data file

Every number of a record is printed with `%.010d` and cut to ten characters. The precision counts
digits only, so a negative number is eleven characters and loses its last digit (`writeInt_neg`);
the other two encoders pad to a width, which counts the sign. The only field a client can make
negative is the priority: `readInt` decodes a sign, and neither `request_thread` nor `threads_add`
looks at it. So a record comes back as it was exactly when its priority is not negative
(`readsBack_iff`).
-/

namespace DiskAnalyzer

open Treap Decimal ByteStream

/-! ## Negative numbers -/

/-- Without its last digit a number is its tenth. -/
theorem take_digits {p n : Nat} (h0 : 0 < n) (h : n < 10 ^ (p + 1)) :
    (digits (p + 1) n).take p = digits p (n / 10) := by
  have hlen : (Nat.digits 10 (n / 10)).length ≤ p :=
    (Nat.digits_length_le_iff (by decide) _).2 (by rw [pow_succ] at h; omega)
  have hdig : Nat.digits 10 n = n % 10 :: Nat.digits 10 (n / 10) := Nat.digits_def' (by decide) h0
  rw [digits, digits, hdig, List.length_cons, List.cons_append, List.reverse_cons, List.map_append,
    Nat.add_sub_add_right]
  apply List.take_left'
  simp only [List.length_map, List.length_reverse, List.length_append, List.length_replicate]
  omega

/-- What the ten characters of a negative number are. -/
theorem writeInt_neg {n : Int} (h : FitsInt n) (hn : n < 0) :
    writeInt n = 45 :: digits 9 (n.natAbs / 10) := by
  have hlt : n.natAbs < 10 ^ (9 + 1) := by
    have := h.1
    omega
  rw [writeInt, snprintf, printPrec, if_pos hn, List.take_succ_cons,
    take_digits (by omega) hlt]

/-- **A field tells a number exactly when it is not negative.** -/
theorem atoi_writeInt_iff {n : Int} (h : FitsInt n) : atoi (writeInt n) = n ↔ 0 ≤ n := by
  constructor
  · intro heq
    by_contra hn
    have hlow := h.1
    rw [writeInt_neg h (by omega), atoi_neg_digits (by omega)] at heq
    omega
  · exact atoi_writeInt h

/-! ## Records of add requests -/

/-- A decoded priority is an `int` of at most four characters. -/
theorem readTask_priority {dest tsk : Task} {s s' : Source} (h : readTask dest s = .ok tsk s')
    (hcnt : tsk.cnt = 1) : tsk.priority.natAbs < 10000 := by
  rw [readTask] at h
  cases hread : Task.readInt s with
  | ok cnt s₁ =>
    rw [hread, Result.ok_bind] at h
    split_ifs at h with h6 h1
    · obtain ⟨rfl, -⟩ := by simpa using h
      exact absurd hcnt (by simp only; omega)
    · cases hprio : Task.readInt s₁ with
      | ok priority s₂ =>
        rw [hprio, Result.ok_bind] at h
        cases hpath : Task.readString s₂ with
        | ok path s₃ =>
          obtain ⟨rfl, -⟩ := by simpa [hpath] using h
          exact readInt_ok hprio
        | error | hang | undefined => simp [hpath] at h
      | error | hang | undefined => simp [hprio] at h
    · cases hid : Task.readInt s₁ with
      | ok id s₂ =>
        obtain ⟨rfl, -⟩ := by simpa [hid] using h
        exact absurd hcnt h1
      | error | hang | undefined => simp [hid] at h
  | error | hang | undefined => simp [hread] at h

/-- A record that an add request made, whatever has been counted, timed and signalled since. -/
structure MadeBy (tsk : Task) (a : Analysis) : Prop extends Coded a where
  path : a.path = tsk.path
  priority : a.priority = tsk.priority
  totalTime : 0 ≤ a.totalTime ∧ FitsInt a.totalTime
  cntDirs : 0 ≤ a.cntDirs ∧ FitsInt a.cntDirs
  cntFiles : 0 ≤ a.cntFiles ∧ FitsInt a.cntFiles

/-- `analysis_read` of what `analysis_write` wrote, with more behind it, returns 0, the same id and
the same record, and leaves what is behind. -/
def ReadsBack (id : Int) (a : Analysis) (lastStart pid : Int) (rest : Bytes) : Prop :=
  ∃ b, analysisRead lastStart pid ⟨analysisWrite id a ++ rest, none⟩ = .ok (id, b, ⟨rest, none⟩) ∧
    SameRecord a b ∧ b.priority = a.priority

theorem MadeBy.storable {tsk : Task} {a : Analysis} (h : MadeBy tsk a)
    (hpath : 0 ∉ tsk.path ∧ tsk.path.length < 10000) (hprio : tsk.priority.natAbs < 10000) :
    Storable a where
  totalTime := h.totalTime
  cntDirs := h.cntDirs
  cntFiles := h.cntFiles
  path := by
    rw [h.path]
    exact ⟨hpath.1, lt_of_le_of_lt hpath.2 (by decide)⟩
  priority := by
    rw [h.priority]
    unfold FitsInt
    omega
  status := h.fits.1
  suspended := h.fits.2

/-- A record comes back exactly when its priority is not negative. -/
theorem Storable.readsBack_iff {a : Analysis} (ha : Storable a) {id : Int} (hid : InRange id)
    (lastStart pid : Int) (rest : Bytes) : ReadsBack id a lastStart pid rest ↔ 0 ≤ a.priority := by
  have hid' : 0 ≤ id ∧ FitsInt id := by
    unfold InRange ID_MAX at hid
    unfold FitsInt
    omega
  obtain ⟨b, hread, hb⟩ := analysisRead_write hid' ha.writable lastStart pid rest
  rw [← atoi_writeInt_iff ha.priority, ← hb.priority]
  constructor
  · intro hback
    obtain ⟨b', hread', -, hprio⟩ := hback
    rw [hread] at hread'
    obtain rfl : b = b' := by simpa using hread'
    exact hprio
  · exact fun hprio => ⟨b, hread, hb.sameRecord ha, hprio⟩

/-- **Which requests are saved faithfully.** For every record of an add message that `readTask`
decodes, under every id, with anything behind it in the file. -/
theorem readsBack_madeBy_iff {dest tsk : Task} {s s' : Source}
    (hmsg : readTask dest s = .ok tsk s') (hcnt : tsk.cnt = 1) {a : Analysis} (ha : MadeBy tsk a)
    {id : Int} (hid : InRange id) (lastStart pid : Int) (rest : Bytes) :
    ReadsBack id a lastStart pid rest ↔ 0 ≤ tsk.priority := by
  have hstore := ha.storable ((readTask_ok hmsg).1 hcnt) (readTask_priority hmsg hcnt)
  rw [← ha.priority]
  exact hstore.readsBack_iff hid lastStart pid rest

/-- The message that adds "/d" with the priority -5. -/
def lowMessage : Source := ofChunks [str "0001-0050002/d"]

/-- What it decodes to. -/
def lowTask : Task := ⟨1, 0, str "/d", -5⟩

theorem readTask_lowMessage : readTask ⟨0, 0, [], 0⟩ lowMessage = .ok lowTask (ofChunks []) := by
  decide +kernel

/-- An add for which everything succeeds. -/
def quietAdd : AddEnv := ⟨true, some 0, true, none, some 10, 0⟩

/-- The record that adding `lowTask` to an empty store leaves under the id 1. -/
def lowRecord : Analysis := ⟨0, 0, 0, 0, str "/d", -5, ANALYSIS_INPROGRESS, ANALYSIS_RESUMED, 10⟩

theorem madeBy_lowRecord : MadeBy lowTask lowRecord where
  status := Or.inr (Or.inl rfl)
  suspended := Or.inr rfl
  path := rfl
  priority := rfl
  totalTime := by decide
  cntDirs := by decide
  cntFiles := by decide

theorem readsBack_madeBy_iff_low : ¬ ReadsBack 1 lowRecord 0 0 [] := by
  rw [readsBack_madeBy_iff readTask_lowMessage rfl madeBy_lowRecord ⟨by decide, by decide⟩]
  decide

/-- The priority -5 is written as "-000000000" and read as 0. -/
theorem not_readsBack_low :
    ¬ ∀ dest tsk s s', readTask dest s = .ok tsk s' → tsk.cnt = 1 → ∀ env memory fd,
      (threadsAdd env emptyService.man (newAnalysis tsk.path tsk.priority memory) fd).ret = 0 →
      ∀ id a, treapFind (threadsAdd env emptyService.man
        (newAnalysis tsk.path tsk.priority memory) fd).man.analyses id = some a →
        ReadsBack id a 0 0 [] := by
  intro hall
  have hadd : (threadsAdd quietAdd emptyService.man
      (newAnalysis lowTask.path lowTask.priority (0, 0)) 5).ret = 0 := by decide +kernel
  have hfind : treapFind (threadsAdd quietAdd emptyService.man
      (newAnalysis lowTask.path lowTask.priority (0, 0)) 5).man.analyses 1 = some lowRecord := by
    decide +kernel
  have hback := hall _ _ _ _ readTask_lowMessage rfl quietAdd (0, 0) 5 hadd 1 lowRecord hfind
  have hstore : Storable lowRecord := madeBy_lowRecord.storable
    ⟨by decide +kernel, by decide +kernel⟩ (by decide)
  exact absurd ((hstore.readsBack_iff ⟨by decide, by decide⟩ 0 0 []).1 hback) (by decide)

end DiskAnalyzer
