import DiskAnalyzer.Framed

/-!
# A read that fails in a number

`readInt` does not look at what `readStringBySize` returns. It tests the pointer, which is not
`NULL` after a failure either: the buffer has been freed, `atoi` reads it, and it is freed again. A
read that fails in the path is forwarded, for `readString` returns what `readStringBySize` does.

So `readTask` is right about its message unless a read fails in a number, or bytes come behind the
length -1, for which there is no buffer (`decodes_iff`).
-/

namespace DiskAnalyzer

open Decimal ByteStream

/-- No failed read is decoded: what is returned with 0 is what all the bytes of the message say, and
when a read fails before they are there, that is what is returned. -/
structure Decodes (dest : Task) (s : Source) : Prop where
  /-- No buffer is used that is freed or too small. -/
  defined : readTask dest s ≠ .undefined
  complete : ∀ tsk s', readTask dest s = .ok tsk s' →
    TaskWhole (delivered s) ∧ tsk = taskOf dest (delivered s) ∧
      delivered s' = (delivered s).drop (taskLength (delivered s))
  fails : Event.error ∈ s → ¬ TaskWhole (delivered s) → readTask dest s = .error

section Decodes

variable {dest : Task} {s : Source}

theorem Decodes.of_error (h : readTask dest s = .error) : Decodes dest s :=
  ⟨by rw [h]; simp, fun _ _ hok => by rw [h] at hok; contradiction, fun _ _ => h⟩

/-- A reader that waits for ever has not met an error. -/
theorem Decodes.of_hang (h : readTask dest s = .hang) (hend : Event.error ∉ s) : Decodes dest s :=
  ⟨by rw [h]; simp, fun _ _ hok => by rw [h] at hok; contradiction,
    fun herror => absurd herror hend⟩

/-- A path that is cut off, by an error or by the end of the stream. -/
theorem Decodes.of_cut (h : readTask dest s = if Event.error ∈ s then .error else .hang) :
    Decodes dest s := by
  by_cases herror : Event.error ∈ s
  · rw [if_pos herror] at h
    exact .of_error h
  · rw [if_neg herror] at h
    exact .of_hang h herror

theorem Decodes.of_ok {s' : Source} (hwhole : TaskWhole (delivered s))
    (h : readTask dest s = .ok (taskOf dest (delivered s)) s')
    (hrest : delivered s' = (delivered s).drop (taskLength (delivered s))) : Decodes dest s := by
  refine ⟨by rw [h]; simp, fun tsk s'' hok => ?_, fun _ hnot => absurd hwhole hnot⟩
  obtain ⟨rfl, rfl⟩ := Result.ok.inj (h.symm.trans hok)
  exact ⟨hwhole, rfl, hrest⟩

theorem not_decodes (h : readTask dest s = .undefined) : ¬ Decodes dest s := fun hd => hd.defined h

/-- **When `readTask` decodes no failed read**: exactly when no read fails in a number, and no bytes
follow the length -1. -/
theorem decodes_iff (dest : Task) (s : Source) :
    Decodes dest s ↔
      (Event.error ∈ s → taskNumbers (delivered s) ≤ (delivered s).length) ∧
        (12 < (delivered s).length → number (delivered s) = 1 → pathLength (delivered s) ≠ -1) := by
  have hcases := taskRead dest s
  generalize hread : readTask dest s = r at hcases
  cases hcases with
  | number h =>
    have hnumbers : ¬ taskNumbers (delivered s) ≤ (delivered s).length := not_le.2 h
    by_cases herror : Event.error ∈ s
    · rw [cutOff, if_pos herror] at hread
      exact iff_of_false (not_decodes hread) fun hs => hnumbers (hs.1 herror)
    · rw [cutOff, if_neg herror] at hread
      refine iff_of_true (.of_hang hread herror) ⟨fun he => absurd he herror, fun h12 h1 => ?_⟩
      exact absurd (taskNumbers_of_add (by omega) h1 ▸ h12.le) hnumbers
  | whole h hrest =>
    refine iff_of_true (.of_ok h hread hrest) ⟨fun _ => h.1, fun _ h1 hpast => ?_⟩
    have h0 := (h.2 h1).1
    omega
  | refused h =>
    obtain ⟨h12, h1, hneg⟩ := h
    refine iff_of_true (.of_error hread) ⟨fun _ => ?_, fun _ _ hpast => by omega⟩
    rwa [taskNumbers_of_add (by omega) h1]
  | path h12 h1 h0 hcut =>
    refine iff_of_true (.of_cut hread) ⟨fun _ => ?_, fun _ _ hpast => by omega⟩
    rwa [taskNumbers_of_add (by omega) h1]
  | past h12 h1 hpast =>
    by_cases hmore : 12 < (delivered s).length
    · rw [if_pos hmore] at hread
      exact iff_of_false (not_decodes hread) fun hs => hs.2 hmore h1 hpast
    rw [if_neg hmore] at hread
    refine iff_of_true (.of_cut hread) ⟨fun _ => ?_, fun h => absurd h hmore⟩
    rwa [taskNumbers_of_add (by omega) h1]

end Decodes

/-- Two bytes of the kind, and a read that fails: the buffer that `atoi` reads has been freed. -/
theorem not_decodes_failed :
    readTask ⟨0, 0, [], 0⟩ [.data (str "00"), .error] = .undefined ∧
      ¬ ∀ dest s, Decodes dest s := by
  have hfreed : readTask ⟨0, 0, [], 0⟩ [.data (str "00"), .error] = .undefined := by
    decide +kernel
  exact ⟨hfreed, fun hall => not_decodes hfreed (hall _ _)⟩

end DiskAnalyzer
