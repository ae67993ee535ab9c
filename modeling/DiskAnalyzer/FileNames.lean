import DiskAnalyzer.RepliesProof

/-!
# The names of the files

A worker, `threads_remove` and `analysis_report` each print the name of an analysis's file, into
buffers of `strlen(DIR_PATH) + 11`, 60 and 50 bytes. The worker's buffer holds any name. The others
cut a long one, and a cut name is that of another analysis, or of none.

* `alike_iff`: one file is named alike exactly if its name has at most 49 characters.
* `namesFiles_iff`: all of them are, and apart, exactly if the directory's has at most 43.
-/

namespace DiskAnalyzer

open Treap Decimal

/-- The `filepath` of `forks_read_progress`, `forks_save` and `forks_write`. -/
def forksFilepath (dirPath : Bytes) (id : Int) : Bytes :=
  snprintf (dirPath.length + 11) (dirPath ++ printPrec 1 id)

def PATH_MAX : Nat := 4096

/-- A `DIR_PATH` of the setup script: an absolute path and a slash, with room in a worker's
buffer. -/
structure Installable (dirPath : Bytes) : Prop where
  absolute : dirPath.head? = some slash
  closed : dirPath.getLast? = some slash
  noZero : 0 ∉ dirPath
  fits : dirPath.length + 11 ≤ PATH_MAX

/-- `path` is what the file of analysis `id` is called by the worker, by `threads_remove` when the
analysis is there, and by `analysis_report` to a client. -/
structure Alike (dirPath : Bytes) (id : Int) (path : Bytes) : Prop where
  worker : forksFilepath dirPath id = path
  removed : ∀ inGroup (man : ThreadsManager) fd, man.analyses.Ordered → id ∈ man.analyses.ids →
    (threadsRemove dirPath inGroup man id fd).file = some path
  reported : ∀ fd, 0 ≤ fd → analysisReport dirPath fd id = framed path

/-- All parts name the file of each analysis alike, and different analyses have different files. -/
def NamesFiles (dirPath : Bytes) : Prop :=
  ∃ path : Int → Bytes, (∀ id, 1 ≤ id → id ≤ ID_MAX → Alike dirPath id (path id)) ∧
    ∀ i j, 1 ≤ i → i ≤ ID_MAX → 1 ≤ j → j ≤ ID_MAX → path i = path j → i = j

/-! ## The three buffers -/

/-- An id has at most six digits. -/
theorem length_printPrec_id {id : Int} (h1 : 1 ≤ id) (hmax : id ≤ ID_MAX) :
    (printPrec 1 id).length ≤ 6 := by
  unfold ID_MAX at hmax
  have hdigits := (Nat.digits_length_le_iff (b := 10) (k := 6) (by decide) id.natAbs).2 (by omega)
  rw [printPrec, if_neg (by omega), length_digits]
  omega

theorem forksFilepath_eq (dirPath : Bytes) {id : Int} (h1 : 1 ≤ id) (hmax : id ≤ ID_MAX) :
    forksFilepath dirPath id = dirPath ++ printPrec 1 id := by
  have hlen := length_printPrec_id h1 hmax
  rw [forksFilepath, snprintf]
  apply List.take_of_length_le
  rw [List.length_append]
  omega

theorem file_threadsRemove (dirPath : Bytes) (inGroup : Int → Bool) {man : ThreadsManager}
    {id : Int} (fd : Int) (ho : man.analyses.Ordered) (hid : id ∈ man.analyses.ids) :
    (threadsRemove dirPath inGroup man id fd).file =
      some (snprintf 60 (dirPath ++ printPrec 1 id)) := by
  obtain ⟨h, a, hm⟩ := mem_ids.1 hid
  obtain ⟨hroot, -⟩ := extract_of_mem ho hm
  rw [threadsRemove, show treapExtract man.analyses id =
    (node id h a nil nil, (treapExtract man.analyses id).2) from Prod.ext hroot rfl]

/-- A report says what is left of the name. -/
theorem analysisReport_eq {dirPath : Bytes} (hd : 0 ∉ dirPath) {fd : Int} (hfd : 0 ≤ fd)
    (id : Int) :
    analysisReport dirPath fd id = framed (snprintf 50 (dirPath ++ printPrec 1 id)) := by
  have hlen : (snprintf 50 (dirPath ++ printPrec 1 id)).length ≤ 49 := List.length_take_le _ _
  apply customMessage_eq hfd
  refine ⟨?_, by omega⟩
  intro hmem
  rcases List.mem_append.1 (List.mem_of_mem_take hmem) with h | h
  · exact hd h
  · exact zero_notMem_printPrec 1 id h

theorem framed_inj {s t : Bytes} (hs : s.length < 2 ^ 31) (ht : t.length < 2 ^ 31)
    (h : framed s = framed t) : s = t := by
  have hdrop := congrArg (List.drop 10) h
  rw [framed, framed, List.drop_left' (length_field hs), List.drop_left' (length_field ht)] at hdrop
  exact hdrop

theorem printPrec_inj {i j : Int} (hi : FitsInt i) (hj : FitsInt j)
    (h : printPrec 1 i = printPrec 1 j) : i = j := by
  rw [← atoi_printPrec hi 1, h, atoi_printPrec hj 1]

/-! ## The names -/

/-- **One file** is named alike exactly if its name fits the smallest buffer. -/
theorem alike_iff {dirPath : Bytes} (hd : Installable dirPath) {id : Int} (h1 : 1 ≤ id)
    (hmax : id ≤ ID_MAX) :
    (∃ path, Alike dirPath id path) ↔ dirPath.length + (printPrec 1 id).length ≤ 49 := by
  have hfits := hd.fits
  unfold PATH_MAX at hfits
  have hid := length_printPrec_id h1 hmax
  have hlen : (dirPath ++ printPrec 1 id).length = dirPath.length + (printPrec 1 id).length :=
    List.length_append
  have hworker := forksFilepath_eq dirPath h1 hmax
  constructor
  · intro h
    obtain ⟨path, halike⟩ := h
    -- The report is the worker's name, so it has not been cut.
    have hreport := (analysisReport_eq hd.noZero (le_refl 0) id).symm.trans (halike.reported 0
      (le_refl 0))
    rw [← halike.worker, hworker] at hreport
    have hshort : (snprintf 50 (dirPath ++ printPrec 1 id)).length ≤ 49 := List.length_take_le _ _
    have hsame := framed_inj (by omega) (by omega) hreport
    rw [hsame] at hshort
    omega
  · intro h
    refine ⟨dirPath ++ printPrec 1 id, hworker, ?_, ?_⟩
    · intro inGroup man fd ho hmem
      rw [file_threadsRemove dirPath inGroup fd ho hmem, snprintf,
        List.take_of_length_le (by omega)]
    · intro fd hfd
      rw [analysisReport_eq hd.noZero hfd, snprintf, List.take_of_length_le (by omega)]

/-- **All files** are named alike and apart exactly if the directory leaves room for six digits. -/
theorem namesFiles_iff {dirPath : Bytes} (hd : Installable dirPath) :
    (NamesFiles dirPath ↔ dirPath.length ≤ 43) ∧
      ∀ id, 1 ≤ id → id ≤ ID_MAX →
        ((∃ path, Alike dirPath id path) ↔ dirPath.length + (printPrec 1 id).length ≤ 49) := by
  refine ⟨⟨?_, ?_⟩, fun id h1 hmax => alike_iff hd h1 hmax⟩
  · intro h
    obtain ⟨path, halike, -⟩ := h
    have hlast := (alike_iff hd (by decide) (le_refl ID_MAX)).1
      ⟨_, halike ID_MAX (by decide) (le_refl _)⟩
    rw [show (printPrec 1 ID_MAX).length = 6 by decide +kernel] at hlast
    omega
  · intro h
    refine ⟨fun id => dirPath ++ printPrec 1 id, ?_, ?_⟩
    · intro id h1 hmax
      have hid := length_printPrec_id h1 hmax
      obtain ⟨path, halike⟩ := (alike_iff hd h1 hmax).2 (by omega)
      have hpath : path = dirPath ++ printPrec 1 id :=
        halike.worker.symm.trans (forksFilepath_eq dirPath h1 hmax)
      rw [hpath] at halike
      exact halike
    · intro i j hi1 himax hj1 hjmax heq
      unfold ID_MAX at himax hjmax
      exact printPrec_inj ⟨by omega, by omega⟩ ⟨by omega, by omega⟩ (List.append_cancel_left heq)

theorem namesFiles_iff_var :
    (NamesFiles (str "/var/lib/disk-analyzer/") ↔ (str "/var/lib/disk-analyzer/").length ≤ 43) ∧
      ∀ id, 1 ≤ id → id ≤ ID_MAX →
        ((∃ path, Alike (str "/var/lib/disk-analyzer/") id path) ↔
          (str "/var/lib/disk-analyzer/").length + (printPrec 1 id).length ≤ 49) :=
  namesFiles_iff ⟨by decide +kernel, by decide +kernel, by decide +kernel, by decide +kernel⟩

/-- In the directory of `paths.h`, the client that asks for analysis 100 is told the file of
analysis 10. -/
theorem report_other_file :
    let dirPath := str "/home/characterme/Documents/Disk-Analyzer/data/"
    Installable dirPath ∧ analysisReport dirPath 4 100 = framed (forksFilepath dirPath 10) ∧
      forksFilepath dirPath 100 ≠ forksFilepath dirPath 10 ∧ ¬ NamesFiles dirPath := by
  intro dirPath
  have hd : Installable dirPath :=
    ⟨by decide +kernel, by decide +kernel, by decide +kernel, by decide +kernel⟩
  refine ⟨hd, by decide +kernel, by decide +kernel, ?_⟩
  intro h
  obtain ⟨path, halike, -⟩ := h
  have h100 := halike 100 (by decide) (by decide)
  have hreport : analysisReport dirPath 4 100 = framed (forksFilepath dirPath 100) :=
    h100.worker ▸ h100.reported 4 (by decide)
  exact absurd hreport (by decide +kernel)

end DiskAnalyzer
