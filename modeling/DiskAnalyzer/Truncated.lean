import DiskAnalyzer.RestartProof
import Mathlib.Data.List.Forall2
import Mathlib.Data.List.Perm.Basic

/-!
# Starting up from a data file that has been cut

`read_string_by_size` asks `read` for the bytes of a field and takes what it gets: only a negative
result is an error. So a field that the file does not have, or has a part of, is read as a shorter
one, and `threads_startup` adds as many analyses as the first ten bytes of the file say.

* `size_loadLoop`: the loading loop adds one node each round, whatever the file holds.
* `loadLoop_take`: it goes through wherever a saved file ends.
* `told_loadLoop`: from records that are whole it builds their nodes.
* `truncated_iff`: a cut file is refused, or told right, exactly if the cut leaves the records
  whole.
-/

namespace DiskAnalyzer

open Treap Decimal Analysis

/-! ## Reads that do not fail -/

/-- The same file, no read of which fails. -/
def Fd.steady (fd : Fd) : Fd := ⟨fd.rest, none⟩

theorem read_steady {fd fd' : Fd} {n : Nat} {s : Bytes} (h : fd.read n = some (s, fd')) :
    fd.steady.read n = some (s, fd'.steady) := by
  rw [Fd.read] at h
  split_ifs at h with hzero
  obtain ⟨rfl, rfl⟩ := Prod.mk.inj (Option.some.inj h)
  rfl

theorem readStringBySize_steady {sz : Int} {fd fd' : Fd} {s : Bytes}
    (h : readStringBySize sz fd = .ok (s, fd')) :
    readStringBySize sz fd.steady = .ok (s, fd'.steady) := by
  rw [readStringBySize] at h ⊢
  split_ifs at h ⊢ with hsz
  cases hread : fd.read sz.toNat with
  | none => simp [hread] at h
  | some p =>
    obtain ⟨buf, fd₁⟩ := p
    simp only [hread, Except.ok.injEq, Prod.mk.injEq] at h
    obtain ⟨rfl, rfl⟩ := h
    rw [read_steady hread]

theorem readInt_steady {fd fd' : Fd} {n : Int} (h : readInt fd = .ok (n, fd')) :
    readInt fd.steady = .ok (n, fd'.steady) := by
  rw [readInt] at h ⊢
  cases hread : readStringBySize 10 fd with
  | error e => simp [hread] at h
  | ok p =>
    obtain ⟨string, fd₁⟩ := p
    simp only [hread, Except.ok.injEq, Prod.mk.injEq] at h
    obtain ⟨rfl, rfl⟩ := h
    rw [readStringBySize_steady hread]

theorem readString_steady {fd fd' : Fd} {s : Bytes} (h : readString fd = .ok (s, fd')) :
    readString fd.steady = .ok (s, fd'.steady) := by
  rw [readString] at h ⊢
  cases hread : readInt fd with
  | error e => simp [hread] at h
  | ok p =>
    obtain ⟨sz, fd₁⟩ := p
    simp only [hread] at h
    rw [readInt_steady hread]
    exact readStringBySize_steady h

theorem bind_ok {α β : Type} {x : Except Fail α} {k : α → Except Fail β} {r : β}
    (h : (x >>= k) = .ok r) : ∃ a, x = .ok a ∧ k a = .ok r := by
  cases x with
  | error e => exact absurd h (by simp [bind, Except.bind])
  | ok a => exact ⟨a, rfl, h⟩

theorem analysisRead_steady {lastStart pid id : Int} {fd fd' : Fd} {a : Analysis}
    (h : analysisRead lastStart pid fd = .ok (id, a, fd')) :
    analysisRead lastStart pid fd.steady = .ok (id, a, fd'.steady) := by
  rw [analysisRead] at h ⊢
  obtain ⟨⟨id', fd₁⟩, h₁, h⟩ := bind_ok h
  obtain ⟨⟨totalTime, fd₂⟩, h₂, h⟩ := bind_ok h
  obtain ⟨⟨cntDirs, fd₃⟩, h₃, h⟩ := bind_ok h
  obtain ⟨⟨cntFiles, fd₄⟩, h₄, h⟩ := bind_ok h
  obtain ⟨⟨path, fd₅⟩, h₅, h⟩ := bind_ok h
  obtain ⟨⟨priority, fd₆⟩, h₆, h⟩ := bind_ok h
  obtain ⟨⟨status, fd₇⟩, h₇, h⟩ := bind_ok h
  obtain ⟨⟨suspended, fd₈⟩, h₈, h⟩ := bind_ok h
  obtain ⟨rfl, rfl, rfl⟩ : id' = id ∧ _ = a ∧ fd₈ = fd' := by
    simpa [pure, Except.pure] using h
  simp only [readInt_steady h₁, readInt_steady h₂, readInt_steady h₃, readInt_steady h₄,
    readString_steady h₅, readInt_steady h₆, readInt_steady h₇, readInt_steady h₈, bind,
    Except.bind, pure, Except.pure]

theorem readCount_steady {fd fd' : Fd} {n : Int} (h : readCount fd = some (n, fd')) :
    readCount fd.steady = some (n, fd'.steady) := by
  rw [readCount] at h ⊢
  cases hread : fd.read 10 with
  | none => simp [hread] at h
  | some p =>
    obtain ⟨string, fd₁⟩ := p
    simp only [hread, Option.some.injEq, Prod.mk.injEq] at h
    obtain ⟨rfl, rfl⟩ := h
    rw [read_steady hread]

/-! ## Reads at the end of the file -/

theorem readInt_eq (f : Bytes) :
    readInt ⟨f, none⟩ = .ok (atoi (cstr (f.take 10)), ⟨f.drop 10, none⟩) := rfl

/-- A field of ten, cut or not. -/
theorem readInt_take {w : Bytes} (hw : w.length = 10) (rest : Bytes) (k : Nat) :
    readInt ⟨(w ++ rest).take k, none⟩ =
      .ok (atoi (cstr (w.take k)), ⟨rest.take (k - 10), none⟩) := by
  have htake : ((w ++ rest).take k).take 10 = w.take k := by
    rw [List.take_take, min_comm, ← List.take_take, List.take_left' hw]
  have hdrop : ((w ++ rest).take k).drop 10 = rest.take (k - 10) := by
    rw [List.drop_take, List.drop_left' hw]
  rw [readInt_eq, htake, hdrop]

/-- A length field, cut or not, is no negative number and no larger than an `int` holds. -/
theorem atoi_take_length {n : Nat} (hn : n + 1 < 2 ^ 31) (k : Nat) :
    0 ≤ atoi (cstr ((writeInt n).take k)) ∧ atoi (cstr ((writeInt n).take k)) + 1 < 2 ^ 31 ∧
      (10 ≤ k → atoi (cstr ((writeInt n).take k)) = n) := by
  have hfits : FitsInt n := ⟨by omega, by omega⟩
  have hlen := length_writeInt hfits
  have hwrite : writeInt n = digits 10 n := by
    rw [writeInt, snprintf, printPrec, if_neg (by omega), Int.natAbs_natCast]
    apply List.take_of_length_le
    rw [length_digits_of_lt (by omega)]
  have hdigit : ∀ b ∈ (writeInt n).take k, isDigit b = true := by
    intro b hb
    rw [hwrite] at hb
    exact isDigit_of_mem_digits (List.mem_of_mem_take hb)
  rw [cstr_eq_self fun h => zero_notMem_writeInt n (List.mem_of_mem_take h)]
  by_cases hk : 10 ≤ k
  · rw [List.take_of_length_le (by omega), atoi_writeInt hfits (by omega)]
    exact ⟨by omega, by omega, fun _ => rfl⟩
  · have hshort : ((writeInt n).take k).length ≤ 9 := by
      rw [List.length_take]
      omega
    have hlt := atoi_lt_of_isDigit hdigit hshort
    have hpow : (10 : Int) ^ ((writeInt n).take k).length ≤ 10 ^ 9 :=
      pow_le_pow_right₀ (by decide) hshort
    exact ⟨hlt.1, by omega, fun h => absurd h hk⟩

/-- A string field, cut or not. -/
theorem readString_take {s : Bytes} (hs : s.length + 1 < 2 ^ 31) (rest : Bytes) (k : Nat) :
    ∃ s', readString ⟨(writeString s ++ rest).take k, none⟩ =
      .ok (s', ⟨rest.take (k - (writeString s).length), none⟩) := by
  have hlen := fitsInt_length hs
  have hfield := length_writeInt hlen
  have hws : (writeString s).length = 10 + s.length := by
    have happ := writeString_append hlen []
    simp only [List.append_nil] at happ
    rw [happ, List.length_append, hfield]
  obtain ⟨hlow, hhigh, hwhole⟩ := atoi_take_length hs k
  have hleft : ((s ++ rest).take (k - 10)).drop (atoi (cstr ((writeInt s.length).take k))).toNat =
      rest.take (k - (writeString s).length) := by
    rw [List.drop_take, hws]
    by_cases hk : 10 ≤ k
    · rw [hwhole hk, Int.toNat_natCast, List.drop_left, Nat.sub_sub]
    · -- The file ends within the length, so there is nothing ahead.
      rw [show k - 10 - _ = 0 by omega, show k - (10 + s.length) = 0 by omega]
      rfl
  rw [writeString_append hlen, readString, readInt_take hfield]
  dsimp only
  rw [readStringBySize, if_neg (by omega)]
  simp only [Fd.read, reduceCtorEq, if_false, Option.map_none, hleft]
  exact ⟨_, rfl⟩

/-- **A record, cut or not**, is read without an error. -/
theorem analysisRead_take {id : Int} (hid : FitsInt id) {a : Analysis} (ha : Writable a)
    (lastStart pid : Int) (rest : Bytes) (k : Nat) :
    ∃ id' b, analysisRead lastStart pid ⟨(analysisWrite id a ++ rest).take k, none⟩ =
      .ok (id', b, ⟨rest.take (k - (analysisWrite id a).length), none⟩) := by
  have hwrite : analysisWrite id a ++ rest = writeInt id ++ (writeInt a.totalTime ++
      (writeInt a.cntDirs ++ (writeInt a.cntFiles ++ (writeString a.path ++
        (writeInt a.priority ++ (writeInt a.status ++ (writeInt a.suspended ++ rest))))))) := by
    simp only [analysisWrite, List.append_assoc]
  rw [hwrite, analysisRead, readInt_take (length_writeInt hid)]
  simp only [bind, Except.bind]
  rw [readInt_take (length_writeInt ha.totalTime)]
  dsimp only
  rw [readInt_take (length_writeInt ha.cntDirs)]
  dsimp only
  rw [readInt_take (length_writeInt ha.cntFiles)]
  dsimp only
  obtain ⟨path, hpath⟩ := readString_take ha.path.2
    (writeInt a.priority ++ (writeInt a.status ++ (writeInt a.suspended ++ rest)))
    (k - 10 - 10 - 10 - 10)
  rw [hpath]
  dsimp only
  rw [readInt_take (length_writeInt ha.priority)]
  dsimp only
  rw [readInt_take (length_writeInt ha.status)]
  dsimp only
  rw [readInt_take (length_writeInt ha.suspended)]
  have hleft : k - 10 - 10 - 10 - 10 - (writeString a.path).length - 10 - 10 - 10 =
      k - (analysisWrite id a).length := by
    simp only [analysisWrite, List.length_append, length_writeInt hid,
      length_writeInt ha.totalTime, length_writeInt ha.cntDirs, length_writeInt ha.cntFiles,
      length_writeInt ha.priority, length_writeInt ha.status, length_writeInt ha.suspended]
    omega
  dsimp only
  rw [hleft]
  exact ⟨_, _, rfl⟩

/-! ## The loops -/

/-- **Each round adds one node**, whatever it has read. -/
theorem size_loadLoop {env : StartEnv} (n : Nat) {k : Nat} {ld ld' : Loaded}
    (h : loadLoop env n k ld = some ld') : ld'.analyses.size = ld.analyses.size + n := by
  induction n generalizing k ld with
  | zero =>
    obtain rfl := Option.some.inj h
    rfl
  | succ n ih =>
    rw [loadLoop] at h
    cases hone : loadOne env k ld with
    | none => simp [hone] at h
    | some ld₁ =>
      rw [hone] at h
      obtain ⟨id, a, heap, -, hins, -⟩ := loadOne_some hone
      have hsize := (perm_insertNode ld.analyses id heap a).length_eq
      rw [← hins, List.length_cons, ← size_eq_length, ← size_eq_length] at hsize
      rw [ih h, hsize]
      omega

/-- The node `e` is what the record `d` says. -/
def Told (d e : Entry) : Prop := e.1 = d.1 ∧ Reread d.2.2 e.2.2

/-- What a record must be to be read back: its id no negative `int`, its numbers `int`s. -/
def Tellable (e : Entry) : Prop := (0 ≤ e.1 ∧ FitsInt e.1) ∧ Writable e.2.2

/-- **The loop over whole records** builds their nodes. -/
theorem told_loadLoop {env : StartEnv} (todo : List Entry) (hw : ∀ e ∈ todo, Tellable e)
    {k : Nat} {ld ld' : Loaded} {rest : Bytes} (hfd : ld.fd.rest = savedBytes todo ++ rest)
    (h : loadLoop env todo.length k ld = some ld') :
    ∃ ns, ld'.analyses.inorder.Perm (ns ++ ld.analyses.inorder) ∧ List.Forall₂ Told todo ns := by
  induction todo generalizing k ld with
  | nil =>
    obtain rfl := Option.some.inj h
    exact ⟨[], List.Perm.refl _, List.Forall₂.nil⟩
  | cons e todo ih =>
    rw [List.length_cons, loadLoop] at h
    cases hone : loadOne env k ld with
    | none => simp [hone] at h
    | some ld₁ =>
      rw [hone] at h
      obtain ⟨id, a, heap, hread, hins, -⟩ := loadOne_some hone
      have hperm := perm_insertNode ld.analyses id heap a
      rw [← hins] at hperm
      obtain ⟨hid, hrec⟩ := hw e List.mem_cons_self
      obtain ⟨b, hwrite, hb⟩ := analysisRead_write hid hrec (env.memory k).1 (env.memory k).2
        (savedBytes todo ++ rest)
      -- The record ahead is the one that has been read.
      have hsteady := analysisRead_steady hread
      rw [Fd.steady, hfd, savedBytes, List.flatMap_cons, List.append_assoc] at hsteady
      obtain ⟨rfl, rfl, hfd₁⟩ : e.1 = id ∧ b = a ∧ (⟨_, none⟩ : Fd) = ld₁.fd.steady := by
        simpa using hwrite.symm.trans hsteady
      obtain ⟨ns, hns, htold⟩ := ih (fun e' he' => hw e' (List.mem_cons_of_mem _ he'))
        (congrArg Fd.rest hfd₁).symm h
      refine ⟨(e.1, heap, b) :: ns, ?_, List.Forall₂.cons ⟨rfl, hb⟩ htold⟩
      exact (hns.trans (hperm.append_left ns)).trans List.perm_middle

/-- **The loop over a cut file** goes through. -/
theorem loadLoop_take {env : StartEnv} (he : env.Succeeds) (todo : List Entry)
    (hw : ∀ e ∈ todo, Tellable e) {rest : Bytes} (k m : Nat) (ld : Loaded)
    (hfd : ld.fd = ⟨(savedBytes todo ++ rest).take m, none⟩) :
    ∃ ld', loadLoop env todo.length k ld = some ld' := by
  induction todo generalizing k m ld with
  | nil => exact ⟨ld, rfl⟩
  | cons e todo ih =>
    obtain ⟨hid, hrec⟩ := hw e List.mem_cons_self
    obtain ⟨id, a, hread⟩ := analysisRead_take hid.2 hrec (env.memory k).1 (env.memory k).2
      (savedBytes todo ++ rest) m
    obtain ⟨heap, hrand⟩ := Option.ne_none_iff_exists'.1 (he.rand k)
    rw [savedBytes, List.flatMap_cons, List.append_assoc] at hfd
    have hone : loadOne env k ld = some
        ⟨treapInsertNode ld.analyses (node id heap a nil nil),
          (treeInsert ld.paths a.path (some id) none).2, max id ld.mxId,
          ⟨(savedBytes todo ++ rest).take (m - (analysisWrite e.1 e.2.2).length), none⟩⟩ := by
      rw [loadOne, if_neg (by simp [he.record k]), hfd]
      rw [savedBytes] at hread ⊢
      rw [hread]
      simp [insertNew_eq, hrand, he.alloc, Tree.insert_none_fst]
    rw [List.length_cons, loadLoop, hone]
    exact ih (fun e' he' => hw e' (List.mem_cons_of_mem _ he')) (k + 1) _ _ rfl

theorem freeLoop_eq_some {env : StartEnv} (he : env.Succeeds) (t : Treap Analysis) (n : Nat)
    (i : Int) (free : Treap Unit) : ∃ free', freeLoop env t n i free = some free' := by
  induction n generalizing i free with
  | zero => exact ⟨free, rfl⟩
  | succ n ih =>
    rw [freeLoop]
    split_ifs
    · exact ⟨free, rfl⟩
    · cases treapFind t i with
      | some a => exact ih _ _
      | none =>
        obtain ⟨heap, hrand⟩ := Option.ne_none_iff_exists'.1 (he.randFree i)
        rw [insertNew_eq, hrand]
        exact ih _ _

/-- The initial forks leave what is told of a record. -/
theorem told_initialForks {env : StartEnv} {t t' : Treap Analysis}
    (h : initialForks env t = some t') {ds : List Entry} (hd : List.Forall₂ Told ds t.inorder) :
    List.Forall₂ Told ds t'.inorder := by
  induction t generalizing t' ds with
  | nil =>
    obtain rfl := Option.some.inj h
    exact hd
  | node i k a l r ihl ihr =>
    rw [initialForks] at h
    cases hf : forked env i a with
    | none =>
      rw [forked] at hf
      simp [hf] at h
    | some b =>
      have hsame : ∃ pid lastStart, b = { a with pid, lastStart } := by
        rw [forked] at hf
        split_ifs at hf
        · obtain ⟨pid, -, rfl⟩ := Option.map_eq_some_iff.1 hf
          exact ⟨pid, env.now i, rfl⟩
        · exact ⟨-1, a.lastStart, (Option.some.inj hf).symm⟩
      rw [forked] at hf
      simp only [hf] at h
      cases hl : initialForks env l with
      | none => simp [hl] at h
      | some l' =>
        simp only [hl] at h
        obtain ⟨r', hr, rfl⟩ := Option.map_eq_some_iff.1 h
        rw [inorder_node] at hd ⊢
        obtain ⟨dl, dr, hdl, hdr, rfl⟩ : ∃ dl dr, List.Forall₂ Told dl l.inorder ∧
            List.Forall₂ Told dr ((i, k, a) :: r.inorder) ∧ ds = dl ++ dr :=
          ⟨_, _, List.forall₂_take_append _ _ _ hd, List.forall₂_drop_append _ _ _ hd,
            (List.take_append_drop _ _).symm⟩
        cases hdr with
        | cons htold hdr =>
          obtain ⟨pid, lastStart, rfl⟩ := hsame
          obtain ⟨hid, h1, h2, h3, h4, h5, h6, h7⟩ := htold
          exact List.rel_append (ihl hl hdl)
            (List.Forall₂.cons ⟨hid, h1, h2, h3, h4, h5, h6, h7⟩ (ihr hr hdr))

/-! ## The file -/

/-- What `threads_shutdown` writes of the records `es`. -/
def savedFile (es : List Entry) : Bytes := writeInt es.length ++ savedBytes es

/-- The records of `es` that lie within the first `k` bytes. -/
def wholeRecords : Nat → List Entry → List Entry
  | _, [] => []
  | k, e :: es =>
    if (analysisWrite e.1 e.2.2).length ≤ k then
      e :: wholeRecords (k - (analysisWrite e.1 e.2.2).length) es
    else []

theorem wholeRecords_eq_self {es : List Entry} {k : Nat} (h : (savedBytes es).length ≤ k) :
    wholeRecords k es = es := by
  induction es generalizing k with
  | nil => rfl
  | cons e es ih =>
    rw [savedBytes, List.flatMap_cons, List.length_append] at h
    rw [wholeRecords, if_pos (by omega), ih (by rw [savedBytes]; omega)]

/-- A cut costs a record. -/
theorem length_wholeRecords_lt {es : List Entry} {k : Nat} (h : k < (savedBytes es).length) :
    (wholeRecords k es).length < es.length := by
  induction es generalizing k with
  | nil => simp [savedBytes] at h
  | cons e es ih =>
    rw [savedBytes, List.flatMap_cons, List.length_append] at h
    rw [wholeRecords]
    split_ifs with hk
    · rw [List.length_cons, List.length_cons]
      exact Nat.succ_lt_succ (ih (by rw [savedBytes]; omega))
    · simp

/-- A store as the threads leave it: its counter is right, and its numbers are `int`s. -/
structure Orderly (man : ThreadsManager) : Prop where
  ordered : man.analyses.Ordered
  cnt : man.analysisCnt = man.analyses.size
  fits : FitsInt man.analysisCnt
  records : ∀ e ∈ man.analyses.inorder, Tellable e

/-- `threads_startup` returns -1 on the file, or builds a store each node of which is what another
one of the records `whole` says. -/
def Refuses (env : StartEnv) (file : Bytes) (whole : List Entry) : Prop :=
  ∀ man', threadsStartup env file = some man' →
    ∃ ds, ds.Subperm whole ∧ List.Forall₂ Told ds man'.analyses.inorder

theorem take_savedFile {es : List Entry} (hfits : FitsInt es.length) {rest : Bytes} {k : Nat}
    (hk : 10 ≤ k) : (savedFile es ++ rest).take k =
      writeInt es.length ++ (savedBytes es ++ rest).take (k - 10) := by
  have hlen := length_writeInt hfits
  rw [savedFile, List.append_assoc, List.take_append, hlen,
    List.take_of_length_le (by rw [hlen]; exact hk)]

/-- The count is read, if anything is. -/
theorem readCount_take {es : List Entry} (hfits : FitsInt es.length) {rest : Bytes} {k : Nat}
    (hk : 10 ≤ k) {reads : Option Nat} {cnt : Int} {fd : Fd}
    (h : readCount ⟨(savedFile es ++ rest).take k, reads⟩ = some (cnt, fd)) :
    cnt = es.length ∧ fd.rest = (savedBytes es ++ rest).take (k - 10) := by
  have hsteady := readCount_steady h
  rw [Fd.steady, take_savedFile hfits hk, readCount_append hfits (by omega)] at hsteady
  simp only [Option.some.injEq, Prod.mk.injEq] at hsteady
  exact ⟨hsteady.1.symm, (congrArg Fd.rest hsteady.2).symm⟩

/-- **A cut file is no obstacle.** When no call fails, there is a store, with as many nodes as the
file had records. -/
theorem startup_take {es : List Entry} (hw : ∀ e ∈ es, Tellable e) (hfits : FitsInt es.length)
    (rest : Bytes) {k : Nat} (hk : 10 ≤ k) {env : StartEnv} (he : env.Succeeds) :
    ∃ man', threadsStartup env ((savedFile es ++ rest).take k) = some man' ∧
      man'.analyses.size = es.length := by
  obtain ⟨ld, hload⟩ := loadLoop_take he es hw 0 (k - 10)
    ⟨nil, treeInit, 0, ⟨(savedBytes es ++ rest).take (k - 10), none⟩⟩ rfl
  obtain ⟨free, hfree⟩ := freeLoop_eq_some he ld.analyses (ld.mxId + 1).toNat 1 nil
  obtain ⟨store, hfork, hids, -⟩ := initialForks_eq he ld.analyses
  refine ⟨⟨es.length, store, ld.paths, free⟩, ?_, ?_⟩
  · refine startup_of_loops he ?_ hload hfree hfork
    rw [take_savedFile hfits hk, readCount_append hfits (by omega)]
  · have hlen := congrArg List.length hids
    rw [ids, ids, List.length_map, List.length_map, ← size_eq_length, ← size_eq_length] at hlen
    rw [hlen, size_loadLoop _ hload, size_nil, Nat.zero_add]

/-- **A file with its records whole** is told right, if it is not refused. -/
theorem refuses_whole {es : List Entry} (hw : ∀ e ∈ es, Tellable e) (hfits : FitsInt es.length)
    {rest : Bytes} {k : Nat} (hk : (savedFile es).length ≤ k) (env : StartEnv) :
    Refuses env ((savedFile es ++ rest).take k) es := by
  intro man' h
  have hlen : (savedFile es).length = 10 + (savedBytes es).length := by
    rw [savedFile, List.length_append, length_writeInt hfits]
  obtain ⟨cnt, fd, ld, hcount, hload, -, hfork⟩ := startup_some h
  obtain ⟨rfl, hfd⟩ := readCount_take hfits (by omega) hcount
  rw [List.take_append, List.take_of_length_le (by omega)] at hfd
  obtain ⟨ns, hns, htold⟩ := told_loadLoop es hw (by exact hfd) hload
  rw [inorder_nil, List.append_nil] at hns
  -- The treap has the records in the order of their ids.
  obtain ⟨ds, hperm, hds⟩ : ∃ ds, ds.Perm es ∧ List.Forall₂ Told ds ld.analyses.inorder := by
    obtain ⟨ds, hd, hp⟩ := List.perm_comp_forall₂ hns htold.flip
    exact ⟨ds, hp, hd.flip⟩
  exact ⟨ds, hperm.subperm, told_initialForks hfork hds⟩

/-- **A cut data file** is refused, or told right, exactly if the cut leaves every record whole. -/
theorem truncated_iff {man : ThreadsManager} (hm : Orderly man) (old : Bytes) {rounds : Nat}
    (hr : man.analyses.size ≤ rounds) :
    ∃ es, es.Perm man.analyses.inorder ∧ ∃ file, threadsShutdown rounds man old = some file ∧
      ∀ k, 10 ≤ k →
        ((∀ env, Refuses env (file.take k) (wholeRecords (k - 10) es)) ↔
          (savedFile es).length ≤ k) ∧
        ∀ env, env.Succeeds →
          (Refuses env (file.take k) (wholeRecords (k - 10) es) ↔ (savedFile es).length ≤ k) := by
  obtain ⟨es, hperm, hsave⟩ := save_eq hm.ordered hr
  have hlen : es.length = man.analyses.size := by rw [hperm.length_eq, size_eq_length]
  have hcnt : man.analysisCnt = es.length := by rw [hm.cnt, hlen]
  have hfits : FitsInt es.length := hcnt ▸ hm.fits
  have hw : ∀ e ∈ es, Tellable e := fun e he => hm.records e (hperm.mem_iff.1 he)
  have hfile : (savedFile es).length = 10 + (savedBytes es).length := by
    rw [savedFile, List.length_append, length_writeInt hfits]
  refine ⟨es, hperm, savedFile es ++ old.drop (savedFile es).length, ?_, ?_⟩
  · rw [threadsShutdown, hsave, hcnt]
    rfl
  · intro k hk
    have hright : (savedFile es).length ≤ k → ∀ env, Refuses env
        ((savedFile es ++ old.drop (savedFile es).length).take k) (wholeRecords (k - 10) es) := by
      intro hle env
      rw [wholeRecords_eq_self (by omega)]
      exact refuses_whole hw hfits hle env
    have hleft : ∀ env, env.Succeeds → Refuses env
        ((savedFile es ++ old.drop (savedFile es).length).take k) (wholeRecords (k - 10) es) →
        (savedFile es).length ≤ k := by
      intro env he href
      by_contra hlt
      obtain ⟨man', hup, hsize⟩ := startup_take hw hfits (old.drop (savedFile es).length) hk he
      obtain ⟨ds, hsub, htold⟩ := href man' hup
      have hfew : (wholeRecords (k - 10) es).length < es.length :=
        length_wholeRecords_lt (by omega)
      have hle := hsub.length_le
      rw [htold.length_eq, ← size_eq_length, hsize] at hle
      omega
    exact ⟨⟨fun h => hleft quietStart quietStart_succeeds (h quietStart), hright⟩,
      fun env he => ⟨hleft env he, fun h => hright h env⟩⟩

/-- Two analyses, over a longer file. -/
theorem truncated_iff_two :
    let a : Analysis := ⟨7, 0, 30, 4, str "/a", 2, ANALYSIS_COMPLETE, ANALYSIS_RESUMED, 10⟩
    let b : Analysis := ⟨0, 5, 0, 1, str "/b/c", 1, ANALYSIS_INPROGRESS, ANALYSIS_SUSPENDED, 12⟩
    let man : ThreadsManager :=
      ⟨2, node 1 5 a nil (node 3 9 b nil nil), treeInit, node 2 0 () nil (node 4 1 () nil nil)⟩
    ∃ es, es.Perm man.analyses.inorder ∧
      ∃ file, threadsShutdown 2 man (List.replicate 500 43) = some file ∧
        ∀ k, 10 ≤ k →
          ((∀ env, Refuses env (file.take k) (wholeRecords (k - 10) es)) ↔
            (savedFile es).length ≤ k) ∧
          ∀ env, env.Succeeds →
            (Refuses env (file.take k) (wholeRecords (k - 10) es) ↔ (savedFile es).length ≤ k) := by
  intro a b man
  have ha : Writable a := ⟨by decide, by decide, by decide, by decide +kernel, by decide, by decide,
    by decide⟩
  have hb : Writable b := ⟨by decide, by decide, by decide, by decide +kernel, by decide, by decide,
    by decide⟩
  refine truncated_iff ⟨by simp [man, Ordered], rfl, by decide, ?_⟩ _ (le_refl _)
  intro e he
  simp only [man, inorder_node, inorder_nil, List.nil_append, List.mem_cons, List.not_mem_nil,
    or_false] at he
  rcases he with rfl | rfl
  · exact ⟨by decide, ha⟩
  · exact ⟨by decide, hb⟩

/-- The file of one analysis, cut after the count: there is an analysis 0 with an empty path. -/
theorem truncated_not_refused :
    let a : Analysis := ⟨7, 0, 30, 4, str "/a", 2, ANALYSIS_COMPLETE, ANALYSIS_RESUMED, 10⟩
    let man : ThreadsManager := ⟨1, node 1 5 a nil nil, treeInit, node 2 0 () nil nil⟩
    ∃ file, threadsShutdown 1 man [] = some file ∧ 10 < file.length ∧
      (threadsStartup quietStart (file.take 10)).map (fun man' =>
        (man'.analyses.inorder.map fun e => (e.1, e.2.2.path), man'.paths.val [])) =
        some ([(0, [])], some 0) ∧
      ¬ Refuses quietStart (file.take 10) (wholeRecords 0 man.analyses.inorder) := by
  intro a man
  refine ⟨savedFile [(1, 5, a)], by decide +kernel, by decide +kernel, by decide +kernel, ?_⟩
  intro href
  have hup : (threadsStartup quietStart ((savedFile [(1, 5, a)]).take 10)).map
      (fun man' => man'.analyses.inorder.length) = some 1 := by decide +kernel
  obtain ⟨man', hman, hlen⟩ := Option.map_eq_some_iff.1 hup
  obtain ⟨ds, hsub, htold⟩ := href man' hman
  have hle := hsub.length_le
  rw [htold.length_eq, hlen, show wholeRecords 0 man.analyses.inorder = [] by decide +kernel] at hle
  simp at hle

end DiskAnalyzer
