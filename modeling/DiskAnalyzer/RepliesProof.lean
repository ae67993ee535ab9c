import DiskAnalyzer.Replies
import DiskAnalyzer.RestartProof
import DiskAnalyzer.ServiceProof
import DiskAnalyzer.TaskProof

/-!
# Replies: manager and client agree on their shape

`Message` lists the messages of `analysis.c` with the text their formats describe, `bytes` what
their builders send. A builder's buffer has 150 bytes for everything but the path, which is enough
for any three or four `int`s and the words around them (`Message.fits`), so what is sent is the
whole text behind its length (`bytes_eq_framed`). Only the file name of `analysis_report` has a
buffer of a fixed size.

The client's loops take such frames out of a stream whatever the chunks are
(`clientMessage_chunks`, `clientRecords_chunks`), so they end where the reply does
(`receive_reply`).
-/

namespace DiskAnalyzer

open Treap Decimal ByteStream

/-! ## Numbers and words in a text -/

theorem length_printPrec_le {n : Int} (h : FitsInt n) : (printPrec 1 n).length ≤ 11 := by
  obtain ⟨hl, hu⟩ := h
  have hdigits := (Nat.digits_length_le_iff (b := 10) (k := 10) (by decide) n.natAbs).2 (by omega)
  rw [printPrec]
  split_ifs
  · rw [List.length_cons, length_digits]
    omega
  · rw [length_digits]
    omega

/-- The length of a literal. -/
theorem length_str (s : String) : (str s).length = s.toList.length := List.length_map _

theorem length_padLeft (w : Nat) (s : Bytes) : (padLeft w s).length = max w s.length := by
  rw [padLeft, List.length_append, List.length_replicate]
  omega

theorem zero_notMem_padLeft {w : Nat} {s : Bytes} (h : 0 ∉ s) : 0 ∉ padLeft w s := by
  rw [padLeft, List.mem_append, not_or]
  exact ⟨fun hm => absurd (List.eq_of_mem_replicate hm) (by decide), h⟩

theorem fitsInt_tdiv {n : Int} (h : FitsInt n) : FitsInt (n.tdiv 60) := by
  have habs : (n.tdiv 60).natAbs = n.natAbs / 60 := Int.natAbs_tdiv n 60
  unfold FitsInt at *
  omega

theorem fitsInt_tmod (n : Int) : FitsInt (n.tmod 60) := by
  have habs : (n.tmod 60).natAbs = n.natAbs % 60 := Int.natAbs_tmod n 60
  unfold FitsInt
  omega

/-! ## Messages -/

/-- The messages a request is answered with. -/
inductive Message where
  | noId
  | noMemory
  | noWorker
  | created (id : Int) (anal : Analysis)
  | pathNoExists (path : Bytes)
  | pathAlreadyExists (path : Bytes) (id : Int)
  | idNoExists (id : Int)
  | suspended (id : Int) (anal : Analysis)
  | alreadyDone (id : Int) (anal : Analysis)
  | alreadySuspended (id : Int) (anal : Analysis)
  | alreadyResumed (id : Int) (anal : Analysis)
  | resumed (id : Int) (anal : Analysis)
  | removed (id : Int) (anal : Analysis)
  | status (id : Int) (anal : Analysis)
  | notDone (id : Int) (anal : Analysis)
  | list (now id : Int) (anal : Analysis)

namespace Message

/-- What is sent for a message. -/
def bytes (fd : Int) : Message → Bytes
  | noId => analysisCustomMessage fd (str "Could not create new id. Try removing some analyses.\n")
  | noMemory => analysisCustomMessage fd (str "There was a memory allocation error. Try again.\n")
  | noWorker =>
    analysisCustomMessage fd (str "There was an error starting the analysis process. Try again.\n")
  | created id anal => analysisCreated fd id anal
  | pathNoExists path => analysisPathNoExists fd path
  | pathAlreadyExists path id => analysisPathAlreadyExists fd path id
  | idNoExists id => analysisIdNoExists fd id
  | suspended id anal => analysisSuspended fd id anal
  | alreadyDone id anal => analysisAlreadyDone fd id anal
  | alreadySuspended id anal => analysisAlreadySuspended fd id anal
  | alreadyResumed id anal => analysisAlreadyResumed fd id anal
  | resumed id anal => analysisResumed fd id anal
  | removed id anal => analysisRemoved fd id anal
  | status id anal => analysisStatus fd id anal
  | notDone id anal => analysisNotDone fd id anal
  | list now id anal => analysisList now fd id anal

/-- A text about an analysis. -/
def about (id : Int) (anal : Analysis) (before after : Bytes) : Bytes :=
  before ++ printPrec 1 id ++ str "' for '" ++ anal.path ++ after

/-- The whole text of a message. -/
def text : Message → Bytes
  | noId => str "Could not create new id. Try removing some analyses.\n"
  | noMemory => str "There was a memory allocation error. Try again.\n"
  | noWorker => str "There was an error starting the analysis process. Try again.\n"
  | created id anal =>
    str "Created analysis task with ID '" ++ printPrec 1 id ++ str "' for '" ++ anal.path ++
      str "' and priority '" ++
      (if anal.priority = 1 then str "low"
       else if anal.priority = 2 then str "normal" else str "high") ++ str "'.\n"
  | pathNoExists path => str "There is no directory at '" ++ path ++ str "'.\n"
  | pathAlreadyExists path id =>
    str "Directory '" ++ path ++ str "' is already included in analysis with ID '" ++
      printPrec 1 id ++ str "'.\n"
  | idNoExists id => str "No existing analysis for task ID '" ++ printPrec 1 id ++ str "'.\n"
  | suspended id anal => about id anal (str "Suspended analysis task with ID '") (str "'.\n")
  | alreadyDone id anal =>
    about id anal (str "Analysis task with ID '") (str "' is already done.\n")
  | alreadySuspended id anal =>
    about id anal (str "Analysis task with ID '") (str "' has already been suspended.\n")
  | alreadyResumed id anal =>
    about id anal (str "Analysis task with ID '") (str "' has already been resumed.\n")
  | resumed id anal => about id anal (str "Resumed analysis task with ID '") (str "'.\n")
  | removed id anal =>
    str "Removed analysis task with ID '" ++ printPrec 1 id ++ str "', status '" ++
      (if anal.status = ANALYSIS_PENDING then str "pending"
       else if anal.status = ANALYSIS_INPROGRESS then str "in progress" else str "done") ++
      str "' for '" ++ anal.path ++ str "'.\n"
  | status id anal =>
    about id anal (str "Analysis task with ID '")
      (str "' has status '" ++ statusWord anal ++ str "'.\n")
  | notDone id anal =>
    about id anal (str "Analysis task with ID '") (str "' is not done yet.\n")
  | list now id anal =>
    padLeft 5 (printPrec 1 id) ++ str "\t" ++
      padLeft 3 (if anal.priority = 1 then str "*" else if anal.priority = 2 then str "**"
        else str "***") ++ str "\t" ++ anal.path ++ str "\t" ++
      padLeft 5 (printPrec 1 ((listedTime now anal).tdiv 60)) ++ str "m " ++
      padLeft 2 (printPrec 1 ((listedTime now anal).tmod 60)) ++ str "s\t" ++
      padLeft 15 (statusWord anal) ++ str "\t" ++ printPrec 1 anal.cntFiles ++ str " files, " ++
      printPrec 1 anal.cntDirs ++ str " dirs\n"

/-- A path in a message: a C string, short enough for the `int`s that count its message. -/
def PathOk (path : Bytes) : Prop := 0 ∉ path ∧ path.length + 161 < 2 ^ 31

/-- The numbers in a message are `int`s. -/
def Fits : Message → Prop
  | noId | noMemory | noWorker => True
  | pathNoExists path => PathOk path
  | pathAlreadyExists path id => PathOk path ∧ FitsInt id
  | idNoExists id => FitsInt id
  | list _ id anal =>
    (PathOk anal.path ∧ FitsInt id) ∧ FitsInt anal.cntFiles ∧ FitsInt anal.cntDirs
  | created id anal | suspended id anal | alreadyDone id anal | alreadySuspended id anal
  | alreadyResumed id anal | resumed id anal | removed id anal | status id anal
  | notDone id anal => PathOk anal.path ∧ FitsInt id

/-- The path a message's buffer is sized for. -/
def path : Message → Bytes
  | noId | noMemory | noWorker | idNoExists _ => []
  | pathNoExists path | pathAlreadyExists path _ => path
  | list _ _ anal => anal.path
  | created _ anal | suspended _ anal | alreadyDone _ anal | alreadySuspended _ anal
  | alreadyResumed _ anal | resumed _ anal | removed _ anal | status _ anal
  | notDone _ anal => anal.path

/-- A builder sends its text, cut to its buffer where it has one. -/
theorem bytes_eq (fd : Int) (m : Message) :
    m.bytes fd = analysisCustomMessage fd m.text ∨
      m.bytes fd = analysisMessage fd m.path m.text := by
  cases m with
  | noId | noMemory | noWorker => exact Or.inl rfl
  | _ => exact Or.inr rfl

theorem length_statusWord_le (anal : Analysis) : (statusWord anal).length ≤ 11 := by
  rw [statusWord]
  split_ifs <;> decide

theorem zero_notMem_statusWord (anal : Analysis) : 0 ∉ statusWord anal := by
  rw [statusWord]
  split_ifs <;> decide

theorem length_about {id : Int} (hid : FitsInt id) (anal : Analysis) (before after : Bytes) :
    (about id anal before after).length ≤
      before.length + 18 + anal.path.length + after.length := by
  have hnum := length_printPrec_le hid
  have hword : (str "' for '").length = 7 := rfl
  simp only [about, List.length_append, hword]
  omega

theorem zero_notMem_about {id : Int} {anal : Analysis} {before after : Bytes} (hb : 0 ∉ before)
    (hp : 0 ∉ anal.path) (ha : 0 ∉ after) : 0 ∉ about id anal before after := by
  have hword : 0 ∉ str "' for '" := by decide
  simp only [about, List.mem_append, not_or]
  exact ⟨⟨⟨⟨hb, zero_notMem_printPrec _ _⟩, hword⟩, hp⟩, ha⟩

/-- **The buffers suffice.** -/
theorem length_text_lt {m : Message} (h : m.Fits) : m.text.length < m.path.length + 150 := by
  cases m with
  | noId | noMemory | noWorker => exact (by decide)
  | pathNoExists path =>
    simp only [text, Message.path, List.length_append, length_str, String.reduceToList,
      List.length_cons, List.length_nil]
    omega
  | pathAlreadyExists path id =>
    have hnum := length_printPrec_le h.2
    simp only [text, Message.path, List.length_append, length_str, String.reduceToList,
      List.length_cons, List.length_nil]
    omega
  | idNoExists id =>
    have hnum := length_printPrec_le h
    simp only [text, Message.path, List.length_append, length_str, String.reduceToList,
      List.length_cons, List.length_nil]
    omega
  | created id anal =>
    have hnum := length_printPrec_le h.2
    have hprio : (if anal.priority = 1 then str "low"
        else if anal.priority = 2 then str "normal" else str "high").length ≤ 6 := by
      split_ifs <;> decide
    simp only [text, Message.path, List.length_append, length_str, String.reduceToList,
      List.length_cons, List.length_nil]
    omega
  | removed id anal =>
    have hnum := length_printPrec_le h.2
    have hstatus : (if anal.status = ANALYSIS_PENDING then str "pending"
        else if anal.status = ANALYSIS_INPROGRESS then str "in progress"
        else str "done").length ≤ 11 := by
      split_ifs <;> decide
    simp only [text, Message.path, List.length_append, length_str, String.reduceToList,
      List.length_cons, List.length_nil]
    omega
  | status id anal =>
    have hword := length_statusWord_le anal
    refine (length_about h.2 anal _ _).trans_lt ?_
    simp only [Message.path, List.length_append, length_str, String.reduceToList,
      List.length_cons, List.length_nil]
    omega
  | list now id anal =>
    have hid := length_printPrec_le h.1.2
    have hfiles := length_printPrec_le h.2.1
    have hdirs := length_printPrec_le h.2.2
    have hmin := length_printPrec_le (fitsInt_tdiv (fitsInt_wrap32 (anal.totalTime +
      if anal.status ≠ ANALYSIS_COMPLETE ∧ anal.suspended ≠ ANALYSIS_SUSPENDED then
        now - anal.lastStart
      else 0)))
    have hsec := length_printPrec_le (fitsInt_tmod (listedTime now anal))
    have hprio : (if anal.priority = 1 then str "*" else if anal.priority = 2 then str "**"
        else str "***").length ≤ 3 := by
      split_ifs <;> decide
    have hword := length_statusWord_le anal
    simp only [text, Message.path, List.length_append, length_padLeft, length_str,
      String.reduceToList, List.length_cons, List.length_nil]
    rw [← listedTime] at hmin
    omega
  | _ =>
    refine (length_about h.2 _ _ _).trans_lt ?_
    simp only [Message.path, length_str, String.reduceToList,
      List.length_cons, List.length_nil]
    omega

theorem zero_notMem_text {m : Message} (h : m.Fits) : 0 ∉ m.text := by
  have hnum : ∀ n, 0 ∉ printPrec 1 n := zero_notMem_printPrec 1
  cases m with
  | noId | noMemory | noWorker => exact (by decide)
  | pathNoExists path =>
    have hpath : 0 ∉ path := h.1
    simp only [text, List.mem_append, hpath, or_false]
    decide
  | pathAlreadyExists path id =>
    have hpath : 0 ∉ path := h.1.1
    simp only [text, List.mem_append, hpath, hnum, or_false]
    decide
  | idNoExists id =>
    simp only [text, List.mem_append, hnum, or_false]
    decide
  | created id anal =>
    have hpath : 0 ∉ anal.path := h.1.1
    simp only [text, List.mem_append, hpath, hnum, or_false]
    split_ifs <;> decide
  | removed id anal =>
    have hpath : 0 ∉ anal.path := h.1.1
    simp only [text, List.mem_append, hpath, hnum, or_false]
    split_ifs <;> decide
  | status id anal =>
    refine zero_notMem_about (by decide) h.1.1 ?_
    simp only [List.mem_append, zero_notMem_statusWord, or_false]
    decide
  | list now id anal =>
    have hpath : 0 ∉ anal.path := h.1.1.1
    have hprio : 0 ∉ padLeft 3 (if anal.priority = 1 then str "*"
        else if anal.priority = 2 then str "**" else str "***") := by
      refine zero_notMem_padLeft ?_
      split_ifs <;> decide
    have hpad : ∀ w n, 0 ∉ padLeft w (printPrec 1 n) := fun w n => zero_notMem_padLeft (hnum n)
    have hword : 0 ∉ padLeft 15 (statusWord anal) :=
      zero_notMem_padLeft (zero_notMem_statusWord anal)
    simp only [text, List.mem_append, hpath, hnum, hprio, hpad, hword, or_false]
    decide
  | _ => exact zero_notMem_about (by decide) h.1.1 (by decide)

theorem pathOk {m : Message} (h : m.Fits) : m.path.length + 161 < 2 ^ 31 := by
  cases m with
  | noId | noMemory | noWorker | idNoExists id => norm_num [Message.path]
  | pathNoExists path => exact h.2
  | list now id anal => exact h.1.1.2
  | _ => exact h.1.2

end Message

/-! ## Frames -/

/-- Ten digits of length and the text. -/
def framed (text : Bytes) : Bytes := printWidth 10 text.length ++ text

/-- A text `analysis_custom_message` can count. -/
def Sendable (text : Bytes) : Prop := 0 ∉ text ∧ text.length + 12 < 2 ^ 31

theorem customMessage_eq {fd : Int} (hfd : 0 ≤ fd) {text : Bytes} (h : Sendable text) :
    analysisCustomMessage fd text = framed text := by
  have hlen := h.2
  rw [analysisCustomMessage, if_neg (by omega), wrap32_of_fitsInt ⟨by omega, by omega⟩, snprintf,
    List.take_of_length_le, framed]
  rw [List.length_append, length_field (by omega)]
  omega

theorem Message.sendable {m : Message} (h : m.Fits) : Sendable m.text := by
  have hlen := length_text_lt h
  have hpath := pathOk h
  exact ⟨zero_notMem_text h, by omega⟩

/-- **What is sent is the whole text behind its length.** -/
theorem Message.bytes_eq_framed {fd : Int} (hfd : 0 ≤ fd) {m : Message} (h : m.Fits) :
    m.bytes fd = framed m.text := by
  have hlen := length_text_lt h
  have hroom : snprintf (m.path.length + 150) m.text = m.text :=
    List.take_of_length_le (by omega)
  rcases bytes_eq fd m with heq | heq
  · rw [heq, customMessage_eq hfd (sendable h)]
  · rw [heq, analysisMessage, hroom, customMessage_eq hfd (sendable h)]

/-! ## The client's loops -/

theorem clientReadString_of_readFull {n : Nat} {s s' : Source} {bs : Bytes}
    (h : readFull n s = .ok bs s') : clientReadString n s = .ok (some bs) s' := by
  induction n, s using clientReadString.induct generalizing bs s' with
  | case1 s => simpa [readFull, clientReadString] using h
  | case2 n => simp [readFull] at h
  | case3 n s => simp [readFull] at h
  | case4 n c s hle ih =>
    rw [readFull, if_pos hle] at h
    cases hread : readFull (n + 1 - c.length) s with
    | ok bs' s'' =>
      rw [hread] at h
      obtain ⟨rfl, rfl⟩ : c ++ bs' = bs ∧ s'' = s' := by simpa using h
      rw [clientReadString, if_pos hle, ih hread]
      rfl
    | error | hang | undefined => simp [hread] at h
  | case5 n c s hle =>
    rw [readFull, if_neg hle] at h
    obtain ⟨rfl, rfl⟩ := by simpa using h
    rw [clientReadString, if_neg hle]

theorem clientReadString_of_hang {n : Nat} {s : Source} (h : readFull n s = .hang) :
    clientReadString n s = .hang := by
  induction n, s using clientReadString.induct with
  | case1 s => simp [readFull] at h
  | case2 n => rfl
  | case3 n s => simp [readFull] at h
  | case4 n c s hle ih =>
    rw [readFull, if_pos hle] at h
    cases hread : readFull (n + 1 - c.length) s with
    | hang =>
      rw [clientReadString, if_pos hle, ih hread]
      rfl
    | ok | error | undefined => simp [hread] at h
  | case5 n c s hle => simp [readFull, if_neg hle] at h

theorem clientReadString_chunks {cs : List Bytes} {bs rest : Bytes} (h : cs.flatten = bs ++ rest) :
    ∃ cs', clientReadString bs.length (ofChunks cs) = .ok (some bs) (ofChunks cs') ∧
      cs'.flatten = rest := by
  obtain ⟨cs', hread, hrest⟩ := readFull_chunks h
  exact ⟨cs', clientReadString_of_readFull hread, hrest⟩

/-- A field of ten at the front of a stream. -/
theorem clientReadString_field {n : Nat} (hn : n < 2 ^ 31) {cs : List Bytes} {rest : Bytes}
    (h : cs.flatten = printWidth 10 n ++ rest) :
    ∃ cs', clientReadString 10 (ofChunks cs) = .ok (some (printWidth 10 n)) (ofChunks cs') ∧
      cs'.flatten = rest := by
  have hread := clientReadString_chunks h
  rwa [length_field hn] at hread

/-- **One frame.** -/
theorem clientMessage_chunks {text : Bytes} (ht : Sendable text) {cs : List Bytes} {rest : Bytes}
    (h : cs.flatten = framed text ++ rest) :
    ∃ cs', clientMessage (ofChunks cs) = .ok (some text) (ofChunks cs') ∧ cs'.flatten = rest := by
  obtain ⟨h0, hlen⟩ := ht
  rw [framed, List.append_assoc] at h
  obtain ⟨cs₁, hread₁, hrest₁⟩ := clientReadString_field (by omega) h
  obtain ⟨cs₂, hread₂, hrest₂⟩ := clientReadString_chunks hrest₁
  refine ⟨cs₂, ?_, hrest₂⟩
  rw [clientMessage, hread₁, Result.ok_bind]
  dsimp only
  rw [atoi_field (by omega), if_neg (by omega), Int.toNat_natCast, hread₂, Result.ok_bind,
    Option.map_some, cstr_eq_self h0]

/-- As many frames as were announced. -/
theorem clientRecords_chunks {texts : List Bytes} (ht : ∀ text ∈ texts, Sendable text)
    {cs : List Bytes} {rest : Bytes} (h : cs.flatten = (texts.map framed).flatten ++ rest) :
    ∃ cs', clientRecords texts.length (ofChunks cs) = .ok texts (ofChunks cs') ∧
      cs'.flatten = rest := by
  induction texts generalizing cs with
  | nil => exact ⟨cs, rfl, h⟩
  | cons text texts ih =>
    rw [List.map_cons, List.flatten_cons, List.append_assoc] at h
    obtain ⟨cs₁, hread₁, hrest₁⟩ := clientMessage_chunks (ht text List.mem_cons_self) h
    obtain ⟨cs₂, hread₂, hrest₂⟩ := ih (fun t hm => ht t (List.mem_cons_of_mem _ hm)) hrest₁
    refine ⟨cs₂, ?_, hrest₂⟩
    rw [List.length_cons, clientRecords, hread₁, Result.ok_bind, hread₂, Result.ok_bind]
    rfl

/-! ## What is answered -/

/-- The manager's state as C has it: the store is a search treap of as many nodes as are counted,
its numbers are `int`s and its paths C strings that a message can hold. -/
structure Repliable (man : ThreadsManager) : Prop where
  store : man.analyses.Ordered
  counted : man.analysisCnt = man.analyses.size
  count : FitsInt man.analysisCnt
  ids : ∀ e ∈ man.analyses.inorder, FitsInt e.1
  records : ∀ e ∈ man.analyses.inorder,
    Message.PathOk e.2.2.path ∧ FitsInt e.2.2.cntFiles ∧ FitsInt e.2.2.cntDirs
  owners : ∀ path id, treeFindPrefix man.paths path = some id → FitsInt id
  free : ∀ id ∈ man.availableIds.ids, FitsInt id

/-- What the service keeps suffices, when no path is near the end of `int`. -/
theorem Sound.repliable {man : ThreadsManager} (hs : Sound man)
    (hpaths : ∀ e ∈ man.analyses.inorder, e.2.2.path.length + 161 < 2 ^ 31) : Repliable man := by
  have hfits : ∀ id, InRange id → FitsInt id := by
    intro id hid
    have hmax : ID_MAX = 100000 := rfl
    have hle := hid.2
    exact ⟨by have := hid.1; omega, by omega⟩
  have hrecord : ∀ e ∈ man.analyses.inorder, RecordOk e.2.2 := fun e he =>
    hs.records e.1 e.2.2 ((find_eq_some_iff hs.inStep.store).2 ⟨e.2.1, he⟩)
  refine ⟨hs.inStep.store, hs.inStep.counted, ?_,
    fun e he => hfits _ (hs.used _ (mem_ids_of_mem he)), ?_, ?_,
    fun id hid => hfits _ (hs.free _ hid)⟩
  · have hle := hs.loadable.length_le
    have hmax : ID_MAX = 100000 := rfl
    rw [← size_eq_length] at hle
    rw [hs.inStep.counted]
    exact ⟨by omega, by omega⟩
  · intro e he
    exact ⟨⟨(hrecord e he).path.1, hpaths e he⟩, (hrecord e he).cntFiles, (hrecord e he).cntDirs⟩
  · -- The owner of a prefix is an id of the store.
    intro path id hfind
    obtain ⟨k, -, hval, -⟩ := (Tree.findPrefix_eq_some_iff hs.inStep.trie path id).1 hfind
    have hgood : GoodNames ((components path).take k) := fun c hc =>
      goodNames_components path c (List.mem_of_mem_take hc)
    obtain ⟨anal, hanal, -⟩ := (hs.inStep.indexed _ hgood id).1 hval
    obtain ⟨h, hm⟩ := (find_eq_some_iff hs.inStep.store).1 hanal
    exact hfits _ (hs.used _ (mem_ids_of_mem hm))

section Answers

variable {env : RequestEnv} {man : ThreadsManager} {id fd : Int}

/-- An add is answered by one message. -/
theorem add_message (hman : Repliable man) {anal : Analysis} (hpath : Message.PathOk anal.path) :
    ∃ m : Message, m.Fits ∧ (threadsAdd env.add man anal fd).reply = m.bytes fd := by
  have hexit := threadsAdd_exit env.add man anal fd
  generalize threadsAdd env.add man anal fd = res at hexit ⊢
  cases hexit with
  | notDir => exact ⟨.pathNoExists anal.path, hpath, rfl⟩
  | covered hdir hpre =>
    exact ⟨.pathAlreadyExists anal.path _, ⟨hpath, hman.owners _ _ hpre⟩, rfl⟩
  | noId => exact ⟨.noId, trivial, rfl⟩
  | noMemory => exact ⟨.noMemory, trivial, rfl⟩
  | noNode => exact ⟨.noMemory, trivial, rfl⟩
  | noFork => exact ⟨.noWorker, trivial, rfl⟩
  | added hpre hget =>
    exact ⟨.created _ _, ⟨hpath, hman.free _ (mem_ids_of_getFreeId hget)⟩, rfl⟩

/-- What a record found in the store is worth. -/
theorem Repliable.found (hman : Repliable man) {anal : Analysis}
    (hfind : treapFind man.analyses id = some anal) : Message.PathOk anal.path ∧ FitsInt id := by
  obtain ⟨h, hmem⟩ := (find_eq_some_iff hman.store).1 hfind
  exact ⟨(hman.records _ hmem).1, hman.ids _ hmem⟩

theorem suspend_message (hman : Repliable man) (hid : FitsInt id) :
    ∃ m : Message, m.Fits ∧
      (threadsSuspend env.inGroup env.now man id fd).reply = m.bytes fd := by
  rw [threadsSuspend]
  cases hfind : treapFind man.analyses id with
  | none => exact ⟨.idNoExists id, hid, rfl⟩
  | some anal =>
    have hfits := hman.found hfind
    dsimp only
    split_ifs
    · exact ⟨.suspended id anal, hfits, rfl⟩
    · exact ⟨.suspended id anal, hfits, rfl⟩
    · exact ⟨.alreadySuspended id anal, hfits, rfl⟩
    · exact ⟨.alreadyDone id anal, hfits, rfl⟩

theorem resume_message (hman : Repliable man) (hid : FitsInt id) :
    ∃ m : Message, m.Fits ∧
      (threadsResume env.inGroup env.now man id fd).reply = m.bytes fd := by
  rw [threadsResume]
  cases hfind : treapFind man.analyses id with
  | none => exact ⟨.idNoExists id, hid, rfl⟩
  | some anal =>
    have hfits := hman.found hfind
    dsimp only
    split_ifs
    · exact ⟨.resumed id anal, hfits, rfl⟩
    · exact ⟨.resumed id anal, hfits, rfl⟩
    · exact ⟨.alreadyDone id anal, hfits, rfl⟩
    · exact ⟨.alreadyResumed id anal, hfits, rfl⟩

theorem remove_message (hman : Repliable man) (hid : FitsInt id) :
    ∃ m : Message, m.Fits ∧
      (threadsRemove env.dirPath env.inGroup man id fd).reply = m.bytes fd := by
  rw [threadsRemove]
  rcases hext : treapExtract man.analyses id with ⟨nd, analyses⟩
  cases nd with
  | nil => exact ⟨.idNoExists id, hid, rfl⟩
  | node i h anal l r =>
    have hfst : (treapExtract man.analyses id).1 = node i h anal l r := by rw [hext]
    have hmem : (i, h, anal) ∈ man.analyses.inorder := by
      rcases extract_takes man.analyses id with ⟨hnil, -⟩ | ⟨h', a', hnode, hperm⟩
      · exact absurd (hnil.symm.trans hfst) (by simp)
      · obtain ⟨rfl, rfl, rfl, -, -⟩ := node.inj (hnode.symm.trans hfst)
        exact hperm.mem_iff.2 List.mem_cons_self
    exact ⟨.removed id anal, ⟨(hman.records _ hmem).1, hid⟩, rfl⟩

theorem status_message (hman : Repliable man) (hid : FitsInt id) :
    ∃ m : Message, m.Fits ∧ threadsStatus man id fd = m.bytes fd := by
  rw [threadsStatus]
  cases hfind : treapFind man.analyses id with
  | none => exact ⟨.idNoExists id, hid, rfl⟩
  | some anal => exact ⟨.status id anal, hman.found hfind, rfl⟩

/-- A report is refused by a whole message, or it is a file name cut to 49 bytes. -/
theorem result_message (hman : Repliable man) (hid : FitsInt id) :
    (∃ m : Message, m.Fits ∧ threadsResult env.dirPath man id fd = (48, m.bytes fd)) ∨
      threadsResult env.dirPath man id fd =
        (49, analysisCustomMessage fd (snprintf 50 (env.dirPath ++ printPrec 1 id))) := by
  rw [threadsResult]
  cases hfind : treapFind man.analyses id with
  | none => exact Or.inl ⟨.idNoExists id, hid, rfl⟩
  | some anal =>
    dsimp only
    split_ifs
    · exact Or.inr rfl
    · exact Or.inl ⟨.notDone id anal, hman.found hfind, rfl⟩

end Answers

/-! ## Replies -/

/-- The record of a stored analysis in a list. -/
def recordOf (env : RequestEnv) (e : Entry) : Message := .list (env.clock e.1) e.1 e.2.2

/-- **The shapes of a reply**, with what the client gets out of each: whole texts, except for the
file name of a report. -/
inductive Replied (env : RequestEnv) (man : ThreadsManager) (tsk : Task) (fd : Int) :
    Bytes → Received → Prop
  | message (m : Message) : tsk.cnt ≤ 5 → m.Fits →
      Replied env man tsk fd (m.bytes fd) (.message (some m.text))
  | list : tsk.cnt = 6 → (∀ e ∈ man.analyses.inorder, (recordOf env e).Fits) →
      Replied env man tsk fd
        (printWidth 10 man.analyses.size ++
          (man.analyses.inorder.map fun e => (recordOf env e).bytes fd).flatten)
        (.list (man.analyses.inorder.map fun e => (recordOf env e).text))
  | refused (m : Message) : tsk.cnt = 7 → m.Fits →
      Replied env man tsk fd (48 :: m.bytes fd) (.report 48 (some m.text))
  | report : tsk.cnt = 7 →
      Replied env man tsk fd (49 :: analysisReport env.dirPath fd tsk.id)
        (.report 49 (some (snprintf 50 (env.dirPath ++ printPrec 1 tsk.id))))

section Replies

variable {env : RequestEnv} {man : ThreadsManager} {tsk : Task} {fd : Int}

theorem Repliable.size_lt (hman : Repliable man) : man.analyses.size < 2 ^ 31 := by
  have hcount := hman.count.2
  have hcounted := hman.counted
  omega

/-- What is sent for a list. -/
theorem list_bytes (hman : Repliable man) :
    (threadsGetAll env.clock man fd).1 ++ (threadsGetAll env.clock man fd).2.flatten =
      printWidth 10 man.analyses.size ++
        (man.analyses.inorder.map fun e => (recordOf env e).bytes fd).flatten := by
  rw [threadsGetAll, showInOrder_eq, hman.counted, snprintf, List.take_of_length_le, List.map_map]
  · rfl
  · rw [length_field hman.size_lt]

theorem Replied.of_message {reply : Bytes} (hcnt : tsk.cnt ≤ 5)
    (h : ∃ m : Message, m.Fits ∧ reply = m.bytes fd) : ∃ got, Replied env man tsk fd reply got := by
  obtain ⟨m, hm, rfl⟩ := h
  exact ⟨_, .message m hcnt hm⟩

/-- **Every branch of every handler sends one reply of its kind.** -/
theorem requestThread_replied (hman : Repliable man) (hkind : 1 ≤ tsk.cnt ∧ tsk.cnt ≤ 7)
    (hpath : tsk.cnt = 1 → Message.PathOk tsk.path)
    (hid : tsk.cnt ≠ 1 → tsk.cnt ≠ 6 → FitsInt tsk.id) :
    ∃ got, Replied env man tsk fd (requestThread env man tsk fd).1 got := by
  rw [requestThread]
  by_cases h1 : tsk.cnt = 1
  · rw [if_pos h1]
    apply Replied.of_message (by omega)
    exact add_message hman (hpath h1)
  rw [if_neg h1]
  by_cases h6 : tsk.cnt = 6
  · rw [if_neg (by omega), if_neg (by omega), if_neg (by omega), if_neg (by omega), if_pos h6]
    dsimp only
    rw [list_bytes hman]
    refine ⟨_, .list h6 ?_⟩
    intro e he
    obtain ⟨hp, hfiles, hdirs⟩ := hman.records e he
    exact ⟨⟨hp, hman.ids e he⟩, hfiles, hdirs⟩
  have hid := hid h1 h6
  by_cases h2 : tsk.cnt = 2
  · rw [if_pos h2]
    apply Replied.of_message (by omega)
    exact suspend_message hman hid
  rw [if_neg h2]
  by_cases h3 : tsk.cnt = 3
  · rw [if_pos h3]
    apply Replied.of_message (by omega)
    exact resume_message hman hid
  rw [if_neg h3]
  by_cases h4 : tsk.cnt = 4
  · rw [if_pos h4]
    apply Replied.of_message (by omega)
    exact remove_message hman hid
  rw [if_neg h4]
  by_cases h5 : tsk.cnt = 5
  · rw [if_pos h5]
    apply Replied.of_message (by omega)
    exact status_message hman hid
  rw [if_neg h5, if_neg h6]
  have h7 : tsk.cnt = 7 := by omega
  rw [if_pos h7]
  rcases result_message hman hid with ⟨m, hm, hres⟩ | hres
  · rw [hres]
    exact ⟨_, .refused m h7 hm⟩
  · rw [hres]
    exact ⟨_, .report h7⟩

/-- The file name a report sends. -/
theorem sendable_report {dirPath : Bytes} (h0 : 0 ∉ dirPath) (id : Int) :
    Sendable (snprintf 50 (dirPath ++ printPrec 1 id)) := by
  constructor
  · intro hmem
    rcases List.mem_append.1 (List.mem_of_mem_take hmem) with h | h
    · exact h0 h
    · exact zero_notMem_printPrec _ _ h
  · have hle := List.length_take_le 49 (dirPath ++ printPrec 1 id)
    show (List.take 49 (dirPath ++ printPrec 1 id)).length + 12 < 2 ^ 31
    omega

/-- A character and a message. -/
theorem receive_report {sol : UInt8} {text : Bytes} (ht : Sendable text) (hcnt : tsk.cnt = 7)
    {cs : List Bytes} {rest : Bytes} (hcs : cs.flatten = sol :: framed text ++ rest) :
    ∃ cs', clientReceive tsk.cnt (ofChunks cs) = .ok (.report sol (some text)) (ofChunks cs') ∧
      cs'.flatten = rest := by
  have hsol : cs.flatten = [sol] ++ (framed text ++ rest) := hcs
  obtain ⟨cs₁, hread₁, hrest₁⟩ : ∃ cs₁,
      clientReadString 1 (ofChunks cs) = .ok (some [sol]) (ofChunks cs₁) ∧
        cs₁.flatten = framed text ++ rest :=
    clientReadString_chunks hsol
  obtain ⟨cs₂, hread₂, hrest₂⟩ := clientMessage_chunks ht hrest₁
  refine ⟨cs₂, ?_, hrest₂⟩
  rw [clientReceive, if_neg (by omega), if_neg (by omega), if_pos hcnt, hread₁, Result.ok_bind]
  dsimp only
  rw [hread₂, Result.ok_bind]
  rfl

/-- **The client's reader for the kind of a request takes exactly the reply out of a stream.** -/
theorem Replied.receive {reply : Bytes} {got : Received} (h : Replied env man tsk fd reply got)
    (hfd : 0 ≤ fd) (hsize : man.analyses.size < 2 ^ 31) (hdir : 0 ∉ env.dirPath) {cs : List Bytes}
    {rest : Bytes} (hcs : cs.flatten = reply ++ rest) :
    ∃ cs', clientReceive tsk.cnt (ofChunks cs) = .ok got (ofChunks cs') ∧ cs'.flatten = rest := by
  cases h with
  | message m hcnt hm =>
    rw [Message.bytes_eq_framed hfd hm] at hcs
    obtain ⟨cs', hread, hrest⟩ := clientMessage_chunks (Message.sendable hm) hcs
    refine ⟨cs', ?_, hrest⟩
    rw [clientReceive, if_pos (by omega), hread, Result.ok_bind]
  | list hcnt hfits =>
    have htexts : ∀ text ∈ man.analyses.inorder.map fun e => (recordOf env e).text,
        Sendable text := by
      intro text ht
      obtain ⟨e, he, rfl⟩ := List.mem_map.1 ht
      exact Message.sendable (hfits e he)
    have hframes : (man.analyses.inorder.map fun e => (recordOf env e).bytes fd) =
        (man.analyses.inorder.map fun e => (recordOf env e).text).map framed := by
      rw [List.map_map]
      apply List.map_congr_left
      intro e he
      exact Message.bytes_eq_framed hfd (hfits e he)
    rw [hframes, List.append_assoc] at hcs
    obtain ⟨cs₁, hread₁, hrest₁⟩ := clientReadString_field hsize hcs
    obtain ⟨cs₂, hread₂, hrest₂⟩ := clientRecords_chunks htexts hrest₁
    refine ⟨cs₂, ?_, hrest₂⟩
    rw [List.length_map, ← size_eq_length] at hread₂
    rw [clientReceive, if_neg (by omega), if_pos hcnt, hread₁, Result.ok_bind]
    dsimp only
    rw [atoi_field hsize, if_neg (by omega), Int.toNat_natCast, hread₂, Result.ok_bind]
  | refused m hcnt hm =>
    rw [Message.bytes_eq_framed hfd hm] at hcs
    exact receive_report (Message.sendable hm) hcnt hcs
  | report hcnt =>
    have hsend := sendable_report hdir tsk.id
    rw [analysisReport, customMessage_eq hfd hsend] at hcs
    exact receive_report hsend hcnt hcs

/-- **Manager and client agree on the shape of every reply.** Whatever chunks the reply to a request
that was read comes in, the client's reader consumes the reply and nothing behind it, and gets the
whole text of each message; a list has one record for each stored analysis, by increasing id. -/
theorem receive_reply {dest : Task} {s s' : Source} (htsk : readTask dest s = .ok tsk s')
    (hkind : 1 ≤ tsk.cnt ∧ tsk.cnt ≤ 7) (hman : Repliable man) (hfd : 0 ≤ fd)
    (hdir : 0 ∉ env.dirPath) :
    (man.analyses.inorder.map Prod.fst).Pairwise (· < ·) ∧
      ∃ got, Replied env man tsk fd (requestThread env man tsk fd).1 got ∧
        ∀ cs rest, cs.flatten = (requestThread env man tsk fd).1 ++ rest →
          ∃ cs', clientReceive tsk.cnt (ofChunks cs) = .ok got (ofChunks cs') ∧
            cs'.flatten = rest := by
  obtain ⟨hpath, hid⟩ := readTask_ok htsk
  refine ⟨hman.store, ?_⟩
  obtain ⟨got, hgot⟩ : ∃ got, Replied env man tsk fd (requestThread env man tsk fd).1 got :=
    requestThread_replied hman hkind (fun h1 => ⟨(hpath h1).1, by have := (hpath h1).2; omega⟩)
      (fun h1 h6 => by have := hid h1 h6; exact ⟨by omega, by omega⟩)
  exact ⟨got, hgot, fun cs rest hcs => hgot.receive hfd hman.size_lt hdir hcs⟩

end Replies

/-- A list of two analyses; the reply comes in chunks of any size. -/
theorem receive_reply_two :
    let a : Analysis := ⟨7, 0, 30, 4, str "/a", 2, ANALYSIS_COMPLETE, ANALYSIS_RESUMED, 10⟩
    let b : Analysis := ⟨0, 5, 0, 1, str "/b/c", 1, ANALYSIS_INPROGRESS, ANALYSIS_SUSPENDED, 12⟩
    let man : ThreadsManager :=
      ⟨2, node 1 5 a nil (node 3 9 b nil nil), treeInit, node 2 0 () nil (node 4 1 () nil nil)⟩
    let env : RequestEnv :=
      ⟨⟨true, some 0, true, none, some 4, 9⟩, (0, 0), str "/srv/da/", fun _ => true, 9,
        fun _ => 9⟩
    let tsk : Task := ⟨6, 0, [], 0⟩
    (man.analyses.inorder.map Prod.fst).Pairwise (· < ·) ∧
      ∃ got, Replied env man tsk 4 (requestThread env man tsk 4).1 got ∧
        ∀ cs rest, cs.flatten = (requestThread env man tsk 4).1 ++ rest →
          ∃ cs', clientReceive tsk.cnt (ofChunks cs) = .ok got (ofChunks cs') ∧
            cs'.flatten = rest := by
  intro a b man env tsk
  have hread : readTask ⟨0, 0, [], 0⟩ (ofChunks [str "00", str "06"]) = .ok tsk (ofChunks []) := by
    decide +kernel
  refine receive_reply hread (by decide) ⟨?_, rfl, by decide, ?_, ?_, ?_, ?_⟩ (by decide)
    (by decide)
  · simp [man, Ordered]
  · intro e he
    obtain rfl | rfl : e = (1, 5, a) ∨ e = (3, 9, b) := by simpa [man] using he
    · decide
    · decide
  · intro e he
    obtain rfl | rfl : e = (1, 5, a) ∨ e = (3, 9, b) := by simpa [man] using he
    · exact ⟨⟨by decide, by decide⟩, by decide, by decide⟩
    · exact ⟨⟨by decide, by decide⟩, by decide, by decide⟩
  · intro path id hfind
    obtain ⟨k, -, hval, -⟩ := (Tree.findPrefix_eq_some_iff Tree.good_treeInit path id).1 hfind
    exact absurd hval (by simp [Tree.val_treeInit])
  · intro id hid
    obtain rfl | rfl : id = 2 ∨ id = 4 := by simpa [man] using hid
    · decide
    · decide

end DiskAnalyzer
