import DiskAnalyzer.Memory.TreapProof
import DiskAnalyzer.Threads

/-!
# Records: found, freed and saved

The nodes of the store own their records: a block for the `struct analysis` and one for its path.
The nodes of the free ids hold `NULL`. `treap_remove`, `treap_clear` and `treap_save` free what a
node owns with the node, so what is left of a cleared treap is the word that held its root.
-/

namespace DiskAnalyzer.Memory

open Sep Treap Assertion

variable {α β : Type} {P F : Owned}

/-! ## Records -/

/-- A block with a string in it. -/
def strAt (s : Bytes) (p : Ptr) : Owned := ⨆ x, ⨆ _ : p = some x, block x [.data (.str s)]

/-- The words of a `struct analysis`; `last_start` and `pid` may not have been written yet. -/
def recordWords (a : Analysis) (last pid : Word) (path : Ptr) : List Word :=
  [int a.totalTime, last, int a.cntFiles, int a.cntDirs, .ptr path, int a.priority, int a.status,
    int a.suspended, pid]

/-- A `struct analysis` and its path. -/
def record (a : Analysis) (last pid : Word) (x : Addr) : Owned :=
  ⨆ path, block x (recordWords a last pid path) * strAt a.path path

/-- What a pointer to a stored analysis owns. The `last_start` of a completed analysis that was
loaded has never been written. -/
def analysisAt (a : Analysis) (p : Ptr) : Owned :=
  ⨆ x, ⨆ _ : p = some x, ⨆ last, ⨆ _ : last = int a.lastStart ∨ a.status = ANALYSIS_COMPLETE,
    record a last (int a.pid) x

/-- What the pointer of a free id owns. -/
def nullAt (_ : Unit) (p : Ptr) : Owned := ⨆ _ : p = none, 1

/-- A word that holds a pointer, with what the pointer owns. -/
def held (S : α → Ptr → Owned) (a : α) (c : Addr) : Owned := ⨆ p, cell c (.ptr p) * S a p

theorem fits_held (S : α → Ptr → Owned) (a : α) (p : Ptr) : Fits (held S) (S a p) p a := by
  intro c
  rw [mul_comm]
  exact le_iSup_of_le p le_rfl

/-- `freeAnal` frees all a pointer owns. -/
def Freed (S : α → Ptr → Owned) : Prop :=
  ∀ a p, Triple (S a p) (freeAnal p) fun _ => 1

theorem block_record (x : Addr) (v₀ v₁ v₂ v₃ v₄ v₅ v₆ v₇ v₈ : Word) :
    block x [v₀, v₁, v₂, v₃, v₄, v₅, v₆, v₇, v₈] = head x 9 * (cell (totalTime x) v₀ *
      (cell (lastStart x) v₁ * (cell (cntFiles x) v₂ * (cell (cntDirs x) v₃ * (cell (pathOf x) v₄ *
        (cell (priorityOf x) v₅ * (cell (statusOf x) v₆ * (cell (suspendedOf x) v₇ *
          cell (pidOf x) v₈)))))))) := by
  simp only [block, words_cons, words_nil, mul_one]
  rfl

theorem block_one (x : Addr) (v : Word) : block x [v] = head x 1 * cell x v := by
  simp only [block, words_cons, words_nil, mul_one]
  rfl

instance (x : Addr) (v : Word) [h : Frame P (head x 1 * cell x v) F] : Frame P (block x [v]) F :=
  ⟨by rw [block_one]; exact h.eq⟩

/-- `free` of a block of one word. -/
theorem free_one {x : Addr} {v : Word} {G : Owned} [h : Owns P x v G] [h' : Frame G (head x 1) F]
    {k : Unit → Code β} {Q : β → Owned} (hk : Triple F (k ()) Q) :
    Triple P (free (some x) >>= k) Q := by
  have hP : P = block x [v] * F := by
    rw [h.eq, h'.eq, block_one]
    ac_rfl
  rw [hP]
  exact .free [v] hk

instance (x : Addr) (v₀ v₁ v₂ v₃ v₄ v₅ v₆ v₇ v₈ : Word) [h : Frame P (head x 9 *
    (cell (totalTime x) v₀ * (cell (lastStart x) v₁ * (cell (cntFiles x) v₂ *
      (cell (cntDirs x) v₃ * (cell (pathOf x) v₄ * (cell (priorityOf x) v₅ *
        (cell (statusOf x) v₆ * (cell (suspendedOf x) v₇ * cell (pidOf x) v₈))))))))) F] :
    Frame P (block x [v₀, v₁, v₂, v₃, v₄, v₅, v₆, v₇, v₈]) F :=
  ⟨by rw [block_record]; exact h.eq⟩

theorem record_freed (a : Analysis) (last pid : Word) (x : Addr) :
    Triple (record a last pid x) (freeAnal (some x)) fun _ => 1 := by
  simp only [record, strAt, mul_iSup, Triple.iSup_iff]
  rintro path s rfl
  unfold freeAnal
  rw [recordWords, block_record]
  refine .loadPtr ?_
  refine .free [.data (.str a.path)] ?_
  rw [← block_record]
  exact Triple.free_last x _

theorem freed_analysisAt : Freed analysisAt := by
  intro a p
  simp only [analysisAt, Triple.iSup_iff]
  rintro x rfl last -
  exact record_freed a last _ x

theorem freed_nullAt : Freed nullAt := by
  intro a p
  simp only [nullAt, Triple.iSup_iff]
  rintro rfl
  exact .ret le_rfl

/-! ## Removing -/

section Removal

variable {S : α → Ptr → Owned}

/-- A node is freed with what it owns. -/
theorem free_node (hS : Freed S) (i h : Int) (a : α) (q : Addr) {k : Unit → Code β}
    {Q : β → Owned} [hF : Frame P (treapAt (held S) (node i h a nil nil) (some q)) F]
    (hk : Triple F (k ()) Q) :
    Triple P (do
      freeAnal (← loadPtr (analOf q))
      free (some q)
      k ()) Q := by
  rw [hF.eq, treapAt_some, treapIn_nil, treapIn_nil]
  simp only [nodeAt, held, mul_iSup, iSup_mul, Triple.iSup_iff]
  intro p
  refine .loadPtr ?_
  refine .call (hS a p) fun _ => ?_
  refine .free [int i, int h, .ptr p, .ptr none, .ptr none] (hk.pre (le_of_eq ?_))
  ac_rfl

/-- **`treap_remove`** leaves what the model leaves; the node it took out is gone. -/
theorem treapRemove_spec (hS : Freed S) (id : Int) {fuel : Nat} {t : Treap α} (trp : Addr)
    (hfuel : t.size < fuel) :
    Triple (treapIn (held S) t trp) (treapRemove fuel trp id) fun ret =>
      ⨆ _ : ret = (DiskAnalyzer.treapRemove t id).1,
        treapIn (held S) (DiskAnalyzer.treapRemove t id).2 trp := by
  unfold treapRemove
  refine .bind (treapExtract_spec id fuel t trp hfuel) fun ret => ?_
  rcases extract_takes t id with ⟨hnil, -⟩ | ⟨h, a, hnode, -⟩
  · have hrem : DiskAnalyzer.treapRemove t id = (1, (DiskAnalyzer.treapExtract t id).2) := by
      rw [DiskAnalyzer.treapRemove, ← Prod.mk.eta (p := DiskAnalyzer.treapExtract t id), hnil]
    rw [hrem, hnil]
    simp only [treapAt, iSup_mul, one_mul, Triple.iSup_iff]
    rintro rfl
    exact .ret (le_iSup_of_le rfl le_rfl)
  · have hrem : DiskAnalyzer.treapRemove t id = (0, (DiskAnalyzer.treapExtract t id).2) := by
      rw [DiskAnalyzer.treapRemove, ← Prod.mk.eta (p := DiskAnalyzer.treapExtract t id), hnode]
    rw [hrem, hnode, treapAt_node]
    simp only [iSup_mul, Triple.iSup_iff]
    rintro q rfl
    rw [← treapAt_some]
    refine free_node hS id h a q (k := fun _ => pure 0) ?_
    exact .ret (le_iSup_of_le rfl le_rfl)

/-! ## Clearing -/

/-- Taking out the root's id again and again comes to an end within the rounds. It does in every
treap whose ids are distinct. -/
def Drains : Nat → Treap α → Prop
  | _, nil => True
  | 0, node _ _ _ _ _ => False
  | n + 1, node i h a l r => Drains n (DiskAnalyzer.treapRemove (node i h a l r) i).2

theorem drains_of_ordered {t : Treap α} (ho : t.Ordered) : Drains t.size t := by
  induction hn : t.size generalizing t with
  | zero =>
    cases t with
    | nil => trivial
    | node i h a l r => simp at hn
  | succ n ih =>
    cases t with
    | nil => trivial
    | node i h a l r =>
      rw [Drains, remove_snd]
      have hmem : (i, h, a) ∈ (node i h a l r).inorder := by simp
      have hsize := size_extract (extract_of_mem ho hmem).1
      exact ih (ordered_extract ho i) (by omega)

theorem size_remove_le (t : Treap α) (id : Int) : (DiskAnalyzer.treapRemove t id).2.size ≤ t.size := by
  rw [remove_snd]
  rcases extract_takes t id with ⟨-, heq⟩ | ⟨h, a, hnode, -⟩
  · rw [size_eq_length, heq, ← size_eq_length]
  · rw [size_extract hnode]
    exact Nat.le_succ _

/-- **`treap_clear`** frees every node with what it owns. -/
theorem treapClear_spec (hS : Freed S) (n : Nat) : ∀ (fuel : Nat) (t : Treap α) (trp : Addr),
    Drains n t → t.size + n < fuel →
      Triple (treapIn (held S) t trp) (treapClear fuel trp) fun _ => cell trp (.ptr none) := by
  induction n with
  | zero =>
    intro fuel t trp hd hfuel
    cases t with
    | nil =>
      obtain ⟨fuel, rfl⟩ : ∃ n, fuel = n + 1 := ⟨fuel - 1, by omega⟩
      rw [treapClear, treapIn_nil]
      refine .loadPtr ?_
      exact .ret le_rfl
    | node i h a l r => exact hd.elim
  | succ n ih =>
    intro fuel t trp hd hfuel
    obtain ⟨fuel, rfl⟩ : ∃ n, fuel = n + 1 := ⟨fuel - 1, by omega⟩
    cases t with
    | nil =>
      rw [treapClear, treapIn_nil]
      refine .loadPtr ?_
      exact .ret le_rfl
    | node i h a l r =>
      rw [treapClear, treapIn_node, Triple.iSup_iff]
      intro t
      refine .loadPtr ?_
      refine loadInt_spec ?_
      have hback : cell trp (.ptr (some t)) * (nodeAt (held S) i h a t *
          treapIn (held S) l (chldLeft t) * treapIn (held S) r (chldRight t)) ≤
          treapIn (held S) (node i h a l r) trp := by
        rw [treapIn_node]
        exact le_iSup_of_le t le_rfl
      refine .bind ((treapRemove_spec hS i trp (by omega)).pre hback) fun ret => ?_
      rw [Triple.iSup_iff]
      intro _
      have hle := size_remove_le (node i h a l r) i
      exact ih fuel _ trp hd (by omega)

/-! ## Lookup -/

variable (S) in
/-- What a lookup gives: nothing, or the pointer of the node with what it owns, taken out of the
treap. `K` is the rest, and whatever is put in its place makes the modified treap. -/
def found (t : Treap α) (p : Ptr) (id : Int) : Option α → Option Ptr → Owned
  | none, ret => ⨆ _ : ret = none, treapAt (held S) t p
  | some a, ret => ⨆ ap, ⨆ _ : ret = some ap, ⨆ K : Owned,
      ⨆ _ : ∀ a', S a' ap * K ≤ treapAt (held S) (t.modify id fun _ => a') p, S a ap * K

/-- A lookup in a child is one in the whole treap. -/
theorem found_above {s t : Treap α} {c p : Ptr} {id : Int} {F : Owned}
    (hsame : treapAt (held S) s c * F ≤ treapAt (held S) t p)
    (hmod : ∀ a', treapAt (held S) (s.modify id fun _ => a') c * F ≤
      treapAt (held S) (t.modify id fun _ => a') p) (a : Option α) (ret : Option Ptr) :
    found S s c id a ret * F ≤ found S t p id a ret := by
  cases a with
  | none =>
    simp only [found, iSup_mul]
    exact iSup_le fun hret => le_iSup_of_le hret hsame
  | some a =>
    simp only [found, iSup_mul]
    refine iSup_le fun ap => iSup_le fun hret => iSup_le fun K => iSup_le fun hK => ?_
    refine le_iSup_of_le ap (le_iSup_of_le hret (le_iSup_of_le (K * F) (le_iSup_of_le ?_ ?_)))
    · intro a'
      calc S a' ap * (K * F) = S a' ap * K * F := (mul_assoc _ _ _).symm
        _ ≤ treapAt (held S) (s.modify id fun _ => a') c * F := mul_le_mul' (hK a') le_rfl
        _ ≤ _ := hmod a'
    · rw [mul_assoc]

/-- **`treap_find`** finds what the model finds, and changes nothing. -/
theorem treapFind_spec (id : Int) (t : Treap α) : ∀ (fuel : Nat) (p : Ptr), t.size < fuel →
    Triple (treapAt (held S) t p) (treapFind fuel p id)
      (found S t p id (DiskAnalyzer.treapFind t id)) := by
  induction t with
  | nil =>
    intro fuel p hfuel
    obtain ⟨fuel, rfl⟩ : ∃ n, fuel = n + 1 := ⟨fuel - 1, by omega⟩
    simp only [treapAt, Triple.iSup_iff]
    rintro rfl
    rw [treapFind]
    exact .ret (le_iSup_of_le rfl (by simp [treapAt]))
  | node i h a l r ihl ihr =>
    intro fuel p hfuel
    rw [size_node] at hfuel
    obtain ⟨fuel, rfl⟩ : ∃ n, fuel = n + 1 := ⟨fuel - 1, by omega⟩
    simp only [treapAt_node, Triple.iSup_iff]
    rintro q rfl
    rw [treapFind, DiskAnalyzer.treapFind]
    refine loadInt_spec ?_
    by_cases hi : i = id
    · rw [if_pos hi, if_pos hi]
      simp only [nodeAt, held, mul_iSup, iSup_mul, Triple.iSup_iff]
      intro ap
      refine .loadPtr ?_
      refine .ret (le_iSup_of_le ap (le_iSup_of_le rfl (le_iSup_of_le ?_ (le_iSup_of_le ?_ ?_))))
      · exact head q 5 * cell (idOf q) (int i) * cell (heapVal q) (int h) * cell (analOf q) (.ptr ap) *
          treapIn (held S) l (chldLeft q) * treapIn (held S) r (chldRight q)
      · intro a'
        rw [Treap.modify, if_pos hi, treapAt_some]
        simp only [nodeAt, held, mul_iSup, iSup_mul]
        exact le_iSup_of_le ap (le_of_eq (by ac_rfl))
      · exact le_of_eq (by ac_rfl)
    rw [if_neg hi, if_neg hi]
    by_cases hlt : i < id
    · rw [if_pos hlt, if_pos hlt, treapIn_open r (chldRight q)]
      simp only [mul_iSup, Triple.iSup_iff]
      intro c
      refine .loadPtr ?_
      refine .last (ihr fuel c (by omega)) fun ret => found_above ?_ (fun a' => ?_) _ _
      · rw [treapAt_some, treapIn_open r (chldRight q)]
        simp only [mul_iSup]
        exact le_iSup_of_le c (le_of_eq (by ac_rfl))
      · rw [Treap.modify, if_neg hi, if_pos hlt, treapAt_some, treapIn_open _ (chldRight q)]
        simp only [mul_iSup]
        exact le_iSup_of_le c (le_of_eq (by ac_rfl))
    · rw [if_neg hlt, if_neg hlt, treapIn_open l (chldLeft q)]
      simp only [mul_iSup, iSup_mul, Triple.iSup_iff]
      intro c
      refine .loadPtr ?_
      refine .last (ihl fuel c (by omega)) fun ret => found_above ?_ (fun a' => ?_) _ _
      · rw [treapAt_some, treapIn_open l (chldLeft q)]
        simp only [mul_iSup, iSup_mul]
        exact le_iSup_of_le c (le_of_eq (by ac_rfl))
      · rw [Treap.modify, if_neg hi, if_neg hlt, treapAt_some, treapIn_open _ (chldLeft q)]
        simp only [mul_iSup, iSup_mul]
        exact le_iSup_of_le c (le_of_eq (by ac_rfl))

end Removal

/-! ## Saving -/

theorem analysisAt_intro {a : Analysis} {x s : Addr} {last : Word}
    (hlast : last = int a.lastStart ∨ a.status = ANALYSIS_COMPLETE) :
    block x (recordWords a last (int a.pid) (some s)) * block s [.data (.str a.path)] ≤
      analysisAt a (some x) := by
  refine le_iSup_of_le x (le_iSup_of_le rfl (le_iSup_of_le last (le_iSup_of_le hlast ?_)))
  refine le_iSup_of_le (some s) (mul_le_mul' le_rfl ?_)
  exact le_iSup_of_le s (le_iSup_of_le rfl le_rfl)

/-- A record taken apart: its block, and the block of its path. -/
theorem analysisAt_cases {a : Analysis} {p : Ptr} {c : Code β} {Q : β → Owned}
    (h : ∀ x s last, p = some x → (last = int a.lastStart ∨ a.status = ANALYSIS_COMPLETE) →
      Triple (block x (recordWords a last (int a.pid) (some s)) * block s [.data (.str a.path)] * F)
        c Q) : Triple (analysisAt a p * F) c Q := by
  simp only [analysisAt, record, strAt, mul_iSup, iSup_mul, Triple.iSup_iff]
  rintro x hp last hlast path s rfl
  exact h x s last hp hlast

/-- **`analysis_write`** writes the record, or nothing when it has no buffer. -/
theorem analysisWrite_spec (id : Int) (a : Analysis) (p : Ptr) :
    Triple (analysisAt a p) (analysisWrite id p) fun out =>
      ⨆ _ : out = [] ∨ out = DiskAnalyzer.analysisWrite id a, analysisAt a p := by
  refine Triple.pre (analysisAt_cases fun x s last hp hlast => ?_) (mul_one _).ge
  have hfold := analysisAt_intro (x := x) (s := s) hlast
  unfold analysisWrite
  rw [recordWords, block_record, block_one] at hfold ⊢
  rw [mul_one]
  subst hp
  simp only [Triple.deref_some, pure_bind]
  refine .loadPtr ?_
  simp only [Triple.deref_some, pure_bind]
  refine loadStr_spec ?_
  refine .malloc ?_ fun buf => ?_
  · exact .ret (le_iSup_of_le (Or.inl rfl) hfold)
  · rw [show List.replicate 1 (Val.undef : Word) = [.undef] from rfl, block_one]
    refine loadInt_spec ?_
    refine loadInt_spec ?_
    refine loadInt_spec ?_
    refine loadInt_spec ?_
    refine loadInt_spec ?_
    refine loadInt_spec ?_
    refine .store ?_
    refine free_one ?_
    exact .ret (le_iSup_of_le (Or.inr rfl) hfold)

/-- The records in the order in which `treap_save` comes to them. -/
def drained : Nat → Treap α → List (Int × α)
  | 0, _ => []
  | _, nil => []
  | n + 1, node i h a l r => (i, a) :: drained n (DiskAnalyzer.treapRemove (node i h a l r) i).2

/-- What saving some records writes. -/
def written (es : List (Int × Analysis)) : Bytes :=
  es.flatMap fun e => DiskAnalyzer.analysisWrite e.1 e.2

/-- The model saves all of them. -/
theorem treapSave_eq {n : Nat} {t : Treap Analysis} (hd : Drains n t) :
    DiskAnalyzer.treapSave n t = some (written (drained n t)) := by
  induction n generalizing t with
  | zero =>
    cases t with
    | nil => rfl
    | node i h a l r => exact hd.elim
  | succ n ih =>
    cases t with
    | nil => rfl
    | node i h a l r =>
      rw [DiskAnalyzer.treapSave, ih hd]
      rfl

/-- **`treap_save`** frees what it saves, and saves every record for which there is a buffer. -/
theorem treapSave_spec (n : Nat) : ∀ (fuel : Nat) (t : Treap Analysis) (trp : Addr),
    Drains n t → t.size + n < fuel →
      Triple (treapIn (held analysisAt) t trp) (treapSave fuel trp) fun out =>
        ⨆ es : List (Int × Analysis), ⨆ _ : es.Sublist (drained n t) ∧ out = written es,
          cell trp (.ptr none) := by
  induction n with
  | zero =>
    intro fuel t trp hd hfuel
    cases t with
    | nil =>
      obtain ⟨fuel, rfl⟩ : ∃ n, fuel = n + 1 := ⟨fuel - 1, by omega⟩
      rw [treapSave, treapIn_nil]
      refine .loadPtr ?_
      exact .ret (le_iSup_of_le [] (le_iSup_of_le ⟨List.nil_sublist _, rfl⟩ le_rfl))
    | node i h a l r => exact hd.elim
  | succ n ih =>
    intro fuel t trp hd hfuel
    obtain ⟨fuel, rfl⟩ : ∃ n, fuel = n + 1 := ⟨fuel - 1, by omega⟩
    cases t with
    | nil =>
      rw [treapSave, treapIn_nil]
      refine .loadPtr ?_
      exact .ret (le_iSup_of_le [] (le_iSup_of_le ⟨List.nil_sublist _, rfl⟩ le_rfl))
    | node i h a l r =>
      rw [treapSave, treapIn_node]
      have hopen (q : Addr) : nodeAt (held analysisAt) i h a q =
          ⨆ p, head q 5 * cell (idOf q) (int i) * cell (heapVal q) (int h) *
            (cell (analOf q) (.ptr p) * analysisAt a p) := by
        simp only [nodeAt, held, mul_iSup]
      simp only [hopen, mul_iSup, iSup_mul, Triple.iSup_iff]
      intro t p
      refine .loadPtr ?_
      refine loadInt_spec ?_
      refine .loadPtr ?_
      refine .call (analysisWrite_spec i a p) fun out => ?_
      simp only [iSup_mul, Triple.iSup_iff]
      intro hout
      have hback : analysisAt a p * (cell trp (.ptr (some t)) * (head t 5 * cell (idOf t) (int i) *
          cell (heapVal t) (int h) * cell (analOf t) (.ptr p) *
          treapIn (held analysisAt) l (chldLeft t) * treapIn (held analysisAt) r (chldRight t))) ≤
          treapIn (held analysisAt) (node i h a l r) trp := by
        rw [treapIn_node]
        simp only [hopen, mul_iSup, iSup_mul]
        exact le_iSup_of_le t (le_iSup_of_le p (le_of_eq (by ac_rfl)))
      refine .bind ((treapRemove_spec freed_analysisAt i trp (by omega)).pre hback) fun ret => ?_
      rw [Triple.iSup_iff]
      intro _
      have hle := size_remove_le (node i h a l r) i
      refine .bind (ih fuel _ trp hd (by omega)) fun rest => ?_
      simp only [Triple.iSup_iff]
      rintro es ⟨hsub, rfl⟩
      rcases hout with rfl | rfl
      · exact .ret (le_iSup_of_le es (le_iSup_of_le ⟨hsub.cons _, rfl⟩ le_rfl))
      · exact .ret (le_iSup_of_le ((i, a) :: es)
          (le_iSup_of_le ⟨hsub.cons_cons _, rfl⟩ le_rfl))

end DiskAnalyzer.Memory
