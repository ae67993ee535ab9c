import DiskAnalyzer.Memory.Startup
import DiskAnalyzer.Memory.ThreadsProof
import DiskAnalyzer.RestartProof

/-!
# `threads_startup` refines the model

What has been read is in the store and in the trie, as the model has it, and the exits with -1 leave
the members of the `struct threads_manager` and at most one block more: a path that no record points
to any more, or a list node.
-/

namespace DiskAnalyzer.Memory

open Sep Treap Assertion Analysis

variable {β : Type} {P F : Owned} {Q : β → Owned}

/-! ## Reading a record -/

theorem readStringBySize_spec {sz : Int} {fd : Fd}
    (hdef : Analysis.readStringBySize sz fd ≠ .error .undefined) :
    Triple (1 : Owned) (readStringBySize sz fd) fun out =>
      (⨆ x, ⨆ _ : out = (x, none) ∧ Analysis.readStringBySize sz fd = .error .error, 1) ⊔
        ⨆ x, ⨆ s, ⨆ fd', ⨆ _ : out = (x, some fd') ∧ Analysis.readStringBySize sz fd = .ok (s, fd'),
          block x [.data (.str s)] := by
  unfold readStringBySize
  unfold Analysis.readStringBySize at hdef ⊢
  by_cases hsz : sz < 0 ∨ 2 ^ 31 ≤ sz + 1
  · rw [if_pos hsz] at hdef
    exact absurd rfl hdef
  rw [if_neg hsz, if_neg hsz]
  refine .grant fun x => ?_
  rw [show List.replicate 1 (Val.undef : Word) = [.undef] from rfl, block_one]
  cases hread : fd.read sz.toNat with
  | none =>
    refine free_one ?_
    exact .ret (le_sup_of_le_left (le_iSup_of_le x (le_iSup_of_le ⟨rfl, rfl⟩ le_rfl)))
  | some got =>
    obtain ⟨buf, fd'⟩ := got
    refine .store ?_
    refine .ret (le_sup_of_le_right (le_iSup_of_le x (le_iSup_of_le (cstr buf)
      (le_iSup_of_le fd' (le_iSup_of_le ⟨rfl, rfl⟩ (le_of_eq ?_))))))
    rw [block_one]
    ac_rfl

theorem readInt_cases (fd : Fd) : Analysis.readInt fd = .error .error ∨
    ∃ s fd', Analysis.readStringBySize 10 fd = .ok (s, fd') ∧
      Analysis.readInt fd = .ok (Decimal.atoi s, fd') := by
  unfold Analysis.readInt Analysis.readStringBySize
  rw [if_neg (by norm_num)]
  cases fd.read (Int.toNat 10) with
  | none => exact Or.inl rfl
  | some got => exact Or.inr ⟨_, _, rfl, rfl⟩

/-- `read_int` leaves nothing behind. -/
theorem readInt_spec (fd : Fd) {k : Option (Int × Fd) → Code β}
    (hk : Triple P (k (Analysis.readInt fd).toOption) Q) : Triple P (readInt fd >>= k) Q := by
  have hdef : Analysis.readStringBySize 10 fd ≠ .error .undefined := by
    rw [Analysis.readStringBySize, if_neg (by norm_num)]
    split <;> simp
  have hread : Triple (1 : Owned) (readInt fd) fun out =>
      ⨆ _ : out = (Analysis.readInt fd).toOption, 1 := by
    unfold readInt Analysis.readInt
    refine .bind (readStringBySize_spec hdef) fun out => ?_
    simp only [Triple.sup_iff, Triple.iSup_iff]
    constructor
    · rintro x ⟨rfl, hsame⟩
      rw [hsame]
      exact .ret (le_iSup_of_le rfl le_rfl)
    · rintro x s fd' ⟨rfl, hsame⟩
      rw [hsame, block_one]
      refine loadStr_spec ?_
      refine free_one ?_
      exact .ret (le_iSup_of_le rfl le_rfl)
  refine .call hread fun out => ?_
  rw [iSup_mul, Triple.iSup_iff]
  rintro rfl
  rwa [one_mul]

section Members

variable {α : Type} {dest anal : Addr} {v : Word} {fd : Fd} {k : Fd → Code (Option α)}
  {Q : Option α → Owned}

theorem readMember_spec [Owns P dest v F] (hnone : P ≤ Q none)
    (hsome : ∀ n fd', Analysis.readInt fd = .ok (n, fd') →
      Triple (cell dest (int n) * F) (k fd') Q) : Triple P (readMember dest fd k) Q := by
  unfold readMember
  refine readInt_spec fd ?_
  rcases readInt_cases fd with herr | ⟨s, fd', -, hok⟩
  · rw [herr]
    exact .ret hnone
  · rw [hok]
    exact .store (hsome _ fd' hok)

theorem readPath_spec [Owns P (pathOf anal) v F] (hdef : Analysis.readString fd ≠ .error .undefined)
    (hnone : P ≤ Q none) (hfreed : ∀ x, cell (pathOf anal) (.ptr (some x)) * F ≤ Q none)
    (hsome : ∀ x s fd', Analysis.readString fd = .ok (s, fd') →
      Triple (cell (pathOf anal) (.ptr (some x)) * F * block x [.data (.str s)]) (k fd') Q) :
    Triple P (readPath anal fd k) Q := by
  unfold readPath
  unfold Analysis.readString at hdef hsome
  refine readInt_spec fd ?_
  rcases readInt_cases fd with herr | ⟨s, fd', -, hok⟩
  · rw [herr]
    exact .ret hnone
  · rw [hok] at hdef hsome ⊢
    refine .call (readStringBySize_spec hdef) fun out => ?_
    simp only [Quantale.sup_mul_distrib, iSup_mul, Triple.sup_iff, Triple.iSup_iff]
    constructor
    · rintro x ⟨rfl, -⟩
      rw [one_mul]
      refine .store ?_
      exact .ret (hfreed x)
    · rintro x s fd'' ⟨rfl, hsame⟩
      refine .store ?_
      exact (hsome x s fd'' hsame).pre (le_of_eq (by ac_rfl))

end Members

/-- The path of a record that has been freed. -/
def mislaid : Owned := ⨆ x, ⨆ s, block x [.data (.str s)]

/-- What `analysis_read` leaves when it fails: the words of the block may hold anything, and the
path may have been made. -/
def spoilt (anal : Addr) : Owned := (⨆ vs : List Word, ⨆ _ : vs.length = 9, block anal vs) * (1 ⊔ mislaid)

theorem le_spoilt (anal : Addr) (v₀ v₁ v₂ v₃ v₄ v₅ v₆ v₇ v₈ : Word) :
    block anal [v₀, v₁, v₂, v₃, v₄, v₅, v₆, v₇, v₈] ≤ spoilt anal := by
  refine le_mul_of_le_of_one_le ?_ le_sup_left
  exact le_iSup_of_le _ (le_iSup_of_le rfl le_rfl)

theorem le_spoilt_path (anal : Addr) (v₀ v₁ v₂ v₃ v₄ v₅ v₆ v₇ v₈ : Word) (x : Addr) (s : Bytes) :
    block anal [v₀, v₁, v₂, v₃, v₄, v₅, v₆, v₇, v₈] * block x [.data (.str s)] ≤ spoilt anal := by
  refine mul_le_mul' ?_ (le_sup_of_le_right ?_)
  · exact le_iSup_of_le _ (le_iSup_of_le rfl le_rfl)
  · exact le_iSup_of_le x (le_iSup_of_le s le_rfl)

/-- What `analysis_read` leaves. -/
def readAt (anal : Addr) (fd : Fd) (out : Option (Int × Fd)) : Owned :=
  (⨆ _ : out = none, spoilt anal) ⊔ ⨆ id, ⨆ a, ⨆ fd', ⨆ s,
    ⨆ _ : out = some (id, fd') ∧ DiskAnalyzer.analysisRead 0 0 fd = .ok (id, a, fd'),
      recordAt a .undef .undef anal s

/-- **`analysis_read`** reads the record the model reads. -/
theorem analysisRead_spec (anal : Addr) {fd : Fd}
    (hdef : DiskAnalyzer.analysisRead 0 0 fd ≠ .error .undefined) :
    Triple (block anal (List.replicate 9 .undef)) (analysisRead anal fd) (readAt anal fd) := by
  rw [show List.replicate 9 (Val.undef : Word) = [.undef, .undef, .undef, .undef, .undef, .undef,
    .undef, .undef, .undef] from rfl]
  have hfail (v₀ v₁ v₂ v₃ v₄ v₅ v₆ v₇ v₈ : Word) {X : Owned}
      (hX : X = block anal [v₀, v₁, v₂, v₃, v₄, v₅, v₆, v₇, v₈]) : X ≤ readAt anal fd none :=
    le_sup_of_le_left (le_iSup_of_le rfl (hX.le.trans (le_spoilt _ _ _ _ _ _ _ _ _ _)))
  have hfail' (v₀ v₁ v₂ v₃ v₄ v₅ v₆ v₇ v₈ : Word) (x : Addr) (s : Bytes) {X : Owned}
      (hX : X = block anal [v₀, v₁, v₂, v₃, v₄, v₅, v₆, v₇, v₈] * block x [.data (.str s)]) :
      X ≤ readAt anal fd none :=
    le_sup_of_le_left (le_iSup_of_le rfl (hX.le.trans (le_spoilt_path _ _ _ _ _ _ _ _ _ _ _ _)))
  simp only [block_record] at hfail hfail' ⊢
  unfold analysisRead
  unfold DiskAnalyzer.analysisRead at hdef
  refine readInt_spec fd ?_
  rcases readInt_cases fd with herr | ⟨_, fd₀, -, hid⟩
  · rw [herr]
    exact .ret (hfail _ _ _ _ _ _ _ _ _ rfl)
  rw [hid] at hdef ⊢
  refine readMember_spec (hfail _ _ _ _ _ _ _ _ _ rfl) fun time fd₁ htime => ?_
  refine readMember_spec (hfail _ _ _ _ _ _ _ _ _ (by ac_rfl)) fun dirs fd₂ hdirs => ?_
  refine readMember_spec (hfail _ _ _ _ _ _ _ _ _ (by ac_rfl)) fun files fd₃ hfiles => ?_
  have hpath : Analysis.readString fd₃ ≠ .error .undefined := by
    intro hbad
    exact hdef (by simp only [bind, Except.bind, htime, hdirs, hfiles, hbad])
  refine readPath_spec hpath (hfail _ _ _ _ _ _ _ _ _ (by ac_rfl))
    (fun x => hfail _ _ _ _ _ _ _ _ _ (by ac_rfl)) fun s path fd₄ hread => ?_
  refine readMember_spec (hfail' _ _ _ _ _ _ _ _ _ s path (by ac_rfl)) fun priority fd₅ hpriority => ?_
  refine readMember_spec (hfail' _ _ _ _ _ _ _ _ _ s path (by ac_rfl)) fun status fd₆ hstatus => ?_
  refine readMember_spec (hfail' _ _ _ _ _ _ _ _ _ s path (by ac_rfl)) fun susp fd₇ hsusp => ?_
  refine .ret (le_sup_of_le_right (le_iSup_of_le _ (le_iSup_of_le
    ⟨time, 0, files, dirs, path, priority, status, susp, 0⟩ (le_iSup_of_le fd₇ (le_iSup_of_le s
      (le_iSup_of_le ⟨rfl, ?_⟩ (le_of_eq ?_)))))))
  · simp only [DiskAnalyzer.analysisRead, bind, Except.bind, hid, htime, hdirs, hfiles, hread,
      hpriority, hstatus, hsusp]
    rfl
  · rw [recordAt_open, block_one]
    ac_rfl

/-! ## Records that wait for their node -/

section Pending

variable {α : Type} (S : α → Ptr → Owned)

/-- What comes with a node, unless it is the one that points to `x`, which is owned elsewhere. -/
def pending (x : Addr) : Option α → Addr → Owned
  | some a, c => held S a c
  | none, c => cell c (.ptr (some x))

/-- **A pointer is put in, what it points to kept.** -/
theorem insertPending_spec (id rand : Int) (x : Addr) (t : Treap α) (trp : Addr) {fuel : Nat}
    (hfuel : t.size < fuel) :
    Triple (treapIn (held S) t trp) (treapInsertNew fuel trp id (some x) rand) fun ret =>
      (⨆ _ : ret = 1, treapIn (held S) t trp) ⊔
        ⨆ _ : ret = 0, treapIn (pending S x) (parked t id rand) trp := by
  have hfits : Fits (pending S x) 1 (some x) none := fun c => (one_mul _).le
  have hins := treapInsertNew_grown hfits id rand (t.map fun _ a => some a) fuel trp
    (by rwa [size_map])
  have hsame : (fun a => pending S x (some a)) = held S := rfl
  simp only [treapIn_map, hsame, mul_one] at hins
  refine hins.post fun ret => ?_
  simp only [grown, treapIn_map, hsame, mul_one]
  exact le_rfl

/-- It is the node's. -/
theorem settle (id rand : Int) (a : α) (x : Addr) (t : Treap α) (trp : Addr) :
    treapIn (pending S x) (parked t id rand) trp * S a (some x) ≤
      treapIn (held S) (DiskAnalyzer.treapInsertNode t (node id rand a nil nil)) trp := by
  have h := fill (R := held S) (M := pending S x) (X := S a (some x)) (b := a)
    (fun _ _ => le_rfl) (fun c => le_iSup_of_le (some x) le_rfl) (parked t id rand) trp
  rwa [holes_parked, pow_one, parked_map] at h

end Pending

/-! ## Loading -/

/-- What the pointer of a record that has been loaded owns. -/
def loadedAt (a : Analysis) (p : Ptr) : Owned := ⨆ x, ⨆ _ : p = some x, ownRecord a x

theorem freed_loadedAt : Freed loadedAt := by
  intro a p
  simp only [loadedAt, ownRecord, Triple.iSup_iff]
  rintro x rfl last pid
  exact record_freed a last pid x

/-- The store and the trie while records are loaded. -/
def loadingAt (t : Treap Analysis) (paths : Tree Int) (m : Addr) : Owned :=
  treapIn (held loadedAt) t (analysesOf m) * pathsIn paths (pathsOf m)

/-- The members that held them. -/
def emptiedAt (m : Addr) : Owned := cell (analysesOf m) (.ptr none) * ⨆ t, cell (pathsOf m) (.ptr t)

/-- What is left when loading stops. -/
def stray : Owned := 1 ⊔ mislaid ⊔ lost

theorem one_le_stray : 1 ≤ stray := le_sup_of_le_left le_sup_left

theorem clearStore_spec {t : Treap Analysis} (ho : t.Ordered) (paths : Tree Int) (m : Addr)
    {fuel : Nat} (hfuel : 2 * (t.size + names paths) + 1 < fuel) :
    Triple (loadingAt t paths m) (clearStore fuel m) fun _ => emptiedAt m := by
  unfold clearStore
  rw [loadingAt, pathsIn]
  simp only [mul_iSup, Triple.iSup_iff]
  intro x
  refine .call (treapClear_spec freed_loadedAt t.size fuel t (analysesOf m) (drains_of_ordered ho)
    (by omega)) fun _ => ?_
  have hclear : Triple (cell (pathsOf m) (.ptr (some x)) * treeAt idWords paths x)
    (treeClear fuel (pathsOf m)) _ := treeClear_spec paths (pathsOf m) x (by omega)
  refine .last hclear fun _ => ?_
  rw [emptiedAt, mul_comm]
  exact mul_le_mul' le_rfl (le_iSup_of_le (some x) le_rfl)

/-- What `threads_startup` meets on its way, when what it asks for is made. -/
def StartWorld.env (w : StartWorld) : StartEnv where
  reads := w.reads
  record := fun _ => true
  rand := fun k => some (w.rand k)
  memory := fun _ => (0, 0)
  alloc := fun _ => none
  randFree := fun i => some (w.randFree i)
  sockets := w.sockets
  fork := fun id anal => w.fork id anal.path
  now := w.now

/-- A path that was put in is put in whatever else `malloc` would have answered. -/
theorem treeInsert_made (path : Bytes) (i : Option Int) : ∀ (t : Tree Int) (alloc : Alloc),
    (DiskAnalyzer.treeInsert t path i alloc).1 = 0 →
      DiskAnalyzer.treeInsert t path i alloc = DiskAnalyzer.treeInsert t path i none := by
  induction path using components.induct with
  | case1 p hp =>
    intro t alloc _
    rw [treeInsert_of_nil hp, treeInsert_of_nil hp]
  | case2 p hp hlen ih =>
    intro t alloc hret
    rw [treeInsert_of_ne hp] at hret ⊢
    rw [treeInsert_of_ne hp]
    cases hf : DiskAnalyzer.hashFind t.hsh (skipSlashes p) with
    | some n =>
      rw [hf] at hret
      simp only [ih n alloc hret]
    | none =>
      rw [hf] at hret
      by_cases ha : alloc = some 0
      · simp [ha] at hret
      · simp only [if_neg ha] at hret ⊢
        rw [if_neg (by simp), ih _ _ hret]
        rfl

/-- The loading loop has come here: what is bounded by `b`. -/
structure Loading (b : Nat) (ld : Loaded) : Prop where
  store : ld.analyses.Ordered
  trie : ld.paths.Good
  room : ld.analyses.size + names ld.paths ≤ b

/-- The next record of the file. -/
def Legible (n : Nat) (ids : List Int) (fd : Fd) : Prop :=
  DiskAnalyzer.analysisRead 0 0 fd ≠ .error .undefined ∧
    ∀ id a fd', DiskAnalyzer.analysisRead 0 0 fd = .ok (id, a, fd') →
      id ∉ ids ∧ KeysInside a.path ∧ a.path.length ≤ n

/-- The model, when a record is read. -/
theorem loadOne_ok (w : StartWorld) (k : Nat) {ld : Loaded} {id : Int} {a : Analysis} {fd' : Fd}
    (hread : DiskAnalyzer.analysisRead 0 0 ld.fd = .ok (id, a, fd')) :
    DiskAnalyzer.loadOne w.env k ld =
      some ⟨DiskAnalyzer.treapInsertNode ld.analyses (node id (w.rand k) a nil nil),
        (DiskAnalyzer.treeInsert ld.paths a.path (some id) none).2, max id ld.mxId, fd'⟩ := by
  simp only [DiskAnalyzer.loadOne, StartWorld.env, Bool.true_eq_false, if_false, hread, insertNew_eq,
    Option.map_some, Tree.insert_none_fst, ne_eq, not_true_eq_false]

/-- A round of the model reads a record whose id is new. -/
theorem loading_loadOne {w : StartWorld} {k n b : Nat} {ld ld' : Loaded} {ids : List Int}
    (hld : Loading b ld) (hids : ∀ j ∈ ld.analyses.ids, j ∈ ids) (hleg : Legible n ids ld.fd)
    (h : DiskAnalyzer.loadOne w.env k ld = some ld') : Loading (b + n + 1) ld' ∧
      ∃ id a, DiskAnalyzer.analysisRead 0 0 ld.fd = .ok (id, a, ld'.fd) ∧
        ∀ j ∈ ld'.analyses.ids, j ∈ id :: ids := by
  obtain ⟨id, a, heap, hread, han, -⟩ := loadOne_some h
  obtain ⟨hid, hkeys, hshort⟩ := hleg.2 id a ld'.fd hread
  refine ⟨?_, id, a, hread, fun j hj => ?_⟩
  · have hroom := hld.room
    have hnames := names_treeInsert_le hld.trie hkeys (some id) none
    rw [loadOne_ok w k hread] at h
    rw [← Option.some.inj h]
    refine ⟨ordered_insertNode hld.store (fun h => hid (hids id h)) _ a,
      (Tree.insert_spec hld.trie _ _ none).1, ?_⟩
    simp only [size_insertNode]
    omega
  · rw [han, mem_ids_insertNode] at hj
    rcases hj with rfl | hj
    · exact List.mem_cons_self
    · exact List.mem_cons_of_mem _ (hids j hj)

/-- The next `k` records of the file. -/
def Clean (n : Nat) : Nat → List Int → Fd → Prop
  | 0, _, _ => True
  | k + 1, ids, fd => Legible n ids fd ∧
      ∀ id a fd', DiskAnalyzer.analysisRead 0 0 fd = .ok (id, a, fd') → Clean n k (id :: ids) fd'

theorem loading_loadLoop {w : StartWorld} {n : Nat} (r : Nat) {k b : Nat} {ld ld' : Loaded}
    {ids : List Int} (hld : Loading b ld) (hids : ∀ j ∈ ld.analyses.ids, j ∈ ids)
    (hclean : Clean n r ids ld.fd) (h : DiskAnalyzer.loadLoop w.env r k ld = some ld') :
    Loading (b + (n + 1) * r) ld' := by
  induction r generalizing k b ld ids with
  | zero =>
    obtain rfl := Option.some.inj h
    exact hld
  | succ r ih =>
    rw [DiskAnalyzer.loadLoop] at h
    cases hone : DiskAnalyzer.loadOne w.env k ld with
    | none =>
      rw [hone] at h
      cases h
    | some ld₁ =>
      rw [hone] at h
      obtain ⟨hld₁, id, a, hread, hids₁⟩ := loading_loadOne hld hids hclean.1 hone
      have hrest := ih hld₁ hids₁ (hclean.2 id a ld₁.fd hread) h
      rwa [show b + n + 1 + (n + 1) * r = b + (n + 1) * (r + 1) by ring] at hrest

/-- What a round of the loading loop leaves. -/
def loadedOne (w : StartWorld) (k : Nat) (ld : Loaded) (m : Addr) (out : Option (Int × Fd)) : Owned :=
  (⨆ _ : out = none, emptiedAt m * stray) ⊔ ⨆ ld', ⨆ _ : out = some (ld'.mxId, ld'.fd) ∧
    DiskAnalyzer.loadOne w.env k ld = some ld', loadingAt ld'.analyses ld'.paths m

/-- An exit of the loop. -/
theorem abandon_spec {t : Treap Analysis} (ho : t.Ordered) (paths : Tree Int) (m : Addr) {fuel : Nat}
    (hfuel : 2 * (t.size + names paths) + 1 < fuel) {X : Owned} (hX : X ≤ stray) {α : Type}
    {Q : Option α → Owned} (hQ : emptiedAt m * stray ≤ Q none) :
    Triple (loadingAt t paths m * X) (do clearStore fuel m; return none) Q := by
  refine .call (clearStore_spec ho paths m hfuel) fun _ => ?_
  exact .ret ((mul_le_mul' le_rfl hX).trans hQ)

/-- **A round of the loading loop.** -/
theorem loadOne_spec (w : StartWorld) (m : Addr) (k : Nat) {n b fuel : Nat} {ld : Loaded}
    {ids : List Int} (hld : Loading b ld) (hids : ∀ j ∈ ld.analyses.ids, j ∈ ids)
    (hleg : Legible n ids ld.fd) (hfuel : 2 * (b + n + 1) + 1 < fuel) :
    Triple (loadingAt ld.analyses ld.paths m) (loadOne fuel w m k ld.mxId ld.fd)
      (loadedOne w k ld m) := by
  obtain ⟨hord, hgood, hroom⟩ := hld
  obtain ⟨hdef, hnext⟩ := hleg
  have hnone : emptiedAt m * stray ≤ loadedOne w k ld m none :=
    le_sup_of_le_left (le_iSup_of_le rfl le_rfl)
  unfold loadOne
  refine .malloc ?_ fun anal => ?_
  · refine Triple.pre (abandon_spec hord ld.paths m (by omega) one_le_stray hnone) ?_
    rw [mul_one]
  refine .call (analysisRead_spec anal hdef) fun out => ?_
  simp only [readAt, Quantale.sup_mul_distrib, iSup_mul, Triple.sup_iff, Triple.iSup_iff]
  constructor
  · rintro rfl
    simp only [spoilt, iSup_mul, Triple.iSup_iff]
    intro vs _
    refine .free vs ?_
    refine Triple.pre (abandon_spec hord ld.paths m (by omega) (X := 1 ⊔ mislaid) le_sup_left hnone) ?_
    rw [mul_comm]
  rintro id a fd' s ⟨rfl, hread⟩
  obtain ⟨hid, hkeys, hshort⟩ := hnext id a fd' hread
  have hput : treapIn (pending loadedAt anal) (parked ld.analyses id (w.rand k)) (analysesOf m) *
      recordAt a .undef .undef anal s ≤ treapIn (held loadedAt) (DiskAnalyzer.treapInsertNode
        ld.analyses (node id (w.rand k) a nil nil)) (analysesOf m) :=
    (mul_le_mul' le_rfl (le_iSup_of_le anal (le_iSup_of_le rfl (recordAt_le a _ _ anal s)))).trans
      (settle loadedAt id (w.rand k) a anal ld.analyses (analysesOf m))
  have hord' := ordered_insertNode hord (fun h => hid (hids id h)) (w.rand k) a
  have hsize := size_insertNode ld.analyses id (w.rand k) a
  rw [loadingAt]
  refine .call (insertPending_spec loadedAt id (w.rand k) anal ld.analyses (analysesOf m)
    (by omega)) fun ret => ?_
  simp only [Quantale.sup_mul_distrib, iSup_mul, Triple.sup_iff, Triple.iSup_iff]
  constructor
  · rintro rfl
    rw [if_pos one_ne_zero, recordAt]
    refine .free (recordWords a .undef .undef (some s)) ?_
    refine Triple.pre (abandon_spec hord ld.paths m (by omega) (X := block s [.data (.str a.path)])
      ?_ hnone) (le_of_eq ?_)
    · exact le_sup_of_le_left (le_sup_of_le_right (le_iSup_of_le s (le_iSup_of_le a.path le_rfl)))
    · rw [loadingAt]
      ac_rfl
  rintro rfl
  rw [if_neg (by simp)]
  refine .malloc ?_ fun idp => ?_
  · refine Triple.pre (abandon_spec hord' ld.paths m (by omega) one_le_stray hnone) ?_
    rw [loadingAt, mul_one]
    exact (le_of_eq (by ac_rfl)).trans (mul_le_mul' hput le_rfl)
  rw [show List.replicate 1 (Val.undef : Word) = [.undef] from rfl, block_one, pathsIn]
  simp only [mul_iSup, Triple.iSup_iff]
  intro x
  refine .store ?_
  refine loadPath_spec a .undef .undef anal s ?_
  refine .loadPtr ?_
  simp only [Triple.deref_some, pure_bind]
  have hins : Triple (treeAt idWords ld.paths x * infoOwned idWords (some id) (some idp))
      (treeInsert fuel x a.path (some idp)) _ :=
    treeInsert_spec (some id) (some idp) fuel ld.paths a.path x hgood hkeys (by omega)
  rw [infoOwned_at] at hins
  refine .call hins fun ret => ?_
  simp only [inserted, iSup_mul, Triple.iSup_iff]
  rintro alloc rfl
  have hnames := names_treeInsert_le hgood hkeys (some id) alloc
  by_cases hret : (DiskAnalyzer.treeInsert ld.paths a.path (some id) alloc).1 = 0
  · rw [if_pos hret, if_neg (not_not.2 hret)]
    rw [treeInsert_made a.path (some id) ld.paths alloc hret]
    refine .ret (le_sup_of_le_right (le_iSup_of_le _ (le_iSup_of_le
      ⟨?_, loadOne_ok w k hread⟩ ?_)))
    · rw [max_comm, max_def_lt]
    · rw [loadingAt, pathsIn]
      simp only [mul_iSup]
      refine le_iSup_of_le x ?_
      refine le_trans (le_of_eq ?_) (mul_le_mul' hput (mul_le_mul' le_rfl
        (lent_le (infoOwned idWords (some id) (some idp)) _)))
      ac_rfl
  · rw [if_neg hret, if_pos hret, infoOwned_at]
    refine .free [int id] ?_
    refine Triple.pre (abandon_spec hord' (DiskAnalyzer.treeInsert ld.paths a.path (some id) alloc).2
      m (by omega) (X := 1 ⊔ lost) ?_ hnone) ?_
    · exact sup_le one_le_stray le_sup_right
    · rw [loadingAt, pathsIn]
      simp only [mul_iSup, iSup_mul]
      refine le_iSup_of_le x ?_
      refine le_trans (le_of_eq ?_) (mul_le_mul' (mul_le_mul' hput le_rfl) le_rfl)
      ac_rfl

/-- What the loading loop leaves. -/
def loadedAll (w : StartWorld) (r k : Nat) (ld : Loaded) (m : Addr) (out : Option Int) : Owned :=
  (⨆ _ : out = none, emptiedAt m * stray) ⊔ ⨆ ld', ⨆ _ : out = some ld'.mxId ∧
    DiskAnalyzer.loadLoop w.env r k ld = some ld', loadingAt ld'.analyses ld'.paths m

/-- **The loading loop**, entered with `b` at most behind it. -/
theorem loadLoop_spec (w : StartWorld) (m : Addr) {n fuel : Nat} (r : Nat) :
    ∀ (k b : Nat) (ld : Loaded) (ids : List Int), Loading b ld → (∀ j ∈ ld.analyses.ids, j ∈ ids) →
      Clean n r ids ld.fd → 2 * (b + (n + 1) * r) + 1 < fuel →
        Triple (loadingAt ld.analyses ld.paths m) (loadLoop fuel w m r k ld.mxId ld.fd)
          (loadedAll w r k ld m) := by
  induction r with
  | zero =>
    intro k b ld ids _ _ _ _
    exact .ret (le_sup_of_le_right (le_iSup_of_le ld (le_iSup_of_le ⟨rfl, rfl⟩ le_rfl)))
  | succ r ih =>
    intro k b ld ids hld hids hclean hfuel
    have hsum : (n + 1) * (r + 1) = n + 1 + (n + 1) * r := by ring
    rw [hsum] at hfuel
    refine .bind (loadOne_spec w m k hld hids hclean.1 (by omega)) fun out => ?_
    simp only [loadedOne, Triple.sup_iff, Triple.iSup_iff]
    constructor
    · rintro rfl
      exact .ret (le_sup_of_le_left (le_iSup_of_le rfl le_rfl))
    rintro ld' ⟨rfl, hone⟩
    obtain ⟨hld', id, a, hread, hids'⟩ := loading_loadOne hld hids hclean.1 hone
    have hrest := ih (k + 1) (b + n + 1) ld' (id :: ids) hld' hids' (hclean.2 id a ld'.fd hread)
      (by omega)
    refine hrest.post fun out => sup_le_sup_left (iSup_mono fun ld'' => iSup_le fun hout => ?_) _
    refine le_iSup_of_le ⟨hout.1, ?_⟩ le_rfl
    rw [DiskAnalyzer.loadLoop, hone]
    exact hout.2

/-! ## Free ids -/

section Asking

variable {α : Type} (S : α → Ptr → Owned)

/-- A lookup that only asks whether there is a node. -/
theorem found_same (t : Treap α) (p : Ptr) (id : Int) (ret : Option Ptr) :
    found S t p id (DiskAnalyzer.treapFind t id) ret ≤
      ⨆ _ : ret.isSome = (DiskAnalyzer.treapFind t id).isSome, treapAt (held S) t p := by
  cases hf : DiskAnalyzer.treapFind t id with
  | none =>
    refine iSup_le fun hret => le_iSup_of_le ?_ le_rfl
    rw [hret]
    rfl
  | some a =>
    refine iSup_le fun ap => iSup_le fun hret => iSup_le fun K => iSup_le fun hK => ?_
    have hsame := hK a
    rw [← modify_of_find hf (f := fun b => b), modify_self] at hsame
    refine le_iSup_of_le ?_ hsame
    rw [hret]
    rfl

theorem treapAsk_spec (t : Treap α) (c : Addr) (id : Int) {fuel : Nat} (hfuel : t.size < fuel)
    [hF : Frame P (treapIn (held S) t c) F] {k : Option Ptr → Code β}
    (hk : ∀ ret, ret.isSome = (DiskAnalyzer.treapFind t id).isSome →
      Triple (treapIn (held S) t c * F) (k ret) Q) :
    Triple P (loadPtr c >>= fun p => treapFind fuel p id >>= k) Q := by
  rw [hF.eq, treapIn_open]
  simp only [iSup_mul, Triple.iSup_iff]
  intro p
  refine .loadPtr ?_
  refine .call ((treapFind_spec (S := S) id t fuel p hfuel).post (found_same S t p id)) fun ret => ?_
  rw [iSup_mul, Triple.iSup_iff]
  intro hret
  refine (hk ret hret).pre (le_trans (le_of_eq ?_) (mul_le_mul' (treapIn_of_treapAt c p) le_rfl))
  ac_rfl

end Asking

/-- What the loop over the free ids leaves. -/
def freedIds (w : StartWorld) (t : Treap Analysis) (r : Nat) (i : Int) (free : Treap Unit) (b : Nat)
    (m : Addr) (ret : Int) : Owned :=
  ⨆ free', ⨆ _ : (ret = 1 ∨ ret = 0 ∧ DiskAnalyzer.freeLoop w.env t r i free = some free') ∧
    free'.Ordered ∧ free'.size ≤ b,
      treapIn (held loadedAt) t (analysesOf m) * treapIn (held nullAt) free' (availableIdsOf m)

/-- **The loop over the free ids**, entered when those below `i` are there. -/
theorem freeLoop_spec (w : StartWorld) (m : Addr) (t : Treap Analysis) {b fuel : Nat}
    (ht : t.size < fuel) (hb : b < fuel) (r : Nat) :
    ∀ (i : Int) (free : Treap Unit), free.Ordered → (∀ j ∈ free.ids, j < i) →
      free.size + (ID_MAX + 1 - i).toNat ≤ b →
        Triple (treapIn (held loadedAt) t (analysesOf m) *
            treapIn (held nullAt) free (availableIdsOf m))
          (freeLoop fuel w m r i) (freedIds w t r i free b m) := by
  induction r with
  | zero =>
    intro i free hord _ hsize
    exact .ret (le_iSup_of_le free (le_iSup_of_le ⟨Or.inr ⟨rfl, rfl⟩, hord, by omega⟩ le_rfl))
  | succ r ih =>
    intro i free hord hbelow hsize
    rw [freeLoop]
    by_cases hmax : ID_MAX < i
    · rw [if_pos hmax]
      refine .ret (le_iSup_of_le free (le_iSup_of_le ⟨Or.inr ⟨rfl, ?_⟩, hord, by omega⟩ le_rfl))
      rw [DiskAnalyzer.freeLoop, if_pos hmax]
    rw [if_neg hmax]
    refine treapAsk_spec loadedAt t (analysesOf m) i ht fun ret hret => ?_
    cases hf : DiskAnalyzer.treapFind t i with
    | some a =>
      obtain ⟨p, rfl⟩ := Option.isSome_iff_exists.1 (hret.trans (by rw [hf]; rfl))
      have hrest := ih (i + 1) free hord (fun j hj => (hbelow j hj).trans (by omega)) (by omega)
      refine hrest.post fun ret => iSup_mono fun free' => iSup_le fun h => le_iSup_of_le ?_ le_rfl
      rwa [DiskAnalyzer.freeLoop, if_neg hmax, hf]
    | none =>
      obtain rfl : ret = none := by simpa [hf] using hret
      have hnew : i ∉ free.ids := fun h => (hbelow i h).false
      have hins := treapInsertNew_grown fits_null i (w.randFree i) free fuel (availableIdsOf m)
        (by omega)
      rw [mul_one] at hins
      refine .call hins fun ret => ?_
      simp only [grown, mul_one, Quantale.sup_mul_distrib, iSup_mul, Triple.sup_iff, Triple.iSup_iff]
      constructor
      · rintro rfl
        rw [if_pos one_ne_zero]
        refine .ret (le_iSup_of_le free (le_iSup_of_le ⟨Or.inl rfl, hord, by omega⟩ (le_of_eq ?_)))
        rw [mul_comm]
      · rintro rfl
        rw [if_neg (by simp)]
        have hrest := ih (i + 1) _ (ordered_insertNode hord hnew (w.randFree i) ()) (fun j hj => ?_)
          (by rw [size_insertNode]; omega)
        · refine (hrest.pre (mul_comm _ _).le).post fun ret => iSup_mono fun free' => iSup_le fun h =>
            le_iSup_of_le ?_ le_rfl
          rw [DiskAnalyzer.freeLoop, if_neg hmax, hf, insertNew_eq]
          exact h
        · rcases mem_ids_insertNode.1 hj with rfl | hj
          · exact Int.lt_succ j
          · exact (hbelow j hj).trans (Int.lt_succ i)

/-! ## The first forks -/

theorem initialForks_node (env : StartEnv) (id h : Int) (a : Analysis) (l r : Treap Analysis) :
    DiskAnalyzer.initialForks env (node id h a l r) = (forked env id a).bind fun a' =>
      (DiskAnalyzer.initialForks env l).bind fun l' =>
        (DiskAnalyzer.initialForks env r).map fun r' => node id h a' l' r' := by
  rw [DiskAnalyzer.initialForks, ← forked]
  cases forked env id a with
  | none => rfl
  | some a' => cases DiskAnalyzer.initialForks env l <;> rfl

/-- A record that has been loaded, taken apart. -/
theorem loadedAt_cases {a : Analysis} {p : Ptr} {c : Code β}
    (h : ∀ x s last pid, p = some x → Triple (recordAt a last pid x s * F) c Q) :
    Triple (loadedAt a p * F) c Q := by
  simp only [loadedAt, ownRecord, record, strAt, mul_iSup, iSup_mul, Triple.iSup_iff]
  rintro x hp last pid path s rfl
  exact h x s last pid hp

theorem recordAt_loaded (a : Analysis) (last pid : Word) (x s : Addr) :
    recordAt a last pid x s ≤ loadedAt a (some x) :=
  le_iSup_of_le x (le_iSup_of_le rfl (recordAt_le a last pid x s))

/-- It has the words it had, `last_start` and `pid` aside. -/
theorem record_of_forked {env : StartEnv} {id : Int} {a a' : Analysis}
    (h : forked env id a = some a') (last pid : Word) (x : Addr) :
    record a' last pid x = record a last pid x := by
  rw [forked] at h
  split_ifs at h
  · obtain ⟨q, -, rfl⟩ := Option.map_eq_some_iff.1 h
    simp only [record, recordWords]
  · obtain rfl := Option.some.inj h
    simp only [record, recordWords]

theorem loaded_of_forked {env : StartEnv} {id : Int} {a a' : Analysis}
    (h : forked env id a = some a') (p : Ptr) : analysisAt a' p ≤ loadedAt a p := by
  simp only [analysisAt, loadedAt, ownRecord, record_of_forked h]
  refine iSup_le fun x => iSup_le fun hp => iSup_le fun last => iSup_le fun _ => ?_
  exact le_iSup_of_le x (le_iSup_of_le hp (le_iSup_of_le last (le_iSup_of_le _ le_rfl)))

theorem node_of_forked {env : StartEnv} {id : Int} {a a' : Analysis}
    (h : forked env id a = some a') (k : Int) (q : Addr) :
    nodeAt (held analysisAt) id k a' q ≤ nodeAt (held loadedAt) id k a q := by
  rw [nodeAt, nodeAt, held, held]
  exact mul_le_mul' le_rfl (iSup_mono fun p => mul_le_mul' le_rfl (loaded_of_forked h p))

theorem loaded_of_forks {env : StartEnv} {t t' : Treap Analysis}
    (h : DiskAnalyzer.initialForks env t = some t') (p : Ptr) :
    treapAt (held analysisAt) t' p ≤ treapAt (held loadedAt) t p := by
  induction t generalizing t' p with
  | nil =>
    rw [DiskAnalyzer.initialForks] at h
    obtain rfl := Option.some.inj h
    rw [treapAt, treapAt]
  | node id k a l r ihl ihr =>
    rw [initialForks_node] at h
    obtain ⟨a', ha, h⟩ := Option.bind_eq_some_iff.1 h
    obtain ⟨l', hl, h⟩ := Option.bind_eq_some_iff.1 h
    obtain ⟨r', hr, rfl⟩ := Option.map_eq_some_iff.1 h
    have hleft (c : Addr) : treapIn (held analysisAt) l' c ≤ treapIn (held loadedAt) l c := by
      rw [treapIn_open, treapIn_open]
      exact iSup_mono fun p => mul_le_mul' le_rfl (ihl hl p)
    have hright (c : Addr) : treapIn (held analysisAt) r' c ≤ treapIn (held loadedAt) r c := by
      rw [treapIn_open, treapIn_open]
      exact iSup_mono fun p => mul_le_mul' le_rfl (ihr hr p)
    rw [treapAt_node, treapAt_node]
    exact iSup_mono fun q => iSup_mono fun _ =>
      mul_le_mul' (mul_le_mul' (node_of_forked ha k q) (hleft _)) (hright _)

/-- The words of a node around its record. -/
theorem nodeAt_held (S : Analysis → Ptr → Owned) (id h : Int) (a : Analysis) (q : Addr) :
    nodeAt (held S) id h a q = ⨆ p, head q 5 * cell (idOf q) (int id) * cell (heapVal q) (int h) *
      cell (analOf q) (.ptr p) * S a p := by
  simp only [nodeAt, held, mul_iSup, mul_assoc]

theorem nodeAt_put (S : Analysis → Ptr → Owned) {X : Owned} {a : Analysis} {x : Addr}
    (hX : X ≤ S a (some x)) (id h : Int) (q : Addr) :
    X * (head q 5 * cell (idOf q) (int id) * cell (heapVal q) (int h) *
      cell (analOf q) (.ptr (some x))) ≤ nodeAt (held S) id h a q := by
  rw [nodeAt_held, mul_comm]
  exact le_iSup_of_le (some x) (mul_le_mul' le_rfl hX)

/-- What a step of `initial_forks` leaves: what there was, or what the model makes of it. -/
def forkedAt {γ : Type} (ret : Int) (before : Owned) (made : Option γ) (after : γ → Owned) : Owned :=
  (⨆ _ : ret = 1, before) ⊔ ⨆ x, ⨆ _ : ret = 0 ∧ made = some x, after x

theorem initialFork_spec (w : StartWorld) (id h : Int) (a : Analysis) (q : Addr) :
    Triple (nodeAt (held loadedAt) id h a q) (initialFork w q) fun ret =>
      forkedAt ret (nodeAt (held loadedAt) id h a q) (forked w.env id a)
        fun a' => nodeAt (held analysisAt) id h a' q := by
  refine Triple.pre ?_ (nodeAt_held loadedAt id h a q).le
  rw [Triple.iSup_iff]
  intro p
  rw [mul_comm]
  refine loadedAt_cases fun x s last pid hp => ?_
  subst hp
  unfold initialFork
  refine .loadPtr ?_
  simp only [Triple.deref_some, pure_bind]
  have hloaded := nodeAt_put loadedAt (recordAt_loaded a last pid x s) id h q
  have hmade (a' : Analysis) (ha : forked w.env id a = some a') (last' : Word)
      (hlast : last' = int a'.lastStart ∨ a'.status = ANALYSIS_COMPLETE) :
      recordAt a' last' (int a'.pid) x s * (head q 5 * cell (idOf q) (int id) *
        cell (heapVal q) (int h) * cell (analOf q) (.ptr (some x))) ≤
          forkedAt 0 (nodeAt (held loadedAt) id h a q) (forked w.env id a)
            fun a' => nodeAt (held analysisAt) id h a' q :=
    le_sup_of_le_right (le_iSup_of_le a' (le_iSup_of_le ⟨rfl, ha⟩
      (nodeAt_put analysisAt (analysisAt_intro hlast) id h q)))
  simp only [recordAt_open] at hloaded hmade ⊢
  refine loadInt_spec ?_
  by_cases hst : a.status = ANALYSIS_COMPLETE
  · rw [if_neg (not_not.2 hst)]
    refine .store ?_
    refine .ret ((le_of_eq ?_).trans (hmade { a with pid := -1 } ?_ last (Or.inr hst)))
    · ac_rfl
    · rw [forked, if_neg (not_not.2 hst)]
  · rw [if_pos hst]
    refine loadInt_spec ?_
    refine loadPath_spec a last pid x s ?_
    have hid : cell (idOf q) (int id) = cell (idOf q) (int id) * 1 := (mul_one _).symm
    refine .call (forkRequest_spec hid a last pid x s (w.fork id a.path)) fun ret => ?_
    simp only [Quantale.sup_mul_distrib, iSup_mul, Triple.sup_iff, Triple.iSup_iff]
    constructor
    · rintro ⟨-, rfl⟩
      rw [if_pos one_ne_zero]
      refine .ret (le_sup_of_le_left (le_iSup_of_le rfl ((le_of_eq ?_).trans hloaded)))
      rw [recordAt_open]
      ac_rfl
    · rintro n ⟨hfork, rfl⟩
      rw [if_neg (by simp)]
      refine storeLast_spec { a with pid := n } last (int n) x s ?_
      refine .ret ((le_of_eq ?_).trans (hmade { a with pid := n, lastStart := w.now id } ?_
        (int (w.now id)) (Or.inl rfl)))
      · rw [recordAt_open]
        ac_rfl
      · rw [forked, if_pos hst]
        show (w.fork id a.path).map _ = _
        rw [hfork]
        rfl

/-- **`initial_forks`** makes the store the model makes, or leaves the records, some of them with a
pid. -/
theorem initialForks_spec (w : StartWorld) (t : Treap Analysis) : ∀ (fuel : Nat) (p : Ptr),
    t.size < fuel →
      Triple (treapAt (held loadedAt) t p) (initialForks fuel w p) fun ret =>
        forkedAt ret (treapAt (held loadedAt) t p) (DiskAnalyzer.initialForks w.env t)
          fun t' => treapAt (held analysisAt) t' p := by
  induction t with
  | nil =>
    intro fuel p hfuel
    obtain ⟨fuel, rfl⟩ : ∃ n, fuel = n + 1 := ⟨fuel - 1, by omega⟩
    simp only [treapAt, Triple.iSup_iff]
    rintro rfl
    rw [initialForks]
    refine .ret (le_sup_of_le_right (le_iSup_of_le nil (le_iSup_of_le ⟨rfl, ?_⟩ ?_)))
    · rw [DiskAnalyzer.initialForks]
    · show 1 ≤ treapAt (held analysisAt) nil none
      rw [treapAt]
      exact le_iSup_of_le rfl le_rfl
  | node id h a l r ihl ihr =>
    intro fuel p hfuel
    rw [size_node] at hfuel
    obtain ⟨fuel, rfl⟩ : ∃ n, fuel = n + 1 := ⟨fuel - 1, by omega⟩
    refine Triple.pre ?_ (treapAt_node (held loadedAt) id h a l r p).le
    simp only [Triple.iSup_iff]
    rintro q rfl
    have hwhole := treapAt_some (held loadedAt) id h a l r q
    rw [initialForks, initialForks_node]
    refine .call (initialFork_spec w id h a q) fun ret => ?_
    rw [forkedAt, Quantale.sup_mul_distrib, Triple.sup_iff]
    simp only [iSup_mul, Triple.iSup_iff]
    constructor
    · rintro rfl
      rw [if_pos one_ne_zero]
      refine .ret (le_sup_of_le_left (le_iSup_of_le rfl (le_trans (le_of_eq ?_) hwhole.ge)))
      ac_rfl
    rintro a' ⟨rfl, ha⟩
    rw [if_neg (by simp), treapIn_open l (chldLeft q)]
    simp only [mul_iSup, iSup_mul, Triple.iSup_iff]
    intro lp
    refine .loadPtr ?_
    refine .call (ihl fuel lp (by omega)) fun ret => ?_
    rw [forkedAt, Quantale.sup_mul_distrib, Triple.sup_iff]
    simp only [iSup_mul, Triple.iSup_iff]
    constructor
    · rintro rfl
      rw [if_pos one_ne_zero]
      refine .ret (le_sup_of_le_left (le_iSup_of_le rfl ?_))
      refine le_trans (le_of_eq ?_) ((mul_le_mul' (mul_le_mul' (node_of_forked ha h q)
        (treapIn_of_treapAt (chldLeft q) lp)) le_rfl).trans hwhole.ge)
      ac_rfl
    rintro l' ⟨rfl, hl⟩
    rw [if_neg (by simp), treapIn_open r (chldRight q)]
    simp only [mul_iSup, Triple.iSup_iff]
    intro rp
    refine .loadPtr ?_
    refine .last (ihr fuel rp (by omega)) fun ret => ?_
    rw [forkedAt, Quantale.sup_mul_distrib]
    simp only [iSup_mul]
    refine sup_le (iSup_le fun hret => ?_) (iSup_le fun r' => iSup_le fun hr => ?_)
    · refine le_sup_of_le_left (le_iSup_of_le hret ?_)
      refine le_trans (le_of_eq ?_) ((mul_le_mul' (mul_le_mul' (node_of_forked ha h q) (le_trans
        (mul_le_mul' le_rfl (loaded_of_forks hl lp)) (treapIn_of_treapAt (chldLeft q) lp)))
          (treapIn_of_treapAt (chldRight q) rp)).trans hwhole.ge)
      ac_rfl
    · refine le_sup_of_le_right (le_iSup_of_le (node id h a' l' r') (le_iSup_of_le ⟨hr.1, ?_⟩ ?_))
      · rw [ha, hl, hr.2]
        rfl
      · refine le_trans (le_of_eq ?_) ((mul_le_mul' (mul_le_mul' le_rfl
          (treapIn_of_treapAt (chldLeft q) lp)) (treapIn_of_treapAt (chldRight q) rp)).trans
            (treapAt_some (held analysisAt) id h a' l' r' q).ge)
        ac_rfl

/-! ## Starting up -/

theorem treeInit_spec (c : Addr) (v : Word) : Triple (cell c v) (treeInit c) fun ret =>
    (⨆ _ : ret = 1, cell c (.ptr none)) ⊔ ⨆ _ : ret = 0, pathsIn DiskAnalyzer.treeInit c := by
  unfold treeInit
  refine .malloc ?_ fun t => ?_
  · refine .store ?_
    refine .ret (le_sup_of_le_left (le_iSup_of_le rfl ?_))
    rw [mul_one]
  · refine .store ?_
    refine .call (treeBlank_spec t) fun _ => ?_
    refine .ret (le_sup_of_le_right (le_iSup_of_le rfl (le_iSup_of_le t ?_)))
    rw [mul_comm]
    exact mul_le_mul' le_rfl (blankAt_le t)

/-- A word, whatever it holds. -/
def wordAt (c : Addr) : Owned := ⨆ v : Word, cell c v

theorem le_wordAt (c : Addr) (v : Word) : cell c v ≤ wordAt c := le_iSup _ v

theorem ptr_le_wordAt (c : Addr) : (⨆ t, cell c (.ptr t)) ≤ wordAt c :=
  iSup_le fun t => le_wordAt c (.ptr t)

/-- The members of a `struct threads_manager`. -/
def membersAt (m : Addr) : Owned :=
  wordAt (analysisCntOf m) * wordAt (analysesOf m) * wordAt (pathsOf m) * wordAt (availableIdsOf m)

theorem emptied_le (m : Addr) (v u : Word) :
    emptiedAt m * (cell (analysisCntOf m) v * cell (availableIdsOf m) u) ≤ membersAt m := by
  rw [emptiedAt, membersAt]
  refine le_trans (le_of_eq ?_) (mul_le_mul' (mul_le_mul' (mul_le_mul' (le_wordAt _ v)
    (le_wordAt _ (.ptr none))) (ptr_le_wordAt _)) (le_wordAt _ u))
  ac_rfl

theorem clearAll_spec {t : Treap Analysis} {free : Treap Unit} (ho : t.Ordered) (ho' : free.Ordered)
    (paths : Tree Int) (m : Addr) {fuel : Nat} (hfuel : 2 * (t.size + names paths) + 1 < fuel)
    (hfuel' : 2 * free.size < fuel) :
    Triple (loadingAt t paths m * treapIn (held nullAt) free (availableIdsOf m)) (clearAll fuel m)
      fun ret => ⨆ _ : ret = -1, emptiedAt m * cell (availableIdsOf m) (.ptr none) := by
  unfold clearAll
  refine .call (treapClear_spec freed_nullAt free.size fuel free (availableIdsOf m)
    (drains_of_ordered ho') (by omega)) fun _ => ?_
  refine .call (clearStore_spec ho paths m hfuel) fun _ => ?_
  exact .ret (le_iSup_of_le rfl le_rfl)

/-- What `threads_startup` leaves once the data file has been read. -/
def startedIds (w : StartWorld) (cnt : Int) (ld : Loaded) (m : Addr) (ret : Int) : Owned :=
  (⨆ _ : ret = -1, membersAt m) ⊔ ⨆ free, ⨆ t, ⨆ _ : ret = 0 ∧
    DiskAnalyzer.freeLoop w.env ld.analyses (ld.mxId + 1).toNat 1 nil = some free ∧
      w.sockets = true ∧ DiskAnalyzer.initialForks w.env ld.analyses = some t,
        managerAt ⟨cnt, t, ld.paths, free⟩ m

theorem threadsStartupIds_spec (w : StartWorld) (m : Addr) (cnt : Int) {b fuel : Nat} {ld : Loaded}
    (hld : Loading b ld) (hfuel : 2 * (b + ID_MAX.toNat) + 1 < fuel) (v : Word) :
    Triple (cell (analysisCntOf m) (int cnt) * loadingAt ld.analyses ld.paths m *
      cell (availableIdsOf m) v) (threadsStartupIds fuel w ld.mxId m) (startedIds w cnt ld m) := by
  obtain ⟨hord, hgood, hroom⟩ := hld
  have hfail {free : Treap Unit} (ho : free.Ordered) (hsize : free.size ≤ ID_MAX.toNat) :
      Triple (cell (analysisCntOf m) (int cnt) * loadingAt ld.analyses ld.paths m *
        treapIn (held nullAt) free (availableIdsOf m)) (clearAll fuel m) (startedIds w cnt ld m) := by
    rw [mul_assoc]
    refine .last (clearAll_spec hord ho ld.paths m (by omega) (by omega)) fun ret => ?_
    rw [iSup_mul]
    refine iSup_le fun hret => le_sup_of_le_left (le_iSup_of_le hret ?_)
    refine le_trans (le_of_eq ?_) (emptied_le m (int cnt) (.ptr none))
    ac_rfl
  unfold threadsStartupIds
  rw [loadingAt]
  refine .store ?_
  have ht : ld.analyses.size < fuel := by omega
  have hmax : ID_MAX.toNat < fuel := by omega
  have hloop := freeLoop_spec w m ld.analyses ht hmax (ld.mxId + 1).toNat 1 nil ordered_nil (by simp)
    (by simp)
  rw [treapIn_nil] at hloop
  refine .call hloop fun ret => ?_
  rw [freedIds]
  simp only [iSup_mul, Triple.iSup_iff]
  rintro free ⟨hret, ho, hsize⟩
  have hfail' : Triple (treapIn (held loadedAt) ld.analyses (analysesOf m) *
      treapIn (held nullAt) free (availableIdsOf m) * (cell (analysisCntOf m) (int cnt) *
        pathsIn ld.paths (pathsOf m))) (clearAll fuel m) (startedIds w cnt ld m) := by
    refine (hfail ho hsize).pre (le_of_eq ?_)
    rw [loadingAt]
    ac_rfl
  rcases hret with rfl | ⟨rfl, hfree⟩
  · rw [if_pos one_ne_zero]
    exact hfail'
  rw [if_neg (by simp)]
  by_cases hsock : w.sockets = false
  · rw [if_pos hsock]
    exact hfail'
  rw [if_neg hsock, treapIn_open ld.analyses (analysesOf m)]
  simp only [iSup_mul, Triple.iSup_iff]
  intro p
  refine .loadPtr ?_
  refine .call (initialForks_spec w ld.analyses fuel p (by omega)) fun ret => ?_
  rw [forkedAt, Quantale.sup_mul_distrib, Triple.sup_iff]
  simp only [iSup_mul, Triple.iSup_iff]
  constructor
  · rintro rfl
    rw [if_pos one_ne_zero]
    refine hfail'.pre (le_trans (le_of_eq ?_) (mul_le_mul' (mul_le_mul'
      (treapIn_of_treapAt (analysesOf m) p) le_rfl) le_rfl))
    ac_rfl
  · rintro t ⟨rfl, hforks⟩
    rw [if_neg (by simp)]
    refine .ret (le_sup_of_le_right (le_iSup_of_le free (le_iSup_of_le t (le_iSup_of_le
      ⟨rfl, hfree, by simpa using hsock, hforks⟩ ?_))))
    rw [managerAt]
    refine le_trans (le_of_eq ?_) (mul_le_mul' (mul_le_mul' (mul_le_mul' le_rfl
      (treapIn_of_treapAt (analysesOf m) p)) le_rfl) le_rfl)
    ac_rfl

/-- A data file the manager can be started from: the records have ids of their own, lengths that are
no more than a buffer, and paths of at most `n` characters whose keys are inside. -/
def CleanFile (n fuel : Nat) (file : Bytes) (reads : Option Nat) : Prop :=
  ∀ cnt fd, readCount ⟨file, reads⟩ = some (cnt, fd) →
    Clean n cnt.toNat [] fd ∧ 2 * ((n + 1) * cnt.toNat + ID_MAX.toNat) + 1 < fuel

/-- What `threads_startup` leaves: the members and a block that is lost, or the manager of the
model. -/
def startedAt (w : StartWorld) (file : Bytes) (m : Addr) (ret : Int) : Owned :=
  (⨆ _ : ret = -1, membersAt m * stray) ⊔ ⨆ man, ⨆ _ : ret = 0 ∧
    DiskAnalyzer.threadsStartup w.env file = some man, managerAt man m

/-- The model, when its loops come to their ends. -/
theorem threadsStartup_env {w : StartWorld} {file : Bytes} {cnt : Int} {fd : Fd} {ld : Loaded}
    {free : Treap Unit} {t : Treap Analysis} (hcount : readCount ⟨file, w.reads⟩ = some (cnt, fd))
    (hload : DiskAnalyzer.loadLoop w.env cnt.toNat 0 ⟨nil, DiskAnalyzer.treeInit, 0, fd⟩ = some ld)
    (hfree : DiskAnalyzer.freeLoop w.env ld.analyses (ld.mxId + 1).toNat 1 nil = some free)
    (hsock : w.sockets = true) (hforks : DiskAnalyzer.initialForks w.env ld.analyses = some t) :
    DiskAnalyzer.threadsStartup w.env file = some ⟨cnt, t, ld.paths, free⟩ := by
  have hreads : w.env.reads = w.reads := rfl
  have hsock' : w.env.sockets = true := hsock
  simp only [DiskAnalyzer.threadsStartup, hreads, hcount, hload, hfree, hsock', Bool.true_eq_false,
    if_false, hforks, Option.map_some]

theorem loading_start (fd : Fd) : Loading 0 ⟨nil, DiskAnalyzer.treeInit, 0, fd⟩ where
  store := ordered_nil
  trie := Tree.good_treeInit
  room := by simp [names_treeInit]

theorem threadsStartupLoad_spec {w : StartWorld} {file : Bytes} {cnt : Int} {fd : Fd} (m : Addr)
    {n fuel : Nat} (hcount : readCount ⟨file, w.reads⟩ = some (cnt, fd))
    (hclean : Clean n cnt.toNat [] fd) (hfuel : 2 * ((n + 1) * cnt.toNat + ID_MAX.toNat) + 1 < fuel)
    (v₁ v₂ v₃ : Word) :
    Triple (cell (analysisCntOf m) (int cnt) * cell (analysesOf m) v₁ * cell (pathsOf m) v₂ *
      cell (availableIdsOf m) v₃) (threadsStartupLoad fuel w cnt fd m) (startedAt w file m) := by
  unfold threadsStartupLoad
  refine .call (treeInit_spec (pathsOf m) v₂) fun ret => ?_
  simp only [Quantale.sup_mul_distrib, iSup_mul, Triple.sup_iff, Triple.iSup_iff]
  constructor
  · rintro rfl
    rw [if_pos one_ne_zero]
    refine .ret (le_sup_of_le_left (le_iSup_of_le rfl (le_mul_of_le_of_one_le ?_ one_le_stray)))
    rw [membersAt]
    refine le_trans (le_of_eq ?_) (mul_le_mul' (mul_le_mul' (mul_le_mul' (le_wordAt _ (int cnt))
      (le_wordAt _ v₁)) (le_wordAt _ (.ptr none))) (le_wordAt _ v₃))
    ac_rfl
  rintro rfl
  rw [if_neg (by simp)]
  refine .store ?_
  have hdepth : 2 * (0 + (n + 1) * cnt.toNat) + 1 < fuel := by omega
  have hloop := loadLoop_spec w m cnt.toNat 0 0 ⟨nil, DiskAnalyzer.treeInit, 0, fd⟩ []
    (loading_start fd) (by simp) hclean hdepth
  simp only [loadingAt, treapIn_nil] at hloop
  refine .call hloop fun out => ?_
  rw [loadedAll]
  simp only [Quantale.sup_mul_distrib, iSup_mul, Triple.sup_iff, Triple.iSup_iff]
  constructor
  · rintro rfl
    refine .ret (le_sup_of_le_left (le_iSup_of_le rfl ?_))
    refine le_trans (le_of_eq ?_) (mul_le_mul' (emptied_le m (int cnt) v₃) le_rfl)
    ac_rfl
  · rintro ld ⟨rfl, hload⟩
    have hld := loading_loadLoop cnt.toNat (loading_start fd) (by simp) hclean hload
    rw [Nat.zero_add] at hld
    have hids := threadsStartupIds_spec w m cnt hld hfuel v₃
    refine (hids.pre (le_of_eq (by ac_rfl))).post fun ret => sup_le_sup ?_ ?_
    · exact iSup_mono fun _ => le_mul_of_le_of_one_le le_rfl one_le_stray
    · refine iSup_le fun free => iSup_le fun t => iSup_le fun h => ?_
      obtain ⟨hret, hfree, hsock, hforks⟩ := h
      exact le_iSup_of_le _ (le_iSup_of_le
        ⟨hret, threadsStartup_env hcount hload hfree hsock hforks⟩ le_rfl)

/-- **`threads_startup`** builds the manager of the model, or returns -1 and has freed what it made.
A path is lost when the node of its record cannot be made or the record cannot be read to its end, a
list node when a path cannot be put in. -/
theorem threadsStartup_spec (w : StartWorld) (file : Bytes) (m : Addr) {n fuel : Nat}
    (hclean : CleanFile n fuel file w.reads) :
    Triple (membersAt m) (threadsStartup fuel w file m) (startedAt w file m) := by
  have hfail : membersAt m ≤ startedAt w file m (-1) :=
    le_sup_of_le_left (le_iSup_of_le rfl (le_mul_of_le_of_one_le le_rfl one_le_stray))
  unfold threadsStartup
  refine .malloc (.ret hfail) fun string => ?_
  rw [show List.replicate 1 (Val.undef : Word) = [.undef] from rfl, block_one]
  cases hread : Fd.read ⟨file, w.reads⟩ 10 with
  | none =>
    refine free_one ?_
    exact .ret hfail
  | some got =>
    obtain ⟨bytes, fd⟩ := got
    have hcount : readCount ⟨file, w.reads⟩ =
        some (if bytes = [] then 0 else Decimal.atoi (cstr bytes), fd) := by
      rw [readCount, hread]
    obtain ⟨hrecords, hfuel⟩ := hclean _ fd hcount
    rw [membersAt]
    simp only [wordAt, mul_iSup, iSup_mul, Triple.iSup_iff]
    intro v₃ v₂ v₁ v₀
    have hload := threadsStartupLoad_spec m hcount hrecords hfuel v₁ v₂ v₃
    refine .store ?_
    by_cases hb : bytes = []
    · rw [if_pos hb] at hload ⊢
      rw [pure_bind]
      refine .store ?_
      refine free_one ?_
      exact hload.pre (le_of_eq (by ac_rfl))
    · rw [if_neg hb] at hload ⊢
      simp only [bind_assoc, pure_bind]
      refine loadStr_spec ?_
      refine .store ?_
      refine free_one ?_
      exact hload.pre (le_of_eq (by ac_rfl))

end DiskAnalyzer.Memory
