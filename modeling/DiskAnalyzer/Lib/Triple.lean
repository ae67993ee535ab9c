import DiskAnalyzer.Lib.Memory

/-!
# Triples

The rules of the logic. The primitives are stated with the program that follows them, so a proof
walks through a `do` block statement by statement; `Triple.call` does the same for a call, with the
callee's own triple. What is not mentioned by a rule is the factor `F`, the frame.
-/

namespace Sep

open Quantale

variable {σ α β : Type}

/-- From every memory part of which satisfies `P`, `c` ends; it leaves the rest as it is and what
it has then satisfies `Q`. -/
def Triple (P : Assert σ) (c : Prog σ α) (Q : α → Assert σ) : Prop :=
  ∀ (m : Mem σ) (h f : Heap Addr (Cell σ)), m.cells.Splits h f → P h →
    ∃ v m' h', c m = some (v, m') ∧ m'.cells.Splits h' f ∧ Q v h'

/-! ## Finding what a statement needs

A precondition is a product. `Owns P a v F` and `Frame P A F` find a word or a whole assertion
among the factors, whatever their order, and what the other factors are. -/

/-- `P` has the word `a`, which holds `v`, and `F`. -/
class Owns (P : Assert σ) (a : Addr) (v : outParam (Val σ)) (F : outParam (Assert σ)) : Prop where
  eq : P = cell a v * F

/-- `P` has `A`, and `F`. -/
class Frame (P A : Assert σ) (F : outParam (Assert σ)) : Prop where
  eq : P = A * F

section Instances

variable {P Q A B F G : Assert σ} {a : Addr} {v : Val σ}

instance : Owns (cell a v) a v 1 := ⟨(mul_one _).symm⟩

instance [h : Owns P a v F] : Owns (P * Q) a v (F * Q) := ⟨by rw [h.eq, mul_assoc]⟩

instance [h : Owns Q a v F] : Owns (P * Q) a v (P * F) := ⟨by rw [h.eq, mul_left_comm]⟩

instance (priority := high) : Owns (cell a v * Q) a v Q := ⟨rfl⟩

instance (priority := high) : Owns (P * cell a v) a v P := ⟨mul_comm _ _⟩

instance : Frame P P 1 := ⟨(mul_one _).symm⟩

instance : Frame P 1 P := ⟨(one_mul _).symm⟩

instance [h : Frame P A F] : Frame (P * Q) A (F * Q) := ⟨by rw [h.eq, mul_assoc]⟩

instance [h : Frame Q A F] : Frame (P * Q) A (P * F) := ⟨by rw [h.eq, mul_left_comm]⟩

instance (priority := high) : Frame (A * Q) A Q := ⟨rfl⟩

instance (priority := high) : Frame (P * A) A P := ⟨mul_comm _ _⟩

-- Tried first: factors are found one by one.
instance (priority := high) [h : Frame P A F] [h' : Frame F B G] : Frame P (A * B) G :=
  ⟨by rw [h.eq, h'.eq, mul_assoc]⟩

end Instances

namespace Triple

variable {P P' F : Assert σ} {Q Q' : α → Assert σ} {R : β → Assert σ} {c : Prog σ α}
  {k : α → Prog σ β}

/-! ## Structure -/

theorem conseq (h : Triple P c Q) (hP : P' ≤ P) (hQ : ∀ v, Q v ≤ Q' v) : Triple P' c Q' := by
  intro m h₁ f hs hp
  obtain ⟨v, m', h', hrun, hs', hq⟩ := h m h₁ f hs (hP h₁ hp)
  exact ⟨v, m', h', hrun, hs', hQ v h' hq⟩

theorem pre (h : Triple P c Q) (hP : P' ≤ P) : Triple P' c Q := h.conseq hP fun _ => le_rfl

theorem post (h : Triple P c Q) (hQ : ∀ v, Q v ≤ Q' v) : Triple P c Q' := h.conseq le_rfl hQ

/-- **The frame rule.** -/
theorem frame (h : Triple P c Q) (F : Assert σ) : Triple (P * F) c fun v => Q v * F := by
  rintro m h₁ f hs ⟨hP, hF, hs', hp, hf⟩
  have ha := hs.assoc hs'
  obtain ⟨v, m', h', hrun, hs'', hq⟩ := h m hP _ ha.1 hp
  have hb := hs''.symm.assoc ha.2.symm
  refine ⟨v, m', _, hrun, hb.1.symm, h', hF, hb.2.symm, hq, hf⟩

theorem ret {v : α} (h : P ≤ Q v) : Triple P (pure v : Prog σ α) Q :=
  fun m h₁ _ hs hp => ⟨v, m, h₁, rfl, hs, h h₁ hp⟩

theorem bind (hc : Triple P c Q) (hk : ∀ v, Triple (Q v) (k v) R) : Triple P (c >>= k) R := by
  intro m h f hs hp
  obtain ⟨v, m', h', hrun, hs', hq⟩ := hc m h f hs hp
  obtain ⟨w, m'', h'', hrun', hs'', hr⟩ := hk v m' h' f hs' hq
  refine ⟨w, m'', h'', ?_, hs'', hr⟩
  show ((c m).bind fun p => k p.1 p.2) = _
  rw [hrun]
  exact hrun'

/-- A call: the callee is given its part, and what follows has the callee's result and the frame. -/
theorem call {A : Assert σ} [hF : Frame P A F] (hc : Triple A c Q)
    (hk : ∀ v, Triple (Q v * F) (k v) R) : Triple P (c >>= k) R := by
  rw [hF.eq]
  exact (hc.frame F).bind hk

/-- A call at the end. -/
theorem last {A : Assert σ} [hF : Frame P A F] (hc : Triple A c Q) (hQ : ∀ v, Q v * F ≤ Q' v) :
    Triple P c Q' := by
  rw [hF.eq]
  exact (hc.frame F).post hQ

theorem iSup_iff {γ : Sort*} {P : γ → Assert σ} :
    Triple (⨆ x, P x) c Q ↔ ∀ x, Triple (P x) c Q := by
  constructor
  · exact fun h x => h.pre (le_iSup P x)
  · intro h m h₁ f hs hp
    obtain ⟨x, hx⟩ := (Assertion.iSup_holds P h₁).1 hp
    exact h x m h₁ f hs hx

theorem sup_iff : Triple (P ⊔ P') c Q ↔ Triple P c Q ∧ Triple P' c Q := by
  constructor
  · exact fun h => ⟨h.pre le_sup_left, h.pre le_sup_right⟩
  · intro h m h₁ f hs hp
    rcases (Assertion.sup_holds P P' h₁).1 hp with hp | hp
    · exact h.1 m h₁ f hs hp
    · exact h.2 m h₁ f hs hp

/-- What a program with a triple leaves behind, from a memory it owns whole. -/
theorem run (hc : Triple P c Q) {m : Mem σ} (hp : P m.cells) :
    ∃ v m', c m = some (v, m') ∧ Q v m'.cells := by
  have hs : m.cells.Splits m.cells Heap.empty := (Heap.splits_empty_left.2 rfl).symm
  obtain ⟨v, m', h', hrun, hs', hq⟩ := hc m _ _ hs hp
  rw [← Heap.splits_empty_left.1 hs'.symm] at hq
  exact ⟨v, m', hrun, hq⟩

/-! ## Words -/

theorem cell_read {a : Addr} {v : Val σ} {m : Mem σ} {h f : Heap Addr (Cell σ)}
    (hs : m.cells.Splits h f) (hp : (cell a v * F) h) : m.cells a = some (.word v) := by
  obtain ⟨h₁, h₂, hs', rfl, -⟩ := hp
  exact hs.left (hs'.left (Heap.single_self a _))

theorem load {a : Addr} {v : Val σ} [hF : Owns P a v F] {k : Val σ → Prog σ β}
    (hk : Triple P (k v) R) : Triple P (Sep.load a >>= k) R := by
  intro m h f hs hp
  obtain ⟨w, m', h', hrun, hs', hr⟩ := hk m h f hs hp
  refine ⟨w, m', h', ?_, hs', hr⟩
  show ((Sep.load a m).bind fun p => k p.1 p.2) = _
  rw [hF.eq] at hp
  rw [Sep.load, cell_read hs hp]
  exact hrun

theorem loadPtr {a : Addr} {p : Ptr} [Owns P a (.ptr p) F] {k : Ptr → Prog σ β}
    (hk : Triple P (k p) R) : Triple P (Sep.loadPtr a >>= k) R := by
  rw [Sep.loadPtr, bind_assoc]
  refine load (v := .ptr p) ?_
  simpa using hk

/-- A load at the end. -/
theorem loadPtr_last {a : Addr} {p : Ptr} [Owns P a (.ptr p) F] {Q : Ptr → Assert σ}
    (hQ : P ≤ Q p) : Triple P (Sep.loadPtr a) Q := by
  rw [← bind_pure (Sep.loadPtr a)]
  exact loadPtr (ret hQ)

theorem loadData {a : Addr} {v : σ} [Owns P a (.data v) F] {k : σ → Prog σ β}
    (hk : Triple P (k v) R) : Triple P (Sep.loadData a >>= k) R := by
  rw [Sep.loadData, bind_assoc]
  refine load (v := .data v) ?_
  simpa using hk

theorem store_cell (a : Addr) (v w : Val σ) (F : Assert σ) :
    Triple (cell a v * F) (Sep.store a w) fun _ => cell a w * F := by
  rintro m h f hs ⟨h₁, h₂, hs', rfl, hF⟩
  have hread : m.cells a = some (.word v) := cell_read hs (F := F) ⟨_, h₂, hs', rfl, hF⟩
  have hset : (Heap.union (Heap.single a (.word w)) h₂).Splits (Heap.single a (.word w)) h₂ := by
    intro b
    by_cases hb : b = a
    · subst hb
      exact Or.inl ⟨by simp [Heap.union], hs'.right_none (Heap.single_self b _)⟩
    · exact Or.inr ⟨by simp [Heap.union, hb], Heap.single_ne hb _⟩
  refine ⟨(), m.write a w (by rw [hread]; rfl), _, ?_, ?_, _, h₂, hset, rfl, hF⟩
  · unfold Sep.store
    split
    · rfl
    · next hno => exact absurd hread (hno v)
  · intro b
    by_cases hb : b = a
    · subst hb
      refine Or.inl ⟨by simp [Mem.write, Heap.union], ?_⟩
      exact hs.right_none (hs'.left (Heap.single_self b _))
    · have hu : Heap.union (Heap.single a (.word w)) h₂ b = h b := by
        rw [hs'.eq_union]
        simp [Heap.union, hb]
      rw [hu]
      simpa [Mem.write, hb] using hs b

theorem store {a : Addr} {v w : Val σ} [hF : Owns P a v F] {k : Unit → Prog σ β}
    (hk : Triple (cell a w * F) (k ()) R) : Triple P (Sep.store a w >>= k) R := by
  rw [hF.eq]
  exact (store_cell a v w F).bind fun _ => hk

/-- A store at the end. -/
theorem store_last {a : Addr} {v w : Val σ} [hF : Owns P a v F] {Q : Unit → Assert σ}
    (hQ : cell a w * F ≤ Q ()) : Triple P (Sep.store a w) Q := by
  rw [hF.eq]
  exact (store_cell a v w F).post fun _ => hQ

@[simp] theorem deref_some (a : Addr) : (deref (some a) : Prog σ Addr) = pure a := rfl

/-! ## Blocks -/

/-- A new block is one nobody has. -/
theorem grant_last (n : Nat) : Triple (1 : Assert σ) (Sep.grant n) fun a =>
    block a (List.replicate n .undef) := by
  rintro m h f hs rfl
  have hf : m.cells = f := Heap.splits_empty_left.1 hs
  refine ⟨_, _, blockHeap m.next (List.replicate n .undef), rfl, ?_, (block_holds _ _ _).2 ⟨rfl, rfl⟩⟩
  intro b
  simp only [Mem.alloc, blockHeap, List.length_replicate]
  by_cases hb : b.block = m.next
  · refine Or.inl ⟨?_, hf ▸ m.fresh b hb.ge⟩
    rw [if_pos hb, if_pos hb]
    by_cases hw : b.word = 0
    · rw [if_pos hw, if_pos hw]
    · rw [if_neg hw, if_neg hw, List.getElem?_replicate]
      by_cases hn : b.word ≤ n
      · rw [if_pos hn, if_pos (by omega)]
        rfl
      · rw [if_neg hn, if_neg (by omega)]
        rfl
  · exact Or.inr ⟨by rw [if_neg hb, hf], if_neg hb⟩

theorem grant {n : Nat} {k : Addr → Prog σ β}
    (hk : ∀ a, Triple (block a (List.replicate n .undef) * F) (k a) R) :
    Triple F (Sep.grant n >>= k) R :=
  (grant_last n).call hk

/-- **`malloc`** refuses, or gives a block nobody has. -/
theorem malloc_last (n : Nat) : Triple (1 : Assert σ) (Sep.malloc n) fun p =>
    (⨆ _ : p = none, 1) ⊔ ⨆ a : Addr, ⨆ _ : p = some a, block a (List.replicate n .undef) := by
  intro m h f hs hp
  unfold Sep.malloc
  split_ifs
  · obtain ⟨a, m', h', hrun, hs', hq⟩ := grant_last n m h f hs hp
    obtain ⟨rfl, rfl⟩ := Prod.mk.inj (Option.some.inj hrun)
    refine ⟨_, _, h', rfl, hs', Or.inr ?_⟩
    exact (Assertion.iSup_holds _ _).2 ⟨_, (Assertion.iSup_holds _ _).2 ⟨rfl, hq⟩⟩
  · obtain rfl := hp
    refine ⟨_, _, Heap.empty, rfl, hs, Or.inl ?_⟩
    exact (Assertion.iSup_holds _ _).2 ⟨rfl, rfl⟩

theorem malloc {n : Nat} {k : Ptr → Prog σ β} (hnone : Triple F (k none) R)
    (hsome : ∀ a, Triple (block a (List.replicate n .undef) * F) (k (some a)) R) :
    Triple F (Sep.malloc n >>= k) R := by
  refine (malloc_last n).call fun p => ?_
  rw [sup_mul_distrib, sup_iff]
  simp only [Assertion.iSup_mul, iSup_iff]
  constructor
  · rintro rfl
    simpa using hnone
  · rintro a rfl
    exact hsome a

/-- **`free`** of a whole block, which is gone. -/
theorem free_last (a : Addr) (vs : List (Val σ)) :
    Triple (block a vs) (Sep.free (some a)) fun _ => 1 := by
  intro m h f hs hp
  obtain ⟨ha, rfl⟩ := (block_holds a vs h).1 hp
  have hhead : m.cells ⟨a.block, 0⟩ = some (.head vs.length) := hs.left (by simp [blockHeap])
  refine ⟨(), m.release a.block vs.length, Heap.empty, ?_, Heap.splits_empty_left.2 ?_, rfl⟩
  · simp only [Sep.free]
    rw [hhead]
    exact if_pos ha
  · funext b
    by_cases hb : b.block = a.block ∧ b.word ≤ vs.length
    · simp only [Mem.release, if_pos hb]
      have hsome : ∃ c, blockHeap a.block vs b = some c := by
        simp only [blockHeap, if_pos hb.1]
        split_ifs
        · exact ⟨_, rfl⟩
        · rw [List.getElem?_eq_getElem (by omega)]
          exact ⟨_, rfl⟩
      obtain ⟨c, hc⟩ := hsome
      exact (hs.right_none hc).symm
    · simp only [Mem.release, if_neg hb]
      have hnone : blockHeap a.block vs b = none := by
        simp only [blockHeap]
        split_ifs with hblk hw
        · exact absurd ⟨hblk, by omega⟩ hb
        · rw [List.getElem?_eq_none (by omega)]
          rfl
        · rfl
      rcases hs b with ⟨he, hn⟩ | ⟨he, -⟩
      · rw [he, hnone, hn]
      · exact he

theorem free {a : Addr} (vs : List (Val σ)) [Frame P (block a vs) F] {k : Unit → Prog σ β}
    (hk : Triple F (k ()) R) : Triple P (Sep.free (some a) >>= k) R :=
  (free_last a vs).call fun _ => by simpa using hk

end Triple

/-! ## Servers

A program that is called again and again keeps an abstract state in its memory. If every call takes
a step of the abstract system, so do all of them, one after another. -/

section Servers

universe u

variable {S : Type u} {ι ρ : Type}

/-- The calls lead from a state to a state, with these answers. -/
inductive Served (step : S → ι → ρ → S → Prop) : S → List ι → List ρ → S → Prop
  | nil (s : S) : Served step s [] [] s
  | cons {s t u : S} {i : ι} {is : List ι} {r : ρ} {rs : List ρ} : step s i r t →
      Served step t is rs u → Served step s (i :: is) (r :: rs) u

/-- Every call meets a condition in the state it is made in, whatever the answers before. -/
def Admitted (step : S → ι → ρ → S → Prop) (ok : S → ι → Prop) : S → List ι → Prop
  | _, [] => True
  | s, i :: is => ok s i ∧ ∀ r t, step s i r t → Admitted step ok t is

variable {step : S → ι → ρ → S → Prop} {ok ok' : S → ι → Prop}

/-- **What the steps keep** can be used in the condition. `I k` is what holds when `k` calls are
left. -/
theorem Admitted.strengthen {I : Nat → S → Prop}
    (hok : ∀ k s i, I (k + 1) s → ok s i → ok' s i)
    (hstep : ∀ k s i r t, I (k + 1) s → ok s i → step s i r t → I k t) {s : S} {is : List ι}
    (h : Admitted step ok s is) (hs : I is.length s) : Admitted step ok' s is := by
  induction is generalizing s with
  | nil => trivial
  | cons i is ih =>
    obtain ⟨hi, hrest⟩ := h
    exact ⟨hok _ s i hs hi, fun r t ht => ih (hrest r t ht) (hstep _ s i r t hs hi ht)⟩

/-- What every admitted step keeps, the calls keep. -/
theorem Served.invariant {I : Nat → S → Prop}
    (hstep : ∀ k s i r t, I (k + 1) s → ok s i → step s i r t → I k t) {s t : S} {is : List ι}
    {rs : List ρ} (h : Served step s is rs t) (hok : Admitted step ok s is) (hs : I is.length s) :
    I 0 t := by
  induction h with
  | nil => exact hs
  | cons hi _ ih => exact ih (hok.2 _ _ hi) (hstep _ _ _ _ _ hs hok.1 hi)

/-- The calls one after another. -/
def serveAll (call : ι → Prog σ ρ) : List ι → Prog σ (List ρ)
  | [] => return []
  | i :: is => do
    let r ← call i
    let rs ← serveAll call is
    return r :: rs

/-- What all calls leave beside the state. -/
def leftOver (left : ι → ρ → Assert σ) : List ι → List ρ → Assert σ
  | i :: is, r :: rs => left i r * leftOver left is rs
  | _, _ => 1

/-- **Calls that refine steps refine runs.** `own` is where the state is, `need` what a call is
given, `left` what it leaves. -/
theorem Triple.serveAll {own : S → Assert σ} {need : ι → Assert σ} {left : ι → ρ → Assert σ}
    {call : ι → Prog σ ρ}
    (hcall : ∀ s i, ok s i → Triple (own s * need i) (call i) fun r =>
      ⨆ t, ⨆ _ : step s i r t, own t * left i r) (is : List ι) : ∀ s, Admitted step ok s is →
    Triple (own s * (is.map need).prod) (serveAll call is) fun rs =>
      ⨆ t, ⨆ _ : Served step s is rs t, own t * leftOver left is rs := by
  induction is with
  | nil =>
    intro s _
    exact .ret (le_iSup_of_le s (le_iSup_of_le (.nil s) le_rfl))
  | cons i is ih =>
    rintro s ⟨hi, hrest⟩
    rw [List.map_cons, List.prod_cons, ← mul_assoc, Sep.serveAll]
    refine .call (hcall s i hi) fun r => ?_
    simp only [Assertion.iSup_mul, iSup_iff]
    intro t ht
    refine Triple.pre (.call (ih t (hrest r t ht)) fun rs => ?_) (le_of_eq (mul_right_comm _ _ _))
    simp only [Assertion.iSup_mul, iSup_iff]
    intro u hu
    refine .ret (le_iSup_of_le u (le_iSup_of_le (.cons ht hu) (le_of_eq ?_)))
    rw [leftOver, mul_assoc, mul_comm (leftOver left is rs)]

end Servers

end Sep
