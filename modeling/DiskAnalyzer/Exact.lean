import DiskAnalyzer.Sizes
import Mathlib.Algebra.Order.BigOperators.Group.List
import Mathlib.Algebra.Order.Field.Rat
import Mathlib.Algebra.Order.Field.Basic

/-!
# Exact sizes

`struct state` holds a size in an `int`, and `st_size` is an `off_t`. The report divides a
directory's size by the analysed one's and uses half of the percentage as an index into a buffer of
51 bytes. As long as the analysed directory's sum is an `int` all sizes are exact, a directory's is
no larger than that of one it is in, and the index is in the buffer; only a sum of 0 still divides
by 0. From `2 ^ 31` on nothing of this is left for the analysed directory.
-/

namespace DiskAnalyzer

open DiskAnalyzer.Tree Decimal

/-! ## The line of a directory -/

/-- `perc` of `tree_write`, computed exactly: `none` is a division by 0. -/
def perc (sz total : Int) : Option ℚ :=
  if total = 0 then none else some (1 * (sz : ℚ) / total * 100)

/-- `percint`, the index into `percbuf`. The conversion to `int` drops the fraction. -/
def percint (sz total : Int) : Option Int :=
  (perc sz total).map fun perc => (perc / 2).num.tdiv (perc / 2).den

theorem perc_eq {sz total : Int} (ht : total ≠ 0) :
    perc sz total = some (1 * (sz : ℚ) / total * 100) := if_neg ht

/-- **A part of a positive total** is between 0 and 100 percent of it. -/
theorem perc_bounds {sz total : Int} (h0 : 0 ≤ sz) (hle : sz ≤ total) (ht : 0 < total) :
    ∃ x, perc sz total = some x ∧ 0 ≤ x ∧ x ≤ 100 := by
  have hsz : (0 : ℚ) ≤ sz := by exact_mod_cast h0
  have htotal : (0 : ℚ) < total := by exact_mod_cast ht
  have hshare : (1 * sz / total : ℚ) ≤ 1 := by
    rw [one_mul, div_le_one htotal]
    exact_mod_cast hle
  have hlow : (0 : ℚ) ≤ 1 * sz / total := by
    rw [one_mul]
    exact div_nonneg hsz htotal.le
  refine ⟨_, perc_eq ht.ne', mul_nonneg hlow (by norm_num), ?_⟩
  linarith

/-- **The index of a percentage** is in the buffer. -/
theorem percint_bounds {sz total : Int} {x : ℚ} (hx : perc sz total = some x) (h0 : 0 ≤ x)
    (h100 : x ≤ 100) : ∃ k, percint sz total = some k ∧ 0 ≤ k ∧ k ≤ 50 := by
  have hhalf : 0 ≤ x / 2 := by linarith
  have hnum : 0 ≤ (x / 2).num := Rat.num_nonneg.2 hhalf
  have hden : (0 : Int) < (x / 2).den := by exact_mod_cast (x / 2).den_pos
  have hle : (x / 2).num ≤ 50 * (x / 2).den := by
    have hdiv : x / 2 ≤ 50 := by linarith
    rw [← Rat.num_div_den (x / 2), div_le_iff₀ (by exact_mod_cast (x / 2).den_pos)] at hdiv
    exact_mod_cast hdiv
  refine ⟨_, by rw [percint, hx, Option.map_some], ?_, ?_⟩
  · exact Int.tdiv_nonneg hnum hden.le
  · rw [Int.tdiv_eq_ediv_of_nonneg hnum]
    exact Int.ediv_le_of_le_mul hden hle

/-! ## Sums -/

namespace Entries

/-- The values of `st_size` are not negative. -/
def NonNeg (entries : Entries) : Prop := ∀ e ∈ entries.leaves, 0 ≤ e.2

instance (entries : Entries) : Decidable entries.NonNeg :=
  inferInstanceAs (Decidable (∀ e ∈ entries.leaves, 0 ≤ e.2))

/-- What is below a directory below is below. -/
theorem leaves_sublist {entries : Entries} {d : List Bytes × Entries} (hd : d ∈ entries.subdirs) :
    d.2.leaves.Sublist entries.leaves := by
  induction entries generalizing d with
  | nil => exact absurd hd List.not_mem_nil
  | leaf info name size next ih => exact (ih hd).cons _
  | dir name size entries next ih ih' =>
    rcases List.mem_append.1 hd with hd | hd
    · refine List.Sublist.trans ?_ (List.sublist_append_left _ _)
      rcases List.mem_cons.1 hd with rfl | hd
      · exact List.Sublist.refl _
      · obtain ⟨d', hd', rfl⟩ := List.mem_map.1 hd
        exact ih (d := d') hd'
    · exact (ih' hd).trans (List.sublist_append_right _ _)

theorem NonNeg.below {entries : Entries} (h : entries.NonNeg) {d : List Bytes × Entries}
    (hd : d ∈ ([], entries) :: entries.subdirs) : d.2.NonNeg := by
  rcases List.mem_cons.1 hd with rfl | hd
  · exact h
  · exact fun e he => h e ((leaves_sublist hd).subset he)

theorem NonNeg.sum_nonneg {entries : Entries} (h : entries.NonNeg) : 0 ≤ entries.sum := by
  refine List.sum_nonneg ?_
  intro z hz
  obtain ⟨e, he, rfl⟩ := List.mem_map.1 hz
  exact h e he

/-- **No directory's sum is larger than that of the one it is below.** -/
theorem NonNeg.sum_le {entries : Entries} (h : entries.NonNeg) {d : List Bytes × Entries}
    (hd : d ∈ ([], entries) :: entries.subdirs) : d.2.sum ≤ entries.sum := by
  rcases List.mem_cons.1 hd with rfl | hd
  · exact le_refl _
  · refine ((leaves_sublist hd).map Prod.snd).sum_le_sum ?_
    intro z hz
    obtain ⟨e, he, rfl⟩ := List.mem_map.1 hz
    exact h e he

theorem ne_nil_of_mem_subdirs {entries : Entries} {d : List Bytes × Entries}
    (hd : d ∈ entries.subdirs) : ∃ n ∈ entries.names, ∃ q, d.1 = n :: q := by
  apply head_of_mem_dirPaths
  rw [← map_fst_subdirs]
  exact List.mem_map_of_mem hd

/-- The directories in a subdirectory have its name in front. -/
theorem mem_subdirs_dir {name : Bytes} {size : Int} {entries next : Entries}
    {d : List Bytes × Entries} (hd : d ∈ (dir name size entries next).subdirs) :
    (∃ c ∈ ([], entries) :: entries.subdirs, d = (name :: c.1, c.2)) ∨ d ∈ next.subdirs := by
  rcases List.mem_append.1 hd with hd | hd
  · rcases List.mem_cons.1 hd with rfl | hd
    · exact Or.inl ⟨([], entries), List.mem_cons_self, rfl⟩
    · obtain ⟨c, hc, rfl⟩ := List.mem_map.1 hd
      exact Or.inl ⟨c, List.mem_cons_of_mem _ hc, rfl⟩
  · exact Or.inr hd

section Append

variable {entries : Entries} {d d' : List Bytes × Entries} {q : List Bytes}

/-- The directory itself is above all, and below none. -/
theorem below_of_cons (hd : d ∈ ([], entries) :: entries.subdirs)
    (hd' : d' ∈ ([], entries) :: entries.subdirs) (hq : d'.1 = d.1 ++ q)
    (hsub : d ∈ entries.subdirs → d' ∈ entries.subdirs → (q, d'.2) ∈ ([], d.2) :: d.2.subdirs) :
    (q, d'.2) ∈ ([], d.2) :: d.2.subdirs := by
  rcases List.mem_cons.1 hd with rfl | hd
  · obtain rfl : d'.1 = q := hq
    exact hd'
  rcases List.mem_cons.1 hd' with rfl | hd'
  · obtain ⟨n, -, r, hn⟩ := ne_nil_of_mem_subdirs hd
    rw [hn] at hq
    exact absurd hq.symm (List.cons_ne_nil n (r ++ q))
  · exact hsub hd hd'

/-- **The names tell what is below what.** -/
theorem below_of_append (hnames : entries.names.Nodup) (hr : entries.Readable)
    (hd : d ∈ ([], entries) :: entries.subdirs) (hd' : d' ∈ ([], entries) :: entries.subdirs)
    (hq : d'.1 = d.1 ++ q) : (q, d'.2) ∈ ([], d.2) :: d.2.subdirs := by
  induction entries generalizing d d' with
  | nil => exact below_of_cons hd hd' hq fun hd _ => absurd hd List.not_mem_nil
  | leaf info name size next ih =>
    refine below_of_cons hd hd' hq ?_
    intro hd hd'
    exact ih hnames hr.2 (List.mem_cons_of_mem _ hd) (List.mem_cons_of_mem _ hd') hq
  | dir name size entries next ih ih' =>
    obtain ⟨-, ⟨hsub, hentries⟩, hnext⟩ := hr
    obtain ⟨hother, hnames⟩ := List.nodup_cons.1 hnames
    refine below_of_cons hd hd' hq ?_
    intro hd hd'
    rcases mem_subdirs_dir hd with ⟨c, hc, rfl⟩ | hd
    · rcases mem_subdirs_dir hd' with ⟨c', hc', rfl⟩ | hd'
      · have hbelow : (q, c'.2) ∈ ([], c.2) :: c.2.subdirs :=
          ih hsub hentries hc hc' (List.cons.inj hq).2
        exact hbelow
      · -- The name does not come again.
        obtain ⟨n, hn, r, hr⟩ := ne_nil_of_mem_subdirs hd'
        rw [hr] at hq
        exact absurd ((List.cons.inj hq).1 ▸ hn) hother
    · rcases mem_subdirs_dir hd' with ⟨c', hc', rfl⟩ | hd'
      · obtain ⟨n, hn, r, hr⟩ := ne_nil_of_mem_subdirs hd
        rw [hr] at hq
        exact absurd ((List.cons.inj hq).1.symm ▸ hn) hother
      · exact ih' hnames hnext (List.mem_cons_of_mem _ hd) (List.mem_cons_of_mem _ hd') hq

end Append

end Entries

/-! ## The sizes of a traversal -/

/-- The sizes at the nodes are the sums, they grow upwards, and each line of the report is a
percentage with its bar in the buffer. -/
structure ExactSizes (root : Entries) (node : Tree State) : Prop where
  sums : node.nodes.Perm ((([], root) :: root.subdirs).map fun d => (d.1, some ⟨d.2.sum, 1⟩))
  nonneg : ∀ d ∈ ([], root) :: root.subdirs, 0 ≤ d.2.sum
  le : ∀ p q st st', (p, some st) ∈ node.nodes → (p ++ q, some st') ∈ node.nodes →
    st'.size ≤ st.size
  line : ∀ p st, (p, some st) ∈ node.nodes → p ≠ [] →
    (∃ x, perc st.size node.stateSize = some x ∧ 0 ≤ x ∧ x ≤ 100) ∧
      ∃ k, percint st.size node.stateSize = some k ∧ 0 ≤ k ∧ k ≤ 50

section Sizes

variable {root : Entries} {man man' : ForksManager} {node : Tree State}

/-- **While the sum is an `int`** and there is nothing to divide by 0, the sizes are exact. -/
theorem exact_of_lt (hroot : root.FileTree) (hpos : root.NonNeg)
    (hm : Surveyed root man man' node) (hlt : root.sum < 2 ^ 31)
    (hzero : root.subdirs = [] ∨ 0 < root.sum) : ExactSizes root node := by
  have hfits : ∀ d ∈ ([], root) :: root.subdirs, finished d = (d.1, some ⟨d.2.sum, 1⟩) := by
    intro d hd
    have hlow := (hpos.below hd).sum_nonneg
    have hhigh := hpos.sum_le hd
    rw [finished, wrap32_of_fitsInt ⟨by omega, by omega⟩]
  have hsums : node.nodes.Perm
      ((([], root) :: root.subdirs).map fun d => (d.1, some ⟨d.2.sum, 1⟩)) :=
    hm.nodes.trans (List.Perm.of_eq (List.map_congr_left hfits))
  have hnode : ∀ p st, (p, some st) ∈ node.nodes →
      ∃ d ∈ ([], root) :: root.subdirs, d.1 = p ∧ st = ⟨d.2.sum, 1⟩ := by
    intro p st hst
    obtain ⟨d, hd, heq⟩ := List.mem_map.1 (hsums.mem_iff.1 hst)
    obtain ⟨hp, hs⟩ := Prod.mk.inj heq
    exact ⟨d, hd, hp, (Option.some.inj hs).symm⟩
  have htotal : node.stateSize = root.sum := by
    have hlow := hpos.sum_nonneg
    rw [stateSize, hm.info, Option.map_some, Option.getD_some,
      wrap32_of_fitsInt ⟨by omega, by omega⟩]
  refine ⟨hsums, fun d hd => (hpos.below hd).sum_nonneg, ?_, ?_⟩
  · intro p q st st' hst hst'
    obtain ⟨d, hd, rfl, rfl⟩ := hnode p st hst
    obtain ⟨d', hd', hq, rfl⟩ := hnode _ st' hst'
    have hle := (hpos.below hd).sum_le (Entries.below_of_append hroot.1 hroot.2 hd hd' hq)
    exact hle
  · intro p st hst hp
    obtain ⟨d, hd, rfl, rfl⟩ := hnode p st hst
    -- There is a directory below, so the total is not 0.
    have hsub : d ∈ root.subdirs := by
      rcases List.mem_cons.1 hd with rfl | hd
      · exact absurd rfl hp
      · exact hd
    have hdiv : 0 < root.sum := hzero.resolve_left (List.ne_nil_of_mem hsub)
    rw [htotal]
    obtain ⟨x, hx, hlow, hhigh⟩ := perc_bounds (hpos.below hd).sum_nonneg (hpos.sum_le hd) hdiv
    exact ⟨⟨x, hx, hlow, hhigh⟩, percint_bounds hx hlow hhigh⟩

/-- Exact sizes are `int`s, and a report of directories has something to divide by. -/
theorem lt_of_exact (hm : Surveyed root man man' node) (h : ExactSizes root node) :
    root.sum < 2 ^ 31 ∧ (root.subdirs = [] ∨ 0 < root.sum) := by
  have hnonneg : 0 ≤ root.sum := h.nonneg _ List.mem_cons_self
  have htop : (([] : List Bytes), some (⟨root.sum, 1⟩ : State)) ∈ node.nodes :=
    h.sums.mem_iff.2 (List.mem_map.2 ⟨([], root), List.mem_cons_self, rfl⟩)
  obtain ⟨d, hd, heq⟩ := List.mem_map.1 (hm.nodes.mem_iff.1 htop)
  obtain ⟨hnil, hs⟩ := Prod.mk.inj heq
  -- Only the analysed directory has no name.
  have hd' : d = ([], root) := by
    rcases List.mem_cons.1 hd with rfl | hd
    · rfl
    · obtain ⟨n, -, q, hn⟩ := Entries.ne_nil_of_mem_subdirs hd
      rw [hn] at hnil
      exact absurd hnil (List.cons_ne_nil n q)
  have hsum : wrap32 root.sum = root.sum := by
    rw [hd'] at hs
    exact congrArg State.size (Option.some.inj hs)
  have hfits := fitsInt_wrap32 root.sum
  rw [hsum] at hfits
  refine ⟨hfits.2, ?_⟩
  rcases List.eq_nil_or_concat root.subdirs with hnone | ⟨l, d', hl⟩
  · exact Or.inl hnone
  · have hmem : d' ∈ root.subdirs := by simp [hl]
    obtain ⟨n, -, q, hn⟩ := Entries.ne_nil_of_mem_subdirs hmem
    have hst : (d'.1, some (⟨d'.2.sum, 1⟩ : State)) ∈ node.nodes :=
      h.sums.mem_iff.2 (List.mem_map.2 ⟨d', List.mem_cons_of_mem _ hmem, rfl⟩)
    obtain ⟨⟨x, hx, -⟩, -⟩ := h.line _ _ hst (by simp [hn])
    have htotal : node.stateSize = root.sum := by
      rw [stateSize, hm.info, Option.map_some, Option.getD_some, hsum]
    rw [htotal] at hx
    have hne : root.sum ≠ 0 := by
      intro hzero
      rw [perc, if_pos hzero] at hx
      exact absurd hx (by simp)
    exact Or.inr (by omega)

end Sizes

/-- A directory with a file of a little more than 2 GiB, and a subdirectory with one of a little
less. -/
def largeDir : Entries :=
  .leaf .FTS_DOT (str ".") 40 <| .leaf .FTS_DOT (str "..") 40 <|
    .leaf .FTS_F (str "g") 2147483669 <|
      .dir (str "a") 40
        (.leaf .FTS_DOT (str ".") 40 <| .leaf .FTS_DOT (str "..") 40 <|
          .leaf .FTS_F (str "f") 2147483567 .nil) .nil

end DiskAnalyzer
