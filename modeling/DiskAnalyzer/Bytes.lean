import Mathlib.Data.List.TakeWhile
import Mathlib.Order.Basic
import Mathlib.Order.Lattice

/-!
# Bytes, C strings and path components

A C string is the list of its bytes before the terminating `NUL`. This file has the `string.h`
functions the sources use on paths, all of them with the accept or reject set `"/"`, and the
reading of a path as its list of non-empty components, which no source function computes: it is
what the tries built from paths are about.
-/

namespace DiskAnalyzer

abbrev Bytes := List UInt8

/-- The bytes of an ASCII literal. -/
def str (s : String) : Bytes := s.toList.map fun c => c.toNat.toUInt8

/-- What a `char` buffer holds as a string: its bytes before the first `NUL`. -/
def cstr (buf : Bytes) : Bytes := buf.takeWhile (· != 0)

/-- Writing to a file opened without truncation: bytes beyond what is written stay. -/
def overwrite (old new : Bytes) : Bytes := new ++ old.drop new.length

theorem cstr_eq_self {s : Bytes} (h : 0 ∉ s) : cstr s = s :=
  List.takeWhile_eq_self_iff.2 fun b hb => by simpa using fun h0 : b = 0 => h (h0 ▸ hb)

/-- A byte as a plain `char`, which is signed on the target. -/
def schar (b : UInt8) : Int := if b.toNat < 128 then b.toNat else b.toNat - 256

/-- `'/'`. -/
def slash : UInt8 := 47

/-- `strncmp(a, b, n) == 0`. -/
def strncmpEq : Bytes → Bytes → Nat → Bool
  | _, _, 0 => true
  | [], [], _ + 1 => true
  | x :: a, y :: b, n + 1 => x == y && strncmpEq a b n
  | _, _, _ + 1 => false

/-! ## Components -/

/-- `p + strspn(p, "/")`. -/
def skipSlashes (p : Bytes) : Bytes := p.dropWhile (· == slash)

/-- The first `strcspn(p, "/")` bytes of `p`. -/
def component (p : Bytes) : Bytes := p.takeWhile (· != slash)

/-- `p + strcspn(p, "/")`. -/
def afterComponent (p : Bytes) : Bytes := p.dropWhile (· != slash)

theorem length_skipSlashes_le (p : Bytes) : (skipSlashes p).length ≤ p.length :=
  (List.dropWhile_sublist _).length_le

theorem head_skipSlashes {p q : Bytes} {b : UInt8} (h : skipSlashes p = b :: q) : b ≠ slash := by
  have hb := List.head?_dropWhile_not (· == slash) p
  rw [show p.dropWhile (· == slash) = b :: q from h] at hb
  simpa using hb

/-- The cursor moves: what follows the first component is shorter than the path. -/
theorem length_afterComponent_lt {p : Bytes} (h : skipSlashes p ≠ []) :
    (afterComponent (skipSlashes p)).length < p.length := by
  obtain ⟨b, q, hq⟩ := List.exists_cons_of_ne_nil h
  have hb := head_skipSlashes hq
  have hle := length_skipSlashes_le p
  have hsub : (afterComponent q).length ≤ q.length := (List.dropWhile_sublist _).length_le
  rw [hq] at hle ⊢
  have hstep : afterComponent (b :: q) = afterComponent q := by
    simp [afterComponent, hb]
  rw [hstep]
  simp only [List.length_cons] at hle
  omega

/-- The non-empty components of a path. -/
def components (p : Bytes) : List Bytes :=
  if h : skipSlashes p = [] then []
  else
    have := length_afterComponent_lt h
    component (skipSlashes p) :: components (afterComponent (skipSlashes p))
termination_by p.length

theorem components_of_nil {p : Bytes} (h : skipSlashes p = []) : components p = [] := by
  rw [components, dif_pos h]

theorem components_of_ne {p : Bytes} (h : skipSlashes p ≠ []) :
    components p = component (skipSlashes p) :: components (afterComponent (skipSlashes p)) := by
  rw [components, dif_neg h]

/-- A name that can be a component: not empty, no slash. -/
def GoodName (n : Bytes) : Prop := n ≠ [] ∧ slash ∉ n

instance (n : Bytes) : Decidable (GoodName n) := by unfold GoodName; infer_instance

theorem slash_notMem_component (p : Bytes) : slash ∉ component p := by
  intro h
  have := List.mem_takeWhile_imp h
  simp at this

theorem goodName_component {p : Bytes} (h : skipSlashes p ≠ []) :
    GoodName (component (skipSlashes p)) := by
  refine ⟨?_, slash_notMem_component _⟩
  obtain ⟨b, q, hq⟩ := List.exists_cons_of_ne_nil h
  have hb := head_skipSlashes hq
  simp [hq, component, hb]

theorem goodName_of_mem_components {p n : Bytes} (h : n ∈ components p) : GoodName n := by
  induction p using components.induct with
  | case1 p hp => simp [components_of_nil hp] at h
  | case2 p hp _ ih =>
    rw [components_of_ne hp, List.mem_cons] at h
    rcases h with rfl | h
    · exact goodName_component hp
    · exact ih h

/-- A component list all of whose names can be components. -/
def GoodNames (cs : List Bytes) : Prop := ∀ c ∈ cs, GoodName c

theorem goodNames_components (p : Bytes) : GoodNames (components p) :=
  fun _ h => goodName_of_mem_components h

/-- A slash-free name is its own component. -/
theorem component_self {n : Bytes} (h : slash ∉ n) : component n = n :=
  List.takeWhile_eq_self_iff.2 fun b hb => by simpa using fun h0 : b = slash => h (h0 ▸ hb)

theorem skipSlashes_self {n : Bytes} (h : GoodName n) : skipSlashes n = n := by
  cases n with
  | nil => rfl
  | cons b n =>
    have hb : b ≠ slash := fun hb => h.2 (by simp [hb])
    simp [skipSlashes, hb]

theorem afterComponent_self {n : Bytes} (h : slash ∉ n) : afterComponent n = [] :=
  List.dropWhile_eq_nil_iff.2 fun b hb => by simpa using fun h0 : b = slash => h (h0 ▸ hb)

@[simp] theorem components_nil : components [] = [] := components_of_nil rfl

/-- What comes after a component starts with a slash or is empty. -/
theorem afterComponent_head {p q : Bytes} {b : UInt8} (h : afterComponent p = b :: q) :
    b = slash := by
  have hb := List.head?_dropWhile_not (· != slash) p
  rw [show p.dropWhile (· != slash) = b :: q from h] at hb
  simpa using hb

theorem component_append_after (p : Bytes) : component p ++ afterComponent p = p :=
  List.takeWhile_append_dropWhile

/-! ## Comparing a stored name with the front of a path -/

theorem strncmpEq_self_append (n a b : Bytes) :
    strncmpEq (n ++ a) (n ++ b) n.length = true := by
  induction n with
  | nil => simp [strncmpEq]
  | cons x n ih => simpa [strncmpEq] using ih

/-- **`list_find`'s comparison.** Comparing up to the longer of the stored name and the path's
first component succeeds exactly when the two are the same, although the path goes on. -/
theorem strncmpEq_component {n : Bytes} (hn : GoodName n) (p : Bytes) :
    strncmpEq n p (max n.length (component p).length) = true ↔ n = component p := by
  constructor
  · intro h
    obtain ⟨hne, hslash⟩ := hn
    clear hne
    -- On the stored name, the path moving along with it.
    induction n generalizing p with
    | nil =>
      cases p with
      | nil => rfl
      | cons y p =>
        by_cases hy : y = slash
        · simp [component, hy]
        · simp [component, hy, strncmpEq] at h
    | cons x n ih =>
      have hx : x ≠ slash := fun hx => hslash (by simp [hx])
      cases p with
      | nil => simp [component, strncmpEq] at h
      | cons y p =>
        by_cases hy : y = slash
        · subst hy
          simp [component, strncmpEq, hx] at h
        · have hc : component (y :: p) = y :: component p := by simp [component, hy]
          rw [hc] at h ⊢
          rw [List.length_cons, List.length_cons, Nat.add_max_add_right, strncmpEq,
            Bool.and_eq_true, beq_iff_eq] at h
          rw [h.1, ← ih p h.2 fun hm => hslash (List.mem_cons_of_mem _ hm)]
  · intro h
    have hp := component_append_after p
    rw [← h] at hp
    rw [← h, max_self, ← hp]
    simpa using strncmpEq_self_append n [] (afterComponent p)

end DiskAnalyzer
