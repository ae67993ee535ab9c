import Mathlib.Data.Nat.Digits.Lemmas
import Mathlib.Data.Int.Order.Basic

/-!
# Decimal text: `printf`, `snprintf` and `atoi`

The integer conversions of C's `printf` with a precision or a zero-padded width, the truncation
of `snprintf`, and `atoi` as `strtol` cut to 32 bits.

* `length_digits`: a field of width `p` has `p` digits exactly when the number fits.
* `atoi_printPrec`, `atoi_printWidth`: printing then reading gives the number back.
* `atoi_lt_of_isDigit`: what `k` digits can say is below `10 ^ k`.
-/

namespace Decimal

/-! ## 32-bit integers -/

/-- The value of a mathematical integer in a two's complement `int`. -/
def wrap32 (x : Int) : Int := x.bmod (2 ^ 32)

/-- The values of an `int`. -/
def FitsInt (x : Int) : Prop := -2 ^ 31 ≤ x ∧ x < 2 ^ 31

instance (x : Int) : Decidable (FitsInt x) := by unfold FitsInt; infer_instance

theorem wrap32_of_fitsInt {x : Int} (h : FitsInt x) : wrap32 x = x := by
  obtain ⟨hl, hu⟩ := h
  exact Int.bmod_eq_of_le (by omega) (by omega)

theorem fitsInt_wrap32 (x : Int) : FitsInt (wrap32 x) := by
  have hlow := Int.le_bmod (x := x) (m := 2 ^ 32) (by norm_num)
  have hhigh := Int.bmod_lt (x := x) (m := 2 ^ 32) (by norm_num)
  unfold FitsInt wrap32
  omega

theorem dvd_wrap32_sub (x : Int) : (2 : Int) ^ 32 ∣ wrap32 x - x :=
  Int.dvd_bmod_sub_self (m := 2 ^ 32)

theorem wrap32_eq_of_dvd {x y : Int} (hy : FitsInt y) (h : (2 : Int) ^ 32 ∣ x - y) :
    wrap32 x = y := by
  have hx := dvd_wrap32_sub x
  obtain ⟨hlow, hhigh⟩ := fitsInt_wrap32 x
  obtain ⟨hlow', hhigh'⟩ := hy
  omega

/-! ## Printing -/

def digitByte (d : Nat) : UInt8 := (48 + d).toUInt8

def isDigit (b : UInt8) : Bool := 48 ≤ b && b ≤ 57

/-- The digits of `n`, with zeros in front up to `p` of them. -/
def digits (p n : Nat) : List UInt8 :=
  (Nat.digits 10 n ++ List.replicate (p - (Nat.digits 10 n).length) 0).reverse.map digitByte

/-- `%.pd`; `%d` is the case `p = 1`. -/
def printPrec (p : Nat) (n : Int) : List UInt8 :=
  if n < 0 then 45 :: digits p n.natAbs else digits p n.natAbs

/-- `%0wd`: the width counts the sign. -/
def printWidth (w : Nat) (n : Int) : List UInt8 :=
  if n < 0 then 45 :: digits (max 1 (w - 1)) n.natAbs else digits (max 1 w) n.natAbs

/-- The bytes `snprintf` leaves before its `NUL` in a buffer of `sz` bytes. -/
def snprintf (sz : Nat) (s : List UInt8) : List UInt8 := s.take (sz - 1)

/-! ## Reading -/

/-- The value of the longest prefix of digits, after `acc`. -/
def scan (acc : Nat) : List UInt8 → Nat
  | [] => acc
  | b :: s => if isDigit b then scan (acc * 10 + (b.toNat - 48)) s else acc

def isSpace (b : UInt8) : Bool := b == 32 || 9 ≤ b && b ≤ 13

/-- `strtol(s, NULL, 10)` behind the white space, saturating at the ends of `long`. -/
def strtolSigned : List UInt8 → Int
  | 45 :: s => max (-2 ^ 63) (-scan 0 s)
  | 43 :: s => min (2 ^ 63 - 1) (scan 0 s)
  | s => min (2 ^ 63 - 1) (scan 0 s)

def strtol (s : List UInt8) : Int := strtolSigned (s.dropWhile isSpace)

/-- `atoi`: the `long` cut to an `int`. -/
def atoi (s : List UInt8) : Int := wrap32 (strtol s)

/-! ## Digits -/

theorem isDigit_digitByte {d : Nat} (h : d < 10) : isDigit (digitByte d) = true := by
  revert d
  decide

theorem toNat_digitByte {d : Nat} (h : d < 10) : (digitByte d).toNat - 48 = d := by
  revert d
  decide

theorem digits_lt_ten {p n d : Nat}
    (h : d ∈ (Nat.digits 10 n ++ List.replicate (p - (Nat.digits 10 n).length) 0).reverse) :
    d < 10 := by
  rw [List.mem_reverse, List.mem_append] at h
  cases h with
  | inl h => exact Nat.digits_lt_base (by decide) h
  | inr h =>
    rw [List.eq_of_mem_replicate h]
    decide

theorem isDigit_of_mem_digits {p n : Nat} {b : UInt8} (h : b ∈ digits p n) : isDigit b = true := by
  obtain ⟨d, hd, rfl⟩ := List.mem_map.1 h
  exact isDigit_digitByte (digits_lt_ten hd)

theorem length_digits (p n : Nat) : (digits p n).length = max p (Nat.digits 10 n).length := by
  simp only [digits, List.length_map, List.length_reverse, List.length_append,
    List.length_replicate]
  omega

/-- A field of width `p` holds every number of at most `p` digits. -/
theorem length_digits_of_lt {p n : Nat} (h : n < 10 ^ p) : (digits p n).length = p := by
  rw [length_digits]
  have := (Nat.digits_length_le_iff (by decide) n).2 h
  omega

/-- An `int` takes at most eleven characters in a field of ten. -/
theorem length_printWidth_le {n : Int} (h : FitsInt n) : (printWidth 10 n).length ≤ 11 := by
  obtain ⟨hl, hu⟩ := h
  have hdigits := (Nat.digits_length_le_iff (b := 10) (k := 10) (by decide) n.natAbs).2 (by omega)
  rw [printWidth]
  split_ifs
  · rw [List.length_cons, length_digits]
    omega
  · rw [length_digits]
    omega

theorem isDigit_or_minus {w : Nat} {n : Int} {b : UInt8} (hb : b ∈ printWidth w n) :
    isDigit b = true ∨ b = 45 := by
  rw [printWidth] at hb
  split_ifs at hb
  · rcases List.mem_cons.1 hb with rfl | hb
    · exact Or.inr rfl
    · exact Or.inl (isDigit_of_mem_digits hb)
  · exact Or.inl (isDigit_of_mem_digits hb)

/-! ## Scanning -/

theorem scan_map_digitByte (acc : Nat) (l : List Nat) (h : ∀ d ∈ l, d < 10) :
    scan acc (l.map digitByte) = acc * 10 ^ l.length + Nat.ofDigits 10 l.reverse := by
  induction l generalizing acc with
  | nil => simp [scan]
  | cons d l ih =>
    have hd := h d List.mem_cons_self
    rw [List.map_cons, scan, if_pos (isDigit_digitByte hd), toNat_digitByte hd,
      ih _ fun x hx => h x (List.mem_cons_of_mem _ hx), List.reverse_cons, Nat.ofDigits_append,
      Nat.ofDigits_singleton, List.length_reverse, List.length_cons]
    ring

theorem scan_digits (p n : Nat) : scan 0 (digits p n) = n := by
  rw [digits, scan_map_digitByte _ _ fun d hd => digits_lt_ten hd, List.reverse_reverse,
    Nat.ofDigits_append_replicate_zero, Nat.ofDigits_digits]
  simp

theorem scan_lt (acc : Nat) (s : List UInt8) : scan acc s < (acc + 1) * 10 ^ s.length := by
  induction s generalizing acc with
  | nil => simp [scan]
  | cons b s ih =>
    rw [scan]
    split_ifs with hb
    · have hb' : b.toNat - 48 ≤ 9 := by
        simp only [isDigit, Bool.and_eq_true, decide_eq_true_eq, UInt8.le_iff_toNat_le] at hb
        have : (57 : UInt8).toNat = 57 := rfl
        omega
      calc scan (acc * 10 + (b.toNat - 48)) s
          < (acc * 10 + (b.toNat - 48) + 1) * 10 ^ s.length := ih _
        _ ≤ ((acc + 1) * 10) * 10 ^ s.length := Nat.mul_le_mul_right _ (by omega)
        _ = (acc + 1) * 10 ^ (b :: s).length := by rw [List.length_cons]; ring
    · calc acc < acc + 1 := Nat.lt_succ_self acc
        _ ≤ (acc + 1) * 10 ^ (b :: s).length := Nat.le_mul_of_pos_right _ (by positivity)

theorem zero_notMem_digits (p n : Nat) : 0 ∉ digits p n := fun h =>
  absurd (isDigit_of_mem_digits h) (by decide)

theorem zero_notMem_printPrec (p : Nat) (n : Int) : 0 ∉ printPrec p n := by
  rw [printPrec]
  split_ifs
  · rw [List.mem_cons, not_or]
    exact ⟨by decide, zero_notMem_digits _ _⟩
  · exact zero_notMem_digits _ _

theorem zero_notMem_printWidth (w : Nat) (n : Int) : 0 ∉ printWidth w n := by
  rw [printWidth]
  split_ifs
  · exact List.not_mem_cons_of_ne_of_not_mem (by decide) (zero_notMem_digits _ _)
  · exact zero_notMem_digits _ _

/-! ## `atoi` -/

theorem not_isSpace_of_isDigit {b : UInt8} (h : isDigit b = true) : isSpace b = false := by
  simp only [isDigit, isSpace, Bool.and_eq_true, decide_eq_true_eq, Bool.or_eq_false_iff,
    Bool.and_eq_false_imp, beq_eq_false_iff_ne, UInt8.le_iff_toNat_le, decide_eq_false_iff_not,
    ne_eq, ← UInt8.toNat_inj] at *
  have : (48 : UInt8).toNat = 48 := rfl
  have : (32 : UInt8).toNat = 32 := rfl
  have : (13 : UInt8).toNat = 13 := rfl
  omega

theorem strtolSigned_of_isDigit {s : List UInt8} (h : ∀ b ∈ s, isDigit b = true) :
    strtolSigned s = min (2 ^ 63 - 1) (scan 0 s : Int) := by
  unfold strtolSigned
  split
  · exact absurd (h 45 List.mem_cons_self) (by decide)
  · exact absurd (h 43 List.mem_cons_self) (by decide)
  · rfl

/-- A field of digits reads as their value. -/
theorem strtol_of_isDigit {s : List UInt8} (h : ∀ b ∈ s, isDigit b = true) :
    strtol s = min (2 ^ 63 - 1) (scan 0 s : Int) := by
  have hdrop : s.dropWhile isSpace = s := by
    cases s with
    | nil => rfl
    | cons b s =>
      rw [List.dropWhile_cons_of_neg]
      rw [not_isSpace_of_isDigit (h b List.mem_cons_self)]
      decide
  rw [strtol, hdrop, strtolSigned_of_isDigit h]

theorem atoi_digits {n : Nat} (h : n < 2 ^ 31) (p : Nat) : atoi (digits p n) = n := by
  rw [atoi, strtol_of_isDigit fun b hb => isDigit_of_mem_digits hb, scan_digits,
    min_eq_right (by omega)]
  exact wrap32_of_fitsInt ⟨by omega, by omega⟩

/-- A minus sign and digits. -/
theorem atoi_neg_digits {n : Nat} (h : n ≤ 2 ^ 31) (p : Nat) : atoi (45 :: digits p n) = -n := by
  have hstr : strtol (45 :: digits p n) = max (-2 ^ 63) (-(n : Int)) := by
    rw [strtol, List.dropWhile_cons_of_neg (by decide), strtolSigned, scan_digits]
  rw [atoi, hstr, max_eq_right (by omega)]
  exact wrap32_of_fitsInt ⟨by omega, by omega⟩

/-- **Reading what a precision printed.** -/
theorem atoi_printPrec {n : Int} (h : FitsInt n) (p : Nat) : atoi (printPrec p n) = n := by
  obtain ⟨hl, hu⟩ := h
  rw [printPrec]
  split_ifs with hn
  · rw [atoi_neg_digits (by omega)]
    omega
  · rw [atoi_digits (by omega)]
    omega

/-- **Reading what a zero-padded width printed.** -/
theorem atoi_printWidth {n : Int} (h : FitsInt n) (w : Nat) : atoi (printWidth w n) = n := by
  obtain ⟨hl, hu⟩ := h
  rw [printWidth]
  split_ifs with hn
  · rw [atoi_neg_digits (by omega)]
    omega
  · rw [atoi_digits (by omega)]
    omega

theorem natAbs_strtolSigned_lt (s : List UInt8) : (strtolSigned s).natAbs < 10 ^ s.length := by
  unfold strtolSigned
  split
  · rename_i s
    have hlt := scan_lt 0 s
    rw [List.length_cons, pow_succ]
    omega
  · rename_i s
    have hlt := scan_lt 0 s
    rw [List.length_cons, pow_succ]
    omega
  · have hlt := scan_lt 0 s
    omega

/-- What `k` characters of any kind can say. -/
theorem natAbs_atoi_lt {s : List UInt8} (hs : s.length ≤ 9) : (atoi s).natAbs < 10 ^ s.length := by
  have hdrop : (s.dropWhile isSpace).length ≤ s.length := (List.dropWhile_sublist _).length_le
  have hlt : (strtol s).natAbs < 10 ^ s.length :=
    lt_of_lt_of_le (natAbs_strtolSigned_lt _) (Nat.pow_le_pow_right (by decide) hdrop)
  have hpow : 10 ^ s.length ≤ 10 ^ 9 := Nat.pow_le_pow_right (by decide) hs
  rwa [atoi, wrap32_of_fitsInt ⟨by omega, by omega⟩]

/-- What `k` digits can say is below `10 ^ k`. -/
theorem atoi_lt_of_isDigit {s : List UInt8} (h : ∀ b ∈ s, isDigit b = true) (hs : s.length ≤ 9) :
    0 ≤ atoi s ∧ atoi s < 10 ^ s.length := by
  have hlt := scan_lt 0 s
  have hpow : 10 ^ s.length ≤ 10 ^ 9 := Nat.pow_le_pow_right (by decide) hs
  rw [atoi, strtol_of_isDigit h, min_eq_right (by omega), wrap32_of_fitsInt ⟨by omega, by omega⟩]
  constructor
  · omega
  · exact_mod_cast (by omega : scan 0 s < 10 ^ s.length)

end Decimal
