import Mathlib.Algebra.BigOperators.Intervals
import Mathlib.Tactic.Ring
import Mathlib.Algebra.Order.Ring.Int
import Mathlib.Algebra.Order.Ring.Abs

/-! # Signed arithmetic in fixed widths

Products and slices of signed numbers, as the arithmetic units of a circuit form them.  A product
of the sum of the widths is exact (`product`); a slice is the floor of a division by a power of
two, and is exact unless the bits above it tell that it does not fit (`slice_toInt`,
`slice_overflow`); then it can be saturated (`saturate_toInt`). -/

namespace Signed

variable {n p q k o : ℕ}

/-! ### Products -/

theorem toInt_mul_abs (hp : 0 < p) (hq : 0 < q) (x : BitVec p) (y : BitVec q) :
    |x.toInt * y.toInt| ≤ 2 ^ (p + q - 2) := by
  obtain ⟨a, rfl⟩ : ∃ a, p = a + 1 := ⟨p - 1, by omega⟩
  obtain ⟨b, rfl⟩ : ∃ b, q = b + 1 := ⟨q - 1, by omega⟩
  have hx₀ : -2 ^ a ≤ x.toInt := BitVec.le_toInt x
  have hx₁ : x.toInt < 2 ^ a := BitVec.toInt_lt
  have hy₀ : -2 ^ b ≤ y.toInt := BitVec.le_toInt y
  have hy₁ : y.toInt < 2 ^ b := BitVec.toInt_lt
  have ha : (0 : ℤ) < 2 ^ a := Int.pow_pos (by decide)
  rw [show a + 1 + (b + 1) - 2 = a + b by omega, pow_add, abs_mul]
  exact mul_le_mul (abs_le.mpr ⟨hx₀, hx₁.le⟩) (abs_le.mpr ⟨hy₀, hy₁.le⟩) (abs_nonneg _) ha.le

theorem toInt_mul_bounds (hp : 0 < p) (hq : 0 < q) (x : BitVec p) (y : BitVec q) :
    -2 ^ (p + q - 1) ≤ x.toInt * y.toInt ∧ x.toInt * y.toInt < 2 ^ (p + q - 1) := by
  have hpow : (2 : ℤ) ^ (p + q - 1) = 2 * 2 ^ (p + q - 2) := by
    rw [← pow_succ']
    congr 1
    omega
  have hprod : (0 : ℤ) < 2 ^ (p + q - 2) := Int.pow_pos (by decide)
  obtain ⟨hlow, hhigh⟩ := abs_le.mp (toInt_mul_abs hp hq x y)
  rw [hpow]
  constructor <;> omega

/-- A product in the sum of the widths is exact. -/
theorem product (hp : 0 < p) (hq : 0 < q) (x : BitVec p) (y : BitVec q) :
    (x.signExtend (p + q) * y.signExtend (p + q)).toInt = x.toInt * y.toInt := by
  obtain ⟨hlow, hhigh⟩ := toInt_mul_bounds hp hq x y
  unfold BitVec.signExtend
  rw [← BitVec.ofInt_mul]
  exact BitVec.toInt_ofInt_eq_self (by omega) hlow hhigh

/-! ### Arithmetic modulo the width -/

theorem ofInt_sub (x y : ℤ) : BitVec.ofInt n (x - y) = BitVec.ofInt n x - BitVec.ofInt n y := by
  apply BitVec.eq_of_toInt_eq
  simp

/-- A sum of samples is bounded by their number. -/
theorem sum_bounds (sample : ℕ → BitVec n) (m : ℕ) :
    -(m * 2 ^ (n - 1) : ℤ) ≤ ∑ i ∈ Finset.range m, (sample i).toInt ∧
      ∑ i ∈ Finset.range m, (sample i).toInt ≤ m * (2 ^ (n - 1) - 1) := by
  induction m with
  | zero => simp
  | succ m ih =>
      have hlow := BitVec.le_toInt (sample m)
      have hhigh : (sample m).toInt < 2 ^ (n - 1) := BitVec.toInt_lt
      rw [Finset.sum_range_succ]
      push_cast
      rw [add_one_mul, add_one_mul]
      constructor <;> omega

/-- A shift to the left is a multiplication. -/
theorem ofInt_shiftLeft (x : ℤ) (k : ℕ) :
    BitVec.ofInt n x <<< k = BitVec.ofInt n (x * 2 ^ k) := by
  rw [BitVec.shiftLeft_eq_mul_twoPow, BitVec.ofInt_mul]
  congr 1
  apply BitVec.eq_of_toNat_eq
  rw [BitVec.toNat_twoPow, BitVec.toNat_ofInt]
  norm_cast

theorem ofInt_toInt_shiftLeft (x : BitVec n) (k : ℕ) :
    x <<< k = BitVec.ofInt n (x.toInt * 2 ^ k) := by
  rw [← ofInt_shiftLeft, BitVec.ofInt_toInt]

/-! ### Complements -/

/-- The complement reflects a number at `-1/2`. -/
theorem toInt_not (hn : 0 < n) (x : BitVec n) : (~~~ x).toInt = -x.toInt - 1 := by
  obtain ⟨m, rfl⟩ : ∃ m, n = m + 1 := ⟨n - 1, by omega⟩
  have hx := x.isLt
  have hpow : 2 ^ (m + 1) = 2 * 2 ^ m := pow_succ' 2 m
  rw [hpow] at hx
  rw [BitVec.toInt_eq_toNat_cond, BitVec.toInt_eq_toNat_cond, BitVec.toNat_not, hpow]
  split <;> split <;> omega

/-! ### Slices -/

/-- A slice is the floor of a division. -/
theorem extract_eq (x : BitVec n) (h : k + o ≤ n) :
    x.extractLsb' k o = BitVec.ofInt o (x.toInt / 2 ^ k) := by
  have hsplit : (2 : ℤ) ^ n = 2 ^ (n - k - o) * 2 ^ o * 2 ^ k := by
    rw [← pow_add, ← pow_add]
    congr 1
    omega
  have hk : (2 : ℤ) ^ k ≠ 0 := pow_ne_zero _ (by decide)
  apply BitVec.eq_of_toNat_eq
  rw [BitVec.extractLsb'_toNat, BitVec.toNat_ofInt, Nat.shiftRight_eq_div_pow]
  have hmod : x.toInt / 2 ^ k % ((2 ^ o : ℕ) : ℤ) = ((x.toNat / 2 ^ k % 2 ^ o : ℕ) : ℤ) := by
    push_cast
    rw [BitVec.toInt_eq_toNat_cond]
    split
    · rfl
    · push_cast
      rw [hsplit, sub_eq_add_neg, ← neg_mul, Int.add_mul_ediv_right _ _ hk, ← neg_mul,
        Int.add_mul_emod_self_right]
  rw [hmod, Int.toNat_natCast]

/-- A slice of what is cut down to `n` bits is that of the number itself. -/
theorem extract_ofInt (v : ℤ) (h : k + o ≤ n) :
    (BitVec.ofInt n v).extractLsb' k o = BitVec.ofInt o (v / 2 ^ k) := by
  have hsplit : ((2 ^ n : ℕ) : ℤ) = 2 ^ (n - k - o) * 2 ^ o * 2 ^ k := by
    push_cast
    rw [← pow_add, ← pow_add]
    congr 1
    omega
  have hk : (2 : ℤ) ^ k ≠ 0 := pow_ne_zero _ (by decide)
  have hv := Int.bmod_add_bdiv v (2 ^ n)
  rw [extract_eq _ h, BitVec.toInt_ofInt]
  apply BitVec.eq_of_toInt_eq
  rw [BitVec.toInt_ofInt, BitVec.toInt_ofInt]
  have hquotient : v / 2 ^ k =
      v.bmod (2 ^ n) / 2 ^ k + 2 ^ (n - k - o) * v.bdiv (2 ^ n) * ((2 ^ o : ℕ) : ℤ) := by
    conv_lhs => rw [← hv, hsplit, mul_right_comm, Int.add_mul_ediv_right _ _ hk]
    push_cast
    ring
  rw [hquotient, Int.add_mul_bmod_self_right]

/-- The number fits in `o` signed bits. -/
def Fits (o : ℕ) (v : ℤ) : Prop := -2 ^ (o - 1) ≤ v ∧ v < 2 ^ (o - 1)

instance (o : ℕ) (v : ℤ) : Decidable (Fits o v) := inferInstanceAs (Decidable (_ ∧ _))

/-- A sum that fits is exact. -/
theorem add_toInt (hn : 0 < n) (x y : BitVec n) (h : Fits n (x.toInt + y.toInt)) :
    (x + y).toInt = x.toInt + y.toInt := by
  obtain ⟨m, rfl⟩ : ∃ m, n = m + 1 := ⟨n - 1, by omega⟩
  obtain ⟨hlow, hhigh⟩ := h
  have hpow : (2 : ℤ) ^ (m + 1) = 2 * 2 ^ m := pow_succ' 2 m
  rw [Nat.add_sub_cancel] at hlow hhigh
  rw [BitVec.toInt_add]
  apply Int.bmod_eq_of_le <;> push_cast <;> omega

/-- A difference that fits is exact. -/
theorem sub_toInt (hn : 0 < n) (x y : BitVec n) (h : Fits n (x.toInt - y.toInt)) :
    (x - y).toInt = x.toInt - y.toInt := by
  obtain ⟨m, rfl⟩ : ∃ m, n = m + 1 := ⟨n - 1, by omega⟩
  obtain ⟨hlow, hhigh⟩ := h
  have hpow : (2 : ℤ) ^ (m + 1) = 2 * 2 ^ m := pow_succ' 2 m
  rw [Nat.add_sub_cancel] at hlow hhigh
  rw [BitVec.toInt_sub]
  apply Int.bmod_eq_of_le <;> push_cast <;> omega

/-- A shift to the left drops no bit of a number that fits. -/
theorem shiftLeft_toInt (hn : 0 < n) (x : BitVec n) (k : ℕ) (h : Fits n (x.toInt * 2 ^ k)) :
    (x <<< k).toInt = x.toInt * 2 ^ k := by
  rw [ofInt_toInt_shiftLeft]
  exact BitVec.toInt_ofInt_eq_self hn h.1 h.2

theorem slice_toInt (x : BitVec n) (h : k + o ≤ n) (ho : 0 < o) (hfits : Fits o (x.toInt / 2 ^ k)) :
    (x.extractLsb' k o).toInt = x.toInt / 2 ^ k := by
  rw [extract_eq x h]
  exact BitVec.toInt_ofInt_eq_self ho hfits.1 hfits.2

/-- The bits at the top are the floor of a division that always fits in them. -/
theorem top_toInt (x : BitVec n) (h : k + o = n) (ho : 0 < o) :
    (x.extractLsb' k o).toInt = x.toInt / 2 ^ k := by
  have hpos : (0 : ℤ) < 2 ^ k := Int.pow_pos (by decide)
  have hsplit : (2 : ℤ) ^ (n - 1) = 2 ^ (o - 1) * 2 ^ k := by
    rw [← pow_add]
    congr 1
    omega
  have hx₀ := BitVec.le_toInt x
  have hx₁ : x.toInt < 2 ^ (n - 1) := BitVec.toInt_lt
  refine slice_toInt x h.le ho ⟨?_, ?_⟩
  · rw [Int.le_ediv_iff_mul_le hpos, neg_mul, ← hsplit]
    exact hx₀
  · rw [Int.ediv_lt_iff_lt_mul hpos, ← hsplit]
    exact hx₁

/-- The bits from the sign bit of a slice up are all the same exactly if the slice fits. -/
theorem slice_overflow (x : BitVec n) (h : k + o ≤ n) (ho : 0 < o) :
    (x.extractLsb' (k + o - 1) (n - (k + o - 1)) = 0 ∨
      x.extractLsb' (k + o - 1) (n - (k + o - 1)) = BitVec.allOnes _) ↔
      Fits o (x.toInt / 2 ^ k) := by
  have hwidth : 0 < n - (k + o - 1) := by omega
  have hpos : (0 : ℤ) < 2 ^ (k + o - 1) := Int.pow_pos (by decide)
  have hk : (0 : ℤ) < 2 ^ k := Int.pow_pos (by decide)
  have htop : (2 : ℤ) ^ (k + o - 1) = 2 ^ (o - 1) * 2 ^ k := by
    rw [← pow_add]
    congr 1
    omega
  -- the bits above are the quotient, which fits in them
  have htoInt := top_toInt x (k := k + o - 1) (o := n - (k + o - 1)) (by omega) hwidth
  have hzero : x.extractLsb' (k + o - 1) (n - (k + o - 1)) = 0 ↔
      0 ≤ x.toInt ∧ x.toInt < 2 ^ (k + o - 1) := by
    have hquotient : x.toInt / 2 ^ (k + o - 1) = 0 ↔
        0 ≤ x.toInt / 2 ^ (k + o - 1) ∧ x.toInt / 2 ^ (k + o - 1) < 1 := by omega
    rw [← BitVec.toInt_inj, htoInt, show (0 : BitVec (n - (k + o - 1))).toInt = 0 from
      BitVec.toInt_zero, hquotient, Int.le_ediv_iff_mul_le hpos, Int.ediv_lt_iff_lt_mul hpos,
      zero_mul, one_mul]
  have hones : x.extractLsb' (k + o - 1) (n - (k + o - 1)) = BitVec.allOnes _ ↔
      -2 ^ (k + o - 1) ≤ x.toInt ∧ x.toInt < 0 := by
    have hquotient : x.toInt / 2 ^ (k + o - 1) = -1 ↔
        -1 ≤ x.toInt / 2 ^ (k + o - 1) ∧ x.toInt / 2 ^ (k + o - 1) < 0 := by omega
    rw [← BitVec.toInt_inj, htoInt, BitVec.toInt_allOnes, if_pos hwidth, hquotient,
      Int.le_ediv_iff_mul_le hpos, Int.ediv_lt_iff_lt_mul hpos, zero_mul, neg_mul, one_mul]
  rw [hzero, hones, Fits, Int.le_ediv_iff_mul_le hk, Int.ediv_lt_iff_lt_mul hk, neg_mul, ← htop]
  omega

/-! ### Saturation -/

/-- The nearest number that fits in `o` signed bits. -/
def clamp (o : ℕ) (v : ℤ) : ℤ := max (-2 ^ (o - 1)) (min v (2 ^ (o - 1) - 1))

theorem clamp_of_fits {v : ℤ} (h : Fits o v) : clamp o v = v := by
  obtain ⟨hlow, hhigh⟩ := h
  unfold clamp
  omega

theorem fits_clamp (o : ℕ) (v : ℤ) : Fits o (clamp o v) := by
  have hpos : (0 : ℤ) < 2 ^ (o - 1) := Int.pow_pos (by decide)
  unfold Fits clamp
  omega

/-- A slice that does not fit is replaced by the end of the range on its side. -/
theorem saturate_toInt (x : BitVec n) (h : k + o ≤ n) (ho : 0 < o) (overflow : Bool)
    (hoverflow : overflow = true ↔ ¬Fits o (x.toInt / 2 ^ k)) :
    (if overflow then if x.msb then BitVec.intMin o else BitVec.intMax o
      else x.extractLsb' k o).toInt = clamp o (x.toInt / 2 ^ k) := by
  have hk : (0 : ℤ) < 2 ^ k := Int.pow_pos (by decide)
  have hpos : (0 : ℤ) < 2 ^ (o - 1) := Int.pow_pos (by decide)
  cases overflow with
  | true =>
      have hout := hoverflow.mp rfl
      rw [if_pos rfl, BitVec.msb_eq_toInt]
      unfold Fits at hout
      unfold clamp
      by_cases hsign : x.toInt < 0
      · have hquotient : x.toInt / 2 ^ k < 0 := Int.ediv_neg_of_neg_of_pos hsign hk
        rw [decide_eq_true hsign, if_pos rfl, BitVec.toInt_intMin_of_pos ho]
        omega
      · have hquotient : 0 ≤ x.toInt / 2 ^ k := Int.ediv_nonneg (not_lt.mp hsign) hk.le
        rw [decide_eq_false hsign, if_neg Bool.false_ne_true, BitVec.toInt_intMax]
        omega
  | false =>
      have hfits : Fits o (x.toInt / 2 ^ k) :=
        not_not.mp fun hout => Bool.false_ne_true (hoverflow.mpr hout)
      rw [if_neg Bool.false_ne_true, slice_toInt x h ho hfits, clamp_of_fits hfits]

/-! ### Other widths -/

/-- A signed number in another width: with fewer bits, its sign and the bits at the bottom. -/
def resize {n : ℕ} (x : BitVec n) (o : ℕ) : BitVec o :=
  if n ≤ o then x.signExtend o
  else if x.msb then x.setWidth o ||| BitVec.intMin o
  else x.setWidth o &&& ~~~BitVec.intMin o

theorem setWidth_toInt (ho : o ≤ n) (hpos : 0 < o) (x : BitVec n) (hfits : Fits o x.toInt) :
    (x.setWidth o).toInt = x.toInt := by
  obtain ⟨m, rfl⟩ : ∃ m, o = m + 1 := ⟨o - 1, by omega⟩
  obtain ⟨hlow, hhigh⟩ := hfits
  have hpow : (2 : ℤ) ^ (m + 1) = 2 * 2 ^ m := pow_succ' 2 m
  rw [Nat.add_sub_cancel] at hlow hhigh
  rw [← BitVec.signExtend_eq_setWidth_of_le _ ho, BitVec.toInt_signExtend_eq_toInt_bmod_of_le _ ho]
  apply Int.bmod_eq_of_le <;> push_cast <;> omega

theorem or_intMin {x : BitVec o} (h : x.msb = true) : x ||| BitVec.intMin o = x := by
  apply BitVec.eq_of_getLsbD_eq
  intro i hi
  rw [BitVec.getLsbD_or, BitVec.getLsbD_intMin]
  by_cases hlast : i + 1 = o
  · rw [BitVec.msb_eq_getLsbD_last, show o - 1 = i by omega] at h
    rw [h, Bool.true_or]
  · rw [decide_eq_false hlast, Bool.or_false]

theorem and_not_intMin {x : BitVec o} (h : x.msb = false) : x &&& ~~~BitVec.intMin o = x := by
  apply BitVec.eq_of_getLsbD_eq
  intro i hi
  rw [BitVec.getLsbD_and, BitVec.getLsbD_not, BitVec.getLsbD_intMin, decide_eq_true hi]
  by_cases hlast : i + 1 = o
  · rw [BitVec.msb_eq_getLsbD_last, show o - 1 = i by omega] at h
    rw [h, Bool.false_and]
  · rw [decide_eq_false hlast, Bool.not_false, Bool.and_self, Bool.and_true]

/-- A number that fits is the same in the other width. -/
theorem resize_toInt (ho : 0 < o) (x : BitVec n) (hfits : Fits o x.toInt) :
    (resize x o).toInt = x.toInt := by
  unfold resize
  split_ifs with hle hsign
  · exact BitVec.toInt_signExtend_of_le hle
  · have hvalue := setWidth_toInt (by omega) ho x hfits
    rw [or_intMin, hvalue]
    rw [BitVec.msb_eq_toInt] at hsign ⊢
    rw [hvalue, hsign]
  · have hvalue := setWidth_toInt (by omega) ho x hfits
    rw [and_not_intMin, hvalue]
    rw [BitVec.msb_eq_toInt] at hsign ⊢
    rw [hvalue, Bool.eq_false_iff.mpr hsign]

end Signed
