import Mathlib.Algebra.Order.Ring.Abs
import Mathlib.Algebra.Order.Ring.Int
import Mathlib.Tactic.Linarith
import Mathlib.Tactic.Ring

/-! # Leaky sums of integers

A sum that loses a `q`-th part of itself in each step before something is added to it.  The part is
rounded away from zero, so that what is not zero always loses something (`abs_leak_lt`).  The sum
stays within the bounds that the added terms have in the long run, although the part may be another
in each step (`step_mem`). -/

namespace Leak

/-- The `q`-th part of `y`, rounded away from zero. -/
def part (y q : ℤ) : ℤ := if 0 ≤ y then -(-y / q) else y / q

/-- What is left of `y` without its `q`-th part. -/
def leak (y q : ℤ) : ℤ := y - part y q

/-- A step of the sum: `x` is added on a scale of `r`. -/
def step (q r y x : ℤ) : ℤ := leak y q + x * r

variable {q r b lo hi x y : ℤ}

theorem part_neg (y q : ℤ) : part (-y) q = -part y q := by
  unfold part
  obtain hneg | rfl | hpos := lt_trichotomy y 0
  · rw [if_pos (by omega), if_neg (by omega), neg_neg]
  · simp
  · rw [if_neg (by omega), if_pos (by omega), neg_neg]

theorem leak_neg (y q : ℤ) : leak (-y) q = -leak y q := by
  unfold leak
  rw [part_neg]
  ring

/-- The part of a number that is not negative is the least that is enough. -/
theorem part_bounds (hq : 0 < q) (hy : 0 ≤ y) : y ≤ part y q * q ∧ part y q * q < y + q := by
  unfold part
  rw [if_pos hy]
  have hlow := Int.ediv_mul_le (-y) hq.ne'
  have hhigh := Int.lt_ediv_add_one_mul_self (-y) hq
  constructor <;> linarith

/-- It is the quotient, or one more where something is left over. -/
theorem part_eq (hq : 0 < q) (hy : 0 ≤ y) : part y q = y / q + if y % q = 0 then 0 else 1 := by
  have hdiv := Int.mul_ediv_add_emod y q
  have hrest := Int.emod_nonneg y hq.ne'
  have hlt := Int.emod_lt_of_pos y hq
  unfold part
  rw [if_pos hy]
  split_ifs with hzero
  · have hquotient : -y / q = -(y / q) :=
      ((Int.ediv_emod_unique hq (r := 0)).mpr ⟨by linarith, le_rfl, hq⟩).1
    omega
  · have hquotient : -y / q = -(y / q) - 1 :=
      ((Int.ediv_emod_unique hq (r := q - y % q)).mpr ⟨by linarith, by omega, by omega⟩).1
    omega

theorem leak_nonneg (hq : 0 < q) (hy : 0 ≤ y) : 0 ≤ leak y q := by
  obtain ⟨-, hhigh⟩ := part_bounds hq hy
  unfold leak
  by_contra hneg
  have hmul : (y + 1) * q ≤ part y q * q := mul_le_mul_of_nonneg_right (by omega) hq.le
  have hle : y * 1 ≤ y * q := mul_le_mul_of_nonneg_left (by omega) hy
  linarith

theorem leak_le (hq : 0 < q) (hy : 0 ≤ y) : leak y q ≤ y := by
  obtain ⟨hlow, -⟩ := part_bounds hq hy
  have hpart : 0 ≤ part y q := by
    by_contra hneg
    have hmul : part y q * q < 0 := mul_neg_of_neg_of_pos (by omega) hq
    omega
  unfold leak
  omega

theorem leak_lt (hq : 0 < q) (hy : 0 < y) : leak y q < y := by
  obtain ⟨hlow, -⟩ := part_bounds hq hy.le
  have hpart : 0 < part y q := by
    by_contra hneg
    have hmul : part y q * q ≤ 0 := mul_nonpos_of_nonpos_of_nonneg (by omega) hq.le
    omega
  unfold leak
  omega

/-- Nothing grows. -/
theorem abs_leak_le (hq : 0 < q) (y : ℤ) : |leak y q| ≤ |y| := by
  obtain hy | hy := le_total 0 y
  · rw [abs_of_nonneg hy, abs_of_nonneg (leak_nonneg hq hy)]
    exact leak_le hq hy
  · have hneg : 0 ≤ -y := by omega
    rw [← abs_neg, ← leak_neg, ← abs_neg y, abs_of_nonneg hneg, abs_of_nonneg (leak_nonneg hq hneg)]
    exact leak_le hq hneg

/-- What is not zero gets smaller. -/
theorem abs_leak_lt (hq : 0 < q) (hy : y ≠ 0) : |leak y q| < |y| := by
  obtain hneg | hpos := lt_or_gt_of_ne hy
  · have hpos : 0 < -y := by omega
    rw [← abs_neg, ← leak_neg, ← abs_neg y, abs_of_pos hpos,
      abs_of_nonneg (leak_nonneg hq hpos.le)]
    exact leak_lt hq hpos
  · rw [abs_of_pos hpos, abs_of_nonneg (leak_nonneg hq hpos.le)]
    exact leak_lt hq hpos

/-- A bound of `q` parts loses one of them. -/
theorem leak_le_bound (hq : 0 < q) (hb : 0 ≤ b) (hy : y ≤ b * q) : leak y q ≤ b * q - b := by
  have hroom : 0 ≤ b * (q - 1) := mul_nonneg hb (by omega)
  obtain hpos | hneg := le_total 0 y
  · obtain ⟨hlow, hhigh⟩ := part_bounds hq hpos
    have hpart : part y q ≤ b := by
      by_contra hmore
      have hmul : (b + 1) * q ≤ part y q * q := mul_le_mul_of_nonneg_right (by omega) hq.le
      linarith
    have hrest : 0 ≤ (b - part y q) * (q - 1) := mul_nonneg (by omega) (by omega)
    unfold leak
    linarith
  · have hleak := leak_nonneg hq (y := -y) (by omega)
    rw [leak_neg] at hleak
    linarith

theorem bound_le_leak (hq : 0 < q) (hb : b ≤ 0) (hy : b * q ≤ y) : b * q - b ≤ leak y q := by
  have hneg := leak_le_bound hq (b := -b) (y := -y) (by omega) (by linarith)
  rw [leak_neg] at hneg
  linarith

/-- Between bounds that hold zero and each term, the sum stays between their limits. -/
theorem step_mem (hq : 0 < q) (hr : 0 < r) (hlo : lo ≤ 0) (hhi : 0 ≤ hi)
    (hy : lo * (q * r) ≤ y ∧ y ≤ hi * (q * r)) (hx : lo ≤ x ∧ x ≤ hi) :
    lo * (q * r) ≤ step q r y x ∧ step q r y x ≤ hi * (q * r) := by
  have hlow := bound_le_leak hq (b := lo * r) (y := y)
    (mul_nonpos_of_nonpos_of_nonneg hlo hr.le) (by linarith)
  have hhigh := leak_le_bound hq (b := hi * r) (y := y) (mul_nonneg hhi hr.le) (by linarith)
  have hterm : lo * r ≤ x * r ∧ x * r ≤ hi * r :=
    ⟨mul_le_mul_of_nonneg_right hx.1 hr.le, mul_le_mul_of_nonneg_right hx.2 hr.le⟩
  unfold step
  constructor <;> linarith

end Leak
