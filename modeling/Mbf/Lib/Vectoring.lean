import Mathlib.Algebra.Order.Group.Unbundled.Abs
import Mathlib.Tactic.Linarith
import Mathlib.Tactic.Ring
import Mathlib.Algebra.Order.Ring.Abs

/-! # Vectoring with shifts and additions

One step turns a vector towards the x axis, by adding each component to the other, shifted right by
the number of the step; the shifts round down.  The x component never decreases (`le_step_x`), and
the y component is less and less of it (`residual`), but for one unit of rounding in each step.  So
the x component grows by a bounded factor (`growth`). -/

namespace Vectoring

/-- A vector in fixed point. -/
structure Vec where
  x : ℤ
  y : ℤ
deriving DecidableEq

/-- The step number `k`. -/
def step (k : ℕ) (v : Vec) : Vec :=
  if 0 ≤ v.y then ⟨v.x + v.y / 2 ^ k, v.y - v.x / 2 ^ k⟩
  else ⟨v.x - v.y / 2 ^ k, v.y + v.x / 2 ^ k⟩

/-- The vector before step `k`. -/
def iterate (v : Vec) : ℕ → Vec
  | 0 => v
  | k + 1 => step k (iterate v k)

variable {k : ℕ} {v : Vec} {e : ℤ}

theorem le_step_x (k : ℕ) (v : Vec) : v.x ≤ (step k v).x := by
  have hpos : (0 : ℤ) < 2 ^ k := Int.pow_pos (by decide)
  unfold step
  split_ifs with hy
  · have hshift : 0 ≤ v.y / 2 ^ k := Int.ediv_nonneg hy hpos.le
    show v.x ≤ v.x + _
    omega
  · have hshift : v.y / 2 ^ k < 0 := Int.ediv_neg_of_neg_of_pos (by omega) hpos
    show v.x ≤ v.x - _
    omega

/-- A step adds no more than the shifted component, rounded up. -/
theorem step_x_le (k : ℕ) (v : Vec) : 2 ^ k * (step k v).x ≤ 2 ^ k * v.x + |v.y| + 2 ^ k := by
  have hpos : (0 : ℤ) < 2 ^ k := Int.pow_pos (by decide)
  have hsplit := Int.mul_ediv_add_emod v.y (2 ^ k)
  have hmod := Int.emod_nonneg v.y hpos.ne'
  have hlt := Int.emod_lt_of_pos v.y hpos
  unfold step
  split_ifs with hy
  · rw [abs_of_nonneg hy]
    show 2 ^ k * (v.x + v.y / 2 ^ k) ≤ _
    rw [mul_add]
    omega
  · rw [abs_of_neg (not_le.mp hy)]
    show 2 ^ k * (v.x - v.y / 2 ^ k) ≤ _
    rw [mul_sub]
    omega

/-- The y component is turned towards the axis by the shifted x component. -/
theorem abs_step_y (k : ℕ) (v : Vec) : |(step k v).y| = |(|v.y| - v.x / 2 ^ k)| := by
  unfold step
  split_ifs with hy
  · rw [abs_of_nonneg hy]
  · rw [abs_of_neg (not_le.mp hy)]
    show |v.y + v.x / 2 ^ k| = _
    rw [← abs_neg, neg_add]
    rfl

/-- The y component stays below the greater of what it was and the x component. -/
theorem abs_step_y_le (hx : 0 ≤ v.x) : |(step k v).y| ≤ max |v.y| v.x := by
  have hpos : (0 : ℤ) < 2 ^ k := Int.pow_pos (by decide)
  have hshift : 0 ≤ v.x / 2 ^ k := Int.ediv_nonneg hx hpos.le
  have hle : v.x / 2 ^ k ≤ v.x := Int.ediv_le_self _ hx
  have hy := abs_nonneg v.y
  rw [abs_step_y, abs_le]
  have hleft := le_max_left |v.y| v.x
  have hright := le_max_right |v.y| v.x
  constructor <;> omega

/-- What is left of the y component, against the x component. -/
theorem step_residual (he : 0 ≤ e) (h : 2 ^ k * |v.y| ≤ 2 * v.x + 2 ^ k * e) :
    2 ^ k * |(step k v).y| ≤ (step k v).x + 2 ^ k * (e + 1) := by
  have hpos : (0 : ℤ) < 2 ^ k := Int.pow_pos (by decide)
  have hmono := le_step_x k v
  have hsplit := Int.mul_ediv_add_emod v.x (2 ^ k)
  have hmod := Int.emod_nonneg v.x hpos.ne'
  have hlt := Int.emod_lt_of_pos v.x hpos
  have hround : 0 ≤ 2 ^ k * e := mul_nonneg hpos.le he
  have hy : 0 ≤ 2 ^ k * |v.y| := mul_nonneg hpos.le (abs_nonneg _)
  rw [abs_step_y, mul_add, mul_one]
  rcases le_total (v.x / 2 ^ k) |v.y| with hle | hle
  · rw [abs_of_nonneg (sub_nonneg.mpr hle), mul_sub]
    omega
  · rw [abs_of_nonpos (sub_nonpos.mpr hle), neg_sub, mul_sub]
    omega

/-! ### All steps -/

section iterate
variable {width : ℤ}

theorem iterate_x_nonneg (hx : 0 ≤ v.x) (k : ℕ) : 0 ≤ (iterate v k).x := by
  induction k with
  | zero => exact hx
  | succ k ih => exact ih.trans (le_step_x k _)

/-- After the first step the y component is at most the x component, and then it is halved against
it in each step, but for the rounding. -/
theorem residual (hx : 0 ≤ v.x) (hy : 0 ≤ v.y) (k : ℕ) :
    2 ^ k * |(iterate v (k + 1)).y| ≤ (iterate v (k + 1)).x + 2 ^ k * k := by
  induction k with
  | zero =>
      have hfirst : iterate v 1 = ⟨v.x + v.y, v.y - v.x⟩ := by
        show step 0 v = _
        unfold step
        rw [if_pos hy, pow_zero, Int.ediv_one, Int.ediv_one]
      rw [hfirst]
      show 2 ^ 0 * |v.y - v.x| ≤ v.x + v.y + 2 ^ 0 * 0
      have habs : |v.y - v.x| ≤ v.x + v.y := by
        rw [abs_le]
        constructor <;> omega
      rw [pow_zero, one_mul, mul_zero, add_zero]
      exact habs
  | succ k ih =>
      have hpow : (2 : ℤ) ^ (k + 1) = 2 * 2 ^ k := pow_succ' 2 k
      have hdouble : 2 ^ (k + 1) * |(iterate v (k + 1)).y| ≤
          2 * (iterate v (k + 1)).x + 2 ^ (k + 1) * k := by
        rw [hpow, mul_assoc, mul_assoc]
        omega
      push_cast
      exact step_residual (Int.natCast_nonneg k) hdouble

theorem iterate_x_mono (v : Vec) {j k : ℕ} (h : j ≤ k) : (iterate v j).x ≤ (iterate v k).x := by
  induction k, h using Nat.le_induction with
  | base => exact le_rfl
  | succ k _ ih => exact ih.trans (le_step_x k _)

theorem abs_iterate_y_le (hx : 0 ≤ v.x) (k : ℕ) :
    |(iterate v k).y| ≤ max |v.y| (iterate v k).x := by
  induction k with
  | zero => exact le_max_left _ _
  | succ k ih =>
      refine (abs_step_y_le (iterate_x_nonneg hx k)).trans (max_le ?_ ?_)
      · exact ih.trans (max_le_max le_rfl (le_step_x k _))
      · exact (le_step_x k _).trans (le_max_right _ _)

/-- The first two steps at most double the greater component. -/
theorem iterate_two (hy : 0 ≤ v.y) (hxw : v.x ≤ width) (hyw : v.y ≤ width) :
    (iterate v 2).x ≤ 2 * width := by
  have hfirst : iterate v 1 = ⟨v.x + v.y, v.y - v.x⟩ := by
    show step 0 v = _
    unfold step
    rw [if_pos hy, pow_zero, Int.ediv_one, Int.ediv_one]
  show (step 1 (iterate v 1)).x ≤ _
  rw [hfirst]
  unfold step
  split_ifs with hsign
  · show v.x + v.y + (v.y - v.x) / 2 ^ 1 ≤ _
    replace hsign : 0 ≤ v.y - v.x := hsign
    omega
  · show v.x + v.y - (v.y - v.x) / 2 ^ 1 ≤ _
    replace hsign : ¬0 ≤ v.y - v.x := hsign
    omega

/-- After that the x component grows by a quarter at most, but for the rounding. -/
theorem growth_pow (hx : 0 ≤ v.x) (hy : 0 ≤ v.y) (hxw : v.x ≤ width) (hyw : v.y ≤ width) (k : ℕ) :
    12 * 4 ^ k * (iterate v (k + 2)).x ≤ 4 ^ k * (30 * width + 18 * k) - 5 * width := by
  induction k with
  | zero =>
      have htwo := iterate_two hy hxw hyw
      rw [pow_zero]
      push_cast
      omega
  | succ k ih =>
      obtain ⟨q, hq⟩ : ∃ q : ℤ, q = 2 ^ k := ⟨_, rfl⟩
      have hfour : (4 : ℤ) ^ k = q * q := by
        rw [hq, ← mul_pow]
        rfl
      have hqk : (k : ℤ) + 1 ≤ q := by
        rw [hq]
        exact_mod_cast Nat.lt_two_pow_self
      have hstep : 4 * q * (iterate v (k + 3)).x ≤
          4 * q * (iterate v (k + 2)).x + |(iterate v (k + 2)).y| + 4 * q := by
        have hpow : (2 : ℤ) ^ (k + 2) = 4 * q := by
          rw [hq, pow_add]
          ring
        have hle := step_x_le (k + 2) (iterate v (k + 2))
        rw [hpow] at hle
        exact hle
      have hres : 2 * q * |(iterate v (k + 2)).y| ≤
          (iterate v (k + 2)).x + 2 * q * (k + 1) := by
        have hle := residual hx hy (k + 1)
        rw [pow_succ' (2 : ℤ) k, ← hq] at hle
        push_cast at hle
        exact hle
      have hbelow : 12 * (iterate v (k + 2)).x ≤ 30 * width + 18 * k := by
        apply le_of_mul_le_mul_left _ (show 0 < q * q by nlinarith)
        rw [hfour] at ih
        linarith
      have hround : 9 * (k : ℤ) + 12 * (q * (k + 1)) ≤ 24 * (q * q) := by
        have hproduct : q * (k + 1) ≤ q * q := mul_le_mul_of_nonneg_left hqk (by omega)
        nlinarith
      have hscaled := mul_le_mul_of_nonneg_left hstep (show 0 ≤ 4 * q by omega)
      rw [hfour] at ih
      rw [pow_succ, hfour]
      push_cast
      linarith

theorem growth (hx : 0 ≤ v.x) (hy : 0 ≤ v.y) (hxw : v.x ≤ width) (hyw : v.y ≤ width) (k : ℕ) :
    12 * (iterate v (k + 2)).x ≤ 30 * width + 18 * k := by
  have hpow := growth_pow hx hy hxw hyw k
  have hpos : (0 : ℤ) < 4 ^ k := Int.pow_pos (by decide)
  apply le_of_mul_le_mul_left _ hpos
  linarith

end iterate

end Vectoring
