import Mathlib.Tactic.Linarith
import Mathlib.Tactic.NormNum
import Mbf.Bunch.Select

/-! # Gains and offsets

The conversions of the bunch configuration: a gain has 18 bits whatever is written, and is the same
when it is written back, and the bunch at a position is the one that the configured offset says,
also where the offset is negative. -/

namespace Mbf.Bunch

/-! ### Numbers -/

theorem lroundf_intCast (z : ℤ) : lroundf (z : ℚ) = z := by
  unfold lroundf
  split_ifs
  · rw [Int.floor_eq_iff]
    constructor <;> linarith
  · rw [Int.ceil_eq_iff]
    constructor <;> linarith

theorem lroundf_maxGain : lroundf (maxGain * 2 ^ 14) = 2 ^ 17 - 1 := by
  have hpos : (0 : ℚ) ≤ maxGain * 2 ^ 14 := by norm_num [maxGain]
  unfold lroundf
  rw [if_pos hpos, Int.floor_eq_iff]
  norm_num [maxGain]

/-- Gains have 18 bits. -/
theorem floatToGain_range (x : FloatValue) :
    -2 ^ 17 ≤ floatToGain x ∧ floatToGain x < 2 ^ 17 := by
  have hmin : lroundf (-8 * 2 ^ 14) = -2 ^ 17 := by
    have hcast := lroundf_intCast (-2 ^ 17)
    norm_num at hcast ⊢
    exact hcast
  cases x with
  | infinite negative =>
      cases negative with
      | false => rw [floatToGain, lroundf_maxGain]; norm_num
      | true => rw [floatToGain, hmin]; norm_num
  | finite x =>
      simp only [floatToGain]
      split_ifs with hmax hlow
      · rw [lroundf_maxGain]; norm_num
      · rw [hmin]; norm_num
      · have hupper : x * 2 ^ 14 ≤ maxGain * 2 ^ 14 := by linarith
        have hlower : -8 * 2 ^ 14 ≤ x * 2 ^ 14 := by linarith
        unfold lroundf
        split_ifs
        · refine ⟨?_, ?_⟩
          · exact le_trans (by norm_num) (Int.floor_nonneg.mpr (by linarith))
          · rw [Int.floor_lt]
            norm_num [maxGain] at hupper ⊢
            linarith
        · refine ⟨?_, ?_⟩
          · rw [Int.le_ceil_iff]
            norm_num at hlower ⊢
            linarith
          · exact lt_of_le_of_lt (Int.ceil_le.mpr (by norm_num; linarith : _ ≤ ((0 : ℤ) : ℚ)))
              (by norm_num)

/-- A gain that is written back is the same gain. -/
theorem floatToGain_gainToFloat {gain : ℤ} (hlow : -2 ^ 17 ≤ gain) (hhigh : gain < 2 ^ 17) :
    floatToGain (gainToFloat gain) = gain := by
  have hcast : ((gain : ℚ) / 2 ^ 14) * 2 ^ 14 = gain := by ring
  simp only [gainToFloat, floatToGain]
  split_ifs with hmax hmin
  · have hge : 2 ^ 17 - 1 ≤ gain := by
      by_contra hlt
      have hle : gain ≤ 2 ^ 17 - 2 := by omega
      have hleq : (gain : ℚ) ≤ 2 ^ 17 - 2 := by exact_mod_cast hle
      norm_num [maxGain] at hmax
      linarith
    rw [lroundf_maxGain]
    omega
  · have hge : (-2 ^ 17 : ℚ) ≤ gain := by exact_mod_cast hlow
    norm_num at hmin hge
    linarith
  · rw [hcast, lroundf_intCast]

/-- A selection that is written back is the same selection. -/
theorem setWidth_back (x : BitVec 2) : (x.setWidth 8).setWidth 2 = x := by
  revert x
  decide

/-- The bits of a gain. -/
theorem gain_toInt {gain : ℤ} (hlow : -2 ^ 17 ≤ gain) (hhigh : gain < 2 ^ 17) :
    ((BitVec.ofInt 32 gain).setWidth 18).toInt = gain := by
  have hbits : (BitVec.ofInt 32 gain).setWidth 18 = BitVec.ofInt 18 gain := by
    apply BitVec.eq_of_toNat_eq
    rw [BitVec.toNat_setWidth, BitVec.toNat_ofInt, BitVec.toNat_ofInt]
    omega
  rw [hbits, BitVec.toInt_ofInt]
  exact Int.bmod_eq_of_le (by omega) (by omega)

/-! ### Offsets -/

theorem convertField_eq {bunches : ℕ} (hpos : 0 < bunches) (value : ℤ) :
    (convertField bunches value : ℤ) = value % bunches := by
  have hbunches : (0 : ℤ) < bunches := by exact_mod_cast hpos
  unfold convertField
  split_ifs with h
  · have hnonneg : 0 ≤ -value - 1 := by omega
    have hmod := Int.emod_nonneg (-value - 1) hbunches.ne'
    have hlt := Int.emod_lt_of_pos (-value - 1) hbunches
    rw [Int.tmod_eq_emod_of_nonneg hnonneg, Int.toNat_of_nonneg (by omega)]
    have hdiv := Int.emod_add_mul_ediv (-value - 1) bunches
    have hvalue : value = (bunches - 1 - (-value - 1) % bunches) +
        bunches * (-((-value - 1) / bunches) - 1) := by
      rw [mul_sub, mul_neg, mul_one]
      omega
    generalize (-value - 1) % (bunches : ℤ) = r at *
    rw [hvalue, Int.add_mul_emod_self_left, Int.emod_eq_of_lt (by omega) (by omega)]
  · have hnonneg : 0 ≤ value := by omega
    rw [Int.tmod_eq_emod_of_nonneg hnonneg, Int.toNat_of_nonneg]
    exact Int.emod_nonneg value hbunches.ne'

theorem offsetIndex_eq {bunches offset : ℕ} (h : offset < bunches) (i : ℕ) :
    offsetIndex bunches offset i = (offset + i) % bunches := by
  induction i with
  | zero => exact (Nat.mod_eq_of_lt h).symm
  | succ i ih =>
      have hlt := Nat.mod_lt (offset + i) (by omega : 0 < bunches)
      unfold offsetIndex
      dsimp only
      have hsucc : (offset + (i + 1)) % bunches = ((offset + i) % bunches + 1) % bunches := by
        rw [Nat.mod_add_mod, Nat.add_assoc]
      rw [ih, hsucc]
      split_ifs with hwrap
      · rw [Nat.mod_eq_of_lt hwrap]
      · have heq : (offset + i) % bunches + 1 = bunches := by omega
        rw [heq, Nat.mod_self]

/-- The bunch at a position. -/
theorem Waveform.rotate_eq {α : Type} {bunches : ℕ} (wf : Waveform bunches α) {offset : ℤ}
    {i j : Fin bunches} (hj : (j.val : ℤ) = (i.val + offset) % bunches) :
    Waveform.rotate wf offset i = wf j := by
  have hpos : 0 < bunches := i.pos
  have hconvert := convertField_eq hpos offset
  have hlt : convertField bunches offset < bunches := by
    have := Int.emod_lt_of_pos offset (by exact_mod_cast hpos : (0 : ℤ) < bunches)
    omega
  have hindex : offsetIndex bunches (convertField bunches offset) i = j.val := by
    rw [offsetIndex_eq hlt]
    zify
    rw [hconvert, hj, Int.emod_add_emod, add_comm]
  unfold Waveform.rotate
  dsimp only
  rw [dif_pos (by rw [hindex]; exact j.isLt)]
  exact congrArg wf (Fin.ext hindex)

end Mbf.Bunch
