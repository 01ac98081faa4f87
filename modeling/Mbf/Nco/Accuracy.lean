import Mathlib.Analysis.Real.Pi.Bounds
import Mbf.Nco.Core

/-! # The accuracy of the oscillator

In integers what is refined is exact but for its rounding (`refined_cos`, `refined_sin`).  Its angle
is that of the phase but for the lower bits of the residue, the approximation of π by `piScaled` and
the rounding of the angle (`angle_error`).  With a table that is right to half a unit and a little
more, the cosine and the sine are off by less than one and a half (`cosSin_close`), at any time
(`nco_accurate`). -/

namespace Mbf.Nco

open Real
open TunePll (CosSin)

/-! ### Integers -/

/-- `round` rounds halves up. -/
theorem round_ofInt {n k o : ℕ} (v : ℤ) (h : k + 1 + o ≤ n) :
    round (BitVec.ofInt n v) (k + 1) o = BitVec.ofInt o ((v + 2 ^ k) / 2 ^ (k + 1)) := by
  have hbit : (BitVec.ofInt 1 (v / 2 ^ k)).setWidth o = BitVec.ofInt o (v / 2 ^ k % 2) := by
    apply BitVec.eq_of_toNat_eq
    rw [BitVec.toNat_setWidth, BitVec.toNat_ofInt, BitVec.toNat_ofInt]
    obtain ⟨b, hb⟩ := Int.eq_ofNat_of_zero_le
      (Int.emod_nonneg (v / 2 ^ k) (by decide : (2 : ℤ) ≠ 0))
    have hone : v / 2 ^ k % ((2 ^ 1 : ℕ) : ℤ) = b := hb
    rw [hone, hb]
    norm_cast
  have hpow : (0 : ℤ) < 2 ^ k := Int.pow_pos (by decide)
  have hdiv : v / 2 ^ (k + 1) + v / 2 ^ k % 2 = (v + 2 ^ k) / 2 ^ (k + 1) := by
    rw [pow_succ, ← Int.ediv_ediv_of_nonneg hpow.le, ← Int.ediv_ediv_of_nonneg hpow.le,
      Int.add_ediv_of_dvd_right dvd_rfl, Int.ediv_self hpow.ne']
    omega
  rw [round, Nat.add_sub_cancel, Signed.extract_ofInt v h,
    Signed.extract_ofInt v (show k + 1 ≤ n by omega), hbit,
    ← BitVec.ofInt_add, hdiv]

/-- The angle of a residue: only the top eight bits count. -/
def deltaNat (residue : ℕ) : ℕ := (201 * (residue / 2 ^ 27) + 128) / 256

theorem deltaOf_toInt (residue : BitVec 35) : (deltaOf residue).toInt = deltaNat residue.toNat := by
  have hall : ∀ top : BitVec 8,
      ((0x00080#18 + piScaled.signExtend 18 * (0#1 ++ top : BitVec 9).signExtend 18).extractLsb'
        8 10).toInt = ((201 * top.toNat + 128) / 256 : ℕ) := by decide +kernel
  have htop : (residue.extractLsb' 27 8).toNat = residue.toNat / 2 ^ 27 := by
    rw [BitVec.extractLsb'_toNat, Nat.shiftRight_eq_div_pow, Nat.mod_eq_of_lt]
    have hlt := residue.isLt
    omega
  rw [deltaNat, ← htop]
  exact hall (residue.extractLsb' 27 8)

theorem bitsToCosSin_toInt (data : BitVec 36) :
    (bitsToCosSin data).cos.toInt = (data.extractLsb' 0 18).toNat ∧
      (bitsToCosSin data).sin.toInt = (data.extractLsb' 18 18).toNat := by
  have hzero : ∀ x : BitVec 18, (0#1 ++ x : BitVec 19).toInt = x.toNat := by
    intro x
    rw [BitVec.toInt_append]
    simp
  exact ⟨hzero _, hzero _⟩

theorem append_zero (x : BitVec 19) :
    (x ++ 0#18 : BitVec 37) = BitVec.ofInt 37 (2 ^ 18 * x.toInt) := by
  rw [← BitVec.toInt_append_zero, BitVec.ofInt_toInt]

theorem product_eq (delta : BitVec 10) (x : BitVec 19) :
    (delta.signExtend 29 * x.signExtend 29).signExtend 37 =
      BitVec.ofInt 37 (delta.toInt * x.toInt) := by
  rw [BitVec.signExtend, show (delta.signExtend 29 * x.signExtend 29).toInt = _ from
    Signed.product (by decide) (by decide) delta x]

section refined
variable {raw : CosSin 19} {delta : BitVec 10} {c s d : ℤ} (hcos : raw.cos.toInt = c)
  (hsin : raw.sin.toInt = s) (hdelta : delta.toInt = d)
include hcos hsin hdelta

theorem refined_cos (hfits : Signed.Fits 18 ((2 ^ 18 * c - d * s + 2 ^ 18) / 2 ^ 19)) :
    (refined raw delta).cos.toInt = (2 ^ 18 * c - d * s + 2 ^ 18) / 2 ^ 19 := by
  show (round _ 19 18).toInt = _
  rw [append_zero, product_eq, ← Signed.ofInt_sub, round_ofInt _ (by decide), hcos, hsin, hdelta]
  exact BitVec.toInt_ofInt_eq_self (by decide) hfits.1 hfits.2

theorem refined_sin (hfits : Signed.Fits 18 ((2 ^ 18 * s + d * c + 2 ^ 18) / 2 ^ 19)) :
    (refined raw delta).sin.toInt = (2 ^ 18 * s + d * c + 2 ^ 18) / 2 ^ 19 := by
  show (round _ 19 18).toInt = _
  rw [append_zero, product_eq, ← BitVec.ofInt_add, round_ofInt _ (by decide), hcos, hsin, hdelta]
  exact BitVec.toInt_ofInt_eq_self (by decide) hfits.1 hfits.2

end refined

/-! ### Angles -/

/-- The angle of one step of the phase. -/
noncomputable def step : ℝ := 2 * π / 2 ^ 48

theorem octant_toNat (angle : BitVec 48) :
    (angle.extractLsb' 45 3).toNat = angle.toNat / 2 ^ 45 := by
  rw [BitVec.extractLsb'_toNat, Nat.shiftRight_eq_div_pow, Nat.mod_eq_of_lt]
  have hlt := angle.isLt
  omega

/-- In even octants the angle goes forwards. -/
theorem position_even {angle : BitVec 48} (heven : angle.toNat / 2 ^ 45 % 2 = 0) :
    (lookupAddr angle).toNat * 2 ^ 35 + (residueOf angle).toNat = angle.toNat % 2 ^ 45 := by
  have hbit : (angle.extractLsb' 45 3).getLsbD 0 = false := by
    rw [BitVec.getLsbD, octant_toNat, Nat.testBit_zero, heven]
    rfl
  rw [lookupAddr, residueOf, hbit, if_neg Bool.false_ne_true, if_neg Bool.false_ne_true,
    BitVec.extractLsb'_toNat, BitVec.extractLsb'_toNat, Nat.shiftRight_eq_div_pow,
    Nat.shiftRight_zero]
  omega

/-- In odd octants it goes backwards from the end. -/
theorem position_odd {angle : BitVec 48} (hodd : angle.toNat / 2 ^ 45 % 2 ≠ 0) :
    (lookupAddr angle).toNat * 2 ^ 35 + (residueOf angle).toNat + 1 + angle.toNat % 2 ^ 45 =
      2 ^ 45 := by
  have hbit : (angle.extractLsb' 45 3).getLsbD 0 = true := by
    rw [BitVec.getLsbD, octant_toNat, Nat.testBit_zero, Nat.mod_two_ne_zero.mp hodd]
    rfl
  rw [lookupAddr, residueOf, hbit, if_pos rfl, if_pos rfl, BitVec.toNat_not, BitVec.toNat_not,
    BitVec.extractLsb'_toNat, BitVec.extractLsb'_toNat, Nat.shiftRight_eq_div_pow,
    Nat.shiftRight_zero]
  omega

/-- The phase as an octant and what is left, folded. -/
theorem fold_phase (angle : BitVec 48) : ∃ e : ℝ, 0 ≤ e ∧ e ≤ 1 ∧
    Octants.fold (angle.extractLsb' 45 3).toNat ((angle.toNat % 2 ^ 45 : ℕ) * step) =
      π / 4096 * (lookupAddr angle).toNat + ((residueOf angle).toNat + e) * step := by
  rw [octant_toNat, Octants.fold]
  split_ifs with heven
  · refine ⟨0, le_rfl, zero_le_one, ?_⟩
    rw [← position_even heven, step]
    push_cast
    ring
  · refine ⟨1, zero_le_one, le_rfl, ?_⟩
    have hodd : ((lookupAddr angle).toNat * 2 ^ 35 + (residueOf angle).toNat + 1 +
        (angle.toNat % 2 ^ 45 : ℕ) : ℝ) = 2 ^ 45 := by
      exact_mod_cast position_odd heven
    rw [← eq_sub_iff_add_eq'] at hodd
    rw [hodd, step]
    ring

/-- What the circuit makes of the residue is its angle, nearly. -/
theorem angle_error {residue : ℕ} {e : ℝ} (hresidue : residue < 2 ^ 35) (hlow : 0 ≤ e)
    (hhigh : e ≤ 1) :
    |(residue + e) * step - deltaNat residue / 2 ^ 18| ≤ 1.35 / 2 ^ 18 ∧
      |(residue + e) * step| ≤ 0.000768 := by
  have hpi := pi_gt_d6
  have hpi' := pi_lt_d6
  obtain ⟨top, rest, hrest, rfl⟩ : ∃ top rest, rest < 2 ^ 27 ∧ residue = top * 2 ^ 27 + rest :=
    ⟨residue / 2 ^ 27, residue % 2 ^ 27, Nat.mod_lt _ (by decide), (Nat.div_add_mod' _ _).symm⟩
  have htop : (top : ℝ) ≤ 255 := by
    have hle : top ≤ 255 := by omega
    exact_mod_cast hle
  have hdiv : (top * 2 ^ 27 + rest) / 2 ^ 27 = top := by omega
  have hdelta : 256 * deltaNat (top * 2 ^ 27 + rest) ≤ 201 * top + 128 ∧
      201 * top + 128 ≤ 256 * deltaNat (top * 2 ^ 27 + rest) + 255 := by
    rw [deltaNat, hdiv]
    omega
  generalize deltaNat (top * 2 ^ 27 + rest) = d at hdelta
  have hd : (256 * d : ℝ) ≤ 201 * top + 128 := by exact_mod_cast hdelta.1
  have hd' : (201 * top + 128 : ℝ) ≤ 256 * d + 255 := by exact_mod_cast hdelta.2
  have htop0 : (0 : ℝ) ≤ top := Nat.cast_nonneg top
  -- the part of the residue that is left out
  obtain ⟨part, hpart⟩ : ∃ part : ℝ, ((top * 2 ^ 27 + rest : ℕ) : ℝ) + e = (top + part) * 2 ^ 27 ∧
      0 ≤ part ∧ part ≤ 1 := by
    have hrest' : (rest : ℝ) + 1 ≤ 2 ^ 27 := by exact_mod_cast hrest
    have hrest0 : (0 : ℝ) ≤ rest := Nat.cast_nonneg rest
    refine ⟨(rest + e) / 2 ^ 27, ?_, by positivity, ?_⟩
    · push_cast
      ring
    · rw [div_le_one (by positivity)]
      linarith
  obtain ⟨hpart, hpart0, hpart1⟩ := hpart
  have hangle : ((top * 2 ^ 27 + rest : ℕ) + e) * step = (top + part) * (π / 4) / 2 ^ 18 := by
    rw [hpart, step]
    ring
  have hlower : top * (3.141592 / 4) ≤ (top + part) * (π / 4) := by
    apply mul_le_mul <;> linarith
  have hupper : (top + part) * (π / 4) ≤ (top + 1) * (3.141593 / 4) := by
    apply mul_le_mul <;> linarith
  rw [hangle, ← sub_div, abs_div, abs_of_nonneg (show (0 : ℝ) ≤ 2 ^ 18 by positivity),
    abs_of_nonneg (show 0 ≤ (top + part) * (π / 4) / 2 ^ 18 by positivity)]
  constructor
  · apply div_le_div_of_nonneg_right _ (by positivity)
    rw [abs_le]
    constructor <;> linarith
  · rw [div_le_iff₀ (by positivity)]
    linarith

/-! ### Accuracy -/

/-- What the table is to hold: the scaled cosine and sine of the angles of an octant, off by no more
than their rounding and a little. -/
structure Accurate (table : Table) : Prop where
  cos (k : BitVec 10) :
    |(((table k).extractLsb' 0 18).toNat : ℝ) - 262136 * cos (π / 4096 * k.toNat)| ≤ 0.501
  sin (k : BitVec 10) :
    |(((table k).extractLsb' 18 18).toNat : ℝ) - 262136 * sin (π / 4096 * k.toNat)| ≤ 0.501

/-- Halving and rounding adds half a unit. -/
theorem half_close {v : ℤ} {x : ℝ} (h : |v / 2 ^ 18 - x| < 2) :
    |(((v + 2 ^ 18) / 2 ^ 19 : ℤ) : ℝ) - x / 2| < 3 / 2 := by
  have hlow : (2 ^ 19 * ((v + 2 ^ 18) / 2 ^ 19 : ℤ) : ℝ) ≤ v + 2 ^ 18 := by
    exact_mod_cast Int.mul_ediv_self_le (by decide : (2 ^ 19 : ℤ) ≠ 0)
  have hhigh : (v + 2 ^ 18 : ℝ) < 2 ^ 19 * ((v + 2 ^ 18) / 2 ^ 19 : ℤ) + 2 ^ 19 := by
    exact_mod_cast Int.lt_mul_ediv_self_add (by decide : (0 : ℤ) < 2 ^ 19)
  rw [abs_lt] at h ⊢
  constructor <;> linarith

theorem fits_of_close {q : ℤ} {x : ℝ} (h : |(q : ℝ) - 131068 * x| < 3 / 2) (hx : |x| ≤ 1) :
    -2 ^ 17 < q ∧ q < 2 ^ 17 := by
  rw [abs_lt] at h
  rw [abs_le] at hx
  constructor
  · have hlow : ((-2 ^ 17 : ℤ) : ℝ) < q := by
      push_cast
      linarith
    exact_mod_cast hlow
  · have hhigh : (q : ℝ) < ((2 ^ 17 : ℤ) : ℝ) := by
      push_cast
      linarith
    exact_mod_cast hhigh

/-- All that the interpolation is off by. -/
theorem error_lt {residue : ℕ} {e : ℝ} (hresidue : residue < 2 ^ 35) (hlow : 0 ≤ e)
    (hhigh : e ≤ 1) :
    0.501 + deltaNat residue / 2 ^ 18 * 0.501 + 262136 *
      (|(residue + e) * step - deltaNat residue / 2 ^ 18| +
        Octants.bend (deltaNat residue / 2 ^ 18 +
          ((residue + e) * step - deltaNat residue / 2 ^ 18))) < 2 := by
  obtain ⟨herror, hangle⟩ := angle_error hresidue hlow hhigh
  have hdelta : (deltaNat residue : ℝ) ≤ 201 := by
    have hle : deltaNat residue ≤ 201 := by
      rw [deltaNat]
      omega
    exact_mod_cast hle
  rw [add_sub_cancel, Octants.bend, ← sq_abs]
  have hsquare := pow_le_pow_left₀ (abs_nonneg _) hangle 2
  have hcube := pow_le_pow_left₀ (abs_nonneg _) hangle 3
  linarith

theorem toInt_neg_cast {b : BitVec 18} (h : -2 ^ 17 < b.toInt) :
    ((-b).toInt : ℝ) = -(b.toInt : ℝ) := by
  rw [BitVec.toInt_neg_of_ne_intMin (fun hmin => absurd h (by rw [hmin]; decide)), Int.cast_neg]

section close
variable {table : Table} (htable : Accurate table) (angle : BitVec 48)
include htable

/-- What is looked up and refined is close in the first octant. -/
theorem refined_close :
    let raw := refined (bitsToCosSin (table (lookupAddr angle))) (deltaOf (residueOf angle))
    let x := Octants.fold (angle.extractLsb' 45 3).toNat ((angle.toNat % 2 ^ 45 : ℕ) * step)
    |(raw.cos.toInt : ℝ) - 131068 * cos x| < 3 / 2 ∧
      |(raw.sin.toInt : ℝ) - 131068 * sin x| < 3 / 2 := by
  intro raw x
  obtain ⟨e, hlow, hhigh, hx⟩ := fold_phase angle
  obtain ⟨hcos, hsin⟩ := bitsToCosSin_toInt (table (lookupAddr angle))
  have herror := error_lt (residueOf angle).isLt hlow hhigh
  have hx' : x = π / 4096 * (lookupAddr angle).toNat + (deltaNat (residueOf angle).toNat / 2 ^ 18 +
      (((residueOf angle).toNat + e) * step - deltaNat (residueOf angle).toNat / 2 ^ 18)) := by
    rw [add_sub_cancel]
    exact hx
  have hclose := (Octants.interpolate_cos (htable.cos (lookupAddr angle))
    (htable.sin (lookupAddr angle)) (by norm_num) (by positivity)).trans_lt herror
  have hclose' := (Octants.interpolate_sin (htable.cos (lookupAddr angle))
    (htable.sin (lookupAddr angle)) (by norm_num) (by positivity)).trans_lt herror
  rw [← hx'] at hclose hclose'
  have hcosHalf := half_close (v := 2 ^ 18 * ((table (lookupAddr angle)).extractLsb' 0 18).toNat -
      deltaNat (residueOf angle).toNat * ((table (lookupAddr angle)).extractLsb' 18 18).toNat)
    (x := 262136 * cos x) (by
      refine lt_of_eq_of_lt (congrArg abs ?_) hclose
      push_cast
      ring)
  have hsinHalf := half_close (v := 2 ^ 18 * ((table (lookupAddr angle)).extractLsb' 18 18).toNat +
      deltaNat (residueOf angle).toNat * ((table (lookupAddr angle)).extractLsb' 0 18).toNat)
    (x := 262136 * sin x) (by
      refine lt_of_eq_of_lt (congrArg abs ?_) hclose'
      push_cast
      ring)
  rw [mul_div_right_comm, show (262136 / 2 : ℝ) = 131068 by norm_num] at hcosHalf hsinHalf
  have hcosFits := fits_of_close hcosHalf (abs_cos_le_one x)
  have hsinFits := fits_of_close hsinHalf (abs_sin_le_one x)
  have hdelta := deltaOf_toInt (residueOf angle)
  rw [← refined_cos hcos hsin hdelta ⟨hcosFits.1.le, hcosFits.2⟩] at hcosHalf
  rw [← refined_sin hcos hsin hdelta ⟨hsinFits.1.le, hsinFits.2⟩] at hsinHalf
  exact ⟨hcosHalf, hsinHalf⟩

/-- The cosine and the sine of a phase. -/
theorem cosSin_close :
    |((cosSin table angle).cos.toInt : ℝ) - 131068 * cos (2 * π * (angle.toNat / 2 ^ 48))| < 3 / 2 ∧
      |((cosSin table angle).sin.toInt : ℝ) - 131068 * sin (2 * π * (angle.toNat / 2 ^ 48))| <
        3 / 2 := by
  obtain ⟨hcos, hsin⟩ := refined_close htable angle
  have hoctant : (angle.extractLsb' 45 3).toNat < 8 := (angle.extractLsb' 45 3).isLt
  have hangle : ((angle.extractLsb' 45 3).toNat : ℝ) * (π / 4) +
      (angle.toNat % 2 ^ 45 : ℕ) * step = 2 * π * (angle.toNat / 2 ^ 48) := by
    have hsum : (2 ^ 45 * (angle.toNat / 2 ^ 45 : ℕ) + (angle.toNat % 2 ^ 45 : ℕ) : ℝ) =
        angle.toNat := by
      exact_mod_cast Nat.div_add_mod angle.toNat (2 ^ 45)
    rw [octant_toNat, ← hsum, step]
    ring
  have hplaced := Octants.place_close hcos hsin (angle.extractLsb' 45 3).toNat
  rw [Octants.place_map (fun b : BitVec 18 => (b.toInt : ℝ))
      (toInt_neg_cast (fits_of_close hcos (abs_cos_le_one _)).1)
      (toInt_neg_cast (fits_of_close hsin (abs_sin_le_one _)).1),
    Octants.place_map (fun x : ℝ => 131068 * x) (mul_neg _ _) (mul_neg _ _),
    Octants.place_fold hoctant, hangle] at hplaced
  exact hplaced

end close

/-- A value of the table, rounded to the nearest. -/
noncomputable def stored (x : ℝ) : BitVec 18 := BitVec.ofNat 18 ⌊262136 * x + 1 / 2⌋₊

theorem stored_close {x : ℝ} (hlow : 0 ≤ x) (hhigh : x ≤ 1) :
    |((stored x).toNat : ℝ) - 262136 * x| ≤ 0.501 := by
  have hfloor := Nat.floor_le (show 0 ≤ 262136 * x + 1 / 2 by linarith)
  have hlt := Nat.lt_floor_add_one (262136 * x + 1 / 2)
  have hfits : ⌊262136 * x + 1 / 2⌋₊ < 2 ^ 18 := by
    rw [Nat.floor_lt (by linarith)]
    norm_num
    linarith
  rw [stored, BitVec.toNat_ofNat, Nat.mod_eq_of_lt hfits, abs_le]
  constructor <;> linarith

/-- The table of the rounded values. -/
noncomputable def roundedTable : Table := fun k =>
  stored (sin (π / 4096 * k.toNat)) ++ stored (cos (π / 4096 * k.toNat))

theorem roundedTable_accurate : Accurate roundedTable := by
  have hangle : ∀ k : BitVec 10, 0 ≤ π / 4096 * k.toNat ∧ π / 4096 * k.toNat ≤ π / 2 := by
    intro k
    have hlt : (k.toNat : ℝ) ≤ 1024 := by exact_mod_cast k.isLt.le
    have hpi := pi_pos
    constructor
    · positivity
    · nlinarith
  constructor
  · intro k
    have hcos := cos_nonneg_of_neg_pi_div_two_le_of_le
      ((neg_nonpos_of_nonneg pi_div_two_pos.le).trans (hangle k).1) (hangle k).2
    rw [roundedTable, BitVec.extractLsb'_append_eq_right]
    exact stored_close hcos (cos_le_one _)
  · intro k
    have hsin := sin_nonneg_of_nonneg_of_le_pi (hangle k).1
      ((hangle k).2.trans (half_le_self pi_pos.le))
    rw [roundedTable, BitVec.extractLsb'_append_eq_left]
    exact stored_close hsin (sin_le_one _)

/-- The cosine and the sine that come out are those of the sum of the phase advances since the
reset. -/
theorem nco_accurate {table : Table} (htable : Accurate table) {input : ℕ → BitVec 48 × Bool}
    {s n : ℕ} (hreset : (input s).2 = true) (hnone : ∀ j < n, (input (s + 1 + j)).2 = false) :
    let turns : ℝ := (∑ j ∈ Finset.range n, (input (s + 1 + j)).1.toNat : ℕ) / 2 ^ 48
    |((Core.run table input (s + n + 16)).cosSinO.cos.toInt : ℝ) - 131068 * cos (2 * π * turns)| <
        3 / 2 ∧
      |((Core.run table input (s + n + 16)).cosSinO.sin.toInt : ℝ) - 131068 * sin (2 * π * turns)| <
        3 / 2 := by
  intro turns
  have hclose := cosSin_close htable (phaseAt table input (s + 3 + n))
  have hturns : turns = (phaseAt table input (s + 3 + n)).toNat / 2 ^ 48 +
      ((∑ j ∈ Finset.range n, (input (s + 1 + j)).1.toNat) / 2 ^ 48 : ℕ) := by
    have hsum := Nat.mod_add_div (∑ j ∈ Finset.range n, (input (s + 1 + j)).1.toNat) (2 ^ 48)
    rw [phase_sum table input hreset hnone, BitVec.toNat_ofNat]
    simp only [turns]
    nth_rewrite 1 [← hsum]
    push_cast
    ring
  rw [← core_cosSin, show s + 3 + n + 13 = s + n + 16 by ring] at hclose
  rw [hturns, mul_add, mul_comm (2 * π) (_ : ℕ), cos_add_nat_mul_two_pi, sin_add_nat_mul_two_pi]
  exact hclose

/-- An eighth of a turn on each clock, from a reset on the first. -/
theorem nco_accurate_eighth :
    |((Core.run roundedTable (fun t => (2 ^ 45, t == 0)) 19).cosSinO.cos.toInt : ℝ) -
        131068 * cos (2 * π * (3 / 8))| < 3 / 2 ∧
      |((Core.run roundedTable (fun t => (2 ^ 45, t == 0)) 19).cosSinO.sin.toInt : ℝ) -
        131068 * sin (2 * π * (3 / 8))| < 3 / 2 := by
  have haccurate := @nco_accurate roundedTable roundedTable_accurate
    (fun t => (2 ^ 45, t == 0)) 0 3 rfl (by decide)
  have hsum : (∑ j ∈ Finset.range 3, ((2 ^ 45 : BitVec 48), 0 + 1 + j == 0).1.toNat) =
      3 * 2 ^ 45 := by
    decide
  have hturns : ((3 * 2 ^ 45 : ℕ) : ℝ) / 2 ^ 48 = 3 / 8 := by norm_num
  rw [hsum, hturns] at haccurate
  exact haccurate

end Mbf.Nco
