import Mathlib.Algebra.BigOperators.Group.List.Basic
import Mbf.Lib.Extremum
import Mbf.Lib.Literals
import Mbf.Lib.Signed

/-! # The update of a min/max/sum row

`min_max_sum_update` takes the row of a bunch and a sample of the bunch, and gives out the row with
the sample in it two clocks later (`update_mmsO`).  One clock after that it tells if one of the sums
has wrapped (`update_sumOverflow`, `update_sum2Overflow`). -/

namespace Mbf.Mms

/-! ### Rows -/

/-- `mms_row_t`. -/
structure MmsRow where
  min : BitVec 16
  max : BitVec 16
  sum : BitVec 32
  sum2 : BitVec 48

/-- `mms_reset_value`. -/
def mmsResetValue : MmsRow where
  min := 0x7FFF
  max := 0x8000
  sum := 0
  sum2 := 0

/-- What a row of the block memory is before it is written. -/
def mmsRowZero : MmsRow := ⟨0, 0, 0, 0⟩

/-! ### The circuit -/

/-- The registers of `min_max_sum_update`. -/
structure MinMaxSumUpdate where
  dataIn : BitVec 16
  dataDelay : BitVec 16
  mms : MmsRow
  mmsO : MmsRow
  product : BitVec 32
  dataSmall : Bool
  dataLarge : Bool
  oldSumTop : BitVec 2
  oldSum2Top : Bool
  sumOverflow : Bool
  sumOverflowO : Bool
  sum2OverflowO : Bool
  deltaO : BitVec 16

namespace MinMaxSumUpdate

def initial : MinMaxSumUpdate where
  dataIn := 0
  dataDelay := 0
  mms := mmsResetValue
  mmsO := mmsResetValue
  product := 0
  dataSmall := false
  dataLarge := false
  oldSumTop := 0
  oldSum2Top := false
  sumOverflow := false
  sumOverflowO := false
  sum2OverflowO := false
  deltaO := 0

/-- `delta_sum_top` -/
def deltaSumTop (u : MinMaxSumUpdate) : BitVec 4 := u.oldSumTop ++ u.mms.sum.extractLsb' 30 2

/-- One clock of `min_max_sum_update`. -/
def clock (u : MinMaxSumUpdate) (data : BitVec 16) (mmsI : MmsRow) : MinMaxSumUpdate where
  dataIn := data
  dataDelay := u.dataIn
  dataSmall := u.dataIn.slt mmsI.min
  dataLarge := mmsI.max.slt u.dataIn
  product := u.dataIn.signExtend 32 * u.dataIn.signExtend 32
  mms :=
    { min := mmsI.min
      max := mmsI.max
      sum := mmsI.sum + u.dataIn.signExtend 32
      sum2 := mmsI.sum2 }
  mmsO :=
    { min := if u.dataSmall then u.dataDelay else u.mms.min
      max := if u.dataLarge then u.dataDelay else u.mms.max
      sum := u.mms.sum
      sum2 := u.product.signExtend 48 + u.mms.sum2 }
  deltaO := u.mmsO.max - u.mmsO.min
  oldSumTop := mmsI.sum.extractLsb' 30 2
  sumOverflow := decide (u.deltaSumTop = 0b0110 ∨ u.deltaSumTop = 0b1001)
  sumOverflowO := u.sumOverflow
  oldSum2Top := u.mms.sum2.getLsbD 47
  sum2OverflowO := u.oldSum2Top && !u.mmsO.sum2.getLsbD 47

end MinMaxSumUpdate

/-! ### What a row is -/

/-- The row with one more sample. -/
def MmsRow.update (row : MmsRow) (data : BitVec 16) : MmsRow where
  min := if data.slt row.min then data else row.min
  max := if row.max.slt data then data else row.max
  sum := row.sum + BitVec.ofInt 32 data.toInt
  sum2 := row.sum2 + BitVec.ofInt 48 (data.toInt * data.toInt)

/-- The row of some samples. -/
def rowOf (samples : List (BitVec 16)) : MmsRow := samples.foldl MmsRow.update mmsResetValue

/-- The sum of a row wraps with the sample. -/
def MmsRow.SumWraps (row : MmsRow) (data : BitVec 16) : Prop :=
  ¬ Signed.Fits 32 (row.sum.toInt + data.toInt)

/-- The sum of the squares of a row wraps with the sample. -/
def MmsRow.Sum2Wraps (row : MmsRow) (data : BitVec 16) : Prop :=
  2 ^ 48 ≤ (row.sum2.toNat : ℤ) + data.toInt * data.toInt

section rows
variable {samples : List (BitVec 16)}

theorem foldl_update_sum (row : MmsRow) : (samples.foldl MmsRow.update row).sum =
    row.sum + BitVec.ofInt 32 (samples.map BitVec.toInt).sum := by
  induction samples generalizing row with
  | nil => exact (BitVec.add_zero _).symm
  | cons data samples ih =>
      rw [List.foldl_cons, ih, List.map_cons, List.sum_cons, BitVec.ofInt_add, ← BitVec.add_assoc]
      rfl

theorem foldl_update_sum2 (row : MmsRow) : (samples.foldl MmsRow.update row).sum2 =
    row.sum2 + BitVec.ofInt 48 (samples.map fun data => data.toInt * data.toInt).sum := by
  induction samples generalizing row with
  | nil => exact (BitVec.add_zero _).symm
  | cons data samples ih =>
      rw [List.foldl_cons, ih, List.map_cons, List.sum_cons, BitVec.ofInt_add, ← BitVec.add_assoc]
      rfl

theorem update_min_toInt (row : MmsRow) (data : BitVec 16) :
    (row.update data).min.toInt = min row.min.toInt data.toInt := by
  have hless : data.slt row.min = decide (data.toInt < row.min.toInt) := rfl
  show (if data.slt row.min then data else row.min).toInt = _
  rw [hless]
  by_cases h : data.toInt < row.min.toInt
  · rw [decide_eq_true h, if_pos rfl, min_eq_right h.le]
  · rw [decide_eq_false h, if_neg Bool.false_ne_true, min_eq_left (not_lt.mp h)]

theorem update_max_toInt (row : MmsRow) (data : BitVec 16) :
    (row.update data).max.toInt = max row.max.toInt data.toInt := by
  have hless : row.max.slt data = decide (row.max.toInt < data.toInt) := rfl
  show (if row.max.slt data then data else row.max).toInt = _
  rw [hless]
  by_cases h : row.max.toInt < data.toInt
  · rw [decide_eq_true h, if_pos rfl, max_eq_right h.le]
  · rw [decide_eq_false h, if_neg Bool.false_ne_true, max_eq_left (not_lt.mp h)]

theorem foldl_update_min (row : MmsRow) : (samples.foldl MmsRow.update row).min.toInt =
    (samples.map BitVec.toInt).foldl min row.min.toInt := by
  induction samples generalizing row with
  | nil => rfl
  | cons data samples ih => rw [List.foldl_cons, ih, List.map_cons, List.foldl_cons, update_min_toInt]

theorem foldl_update_max (row : MmsRow) : (samples.foldl MmsRow.update row).max.toInt =
    (samples.map BitVec.toInt).foldl max row.max.toInt := by
  induction samples generalizing row with
  | nil => rfl
  | cons data samples ih => rw [List.foldl_cons, ih, List.map_cons, List.foldl_cons, update_max_toInt]

/-- The row of some samples holds their extremes and, in their widths, their sums. -/
theorem rowOf_spec (h : samples ≠ []) :
    IsLeast {x | x ∈ samples.map BitVec.toInt} (rowOf samples).min.toInt ∧
      IsGreatest {x | x ∈ samples.map BitVec.toInt} (rowOf samples).max.toInt ∧
      (rowOf samples).sum = BitVec.ofInt 32 (samples.map BitVec.toInt).sum ∧
      (rowOf samples).sum2 =
        BitVec.ofInt 48 (samples.map fun data => data.toInt * data.toInt).sum := by
  obtain ⟨data, hdata⟩ := List.exists_mem_of_ne_nil samples h
  have hmem : data.toInt ∈ samples.map BitVec.toInt := List.mem_map_of_mem hdata
  have hlow := BitVec.le_toInt data
  have hhigh := BitVec.toInt_lt (x := data)
  refine ⟨?_, ?_, ?_, ?_⟩
  · rw [rowOf, foldl_update_min]
    refine (Extremum.isLeast_foldl_min_iff _ _).mpr ⟨_, hmem, ?_⟩
    show data.toInt ≤ 32767
    omega
  · rw [rowOf, foldl_update_max]
    refine (Extremum.isGreatest_foldl_max_iff _ _).mpr ⟨_, hmem, ?_⟩
    show -32768 ≤ data.toInt
    omega
  · rw [rowOf, foldl_update_sum]
    exact BitVec.zero_add _
  · rw [rowOf, foldl_update_sum2]
    exact BitVec.zero_add _

end rows

/-! ### Overflow detection -/

/-- The top bits of a sum. -/
theorem sumTop_toInt (sum : BitVec 32) : (sum.extractLsb' 30 2).toInt = sum.toInt / 2 ^ 30 :=
  Signed.top_toInt sum rfl (by decide)

theorem append_eq_iff : ∀ old new : BitVec 2,
    (old ++ new = 0b0110#4 ∨ old ++ new = 0b1001#4) ↔
      (old.toInt = 1 ∧ new.toInt = -2 ∨ old.toInt = -2 ∧ new.toInt = 1) := by decide

/-- The sum has wrapped if it has gone from the top to the bottom, or back. -/
theorem sumTop_wraps (row : MmsRow) (data : BitVec 16) :
    (row.sum.extractLsb' 30 2 ++ (row.update data).sum.extractLsb' 30 2 = 0b0110#4 ∨
      row.sum.extractLsb' 30 2 ++ (row.update data).sum.extractLsb' 30 2 = 0b1001#4) ↔
      row.SumWraps data := by
  have hdata₀ := BitVec.le_toInt data
  have hdata₁ := BitVec.toInt_lt (x := data)
  have hold₀ := BitVec.le_toInt row.sum
  have hold₁ := BitVec.toInt_lt (x := row.sum)
  have hnew₀ := BitVec.le_toInt (row.update data).sum
  have hnew₁ := BitVec.toInt_lt (x := (row.update data).sum)
  -- the new sum is off by one period at most
  have hsum : (row.update data).sum.toInt = (row.sum.toInt + data.toInt).bmod (2 ^ 32) := by
    show (row.sum + BitVec.ofInt 32 data.toInt).toInt = _
    rw [← BitVec.ofInt_toInt (x := row.sum), ← BitVec.ofInt_add, BitVec.toInt_ofInt,
      BitVec.ofInt_toInt]
  have hperiod := Int.bmod_add_bdiv (row.sum.toInt + data.toInt) (2 ^ 32)
  rw [← hsum] at hperiod
  rw [append_eq_iff, sumTop_toInt, sumTop_toInt, MmsRow.SumWraps, Signed.Fits]
  omega

/-- The square of a sample. -/
theorem square_bounds (data : BitVec 16) :
    0 ≤ data.toInt * data.toInt ∧ data.toInt * data.toInt ≤ 2 ^ 30 := by
  have h := Signed.toInt_mul_abs (by decide) (by decide) data data
  exact ⟨mul_self_nonneg _, (abs_le.mp h).2⟩

/-- The sum of squares has wrapped if its top bit has gone. -/
theorem sum2Top_wraps (row : MmsRow) (data : BitVec 16) :
    (row.sum2.getLsbD 47 = true ∧ (row.update data).sum2.getLsbD 47 = false) ↔
      row.Sum2Wraps data := by
  obtain ⟨hlow, hhigh⟩ := square_bounds data
  have htop : ∀ x : BitVec 48, x.getLsbD 47 = decide (2 ^ 47 ≤ x.toNat) := fun x =>
    BitVec.msb_eq_decide x
  have hnew : ((row.update data).sum2.toNat : ℤ) =
      ((row.sum2.toNat : ℤ) + data.toInt * data.toInt) % 2 ^ 48 := by
    have hcast : row.sum2 = BitVec.ofInt 48 row.sum2.toNat := by
      rw [BitVec.ofInt_natCast, BitVec.ofNat_toNat, BitVec.setWidth_eq]
    show ((row.sum2 + BitVec.ofInt 48 _).toNat : ℤ) = _
    rw [hcast, ← BitVec.ofInt_add, ← hcast, BitVec.toNat_ofInt]
    exact Int.toNat_of_nonneg (Int.emod_nonneg _ (by decide))
  have hold := row.sum2.isLt
  rw [htop, htop, decide_eq_true_iff, decide_eq_false_iff_not, MmsRow.Sum2Wraps]
  omega

/-! ### The pipeline -/

section run
variable {u : ℕ → MinMaxSumUpdate} {data : ℕ → BitVec 16} {mmsI : ℕ → MmsRow}

/-- A row goes through with a sample in it. -/
theorem update_mmsO (h : ∀ t, u (t + 1) = (u t).clock (data t) (mmsI t)) (t : ℕ) :
    (u (t + 3)).mmsO = (mmsI (t + 1)).update (data t) := by
  have hdata : (u (t + 1)).dataIn = data t := by
    rw [h]
    rfl
  have hproduct : ((data t).signExtend 32 * (data t).signExtend 32).signExtend 48 =
      BitVec.ofInt 48 ((data t).toInt * (data t).toInt) := by
    rw [BitVec.signExtend, show ((data t).signExtend 32 * (data t).signExtend 32).toInt = _ from
      Signed.product (by decide) (by decide) (data t) (data t)]
  rw [h, h, ← hdata, MmsRow.update, hdata, ← hproduct, BitVec.add_comm (mmsI (t + 1)).sum2, ← hdata]
  rfl

theorem update_sumOverflow (h : ∀ t, u (t + 1) = (u t).clock (data t) (mmsI t)) (t : ℕ) :
    (u (t + 4)).sumOverflowO = true ↔ (mmsI (t + 1)).SumWraps (data t) := by
  have hdata : (u (t + 1)).dataIn = data t := by
    rw [h]
    rfl
  rw [← sumTop_wraps, h, h, h, ← hdata]
  exact decide_eq_true_iff

theorem update_sum2Overflow (h : ∀ t, u (t + 1) = (u t).clock (data t) (mmsI t)) (t : ℕ) :
    (u (t + 4)).sum2OverflowO = true ↔ (mmsI (t + 1)).Sum2Wraps (data t) := by
  have hold : (u (t + 3)).oldSum2Top = (mmsI (t + 1)).sum2.getLsbD 47 := by
    rw [h, h]
    rfl
  rw [← sum2Top_wraps, ← update_mmsO h, ← hold, h (t + 3)]
  exact Bool.and_eq_true_iff.trans (and_congr_right' (iff_of_eq (Bool.not_eq_true' _)))

end run

end Mbf.Mms
