import Mathlib.Data.Nat.Size
import Mathlib.Tactic.Linarith
import Mathlib.Tactic.Positivity
import Mbf.Lib.Signed
import Mbf.Util

/-! # One tap of the bunch by bunch filter

`bunch_fir_dsp` multiplies a sample with a tap and adds the product to what comes in on `accum_i`.
The accumulator is wider than its input and output: below are the bits that are rounded away, and
above some headroom.  So a tap adds the rounded product (`BunchFirDsp.accumO_stage`), and where the
result does not fit, its overflow flag tells, if there is any headroom above it to look at
(`BunchFirDsp.stage_exact`). -/

namespace Mbf.Fir

/-! ### The circuit -/

/-- `bits` -/
def bits (x : ℕ) : ℕ := x.size

/-- The generics and the widths of the ports; there are `lastTap + 1` taps. -/
structure FirGenerics where
  dataInWidth : ℕ
  tapWidth : ℕ
  dataOutWidth : ℕ
  lastTap : ℕ
  headroomOffset : ℕ

namespace FirGenerics

variable (g : FirGenerics)

def tapCount : ℕ := g.lastTap + 1

def headroom : ℕ := bits g.tapCount - 1

def productWidth : ℕ := g.tapWidth + g.dataInWidth

def accumWidth : ℕ := g.productWidth + g.headroom

def roundOffset : ℕ := g.accumWidth - g.headroomOffset - g.dataOutWidth - 1

/-- What the design asserts, where `ROUND_OFFSET` is a natural number and no port is empty. -/
structure Assertions : Prop where
  tapWidth_le : g.tapWidth ≤ 25
  dataInWidth_le : g.dataInWidth ≤ 18
  accumWidth_le : g.accumWidth ≤ 48
  dataOutWidth_lt : g.dataOutWidth < g.accumWidth
  roundOffset_nonneg : g.headroomOffset + g.dataOutWidth + 1 ≤ g.accumWidth
  tapWidth_pos : 0 < g.tapWidth
  dataInWidth_pos : 0 < g.dataInWidth
  dataOutWidth_pos : 0 < g.dataOutWidth

/-- `accum_in` -/
def accumIn (accumI : BitVec g.dataOutWidth) : BitVec g.accumWidth :=
  (accumI.signExtend (g.dataOutWidth + g.headroomOffset) ++ 1#1 ++ 0#g.roundOffset).setWidth
    g.accumWidth

end FirGenerics

/-- The registers of `bunch_fir_dsp`. -/
structure BunchFirDsp (g : FirGenerics) where
  tapIn : BitVec g.tapWidth
  dataIn : BitVec g.dataInWidth
  product : BitVec g.productWidth
  accum : BitVec g.accumWidth
  accumOut : BitVec g.accumWidth
  overflowO : Bool

namespace BunchFirDsp

variable {g : FirGenerics}

def initial (g : FirGenerics) : BunchFirDsp g where
  tapIn := 0
  dataIn := 0
  product := 0
  accum := 0
  accumOut := 0
  overflowO := false

/-- `accum_o` -/
def accumO (d : BunchFirDsp g) : BitVec g.dataOutWidth :=
  d.accumOut.extractLsb' (g.roundOffset + 1) g.dataOutWidth

/-- One clock of `bunch_fir_dsp`. -/
def clock (d : BunchFirDsp g) (tapI : BitVec g.tapWidth) (dataI : BitVec g.dataInWidth)
    (accumI : BitVec g.dataOutWidth) : BunchFirDsp g where
  tapIn := tapI
  dataIn := dataI
  product := d.tapIn.signExtend g.productWidth * d.dataIn.signExtend g.productWidth
  accum := g.accumIn accumI
  accumOut := d.accum + d.product.signExtend g.accumWidth
  overflowO := overflowDetect
    (d.accumOut.extractLsb' (g.accumWidth - g.headroomOffset - 1) (g.headroomOffset + 1))

end BunchFirDsp

/-! ### Rounding -/

namespace FirGenerics

variable (g : FirGenerics)

/-- The nearest multiple of the last bit of the output. -/
def rounded (product : ℤ) : ℤ := (product + 2 ^ g.roundOffset) / 2 ^ (g.roundOffset + 1)

/-- Rounding is off by half of the last bit at most. -/
theorem rounded_error (product : ℤ) :
    |product - 2 ^ (g.roundOffset + 1) * g.rounded product| ≤ 2 ^ g.roundOffset := by
  have hpos : (0 : ℤ) < 2 ^ g.roundOffset := Int.pow_pos (by decide)
  have hmod := Int.emod_add_mul_ediv (product + 2 ^ g.roundOffset) (2 ^ (g.roundOffset + 1))
  have hlow := Int.emod_nonneg (product + 2 ^ g.roundOffset)
    (pow_ne_zero (g.roundOffset + 1) (by decide : (2 : ℤ) ≠ 0))
  have hhigh := Int.emod_lt_of_pos (product + 2 ^ g.roundOffset)
    (Int.pow_pos (by decide) : (0 : ℤ) < 2 ^ (g.roundOffset + 1))
  rw [abs_le, rounded]
  rw [pow_succ] at hmod hhigh hlow ⊢
  constructor <;> linarith

/-- The accumulator is made up of the output, the bits that are rounded away, and the headroom. -/
theorem accumWidth_eq (hg : g.Assertions) :
    g.dataOutWidth + g.headroomOffset + 1 + g.roundOffset = g.accumWidth := by
  have h := hg.roundOffset_nonneg
  unfold roundOffset
  omega

/-- What comes in, with half of its last bit. -/
theorem accumIn_toInt (hg : g.Assertions) (accumI : BitVec g.dataOutWidth) :
    (g.accumIn accumI).toInt = accumI.toInt * 2 ^ (g.roundOffset + 1) + 2 ^ g.roundOffset := by
  have hpos := hg.dataOutWidth_pos
  have hextend : (accumI.signExtend (g.dataOutWidth + g.headroomOffset)).toInt = accumI.toInt :=
    BitVec.toInt_signExtend_of_le (Nat.le_add_right _ _)
  have hwidth : ∀ {n : ℕ} (x : BitVec n), n = g.accumWidth →
      (x.setWidth g.accumWidth).toInt = x.toInt := by
    intro n x hn
    subst hn
    rw [BitVec.setWidth_eq]
  have hne : (g.dataOutWidth + g.headroomOffset == 0) = false := by
    rw [beq_eq_false_iff_ne]
    omega
  rw [accumIn, hwidth _ (g.accumWidth_eq hg), BitVec.toInt_append_zero, BitVec.toInt_append, hne,
    if_neg Bool.false_ne_true, hextend, pow_succ]
  show 2 ^ g.roundOffset * (2 ^ 1 * accumI.toInt + 1) = _
  ring

/-! ### Without headroom -/

/-- The headroom of the accumulator holds the sum of the products of all taps.  If it is all given
to the output, that is so except where the output is just as wide as the number of taps. -/
def Roomy : Prop := g.headroomOffset = 0 → g.dataOutWidth ≠ bits g.tapCount

/-- The greatest product, in the last bit of the output. -/
def productLimit : ℕ := 2 ^ (g.productWidth - 2) / 2 ^ (g.roundOffset + 1)

theorem headroom_eq : g.headroom + 1 = bits g.tapCount := by
  have hpos : 0 < bits g.tapCount := Nat.size_pos.mpr (Nat.succ_pos g.lastTap)
  unfold headroom
  omega

theorem Roomy.roundOffset_ne {g : FirGenerics} (h : g.Roomy) (hg : g.Assertions)
    (hnone : g.headroomOffset = 0) : g.roundOffset + 2 ≠ g.productWidth := by
  have hwidth := g.accumWidth_eq hg
  have hbits := g.headroom_eq
  have hne := h hnone
  unfold accumWidth at hwidth
  omega

/-- A product is rounded to the limit at most. -/
theorem rounded_le (hne : g.roundOffset + 2 ≠ g.productWidth) (hpos : 2 ≤ g.productWidth)
    {product : ℤ} (h : |product| ≤ 2 ^ (g.productWidth - 2)) :
    |g.rounded product| ≤ g.productLimit := by
  obtain ⟨hlow, hhigh⟩ := abs_le.mp h
  have hround : (0 : ℤ) < 2 ^ g.roundOffset := Int.pow_pos (by decide)
  have hstep : (0 : ℤ) < 2 ^ (g.roundOffset + 1) := Int.pow_pos (by decide)
  have hdouble : (2 : ℤ) ^ (g.roundOffset + 1) = 2 ^ g.roundOffset + 2 ^ g.roundOffset := by
    rw [pow_succ, mul_two]
  rw [abs_le, rounded, Int.le_ediv_iff_mul_le hstep,
    ← Int.lt_add_one_iff (a := (product + 2 ^ g.roundOffset) / 2 ^ (g.roundOffset + 1)),
    Int.ediv_lt_iff_lt_mul hstep, productLimit]
  rcases Nat.lt_or_gt_of_ne hne with hless | hmore
  · -- the limit is exact
    have hsplit : (2 : ℕ) ^ (g.productWidth - 2) =
        2 ^ (g.productWidth - 3 - g.roundOffset) * 2 ^ (g.roundOffset + 1) := by
      rw [← pow_add]
      congr 1
      omega
    have hlimit : (2 : ℤ) ^ (g.productWidth - 2) =
        2 ^ (g.productWidth - 3 - g.roundOffset) * 2 ^ (g.roundOffset + 1) := by
      exact_mod_cast hsplit
    rw [hsplit, Nat.mul_div_cancel _ (by positivity), neg_mul, add_mul, one_mul]
    push_cast
    rw [← hlimit]
    constructor <;> linarith
  · -- a product is less than half of the last bit
    have hsmall : (2 : ℤ) ^ (g.productWidth - 2) < 2 ^ g.roundOffset :=
      pow_lt_pow_right₀ (by decide) (by omega)
    have hzero : 2 ^ (g.productWidth - 2) / 2 ^ (g.roundOffset + 1) = 0 :=
      Nat.div_eq_of_lt (Nat.pow_lt_pow_right (by decide) (by omega))
    rw [hzero, Nat.cast_zero, neg_zero, zero_mul, zero_add, one_mul]
    constructor <;> linarith

/-- The sum of the products of all taps fits in the output. -/
theorem limit_lt (hg : g.Assertions) (hroomy : g.Roomy) (hnone : g.headroomOffset = 0) :
    g.tapCount * g.productLimit < 2 ^ (g.dataOutWidth - 1) := by
  have hwidth := g.accumWidth_eq hg
  have hbits := g.headroom_eq
  have hne := hroomy.roundOffset_ne hg hnone
  have hout := hg.dataOutWidth_pos
  unfold accumWidth at hwidth
  rw [productLimit]
  rcases Nat.lt_or_gt_of_ne hne with hless | hmore
  · have hsplit : (2 : ℕ) ^ (g.productWidth - 2) =
        2 ^ (g.productWidth - 3 - g.roundOffset) * 2 ^ (g.roundOffset + 1) := by
      rw [← pow_add]
      congr 1
      omega
    have hout' : (2 : ℕ) ^ (g.dataOutWidth - 1) =
        2 ^ bits g.tapCount * 2 ^ (g.productWidth - 3 - g.roundOffset) := by
      rw [← pow_add]
      congr 1
      omega
    rw [hsplit, Nat.mul_div_cancel _ (by positivity), hout']
    exact Nat.mul_lt_mul_of_pos_right (Nat.lt_size_self g.tapCount) (by positivity)
  · rw [Nat.div_eq_of_lt (Nat.pow_lt_pow_right (by decide) (by omega)), mul_zero]
    positivity

end FirGenerics

/-! ### A tap at work -/

namespace BunchFirDsp

variable {g : FirGenerics} {dsp : ℕ → BunchFirDsp g} {tapI : ℕ → BitVec g.tapWidth}
  {dataI : ℕ → BitVec g.dataInWidth} {accumI : ℕ → BitVec g.dataOutWidth}

/-- Without a product nothing is added. -/
theorem accumO_empty (hg : g.Assertions) {d : BunchFirDsp g} (hproduct : d.product = 0)
    (haccum : d.accum = 0 ∨ d.accum = g.accumIn 0) (tapI : BitVec g.tapWidth)
    (dataI : BitVec g.dataInWidth) (accumI : BitVec g.dataOutWidth) :
    (d.clock tapI dataI accumI).accumO = 0 := by
  have hwidth := g.accumWidth_eq hg
  have hextend : (0 : BitVec g.productWidth).signExtend g.accumWidth = 0 := by
    rw [BitVec.signExtend, BitVec.ofNat_eq_ofNat, BitVec.toInt_zero]
    rfl
  have hout : (d.clock tapI dataI accumI).accumO =
      d.accum.extractLsb' (g.roundOffset + 1) g.dataOutWidth := by
    show (d.accum + d.product.signExtend g.accumWidth).extractLsb' _ _ = _
    rw [hproduct, hextend]
    exact congrArg (BitVec.extractLsb' _ _) (BitVec.add_zero d.accum)
  rw [hout]
  rcases haccum with hzero | hhalf
  · rw [hzero]
    exact BitVec.extractLsb'_zero
  · have hsmall : (2 : ℤ) ^ g.roundOffset / 2 ^ (g.roundOffset + 1) = 0 :=
      Int.ediv_eq_zero_of_lt (Int.pow_pos (by decide)).le
        (pow_lt_pow_right₀ (by decide) (Nat.lt_succ_self _))
    have hin : (g.accumIn 0).toInt = 2 ^ g.roundOffset := by
      rw [g.accumIn_toInt hg, BitVec.ofNat_eq_ofNat, BitVec.toInt_zero, zero_mul, zero_add]
    rw [hhalf, ← BitVec.ofInt_toInt (x := g.accumIn 0), Signed.extract_ofInt _ (by omega), hin,
      hsmall]
    rfl

/-- Three clocks after a sample its product has been added to what came in two clocks before. -/
theorem accumOut_eq (hg : g.Assertions)
    (hclock : ∀ t, dsp (t + 1) = (dsp t).clock (tapI t) (dataI t) (accumI t)) (t : ℕ) :
    (dsp (t + 3)).accumOut = BitVec.ofInt g.accumWidth
      ((accumI (t + 1)).toInt * 2 ^ (g.roundOffset + 1) +
        ((tapI t).toInt * (dataI t).toInt + 2 ^ g.roundOffset)) := by
  have hproduct : (dsp (t + 2)).product.toInt = (tapI t).toInt * (dataI t).toInt := by
    rw [hclock, hclock]
    exact Signed.product hg.tapWidth_pos hg.dataInWidth_pos _ _
  have haccum : (dsp (t + 2)).accum = g.accumIn (accumI (t + 1)) := by
    rw [hclock]
    rfl
  have hout : (dsp (t + 3)).accumOut =
      (dsp (t + 2)).accum + (dsp (t + 2)).product.signExtend g.accumWidth := by
    rw [hclock]
    rfl
  rw [hout, haccum, BitVec.signExtend, hproduct, ← BitVec.ofInt_toInt (x := g.accumIn _),
    g.accumIn_toInt hg, ← BitVec.ofInt_add]
  congr 1
  ring

/-- A tap adds the rounded product, in the width of the output. -/
theorem accumO_eq (hg : g.Assertions)
    (hclock : ∀ t, dsp (t + 1) = (dsp t).clock (tapI t) (dataI t) (accumI t)) (t : ℕ) :
    (dsp (t + 3)).accumO = BitVec.ofInt g.dataOutWidth
      ((accumI (t + 1)).toInt + g.rounded ((tapI t).toInt * (dataI t).toInt)) := by
  have hwidth := g.accumWidth_eq hg
  have hpow : (2 : ℤ) ^ (g.roundOffset + 1) ≠ 0 := pow_ne_zero _ (by decide)
  rw [accumO, accumOut_eq hg hclock, Signed.extract_ofInt _ (by omega), FirGenerics.rounded,
    add_comm (_ * _) (_ + _), Int.add_mul_ediv_right _ _ hpow, add_comm]

/-- A result that fits is exact. -/
theorem accumO_of_fits (hg : g.Assertions)
    (hclock : ∀ t, dsp (t + 1) = (dsp t).clock (tapI t) (dataI t) (accumI t)) (t : ℕ)
    (hfits : Signed.Fits g.dataOutWidth
      ((accumI (t + 1)).toInt + g.rounded ((tapI t).toInt * (dataI t).toInt))) :
    (dsp (t + 3)).accumO.toInt =
      (accumI (t + 1)).toInt + g.rounded ((tapI t).toInt * (dataI t).toInt) := by
  rw [accumO_eq hg hclock]
  exact BitVec.toInt_ofInt_eq_self hg.dataOutWidth_pos hfits.1 hfits.2

/-- With headroom above the output the accumulator does not overflow itself. -/
theorem accumOut_toInt (hg : g.Assertions) (hheadroom : 0 < g.headroomOffset)
    (hclock : ∀ t, dsp (t + 1) = (dsp t).clock (tapI t) (dataI t) (accumI t)) (t : ℕ) :
    (dsp (t + 3)).accumOut.toInt = (accumI (t + 1)).toInt * 2 ^ (g.roundOffset + 1) +
      ((tapI t).toInt * (dataI t).toInt + 2 ^ g.roundOffset) := by
  have hwidth := g.accumWidth_eq hg
  have hout := hg.dataOutWidth_pos
  have htap := hg.tapWidth_pos
  have hdata := hg.dataInWidth_pos
  have hproduct : g.productWidth ≤ g.accumWidth := Nat.le_add_right _ _
  have hroom : (2 : ℤ) ^ (g.accumWidth - 1) =
      2 ^ (g.accumWidth - 2) + 2 ^ (g.accumWidth - 2) := by
    rw [← two_mul, ← pow_succ']
    congr 1
    unfold FirGenerics.productWidth at hproduct
    omega
  -- the product takes a quarter of the range of the accumulator at most, as does the input
  obtain ⟨hlow, hhigh⟩ := abs_le.mp (Signed.toInt_mul_abs htap hdata (tapI t) (dataI t))
  have hquarter : (2 : ℤ) ^ (g.tapWidth + g.dataInWidth - 2) ≤ 2 ^ (g.accumWidth - 2) :=
    pow_le_pow_right₀ (by decide) (Nat.sub_le_sub_right hproduct 2)
  have haccum : (2 : ℤ) ^ (g.dataOutWidth - 1) * 2 ^ (g.roundOffset + 1) ≤
      2 ^ (g.accumWidth - 2) := by
    rw [← pow_add]
    exact pow_le_pow_right₀ (by decide) (by omega)
  have hstep : (0 : ℤ) < 2 ^ (g.roundOffset + 1) := Int.pow_pos (by decide)
  have hround : (0 : ℤ) < 2 ^ g.roundOffset := Int.pow_pos (by decide)
  have hin₀ := BitVec.le_toInt (accumI (t + 1))
  have hin₁ : (accumI (t + 1)).toInt ≤ 2 ^ (g.dataOutWidth - 1) - 1 :=
    Int.le_sub_one_of_lt BitVec.toInt_lt
  have hlow' := mul_le_mul_of_nonneg_right hin₀ hstep.le
  have hhigh' := mul_le_mul_of_nonneg_right hin₁ hstep.le
  rw [sub_mul, one_mul] at hhigh'
  rw [neg_mul] at hlow'
  have hdouble : (2 : ℤ) ^ (g.roundOffset + 1) = 2 ^ g.roundOffset + 2 ^ g.roundOffset := by
    rw [pow_succ, mul_two]
  rw [accumOut_eq hg hclock]
  refine BitVec.toInt_ofInt_eq_self (by omega) ?_ ?_ <;> linarith

/-- With headroom a result is exact, unless the overflow flag is set on the next clock. -/
theorem accumO_or_overflow (hg : g.Assertions) (hheadroom : 0 < g.headroomOffset)
    (hclock : ∀ t, dsp (t + 1) = (dsp t).clock (tapI t) (dataI t) (accumI t)) (t : ℕ) :
    (dsp (t + 3)).accumO.toInt =
        (accumI (t + 1)).toInt + g.rounded ((tapI t).toInt * (dataI t).toInt) ∨
      (dsp (t + 4)).overflowO = true := by
  have hwidth := g.accumWidth_eq hg
  have hout := hg.dataOutWidth_pos
  have hpow : (2 : ℤ) ^ (g.roundOffset + 1) ≠ 0 := pow_ne_zero _ (by decide)
  have hquotient : (dsp (t + 3)).accumOut.toInt / 2 ^ (g.roundOffset + 1) =
      (accumI (t + 1)).toInt + g.rounded ((tapI t).toInt * (dataI t).toInt) := by
    rw [accumOut_toInt hg hheadroom hclock, add_comm, Int.add_mul_ediv_right _ _ hpow, add_comm]
    rfl
  by_cases hfits : Signed.Fits g.dataOutWidth
      ((accumI (t + 1)).toInt + g.rounded ((tapI t).toInt * (dataI t).toInt))
  · exact .inl (accumO_of_fits hg hclock t hfits)
  · refine .inr ?_
    rw [hclock]
    rw [← hquotient] at hfits
    exact (overflowDetect_iff (k := g.roundOffset + 1) _ (by omega) hout (by omega)
      (by omega)).mpr hfits

/-- Without headroom the sums of products fit. -/
theorem accumO_of_limit (hg : g.Assertions) (hroomy : g.Roomy) (hnone : g.headroomOffset = 0)
    (hclock : ∀ t, dsp (t + 1) = (dsp t).clock (tapI t) (dataI t) (accumI t)) (t : ℕ) {n : ℕ}
    (hn : n ≤ g.lastTap) (hin : |(accumI (t + 1)).toInt| ≤ n * g.productLimit) :
    (dsp (t + 3)).accumO.toInt =
        (accumI (t + 1)).toInt + g.rounded ((tapI t).toInt * (dataI t).toInt) ∧
      |(dsp (t + 3)).accumO.toInt| ≤ (n + 1 : ℕ) * g.productLimit := by
  have hwide : 2 ≤ g.productWidth := Nat.add_le_add hg.tapWidth_pos hg.dataInWidth_pos
  have hproduct := g.rounded_le (hroomy.roundOffset_ne hg hnone) hwide
    (Signed.toInt_mul_abs hg.tapWidth_pos hg.dataInWidth_pos (tapI t) (dataI t))
  have hsum : |(accumI (t + 1)).toInt + g.rounded ((tapI t).toInt * (dataI t).toInt)| ≤
      (n + 1 : ℕ) * g.productLimit := by
    refine (abs_add_le _ _).trans ?_
    push_cast
    rw [add_mul, one_mul]
    exact add_le_add hin hproduct
  have hless : ((n + 1 : ℕ) : ℤ) * g.productLimit < 2 ^ (g.dataOutWidth - 1) := by
    have hlimit := g.limit_lt hg hroomy hnone
    have hcount : (n + 1) * g.productLimit ≤ g.tapCount * g.productLimit :=
      Nat.mul_le_mul_right _ (Nat.succ_le_succ hn)
    exact_mod_cast hcount.trans_lt hlimit
  have hexact := accumO_of_fits hg hclock t
    ⟨by linarith [(abs_le.mp hsum).1], by linarith [(abs_le.mp hsum).2]⟩
  exact ⟨hexact, by rw [hexact]; exact hsum⟩

end BunchFirDsp

end Mbf.Fir
