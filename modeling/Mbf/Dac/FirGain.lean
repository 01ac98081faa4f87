import Mbf.Dac.Mac
import Mbf.Lib.Literals
import Mbf.Util

/-! # The gain of the FIR

`dac_fir_gain` shifts the output of the FIR by its fixed gain, saturates it, and multiplies it with
the gain of the bunch.  The product goes on to the NCOs when the bunch has the FIR enabled, and,
rounded and saturated, to the MMS. -/

namespace Mbf.Dac

/-- What comes in on one clock. -/
structure FirGainInput where
  firData : BitVec 25
  fixedGain : BitVec 4
  bbGain : BitVec 18
  firEnable : Bool

/-- The registers of `dac_fir_gain`. -/
structure DacFirGain where
  firOff : Bool
  fixedGainIn : BitVec 4
  dataIn : BitVec 40
  shiftedData : BitVec 40
  shiftedDataOut : BitVec 40
  firOverflow : Bool
  bbGainIn : BitVec 18
  saturateFir : Saturate 40 25
  bbScaleNco : Mac
  saturateMms : Saturate 48 16
  delayEnable : Fin 4 → Bool
  firDataO : BitVec 48

def baseReadoutShift : ℕ := 10

/-- The right end of `MMS_READOUT_RANGE`. -/
def mmsReadoutShift : ℕ := 18

def outputShift : ℕ := 2

def roundingMask : BitVec 48 := BitVec.twoPow 48 (mmsReadoutShift - 1)

namespace DacFirGain

/-- What the multiplier is given. -/
def macInput (s : DacFirGain) : MacInput where
  a := s.saturateFir.dataOut
  b := s.bbGainIn
  c := roundingMask

def clock (i : FirGainInput) (s : DacFirGain) : DacFirGain where
  fixedGainIn := i.fixedGain
  firOff := i.fixedGain = 15
  dataIn := i.firData ++ 0#15
  shiftedData := if s.firOff then 0 else s.dataIn.sshiftRight s.fixedGainIn.toNat
  shiftedDataOut := s.shiftedData
  firOverflow := overflowDetect (s.shiftedData.extractLsb' (baseReadoutShift + 24) 6)
  bbGainIn := i.bbGain
  saturateFir := s.saturateFir.clock baseReadoutShift s.shiftedDataOut s.firOverflow
  bbScaleNco := s.bbScaleNco.clock (mmsReadoutShift + 15) false s.macInput
  saturateMms := s.saturateMms.clock mmsReadoutShift s.bbScaleNco.pO s.bbScaleNco.ovfO
  delayEnable := dlyline s.delayEnable i.firEnable
  firDataO :=
    if s.delayEnable 3 then s.bbScaleNco.pO <<< outputShift
    else roundingMask <<< outputShift

/-- `fir_mms_o` -/
def firMms (s : DacFirGain) : BitVec 16 := s.saturateMms.dataOut

def firOverflowO (s : DacFirGain) : Bool := s.saturateFir.ovfO

def mmsOverflowO (s : DacFirGain) : Bool := s.saturateMms.ovfO

end DacFirGain

/-! ### The reference -/

/-- The sample shifted by the fixed gain, which goes from `2 ^ 7` to `2 ^ -7`, and zero when it is
off. -/
def shiftedFir (fir : ℤ) (fixedGain : ℕ) : ℤ :=
  if fixedGain = 15 then 0 else fir * 2 ^ 5 / 2 ^ fixedGain

/-- The sample that is multiplied. -/
def scaledFir (i : FirGainInput) : ℤ :=
  Signed.clamp 25 (shiftedFir i.firData.toInt i.fixedGain.toNat)

/-- The product with a gain fits in the sum of the widths. -/
theorem scaledFir_bounds (i : FirGainInput) (gain : BitVec 18) :
    -2 ^ 42 ≤ scaledFir i * gain.toInt ∧ scaledFir i * gain.toInt < 2 ^ 42 := by
  have hfits : Signed.Fits 25 (scaledFir i) := Signed.fits_clamp 25 _
  have hbounds := Signed.toInt_mul_bounds (by decide) (by decide) (.ofInt 25 (scaledFir i)) gain
  rw [BitVec.toInt_ofInt_eq_self (by decide) hfits.1 hfits.2] at hbounds
  exact hbounds

/-! ### Stages -/

section run

variable {s : ℕ → DacFirGain} {i : ℕ → FirGainInput}
  (hclock : ∀ n, s (n + 1) = (s n).clock (i n))
include hclock

/-- The shifted sample, with 10 more bits of which the floor is taken. -/
theorem shiftedData_toInt (n : ℕ) : (s (n + 2)).shiftedData.toInt / 2 ^ baseReadoutShift =
    shiftedFir (i n).firData.toInt (i n).fixedGain.toNat := by
  have hshifted : (s (n + 2)).shiftedData = if (i n).fixedGain = 15 then 0
      else ((i n).firData ++ 0#15).sshiftRight (i n).fixedGain.toNat := by
    rw [hclock (n + 1), hclock n]
    change (if decide ((i n).fixedGain = 15) then _ else _) = _
    simp only [decide_eq_true_iff]
    rfl
  have hoff : (i n).fixedGain = 15 ↔ (i n).fixedGain.toNat = 15 :=
    ⟨fun h => congrArg BitVec.toNat h, fun h => BitVec.eq_of_toNat_eq h⟩
  unfold shiftedFir baseReadoutShift
  rw [hshifted]
  by_cases h : (i n).fixedGain = 15
  · rw [if_pos h, if_pos (hoff.mp h)]
    rfl
  · rw [if_neg h, if_neg (mt hoff.mpr h), BitVec.toInt_sshiftRight, BitVec.toInt_append_zero,
      Int.shiftRight_eq_div_pow]
    have hten : (0 : ℤ) < 2 ^ 10 := by decide
    have hsplit : 2 ^ 15 * (i n).firData.toInt = (i n).firData.toInt * 2 ^ 5 * 2 ^ 10 := by ring
    rw [Int.natCast_pow, Nat.cast_ofNat, Int.ediv_ediv_of_nonneg (Int.pow_nonneg (by decide)),
      hsplit, Int.mul_ediv_mul_of_pos_left _ _ hten]

/-- The sample is saturated if it does not fit. -/
theorem saturateFir_toInt (n : ℕ) :
    (s (n + 5)).saturateFir.dataOut.toInt = scaledFir (i n) ∧
      ((s (n + 5)).firOverflowO = true ↔
        ¬Signed.Fits 25 (shiftedFir (i n).firData.toInt (i n).fixedGain.toNat)) := by
  have hovf : (s (n + 3)).firOverflow = true ↔
      ¬Signed.Fits 25 ((s (n + 3)).shiftedDataOut.toInt / 2 ^ baseReadoutShift) := by
    have hflag : (s (n + 3)).firOverflow =
        overflowDetect ((s (n + 3)).shiftedDataOut.extractLsb' (baseReadoutShift + 24) 6) := by
      rw [hclock (n + 2)]
      rfl
    rw [hflag]
    exact overflowDetect_iff (k := baseReadoutShift) (o := 25) _ (by decide) (by decide) rfl rfl
  have hdata : (s (n + 3)).shiftedDataOut.toInt / 2 ^ baseReadoutShift =
      shiftedFir (i n).firData.toInt (i n).fixedGain.toNat := by
    rw [← shiftedData_toInt hclock n, hclock (n + 2)]
    rfl
  have hnext : ∀ m, (s (m + 1)).saturateFir = (s m).saturateFir.clock baseReadoutShift
      (s m).shiftedDataOut (s m).firOverflow := fun m => by rw [hclock m]; rfl
  have hsaturate := saturate_clamp (fun m => (s m).saturateFir) (fun m => (s m).shiftedDataOut)
    (fun m => (s m).firOverflow) hnext (by decide) (by decide) (n + 3) hovf
  rw [hdata] at hsaturate
  exact hsaturate

theorem bbScaleNco_clock (m : ℕ) : (s (m + 1)).bbScaleNco =
    (s m).bbScaleNco.clock (mmsReadoutShift + 15) false (s m).macInput := by
  rw [hclock m]
  rfl

/-- The product with the gain of the bunch, and the bit that rounds. -/
theorem bbScaleNco_toInt (n : ℕ) : (s (n + 8)).bbScaleNco.pO.toInt =
    scaledFir (i n) * (i (n + 4)).bbGain.toInt + 2 ^ 17 := by
  have hgain : (s (n + 5)).bbGainIn = (i (n + 4)).bbGain := by
    rw [hclock (n + 4)]
    rfl
  have hproduct : (s (n + 5)).macInput.product =
      scaledFir (i n) * (i (n + 4)).bbGain.toInt := by
    rw [← (saturateFir_toInt hclock n).1, ← hgain]
    exact if_pos rfl
  have hbounds := scaledFir_bounds (i n) (i (n + 4)).bbGain
  have hfits : Signed.Fits 48 ((s (n + 5)).macInput.product +
      (addend false (fun m => (s m).macInput) (n + 5)).toInt) := by
    rw [hproduct, show (addend false (fun m => (s m).macInput) (n + 5)).toInt = 2 ^ 17 by rfl]
    unfold Signed.Fits
    omega
  have hmac := mac_toInt (fun m => (s m).bbScaleNco) (fun m => (s m).macInput)
    (bbScaleNco_clock hclock) (n + 5) hfits
  rw [hproduct] at hmac
  exact hmac

/-- What goes to the MMS is rounded and saturated. -/
theorem saturateMms_toInt (n : ℕ) :
    (s (n + 10)).firMms.toInt =
        Signed.clamp 16 ((scaledFir (i n) * (i (n + 4)).bbGain.toInt + 2 ^ 17) / 2 ^ 18) ∧
      ((s (n + 10)).mmsOverflowO = true ↔ ¬Signed.Fits 16
        ((scaledFir (i n) * (i (n + 4)).bbGain.toInt + 2 ^ 17) / 2 ^ 18)) := by
  have hnext : ∀ m, (s (m + 1)).saturateMms = (s m).saturateMms.clock mmsReadoutShift
      (s m).bbScaleNco.pO (s m).bbScaleNco.ovfO := fun m => by rw [hclock m]; rfl
  have hovf := mac_ovf (fun m => (s m).bbScaleNco) (fun m => (s m).macInput)
    (bbScaleNco_clock hclock) (k := mmsReadoutShift) (o := 16) (by decide) (by decide) rfl (n + 7)
  rw [← bbScaleNco_toInt hclock n]
  exact saturate_clamp (fun m => (s m).saturateMms) (fun m => (s m).bbScaleNco.pO)
    (fun m => (s m).bbScaleNco.ovfO) hnext (by decide) (by decide) (n + 8) hovf

/-- What goes on to the NCOs, with the bit that rounds the output of the DAC. -/
theorem firDataO_toInt (n : ℕ) : (s (n + 9)).firDataO.toInt =
    4 * (scaledFir (i n) *
      if (i (n + 4)).firEnable then (i (n + 4)).bbGain.toInt else 0) + 2 ^ 19 := by
  have henable : (s (n + 8)).delayEnable 3 = (i (n + 4)).firEnable :=
    dlyline_out (fun m => (s m).delayEnable) (fun m => (i m).firEnable)
      (fun m => by rw [hclock m]; rfl) 3 (n + 4)
  have hout : (s (n + 9)).firDataO = if (i (n + 4)).firEnable then
      (s (n + 8)).bbScaleNco.pO <<< outputShift else roundingMask <<< outputShift := by
    rw [← henable, hclock (n + 8)]
    rfl
  rw [hout]
  cases (i (n + 4)).firEnable with
  | true =>
      have hproduct := bbScaleNco_toInt hclock n
      have hbounds := scaledFir_bounds (i n) (i (n + 4)).bbGain
      rw [if_pos rfl, if_pos rfl, Signed.shiftLeft_toInt (by decide), hproduct]
      · unfold outputShift
        ring
      · rw [hproduct]
        unfold Signed.Fits outputShift
        omega
  | false =>
      rw [if_neg Bool.false_ne_true, if_neg Bool.false_ne_true, mul_zero]
      rfl

end run

end Mbf.Dac
