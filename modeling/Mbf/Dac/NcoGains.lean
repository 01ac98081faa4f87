import Mathlib.Algebra.BigOperators.Fin
import Mbf.Dac.Mac
import Mbf.Lib.Literals
import Mbf.Util

/-! # The gains of the NCOs

`dac_nco_gains` multiplies each NCO with a scalar, the product of its fixed gain and of its gain for
the bunch, and adds the four products to the output of the FIR, in a cascade of multipliers.  Each
multiplier is a clock behind the one before it, and its gains are delayed by as much; so all the
gains that are in a sum are those of one bunch (`mac_sum`). -/

namespace Mbf.Dac

/-- `dsp_nco_from_mux_t` -/
structure NcoData where
  nco : BitVec 18
  gain : BitVec 18

/-- `bunch_config_t`, of which `fir_select` is not used here. -/
structure BunchConfig where
  firEnable : Bool
  firGain : BitVec 18
  nco0Gain : BitVec 18
  nco1Gain : BitVec 18
  nco2Gain : BitVec 18
  nco3Gain : BitVec 18

/-- What comes in on one clock, beside the output of the FIR. -/
structure NcoGainsInput where
  bunchConfig : BunchConfig
  ncoData : Fin 4 → NcoData

abbrev ncoSeq : Fin 4 := 1

/-- The registers of `dac_nco_gains`: of `bb_gains` and of `nco_data(i)(NCO_SEQ)` from 1 to 3, of
the delay of the SEQ NCO, and of each stage. -/
structure DacNcoGains where
  bbGains : Fin 3 → Fin 4 → BitVec 18
  seqData : Fin 3 → NcoData
  seqDelay : Fin 4 → BitVec 18
  scale : Fin 4 → Mac
  scalar : Fin 4 → BitVec 25
  mac : Fin 4 → Mac
  saturateDac : Saturate 48 16

def scalarShift : ℕ := 14

def roundScalar : BitVec 48 := BitVec.twoPow 48 (scalarShift - 1)

/-- The right end of `DAC_RESULT_RANGE`. -/
def dacResultShift : ℕ := 20

/-- `bb_gains(0)` -/
def BunchConfig.bbGains (config : BunchConfig) : Fin 4 → BitVec 18 :=
  ![config.nco0Gain, config.nco1Gain, config.nco2Gain, config.nco3Gain]

namespace DacNcoGains

variable (i : NcoGainsInput) (s : DacNcoGains)

/-- `bb_gains(k)(k)` -/
def bbGain : Fin 4 → BitVec 18
  | 0 => i.bunchConfig.bbGains 0
  | 1 => s.bbGains 0 1
  | 2 => s.bbGains 1 2
  | 3 => s.bbGains 2 3

/-- `nco_data(k)(k)`; the SEQ NCO is delayed, the others are passed through. -/
def stageData (k : Fin 4) : NcoData := if k = ncoSeq then s.seqData 0 else i.ncoData k

/-- `nco_in` of a stage. -/
def ncoIn (k : Fin 4) : BitVec 18 := if k = ncoSeq then s.seqDelay 3 else (s.stageData i k).nco

/-- What the multiplier of the gains of a stage is given. -/
def scaleInput (k : Fin 4) : MacInput where
  a := (0#1 ++ (s.stageData i k).gain).signExtend 25
  b := s.bbGain i k
  c := roundScalar

/-- `accum_array` -/
def accumArray (firData : BitVec 48) : Fin 4 → BitVec 48
  | 0 => firData
  | 1 => (s.mac 0).pO
  | 2 => (s.mac 1).pO
  | 3 => (s.mac 2).pO

/-- What the multiplier of a stage is given. -/
def macInput (firData : BitVec 48) (k : Fin 4) : MacInput where
  a := s.scalar k
  b := s.ncoIn i k
  c := s.accumArray firData k

def clock (i : NcoGainsInput) (firData : BitVec 48) (s : DacNcoGains) : DacNcoGains where
  bbGains := dlyline s.bbGains i.bunchConfig.bbGains
  seqData := dlyline s.seqData (i.ncoData ncoSeq)
  seqDelay := dlyline s.seqDelay (s.stageData i ncoSeq).nco
  scale k := (s.scale k).clock 48 false (s.scaleInput i k)
  scalar k := (s.scale k).pO.extractLsb' scalarShift 25
  mac k := (s.mac k).clock (dacResultShift + 15) (0 < k) (s.macInput i firData k)
  saturateDac := s.saturateDac.clock dacResultShift (s.mac 3).pO (s.mac 3).ovfO

def dacDataO : BitVec 16 := s.saturateDac.dataOut

def muxOverflowO : Bool := s.saturateDac.ovfO

end DacNcoGains

/-! ### The reference -/

/-- The product of the gains, rounded to the nearest multiple of `2 ^ 14`. -/
def ncoScalar (gain : ℕ) (bbGain : ℤ) : ℤ := (gain * bbGain + 2 ^ 13) / 2 ^ 14

/-- The NCOs that are in the sum for the bunch of clock `n`: the SEQ NCO of that clock, and the
others as they are when they are multiplied. -/
def gainData (i : ℕ → NcoGainsInput) (n : ℕ) (k : Fin 4) : NcoData :=
  if k = ncoSeq then (i n).ncoData k else (i (n + k)).ncoData k

def sampleData (i : ℕ → NcoGainsInput) (n : ℕ) (k : Fin 4) : NcoData :=
  if k = ncoSeq then (i n).ncoData k else (i (n + k + 4)).ncoData k

/-- What an NCO adds for the bunch of clock `n`. -/
def ncoTerm (i : ℕ → NcoGainsInput) (n : ℕ) (k : Fin 4) : ℤ :=
  ncoScalar (gainData i n k).gain.toNat ((i n).bunchConfig.bbGains k).toInt *
    (sampleData i n k).nco.toInt

theorem gain_toInt (gain : BitVec 18) : ((0#1 ++ gain).signExtend 25).toInt = gain.toNat := by
  rw [BitVec.toInt_signExtend_of_le (by decide), BitVec.toInt_zero_append, if_neg (by decide)]

theorem gains_bounds (gain bbGain : BitVec 18) :
    -2 ^ 36 ≤ (gain.toNat : ℤ) * bbGain.toInt ∧ (gain.toNat : ℤ) * bbGain.toInt < 2 ^ 36 := by
  have hbounds := Signed.toInt_mul_bounds (by decide) (by decide) (0#1 ++ gain) bbGain
  rw [BitVec.toInt_zero_append, if_neg (by decide)] at hbounds
  exact hbounds

/-! ### Stages -/

section run

variable {s : ℕ → DacNcoGains} {i : ℕ → NcoGainsInput} {firData : ℕ → BitVec 48}
  (hclock : ∀ n, s (n + 1) = (s n).clock (i n) (firData n))
include hclock

/-- Each stage gets the gain of the bunch a clock after the one before it. -/
theorem bbGain_eq (n : ℕ) (k : Fin 4) :
    (s (n + k)).bbGain (i (n + k)) k = (i n).bunchConfig.bbGains k := by
  have hline := fun k => dlyline_out (fun m => (s m).bbGains) (fun m => (i m).bunchConfig.bbGains)
    (fun m => by rw [hclock m]; rfl) k n
  match k with
  | 0 => rfl
  | 1 => exact congrFun (hline 0) 1
  | 2 => exact congrFun (hline 1) 2
  | 3 => exact congrFun (hline 2) 3

theorem stageData_eq (n : ℕ) (k : Fin 4) :
    (s (n + k)).stageData (i (n + k)) k = gainData i n k := by
  unfold DacNcoGains.stageData gainData
  by_cases hseq : k = ncoSeq
  · rw [if_pos hseq, if_pos hseq, hseq]
    exact dlyline_out (fun m => (s m).seqData) (fun m => (i m).ncoData ncoSeq)
      (fun m => by rw [hclock m]; rfl) 0 n
  · rw [if_neg hseq, if_neg hseq]

theorem ncoIn_eq (n : ℕ) (k : Fin 4) :
    (s (n + k + 4)).ncoIn (i (n + k + 4)) k = (sampleData i n k).nco := by
  unfold DacNcoGains.ncoIn sampleData
  by_cases hseq : k = ncoSeq
  · subst hseq
    have hdelay : (s (n + ncoSeq.val + 4)).seqDelay 3 =
        ((s (n + ncoSeq.val)).stageData (i (n + ncoSeq.val)) ncoSeq).nco :=
      dlyline_out (fun m => (s m).seqDelay) (fun m => ((s m).stageData (i m) ncoSeq).nco)
        (fun m => by rw [hclock m]; rfl) 3 (n + ncoSeq.val)
    rw [if_pos rfl, if_pos rfl, hdelay, stageData_eq hclock n ncoSeq]
    rfl
  · rw [if_neg hseq, if_neg hseq, DacNcoGains.stageData, if_neg hseq]

/-- The product of the gains. -/
theorem scale_toInt (n : ℕ) (k : Fin 4) : ((s (n + k + 3)).scale k).pO.toInt =
    (gainData i n k).gain.toNat * ((i n).bunchConfig.bbGains k).toInt + 2 ^ 13 := by
  have hproduct : ((s (n + k)).scaleInput (i (n + k)) k).product =
      (gainData i n k).gain.toNat * ((i n).bunchConfig.bbGains k).toInt := by
    rw [← bbGain_eq hclock n k, ← stageData_eq hclock n k, ← gain_toInt]
    exact if_pos rfl
  have hbounds := gains_bounds (gainData i n k).gain ((i n).bunchConfig.bbGains k)
  have hfits : Signed.Fits 48 (((s (n + k)).scaleInput (i (n + k)) k).product +
      (addend false (fun m => (s m).scaleInput (i m) k) (n + k)).toInt) := by
    rw [hproduct,
      show (addend false (fun m => (s m).scaleInput (i m) k) (n + k)).toInt = 2 ^ 13 by rfl]
    unfold Signed.Fits
    omega
  have hnext : ∀ m, (s (m + 1)).scale k = ((s m).scale k).clock 48 false
      ((s m).scaleInput (i m) k) := fun m => by rw [hclock m]; rfl
  have hmac := mac_toInt (fun m => (s m).scale k) (fun m => (s m).scaleInput (i m) k) hnext (n + k)
    hfits
  rw [hproduct] at hmac
  exact hmac

/-- The scalar drops no significant bit. -/
theorem scalar_toInt (n : ℕ) (k : Fin 4) : ((s (n + k + 4)).scalar k).toInt =
    ncoScalar (gainData i n k).gain.toNat ((i n).bunchConfig.bbGains k).toInt := by
  have hbounds := gains_bounds (gainData i n k).gain ((i n).bunchConfig.bbGains k)
  have hscalar : (s (n + k + 4)).scalar k =
      ((s (n + k + 3)).scale k).pO.extractLsb' scalarShift 25 := by
    rw [hclock (n + k + 3)]
    rfl
  rw [hscalar, Signed.slice_toInt _ (by decide) (by decide), scale_toInt hclock n k]
  · rfl
  · rw [scale_toInt hclock n k]
    unfold Signed.Fits scalarShift
    omega

theorem ncoTerm_bounds (n : ℕ) (k : Fin 4) : -2 ^ 42 ≤ ncoTerm i n k ∧ ncoTerm i n k < 2 ^ 42 := by
  have hbounds := Signed.toInt_mul_bounds (by decide) (by decide) ((s (n + k + 4)).scalar k)
    (sampleData i n k).nco
  rw [scalar_toInt hclock n k] at hbounds
  exact hbounds

theorem mac_clock (k : Fin 4) (m : ℕ) : (s (m + 1)).mac k =
    ((s m).mac k).clock (dacResultShift + 15) (0 < k) ((s m).macInput (i m) (firData m) k) := by
  rw [hclock m]
  rfl

/-- A stage adds its term to what it is given by the one before it. -/
theorem mac_stage (n : ℕ) (k : Fin 4) {sum : ℤ}
    (hsum : (addend (0 < k) (fun m => (s m).macInput (i m) (firData m) k) (n + k + 4)).toInt = sum)
    (hbound : |sum| < 2 ^ 46) : ((s (n + k + 7)).mac k).pO.toInt = sum + ncoTerm i n k := by
  have hterm := ncoTerm_bounds hclock n k
  let input := fun m => (s m).macInput (i m) (firData m) k
  have hproduct : (input (n + k + 4)).product = ncoTerm i n k := by
    unfold ncoTerm
    rw [← scalar_toInt hclock n k, ← ncoIn_eq hclock n k]
    exact if_pos rfl
  obtain ⟨hlow, hhigh⟩ := abs_lt.mp hbound
  have hfits : Signed.Fits 48 ((input (n + k + 4)).product +
      (addend (0 < k) input (n + k + 4)).toInt) := by
    rw [hproduct, hsum]
    unfold Signed.Fits
    omega
  have hmac := mac_toInt (fun m => (s m).mac k) input (mac_clock hclock k) (n + k + 4) hfits
  rw [hproduct, hsum, Int.add_comm] at hmac
  exact hmac

/-- Along the cascade the sum is exact, with the terms of one bunch. -/
theorem mac_sum (n : ℕ) (hfir : |(firData (n + 5)).toInt| ≤ 2 ^ 45) (k : Fin 4) :
    ((s (n + k + 7)).mac k).pO.toInt =
      (firData (n + 5)).toInt + ∑ j ∈ Finset.Iic k, ncoTerm i n j := by
  have hterm := fun j => ncoTerm_bounds hclock n j
  have hfir' := abs_le.mp hfir
  have hstage0 : ((s (n + 7)).mac 0).pO.toInt = (firData (n + 5)).toInt + ncoTerm i n 0 :=
    mac_stage hclock n 0 rfl (by omega)
  have hstage1 : ((s (n + 8)).mac 1).pO.toInt = _ + ncoTerm i n 1 :=
    mac_stage hclock n 1 hstage0 (by have h := hterm 0; rw [abs_lt]; omega)
  have hstage2 : ((s (n + 9)).mac 2).pO.toInt = _ + ncoTerm i n 2 :=
    mac_stage hclock n 2 hstage1
      (by have h := hterm 0; have h' := hterm 1; rw [abs_lt]; omega)
  have hstage3 : ((s (n + 10)).mac 3).pO.toInt = _ + ncoTerm i n 3 :=
    mac_stage hclock n 3 hstage2
      (by have h := hterm 0; have h' := hterm 1; have h'' := hterm 2; rw [abs_lt]; omega)
  match k with
  | 0 =>
      rw [show Finset.Iic (0 : Fin 4) = {0} by rfl, Finset.sum_singleton]
      exact hstage0
  | 1 =>
      rw [show Finset.Iic (1 : Fin 4) = {0, 1} by rfl, Finset.sum_pair (by decide), ← add_assoc]
      exact hstage1
  | 2 =>
      rw [show Finset.Iic (2 : Fin 4) = {0, 1, 2} by rfl, Finset.sum_insert (by decide),
        Finset.sum_pair (by decide), ← add_assoc, ← add_assoc]
      exact hstage2
  | 3 =>
      rw [show Finset.Iic (3 : Fin 4) = Finset.univ by rfl, Fin.sum_univ_four, ← add_assoc,
        ← add_assoc, ← add_assoc]
      exact hstage3

end run

end Mbf.Dac
