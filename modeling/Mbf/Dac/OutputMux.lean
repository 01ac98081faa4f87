import Mbf.Dac.FirGain
import Mbf.Dac.NcoGains
import Mbf.Lib.Clocked

/-! # The output of a DAC

`dac_output_mux` is `dac_fir_gain` followed by `dac_nco_gains`.  `dac_mixing` says what each of its
outputs is, from whatever its registers held at the start, as exact arithmetic on what came in. -/

namespace Mbf.Dac

/-- What comes in on one clock. -/
structure MuxInput where
  firData : BitVec 25
  firGain : BitVec 4
  ncoGains : NcoGainsInput

/-- What `fir_gain` is given. -/
def MuxInput.fir (i : MuxInput) : FirGainInput where
  firData := i.firData
  fixedGain := i.firGain
  bbGain := i.ncoGains.bunchConfig.firGain
  firEnable := i.ncoGains.bunchConfig.firEnable

/-- The registers of `dac_output_mux`. -/
structure DacOutputMux where
  firGain : DacFirGain
  ncoGain : DacNcoGains

namespace DacOutputMux

def clock (i : MuxInput) (s : DacOutputMux) : DacOutputMux where
  firGain := s.firGain.clock i.fir
  ncoGain := s.ncoGain.clock i.ncoGains s.firGain.firDataO

/-- `data_o` -/
def dataO (s : DacOutputMux) : BitVec 16 := s.ncoGain.dacDataO

def firMmsO (s : DacOutputMux) : BitVec 16 := s.firGain.firMms

def mmsOverflowO (s : DacOutputMux) : Bool := s.firGain.mmsOverflowO

def firOverflowO (s : DacOutputMux) : Bool := s.firGain.firOverflowO

def muxOverflowO (s : DacOutputMux) : Bool := s.ncoGain.muxOverflowO

end DacOutputMux

/-! ### The reference -/

section reference

variable (i : ℕ → MuxInput) (n : ℕ)

/-- The bunch that the sample of clock `n` belongs to is presented 4 clocks later. -/
def bunch : BunchConfig := (i (n + 4)).ncoGains.bunchConfig

/-- The shifted sample, with as many bits as it has. -/
def shifted : ℤ := shiftedFir (i n).firData.toInt (i n).firGain.toNat

/-- The shifted sample, saturated. -/
def scaled : ℤ := Signed.clamp 25 (shifted i n)

/-- What the FIR adds to the output. -/
def firTerm : ℤ := 4 * (scaled i n * if (bunch i n).firEnable then (bunch i n).firGain.toInt else 0)

/-- What NCO `k` adds to the output. -/
def bunchNco (k : Fin 4) : ℤ := ncoTerm (fun m => (i m).ncoGains) (n + 4) k

/-- The output before it is saturated. -/
def mixed : ℤ := (firTerm i n + ∑ k, bunchNco i n k + 2 ^ 19) / 2 ^ 20

/-- What is shown to the MMS, before it is saturated. -/
def mmsView : ℤ := (scaled i n * (bunch i n).firGain.toInt + 2 ^ 17) / 2 ^ 18

/-- What the registers are after the sample of clock `n` has come in, as exact arithmetic on the
input: each stage has its own delay, and each sum and each slice is exact. -/
structure Mixes (run : ℕ → DacOutputMux) : Prop where
  /-- The output is the sum, saturated. -/
  dataO : (run (n + 16)).dataO.toInt = Signed.clamp 16 (mixed i n)
  muxOverflowO : (run (n + 16)).muxOverflowO = true ↔ ¬Signed.Fits 16 (mixed i n)
  /-- The sample that is multiplied. -/
  saturateFir : (run (n + 5)).firGain.saturateFir.dataOut.toInt = scaled i n
  firOverflowO : (run (n + 5)).firOverflowO = true ↔ ¬Signed.Fits 25 (shifted i n)
  firMmsO : (run (n + 10)).firMmsO.toInt = Signed.clamp 16 (mmsView i n)
  mmsOverflowO : (run (n + 10)).mmsOverflowO = true ↔ ¬Signed.Fits 16 (mmsView i n)
  /-- The product with the gain of the FIR, and what the cascade begins with. -/
  bbScaleNco : (run (n + 8)).firGain.bbScaleNco.pO.toInt =
    scaled i n * (bunch i n).firGain.toInt + 2 ^ 17
  firDataO : (run (n + 9)).firGain.firDataO.toInt = firTerm i n + 2 ^ 19
  /-- The products of the gains, and their slices. -/
  scale : ∀ k : Fin 4, ((run (n + 4 + k + 3)).ncoGain.scale k).pO.toInt =
    (gainData (fun m => (i m).ncoGains) (n + 4) k).gain.toNat * ((bunch i n).bbGains k).toInt +
      2 ^ 13
  scalar : ∀ k : Fin 4, ((run (n + 4 + k + 4)).ncoGain.scalar k).toInt =
    ncoScalar (gainData (fun m => (i m).ncoGains) (n + 4) k).gain.toNat
      ((bunch i n).bbGains k).toInt
  /-- Each sum along the cascade. -/
  mac : ∀ k : Fin 4, ((run (n + k + 11)).ncoGain.mac k).pO.toInt =
    firTerm i n + 2 ^ 19 + ∑ j ∈ Finset.Iic k, bunchNco i n j

end reference

/-! ### The result -/

section run

variable (s : DacOutputMux) (i : ℕ → MuxInput)

/-- The registers before the clock `n`. -/
abbrev muxRun (n : ℕ) : DacOutputMux := Clocked.run DacOutputMux.clock s i n

/-- What `fir_gain` and `nco_gain` are given and hold, each on its own. -/
def firInput (n : ℕ) : FirGainInput := (i n).fir

def ncoInput (n : ℕ) : NcoGainsInput := (i n).ncoGains

def firRun (n : ℕ) : DacFirGain := (muxRun s i n).firGain

def ncoRun (n : ℕ) : DacNcoGains := (muxRun s i n).ncoGain

def firData (n : ℕ) : BitVec 48 := (firRun s i n).firDataO

theorem firRun_clock (n : ℕ) : firRun s i (n + 1) = (firRun s i n).clock (firInput i n) := rfl

theorem ncoRun_clock (n : ℕ) :
    ncoRun s i (n + 1) = (ncoRun s i n).clock (ncoInput i n) (firData s i n) := rfl

theorem firData_toInt (n : ℕ) : (firData s i (n + 9)).toInt = firTerm i n + 2 ^ 19 :=
  firDataO_toInt (firRun_clock s i) n

omit s in
theorem firTerm_bounds (n : ℕ) : |firTerm i n + 2 ^ 19| ≤ 2 ^ 45 := by
  have hbounds : -2 ^ 42 ≤ scaled i n * (bunch i n).firGain.toInt ∧
      scaled i n * (bunch i n).firGain.toInt < 2 ^ 42 := scaledFir_bounds (i n).fir _
  unfold firTerm
  rw [abs_le]
  cases (bunch i n).firEnable with
  | true =>
      rw [if_pos rfl]
      omega
  | false =>
      rw [if_neg Bool.false_ne_true]
      omega

/-- Along the cascade. -/
theorem cascade_toInt (n : ℕ) (k : Fin 4) : ((ncoRun s i (n + k + 11)).mac k).pO.toInt =
    firTerm i n + 2 ^ 19 + ∑ j ∈ Finset.Iic k, bunchNco i n j := by
  have hbound := firTerm_bounds i n
  rw [← firData_toInt s i n] at hbound ⊢
  have hsum := mac_sum (ncoRun_clock s i) (n + 4) hbound k
  rw [show n + k + 11 = n + 4 + k + 7 by omega]
  exact hsum

/-- The output is the sum, saturated. -/
theorem dataO_toInt (n : ℕ) :
    (muxRun s i (n + 16)).dataO.toInt = Signed.clamp 16 (mixed i n) ∧
      ((muxRun s i (n + 16)).muxOverflowO = true ↔ ¬Signed.Fits 16 (mixed i n)) := by
  have hmixed : ((ncoRun s i (n + 14)).mac 3).pO.toInt / 2 ^ dacResultShift =
      mixed i n := by
    have hsum := cascade_toInt s i n 3
    rw [show Finset.Iic (3 : Fin 4) = Finset.univ by rfl] at hsum
    exact congrArg (· / 2 ^ 20) (hsum.trans (add_right_comm _ _ _))
  have hovf := mac_ovf (fun m => (ncoRun s i m).mac 3)
    (fun m => (ncoRun s i m).macInput (ncoInput i m) (firData s i m) 3)
    (mac_clock (ncoRun_clock s i) 3) (k := dacResultShift) (o := 16) (by decide) (by decide) rfl
    (n + 13)
  rw [← hmixed]
  exact saturate_clamp (fun m => (ncoRun s i m).saturateDac)
    (fun m => ((ncoRun s i m).mac 3).pO) (fun m => ((ncoRun s i m).mac 3).ovfO)
    (fun m => by rw [ncoRun_clock]; rfl) (by decide) (by decide) (n + 14) hovf

/-- From whatever was in the registers, for whatever comes in. -/
theorem dac_mixing (n : ℕ) : Mixes i n (muxRun s i) where
  dataO := (dataO_toInt s i n).1
  muxOverflowO := (dataO_toInt s i n).2
  saturateFir := (saturateFir_toInt (firRun_clock s i) n).1
  firOverflowO := (saturateFir_toInt (firRun_clock s i) n).2
  firMmsO := (saturateMms_toInt (firRun_clock s i) n).1
  mmsOverflowO := (saturateMms_toInt (firRun_clock s i) n).2
  bbScaleNco := bbScaleNco_toInt (firRun_clock s i) n
  firDataO := firData_toInt s i n
  scale := scale_toInt (ncoRun_clock s i) (n + 4)
  scalar := scalar_toInt (ncoRun_clock s i) (n + 4)
  mac := cascade_toInt s i n

end run

end Mbf.Dac
