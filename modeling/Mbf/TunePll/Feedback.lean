import Mbf.Lib.Clocked
import Mbf.Lib.Literals
import Mbf.Lib.Signed
import Mbf.Util

/-! # The frequency feedback of the Tune PLL

`tune_pll_feedback` on the DSP clock, at the widths of `tune_pll_top`, with the two registers that
drive it: `nco_register`, which holds the base frequency and tells when it is written, and the
output registers of `tune_pll_cordic`, which hold phase and magnitude from one dwell to the next.

A signal is named as in the source; its value before clock `n` is that of the run at `n`. -/

namespace Mbf.TunePll

/-- `phase_angle_t`. -/
abbrev PhaseAngle := BitVec 18

/-- `angle_t`. -/
abbrev Angle := BitVec 48

/-- `phase_i'LENGTH + integral_i'LENGTH`. -/
abbrev productLength : ℕ := 18 + 25

/-! ### Inputs -/

/-- The settings, with the enable, blanking and overflow flags. -/
structure FeedbackControls where
  enable : Bool
  blanking : Bool
  detectorOverflow : Bool
  magnitudeLimit : BitVec 32
  offsetLimit : BitVec 32
  targetPhase : PhaseAngle
  integral : BitVec 25
  proportional : BitVec 25
  offsetOverride : Bool
  debugOffset : BitVec 32
deriving DecidableEq

/-- What comes in on one clock. -/
structure FeedbackInput where
  controls : FeedbackControls
  /-- A write to the low word of the base frequency. -/
  writeLow : Option (BitVec 32)
  /-- A write to the high word, of which 16 bits are used. -/
  writeHigh : Option (BitVec 16)
  /-- `done` of the CORDIC, with the angle and the magnitude it has computed. -/
  done : Option (PhaseAngle × BitVec 32)

/-! ### The registers before the feedback -/

/-- `nco_register`, the part that is written. -/
structure NcoRegister where
  freqLowBits : BitVec 32 := 0
  ncoFreq : Angle := 0
  writeFreq : Bool := false

def NcoRegister.clock (i : FeedbackInput) (r : NcoRegister) : NcoRegister where
  freqLowBits := i.writeLow.getD r.freqLowBits
  ncoFreq :=
    match i.writeHigh with
    | some high => high ++ r.freqLowBits
    | none => r.ncoFreq
  writeFreq := i.writeHigh.isSome

/-- The last stage of `tune_pll_cordic`. -/
structure CordicResult where
  angle : PhaseAngle := 0
  magnitude : BitVec 32 := 0
  done : Bool := false

def CordicResult.clock (i : FeedbackInput) (r : CordicResult) : CordicResult where
  angle := (i.done.map Prod.fst).getD r.angle
  magnitude := (i.done.map Prod.snd).getD r.magnitude
  done := i.done.isSome

/-! ### The feedback -/

/-- The registers of `tune_pll_feedback`. -/
structure Feedback where
  startLine : Fin 2 → Bool := fun _ => false
  doneLine : Fin 6 → Bool := fun _ => false
  magnitudeError : Bool := false
  phaseError : PhaseAngle := 0
  integralIn : BitVec 25 := 0
  integralUpdate : BitVec productLength := 0
  proportionalIn : BitVec 25 := 0
  proportionalUpdate : BitVec productLength := 0
  baseFrequencyIn : Angle := 0
  setFrequencyIn : Bool := false
  frequencyIntegral : Angle := 0
  frequencyOut : Angle := 0
  updateOut : Bool := false
  updateOffset : Bool := false
  fullFrequencyOffset : Angle := 0
  frequencyOffsetOut : BitVec 32 := 0
  offsetError : Bool := false

namespace Feedback

variable (f : Feedback)

def startIn : Bool := f.startLine 1

def doneO : Bool := f.doneLine 5

/-- `truncate_result` of the full offset, from bit 8. -/
def frequencyOffset : BitVec 32 := f.fullFrequencyOffset.extractLsb' 8 32

def offsetOverflow : Bool := overflowDetect (f.fullFrequencyOffset.extractLsb' 39 9)

/-- Feedback update is only enabled when control is enabled and the inputs are valid. -/
def enableFeedback (c : FeedbackControls) : Bool :=
  c.enable && !c.blanking && !c.detectorOverflow && !f.magnitudeError

def updateIntegral (c : FeedbackControls) : Bool := f.enableFeedback c && f.startIn

/-- The offset is out of the limits. -/
def outside (limit offset : BitVec 32) : Bool := limit.slt offset || limit.slt (~~~ offset)

def clock (c : FeedbackControls) (base : NcoRegister) (cordic : CordicResult) : Feedback where
  startLine := dlyline f.startLine cordic.done
  doneLine := dlyline f.doneLine (cordic.done && c.enable)
  magnitudeError :=
    if cordic.done then cordic.magnitude.ult c.magnitudeLimit else f.magnitudeError
  phaseError := c.targetPhase - cordic.angle
  integralIn := c.integral
  integralUpdate := f.phaseError.signExtend productLength * f.integralIn.signExtend productLength
  proportionalIn := c.proportional
  proportionalUpdate :=
    f.phaseError.signExtend productLength * f.proportionalIn.signExtend productLength
  baseFrequencyIn := base.ncoFreq
  setFrequencyIn := base.writeFreq
  frequencyIntegral :=
    if f.setFrequencyIn then f.baseFrequencyIn
    else if f.updateIntegral c then f.frequencyIntegral + f.integralUpdate.signExtend 48
    else f.frequencyIntegral
  updateOut := f.setFrequencyIn || f.updateIntegral c
  frequencyOut :=
    if f.updateOut then
      if f.enableFeedback c then f.frequencyIntegral + f.proportionalUpdate.signExtend 48
      else f.frequencyIntegral
    else f.frequencyOut
  updateOffset := f.updateOut
  fullFrequencyOffset :=
    if f.updateOffset then f.frequencyOut - f.baseFrequencyIn else f.fullFrequencyOffset
  frequencyOffsetOut := if c.offsetOverride then c.debugOffset else f.frequencyOffset
  offsetError := f.offsetOverflow || outside c.offsetLimit f.frequencyOffsetOut

end Feedback

/-- The feedback with the registers that drive it. -/
structure FeedbackRig where
  base : NcoRegister := {}
  cordic : CordicResult := {}
  feedback : Feedback := {}

def FeedbackRig.clock (i : FeedbackInput) (r : FeedbackRig) : FeedbackRig where
  base := r.base.clock i
  cordic := r.cordic.clock i
  feedback := r.feedback.clock i.controls r.base r.cordic

/-- The run from power-up. -/
def feedbackRun (i : ℕ → FeedbackInput) : ℕ → FeedbackRig := Clocked.run FeedbackRig.clock {} i

end Mbf.TunePll
