import Mbf.Lib.Runs
import Mbf.Lib.Signed
import Mbf.Detector.Context

/-! # The target phase of the Tune PLL

`update_target_phase` of `tune_pll.c` and its callers, with `write_fir_decimation` of `bunch_fir.c`.
The hardware is given the target phase less the phase that the NCO turns by in the delay of the
detector.  The delay is an `int`, but is kept as an `unsigned int` (`phase_delay`) when the input of
the detector is selected.

The product with the frequency is formed in 64 bits: of a delay that is not negative it gives the
right phase at any frequency, of a negative one only where the frequency has no bits below `2 ^ 16`
(`phaseDelta_iff`).  The decimation of the FIR is part of the delay when the FIR is selected, but
a write to it leaves what is kept.  So the hardware has the right phase all along, ready for the
next update, exactly if no step meets either (`target_phase_iff`). -/

namespace Mbf.TunePll

open Detector (DetSelect)

/-- The fixed configuration: the delays of the hardware and the number of bunches. -/
structure PhaseSetup where
  pllAdcDelay : BitVec 32
  pllFirDelay : BitVec 32
  pllAdcRejectDelay : BitVec 32
  bunches : BitVec 32

/-- The part of `struct pll_context` that the target phase uses, with `fir_decimation` and the
register of the hardware. -/
structure PhaseState where
  firDecimation : BitVec 32
  inputSelect : DetSelect
  phaseDelay : BitVec 32
  ncoFreqSet : BitVec 64
  currentNco : BitVec 64
  targetPhase : BitVec 32
  hwTargetPhase : BitVec 32

/-- `compute_detector_delay`, an `int`. -/
def computeDetectorDelay (setup : PhaseSetup) (firDecimation : BitVec 32) :
    DetSelect → BitVec 32
  | .adc => setup.pllAdcDelay + setup.bunches
  | .fir => setup.pllFirDelay + firDecimation * setup.bunches
  | .reject => setup.pllAdcRejectDelay + setup.bunches

/-- `phase_delta`, from a delay that is taken as unsigned. -/
def phaseDelta (phaseDelay : BitVec 32) (currentNco : BitVec 64) : BitVec 32 :=
  ((phaseDelay.setWidth 64 * currentNco) >>> 16).setWidth 32

namespace PhaseState

/-- `update_target_phase`. -/
def updateTargetPhase (s : PhaseState) : PhaseState :=
  { s with hwTargetPhase := -s.targetPhase + phaseDelta s.phaseDelay s.currentNco }

/-- `write_target_phase`, with the phase in units of `2 ^ -32` cycles. -/
def writeTargetPhase (targetPhase : BitVec 32) (s : PhaseState) : PhaseState :=
  updateTargetPhase { s with targetPhase }

/-- `write_nco_frequency`; the record it triggers is processed later. -/
def writeNcoFrequency (freq : BitVec 64) (s : PhaseState) : PhaseState :=
  { s with ncoFreqSet := freq }

end PhaseState

/-- What `update_nco_frequency` finds: whether the PLL runs, and the registers it reads. -/
structure NcoReading where
  running : Bool
  filteredOffset : BitVec 32
  ncoFrequency : BitVec 48

/-- The frequency that a reading gives. -/
def NcoReading.freq (reading : NcoReading) (ncoFreqSet : BitVec 64) : BitVec 64 :=
  if reading.running then ncoFreqSet + reading.filteredOffset.signExtend 64 <<< 8
  else reading.ncoFrequency.setWidth 64

namespace PhaseState

/-- `update_nco_frequency`. -/
def updateNcoFrequency (reading : NcoReading) (s : PhaseState) : PhaseState :=
  updateTargetPhase { s with currentNco := reading.freq s.ncoFreqSet }

/-- `write_det_input_select`. -/
def writeDetInputSelect (setup : PhaseSetup) (selection : DetSelect) (s : PhaseState) :
    PhaseState :=
  updateTargetPhase { s with
    inputSelect := selection
    phaseDelay := computeDetectorDelay setup s.firDecimation selection }

/-- `write_fir_decimation`. -/
def writeFirDecimation (value : BitVec 32) (s : PhaseState) : PhaseState :=
  { s with firDecimation := value }

/-- The program once the input has been selected for the first time, before any frequency is
known. -/
def initial (setup : PhaseSetup) (firDecimation : BitVec 32) (selection : DetSelect) : PhaseState :=
  writeDetInputSelect setup selection
    { firDecimation, inputSelect := .adc, phaseDelay := 0, ncoFreqSet := 0, currentNco := 0,
      targetPhase := 0, hwTargetPhase := 0 }

end PhaseState

/-- What happens to the program. -/
inductive PhaseInput where
  | writeTargetPhase (targetPhase : BitVec 32)
  | writeNcoFrequency (freq : BitVec 64)
  | updateNcoFrequency (reading : NcoReading)
  | writeDetInputSelect (selection : DetSelect)
  | writeFirDecimation (value : BitVec 32)

/-- The program. -/
def phaseProgram (setup : PhaseSetup) : Runs.Machine PhaseState PhaseInput Unit where
  init s := ∃ firDecimation selection, s = PhaseState.initial setup firDecimation selection
  step s
    | .writeTargetPhase targetPhase => some (s.writeTargetPhase targetPhase, ())
    | .writeNcoFrequency freq => some (s.writeNcoFrequency freq, ())
    | .updateNcoFrequency reading => some (s.updateNcoFrequency reading, ())
    | .writeDetInputSelect selection => some (s.writeDetInputSelect setup selection, ())
    | .writeFirDecimation value => some (s.writeFirDecimation value, ())

/-! ### What the hardware should have -/

/-- The phase that a frequency turns by in a delay. -/
def compensation (delay : BitVec 32) (currentNco : BitVec 64) : BitVec 32 :=
  BitVec.ofInt 32 (delay.toInt * currentNco.toNat / 2 ^ 16)

/-- The delay that the settings call for. -/
def PhaseState.delay (setup : PhaseSetup) (s : PhaseState) : BitVec 32 :=
  computeDetectorDelay setup s.firDecimation s.inputSelect

/-- The hardware has the target phase, corrected for the latest delay and frequency. -/
def PhaseState.Aligned (setup : PhaseSetup) (s : PhaseState) : Prop :=
  s.hwTargetPhase = -s.targetPhase + compensation (s.delay setup) s.currentNco

/-- The delay that is kept is the latest. -/
def PhaseState.Current (setup : PhaseSetup) (s : PhaseState) : Prop :=
  s.phaseDelay = s.delay setup

/-- The delay is not negative, or the frequency is a multiple of `2 ^ 16`. -/
def Compensable (delay : BitVec 32) (currentNco : BitVec 64) : Prop :=
  0 ≤ delay.toInt ∨ 2 ^ 16 ∣ currentNco.toNat

/-- A step leads to a delay and a frequency that the arithmetic is good for, and leaves the delay of
the selected input unless it selects the input. -/
def Compensated (setup : PhaseSetup) (s : PhaseState) : PhaseInput × Unit → Prop
  | (.writeTargetPhase _, _) | (.writeNcoFrequency _, _) => True
  | (.updateNcoFrequency reading, _) => Compensable (s.delay setup) (reading.freq s.ncoFreqSet)
  | (.writeDetInputSelect selection, _) =>
      Compensable (computeDetectorDelay setup s.firDecimation selection) s.currentNco
  | (.writeFirDecimation value, _) =>
      computeDetectorDelay setup value s.inputSelect = s.delay setup

/-! ### The arithmetic -/

theorem phaseDelta_toNat (delay : BitVec 32) (freq : BitVec 64) :
    (phaseDelta delay freq).toNat = delay.toNat * freq.toNat / 2 ^ 16 % 2 ^ 32 := by
  have hdelay : delay.toNat < 2 ^ 64 := delay.isLt.trans (by decide)
  unfold phaseDelta
  rw [BitVec.toNat_setWidth, BitVec.toNat_ushiftRight, BitVec.toNat_mul, BitVec.toNat_setWidth,
    Nat.mod_eq_of_lt hdelay, Nat.shiftRight_eq_div_pow]
  omega

theorem compensation_toNat (delay : BitVec 32) (freq : BitVec 64) :
    ((compensation delay freq).toNat : ℤ) = delay.toInt * freq.toNat / 2 ^ 16 % 2 ^ 32 := by
  unfold compensation
  rw [BitVec.toNat_ofInt, Int.toNat_of_nonneg (Int.emod_nonneg _ (by decide))]
  rfl

/-- The phase is right if and only if the delay is not negative or the frequency has no low bits. -/
theorem phaseDelta_iff (delay : BitVec 32) (freq : BitVec 64) :
    phaseDelta delay freq = compensation delay freq ↔ Compensable delay freq := by
  rw [← BitVec.toNat_inj, ← Int.natCast_inj, compensation_toNat, phaseDelta_toNat]
  unfold Compensable
  have hdelay := delay.isLt
  rw [BitVec.toInt_eq_toNat_cond]
  split_ifs with hsign
  · refine iff_of_true ?_ (.inl (Int.natCast_nonneg _))
    push_cast
    rfl
  · -- a negative delay is taken as `2 ^ 32` too much
    have hproduct : ((delay.toNat : ℤ) - ((2 ^ 32 : ℕ) : ℤ)) * freq.toNat =
        ((delay.toNat * freq.toNat : ℕ) : ℤ) - 2 ^ 32 * freq.toNat := by
      push_cast
      ring
    rw [hproduct]
    omega

/-! ### The steps -/

section steps
variable {setup : PhaseSetup} {s s' : PhaseState} {x : PhaseInput × Unit}

/-- The hardware has what the last update has computed. -/
def PhaseState.Coherent (s : PhaseState) : Prop :=
  s.hwTargetPhase = -s.targetPhase + phaseDelta s.phaseDelay s.currentNco

theorem coherent_step (h : s.Coherent) (hstep : (phaseProgram setup).system.Step s x s') :
    s'.Coherent := by
  obtain ⟨input, u⟩ := x
  cases input with
  | writeTargetPhase targetPhase =>
      cases hstep
      rfl
  | writeNcoFrequency freq =>
      cases hstep
      exact h
  | updateNcoFrequency reading =>
      cases hstep
      rfl
  | writeDetInputSelect selection =>
      cases hstep
      rfl
  | writeFirDecimation value =>
      cases hstep
      exact h

/-- With the latest delay, the hardware is right where the arithmetic is. -/
theorem aligned_iff (h : s.Coherent) (hcurrent : s.Current setup) :
    s.Aligned setup ↔ Compensable (s.delay setup) s.currentNco := by
  unfold PhaseState.Aligned
  rw [h, add_right_inj, hcurrent, phaseDelta_iff]

/-- From a good state, a step leads to a good one if and only if it is compensated. -/
theorem aligned_step (h : s.Coherent) (hgood : s.Aligned setup ∧ s.Current setup)
    (hstep : (phaseProgram setup).system.Step s x s') :
    (s'.Aligned setup ∧ s'.Current setup) ↔ Compensated setup s x := by
  have hcoherent := coherent_step h hstep
  have hgood' := (aligned_iff h hgood.2).mp hgood.1
  have hiff : ∀ hcurrent : s'.Current setup, (s'.Aligned setup ∧ s'.Current setup) ↔
      Compensable (s'.delay setup) s'.currentNco := fun hcurrent => by
    rw [and_iff_left hcurrent]
    exact aligned_iff hcoherent hcurrent
  obtain ⟨input, u⟩ := x
  cases input with
  | writeTargetPhase targetPhase =>
      cases hstep
      exact (hiff hgood.2).trans (iff_of_true hgood' trivial)
  | writeNcoFrequency freq =>
      cases hstep
      exact (hiff hgood.2).trans (iff_of_true hgood' trivial)
  | updateNcoFrequency reading =>
      cases hstep
      exact hiff hgood.2
  | writeDetInputSelect selection =>
      cases hstep
      exact hiff rfl
  | writeFirDecimation value =>
      cases hstep
      constructor
      · rintro ⟨-, hcurrent⟩
        exact hcurrent.symm.trans hgood.2
      · intro hkept
        have hcurrent : (s.writeFirDecimation value).Current setup := hgood.2.trans hkept.symm
        refine (hiff hcurrent).mpr ?_
        rwa [← hcurrent.symm.trans hgood.2] at hgood'

theorem aligned_init (hinit : (phaseProgram setup).init s) :
    s.Coherent ∧ s.Aligned setup ∧ s.Current setup := by
  obtain ⟨firDecimation, selection, rfl⟩ := hinit
  have hcoherent : (PhaseState.initial setup firDecimation selection).Coherent := rfl
  exact ⟨hcoherent, (aligned_iff hcoherent rfl).mpr (.inr (dvd_zero _)), rfl⟩

end steps

section runs
variable {setup : PhaseSetup} {s s' : PhaseState} {l : List (PhaseState × PhaseInput × Unit)}

/-- The hardware has the phase for the latest settings all along, with the latest delay ready for the
next update, exactly if every step is compensated. -/
theorem target_phase_iff (hinit : (phaseProgram setup).init s)
    (hp : Runs.Path (phaseProgram setup).system s l s') :
    Runs.Always (fun s => s.Aligned setup ∧ s.Current setup) l s' ↔
      ∀ x ∈ l, Compensated setup x.1 x.2 :=
  hp.always_iff (I := PhaseState.Coherent) (fun _ _ _ h hstep => coherent_step h hstep)
    (fun _ _ _ h hgood hstep => aligned_step h hgood hstep)
    (aligned_init hinit).1 (aligned_init hinit).2

/-- The delays that come with the program, and a ring of 936 bunches. -/
def deliveredSetup : PhaseSetup where
  pllAdcDelay := -28
  pllFirDelay := -2
  pllAdcRejectDelay := -24
  bunches := 936

/-- A stopped PLL at some frequency. -/
def stoppedAt (freq : BitVec 48) : NcoReading := ⟨false, 0, freq⟩

/-- A frequency, a phase and another input. -/
def tuneInputs : List PhaseInput :=
  [.writeNcoFrequency 0x3456789ABCDE, .updateNcoFrequency (stoppedAt 0x3456789ABCDE),
    .writeTargetPhase 0x40000000, .writeDetInputSelect .fir]

theorem target_phase_tuned :
    Runs.Always (fun s => s.Aligned deliveredSetup ∧ s.Current deliveredSetup)
      ((phaseProgram deliveredSetup).trace (.initial deliveredSetup 1 .adc) tuneInputs)
      ((phaseProgram deliveredSetup).after (.initial deliveredSetup 1 .adc) tuneInputs) :=
  (target_phase_iff ⟨1, .adc, rfl⟩ ((phaseProgram deliveredSetup).path_trace _ _)).mpr (by
    intro x hx
    simp only [Runs.Machine.trace, Runs.Machine.replay, tuneInputs, phaseProgram, Option.map_some,
      Option.getD_some, List.mem_cons, List.not_mem_nil, or_false] at hx
    rcases hx with rfl | rfl | rfl | rfl
    · trivial
    · exact .inl (by decide)
    · trivial
    · exact .inl (by decide))

/-- A configured delay below minus one turn gets a wrong phase; and a decimation that is written while
the FIR is selected does not reach the hardware. -/
theorem target_phase_wrong :
    (¬ ∀ setup inputs, ((phaseProgram setup).after (.initial setup 1 .adc) inputs).Aligned setup) ∧
      ¬ ∀ inputs, ((phaseProgram deliveredSetup).after
        (.initial deliveredSetup 1 .fir) inputs).Aligned deliveredSetup := by
  refine ⟨fun h => ?_, fun h => ?_⟩
  · have hwrong := h { deliveredSetup with pllAdcDelay := -1000 }
      [.updateNcoFrequency (stoppedAt 1)]
    exact absurd hwrong (by unfold PhaseState.Aligned; decide)
  · have hwrong := h [.updateNcoFrequency (stoppedAt (1 <<< 40)), .writeFirDecimation 2,
      .writeTargetPhase 0]
    exact absurd hwrong (by unfold PhaseState.Aligned; decide)

end runs

end Mbf.TunePll
