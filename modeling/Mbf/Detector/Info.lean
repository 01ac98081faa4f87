import Mbf.Detector.Context

/-! # The description of a capture

What the axis tells of the capture in its memory (`get_detector_info`), as it is sent in the frame
of a detector command (`write_detector_info`). -/

namespace Mbf.Detector

/-- `struct detector_frame`. -/
structure DetectorFrame where
  detectorCount : BitVec 8
  detectorMask : BitVec 8
  delay : BitVec 16
  samples : BitVec 32
  bunches : BitVec 32
deriving DecidableEq

/-- `struct detector_info`. -/
structure DetectorInfo where
  detectorMask : ℕ
  detectorCount : ℕ
  samples : ℕ
  delay : ℤ

variable {Tune : Type}

/-- `get_detector_info`. -/
def getDetectorInfo (det : DetectorContext Tune) : DetectorInfo where
  detectorMask := det.detectorMask
  detectorCount := det.detectorCount
  samples := det.scaleInfo.samples
  delay := det.phaseDelay

/-- `write_detector_info`. -/
def writeDetectorInfo (bunches : ℕ) (info : DetectorInfo) : DetectorFrame where
  detectorCount := BitVec.ofNat 8 info.detectorCount
  detectorMask := BitVec.ofNat 8 info.detectorMask
  delay := BitVec.ofInt 16 info.delay
  samples := BitVec.ofNat 32 info.samples
  bunches := BitVec.ofNat 32 bunches

/-- `sizeof(struct detector_result)`. -/
def detectorResultSize : ℕ := 8

/-- The number and the mask of the enabled detectors fit the frame. -/
theorem countDetectors_fits (enable : DetectorId → Bool) :
    (countDetectors enable).1 ≤ 4 ∧ (countDetectors enable).2 < 2 ^ 8 ∧
      (∀ d : DetectorId, (countDetectors enable).2.testBit d.val = enable d) ∧
      ((∃ d, enable d = true) → 0 < (countDetectors enable).1) := by
  revert enable
  decide

/-- The description sent in the frame is not truncated. -/
theorem writeDetectorInfo_describes (enable : DetectorId → Bool) (bunches : ℕ) {samples : ℕ}
    {delay : ℤ} (hsamples : samples < 2 ^ 32) (hdelay : 0 ≤ delay ∧ delay < 2 ^ 16) :
    let f := writeDetectorInfo bunches
      ⟨(countDetectors enable).2, (countDetectors enable).1, samples, delay⟩
    f.detectorCount.toNat = (countDetectors enable).1 ∧
      (∀ d : DetectorId, f.detectorMask.getLsbD d.val = enable d) ∧
      (f.delay.toNat : ℤ) = delay ∧ f.samples.toNat = samples := by
  obtain ⟨hcount, hmask, hbits, -⟩ := countDetectors_fits enable
  have hfits : (countDetectors enable).1 < 2 ^ 8 := by omega
  refine ⟨?_, fun d => ?_, ?_, ?_⟩
  · exact Nat.mod_eq_of_lt hfits
  · have hd := d.isLt
    unfold writeDetectorInfo
    rw [BitVec.getLsbD_ofNat, hbits d, decide_eq_true (by omega), Bool.true_and]
  · unfold writeDetectorInfo
    rw [BitVec.toNat_ofInt, Int.toNat_of_nonneg (Int.emod_nonneg _ (by decide))]
    exact Int.emod_eq_of_lt hdelay.1 hdelay.2
  · exact Nat.mod_eq_of_lt hsamples

end Mbf.Detector
