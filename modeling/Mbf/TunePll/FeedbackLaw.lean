import Mathlib.Algebra.BigOperators.Intervals
import Mbf.TunePll.Feedback

/-! # The law of the frequency feedback

The stages of the feedback are followed clock by clock: a dwell that starts on clock `n` has its
phase error on `n + 1`, its products on `n + 2`, its integral on `n + 3`, its frequency on `n + 4`,
its full offset on `n + 5`, and is reported on `n + 6`, together with `done_o`.

The limits are checked one stage late: what is checked with the report of a dwell is the offset
that was reported on the clock before.  `feedback_law_iff` says when that makes no difference. -/

namespace Mbf.TunePll

open Finset

variable (i : ℕ → FeedbackInput)

/-! ### Dwells and writes -/

/-- `start_i`: a dwell starts. -/
def start (n : ℕ) : Bool := (feedbackRun i n).cordic.done

/-- `set_frequency_i`: the base frequency has just been written. -/
def written (n : ℕ) : Bool := (feedbackRun i n).base.writeFreq

/-- `base_frequency_i`. -/
def baseFrequency (n : ℕ) : Angle := (feedbackRun i n).base.ncoFreq

/-- The dwell that starts on clock `n` counts: it is enabled, not blanked, free of detector
overflow and not below the magnitude limit. -/
def counted (n : ℕ) : Bool :=
  start i n && (i n).controls.enable && !(i n).controls.blanking &&
    !(i n).controls.detectorOverflow &&
    !(feedbackRun i n).cordic.magnitude.ult (i n).controls.magnitudeLimit

/-- A gain times the phase error, modulo `2 ^ 48`. -/
def phaseTerm (gain : BitVec 25) (n : ℕ) : Angle :=
  BitVec.ofInt 48
    (((i n).controls.targetPhase - (feedbackRun i n).cordic.angle).toInt * gain.toInt)

/-- What the dwell adds to the integral. -/
def integralTerm (n : ℕ) : Angle :=
  if counted i n then phaseTerm i (i n).controls.integral n else 0

/-- Successive starts are spaced by more than the length of the pipeline. -/
def Spaced : Prop := ∀ m n, start i m → start i n → m < n → m + 6 < n

/-- The settings and flags are steady from each start to its report. -/
def Steady : Prop := ∀ n, start i n → ∀ k ≤ 6, (i (n + k)).controls = (i n).controls

/-! ### The stages -/

section stages
variable {i}

theorem feedbackRun_succ (n : ℕ) :
    feedbackRun i (n + 1) = (feedbackRun i n).clock (i n) := rfl

/-- The registers of the feedback before clock `n`. -/
abbrev feedback (i : ℕ → FeedbackInput) (n : ℕ) : Feedback := (feedbackRun i n).feedback

theorem startIn_eq (n : ℕ) : (feedback i (n + 2)).startIn = start i n :=
  dlyline_out (fun n => (feedback i n).startLine) (start i) (fun _ => rfl) 1 n

theorem doneO_eq (n : ℕ) :
    (feedback i (n + 6)).doneO = (start i n && (i n).controls.enable) :=
  dlyline_out (fun n => (feedback i n).doneLine) (fun n => start i n && (i n).controls.enable)
    (fun _ => rfl) 5 n

/-- The product of the stage, at the width of the frequency. -/
theorem product_eq (error : PhaseAngle) (gain : BitVec 25) :
    (error.signExtend productLength * gain.signExtend productLength).signExtend 48 =
      BitVec.ofInt 48 (error.toInt * gain.toInt) := by
  have hexact := Signed.product (p := 18) (q := 25) (by decide) (by decide) error gain
  rw [BitVec.signExtend.eq_1 48]
  exact congrArg (BitVec.ofInt 48) hexact

theorem integralUpdate_eq (n : ℕ) : (feedback i (n + 2)).integralUpdate.signExtend 48 =
    phaseTerm i (i n).controls.integral n := product_eq _ _

theorem proportionalUpdate_eq (n : ℕ) : (feedback i (n + 2)).proportionalUpdate.signExtend 48 =
    phaseTerm i (i n).controls.proportional n := product_eq _ _

/-- The result of the CORDIC is held until the next start. -/
theorem cordic_held {n : ℕ} (h : start i (n + 1) = false) :
    (feedbackRun i (n + 1)).cordic.angle = (feedbackRun i n).cordic.angle ∧
      (feedbackRun i (n + 1)).cordic.magnitude = (feedbackRun i n).cordic.magnitude := by
  have hdone : (i n).done = none := Option.isNone_iff_eq_none.mp (by
    rw [← Option.not_isSome]
    exact congrArg (! ·) h)
  simp [feedbackRun_succ, FeedbackRig.clock, CordicResult.clock, hdone]

/-- Nothing moves before the first dwell or write has come through. -/
theorem early_still : (feedback i 2).frequencyIntegral = 0 ∧ (feedback i 3).frequencyOut = 0 ∧
    (feedback i 4).fullFrequencyOffset = 0 := by
  have hupdate₀ : (feedback i 0).updateIntegral (i 0).controls = false := Bool.and_false _
  have hupdate₁ : (feedback i 1).updateIntegral (i 1).controls = false := Bool.and_false _
  have hintegral₁ : (feedback i 1).frequencyIntegral = 0 := if_neg (ne_true_of_eq_false hupdate₀)
  have hintegral : (feedback i 2).frequencyIntegral = 0 :=
    (if_neg (ne_true_of_eq_false hupdate₁)).trans hintegral₁
  have hout₁ : (feedback i 1).updateOut = false := hupdate₀
  have hout₂ : (feedback i 2).updateOut = false := hupdate₁
  refine ⟨hintegral, ?_, ?_⟩
  · exact (if_neg (ne_true_of_eq_false hout₂)).trans (if_neg (ne_true_of_eq_false hout₁))
  · exact (if_neg (ne_true_of_eq_false hout₂)).trans (if_neg (ne_true_of_eq_false hout₁))

variable (hspaced : Spaced i) (hsteady : Steady i)
include hspaced

/-- There is no start within the pipeline after another. -/
theorem not_start {n k : ℕ} (h : start i n) (hk : 0 < k) (hk6 : k ≤ 6) :
    start i (n + k) = false := by
  cases hstart : start i (n + k) with
  | false => rfl
  | true =>
      have := hspaced n (n + k) h hstart (by omega)
      omega

/-- The magnitude error of a dwell stays with it. -/
theorem magnitudeError_eq {n k : ℕ} (h : start i n) (hk : k ≤ 6) :
    (feedback i (n + 1 + k)).magnitudeError =
      (feedbackRun i n).cordic.magnitude.ult (i n).controls.magnitudeLimit := by
  induction k with
  | zero => exact if_pos h
  | succ k ih =>
      have hno : start i (n + 1 + k) = false := by
        rw [Nat.add_assoc]
        exact not_start hspaced h (by omega) (by omega)
      have hheld : (feedback i (n + 1 + k + 1)).magnitudeError =
          (feedback i (n + 1 + k)).magnitudeError := if_neg (by
        show ¬ start i (n + 1 + k) = true
        rw [hno]
        decide)
      rw [← ih (by omega)]
      exact hheld

include hsteady

/-- While a dwell is in the pipeline, feedback is enabled exactly if the dwell counts. -/
theorem enableFeedback_eq {n k : ℕ} (h : start i n) (hk : k ≤ 5) :
    (feedback i (n + 1 + k)).enableFeedback (i (n + 1 + k)).controls = counted i n := by
  have hcontrols := hsteady n h (1 + k) (by omega)
  rw [← Nat.add_assoc] at hcontrols
  unfold Feedback.enableFeedback counted
  rw [hcontrols, magnitudeError_eq hspaced h (by omega), h, Bool.true_and]

theorem updateIntegral_eq (n : ℕ) :
    (feedback i (n + 2)).updateIntegral (i (n + 2)).controls = counted i n := by
  unfold Feedback.updateIntegral
  rw [startIn_eq]
  cases h : start i n with
  | true =>
      rw [Bool.and_true]
      exact enableFeedback_eq hspaced hsteady h (k := 1) (by decide)
  | false => simp [counted, h]

/-- The integral: a write of the base frequency overrides, otherwise a dwell adds its term. -/
theorem frequencyIntegral_eq (n : ℕ) : (feedback i (n + 3)).frequencyIntegral =
    if written i (n + 1) then baseFrequency i (n + 1)
    else (feedback i (n + 2)).frequencyIntegral + integralTerm i n := by
  have hstage : (feedback i (n + 3)).frequencyIntegral =
      if written i (n + 1) then baseFrequency i (n + 1)
      else if (feedback i (n + 2)).updateIntegral (i (n + 2)).controls then
        (feedback i (n + 2)).frequencyIntegral +
          (feedback i (n + 2)).integralUpdate.signExtend 48
      else (feedback i (n + 2)).frequencyIntegral := rfl
  rw [hstage, updateIntegral_eq hspaced hsteady, integralUpdate_eq]
  unfold integralTerm
  cases counted i n with
  | true => rfl
  | false => rw [if_neg Bool.false_ne_true, if_neg Bool.false_ne_true, add_zero]

/-- The output is renewed on the fourth clock: by the dwell, or by a write since. -/
def renews (i : ℕ → FeedbackInput) (n : ℕ) : Bool := written i (n + 1) || counted i n

theorem updateOut_eq (n : ℕ) : (feedback i (n + 3)).updateOut = renews i n := by
  show (written i (n + 1) || (feedback i (n + 2)).updateIntegral (i (n + 2)).controls) = _
  rw [updateIntegral_eq hspaced hsteady]
  rfl

theorem frequencyOut_still {n : ℕ} (h : renews i n = false) :
    (feedback i (n + 4)).frequencyOut = (feedback i (n + 3)).frequencyOut := by
  have hupdate := updateOut_eq hspaced hsteady n
  rw [h] at hupdate
  exact if_neg (ne_true_of_eq_false hupdate)

/-- A dwell that counts adds its proportional term to the output, and to nothing else. -/
theorem frequencyOut_counted {n : ℕ} (h : counted i n) :
    (feedback i (n + 4)).frequencyOut = (feedback i (n + 3)).frequencyIntegral +
      phaseTerm i (i n).controls.proportional n := by
  have hstart : start i n := by
    unfold counted at h
    simp only [Bool.and_eq_true] at h
    exact h.1.1.1.1
  have hupdate : (feedback i (n + 3)).updateOut = true := by
    rw [updateOut_eq hspaced hsteady]
    simp [renews, h]
  have henable := enableFeedback_eq hspaced hsteady hstart (k := 2) (by decide)
  have hterm : (feedback i (n + 3)).proportionalUpdate.signExtend 48 =
      phaseTerm i (i n).controls.proportional n := by
    have hcontrols := hsteady n hstart 1 (by decide)
    have hangle := (cordic_held (not_start hspaced hstart (k := 1) (by decide) (by decide))).1
    rw [proportionalUpdate_eq (n + 1)]
    unfold phaseTerm
    rw [hcontrols, hangle]
  rw [h] at henable
  rw [← hterm]
  show (if (feedback i (n + 3)).updateOut then
    if (feedback i (n + 3)).enableFeedback (i (n + 3)).controls then _ else _ else _) = _
  rw [hupdate, henable]
  rfl

end stages

/-! ### The law -/

/-- The base frequency that the output was last renewed against. -/
def offsetBase : ℕ → Angle
  | 0 => if renews i 0 then baseFrequency i 3 else 0
  | n + 1 => if renews i (n + 1) then baseFrequency i (n + 4) else offsetBase n

/-- The floor of the output frequency less the base, in units of 256. -/
def offsetValue (n : ℕ) : ℤ :=
  ((feedback i (n + 4)).frequencyOut - offsetBase i n).toInt / 2 ^ 8

/-- The value is outside the limits. -/
def Exceeds (limit : BitVec 32) (v : ℤ) : Prop := ¬ (-limit.toInt - 1 ≤ v ∧ v ≤ limit.toInt)

instance (limit : BitVec 32) (v : ℤ) : Decidable (Exceeds limit v) :=
  inferInstanceAs (Decidable (¬ _))

/-- What is promised of the dwell that starts on clock `n`. -/
structure FollowsLaw (n : ℕ) : Prop where
  /-- The integral is the last base frequency written plus the terms of the later dwells. -/
  integral : ∀ w, written i w → w ≤ n + 1 → (∀ w', w < w' → w' ≤ n + 1 → written i w' = false) →
    (feedback i (n + 3)).frequencyIntegral =
      baseFrequency i w + ∑ d ∈ Ico w (n + 1), integralTerm i d
  /-- Before the first write it is the sum of the terms. -/
  unwritten : (∀ w ≤ n + 1, written i w = false) →
    (feedback i (n + 3)).frequencyIntegral = ∑ d ∈ range (n + 1), integralTerm i d
  /-- The output is the integral plus the proportional term. -/
  output : counted i n → (feedback i (n + 4)).frequencyOut =
    (feedback i (n + 3)).frequencyIntegral + phaseTerm i (i n).controls.proportional n
  /-- A dwell that is vetoed leaves the frequency as it is. -/
  vetoed : counted i n = false → written i (n + 1) = false →
    (feedback i (n + 3)).frequencyIntegral = (feedback i (n + 2)).frequencyIntegral ∧
      (feedback i (n + 4)).frequencyOut = (feedback i (n + 3)).frequencyOut
  /-- The report comes with `done_o`. -/
  done : (feedback i (n + 6)).doneO = (i n).controls.enable
  /-- The offset that is reported. -/
  offset : (feedback i (n + 6)).frequencyOffsetOut = BitVec.ofInt 32 (offsetValue i n)
  /-- The error is raised exactly if the offset does not fit or exceeds the limits. -/
  error : (feedback i (n + 6)).offsetError = true ↔
    ¬ Signed.Fits 32 (offsetValue i n) ∨ Exceeds (i n).controls.offsetLimit (offsetValue i n)

/-- The offset is not overridden, and if it fits, the offset reported on the clock before is on the
same side of the limits. -/
structure Timely (n : ℕ) : Prop where
  offset : (i n).controls.offsetOverride = true →
    (i n).controls.debugOffset = BitVec.ofInt 32 (offsetValue i n)
  limits : Signed.Fits 32 (offsetValue i n) →
    (Exceeds (i n).controls.offsetLimit (feedback i (n + 5)).frequencyOffsetOut.toInt ↔
      Exceeds (i n).controls.offsetLimit (offsetValue i n))

section law
variable {i} (hspaced : Spaced i) (hsteady : Steady i)
include hspaced hsteady

/-- Between writes the integral is a sum. -/
theorem integral_sum {w n : ℕ} (hwritten : written i w) (hw : w ≤ n + 1)
    (hlast : ∀ w', w < w' → w' ≤ n + 1 → written i w' = false) :
    (feedback i (n + 3)).frequencyIntegral =
      baseFrequency i w + ∑ d ∈ Ico w (n + 1), integralTerm i d := by
  induction n with
  | zero =>
      have hone : w = 1 := by
        have : w ≠ 0 := by
          rintro rfl
          cases hwritten
        omega
      subst hone
      rw [frequencyIntegral_eq hspaced hsteady, if_pos hwritten, Ico_self, sum_empty, add_zero]
  | succ n ih =>
      rw [frequencyIntegral_eq hspaced hsteady (n + 1)]
      by_cases htop : w = n + 1 + 1
      · subst htop
        rw [if_pos hwritten, Ico_self, sum_empty, add_zero]
      · have hstill := hlast (n + 1 + 1) (by omega) (by omega)
        rw [if_neg (ne_true_of_eq_false hstill), sum_Ico_succ_top (by omega), ← add_assoc]
        congr 1
        exact ih (by omega) fun w' hlt hle => hlast w' hlt (by omega)

theorem integral_unwritten {n : ℕ} (hnone : ∀ w ≤ n + 1, written i w = false) :
    (feedback i (n + 3)).frequencyIntegral = ∑ d ∈ range (n + 1), integralTerm i d := by
  induction n with
  | zero =>
      rw [frequencyIntegral_eq hspaced hsteady, if_neg (ne_true_of_eq_false (hnone 1 (by omega))),
        sum_range_one]
      show (feedback i 2).frequencyIntegral + _ = _
      rw [early_still.1]
      exact zero_add (integralTerm i 0)
  | succ n ih =>
      rw [frequencyIntegral_eq hspaced hsteady (n + 1),
        if_neg (ne_true_of_eq_false (hnone (n + 2) (by omega))), sum_range_succ]
      congr 1
      exact ih fun w hw => hnone w (by omega)

/-- The full offset is that of the output, against the base it was last renewed against. -/
theorem fullFrequencyOffset_eq (n : ℕ) : (feedback i (n + 5)).fullFrequencyOffset =
    (feedback i (n + 4)).frequencyOut - offsetBase i n := by
  have hstage : ∀ m, (feedback i (m + 5)).fullFrequencyOffset =
      if renews i m then (feedback i (m + 4)).frequencyOut - baseFrequency i (m + 3)
      else (feedback i (m + 4)).fullFrequencyOffset := by
    intro m
    rw [← updateOut_eq hspaced hsteady m]
    rfl
  induction n with
  | zero =>
      rw [hstage 0]
      unfold offsetBase
      cases hrenews : renews i 0 with
      | true => rfl
      | false =>
          have hout : (feedback i (0 + 4)).frequencyOut = 0 :=
            (frequencyOut_still hspaced hsteady hrenews).trans early_still.2.1
          have hfull : (feedback i (0 + 4)).fullFrequencyOffset = 0 := early_still.2.2
          rw [if_neg Bool.false_ne_true, if_neg Bool.false_ne_true, hout, hfull, sub_zero]
  | succ n ih =>
      rw [hstage (n + 1)]
      unfold offsetBase
      cases hrenews : renews i (n + 1) with
      | true => rfl
      | false =>
          rw [frequencyOut_still hspaced hsteady hrenews]
          exact ih

theorem offsetOverflow_eq (n : ℕ) :
    (feedback i (n + 5)).offsetOverflow = true ↔ ¬ Signed.Fits 32 (offsetValue i n) := by
  unfold offsetValue
  rw [← fullFrequencyOffset_eq hspaced hsteady n, Feedback.offsetOverflow]
  exact overflowDetect_iff (k := 8) (o := 32) _ (by decide) (by decide) rfl rfl

theorem frequencyOffset_eq (n : ℕ) :
    (feedback i (n + 5)).frequencyOffset = BitVec.ofInt 32 (offsetValue i n) := by
  unfold Feedback.frequencyOffset offsetValue
  rw [Signed.extract_eq _ (by decide), fullFrequencyOffset_eq hspaced hsteady n]

omit hspaced hsteady in
theorem outside_iff (limit offset : BitVec 32) :
    Feedback.outside limit offset = true ↔ Exceeds limit offset.toInt := by
  unfold Feedback.outside Exceeds
  rw [Bool.or_eq_true, BitVec.slt_iff_toInt_lt, BitVec.slt_iff_toInt_lt, Signed.toInt_not (by decide)]
  omega

/-- The offset that is reported with a dwell. -/
theorem frequencyOffsetOut_eq {n : ℕ} (h : start i n) :
    (feedback i (n + 6)).frequencyOffsetOut =
      if (i n).controls.offsetOverride then (i n).controls.debugOffset
      else BitVec.ofInt 32 (offsetValue i n) := by
  rw [← frequencyOffset_eq hspaced hsteady n, ← hsteady n h 5 (by decide)]
  rfl

/-- The error that is reported with a dwell: the limits are checked against the report of the
clock before. -/
theorem offsetError_iff {n : ℕ} (h : start i n) : (feedback i (n + 6)).offsetError = true ↔
    ¬ Signed.Fits 32 (offsetValue i n) ∨
      Exceeds (i n).controls.offsetLimit (feedback i (n + 5)).frequencyOffsetOut.toInt := by
  have hstage : (feedback i (n + 6)).offsetError = ((feedback i (n + 5)).offsetOverflow ||
      Feedback.outside (i (n + 5)).controls.offsetLimit
        (feedback i (n + 5)).frequencyOffsetOut) := rfl
  rw [hstage, hsteady n h 5 (by decide), Bool.or_eq_true, offsetOverflow_eq hspaced hsteady,
    outside_iff]

/-- A dwell that is vetoed leaves the frequency as it is. -/
theorem vetoed_still {n : ℕ} (hcounted : counted i n = false)
    (hwritten : written i (n + 1) = false) :
    (feedback i (n + 3)).frequencyIntegral = (feedback i (n + 2)).frequencyIntegral ∧
      (feedback i (n + 4)).frequencyOut = (feedback i (n + 3)).frequencyOut := by
  constructor
  · rw [frequencyIntegral_eq hspaced hsteady, if_neg (ne_true_of_eq_false hwritten)]
    unfold integralTerm
    rw [if_neg (ne_true_of_eq_false hcounted), add_zero]
  · apply frequencyOut_still hspaced hsteady
    rw [renews, hwritten, hcounted, Bool.or_false]

end law

/-- A dwell follows the law exactly if the check of its limits is in time. -/
theorem feedback_law_iff (i : ℕ → FeedbackInput) (hspaced : Spaced i) (hsteady : Steady i) (n : ℕ)
    (h : start i n) : FollowsLaw i n ↔ Timely i n := by
  have hoffset := frequencyOffsetOut_eq hspaced hsteady h
  have herror := offsetError_iff hspaced hsteady h
  constructor
  · intro hlaw
    constructor
    · intro hoverride
      rw [← hlaw.offset, hoffset, if_pos hoverride]
    · intro hfits
      have hlimits := herror.symm.trans hlaw.error
      rw [or_iff_right (not_not.mpr hfits), or_iff_right (not_not.mpr hfits)] at hlimits
      exact hlimits
  · intro htimely
    constructor
    · intro w hwritten hw hlast
      exact integral_sum hspaced hsteady hwritten hw hlast
    · exact integral_unwritten hspaced hsteady
    · exact frequencyOut_counted hspaced hsteady
    · exact vetoed_still hspaced hsteady
    · rw [doneO_eq, h, Bool.true_and]
    · rw [hoffset]
      split
      · exact htimely.offset ‹_›
      · rfl
    · rw [herror]
      by_cases hfits : Signed.Fits 32 (offsetValue i n)
      · rw [htimely.limits hfits]
      · exact iff_of_true (Or.inl hfits) (Or.inl hfits)

/-! ### A single dwell -/

/-- One dwell, with a phase error of 1 and an integral gain of 512. -/
def dwellInput (limit : BitVec 32) (n : ℕ) : FeedbackInput where
  controls :=
    { enable := true, blanking := false, detectorOverflow := false, magnitudeLimit := 0
      offsetLimit := limit, targetPhase := 1, integral := 512, proportional := 0
      offsetOverride := false, debugOffset := 0 }
  writeLow := none
  writeHigh := none
  done := if n = 0 then some (0, 1) else none

theorem dwellInput_start {limit : BitVec 32} {n : ℕ} (h : start (dwellInput limit) n) : n = 1 := by
  cases n with
  | zero => cases h
  | succ n =>
      cases n with
      | zero => rfl
      | succ n => cases h

theorem dwellInput_spaced (limit : BitVec 32) : Spaced (dwellInput limit) := by
  intro m n hm hn hlt
  rw [dwellInput_start hm, dwellInput_start hn] at hlt
  omega

theorem dwellInput_steady (limit : BitVec 32) : Steady (dwellInput limit) := fun _ _ _ _ => rfl

theorem dwellInput_value {limit : BitVec 32} (h : limit = 1 ∨ limit = 5) :
    offsetValue (dwellInput limit) 1 = 2 := by
  cases h with
  | inl h =>
      subst h
      decide +kernel
  | inr h =>
      subst h
      decide +kernel

/-- Within the limits the dwell follows the law. -/
theorem feedback_law_within : FollowsLaw (dwellInput 5) 1 :=
  (feedback_law_iff (dwellInput 5) (dwellInput_spaced 5) (dwellInput_steady 5) 1 rfl).mpr
    { offset := fun h => absurd h Bool.false_ne_true
      limits := fun _ => by
        have hbefore : (feedback (dwellInput 5) 6).frequencyOffsetOut = 0 := by decide +kernel
        rw [hbefore, dwellInput_value (by decide)]
        decide }

/-- A dwell that takes the offset over the limit is reported without an error. -/
theorem feedback_law_late : ¬ ∀ i, Spaced i → Steady i → ∀ n, start i n → FollowsLaw i n := by
  intro h
  have hlaw := h (dwellInput 1) (dwellInput_spaced 1) (dwellInput_steady 1) 1 rfl
  have herror : (feedback (dwellInput 1) 7).offsetError = false := by decide +kernel
  have hexceeds : Exceeds 1 (offsetValue (dwellInput 1) 1) := by
    rw [dwellInput_value (by decide)]
    decide
  have hraised : (feedback (dwellInput 1) 7).offsetError = true := hlaw.error.mpr (Or.inr hexceeds)
  rw [herror] at hraised
  cases hraised

end Mbf.TunePll
