import Mathlib.Data.BitVec
import Mathlib.Algebra.BigOperators.Intervals
import Mathlib.Algebra.Order.BigOperators.Group.Finset
import Mbf.Detector.Dsp96
import Mbf.Lib.Literals
import Mbf.Util

/-! # From the accumulators to the output of a detector

`detector_core` and the scaling of its result in `detector_body`.  The accumulators for cosine and
sine start from a one right below the bits that are read out, so that these are rounded.  A write
takes the sums three clocks later, before a start on the same clock can reach them; the result is
brought over to the DSP clock and shifted there.

A write takes the sum of all products since the start, and its rounded bits reach the output if
the next write leaves time for it.  The overflow is told right if the start is at least two clocks
before the write: on the clock after a start the units compare with the preload instead of the
mask (`detector_write`). -/

namespace Mbf.Detector

open Finset

/-- The two fields of `cos_sin_t`. -/
inductive Quadrature where
  | cos
  | sin

/-- `cos_sin_t`. -/
abbrev CosSin (α : Type) := Quadrature → α

/-- What comes in on one ADC clock. -/
structure DetectorInput where
  data : BitVec 25
  iq : CosSin (BitVec 18)
  bunchEnable : Bool
  start : Bool
  write : Bool
  /-- The DSP clock rises with this clock. -/
  dspClock : Bool

/-! ### `detector_core` -/

/-- A vector whose bits are assigned in a loop. -/
def ofBits (bit : ℕ → Bool) : (n : ℕ) → BitVec n
  | 0 => 0
  | n + 1 => BitVec.cons (bit n) (ofBits bit n)

theorem getLsbD_ofBits (bit : ℕ → Bool) {n i : ℕ} (hi : i < n) :
    (ofBits bit n).getLsbD i = bit i := by
  induction n with
  | zero => exact absurd hi (Nat.not_lt_zero i)
  | succ n ih =>
      unfold ofBits
      rw [BitVec.getLsbD_cons]
      split_ifs with htop
      · rw [htop]
      · exact ih (by omega)

/-- A one right below the bit that is read out first. -/
def preload (shift : ℕ) : BitVec 96 := ofBits (fun i => decide (i + 1 = shift)) 96

/-- `RESULT_WIDTH`. -/
def resultWidth : ℕ := 32

/-- All bits below the sign bit of the result. -/
def overflowMask (shift : ℕ) : BitVec 96 :=
  ofBits (fun i => decide (i < resultWidth - 1 + shift)) 96

/-- The registers of `detector_core`. -/
structure DetectorCore where
  /-- `bunch_delay_cos` and `bunch_delay_sin`, which delay the same. -/
  bunchDelay : Fin 4 → Bool := fun _ => false
  /-- `cos_detect` and `sin_detect`. -/
  detect : CosSin Dsp96 := fun _ => {}
  delayWrite : Fin 3 → Bool := fun _ => false
  writeO : Bool := false
  iqO : CosSin (BitVec 96) := fun _ => 0
  detectorOverflow : Bool := false

namespace DetectorCore

def bunchEnable (c : DetectorCore) : Bool := c.bunchDelay 3

def writeIn (c : DetectorCore) : Bool := c.delayWrite 2

def clock (shift : ℕ) (i : DetectorInput) (c : DetectorCore) : DetectorCore where
  bunchDelay := dlyline c.bunchDelay i.bunchEnable
  detect q := (c.detect q).clock (preload shift) (overflowMask shift)
    ⟨i.data, i.iq q, c.bunchEnable, i.start⟩
  delayWrite := dlyline c.delayWrite i.write
  writeO := c.writeIn
  iqO := if c.writeIn then fun q => (c.detect q).sumO else c.iqO
  detectorOverflow :=
    if c.writeIn then (c.detect .cos).overflowO || (c.detect .sin).overflowO
    else c.detectorOverflow

end DetectorCore

/-! ### The output of `detector_body` -/

/-- The registers on the DSP clock, up to the output. -/
structure ScaledOutput where
  /-- `pulse_o` of `write_to_dsp`. -/
  detWriteDspIn : Bool := false
  detWriteDsp : Bool := false
  detWriteOut : Bool := false
  iqShiftIn : CosSin (BitVec 96) := fun _ => 0
  iqShift : CosSin (BitVec 96) := fun _ => 0
  iqOut : CosSin (BitVec 32) := fun _ => 0

/-- `shift_right(x, shift)(31 downto 0)`. -/
def shiftRight (shift : ℕ) (x : BitVec 96) : BitVec 32 := (x.sshiftRight shift).setWidth 32

def ScaledOutput.clock (shift : ℕ) (pulseStretch : Bool) (iqO : CosSin (BitVec 96))
    (o : ScaledOutput) : ScaledOutput where
  detWriteDspIn := pulseStretch
  detWriteDsp := o.detWriteDspIn
  detWriteOut := o.detWriteDsp
  iqShiftIn := iqO
  iqShift := o.iqShiftIn
  iqOut :=
    if o.detWriteDsp then fun q => shiftRight shift (o.iqShift q) else o.iqOut

/-- The core, `write_to_dsp` and the output. -/
structure DetectorBody where
  core : DetectorCore := {}
  pulseDelay : Bool := false
  pulseStretch : Bool := false
  output : ScaledOutput := {}

namespace DetectorBody

def clock (shift : ℕ) (i : DetectorInput) (b : DetectorBody) : DetectorBody where
  core := b.core.clock shift i
  pulseDelay := b.core.writeO
  pulseStretch := b.core.writeO || b.pulseDelay
  output := if i.dspClock then b.output.clock shift b.pulseStretch b.core.iqO else b.output

/-- The registers before clock `n`. -/
def run (shift : ℕ) (input : ℕ → DetectorInput) : ℕ → DetectorBody :=
  Clocked.run (clock shift) {} input

end DetectorBody

/-! ### The single accumulator -/

section accumulator
variable (shift : ℕ) (input : ℕ → DetectorInput)

/-- The bunch enable as it reaches the accumulators. -/
def enabled (n : ℕ) : Bool := if 4 ≤ n then (input (n - 4)).bunchEnable else false

/-- The inputs of one of the accumulators. -/
def channel (q : Quadrature) (n : ℕ) : Dsp96Input :=
  ⟨(input n).data, (input n).iq q, enabled input n, (input n).start⟩

/-- The half of the unit that is read out. -/
def rounding (shift : ℕ) : ℤ := if shift = 0 then 0 else 2 ^ (shift - 1)

/-- The preload and the products from clock `s` up to clock `w`. -/
def accumulated (q : Quadrature) (s w : ℕ) : ℤ :=
  rounding shift + ∑ k ∈ Ico s w, (channel input q k).product.toInt

/-- The single accumulator of 96 bits. -/
def accumulator (q : Quadrature) (s w : ℕ) : BitVec 96 :=
  BitVec.ofInt 96 (accumulated shift input q s w)

end accumulator

/-! ### The masks -/

theorem preload_eq (shift : ℕ) : preload shift = BitVec.ofInt 96 (rounding shift) := by
  apply BitVec.eq_of_getLsbD_eq
  intro i hi
  unfold preload rounding
  rw [getLsbD_ofBits _ hi]
  split_ifs with hzero
  · rw [show BitVec.ofInt 96 0 = 0#96 from rfl, BitVec.getLsbD_zero, decide_eq_false (by omega)]
  · have hpow : BitVec.ofInt 96 (2 ^ (shift - 1)) = BitVec.twoPow 96 (shift - 1) := by
      apply BitVec.eq_of_toNat_eq
      rw [BitVec.toNat_twoPow, BitVec.toNat_ofInt]
      norm_cast
    rw [hpow, BitVec.getLsbD_twoPow, ← Bool.decide_and, decide_eq_decide]
    omega

theorem getLsbD_overflowMask (shift : ℕ) {i : ℕ} (hi : i < 96) :
    (overflowMask shift).getLsbD i = decide (i < resultWidth - 1 + shift) :=
  getLsbD_ofBits _ hi

/-- What the mask leaves of a word are its bits from the sign bit of the result. -/
theorem masked_zero (shift : ℕ) (x : BitVec 96) :
    x &&& ~~~ overflowMask shift = 0 ↔
      x.extractLsb' (shift + resultWidth - 1) (96 - (shift + resultWidth - 1)) = 0 := by
  unfold resultWidth
  constructor
  · intro h
    apply BitVec.eq_of_getLsbD_eq
    intro i hi
    have hbit := congrArg (fun y => y.getLsbD (shift + 32 - 1 + i)) h
    simp only [BitVec.getLsbD_and, BitVec.getLsbD_not, getLsbD_overflowMask shift
      (show shift + 32 - 1 + i < 96 by omega)] at hbit
    unfold resultWidth at hbit
    rw [decide_eq_true (by omega), decide_eq_false (by omega)] at hbit
    rw [BitVec.getLsbD_extractLsb', decide_eq_true hi, Bool.true_and]
    simpa using hbit
  · intro h
    apply BitVec.eq_of_getLsbD_eq
    intro i hi
    rw [BitVec.getLsbD_and, BitVec.getLsbD_not, getLsbD_overflowMask shift hi]
    by_cases hmask : i < 32 - 1 + shift
    · simp [resultWidth, hmask]
    · have hbit := congrArg (fun y => y.getLsbD (i - (shift + 32 - 1))) h
      simp only [BitVec.getLsbD_extractLsb'] at hbit
      have hplace : shift + 32 - 1 + (i - (shift + 32 - 1)) = i := by omega
      rw [hplace, decide_eq_true (by omega), Bool.true_and] at hbit
      simp [hbit]

theorem masked_ones (shift : ℕ) (x : BitVec 96) :
    ~~~ x &&& ~~~ overflowMask shift = 0 ↔
      x.extractLsb' (shift + resultWidth - 1) (96 - (shift + resultWidth - 1)) =
        BitVec.allOnes _ := by
  rw [masked_zero]
  have hextract : (~~~ x).extractLsb' (shift + resultWidth - 1) (96 - (shift + resultWidth - 1)) =
      ~~~ x.extractLsb' (shift + resultWidth - 1) (96 - (shift + resultWidth - 1)) := by
    apply BitVec.eq_of_getLsbD_eq
    intro i hi
    simp [hi, show shift + resultWidth - 1 + i < 96 by omega]
  rw [hextract]
  constructor
  · intro h
    have hnot := congrArg (fun y => ~~~ y) h
    simpa using hnot
  · intro h
    rw [h]
    exact BitVec.not_allOnes

/-! ### The run of the core -/

section run
variable (shift : ℕ) (input : ℕ → DetectorInput) (n : ℕ)

theorem run_bunchEnable : (DetectorBody.run shift input n).core.bunchEnable = enabled input n := by
  unfold enabled
  split_ifs with hn
  · have hline := dlyline_out (fun t => (DetectorBody.run shift input t).core.bunchDelay)
      (fun t => (input t).bunchEnable) (fun t => rfl) 3 (n - 4)
    have hplace : n - 4 + (3 : Fin 4).val + 1 = n := by
      change n - 4 + 3 + 1 = n
      omega
    rwa [hplace] at hline
  · obtain rfl | rfl | rfl | rfl : n = 0 ∨ n = 1 ∨ n = 2 ∨ n = 3 := by omega
    all_goals rfl

theorem run_writeIn : (DetectorBody.run shift input (n + 3)).core.writeIn = (input n).write :=
  dlyline_out (fun t => (DetectorBody.run shift input t).core.delayWrite)
    (fun t => (input t).write) (fun _ => rfl) 2 n

/-- Each accumulator runs on its channel. -/
theorem run_detect (q : Quadrature) : (DetectorBody.run shift input n).core.detect q =
    Dsp96.run (preload shift) (overflowMask shift) (channel input q) n := by
  induction n with
  | zero => rfl
  | succ n ih =>
      have hclock : (DetectorBody.run shift input (n + 1)).core.detect q =
          ((DetectorBody.run shift input n).core.detect q).clock (preload shift) (overflowMask shift)
            ⟨(input n).data, (input n).iq q, (DetectorBody.run shift input n).core.bunchEnable,
              (input n).start⟩ := rfl
      rw [hclock, run_bunchEnable, ih]
      rfl

end run

section write
variable {shift : ℕ} {input : ℕ → DetectorInput} {s w : ℕ}

theorem accumulator_succ (q : Quadrature) (hsw : s ≤ w) :
    accumulator shift input q s (w + 1) =
      accumulator shift input q s w + (channel input q w).product.signExtend 96 := by
  unfold accumulator accumulated
  rw [sum_Ico_succ_top hsw, ← add_assoc, BitVec.ofInt_add]
  rfl

/-- From a start on the sum is that of the single accumulator. -/
theorem sumO_accumulator (q : Quadrature) (hsw : s < w) (hstart : (input s).start = true)
    (hquiet : ∀ k, s < k → k < w → (input k).start = false) :
    (Dsp96.run (preload shift) (overflowMask shift) (channel input q) (w + 3)).sumO =
      accumulator shift input q s w := by
  induction w, hsw using Nat.le_induction with
  | base =>
      have hfirst : (channel input q s).start = true := hstart
      have hempty : accumulator shift input q s s = preload shift := by
        unfold accumulator accumulated
        rw [Ico_self, sum_empty, add_zero, preload_eq]
      rw [accumulator_succ q le_rfl, hempty]
      change (Dsp96.run _ _ _ (s + 4)).sumO = _
      rw [sumO_succ, if_pos hfirst]
  | succ w hsw ih =>
      have hnone : (channel input q w).start = false := hquiet w hsw (Nat.lt_succ_self w)
      rw [accumulator_succ q (Nat.le_of_succ_le hsw),
        ← ih fun k hk hkw => hquiet k hk (Nat.lt_succ_of_lt hkw)]
      change (Dsp96.run _ _ _ (w + 4)).sumO = _
      rw [sumO_succ, if_neg (Bool.eq_false_iff.mp hnone)]

/-- The overflow is told right where no start is on the clock before. -/
theorem overflowO_accumulator (q : Quadrature) (hsw : s + 1 < w) (hshift : shift ≤ 64)
    (hstart : (input s).start = true)
    (hquiet : ∀ k, s < k → k < w → (input k).start = false) :
    (Dsp96.run (preload shift) (overflowMask shift) (channel input q) (w + 3)).overflowO = true ↔
      ¬ Signed.Fits resultWidth ((accumulator shift input q s w).toInt / 2 ^ shift) := by
  obtain ⟨n, rfl⟩ : ∃ n, w = n + 1 := ⟨w - 1, by omega⟩
  have hnone : (channel input q n).start = false := hquiet n (by omega) (Nat.lt_succ_self n)
  have hsum : (Dsp96.run (preload shift) (overflowMask shift) (channel input q) (n + 4)).sumO =
      accumulator shift input q s (n + 1) := sumO_accumulator q (by omega) hstart hquiet
  have hoverflow := overflowO_eq (preload shift) (overflowMask shift) (channel input q) n hnone
  change (Dsp96.run _ _ _ (n + 4)).overflowO = true ↔ _
  rw [hoverflow, hsum, Bool.not_eq_true', Bool.or_eq_false_iff, decide_eq_false_iff_not,
    decide_eq_false_iff_not, ← not_or, masked_zero, masked_ones]
  have hfits := Signed.slice_overflow (accumulator shift input q s (n + 1)) (k := shift)
    (o := resultWidth) (show shift + 32 ≤ 96 by omega) (by decide)
  rw [hfits]

/-- A write takes the sums, -/
theorem run_iqO (hwrite : (input w).write = true) (q : Quadrature) :
    (DetectorBody.run shift input (w + 4)).core.iqO q =
      (Dsp96.run (preload shift) (overflowMask shift) (channel input q) (w + 3)).sumO := by
  have hclock : (DetectorBody.run shift input (w + 4)).core.iqO =
      if (DetectorBody.run shift input (w + 3)).core.writeIn then
        fun q => ((DetectorBody.run shift input (w + 3)).core.detect q).sumO
      else (DetectorBody.run shift input (w + 3)).core.iqO := rfl
  rw [hclock, run_writeIn, if_pos hwrite, run_detect]

/-- and the overflow of either. -/
theorem run_detectorOverflow (hwrite : (input w).write = true) :
    (DetectorBody.run shift input (w + 4)).core.detectorOverflow = true ↔
      ∃ q, (Dsp96.run (preload shift) (overflowMask shift) (channel input q) (w + 3)).overflowO
        = true := by
  have hclock : (DetectorBody.run shift input (w + 4)).core.detectorOverflow =
      if (DetectorBody.run shift input (w + 3)).core.writeIn then
        ((DetectorBody.run shift input (w + 3)).core.detect .cos).overflowO ||
          ((DetectorBody.run shift input (w + 3)).core.detect .sin).overflowO
      else (DetectorBody.run shift input (w + 3)).core.detectorOverflow := rfl
  rw [hclock, run_writeIn, if_pos hwrite, run_detect, run_detect, Bool.or_eq_true]
  constructor
  · rintro (hcos | hsin)
    · exact ⟨.cos, hcos⟩
    · exact ⟨.sin, hsin⟩
  · rintro ⟨q, hq⟩
    cases q with
    | cos => exact .inl hq
    | sin => exact .inr hq

/-! ### Bringing the result to the DSP clock -/

/-- The DSP clock rises on every other clock. -/
def HalfRate (input : ℕ → DetectorInput) : Prop :=
  ∀ n, (input (n + 1)).dspClock = !(input n).dspClock

/-- Without a write the result is kept. -/
theorem run_iqO_kept (hwrite : (input w).write = false) :
    (DetectorBody.run shift input (w + 4)).core.iqO =
      (DetectorBody.run shift input (w + 3)).core.iqO := by
  have hclock : (DetectorBody.run shift input (w + 4)).core.iqO =
      if (DetectorBody.run shift input (w + 3)).core.writeIn then
        fun q => ((DetectorBody.run shift input (w + 3)).core.detect q).sumO
      else (DetectorBody.run shift input (w + 3)).core.iqO := rfl
  rw [hclock, run_writeIn, hwrite, if_neg Bool.false_ne_true]

theorem run_writeO : (DetectorBody.run shift input (w + 4)).core.writeO = (input w).write :=
  run_writeIn shift input w

/-- The pulse of a write is there for two clocks. -/
theorem run_pulseStretch (hwrite : (input w).write = true) :
    (DetectorBody.run shift input (w + 5)).pulseStretch = true ∧
      (DetectorBody.run shift input (w + 6)).pulseStretch = true := by
  have hwriteO : (DetectorBody.run shift input (w + 4)).core.writeO = true := run_writeO.trans hwrite
  refine ⟨?_, ?_⟩
  · change ((DetectorBody.run shift input (w + 4)).core.writeO || _) = true
    rw [hwriteO, Bool.true_or]
  · change (_ || (DetectorBody.run shift input (w + 4)).core.writeO) = true
    rw [hwriteO, Bool.or_true]

/-- A clock with and without the DSP clock. -/
theorem run_output_clock {n : ℕ} (hdsp : (input n).dspClock = true) :
    (DetectorBody.run shift input (n + 1)).output =
      (DetectorBody.run shift input n).output.clock shift
        (DetectorBody.run shift input n).pulseStretch
        (DetectorBody.run shift input n).core.iqO := by
  change (if (input n).dspClock then _ else _) = _
  rw [hdsp, if_pos rfl]
  rfl

theorem run_output_kept {n : ℕ} (hdsp : (input n).dspClock = false) :
    (DetectorBody.run shift input (n + 1)).output = (DetectorBody.run shift input n).output := by
  change (if (input n).dspClock then _ else (DetectorBody.run shift input n).output) = _
  rw [hdsp, if_neg Bool.false_ne_true]

/-- What the DSP clock finds with the pulse is shifted to the output two of its clocks later. -/
theorem run_output {n : ℕ} (hhalf : HalfRate input) (hdsp : (input n).dspClock = true)
    (hpulse : (DetectorBody.run shift input n).pulseStretch = true) :
    (DetectorBody.run shift input (n + 5)).output.detWriteOut = true ∧
      ∀ q, (DetectorBody.run shift input (n + 5)).output.iqOut q =
        shiftRight shift ((DetectorBody.run shift input n).core.iqO q) := by
  have hdsp₁ : (input (n + 1)).dspClock = false := by rw [hhalf, hdsp]; rfl
  have hdsp₂ : (input (n + 2)).dspClock = true := by rw [hhalf, hdsp₁]; rfl
  have hdsp₃ : (input (n + 3)).dspClock = false := by rw [hhalf, hdsp₂]; rfl
  have hdsp₄ : (input (n + 4)).dspClock = true := by rw [hhalf, hdsp₃]; rfl
  rw [run_output_clock hdsp₄, run_output_kept hdsp₃, run_output_clock hdsp₂, run_output_kept hdsp₁,
    run_output_clock hdsp]
  unfold ScaledOutput.clock
  dsimp only
  rw [hpulse]
  exact ⟨rfl, fun q => rfl⟩

/-- The bits that are read out are the floor of a division. -/
theorem shiftRight_eq (shift : ℕ) (x : BitVec 96) :
    shiftRight shift x = BitVec.ofInt 32 (x.toInt / 2 ^ shift) := by
  have hextract := Signed.extract_eq (x.sshiftRight shift) (k := 0) (o := 32) (by decide)
  rw [BitVec.toInt_sshiftRight, Int.shiftRight_eq_div_pow, pow_zero, Int.ediv_one] at hextract
  exact hextract

/-- The single accumulator does not wrap within `2 ^ 52` clocks. -/
theorem accumulator_toInt (q : Quadrature) (hshift : shift ≤ 64) (hlength : w - s ≤ 2 ^ 52) :
    (accumulator shift input q s w).toInt = accumulated shift input q s w := by
  have hrounding : 0 ≤ rounding shift ∧ rounding shift ≤ 2 ^ 63 := by
    unfold rounding
    split_ifs
    · exact ⟨le_rfl, by decide⟩
    · exact ⟨by positivity, pow_le_pow_right₀ (by decide) (by omega)⟩
  have hproduct : ∀ k, |(channel input q k).product.toInt| ≤ 2 ^ 42 := by
    intro k
    have hlow : -2 ^ 42 ≤ (channel input q k).product.toInt := BitVec.le_toInt _
    have hhigh : (channel input q k).product.toInt < 2 ^ 42 := BitVec.toInt_lt
    exact abs_le.mpr ⟨hlow, hhigh.le⟩
  have hsum : |∑ k ∈ Ico s w, (channel input q k).product.toInt| ≤ 2 ^ 52 * 2 ^ 42 := by
    calc |∑ k ∈ Ico s w, (channel input q k).product.toInt|
        ≤ ∑ k ∈ Ico s w, |(channel input q k).product.toInt| := abs_sum_le_sum_abs _ _
      _ ≤ ∑ _k ∈ Ico s w, (2 : ℤ) ^ 42 := sum_le_sum fun k _ => hproduct k
      _ = ((w - s : ℕ) : ℤ) * 2 ^ 42 := by rw [sum_const, Nat.card_Ico, nsmul_eq_mul]
      _ ≤ 2 ^ 52 * 2 ^ 42 := mul_le_mul_of_nonneg_right (by exact_mod_cast hlength) (by decide)
  obtain ⟨hlow, hhigh⟩ := abs_le.mp hsum
  unfold accumulator
  apply BitVec.toInt_ofInt_eq_self (by decide)
  · unfold accumulated
    omega
  · unfold accumulated
    omega

/-- A write takes the sum of all products since the last start, rounded at the bit that is read out
first; the overflow is told right if the start is not on the clock before the write; and the shifted
result reaches the output if no other write follows within two clocks. -/
theorem detector_write (hshift : shift ≤ 64) (hsw : s < w) (hstart : (input s).start = true)
    (hquiet : ∀ k, s < k → k < w → (input k).start = false) (hwrite : (input w).write = true) :
    (∀ q, (DetectorBody.run shift input (w + 4)).core.iqO q = accumulator shift input q s w) ∧
      (w - s ≤ 2 ^ 52 → ∀ q,
        (accumulator shift input q s w).toInt = accumulated shift input q s w) ∧
      (s + 1 < w → ((DetectorBody.run shift input (w + 4)).core.detectorOverflow = true ↔
        ∃ q, ¬ Signed.Fits resultWidth ((accumulator shift input q s w).toInt / 2 ^ shift))) ∧
      (HalfRate input → (input (w + 1)).write = false → (input (w + 2)).write = false →
        ∃ n, (n = w + 10 ∨ n = w + 11) ∧
          (DetectorBody.run shift input n).output.detWriteOut = true ∧
          ∀ q, (DetectorBody.run shift input n).output.iqOut q =
            BitVec.ofInt 32 ((accumulator shift input q s w).toInt / 2 ^ shift)) := by
  have hiqO : ∀ q, (DetectorBody.run shift input (w + 4)).core.iqO q =
      accumulator shift input q s w := by
    intro q
    rw [run_iqO hwrite, sumO_accumulator q hsw hstart hquiet]
  refine ⟨hiqO, fun hlength q => accumulator_toInt q hshift hlength, fun hapart => ?_,
    fun hhalf hnext₁ hnext₂ => ?_⟩
  · rw [run_detectorOverflow hwrite]
    exact exists_congr fun q => overflowO_accumulator q hapart hshift hstart hquiet
  · obtain ⟨hpulse₁, hpulse₂⟩ := @run_pulseStretch shift input w hwrite
    have hkept₁ : (DetectorBody.run shift input (w + 5)).core.iqO =
        (DetectorBody.run shift input (w + 4)).core.iqO := run_iqO_kept hnext₁
    have hkept₂ : (DetectorBody.run shift input (w + 6)).core.iqO =
        (DetectorBody.run shift input (w + 5)).core.iqO := run_iqO_kept hnext₂
    cases hdsp : (input (w + 5)).dspClock with
    | true =>
        obtain ⟨hout, hvalue⟩ := run_output hhalf hdsp hpulse₁
        refine ⟨w + 10, .inl rfl, hout, fun q => ?_⟩
        rw [← shiftRight_eq, ← hiqO q, ← hkept₁]
        exact hvalue q
    | false =>
        have hdsp₁ : (input (w + 6)).dspClock = true := by rw [hhalf, hdsp]; rfl
        obtain ⟨hout, hvalue⟩ := run_output hhalf hdsp₁ hpulse₂
        refine ⟨w + 11, .inr rfl, hout, fun q => ?_⟩
        rw [← shiftRight_eq, ← hiqO q, ← hkept₁, ← hkept₂]
        exact hvalue q

end write

/-- The same product on every clock, with a start on clock 4. -/
def steadyInput (writes : List ℕ) (n : ℕ) : DetectorInput where
  data := 0x400000
  iq _ := 0x10000
  bunchEnable := true
  start := n == 4
  write := writes.contains n
  dspClock := n % 2 == 0

theorem detector_write_steady :
    (∀ q, (DetectorBody.run 24 (steadyInput [14]) 18).core.iqO q =
        accumulator 24 (steadyInput [14]) q 4 14) ∧
      (∀ q, (accumulator 24 (steadyInput [14]) q 4 14).toInt =
        accumulated 24 (steadyInput [14]) q 4 14) ∧
      ((DetectorBody.run 24 (steadyInput [14]) 18).core.detectorOverflow = true ↔ ∃ q,
        ¬ Signed.Fits resultWidth ((accumulator 24 (steadyInput [14]) q 4 14).toInt / 2 ^ 24)) ∧
      ∃ n, (n = 24 ∨ n = 25) ∧ (DetectorBody.run 24 (steadyInput [14]) n).output.detWriteOut = true ∧
        ∀ q, (DetectorBody.run 24 (steadyInput [14]) n).output.iqOut q =
          BitVec.ofInt 32 ((accumulator 24 (steadyInput [14]) q 4 14).toInt / 2 ^ 24) := by
  obtain ⟨hiqO, hvalue, hoverflow, hout⟩ := @detector_write 24 (steadyInput [14]) 4 14 (by decide)
    (by decide) rfl (fun k hk _ => beq_eq_false_iff_ne.mpr (by omega)) rfl
  have hhalf : HalfRate (steadyInput [14]) := by
    intro n
    simp only [steadyInput]
    rcases Nat.mod_two_eq_zero_or_one n with h | h <;> simp [h, Nat.add_mod]
  exact ⟨hiqO, hvalue (by decide), hoverflow (by decide), hout hhalf rfl rfl⟩

/-- On the clock after a start an overflow is told of a sum that fits; and with another write right
after it the sum does not reach the output. -/
theorem detector_write_close :
    ((DetectorBody.run 24 (steadyInput [5, 6]) 9).core.detectorOverflow = true ∧ ∀ q,
        Signed.Fits resultWidth ((accumulator 24 (steadyInput [5, 6]) q 4 5).toInt / 2 ^ 24)) ∧
      ∀ n < 24, (DetectorBody.run 24 (steadyInput [5, 6]) n).output.iqOut .cos ≠
        BitVec.ofInt 32 ((accumulator 24 (steadyInput [5, 6]) .cos 4 5).toInt / 2 ^ 24) := by
  refine ⟨⟨by decide +kernel, fun q => ?_⟩, by decide +kernel⟩
  cases q <;> decide

end Mbf.Detector
