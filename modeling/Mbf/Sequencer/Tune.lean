import Mathlib.Algebra.Order.Round
import Mathlib.Data.BitVec
import Mathlib.Data.Rat.Floor
import Mathlib.Tactic.FieldSimp
import Mathlib.Tactic.Linarith
import Mathlib.Tactic.Ring
import Mbf.Lib.Literals

/-! # Tunes and frequencies

`tune_to_freq`, `freq_to_tune` and `freq_to_tune_signed` of `common.c`, in exact arithmetic: over any
ordered field with a floor.  A tune is in cycles of a turn; a frequency is the phase advance of a
bunch, in units of which there are `2^48` in a cycle.

The advance is reduced to the half open interval from zero to one before it is rounded.  So an
advance that is less than half a unit below a whole cycle is rounded up to `2^48`, which is not a
number of 48 bits; all others are, and every number of 48 bits comes back from its tune
(`tune_to_freq_iff`). -/

namespace Mbf

section tune
variable {K : Type*} [Field K] [LinearOrder K] [IsStrictOrderedRing K] [FloorRing K]

/-! ### The program -/

/-- The fractional part that `modf` gives, which has the sign of its argument. -/
def modf (x : K) : K := if 0 ≤ x then x - ⌊x⌋ else x - ⌈x⌉

/-- `llround`: halves are rounded away from zero. -/
def llround (x : K) : ℤ := if 0 ≤ x then ⌊x + 1 / 2⌋ else ⌈x - 1 / 2⌉

/-- `tune_to_freq`. -/
def tuneToFreq (bunches : ℕ) (tune : K) : BitVec 64 :=
  let fraction := modf (tune / bunches)
  let fraction := if fraction < 0 then fraction + 1 else fraction
  BitVec.ofInt 64 (llround (fraction * 2 ^ 48))

/-- `freq_to_tune`. -/
def freqToTune (bunches : ℕ) (freq : BitVec 64) : K :=
  ((freq <<< 16).toNat : K) / 2 ^ 64 * bunches

/-- `freq_to_tune_signed`. -/
def freqToTuneSigned (bunches : ℕ) (freq : BitVec 64) : K :=
  ((freq <<< 16).toInt : K) / 2 ^ 64 * bunches

/-! ### Rounding -/

theorem modf_fract (x : K) : (if modf x < 0 then modf x + 1 else modf x) = Int.fract x := by
  unfold modf
  split_ifs with hpos hneg hneg
  · exact absurd hneg (not_lt.mpr (Int.fract_nonneg x))
  · rfl
  · -- the ceiling is above, since `x` is not an integer
    have hceil : ⌈x⌉ = ⌊x⌋ + 1 := by
      rw [Int.ceil_eq_iff]
      have hfloor := Int.floor_le x
      have hlt := Int.lt_floor_add_one x
      have hne : (⌊x⌋ : K) ≠ x := by
        intro heq
        rw [← heq, Int.ceil_intCast, sub_self] at hneg
        exact lt_irrefl _ hneg
      push_cast
      exact ⟨by linarith [lt_of_le_of_ne hfloor hne], hlt.le⟩
    rw [hceil, Int.fract]
    push_cast
    ring
  · have hceil : (⌈x⌉ : K) = x := by
      have := Int.le_ceil x
      linarith [not_lt.mp hneg]
    have hfloor : ⌊x⌋ = ⌈x⌉ := by
      conv_lhs => rw [← hceil]
      exact Int.floor_intCast _
    rw [Int.fract, hfloor]

/-- The units of a tune, before they are cut down to 64 bits. -/
def freqUnits (bunches : ℕ) (tune : K) : ℤ := round (Int.fract (tune / bunches) * 2 ^ 48)

theorem freqUnits_nonneg (bunches : ℕ) (tune : K) : 0 ≤ freqUnits bunches tune := by
  unfold freqUnits
  rw [round_eq, Int.floor_nonneg]
  have := Int.fract_nonneg (tune / bunches)
  positivity

theorem freqUnits_le (bunches : ℕ) (tune : K) : freqUnits bunches tune ≤ 2 ^ 48 := by
  unfold freqUnits
  have hlt := Int.fract_lt_one (tune / bunches)
  have hfloor : round (Int.fract (tune / bunches) * 2 ^ 48) < 2 ^ 48 + 1 := by
    rw [round_eq, Int.floor_lt]
    push_cast
    linarith
  omega

theorem tuneToFreq_toNat (bunches : ℕ) (tune : K) :
    ((tuneToFreq bunches tune).toNat : ℤ) = freqUnits bunches tune := by
  have hnonneg : 0 ≤ Int.fract (tune / bunches) * 2 ^ 48 := by
    have := Int.fract_nonneg (tune / bunches)
    positivity
  have hle := freqUnits_le bunches tune
  have hge := freqUnits_nonneg bunches tune
  unfold tuneToFreq llround
  dsimp only
  rw [modf_fract, if_pos hnonneg, ← round_eq, BitVec.toNat_ofInt]
  unfold freqUnits at *
  omega

/-- An advance is rounded up to a whole cycle if it is less than half a unit from it. -/
theorem freqUnits_lt_iff (bunches : ℕ) (tune : K) :
    freqUnits bunches tune < 2 ^ 48 ↔ Int.fract (tune / bunches) < 1 - 1 / 2 ^ 49 := by
  unfold freqUnits
  rw [round_eq, Int.floor_lt]
  push_cast
  constructor
  · intro h
    linarith
  · intro h
    linarith

theorem tuneToFreq_lt_iff (bunches : ℕ) (tune : K) :
    (tuneToFreq bunches tune).toNat < 2 ^ 48 ↔ Int.fract (tune / bunches) < 1 - 1 / 2 ^ 49 := by
  rw [← freqUnits_lt_iff, ← tuneToFreq_toNat]
  norm_cast

/-! ### There and back -/

theorem shiftLeft_toNat {freq : BitVec 64} (h : freq.toNat < 2 ^ 48) :
    (freq <<< 16).toNat = freq.toNat * 2 ^ 16 := by
  rw [BitVec.toNat_shiftLeft, Nat.shiftLeft_eq]
  omega

/-- The frequency as a signed number of 48 bits. -/
def signedFreq (freq : BitVec 64) : ℤ :=
  if freq.toNat < 2 ^ 47 then freq.toNat else freq.toNat - 2 ^ 48

theorem shiftLeft_toInt {freq : BitVec 64} (h : freq.toNat < 2 ^ 48) :
    (freq <<< 16).toInt = signedFreq freq * 2 ^ 16 := by
  rw [BitVec.toInt_eq_toNat_cond, shiftLeft_toNat h]
  unfold signedFreq
  split_ifs <;> omega

variable {bunches : ℕ} {freq : BitVec 64}

omit [IsStrictOrderedRing K] in
theorem freqToTune_eq (h : freq.toNat < 2 ^ 48) :
    (freqToTune bunches freq : K) = freq.toNat / 2 ^ 48 * bunches := by
  unfold freqToTune
  rw [shiftLeft_toNat h]
  push_cast
  ring

omit [IsStrictOrderedRing K] in
theorem freqToTuneSigned_eq (h : freq.toNat < 2 ^ 48) :
    (freqToTuneSigned bunches freq : K) = signedFreq freq / 2 ^ 48 * bunches := by
  unfold freqToTuneSigned
  rw [shiftLeft_toInt h]
  push_cast
  ring

/-- A whole number of units is not rounded, and whole cycles do not matter. -/
theorem tuneToFreq_units (hpos : 0 < bunches) (h : freq.toNat < 2 ^ 48) (cycles : ℤ) :
    tuneToFreq bunches ((freq.toNat / 2 ^ 48 + cycles) * bunches : K) = freq := by
  have hbunches : (bunches : K) ≠ 0 := by exact_mod_cast hpos.ne'
  have hlt : ((freq.toNat : K)) < 2 ^ 48 := by exact_mod_cast h
  have hfract : Int.fract ((freq.toNat / 2 ^ 48 + cycles) * bunches / bunches : K) =
      freq.toNat / 2 ^ 48 := by
    rw [mul_div_assoc, div_self hbunches, mul_one, Int.fract_add_intCast, Int.fract_eq_self]
    exact ⟨by positivity, by rw [div_lt_one (by positivity)]; exact hlt⟩
  have hunits : freqUnits bunches ((freq.toNat / 2 ^ 48 + cycles) * bunches : K) = freq.toNat := by
    unfold freqUnits
    rw [hfract, div_mul_cancel₀ _ (by positivity)]
    exact round_natCast _
  apply BitVec.eq_of_toNat_eq
  have hnat := tuneToFreq_toNat bunches ((freq.toNat / 2 ^ 48 + cycles) * bunches : K)
  rw [hunits] at hnat
  exact_mod_cast hnat

theorem tuneToFreq_freqToTune (hpos : 0 < bunches) (h : freq.toNat < 2 ^ 48) :
    tuneToFreq bunches (freqToTune bunches freq : K) = freq := by
  have hcycles := tuneToFreq_units (K := K) hpos h 0
  rwa [Int.cast_zero, add_zero, ← freqToTune_eq h] at hcycles

theorem tuneToFreq_freqToTuneSigned (hpos : 0 < bunches) (h : freq.toNat < 2 ^ 48) :
    tuneToFreq bunches (freqToTuneSigned bunches freq : K) = freq := by
  rw [freqToTuneSigned_eq h]
  unfold signedFreq
  split_ifs with hsign
  · have hcycles := tuneToFreq_units (K := K) hpos h 0
    rw [Int.cast_zero, add_zero] at hcycles
    rw [Int.cast_natCast]
    exact hcycles
  · -- one cycle less
    have hcycles := tuneToFreq_units (K := K) hpos h (-1)
    have hvalue : (((freq.toNat - 2 ^ 48 : ℤ) : K) / 2 ^ 48 * bunches) =
        (freq.toNat / 2 ^ 48 + ((-1 : ℤ) : K)) * bunches := by
      push_cast
      field_simp
      ring
    rw [hvalue]
    exact hcycles

/-- Up to half a cycle either way, a tune is converted to the signed frequency next to it. -/
theorem freqToTuneSigned_tuneToFreq {tune : K}
    (hge : -2 ^ 47 ≤ tune / bunches * 2 ^ 48) (hlt : tune / bunches * 2 ^ 48 < 2 ^ 47 - 1 / 2) :
    (freqToTuneSigned bunches (tuneToFreq bunches tune) : K) =
      (round (tune / bunches * 2 ^ 48) : ℤ) / 2 ^ 48 * bunches := by
  have hround : -2 ^ 47 ≤ round (tune / bunches * 2 ^ 48) ∧
      round (tune / bunches * 2 ^ 48) < 2 ^ 47 := by
    rw [round_eq]
    refine ⟨Int.le_floor.mpr ?_, Int.floor_lt.mpr ?_⟩
    · push_cast
      linarith
    · push_cast
      linarith
  -- whole cycles drop out
  have hunits : freqUnits bunches tune =
      round (tune / bunches * 2 ^ 48) - ⌊tune / bunches⌋ * 2 ^ 48 := by
    have hcast : Int.fract (tune / bunches) * 2 ^ 48 =
        tune / bunches * 2 ^ 48 - ((⌊tune / bunches⌋ * 2 ^ 48 : ℤ) : K) := by
      rw [Int.fract]
      push_cast
      ring
    unfold freqUnits
    rw [hcast, round_sub_intCast]
  have hint : (tuneToFreq bunches tune <<< 16).toInt =
      round (tune / bunches * 2 ^ 48) * 2 ^ 16 := by
    have hnat := tuneToFreq_toNat bunches tune
    have hle := freqUnits_le bunches tune
    rw [BitVec.toInt_eq_toNat_cond, BitVec.toNat_shiftLeft, Nat.shiftLeft_eq]
    split_ifs <;> omega
  unfold freqToTuneSigned
  rw [hint]
  push_cast
  ring

/-! ### The conversion -/

/-- The frequency is the nearest one to the advance of a bunch, a whole cycle apart. -/
theorem tuneToFreq_near (bunches : ℕ) (tune : K) :
    |((tuneToFreq bunches tune).toNat : K) - Int.fract (tune / bunches) * 2 ^ 48| ≤ 1 / 2 := by
  have hnat : ((tuneToFreq bunches tune).toNat : K) = (freqUnits bunches tune : ℤ) := by
    exact_mod_cast congrArg (Int.cast : ℤ → K) (tuneToFreq_toNat bunches tune)
  rw [hnat, abs_sub_comm]
  exact abs_sub_round _

/-- A tune is converted to a number of 48 bits, the nearest one, unless its advance is less than
half a unit below a whole cycle; and every number of 48 bits comes back from its tune, taken as
unsigned or as signed. -/
theorem tune_to_freq_iff (hpos : 0 < bunches) :
    (∀ tune : K,
      ((tuneToFreq bunches tune).toNat < 2 ^ 48 ∧
        |((tuneToFreq bunches tune).toNat : K) - Int.fract (tune / bunches) * 2 ^ 48| ≤ 1 / 2) ↔
        Int.fract (tune / bunches) < 1 - 1 / 2 ^ 49) ∧
      ∀ freq : BitVec 64, freq.toNat < 2 ^ 48 →
        tuneToFreq bunches (freqToTune bunches freq : K) = freq ∧
          tuneToFreq bunches (freqToTuneSigned bunches freq : K) = freq := by
  constructor
  · intro tune
    rw [tuneToFreq_lt_iff]
    exact and_iff_left (tuneToFreq_near bunches tune)
  · intro freq h
    exact ⟨tuneToFreq_freqToTune hpos h, tuneToFreq_freqToTuneSigned hpos h⟩

end tune

/-- A quarter of a cycle for each of 936 bunches. -/
theorem tune_to_freq_quarter :
    (tuneToFreq 936 (234 : ℚ)).toNat < 2 ^ 48 ∧
      |((tuneToFreq 936 (234 : ℚ)).toNat : ℚ) - Int.fract (234 / (936 : ℕ) : ℚ) * 2 ^ 48| ≤ 1 / 2 :=
  ((tune_to_freq_iff (K := ℚ) (by decide)).1 234).mpr (by decide +kernel)

/-- A tune a little below zero. -/
theorem tune_to_freq_not_in_range :
    ¬ ∀ (bunches : ℕ) (tune : ℚ), 0 < bunches → (tuneToFreq bunches tune).toNat < 2 ^ 48 := by
  intro h
  have hlt := h 936 (-1 / 10 ^ 12) (by decide)
  have hfreq : (tuneToFreq 936 (-1 / 10 ^ 12 : ℚ)).toNat = 2 ^ 48 := by decide +kernel
  exact absurd hlt (by rw [hfreq]; exact lt_irrefl _)

end Mbf
