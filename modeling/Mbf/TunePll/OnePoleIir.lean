import Mbf.Lib.Clocked
import Mbf.Lib.Leak
import Mbf.Lib.Signed

/-! # The readout filters of the Tune PLL

`one_pole_iir`, register by register, for any widths of the input and of the shift.  The accumulator
scales its input up by the greatest shift, and loses a part of itself that the shift selects in each
step, rounded away from zero.

Where the starts are three clocks apart, each start takes one step of a leaky sum of integers
(`run_accum`), whose bounds do not depend on the shift: so the accumulator does not wrap, the output
stays between the least and the greatest input, and what is left of a signal dies out
(`one_pole_iir_bounded`). -/

namespace Mbf.TunePll

/-- The widths of `one_pole_iir`, and its generic. -/
structure IirWidths where
  dataBitsIn : ℕ
  shiftBits : ℕ
  shiftStep : ℕ := 1
  dataBitsIn_pos : 0 < dataBitsIn
  /-- `iir_shift_i * SHIFT_STEP` takes the step in the width of the shift. -/
  shiftStep_fits : shiftStep < 2 ^ shiftBits

namespace IirWidths

variable (g : IirWidths)

def maxShiftValue : ℕ := 2 ^ g.shiftBits - 1

def maxShift : ℕ := g.maxShiftValue * g.shiftStep

def accumBits : ℕ := g.dataBitsIn + g.maxShift

/-- `to_integer(shift * SHIFT_STEP)`. -/
def shiftBy (shift : BitVec g.shiftBits) : ℕ := shift.toNat * g.shiftStep

end IirWidths

/-- What comes in on one clock. -/
structure IirInput (g : IirWidths) where
  data : BitVec g.dataBitsIn
  iirShift : BitVec g.shiftBits
  start : Bool

/-- The registers of `one_pole_iir`. -/
structure OnePoleIir (g : IirWidths) where
  iirAccum : BitVec g.accumBits := 0
  shiftedAccum : BitVec g.accumBits := 0
  updatedAccum : BitVec g.accumBits := 0
  shiftedData : BitVec g.accumBits := 0
  dataShift : BitVec g.shiftBits := 0
  absCeiling : BitVec 2 := 0
  dataReady : Bool := false
  done : Bool := false

namespace OnePoleIir

variable {g : IirWidths}

/-- `bottom_bits` at a shift: whether any bit is shifted out. -/
def bottomBits (accum : BitVec g.accumBits) (shift : BitVec g.shiftBits) : Bool :=
  accum.extractLsb' 0 (g.shiftBy shift) ≠ 0

def clock (i : IirInput g) (f : OnePoleIir g) : OnePoleIir g where
  iirAccum := if f.dataReady then f.updatedAccum + f.shiftedData else f.iirAccum
  shiftedAccum := f.iirAccum.sshiftRight (g.shiftBy i.iirShift)
  updatedAccum := f.iirAccum - f.shiftedAccum - f.absCeiling.signExtend g.accumBits
  shiftedData := i.data.signExtend g.accumBits <<< g.shiftBy f.dataShift
  dataShift := ~~~ i.iirShift
  absCeiling := if bottomBits f.iirAccum i.iirShift && decide (0 ≤ f.iirAccum.toInt) then 1 else 0
  dataReady := i.start
  done := f.dataReady

/-- The registers before clock `n`. -/
def run (input : ℕ → IirInput g) : ℕ → OnePoleIir g := Clocked.run clock {} input

/-- `data_o`, the top of the accumulator. -/
def dataO (f : OnePoleIir g) (dataBitsOut : ℕ) : BitVec dataBitsOut :=
  f.iirAccum.extractLsb' (g.accumBits - dataBitsOut) dataBitsOut

end OnePoleIir

/-! ### The filter on integers -/

section filter
variable {g : IirWidths} (input : ℕ → IirInput g)

/-- The shift in force for a start: that of the clock before. -/
def shiftAt : ℕ → BitVec g.shiftBits
  | 0 => .allOnes _
  | n + 1 => (input n).iirShift

/-- One step of the filter, on the number that the accumulator holds. -/
def filterStep (shift : BitVec g.shiftBits) (y : ℤ) (data : BitVec g.dataBitsIn) : ℤ :=
  Leak.step (2 ^ g.shiftBy shift) (2 ^ (g.maxShift - g.shiftBy shift)) y data.toInt

/-- The filter after the starts before clock `n`. -/
def filter : ℕ → ℤ
  | 0 => 0
  | n + 1 =>
      if (input n).start then filterStep (shiftAt input n) (filter n) (input n).data else filter n

/-- The least of zero and the inputs taken before clock `n`. -/
def least : ℕ → ℤ
  | 0 => 0
  | n + 1 => if (input n).start then min (input n).data.toInt (least n) else least n

/-- The greatest of zero and the inputs taken before clock `n`. -/
def greatest : ℕ → ℤ
  | 0 => 0
  | n + 1 => if (input n).start then max (input n).data.toInt (greatest n) else greatest n

/-- The starts are at least three clocks apart. -/
def StartsSpaced : Prop := ∀ m n, m < n → (input m).start = true → (input n).start = true → m + 3 ≤ n

/-! ### Bounds of the filter -/

theorem shiftBy_le (shift : BitVec g.shiftBits) : g.shiftBy shift ≤ g.maxShift := by
  have hlt := shift.isLt
  unfold IirWidths.shiftBy IirWidths.maxShift IirWidths.maxShiftValue
  exact Nat.mul_le_mul_right _ (by omega)

/-- The scale of the accumulator, in its two parts. -/
theorem scale_split (shift : BitVec g.shiftBits) :
    (2 : ℤ) ^ g.shiftBy shift * 2 ^ (g.maxShift - g.shiftBy shift) = 2 ^ g.maxShift := by
  rw [← pow_add, Nat.add_sub_cancel' (shiftBy_le shift)]

/-- A step stays within the bounds of its inputs, at each shift. -/
theorem filterStep_mem (shift : BitVec g.shiftBits) {lo hi y : ℤ} {data : BitVec g.dataBitsIn}
    (hlo : lo ≤ 0) (hhi : 0 ≤ hi) (hy : lo * 2 ^ g.maxShift ≤ y ∧ y ≤ hi * 2 ^ g.maxShift)
    (hdata : lo ≤ data.toInt ∧ data.toInt ≤ hi) :
    lo * 2 ^ g.maxShift ≤ filterStep shift y data ∧
      filterStep shift y data ≤ hi * 2 ^ g.maxShift := by
  rw [← scale_split shift] at hy ⊢
  exact Leak.step_mem (by positivity) (by positivity) hlo hhi hy hdata

/-- The bounds of the inputs hold zero, and are those of the width at most. -/
theorem least_mem (n : ℕ) : -2 ^ (g.dataBitsIn - 1) ≤ least input n ∧ least input n ≤ 0 := by
  induction n with
  | zero => exact ⟨neg_nonpos.mpr (by positivity), le_rfl⟩
  | succ n ih =>
      unfold least
      split_ifs
      · exact ⟨le_min (BitVec.le_toInt _) ih.1, (min_le_right _ _).trans ih.2⟩
      · exact ih

theorem greatest_mem (n : ℕ) : 0 ≤ greatest input n ∧ greatest input n < 2 ^ (g.dataBitsIn - 1) := by
  induction n with
  | zero => exact ⟨le_rfl, by unfold greatest; positivity⟩
  | succ n ih =>
      unfold greatest
      split_ifs
      · exact ⟨ih.1.trans (le_max_right _ _), max_lt BitVec.toInt_lt ih.2⟩
      · exact ih

/-- The filter is bounded by its inputs, whatever the shifts have been. -/
theorem filter_mem (n : ℕ) : least input n * 2 ^ g.maxShift ≤ filter input n ∧
    filter input n ≤ greatest input n * 2 ^ g.maxShift := by
  have hscale : (0 : ℤ) ≤ 2 ^ g.maxShift := by positivity
  induction n with
  | zero => simp [least, greatest, filter]
  | succ n ih =>
      have hlo := (least_mem input n).2
      have hhi := (greatest_mem input n).1
      unfold least greatest filter
      split_ifs
      · have hy : min (input n).data.toInt (least input n) * 2 ^ g.maxShift ≤ filter input n ∧
            filter input n ≤ max (input n).data.toInt (greatest input n) * 2 ^ g.maxShift :=
          ⟨(mul_le_mul_of_nonneg_right (min_le_right _ _) hscale).trans ih.1,
            ih.2.trans (mul_le_mul_of_nonneg_right (le_max_right _ _) hscale)⟩
        exact filterStep_mem _ ((min_le_right _ _).trans hlo) (hhi.trans (le_max_right _ _)) hy
          ⟨min_le_left _ _, le_max_left _ _⟩
      · exact ih

/-- The filter fits in the accumulator. -/
theorem filter_fits (n : ℕ) :
    -2 ^ (g.accumBits - 1) ≤ filter input n ∧ filter input n < 2 ^ (g.accumBits - 1) := by
  obtain ⟨hlow, hhigh⟩ := filter_mem input n
  have hlo := (least_mem input n).1
  have hhi := (greatest_mem input n).2
  have hscale : (0 : ℤ) < 2 ^ g.maxShift := by positivity
  have hwidth : (2 : ℤ) ^ (g.accumBits - 1) = 2 ^ (g.dataBitsIn - 1) * 2 ^ g.maxShift := by
    have hpos := g.dataBitsIn_pos
    rw [← pow_add]
    congr 1
    unfold IirWidths.accumBits
    omega
  rw [hwidth, ← neg_mul]
  exact ⟨(mul_le_mul_of_nonneg_right hlo hscale.le).trans hlow,
    hhigh.trans_lt (mul_lt_mul_of_pos_right hhi hscale)⟩

end filter

/-! ### The registers -/

namespace OnePoleIir

variable {g : IirWidths} {input : ℕ → IirInput g} {n : ℕ}

theorem bottomBits_iff (accum : BitVec g.accumBits) (shift : BitVec g.shiftBits) :
    bottomBits accum shift = true ↔ accum.toInt % 2 ^ g.shiftBy shift ≠ 0 := by
  have hle : 0 + g.shiftBy shift ≤ g.accumBits := by
    have hshift := shiftBy_le shift
    unfold IirWidths.accumBits
    omega
  have hrest : 0 ≤ accum.toInt % 2 ^ g.shiftBy shift := Int.emod_nonneg _ (by positivity)
  have hcast : ((2 ^ g.shiftBy shift : ℕ) : ℤ) = 2 ^ g.shiftBy shift := by push_cast; rfl
  unfold bottomBits
  rw [decide_eq_true_eq, Signed.extract_eq accum hle, pow_zero, Int.ediv_one, ne_eq, ne_eq,
    ← BitVec.toNat_inj, BitVec.toNat_ofInt, hcast]
  apply not_congr
  change _ = (0#_).toNat ↔ _
  rw [BitVec.toNat_ofNat, Nat.zero_mod]
  omega

/-- What is shifted down, and the ceiling, are the part that the accumulator loses. -/
theorem part_toInt (accum : BitVec g.accumBits) (shift : BitVec g.shiftBits) :
    (accum.sshiftRight (g.shiftBy shift)).toInt +
        (if bottomBits accum shift && decide (0 ≤ accum.toInt) then (1 : BitVec 2) else 0).toInt =
      Leak.part accum.toInt (2 ^ g.shiftBy shift) := by
  have hscale : (0 : ℤ) < 2 ^ g.shiftBy shift := by positivity
  rw [BitVec.toInt_sshiftRight, Int.shiftRight_eq_div_pow]
  by_cases hsign : 0 ≤ accum.toInt
  · rw [Leak.part_eq hscale hsign, decide_eq_true hsign, Bool.and_true]
    congr 1
    by_cases hbits : accum.toInt % 2 ^ g.shiftBy shift = 0
    · rw [if_pos hbits, if_neg (mt (bottomBits_iff accum shift).mp (not_not_intro hbits))]
      rfl
    · rw [if_neg hbits, if_pos ((bottomBits_iff accum shift).mpr hbits)]
      rfl
  · rw [decide_eq_false hsign, Bool.and_false, if_neg Bool.false_ne_true, Leak.part, if_neg hsign]
    exact add_zero _

/-- What the accumulator takes on a start. -/
def taken (shift : BitVec g.shiftBits) (accum : BitVec g.accumBits)
    (data : BitVec g.dataBitsIn) : BitVec g.accumBits :=
  accum - accum.sshiftRight (g.shiftBy shift) -
      (if bottomBits accum shift && decide (0 ≤ accum.toInt) then (1 : BitVec 2)
        else 0).signExtend g.accumBits +
    data.signExtend g.accumBits <<< g.shiftBy (~~~ shift)

theorem shiftBy_not (shift : BitVec g.shiftBits) :
    g.shiftBy (~~~ shift) = g.maxShift - g.shiftBy shift := by
  unfold IirWidths.shiftBy IirWidths.maxShift IirWidths.maxShiftValue
  rw [BitVec.toNat_not, Nat.sub_mul]

/-- It is the step of the filter, modulo the width. -/
theorem taken_eq (shift : BitVec g.shiftBits) (accum : BitVec g.accumBits)
    (data : BitVec g.dataBitsIn) :
    taken shift accum data = BitVec.ofInt g.accumBits (filterStep shift accum.toInt data) := by
  have hdata : data.signExtend g.accumBits <<< g.shiftBy (~~~ shift) = BitVec.ofInt g.accumBits
      (data.toInt * 2 ^ (g.maxShift - g.shiftBy shift)) := by
    rw [shiftBy_not]
    exact Signed.ofInt_shiftLeft _ _
  unfold taken filterStep Leak.step Leak.leak
  rw [← part_toInt, BitVec.ofInt_add, hdata, ← sub_sub, Signed.ofInt_sub, Signed.ofInt_sub,
    BitVec.ofInt_toInt, BitVec.ofInt_toInt]
  rfl

/-- What is in the pipeline before clock `n`: the accumulator and the shift of the clock before. -/
theorem run_pipeline (input : ℕ → IirInput g) (n : ℕ) :
    (run input n).dataShift = ~~~ shiftAt input n ∧
      (run input n).shiftedAccum =
        (run input (n - 1)).iirAccum.sshiftRight (g.shiftBy (shiftAt input n)) ∧
      (run input n).absCeiling =
        if bottomBits (run input (n - 1)).iirAccum (shiftAt input n) &&
          decide (0 ≤ (run input (n - 1)).iirAccum.toInt) then 1 else 0 := by
  cases n with
  | succ n => exact ⟨rfl, rfl, rfl⟩
  | zero =>
      have hbits : bottomBits (0 : BitVec g.accumBits) (shiftAt input 0) = false := by
        rw [← Bool.not_eq_true, bottomBits_iff]
        simp
      refine ⟨?_, ?_, ?_⟩
      · change 0 = ~~~ BitVec.allOnes g.shiftBits
        simp
      · change 0 = (0 : BitVec g.accumBits).sshiftRight _
        simp
      · change 0 = if bottomBits (0 : BitVec g.accumBits) (shiftAt input 0) && _ then _ else _
        rw [hbits]
        rfl

/-- Without a start in the clock before the last, the accumulator is as it was. -/
theorem run_accum_kept (h : n = 0 ∨ (input (n - 1)).start = false) :
    (run input (n + 1)).iirAccum = (run input n).iirAccum := by
  have hready : (run input n).dataReady = false := by
    cases n with
    | zero => rfl
    | succ n => exact h.resolve_left n.succ_ne_zero
  change (if (run input n).dataReady then _ else (run input n).iirAccum) = _
  rw [hready, if_neg Bool.false_ne_true]

/-- Before a start the accumulator has been the same for two clocks. -/
theorem run_accum_still (hspaced : StartsSpaced input) (hstart : (input n).start = true) :
    (run input (n + 1)).iirAccum = (run input (n - 1)).iirAccum ∧
      (run input n).iirAccum = (run input (n - 1)).iirAccum := by
  have hquiet : ∀ k < n, n < k + 3 → (input k).start = false := by
    intro k hk hnear
    by_contra hon
    have hapart := hspaced k n hk (Bool.not_eq_false _ ▸ hon) hstart
    omega
  have hlast : (run input n).iirAccum = (run input (n - 1)).iirAccum := by
    cases n with
    | zero => rfl
    | succ n =>
        apply run_accum_kept
        cases n with
        | zero => exact .inl rfl
        | succ n => exact .inr (hquiet n (by omega) (by omega))
  refine ⟨?_, hlast⟩
  rw [← hlast]
  apply run_accum_kept
  cases n with
  | zero => exact .inl rfl
  | succ n => exact .inr (hquiet n (by omega) (by omega))

/-- On a start the accumulator takes its step. -/
theorem run_accum_taken (hspaced : StartsSpaced input) (hstart : (input n).start = true) :
    (run input (n + 2)).iirAccum =
      taken (shiftAt input n) (run input (n + 1)).iirAccum (input n).data := by
  obtain ⟨hnext, hlast⟩ := run_accum_still hspaced hstart
  obtain ⟨hshift, hshifted, hceiling⟩ := run_pipeline input n
  have hready : (run input (n + 1)).dataReady = true := hstart
  change (if (run input (n + 1)).dataReady then
    (run input n).iirAccum - (run input n).shiftedAccum -
        (run input n).absCeiling.signExtend g.accumBits +
      (input n).data.signExtend g.accumBits <<< g.shiftBy (run input n).dataShift
    else _) = _
  rw [hready, if_pos rfl, hshift, hshifted, hceiling, hlast, hnext]
  rfl

/-- The accumulator holds the filter, one clock later. -/
theorem run_accum_succ (hspaced : StartsSpaced input) (n : ℕ) :
    (run input (n + 1)).iirAccum.toInt = filter input n := by
  have hwidth : 0 < g.accumBits := Nat.add_pos_left g.dataBitsIn_pos _
  induction n with
  | zero => exact BitVec.toInt_zero
  | succ n ih =>
      obtain ⟨hlow, hhigh⟩ := filter_fits input (n + 1)
      cases hstart : (input n).start with
      | true =>
          have hfilter : filter input (n + 1) =
              filterStep (shiftAt input n) (filter input n) (input n).data := if_pos hstart
          rw [hfilter] at hlow hhigh ⊢
          rw [run_accum_taken hspaced hstart, taken_eq, ih]
          exact BitVec.toInt_ofInt_eq_self hwidth hlow hhigh
      | false =>
          have hfilter : filter input (n + 1) = filter input n :=
            if_neg (Bool.eq_false_iff.mp hstart)
          rw [run_accum_kept (.inr hstart), ih, hfilter]

/-- The accumulator never wraps: it holds the filter. -/
theorem run_accum (hspaced : StartsSpaced input) (n : ℕ) :
    (run input n).iirAccum.toInt = filter input (n - 1) := by
  cases n with
  | zero => exact BitVec.toInt_zero
  | succ n => exact run_accum_succ hspaced n

/-- What the output shows of an accumulator that has settled at an input. -/
def outputOf (g : IirWidths) (dataBitsOut : ℕ) (x : ℤ) : ℤ :=
  x * 2 ^ g.maxShift / 2 ^ (g.accumBits - dataBitsOut)

/-- An output as wide as the input shows the input. -/
theorem outputOf_dataBitsIn (g : IirWidths) (x : ℤ) : outputOf g g.dataBitsIn x = x := by
  unfold outputOf IirWidths.accumBits
  rw [Nat.add_sub_cancel_left]
  exact Int.mul_ediv_cancel _ (by positivity)

/-- The output stays between the least and the greatest input. -/
theorem run_output (hspaced : StartsSpaced input) (n : ℕ) {dataBitsOut : ℕ}
    (hpos : 0 < dataBitsOut) (hle : dataBitsOut ≤ g.accumBits) :
    outputOf g dataBitsOut (least input (n - 1)) ≤ ((run input n).dataO dataBitsOut).toInt ∧
      ((run input n).dataO dataBitsOut).toInt ≤
        outputOf g dataBitsOut (greatest input (n - 1)) := by
  obtain ⟨hlow, hhigh⟩ := filter_mem input (n - 1)
  have hscale : (0 : ℤ) < 2 ^ (g.accumBits - dataBitsOut) := by positivity
  unfold dataO outputOf
  rw [Signed.top_toInt _ (Nat.sub_add_cancel hle) hpos, run_accum hspaced]
  exact ⟨Int.ediv_le_ediv hscale hlow, Int.ediv_le_ediv hscale hhigh⟩

end OnePoleIir

/-! ### The decay -/

section decay
variable {g : IirWidths} {input : ℕ → IirInput g} {n₀ n : ℕ}

/-- From clock `n₀` on all inputs that are taken are zero. -/
def ZeroFrom (input : ℕ → IirInput g) (n₀ : ℕ) : Prop :=
  ∀ n, n₀ ≤ n → (input n).start = true → (input n).data = 0

theorem filterStep_zero (shift : BitVec g.shiftBits) (y : ℤ) :
    filterStep shift y 0 = Leak.leak y (2 ^ g.shiftBy shift) := by
  unfold filterStep Leak.step
  rw [show (0 : BitVec g.dataBitsIn).toInt = 0 from BitVec.toInt_zero, zero_mul, add_zero]

/-- Without input nothing grows, -/
theorem filter_decays (hzero : ZeroFrom input n₀) (hn : n₀ ≤ n) :
    |filter input (n + 1)| ≤ |filter input n| := by
  rw [filter]
  split_ifs with hstart
  · rw [hzero n hn hstart, filterStep_zero]
    exact Leak.abs_leak_le (by positivity) _
  · exact le_rfl

/-- and what is left gets smaller on each start. -/
theorem filter_decays_start (hzero : ZeroFrom input n₀) (hn : n₀ ≤ n)
    (hstart : (input n).start = true) (hleft : filter input n ≠ 0) :
    |filter input (n + 1)| < |filter input n| := by
  rw [filter, if_pos hstart, hzero n hn hstart, filterStep_zero]
  exact Leak.abs_leak_lt (by positivity) hleft

/-- With starts again and again nothing is left in the end. -/
theorem filter_dies_out (hzero : ZeroFrom input n₀)
    (hstarts : Clocked.Recurs fun n => (input n).start = true) :
    ∃ m, ∀ n, m ≤ n → filter input n = 0 := by
  obtain ⟨m, hm, hnone⟩ : ∃ m, n₀ ≤ m ∧ filter input m = 0 := by
    by_contra hleft
    push Not at hleft
    have hle : ∀ n, n₀ ≤ n → (filter input (n + 1)).natAbs ≤ (filter input n).natAbs := by
      intro n hn
      have hdecays := filter_decays hzero hn
      rwa [Int.abs_eq_natAbs, Int.abs_eq_natAbs, Int.ofNat_le] at hdecays
    have hlt : ∀ n, n₀ ≤ n → (input n).start = true →
        (filter input (n + 1)).natAbs < (filter input n).natAbs := by
      intro n hn hstart
      have hdecays := filter_decays_start hzero hn hstart (hleft n hn)
      rwa [Int.abs_eq_natAbs, Int.abs_eq_natAbs, Int.ofNat_lt] at hdecays
    exact @Clocked.Recurs.not_decreasing _ hstarts (fun n => (filter input n).natAbs) n₀ hle hlt
  refine ⟨m, fun n hn => ?_⟩
  induction n, hn using Nat.le_induction with
  | base => exact hnone
  | succ n hn ih =>
      have hdecays := filter_decays hzero (hm.trans hn)
      rw [ih, abs_zero] at hdecays
      exact abs_nonpos_iff.mp hdecays

end decay

/-! ### Bounds and decay of the circuit -/

section circuit
variable {g : IirWidths} {input : ℕ → IirInput g}

/-- With starts three clocks apart, whatever the inputs and however the shift changes: the
accumulator is that of the filter on integers, the output stays between the least and the greatest
of zero and the inputs, and once the inputs are zero the accumulator shrinks, and dies out if the
starts go on. -/
theorem one_pole_iir_bounded (hspaced : StartsSpaced input) :
    (∀ n, (OnePoleIir.run input n).iirAccum.toInt = filter input (n - 1)) ∧
      (∀ n, least input (n - 1) ≤ ((OnePoleIir.run input n).dataO g.dataBitsIn).toInt ∧
        ((OnePoleIir.run input n).dataO g.dataBitsIn).toInt ≤ greatest input (n - 1)) ∧
      (∀ n dataBitsOut, 0 < dataBitsOut → dataBitsOut ≤ g.accumBits →
        OnePoleIir.outputOf g dataBitsOut (least input (n - 1)) ≤
            ((OnePoleIir.run input n).dataO dataBitsOut).toInt ∧
          ((OnePoleIir.run input n).dataO dataBitsOut).toInt ≤
            OnePoleIir.outputOf g dataBitsOut (greatest input (n - 1))) ∧
      ∀ n₀, ZeroFrom input n₀ →
        (∀ n, n₀ < n → |(OnePoleIir.run input (n + 1)).iirAccum.toInt| ≤
          |(OnePoleIir.run input n).iirAccum.toInt|) ∧
        ((Clocked.Recurs fun n => (input n).start = true) →
          ∃ m, ∀ n, m ≤ n → (OnePoleIir.run input n).iirAccum = 0) := by
  have haccum := OnePoleIir.run_accum hspaced
  refine ⟨haccum, fun n => ?_, fun n _ => OnePoleIir.run_output hspaced n,
    fun n₀ hzero => ⟨fun n hn => ?_, fun hstarts => ?_⟩⟩
  · have hown := OnePoleIir.run_output hspaced n g.dataBitsIn_pos (Nat.le_add_right _ g.maxShift)
    rwa [OnePoleIir.outputOf_dataBitsIn, OnePoleIir.outputOf_dataBitsIn] at hown
  · rw [haccum, haccum]
    obtain ⟨k, rfl⟩ : ∃ k, n = k + 1 := ⟨n - 1, by omega⟩
    exact filter_decays hzero (by omega)
  · obtain ⟨m, hm⟩ := filter_dies_out hzero hstarts
    refine ⟨m + 1, fun n hn => ?_⟩
    rw [← BitVec.toInt_inj, haccum, hm _ (by omega)]
    exact BitVec.toInt_zero.symm

/-- Four bits, with shifts up to three. -/
def narrowWidths : IirWidths where
  dataBitsIn := 4
  shiftBits := 2
  dataBitsIn_pos := by decide
  shiftStep_fits := by decide

/-- Starts as close as they may be, with the extremes of the input in turn and a shift that changes
on each clock. -/
def extremes (n : ℕ) : IirInput narrowWidths where
  data := if n < 30 then (if n % 2 = 0 then 7 else 8) else 0
  iirShift := BitVec.ofNat 2 n
  start := n % 3 == 0

theorem extremes_spaced : StartsSpaced extremes := by
  intro m n hlt hm hn
  unfold extremes at hm hn
  rw [beq_iff_eq] at hm hn
  omega

theorem one_pole_iir_bounded_extremes :
    (∀ n, (OnePoleIir.run extremes n).iirAccum.toInt = filter extremes (n - 1)) ∧
      (∀ n, least extremes (n - 1) ≤ ((OnePoleIir.run extremes n).dataO 4).toInt ∧
        ((OnePoleIir.run extremes n).dataO 4).toInt ≤ greatest extremes (n - 1)) ∧
      ∃ m, ∀ n, m ≤ n → (OnePoleIir.run extremes n).iirAccum = 0 := by
  obtain ⟨haccum, houtput, -, hdecay⟩ := one_pole_iir_bounded extremes_spaced
  refine ⟨haccum, houtput, (hdecay 30 fun n hn _ => if_neg (by omega)).2 fun n => ?_⟩
  exact ⟨3 * n, by omega, beq_iff_eq.mpr (Nat.mul_mod_right 3 n)⟩

end circuit

end Mbf.TunePll
