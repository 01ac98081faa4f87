import Mbf.Lib.Clocked
import Mbf.Lib.Dsp48e1

/-! # The accumulator of a detector

`detector_dsp96`, two DSP48E1 slices in cascade: the lower one multiplies and accumulates the lower
48 bits, the upper one, a clock later, takes the carry and the sign of the product.  On a start the
lower one adds the product to the preload.  The upper one cannot take the carry of that sum on the
usual way: it is told the sign that the product should have, and finds the carry from the top bit of
the lower sum (`load_upper`).

Together they are one accumulator of 96 bits (`sumO_succ`).  The bits that must agree for the result
to fit are masked by what is in the C registers, which on a start is the preload: so the overflow is
told right for each sum but the first after a start (`overflowO_eq`). -/

namespace Mbf.Detector

open Dsp48e1

/-- What comes in on one clock. -/
structure Dsp96Input where
  data : BitVec 25
  mul : BitVec 18
  enable : Bool
  start : Bool

/-- The registers of `detector_dsp96`, with its two slices. -/
structure Dsp96 where
  opmodeLow : BitVec 7 := 0b0000101
  opmodeHigh : BitVec 7 := 0b0001000
  carryInHigh : Bool := false
  carryInSelHigh : BitVec 3 := 0
  registerCLow : BitVec 48 := 0
  registerCHigh : BitVec 48 := 0
  preloadIn : BitVec 48 := 0
  startIn : Bool := false
  m47 : Bool := false
  c47 : Bool := false
  /-- The lower half of `sum_o`. -/
  sumLow : BitVec 48 := 0
  detectLowPl : Bool := false
  detectLowBarPl : Bool := false
  low : Slice := {}
  high : Slice := {}

namespace Dsp96

/-- The lower and the upper half of a word. -/
def lower (x : BitVec 96) : BitVec 48 := x.extractLsb' 0 48

def upper (x : BitVec 96) : BitVec 48 := x.extractLsb' 48 48

/-- The lower slice, which is given no cascade and no carry. -/
def clockLow (i : Dsp96Input) (d : Dsp96) : Slice :=
  d.low.clock
    { a := i.data.signExtend 30
      b := i.mul
      reset := !i.enable
      c := d.registerCLow
      opmode := d.opmodeLow
      carryIn := false
      carryInSel := 0 } {}

/-- The upper slice, which multiplies nothing. -/
def clockHigh (d : Dsp96) : Slice :=
  d.high.clock
    { a := 0
      b := 0
      reset := false
      c := d.registerCHigh
      opmode := d.opmodeHigh
      carryIn := d.carryInHigh
      carryInSel := d.carryInSelHigh } d.low.out

def clock (preload overflowMask : BitVec 96) (i : Dsp96Input) (d : Dsp96) : Dsp96 where
  -- Z and M, or C and M
  opmodeLow := if i.start then 0b0110101 else 0b0100101
  registerCLow := if i.start then lower preload else lower overflowMask
  m47 := i.enable && (i.data.msb ^^ i.mul.msb)
  c47 := (lower preload).msb
  startIn := i.start
  preloadIn := upper preload
  -- C with CIN and perhaps -1, or the extension
  opmodeHigh := if d.startIn then (if d.m47 then 0b0111000 else 0b0110000) else 0b1001000
  carryInSelHigh :=
    if d.startIn then
      match d.m47, d.c47 with
      | false, false | true, true => 0
      | false, true | true, false => 1
    else 2
  carryInHigh :=
    if d.startIn then
      match d.m47, d.c47 with
      | false, false => false
      | true, true => true
      | false, true | true, false => d.carryInHigh
    else d.carryInHigh
  registerCHigh := if d.startIn then d.preloadIn else upper overflowMask
  sumLow := d.low.out.p
  detectLowPl := d.low.patternDetect
  detectLowBarPl := d.low.patternBDetect
  low := d.clockLow i
  high := d.clockHigh

/-- `sum_o`. -/
def sumO (d : Dsp96) : BitVec 96 := d.high.out.p ++ d.sumLow

/-- `overflow_o`. -/
def overflowO (d : Dsp96) : Bool :=
  !(d.detectLowPl && d.high.patternDetect || d.detectLowBarPl && d.high.patternBDetect)

/-- The registers before clock `n`. -/
def run (preload overflowMask : BitVec 96) (input : ℕ → Dsp96Input) : ℕ → Dsp96 :=
  Clocked.run (clock preload overflowMask) {} input

end Dsp96

/-- The product of a clock, which is zero if it is not enabled. -/
def Dsp96Input.product (i : Dsp96Input) : BitVec 43 :=
  if i.enable then i.data.signExtend 43 * i.mul.signExtend 43 else 0

/-! ### Loading the upper half -/

theorem product_toInt (i : Dsp96Input) :
    i.product.toInt = if i.enable then i.data.toInt * i.mul.toInt else 0 := by
  unfold Dsp96Input.product
  split_ifs
  · exact Signed.product (by decide) (by decide) i.data i.mul
  · exact BitVec.toInt_zero

/-- The sign that is expected of a product is right, but for a product that is zero. -/
theorem product_sign (i : Dsp96Input) :
    ((i.enable && (i.data.msb ^^ i.mul.msb)) = true → i.product.toInt ≤ 0) ∧
      ((i.enable && (i.data.msb ^^ i.mul.msb)) = false → 0 ≤ i.product.toInt) := by
  rw [product_toInt, BitVec.msb_eq_toInt, BitVec.msb_eq_toInt]
  cases i.enable with
  | false => exact ⟨fun _ => le_rfl, fun _ => le_rfl⟩
  | true =>
      rw [if_pos rfl, Bool.true_and]
      by_cases hdata : i.data.toInt < 0
      · by_cases hmul : i.mul.toInt < 0
        · simpa [hdata, hmul] using mul_nonneg_of_nonpos_of_nonpos hdata.le hmul.le
        · simpa [hdata, hmul] using mul_nonpos_of_nonpos_of_nonneg hdata.le (not_lt.mp hmul)
      · by_cases hmul : i.mul.toInt < 0
        · simpa [hdata, hmul] using mul_nonpos_of_nonneg_of_nonpos (not_lt.mp hdata) hmul.le
        · simpa [hdata, hmul] using mul_nonneg (not_lt.mp hdata) (not_lt.mp hmul)

/-- The carry that the upper slice is given for a load. -/
def loadCarry (m47 c47 : Bool) (sumLow : BitVec 48) : Bool :=
  match m47, c47 with
  | false, false => false
  | true, true => true
  | false, true | true, false => !sumLow.msb

/-- A number of 43 bits as 48 bits. -/
theorem signExtend_toNat (x : BitVec 43) :
    ((x.signExtend 48).toNat : ℤ) = x.toInt + if x.msb then 2 ^ 48 else 0 := by
  have hmsb : (x.signExtend 48).msb = x.msb := by simp [BitVec.msb_signExtend]
  have htoInt := BitVec.toInt_signExtend_of_le (x := x) (show 43 ≤ 48 by decide)
  rw [BitVec.toInt_eq_msb_cond, hmsb] at htoInt
  split_ifs at htoInt ⊢ <;> omega

/-- With the sign that is expected and the carry found so, a load of the upper half is right, also
where the product is zero. -/
theorem load_upper (h l : BitVec 48) (x : BitVec 43) {m47 : Bool}
    (hneg : m47 = true → x.toInt ≤ 0) (hpos : m47 = false → 0 ≤ x.toInt) :
    h + fill 48 m47 + BitVec.ofNat 48 (loadCarry m47 l.msb (l + x.signExtend 48)).toNat =
      h + fill 48 x.msb + BitVec.ofNat 48 (carry l (x.signExtend 48)).toNat := by
  have hl := l.isLt
  have hlow : -2 ^ 42 ≤ x.toInt := BitVec.le_toInt x
  have hhigh : x.toInt < 2 ^ 42 := BitVec.toInt_lt
  have hx := signExtend_toNat x
  have hsum : (l + x.signExtend 48).toNat = (l.toNat + (x.signExtend 48).toNat) % 2 ^ 48 :=
    BitVec.toNat_add ..
  have hnonneg : x.msb = true ↔ x.toInt < 0 := by rw [BitVec.msb_eq_toInt, decide_eq_true_eq]
  have htop : l.msb = decide (2 ^ 47 ≤ l.toNat) := BitVec.msb_eq_decide l
  have hsumTop : (l + x.signExtend 48).msb = decide (2 ^ 47 ≤ (l + x.signExtend 48).toNat) :=
    BitVec.msb_eq_decide _
  by_cases hsign : x.msb = m47
  · -- the sign is as expected: the top bit of the sum tells the carry where it is open
    have hcarry : loadCarry m47 l.msb (l + x.signExtend 48) = carry l (x.signExtend 48) := by
      rw [htop]
      unfold loadCarry carry
      rw [hsumTop, hsum]
      cases m47 with
      | false =>
          have hx₀ : ((x.signExtend 48).toNat : ℤ) = x.toInt := by simpa [hsign] using hx
          by_cases hl₀ : 2 ^ 47 ≤ l.toNat
          · simp only [hl₀, decide_true]
            rw [← decide_not, decide_eq_decide]
            omega
          · simp only [hl₀, decide_false]
            exact (decide_eq_false (by omega)).symm
      | true =>
          have hx₀ : ((x.signExtend 48).toNat : ℤ) = x.toInt + 2 ^ 48 := by simpa [hsign] using hx
          by_cases hl₀ : 2 ^ 47 ≤ l.toNat
          · simp only [hl₀, decide_true]
            exact (decide_eq_true (by omega)).symm
          · simp only [hl₀, decide_false]
            rw [← decide_not, decide_eq_decide]
            omega
    rw [hcarry, hsign]
  · -- otherwise the product is zero: minus one and a carry are added instead of nothing
    have hx₀ : x = 0 ∧ m47 = true := by
      cases m47 with
      | false => exact absurd (hnonneg.mp (Bool.not_eq_false _ ▸ hsign)) (not_lt.mpr (hpos rfl))
      | true =>
          have hle : 0 ≤ x.toInt := not_lt.mp (mt hnonneg.mpr hsign)
          exact ⟨BitVec.toInt_inj.mp (le_antisymm (hneg rfl) hle), rfl⟩
    obtain ⟨rfl, rfl⟩ := hx₀
    have hcarry : carry l ((0 : BitVec 43).signExtend 48) = false := by
      unfold carry
      exact decide_eq_false (by simpa using hl)
    have hload : loadCarry true l.msb (l + (0 : BitVec 43).signExtend 48) = true := by
      unfold loadCarry
      cases hmsb : l.msb with
      | false => simp [hmsb]
      | true => rfl
    rw [hcarry, hload, add_assoc, add_assoc]
    rfl

/-! ### The lower half -/

section stages
variable (preload overflowMask : BitVec 96) (input : ℕ → Dsp96Input) (n : ℕ)

/-- The lower slice has the product of clock `n` on clock `n + 2`. -/
theorem run_m : (Dsp96.run preload overflowMask input (n + 2)).low.m = (input n).product := by
  change ((if !(input n).enable then 0 else (input n).data.signExtend 30).setWidth 25).signExtend
      (25 + 18) * (if !(input n).enable then 0 else (input n).mul).signExtend (25 + 18) = _
  unfold Dsp96Input.product
  cases (input n).enable with
  | false => rfl
  | true =>
      have hdata : ((input n).data.signExtend 30).setWidth 25 = (input n).data := by
        apply BitVec.eq_of_getLsbD_eq
        intro i hi
        rw [BitVec.getLsbD_setWidth, BitVec.getLsbD_signExtend]
        simp [hi]
        omega
      rw [Bool.not_true, if_neg Bool.false_ne_true, if_neg Bool.false_ne_true, if_pos rfl, hdata]

/-- What the lower slice adds to: the preload on a start, and else what it has. -/
def lowBase : BitVec 48 :=
  if (input n).start then Dsp96.lower preload
  else (Dsp96.run preload overflowMask input (n + 2)).low.out.p

/-- The lower slice has added it on clock `n + 3`. -/
theorem run_low :
    (Dsp96.run preload overflowMask input (n + 3)).low.out =
      { p := lowBase preload overflowMask input n + (input n).product.signExtend 48
        carry := carry (lowBase preload overflowMask input n) ((input n).product.signExtend 48)
        multSign := (input n).product.msb } := by
  have hm := run_m preload overflowMask input n
  have hopmode : (Dsp96.run preload overflowMask input (n + 2)).low.opmode =
      if (input n).start then 0b0110101 else 0b0100101 := rfl
  have hc : (Dsp96.run preload overflowMask input (n + 2)).low.c =
      if (input n).start then Dsp96.lower preload else Dsp96.lower overflowMask := rfl
  have hcin : (Dsp96.run preload overflowMask input (n + 2)).low.cin {} = false := rfl
  have hx : (Dsp96.run preload overflowMask input (n + 2)).low.x =
      (input n).product.signExtend 48 := by
    unfold Slice.x
    rw [hopmode, hm]
    cases (input n).start <;> rfl
  have hy : (Dsp96.run preload overflowMask input (n + 2)).low.y {} = 0 := by
    unfold Slice.y
    rw [hopmode]
    cases (input n).start <;> rfl
  have hz : (Dsp96.run preload overflowMask input (n + 2)).low.z {} =
      lowBase preload overflowMask input n := by
    unfold Slice.z lowBase
    rw [hopmode, hc]
    cases (input n).start <;> rfl
  have hout : (Dsp96.run preload overflowMask input (n + 3)).low.out =
      { p := ((Dsp96.run preload overflowMask input (n + 2)).low.sum {}).setWidth 48
        carry := ((Dsp96.run preload overflowMask input (n + 2)).low.sum {}).getLsbD 48
        multSign := (Dsp96.run preload overflowMask input (n + 2)).low.m.msb } := rfl
  rw [hout, Slice.sum_low, Slice.sum_carry _ _ hy hcin, hx, hy, hz, hcin, hm]
  simp

/-- What the upper slice adds to. -/
def highBase : BitVec 48 :=
  if (input n).start then Dsp96.upper preload
  else (Dsp96.run preload overflowMask input (n + 3)).high.out.p

/-- The upper slice has added sign and carry on clock `n + 4`. -/
theorem run_high :
    (Dsp96.run preload overflowMask input (n + 4)).high.out.p =
      highBase preload overflowMask input n + fill 48 (input n).product.msb +
        BitVec.ofNat 48 (carry (lowBase preload overflowMask input n)
          ((input n).product.signExtend 48)).toNat := by
  have hlow := run_low preload overflowMask input n
  have hopmode : (Dsp96.run preload overflowMask input (n + 3)).high.opmode =
      if (input n).start then
        (if (input n).enable && ((input n).data.msb ^^ (input n).mul.msb) then 0b0111000
          else 0b0110000)
      else 0b1001000 := rfl
  have hc : (Dsp96.run preload overflowMask input (n + 3)).high.c =
      if (input n).start then Dsp96.upper preload else Dsp96.upper overflowMask := rfl
  have hsel : (Dsp96.run preload overflowMask input (n + 3)).high.carryInSel =
      if (input n).start then
        match (input n).enable && ((input n).data.msb ^^ (input n).mul.msb),
          (Dsp96.lower preload).msb with
        | false, false | true, true => 0
        | false, true | true, false => 1
      else 2 := rfl
  have hin : (Dsp96.run preload overflowMask input (n + 3)).high.carryIn =
      if (input n).start then
        match (input n).enable && ((input n).data.msb ^^ (input n).mul.msb),
          (Dsp96.lower preload).msb with
        | false, false => false
        | true, true => true
        | false, true | true, false =>
          (Dsp96.run preload overflowMask input (n + 1)).carryInHigh
      else (Dsp96.run preload overflowMask input (n + 1)).carryInHigh := rfl
  have hout : (Dsp96.run preload overflowMask input (n + 4)).high.out.p =
      ((Dsp96.run preload overflowMask input (n + 3)).high.sum
        (Dsp96.run preload overflowMask input (n + 3)).low.out).setWidth 48 := rfl
  rw [hout, Slice.sum_low, hlow]
  unfold Slice.z Slice.x Slice.y Slice.cin highBase
  rw [hopmode, hc, hsel, hin]
  cases hstart : (input n).start with
  | false =>
      cases (input n).product.msb <;> simp [fill]
  | true =>
      obtain ⟨hneg, hpos⟩ := product_sign (input n)
      have hload := load_upper (Dsp96.upper preload) (Dsp96.lower preload) (input n).product hneg hpos
      have hbase : lowBase preload overflowMask input n = Dsp96.lower preload := if_pos hstart
      simp only [if_true]
      rw [hbase, ← hload]
      cases (input n).enable && ((input n).data.msb ^^ (input n).mul.msb) <;>
        cases (Dsp96.lower preload).msb <;> simp [fill, loadCarry]

/-! ### The whole -/

theorem upper_append_lower (x : BitVec 96) : Dsp96.upper x ++ Dsp96.lower x = x :=
  BitVec.extractLsb'_append_extractLsb'

/-- The single accumulator: the sum that `sum_o` has three clocks after clock `n` takes the product of
clock `n`, from the preload on a start. -/
theorem sumO_succ :
    (Dsp96.run preload overflowMask input (n + 4)).sumO =
      (if (input n).start then preload
        else (Dsp96.run preload overflowMask input (n + 3)).sumO) +
        (input n).product.signExtend 96 := by
  have hlow : (Dsp96.run preload overflowMask input (n + 4)).sumLow =
      lowBase preload overflowMask input n + (input n).product.signExtend 48 :=
    congrArg Cascade.p (run_low preload overflowMask input n)
  have hbase : (if (input n).start then preload
      else (Dsp96.run preload overflowMask input (n + 3)).sumO) =
        highBase preload overflowMask input n ++ lowBase preload overflowMask input n := by
    unfold highBase lowBase
    cases (input n).start with
    | false => rfl
    | true => exact (upper_append_lower preload).symm
  rw [hbase]
  unfold Dsp96.sumO
  rw [hlow, run_high]
  exact (append_add_signExtend _ _ _ (by decide)).symm

/-- The bits of a word that a mask leaves are zero, by halves. -/
theorem masked_append (h l : BitVec 48) (mask : BitVec 96) :
    (h ++ l) &&& ~~~ mask = 0 ↔ h &&& ~~~ Dsp96.upper mask = 0 ∧ l &&& ~~~ Dsp96.lower mask = 0 := by
  have hsplit : (h ++ l) &&& ~~~ mask =
      (h &&& ~~~ Dsp96.upper mask) ++ (l &&& ~~~ Dsp96.lower mask) := by
    rw [← BitVec.and_append, ← BitVec.not_append, upper_append_lower]
  have hzero : (0 : BitVec 48) ++ (0 : BitVec 48) = (0 : BitVec 96) := rfl
  rw [hsplit, ← hzero]
  constructor
  · intro heq
    refine ⟨?_, ?_⟩
    · have hleft := congrArg (BitVec.extractLsb' 48 48) heq
      rwa [BitVec.extractLsb'_append_eq_left, BitVec.extractLsb'_append_eq_left] at hleft
    · have hright := congrArg (BitVec.extractLsb' 0 48) heq
      rwa [BitVec.extractLsb'_append_eq_right, BitVec.extractLsb'_append_eq_right] at hright
  · rintro ⟨hh, hl⟩
    rw [hh, hl]

/-- Where no start has put the preload into the C registers, the overflow is told from the bits of
`sum_o` that the mask leaves. -/
theorem overflowO_eq (hstart : (input n).start = false) :
    (Dsp96.run preload overflowMask input (n + 4)).overflowO =
      !(decide ((Dsp96.run preload overflowMask input (n + 4)).sumO &&& ~~~ overflowMask = 0) ||
        decide (~~~ (Dsp96.run preload overflowMask input (n + 4)).sumO &&& ~~~ overflowMask
          = 0)) := by
  have hlow : (Dsp96.run preload overflowMask input (n + 2)).low.c = Dsp96.lower overflowMask :=
    if_neg (Bool.eq_false_iff.mp hstart)
  have hhigh : (Dsp96.run preload overflowMask input (n + 3)).high.c = Dsp96.upper overflowMask :=
    if_neg (Bool.eq_false_iff.mp hstart)
  have hdetect : (Dsp96.run preload overflowMask input (n + 4)).overflowO =
      !(decide ((Dsp96.run preload overflowMask input (n + 4)).sumLow &&&
            ~~~ (Dsp96.run preload overflowMask input (n + 2)).low.c = 0) &&
          decide ((Dsp96.run preload overflowMask input (n + 4)).high.out.p &&&
            ~~~ (Dsp96.run preload overflowMask input (n + 3)).high.c = 0) ||
        decide (~~~ (Dsp96.run preload overflowMask input (n + 4)).sumLow &&&
            ~~~ (Dsp96.run preload overflowMask input (n + 2)).low.c = 0) &&
          decide (~~~ (Dsp96.run preload overflowMask input (n + 4)).high.out.p &&&
            ~~~ (Dsp96.run preload overflowMask input (n + 3)).high.c = 0)) := rfl
  unfold Dsp96.sumO
  rw [hdetect, hlow, hhigh, BitVec.not_append, decide_eq_decide.mpr (masked_append _ _ _),
    decide_eq_decide.mpr (masked_append _ _ _), Bool.decide_and, Bool.decide_and,
    Bool.and_comm (decide (_ = _)), Bool.and_comm (decide (~~~ _ &&& _ = _))]

end stages

end Mbf.Detector
