import Mbf.Lib.Signed
import Mathlib.Data.BitVec
import Mathlib.Tactic.Linarith

/-! # The DSP48E1 slice

A multiplier, three multiplexers, an adder of 48 bits and a pattern detector, with a register at
each port: the slice as published, for an adder that adds (`ALUMODE` 0000), without the adder before
the multiplier, for the pattern zero with the mask in the C register or in the attribute.

Two slices make an accumulator of twice the width: the lower one multiplies and hands on the carry
and the sign of the product, the upper one adds both of them one clock later.  What the upper one
adds is the upper half of the product (`append_add_signExtend`). -/

namespace Dsp48e1

/-- What a slice takes from its surroundings on one clock. -/
structure Ports where
  a : BitVec 30
  b : BitVec 18
  /-- `RSTA` and `RSTB`. -/
  reset : Bool
  c : BitVec 48
  opmode : BitVec 7
  carryIn : Bool
  carryInSel : BitVec 3

/-- What a slice takes from the one below it: `PCIN`, `CARRYCASCIN` and `MULTSIGNIN`. -/
structure Cascade where
  p : BitVec 48 := 0
  carry : Bool := false
  multSign : Bool := false

/-- The registers of a slice. -/
structure Slice where
  a : BitVec 30 := 0
  b : BitVec 18 := 0
  m : BitVec 43 := 0
  c : BitVec 48 := 0
  opmode : BitVec 7 := 0
  carryIn : Bool := false
  carryInSel : BitVec 3 := 0
  /-- The sum, with `CARRYCASCOUT` and `MULTSIGNOUT`. -/
  out : Cascade := {}
  patternDetect : Bool := false
  patternBDetect : Bool := false

namespace Slice

variable (below : Cascade) (s : Slice)

/-- The X multiplexer; of the two partial products that make up `M` it has the whole. -/
def x : BitVec 48 :=
  match s.opmode.extractLsb' 0 2 with
  | 0 => 0
  | 1 => s.m.signExtend 48
  | 2 => s.out.p
  | 3 => s.a ++ s.b

/-- The Y multiplexer, which extends the sign of the product from below where Z is that of the
extension. -/
def y : BitVec 48 :=
  match s.opmode.extractLsb' 2 2 with
  | 0 | 1 => 0
  | 2 => if s.opmode.extractLsb' 4 3 = 4 && !below.multSign then 0 else .allOnes 48
  | 3 => s.c

/-- The Z multiplexer. -/
def z : BitVec 48 :=
  match s.opmode.extractLsb' 4 3 with
  | 0 | 7 => 0
  | 1 => below.p
  | 2 | 4 => s.out.p
  | 3 => s.c
  | 5 => below.p.sshiftRight 17
  | 6 => s.out.p.sshiftRight 17

/-- The carry that `CARRYINSEL` selects. -/
def cin : Bool :=
  match s.carryInSel with
  | 0 => s.carryIn
  | 1 => !below.p.msb
  | 2 => below.carry
  | 3 => below.p.msb
  | 4 => s.out.carry
  | 5 => !s.out.p.msb
  | 6 => s.a.getLsbD 24 == s.b.msb
  | 7 => s.out.p.msb

/-- The sum, with the bits above it. -/
def sum : BitVec 50 :=
  (s.z below).setWidth 50 + s.x.setWidth 50 + (s.y below).setWidth 50 +
    BitVec.ofNat 50 (s.cin below).toNat

/-- A clock; `below` is the slice below as it was before the clock. -/
def clock (i : Ports) (below : Cascade) (s : Slice) : Slice where
  a := if i.reset then 0 else i.a
  b := if i.reset then 0 else i.b
  m := (s.a.setWidth 25).signExtend (25 + 18) * s.b.signExtend (25 + 18)
  c := i.c
  opmode := i.opmode
  carryIn := i.carryIn
  carryInSel := i.carryInSel
  out :=
    { p := (s.sum below).setWidth 48
      carry := (s.sum below).getLsbD 48
      multSign := s.m.msb }
  patternDetect := (s.sum below).setWidth 48 &&& ~~~ s.c = 0
  patternBDetect := ~~~ (s.sum below).setWidth 48 &&& ~~~ s.c = 0

/-- A clock of a slice that has its mask as an attribute, `SEL_MASK => "MASK"`. -/
def clockMasked (mask : BitVec 48) (i : Ports) (below : Cascade) (s : Slice) : Slice :=
  { s.clock i below with
    patternDetect := (s.sum below).setWidth 48 &&& ~~~mask = 0
    patternBDetect := ~~~(s.sum below).setWidth 48 &&& ~~~mask = 0 }

end Slice

/-! ### Wide accumulators -/

/-- The carry of a sum. -/
def carry {n : ℕ} (x y : BitVec n) : Bool := 2 ^ n ≤ x.toNat + y.toNat

/-- All ones or all zeros. -/
def fill (n : ℕ) (b : Bool) : BitVec n := if b then .allOnes n else 0

/-- Two halves are put together. -/
theorem append_toNat {m n : ℕ} (h : BitVec n) (l : BitVec m) :
    (h ++ l).toNat = h.toNat * 2 ^ m + l.toNat := by
  rw [BitVec.toNat_append, ← Nat.shiftLeft_add_eq_or_of_lt l.isLt, Nat.shiftLeft_eq]

theorem carry_toNat {n : ℕ} (x y : BitVec n) : (carry x y).toNat = (x.toNat + y.toNat) / 2 ^ n := by
  have hx := x.isLt
  have hy := y.isLt
  unfold carry
  by_cases hfit : x.toNat + y.toNat < 2 ^ n
  · rw [decide_eq_false (by omega), Nat.div_eq_of_lt hfit]
    rfl
  · have hone : (x.toNat + y.toNat) / 2 ^ n = 1 := Nat.div_eq_of_lt_le (by omega) (by omega)
    rw [decide_eq_true (by omega), hone]
    rfl

/-- A sum by halves. -/
theorem append_add {m n : ℕ} (h h' : BitVec n) (l l' : BitVec m) :
    (h ++ l) + (h' ++ l') = (h + h' + BitVec.ofNat n (carry l l').toNat) ++ (l + l') := by
  have hsplit := Nat.div_add_mod (l.toNat + l'.toNat) (2 ^ m)
  have hsum : h.toNat * 2 ^ m + l.toNat + (h'.toNat * 2 ^ m + l'.toNat) =
      2 ^ m * (h.toNat + h'.toNat + (l.toNat + l'.toNat) / 2 ^ m) + (l.toNat + l'.toNat) % 2 ^ m := by
    linarith
  apply BitVec.eq_of_toNat_eq
  rw [BitVec.toNat_add, append_toNat, append_toNat, append_toNat, carry_toNat, hsum, Nat.add_comm n m,
    pow_add, Nat.mod_mul, Nat.mul_add_mod, Nat.mod_mod, Nat.mul_add_div (Nat.two_pow_pos m),
    Nat.div_eq_of_lt (Nat.mod_lt _ (Nat.two_pow_pos m)), BitVec.toNat_add, BitVec.toNat_add,
    BitVec.toNat_add, BitVec.toNat_ofNat]
  simp only [Nat.add_mod_mod, Nat.mod_add_mod, add_zero]
  ring

/-- The upper half of a number that is extended holds its sign only. -/
theorem signExtend_append {k m : ℕ} (x : BitVec k) (hk : k ≤ m) (n : ℕ) :
    x.signExtend (n + m) = fill n x.msb ++ x.signExtend m := by
  apply BitVec.eq_of_getLsbD_eq
  intro i hi
  rw [BitVec.getLsbD_append]
  by_cases hlow : i < m
  · simp [hlow, hi, BitVec.getElem_signExtend]
  · have hsign : ¬ i < k := by omega
    have hplace : i - m < n := by omega
    unfold fill
    cases hmsb : x.msb with
    | true => simp [hlow, hi, hsign, hplace, hmsb, BitVec.getLsbD_signExtend]
    | false => simp [hlow, hsign, hmsb, BitVec.getLsbD_signExtend]

/-- The upper half of a sum with a product takes its sign and the carry of the lower half. -/
theorem append_add_signExtend {k m n : ℕ} (h : BitVec n) (l : BitVec m) (x : BitVec k)
    (hk : k ≤ m) :
    (h ++ l) + x.signExtend (n + m) =
      (h + fill n x.msb + BitVec.ofNat n (carry l (x.signExtend m)).toNat) ++
        (l + x.signExtend m) := by
  rw [signExtend_append x hk n, append_add]

/-! ### What a slice adds -/

namespace Slice

variable (below : Cascade) (s : Slice)

theorem sum_low : (s.sum below).setWidth 48 =
    s.z below + s.x + s.y below + BitVec.ofNat 48 (s.cin below).toNat := by
  unfold sum
  rw [BitVec.setWidth_add _ _ (by decide), BitVec.setWidth_add _ _ (by decide),
    BitVec.setWidth_add _ _ (by decide)]
  simp

/-- With two terms the bit above the sum is its carry. -/
theorem sum_carry (hy : s.y below = 0) (hcin : s.cin below = false) :
    (s.sum below).getLsbD 48 = carry (s.z below) s.x := by
  have hz := (s.z below).isLt
  have hx := s.x.isLt
  have hsum : (s.sum below).toNat = (s.z below).toNat + s.x.toNat := by
    unfold sum
    rw [hy, hcin, show (0 : BitVec 48).setWidth 50 = 0 from rfl, Bool.toNat_false]
    simp only [BitVec.add_zero, BitVec.ofNat_eq_ofNat, BitVec.toNat_add, BitVec.toNat_setWidth]
    omega
  unfold carry
  rw [BitVec.getLsbD, hsum, Nat.testBit_eq_decide_div_mod_eq]
  exact decide_eq_decide.mpr (by omega)

end Slice

/-! ### Pattern detection

The bits that the mask leaves are all the same exactly if the number fits in the others and a
sign. -/

/-- The mask of the bits below `k`. -/
def maskBelow (k : ℕ) : BitVec 48 := BitVec.ofNat 48 (2 ^ k - 1)

theorem getLsbD_maskBelow {k i : ℕ} (hi : i < 48) : (maskBelow k).getLsbD i = decide (i < k) := by
  unfold maskBelow
  rw [BitVec.getLsbD_ofNat, decide_eq_true hi, Bool.true_and, Nat.testBit_two_pow_sub_one]

theorem masked_eq_zero {k : ℕ} (x : BitVec 48) :
    x &&& ~~~maskBelow k = 0 ↔ x.extractLsb' k (48 - k) = 0 := by
  constructor
  · intro h
    apply BitVec.eq_of_getLsbD_eq
    intro i hi
    have hbit := congrArg (fun y => BitVec.getLsbD y (k + i)) h
    simp only [BitVec.getLsbD_and, BitVec.getLsbD_not] at hbit
    rw [getLsbD_maskBelow (by omega), decide_eq_true (by omega), decide_eq_false (by omega)] at hbit
    simpa [BitVec.getLsbD_extractLsb', hi] using hbit
  · intro h
    apply BitVec.eq_of_getLsbD_eq
    intro i hi
    rw [BitVec.getLsbD_and, BitVec.getLsbD_not, getLsbD_maskBelow hi]
    by_cases hlow : i < k
    · simp [hlow]
    · have hbit := congrArg (fun y => BitVec.getLsbD y (i - k)) h
      have hplace : k + (i - k) = i := by omega
      simp only [BitVec.getLsbD_extractLsb', hplace] at hbit
      rw [decide_eq_true (show i - k < 48 - k by omega), Bool.true_and] at hbit
      rw [hbit]
      simp

theorem masked_not_eq_zero {k : ℕ} (x : BitVec 48) :
    ~~~x &&& ~~~maskBelow k = 0 ↔ x.extractLsb' k (48 - k) = .allOnes (48 - k) := by
  rw [masked_eq_zero]
  constructor
  · intro h
    apply BitVec.eq_of_getLsbD_eq
    intro i hi
    have hbit := congrArg (fun y => BitVec.getLsbD y i) h
    have hplace : k + i < 48 := by omega
    simpa [BitVec.getLsbD_extractLsb', hi, hplace] using hbit
  · intro h
    apply BitVec.eq_of_getLsbD_eq
    intro i hi
    have hbit := congrArg (fun y => BitVec.getLsbD y i) h
    have hplace : k + i < 48 := by omega
    simpa [BitVec.getLsbD_extractLsb', hi, hplace] using hbit

/-- Neither pattern is seen when a slice of the sum does not fit. -/
theorem patterns_iff {k o : ℕ} (x : BitVec 48) (h : k + o ≤ 48) (ho : 0 < o) :
    (x &&& ~~~maskBelow (k + o - 1) = 0 ∨ ~~~x &&& ~~~maskBelow (k + o - 1) = 0) ↔
      Signed.Fits o (x.toInt / 2 ^ k) := by
  rw [masked_eq_zero, masked_not_eq_zero]
  exact Signed.slice_overflow x h ho

end Dsp48e1
