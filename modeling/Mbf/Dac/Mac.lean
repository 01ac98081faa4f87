import Mbf.Lib.Dsp48e1

/-! # Multiplier and saturation

`dsp48e_mac` is a slice that multiplies and adds what comes in on `c_i`, over its C register or,
with `USE_PCIN`, over the cascade.  The product has three registers on its way, the C input two and
the cascade one (`mac_toInt`).  Its flag tells whether the bits above the result are all the same.

`saturate` takes a slice of the result, or the end of the range if the flag is set. -/

namespace Mbf.Dac

open Dsp48e1

/-! ### `dsp48e_mac` -/

/-- The inputs of `dsp48e_mac`, with `a_i` and `b_i` resized. -/
structure MacInput where
  a : BitVec 25
  b : BitVec 18
  enAb : Bool := true
  c : BitVec 48 := 0
  enC : Bool := true

/-- `dsp48e_mac` is its slice. -/
abbrev Mac := Slice

/-- `opmode`: X and Y are the product; Z is zero, PCIN or C. -/
def macOpmode (usePcin enC : Bool) : BitVec 7 :=
  if !enC then 0b0000101 else if usePcin then 0b0010101 else 0b0110101

namespace Mac

def clock (topResultBit : ℕ) (usePcin : Bool) (i : MacInput) (s : Mac) : Mac :=
  s.clockMasked (maskBelow topResultBit)
    { a := i.a.setWidth 30
      b := i.b
      reset := !i.enAb
      c := if usePcin then 0 else i.c
      opmode := macOpmode usePcin i.enC
      carryIn := false
      carryInSel := 0 }
    { p := if usePcin then i.c else 0 }

/-- `p_o`, which is also `pc_o`. -/
def pO (s : Mac) : BitVec 48 := s.out.p

/-- `ovf_o`. -/
def ovfO (s : Mac) : Bool := !(s.patternDetect || s.patternBDetect)

end Mac

/-- `a_i` times `b_i`, or nothing. -/
def MacInput.product (i : MacInput) : ℤ := if i.enAb then i.a.toInt * i.b.toInt else 0

section run

variable {topResultBit : ℕ} {usePcin : Bool} (mac : ℕ → Mac) (input : ℕ → MacInput)
  (hclock : ∀ n, mac (n + 1) = (mac n).clock topResultBit usePcin (input n))
include hclock

theorem mac_m (n : ℕ) : (mac (n + 2)).m.toInt = (input n).product := by
  have hm : (mac (n + 2)).m = ((mac (n + 1)).a.setWidth 25).signExtend (25 + 18) *
      (mac (n + 1)).b.signExtend (25 + 18) := by
    rw [hclock (n + 1)]
    rfl
  have ha : (mac (n + 1)).a = if !(input n).enAb then 0 else (input n).a.setWidth 30 := by
    rw [hclock n]
    rfl
  have hb : (mac (n + 1)).b = if !(input n).enAb then 0 else (input n).b := by
    rw [hclock n]
    rfl
  rw [hm, Signed.product (by decide) (by decide), ha, hb]
  unfold MacInput.product
  cases (input n).enAb with
  | true =>
      have hwidth : ((input n).a.setWidth 30).setWidth 25 = (input n).a := by
        rw [BitVec.setWidth_setWidth_of_le _ (by decide), BitVec.setWidth_eq]
      rw [Bool.not_true, if_neg Bool.false_ne_true, if_neg Bool.false_ne_true, hwidth, if_pos rfl]
  | false => rfl

/-- What is added to the product: the C input of the clock after that of the product, or the cascade
of the clock after that. -/
def addend (usePcin : Bool) (input : ℕ → MacInput) (n : ℕ) : BitVec 48 :=
  if !(input (n + 1)).enC then 0
  else if usePcin then (input (n + 2)).c
  else (input (n + 1)).c

omit hclock in
theorem sum_of_opmode {s : Slice} {below : Cascade} {enC : Bool}
    (hopmode : s.opmode = macOpmode usePcin enC) (hcarry : s.carryIn = false)
    (hsel : s.carryInSel = 0) :
    (s.sum below).setWidth 48 =
      (if !enC then 0 else if usePcin then below.p else s.c) + s.m.signExtend 48 := by
  rw [Slice.sum_low]
  unfold Slice.z Slice.x Slice.y Slice.cin
  rw [hopmode, hcarry, hsel]
  cases usePcin <;> cases enC <;> simp [macOpmode]

theorem mac_p (n : ℕ) : (mac (n + 3)).pO =
    addend usePcin input n + (mac (n + 2)).m.signExtend 48 := by
  have hp : (mac (n + 3)).pO =
      ((mac (n + 2)).sum { p := if usePcin then (input (n + 2)).c else 0 }).setWidth 48 := by
    rw [hclock (n + 2)]
    rfl
  have hc : (mac (n + 2)).c = if usePcin then 0 else (input (n + 1)).c := by
    rw [hclock (n + 1)]
    rfl
  have hopmode : (mac (n + 2)).opmode = macOpmode usePcin (input (n + 1)).enC := by
    rw [hclock (n + 1)]
    rfl
  have hcarry : (mac (n + 2)).carryIn = false := by
    rw [hclock (n + 1)]
    rfl
  have hsel : (mac (n + 2)).carryInSel = 0 := by
    rw [hclock (n + 1)]
    rfl
  rw [hp, sum_of_opmode hopmode hcarry hsel, hc]
  unfold addend
  cases usePcin <;> rfl

/-- The result, unless it does not fit. -/
theorem mac_toInt (n : ℕ)
    (hfits : Signed.Fits 48 ((input n).product + (addend usePcin input n).toInt)) :
    (mac (n + 3)).pO.toInt = (input n).product + (addend usePcin input n).toInt := by
  have hm := mac_m mac input hclock n
  have hextend : ((mac (n + 2)).m.signExtend 48).toInt = (input n).product := by
    rw [BitVec.toInt_signExtend_of_le (by decide), hm]
  rw [Int.add_comm] at hfits ⊢
  rw [mac_p mac input hclock, Signed.add_toInt (by decide) _ _ (by rw [hextend]; exact hfits),
    hextend]

/-- The flag is about the result of the same clock. -/
theorem mac_ovf {k o : ℕ} (h : k + o ≤ 48) (ho : 0 < o) (htop : topResultBit = k + o - 1) (n : ℕ) :
    (mac (n + 1)).ovfO = true ↔ ¬Signed.Fits o ((mac (n + 1)).pO.toInt / 2 ^ k) := by
  rw [← patterns_iff _ h ho, ← htop]
  have hpattern : (mac (n + 1)).patternDetect =
      decide ((mac (n + 1)).pO &&& ~~~maskBelow topResultBit = 0) := by
    rw [hclock n]
    rfl
  have hpatternB : (mac (n + 1)).patternBDetect =
      decide (~~~(mac (n + 1)).pO &&& ~~~maskBelow topResultBit = 0) := by
    rw [hclock n]
    rfl
  rw [Mac.ovfO, hpattern, hpatternB, Bool.not_eq_true', Bool.or_eq_false_iff,
    decide_eq_false_iff_not, decide_eq_false_iff_not, not_or]

end run

/-! ### `saturate` -/

/-- The registers of `saturate`, for data of `w` bits and a result of `o`. -/
structure Saturate (w o : ℕ) where
  dataIn : BitVec w
  ovfIn : Bool
  dataOut : BitVec o
  ovfO : Bool

def Saturate.clock {w o : ℕ} (offset : ℕ) (data : BitVec w) (ovf : Bool) (s : Saturate w o) :
    Saturate w o where
  dataIn := data
  ovfIn := ovf
  dataOut :=
    if s.ovfIn then if s.dataIn.msb then .intMin o else .intMax o
    else s.dataIn.extractLsb' offset o
  ovfO := s.ovfIn

/-- The result is the nearest number that fits, and the flag tells whether it is another one. -/
theorem saturate_clamp {w o offset : ℕ} (s : ℕ → Saturate w o) (data : ℕ → BitVec w)
    (ovf : ℕ → Bool) (hclock : ∀ n, s (n + 1) = (s n).clock offset (data n) (ovf n))
    (h : offset + o ≤ w) (ho : 0 < o) (n : ℕ)
    (hovf : ovf n = true ↔ ¬Signed.Fits o ((data n).toInt / 2 ^ offset)) :
    (s (n + 2)).dataOut.toInt = Signed.clamp o ((data n).toInt / 2 ^ offset) ∧
      ((s (n + 2)).ovfO = true ↔ ¬Signed.Fits o ((data n).toInt / 2 ^ offset)) := by
  have hdata : (s (n + 2)).dataOut = if ovf n then if (data n).msb then .intMin o else .intMax o
      else (data n).extractLsb' offset o := by
    rw [hclock (n + 1), hclock n]
    rfl
  have hflag : (s (n + 2)).ovfO = ovf n := by
    rw [hclock (n + 1), hclock n]
    rfl
  rw [hdata, hflag]
  exact ⟨Signed.saturate_toInt _ h ho _ hovf, hovf⟩

end Mbf.Dac
