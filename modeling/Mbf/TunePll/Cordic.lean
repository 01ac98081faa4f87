import Mbf.Lib.Clocked
import Mbf.Lib.Literals
import Mbf.Lib.Signed
import Mbf.Lib.Vectoring

/-! # The CORDIC of the Tune PLL

`tune_pll_cordic` computes the angle and the magnitude of a vector.  The vector is folded into the
first quadrant, shifted up until it fills the word, and then turned onto the x axis in 16 steps.
The registers are two bits wider than the word, and in words of four bits and more nothing is lost
(`cordic_vectors`). -/

namespace Mbf.TunePll

open Vectoring

/-! ### The circuit -/

/-- `cos_sin_t`. -/
structure CosSin (n : ℕ) where
  cos : BitVec n
  sin : BitVec n
deriving DecidableEq

/-- `state_t`. -/
inductive CordicState where
  | idle
  | normalise
  | shift
  | add
deriving DecidableEq

/-- What comes in on one clock: `angleUpdate` is from the table of arc tangents. -/
structure CordicInput (w : ℕ) where
  iq : CosSin w
  start : Bool
  angleUpdate : BitVec 20

/-- The registers of `tune_pll_cordic` for words of `w` bits. -/
structure Cordic (w : ℕ) where
  state : CordicState
  stepCount : BitVec 4
  done : Bool
  normaliseShift : BitVec 4
  iqNormal : CosSin w
  iq : CosSin (w + 2)
  shifted : CosSin (w + 2)
  angle : BitVec 20
  angleOut : BitVec 18
  magnitudeOut : BitVec w
  doneO : Bool

/-- The registers before the first clock. -/
def Cordic.initial (w : ℕ) : Cordic w where
  state := .idle
  stepCount := 0
  done := false
  normaliseShift := 0
  iqNormal := ⟨0, 0⟩
  iq := ⟨0, 0⟩
  shifted := ⟨0, 0⟩
  angle := 0
  angleOut := 0
  magnitudeOut := 0
  doneO := false

variable {w : ℕ}

/-- `initial_angle`. -/
def initialAngle (quadrant : ℤ) : BitVec 20 := BitVec.ofInt 2 quadrant ++ (0 : BitVec 18)

/-- The rotation into the first quadrant, with the angle. -/
def foldQuadrant (iq : CosSin w) : CosSin w × BitVec 20 :=
  match iq.cos.msb, iq.sin.msb with
  | false, false => (iq, initialAngle 0)
  | true, false => (⟨iq.sin, ~~~iq.cos⟩, initialAngle 1)
  | true, true => (⟨~~~iq.cos, ~~~iq.sin⟩, initialAngle (-2))
  | false, true => (⟨~~~iq.sin, iq.cos⟩, initialAngle (-1))

/-- `normalised`. -/
def Cordic.normalised (c : Cordic w) : Bool :=
  c.normaliseShift == 15 || c.iqNormal.cos.getLsbD (w - 2) || c.iqNormal.sin.getLsbD (w - 2)

/-- The result is registered after the last step. -/
def Cordic.output (c : Cordic w) : Cordic w :=
  { c with
    magnitudeOut :=
      if c.done then c.iq.cos.extractLsb' 1 w >>> c.normaliseShift.toNat else c.magnitudeOut
    angleOut := if c.done then c.angle.extractLsb' 2 18 else c.angleOut
    doneO := c.done }

/-- One clock of `tune_pll_cordic`. -/
def Cordic.clock (i : CordicInput w) (c : Cordic w) : Cordic w :=
  let r := c.output
  match c.state with
  | .idle =>
      { r with
        done := false
        stepCount := 0
        normaliseShift := 0
        state := if i.start then .normalise else .idle
        iqNormal := (foldQuadrant i.iq).1
        angle := (foldQuadrant i.iq).2 }
  | .normalise =>
      if c.normalised then
        { r with
          iq := ⟨c.iqNormal.cos.zeroExtend (w + 2), c.iqNormal.sin.zeroExtend (w + 2)⟩
          state := .shift }
      else
        { r with
          iqNormal := ⟨c.iqNormal.cos <<< 1, c.iqNormal.sin <<< 1⟩
          normaliseShift := c.normaliseShift + 1 }
  | .shift =>
      { r with
        state := .add
        shifted := ⟨c.iq.cos.sshiftRight c.stepCount.toNat, c.iq.sin.sshiftRight c.stepCount.toNat⟩ }
  | .add =>
      let last := c.stepCount = 15
      let up := 0 ≤ c.iq.sin.toInt
      { r with
        done := if last then true else c.done
        state := if last then .idle else .shift
        stepCount := if last then c.stepCount else c.stepCount + 1
        iq :=
          if up then ⟨c.iq.cos + c.shifted.sin, c.iq.sin - c.shifted.cos⟩
          else ⟨c.iq.cos - c.shifted.sin, c.iq.sin + c.shifted.cos⟩
        angle := if up then c.angle + i.angleUpdate else c.angle - i.angleUpdate }

/-! ### Folding -/

theorem msb_false_iff (x : BitVec w) : x.msb = false ↔ 0 ≤ x.toInt := by
  rw [BitVec.msb_eq_toInt, decide_eq_false_iff_not, not_lt]

theorem msb_true_iff (x : BitVec w) : x.msb = true ↔ x.toInt < 0 := by
  rw [BitVec.msb_eq_toInt, decide_eq_true_eq]

/-- Complements reflect negative components. -/
theorem foldQuadrant_nonneg (hw : 0 < w) (iq : CosSin w) :
    0 ≤ (foldQuadrant iq).1.cos.toInt ∧ 0 ≤ (foldQuadrant iq).1.sin.toInt := by
  have hcos := Signed.toInt_not hw iq.cos
  have hsin := Signed.toInt_not hw iq.sin
  unfold foldQuadrant
  cases hc : iq.cos.msb with
  | false =>
      rw [msb_false_iff] at hc
      cases hs : iq.sin.msb with
      | false =>
          rw [msb_false_iff] at hs
          exact ⟨hc, hs⟩
      | true =>
          rw [msb_true_iff] at hs
          exact ⟨by show 0 ≤ (~~~iq.sin).toInt; omega, hc⟩
  | true =>
      rw [msb_true_iff] at hc
      cases hs : iq.sin.msb with
      | false =>
          rw [msb_false_iff] at hs
          exact ⟨hs, by show 0 ≤ (~~~iq.cos).toInt; omega⟩
      | true =>
          rw [msb_true_iff] at hs
          exact ⟨by show 0 ≤ (~~~iq.cos).toInt; omega, by show 0 ≤ (~~~iq.sin).toInt; omega⟩

/-! ### Normalisation -/

/-- The vector in the registers, as numbers. -/
def CosSin.Is {n : ℕ} (iq : CosSin n) (v : Vec) : Prop := iq.cos.toInt = v.x ∧ iq.sin.toInt = v.y

theorem nonneg_toNat {x : BitVec w} {n : ℤ} (hx : x.toInt = n) (hn : 0 ≤ n) :
    (x.toNat : ℤ) = n := by
  have hsign := (msb_false_iff x).mpr (hx ▸ hn)
  rw [← hx, BitVec.toInt_eq_toNat_of_msb hsign]

/-- A shift to the left loses nothing of a non-negative number whose next bit is clear. -/
theorem shiftLeft_one (hw : 2 ≤ w) {x : BitVec w} {n : ℤ} (hx : x.toInt = n) (hn : 0 ≤ n)
    (htop : x.getLsbD (w - 2) = false) : (x <<< 1).toInt = 2 * n := by
  obtain ⟨v, rfl⟩ := Nat.exists_eq_add_of_le' hw
  have hnat := nonneg_toNat hx hn
  have hlt : x.toInt < 2 ^ (v + 1) := BitVec.toInt_lt
  have hhalf : x.toNat < 2 * 2 ^ v := by
    rw [hx, ← hnat] at hlt
    have hcast : x.toNat < 2 ^ (v + 1) := by exact_mod_cast hlt
    rwa [pow_succ'] at hcast
  -- the bit that is clear is the one below the sign
  have hquarter : x.toNat < 2 ^ v := by
    rw [Nat.add_sub_cancel, BitVec.getLsbD, Nat.testBit_eq_decide_div_mod_eq,
      decide_eq_false_iff_not] at htop
    have hdiv : x.toNat / 2 ^ v < 2 := Nat.div_lt_of_lt_mul (by rwa [Nat.mul_comm])
    have hzero : x.toNat / 2 ^ v = 0 := by
      rcases Nat.le_one_iff_eq_zero_or_eq_one.mp (Nat.le_of_lt_succ hdiv) with hzero | hone
      · exact hzero
      · exact absurd (by rw [hone]) htop
    exact (Nat.div_eq_zero_iff_lt (Nat.two_pow_pos v)).mp hzero
  have hpow : 2 ^ (v + 2) = 2 ^ 2 * 2 ^ v := by rw [pow_add, Nat.mul_comm]
  have hshift : (x <<< 1).toNat = 2 * x.toNat := by
    rw [BitVec.toNat_shiftLeft, Nat.shiftLeft_eq, pow_one, Nat.mul_comm, hpow,
      Nat.mod_eq_of_lt (by omega)]
  rw [BitVec.toInt_eq_toNat_of_lt (by rw [hshift, hpow]; omega), hshift]
  push_cast
  rw [hnat]

theorem zeroExtend_toInt {x : BitVec w} {n : ℤ} (hx : x.toInt = n) (hn : 0 ≤ n) :
    (x.zeroExtend (w + 2)).toInt = n := by
  have hlt := x.isLt
  have hpow : 2 ^ (w + 2) = 2 ^ 2 * 2 ^ w := by rw [pow_add, Nat.mul_comm]
  have hwide : (x.zeroExtend (w + 2)).toNat = x.toNat := by
    rw [BitVec.zeroExtend, BitVec.toNat_setWidth, Nat.mod_eq_of_lt (by omega)]
  rw [BitVec.toInt_eq_toNat_of_lt (by rw [hwide, hpow]; omega), hwide, nonneg_toNat hx hn]

/-! ### The iterations in the registers -/

/-- In words of four bits the vectors are few. -/
theorem iterate_small : ∀ a b : Fin 8, (iterate ⟨a.val, b.val⟩ 16).x < 32 := by
  decide +kernel

/-- The two bits above the word are enough for all steps. -/
theorem iterate_fits (hw : 4 ≤ w) {v : Vec} (hx : 0 ≤ v.x) (hy : 0 ≤ v.y)
    (hxw : v.x < 2 ^ (w - 1)) (hyw : v.y < 2 ^ (w - 1)) {k : ℕ} (hk : k ≤ 16) :
    Signed.Fits (w + 2) (iterate v k).x ∧ Signed.Fits (w + 2) (iterate v k).y := by
  obtain ⟨u, rfl⟩ := Nat.exists_eq_add_of_le' hw
  have hwide : (2 : ℤ) ^ (u + 4 + 2 - 1) = 4 * 2 ^ (u + 3) := by
    rw [show u + 4 + 2 - 1 = u + 3 + 2 by omega, pow_add, mul_comm]
    rfl
  have hlast : (iterate v 16).x < 4 * 2 ^ (u + 3) := by
    rcases Nat.eq_zero_or_pos u with rfl | hpos
    · obtain ⟨a, ha⟩ := Int.eq_ofNat_of_zero_le hx
      obtain ⟨b, hb⟩ := Int.eq_ofNat_of_zero_le hy
      have hsmall := iterate_small ⟨a, by rw [ha] at hxw; exact_mod_cast hxw⟩
        ⟨b, by rw [hb] at hyw; exact_mod_cast hyw⟩
      rw [show v = ⟨(a : ℤ), (b : ℤ)⟩ by rw [← ha, ← hb]]
      exact hsmall
    · have hlarge : (16 : ℤ) ≤ 2 ^ (u + 3) := by
        have hpow : (2 : ℤ) ^ 4 ≤ 2 ^ (u + 3) := pow_le_pow_right₀ (by decide) (by omega)
        exact hpow
      replace hxw : v.x < 2 ^ (u + 3) := hxw
      replace hyw : v.y < 2 ^ (u + 3) := hyw
      have hgrowth := growth hx hy (show v.x ≤ 2 ^ (u + 3) - 1 by omega)
        (show v.y ≤ 2 ^ (u + 3) - 1 by omega) 14
      push_cast at hgrowth
      omega
  have hmono := iterate_x_mono v hk
  have hnonneg := iterate_x_nonneg hx k
  have hside := abs_iterate_y_le hx k
  rw [abs_of_nonneg hy, abs_le] at hside
  replace hyw : v.y < 2 ^ (u + 3) := hyw
  unfold Signed.Fits
  rw [hwide]
  refine ⟨⟨by omega, by omega⟩, ?_⟩
  have hmax : max v.y (iterate v k).x < 4 * 2 ^ (u + 3) := max_lt (by omega) (by omega)
  constructor <;> omega

/-! ### The state machine -/

section clock
variable {c : Cordic w} {v : Vec} {angle : BitVec 20} {j k : ℕ}

/-- A vector that is shifted up. -/
def scaled (j : ℕ) (v : Vec) : Vec := ⟨2 ^ j * v.x, 2 ^ j * v.y⟩

/-- The vector `v` has been shifted `j` times. -/
structure Normalising (c : Cordic w) (v : Vec) (angle : BitVec 20) (j : ℕ) : Prop where
  state : c.state = .normalise
  count : c.stepCount = 0
  angle : c.angle = angle
  shift : c.normaliseShift.toNat = j
  iq : c.iqNormal.Is (scaled j v)

/-- The vector before step `k` is `v`. -/
structure Turning (c : Cordic w) (v : Vec) (k : ℕ) : Prop where
  state : c.state = .shift
  count : c.stepCount.toNat = k
  iq : c.iq.Is v

theorem Normalising.next (hw : 2 ≤ w) (hx : 0 ≤ v.x) (hy : 0 ≤ v.y) (h : Normalising c v angle j)
    (hnot : c.normalised = false) (i : CordicInput w) :
    j < 15 ∧ Normalising (c.clock i) v angle (j + 1) := by
  have hparts : (c.normaliseShift ≠ 15 ∧ c.iqNormal.cos.getLsbD (w - 2) = false) ∧
      c.iqNormal.sin.getLsbD (w - 2) = false := by
    unfold Cordic.normalised at hnot
    rw [Bool.or_eq_false_iff, Bool.or_eq_false_iff, beq_eq_false_iff_ne] at hnot
    exact hnot
  obtain ⟨⟨hne, hcos⟩, hsin⟩ := hparts
  have hpos : (0 : ℤ) < 2 ^ j := Int.pow_pos (by decide)
  have hlt : j < 15 := by
    have hbound := c.normaliseShift.isLt
    have hne' : c.normaliseShift.toNat ≠ 15 := fun heq => hne (BitVec.eq_of_toNat_eq heq)
    rw [h.shift] at hbound hne'
    omega
  have hclock : c.clock i = { c.output with
      iqNormal := ⟨c.iqNormal.cos <<< 1, c.iqNormal.sin <<< 1⟩
      normaliseShift := c.normaliseShift + 1 } := by
    unfold Cordic.clock
    simp only [h.state, hnot, Bool.false_eq_true, if_false]
  rw [hclock]
  refine ⟨hlt, h.state, h.count, h.angle, ?_, ?_, ?_⟩
  · show (c.normaliseShift + 1).toNat = j + 1
    rw [BitVec.toNat_add, h.shift]
    show (j + 1) % 16 = j + 1
    exact Nat.mod_eq_of_lt (by omega)
  · have hdouble := shiftLeft_one hw h.iq.1 (mul_nonneg hpos.le hx) hcos
    show (c.iqNormal.cos <<< 1).toInt = 2 ^ (j + 1) * v.x
    rw [hdouble, pow_succ', mul_assoc]
    rfl
  · have hdouble := shiftLeft_one hw h.iq.2 (mul_nonneg hpos.le hy) hsin
    show (c.iqNormal.sin <<< 1).toInt = 2 ^ (j + 1) * v.y
    rw [hdouble, pow_succ', mul_assoc]
    rfl

theorem Normalising.done (hx : 0 ≤ v.x) (hy : 0 ≤ v.y) (h : Normalising c v angle j)
    (hdone : c.normalised = true) (i : CordicInput w) :
    Turning (c.clock i) (scaled j v) 0 ∧ (c.clock i).angle = angle := by
  have hpos : (0 : ℤ) < 2 ^ j := Int.pow_pos (by decide)
  have hclock : c.clock i = { c.output with
      iq := ⟨c.iqNormal.cos.zeroExtend (w + 2), c.iqNormal.sin.zeroExtend (w + 2)⟩
      state := .shift } := by
    unfold Cordic.clock
    simp only [h.state, hdone, if_true]
  rw [hclock]
  refine ⟨⟨rfl, congrArg BitVec.toNat h.count, ?_, ?_⟩, h.angle⟩
  · exact zeroExtend_toInt h.iq.1 (mul_nonneg hpos.le hx)
  · exact zeroExtend_toInt h.iq.2 (mul_nonneg hpos.le hy)

/-- The components are shifted, -/
theorem Turning.shifted (h : Turning c v k) (i : CordicInput w) :
    c.clock i = { c.output with
      state := .add
      shifted := ⟨c.iq.cos.sshiftRight k, c.iq.sin.sshiftRight k⟩ } ∧
    (c.clock i).shifted.Is ⟨v.x / 2 ^ k, v.y / 2 ^ k⟩ := by
  have hclock : c.clock i = { c.output with
      state := .add
      shifted := ⟨c.iq.cos.sshiftRight k, c.iq.sin.sshiftRight k⟩ } := by
    unfold Cordic.clock
    simp only [h.state, h.count]
  refine ⟨hclock, ?_⟩
  rw [hclock]
  constructor
  · show (c.iq.cos.sshiftRight k).toInt = _
    rw [BitVec.toInt_sshiftRight, h.iq.1, Int.shiftRight_eq_div_pow]
    rfl
  · show (c.iq.sin.sshiftRight k).toInt = _
    rw [BitVec.toInt_sshiftRight, h.iq.2, Int.shiftRight_eq_div_pow]
    rfl

/-- The addition of one step. -/
def Cordic.added (c : Cordic w) : CosSin (w + 2) :=
  if 0 ≤ c.iq.sin.toInt then ⟨c.iq.cos + c.shifted.sin, c.iq.sin - c.shifted.cos⟩
  else ⟨c.iq.cos - c.shifted.sin, c.iq.sin + c.shifted.cos⟩

theorem added_is (hiq : c.iq.Is v) (hshifted : c.shifted.Is ⟨v.x / 2 ^ k, v.y / 2 ^ k⟩)
    (hx : Signed.Fits (w + 2) (step k v).x) (hy : Signed.Fits (w + 2) (step k v).y) :
    c.added.Is (step k v) := by
  obtain ⟨hcos, hsin⟩ := hiq
  obtain ⟨hscos, hssin⟩ := hshifted
  unfold Cordic.added
  rw [hsin]
  unfold step at hx hy ⊢
  by_cases hup : 0 ≤ v.y
  · rw [if_pos hup] at hx hy ⊢
    rw [if_pos hup]
    constructor
    · show (c.iq.cos + c.shifted.sin).toInt = v.x + v.y / 2 ^ k
      rw [Signed.add_toInt (Nat.succ_pos _) _ _ (by rw [hcos, hssin]; exact hx), hcos, hssin]
    · show (c.iq.sin - c.shifted.cos).toInt = v.y - v.x / 2 ^ k
      rw [Signed.sub_toInt (Nat.succ_pos _) _ _ (by rw [hsin, hscos]; exact hy), hsin, hscos]
  · rw [if_neg hup] at hx hy ⊢
    rw [if_neg hup]
    constructor
    · show (c.iq.cos - c.shifted.sin).toInt = v.x - v.y / 2 ^ k
      rw [Signed.sub_toInt (Nat.succ_pos _) _ _ (by rw [hcos, hssin]; exact hx), hcos, hssin]
    · show (c.iq.sin + c.shifted.cos).toInt = v.y + v.x / 2 ^ k
      rw [Signed.add_toInt (Nat.succ_pos _) _ _ (by rw [hsin, hscos]; exact hy), hsin, hscos]

/-- and then they are added. -/
theorem Turning.added (h : Turning c v k) (hx : Signed.Fits (w + 2) (step k v).x)
    (hy : Signed.Fits (w + 2) (step k v).y) (i i' : CordicInput w) :
    ((c.clock i).clock i').iq.Is (step k v) ∧
      ((c.clock i).clock i').angle =
        (if 0 ≤ v.y then c.angle + i'.angleUpdate else c.angle - i'.angleUpdate) ∧
      (k < 15 → Turning ((c.clock i).clock i') (step k v) (k + 1)) ∧
      (k = 15 → ((c.clock i).clock i').state = .idle ∧ ((c.clock i).clock i').done = true) := by
  obtain ⟨hclock, hshifted⟩ := h.shifted i
  obtain ⟨d, hd⟩ : ∃ d, d = c.clock i := ⟨_, rfl⟩
  rw [← hd] at hclock hshifted ⊢
  have hstate : d.state = .add := by rw [hclock]
  have hcount : d.stepCount.toNat = k := by
    rw [hclock]
    exact h.count
  have hiq : d.iq.Is v := by
    rw [hclock]
    exact h.iq
  have hangle : d.angle = c.angle := by rw [hclock]; rfl
  have hsum := added_is hiq hshifted hx hy
  have hnext : (d.clock i').iq = d.added := by
    unfold Cordic.clock
    simp only [hstate]
    rfl
  have hbit : d.stepCount = 15 ↔ k = 15 := by
    rw [← hcount]
    exact ⟨fun heq => congrArg BitVec.toNat heq, fun heq => BitVec.eq_of_toNat_eq heq⟩
  refine ⟨by rw [hnext]; exact hsum, ?_, ?_, ?_⟩
  · unfold Cordic.clock
    simp only [hstate, hiq.2, hangle]
  · intro hlt
    have hmore : ¬d.stepCount = 15 := fun heq => by
      have := hbit.mp heq
      omega
    refine ⟨?_, ?_, by rw [hnext]; exact hsum⟩
    · unfold Cordic.clock
      simp only [hstate, if_neg hmore]
    · unfold Cordic.clock
      simp only [hstate, if_neg hmore]
      rw [BitVec.toNat_add, hcount]
      show (k + 1) % 16 = k + 1
      exact Nat.mod_eq_of_lt (by omega)
  · intro hlast
    have hend : d.stepCount = 15 := hbit.mpr hlast
    unfold Cordic.clock
    simp only [hstate, if_pos hend, and_self]

end clock

/-! ### A computation -/

/-- The vector in the first quadrant. -/
def folded (iq : CosSin w) : Vec := ⟨(foldQuadrant iq).1.cos.toInt, (foldQuadrant iq).1.sin.toInt⟩

/-- A computation that begins at clock 0, and shifts its vector `n` times. -/
structure Computes (i : ℕ → CordicInput w) (r : ℕ → Cordic w) (n : ℕ) : Prop where
  /-- The vector is folded into the first quadrant, -/
  inQuadrant : 0 ≤ (folded (i 0).iq).x ∧ 0 ≤ (folded (i 0).iq).y
  /-- shifted up without loss, -/
  few : n ≤ 15
  doubled : ∀ j ≤ n, (r (1 + j)).iqNormal.Is (scaled j (folded (i 0).iq))
  normalised : (r (1 + n)).normalised = true
  /-- and turned in 16 steps, in which nothing is lost either; -/
  steps : ∀ k ≤ 16, (r (2 + n + 2 * k)).iq.Is (iterate (scaled n (folded (i 0).iq)) k)
  shifts : ∀ k < 16, (r (2 + n + 2 * k + 1)).shifted.Is
    ⟨(iterate (scaled n (folded (i 0).iq)) k).x / 2 ^ k,
      (iterate (scaled n (folded (i 0).iq)) k).y / 2 ^ k⟩
  positive : ∀ k ≤ 16, 0 ≤ (iterate (scaled n (folded (i 0).iq)) k).x
  /-- the angles of the steps are added to that of the quadrant. -/
  quadrant : (r (2 + n)).angle = (foldQuadrant (i 0).iq).2
  angles : ∀ k < 16, (r (2 + n + 2 * (k + 1))).angle =
    if 0 ≤ (iterate (scaled n (folded (i 0).iq)) k).y then
      (r (2 + n + 2 * k)).angle + (i (2 + n + 2 * k + 1)).angleUpdate
    else (r (2 + n + 2 * k)).angle - (i (2 + n + 2 * k + 1)).angleUpdate
  /-- At the end the vector lies along the x axis. -/
  done : (r (2 + n + 2 * 16)).state = .idle ∧ (r (2 + n + 2 * 16)).done = true
  residual : 2 ^ 15 * |(iterate (scaled n (folded (i 0).iq)) 16).y| ≤
    (iterate (scaled n (folded (i 0).iq)) 16).x + 2 ^ 15 * 32

section computation
variable {c : Cordic w} {i : ℕ → CordicInput w}

theorem normalising_start (hidle : c.state = .idle) (hstart : (i 0).start = true) :
    Normalising (c.clock (i 0)) (folded (i 0).iq) (foldQuadrant (i 0).iq).2 0 := by
  have hclock : c.clock (i 0) = { c.output with
      done := false
      stepCount := 0
      normaliseShift := 0
      state := .normalise
      iqNormal := (foldQuadrant (i 0).iq).1
      angle := (foldQuadrant (i 0).iq).2 } := by
    unfold Cordic.clock
    simp only [hidle, hstart, if_true]
  rw [hclock]
  refine ⟨rfl, rfl, rfl, rfl, ?_, ?_⟩
  · exact (one_mul _).symm
  · exact (one_mul _).symm

/-- The normalisation ends after 15 shifts at most. -/
theorem normalising_ends (hw : 2 ≤ w) (hidle : c.state = .idle) (hstart : (i 0).start = true) :
    ∃ n ≤ 15, (Clocked.run Cordic.clock c i (1 + n)).normalised = true ∧ ∀ j ≤ n,
      Normalising (Clocked.run Cordic.clock c i (1 + j)) (folded (i 0).iq)
        (foldQuadrant (i 0).iq).2 j := by
  obtain ⟨hx, hy⟩ := foldQuadrant_nonneg (show 0 < w by omega) (i 0).iq
  have hall : ∀ m, (∀ j < m, (Clocked.run Cordic.clock c i (1 + j)).normalised = false) →
      m ≤ 15 ∧ ∀ j ≤ m, Normalising (Clocked.run Cordic.clock c i (1 + j)) (folded (i 0).iq)
        (foldQuadrant (i 0).iq).2 j := by
    intro m
    induction m with
    | zero =>
        intro _
        refine ⟨Nat.zero_le _, ?_⟩
        intro j hj
        rw [Nat.le_zero.mp hj]
        exact normalising_start hidle hstart
    | succ m ih =>
        intro hnot
        obtain ⟨hle, hbefore⟩ := ih fun j hj => hnot j (by omega)
        obtain ⟨hlt, hnext⟩ := (hbefore m le_rfl).next hw hx hy (hnot m (Nat.lt_succ_self m))
          (i (1 + m))
        refine ⟨hlt, ?_⟩
        intro j hj
        rcases Nat.of_le_succ hj with hj | rfl
        · exact hbefore j hj
        · exact hnext
  have hexists : ∃ n, (Clocked.run Cordic.clock c i (1 + n)).normalised = true := by
    by_contra hnever
    have hfalse := fun j => Bool.eq_false_iff.mpr (not_exists.mp hnever j)
    exact absurd (hall 16 fun j _ => hfalse j).1 (by decide)
  have hfirst := hall (Nat.find hexists) fun j hj =>
    Bool.eq_false_iff.mpr (Nat.find_min hexists hj)
  exact ⟨Nat.find hexists, hfirst.1, Nat.find_spec hexists, hfirst.2⟩

/-- In words of four bits and more the computation is exact but for the rounding of its shifts, and
ends on the x axis. -/
theorem cordic_computes (hw : 4 ≤ w) (hidle : c.state = .idle) (hstart : (i 0).start = true) :
    ∃ n, Computes i (Clocked.run Cordic.clock c i) n := by
  obtain ⟨n, hfew, hdone, hnormal⟩ := normalising_ends (show 2 ≤ w by omega) hidle hstart
  obtain ⟨hx, hy⟩ := foldQuadrant_nonneg (show 0 < w by omega) (i 0).iq
  obtain ⟨r, hr⟩ : ∃ r, r = Clocked.run Cordic.clock c i := ⟨_, rfl⟩
  have hclock : ∀ t, r (t + 1) = (r t).clock (i t) := by
    intro t
    rw [hr]
    rfl
  rw [← hr] at hdone hnormal ⊢
  obtain ⟨v, hv⟩ : ∃ v, v = scaled n (folded (i 0).iq) := ⟨_, rfl⟩
  have hpos : (0 : ℤ) < 2 ^ n := Int.pow_pos (by decide)
  have hvx : 0 ≤ v.x := hv ▸ mul_nonneg hpos.le hx
  have hvy : 0 ≤ v.y := hv ▸ mul_nonneg hpos.le hy
  obtain ⟨hturning, hquadrant⟩ := (hnormal n le_rfl).done hx hy hdone (i (1 + n))
  rw [← hclock, ← hv, show 1 + n + 1 = 2 + n by omega] at hturning
  rw [← hclock, show 1 + n + 1 = 2 + n by omega] at hquadrant
  have hfits : ∀ k ≤ 16,
      Signed.Fits (w + 2) (iterate v k).x ∧ Signed.Fits (w + 2) (iterate v k).y := by
    intro k hk
    have hiq := (hnormal n le_rfl).iq
    rw [← hv] at hiq
    exact iterate_fits hw hvx hvy (hiq.1 ▸ BitVec.toInt_lt) (hiq.2 ▸ BitVec.toInt_lt) hk
  have hturn : ∀ k ≤ 15, Turning (r (2 + n + 2 * k)) (iterate v k) k := by
    intro k hk
    induction k with
    | zero => exact hturning
    | succ k ih =>
        obtain ⟨hfx, hfy⟩ := hfits (k + 1) (by omega)
        have hadded := (ih (by omega)).added hfx hfy (i (2 + n + 2 * k)) (i (2 + n + 2 * k + 1))
        rw [← hclock, ← hclock] at hadded
        exact hadded.2.2.1 (by omega)
  have hstep : ∀ k ≤ 15, (r (2 + n + 2 * (k + 1))).iq.Is (iterate v (k + 1)) ∧
      (r (2 + n + 2 * (k + 1))).angle =
        (if 0 ≤ (iterate v k).y then (r (2 + n + 2 * k)).angle +
          (i (2 + n + 2 * k + 1)).angleUpdate
        else (r (2 + n + 2 * k)).angle - (i (2 + n + 2 * k + 1)).angleUpdate) ∧
      (k = 15 → (r (2 + n + 2 * (k + 1))).state = .idle ∧
        (r (2 + n + 2 * (k + 1))).done = true) := by
    intro k hk
    obtain ⟨hfx, hfy⟩ := hfits (k + 1) (by omega)
    have hadded := (hturn k hk).added hfx hfy (i (2 + n + 2 * k)) (i (2 + n + 2 * k + 1))
    rw [← hclock, ← hclock] at hadded
    exact ⟨hadded.1, hadded.2.1, hadded.2.2.2⟩
  have hsteps : ∀ k ≤ 16, (r (2 + n + 2 * k)).iq.Is (iterate v k) := by
    rintro (_ | k) hk
    · exact hturning.iq
    · exact (hstep k (by omega)).1
  have hshifts : ∀ k < 16, (r (2 + n + 2 * k + 1)).shifted.Is
      ⟨(iterate v k).x / 2 ^ k, (iterate v k).y / 2 ^ k⟩ := by
    intro k hk
    rw [hclock]
    exact ((hturn k (by omega)).shifted (i (2 + n + 2 * k))).2
  have hresidual := residual hvx hvy 15
  rw [hv] at hsteps hshifts hresidual hstep hvx
  refine ⟨n, ⟨hx, hy⟩, hfew, fun j hj => (hnormal j hj).iq, hdone, hsteps, hshifts,
    fun k _ => iterate_x_nonneg hvx k, hquadrant, fun k hk => (hstep k (by omega)).2.1,
    (hstep 15 le_rfl).2.2 rfl, hresidual.trans ?_⟩
  norm_num

end computation

/-- The least vector of four bits. -/
theorem cordic_computes_least :
    ∃ n, Computes (fun t => ⟨⟨BitVec.intMin 4, BitVec.intMin 4⟩, t == 0, 0⟩)
      (Clocked.run Cordic.clock (Cordic.initial 4)
        fun t => ⟨⟨BitVec.intMin 4, BitVec.intMin 4⟩, t == 0, 0⟩) n :=
  cordic_computes (by decide) rfl rfl

/-- In words of three bits the rounding carries the x component over the sign bit. -/
theorem cordic_overflows :
    let r := Clocked.run Cordic.clock (Cordic.initial 3)
      fun t => ⟨⟨BitVec.intMin 3, BitVec.intMin 3⟩, t == 0, 0⟩
    (r (2 + 2 * 11)).iq.cos.toInt = 15 ∧ (r (2 + 2 * 11 + 1)).shifted.sin.toInt = -1 ∧
      (r (2 + 2 * 12)).iq.cos.toInt = -16 := by
  decide +kernel

end Mbf.TunePll
