import Mbf.Fir.Delay
import Mbf.Lib.Countdown
import Mbf.Lib.Signed

/-! # The fill pattern rejection filter

`adc_fill_reject_core` subtracts from each sample the mean of its bunch.  The samples of a bunch are
added up over a round of turns; on the last turn of a round the sum, rounded and divided, is written
to a second memory, from where it is subtracted during the next round.

For a bunch, the strobe that writes the mean and the strobe that starts the next sum are those of
one event of the counter of turns (`FillReject.next_accumIn`, `FillReject.next_offset`), so the
rounds follow one another (`fill_reject_rounds`). -/

namespace Mbf.Adc

open Fir

/-! ### The circuit -/

/-- The registers of `adc_fill_reject_core`, those of its `adc_fill_reject_counter` first.  Data
have `w` bits, and `MAX_SHIFT` is `m`. -/
structure FillReject (w m : ℕ) where
  turnCounter : BitVec m
  countEvent : Bool
  resetAccum : Bool
  writeOffset : Fin 3 → Bool
  accumMemory : FirDelay 2 (w + m)
  offsetMemory : FirDelay 3 w
  accumRounding : BitVec (w + m + 1)
  accumSummand : BitVec (w + m)
  accumIn : BitVec (w + m)
  offsetIn : BitVec w
  offsetOutPl : BitVec w
  dataOut : BitVec (w + 1)

/-- The filter before the first clock. -/
def FillReject.initial (w m : ℕ) : FillReject w m where
  turnCounter := 0
  countEvent := false
  resetAccum := false
  writeOffset _ := false
  accumMemory := FirDelay.initial 2 (w + m)
  offsetMemory := FirDelay.initial 3 w
  accumRounding := 0
  accumSummand := 0
  accumIn := 0
  offsetIn := 0
  offsetOutPl := 0
  dataOut := 0

variable {w m : ℕ}

/-- `data_o`. -/
def FillReject.dataO (f : FillReject w m) : BitVec w := f.dataOut.extractLsb' 1 w

/-- What the counter of turns is loaded with. -/
def turnLimit (m : ℕ) (shift : BitVec 4) : BitVec m := ~~~(BitVec.allOnes m <<< shift.toNat)

/-- One clock of `adc_fill_reject_core`. -/
def FillReject.clock (shift : BitVec 4) (turnClock : Bool) (dataI : BitVec w)
    (f : FillReject w m) : FillReject w m where
  turnCounter :=
    if turnClock then if f.turnCounter = 0 then turnLimit m shift else f.turnCounter - 1
    else f.turnCounter
  countEvent := if turnClock then f.turnCounter == 0 else f.countEvent
  resetAccum := if turnClock then f.countEvent else f.resetAccum
  writeOffset := dlyline f.writeOffset f.countEvent
  accumMemory := f.accumMemory.clock turnClock true f.accumIn
  offsetMemory := f.offsetMemory.clock turnClock (f.writeOffset 2) f.offsetIn
  accumRounding := (1 : BitVec (w + m + 1)) <<< shift.toNat
  accumSummand :=
    if f.resetAccum then f.accumRounding.extractLsb' 1 (w + m) else f.accumMemory.dataO
  accumIn := dataI.signExtend (w + m) + f.accumSummand
  offsetIn := Signed.resize (f.accumIn.sshiftRight shift.toNat) w
  offsetOutPl := f.offsetMemory.dataO
  dataOut := dataI.signExtend (w + 1) - f.offsetOutPl.signExtend (w + 1) + 1

/-- A run of the filter. -/
def FillReject.run (shift : ℕ → BitVec 4) (turnClock : ℕ → Bool) (dataI : ℕ → BitVec w)
    (f : FillReject w m) : ℕ → FillReject w m
  | 0 => f
  | t + 1 => (FillReject.run shift turnClock dataI f t).clock (shift t) (turnClock t) (dataI t)

/-- The registers change clock by clock. -/
def FillReject.IsRun (shift : BitVec 4) (turnClock : ℕ → Bool) (dataI : ℕ → BitVec w)
    (d : ℕ → FillReject w m) : Prop :=
  ∀ t, d (t + 1) = (d t).clock shift (turnClock t) (dataI t)

section run
variable {shift : BitVec 4} {d : ℕ → FillReject w m} {turnClock : ℕ → Bool}
  {dataI : ℕ → BitVec w} {turn start j n : ℕ}

/-! ### The strobes -/

theorem turnLimit_succ (hshift : shift.toNat ≤ m) :
    (turnLimit m shift).toNat + 1 = 2 ^ shift.toNat := by
  have hpos : 0 < 2 ^ shift.toNat := Nat.two_pow_pos _
  have hle : 2 ^ shift.toNat ≤ 2 ^ m := Nat.pow_le_pow_right (by decide) hshift
  have hproduct : (2 ^ m - 1) * 2 ^ shift.toNat =
      2 ^ m - 2 ^ shift.toNat + 2 ^ m * (2 ^ shift.toNat - 1) := by
    obtain ⟨a, ha⟩ := Nat.exists_eq_add_of_le hle
    obtain ⟨b, hb⟩ := Nat.exists_eq_add_of_lt hpos
    rw [ha, hb]
    simp only [Nat.zero_add, Nat.add_sub_cancel_left, Nat.add_sub_cancel]
    rw [show b + 1 + a - 1 = b + a by omega]
    ring
  unfold turnLimit
  rw [BitVec.toNat_not, BitVec.toNat_shiftLeft, BitVec.toNat_allOnes, Nat.shiftLeft_eq, hproduct,
    Nat.add_mul_mod_self_left, Nat.mod_eq_of_lt (by omega)]
  omega

/-- The counter at the turn clocks. -/
def countAt (d : ℕ → FillReject w m) (turn start n : ℕ) : BitVec m :=
  (d (start + n * turn)).turnCounter

theorem countAt_counts (hd : FillReject.IsRun shift turnClock dataI d)
    (hclock : TurnClock turn start turnClock) (hpos : 0 < turn) :
    Countdown.Counts (turnLimit m shift) (countAt d turn start) := by
  intro n
  have hheld := hclock.held (fun t => (d t).turnCounter)
    (fun t => if (d t).turnCounter = 0 then turnLimit m shift else (d t).turnCounter - 1)
    (fun t => congrArg FillReject.turnCounter (hd t)) n (show turn - 1 < turn by omega)
  rw [show start + n * turn + (turn - 1) + 1 = start + (n + 1) * turn by
    rw [Nat.succ_mul]
    omega] at hheld
  exact hheld

theorem countEvent_eq (hd : FillReject.IsRun shift turnClock dataI d)
    (hclock : TurnClock turn start turnClock) (hj : j < turn) (n : ℕ) :
    (d (start + n * turn + j + 1)).countEvent = (countAt d turn start n == 0) :=
  hclock.held (fun t => (d t).countEvent) (fun t => (d t).turnCounter == 0)
    (fun t => congrArg FillReject.countEvent (hd t)) n hj

/-- The sum is started anew a turn after the mean is written. -/
theorem resetAccum_eq (hd : FillReject.IsRun shift turnClock dataI d)
    (hclock : TurnClock turn start turnClock) (hj : j < turn) (n : ℕ) :
    (d (start + (n + 1) * turn + j + 1)).resetAccum = (countAt d turn start n == 0) := by
  have hheld := hclock.held (fun t => (d t).resetAccum) (fun t => (d t).countEvent)
    (fun t => congrArg FillReject.resetAccum (hd t)) (n + 1) hj
  have hevent := countEvent_eq hd hclock (show turn - 1 < turn by omega) n
  rw [show start + n * turn + (turn - 1) + 1 = start + (n + 1) * turn by
    rw [Nat.succ_mul]
    omega] at hevent
  exact hheld.trans hevent

/-- The strobe of the mean is late. -/
theorem writeOffset_eq (hd : FillReject.IsRun shift turnClock dataI d) (t : ℕ) :
    (d (t + 3)).writeOffset 2 = (d t).countEvent :=
  dlyline_out (fun t => (d t).writeOffset) (fun t => (d t).countEvent)
    (fun t => congrArg FillReject.writeOffset (hd t)) 2 t

/-! ### From turn to turn -/

/-- The clock on which the sample of bunch `j` of turn `n` comes in. -/
def sampleClock (turn start j n : ℕ) : ℕ := start + n * turn + j + 2

/-- The half that the sum of a round starts with. -/
def half (w m : ℕ) (shift : BitVec 4) : BitVec (w + m) :=
  ((1 : BitVec (w + m + 1)) <<< shift.toNat).extractLsb' 1 (w + m)

theorem next_accumIn (hd : FillReject.IsRun shift turnClock dataI d)
    (hclock : TurnClock turn start turnClock) (hturn : 6 ≤ turn) (hfits : turn ≤ 2 ^ 11)
    (hj : j < turn) (hn : 2 ≤ n) :
    (d (sampleClock turn start j (n + 1) + 1)).accumIn =
      (dataI (sampleClock turn start j (n + 1))).signExtend (w + m) +
        if countAt d turn start n = 0 then half w m shift
        else (d (sampleClock turn start j n + 1)).accumIn := by
  have hlate : 2 * 6 ≤ n * turn := Nat.mul_le_mul hn hturn
  obtain ⟨t, ht⟩ : ∃ t, start + n * turn + j = t + 1 := ⟨start + n * turn + j - 1, by omega⟩
  have hnext : start + (n + 1) * turn + j = t + turn + 1 := by
    rw [Nat.succ_mul]
    omega
  have hmemory : FirDelay.IsRun (fun t => (d t).accumMemory) turnClock (fun _ => true)
      (fun t => (d t).accumIn) := fun t => congrArg FillReject.accumMemory (hd t)
  have hread := FirDelay.next_turn hmemory hclock (by omega) hfits (show start + 2 + 7 ≤ t by omega)
  have hreset := resetAccum_eq hd hclock hj n
  have hrounding := congrArg FillReject.accumRounding (hd (t + turn + 1))
  have hsummand := congrArg FillReject.accumSummand (hd (t + turn + 2))
  have hsum := congrArg FillReject.accumIn (hd (t + turn + 3))
  unfold sampleClock
  rw [hnext] at hreset ⊢
  rw [ht]
  rw [if_pos rfl] at hread
  simp only [FillReject.clock] at hrounding hsummand hsum
  rw [hreset, hrounding, hread] at hsummand
  rw [hsum, hsummand]
  simp only [beq_iff_eq]
  rfl

theorem next_offset (hd : FillReject.IsRun shift turnClock dataI d)
    (hclock : TurnClock turn start turnClock) (hturn : 6 ≤ turn) (hfits : turn ≤ 2 ^ 11)
    (hj : j < turn) (hn : 2 ≤ n) :
    (d (sampleClock turn start j (n + 1))).offsetOutPl =
      if countAt d turn start n = 0 then
        Signed.resize ((d (sampleClock turn start j n + 1)).accumIn.sshiftRight shift.toNat) w
      else (d (sampleClock turn start j n)).offsetOutPl := by
  have hlate : 2 * 6 ≤ n * turn := Nat.mul_le_mul hn hturn
  obtain ⟨t, ht⟩ : ∃ t, start + n * turn + j = t + 1 := ⟨start + n * turn + j - 1, by omega⟩
  have hnext : start + (n + 1) * turn + j = t + turn + 1 := by
    rw [Nat.succ_mul]
    omega
  have hmemory : FirDelay.IsRun (fun t => (d t).offsetMemory) turnClock
      (fun t => (d t).writeOffset 2) (fun t => (d t).offsetIn) :=
    fun t => congrArg FillReject.offsetMemory (hd t)
  have hread := FirDelay.next_turn hmemory hclock (by omega) hfits (show start + 3 + 7 ≤ t by omega)
  have hevent := countEvent_eq hd hclock hj n
  have hstrobe := writeOffset_eq hd (t + 2)
  have hwritten := congrArg FillReject.offsetIn (hd (t + 4))
  have hheld := congrArg FillReject.offsetOutPl (hd (t + 2))
  have hgiven := congrArg FillReject.offsetOutPl (hd (t + turn + 2))
  unfold sampleClock
  rw [ht] at hevent ⊢
  rw [hnext]
  simp only [FillReject.clock] at hwritten hheld hgiven
  rw [hstrobe, hevent, hwritten] at hread
  rw [hgiven, hread, hheld]
  simp only [beq_iff_eq]

/-! ### The sums -/

theorem half_toInt (hw : 0 < w) (hshift : shift.toNat ≤ m) :
    (half w m shift).toInt = 2 ^ shift.toNat / 2 := by
  have hone : (1 : BitVec (w + m + 1)) = BitVec.ofInt (w + m + 1) 1 := by
    apply BitVec.eq_of_toNat_eq
    simp
  have hlt : (2 : ℤ) ^ shift.toNat < 2 ^ (w + m) := pow_lt_pow_right₀ (by decide) (by omega)
  have hpos : (0 : ℤ) < 2 ^ shift.toNat := Int.pow_pos (by decide)
  have hexact : (BitVec.ofInt (w + m + 1) (2 ^ shift.toNat)).toInt = 2 ^ shift.toNat := by
    apply BitVec.toInt_ofInt_eq_self (Nat.succ_pos _)
    · show -2 ^ (w + m) ≤ _
      omega
    · exact hlt
  unfold half
  rw [Signed.top_toInt _ (Nat.add_comm 1 (w + m)) (by omega), hone, Signed.ofInt_shiftLeft, one_mul,
    hexact, pow_one]

/-- The sum over part of a round, with the half, is less than a round of the extreme samples. -/
theorem sum_lt (s : ℕ) (sample : ℕ → BitVec w) {k : ℕ} (hk : k ≤ 2 ^ s) :
    -(2 ^ s * 2 ^ (w - 1)) ≤ 2 ^ s / 2 + ∑ l ∈ Finset.range k, (sample l).toInt ∧
      2 ^ s / 2 + ∑ l ∈ Finset.range k, (sample l).toInt < 2 ^ s * 2 ^ (w - 1) := by
  obtain ⟨hlow, hhigh⟩ := Signed.sum_bounds sample k
  have hcast : (k : ℤ) ≤ 2 ^ s := by exact_mod_cast hk
  have hround : (0 : ℤ) < 2 ^ s := Int.pow_pos (by decide)
  have hextreme : (0 : ℤ) < 2 ^ (w - 1) := Int.pow_pos (by decide)
  have hmin : (k : ℤ) * 2 ^ (w - 1) ≤ 2 ^ s * 2 ^ (w - 1) :=
    mul_le_mul_of_nonneg_right hcast hextreme.le
  have hmax : (k : ℤ) * (2 ^ (w - 1) - 1) ≤ 2 ^ s * (2 ^ (w - 1) - 1) :=
    mul_le_mul_of_nonneg_right hcast (by omega)
  have hsplit : (2 : ℤ) ^ s * (2 ^ (w - 1) - 1) = 2 ^ s * 2 ^ (w - 1) - 2 ^ s := mul_sub_one _ _
  constructor <;> omega

/-- So it fits in the accumulator. -/
theorem sum_fits (hw : 0 < w) (hshift : shift.toNat ≤ m) (sample : ℕ → BitVec w) {k : ℕ}
    (hk : k ≤ 2 ^ shift.toNat) :
    Signed.Fits (w + m)
      (2 ^ shift.toNat / 2 + ∑ l ∈ Finset.range k, (sample l).toInt) := by
  obtain ⟨hlow, hhigh⟩ := sum_lt shift.toNat sample hk
  have hwidth : (2 : ℤ) ^ shift.toNat * 2 ^ (w - 1) ≤ 2 ^ (w + m - 1) := by
    rw [← pow_add]
    exact pow_le_pow_right₀ (by decide) (by omega)
  unfold Signed.Fits
  constructor <;> omega

/-- The mean fits in a sample. -/
theorem mean_fits (s : ℕ) (sample : ℕ → BitVec w) :
    Signed.Fits w
      ((2 ^ s / 2 + ∑ l ∈ Finset.range (2 ^ s), (sample l).toInt) / 2 ^ s) := by
  obtain ⟨hlow, hhigh⟩ := sum_lt s sample le_rfl
  have hround : (0 : ℤ) < 2 ^ s := Int.pow_pos (by decide)
  rw [Int.mul_comm] at hhigh
  rw [Int.mul_comm, ← Int.neg_mul] at hlow
  exact ⟨Int.le_ediv_of_mul_le hround hlow, Int.ediv_lt_of_lt_mul hround hhigh⟩

/-- One more sample is added without overflow. -/
theorem add_sample (hw : 0 < w) {x : BitVec w} {y : BitVec (w + m)} {total : ℤ}
    (htotal : y.toInt + x.toInt = total) (hfits : Signed.Fits (w + m) total) :
    (x.signExtend (w + m) + y).toInt = total := by
  have hx : (x.signExtend (w + m)).toInt = x.toInt :=
    BitVec.toInt_signExtend_of_le (Nat.le_add_right w m)
  rw [Signed.add_toInt (by omega), hx, Int.add_comm, htotal]
  rw [hx, Int.add_comm, htotal]
  exact hfits

/-! ### Rounds -/

/-- The sum of a bunch, `k` turns after the first turn of a round. -/
theorem accumIn_toInt (hw : 0 < w) (hshift : shift.toNat ≤ m)
    (hd : FillReject.IsRun shift turnClock dataI d)
    (hclock : TurnClock turn start turnClock) (hturn : 6 ≤ turn) (hfits : turn ≤ 2 ^ 11)
    (hj : j < turn) (hn : 2 ≤ n) (hzero : countAt d turn start n = 0) {k : ℕ}
    (hk : k < 2 ^ shift.toNat) :
    (d (sampleClock turn start j (n + 1 + k) + 1)).accumIn.toInt =
      2 ^ shift.toNat / 2 +
        ∑ l ∈ Finset.range (k + 1), (dataI (sampleClock turn start j (n + 1 + l))).toInt := by
  have hcounts := countAt_counts hd hclock (show 0 < turn by omega)
  have hfit := sum_fits hw hshift (fun l => dataI (sampleClock turn start j (n + 1 + l))) hk
  rw [Nat.succ_eq_add_one, Finset.sum_range_succ, ← Int.add_assoc] at hfit
  rw [Finset.sum_range_succ, ← Int.add_assoc]
  induction k with
  | zero =>
      have hnext := next_accumIn hd hclock hturn hfits hj hn
      rw [if_pos hzero] at hnext
      rw [Nat.add_zero, hnext]
      refine add_sample hw ?_ hfit
      rw [half_toInt hw hshift, Finset.sum_range_zero, Int.add_zero]
  | succ k ih =>
      have hnext := next_accumIn hd hclock hturn hfits hj (show 2 ≤ n + 1 + k by omega)
      have hbefore := sum_fits hw hshift
        (fun l => dataI (sampleClock turn start j (n + 1 + l))) (Nat.lt_of_succ_lt hk)
      rw [Nat.succ_eq_add_one, Finset.sum_range_succ, ← Int.add_assoc] at hbefore
      have hsum := ih (Nat.lt_of_succ_lt hk) hbefore
      rw [Int.add_assoc, ← Finset.sum_range_succ] at hsum
      have hinside : ¬countAt d turn start (n + 1 + k) = 0 := by
        rw [Nat.add_assoc, hcounts.zero_iff hzero, turnLimit_succ hshift,
          Nat.mod_eq_of_lt (by omega)]
        omega
      rw [if_neg hinside] at hnext
      rw [← Nat.add_assoc, hnext]
      refine add_sample hw ?_ hfit
      rw [hsum]

/-- The offset of a bunch all through the round that follows. -/
theorem offset_toInt (hw : 0 < w) (hshift : shift.toNat ≤ m)
    (hd : FillReject.IsRun shift turnClock dataI d)
    (hclock : TurnClock turn start turnClock) (hturn : 6 ≤ turn) (hfits : turn ≤ 2 ^ 11)
    (hj : j < turn) (hn : 2 ≤ n) (hzero : countAt d turn start n = 0) {k : ℕ}
    (hk : k < 2 ^ shift.toNat) :
    (d (sampleClock turn start j (n + 1 + 2 ^ shift.toNat + k))).offsetOutPl.toInt =
      (2 ^ shift.toNat / 2 + ∑ l ∈ Finset.range (2 ^ shift.toNat),
        (dataI (sampleClock turn start j (n + 1 + l))).toInt) / 2 ^ shift.toNat := by
  have hcounts := countAt_counts hd hclock (show 0 < turn by omega)
  have hpos : 0 < 2 ^ shift.toNat := Nat.two_pow_pos _
  have hlater : ∀ i, countAt d turn start (n + 2 ^ shift.toNat + i) = 0 ↔
      i % 2 ^ shift.toNat = 0 := by
    intro i
    rw [Nat.add_assoc, hcounts.zero_iff hzero, turnLimit_succ hshift, Nat.add_mod_left]
  induction k with
  | zero =>
      have hround := accumIn_toInt hw hshift hd hclock hturn hfits hj hn hzero
        (Nat.sub_lt hpos Nat.one_pos)
      have hlast : n + 1 + (2 ^ shift.toNat - 1) = n + 2 ^ shift.toNat := by omega
      have hnext := next_offset hd hclock hturn hfits hj (show 2 ≤ n + 2 ^ shift.toNat by omega)
      rw [hlast, Nat.sub_add_cancel hpos] at hround
      have hend := (hlater 0).mpr (Nat.zero_mod _)
      rw [Nat.add_zero] at hend
      rw [if_pos hend] at hnext
      have hmean := mean_fits shift.toNat fun l => dataI (sampleClock turn start j (n + 1 + l))
      rw [Nat.add_zero, Nat.add_right_comm, hnext, Signed.resize_toInt hw]
      · rw [BitVec.toInt_sshiftRight, hround, Int.shiftRight_eq_div_pow]
        rfl
      · rw [BitVec.toInt_sshiftRight, hround, Int.shiftRight_eq_div_pow]
        exact hmean
  | succ k ih =>
      have hsame := ih (by omega)
      have hnext := next_offset hd hclock hturn hfits hj
        (show 2 ≤ n + 2 ^ shift.toNat + (k + 1) by omega)
      have hinside : ¬countAt d turn start (n + 2 ^ shift.toNat + (k + 1)) = 0 := by
        rw [hlater, Nat.mod_eq_of_lt hk]
        exact Nat.succ_ne_zero k
      rw [if_neg hinside] at hnext
      rw [show n + 1 + 2 ^ shift.toNat + (k + 1) = n + 2 ^ shift.toNat + (k + 1) + 1 by omega, hnext,
        show n + 2 ^ shift.toNat + (k + 1) = n + 1 + 2 ^ shift.toNat + k by omega]
      exact hsame

end run

/-! ### All rounds -/

/-- The turns are counted whatever the data. -/
theorem turnCounter_run (shift : ℕ → BitVec 4) (turnClock : ℕ → Bool) (dataI other : ℕ → BitVec w)
    (f : FillReject w m) (t : ℕ) :
    (FillReject.run shift turnClock dataI f t).turnCounter =
      (FillReject.run shift turnClock other f t).turnCounter := by
  induction t with
  | zero => rfl
  | succ t ih =>
      unfold FillReject.run FillReject.clock
      dsimp only
      rw [ih]

/-- Rounds of `2 ^ shift` turns follow one another.  In each round the samples of a bunch are added
up, and all through the next round the rounded mean of these is subtracted from the samples of the
bunch. -/
theorem fill_reject_rounds (hw : 0 < w) {shift : BitVec 4} (hshift : shift.toNat ≤ m)
    (f : FillReject w m) {turnClock : ℕ → Bool} {turn start : ℕ}
    (hclock : TurnClock turn start turnClock) (hturn : 6 ≤ turn) (hfits : turn ≤ 2 ^ 11) :
    ∃ first, ∀ (dataI : ℕ → BitVec w) (j round k : ℕ), j < turn → k < 2 ^ shift.toNat →
      let d := FillReject.run (fun _ => shift) turnClock dataI f
      let clock := fun round k => sampleClock turn start j (first + round * 2 ^ shift.toNat + k)
      (d (clock round k + 1)).accumIn.toInt =
          2 ^ shift.toNat / 2 + ∑ l ∈ Finset.range (k + 1), (dataI (clock round l)).toInt ∧
        (d (clock (round + 1) k)).offsetOutPl.toInt =
          (2 ^ shift.toNat / 2 +
            ∑ l ∈ Finset.range (2 ^ shift.toNat), (dataI (clock round l)).toInt) /
              2 ^ shift.toNat ∧
        (d (clock (round + 1) k + 1)).dataOut =
          (dataI (clock (round + 1) k)).signExtend (w + 1) -
            (d (clock (round + 1) k)).offsetOutPl.signExtend (w + 1) + 1 := by
  have hpos : 0 < turn := by omega
  have hrun : ∀ dataI, FillReject.IsRun shift turnClock dataI
      (FillReject.run (fun _ => shift) turnClock dataI f) := fun dataI t => rfl
  obtain ⟨n, hn, hzero⟩ := (countAt_counts (hrun fun _ => 0) hclock hpos).exists_zero 2
  refine ⟨n + 1, ?_⟩
  intro dataI j round k hj hk d clock
  have hcounts := countAt_counts (hrun dataI) hclock hpos
  have hbegin : countAt d turn start n = 0 :=
    (turnCounter_run _ turnClock dataI (fun _ => 0) f _).trans hzero
  have hround : countAt d turn start (n + round * 2 ^ shift.toNat) = 0 := by
    rw [hcounts.zero_iff hbegin, turnLimit_succ hshift, Nat.mul_mod_left]
  have hlate : 2 ≤ n + round * 2 ^ shift.toNat := by omega
  have hsum := accumIn_toInt hw hshift (hrun dataI) hclock hturn hfits hj hlate hround hk
  have hoffset := offset_toInt hw hshift (hrun dataI) hclock hturn hfits hj hlate hround hk
  rw [Nat.add_right_comm n] at hsum hoffset
  refine ⟨hsum, ?_, rfl⟩
  show (d (sampleClock turn start j (n + 1 + (round + 1) * 2 ^ shift.toNat + k))).offsetOutPl.toInt =
    _
  rw [Nat.succ_mul, ← Nat.add_assoc (n + 1)]
  exact hoffset

/-- Rounds of eight turns of 936 bunches. -/
theorem fill_reject_rounds_eight :
    ∃ first, ∀ (dataI : ℕ → BitVec 16) (j round k : ℕ), j < 936 → k < 2 ^ 3 →
      let d := FillReject.run (fun _ => 3) (fun t => decide ((t - 0) % 936 = 0)) dataI
        (FillReject.initial 16 12)
      let clock := fun round k => sampleClock 936 0 j (first + round * 2 ^ 3 + k)
      (d (clock (round + 1) k)).offsetOutPl.toInt =
        (4 + ∑ l ∈ Finset.range 8, (dataI (clock round l)).toInt) / 8 := by
  obtain ⟨first, hrounds⟩ := @fill_reject_rounds 16 12 (by decide) 3 (by decide)
    (FillReject.initial 16 12) _ 936 0 (turnClock_mod 936 0) (by decide) (by decide)
  exact ⟨first, fun dataI j round k hj hk => (hrounds dataI j round k hj hk).2.1⟩

/-! ### The output -/

/-- The difference has the one bit of growth, but not the one that is added to it. -/
theorem growth_iff (hw : 0 < w) (x offset : BitVec w) :
    x.toInt - offset.toInt + 1 = 2 ^ w ↔ x = BitVec.intMax w ∧ offset = BitVec.intMin w := by
  obtain ⟨v, rfl⟩ : ∃ v, w = v + 1 := ⟨w - 1, by omega⟩
  have hpow : (2 : ℤ) ^ (v + 1) = 2 * 2 ^ v := pow_succ' 2 v
  have hx : x.toInt < 2 ^ v := BitVec.toInt_lt
  have hoffset : -2 ^ v ≤ offset.toInt := BitVec.le_toInt offset
  have hmax : (BitVec.intMax (v + 1)).toInt = 2 ^ v - 1 := BitVec.toInt_intMax
  have hmin : (BitVec.intMin (v + 1)).toInt = -2 ^ v := BitVec.toInt_intMin_of_pos hw
  rw [← BitVec.toInt_inj, ← BitVec.toInt_inj, hmax, hmin]
  omega

theorem dataO_clock (hw : 0 < w) (f : FillReject w m) (shift : BitVec 4) (turnClock : Bool)
    (dataI : BitVec w) :
    (f.clock shift turnClock dataI).dataO.toInt =
      (BitVec.ofInt (w + 1) (dataI.toInt - f.offsetOutPl.toInt + 1)).toInt / 2 := by
  have hone : (1 : BitVec (w + 1)) = BitVec.ofInt (w + 1) 1 := by
    apply BitVec.eq_of_toNat_eq
    simp
  have hout : (f.clock shift turnClock dataI).dataOut =
      BitVec.ofInt (w + 1) (dataI.toInt - f.offsetOutPl.toInt + 1) := by
    rw [BitVec.ofInt_add, Signed.ofInt_sub, ← hone]
    rfl
  unfold FillReject.dataO
  rw [Signed.top_toInt _ (Nat.add_comm 1 w) hw, hout, pow_one]

/-- The output is the rounded half of the difference, unless the greatest sample meets the least
offset. -/
theorem fill_reject_output_iff (hw : 0 < w) (f : FillReject w m) (shift : ℕ → BitVec 4)
    (turnClock : ℕ → Bool) (dataI : ℕ → BitVec w) (t : ℕ) :
    let d := FillReject.run shift turnClock dataI f
    (d (t + 1)).dataO.toInt = ((dataI t).toInt - (d t).offsetOutPl.toInt + 1) / 2 ↔
      ¬(dataI t = BitVec.intMax w ∧ (d t).offsetOutPl = BitVec.intMin w) := by
  intro d
  have hout : (d (t + 1)).dataO.toInt =
      (BitVec.ofInt (w + 1) ((dataI t).toInt - (d t).offsetOutPl.toInt + 1)).toInt / 2 :=
    dataO_clock hw (d t) (shift t) (turnClock t) (dataI t)
  have hgrowth := growth_iff hw (dataI t) (d t).offsetOutPl
  rw [hout, ← hgrowth]
  obtain ⟨v, rfl⟩ : ∃ v, w = v + 1 := ⟨w - 1, by omega⟩
  have hpow : (2 : ℤ) ^ (v + 1) = 2 * 2 ^ v := pow_succ' 2 v
  have hpos : (0 : ℤ) < 2 ^ v := Int.pow_pos (by decide)
  have hx₀ : -2 ^ v ≤ (dataI t).toInt := BitVec.le_toInt _
  have hx₁ : (dataI t).toInt < 2 ^ v := BitVec.toInt_lt
  have hoffset₀ : -2 ^ v ≤ (d t).offsetOutPl.toInt := BitVec.le_toInt _
  have hoffset₁ : (d t).offsetOutPl.toInt < 2 ^ v := BitVec.toInt_lt
  constructor
  · intro hexact htop
    have hwrap : (BitVec.ofInt (v + 1 + 1) (2 ^ (v + 1))).toInt = -2 ^ (v + 1) := by
      have hwidth : (2 : ℤ) ^ (v + 1 + 1) = 2 * 2 ^ (v + 1) := pow_succ' 2 (v + 1)
      rw [BitVec.toInt_ofInt, Int.bmod_def]
      push_cast
      rw [Int.emod_eq_of_lt (by omega) (by omega), if_neg (by omega)]
      omega
    rw [htop, hwrap, hpow] at hexact
    omega
  · intro hbelow
    rw [BitVec.toInt_ofInt_eq_self (Nat.succ_pos _)]
    · show -2 ^ (v + 1) ≤ _
      omega
    · show _ < 2 ^ (v + 1)
      omega

/-- A pair that does not reach the limit, on the first clock. -/
theorem fill_reject_output_first :
    ((FillReject.run (fun _ => 3) (fun _ => false) (fun _ => 100) (FillReject.initial 16 12)
      1).dataO.toInt = (100 - 0 + 1) / 2) := by
  have hiff := fill_reject_output_iff (by decide : 0 < 16) (FillReject.initial 16 12) (fun _ => 3)
    (fun _ => false) (fun _ => 100) 0
  exact hiff.mpr (by decide)

/-- They do meet, whatever the shift and the number of bunches: after a round of least samples the
least offset is subtracted. -/
theorem extremes_meet (hw : 0 < w) {shift : BitVec 4} (hshift : shift.toNat ≤ m)
    (f : FillReject w m) {turnClock : ℕ → Bool} {turn start : ℕ}
    (hclock : TurnClock turn start turnClock) (hturn : 6 ≤ turn) (hfits : turn ≤ 2 ^ 11) :
    ∃ dataI t, dataI t = BitVec.intMax w ∧
      (FillReject.run (fun _ => shift) turnClock dataI f t).offsetOutPl = BitVec.intMin w := by
  have hpos : 0 < turn := by omega
  have hround : 0 < 2 ^ shift.toNat := Nat.two_pow_pos _
  have hrun : ∀ dataI, FillReject.IsRun shift turnClock dataI
      (FillReject.run (fun _ => shift) turnClock dataI f) := fun dataI t => rfl
  obtain ⟨n, hn, hzero⟩ := (countAt_counts (hrun fun _ => 0) hclock hpos).exists_zero 2
  let t := sampleClock turn start 0 (n + 1 + 2 ^ shift.toNat + 0)
  let dataI := fun i => if i < t then BitVec.intMin w else BitVec.intMax w
  have hbegin : countAt (FillReject.run (fun _ => shift) turnClock dataI f) turn start n = 0 :=
    (turnCounter_run _ turnClock dataI (fun _ => 0) f _).trans hzero
  refine ⟨dataI, t, if_neg (Nat.lt_irrefl t), ?_⟩
  have hmin : (BitVec.intMin w).toInt = -2 ^ (w - 1) := BitVec.toInt_intMin_of_pos hw
  have hleast : ∀ l < 2 ^ shift.toNat,
      (dataI (sampleClock turn start 0 (n + 1 + l))).toInt = -2 ^ (w - 1) := by
    intro l hl
    have hbefore : sampleClock turn start 0 (n + 1 + l) < t := by
      have hmul := Nat.mul_lt_mul_of_pos_right (show n + 1 + l < n + 1 + 2 ^ shift.toNat + 0 by omega)
        hpos
      show start + _ + 0 + 2 < start + _ + 0 + 2
      omega
    show (if _ < t then _ else _ : BitVec w).toInt = _
    rw [if_pos hbefore, hmin]
  have hoffset := offset_toInt hw hshift (hrun dataI) hclock hturn hfits hpos hn hbegin hround
  rw [Finset.sum_congr rfl (fun l hl => hleast l (Finset.mem_range.mp hl)), Finset.sum_const,
    Finset.card_range, nsmul_eq_mul] at hoffset
  have hpow : (0 : ℤ) < 2 ^ shift.toNat := Int.pow_pos (by decide)
  push_cast at hoffset
  rw [Int.add_mul_ediv_left _ _ hpow.ne', Int.ediv_eq_zero_of_lt (by omega) (by omega),
    Int.zero_add, ← hmin] at hoffset
  exact BitVec.toInt_inj.mp hoffset

/-- Samples at the lower limit, and then samples at the upper limit. -/
def extremes (t : ℕ) : BitVec 16 := if t < 104 then BitVec.intMin 16 else BitVec.intMax 16

/-- After a round of least samples the greatest sample comes out with the wrong sign. -/
theorem fill_reject_wraps :
    let d := FillReject.run (fun _ => 3) (fun t => decide (t % 6 = 0)) extremes
      (FillReject.initial 16 12)
    (d 104).offsetOutPl = BitVec.intMin 16 ∧ extremes 104 = BitVec.intMax 16 ∧
      (d 105).dataO.toInt = -32768 ∧
      ((extremes 104).toInt - (d 104).offsetOutPl.toInt + 1) / 2 = 32768 := by
  decide +kernel

end Mbf.Adc
