import Mathlib.Algebra.BigOperators.Ring.Finset
import Mathlib.Algebra.Order.BigOperators.Group.Finset
import Mbf.Fir.Filter

/-! # The bunch by bunch filter is a convolution

For each bunch the filter gives out, on a valid turn, the sum of its last valid samples, each
multiplied with its tap and rounded (`Convolves`, `bunch_fir_convolves`).  Each tap but the first
adds to what the tap before it has made of the bunch on the last valid turn (`delayOut_eq`), so the
sum is that of the taps so far. -/

namespace Mbf.Fir

/-! ### What a convolution is -/

/-- The valid samples of a bunch on the turns before turn `n`, the last one first. -/
def validSamples (valid : ℕ → Bool) (sample : ℕ → ℤ) : ℕ → List ℤ
  | 0 => []
  | n + 1 =>
      if valid n then sample n :: validSamples valid sample n else validSamples valid sample n

namespace FirGenerics

variable (g : FirGenerics)

/-- The convolution of samples, the last one first, with the taps. -/
def exactSum (taps : ℕ → ℤ) (samples : List ℤ) : ℤ :=
  ∑ k ∈ Finset.range g.tapCount, taps k * samples.getD k 0

/-- The convolution with each product rounded. -/
def roundedSum (taps : ℕ → ℤ) (samples : List ℤ) : ℤ :=
  ∑ k ∈ Finset.range g.tapCount, g.rounded (taps k * samples.getD k 0)

/-- The part of it with the last `t` taps. -/
def partialSum (taps : ℕ → ℤ) (t : ℕ) (samples : List ℤ) : ℤ :=
  ∑ k ∈ Finset.range t, g.rounded (taps (g.lastTap + 1 - t + k) * samples.getD k 0)

theorem partialSum_all (taps : ℕ → ℤ) (samples : List ℤ) :
    g.partialSum taps (g.lastTap + 1) samples = g.roundedSum taps samples := by
  refine Finset.sum_congr rfl fun k _ => ?_
  rw [Nat.sub_self, Nat.zero_add]

/-- One more tap, with one more sample. -/
theorem partialSum_cons (taps : ℕ → ℤ) {t : ℕ} (ht : t ≤ g.lastTap) (sample : ℤ)
    (samples : List ℤ) : g.partialSum taps (t + 1) (sample :: samples) =
      g.partialSum taps t samples + g.rounded (taps (g.lastTap - t) * sample) := by
  rw [partialSum, Finset.sum_range_succ', partialSum]
  congr 1
  · refine Finset.sum_congr rfl fun k _ => ?_
    rw [List.getD_cons_succ, show g.lastTap + 1 - (t + 1) + (k + 1) = g.lastTap + 1 - t + k by omega]
  · rw [List.getD_cons_zero, Nat.add_zero, Nat.add_sub_add_right]

/-- The rounding of all products. -/
theorem roundedSum_error (taps : ℕ → ℤ) (samples : List ℤ) :
    |g.exactSum taps samples - 2 ^ (g.roundOffset + 1) * g.roundedSum taps samples| ≤
      g.tapCount * 2 ^ g.roundOffset := by
  rw [exactSum, roundedSum, Finset.mul_sum, ← Finset.sum_sub_distrib]
  refine (Finset.abs_sum_le_sum_abs _ _).trans ?_
  calc ∑ k ∈ Finset.range g.tapCount, |taps k * samples.getD k 0 -
        2 ^ (g.roundOffset + 1) * g.rounded (taps k * samples.getD k 0)|
      ≤ ∑ _k ∈ Finset.range g.tapCount, 2 ^ g.roundOffset :=
        Finset.sum_le_sum fun k _ => g.rounded_error _
    _ = g.tapCount * 2 ^ g.roundOffset := by
        rw [Finset.sum_const, Finset.card_range, nsmul_eq_mul]

end FirGenerics

/-- What comes in, with the taps of the bank that is selected. -/
structure FirSignals (g : FirGenerics) where
  turnClock : ℕ → Bool
  banks : Fin 4 → Fin (g.lastTap + 1) → BitVec g.tapWidth
  firSelect : ℕ → Fin 4
  valid : ℕ → Bool
  data : ℕ → BitVec g.dataInWidth

namespace FirSignals

variable {g : FirGenerics} (s : FirSignals g)

def run : ℕ → FirChain g :=
  FirChain.run fun t => ⟨s.turnClock t, s.banks (s.firSelect t), s.valid t, s.data t⟩

/-- The taps that are selected on a clock. -/
def taps (t k : ℕ) : ℤ :=
  if h : k < g.lastTap + 1 then (s.banks (s.firSelect t) ⟨k, h⟩).toInt else 0

/-- The valid samples, before turn `n`, of the bunch whose sample comes in on clock `m`. -/
def samples (turn m n : ℕ) : List ℤ :=
  validSamples (fun n => s.valid (m + n * turn)) (fun n => (s.data (m + n * turn)).toInt) n

/-- The filter does what it should for the bunch whose sample comes in on clock `m`, on turn `n`:
a valid output is the convolution, and is off by more than the rounding only if one of the turns of
its samples has raised the overflow flag; other turns repeat the output before. -/
structure BunchConvolves (turn m n : ℕ) : Prop where
  valid : (s.run (m + n * turn + 7)).fir.dataValidO = s.valid (m + n * turn)
  output : s.valid (m + n * turn) = true →
    (g.lastTap ≤ (s.samples turn m n).length ∨ ∀ t < m, s.valid t = false) →
      (s.run (m + n * turn + 7)).fir.dataO =
        BitVec.ofInt _ (g.roundedSum (s.taps (m + 4)) (s.samples turn m (n + 1)))
  exact : s.valid (m + n * turn) = true →
    (g.lastTap ≤ (s.samples turn m n).length ∨ ∀ t < m, s.valid t = false) →
      |g.exactSum (s.taps (m + 4)) (s.samples turn m (n + 1)) -
          2 ^ (g.roundOffset + 1) * (s.run (m + n * turn + 7)).fir.dataO.toInt| ≤
        g.tapCount * 2 ^ g.roundOffset ∨
      ∃ j ≤ n, s.valid (m + j * turn) = true ∧
        (s.samples turn m n).length ≤ (s.samples turn m j).length + g.lastTap ∧
        (s.run (m + j * turn + 13)).fir.overflowO = true
  interpolated : (s.run (m + (n + 1) * turn + 12)).interpolate.dataOut =
    if s.valid (m + (n + 1) * turn) then (s.run (m + (n + 1) * turn + 7)).fir.dataO
    else (s.run (m + n * turn + 12)).interpolate.dataOut

end FirSignals

/-- The filter is a convolution for each bunch. -/
def Convolves (g : FirGenerics) (turn : ℕ) : Prop :=
  ∀ (s : FirSignals g) (start : ℕ), TurnClock turn start s.turnClock →
    (∀ t, s.firSelect (t + turn) = s.firSelect t) →
      ∀ m, start + 9 ≤ m → ∀ n, s.BunchConvolves turn m n

/-! ### One tap on one turn -/

section stage
variable {g : FirGenerics} {s : FirSignals g}

theorem taps_rev (t : Fin (g.lastTap + 1)) (n : ℕ) :
    (s.banks (s.firSelect n) t.rev).toInt = s.taps n (g.lastTap - t.val) := by
  have hindex : g.lastTap - t.val = t.rev.val := by
    rw [Fin.val_rev]
    omega
  rw [FirSignals.taps, hindex, dif_pos t.rev.isLt]

/-- The run of one tap. -/
abbrev tapRun (s : FirSignals g) (t : Fin (g.lastTap + 1)) (n : ℕ) : BunchFirDsp g :=
  (s.run n).fir.dsp t

theorem run_clock (t : Fin (g.lastTap + 1)) (n : ℕ) :
    tapRun s t (n + 1) = (tapRun s t n).clock (s.banks (s.firSelect n) t.rev)
      ((s.run n).fir.dataIn t (Fin.last 3)) ((s.run n).fir.delayOut t) := rfl

theorem run_memory (i : Fin g.lastTap) (n : ℕ) :
    ((s.run (n + 1)).fir.dataDelay i).memory =
      if (s.run n).fir.delayInValid i then
        Function.update ((s.run n).fir.dataDelay i).memory
          (((s.run n).fir.dataDelay i).writeAddr (Fin.last 5)) ((s.run n).fir.delayInReg i)
      else ((s.run n).fir.dataDelay i).memory := rfl

theorem run_data (t : Fin (g.lastTap + 1)) (n : ℕ) :
    (s.run (n + 4)).fir.dataIn t (Fin.last 3) = s.data n := run_dataIn t n

/-- What a tap makes of a sample. -/
theorem accumOut_eq (hg : g.Assertions) (t : Fin (g.lastTap + 1)) (n : ℕ) :
    (s.run (n + 7)).fir.accumOut t = BitVec.ofInt g.dataOutWidth
      (((s.run (n + 5)).fir.delayOut t).toInt +
        g.rounded (s.taps (n + 4) (g.lastTap - t.val) * (s.data n).toInt)) := by
  have hstage := BunchFirDsp.accumO_eq hg (run_clock (s := s) t) (n + 4)
  rw [run_data, taps_rev] at hstage
  exact hstage

/-- Nothing comes out of a tap before its first sample. -/
theorem accumOut_start (hg : g.Assertions) (t : Fin (g.lastTap + 1)) {n : ℕ} (hn : n < 3) :
    (s.run n).fir.accumOut t = 0 := by
  obtain rfl | rfl | rfl : n = 0 ∨ n = 1 ∨ n = 2 := by omega
  · exact BitVec.extractLsb'_zero
  · exact BunchFirDsp.accumO_empty hg rfl (.inl rfl) _ _ _
  · refine BunchFirDsp.accumO_empty hg ?_ (.inr rfl) _ _ _
    show (0 : BitVec g.tapWidth).signExtend g.productWidth * _ = 0
    rw [BitVec.signExtend, BitVec.ofNat_eq_ofNat, BitVec.toInt_zero]
    exact BitVec.zero_mul

/-! ### The sums of products fit without headroom -/

/-- What the delay lines hold is no more than the sum of the greatest products. -/
structure Limited (s : FirSignals g) (n : ℕ) : Prop where
  delayInReg : ∀ i, |((s.run n).fir.delayInReg i).toInt| ≤ (i.val + 1 : ℕ) * g.productLimit
  memory : ∀ i a, |(((s.run n).fir.dataDelay i).memory a).toInt| ≤ (i.val + 1 : ℕ) * g.productLimit
  readData : ∀ i, |((s.run n).fir.dataDelay i).readData.toInt| ≤ (i.val + 1 : ℕ) * g.productLimit
  dataO : ∀ i, |((s.run n).fir.dataDelay i).dataO.toInt| ≤ (i.val + 1 : ℕ) * g.productLimit
  delayOut : ∀ t, |((s.run n).fir.delayOut t).toInt| ≤ t.val * g.productLimit

/-- A tap keeps to its limit if the clocks before have done so. -/
theorem accumOut_limited (hg : g.Assertions) (hroomy : g.Roomy) (hnone : g.headroomOffset = 0)
    (t : Fin (g.lastTap + 1)) {n : ℕ} (hlimited : ∀ k < n, Limited s k) :
    |((s.run n).fir.accumOut t).toInt| ≤ (t.val + 1 : ℕ) * g.productLimit := by
  rcases Nat.lt_or_ge n 3 with hstart | hlater
  · rw [accumOut_start hg t hstart, BitVec.ofNat_eq_ofNat, BitVec.toInt_zero, abs_zero]
    positivity
  · obtain ⟨k, rfl⟩ := Nat.exists_eq_add_of_le' hlater
    exact (BunchFirDsp.accumO_of_limit hg hroomy hnone
      (run_clock t) k (Nat.lt_succ_iff.mp t.isLt) ((hlimited (k + 1) (by omega)).delayOut t)).2

theorem limited (hg : g.Assertions) (hroomy : g.Roomy) (hnone : g.headroomOffset = 0) (n : ℕ) :
    Limited s n := by
  induction n using Nat.strong_induction_on with
  | _ n ih =>
    cases n with
    | zero =>
      have hzero : ∀ k : ℕ, |(0 : BitVec g.dataOutWidth).toInt| ≤ k * g.productLimit := by
        intro k
        rw [BitVec.ofNat_eq_ofNat, BitVec.toInt_zero, abs_zero]
        positivity
      exact ⟨fun i => hzero _, fun i a => hzero _, fun i => hzero _, fun i => hzero _,
        fun t => hzero _⟩
    | succ n =>
      have hbefore := ih n (Nat.lt_succ_self n)
      refine ⟨fun i => ?_, fun i a => ?_, fun i => hbefore.memory i _,
        fun i => hbefore.readData i, fun t => ?_⟩
      · exact accumOut_limited hg hroomy hnone i.castSucc fun k hk => ih k (by omega)
      · rw [run_memory]
        split
        · rw [Function.update_apply]
          split
          · exact hbefore.delayInReg i
          · exact hbefore.memory i a
        · exact hbefore.memory i a
      · rw [show (s.run (n + 1)).fir.delayOut = _ from run_delayOut n]
        cases t using Fin.cases with
        | zero => rw [Fin.cons_zero, BitVec.ofNat_eq_ofNat, BitVec.toInt_zero, abs_zero]; positivity
        | succ i => exact hbefore.dataO i

/-- A tap adds the rounded product, unless the overflow flag is set. -/
theorem accumOut_toInt (hg : g.Assertions) (hroomy : g.Roomy) (t : Fin (g.lastTap + 1)) (n : ℕ) :
    ((s.run (n + 7)).fir.accumOut t).toInt =
        ((s.run (n + 5)).fir.delayOut t).toInt +
          g.rounded (s.taps (n + 4) (g.lastTap - t.val) * (s.data n).toInt) ∨
      (s.run (n + 13)).fir.overflowO = true := by
  rw [← taps_rev, ← run_data t n]
  rcases Nat.eq_zero_or_pos g.headroomOffset with hnone | hsome
  · exact .inl (BunchFirDsp.accumO_of_limit hg hroomy hnone
      (run_clock t) (n + 4) (Nat.lt_succ_iff.mp t.isLt)
      ((limited hg hroomy hnone (n + 5)).delayOut t)).1
  · exact (BunchFirDsp.accumO_or_overflow hg hsome
      (run_clock t) (n + 4)).imp_right (run_overflowO t (n + 8))

end stage

/-! ### Nothing in the filter -/

section fresh
variable {g : FirGenerics} {s : FirSignals g}

/-- The delay lines are as they were at the start, and nothing valid is on its way before the
sample of clock `m`. -/
structure Fresh (s : FirSignals g) (m n : ℕ) : Prop where
  dataValid : ∀ j : Fin 7, n ≤ m + j.val → (s.run n).fir.dataValid j = false
  delayInValid : ∀ i, (s.run n).fir.delayInValid i = false
  memory : ∀ i a, ((s.run n).fir.dataDelay i).memory a = 0
  readData : ∀ i, ((s.run n).fir.dataDelay i).readData = 0
  dataO : ∀ i, ((s.run n).fir.dataDelay i).dataO = 0
  delayOut : ∀ t, (s.run n).fir.delayOut t = 0

theorem fresh {m : ℕ} (hnone : ∀ t < m, s.valid t = false) {n : ℕ} (hn : n ≤ m + 7) :
    Fresh s m n := by
  induction n with
  | zero =>
    exact ⟨fun _ _ => rfl, fun _ => rfl, fun _ _ => rfl, fun _ => rfl, fun _ => rfl, fun _ => rfl⟩
  | succ n ih =>
    have hbefore := ih (by omega)
    refine ⟨fun j hj => ?_, fun i => hbefore.dataValid (Fin.last 6) (by simpa using hn),
      fun i a => ?_, fun i => hbefore.memory i _, fun i => hbefore.readData i, fun t => ?_⟩
    · show dlyline (s.run n).fir.dataValid (s.valid n) j = false
      cases j using Fin.cases with
      | zero =>
        exact hnone n hj
      | succ j =>
        refine hbefore.dataValid j.castSucc ?_
        rw [Fin.val_succ] at hj
        rw [Fin.val_castSucc]
        omega
    · rw [run_memory, hbefore.delayInValid, if_neg Bool.false_ne_true]
      exact hbefore.memory i a
    · rw [show (s.run (n + 1)).fir.delayOut = _ from run_delayOut n]
      cases t using Fin.cases with
      | zero => rfl
      | succ i => exact hbefore.dataO i

end fresh

/-! ### A bunch, turn after turn -/

section turns
variable {g : FirGenerics} {s : FirSignals g} {turn start m : ℕ}

theorem partialSum_none (taps : ℕ → ℤ) (t : ℕ) : g.partialSum taps t [] = 0 := by
  refine Finset.sum_eq_zero fun k _ => ?_
  rw [List.getD_nil, mul_zero, FirGenerics.rounded, zero_add]
  exact Int.ediv_eq_zero_of_lt (Int.pow_pos (by decide)).le
    (pow_lt_pow_right₀ (by decide) (Nat.lt_succ_self _))

theorem samples_valid {n : ℕ} (h : s.valid (m + n * turn) = true) :
    s.samples turn m (n + 1) = (s.data (m + n * turn)).toInt :: s.samples turn m n := by
  rw [FirSignals.samples, validSamples, if_pos h]
  rfl

theorem samples_invalid {n : ℕ} (h : ¬ s.valid (m + n * turn) = true) :
    s.samples turn m (n + 1) = s.samples turn m n := by
  rw [FirSignals.samples, validSamples, if_neg h]
  rfl

/-- A bunch has the same taps on each turn. -/
theorem taps_turn (hselect : ∀ t, s.firSelect (t + turn) = s.firSelect t) (n : ℕ) :
    s.taps (m + n * turn + 4) = s.taps (m + 4) := by
  have hbank : s.firSelect (m + n * turn + 4) = s.firSelect (m + 4) := by
    induction n with
    | zero => rw [zero_mul, add_zero]
    | succ n ih => rw [← ih, ← hselect (m + n * turn + 4)]; congr 1; ring
  unfold FirSignals.taps
  rw [hbank]

/-- What a tap starts from on the next turn. -/
theorem delayOut_next (hclock : TurnClock turn start s.turnClock) (hturn : 7 ≤ turn)
    (hfits : turn ≤ 2 ^ 11) (hm : start + 9 ≤ m) (i : Fin g.lastTap) (n : ℕ) :
    (s.run (m + (n + 1) * turn + 5)).fir.delayOut i.succ =
      if s.valid (m + n * turn) then (s.run (m + n * turn + 7)).fir.accumOut i.castSucc
      else (s.run (m + n * turn + 5)).fir.delayOut i.succ := by
  rw [show m + (n + 1) * turn + 5 = m + n * turn + turn + 5 by ring]
  exact run_delayOut_succ hclock hturn hfits i (hm.trans (Nat.le_add_right _ _))

/-- The samples that a tap's delay line needs. -/
def Enough (s : FirSignals g) (turn m n t : ℕ) : Prop :=
  t ≤ (s.samples turn m n).length ∨ ∀ t < m, s.valid t = false

theorem Enough.invalid {n t : ℕ} (h : Enough s turn m (n + 1) t)
    (hv : ¬ s.valid (m + n * turn) = true) : Enough s turn m n t := by
  rwa [Enough, samples_invalid hv] at h

theorem Enough.valid {n t : ℕ} (h : Enough s turn m (n + 1) (t + 1))
    (hv : s.valid (m + n * turn) = true) : Enough s turn m n t := by
  rw [Enough, samples_valid hv] at h
  exact h.imp_left Nat.le_of_succ_le_succ

theorem Enough.first {t : ℕ} (h : Enough s turn m 0 t) (ht : 0 < t) : ∀ t < m, s.valid t = false :=
  h.resolve_left (Nat.not_le_of_lt ht)

/-- A tap starts from the sum over the taps before it. -/
theorem delayOut_eq (hg : g.Assertions) (hturn : 7 ≤ turn) (hfits : turn ≤ 2 ^ 11)
    (hclock : TurnClock turn start s.turnClock)
    (hselect : ∀ t, s.firSelect (t + turn) = s.firSelect t) (hm : start + 9 ≤ m) (n : ℕ)
    (t : Fin (g.lastTap + 1)) (henough : Enough s turn m n t.val) :
    (s.run (m + n * turn + 5)).fir.delayOut t =
      BitVec.ofInt _ (g.partialSum (s.taps (m + 4)) t.val (s.samples turn m n)) := by
  induction n generalizing t with
  | zero =>
    have hzero : (s.run (m + 0 * turn + 5)).fir.delayOut t = 0 := by
      cases t using Fin.cases with
      | zero => exact run_delayOut_zero _
      | succ i =>
        exact (fresh (n := m + 0 * turn + 5) (henough.first (Nat.succ_pos _)) (by omega)).delayOut _
    rw [hzero, show s.samples turn m 0 = [] from rfl, partialSum_none]
    rfl
  | succ n ih =>
    cases t using Fin.cases with
    | zero => exact run_delayOut_zero _
    | succ i =>
      rw [delayOut_next hclock hturn hfits hm]
      split
      case isTrue hv =>
        have hstage := accumOut_eq (s := s) hg i.castSucc (m + n * turn)
        have hsum := g.partialSum_cons (s.taps (m + 4)) i.isLt.le (s.data (m + n * turn)).toInt
          (s.samples turn m n)
        rw [samples_valid hv, Fin.val_succ, hsum, hstage, ih i.castSucc (henough.valid hv),
          taps_turn hselect, BitVec.ofInt_add, BitVec.ofInt_toInt, ← BitVec.ofInt_add]
        rfl
      case isFalse hv =>
        rw [samples_invalid hv]
        exact ih i.succ (henough.invalid hv)

/-- One of the turns before turn `n` whose samples are in the sum of the last `t` taps has raised the
overflow flag. -/
def Raised (s : FirSignals g) (turn m n t : ℕ) : Prop :=
  ∃ j < n, s.valid (m + j * turn) = true ∧
    (s.samples turn m n).length ≤ (s.samples turn m j).length + t ∧
    (s.run (m + j * turn + 13)).fir.overflowO = true

theorem Raised.invalid {n t : ℕ} (h : Raised s turn m n t)
    (hv : ¬ s.valid (m + n * turn) = true) : Raised s turn m (n + 1) t := by
  obtain ⟨j, hj, hraised⟩ := h
  refine ⟨j, Nat.lt_succ_of_lt hj, ?_⟩
  rwa [samples_invalid hv]

theorem Raised.valid {n t : ℕ} (h : Raised s turn m n t)
    (hv : s.valid (m + n * turn) = true) : Raised s turn m (n + 1) (t + 1) := by
  obtain ⟨j, hj, hvalid, hlength, hraised⟩ := h
  refine ⟨j, Nat.lt_succ_of_lt hj, hvalid, ?_, hraised⟩
  rw [samples_valid hv, List.length_cons]
  omega

theorem Raised.last {n t : ℕ} (hv : s.valid (m + n * turn) = true)
    (h : (s.run (m + n * turn + 13)).fir.overflowO = true) : Raised s turn m (n + 1) (t + 1) := by
  refine ⟨n, Nat.lt_succ_self n, hv, ?_, h⟩
  rw [samples_valid hv, List.length_cons]
  omega

/-- What a tap makes of a valid sample is exact, if it starts from an exact sum. -/
theorem accumOut_exact (hg : g.Assertions) (hroomy : g.Roomy)
    (hselect : ∀ t, s.firSelect (t + turn) = s.firSelect t) (t : Fin (g.lastTap + 1)) {n : ℕ}
    (hv : s.valid (m + n * turn) = true)
    (hstart : ((s.run (m + n * turn + 5)).fir.delayOut t).toInt =
        g.partialSum (s.taps (m + 4)) t.val (s.samples turn m n) ∨ Raised s turn m n t.val) :
    ((s.run (m + n * turn + 7)).fir.accumOut t).toInt =
        g.partialSum (s.taps (m + 4)) (t.val + 1) (s.samples turn m (n + 1)) ∨
      Raised s turn m (n + 1) (t.val + 1) := by
  rcases hstart with hexact | hraised
  · rcases accumOut_toInt (s := s) hg hroomy t (m + n * turn) with hsum | hflag
    · refine .inl ?_
      rw [hsum, hexact, taps_turn hselect, samples_valid hv,
        g.partialSum_cons _ (Nat.lt_succ_iff.mp t.isLt)]
    · exact .inr (Raised.last hv hflag)
  · exact .inr (hraised.valid hv)

/-- A tap starts from the exact sum over the taps before it, unless a flag has been raised. -/
theorem delayOut_exact (hg : g.Assertions) (hroomy : g.Roomy) (hturn : 7 ≤ turn)
    (hfits : turn ≤ 2 ^ 11) (hclock : TurnClock turn start s.turnClock)
    (hselect : ∀ t, s.firSelect (t + turn) = s.firSelect t) (hm : start + 9 ≤ m) (n : ℕ)
    (t : Fin (g.lastTap + 1)) (henough : Enough s turn m n t.val) :
    ((s.run (m + n * turn + 5)).fir.delayOut t).toInt =
        g.partialSum (s.taps (m + 4)) t.val (s.samples turn m n) ∨ Raised s turn m n t.val := by
  induction n generalizing t with
  | zero =>
    refine .inl ?_
    rw [delayOut_eq hg hturn hfits hclock hselect hm 0 t henough,
      show s.samples turn m 0 = [] from rfl, partialSum_none]
    exact BitVec.toInt_zero
  | succ n ih =>
    cases t using Fin.cases with
    | zero =>
      refine .inl ?_
      rw [show (s.run _).fir.delayOut 0 = 0 from run_delayOut_zero _]
      exact BitVec.toInt_zero
    | succ i =>
      rw [delayOut_next hclock hturn hfits hm]
      split
      case isTrue hv =>
        exact accumOut_exact hg hroomy hselect i.castSucc hv
          (ih i.castSucc (henough.valid hv))
      case isFalse hv =>
        rw [samples_invalid hv]
        exact (ih i.succ (henough.invalid hv)).imp_right fun h => h.invalid hv

end turns

/-- The filter is a convolution for each bunch. -/
theorem bunch_fir_convolves {g : FirGenerics} (hg : g.Assertions) (hroomy : g.Roomy) {turn : ℕ}
    (hturn : 7 ≤ turn) (hfits : turn ≤ 2 ^ 11) : Convolves g turn := by
  intro s start hclock hselect m hm n
  refine ⟨run_dataValidO _, fun hv henough => ?_, fun hv henough => ?_, ?_⟩
  · -- the last tap has added up all products
    have hout := accumOut_eq (s := s) hg (Fin.last g.lastTap) (m + n * turn)
    have hsum := g.partialSum_cons (s.taps (m + 4)) le_rfl (s.data (m + n * turn)).toInt
      (s.samples turn m n)
    have hstart := delayOut_eq hg hturn hfits hclock hselect hm n (Fin.last g.lastTap) henough
    rw [Nat.sub_self] at hsum
    rw [Fin.val_last] at hstart
    rw [← g.partialSum_all, samples_valid hv, hsum, BunchFir.dataO, hout, hstart,
      taps_turn hselect, Fin.val_last, Nat.sub_self, BitVec.ofInt_add, BitVec.ofInt_toInt,
      ← BitVec.ofInt_add]
  · rcases accumOut_exact hg hroomy hselect (Fin.last g.lastTap) hv
      (delayOut_exact hg hroomy hturn hfits hclock hselect hm n _ henough) with hexact | hraised
    · refine .inl ?_
      rw [Fin.val_last, g.partialSum_all] at hexact
      rw [BunchFir.dataO, hexact]
      exact g.roundedSum_error _ _
    · obtain ⟨j, hj, hvalid, hlength, hflag⟩ := hraised
      refine .inr ⟨j, Nat.le_of_lt_succ hj, hvalid, ?_, hflag⟩
      rw [samples_valid hv, List.length_cons, Fin.val_last] at hlength
      omega
  · rw [show m + (n + 1) * turn = m + n * turn + turn by ring]
    exact run_interpolate hclock (by omega) hfits (hm.trans (Nat.le_add_right _ _))

/-- Sixteen taps of the widths that are in use, and as many bunches as in the storage ring. -/
theorem bunch_fir_convolves_storage_ring : Convolves ⟨16, 25, 36, 15, 2⟩ 936 :=
  bunch_fir_convolves ⟨by decide, by decide, by decide, by decide, by decide, by decide, by decide,
    by decide⟩ (fun h => absurd h (by decide)) (by decide) (by decide)

end Mbf.Fir
