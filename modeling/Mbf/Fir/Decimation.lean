import Mathlib.Algebra.BigOperators.Intervals
import Mbf.Lib.Signed
import Mbf.Fir.Decimate

/-! # Decimation from end to end

After `hw_write_bunch_decimation` the decimator should give out, for each bunch, on one turn of
`decimation` turns, the sum of the samples of this bunch over as many turns, shifted right by the
least shift that keeps it in the width of a sample (`Decimated`).

It does for decimations up to 64 for all bunches but one (`decimation_bunch`).  The limit is
written with six of its seven bits, so from 65 on the counter comes round too early.  And the valid
bit is a clock ahead of the data, so it comes a turn too early for the bunch whose sample is
accumulated at the turn clock: the last sample of each sum of this bunch is lost. -/

namespace Mbf.Fir

/-! ### What decimation is -/

/-- The samples of a bunch, the valid bits and the outputs for it, turn by turn: there is a steady
state in which one turn of `decimation` turns is valid, with the sum of the samples up to it. -/
def Decimated (decimation : ℕ) (sample : ℕ → BitVec 16) (valid : ℕ → Bool)
    (output : ℕ → BitVec 16) : Prop :=
  ∃ steady phase, decimation ≤ steady ∧ phase < decimation ∧ ∀ n, steady ≤ n →
    (valid n = true ↔ n % decimation = phase) ∧
      (valid n = true → (output n).toInt =
        (∑ i ∈ Finset.range decimation, (sample (n - i)).toInt) >>> Nat.clog 2 decimation)

/-- The clocks from a sample to the output with it: `data_in`, `accumulator`, `write_data` and
`data_out`. -/
def latency : ℕ := 4

/-- The decimator decimates bunch `j`, counted from the turn clock. -/
def DecimatesBunch (decimation turn start j : ℕ) : Prop :=
  ∀ (d : Decimate) (m : FirConfig) (turnClock : ℕ → Bool) (dataI : ℕ → BitVec 16),
    TurnClock turn start turnClock →
      let config := hwWriteBunchDecimation (BitVec.ofNat 32 decimation) m
      let r := Decimate.run config.limit config.shift d turnClock dataI
      Decimated decimation (fun n => dataI (start + n * turn + j))
        (fun n => (r (start + n * turn + j + latency)).dataValidO)
        (fun n => (r (start + n * turn + j + latency)).dataO)

/-! ### Sums of samples -/

section sums

/-- A sum is accumulated without overflow. -/
theorem accumulate_toInt (sample : ℕ → BitVec 16) {m : ℕ} (hm : m < 128) {x : BitVec 23}
    (hx : x.toInt = ∑ i ∈ Finset.range m, (sample i).toInt) :
    ((sample m).signExtend 23 + x).toInt = ∑ i ∈ Finset.range (m + 1), (sample i).toInt := by
  obtain ⟨hlow, hhigh⟩ := Signed.sum_bounds sample (m + 1)
  rw [BitVec.toInt_add, BitVec.toInt_signExtend_of_le (by decide), hx, Int.add_comm,
    ← Finset.sum_range_succ]
  push_cast at hlow hhigh
  exact Int.bmod_eq_of_le (by omega) (by omega)

/-- The shift brings a sum back to the width of a sample. -/
theorem shifted_toInt (sample : ℕ → BitVec 16) {m shift : ℕ} (hm : m ≤ 2 ^ shift) {x : BitVec 23}
    (hx : x.toInt = ∑ i ∈ Finset.range m, (sample i).toInt) :
    ((x.sshiftRight shift).setWidth 16).toInt =
      (∑ i ∈ Finset.range m, (sample i).toInt) >>> shift := by
  obtain ⟨hlow, hhigh⟩ := Signed.sum_bounds sample m
  have hcast : (m : ℤ) ≤ 2 ^ shift := by exact_mod_cast hm
  have hpos : (0 : ℤ) < 2 ^ shift := Int.pow_pos (by decide)
  have hlow' : -2 ^ 15 ≤ (∑ i ∈ Finset.range m, (sample i).toInt) / 2 ^ shift := by
    apply Int.le_ediv_of_mul_le hpos
    omega
  have hhigh' : (∑ i ∈ Finset.range m, (sample i).toInt) / 2 ^ shift < 2 ^ 15 := by
    apply Int.ediv_lt_of_lt_mul hpos
    omega
  rw [← BitVec.signExtend_eq_setWidth_of_le _ (by decide),
    BitVec.toInt_signExtend_eq_toInt_bmod_of_le _ (by decide), BitVec.toInt_sshiftRight, hx,
    Int.shiftRight_eq_div_pow]
  push_cast
  exact Int.bmod_eq_of_le (by omega) (by omega)

end sums

/-! ### A bunch, turn by turn -/

section bunch
variable {limit : BitVec 7} {shift : BitVec 3} {d : Decimate} {turnClock : ℕ → Bool}
  {dataI : ℕ → BitVec 16} {turn start j : ℕ}

/-- The sum of a bunch in the next turn. -/
theorem Decimate.next_sum (hclock : TurnClock turn start turnClock) (hturn : 5 ≤ turn)
    (hfits : turn ≤ 2 ^ 11) (hj : j < turn) {n : ℕ} (hn : 3 ≤ n) :
    let r := Decimate.run limit shift d turnClock dataI
    (r (start + (n + 1) * turn + j + 2)).accumulator =
      if (Phase.turns limit (r (start + 1)).phase (n + 1)).first then
        (dataI (start + (n + 1) * turn + j)).signExtend 23
      else (dataI (start + (n + 1) * turn + j)).signExtend 23 +
        (r (start + n * turn + j + 2)).accumulator := by
  intro r
  have hlate : 15 ≤ n * turn := Nat.mul_le_mul hn hturn
  have hnext := @Decimate.next_accumulator limit shift d turnClock dataI turn start hclock hturn
    hfits (start + n * turn + j + 1) (by omega)
  have hphase := @Decimate.phase_eq limit shift d turnClock dataI turn start hclock
    ((n + 1) * turn + j)
  have hdiv : ((n + 1) * turn + j) / turn = n + 1 := by
    rw [Nat.mul_comm, Nat.mul_add_div (by omega), Nat.div_eq_of_lt hj, Nat.add_zero]
  have hfirst := congrArg Phase.first hphase
  rw [hdiv, show start + 1 + ((n + 1) * turn + j) = start + (n + 1) * turn + j + 1 by ring] at hfirst
  have hplace : start + n * turn + j + 1 + turn = start + (n + 1) * turn + j + 1 := by ring
  dsimp only at hnext
  rw [hplace] at hnext
  rw [← hfirst]
  exact hnext

/-- The valid bit for a bunch is that of its turn, and of the next turn for the last bunch. -/
theorem Decimate.valid_eq (hclock : TurnClock turn start turnClock) (hpos : 0 < turn) (n : ℕ) :
    let r := Decimate.run limit shift d turnClock dataI
    (r (start + n * turn + j + latency)).dataValidO =
      (Phase.turns limit (r (start + 1)).phase (n + (j + 1) / turn)).last := by
  intro r
  have hphase := @Decimate.phase_eq limit shift d turnClock dataI turn start hclock
    (n * turn + (j + 1))
  have hlast := congrArg Phase.last hphase
  rw [Nat.mul_comm, Nat.mul_add_div hpos, Nat.mul_comm,
    show start + 1 + (n * turn + (j + 1)) = start + n * turn + j + 2 by ring] at hlast
  exact hlast

/-- The sums of a bunch, from the first turn of a sum on. -/
theorem Decimate.sum_toInt (hclock : TurnClock turn start turnClock) (hturn : 5 ≤ turn)
    (hfits : turn ≤ 2 ^ 11) (hj : j < turn) {base i : ℕ} (hbase : 4 ≤ base)
    (hi : i ≤ limit.toNat)
    (hfirst : ∀ k ≤ i, (Phase.turns limit
      (Decimate.run limit shift d turnClock dataI (start + 1)).phase (base + k)).first =
        decide (k = 0)) :
    (Decimate.run limit shift d turnClock dataI
      (start + (base + i) * turn + j + 2)).accumulator.toInt =
      ∑ k ∈ Finset.range (i + 1), (dataI (start + (base + k) * turn + j)).toInt := by
  have hlimit := limit.isLt
  obtain ⟨n, rfl⟩ := Nat.exists_eq_add_of_le' (show 1 ≤ base by omega)
  induction i with
  | zero =>
      have hnext := @Decimate.next_sum limit shift d turnClock dataI turn start j hclock hturn hfits
        hj n (by omega)
      have hbegin := hfirst 0 le_rfl
      rw [Nat.add_zero] at hbegin
      rw [Nat.add_zero, hnext, hbegin, decide_eq_true rfl, if_pos rfl,
        BitVec.toInt_signExtend_of_le (by decide), Finset.sum_range_one, Nat.add_zero]
  | succ i ih =>
      have hsum := ih (by omega) fun k hk => hfirst k (by omega)
      have hnext := @Decimate.next_sum limit shift d turnClock dataI turn start j hclock hturn hfits
        hj (n + 1 + i) (by omega)
      have hlater := hfirst (i + 1) le_rfl
      rw [← Nat.add_assoc] at hlater
      rw [← Nat.add_assoc, hnext, hlater, decide_eq_false (Nat.succ_ne_zero i),
        if_neg Bool.false_ne_true]
      exact @accumulate_toInt (fun k => dataI (start + (n + 1 + k) * turn + j)) (i + 1) (by omega)
        _ hsum

/-- The sums of a bunch, and the outputs with them, in steady state. -/
theorem Decimate.steady (hclock : TurnClock turn start turnClock) (hturn : 5 ≤ turn)
    (hfits : turn ≤ 2 ^ 11) (hj : j < turn) (hshift : limit.toNat < 2 ^ shift.toNat) :
    let r := Decimate.run limit shift d turnClock dataI
    ∃ first, 3 ≤ first ∧
      (∀ n k, n + (j + 1) / turn = first + k →
        (r (start + n * turn + j + latency)).dataValidO =
          decide (k % (limit.toNat + 1) = 0)) ∧
      ∀ q i, i ≤ limit.toNat →
        (r (start + (first + 1 + q * (limit.toNat + 1) + i) * turn + j + latency)).dataO.toInt =
          (∑ k ∈ Finset.range (i + 1),
            (dataI (start + (first + 1 + q * (limit.toNat + 1) + k) * turn + j)).toInt) >>>
              shift.toNat := by
  intro r
  obtain ⟨first, hthree, hcycle⟩ := Phase.turns_cycle limit (r (start + 1)).phase
  refine ⟨first, hthree, ?_, ?_⟩
  · intro n k hn
    have hvalid := @Decimate.valid_eq limit shift d turnClock dataI turn start j hclock (by omega) n
    rw [hn] at hvalid
    exact hvalid.trans (hcycle k).1
  · intro q i hi
    have hsum := @Decimate.sum_toInt limit shift d turnClock dataI turn start j hclock hturn hfits
      hj (first + 1 + q * (limit.toNat + 1)) i (by omega) hi
    have hfirst : ∀ k ≤ i, (Phase.turns limit (r (start + 1)).phase
        (first + 1 + q * (limit.toNat + 1) + k)).first = decide (k = 0) := by
      intro k hk
      rw [Nat.add_assoc, (hcycle (q * (limit.toNat + 1) + k)).2, Nat.mul_comm, Nat.mul_add_mod,
        Nat.mod_eq_of_lt (by omega)]
    exact @shifted_toInt
      (fun k => dataI (start + (first + 1 + q * (limit.toNat + 1) + k) * turn + j)) (i + 1)
      shift.toNat (by omega) _ (hsum hfirst)

end bunch

/-! ### Which bunches are decimated -/

section decimation
variable {decimation turn start j : ℕ}

/-- One turn in `decimation` is valid, with all of its samples. -/
theorem decimatesBunch_of (hpos : 1 ≤ decimation) (hmax : decimation ≤ 64) (hturn : 5 ≤ turn)
    (hfits : turn ≤ 2 ^ 11) (hj : j < turn) (hlast : decimation = 1 ∨ j + 1 ≠ turn) :
    DecimatesBunch decimation turn start j := by
  intro d m turnClock dataI hclock config r
  obtain ⟨hlimit, hshift⟩ := hwWriteBunchDecimation_eq hpos (by omega) m
  have hround : config.limit.toNat + 1 = decimation := by
    show (hwWriteBunchDecimation (BitVec.ofNat 32 decimation) m).limit.toNat + 1 = _
    rw [hlimit]
    omega
  have hpow := Nat.le_pow_clog one_lt_two decimation
  have hroom : config.limit.toNat < 2 ^ config.shift.toNat := by
    show _ < 2 ^ (hwWriteBunchDecimation (BitVec.ofNat 32 decimation) m).shift.toNat
    rw [hshift]
    omega
  obtain ⟨first, hthree, hvalid, hout⟩ :=
    @Decimate.steady config.limit config.shift d turnClock dataI turn start j hclock hturn hfits hj
      hroom
  rw [hround] at hvalid hout
  refine ⟨first + decimation, first % decimation, by omega, Nat.mod_lt _ hpos, ?_⟩
  intro n hn
  obtain ⟨k, rfl⟩ := Nat.exists_eq_add_of_le (show first ≤ n by omega)
  dsimp only
  have hturns : (r (start + (first + k) * turn + j + latency)).dataValidO =
      decide (k % decimation = 0) := by
    rcases hlast with hone | hne
    · rw [hvalid (first + k) (k + (j + 1) / turn) (by omega), hone, Nat.mod_one, Nat.mod_one]
    · have hsame : (j + 1) / turn = 0 := Nat.div_eq_of_lt (by omega)
      exact hvalid (first + k) k (by omega)
  constructor
  · rw [hturns, decide_eq_true_eq]
    constructor
    · intro hzero
      obtain ⟨q, rfl⟩ := Nat.dvd_of_mod_eq_zero hzero
      exact Nat.add_mul_mod_self_left first decimation q
    · intro heq
      have hzero := Nat.sub_mod_eq_zero_of_mod_eq heq
      rwa [Nat.add_sub_cancel_left] at hzero
  · rw [hturns, decide_eq_true_eq]
    intro hzero
    obtain ⟨q, rfl⟩ := Nat.dvd_of_mod_eq_zero hzero
    obtain ⟨p, rfl⟩ := Nat.exists_eq_add_of_le' (show 1 ≤ q by
      by_contra hq
      rw [show q = 0 by omega, Nat.mul_zero] at hn
      omega)
    have hplace : first + decimation * (p + 1) =
        first + 1 + p * decimation + (decimation - 1) := by
      rw [Nat.mul_add, Nat.mul_comm decimation p]
      omega
    have hvalue := hout p (decimation - 1) (by omega)
    rw [← hplace] at hvalue
    rw [hvalue, hshift, Nat.sub_add_cancel hpos,
      ← Finset.sum_range_reflect (fun k => (dataI _).toInt)]
    congr 1
    apply Finset.sum_congr rfl
    intro i hi
    have hlt := Finset.mem_range.mp hi
    rw [hplace, show first + 1 + p * decimation + (decimation - 1) - i =
      first + 1 + p * decimation + (decimation - 1 - i) by omega]

/-- When the counter comes round too early, too many turns are valid. -/
theorem not_decimatesBunch_large (hmin : 65 ≤ decimation) (hmax : decimation ≤ 128)
    (hturn : 5 ≤ turn) (hfits : turn ≤ 2 ^ 11) (hj : j < turn) :
    ¬DecimatesBunch decimation turn start j := by
  intro h
  let config := hwWriteBunchDecimation (BitVec.ofNat 32 decimation) ⟨0, 0, 0⟩
  have hclock := turnClock_mod turn start
  obtain ⟨steady, phase, -, -, hsteady⟩ := h Decimate.initial ⟨0, 0, 0⟩ _ (fun _ => 0) hclock
  obtain ⟨hlimit, hshift⟩ : config.limit.toNat = (decimation - 1) % 64 ∧
      config.shift.toNat = Nat.clog 2 decimation := hwWriteBunchDecimation_eq (by omega) hmax _
  have hpow := Nat.le_pow_clog one_lt_two decimation
  rw [← hshift] at hpow
  obtain ⟨first, hthree, hvalid, -⟩ :=
    @Decimate.steady config.limit config.shift Decimate.initial _ (fun _ => 0) turn start j hclock
      hturn hfits hj (by omega)
  obtain ⟨round, hround⟩ : ∃ round, round = config.limit.toNat + 1 := ⟨_, rfl⟩
  have hless : 0 < round ∧ round < decimation := by omega
  rw [← hround] at hvalid
  dsimp only at hsteady
  -- two turns that are valid, a round of the counter apart
  have hone : (j + 1) / turn ≤ 1 := by
    rw [← Nat.lt_succ_iff, Nat.div_lt_iff_lt_mul (by omega)]
    omega
  obtain ⟨n, hn⟩ : ∃ n, n + (j + 1) / turn = first + (steady + 1) * round :=
    ⟨first + (steady + 1) * round - (j + 1) / turn, by omega⟩
  have hlate : steady + 1 ≤ (steady + 1) * round := Nat.le_mul_of_pos_right _ hless.1
  have hvalid₀ := hvalid n _ hn
  have hvalid₁ := hvalid (n + round) ((steady + 1 + 1) * round) (by
    rw [Nat.succ_mul (steady + 1)]
    omega)
  rw [Nat.mul_mod_left, decide_eq_true rfl] at hvalid₀ hvalid₁
  have hphase₀ := (hsteady n (by omega)).1.mp hvalid₀
  have hphase₁ := (hsteady (n + round) (by omega)).1.mp hvalid₁
  have hzero := Nat.sub_mod_eq_zero_of_mod_eq (hphase₁.trans hphase₀.symm)
  rw [Nat.add_sub_cancel_left, Nat.mod_eq_of_lt hless.2] at hzero
  omega

/-- A sum of equal samples. -/
theorem sum_equal (m shift : ℕ) (hshift : shift ≤ 6) :
    (∑ _k ∈ Finset.range m, (BitVec.ofNat 16 (2 ^ shift)).toInt) >>> shift = m := by
  have hsample : (BitVec.ofNat 16 (2 ^ shift)).toInt = 2 ^ shift := by
    have hall : ∀ k : Fin 7, (BitVec.ofNat 16 (2 ^ k.val)).toInt = 2 ^ k.val := by decide
    exact hall ⟨shift, by omega⟩
  rw [hsample, Finset.sum_const, Finset.card_range, nsmul_eq_mul, Int.shiftRight_eq_div_pow]
  push_cast
  exact Int.mul_ediv_cancel _ (Int.pow_pos (by decide)).ne'

/-- The last sample of a sum is lost where the valid bit comes a turn too early. -/
theorem not_decimatesBunch_last (hmin : 2 ≤ decimation) (hmax : decimation ≤ 64)
    (hturn : 5 ≤ turn) (hfits : turn ≤ 2 ^ 11) (hj : j + 1 = turn) :
    ¬DecimatesBunch decimation turn start j := by
  intro h
  let config := hwWriteBunchDecimation (BitVec.ofNat 32 decimation) ⟨0, 0, 0⟩
  let sample : BitVec 16 := BitVec.ofNat 16 (2 ^ Nat.clog 2 decimation)
  have hclock := turnClock_mod turn start
  obtain ⟨steady, phase, -, -, hsteady⟩ := h Decimate.initial ⟨0, 0, 0⟩ _ (fun _ => sample) hclock
  obtain ⟨hlimit, hshift⟩ : config.limit.toNat = (decimation - 1) % 64 ∧
      config.shift.toNat = Nat.clog 2 decimation :=
    hwWriteBunchDecimation_eq (by omega) (by omega) _
  have hround : config.limit.toNat + 1 = decimation := by omega
  have hpow := Nat.le_pow_clog one_lt_two decimation
  rw [← hshift] at hpow
  have hsix : Nat.clog 2 decimation ≤ 6 := by
    rw [Nat.clog_le_iff_le_pow one_lt_two]
    omega
  obtain ⟨first, hthree, hvalid, hout⟩ :=
    @Decimate.steady config.limit config.shift Decimate.initial _ (fun _ => sample) turn start j
      hclock hturn hfits (by omega) (by omega)
  rw [hround] at hvalid hout
  dsimp only at hsteady
  have hone : (j + 1) / turn = 1 := by rw [hj, Nat.div_self (by omega)]
  rw [hone] at hvalid
  have hlate : steady + 1 ≤ (steady + 1) * decimation := Nat.le_mul_of_pos_right _ (by omega)
  -- the turn before the last of a sum
  have hplace : first + 1 + (steady + 1) * decimation + (decimation - 2) + 1 =
      first + (steady + 1 + 1) * decimation := by
    rw [Nat.succ_mul (steady + 1)]
    omega
  have hearly := hvalid _ _ hplace
  rw [Nat.mul_mod_left, decide_eq_true rfl] at hearly
  have hclaimed := (hsteady _ (by omega)).2 hearly
  have hgiven := hout (steady + 1) (decimation - 2) (by omega)
  rw [sum_equal _ _ hsix] at hclaimed
  rw [hshift, sum_equal _ _ hsix] at hgiven
  have hequal := hclaimed.symm.trans hgiven
  omega

/-- Which bunches are decimated. -/
theorem decimation_bunch (hpos : 1 ≤ decimation) (hmax : decimation ≤ 128) (hturn : 5 ≤ turn)
    (hfits : turn ≤ 2 ^ 11) (hj : j < turn) :
    DecimatesBunch decimation turn start j ↔
      decimation = 1 ∨ decimation ≤ 64 ∧ j + 1 ≠ turn := by
  constructor
  · intro h
    by_contra hnot
    rcases Nat.lt_or_ge 64 decimation with hlarge | hsmall
    · exact not_decimatesBunch_large hlarge hmax hturn hfits hj h
    · exact not_decimatesBunch_last (by omega) hsmall hturn hfits (by omega) h
  · intro hcase
    exact decimatesBunch_of hpos (by omega) hturn hfits hj (by omega)

/-- A sum over sixteen turns of 936 bunches, of the first bunch and of the last. -/
theorem decimation_bunch_sixteen :
    DecimatesBunch 16 936 0 0 ∧ ¬DecimatesBunch 16 936 0 935 := by
  constructor
  · exact (decimation_bunch (by decide) (by decide) (by decide) (by decide) (by decide)).mpr
      (.inr ⟨by decide, by decide⟩)
  · intro h
    have hcase := (decimation_bunch (by decide) (by decide) (by decide) (by decide) (by decide)).mp h
    exact absurd hcase (by decide)

/-- The last bunch with a decimation of two, and any bunch with a decimation of 128. -/
theorem decimation_lost : ¬DecimatesBunch 2 936 0 935 ∧ ¬DecimatesBunch 128 936 0 0 :=
  ⟨not_decimatesBunch_last (by decide) (by decide) (by decide) (by decide) rfl,
    not_decimatesBunch_large (by decide) (by decide) (by decide) (by decide) (by decide)⟩

end decimation

end Mbf.Fir
