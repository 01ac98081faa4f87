import Mbf.Lib.TurnMemory

/-! # Counters that come round by themselves

A counter goes down by one on each step, and from zero to its limit.  It gets to zero from wherever
it is (`Counts.exists_zero`), and from then on it is zero every so many steps
(`Counts.zero_iff`). -/

namespace Countdown

variable {w n : ℕ} {limit : BitVec w} {count : ℕ → BitVec w}

/-- The counter comes round with the limit. -/
def Counts (limit : BitVec w) (count : ℕ → BitVec w) : Prop :=
  ∀ n, count (n + 1) = if count n = 0 then limit else count n - 1

theorem Counts.next_zero (h : Counts limit count) (hzero : (count n).toNat = 0) :
    count (n + 1) = limit := by
  rw [h, if_pos (BitVec.eq_of_toNat_eq hzero)]

theorem Counts.next_pos (h : Counts limit count) {k : ℕ} (hpos : (count n).toNat = k + 1) :
    (count (n + 1)).toNat = k := by
  have hne : count n ≠ 0 := by
    intro hzero
    rw [hzero] at hpos
    exact Nat.succ_ne_zero k (hpos.symm.trans BitVec.toNat_zero)
  have hwidth : w ≠ 0 := by
    rintro rfl
    exact hne (Subsingleton.elim _ _)
  have hone : (1 : BitVec w).toNat = 1 := BitVec.toNat_one (Nat.pos_of_ne_zero hwidth)
  have hle : (1 : BitVec w) ≤ count n := by
    rw [BitVec.le_def, hone, hpos]
    exact Nat.succ_pos k
  rw [h, if_neg hne, BitVec.toNat_sub_of_le hle, hpos, hone, Nat.add_sub_cancel]

/-- The counter counts down to zero, from wherever it is. -/
theorem Counts.down (h : Counts limit count) {k : ℕ} (hk : k ≤ (count n).toNat) :
    (count (n + k)).toNat = (count n).toNat - k := by
  induction k with
  | zero => rfl
  | succ k ih =>
      have hleft := ih (by omega)
      rw [show (count n).toNat - k = (count n).toNat - (k + 1) + 1 by omega] at hleft
      exact h.next_pos hleft

theorem Counts.exists_zero (h : Counts limit count) (n : ℕ) : ∃ m, n ≤ m ∧ count m = 0 := by
  refine ⟨n + (count n).toNat, Nat.le_add_right _ _, BitVec.eq_of_toNat_eq ?_⟩
  rw [h.down le_rfl, Nat.sub_self]
  exact BitVec.toNat_zero.symm

/-- After zero it goes through the numbers up to the limit, again and again. -/
theorem Counts.around (h : Counts limit count) (hzero : count n = 0) (k : ℕ) :
    (count (n + 1 + k)).toNat = limit.toNat - k % (limit.toNat + 1) := by
  induction k with
  | zero =>
      have hnat : (count n).toNat = 0 := (congrArg BitVec.toNat hzero).trans BitVec.toNat_zero
      rw [Nat.add_zero, h.next_zero hnat, Nat.zero_mod, Nat.sub_zero]
  | succ k ih =>
      have hpos : 0 < limit.toNat + 1 := Nat.succ_pos limit.toNat
      by_cases hround : (k + 1) % (limit.toNat + 1) = 0
      · have hend : k % (limit.toNat + 1) = limit.toNat :=
          Nat.succ_injective (TurnMemory.mod_succ_zero hpos hround)
        rw [hend, Nat.sub_self] at ih
        rw [← Nat.add_assoc, h.next_zero ih, hround, Nat.sub_zero]
      · have hnext := TurnMemory.mod_succ hround
        have hlt := Nat.mod_lt (k + 1) hpos
        rw [show limit.toNat - k % (limit.toNat + 1) =
          limit.toNat - (k + 1) % (limit.toNat + 1) + 1 by omega] at ih
        exact h.next_pos ih

/-- From a zero on, the counter is zero every `limit + 1` steps. -/
theorem Counts.zero_iff (h : Counts limit count) (hzero : count n = 0) (k : ℕ) :
    count (n + k) = 0 ↔ k % (limit.toNat + 1) = 0 := by
  have hnat : ∀ x : BitVec w, x = 0 ↔ x.toNat = 0 := by
    intro x
    rw [← BitVec.toNat_inj]
    exact Iff.of_eq (congrArg (x.toNat = ·) BitVec.toNat_zero)
  cases k with
  | zero => exact iff_of_true hzero (Nat.zero_mod _)
  | succ k =>
      have hpos : 0 < limit.toNat + 1 := Nat.succ_pos limit.toNat
      have hlt := Nat.mod_lt k hpos
      rw [hnat, Nat.add_comm k 1, ← Nat.add_assoc, h.around hzero k, Nat.add_comm 1 k]
      constructor
      · intro hend
        rw [TurnMemory.mod_succ_eq, show k % (limit.toNat + 1) + 1 = limit.toNat + 1 by omega,
          Nat.mod_self]
      · intro hround
        have hend := TurnMemory.mod_succ_zero hpos hround
        omega

end Countdown
