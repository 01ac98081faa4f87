import Mbf.Lib.Signed
import Mbf.Lib.TurnMemory

/-! # Small entities of the firmware

The delay lines and the overflow test that the entities of the firmware have in common, and the turn
clock: once in a while, always after the same number of clocks. -/

namespace Mbf

/-- `overflow_detect`: not all bits are the same. -/
def overflowDetect {n : ℕ} (data : BitVec n) : Bool := data ≠ 0 && data ≠ .allOnes n

/-- The bits from the sign bit of a slice up are not all the same when the slice does not fit. -/
theorem overflowDetect_iff {n k o : ℕ} (x : BitVec n) (h : k + o ≤ n) (ho : 0 < o) {first count : ℕ}
    (hfirst : first = k + o - 1) (hcount : count = n - (k + o - 1)) :
    overflowDetect (x.extractLsb' first count) = true ↔ ¬ Signed.Fits o (x.toInt / 2 ^ k) := by
  subst hfirst hcount
  rw [← Signed.slice_overflow x h ho, overflowDetect, Bool.and_eq_true, decide_eq_true_iff,
    decide_eq_true_iff, not_or]

theorem dlyline_lt {n : ℕ} (k : Fin n) : k.val - 1 < n := by omega

/-- `dlyline`: the input moves into place 0 and the rest move up; the last place is the output. -/
def dlyline {α : Type} {n : ℕ} (line : Fin n → α) (input : α) : Fin n → α :=
  fun k => if k.val = 0 then input else line ⟨k.val - 1, dlyline_lt k⟩

/-- What is at a place of a delay line is what came in some clocks before. -/
theorem dlyline_out {α : Type} {n : ℕ} (line : ℕ → Fin n → α) (input : ℕ → α)
    (hline : ∀ t, line (t + 1) = dlyline (line t) (input t)) (k : Fin n) (t : ℕ) :
    line (t + k.val + 1) k = input t := by
  refine TurnMemory.line_out ?_ k t
  intro t k
  rw [hline]
  rfl

/-- From clock `start` on there is a turn clock every `turn` clocks. -/
def TurnClock (turn start : ℕ) (turnClock : ℕ → Bool) : Prop :=
  ∀ k, turnClock (start + k) = decide (k % turn = 0)

/-- A turn clock that is never late. -/
theorem turnClock_mod (turn start : ℕ) :
    TurnClock turn start fun t => decide ((t - start) % turn = 0) := by
  intro k
  show decide ((start + k - start) % turn = 0) = _
  rw [Nat.add_sub_cancel_left]

/-- A register that is written with the turn clock holds what was written for the turn. -/
theorem TurnClock.held {α : Type*} {turn start : ℕ} {turnClock : ℕ → Bool}
    (h : TurnClock turn start turnClock) (register value : ℕ → α)
    (hregister : ∀ t, register (t + 1) = if turnClock t then value t else register t) (n : ℕ)
    {j : ℕ} (hj : j < turn) : register (start + n * turn + j + 1) = value (start + n * turn) := by
  induction j with
  | zero =>
      rw [Nat.add_zero, hregister, h, decide_eq_true (Nat.mul_mod_left n turn), if_pos rfl]
  | succ j ih =>
      have hmod : (n * turn + (j + 1)) % turn = j + 1 := by
        rw [Nat.mul_comm, Nat.mul_add_mod, Nat.mod_eq_of_lt hj]
      have hclock : turnClock (start + n * turn + (j + 1)) = false := by
        rw [Nat.add_assoc start, h, hmod]
        exact decide_eq_false (Nat.succ_ne_zero j)
      rw [hregister, hclock, if_neg Bool.false_ne_true]
      exact ih (by omega)

end Mbf
