import Mathlib.Analysis.SpecialFunctions.Trigonometric.Bounds
import Mathlib.Tactic.IntervalCases
import Mbf.Lib.Literals

/-! # Cosine and sine from one octant

The cosine and the sine of any angle are, up to signs and their order, those of an angle in the
first octant (`place_fold`).  There they may be taken from a table and refined: a table entry with
its error, the angle from the entry with its error, and what linear interpolation leaves out add up
(`interpolate_cos`, `interpolate_sin`). -/

namespace Octants

open Real

/-! ### Octants -/

/-- Where the octant puts the cosine and the sine. -/
def place {α : Type*} [Neg α] (cos sin : α) : ℕ → α × α
  | 0 => (cos, sin)
  | 1 => (sin, cos)
  | 2 => (-sin, cos)
  | 3 => (-cos, sin)
  | 4 => (-cos, -sin)
  | 5 => (-sin, -cos)
  | 6 => (sin, -cos)
  | _ => (cos, -sin)

/-- The angle in the first octant: odd octants go backwards. -/
noncomputable def fold (n : ℕ) (x : ℝ) : ℝ := if n % 2 = 0 then x else π / 4 - x

theorem place_fold {n : ℕ} (hn : n < 8) (x : ℝ) :
    place (cos (fold n x)) (sin (fold n x)) n =
      (cos (n * (π / 4) + x), sin (n * (π / 4) + x)) := by
  interval_cases n
  · simp [place, fold]
  · rw [place, fold, if_neg (by decide), show ((1 : ℕ) : ℝ) * (π / 4) + x = π / 2 - (π / 4 - x) by
      push_cast; ring, cos_pi_div_two_sub, sin_pi_div_two_sub]
  · rw [place, fold, if_pos rfl, show ((2 : ℕ) : ℝ) * (π / 4) + x = x + π / 2 by
      push_cast; ring, cos_add_pi_div_two, sin_add_pi_div_two]
  · rw [place, fold, if_neg (by decide), show ((3 : ℕ) : ℝ) * (π / 4) + x = π - (π / 4 - x) by
      push_cast; ring, cos_pi_sub, sin_pi_sub]
  · rw [place, fold, if_pos rfl, show ((4 : ℕ) : ℝ) * (π / 4) + x = x + π by
      push_cast; ring, cos_add_pi, sin_add_pi]
  · rw [place, fold, if_neg (by decide), show ((5 : ℕ) : ℝ) * (π / 4) + x =
      π / 2 - (π / 4 - x) + π by push_cast; ring, cos_add_pi, sin_add_pi, cos_pi_div_two_sub,
      sin_pi_div_two_sub]
  · rw [place, fold, if_pos rfl, show ((6 : ℕ) : ℝ) * (π / 4) + x = x + π / 2 + π by
      push_cast; ring, cos_add_pi, sin_add_pi, cos_add_pi_div_two, sin_add_pi_div_two, neg_neg]
  · show (cos (fold 7 x), -sin (fold 7 x)) = _
    rw [fold, if_neg (by decide), show ((7 : ℕ) : ℝ) * (π / 4) + x =
      2 * π - (π / 4 - x) by push_cast; ring, cos_two_pi_sub, sin_two_pi_sub]

/-- What is close to the values in the first octant is close to them in the place it is put. -/
theorem place_close {a b c s e : ℝ} (hc : |a - c| < e) (hs : |b - s| < e) (n : ℕ) :
    |(place a b n).1 - (place c s n).1| < e ∧ |(place a b n).2 - (place c s n).2| < e := by
  have hneg : ∀ {x y : ℝ}, |x - y| < e → |-x - -y| < e := by
    intro x y h
    rwa [neg_sub_neg, abs_sub_comm]
  unfold place
  split
  · exact ⟨hc, hs⟩
  · exact ⟨hs, hc⟩
  · exact ⟨hneg hs, hc⟩
  · exact ⟨hneg hc, hs⟩
  · exact ⟨hneg hc, hneg hs⟩
  · exact ⟨hneg hs, hneg hc⟩
  · exact ⟨hs, hneg hc⟩
  · exact ⟨hc, hneg hs⟩

/-- A map that commutes with the negation of both values commutes with their place. -/
theorem place_map {α β : Type*} [Neg α] [Neg β] (f : α → β) {a b : α} (ha : f (-a) = -f a)
    (hb : f (-b) = -f b) (n : ℕ) :
    place (f a) (f b) n = (f (place a b n).1, f (place a b n).2) := by
  unfold place
  split <;> simp only [ha, hb]

/-! ### Interpolation -/

/-- What is left out when a small angle is added linearly. -/
noncomputable def bend (x : ℝ) : ℝ := x ^ 2 / 2 + |x| ^ 3 / 6

theorem one_sub_cos_le (x : ℝ) : |cos x - 1| ≤ x ^ 2 / 2 := by
  have hlow := one_sub_sq_div_two_le_cos (x := x)
  have hhigh := cos_le_one x
  rw [abs_le]
  constructor <;> linarith

theorem cos_linear (a x : ℝ) : |cos (a + x) - (cos a - x * sin a)| ≤ bend x := by
  have hcos : |cos a * (cos x - 1)| ≤ x ^ 2 / 2 := by
    rw [abs_mul]
    exact (mul_le_of_le_one_left (abs_nonneg _) (abs_cos_le_one a)).trans (one_sub_cos_le x)
  have hsin : |sin a * (x - sin x)| ≤ |x| ^ 3 / 6 := by
    rw [abs_mul]
    exact (mul_le_of_le_one_left (abs_nonneg _) (abs_sin_le_one a)).trans (abs_sub_sin_le x)
  rw [cos_add, show cos a * cos x - sin a * sin x - (cos a - x * sin a) =
    cos a * (cos x - 1) + sin a * (x - sin x) by ring]
  exact (abs_add_le _ _).trans (add_le_add hcos hsin)

theorem sin_linear (a x : ℝ) : |sin (a + x) - (sin a + x * cos a)| ≤ bend x := by
  have hcos : |sin a * (cos x - 1)| ≤ x ^ 2 / 2 := by
    rw [abs_mul]
    exact (mul_le_of_le_one_left (abs_nonneg _) (abs_sin_le_one a)).trans (one_sub_cos_le x)
  have hsin : |cos a * (sin x - x)| ≤ |x| ^ 3 / 6 := by
    rw [abs_mul, abs_sub_comm]
    exact (mul_le_of_le_one_left (abs_nonneg _) (abs_cos_le_one a)).trans (abs_sub_sin_le x)
  rw [sin_add, show sin a * cos x + cos a * sin x - (sin a + x * cos a) =
    sin a * (cos x - 1) + cos a * (sin x - x) by ring]
  exact (abs_add_le _ _).trans (add_le_add hcos hsin)

section interpolate
variable {C S amplitude angle delta error entry : ℝ}
  (hC : |C - amplitude * cos angle| ≤ entry) (hS : |S - amplitude * sin angle| ≤ entry)
  (hamplitude : 0 ≤ amplitude) (hdelta : 0 ≤ delta)
include hC hS hamplitude hdelta

/-- The cosine from a table. -/
theorem interpolate_cos : |C - delta * S - amplitude * cos (angle + (delta + error))| ≤
    entry + delta * entry + amplitude * (|error| + bend (delta + error)) := by
  have htable : |delta * (S - amplitude * sin angle)| ≤ delta * entry := by
    rw [abs_mul, abs_of_nonneg hdelta]
    exact mul_le_mul_of_nonneg_left hS hdelta
  have hlinear : |cos (angle + (delta + error)) - (cos angle - (delta + error) * sin angle)| ≤
      bend (delta + error) := cos_linear angle (delta + error)
  have herror : |error * sin angle| ≤ |error| := by
    rw [abs_mul]
    exact mul_le_of_le_one_right (abs_nonneg _) (abs_sin_le_one angle)
  have hsum := (abs_sub _ _).trans (add_le_add herror hlinear)
  have hscaled := mul_le_mul_of_nonneg_left hsum hamplitude
  rw [← abs_of_nonneg hamplitude, ← abs_mul, abs_of_nonneg hamplitude] at hscaled
  rw [show C - delta * S - amplitude * cos (angle + (delta + error)) =
    (C - amplitude * cos angle) - delta * (S - amplitude * sin angle) +
      amplitude * (error * sin angle -
        (cos (angle + (delta + error)) - (cos angle - (delta + error) * sin angle))) by ring]
  exact (abs_add_le _ _).trans (add_le_add ((abs_sub _ _).trans (add_le_add hC htable)) hscaled)

/-- The sine from a table. -/
theorem interpolate_sin : |S + delta * C - amplitude * sin (angle + (delta + error))| ≤
    entry + delta * entry + amplitude * (|error| + bend (delta + error)) := by
  have htable : |delta * (C - amplitude * cos angle)| ≤ delta * entry := by
    rw [abs_mul, abs_of_nonneg hdelta]
    exact mul_le_mul_of_nonneg_left hC hdelta
  have hlinear : |sin (angle + (delta + error)) - (sin angle + (delta + error) * cos angle)| ≤
      bend (delta + error) := sin_linear angle (delta + error)
  have herror : |error * cos angle| ≤ |error| := by
    rw [abs_mul]
    exact mul_le_of_le_one_right (abs_nonneg _) (abs_cos_le_one angle)
  have hsum := (abs_add_le _ _).trans (add_le_add herror hlinear)
  have hscaled := mul_le_mul_of_nonneg_left hsum hamplitude
  rw [← abs_of_nonneg hamplitude, ← abs_mul, abs_of_nonneg hamplitude] at hscaled
  rw [show S + delta * C - amplitude * sin (angle + (delta + error)) =
    (S - amplitude * sin angle) + delta * (C - amplitude * cos angle) -
      amplitude * (error * cos angle +
        (sin (angle + (delta + error)) - (sin angle + (delta + error) * cos angle))) by ring]
  exact (abs_sub _ _).trans (add_le_add ((abs_add_le _ _).trans (add_le_add hS htable)) hscaled)

end interpolate

end Octants
