import Mathlib.Data.BitVec

/-! # Watched arithmetic

Words of a fixed width together with a flag that tells whether a computation has left the width on
the way: a sum or product sets it when it wraps, and whatever is computed from a flagged word is
flagged.  A program over any type with addition and multiplication runs on words (`BitVec w`) and
on watched words alike; `Watched.Of` relates the watched run to the numbers it stands for. -/

/-- A word, and whether it or a word it was computed from has wrapped. -/
structure Watched (w : ℕ) where
  value : BitVec w
  wrapped : Bool
deriving DecidableEq

namespace Watched

variable {w : ℕ}

instance : NatCast (Watched w) where
  natCast n := ⟨BitVec.ofNat w n, decide (2 ^ w ≤ n)⟩

instance : Add (Watched w) where
  add x y := ⟨x.value + y.value, x.wrapped || y.wrapped || x.value.uaddOverflow y.value⟩

instance : Mul (Watched w) where
  mul x y := ⟨x.value * y.value, x.wrapped || y.wrapped || x.value.umulOverflow y.value⟩

/-- The word stands for a number: it is the number modulo `2 ^ w`, flagged if it does not fit. -/
structure Of (x : Watched w) (n : ℕ) : Prop where
  value : x.value = BitVec.ofNat w n
  wrapped : x.wrapped = true ↔ 2 ^ w ≤ n

variable {x y : Watched w} {m n : ℕ}

theorem Of.toNat (h : x.Of n) (hfits : n < 2 ^ w) : x.value.toNat = n := by
  rw [h.value, BitVec.toNat_ofNat, Nat.mod_eq_of_lt hfits]

/-- The word is the number exactly if the number fits. -/
theorem Of.toNat_iff (h : x.Of n) : x.value.toNat = n ↔ n < 2 ^ w := by
  refine ⟨fun heq => ?_, h.toNat⟩
  rw [← heq]
  exact x.value.isLt

theorem Of.not_wrapped (h : x.Of n) : x.wrapped = false ↔ n < 2 ^ w := by
  rw [← Bool.not_eq_true, h.wrapped, Nat.not_le]

theorem Of.cast (n : ℕ) : (n : Watched w).Of n := by
  refine ⟨rfl, ?_⟩
  change decide (2 ^ w ≤ n) = true ↔ _
  rw [decide_eq_true_eq]

/-- A sum fits if and only if nothing wraps on the way to it. -/
theorem Of.add (hx : x.Of m) (hy : y.Of n) : (x + y).Of (m + n) := by
  refine ⟨?_, ?_⟩
  · change x.value + y.value = _
    rw [hx.value, hy.value, ← BitVec.ofNat_add]
  · change (x.wrapped || y.wrapped || x.value.uaddOverflow y.value) = true ↔ _
    rw [Bool.or_eq_true, Bool.or_eq_true, hx.wrapped, hy.wrapped]
    unfold BitVec.uaddOverflow
    rw [decide_eq_true_eq]
    by_cases hm : m < 2 ^ w
    · by_cases hn : n < 2 ^ w
      · rw [hx.toNat hm, hy.toNat hn]
        omega
      · exact iff_of_true (.inl (.inr (by omega))) (by omega)
    · exact iff_of_true (.inl (.inl (by omega))) (by omega)

/-- A product of positive numbers fits if and only if nothing wraps on the way to it. -/
theorem Of.mul (hx : x.Of m) (hy : y.Of n) (hm₀ : 0 < m) (hn₀ : 0 < n) : (x * y).Of (m * n) := by
  have hleft : m ≤ m * n := Nat.le_mul_of_pos_right m hn₀
  have hright : n ≤ m * n := Nat.le_mul_of_pos_left n hm₀
  refine ⟨?_, ?_⟩
  · change x.value * y.value = _
    rw [hx.value, hy.value, ← BitVec.ofNat_mul]
  · change (x.wrapped || y.wrapped || x.value.umulOverflow y.value) = true ↔ _
    rw [Bool.or_eq_true, Bool.or_eq_true, hx.wrapped, hy.wrapped]
    unfold BitVec.umulOverflow
    rw [decide_eq_true_eq]
    by_cases hm : m < 2 ^ w
    · by_cases hn : n < 2 ^ w
      · rw [hx.toNat hm, hy.toNat hn]
        omega
      · exact iff_of_true (.inl (.inr (by omega))) (by omega)
    · exact iff_of_true (.inl (.inl (by omega))) (by omega)

end Watched
