import Mathlib.Data.Nat.Cast.Defs

/-! # Literals

A literal of `Fin n` rests on `n` not being zero, and one of a ring on the number being at least
two.  With an instance for each of the numbers in use, they rest on the same facts wherever they
stand. -/

namespace Literals

instance neZero_two : @NeZero ℕ Zero.ofOfNat0 2 := ⟨by decide⟩

instance neZero_three : @NeZero ℕ Zero.ofOfNat0 3 := ⟨by decide⟩

instance neZero_four : @NeZero ℕ Zero.ofOfNat0 4 := ⟨by decide⟩

instance neZero_eight : @NeZero ℕ Zero.ofOfNat0 8 := ⟨by decide⟩

instance atLeastTwo_two : Nat.AtLeastTwo 2 := ⟨Nat.le_refl 2⟩

end Literals
