import Mathlib.Order.Bounds.Basic
import Mathlib.Order.MinMax

/-! # Running minima and maxima

A minimum that is kept while the elements of a list come by is their least element if and only if
it has started at or above one of them; the same for a maximum. -/

namespace Extremum

variable {α : Type*} [LinearOrder α]

theorem foldl_min_le (l : List α) (b : α) : l.foldl min b ≤ b ∧ ∀ x ∈ l, l.foldl min b ≤ x := by
  induction l generalizing b with
  | nil => exact ⟨le_rfl, fun x hx => absurd hx List.not_mem_nil⟩
  | cons a l ih =>
      obtain ⟨hstart, hall⟩ := ih (min b a)
      refine ⟨hstart.trans (min_le_left _ _), fun x hx => ?_⟩
      rcases List.mem_cons.mp hx with rfl | hx
      · exact hstart.trans (min_le_right _ _)
      · exact hall x hx

theorem foldl_min_mem (l : List α) (b : α) : l.foldl min b = b ∨ l.foldl min b ∈ l := by
  induction l generalizing b with
  | nil => exact .inl rfl
  | cons a l ih =>
      rw [List.foldl_cons]
      rcases ih (min b a) with hstart | hmem
      · rcases min_choice b a with hb | ha
        · exact .inl (hstart.trans hb)
        · exact .inr (List.mem_cons.mpr (.inl (hstart.trans ha)))
      · exact .inr (List.mem_cons_of_mem _ hmem)

theorem isLeast_foldl_min_iff (l : List α) (b : α) :
    IsLeast {x | x ∈ l} (l.foldl min b) ↔ ∃ x ∈ l, x ≤ b := by
  obtain ⟨hstart, hall⟩ := foldl_min_le l b
  constructor
  · intro h
    exact ⟨_, h.1, hstart⟩
  · rintro ⟨x, hx, hxb⟩
    refine ⟨?_, fun y hy => hall y hy⟩
    rcases foldl_min_mem l b with heq | hmem
    · have hbx : b = x := le_antisymm (heq ▸ hall x hx) hxb
      change l.foldl min b ∈ l
      rw [heq, hbx]
      exact hx
    · exact hmem

theorem isGreatest_foldl_max_iff (l : List α) (b : α) :
    IsGreatest {x | x ∈ l} (l.foldl max b) ↔ ∃ x ∈ l, b ≤ x :=
  @isLeast_foldl_min_iff αᵒᵈ _ l b

end Extremum
