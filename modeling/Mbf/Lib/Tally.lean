import Mathlib.Data.List.Basic

/-! # Counting the entries of a table

A table is a list whose entries change in place, so that an index names one entry for good.
What a change does to the number of entries that satisfy `p` depends on the entry alone
(`keep`, `join`, `quit`); where at most one entry satisfies `p`, its index is known (`only`). -/

namespace Tally

universe u

variable {α : Type u} {p : α → Bool} {l : List α} {i : ℕ} {a b : α}

theorem lt_length (h : l[i]? = some a) : i < l.length := (List.getElem?_eq_some_iff.mp h).1

theorem set_self (h : l[i]? = some a) : (l.set i b)[i]? = some b :=
  List.getElem?_set_self (lt_length h)

/-- An entry after a change: the new one, or the one that was there. -/
theorem set_cases {j : ℕ} {c : α} (h : (l.set i b)[j]? = some c) :
    (j = i ∧ c = b) ∨ (j ≠ i ∧ l[j]? = some c) := by
  rcases Decidable.em (j = i) with rfl | hne
  · rw [List.getElem?_set] at h
    by_cases hlt : j < l.length
    · rw [if_pos rfl, if_pos hlt] at h
      exact .inl ⟨rfl, (Option.some.inj h).symm⟩
    · rw [if_pos rfl, if_neg hlt] at h
      cases h
  · rw [List.getElem?_set_ne (Ne.symm hne)] at h
    exact .inr ⟨hne, h⟩

/-- An entry after an addition: the new one, or one that was there. -/
theorem add_cases {c : α} (h : (l ++ [b])[i]? = some c) : l[i]? = some c ∨ c = b := by
  rw [List.getElem?_append] at h
  split at h
  · exact .inl h
  · exact .inr (List.mem_singleton.mp (List.mem_of_getElem? h))

/-- The other entries stay. -/
theorem mem_set_of_ne (h : l[i]? = some a) {c : α} (hc : c ∈ l) (hne : c ≠ a) :
    c ∈ l.set i b := by
  obtain ⟨j, hj⟩ := List.mem_iff_getElem?.mp hc
  have hji : i ≠ j := by
    rintro rfl
    exact hne (Option.some.inj (hj.symm.trans h))
  exact List.mem_of_getElem? ((List.getElem?_set_ne hji).trans hj)

theorem count_set (h : l[i]? = some a) :
    (l.set i b).countP p + (if p a then 1 else 0) = l.countP p + (if p b then 1 else 0) := by
  obtain ⟨hi, ha⟩ := List.getElem?_eq_some_iff.mp h
  have hle : (if p l[i] then 1 else 0) ≤ l.countP p := by
    split
    · rename_i hp
      exact List.countP_pos_iff.mpr ⟨l[i], List.getElem_mem hi, hp⟩
    · exact Nat.zero_le _
  rw [List.countP_set hi, ← ha]
  omega

theorem keep (h : l[i]? = some a) (hab : p b = p a) : (l.set i b).countP p = l.countP p := by
  have hset := count_set (p := p) (b := b) h
  rw [hab] at hset
  exact Nat.add_right_cancel hset

theorem join (h : l[i]? = some a) (ha : p a = false) (hb : p b = true) :
    (l.set i b).countP p = l.countP p + 1 := by
  have hset := count_set (p := p) (b := b) h
  rw [ha, hb] at hset
  exact hset

theorem quit (h : l[i]? = some a) (ha : p a = true) (hb : p b = false) :
    (l.set i b).countP p + 1 = l.countP p := by
  have hset := count_set (p := p) (b := b) h
  rw [ha, hb] at hset
  exact hset

theorem add (hb : p b = false) : (l ++ [b]).countP p = l.countP p := by
  rw [List.countP_append, List.countP_singleton, hb]
  rfl

theorem pos (h : l[i]? = some a) (ha : p a = true) : 0 < l.countP p :=
  List.countP_pos_iff.mpr ⟨a, List.mem_of_getElem? h, ha⟩

/-- Where at most one entry satisfies `p`, two that do are one. -/
theorem only {j : ℕ} (hle : l.countP p ≤ 1) (hi : l[i]? = some a) (ha : p a = true)
    (hj : l[j]? = some b) (hb : p b = true) : j = i := by
  induction l generalizing i j with
  | nil => cases hi
  | cons c l ih =>
      rw [List.countP_cons] at hle
      cases i with
      | zero =>
          cases j with
          | zero => rfl
          | succ j =>
              obtain rfl : c = a := Option.some.inj hi
              have := pos (List.getElem?_cons_succ ▸ hj) hb
              rw [ha, if_pos rfl] at hle
              omega
      | succ i =>
          cases j with
          | zero =>
              obtain rfl : c = b := Option.some.inj hj
              have := pos (List.getElem?_cons_succ ▸ hi) ha
              rw [hb, if_pos rfl] at hle
              omega
          | succ j =>
              rw [List.getElem?_cons_succ] at hi hj
              exact congrArg Nat.succ (ih (by omega) hi hj)

end Tally
