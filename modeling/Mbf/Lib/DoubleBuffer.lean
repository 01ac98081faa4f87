import Mbf.Lib.TurnMemory

/-! # Memories with two banks

Of two banks of memory the one that is selected is updated, a row on each clock, while rows of the
other one may be reset.  Where the addresses come round every turn, each row of the selected bank is
updated once a turn (`Runs.turns`); a row of the other bank stays as it is until it is reset
(`Runs.held`) and is empty from then on (`Runs.emptied`).

An update may take some clocks.  If the turn is longer than that, and nothing is reset just after
the banks have been exchanged, it makes no difference (`Pipelined.runs`). -/

namespace DoubleBuffer

variable {κ α : Type*} [DecidableEq κ]

/-- A row of the other bank is reset, if any. -/
def resetRow (bank : κ → α) (empty : α) : Option κ → κ → α
  | some a => Function.update bank a empty
  | none => bank

/-- On each clock a row of the selected bank is updated, and a row of the other one may be reset. -/
def Runs (bank : Bool → ℕ → κ → α) (select : ℕ → Bool) (address : ℕ → κ) (update : ℕ → α → α)
    (reset : ℕ → Option κ) (empty : α) (start : ℕ) : Prop :=
  ∀ i t, start ≤ t → bank i (t + 1) =
    if select t = i then
      Function.update (bank i t) (address t) (update t (bank i t (address t)))
    else resetRow (bank i t) empty (reset t)

/-- The same where the row that is updated has been read `delay` clocks before. -/
def Pipelined (delay : ℕ) (bank : Bool → ℕ → κ → α) (select : ℕ → Bool) (address : ℕ → κ)
    (update : ℕ → α → α) (reset : ℕ → Option κ) (empty : α) (start : ℕ) : Prop :=
  ∀ i t, start ≤ t → bank i (t + delay + 1) =
    if select (t + delay) = i then
      Function.update (bank i (t + delay)) (address (t + delay))
        (update (t + delay) (bank i t (address (t + delay))))
    else resetRow (bank i (t + delay)) empty (reset (t + delay))

variable {bank : Bool → ℕ → κ → α} {select : ℕ → Bool} {address : ℕ → κ} {update : ℕ → α → α}
  {reset : ℕ → Option κ} {empty : α} {start turn delay : ℕ} {i : Bool} {a : κ}

theorem resetRow_of_ne {row : κ → α} {a : κ} {r : Option κ} (h : r ≠ some a) :
    resetRow row empty r a = row a := by
  cases r with
  | none => rfl
  | some b =>
      refine Function.update_of_ne ?_ _ _
      rintro rfl
      exact h rfl

theorem resetRow_empty {row : κ → α} {a : κ} (r : Option κ) (h : row a = empty) :
    resetRow row empty r a = empty := by
  by_cases hr : r = some a
  · rw [hr]
    exact Function.update_self ..
  · rw [resetRow_of_ne hr, h]

/-! ### The selected bank -/

/-- What is neither updated nor reset stays as it is. -/
theorem Runs.held (h : Runs bank select address update reset empty start) {s n : ℕ}
    (hs : start ≤ s) (hupdate : ∀ k < n, select (s + k) = i → address (s + k) ≠ a)
    (hreset : ∀ k < n, select (s + k) ≠ i → reset (s + k) ≠ some a) :
    bank i (s + n) a = bank i s a := by
  induction n with
  | zero => rfl
  | succ n ih =>
      have hbefore := ih (fun k hk => hupdate k (Nat.lt_succ_of_lt hk))
        fun k hk => hreset k (Nat.lt_succ_of_lt hk)
      rw [← Nat.add_assoc, h i _ (hs.trans (Nat.le_add_right s n))]
      split_ifs with hselect
      · rw [Function.update_of_ne (hupdate n (Nat.lt_succ_self n) hselect).symm, hbefore]
      · rw [resetRow_of_ne (hreset n (Nat.lt_succ_self n) hselect), hbefore]

/-- A row of the selected bank is updated once a turn. -/
theorem Runs.one_turn (h : Runs bank select address update reset empty start)
    (hring : TurnMemory.Ring turn start address) {s j : ℕ} (hs : start ≤ s) (hj : j < turn)
    (hselect : ∀ k < turn, select (s + k) = i) :
    bank i (s + turn) (address (s + j)) = update (s + j) (bank i s (address (s + j))) := by
  have hbefore : bank i (s + j) (address (s + j)) = bank i s (address (s + j)) := by
    refine h.held hs (fun k hk _ => ?_) fun k hk hne => absurd (hselect k (hk.trans hj)) hne
    have hdistinct := hring.distinct (s + k) (j - k) (by omega) (by omega) (by omega)
    rw [show s + k + (j - k) = s + j by omega] at hdistinct
    exact hdistinct.symm
  have hafter : bank i (s + j + 1 + (turn - j - 1)) (address (s + j)) =
      bank i (s + j + 1) (address (s + j)) := by
    refine h.held (by omega) (fun k hk _ => ?_) fun k hk hne => ?_
    · rw [show s + j + 1 + k = s + j + (k + 1) by ring]
      exact hring.distinct (s + j) (k + 1) (by omega) (by omega) (by omega)
    · refine absurd ?_ hne
      rw [show s + j + 1 + k = s + (j + 1 + k) by ring]
      exact hselect _ (by omega)
  rw [show s + turn = s + j + 1 + (turn - j - 1) by omega, hafter, h i _ (by omega),
    if_pos (hselect j hj), Function.update_self, hbefore]

/-- A row of the selected bank is updated on each turn. -/
theorem Runs.turns (h : Runs bank select address update reset empty start)
    (hring : TurnMemory.Ring turn start address) {s j n : ℕ} (hs : start ≤ s) (hj : j < turn)
    (hselect : ∀ k < n * turn, select (s + k) = i) :
    bank i (s + n * turn) (address (s + j)) =
      (List.range n).foldl (fun row k => update (s + k * turn + j) row)
        (bank i s (address (s + j))) := by
  induction n with
  | zero => rw [Nat.zero_mul, Nat.add_zero, List.range_zero, List.foldl_nil]
  | succ n ih =>
      have hlast : address (s + j) = address (s + n * turn + j) := by
        clear ih hselect
        induction n with
        | zero => rw [Nat.zero_mul, Nat.add_zero]
        | succ n ih =>
            rw [ih, ← hring.period (s + n * turn + j) (by omega)]
            congr 1
            ring
      have hone := h.one_turn hring (s := s + n * turn) (i := i) (by omega) hj fun k hk => by
        rw [Nat.add_assoc]
        exact hselect _ (by rw [Nat.succ_mul]; omega)
      rw [List.range_succ, List.foldl_append, List.foldl_cons, List.foldl_nil,
        ← ih fun k hk => hselect k (hk.trans_le (Nat.mul_le_mul_right _ (Nat.le_succ n))), hlast,
        ← hone]
      congr 1
      ring

/-! ### The other bank -/

/-- A row that has been reset stays empty while the bank is not selected. -/
theorem Runs.emptied (h : Runs bank select address update reset empty start) {s n : ℕ}
    (hs : start ≤ s) (hreset : reset s = some a) (hselect : ∀ k ≤ n, select (s + k) ≠ i) :
    bank i (s + n + 1) a = empty := by
  induction n with
  | zero =>
      rw [h i (s + 0) hs, if_neg (hselect 0 le_rfl), Nat.add_zero, hreset]
      exact Function.update_self ..
  | succ n ih =>
      rw [← Nat.add_assoc s n 1, h i _ (by omega),
        if_neg (show select (s + n + 1) ≠ i from hselect (n + 1) le_rfl)]
      exact resetRow_empty _ (ih fun k hk => hselect k (Nat.le_succ_of_le hk))

/-! ### Updates that take some clocks -/

section pipeline
variable (h : Pipelined delay bank select address update reset empty start)
  (hring : TurnMemory.Ring turn start address) (hturn : delay < turn)
  (hquiet : ∀ t, start ≤ t → ∀ k ≤ delay, select (t + k) ≠ select t → reset t = none)
include h hring hturn hquiet

/-- A row is not written between the read and the write, if the turn is longer than that. -/
theorem Pipelined.read_eq {t : ℕ} (ht : start + delay ≤ t) (hselect : select (t + delay) = i) :
    bank i (t + delay) (address (t + delay)) = bank i t (address (t + delay)) := by
  obtain ⟨u, rfl⟩ := Nat.exists_eq_add_of_le ht
  have hheld : ∀ k ≤ delay, bank i (start + delay + u + k) (address (start + delay + u + delay)) =
      bank i (start + delay + u) (address (start + delay + u + delay)) := by
    intro k hk
    induction k with
    | zero => rfl
    | succ k ih =>
        have hwrite := h i (start + u + k) (by omega)
        have hclock : start + u + k + delay = start + delay + u + k := by ring
        have hlast : start + delay + u + k + (delay - k) = start + delay + u + delay := by omega
        rw [hclock] at hwrite
        rw [← ih (Nat.le_of_succ_le hk), ← Nat.add_assoc, hwrite]
        split_ifs with hselected
        · refine Function.update_of_ne ?_ _ _
          have hdistinct := hring.distinct (start + delay + u + k) (delay - k) (by omega) (by omega)
            (by omega)
          rwa [hlast] at hdistinct
        · have hnone := hquiet (start + delay + u + k) (by omega) (delay - k) (by omega) (by
            rw [hlast, hselect]
            exact fun heq => hselected heq.symm)
          rw [hnone]
          rfl
  exact hheld delay le_rfl

/-- So the pipeline makes no difference. -/
theorem Pipelined.runs :
    Runs bank select address update reset empty (start + delay + delay) := by
  intro i t ht
  obtain ⟨u, rfl⟩ := Nat.exists_eq_add_of_le' (show delay ≤ t by omega)
  have hwrite := h i u (by omega)
  rw [hwrite]
  split_ifs with hselect
  · rw [h.read_eq hring hturn hquiet (show start + delay ≤ u by omega) hselect]
  · rfl

end pipeline

end DoubleBuffer
