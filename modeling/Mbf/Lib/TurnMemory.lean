import Mathlib.Data.BitVec
import Mathlib.Logic.Function.Basic
import Mathlib.Tactic.Ring

/-! # Delay lines and memories that come round

Signals are functions of the clock.  A delay line gives a signal some clocks later
(`line_out`).  A memory is written at an address that comes round every turn; then what is found
at an address, a turn after it was written, is what was written there, or what was there already
(`Ring.read`).  A counter that is restarted once a turn makes such addresses (`Ring.counter`). -/

namespace TurnMemory

/-! ### Delay lines -/

/-- A line of registers: the input moves into place 0 and the rest move up. -/
theorem line_out {α : Type*} {n : ℕ} {line : ℕ → Fin n → α} {input : ℕ → α}
    (hline : ∀ t (k : Fin n), line (t + 1) k =
      if _h : k.val = 0 then input t else line t ⟨k.val - 1, by omega⟩) (k : Fin n) (t : ℕ) :
    line (t + k.val + 1) k = input t := by
  obtain ⟨k, hk⟩ := k
  induction k with
  | zero => rw [hline, dif_pos rfl, Nat.add_zero]
  | succ k ih =>
      have hprevious := ih (by omega)
      rw [hline, dif_neg (Nat.succ_ne_zero k)]
      exact hprevious

/-! ### Memories -/

section memory
variable {κ α : Type*} {turn start t : ℕ} {address : ℕ → κ}

/-- From clock `start` on, the addresses come round every `turn` clocks. -/
structure Ring (turn start : ℕ) (address : ℕ → κ) : Prop where
  period : ∀ t, start ≤ t → address (t + turn) = address t
  distinct : ∀ t k, start ≤ t → 0 < k → k < turn → address (t + k) ≠ address t

theorem Ring.mono (h : Ring turn start address) {later : ℕ} (hle : start ≤ later) :
    Ring turn later address :=
  ⟨fun t ht => h.period t (hle.trans ht), fun t k ht => h.distinct t k (hle.trans ht)⟩

/-- Addresses that are delayed come round as well. -/
theorem Ring.delay (h : Ring turn start address) {delayed : ℕ → κ} {n : ℕ}
    (hdelay : ∀ t, delayed (t + n) = address t) : Ring turn (start + n) delayed where
  period t ht := by
    obtain ⟨u, rfl⟩ := Nat.exists_eq_add_of_le' (le_of_add_le_right ht)
    rw [show u + n + turn = u + turn + n by ring, hdelay, hdelay]
    exact h.period u (by omega)
  distinct t k ht hpos hlt := by
    obtain ⟨u, rfl⟩ := Nat.exists_eq_add_of_le' (le_of_add_le_right ht)
    rw [show u + n + k = u + k + n by ring, hdelay, hdelay]
    exact h.distinct u k (by omega) hpos hlt

variable [DecidableEq κ] {memory : ℕ → κ → α} {strobe : ℕ → Bool} {value : ℕ → α}

/-- A memory that is written on some clocks. -/
def Written (memory : ℕ → κ → α) (strobe : ℕ → Bool) (address : ℕ → κ) (value : ℕ → α) : Prop :=
  ∀ t, memory (t + 1) =
    if strobe t then Function.update (memory t) (address t) (value t) else memory t

/-- What is not written to stays as it is. -/
theorem Written.held (h : Written memory strobe address value) {a : κ} (n : ℕ)
    (hother : ∀ k < n, address (t + k) ≠ a) : memory (t + n) a = memory t a := by
  induction n with
  | zero => rfl
  | succ n ih =>
      rw [← Nat.add_assoc, h]
      split_ifs
      · rw [Function.update_of_ne (hother n (Nat.lt_succ_self n)).symm]
        exact ih fun k hk => hother k (Nat.lt_succ_of_lt hk)
      · exact ih fun k hk => hother k (Nat.lt_succ_of_lt hk)

/-- Until its turn comes round, an address holds what was written to it, or what it held. -/
theorem Ring.read (hring : Ring turn start address) (h : Written memory strobe address value)
    (ht : start ≤ t) {n : ℕ} (hpos : 0 < n) (hn : n ≤ turn) :
    memory (t + n) (address t) = if strobe t then value t else memory t (address t) := by
  obtain ⟨m, rfl⟩ := Nat.exists_eq_add_of_lt hpos
  have hheld : memory (t + 1 + m) (address t) = memory (t + 1) (address t) := by
    apply h.held m
    intro k hk
    rw [Nat.add_assoc]
    exact hring.distinct t (1 + k) ht (by omega) (by omega)
  rw [show t + (0 + m + 1) = t + 1 + m by ring, hheld, h]
  split_ifs
  · rw [Function.update_self]
  · rfl

/-- Before its turn comes, an address holds what it held. -/
theorem Ring.before (hring : Ring turn start address) (h : Written memory strobe address value)
    (ht : start ≤ t) {n : ℕ} (hn : n < turn) :
    memory (t + n) (address (t + n)) = memory t (address (t + n)) := by
  apply h.held n
  intro k hk
  have hdistinct := hring.distinct (t + k) (n - k) (by omega) (by omega) (by omega)
  rw [show t + k + (n - k) = t + n by omega] at hdistinct
  exact hdistinct.symm

end memory

/-! ### Counters -/

section counter
variable {w turn start : ℕ} {count : ℕ → BitVec w} {restart : ℕ → Bool}

theorem mod_succ_eq (k turn : ℕ) : (k + 1) % turn = (k % turn + 1) % turn := by
  have hparts : k + 1 = k % turn + 1 + turn * (k / turn) := by
    have hk := Nat.mod_add_div k turn
    omega
  rw [hparts, Nat.add_mul_mod_self_left]

theorem mod_succ {k : ℕ} (h : (k + 1) % turn ≠ 0) : (k + 1) % turn = k % turn + 1 := by
  rw [mod_succ_eq] at h ⊢
  rcases Nat.eq_zero_or_pos turn with rfl | hpos
  · rw [Nat.mod_zero]
  · have hlt := Nat.mod_lt k hpos
    have hne : k % turn + 1 ≠ turn := by
      intro heq
      rw [heq, Nat.mod_self] at h
      exact h rfl
    exact Nat.mod_eq_of_lt (by omega)

theorem mod_succ_zero {k : ℕ} (hpos : 0 < turn) (h : (k + 1) % turn = 0) :
    k % turn + 1 = turn := by
  rw [mod_succ_eq] at h
  by_contra hne
  have hlt := Nat.mod_lt k hpos
  rw [Nat.mod_eq_of_lt (by omega)] at h
  exact Nat.succ_ne_zero _ h

/-- A counter that is restarted every `turn` clocks. -/
theorem counter_eq (hcount : ∀ t, count (t + 1) = if restart t then 0 else count t + 1)
    (hrestart : ∀ k, restart (start + k) = decide (k % turn = 0)) (k : ℕ) :
    count (start + 1 + k) = BitVec.ofNat w (k % turn) := by
  induction k with
  | zero =>
      rw [Nat.add_zero, hcount, show start = start + 0 from rfl, hrestart, Nat.zero_mod]
      rfl
  | succ k ih =>
      rw [← Nat.add_assoc, hcount, show start + 1 + k = start + (k + 1) by ring, hrestart,
        show start + (k + 1) = start + 1 + k by ring, ih]
      by_cases hzero : (k + 1) % turn = 0
      · rw [decide_eq_true hzero, if_pos rfl, hzero]
        rfl
      · rw [decide_eq_false hzero, if_neg Bool.false_ne_true, mod_succ hzero, BitVec.ofNat_add]
        rfl

theorem Ring.counter (hpos : 0 < turn) (hfits : turn ≤ 2 ^ w)
    (hcount : ∀ t, count (t + 1) = if restart t then 0 else count t + 1)
    (hrestart : ∀ k, restart (start + k) = decide (k % turn = 0)) :
    Ring turn (start + 1) count where
  period t ht := by
    obtain ⟨k, rfl⟩ := Nat.exists_eq_add_of_le ht
    rw [Nat.add_assoc, counter_eq hcount hrestart, counter_eq hcount hrestart, Nat.add_mod_right]
  distinct t k ht hk hlt := by
    obtain ⟨n, rfl⟩ := Nat.exists_eq_add_of_le ht
    rw [Nat.add_assoc, counter_eq hcount hrestart, counter_eq hcount hrestart]
    intro heq
    have hn := Nat.mod_lt n hpos
    have hnk := Nat.mod_lt (n + k) hpos
    have hnat := congrArg BitVec.toNat heq
    rw [BitVec.toNat_ofNat, BitVec.toNat_ofNat, Nat.mod_eq_of_lt (hnk.trans_le hfits),
      Nat.mod_eq_of_lt (hn.trans_le hfits)] at hnat
    have hdvd : turn ∣ k := by
      have := Nat.sub_mod_eq_zero_of_mod_eq hnat
      rw [Nat.add_sub_cancel_left] at this
      exact Nat.dvd_of_mod_eq_zero this
    exact absurd (Nat.le_of_dvd hk hdvd) (by omega)

end counter

end TurnMemory
