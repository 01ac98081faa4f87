import Mathlib.Algebra.Order.Group.Nat

/-! # Clocked circuits

The registers of a circuit change on each clock by a function of what they hold and of the input of
that clock.  `run` gives the registers before the clock `n`.

Beside the rule for what every clock keeps there are some for what must happen: a rank that no clock
increases cannot be decreased by clocks that recur (`Recurs.not_decreasing`), what lasts meets what
recurs (`Recurs.meets`), and what keeps going up gets to its goal (`exists_goal_le`). -/

namespace Clocked

universe u v

variable {σ : Type u} {ι : Type v} {clock : ι → σ → σ} {s : σ} {i : ℕ → ι}

/-- The registers before the clock `n`, from `s` on the inputs `i`. -/
def run (clock : ι → σ → σ) (s : σ) (i : ℕ → ι) : ℕ → σ
  | 0 => s
  | n + 1 => clock (i n) (run clock s i n)

theorem run_succ (clock : ι → σ → σ) (s : σ) (i : ℕ → ι) (n : ℕ) :
    run clock s i (n + 1) = clock (i n) (run clock s i n) := rfl

/-- A run goes on from where it is. -/
theorem run_add (clock : ι → σ → σ) (s : σ) (i : ℕ → ι) (m n : ℕ) :
    run clock s i (m + n) = run clock (run clock s i m) (fun k => i (m + k)) n := by
  induction n with
  | zero => rfl
  | succ n ih => rw [← Nat.add_assoc, run_succ, run_succ, ih]

/-- What every clock keeps holds all along. -/
theorem run_invariant {P : σ → Prop} (h₀ : P s) (hclock : ∀ x r, P r → P (clock x r)) (n : ℕ) :
    P (run clock s i n) := by
  induction n with
  | zero => exact h₀
  | succ n ih => exact hclock _ _ ih

/-- What every clock of a stretch keeps holds to the end of the stretch. -/
theorem run_through {P : σ → Prop} {m n : ℕ} (hmn : m ≤ n) (h : P (run clock s i m))
    (hclock : ∀ k, m ≤ k → k < n → P (run clock s i k) → P (clock (i k) (run clock s i k))) :
    P (run clock s i n) := by
  induction n, hmn using Nat.le_induction with
  | base => exact h
  | succ n hmn ih =>
      exact hclock n hmn (Nat.lt_succ_self n) (ih fun k hk hlt => hclock k hk (by omega))

/-- What happens again and again. -/
def Recurs (p : ℕ → Prop) : Prop := ∀ n, ∃ m, n ≤ m ∧ p m

/-- A rank that never increases is not decreased again and again. -/
theorem Recurs.not_decreasing {p : ℕ → Prop} (h : Recurs p) {rank : ℕ → ℕ} {start : ℕ}
    (hle : ∀ n, start ≤ n → rank (n + 1) ≤ rank n)
    (hlt : ∀ n, start ≤ n → p n → rank (n + 1) < rank n) : False := by
  have hmono : ∀ m n, start ≤ m → m ≤ n → rank n ≤ rank m := by
    intro m n hm hmn
    induction n, hmn using Nat.le_induction with
    | base => exact le_rfl
    | succ n hmn ih => exact (hle n (hm.trans hmn)).trans ih
  have hbelow : ∀ bound n, start ≤ n → rank n < bound → False := by
    intro bound
    induction bound with
    | zero => intro n _ hn; omega
    | succ bound ih =>
        intro n hn hbound
        obtain ⟨m, hnm, hp⟩ := h n
        have hdown := hlt m (hn.trans hnm) hp
        have hrank := hmono n m hn hnm
        exact ih (m + 1) (by omega) (by omega)
  exact hbelow (rank start + 1) start le_rfl (Nat.lt_succ_self _)

/-- What lasts until it meets something that recurs does meet it. -/
theorem Recurs.meets {p q : ℕ → Prop} (h : Recurs p) {start : ℕ} (hstart : q start)
    (hlasts : ∀ n, start ≤ n → q n → ¬p n → q (n + 1)) : ∃ n, start ≤ n ∧ q n ∧ p n := by
  by_contra hnever
  have hlast : ∀ n, start ≤ n → q n := by
    intro n hn
    induction n, hn using Nat.le_induction with
    | base => exact hstart
    | succ n hn ih => exact hlasts n hn ih fun hp => hnever ⟨n, hn, ih, hp⟩
  obtain ⟨n, hn, hp⟩ := h start
  exact hnever ⟨n, hn, hlast n hn, hp⟩

/-- What is sure to go up as long as it is below a goal gets there. -/
theorem exists_goal_le {rank : ℕ → ℕ} {start goal : ℕ}
    (hup : ∀ n, start ≤ n → rank n < goal → ∃ m, n ≤ m ∧ rank n < rank m) :
    ∃ n, start ≤ n ∧ goal ≤ rank n := by
  have hreach : ∀ k ≤ goal, ∃ n, start ≤ n ∧ k ≤ rank n := by
    intro k
    induction k with
    | zero => exact fun _ => ⟨start, le_rfl, Nat.zero_le _⟩
    | succ k ih =>
        intro hk
        obtain ⟨n, hn, hrank⟩ := ih (by omega)
        rcases Nat.lt_or_ge k (rank n) with hlt | hge
        · exact ⟨n, hn, hlt⟩
        · obtain ⟨m, hnm, hm⟩ := hup n hn (by omega)
          exact ⟨m, hn.trans hnm, by omega⟩
  exact hreach goal le_rfl

end Clocked
