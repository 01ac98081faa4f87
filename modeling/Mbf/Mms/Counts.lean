import Mbf.Lib.Signed
import Mbf.Mms.Accumulate
import Mbf.Mms.Rows

/-! # The count that is read

With the exchange of the banks the number of turns is read, and whether it or one of the sums has
wrapped (`mms_count`).  The overflow flags come too late for the last two bunches of a turn: these
are told with the next count (`flag_iff`).

And what `read_mms` returns for each bunch is the minimum, the maximum and the sums of its samples
(`mms_rows`). -/

namespace Mbf.Mms

open MmsReads

section counts
variable {a : ℕ} {r : MmsReads} {turn start : ℕ} {input : ℕ → MinMaxSumInput}

/-! ### Turns -/

theorem frameCount_succ (t : ℕ) : (MinMaxSumCore.run a input (t + 1)).bank.frameCount =
    if (input t).turnClock then
      if (MinMaxSumCore.run a input t).bank.switchRequest then 0
      else (MinMaxSumCore.run a input t).bank.frameCount + 1
    else (MinMaxSumCore.run a input t).bank.frameCount := rfl

theorem frameCountOverflow_succ (t : ℕ) :
    (MinMaxSumCore.run a input (t + 1)).bank.frameCountOverflow =
      if (input t).turnClock then
        if (MinMaxSumCore.run a input t).bank.switchRequest then false
        else (MinMaxSumCore.run a input t).bank.frameCountOverflow
      else if (MinMaxSumCore.run a input t).bank.frameCount.getLsbD 29 then true
      else (MinMaxSumCore.run a input t).bank.frameCountOverflow := rfl

/-- The turn clock counts from the exchange. -/
theorem turnClock_exchange (hclock : TurnClock turn start fun t => (input t).turnClock) (k j : ℕ) :
    (input (r.exchange turn start k + j)).turnClock = decide (j % turn = 0) := by
  have hcount := hclock (r.turnAfter turn start (first turn k) * turn + j)
  rw [Nat.mul_comm, Nat.mul_add_mod, Nat.mul_comm, ← Nat.add_assoc] at hcount
  exact hcount

/-- The frame count is that of the turns, and the flag is set after the first clock of a turn that
is one too many. -/
theorem frameCount_eq (h : r.Paced turn start input) (hturn : 1 < turn)
    (hclock : TurnClock turn start fun t => (input t).turnClock) {k j : ℕ}
    (hk : first turn k < r.number) (hj : j < r.turns turn start k * turn) :
    (MinMaxSumCore.run a input (r.exchange turn start k + 1 + j)).bank.frameCount =
        BitVec.ofNat 30 (j / turn) ∧
      (MinMaxSumCore.run a input (r.exchange turn start k + 1 + j)).bank.frameCountOverflow =
        decide (2 ^ 29 + (if j % turn = 0 then 1 else 0) ≤ j / turn) := by
  have hturn' : 0 < turn := by omega
  induction j with
  | zero =>
      have hrequest := Bool.and_eq_true_iff.mp (exchange_event (a := a) h hturn' hclock hk)
      rw [Nat.add_zero, frameCount_succ, frameCountOverflow_succ, hrequest.1, hrequest.2, if_pos rfl,
        if_pos rfl, if_pos rfl, if_pos rfl, Nat.zero_div]
      exact ⟨rfl, (decide_eq_false (by omega)).symm⟩
  | succ j ih =>
      obtain ⟨hcount, hflag⟩ := ih (by omega)
      have hevent := no_exchange (a := a) h hturn' hclock (k := k)
        (show r.exchange turn start k < r.exchange turn start k + 1 + j by omega)
        (by rw [exchange_succ h]; omega)
      have hturnClock := turnClock_exchange (r := r) hclock k (1 + j)
      rw [← Nat.add_assoc] at hturnClock
      rw [← Nat.add_assoc (_ + 1) j 1, frameCount_succ, frameCountOverflow_succ, hturnClock]
      rw [Nat.succ_div]
      by_cases hzero : (j + 1) % turn = 0
      · -- a turn is over
        have hlast := TurnMemory.mod_succ_zero hturn' hzero
        have hcomes : (input (r.exchange turn start k + 1 + j)).turnClock = true := by
          rw [hturnClock, Nat.add_comm 1 j]
          exact decide_eq_true hzero
        have hrequest :
            (MinMaxSumCore.run a input (r.exchange turn start k + 1 + j)).bank.switchRequest =
              false := by
          rw [switchEvent, hcomes, Bool.and_true] at hevent
          exact hevent
        rw [Nat.add_comm 1 j, decide_eq_true hzero, if_pos rfl, if_pos rfl, hrequest,
          if_neg Bool.false_ne_true, if_neg Bool.false_ne_true, hcount, hflag,
          if_neg (show j % turn ≠ 0 by omega), if_pos hzero,
          if_pos (Nat.dvd_of_mod_eq_zero hzero), BitVec.ofNat_add]
        refine ⟨rfl, decide_eq_decide.mpr ?_⟩
        omega
      · have hnext := TurnMemory.mod_succ hzero
        rw [Nat.add_comm 1 j, decide_eq_false hzero, if_neg Bool.false_ne_true,
          if_neg Bool.false_ne_true, hcount, hflag, if_neg hzero,
          if_neg (mt Nat.mod_eq_zero_of_dvd hzero), BitVec.getLsbD_ofNat,
          Nat.testBit_eq_decide_div_mod_eq]
        refine ⟨rfl, ?_⟩
        generalize j / turn = q
        by_cases hbit : q / 2 ^ 29 % 2 = 1
        · rw [decide_eq_true hbit, Bool.and_true, if_pos (by decide)]
          exact (decide_eq_true (by omega)).symm
        · rw [decide_eq_false hbit, Bool.and_false, if_neg Bool.false_ne_true]
          refine decide_eq_decide.mpr ?_
          split_ifs <;> omega

theorem turns_succ (t : ℕ) : (MinMaxSumCore.run a input (t + 1)).bank.turns =
    if switchEvent a input t then (MinMaxSumCore.run a input t).bank.frameCount.setWidth 29
    else (MinMaxSumCore.run a input t).bank.turns := rfl

theorem turnsOvfl_succ (t : ℕ) : (MinMaxSumCore.run a input (t + 1)).bank.turnsOvfl =
    if switchEvent a input t then (MinMaxSumCore.run a input t).bank.frameCountOverflow
    else (MinMaxSumCore.run a input t).bank.turnsOvfl := rfl

theorem turns_pos (h : r.Paced turn start input) (hturn : 0 < turn) (k : ℕ) :
    0 < r.turns turn start k := by
  have hless := exchange_lt_succ h hturn k
  rw [exchange_succ h] at hless
  by_contra hzero
  rw [Nat.eq_zero_of_not_pos hzero, Nat.zero_mul] at hless
  omega

/-- With the exchange the number of turns is read, less one. -/
theorem turns_read (h : r.Paced turn start input) (hturn : 1 < turn)
    (hclock : TurnClock turn start fun t => (input t).turnClock) {k : ℕ}
    (hk : first turn (k + 1) < r.number) {n : ℕ} (hn : n ≤ 8) :
    (MinMaxSumCore.run a input (r.exchange turn start (k + 1) + 1 + n)).bank.turns =
        BitVec.ofNat 29 (r.turns turn start k - 1) ∧
      (MinMaxSumCore.run a input (r.exchange turn start (k + 1) + 1 + n)).bank.turnsOvfl =
        decide (2 ^ 29 ≤ r.turns turn start k - 1) := by
  have hturn' : 0 < turn := by omega
  induction n with
  | zero =>
      have hpos := turns_pos h hturn' k
      obtain ⟨m, hm⟩ := Nat.exists_eq_add_of_lt hpos
      have hlast : r.exchange turn start (k + 1) =
          r.exchange turn start k + 1 + (m * turn + (turn - 1)) := by
        rw [exchange_succ h, hm, Nat.zero_add, Nat.succ_mul]
        omega
      obtain ⟨hcount, hflag⟩ := frameCount_eq (a := a) h hturn hclock (k := k)
        (j := m * turn + (turn - 1)) (first_lt hk) (by rw [hm, Nat.zero_add, Nat.succ_mul]; omega)
      have hdiv : (m * turn + (turn - 1)) / turn = m := by
        rw [Nat.mul_comm, Nat.mul_add_div hturn', Nat.div_eq_of_lt (by omega), Nat.add_zero]
      have hmod : (m * turn + (turn - 1)) % turn = turn - 1 := by
        rw [Nat.mul_comm, Nat.mul_add_mod, Nat.mod_eq_of_lt (by omega)]
      rw [hdiv, ← hlast] at hcount
      rw [hdiv, hmod, if_neg (by omega), ← hlast] at hflag
      rw [Nat.add_zero, turns_succ, turnsOvfl_succ, exchange_event h hturn' hclock hk, if_pos rfl,
        if_pos rfl, hcount, hflag, hm, BitVec.setWidth_ofNat_of_le (by decide)]
      exact ⟨congrArg _ (by omega), decide_eq_decide.mpr (by omega)⟩
  | succ n ih =>
      have hnext := exchange_lt_succ h hturn' (k + 1)
      rw [← Nat.add_assoc, turns_succ, turnsOvfl_succ,
        no_exchange h hturn' hclock (k := k + 1) (by omega) (by omega), if_neg Bool.false_ne_true,
        if_neg Bool.false_ne_true]
      exact ih (by omega)

/-! ### Overflow flags -/

/-- A flag that is read out and then starts anew has been set meanwhile. -/
theorem latch_iff {flag clear set : ℕ → Bool}
    (hflag : ∀ t, flag (t + 1) = if clear t then set t else flag t || set t) {s n : ℕ}
    (hclear : clear s = true) (hnone : ∀ k < n, clear (s + 1 + k) = false) :
    flag (s + 1 + n) = true ↔ ∃ k ≤ n, set (s + k) = true := by
  induction n with
  | zero =>
      rw [Nat.add_zero, hflag, hclear, if_pos rfl]
      constructor
      · exact fun h => ⟨0, le_rfl, h⟩
      · rintro ⟨k, hk, h⟩
        rw [Nat.le_zero.mp hk] at h
        exact h
  | succ n ih =>
      rw [← Nat.add_assoc, hflag, hnone n (Nat.lt_succ_self n), if_neg Bool.false_ne_true,
        Bool.or_eq_true_iff, ih fun k hk => hnone k (Nat.lt_succ_of_lt hk), Nat.add_assoc s 1 n,
        Nat.add_comm 1 n]
      constructor
      · rintro (⟨k, hk, h⟩ | h)
        · exact ⟨k, Nat.le_succ_of_le hk, h⟩
        · exact ⟨n + 1, le_rfl, h⟩
      · rintro ⟨k, hk, h⟩
        rcases Nat.eq_or_lt_of_le hk with rfl | hlt
        · exact .inr h
        · exact .inl ⟨k, Nat.le_of_lt_succ hlt, h⟩

/-- The row that a sample goes to, before it does. -/
theorem row_before (h : r.Paced turn start input) (hturn : 9 ≤ turn) (hfits : turn ≤ 2 ^ a)
    (hclock : TurnClock turn start fun t => (input t).turnClock) {k b m : ℕ}
    (hk : first turn (k + 2) < r.number) (hb : b < turn) (hm : m < r.turns turn start (k + 1)) :
    (MinMaxSumCore.run a input
        (r.exchange turn start (k + 1) + 1 + m * turn + b + 6)).store.updateDataO =
      rowOf ((r.samples turn start input (k + 1) b).take m) := by
  have hturn' : 0 < turn := by omega
  have hstart := start_le_exchange h hturn' k
  have hnext : r.exchange turn start (k + 2) =
      r.exchange turn start (k + 1) + r.turns turn start (k + 1) * turn := exchange_succ h (k + 1)
  have hmul := Nat.mul_le_mul_right turn (Nat.succ_le_of_lt hm)
  rw [Nat.succ_mul] at hmul
  obtain ⟨v, hv⟩ := Nat.exists_eq_add_of_le'
    (show 8 ≤ r.exchange turn start (k + 1) + 1 + m * turn + b by omega)
  have hselect : ∀ l ≤ b, (MinMaxSumCore.run a input
      (r.exchange turn start (k + 1) + 1 + m * turn + l)).bank.bankSelect =
        (MinMaxSumCore.run a input (r.exchange turn start (k + 2))).bank.bankSelect := fun l hl =>
    bankSelect_before h hturn' hclock (first_lt hk) (by omega)
      (by rw [show k + 1 + 1 = k + 2 from rfl, hnext]; omega)
  have haddr : ∀ l ≤ b, (MinMaxSumCore.run a input
      (r.exchange turn start (k + 1) + 1 + m * turn + l)).bank.updateAddr = BitVec.ofNat a l := by
    intro l hl
    have hcount := updateAddr_eq a hclock (r.turnAfter turn start (first turn (k + 1)) * turn +
      m * turn + l)
    rw [← Nat.add_mul, Nat.mul_comm, Nat.mul_add_mod, Nat.mod_eq_of_lt (by omega)] at hcount
    rw [← hcount, exchange, switch]
    congr 3
    ring
  have hread := (rows_pipelined a input (start + 1)).read_eq (updateAddr_ring a hturn' hfits hclock)
    hturn (fun t _ _ hk => reset_quiet h hturn' hclock t hk) (t := v) (by omega) rfl
  have hheld := (rows_runs h hturn hfits hclock).held
    (i := (MinMaxSumCore.run a input (r.exchange turn start (k + 2))).bank.bankSelect)
    (a := BitVec.ofNat a b) (s := r.exchange turn start (k + 1) + 1 + m * turn) (n := b) (by omega)
    (fun l hl _ heq => by
      rw [haddr l hl.le] at heq
      have hsame := congrArg BitVec.toNat heq
      rw [BitVec.toNat_ofNat, BitVec.toNat_ofNat, Nat.mod_eq_of_lt (by omega),
        Nat.mod_eq_of_lt (by omega)] at hsame
      omega)
    fun l hl hne => absurd (hselect l hl.le) hne
  rw [hv, Nat.add_assoc v 8 6, updateDataO_eq, ← hv, hselect b le_rfl, haddr b le_rfl,
    ← rows_upto h hturn hfits hclock hk hb hm.le, ← hheld, hv]
  beta_reduce at hread
  rw [← hv, haddr b le_rfl, hselect b le_rfl, hv] at hread
  exact hread.symm

/-- Adding a sample to the row of its bunch goes wrong, on turn `m` after the exchange in a pass. -/
def MmsReads.Wrong (r : MmsReads) (turn start : ℕ) (input : ℕ → MinMaxSumInput)
    (wraps : MmsRow → BitVec 16 → Prop) (k m b : ℕ) : Prop :=
  wraps (rowOf ((r.samples turn start input k b).take m))
    (sampleAt input (r.exchange turn start k + 1 + m * turn + b))

/-- What an overflow flag tells: the last two bunches are told with the next count. -/
def MmsReads.Told (r : MmsReads) (turn start : ℕ) (input : ℕ → MinMaxSumInput)
    (wraps : MmsRow → BitVec 16 → Prop) (k : ℕ) : Prop :=
  (∃ m < r.turns turn start (k + 1), ∃ b < turn,
      (m + 1 = r.turns turn start (k + 1) → b + 2 < turn) ∧
        r.Wrong turn start input wraps (k + 1) m b) ∨
    ∃ b < turn, turn ≤ b + 2 ∧ r.Wrong turn start input wraps k (r.turns turn start k - 1) b

theorem overflowReadout_delay (t : ℕ) :
    (MinMaxSumCore.run a input (t + 8)).bank.overflowReadout (Fin.last 7) =
      switchEvent a input t :=
  dlyline_out (fun t => (MinMaxSumCore.run a input t).bank.overflowReadout) (switchEvent a input)
    (fun _ => rfl) (Fin.last 7) t

/-- The flags that are read, for either of the sums. -/
theorem flag_iff (h : r.Paced turn start input) (hturn : 9 ≤ turn) (hfits : turn ≤ 2 ^ a)
    (hclock : TurnClock turn start fun t => (input t).turnClock)
    {wraps : MmsRow → BitVec 16 → Prop} (flag latch : ℕ → Bool) {set : ℕ → Bool}
    (hset : ∀ t, set (t + 9) = true ↔
      wraps (MinMaxSumCore.run a input (t + 6)).store.updateDataO (sampleAt input t))
    (hlatch : ∀ t, latch (t + 1) =
      if (MinMaxSumCore.run a input t).bank.overflowReadout (Fin.last 7) then set t
      else latch t || set t)
    (hflag : ∀ t, flag (t + 1) =
      if (MinMaxSumCore.run a input t).bank.overflowReadout (Fin.last 7) then latch t else flag t)
    {k : ℕ} (hk : first turn (k + 3) < r.number) :
    flag (r.exchange turn start (k + 3) + 9) = true ↔ r.Told turn start input wraps (k + 1) := by
  have hturn' : 0 < turn := by omega
  have hnext : r.exchange turn start (k + 3) =
      r.exchange turn start (k + 2) + r.turns turn start (k + 2) * turn := exchange_succ h (k + 2)
  have hbefore : r.exchange turn start (k + 2) =
      r.exchange turn start (k + 1) + r.turns turn start (k + 1) * turn := exchange_succ h (k + 1)
  have hpos := turns_pos h hturn' (k + 1)
  have hpos' := turns_pos h hturn' (k + 2)
  have hlast := Nat.mul_le_mul_right turn hpos
  have hlast' := Nat.mul_le_mul_right turn hpos'
  rw [Nat.succ_mul] at hlast hlast'
  -- what is set for a sample
  have hwrong : ∀ {j m b}, first turn (j + 2) < r.number → b < turn →
      m < r.turns turn start (j + 1) →
      (set (r.exchange turn start (j + 1) + 1 + m * turn + b + 9) = true ↔
        r.Wrong turn start input wraps (j + 1) m b) := by
    intro j m b hj hb hm
    rw [hset, row_before h hturn hfits hclock hj hb hm]
    rfl
  have hread : (MinMaxSumCore.run a input (r.exchange turn start (k + 3) + 8)).bank.overflowReadout
      (Fin.last 7) = true := by
    rw [overflowReadout_delay]
    exact exchange_event h hturn' hclock hk
  have hstart : (MinMaxSumCore.run a input (r.exchange turn start (k + 2) + 8)).bank.overflowReadout
      (Fin.last 7) = true := by
    rw [overflowReadout_delay]
    exact exchange_event h hturn' hclock (first_lt hk)
  have hlatched := latch_iff hlatch hstart (n := r.turns turn start (k + 2) * turn - 1)
    fun l hl => by
      rw [show r.exchange turn start (k + 2) + 8 + 1 + l = r.exchange turn start (k + 2) + 1 + l + 8
        by ring, overflowReadout_delay]
      refine no_exchange h hturn' hclock (k := k + 2) (by omega) ?_
      rw [show k + 2 + 1 = k + 3 from rfl, hnext]
      omega
  rw [show r.exchange turn start (k + 2) + 8 + 1 + (r.turns turn start (k + 2) * turn - 1) =
    r.exchange turn start (k + 3) + 8 by omega] at hlatched
  rw [hflag, hread, if_pos rfl, hlatched]
  constructor
  · rintro ⟨l, hl, hsets⟩
    rcases Nat.lt_or_ge l 2 with hless | hmore
    · -- the last bunches of the turn before
      refine .inr ⟨turn - 2 + l, by omega, by omega,
        (hwrong (first_lt hk) (by omega) (Nat.sub_lt hpos Nat.one_pos)).mp ?_⟩
      rw [Nat.sub_mul, Nat.one_mul]
      rw [hbefore] at hsets
      convert hsets using 2
      omega
    · obtain ⟨j, rfl⟩ := Nat.exists_eq_add_of_le hmore
      have hdiv := Nat.div_add_mod' j turn
      have hmod := Nat.mod_lt j hturn'
      have hm : j / turn < r.turns turn start (k + 2) := by
        rw [Nat.div_lt_iff_lt_mul hturn']
        omega
      refine .inl ⟨j / turn, hm, j % turn, hmod, fun hend => ?_, (hwrong hk hmod hm).mp ?_⟩
      · change j / turn + 1 = r.turns turn start (k + 2) at hend
        rw [← hend, Nat.succ_mul] at hl
        omega
      · show set (r.exchange turn start (k + 2) + 1 + j / turn * turn + j % turn + 9) = true
        convert hsets using 2
        omega
  · rintro (⟨m, hm, b, hb, hend, hsets⟩ | ⟨b, hb, hlow, hsets⟩)
    · have hmul := Nat.mul_le_mul_right turn (Nat.succ_le_of_lt hm)
      rw [Nat.succ_mul] at hmul
      refine ⟨m * turn + b + 2, ?_, ?_⟩
      · change m * turn + turn ≤ r.turns turn start (k + 2) * turn at hmul
        rcases Nat.eq_or_lt_of_le (Nat.succ_le_of_lt hm) with heq | hlt
        · have hless := hend heq
          omega
        · have hmore := Nat.mul_le_mul_right turn (Nat.succ_le_of_lt hlt)
          rw [Nat.succ_mul, Nat.succ_mul] at hmore
          change m * turn + turn + turn ≤ r.turns turn start (k + 2) * turn at hmore
          omega
      · have hset' := (hwrong hk hb hm).mpr hsets
        convert hset' using 2
        ring
    · refine ⟨b + 2 - turn, by omega, ?_⟩
      have hset' := (hwrong (first_lt hk) hb (Nat.sub_lt hpos Nat.one_pos)).mpr hsets
      rw [Nat.sub_mul, Nat.one_mul] at hset'
      rw [hbefore]
      convert hset' using 2
      omega

/-! ### Reads at a steady pace -/

section steady
variable (turn start spacing : ℕ) (data : ℕ → BitVec 16)

/-- Reads without end, all as far apart. -/
def steadyReads : MmsReads := ⟨fun n => start + spacing * n, ⊤⟩

/-- What comes in with them. -/
def steadyInput (t : ℕ) : MinMaxSumInput where
  turnClock := decide ((t - start) % turn = 0)
  data := data t
  countReadStrobe := decide (start ≤ t ∧ (t - start) % spacing = 0 ∧
    place turn ((t - start) / spacing) = 0)
  readStrobe := decide (start ≤ t ∧ (t - start) % spacing = 0 ∧
    place turn ((t - start) / spacing) ≠ 0)

variable {turn start spacing}

theorem steadyReads_iff (hspacing : 0 < spacing) (P : ℕ → Prop) (t : ℕ) :
    (start ≤ t ∧ (t - start) % spacing = 0 ∧ P ((t - start) / spacing)) ↔
      ∃ n : ℕ, n < (steadyReads start spacing).number ∧ P n ∧
        t = (steadyReads start spacing).clock n := by
  constructor
  · rintro ⟨hstart, hzero, hplace⟩
    refine ⟨_, ENat.natCast_lt_top _, hplace, ?_⟩
    show t = start + spacing * ((t - start) / spacing)
    rw [Nat.mul_div_cancel' (Nat.dvd_of_mod_eq_zero hzero), Nat.add_sub_cancel' hstart]
  · rintro ⟨n, -, hplace, rfl⟩
    show start ≤ start + spacing * n ∧ (start + spacing * n - start) % spacing = 0 ∧
      P ((start + spacing * n - start) / spacing)
    rw [Nat.add_sub_cancel_left, Nat.mul_mod_right, Nat.mul_div_cancel_left n hspacing]
    exact ⟨Nat.le_add_right _ _, rfl, hplace⟩

/-- If they are more than a turn apart, they are as they have to be. -/
theorem steady_paced (hturn : 0 < turn) (hspacing : turn + 9 ≤ spacing) :
    (steadyReads start spacing).Paced turn start (steadyInput turn start spacing data) where
  start_le := Nat.le_add_right _ _
  gap n := by
    show start + spacing * n + 9 ≤ start + spacing * (n + 1)
    rw [Nat.mul_succ]
    omega
  switched n _ := by
    have hbounds := switch_bounds hturn (r := steadyReads start spacing) (n := n)
      (show start ≤ start + spacing * n from Nat.le_add_right _ _)
    change _ ∧ _ ≤ start + spacing * n + turn at hbounds
    show _ ≤ start + spacing * (n + 1)
    rw [Nat.mul_succ]
    omega
  countReadStrobe t := decide_eq_true_iff.trans
    (steadyReads_iff (by omega) (fun n => place turn n = 0) t)
  readStrobe t := decide_eq_true_iff.trans
    (steadyReads_iff (by omega) (fun n => place turn n ≠ 0) t)

end steady

/-! ### What the software reads -/

/-- The count and the words of a pass, each when it is acknowledged. -/
def readBank (a : ℕ) (r : MmsReads) (turn start : ℕ) (input : ℕ → MinMaxSumInput) (k : ℕ) :
    MmsBank :=
  let word (n : ℕ) := (MinMaxSumCore.run a input (r.clock (first turn k + n) + 1)).readout.readDataO
  { count := (MinMaxSumCore.run a input (r.exchange turn start k + 9)).bank.countReadData
    readout := fun b =>
      { minMax := word (4 * b + 1)
        sum := word (4 * b + 2)
        sum2Low := word (4 * b + 3)
        sum2High := word (4 * b + 4) } }

/-- The words of a row make up the row. -/
theorem readMms_row {bank : MmsBank} {b : ℕ} {row : MmsRow}
    (h : bank.readout b =
      ⟨readoutWord row 0, readoutWord row 1, readoutWord row 2, readoutWord row 3⟩) :
    (readMms bank).minimum b = row.min ∧ (readMms bank).maximum b = row.max ∧
      (readMms bank).sum b = row.sum ∧ (readMms bank).sum2 b = row.sum2.setWidth 64 := by
  refine ⟨?_, ?_, ?_, ?_⟩
  · show (bank.readout b).minMax.extractLsb' 0 16 = _
    rw [h]
    exact BitVec.extractLsb'_append_eq_right
  · show (bank.readout b).minMax.extractLsb' 16 16 = _
    rw [h]
    exact BitVec.extractLsb'_append_eq_left
  · show (bank.readout b).sum = _
    rw [h]
    rfl
  · show (bank.readout b).sum2Low.setWidth 64 |||
      ((bank.readout b).sum2High.extractLsb' 0 16).setWidth 64 <<< 32 = _
    rw [h]
    show (row.sum2.extractLsb' 0 32).setWidth 64 |||
      (((row.sum2.extractLsb' 32 16).setWidth 32).extractLsb' 0 16).setWidth 64 <<< 32 = _
    ext i hi
    simp only [BitVec.getElem_or, BitVec.getElem_setWidth, BitVec.getElem_shiftLeft,
      BitVec.getLsbD_extractLsb', BitVec.getLsbD_setWidth]
    grind

/-- The bits of the count. -/
theorem readMms_count {bank : MmsBank} (b : MinMaxSumBank a) (h : bank.count = b.countReadData) :
    (readMms bank).turns = b.turns.setWidth 32 + 1 ∧ (readMms bank).turnsOvfl = b.turnsOvfl ∧
      (readMms bank).sumOvfl = b.sumOvfl ∧ (readMms bank).sum2Ovfl = b.sum2Ovfl := by
  refine ⟨?_, ?_, ?_, ?_⟩
  · show (bank.count.extractLsb' 0 29).setWidth 32 + 1 = _
    rw [h, MinMaxSumBank.countReadData, BitVec.extractLsb'_append_eq_right]
  · show bank.count.getLsbD 29 = _
    rw [h, MinMaxSumBank.countReadData]
    simp only [BitVec.getLsbD_append, BitVec.getLsbD_ofBool]
    rfl
  · show bank.count.getLsbD 30 = _
    rw [h, MinMaxSumBank.countReadData]
    simp only [BitVec.getLsbD_append, BitVec.getLsbD_ofBool]
    rfl
  · show bank.count.getLsbD 31 = _
    rw [h, MinMaxSumBank.countReadData]
    simp only [BitVec.getLsbD_append, BitVec.getLsbD_ofBool]
    rfl

/-- What `read_mms` returns for the bunches, from the third pass on, is right. -/
theorem mms_rows (h : r.Paced turn start input) (hturn : 9 ≤ turn) (hfits : turn ≤ 2 ^ a)
    (hclock : TurnClock turn start fun t => (input t).turnClock) {k : ℕ}
    (hk : (first turn (k + 2) + 4 * turn : ℕ) < r.number) {b : ℕ} (hb : b < turn) :
    let result := readMms (readBank a r turn start input (k + 2))
    let samples := (r.samples turn start input (k + 1) b).map BitVec.toInt
    IsLeast {x | x ∈ samples} (result.minimum b).toInt ∧
      IsGreatest {x | x ∈ samples} (result.maximum b).toInt ∧
      result.sum b = BitVec.ofInt 32 samples.sum ∧
      result.sum2 b = (BitVec.ofInt 48 (samples.map fun x => x * x).sum).setWidth 64 ∧
      ∀ p < 4, (MinMaxSumCore.run a input
        (r.clock (first turn (k + 2) + (4 * b + p + 1)) + 1)).readout.readAckO = true := by
  have hmono : ∀ p < 4, (first turn (k + 2) + (4 * b + p + 1) : ℕ) < r.number := fun p hp =>
    lt_of_le_of_lt (by exact_mod_cast Nat.add_le_add_left (by omega) _) hk
  have hword := fun p hp => readDataO_eq h hturn hfits hclock hb hp (hmono p hp)
  have hrow : (readBank a r turn start input (k + 2)).readout b =
      let row := rowOf (r.samples turn start input (k + 1) b)
      ⟨readoutWord row 0, readoutWord row 1, readoutWord row 2, readoutWord row 3⟩ := by
    show MmsReadout.mk _ _ _ _ = MmsReadout.mk _ _ _ _
    rw [MmsReadout.mk.injEq]
    exact ⟨hword 0 (by decide), hword 1 (by decide), hword 2 (by decide), hword 3 (by decide)⟩
  have hsome : r.samples turn start input (k + 1) b ≠ [] := by
    rw [← List.length_pos_iff_ne_nil, samples_length]
    exact turns_pos h (by omega) (k + 1)
  obtain ⟨hmin, hmax, hsum, hsum2⟩ := readMms_row hrow
  obtain ⟨hleast, hgreatest, htotal, hsquares⟩ := rowOf_spec hsome
  intro result samples
  refine ⟨?_, ?_, ?_, ?_, fun p hp => ?_⟩
  · rw [show result.minimum b = _ from hmin]
    exact hleast
  · rw [show result.maximum b = _ from hmax]
    exact hgreatest
  · exact hsum.trans htotal
  · rw [show result.sum2 b = _ from hsum2, hsquares, List.map_map]
    rfl
  · rw [readAckO_eq h]
    refine (h.readStrobe _).mpr ⟨_, hmono p hp, ?_, rfl⟩
    rw [place_first (by omega)]
    exact Nat.succ_ne_zero _

theorem mms_rows_steady :
    let input := steadyInput 9 0 100 fun t => BitVec.ofNat 16 t
    IsLeast {x | x ∈ ((steadyReads 0 100).samples 9 0 input 1 3).map BitVec.toInt}
      ((readMms (readBank 4 (steadyReads 0 100) 9 0 input 2)).minimum 3).toInt :=
  (mms_rows (a := 4) (steady_paced _ (by decide) (by decide)) le_rfl (by decide)
    (turnClock_mod 9 0) (k := 0) (ENat.natCast_lt_top _) (by decide)).1

/-- So is the count, from the fourth pass on, but for the flags of the last two bunches. -/
theorem mms_count (h : r.Paced turn start input) (hturn : 9 ≤ turn) (hfits : turn ≤ 2 ^ a)
    (hclock : TurnClock turn start fun t => (input t).turnClock) {k : ℕ}
    (hk : first turn (k + 3) < r.number) :
    let result := readMms (readBank a r turn start input (k + 3))
    let turns := r.turns turn start (k + 2)
    result.turns = BitVec.ofNat 32 ((turns - 1) % 2 ^ 29 + 1) ∧
      (result.turnsOvfl = true ↔ 2 ^ 29 < turns) ∧
      (result.sumOvfl = true ↔ r.Told turn start input MmsRow.SumWraps (k + 1)) ∧
      (result.sum2Ovfl = true ↔ r.Told turn start input MmsRow.Sum2Wraps (k + 1)) ∧
      ∀ t, (MinMaxSumCore.run a input (t + 9)).bank.countReadAck = true ↔
        ∃ k, first turn k < r.number ∧ t = r.exchange turn start k := by
  intro result turns
  have hturn' : 0 < turn := by omega
  obtain ⟨hread, hreadOvfl⟩ := turns_read (a := a) h (by omega) hclock (k := k + 2) hk le_rfl
  obtain ⟨hcount, hcountOvfl, hsumOvfl, hsum2Ovfl⟩ :=
    readMms_count (MinMaxSumCore.run a input (r.exchange turn start (k + 3) + 9)).bank
      (show (readBank a r turn start input (k + 3)).count = _ from rfl)
  have hpos : 0 < turns := turns_pos h hturn' (k + 2)
  refine ⟨?_, ?_, ?_, ?_, fun t => ?_⟩
  · refine hcount.trans ?_
    rw [show (MinMaxSumCore.run a input (r.exchange turn start (k + 3) + 9)).bank.turns = _ from hread,
      BitVec.ofNat_add]
    refine congrArg (· + 1) (BitVec.eq_of_toNat_eq ?_)
    rw [BitVec.toNat_setWidth, BitVec.toNat_ofNat, BitVec.toNat_ofNat]
  · rw [show result.turnsOvfl = _ from hcountOvfl,
      show (MinMaxSumCore.run a input (r.exchange turn start (k + 3) + 9)).bank.turnsOvfl = _
        from hreadOvfl, decide_eq_true_iff]
    omega
  · rw [show result.sumOvfl = _ from hsumOvfl]
    exact flag_iff h hturn hfits hclock (fun t => (MinMaxSumCore.run a input t).bank.sumOvfl)
      (fun t => (MinMaxSumCore.run a input t).bank.sumOverflow)
      (fun t => update_sumOverflow (u := fun t => (MinMaxSumCore.run a input t).update)
        (run_update a input) (t + 5)) (fun _ => rfl) (fun _ => rfl) hk
  · rw [show result.sum2Ovfl = _ from hsum2Ovfl]
    exact flag_iff h hturn hfits hclock (fun t => (MinMaxSumCore.run a input t).bank.sum2Ovfl)
      (fun t => (MinMaxSumCore.run a input t).bank.sum2Overflow)
      (fun t => update_sum2Overflow (u := fun t => (MinMaxSumCore.run a input t).update)
        (run_update a input) (t + 5)) (fun _ => rfl) (fun _ => rfl) hk
  · rw [countReadAck_delay, switchEvent_iff h hturn' hclock]
    constructor
    · rintro ⟨n, hn, hplace, rfl⟩
      obtain ⟨j, rfl⟩ := first_of_place hplace
      exact ⟨j, hn, rfl⟩
    · rintro ⟨j, hj, rfl⟩
      exact ⟨_, hj, place_first_zero j, rfl⟩

theorem mms_count_steady :
    (readMms (readBank 4 (steadyReads 0 100) 9 0
      (steadyInput 9 0 100 fun t => BitVec.ofNat 16 t) 3)).turns = 411 :=
  (mms_count (steady_paced _ (by decide) (by decide)) le_rfl (by decide)
    (turnClock_mod 9 0) (k := 0) (ENat.natCast_lt_top _)).1

end counts

end Mbf.Mms
