import Mathlib.Data.ENat.Basic
import Mbf.Lib.Clocked
import Mbf.Mms.Core

/-! # Reading the min/max/sum

The registers are read in passes: a read of the count, then four reads for each bunch.  The count is
acknowledged once the banks have been exchanged at the end of the turn, and then the words follow
(`MmsReads.Paced`).  Here is what the control does on such reads: when the banks are exchanged
(`switchEvent_iff`), and where the readout stands on each read (`phase_eq`, `readoutAddr_eq`). -/

namespace Mbf.Mms

/-! ### The reads -/

/-- The clocks of the reads, in order, and how many of them there are. -/
structure MmsReads where
  clock : ℕ → ℕ
  number : ℕ∞

namespace MmsReads

/-- The place of a read in its pass: the count is read first. -/
def place (turn n : ℕ) : ℕ := n % (4 * turn + 1)

/-- The number of the turn that begins after a read. -/
def turnAfter (r : MmsReads) (turn start n : ℕ) : ℕ := (r.clock n - start) / turn + 1

/-- The turn clock after a read. -/
def switch (r : MmsReads) (turn start n : ℕ) : ℕ := start + r.turnAfter turn start n * turn

/-- The registers are read in order, with some clocks between, and the words of a pass after the
banks have been exchanged. -/
structure Paced (r : MmsReads) (turn start : ℕ) (input : ℕ → MinMaxSumInput) : Prop where
  start_le : start ≤ r.clock 0
  gap : ∀ n, r.clock n + 9 ≤ r.clock (n + 1)
  switched : ∀ n, place turn n = 0 → r.switch turn start n + 9 ≤ r.clock (n + 1)
  countReadStrobe : ∀ t, (input t).countReadStrobe = true ↔
    ∃ n : ℕ, n < r.number ∧ place turn n = 0 ∧ t = r.clock n
  readStrobe : ∀ t, (input t).readStrobe = true ↔
    ∃ n : ℕ, n < r.number ∧ place turn n ≠ 0 ∧ t = r.clock n

end MmsReads

/-! ### Their order -/

section order
variable {r : MmsReads} {turn start : ℕ} {input : ℕ → MinMaxSumInput}

open MmsReads

theorem place_succ {n : ℕ} (h : place turn (n + 1) ≠ 0) :
    place turn (n + 1) = place turn n + 1 := TurnMemory.mod_succ h

theorem MmsReads.Paced.gap_le (h : r.Paced turn start input) {m n : ℕ} (hmn : m < n) :
    r.clock m + 9 ≤ r.clock n := by
  induction n, hmn using Nat.le_induction with
  | base => exact h.gap m
  | succ n _ ih => exact ih.trans ((Nat.le_add_right _ 9).trans (h.gap n))

theorem MmsReads.Paced.gap_mul (h : r.Paced turn start input) (m j : ℕ) :
    r.clock m + 9 * j ≤ r.clock (m + j) := by
  induction j with
  | zero => exact le_rfl
  | succ j ih =>
      have hgap := h.gap (m + j)
      rw [Nat.add_assoc] at hgap
      omega

theorem MmsReads.Paced.mono (h : r.Paced turn start input) {m n : ℕ} (hmn : m ≤ n) :
    r.clock m ≤ r.clock n := by
  rcases Nat.eq_or_lt_of_le hmn with rfl | hlt
  · exact le_rfl
  · exact (Nat.le_add_right _ 9).trans (h.gap_le hlt)

theorem MmsReads.Paced.start_le_clock (h : r.Paced turn start input) (n : ℕ) : start ≤ r.clock n :=
  h.start_le.trans (h.mono (Nat.zero_le n))

/-- Reads are on different clocks. -/
theorem MmsReads.Paced.inj (h : r.Paced turn start input) {m n : ℕ} (hmn : r.clock m = r.clock n) :
    m = n := by
  rcases Nat.lt_trichotomy m n with hlt | heq | hgt
  · exact absurd (h.gap_le hlt) (by omega)
  · exact heq
  · exact absurd (h.gap_le hgt) (by omega)

/-- The turn clock after a read is the first one. -/
theorem switch_bounds (hturn : 0 < turn) {n : ℕ} (hstart : start ≤ r.clock n) :
    r.clock n < r.switch turn start n ∧ r.switch turn start n ≤ r.clock n + turn := by
  have hdiv := Nat.div_add_mod' (r.clock n - start) turn
  have hmod := Nat.mod_lt (r.clock n - start) hturn
  rw [switch, turnAfter, Nat.succ_mul]
  omega

/-- On the clocks up to it there is no other turn clock. -/
theorem turnClock_switch (hclock : TurnClock turn start fun t => (input t).turnClock)
    (hturn : 0 < turn) {n t : ℕ} (hstart : start ≤ r.clock n) (hlow : r.clock n < t)
    (hhigh : t ≤ r.switch turn start n) :
    (input t).turnClock = decide (t = r.switch turn start n) := by
  obtain ⟨k, rfl⟩ := Nat.exists_eq_add_of_le (hstart.trans hlow.le)
  rw [show (input (start + k)).turnClock = _ from hclock k]
  congr 1
  rw [switch, turnAfter] at hhigh ⊢
  have hdiv := Nat.div_add_mod' (r.clock n - start) turn
  refine propext ⟨fun hzero => ?_, fun heq => ?_⟩
  · obtain ⟨q, rfl⟩ := Nat.dvd_of_mod_eq_zero hzero
    have hq : (r.clock n - start) / turn < q := by
      rw [Nat.div_lt_iff_lt_mul hturn, Nat.mul_comm]
      omega
    have hle := Nat.mul_le_mul_right turn hq
    rw [Nat.mul_comm turn q] at hhigh ⊢
    rw [Nat.succ_eq_add_one] at hle
    omega
  · rw [Nat.add_left_cancel heq]
    exact Nat.mul_mod_left _ _

end order

/-! ### When the banks are exchanged -/

section control
variable {a : ℕ} {r : MmsReads} {turn start : ℕ} {input : ℕ → MinMaxSumInput}

open MmsReads

/-- `switch_event` -/
def switchEvent (a : ℕ) (input : ℕ → MinMaxSumInput) (t : ℕ) : Bool :=
  (MinMaxSumCore.run a input t).bank.switchRequest && (input t).turnClock

theorem switchRequest_succ (t : ℕ) : (MinMaxSumCore.run a input (t + 1)).bank.switchRequest =
    if (input t).countReadStrobe then true
    else if switchEvent a input t then false
    else (MinMaxSumCore.run a input t).bank.switchRequest := rfl

/-- The switch is requested from the read of the count to the turn clock after it. -/
theorem switchRequest_iff (h : r.Paced turn start input) (hturn : 0 < turn)
    (hclock : TurnClock turn start fun t => (input t).turnClock) (t : ℕ) :
    (MinMaxSumCore.run a input t).bank.switchRequest = true ↔
      ∃ n : ℕ, n < r.number ∧ place turn n = 0 ∧ r.clock n < t ∧ t ≤ r.switch turn start n := by
  have hswitch := fun n => switch_bounds hturn (h.start_le_clock n)
  induction t with
  | zero => exact ⟨fun hfalse => absurd hfalse Bool.false_ne_true, fun ⟨_, _, _, hlt, _⟩ => by omega⟩
  | succ t ih =>
      rw [switchRequest_succ]
      split_ifs with hread hevent
      · -- the count is read
        obtain ⟨n, hn, hplace, rfl⟩ := (h.countReadStrobe t).mp hread
        exact ⟨fun _ => ⟨n, hn, hplace, Nat.lt_succ_self _, (hswitch n).1⟩, fun _ => rfl⟩
      · -- the turn clock has come
        obtain ⟨hrequest, hturnClock⟩ := Bool.and_eq_true_iff.mp hevent
        obtain ⟨n, hn, hplace, hlow, hhigh⟩ := ih.mp hrequest
        rw [turnClock_switch hclock hturn (h.start_le_clock n) hlow hhigh] at hturnClock
        have hlast := of_decide_eq_true hturnClock
        refine ⟨False.elim, ?_⟩
        rintro ⟨m, -, hplace', hlow', hhigh'⟩
        exfalso
        have hm := hswitch m
        have hafter := h.switched n hplace
        have hafter' := h.switched m hplace'
        rcases Nat.lt_trichotomy m n with hlt | rfl | hgt
        · have hmono := h.mono (Nat.succ_le_of_lt hlt)
          rw [Nat.succ_eq_add_one] at hmono
          omega
        · omega
        · have hmono := h.mono (Nat.succ_le_of_lt hgt)
          rw [Nat.succ_eq_add_one] at hmono
          omega
      · -- nothing happens
        refine ih.trans <| exists_congr fun n => and_congr_right fun hn =>
          and_congr_right fun hplace => ?_
        have hread' : t ≠ r.clock n := fun heq =>
          hread ((h.countReadStrobe t).mpr ⟨n, hn, hplace, heq⟩)
        constructor
        · rintro ⟨hlow, hhigh⟩
          have hne : t ≠ r.switch turn start n := by
            intro heq
            refine hevent (Bool.and_eq_true_iff.mpr ⟨ih.mpr ⟨n, hn, hplace, hlow, hhigh⟩, ?_⟩)
            rw [turnClock_switch hclock hturn (h.start_le_clock n) hlow hhigh]
            exact decide_eq_true heq
          omega
        · omega

/-- The banks are exchanged on the turn clocks after reads of the count. -/
theorem switchEvent_iff (h : r.Paced turn start input) (hturn : 0 < turn)
    (hclock : TurnClock turn start fun t => (input t).turnClock) (t : ℕ) :
    switchEvent a input t = true ↔
      ∃ n : ℕ, n < r.number ∧ place turn n = 0 ∧ t = r.switch turn start n := by
  have hswitch := fun n => switch_bounds hturn (h.start_le_clock n)
  rw [switchEvent, Bool.and_eq_true_iff, switchRequest_iff h hturn hclock]
  constructor
  · rintro ⟨⟨n, hn, hplace, hlow, hhigh⟩, hturnClock⟩
    rw [turnClock_switch hclock hturn (h.start_le_clock n) hlow hhigh] at hturnClock
    exact ⟨n, hn, hplace, of_decide_eq_true hturnClock⟩
  · rintro ⟨n, hn, hplace, rfl⟩
    refine ⟨⟨n, hn, hplace, (hswitch n).1, le_rfl⟩, ?_⟩
    rw [turnClock_switch hclock hturn (h.start_le_clock n) (hswitch n).1 le_rfl]
    exact decide_eq_true rfl

theorem lt_number {n : ℕ} (h : (n + 1 : ℕ) < r.number) : n < r.number :=
  lt_of_le_of_lt (by exact_mod_cast Nat.le_succ n) h

/-- Between two reads there is none. -/
theorem no_read (h : r.Paced turn start input) {n t : ℕ} (hlow : r.clock n < t)
    (hhigh : t < r.clock (n + 1)) :
    (input t).countReadStrobe = false ∧ (input t).readStrobe = false := by
  have hnone : ∀ m, t ≠ r.clock m := by
    rintro m rfl
    rcases Nat.lt_or_ge n m with hlt | hge
    · exact absurd (h.mono (Nat.succ_le_of_lt hlt)) (by rw [Nat.succ_eq_add_one]; omega)
    · exact absurd (h.mono hge) (by omega)
  refine ⟨Bool.eq_false_iff.mpr fun hread => ?_, Bool.eq_false_iff.mpr fun hread => ?_⟩
  · obtain ⟨m, -, -, heq⟩ := (h.countReadStrobe t).mp hread
    exact hnone m heq
  · obtain ⟨m, -, -, heq⟩ := (h.readStrobe t).mp hread
    exact hnone m heq

/-- An exchange of the banks is not where it would be in the way of a read. -/
theorem switch_order (h : r.Paced turn start input) {m n : ℕ} (hm : place turn m = 0)
    (hmn : m < n) : r.switch turn start m + 9 ≤ r.clock n :=
  (h.switched m hm).trans (h.mono hmn)

/-- The banks are exchanged on each of these clocks, and stay as they are on others. -/
theorem bankSelect_succ (h : r.Paced turn start input) (hturn : 0 < turn)
    (hclock : TurnClock turn start fun t => (input t).turnClock) (t : ℕ) :
    (MinMaxSumCore.run a input (t + 1)).bank.bankSelect =
      if switchEvent a input t then !(MinMaxSumCore.run a input t).bank.bankSelect
      else (MinMaxSumCore.run a input t).bank.bankSelect := by
  show (if (input t).countReadStrobe then _ else if switchEvent a input t then _ else _) = _
  by_cases hread : (input t).countReadStrobe = true
  · have hevent : ¬ switchEvent a input t = true := by
      intro hevent
      obtain ⟨m, -, -, hm⟩ := (h.countReadStrobe t).mp hread
      obtain ⟨n, -, hplace, hn⟩ := (switchEvent_iff h hturn hclock t).mp hevent
      have hbounds := switch_bounds hturn (h.start_le_clock n)
      rcases Nat.lt_or_ge n m with hlt | hge
      · have horder := switch_order h hplace hlt
        omega
      · have hmono := h.mono hge
        omega
    rw [if_pos hread, if_neg hevent]
  · rw [if_neg hread]

theorem countReadAck_delay (t : ℕ) :
    (MinMaxSumCore.run a input (t + 9)).bank.countReadAck = switchEvent a input t :=
  dlyline_out (fun t => (MinMaxSumCore.run a input t).bank.overflowReadout) (switchEvent a input)
    (fun _ => rfl) (Fin.last 7) t

/-! ### Where the readout stands -/

/-- The read that a row ends with. -/
def RowEnd (turn n : ℕ) : Prop := place turn n ≠ 0 ∧ place turn n % 4 = 0

theorem phase_succ (t : ℕ) : (MinMaxSumCore.run a input (t + 1)).readout.phase =
    if (input t).countReadStrobe then 0
    else if (input t).readStrobe then (MinMaxSumCore.run a input t).readout.phase + 1
    else (MinMaxSumCore.run a input t).readout.phase := rfl

theorem phase_held (h : r.Paced turn start input) {n t : ℕ} (hlow : r.clock n < t)
    (hhigh : t ≤ r.clock (n + 1)) : (MinMaxSumCore.run a input t).readout.phase =
      (MinMaxSumCore.run a input (r.clock n + 1)).readout.phase := by
  induction t, hlow using Nat.le_induction with
  | base => rfl
  | succ t hlow ih =>
      obtain ⟨hcount, hword⟩ := no_read h hlow hhigh
      rw [phase_succ, hcount, hword, if_neg Bool.false_ne_true, if_neg Bool.false_ne_true]
      exact ih (Nat.le_of_succ_le hhigh)

/-- The phase counts the words that have been read. -/
theorem phase_eq (h : r.Paced turn start input) {n : ℕ} (hn : n < r.number) {t : ℕ}
    (hlow : r.clock n < t) (hhigh : t ≤ r.clock (n + 1)) :
    (MinMaxSumCore.run a input t).readout.phase = Fin.ofNat 4 (place turn n) := by
  rw [phase_held h hlow hhigh, phase_succ]
  induction n generalizing t with
  | zero =>
      rw [(h.countReadStrobe _).mpr ⟨0, hn, Nat.zero_mod _, rfl⟩, if_pos rfl]
      rfl
  | succ n ih =>
      by_cases hplace : place turn (n + 1) = 0
      · rw [(h.countReadStrobe _).mpr ⟨n + 1, hn, hplace, rfl⟩, if_pos rfl, hplace]
        rfl
      · have hcount : (input (r.clock (n + 1))).countReadStrobe = false := by
          refine Bool.eq_false_iff.mpr fun hread => ?_
          obtain ⟨m, -, hm, heq⟩ := (h.countReadStrobe _).mp hread
          rw [h.inj heq] at hplace
          exact hplace hm
        have hbefore := lt_number hn
        have hgap := h.gap n
        have hphase := ih hbefore (show r.clock n < r.clock (n + 1) by omega) le_rfl
        rw [hcount, if_neg Bool.false_ne_true, (h.readStrobe _).mpr ⟨n + 1, hn, hplace, rfl⟩,
          if_pos rfl, phase_held h (by omega) le_rfl, phase_succ, hphase, place_succ hplace]
        exact Fin.ext (Nat.mod_add_mod _ _ _)

/-- The rows advance two clocks after the reads they end with. -/
theorem readoutStrobeO_iff (h : r.Paced turn start input) (t : ℕ) :
    (MinMaxSumCore.run a input t).readout.readoutStrobeO = true ↔
      ∃ n : ℕ, n < r.number ∧ RowEnd turn n ∧ t = r.clock n + 2 := by
  have hphase : ∀ n : ℕ, n < r.number → place turn n ≠ 0 →
      ((MinMaxSumCore.run a input (r.clock n)).readout.phase = 3 ↔ place turn n % 4 = 0) := by
    intro n hn hplace
    cases n with
    | zero => exact absurd (Nat.zero_mod _) hplace
    | succ n =>
        have hbefore := lt_number hn
        have hgap := h.gap n
        rw [phase_eq h hbefore (by omega) le_rfl, place_succ hplace, Fin.ext_iff, Fin.val_ofNat]
        show place turn n % 4 = 3 ↔ _
        omega
  match t with
  | 0 => exact ⟨fun hfalse => absurd hfalse Bool.false_ne_true, fun ⟨_, _, _, heq⟩ => by omega⟩
  | 1 => exact ⟨fun hfalse => absurd hfalse Bool.false_ne_true, fun ⟨_, _, _, heq⟩ => by omega⟩
  | t + 2 =>
      show (decide ((MinMaxSumCore.run a input t).readout.phase = 3) && (input t).readStrobe) =
        true ↔ _
      rw [Bool.and_eq_true_iff, decide_eq_true_iff, h.readStrobe]
      constructor
      · rintro ⟨hthree, n, hn, hplace, rfl⟩
        exact ⟨n, hn, ⟨hplace, (hphase n hn hplace).mp hthree⟩, rfl⟩
      · rintro ⟨n, hn, ⟨hplace, hend⟩, heq⟩
        obtain rfl : t = r.clock n := by omega
        exact ⟨(hphase n hn hplace).mpr hend, n, hn, hplace, rfl⟩

theorem run_store (input : ℕ → MinMaxSumInput) :
    MinMaxSumStore.IsRun (fun t => (MinMaxSumCore.run a input t).store)
      (fun t => (MinMaxSumCore.run a input t).bank.bankSelect)
      (fun t => (MinMaxSumCore.run a input t).bank.updateAddr)
      (fun t => (MinMaxSumCore.run a input t).update.mmsO)
      (fun t => (MinMaxSumCore.run a input t).readout.readoutStrobeO)
      (fun t => (MinMaxSumCore.run a input t).bank.readoutAddr) := fun _ => rfl

theorem busy_succ (t : ℕ) : (MinMaxSumCore.run a input (t + 1)).readout.busy =
    if decide ((MinMaxSumCore.run a input t).readout.phase = 3) && (input t).readStrobe then true
    else if (MinMaxSumCore.run a input t).store.readoutAckO then false
    else (MinMaxSumCore.run a input t).readout.busy := rfl

/-- The readout is busy for some clocks after the end of a row only. -/
theorem busy_cases (h : r.Paced turn start input) {t : ℕ}
    (hbusy : (MinMaxSumCore.run a input t).readout.busy = true) :
    ∃ n : ℕ, n < r.number ∧ RowEnd turn n ∧ r.clock n < t ∧ t ≤ r.clock n + 8 := by
  induction t with
  | zero => exact absurd hbusy Bool.false_ne_true
  | succ t ih =>
      rw [busy_succ] at hbusy
      split_ifs at hbusy with hstrobe hack
      · obtain ⟨n, hn, hend, heq⟩ := (readoutStrobeO_iff (a := a) h (t + 2)).mp hstrobe
        exact ⟨n, hn, hend, by omega, by omega⟩
      · obtain ⟨n, hn, hend, hlow, hhigh⟩ := ih hbusy
        refine ⟨n, hn, hend, by omega, ?_⟩
        rcases Nat.eq_or_lt_of_le hhigh with rfl | hlt
        · refine absurd ?_ hack
          rw [readoutAck_delay (run_store input) (r.clock n + 2)]
          exact (readoutStrobeO_iff h _).mpr ⟨n, hn, hend, rfl⟩
        · exact hlt

/-- No read finds the readout busy. -/
theorem not_busy (h : r.Paced turn start input) (n : ℕ) :
    (MinMaxSumCore.run a input (r.clock n)).readout.busy = false := by
  refine Bool.eq_false_iff.mpr fun hbusy => ?_
  obtain ⟨m, -, -, hlow, hhigh⟩ := busy_cases h hbusy
  rcases Nat.lt_or_ge m n with hlt | hge
  · have hgap := h.gap_le hlt
    omega
  · have hmono := h.mono hge
    omega

theorem not_readRequest (h : r.Paced turn start input) (t : ℕ) :
    (MinMaxSumCore.run a input t).readout.readRequest = false := by
  induction t with
  | zero => rfl
  | succ t ih =>
      show (if (MinMaxSumCore.run a input t).readout.busy && (input t).readStrobe then true
        else if !(MinMaxSumCore.run a input t).readout.busy then false
        else (MinMaxSumCore.run a input t).readout.readRequest) = false
      by_cases hread : (input t).readStrobe = true
      · obtain ⟨n, -, -, rfl⟩ := (h.readStrobe t).mp hread
        rw [not_busy h n]
        rfl
      · rw [Bool.eq_false_iff.mpr hread, Bool.and_false, if_neg Bool.false_ne_true, ih, ite_self]

/-- Each word is acknowledged on the next clock, and nothing else is. -/
theorem readAckO_eq (h : r.Paced turn start input) (t : ℕ) :
    (MinMaxSumCore.run a input (t + 1)).readout.readAckO = (input t).readStrobe := by
  show (!(MinMaxSumCore.run a input t).readout.busy &&
    ((input t).readStrobe || (MinMaxSumCore.run a input t).readout.readRequest)) = _
  rw [not_readRequest h, Bool.or_false]
  by_cases hread : (input t).readStrobe = true
  · obtain ⟨n, -, -, rfl⟩ := (h.readStrobe t).mp hread
    rw [not_busy h n]
    rfl
  · rw [Bool.eq_false_iff.mpr hread, Bool.and_false]

/-! ### The row that is read out -/

/-- From when on the readout address is that of the row of the next word. -/
def MmsReads.settled (r : MmsReads) (turn start n : ℕ) : ℕ :=
  if place turn n = 0 then r.switch turn start n + 1 else r.clock n + 3

theorem readoutAddr_succ (t : ℕ) : (MinMaxSumCore.run a input (t + 1)).bank.readoutAddr =
    if switchEvent a input t then 0
    else if (MinMaxSumCore.run a input t).readout.readoutStrobeO then
      (MinMaxSumCore.run a input t).bank.readoutAddr + 1
    else (MinMaxSumCore.run a input t).bank.readoutAddr := rfl

theorem clock_lt_settled (h : r.Paced turn start input) (hturn : 0 < turn) (n : ℕ) :
    r.clock n < r.settled turn start n := by
  have hbounds := switch_bounds hturn (h.start_le_clock n)
  unfold settled
  split_ifs <;> omega

/-- It settles before the next word is read. -/
theorem settled_le (h : r.Paced turn start input) (n : ℕ) :
    r.settled turn start n + 6 ≤ r.clock (n + 1) := by
  unfold settled
  split_ifs with hplace
  · exact (Nat.add_le_add_left (show 1 + 6 ≤ 9 by decide) _).trans (h.switched n hplace)
  · exact h.gap n

/-- While it is settled nothing advances it. -/
theorem settled_quiet (h : r.Paced turn start input) (hturn : 0 < turn)
    (hclock : TurnClock turn start fun t => (input t).turnClock) {n t : ℕ}
    (hlow : r.settled turn start n ≤ t)
    (hhigh : t < r.clock (n + 1) ∨ place turn (n + 1) ≠ 0 ∧ t < r.clock (n + 1) + 2) :
    switchEvent a input t = false ∧
      (MinMaxSumCore.run a input t).readout.readoutStrobeO = false := by
  have hbounds := fun m => switch_bounds hturn (h.start_le_clock m)
  have hsettled := clock_lt_settled h hturn n
  refine ⟨Bool.eq_false_iff.mpr fun hevent => ?_, Bool.eq_false_iff.mpr fun hstrobe => ?_⟩
  · obtain ⟨m, -, hplace, rfl⟩ := (switchEvent_iff h hturn hclock t).mp hevent
    have hm := hbounds m
    rcases Nat.lt_trichotomy m n with hlt | rfl | hgt
    · have horder := switch_order h hplace hlt
      omega
    · rw [settled, if_pos hplace] at hlow
      omega
    · rcases Nat.eq_or_lt_of_le (Nat.succ_le_of_lt hgt) with rfl | hlater
      · rcases hhigh with hless | ⟨hnext, -⟩
        · rw [Nat.succ_eq_add_one] at hm hless
          omega
        · exact hnext hplace
      · have hgap := h.gap_le hlater
        rw [Nat.succ_eq_add_one] at hgap
        omega
  · obtain ⟨m, -, ⟨hplace, -⟩, rfl⟩ := (readoutStrobeO_iff h t).mp hstrobe
    rcases Nat.lt_trichotomy m n with hlt | rfl | hgt
    · have hgap := h.gap_le hlt
      omega
    · rw [settled, if_neg hplace] at hlow
      omega
    · have hmono := h.mono (Nat.succ_le_of_lt hgt)
      rw [Nat.succ_eq_add_one] at hmono
      omega

theorem readoutAddr_held (h : r.Paced turn start input) (hturn : 0 < turn)
    (hclock : TurnClock turn start fun t => (input t).turnClock) {n t : ℕ}
    (hlow : r.settled turn start n ≤ t)
    (hhigh : t ≤ r.clock (n + 1) ∨ place turn (n + 1) ≠ 0 ∧ t ≤ r.clock (n + 1) + 2) :
    (MinMaxSumCore.run a input t).bank.readoutAddr =
      (MinMaxSumCore.run a input (r.settled turn start n)).bank.readoutAddr := by
  induction t, hlow using Nat.le_induction with
  | base => rfl
  | succ t hlow ih =>
      obtain ⟨hevent, hstrobe⟩ := settled_quiet (a := a) h hturn hclock hlow
        (hhigh.imp Nat.lt_of_succ_le fun hnext => ⟨hnext.1, Nat.lt_of_succ_le hnext.2⟩)
      rw [readoutAddr_succ, hevent, hstrobe, if_neg Bool.false_ne_true, if_neg Bool.false_ne_true]
      exact ih (hhigh.imp Nat.le_of_succ_le fun hnext => ⟨hnext.1, Nat.le_of_succ_le hnext.2⟩)

/-- The banks are not exchanged after a word. -/
theorem no_switch (h : r.Paced turn start input) (hturn : 0 < turn)
    (hclock : TurnClock turn start fun t => (input t).turnClock) {n t : ℕ}
    (hplace : place turn n ≠ 0) (hlow : r.clock n ≤ t) (hhigh : t < r.clock (n + 1)) :
    switchEvent a input t = false := by
  refine Bool.eq_false_iff.mpr fun hevent => ?_
  obtain ⟨m, -, hzero, rfl⟩ := (switchEvent_iff h hturn hclock t).mp hevent
  have hbounds := switch_bounds hturn (h.start_le_clock m)
  rcases Nat.lt_trichotomy m n with hlt | rfl | hgt
  · have horder := switch_order h hzero hlt
    omega
  · exact hplace hzero
  · have hmono := h.mono (Nat.succ_le_of_lt hgt)
    rw [Nat.succ_eq_add_one] at hmono
    omega

/-- The readout address is that of the row of the next word. -/
theorem readoutAddr_eq (h : r.Paced turn start input) (hturn : 0 < turn)
    (hclock : TurnClock turn start fun t => (input t).turnClock) {n : ℕ} (hn : n < r.number)
    {t : ℕ} (hlow : r.settled turn start n ≤ t)
    (hhigh : t ≤ r.clock (n + 1) ∨ place turn (n + 1) ≠ 0 ∧ t ≤ r.clock (n + 1) + 2) :
    (MinMaxSumCore.run a input t).bank.readoutAddr = BitVec.ofNat a (place turn n / 4) := by
  rw [readoutAddr_held h hturn hclock hlow hhigh]
  clear hlow hhigh
  induction n with
  | zero =>
      have hplace : place turn 0 = 0 := Nat.zero_mod _
      rw [settled, if_pos hplace, readoutAddr_succ,
        (switchEvent_iff h hturn hclock _).mpr ⟨0, hn, hplace, rfl⟩, if_pos rfl, hplace]
      rfl
  | succ n ih =>
      by_cases hplace : place turn (n + 1) = 0
      · rw [settled, if_pos hplace, readoutAddr_succ,
          (switchEvent_iff h hturn hclock _).mpr ⟨n + 1, hn, hplace, rfl⟩, if_pos rfl, hplace]
        rfl
      · have hsettled := settled_le h n
        have hgap := h.gap (n + 1)
        have hbefore := readoutAddr_held (a := a) h hturn hclock
          (show r.settled turn start n ≤ r.clock (n + 1) + 2 by omega) (.inr ⟨hplace, le_rfl⟩)
        have hstrobe := readoutStrobeO_iff (a := a) h (r.clock (n + 1) + 2)
        rw [settled, if_neg hplace, readoutAddr_succ,
          no_switch h hturn hclock hplace (Nat.le_add_right _ 2) (by omega),
          if_neg Bool.false_ne_true, hbefore, ih (lt_number hn), place_succ hplace]
        have hplace' := place_succ hplace
        split_ifs with hadvance
        · -- the row has come to its end
          obtain ⟨m, -, ⟨-, hend⟩, heq⟩ := hstrobe.mp hadvance
          rw [← h.inj (Nat.add_right_cancel heq)] at hend
          rw [show (place turn n + 1) / 4 = place turn n / 4 + 1 by omega, BitVec.ofNat_add]
          rfl
        · have hend : ¬ place turn (n + 1) % 4 = 0 := fun hend =>
            hadvance (hstrobe.mpr ⟨n + 1, hn, ⟨hplace, hend⟩, rfl⟩)
          rw [show (place turn n + 1) / 4 = place turn n / 4 by omega]

end control

end Mbf.Mms
