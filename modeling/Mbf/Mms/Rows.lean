import Mbf.Mms.Reads

/-! # The rows that are read out

While a bank is selected each of its rows takes the samples of its bunch; when it is read out each
row is reset after it has been read.  So from the third pass on what is read of a bunch is the row
of its samples since the banks were exchanged before (`readDataO_eq`). -/

namespace Mbf.Mms

open MmsReads

section rows
variable {a : ℕ} {r : MmsReads} {turn start : ℕ} {input : ℕ → MinMaxSumInput}

/-! ### The banks as a double buffer -/

/-- The rows of a bank, before the row of the update address of a clock is written. -/
def bankRows (a : ℕ) (input : ℕ → MinMaxSumInput) (i : Bool) (t : ℕ) : BitVec a → MmsRow :=
  ((MinMaxSumCore.run a input (t + 10)).store.mem i).memory

/-- The row that is reset meanwhile, if any. -/
def resetAddr (a : ℕ) (input : ℕ → MinMaxSumInput) (t : ℕ) : Option (BitVec a) :=
  if (MinMaxSumCore.run a input (t + 8)).readout.readoutStrobeO then
    some (MinMaxSumCore.run a input (t + 8)).bank.readoutAddr
  else none

/-- The sample for the update address of a clock. -/
def sampleAt (input : ℕ → MinMaxSumInput) (t : ℕ) : BitVec 16 := (input (t + 5)).data

theorem run_update (a : ℕ) (input : ℕ → MinMaxSumInput) (t : ℕ) :
    (MinMaxSumCore.run a input (t + 1)).update =
      (MinMaxSumCore.run a input t).update.clock (input t).data
        (MinMaxSumCore.run a input t).store.updateDataO := rfl

theorem updateDataO_eq (t : ℕ) : (MinMaxSumCore.run a input (t + 14)).store.updateDataO =
    bankRows a input (MinMaxSumCore.run a input (t + 8)).bank.bankSelect t
      (MinMaxSumCore.run a input (t + 8)).bank.updateAddr :=
  store_updateDataO (run_store input) (t + 8)

theorem rows_pipelined (a : ℕ) (input : ℕ → MinMaxSumInput) (start : ℕ) :
    DoubleBuffer.Pipelined 8 (bankRows a input)
      (fun t => (MinMaxSumCore.run a input t).bank.bankSelect)
      (fun t => (MinMaxSumCore.run a input t).bank.updateAddr)
      (fun t row => row.update (sampleAt input t)) (resetAddr a input) mmsResetValue start := by
  intro i t _
  have hmemory := store_memory (run_store (a := a) input) i (t + 8)
  have hrow := update_mmsO (u := fun t => (MinMaxSumCore.run a input t).update)
    (run_update a input) (t + 13)
  beta_reduce
  refine hmemory.trans ?_
  by_cases hselect : (MinMaxSumCore.run a input (t + 8)).bank.bankSelect = i
  · rw [if_pos hselect, if_pos hselect, show (MinMaxSumCore.run a input (t + 8 + 8)).update.mmsO = _
      from hrow, updateDataO_eq, hselect]
    rfl
  · rw [if_neg hselect, if_neg hselect]
    rfl

/-- The update addresses come round. -/
theorem updateAddr_ring (a : ℕ) (hturn : 0 < turn) (hfits : turn ≤ 2 ^ a)
    (hclock : TurnClock turn start fun t => (input t).turnClock) :
    TurnMemory.Ring turn (start + 1) fun t => (MinMaxSumCore.run a input t).bank.updateAddr :=
  TurnMemory.Ring.counter hturn hfits (fun _ => rfl) hclock

theorem updateAddr_succ (a : ℕ) (input : ℕ → MinMaxSumInput) (t : ℕ) :
    (MinMaxSumCore.run a input (t + 1)).bank.updateAddr =
      if (input t).turnClock then 0 else (MinMaxSumCore.run a input t).bank.updateAddr + 1 := rfl

/-- The update address counts the bunches. -/
theorem updateAddr_eq (a : ℕ) (hclock : TurnClock turn start fun t => (input t).turnClock) (k : ℕ) :
    (MinMaxSumCore.run a input (start + 1 + k)).bank.updateAddr = BitVec.ofNat a (k % turn) :=
  @TurnMemory.counter_eq a turn start (fun t => (MinMaxSumCore.run a input t).bank.updateAddr)
    (fun t => (input t).turnClock) (updateAddr_succ a input) hclock k

/-- The banks are the same where they have not been exchanged. -/
theorem bankSelect_held (h : r.Paced turn start input) (hturn : 0 < turn)
    (hclock : TurnClock turn start fun t => (input t).turnClock) {s n : ℕ}
    (hnone : ∀ k < n, switchEvent a input (s + k) = false) :
    (MinMaxSumCore.run a input (s + n)).bank.bankSelect =
      (MinMaxSumCore.run a input s).bank.bankSelect := by
  induction n with
  | zero => rfl
  | succ n ih =>
      rw [← Nat.add_assoc, bankSelect_succ h hturn hclock, hnone n (Nat.lt_succ_self n),
        if_neg Bool.false_ne_true]
      exact ih fun k hk => hnone k (Nat.lt_succ_of_lt hk)

/-- Nothing is reset just after the banks have been exchanged. -/
theorem reset_quiet (h : r.Paced turn start input) (hturn : 0 < turn)
    (hclock : TurnClock turn start fun t => (input t).turnClock) (t : ℕ) {k : ℕ} (hk : k ≤ 8)
    (hselect : (MinMaxSumCore.run a input (t + k)).bank.bankSelect ≠
      (MinMaxSumCore.run a input t).bank.bankSelect) : resetAddr a input t = none := by
  refine if_neg fun hstrobe => ?_
  obtain ⟨n, -, ⟨hplace, -⟩, hn⟩ := (readoutStrobeO_iff h (t + 8)).mp hstrobe
  refine hselect (bankSelect_held h hturn hclock fun l hl => Bool.eq_false_iff.mpr fun hevent => ?_)
  obtain ⟨m, -, hzero, hm⟩ := (switchEvent_iff h hturn hclock (t + l)).mp hevent
  have hbounds := switch_bounds hturn (h.start_le_clock m)
  rcases Nat.lt_trichotomy m n with hlt | rfl | hgt
  · have horder := switch_order h hzero hlt
    omega
  · exact hplace hzero
  · have hgap := h.gap_le hgt
    omega

/-- The banks are a double buffer. -/
theorem rows_runs (h : r.Paced turn start input) (hturn : 9 ≤ turn) (hfits : turn ≤ 2 ^ a)
    (hclock : TurnClock turn start fun t => (input t).turnClock) :
    DoubleBuffer.Runs (bankRows a input)
      (fun t => (MinMaxSumCore.run a input t).bank.bankSelect)
      (fun t => (MinMaxSumCore.run a input t).bank.updateAddr)
      (fun t row => row.update (sampleAt input t)) (resetAddr a input) mmsResetValue
      (start + 17) :=
  (rows_pipelined a input (start + 1)).runs (updateAddr_ring a (by omega) hfits hclock) hturn
    fun t _ _ hk => reset_quiet h (by omega) hclock t hk

/-! ### The banks from pass to pass -/

/-- The read that a pass begins with. -/
def first (turn k : ℕ) : ℕ := k * (4 * turn + 1)

theorem place_first {k j : ℕ} (hj : j ≤ 4 * turn) : place turn (first turn k + j) = j := by
  rw [place, first, Nat.mul_comm, Nat.mul_add_mod]
  exact Nat.mod_eq_of_lt (Nat.lt_succ_of_le hj)

theorem place_first_zero (k : ℕ) : place turn (first turn k) = 0 := Nat.mul_mod_left _ _

theorem first_succ (k : ℕ) : first turn (k + 1) = first turn k + (4 * turn + 1) := Nat.succ_mul _ _

theorem first_of_place {n : ℕ} (h : place turn n = 0) : ∃ k, n = first turn k := by
  obtain ⟨k, hk⟩ := Nat.dvd_of_mod_eq_zero h
  exact ⟨k, hk.trans (Nat.mul_comm _ _)⟩

/-- The clock on which the banks are exchanged in a pass. -/
def MmsReads.exchange (r : MmsReads) (turn start k : ℕ) : ℕ := r.switch turn start (first turn k)

theorem exchange_lt (h : r.Paced turn start input) {j k : ℕ} (hjk : j < k) :
    r.exchange turn start j + 9 ≤ r.clock (first turn k) :=
  switch_order h (place_first_zero _) (Nat.mul_lt_mul_of_pos_right hjk (Nat.succ_pos _))

theorem exchange_gt (h : r.Paced turn start input) (hturn : 0 < turn) (k : ℕ) :
    r.clock (first turn k) < r.exchange turn start k :=
  (switch_bounds hturn (h.start_le_clock _)).1

theorem exchange_event (h : r.Paced turn start input) (hturn : 0 < turn)
    (hclock : TurnClock turn start fun t => (input t).turnClock) {k : ℕ}
    (hk : first turn k < r.number) : switchEvent a input (r.exchange turn start k) = true :=
  (switchEvent_iff h hturn hclock _).mpr ⟨_, hk, place_first_zero _, rfl⟩

/-- Between two exchanges there is none. -/
theorem no_exchange (h : r.Paced turn start input) (hturn : 0 < turn)
    (hclock : TurnClock turn start fun t => (input t).turnClock) {k t : ℕ}
    (hlow : r.exchange turn start k < t) (hhigh : t < r.exchange turn start (k + 1)) :
    switchEvent a input t = false := by
  refine Bool.eq_false_iff.mpr fun hevent => ?_
  obtain ⟨m, -, hplace, hm⟩ := (switchEvent_iff h hturn hclock _).mp hevent
  obtain ⟨j, rfl⟩ := first_of_place hplace
  change _ = r.exchange turn start j at hm
  rcases Nat.lt_trichotomy j k with hlt | rfl | hgt
  · have horder := exchange_lt h hlt
    have hgt := exchange_gt h hturn k
    omega
  · omega
  · rcases Nat.eq_or_lt_of_le (Nat.succ_le_of_lt hgt) with rfl | hlater
    · rw [Nat.succ_eq_add_one] at hm
      omega
    · have horder := exchange_lt h hlater
      have hgt := exchange_gt h hturn j
      rw [Nat.succ_eq_add_one] at horder
      omega

/-- In a pass the other bank is selected from the exchange to the next one. -/
theorem bankSelect_pass (h : r.Paced turn start input) (hturn : 0 < turn)
    (hclock : TurnClock turn start fun t => (input t).turnClock) {k t : ℕ}
    (hk : first turn k < r.number) (hlow : r.exchange turn start k < t)
    (hhigh : t ≤ r.exchange turn start (k + 1)) :
    (MinMaxSumCore.run a input t).bank.bankSelect =
      !(MinMaxSumCore.run a input (r.exchange turn start k)).bank.bankSelect := by
  obtain ⟨n, rfl⟩ := Nat.exists_eq_add_of_le (Nat.succ_le_of_lt hlow)
  have hheld := bankSelect_held (a := a) h hturn hclock (s := r.exchange turn start k + 1) (n := n)
    fun l hl => no_exchange h hturn hclock (k := k) (by omega) (by omega)
  rw [Nat.succ_eq_add_one, hheld, bankSelect_succ h hturn hclock,
    exchange_event h hturn hclock hk, if_pos rfl]

theorem first_lt {k : ℕ} (hk : first turn (k + 1) < r.number) : first turn k < r.number :=
  lt_of_le_of_lt (by exact_mod_cast Nat.mul_le_mul_right _ (Nat.le_succ k)) hk

theorem exchange_lt_succ (h : r.Paced turn start input) (hturn : 0 < turn) (k : ℕ) :
    r.exchange turn start k + 9 < r.exchange turn start (k + 1) :=
  lt_of_le_of_lt (exchange_lt h (Nat.lt_succ_self k)) (exchange_gt h hturn (k + 1))

theorem start_le_exchange (h : r.Paced turn start input) (hturn : 0 < turn) (k : ℕ) :
    start + 9 * (4 * turn + 1) ≤ r.exchange turn start (k + 1) := by
  have hgaps := h.gap_mul 0 (first turn (k + 1))
  have hgt := exchange_gt h hturn (k + 1)
  have hstart := h.start_le
  rw [Nat.zero_add, first_succ] at hgaps
  rw [first_succ] at hgt
  omega

/-- The bank that is read in a pass has been selected since the exchange before. -/
theorem bankSelect_before (h : r.Paced turn start input) (hturn : 0 < turn)
    (hclock : TurnClock turn start fun t => (input t).turnClock) {k t : ℕ}
    (hk : first turn k < r.number) (hlow : r.exchange turn start k < t)
    (hhigh : t ≤ r.exchange turn start (k + 1)) :
    (MinMaxSumCore.run a input t).bank.bankSelect =
      (MinMaxSumCore.run a input (r.exchange turn start (k + 1))).bank.bankSelect := by
  rw [bankSelect_pass h hturn hclock hk hlow hhigh,
    bankSelect_pass h hturn hclock hk (hlow.trans_le hhigh) le_rfl]

/-- The address of a row that is reset in a pass. -/
theorem resetAddr_eq (h : r.Paced turn start input) (hturn : 0 < turn)
    (hclock : TurnClock turn start fun t => (input t).turnClock) {k b t : ℕ}
    (hb : b < turn) (hk : (first turn k + 4 * (b + 1) : ℕ) < r.number)
    (ht : t + 6 = r.clock (first turn k + 4 * (b + 1))) :
    resetAddr a input t = some (BitVec.ofNat a b) := by
  have hplace : place turn (first turn k + 4 * (b + 1)) = 4 * (b + 1) := place_first (by omega)
  have hbefore : place turn (first turn k + (4 * b + 3)) = 4 * b + 3 := place_first (by omega)
  have hread : first turn k + (4 * b + 3) + 1 = first turn k + 4 * (b + 1) := by ring
  have hstrobe : (MinMaxSumCore.run a input (t + 8)).readout.readoutStrobeO = true := by
    refine (readoutStrobeO_iff h _).mpr ⟨_, hk, ⟨?_, ?_⟩, by omega⟩
    · rw [hplace]
      omega
    · rw [hplace]
      exact Nat.mul_mod_right 4 _
  have hsettled := settled_le h (first turn k + (4 * b + 3))
  rw [hread] at hsettled
  have haddr := readoutAddr_eq (a := a) h hturn hclock (n := first turn k + (4 * b + 3))
    (lt_number (by rw [hread]; exact hk)) (t := t + 8) (by omega)
    (.inr ⟨by rw [hread, hplace]; omega, by rw [hread]; omega⟩)
  rw [resetAddr, if_pos hstrobe, haddr, hbefore, show (4 * b + 3) / 4 = b by omega]

/-- The rows that have been read in a pass are empty at the end of it. -/
theorem rows_emptied (h : r.Paced turn start input) (hturn : 9 ≤ turn) (hfits : turn ≤ 2 ^ a)
    (hclock : TurnClock turn start fun t => (input t).turnClock) {k b : ℕ}
    (hk : first turn (k + 1) < r.number) (hb : b < turn) {i : Bool}
    (hi : (MinMaxSumCore.run a input (r.exchange turn start k)).bank.bankSelect = i) :
    bankRows a input i (r.exchange turn start (k + 1) + 1) (BitVec.ofNat a b) = mmsResetValue := by
  have hturn' : 0 < turn := by omega
  have hlast : first turn k + 4 * (b + 1) < first turn (k + 1) := by
    rw [first_succ]
    omega
  have hafter := h.mono hlast.le
  have hexchange := exchange_gt h hturn' (k + 1)
  -- the reset comes some clocks after the exchange of the pass
  have hword := h.switched (first turn k) (place_first_zero _)
  have hgaps := h.gap_mul (first turn k + 1) 3
  have hrow := h.mono (show first turn k + 1 + 3 ≤ first turn k + 4 * (b + 1) by omega)
  change r.exchange turn start k + 9 ≤ _ at hword
  have hstart := h.start_le_clock (first turn k)
  have hgt := exchange_gt h hturn' k
  obtain ⟨s, hs⟩ := Nat.exists_eq_add_of_le'
    (show 6 ≤ r.clock (first turn k + 4 * (b + 1)) by omega)
  obtain ⟨n, hn⟩ := Nat.exists_eq_add_of_le (show s ≤ r.exchange turn start (k + 1) by omega)
  rw [hn]
  refine (rows_runs h hturn hfits hclock).emptied (by omega) (resetAddr_eq h hturn' hclock hb
    (lt_of_le_of_lt (by exact_mod_cast hlast.le) hk) hs.symm) fun l hl => ?_
  rw [bankSelect_pass h hturn' hclock (first_lt hk) (by omega) (by omega), hi]
  exact Bool.not_ne_self i

/-- The number of turns from the exchange in pass `k` to the exchange in the next one. -/
def MmsReads.turns (r : MmsReads) (turn start k : ℕ) : ℕ :=
  r.turnAfter turn start (first turn (k + 1)) - r.turnAfter turn start (first turn k)

/-- The samples of a bunch on these turns. -/
def MmsReads.samples (r : MmsReads) (turn start : ℕ) (input : ℕ → MinMaxSumInput) (k b : ℕ) :
    List (BitVec 16) :=
  (List.range (r.turns turn start k)).map fun m =>
    sampleAt input (r.exchange turn start k + 1 + m * turn + b)

theorem samples_length (r : MmsReads) (turn start : ℕ) (input : ℕ → MinMaxSumInput) (k b : ℕ) :
    (r.samples turn start input k b).length = r.turns turn start k := by
  rw [MmsReads.samples, List.length_map, List.length_range]

theorem exchange_succ (h : r.Paced turn start input) (k : ℕ) :
    r.exchange turn start (k + 1) =
      r.exchange turn start k + r.turns turn start k * turn := by
  have hmono :
      r.turnAfter turn start (first turn k) ≤ r.turnAfter turn start (first turn (k + 1)) := by
    refine Nat.succ_le_succ (Nat.div_le_div_right (Nat.sub_le_sub_right (h.mono ?_) start))
    exact Nat.mul_le_mul_right _ (Nat.le_succ k)
  rw [exchange, switch, exchange, switch, turns, Nat.add_assoc, ← Nat.add_mul,
    Nat.add_sub_cancel' hmono]

theorem updateAddr_exchange (hclock : TurnClock turn start fun t => (input t).turnClock) {k b : ℕ}
    (hb : b < turn) :
    (MinMaxSumCore.run a input (r.exchange turn start k + 1 + b)).bank.updateAddr =
      BitVec.ofNat a b := by
  have hcount := updateAddr_eq a hclock (b + r.turnAfter turn start (first turn k) * turn)
  rw [Nat.add_mul_mod_self_right, Nat.mod_eq_of_lt hb] at hcount
  rw [← hcount, exchange, switch, show start + r.turnAfter turn start (first turn k) * turn + 1 + b =
    start + 1 + (b + r.turnAfter turn start (first turn k) * turn) by ring]

/-- A row of the selected bank holds the samples of its bunch since the exchange before. -/
theorem rows_upto (h : r.Paced turn start input) (hturn : 9 ≤ turn) (hfits : turn ≤ 2 ^ a)
    (hclock : TurnClock turn start fun t => (input t).turnClock) {k b m : ℕ}
    (hk : first turn (k + 2) < r.number) (hb : b < turn) (hm : m ≤ r.turns turn start (k + 1)) :
    bankRows a input (MinMaxSumCore.run a input (r.exchange turn start (k + 2))).bank.bankSelect
        (r.exchange turn start (k + 1) + 1 + m * turn) (BitVec.ofNat a b) =
      rowOf ((r.samples turn start input (k + 1) b).take m) := by
  have hturn' : 0 < turn := by omega
  have hselected : (MinMaxSumCore.run a input (r.exchange turn start k)).bank.bankSelect =
      (MinMaxSumCore.run a input (r.exchange turn start (k + 2))).bank.bankSelect := by
    have hbefore := exchange_lt_succ h hturn' k
    have hafter := exchange_lt_succ h hturn' (k + 1)
    rw [bankSelect_pass h hturn' hclock (first_lt hk) (by omega) le_rfl,
      bankSelect_pass h hturn' hclock (first_lt (first_lt hk)) (by omega) le_rfl, Bool.not_not]
  have hstart := start_le_exchange h hturn' k
  have hnext : r.exchange turn start (k + 2) =
      r.exchange turn start (k + 1) + r.turns turn start (k + 1) * turn := exchange_succ h (k + 1)
  have hempty := rows_emptied h hturn hfits hclock (first_lt hk) hb hselected
  have hupto := Nat.mul_le_mul_right turn hm
  have hturns := (rows_runs h hturn hfits hclock).turns
    ((updateAddr_ring a hturn' hfits hclock).mono (Nat.add_le_add_left (by decide : 1 ≤ 17) start))
    (s := r.exchange turn start (k + 1) + 1) (j := b) (n := m)
    (i := (MinMaxSumCore.run a input (r.exchange turn start (k + 2))).bank.bankSelect)
    (by omega) hb fun l hl => by
      refine bankSelect_before h hturn' hclock (first_lt hk) (by omega) ?_
      rw [show k + 1 + 1 = k + 2 from rfl, hnext]
      omega
  rw [updateAddr_exchange hclock hb, hempty] at hturns
  rw [hturns, rowOf, MmsReads.samples, ← List.map_take, List.take_range, Nat.min_eq_left hm,
    List.foldl_map]

/-- At the exchange a row holds all of them. -/
theorem rows_filled (h : r.Paced turn start input) (hturn : 9 ≤ turn) (hfits : turn ≤ 2 ^ a)
    (hclock : TurnClock turn start fun t => (input t).turnClock) {k b : ℕ}
    (hk : first turn (k + 2) < r.number) (hb : b < turn) :
    bankRows a input (MinMaxSumCore.run a input (r.exchange turn start (k + 2))).bank.bankSelect
        (r.exchange turn start (k + 2) + 1) (BitVec.ofNat a b) =
      rowOf (r.samples turn start input (k + 1) b) := by
  have hnext : r.exchange turn start (k + 2) =
      r.exchange turn start (k + 1) + r.turns turn start (k + 1) * turn := exchange_succ h (k + 1)
  have hall := rows_upto h hturn hfits hclock hk hb le_rfl
  rw [Nat.add_right_comm, ← hnext, List.take_of_length_le (samples_length ..).le] at hall
  exact hall

/-- The rows are still there when they are read. -/
theorem rows_read (h : r.Paced turn start input) (hturn : 9 ≤ turn) (hfits : turn ≤ 2 ^ a)
    (hclock : TurnClock turn start fun t => (input t).turnClock) {k b p s : ℕ} (hb : b < turn)
    (hp : p < 4) (hk : (first turn (k + 1) + (4 * b + p + 1) : ℕ) < r.number) {i : Bool}
    (hi : (MinMaxSumCore.run a input (r.exchange turn start (k + 1))).bank.bankSelect = i)
    (hs : s + 14 = r.clock (first turn (k + 1) + (4 * b + p + 1))) :
    bankRows a input i s (BitVec.ofNat a b) =
      bankRows a input i (r.exchange turn start (k + 1) + 1) (BitVec.ofNat a b) := by
  have hturn' : 0 < turn := by omega
  have hfirst : first turn (k + 1) < r.number :=
    lt_of_le_of_lt (by exact_mod_cast Nat.le_add_right _ _) hk
  have hruns := rows_runs h hturn hfits hclock
  have hword := h.switched (first turn (k + 1)) (place_first_zero _)
  have hgaps := h.gap_mul (first turn (k + 1) + 1) (4 * b + p)
  rw [show first turn (k + 1) + 1 + (4 * b + p) = first turn (k + 1) + (4 * b + p + 1) by ring]
    at hgaps
  change r.exchange turn start (k + 1) + 9 ≤ _ at hword
  have hnext : r.clock (first turn (k + 1) + (4 * b + p + 1)) < r.clock (first turn (k + 2)) := by
    refine lt_of_lt_of_le (Nat.lt_add_of_pos_right (by decide : 0 < 9)) (h.gap_le ?_)
    rw [first_succ (k + 1)]
    omega
  have hbefore := exchange_lt_succ h hturn' k
  have hafter : _ < r.exchange turn start (k + 1 + 1) := exchange_gt h hturn' (k + 2)
  have hstart := start_le_exchange h hturn' k
  rcases Nat.lt_or_ge s (r.exchange turn start (k + 1) + 1) with hless | hmore
  · -- the pipeline still reads the first row before the exchange
    obtain rfl : b = 0 := by omega
    obtain ⟨n, hn⟩ := Nat.exists_eq_add_of_le hless.le
    rw [hn]
    refine (hruns.held (by omega) (fun l hl _ => ?_) fun l hl hne => absurd ?_ hne).symm
    · have hdistinct := (updateAddr_ring a hturn' hfits hclock).distinct (s + l) (n - l) (by omega)
        (by omega) (by omega)
      have hfirstRow := updateAddr_exchange (a := a) (r := r) (k := k + 1) hclock hturn'
      rw [Nat.add_zero, hn] at hfirstRow
      rw [show s + l + (n - l) = s + n by omega, hfirstRow] at hdistinct
      exact hdistinct.symm
    · rw [bankSelect_before h hturn' hclock (first_lt hfirst) (by omega) (by omega), hi]
  · -- rows that have been read before this one have other addresses
    obtain ⟨n, rfl⟩ := Nat.exists_eq_add_of_le hmore
    have hselect : ∀ l < n, (MinMaxSumCore.run a input
        (r.exchange turn start (k + 1) + 1 + l)).bank.bankSelect ≠ i := by
      intro l hl
      rw [bankSelect_pass h hturn' hclock hfirst (by omega) (by omega), hi]
      exact Bool.not_ne_self i
    refine hruns.held (by omega) (fun l hl heq => absurd heq (hselect l hl)) fun l hl _ hreset => ?_
    have hstrobe :
        (MinMaxSumCore.run a input (r.exchange turn start (k + 1) + 1 + l + 8)).readout.readoutStrobeO =
          true := by
      by_contra hno
      rw [resetAddr, if_neg hno] at hreset
      exact absurd hreset (Option.some_ne_none _).symm
    obtain ⟨m, hm, ⟨hplace, hend⟩, hclockm⟩ := (readoutStrobeO_iff h _).mp hstrobe
    have hlow : first turn (k + 1) < m := by
      by_contra hle
      have hmono := h.mono (not_lt.mp hle)
      have hgt := exchange_gt h hturn' (k + 1)
      omega
    have hhigh : m < first turn (k + 1) + (4 * b + p + 1) := by
      by_contra hge
      have hmono := h.mono (not_lt.mp hge)
      omega
    obtain ⟨c, rfl⟩ := Nat.exists_eq_add_of_le hlow.le
    rw [place_first (by omega)] at hplace hend
    obtain ⟨d, rfl⟩ : ∃ d, c = 4 * (d + 1) := ⟨c / 4 - 1, by omega⟩
    rw [resetAddr_eq h hturn' hclock (show d < turn by omega) hm (by omega)] at hreset
    have hsame := congrArg BitVec.toNat (Option.some.inj hreset)
    rw [BitVec.toNat_ofNat, BitVec.toNat_ofNat, Nat.mod_eq_of_lt (by omega),
      Nat.mod_eq_of_lt (by omega)] at hsame
    omega

theorem readDataO_succ (t : ℕ) : (MinMaxSumCore.run a input (t + 1)).readout.readDataO =
    readoutWord (MinMaxSumCore.run a input t).store.readoutDataO
      (MinMaxSumCore.run a input t).readout.phase := rfl

/-- From the third pass on each word is read from the row of the samples between the exchanges. -/
theorem readDataO_eq (h : r.Paced turn start input) (hturn : 9 ≤ turn) (hfits : turn ≤ 2 ^ a)
    (hclock : TurnClock turn start fun t => (input t).turnClock) {k b p : ℕ} (hb : b < turn)
    (hp : p < 4) (hk : (first turn (k + 2) + (4 * b + p + 1) : ℕ) < r.number) :
    (MinMaxSumCore.run a input
        (r.clock (first turn (k + 2) + (4 * b + p + 1)) + 1)).readout.readDataO =
      readoutWord (rowOf (r.samples turn start input (k + 1) b)) (Fin.ofNat 4 p) := by
  have hturn' : 0 < turn := by omega
  have hfirst : first turn (k + 2) < r.number :=
    lt_of_le_of_lt (by exact_mod_cast Nat.le_add_right _ _) hk
  have hbefore := lt_number (show (first turn (k + 2) + (4 * b + p) + 1 : ℕ) < r.number from hk)
  have hplace : place turn (first turn (k + 2) + (4 * b + p)) = 4 * b + p := place_first (by omega)
  have hgap := h.gap (first turn (k + 2) + (4 * b + p))
  have hsettled := settled_le h (first turn (k + 2) + (4 * b + p))
  -- the words follow the exchange
  have hword := h.switched (first turn (k + 2)) (place_first_zero _)
  have hmono := h.mono (show first turn (k + 2) + 1 ≤ first turn (k + 2) + (4 * b + p) + 1 by omega)
  change r.exchange turn start (k + 2) + 9 ≤ _ at hword
  have hnext : r.clock (first turn (k + 2) + (4 * b + p) + 1) < r.clock (first turn (k + 3)) := by
    refine lt_of_lt_of_le (Nat.lt_add_of_pos_right (by decide : 0 < 9)) (h.gap_le ?_)
    rw [first_succ (k + 2)]
    omega
  have hafter : _ < r.exchange turn start (k + 2 + 1) := exchange_gt h hturn' (k + 3)
  have hstart : _ ≤ r.exchange turn start (k + 2) := start_le_exchange h hturn' (k + 1)
  obtain ⟨s, hs⟩ := Nat.exists_eq_add_of_le'
    (show 14 ≤ r.clock (first turn (k + 2) + (4 * b + p) + 1) by omega)
  have hphase := phase_eq (a := a) h hbefore (show _ < r.clock _ by omega) le_rfl
  have haddr := readoutAddr_eq (a := a) h hturn' hclock hbefore (t := s + 8) (by omega)
    (.inl (by omega))
  have hbank := bankSelect_pass (a := a) h hturn' hclock (k := k + 2) (t := s + 8) hfirst (by omega)
    (by omega)
  have hrow : (MinMaxSumCore.run a input (s + 14)).store.readoutDataO =
      bankRows a input (!(MinMaxSumCore.run a input (s + 8)).bank.bankSelect) s
        (MinMaxSumCore.run a input (s + 8)).bank.readoutAddr :=
    store_readoutDataO (run_store input) (s + 8)
  rw [hplace, show (4 * b + p) / 4 = b by omega] at haddr
  rw [hbank, Bool.not_not, haddr, rows_read h hturn hfits hclock hb hp (k := k + 1) hk rfl hs.symm,
    rows_filled h hturn hfits hclock hfirst hb] at hrow
  rw [← Nat.add_assoc, readDataO_succ, hphase, hplace, hs, hrow]
  congr 1
  exact Fin.ext (Nat.mul_add_mod 4 b p)

end rows

end Mbf.Mms
