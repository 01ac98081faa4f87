import Mathlib.Algebra.BigOperators.Group.List.Basic
import Mbf.Bunch.Offset
import Mbf.Lib.Extremum

/-! # Accumulation of the min/max/sum readouts

`mms.c` adds up what it reads from the min/max/sum hardware until EPICS publishes it.  What the
hardware says about its own overflows is logged.  The overflows of the additions are found out too,
but only into variables that `update_accum` then drops (`turns_dropped`): the totals are exact or
reported if and only if none of the additions overflows, or the hardware has reported an overflow
anyhow (`mms_accumulation_iff`).

The mutex of the handler makes every call one step.  The floating point waveforms that are derived
from the totals are left out. -/

namespace Mbf.Mms

open Bunch

/-! ### The hardware -/

/-- The words that are read for one bunch. -/
structure MmsReadout where
  minMax : BitVec 32
  sum : BitVec 32
  sum2Low : BitVec 32
  sum2High : BitVec 32

/-- What the registers return for a bank: the count, and the words of every bunch. -/
structure MmsBank where
  count : BitVec 32
  readout : ℕ → MmsReadout

/-- `struct mms_result`. -/
structure MmsResult where
  turns : BitVec 32
  turnsOvfl : Bool
  sumOvfl : Bool
  sum2Ovfl : Bool
  minimum : ℕ → BitVec 16
  maximum : ℕ → BitVec 16
  sum : ℕ → BitVec 32
  sum2 : ℕ → BitVec 64

/-- `read_mms`. -/
def readMms (b : MmsBank) : MmsResult where
  turns := (b.count.extractLsb' 0 29).setWidth 32 + 1
  turnsOvfl := b.count.getLsbD 29
  sumOvfl := b.count.getLsbD 30
  sum2Ovfl := b.count.getLsbD 31
  minimum i := (b.readout i).minMax.extractLsb' 0 16
  maximum i := (b.readout i).minMax.extractLsb' 16 16
  sum i := (b.readout i).sum
  sum2 i :=
    (b.readout i).sum2Low.setWidth 64 |||
      ((b.readout i).sum2High.extractLsb' 0 16).setWidth 64 <<< 32

/-- The hardware has reported an overflow. -/
def MmsResult.flagged (r : MmsResult) : Bool := r.turnsOvfl || r.sumOvfl || r.sum2Ovfl

/-! ### The accumulator -/

/-- The fields of `struct mms_accum` for the raw totals. -/
structure MmsAccum where
  rawMin : ℕ → BitVec 16
  rawMax : ℕ → BitVec 16
  rawSum : ℕ → BitVec 64
  rawSum2 : ℕ → BitVec 64
  rawTurns : BitVec 32

/-- `add_overflow_uint` and `add_overflow_uint64_t`. -/
def addOverflowUint {w : ℕ} (a b : BitVec w) (overflow : Bool) : BitVec w × Bool :=
  let result := a + b
  (result, if result < a then true else overflow)

/-- `add_overflow_int64_t`. -/
def addOverflowInt64 (a b : BitVec 64) (overflow : Bool) : BitVec 64 × Bool :=
  (a + b, overflow || a.saddOverflow b)

/-- `MIN` and `MAX` of values of type `int16_t`. -/
def minInt16 (a b : BitVec 16) : BitVec 16 := if a.slt b then a else b

def maxInt16 (a b : BitVec 16) : BitVec 16 := if b.slt a then a else b

/-- The accumulator as it is allocated. -/
def callocAccum : MmsAccum where
  rawMin _ := 0
  rawMax _ := 0
  rawSum _ := 0
  rawSum2 _ := 0
  rawTurns := 0

/-- `reset_accum`, where there is nothing beyond the bunches. -/
def resetAccum : MmsAccum where
  rawMin _ := 0x7FFF
  rawMax _ := 0x8000
  rawSum _ := 0
  rawSum2 _ := 0
  rawTurns := 0

/-- The body of the loop of `update_accum`, with its two overflow flags. -/
def updateBunch (result : MmsResult) (s : MmsAccum × Bool × Bool) (p : ℕ × ℕ) :
    MmsAccum × Bool × Bool :=
  let (accum, sumOvfl, sum2Ovfl) := s
  let (j, i) := p
  let (sum, sumOvfl) :=
    addOverflowInt64 (accum.rawSum j) ((result.sum i).signExtend 64) sumOvfl
  let (sum2, sum2Ovfl) := addOverflowUint (accum.rawSum2 j) (result.sum2 i) sum2Ovfl
  ({ accum with
      rawMin := Function.update accum.rawMin j (minInt16 (accum.rawMin j) (result.minimum i))
      rawMax := Function.update accum.rawMax j (maxInt16 (accum.rawMax j) (result.maximum i))
      rawSum := Function.update accum.rawSum j sum
      rawSum2 := Function.update accum.rawSum2 j sum2 },
    sumOvfl, sum2Ovfl)

/-- `update_accum`.  The flags are variables of the function, and end with it. -/
def updateAccum (bunches offset : BitVec 32) (result : MmsResult) (accum : MmsAccum) : MmsAccum :=
  let (accum, _sumOvfl, _sum2Ovfl) :=
    (forBunchesOffset bunches offset).foldl (updateBunch result)
      (accum, result.sumOvfl, result.sum2Ovfl)
  let (turns, _turnsOvfl) := addOverflowUint accum.rawTurns result.turns result.turnsOvfl
  { accum with rawTurns := turns }

/-! ### The handler -/

/-- What happens to a handler. -/
inductive Event where
  /-- The thread has started: `read_raw_mms` with `initialise`. -/
  | initialise (bank : MmsBank)
  /-- The thread has waited: `read_raw_mms`. -/
  | poll (bank : MmsBank)
  /-- EPICS processes the record: `start_mms_readback`. -/
  | publish (bank : MmsBank)

/-- A handler with what has happened since the last publication. -/
structure Handler where
  accum : MmsAccum
  /-- The accumulator has been reset since it was allocated. -/
  cleared : Bool
  readouts : List MmsResult
  /-- The calls of `log_error`. -/
  logged : ℕ

/-- `create_mms_handler`. -/
def createMmsHandler : Handler := ⟨callocAccum, false, [], 0⟩

/-- `read_raw_mms`. -/
def readRawMms (bunches offset : BitVec 32) (initialise : Bool) (bank : MmsBank) (h : Handler) :
    Handler :=
  let result := readMms bank
  if initialise then ⟨resetAccum, true, [], 0⟩
  else { h with
    accum := updateAccum bunches offset result h.accum
    readouts := h.readouts ++ [result]
    logged := if result.flagged then h.logged + 1 else h.logged }

/-- The handler at the time when a record is published from it. -/
def published (bunches offset : BitVec 32) (bank : MmsBank) (h : Handler) : Handler :=
  readRawMms bunches offset false bank h

def step (bunches offset : BitVec 32) (h : Handler) : Event → Handler
  | .initialise bank => readRawMms bunches offset true bank h
  | .poll bank => readRawMms bunches offset false bank h
  | .publish _ => ⟨resetAccum, true, [], 0⟩

/-- The handler after some events. -/
def run (bunches offset : BitVec 32) (events : List Event) : Handler :=
  events.foldl (step bunches offset) createMmsHandler

/-! ### The totals -/

def turnsTotal (rs : List MmsResult) : ℕ := (rs.map fun r => r.turns.toNat).sum

def sumTotal (rs : List MmsResult) (i : ℕ) : ℤ := (rs.map fun r => (r.sum i).toInt).sum

def sum2Total (rs : List MmsResult) (i : ℕ) : ℕ := (rs.map fun r => (r.sum2 i).toNat).sum

/-- The accumulator holds the totals of the readouts, rotated by the offset. -/
structure Exact (bunches offset : ℕ) (rs : List MmsResult) (accum : MmsAccum) : Prop where
  turns : accum.rawTurns.toNat = turnsTotal rs
  sum : ∀ j < bunches, (accum.rawSum j).toInt = sumTotal rs (offsetBy bunches offset j)
  sum2 : ∀ j < bunches, (accum.rawSum2 j).toNat = sum2Total rs (offsetBy bunches offset j)
  minimum : ∀ j < bunches,
    IsLeast {x | x ∈ rs.map fun r => (r.minimum (offsetBy bunches offset j)).toInt}
      (accum.rawMin j).toInt
  maximum : ∀ j < bunches,
    IsGreatest {x | x ∈ rs.map fun r => (r.maximum (offsetBy bunches offset j)).toInt}
      (accum.rawMax j).toInt

/-- No addition of the readouts overflows. -/
structure Fits (bunches : ℕ) (rs : List MmsResult) : Prop where
  turns : turnsTotal rs < 2 ^ 32
  sum : ∀ i < bunches, ∀ n, -2 ^ 63 ≤ sumTotal (rs.take n) i ∧ sumTotal (rs.take n) i < 2 ^ 63
  sum2 : ∀ i < bunches, sum2Total rs i < 2 ^ 64

/-- Zero is not beyond the extrema of any bunch. -/
def Straddles (bunches offset : ℕ) (rs : List MmsResult) : Prop :=
  ∀ j < bunches, (∃ r ∈ rs, (r.minimum (offsetBy bunches offset j)).toInt ≤ 0) ∧
    ∃ r ∈ rs, 0 ≤ (r.maximum (offsetBy bunches offset j)).toInt

/-- What a publication has to keep: the totals are exact unless an overflow was logged, and every
overflow, in the hardware or in an addition, was logged. -/
structure Kept (bunches offset : ℕ) (h : Handler) : Prop where
  exact : h.logged = 0 → Exact bunches offset h.readouts h.accum
  hardware : (∃ r ∈ h.readouts, r.flagged = true) → 0 < h.logged
  software : ¬ Fits bunches h.readouts → 0 < h.logged

/-! ### Additions -/

theorem minInt16_toInt (a b : BitVec 16) : (minInt16 a b).toInt = min a.toInt b.toInt := by
  simp only [minInt16, BitVec.slt_eq_decide, decide_eq_true_eq]
  split_ifs with h
  · exact (min_eq_left h.le).symm
  · exact (min_eq_right (not_lt.mp h)).symm

theorem maxInt16_toInt (a b : BitVec 16) : (maxInt16 a b).toInt = max a.toInt b.toInt := by
  simp only [maxInt16, BitVec.slt_eq_decide, decide_eq_true_eq]
  split_ifs with h
  · exact (max_eq_left h.le).symm
  · exact (max_eq_right (not_lt.mp h)).symm

/-! ### One readout -/

/-- The totals of one bunch. -/
structure BunchTotals where
  rawMin : BitVec 16
  rawMax : BitVec 16
  rawSum : BitVec 64
  rawSum2 : BitVec 64

def MmsAccum.totals (accum : MmsAccum) (j : ℕ) : BunchTotals :=
  ⟨accum.rawMin j, accum.rawMax j, accum.rawSum j, accum.rawSum2 j⟩

/-- What a readout of the bunch `i` does to the totals. -/
def BunchTotals.add (result : MmsResult) (i : ℕ) (t : BunchTotals) : BunchTotals :=
  ⟨minInt16 t.rawMin (result.minimum i), maxInt16 t.rawMax (result.maximum i),
    t.rawSum + (result.sum i).signExtend 64, t.rawSum2 + result.sum2 i⟩

/-- The loop of `update_accum` changes the totals of each bunch by themselves. -/
theorem updateBunch_local (result : MmsResult) (k : ℕ → ℕ) :
    Cells.Local (⟨fun s => s.1.totals, fun _ => ([] : List Unit), fun s => s.1.rawTurns⟩ :
        Cells.View (MmsAccum × Bool × Bool) ℕ BunchTotals Unit (BitVec 32))
      (fun j s => updateBunch result s (j, k j)) (fun j => BunchTotals.add result (k j))
      (fun _ _ => []) where
  cell j s := by
    funext j'
    by_cases hj : j' = j
    · subst hj
      simp [updateBunch, MmsAccum.totals, BunchTotals.add, addOverflowInt64, addOverflowUint]
    · simp [updateBunch, MmsAccum.totals, hj]
  log _ _ := rfl
  rest _ _ := rfl

/-- What a readout does to the totals. -/
theorem updateAccum_totals {bunches offset : BitVec 32} (h : offset < bunches) (result : MmsResult)
    (accum : MmsAccum) {j : ℕ} (hj : j < bunches.toNat) :
    (updateAccum bunches offset result accum).totals j =
      (accum.totals j).add result (offsetBy bunches.toNat offset.toNat j) := by
  have hloop := (updateBunch_local result (offsetBy bunches.toNat offset.toNat)).foldl_cell
    (List.range bunches.toNat) List.nodup_range (accum, result.sumOvfl, result.sum2Ovfl) j
  rw [if_pos (List.mem_range.mpr hj)] at hloop
  unfold updateAccum
  rw [forBunchesOffset_eq h, List.foldl_map]
  exact hloop

theorem updateAccum_turns {bunches offset : BitVec 32} (h : offset < bunches) (result : MmsResult)
    (accum : MmsAccum) :
    (updateAccum bunches offset result accum).rawTurns = accum.rawTurns + result.turns := by
  have hloop := (updateBunch_local result (offsetBy bunches.toNat offset.toNat)).foldl_rest
    (List.range bunches.toNat) (accum, result.sumOvfl, result.sum2Ovfl)
  unfold updateAccum
  rw [forBunchesOffset_eq h, List.foldl_map]
  exact congrArg (· + result.turns) hloop

/-! ### Runs -/

/-- What the accumulator holds of the readouts. -/
structure Inv (bunches offset : BitVec 32) (h : Handler) : Prop where
  turns : h.accum.rawTurns = BitVec.ofNat 32 (turnsTotal h.readouts)
  sum : ∀ j < bunches.toNat, h.accum.rawSum j =
    BitVec.ofInt 64 (sumTotal h.readouts (offsetBy bunches.toNat offset.toNat j))
  sum2 : ∀ j < bunches.toNat, h.accum.rawSum2 j =
    BitVec.ofNat 64 (sum2Total h.readouts (offsetBy bunches.toNat offset.toNat j))
  minimum : ∀ j < bunches.toNat, (h.accum.rawMin j).toInt =
    (h.readouts.map fun r => (r.minimum (offsetBy bunches.toNat offset.toNat j)).toInt).foldl min
      (if h.cleared then 2 ^ 15 - 1 else 0)
  maximum : ∀ j < bunches.toNat, (h.accum.rawMax j).toInt =
    (h.readouts.map fun r => (r.maximum (offsetBy bunches.toNat offset.toNat j)).toInt).foldl max
      (if h.cleared then -2 ^ 15 else 0)
  logged : 0 < h.logged ↔ ∃ r ∈ h.readouts, r.flagged = true

section

variable {bunches offset : BitVec 32} {h : Handler}

theorem inv_reset : Inv bunches offset ⟨resetAccum, true, [], 0⟩ where
  turns := rfl
  sum _ _ := rfl
  sum2 _ _ := rfl
  minimum _ _ := rfl
  maximum _ _ := rfl
  logged := by simp

theorem inv_createMmsHandler : Inv bunches offset createMmsHandler where
  turns := rfl
  sum _ _ := rfl
  sum2 _ _ := rfl
  minimum _ _ := rfl
  maximum _ _ := rfl
  logged := by simp [createMmsHandler]

/-- A readout is added to the totals. -/
theorem Inv.read (hinv : Inv bunches offset h) (hoffset : offset < bunches) (bank : MmsBank) :
    Inv bunches offset (readRawMms bunches offset false bank h) := by
  have htotals := fun j hj => @updateAccum_totals bunches offset hoffset (readMms bank) h.accum j hj
  simp only [readRawMms, Bool.false_eq_true, if_false]
  refine ⟨?_, fun j hj => ?_, fun j hj => ?_, fun j hj => ?_, fun j hj => ?_, ?_⟩
  · dsimp only
    rw [updateAccum_turns hoffset, hinv.turns, turnsTotal, turnsTotal, List.map_append,
      List.sum_append, BitVec.ofNat_add]
    simp
  · have hsum := congrArg BunchTotals.rawSum (htotals j hj)
    dsimp only [MmsAccum.totals, BunchTotals.add] at hsum ⊢
    rw [hsum, hinv.sum j hj, sumTotal, sumTotal, List.map_append, List.sum_append, BitVec.ofInt_add]
    simp [BitVec.signExtend]
  · have hsum := congrArg BunchTotals.rawSum2 (htotals j hj)
    dsimp only [MmsAccum.totals, BunchTotals.add] at hsum ⊢
    rw [hsum, hinv.sum2 j hj, sum2Total, sum2Total, List.map_append, List.sum_append,
      BitVec.ofNat_add]
    simp
  · have hmin := congrArg BunchTotals.rawMin (htotals j hj)
    dsimp only [MmsAccum.totals, BunchTotals.add] at hmin ⊢
    rw [hmin, minInt16_toInt, hinv.minimum j hj, List.map_append, List.foldl_append]
    rfl
  · have hmax := congrArg BunchTotals.rawMax (htotals j hj)
    dsimp only [MmsAccum.totals, BunchTotals.add] at hmax ⊢
    rw [hmax, maxInt16_toInt, hinv.maximum j hj, List.map_append, List.foldl_append]
    rfl
  · have hlogged := hinv.logged
    dsimp only
    simp only [List.mem_append, List.mem_singleton, or_and_right, exists_or, exists_eq_left]
    split_ifs with hflagged
    · simp [hflagged]
    · simpa [hflagged] using hlogged

theorem run_inv (hoffset : offset < bunches) (events : List Event) :
    Inv bunches offset (run bunches offset events) := by
  unfold run
  induction events using List.reverseRecOn with
  | nil => exact inv_createMmsHandler
  | append_singleton events event ih =>
      rw [List.foldl_append, List.foldl_cons, List.foldl_nil]
      cases event with
      | initialise bank => exact inv_reset
      | poll bank => exact ih.read hoffset bank
      | publish bank => exact inv_reset

/-- The least of the values of a bunch, from where the accumulator has started. -/
theorem Inv.exact_minimum (hinv : Inv bunches offset h) (hnil : h.readouts ≠ []) {j : ℕ}
    (hj : j < bunches.toNat) :
    IsLeast {x | x ∈ h.readouts.map fun r =>
        (r.minimum (offsetBy bunches.toNat offset.toNat j)).toInt} (h.accum.rawMin j).toInt ↔
      h.cleared = true ∨
        ∃ r ∈ h.readouts, (r.minimum (offsetBy bunches.toNat offset.toNat j)).toInt ≤ 0 := by
  rw [hinv.minimum j hj, Extremum.isLeast_foldl_min_iff]
  simp only [List.mem_map, exists_exists_and_eq_and]
  cases h.cleared with
  | false => simp
  | true =>
      obtain ⟨r, hr⟩ := List.exists_mem_of_ne_nil _ hnil
      exact iff_of_true ⟨r, hr, Int.le_sub_one_of_lt BitVec.toInt_lt⟩ (.inl rfl)

theorem Inv.exact_maximum (hinv : Inv bunches offset h) (hnil : h.readouts ≠ []) {j : ℕ}
    (hj : j < bunches.toNat) :
    IsGreatest {x | x ∈ h.readouts.map fun r =>
        (r.maximum (offsetBy bunches.toNat offset.toNat j)).toInt} (h.accum.rawMax j).toInt ↔
      h.cleared = true ∨
        ∃ r ∈ h.readouts, 0 ≤ (r.maximum (offsetBy bunches.toNat offset.toNat j)).toInt := by
  rw [hinv.maximum j hj, Extremum.isGreatest_foldl_max_iff]
  simp only [List.mem_map, exists_exists_and_eq_and]
  cases h.cleared with
  | false => simp
  | true =>
      obtain ⟨r, hr⟩ := List.exists_mem_of_ne_nil _ hnil
      exact iff_of_true ⟨r, hr, BitVec.le_toInt _⟩ (.inl rfl)

/-- If no addition overflows, the totals are exact but for the extrema from zero on. -/
theorem Inv.exact_iff (hinv : Inv bunches offset h) (hnil : h.readouts ≠ [])
    (hfits : Fits bunches.toNat h.readouts) :
    Exact bunches.toNat offset.toNat h.readouts h.accum ↔
      h.cleared = true ∨ Straddles bunches.toNat offset.toNat h.readouts := by
  have hrange : ∀ j < bunches.toNat, offsetBy bunches.toNat offset.toNat j < bunches.toNat :=
    fun j hj => Nat.mod_lt _ (by omega)
  constructor
  · intro hexact
    by_cases hcleared : h.cleared = true
    · exact .inl hcleared
    · refine .inr fun j hj => ⟨?_, ?_⟩
      · exact ((hinv.exact_minimum hnil hj).mp (hexact.minimum j hj)).resolve_left hcleared
      · exact ((hinv.exact_maximum hnil hj).mp (hexact.maximum j hj)).resolve_left hcleared
  · intro hextrema
    refine ⟨?_, fun j hj => ?_, fun j hj => ?_, fun j hj => ?_, fun j hj => ?_⟩
    · rw [hinv.turns, BitVec.toNat_ofNat, Nat.mod_eq_of_lt hfits.turns]
    · obtain ⟨hlow, hhigh⟩ := hfits.sum _ (hrange j hj) h.readouts.length
      rw [List.take_length] at hlow hhigh
      rw [hinv.sum j hj]
      exact BitVec.toInt_ofInt_eq_self (by decide) hlow hhigh
    · rw [hinv.sum2 j hj, BitVec.toNat_ofNat, Nat.mod_eq_of_lt (hfits.sum2 _ (hrange j hj))]
    · exact (hinv.exact_minimum hnil hj).mpr (hextrema.imp_right fun hs => (hs j hj).1)
    · exact (hinv.exact_maximum hnil hj).mpr (hextrema.imp_right fun hs => (hs j hj).2)

end

/-- A publication keeps what it has to if and only if the hardware has reported an overflow since
the last one, or no addition has overflowed and the extrema have been started from a reset. -/
theorem mms_accumulation_iff (bunches offset : BitVec 32) (hoffset : offset < bunches)
    (events : List Event) (bank : MmsBank) :
    let before := run bunches offset events
    let readouts := before.readouts ++ [readMms bank]
    Kept bunches.toNat offset.toNat (published bunches offset bank before) ↔
      (∃ r ∈ readouts, r.flagged = true) ∨
        Fits bunches.toNat readouts ∧
          (before.cleared = true ∨ Straddles bunches.toNat offset.toNat readouts) := by
  intro before readouts
  have hinv := (run_inv hoffset events).read hoffset bank
  have hreadouts : (published bunches offset bank before).readouts = readouts := rfl
  have hcleared : (published bunches offset bank before).cleared = before.cleared := rfl
  have hnil : (published bunches offset bank before).readouts ≠ [] := by
    rw [hreadouts]
    exact List.append_ne_nil_of_right_ne_nil _ (List.cons_ne_nil _ _)
  constructor
  · intro hkept
    by_cases hflagged : ∃ r ∈ readouts, r.flagged = true
    · exact .inl hflagged
    · right
      have hquiet : (published bunches offset bank before).logged = 0 :=
        Nat.eq_zero_of_not_pos (mt hinv.logged.mp hflagged)
      have hfits : Fits bunches.toNat readouts := by
        by_contra hoverflow
        have hlogged := hkept.software hoverflow
        omega
      exact ⟨hfits, (hinv.exact_iff hnil hfits).mp (hkept.exact hquiet)⟩
  · rintro (hflagged | ⟨hfits, hextrema⟩)
    · have hlogged := hinv.logged.mpr hflagged
      exact ⟨fun hquiet => absurd hquiet hlogged.ne', fun _ => hlogged, fun _ => hlogged⟩
    · exact ⟨fun _ => (hinv.exact_iff hnil hfits).mpr hextrema, hinv.logged.mpr,
        fun hoverflow => absurd hfits hoverflow⟩

/-- A bank of `2 ^ 29` turns without an overflow, with no samples but zeros. -/
def longBank : MmsBank := ⟨0x1FFFFFFF, fun _ => ⟨0, 0, 0, 0⟩⟩

theorem mms_accumulation_quiet :
    Kept 2 1 (published 2 1 longBank (run 2 1 [.initialise longBank, .poll longBank])) := by
  have hsum : ∀ i n, sumTotal ([readMms longBank, readMms longBank].take n) i = 0 := by
    intro i n
    refine List.sum_eq_zero fun x hx => ?_
    obtain ⟨r, hr, rfl⟩ := List.mem_map.mp hx
    have hbank : r = readMms longBank := by simpa using List.mem_of_mem_take hr
    rw [hbank]
    rfl
  have hfits : Fits 2 [readMms longBank, readMms longBank] := by
    refine ⟨by decide, fun i _ n => ?_, fun i _ => ?_⟩
    · rw [hsum i n]
      decide
    · have hzero : sum2Total [readMms longBank, readMms longBank] i = 0 := by
        simp [sum2Total, readMms, longBank]
      rw [hzero]
      decide
  exact (mms_accumulation_iff 2 1 (by decide) [.initialise longBank, .poll longBank] longBank).mpr
    (.inr ⟨hfits, .inl rfl⟩)

/-- The turns of eight readouts without any overflow wrap to nothing, and nothing is logged. -/
theorem turns_dropped :
    let events := .initialise longBank :: List.replicate 7 (.poll longBank)
    let h := published 1 0 longBank (run 1 0 events)
    h.accum.rawTurns = 0 ∧ turnsTotal h.readouts = 2 ^ 32 ∧ h.logged = 0 ∧ ¬ Kept 1 0 h := by
  intro events h
  have htotal : turnsTotal h.readouts = 2 ^ 32 := by decide +kernel
  have hlogged : h.logged = 0 := by decide +kernel
  refine ⟨by decide +kernel, htotal, hlogged, fun hkept => ?_⟩
  have hfits : ¬ Fits 1 h.readouts := by
    intro hfits
    have hturns := hfits.turns
    rw [htotal] at hturns
    exact lt_irrefl _ hturns
  have hpos := hkept.software hfits
  rw [hlogged] at hpos
  exact lt_irrefl _ hpos

end Mbf.Mms
