import Mathlib.Algebra.Ring.Parity
import Mathlib.Order.Interval.Finset.Nat
import Mathlib.Data.Nat.Count
import Mbf.TunePll.Control

/-! # The dwells of the Tune PLL

The dwell counter of `tune_pll_control` counts the turn clocks of a dwell down.  A dwell ends at a turn
clock at which the counter is zero, and the start and write pulses of the detector come two ADC
clocks later.  A resynchronisation, on the start of the feedback, zeroes the counter at any time: the
dwell that it cuts short is not written, and the next ones are full.

A request that meets the turn clock at which a dwell ends is one too late: the dwell clock of that
dwell is taken for the one of the short dwell, and the short dwell, of one turn, is written.  And
`hw_write_pll_dwell_time` keeps 12 bits of a field of 16 bits.  But for these two the detector is
started and written as the dwell time says (`dwell_timing`). -/

namespace Mbf.TunePll

/-- `hw_write_pll_dwell_time`: the field `DWELL_TIME`. -/
def hwWritePllDwellTime (dwell : ℕ) : BitVec 16 := BitVec.ofNat 16 ((dwell - 1) &&& 0xFFF)

/-! ### The ADC clock -/

section adc
variable (i : ℕ → ControlInput)

/-- The registers before the ADC clock `k`; there are two for each DSP clock. -/
def adcAt (k : ℕ) : AdcSide :=
  if k % 2 = 0 then (controlRun i (k / 2)).adc else adcBetween i (k / 2)

/-- There is a turn clock at the ADC clock `k`. -/
def turnAt (k : ℕ) : Bool :=
  if k % 2 = 0 then (i (k / 2)).turnClock.1 else (i (k / 2)).turnClock.2

/-- The turn clocks before the ADC clock `k`. -/
def turnCount (k : ℕ) : ℕ := Nat.count (fun j => turnAt i j = true) k

/-- A dwell ends at the turn clock `k`. -/
def DwellEnds (k : ℕ) : Prop := (adcAt i k).dwellCounter = 0 ∧ turnAt i k = true

/-- The dwell counter is resynchronised at the ADC clock `k`. -/
def Resync (k : ℕ) : Prop := (adcAt i k).syncRequest = true

/-- The start pulse that belongs to the turn clock `k`. -/
def StartPulse (k : ℕ) : Prop := (adcAt i (k + 2)).startDetector = true

/-- The write pulse that belongs to the turn clock `k`. -/
def WritePulse (k : ℕ) : Prop := (adcAt i (k + 2)).writeDetector = true

/-- The detector is started at the turn clocks `k₁` and `k₂`, and not between them. -/
structure Dwell (k₁ k₂ : ℕ) : Prop where
  lt : k₁ < k₂
  first : StartPulse i k₁
  last : StartPulse i k₂
  between : ∀ k, k₁ < k → k < k₂ → ¬ StartPulse i k

/-- The dwell from `k₁` to `k₂` has this number of turns. -/
def HasTurns (k₁ k₂ dwell : ℕ) : Prop := turnCount i (k₂ + 1) = turnCount i (k₁ + 1) + dwell

/-- The dwells after the resynchronisations from the ADC clock `t` on. -/
structure DwellLaw (t dwell : ℕ) : Prop where
  /-- Between resynchronisations the detector is started every `dwell` turns. -/
  starts : ∀ r k₁ k₂, t ≤ r → Resync i r → r < k₁ → Dwell i k₁ k₂ →
    (∀ k, k₁ ≤ k → k < k₂ → ¬ Resync i k) → HasTurns i k₁ k₂ dwell
  /-- What is written is a dwell of `dwell` turns. -/
  writes : ∀ r k₂, t ≤ r → Resync i r → r < k₂ → WritePulse i k₂ →
    ∃ k₁, Dwell i k₁ k₂ ∧ HasTurns i k₁ k₂ dwell
  /-- A dwell in which the counter is resynchronised is not written. -/
  short : ∀ r k₁ k₂, t ≤ r → Resync i r → k₁ < r → r < k₂ → Dwell i k₁ k₂ → ¬ WritePulse i k₂

theorem adcAt_even (n : ℕ) : adcAt i (2 * n) = (controlRun i n).adc := by
  unfold adcAt
  rw [if_pos (Nat.mul_mod_right 2 n), Nat.mul_div_cancel_left n Nat.zero_lt_two]

theorem adcAt_odd (n : ℕ) : adcAt i (2 * n + 1) = adcBetween i n := by
  unfold adcAt
  rw [if_neg (by omega), show (2 * n + 1) / 2 = n by omega]

/-- One ADC clock. -/
theorem adcAt_succ (k : ℕ) : ∃ request, adcAt i (k + 1) =
    (adcAt i k).clock request (turnAt i k) (i (k / 2)).dwellTime := by
  rcases Nat.even_or_odd' k with ⟨n, rfl | rfl⟩
  · refine ⟨(controlRun i n).dsp.syncRequestDsp, ?_⟩
    rw [adcAt_odd, adcAt_even]
    unfold adcBetween turnAt
    rw [if_pos (Nat.mul_mod_right 2 n), Nat.mul_div_cancel_left n Nat.zero_lt_two]
  · refine ⟨(controlRun i (n + 1)).dsp.syncRequestDsp, ?_⟩
    have hnext : adcAt i (2 * n + 1 + 1) = (controlRun i (n + 1)).adc := adcAt_even i (n + 1)
    rw [hnext, adc_succ, adcAt_odd]
    unfold turnAt
    rw [if_neg (by omega), show (2 * n + 1) / 2 = n by omega]

end adc

/-! ### The request for a resynchronisation -/

/-- The registers that a request passes through, on its way to the ADC clock and back. -/
structure Request where
  runState : RunState
  syncRequestDsp : Bool
  requestPl : Bool
  requestIn : Bool
  syncRequest : Bool
  syncState : SyncState
  syncDoneAdc : Bool
  doneDelay : Bool
  doneStretch : Bool
  syncDone : Bool
deriving DecidableEq

namespace Request

def ofControl (c : Control) : Request :=
  ⟨c.dsp.runState, c.dsp.syncRequestDsp, c.adc.requestPl, c.adc.requestIn, c.adc.syncRequest,
    c.adc.syncState, c.adc.syncDoneAdc, c.adc.doneDelay, c.adc.doneStretch, c.dsp.syncDone⟩

/-- `sync_state` after an ADC clock. -/
def nextSync (syncRequest dwellClock : Bool) : SyncState → SyncState
  | .idle => if syncRequest then .start else .idle
  | .start => if dwellClock then .dwell else .start
  | .dwell => if dwellClock then .idle else .dwell

/-- One DSP clock, from the inputs of `run_state` and the dwell clock at the two ADC clocks. -/
def clock (x : Request) (start stopping dwellStart first second : Bool) : Request :=
  let between := nextSync x.syncRequest first x.syncState
  let done := x.syncState = .dwell && first
  { runState :=
      match x.runState with
      | .idle => if start then .starting else .idle
      | .starting => if x.syncDone then .running else .starting
      | .running => if stopping then .stopping else .running
      | .stopping => if dwellStart then .idle else .stopping
    syncRequestDsp := x.runState = .idle && start
    requestPl := x.runState = .idle && start
    requestIn := x.syncRequestDsp
    syncRequest := x.syncRequestDsp && !x.requestPl
    syncState := nextSync (x.requestPl && !x.requestIn) second between
    syncDoneAdc := between = .dwell && second
    doneDelay := done
    doneStretch := done || x.syncDoneAdc
    syncDone := x.doneStretch }

/-- Where a request can be: there is none, it has been made, it is being served, or it is done. -/
def stages : List Request :=
  [.idle, .running, .stopping].map
      (⟨·, false, false, false, false, .idle, false, false, false, false⟩) ++
    [⟨.starting, true, true, false, false, .idle, false, false, false, false⟩] ++
    [(.start, true), (.start, false), (.dwell, false)].map
      (fun s => ⟨.starting, false, false, s.2, false, s.1, false, false, false, false⟩) ++
    [⟨.starting, false, false, false, false, .idle, true, false, false, false⟩,
      ⟨.starting, false, false, false, false, .idle, false, true, true, false⟩,
      ⟨.starting, false, false, false, false, .idle, false, false, true, false⟩,
      ⟨.starting, false, false, false, false, .idle, false, false, false, true⟩]

theorem stages_clock : ∀ x ∈ stages, ∀ start stopping dwellStart first second,
    x.clock start stopping dwellStart first second ∈ stages := by
  decide +kernel

theorem stages_syncState : ∀ x ∈ stages, x.syncRequest = false ∧
    (x.requestPl = true → x.requestIn = false → x.syncState = .idle) := by
  decide

theorem ofControl_clock (c : Control) (i : ControlInput) : ofControl (c.clock i) =
    (ofControl c).clock i.start i.stopping c.dsp.dwellStart c.adc.dwellClock
      (c.adc.clock c.dsp.syncRequestDsp i.turnClock.1 i.dwellTime).dwellClock := rfl

theorem mem_stages (i : ℕ → ControlInput) (n : ℕ) : ofControl (controlRun i n) ∈ stages := by
  refine Clocked.run_invariant (P := fun c => ofControl c ∈ stages) (by decide) ?_ n
  intro x c hc
  rw [ofControl_clock]
  exact stages_clock _ hc _ _ _ _ _

end Request

/-- A request meets the second ADC clock of a DSP clock, and no other request is being served. -/
theorem resync_idle {i : ℕ → ControlInput} {k : ℕ} (h : Resync i k) :
    k % 2 = 1 ∧ (adcAt i k).syncState = .idle := by
  unfold Resync at h
  rcases Nat.even_or_odd' k with ⟨n, rfl | rfl⟩
  · rw [adcAt_even] at h
    have hnone := (Request.stages_syncState _ (Request.mem_stages i n)).1
    exact Bool.noConfusion (hnone.symm.trans h)
  · rw [adcAt_odd] at h ⊢
    obtain ⟨hnone, hidle⟩ := Request.stages_syncState _ (Request.mem_stages i n)
    have hrequest : ((controlRun i n).adc.requestPl && !(controlRun i n).adc.requestIn) = true := h
    rw [Bool.and_eq_true, Bool.not_eq_true'] at hrequest
    have hstate : (controlRun i n).adc.syncState = .idle := hidle hrequest.1 hrequest.2
    have hsync : (controlRun i n).adc.syncRequest = false := hnone
    refine ⟨by omega, ?_⟩
    unfold adcBetween AdcSide.clock
    rw [hstate, hsync]
    rfl

/-! ### Dwells -/

section dwells
variable {i : ℕ → ControlInput} {k k₁ k₂ r : ℕ}

theorem dwellCounter_succ (k : ℕ) : (adcAt i (k + 1)).dwellCounter =
    if (adcAt i k).syncRequest then 0
    else if turnAt i k then
      if (adcAt i k).dwellCounter = 0 then (i (k / 2)).dwellTime else (adcAt i k).dwellCounter - 1
    else (adcAt i k).dwellCounter := by
  obtain ⟨request, hclock⟩ := adcAt_succ i k
  rw [hclock]
  rfl

theorem dwellClock_succ (k : ℕ) : (adcAt i (k + 1)).dwellClock = true ↔ DwellEnds i k := by
  obtain ⟨request, hclock⟩ := adcAt_succ i k
  rw [hclock]
  unfold DwellEnds AdcSide.clock
  simp

theorem syncState_succ (k : ℕ) : (adcAt i (k + 1)).syncState =
    Request.nextSync (adcAt i k).syncRequest (adcAt i k).dwellClock (adcAt i k).syncState := by
  obtain ⟨request, hclock⟩ := adcAt_succ i k
  rw [hclock]
  unfold AdcSide.clock Request.nextSync
  cases (adcAt i k).syncState <;> rfl

theorem startPulse_iff : StartPulse i k ↔ DwellEnds i k := by
  obtain ⟨request, hclock⟩ := adcAt_succ i (k + 1)
  rw [← dwellClock_succ]
  unfold StartPulse
  rw [hclock]
  rfl

theorem writePulse_iff :
    WritePulse i k ↔ DwellEnds i k ∧ (adcAt i (k + 1)).syncState ≠ .start := by
  obtain ⟨request, hclock⟩ := adcAt_succ i (k + 1)
  rw [← dwellClock_succ]
  unfold WritePulse
  rw [hclock]
  unfold AdcSide.clock
  simp

theorem turnCount_succ (k : ℕ) : turnCount i (k + 1) = turnCount i k + (turnAt i k).toNat := by
  unfold turnCount
  rw [Nat.count_succ]
  cases turnAt i k <;> rfl

/-- In a dwell the counter and the turns so far make up the dwell time. -/
theorem counter_turns {dwellTime : BitVec 16} (hdwell : (i (k₁ / 2)).dwellTime = dwellTime)
    (hend : DwellEnds i k₁) (hlt : k₁ < k)
    (hends : ∀ j, k₁ < j → j < k → ¬ DwellEnds i j) (hresync : ∀ j, k₁ ≤ j → j < k → ¬ Resync i j) :
    (adcAt i k).dwellCounter.toNat + turnCount i k = turnCount i (k₁ + 1) + dwellTime.toNat := by
  induction k, hlt using Nat.le_induction with
  | base =>
      have hnot : (adcAt i k₁).syncRequest = false :=
        Bool.eq_false_of_not_eq_true (hresync k₁ le_rfl (Nat.lt_succ_self k₁))
      rw [Nat.succ_eq_add_one, dwellCounter_succ, hnot, hend.2, hend.1, hdwell]
      exact Nat.add_comm _ _
  | succ k hk ih =>
      have hprev := ih (fun j hj hjk => hends j hj (by omega))
        (fun j hj hjk => hresync j hj (by omega))
      have hnot : (adcAt i k).syncRequest = false :=
        Bool.eq_false_of_not_eq_true (hresync k (by omega) (Nat.lt_succ_self k))
      rw [turnCount_succ, dwellCounter_succ, hnot, if_neg Bool.false_ne_true]
      cases hturn : turnAt i k with
      | false => simpa using hprev
      | true =>
          have hne : (adcAt i k).dwellCounter ≠ 0 :=
            fun hzero => hends k hk (Nat.lt_succ_self k) ⟨hzero, hturn⟩
          rw [if_pos rfl, if_neg hne, Bool.toNat_true]
          have hpos : (adcAt i k).dwellCounter.toNat ≠ 0 :=
            fun hzero => hne (BitVec.eq_of_toNat_eq hzero)
          have hpred : ((adcAt i k).dwellCounter - 1).toNat = (adcAt i k).dwellCounter.toNat - 1 := by
            bv_omega
          omega

/-- A dwell without a resynchronisation is as long as the dwell time says. -/
theorem dwell_turns {dwellTime : BitVec 16} (hdwell : (i (k₁ / 2)).dwellTime = dwellTime)
    (h : Dwell i k₁ k₂) (hresync : ∀ k, k₁ ≤ k → k < k₂ → ¬ Resync i k) :
    HasTurns i k₁ k₂ (dwellTime.toNat + 1) := by
  obtain ⟨hlt, hfirst, hlast, hbetween⟩ := h
  rw [startPulse_iff] at hfirst hlast
  have hcount := counter_turns hdwell hfirst hlt
    (fun j hj hjk => startPulse_iff.not.mp (hbetween j hj hjk)) hresync
  unfold HasTurns
  rw [turnCount_succ, hlast.2, Bool.toNat_true]
  rw [hlast.1] at hcount
  change 0 + _ = _ at hcount
  omega

/-- After a resynchronisation the counter is zero until a dwell ends, at the next turn clock. -/
theorem zero_of_resync (hr : Resync i r) (hlt : r < k)
    (hends : ∀ j, r < j → j < k → ¬ DwellEnds i j) (hresync : ∀ j, r < j → j < k → ¬ Resync i j) :
    (adcAt i k).dwellCounter = 0 ∧ turnCount i k = turnCount i (r + 1) := by
  induction k, hlt using Nat.le_induction with
  | base =>
      have hrequest : (adcAt i r).syncRequest = true := hr
      rw [Nat.succ_eq_add_one, dwellCounter_succ, hrequest, if_pos rfl]
      exact ⟨rfl, rfl⟩
  | succ k hk ih =>
      obtain ⟨hzero, hcount⟩ := ih (fun j hj hjk => hends j hj (by omega))
        (fun j hj hjk => hresync j hj (by omega))
      have hnot : (adcAt i k).syncRequest = false :=
        Bool.eq_false_of_not_eq_true (hresync k hk (Nat.lt_succ_self k))
      have hturn : turnAt i k = false := by
        by_contra hturn
        exact hends k hk (Nat.lt_succ_self k) ⟨hzero, Bool.eq_true_of_not_eq_false hturn⟩
      rw [dwellCounter_succ, turnCount_succ, hnot, hturn]
      exact ⟨hzero, hcount⟩

/-- If it does not meet the end of a dwell, the dwell that it cuts short is not written. -/
theorem not_writePulse_of_resync (hr : Resync i r) (hend : ¬ DwellEnds i r) (hlt : r < k)
    (hends : ∀ j, r < j → j < k → ¬ DwellEnds i j) (hresync : ∀ j, r < j → j < k → ¬ Resync i j) :
    ¬ WritePulse i k := by
  have hstart : (adcAt i k).syncState = .start ∧ (adcAt i k).dwellClock = false := by
    induction k, hlt using Nat.le_induction with
    | base =>
        have hrequest : (adcAt i r).syncRequest = true := hr
        rw [Nat.succ_eq_add_one, syncState_succ, hrequest, (resync_idle hr).2]
        exact ⟨rfl, Bool.eq_false_of_not_eq_true (mt (dwellClock_succ r).mp hend)⟩
    | succ k hk ih =>
        obtain ⟨hstate, hclock⟩ := ih (fun j hj hjk => hends j hj (by omega))
          (fun j hj hjk => hresync j hj (by omega))
        rw [syncState_succ, hstate, hclock]
        exact ⟨rfl, Bool.eq_false_of_not_eq_true
          (mt (dwellClock_succ k).mp (hends k hk (Nat.lt_succ_self k)))⟩
  rw [writePulse_iff]
  rintro ⟨-, hne⟩
  rw [syncState_succ, hstart.1, hstart.2] at hne
  exact hne rfl

/-- The last clock from `m` on, before `k`, for which `p` holds. -/
theorem exists_last {p : ℕ → Prop} {m j : ℕ} (hm : m ≤ j) (hk : j < k) (hp : p j) :
    ∃ j, m ≤ j ∧ j < k ∧ p j ∧ ∀ j', j < j' → j' < k → ¬ p j' := by
  classical
  have hle : j ≤ Nat.findGreatest p (k - 1) := Nat.le_findGreatest (by omega) hp
  have hbound := Nat.findGreatest_le (P := p) (k - 1)
  exact ⟨Nat.findGreatest p (k - 1), by omega, by omega,
    Nat.findGreatest_spec (m := j) (by omega) hp,
    fun j' hj' hlt => Nat.findGreatest_is_greatest hj' (by omega)⟩

/-- A dwell time of 12 bits arrives. -/
theorem hwWritePllDwellTime_toNat {dwell : ℕ} (hpos : 1 ≤ dwell) (hwidth : dwell ≤ 4096) :
    (hwWritePllDwellTime dwell).toNat + 1 = dwell := by
  unfold hwWritePllDwellTime
  rw [BitVec.toNat_ofNat, show 0xFFF = 2 ^ 12 - 1 from rfl, Nat.and_two_pow_sub_one_eq_mod]
  omega

/-- **Dwell timing**: with the dwell time written before the ADC clock `2 t`, the detector is started
every `dwell` turns between the resynchronisations after it, only dwells of `dwell` turns are written
after one, and no dwell that was cut short is, as long as the dwell time has 12 bits and no
resynchronisation meets the turn clock at which a dwell ends, or dwells are of one turn anyway. -/
theorem dwell_timing (dwell : ℕ) (i : ℕ → ControlInput) (t : ℕ) (hpos : 1 ≤ dwell)
    (hdwell : ∀ n, t ≤ n → (i n).dwellTime = hwWritePllDwellTime dwell)
    (hwidth : dwell ≤ 4096) (hmeets : ∀ r, 2 * t ≤ r → Resync i r → DwellEnds i r → dwell = 1) :
    DwellLaw i (2 * t) dwell := by
  have hturns : ∀ {k₁ k₂}, 2 * t ≤ k₁ → Dwell i k₁ k₂ →
      (∀ k, k₁ ≤ k → k < k₂ → ¬ Resync i k) → HasTurns i k₁ k₂ dwell := by
    intro k₁ k₂ hk₁ h hnone
    rw [← hwWritePllDwellTime_toNat hpos hwidth]
    exact dwell_turns (hdwell _ (by omega)) h hnone
  refine ⟨fun r k₁ k₂ ht _ hr h hnone => hturns (by omega) h hnone,
    fun r k₂ ht hr hlt hwrite => ?_, fun r k₁ k₂ ht hr hk₁ hk₂ h => ?_⟩
  · obtain ⟨hend, -⟩ := writePulse_iff.mp hwrite
    obtain ⟨r, ht, hlt, hr, hlast⟩ := exists_last ht hlt hr
    by_cases hbetween : ∃ j, r < j ∧ j < k₂ ∧ DwellEnds i j
    · obtain ⟨j, hrj, hjk, hj⟩ := hbetween
      obtain ⟨k₁, hrk₁, hlt₁, hend₁, hlast₁⟩ := exists_last (m := r + 1) hrj hjk hj
      have h : Dwell i k₁ k₂ := ⟨hlt₁, startPulse_iff.mpr hend₁, startPulse_iff.mpr hend,
        fun k hk hk' => startPulse_iff.not.mpr (hlast₁ k hk hk')⟩
      exact ⟨k₁, h, hturns (by omega) h fun k hk hk' => hlast k (by omega) hk'⟩
    · have hnone : ∀ j, r < j → j < k₂ → ¬ DwellEnds i j :=
        fun j hj hjk hj' => hbetween ⟨j, hj, hjk, hj'⟩
      by_cases hmeet : DwellEnds i r
      · refine ⟨r, ⟨hlt, startPulse_iff.mpr hmeet, startPulse_iff.mpr hend,
          fun k hk hk' => startPulse_iff.not.mpr (hnone k hk hk')⟩, ?_⟩
        unfold HasTurns
        rw [turnCount_succ, hend.2, (zero_of_resync hr hlt hnone hlast).2, hmeets r ht hr hmeet]
        rfl
      · exact absurd hwrite (not_writePulse_of_resync hr hmeet hlt hnone hlast)
  · obtain ⟨r', hrr', hlt, hr', hlast⟩ := exists_last le_rfl hk₂ hr
    have hnone : ∀ j, k₁ < j → j < k₂ → ¬ DwellEnds i j :=
      fun j hj hjk => startPulse_iff.not.mp (h.between j hj hjk)
    exact not_writePulse_of_resync hr' (hnone r' (by omega) hlt) hlt
      (fun j hj hjk => hnone j (by omega) hjk) hlast

end dwells

/-! ### A start of the feedback -/

section
variable (i : ℕ → ControlInput) (k k₁ k₂ dwell : ℕ)

instance : Decidable (DwellEnds i k) := inferInstanceAs (Decidable (_ ∧ _))
instance : Decidable (Resync i k) := inferInstanceAs (Decidable (_ = _))
instance : Decidable (StartPulse i k) := inferInstanceAs (Decidable (_ = _))
instance : Decidable (WritePulse i k) := inferInstanceAs (Decidable (_ = _))
instance : Decidable (HasTurns i k₁ k₂ dwell) := inferInstanceAs (Decidable (_ = _))

end

/-- A turn clock on one of the two ADC clocks of each DSP clock; the feedback is started at the DSP
clock 3, and the counter is resynchronised at the ADC clock 9. -/
def startFeedback (second : Bool) (dwell n : ℕ) : ControlInput where
  turnClock := (!second, second)
  dwellTime := hwWritePllDwellTime dwell
  start := n = 3
  stop := false
  detectorOverflow := false
  magnitudeError := false
  offsetError := false
  blanking := false
  blankingEnable := false

/-- The request meets no turn clock. -/
theorem dwell_timing_two_turns :
    (Resync (startFeedback false 2) 9 ∧ StartPulse (startFeedback false 2) 10 ∧
      ¬ WritePulse (startFeedback false 2) 10 ∧ WritePulse (startFeedback false 2) 14) ∧
    DwellLaw (startFeedback false 2) (2 * 0) 2 := by
  refine ⟨by decide +kernel, dwell_timing 2 _ 0 (by decide) (fun _ _ => rfl) (by decide) ?_⟩
  intro r _ hr hend
  have hturn := hend.2
  unfold turnAt at hturn
  rw [if_neg (by have := (resync_idle hr).1; omega)] at hturn
  cases hturn

/-- A dwell time of 4097 turns becomes one of 1 turn; and a request that meets the turn clock at
which a dwell of 2 turns ends has a dwell of 1 turn written. -/
theorem dwell_timing_fails :
    ¬ DwellLaw (startFeedback false 4097) 0 4097 ∧ ¬ DwellLaw (startFeedback true 2) 0 2 := by
  constructor
  · intro hlaw
    have h : Dwell (startFeedback false 4097) 10 12 := by
      refine ⟨by decide, by decide +kernel, by decide +kernel, fun k hk hk' => ?_⟩
      obtain rfl : k = 11 := by omega
      decide +kernel
    have hnone : ∀ k, 10 ≤ k → k < 12 → ¬ Resync (startFeedback false 4097) k := by
      intro k hk hk'
      have hk : k = 10 ∨ k = 11 := by omega
      rcases hk with rfl | rfl <;> decide +kernel
    have hlong := hlaw.starts 9 10 12 (Nat.zero_le 9) (by decide +kernel) (by decide) h hnone
    exact absurd hlong (by decide +kernel)
  · intro hlaw
    obtain ⟨k₁, ⟨hlt, hfirst, -, hbetween⟩, hlong⟩ :=
      hlaw.writes 9 11 (Nat.zero_le 9) (by decide +kernel) (by decide) (by decide +kernel)
    have hk₁ : k₁ = 9 := by
      rcases lt_trichotomy k₁ 9 with h | h | h
      · exact absurd (by decide +kernel) (hbetween 9 h (by decide))
      · exact h
      · obtain rfl : k₁ = 10 := by omega
        exact absurd hfirst (by decide +kernel)
    subst hk₁
    exact absurd hlong (by decide +kernel)

end Mbf.TunePll
