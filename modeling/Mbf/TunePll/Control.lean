import Mbf.Lib.Clocked

/-! # The control of the Tune PLL feedback

`tune_pll_control` on its two clocks.  The dwell counter runs on the ADC clock, which has two edges
for each of the DSP clock; the feedback is started and stopped on the DSP clock, in step with the
dwells.  A dwell start and the end of a resynchronisation cross to the DSP clock, and the request
for it crosses to the ADC clock, each through a pulse synchroniser.

One clock here is a DSP clock with the two ADC clocks that it spans.  The registers that the source
leaves without an initial value start as zero, as they do in the FPGA. -/

namespace Mbf.TunePll

/-! ### The ADC clock -/

/-- `sync_state_t`. -/
inductive SyncState where
  | idle
  | start
  | dwell
  deriving DecidableEq

/-- The registers on the ADC clock, with those of the synchronisers. -/
structure AdcSide where
  dwellCounter : BitVec 16 := 0
  dwellClock : Bool := true
  syncState : SyncState := .idle
  syncDoneAdc : Bool := false
  startDetector : Bool := true
  writeDetector : Bool := true
  /-- `pulse_delay` and `pulse_stretch` of `dwell_to_dsp`. -/
  dwellDelay : Bool := false
  dwellStretch : Bool := false
  /-- `pulse_pl` and `pulse_in` of `sync_to_adc`, and its output. -/
  requestPl : Bool := false
  requestIn : Bool := false
  syncRequest : Bool := false
  /-- `pulse_delay` and `pulse_stretch` of `done_to_dsp`. -/
  doneDelay : Bool := false
  doneStretch : Bool := false

def AdcSide.clock (syncRequestDsp turnClock : Bool) (dwellTime : BitVec 16) (a : AdcSide) :
    AdcSide where
  dwellCounter :=
    if a.syncRequest then 0
    else if turnClock then
      if a.dwellCounter = 0 then dwellTime else a.dwellCounter - 1
    else a.dwellCounter
  dwellClock := a.dwellCounter = 0 && turnClock
  syncState :=
    match a.syncState with
    | .idle => if a.syncRequest then .start else .idle
    | .start => if a.dwellClock then .dwell else .start
    | .dwell => if a.dwellClock then .idle else .dwell
  syncDoneAdc := a.syncState = .dwell && a.dwellClock
  startDetector := a.dwellClock
  writeDetector := a.dwellClock && a.syncState ≠ .start
  dwellDelay := a.dwellClock
  dwellStretch := a.dwellClock || a.dwellDelay
  requestPl := syncRequestDsp
  requestIn := a.requestPl
  syncRequest := a.requestPl && !a.requestIn
  doneDelay := a.syncDoneAdc
  doneStretch := a.syncDoneAdc || a.doneDelay

/-! ### The DSP clock -/

/-- `run_state_t`. -/
inductive RunState where
  | idle
  | starting
  | running
  | stopping
  deriving DecidableEq

/-- The stop reasons. -/
structure StopReason where
  stop : Bool := false
  detectorOverflow : Bool := false
  magnitudeError : Bool := false
  offsetError : Bool := false

/-- The inputs of one DSP clock. -/
structure ControlInput where
  /-- At each of the two ADC clocks. -/
  turnClock : Bool × Bool
  dwellTime : BitVec 16
  start : Bool
  stop : Bool
  detectorOverflow : Bool
  magnitudeError : Bool
  offsetError : Bool
  blanking : Bool
  blankingEnable : Bool

/-- The registers on the DSP clock. -/
structure DspSide where
  runState : RunState := .idle
  enable : Bool := false
  syncRequestDsp : Bool := false
  reason : StopReason := {}
  blankingIn : Bool := false
  blankingOut : Bool := false
  /-- The outputs of `dwell_to_dsp` and `done_to_dsp`. -/
  dwellStart : Bool := false
  syncDone : Bool := false

/-- `stopping_feedback`. -/
def ControlInput.stopping (i : ControlInput) : Bool :=
  i.stop || i.detectorOverflow || i.magnitudeError || i.offsetError

def DspSide.clock (a : AdcSide) (i : ControlInput) (d : DspSide) : DspSide where
  runState :=
    match d.runState with
    | .idle => if i.start then .starting else .idle
    | .starting => if d.syncDone then .running else .starting
    | .running => if i.stopping then .stopping else .running
    | .stopping => if d.dwellStart then .idle else .stopping
  enable :=
    match d.runState with
    | .idle => false
    | .running => true
    | .starting | .stopping => d.enable
  syncRequestDsp := d.runState = .idle && i.start
  reason :=
    if (d.runState = .starting ∨ d.runState = .running) ∧ i.stopping then
      ⟨i.stop, i.detectorOverflow, i.magnitudeError, i.offsetError⟩
    else if d.runState = .idle ∧ i.start then {}
    else d.reason
  blankingIn := i.blanking
  blankingOut := if d.dwellStart then d.blankingIn && i.blankingEnable else d.blankingOut
  dwellStart := a.dwellStretch
  syncDone := a.doneStretch

/-! ### Both clocks -/

structure Control where
  adc : AdcSide := {}
  dsp : DspSide := {}

/-- The second ADC clock falls between two edges of the DSP clock. -/
def Control.clock (i : ControlInput) (c : Control) : Control :=
  let dsp := c.dsp.clock c.adc i
  let adc := c.adc.clock c.dsp.syncRequestDsp i.turnClock.1 i.dwellTime
  ⟨adc.clock dsp.syncRequestDsp i.turnClock.2 i.dwellTime, dsp⟩

/-- The control before the DSP clock `n`. -/
def controlRun (i : ℕ → ControlInput) : ℕ → Control := Clocked.run Control.clock {} i

/-! ### The status that the software reads -/

/-- `struct tune_pll_status`. -/
structure PllStatus where
  running : Bool
  stopped : Bool
  overflow : Bool
  tooSmall : Bool
  badOffset : Bool

/-- `hw_read_pll_status`, through the status register. -/
def hwReadPllStatus (c : Control) : PllStatus where
  running := c.dsp.enable
  stopped := c.dsp.reason.stop
  overflow := c.dsp.reason.detectorOverflow
  tooSmall := c.dsp.reason.magnitudeError
  badOffset := c.dsp.reason.offsetError

/-- `update_pll_status`. -/
def updatePllStatus (c : Control) : PllStatus :=
  let status := hwReadPllStatus c
  let stopped := status.stopped || status.overflow || status.tooSmall || status.badOffset
  { status with running := !stopped }

/-! ### Stopping -/

/-- A stop reason bit is set. -/
def StopReason.any (r : StopReason) : Bool :=
  r.stop || r.detectorOverflow || r.magnitudeError || r.offsetError

section runs
variable (i : ℕ → ControlInput)

/-- The feedback is started at the clock `n`. -/
def Starts (n : ℕ) : Prop := (controlRun i n).dsp.runState = .idle ∧ (i n).start = true

/-- No stop is lost, and a stop reason is shown only by a feedback that has stopped, or is stopping
at the end of its dwell. -/
structure StopsKept : Prop where
  /-- After a stop the feedback is disabled, and stays so until the next start. -/
  stops : ∀ t, (i t).stopping = true → ∃ n, t < n ∧ ∀ u, n ≤ u →
    (∀ v, t ≤ v → v < u → ¬ Starts i v) → (controlRun i u).dsp.enable = false
  reasons : ∀ t, (controlRun i t).dsp.reason.any = true →
    (controlRun i t).dsp.runState = .stopping ∨ (controlRun i (t + 1)).dsp.enable = false
  status : ∀ t, (updatePllStatus (controlRun i t)).running = false →
    (controlRun i t).dsp.runState ≠ .running

/-- No stop condition arises while the feedback is starting. -/
def NoStopWhileStarting : Prop :=
  ∀ t, (controlRun i t).dsp.runState = .starting → (i t).stopping = false

/-- The turn clock keeps ticking. -/
def TurnClockRuns : Prop :=
  Clocked.Recurs fun n => (i n).turnClock.1 = true ∨ (i n).turnClock.2 = true

/-! ### The dwell clock -/

/-- The registers on the ADC clock between the two ADC clocks of the DSP clock `n`. -/
def adcBetween (n : ℕ) : AdcSide :=
  (controlRun i n).adc.clock (controlRun i n).dsp.syncRequestDsp (i n).turnClock.1 (i n).dwellTime

theorem adc_succ (n : ℕ) : (controlRun i (n + 1)).adc =
    (adcBetween i n).clock (controlRun i (n + 1)).dsp.syncRequestDsp (i n).turnClock.2
      (i n).dwellTime := rfl

theorem dsp_succ (n : ℕ) : (controlRun i (n + 1)).dsp =
    (controlRun i n).dsp.clock (controlRun i n).adc (i n) := rfl

/-- Without a request the counter counts the turn clocks down, up to a dwell clock. -/
theorem counter_clock {a : AdcSide} {request turnClock : Bool} {dwellTime : BitVec 16}
    (hrequest : a.syncRequest = false)
    (hclock : (a.clock request turnClock dwellTime).dwellClock = false) :
    (a.clock request turnClock dwellTime).dwellCounter.toNat + turnClock.toNat =
      a.dwellCounter.toNat := by
  unfold AdcSide.clock at hclock ⊢
  dsimp only at hclock ⊢
  rw [hrequest]
  cases turnClock with
  | false => simp
  | true =>
      have hne : a.dwellCounter ≠ 0 := by simpa using hclock
      have hpos : a.dwellCounter.toNat ≠ 0 := fun h => hne (BitVec.eq_of_toNat_eq h)
      simp only [Bool.false_eq_true, if_false, if_true, if_neg hne, Bool.toNat_true]
      rw [BitVec.toNat_sub_of_le (by bv_omega)]
      change _ - 1 + 1 = _
      omega

variable {i}

/-- If the feedback is stopping for good there are no dwell clocks. -/
theorem no_dwellClock {t : ℕ} (h : ∀ n, t ≤ n → (controlRun i n).dsp.runState = .stopping) (n : ℕ)
    (hn : t ≤ n) :
    (adcBetween i n).dwellClock = false ∧ (controlRun i (n + 1)).adc.dwellClock = false := by
  have hstart : ∀ n, t ≤ n → (controlRun i n).dsp.dwellStart = false := by
    intro n hn
    have hnext := h (n + 1) (by omega)
    rw [dsp_succ] at hnext
    unfold DspSide.clock at hnext
    rw [h n hn] at hnext
    by_contra hdwell
    rw [Bool.not_eq_false] at hdwell
    simp [hdwell] at hnext
  have hstretch : ∀ n, t ≤ n → (controlRun i n).adc.dwellStretch = false :=
    fun n hn => hstart (n + 1) (by omega)
  have hlow : ∀ n, t ≤ n →
      (adcBetween i n).dwellClock = false ∧ (controlRun i n).adc.dwellClock = false := by
    intro n hn
    exact Bool.or_eq_false_iff.mp (hstretch (n + 1) (by omega))
  exact ⟨(hlow n hn).1, (hlow (n + 1) (by omega)).2⟩

/-- Two clocks after the feedback has begun to stop no request is left. -/
theorem no_request {t : ℕ} (h : ∀ n, t ≤ n → (controlRun i n).dsp.runState = .stopping) (n : ℕ)
    (hn : t + 2 ≤ n) :
    (controlRun i n).adc.syncRequest = false ∧ (adcBetween i n).syncRequest = false := by
  have hdsp : ∀ n, t ≤ n → (controlRun i (n + 1)).dsp.syncRequestDsp = false := by
    intro n hn
    rw [dsp_succ]
    unfold DspSide.clock
    simp [h n hn]
  obtain ⟨m, rfl⟩ : ∃ m, n = m + 1 := ⟨n - 1, by omega⟩
  have hpl : (controlRun i (m + 1)).adc.requestPl = false := hdsp m (by omega)
  have hbetween : (adcBetween i m).requestPl = false := by
    obtain ⟨k, rfl⟩ : ∃ k, m = k + 1 := ⟨m - 1, by omega⟩
    exact hdsp k (by omega)
  constructor
  · rw [adc_succ]
    unfold AdcSide.clock
    simp [hbetween]
  · unfold adcBetween AdcSide.clock
    simp [hpl]

/-- A feedback that is stopping becomes idle. -/
theorem stopping_ends (hturn : TurnClockRuns i) {t : ℕ}
    (ht : (controlRun i t).dsp.runState = .stopping) :
    ∃ n, t ≤ n ∧ (controlRun i n).dsp.runState = .idle := by
  by_contra hnever
  push Not at hnever
  have hstopping : ∀ n, t ≤ n → (controlRun i n).dsp.runState = .stopping := by
    intro n hn
    induction n, hn using Nat.le_induction with
    | base => exact ht
    | succ n hn ih =>
        have hnext := hnever (n + 1) (by omega)
        rw [dsp_succ] at hnext ⊢
        unfold DspSide.clock at hnext ⊢
        rw [ih] at hnext ⊢
        dsimp only at hnext ⊢
        split_ifs at hnext ⊢ with hdwell
        · exact absurd rfl hnext
        · rfl
  have hcount : ∀ n, t + 2 ≤ n → (controlRun i (n + 1)).adc.dwellCounter.toNat +
      (i n).turnClock.1.toNat + (i n).turnClock.2.toNat =
        (controlRun i n).adc.dwellCounter.toNat := by
    intro n hn
    obtain ⟨hrequest, hrequest'⟩ := no_request hstopping n hn
    obtain ⟨hclock, hclock'⟩ := no_dwellClock hstopping n (by omega)
    have hfirst := counter_clock hrequest hclock
    have hsecond := counter_clock hrequest' hclock'
    change (controlRun i (n + 1)).adc.dwellCounter.toNat + _ = _ at hsecond
    change (adcBetween i n).dwellCounter.toNat + _ = _ at hfirst
    omega
  refine @Clocked.Recurs.not_decreasing _ hturn (fun n => (controlRun i n).adc.dwellCounter.toNat)
    (t + 2) ?_ ?_
  · intro n hn
    have h := hcount n hn
    omega
  · intro n hn htick
    have h := hcount n hn
    rcases htick with htick | htick
    · rw [htick, Bool.toNat_true] at h
      omega
    · rw [htick, Bool.toNat_true] at h
      omega

/-! ### Stops -/

/-- Once idle the feedback is disabled until it is started. -/
theorem idle_stays {n u : ℕ} (hn : (controlRun i n).dsp.runState = .idle) (hu : n + 1 ≤ u)
    (hstarts : ∀ v, n ≤ v → v < u → ¬ Starts i v) :
    (controlRun i u).dsp.runState = .idle ∧ (controlRun i u).dsp.enable = false := by
  have hstep : ∀ v, (controlRun i v).dsp.runState = .idle → ¬ Starts i v →
      (controlRun i (v + 1)).dsp.runState = .idle ∧
        (controlRun i (v + 1)).dsp.enable = false := by
    intro v hidle hstart
    unfold Starts at hstart
    rw [dsp_succ]
    unfold DspSide.clock
    rw [hidle]
    dsimp only
    rw [if_neg fun h => hstart ⟨hidle, h⟩]
    exact ⟨rfl, rfl⟩
  induction u, hu using Nat.le_induction with
  | base => exact hstep n hn (hstarts n le_rfl (Nat.lt_succ_self n))
  | succ u hu ih =>
      have hu' := ih fun v hv hlt => hstarts v hv (by omega)
      exact hstep u hu'.1 (hstarts u (by omega) (Nat.lt_succ_self u))

/-- Without stops while it starts, the feedback shows no stop reason while it starts or runs, and is
enabled only once it runs. -/
theorem no_reason (hstop : NoStopWhileStarting i) (n : ℕ) :
    ((controlRun i n).dsp.runState = .starting →
      (controlRun i n).dsp.reason.any = false ∧ (controlRun i n).dsp.enable = false) ∧
    ((controlRun i n).dsp.runState = .running → (controlRun i n).dsp.reason.any = false) := by
  induction n with
  | zero => exact ⟨fun h => RunState.noConfusion h, fun h => RunState.noConfusion h⟩
  | succ n ih =>
      rw [dsp_succ]
      unfold DspSide.clock
      cases hstate : (controlRun i n).dsp.runState with
      | idle =>
          cases hstart : (i n).start with
          | false => simp
          | true => simp [StopReason.any]
      | starting =>
          have hnot := hstop n hstate
          simp [hnot, ih.1 hstate]
      | running =>
          cases hstopping : (i n).stopping with
          | false => simp [ih.2 hstate]
          | true => simp
      | stopping =>
          dsimp only
          split_ifs <;> simp

/-- In every run in which no stop condition arises while the feedback is starting, no stop is
lost. -/
theorem stops_kept (hturn : TurnClockRuns i) (hstop : NoStopWhileStarting i) : StopsKept i := by
  have hidle : ∀ t n, t ≤ n → (controlRun i n).dsp.runState = .idle →
      ∃ n, t < n ∧ ∀ u, n ≤ u → (∀ v, t ≤ v → v < u → ¬ Starts i v) →
        (controlRun i u).dsp.enable = false := by
    intro t n hn hstate
    refine ⟨n + 1, by omega, fun u hu hstarts => ?_⟩
    exact (idle_stays hstate hu fun v hv hlt => hstarts v (hn.trans hv) hlt).2
  refine ⟨fun t hstopping => ?_, fun t hany => ?_, fun t hstatus hrunning => ?_⟩
  · cases hstate : (controlRun i t).dsp.runState with
    | idle => exact hidle t t le_rfl hstate
    | starting => exact Bool.noConfusion ((hstop t hstate).symm.trans hstopping)
    | running =>
        have hnext : (controlRun i (t + 1)).dsp.runState = .stopping := by
          rw [dsp_succ]
          unfold DspSide.clock
          simp [hstate, hstopping]
        obtain ⟨n, hn, hend⟩ := stopping_ends hturn hnext
        exact hidle t n (by omega) hend
    | stopping =>
        obtain ⟨n, hn, hend⟩ := stopping_ends hturn hstate
        exact hidle t n hn hend
  · cases hstate : (controlRun i t).dsp.runState with
    | idle =>
        right
        rw [dsp_succ]
        unfold DspSide.clock
        rw [hstate]
    | starting =>
        have hnone := ((no_reason hstop t).1 hstate).1
        exact Bool.noConfusion (hnone.symm.trans hany)
    | running =>
        have hnone := (no_reason hstop t).2 hstate
        exact Bool.noConfusion (hnone.symm.trans hany)
    | stopping => exact .inl rfl
  · have hnone := (no_reason hstop t).2 hrunning
    have hstopped : (!(controlRun i t).dsp.reason.any) = false := hstatus
    rw [hnone] at hstopped
    exact Bool.noConfusion hstopped

end runs

/-! ### Two runs -/

/-- A turn clock at every ADC clock, and dwells of one turn; the feedback is started at the clock 3
and stopped at the clock `stopAt`. -/
def startStop (stopAt n : ℕ) : ControlInput where
  turnClock := (true, true)
  dwellTime := 0
  start := n = 3
  stop := n = stopAt
  detectorOverflow := false
  magnitudeError := false
  offsetError := false
  blanking := false
  blankingEnable := false

theorem startStop_turnClockRuns (stopAt : ℕ) : TurnClockRuns (startStop stopAt) :=
  fun n => ⟨n, le_rfl, .inl rfl⟩

/-- A stop once the feedback runs is kept. -/
theorem stops_kept_running : StopsKept (startStop 40) := by
  apply stops_kept (startStop_turnClockRuns 40)
  intro t hstarting
  have hne : t ≠ 40 := by
    rintro rfl
    exact absurd hstarting (by decide +kernel)
  simp [startStop, ControlInput.stopping, hne]

/-- A stop while the feedback starts is noted, but the feedback runs nevertheless. -/
theorem stops_kept_not_starting : ¬ ∀ i, TurnClockRuns i → StopsKept i := by
  intro hall
  have hkept := hall (startStop 5) (startStop_turnClockRuns 5)
  have hstatus := hkept.status 40 (by decide +kernel)
  exact absurd hstatus (by decide +kernel)

end Mbf.TunePll
