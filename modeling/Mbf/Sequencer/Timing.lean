import Mbf.Lib.Watched
import Mbf.Sequencer.Slice

/-! # The timing of the sequencer

`update_capture_count` computes the duration and the number of samples of one sequencer program
for `DURATION` and `LENGTH`, and `compute_scale_info` the timebase of the super sequence, all of it
in `unsigned int`.  Both computations are given over any type of numbers: on words they are those
of the source, on watched words they tell whether anything has wrapped (`scaleTime_value`).

The number of samples is always exact.  The turns are exact, and nothing wraps on the way to them,
exactly if the whole super sequence takes less than `2 ^ 32` turns (`timing_exact_iff`), which the
ranges of the PVs do not promise. -/

namespace Mbf.Sequencer

/-! ### The computations -/

section code
variable (α : Type) [NatCast α] [Add α] [Mul α]

/-- The variables `capture_count` and `sequencer_duration`. -/
structure Counts where
  captureCount : α
  sequencerDuration : α

variable {α}

/-- The body of the loop over the banks. -/
def Counts.addBank (counts : Counts α) (entry : SeqEntry) : Counts α where
  captureCount :=
    if entry.writeEnable then counts.captureCount + (entry.captureCount : α)
    else counts.captureCount
  sequencerDuration :=
    counts.sequencerDuration + ((entry.stateHoldoff : α) +
      (entry.captureCount : α) * ((entry.dwellTime : α) + (entry.holdoff : α)))

/-- The loop over the first `n` banks. -/
def countBanks (entries : ℕ → SeqEntry) : ℕ → Counts α
  | 0 => ⟨((0 : ℕ) : α), ((0 : ℕ) : α)⟩
  | n + 1 => (countBanks entries n).addBank (entries n)

variable (α)

/-- `update_capture_count`. -/
def updateCaptureCount (config : SeqConfig) : Counts α :=
  countBanks config.entries config.sequencerPc

variable {α}

/-- The variables `ix` and `total_time` of `compute_scale_info`. -/
structure ScaleCounts (α : Type) where
  ix : α
  totalTime : α

namespace ScaleCounts

/-- A capture, as far as these variables go. -/
def capture (dwellTime : α) (s : ScaleCounts α) : ScaleCounts α where
  ix := s.ix + ((1 : ℕ) : α)
  totalTime := s.totalTime + dwellTime

/-- The body of the loop over the states. -/
def state (entry : SeqEntry) (s : ScaleCounts α) : ScaleCounts α :=
  let t := { s with totalTime := s.totalTime + (entry.stateHoldoff : α) }
  let dwellTime := (entry.dwellTime : α) + (entry.holdoff : α)
  if entry.writeEnable then (capture dwellTime)^[entry.captureCount] t
  else { t with totalTime := t.totalTime + dwellTime * (entry.captureCount : α) }

/-- The loop over the states, from `seq_count` down to 1. -/
def states (entries : ℕ → SeqEntry) : ℕ → ScaleCounts α → ScaleCounts α
  | 0, s => s
  | k + 1, s => states entries k (s.state (entries k))

end ScaleCounts

variable (α)

/-- The loops of `compute_scale_info`, as far as `ix` and `total_time` go. -/
def scaleTime (config : SeqConfig) : ScaleCounts α :=
  (ScaleCounts.states config.entries config.sequencerPc)^[config.superSeqCount]
    ⟨((0 : ℕ) : α), ((0 : ℕ) : α)⟩

end code

/-! ### What they should compute -/

/-- The samples of a state. -/
def SeqEntry.samples (entry : SeqEntry) : ℕ := if entry.writeEnable then entry.captureCount else 0

/-- The samples of the first `n` states. -/
def SeqConfig.sweepSamples (config : SeqConfig) (n : ℕ) : ℕ :=
  ((List.range n).map fun i => (config.entries i).samples).sum

/-- The turns of the super sequence. -/
def SeqConfig.totalTurns (config : SeqConfig) : ℕ :=
  config.superSeqCount * config.sweepTurns config.sequencerPc

/-- The duration, the number of samples and each entry of a timebase are the true numbers, and
nothing wraps on the way to them. -/
structure TimingExact (config : SeqConfig) : Prop where
  captureCount : (updateCaptureCount (BitVec 32) config).captureCount.toNat =
    config.sweepSamples config.sequencerPc
  duration : (updateCaptureCount (BitVec 32) config).sequencerDuration.toNat =
    config.sweepTurns config.sequencerPc
  timebase : ∀ frequency timebase startOffset length, SliceLaw config startOffset length →
    ∀ i < length.toNat,
      ((computeScaleInfo config frequency timebase startOffset length).timebase i).toNat =
        (config.scaleAt (startOffset.toNat + i)).2
  counts_unwrapped : (updateCaptureCount (Watched 32) config).captureCount.wrapped = false ∧
    (updateCaptureCount (Watched 32) config).sequencerDuration.wrapped = false
  scale_unwrapped : (scaleTime (Watched 32) config).ix.wrapped = false ∧
    (scaleTime (Watched 32) config).totalTime.wrapped = false

/-! ### The watched runs -/

section watched
variable {w : ℕ} {entry : SeqEntry} {entries : ℕ → SeqEntry} {config : SeqConfig}
  {samples turns : ℕ}

/-- A watched run computes what the words do. -/
theorem countBanks_value (entries : ℕ → SeqEntry) (n : ℕ) :
    (countBanks entries n : Counts (Watched w)).captureCount.value =
        (countBanks entries n : Counts (BitVec w)).captureCount ∧
      (countBanks entries n : Counts (Watched w)).sequencerDuration.value =
        (countBanks entries n : Counts (BitVec w)).sequencerDuration := by
  induction n with
  | zero => exact ⟨rfl, rfl⟩
  | succ n ih =>
      obtain ⟨hcount, hduration⟩ := ih
      unfold countBanks Counts.addBank
      refine ⟨?_, congrArg (· + _) hduration⟩
      dsimp only
      split_ifs
      · exact congrArg (· + _) hcount
      · exact hcount

/-- The dwell of a state and its holdoff. -/
theorem dwellTurns_of (entry : SeqEntry) :
    ((entry.dwellTime : Watched w) + (entry.holdoff : Watched w)).Of entry.dwellTurns :=
  (Watched.Of.cast _).add (.cast _)

/-- What the two variables stand for. -/
structure Counts.Of (counts : Counts (Watched w)) (samples turns : ℕ) : Prop where
  captureCount : counts.captureCount.Of samples
  sequencerDuration : counts.sequencerDuration.Of turns

theorem SeqEntry.Admitted.dwellTurns_pos (h : entry.Admitted) : 0 < entry.dwellTurns := by
  have hdwell := h.dwellTime.1
  unfold SeqEntry.dwellTurns
  omega

/-- A bank adds its samples and its turns. -/
theorem Counts.Of.addBank {counts : Counts (Watched w)} (h : counts.Of samples turns)
    (hentry : entry.Admitted) :
    (counts.addBank entry).Of (samples + entry.samples) (turns + entry.turns) := by
  refine ⟨?_, ?_⟩
  · unfold Counts.addBank SeqEntry.samples
    dsimp only
    split_ifs
    · exact h.captureCount.add (.cast _)
    · exact h.captureCount
  · have hproduct := (Watched.Of.cast (w := w) entry.captureCount).mul (dwellTurns_of entry)
      hentry.captureCount.1 hentry.dwellTurns_pos
    exact h.sequencerDuration.add ((Watched.Of.cast entry.stateHoldoff).add hproduct)

theorem sweepSamples_succ (config : SeqConfig) (n : ℕ) :
    config.sweepSamples (n + 1) = config.sweepSamples n + (config.entries n).samples := by
  unfold SeqConfig.sweepSamples
  rw [List.range_succ, List.map_append, List.sum_append, List.map_singleton, List.sum_singleton]

theorem countBanks_of (hconfig : config.Admitted) {n : ℕ} (hn : n ≤ maxSequencerCount) :
    (countBanks config.entries n : Counts (Watched w)).Of (config.sweepSamples n)
      (config.sweepTurns n) := by
  induction n with
  | zero => exact ⟨.cast 0, .cast 0⟩
  | succ n ih =>
      rw [sweepSamples_succ, SeqConfig.sweepTurns, Nat.add_comm (config.entries n).turns]
      exact (ih (by omega)).addBank (hconfig.entries n hn)

/-- What the index and the time stand for. -/
structure ScaleCounts.Of (s : ScaleCounts (Watched w)) (samples turns : ℕ) : Prop where
  ix : s.ix.Of samples
  totalTime : s.totalTime.Of turns

/-- The loop over the captures of a state. -/
theorem ScaleCounts.Of.captures {s : ScaleCounts (Watched w)} {dwellTime : Watched w} {n : ℕ}
    (h : s.Of samples turns) (hdwell : dwellTime.Of n) (k : ℕ) :
    ((ScaleCounts.capture dwellTime)^[k] s).Of (samples + k) (turns + k * n) := by
  induction k with
  | zero => simpa using h
  | succ k ih =>
      rw [Function.iterate_succ_apply', Nat.succ_mul, ← Nat.add_assoc, ← Nat.add_assoc]
      exact ⟨ih.ix.add (.cast 1), ih.totalTime.add hdwell⟩

/-- The loop over the states, one state. -/
theorem ScaleCounts.Of.state {s : ScaleCounts (Watched w)} (h : s.Of samples turns)
    (hentry : entry.Admitted) :
    (s.state entry).Of (samples + entry.samples) (turns + entry.turns) := by
  have hholdoff := h.totalTime.add (.cast entry.stateHoldoff)
  have hstart : ScaleCounts.Of ⟨s.ix, s.totalTime + entry.stateHoldoff⟩ samples
      (turns + entry.stateHoldoff) := ⟨h.ix, hholdoff⟩
  have hdwell := dwellTurns_of (w := w) entry
  unfold ScaleCounts.state SeqEntry.samples SeqEntry.turns
  dsimp only
  rw [← Nat.add_assoc]
  split_ifs
  · exact hstart.captures hdwell entry.captureCount
  · refine ⟨h.ix, ?_⟩
    rw [Nat.mul_comm entry.captureCount]
    exact hholdoff.add (hdwell.mul (.cast _) hentry.dwellTurns_pos hentry.captureCount.1)

/-- The loop over the states. -/
theorem ScaleCounts.Of.states (hconfig : config.Admitted) {k : ℕ} (hk : k ≤ maxSequencerCount) :
    ∀ {s : ScaleCounts (Watched w)} {samples turns}, s.Of samples turns →
      (ScaleCounts.states config.entries k s).Of (samples + config.sweepSamples k)
        (turns + config.sweepTurns k) := by
  induction k with
  | zero => exact fun h => h
  | succ k ih =>
      intro s samples turns h
      have hrest := ih (by omega) (h.state (hconfig.entries k hk))
      rw [sweepSamples_succ, SeqConfig.sweepTurns, Nat.add_comm (config.sweepSamples k),
        ← Nat.add_assoc, ← Nat.add_assoc]
      exact hrest

/-- The loops of `compute_scale_info`. -/
theorem scaleTime_of (hconfig : config.Admitted) :
    (scaleTime (Watched w) config).Of
      (config.superSeqCount * config.sweepSamples config.sequencerPc) config.totalTurns := by
  unfold scaleTime SeqConfig.totalTurns
  generalize config.superSeqCount = n
  induction n with
  | zero =>
      rw [Nat.zero_mul, Nat.zero_mul]
      exact ⟨.cast 0, .cast 0⟩
  | succ n ih =>
      rw [Function.iterate_succ_apply', Nat.succ_mul, Nat.succ_mul]
      exact ih.states hconfig hconfig.sequencerPc.2

end watched

/-- The watched time is that of `compute_scale_info`. -/
theorem scaleTime_value {config : SeqConfig} (hconfig : config.Admitted)
    (frequency : ℕ → BitVec 64) (timebase : ℕ → BitVec 32) (startOffset length : BitVec 32) :
    (scaleTime (Watched 32) config).totalTime.value =
      (computeScaleInfo config frequency timebase startOffset length).totalTime := by
  have hholds := computeScaleInfo_holds frequency timebase startOffset length
    (points_length hconfig)
  rw [(scaleTime_of hconfig).totalTime.value, hholds.totalTime]
  rfl

/-! ### When the timing is exact -/

theorem samples_le (entry : SeqEntry) : entry.samples ≤ entry.captureCount := by
  unfold SeqEntry.samples
  split_ifs
  · exact le_rfl
  · exact Nat.zero_le _

/-- The points of a state are in its turns. -/
theorem points_le (entry : SeqEntry) (superOffset turn : ℕ) :
    ∀ point ∈ entry.points superOffset turn, point.2 ≤ turn + entry.turns := by
  intro point hpoint
  unfold SeqEntry.points SeqEntry.captures at hpoint
  split_ifs at hpoint
  · obtain ⟨i, hi, rfl⟩ := List.mem_map.mp hpoint
    have hle : i * entry.dwellTurns ≤ entry.captureCount * entry.dwellTurns :=
      Nat.mul_le_mul_right _ (List.mem_range.mp hi).le
    unfold SeqEntry.turns
    dsimp only
    omega
  · cases hpoint

/-- The points of the states are in their turns. -/
theorem sweepPoints_le (config : SeqConfig) (superOffset k turn : ℕ) :
    ∀ point ∈ config.sweepPoints superOffset k turn, point.2 ≤ turn + config.sweepTurns k := by
  induction k generalizing turn with
  | zero =>
      intro point hpoint
      cases hpoint
  | succ k ih =>
      intro point hpoint
      unfold SeqConfig.sweepTurns
      obtain hfirst | hrest := List.mem_append.mp hpoint
      · have hle := points_le _ _ _ point hfirst
        omega
      · have hle := ih _ point hrest
        omega

/-- Each turn of the scale is among those of the super sequence. -/
theorem scaleAt_le (config : SeqConfig) (i : ℕ) : (config.scaleAt i).2 ≤ config.totalTurns := by
  by_cases hi : i < config.points.length
  · have hmem : config.scaleAt i ∈ config.points :=
      List.mem_of_getElem? (scaleAt_point hi)
    unfold SeqConfig.points SeqConfig.superPoints at hmem
    obtain ⟨super, hsuper, hpoint⟩ := List.mem_flatMap.mp hmem
    rw [List.mem_range] at hsuper
    have hsweep := sweepPoints_le _ _ _ _ _ hpoint
    rw [← Nat.succ_mul] at hsweep
    exact hsweep.trans (Nat.mul_le_mul_right _ hsuper)
  · rw [scaleAt_tail (Nat.le_of_not_lt hi)]
    exact le_rfl

section exact
variable {config : SeqConfig} (hconfig : config.Admitted)
include hconfig

/-- A program takes at most `2 ^ 16` samples in each state. -/
theorem sweepSamples_le {n : ℕ} (hn : n ≤ maxSequencerCount) :
    config.sweepSamples n ≤ n * 2 ^ 16 := by
  induction n with
  | zero => exact Nat.zero_le _
  | succ n ih =>
      have hstate := (samples_le (config.entries n)).trans (hconfig.entries n hn).captureCount.2
      have hbefore := ih (by omega)
      rw [sweepSamples_succ, Nat.succ_mul]
      exact Nat.add_le_add hbefore hstate

/-- The samples of a program fit, and those of a super sequence as well. -/
theorem sweepSamples_lt : config.superSeqCount * config.sweepSamples config.sequencerPc < 2 ^ 32 := by
  have hsamples := sweepSamples_le hconfig hconfig.sequencerPc.2
  calc config.superSeqCount * config.sweepSamples config.sequencerPc
      ≤ superSeqStates * (maxSequencerCount * 2 ^ 16) :=
        Nat.mul_le_mul hconfig.superSeqCount.2
          (hsamples.trans (Nat.mul_le_mul_right _ hconfig.sequencerPc.2))
    _ < 2 ^ 32 := by decide

/-- A program is no longer than the super sequence. -/
theorem sweepTurns_le : config.sweepTurns config.sequencerPc ≤ config.totalTurns :=
  Nat.le_mul_of_pos_left _ hconfig.superSeqCount.1

/-- The duration is exact if and only if one program takes less than `2 ^ 32` turns. -/
theorem duration_iff : (updateCaptureCount (BitVec 32) config).sequencerDuration.toNat =
    config.sweepTurns config.sequencerPc ↔ config.sweepTurns config.sequencerPc < 2 ^ 32 := by
  have hcounts := countBanks_of (w := 32) hconfig hconfig.sequencerPc.2
  rw [updateCaptureCount, ← (countBanks_value config.entries config.sequencerPc).2]
  exact hcounts.sequencerDuration.toNat_iff

/-- The timing is exact if and only if the super sequence takes less than `2 ^ 32` turns. -/
theorem timing_exact_iff : TimingExact config ↔ config.totalTurns < 2 ^ 32 := by
  have hscale := scaleTime_of (w := 32) hconfig
  constructor
  · intro h
    exact hscale.totalTime.not_wrapped.mp h.scale_unwrapped.2
  · intro hfits
    have hcounts := countBanks_of (w := 32) hconfig hconfig.sequencerPc.2
    have hsamples := sweepSamples_lt hconfig
    have hprogram : config.sweepSamples config.sequencerPc < 2 ^ 32 :=
      (Nat.le_mul_of_pos_left _ hconfig.superSeqCount.1).trans_lt hsamples
    have hturns := (sweepTurns_le hconfig).trans_lt hfits
    obtain ⟨hcount, -⟩ := countBanks_value (w := 32) config.entries config.sequencerPc
    constructor
    case captureCount =>
      rw [updateCaptureCount, ← hcount]
      exact hcounts.captureCount.toNat hprogram
    case duration => exact (duration_iff hconfig).mpr hturns
    case timebase =>
      intro frequency timebase startOffset length hslice i hi
      have hstored := (hslice frequency timebase).2.1 i hi
      rw [hstored, timebaseValue, BitVec.toNat_ofNat,
        Nat.mod_eq_of_lt ((scaleAt_le config _).trans_lt hfits)]
    case counts_unwrapped =>
      exact ⟨hcounts.captureCount.not_wrapped.mpr hprogram,
        hcounts.sequencerDuration.not_wrapped.mpr hturns⟩
    case scale_unwrapped =>
      exact ⟨hscale.ix.not_wrapped.mpr hsamples, hscale.totalTime.not_wrapped.mpr hfits⟩

end exact

theorem timing_exact_sweep : TimingExact sweepConfig :=
  (timing_exact_iff sweepConfig_admitted).mpr (by decide)

/-- One state with the longest sweep of the longest dwell. -/
def longSweep : SeqConfig where
  bank0 := 0
  sequencerPc := 1
  superSeqCount := 1
  entries _ := { dwellTime := 2 ^ 16, captureCount := 2 ^ 16, writeEnable := true }
  superOffsets _ := 0

/-- The turns of the longest sweep, which the PVs admit, wrap to a duration of zero. -/
theorem timing_not_exact :
    longSweep.Admitted ∧ (updateCaptureCount (BitVec 32) longSweep).sequencerDuration = 0 ∧
      longSweep.sweepTurns longSweep.sequencerPc = 2 ^ 32 ∧ ¬ TimingExact longSweep := by
  have hadmitted : longSweep.Admitted := by
    refine ⟨by decide, by decide, fun i _ => ⟨?_, ?_, ?_, ?_⟩⟩ <;> simp [longSweep]
  refine ⟨hadmitted, by decide, by decide, fun h => ?_⟩
  have hduration := h.duration
  revert hduration
  decide

end Mbf.Sequencer
