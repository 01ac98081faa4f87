import Mathlib.Data.Fintype.Pi
import Mbf.Sequencer.Scale

/-! # The detector of an axis

The configuration of the sequencer and of the detectors of one axis, with what is written to the
hardware when the axis is armed (`prepare_seq_target`) and what is published when a capture is
complete (`detector_readout_event`).

A change of the configuration does not reach the published scale at once.  It sets
`seq_config_dirty`, or leaves that to the `UPDATE_COUNT` record that is processed after it; when
the axis is armed the flag is copied beside the configuration that is written; and when a capture
is complete the scale is computed again if the copy is set.

Beside the state of the program stands a record of what the hardware has been doing (`hw`,
`captured`, `memory`): the configuration last written to it, that of its last capture, and that
of the last capture that wrote the detector memory; and one of what happened since the axis was
last armed (`unmarked`, `readOut`).  The waveforms of the detectors and
their overflow bits are left out. -/

namespace Mbf.Detector

open Mbf.Sequencer

/-! ### The sequencer -/

/-- `struct seq_context`. -/
structure SeqContext where
  seqConfig : SeqConfig
  seqHwConfig : SeqConfig
  seqConfigDirty : Bool
  seqHwConfigDirty : Bool

/-- A write to one of the records of the sequencer; `state` is the index of an entry. -/
inductive SeqEdit where
  | startFreq (state : Fin maxSequencerCount) (freq : ℕ)
  /-- `write_step_freq`, and `write_end_freq` with the step it computes. -/
  | stepFreq (state : Fin maxSequencerCount) (freq : ℕ)
  | count (state : Fin maxSequencerCount) (n : ℕ)
  /-- `write_dwell_time`, with the window rate it computes. -/
  | dwell (state : Fin maxSequencerCount) (n rate : ℕ)
  | holdoff (state : Fin maxSequencerCount) (n : ℕ)
  | stateHoldoff (state : Fin maxSequencerCount) (n : ℕ)
  | capture (state : Fin maxSequencerCount) (enable : Bool)
  | bank (state : Fin maxSequencerCount) (n : ℕ)
  | enableWindow (state : Fin maxSequencerCount) (enable : Bool)
  | blanking (state : Fin maxSequencerCount) (enable : Bool)
  | tunePll (state : Fin maxSequencerCount) (enable : Bool)
  | gain (state : Fin maxSequencerCount) (n : ℕ)
  | bank0 (n : ℕ)
  | pc (n : ℕ)
  | superCount (n : ℕ)
  | superOffsets (freqs : ℕ → ℕ)
  /-- `UPDATE_COUNT`. -/
  | updateCount

/-- Change an entry. -/
def setEntry (state : Fin maxSequencerCount) (f : SeqEntry → SeqEntry) (config : SeqConfig) :
    SeqConfig :=
  { config with
    entries := Function.update config.entries state.val (f (config.entries state.val)) }

/-- What an edit changes. -/
def SeqEdit.apply : SeqEdit → SeqConfig → SeqConfig
  | .startFreq state freq => setEntry state fun entry => { entry with startFreq := freq }
  | .stepFreq state freq => setEntry state fun entry => { entry with deltaFreq := freq }
  | .count state n => setEntry state fun entry => { entry with captureCount := n }
  | .dwell state n rate => setEntry state fun entry =>
      { entry with dwellTime := n, windowRate := rate }
  | .holdoff state n => setEntry state fun entry => { entry with holdoff := n }
  | .stateHoldoff state n => setEntry state fun entry => { entry with stateHoldoff := n }
  | .capture state enable => setEntry state fun entry => { entry with writeEnable := enable }
  | .bank state n => setEntry state fun entry => { entry with bunchBank := n }
  | .enableWindow state enable => setEntry state fun entry => { entry with enableWindow := enable }
  | .blanking state enable => setEntry state fun entry => { entry with enableBlanking := enable }
  | .tunePll state enable => setEntry state fun entry => { entry with useTunePll := enable }
  | .gain state n => setEntry state fun entry => { entry with ncoGain := n }
  | .bank0 n => fun config => { config with bank0 := n }
  | .pc n => fun config => { config with sequencerPc := n }
  | .superCount n => fun config => { config with superSeqCount := n }
  | .superOffsets freqs => fun config => { config with superOffsets := freqs }
  | .updateCount => id

/-- The edits that set `seq_config_dirty`. -/
def SeqEdit.marks : SeqEdit → Bool
  | .startFreq .. | .stepFreq .. | .count .. | .superOffsets .. | .updateCount => true
  | _ => false

/-- The edit changes what the scale is computed from, and does not set `seq_config_dirty`. -/
def SeqEdit.slips (config : SeqConfig) : SeqEdit → Bool
  | .dwell state n _ => decide (n ≠ (config.entries state.val).dwellTime)
  | .holdoff state n => decide (n ≠ (config.entries state.val).holdoff)
  | .stateHoldoff state n => decide (n ≠ (config.entries state.val).stateHoldoff)
  | .capture state enable => decide (enable ≠ (config.entries state.val).writeEnable)
  | .pc n => decide (n ≠ config.sequencerPc)
  | .superCount n => decide (n ≠ config.superSeqCount)
  | _ => false

theorem setEntry_scalePart {state : Fin maxSequencerCount} {f : SeqEntry → SeqEntry}
    {config : SeqConfig}
    (hf : (f (config.entries state.val)).scalePart = (config.entries state.val).scalePart) :
    (setEntry state f config).scalePart = config.scalePart := by
  unfold setEntry SeqConfig.scalePart
  rw [SeqConfig.mk.injEq]
  refine ⟨rfl, rfl, rfl, funext fun i => ?_, rfl⟩
  by_cases heq : i = state.val
  · subst heq
    dsimp only
    rw [Function.update_self]
    exact hf
  · dsimp only
    rw [Function.update_of_ne heq]

/-- An edit that neither sets the flag nor slips leaves the scale alone. -/
theorem SeqEdit.apply_scalePart {e : SeqEdit} {config : SeqConfig} (hmarks : e.marks = false)
    (hslips : e.slips config = false) : (e.apply config).scalePart = config.scalePart := by
  cases e with
  | startFreq | stepFreq | count | superOffsets | updateCount => cases hmarks
  | dwell | holdoff | stateHoldoff | capture =>
      simp only [slips, decide_eq_false_iff_not, not_not] at hslips
      subst hslips
      exact setEntry_scalePart rfl
  | pc | superCount =>
      simp only [slips, decide_eq_false_iff_not, not_not] at hslips
      subst hslips
      rfl
  | bank | enableWindow | blanking | tunePll | gain => exact setEntry_scalePart rfl
  | bank0 => rfl

/-- The values that the records admit. -/
def SeqEdit.Admitted : SeqEdit → Prop
  | .count _ n | .dwell _ n _ => 1 ≤ n ∧ n ≤ 2 ^ 16
  | .holdoff _ n | .stateHoldoff _ n => n < 2 ^ 16
  | .pc n => 1 ≤ n ∧ n ≤ maxSequencerCount
  | .superCount n => 1 ≤ n ∧ n ≤ superSeqStates
  | _ => True

instance : DecidablePred SeqEdit.Admitted
  | .count _ n | .dwell _ n _ => inferInstanceAs (Decidable (1 ≤ n ∧ n ≤ 2 ^ 16))
  | .holdoff _ n | .stateHoldoff _ n => inferInstanceAs (Decidable (n < 2 ^ 16))
  | .pc n => inferInstanceAs (Decidable (1 ≤ n ∧ n ≤ maxSequencerCount))
  | .superCount n => inferInstanceAs (Decidable (1 ≤ n ∧ n ≤ superSeqStates))
  | .startFreq _ _ | .stepFreq _ _ | .capture _ _ | .bank _ _ | .enableWindow _ _ | .blanking _ _
  | .tunePll _ _ | .gain _ _ | .bank0 _ | .superOffsets _ | .updateCount =>
      inferInstanceAs (Decidable True)

def SeqContext.edit (e : SeqEdit) (seq : SeqContext) : SeqContext :=
  { seq with
    seqConfig := e.apply seq.seqConfig
    seqConfigDirty := seq.seqConfigDirty || e.marks }

/-- `prepare_sequencer`, but for the write to the hardware. -/
def prepareSequencer (seq : SeqContext) : SeqContext :=
  { seq with
    seqHwConfig := seq.seqConfig
    seqHwConfigDirty := seq.seqConfigDirty
    seqConfigDirty := false }

/-! ### The detectors -/

/-- The number of a detector, below `DETECTOR_COUNT`. -/
abbrev DetectorId := Fin 4

/-- `enum detector_input_select`. -/
inductive DetSelect where
  | adc
  | fir
  | reject
deriving DecidableEq

/-- The fixed configuration: the length of the published waveforms, the number of bunches, the
delays of the hardware, and the conversion of frequencies by `freq_to_tune`. -/
structure Setup (Tune : Type) where
  detectorLength : ℕ
  bunches : ℕ
  detAdcDelay : ℤ
  detFirDelay : ℤ
  detAdcRejectDelay : ℤ
  freqToTune : BitVec 64 → Tune

/-- `struct scale_info`. -/
structure ScaleInfo (Tune : Type) where
  samples : ℕ
  tuneScale : List Tune
  timebase : List (BitVec 32)
deriving DecidableEq

/-- `struct detector_context`, with the part of each bank that is read here. -/
structure DetectorContext (Tune : Type) where
  /-- The enables in the configuration of the banks. -/
  enable : DetectorId → Bool
  /-- Set if currently enabled in hardware. -/
  enabled : DetectorId → Bool
  /-- Number of valid samples in each bank. -/
  samples : DetectorId → ℕ
  inputSelect : DetSelect
  /-- The group delay of the FIR in bunches. -/
  firGroupDelay : ℤ
  phaseDelay : ℤ
  detectorCount : ℕ
  detectorMask : ℕ
  scaleInfo : ScaleInfo Tune
  fillWaveform : Bool
  scaleLength : ℕ

/-- A write to one of the records of the detector. -/
inductive DetEdit where
  | enable (detector : DetectorId) (value : Bool)
  | select (value : DetSelect)
  | firDelay (value : ℤ)
  | fillWaveform (value : Bool)

variable {Tune : Type}

def DetectorContext.edit (det : DetectorContext Tune) : DetEdit → DetectorContext Tune
  | .enable detector value => { det with enable := Function.update det.enable detector value }
  | .select value => { det with inputSelect := value }
  | .firDelay value => { det with firGroupDelay := value }
  | .fillWaveform value => { det with fillWaveform := value }

/-- `compute_detector_delay_offset`: the delay. -/
def computeDetectorDelay (setup : Setup Tune) (det : DetectorContext Tune) : ℤ :=
  match det.inputSelect with
  | .adc => setup.detAdcDelay + setup.bunches
  | .fir => setup.detFirDelay + det.firGroupDelay
  | .reject => setup.detAdcRejectDelay + setup.bunches

/-- The number of enabled detectors, and the mask of them. -/
def countDetectors (enable : DetectorId → Bool) : ℕ × ℕ :=
  (List.finRange 4).foldl (fun (count, mask) i =>
    if enable i then (count + 1, mask ||| 1 <<< i.val) else (count, mask)) (0, 0)

/-- `prepare_detector`, but for the write to the hardware. -/
def prepareDetector (setup : Setup Tune) (det : DetectorContext Tune) : DetectorContext Tune :=
  { det with
    phaseDelay := computeDetectorDelay setup det
    enabled := det.enable
    detectorCount := (countDetectors det.enable).1
    detectorMask := (countDetectors det.enable).2 }

/-- `read_detector_scale_info`.  All of the buffers is written, whatever they held. -/
def readDetectorScaleInfo (setup : Setup Tune) (config : SeqConfig) : ScaleInfo Tune :=
  let scale := computeScaleInfo config (fun _ => 0) (fun _ => 0) 0
    (BitVec.ofNat 32 setup.detectorLength)
  { samples := scale.ix.toNat
    tuneScale := (List.range setup.detectorLength).map fun i => setup.freqToTune (scale.frequency i)
    timebase := (List.range setup.detectorLength).map scale.timebase }

theorem readDetectorScaleInfo_congr {setup : Setup Tune} {config config' : SeqConfig}
    (h : config.scalePart = config'.scalePart) :
    readDetectorScaleInfo setup config = readDetectorScaleInfo setup config' := by
  unfold readDetectorScaleInfo
  rw [← computeScaleInfo_scalePart config, h, computeScaleInfo_scalePart]

/-- `update_detector_scale`. -/
def updateDetectorScale (setup : Setup Tune) (seq : SeqContext) (det : DetectorContext Tune) :
    DetectorContext Tune :=
  let info := readDetectorScaleInfo setup seq.seqHwConfig
  { det with
    scaleInfo := info
    scaleLength :=
      if det.fillWaveform then setup.detectorLength else min setup.detectorLength info.samples }

/-- `update_samples`. -/
def updateSamples (det : DetectorContext Tune) : DetectorContext Tune :=
  { det with samples := fun i => if det.enable i then det.scaleLength else 0 }

/-- `detector_readout_event`. -/
def detectorReadoutEvent (setup : Setup Tune) (seq : SeqContext) (det : DetectorContext Tune) :
    DetectorContext Tune :=
  updateSamples (if seq.seqHwConfigDirty then updateDetectorScale setup seq det else det)

/-! ### The axis and its hardware -/

/-- The configuration in the hardware. -/
structure Written where
  config : SeqConfig
  enable : DetectorId → Bool
  delay : ℤ

/-- A capture with the configuration writes the detector memory. -/
def Written.writes (w : Written) : Bool :=
  decide (w.config.points ≠ []) && decide (∃ i, w.enable i = true)

/-- An axis, and what its hardware has been doing. -/
structure Axis (Tune : Type) where
  seq : SeqContext
  det : DetectorContext Tune
  /-- What was last written to the hardware. -/
  hw : Written
  /-- What was written for the last capture. -/
  captured : Written
  /-- What was written for the last capture that wrote the detector memory. -/
  memory : Option Written
  /-- The memory has been written since the hardware was. -/
  current : Bool
  /-- Since the axis was last prepared an edit has slipped. -/
  unmarked : Bool
  /-- Since the axis was last prepared a capture has been read out. -/
  readOut : Bool

namespace Axis

/-- A record of the sequencer is written. -/
def editSeq (e : SeqEdit) (a : Axis Tune) : Axis Tune :=
  { a with
    seq := a.seq.edit e
    unmarked := a.unmarked || e.slips a.seq.seqConfig }

/-- `prepare_seq_target`. -/
def prepare (setup : Setup Tune) (a : Axis Tune) : Axis Tune :=
  { a with
    seq := prepareSequencer a.seq
    det := prepareDetector setup a.det
    hw := ⟨a.seq.seqConfig, a.det.enable, computeDetectorDelay setup a.det⟩
    current := false
    unmarked := false
    readOut := false }

/-- A capture starts. -/
def capture (a : Axis Tune) : Axis Tune :=
  { a with
    captured := a.hw
    memory := if a.hw.writes then some a.hw else a.memory
    current := a.current || a.hw.writes }

/-- A capture is read out. -/
def readout (setup : Setup Tune) (a : Axis Tune) : Axis Tune :=
  { a with
    det := detectorReadoutEvent setup a.seq a.det
    readOut := true }

/-- The axis as it comes up: `seq_config_dirty` is set, the scale is that of the hardware, and the
memory has not been written. -/
structure Initial (setup : Setup Tune) (a : Axis Tune) : Prop where
  dirty : a.seq.seqConfigDirty = true
  config : a.seq.seqHwConfig = a.hw.config
  enabled : a.det.enabled = a.hw.enable
  count : (a.det.detectorCount, a.det.detectorMask) = countDetectors a.hw.enable
  phaseDelay : a.det.phaseDelay = a.hw.delay
  scaleInfo : a.det.scaleInfo = readDetectorScaleInfo setup a.hw.config
  current : a.current = false
  admitted : a.seq.seqConfig.Admitted
  points : a.hw.config.points.length < 2 ^ 32

end Axis

end Mbf.Detector
