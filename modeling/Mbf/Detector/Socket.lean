import Mbf.Detector.Addresses
import Mbf.Detector.Published

/-! # The detector command

`process_detector_command` as a function of the axis it reads (`processDetectorCommand`): the
description of the capture, the words of the detector memory in the order they are sent, and the
scale and the timebase.  The words are given by their places in DRAM1.

The description, the number of samples and the scale come from three places that are written at
different times.  They are those of the capture in memory if the axis has not been armed since,
or has captured since, and the capture has been read out; and the words are its words if it fits
the half of the memory that belongs to the axis (`detector_command_describes`). -/

namespace Mbf.Detector

open Mbf.Sequencer Mbf.Trigger

/-! ### The command -/

/-- `struct detector_args`, without the axis and the locking. -/
structure DetectorArgs where
  framed : Bool
  scale : Bool
  longScale : Bool
  timebase : Bool

/-- What is sent. -/
structure DetectorReply where
  frame : Option DetectorFrame
  words : List ℕ
  scale : List (BitVec 32)
  longScale : List (BitVec 64)
  timebase : List (BitVec 32)
deriving DecidableEq

variable {Tune : Type}

/-- `read_detector_samples`: the words of DRAM1 that are read. -/
def readDetectorSamples (axis : Fin 2) (sampleSize offset samples : ℕ) : List ℕ :=
  let read := readDetectorSamplesRange word axis sampleSize offset samples
  List.range' (read.seekOffset / detectorResultSize) (read.readRequest / detectorResultSize)

/-- The buffers of `compute_scale_info` for `samples` points from `offset` on. -/
def readScale {α : Type} (config : SeqConfig) (buffer : Scale → ℕ → α) (offset samples : ℕ) :
    List α :=
  (List.range samples).map (buffer (computeScaleInfo config (fun _ => 0) (fun _ => 0)
    (BitVec.ofNat 32 offset) (BitVec.ofNat 32 samples)))

/-- `read_detector_scale`. -/
def readDetectorScale (config : SeqConfig) (offset samples : ℕ) : List (BitVec 32) :=
  (readScale config Scale.frequency offset samples).map fun f : BitVec 64 =>
    (f >>> 16).setWidth 32

/-- `read_detector_scale_long`. -/
def readDetectorScaleLong (config : SeqConfig) (offset samples : ℕ) : List (BitVec 64) :=
  readScale config Scale.frequency offset samples

/-- `read_detector_timebase`. -/
def readDetectorTimebase (config : SeqConfig) (offset samples : ℕ) : List (BitVec 32) :=
  readScale config Scale.timebase offset samples

/-- `send_detector_data`; the state of the loop is the offset.  A pass takes at least one sample,
so `samples` passes are enough, unless a sample does not fit the buffer. -/
def sendDetectorData {α : Type} (samples sampleSize : ℕ) (readSamples : ℕ → ℕ → List α) :
    Option (List α) :=
  Passes.passes (Memory.readBufferBytes / sampleSize)
    (fun samplesToRead offset =>
      some (readSamples offset samplesToRead, offset + samplesToRead)) samples samples 0

/-- A part that is sent only if it is asked for. -/
def sendIf {α : Type} (wanted : Bool) (part : Option (List α)) : Option (List α) :=
  if wanted then part else some []

/-- `send_detector_result`. -/
def sendDetectorResult (bunches : ℕ) (axis : Fin 2) (config : SeqConfig) (args : DetectorArgs)
    (info : DetectorInfo) : Option DetectorReply := do
  let words ← sendDetectorData info.samples (info.detectorCount * detectorResultSize)
    (readDetectorSamples axis (info.detectorCount * detectorResultSize))
  let longScale ← sendIf (args.scale && args.longScale)
    (sendDetectorData info.samples 8 (readDetectorScaleLong config))
  let scale ← sendIf (args.scale && !args.longScale)
    (sendDetectorData info.samples 4 (readDetectorScale config))
  let timebase ← sendIf args.timebase
    (sendDetectorData info.samples 4 (readDetectorTimebase config))
  return {
    frame := if args.framed then some (writeDetectorInfo bunches info) else none
    words, scale, longScale, timebase }

/-- `process_detector_command`, once the lock has been granted. -/
def processDetectorCommand (setup : Setup Tune) (axis : Fin 2) (a : Axis Tune)
    (args : DetectorArgs) : Option (Except String DetectorReply) :=
  let info := getDetectorInfo a.det
  if 0 < info.detectorCount then
    (sendDetectorResult setup.bunches axis a.seq.seqHwConfig args info).map .ok
  else some (.error "No detectors enabled")

/-! ### What it should send -/

/-- Where a capture of the axis writes its words, in the order it writes them. -/
def writtenWords (axis : Fin 2) (count : ℕ) : List ℕ :=
  (List.range count).map fun k => dram1Word axis (BitVec.ofNat 23 k)

theorem Captured.writtenWords {enable : DetectorId → Bool} {s : DetectorOutput}
    {i : ℕ → OutputInput} {samples n : ℕ} (h : Captured enable s i samples n) (axis : Fin 2) :
    (takenBefore enable s i n).map (fun item => dram1Word axis item.1) =
      writtenWords axis (samples * (countDetectors enable).1) := by
  obtain ⟨length, hstarts⟩ := h.starts
  have haddr := (flow_run hstarts h.noUnderrun).addr
  rw [h.taken_length] at haddr
  have hmap := congrArg (List.map (dram1Word axis)) haddr
  rwa [List.map_map, List.map_map] at hmap

/-- The reply describes a capture of the axis: each word of it is sent once and in order, with its
points if they are asked for, nothing of it was overwritten, and nothing is truncated.  The short
scale has the upper 32 of the 48 bits of a frequency. -/
structure DetectorReply.Describes (r : DetectorReply) (args : DetectorArgs) (axis : Fin 2)
    (w : Written) : Prop where
  frame : args.framed = true → ∃ f, r.frame = some f ∧
    f.detectorCount.toNat = (countDetectors w.enable).1 ∧
    (∀ d : DetectorId, f.detectorMask.getLsbD d.val = w.enable d) ∧
    (f.delay.toNat : ℤ) = w.delay ∧
    f.samples.toNat = w.config.points.length
  words : r.words = writtenWords axis (w.config.points.length * (countDetectors w.enable).1)
  intact : r.words.Nodup
  longScale : args.scale = true → args.longScale = true →
    r.longScale = w.config.points.map fun point => BitVec.ofNat 64 point.1
  scale : args.scale = true → args.longScale = false →
    r.scale = w.config.points.map fun point => ((BitVec.ofNat 64 point.1) >>> 16).setWidth 32
  timebase : args.timebase = true →
    r.timebase = w.config.points.map fun point => BitVec.ofNat 32 point.2

/-! ### The loops -/

theorem sendIf_some {α : Type} (wanted : Bool) (l : List α) :
    sendIf wanted (some l) = some (if wanted then l else []) := by
  cases wanted <;> rfl

/-- The passes send what a single one would. -/
theorem sendDetectorData_eq {α : Type} {samples sampleSize : ℕ} {readSamples : ℕ → ℕ → List α}
    (hpos : 0 < sampleSize) (hsize : sampleSize ≤ Memory.readBufferBytes) {item : ℕ → List α}
    (hread : ∀ offset n, offset + n ≤ samples →
      readSamples offset n = (List.range' offset n).flatMap item) :
    sendDetectorData samples sampleSize readSamples =
      some ((List.range samples).flatMap item) := by
  have hmost : 0 < Memory.readBufferBytes / sampleSize := Nat.div_pos hsize hpos
  let body := fun n offset => some (readSamples offset n, offset + n)
  have hpasses : ∀ fuel i left, 1 ∣ i → 1 ∣ left → i + left ≤ samples → left ≤ fuel →
      Passes.passes (Memory.readBufferBytes / sampleSize) body fuel left (id i) =
        some ((List.range' i left).flatMap item) := by
    apply Passes.passes_eq hmost (one_dvd _)
    intro i n _ _ _ hle
    dsimp only [body, id]
    rw [hread i n hle]
  unfold sendDetectorData
  rw [List.range_eq_range']
  exact hpasses samples 0 samples (one_dvd _) (one_dvd _) (by omega) le_rfl

/-- A part of the scale has the points from its offset on. -/
theorem readScale_eq {w : ℕ} {config : SeqConfig} {buffer : Scale → ℕ → BitVec w}
    {value : ℕ × ℕ → BitVec w} {offset samples : ℕ} (hlength : config.points.length < 2 ^ 32)
    (hbuffer : ∀ {startOffset endOffset turn s},
      Scale.Holds startOffset endOffset config.points turn s →
      InBuffer startOffset endOffset value config.points (buffer s))
    (hle : offset + samples ≤ config.points.length) :
    readScale config buffer offset samples =
      (List.range' offset samples).flatMap fun i => (config.points[i]?.map value).toList := by
  unfold readScale
  rw [List.range'_eq_map_range, List.flatMap_map, List.map_eq_flatMap]
  apply List.flatMap_congr
  intro k hk
  rw [List.mem_range] at hk
  have hlt : offset + k < config.points.length := by omega
  have hpoint := List.getElem?_eq_getElem hlt
  have hstart : (BitVec.ofNat 32 offset).toNat = offset := by
    rw [BitVec.toNat_ofNat, Nat.mod_eq_of_lt (by omega)]
  have hend : (BitVec.ofNat 32 offset + BitVec.ofNat 32 samples).toNat = offset + samples := by
    rw [BitVec.toNat_add, BitVec.toNat_ofNat, BitVec.toNat_ofNat, Nat.mod_eq_of_lt (by omega),
      Nat.mod_eq_of_lt (a := samples) (by omega), Nat.mod_eq_of_lt (by omega)]
  have hvalue := hbuffer (computeScaleInfo_holds (fun _ => 0) (fun _ => 0) _ _ hlength) _ _ hpoint
    (by rw [hstart]; omega) (by rw [hend]; omega)
  rw [hstart, Nat.add_sub_cancel_left] at hvalue
  rw [hvalue, hpoint]
  rfl

/-- All the items of a list by their places. -/
theorem flatMap_getElem? {α β : Type} (l : List α) (f : α → β) :
    ((List.range l.length).flatMap fun i => (l[i]?.map f).toList) = l.map f := by
  induction l with
  | nil => rfl
  | cons x l ih =>
      rw [List.length_cons, List.range_succ_eq_map, List.flatMap_cons, List.flatMap_map]
      simp only [Nat.succ_eq_add_one, List.getElem?_cons_succ, List.getElem?_cons_zero]
      rw [ih]
      rfl

/-- The words of consecutive samples are consecutive. -/
theorem range'_words (base count offset n : ℕ) :
    List.range' (base + count * offset) (count * n) =
      (List.range' offset n).flatMap fun i => List.range' (base + count * i) count := by
  induction n generalizing offset with
  | zero => rfl
  | succ n ih =>
      rw [List.range'_succ, List.flatMap_cons, ← ih, Nat.mul_succ, Nat.add_comm _ count,
        ← List.range'_append_1, Nat.mul_succ, Nat.add_assoc]

/-- The words of a capture that fits are consecutive. -/
theorem writtenWords_eq (axis : Fin 2) {count : ℕ} (hfits : count ≤ 2 ^ 23) :
    writtenWords axis count = List.range' (axis.val * 2 ^ 23) count := by
  unfold writtenWords
  rw [List.range'_eq_map_range]
  apply List.map_congr_left
  intro k hk
  rw [List.mem_range] at hk
  rw [dram1Word_eq, BitVec.toNat_ofNat, Nat.mod_eq_of_lt (by omega)]

/-! ### The reply -/

/-- Some part of the scale, in the passes of the command. -/
theorem sendScale_eq {α : Type} {config : SeqConfig} {size : ℕ} {readSamples : ℕ → ℕ → List α}
    {value : ℕ × ℕ → α} (hpos : 0 < size) (hsize : size ≤ Memory.readBufferBytes)
    (hread : ∀ offset n, offset + n ≤ config.points.length → readSamples offset n =
      (List.range' offset n).flatMap fun i => (config.points[i]?.map value).toList) :
    sendDetectorData config.points.length size readSamples = some (config.points.map value) := by
  rw [sendDetectorData_eq hpos hsize hread, flatMap_getElem?]

theorem readDetectorScaleLong_eq {config : SeqConfig} (hlength : config.points.length < 2 ^ 32)
    {offset n : ℕ} (hle : offset + n ≤ config.points.length) :
    readDetectorScaleLong config offset n = (List.range' offset n).flatMap fun i =>
      (config.points[i]?.map fun point => BitVec.ofNat 64 point.1).toList :=
  readScale_eq hlength (fun h => h.frequency) hle

theorem readDetectorScale_eq {config : SeqConfig} (hlength : config.points.length < 2 ^ 32)
    {offset n : ℕ} (hle : offset + n ≤ config.points.length) :
    readDetectorScale config offset n = (List.range' offset n).flatMap fun i =>
      (config.points[i]?.map fun point => ((BitVec.ofNat 64 point.1) >>> 16).setWidth 32).toList := by
  unfold readDetectorScale
  rw [readScale_eq hlength (fun h => h.frequency) hle, List.map_flatMap]
  apply List.flatMap_congr
  intro i _
  cases config.points[i]? <;> rfl

theorem readDetectorTimebase_eq {config : SeqConfig} (hlength : config.points.length < 2 ^ 32)
    {offset n : ℕ} (hle : offset + n ≤ config.points.length) :
    readDetectorTimebase config offset n = (List.range' offset n).flatMap fun i =>
      (config.points[i]?.map fun point => BitVec.ofNat 32 point.2).toList :=
  readScale_eq hlength (fun h => h.timebase) hle

/-- A read of words of the axis. -/
theorem readDetectorSamples_eq (axis : Fin 2) {count samples offset n : ℕ}
    (hfits : samples * count ≤ 2 ^ 23) (hle : offset + n ≤ samples) :
    readDetectorSamples axis (count * detectorResultSize) offset n =
      List.range' (axis.val * 2 ^ 23 + count * offset) (count * n) := by
  have haxis := axis.isLt
  have hwords : count * (offset + n) ≤ 2 ^ 23 := by
    rw [Nat.mul_comm samples] at hfits
    exact (Nat.mul_le_mul_left count hle).trans hfits
  have hbytes : ∀ k, count * detectorResultSize * k = count * k * detectorResultSize :=
    fun k => by ring
  unfold readDetectorSamples
  rw [readDetectorSamplesRange_word]
  · unfold readDetectorSamplesRange hwReadDetMemoryRange
    simp only [id_eq]
    rw [hbytes, Nat.mul_div_cancel _ (by decide), Nat.mul_div_cancel _ (by decide)]
    congr 1
    unfold dram1Length detectorResultSize
    omega
  · rw [hbytes]
    unfold dram1Length detectorResultSize
    omega

/-- The words of the capture, in the passes of the command. -/
theorem sendWords_eq (axis : Fin 2) {count samples : ℕ} (hpos : 0 < count) (hcount : count ≤ 4)
    (hfits : samples * count ≤ 2 ^ 23) :
    sendDetectorData samples (count * detectorResultSize)
        (readDetectorSamples axis (count * detectorResultSize)) =
      some (List.range' (axis.val * 2 ^ 23) (samples * count)) := by
  have hsize : count * detectorResultSize ≤ Memory.readBufferBytes := by
    unfold detectorResultSize Memory.readBufferBytes
    omega
  have hread : ∀ offset n, offset + n ≤ samples →
      readDetectorSamples axis (count * detectorResultSize) offset n =
        (List.range' offset n).flatMap fun i =>
          List.range' (axis.val * 2 ^ 23 + count * i) count := by
    intro offset n hle
    rw [readDetectorSamples_eq axis hfits hle, range'_words]
  rw [sendDetectorData_eq (Nat.mul_pos hpos (by decide)) hsize hread]
  have hall := range'_words (axis.val * 2 ^ 23) count 0 samples
  rw [Nat.mul_zero, Nat.add_zero, ← List.range_eq_range'] at hall
  rw [← hall, Nat.mul_comm samples]

/-- The command describes the configuration in the hardware, if the number of samples is that of
its scale and the capture fits the memory. -/
theorem processDetectorCommand_describes {setup : Setup Tune} {a : Axis Tune} {busy : Prop}
    (h : a.Agrees setup busy) (hsamples : a.det.scaleInfo.samples = a.hw.config.points.length)
    (hlength : a.hw.config.points.length < 2 ^ 32) (henable : ∃ d, a.hw.enable d = true)
    (hdelay : 0 ≤ a.det.phaseDelay ∧ a.det.phaseDelay < 2 ^ 16)
    (hfits : a.hw.config.points.length * a.det.detectorCount * detectorResultSize ≤ dram1Length / 2)
    (axis : Fin 2) (args : DetectorArgs) :
    ∃ reply, processDetectorCommand setup axis a args = some (.ok reply) ∧
      reply.Describes args axis a.hw := by
  obtain ⟨hcount, -, -, hpos⟩ := countDetectors_fits a.hw.enable
  have hinfo : getDetectorInfo a.det = ⟨(countDetectors a.hw.enable).2,
      (countDetectors a.hw.enable).1, a.hw.config.points.length, a.hw.delay⟩ := by
    unfold getDetectorInfo
    rw [hsamples, h.phaseDelay, ← h.count]
  have hframe := writeDetectorInfo_describes a.hw.enable setup.bunches hlength
    (h.phaseDelay ▸ hdelay)
  have hdetectors : a.det.detectorCount = (countDetectors a.hw.enable).1 := congrArg Prod.fst h.count
  have hroom : a.hw.config.points.length * (countDetectors a.hw.enable).1 ≤ 2 ^ 23 := by
    rw [hdetectors] at hfits
    unfold dram1Length detectorResultSize at hfits
    omega
  have hwords := sendWords_eq axis (hpos henable) hcount hroom
  have h4 : 0 < 4 ∧ 4 ≤ Memory.readBufferBytes := by decide
  have h8 : 0 < 8 ∧ 8 ≤ Memory.readBufferBytes := by decide
  have hlong := sendScale_eq h8.1 h8.2 fun offset n hle =>
    readDetectorScaleLong_eq hlength hle
  have hscale := sendScale_eq h4.1 h4.2 fun offset n hle =>
    readDetectorScale_eq hlength hle
  have htimebase := sendScale_eq h4.1 h4.2 fun offset n hle =>
    readDetectorTimebase_eq hlength hle
  unfold processDetectorCommand sendDetectorResult
  rw [hinfo, h.config]
  dsimp only
  rw [if_pos (hpos henable), hwords, hlong, hscale, htimebase]
  simp only [sendIf_some, Option.bind_eq_bind, Option.bind_some]
  refine ⟨_, rfl, ?_⟩
  constructor
  · intro hframed
    exact ⟨_, if_pos hframed, hframe⟩
  · exact (writtenWords_eq axis hroom).symm
  · exact List.nodup_range'
  · intro hs hl
    simp [hs, hl]
  · intro hs hl
    simp [hs, hl]
  · intro ht
    simp [ht]

/-! ### Runs -/

section run
variable {Client : Type} [DecidableEq Client] {setup : Setup Tune}

/-- The configurations have no more points than an index can count. -/
def Rig.Sized (r : Rig Client Tune) : Prop :=
  ∀ t, (r.axes t).seq.seqConfig.Admitted ∧ (r.axes t).hw.config.points.length < 2 ^ 32

theorem SeqEdit.apply_admitted {e : SeqEdit} {config : SeqConfig} (he : e.Admitted)
    (h : config.Admitted) : (e.apply config).Admitted := by
  have hentry : ∀ (state : Fin maxSequencerCount) (f : SeqEntry → SeqEntry),
      (f (config.entries state.val)).Admitted → (setEntry state f config).Admitted := by
    intro state f hf
    refine ⟨h.sequencerPc, h.superSeqCount, fun i hi => ?_⟩
    unfold setEntry
    by_cases heq : i = state.val
    · subst heq
      dsimp only
      rw [Function.update_self]
      exact hf
    · dsimp only
      rw [Function.update_of_ne heq]
      exact h.entries i hi
  cases e with
  | count state n =>
      obtain ⟨hd, -, hh, hs⟩ := h.entries state state.isLt
      exact hentry state (fun entry => { entry with captureCount := n }) ⟨hd, he, hh, hs⟩
  | dwell state n rate =>
      obtain ⟨-, hc, hh, hs⟩ := h.entries state state.isLt
      exact hentry state (fun entry => { entry with dwellTime := n, windowRate := rate })
        ⟨he, hc, hh, hs⟩
  | holdoff state n =>
      obtain ⟨hd, hc, -, hs⟩ := h.entries state state.isLt
      exact hentry state (fun entry => { entry with holdoff := n }) ⟨hd, hc, he, hs⟩
  | stateHoldoff state n =>
      obtain ⟨hd, hc, hh, -⟩ := h.entries state state.isLt
      exact hentry state (fun entry => { entry with stateHoldoff := n }) ⟨hd, hc, hh, he⟩
  | pc n => exact ⟨he, h.superSeqCount, h.entries⟩
  | superCount n => exact ⟨h.sequencerPc, he, h.entries⟩
  | bank0 n => exact ⟨h.sequencerPc, h.superSeqCount, h.entries⟩
  | superOffsets freqs => exact ⟨h.sequencerPc, h.superSeqCount, h.entries⟩
  | updateCount => exact h
  | startFreq state _ | stepFreq state _ | capture state _ | bank state _ | enableWindow state _
  | blanking state _ | tunePll state _ | gain state _ =>
      obtain ⟨hd, hc, hh, hs⟩ := h.entries state state.isLt
      simp only [SeqEdit.apply]
      apply hentry state
      exact ⟨hd, hc, hh, hs⟩

theorem Rig.sized_init {r : Rig Client Tune} (h : (rig Client setup).init r) : r.Sized :=
  fun t => ⟨(h.2 t).admitted, (h.2 t).points⟩

omit [DecidableEq Client] in
theorem Rig.Sized.setAxis {r : Rig Client Tune} (h : r.Sized) (t : TargetId) {a : Axis Tune}
    (ha : a.seq.seqConfig.Admitted ∧ a.hw.config.points.length < 2 ^ 32) :
    (r.setAxis t a).Sized := by
  intro u
  unfold Rig.setAxis
  dsimp only
  by_cases heq : u = t
  · rw [heq, Function.update_self]
    exact ha
  · rw [Function.update_of_ne heq]
    exact h u

omit [DecidableEq Client] in
theorem axisStep_sized {b b' : Board Client} {i : Trigger.Input Client} {t : TargetId}
    {a : Axis Tune} (h : a.seq.seqConfig.Admitted ∧ a.hw.config.points.length < 2 ^ 32) :
    (Rig.axisStep setup b b' i t a).seq.seqConfig.Admitted ∧
      (Rig.axisStep setup b b' i t a).hw.config.points.length < 2 ^ 32 := by
  unfold Rig.axisStep
  dsimp only
  -- Only preparing the axis changes one of the configurations.
  by_cases hprepares : Rig.Prepares b i t
  · rw [if_pos hprepares, if_neg (prepares_readsOut hprepares)]
    split_ifs <;> exact ⟨h.1, points_length h.1⟩
  · rw [if_neg hprepares]
    split_ifs <;> exact h

theorem Rig.Sized.step {r r' : Rig Client Tune} {i : RigInput Client}
    {out : Option (TargetId × Publication Tune)} (h : r.Sized)
    (hstep : r.step setup i = some (r', out)) : r'.Sized := by
  cases i with
  | board i =>
      unfold Rig.step at hstep
      rw [Option.map_eq_some_iff] at hstep
      obtain ⟨b', -, heq⟩ := hstep
      cases heq
      exact fun t => axisStep_sized (h t)
  | editSeq t e =>
      change (if _ then some (r.setAxis t _, none) else none) = some (r', out) at hstep
      split_ifs at hstep with he
      cases hstep
      exact h.setAxis t ⟨SeqEdit.apply_admitted he (h t).1, (h t).2⟩
  | editDet t e =>
      cases hstep
      exact h.setAxis t (h t)
  | detectorCommand t =>
      change (if _ then some (r, none) else none) = some (r', out) at hstep
      split_ifs at hstep
      cases hstep
      exact h

/-- The memory asked for has been written since the axis was last armed, that capture has been
read out, its delay fits the frame, and its words fit the half of DRAM1 of the axis. -/
def Rig.Readable (r : Rig Client Tune) : RigInput Client → Prop
  | .detectorCommand t => (r.axes t).current = true ∧ ¬ Busy r.board t ∧
      (0 ≤ (r.axes t).det.phaseDelay ∧ (r.axes t).det.phaseDelay < 2 ^ 16) ∧
      (r.axes t).hw.config.points.length * (r.axes t).det.detectorCount * detectorResultSize ≤
        dram1Length / 2
  | _ => True

/-- The axis of a sequencer. -/
def axisOf : TargetId → Fin 2
  | .seq1 => 1
  | _ => 0

/-- The memory target has no detector. -/
theorem detectorCommand_step {r r' : Rig Client Tune} {t : TargetId}
    {out : Option (TargetId × Publication Tune)}
    (h : r.step setup (.detectorCommand t) = some (r', out)) : t ≠ .dram := by
  simp only [Rig.step] at h
  split_ifs at h with hguard
  exact hguard.1

/-- In a run that meets the conditions, the detector command describes the last capture that
wrote the detector memory. -/
theorem detector_command_describes {r₀ r : Rig Client Tune}
    {l : List (Rig Client Tune × RigInput Client × Option (TargetId × Publication Tune))}
    (hi : (rig Client setup).init r₀) (hp : Runs.Path (rig Client setup).system r₀ l r)
    (hl : ∀ x ∈ l, x.1.Armable x.2.1 ∧ x.1.Readable x.2.1) :
    ∀ x ∈ l, ∀ t, x.2.1 = .detectorCommand t → ∀ args, ∃ w reply,
      (x.1.axes t).memory = some w ∧
        processDetectorCommand setup (axisOf t) (x.1.axes t) args = some (.ok reply) ∧
        reply.Describes args (axisOf t) w := by
  apply hp.until (J := fun r => r.Agrees setup ∧ r.Sized)
    (R := fun r a => ¬ (r.Armable a.1 ∧ r.Readable a.1))
    (G := fun r a => ∀ t, a.1 = .detectorCommand t → ∀ args, ∃ w reply,
      (r.axes t).memory = some w ∧
        processDetectorCommand setup (axisOf t) (r.axes t) args = some (.ok reply) ∧
        reply.Describes args (axisOf t) w) _ ⟨Rig.agrees_init hi, Rig.sized_init hi⟩
  · exact fun x hx => not_not_intro (hl x hx)
  · rintro r ⟨i, out⟩ r' ⟨hr, hsized⟩ ha hstep
    rw [not_not] at ha
    refine ⟨⟨hr.step ha.1 hstep, hsized.step hstep⟩, ?_⟩
    rintro t rfl args
    obtain ⟨hcurrent, hbusy, hdelay, hfits⟩ := ha.2
    have hcommand : r.step setup (.detectorCommand t) = some (r', out) := hstep
    have ht := detectorCommand_step hcommand
    have hagrees := hr.axes t ht
    obtain ⟨hmemory, hwrites⟩ := hagrees.memory hcurrent
    have hsamples : (r.axes t).det.scaleInfo.samples = (r.axes t).hw.config.points.length := by
      rw [hagrees.read (hagrees.current hcurrent hbusy)]
      exact (computeScaleInfo_holds _ _ _ _ (hsized t).2).toNat_ix (hsized t).2
    have henable : ∃ d, (r.axes t).hw.enable d = true := by
      unfold Written.writes at hwrites
      rw [Bool.and_eq_true] at hwrites
      exact of_decide_eq_true hwrites.2
    obtain ⟨reply, hreply, hdescribes⟩ :=
      processDetectorCommand_describes hagrees hsamples (hsized t).2 henable hdelay hfits (axisOf t)
        args
    exact ⟨_, reply, hmemory, hreply, hdescribes⟩

end run

/-! ### Two runs -/

instance (r : Rig ℕ Tune) : DecidablePred r.Readable
  | .detectorCommand t => inferInstanceAs (Decidable ((r.axes t).current = true ∧
      ¬ Busy r.board t ∧
      (0 ≤ (r.axes t).det.phaseDelay ∧ (r.axes t).det.phaseDelay < 2 ^ 16) ∧
      (r.axes t).hw.config.points.length * (r.axes t).det.detectorCount * detectorResultSize ≤
        dram1Length / 2))
  | .board _ | .editSeq _ _ | .editDet _ _ => inferInstanceAs (Decidable True)

/-- Everything is asked for. -/
def allArgs : DetectorArgs := ⟨true, true, false, true⟩

theorem detector_command_describes_capture :
    let l := (rig ℕ smallSetup).trace smallRig (smallEdits ++ armInputs ++ captureInputs ++
      completeInputs ++ [.detectorCommand .seq0])
    (∃ x ∈ l, x.2.1 matches .detectorCommand _) ∧
      ∀ x ∈ l, ∀ t, x.2.1 = .detectorCommand t → ∀ args, ∃ w reply,
        (x.1.axes t).memory = some w ∧
          processDetectorCommand smallSetup (axisOf t) (x.1.axes t) args = some (.ok reply) ∧
          reply.Describes args (axisOf t) w :=
  ⟨by decide +kernel, detector_command_describes smallRig_init
    ((rig ℕ smallSetup).path_trace _ _) (by decide +kernel)⟩

/-- Another detector is enabled, and the sequencer is armed and disarmed. -/
def abandonInputs : List (RigInput ℕ) :=
  [.editDet .seq0 (.enable 2 true)] ++ armInputs ++
    [.board (.call (.disarm .seq0)), .board (.clock true calm), .board (.clock true calm)]

/-- The memory is then described as that of both detectors, though it was written with one. -/
theorem detector_command_misdescribes :
    ∃ r, Runs.Reachable (rig ℕ smallSetup).system r ∧
      ((rig ℕ smallSetup).step r (.detectorCommand .seq0)).isSome ∧
      ∃ w, (r.axes .seq0).memory = some w ∧
        ¬ ∃ reply, processDetectorCommand smallSetup 0 (r.axes .seq0) allArgs = some (.ok reply) ∧
          reply.Describes allArgs 0 w := by
  refine ⟨_, (rig ℕ smallSetup).reachable_after smallRig_init (smallEdits ++ armInputs ++
    captureInputs ++ completeInputs ++ abandonInputs), by decide +kernel, ?_⟩
  generalize hr : (rig ℕ smallSetup).after smallRig (smallEdits ++ armInputs ++ captureInputs ++
    completeInputs ++ abandonInputs) = r
  have hmemory : ((r.axes .seq0).memory.any fun w => !w.enable 2) = true := by
    rw [← hr]
    decide +kernel
  have hreply : ((processDetectorCommand smallSetup 0 (r.axes .seq0) allArgs).any fun
      | .ok reply => reply.frame.any fun f => f.detectorMask.getLsbD 2
      | .error _ => false) = true := by
    rw [← hr]
    decide +kernel
  rw [Option.any_eq_true] at hmemory
  obtain ⟨w, hw, hdisabled⟩ := hmemory
  refine ⟨w, hw, ?_⟩
  rintro ⟨reply, hprocess, hdescribes⟩
  obtain ⟨f, hframe, -, hmask, -⟩ := hdescribes.frame rfl
  rw [hprocess] at hreply
  simp only [Option.any_some, hframe] at hreply
  have hbit := hmask 2
  rw [Bool.not_eq_true'] at hdisabled
  rw [hdisabled] at hbit
  exact Bool.false_ne_true (hbit.symm.trans hreply)

end Mbf.Detector
