import Mbf.Detector.Deinterleave
import Mbf.Memory.Readout

/-! # The addresses of the readout

The reads of DRAM1 by `send_detector_data` and `read_detector_memory`, with the arithmetic of
`unsigned int`: what its operations cut down is told by `cut`, so that the reads can be compared
with those of exact arithmetic.

Nothing bounds the samples of a configuration by the memory.  A readout stays in the half of its
axis, without any overflow, and announces as many samples as the memory holds exactly if the words
of the capture fit that half (`detector_readout_inside_iff`). -/

namespace Mbf.Detector

open Mbf.Sequencer

/-! ### The reads -/

/-- A call of `read_dma_memory`: a range of bytes. -/
structure DmaRead where
  seekOffset : ℕ
  readRequest : ℕ
deriving DecidableEq, Repr

/-- A pass of `send_detector_data`: what it reads, and how many bytes it sends. -/
structure SendPass where
  read : DmaRead
  sent : ℕ
deriving DecidableEq, Repr

section reads
variable (cut : ℕ → ℕ)

/-- `hw_read_det_memory`; the size is a `size_t`. -/
def hwReadDetMemoryRange (axis : Fin 2) (resultCount offset : ℕ) : DmaRead where
  seekOffset := cut (cut (axis.val * (dram1Length / 2)) + offset)
  readRequest := resultCount * detectorResultSize

/-- `read_detector_samples`. -/
def readDetectorSamplesRange (axis : Fin 2) (sampleSize offset samples : ℕ) : DmaRead :=
  hwReadDetMemoryRange cut axis (cut (sampleSize / detectorResultSize * samples))
    (cut (sampleSize * offset))

/-- The body of the loop of `send_detector_data`. -/
def sendPass (axis : Fin 2) (sampleSize samplesToRead offset : ℕ) :
    Option (List SendPass × ℕ) :=
  some ([⟨readDetectorSamplesRange cut axis sampleSize offset samplesToRead,
    cut (samplesToRead * sampleSize)⟩], cut (offset + samplesToRead))

/-- `send_detector_data` for the samples of a detector command. -/
def sendDetectorSamples (axis : Fin 2) (info : DetectorInfo) : Option (List SendPass) :=
  let sampleSize := cut (info.detectorCount * detectorResultSize)
  Passes.passes (Memory.readBufferBytes / sampleSize) (sendPass cut axis sampleSize) info.samples
    info.samples 0

variable {Tune : Type}

/-- The read of `read_detector_memory`. -/
def readDetectorMemoryRange (setup : Setup Tune) (axis : Fin 2) (det : DetectorContext Tune) :
    DmaRead :=
  hwReadDetMemoryRange cut axis
    (cut (min det.scaleInfo.samples setup.detectorLength * det.detectorCount)) 0

end reads

/-- The result of an operation on `unsigned int`. -/
def word (n : ℕ) : ℕ := n % 2 ^ 32

/-! ### The statement -/

/-- The bytes are in the half of the axis. -/
def DmaRead.Inside (axis : Fin 2) (r : DmaRead) : Prop :=
  axis.val * (dram1Length / 2) ≤ r.seekOffset ∧
    r.seekOffset + r.readRequest ≤ (axis.val + 1) * (dram1Length / 2)

/-- The detectors as they are after a capture has been read out. -/
structure ReadOut {Tune : Type} (setup : Setup Tune) (config : SeqConfig)
    (enable : DetectorId → Bool) (det : DetectorContext Tune) : Prop where
  count : (det.detectorCount, det.detectorMask) = countDetectors enable
  scaleInfo : det.scaleInfo = readDetectorScaleInfo setup config

/-- The memory has taken all of a capture, and nothing has been lost. -/
structure Captured (enable : DetectorId → Bool) (s : DetectorOutput) (i : ℕ → OutputInput)
    (samples n : ℕ) : Prop where
  starts : ∃ length, Starts s i length
  noUnderrun : NoUnderrun enable s i (n + 1)
  idle : (outputRun enable s i n).Idle
  writes : (writesBefore i n).length = samples

/-- The samples of which there is room for all words, each at an address of its own. -/
def storedSamples (count : ℕ) (taken : List (DramAddress × Sample)) : ℕ :=
  (taken.map Prod.fst).toFinset.card / count

/-- The readout stays in the half of the axis, computes without overflow, and announces the number
of samples that are stored. -/
structure ReadoutSound {Tune : Type} (setup : Setup Tune) (config : SeqConfig)
    (enable : DetectorId → Bool) (axis : Fin 2) (det : DetectorContext Tune) : Prop where
  socket : 0 < det.detectorCount → ∃ passes,
    sendDetectorSamples word axis (getDetectorInfo det) = some passes ∧
    sendDetectorSamples id axis (getDetectorInfo det) = some passes ∧
    ∀ p ∈ passes, p.read.Inside axis
  waveform : readDetectorMemoryRange word setup axis det = readDetectorMemoryRange id setup axis det ∧
    (readDetectorMemoryRange word setup axis det).Inside axis
  stored : 0 < det.detectorCount → ∀ s i n, Captured enable s i config.points.length n →
    (writeDetectorInfo setup.bunches (getDetectorInfo det)).samples.toNat =
      storedSamples det.detectorCount (takenBefore enable s i n)

/-! ### The passes -/

section passes
variable {axis : Fin 2} {most sampleSize left offset : ℕ}

/-- With exact arithmetic the passes go through the words without a gap, up to the last. -/
theorem passes_exact (hmost : 0 < most) (hsize : detectorResultSize ∣ sampleSize) :
    ∀ fuel left offset, left ≤ fuel → ∃ passes,
      Passes.passes most (sendPass id axis sampleSize) fuel left offset = some passes ∧
      (∀ p ∈ passes, axis.val * (dram1Length / 2) ≤ p.read.seekOffset ∧
        p.read.seekOffset + p.read.readRequest ≤
          axis.val * (dram1Length / 2) + sampleSize * (offset + left)) ∧
      (0 < left → ∃ p ∈ passes, p.read.seekOffset + p.read.readRequest =
        axis.val * (dram1Length / 2) + sampleSize * (offset + left)) := by
  intro fuel
  induction fuel with
  | zero =>
      intro left offset hleft
      obtain rfl : left = 0 := by omega
      exact ⟨[], rfl, by simp, by simp⟩
  | succ fuel ih =>
      intro left offset hleft
      cases left with
      | zero => exact ⟨[], rfl, by simp, by simp⟩
      | succ left =>
          have hle := min_le_left (left + 1) most
          have hpos : 0 < min (left + 1) most := lt_min (Nat.succ_pos left) hmost
          generalize hnow : min (left + 1) most = now at hle hpos
          obtain ⟨passes, hpasses, hinside, hlast⟩ :=
            ih (left + 1 - now) (offset + now) (by omega)
          have hall : offset + now + (left + 1 - now) = offset + (left + 1) := by omega
          rw [hall] at hinside hlast
          -- The bytes of this pass.
          have hread : (readDetectorSamplesRange id axis sampleSize offset now).seekOffset =
              axis.val * (dram1Length / 2) + sampleSize * offset ∧
              (readDetectorSamplesRange id axis sampleSize offset now).readRequest =
                sampleSize * now := by
            refine ⟨rfl, ?_⟩
            change sampleSize / detectorResultSize * now * detectorResultSize = sampleSize * now
            rw [Nat.mul_right_comm, Nat.div_mul_cancel hsize]
          have hbound :
              sampleSize * offset + sampleSize * now ≤ sampleSize * (offset + (left + 1)) := by
            rw [← Nat.mul_add]
            exact Nat.mul_le_mul_left _ (by omega)
          refine ⟨⟨readDetectorSamplesRange id axis sampleSize offset now, now * sampleSize⟩ :: passes,
            ?_, ?_, fun _ => ?_⟩
          · simp only [Passes.passes, hnow, sendPass, id, Option.bind_some, hpasses, Option.map_some,
              List.singleton_append]
          · intro p hp
            rcases List.mem_cons.mp hp with rfl | hp
            · dsimp only
              rw [hread.1, hread.2]
              omega
            · exact hinside p hp
          · by_cases hdone : left + 1 - now = 0
            · refine ⟨_, List.mem_cons_self, ?_⟩
              dsimp only
              rw [hread.1, hread.2, Nat.add_assoc, ← Nat.mul_add]
              congr 3
              omega
            · obtain ⟨p, hp, hend⟩ := hlast (by omega)
              exact ⟨p, List.mem_cons_of_mem _ hp, hend⟩

theorem word_of_lt {n : ℕ} (h : n < 2 ^ 32) : word n = n := Nat.mod_eq_of_lt h

theorem hwReadDetMemoryRange_word {resultCount : ℕ}
    (h : axis.val * (dram1Length / 2) + offset < 2 ^ 32) :
    hwReadDetMemoryRange word axis resultCount offset =
      hwReadDetMemoryRange id axis resultCount offset := by
  unfold hwReadDetMemoryRange
  rw [word_of_lt (lt_of_le_of_lt (Nat.le_add_right _ _) h), word_of_lt h, id_eq, id_eq]

/-- A read whose last byte has an address of 32 bits does not overflow. -/
theorem readDetectorSamplesRange_word {now : ℕ}
    (h : axis.val * (dram1Length / 2) + sampleSize * (offset + now) < 2 ^ 32) :
    readDetectorSamplesRange word axis sampleSize offset now =
      readDetectorSamplesRange id axis sampleSize offset now := by
  rw [Nat.mul_add] at h
  have hoffset : sampleSize * offset < 2 ^ 32 := by omega
  have hcount : sampleSize / detectorResultSize * now < 2 ^ 32 := by
    have hle := Nat.mul_le_mul_right now (Nat.div_le_self sampleSize detectorResultSize)
    omega
  have hrange : axis.val * (dram1Length / 2) + sampleSize * offset < 2 ^ 32 := by omega
  unfold readDetectorSamplesRange
  rw [word_of_lt hoffset, word_of_lt hcount, hwReadDetMemoryRange_word hrange]
  simp only [id_eq]

/-- A pass whose last byte has an address of 32 bits does not overflow. -/
theorem sendPass_word {now : ℕ} (hsize : 0 < sampleSize)
    (h : axis.val * (dram1Length / 2) + sampleSize * (offset + now) < 2 ^ 32) :
    sendPass word axis sampleSize now offset = sendPass id axis sampleSize now offset := by
  have hall : sampleSize * (offset + now) < 2 ^ 32 := lt_of_le_of_lt (Nat.le_add_left _ _) h
  have hindex : offset + now < 2 ^ 32 := lt_of_le_of_lt (Nat.le_mul_of_pos_left _ hsize) hall
  have hnow : now * sampleSize < 2 ^ 32 := by
    rw [Nat.mul_add] at hall
    rw [Nat.mul_comm]
    omega
  unfold sendPass
  rw [readDetectorSamplesRange_word h, word_of_lt hnow, word_of_lt hindex]
  simp only [id_eq]

/-- Where the last byte has an address of 32 bits the passes compute what exact arithmetic does. -/
theorem passes_word (hmost : 0 < most) (hsize : 0 < sampleSize) :
    ∀ fuel left offset, left ≤ fuel →
      axis.val * (dram1Length / 2) + sampleSize * (offset + left) < 2 ^ 32 →
      Passes.passes most (sendPass word axis sampleSize) fuel left offset =
        Passes.passes most (sendPass id axis sampleSize) fuel left offset := by
  intro fuel left offset hleft h
  refine Passes.passes_congr hmost (fun i m hle => ?_) (fun i m => ⟨_, rfl⟩) fuel left offset hleft
    le_rfl
  apply sendPass_word hsize
  exact lt_of_le_of_lt (Nat.add_le_add_left (Nat.mul_le_mul_left _ hle) _) h

end passes

/-! ### A capture -/

section capture
variable {enable : DetectorId → Bool} {s : DetectorOutput} {i : ℕ → OutputInput} {samples n : ℕ}

/-- The memory has taken the words of all samples. -/
theorem Captured.taken_length (h : Captured enable s i samples n) :
    (takenBefore enable s i n).length = samples * (countDetectors enable).1 := by
  obtain ⟨length, hstarts⟩ := h.starts
  have hflow := flow_run hstarts h.noUnderrun
  have hdata := congrArg List.length hflow.data
  rw [h.idle.busy, hflow.idle h.idle, ← slots_length, List.take_length, kept_slots, if_neg
    Bool.false_ne_true, List.append_nil, List.length_map] at hdata
  rw [hdata, countDetectors_length, ← h.writes]
  generalize writesBefore i n = ws
  induction ws with
  | nil => simp
  | cons w ws ih =>
      rw [List.flatMap_cons, List.length_append, ih, List.length_cons, Nat.succ_mul, Nat.add_comm]
      apply congrArg
      exact List.length_map _

/-- A capture that fits the half of the axis is stored as a whole. -/
theorem Captured.storedSamples (h : Captured enable s i samples n)
    (hpos : 0 < (countDetectors enable).1)
    (hfits : samples * (countDetectors enable).1 ≤ 2 ^ 23) :
    storedSamples (countDetectors enable).1 (takenBefore enable s i n) = samples := by
  obtain ⟨length, hstarts⟩ := h.starts
  have haddr := (flow_run hstarts h.noUnderrun).addr
  rw [h.taken_length] at haddr
  unfold Detector.storedSamples
  rw [haddr, List.toFinset_card_of_nodup (addresses_nodup hfits), List.length_map,
    List.length_range, Nat.mul_div_cancel _ hpos]

end capture

/-! ### The readout -/

section readout
variable {Tune : Type} {setup : Setup Tune} {config : SeqConfig} {enable : DetectorId → Bool}
  {axis : Fin 2} {det : DetectorContext Tune}

theorem ReadOut.samples_eq (h : ReadOut setup config enable det) (hconfig : config.Admitted) :
    det.scaleInfo.samples = config.points.length := by
  rw [h.scaleInfo]
  exact (computeScaleInfo_holds _ _ _ _ (points_length hconfig)).toNat_ix (points_length hconfig)

/-- No product of the samples with the detectors overflows. -/
theorem words_lt (hconfig : config.Admitted) (enable : DetectorId → Bool) :
    config.points.length * (countDetectors enable).1 < 2 ^ 32 := by
  have hlength := superPoints_length hconfig config.superSeqCount
  have hstates := hconfig.superSeqCount.2
  obtain ⟨hcount, -⟩ := countDetectors_fits enable
  unfold superSeqStates at hstates
  unfold maxSequencerCount at hlength
  have hpoints : config.points.length ≤ 2048 * (7 * 2 ^ 16) :=
    le_trans hlength (Nat.mul_le_mul_right _ hstates)
  calc config.points.length * (countDetectors enable).1
      ≤ 2048 * (7 * 2 ^ 16) * 4 := Nat.mul_le_mul hpoints hcount
    _ < 2 ^ 32 := by decide

/-- The passes of the detector command. -/
theorem ReadOut.sends (hdet : ReadOut setup config enable det) (hconfig : config.Admitted)
    {cut : ℕ → ℕ} (hcut : ∀ n < 2 ^ 32, cut n = n) :
    sendDetectorSamples cut axis (getDetectorInfo det) =
      Passes.passes (Memory.readBufferBytes / (det.detectorCount * detectorResultSize))
        (sendPass cut axis (det.detectorCount * detectorResultSize)) config.points.length
        config.points.length 0 := by
  have hcount : det.detectorCount = (countDetectors enable).1 := congrArg Prod.fst hdet.count
  obtain ⟨hmany, -⟩ := countDetectors_fits enable
  unfold sendDetectorSamples getDetectorInfo
  dsimp only
  rw [hdet.samples_eq hconfig, hcut]
  unfold detectorResultSize
  omega

theorem ReadOut.passes_pos (hdet : ReadOut setup config enable det) (hpos : 0 < det.detectorCount) :
    0 < Memory.readBufferBytes / (det.detectorCount * detectorResultSize) := by
  have hcount : det.detectorCount = (countDetectors enable).1 := congrArg Prod.fst hdet.count
  obtain ⟨hmany, -⟩ := countDetectors_fits enable
  apply Nat.div_pos
  · unfold detectorResultSize Memory.readBufferBytes
    omega
  · exact Nat.mul_pos hpos (by decide)

/-- The bytes of a capture. -/
theorem bytes_eq (count samples : ℕ) : count * detectorResultSize * (0 + samples) =
    samples * count * detectorResultSize := by ring

/-- The last pass ends in the half of the axis. -/
theorem ReadoutSound.fits (hdet : ReadOut setup config enable det) (hconfig : config.Admitted)
    (h : ReadoutSound setup config enable axis det) :
    config.points.length * det.detectorCount * detectorResultSize ≤ dram1Length / 2 := by
  by_contra hbeyond
  have hpos : 0 < det.detectorCount := by
    rw [Nat.pos_iff_ne_zero]
    intro hzero
    rw [hzero, Nat.mul_zero, Nat.zero_mul] at hbeyond
    exact hbeyond (Nat.zero_le _)
  have hsome : 0 < config.points.length := by
    rw [Nat.pos_iff_ne_zero]
    intro hzero
    rw [hzero, Nat.zero_mul, Nat.zero_mul] at hbeyond
    exact hbeyond (Nat.zero_le _)
  obtain ⟨passes, -, hexact, hinside⟩ := h.socket hpos
  obtain ⟨passes', hpasses, -, hlast⟩ := @passes_exact axis _ _ (hdet.passes_pos hpos)
    (Nat.dvd_mul_left detectorResultSize det.detectorCount) config.points.length
    config.points.length 0 le_rfl
  have hsends := @ReadOut.sends _ _ _ _ axis _ hdet hconfig id fun _ _ => rfl
  rw [hsends, hpasses] at hexact
  obtain rfl := Option.some.inj hexact
  obtain ⟨p, hp, hend⟩ := hlast hsome
  rw [bytes_eq] at hend
  have hin := (hinside p hp).2
  rw [hend, Nat.add_mul, Nat.one_mul] at hin
  exact hbeyond (Nat.le_of_add_le_add_left hin)

/-- Nothing overflows where the capture fits the half of the axis. -/
theorem readoutSound_of_fits (hdet : ReadOut setup config enable det) (hconfig : config.Admitted)
    (hfits : config.points.length * det.detectorCount * detectorResultSize ≤ dram1Length / 2) :
    ReadoutSound setup config enable axis det := by
  have hcount : det.detectorCount = (countDetectors enable).1 := congrArg Prod.fst hdet.count
  have hwords := words_lt hconfig enable
  rw [← hcount] at hwords
  have haxis := axis.isLt
  unfold dram1Length detectorResultSize at hfits
  refine ⟨fun hpos => ?_, ?_, fun hpos s i n hcaptured => ?_⟩
  · obtain ⟨passes, hpasses, hinside, -⟩ := @passes_exact axis _ _ (hdet.passes_pos hpos)
      (Nat.dvd_mul_left detectorResultSize det.detectorCount) config.points.length
      config.points.length 0 le_rfl
    refine ⟨passes, ?_, (hdet.sends hconfig fun _ _ => rfl).trans hpasses, fun p hp => ?_⟩
    · rw [hdet.sends hconfig fun _ => word_of_lt, ← hpasses]
      apply passes_word (hdet.passes_pos hpos) (Nat.mul_pos hpos (by decide)) _ _ _ le_rfl
      rw [bytes_eq]
      unfold dram1Length detectorResultSize
      omega
    · obtain ⟨hstart, hend⟩ := hinside p hp
      refine ⟨hstart, hend.trans ?_⟩
      rw [bytes_eq]
      unfold dram1Length detectorResultSize
      omega
  · have hmin : min config.points.length setup.detectorLength * det.detectorCount ≤
        config.points.length * det.detectorCount := Nat.mul_le_mul_right _ (min_le_left _ _)
    have hrange : readDetectorMemoryRange word setup axis det =
        readDetectorMemoryRange id setup axis det := by
      unfold readDetectorMemoryRange
      rw [hdet.samples_eq hconfig, word_of_lt (by omega), id_eq]
      apply hwReadDetMemoryRange_word
      unfold dram1Length
      omega
    refine ⟨hrange, ?_⟩
    rw [hrange]
    unfold readDetectorMemoryRange hwReadDetMemoryRange DmaRead.Inside dram1Length detectorResultSize
    rw [hdet.samples_eq hconfig]
    simp only [id_eq, Nat.add_zero]
    omega
  · rw [hcount] at hpos hfits hwords ⊢
    rw [hcaptured.storedSamples hpos (by omega)]
    have hle := Nat.le_mul_of_pos_right config.points.length hpos
    change (BitVec.ofNat 32 det.scaleInfo.samples).toNat = config.points.length
    rw [hdet.samples_eq hconfig, BitVec.toNat_ofNat]
    exact Nat.mod_eq_of_lt (by omega)

/-- The readout of a capture is sound exactly if the words of the capture fit the half of DRAM1 that
belongs to the axis. -/
theorem detector_readout_inside_iff (axis : Fin 2) (hconfig : config.Admitted)
    (hdet : ReadOut setup config enable det) :
    ReadoutSound setup config enable axis det ↔
      config.points.length * (countDetectors enable).1 * detectorResultSize ≤ dram1Length / 2 := by
  have hcount : det.detectorCount = (countDetectors enable).1 := congrArg Prod.fst hdet.count
  rw [← hcount]
  exact ⟨ReadoutSound.fits hdet hconfig, readoutSound_of_fits hdet hconfig⟩

end readout

/-! ### Two captures -/

/-- The detectors after a readout. -/
def readOutDetector (config : SeqConfig) : DetectorContext Unit :=
  { pairDetector with scaleInfo := readDetectorScaleInfo pairSetup config }

theorem readOutDetector_readOut (config : SeqConfig) :
    ReadOut pairSetup config pairEnable (readOutDetector config) where
  count := show (2, 5) = countDetectors pairEnable by decide
  scaleInfo := rfl

theorem detector_readout_inside_sweep :
    ReadoutSound pairSetup sweepConfig pairEnable 1 (readOutDetector sweepConfig) ↔
      sweepConfig.points.length * (countDetectors pairEnable).1 * detectorResultSize ≤
        dram1Length / 2 :=
  detector_readout_inside_iff 1 sweepConfig_admitted (readOutDetector_readOut sweepConfig)

/-- One state of `2 ^ 16` captures, swept 65 times. -/
def hugeConfig : SeqConfig :=
  { sweepConfig with
    sequencerPc := 1
    superSeqCount := 65
    entries := fun i => { sweepConfig.entries i with captureCount := 2 ^ 16 } }

theorem hugeConfig_admitted : hugeConfig.Admitted where
  sequencerPc := by decide
  superSeqCount := by decide
  entries i _ := by
    refine ⟨?_, ⟨Nat.one_le_two_pow, le_rfl⟩, ?_, ?_⟩
    · change 1 ≤ 2 ∧ 2 ≤ 2 ^ 16
      decide
    · change 1 < 2 ^ 16
      decide
    · change 4 < 2 ^ 16
      decide

theorem hugeConfig_points (n : ℕ) : (hugeConfig.superPoints n).length = n * 2 ^ 16 := by
  induction n with
  | zero => rfl
  | succ n ih =>
      rw [superPoints_succ, List.length_append, ih, Nat.succ_mul]
      apply congrArg
      change (hugeConfig.sweepPoints _ 1 _).length = _
      unfold SeqConfig.sweepPoints SeqEntry.points SeqEntry.captures
      have hwrite : (hugeConfig.entries 0).writeEnable = true := rfl
      rw [if_pos hwrite, List.length_append, List.length_map, List.length_range]
      rfl

/-- Two detectors then write more than the half of the memory. -/
theorem detector_readout_not_inside :
    ¬ ReadoutSound pairSetup hugeConfig pairEnable 0 (readOutDetector hugeConfig) := by
  intro h
  have hfits := h.fits (readOutDetector_readOut hugeConfig) hugeConfig_admitted
  have hpoints : hugeConfig.points.length = 65 * 2 ^ 16 := hugeConfig_points 65
  rw [hpoints] at hfits
  exact absurd hfits (by decide)

end Mbf.Detector
