import Mathlib.Algebra.BigOperators.Ring.Finset
import Mathlib.Algebra.Field.Rat
import Mbf.Memory.Correct
import Mbf.Memory.Decimate

/-! # Decimated readout sends the averages that were asked for

What is sent for a turn, a bunch and a channel is the average of the samples of as many turns as the
decimation says, each of them rotated by the tune if one is given (`Capture.average`).

The turns are cut into blocks three times: by the decimation, by the read buffer and by the write
buffer.  A read starts and ends at a whole decimated turn, and so does a write; each is the list of
what its decimated turns are, so nothing depends on where it starts.  Between them the angle goes on
as that of the turn that comes next (`tuneState`). -/

namespace Mbf.Memory

open Passes

variable {K : Type} [Field K] (a : Arithmetic K) (m : Capture) (args : MemoryArgs)

/-! ### What is asked for -/

/-- The rotation of a bunch of a turn, which is none unless a tune is given. -/
def Arithmetic.shift (bunchesPerTurn turn bunch : ℕ) : K :=
  if args.format = .complex64 then
    a.e ((a.tuneToFreq args.tune).toNat * (turn * bunchesPerTurn + bunch : ℕ))
  else 1

/-- The sample of a channel as a number. -/
def Capture.value (turn bunch : ℕ) (channel : Fin 2) : K :=
  (m.sample args.offset turn bunch channel).toInt

/-- What is sent for a turn, a bunch and a channel. -/
def Capture.average (turn bunch : ℕ) (channel : Fin 2) : K :=
  1 / args.decimation * ∑ d ∈ Finset.range args.decimation,
    m.value args (turn * args.decimation + d) bunch channel *
      a.shift args m.bunchesPerTurn (turn * args.decimation + d) bunch

/-- What is sent, in the order of the reply. -/
def Capture.averages : List K :=
  (List.range args.count).flatMap fun turn =>
    (List.range m.bunchesPerTurn).flatMap fun bunch =>
      args.channels.map fun channel => m.average a args turn bunch channel

/-- How a value lies in memory. -/
def Arithmetic.bytes (value : K) : List Byte :=
  if args.format = .complex64 then wordBytes (n := 8) (a.complex value)
  else wordBytes (n := 4) (a.float value)

/-! ### Buffers of a turn -/

/-- The bunches and channels that a buffer of a turn has entries for. -/
def turnEntries : List (ℕ × Fin 2) := List.range m.bunchesPerTurn ×ˢ args.channels

theorem turnEntries_length :
    (turnEntries m args).length = m.bunchesPerTurn * args.channels.length := by
  unfold turnEntries
  rw [List.length_product, List.length_range]

/-- What is sent of a decimated turn. -/
def turnAverages (turn : ℕ) : List K :=
  (turnEntries m args).map fun (bunch, channel) => m.average a args turn bunch channel

/-- The totals of a decimated turn after `k` turns, each rotated as its first bunch. -/
def turnTotals (turn k : ℕ) : List K :=
  (turnEntries m args).map fun (bunch, channel) => ∑ d ∈ Finset.range k,
    a.shift args m.bunchesPerTurn (turn * args.decimation + d) 0 *
      m.value args (turn * args.decimation + d) bunch channel

/-- The same, as it lies in memory. -/
def turnBytes (turn : ℕ) : List Byte := (turnAverages a m args turn).flatMap (a.bytes args)

/-- The words that are read for the decimated turns from `turn` on. -/
def readFrom (turn n : ℕ) : List Word :=
  m.words (m.origin args + 4 * ((turn * (m.bunchesPerTurn * args.decimation) : ℕ) : ℤ)) n

theorem fill_eq {α : Type} {capacity : ℕ} {entries : List α} (h : entries.length ≤ capacity) :
    fill capacity entries = some entries := if_pos h

variable {m args}

/-- A turn of samples. -/
theorem extractTurn_eq (h : args.Valid m.bunchesPerTurn) {turn j d n : ℕ} (hd : d < args.decimation)
    (hn : ∀ channel, (j + 1) * (m.bunchesPerTurn * args.decimation) + m.channelDelays channel ≤ n) :
    extractChannels (readFrom m args turn n)
        (j * (m.bunchesPerTurn * args.decimation) + d * m.bunchesPerTurn) m.bunchesPerTurn
        (makeChannelsContext m args.channel) =
      some ((turnEntries m args).map fun (bunch, channel) =>
        m.sample args.offset ((turn + j) * args.decimation + d) bunch channel) := by
  have hroom : ∀ channel, j * (m.bunchesPerTurn * args.decimation) + d * m.bunchesPerTurn +
      m.bunchesPerTurn + m.channelDelays channel ≤ n := by
    intro channel
    have hlast : (d + 1) * m.bunchesPerTurn ≤ args.decimation * m.bunchesPerTurn :=
      Nat.mul_le_mul_right _ hd
    have hchannel := hn channel
    rw [Nat.add_mul, one_mul] at hlast hchannel
    rw [Nat.mul_comm m.bunchesPerTurn] at hchannel ⊢
    omega
  unfold readFrom
  rw [extractChannels_eq h _ _ _ _ hroom]
  unfold turnEntries Capture.samplesAt
  simp only [SProd.sprod, List.product, List.map_flatMap, List.map_map]
  congr 1
  apply List.flatMap_congr
  intro bunch _
  apply List.map_congr_left
  intro channel _
  unfold Capture.sample Capture.origin
  rw [Function.comp_apply]
  congr 1
  push_cast
  ring

theorem accumulate_eq (term : K → K) (sample : ℕ × Fin 2 → Sample) (total : ℕ × Fin 2 → K) :
    accumulate (m.bunchesPerTurn * args.channels.length) term ((turnEntries m args).map sample)
        ((turnEntries m args).map total) =
      some ((turnEntries m args).map fun entry => total entry + term (sample entry).toInt) := by
  rw [← turnEntries_length]
  apply collect_map
  intro i hi
  simp [List.getElem?_eq_getElem hi]

/-- A turn of samples that is added to the totals. -/
theorem addTurn_eq (h : args.Valid m.bunchesPerTurn) {term : K → K} {turn j d n : ℕ}
    (hterm : ∀ x, term x =
      a.shift args m.bunchesPerTurn ((turn + j) * args.decimation + d) 0 * x)
    (hd : d < args.decimation)
    (hn : ∀ channel, (j + 1) * (m.bunchesPerTurn * args.decimation) + m.channelDelays channel ≤ n) :
    addTurn m.bunchesPerTurn (readFrom m args turn n)
        (j * (m.bunchesPerTurn * args.decimation) + d * m.bunchesPerTurn)
        (makeChannelsContext m args.channel) term (turnTotals a m args (turn + j) d) =
      some (turnTotals a m args (turn + j) (d + 1)) := by
  have hfits : ((turnEntries m args).map fun (bunch, channel) => m.sample args.offset
      ((turn + j) * args.decimation + d) bunch channel).length ≤
        m.bunchesPerTurn * args.channels.length := by
    rw [List.length_map, turnEntries_length]
  unfold addTurn
  simp only [makeChannelsContext_count, extractTurn_eq h hd hn, fill_eq hfits, Option.bind_eq_bind,
    Option.bind_some]
  unfold turnTotals
  rw [accumulate_eq]
  simp only [Finset.sum_range_succ, hterm]
  rfl

theorem turnTotals_zero (turn : ℕ) :
    turnTotals a m args turn 0 =
      List.replicate (m.bunchesPerTurn * args.channels.length) 0 := by
  unfold turnTotals
  simp only [Finset.sum_range_zero, List.map_const', turnEntries_length]

/-! ### Blocks that are written -/

/-- The write buffer has room for a turn. -/
theorem turnsPerBuffer_pos (hbunches : m.bunchesPerTurn ≤ 4096) (hpos : 0 < m.bunchesPerTurn)
    {size : ℕ} (hsize : 0 < size) (hle : size ≤ 8) :
    0 < writeBufferBytes / size / (m.bunchesPerTurn * args.channels.length) := by
  obtain ⟨hchannels, htwo⟩ := channels_length_pos args
  have hturn : m.bunchesPerTurn * args.channels.length ≤ 4096 * 2 :=
    Nat.mul_le_mul hbunches htwo
  have hbuffer : writeBufferBytes / 8 ≤ writeBufferBytes / size := Nat.div_le_div_left hle hsize
  have height : writeBufferBytes / 8 = 4096 * 2 := rfl
  exact Nat.div_pos (by omega) (Nat.mul_pos hpos hchannels)

/-- The turns of a pass fit in the write buffer. -/
theorem block_fits {size k : ℕ} (turn : ℕ → ℕ)
    (hk : k ≤ writeBufferBytes / size / (m.bunchesPerTurn * args.channels.length)) :
    ((List.range k).flatMap fun t => turnAverages a m args (turn t)).length ≤
      writeBufferBytes / size := by
  have hlength : ((List.range k).flatMap fun t => turnAverages a m args (turn t)).length =
      k * (m.bunchesPerTurn * args.channels.length) := by
    simp [List.length_flatMap, turnAverages, turnEntries_length]
  rw [hlength]
  exact (Nat.mul_le_mul_right _ hk).trans (Nat.div_mul_le_self _ _)

/-! ### float32 -/

theorem shift_of_not_complex (hformat : args.format ≠ .complex64) (bunchesPerTurn turn bunch : ℕ) :
    a.shift args bunchesPerTurn turn bunch = 1 := if_neg hformat

theorem computeFloat32TurnData_eq (h : args.Valid m.bunchesPerTurn)
    (hformat : args.format ≠ .complex64) {turn j n : ℕ}
    (hn : ∀ channel, (j + 1) * (m.bunchesPerTurn * args.decimation) + m.channelDelays channel ≤ n) :
    computeFloat32TurnData m.bunchesPerTurn (readFrom m args turn n)
        (j * (m.bunchesPerTurn * args.decimation)) (makeChannelsContext m args.channel)
        args.decimation =
      some (turnAverages a m args (turn + j)) := by
  have htotals := steps_eq (fun d => addTurn m.bunchesPerTurn (readFrom m args turn n)
      (j * (m.bunchesPerTurn * args.decimation) + d * m.bunchesPerTurn)
      (makeChannelsContext m args.channel) fun sample => sample)
    (turnTotals a m args (turn + j)) (n := args.decimation) fun d hd =>
      addTurn_eq a h (fun x => by rw [shift_of_not_complex a hformat, one_mul]) hd hn
  unfold computeFloat32TurnData
  rw [turnTotals_zero] at htotals
  simp only [makeChannelsContext_count, htotals, Option.bind_eq_bind, Option.bind_some,
    Option.pure_def]
  unfold turnTotals turnAverages Capture.average
  simp only [List.map_map, shift_of_not_complex a hformat, one_mul, mul_one]
  congr 1
  apply List.map_congr_left
  intro entry _
  rw [Function.comp_apply, one_div_mul_eq_div]

theorem sendFloat32MemoryData_eq (h : args.Valid m.bunchesPerTurn)
    (hformat : args.format ≠ .complex64) (hbunches : m.bunchesPerTurn ≤ 4096)
    (hpos : 0 < m.bunchesPerTurn) (hunit : m.bunchesPerTurn * args.decimation < 2 ^ 32)
    {turn k n : ℕ}
    (hn : ∀ channel, k * (m.bunchesPerTurn * args.decimation) + m.channelDelays channel ≤ n) :
    sendFloat32MemoryData a m.bunchesPerTurn args (makeChannelsContext m args.channel)
        (readFrom m args turn n) (k * (m.bunchesPerTurn * args.decimation)) =
      some ((List.range k).flatMap fun j => turnBytes a m args (turn + j)) := by
  have hread : 0 < m.bunchesPerTurn * args.decimation := Nat.mul_pos hpos h.decimation
  unfold sendFloat32MemoryData
  simp only [makeChannelsContext_count, Nat.mod_eq_of_lt hunit, Nat.mul_div_cancel k hread]
  refine drain_eq (fun j => j * (m.bunchesPerTurn * args.decimation)) (Nat.zero_mul _)
    (turnsPerBuffer_pos hbunches hpos (by decide) (by decide)) (one_dvd _) (one_dvd _)
    fun i w _ _ hw hiw => ?_
  have hvalues : collect (fun t => computeFloat32TurnData m.bunchesPerTurn (readFrom m args turn n)
      (i * (m.bunchesPerTurn * args.decimation) + t * (m.bunchesPerTurn * args.decimation))
      (makeChannelsContext m args.channel) args.decimation) w =
        some ((List.range w).flatMap fun t => turnAverages a m args (turn + (i + t))) := by
    apply collect_eq
    intro t ht
    rw [← Nat.add_mul]
    refine computeFloat32TurnData_eq a h hformat fun channel => ?_
    have hlast : (i + t + 1) * (m.bunchesPerTurn * args.decimation) ≤
        k * (m.bunchesPerTurn * args.decimation) := Nat.mul_le_mul_right _ (by omega)
    have hchannel := hn channel
    omega
  have hfits := fill_eq (block_fits a (fun t => turn + (i + t)) hw)
  simp only [hvalues, hfits, Option.bind_eq_bind, Option.bind_some, Option.pure_def, Nat.add_mul,
    List.flatMap_assoc]
  unfold turnBytes Arithmetic.bytes
  simp only [hformat, if_false]

/-! ### complex64 -/

section complex

variable (m args)

/-- The tune, as an angle for each bunch. -/
def Arithmetic.tune : BitVec 64 := a.tuneToFreq args.tune

/-- The angle of the first bunch of a turn. -/
def turnAngle (turn : ℕ) : BitVec 64 := BitVec.ofNat 64 (turn * m.bunchesPerTurn) * a.tune args

/-- The fixups of the first `n` bunches. -/
def fixups (n : ℕ) : List K :=
  (List.range n).flatMap fun bunch => List.replicate args.channels.length
    (angleToRotate a (BitVec.ofNat 64 bunch * a.tune args) / args.decimation)

/-- The state before a decimated turn. -/
def tuneState (turn : ℕ) : TuneDecimateState K where
  decimation := args.decimation
  angle := turnAngle a m args (turn * args.decimation)
  turnAdvance := a.tune args * BitVec.ofNat 64 m.bunchesPerTurn
  turnFixup := fixups a args m.bunchesPerTurn

end complex

/-- The 64 bits of an angle are more than a revolution takes. -/
theorem angleToRotate_mul (n : ℕ) (tune : BitVec 64) :
    angleToRotate a (BitVec.ofNat 64 n * tune) = a.e (tune.toNat * n : ℕ) := by
  unfold angleToRotate
  congr 1
  rw [BitVec.toNat_mul, BitVec.toNat_ofNat, Nat.mod_mul_mod, Nat.mul_comm n]
  rw [ZMod.natCast_eq_natCast_iff]
  exact (Nat.mod_modEq _ _).of_dvd (by decide)

theorem turnAngle_advance (turn : ℕ) :
    turnAngle a m args turn + a.tune args * BitVec.ofNat 64 m.bunchesPerTurn =
      turnAngle a m args (turn + 1) := by
  unfold turnAngle
  rw [Nat.add_mul, one_mul, BitVec.ofNat_add, BitVec.mul_comm (a.tune args), BitVec.add_mul]

/-- The rotation of a bunch is that of its turn and that of its place in the turn. -/
theorem shift_eq (hformat : args.format = .complex64) (turn bunch : ℕ) :
    a.shift args m.bunchesPerTurn turn bunch = angleToRotate a (turnAngle a m args turn) *
      angleToRotate a (BitVec.ofNat 64 bunch * a.tune args) := by
  unfold Arithmetic.shift turnAngle
  rw [if_pos hformat, angleToRotate_mul, angleToRotate_mul, ← AddChar.map_add_eq_mul]
  congr 1
  unfold Arithmetic.tune
  push_cast
  ring

theorem turnRotate_eq (hformat : args.format = .complex64) (turn : ℕ) :
    angleToRotate a (turnAngle a m args turn) = a.shift args m.bunchesPerTurn turn 0 := by
  rw [shift_eq a hformat, angleToRotate_mul _ 0, Nat.mul_zero, Nat.cast_zero,
    AddChar.map_zero_eq_one, mul_one]

theorem fixups_length (n : ℕ) : (fixups a args n).length = n * args.channels.length := by
  simp [fixups, List.length_flatMap]

/-- The fixups are in the order of the entries of a turn. -/
theorem fixups_entries : fixups a args m.bunchesPerTurn =
    (turnEntries m args).map fun (bunch, _) =>
      angleToRotate a (BitVec.ofNat 64 bunch * a.tune args) / args.decimation := by
  simp only [fixups, turnEntries, SProd.sprod, List.product, List.map_flatMap, List.map_map,
    Function.comp_def, List.map_const']

theorem addFixup_eq {bunch : ℕ} (hbunch : bunch < m.bunchesPerTurn) :
    addFixup a m.bunchesPerTurn args (makeChannelsContext m args.channel)
        (fixups a args bunch, BitVec.ofNat 64 bunch * a.tune args) =
      some (fixups a args (bunch + 1), BitVec.ofNat 64 (bunch + 1) * a.tune args) := by
  have happend : fixups a args bunch ++ List.replicate args.channels.length
      (angleToRotate a (BitVec.ofNat 64 bunch * a.tune args) / args.decimation) =
        fixups a args (bunch + 1) := by
    simp only [fixups, List.range_succ, List.flatMap_append, List.flatMap_singleton]
  have hfits : (fixups a args (bunch + 1)).length ≤ m.bunchesPerTurn * args.channels.length := by
    rw [fixups_length]
    exact Nat.mul_le_mul_right _ hbunch
  have hangle : BitVec.ofNat 64 (bunch + 1) * a.tune args =
      BitVec.ofNat 64 bunch * a.tune args + a.tune args := by
    rw [BitVec.ofNat_add, BitVec.add_mul, BitVec.one_mul]
  unfold addFixup
  dsimp only
  rw [makeChannelsContext_count, happend, fill_eq hfits, hangle]
  rfl

theorem prepareTuneDecimate_eq :
    prepareTuneDecimate a m.bunchesPerTurn args (makeChannelsContext m args.channel) =
      some (tuneState a m args 0) := by
  have hsteps := steps_eq (fun _ => addFixup a m.bunchesPerTurn args
    (makeChannelsContext m args.channel)) (fun bunch => (fixups a args bunch,
      BitVec.ofNat 64 bunch * a.tune args)) fun bunch hbunch => addFixup_eq a hbunch
  have hzero : BitVec.ofNat 64 0 * a.tune args = 0 := BitVec.zero_mul
  have hempty : fixups a args 0 = [] := rfl
  have hangle : turnAngle a m args (0 * args.decimation) = 0 := by
    unfold turnAngle
    rw [Nat.zero_mul, Nat.zero_mul]
    exact BitVec.zero_mul
  rw [hzero, hempty] at hsteps
  unfold prepareTuneDecimate tuneState
  rw [hsteps, hangle]
  rfl

theorem addRotatedTurn_eq (h : args.Valid m.bunchesPerTurn) (hformat : args.format = .complex64)
    {turn j d n : ℕ} (hd : d < args.decimation)
    (hn : ∀ channel, (j + 1) * (m.bunchesPerTurn * args.decimation) + m.channelDelays channel ≤ n) :
    addRotatedTurn a m.bunchesPerTurn (readFrom m args turn n)
        (j * (m.bunchesPerTurn * args.decimation) + d * m.bunchesPerTurn)
        (makeChannelsContext m args.channel) (a.tune args * BitVec.ofNat 64 m.bunchesPerTurn)
        (turnTotals a m args (turn + j) d,
          turnAngle a m args ((turn + j) * args.decimation + d)) =
      some (turnTotals a m args (turn + j) (d + 1),
        turnAngle a m args ((turn + j) * args.decimation + (d + 1))) := by
  unfold addRotatedTurn
  dsimp only
  rw [addTurn_eq a h (fun x => by rw [turnRotate_eq a hformat]) hd hn, turnAngle_advance]
  rfl

/-- The rotation of the turns and the fixup make the average. -/
theorem average_eq (hformat : args.format = .complex64) (turn bunch : ℕ) (channel : Fin 2) :
    (∑ d ∈ Finset.range args.decimation,
      a.shift args m.bunchesPerTurn (turn * args.decimation + d) 0 *
        m.value args (turn * args.decimation + d) bunch channel) *
      (angleToRotate a (BitVec.ofNat 64 bunch * a.tune args) / args.decimation) =
    m.average a args turn bunch channel := by
  unfold Capture.average
  rw [Finset.sum_mul, Finset.mul_sum]
  apply Finset.sum_congr rfl
  intro d _
  rw [shift_eq a hformat _ bunch, turnRotate_eq a hformat]
  ring

theorem computeComplex64TurnData_eq (h : args.Valid m.bunchesPerTurn)
    (hformat : args.format = .complex64) {turn j n : ℕ}
    (hn : ∀ channel, (j + 1) * (m.bunchesPerTurn * args.decimation) + m.channelDelays channel ≤ n) :
    computeComplex64TurnData a m.bunchesPerTurn (readFrom m args turn n)
        (j * (m.bunchesPerTurn * args.decimation)) (makeChannelsContext m args.channel)
        (tuneState a m args (turn + j)) =
      some (turnAverages a m args (turn + j), tuneState a m args (turn + (j + 1))) := by
  have hsteps := steps_eq (fun d => addRotatedTurn a m.bunchesPerTurn (readFrom m args turn n)
      (j * (m.bunchesPerTurn * args.decimation) + d * m.bunchesPerTurn)
      (makeChannelsContext m args.channel) (a.tune args * BitVec.ofNat 64 m.bunchesPerTurn))
    (fun d => (turnTotals a m args (turn + j) d,
      turnAngle a m args ((turn + j) * args.decimation + d)))
    (n := args.decimation) fun d hd => addRotatedTurn_eq a h hformat hd hn
  have hnext : (turn + j) * args.decimation + args.decimation =
      (turn + (j + 1)) * args.decimation := by ring
  have hfixup : collect (fun i => do
      let total ← (turnTotals a m args (turn + j) args.decimation)[i]?
      let fixup ← (fixups a args m.bunchesPerTurn)[i]?
      return [total * fixup]) (m.bunchesPerTurn * args.channels.length) =
      some (turnAverages a m args (turn + j)) := by
    rw [← turnEntries_length, fixups_entries]
    apply collect_map
    intro i hi
    simp [turnTotals, List.getElem?_eq_getElem hi, average_eq a hformat]
  rw [turnTotals_zero, Nat.add_zero, hnext] at hsteps
  unfold computeComplex64TurnData tuneState
  simp only [makeChannelsContext_count, hsteps]
  rw [Option.bind_eq_bind, Option.bind_some]
  dsimp only
  rw [hfixup]
  rfl

/-- The turns of a pass, after those that are written already. -/
theorem writeComplex64Turns_eq (h : args.Valid m.bunchesPerTurn)
    (hformat : args.format = .complex64) {turn i w n : ℕ}
    (hn : ∀ channel, (i + w) * (m.bunchesPerTurn * args.decimation) + m.channelDelays channel ≤ n) :
    steps (fun t => writeComplex64Turn a m.bunchesPerTurn (readFrom m args turn n)
        (i * (m.bunchesPerTurn * args.decimation) + t * (m.bunchesPerTurn * args.decimation))
        (makeChannelsContext m args.channel)) w ([], tuneState a m args (turn + i)) =
      some ((List.range w).flatMap fun t => turnAverages a m args (turn + (i + t)),
        tuneState a m args (turn + (i + w))) := by
  refine steps_eq _ (fun w =>
    ((List.range w).flatMap fun t => turnAverages a m args (turn + (i + t)),
      tuneState a m args (turn + (i + w)))) fun t ht => ?_
  have hlast : ∀ channel, (i + t + 1) * (m.bunchesPerTurn * args.decimation) +
      m.channelDelays channel ≤ n := by
    intro channel
    have hle : (i + t + 1) * (m.bunchesPerTurn * args.decimation) ≤
        (i + w) * (m.bunchesPerTurn * args.decimation) := Nat.mul_le_mul_right _ (by omega)
    exact (Nat.add_le_add_right hle _).trans (hn channel)
  unfold writeComplex64Turn
  dsimp only
  rw [← Nat.add_mul, computeComplex64TurnData_eq a h hformat hlast, List.range_succ,
    List.flatMap_append, List.flatMap_singleton]
  rfl

theorem sendComplex64Block_eq (h : args.Valid m.bunchesPerTurn)
    (hformat : args.format = .complex64) {turn i w n : ℕ}
    (hw : w ≤ writeBufferBytes / 8 / (m.bunchesPerTurn * args.channels.length))
    (hn : ∀ channel, (i + w) * (m.bunchesPerTurn * args.decimation) + m.channelDelays channel ≤ n) :
    sendComplex64Block a m.bunchesPerTurn (m.bunchesPerTurn * args.decimation)
        (makeChannelsContext m args.channel) (readFrom m args turn n) w
        (i * (m.bunchesPerTurn * args.decimation), tuneState a m args (turn + i)) =
      some ((List.range w).flatMap fun t => turnBytes a m args (turn + (i + t)),
        ((i + w) * (m.bunchesPerTurn * args.decimation), tuneState a m args (turn + (i + w)))) := by
  have hfits := fill_eq (block_fits a (fun t => turn + (i + t)) hw)
  have hbytes : a.bytes args = fun value => wordBytes (n := 8) (a.complex value) := by
    funext value
    exact if_pos hformat
  unfold sendComplex64Block turnBytes
  simp only [writeComplex64Turns_eq a h hformat hn, hfits, Option.bind_eq_bind, Option.bind_some,
    Option.pure_def, List.flatMap_assoc, Nat.add_mul, hbytes]

theorem sendComplex64MemoryData_eq (h : args.Valid m.bunchesPerTurn)
    (hformat : args.format = .complex64) (hbunches : m.bunchesPerTurn ≤ 4096)
    (hpos : 0 < m.bunchesPerTurn) (hunit : m.bunchesPerTurn * args.decimation < 2 ^ 32)
    {turn k n : ℕ}
    (hn : ∀ channel, k * (m.bunchesPerTurn * args.decimation) + m.channelDelays channel ≤ n) :
    sendComplex64MemoryData a m.bunchesPerTurn (makeChannelsContext m args.channel)
        (tuneState a m args turn) (readFrom m args turn n)
        (k * (m.bunchesPerTurn * args.decimation)) =
      some ((List.range k).flatMap fun j => turnBytes a m args (turn + j),
        tuneState a m args (turn + k)) := by
  have hread : 0 < m.bunchesPerTurn * args.decimation := Nat.mul_pos hpos h.decimation
  have hblock : ∀ i w, w * 1 ≤ writeBufferBytes / 8 / (m.bunchesPerTurn * args.channels.length) →
      i + w ≤ k → sendComplex64Block a m.bunchesPerTurn (m.bunchesPerTurn * args.decimation)
        (makeChannelsContext m args.channel) (readFrom m args turn n) (w * 1)
        (i * (m.bunchesPerTurn * args.decimation), tuneState a m args (turn + i)) =
      some ((List.range' i w).flatMap fun j => turnBytes a m args (turn + j),
        ((i + w) * (m.bunchesPerTurn * args.decimation), tuneState a m args (turn + (i + w)))) := by
    intro i w hw hiw
    rw [Nat.mul_one] at hw ⊢
    rw [List.range'_eq_map_range, List.flatMap_map]
    refine sendComplex64Block_eq a h hformat hw fun channel => ?_
    exact (Nat.add_le_add_right (Nat.mul_le_mul_right _ hiw) _).trans (hn channel)
  have hloop := passesTo_eq _ (fun j => turnBytes a m args (turn + j))
    (fun i => (i * (m.bunchesPerTurn * args.decimation), tuneState a m args (turn + i)))
    (turnsPerBuffer_pos hbunches hpos (by decide) le_rfl) (one_dvd _) hblock k 0 k
    (Nat.zero_add k).le (Nat.mul_one k).le
  rw [Nat.mul_one, Nat.zero_mul, Nat.zero_add, Nat.add_zero, ← List.range_eq_range'] at hloop
  unfold sendComplex64MemoryData
  have hdecimation : (tuneState a m args turn).decimation = args.decimation := rfl
  simp only [makeChannelsContext_count, hdecimation, Nat.mod_eq_of_lt hunit,
    Nat.mul_div_cancel k hread, hloop, Option.bind_eq_bind, Option.bind_some, Option.pure_def]

/-! ### The whole readout -/

/-- The state of the reduction before a decimated turn. -/
def reductionState (m : Capture) (args : MemoryArgs) (turn : ℕ) : Option (TuneDecimateState K) :=
  if args.format = .complex64 then some (tuneState a m args turn) else none

theorem decimation_prepare : (decimation a m.bunchesPerTurn).prepare args
    (makeChannelsContext m args.channel) = reductionState a m args 0 := by
  unfold reductionState
  rw [← prepareTuneDecimate_eq a]
  rfl

/-- A read of whole decimated turns is sent as their averages. -/
theorem decimation_send (turn : ℕ) (h : args.Valid m.bunchesPerTurn)
    (hbunches : m.bunchesPerTurn ≤ 4096) (hpos : 0 < m.bunchesPerTurn)
    (hunit : m.bunchesPerTurn * args.decimation < 2 ^ 32) {k n : ℕ}
    (hn : ∀ channel, k * (m.bunchesPerTurn * args.decimation) + m.channelDelays channel ≤ n) :
    (decimation a m.bunchesPerTurn).send args (makeChannelsContext m args.channel)
        (reductionState a m args turn) (readFrom m args turn n)
        (k * (m.bunchesPerTurn * args.decimation)) =
      some ((List.range k).flatMap fun j => turnBytes a m args (turn + j),
        reductionState a m args (turn + k)) := by
  unfold decimation reductionState
  by_cases hformat : args.format = .complex64
  · simp only [hformat, if_true, Option.bind_eq_bind, Option.bind_some,
      sendComplex64MemoryData_eq a h hformat hbunches hpos hunit hn, Option.pure_def]
  · simp only [hformat, if_false, sendFloat32MemoryData_eq a h hformat hbunches hpos hunit hn,
      Option.map_some]

/-- A loop in passes of whole units emits what its units emit. -/
theorem drain_units {σ : Type} {most unit left : ℕ} {body : ℕ → σ → Option (List Byte × σ)}
    {s : σ} (f : ℕ → List Byte) (st : ℕ → σ) (hs : st 0 = s) (hmost : 0 < most)
    (hunit : unit ∣ most)
    (hbody : ∀ i k, k * unit ≤ most → i + k ≤ left →
      body (k * unit) (st i) = some ((List.range k).flatMap fun j => f (i + j), st (i + k))) :
    drain most (left * unit) s body = some ((List.range left).flatMap f) := by
  have hunits : ∀ i k, k * unit ≤ most → i + k ≤ left →
      body (k * unit) (st i) = some ((List.range' i k).flatMap f, st (i + k)) := by
    intro i k hk hik
    rw [hbody i k hk hik, List.range'_eq_map_range, List.flatMap_map]
  have hloop := passesTo_eq body f st hmost hunit hunits (left * unit) 0 left
    (Nat.zero_add left).le le_rfl
  unfold drain
  rw [← hs, passes_eq_passesTo, hloop, List.range_eq_range']
  rfl

/-- Whatever the size of the reads, as long as they are of whole decimated turns. -/
theorem sendMemoryData_decimated (h : args.Valid m.bunchesPerTurn) (hformat : args.format ≠ .int16)
    (hbunch : args.bunch = -1) (hbunches : m.bunchesPerTurn ≤ 4096)
    (hdelays : ∀ channel, m.channelDelays channel < m.bunchesPerTurn)
    (hunit : m.bunchesPerTurn * args.decimation < 2 ^ 32)
    (hcount : args.count * (m.bunchesPerTurn * args.decimation) < 2 ^ 32) {readBufferSize : ℕ}
    (hsize : 0 < readBufferSize) (hturns : m.bunchesPerTurn * args.decimation ∣ readBufferSize) :
    sendMemoryData (decimation a m.bunchesPerTurn) m readBufferSize args
        (makeChannelsContext m args.channel) =
      some ((List.range args.count).flatMap (turnBytes a m args)) := by
  have hpos : 0 < m.bunchesPerTurn := Nat.zero_lt_of_lt (hdelays 0)
  have hbelow : ¬(0 : ℤ) ≤ args.bunch := by omega
  have hsamples : args.count * m.bunchesPerTurn * args.decimation % 2 ^ 32 =
      args.count * (m.bunchesPerTurn * args.decimation) := by
    rw [Nat.mul_assoc, Nat.mod_eq_of_lt hcount]
  have hroom : ∀ k channel, k * (m.bunchesPerTurn * args.decimation) + m.channelDelays channel ≤
      k * (m.bunchesPerTurn * args.decimation) + m.bunchesPerTurn :=
    fun k channel => Nat.add_le_add_left (hdelays channel).le _
  have hnext : ∀ i k unit, ((m.computeDramOffset args.offset + i * unit * 4) % 2 ^ 64 +
      k * unit * 4) % 2 ^ 64 = (m.computeDramOffset args.offset + (i + k) * unit * 4) % 2 ^ 64 := by
    intro i k unit
    rw [Nat.mod_add_mod, Nat.add_mul, Nat.add_mul, Nat.add_assoc]
  have hstart : (m.computeDramOffset args.offset +
      0 * (m.bunchesPerTurn * args.decimation) * 4) % 2 ^ 64 = m.computeDramOffset args.offset := by
    rw [Nat.zero_mul, Nat.zero_mul, Nat.add_zero, Nat.mod_eq_of_lt]
    exact Nat.mod_lt _ (by decide)
  unfold sendMemoryData
  simp only [hsamples]
  refine drain_units (turnBytes a m args) (fun turn => ((m.computeDramOffset args.offset +
    turn * (m.bunchesPerTurn * args.decimation) * 4) % 2 ^ 64, reductionState a m args turn))
    (by rw [hstart, decimation_prepare]) hsize hturns fun i k hk _ => ?_
  have hread : m.hwReadDramMemory (readBufferSize + m.bunchesPerTurn)
      ((m.computeDramOffset args.offset + i * (m.bunchesPerTurn * args.decimation) * 4) % 2 ^ 64)
      (k * (m.bunchesPerTurn * args.decimation) + m.bunchesPerTurn) =
        some (readFrom m args i (k * (m.bunchesPerTurn * args.decimation) + m.bunchesPerTurn)) :=
    hwReadDramMemory_pass hk
  have hsend := decimation_send a i h hbunches hpos hunit (hroom k)
  cases hf : args.format with
  | int16 => exact absurd hf hformat
  | float32 =>
      simp only [hread, hbelow, hsend, hnext, Option.bind_eq_bind, Option.bind_some,
        Option.pure_def, if_false]
  | complex64 =>
      simp only [hread, hbelow, hsend, hnext, Option.bind_eq_bind, Option.bind_some,
        Option.pure_def, if_false]

/-! ### The reply -/

/-- The averages that are asked for, turn by turn. -/
theorem averages_eq : m.averages a args =
    (List.range args.count).flatMap (turnAverages a m args) := by
  unfold Capture.averages turnAverages turnEntries
  simp only [SProd.sprod, List.product, List.map_flatMap, List.map_map, Function.comp_def]

theorem averages_length : (m.averages a args).length =
    args.count * (m.bunchesPerTurn * args.channels.length) := by
  rw [averages_eq]
  simp [List.length_flatMap, turnAverages, turnEntries_length]

/-- The read buffer has room for some decimated turns, and with the extra turn it has the size it
may have. -/
theorem computeReadBufferSize_decimated {bunchesPerTurn size : ℕ} (hformat : args.format ≠ .int16)
    (hbunch : args.bunch = -1) (h : computeReadBufferSize bunchesPerTurn args = .ok size) :
    0 < size ∧ bunchesPerTurn * args.decimation ∣ size ∧
      4 * (size + bunchesPerTurn) ≤ readBufferBytes := by
  have hbelow : ¬(0 : ℤ) ≤ args.bunch := by omega
  have hbytes : readBufferBytes / 4 = 262128 := rfl
  have hfour : 4 * (readBufferBytes / 4) = readBufferBytes := rfl
  unfold computeReadBufferSize at h
  rw [if_neg hbelow, if_pos hformat] at h
  dsimp only at h
  split_ifs at h with hsize
  have heq : (readBufferBytes / 4 - bunchesPerTurn) / (bunchesPerTurn * args.decimation) *
      (bunchesPerTurn * args.decimation) = size := by
    cases h
    rfl
  have hround := Nat.div_mul_le_self (readBufferBytes / 4 - bunchesPerTurn)
    (bunchesPerTurn * args.decimation)
  rw [heq] at hsize hround
  exact ⟨hsize, heq ▸ Nat.dvd_mul_left _ _, by omega⟩

variable {strtod : List Char → Float × List Char × Bool}
  {waitForLock : LockParse → Except Error Unit} {rawMode : Bool} {command : List Char} {size : ℕ}

/-- The decimated formats of the memory command.  A command that passes the checks is answered in
full with the averages that it asks for, in order, and with no others; the same is sent for every
size of the reads that is a multiple of a decimated turn.  No read exceeds the read buffer. -/
theorem decimated_readout (hbunches : m.bunchesPerTurn ≤ 4096)
    (hdelays : ∀ channel, m.channelDelays channel < m.bunchesPerTurn)
    (hcheck : checkMemoryCommand strtod waitForLock m rawMode command = .ok (args, size))
    (hformat : args.format ≠ .int16) :
    processMemoryCommand (decimation a m.bunchesPerTurn) strtod waitForLock m rawMode command =
        some (.ok ((if rawMode then [] else [0]) ++
          (if args.framed then (memoryFrame m.bunchesPerTurn args).bytes else []) ++
          (m.averages a args).flatMap (a.bytes args))) ∧
      (∀ readBufferSize, 0 < readBufferSize →
        m.bunchesPerTurn * args.decimation ∣ readBufferSize →
        sendMemoryData (decimation a m.bunchesPerTurn) m readBufferSize args
            (makeChannelsContext m args.channel) =
          some ((m.averages a args).flatMap (a.bytes args))) ∧
      (m.averages a args).length = args.count * (m.bunchesPerTurn * args.channels.length) ∧
      0 < size ∧ m.bunchesPerTurn * args.decimation ∣ size ∧
      4 * (size + m.bunchesPerTurn) ≤ readBufferBytes := by
  obtain ⟨hparsed, hcount, hbuffer⟩ := checkMemoryCommand_ok hcheck
  have hvalid := parseMemoryArgs_valid hparsed
  have hbunch := parseMemoryArgs_returns memoryArgs_whole hparsed hformat
  obtain ⟨hsize, hturns, hbytes⟩ := computeReadBufferSize_decimated hformat hbunch hbuffer
  have hpos : 0 < m.bunchesPerTurn := Nat.zero_lt_of_lt (hdelays 0)
  have hunit : m.bunchesPerTurn * args.decimation < 2 ^ 32 := by
    have hle := Nat.le_of_dvd hsize hturns
    have hread : readBufferBytes < 2 ^ 32 := by decide
    omega
  have hsamples : args.count * (m.bunchesPerTurn * args.decimation) < 2 ^ 32 := by
    rw [Nat.div_div_eq_div_mul,
      Nat.le_div_iff_mul_le (Nat.mul_pos hpos hvalid.decimation)] at hcount
    have hmemory : dram0Length / 4 < 2 ^ 32 := by decide
    omega
  have hsend : ∀ readBufferSize, 0 < readBufferSize →
      m.bunchesPerTurn * args.decimation ∣ readBufferSize →
      sendMemoryData (decimation a m.bunchesPerTurn) m readBufferSize args
          (makeChannelsContext m args.channel) =
        some ((m.averages a args).flatMap (a.bytes args)) := by
    intro readBufferSize hpositive hdvd
    rw [sendMemoryData_decimated a hvalid hformat hbunch hbunches hdelays hunit hsamples hpositive
      hdvd, averages_eq, List.flatMap_assoc]
    rfl
  refine ⟨?_, hsend, averages_length a, hsize, hturns, hbytes⟩
  unfold processMemoryCommand
  simp only [hcheck, hsend size hsize hturns, Option.bind_eq_bind, Option.bind_some,
    Option.pure_def]

/-- Rotations of which only the last bit of an angle counts, and a tune that is this bit. -/
def Arithmetic.alternating : Arithmetic ℚ where
  e := {
    toFun := fun angle => if angle.val % 2 = 0 then 1 else -1
    map_zero_eq_one' := rfl
    map_add_eq_mul' := fun x y => by
      have hparity : (x + y).val % 2 = (x.val + y.val) % 2 := by
        rw [ZMod.val_add]
        exact Nat.mod_mod_of_dvd _ (by decide)
      rw [hparity]
      rcases Nat.mod_two_eq_zero_or_one x.val with hx | hx <;>
        rcases Nat.mod_two_eq_zero_or_one y.val with hy | hy <;> simp [Nat.add_mod, hx, hy] }
  tuneToFreq _ := 1
  float value := BitVec.ofInt 32 value.num
  complex value := BitVec.ofInt 64 value.num

/-- Two averages over two turns of two bunches, in a memory whose samples count up. -/
theorem decimated_readout_alternating :
    processMemoryCommand (decimation .alternating 2) (fun s => (1, s.tail, false)) (fun _ => .ok ())
        ⟨fun a => if a.val % 2 = 0 then BitVec.ofNat 8 (a.val / 2) else 0, 0, Fin.val, 2⟩ false
        ['2', 'D', '2', 'T', '1'] =
      some (.ok ([0] ++ [] ++ ([2, 5, -4, -7, 10, 13, -12, -15] : List ℚ).flatMap fun value =>
        wordBytes (n := 8) (BitVec.ofInt 64 value.num))) := by
  have hcheck : checkMemoryCommand (fun s => (1, s.tail, false)) (fun _ => .ok ())
      ⟨fun a => if a.val % 2 = 0 then BitVec.ofNat 8 (a.val / 2) else 0, 0, Fin.val, 2⟩ false
      ['2', 'D', '2', 'T', '1'] =
        .ok (⟨2, false, 0, -1, -1, 2, 1, ⟨false, 0⟩, .complex64⟩, 262124) := rfl
  rw [(decimated_readout .alternating (by decide) (by decide) hcheck (by decide)).1]
  have haverages : Capture.averages .alternating
      ⟨fun a => if a.val % 2 = 0 then BitVec.ofNat 8 (a.val / 2) else 0, 0, Fin.val, 2⟩
      ⟨2, false, 0, -1, -1, 2, 1, ⟨false, 0⟩, .complex64⟩ =
        ([2, 5, -4, -7, 10, 13, -12, -15] : List ℚ) := by
    decide +kernel
  rw [haverages]
  rfl

end Mbf.Memory
