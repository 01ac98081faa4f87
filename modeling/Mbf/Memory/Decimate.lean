import Mathlib.Algebra.Field.Basic
import Mathlib.Algebra.Group.AddChar
import Mathlib.Data.ZMod.Basic
import Mbf.Memory.Readout

/-! # Decimated readout of the memory

The float32 and complex64 formats of the `M` command of `socket_command.c`: each sample that is sent
is an average over a number of turns, which for complex64 are rotated by the tune before.

The arithmetic is exact here, in any field (`Arithmetic`).  An angle counts in `2^-48` of a
revolution, and `e` is what the rotation by an angle multiplies with. -/

namespace Mbf.Memory

open Passes

/-- What stands for the floating point numbers: rotations, `tune_to_freq`, and how a value lies in
memory. -/
structure Arithmetic (K : Type) [Field K] where
  e : AddChar (ZMod (2 ^ 48)) K
  tuneToFreq : Float → BitVec 64
  float : K → BitVec 32
  complex : K → BitVec 64

/-- A buffer of `capacity` entries with what is written to it. -/
def fill {α : Type} (capacity : ℕ) (entries : List α) : Option (List α) :=
  if entries.length ≤ capacity then some entries else none

/-- The bytes of a number, as it lies in memory. -/
def wordBytes {n : ℕ} (value : BitVec (8 * n)) : List Byte :=
  (List.range n).map fun i => value.extractLsb' (8 * i) 8

section formats

variable {K : Type} [Field K] (a : Arithmetic K)

/-- `turn_buffer[i] += …` for the samples of a turn. -/
def accumulate (sampleCount : ℕ) (term : K → K) (channelBuffer : List Sample)
    (turnBuffer : List K) : Option (List K) :=
  collect (fun i => do
    let total ← turnBuffer[i]?
    let sample ← channelBuffer[i]?
    return [total + term sample.toInt]) sampleCount

/-- What both formats do with each turn: the samples from word `start` of the buffer on are
extracted, and added to the totals. -/
def addTurn (bunchesPerTurn : ℕ) (readBuffer : List Word) (start : ℕ) (channels : ChannelsContext)
    (term : K → K) (turnBuffer : List K) : Option (List K) := do
  let sampleCount := bunchesPerTurn * channels.count
  let samples ← extractChannels readBuffer start bunchesPerTurn channels
  let channelBuffer ← fill sampleCount samples
  accumulate sampleCount term channelBuffer turnBuffer

/-! ### float32 -/

/-- `compute_float32_turn_data`, from word `start` of the buffer on. -/
def computeFloat32TurnData (bunchesPerTurn : ℕ) (readBuffer : List Word) (start : ℕ)
    (channels : ChannelsContext) (decimation : ℕ) : Option (List K) := do
  let sampleCount := bunchesPerTurn * channels.count
  let turnBuffer ← steps (fun d => addTurn bunchesPerTurn readBuffer (start + d * bunchesPerTurn)
    channels fun sample => sample) decimation (List.replicate sampleCount 0)
  return turnBuffer.map (· / decimation)

/-- `send_float32_memory_data`; the state of the loop is the start of what is left of the buffer.
The size of a turn is computed as an `unsigned int`. -/
def sendFloat32MemoryData (bunchesPerTurn : ℕ) (args : MemoryArgs) (channels : ChannelsContext)
    (readBuffer : List Word) (readSamples : ℕ) : Option (List Byte) :=
  let readTurnSamples := bunchesPerTurn * args.decimation % 2 ^ 32
  let readTurns := readSamples / readTurnSamples
  let samplesPerTurn := bunchesPerTurn * channels.count
  let turnsPerBuffer := writeBufferBytes / 4 / samplesPerTurn
  drain turnsPerBuffer readTurns 0 fun writeTurns start => do
    let values ← collect (fun turn => computeFloat32TurnData bunchesPerTurn readBuffer
      (start + turn * readTurnSamples) channels args.decimation) writeTurns
    let writeBuffer ← fill (writeBufferBytes / 4) values
    return (writeBuffer.flatMap fun value => wordBytes (n := 4) (a.float value),
      start + writeTurns * readTurnSamples)

/-! ### complex64 -/

/-- `struct tune_decimate_state`, without `tune`. -/
structure TuneDecimateState (K : Type) where
  decimation : ℕ
  angle : BitVec 64
  turnAdvance : BitVec 64
  turnFixup : List K

/-- `angle_to_rotate`; an angle of `2 ^ 48` is a whole revolution. -/
def angleToRotate (angle : BitVec 64) : K := a.e angle.toNat

/-- The fixups of one bunch, and the angle of the next. -/
def addFixup (bunchesPerTurn : ℕ) (args : MemoryArgs) (channels : ChannelsContext)
    (s : List K × BitVec 64) : Option (List K × BitVec 64) := do
  let rotate := angleToRotate a s.2
  let turnFixup ← fill (bunchesPerTurn * channels.count)
    (s.1 ++ List.replicate channels.count (rotate / args.decimation))
  return (turnFixup, s.2 + a.tuneToFreq args.tune)

/-- `prepare_tune_decimate`. -/
def prepareTuneDecimate (bunchesPerTurn : ℕ) (args : MemoryArgs) (channels : ChannelsContext) :
    Option (TuneDecimateState K) := do
  let tune := a.tuneToFreq args.tune
  let (turnFixup, _) ← steps (fun _ => addFixup a bunchesPerTurn args channels) bunchesPerTurn
    ([], 0)
  return {
    decimation := args.decimation
    angle := 0
    turnAdvance := tune * BitVec.ofNat 64 bunchesPerTurn
    turnFixup }

/-- One turn that is rotated and added to the totals, and the angle of the next. -/
def addRotatedTurn (bunchesPerTurn : ℕ) (readBuffer : List Word) (start : ℕ)
    (channels : ChannelsContext) (turnAdvance : BitVec 64) (s : List K × BitVec 64) :
    Option (List K × BitVec 64) := do
  let rotate := angleToRotate a s.2
  let turnBuffer ← addTurn bunchesPerTurn readBuffer start channels (fun sample => rotate * sample)
    s.1
  return (turnBuffer, s.2 + turnAdvance)

/-- `compute_complex64_turn_data`, from word `start` of the buffer on. -/
def computeComplex64TurnData (bunchesPerTurn : ℕ) (readBuffer : List Word) (start : ℕ)
    (channels : ChannelsContext) (state : TuneDecimateState K) :
    Option (List K × TuneDecimateState K) := do
  let sampleCount := bunchesPerTurn * channels.count
  let (totals, angle) ← steps (fun d => addRotatedTurn a bunchesPerTurn readBuffer
    (start + d * bunchesPerTurn) channels state.turnAdvance) state.decimation
      (List.replicate sampleCount 0, state.angle)
  let turnBuffer ← collect (fun i => do
    let total ← totals[i]?
    let fixup ← state.turnFixup[i]?
    return [total * fixup]) sampleCount
  return (turnBuffer, { state with angle })

/-- One turn that is written after those before it. -/
def writeComplex64Turn (bunchesPerTurn : ℕ) (readBuffer : List Word) (start : ℕ)
    (channels : ChannelsContext) (s : List K × TuneDecimateState K) :
    Option (List K × TuneDecimateState K) := do
  let (turnBuffer, state) ← computeComplex64TurnData a bunchesPerTurn readBuffer start channels s.2
  return (s.1 ++ turnBuffer, state)

/-- A pass of `send_complex64_memory_data`; the state of the loop is the start of what is left of
the buffer and `state`. -/
def sendComplex64Block (bunchesPerTurn readTurnSamples : ℕ) (channels : ChannelsContext)
    (readBuffer : List Word) (writeTurns : ℕ) (s : ℕ × TuneDecimateState K) :
    Option (List Byte × (ℕ × TuneDecimateState K)) := do
  let (values, state) ← steps (fun turn => writeComplex64Turn a bunchesPerTurn readBuffer
    (s.1 + turn * readTurnSamples) channels) writeTurns ([], s.2)
  let writeBuffer ← fill (writeBufferBytes / 8) values
  return (writeBuffer.flatMap fun value => wordBytes (n := 8) (a.complex value),
    s.1 + writeTurns * readTurnSamples, state)

/-- `send_complex64_memory_data`. -/
def sendComplex64MemoryData (bunchesPerTurn : ℕ) (channels : ChannelsContext)
    (state : TuneDecimateState K) (readBuffer : List Word) (readSamples : ℕ) :
    Option (List Byte × TuneDecimateState K) := do
  let readTurnSamples := bunchesPerTurn * state.decimation % 2 ^ 32
  let readTurns := readSamples / readTurnSamples
  let samplesPerTurn := bunchesPerTurn * channels.count
  let turnsPerBuffer := writeBufferBytes / 8 / samplesPerTurn
  let (sent, _, state) ← passesTo turnsPerBuffer
    (sendComplex64Block a bunchesPerTurn readTurnSamples channels readBuffer) readTurns readTurns
    (0, state)
  return (sent, state)

/-! ### Both -/

/-- The formats with decimation or tune shift, for `send_memory_data`.  Only complex64 has a
state. -/
def decimation (bunchesPerTurn : ℕ) : Reduction (Option (TuneDecimateState K)) where
  prepare args channels :=
    if args.format = .complex64 then prepareTuneDecimate a bunchesPerTurn args channels else none
  send args channels state readBuffer readSamples :=
    if args.format = .complex64 then do
      let (sent, state) ← sendComplex64MemoryData a bunchesPerTurn channels (← state) readBuffer
        readSamples
      return (sent, some state)
    else
      (sendFloat32MemoryData a bunchesPerTurn args channels readBuffer readSamples).map (·, state)

end formats

end Mbf.Memory
