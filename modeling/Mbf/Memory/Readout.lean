import Mathlib.Data.Int.Cast.Lemmas
import Mathlib.Logic.Function.Basic
import Mbf.Lib.Literals
import Mbf.Lib.Passes
import Mbf.Memory.Command

/-! # Reading out the memory

The execution of the `M` command of `socket_command.c`, as it computes the bytes it sends.

The result of a function is `none` where the C code has no result: a read that does not fit its
buffer, a read of a word that is not in the buffer, a write past the end of the write buffer, or
a loop that makes no progress.

The hardware read returns the bytes of DRAM0 from the given offset on, modulo the size of the
memory.  The decimated formats are floating point, and are left as a parameter here
(`Reduction`), with whatever state they keep between blocks. -/

namespace Mbf.Memory

open Passes

abbrev Byte := BitVec 8
abbrev Sample := BitVec 16
abbrev Word := BitVec 32

/-- `DRAM0_LENGTH`, in bytes. -/
def dram0Length : ℕ := 0x80000000

/-- `READ_BUFFER_BYTES`. -/
def readBufferBytes : ℕ := 2 ^ 20 - 64

/-- `WRITE_BUFFER_BYTES`. -/
def writeBufferBytes : ℕ := 2 ^ 16

/-- What a readout depends on: the memory, the origin in it of the last trigger, the delays of
the two channels and the number of bunches. -/
structure Capture where
  dram : Fin dram0Length → Byte
  triggerOrigin : ℕ
  channelDelays : Fin 2 → ℕ
  bunchesPerTurn : ℕ

namespace Capture

/-- The byte of the memory at an address. -/
def byte (m : Capture) (address : ℤ) : Byte :=
  m.dram ⟨(address % dram0Length).toNat, by unfold dram0Length; omega⟩

/-- The little endian word at an address. -/
def word (m : Capture) (address : ℤ) : Word :=
  m.byte (address + 3) ++ m.byte (address + 2) ++ m.byte (address + 1) ++ m.byte address

/-- Conversion to `size_t`. -/
def sizeT (n : ℤ) : ℕ := (n % 2 ^ 64).toNat

/-- `compute_dram_offset`; the product is computed as an `int`. -/
def computeDramOffset (m : Capture) (offsetTurns : ℤ) : ℕ :=
  (m.triggerOrigin + sizeT ((offsetTurns * m.bunchesPerTurn * 4).bmod (2 ^ 32))) % 2 ^ 64

/-- `hw_read_dram_memory` into a buffer of `capacity` words. -/
def hwReadDramMemory (m : Capture) (capacity offset samples : ℕ) : Option (List Word) :=
  if samples ≤ capacity then
    some ((List.range samples).map fun i =>
      m.word (((offset &&& (dram0Length - 1)) + 4 * i : ℕ) : ℤ))
  else none

end Capture

/-! ### Channel extraction -/

/-- `struct channels_context`. -/
structure ChannelsContext where
  d0 : ℕ
  d1 : ℕ
  count : ℕ
  channels : Fin 2 → Bool

/-- `make_channels_context`. -/
def makeChannelsContext (m : Capture) (channel : ℤ) : ChannelsContext where
  d0 := m.channelDelays 0
  d1 := m.channelDelays 1
  count := if 0 ≤ channel then 1 else 2
  channels :=
    if 0 ≤ channel then
      Function.update (fun _ => true) (Fin.ofNat 2 (1 - channel).toNat) false
    else fun _ => true

/-- `extract_channels_one_bunch`, at word `i` of the buffer. -/
def extractChannelsOneBunch (readBuffer : List Word) (i : ℕ) (channels : ChannelsContext) :
    Option (List Sample) := do
  let first ←
    if channels.channels 0 then do
      let w ← readBuffer[i + channels.d0]?
      pure [w.setWidth 16]
    else pure []
  let second ←
    if channels.channels 1 then do
      let w ← readBuffer[i + channels.d1]?
      pure [(w >>> 16).setWidth 16]
    else pure []
  return first ++ second

/-- `extract_channels`, from word `start` of the buffer on. -/
def extractChannels (readBuffer : List Word) (start samples : ℕ) (channels : ChannelsContext) :
    Option (List Sample) :=
  collect (fun i => extractChannelsOneBunch readBuffer (start + i) channels) samples

/-- `compute_bunch_turn_data`, from word `start` of the buffer on. -/
def computeBunchTurnData (bunchesPerTurn : ℕ) (readBuffer : List Word) (start writeTurns : ℕ)
    (channels : ChannelsContext) : Option (List Sample) :=
  collect (fun i => extractChannelsOneBunch readBuffer (start + i * bunchesPerTurn) channels)
    writeTurns

/-! ### Sending -/

/-- The two bytes of a sample. -/
def Sample.bytes (s : Sample) : List Byte := [s.extractLsb' 0 8, s.extractLsb' 8 8]

/-- The number of samples the write buffer holds. -/
def writeBufferSize : ℕ := writeBufferBytes / 2

/-- The write buffer, once filled with these samples, is sent by `write_block`. -/
def writeSamples (samples : List Sample) : Option (List Byte) :=
  if samples.length ≤ writeBufferSize then some (samples.flatMap Sample.bytes) else none

/-- A loop that works through `left` items in passes of at most `most`.  A pass takes at least
one item, so `left` passes are enough, unless `most` is zero and the loop never ends. -/
def drain {σ : Type} (most left : ℕ) (s : σ) (body : ℕ → σ → Option (List Byte × σ)) :
    Option (List Byte) :=
  passes most body left left s

/-- `send_bunch_memory_data`; the state of the loop is the start of what is left of the buffer. -/
def sendBunchMemoryData (bunchesPerTurn : ℕ) (channels : ChannelsContext) (bunch : ℕ)
    (readBuffer : List Word) (readSamples : ℕ) : Option (List Byte) :=
  let readTurns := readSamples / bunchesPerTurn
  let maxSamples := writeBufferSize / channels.count
  drain maxSamples readTurns 0 fun writeTurns start => do
    let samples ← computeBunchTurnData bunchesPerTurn readBuffer (start + bunch) writeTurns channels
    let block ← writeSamples samples
    return (block, start + writeTurns * bunchesPerTurn)

/-- `send_int16_memory_data`; the state of the loop is the start of what is left of the buffer. -/
def sendInt16MemoryData (channels : ChannelsContext) (readBuffer : List Word) (readSamples : ℕ) :
    Option (List Byte) :=
  let maxSamples := writeBufferSize / channels.count
  drain maxSamples readSamples 0 fun n start => do
    let samples ← extractChannels readBuffer start n channels
    let block ← writeSamples samples
    return (block, start + n)

/-- The formats with decimation or tune shift: what is prepared before the first block, and what
is done with each block. -/
structure Reduction (σ : Type) where
  prepare : MemoryArgs → ChannelsContext → σ
  send : MemoryArgs → ChannelsContext → σ → List Word → ℕ → Option (List Byte × σ)

/-- `send_memory_data`; the state of the loop is the offset in memory and the state of the
reduction. -/
def sendMemoryData {σ : Type} (reduction : Reduction σ) (m : Capture) (readBufferSize : ℕ)
    (args : MemoryArgs) (channels : ChannelsContext) : Option (List Byte) :=
  let samples := args.count * m.bunchesPerTurn * args.decimation % 2 ^ 32
  let start := (m.computeDramOffset args.offset, reduction.prepare args channels)
  drain readBufferSize samples start fun readSamples (offset, state) => do
    let readBuffer ← m.hwReadDramMemory (readBufferSize + m.bunchesPerTurn) offset
      (readSamples + m.bunchesPerTurn)
    let (block, state) ←
      if 0 ≤ args.bunch then
        (sendBunchMemoryData m.bunchesPerTurn channels args.bunch.toNat readBuffer
          readSamples).map (·, state)
      else
        match args.format with
        | .int16 => (sendInt16MemoryData channels readBuffer readSamples).map (·, state)
        | .float32 => reduction.send args channels state readBuffer readSamples
        | .complex64 => reduction.send args channels state readBuffer readSamples
    return (block, (offset + readSamples * 4) % 2 ^ 64, state)

/-- `compute_read_buffer_size`, in words. -/
def computeReadBufferSize (bunchesPerTurn : ℕ) (args : MemoryArgs) : Except Error ℕ :=
  let size := readBufferBytes / 4 - bunchesPerTurn
  if 0 ≤ args.bunch then
    .ok (size / bunchesPerTurn * bunchesPerTurn)
  else if args.format ≠ .int16 then
    let sampleSize := bunchesPerTurn * args.decimation
    if 0 < size / sampleSize * sampleSize then .ok (size / sampleSize * sampleSize)
    else .error ⟨"Decimation too large", none⟩
  else .ok size

/-- `struct memory_frame`. -/
structure MemoryFrame where
  samples : ℕ
  channels : ℕ
  format : ℕ
deriving DecidableEq, Repr

/-- The frame as it lies in memory. -/
def MemoryFrame.bytes (frame : MemoryFrame) : List Byte :=
  (List.range 4).map (fun i => (BitVec.ofNat 32 frame.samples).extractLsb' (8 * i) 8) ++
    Sample.bytes (BitVec.ofNat 16 frame.channels) ++ Sample.bytes (BitVec.ofNat 16 frame.format)

/-- The frame that `write_memory_info` sends. -/
def memoryFrame (bunchesPerTurn : ℕ) (args : MemoryArgs) : MemoryFrame where
  samples := if 0 ≤ args.bunch then args.count else args.count * bunchesPerTurn % 2 ^ 32
  channels := if 0 ≤ args.channel then 1 else 2
  format := args.format.toNat

/-- The checks of `process_memory_command`, of which the lock comes last: the arguments and the
size of the read buffer. -/
def checkMemoryCommand (strtod : List Char → Float × List Char × Bool)
    (waitForLock : LockParse → Except Error Unit) (m : Capture) (rawMode : Bool)
    (command : List Char) : Except Error (MemoryArgs × ℕ) := do
  let args ← parseMemoryArgs strtod m.bunchesPerTurn rawMode command
  if dram0Length / 4 / m.bunchesPerTurn / args.decimation < args.count then
    throw ⟨"Too many turns requested", none⟩
  let readBufferSize ← computeReadBufferSize m.bunchesPerTurn args
  waitForLock args.locking
  return (args, readBufferSize)

/-- `process_memory_command`: the bytes it writes, or its error. -/
def processMemoryCommand {σ : Type} (reduction : Reduction σ)
    (strtod : List Char → Float × List Char × Bool) (waitForLock : LockParse → Except Error Unit)
    (m : Capture) (rawMode : Bool) (command : List Char) : Option (Except Error (List Byte)) :=
  match checkMemoryCommand strtod waitForLock m rawMode command with
  | .error error => some (.error error)
  | .ok (args, readBufferSize) => do
      let data ← sendMemoryData reduction m readBufferSize args (makeChannelsContext m args.channel)
      return .ok ((if rawMode then [] else [0]) ++
        (if args.framed then (memoryFrame m.bunchesPerTurn args).bytes else []) ++ data)

end Mbf.Memory
