import Mathlib.Data.BitVec
import Mbf.Lib.Literals

/-! # The configuration of the sequencer

The configuration the software keeps (`struct seq_config`), and the memories of the firmware as
`hw_write_seq_config` leaves them: eight words for each of the eight states of the program
memory, and one frequency for each super sequencer state.  The detector window is left out. -/

namespace Mbf.Sequencer

abbrev Word := BitVec 32
abbrev Angle := BitVec 48

/-- `MAX_SEQUENCER_COUNT`. -/
def maxSequencerCount : ℕ := 7

/-- `SUPER_SEQ_STATES`. -/
def superSeqStates : ℕ := 2048

/-- `struct seq_entry`. -/
structure SeqEntry where
  startFreq : ℕ := 0
  deltaFreq : ℕ := 0
  dwellTime : ℕ := 0
  captureCount : ℕ := 0
  bunchBank : ℕ := 0
  ncoGain : ℕ := 0
  windowRate : ℕ := 0
  enableWindow : Bool := false
  writeEnable : Bool := false
  enableBlanking : Bool := false
  resetPhase : Bool := false
  useTunePll : Bool := false
  holdoff : ℕ := 0
  stateHoldoff : ℕ := 0
deriving DecidableEq, Repr

/-- `struct seq_config`; entry `i` is that of state `i + 1`. -/
structure SeqConfig where
  bank0 : ℕ
  sequencerPc : ℕ
  superSeqCount : ℕ
  entries : ℕ → SeqEntry
  superOffsets : ℕ → ℕ

/-- The values of an entry that the PVs admit. -/
structure SeqEntry.Admitted (entry : SeqEntry) : Prop where
  dwellTime : 1 ≤ entry.dwellTime ∧ entry.dwellTime ≤ 2 ^ 16
  captureCount : 1 ≤ entry.captureCount ∧ entry.captureCount ≤ 2 ^ 16
  holdoff : entry.holdoff < 2 ^ 16
  stateHoldoff : entry.stateHoldoff < 2 ^ 16

/-- The configurations that the PVs admit. -/
structure SeqConfig.Admitted (config : SeqConfig) : Prop where
  sequencerPc : 1 ≤ config.sequencerPc ∧ config.sequencerPc ≤ maxSequencerCount
  superSeqCount : 1 ≤ config.superSeqCount ∧ config.superSeqCount ≤ superSeqStates
  entries : ∀ i < maxSequencerCount, (config.entries i).Admitted

/-! ### Writing to the hardware -/

/-- The words of `write_sequencer_state`. -/
def writeSequencerState (state0 : Bool) (entry : SeqEntry) : Fin 8 → Word := fun
  | 0 => BitVec.ofNat 32 entry.startFreq
  | 1 => BitVec.ofNat 32 entry.deltaFreq
  | 2 => BitVec.ofNat 16 (entry.deltaFreq >>> 32) ++ BitVec.ofNat 16 (entry.startFreq >>> 32)
  | 3 => BitVec.ofNat 16 (entry.captureCount - 1) ++ BitVec.ofNat 16 (entry.dwellTime - 1)
  | 4 => (0 : BitVec 6) ++ BitVec.ofBool state0 ++ BitVec.ofBool entry.useTunePll ++
      BitVec.ofBool entry.resetPhase ++ BitVec.ofBool entry.enableBlanking ++
      BitVec.ofBool entry.writeEnable ++ BitVec.ofBool entry.enableWindow ++
      BitVec.ofNat 18 entry.ncoGain ++ BitVec.ofNat 2 entry.bunchBank
  | 5 => BitVec.ofNat 32 entry.windowRate
  | 6 => BitVec.ofNat 16 entry.stateHoldoff ++ BitVec.ofNat 16 entry.holdoff
  | 7 => 0

/-- A 48-bit number is put together again from its low and its high part. -/
theorem ofNat_parts (x : ℕ) :
    BitVec.ofNat 16 (x >>> 32) ++ BitVec.ofNat 32 x = BitVec.ofNat 48 x := by
  apply BitVec.eq_of_getLsbD_eq
  intro i hi
  rw [BitVec.getLsbD_append, BitVec.getLsbD_ofNat, BitVec.getLsbD_ofNat, BitVec.getLsbD_ofNat,
    Nat.testBit_shiftRight]
  by_cases hlow : i < 32
  · simp [hlow, hi]
  · simp [hlow, hi, show i - 32 < 16 by omega, show 32 + (i - 32) = i by omega]

/-- The entry `write_sequencer_entries` writes for state 0. -/
def state0Entry (bank0 : ℕ) : SeqEntry :=
  { dwellTime := 1, bunchBank := bank0, captureCount := 1, resetPhase := true }

/-- The entry of a state. -/
def SeqConfig.entry (config : SeqConfig) (state : ℕ) : SeqEntry :=
  if state = 0 then state0Entry config.bank0 else config.entries (state - 1)

/-- What the firmware runs: its memories and the registers read when a program is started. -/
structure Program where
  memory : BitVec 6 → Word
  superMemory : BitVec 11 → Angle
  seqPc : BitVec 3
  superCount : BitVec 11

/-- `hw_write_seq_config`.  The super sequencer offsets are written in reverse order, and only
those that are used: the rest of the memory is as it was. -/
def hwWriteSeqConfig (config : SeqConfig) (superMemory : BitVec 11 → Angle) : Program where
  memory address :=
    writeSequencerState (address.extractLsb' 3 3 = 0)
      (config.entry (address.extractLsb' 3 3).toNat) (address.extractLsb' 0 3).toFin
  superMemory address :=
    if address.toNat < config.superSeqCount then
      BitVec.ofNat 48 (config.superOffsets (config.superSeqCount - 1 - address.toNat))
    else superMemory address
  seqPc := BitVec.ofNat 3 config.sequencerPc
  superCount := BitVec.ofNat 11 (config.superSeqCount - 1)

end Mbf.Sequencer
