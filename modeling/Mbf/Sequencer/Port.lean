import Mbf.Sequencer.Firmware
import Mbf.Lib.Bus

/-! # The port to the sequencer memories

The three memories of the sequencer are written through one register: `sequencer_registers` counts
the address of the words written to `DSP.SEQ.WRITE`, from the start of a block, and passes them on
to the memory that `DSP.SEQ.CONFIG` selects.  The program memory and the detector window take a
word each time; `sequencer_super` puts two words together, and writes on the second.

A register write is on its way for some clocks.  The next one comes later than that: its request
is not made before the one before it has been acknowledged.  So between the writes the port is
quiet, and a write is one step of what the port holds (`SeqPort.Quiet.write`). -/

namespace Mbf.Sequencer

/-! ### The circuit -/

/-- A write to `DSP.SEQ.COMMAND`, `DSP.SEQ.CONFIG` or `DSP.SEQ.WRITE`. -/
inductive SeqWrite where
  | command (data : Word)
  | config (data : Word)
  | write (data : Word)

/-- The write address; the memories are at most twice as long as there are super states. -/
abbrev WriteAddress := BitVec 12

/-- The registers of `sequencer_registers`, the write side of `sequencer_super`, and the
memories. -/
structure SeqPort where
  strobedBits : Word
  strobedDly : Fin 2 → Word
  configRegister : Word
  writeAddress : WriteAddress
  memWriteStrobe : Fin 3 → Bool
  memWriteAddr : WriteAddress
  memWriteData : Word
  programMemory : BitVec 6 → Word
  windowMemory : BitVec 10 → BitVec 16
  superWriteStrobe : Bool
  superWriteData : Angle
  superMemory : BitVec 11 → Angle

/-- The places of the memories in the write strobe. -/
abbrev memProgram : Fin 3 := 0
abbrev memWindow : Fin 3 := 1
abbrev memFrequency : Fin 3 := 2

/-- The half of a frequency that `sequencer_super` takes from a word. -/
def gatherAngle (data : Angle) (second : Bool) (word : Word) : Angle :=
  if second then word.extractLsb' 0 16 ++ data.extractLsb' 0 32
  else data.extractLsb' 32 16 ++ word

namespace SeqPort

/-- `start_write`. -/
def startWrite (s : SeqPort) : Bool := (s.strobedDly 1).getLsbD 1

/-- `write_target`. -/
def writeTarget (s : SeqPort) : BitVec 2 := s.configRegister.extractLsb' 17 2

/-- A clock of `sequencer_registers`, of `sequencer_super` and of the memories, with the write to
one of the registers, if there is one. -/
def clock (s : SeqPort) (input : Option SeqWrite) : SeqPort where
  strobedBits :=
    match input with
    | some (.command data) => data
    | _ => 0
  strobedDly := dlyline s.strobedDly s.strobedBits
  configRegister :=
    match input with
    | some (.config data) => data
    | _ => s.configRegister
  writeAddress :=
    if s.startWrite then 0
    else match input with
      | some (.write _) => s.writeAddress + 1
      | _ => s.writeAddress
  memWriteStrobe target :=
    match input with
    | some (.write _) => decide (s.writeTarget.toNat = target.val)
    | _ => false
  memWriteAddr :=
    match input with
    | some (.write _) => s.writeAddress
    | _ => s.memWriteAddr
  memWriteData :=
    match input with
    | some (.write data) => data
    | _ => s.memWriteData
  programMemory :=
    if s.memWriteStrobe memProgram then
      Function.update s.programMemory (s.memWriteAddr.extractLsb' 0 6) s.memWriteData
    else s.programMemory
  windowMemory :=
    if s.memWriteStrobe memWindow then
      Function.update s.windowMemory (s.memWriteAddr.extractLsb' 0 10)
        (s.memWriteData.extractLsb' 0 16)
    else s.windowMemory
  superWriteStrobe := s.memWriteStrobe memFrequency && s.memWriteAddr.getLsbD 0
  superWriteData :=
    if s.memWriteStrobe memFrequency then
      gatherAngle s.superWriteData (s.memWriteAddr.getLsbD 0) s.memWriteData
    else s.superWriteData
  superMemory :=
    if s.superWriteStrobe then
      Function.update s.superMemory (s.memWriteAddr.extractLsb' 1 11) s.superWriteData
    else s.superMemory

end SeqPort

/-! ### The writes -/

/-- The clocks from one write to the next: `register_strobe_cc` takes its request away when it has
been acknowledged, and gives a strobe when there is a new one. -/
def SeqWrite.settle (_ : SeqWrite) : ℕ := 3

/-- What the port holds. -/
@[ext] structure SeqContents where
  configRegister : Word
  writeAddress : WriteAddress
  programMemory : BitVec 6 → Word
  windowMemory : BitVec 10 → BitVec 16
  superWriteData : Angle
  superMemory : BitVec 11 → Angle

def SeqPort.contents (s : SeqPort) : SeqContents where
  configRegister := s.configRegister
  writeAddress := s.writeAddress
  programMemory := s.programMemory
  windowMemory := s.windowMemory
  superWriteData := s.superWriteData
  superMemory := s.superMemory

namespace SeqContents

/-- What the sequencer runs. -/
def program (c : SeqContents) : Program where
  memory := c.programMemory
  superMemory := c.superMemory
  seqPc := c.configRegister.extractLsb' 0 3
  superCount := c.configRegister.extractLsb' 6 11

/-- A word for the super sequencer. -/
def writeSuper (c : SeqContents) (data : Word) : SeqContents :=
  let superWriteData := gatherAngle c.superWriteData (c.writeAddress.getLsbD 0) data
  { c with
    superWriteData
    superMemory :=
      if c.writeAddress.getLsbD 0 then
        Function.update c.superMemory (c.writeAddress.extractLsb' 1 11) superWriteData
      else c.superMemory }

/-- A word for the memory that is selected. -/
def writeWord (c : SeqContents) (data : Word) : SeqContents :=
  match (c.configRegister.extractLsb' 17 2).toNat with
  | 0 => { c with
      programMemory := Function.update c.programMemory (c.writeAddress.extractLsb' 0 6) data }
  | 1 => { c with
      windowMemory := Function.update c.windowMemory (c.writeAddress.extractLsb' 0 10)
        (data.extractLsb' 0 16) }
  | 2 => c.writeSuper data
  | _ => c

/-- What a write does. -/
def step (c : SeqContents) : SeqWrite → SeqContents
  | .command data => if data.getLsbD 1 then { c with writeAddress := 0 } else c
  | .config data => { c with configRegister := data }
  | .write data => { c.writeWord data with writeAddress := c.writeAddress + 1 }

end SeqContents

/-- No write is on its way. -/
structure SeqPort.Quiet (s : SeqPort) : Prop where
  strobedBits : s.strobedBits = 0
  strobedDly : ∀ i, s.strobedDly i = 0
  memWriteStrobe : ∀ target, s.memWriteStrobe target = false
  superWriteStrobe : s.superWriteStrobe = false

section port
variable {s : SeqPort}

/-- After three clocks without a write the port is quiet. -/
theorem SeqPort.quiet_of_idle (s : SeqPort) :
    ((List.replicate 3 none).foldl SeqPort.clock s).Quiet := by
  constructor
  · rfl
  · intro i
    match i with
    | 0 => rfl
    | 1 => rfl
  · intro target
    rfl
  · rfl

/-- Nothing happens to a quiet port. -/
theorem SeqPort.Quiet.idle (h : s.Quiet) : s.clock none = s := by
  have hdly : dlyline s.strobedDly s.strobedBits = s.strobedDly := by
    funext i
    unfold dlyline
    split_ifs
    · rw [h.strobedBits, h.strobedDly]
    · rw [h.strobedDly, h.strobedDly]
  have hstart : s.startWrite = false := by
    unfold SeqPort.startWrite
    rw [h.strobedDly]
    rfl
  obtain ⟨strobedBits, strobedDly, configRegister, writeAddress, memWriteStrobe, memWriteAddr,
    memWriteData, programMemory, windowMemory, superWriteStrobe, superWriteData, superMemory⟩ := s
  have hbits : strobedBits = 0 := h.strobedBits
  have hmem : memWriteStrobe = fun _ => false := funext h.memWriteStrobe
  have hsuper : superWriteStrobe = false := h.superWriteStrobe
  unfold SeqPort.clock
  rw [hstart, hdly]
  dsimp only
  rw [hbits, hmem, hsuper]
  rfl

/-- A command starts a block, when it has gone through its delays. -/
theorem SeqPort.Quiet.command (h : s.Quiet) (data : Word) :
    ((Bus.settled SeqWrite.settle (.command data)).foldl SeqPort.clock s).contents =
      s.contents.step (.command data) := by
  have hdly0 := h.strobedDly 0
  have hdly1 := h.strobedDly 1
  have hbit : data.getLsbD 1 = data[1] := rfl
  show ((((s.clock (some (.command data))).clock none).clock none).clock none).contents = _
  unfold SeqContents.step
  dsimp only
  rw [hbit]
  cases hwrite : data[1] <;>
    simp [SeqPort.contents, SeqPort.clock, SeqPort.startWrite, dlyline, h.strobedBits, hdly0,
      hdly1, h.memWriteStrobe, h.superWriteStrobe, hwrite]

/-- The configuration register is written at once. -/
theorem SeqPort.Quiet.config (h : s.Quiet) (data : Word) :
    ((Bus.settled SeqWrite.settle (.config data)).foldl SeqPort.clock s).contents =
      s.contents.step (.config data) := by
  have hdly0 := h.strobedDly 0
  have hdly1 := h.strobedDly 1
  show ((((s.clock (some (.config data))).clock none).clock none).clock none).contents = _
  simp [SeqContents.step, SeqPort.contents, SeqPort.clock, SeqPort.startWrite, dlyline,
    h.strobedBits, hdly0, hdly1, h.memWriteStrobe, h.superWriteStrobe]

/-- A word goes to the memory that is selected, one for the super sequencer a clock later. -/
theorem SeqPort.Quiet.write (h : s.Quiet) (data : Word) :
    ((Bus.settled SeqWrite.settle (.write data)).foldl SeqPort.clock s).contents =
      s.contents.step (.write data) := by
  have hdly0 := h.strobedDly 0
  have hdly1 := h.strobedDly 1
  have htarget : s.contents.configRegister.extractLsb' 17 2 = s.writeTarget := rfl
  show ((((s.clock (some (.write data))).clock none).clock none).clock none).contents = _
  unfold SeqContents.step SeqContents.writeWord
  dsimp only
  rw [htarget]
  split
  case h_4 _ hprogram hwindow hsuper =>
    have hne : s.writeTarget.toNat ≠ 0 ∧ s.writeTarget.toNat ≠ 1 ∧ s.writeTarget.toNat ≠ 2 :=
      ⟨hprogram, hwindow, hsuper⟩
    simp [SeqPort.contents, SeqPort.clock, SeqPort.startWrite, dlyline, h.strobedBits, hdly0,
      hdly1, h.memWriteStrobe, h.superWriteStrobe, hne]
  all_goals
    rename_i hselected
    simp [SeqContents.writeSuper, SeqPort.contents, SeqPort.clock, SeqPort.startWrite, dlyline,
      h.strobedBits, hdly0, hdly1, h.memWriteStrobe, h.superWriteStrobe, hselected]

/-- Between the writes the port is quiet, and a write is a step. -/
theorem SeqPort.Quiet.settled (h : s.Quiet) (w : SeqWrite) :
    ((Bus.settled SeqWrite.settle w).foldl SeqPort.clock s).Quiet ∧
      ((Bus.settled SeqWrite.settle w).foldl SeqPort.clock s).contents = s.contents.step w := by
  constructor
  · exact SeqPort.quiet_of_idle (s.clock (some w))
  · cases w with
    | command data => exact h.command data
    | config data => exact h.config data
    | write data => exact h.write data

/-- What the port holds after some writes. -/
theorem SeqPort.Quiet.paced (h : s.Quiet) {clocks : List (Option SeqWrite)}
    {writes : List SeqWrite} (hpaced : Bus.Paced SeqWrite.settle clocks writes) :
    (clocks.foldl SeqPort.clock s).Quiet ∧
      (clocks.foldl SeqPort.clock s).contents = writes.foldl SeqContents.step s.contents := by
  refine hpaced.foldl ?_ ?_ h
  · intro t ht
    rw [ht.idle]
    exact ⟨ht, rfl⟩
  · intro t w ht
    exact ht.settled w

end port

end Mbf.Sequencer
