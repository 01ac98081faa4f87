import Mbf.Sequencer.Config
import Mbf.Util

/-! # The sequencer firmware

The clocked entities of the sequencer, each as its registers and one function that takes them
from one clock of `dsp_clk` to the next: `sequencer_pc`, `sequencer_load_state`,
`sequencer_super`, `sequencer_dwell`, `sequencer_counter` and the control part of
`sequencer_window`.  `SequencerTop.clock` connects them as `sequencer_top` does.

The program is not written while it runs.  The detector window itself, the bunch bank, the
oscillator and the state trigger are left out: nothing here reads them. -/

namespace Mbf.Sequencer

/-! ### Loading of a state -/

/-- `seq_state_t`. -/
structure SeqState where
  startFreq : Angle := 0
  deltaFreq : Angle := 0
  dwellCount : BitVec 16 := 0
  captureCount : BitVec 16 := 0
  bunchBank : BitVec 2 := 0
  ncoGain : BitVec 18 := 0
  enableWindow : Bool := false
  enableWrite : Bool := false
  enableBlanking : Bool := false
  resetPhase : Bool := false
  enableTunePll : Bool := false
  disableSuper : Bool := false
  windowRate : BitVec 32 := 0
  holdoffCount : BitVec 16 := 0
  stateHoldoff : BitVec 16 := 0
deriving DecidableEq

/-- Load word `k` of a state. -/
def SeqState.loadWord (s : SeqState) (k : Fin 8) (word : Word) : SeqState :=
  match k with
  | 0 => { s with startFreq := s.startFreq.extractLsb' 32 16 ++ word }
  | 1 => { s with deltaFreq := s.deltaFreq.extractLsb' 32 16 ++ word }
  | 2 => { s with
      startFreq := word.extractLsb' 0 16 ++ s.startFreq.extractLsb' 0 32
      deltaFreq := word.extractLsb' 16 16 ++ s.deltaFreq.extractLsb' 0 32 }
  | 3 => { s with
      dwellCount := word.extractLsb' 0 16
      captureCount := word.extractLsb' 16 16 }
  | 4 => { s with
      bunchBank := word.extractLsb' 0 2
      ncoGain := word.extractLsb' 2 18
      enableWindow := word.getLsbD 20
      enableWrite := word.getLsbD 21
      enableBlanking := word.getLsbD 22
      resetPhase := word.getLsbD 23
      enableTunePll := word.getLsbD 24
      disableSuper := word.getLsbD 25 }
  | 5 => { s with windowRate := word }
  | 6 => { s with
      holdoffCount := word.extractLsb' 0 16
      stateHoldoff := word.extractLsb' 16 16 }
  | 7 => s

/-- The registers of `sequencer_load_state`; `readData` and `progWord` are those of the block
memory. -/
structure LoadState where
  startLoad : Fin 8 → Bool := fun _ => false
  loading : Bool := false
  loadCtr : BitVec 3 := 0
  loadingDly : Fin 2 → Bool := fun _ => false
  loadCtrDly : Fin 2 → BitVec 3 := fun _ => 0
  readData : Word := 0
  progWord : Word := 0
  seqState : SeqState := {}

/-- One clock of `sequencer_load_state`. -/
def LoadState.clock (l : LoadState) (memory : BitVec 6 → Word) (startLoad : Bool)
    (seqPc : BitVec 3) : LoadState where
  startLoad := dlyline l.startLoad startLoad
  loading := if l.loading then l.loadCtr ≠ 7 else l.startLoad 7
  loadCtr :=
    if l.loading then l.loadCtr + 1
    else if l.startLoad 7 then 0 else l.loadCtr
  loadingDly := dlyline l.loadingDly l.loading
  loadCtrDly := dlyline l.loadCtrDly l.loadCtr
  readData := memory (seqPc ++ l.loadCtr)
  progWord := l.readData
  seqState :=
    if l.loadingDly 1 then l.seqState.loadWord (l.loadCtrDly 1).toFin l.progWord else l.seqState

/-- The registers of `sequencer_super`: those of the block memory. -/
structure Super where
  readData : Angle := 0
  ncoFreqBase : Angle := 0

/-- One clock of `sequencer_super`. -/
def Super.clock (s : Super) (memory : BitVec 11 → Angle) (superState : BitVec 11) : Super where
  readData := memory superState
  ncoFreqBase := s.readData

/-! ### Program counter -/

/-- The registers of `sequencer_pc`. -/
structure Pc where
  resetIn : Bool := false
  resetOut : Bool := false
  trigger : Bool := false
  busy : Bool := false
  loading : Bool := false
  superCount : BitVec 11 := 0
  seqPc : BitVec 3 := 0
  startLoad : Bool := false

/-- `trigger_in`. -/
def Pc.triggerIn (p : Pc) (trigger : Bool) : Bool := trigger || p.trigger

/-- The next state and super state, when a state ends. -/
def advance (seqPc : BitVec 3) (superCount : BitVec 11) (trigger : Bool) (program : Program) :
    BitVec 3 × BitVec 11 :=
  if seqPc = 0 then
    if trigger then (program.seqPc, program.superCount) else (seqPc, superCount)
  else if seqPc = 1 then
    if superCount = 0 then (0, superCount) else (program.seqPc, superCount - 1)
  else (seqPc - 1, superCount)

/-- One clock of `sequencer_pc`. -/
def Pc.clock (p : Pc) (program : Program) (turnClock trigger reset stateEnd : Bool) : Pc where
  resetIn := if reset then true else if p.resetOut then false else p.resetIn
  resetOut := if turnClock then p.resetIn else p.resetOut
  trigger := if trigger then true else if p.startLoad then false else p.trigger
  busy :=
    if p.triggerIn trigger then true
    else if turnClock && (p.seqPc == 0) then false else p.busy
  loading := if p.loading then !turnClock else stateEnd || p.resetOut
  superCount :=
    if p.loading then p.superCount
    else if p.resetOut then 0
    else if stateEnd then (advance p.seqPc p.superCount (p.triggerIn trigger) program).2
    else p.superCount
  seqPc :=
    if p.loading then p.seqPc
    else if p.resetOut then 0
    else if stateEnd then (advance p.seqPc p.superCount (p.triggerIn trigger) program).1
    else p.seqPc
  startLoad := if p.loading then false else if stateEnd || p.resetOut then true else p.startLoad

/-! ### Dwell and capture counters -/

/-- The registers of `sequencer_dwell`. -/
structure Dwell where
  inHoldoff : Bool := false
  inStateHoldoff : Bool := false
  holdoffCtr : BitVec 16 := 0
  dwellCtr : BitVec 16 := 0
  firstTurn : Bool := false
  lastTurn : Bool := false

/-- What `sequencer_dwell` does to its registers at a turn clock, save for `lastTurn`. -/
def Dwell.turn (d : Dwell) (state : SeqState) (reset blanking stateEnd : Bool) : Dwell :=
  if reset then { d with inHoldoff := true, inStateHoldoff := false, holdoffCtr := 0 }
  else if d.inHoldoff then
    if d.holdoffCtr = 0 then
      if d.inStateHoldoff && decide (0 < state.holdoffCount.toNat) then
        { d with inStateHoldoff := false, holdoffCtr := state.holdoffCount - 1 }
      else
        { d with
          inStateHoldoff := false
          inHoldoff := false
          dwellCtr := state.dwellCount
          firstTurn := true }
    else { d with holdoffCtr := d.holdoffCtr - 1 }
  else if blanking then { d with inHoldoff := true, holdoffCtr := state.holdoffCount }
  else if d.dwellCtr = 0 then
    if decide (0 < state.stateHoldoff.toNat) && stateEnd then
      { d with inHoldoff := true, inStateHoldoff := true, holdoffCtr := state.stateHoldoff - 1 }
    else if state.holdoffCount = 0 then { d with dwellCtr := state.dwellCount, firstTurn := true }
    else { d with inHoldoff := true, holdoffCtr := state.holdoffCount - 1 }
  else { d with dwellCtr := d.dwellCtr - 1 }

/-- One clock of `sequencer_dwell`. -/
def Dwell.clock (d : Dwell) (turnClock : Bool) (state : SeqState) (reset blanking stateEnd : Bool) :
    Dwell :=
  if turnClock then { d.turn state reset blanking stateEnd with lastTurn := false }
  else { d with
    firstTurn := false
    lastTurn := !d.inHoldoff && (d.dwellCtr == 0) }

/-- The registers of `sequencer_counter`. -/
structure Counter where
  captureCntr : BitVec 16 := 0
  ncoFreq : Angle := 0
  captureCntrZero : Bool := false
  nextCaptureCntr : BitVec 16 := 0
  nextNcoFreq : Angle := 0
  turnClockDelay : Bool := false
  stateEnd : Bool := false
  enablePll : Bool := false
  ncoReset : Bool := false

/-- One clock of `sequencer_counter`. -/
def Counter.clock (c : Counter) (turnClock reset : Bool) (freqBase : Angle) (state : SeqState)
    (lastTurn : Bool) : Counter where
  captureCntrZero := c.captureCntr == 0
  nextCaptureCntr := if c.captureCntrZero then state.captureCount else c.captureCntr - 1
  nextNcoFreq :=
    if c.captureCntrZero then
      if state.disableSuper then state.startFreq else state.startFreq + freqBase
    else c.ncoFreq + state.deltaFreq
  captureCntr :=
    if turnClock then
      if reset then 0 else if lastTurn then c.nextCaptureCntr else c.captureCntr
    else c.captureCntr
  ncoFreq :=
    if turnClock && !reset && lastTurn then c.nextNcoFreq else c.ncoFreq
  enablePll :=
    if turnClock && !reset && lastTurn then state.enableTunePll else c.enablePll
  turnClockDelay := turnClock
  stateEnd := if turnClock || c.turnClockDelay then false else lastTurn && c.captureCntrZero
  ncoReset := state.resetPhase && turnClock && c.stateEnd

/-! ### Detector control -/

/-- The control registers of `sequencer_window`. -/
structure Window where
  startDly : Fin 7 → Bool := fun _ => false
  writeDly : Fin 8 → Bool := fun _ => false
  windowDly : Fin 3 → Bool := fun _ => false
  writeEnable : Bool := false

/-- `seq_write_in`: the dwell that ends at this clock is written by the detector. -/
def Window.seqWriteIn (w : Window) (turnClock lastTurn : Bool) : Bool :=
  lastTurn && turnClock && w.writeEnable

/-- One clock of `sequencer_window`. -/
def Window.clock (w : Window) (turnClock : Bool) (state : SeqState) (firstTurn lastTurn : Bool) :
    Window where
  startDly := dlyline w.startDly firstTurn
  writeDly := dlyline w.writeDly (w.seqWriteIn turnClock lastTurn)
  windowDly := dlyline w.windowDly firstTurn
  writeEnable := if w.windowDly 2 then state.enableWrite else w.writeEnable

/-! ### The whole sequencer -/

/-- The inputs of a clock. -/
structure Input where
  turnClock : Bool
  trigger : Bool
  reset : Bool
  blanking : Bool

/-- The registers of the sequencer. -/
structure SequencerTop where
  pc : Pc := {}
  load : LoadState := {}
  super : Super := {}
  dwell : Dwell := {}
  counter : Counter := {}
  window : Window := {}

/-- One clock of `sequencer_top`. -/
def SequencerTop.clock (p : Program) (i : Input) (s : SequencerTop) : SequencerTop where
  pc := s.pc.clock p i.turnClock i.trigger i.reset s.counter.stateEnd
  load := s.load.clock p.memory s.pc.startLoad s.pc.seqPc
  super := s.super.clock p.superMemory s.pc.superCount
  dwell := s.dwell.clock i.turnClock s.load.seqState s.pc.resetOut
    (i.blanking && s.load.seqState.enableBlanking) s.counter.stateEnd
  counter := s.counter.clock i.turnClock s.pc.resetOut s.super.ncoFreqBase s.load.seqState
    s.dwell.lastTurn
  window := s.window.clock i.turnClock s.load.seqState s.dwell.firstTurn s.dwell.lastTurn

/-- The detector is told to write the dwell that ends at this clock. -/
def SequencerTop.writes (s : SequencerTop) (i : Input) : Bool :=
  s.window.seqWriteIn i.turnClock s.dwell.lastTurn

end Mbf.Sequencer
