import Mbf.Mms.MemoryBanks

/-! # The min/max/sum core

`min_max_sum_bank` counts turns and bunches, and exchanges the two banks at the end of a turn if the
count has been read.  `min_max_sum_readout` gives out the rows of the other bank, word after word.
`min_max_sum_core` puts these together with the store and the update. -/

namespace Mbf.Mms

/-! ### The control of the banks -/

/-- The registers of `min_max_sum_bank`. -/
structure MinMaxSumBank (a : ℕ) where
  switchRequest : Bool
  turns : BitVec 29
  turnsOvfl : Bool
  sumOvfl : Bool
  sum2Ovfl : Bool
  countReadAck : Bool
  sumOverflow : Bool
  sum2Overflow : Bool
  overflowReadout : Fin 8 → Bool
  frameCount : BitVec 30
  frameCountOverflow : Bool
  bankSelect : Bool
  updateAddr : BitVec a
  readoutAddr : BitVec a

namespace MinMaxSumBank

variable {a : ℕ}

def initial (a : ℕ) : MinMaxSumBank a where
  switchRequest := false
  turns := 0
  turnsOvfl := false
  sumOvfl := false
  sum2Ovfl := false
  countReadAck := false
  sumOverflow := false
  sum2Overflow := false
  overflowReadout _ := false
  frameCount := 0
  frameCountOverflow := false
  bankSelect := false
  updateAddr := 0
  readoutAddr := 0

/-- `count_read_data_o` -/
def countReadData (b : MinMaxSumBank a) : BitVec 32 :=
  BitVec.ofBool b.sum2Ovfl ++ BitVec.ofBool b.sumOvfl ++ BitVec.ofBool b.turnsOvfl ++ b.turns

/-- One clock of `min_max_sum_bank`. -/
def clock (b : MinMaxSumBank a) (turnClock countReadStrobe readoutStrobe sumOverflow
    sum2Overflow : Bool) : MinMaxSumBank a :=
  let switchEvent := b.switchRequest && turnClock
  let readout := b.overflowReadout (Fin.last 7)
  { updateAddr := if turnClock then 0 else b.updateAddr + 1
    turns := if switchEvent then b.frameCount.setWidth 29 else b.turns
    turnsOvfl := if switchEvent then b.frameCountOverflow else b.turnsOvfl
    frameCount :=
      if turnClock then
        if b.switchRequest then 0 else b.frameCount + 1
      else b.frameCount
    frameCountOverflow :=
      if turnClock then
        if b.switchRequest then false else b.frameCountOverflow
      else if b.frameCount.getLsbD 29 then true
      else b.frameCountOverflow
    switchRequest :=
      if countReadStrobe then true else if switchEvent then false else b.switchRequest
    bankSelect :=
      if countReadStrobe then b.bankSelect
      else if switchEvent then !b.bankSelect
      else b.bankSelect
    readoutAddr :=
      if switchEvent then 0 else if readoutStrobe then b.readoutAddr + 1 else b.readoutAddr
    sumOvfl := if readout then b.sumOverflow else b.sumOvfl
    sum2Ovfl := if readout then b.sum2Overflow else b.sum2Ovfl
    sumOverflow := if readout then sumOverflow else b.sumOverflow || sumOverflow
    sum2Overflow := if readout then sum2Overflow else b.sum2Overflow || sum2Overflow
    countReadAck := readout
    overflowReadout := dlyline b.overflowReadout switchEvent }

end MinMaxSumBank

/-! ### The readout -/

/-- The words that are read for one row. -/
def readoutWord (row : MmsRow) : Fin 4 → BitVec 32
  | 0 => row.max ++ row.min
  | 1 => row.sum
  | 2 => row.sum2.extractLsb' 0 32
  | 3 => (row.sum2.extractLsb' 32 16).setWidth 32

/-- The registers of `min_max_sum_readout`. -/
structure MinMaxSumReadout where
  phase : Fin 4
  readoutStrobe : Bool
  busy : Bool
  readRequest : Bool
  readoutStrobeO : Bool
  readDataO : BitVec 32
  readAckO : Bool

namespace MinMaxSumReadout

def initial : MinMaxSumReadout where
  phase := 0
  readoutStrobe := false
  busy := false
  readRequest := false
  readoutStrobeO := false
  readDataO := 0
  readAckO := false

/-- One clock of `min_max_sum_readout`. -/
def clock (r : MinMaxSumReadout) (resetReadout : Bool) (data : MmsRow)
    (readoutAck readStrobe : Bool) : MinMaxSumReadout where
  phase := if resetReadout then 0 else if readStrobe then r.phase + 1 else r.phase
  readoutStrobe := decide (r.phase = 3) && readStrobe
  busy :=
    if decide (r.phase = 3) && readStrobe then true else if readoutAck then false else r.busy
  readoutStrobeO := r.readoutStrobe
  readAckO := !r.busy && (readStrobe || r.readRequest)
  readRequest :=
    if r.busy && readStrobe then true else if !r.busy then false else r.readRequest
  readDataO := readoutWord data r.phase

end MinMaxSumReadout

/-! ### All together -/

/-- The parts of `min_max_sum_core`. -/
structure MinMaxSumCore (a : ℕ) where
  bank : MinMaxSumBank a
  store : MinMaxSumStore a
  update : MinMaxSumUpdate
  readout : MinMaxSumReadout

/-- What comes in on a clock. -/
structure MinMaxSumInput where
  turnClock : Bool
  data : BitVec 16
  countReadStrobe : Bool
  readStrobe : Bool

namespace MinMaxSumCore

variable {a : ℕ}

def initial (a : ℕ) : MinMaxSumCore a where
  bank := .initial a
  store := .initial a
  update := .initial
  readout := .initial

/-- One clock of `min_max_sum_core`. -/
def clock (c : MinMaxSumCore a) (i : MinMaxSumInput) : MinMaxSumCore a where
  bank := c.bank.clock i.turnClock i.countReadStrobe c.readout.readoutStrobeO
    c.update.sumOverflowO c.update.sum2OverflowO
  store := c.store.clock c.bank.bankSelect c.bank.updateAddr c.update.mmsO
    c.readout.readoutStrobeO c.bank.readoutAddr
  update := c.update.clock i.data c.store.updateDataO
  readout := c.readout.clock i.countReadStrobe c.store.readoutDataO c.store.readoutAckO i.readStrobe

/-- A run from the start. -/
def run (a : ℕ) (input : ℕ → MinMaxSumInput) : ℕ → MinMaxSumCore a
  | 0 => initial a
  | t + 1 => (run a input t).clock (input t)

end MinMaxSumCore

end Mbf.Mms
