import Mbf.Lib.DoubleBuffer
import Mbf.Lib.Literals
import Mbf.Mms.Update
import Mbf.Util

/-! # The memory of the min/max/sum

`min_max_sum_store` has two banks of rows.  Rows of the bank that is selected are read, updated
outside and written back; rows of the other bank are read out and reset.  What is read comes six
clocks after its address (`store_updateDataO`, `store_readoutDataO`), and eleven clocks after the
address the updated row is in the memory (`store_memory`). -/

namespace Mbf.Mms

/-! ### The circuit -/

/-- The registers of `min_max_sum_memory`, with those of its `block_memory`. -/
structure MinMaxSumMemory (a : ℕ) where
  readAddr : BitVec a
  readData : MmsRow
  readRow : MmsRow
  readDataO : MmsRow
  writeStrobe : Bool
  writeAddr : BitVec a
  writeRow : MmsRow
  memory : BitVec a → MmsRow

def MinMaxSumMemory.initial (a : ℕ) : MinMaxSumMemory a where
  readAddr := 0
  readData := mmsRowZero
  readRow := mmsRowZero
  readDataO := mmsResetValue
  writeStrobe := false
  writeAddr := 0
  writeRow := mmsRowZero
  memory _ := mmsRowZero

/-- One clock of `min_max_sum_memory`. -/
def MinMaxSumMemory.clock {a : ℕ} (m : MinMaxSumMemory a) (readAddrI : BitVec a)
    (writeStrobeI : Bool) (writeAddrI : BitVec a) (writeDataI : MmsRow) : MinMaxSumMemory a where
  readAddr := readAddrI
  readData := m.memory m.readAddr
  readRow := m.readData
  readDataO := m.readRow
  writeStrobe := writeStrobeI
  writeAddr := writeAddrI
  writeRow := writeDataI
  memory := if m.writeStrobe then Function.update m.memory m.writeAddr m.writeRow else m.memory

/-- The registers of `min_max_sum_store`; a bank is a truth value. -/
structure MinMaxSumStore (a : ℕ) where
  readAddr : Bool → BitVec a
  writeStrobe : Bool → Bool
  writeAddr : Bool → BitVec a
  writeData : Bool → MmsRow
  mem : Bool → MinMaxSumMemory a
  updateDataO : MmsRow
  readoutDataO : MmsRow
  readDataBank : Fin 5 → Bool
  writeBank : Fin 8 → Bool
  updateWriteAddr : Fin 8 → BitVec a
  readoutAck : Fin 6 → Bool

namespace MinMaxSumStore

variable {a : ℕ}

def initial (a : ℕ) : MinMaxSumStore a where
  readAddr _ := 0
  writeStrobe _ := false
  writeAddr _ := 0
  writeData _ := mmsResetValue
  mem _ := .initial a
  updateDataO := mmsResetValue
  readoutDataO := mmsRowZero
  readDataBank _ := false
  writeBank _ := false
  updateWriteAddr _ := 0
  readoutAck _ := false

/-- `readout_ack_o` -/
def readoutAckO (s : MinMaxSumStore a) : Bool := s.readoutAck (Fin.last 5)

/-- One clock of `min_max_sum_store`. -/
def clock (s : MinMaxSumStore a) (bankSelect : Bool) (updateAddr : BitVec a) (updateData : MmsRow)
    (readoutStrobe : Bool) (readoutAddr : BitVec a) : MinMaxSumStore a where
  readAddr i := if i = bankSelect then updateAddr else readoutAddr
  updateDataO := (s.mem (s.readDataBank (Fin.last 4))).readDataO
  readoutDataO := (s.mem (!s.readDataBank (Fin.last 4))).readDataO
  writeStrobe i := if i = s.writeBank (Fin.last 7) then true else readoutStrobe
  writeAddr i := if i = s.writeBank (Fin.last 7) then s.updateWriteAddr (Fin.last 7) else readoutAddr
  writeData i := if i = s.writeBank (Fin.last 7) then updateData else mmsResetValue
  mem i := (s.mem i).clock (s.readAddr i) (s.writeStrobe i) (s.writeAddr i) (s.writeData i)
  readDataBank := dlyline s.readDataBank bankSelect
  writeBank := dlyline s.writeBank bankSelect
  updateWriteAddr := dlyline s.updateWriteAddr updateAddr
  readoutAck := dlyline s.readoutAck readoutStrobe

end MinMaxSumStore

/-! ### The memory at work -/

section run
variable {a : ℕ} {s : ℕ → MinMaxSumStore a} {bankSelect readoutStrobe : ℕ → Bool}
  {updateAddr readoutAddr : ℕ → BitVec a} {updateData : ℕ → MmsRow}

/-- A run of the store. -/
def MinMaxSumStore.IsRun (s : ℕ → MinMaxSumStore a) (bankSelect : ℕ → Bool)
    (updateAddr : ℕ → BitVec a) (updateData : ℕ → MmsRow) (readoutStrobe : ℕ → Bool)
    (readoutAddr : ℕ → BitVec a) : Prop :=
  ∀ t, s (t + 1) =
    (s t).clock (bankSelect t) (updateAddr t) (updateData t) (readoutStrobe t) (readoutAddr t)

/-- What is read from a bank, four clocks after its address. -/
theorem mem_readDataO (h : MinMaxSumStore.IsRun s bankSelect updateAddr updateData readoutStrobe
    readoutAddr) (i : Bool) (t : ℕ) :
    ((s (t + 4)).mem i).readDataO = ((s (t + 1)).mem i).memory ((s t).readAddr i) := by
  have hmem : ∀ t, (s (t + 1)).mem i = ((s t).mem i).clock ((s t).readAddr i)
      ((s t).writeStrobe i) ((s t).writeAddr i) ((s t).writeData i) := by
    intro t
    rw [h]
    rfl
  have haddr : ((s (t + 1)).mem i).readAddr = (s t).readAddr i := by
    rw [hmem]
    rfl
  rw [hmem, ← haddr]
  show ((s (t + 3)).mem i).readRow = _
  rw [hmem]
  show ((s (t + 2)).mem i).readData = _
  rw [hmem]
  rfl

/-- The bank that is read is the one that was selected then. -/
theorem readDataBank_delay (h : MinMaxSumStore.IsRun s bankSelect updateAddr updateData
    readoutStrobe readoutAddr) (t : ℕ) : (s (t + 5)).readDataBank (Fin.last 4) = bankSelect t := by
  refine dlyline_out (fun t => (s t).readDataBank) bankSelect (fun t => ?_) (Fin.last 4) t
  rw [h]
  rfl

theorem writeBank_delay (h : MinMaxSumStore.IsRun s bankSelect updateAddr updateData
    readoutStrobe readoutAddr) (t : ℕ) : (s (t + 8)).writeBank (Fin.last 7) = bankSelect t := by
  refine dlyline_out (fun t => (s t).writeBank) bankSelect (fun t => ?_) (Fin.last 7) t
  rw [h]
  rfl

theorem updateWriteAddr_delay (h : MinMaxSumStore.IsRun s bankSelect updateAddr updateData
    readoutStrobe readoutAddr) (t : ℕ) :
    (s (t + 8)).updateWriteAddr (Fin.last 7) = updateAddr t := by
  refine dlyline_out (fun t => (s t).updateWriteAddr) updateAddr (fun t => ?_) (Fin.last 7) t
  rw [h]
  rfl

theorem readoutAck_delay (h : MinMaxSumStore.IsRun s bankSelect updateAddr updateData
    readoutStrobe readoutAddr) (t : ℕ) : (s (t + 6)).readoutAckO = readoutStrobe t := by
  refine dlyline_out (fun t => (s t).readoutAck) readoutStrobe (fun t => ?_) (Fin.last 5) t
  rw [h]
  rfl

/-- The row to update comes six clocks after its address. -/
theorem store_updateDataO (h : MinMaxSumStore.IsRun s bankSelect updateAddr updateData
    readoutStrobe readoutAddr) (t : ℕ) : (s (t + 6)).updateDataO =
      ((s (t + 2)).mem (bankSelect t)).memory (updateAddr t) := by
  have haddr : (s (t + 1)).readAddr (bankSelect t) = updateAddr t := by
    rw [h]
    exact if_pos rfl
  have hout : (s (t + 6)).updateDataO =
      ((s (t + 5)).mem ((s (t + 5)).readDataBank (Fin.last 4))).readDataO := by
    rw [h]
    rfl
  rw [hout, readDataBank_delay h, mem_readDataO h _ (t + 1), haddr]

/-- So does the row that is read out. -/
theorem store_readoutDataO (h : MinMaxSumStore.IsRun s bankSelect updateAddr updateData
    readoutStrobe readoutAddr) (t : ℕ) : (s (t + 6)).readoutDataO =
      ((s (t + 2)).mem (!bankSelect t)).memory (readoutAddr t) := by
  have haddr : (s (t + 1)).readAddr (!bankSelect t) = readoutAddr t := by
    rw [h]
    exact if_neg (Bool.not_ne_self _)
  have hout : (s (t + 6)).readoutDataO =
      ((s (t + 5)).mem (!(s (t + 5)).readDataBank (Fin.last 4))).readDataO := by
    rw [h]
    rfl
  rw [hout, readDataBank_delay h, mem_readDataO h _ (t + 1), haddr]

/-- The memory is written eleven clocks after the address of the update. -/
theorem store_memory (h : MinMaxSumStore.IsRun s bankSelect updateAddr updateData
    readoutStrobe readoutAddr) (i : Bool) (t : ℕ) : ((s (t + 11)).mem i).memory =
      if bankSelect t = i then
        Function.update ((s (t + 10)).mem i).memory (updateAddr t) (updateData (t + 8))
      else DoubleBuffer.resetRow ((s (t + 10)).mem i).memory mmsResetValue
        (if readoutStrobe (t + 8) then some (readoutAddr (t + 8)) else none) := by
  have hmem : ∀ t, (s (t + 1)).mem i = ((s t).mem i).clock ((s t).readAddr i)
      ((s t).writeStrobe i) ((s t).writeAddr i) ((s t).writeData i) := by
    intro t
    rw [h]
    rfl
  have hstrobe : ((s (t + 10)).mem i).writeStrobe =
      if i = bankSelect t then true else readoutStrobe (t + 8) := by
    rw [hmem, ← writeBank_delay h t]
    show (s (t + 8 + 1)).writeStrobe i = _
    rw [h]
    rfl
  have haddr : ((s (t + 10)).mem i).writeAddr =
      if i = bankSelect t then updateAddr t else readoutAddr (t + 8) := by
    rw [hmem, ← writeBank_delay h t, ← updateWriteAddr_delay h t]
    show (s (t + 8 + 1)).writeAddr i = _
    rw [h]
    rfl
  have hrow : ((s (t + 10)).mem i).writeRow =
      if i = bankSelect t then updateData (t + 8) else mmsResetValue := by
    rw [hmem, ← writeBank_delay h t]
    show (s (t + 8 + 1)).writeData i = _
    rw [h]
    rfl
  have hmemory : ((s (t + 11)).mem i).memory =
      if ((s (t + 10)).mem i).writeStrobe then Function.update ((s (t + 10)).mem i).memory
        ((s (t + 10)).mem i).writeAddr ((s (t + 10)).mem i).writeRow
      else ((s (t + 10)).mem i).memory := by
    rw [hmem]
    rfl
  rw [hmemory, hstrobe, haddr, hrow]
  by_cases hbank : bankSelect t = i
  · rw [if_pos hbank.symm, if_pos hbank.symm, if_pos hbank.symm, if_pos hbank, if_pos rfl]
  · rw [if_neg (Ne.symm hbank), if_neg (Ne.symm hbank), if_neg (Ne.symm hbank), if_neg hbank]
    split_ifs <;> rfl

end run

end Mbf.Mms
