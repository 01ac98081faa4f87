import Mathlib.Data.Nat.Bitwise
import Mathlib.Algebra.Order.Group.Nat

/-! # The memory device of the driver

A read of the device passes through `read_dma_memory` of the driver, which has the DMA engine copy
whole units of 32 bytes from the memory of the board into the DMA buffer, and hands the bytes that
were asked for to the caller.  The engine copies what it is told to; the transfers it is given are
kept in a log. -/

namespace Mbf.Dma

abbrev Byte := BitVec 8

/-- Complement of a `size_t`. -/
def sizeNot (m : ℕ) : ℕ := 2 ^ 64 - 1 - m

/-- `DMA_ALIGNMENT`. -/
def dmaAlignment : ℕ := 32

/-- `MAX_DMA_TRANSFER`. -/
def maxDmaTransfer : ℕ := (2 ^ 23 - 1) &&& sizeNot (dmaAlignment - 1)

/-- `PAGE_SHIFT`. -/
def pageShift : ℕ := 12

/-- What the engine is told: its source address and the number of bytes. -/
structure Transfer where
  start : ℕ
  count : ℕ
  deriving DecidableEq

/-- `struct dma_control`, with the buffer that `initialise_dma_control` allocates. -/
structure DmaControl where
  bufferShift : ℕ
  shift_le : pageShift ≤ bufferShift
  buffer : List Byte
  transfers : List Transfer

/-- A region of the memory, as `mbf_dma_open` is given it.  The source address of the engine has 32
bits. -/
structure Region where
  base : ℕ
  length : ℕ
  base_aligned : dmaAlignment ∣ base
  length_aligned : dmaAlignment ∣ length
  addressable : base + length ≤ 2 ^ 32

/-- An open memory device. -/
structure File where
  dma : DmaControl
  pos : ℕ

/-- The failures of the calls of the device. -/
inductive Errno where
  | efault
  | einval
  deriving DecidableEq

def DmaControl.bufferSize (d : DmaControl) : ℕ := 2 ^ d.bufferShift

/-- The engine copies into the start of the buffer. -/
def DmaControl.transfer (mem : ℕ → Byte) (t : Transfer) (d : DmaControl) : DmaControl :=
  { d with
    buffer := ((List.range t.count).map fun k => mem (t.start + k)) ++ d.buffer.drop t.count
    transfers := d.transfers ++ [t] }

/-- `read_dma_memory` of the driver: where the data starts in the buffer, and how much there is. -/
def Driver.readDmaMemory (mem : ℕ → Byte) (start count : ℕ) (d : DmaControl) : ℕ × ℕ × DmaControl :=
  let alignMaskLow := dmaAlignment - 1
  let alignMaskHigh := sizeNot alignMaskLow
  let dmaStart := start &&& alignMaskHigh
  let startOffset := start &&& alignMaskLow
  let dmaCount := (startOffset + count + alignMaskLow) % 2 ^ 64 &&& alignMaskHigh
  let maxCount := if d.bufferSize < maxDmaTransfer then d.bufferSize else maxDmaTransfer
  if maxCount < dmaCount then
    (startOffset, maxCount - startOffset, d.transfer mem ⟨dmaStart % 2 ^ 32, maxCount⟩)
  else (startOffset, count, d.transfer mem ⟨dmaStart % 2 ^ 32, dmaCount⟩)

/-- `mbf_dma_read`: the value it returns, with the bytes copied to the caller. -/
def mbfDmaRead (mem : ℕ → Byte) (context : Region) (count : ℕ) (f : File) :
    Except Errno (ℕ × List Byte × File) :=
  let offset := f.pos
  if offset = context.length then .ok (0, [], f)
  else if context.length < offset then .error .efault
  else
    let count := if context.length - offset < count then context.length - offset else count
    let (startOffset, readCount, dma) := Driver.readDmaMemory mem (context.base + offset) count f.dma
    let bytes := (dma.buffer.drop startOffset).take readCount
    let pos := offset + readCount
    let pos := if pos = context.length then 0 else pos
    if readCount = 0 then .error .efault else .ok (readCount, bytes, ⟨dma, pos⟩)

/-- `mbf_dma_llseek` from the start of the device. -/
def mbfDmaLlseek (context : Region) (pos : ℕ) (f : File) : Except Errno File :=
  if pos ≤ context.length then .ok { f with pos } else .error .einval

/-! ### Alignment -/

theorem and_alignMaskLow (x : ℕ) : x &&& (dmaAlignment - 1) = x % dmaAlignment :=
  Nat.and_two_pow_sub_one_eq_mod x 5

theorem and_alignMaskHigh {x : ℕ} (hx : x < 2 ^ 64) :
    x &&& sizeNot (dmaAlignment - 1) = x / dmaAlignment * dmaAlignment := by
  have hmask : sizeNot (dmaAlignment - 1) = 2 ^ 5 * (2 ^ 59 - 1) := by decide
  have hdown : x / dmaAlignment * dmaAlignment = 2 ^ 5 * (x / 2 ^ 5) := Nat.mul_comm _ _
  rw [hmask, hdown]
  apply Nat.eq_of_testBit_eq
  intro k
  rw [Nat.testBit_and, Nat.testBit_two_pow_mul, Nat.testBit_two_pow_mul, Nat.testBit_two_pow_sub_one,
    Nat.testBit_div_two_pow]
  by_cases hk : 5 ≤ k
  · rw [decide_eq_true hk, Nat.sub_add_cancel hk]
    by_cases hlt : k < 64
    · have h59 : k - 5 < 59 := by omega
      simp [h59]
    · have hbit : x.testBit k = false := by
        apply Nat.testBit_lt_two_pow
        exact hx.trans_le (Nat.pow_le_pow_right (by decide) (by omega))
      simp [hbit]
  · simp [hk]

theorem maxDmaTransfer_eq : maxDmaTransfer = 32 * 262143 := by
  unfold maxDmaTransfer
  rw [and_alignMaskHigh (by decide)]
  rfl

/-- The size of the buffer is a multiple of the alignment, and no less than a page. -/
theorem DmaControl.bufferSize_eq (d : DmaControl) :
    ∃ n, d.bufferSize = dmaAlignment * n ∧ 128 ≤ n := by
  obtain ⟨k, hk⟩ := Nat.exists_eq_add_of_le d.shift_le
  refine ⟨2 ^ 7 * 2 ^ k, ?_, Nat.le_mul_of_pos_right _ (Nat.two_pow_pos k)⟩
  unfold bufferSize dmaAlignment
  rw [hk, ← mul_assoc, pow_add]
  rfl

/-! ### Reads -/

/-- A transfer that the engine can carry out, inside the region and the buffer. -/
structure Transfer.Sound (t : Transfer) (context : Region) (size : ℕ) : Prop where
  start_aligned : dmaAlignment ∣ t.start
  end_aligned : dmaAlignment ∣ t.start + t.count
  inside : context.base ≤ t.start ∧ t.start + t.count ≤ context.base + context.length
  buffer : t.count ≤ size
  engine : t.count < 2 ^ 23

theorem Transfer.Sound.of_units {context : Region} {size start count : ℕ} (hstart : start % 32 = 0)
    (hcount : count % 32 = 0) (hbase : context.base ≤ start)
    (hend : start + count ≤ context.base + context.length) (hsize : count ≤ size)
    (hmax : count ≤ 32 * 262143) : Transfer.Sound ⟨start, count⟩ context size := by
  have hsum : (start + count) % 32 = 0 := by omega
  have hengine : count < 2 ^ 23 := by omega
  exact ⟨Nat.dvd_of_mod_eq_zero hstart, Nat.dvd_of_mod_eq_zero hsum, ⟨hbase, hend⟩, hsize, hengine⟩

/-- The engine is asked for all the units that hold the bytes, or for the first of them. -/
theorem Driver.readDmaMemory_spec (mem : ℕ → Byte) (context : Region) {pos count : ℕ}
    (hcount : 0 < count) (hle : pos + count ≤ context.length) (d : DmaControl) :
    ∃ startOffset n t,
      readDmaMemory mem (context.base + pos) count d = (startOffset, n, d.transfer mem t) ∧
      t.Sound context d.bufferSize ∧ t.start + startOffset = context.base + pos ∧
      0 < n ∧ n ≤ count ∧ startOffset + n ≤ t.count := by
  obtain ⟨size, hsize, hpage⟩ := d.bufferSize_eq
  obtain ⟨b, hb⟩ := context.base_aligned
  obtain ⟨m, hm⟩ := context.length_aligned
  have haddress := context.addressable
  have hmax := maxDmaTransfer_eq
  generalize hstart : context.base + pos = start
  unfold Driver.readDmaMemory
  dsimp only
  rw [and_alignMaskLow, and_alignMaskHigh (x := start) (by omega)]
  rw [Nat.mod_eq_of_lt (a := start % dmaAlignment + count + (dmaAlignment - 1))
    (by unfold dmaAlignment; omega)]
  rw [and_alignMaskHigh (by unfold dmaAlignment; omega)]
  unfold dmaAlignment at *
  rw [Nat.mod_eq_of_lt (a := start / 32 * 32) (by omega)]
  generalize hlimit : (if d.bufferSize < maxDmaTransfer then d.bufferSize else maxDmaTransfer) =
    limit
  have hlimit' : limit ≤ d.bufferSize ∧ limit ≤ 32 * 262143 ∧ 32 ∣ limit ∧ 4096 ≤ limit := by
    split_ifs at hlimit <;> omega
  have hparts : start / 32 * 32 + start % 32 = start := by omega
  split_ifs with hlt
  · refine ⟨_, _, _, rfl, ?_, hparts, by omega, by omega, ?_⟩
    · apply Transfer.Sound.of_units <;> omega
    · change start % 32 + (limit - start % 32) ≤ limit
      omega
  · refine ⟨_, _, _, rfl, ?_, hparts, hcount, le_rfl, ?_⟩
    · apply Transfer.Sound.of_units <;> omega
    · change start % 32 + count ≤ (start % 32 + count + (32 - 1)) / 32 * 32
      omega

/-- The bytes of the region from `pos` on. -/
def Region.bytes (context : Region) (mem : ℕ → Byte) (pos n : ℕ) : List Byte :=
  (List.range n).map fun k => mem (context.base + (pos + k) % context.length)

/-- The bytes that a transfer has put into the buffer. -/
theorem transfer_bytes (mem : ℕ → Byte) {t : Transfer} (d : DmaControl) {startOffset n : ℕ}
    (h : startOffset + n ≤ t.count) :
    ((d.transfer mem t).buffer.drop startOffset).take n =
      (List.range n).map fun k => mem (t.start + startOffset + k) := by
  unfold DmaControl.transfer
  dsimp only
  apply List.ext_getElem?
  intro k
  rw [List.getElem?_take, List.getElem?_drop, List.getElem?_map]
  split_ifs with hk
  · have hlt : startOffset + k < t.count := by omega
    rw [List.getElem?_append_left (by simpa using hlt), List.getElem?_map,
      List.getElem?_range hlt, List.getElem?_range hk]
    simp [Nat.add_assoc]
  · rw [List.getElem?_eq_none (by simpa using hk)]
    rfl

/-- A file in a state that its calls leave it in. -/
structure File.Sound (f : File) (context : Region) : Prop where
  buffer : f.dma.buffer.length = f.dma.bufferSize
  pos : f.pos < context.length

/-- A read from inside the region returns the bytes from there on, at least one of them, and leaves
the file where they end. -/
theorem mbfDmaRead_spec (mem : ℕ → Byte) {context : Region} {f : File} (hf : f.Sound context)
    {count : ℕ} (hcount : 0 < count) :
    ∃ n f' t, mbfDmaRead mem context count f = .ok (n, context.bytes mem f.pos n, f') ∧
      0 < n ∧ n ≤ count ∧ f'.Sound context ∧ f'.pos = (f.pos + n) % context.length ∧
      f'.dma.bufferShift = f.dma.bufferShift ∧ f'.dma.transfers = f.dma.transfers ++ [t] ∧
      t.Sound context f.dma.bufferSize := by
  have hpos := hf.pos
  generalize hclip : (if context.length - f.pos < count then context.length - f.pos else count) =
    clipped
  have hclipped : 0 < clipped ∧ clipped ≤ count ∧ f.pos + clipped ≤ context.length := by
    split_ifs at hclip <;> omega
  obtain ⟨startOffset, n, t, hread, ht, hstart, hn, hle, hinside⟩ :=
    Driver.readDmaMemory_spec mem context hclipped.1 hclipped.2.2 f.dma
  have hbytes : ((f.dma.transfer mem t).buffer.drop startOffset).take n =
      context.bytes mem f.pos n := by
    rw [transfer_bytes mem f.dma hinside, hstart]
    unfold Region.bytes
    apply List.map_congr_left
    intro k hk
    rw [List.mem_range] at hk
    rw [Nat.mod_eq_of_lt (by omega), Nat.add_assoc]
  have hnext : (if f.pos + n = context.length then 0 else f.pos + n) =
      (f.pos + n) % context.length := by
    split_ifs with hend
    · rw [hend, Nat.mod_self]
    · rw [Nat.mod_eq_of_lt (by omega)]
  refine ⟨n, ⟨f.dma.transfer mem t, (f.pos + n) % context.length⟩, t, ?_, hn, by omega,
    ⟨?_, Nat.mod_lt _ (by omega)⟩, rfl, rfl, rfl, ht⟩
  · unfold mbfDmaRead
    rw [if_neg (by omega), if_neg (by omega), hclip]
    dsimp only
    rw [hread]
    dsimp only
    rw [if_neg (by omega), hbytes, hnext]
  · have hsize := ht.buffer
    rw [← hf.buffer] at hsize
    change (List.map _ _ ++ List.drop _ _).length = f.dma.bufferSize
    rw [List.length_append, List.length_map, List.length_range, List.length_drop, ← hf.buffer]
    omega

end Mbf.Dma
