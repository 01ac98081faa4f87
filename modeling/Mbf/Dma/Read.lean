import Mbf.Detector.Addresses
import Mbf.Dma.Driver
import Mbf.Memory.Correct

/-! # Reading the memory device

`read_dma_memory` of the control program seeks and then reads until its request is satisfied.  A
read of the device may return less than was asked for: at the end of the region, where the position
wraps to its start, at the size of the DMA buffer or of the engine's count, and at whatever limit
`read` itself has.  Together the reads return every byte of the request once and in order, around
the end of the region as often as it takes. -/

namespace Mbf.Dma

/-- The errors that `read_dma_memory` reports. -/
inductive ReadError where
  | io (e : Errno)
  /-- "Unexpected end of file". -/
  | unexpectedEnd
  deriving DecidableEq

namespace Hardware

/-- The loop of `read_dma_memory`; a call of `read` passes on a count of at most `most`. -/
def readLoop (mem : ℕ → Byte) (context : Region) (most : ℕ) :
    ℕ → ℕ → File → Option (Except ReadError (List Byte × File))
  | _, 0, f => some (.ok ([], f))
  | 0, _ + 1, _ => none
  | fuel + 1, request + 1, f =>
      match mbfDmaRead mem context (min (request + 1) most) f with
      | .error e => some (.error (.io e))
      | .ok (readSize, bytes, f) =>
          if 0 < readSize then
            (readLoop mem context most fuel (request + 1 - readSize) f).map fun rest =>
              rest.map fun (more, f) => (bytes ++ more, f)
          else some (.error .unexpectedEnd)

/-- `read_dma_memory` of the control program. -/
def readDmaMemory (mem : ℕ → Byte) (context : Region) (most fuel seekOffset readRequest : ℕ)
    (f : File) : Option (Except ReadError (List Byte × File)) :=
  match mbfDmaLlseek context seekOffset f with
  | .error e => some (.error (.io e))
  | .ok f => readLoop mem context most fuel readRequest f

end Hardware

/-- Bytes read around the end of the region go on from its start. -/
theorem Region.bytes_append (context : Region) (mem : ℕ → Byte) (pos n m : ℕ) :
    context.bytes mem pos n ++ context.bytes mem ((pos + n) % context.length) m =
      context.bytes mem pos (n + m) := by
  unfold bytes
  rw [List.range_add, List.map_append, List.map_map]
  congr 1
  apply List.map_congr_left
  intro k _
  dsimp only [Function.comp]
  rw [Nat.mod_add_mod, Nat.add_assoc]

/-- Every read makes progress, so as many as there are bytes are enough. -/
theorem readLoop_spec (mem : ℕ → Byte) (context : Region) {most : ℕ} (hmost : 0 < most) :
    ∀ (fuel request : ℕ) (f : File), request ≤ fuel → f.Sound context →
      ∃ f' ts, Hardware.readLoop mem context most fuel request f =
          some (.ok (context.bytes mem f.pos request, f')) ∧
        f'.dma.transfers = f.dma.transfers ++ ts ∧
        ∀ t ∈ ts, t.Sound context f.dma.bufferSize := by
  intro fuel
  induction fuel with
  | zero =>
      intro request f hfuel _
      obtain rfl : request = 0 := by omega
      exact ⟨f, [], rfl, by simp, by simp⟩
  | succ fuel ih =>
      intro request f hfuel hf
      cases request with
      | zero => exact ⟨f, [], rfl, by simp, by simp⟩
      | succ request =>
          have hcount : 0 < min (request + 1) most := by omega
          obtain ⟨n, f₁, t, hread, hn, hle, hf₁, hpos, hshift, hlog, ht⟩ :=
            mbfDmaRead_spec mem hf hcount
          have hleft : request + 1 - n ≤ fuel := by omega
          obtain ⟨f₂, ts, hrest, hlog', hts⟩ := ih (request + 1 - n) f₁ hleft hf₁
          refine ⟨f₂, t :: ts, ?_, ?_, ?_⟩
          · have hall := context.bytes_append mem f.pos n (request + 1 - n)
            rw [show n + (request + 1 - n) = request + 1 by omega] at hall
            rw [Hardware.readLoop, hread, ← hall]
            dsimp only
            rw [if_pos hn, hrest, hpos]
            rfl
          · rw [hlog', hlog, List.append_assoc]
            rfl
          · intro u hu
            rcases List.mem_cons.mp hu with rfl | hu
            · exact ht
            · have hsize : f₁.dma.bufferSize = f.dma.bufferSize := by
                unfold DmaControl.bufferSize
                rw [hshift]
              rw [← hsize]
              exact hts u hu

/-- A read of the memory device returns the bytes of the region from the offset on, and wraps at
its end.  It ends after at most as many reads as there are bytes, and every transfer that it makes
is one that the engine can carry out. -/
theorem dma_read_correct (mem : ℕ → Byte) (context : Region) {most : ℕ} (hmost : 0 < most)
    {f : File} (hbuffer : f.dma.buffer.length = f.dma.bufferSize) {offset : ℕ}
    (hoffset : offset < context.length) {request fuel : ℕ} (hfuel : request ≤ fuel) :
    ∃ f' ts, Hardware.readDmaMemory mem context most fuel offset request f =
        some (.ok ((List.range request).map fun i =>
          mem (context.base + (offset + i) % context.length), f')) ∧
      f'.dma.transfers = f.dma.transfers ++ ts ∧
      ∀ t ∈ ts, t.Sound context f.dma.bufferSize := by
  have hseek : mbfDmaLlseek context offset f = .ok { f with pos := offset } := if_pos hoffset.le
  unfold Hardware.readDmaMemory
  rw [hseek]
  exact readLoop_spec mem context hmost fuel request _ hfuel ⟨hbuffer, hoffset⟩

/-- A region of two units that starts at the third unit of the memory. -/
def smallRegion : Region := ⟨64, 64, by decide, by decide, by decide⟩

/-- A device whose buffer holds a page. -/
def smallFile : File := ⟨⟨12, le_rfl, List.replicate 4096 0, []⟩, 0⟩

/-- Seventy bytes from the offset 50 on. -/
theorem dma_read_correct_wrap :
    ∃ f' ts, Hardware.readDmaMemory (fun a => BitVec.ofNat 8 a) smallRegion 1000 70 50 70 smallFile =
        some (.ok ((List.range 70).map fun i => BitVec.ofNat 8 (64 + (50 + i) % 64), f')) ∧
      f'.dma.transfers = [] ++ ts ∧ ∀ t ∈ ts, t.Sound smallRegion 4096 :=
  dma_read_correct _ smallRegion (by decide) List.length_replicate (by decide) le_rfl

/-! ### The memory of the readout -/

section readout

open Memory

/-- `DDR0_BASE` and `DDR0_LENGTH`, with which `MINOR_DDR0` is opened. -/
def ddr0 : Region := ⟨0, dram0Length, by decide, by decide, by decide⟩

/-- The bytes of a little endian word. -/
def wordBytes (w : Word) : List Byte :=
  [w.extractLsb' 0 8, w.extractLsb' 8 8, w.extractLsb' 16 8, w.extractLsb' 24 8]

theorem wordBytes_word (m : Capture) (a : ℤ) :
    wordBytes (m.word a) = [m.byte a, m.byte (a + 1), m.byte (a + 2), m.byte (a + 3)] := by
  unfold wordBytes Capture.word
  generalize m.byte (a + 3) = b₃
  generalize m.byte (a + 2) = b₂
  generalize m.byte (a + 1) = b₁
  generalize m.byte a = b₀
  simp only [List.cons.injEq, and_true]
  refine ⟨?_, ?_, ?_, ?_⟩
  all_goals
    apply BitVec.eq_of_getLsbD_eq
    grind

/-- What `hw_read_dram_memory` is taken to return is what the device returns for its request. -/
theorem hwReadDramMemory_bytes (m : Capture) {most : ℕ} (hmost : 0 < most) {f : File}
    (hbuffer : f.dma.buffer.length = f.dma.bufferSize) {capacity offset samples : ℕ}
    (hcapacity : samples ≤ capacity) :
    ∃ f' words, Hardware.readDmaMemory (fun a => m.byte a) ddr0 most (samples * 4)
        (offset &&& (dram0Length - 1)) (samples * 4) f = some (.ok (words.flatMap wordBytes, f')) ∧
      m.hwReadDramMemory capacity offset samples = some words := by
  have hmask : offset &&& (dram0Length - 1) = offset % dram0Length :=
    Nat.and_two_pow_sub_one_eq_mod offset 31
  have hoffset : offset &&& (dram0Length - 1) < ddr0.length := by
    rw [hmask]
    exact Nat.mod_lt _ (by decide)
  obtain ⟨f', ts, hread, -, -⟩ := dma_read_correct (fun a => m.byte a) ddr0 hmost hbuffer hoffset
    (le_refl (samples * 4))
  refine ⟨f', _, ?_, if_pos hcapacity⟩
  rw [hread, List.flatMap_map, List.map_eq_flatMap, Passes.range_mul_flatMap]
  congr 4
  funext i
  rw [wordBytes_word]
  generalize offset &&& (dram0Length - 1) = start
  have hbyte : ∀ k : ℕ, m.byte ((0 + (start + (i * 4 + k)) % dram0Length : ℕ) : ℤ) =
      m.byte ((start + 4 * i : ℕ) + (k : ℤ)) := by
    intro k
    apply m.byte_congr
    push_cast
    rw [zero_add]
    have heq : (start : ℤ) + (i * 4 + k) = start + 4 * i + k := by ring
    rw [heq]
    exact Int.mod_modEq _ _
  simpa [List.range_succ, ddr0] using
    And.intro (hbyte 0) (And.intro (hbyte 1) (And.intro (hbyte 2) (hbyte 3)))

end readout

/-! ### The memory of the detectors -/

section detectors

open Detector

/-- `DDR1_BASE` and `DDR1_LENGTH`, with which `MINOR_DDR1` is opened. -/
def ddr1 : Region := ⟨0x80000000, dram1Length, by decide, by decide, by decide⟩

/-- What `hw_read_det_memory` reads inside the half of its axis is what is there. -/
theorem hwReadDetMemory_bytes (mem : ℕ → Byte) {most : ℕ} (hmost : 0 < most) {f : File}
    (hbuffer : f.dma.buffer.length = f.dma.bufferSize) {axis : Fin 2} {r : DmaRead}
    (hinside : r.Inside axis) (hsome : 0 < r.readRequest) :
    ∃ f', Hardware.readDmaMemory mem ddr1 most r.readRequest r.seekOffset r.readRequest f =
      some (.ok ((List.range r.readRequest).map fun i =>
        mem (ddr1.base + (r.seekOffset + i)), f')) := by
  have hend : r.seekOffset + r.readRequest ≤ ddr1.length := by
    refine hinside.2.trans ?_
    have haxis : axis.val + 1 ≤ 2 := axis.isLt
    exact (Nat.mul_le_mul_right _ haxis).trans_eq (by decide)
  obtain ⟨f', ts, hread, -, -⟩ := dma_read_correct mem ddr1 hmost hbuffer
    (show r.seekOffset < ddr1.length by omega) (le_refl r.readRequest)
  refine ⟨f', hread.trans ?_⟩
  congr 3
  refine List.map_congr_left fun i hi => ?_
  -- no read inside the region wraps
  rw [Nat.mod_eq_of_lt (by have := List.mem_range.mp hi; omega)]

end detectors

end Mbf.Dma
