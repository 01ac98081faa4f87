import Mbf.Lib.Buffers
import Mbf.Lib.Clocked
import Mbf.Detector.Context

/-! # From the detectors to the memory

The clocked part of `detector_top` from the results of the detectors to the memory interface.  The
four detectors run in step: a write puts a sample into the output register of each of them
(`detector_body`), from where `detector_output` offers it to a chain of buffers (`memory_buffer`),
and `detector_dram_output` takes one sample of each chain in turn and sends those of the enabled
detectors on.

`detector_output` reports an underrun if a write finds the sample before it still waiting. -/

namespace Mbf.Detector

/-- The word that a detector writes: its cosine and its sine. -/
abbrev Sample := BitVec 64

/-- The addresses of an axis, `DRAM1_ADDR_RANGE`. -/
abbrev DramAddress := BitVec 23

/-! ### One detector -/

/-- The output of a detector with its buffers. -/
structure OutputChannel where
  /-- `iq_out` of `detector_body`. -/
  iqOut : Sample
  /-- `det_write_out` of `detector_body`. -/
  detWriteOut : Bool
  /-- The registers of `detector_output`. -/
  outputValid : Bool
  outputUnderrun : Bool
  /-- The stages of `memory_buffer`. -/
  stages : List (Option Sample)
deriving DecidableEq

namespace OutputChannel

/-- What `detector_output` offers. -/
def offered (c : OutputChannel) : Option Sample := if c.outputValid then some c.iqOut else none

/-- What is offered to `detector_dram_output`. -/
def out (c : OutputChannel) : Option Sample := Buffers.chainOut c.offered c.stages

/-- A clock on which the detector writes a sample, or does not. -/
def clock (write : Option Sample) (ready : Bool) (c : OutputChannel) : OutputChannel where
  iqOut := write.getD c.iqOut
  detWriteOut := write.isSome
  outputValid :=
    if c.outputValid then !Buffers.chainReady ready c.stages
    else c.detWriteOut
  outputUnderrun := c.outputValid && c.detWriteOut
  stages := Buffers.chain c.offered ready c.stages

/-- The samples on their way through a channel, the oldest first. -/
def waiting (c : OutputChannel) : List Sample :=
  Buffers.queue c.offered c.stages ++ if c.detWriteOut && !c.outputValid then [c.iqOut] else []

/-- A write has not found the sample before it still waiting. -/
def Kept (c : OutputChannel) : Prop := (c.outputValid && c.detWriteOut) = false

/-- A clock adds the sample that is written, and takes the oldest if it is taken. -/
theorem clock_waiting {write : Option Sample} {ready : Bool} {c : OutputChannel} (h : c.Kept)
    (h' : (c.clock write ready).Kept) :
    (c.clock write ready).waiting =
      (if ready && c.out.isSome then c.waiting.tail else c.waiting) ++ write.toList := by
  have hchain := Buffers.queue_chain c.offered ready c.stages
  obtain ⟨iqOut, detWriteOut, outputValid, outputUnderrun, stages⟩ := c
  unfold Kept at h h'
  unfold waiting out
  cases outputValid with
  | true =>
      have hwrite : detWriteOut = false := by simpa using h
      subst hwrite
      cases hready : Buffers.chainReady ready stages with
      | true =>
          simp only [hready, if_true, offered, Option.toList_some, List.append_nil] at hchain
          cases write <;> simp [clock, offered, hready, Buffers.queue, hchain]
      | false =>
          have hnone : write = none := by simpa [clock, hready] using h'
          subst hnone
          simp only [hready, Bool.false_eq_true, if_false, offered, if_true,
            Option.toList_some] at hchain
          simp [clock, offered, hready, Buffers.queue] at hchain ⊢
          exact hchain
  | false =>
      cases detWriteOut with
      | true =>
          have hnone : write = none := by
            cases write with
            | none => rfl
            | some x => simp [clock] at h'
          subst hnone
          simp only [offered, Bool.false_eq_true, if_false, Option.toList_none, ite_self,
            List.append_nil] at hchain
          simp only [clock, offered, Buffers.queue, Bool.false_eq_true, if_false, Option.isSome_none,
            Bool.false_and, if_true, Option.toList_some, Option.toList_none, List.append_nil,
            Option.getD_none, Bool.not_false, Bool.and_self, hchain]
          split_ifs with hout
          · simp only [Bool.and_eq_true] at hout
            obtain ⟨x, hx⟩ := Option.isSome_iff_exists.mp hout.2
            obtain ⟨rest, hrest⟩ := Buffers.queue_of_chainOut hx
            simp only [Buffers.queue, Option.toList_none, List.append_nil] at hrest
            rw [hrest]
            rfl
          · rfl
      | false =>
          simp only [offered, Bool.false_eq_true, if_false, Option.toList_none, ite_self,
            List.append_nil] at hchain
          cases write <;> simp [clock, offered, Buffers.queue] at hchain ⊢ <;> exact hchain

/-- How many steps the samples in a channel have before them. -/
def travel (c : OutputChannel) : ℕ :=
  Buffers.travel c.offered c.stages +
    if c.detWriteOut && !c.outputValid then c.stages.length + 2 else 0

theorem clock_travel_le {ready : Bool} {c : OutputChannel} (h : c.Kept) :
    (c.clock none ready).travel ≤ c.travel := by
  have hle := Buffers.travel_chain_le c.offered ready c.stages
  obtain ⟨iqOut, detWriteOut, outputValid, outputUnderrun, stages⟩ := c
  unfold Kept at h
  unfold travel
  cases outputValid <;> cases detWriteOut <;> cases hready : Buffers.chainReady ready stages <;>
    simp [clock, offered, hready, Buffers.travel] at h hle ⊢ <;> omega

/-- A sample moves if one is taken, or none is offered. -/
theorem clock_travel_lt {ready : Bool} {c : OutputChannel} (h : c.Kept)
    (hmoves : ready = true ∧ c.out.isSome = true ∨ c.out = none ∧ c.waiting ≠ []) :
    (c.clock none ready).travel < c.travel := by
  have hle := Buffers.travel_chain_le c.offered ready c.stages
  have hlt := @Buffers.travel_chain_lt _ c.offered ready c.stages
  obtain ⟨iqOut, detWriteOut, outputValid, outputUnderrun, stages⟩ := c
  unfold Kept at h
  unfold waiting out at hmoves
  unfold travel
  cases outputValid with
  | true =>
      cases detWriteOut with
      | true => exact absurd h (by simp)
      | false =>
          have hchain := hlt (by simpa using hmoves)
          cases hready : Buffers.chainReady ready stages <;>
            simp [clock, offered, hready, Buffers.travel] at hchain ⊢ <;> omega
  | false =>
      cases detWriteOut with
      | true =>
          cases hready : Buffers.chainReady ready stages <;>
            simp [clock, offered, hready, Buffers.travel] at hle ⊢ <;> omega
      | false =>
          have hchain := hlt (by simpa using hmoves)
          cases hready : Buffers.chainReady ready stages <;>
            simp [clock, offered, hready, Buffers.travel] at hchain ⊢ <;> omega

/-- A channel without samples. -/
theorem idle_of_waiting {c : OutputChannel} (h : c.waiting = []) :
    c.detWriteOut = false ∧ c.outputValid = false ∧ ∀ stage ∈ c.stages, stage = none := by
  obtain ⟨iqOut, detWriteOut, outputValid, outputUnderrun, stages⟩ := c
  cases outputValid with
  | true => simp [waiting, offered, Buffers.queue] at h
  | false =>
      cases detWriteOut with
      | true => simp [waiting, offered] at h
      | false =>
          have hcontents : Buffers.contents stages = [] := by
            simpa [waiting, offered, Buffers.queue] using h
          exact ⟨rfl, rfl, Buffers.contents_eq_nil.mp hcontents⟩

theorem waiting_of_idle {c : OutputChannel} (hwrite : c.detWriteOut = false)
    (hvalid : c.outputValid = false) (hstages : ∀ stage ∈ c.stages, stage = none) :
    c.waiting = [] := by
  simp [waiting, offered, Buffers.queue, hwrite, hvalid, Buffers.contents_eq_nil.mpr hstages]

end OutputChannel

/-! ### All detectors -/

/-- The registers of `detector_dram_output`. -/
structure DramOutput where
  selection : DetectorId
  inputReadyOut : DetectorId → Bool
  outputBusy : Bool
  outputData : Sample
  outputAddr : DramAddress

/-- One clock of `detector_dram_output`. -/
def DramOutput.clock (addressReset : Bool) (enable : DetectorId → Bool)
    (input : DetectorId → Option Sample) (outputReadyIn : Bool) (d : DramOutput) : DramOutput :=
  let inputValid := (input d.selection).isSome
  let inputEnable := enable d.selection
  let emitOutput := inputValid && inputEnable
  let outputReady := !d.outputBusy || outputReadyIn
  let advanceInput := inputValid && (outputReady || !inputEnable)
  { selection :=
      if addressReset then 0
      else if advanceInput then
        if d.selection.val = 3 then 0 else d.selection + 1
      else d.selection
    inputReadyOut := fun n => advanceInput && d.selection = n
    outputBusy := emitOutput || d.outputBusy && !outputReadyIn
    outputData := if emitOutput && outputReady then (input d.selection).getD 0 else d.outputData
    outputAddr :=
      if addressReset then 0
      else if d.outputBusy && outputReadyIn then d.outputAddr + 1
      else d.outputAddr }

structure DetectorOutput where
  channels : DetectorId → OutputChannel
  dram : DramOutput

/-- The inputs of one clock. -/
structure OutputInput where
  addressReset : Bool
  /-- The results of the detectors, if there is a write. -/
  write : Option (DetectorId → Sample)
  /-- The memory takes what is offered to it. -/
  memReady : Bool

namespace DetectorOutput

def clock (enable : DetectorId → Bool) (i : OutputInput) (s : DetectorOutput) : DetectorOutput where
  channels d := (s.channels d).clock (i.write.map (· d)) (s.dram.inputReadyOut d)
  dram := s.dram.clock i.addressReset enable (fun d => (s.channels d).out) i.memReady

/-- What the memory takes on a clock. -/
def emitted (i : OutputInput) (s : DetectorOutput) : Option (DramAddress × Sample) :=
  if s.dram.outputBusy && i.memReady then some (s.dram.outputAddr, s.dram.outputData) else none

/-- Nothing is on its way. -/
structure Idle (s : DetectorOutput) : Prop where
  channels : ∀ d, (s.channels d).detWriteOut = false ∧ (s.channels d).outputValid = false ∧
    ∀ stage ∈ (s.channels d).stages, stage = none
  ready : ∀ d, s.dram.inputReadyOut d = false
  busy : s.dram.outputBusy = false

end DetectorOutput

/-! ### Runs -/

section runs
variable (enable : DetectorId → Bool) (s : DetectorOutput) (i : ℕ → OutputInput)

/-- The state before the clock `n`. -/
def outputRun : ℕ → DetectorOutput := Clocked.run (DetectorOutput.clock enable) s i

/-- The writes before the clock `n`. -/
def writesBefore (n : ℕ) : List (DetectorId → Sample) :=
  (List.range n).flatMap fun k => (i k).write.toList

/-- What the memory has taken before the clock `n`. -/
def takenBefore (n : ℕ) : List (DramAddress × Sample) :=
  (List.range n).flatMap fun k => ((outputRun enable s i k).emitted (i k)).toList

/-- No detector has reported an underrun before the clock `n`. -/
def NoUnderrun (n : ℕ) : Prop :=
  ∀ k ≤ n, ∀ d, ((outputRun enable s i k).channels d).outputUnderrun = false

/-- The state after an address reset of an idle output, with memory buffers of `length` stages. -/
structure Starts (length : ℕ) : Prop where
  idle : s.Idle
  underrun : ∀ d, (s.channels d).outputUnderrun = false
  stages : ∀ d, (s.channels d).stages.length = length
  selection : s.dram.selection = 0
  outputAddr : s.dram.outputAddr = 0
  /-- The address is not reset again. -/
  reset : ∀ k, (i k).addressReset = false

end runs

/-- The samples of a write that reach the memory: one of each enabled detector, in order. -/
def writtenSamples (enable : DetectorId → Bool) (w : DetectorId → Sample) : List Sample :=
  ((List.finRange 4).filter enable).map w

end Mbf.Detector
