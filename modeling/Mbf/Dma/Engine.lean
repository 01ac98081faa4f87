import Mbf.Lib.Runs
import Mbf.Lib.Tally
import Mathlib.Tactic.Common

/-! # The DMA engine and its clients

`dma_control.c` and the DMA part of `interrupts.c`, with the engine and the interrupt controller as
the driver sees them.  A step is one access to what is shared: one register of the engine or of the
interrupt controller, the mutex, the completion, or the buffer; the steps of different clients, of
the interrupt handler, of the engine and of the removal of the board interleave freely.

The transfers are numbered in the order in which they are started, and `outcomes` records what
became of each.  The engine writes to the buffer from the start of a transfer until the transfer
completes, fails, or is stopped by a reset, which takes effect at once.

The interrupt controller latches the interrupt on its rising edge, or (`level`) for as long as it
is raised; the design leaves the kind of the input to the generated controller, and so does the
model. -/

namespace Mbf.Dma

/-! ### State -/

/-- What the engine is doing. -/
inductive Activity where
  /-- `CDMASR_Idle`. -/
  | idle
  | transferring (t : ℕ)
  /-- One of the error bits of `CDMASR` is set. -/
  | halted
deriving DecidableEq, Repr

/-- What has become of a transfer. -/
inductive Outcome where
  | running
  | completed
  | failed
  /-- Stopped by a reset. -/
  | aborted
deriving DecidableEq, Repr

/-- Where `mbf_isr` stands with the interrupt of the engine. -/
inductive Handler where
  | none
  /-- It has read and acknowledged the interrupt. -/
  | acknowledged
  /-- `dma_interrupt` has read `CDMASR`, with its interrupt bits. -/
  | sampled (irq : Bool)
  /-- It has written `CDMASR` back. -/
  | cleared
deriving DecidableEq, Repr

/-- Where a read stands, from `read_dma_memory` to `release_dma_memory`. -/
inductive ReadStage where
  /-- Before `mutex_lock`. -/
  | entered
  | locked
  /-- `maybe_reset_dma` has found an error, or the engine not idle. -/
  | resetting
  /-- Before `reinit_completion`. -/
  | checked
  /-- The engine is set up for the transfer. -/
  | reinit
  /-- In `wait_for_completion_killable`. -/
  | waiting (t : ℕ)
  /-- `read_dma_memory` has returned the count. -/
  | returned (t : ℕ)
  /-- In `copy_to_user`. -/
  | copying (t : ℕ)
  | copied (t : ℕ)
  /-- The read has returned the count to the client. -/
  | released (t : ℕ)
  /-- The client was killed while it waited. -/
  | killed (t : ℕ)
deriving DecidableEq, Repr

namespace ReadStage

/-- The read is over. -/
def isOver : ReadStage → Bool
  | .released _ => true
  | .killed _ => true
  | _ => false

/-- The read has the mutex. -/
def isHolding : ReadStage → Bool
  | .entered => false
  | .released _ => false
  | .killed _ => false
  | _ => true

/-- The read is about to start its transfer. -/
def isStarting : ReadStage → Bool
  | .checked => true
  | .reinit => true
  | _ => false

end ReadStage

/-- How far the removal of the board has come. -/
inductive Removal where
  | live
  /-- `terminate_interrupt_control` has returned. -/
  | interruptsOff
  /-- `terminate_dma_control` has freed the buffer. -/
  | freed
deriving DecidableEq, Repr

/-- `struct dma_control`, the engine, the interrupt and the reads. -/
structure Control where
  activity : Activity
  /-- The interrupt bits of `CDMASR`. -/
  raised : Bool
  /-- The bit of the engine in the status of the interrupt controller. -/
  latched : Bool
  handler : Handler
  /-- `dma_done`: the number of `complete` calls not yet waited for. -/
  dmaDone : ℕ
  mutex : Option ℕ
  reads : List ReadStage
  outcomes : List Outcome
  removal : Removal
deriving DecidableEq, Repr

namespace Control

/-- `initialise_dma_control` and `initialise_interrupt_control` have returned. -/
def initial : Control := ⟨.idle, false, false, .none, 0, none, [], [], .live⟩

/-- The engine may write to the buffer. -/
def isWriting (s : Control) : Bool :=
  match s.activity with
  | .transferring _ => true
  | _ => false

def setStage (i : ℕ) (stage : ReadStage) (s : Control) : Control :=
  { s with reads := s.reads.set i stage }

/-- The current transfer, if there is one, ends. -/
def finish (outcome : Outcome) (s : Control) : List Outcome :=
  match s.activity with
  | .transferring t => s.outcomes.set t outcome
  | _ => s.outcomes

/-- The engine raises its interrupt. -/
def raiseInterrupt (level : Bool) (s : Control) : Control :=
  { s with raised := true, latched := s.latched || level || !s.raised }

/-- `reset_dma_controller`. -/
def resetDmaController (s : Control) : Control :=
  { s with activity := .idle, raised := false, outcomes := s.finish .aborted }

/-- The write to `btt`. -/
def start (s : Control) : Control :=
  { s with
    activity := .transferring s.outcomes.length
    outcomes := s.finish .aborted ++ [.running] }

end Control

/-! ### Steps -/

/-- The next step of read `i`. -/
def proceed (i : ℕ) (s : Control) : Option Control :=
  match s.reads[i]? with
  | none => none
  | some stage =>
      match stage with
      | .entered =>
          if s.mutex = none then some { s.setStage i .locked with mutex := some i } else none
      | .locked => some (s.setStage i (if s.activity = .idle then .checked else .resetting))
      | .resetting => some (s.resetDmaController.setStage i .checked)
      | .checked => some { s.setStage i .reinit with dmaDone := 0 }
      | .reinit => some (s.start.setStage i (.waiting s.outcomes.length))
      | .waiting t =>
          if 0 < s.dmaDone then some { s.setStage i (.returned t) with dmaDone := s.dmaDone - 1 }
          else none
      | .returned t => some (s.setStage i (.copying t))
      | .copying t => some (s.setStage i (.copied t))
      | .copied t => some { s.setStage i (.released t) with mutex := none }
      | .released _ => none
      | .killed _ => none

/-- The next step of `mbf_isr`. -/
def mbfIsr (level : Bool) (s : Control) : Option Control :=
  match s.handler with
  | .none =>
      if s.latched && s.removal = .live then
        some { s with latched := level && s.raised, handler := .acknowledged }
      else none
  | .acknowledged => some { s with handler := .sampled s.raised }
  | .sampled irq => some { s with raised := s.raised && !irq, handler := .cleared }
  | .cleared => some { s with dmaDone := s.dmaDone + 1, handler := .none }

/-- The next step of `terminate_board`, which is called when no file is open. -/
def terminate (s : Control) : Option Control :=
  match s.removal with
  | .live =>
      -- `free_irq` waits for the handler
      if s.reads.all ReadStage.isOver && s.handler = .none then
        some { s with removal := .interruptsOff }
      else none
  | .interruptsOff => some { s with removal := .freed }
  | .freed => none

/-- What happens next. -/
inductive Event where
  /-- A client calls `read_dma_memory`. -/
  | enter
  | proceed (i : ℕ)
  /-- The client of a read is killed. -/
  | kill (i : ℕ)
  /-- The transfer completes. -/
  | complete
  /-- The transfer fails. -/
  | fail
  | interrupt
  | terminate
deriving DecidableEq, Repr

def step (level : Bool) (s : Control) : Event → Option Control
  | .enter =>
      if s.removal = .live then some { s with reads := s.reads ++ [.entered] } else none
  | .proceed i => Mbf.Dma.proceed i s
  | .kill i =>
      match s.reads[i]? with
      | some (.waiting t) =>
          if s.dmaDone = 0 then some { s.setStage i (.killed t) with mutex := none } else none
      | _ => none
  | .complete =>
      if s.isWriting then
        some ({ s with activity := .idle, outcomes := s.finish .completed }.raiseInterrupt level)
      else none
  | .fail =>
      if s.isWriting then
        some ({ s with activity := .halted, outcomes := s.finish .failed }.raiseInterrupt level)
      else none
  | .interrupt => mbfIsr level s
  | .terminate => Mbf.Dma.terminate s

/-- The engine, the driver and its clients. -/
def engineMachine (level : Bool) : Runs.Machine Control Event Unit where
  init s := s = .initial
  step s a := (step level s a).map (·, ())

end Mbf.Dma
