import Mbf.Lib.Runs
import Mbf.TunePll.Control

/-! # Starting and stopping the Tune PLL

The start and stop commands and the stop events of `tune_pll.c`, over the firmware of one axis.  The
commands of EPICS and the thread of `events.c` run at the same time: a step is one clock of the
firmware, one access to a register, to `pll->status` or to the FIFO (under its mutex), or one
hand-over of an event; all the steps interleave freely.

A command is a write to a register, which is a pulse on one clock of the firmware.  The stop event
is bit 2 of the interrupts of the Tune PLL, `not enable_feedback`, of which the interrupt controller
latches the rising edge; `mbf_isr` hands it on to the events of the driver, from where the thread
takes it.

The interlock of the status is the handshake of EPICS: `interlock_wait` returns once EPICS has
processed what the last `interlock_signal` announced, to one caller for each signal. -/

namespace Mbf.TunePll

/-! ### State -/

/-- The feedback has been started and has not begun to stop. -/
def RunState.isLive : RunState → Bool
  | .starting => true
  | .running => true
  | .idle => false
  | .stopping => false

/-- Who calls `update_pll_status`. -/
inductive Client where
  | handler
  | start (k : ℕ)
  deriving DecidableEq

/-- `update_status`. -/
inductive Interlock where
  | free
  /-- A client is between `interlock_wait` and `interlock_signal`. -/
  | held (client : Client)
  /-- EPICS has been told to process the status. -/
  | processing
  deriving DecidableEq

/-- Where a start command stands. -/
inductive StartStage where
  /-- `hw_write_pll_start` has returned. -/
  | written
  /-- `hw_read_pll_status` has returned. -/
  | reading
  /-- `update_pll_status` has returned. -/
  | updated
  | done
  deriving DecidableEq

/-- Where the thread of events stands. -/
inductive HandlerStage where
  /-- In `hw_read_interrupt_events`. -/
  | waiting
  /-- It has taken a stop event. -/
  | taken
  | reading
  | updated
  /-- `handle_pll_stop` has found the feedback not running. -/
  | disabling
  deriving DecidableEq

/-- The firmware, the event on its way, and the part of `struct pll_context` that the start and stop
handlers use. -/
structure Loop where
  firmware : Control
  /-- The bit in the interrupt controller. -/
  latched : Bool
  /-- The bit in the events of the driver. -/
  event : Bool
  initialised : Bool
  interlock : Interlock
  /-- `pll->status`. -/
  status : PllStatus
  /-- The record `STATUS`. -/
  published : Bool
  /-- `pll->offset_fifo->enabled`. -/
  fifoEnabled : Bool
  starts : List StartStage
  handler : HandlerStage

/-! ### Steps -/

/-- A stop reason is shown. -/
def PllStatus.isStopped (status : PllStatus) : Bool :=
  status.stopped || status.overflow || status.tooSmall || status.badOffset

namespace Loop

/-- A clock of the firmware. -/
def clock (i : ControlInput) (s : Loop) : Loop :=
  let firmware := s.firmware.clock i
  { s with
    firmware := firmware
    latched := s.latched || (s.firmware.dsp.enable && !firmware.dsp.enable) }

/-- `interlock_wait` and `hw_read_pll_status`. -/
def beginUpdate (client : Client) (s : Loop) : Option Loop :=
  if s.interlock = .free then
    some { s with interlock := .held client, status := hwReadPllStatus s.firmware }
  else none

/-- The rest of `update_pll_status`. -/
def endUpdate (s : Loop) : Loop :=
  { s with
    interlock := .processing
    status := { s.status with running := !s.status.isStopped } }

def setStart (k : ℕ) (stage : StartStage) (s : Loop) : Loop :=
  { s with starts := s.starts.set k stage }

/-- The next step of start command `k`, `handle_pll_start`. -/
def proceed (k : ℕ) (s : Loop) : Option Loop :=
  match s.starts[k]? with
  | some .written => (s.setStart k .reading).beginUpdate (.start k)
  | some .reading => some (s.setStart k .updated).endUpdate
  | some .updated => some { s.setStart k .done with fifoEnabled := true }
  | some .done => none
  | none => none

/-- The next step of the thread of events, `handle_pll_stop`. -/
def handle (s : Loop) : Option Loop :=
  match s.handler with
  | .waiting => if s.event then some { s with event := false, handler := .taken } else none
  | .taken => { s with handler := .reading }.beginUpdate .handler
  | .reading => some { s with handler := .updated }.endUpdate
  | .updated =>
      if s.status.running then some { s with handler := .waiting }
      else some { s with handler := .disabling }
  | .disabling => some { s with handler := .waiting, fifoEnabled := false }

end Loop

/-- What happens next.  The inputs of a clock are free but for the pulses of the commands. -/
inductive Act where
  /-- `initialise_tune_pll`, which stops the feedback. -/
  | initialise (i : ControlInput)
  | clock (i : ControlInput)
  /-- `hw_write_pll_start`. -/
  | start (i : ControlInput)
  /-- The stop command, `hw_write_pll_stop`. -/
  | stop (i : ControlInput)
  | proceed (k : ℕ)
  /-- `mbf_isr`. -/
  | interrupt
  | handle
  /-- EPICS processes the status. -/
  | publish

/-- The inputs of the firmware with the pulses of the commands. -/
def Act.input : Act → Option ControlInput
  | .initialise i => some { i with start := false, stop := true }
  | .clock i => some { i with start := false, stop := false }
  | .start i => some { i with start := true, stop := false }
  | .stop i => some { i with start := false, stop := true }
  | _ => none

/-- The start command that goes on. -/
def Act.command : Act → Option ℕ
  | .proceed k => some k
  | _ => none

/-- The thread of events goes on. -/
def Act.isHandle : Act → Bool
  | .handle => true
  | _ => false

def Loop.step (s : Loop) (a : Act) : Option Loop :=
  match a with
  | .initialise i =>
      if s.initialised then none
      else some { s.clock { i with start := false, stop := true } with initialised := true }
  | .clock i =>
      if s.initialised then some (s.clock { i with start := false, stop := false }) else none
  | .start i =>
      if s.initialised then
        some { s.clock { i with start := true, stop := false } with
          starts := s.starts ++ [.written] }
      else none
  | .stop i =>
      if s.initialised then some (s.clock { i with start := false, stop := true }) else none
  | .proceed k => s.proceed k
  | .interrupt => if s.latched then some { s with latched := false, event := true } else none
  | .handle => if s.initialised then s.handle else none
  | .publish =>
      if s.interlock = .processing then
        some { s with interlock := .free, published := s.status.running }
      else none

/-- The state when the software comes up: the firmware may have been running since its power up, and
a stop event may have been left behind. -/
def Loop.initial (firmware : Control) (latched event : Bool) : Loop where
  firmware := firmware
  latched := latched
  event := event
  initialised := false
  interlock := .free
  status := ⟨false, false, false, false, false⟩
  published := false
  fifoEnabled := false
  starts := []
  handler := .waiting

/-- The software and the firmware of one axis. -/
def loopMachine : Runs.Machine Loop Act Unit where
  init s := ∃ i n latched event, s = .initial (controlRun i n) latched event
  step s a := (s.step a).map (·, ())

/-! ### Agreement -/

namespace Loop

/-- The firmware is in its idle state or in its running state, with its output set. -/
def IsSettled (s : Loop) : Prop :=
  s.firmware.dsp.runState = .idle ∧ s.firmware.dsp.enable = false ∨
    s.firmware.dsp.runState = .running ∧ s.firmware.dsp.enable = true

/-- No command is in progress and no stop event is pending. -/
structure Quiescent (s : Loop) : Prop where
  initialised : s.initialised = true
  starts : ∀ stage ∈ s.starts, stage = .done
  handler : s.handler = .waiting
  latched : s.latched = false
  event : s.event = false
  interlock : s.interlock = .free
  settled : s.IsSettled

/-- Where all is quiet, the FIFO is enabled and the status says running exactly if the feedback is
enabled. -/
def Agrees (s : Loop) : Prop :=
  s.Quiescent → (s.fifoEnabled = true ↔ s.firmware.dsp.enable = true) ∧
    (s.published = true ↔ s.firmware.dsp.enable = true)

/-- The feedback has been started and has not begun to stop. -/
def live (s : Loop) : Bool := s.firmware.dsp.runState.isLive

/-- A stop event is due: not yet raised, under way, or not yet acted upon. -/
def EventDue (s : Loop) : Prop :=
  s.firmware.dsp.enable = true ∧ s.live = false ∨ s.latched = true ∨ s.event = true ∨
    s.handler = .taken

instance (s : Loop) : Decidable s.EventDue := inferInstanceAs (Decidable (_ ∨ _))

/-- What the last `update_pll_status` that has read the registers finds. -/
def verdict (s : Loop) : Bool :=
  match s.interlock with
  | .held _ => !s.status.isStopped
  | .free => s.status.running
  | .processing => s.status.running

/-- The thread of events is going to disable the FIFO, unless the feedback is started again. -/
def DisableDue (s : Loop) : Prop :=
  s.EventDue ∨ (s.handler = .reading ∨ s.handler = .updated) ∧ s.verdict = false ∨
    s.handler = .disabling

instance (s : Loop) : Decidable s.DisableDue := inferInstanceAs (Decidable (_ ∨ _))

end Loop

/-- The condition on the steps: no stop condition arises while the feedback is starting; a start
command enables the FIFO only while the feedback is live or the FIFO is going to be disabled; a stop
event disables the FIFO of a live feedback only if a start command is going to enable it; and no
stop event is acted upon before the first start since the power up. -/
structure Orderly (s : Loop) (a : Act) : Prop where
  starting : ∀ i ∈ a.input, s.firmware.dsp.runState = .starting → i.stopping = false
  enable : ∀ k ∈ a.command, s.starts[k]? = some .updated → s.live = true ∨ s.DisableDue
  disable : a.isHandle = true → s.handler = .disabling → s.live = true →
    ∃ stage ∈ s.starts, stage ≠ .done
  started : a.isHandle = true → s.handler = .taken → s.firmware.dsp.runState = .idle →
    s.firmware.dsp.reason.any = true

end Mbf.TunePll
