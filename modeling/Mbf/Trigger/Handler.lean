import Mbf.Trigger.Target
import Mbf.Util

/-! # The hardware behind a trigger target

The trigger handler of `trigger_handler.vhd`, one clock at a time, and behind it the engine that
the trigger starts: the sequencer, busy from its trigger to the end of its program, or the memory
capture of `fast_memory_control.vhd`.  Triggers reach the handler after the selection of sources
and the blanking, so `trigger` is set in a clock where an enabled and unblanked source fires.

An engine leaves only two traces for the software: an interrupt when its trigger is sent, and
one when it is done.  The interrupt bits are latched until the driver reads them, and two
interrupts of one kind seen before that are read as one.

A trigger that the handler has sent is on its way for some clocks, in which the handler is idle
already and the engine still is (`Port.line`).  It starts the engine and is latched in one clock:
the interrupt line is longer, but its latch is read at any time after.  The time an engine takes is
left out: `Port.finish` ends its run. -/

namespace Mbf.Trigger

/-! ### The trigger handler -/

/-- `trig_state_t`. -/
inductive TrigState where
  | idle
  | armed
  | triggered
deriving DecidableEq, Repr

structure Handler where
  trigState : TrigState
  /-- Turns left to the trigger. -/
  counter : ℕ
deriving DecidableEq, Repr

/-- The inputs of the handler in one clock. -/
structure HandlerInput where
  trigger : Bool
  turnClock : Bool
  arm : Bool
  fire : Bool
  disarm : Bool
  delay : ℕ

namespace Handler

/-- One clock of `trigger_handler`. -/
def clock (i : HandlerInput) (h : Handler) : Handler :=
  match h.trigState with
  | .idle =>
      if i.fire then ⟨.triggered, i.delay⟩
      else if i.arm then { h with trigState := .armed }
      else h
  | .armed =>
      if i.trigger || i.fire then ⟨.triggered, i.delay⟩
      else if i.disarm then { h with trigState := .idle }
      else h
  | .triggered =>
      if i.disarm then { h with trigState := .idle }
      else if i.turnClock then
        if h.counter = 0 then { h with trigState := .idle }
        else { h with counter := h.counter - 1 }
      else h

/-- The output `trigger_o` of the clock. -/
def triggerOut (i : HandlerInput) (h : Handler) : Bool :=
  i.turnClock && decide (h.trigState = .triggered) && decide (h.counter = 0)

/-- The output `armed_o`, set until the trigger has been sent. -/
def armedOut (h : Handler) : Bool := decide (h.trigState ≠ .idle)

end Handler

/-! ### The engines -/

/-- The states of `fast_memory_control`.  The sequencer has only the first and the last, which
is its `busy_o`. -/
inductive Engine where
  | idle
  | running
  | runout
deriving DecidableEq, Repr

/-- One clock of the engine of `t`, but for the end of its run. -/
def Engine.clock (t : TargetId) (trigger start stop : Bool) (e : Engine) : Engine :=
  match t with
  | .dram =>
      match e with
      | .idle => if start then if stop then .runout else .running else .idle
      | .running => if trigger then .runout else if stop then .idle else .running
      | .runout => if stop then .idle else .runout
  | _ => if trigger then .runout else e

/-! ### A target's hardware -/

/-- What a write to the hardware asks of one target. -/
inductive Strobe where
  | arm
  | fire
  | disarm
  | capture (start stop : Bool)
deriving DecidableEq, Repr

/-- The strobe that the call raises at target `t`. -/
def Event.strobe (t : TargetId) : Event → Option Strobe
  | .writeTriggerArm mask => if mask t then some .arm else none
  | .writeTriggerArmShared mask _ _ => if mask t then some .arm else none
  | .writeTriggerFire mask => if mask t then some .fire else none
  | .writeTriggerDisarm mask => if mask t then some .disarm else none
  | .writeDramCaptureCommand start stop => if t = .dram then some (.capture start stop) else none
  | _ => none

/-- The hardware of one target, with its latched interrupts. -/
structure Port where
  handler : Handler
  /-- The triggers on their way: the output register of the handler, the `dlyreg` behind it, and
  `trigger` of `fast_memory_control`. -/
  line : Fin 6 → Bool
  engine : Engine
  triggerEvent : Bool
  doneEvent : Bool
deriving DecidableEq

/-- The place of the line from which the engine is triggered. -/
def arrival : TargetId → Fin 6
  | .dram => Fin.last 5
  | _ => ⟨4, by decide⟩

/-- What the rest of the machine does in one clock. -/
structure Surroundings where
  /-- The targets whose enabled and unblanked sources fire. -/
  trigger : Mask
  turnClock : Bool
  /-- The delay registers. -/
  delay : TargetId → ℕ

namespace Port

/-- The inputs of the handler of `t`. -/
def input (t : TargetId) (s : Option Strobe) (i : Surroundings) : HandlerInput where
  trigger := i.trigger t
  turnClock := i.turnClock
  arm := decide (s = some .arm)
  fire := decide (s = some .fire)
  disarm := decide (s = some .disarm)
  delay := i.delay t

/-- `seq_start_o`, or `trigger` of the memory. -/
def trigger (t : TargetId) (p : Port) : Bool := p.line (arrival t)

/-- One clock, in which the software raises the strobe `s`, if any. -/
def clock (t : TargetId) (s : Option Strobe) (i : Surroundings) (p : Port) : Port :=
  let trigger := p.trigger t
  let start := match s with | some (.capture start _) => start | _ => false
  let stop := match s with | some (.capture _ stop) => stop | _ => false
  let engine := p.engine.clock t trigger start stop
  { handler := p.handler.clock (input t s i)
    line := dlyline p.line (p.handler.triggerOut (input t s i))
    engine := engine
    triggerEvent := p.triggerEvent || trigger
    doneEvent := p.doneEvent || decide (p.engine ≠ .idle ∧ engine = .idle) }

/-- The engine comes to the end of its run. -/
def finish (p : Port) : Option Port :=
  if p.engine = .runout then some { p with engine := .idle, doneEvent := true } else none

/-- Neither armed nor capturing. -/
def Quiet (p : Port) : Prop := p.handler.armedOut = false ∧ p.engine = .idle

instance (p : Port) : Decidable p.Quiet := inferInstanceAs (Decidable (_ ∧ _))

/-- The hardware after a reset. -/
def reset : Port := ⟨⟨.idle, 0⟩, fun _ => false, .idle, false, false⟩

end Port

end Mbf.Trigger
