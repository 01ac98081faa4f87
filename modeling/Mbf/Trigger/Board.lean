import Mbf.Trigger.Handler
import Mbf.Trigger.System

/-! # The trigger targets with their hardware

The software of `Mbf.Trigger.System` and the hardware of every target as one machine.  Three
things happen side by side: clocks of the hardware, in one of which the function that is running
may make its next call; the end of an engine's run; and the event thread, which reads the latched
interrupts and then dispatches them one at a time.

A function of the module holds the mutex until its last call is made, so no other function
starts and no event is dispatched to the module before that. -/

namespace Mbf.Trigger

/-- What the event thread has to dispatch. -/
inductive Notice where
  /-- `detector_readout_event` for the axis of the target. -/
  | readout (t : TargetId)
  /-- `trigger_target_trigger`. -/
  | trigger (t : TargetId)
  /-- `trigger_target_complete`. -/
  | complete (t : TargetId)
deriving DecidableEq, Repr

structure Board (Client : Type) where
  soft : State Client
  /-- Calls the running function has still to make. -/
  pending : List Event
  ports : TargetId → Port
  /-- The events read and not yet dispatched. -/
  reading : List Notice

/-- What `events_thread` does with a set of interrupts.  The detector's handler comes before
the trigger targets', and a target's trigger before its completion. -/
def notices (ports : TargetId → Port) : List Notice :=
  (([.seq0, .seq1] : List TargetId).filter fun t => (ports t).doneEvent).map .readout ++
    allTargets.flatMap fun t =>
      (if (ports t).triggerEvent then [.trigger t] else []) ++
        if (ports t).doneEvent then [.complete t] else []

inductive Input (Client : Type) where
  /-- A public function is called. -/
  | call (op : Op Client)
  /-- One clock; with `write` the running function makes its next call. -/
  | clock (write : Bool) (i : Surroundings)
  /-- The engine of `t` is done. -/
  | finish (t : TargetId)
  /-- The event thread reads the interrupts. -/
  | read
  /-- The event thread dispatches an event. -/
  | dispatch

variable {Client : Type}

/-- The function is called by a client, not in response to an interrupt. -/
def Op.isCall : Op Client → Bool
  | .trigger _ => false
  | .complete _ => false
  | _ => true

/-- The function the notice calls in the module. -/
def Notice.op : Notice → Option (Op Client)
  | .readout _ => none
  | .trigger t => some (.trigger t)
  | .complete t => some (.complete t)

namespace Board

/-- Clock all ports, with the call `e` made in this clock, if any. -/
def clockPorts (e : Option Event) (i : Surroundings) (ports : TargetId → Port) :
    TargetId → Port :=
  fun t => (ports t).clock t (e.bind (Event.strobe t)) i

/-- Forget the latched interrupts. -/
def clearEvents (ports : TargetId → Port) : TargetId → Port := fun t =>
  { ports t with triggerEvent := false, doneEvent := false }

variable [DecidableEq Client] (b : Board Client)

/-- Run a function of the module, up to its first call. -/
def start (op : Op Client) : Option (Board Client) :=
  if b.pending.isEmpty then
    (Trigger.step b.soft op).map fun r => { b with soft := r.1, pending := r.2 }
  else none

def step : Input Client → Option (Board Client)
  | .call op => if op.isCall then b.start op else none
  | .clock false i => some { b with ports := clockPorts none i b.ports }
  | .clock true i =>
      match b.pending with
      | [] => none
      | e :: es => some { b with pending := es, ports := clockPorts (some e) i b.ports }
  | .finish t =>
      (b.ports t).finish.map fun p => { b with ports := Function.update b.ports t p }
  | .read =>
      if b.reading.isEmpty then
        some { b with reading := notices b.ports, ports := clearEvents b.ports }
      else none
  | .dispatch =>
      match b.reading with
      | [] => none
      | n :: ns =>
          match n.op with
          | none => some { b with reading := ns }
          | some op => ({ b with reading := ns } : Board Client).start op

end Board

/-- The software and the hardware.  A run starts from any modes and flags, with everything
idle. -/
def board (Client : Type) [DecidableEq Client] : Runs.Machine (Board Client) (Input Client) Unit where
  init b := (machine Client).init b.soft ∧ b.pending = [] ∧ (∀ t, b.ports t = .reset) ∧
    b.reading = []
  step b i := (b.step i).map fun b' => (b', ())

abbrev boardRuns (Client : Type) [DecidableEq Client] := (board Client).system

end Mbf.Trigger
