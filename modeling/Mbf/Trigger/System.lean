import Mathlib.Tactic.Common
import Mbf.Lib.Runs
import Mbf.Trigger.Target

/-! # Runs of the trigger targets

The module with its clients as a machine: an input is one public call, one interrupt event or
one pass of a waiting client through its wait loop, and the output is the list of calls the
module made.  Calls are atomic, since each runs under the module's mutex; a client that waits
releases the mutex, so its wait is entered by `lock` and resumed by `wake`.

Who holds a lock and who waits for one is known to the clients only, so it is recorded beside
the module's own state (`granted`, `waiting`). -/

namespace Mbf.Trigger

/-- The module's state and the lockers of each target. -/
structure State (Client : Type) extends Globals where
  /-- Clients holding a lock, once for each lock they hold. -/
  granted : TargetId → List Client
  /-- Clients blocked in `lock_trigger_ready`. -/
  waiting : TargetId → List Client

/-- The inputs. -/
inductive Op (Client : Type) where
  | arm (t : TargetId)
  | disarm (t : TargetId)
  | setMode (t : TargetId) (mode : TargetMode)
  | sharedArm
  | sharedDisarm
  | sharedSetMode (mode : Bool)
  | trigger (t : TargetId)
  | complete (t : TargetId)
  | immediateCapture
  | lock (k : Client) (t : TargetId) (timeout : ℕ)
  | wake (k : Client) (t : TargetId) (timedOut lastTick : Bool) (poll : Option String)
  | unlock (k : Client) (t : TargetId)
deriving DecidableEq

variable {Client : Type} [DecidableEq Client]

namespace State

/-- The module's state at the start of a call. -/
def enter (s : State Client) : Context := ⟨s.toGlobals, []⟩

/-- The state after a call that ended in `c`, with the calls made. -/
def leave (s : State Client) (c : Context) : State Client × List Event :=
  (⟨c.toGlobals, s.granted, s.waiting⟩, c.out)

/-- Record how a pass of client `k` for a lock of `t` ended. -/
def settle (s : State Client) (k : Client) (t : TargetId) : LockOutcome → State Client
  | .granted => { s with granted := Function.update s.granted t (k :: s.granted t) }
  | .blocked => { s with waiting := Function.update s.waiting t (k :: s.waiting t) }
  | .failed _ => s

def stopWaiting (s : State Client) (k : Client) (t : TargetId) : State Client :=
  { s with waiting := Function.update s.waiting t ((s.waiting t).erase k) }

def release (s : State Client) (k : Client) (t : TargetId) : State Client :=
  { s with granted := Function.update s.granted t ((s.granted t).erase k) }

end State

omit [DecidableEq Client] in
/-- The effect of an input on the module's state, whatever it means to the lockers. -/
def Op.effect : Op Client → Context → Context
  | .arm t, c => armTarget t c
  | .disarm t, c => disarmTarget t c
  | .setMode t mode, c => triggerTargetSetMode t mode c
  | .sharedArm, c => armSharedTargets c
  | .sharedDisarm, c => disarmSharedTargets c
  | .sharedSetMode mode, c => sharedTriggerSetMode mode c
  | .trigger t, c => triggerTargetTrigger t c
  | .complete t, c => triggerTargetComplete t c
  | .immediateCapture, c => (immediateMemoryCapture c).2
  | .lock _ t timeout, c => (lockTriggerReady t timeout c).2
  | .wake _ t timedOut lastTick poll, c => (waitTriggerReady t timedOut lastTick poll c).2
  | .unlock _ t, c => unlockTriggerReady t c

/-- One input.  Only a holder unlocks, and only a waiting client is woken. -/
def step (s : State Client) (op : Op Client) : Option (State Client × List Event) :=
  match op with
  | .lock k t timeout =>
      let r := lockTriggerReady t timeout s.enter
      some ((s.settle k t r.1).leave r.2)
  | .wake k t timedOut lastTick poll =>
      if k ∈ s.waiting t then
        let r := waitTriggerReady t timedOut lastTick poll s.enter
        some (((s.stopWaiting k t).settle k t r.1).leave r.2)
      else none
  | .unlock k t =>
      if k ∈ s.granted t then some ((s.release k t).leave (unlockTriggerReady t s.enter))
      else none
  | op => some (s.leave (op.effect s.enter))

/-- The module and its clients.  A run starts from any modes and flags, with every target idle
and unlocked. -/
def machine (Client : Type) [DecidableEq Client] :
    Runs.Machine (State Client) (Op Client) (List Event) where
  init s := s.toGlobals.Initial ∧ (∀ t, s.granted t = []) ∧ ∀ t, s.waiting t = []
  step := step

/-- The module as it comes up with the given modes, the targets not armed yet. -/
def State.boot (mode : TargetId → TargetMode) (retriggerMode : Bool) : State Client where
  targets t := ⟨mode t, false, .idle, 0⟩
  shared := ⟨retriggerMode, true, .idle⟩
  granted _ := []
  waiting _ := []

theorem machine_boot (mode : TargetId → TargetMode) (retriggerMode : Bool) :
    (machine Client).init (.boot mode retriggerMode) :=
  ⟨⟨fun _ => rfl, fun _ => rfl, rfl⟩, fun _ => rfl, fun _ => rfl⟩

/-- The transition system of the machine. -/
abbrev runs (Client : Type) [DecidableEq Client] := (machine Client).system

/-- The module's own state and calls do not depend on who the lockers are. -/
theorem step_effect {s s' : State Client} {op : Op Client} {out : List Event}
    (h : step s op = some (s', out)) :
    s'.toGlobals = (op.effect s.enter).toGlobals ∧ out = (op.effect s.enter).out := by
  cases op with
  | lock k t timeout =>
      simp only [step, Option.some.injEq, Prod.mk.injEq, State.leave] at h
      obtain ⟨rfl, rfl⟩ := h
      exact ⟨rfl, rfl⟩
  | wake k t timedOut lastTick poll =>
      simp only [step] at h
      split_ifs at h
      simp only [Option.some.injEq, Prod.mk.injEq, State.leave] at h
      obtain ⟨rfl, rfl⟩ := h
      exact ⟨rfl, rfl⟩
  | unlock k t =>
      simp only [step] at h
      split_ifs at h
      simp only [Option.some.injEq, Prod.mk.injEq, State.leave] at h
      obtain ⟨rfl, rfl⟩ := h
      exact ⟨rfl, rfl⟩
  | _ =>
      simp only [step, Option.some.injEq, Prod.mk.injEq, State.leave] at h
      obtain ⟨rfl, rfl⟩ := h
      exact ⟨rfl, rfl⟩

end Mbf.Trigger
