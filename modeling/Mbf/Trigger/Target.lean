import Mathlib.Data.Fintype.Pi
import Mathlib.Logic.Function.Basic
import Mathlib.Data.Finset.Insert

/-! # Trigger targets

The trigger target state machine of `trigger_target.c`, together with the two tables of target
methods (`seq` and `mem`) that `triggers.c` plugs into it.

All public functions run under one mutex, so each is a function on the module's state
(`Context`): the table of targets, the state shared by the targets in `MODE_SHARED`, and
`out`, the calls made so far by the function that is running, in order.  The calls recorded
are the writes to the hardware, the notifications of the PVs, the broadcast on the condition
variable and the log messages.

Two simplifications: `lock_count` is an `unsigned int` that counts threads, here a natural
number; and the name string built by `update_shared_targets` is replaced by the list of the
targets whose names it joins. -/

namespace Mbf.Trigger

/-- `enum trigger_target_id`. -/
inductive TargetId where
  | seq0
  | seq1
  | dram
deriving DecidableEq, Repr

instance : Fintype TargetId where
  elems := {.seq0, .seq1, .dram}
  complete := by intro t; cases t <;> decide

/-- `enum target_mode`. -/
inductive TargetMode where
  | oneShot
  | rearm
  | shared
  | freeRun
deriving DecidableEq, Repr

/-- `enum target_state`. -/
inductive TargetState where
  | idle
  | armed
  | busy
  | locked
deriving DecidableEq, Repr

/-- `enum shared_target_state`. -/
inductive SharedState where
  | idle
  | armed
  | locked
  | busy
  | mixed
  | invalid
deriving DecidableEq, Repr

/-- The value of the enumeration in the source, as printed in log messages. -/
def TargetId.toNat : TargetId → ℕ
  | seq0 => 0
  | seq1 => 1
  | dram => 2

def TargetState.toNat : TargetState → ℕ
  | idle => 0
  | armed => 1
  | busy => 2
  | locked => 3

def SharedState.toNat : SharedState → ℕ
  | idle => 0
  | armed => 1
  | locked => 2
  | busy => 3
  | mixed => 4
  | invalid => 5

/-- `struct trigger_target`, without the fixed configuration. -/
structure Target where
  mode : TargetMode
  /-- Temporary suppression of auto-rearm. -/
  dontRearm : Bool
  state : TargetState
  /-- Number of read locks currently active. -/
  lockCount : ℕ
deriving DecidableEq, Repr

/-- The array `targets`. -/
abbrev Targets := TargetId → Target

/-- `struct shared_triggers`. -/
structure Shared where
  retriggerMode : Bool
  dontRearm : Bool
  state : SharedState
deriving DecidableEq, Repr

/-- A set of targets, as an array of flags in the source. -/
abbrev Mask := TargetId → Bool

/-- The calls the module makes. -/
inductive Event where
  /-- The PV callback of `set_target_state`. -/
  | targetState (t : TargetId) (state : TargetState)
  /-- The PV callback of `set_global_state`. -/
  | sharedState (state : SharedState)
  /-- The PV callback of `update_shared_targets`. -/
  | sharedTargets (targets : List TargetId)
  /-- `prepare_sequencer` and `prepare_detector` for the axis of the target. -/
  | prepareSeq (t : TargetId)
  | writeDramCaptureCommand (start stop : Bool)
  /-- `hw_write_trigger_arm` for a single target. -/
  | writeTriggerArm (mask : Mask)
  /-- `hw_write_trigger_arm` for the shared targets.  `before` and `after` are not part of
  the call: they record the targets as they were when arming started and at the write. -/
  | writeTriggerArmShared (mask : Mask) (before after : Targets)
  | writeTriggerFire (mask : Mask)
  | writeTriggerDisarm (mask : Mask)
  | writeTriggerSoftTrigger
  /-- `pthread_cond_broadcast(&trigger_event)`. -/
  | broadcast
  | logMessage (message : String)
deriving DecidableEq

namespace Event

/-- The targets the call arms in hardware. -/
def arms : Event → Mask
  | writeTriggerArm mask => mask
  | writeTriggerArmShared mask _ _ => mask
  | _ => fun _ => false

/-- The targets the call fires in hardware. -/
def fires : Event → Mask
  | writeTriggerFire mask => mask
  | _ => fun _ => false

end Event

/-- The static state of the module. -/
structure Globals where
  targets : Targets
  shared : Shared

/-- The static state and the calls made so far. -/
structure Context extends Globals where
  out : List Event

namespace Context

/-- Record a call. -/
def emit (e : Event) (c : Context) : Context := { c with out := c.out ++ [e] }

/-- Change the record of target `t`. -/
def modify (t : TargetId) (f : Target → Target) (c : Context) : Context :=
  { c with targets := Function.update c.targets t (f (c.targets t)) }

end Context

open Context

/-- The order in which `FOR_ALL_TARGETS` visits the targets. -/
def allTargets : List TargetId := [.seq0, .seq1, .dram]

/-- `FOR_SHARED_TARGETS`. -/
def forSharedTargets (body : TargetId → Context → Context) (c : Context) : Context :=
  allTargets.foldl (fun c t => if (c.targets t).mode = .shared then body t c else c) c

/-! ### Target methods -/

/-- The mask with the single target `t`. -/
def singleMask (t : TargetId) : Mask := fun u => decide (u = t)

/-- The `prepare_target` method: `prepare_seq_target` or `prepare_mem_target`. -/
def prepareTarget : TargetId → Context → Context
  | .seq0 => emit (.prepareSeq .seq0)
  | .seq1 => emit (.prepareSeq .seq1)
  | .dram => emit (.writeDramCaptureCommand true false)

/-- The `stop_target` method: `stop_seq_target` or `stop_mem_target`.  The memory is stopped
by forcing a trigger. -/
def stopTarget : TargetId → Context → TargetState × Context
  | .seq0, c => (.idle, c)
  | .seq1, c => (.idle, c)
  | .dram, c => (.armed, emit (.writeTriggerFire (singleMask .dram)) c)

/-! ### Target state control -/

def setTargetState (t : TargetId) (state : TargetState) (c : Context) : Context :=
  if state ≠ (c.targets t).state then
    emit (.targetState t state) (c.modify t fun x => { x with state := state })
  else c

def setGlobalState (state : SharedState) (c : Context) : Context :=
  if state ≠ c.shared.state then
    emit (.sharedState state) { c with shared := { c.shared with state := state } }
  else c

def updateSharedTargets (c : Context) : Context :=
  emit (.sharedTargets (allTargets.filter fun t => (c.targets t).mode = .shared)) c

/-- Some target in shared mode satisfies `p`. -/
def anyShared (p : Target → Bool) (targets : Targets) : Bool :=
  allTargets.any fun t => decide ((targets t).mode = .shared) && p (targets t)

/-- The tabulated rules: the group's state from which states its targets are in. -/
def globalStateRule (locked armed busy idle : Bool) : SharedState :=
  if locked then
    if armed || busy then .invalid else .locked
  else if armed then
    if busy || idle then .mixed else .armed
  else if busy then .busy
  else .idle

def computeGlobalState (targets : Targets) : SharedState :=
  globalStateRule (anyShared (fun x => x.state = .locked) targets)
    (anyShared (fun x => x.state = .armed) targets)
    (anyShared (fun x => x.state = .busy) targets)
    (anyShared (fun x => x.state = .idle) targets)

def anyLockedTargets (targets : Targets) : Bool := anyShared (fun x => 0 < x.lockCount) targets

def anySharedTargets (targets : Targets) : Bool := anyShared (fun _ => true) targets

def getTargetMask (t : TargetId) : Mask := singleMask t

def getSharedMask (targets : Targets) : Mask := fun t => decide ((targets t).mode = .shared)

/-! ### Arming and disarming -/

/-- Arms a single target where possible; the flag says whether it was armed. -/
def doArmTarget (t : TargetId) (c : Context) : Bool × Context :=
  if (c.targets t).state = .idle ∨ (c.targets t).state = .locked then
    if (c.targets t).lockCount = 0 then
      (true, setTargetState t .armed
        (prepareTarget t (c.modify t fun x => { x with dontRearm := false })))
    else
      -- Don't arm now, but maybe later.
      (false, setTargetState t .locked c)
  else (false, c)

def doArmTargetHardware (t : TargetId) (c : Context) : Context :=
  emit (.writeTriggerArm (getTargetMask t)) c

/-- `before` is the table of targets when arming started. -/
def doArmSharedHardware (before : Targets) (c : Context) : Context :=
  emit (.writeTriggerArmShared (getSharedMask c.targets) before c.targets) c

def doDisarmTarget (t : TargetId) (c : Context) : Context :=
  let c := c.modify t fun x => { x with dontRearm := true }
  if (c.targets t).state = .armed then
    setTargetState t (stopTarget t c).1 (stopTarget t c).2
  else if (c.targets t).state = .locked then setTargetState t .idle c
  else c

def doDisarmTargetHardware (t : TargetId) (c : Context) : Context :=
  emit (.writeTriggerDisarm (getTargetMask t)) c

def doDisarmSharedHardware (c : Context) : Context :=
  emit (.writeTriggerDisarm (getSharedMask c.targets)) c

/-- The body of the loop that postpones a shared arm. -/
def postponeTarget (t : TargetId) (c : Context) : Context :=
  if 0 < (c.targets t).lockCount then setTargetState t .locked c else c

/-- Arms all shared targets, or postpones the arm while any of them is locked. -/
def armSharedTargets (c : Context) : Context :=
  let c := { c with shared := { c.shared with dontRearm := false } }
  if c.shared.state ≠ .idle ∧ c.shared.state ≠ .locked then
    emit (.logMessage s!"Unable to arm in state {c.shared.state.toNat}") c
  else if anyLockedTargets c.targets then
    setGlobalState .locked (forSharedTargets postponeTarget c)
  else if anySharedTargets c.targets then
    setGlobalState .armed
      (doArmSharedHardware c.targets (forSharedTargets (fun t c => (doArmTarget t c).2) c))
  else c

/-- Whether entering `newState` has to rearm the group: on becoming idle in retrigger mode, or
when an arm was postponed and no lock is left. -/
def doRearm (newState : SharedState) (g : Globals) : Bool :=
  decide (newState = .idle) && g.shared.retriggerMode && !g.shared.dontRearm ||
    decide (newState = .locked) && !anyLockedTargets g.targets

def updateGlobalState (c : Context) : Context :=
  let newState := computeGlobalState c.targets
  let c := setGlobalState newState c
  if doRearm newState c.toGlobals then armSharedTargets c else c

def disarmSharedTargets (c : Context) : Context :=
  let c := { c with shared := { c.shared with dontRearm := true } }
  updateGlobalState (forSharedTargets doDisarmTarget (doDisarmSharedHardware c))

def armTarget (t : TargetId) (c : Context) : Context :=
  if (c.targets t).mode = .shared then armSharedTargets c
  else if (doArmTarget t c).1 then doArmTargetHardware t (doArmTarget t c).2
  else (doArmTarget t c).2

def disarmTarget (t : TargetId) (c : Context) : Context :=
  if (c.targets t).mode = .shared then disarmSharedTargets c
  else doDisarmTarget t (doDisarmTargetHardware t c)

/-! ### Events and user actions -/

def triggerTargetTrigger (t : TargetId) (c : Context) : Context :=
  if (c.targets t).state = .armed then
    let c := setTargetState t .busy c
    if (c.targets t).mode = .shared then updateGlobalState c else c
  else emit (.logMessage s!"Unexpected trigger {t.toNat} {(c.targets t).state.toNat}") c

def triggerTargetComplete (t : TargetId) (c : Context) : Context :=
  if (c.targets t).state = .busy then
    let c := setTargetState t .idle c
    let x := c.targets t
    let c :=
      if x.mode = .shared then updateGlobalState c
      else if x.mode = .rearm ∧ x.dontRearm = false then armTarget t c
      else if x.mode = .freeRun ∧ x.dontRearm = false then
        emit .writeTriggerSoftTrigger (armTarget t c)
      else c
    emit .broadcast c
  else emit (.logMessage s!"Unexpected complete {t.toNat} {(c.targets t).state.toNat}") c

/-- Called when the last lock on the target is released. -/
def processTargetUnlocked (t : TargetId) (c : Context) : Context :=
  if (c.targets t).mode = .shared then updateGlobalState c
  else if (c.targets t).state = .locked then armTarget t c
  else c

def triggerTargetSetMode (t : TargetId) (mode : TargetMode) (c : Context) : Context :=
  updateSharedTargets (updateGlobalState (c.modify t fun x => { x with mode := mode }))

def sharedTriggerSetMode (mode : Bool) (c : Context) : Context :=
  { c with shared := { c.shared with retriggerMode := mode } }

/-! ### Locking -/

def checkTriggerReady (x : Target) : Bool := x.state = .idle || x.state = .locked

/-- How a call of `lock_trigger_ready`, or a pass through its wait loop, ends. -/
inductive LockOutcome where
  | granted
  /-- The caller is blocked in `pthread_cond_timedwait`. -/
  | blocked
  | failed (error : String)
deriving DecidableEq, Repr

def decrementTriggerLockCount (t : TargetId) (c : Context) : Context :=
  let c := c.modify t fun x => { x with lockCount := x.lockCount - 1 }
  if (c.targets t).lockCount = 0 then processTargetUnlocked t c else c

/-- `lock_trigger_ready` up to its first wait. -/
def lockTriggerReady (t : TargetId) (timeout : ℕ) (c : Context) : LockOutcome × Context :=
  if checkTriggerReady (c.targets t) then
    (.granted, c.modify t fun x => { x with lockCount := x.lockCount + 1 })
  else if timeout = 0 then (.failed "Trigger not ready", c)
  else (.blocked, c.modify t fun x => { x with lockCount := x.lockCount + 1 })

/-- One pass through the loop of `wait_trigger_ready`, from a return of
`pthread_cond_timedwait` to the next wait or to the end of `lock_trigger_ready`.  `timedOut`
says that the wait reached its deadline, `lastTick` that this was the final deadline, and
`poll` is the error of the poll callback, if any. -/
def waitTriggerReady (t : TargetId) (timedOut lastTick : Bool) (poll : Option String)
    (c : Context) : LockOutcome × Context :=
  if checkTriggerReady (c.targets t) then (.granted, c)
  else if !timedOut then (.blocked, c)
  else if lastTick then
    (.failed "Timed out waiting for trigger", decrementTriggerLockCount t c)
  else match poll with
    | some error => (.failed error, decrementTriggerLockCount t c)
    | none => (.blocked, c)

def unlockTriggerReady (t : TargetId) (c : Context) : Context := decrementTriggerLockCount t c

/-! ### Immediate capture -/

def immediateMemoryCapture (c : Context) : Bool × Context :=
  if (c.targets .dram).lockCount = 0 ∧ (c.targets .dram).state = .idle then
    let c := emit (.writeDramCaptureCommand true false) c
    let c := emit (.writeTriggerFire (singleMask .dram)) c
    let c := setTargetState .dram .armed c
    let c := c.modify .dram fun x => { x with dontRearm := true }
    (true, if (c.targets .dram).mode = .shared then updateGlobalState c else c)
  else (false, emit (.logMessage "Ignoring memory capture while busy") c)

/-! ### Initial state -/

/-- The module after `initialise_trigger_targets` and `create_trigger_target`, with the modes
and flags already set from the saved configuration. -/
structure Globals.Initial (g : Globals) : Prop where
  idle : ∀ t, (g.targets t).state = .idle
  unlocked : ∀ t, (g.targets t).lockCount = 0
  sharedIdle : g.shared.state = .idle

end Mbf.Trigger
