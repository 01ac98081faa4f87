import Mbf.Trigger.Agreement
import Mbf.Detector.Context

/-! # The axes with their triggers

The machine of `Mbf.Trigger.Board` together with the axes that it arms and reads out: its calls
of `prepare_sequencer` and `prepare_detector`, the captures its hardware starts, and the readout
events that it dispatches now act on the axes.  Beside them the configuration is edited at any
time, and clients ask for the detector memory. -/

namespace Mbf.Detector

open Mbf.Sequencer Mbf.Trigger

/-- What a capture is published with. -/
structure Publication (Tune : Type) where
  /-- What was written to the hardware for the capture. -/
  captured : Written
  scaleInfo : ScaleInfo Tune
  scaleLength : ℕ
  samples : DetectorId → ℕ

structure Rig (Client Tune : Type) where
  board : Board Client
  /-- The axis of each target; that of the memory is not used. -/
  axes : TargetId → Axis Tune

inductive RigInput (Client : Type) where
  | board (i : Trigger.Input Client)
  | editSeq (t : TargetId) (e : SeqEdit)
  | editDet (t : TargetId) (e : DetEdit)
  /-- `process_detector_command` of a client that holds the lock, or while the target is idle. -/
  | detectorCommand (t : TargetId)

namespace Rig
variable {Client Tune : Type} [DecidableEq Client] (setup : Setup Tune)

/-- Replace the axis of `t`. -/
def setAxis (r : Rig Client Tune) (t : TargetId) (a : Axis Tune) : Rig Client Tune :=
  ⟨r.board, Function.update r.axes t a⟩

/-- The hardware of `t` starts to capture in the step. -/
def Starts (b b' : Board Client) (t : TargetId) : Prop :=
  (b.ports t).engine = .idle ∧ (b'.ports t).engine ≠ .idle

instance (b b' : Board Client) (t : TargetId) : Decidable (Starts b b' t) :=
  inferInstanceAs (Decidable (_ ∧ _))

/-- The call made in the step prepares `t`. -/
def Prepares (b : Board Client) (i : Trigger.Input Client) (t : TargetId) : Prop :=
  match i with
  | .clock true _ => b.pending.head? = some (.prepareSeq t)
  | _ => False

instance (b : Board Client) (t : TargetId) : DecidablePred (Prepares b · t)
  | .clock true _ => inferInstanceAs (Decidable (b.pending.head? = some (.prepareSeq t)))
  | .clock false _ | .call _ | .finish _ | .read | .dispatch => inferInstanceAs (Decidable False)

/-- The event dispatched in the step is the readout of `t`. -/
def ReadsOut (b : Board Client) (i : Trigger.Input Client) (t : TargetId) : Prop :=
  match i with
  | .dispatch => b.reading.head? = some (.readout t)
  | _ => False

instance (b : Board Client) (t : TargetId) : DecidablePred (ReadsOut b · t)
  | .dispatch => inferInstanceAs (Decidable (b.reading.head? = some (.readout t)))
  | .clock _ _ | .call _ | .finish _ | .read => inferInstanceAs (Decidable False)

/-- What a step of the board does to the axis of `t`. -/
def axisStep (b b' : Board Client) (i : Trigger.Input Client) (t : TargetId) (a : Axis Tune) :
    Axis Tune :=
  let a := if Starts b b' t then a.capture else a
  let a := if Prepares b i t then a.prepare setup else a
  if ReadsOut b i t then a.readout setup else a

/-- What is published in a step of the board. -/
def published (b : Board Client) (i : Trigger.Input Client) (axes : TargetId → Axis Tune) :
    Option (TargetId × Publication Tune) :=
  match i, b.reading with
  | .dispatch, .readout t :: _ =>
      some (t, {
        captured := (axes t).captured
        scaleInfo := (axes t).det.scaleInfo
        scaleLength := (axes t).det.scaleLength
        samples := (axes t).det.samples })
  | _, _ => none

def step (r : Rig Client Tune) :
    RigInput Client → Option (Rig Client Tune × Option (TargetId × Publication Tune))
  | .board i =>
      (r.board.step i).map fun b' =>
        let axes := fun t => axisStep setup r.board b' i t (r.axes t)
        (⟨b', axes⟩, published r.board i axes)
  | .editSeq t e =>
      if e.Admitted then
        some (r.setAxis t ((r.axes t).editSeq e), none)
      else none
  | .editDet t e => some (r.setAxis t { r.axes t with det := (r.axes t).det.edit e }, none)
  | .detectorCommand t =>
      if t ≠ .dram ∧
          (r.board.soft.granted t ≠ [] ∨ (r.board.soft.targets t).state = .idle) then
        some (r, none)
      else none

end Rig

/-- The board and the axes. -/
def rig (Client : Type) [DecidableEq Client] {Tune : Type} (setup : Setup Tune) :
    Runs.Machine (Rig Client Tune) (RigInput Client) (Option (TargetId × Publication Tune)) where
  init r := (board Client).init r.board ∧ ∀ t, (r.axes t).Initial setup
  step := Rig.step setup

end Mbf.Detector
