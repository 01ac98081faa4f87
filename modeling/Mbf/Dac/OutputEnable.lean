import Mbf.Lib.Literals
import Mbf.Lib.Runs
import Mathlib.Data.Fintype.Basic
import Mathlib.Logic.Function.Basic

/-! # The output enable of the DAC

`tick_output_enable_delay`, `write_dac_output_enable` and `scan_events` of `dac.c`, with
`hw_write_output_enable` of `hardware.c`.  The program keeps the hardware outputs Off at first, until
`scan_events`, which runs ten times a second, has been called twice; while it does, a write to
`ENABLE` is only kept in the context of the axis.

The hardware is given what is kept by the first call, when the count is still one.  So a value that
is On by then is on the output before the count has run out, and a value that changes between the
two calls does not reach the hardware until `ENABLE` is written again (`settled_iff`).  The outputs
are what they should be all along exactly if every `ENABLE` is Off at both calls
(`output_enable_iff`). -/

namespace Mbf.Dac

abbrev Axis := Fin 2

/-- What `hw_read_dac_events` reads. -/
structure DacEvents where
  firOvf : Bool
  muxOvf : Bool
  mmsOvf : Bool
  outOvf : Bool
  deltaEvent : Bool

/-- The part of `struct dac_context` that the events and the output enable use. -/
structure DacContext where
  outputEnable : Bool
  overflow : Bool
  events : DacEvents

/-- The fields of the control register that have a bit for each axis. -/
structure Control where
  loopback : BitVec 2
  output : BitVec 2
  deriving DecidableEq

/-- The program with its `ENABLE` records, and the control register of the hardware. -/
structure State where
  /-- The value of `ENABLE`, which is the one restored until it is written. -/
  enable : Axis → Bool
  outputEnableDelay : ℕ
  dacContext : Axis → DacContext
  ctrlMirror : Control
  control : Control

/-! ### Operations -/

/-- `write_selected_bit`. -/
def writeSelectedBit (bits : BitVec 32) (bit : ℕ) (value : Bool) : BitVec 32 :=
  bits &&& ~~~(1#32 <<< bit) ||| (BitVec.ofBool value).setWidth 32 <<< bit

/-- The field for both axes with the bit of one of them written. -/
def writeAxisBit (field : BitVec 2) (axis : Axis) (value : Bool) : BitVec 2 :=
  (writeSelectedBit (field.setWidth 32) axis value &&& 0x3#32).setWidth 2

namespace State

/-- `hw_write_output_enable`. -/
def hwWriteOutputEnable (axis : Axis) (enable : Bool) (s : State) : State :=
  let ctrlMirror := { s.ctrlMirror with output := writeAxisBit s.ctrlMirror.output axis enable }
  { s with ctrlMirror := ctrlMirror, control := ctrlMirror }

/-- `hw_write_loopback_enable`, another writer of the same register. -/
def hwWriteLoopbackEnable (axis : Axis) (loopback : Bool) (s : State) : State :=
  let ctrlMirror := { s.ctrlMirror with loopback := writeAxisBit s.ctrlMirror.loopback axis loopback }
  { s with ctrlMirror := ctrlMirror, control := ctrlMirror }

/-- `tick_output_enable_delay`. -/
def tickOutputEnableDelay (s : State) : State :=
  if s.outputEnableDelay > 0 then
    let s := { s with outputEnableDelay := s.outputEnableDelay - 1 }
    if s.outputEnableDelay = 1 then
      (List.finRange 2).foldl
        (fun s' axis => s'.hwWriteOutputEnable axis (s.dacContext axis).outputEnable) s
    else s
  else s

/-- `scan_events`, with the events that are read. -/
def scanEvents (events : Axis → DacEvents) (s : State) : State :=
  tickOutputEnableDelay { s with
    dacContext := fun axis =>
      { s.dacContext axis with
        events := events axis
        overflow := (events axis).firOvf || (events axis).muxOvf || (events axis).outOvf } }

/-- `write_dac_output_enable`. -/
def writeDacOutputEnable (axis : Axis) (value : Bool) (s : State) : State :=
  let s := { s with
    dacContext := Function.update s.dacContext axis
      { s.dacContext axis with outputEnable := value } }
  if s.outputEnableDelay = 0 then
    s.hwWriteOutputEnable axis (s.dacContext axis).outputEnable
  else s

/-- A write to `ENABLE`, which is a record. -/
def writeEnable (axis : Axis) (value : Bool) (s : State) : State :=
  writeDacOutputEnable axis value { s with enable := Function.update s.enable axis value }

/-- The program as it starts, after `set_hardware_config` has written the control register. -/
def boot : State where
  enable _ := false
  outputEnableDelay := 2
  dacContext _ := ⟨false, false, ⟨false, false, false, false, false⟩⟩
  ctrlMirror := ⟨0, 0⟩
  control := ⟨0, 0⟩

/-- The records are processed with the values restored before anything is scanned. -/
def initial (restored : Axis → Bool) : State :=
  (List.finRange 2).foldl (fun s axis => s.writeEnable axis (restored axis)) boot

/-- The output of the axis is on. -/
def output (s : State) (axis : Axis) : Bool := s.control.output.getLsbD axis

end State

/-- What happens to the program. -/
inductive Input where
  | scanEvents (events : Axis → DacEvents)
  | writeEnable (axis : Axis) (value : Bool)
  | writeLoopback (axis : Axis) (value : Bool)

/-- The program. -/
def program : Runs.Machine State Input Unit where
  init s := ∃ restored, s = State.initial restored
  step s
    | .scanEvents events => some (s.scanEvents events, ())
    | .writeEnable axis value => some (s.writeEnable axis value, ())
    | .writeLoopback axis value => some (s.hwWriteLoopbackEnable axis value, ())

/-! ### What a step does -/

/-- The control register holds its mirror, and the contexts what the records have. -/
structure Consistent (s : State) : Prop where
  mirror : s.ctrlMirror = s.control
  kept : ∀ axis, (s.dacContext axis).outputEnable = s.enable axis
  delay : s.outputEnableDelay ≤ 2

theorem writeAxisBit_getLsbD : ∀ (field : BitVec 2) (axis : Axis) (value : Bool) (a : Axis),
    (writeAxisBit field axis value).getLsbD a = if a = axis then value else field.getLsbD a := by
  decide

variable {s : State}

theorem output_hwWriteOutputEnable (hmirror : s.ctrlMirror = s.control) (axis a : Axis)
    (enable : Bool) :
    (s.hwWriteOutputEnable axis enable).output a = if a = axis then enable else s.output a := by
  unfold State.output State.hwWriteOutputEnable
  rw [← hmirror]
  exact writeAxisBit_getLsbD _ _ _ _

theorem tick_first (h : s.outputEnableDelay = 2) :
    s.tickOutputEnableDelay =
      (State.hwWriteOutputEnable 0 (s.dacContext 0).outputEnable
        { s with outputEnableDelay := 1 }).hwWriteOutputEnable 1 (s.dacContext 1).outputEnable := by
  unfold State.tickOutputEnableDelay
  rw [h]
  rfl

theorem tick_later (h : s.outputEnableDelay < 2) :
    s.tickOutputEnableDelay = { s with outputEnableDelay := s.outputEnableDelay - 1 } := by
  unfold State.tickOutputEnableDelay
  by_cases hpos : s.outputEnableDelay > 0
  · rw [if_pos hpos]
    exact if_neg (show ¬ s.outputEnableDelay - 1 = 1 by omega)
  · have hzero : s.outputEnableDelay - 1 = s.outputEnableDelay := by omega
    rw [if_neg hpos, hzero]

/-- A tick counts down, and gives the hardware what is kept if it is the first. -/
theorem tick_effect (h : Consistent s) :
    Consistent s.tickOutputEnableDelay ∧ s.tickOutputEnableDelay.enable = s.enable ∧
      s.tickOutputEnableDelay.outputEnableDelay = s.outputEnableDelay - 1 ∧
      ∀ axis, s.tickOutputEnableDelay.output axis =
        if s.outputEnableDelay = 2 then s.enable axis else s.output axis := by
  have hdelay := h.delay
  by_cases hfirst : s.outputEnableDelay = 2
  · rw [tick_first hfirst, hfirst]
    refine ⟨⟨rfl, h.kept, show 1 ≤ 2 by omega⟩, rfl, rfl, fun axis => ?_⟩
    rw [output_hwWriteOutputEnable rfl,
      output_hwWriteOutputEnable (s := { s with outputEnableDelay := 1 }) h.mirror, if_pos rfl,
      ← h.kept axis]
    -- each axis has its own write
    match axis with
    | 0 => rfl
    | 1 => rfl
  · rw [tick_later (by omega)]
    refine ⟨⟨h.mirror, h.kept, (Nat.sub_le _ _).trans hdelay⟩, rfl, rfl, fun axis => ?_⟩
    rw [if_neg hfirst]
    rfl

/-- `scan_events` is a tick for the outputs. -/
theorem scanEvents_effect (h : Consistent s) (events : Axis → DacEvents) :
    Consistent (s.scanEvents events) ∧ (s.scanEvents events).enable = s.enable ∧
      (s.scanEvents events).outputEnableDelay = s.outputEnableDelay - 1 ∧
      ∀ axis, (s.scanEvents events).output axis =
        if s.outputEnableDelay = 2 then s.enable axis else s.output axis :=
  tick_effect (s := { s with dacContext := _ }) ⟨h.mirror, h.kept, h.delay⟩

/-- A write to `ENABLE` reaches the hardware once the count has run out. -/
theorem writeEnable_effect (h : Consistent s) (axis : Axis) (value : Bool) :
    Consistent (s.writeEnable axis value) ∧
      (s.writeEnable axis value).enable = Function.update s.enable axis value ∧
      (s.writeEnable axis value).outputEnableDelay = s.outputEnableDelay ∧
      ∀ a, (s.writeEnable axis value).output a =
        if s.outputEnableDelay = 0 ∧ a = axis then value else s.output a := by
  have hkept : ∀ a, (Function.update s.dacContext axis
      { s.dacContext axis with outputEnable := value } a).outputEnable =
        Function.update s.enable axis value a := by
    intro a
    by_cases ha : a = axis
    · subst ha
      simp
    · rw [Function.update_of_ne ha, Function.update_of_ne ha, h.kept a]
  unfold State.writeEnable State.writeDacOutputEnable
  by_cases hzero : s.outputEnableDelay = 0
  · simp only [hzero, if_true, Function.update_self, true_and]
    refine ⟨⟨rfl, hkept, Nat.zero_le 2⟩, rfl, rfl, fun a => ?_⟩
    exact output_hwWriteOutputEnable h.mirror _ _ _
  · simp only [hzero, if_false, false_and]
    exact ⟨⟨h.mirror, hkept, h.delay⟩, trivial, trivial, fun _ => rfl⟩

theorem writeLoopback_effect (h : Consistent s) (axis : Axis) (value : Bool) :
    Consistent (s.hwWriteLoopbackEnable axis value) ∧
      (s.hwWriteLoopbackEnable axis value).enable = s.enable ∧
      (s.hwWriteLoopbackEnable axis value).outputEnableDelay = s.outputEnableDelay ∧
      ∀ a, (s.hwWriteLoopbackEnable axis value).output a = s.output a := by
  refine ⟨⟨rfl, h.kept, h.delay⟩, rfl, rfl, fun a => ?_⟩
  unfold State.output State.hwWriteLoopbackEnable
  rw [← h.mirror]

theorem consistent_step {s' : State} {x : Input × Unit} (h : Consistent s)
    (hstep : program.system.Step s x s') : Consistent s' := by
  obtain ⟨input, u⟩ := x
  cases input with
  | scanEvents events =>
      cases hstep
      exact (scanEvents_effect h events).1
  | writeEnable axis value =>
      cases hstep
      exact (writeEnable_effect h axis value).1
  | writeLoopback axis value =>
      cases hstep
      exact (writeLoopback_effect h axis value).1

/-- The program starts with all outputs off, whatever is restored. -/
theorem initial_effect (restored : Axis → Bool) :
    Consistent (State.initial restored) ∧ (State.initial restored).outputEnableDelay = 2 ∧
      ∀ axis, (State.initial restored).output axis = false := by
  have hboot : Consistent State.boot := ⟨rfl, fun _ => rfl, le_rfl⟩
  obtain ⟨h₀, -, hdelay₀, hout₀⟩ := writeEnable_effect hboot 0 (restored 0)
  obtain ⟨h₁, -, hdelay₁, hout₁⟩ := writeEnable_effect h₀ 1 (restored 1)
  have hdelay : (State.boot.writeEnable 0 (restored 0)).outputEnableDelay = 2 := hdelay₀
  have hinit : State.initial restored =
      (State.boot.writeEnable 0 (restored 0)).writeEnable 1 (restored 1) := rfl
  rw [hinit]
  refine ⟨h₁, hdelay₁.trans hdelay, fun axis => ?_⟩
  rw [hout₁, hdelay, if_neg (by simp), hout₀, if_neg (by simp [State.boot])]
  simp [State.output, State.boot]

/-! ### All along a run -/

namespace State

/-- Once the count has run out, the hardware has what was written last. -/
def Settled (s : State) : Prop :=
  s.outputEnableDelay = 0 → ∀ axis, s.output axis = s.enable axis

/-- Until then the outputs are off. -/
def Disabled (s : State) : Prop :=
  0 < s.outputEnableDelay → ∀ axis, s.output axis = false

end State

/-- At the call that ends the count, the records have what the first one has given the hardware. -/
def Unchanged (s : State) : Input × Unit → Prop
  | (.scanEvents _, _) => s.outputEnableDelay = 1 → ∀ axis, s.enable axis = s.output axis
  | _ => True

/-- The records are Off at the calls that count. -/
def OffWhileCounting (s : State) : Input × Unit → Prop
  | (.scanEvents _, _) => 0 < s.outputEnableDelay → ∀ axis, s.enable axis = false
  | _ => True

/-- A write that finds the count run out keeps the hardware right. -/
theorem settled_writeEnable (h : Consistent s) (hsettled : s.Settled) (axis : Axis)
    (value : Bool) : (s.writeEnable axis value).Settled := by
  obtain ⟨-, henable, hdelay, hout⟩ := writeEnable_effect h axis value
  intro hzero a
  rw [hdelay] at hzero
  rw [hout, henable]
  by_cases ha : a = axis
  · subst ha
    rw [if_pos ⟨hzero, rfl⟩, Function.update_self]
  · rw [if_neg (by simp [ha]), Function.update_of_ne ha, hsettled hzero a]

theorem settled_step {s' : State} {x : Input × Unit} (h : Consistent s) (hsettled : s.Settled)
    (hstep : program.system.Step s x s') : s'.Settled ↔ Unchanged s x := by
  obtain ⟨input, u⟩ := x
  cases input with
  | scanEvents events =>
      cases hstep
      obtain ⟨-, henable, hdelay, hout⟩ := scanEvents_effect h events
      have hle := h.delay
      simp only [State.Settled, Unchanged, hdelay, henable, hout]
      constructor
      · intro hs' hone axis
        rw [← hs' (by omega) axis, if_neg (by omega)]
      · intro hun hzero axis
        rw [if_neg (by omega)]
        by_cases hone : s.outputEnableDelay = 1
        · exact (hun hone axis).symm
        · exact hsettled (by omega) axis
  | writeEnable axis value =>
      cases hstep
      exact ⟨fun _ => trivial, fun _ => settled_writeEnable h hsettled axis value⟩
  | writeLoopback axis value =>
      cases hstep
      obtain ⟨-, henable, hdelay, hout⟩ := writeLoopback_effect h axis value
      simp only [State.Settled, Unchanged, hdelay, henable, hout, iff_true]
      exact hsettled

theorem correct_step {s' : State} {x : Input × Unit} (h : Consistent s)
    (hgood : s.Settled ∧ s.Disabled) (hstep : program.system.Step s x s') :
    (s'.Settled ∧ s'.Disabled) ↔ OffWhileCounting s x := by
  rw [settled_step h hgood.1 hstep]
  obtain ⟨input, u⟩ := x
  cases input with
  | scanEvents events =>
      cases hstep
      obtain ⟨-, -, hdelay, hout⟩ := scanEvents_effect h events
      have hle := h.delay
      simp only [Unchanged, State.Disabled, OffWhileCounting, hdelay, hout]
      constructor
      · rintro ⟨hun, hdis⟩ hpos axis
        by_cases hone : s.outputEnableDelay = 1
        · rw [hun hone axis, hgood.2 hpos axis]
        · rw [← hdis (by omega) axis, if_pos (by omega)]
      · intro hoff
        refine ⟨fun hone axis => ?_, fun hpos axis => ?_⟩
        · rw [hoff (by omega) axis, hgood.2 (by omega) axis]
        · rw [if_pos (by omega), hoff (by omega) axis]
  | writeEnable axis value =>
      cases hstep
      obtain ⟨-, -, hdelay, hout⟩ := writeEnable_effect h axis value
      simp only [Unchanged, State.Disabled, OffWhileCounting, hdelay, hout, true_and, iff_true]
      intro hpos a
      rw [if_neg (by omega), hgood.2 hpos a]
  | writeLoopback axis value =>
      cases hstep
      obtain ⟨-, -, hdelay, hout⟩ := writeLoopback_effect h axis value
      simp only [Unchanged, State.Disabled, OffWhileCounting, hdelay, hout, true_and, iff_true]
      exact hgood.2

theorem correct_init (h : program.init s) : Consistent s ∧ s.Settled ∧ s.Disabled := by
  obtain ⟨restored, rfl⟩ := h
  obtain ⟨hcons, hdelay, hout⟩ := initial_effect restored
  exact ⟨hcons, fun hzero => absurd (hdelay.symm.trans hzero) (by simp), fun _ => hout⟩

section runs
variable {s' : State} {l : List (State × Input × Unit)}

/-- No write is lost exactly if the second call finds the values of the first. -/
theorem settled_iff (hinit : program.init s) (hp : Runs.Path program.system s l s') :
    Runs.Always State.Settled l s' ↔ ∀ x ∈ l, Unchanged x.1 x.2 :=
  hp.always_iff (I := Consistent) (fun _ _ _ h hstep => consistent_step h hstep)
    (fun _ _ _ h hsettled hstep => settled_step h hsettled hstep)
    (correct_init hinit).1 (correct_init hinit).2.1

/-- The outputs are off while the program counts, and what the records have from then on, exactly if
every record is Off at each of the two calls that count. -/
theorem output_enable_iff (hinit : program.init s) (hp : Runs.Path program.system s l s') :
    Runs.Always (fun s => s.Settled ∧ s.Disabled) l s' ↔ ∀ x ∈ l, OffWhileCounting x.1 x.2 :=
  hp.always_iff (I := Consistent) (fun _ _ _ h hstep => consistent_step h hstep)
    (fun _ _ _ h hgood hstep => correct_step h hgood hstep)
    (correct_init hinit).1 (correct_init hinit).2

end runs

/-- No events. -/
def noEvents : Axis → DacEvents := fun _ => ⟨false, false, false, false, false⟩

/-- With everything Off until the program has counted, a later write reaches the hardware. -/
theorem output_enable_late_write :
    Runs.Always (fun s => s.Settled ∧ s.Disabled)
      (program.trace (State.initial fun _ => false)
        [.scanEvents noEvents, .scanEvents noEvents, .writeEnable 0 true])
      (program.after (State.initial fun _ => false)
        [.scanEvents noEvents, .scanEvents noEvents, .writeEnable 0 true]) :=
  (output_enable_iff ⟨_, rfl⟩ (program.path_trace _ _)).mpr (by
    intro x hx
    simp only [Runs.Machine.trace, Runs.Machine.replay, program, Option.map_some,
      Option.getD_some, List.mem_cons, List.not_mem_nil, or_false] at hx
    rcases hx with rfl | rfl | rfl
    · intro _ axis
      revert axis
      decide
    · intro _ axis
      revert axis
      decide
    · trivial)

/-- A write between the two calls does not reach the hardware. -/
theorem output_enable_lost_write :
    ¬ ∀ restored inputs, Runs.Always (fun s => s.Settled ∧ s.Disabled)
      (program.trace (State.initial restored) inputs)
      (program.after (State.initial restored) inputs) := by
  intro h
  have hend := (h (fun _ => false)
    [.scanEvents noEvents, .writeEnable 0 true, .scanEvents noEvents]).2.1 (by decide) 0
  exact absurd hend (by decide)

end Mbf.Dac
