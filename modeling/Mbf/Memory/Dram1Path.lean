import Mathlib.Data.BitVec
import Mathlib.Data.List.FinRange
import Mbf.Lib.Elastic
import Mbf.Lib.Literals

/-! # The write path of the second memory

The detectors of each channel write to DRAM1.  A priority multiplexer, `memory_mux_priority`, takes a
beat of one channel at a time and a row of buffers, `memory_buffer`, carries it to the memory
controller.  `dsp_control_top` marks each address with the channel it comes from.

The multiplexer with its buffers is a row of elastic circuits.  It captures a beat one clock before
it acknowledges it, so each channel has to hold what it offers; then what has left for a channel,
with what is still in the path, is what the channel has been relieved of, and the beat that is being
acknowledged (`dram1_path`). -/

namespace Mbf.Memory.Dram1

open Clocked Streams

/-! ### `memory_buffer` -/

section buffers
variable {β : Type*}

/-- `memory_buffer_fast`, with the registers that its state uses. -/
inductive MemoryBufferFast (β : Type*) where
  | empty
  | half (outputData : β)
  | full (outputData fullData : β)
deriving DecidableEq, Repr

namespace MemoryBufferFast

def inputReady : MemoryBufferFast β → Bool
  | empty => true
  | half _ => true
  | full _ _ => false

/-- What is offered: `output_data_o` and `output_addr_o` when `output_valid_o` is set. -/
def output : MemoryBufferFast β → Option β
  | empty => none
  | half outputData => some outputData
  | full outputData _ => some outputData

def clock (input : Option β) (outputReady : Bool) : MemoryBufferFast β → MemoryBufferFast β
  | empty =>
      match input with
      | none => empty
      | some inputData => half inputData
  | half outputData =>
      match input, outputReady with
      | none, false => half outputData
      | none, true => empty
      | some inputData, false => full outputData inputData
      | some inputData, true => half inputData
  | full outputData fullData => if outputReady then half fullData else full outputData fullData

def stage : Stage β (MemoryBufferFast β) where
  ready := inputReady
  out := output
  clock := clock
  contents
    | empty => []
    | half outputData => [outputData]
    | full outputData fullData => [outputData, fullData]
  conserves input taken s := by
    cases s <;> cases input <;> cases taken <;> rfl
  keeps input s x h := by
    cases s with
    | empty => cases h
    | half _ => cases input <;> exact h
    | full _ _ => exact h
  makesRoom input s h := by
    cases s with
    | empty => cases h
    | half _ => cases h
    | full _ _ => rfl
  offers s h := by
    cases s with
    | empty => rfl
    | half _ => cases h
    | full _ _ => cases h

end MemoryBufferFast

/-- `memory_buffer_simple`. -/
inductive MemoryBufferSimple (β : Type*) where
  | empty
  | full (outputData : β)
deriving DecidableEq, Repr

namespace MemoryBufferSimple

def inputReady : MemoryBufferSimple β → Bool
  | empty => true
  | full _ => false

def output : MemoryBufferSimple β → Option β
  | empty => none
  | full outputData => some outputData

def clock (input : Option β) (outputReady : Bool) : MemoryBufferSimple β → MemoryBufferSimple β
  | empty =>
      match input with
      | none => empty
      | some inputData => full inputData
  | full outputData => if outputReady then empty else full outputData

def stage : Stage β (MemoryBufferSimple β) where
  ready := inputReady
  out := output
  clock := clock
  contents
    | empty => []
    | full outputData => [outputData]
  conserves input taken s := by
    cases s <;> cases input <;> cases taken <;> rfl
  keeps input s x h := by
    cases s with
    | empty => cases h
    | full _ => exact h
  makesRoom input s h := by
    cases s with
    | empty => cases h
    | full _ => rfl
  offers s h := by
    cases s with
    | empty => rfl
    | full _ => cases h

end MemoryBufferSimple

/-- One buffer of a row. -/
abbrev Buffer (β : Type*) := MemoryBufferFast β ⊕ MemoryBufferSimple β

/-- The buffers do as their kind. -/
abbrev buffer : Stage β (Buffer β) := MemoryBufferFast.stage.sum MemoryBufferSimple.stage

/-- The buffers that `memory_buffer` generates, at power up. -/
def memoryBuffer (length : ℕ) (doubleBuffer : Bool) : List (Buffer β) :=
  List.replicate length (if doubleBuffer then .inl .empty else .inr .empty)

end buffers

/-! ### `memory_mux_priority` -/

section mux
variable {β : Type*} {channels : ℕ}

inductive OutState where
  | idle
  | busy
deriving DecidableEq, Repr

/-- `memory_mux_priority`; the output registers have no initial value. -/
structure MemoryMuxPriority (channels : ℕ) (β : Type*) where
  inputReady : Fin channels → Bool := fun _ => false
  outState : OutState := .idle
  /-- `data_o` and `addr_o`. -/
  output : β

namespace MemoryMuxPriority

/-- `priority_select` with the beat that is selected: the first input that is valid. -/
def select (inputs : Fin channels → Option β) : Option (Fin channels × β) :=
  (List.finRange channels).findSome? fun c => (inputs c).map (c, ·)

def outputValid (s : MemoryMuxPriority channels β) : Bool := s.outState = .busy

def clock (inputs : Fin channels → Option β) (outputReady : Bool)
    (s : MemoryMuxPriority channels β) : MemoryMuxPriority channels β :=
  match s.outState with
  | .idle =>
      match select inputs with
      | none => s
      | some (selection, beat) =>
          { inputReady := fun n => n = selection, outState := .busy, output := beat }
  | .busy =>
      { s with inputReady := fun _ => false, outState := if outputReady then .idle else .busy }

/-- What is offered. -/
def offered (s : MemoryMuxPriority channels β) : Option β :=
  if s.outputValid then some s.output else none

end MemoryMuxPriority

/-- The multiplexer, and the buffers after it. -/
structure Path (channels : ℕ) (β : Type*) where
  mux : MemoryMuxPriority channels β
  buffers : List (Buffer β)

/-- What the channels offer, and whether the memory controller is ready. -/
structure Inputs (channels : ℕ) (β : Type*) where
  inputs : Fin channels → Option β
  ready : Bool

namespace Path

def clock (i : Inputs channels β) (s : Path channels β) : Path channels β where
  mux := s.mux.clock i.inputs (chainReady buffer i.ready s.buffers)
  buffers := chain buffer s.mux.offered i.ready s.buffers

/-- A row of `memory_buffer` entities with these generics, at power up. -/
def powerUp (output : β) (buffers : List (ℕ × Bool)) : Path channels β where
  mux := { output }
  buffers := buffers.flatMap fun generics => memoryBuffer generics.1 generics.2

/-- The beats in the path, the oldest first. -/
def contents (s : Path channels β) : List β :=
  chainContents buffer s.buffers ++ s.mux.offered.toList

end Path

/-! ### The multiplexer -/

namespace MemoryMuxPriority

theorem of_select {inputs : Fin channels → Option β} {c : Fin channels} {x : β}
    (h : select inputs = some (c, x)) : inputs c = some x := by
  obtain ⟨c', -, hc⟩ := List.exists_of_findSome?_eq_some h
  obtain ⟨x', hx, heq⟩ := Option.map_eq_some_iff.mp hc
  cases heq
  exact hx

/-- The multiplexer as a simple buffer behind the selection. -/
def asBuffer (s : MemoryMuxPriority channels β) : MemoryBufferSimple β :=
  match s.outState with
  | .idle => .empty
  | .busy => .full s.output

theorem asBuffer_output (s : MemoryMuxPriority channels β) : s.asBuffer.output = s.offered := by
  cases hstate : s.outState <;>
    simp [asBuffer, offered, outputValid, hstate, MemoryBufferSimple.output]

theorem asBuffer_clock (inputs : Fin channels → Option β) (ready : Bool)
    (s : MemoryMuxPriority channels β) :
    (s.clock inputs ready).asBuffer =
      s.asBuffer.clock ((select inputs).map Prod.snd) ready := by
  unfold clock
  cases hstate : s.outState with
  | idle =>
      cases hselect : select inputs with
      | none => simp [asBuffer, hstate, MemoryBufferSimple.clock]
      | some r => simp [asBuffer, hstate, MemoryBufferSimple.clock]
  | busy => cases ready <;> simp [asBuffer, hstate, MemoryBufferSimple.clock]

end MemoryMuxPriority

section run
variable {s : Path channels β} {i : ℕ → Inputs channels β}

/-- What a channel offers, and when it is acknowledged. -/
def inputLink (s : Path channels β) (i : ℕ → Inputs channels β) (c : Fin channels) : Link β where
  offered n := (i n).inputs c
  ready n := (run Path.clock s i n).mux.inputReady c

/-- What the multiplexer captures. -/
def captureLink (s : Path channels β) (i : ℕ → Inputs channels β) : Link β where
  offered n := (MemoryMuxPriority.select (i n).inputs).map Prod.snd
  ready n := (run Path.clock s i n).mux.asBuffer.inputReady

/-- What leaves the path. -/
def outputLink (s : Path channels β) (i : ℕ → Inputs channels β) : Link β where
  offered n :=
    chainOut buffer (run Path.clock s i n).mux.offered (run Path.clock s i n).buffers
  ready n := (i n).ready

/-- Between the multiplexer and the buffers. -/
def muxLink (s : Path channels β) (i : ℕ → Inputs channels β) : Link β where
  offered n := (run Path.clock s i n).mux.offered
  ready n := chainReady buffer (i n).ready (run Path.clock s i n).buffers

theorem joins_mux (s : Path channels β) (i : ℕ → Inputs channels β) :
    MemoryBufferSimple.stage.Joins (captureLink s i) (muxLink s i)
      fun n => (run Path.clock s i n).mux.asBuffer where
  ready _ := rfl
  offered _ := (MemoryMuxPriority.asBuffer_output _).symm
  clock _ := MemoryMuxPriority.asBuffer_clock _ _ _

theorem elastic_buffers (s : Path channels β) (i : ℕ → Inputs channels β) :
    Elastic (muxLink s i) (outputLink s i)
      fun n => chainContents buffer (run Path.clock s i n).buffers :=
  elastic_chain buffer (fun _ => rfl) (fun _ => rfl) (fun _ => rfl)

/-- From the capture of a beat on, the path is elastic. -/
theorem elastic_path (s : Path channels β) (i : ℕ → Inputs channels β) :
    Elastic (captureLink s i) (outputLink s i) fun n => (run Path.clock s i n).contents := by
  have hcontents : ∀ mux : MemoryMuxPriority channels β,
      MemoryBufferSimple.stage.contents mux.asBuffer = mux.offered.toList := by
    intro mux
    rw [← mux.asBuffer_output]
    cases mux.asBuffer <;> rfl
  have hpath := (joins_mux s i).elastic.trans (elastic_buffers s i)
  simp only [hcontents] at hpath
  exact hpath

/-- The beat that is being acknowledged to a channel. -/
def MemoryMuxPriority.acknowledged (s : MemoryMuxPriority channels β) (c : Fin channels) :
    List β := if s.inputReady c then [s.output] else []

/-- The multiplexer acknowledges what it offers, which the channel still offers as well. -/
def Acknowledges (s : MemoryMuxPriority channels β) (inputs : Fin channels → Option β) : Prop :=
  ∀ c, s.inputReady c = true → s.outState = .busy ∧ inputs c = some s.output

/-- A beat is captured on one clock, and acknowledged on the next. -/
theorem acknowledged_clock {channel : β → Fin channels} {mux : MemoryMuxPriority channels β}
    {inputs inputs' : Fin channels → Option β} (ready : Bool)
    (hchannel : ∀ c x, inputs c = some x → channel x = c) (hack : Acknowledges mux inputs)
    (hkeeps : ∀ c x, inputs c = some x → mux.inputReady c = false → inputs' c = some x) :
    Acknowledges (mux.clock inputs ready) inputs' ∧
    ∀ c, mux.acknowledged c ++ (if mux.asBuffer.inputReady then
        ((MemoryMuxPriority.select inputs).map Prod.snd).toList else []).filter (channel · = c) =
      (if mux.inputReady c then (inputs c).toList else []) ++
        (mux.clock inputs ready).acknowledged c := by
  unfold MemoryMuxPriority.clock MemoryMuxPriority.asBuffer
  cases hstate : mux.outState with
  | idle =>
      have hquiet : ∀ c, mux.inputReady c = false := by
        intro c
        by_contra hc
        have hbusy := (hack c (Bool.eq_true_of_not_eq_false hc)).1
        rw [hstate] at hbusy
        cases hbusy
      cases hselect : MemoryMuxPriority.select inputs with
      | none =>
          refine ⟨fun c hc => ?_, fun c => ?_⟩
          · rw [hquiet] at hc
            cases hc
          · simp [MemoryMuxPriority.acknowledged, hquiet]
      | some r =>
          obtain ⟨selection, x⟩ := r
          have hx := MemoryMuxPriority.of_select hselect
          refine ⟨fun c hc => ?_, fun c => ?_⟩
          · have hc : c = selection := of_decide_eq_true hc
            exact ⟨rfl, hc ▸ hkeeps selection x hx (hquiet selection)⟩
          · have hchannelx := hchannel selection x hx
            by_cases hc : c = selection
            · simp [MemoryMuxPriority.acknowledged, MemoryBufferSimple.inputReady, hquiet, hc,
                hchannelx]
            · have hne : ¬ selection = c := fun h => hc h.symm
              simp [MemoryMuxPriority.acknowledged, MemoryBufferSimple.inputReady, hquiet, hc,
                hchannelx, hne]
  | busy =>
      refine ⟨fun c hc => Bool.noConfusion hc, fun c => ?_⟩
      cases hc : mux.inputReady c with
      | false => simp [MemoryMuxPriority.acknowledged, MemoryBufferSimple.inputReady, hc]
      | true =>
          have hx := (hack c hc).2
          simp [MemoryMuxPriority.acknowledged, MemoryBufferSimple.inputReady, hc, hx]

/-- What has been captured of a channel is what it has been relieved of, and what is being
acknowledged. -/
theorem captured_filter {channel : β → Fin channels}
    (hchannel : ∀ n c x, (i n).inputs c = some x → channel x = c)
    (hkeeps : ∀ c, (inputLink s i c).Keeps) (hquiet : ∀ c, s.mux.inputReady c = false) (n : ℕ) :
    Acknowledges (run Path.clock s i n).mux (i n).inputs ∧
    ∀ c, ((captureLink s i).sent n).filter (channel · = c) =
      (inputLink s i c).sent n ++ (run Path.clock s i n).mux.acknowledged c := by
  induction n with
  | zero =>
      refine ⟨fun c hc => ?_, fun c => ?_⟩
      · have hready : s.mux.inputReady c = true := hc
        rw [hquiet] at hready
        cases hready
      · simp [Link.sent, MemoryMuxPriority.acknowledged, run, hquiet c]
  | succ n ih =>
      obtain ⟨hack, hsent⟩ := ih
      obtain ⟨hack', hclock⟩ := acknowledged_clock
        (chainReady buffer (i n).ready (run Path.clock s i n).buffers) (hchannel n) hack
        fun c x hx hready => hkeeps c n x hx hready
      refine ⟨hack', fun c => ?_⟩
      rw [Link.sent, Link.sent, List.filter_append, hsent, List.append_assoc, List.append_assoc]
      exact congrArg _ (hclock c)

end run
end mux

/-! ### `dsp_control_top` -/

section top
variable {a d : ℕ}

/-- A beat of the write path. -/
structure Beat (a d : ℕ) where
  address : BitVec a
  data : BitVec d
deriving DecidableEq, Repr

/-- `dsp_dram1_address` and `dsp_dram1_data`: the top bit of the address is the channel. -/
def dspDram1 (c : Fin 2) (x : Beat a d) : Beat (a + 1) d where
  address := .cons (c = 1) x.address
  data := x.data

/-- The channel that a beat comes from. -/
def channelOf (x : Beat (a + 1) d) : Fin 2 := if x.address.msb then 1 else 0

/-- The beats that come from a channel, as the channel has offered them. -/
def ofChannel (c : Fin 2) (beats : List (Beat (a + 1) d)) : List (Beat a d) :=
  (beats.filter (channelOf · = c)).map fun x => ⟨x.address.setWidth a, x.data⟩

/-- The write path with its surroundings. -/
structure WritePath (a d : ℕ) where
  /-- `LENGTH` and `DOUBLE_BUFFER` of each `memory_buffer` in the path. -/
  buffers : List (ℕ × Bool)
  /-- What the output registers of the multiplexer hold at power up. -/
  output : Beat (a + 1) d
  /-- What each channel offers on each clock. -/
  inputs : ℕ → Fin 2 → Option (Beat a d)
  /-- `dram1_data_ready_i` on each clock. -/
  ready : ℕ → Bool

namespace WritePath

/-- The path before the clock `n`. -/
def registers (w : WritePath a d) (n : ℕ) : Path 2 (Beat (a + 1) d) :=
  run Path.clock (Path.powerUp w.output w.buffers)
    (fun n => ⟨fun c => (w.inputs n c).map (dspDram1 c), w.ready n⟩) n

/-- The beats of a channel, `dram1_valid` and `dram1_ready`. -/
def channel (w : WritePath a d) (c : Fin 2) : Link (Beat a d) where
  offered n := w.inputs n c
  ready n := (w.registers n).mux.inputReady c

/-- The beats that leave for the memory controller. -/
def memory (w : WritePath a d) : Link (Beat (a + 1) d) where
  offered n := chainOut buffer (w.registers n).mux.offered (w.registers n).buffers
  ready := w.ready

end WritePath

theorem channelOf_dspDram1 (c : Fin 2) (x : Beat a d) : channelOf (dspDram1 c x) = c := by
  unfold channelOf dspDram1
  rw [BitVec.msb_cons]
  revert c
  decide

theorem ofChannel_append (c : Fin 2) (beats beats' : List (Beat (a + 1) d)) :
    ofChannel c (beats ++ beats') = ofChannel c beats ++ ofChannel c beats' := by
  unfold ofChannel
  rw [List.filter_append, List.map_append]

theorem ofChannel_mono (c : Fin 2) {beats beats' : List (Beat (a + 1) d)}
    (h : beats <+: beats') : ofChannel c beats <+: ofChannel c beats' := by
  obtain ⟨rest, rfl⟩ := h
  rw [ofChannel_append]
  exact List.prefix_append _ _

theorem ofChannel_filter (c : Fin 2) (beats : List (Beat (a + 1) d)) :
    ofChannel c (beats.filter (channelOf · = c)) = ofChannel c beats := by
  unfold ofChannel
  rw [List.filter_filter]
  simp only [Bool.and_self]

/-- A channel gets its own beats back. -/
theorem ofChannel_map (c : Fin 2) (beats : List (Beat a d)) :
    ofChannel c (beats.map (dspDram1 c)) = beats := by
  unfold ofChannel
  rw [List.filter_eq_self.mpr, List.map_map]
  · conv_rhs => rw [← List.map_id beats]
    refine List.map_congr_left fun x _ => ?_
    simp [dspDram1]
  · intro x hx
    obtain ⟨y, -, rfl⟩ := List.mem_map.mp hx
    exact decide_eq_true (channelOf_dspDram1 c y)

/-- At power up there is no beat in the path. -/
theorem contents_powerUp {β : Type*} {channels : ℕ} (output : β) (buffers : List (ℕ × Bool)) :
    (Path.powerUp output buffers : Path channels β).contents = [] := by
  have hempty : chainContents buffer
      (buffers.flatMap fun generics => memoryBuffer (β := β) generics.1 generics.2) = [] := by
    refine chainContents_eq_nil buffer fun s hs => ?_
    obtain ⟨generics, -, hs⟩ := List.mem_flatMap.mp hs
    obtain ⟨-, rfl⟩ := List.mem_replicate.mp hs
    split_ifs <;> rfl
  unfold Path.contents Path.powerUp
  rw [hempty]
  rfl

/-- **The write path of DRAM1**: what has left for the memory, with what is still in the path, is
for each channel what the channel has been relieved of, in order, and the beat that is being
acknowledged to it.  A beat that is offered to the memory stays until it is taken, and as long as
the memory is ready again and again every beat arrives. -/
theorem dram1_path (w : WritePath a d) (hkeeps : ∀ c, (w.channel c).Keeps) :
    (∀ n c, ofChannel c (w.memory.sent n ++ (w.registers n).contents) =
      (w.channel c).sent n ++ ofChannel c ((w.registers n).mux.acknowledged c)) ∧
    w.memory.Keeps ∧
    (Recurs (fun n => w.ready n = true) →
      ∀ n c, ∃ m, (w.channel c).sent n <+: ofChannel c (w.memory.sent m)) := by
  let s : Path 2 (Beat (a + 1) d) := Path.powerUp w.output w.buffers
  let i : ℕ → Inputs 2 (Beat (a + 1) d) :=
    fun n => ⟨fun c => (w.inputs n c).map (dspDram1 c), w.ready n⟩
  have hlink : ∀ c, inputLink s i c = (w.channel c).map (dspDram1 c) := fun _ => rfl
  have hpath := elastic_path s i
  have hempty : (run Path.clock s i 0).contents = [] := contents_powerUp _ _
  have hchannel : ∀ n c x, (i n).inputs c = some x → channelOf x = c := by
    intro n c x hx
    obtain ⟨y, -, rfl⟩ := Option.map_eq_some_iff.mp hx
    exact channelOf_dspDram1 c y
  have hcaptured : ∀ n c, ofChannel c ((captureLink s i).sent n) =
      (w.channel c).sent n ++ ofChannel c ((w.registers n).mux.acknowledged c) := by
    intro n c
    have hfilter := (captured_filter hchannel (fun c => hlink c ▸ (hkeeps c).map _)
      (fun _ => rfl) n).2 c
    rw [← ofChannel_filter, hfilter, ofChannel_append, hlink, Link.sent_map, ofChannel_map]
    rfl
  refine ⟨fun n c => ?_, (elastic_buffers s i).keeps (joins_mux s i).keeps, fun hready n c => ?_⟩
  · have hsent := Link.sent_append (fun n => (run Path.clock s i n).contents) hpath.conserves n
    rw [hempty, List.nil_append] at hsent
    exact (congrArg (ofChannel c) hsent).trans (hcaptured n c)
  · obtain ⟨m, hm⟩ := hpath.exists_sent hready n
    rw [hempty, List.nil_append] at hm
    refine ⟨m, List.IsPrefix.trans ?_ (ofChannel_mono c hm)⟩
    rw [hcaptured]
    exact List.prefix_append _ _

/-- Both channels have a beat for the same address on the same clock. -/
theorem dram1_path_both :
    let w : WritePath 2 2 := {
      buffers := [(2, false), (1, true)]
      output := ⟨0, 0⟩
      inputs := fun n c =>
        if n < 2 ∧ c = 0 then some ⟨1, 2⟩ else if n < 4 ∧ c = 1 then some ⟨1, 3⟩ else none
      ready := fun _ => true }
    w.memory.sent 8 = [⟨1, 2⟩, ⟨5, 3⟩] ∧
      (∀ n c, ofChannel c (w.memory.sent n ++ (w.registers n).contents) =
        (w.channel c).sent n ++ ofChannel c ((w.registers n).mux.acknowledged c)) ∧
      ∀ n c, ∃ m, (w.channel c).sent n <+: ofChannel c (w.memory.sent m) := by
  intro w
  have hkeeps : ∀ c, (w.channel c).Keeps := by
    intro c n x hx hready
    by_cases hn : n < 4
    · have hearly : ∀ n < 4, ∀ c, (w.inputs n c).isSome = true → (w.channel c).ready n = false →
          w.inputs (n + 1) c = w.inputs n c := by decide +kernel
      exact (hearly n hn c (Option.isSome_of_eq_some hx) hready).trans hx
    · have hnone : w.inputs n c = none := by
        simp only [w]
        rw [if_neg (by omega), if_neg (by omega)]
      rw [show w.inputs n c = some x from hx] at hnone
      cases hnone
  obtain ⟨hall, -, harrive⟩ := dram1_path w hkeeps
  exact ⟨by decide +kernel, hall, harrive fun n => ⟨n, le_rfl, rfl⟩⟩

end top

end Mbf.Memory.Dram1
