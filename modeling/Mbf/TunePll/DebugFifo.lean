import Mathlib.Data.List.Sublists
import Mbf.Memory.MemoryFifo

/-! # The debug readout of the Tune PLL

A sample of the detector or of the CORDIC is written to the debug FIFO as two words, on one clock
after the other.  The software takes what it reads from the FIFO for such pairs.

When the FIFO is reset `tune_pll_readout_fifo.vhd` waits for the next word that is written, whether
or not that is the first of its sample: the input `start_i`, which says so, is not looked at.  A
reset on the clock before a first word therefore drops this word alone (`first_word_dropped`).  A
run in which this does not happen, and in which the FIFO takes first words only if there is room
for the second, delivers whole samples (`debug_fifo_aligned`). -/

namespace Mbf.TunePll

open Memory Memory.MemoryFifo

/-! ### The readout FIFO -/

inductive TunePllReadoutFifo.RunState where
  | running
  | overrun
  | delay
  | starting
  deriving DecidableEq

/-- The registers of `tune_pll_readout_fifo`, where `n` is `READOUT_FIFO_BITS`. -/
structure TunePllReadoutFifo (n : ℕ) where
  fifo : MemoryFifo n Sample
  runState : TunePllReadoutFifo.RunState
  readError : Bool
  interruptEnabled : Bool
  interrupt : Bool

/-- What `tune_pll_readout_fifo` sees on a clock. -/
structure ReadoutFifoInput where
  data : Sample
  write : Bool
  start : Bool
  read : Bool
  resetOverrun : Bool
  resetReadError : Bool
  enableInterrupt : Bool

namespace TunePllReadoutFifo

variable {n : ℕ}

/-- Words are taken. -/
def active (s : TunePllReadoutFifo n) : Bool := s.runState = .running || s.runState = .starting

/-- What the FIFO in block memory sees. -/
def fifoInput (i : ReadoutFifoInput) (s : TunePllReadoutFifo n) : FifoInput Sample where
  writeValid := i.write && s.fifo.writeReady && s.active
  writeData := i.data
  readReady := s.fifo.readValid && i.read
  resetFifo := i.resetOverrun

/-- One of the top two bits of the depth. -/
def fifoHalfFull (s : TunePllReadoutFifo n) : Bool :=
  s.fifo.fifoDepth.getLsbD n || s.fifo.fifoDepth.getLsbD (n - 1)

/-- The process of `tune_pll_readout_fifo`. -/
def clock (i : ReadoutFifoInput) (s : TunePllReadoutFifo n) : TunePllReadoutFifo n where
  fifo := MemoryFifo.clock (s.fifoInput i) s.fifo
  runState :=
    match s.runState with
    | .running =>
        if i.resetOverrun then .delay
        else if i.write && !s.fifo.writeReady then .overrun
        else .running
    | .overrun => if i.resetOverrun then .delay else .overrun
    | .delay => .starting
    | .starting => if i.write then .running else .starting
  readError :=
    if i.read && !s.fifo.readValid then true
    else if i.resetReadError then false
    else s.readError
  interruptEnabled :=
    if i.read then false else if i.enableInterrupt then true else s.interruptEnabled
  interrupt := s.interruptEnabled && (s.fifoHalfFull || s.runState = .overrun)

end TunePllReadoutFifo

/-! ### The debug data -/

/-- The registers of `tune_pll_readout` that feed the debug FIFO. -/
structure DebugReadout (n : ℕ) where
  debugDone1 : Bool
  debugDone2 : Bool
  cosDataIn : Sample
  sinDataIn : Sample
  debugDataIn : Sample
  debugWrite : Bool
  debugFifo : TunePllReadoutFifo n

/-- What `tune_pll_readout` sees on a clock. -/
structure DebugInput where
  captureCordic : Bool
  cordicDone : Bool
  phase : BitVec 18
  magnitude : Sample
  detectorDone : Bool
  cos : Sample
  sin : Sample
  readDebugData : Bool
  resetDebugFifo : Bool
  resetReadError : Bool
  enableDebugInterrupt : Bool

/-- The sample that is selected. -/
def DebugInput.sample (i : DebugInput) : Sample × Sample :=
  if i.captureCordic then (i.phase ++ 0#14, i.magnitude) else (i.cos, i.sin)

def DebugInput.done (i : DebugInput) : Bool :=
  if i.captureCordic then i.cordicDone else i.detectorDone

namespace DebugReadout

variable {n : ℕ}

/-- What the debug FIFO sees. -/
def port (i : DebugInput) (s : DebugReadout n) : ReadoutFifoInput where
  data := s.debugDataIn
  write := s.debugWrite
  start := s.debugDone2
  read := i.readDebugData
  resetOverrun := i.resetDebugFifo
  resetReadError := i.resetReadError
  enableInterrupt := i.enableDebugInterrupt

/-- The process of `tune_pll_readout`. -/
def clock (i : DebugInput) (s : DebugReadout n) : DebugReadout n where
  debugDone1 := i.done
  cosDataIn := i.sample.1
  sinDataIn := i.sample.2
  debugDone2 := s.debugDone1
  debugDataIn :=
    if s.debugDone1 then s.cosDataIn
    else if s.debugDone2 then s.sinDataIn
    else s.debugDataIn
  debugWrite := s.debugDone1 || s.debugDone2
  debugFifo := s.debugFifo.clock (s.port i)

/-- The registers after power up; the data registers hold anything. -/
def powerUp (fifo : BitVec n → Sample) (writeData readData cosDataIn sinDataIn debugDataIn : Sample) :
    DebugReadout n where
  debugDone1 := false
  debugDone2 := false
  cosDataIn
  sinDataIn
  debugDataIn
  debugWrite := false
  debugFifo := {
    fifo := MemoryFifo.powerUp fifo writeData readData
    runState := .running
    readError := false
    interruptEnabled := false
    interrupt := false }

/-- What the FIFO in block memory sees. -/
def fifoInput (i : DebugInput) (s : DebugReadout n) : FifoInput Sample :=
  s.debugFifo.fifoInput (s.port i)

/-! ### What an observer notes -/

/-- The circuit with what it has done since the last reset. -/
structure Observed (n : ℕ) where
  circuit : DebugReadout n
  /-- The samples that have come from the detector or the CORDIC. -/
  samples : List (Sample × Sample)
  /-- The words that the FIFO has taken. -/
  accepted : List Sample
  /-- The words that have been read. -/
  delivered : List Sample

def Observed.clock (i : DebugInput) (o : Observed n) : Observed n where
  circuit := o.circuit.clock i
  samples :=
    (if i.resetDebugFifo then [] else o.samples) ++ if i.done then [i.sample] else []
  accepted :=
    if i.resetDebugFifo then []
    else o.accepted ++ o.circuit.debugFifo.fifo.written (o.circuit.fifoInput i)
  delivered :=
    if i.resetDebugFifo then []
    else o.delivered ++ o.circuit.debugFifo.fifo.read (o.circuit.fifoInput i)

/-- The words of samples. -/
def words (samples : List (Sample × Sample)) : List Sample := samples.flatMap fun c => [c.1, c.2]

/-- The pairs of the words, as the software takes them: `process_debug_fifo`. -/
def pairs : List Sample → List (Sample × Sample)
  | a :: b :: rest => (a, b) :: pairs rest
  | _ => []

/-! ### What a clock does -/

theorem runState_delay {s : TunePllReadoutFifo n} {i : ReadoutFifoInput}
    (h : (s.clock i).runState = .delay) : i.resetOverrun = true := by
  by_contra hreset
  unfold TunePllReadoutFifo.clock at h
  cases hstate : s.runState <;> simp [hstate, hreset] at h <;> split_ifs at h

theorem runState_starting {s : TunePllReadoutFifo n} {i : ReadoutFifoInput}
    (h : (s.clock i).runState = .starting) :
    s.runState = .delay ∨ s.runState = .starting ∧ i.write = false := by
  unfold TunePllReadoutFifo.clock at h
  cases hstate : s.runState with
  | running => simp only [hstate] at h; split_ifs at h
  | overrun => simp only [hstate] at h; split_ifs at h
  | delay => exact .inl rfl
  | starting =>
      refine .inr ⟨rfl, ?_⟩
      simp only [hstate] at h
      split_ifs at h with hwrite
      exact Bool.eq_false_iff.mpr hwrite

/-- The word that a clock takes. -/
theorem written_eq (s : DebugReadout n) (i : DebugInput) :
    s.debugFifo.fifo.written (s.fifoInput i) =
      if s.debugWrite && s.debugFifo.fifo.writeReady && s.debugFifo.active then [s.debugDataIn]
      else [] := by
  unfold written writeEnable fifoInput TunePllReadoutFifo.fifoInput port
  cases s.debugFifo.fifo.writeReady <;> simp

/-- The sample that is on its way to the FIFO. -/
def pipe (s : DebugReadout n) : List (Sample × Sample) :=
  if s.debugDone1 then [(s.cosDataIn, s.sinDataIn)] else []

theorem Observed.clock_reset {o : Observed n} {i : DebugInput} (h : i.resetDebugFifo = true) :
    o.clock i = ⟨o.circuit.clock i, (o.circuit.clock i).pipe, [], []⟩ := by
  unfold Observed.clock
  rw [h]
  rfl

theorem Observed.clock_of_not_reset {o : Observed n} {i : DebugInput}
    (h : i.resetDebugFifo = false) :
    o.clock i = ⟨o.circuit.clock i, o.samples ++ (o.circuit.clock i).pipe,
      o.accepted ++ o.circuit.debugFifo.fifo.written (o.circuit.fifoInput i),
      o.delivered ++ o.circuit.debugFifo.fifo.read (o.circuit.fifoInput i)⟩ := by
  unfold Observed.clock
  rw [h]
  rfl

/-- The state of the writer, where `older` are the samples that have been started or dropped. -/
inductive Stage (s : DebugReadout n) (older : List (Sample × Sample)) (accepted : List Sample) : Prop
  | idle (groups : List (Sample × Sample)) (hwrite : s.debugWrite = false)
      (hdone : s.debugDone2 = false) (hsub : groups.Sublist older)
      (haccepted : accepted = words groups)
  /-- The first word of the sample `c` is written. -/
  | first (groups before : List (Sample × Sample)) (c : Sample × Sample)
      (hwrite : s.debugWrite = true) (hdone : s.debugDone2 = true) (holder : older = before ++ [c])
      (hsub : groups.Sublist before) (haccepted : accepted = words groups)
      (hdata : s.debugDataIn = c.1) (hsin : s.sinDataIn = c.2)
      (hdelay : s.debugFifo.runState ≠ .delay)
      (hstart : s.debugFifo.runState = .starting → s.debugFifo.fifo.writeReady = true)
  /-- The second word is written, and the first has been taken. -/
  | half (groups : List (Sample × Sample)) (hwrite : s.debugWrite = true)
      (hdone : s.debugDone2 = false) (hsub : groups.Sublist older)
      (haccepted : accepted ++ [s.debugDataIn] = words groups)
      (hrun : s.debugFifo.runState = .running) (hready : s.debugFifo.fifo.writeReady = true)
  /-- The second word is written, and the first has been dropped. -/
  | skip (groups : List (Sample × Sample)) (hwrite : s.debugWrite = true)
      (hdone : s.debugDone2 = false) (hsub : groups.Sublist older)
      (haccepted : accepted = words groups)
      (hrun : s.debugFifo.active = false ∨ s.debugFifo.runState = .running ∧
        s.debugFifo.fifo.writeReady = false)

/-- The condition on a clock: the FIFO is not reset before a first word is written, a first word is
not on the clock of a second one, the second word is still there when it is taken over, and a first
word is taken only if there is room for the second. -/
structure Tidy (i : DebugInput) (s : DebugReadout n) : Prop where
  reset : i.resetDebugFifo = true → s.debugDone1 = false
  spaced : s.debugDone1 = true → s.debugDone2 = false
  held : s.debugDone1 = true → i.sample.2 = s.sinDataIn
  room : i.resetDebugFifo = false → s.debugDone2 = true → s.debugFifo.active = true →
    s.debugFifo.fifo.writeReady = true → s.debugFifo.fifo.nearlyFull = false

instance (i : DebugInput) (s : DebugReadout n) : Decidable (Tidy i s) :=
  decidable_of_iff
    ((i.resetDebugFifo = true → s.debugDone1 = false) ∧
      (s.debugDone1 = true → s.debugDone2 = false) ∧
      (s.debugDone1 = true → i.sample.2 = s.sinDataIn) ∧
      (i.resetDebugFifo = false → s.debugDone2 = true → s.debugFifo.active = true →
        s.debugFifo.fifo.writeReady = true → s.debugFifo.fifo.nearlyFull = false))
    ⟨fun ⟨hreset, hspaced, hheld, hroom⟩ => ⟨hreset, hspaced, hheld, hroom⟩,
      fun h => ⟨h.reset, h.spaced, h.held, h.room⟩⟩

/-- While a first word is written no other sample is on its way. -/
theorem Tidy.not_done {i : DebugInput} {s : DebugReadout n} (h : Tidy i s)
    (hdone : s.debugDone2 = true) : s.debugDone1 = false := by
  by_contra hne
  have hspaced := h.spaced (Bool.eq_true_of_not_eq_false hne)
  rw [hdone] at hspaced
  cases hspaced

/-- What holds all along. -/
structure Keeps (o : Observed n) : Prop where
  fifo : ∃ store, o.circuit.debugFifo.fifo.Holds store ∧
    o.accepted = o.delivered ++ o.circuit.debugFifo.fifo.held store
  /-- After a reset nothing is taken before the state is left. -/
  quiet : o.circuit.debugFifo.runState = .delay ∨ o.circuit.debugFifo.runState = .starting →
    o.accepted = []
  stage : ∃ older, o.samples = older ++ o.circuit.pipe ∧ Stage o.circuit older o.accepted

/-- A FIFO that has taken nothing is ready on the next clock. -/
theorem Keeps.writeReady {o : Observed n} (h : Keeps o) (hn : 0 < n) (hempty : o.accepted = [])
    {i : DebugInput} (hreset : i.resetDebugFifo = false) :
    (o.circuit.clock i).debugFifo.fifo.writeReady = true := by
  obtain ⟨store, hholds, haccepted⟩ := h.fifo
  rw [hempty] at haccepted
  have hheld := (List.append_eq_nil_iff.mp haccepted.symm).2
  have hstore : store = [] := by
    unfold held at hheld
    simp only [List.append_eq_nil_iff] at hheld
    exact hheld.1.2
  have hfull : o.circuit.debugFifo.fifo.full = false := by
    rw [← Bool.not_eq_true, hholds.full, hstore, List.length_nil]
    exact (Nat.two_pow_pos n).ne
  have hnearly : o.circuit.debugFifo.fifo.nearlyFull = false := by
    rw [← Bool.not_eq_true, hholds.nearlyFull_iff, hstore]
    intro hdvd
    have hle := Nat.le_of_dvd Nat.one_pos hdvd
    have hlt := Nat.one_lt_two_pow hn.ne'
    omega
  simp [clock, TunePllReadoutFifo.clock, TunePllReadoutFifo.fifoInput, port, MemoryFifo.clock,
    hreset, hfull, hnearly]

section

variable {o : Observed n} {i : DebugInput} {older groups : List (Sample × Sample)}
  {accepted : List Sample}

/-- The words of one more sample. -/
theorem words_concat (groups : List (Sample × Sample)) (c : Sample × Sample) :
    words (groups ++ [c]) = words groups ++ [c.1] ++ [c.2] := by
  unfold words
  rw [List.flatMap_append, List.flatMap_singleton, List.append_assoc]
  rfl

/-- After a clock on which no first word is written. -/
theorem Keeps.next_stage (h : Keeps o) (hn : 0 < n) (htidy : Tidy i o.circuit)
    (hreset : i.resetDebugFifo = false) (hdone : o.circuit.debugDone2 = false)
    (holder : o.samples = older ++ o.circuit.pipe) (hsub : groups.Sublist older)
    (haccepted : accepted = words groups) :
    Stage (o.circuit.clock i) o.samples accepted := by
  cases hdone1 : o.circuit.debugDone1 with
  | true =>
      rw [pipe, hdone1, if_pos rfl] at holder
      refine .first groups older _ ?_ hdone1 holder hsub haccepted ?_ (htidy.held hdone1) ?_ ?_
      · simp [clock, hdone1]
      · simp [clock, hdone1]
      · intro hdelay
        have hfalse := runState_delay hdelay
        rw [port, hreset] at hfalse
        cases hfalse
      · intro hstart
        refine h.writeReady hn (h.quiet ?_) hreset
        rcases runState_starting hstart with hdelay | ⟨hstarting, -⟩
        · exact .inl hdelay
        · exact .inr hstarting
  | false =>
      refine .idle groups ?_ hdone1 ?_ haccepted
      · simp [clock, hdone1, hdone]
      · rw [holder]
        exact hsub.trans (List.sublist_append_left _ _)

/-- After the clock on which a first word is written. -/
theorem Keeps.second_stage (htidy : Tidy i o.circuit) (hreset : i.resetDebugFifo = false)
    {before : List (Sample × Sample)} {c : Sample × Sample}
    (hfull : o.circuit.debugFifo.fifo.writeReady = true → o.circuit.debugFifo.fifo.full = false)
    (hwrite : o.circuit.debugWrite = true) (hdone : o.circuit.debugDone2 = true)
    (holder : o.samples = before ++ [c]) (hsub : groups.Sublist before)
    (haccepted : accepted = words groups) (hdata : o.circuit.debugDataIn = c.1)
    (hsin : o.circuit.sinDataIn = c.2) (hdelay : o.circuit.debugFifo.runState ≠ .delay)
    (hstart : o.circuit.debugFifo.runState = .starting →
      o.circuit.debugFifo.fifo.writeReady = true) :
    Stage (o.circuit.clock i) o.samples
      (accepted ++ o.circuit.debugFifo.fifo.written (o.circuit.fifoInput i)) := by
  have hdone1 := htidy.not_done hdone
  have hwrite' : (o.circuit.clock i).debugWrite = true := by simp [clock, hdone]
  have hdata' : (o.circuit.clock i).debugDataIn = c.2 := by simp [clock, hdone1, hdone, hsin]
  rw [written_eq, hwrite, Bool.true_and]
  cases htaken : o.circuit.debugFifo.fifo.writeReady && o.circuit.debugFifo.active with
  | true =>
      obtain ⟨hready, hactive⟩ := Bool.and_eq_true_iff.mp htaken
      have hroom := htidy.room hreset hdone hactive hready
      refine .half (groups ++ [c]) hwrite' hdone1 ?_ ?_ ?_ ?_
      · rw [holder]
        exact hsub.append_right [c]
      · rw [if_pos rfl, hdata, hdata', haccepted, words_concat]
      · have hstate : o.circuit.debugFifo.runState = .running ∨
            o.circuit.debugFifo.runState = .starting := by
          simpa [TunePllReadoutFifo.active] using hactive
        rcases hstate with hstate | hstate <;>
          simp [clock, TunePllReadoutFifo.clock, port, hstate, hreset, hwrite, hready]
      · simp [clock, TunePllReadoutFifo.clock, TunePllReadoutFifo.fifoInput, port,
          MemoryFifo.clock, hreset, hfull hready, hroom]
  | false =>
      rw [if_neg Bool.false_ne_true, List.append_nil]
      refine .skip groups hwrite' hdone1 ?_ haccepted (.inl ?_)
      · rw [holder]
        exact hsub.trans (List.sublist_append_left _ _)
      · cases hstate : o.circuit.debugFifo.runState with
        | running =>
            have hready : o.circuit.debugFifo.fifo.writeReady = false := by
              simpa [TunePllReadoutFifo.active, hstate] using htaken
            simp [clock, TunePllReadoutFifo.clock, TunePllReadoutFifo.active, port, hstate, hreset,
              hwrite, hready]
        | overrun =>
            simp [clock, TunePllReadoutFifo.clock, TunePllReadoutFifo.active, port, hstate, hreset]
        | delay => exact absurd hstate hdelay
        | starting =>
            simp [TunePllReadoutFifo.active, hstate, hstart hstate] at htaken

/-- After a reset the sample whose first word is being written is dropped. -/
theorem Keeps.reset_stage (h : Keeps o) (htidy : Tidy i o.circuit) (hreset : i.resetDebugFifo = true) :
    Stage (o.circuit.clock i) [] [] := by
  obtain ⟨older, -, hstage⟩ := h.stage
  have hdone1 := htidy.reset hreset
  have hidle : o.circuit.debugDone2 = false → Stage (o.circuit.clock i) [] [] := fun hdone =>
    .idle [] (by simp [clock, hdone1, hdone]) hdone1 (List.Sublist.refl _) rfl
  cases hstage with
  | idle _ _ hdone _ _ => exact hidle hdone
  | half _ _ hdone _ _ _ _ => exact hidle hdone
  | skip _ _ hdone _ _ _ => exact hidle hdone
  | first _ _ _ hwrite hdone _ _ _ _ _ hdelay _ =>
      refine .skip [] (by simp [clock, hdone]) hdone1 (List.Sublist.refl _) rfl ?_
      cases hstate : o.circuit.debugFifo.runState with
      | running =>
          left
          simp [clock, TunePllReadoutFifo.clock, TunePllReadoutFifo.active, port, hstate, hreset]
      | overrun =>
          left
          simp [clock, TunePllReadoutFifo.clock, TunePllReadoutFifo.active, port, hstate, hreset]
      | delay => exact absurd hstate hdelay
      | starting =>
          right
          simp [clock, TunePllReadoutFifo.clock, TunePllReadoutFifo.fifoInput, port,
            MemoryFifo.clock, hstate, hreset, hwrite]

/-- In the states after a reset nothing is taken. -/
theorem Keeps.quiet_clock (h : Keeps o) (hreset : i.resetDebugFifo = false)
    (hstate : (o.circuit.clock i).debugFifo.runState = .delay ∨
      (o.circuit.clock i).debugFifo.runState = .starting) :
    o.accepted ++ o.circuit.debugFifo.fifo.written (o.circuit.fifoInput i) = [] := by
  rw [written_eq]
  rcases hstate with hdelay | hstarting
  · have hfalse := runState_delay hdelay
    rw [port, hreset] at hfalse
    cases hfalse
  · rcases runState_starting hstarting with hdelay | ⟨hstarting, hwrite⟩
    · rw [h.quiet (.inl hdelay)]
      simp [TunePllReadoutFifo.active, hdelay]
    · have hwrite : o.circuit.debugWrite = false := hwrite
      rw [h.quiet (.inr hstarting), hwrite]
      rfl

/-- A clock that meets the condition. -/
theorem Keeps.clock (h : Keeps o) (hn : 0 < n) (htidy : Tidy i o.circuit) :
    Keeps (o.clock i) := by
  obtain ⟨store, hholds, hconserves⟩ := h.fifo
  have hholds' := holds_clock (o.circuit.fifoInput i) hholds
  cases hreset : i.resetDebugFifo with
  | true =>
      rw [Observed.clock_reset hreset]
      refine ⟨⟨_, hholds', ?_⟩, fun _ => rfl, [], rfl, h.reset_stage htidy hreset⟩
      exact (held_reset (o.circuit.fifoInput i) hreset).symm
  | false =>
      rw [Observed.clock_of_not_reset hreset]
      refine ⟨⟨_, hholds', ?_⟩, h.quiet_clock hreset, o.samples, rfl, ?_⟩
      · dsimp only
        rw [hconserves, List.append_assoc, hholds.held_clock (o.circuit.fifoInput i) hreset,
          List.append_assoc]
        rfl
      · obtain ⟨older, holder, hstage⟩ := h.stage
        cases hstage with
        | idle groups hwrite hdone hsub haccepted =>
            refine h.next_stage hn htidy hreset hdone holder hsub ?_
            rw [written_eq, hwrite, haccepted]
            exact List.append_nil _
        | first groups before c hwrite hdone hbefore hsub haccepted hdata hsin hdelay hstart =>
            refine Keeps.second_stage htidy hreset hholds.writeReady hwrite hdone ?_ hsub haccepted
              hdata hsin hdelay hstart
            rw [holder, hbefore, pipe, htidy.not_done hdone]
            exact List.append_nil _
        | half groups hwrite hdone hsub haccepted hrun hready =>
            refine h.next_stage hn htidy hreset hdone holder hsub ?_
            rw [written_eq, hwrite, hready, TunePllReadoutFifo.active, hrun, ← haccepted]
            rfl
        | skip groups hwrite hdone hsub haccepted hrun =>
            refine h.next_stage hn htidy hreset hdone holder hsub ?_
            rw [written_eq, hwrite]
            rcases hrun with hrun | ⟨-, hrun⟩ <;> simp [hrun, haccepted]

/-- The pairs of what has been delivered are samples, if whole samples are delivered. -/
theorem pairs_prefix {delivered : List Sample} {groups : List (Sample × Sample)}
    (h : delivered <+: words groups) : pairs delivered <+: groups := by
  induction groups generalizing delivered with
  | nil =>
      rw [List.prefix_nil.mp h]
      exact List.prefix_rfl
  | cons c groups ih =>
      have h : delivered <+: c.1 :: c.2 :: words groups := h
      cases delivered with
      | nil => exact List.nil_prefix
      | cons a rest =>
          obtain ⟨ha, h⟩ := List.cons_prefix_cons.mp h
          cases rest with
          | nil => exact List.nil_prefix
          | cons b rest =>
              obtain ⟨hb, h⟩ := List.cons_prefix_cons.mp h
              exact List.cons_prefix_cons.mpr ⟨Prod.ext ha hb, ih h⟩

end

/-! ### Runs -/

/-- Whole samples, in order: the words that the FIFO has taken are those of some of the samples, but
for a second word that is just being written. -/
def Aligned (o : Observed n) : Prop :=
  ∃ groups : List (Sample × Sample), groups.Sublist o.samples ∧
    (o.accepted = words groups ∨
      o.circuit.debugWrite = true ∧ o.accepted ++ [o.circuit.debugDataIn] = words groups) ∧
    o.delivered <+: words groups ∧ pairs o.delivered <+: groups

theorem Keeps.aligned {o : Observed n} (h : Keeps o) : Aligned o := by
  obtain ⟨store, -, hconserves⟩ := h.fifo
  obtain ⟨older, holder, hstage⟩ := h.stage
  have hdelivered : o.delivered <+: o.accepted := ⟨_, hconserves.symm⟩
  have hall : ∀ groups : List (Sample × Sample), groups.Sublist older →
      groups.Sublist o.samples := by
    intro groups hsub
    rw [holder]
    exact hsub.trans (List.sublist_append_left _ _)
  have hwhole : ∀ groups : List (Sample × Sample), groups.Sublist older →
      o.accepted = words groups → Aligned o := by
    intro groups hsub haccepted
    rw [haccepted] at hdelivered
    exact ⟨groups, hall groups hsub, .inl haccepted, hdelivered, pairs_prefix hdelivered⟩
  cases hstage with
  | idle groups _ _ hsub haccepted => exact hwhole groups hsub haccepted
  | first groups before c _ _ hbefore hsub haccepted _ _ _ _ =>
      refine hwhole groups ?_ haccepted
      rw [hbefore]
      exact hsub.trans (List.sublist_append_left _ _)
  | half groups hwrite _ hsub haccepted _ _ =>
      have hprefix : o.delivered <+: words groups := by
        rw [← haccepted]
        exact hdelivered.trans (List.prefix_append _ _)
      exact ⟨groups, hall groups hsub, .inr ⟨hwrite, haccepted⟩, hprefix, pairs_prefix hprefix⟩
  | skip groups _ _ hsub haccepted _ => exact hwhole groups hsub haccepted

/-- The circuit after power up. -/
def start (s : DebugReadout n) : Observed n := ⟨s, [], [], []⟩

/-- In a run all of whose clocks meet the condition the debug FIFO delivers whole samples. -/
theorem debug_fifo_aligned (hn : 0 < n) (fifo : BitVec n → Sample)
    (writeData readData cosDataIn sinDataIn debugDataIn : Sample) (i : ℕ → DebugInput) (k : ℕ) :
    let o := Clocked.run Observed.clock
      (start (powerUp fifo writeData readData cosDataIn sinDataIn debugDataIn)) i
    (∀ j < k, Tidy (i j) (o j).circuit) → Aligned (o k) := by
  intro o htidy
  have hstart : Keeps (o 0) := by
    refine ⟨⟨[], holds_powerUp fifo writeData readData, rfl⟩, fun _ => rfl, [], rfl, ?_⟩
    exact .idle [] rfl rfl (List.Sublist.refl _) rfl
  refine (Clocked.run_through (Nat.zero_le k) hstart fun j _ hj hkeeps => ?_).aligned
  exact hkeeps.clock hn (htidy j hj)

/-- Two samples, the first of them before a reset at the clock `reset`; everything is read. -/
def twoSamples (reset k : ℕ) : DebugInput where
  captureCordic := false
  cordicDone := false
  phase := 0
  magnitude := 0
  detectorDone := k = 0 || k = 10
  cos := if k < 5 then 1 else 3
  sin := if k < 5 then 2 else 4
  readDebugData := true
  resetDebugFifo := k = reset
  resetReadError := false
  enableDebugInterrupt := false

/-- The run of a FIFO on these samples. -/
def twoSamplesRun (n reset : ℕ) : ℕ → Observed n :=
  Clocked.run Observed.clock (start (powerUp (fun _ => 0) 0 0 0 0 0)) (twoSamples reset)

theorem debug_fifo_aligned_reset :
    Aligned (twoSamplesRun 3 2 20) ∧ (twoSamplesRun 3 2 20).delivered = [3, 4] := by
  refine ⟨debug_fifo_aligned (by decide) (fun _ => 0) 0 0 0 0 0 (twoSamples 2) 20 ?_, ?_⟩
  · decide +kernel
  · decide +kernel

/-- A reset on the clock before the first word of a sample leaves the second, and all that follows
is swapped. -/
theorem first_word_dropped :
    let o := twoSamplesRun readoutFifoBits 1 20
    ¬ Aligned o ∧ o.delivered = [2, 3, 4] ∧ pairs o.delivered = [(2, 3)] := by
  intro o
  have hdelivered : o.delivered = [2, 3, 4] := by decide +kernel
  have hsamples : o.samples = [(3, 4)] := by decide +kernel
  refine ⟨?_, hdelivered, by rw [hdelivered]; rfl⟩
  rintro ⟨groups, hsub, -, hprefix, -⟩
  rw [hsamples, ← List.mem_sublists] at hsub
  rw [hdelivered] at hprefix
  have hnone : ∀ groups ∈ [((3 : Sample), (4 : Sample))].sublists,
      ¬ [(2 : Sample), 3, 4] <+: words groups := by
    decide
  exact hnone groups hsub hprefix

end DebugReadout

end Mbf.TunePll
