import Mbf.Sequencer.Scale
import Mbf.Sequencer.Write

/-! # The sequencer program, written and loaded again

What `hw_write_seq_config` writes through the port to the memories is what the firmware finds
there: each state that is loaded is that of its entry, field by field, each pass through the
program runs with its own super offset, and the window is the window of the configuration.
`hw_write_seq_bank0` changes the bunch bank of state 0, and nothing else
(`sequencer_round_trip`).

A frequency is a fraction of a turn: only its lower 48 bits count. -/

namespace Mbf.Sequencer

/-! ### Loading a state -/

/-- `sequencer_load_state`, clock by clock, from a start of loading at clock zero. -/
def LoadState.loads (l : LoadState) (memory : BitVec 6 → Word) (seqPc : BitVec 3) : ℕ → LoadState
  | 0 => l
  | n + 1 => (l.loads memory seqPc n).clock memory (decide (n = 0)) seqPc

theorem LoadState.Idle.loads_at {l : LoadState} {old : SeqState} (h : l.Idle old)
    (memory : BitVec 6 → Word) (seqPc : BitVec 3) (n : ℕ) :
    (l.loads memory seqPc n).At memory seqPc old n := by
  induction n with
  | zero => exact h.at_zero
  | succ n ih => exact ih.clock

/-- Nineteen clocks after the start the state is loaded. -/
theorem LoadState.Idle.loads_state {l : LoadState} {old : SeqState} (h : l.Idle old)
    (p : Program) (seqPc : BitVec 3) {n : ℕ} (hn : 19 ≤ n) :
    (l.loads p.memory seqPc n).seqState = p.state seqPc := by
  unfold Program.state
  exact (h.loads_at p.memory seqPc n).loaded hn

/-- The fields of the configuration word, and the window rate. -/
structure SeqState.Configured (entry : SeqEntry) (s : SeqState) : Prop where
  bunchBank : s.bunchBank = BitVec.ofNat 2 entry.bunchBank
  ncoGain : s.ncoGain = BitVec.ofNat 18 entry.ncoGain
  enableWindow : s.enableWindow = entry.enableWindow
  enableBlanking : s.enableBlanking = entry.enableBlanking
  resetPhase : s.resetPhase = entry.resetPhase
  enableTunePll : s.enableTunePll = entry.useTunePll
  windowRate : s.windowRate = BitVec.ofNat 32 entry.windowRate

/-- The fields of the configuration word. -/
theorem writeSequencerState_config (state0 : Bool) (entry : SeqEntry) :
    let word := writeSequencerState state0 entry 4
    word.extractLsb' 0 2 = BitVec.ofNat 2 entry.bunchBank ∧
      word.extractLsb' 2 18 = BitVec.ofNat 18 entry.ncoGain ∧
      word.getLsbD 20 = entry.enableWindow ∧ word.getLsbD 22 = entry.enableBlanking ∧
      word.getLsbD 23 = entry.resetPhase ∧ word.getLsbD 24 = entry.useTunePll := by
  unfold writeSequencerState
  refine ⟨?_, ?_, ?_, ?_, ?_, ?_⟩
  · exact BitVec.extractLsb'_append_eq_right
  · generalize BitVec.ofNat 18 entry.ncoGain = gain
    generalize BitVec.ofNat 2 entry.bunchBank = bank
    apply BitVec.eq_of_getLsbD_eq
    grind
  all_goals
    simp only [BitVec.getLsbD_append]
    simp

theorem hwWriteSeqConfig_configured (config : SeqConfig) (old : BitVec 11 → Angle)
    (seqPc : BitVec 3) :
    ((hwWriteSeqConfig config old).state seqPc).Configured (config.entry seqPc.toNat) := by
  obtain ⟨hbank, hgain, hwindow, hblanking, hreset, hpll⟩ :=
    writeSequencerState_config (decide (seqPc = 0)) (config.entry seqPc.toNat)
  unfold Program.state
  simp only [loadWords, hwWriteSeqConfig_memory]
  exact ⟨hbank, hgain, hwindow, hblanking, hreset, hpll, rfl⟩

/-- The state of an entry. -/
def SeqEntry.state (state0 : Bool) (entry : SeqEntry) : SeqState where
  startFreq := BitVec.ofNat 48 entry.startFreq
  deltaFreq := BitVec.ofNat 48 entry.deltaFreq
  dwellCount := BitVec.ofNat 16 (entry.dwellTime - 1)
  captureCount := BitVec.ofNat 16 (entry.captureCount - 1)
  bunchBank := BitVec.ofNat 2 entry.bunchBank
  ncoGain := BitVec.ofNat 18 entry.ncoGain
  enableWindow := entry.enableWindow
  enableWrite := entry.writeEnable
  enableBlanking := entry.enableBlanking
  resetPhase := entry.resetPhase
  enableTunePll := entry.useTunePll
  disableSuper := state0
  windowRate := BitVec.ofNat 32 entry.windowRate
  holdoffCount := BitVec.ofNat 16 entry.holdoff
  stateHoldoff := BitVec.ofNat 16 entry.stateHoldoff

/-- The firmware loads the state of the entry. -/
theorem hwWriteSeqConfig_loads (config : SeqConfig) (old : BitVec 11 → Angle) (seqPc : BitVec 3) :
    (hwWriteSeqConfig config old).state seqPc =
      (config.entry seqPc.toNat).state (decide (seqPc = 0)) := by
  have h := hwWriteSeqConfig_state config old seqPc
  have hconfigured := hwWriteSeqConfig_configured config old seqPc
  generalize (hwWriteSeqConfig config old).state seqPc = s at h hconfigured
  obtain ⟨startFreq, deltaFreq, dwellCount, captureCount, bunchBank, ncoGain, enableWindow,
    enableWrite, enableBlanking, resetPhase, enableTunePll, disableSuper, windowRate, holdoffCount,
    stateHoldoff⟩ := s
  unfold SeqEntry.state
  rw [SeqState.mk.injEq]
  exact ⟨h.startFreq, h.deltaFreq, h.dwellCount, h.captureCount, hconfigured.bunchBank,
    hconfigured.ncoGain, hconfigured.enableWindow, h.enableWrite, hconfigured.enableBlanking,
    hconfigured.resetPhase, hconfigured.enableTunePll, h.disableSuper, hconfigured.windowRate,
    h.holdoffCount, h.stateHoldoff⟩

/-- A state is that of an entry, field by field; the counts are loaded less one. -/
structure SeqState.Matches (state0 : Bool) (entry : SeqEntry) (s : SeqState) : Prop where
  startFreq : s.startFreq.toNat = entry.startFreq % 2 ^ 48
  deltaFreq : s.deltaFreq.toNat = entry.deltaFreq % 2 ^ 48
  dwellCount : s.dwellCount.toNat = entry.dwellTime - 1
  captureCount : s.captureCount.toNat = entry.captureCount - 1
  bunchBank : s.bunchBank.toNat = entry.bunchBank
  ncoGain : s.ncoGain.toNat = entry.ncoGain
  enableWindow : s.enableWindow = entry.enableWindow
  enableWrite : s.enableWrite = entry.writeEnable
  enableBlanking : s.enableBlanking = entry.enableBlanking
  resetPhase : s.resetPhase = entry.resetPhase
  enableTunePll : s.enableTunePll = entry.useTunePll
  disableSuper : s.disableSuper = state0
  windowRate : s.windowRate.toNat = entry.windowRate
  holdoffCount : s.holdoffCount.toNat = entry.holdoff
  stateHoldoff : s.stateHoldoff.toNat = entry.stateHoldoff

/-- A field that is wide enough. -/
theorem toNat_of_fits {w n : ℕ} {x : BitVec w} (hx : x = BitVec.ofNat w n) (hn : n < 2 ^ w) :
    x.toNat = n := by
  rw [hx, BitVec.toNat_ofNat, Nat.mod_eq_of_lt hn]

theorem SeqEntry.Fits.matches {entry : SeqEntry} (h : entry.Fits) (state0 : Bool) :
    (entry.state state0).Matches state0 entry where
  startFreq := BitVec.toNat_ofNat _ _
  deltaFreq := BitVec.toNat_ofNat _ _
  dwellCount := by
    have hcount := h.dwellTime
    exact toNat_of_fits rfl (by omega)
  captureCount := by
    have hcount := h.captureCount
    exact toNat_of_fits rfl (by omega)
  bunchBank := toNat_of_fits rfl h.bunchBank
  ncoGain := toNat_of_fits rfl h.ncoGain
  enableWindow := rfl
  enableWrite := rfl
  enableBlanking := rfl
  resetPhase := rfl
  enableTunePll := rfl
  disableSuper := rfl
  windowRate := toNat_of_fits rfl h.windowRate
  holdoffCount := toNat_of_fits rfl h.holdoff
  stateHoldoff := toNat_of_fits rfl h.stateHoldoff

/-! ### Passes through the program -/

/-- The program counter advances at this clock. -/
def Pc.advances (p : Pc) (stateEnd : Bool) : Bool := !p.loading && !p.resetOut && stateEnd

/-- The number of the pass through the program, from zero; a pass is over when state 1 is. -/
def passes (p : Program) (input : ℕ → Input) (s : SequencerTop) : ℕ → ℕ
  | 0 => 0
  | n + 1 =>
      let t := (run p input s n).1
      if t.pc.seqPc = 0 then 0
      else if t.pc.seqPc = 1 ∧ t.pc.advances t.counter.stateEnd = true then
        passes p input s n + 1
      else passes p input s n

section passes
variable {p : Program} {q : Pc} {i : Input} {stateEnd : Bool}

theorem Pc.clock_advances (h : q.advances stateEnd = true) :
    (q.clock p i.turnClock i.trigger i.reset stateEnd).seqPc =
        (advance q.seqPc q.superCount (q.triggerIn i.trigger) p).1 ∧
      (q.clock p i.turnClock i.trigger i.reset stateEnd).superCount =
        (advance q.seqPc q.superCount (q.triggerIn i.trigger) p).2 := by
  unfold Pc.advances at h
  rw [Bool.and_eq_true, Bool.and_eq_true, Bool.not_eq_true', Bool.not_eq_true'] at h
  obtain ⟨⟨hloading, hreset⟩, hend⟩ := h
  unfold Pc.clock
  dsimp only
  rw [hloading, hreset, hend]
  exact ⟨rfl, rfl⟩

/-- Otherwise it stands still, or is reset. -/
theorem Pc.clock_stands (h : q.advances stateEnd = false) :
    (q.clock p i.turnClock i.trigger i.reset stateEnd).seqPc = 0 ∨
      (q.clock p i.turnClock i.trigger i.reset stateEnd).seqPc = q.seqPc ∧
        (q.clock p i.turnClock i.trigger i.reset stateEnd).superCount = q.superCount := by
  unfold Pc.advances at h
  unfold Pc.clock
  dsimp only
  cases hloading : q.loading with
  | true => exact .inr ⟨rfl, rfl⟩
  | false =>
      cases hreset : q.resetOut with
      | true => exact .inl rfl
      | false =>
          rw [hloading, hreset] at h
          obtain rfl : stateEnd = false := h
          exact .inr ⟨rfl, rfl⟩

/-- What is left of the passes, when the program counter advances. -/
theorem advance_passes {seqPc : BitVec 3} {superCount : BitVec 11} {trigger : Bool} {pass : ℕ}
    (h : seqPc ≠ 0 → superCount.toNat + pass = p.superCount.toNat)
    (hne : (advance seqPc superCount trigger p).1 ≠ 0) :
    (advance seqPc superCount trigger p).2.toNat +
        (if seqPc = 0 then 0 else if seqPc = 1 then pass + 1 else pass) = p.superCount.toNat := by
  unfold advance at hne ⊢
  split_ifs at hne ⊢ with hidle htrigger hlast hzero
  · rfl
  · exact absurd hidle hne
  · exact absurd rfl hne
  · have hleft := h hidle
    have hpos : superCount.toNat ≠ 0 := fun heq => hzero (BitVec.eq_of_toNat_eq heq)
    have hone : (1 : BitVec 11) ≤ superCount := Nat.one_le_iff_ne_zero.mpr hpos
    have hpred : (superCount - 1).toNat = superCount.toNat - 1 := BitVec.toNat_sub_of_le hone
    rw [hpred]
    omega
  · exact h hidle

/-- A clock of the program counter. -/
theorem Pc.clock_passes {pass : ℕ} (h : q.seqPc ≠ 0 → q.superCount.toNat + pass = p.superCount.toNat)
    (hne : (q.clock p i.turnClock i.trigger i.reset stateEnd).seqPc ≠ 0) :
    (q.clock p i.turnClock i.trigger i.reset stateEnd).superCount.toNat +
        (if q.seqPc = 0 then 0
          else if q.seqPc = 1 ∧ q.advances stateEnd = true then pass + 1 else pass) =
      p.superCount.toNat := by
  cases hadvances : q.advances stateEnd with
  | true =>
      obtain ⟨hpc, hsuper⟩ := Pc.clock_advances hadvances (p := p) (i := i)
      rw [hpc] at hne
      rw [hsuper]
      simpa only [and_true] using advance_passes h hne
  | false =>
      rcases Pc.clock_stands hadvances (p := p) (i := i) with hpc | ⟨hpc, hsuper⟩
      · exact absurd hpc hne
      · rw [hpc] at hne
        rw [hsuper]
        simpa only [hne, if_false, Bool.false_eq_true, and_false] using h hne

variable {input : ℕ → Input} {s : SequencerTop}

/-- In a pass, the super count is the number of passes that are left. -/
theorem run_passes (hidle : s.pc.seqPc = 0) (n : ℕ) :
    (run p input s n).1.pc.seqPc ≠ 0 →
      (run p input s n).1.pc.superCount.toNat + passes p input s n = p.superCount.toNat := by
  induction n with
  | zero => exact fun hne => absurd hidle hne
  | succ n ih => exact fun hne => Pc.clock_passes ih hne

/-- The frequency of a super state arrives two clocks later. -/
theorem run_freqBase (n : ℕ) :
    (run p input s (n + 2)).1.super.ncoFreqBase =
      p.superMemory (run p input s n).1.pc.superCount := rfl

end passes

/-! ### What the firmware holds -/

/-- The firmware holds a configuration. -/
structure Holds (config : WindowedConfig) (c : SeqContents) : Prop where
  /-- A state that is loaded. -/
  states : ∀ (seqPc : BitVec 3) (old : SeqState) (l : LoadState), l.Idle old → ∀ n, 19 ≤ n →
    (l.loads c.program.memory seqPc n).seqState.Matches (decide (seqPc = 0))
      (config.entry seqPc.toNat)
  /-- The super offset in each pass of a run, and the frequency that a state starts with. -/
  supers : ∀ (input : ℕ → Input) (s : SequencerTop), s.pc.seqPc = 0 → ∀ n,
    (run c.program input s n).1.pc.seqPc ≠ 0 →
      let offset := BitVec.ofNat 48 (config.superOffsets (passes c.program input s n))
      let t := (run c.program input s (n + 2)).1
      passes c.program input s n < config.superSeqCount ∧ t.super.ncoFreqBase = offset ∧
        (t.counter.captureCntrZero = true → t.load.seqState.disableSuper = false →
          (run c.program input s (n + 3)).1.counter.nextNcoFreq =
            t.load.seqState.startFreq + offset)
  window : ∀ i < detWindowLength, (c.windowMemory (BitVec.ofNat 10 i)).toInt = config.window i

/-- The program and the window of a configuration, and its part in the mirror. -/
structure Programmed (config : WindowedConfig) (old : BitVec 11 → Angle) (m : SeqMirror)
    (c : SeqContents) : Prop where
  program : c.program = hwWriteSeqConfig config.toSeqConfig old
  window : ∀ a, c.windowMemory a = BitVec.ofInt 16 (config.window a.toNat)
  pc : m.pc = BitVec.ofNat 3 config.sequencerPc
  superCount : m.superCount = BitVec.ofNat 11 (config.superSeqCount - 1)

section programmed
variable {config : WindowedConfig} {old : BitVec 11 → Angle} {m : SeqMirror} {c : SeqContents}

theorem state0Entry_fits {bank0 : ℕ} (h : bank0 < 4) : (state0Entry bank0).Fits := by
  refine ⟨⟨?_, ?_, ?_, ?_⟩, h, ?_, ?_⟩ <;> simp [state0Entry]

theorem WindowedConfig.Fits.entry (h : config.Fits) (seqPc : BitVec 3) :
    (config.entry seqPc.toNat).Fits := by
  have hlt := seqPc.isLt
  unfold SeqConfig.entry
  split_ifs
  · exact state0Entry_fits h.bank0
  · apply h.fits
    unfold maxSequencerCount
    omega

theorem Programmed.holds (h : Programmed config old m c) (hconfig : config.Fits) :
    Holds config c where
  states seqPc oldState l hl n hn := by
    rw [hl.loads_state c.program seqPc hn, h.program, hwWriteSeqConfig_loads]
    exact (hconfig.entry seqPc).matches _
  supers input s hidle n hne := by
    obtain ⟨hone, hcount⟩ := hconfig.superSeqCount
    have hpasses := run_passes hidle n hne
    intro offset t
    suffices hoffset : passes c.program input s n < config.superSeqCount ∧
        t.super.ncoFreqBase = offset by
      refine ⟨hoffset.1, hoffset.2, fun hzero henabled => ?_⟩
      show (t.clock c.program (input (n + 2))).counter.nextNcoFreq = _
      rw [← hoffset.2]
      unfold SequencerTop.clock Counter.clock
      dsimp only
      rw [hzero, henabled]
      rfl
    show _ ∧ (run c.program input s (n + 2)).1.super.ncoFreqBase =
      BitVec.ofNat 48 (config.superOffsets (passes c.program input s n))
    rw [run_freqBase]
    generalize (run c.program input s n).1.pc.superCount = superCount at hpasses ⊢
    generalize passes c.program input s n = pass at hpasses ⊢
    rw [h.program] at hpasses ⊢
    have hwritten : (hwWriteSeqConfig config.toSeqConfig old).superCount.toNat =
        config.superSeqCount - 1 := toNat_of_fits rfl (by unfold superSeqStates at hcount; omega)
    rw [hwritten] at hpasses
    have hplace : config.superSeqCount - 1 - superCount.toNat = pass := by omega
    refine ⟨by omega, ?_⟩
    unfold hwWriteSeqConfig
    dsimp only
    rw [if_pos (by omega), hplace]
  window i hi := by
    obtain ⟨hlow, hhigh⟩ := hconfig.window i hi
    have hplace : (BitVec.ofNat 10 i).toNat = i := by
      rw [BitVec.toNat_ofNat, Nat.mod_eq_of_lt (show i < 2 ^ 10 from hi)]
    rw [h.window, hplace, BitVec.toInt_ofInt]
    exact Int.bmod_eq_of_le (by omega) (by omega)

/-- After `hw_write_seq_config`. -/
theorem programmed_config (config : WindowedConfig) (m : SeqMirror) (c : SeqContents)
    (hcount : config.superSeqCount ≤ superSeqStates) :
    Programmed config c.superMemory (hwWriteSeqConfigWrites config m).1
      ((hwWriteSeqConfigWrites config m).2.foldl SeqContents.step c) where
  program := hwWriteSeqConfigWrites_program c m config hcount
  window _ := hwWriteSeqConfigWrites_window c m config
  pc := rfl
  superCount := rfl

/-- The configuration with another bunch bank in state 0. -/
def WindowedConfig.withBank0 (config : WindowedConfig) (bank0 : ℕ) : WindowedConfig :=
  { config with bank0 := bank0 }

/-- The words of state 0 replace those of state 0. -/
theorem store_bank0 (config : WindowedConfig) (old : BitVec 11 → Angle) (bank0 : ℕ) :
    Bus.store programAddr 0 ((config.withBank0 bank0).words 1)
        (hwWriteSeqConfig config.toSeqConfig old).memory =
      (hwWriteSeqConfig (config.withBank0 bank0).toSeqConfig old).memory := by
  funext a
  have ha := a.isLt
  rw [← hwWriteSeqConfig_words (config.withBank0 bank0).toSeqConfig old (fun _ => 0),
    ← hwWriteSeqConfig_words config.toSeqConfig old (fun _ => 0), store_words _ (by decide),
    store_words _ le_rfl, store_words _ le_rfl, if_pos (show a.toNat < 8 * 8 by omega),
    if_pos (show a.toNat < 8 * 8 by omega)]
  split_ifs with hstate
  · rfl
  · have hne : a.toNat / 8 ≠ 0 := by omega
    unfold SeqConfig.entry
    rw [if_neg hne, if_neg hne]
    rfl

/-- After `hw_write_seq_bank0`. -/
theorem Programmed.bank0 (h : Programmed config old m c) (bank0 : ℕ) :
    Programmed (config.withBank0 bank0) old (hwWriteSeqBank0Writes bank0 m).1
      ((hwWriteSeqBank0Writes bank0 m).2.foldl SeqContents.step c) := by
  have hcontents : (hwWriteSeqBank0Writes bank0 m).2.foldl SeqContents.step c =
      { c.inBlock { m with target := 0 } 8 with
        programMemory := Bus.store programAddr 0 ((config.withBank0 bank0).words 1)
          c.programMemory } :=
    hwWriteSeqBank0Writes_contents c m (config.withBank0 bank0).toSeqConfig
  have hmemory : c.programMemory = (hwWriteSeqConfig config.toSeqConfig old).memory :=
    congrArg Program.memory h.program
  have hsuper : c.superMemory = (hwWriteSeqConfig config.toSeqConfig old).superMemory :=
    congrArg Program.superMemory h.program
  refine ⟨?_, ?_, h.pc, h.superCount⟩
  · rw [hcontents]
    unfold SeqContents.program SeqContents.inBlock
    dsimp only
    rw [SeqMirror.word_pc, SeqMirror.word_superCount, h.pc, h.superCount, hmemory, store_bank0,
      hsuper]
    rfl
  · rw [hcontents]
    exact h.window

/-- `hw_write_seq_bank0`, any number of times. -/
def hwWriteSeqBank0s : List ℕ → SeqMirror → SeqMirror × List SeqWrite
  | [], m => (m, [])
  | bank0 :: rest, m =>
      let (m, writes) := hwWriteSeqBank0Writes bank0 m
      let (m, later) := hwWriteSeqBank0s rest m
      (m, writes ++ later)

theorem Programmed.bank0s (h : Programmed config old m c) (banks : List ℕ) :
    Programmed (config.withBank0 (banks.getLastD config.bank0)) old (hwWriteSeqBank0s banks m).1
      ((hwWriteSeqBank0s banks m).2.foldl SeqContents.step c) := by
  induction banks generalizing config m c with
  | nil => exact h
  | cons bank0 banks ih =>
      have hlater := ih (h.bank0 bank0)
      rw [List.getLastD_cons]
      unfold hwWriteSeqBank0s
      dsimp only
      rw [List.foldl_append]
      exact hlater

/-- What a change of the bunch bank of state 0 leaves as it was. -/
structure Bank0Only (bank0 : ℕ) (before after : SeqContents) : Prop where
  states : ∀ seqPc ≠ 0, after.program.state seqPc = before.program.state seqPc
  state0 : after.program.state 0 =
    { before.program.state 0 with bunchBank := BitVec.ofNat 2 bank0 }
  superMemory : after.superMemory = before.superMemory
  windowMemory : after.windowMemory = before.windowMemory
  registers : after.program.seqPc = before.program.seqPc ∧
    after.program.superCount = before.program.superCount

theorem Programmed.bank0Only {m' : SeqMirror} {c' : SeqContents} {bank0 : ℕ}
    (h : Programmed config old m c) (h' : Programmed (config.withBank0 bank0) old m' c') :
    Bank0Only bank0 c c' where
  states seqPc hne := by
    have hstate : seqPc.toNat ≠ 0 := fun heq => hne (BitVec.eq_of_toNat_eq heq)
    rw [h.program, h'.program, hwWriteSeqConfig_loads, hwWriteSeqConfig_loads]
    unfold SeqConfig.entry
    rw [if_neg hstate, if_neg hstate]
    rfl
  state0 := by
    rw [h.program, h'.program, hwWriteSeqConfig_loads, hwWriteSeqConfig_loads]
    rfl
  superMemory := by
    have hsuper := congrArg Program.superMemory (h'.program.trans rfl)
    exact hsuper.trans (congrArg Program.superMemory h.program).symm
  windowMemory := by
    funext a
    rw [h.window, h'.window]
    rfl
  registers := by
    rw [h.program, h'.program]
    exact ⟨rfl, rfl⟩

end programmed

theorem WindowedConfig.Fits.withBank0 {config : WindowedConfig} (hconfig : config.Fits)
    {banks : List ℕ} (hbanks : ∀ bank0 ∈ banks, bank0 < 4) :
    (config.withBank0 (banks.getLastD config.bank0)).Fits := by
  refine ⟨⟨hconfig.sequencerPc, hconfig.superSeqCount, hconfig.entries⟩, ?_, hconfig.fits,
    hconfig.window⟩
  show banks.getLastD config.bank0 < 4
  rw [List.getLastD_eq_getLast?]
  cases hlast : banks.getLast? with
  | none => exact hconfig.bank0
  | some bank0 => exact hbanks bank0 (List.mem_of_getLast? hlast)

/-- The sequencer program is loaded as it has been written, after whatever was there before. -/
theorem sequencer_round_trip {config : WindowedConfig} (hconfig : config.Fits) (s : SeqPort)
    (m : SeqMirror) {clocks : List (Option SeqWrite)}
    (hclocks : Bus.Paced SeqWrite.settle clocks (hwWriteSeqConfigWrites config m).2)
    (banks : List ℕ) (hbanks : ∀ bank0 ∈ banks, bank0 < 4) {later : List (Option SeqWrite)}
    (hlater : Bus.Paced SeqWrite.settle later
      (hwWriteSeqBank0s banks (hwWriteSeqConfigWrites config m).1).2) :
    let t := (List.replicate 3 none ++ clocks).foldl SeqPort.clock s
    let u := later.foldl SeqPort.clock t
    Holds config t.contents ∧
      Holds (config.withBank0 (banks.getLastD config.bank0)) u.contents ∧
      Bank0Only (banks.getLastD config.bank0) t.contents u.contents := by
  intro t u
  have hquiet := s.quiet_of_idle
  generalize hstart : (List.replicate 3 none).foldl SeqPort.clock s = start at hquiet
  have ht : t = clocks.foldl SeqPort.clock start := by rw [← hstart, ← List.foldl_append]
  obtain ⟨hquietT, hcontentsT⟩ := hquiet.paced hclocks
  rw [← ht] at hquietT hcontentsT
  obtain ⟨-, hcontentsU⟩ := hquietT.paced hlater
  have hprogrammed := programmed_config config m start.contents hconfig.superSeqCount.2
  rw [← hcontentsT] at hprogrammed
  have hchanged := hprogrammed.bank0s banks
  rw [← hcontentsU] at hchanged
  exact ⟨hprogrammed.holds hconfig, hchanged.holds (hconfig.withBank0 hbanks),
    hprogrammed.bank0Only hchanged⟩

/-- A configuration with a sawtooth for a window. -/
def sawtoothConfig : WindowedConfig where
  toSeqConfig := sweepConfig
  window i := i

theorem sawtoothConfig_fits : sawtoothConfig.Fits where
  toAdmitted := sweepConfig_admitted
  bank0 := by decide
  fits i hi := by
    refine ⟨sweepConfig_admitted.entries i hi, ?_, ?_, ?_⟩ <;> simp [sawtoothConfig, sweepConfig]
  window i hi := by
    unfold detWindowLength at hi
    show -2 ^ 15 ≤ (i : ℤ) ∧ (i : ℤ) < 2 ^ 15
    omega

/-- A port that holds nothing yet. -/
def emptyPort : SeqPort where
  strobedBits := 0
  strobedDly _ := 0
  configRegister := 0
  writeAddress := 0
  memWriteStrobe _ := false
  memWriteAddr := 0
  memWriteData := 0
  programMemory _ := 0
  windowMemory _ := 0
  superWriteStrobe := false
  superWriteData := 0
  superMemory _ := 0

theorem sequencer_round_trip_sawtooth :
    let m : SeqMirror := ⟨0, 0, 0, 0⟩
    let writes := hwWriteSeqConfigWrites sawtoothConfig m
    let clocks := writes.2.flatMap (Bus.settled SeqWrite.settle)
    let later := (hwWriteSeqBank0s [1, 3] writes.1).2.flatMap (Bus.settled SeqWrite.settle)
    let t := (List.replicate 3 none ++ clocks).foldl SeqPort.clock emptyPort
    let u := later.foldl SeqPort.clock t
    Holds sawtoothConfig t.contents ∧ Holds (sawtoothConfig.withBank0 3) u.contents ∧
      Bank0Only 3 t.contents u.contents :=
  sequencer_round_trip sawtoothConfig_fits emptyPort ⟨0, 0, 0, 0⟩
    (Bus.Paced.flatMap_settled SeqWrite.settle _) [1, 3] (by decide)
    (Bus.Paced.flatMap_settled SeqWrite.settle _)

end Mbf.Sequencer
