import Mbf.Sequencer.Firmware

/-! # The sequencer turn by turn

What the sequencer does in one turn, as a function of the little that it keeps from turn to turn
(`Turn`): the registers of the dwell and capture counters, the state that is to run next, the
frequency and the write enable of the detector.

The registers of the firmware take some clocks after a turn clock to arrive there: the last turn
of a state is recognised, the program counter advances, the words of the next state are loaded,
and the next frequency is computed.  `Settling` says where each of them is `j` clocks after the
turn clock, and it is kept by every clock; after `settlingTime` clocks everything has arrived
(`Settled`).  So if the turn clocks are at least that far apart the firmware does turn by turn
what `Turn.next` says. -/

namespace Mbf.Sequencer

/-! ### What a turn does -/

/-- The first `n` words of a state, loaded one after the other. -/
def loadWords (memory : BitVec 6 → Word) (seqPc : BitVec 3) (s : SeqState) : ℕ → SeqState
  | 0 => s
  | n + 1 =>
      (loadWords memory seqPc s n).loadWord (BitVec.ofNat 3 n).toFin
        (memory (seqPc ++ BitVec.ofNat 3 n))

/-- The state of a program as it is loaded from memory. -/
@[irreducible] def Program.state (p : Program) (seqPc : BitVec 3) : SeqState :=
  loadWords p.memory seqPc {} 8

/-- What the sequencer keeps at the end of a turn. -/
structure Turn where
  seqPc : BitVec 3
  superCount : BitVec 11
  inHoldoff : Bool
  inStateHoldoff : Bool
  holdoffCtr : BitVec 16
  dwellCtr : BitVec 16
  captureCntr : BitVec 16
  ncoFreq : Angle
  writeEnable : Bool
deriving DecidableEq

namespace Turn

/-- This is the last turn of a dwell. -/
def lastTurn (T : Turn) : Bool := !T.inHoldoff && (T.dwellCtr == 0)

/-- This is the last turn of a state. -/
def stateEnd (T : Turn) : Bool := T.lastTurn && (T.captureCntr == 0)

/-- The registers of `sequencer_dwell` at the end of the turn. -/
def dwell (T : Turn) : Dwell where
  inHoldoff := T.inHoldoff
  inStateHoldoff := T.inStateHoldoff
  holdoffCtr := T.holdoffCtr
  dwellCtr := T.dwellCtr
  firstTurn := false
  lastTurn := T.lastTurn

/-- The capture counter after the dwell. -/
def nextCaptureCntr (T : Turn) (p : Program) : BitVec 16 :=
  if T.captureCntr = 0 then (p.state T.seqPc).captureCount else T.captureCntr - 1

/-- The frequency after the dwell. -/
def nextNcoFreq (T : Turn) (p : Program) : Angle :=
  if T.captureCntr = 0 then
    if (p.state T.seqPc).disableSuper then (p.state T.seqPc).startFreq
    else (p.state T.seqPc).startFreq + p.superMemory T.superCount
  else T.ncoFreq + (p.state T.seqPc).deltaFreq

/-- The dwell registers after the next turn clock. -/
def nextDwell (T : Turn) (p : Program) : Dwell :=
  T.dwell.turn (p.state T.seqPc) false false T.stateEnd

/-- The counters after the next turn clock: a turn later, before the program counter advances. -/
def count (T : Turn) (p : Program) : Turn where
  seqPc := T.seqPc
  superCount := T.superCount
  inHoldoff := (T.nextDwell p).inHoldoff
  inStateHoldoff := (T.nextDwell p).inStateHoldoff
  holdoffCtr := (T.nextDwell p).holdoffCtr
  dwellCtr := (T.nextDwell p).dwellCtr
  captureCntr := if T.lastTurn then T.nextCaptureCntr p else T.captureCntr
  ncoFreq := if T.lastTurn then T.nextNcoFreq p else T.ncoFreq
  writeEnable :=
    if (T.nextDwell p).firstTurn then (p.state T.seqPc).enableWrite else T.writeEnable

/-- The program counter advances in the last turn of a state. -/
def advancePc (T : Turn) (p : Program) (trigger : Bool) : Turn :=
  { T with
    seqPc := if T.stateEnd then (advance T.seqPc T.superCount trigger p).1 else T.seqPc
    superCount := if T.stateEnd then (advance T.seqPc T.superCount trigger p).2 else T.superCount }

/-- A turn later; `trigger` is the trigger as the program counter sees it in that turn. -/
def next (T : Turn) (p : Program) (trigger : Bool) : Turn := (T.count p).advancePc p trigger

end Turn

/-! ### Loading -/

section load
variable {memory : BitVec 6 → Word} {seqPc : BitVec 3} {old : SeqState} {l : LoadState} {k : ℕ}

/-- All of a state is overwritten. -/
theorem loadWords_eight (memory : BitVec 6 → Word) (seqPc : BitVec 3) (s t : SeqState) :
    loadWords memory seqPc s 8 = loadWords memory seqPc t 8 := by
  have hlow : ∀ (high : BitVec 16) (low : Word), (high ++ low).extractLsb' 0 32 = low :=
    fun high low => BitVec.extractLsb'_append_eq_right
  simp [loadWords, SeqState.loadWord, hlow]

/-- The registers of `sequencer_load_state` `k` clocks after `start_load_i`; for `k = 0` nothing
is being loaded. -/
structure LoadState.At (memory : BitVec 6 → Word) (seqPc : BitVec 3) (old : SeqState) (k : ℕ)
    (l : LoadState) : Prop where
  startLoad : ∀ i, l.startLoad i = decide (i.val + 1 = k)
  loading : l.loading = decide (9 ≤ k ∧ k ≤ 16)
  loadCtr : l.loadCtr = if 9 ≤ k ∧ k ≤ 16 then BitVec.ofNat 3 (k - 9) else 0
  loadingDly : ∀ i, l.loadingDly i = decide (10 + i.val ≤ k ∧ k ≤ 17 + i.val)
  loadCtrDly : ∀ i, 10 + i.val ≤ k → k ≤ 17 + i.val →
    l.loadCtrDly i = BitVec.ofNat 3 (k - 10 - i.val)
  readData : 10 ≤ k → k ≤ 17 → l.readData = memory (seqPc ++ BitVec.ofNat 3 (k - 10))
  progWord : 11 ≤ k → k ≤ 18 → l.progWord = memory (seqPc ++ BitVec.ofNat 3 (k - 11))
  seqState : l.seqState = loadWords memory seqPc old (min (k - 11) 8)

/-- Nothing is being loaded, and `state` is what was loaded last. -/
structure LoadState.Idle (state : SeqState) (l : LoadState) : Prop where
  startLoad : ∀ i, l.startLoad i = false
  loading : l.loading = false
  loadCtr : l.loadCtr = 0
  loadingDly : ∀ i, l.loadingDly i = false
  seqState : l.seqState = state

theorem LoadState.Idle.at_zero (h : l.Idle old) : l.At memory seqPc old 0 where
  startLoad i := by simpa using h.startLoad i
  loading := by simpa using h.loading
  loadCtr := by simpa using h.loadCtr
  loadingDly i := by simpa using h.loadingDly i
  loadCtrDly i hi := by omega
  readData hk := by omega
  progWord hk := by omega
  seqState := h.seqState

/-- Everything is loaded nineteen clocks after the start. -/
theorem LoadState.At.loaded (h : l.At memory seqPc old k) (hk : 19 ≤ k) :
    l.seqState = loadWords memory seqPc {} 8 := by
  rw [h.seqState, min_eq_right (by omega)]
  exact loadWords_eight memory seqPc old {}

theorem LoadState.At.idle (h : l.At memory seqPc old k) (hk : 20 ≤ k) :
    l.Idle (loadWords memory seqPc {} 8) where
  startLoad i := by
    rw [h.startLoad, decide_eq_false_iff_not]
    omega
  loading := by
    rw [h.loading, decide_eq_false_iff_not]
    omega
  loadCtr := by
    rw [h.loadCtr, if_neg (by omega)]
  loadingDly i := by
    rw [h.loadingDly, decide_eq_false_iff_not]
    omega
  seqState := h.loaded (by omega)

theorem LoadState.Idle.clock (h : l.Idle old) (memory : BitVec 6 → Word) (seqPc : BitVec 3) :
    (l.clock memory false seqPc).Idle old where
  startLoad i := by
    unfold LoadState.clock dlyline
    dsimp only
    split_ifs
    · rfl
    · exact h.startLoad _
  loading := by simp [LoadState.clock, h.loading, h.startLoad]
  loadCtr := by simp [LoadState.clock, h.loading, h.startLoad, h.loadCtr]
  loadingDly i := by
    unfold LoadState.clock dlyline
    dsimp only
    split_ifs
    · exact h.loading
    · exact h.loadingDly _
  seqState := by simp [LoadState.clock, h.loadingDly, h.seqState]

/-- The load counter is at its last word in the last clock of loading. -/
theorem loadCtr_last (hlo : 9 ≤ k) (hhi : k ≤ 16) : BitVec.ofNat 3 (k - 9) = 7 ↔ k = 16 := by
  rw [← BitVec.toNat_inj, BitVec.toNat_ofNat, Nat.mod_eq_of_lt (by omega)]
  change k - 9 = 7 ↔ k = 16
  omega

/-- A clock of loading. -/
theorem LoadState.At.clock (h : l.At memory seqPc old k) :
    (l.clock memory (decide (k = 0)) seqPc).At memory seqPc old (k + 1) where
  startLoad i := by
    unfold LoadState.clock dlyline
    dsimp only
    split_ifs with hi
    · simp [hi]
    · rw [h.startLoad]
      simp only [decide_eq_decide]
      omega
  loading := by
    unfold LoadState.clock
    dsimp only
    rw [h.loading, h.loadCtr, h.startLoad]
    by_cases hk : 9 ≤ k ∧ k ≤ 16
    · have hlast := loadCtr_last hk.1 hk.2
      simp only [hk, hlast, decide_true, and_self, if_true, ne_eq, decide_eq_decide]
      omega
    · simp only [hk, decide_false, if_false, decide_eq_decide, Bool.false_eq_true]
      omega
  loadCtr := by
    unfold LoadState.clock
    dsimp only
    rw [h.loading, h.loadCtr, h.startLoad]
    by_cases hk : 9 ≤ k ∧ k ≤ 16
    · have hsucc : BitVec.ofNat 3 (k - 9) + 1 = BitVec.ofNat 3 (k + 1 - 9) := by
        rw [show k + 1 - 9 = k - 9 + 1 by omega, BitVec.ofNat_add]
        rfl
      simp only [hk, decide_true, and_self, if_true, hsucc]
      by_cases hlast : k = 16
      · subst hlast
        rfl
      · rw [if_pos (by omega)]
    · simp only [hk, decide_false, if_false, Bool.false_eq_true, ite_self]
      by_cases hfirst : k = 8
      · subst hfirst
        rfl
      · rw [if_neg (by omega)]
  loadingDly i := by
    unfold LoadState.clock dlyline
    dsimp only
    split_ifs with hi
    · rw [h.loading, decide_eq_decide]
      omega
    · rw [h.loadingDly, decide_eq_decide]
      dsimp only
      omega
  loadCtrDly i hlo hhi := by
    unfold LoadState.clock dlyline
    dsimp only
    split_ifs with hi
    · rw [h.loadCtr, if_pos (by omega)]
      congr 1
      omega
    · rw [h.loadCtrDly _ (by dsimp only; omega) (by dsimp only; omega)]
      congr 1
      dsimp only
      omega
  readData hlo hhi := by
    unfold LoadState.clock
    dsimp only
    rw [h.loadCtr, if_pos (by omega)]
    congr 3
  progWord hlo hhi := by
    unfold LoadState.clock
    dsimp only
    rw [h.readData (by omega) (by omega)]
    congr 3
  seqState := by
    unfold LoadState.clock
    dsimp only
    rw [h.loadingDly, h.seqState]
    by_cases hk : 11 ≤ k ∧ k ≤ 18
    · have hword : min (k + 1 - 11) 8 = min (k - 11) 8 + 1 := by omega
      have hindex : k - 10 - 1 = min (k - 11) 8 := by omega
      have hprog : k - 11 = min (k - 11) 8 := by omega
      rw [hword, loadWords, h.loadCtrDly 1 hk.1 hk.2, h.progWord hk.1 hk.2]
      simp only [Fin.val_one, hindex, ← hprog]
      rw [if_pos (by simpa using hk)]
    · have hword : min (k + 1 - 11) 8 = min (k - 11) 8 := by omega
      rw [hword, if_neg (by simpa using hk)]

end load

/-! ### Settling -/

/-- The number of clocks after a turn clock in which everything arrives. -/
def settlingTime : ℕ := 24

/-- At the end of a turn, everything has arrived where the next turn clock needs it. -/
structure Settled (p : Program) (T : Turn) (s : SequencerTop) : Prop where
  resets : s.pc.resetIn = false ∧ s.pc.resetOut = false
  seqPc : s.pc.seqPc = T.seqPc
  superCount : s.pc.superCount = T.superCount
  loading : s.pc.loading = T.stateEnd
  startLoad : s.pc.startLoad = false
  load : s.load.Idle (p.state T.seqPc)
  freqBase : s.super.ncoFreqBase = p.superMemory T.superCount
  dwell : s.dwell = T.dwell
  captureCntr : s.counter.captureCntr = T.captureCntr
  ncoFreq : s.counter.ncoFreq = T.ncoFreq
  nextCaptureCntr : s.counter.nextCaptureCntr = T.nextCaptureCntr p
  nextNcoFreq : s.counter.nextNcoFreq = T.nextNcoFreq p
  stateEnd : s.counter.stateEnd = T.stateEnd
  windowDly : ∀ i, s.window.windowDly i = false
  writeEnable : s.window.writeEnable = T.writeEnable

/-- The registers `j` clocks after the turn clock that ended turn `T`, in a turn in which the
program counter sees `trigger`. -/
structure Settling (p : Program) (T : Turn) (trigger : Bool) (j : ℕ) (s : SequencerTop) : Prop where
  resets : s.pc.resetIn = false ∧ s.pc.resetOut = false
  seqPc : s.pc.seqPc = if j < 4 then T.seqPc else (T.next p trigger).seqPc
  superCount : s.pc.superCount = if j < 4 then T.superCount else (T.next p trigger).superCount
  loading : s.pc.loading = (decide (4 ≤ j) && (T.count p).stateEnd)
  startLoad : s.pc.startLoad = (decide (j = 4) && (T.count p).stateEnd)
  dwell : s.dwell = { (T.count p).dwell with
    firstTurn := decide (j = 1) && (T.nextDwell p).firstTurn
    lastTurn := decide (2 ≤ j) && (T.count p).lastTurn }
  captureCntr : s.counter.captureCntr = (T.count p).captureCntr
  ncoFreq : s.counter.ncoFreq = (T.count p).ncoFreq
  captureCntrZero : 2 ≤ j → s.counter.captureCntrZero = ((T.count p).captureCntr == 0)
  turnClockDelay : s.counter.turnClockDelay = decide (j = 1)
  stateEnd : s.counter.stateEnd = (decide (3 ≤ j) && (T.count p).stateEnd)
  windowDly : ∀ i, s.window.windowDly i = ((T.nextDwell p).firstTurn && decide (i.val + 2 = j))
  writeEnable : s.window.writeEnable = if j < 5 then T.writeEnable else (T.count p).writeEnable
  loadOld : j ≤ 4 ∨ (T.count p).stateEnd = false → s.load.Idle (p.state T.seqPc)
  loadNew : 4 ≤ j → (T.count p).stateEnd = true →
    s.load.At p.memory (T.next p trigger).seqPc (p.state T.seqPc) (j - 4)
  readData : 5 ≤ j → s.super.readData = p.superMemory (T.next p trigger).superCount
  freqBase : 6 ≤ j → s.super.ncoFreqBase = p.superMemory (T.next p trigger).superCount
  nextCaptureCntr : settlingTime ≤ j → s.counter.nextCaptureCntr = (T.next p trigger).nextCaptureCntr p
  nextNcoFreq : settlingTime ≤ j → s.counter.nextNcoFreq = (T.next p trigger).nextNcoFreq p

section settling
variable {p : Program} {T : Turn} {trigger : Bool} {j : ℕ} {s : SequencerTop} {i : Input}

/-- While a state is being loaded the program counter stands still. -/
theorem Settled.pc_still (h : Settled p T s) :
    (s.clock p i).pc.seqPc = T.seqPc ∧ (s.clock p i).pc.superCount = T.superCount ∧
      (s.clock p i).pc.startLoad = false := by
  cases hend : T.stateEnd <;>
    simp [SequencerTop.clock, Pc.clock, h.loading, h.stateEnd, h.resets, h.seqPc, h.superCount,
      h.startLoad, hend]

/-- The first clock after a turn clock. -/
theorem Settled.turnClock (h : Settled p T s) (hturn : i.turnClock = true) (hreset : i.reset = false)
    (hblanking : i.blanking = false) (trigger : Bool) : Settling p T trigger 1 (s.clock p i) where
  resets := by
    simp [SequencerTop.clock, Pc.clock, hreset, h.resets]
  seqPc := h.pc_still.1
  superCount := h.pc_still.2.1
  loading := by
    simp [SequencerTop.clock, Pc.clock, h.loading, h.stateEnd, hturn, h.resets]
  startLoad := h.pc_still.2.2
  dwell := by
    simp [SequencerTop.clock, Dwell.clock, hturn, hblanking, h.resets, h.dwell, h.stateEnd,
      h.load.seqState, Turn.count, Turn.nextDwell, Turn.dwell]
  captureCntr := by
    simp [SequencerTop.clock, Counter.clock, hturn, h.resets, h.captureCntr, h.nextCaptureCntr,
      h.dwell, Turn.dwell, Turn.count]
  ncoFreq := by
    simp [SequencerTop.clock, Counter.clock, hturn, h.resets, h.ncoFreq, h.nextNcoFreq,
      h.dwell, Turn.dwell, Turn.count]
  captureCntrZero hj := by omega
  turnClockDelay := by
    simp [SequencerTop.clock, Counter.clock, hturn]
  stateEnd := by
    simp [SequencerTop.clock, Counter.clock, hturn]
  windowDly k := by
    have hfirst : s.dwell.firstTurn = false := by rw [h.dwell]; rfl
    have hk : decide (k.val + 2 = 1) = false := by simp
    unfold SequencerTop.clock Window.clock dlyline
    dsimp only
    rw [hk, Bool.and_false]
    split_ifs
    · exact hfirst
    · exact h.windowDly _
  writeEnable := by
    simp [SequencerTop.clock, Window.clock, h.windowDly, h.writeEnable]
  loadOld _ := by
    have hidle := h.load.clock p.memory s.pc.seqPc
    unfold SequencerTop.clock
    dsimp only
    rwa [h.startLoad]
  loadNew hj := by omega
  readData hj := by omega
  freqBase hj := by omega
  nextCaptureCntr hj := by
    unfold settlingTime at hj
    omega
  nextNcoFreq hj := by
    unfold settlingTime at hj
    omega

/-- Unless its state ends, the program counter stays. -/
theorem Turn.next_seqPc (hend : (T.count p).stateEnd = false) :
    (T.next p trigger).seqPc = T.seqPc := by
  unfold Turn.next Turn.advancePc
  rw [hend]
  rfl

/-- The next state has been loaded. -/
theorem Settling.seqState (h : Settling p T trigger j s) (hj : 23 ≤ j) :
    s.load.seqState = p.state (T.next p trigger).seqPc := by
  cases hend : (T.count p).stateEnd with
  | false =>
      rw [Turn.next_seqPc hend]
      exact (h.loadOld (Or.inr hend)).seqState
  | true =>
      rw [(h.loadNew (by omega) hend).loaded (by omega)]
      unfold Program.state
      rfl

/-- Everything has arrived. -/
theorem Settling.settled (h : Settling p T trigger j s) (hj : settlingTime ≤ j) :
    Settled p (T.next p trigger) s := by
  unfold settlingTime at hj
  exact {
    resets := h.resets
    seqPc := by rw [h.seqPc, if_neg (by omega)]
    superCount := by rw [h.superCount, if_neg (by omega)]
    loading := by
      rw [h.loading, decide_eq_true (by omega)]
      rfl
    startLoad := by
      rw [h.startLoad, decide_eq_false (by omega)]
      rfl
    load := by
      cases hend : (T.count p).stateEnd with
      | false =>
          rw [Turn.next_seqPc hend]
          exact h.loadOld (Or.inr hend)
      | true =>
          unfold Program.state
          exact (h.loadNew (by omega) hend).idle (by omega)
    freqBase := h.freqBase (by omega)
    dwell := by
      rw [h.dwell, decide_eq_false (by omega), decide_eq_true (by omega)]
      rfl
    captureCntr := h.captureCntr
    ncoFreq := h.ncoFreq
    nextCaptureCntr := h.nextCaptureCntr hj
    nextNcoFreq := h.nextNcoFreq hj
    stateEnd := by
      rw [h.stateEnd, decide_eq_true (by omega)]
      rfl
    windowDly := by
      intro k
      rw [h.windowDly, decide_eq_false (by omega), Bool.and_false]
    writeEnable := by
      rw [h.writeEnable, if_neg (by omega)]
      rfl }

/-- The program counter between turn clocks: it advances in the third clock, and only in the last
turn of a state. -/
theorem Settling.pc_clock (h : Settling p T trigger j s) (hturn : i.turnClock = false)
    (htrigger : j = 3 → s.pc.triggerIn i.trigger = trigger) :
    ((s.clock p i).pc.seqPc = if j + 1 < 4 then T.seqPc else (T.next p trigger).seqPc) ∧
      ((s.clock p i).pc.superCount =
        if j + 1 < 4 then T.superCount else (T.next p trigger).superCount) ∧
      (s.clock p i).pc.loading = (decide (4 ≤ j + 1) && (T.count p).stateEnd) ∧
      (s.clock p i).pc.startLoad = (decide (j + 1 = 4) && (T.count p).stateEnd) := by
  have hpc := h.seqPc
  have hsuper := h.superCount
  have hloading := h.loading
  have hstart := h.startLoad
  have hstateEnd := h.stateEnd
  have hresets := h.resets
  obtain hlt | rfl | hgt := lt_trichotomy j 3
  · -- The end of the state is not yet recognised.
    rw [decide_eq_false (by omega), Bool.false_and] at hloading hstart hstateEnd
    rw [if_pos (by omega)] at hpc hsuper
    rw [if_pos (by omega), if_pos (by omega), decide_eq_false (by omega),
      decide_eq_false (by omega)]
    simp [SequencerTop.clock, Pc.clock, hpc, hsuper, hloading, hstart, hstateEnd, hresets]
  · cases hend : (T.count p).stateEnd <;> rw [hend] at hstateEnd hloading hstart <;>
      simp [SequencerTop.clock, Pc.clock, hpc, hsuper, hloading, hstart, hstateEnd, hresets,
        htrigger rfl, Turn.next, Turn.advancePc, hend, hturn] <;>
      exact ⟨rfl, rfl⟩
  · -- The program counter has advanced if it was to, and is held until the turn clock.
    rw [decide_eq_true (by omega), Bool.true_and] at hloading hstateEnd
    rw [if_neg (by omega)] at hpc hsuper
    rw [if_neg (by omega), if_neg (by omega), decide_eq_true (by omega),
      decide_eq_false (by omega)]
    cases hend : (T.count p).stateEnd <;> rw [hend] at hstateEnd hloading hstart <;>
      simp [SequencerTop.clock, Pc.clock, hpc, hsuper, hloading, hstart, hstateEnd, hresets, hturn]

/-- A clock that is not a turn clock. -/
theorem Settling.clock (h : Settling p T trigger j s) (hj : 1 ≤ j) (hturn : i.turnClock = false)
    (hreset : i.reset = false)
    (htrigger : j = 3 → s.pc.triggerIn i.trigger = trigger) :
    Settling p T trigger (j + 1) (s.clock p i) where
  resets := by
    simp [SequencerTop.clock, Pc.clock, hreset, hturn, h.resets]
  seqPc := (h.pc_clock hturn htrigger).1
  superCount := (h.pc_clock hturn htrigger).2.1
  loading := (h.pc_clock hturn htrigger).2.2.1
  startLoad := (h.pc_clock hturn htrigger).2.2.2
  dwell := by
    simp [SequencerTop.clock, Dwell.clock, hturn, h.dwell, Turn.dwell, Turn.lastTurn]
    exact ⟨fun hzero => by omega, fun _ _ => hj⟩
  captureCntr := by
    simp [SequencerTop.clock, Counter.clock, hturn, h.captureCntr]
  ncoFreq := by
    simp [SequencerTop.clock, Counter.clock, hturn, h.ncoFreq]
  captureCntrZero _ := by
    simp [SequencerTop.clock, Counter.clock, h.captureCntr]
  turnClockDelay := by
    simp [SequencerTop.clock, Counter.clock, hturn]
    omega
  stateEnd := by
    obtain rfl | hlt := hj.eq_or_lt
    · simp [SequencerTop.clock, Counter.clock, h.turnClockDelay]
    · have hdelay : decide (j = 1) = false := decide_eq_false (by omega)
      have htwo : decide (2 ≤ j) = true := decide_eq_true hlt
      simp [SequencerTop.clock, Counter.clock, hturn, h.turnClockDelay, hdelay, h.dwell, htwo,
        h.captureCntrZero hlt, Turn.stateEnd]
  windowDly k := by
    unfold SequencerTop.clock Window.clock dlyline
    dsimp only
    split_ifs with hk
    · have hone : decide (k.val + 2 = j + 1) = decide (j = 1) := by
        rw [decide_eq_decide]
        omega
      rw [h.dwell, hone, Bool.and_comm]
    · have hplace : decide (k.val - 1 + 2 = j) = decide (k.val + 2 = j + 1) := by
        rw [decide_eq_decide]
        omega
      rw [h.windowDly, hplace]
  writeEnable := by
    have hdly : s.window.windowDly 2 = ((T.nextDwell p).firstTurn && decide (4 = j)) := h.windowDly 2
    have hwrite := h.writeEnable
    unfold SequencerTop.clock Window.clock
    dsimp only
    obtain hlt | rfl | hgt := lt_trichotomy j 4
    · rw [if_pos (by omega)] at hwrite
      rw [hdly, decide_eq_false (by omega), Bool.and_false, if_neg Bool.false_ne_true, hwrite,
        if_pos (by omega)]
    · -- The state that is running has not yet been overwritten.
      have hstate := (h.loadOld (Or.inl le_rfl)).seqState
      rw [hdly, hwrite, hstate]
      simp [Turn.count]
    · rw [if_neg (by omega)] at hwrite
      rw [hdly, decide_eq_false (by omega), Bool.and_false, if_neg Bool.false_ne_true, hwrite,
        if_neg (by omega)]
  loadOld hold := by
    have hidle := (h.loadOld (hold.imp_left Nat.le_of_succ_le)).clock p.memory s.pc.seqPc
    have hstart : s.pc.startLoad = false := by
      rw [h.startLoad]
      obtain hle | hend := hold
      · rw [decide_eq_false (by omega), Bool.false_and]
      · rw [hend, Bool.and_false]
    unfold SequencerTop.clock
    dsimp only
    rwa [hstart]
  loadNew hfour hend := by
    unfold SequencerTop.clock
    dsimp only
    rw [h.startLoad, hend, Bool.and_true]
    obtain rfl | hlt : j = 3 ∨ 4 ≤ j := by omega
    · exact ((h.loadOld (by omega)).clock p.memory s.pc.seqPc).at_zero
    · have hat := (h.loadNew hlt hend).clock
      have hpc := h.seqPc
      rw [if_neg (by omega)] at hpc
      rw [hpc, show j + 1 - 4 = j - 4 + 1 by omega]
      have hzero : decide (j = 4) = decide (j - 4 = 0) := by
        rw [decide_eq_decide]
        omega
      rwa [hzero]
  readData hfive := by
    have hsuper := h.superCount
    rw [if_neg (by omega)] at hsuper
    unfold SequencerTop.clock Super.clock
    dsimp only
    rw [hsuper]
  freqBase hsix := h.readData (by omega)
  nextCaptureCntr htime := by
    unfold settlingTime at htime
    have hstate := h.seqState (by omega)
    have hzero := h.captureCntrZero (by omega)
    unfold SequencerTop.clock Counter.clock Turn.nextCaptureCntr
    dsimp only
    rw [hstate, hzero, h.captureCntr]
    simp only [beq_iff_eq]
    rfl
  nextNcoFreq htime := by
    unfold settlingTime at htime
    have hstate := h.seqState (by omega)
    have hzero := h.captureCntrZero (by omega)
    have hbase := h.freqBase (by omega)
    unfold SequencerTop.clock Counter.clock Turn.nextNcoFreq
    dsimp only
    rw [hstate, hzero, hbase, h.ncoFreq]
    simp only [beq_iff_eq]
    rfl

end settling

end Mbf.Sequencer
