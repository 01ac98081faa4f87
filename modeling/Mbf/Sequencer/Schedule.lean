import Mathlib.Tactic.Ring
import Mbf.Sequencer.Run

/-! # The schedule of a program

What a program makes the detector write, state after state and super state after super state
(`Program.writes`), and the proof that a run does just that, turn by turn.

The proof has a contract for each block of a run: the turns of a holdoff (`holdoff_run`), those
of a dwell (`dwell_run`), a dwell with its holdoff (`begun_run`), the first dwell of a state with
the state holdoff (`entered_run`), the dwells of a state (`state_run`), all states
(`sweep_run`) and all super states (`super_run`).  The last dwell of a block is written at the
turn clock after it, so what a contract says has been written counts that one
(`Observer.after`). -/

namespace Mbf.Sequencer

/-! ### Schedules -/

namespace Program

/-- The turns of a dwell with its holdoff. -/
def dwellTurns (p : Program) (seqPc : BitVec 3) : ℕ :=
  (p.state seqPc).holdoffCount.toNat + ((p.state seqPc).dwellCount.toNat + 1)

/-- The number of dwells of a state. -/
def captures (p : Program) (seqPc : BitVec 3) : ℕ := (p.state seqPc).captureCount.toNat + 1

/-- The turns of a state. -/
def stateTurns (p : Program) (seqPc : BitVec 3) : ℕ :=
  (p.state seqPc).stateHoldoff.toNat + p.captures seqPc * p.dwellTurns seqPc

/-- The first frequency of a state. -/
def startFreq (p : Program) (seqPc : BitVec 3) (superCount : BitVec 11) : Angle :=
  if (p.state seqPc).disableSuper then (p.state seqPc).startFreq
  else (p.state seqPc).startFreq + p.superMemory superCount

/-- What a state that starts in turn `turn` writes. -/
def stateWrites (p : Program) (superCount : BitVec 11) (seqPc : BitVec 3) (turn : ℕ) :
    List (Angle × ℕ) :=
  if (p.state seqPc).enableWrite then
    (List.range (p.captures seqPc)).map fun i =>
      (p.startFreq seqPc superCount + BitVec.ofNat 48 i * (p.state seqPc).deltaFreq,
        turn + (p.state seqPc).stateHoldoff.toNat + i * p.dwellTurns seqPc)
  else []

/-- The turns of the states from `k` down to 1. -/
def sweepTurns (p : Program) : ℕ → ℕ
  | 0 => 0
  | k + 1 => p.stateTurns (BitVec.ofNat 3 (k + 1)) + p.sweepTurns k

/-- What the states from `k` down to 1 write. -/
def sweepWrites (p : Program) (superCount : BitVec 11) : ℕ → ℕ → List (Angle × ℕ)
  | 0, _ => []
  | k + 1, turn =>
      p.stateWrites superCount (BitVec.ofNat 3 (k + 1)) turn ++
        p.sweepWrites superCount k (turn + p.stateTurns (BitVec.ofNat 3 (k + 1)))

/-- What `n` super states, the last of them 0, write. -/
def superWrites (p : Program) : ℕ → ℕ → List (Angle × ℕ)
  | 0, _ => []
  | n + 1, turn =>
      p.sweepWrites (BitVec.ofNat 11 n) p.seqPc.toNat turn ++
        p.superWrites n (turn + p.sweepTurns p.seqPc.toNat)

/-- What the whole program writes. -/
def writes (p : Program) : List (Angle × ℕ) := p.superWrites (p.superCount.toNat + 1) 0

/-- The turns of the whole program. -/
def turns (p : Program) : ℕ := (p.superCount.toNat + 1) * p.sweepTurns p.seqPc.toNat

end Program

/-! ### Single turns -/

/-- The first turn of a dwell or, if it has one, of its holdoff. -/
theorem Dwell.turn_begins {d : Dwell} {state : SeqState} {stateEnd : Bool}
    (hbegins : d.begins state stateEnd = true)
    (hstate : d.inHoldoff = false → d.inStateHoldoff = false) :
    d.turn state false false stateEnd =
      if state.holdoffCount = 0#16 then { d with
        inHoldoff := false
        inStateHoldoff := false
        dwellCtr := state.dwellCount
        firstTurn := true }
      else { d with
        inHoldoff := true
        inStateHoldoff := false
        holdoffCtr := state.holdoffCount - 1 } := by
  have hpositive : 0 < state.holdoffCount.toNat ↔ state.holdoffCount ≠ 0#16 := by
    rw [Nat.pos_iff_ne_zero, ne_eq, ne_eq, ← BitVec.toNat_inj]
    rfl
  obtain ⟨inHoldoff, inStateHoldoff, holdoffCtr, dwellCtr, firstTurn, lastTurn⟩ := d
  by_cases hh : state.holdoffCount = 0#16
  · cases inHoldoff <;> cases inStateHoldoff <;> cases stateEnd <;>
      simp_all [begins, turn]
  · cases inHoldoff <;> cases inStateHoldoff <;> cases stateEnd <;>
      simp_all [begins, turn]

namespace Turn
variable {p : Program} {T : Turn}

/-- A turn of holdoff that is not the last. -/
theorem next_holdoff (trigger : Bool) (hin : T.inHoldoff = true) (hctr : T.holdoffCtr ≠ 0#16) :
    T.next p trigger = { T with holdoffCtr := T.holdoffCtr - 1 } ∧ T.begins p = false ∧
      T.writes = false := by
  simp [next, advancePc, count, stateEnd, lastTurn, nextDwell, Dwell.turn, dwell, hin, hctr,
    begins, Dwell.begins, writes]

/-- The end of the holdoff of a dwell. -/
theorem next_dwell (trigger : Bool) (hin : T.inHoldoff = true) (hstate : T.inStateHoldoff = false)
    (hctr : T.holdoffCtr = 0#16) :
    T.next p trigger = ({ T with
      inHoldoff := false
      dwellCtr := (p.state T.seqPc).dwellCount
      writeEnable := (p.state T.seqPc).enableWrite } : Turn).advancePc p trigger ∧
      T.begins p = false ∧ T.writes = false := by
  simp [next, count, lastTurn, nextDwell, Dwell.turn, dwell, hin, hctr, hstate,
    begins, Dwell.begins, writes]

/-- A turn of a dwell that is not the last. -/
theorem next_dwelling (trigger : Bool) (hin : T.inHoldoff = false) (hctr : T.dwellCtr ≠ 0#16) :
    T.next p trigger = ({ T with dwellCtr := T.dwellCtr - 1 } : Turn).advancePc p trigger ∧
      T.begins p = false ∧ T.writes = false := by
  simp [next, count, lastTurn, nextDwell, Dwell.turn, dwell, hin, hctr, begins, Dwell.begins,
    writes]

/-- The trigger matters only while the sequencer is idle. -/
theorem advance_trigger {seqPc : BitVec 3} (h : seqPc ≠ 0#3) (superCount : BitVec 11)
    (trigger : Bool) : advance seqPc superCount trigger p = advance seqPc superCount false p := by
  simp [advance, h]

/-- The first turn of a dwell or, if it has one, of its holdoff. -/
theorem next_begins (trigger : Bool) (hbegins : T.begins p = true)
    (hstate : T.inHoldoff = false → T.inStateHoldoff = false) :
    T.next p trigger =
      if (p.state T.seqPc).holdoffCount = 0#16 then
        ({ T with
          inHoldoff := false
          inStateHoldoff := false
          dwellCtr := (p.state T.seqPc).dwellCount
          captureCntr := (T.count p).captureCntr
          ncoFreq := (T.count p).ncoFreq
          writeEnable := (p.state T.seqPc).enableWrite } : Turn).advancePc p trigger
      else { T with
        inHoldoff := true
        inStateHoldoff := false
        holdoffCtr := (p.state T.seqPc).holdoffCount - 1
        captureCntr := (T.count p).captureCntr
        ncoFreq := (T.count p).ncoFreq } := by
  have hturn : T.nextDwell p = _ := Dwell.turn_begins (d := T.dwell) hbegins hstate
  have hlast : (T.nextDwell p).inHoldoff = true ∨ (T.nextDwell p).dwellCtr ≠ 0#16 →
      (T.count p).stateEnd = false := by
    rintro (h | h) <;> simp [stateEnd, lastTurn, count, h]
  by_cases hh : (p.state T.seqPc).holdoffCount = 0#16
  · rw [if_pos hh] at hturn ⊢
    simp [next, count, hturn, dwell]
  · rw [if_neg hh] at hturn ⊢
    have hend := hlast (Or.inl (by rw [hturn]))
    simp [next, advancePc, hend]
    simp [count, hturn, dwell]

/-- The first turn of a state holdoff. -/
theorem next_entered (trigger : Bool) (hend : T.stateEnd = true)
    (hholdoff : (p.state T.seqPc).stateHoldoff ≠ 0#16) :
    T.next p trigger = { T with
        inHoldoff := true
        inStateHoldoff := true
        holdoffCtr := (p.state T.seqPc).stateHoldoff - 1
        captureCntr := (p.state T.seqPc).captureCount
        ncoFreq := p.startFreq T.seqPc T.superCount } ∧ T.begins p = false := by
  have hpositive : 0 < (p.state T.seqPc).stateHoldoff.toNat := by
    rw [Nat.pos_iff_ne_zero]
    exact fun h => hholdoff (BitVec.toNat_inj.mp h)
  have hlast : (T.inHoldoff = false ∧ T.dwellCtr = 0#16) ∧ T.captureCntr = 0#16 := by
    simpa [stateEnd, lastTurn] using hend
  simp [next, count, advancePc, stateEnd, lastTurn, nextDwell, Dwell.turn, dwell, hlast,
    hpositive, begins, Dwell.begins, nextCaptureCntr, nextNcoFreq, Program.startFreq]

end Turn

/-! ### Blocks of turns -/

/-- The writes once the dwell that ends with the turn has been written, if it is. -/
def Observer.after (o : Observer) (T : Turn) : List (Angle × ℕ) := o.written T.writes T.ncoFreq

/-- A turn in which nothing begins and nothing is written. -/
theorem Observer.next_quiet {o : Observer} {p : Program} {T : Turn} (hpc : T.seqPc ≠ 0#3)
    (hbegins : T.begins p = false) (hwrites : T.writes = false) :
    o.next p T = { o with turns := o.turns + 1 } := by
  simp [next, turn, written, hpc, hbegins, hwrites]

/-- A turn with which a dwell begins. -/
theorem Observer.next_begins {o : Observer} {p : Program} {T : Turn} (hpc : T.seqPc ≠ 0#3)
    (hbegins : T.begins p = true) :
    o.next p T = ⟨o.turns + 1, o.turns, o.after T⟩ := by
  simp [next, turn, after, hpc, hbegins]

/-- A sequence of turns. -/
def IsRun (p : Program) (trigger : ℕ → Bool) (r : ℕ → Turn × Observer) : Prop :=
  ∀ n, r (n + 1) = ((r n).1.next p (trigger n), (r n).2.next p (r n).1)

theorem turnRun_isRun (p : Program) (trigger : ℕ → Bool) (T : Turn) :
    IsRun p trigger (turnRun p trigger T) := fun _ => rfl

/-- A turn of holdoff in state `seqPc`, with `k` more to come; `early` in the state holdoff. -/
structure Turn.Held (seqPc : BitVec 3) (superCount : BitVec 11) (captures : BitVec 16)
    (freq : Angle) (early : Bool) (k : ℕ) (T : Turn) : Prop where
  inHoldoff : T.inHoldoff = true
  inStateHoldoff : T.inStateHoldoff = early
  holdoffCtr : T.holdoffCtr.toNat = k
  seqPc : T.seqPc = seqPc
  superCount : T.superCount = superCount
  captureCntr : T.captureCntr = captures
  ncoFreq : T.ncoFreq = freq

/-- A turn of a dwell of state `seqPc`, with `k` more to come.  In the last turn of the state the
program counter has advanced. -/
structure Turn.Dwelling (p : Program) (seqPc : BitVec 3) (superCount : BitVec 11)
    (captures : BitVec 16) (freq : Angle) (k : ℕ) (T : Turn) : Prop where
  inHoldoff : T.inHoldoff = false
  inStateHoldoff : T.inStateHoldoff = false
  dwellCtr : T.dwellCtr.toNat = k
  captureCntr : T.captureCntr = captures
  ncoFreq : T.ncoFreq = freq
  writeEnable : T.writeEnable = (p.state seqPc).enableWrite
  next : (T.seqPc, T.superCount) =
    if k = 0 ∧ captures = 0#16 then advance seqPc superCount false p else (seqPc, superCount)

section blocks
variable {p : Program} {T U : Turn} {o : Observer} {seqPc : BitVec 3}
  {superCount : BitVec 11} {captures : BitVec 16} {freq : Angle} {early : Bool} {k n : ℕ}

theorem toNat_pred {x : BitVec 16} (h : x.toNat = k + 1) : x ≠ 0#16 ∧ (x - 1).toNat = k := by
  constructor
  · rintro rfl
    cases h
  · rw [BitVec.toNat_sub_of_le]
    · rw [h]
      rfl
    · rw [BitVec.le_def, h]
      exact Nat.succ_le_succ (Nat.zero_le k)

/-- A turn of holdoff that is not the last. -/
theorem Turn.Held.next (trigger : Bool) (h : T.Held seqPc superCount captures freq early (k + 1))
    (hpc : seqPc ≠ 0#3) :
    (T.next p trigger).Held seqPc superCount captures freq early k ∧
      o.next p T = { o with turns := o.turns + 1 } := by
  obtain ⟨hne, hpred⟩ := toNat_pred h.holdoffCtr
  obtain ⟨hnext, hbegins, hwrites⟩ := Turn.next_holdoff (p := p) trigger h.inHoldoff hne
  rw [hnext]
  exact ⟨⟨h.inHoldoff, h.inStateHoldoff, hpred, h.seqPc, h.superCount, h.captureCntr, h.ncoFreq⟩,
    Observer.next_quiet (h.seqPc.symm ▸ hpc) hbegins hwrites⟩

/-- The dwell registers before the program counter advances. -/
theorem Turn.Dwelling.of_advancePc (trigger : Bool) (hpc : U.seqPc = seqPc)
    (hsuper : U.superCount = superCount)
    (hcapture : U.captureCntr = captures) (hfreq : U.ncoFreq = freq) (hdwell : U.dwellCtr.toNat = k)
    (hin : U.inHoldoff = false) (hstate : U.inStateHoldoff = false)
    (hwrite : U.writeEnable = (p.state seqPc).enableWrite) (hne : seqPc ≠ 0#3) :
    (U.advancePc p trigger).Dwelling p seqPc superCount captures freq k where
  inHoldoff := hin
  inStateHoldoff := hstate
  dwellCtr := hdwell
  captureCntr := hcapture
  ncoFreq := hfreq
  writeEnable := hwrite
  next := by
    have hzero : k = 0 ↔ U.dwellCtr = 0#16 := by
      rw [← hdwell, ← BitVec.toNat_inj]
      rfl
    by_cases hd : U.dwellCtr = 0#16 <;> by_cases hc : captures = 0#16 <;>
      simp [Turn.advancePc, Turn.stateEnd, Turn.lastTurn, hin, hd, hc, hzero, hcapture, hpc,
        hsuper, Turn.advance_trigger hne]

/-- A turn of a dwell that is not the last. -/
theorem Turn.Dwelling.next' (trigger : Bool) (h : T.Dwelling p seqPc superCount captures freq (k + 1))
    (hne : seqPc ≠ 0#3) :
    (T.next p trigger).Dwelling p seqPc superCount captures freq k ∧
      o.next p T = { o with turns := o.turns + 1 } := by
  obtain ⟨hctr, hpred⟩ := toNat_pred h.dwellCtr
  obtain ⟨hnext, hbegins, hwrites⟩ :=
    Turn.next_dwelling (p := p) trigger h.inHoldoff hctr
  have hsame := h.next
  rw [if_neg (by simp), Prod.mk.injEq] at hsame
  rw [hnext]
  refine ⟨Turn.Dwelling.of_advancePc trigger hsame.1 hsame.2 h.captureCntr h.ncoFreq hpred h.inHoldoff
    h.inStateHoldoff h.writeEnable hne, Observer.next_quiet ?_ hbegins hwrites⟩
  rwa [hsame.1]

/-- The dwell after its holdoff. -/
theorem Turn.Held.next_dwell (trigger : Bool) (h : T.Held seqPc superCount captures freq false 0)
    (hne : seqPc ≠ 0#3) :
    (T.next p trigger).Dwelling p seqPc superCount captures freq
        (p.state seqPc).dwellCount.toNat ∧
      o.next p T = { o with turns := o.turns + 1 } := by
  have hctr : T.holdoffCtr = 0#16 := BitVec.toNat_inj.mp h.holdoffCtr
  obtain ⟨hnext, hbegins, hwrites⟩ := Turn.next_dwell (p := p) trigger h.inHoldoff
    h.inStateHoldoff hctr
  rw [hnext, h.seqPc]
  refine ⟨Turn.Dwelling.of_advancePc trigger rfl h.superCount h.captureCntr h.ncoFreq rfl rfl
    h.inStateHoldoff rfl hne, Observer.next_quiet ?_ hbegins hwrites⟩
  rwa [h.seqPc]

/-- The first turn of a dwell with its holdoff. -/
theorem Turn.next_begun (trigger : Bool) (hbegins : T.begins p = true)
    (hstate : T.inHoldoff = false → T.inStateHoldoff = false) (hne : T.seqPc ≠ 0#3) :
    if (p.state T.seqPc).holdoffCount.toNat = 0 then
      (T.next p trigger).Dwelling p T.seqPc T.superCount (T.count p).captureCntr
        (T.count p).ncoFreq (p.state T.seqPc).dwellCount.toNat
    else
      (T.next p trigger).Held T.seqPc T.superCount (T.count p).captureCntr (T.count p).ncoFreq
        false ((p.state T.seqPc).holdoffCount.toNat - 1) := by
  have hzero : (p.state T.seqPc).holdoffCount.toNat = 0 ↔
      (p.state T.seqPc).holdoffCount = 0#16 := by
    rw [← BitVec.toNat_inj]
    rfl
  rw [Turn.next_begins trigger hbegins hstate]
  by_cases hh : (p.state T.seqPc).holdoffCount = 0#16
  · rw [if_pos hh, if_pos (hzero.mpr hh)]
    exact Turn.Dwelling.of_advancePc trigger rfl rfl rfl rfl rfl rfl rfl rfl hne
  · obtain ⟨k, hk⟩ := Nat.exists_eq_succ_of_ne_zero (hzero.not.mpr hh)
    rw [if_neg hh, if_neg (hzero.not.mpr hh), hk]
    exact ⟨rfl, rfl, (toNat_pred hk).2, rfl, rfl, rfl, rfl⟩

variable {r : ℕ → Turn × Observer} {triggers : ℕ → Bool}

/-- The holdoff counts down. -/
theorem holdoff_run (hr : IsRun p triggers r) (hne : seqPc ≠ 0#3) (k : ℕ) : ∀ n T o,
    r n = (T, o) → T.Held seqPc superCount captures freq early k →
    ∃ T', r (n + k) = (T', { o with turns := o.turns + k }) ∧
      T'.Held seqPc superCount captures freq early 0 := by
  induction k with
  | zero => exact fun n T o hn h => ⟨T, hn, h⟩
  | succ k ih =>
      intro n T o hn h
      obtain ⟨hnext, hobserved⟩ := h.next (p := p) (o := o) (triggers n) hne
      have hstep := hr n
      rw [hn, hobserved] at hstep
      obtain ⟨T', hT', hheld⟩ := ih (n + 1) _ _ hstep hnext
      refine ⟨T', ?_, hheld⟩
      rw [← Nat.succ_add_eq_add_succ, hT']
      simp only [Nat.add_assoc, Nat.add_comm 1]

/-- The dwell counts down to its last turn. -/
theorem dwell_run (hr : IsRun p triggers r) (hne : seqPc ≠ 0#3) (k : ℕ) : ∀ n T o,
    r n = (T, o) → T.Dwelling p seqPc superCount captures freq k →
    ∃ T', r (n + k) = (T', { o with turns := o.turns + k }) ∧
      T'.Dwelling p seqPc superCount captures freq 0 := by
  induction k with
  | zero => exact fun n T o hn h => ⟨T, hn, h⟩
  | succ k ih =>
      intro n T o hn h
      obtain ⟨hnext, hobserved⟩ := h.next' (o := o) (triggers n) hne
      have hstep := hr n
      rw [hn, hobserved] at hstep
      obtain ⟨T', hT', hdwelling⟩ := ih (n + 1) _ _ hstep hnext
      refine ⟨T', ?_, hdwelling⟩
      rw [← Nat.succ_add_eq_add_succ, hT']
      simp only [Nat.add_assoc, Nat.add_comm 1]

/-- The dwell after its holdoff. -/
theorem held_run (hr : IsRun p triggers r) (hn : r n = (T, o))
    (h : T.Held seqPc superCount captures freq false 0) (hne : seqPc ≠ 0#3) :
    ∃ T', r (n + ((p.state seqPc).dwellCount.toNat + 1)) =
        (T', { o with turns := o.turns + ((p.state seqPc).dwellCount.toNat + 1) }) ∧
      T'.Dwelling p seqPc superCount captures freq 0 := by
  obtain ⟨hnext, hobserved⟩ := h.next_dwell (p := p) (o := o) (triggers n) hne
  have hstep := hr n
  rw [hn, hobserved] at hstep
  obtain ⟨T', hT', hlast⟩ := dwell_run hr hne _ (n + 1) _ _ hstep hnext
  refine ⟨T', ?_, hlast⟩
  rw [Nat.add_comm _ 1, ← Nat.add_assoc, hT']
  simp only [Nat.add_assoc]

/-- A dwell with its holdoff. -/
theorem begun_run (hr : IsRun p triggers r) (hn : r n = (T, o)) (hbegins : T.begins p = true)
    (hstate : T.inHoldoff = false → T.inStateHoldoff = false) (hne : T.seqPc ≠ 0#3) :
    ∃ T', r (n + p.dwellTurns T.seqPc) =
        (T', ⟨o.turns + p.dwellTurns T.seqPc, o.turns, o.after T⟩) ∧
      T'.Dwelling p T.seqPc T.superCount (T.count p).captureCntr (T.count p).ncoFreq 0 := by
  have hnext := Turn.next_begun (triggers n) hbegins hstate hne
  have hstep := hr n
  rw [hn, Observer.next_begins hne hbegins] at hstep
  unfold Program.dwellTurns
  split at hnext
  · next hzero =>
      obtain ⟨T', hT', hlast⟩ := dwell_run hr hne _ (n + 1) _ _ hstep hnext
      refine ⟨T', ?_, hlast⟩
      rw [hzero, Nat.zero_add, Nat.add_comm _ 1, ← Nat.add_assoc, hT']
      simp only [Nat.add_assoc]
  · next hzero =>
      obtain ⟨k, hk⟩ := Nat.exists_eq_succ_of_ne_zero hzero
      rw [hk, Nat.succ_sub_one] at hnext
      obtain ⟨T₁, hT₁, hheld⟩ := holdoff_run hr hne k (n + 1) _ _ hstep hnext
      obtain ⟨T', hT', hlast⟩ := held_run hr hT₁ hheld hne
      refine ⟨T', ?_, hlast⟩
      have hturns : n + (k.succ + ((p.state T.seqPc).dwellCount.toNat + 1)) =
          n + 1 + k + ((p.state T.seqPc).dwellCount.toNat + 1) := by omega
      rw [hk, hturns, hT']
      congr 2
      dsimp only
      omega

/-- The end of the state holdoff is the begin of a dwell. -/
theorem Turn.Held.begins (h : T.Held seqPc superCount captures freq true 0) :
    T.begins p = true ∧ (T.count p).captureCntr = captures ∧ (T.count p).ncoFreq = freq ∧
      o.after T = o.writes := by
  have hctr : T.holdoffCtr = 0#16 := BitVec.toNat_inj.mp h.holdoffCtr
  have hlast : T.lastTurn = false := by simp [Turn.lastTurn, h.inHoldoff]
  refine ⟨?_, ?_, ?_, ?_⟩
  · simp [Turn.begins, Dwell.begins, Turn.dwell, h.inHoldoff, h.inStateHoldoff, hctr]
  · simp [Turn.count, hlast, h.captureCntr]
  · simp [Turn.count, hlast, h.ncoFreq]
  · simp [Observer.after, Observer.written, Turn.writes, hlast]

/-- The first dwell of a state, with the state holdoff. -/
theorem entered_run (hr : IsRun p triggers r) (hn : r n = (T, o)) (hend : T.stateEnd = true)
    (hstate : T.inStateHoldoff = false) (hne : T.seqPc ≠ 0#3) :
    ∃ T', r (n + ((p.state T.seqPc).stateHoldoff.toNat + p.dwellTurns T.seqPc)) =
        (T', ⟨o.turns + ((p.state T.seqPc).stateHoldoff.toNat + p.dwellTurns T.seqPc),
          o.turns + (p.state T.seqPc).stateHoldoff.toNat, o.after T⟩) ∧
      T'.Dwelling p T.seqPc T.superCount (p.state T.seqPc).captureCount
        (p.startFreq T.seqPc T.superCount) 0 := by
  have hlast : (T.inHoldoff = false ∧ T.dwellCtr = 0#16) ∧ T.captureCntr = 0#16 := by
    simpa [Turn.stateEnd, Turn.lastTurn] using hend
  by_cases hh : (p.state T.seqPc).stateHoldoff = 0#16
  · have hbegins : T.begins p = true := by
      simp [Turn.begins, Dwell.begins, Turn.dwell, hlast, hh]
    have hrun := begun_run hr hn hbegins (fun _ => hstate) hne
    have hturns : (p.state T.seqPc).stateHoldoff.toNat = 0 := by rw [hh]; rfl
    have hcapture : (T.count p).captureCntr = (p.state T.seqPc).captureCount := by
      simp [Turn.count, Turn.lastTurn, Turn.nextCaptureCntr, hlast]
    have hfreq : (T.count p).ncoFreq = p.startFreq T.seqPc T.superCount := by
      simp [Turn.count, Turn.lastTurn, Turn.nextNcoFreq, hlast, Program.startFreq]
    rw [hcapture, hfreq] at hrun
    rwa [hturns, Nat.zero_add, Nat.add_zero]
  · obtain ⟨k, hk⟩ : ∃ k, (p.state T.seqPc).stateHoldoff.toNat = k + 1 := by
      apply Nat.exists_eq_succ_of_ne_zero
      exact fun h => hh (BitVec.toNat_inj.mp h)
    obtain ⟨hnext, hbegins⟩ := Turn.next_entered (triggers n) hend hh
    have hstep := hr n
    have hobserved : o.next p T = ⟨o.turns + 1, o.began, o.after T⟩ := by
      simp [Observer.next, Observer.turn, Observer.after, hne, hbegins]
    rw [hn, hobserved, hnext] at hstep
    obtain ⟨T₁, hT₁, hheld⟩ := holdoff_run hr hne k (n + 1) _ _ hstep
      ⟨rfl, rfl, (toNat_pred hk).2, rfl, rfl, rfl, rfl⟩
    obtain ⟨hbegins₁, hcapture, hfreq, hafter⟩ := hheld.begins (p := p)
      (o := ⟨o.turns + 1 + k, o.began, o.after T⟩)
    have hrun := begun_run hr hT₁ hbegins₁ (fun h => by simp [hheld.inHoldoff] at h)
      (hheld.seqPc ▸ hne)
    rw [hcapture, hfreq, hheld.seqPc, hheld.superCount, hafter] at hrun
    have hturns : n + (k + 1 + p.dwellTurns T.seqPc) = n + 1 + k + p.dwellTurns T.seqPc := by
      omega
    have hcount : o.turns + 1 + k = o.turns + (k + 1) := by omega
    rw [hk, hturns, ← Nat.add_assoc o.turns, ← hcount]
    exact hrun

/-- A dwell that is not the last of its state is followed by another. -/
theorem Turn.Dwelling.begins (h : T.Dwelling p seqPc superCount captures freq 0)
    (hcaptures : captures ≠ 0#16) :
    T.begins p = true ∧ T.seqPc = seqPc ∧ T.superCount = superCount ∧
      (T.count p).captureCntr = captures - 1 ∧
      (T.count p).ncoFreq = freq + (p.state seqPc).deltaFreq := by
  have hnext := h.next
  rw [if_neg (fun hzero => hcaptures hzero.2), Prod.mk.injEq] at hnext
  have hctr : T.dwellCtr = 0#16 := BitVec.toNat_inj.mp h.dwellCtr
  have hlast : T.lastTurn = true := by simp [Turn.lastTurn, h.inHoldoff, hctr]
  refine ⟨?_, hnext.1, hnext.2, ?_, ?_⟩
  · simp [Turn.begins, Dwell.begins, Turn.dwell, Turn.stateEnd, h.inHoldoff, hctr, hlast,
      h.captureCntr, hcaptures]
  · simp [Turn.count, hlast, Turn.nextCaptureCntr, h.captureCntr, hcaptures]
  · simp [Turn.count, hlast, Turn.nextNcoFreq, h.captureCntr, hcaptures, h.ncoFreq, hnext.1]

/-- The last turn of a dwell writes it if the state is to be written. -/
theorem Turn.Dwelling.after (h : T.Dwelling p seqPc superCount captures freq 0) (o : Observer) :
    o.after T = o.writes ++ if (p.state seqPc).enableWrite then [(freq, o.began)] else [] := by
  have hctr : T.dwellCtr = 0#16 := BitVec.toNat_inj.mp h.dwellCtr
  have hwrites : T.writes = (p.state seqPc).enableWrite := by
    simp [Turn.writes, Turn.lastTurn, h.inHoldoff, hctr, h.writeEnable]
  unfold Observer.after Observer.written
  rw [hwrites, h.ncoFreq]
  cases (p.state seqPc).enableWrite
  · exact (List.append_nil _).symm
  · rfl

/-- What the dwells of a state write, from the one that begins in turn `began`. -/
def dwellWrites (p : Program) (seqPc : BitVec 3) (freq : Angle) (began k : ℕ) :
    List (Angle × ℕ) :=
  if (p.state seqPc).enableWrite then
    (List.range k).map fun i =>
      (freq + BitVec.ofNat 48 i * (p.state seqPc).deltaFreq, began + i * p.dwellTurns seqPc)
  else []

theorem dwellWrites_succ (p : Program) (seqPc : BitVec 3) (freq : Angle) (began k : ℕ) :
    dwellWrites p seqPc freq began (k + 1) =
      (if (p.state seqPc).enableWrite then [(freq, began)] else []) ++
        dwellWrites p seqPc (freq + (p.state seqPc).deltaFreq) (began + p.dwellTurns seqPc) k := by
  unfold dwellWrites
  cases (p.state seqPc).enableWrite with
  | false => rfl
  | true =>
      rw [if_pos rfl, if_pos rfl, if_pos rfl, List.range_succ_eq_map, List.map_cons, List.map_map]
      apply congrArg₂ List.cons
      · simp
      · apply List.map_congr_left
        intro i _
        apply Prod.ext
        · dsimp only [Function.comp]
          rw [Nat.succ_eq_add_one, BitVec.ofNat_add]
          change freq + (_ + 1) * _ = _
          ring
        · dsimp only [Function.comp]
          rw [Nat.succ_eq_add_one]
          ring

/-- The dwells of a state after the first. -/
theorem dwells_run (hr : IsRun p triggers r) (hne : seqPc ≠ 0#3) (k : ℕ) :
    ∀ n T o captures freq, r n = (T, o) → captures.toNat = k →
    T.Dwelling p seqPc superCount captures freq 0 → o.turns = o.began + p.dwellTurns seqPc →
    ∃ T' o', r (n + k * p.dwellTurns seqPc) = (T', o') ∧
      (∃ freq', T'.Dwelling p seqPc superCount 0 freq' 0) ∧
      o'.turns = o.turns + k * p.dwellTurns seqPc ∧
      o'.after T' = o.writes ++ dwellWrites p seqPc freq o.began (k + 1) := by
  induction k with
  | zero =>
      intro n T o captures freq hn hcaptures h _
      obtain rfl : captures = 0#16 := BitVec.toNat_inj.mp hcaptures
      refine ⟨T, o, ?_, ⟨freq, h⟩, ?_, ?_⟩
      · rw [Nat.zero_mul, Nat.add_zero, hn]
      · rw [Nat.zero_mul, Nat.add_zero]
      · rw [h.after, dwellWrites_succ]
        simp [dwellWrites]
  | succ k ih =>
      intro n T o captures freq hn hcaptures h hturns
      obtain ⟨hcaptures_ne, hpred⟩ := toNat_pred hcaptures
      obtain ⟨hbegins, hpc, hsuper, hcapture, hfreq⟩ := h.begins hcaptures_ne
      obtain ⟨T₁, hT₁, hdwelling⟩ := begun_run hr hn hbegins (fun _ => h.inStateHoldoff)
        (hpc ▸ hne)
      rw [hcapture, hfreq, hpc, hsuper] at hdwelling
      rw [hpc] at hT₁
      obtain ⟨T', o', hT', hlast, hturns', hafter⟩ := ih _ _ _ _ _ hT₁ hpred hdwelling rfl
      refine ⟨T', o', ?_, hlast, ?_, ?_⟩
      · rw [← hT']
        congr 1
        ring
      · rw [hturns']
        ring
      · rw [hafter, h.after, dwellWrites_succ p seqPc freq o.began, hturns, List.append_assoc]

/-- The turn in which a state ended, or the sequencer is idle; `seqPc` is the state that is to be
run. -/
structure Turn.Ended (seqPc : BitVec 3) (superCount : BitVec 11) (T : Turn) : Prop where
  stateEnd : T.stateEnd = true
  inStateHoldoff : T.inStateHoldoff = false
  seqPc : T.seqPc = seqPc
  superCount : T.superCount = superCount

/-- In the last turn of a state the program counter advances. -/
theorem Turn.Dwelling.ended (h : T.Dwelling p seqPc superCount 0 freq 0) :
    T.Ended (advance seqPc superCount false p).1 (advance seqPc superCount false p).2 := by
  have hctr : T.dwellCtr = 0#16 := BitVec.toNat_inj.mp h.dwellCtr
  have hnext := h.next
  rw [if_pos ⟨rfl, rfl⟩, Prod.ext_iff] at hnext
  refine ⟨?_, h.inStateHoldoff, hnext.1, hnext.2⟩
  simp [Turn.stateEnd, Turn.lastTurn, h.inHoldoff, hctr, h.captureCntr]

/-- A state. -/
theorem state_run (hr : IsRun p triggers r) (hn : r n = (T, o)) (h : T.Ended seqPc superCount)
    (hne : seqPc ≠ 0#3) :
    ∃ T' o', r (n + p.stateTurns seqPc) = (T', o') ∧
      T'.Ended (advance seqPc superCount false p).1 (advance seqPc superCount false p).2 ∧
      o'.turns = o.turns + p.stateTurns seqPc ∧
      o'.after T' = o.after T ++ p.stateWrites superCount seqPc o.turns := by
  obtain ⟨T₁, hT₁, hdwelling⟩ := entered_run hr hn h.stateEnd h.inStateHoldoff (h.seqPc ▸ hne)
  rw [h.seqPc] at hT₁
  rw [h.seqPc, h.superCount] at hdwelling
  obtain ⟨T', o', hT', ⟨freq', hlast⟩, hturns, hafter⟩ :=
    dwells_run hr hne _ _ _ _ _ _ hT₁ rfl hdwelling (by dsimp only; omega)
  refine ⟨T', o', ?_, hlast.ended, ?_, hafter⟩
  · rw [← hT']
    congr 1
    unfold Program.stateTurns Program.captures
    ring
  · rw [hturns]
    unfold Program.stateTurns Program.captures
    ring

theorem ofNat_ne {w : ℕ} {x : BitVec w} (hk : k < 2 ^ w) (hne : k ≠ x.toNat) :
    BitVec.ofNat w k ≠ x := by
  rintro rfl
  apply hne
  rw [BitVec.toNat_ofNat, Nat.mod_eq_of_lt hk]

theorem ofNat_succ_sub_one (w k : ℕ) : BitVec.ofNat w (k + 1) - BitVec.ofNat w 1 =
    BitVec.ofNat w k := by
  rw [BitVec.ofNat_add]
  exact BitVec.add_sub_cancel _ _

/-- The states are run downwards. -/
theorem advance_state (hk : k + 1 + 1 < 2 ^ 3) (superCount : BitVec 11) (p : Program) :
    advance (BitVec.ofNat 3 (k + 1 + 1)) superCount false p =
      (BitVec.ofNat 3 (k + 1), superCount) := by
  have hone : k + 1 + 1 ≠ (1 : BitVec 3).toNat := by
    change k + 1 + 1 ≠ 1
    omega
  unfold advance
  rw [if_neg (ofNat_ne hk (Nat.succ_ne_zero _)), if_neg (ofNat_ne hk hone)]
  exact congrArg (·, superCount) (ofNat_succ_sub_one 3 (k + 1))

/-- The super states are run downwards. -/
theorem advance_super (hk : k + 1 < 2 ^ 11) (p : Program) :
    advance 1 (BitVec.ofNat 11 (k + 1)) false p = (p.seqPc, BitVec.ofNat 11 k) := by
  unfold advance
  rw [if_neg (by decide), if_pos rfl, if_neg (ofNat_ne hk (Nat.succ_ne_zero _))]
  exact congrArg (p.seqPc, ·) (ofNat_succ_sub_one 11 k)

/-- The states from `k` down to 1. -/
theorem sweep_run (hr : IsRun p triggers r) (k : ℕ) : ∀ n T o,
    r n = (T, o) → k + 1 < 2 ^ 3 → T.Ended (BitVec.ofNat 3 (k + 1)) superCount →
    ∃ T' o', r (n + p.sweepTurns (k + 1)) = (T', o') ∧
      T'.Ended (advance 1 superCount false p).1 (advance 1 superCount false p).2 ∧
      o'.turns = o.turns + p.sweepTurns (k + 1) ∧
      o'.after T' = o.after T ++ p.sweepWrites superCount (k + 1) o.turns := by
  induction k with
  | zero =>
      intro n T o hn _ h
      obtain ⟨T', o', hT', hended, hturns, hafter⟩ := state_run hr hn h (by decide)
      exact ⟨T', o', hT', hended, hturns, by rw [hafter]; exact congrArg _ (List.append_nil _).symm⟩
  | succ k ih =>
      intro n T o hn hk h
      have hne : BitVec.ofNat 3 (k + 1 + 1) ≠ 0 := ofNat_ne hk (Nat.succ_ne_zero _)
      obtain ⟨T₁, o₁, hT₁, hended, hturns, hafter⟩ := state_run hr hn h hne
      rw [advance_state hk] at hended
      obtain ⟨T', o', hT', hended', hturns', hafter'⟩ := ih _ _ _ hT₁ (by omega) hended
      refine ⟨T', o', ?_, hended', ?_, ?_⟩
      · rw [Program.sweepTurns, ← Nat.add_assoc, hT']
      · rw [hturns', hturns, Nat.add_assoc]
        rfl
      · rw [hafter', hafter, hturns, List.append_assoc]
        rfl

/-- The super states from `k` down to 0. -/
theorem super_run (hr : IsRun p triggers r) (hne : p.seqPc ≠ 0#3) (k : ℕ) : ∀ n T o,
    r n = (T, o) → k < 2 ^ 11 → T.Ended p.seqPc (BitVec.ofNat 11 k) →
    ∃ T' o' super', r (n + (k + 1) * p.sweepTurns p.seqPc.toNat) = (T', o') ∧
      T'.Ended 0#3 super' ∧
      o'.after T' = o.after T ++ p.superWrites (k + 1) o.turns := by
  obtain ⟨m, hm⟩ : ∃ m, p.seqPc.toNat = m + 1 := by
    apply Nat.exists_eq_succ_of_ne_zero
    exact fun h => hne (BitVec.toNat_inj.mp h)
  have hpc : p.seqPc = BitVec.ofNat 3 (m + 1) := by
    rw [← hm, BitVec.ofNat_toNat, BitVec.setWidth_eq]
  have hlt : m + 1 < 2 ^ 3 := hm ▸ p.seqPc.isLt
  induction k with
  | zero =>
      intro n T o hn _ h
      rw [hpc] at h
      obtain ⟨T', o', hT', hended, -, hafter⟩ := sweep_run hr m n T o hn hlt h
      refine ⟨T', o', _, ?_, hended, ?_⟩
      · rw [hm, Nat.zero_add, Nat.one_mul, hT']
      · rw [hafter, Program.superWrites, Program.superWrites, List.append_nil, hm]
  | succ k ih =>
      intro n T o hn hk h
      rw [hpc] at h
      obtain ⟨T₁, o₁, hT₁, hended, hturns, hafter⟩ := sweep_run hr m n T o hn hlt h
      rw [advance_super hk] at hended
      obtain ⟨T', o', super', hT', hended', hafter'⟩ := ih _ _ _ hT₁ (by omega) hended
      refine ⟨T', o', super', ?_, hended', ?_⟩
      · rw [← hT', hm]
        congr 1
        ring
      · rw [hafter', hafter, hturns, List.append_assoc, ← hm]
        rfl

/-! ### The whole program -/

/-- State 0 takes single turns and writes nothing. -/
structure Program.Idles (p : Program) : Prop where
  dwellCount : (p.state 0#3).dwellCount = 0#16
  captureCount : (p.state 0#3).captureCount = 0#16
  holdoffCount : (p.state 0#3).holdoffCount = 0#16
  stateHoldoff : (p.state 0#3).stateHoldoff = 0#16
  enableWrite : (p.state 0#3).enableWrite = false

/-- A turn in state 0; in the first the last dwell before it may still have to be written. -/
theorem Turn.Ended.next (trigger : Bool) (hp : p.Idles) (h : T.Ended 0#3 superCount) :
    (T.next p trigger).Ended (advance 0#3 superCount trigger p).1
        (advance 0#3 superCount trigger p).2 ∧
      (T.next p trigger).writeEnable = false ∧ o.next p T = ⟨0, 0, o.after T⟩ := by
  have hlast : (T.inHoldoff = false ∧ T.dwellCtr = 0#16) ∧ T.captureCntr = 0#16 := by
    simpa [Turn.stateEnd, Turn.lastTurn] using h.stateEnd
  have hbegins : T.begins p = true := by
    simp [Turn.begins, Dwell.begins, Turn.dwell, hlast, h.seqPc, hp.stateHoldoff]
  have hcapture : (T.count p).captureCntr = 0#16 := by
    simp [Turn.count, Turn.lastTurn, Turn.nextCaptureCntr, hlast, h.seqPc, hp.captureCount]
  have hnext := Turn.next_begins trigger hbegins (fun _ => h.inStateHoldoff)
  rw [h.seqPc, if_pos hp.holdoffCount, hp.dwellCount, hp.enableWrite, hcapture] at hnext
  rw [hnext]
  refine ⟨⟨?_, rfl, ?_, ?_⟩, rfl, ?_⟩
  · simp [Turn.advancePc, Turn.stateEnd, Turn.lastTurn]
  · simp [Turn.advancePc, Turn.stateEnd, Turn.lastTurn, h.superCount]
  · simp [Turn.advancePc, Turn.stateEnd, Turn.lastTurn, h.superCount]
  · simp [Observer.next, Observer.turn, Observer.after, h.seqPc]

/-- The sequencer is idle. -/
structure Turn.Idle (superCount : BitVec 11) (T : Turn) : Prop extends T.Ended 0#3 superCount where
  writeEnable : T.writeEnable = false

theorem Turn.Idle.after (h : T.Idle superCount) (o : Observer) : o.after T = o.writes := by
  simp [Observer.after, Observer.written, Turn.writes, h.writeEnable]

/-- Without a trigger the sequencer stays idle. -/
theorem idle_run (hr : IsRun p triggers r) (hp : p.Idles) (hstart : r 0 = (T, {}))
    (h : T.Idle superCount) (hquiet : ∀ i < n, triggers i = false) :
    ∃ T', r n = (T', {}) ∧ T'.Idle superCount := by
  induction n with
  | zero => exact ⟨T, hstart, h⟩
  | succ n ih =>
      obtain ⟨T', hT', hidle⟩ := ih fun i hi => hquiet i (by omega)
      obtain ⟨hended, hwrite, hobserved⟩ := hidle.toEnded.next (o := {}) (triggers n) hp
      rw [hquiet n (by omega)] at hended
      refine ⟨T'.next p (triggers n), ?_, ?_, hwrite⟩
      · rw [hr n, hT', hobserved, hidle.after]
      · rw [hquiet n (by omega)]
        exact hended

/-- The whole program, from the trigger that starts it to the turn clock at which its last dwell
is written. -/
theorem program_run (hr : IsRun p triggers r) (hp : p.Idles) (hne : p.seqPc ≠ 0#3)
    (hstart : r 0 = (T, {})) (h : T.Idle superCount) (hquiet : ∀ i < n, triggers i = false)
    (htrigger : triggers n = true) : (r (n + 1 + p.turns + 1)).2 = ⟨0, 0, p.writes⟩ := by
  obtain ⟨T₀, hT₀, hidle⟩ := idle_run hr hp hstart h hquiet
  obtain ⟨hended, hwrite, hobserved⟩ := hidle.toEnded.next (o := {}) (triggers n) hp
  have hstep := hr n
  rw [hT₀, hobserved, hidle.after] at hstep
  rw [htrigger] at hstep hended
  have hsuper : p.superCount = BitVec.ofNat 11 p.superCount.toNat := by
    rw [BitVec.ofNat_toNat, BitVec.setWidth_eq]
  have hstarted : (T₀.next p true).Ended p.seqPc (BitVec.ofNat 11 p.superCount.toNat) := by
    rw [← hsuper]
    exact hended
  obtain ⟨T', o', super', hT', hlast, hafter⟩ :=
    super_run hr hne _ _ _ _ hstep p.superCount.isLt hstarted
  obtain ⟨-, -, hobserved'⟩ := hlast.next (o := o') (triggers (n + 1 + p.turns)) hp
  rw [hr, Program.turns, hT', hobserved', hafter]
  have hnone : Observer.after {} (T₀.next p true) = [] := by
    rw [htrigger] at hwrite
    simp [Observer.after, Observer.written, Turn.writes, hwrite]
  rw [hnone]
  rfl

end blocks

end Mbf.Sequencer
