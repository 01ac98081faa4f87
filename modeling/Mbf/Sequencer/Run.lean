import Mathlib.Order.Monotone.Basic
import Mbf.Sequencer.Turn

/-! # Runs of the sequencer

A run of the firmware under a stream of inputs, watched by an observer who counts the turns since
the sequence started and notes what the detector is told to write (`Observer`): the frequency, and
the turn in which the dwell began that is written, its holdoff included.

If the turn clocks are far enough apart, the run and what is observed of it are those of the turns
(`run_settled`). -/

namespace Mbf.Sequencer

/-! ### Observing a run -/

/-- A dwell begins, with its holdoff if it has one: the dwell before it is over, or the state
holdoff is. -/
def Dwell.begins (d : Dwell) (state : SeqState) (stateEnd : Bool) : Bool :=
  if d.inHoldoff then d.inStateHoldoff && (d.holdoffCtr == 0)
  else (d.dwellCtr == 0) && !(decide (0 < state.stateHoldoff.toNat) && stateEnd)

/-- What has been observed: the number of the turn that starts next, counted from the start of
the sequence, the turn in which the current dwell began, and the dwells written so far. -/
structure Observer where
  turns : ℕ := 0
  began : ℕ := 0
  writes : List (Angle × ℕ) := []
deriving DecidableEq

/-- The writes, if the dwell that ends is `written`. -/
def Observer.written (o : Observer) (written : Bool) (ncoFreq : Angle) : List (Angle × ℕ) :=
  if written then o.writes ++ [(ncoFreq, o.began)] else o.writes

/-- What is observed at a turn clock; turns are counted while the sequencer is not idle. -/
def Observer.turn (o : Observer) (idle begins written : Bool) (ncoFreq : Angle) : Observer where
  turns := if idle then 0 else o.turns + 1
  began := if idle then 0 else if begins then o.turns else o.began
  writes := o.written written ncoFreq

/-- What is observed at a clock. -/
def Observer.clock (o : Observer) (i : Input) (s : SequencerTop) : Observer :=
  if i.turnClock then
    o.turn (s.pc.seqPc == 0) (s.dwell.begins s.load.seqState s.counter.stateEnd) (s.writes i)
      s.counter.ncoFreq
  else o

/-- A run of the firmware, clock by clock. -/
def run (p : Program) (input : ℕ → Input) (s : SequencerTop) : ℕ → SequencerTop × Observer
  | 0 => (s, {})
  | t + 1 => ((run p input s t).1.clock p (input t), (run p input s t).2.clock (input t)
      (run p input s t).1)

theorem run_succ (p : Program) (input : ℕ → Input) (s : SequencerTop) (t : ℕ) :
    run p input s (t + 1) = ((run p input s t).1.clock p (input t),
      (run p input s t).2.clock (input t) (run p input s t).1) := rfl

/-! ### Turns -/

/-- A dwell begins in the next turn. -/
def Turn.begins (T : Turn) (p : Program) : Bool := T.dwell.begins (p.state T.seqPc) T.stateEnd

/-- The dwell that ends with the turn, if one does, is written. -/
def Turn.writes (T : Turn) : Bool := T.lastTurn && T.writeEnable

/-- What is observed at the turn clock that ends a turn. -/
def Observer.next (o : Observer) (p : Program) (T : Turn) : Observer :=
  o.turn (T.seqPc == 0) (T.begins p) T.writes T.ncoFreq

/-- A run turn by turn; `trigger n` is what the program counter sees in turn `n`. -/
def turnRun (p : Program) (trigger : ℕ → Bool) (T : Turn) : ℕ → Turn × Observer
  | 0 => (T, {})
  | n + 1 => ((turnRun p trigger T n).1.next p (trigger n),
      (turnRun p trigger T n).2.next p (turnRun p trigger T n).1)

/-! ### The clocks of a turn -/

/-- The turn clocks come at the given times, the first at time zero, far enough apart. -/
structure TurnClocks (input : ℕ → Input) (times : ℕ → ℕ) : Prop where
  start : times 0 = 0
  spaced : ∀ n, times n + settlingTime ≤ times (n + 1)
  turnClock : ∀ t, (input t).turnClock = true ↔ ∃ n, t = times n

/-- Before clock `last` no reset is requested, and there is no blanking. -/
def Undisturbed (input : ℕ → Input) (last : ℕ) : Prop :=
  ∀ t < last, (input t).reset = false ∧ (input t).blanking = false

theorem Undisturbed.mono {input : ℕ → Input} {t u : ℕ} (h : Undisturbed input u) (hle : t ≤ u) :
    Undisturbed input t :=
  fun v hv => h v (hv.trans_le hle)

section run
variable {p : Program} {input : ℕ → Input} {times : ℕ → ℕ} {s : SequencerTop} {T : Turn}

theorem TurnClocks.strictMono (h : TurnClocks input times) : StrictMono times := by
  apply strictMono_nat_of_lt_succ
  intro n
  have hspaced := h.spaced n
  unfold settlingTime at hspaced
  omega

/-- Between two turn clocks there is none. -/
theorem TurnClocks.between (h : TurnClocks input times) {n t : ℕ} (hlo : times n < t)
    (hhi : t < times (n + 1)) : (input t).turnClock = false := by
  rw [Bool.eq_false_iff]
  intro ht
  obtain ⟨m, rfl⟩ := (h.turnClock t).mp ht
  have hlt := h.strictMono.lt_iff_lt.mp hlo
  have hgt := h.strictMono.lt_iff_lt.mp hhi
  omega

/-- The trigger as the program counter sees it when turn `n` may end its state. -/
def triggerSeen (p : Program) (input : ℕ → Input) (times : ℕ → ℕ) (s : SequencerTop) (n : ℕ) :
    Bool :=
  (run p input s (times n + 3)).1.pc.triggerIn (input (times n + 3)).trigger

/-- Within a turn everything settles, and nothing is observed. -/
theorem run_settling (hclock : TurnClocks input times) {n : ℕ}
    (h : Settled p T (run p input s (times n)).1) {j : ℕ} (hj : 1 ≤ j)
    (hlast : times n + j ≤ times (n + 1)) (hquiet : Undisturbed input (times n + j)) :
    Settling p T (triggerSeen p input times s n) j (run p input s (times n + j)).1 ∧
      (run p input s (times n + j)).2 = (run p input s (times n + 1)).2 := by
  induction j, hj using Nat.le_induction with
  | base =>
      have hturn : (input (times n)).turnClock = true := (hclock.turnClock _).mpr ⟨n, rfl⟩
      obtain ⟨hreset, hblanking⟩ := hquiet (times n) (Nat.lt_succ_self _)
      exact ⟨h.turnClock hturn hreset hblanking _, rfl⟩
  | succ j hj ih =>
      obtain ⟨hsettling, hobserved⟩ := ih (by omega) (hquiet.mono (by omega))
      have hturn := hclock.between (show times n < times n + j by omega) (by omega)
      obtain ⟨hreset, -⟩ := hquiet (times n + j) (Nat.lt_succ_self _)
      refine ⟨hsettling.clock hj hturn hreset ?_, ?_⟩
      · rintro rfl
        rfl
      · rw [← hobserved, ← Nat.add_assoc, run_succ]
        unfold Observer.clock
        rw [hturn]
        rfl

/-- What is observed at the turn clock. -/
theorem Settled.observed (h : Settled p T s) {i : Input} (hturn : i.turnClock = true)
    (o : Observer) : o.clock i s = o.next p T := by
  have hwrites : s.writes i = T.writes := by
    unfold SequencerTop.writes Window.seqWriteIn Turn.writes
    rw [h.dwell, h.writeEnable, hturn, Bool.and_true]
    rfl
  unfold Observer.clock Observer.next Turn.begins
  rw [if_pos hturn, hwrites, h.seqPc, h.dwell, h.load.seqState, h.stateEnd, h.ncoFreq]

/-- The run and what is observed of it are those of the turns. -/
theorem run_settled (hclock : TurnClocks input times) (h : Settled p T s) (n : ℕ)
    (hquiet : Undisturbed input (times n)) :
    Settled p (turnRun p (triggerSeen p input times s) T n).1 (run p input s (times n)).1 ∧
      (run p input s (times n)).2 = (turnRun p (triggerSeen p input times s) T n).2 := by
  induction n with
  | zero =>
      rw [hclock.start]
      exact ⟨h, rfl⟩
  | succ n ih =>
      have hspaced := hclock.spaced n
      obtain ⟨hsettled, hobserved⟩ := ih (hquiet.mono (by omega))
      obtain ⟨j, hj⟩ := Nat.exists_eq_add_of_le hspaced
      rw [hj, Nat.add_assoc] at hquiet ⊢
      have hstep := run_settling hclock hsettled (by unfold settlingTime; omega) (by omega) hquiet
      refine ⟨hstep.1.settled (by omega), ?_⟩
      have hturn : (input (times n)).turnClock = true := (hclock.turnClock _).mpr ⟨n, rfl⟩
      have hclocked := hsettled.observed hturn (run p input s (times n)).2
      rw [hstep.2, run_succ, hclocked, hobserved]
      rfl

end run

end Mbf.Sequencer
