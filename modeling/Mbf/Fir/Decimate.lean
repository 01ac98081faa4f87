import Mathlib.Data.Nat.Log
import Mbf.Fir.Delay
import Mbf.Lib.Countdown

/-! # Decimation

`bunch_fir_decimate` adds up the samples of each bunch over some turns, shifts the sum to the right
and gives it out with a valid bit.  A counter of turns says which is the first turn of a sum, and
which is the last.  The counter is the same for all bunches, and moves on with the turn clock
(`Decimate.phase_eq`), and the sum of a bunch waits in a delay line for the next turn
(`Decimate.next_accumulator`).

`hw_write_bunch_decimation` sets the limit of the counter and the shift. -/

namespace Mbf.Fir

/-! ### The circuit -/

/-- The registers of `bunch_fir_decimate`; the accumulator has `ACCUM_BITS` bits. -/
structure Decimate where
  accum : FirDelay 2 23
  decimationCounter : BitVec 7
  firstTurn : Bool
  lastTurn : Bool
  dataIn : BitVec 23
  readData : BitVec 23
  accumulator : BitVec 23
  writeData : BitVec 23
  dataOut : BitVec 23
  dataValid : Bool
  dataValidO : Bool

/-- The decimator before the first clock. -/
def Decimate.initial : Decimate where
  accum := FirDelay.initial 2 23
  decimationCounter := 0
  firstTurn := false
  lastTurn := false
  dataIn := 0
  readData := 0
  accumulator := 0
  writeData := 0
  dataOut := 0
  dataValid := false
  dataValidO := false

/-- `data_o`. -/
def Decimate.dataO (d : Decimate) : BitVec 16 := d.dataOut.setWidth 16

/-- One clock of `bunch_fir_decimate`. -/
def Decimate.clock (limit : BitVec 7) (shift : BitVec 3) (d : Decimate) (turnClock : Bool)
    (dataI : BitVec 16) : Decimate where
  accum := d.accum.clock turnClock true d.accumulator
  decimationCounter :=
    if turnClock then if d.decimationCounter = 0 then limit else d.decimationCounter - 1
    else d.decimationCounter
  lastTurn := if turnClock then d.decimationCounter == 0 else d.lastTurn
  firstTurn := if turnClock then d.lastTurn else d.firstTurn
  dataIn := dataI.signExtend 23
  readData := d.accum.dataO
  accumulator := if d.firstTurn then d.dataIn else d.dataIn + d.readData
  writeData := d.accumulator
  dataOut := d.writeData.sshiftRight shift.toNat
  dataValid := d.lastTurn
  dataValidO := d.dataValid

/-- A run of the decimator. -/
def Decimate.run (limit : BitVec 7) (shift : BitVec 3) (d : Decimate) (turnClock : ℕ → Bool)
    (dataI : ℕ → BitVec 16) : ℕ → Decimate
  | 0 => d
  | t + 1 =>
      (Decimate.run limit shift d turnClock dataI t).clock limit shift (turnClock t) (dataI t)

/-! ### The program -/

/-- The mirror of `DSP.FIR.CONFIG`. -/
structure FirConfig where
  bank : BitVec 2
  limit : BitVec 7
  shift : BitVec 3

/-- The shift that `hw_write_bunch_decimation` computes. -/
def decimationShift (decimation : BitVec 32) : BitVec 32 :=
  if decimation = 1 then 0 else 32 - (decimation - 1).clz

/-- `hw_write_bunch_decimation`. -/
def hwWriteBunchDecimation (decimation : BitVec 32) (m : FirConfig) : FirConfig :=
  { m with
    limit := ((decimation - 1) &&& 0x3F).setWidth 7
    shift := (decimationShift decimation &&& 0x7).setWidth 3 }

/-- What is written for the decimations that the PV admits: the limit loses its top bit. -/
theorem hwWriteBunchDecimation_eq {decimation : ℕ} (hpos : 1 ≤ decimation)
    (hmax : decimation ≤ 128) (m : FirConfig) :
    (hwWriteBunchDecimation (BitVec.ofNat 32 decimation) m).limit.toNat = (decimation - 1) % 64 ∧
      (hwWriteBunchDecimation (BitVec.ofNat 32 decimation) m).shift.toNat =
        Nat.clog 2 decimation := by
  have hall : ∀ k : Fin 128,
      (((BitVec.ofNat 32 (k.val + 1) - 1) &&& 0x3F).setWidth 7).toNat = k.val % 64 ∧
        ((decimationShift (BitVec.ofNat 32 (k.val + 1)) &&& 0x7).setWidth 3).toNat =
          Nat.clog 2 (k.val + 1) := by
    decide +kernel
  obtain ⟨k, rfl⟩ := Nat.exists_eq_add_of_le' hpos
  exact hall ⟨k, by omega⟩

/-! ### The counter of turns -/

section circuit
variable {limit : BitVec 7} {shift : BitVec 3} {d : Decimate} {turnClock : ℕ → Bool}
  {dataI : ℕ → BitVec 16} {turn start : ℕ}

/-- The counter and the turns it marks. -/
structure Phase where
  counter : BitVec 7
  first : Bool
  last : Bool

def Decimate.phase (d : Decimate) : Phase := ⟨d.decimationCounter, d.firstTurn, d.lastTurn⟩

/-- What a turn clock does. -/
def Phase.next (limit : BitVec 7) (p : Phase) : Phase where
  counter := if p.counter = 0 then limit else p.counter - 1
  first := p.last
  last := p.counter == 0

theorem Decimate.phase_clock (d : Decimate) (turnClock : Bool) (dataI : BitVec 16) :
    (d.clock limit shift turnClock dataI).phase =
      if turnClock then d.phase.next limit else d.phase := by
  cases turnClock <;> rfl

/-- The phase of turn `n`, from that of turn 0. -/
def Phase.turns (limit : BitVec 7) (p : Phase) : ℕ → Phase
  | 0 => p
  | n + 1 => (Phase.turns limit p n).next limit

/-- The phase is that of the turn. -/
theorem Decimate.phase_eq (hclock : TurnClock turn start turnClock) (k : ℕ) :
    (Decimate.run limit shift d turnClock dataI (start + 1 + k)).phase =
      Phase.turns limit (Decimate.run limit shift d turnClock dataI (start + 1)).phase
        (k / turn) := by
  induction k with
  | zero =>
      rw [Nat.zero_div]
      rfl
  | succ k ih =>
      show (Decimate.clock limit shift (Decimate.run limit shift d turnClock dataI (start + 1 + k))
        (turnClock (start + 1 + k)) (dataI (start + 1 + k))).phase = _
      rw [Decimate.phase_clock, ih, show start + 1 + k = start + (k + 1) by ring, hclock,
        Nat.succ_div]
      by_cases hturn : turn ∣ k + 1
      · rw [if_pos hturn, decide_eq_true (Nat.mod_eq_zero_of_dvd hturn)]
        rfl
      · rw [if_neg hturn, decide_eq_false (fun hmod => hturn (Nat.dvd_of_mod_eq_zero hmod))]
        rfl

theorem Phase.counts (limit : BitVec 7) (p : Phase) :
    Countdown.Counts limit fun n => (Phase.turns limit p n).counter := fun _ => rfl

/-- From some turn on, every so many turns one is the last of a sum, and the one after it is the
first of the next. -/
theorem Phase.turns_cycle (limit : BitVec 7) (p : Phase) :
    ∃ first, 3 ≤ first ∧ ∀ k,
      (Phase.turns limit p (first + k)).last = decide (k % (limit.toNat + 1) = 0) ∧
        (Phase.turns limit p (first + 1 + k)).first = decide (k % (limit.toNat + 1) = 0) := by
  obtain ⟨n, hn, hzero⟩ := (Phase.counts limit p).exists_zero 2
  refine ⟨n + 1, by omega, ?_⟩
  intro k
  have hlast : (Phase.turns limit p (n + 1 + k)).last = decide (k % (limit.toNat + 1) = 0) := by
    rw [Nat.add_right_comm, Bool.eq_iff_iff, decide_eq_true_eq]
    exact beq_iff_eq.trans ((Phase.counts limit p).zero_iff hzero k)
  refine ⟨hlast, ?_⟩
  rw [Nat.add_right_comm]
  exact hlast

/-! ### The sums -/

/-- What the accumulator holds for a bunch, a turn later. -/
theorem Decimate.next_accumulator (hclock : TurnClock turn start turnClock) (hturn : 5 ≤ turn)
    (hfits : turn ≤ 2 ^ 11) {t : ℕ} (ht : start + 12 ≤ t) :
    let r := Decimate.run limit shift d turnClock dataI
    (r (t + turn + 1)).accumulator =
      if (r (t + turn)).firstTurn then (r (t + turn)).dataIn
      else (r (t + turn)).dataIn + (r (t + 1)).accumulator := by
  intro r
  have hrun : FirDelay.IsRun (fun t => (r t).accum) turnClock (fun _ => true)
      (fun t => (r t).accumulator) := fun t => rfl
  obtain ⟨u, rfl⟩ := Nat.exists_eq_add_of_le' (show 3 ≤ t by omega)
  have hread : (r (u + 3 + turn)).readData = (r (u + 3 + 1)).accumulator := by
    have hnext := FirDelay.next_turn hrun hclock hturn hfits (show start + 2 + 7 ≤ u by omega)
    rw [if_pos rfl] at hnext
    rw [show u + 3 + turn = u + turn + 2 + 1 by ring]
    exact hnext
  rw [← hread]
  rfl

end circuit

end Mbf.Fir
