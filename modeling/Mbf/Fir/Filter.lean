import Mbf.Fir.Delay
import Mbf.Fir.Tap

/-! # The bunch by bunch filter

`bunch_fir` is a chain of taps with a delay line of one turn between any two: each tap gets the
sample of the bunch that is in the filter and what the tap before it made of the bunch on its last
valid turn.  `bunch_fir_interpolate` holds the last valid output of each bunch.

The sample that comes in on clock `t` is multiplied with the taps of clock `t + 4` and added to what
the delay lines give out on clock `t + 5`; the result is there on clock `t + 7`. -/

namespace Mbf.Fir

/-! ### `bunch_fir` -/

/-- The registers of `bunch_fir`; there is a delay line before each tap but the first. -/
structure BunchFir (g : FirGenerics) where
  dataIn : Fin (g.lastTap + 1) → Fin 4 → BitVec g.dataInWidth
  dsp : Fin (g.lastTap + 1) → BunchFirDsp g
  overflows : Fin (g.lastTap + 1) → Fin 4 → Bool
  overflowO : Bool
  dataValid : Fin 7 → Bool
  delayInReg : Fin g.lastTap → BitVec g.dataOutWidth
  delayInValid : Fin g.lastTap → Bool
  dataDelay : Fin g.lastTap → FirDelay 4 g.dataOutWidth
  delayOut : Fin (g.lastTap + 1) → BitVec g.dataOutWidth

namespace BunchFir

variable {g : FirGenerics}

def initial (g : FirGenerics) : BunchFir g where
  dataIn _ _ := 0
  dsp _ := .initial g
  overflows _ _ := false
  overflowO := false
  dataValid _ := false
  delayInReg _ := 0
  delayInValid _ := false
  dataDelay _ := .initial 4 g.dataOutWidth
  delayOut _ := 0

/-- `accum_out` -/
def accumOut (f : BunchFir g) (t : Fin (g.lastTap + 1)) : BitVec g.dataOutWidth := (f.dsp t).accumO

/-- `data_valid_o` -/
def dataValidO (f : BunchFir g) : Bool := f.dataValid (Fin.last 6)

/-- `data_o` -/
def dataO (f : BunchFir g) : BitVec g.dataOutWidth := f.accumOut (Fin.last g.lastTap)

/-- One clock of `bunch_fir`; the taps come in reverse order. -/
def clock (f : BunchFir g) (turnClock : Bool) (taps : Fin (g.lastTap + 1) → BitVec g.tapWidth)
    (dataValid : Bool) (data : BitVec g.dataInWidth) : BunchFir g where
  dataIn t := dlyline (f.dataIn t) data
  dsp t := (f.dsp t).clock (taps t.rev) (f.dataIn t (Fin.last 3)) (f.delayOut t)
  overflows t := dlyline (f.overflows t) (f.dsp t).overflowO
  overflowO := decide (∃ t, f.overflows t (Fin.last 3) = true)
  dataValid := dlyline f.dataValid dataValid
  delayInReg i := f.accumOut i.castSucc
  delayInValid _ := f.dataValidO
  dataDelay i := (f.dataDelay i).clock turnClock (f.delayInValid i) (f.delayInReg i)
  delayOut := Fin.cons 0 fun i => (f.dataDelay i).dataO

end BunchFir

/-! ### `bunch_fir_interpolate` -/

/-- The registers of `bunch_fir_interpolate`. -/
structure FirInterpolate (w : ℕ) where
  dataIn : Fin 4 → BitVec w
  dataValidIn : Fin 4 → Bool
  bunchDelay : FirDelay 0 w
  dataOut : BitVec w

def FirInterpolate.initial (w : ℕ) : FirInterpolate w where
  dataIn _ := 0
  dataValidIn _ := false
  bunchDelay := .initial 0 w
  dataOut := 0

/-- One clock of `bunch_fir_interpolate`. -/
def FirInterpolate.clock {w : ℕ} (s : FirInterpolate w) (turnClock dataValid : Bool)
    (data : BitVec w) : FirInterpolate w where
  dataIn := dlyline s.dataIn data
  dataValidIn := dlyline s.dataValidIn dataValid
  bunchDelay := s.bunchDelay.clock turnClock (s.dataValidIn (Fin.last 3)) (s.dataIn (Fin.last 3))
  dataOut := if s.dataValidIn (Fin.last 3) then s.dataIn (Fin.last 3) else s.bunchDelay.dataO

/-! ### Both together -/

/-- The filter, with its output interpolated, as in `bunch_fir_top`. -/
structure FirChain (g : FirGenerics) where
  fir : BunchFir g
  interpolate : FirInterpolate g.dataOutWidth

/-- What comes in on a clock. -/
structure FirInput (g : FirGenerics) where
  turnClock : Bool
  taps : Fin (g.lastTap + 1) → BitVec g.tapWidth
  dataValid : Bool
  data : BitVec g.dataInWidth

def FirChain.initial (g : FirGenerics) : FirChain g := ⟨.initial g, .initial g.dataOutWidth⟩

/-- One clock of both. -/
def FirChain.clock {g : FirGenerics} (c : FirChain g) (i : FirInput g) : FirChain g where
  fir := c.fir.clock i.turnClock i.taps i.dataValid i.data
  interpolate := c.interpolate.clock i.turnClock c.fir.dataValidO c.fir.dataO

/-- A run from the start. -/
def FirChain.run {g : FirGenerics} (input : ℕ → FirInput g) : ℕ → FirChain g
  | 0 => .initial g
  | t + 1 => (FirChain.run input t).clock (input t)

/-! ### Timing -/

section timing
variable {g : FirGenerics} {input : ℕ → FirInput g}

/-- The sample reaches the taps after four clocks. -/
theorem run_dataIn (t : Fin (g.lastTap + 1)) (n : ℕ) :
    (FirChain.run input (n + 4)).fir.dataIn t (Fin.last 3) = (input n).data :=
  dlyline_out (fun n => (FirChain.run input n).fir.dataIn t) (fun n => (input n).data)
    (fun _ => rfl) (Fin.last 3) n

/-- The valid bit comes out with the result. -/
theorem run_dataValidO (n : ℕ) :
    (FirChain.run input (n + 7)).fir.dataValidO = (input n).dataValid :=
  dlyline_out (fun n => (FirChain.run input n).fir.dataValid) (fun n => (input n).dataValid)
    (fun _ => rfl) (Fin.last 6) n

/-- The overflow of a tap is reported five clocks later. -/
theorem run_overflowO (t : Fin (g.lastTap + 1)) (n : ℕ)
    (h : ((FirChain.run input n).fir.dsp t).overflowO = true) :
    (FirChain.run input (n + 5)).fir.overflowO = true := by
  have hout : (FirChain.run input (n + 4)).fir.overflows t (Fin.last 3) =
      ((FirChain.run input n).fir.dsp t).overflowO :=
    dlyline_out (fun n => (FirChain.run input n).fir.overflows t)
      (fun n => ((FirChain.run input n).fir.dsp t).overflowO) (fun _ => rfl) (Fin.last 3) n
  show decide (∃ t, (FirChain.run input (n + 4)).fir.overflows t (Fin.last 3) = true) = true
  exact decide_eq_true ⟨t, hout.trans h⟩

theorem run_delayOut (n : ℕ) : (FirChain.run input (n + 1)).fir.delayOut =
    (Fin.cons 0 fun i => ((FirChain.run input n).fir.dataDelay i).dataO :
      Fin (g.lastTap + 1) → BitVec g.dataOutWidth) := rfl

/-- The first tap starts from nothing. -/
theorem run_delayOut_zero (n : ℕ) : (FirChain.run input n).fir.delayOut 0 = 0 := by
  cases n with
  | zero => rfl
  | succ n => rw [run_delayOut, Fin.cons_zero]

/-- What a tap starts from a turn later: the result of the tap before it, if the turn was valid. -/
theorem run_delayOut_succ {turn start : ℕ}
    (hclock : TurnClock turn start fun t => (input t).turnClock) (hturn : 7 ≤ turn)
    (hfits : turn ≤ 2 ^ 11) (i : Fin g.lastTap) {n : ℕ} (hn : start + 9 ≤ n) :
    (FirChain.run input (n + turn + 5)).fir.delayOut i.succ =
      if (input n).dataValid then (FirChain.run input (n + 7)).fir.accumOut i.castSucc
      else (FirChain.run input (n + 5)).fir.delayOut i.succ := by
  have hrun : FirDelay.IsRun (fun t => (FirChain.run input t).fir.dataDelay i)
      (fun t => (input t).turnClock) (fun t => (FirChain.run input t).fir.delayInValid i)
      (fun t => (FirChain.run input t).fir.delayInReg i) := fun t => rfl
  have hnext := FirDelay.next_turn hrun hclock hturn hfits (show start + 4 + 7 ≤ n + 2 by omega)
  have hout : ∀ t, (FirChain.run input (t + 1)).fir.delayOut i.succ =
      ((FirChain.run input t).fir.dataDelay i).dataO := fun t => by
    rw [run_delayOut, Fin.cons_succ]
  have hvalid : (FirChain.run input (n + 8)).fir.delayInValid i = (input n).dataValid := by
    rw [← run_dataValidO n]
    rfl
  have hdata : (FirChain.run input (n + 8)).fir.delayInReg i =
      (FirChain.run input (n + 7)).fir.accumOut i.castSucc := rfl
  rw [show n + turn + 5 = n + 2 + turn + 2 + 1 by ring, hout, hnext,
    show n + 2 + 4 + 2 = n + 8 by ring, hvalid, hdata, show n + 5 = n + 2 + 2 + 1 by ring, hout]

/-- What the interpolation gives out for a bunch a turn later: the new output, if it is valid. -/
theorem run_interpolate {turn start : ℕ}
    (hclock : TurnClock turn start fun t => (input t).turnClock) (hturn : 3 ≤ turn)
    (hfits : turn ≤ 2 ^ 11) {n : ℕ} (hn : start + 9 ≤ n) :
    (FirChain.run input (n + turn + 12)).interpolate.dataOut =
      if (input (n + turn)).dataValid then (FirChain.run input (n + turn + 7)).fir.dataO
      else (FirChain.run input (n + 12)).interpolate.dataOut := by
  have hrun : FirDelay.IsRun (fun t => (FirChain.run input t).interpolate.bunchDelay)
      (fun t => (input t).turnClock)
      (fun t => (FirChain.run input t).interpolate.dataValidIn (Fin.last 3))
      (fun t => (FirChain.run input t).interpolate.dataIn (Fin.last 3)) := fun t => rfl
  have hvalid : ∀ n, (FirChain.run input (n + 11)).interpolate.dataValidIn (Fin.last 3) =
      (input n).dataValid := by
    intro n
    rw [← run_dataValidO n]
    exact dlyline_out (fun n => (FirChain.run input n).interpolate.dataValidIn)
      (fun n => (FirChain.run input n).fir.dataValidO) (fun _ => rfl) (Fin.last 3) (n + 7)
  have hdata : ∀ n, (FirChain.run input (n + 11)).interpolate.dataIn (Fin.last 3) =
      (FirChain.run input (n + 7)).fir.dataO := fun n =>
    dlyline_out (fun n => (FirChain.run input n).interpolate.dataIn)
      (fun n => (FirChain.run input n).fir.dataO) (fun _ => rfl) (Fin.last 3) (n + 7)
  have hout : ∀ n, (FirChain.run input (n + 12)).interpolate.dataOut =
      if (input n).dataValid then (FirChain.run input (n + 7)).fir.dataO
      else (FirChain.run input (n + 11)).interpolate.bunchDelay.dataO := by
    intro n
    rw [← hvalid, ← hdata]
    rfl
  have hnext := FirDelay.next_turn hrun hclock hturn hfits (show start + 0 + 7 ≤ n + 9 by omega)
  rw [show n + 9 + 0 + 2 = n + 11 by ring, hvalid, hdata, show n + 9 + 2 = n + 11 by ring,
    show n + 9 + turn + 2 = n + turn + 11 by ring] at hnext
  rw [hout, hnext, hout n]

end timing

end Mbf.Fir
