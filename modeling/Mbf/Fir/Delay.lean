import Mbf.Lib.Literals
import Mbf.Util

/-! # The delay line of the bunch by bunch filter

`bunch_fir_delay` keeps a value for each bunch for a turn.  What it gives out for a bunch is what
was written for this bunch in the turn before, if anything was, and what it gave out in the turn
before if not (`FirDelay.next_turn`). -/

namespace Mbf.Fir

/-- `bunch_count_t`. -/
abbrev BunchCount := BitVec 11

/-- The registers and the memory of `bunch_fir_delay` with `PROCESS_DELAY` `p`. -/
structure FirDelay (p w : ℕ) where
  turnClock : Fin 4 → Bool
  readAddr : BunchCount
  writeAddr : Fin (p + 2) → BunchCount
  memory : BunchCount → BitVec w
  readData : BitVec w
  dataO : BitVec w

/-- The delay line before the first clock. -/
def FirDelay.initial (p w : ℕ) : FirDelay p w where
  turnClock _ := false
  readAddr := 0
  writeAddr _ := 0
  memory _ := 0
  readData := 0
  dataO := 0

/-- One clock of `bunch_fir_delay`. -/
def FirDelay.clock {p w : ℕ} (d : FirDelay p w) (turnClock writeStrobe : Bool) (dataI : BitVec w) :
    FirDelay p w where
  turnClock := dlyline d.turnClock turnClock
  readAddr := if d.turnClock 3 then 0 else d.readAddr + 1
  writeAddr := dlyline d.writeAddr d.readAddr
  memory :=
    if writeStrobe then Function.update d.memory (d.writeAddr (Fin.last (p + 1))) dataI
    else d.memory
  readData := d.memory d.readAddr
  dataO := d.readData

/-- A run of the delay line. -/
def FirDelay.IsRun {p w : ℕ} (d : ℕ → FirDelay p w) (turnClock writeStrobe : ℕ → Bool)
    (dataI : ℕ → BitVec w) : Prop :=
  ∀ t, d (t + 1) = (d t).clock (turnClock t) (writeStrobe t) (dataI t)

section run
variable {p w turn start : ℕ} {d : ℕ → FirDelay p w} {turnClock writeStrobe : ℕ → Bool}
  {dataI : ℕ → BitVec w}

/-- The address that is read counts the bunches. -/
theorem FirDelay.readAddr_ring (h : FirDelay.IsRun d turnClock writeStrobe dataI)
    (hclock : TurnClock turn start turnClock) (hpos : 0 < turn) (hfits : turn ≤ 2 ^ 11) :
    TurnMemory.Ring turn (start + 4 + 1) fun t => (d t).readAddr := by
  have hline : ∀ t, (d (t + 1)).turnClock = dlyline (d t).turnClock (turnClock t) := by
    intro t
    rw [h]
    rfl
  have hcount : ∀ t, (d (t + 1)).readAddr =
      if (d t).turnClock 3 then 0 else (d t).readAddr + 1 := by
    intro t
    rw [h]
    rfl
  have hrestart : ∀ k, (d (start + 4 + k)).turnClock 3 = decide (k % turn = 0) := by
    intro k
    rw [← hclock, show start + 4 + k = start + k + (3 : Fin 4).val + 1 by
      show _ = start + k + 3 + 1
      ring]
    exact dlyline_out (fun t => (d t).turnClock) turnClock hline 3 (start + k)
  exact TurnMemory.Ring.counter hpos hfits hcount hrestart

/-- The write address is that of a read some clocks before. -/
theorem FirDelay.writeAddr_delay (h : FirDelay.IsRun d turnClock writeStrobe dataI) (t : ℕ) :
    (d (t + (p + 2))).writeAddr (Fin.last (p + 1)) = (d t).readAddr := by
  have hline : ∀ t, (d (t + 1)).writeAddr = dlyline (d t).writeAddr (d t).readAddr := by
    intro t
    rw [h]
    rfl
  exact dlyline_out (fun t => (d t).writeAddr) (fun t => (d t).readAddr) hline (Fin.last (p + 1)) t

theorem FirDelay.dataO_read (h : FirDelay.IsRun d turnClock writeStrobe dataI) (t : ℕ) :
    (d (t + 2)).dataO = (d t).memory (d t).readAddr := by
  have hread : (d (t + 1)).readData = (d t).memory (d t).readAddr := by
    rw [h]
    rfl
  rw [← hread, h]
  rfl

/-- What is given out for a bunch, a turn later. -/
theorem FirDelay.next_turn (h : FirDelay.IsRun d turnClock writeStrobe dataI)
    (hclock : TurnClock turn start turnClock) (hturn : p + 3 ≤ turn) (hfits : turn ≤ 2 ^ 11)
    {t : ℕ} (ht : start + p + 7 ≤ t) :
    (d (t + turn + 2)).dataO =
      if writeStrobe (t + p + 2) then dataI (t + p + 2) else (d (t + 2)).dataO := by
  have hread := FirDelay.readAddr_ring h hclock (by omega) hfits
  have hwrite : TurnMemory.Ring turn (start + 4 + 1 + (p + 2))
      fun t => (d t).writeAddr (Fin.last (p + 1)) := hread.delay (FirDelay.writeAddr_delay h)
  have hwritten : TurnMemory.Written (fun t => (d t).memory) writeStrobe
      (fun t => (d t).writeAddr (Fin.last (p + 1))) dataI := by
    intro t
    show (d (t + 1)).memory = _
    rw [h]
    rfl
  have hplace := FirDelay.writeAddr_delay h t
  obtain ⟨n, rfl⟩ := Nat.exists_eq_add_of_le hturn
  have hlater := hwrite.read hwritten (show start + 4 + 1 + (p + 2) ≤ t + (p + 2) by omega)
    (Nat.succ_pos n) (by omega)
  have hbefore := hwrite.before hwritten (show start + 4 + 1 + (p + 2) ≤ t by omega)
    (show p + 2 < p + 3 + n by omega)
  rw [hplace] at hlater hbefore
  rw [FirDelay.dataO_read h, FirDelay.dataO_read h, hread.period t (by omega), ← hbefore,
    show t + (p + 3 + n) = t + (p + 2) + (n + 1) by omega]
  exact hlater

end run

end Mbf.Fir
