import Mathlib.Algebra.BigOperators.Intervals
import Mbf.Lib.Literals
import Mbf.Lib.Octants
import Mbf.TunePll.Cordic
import Mbf.Util

/-! # The numerically controlled oscillator

`nco_core` adds the phase advance to the phase on each clock, and gives out the cosine and the sine
of the phase.  The phase is folded into the first octant; there the table has the cosine and the
sine of 1024 angles, which are refined by linear interpolation, and then they are put into the place
of the octant.

All of this takes some clocks, in parts that have to be in step.  What comes out is the function
`cosSin` of the phase 13 clocks before (`core_cosSin`), and that is the sum of the phase advances
since the last reset (`phase_sum`). -/

namespace Mbf.Nco

open TunePll (CosSin)

/-- The table, with the cosine in the lower half of each word. -/
abbrev Table := BitVec 10 → BitVec 36

/-- `round` from `support.vhd`, to the top bits. -/
def round {n : ℕ} (data : BitVec n) (right width : ℕ) : BitVec width :=
  data.extractLsb' right width + (data.extractLsb' (right - 1) 1).setWidth width

/-! ### The circuit -/

/-- The registers of `nco_phase`. -/
structure Phase where
  phaseAdvanceIn : BitVec 48
  phaseAdvance : BitVec 48
  phase : BitVec 48
  resetPhaseIn : Bool
  resetPhase : Bool

def Phase.initial : Phase := ⟨0, 0, 0, false, false⟩

/-- One clock of `nco_phase`. -/
def Phase.clock (p : Phase) (phaseAdvance : BitVec 48) (resetPhase : Bool) : Phase where
  phaseAdvanceIn := phaseAdvance
  phaseAdvance := p.phaseAdvanceIn
  resetPhaseIn := resetPhase
  resetPhase := p.resetPhaseIn
  phase := if p.resetPhase then 0 else p.phase + p.phaseAdvance

/-- The registers of `nco_cos_sin_prepare`. -/
structure Prepare where
  lookupOut : BitVec 10
  residueO : BitVec 35
  lookupDelay : Fin 2 → BitVec 10
  octantDelay : Fin 10 → BitVec 3

def Prepare.initial : Prepare := ⟨0, 0, fun _ => 0, fun _ => 0⟩

/-- One clock of `nco_cos_sin_prepare`. -/
def Prepare.clock (p : Prepare) (angle : BitVec 48) : Prepare :=
  let octant : BitVec 3 := angle.extractLsb' 45 3
  let lookup : BitVec 10 := angle.extractLsb' 35 10
  let residue : BitVec 35 := angle.extractLsb' 0 35
  { lookupOut := if octant.getLsbD 0 then ~~~ lookup else lookup
    residueO := if octant.getLsbD 0 then ~~~ residue else residue
    lookupDelay := dlyline p.lookupDelay p.lookupOut
    octantDelay := dlyline p.octantDelay octant }

/-- `lookup_o` -/
def Prepare.lookupO (p : Prepare) : BitVec 10 := p.lookupDelay (Fin.last 1)

/-- `octant_o` -/
def Prepare.octantO (p : Prepare) : BitVec 3 := p.octantDelay (Fin.last 9)

/-- The registers of `nco_cos_sin_table`. -/
structure Lookup where
  data : BitVec 36
  cosSin : BitVec 36

def Lookup.initial : Lookup := ⟨0, 0⟩

/-- One clock of `nco_cos_sin_table`. -/
def Lookup.clock (l : Lookup) (table : Table) (addr : BitVec 10) : Lookup where
  data := table addr
  cosSin := l.data

/-- `bits_to_cos_sin` -/
def bitsToCosSin (data : BitVec 36) : CosSin 19 where
  cos := 0#1 ++ data.extractLsb' 0 18
  sin := 0#1 ++ data.extractLsb' 18 18

/-- `PI_SCALED` -/
def piScaled : BitVec 9 := 201

/-- The registers of `nco_cos_sin_refine`. -/
structure Refine where
  residue : BitVec 9
  deltaProduct : BitVec 18
  deltaResult : BitVec 18
  delta : BitVec 10
  cosSinIn : CosSin 19
  deltaIn : BitVec 10
  cosIn : BitVec 19
  sinIn : BitVec 19
  cosAccIn : BitVec 37
  sinAccIn : BitVec 37
  deltaMul : BitVec 10
  cosProduct : BitVec 29
  sinProduct : BitVec 29
  cosAcc : BitVec 37
  sinAcc : BitVec 37
  cosAccOut : BitVec 37
  sinAccOut : BitVec 37
  cosSinO : CosSin 18

def Refine.initial : Refine where
  residue := 0
  deltaProduct := 0
  deltaResult := 0
  delta := 0
  cosSinIn := ⟨0, 0⟩
  deltaIn := 0
  cosIn := 0
  sinIn := 0
  cosAccIn := 0
  sinAccIn := 0
  deltaMul := 0
  cosProduct := 0
  sinProduct := 0
  cosAcc := 0
  sinAcc := 0
  cosAccOut := 0
  sinAccOut := 0
  cosSinO := ⟨0, 0⟩

/-- One clock of `nco_cos_sin_refine`. -/
def Refine.clock (r : Refine) (residue : BitVec 35) (cosSin : CosSin 19) : Refine where
  residue := 0#1 ++ residue.extractLsb' 27 8
  deltaProduct := piScaled.signExtend 18 * r.residue.signExtend 18
  deltaResult := 0x00080 + r.deltaProduct
  delta := r.deltaResult.extractLsb' 8 10
  cosSinIn := cosSin
  deltaIn := r.delta
  cosIn := r.cosSinIn.cos
  sinIn := r.cosSinIn.sin
  cosAccIn := r.cosSinIn.cos ++ 0#18
  sinAccIn := r.cosSinIn.sin ++ 0#18
  deltaMul := r.deltaIn
  cosProduct := r.deltaMul.signExtend 29 * r.cosIn.signExtend 29
  sinProduct := r.deltaMul.signExtend 29 * r.sinIn.signExtend 29
  cosAcc := r.cosAccIn
  sinAcc := r.sinAccIn
  cosAccOut := r.cosAcc - r.sinProduct.signExtend 37
  sinAccOut := r.sinAcc + r.cosProduct.signExtend 37
  cosSinO := ⟨round r.cosAccOut 19 18, round r.sinAccOut 19 18⟩

/-- The registers of `nco_cos_sin_octant`. -/
structure Octant where
  cosSinIn : CosSin 18
  octantIn : BitVec 3
  octant : BitVec 3
  pCos : BitVec 18
  pSin : BitVec 18
  mCos : BitVec 18
  mSin : BitVec 18
  cos : BitVec 18
  sin : BitVec 18

def Octant.initial : Octant := ⟨⟨0, 0⟩, 0, 0, 0, 0, 0, 0, 0, 0⟩

/-- One clock of `nco_cos_sin_octant`. -/
def Octant.clock (o : Octant) (octant : BitVec 3) (cosSin : CosSin 18) : Octant :=
  let (cos, sin) :=
    match o.octant with
    | 0b000 => (o.pCos, o.pSin)
    | 0b001 => (o.pSin, o.pCos)
    | 0b010 => (o.mSin, o.pCos)
    | 0b011 => (o.mCos, o.pSin)
    | 0b100 => (o.mCos, o.mSin)
    | 0b101 => (o.mSin, o.mCos)
    | 0b110 => (o.pSin, o.mCos)
    | _ => (o.pCos, o.mSin)
  { cosSinIn := cosSin
    octantIn := octant
    octant := o.octantIn
    pCos := o.cosSinIn.cos
    pSin := o.cosSinIn.sin
    mCos := -o.cosSinIn.cos
    mSin := -o.cosSinIn.sin
    cos := cos
    sin := sin }

/-- The parts of `nco_core`. -/
structure Core where
  phase : Phase
  prepare : Prepare
  lookup : Lookup
  refine : Refine
  octant : Octant

namespace Core

def initial : Core := ⟨.initial, .initial, .initial, .initial, .initial⟩

/-- One clock of `nco_core`. -/
def clock (c : Core) (table : Table) (phaseAdvance : BitVec 48) (resetPhase : Bool) : Core where
  phase := c.phase.clock phaseAdvance resetPhase
  prepare := c.prepare.clock c.phase.phase
  lookup := c.lookup.clock table c.prepare.lookupO
  refine := c.refine.clock c.prepare.residueO (bitsToCosSin c.lookup.cosSin)
  octant := c.octant.clock c.prepare.octantO c.refine.cosSinO

/-- `cos_sin_o` -/
def cosSinO (c : Core) : CosSin 18 := ⟨c.octant.cos, c.octant.sin⟩

/-- A run from the start: the phase advance and the reset of each clock. -/
def run (table : Table) (input : ℕ → BitVec 48 × Bool) : ℕ → Core
  | 0 => initial
  | t + 1 => (run table input t).clock table (input t).1 (input t).2

end Core

/-! ### What it computes -/

/-- The address in the table for a phase. -/
def lookupAddr (angle : BitVec 48) : BitVec 10 :=
  if (angle.extractLsb' 45 3).getLsbD 0 then ~~~ angle.extractLsb' 35 10
  else angle.extractLsb' 35 10

/-- The residue of a phase. -/
def residueOf (angle : BitVec 48) : BitVec 35 :=
  if (angle.extractLsb' 45 3).getLsbD 0 then ~~~ angle.extractLsb' 0 35
  else angle.extractLsb' 0 35

/-- The angle of a residue. -/
def deltaOf (residue : BitVec 35) : BitVec 10 :=
  (0x00080#18 + piScaled.signExtend 18 * (0#1 ++ residue.extractLsb' 27 8 : BitVec 9).signExtend 18)
    |>.extractLsb' 8 10

/-- The refined cosine and sine. -/
def refined (raw : CosSin 19) (delta : BitVec 10) : CosSin 18 where
  cos := round ((raw.cos ++ 0#18 : BitVec 37) -
    (delta.signExtend 29 * raw.sin.signExtend 29).signExtend 37) 19 18
  sin := round ((raw.sin ++ 0#18 : BitVec 37) +
    (delta.signExtend 29 * raw.cos.signExtend 29).signExtend 37) 19 18

/-- The cosine and the sine of a phase. -/
def cosSin (table : Table) (angle : BitVec 48) : CosSin 18 :=
  let raw := refined (bitsToCosSin (table (lookupAddr angle))) (deltaOf (residueOf angle))
  let placed := Octants.place raw.cos raw.sin (angle.extractLsb' 45 3).toNat
  ⟨placed.1, placed.2⟩

/-! ### When it comes out -/

section run
variable (table : Table) (input : ℕ → BitVec 48 × Bool) (t : ℕ)

/-- The phase before a clock. -/
def phaseAt : BitVec 48 := (Core.run table input t).phase.phase

theorem lookup_cosSin : (Core.run table input (t + 5)).lookup.cosSin =
    table (lookupAddr (phaseAt table input t)) := by
  have haddr : (Core.run table input (t + 1 + 1 + 1)).prepare.lookupO =
      (Core.run table input (t + 1)).prepare.lookupOut :=
    dlyline_out (fun t => (Core.run table input t).prepare.lookupDelay)
      (fun t => (Core.run table input t).prepare.lookupOut) (fun _ => rfl) (Fin.last 1) (t + 1)
  show table (Core.run table input (t + 3)).prepare.lookupO = _
  rw [haddr]
  rfl

theorem refine_delta : (Core.run table input (t + 5)).refine.delta =
    deltaOf (residueOf (phaseAt table input t)) := rfl

theorem refine_cosSinO : (Core.run table input (t + 5)).refine.cosSinO =
    refined (bitsToCosSin (Core.run table input t).lookup.cosSin)
      (Core.run table input t).refine.delta := rfl

theorem prepare_octantO : (Core.run table input (t + 10)).prepare.octantO =
    (phaseAt table input t).extractLsb' 45 3 :=
  dlyline_out (fun t => (Core.run table input t).prepare.octantDelay)
    (fun t => (phaseAt table input t).extractLsb' 45 3) (fun _ => rfl) (Fin.last 9) t

theorem octant_place (o : Octant) (octant : BitVec 3) (cosSin : CosSin 18) (octant' : BitVec 3)
    (cosSin' : CosSin 18) (octant'' : BitVec 3) (cosSin'' : CosSin 18) :
    let last := ((o.clock octant cosSin).clock octant' cosSin').clock octant'' cosSin''
    (last.cos, last.sin) = Octants.place cosSin.cos cosSin.sin octant.toNat := by
  have hcases : ∀ o : BitVec 3, o = 0 ∨ o = 1 ∨ o = 2 ∨ o = 3 ∨ o = 4 ∨ o = 5 ∨ o = 6 ∨ o = 7 := by
    decide
  rcases hcases octant with rfl | rfl | rfl | rfl | rfl | rfl | rfl | rfl <;> rfl

/-- The cosine and the sine of the phase come out 13 clocks later. -/
theorem core_cosSin :
    (Core.run table input (t + 13)).cosSinO = cosSin table (phaseAt table input t) := by
  have hplace := octant_place (Core.run table input (t + 10)).octant
    (Core.run table input (t + 10)).prepare.octantO (Core.run table input (t + 10)).refine.cosSinO
    (Core.run table input (t + 11)).prepare.octantO (Core.run table input (t + 11)).refine.cosSinO
    (Core.run table input (t + 12)).prepare.octantO (Core.run table input (t + 12)).refine.cosSinO
  have hrefined := refine_cosSinO table input (t + 5)
  rw [lookup_cosSin, refine_delta] at hrefined
  rw [prepare_octantO,
    show (Core.run table input (t + 10)).refine.cosSinO = _ from hrefined] at hplace
  exact congrArg (fun p : BitVec 18 × BitVec 18 => CosSin.mk p.1 p.2) hplace

theorem phase_succ : phaseAt table input (t + 1) =
    if (Core.run table input t).phase.resetPhase then 0
    else phaseAt table input t + (Core.run table input t).phase.phaseAdvance := rfl

/-- The phase is the sum of the phase advances since the last reset. -/
theorem phase_sum {s n : ℕ} (hreset : (input s).2 = true)
    (hnone : ∀ j < n, (input (s + 1 + j)).2 = false) :
    phaseAt table input (s + 3 + n) =
      BitVec.ofNat 48 (∑ j ∈ Finset.range n, (input (s + 1 + j)).1.toNat) := by
  induction n with
  | zero =>
      have hzero : phaseAt table input (s + 2 + 1) = 0 := by
        rw [phase_succ]
        exact if_pos hreset
      exact hzero
  | succ n ih =>
      have hphase := ih fun j hj => hnone j (Nat.lt_succ_of_lt hj)
      have hlast : (Core.run table input (s + 1 + n + 1 + 1)).phase.resetPhase = false :=
        hnone n (Nat.lt_succ_self n)
      rw [show s + 1 + n + 1 + 1 = s + 3 + n by ring] at hlast
      have hadvance : (Core.run table input (s + 1 + n + 1 + 1)).phase.phaseAdvance =
          (input (s + 1 + n)).1 := rfl
      rw [show s + 1 + n + 1 + 1 = s + 3 + n by ring] at hadvance
      rw [← Nat.add_assoc, phase_succ, hlast, if_neg Bool.false_ne_true, hphase, hadvance,
        Finset.sum_range_succ, BitVec.ofNat_add, BitVec.ofNat_toNat, BitVec.setWidth_eq]

end run

end Mbf.Nco
