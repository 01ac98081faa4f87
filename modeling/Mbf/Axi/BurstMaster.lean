import Mathlib.Data.BitVec
import Mbf.Lib.Literals
import Mbf.Util

/-! # The master of the fast memory

`axi_burst_master` writes a stream of data to DRAM0 in bursts of a fixed length.  A capture starts
with an address and, some clocks after the slave has taken it, with the first beats; the address of
each later burst is sent from the middle of the burst before it.  Whether the data channel goes on
with another burst is decided one beat early, with the beat before the last of a burst
(`wlastEarlyEdge`).

The master does what it should as long as each burst ends on time (`EndsOnTime`). -/

namespace Mbf.Axi

variable {burstBits addrBits dataBits : ℕ}

/-! ### The circuit -/

/-- `BURST_LENGTH`, which is a power of two. -/
abbrev burstLength (burstBits : ℕ) : ℕ := 2 ^ burstBits

/-- What the master sees on a clock: the slave, and the data that are captured. -/
structure Input (dataBits : ℕ) where
  awready : Bool
  wready : Bool
  bvalid : Bool
  bresp : BitVec 2
  captureEnable : Bool
  data : BitVec dataBits
  dataValid : Bool

/-- The registers of `axi_burst_master` and of its edge detectors.  The bits of `wstrb_o` are all
the same; the low bits of `capture_address_o` are the beat counter. -/
structure BurstMaster (burstBits addrBits dataBits : ℕ) where
  writeDone : Bool
  burstActive : Bool
  firstDelay : Fin 4 → Bool
  lastRequest : Bool
  starting : Bool
  nextBurst : Bool
  dataActive : Bool
  lastHalf : Bool
  burstAddress : BitVec addrBits
  awvalid : Bool
  resetBeat : Bool
  beatCounter : BitVec burstBits
  lastEarly : Bool
  wvalid : Bool
  wlast : Bool
  wdata : BitVec dataBits
  wstrb : Bool
  captureAddress : BitVec addrBits
  dataError : Bool
  addrError : Bool
  brspError : Bool

namespace BurstMaster

/-- The registers after reset; the beat counter is not initialised. -/
def powerUp (beatCounter : BitVec burstBits) : BurstMaster burstBits addrBits dataBits where
  writeDone := false
  burstActive := false
  firstDelay _ := false
  lastRequest := false
  starting := false
  nextBurst := false
  dataActive := false
  lastHalf := false
  burstAddress := 0
  awvalid := false
  resetBeat := true
  beatCounter
  lastEarly := false
  wvalid := false
  wlast := false
  wdata := 0
  wstrb := false
  captureAddress := 0
  dataError := false
  addrError := false
  brspError := false

variable (s : BurstMaster burstBits addrBits dataBits) (i : Input dataBits)

def firstWriteDone : Bool := s.writeDone && !s.burstActive

def firstBurst : Bool := s.firstDelay 3

def enableRequest : Bool := i.captureEnable && !s.burstActive && !s.starting

def firstWrite : Bool := s.enableRequest i && !s.lastRequest

def halfBurst : Bool := s.beatCounter.msb && !s.lastHalf

def writeAddress : Bool := s.firstWrite i || (s.dataActive && s.halfBurst)

def wlastEarly : Bool := s.beatCounter.toNat = burstLength burstBits - 2 && i.wready

def wlastEarlyEdge : Bool := s.wlastEarly i && !s.lastEarly

/-- The processes of `axi_burst_master`. -/
def clock (i : Input dataBits) (s : BurstMaster burstBits addrBits dataBits) :
    BurstMaster burstBits addrBits dataBits where
  firstDelay := dlyline s.firstDelay s.firstWriteDone
  lastRequest := s.enableRequest i
  starting := if s.firstWrite i then true else if s.burstActive then false else s.starting
  nextBurst :=
    if s.writeDone && s.burstActive then true
    else if s.wlastEarlyEdge i then false
    else s.nextBurst
  burstActive :=
    if s.firstBurst then true
    else if s.wlastEarlyEdge i then s.nextBurst
    else s.burstActive
  dataActive :=
    if s.firstBurst then true
    else if !i.captureEnable || !s.burstActive then false
    else s.dataActive
  awvalid :=
    if s.writeAddress i && !s.awvalid then true
    else if i.awready then false
    else s.awvalid
  burstAddress :=
    if s.firstWrite i then 0
    else if s.halfBurst then s.burstAddress + 1
    else s.burstAddress
  writeDone := s.awvalid && i.awready
  addrError := s.writeAddress i && s.awvalid
  captureAddress := if s.wlast && s.wvalid && i.wready then s.burstAddress else s.captureAddress
  lastEarly := s.wlastEarly i
  wvalid :=
    if s.burstActive && (i.dataValid || !s.dataActive) then true
    else if i.wready then false
    else s.wvalid
  resetBeat := false
  wdata := if s.burstActive && s.dataActive && i.dataValid then i.data else s.wdata
  wstrb :=
    if s.burstActive then
      if s.dataActive then
        if i.dataValid then true else s.wstrb
      else false
    else s.wstrb
  beatCounter :=
    if s.resetBeat then 0
    else if s.wvalid && i.wready then s.beatCounter + 1
    else s.beatCounter
  wlast :=
    if s.resetBeat then false
    else if s.wvalid && i.wready then s.wlastEarly i
    else s.wlast
  dataError := s.burstActive && s.dataActive && i.dataValid && s.wvalid && !i.wready
  brspError := i.bvalid && i.bresp != 0
  lastHalf := s.beatCounter.msb

/-! ### Bursts that end on time -/

/-- On this clock no burst is cut off, and no beat is lost when a capture stops.

When the master decides whether it goes on with another burst it either has got the address for it,
or there is none to be waited for; in this case the beat before the last has been offered and the
last one is there.  The beat before the last leaves while the slave is ready.  A sample that waits
for the slave is not blanked. -/
structure EndsOnTime : Prop where
  last : s.wlastEarlyEdge i = true → s.burstActive = true → s.nextBurst = true ∨
    (s.wvalid = true ∧ (i.dataValid = true ∨ s.dataActive = false) ∧
      s.awvalid = false ∧ s.writeDone = false ∧ s.writeAddress i = false)
  ready : s.burstActive = true → s.beatCounter.toNat = burstLength burstBits - 2 →
    s.lastEarly = true → i.wready = true
  blank : s.burstActive = true → s.dataActive = false → s.wvalid = true → s.wstrb = true →
    i.wready = true

instance : Decidable (s.EndsOnTime i) :=
  decidable_of_iff
    ((s.wlastEarlyEdge i = true → s.burstActive = true → s.nextBurst = true ∨
        (s.wvalid = true ∧ (i.dataValid = true ∨ s.dataActive = false) ∧
          s.awvalid = false ∧ s.writeDone = false ∧ s.writeAddress i = false)) ∧
      (s.burstActive = true → s.beatCounter.toNat = burstLength burstBits - 2 →
        s.lastEarly = true → i.wready = true) ∧
      (s.burstActive = true → s.dataActive = false → s.wvalid = true → s.wstrb = true →
        i.wready = true))
    ⟨fun h => ⟨h.1, h.2.1, h.2.2⟩, fun h => ⟨h.last, h.ready, h.blank⟩⟩

/-! ### Beats

`beat` is the number of the beat in its burst.  What the registers of the edge detectors and `wlast`
hold follows from it. -/

def beat : ℕ := s.beatCounter.toNat

/-- The slave takes a beat. -/
def takesBeat : Bool := s.wvalid && i.wready

/-- The slave takes the last beat of a burst. -/
def takesLast : Bool := s.takesBeat i && decide (s.beat + 1 = burstLength burstBits)

/-- The slave takes an address. -/
def takesAddress : Bool := s.awvalid && i.awready

structure Edges : Prop where
  reset : s.resetBeat = false
  early : s.lastEarly = true → s.lastHalf = true
  half : burstLength burstBits < 2 * s.beat → s.lastHalf = true
  last : s.wlast = decide (s.beat + 1 = burstLength burstBits)

variable {s i}

theorem beat_lt : s.beat < burstLength burstBits := s.beatCounter.isLt

theorem msb_eq (hb : 2 ≤ burstBits) :
    s.beatCounter.msb = decide (burstLength burstBits ≤ 2 * s.beat) := by
  have htwice : burstLength burstBits = 2 * 2 ^ (burstBits - 1) := by
    rw [burstLength, ← Nat.pow_succ', Nat.succ_eq_add_one, Nat.sub_add_cancel (by omega)]
  rw [BitVec.msb_eq_decide, htwice]
  refine decide_eq_decide.mpr ?_
  change 2 ^ (burstBits - 1) ≤ s.beat ↔ _
  omega

theorem four_le (hb : 2 ≤ burstBits) : 4 ≤ burstLength burstBits :=
  Nat.pow_le_pow_right (n := 2) (by omega) hb

theorem wlastEarly_eq (hb : 2 ≤ burstBits) :
    s.wlastEarly i = (decide (s.beat + 2 = burstLength burstBits) && i.wready) := by
  have hfour := four_le hb
  have hiff : s.beatCounter.toNat = burstLength burstBits - 2 ↔
      s.beat + 2 = burstLength burstBits := by
    change s.beat = _ ↔ _
    omega
  unfold wlastEarly
  rw [decide_eq_decide.mpr hiff]

theorem Edges.beat_clock (h : s.Edges) (hb : 2 ≤ burstBits) :
    (s.clock i).beat =
      if s.takesBeat i then if s.beat + 1 = burstLength burstBits then 0 else s.beat + 1
      else s.beat := by
  have hone : (1 : BitVec burstBits).toNat = 1 := BitVec.toNat_one (by omega)
  change (if s.resetBeat then 0 else if s.takesBeat i then s.beatCounter + 1
    else s.beatCounter : BitVec burstBits).toNat = _
  rw [h.reset, if_neg Bool.false_ne_true]
  split
  · rw [BitVec.toNat_add, hone]
    change (s.beat + 1) % 2 ^ burstBits = _
    split
    · next hwrap => rw [hwrap, Nat.mod_self]
    · next hwrap => exact Nat.mod_eq_of_lt (Nat.lt_of_le_of_ne beat_lt hwrap)
  · rfl

theorem Edges.beat_clock_of_not_last (h : s.Edges) (hb : 2 ≤ burstBits)
    (hlast : s.takesLast i = false) : (s.clock i).beat = s.beat + (s.takesBeat i).toNat := by
  rw [h.beat_clock hb]
  unfold takesLast at hlast
  cases htakes : s.takesBeat i with
  | true =>
      rw [htakes, Bool.true_and, decide_eq_false_iff_not] at hlast
      rw [if_pos rfl, if_neg hlast]
      rfl
  | false => rfl

theorem takesBeat_eq_true (hvalid : s.wvalid = true) (hready : i.wready = true) :
    s.takesBeat i = true := by
  rw [takesBeat, hvalid, hready, Bool.and_self]

theorem exists_half (hb : 2 ≤ burstBits) : ∃ half, burstLength burstBits = 2 * half :=
  ⟨2 ^ (burstBits - 1), by rw [burstLength, ← Nat.pow_succ', Nat.succ_eq_add_one,
    Nat.sub_add_cancel (by omega)]⟩

theorem lastHalf_of_lastEarly (hb : 2 ≤ burstBits) (hearly : (s.clock i).lastEarly = true) :
    (s.clock i).lastHalf = true := by
  change s.wlastEarly i = true at hearly
  change s.beatCounter.msb = true
  rw [wlastEarly_eq hb, Bool.and_eq_true, decide_eq_true_iff] at hearly
  rw [msb_eq hb, decide_eq_true_iff]
  have hfour := four_le hb
  omega

theorem Edges.clock (h : s.Edges) (hb : 2 ≤ burstBits) : (s.clock i).Edges where
  reset := rfl
  early := lastHalf_of_lastEarly hb
  half := by
    change _ → s.beatCounter.msb = true
    rw [h.beat_clock hb, msb_eq hb, decide_eq_true_iff]
    obtain ⟨half, hhalf⟩ := exists_half hb
    split
    · split <;> omega
    · omega
  last := by
    have hfour := four_le hb
    rw [h.beat_clock hb]
    change (if s.resetBeat then false else if s.takesBeat i then s.wlastEarly i else s.wlast) = _
    rw [h.reset, if_neg Bool.false_ne_true]
    by_cases htakes : s.takesBeat i = true
    · have hready : i.wready = true := (Bool.and_eq_true_iff.mp htakes).2
      rw [if_pos htakes, if_pos htakes, wlastEarly_eq hb, hready, Bool.and_true]
      refine decide_eq_decide.mpr ?_
      split <;> omega
    · rw [if_neg htakes, if_neg htakes]
      exact h.last

/-- The first clock clears the beat counter. -/
theorem edges_of_reset (hb : 2 ≤ burstBits) (hreset : s.resetBeat = true) :
    (s.clock i).beat = 0 ∧ (s.clock i).Edges := by
  have hbeat : (s.clock i).beat = 0 := by
    change (if s.resetBeat then 0 else _ : BitVec burstBits).toNat = 0
    rw [hreset, if_pos rfl]
    exact BitVec.toNat_zero
  have hlast : (s.clock i).wlast = false := by
    change (if s.resetBeat then false else _) = false
    rw [hreset, if_pos rfl]
  refine ⟨hbeat, rfl, lastHalf_of_lastEarly hb, ?_, ?_⟩
  · rw [hbeat]
    exact fun hlt => absurd hlt (Nat.not_lt_zero _)
  · have hfour := four_le hb
    rw [hlast, hbeat]
    exact (decide_eq_false (by omega)).symm

end BurstMaster

end Mbf.Axi
