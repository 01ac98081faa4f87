import Mbf.Axi.Capture

/-! # The burst protocol

What the slave and the capture can rely on (`Protocol`): what is offered to the slave stays until it
is taken; no beat comes before the address of its burst, bursts have their length and their last
beats are marked; samples are written once, in order, in the words of the memory from the first one
on; every burst that has an address is written to its end; and a capture goes on as long as it is
enabled.

All this holds when bursts end on time (`burst_protocol`).  It does not hold for all samples and
slaves: the signal that decides whether there is another burst is the edge of a level that falls
with `wready_i`, so that it can be seen twice in a burst (`not_protocol_gap`). -/

namespace Mbf.Axi

open Bursts Clocked

variable {burstBits addrBits dataBits : ℕ}

/-- The master with its log before each clock, from reset on. -/
def observe (addrBits : ℕ) (beatCounter : BitVec burstBits) (i : ℕ → Input dataBits) :
    ℕ → Observed burstBits addrBits dataBits :=
  run Observed.clock (.powerUp beatCounter) i

/-- No sample has been lost. -/
def Good (w : ℕ → Observed burstBits addrBits dataBits) (n : ℕ) : Prop :=
  ∀ k ≤ n, (w k).master.dataError = false

/-- The burst protocol, and what the data channel does with the samples. -/
structure Protocol (i : ℕ → Input dataBits) (w : ℕ → Observed burstBits addrBits dataBits) :
    Prop where
  addressHeld : ∀ n, (w n).master.awvalid = true → (i n).awready = false →
    (w (n + 1)).master.awvalid = true ∧
      (w (n + 1)).master.burstAddress = (w n).master.burstAddress
  beatHeld : ∀ n, (w n).master.wvalid = true → (i n).wready = false →
    (w (n + 1)).master.wvalid = true ∧
      ((w (n + 1)).master.dataError = false →
        (w (n + 1)).master.offered = (w n).master.offered)
  addressed : ∀ n, (w n).log.beats.length ≤
    burstLength burstBits * (w n).log.addresses.length
  framed : ∀ n, Framed (burstLength burstBits) (w n).log.beats
  written : ∀ n, Good w n → (w n).written ++ (w n).waiting = (w n).captured
  settled : ∀ n, Good w n → (i n).wready = true → (w (n + 1)).written = (w n).captured
  completes : Recurs (fun n => (i n).wready = true) →
    Recurs (fun n => (i n).dataValid = true ∨ (i n).captureEnable = false) →
    ∀ n, ∃ m, n ≤ m ∧
      burstLength burstBits * (w n).log.addresses.length ≤ (w m).log.beats.length
  captures : ∀ n, (w n).master.dataActive = true → (i n).captureEnable = true →
    (w (n + 1)).master.dataActive = true
  continues : ∀ start, (∀ n, start ≤ n → (i n).captureEnable = true) →
    Recurs (fun n => (i n).awready = true) → Recurs (fun n => (i n).wready = true) →
    Recurs (fun n => (i n).dataValid = true) →
    ∀ bursts, ∃ n, burstLength burstBits * bursts ≤ (w n).log.beats.length

/-- A run in which bursts end on time. -/
structure Timely (i : ℕ → Input dataBits) (w : ℕ → Observed burstBits addrBits dataBits) : Prop
    where
  start : ∃ beatCounter, w 0 = .powerUp beatCounter
  clock : ∀ n, w (n + 1) = (w n).clock (i n)
  ends : ∀ n, (w n).master.EndsOnTime (i n)

namespace Timely

variable {i : ℕ → Input dataBits} {w : ℕ → Observed burstBits addrBits dataBits} {n : ℕ}
  (h : Timely i w) (hb : 2 ≤ burstBits)
include h

theorem beats_length (n : ℕ) : (w (n + 1)).log.beats.length =
    (w n).log.beats.length + ((w n).master.takesBeat (i n)).toNat := by
  rw [h.clock]
  exact Observed.beats_length_clock

theorem addresses_length (n : ℕ) : (w (n + 1)).log.addresses.length =
    (w n).log.addresses.length + ((w n).master.takesAddress (i n)).toNat := by
  rw [h.clock]
  exact Observed.addresses_length_clock

theorem beats_mono {m n : ℕ} (hmn : m ≤ n) :
    (w m).log.beats.length ≤ (w n).log.beats.length :=
  monotone_nat_of_le_succ (f := fun n => (w n).log.beats.length)
    (fun n => (h.beats_length n).symm ▸ Nat.le_add_right _ _) hmn

theorem addresses_mono {m n : ℕ} (hmn : m ≤ n) :
    (w m).log.addresses.length ≤ (w n).log.addresses.length :=
  monotone_nat_of_le_succ (f := fun n => (w n).log.addresses.length)
    (fun n => (h.addresses_length n).symm ▸ Nat.le_add_right _ _) hmn

/-- Before the first clock nothing is offered. -/
theorem powerUp_fields : (w 0).master.awvalid = false ∧ (w 0).master.wvalid = false ∧
    (w 0).master.dataActive = false ∧ (w 0).log = ⟨[], [], 0, []⟩ := by
  obtain ⟨beatCounter, hstart⟩ := h.start
  rw [hstart]
  exact ⟨rfl, rfl, rfl, rfl⟩

include hb

theorem kept (n : ℕ) : ∃ ahead first, (w (n + 1)).Kept ahead first (Good w (n + 1)) := by
  induction n with
  | zero =>
      obtain ⟨beatCounter, hstart⟩ := h.start
      have hkept : ((Observed.powerUp beatCounter : Observed burstBits addrBits dataBits).clock
          (i 0)).Kept 0 0 True := Observed.kept_powerUp hb beatCounter (i 0)
      rw [← hstart, ← h.clock] at hkept
      exact ⟨0, 0, hkept.counted, hkept.capturing, fun _ => hkept.written trivial⟩
  | succ n ih =>
      obtain ⟨ahead, first, hkept⟩ := ih
      obtain ⟨left, hnext⟩ := hkept.clock hb (h.ends (n + 1))
      rw [← h.clock] at hnext
      refine ⟨left, _, hnext.counted, hnext.capturing, fun hgood => hnext.written ⟨?_, ?_⟩⟩
      · exact fun k hk => hgood k (hk.trans (Nat.le_succ _))
      · exact hgood (n + 2) le_rfl

theorem counted (n : ℕ) : ∃ ahead, (w (n + 1)).Counted ahead := by
  obtain ⟨ahead, first, hkept⟩ := h.kept hb n
  exact ⟨ahead, hkept.counted⟩

/-! ### Safety -/

theorem addressHeld (hvalid : (w n).master.awvalid = true) (hready : (i n).awready = false) :
    (w (n + 1)).master.awvalid = true ∧
      (w (n + 1)).master.burstAddress = (w n).master.burstAddress := by
  cases n with
  | zero => exact absurd (h.powerUp_fields.1.symm.trans hvalid) Bool.false_ne_true
  | succ n =>
      obtain ⟨ahead, hcounted⟩ := h.counted hb n
      rw [h.clock]
      constructor
      · change ((w (n + 1)).master.clock (i (n + 1))).awvalid = true
        rw [BurstMaster.awvalid_clock, hready, hvalid]
        exact ite_self _
      · obtain ⟨hwrite, hhalf⟩ := hcounted.phase.quiet_of_awvalid hcounted.edges hb hvalid
          (i := i (n + 1))
        change (if (w (n + 1)).master.firstWrite _ then 0 else if (w (n + 1)).master.halfBurst
          then _ else _) = _
        rw [hwrite, hhalf]
        rfl

theorem beatHeld (hvalid : (w n).master.wvalid = true) (hready : (i n).wready = false) :
    (w (n + 1)).master.wvalid = true ∧
      ((w (n + 1)).master.dataError = false →
        (w (n + 1)).master.offered = (w n).master.offered) := by
  cases n with
  | zero => exact absurd (h.powerUp_fields.2.1.symm.trans hvalid) Bool.false_ne_true
  | succ n =>
      obtain ⟨ahead, hcounted⟩ := h.counted hb n
      rw [h.clock]
      constructor
      · rw [Observed.wvalid_clock, hvalid, hready]
        exact Bool.or_true _
      · exact hcounted.offered_held (h.ends (n + 1)) hvalid hready

theorem addressed (n : ℕ) : (w n).log.beats.length ≤
    burstLength burstBits * (w n).log.addresses.length := by
  cases n with
  | zero =>
      rw [h.powerUp_fields.2.2.2]
      exact Nat.zero_le _
  | succ n =>
      obtain ⟨ahead, hcounted⟩ := h.counted hb n
      have hroom := hcounted.room
      omega

theorem framed (n : ℕ) : Framed (burstLength burstBits) (w n).log.beats := by
  cases n with
  | zero =>
      rw [h.powerUp_fields.2.2.2]
      exact framed_nil
  | succ n =>
      obtain ⟨ahead, hcounted⟩ := h.counted hb n
      exact hcounted.framed

theorem written (n : ℕ) (hgood : Good w n) :
    (w n).written ++ (w n).waiting = (w n).captured := by
  cases n with
  | zero =>
      obtain ⟨beatCounter, hstart⟩ := h.start
      rw [hstart]
      rfl
  | succ n =>
      obtain ⟨ahead, first, hkept⟩ := h.kept hb n
      exact (hkept.written hgood).written

theorem settled (n : ℕ) (hgood : Good w n) (hready : (i n).wready = true) :
    (w (n + 1)).written = (w n).captured := by
  have hroom : (w n).log.beats.length + (w n).master.wvalid.toNat ≤
      burstLength burstBits * (w n).log.addresses.length := by
    cases n with
    | zero =>
        rw [h.powerUp_fields.2.1, h.powerUp_fields.2.2.2]
        exact Nat.zero_le _
    | succ n =>
        obtain ⟨ahead, hcounted⟩ := h.counted hb n
        have hroom := hcounted.room
        omega
  rw [h.clock, Observed.written_clock hroom, Observed.taken_waiting fun _ => hready,
    h.written hb n hgood]

theorem captures (hdata : (w n).master.dataActive = true) (henable : (i n).captureEnable = true) :
    (w (n + 1)).master.dataActive = true := by
  cases n with
  | zero => exact absurd (h.powerUp_fields.2.2.1.symm.trans hdata) Bool.false_ne_true
  | succ n =>
      obtain ⟨ahead, hcounted⟩ := h.counted hb n
      rw [h.clock]
      change ((w (n + 1)).master.clock (i (n + 1))).dataActive = true
      rw [(hcounted.dataActive hdata).dataActive_clock, henable, hdata]
      rfl

/-! ### Liveness -/

/-- Without a beat that is taken there is none that waits, where the slave is ready again and
again. -/
theorem wvalid_eq_false (hready : Recurs fun n => (i n).wready = true) {start : ℕ}
    (hnever : ∀ n, start ≤ n → (w n).master.takesBeat (i n) = false) {n : ℕ} (hn : start ≤ n) :
    (w n).master.wvalid = false := by
  by_contra hvalid
  rw [Bool.not_eq_false] at hvalid
  obtain ⟨m, hm, htakes, hmready⟩ := hready.meets (q := fun n => (w n).master.wvalid = true) hvalid
    fun k _ hk hnot => (h.beatHeld hb hk (Bool.not_eq_true _ ▸ hnot)).1
  have hnot := hnever m (hn.trans hm)
  rw [BurstMaster.takesBeat, htakes, hmready] at hnot
  cases hnot

theorem awvalid_eq_false (hready : Recurs fun n => (i n).awready = true) {start : ℕ}
    (hnever : ∀ n, start ≤ n → (w n).master.takesAddress (i n) = false) {n : ℕ} (hn : start ≤ n) :
    (w n).master.awvalid = false := by
  by_contra hvalid
  rw [Bool.not_eq_false] at hvalid
  obtain ⟨m, hm, htakes, hmready⟩ := hready.meets (q := fun n => (w n).master.awvalid = true)
    hvalid fun k _ hk hnot => (h.addressHeld hb hk (Bool.not_eq_true _ ▸ hnot)).1
  have hnot := hnever m (hn.trans hm)
  rw [BurstMaster.takesAddress, htakes, hmready] at hnot
  cases hnot

/-- Then no burst goes on either, where there are data or the capture stops again and again. -/
theorem burstActive_eq_false
    (hdata : Recurs fun n => (i n).dataValid = true ∨ (i n).captureEnable = false) {start : ℕ}
    (hnever : ∀ n, start ≤ n → (w n).master.wvalid = false) {n : ℕ} (hn : start < n) :
    (w n).master.burstActive = false := by
  have hmakes : ∀ k, start ≤ k → (w k).master.makesBeat (i k) = false := by
    intro k hk
    have hnext := hnever (k + 1) (by omega)
    rw [h.clock, Observed.wvalid_clock, Bool.or_eq_false_iff] at hnext
    exact hnext.1
  have hlasts : ∀ k, start < k → (w k).master.burstActive = true →
      (w (k + 1)).master.burstActive = true ∧
        (w (k + 1)).master.dataActive = ((i k).captureEnable && (w k).master.dataActive) := by
    intro k hk hactive
    obtain ⟨j, rfl⟩ : ∃ j, k = j + 1 := ⟨k - 1, by omega⟩
    obtain ⟨ahead, hcounted⟩ := h.counted hb j
    have active := hcounted.phase.active hactive
    rw [h.clock]
    refine ⟨?_, active.dataActive_clock⟩
    change ((w (j + 1)).master.clock _).burstActive = true
    rw [active.burstActive_clock]
    cases hedge : (w (j + 1)).master.wlastEarlyEdge (i (j + 1)) with
    | true =>
        rcases (h.ends (j + 1)).last hedge hactive with hnext | ⟨hvalid, _⟩
        · exact hnext
        · exact absurd ((hnever (j + 1) (by omega)).symm.trans hvalid) Bool.false_ne_true
    | false => rfl
  by_contra hactive
  rw [Bool.not_eq_false] at hactive
  obtain ⟨m, hm, hburst, hstops⟩ := hdata.meets
    (q := fun k => (w k).master.burstActive = true) hactive
    fun k hk hq _ => (hlasts k (by omega) hq).1
  obtain ⟨hnext, hdataActive⟩ := hlasts m (by omega) hburst
  -- with a sample a beat is made, and so it is on the clock after the capture has stopped
  have hnow := hmakes m (by omega)
  have hthen := hmakes (m + 1) (by omega)
  rw [BurstMaster.makesBeat, hburst, Bool.true_and, Bool.or_eq_false_iff] at hnow
  rw [BurstMaster.makesBeat, hnext, hdataActive, Bool.true_and, Bool.or_eq_false_iff] at hthen
  rcases hstops with hvalid | henable
  · exact Bool.false_ne_true (hnow.1.symm.trans hvalid)
  · rw [henable] at hthen
    cases hthen.2

/-- Once the first address has been taken the first burst comes. -/
theorem exists_burstActive (k : ℕ) : ∀ {place n : ℕ}, place + k = 4 → (w n).master.Resting →
    (w n).master.Edges → (w n).master.awvalid = false → (w n).master.Token place →
    (w n).master.starting = true → (w n).master.burstAddress = 0 →
    ∃ m, n < m ∧ (w m).master.burstActive = true := by
  induction k with
  | zero =>
      intro place n hplace rest hedges hvalid token hstarting haddress
      refine ⟨n + 1, Nat.lt_succ_self n, ?_⟩
      rw [h.clock]
      exact if_pos (token.firstBurst.trans (decide_eq_true hplace))
  | succ k ih =>
      intro place n hplace rest hedges hvalid token hstarting haddress
      have hfirst : (w n).master.firstBurst = false :=
        token.firstBurst.trans (decide_eq_false (by omega))
      obtain ⟨hstart, hzero⟩ := rest.starting_clock hedges hb hstarting haddress (i := i n)
      have hmaster : (w (n + 1)).master = (w n).master.clock (i n) :=
        congrArg Observed.master (h.clock n)
      have htoken := token.next rest.inactive (BurstMaster.takesAddress_eq_false hvalid)
        (i := i n) (Or.inl rfl)
      have hnone : ((w n).master.clock (i n)).awvalid = false := by
        rw [BurstMaster.awvalid_clock, rest.writeAddress,
          BurstMaster.firstWrite_of_starting hstarting, hvalid]
        exact ite_self _
      rw [← hmaster] at hstart hzero htoken hnone
      obtain ⟨m, hm, hactive⟩ := ih (by omega) (hmaster ▸ rest.clock hedges hb hfirst)
        (hmaster ▸ hedges.clock hb) hnone htoken hstart hzero
      exact ⟨m, by omega, hactive⟩

/-- Every burst that has an address is written to its end. -/
theorem completes (hready : Recurs fun n => (i n).wready = true)
    (hdata : Recurs fun n => (i n).dataValid = true ∨ (i n).captureEnable = false) (n : ℕ) :
    ∃ m, n ≤ m ∧ burstLength burstBits * (w n).log.addresses.length ≤ (w m).log.beats.length := by
  refine exists_goal_le fun k hk hlt => ?_
  by_contra hnone
  have hnever : ∀ m, k ≤ m → (w m).master.takesBeat (i m) = false := by
    intro m hm
    by_contra htakes
    rw [Bool.not_eq_false] at htakes
    have hlength := h.beats_length m
    have hmono := h.beats_mono hm
    rw [htakes, Bool.toNat_true] at hlength
    exact hnone ⟨m + 1, by omega, by omega⟩
  have hwvalid : ∀ m, k ≤ m → (w m).master.wvalid = false := fun m hm =>
    h.wvalid_eq_false hb hready hnever hm
  have hactive : ∀ m, k < m → (w m).master.burstActive = false := fun m hm =>
    h.burstActive_eq_false hb hdata hwvalid hm
  obtain ⟨ahead, hcounted⟩ := h.counted hb k
  have hbeats : (w (k + 1)).log.beats.length = (w k).log.beats.length := by
    rw [h.beats_length, hnever k le_rfl, Bool.toNat_false, Nat.add_zero]
  have hmore : burstLength burstBits * (w n).log.addresses.length ≤
      burstLength burstBits * (w (k + 1)).log.addresses.length :=
    Nat.mul_le_mul_left _ (h.addresses_mono (by omega))
  have hvalid := hwvalid (k + 1) (by omega)
  have rest := hcounted.phase.resting (hactive (k + 1) (by omega))
  have hwhole := hcounted.beats_of_resting rest
  have haddresses := hcounted.addresses
  rw [hvalid, Bool.toNat_false, Nat.mul_zero] at hwhole
  cases hcounted.phase with
  | idle idle =>
      rw [haddresses, hvalid, Bool.toNat_false, Nat.mul_add, Nat.mul_zero] at hmore
      omega
  | requested =>
      rw [haddresses, hvalid, Bool.toNat_false, Nat.mul_add, Nat.mul_zero] at hmore
      omega
  | delayed place hplace _ hnot token hstarting haddress =>
      obtain ⟨m, hm, hburst⟩ := h.exists_burstActive hb (4 - place) (by omega) rest hcounted.edges
        hnot token hstarting haddress
      exact Bool.false_ne_true ((hactive m (by omega)).symm.trans hburst)
  | bursting taken active =>
      exact Bool.false_ne_true (rest.inactive.symm.trans active.active)
  | ending active => exact Bool.false_ne_true (rest.inactive.symm.trans active.active)

/-- A capture that stays enabled asks for more and more addresses. -/
theorem exists_address {start : ℕ} (henable : ∀ n, start ≤ n → (i n).captureEnable = true)
    (haready : Recurs fun n => (i n).awready = true) (hready : Recurs fun n => (i n).wready = true)
    (hdata : Recurs fun n => (i n).dataValid = true) (bursts : ℕ) :
    ∃ n, start ≤ n ∧ bursts ≤ (w n).log.addresses.length := by
  refine exists_goal_le fun k hk _ => ?_
  by_contra hnone
  have hnever : ∀ m, k ≤ m → (w m).master.takesAddress (i m) = false := by
    intro m hm
    by_contra htakes
    rw [Bool.not_eq_false] at htakes
    have hlength := h.addresses_length m
    have hmono := h.addresses_mono hm
    rw [htakes, Bool.toNat_true] at hlength
    exact hnone ⟨m + 1, by omega, by omega⟩
  -- when all bursts are finished the capture starts again
  obtain ⟨m, hm, hdone⟩ := h.completes hb hready
    (fun n => (hdata n).imp fun _ hn => ⟨hn.1, Or.inl hn.2⟩) (k + 1)
  obtain ⟨j, rfl⟩ : ∃ j, m = j + 1 := ⟨m - 1, by omega⟩
  obtain ⟨ahead, hcounted⟩ := h.counted hb j
  have hlength : (w (j + 1)).log.addresses.length = (w (k + 1)).log.addresses.length := by
    have hmono := h.addresses_mono hm
    by_contra hne
    have hbefore := h.addresses_mono (Nat.le_add_right k 1)
    exact hnone ⟨j + 1, by omega, by omega⟩
  have hroom := hcounted.room
  rw [← hlength] at hdone
  have hactive : (w (j + 1)).master.burstActive = false := by
    rw [← Bool.toNat_eq_zero]
    omega
  have hvalid : (w (j + 1)).master.wvalid = false := by
    rw [← Bool.toNat_eq_zero]
    omega
  have rest := hcounted.phase.resting hactive
  have hwhole := hcounted.beats_of_resting rest
  have haddresses := hcounted.addresses
  rw [hvalid, Bool.toNat_false, Nat.mul_zero] at hwhole
  have hnot := h.awvalid_eq_false hb haready hnever (n := j + 2) (by omega)
  cases hcounted.phase with
  | idle idle =>
      rw [h.clock] at hnot
      have hstarts := idle.awvalid_clock (i := i (j + 1))
      exact Bool.false_ne_true ((hnot.symm.trans hstarts).trans (henable (j + 1) (by omega)))
  | requested _ hoffered =>
      exact Bool.false_ne_true ((h.awvalid_eq_false hb haready hnever (n := j + 1)
        (by omega)).symm.trans hoffered)
  | delayed =>
      rw [haddresses, hvalid, Bool.toNat_false, Nat.zero_add, Nat.mul_add] at hdone
      have hpos : 0 < burstLength burstBits := Nat.two_pow_pos burstBits
      omega
  | bursting taken active => exact Bool.false_ne_true (hactive.symm.trans active.active)
  | ending active => exact Bool.false_ne_true (hactive.symm.trans active.active)

theorem continues {start : ℕ} (henable : ∀ n, start ≤ n → (i n).captureEnable = true)
    (haready : Recurs fun n => (i n).awready = true) (hready : Recurs fun n => (i n).wready = true)
    (hdata : Recurs fun n => (i n).dataValid = true) (bursts : ℕ) :
    ∃ n, burstLength burstBits * bursts ≤ (w n).log.beats.length := by
  obtain ⟨n, _, hn⟩ := h.exists_address hb henable haready hready hdata bursts
  obtain ⟨m, _, hm⟩ := h.completes hb hready
    (fun n => (hdata n).imp fun _ hn => ⟨hn.1, Or.inl hn.2⟩) n
  exact ⟨m, (Nat.mul_le_mul_left _ hn).trans hm⟩

end Timely

/-! ### A master at rest -/

/-- The master waits for a capture, and nothing waits for the slave. -/
structure AtRest (s : BurstMaster burstBits addrBits dataBits) : Prop where
  idle : s.Idle
  edges : s.Edges
  taken : s.wvalid = false

/-- What has to be looked at. -/
theorem atRest_of {s : BurstMaster burstBits addrBits dataBits} (hb : 2 ≤ burstBits)
    (h : (s.burstActive || s.nextBurst || s.dataActive || s.wvalid || s.awvalid || s.writeDone ||
      s.starting || s.lastRequest || s.resetBeat || s.lastEarly || s.wlast) = false)
    (hdelay : ∀ k, s.firstDelay k = false) (hbeat : s.beat = 0) : AtRest s := by
  simp only [Bool.or_eq_false_iff] at h
  obtain ⟨⟨⟨⟨⟨⟨⟨⟨⟨⟨hactive, hnext⟩, hdata⟩, hwvalid⟩, hawvalid⟩, hdone⟩, hstarting⟩, hrequest⟩,
    hreset⟩, hearly⟩, hlast⟩ := h
  have hfour := BurstMaster.four_le hb
  have htoken : s.Token 5 := by
    refine ⟨hdone, fun k => ?_⟩
    have hk := k.isLt
    rw [hdelay, decide_eq_false (by omega)]
  refine ⟨⟨⟨hactive, hnext, hdata, Or.inr ⟨hwvalid, hbeat⟩⟩, hawvalid, htoken, hstarting, hrequest⟩,
    ⟨hreset, ?_, ?_, ?_⟩, hwvalid⟩
  · rw [hearly]
    exact fun htrue => absurd htrue Bool.false_ne_true
  · rw [hbeat]
    exact fun hlt => absurd hlt (Nat.not_lt_zero _)
  · rw [hlast, hbeat]
    exact (decide_eq_false (by omega)).symm

theorem AtRest.endsOnTime {s : BurstMaster burstBits addrBits dataBits} (h : AtRest s)
    (i : Input dataBits) : s.EndsOnTime i := by
  have hactive : s.burstActive ≠ true := by
    rw [h.idle.rest.inactive]
    exact Bool.false_ne_true
  exact ⟨fun _ htrue => absurd htrue hactive, fun htrue => absurd htrue hactive,
    fun htrue => absurd htrue hactive⟩

/-- Without a capture a master at rest stays there, and the slave takes nothing. -/
theorem atRest_observe (hb : 2 ≤ burstBits) {beatCounter : BitVec burstBits}
    {i : ℕ → Input dataBits} {n : ℕ} (h : AtRest (observe addrBits beatCounter i n).master)
    (henable : ∀ m, n ≤ m → (i m).captureEnable = false) {m : ℕ} (hm : n ≤ m) :
    AtRest (observe addrBits beatCounter i m).master ∧
      (observe addrBits beatCounter i m).log.beats = (observe addrBits beatCounter i n).log.beats ∧
      (observe addrBits beatCounter i m).log.addresses =
        (observe addrBits beatCounter i n).log.addresses := by
  induction m, hm using Nat.le_induction with
  | base => exact ⟨h, rfl, rfl⟩
  | succ m hm ih =>
      obtain ⟨hrest, hbeats, haddresses⟩ := ih
      have hclock : observe addrBits beatCounter i (m + 1) =
          (observe addrBits beatCounter i m).clock (i m) := rfl
      rw [hclock]
      refine ⟨⟨hrest.idle.clock hrest.edges hb (henable m hm), hrest.edges.clock hb, ?_⟩, ?_, ?_⟩
      · exact hrest.idle.rest.wvalid_clock.trans (by rw [hrest.taken, Bool.false_and])
      · rw [Observed.beats_clock, BurstMaster.takesBeat, hrest.taken, Bool.false_and,
          if_neg Bool.false_ne_true, List.append_nil, hbeats]
      · rw [Observed.addresses_clock, BurstMaster.takesAddress_eq_false hrest.idle.noAddress,
          if_neg Bool.false_ne_true, List.append_nil, haddresses]

/-- When bursts end on time the master obeys the burst protocol. -/
theorem burst_protocol (hb : 2 ≤ burstBits) (beatCounter : BitVec burstBits)
    (i : ℕ → Input dataBits)
    (hends : ∀ n, (observe addrBits beatCounter i n).master.EndsOnTime (i n)) :
    Protocol i (observe addrBits beatCounter i) := by
  have h : Timely i (observe addrBits beatCounter i) := ⟨⟨beatCounter, rfl⟩, fun _ => rfl, hends⟩
  exact {
    addressHeld := fun n => h.addressHeld hb
    beatHeld := fun n => h.beatHeld hb
    addressed := h.addressed hb
    framed := h.framed hb
    written := h.written hb
    settled := h.settled hb
    completes := h.completes hb
    captures := fun n => h.captures hb
    continues := fun start henable => h.continues hb henable }

/-- A capture of 36 clocks, with a sample on each clock and a slave that is always ready. -/
def steady (n : ℕ) : Input 64 where
  awready := true
  wready := true
  bvalid := false
  bresp := 0
  captureEnable := n < 36
  data := n
  dataValid := true

/-- It writes two bursts, the second one half empty. -/
theorem protocol_steady : Protocol steady (observe 23 (0 : BitVec 5) steady) := by
  refine burst_protocol (by decide) 0 steady fun n => ?_
  rcases Nat.lt_or_ge n 75 with hlt | hge
  · have hearly : ∀ n < 75, (observe 23 (0 : BitVec 5) steady n).master.EndsOnTime (steady n) := by
      decide +kernel
    exact hearly n hlt
  · have hrest : AtRest (observe 23 (0 : BitVec 5) steady 75).master :=
      atRest_of (by decide) (by decide +kernel) (by decide +kernel) (by decide +kernel)
    refine (atRest_observe (by decide) hrest (fun m hm => ?_) hge).1.endsOnTime _
    exact decide_eq_false (by omega)

/-- A capture of 38 clocks.  There is no sample on the last clock and on the one after it, and the
slave is not ready on the next clock. -/
def gap (n : ℕ) : Input 64 where
  awready := true
  wready := n != 39
  bvalid := false
  bresp := 0
  captureEnable := n < 38
  data := n
  dataValid := n < 37 || 38 < n

/-- On clock 38 the master decides to go on, and on clock 40 it decides again in the same burst: the
second burst is never written, though the slave has taken its address. -/
theorem not_protocol_gap : ¬Protocol gap (observe 23 (0 : BitVec 5) gap) := by
  intro h
  have hrest : AtRest (observe 23 (0 : BitVec 5) gap 42).master :=
    atRest_of (by decide) (by decide +kernel) (by decide +kernel) (by decide +kernel)
  have hready : Recurs fun n => (gap n).wready = true := by
    refine fun n => ⟨n + 40, Nat.le_add_right n 40, ?_⟩
    change (n + 40 != 39) = true
    exact bne_iff_ne.mpr (by omega)
  have hstops : Recurs fun n => (gap n).dataValid = true ∨ (gap n).captureEnable = false := by
    refine fun n => ⟨n + 40, Nat.le_add_right n 40, Or.inr ?_⟩
    change decide (n + 40 < 38) = false
    exact decide_eq_false (by omega)
  obtain ⟨m, hm, hall⟩ := h.completes hready hstops 42
  obtain ⟨_, hbeats, _⟩ := atRest_observe (by decide) hrest
    (fun k hk => decide_eq_false (by omega)) hm
  rw [hbeats] at hall
  have hnot : ¬burstLength 5 * (observe 23 (0 : BitVec 5) gap 42).log.addresses.length ≤
      (observe 23 (0 : BitVec 5) gap 42).log.beats.length := by
    decide +kernel
  exact hnot hall

end Mbf.Axi
