import Mbf.Axi.Phase
import Mbf.Lib.Bursts
import Mbf.Lib.Clocked

/-! # What the master of the fast memory writes

Beside the master a log is kept of what the slave has taken, addresses and beats, and of the
samples that have been captured.  An address stands for a burst, so the beats with the addresses say
what has been written where.

The addresses of a capture count from its first burst (`Capturing`), and what has been written, with
the beat that waits for the slave, is what has been captured, as long as there was no error
(`Written`). -/

namespace Mbf.Axi

open Bursts

variable {burstBits addrBits dataBits : ℕ}

/-! ### The log -/

/-- What the slave has taken, and the samples with their numbers in their capture. -/
structure Log (dataBits : ℕ) where
  addresses : List ℕ
  beats : List (Beat (BitVec dataBits))
  count : ℕ
  samples : List (ℕ × BitVec dataBits)

/-- The beat on the data channel. -/
def BurstMaster.offered (s : BurstMaster burstBits addrBits dataBits) : Beat (BitVec dataBits) :=
  ⟨s.wdata, s.wstrb, s.wlast⟩

/-- A sample is captured while `data_ready_o` is set. -/
def BurstMaster.captures (s : BurstMaster burstBits addrBits dataBits) (i : Input dataBits) :
    Bool :=
  s.dataActive && i.dataValid

/-- A beat is put on the data channel, of a sample or empty. -/
def BurstMaster.makesBeat (s : BurstMaster burstBits addrBits dataBits) (i : Input dataBits) :
    Bool :=
  s.burstActive && (i.dataValid || !s.dataActive)

def Log.clock (i : Input dataBits) (s : BurstMaster burstBits addrBits dataBits)
    (log : Log dataBits) : Log dataBits where
  addresses :=
    if s.takesAddress i then log.addresses ++ [s.burstAddress.toNat] else log.addresses
  beats := if s.takesBeat i then log.beats ++ [s.offered] else log.beats
  count := if s.firstBurst then 0 else if s.captures i then log.count + 1 else log.count
  samples := if s.captures i then log.samples ++ [(log.count, i.data)] else log.samples

/-- The master, with the log. -/
structure Observed (burstBits addrBits dataBits : ℕ) where
  master : BurstMaster burstBits addrBits dataBits
  log : Log dataBits

namespace Observed

/-- After reset nothing has been taken. -/
def powerUp (beatCounter : BitVec burstBits) : Observed burstBits addrBits dataBits :=
  ⟨.powerUp beatCounter, ⟨[], [], 0, []⟩⟩

def clock (i : Input dataBits) (w : Observed burstBits addrBits dataBits) :
    Observed burstBits addrBits dataBits :=
  ⟨w.master.clock i, w.log.clock i w.master⟩

variable (w : Observed burstBits addrBits dataBits)

/-- What has been written. -/
def written : List (ℕ × BitVec dataBits) :=
  writes (burstLength burstBits) w.log.addresses w.log.beats

/-- What the beat that waits for the slave writes. -/
def waiting : List (ℕ × BitVec dataBits) :=
  if w.master.wvalid then
    w.master.offered.writes (word (burstLength burstBits) w.log.addresses w.log.beats.length)
  else []

/-- The samples of a capture belong to the words of the memory from the first one on, round and
round. -/
def captured : List (ℕ × BitVec dataBits) :=
  w.log.samples.map fun x => (x.1 % 2 ^ (burstBits + addrBits), x.2)

/-- The bursts that have been written. -/
def bursts : ℕ := w.log.beats.length / burstLength burstBits

/-! ### Addresses and beats -/

/-- The log agrees with the phase, where `ahead` bursts have an address and are not finished. -/
structure Counted (w : Observed burstBits addrBits dataBits) (ahead : ℕ) : Prop where
  edges : w.master.Edges
  phase : w.master.Phase ahead
  addresses : w.log.addresses.length = w.bursts + ahead
  beat : w.master.beat = w.log.beats.length % burstLength burstBits
  framed : Framed (burstLength burstBits) w.log.beats
  started : w.master.burstActive = false → w.master.starting = true → w.master.awvalid = false →
    w.log.addresses.getLast? = some 0

variable {w} {i : Input dataBits} {ahead : ℕ}

theorem addresses_clock : (w.clock i).log.addresses =
    w.log.addresses ++ if w.master.takesAddress i then [w.master.burstAddress.toNat] else [] := by
  change (if w.master.takesAddress i then _ else _) = _
  split
  · rfl
  · exact (List.append_nil _).symm

theorem beats_clock : (w.clock i).log.beats =
    w.log.beats ++ if w.master.takesBeat i then [w.master.offered] else [] := by
  change (if w.master.takesBeat i then _ else _) = _
  split
  · rfl
  · exact (List.append_nil _).symm

theorem addresses_length_clock : (w.clock i).log.addresses.length =
    w.log.addresses.length + (w.master.takesAddress i).toNat := by
  rw [addresses_clock, List.length_append]
  cases w.master.takesAddress i <;> rfl

theorem beats_length_clock : (w.clock i).log.beats.length =
    w.log.beats.length + (w.master.takesBeat i).toNat := by
  rw [beats_clock, List.length_append]
  cases w.master.takesBeat i <;> rfl

namespace Counted

variable (h : w.Counted ahead)
include h

theorem bursts_clock : (w.clock i).bursts = w.bursts + (w.master.takesLast i).toNat := by
  unfold bursts BurstMaster.takesLast
  rw [beats_length_clock, h.beat]
  cases w.master.takesBeat i with
  | true =>
      change (w.log.beats.length + 1) / _ = _
      rw [div_add_one (Nat.two_pow_pos burstBits), Bool.true_and]
      split
      · next hlast => rw [decide_eq_true hlast]; rfl
      · next hlast => rw [decide_eq_false hlast]; rfl
  | false => rfl

theorem framed_clock : Framed (burstLength burstBits) (w.clock i).log.beats := by
  rw [beats_clock]
  split
  · refine h.framed.append ?_
    change w.master.wlast = true ↔ _
    rw [h.edges.last, decide_eq_true_iff, h.beat]
  · rw [List.append_nil]
    exact h.framed

theorem beat_clock (hb : 2 ≤ burstBits) :
    (w.clock i).master.beat = (w.clock i).log.beats.length % burstLength burstBits := by
  refine (h.edges.beat_clock hb).trans ?_
  rw [beats_length_clock, h.beat]
  cases w.master.takesBeat i with
  | true => exact (mod_add_one (Nat.two_pow_pos burstBits) _).symm
  | false => rfl

/-- The first address of a capture is zero. -/
theorem started_clock (hstarting : (w.clock i).master.starting = true)
    (hvalid : (w.clock i).master.awvalid = false) :
    (w.clock i).log.addresses.getLast? = some 0 := by
  rw [addresses_clock]
  cases h.phase with
  | idle idle =>
      have hwrite : i.captureEnable = true := by
        by_contra hwrite
        rw [← idle.firstWrite] at hwrite
        change (if w.master.firstWrite i then true else if w.master.burstActive then false
          else w.master.starting) = true at hstarting
        rw [if_neg hwrite, idle.rest.inactive, idle.notStarting] at hstarting
        cases hstarting
      have hnot : i.captureEnable = false := idle.awvalid_clock.symm.trans hvalid
      exact absurd (hnot.symm.trans hwrite) Bool.false_ne_true
  | requested rest hoffered token hstart haddress =>
      have htaken : w.master.takesAddress i = true := by
        by_contra htaken
        rw [BurstMaster.takesAddress, hoffered, Bool.true_and, Bool.not_eq_true] at htaken
        change (w.master.clock i).awvalid = false at hvalid
        rw [BurstMaster.awvalid_clock, hoffered, htaken, Bool.not_true, Bool.and_false] at hvalid
        cases hvalid
      rw [htaken, if_pos rfl, List.getLast?_concat, haddress]
      exact congrArg some BitVec.toNat_zero
  | delayed place hplace rest hnone token hstart haddress =>
      rw [BurstMaster.takesAddress_eq_false hnone, if_neg Bool.false_ne_true, List.append_nil]
      exact h.started rest.inactive hstart hnone
  | bursting taken active hdecided next =>
      exact absurd (active.starting_clock.symm.trans hstarting) Bool.false_ne_true
  | ending active hdecided hnone hdone hnext =>
      exact absurd (active.starting_clock.symm.trans hstarting) Bool.false_ne_true

theorem clock (hb : 2 ≤ burstBits) (hends : w.master.EndsOnTime i) :
    ∃ left, (w.clock i).Counted left := by
  obtain ⟨left, hphase, hleft⟩ := h.phase.clock h.edges hb hends
  refine ⟨left, h.edges.clock hb, hphase, ?_, h.beat_clock hb, h.framed_clock,
    fun _ => h.started_clock⟩
  rw [addresses_length_clock, h.addresses, h.bursts_clock]
  omega

/-- The bursts of which the middle has been seen go on with `half_burst`. -/
theorem middles_clock (hb : 2 ≤ burstBits) :
    (w.clock i).bursts + (w.clock i).master.pastHalf.toNat =
      w.bursts + w.master.pastHalf.toNat + w.master.halfBurst.toNat := by
  rw [h.bursts_clock]
  change _ + (w.master.clock i).pastHalf.toNat = _
  cases hlast : w.master.takesLast i with
  | true =>
      obtain ⟨htakes, hend⟩ := Bool.and_eq_true_iff.mp hlast
      have hfour := BurstMaster.four_le hb
      have hbeat : (w.master.clock i).beat = 0 := by
        rw [h.edges.beat_clock hb, if_pos htakes, if_pos (of_decide_eq_true hend)]
      have hbefore : w.master.beat + 1 = burstLength burstBits := of_decide_eq_true hend
      rw [BurstMaster.pastHalf_of_zero hb hbeat, BurstMaster.pastHalf, BurstMaster.halfBurst,
        BurstMaster.msb_eq hb, decide_eq_true (by omega), h.edges.half (by omega)]
      rfl
  | false =>
      rw [h.edges.pastHalf_clock hb hlast, BurstMaster.pastHalf, BurstMaster.halfBurst]
      cases w.master.beatCounter.msb <;> cases w.master.lastHalf <;> rfl

/-- Between bursts the beats, with the one that waits, are whole bursts. -/
theorem beats_of_resting (rest : w.master.Resting) :
    w.log.beats.length + w.master.wvalid.toNat =
      burstLength burstBits * w.bursts + burstLength burstBits * w.master.wvalid.toNat := by
  have hparts : w.log.beats.length = burstLength burstBits * w.bursts + w.master.beat := by
    rw [h.beat]
    exact (Nat.div_add_mod _ _).symm
  rcases rest.between with ⟨htrue, hlast⟩ | ⟨hfalse, hzero⟩
  · rw [htrue, Bool.toNat_true]
    omega
  · rw [hfalse, Bool.toNat_false]
    omega

/-- There is an address for each beat, for the beat that waits, and during a burst for the next
one. -/
theorem room :
    w.log.beats.length + w.master.wvalid.toNat + w.master.burstActive.toNat ≤
      burstLength burstBits * w.log.addresses.length := by
  have hparts : w.log.beats.length = burstLength burstBits * w.bursts + w.master.beat := by
    rw [h.beat]
    exact (Nat.div_add_mod _ _).symm
  have hlt : w.master.beat < burstLength burstBits := BurstMaster.beat_lt
  have hvalid := Bool.toNat_le w.master.wvalid
  rw [h.addresses, Nat.mul_add]
  cases h.phase with
  | idle idle =>
      rw [idle.rest.inactive, h.beats_of_resting idle.rest]
      exact le_rfl
  | requested rest =>
      rw [rest.inactive, h.beats_of_resting rest]
      exact le_rfl
  | delayed place hplace rest =>
      rw [rest.inactive, h.beats_of_resting rest, Nat.mul_add, Bool.toNat_false]
      omega
  | bursting taken active hdecided next =>
      have hlast : ¬w.master.beat + 1 = burstLength burstBits := fun hlast =>
        hdecided (Or.inl hlast)
      rw [active.active, Nat.mul_add, Bool.toNat_true]
      omega
  | ending active =>
      rw [active.active, Bool.toNat_true]
      omega

end Counted

/-! ### The addresses of a capture -/

/-- The addresses count from zero on, the first address of the capture being the address `first` of
all; the next one goes with the next middle of a burst. -/
structure Capturing (w : Observed burstBits addrBits dataBits) (first : ℕ) : Prop where
  started : first ≤ w.bursts + w.master.pastHalf.toNat
  next : w.master.burstAddress.toNat =
    (w.bursts + w.master.pastHalf.toNat - first) % 2 ^ addrBits
  taken : ∀ n, first ≤ n → n < w.log.addresses.length →
    w.log.addresses.getD n 0 = (n - first) % 2 ^ addrBits

/-- The first address of the capture that goes on after a clock. -/
def firstAfter (w : Observed burstBits addrBits dataBits) (first : ℕ) : ℕ :=
  if w.master.firstBurst then w.log.addresses.length - 1 else first

theorem toNat_add_one (x : BitVec addrBits) : (x + 1).toNat = (x.toNat + 1) % 2 ^ addrBits := by
  rw [BitVec.toNat_add]
  change (x.toNat + 1 % 2 ^ addrBits) % 2 ^ addrBits = _
  rw [Nat.add_mod_mod]

theorem Capturing.active {first : ℕ} (h : w.Capturing first) (hcounted : w.Counted ahead)
    (hb : 2 ≤ burstBits) (active : w.master.Active) : (w.clock i).Capturing first where
  started := by
    rw [hcounted.middles_clock hb]
    exact h.started.trans (Nat.le_add_right _ _)
  next := by
    have hstarted := h.started
    rw [hcounted.middles_clock hb]
    change (if w.master.firstWrite i then 0 else if w.master.halfBurst then
      w.master.burstAddress + 1 else w.master.burstAddress : BitVec addrBits).toNat = _
    rw [BurstMaster.firstWrite_of_active active.active, if_neg Bool.false_ne_true]
    cases w.master.halfBurst with
    | true =>
        rw [if_pos rfl, toNat_add_one, h.next, Nat.mod_add_mod, Bool.toNat_true]
        congr 1
        omega
    | false => exact h.next
  taken n hfirst hn := by
    rw [addresses_length_clock] at hn
    rw [addresses_clock]
    rcases Nat.lt_or_ge n w.log.addresses.length with hlt | hge
    · rw [List.getD_append _ _ _ _ hlt]
      exact h.taken n hfirst hlt
    · cases htaken : w.master.takesAddress i with
      | true =>
          rw [htaken, Bool.toNat_true] at hn
          have hend : n = w.log.addresses.length := by omega
          obtain ⟨hhalf, hahead⟩ := hcounted.phase.of_awvalid active.active
            (Bool.and_eq_true_iff.mp htaken).1
          have hnext := h.next
          rw [hhalf, Bool.toNat_true, ← hahead, ← hcounted.addresses] at hnext
          rw [if_pos rfl, hend, List.getD_append_right _ _ _ _ le_rfl, Nat.sub_self]
          exact hnext
      | false =>
          rw [htaken, Bool.toNat_false] at hn
          omega

/-- The first burst of a capture. -/
theorem Counted.capturing (h : w.Counted ahead) (hb : 2 ≤ burstBits)
    (hfirst : w.master.firstBurst = true) :
    (w.clock i).Capturing (w.log.addresses.length - 1) ∧
      w.log.addresses.length = w.bursts + w.master.wvalid.toNat + 1 := by
  obtain ⟨rest, hstarting, hvalid, haddress, hahead⟩ := h.phase.of_firstBurst hfirst
  have hlength : w.log.addresses.length = w.bursts + w.master.wvalid.toNat + 1 := by
    rw [h.addresses, hahead]
    rfl
  have hmiddles : (w.clock i).bursts + (w.clock i).master.pastHalf.toNat =
      w.log.addresses.length - 1 := by
    rw [h.middles_clock hb, rest.halfBurst h.edges hb, rest.pastHalf h.edges hb, hlength]
    rfl
  refine ⟨⟨hmiddles.ge, ?_, ?_⟩, hlength⟩
  · obtain ⟨_, hzero⟩ := rest.starting_clock h.edges hb hstarting haddress (i := i)
    rw [hmiddles, Nat.sub_self, Nat.zero_mod]
    exact (congrArg BitVec.toNat hzero).trans BitVec.toNat_zero
  · intro n hn hlt
    rw [addresses_length_clock, BurstMaster.takesAddress_eq_false hvalid, Bool.toNat_false] at hlt
    have hend : n = w.log.addresses.length - 1 := by omega
    have hlast := h.started rest.inactive hstarting hvalid
    rw [List.getLast?_eq_getElem?, ← hend] at hlast
    rw [addresses_clock, BurstMaster.takesAddress_eq_false hvalid, if_neg Bool.false_ne_true,
      List.append_nil, List.getD_eq_getElem?_getD, hlast, hend, Nat.sub_self, Nat.zero_mod]
    rfl

/-! ### The samples -/

/-- What has been written, with what waits, is what has been captured; the sample that comes next
goes with the next beat. -/
structure Written (w : Observed burstBits addrBits dataBits) (first : ℕ) : Prop where
  count : w.master.dataActive = true →
    w.log.beats.length + w.master.wvalid.toNat = burstLength burstBits * first + w.log.count
  written : w.written ++ w.waiting = w.captured

/-- The samples of a clock. -/
def news (w : Observed burstBits addrBits dataBits) (i : Input dataBits) :
    List (ℕ × BitVec dataBits) :=
  if w.master.captures i then [(w.log.count % 2 ^ (burstBits + addrBits), i.data)] else []

theorem captured_clock : (w.clock i).captured = w.captured ++ w.news i := by
  change (if w.master.captures i then w.log.samples ++ [(w.log.count, i.data)]
    else w.log.samples).map _ = _
  unfold news
  split
  · exact List.map_append
  · exact (List.append_nil _).symm

/-- A beat that is taken writes what has waited. -/
theorem written_clock (hroom : w.log.beats.length + w.master.wvalid.toNat ≤
      burstLength burstBits * w.log.addresses.length) :
    (w.clock i).written = w.written ++ if w.master.takesBeat i then w.waiting else [] := by
  unfold written
  rw [addresses_clock, beats_clock]
  cases htakes : w.master.takesBeat i with
  | true =>
      have hvalid : w.master.wvalid = true := (Bool.and_eq_true_iff.mp htakes).1
      rw [hvalid, Bool.toNat_true] at hroom
      rw [if_pos rfl, if_pos rfl, writes_append_beat, word_append (by omega),
        writes_append_address (by omega)]
      unfold waiting
      rw [hvalid, if_pos rfl]
  | false =>
      rw [if_neg Bool.false_ne_true, if_neg Bool.false_ne_true, List.append_nil, List.append_nil,
        writes_append_address (by omega)]

theorem wvalid_clock : (w.clock i).master.wvalid =
    (w.master.makesBeat i || (w.master.wvalid && !i.wready)) := by
  change (if w.master.makesBeat i then true else if i.wready then false else w.master.wvalid) = _
  cases w.master.makesBeat i <;> cases i.wready <;> cases w.master.wvalid <;> rfl

/-- A beat stays as it is as long as no other is made. -/
theorem offered_clock (hmakes : w.master.makesBeat i = false) :
    (w.clock i).master.wdata = w.master.wdata ∧ (w.clock i).master.wstrb = w.master.wstrb := by
  change (if w.master.burstActive && w.master.dataActive && i.dataValid then i.data
      else w.master.wdata) = _ ∧
    (if w.master.burstActive then if w.master.dataActive then
      if i.dataValid then true else w.master.wstrb else false else w.master.wstrb) = _
  unfold BurstMaster.makesBeat at hmakes
  cases hactive : w.master.burstActive with
  | true =>
      rw [hactive, Bool.true_and, Bool.or_eq_false_iff, Bool.not_eq_false'] at hmakes
      rw [hmakes.1, hmakes.2]
      exact ⟨rfl, rfl⟩
  | false => exact ⟨rfl, rfl⟩

/-- A beat that is made is strobed if it has a sample. -/
theorem made_clock (hmakes : w.master.makesBeat i = true) :
    (w.clock i).master.wstrb = w.master.dataActive ∧
      (w.master.dataActive = true → i.dataValid = true ∧ (w.clock i).master.wdata = i.data) := by
  change (if w.master.burstActive then if w.master.dataActive then
      if i.dataValid then true else w.master.wstrb else false else w.master.wstrb) = _ ∧
    (_ → _ ∧ (if w.master.burstActive && w.master.dataActive && i.dataValid then i.data
      else w.master.wdata) = _)
  obtain ⟨hactive, hmade⟩ := Bool.and_eq_true_iff.mp hmakes
  rw [hactive]
  cases hdata : w.master.dataActive with
  | true =>
      rw [hdata, Bool.not_true, Bool.or_false] at hmade
      rw [hmade]
      exact ⟨rfl, fun _ => ⟨rfl, rfl⟩⟩
  | false => exact ⟨rfl, fun hfalse => absurd hfalse Bool.false_ne_true⟩

theorem Counted.dataActive (h : w.Counted ahead) (hdata : w.master.dataActive = true) :
    w.master.Active :=
  h.phase.resting_or_active.resolve_left fun rest =>
    Bool.false_ne_true (rest.noData.symm.trans hdata)

theorem Counted.makesBeat_of_captures (h : w.Counted ahead)
    (hcaptures : w.master.captures i = true) : w.master.makesBeat i = true := by
  obtain ⟨hdata, hvalid⟩ := Bool.and_eq_true_iff.mp hcaptures
  rw [BurstMaster.makesBeat, (h.dataActive hdata).active, hvalid, Bool.true_or, Bool.and_self]

/-- The word of the sample that is captured. -/
theorem Written.word {first : ℕ} (h : w.Written first) (hcounted : w.Counted ahead)
    (hcapturing : w.Capturing first) (hdata : w.master.dataActive = true) :
    Bursts.word (burstLength burstBits) (w.clock i).log.addresses
        (w.log.beats.length + w.master.wvalid.toNat) =
      w.log.count % 2 ^ (burstBits + addrBits) := by
  have hroom := hcounted.room
  have hpos : 0 < burstLength burstBits := Nat.two_pow_pos burstBits
  rw [(hcounted.dataActive hdata).active, Bool.toNat_true] at hroom
  rw [addresses_clock, word_append (by omega), Bursts.word, h.count hdata,
    Nat.mul_add_div hpos, Nat.mul_add_mod, hcapturing.taken _ (Nat.le_add_right _ _) ?_,
    Nat.add_sub_cancel_left, Nat.pow_add, Nat.mod_mul, Nat.mul_comm, Nat.add_comm]
  rw [h.count hdata] at hroom
  have hdiv := Nat.mul_div_le w.log.count (burstLength burstBits)
  refine Nat.lt_of_mul_lt_mul_left (a := burstLength burstBits) ?_
  rw [Nat.mul_add]
  omega

theorem takesBeat_toNat (hfree : w.master.wvalid = true → i.wready = true) :
    (w.master.takesBeat i).toNat = w.master.wvalid.toNat := by
  unfold BurstMaster.takesBeat
  cases hvalid : w.master.wvalid with
  | true => rw [hfree hvalid, Bool.and_self]
  | false => rw [Bool.false_and]

theorem taken_waiting (hfree : w.master.wvalid = true → i.wready = true) :
    (if w.master.takesBeat i then w.waiting else []) = w.waiting := by
  unfold waiting BurstMaster.takesBeat
  cases hvalid : w.master.wvalid with
  | true => rw [hfree hvalid]; rfl
  | false => rfl

/-- When the data channel is free the beat that comes next is the sample, if there is one. -/
theorem Written.waiting_free {first : ℕ} (h : w.Written first) (hcounted : w.Counted ahead)
    (hcapturing : w.master.burstActive = true → w.Capturing first)
    (hfree : w.master.wvalid = true → i.wready = true) : (w.clock i).waiting = w.news i := by
  unfold waiting
  have hnone : (w.master.wvalid && !i.wready) = false := by
    cases hvalid : w.master.wvalid with
    | true => rw [hfree hvalid, Bool.not_true, Bool.and_false]
    | false => rw [Bool.false_and]
  rw [wvalid_clock, hnone, Bool.or_false]
  cases hmakes : w.master.makesBeat i with
  | true =>
      obtain ⟨hstrobe, hsample⟩ := made_clock hmakes
      rw [if_pos rfl]
      unfold Beat.writes BurstMaster.offered news BurstMaster.captures
      rw [hstrobe]
      cases hdata : w.master.dataActive with
      | true =>
          obtain ⟨hvalid, hword⟩ := hsample hdata
          have hactive := (hcounted.dataActive hdata).active
          rw [hword, beats_length_clock, takesBeat_toNat hfree,
            h.word hcounted (hcapturing hactive) hdata, hvalid]
          rfl
      | false => rfl
  | false =>
      unfold news
      rw [if_neg Bool.false_ne_true, if_neg]
      intro hcaptures
      exact Bool.false_ne_true (hmakes.symm.trans (hcounted.makesBeat_of_captures hcaptures))

/-- Without an error nothing is captured while a beat waits for the slave. -/
theorem Counted.captures_eq_false (h : w.Counted ahead)
    (herror : (w.clock i).master.dataError = false) (hvalid : w.master.wvalid = true)
    (hready : i.wready = false) : w.master.captures i = false := by
  by_contra hcaptures
  rw [Bool.not_eq_false] at hcaptures
  obtain ⟨hdata, hsample⟩ := Bool.and_eq_true_iff.mp hcaptures
  change (w.master.burstActive && w.master.dataActive && i.dataValid && w.master.wvalid &&
    !i.wready) = false at herror
  rw [(h.dataActive hdata).active, hdata, hsample, hvalid, hready] at herror
  cases herror

/-- A beat that the slave does not take stays as it is. -/
theorem Counted.offered_held (h : w.Counted ahead) (hends : w.master.EndsOnTime i)
    (hvalid : w.master.wvalid = true) (hready : i.wready = false)
    (herror : (w.clock i).master.dataError = false) :
    (w.clock i).master.offered = w.master.offered := by
  have hcaptures := h.captures_eq_false herror hvalid hready
  have hlast : (w.clock i).master.wlast = w.master.wlast := by
    change (if w.master.resetBeat then false else if w.master.wvalid && i.wready then
      w.master.wlastEarly i else w.master.wlast) = _
    rw [h.edges.reset, hready, Bool.and_false]
    rfl
  have hbeat : (w.clock i).master.wdata = w.master.wdata ∧
      (w.clock i).master.wstrb = w.master.wstrb := by
    cases hmakes : w.master.makesBeat i with
    | true =>
        -- only an empty beat can be made, and then the beat that waits is empty too
        obtain ⟨hactive, hmade⟩ := Bool.and_eq_true_iff.mp hmakes
        have hdata : w.master.dataActive = false := by
          by_contra hdata
          rw [Bool.not_eq_false] at hdata
          rw [BurstMaster.captures, hdata, Bool.true_and] at hcaptures
          rw [hdata, hcaptures] at hmade
          cases hmade
        have hstrobe : w.master.wstrb = false := by
          by_contra hstrobe
          rw [Bool.not_eq_false] at hstrobe
          exact Bool.false_ne_true (hready.symm.trans (hends.blank hactive hdata hvalid hstrobe))
        refine ⟨if_neg ?_, ?_⟩
        · rw [hdata, Bool.and_false, Bool.false_and]
          exact Bool.false_ne_true
        · rw [(made_clock hmakes).1, hdata, hstrobe]
    | false => exact offered_clock hmakes
  unfold BurstMaster.offered
  rw [hbeat.1, hbeat.2, hlast]

theorem Counted.waiting_held (h : w.Counted ahead)
    (hends : w.master.EndsOnTime i) (herror : (w.clock i).master.dataError = false)
    (hvalid : w.master.wvalid = true) (hready : i.wready = false) :
    (w.clock i).waiting = w.waiting ∧ w.news i = [] := by
  have hroom := h.room
  have hcaptures := h.captures_eq_false herror hvalid hready
  have hbeats : (w.clock i).log.beats.length = w.log.beats.length := by
    rw [beats_length_clock, BurstMaster.takesBeat, hready, Bool.and_false, Bool.toNat_false,
      Nat.add_zero]
  rw [hvalid, Bool.toNat_true] at hroom
  refine ⟨?_, if_neg (by rw [hcaptures]; exact Bool.false_ne_true)⟩
  unfold waiting
  rw [wvalid_clock, hvalid, hready, Bool.not_false, Bool.and_self, Bool.or_true, if_pos rfl,
    if_pos rfl, hbeats, addresses_clock, word_append (by omega),
    h.offered_held hends hvalid hready herror]

theorem Counted.written_waiting (h : w.Counted ahead) {first : ℕ}
    (hwritten : w.Written first) (hcapturing : w.master.burstActive = true → w.Capturing first)
    (hends : w.master.EndsOnTime i) (herror : (w.clock i).master.dataError = false) :
    (w.clock i).written ++ (w.clock i).waiting = (w.clock i).captured := by
  have hroom := h.room
  rw [written_clock (by omega), captured_clock, ← hwritten.written]
  by_cases hfree : w.master.wvalid = true → i.wready = true
  · rw [taken_waiting hfree, hwritten.waiting_free h hcapturing hfree]
  · rw [Classical.not_imp, Bool.not_eq_true] at hfree
    obtain ⟨hheld, hnone⟩ := h.waiting_held hends herror hfree.1 hfree.2
    rw [BurstMaster.takesBeat, hfree.2, Bool.and_false, if_neg Bool.false_ne_true, hheld, hnone,
      List.append_nil, List.append_nil]

theorem beats_wvalid_clock (hmakes : w.master.makesBeat i = false) :
    (w.clock i).log.beats.length + (w.clock i).master.wvalid.toNat =
      w.log.beats.length + w.master.wvalid.toNat := by
  rw [beats_length_clock, wvalid_clock, hmakes, Bool.false_or, Nat.add_assoc]
  congr 1
  unfold BurstMaster.takesBeat
  cases w.master.wvalid <;> cases i.wready <;> rfl

theorem Counted.count_clock (h : w.Counted ahead) (hb : 2 ≤ burstBits) {first : ℕ}
    (hwritten : w.Written first) (herror : (w.clock i).master.dataError = false)
    (hdata : (w.clock i).master.dataActive = true) :
    (w.clock i).log.beats.length + (w.clock i).master.wvalid.toNat =
      burstLength burstBits * w.firstAfter first + (w.clock i).log.count := by
  have hcount : (w.clock i).log.count = if w.master.firstBurst then 0
      else if w.master.captures i then w.log.count + 1 else w.log.count := rfl
  unfold firstAfter
  cases hfirst : w.master.firstBurst with
  | true =>
      obtain ⟨rest, _⟩ := h.phase.of_firstBurst hfirst
      obtain ⟨_, hlength⟩ := h.capturing hb hfirst (i := i)
      have hmakes : w.master.makesBeat i = false := by
        rw [BurstMaster.makesBeat, rest.inactive, Bool.false_and]
      rw [beats_wvalid_clock hmakes, hcount, hfirst, if_pos rfl, if_pos rfl, hlength,
        h.beats_of_resting rest, Nat.add_sub_cancel, Nat.mul_add, Nat.add_zero]
  | false =>
      have hbefore : w.master.dataActive = true := by
        by_contra hnot
        rw [Bool.not_eq_true] at hnot
        change (if w.master.firstBurst then true else if !i.captureEnable || !w.master.burstActive
          then false else w.master.dataActive) = true at hdata
        rw [hfirst, hnot, if_neg Bool.false_ne_true, ite_self] at hdata
        cases hdata
      have hactive := (h.dataActive hbefore).active
      have hlast := hwritten.count hbefore
      rw [hcount, hfirst, if_neg Bool.false_ne_true, if_neg Bool.false_ne_true,
        BurstMaster.captures, hbefore, Bool.true_and]
      cases hsample : i.dataValid with
      | true =>
          have hfree : w.master.wvalid = true → i.wready = true := by
            intro hvalid
            by_contra hready
            rw [Bool.not_eq_true] at hready
            change (w.master.burstActive && w.master.dataActive && i.dataValid &&
              w.master.wvalid && !i.wready) = false at herror
            rw [hactive, hbefore, hsample, hvalid, hready] at herror
            cases herror
          have hmakes : w.master.makesBeat i = true := by
            rw [BurstMaster.makesBeat, hactive, hsample, Bool.true_or, Bool.and_self]
          rw [beats_length_clock, takesBeat_toNat hfree, wvalid_clock, hmakes, Bool.true_or,
            if_pos rfl, hlast]
          rfl
      | false =>
          have hmakes : w.master.makesBeat i = false := by
            rw [BurstMaster.makesBeat, hbefore, hsample, Bool.not_true, Bool.or_self,
              Bool.and_false]
          rw [beats_wvalid_clock hmakes, hlast]
          rfl

/-! ### One clock -/

/-- What holds all along: the addresses of the capture, and what is written unless there has been an
error. -/
structure Kept (w : Observed burstBits addrBits dataBits) (ahead first : ℕ) (good : Prop) : Prop
    where
  counted : w.Counted ahead
  capturing : w.master.burstActive = true → w.Capturing first
  written : good → w.Written first

theorem Kept.clock {first : ℕ} {good : Prop} (h : w.Kept ahead first good) (hb : 2 ≤ burstBits)
    (hends : w.master.EndsOnTime i) :
    ∃ left, (w.clock i).Kept left (w.firstAfter first)
      (good ∧ (w.clock i).master.dataError = false) := by
  obtain ⟨left, hcounted⟩ := h.counted.clock hb hends
  refine ⟨left, hcounted, ?_, ?_⟩
  · intro hactive
    unfold firstAfter
    cases hfirst : w.master.firstBurst with
    | true => exact (h.counted.capturing hb hfirst).1
    | false =>
        have hbefore : w.master.burstActive = true := by
          by_contra hnot
          rw [Bool.not_eq_true] at hnot
          have rest := h.counted.phase.resting hnot
          have hafter := (rest.clock h.counted.edges hb hfirst (i := i)).inactive
          exact Bool.false_ne_true (hafter.symm.trans hactive)
        exact (h.capturing hbefore).active h.counted hb (h.counted.phase.active hbefore)
  · rintro ⟨hgood, herror⟩
    have hwritten := h.written hgood
    exact ⟨h.counted.count_clock hb hwritten herror,
      h.counted.written_waiting hwritten h.capturing hends herror⟩

end Observed

/-! ### The first clock -/

theorem BurstMaster.phase_powerUp (hb : 2 ≤ burstBits) {beatCounter : BitVec burstBits}
    {s : BurstMaster burstBits addrBits dataBits} (hs : s = powerUp beatCounter)
    (i : Input dataBits) : (s.clock i).Phase 0 := by
  have hreset : s.resetBeat = true := by rw [hs]; rfl
  have hvalid : (s.clock i).wvalid = false := by rw [hs]; exact ite_self _
  have hrequest : s.enableRequest i = i.captureEnable := by
    rw [hs]
    exact (Bool.and_true _).trans (Bool.and_true _)
  have hfirst : s.firstWrite i = i.captureEnable := by
    rw [firstWrite, hrequest, hs]
    exact Bool.and_true _
  have hwrite : s.writeAddress i = i.captureEnable := by
    rw [writeAddress, hfirst, hs]
    exact Bool.or_false _
  have hrest : (s.clock i).Resting := by
    refine ⟨?_, ?_, ?_, Or.inr ⟨hvalid, (edges_of_reset hb hreset).1⟩⟩
    · rw [hs]; exact ite_self _
    · rw [hs]; exact ite_self _
    · rw [hs]; exact ite_self _
  have htoken : (s.clock i).Token 5 := by
    refine ⟨by rw [hs]; rfl, fun k => ?_⟩
    have hk := k.isLt
    have hnone : (s.clock i).firstDelay k = false := by
      rw [hs]
      change dlyline (fun _ => false) false k = false
      unfold dlyline
      split <;> rfl
    rw [hnone, decide_eq_false (by omega)]
  have hphase : (s.clock i).Phase (s.clock i).wvalid.toNat := by
    cases henable : i.captureEnable with
    | true =>
        rw [henable] at hfirst hwrite
        refine .requested hrest ?_ htoken (if_pos hfirst) (if_pos hfirst)
        rw [awvalid_clock, hwrite, hs]
        rfl
    | false =>
        rw [henable] at hfirst hwrite hrequest
        refine .idle ⟨hrest, ?_, htoken, ?_, hrequest⟩
        · rw [awvalid_clock, hwrite, hs]
          exact ite_self _
        · change (if s.firstWrite i then true else if s.burstActive then false
            else s.starting) = false
          rw [hfirst, hs]
          rfl
  rw [hvalid] at hphase
  exact hphase

namespace Observed

theorem kept_powerUp (hb : 2 ≤ burstBits) (beatCounter : BitVec burstBits) (i : Input dataBits) :
    ((powerUp beatCounter : Observed burstBits addrBits dataBits).clock i).Kept 0 0 True := by
  obtain ⟨hbeat, hedges⟩ := BurstMaster.edges_of_reset hb
    (s := (.powerUp beatCounter : BurstMaster burstBits addrBits dataBits)) (i := i) rfl
  have hphase := BurstMaster.phase_powerUp hb
    (rfl : (.powerUp beatCounter : BurstMaster burstBits addrBits dataBits) = _) i
  have hactive : (BurstMaster.clock i
      (.powerUp beatCounter : BurstMaster burstBits addrBits dataBits)).burstActive = false :=
    ite_self _
  refine ⟨⟨hedges, hphase, ?_, hbeat.trans (Nat.zero_mod _).symm, framed_nil, ?_⟩, ?_, ?_⟩
  · exact (Nat.zero_div _).symm
  · intro _ hstarting hvalid
    cases henable : i.captureEnable <;>
      simp [clock, powerUp, BurstMaster.clock, BurstMaster.powerUp, BurstMaster.writeAddress,
        BurstMaster.firstWrite, BurstMaster.enableRequest, henable] at hstarting hvalid
  · intro htrue
    exact absurd (hactive.symm.trans htrue) Bool.false_ne_true
  · intro _
    have hdata : (BurstMaster.clock i
        (.powerUp beatCounter : BurstMaster burstBits addrBits dataBits)).dataActive = false :=
      ite_self _
    have hvalid : ((powerUp beatCounter : Observed burstBits addrBits dataBits).clock
        i).master.wvalid = false := ite_self _
    have hwaits : ((powerUp beatCounter : Observed burstBits addrBits dataBits).clock
        i).waiting = [] := if_neg (by rw [hvalid]; exact Bool.false_ne_true)
    exact ⟨fun htrue => absurd (hdata.symm.trans htrue) Bool.false_ne_true, hwaits⟩

end Observed

end Mbf.Axi
