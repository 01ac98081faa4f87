import Mbf.Axi.BurstMaster

/-! # The phases of the master of the fast memory

`Phase` says what `axi_burst_master` can be doing, with the number of bursts whose address has been
taken and whose last beat has not.  Between bursts it waits for a capture, for the first address to
be taken, or for the clocks after that; during a burst the address of the next one is asked for in
the middle (`NextAddress`), and no more once the end is decided (`Decided`).

A clock on which bursts end on time goes from phase to phase (`Phase.clock`). -/

namespace Mbf.Axi

variable {burstBits addrBits dataBits : ℕ}

namespace BurstMaster

variable {s : BurstMaster burstBits addrBits dataBits} {i : Input dataBits}

/-! ### Phases -/

/-- The middle of the burst has been seen. -/
def pastHalf (s : BurstMaster burstBits addrBits dataBits) : Bool :=
  s.beatCounter.msb && s.lastHalf

/-- The master has decided whether it goes on with another burst. -/
def Decided (s : BurstMaster burstBits addrBits dataBits) : Prop :=
  s.beat + 1 = burstLength burstBits ∨
    (s.beat + 2 = burstLength burstBits ∧ s.lastEarly = true)

/-- No burst goes on; the last beat of the last one may be waiting for the slave. -/
structure Resting (s : BurstMaster burstBits addrBits dataBits) : Prop where
  inactive : s.burstActive = false
  noBurst : s.nextBurst = false
  noData : s.dataActive = false
  between : (s.wvalid = true ∧ s.beat + 1 = burstLength burstBits) ∨
    (s.wvalid = false ∧ s.beat = 0)

/-- A burst goes on, and nothing starts. -/
structure Active (s : BurstMaster burstBits addrBits dataBits) : Prop where
  active : s.burstActive = true
  delay : ∀ k, s.firstDelay k = false

/-- The first address has been taken `place` clocks ago. -/
structure Token (place : ℕ) (s : BurstMaster burstBits addrBits dataBits) : Prop where
  done : s.writeDone = decide (place = 0)
  delay : ∀ k, s.firstDelay k = decide (k.val + 1 = place)

/-- The address of the next burst, while a burst goes on, with the number of addresses that have
been taken for it. -/
inductive NextAddress (s : BurstMaster burstBits addrBits dataBits) : ℕ → Prop
  | none (hvalid : s.awvalid = false) (hdone : s.writeDone = false) (hnext : s.nextBurst = false)
      (hdata : s.dataActive = true → s.pastHalf = false) : NextAddress s 0
  | offered (hvalid : s.awvalid = true) (hdone : s.writeDone = false)
      (hnext : s.nextBurst = false) (hhalf : s.pastHalf = true) : NextAddress s 0
  | taken (hvalid : s.awvalid = false) (hdone : s.writeDone = true)
      (hnext : s.nextBurst = false) (hhalf : s.pastHalf = true) : NextAddress s 1
  | latched (hvalid : s.awvalid = false) (hdone : s.writeDone = false)
      (hnext : s.nextBurst = true) (hhalf : s.pastHalf = true) : NextAddress s 1

/-- The master waits for a capture. -/
structure Idle (s : BurstMaster burstBits addrBits dataBits) : Prop where
  rest : s.Resting
  noAddress : s.awvalid = false
  token : s.Token 5
  notStarting : s.starting = false
  noRequest : s.lastRequest = false

/-- What the master is doing, with the number of bursts whose address has been taken and whose last
beat has not. -/
inductive Phase (s : BurstMaster burstBits addrBits dataBits) : ℕ → Prop
  | idle (idle : s.Idle) : Phase s s.wvalid.toNat
  | requested (rest : s.Resting) (hvalid : s.awvalid = true) (token : s.Token 5)
      (hstarting : s.starting = true) (haddress : s.burstAddress = 0) : Phase s s.wvalid.toNat
  | delayed (place : ℕ) (hplace : place < 5) (rest : s.Resting) (hvalid : s.awvalid = false)
      (token : s.Token place) (hstarting : s.starting = true) (haddress : s.burstAddress = 0) :
      Phase s (s.wvalid.toNat + 1)
  | bursting (taken : ℕ) (active : s.Active) (hdecided : ¬s.Decided) (next : s.NextAddress taken) :
      Phase s (taken + 1)
  | ending (active : s.Active) (hdecided : s.Decided) (hvalid : s.awvalid = false)
      (hdone : s.writeDone = false) (hnext : s.nextBurst = false) : Phase s 2

/-! ### What a clock does between bursts -/

theorem Token.clock {place : ℕ} (h : s.Token place) (hactive : s.burstActive = false) (k : Fin 4) :
    (s.clock i).firstDelay k = decide (k.val = place) := by
  change dlyline s.firstDelay (s.writeDone && !s.burstActive) k = _
  rw [h.done, hactive, Bool.not_false, Bool.and_true]
  unfold dlyline
  split
  · next hzero =>
      rw [hzero]
      exact decide_eq_decide.mpr eq_comm
  · next hne =>
      rw [h.delay]
      refine decide_eq_decide.mpr ?_
      change k.val - 1 + 1 = place ↔ _
      omega

/-- The token goes on by a place, also when it is gone. -/
theorem Token.next {place : ℕ} (h : s.Token place) (hactive : s.burstActive = false)
    (haddress : s.takesAddress i = false) {next : ℕ}
    (hnext : next = place + 1 ∨ (4 ≤ place ∧ next = 5)) : (s.clock i).Token next where
  done := by
    change s.takesAddress i = _
    rw [haddress]
    exact (decide_eq_false (by omega)).symm
  delay k := by
    have hk := k.isLt
    rw [h.clock hactive]
    exact decide_eq_decide.mpr (by omega)

theorem Token.firstBurst {place : ℕ} (h : s.Token place) : s.firstBurst = decide (place = 4) := by
  unfold BurstMaster.firstBurst
  rw [h.delay]
  exact decide_eq_decide.mpr eq_comm

namespace Resting

variable (h : s.Resting) (hedges : s.Edges) (hb : 2 ≤ burstBits)
include h

theorem wvalid_clock : (s.clock i).wvalid = (s.wvalid && !i.wready) := by
  change (if s.burstActive && _ then true else if i.wready then false else s.wvalid) = _
  rw [h.inactive, Bool.false_and, if_neg Bool.false_ne_true]
  cases s.wvalid <;> cases i.wready <;> rfl

theorem writeAddress : s.writeAddress i = s.firstWrite i := by
  unfold BurstMaster.writeAddress
  rw [h.noData, Bool.false_and, Bool.or_false]

/-- The last beat of the last burst is taken. -/
theorem takesLast : (s.clock i).wvalid.toNat + (s.takesLast i).toNat = s.wvalid.toNat := by
  rw [h.wvalid_clock]
  unfold BurstMaster.takesLast takesBeat
  rcases h.between with ⟨hvalid, hlast⟩ | ⟨hvalid, _⟩
  · rw [hvalid, decide_eq_true hlast]
    cases i.wready <;> rfl
  · rw [hvalid]
    rfl

include hb

theorem wlastEarlyEdge : s.wlastEarlyEdge i = false := by
  have hfour := four_le hb
  have hbetween := h.between
  unfold BurstMaster.wlastEarlyEdge
  rw [wlastEarly_eq hb, decide_eq_false (by omega), Bool.false_and, Bool.false_and]

include hedges

theorem halfBurst : s.halfBurst = false := by
  have hfour := four_le hb
  unfold BurstMaster.halfBurst
  rcases h.between with ⟨_, hlast⟩ | ⟨_, hzero⟩
  · rw [hedges.half (by omega), Bool.not_true, Bool.and_false]
  · rw [msb_eq hb, decide_eq_false (by omega), Bool.false_and]

theorem between_clock : ((s.clock i).wvalid = true ∧ (s.clock i).beat + 1 = burstLength burstBits) ∨
    ((s.clock i).wvalid = false ∧ (s.clock i).beat = 0) := by
  rw [h.wvalid_clock, hedges.beat_clock hb]
  unfold takesBeat
  rcases h.between with ⟨hvalid, hlast⟩ | ⟨hvalid, hzero⟩
  · rw [hvalid]
    cases i.wready with
    | true => exact Or.inr ⟨rfl, if_pos hlast⟩
    | false => exact Or.inl ⟨rfl, hlast⟩
  · rw [hvalid]
    exact Or.inr ⟨rfl, hzero⟩

/-- The last burst is past its middle until it has been taken. -/
theorem pastHalf : s.pastHalf = s.wvalid := by
  have hfour := four_le hb
  unfold BurstMaster.pastHalf
  rcases h.between with ⟨hvalid, hlast⟩ | ⟨hvalid, hzero⟩
  · rw [hvalid, msb_eq hb, decide_eq_true (by omega), hedges.half (by omega), Bool.and_self]
  · rw [hvalid, msb_eq hb, decide_eq_false (by omega), Bool.false_and]

/-- Nothing starts before the token comes out. -/
theorem clock (hfirst : s.firstBurst = false) : (s.clock i).Resting where
  inactive := by
    change (if s.firstBurst then true else if s.wlastEarlyEdge i then s.nextBurst
      else s.burstActive) = false
    rw [hfirst, h.wlastEarlyEdge hb, h.inactive]
    rfl
  noBurst := by
    change (if s.writeDone && s.burstActive then true else if s.wlastEarlyEdge i then false
      else s.nextBurst) = false
    rw [h.inactive, Bool.and_false, h.wlastEarlyEdge hb, h.noBurst]
    rfl
  noData := by
    change (if s.firstBurst then true else if !i.captureEnable || !s.burstActive then false
      else s.dataActive) = false
    rw [hfirst, h.inactive, Bool.not_false, Bool.or_true]
    rfl
  between := h.between_clock hedges hb

end Resting

/-- The bursts that are left after a clock. -/
def Left (s : BurstMaster burstBits addrBits dataBits) (i : Input dataBits) (ahead : ℕ) : Prop :=
  ∃ left, (s.clock i).Phase left ∧
    left + (s.takesLast i).toNat = ahead + (s.takesAddress i).toNat

theorem takesAddress_eq_false (hvalid : s.awvalid = false) : s.takesAddress i = false := by
  rw [takesAddress, hvalid, Bool.false_and]

theorem firstWrite_of_starting (hstarting : s.starting = true) : s.firstWrite i = false := by
  rw [firstWrite, enableRequest, hstarting, Bool.not_true, Bool.and_false, Bool.false_and]

theorem firstWrite_of_active (hactive : s.burstActive = true) : s.firstWrite i = false := by
  rw [firstWrite, enableRequest, hactive, Bool.not_true, Bool.and_false, Bool.false_and,
    Bool.false_and]

theorem awvalid_clock : (s.clock i).awvalid =
    if s.writeAddress i && !s.awvalid then true else if i.awready then false else s.awvalid := rfl

namespace Idle

variable (h : s.Idle)
include h

theorem firstWrite : s.firstWrite i = i.captureEnable := by
  rw [BurstMaster.firstWrite, enableRequest, h.rest.inactive, h.notStarting, h.noRequest]
  cases i.captureEnable <;> rfl

theorem awvalid_clock : (s.clock i).awvalid = i.captureEnable := by
  rw [BurstMaster.awvalid_clock, h.rest.writeAddress, h.firstWrite, h.noAddress]
  cases i.captureEnable <;> cases i.awready <;> rfl

theorem token_clock : (s.clock i).Token 5 :=
  h.token.next h.rest.inactive (takesAddress_eq_false h.noAddress) (Or.inr ⟨by omega, rfl⟩)

/-- Without a capture the master stays idle. -/
theorem clock (hedges : s.Edges) (hb : 2 ≤ burstBits) (henable : i.captureEnable = false) :
    (s.clock i).Idle where
  rest := h.rest.clock hedges hb h.token.firstBurst
  noAddress := h.awvalid_clock.trans henable
  token := h.token_clock
  notStarting := by
    change (if s.firstWrite i then true else if s.burstActive then false else s.starting) = false
    rw [h.firstWrite, henable, h.rest.inactive, h.notStarting]
    rfl
  noRequest := by
    change s.enableRequest i = false
    rw [enableRequest, henable, Bool.false_and, Bool.false_and]

theorem left (hedges : s.Edges) (hb : 2 ≤ burstBits) : s.Left i s.wvalid.toNat := by
  refine ⟨(s.clock i).wvalid.toNat, ?_,
    by rw [h.rest.takesLast, takesAddress_eq_false h.noAddress]; rfl⟩
  cases henable : i.captureEnable with
  | true =>
      have hwrite : s.firstWrite i = true := h.firstWrite.trans henable
      exact .requested (h.rest.clock hedges hb h.token.firstBurst) (h.awvalid_clock.trans henable)
        h.token_clock (if_pos hwrite) (if_pos hwrite)
  | false => exact .idle (h.clock hedges hb henable)

end Idle

/-- A capture that starts goes on to start, at the first address. -/
theorem Resting.starting_clock (rest : s.Resting) (hedges : s.Edges) (hb : 2 ≤ burstBits)
    (hstarting : s.starting = true) (haddress : s.burstAddress = 0) :
    (s.clock i).starting = true ∧ (s.clock i).burstAddress = 0 := by
  have hwrite : s.firstWrite i = false := firstWrite_of_starting hstarting
  constructor
  · change (if s.firstWrite i then true else if s.burstActive then false else s.starting) = true
    rw [hwrite, rest.inactive]
    exact hstarting
  · change (if s.firstWrite i then 0 else if s.halfBurst then s.burstAddress + 1
      else s.burstAddress) = 0
    rw [hwrite, rest.halfBurst hedges hb]
    exact haddress

theorem Resting.requested (rest : s.Resting) (hedges : s.Edges) (hb : 2 ≤ burstBits)
    (hvalid : s.awvalid = true) (token : s.Token 5) (hstarting : s.starting = true)
    (haddress : s.burstAddress = 0) : s.Left i s.wvalid.toNat := by
  have hrest := rest.clock hedges hb token.firstBurst (i := i)
  obtain ⟨hstart, haddr⟩ := rest.starting_clock hedges hb hstarting haddress (i := i)
  have hawvalid : (s.clock i).awvalid = !i.awready := by
    rw [awvalid_clock, rest.writeAddress, firstWrite_of_starting hstarting, hvalid]
    cases i.awready <;> rfl
  cases hready : i.awready with
  | true =>
      have htaken : s.takesAddress i = true := by rw [takesAddress, hvalid, hready, Bool.and_self]
      refine ⟨(s.clock i).wvalid.toNat + 1,
        .delayed 0 (by omega) hrest ?_ ⟨?_, ?_⟩ hstart haddr, ?_⟩
      · rw [hawvalid, hready]
        rfl
      · exact htaken
      · intro k
        have hk := k.isLt
        rw [token.clock rest.inactive]
        exact decide_eq_decide.mpr (by omega)
      · have hlast := rest.takesLast (i := i)
        rw [htaken]
        exact (Nat.add_right_comm _ 1 _).trans (congrArg (· + 1) hlast)
  | false =>
      have htaken : s.takesAddress i = false := by
        rw [takesAddress, hready, Bool.and_false]
      refine ⟨(s.clock i).wvalid.toNat, .requested hrest ?_
        (token.next rest.inactive htaken (Or.inr ⟨by omega, rfl⟩)) hstart haddr, ?_⟩
      · rw [hawvalid, hready]
        rfl
      · rw [rest.takesLast, htaken]
        rfl

theorem pastHalf_of_zero (hb : 2 ≤ burstBits) (hzero : s.beat = 0) : s.pastHalf = false := by
  have hfour := four_le hb
  rw [pastHalf, msb_eq hb, decide_eq_false (by omega), Bool.false_and]

theorem not_decided_of_zero (hb : 2 ≤ burstBits) (hzero : s.beat = 0) : ¬s.Decided := by
  have hfour := four_le hb
  unfold Decided
  omega

theorem Resting.delayed {place : ℕ} (hplace : place < 5) (rest : s.Resting) (hedges : s.Edges)
    (hb : 2 ≤ burstBits) (hvalid : s.awvalid = false) (token : s.Token place)
    (hstarting : s.starting = true) (haddress : s.burstAddress = 0) :
    s.Left i (s.wvalid.toNat + 1) := by
  obtain ⟨hstart, haddr⟩ := rest.starting_clock hedges hb hstarting haddress (i := i)
  have htaken : s.takesAddress i = false := takesAddress_eq_false hvalid
  have hlast := rest.takesLast (i := i)
  have hawvalid : (s.clock i).awvalid = false := by
    rw [awvalid_clock, rest.writeAddress, firstWrite_of_starting hstarting, hvalid]
    cases i.awready <;> rfl
  unfold Left
  rw [htaken, ← hlast]
  by_cases hend : place = 4
  · have hactive : (s.clock i).burstActive = true := by
      refine if_pos ?_
      rw [token.firstBurst, decide_eq_true hend]
    have hdelay : ∀ k, (s.clock i).firstDelay k = false := by
      intro k
      have hk := k.isLt
      rw [token.clock rest.inactive, decide_eq_false (by omega)]
    have hnext : (s.clock i).nextBurst = false := by
      change (if s.writeDone && s.burstActive then true else if s.wlastEarlyEdge i then false
        else s.nextBurst) = false
      rw [rest.inactive, Bool.and_false, rest.wlastEarlyEdge hb, rest.noBurst]
      rfl
    -- the last beat of the burst before is still waiting, or the first burst is the only one
    rcases rest.between_clock hedges hb (i := i) with ⟨hwvalid, hbeat⟩ | ⟨hwvalid, hbeat⟩
    · refine ⟨2, .ending ⟨hactive, hdelay⟩ (Or.inl hbeat) hawvalid htaken hnext, ?_⟩
      rw [hwvalid]
      change 2 + (s.takesLast i).toNat = 1 + (s.takesLast i).toNat + 1 + 0
      omega
    · refine ⟨1, .bursting 0 ⟨hactive, hdelay⟩ (not_decided_of_zero hb hbeat)
        (.none hawvalid htaken hnext fun _ => pastHalf_of_zero hb hbeat), ?_⟩
      rw [hwvalid]
      change 1 + (s.takesLast i).toNat = 0 + (s.takesLast i).toNat + 1 + 0
      omega
  · refine ⟨(s.clock i).wvalid.toNat + 1, .delayed (place + 1) (by omega)
      (rest.clock hedges hb ?_) hawvalid (token.next rest.inactive htaken (Or.inl rfl)) hstart
      haddr, Nat.add_right_comm _ 1 _⟩
    rw [token.firstBurst, decide_eq_false hend]

/-! ### What a clock does during a burst -/

namespace Active

variable (h : s.Active)
include h

theorem firstDelay_clock (k : Fin 4) : (s.clock i).firstDelay k = false := by
  change dlyline s.firstDelay (s.writeDone && !s.burstActive) k = false
  rw [h.active, Bool.not_true, Bool.and_false]
  unfold dlyline
  split
  · rfl
  · exact h.delay _

theorem writeAddress : s.writeAddress i = (s.dataActive && s.halfBurst) := by
  unfold BurstMaster.writeAddress
  rw [firstWrite_of_active h.active, Bool.false_or]

theorem burstActive_clock :
    (s.clock i).burstActive = if s.wlastEarlyEdge i then s.nextBurst else true := by
  change (if s.firstBurst then true else if s.wlastEarlyEdge i then s.nextBurst
    else s.burstActive) = _
  rw [show s.firstBurst = false from h.delay 3, h.active]
  rfl

theorem nextBurst_clock : (s.clock i).nextBurst =
    if s.writeDone then true else if s.wlastEarlyEdge i then false else s.nextBurst := by
  change (if s.writeDone && s.burstActive then true else if s.wlastEarlyEdge i then false
    else s.nextBurst) = _
  rw [h.active, Bool.and_true]

theorem dataActive_clock : (s.clock i).dataActive = (i.captureEnable && s.dataActive) := by
  change (if s.firstBurst then true else if !i.captureEnable || !s.burstActive then false
    else s.dataActive) = _
  rw [show s.firstBurst = false from h.delay 3, h.active]
  cases i.captureEnable <;> rfl

theorem starting_clock : (s.clock i).starting = false := by
  change (if s.firstWrite i then true else if s.burstActive then false else s.starting) = false
  rw [firstWrite_of_active h.active, h.active]
  rfl

theorem lastRequest_clock : (s.clock i).lastRequest = false := by
  change s.enableRequest i = false
  rw [enableRequest, h.active, Bool.not_true, Bool.and_false, Bool.false_and]

end Active

theorem halfBurst_of_pastHalf (hhalf : s.pastHalf = true) : s.halfBurst = false := by
  rw [halfBurst, (Bool.and_eq_true_iff.mp hhalf).2, Bool.not_true, Bool.and_false]

theorem takesLast_eq_false (hdecided : ¬s.Decided) : s.takesLast i = false := by
  rw [takesLast, decide_eq_false fun hlast => hdecided (Or.inl hlast), Bool.and_false]

/-- The middle is behind the burst from the clock on that sees it. -/
theorem Edges.pastHalf_clock (hedges : s.Edges) (hb : 2 ≤ burstBits)
    (hlast : s.takesLast i = false) : (s.clock i).pastHalf = s.beatCounter.msb := by
  have hbeat := hedges.beat_clock_of_not_last hb hlast
  change ((s.clock i).beatCounter.msb && s.beatCounter.msb) = s.beatCounter.msb
  rw [msb_eq hb, msb_eq hb, hbeat]
  by_cases hhalf : burstLength burstBits ≤ 2 * s.beat
  · rw [decide_eq_true hhalf, decide_eq_true (by omega), Bool.and_self]
  · rw [decide_eq_false hhalf, Bool.and_false]

/-- On the clock that decides the beat before the last is there and can be taken. -/
theorem of_wlastEarlyEdge (hb : 2 ≤ burstBits) (hedge : s.wlastEarlyEdge i = true) :
    s.beat + 2 = burstLength burstBits ∧ i.wready = true ∧ s.lastEarly = false := by
  unfold wlastEarlyEdge at hedge
  rw [wlastEarly_eq hb] at hedge
  simpa [and_assoc] using hedge

theorem decided_clock_of_early (hedges : s.Edges) (hb : 2 ≤ burstBits)
    (hearly : s.beat + 2 = burstLength burstBits) (hready : i.wready = true) :
    (s.clock i).Decided := by
  have hfour := four_le hb
  have hbeat := hedges.beat_clock hb (i := i)
  rw [if_neg (show ¬s.beat + 1 = burstLength burstBits by omega)] at hbeat
  cases htakes : s.takesBeat i with
  | true =>
      rw [htakes, if_pos rfl] at hbeat
      exact Or.inl (by omega)
  | false =>
      rw [htakes, if_neg Bool.false_ne_true] at hbeat
      refine Or.inr ⟨by omega, ?_⟩
      change s.wlastEarly i = true
      rw [wlastEarly_eq hb, decide_eq_true hearly, hready, Bool.and_self]

theorem not_decided_clock (hedges : s.Edges) (hb : 2 ≤ burstBits) (hdecided : ¬s.Decided)
    (hedge : s.wlastEarlyEdge i = false) : ¬(s.clock i).Decided := by
  have hbeat := hedges.beat_clock_of_not_last hb (takesLast_eq_false hdecided) (i := i)
  -- the beat before the last neither is there nor has been decided on
  have hearly : s.wlastEarly i = false := by
    unfold wlastEarlyEdge at hedge
    by_contra htrue
    rw [Bool.not_eq_false] at htrue
    rw [htrue, Bool.true_and, Bool.not_eq_false'] at hedge
    rw [wlastEarly_eq hb, Bool.and_eq_true, decide_eq_true_iff] at htrue
    exact hdecided (Or.inr ⟨htrue.1, hedge⟩)
  rintro (hlast | ⟨_, hlate⟩)
  · cases htakes : s.takesBeat i with
    | true =>
        rw [htakes] at hbeat
        rw [hbeat] at hlast
        have hbefore : s.beat + 2 = burstLength burstBits := hlast
        rw [wlastEarly_eq hb, decide_eq_true hbefore, (Bool.and_eq_true_iff.mp htakes).2] at hearly
        cases hearly
    | false =>
        rw [htakes] at hbeat
        rw [hbeat] at hlast
        exact hdecided (Or.inl hlast)
  · exact Bool.false_ne_true (hearly.symm.trans hlate)

/-- The address of the next burst goes on as long as the burst does. -/
theorem NextAddress.clock {taken : ℕ} (next : s.NextAddress taken) (active : s.Active)
    (hhalf : (s.clock i).pastHalf = s.beatCounter.msb) (hedge : s.wlastEarlyEdge i = false) :
    (s.clock i).NextAddress (taken + (s.takesAddress i).toNat) := by
  have hnext := active.nextBurst_clock (i := i)
  have hvalid := awvalid_clock (s := s) (i := i)
  have hpast : s.pastHalf = true → (s.clock i).pastHalf = true := fun hpast =>
    hhalf.trans (Bool.and_eq_true_iff.mp hpast).1
  rw [hedge, if_neg Bool.false_ne_true] at hnext
  rw [active.writeAddress] at hvalid
  cases next with
  | none hawvalid hdone hnone hdata =>
      rw [hdone, if_neg Bool.false_ne_true, hnone] at hnext
      rw [hawvalid, Bool.not_false, Bool.and_true] at hvalid
      have htaken : s.takesAddress i = false := takesAddress_eq_false hawvalid
      rw [htaken]
      cases hwrite : (s.dataActive && s.halfBurst) with
      | true =>
          rw [hwrite, if_pos rfl] at hvalid
          refine .offered hvalid htaken hnext (hhalf.trans ?_)
          exact (Bool.and_eq_true_iff.mp (Bool.and_eq_true_iff.mp hwrite).2).1
      | false =>
          rw [hwrite, if_neg Bool.false_ne_true, ite_self] at hvalid
          refine .none hvalid htaken hnext fun hactive => ?_
          rw [active.dataActive_clock, Bool.and_eq_true] at hactive
          have hnot := hdata hactive.2
          rw [hactive.2, Bool.true_and] at hwrite
          rw [hhalf]
          unfold pastHalf at hnot
          unfold halfBurst at hwrite
          cases hmsb : s.beatCounter.msb with
          | true =>
              rw [hmsb, Bool.true_and] at hnot hwrite
              rw [hnot] at hwrite
              cases hwrite
          | false => rfl
  | offered hawvalid hdone hnone hpassed =>
      rw [hdone, if_neg Bool.false_ne_true, hnone] at hnext
      rw [hawvalid, Bool.not_true, Bool.and_false, if_neg Bool.false_ne_true] at hvalid
      cases hready : i.awready with
      | true =>
          have htaken : s.takesAddress i = true := by
            rw [takesAddress, hawvalid, hready, Bool.and_self]
          rw [hready, if_pos rfl] at hvalid
          rw [htaken]
          exact .taken hvalid htaken hnext (hpast hpassed)
      | false =>
          have htaken : s.takesAddress i = false := by
            rw [takesAddress, hready, Bool.and_false]
          rw [hready, if_neg Bool.false_ne_true] at hvalid
          rw [htaken]
          exact .offered hvalid htaken hnext (hpast hpassed)
  | taken hawvalid hdone hnone hpassed =>
      have htaken : s.takesAddress i = false := takesAddress_eq_false hawvalid
      rw [hdone, if_pos rfl] at hnext
      rw [halfBurst_of_pastHalf hpassed, Bool.and_false, Bool.false_and,
        if_neg Bool.false_ne_true, hawvalid, ite_self] at hvalid
      rw [htaken]
      exact .latched hvalid htaken hnext (hpast hpassed)
  | latched hawvalid hdone hlatched hpassed =>
      have htaken : s.takesAddress i = false := takesAddress_eq_false hawvalid
      rw [hdone, if_neg Bool.false_ne_true, hlatched] at hnext
      rw [halfBurst_of_pastHalf hpassed, Bool.and_false, Bool.false_and,
        if_neg Bool.false_ne_true, hawvalid, ite_self] at hvalid
      rw [htaken]
      exact .latched hvalid htaken hnext (hpast hpassed)

/-- The master goes on with the burst that it has the address for. -/
theorem Active.another (active : s.Active) (hedges : s.Edges) (hb : 2 ≤ burstBits)
    (hdecided : ¬s.Decided) {taken : ℕ} (next : s.NextAddress taken)
    (hedge : s.wlastEarlyEdge i = true) (hnext : s.nextBurst = true) : s.Left i (taken + 1) := by
  obtain ⟨hearly, hready, _⟩ := of_wlastEarlyEdge hb hedge
  cases next with
  | none _ _ hnone _ => exact absurd (hnone.symm.trans hnext) Bool.false_ne_true
  | offered _ _ hnone _ => exact absurd (hnone.symm.trans hnext) Bool.false_ne_true
  | taken _ _ hnone _ => exact absurd (hnone.symm.trans hnext) Bool.false_ne_true
  | latched hawvalid hdone _ hpassed =>
      have htaken : s.takesAddress i = false := takesAddress_eq_false hawvalid
      refine ⟨2, .ending ⟨?_, active.firstDelay_clock⟩
        (decided_clock_of_early hedges hb hearly hready) ?_ htaken ?_, ?_⟩
      · rw [active.burstActive_clock, hedge, if_pos rfl, hnext]
      · rw [awvalid_clock, active.writeAddress, halfBurst_of_pastHalf hpassed, Bool.and_false,
          Bool.false_and, if_neg Bool.false_ne_true, hawvalid, ite_self]
      · rw [active.nextBurst_clock, hdone, if_neg Bool.false_ne_true, hedge, if_pos rfl]
      · rw [takesLast_eq_false hdecided, htaken]

/-- A capture that has stopped asks for no more addresses, so its last burst can end. -/
theorem dataActive_of_last (hb : 2 ≤ burstBits) (hearly : s.beat + 2 = burstLength burstBits)
    (hdata : s.dataActive = true → s.pastHalf = false) (hwrite : s.writeAddress i = false) :
    s.dataActive = false := by
  by_contra hactive
  rw [Bool.not_eq_false] at hactive
  have hfour := four_le hb
  have hmsb : s.beatCounter.msb = true := by rw [msb_eq hb, decide_eq_true (by omega)]
  have hlate := hdata hactive
  rw [pastHalf, hmsb, Bool.true_and] at hlate
  rw [writeAddress, hactive, halfBurst, hmsb, hlate, Bool.not_false, Bool.and_self, Bool.and_self,
    Bool.or_true] at hwrite
  cases hwrite

theorem Active.finish (active : s.Active) (hedges : s.Edges) (hb : 2 ≤ burstBits)
    (hdecided : ¬s.Decided) {taken : ℕ} (next : s.NextAddress taken)
    (hedge : s.wlastEarlyEdge i = true) (hnext : s.nextBurst = false)
    (hwvalid : s.wvalid = true) (hawvalid : s.awvalid = false) (hdone : s.writeDone = false)
    (hwrite : s.writeAddress i = false) : s.Left i (taken + 1) := by
  obtain ⟨hearly, hready, _⟩ := of_wlastEarlyEdge hb hedge
  have htaken : s.takesAddress i = false := takesAddress_eq_false hawvalid
  cases next with
  | none _ _ _ hdata =>
      have hinactive := dataActive_of_last hb hearly hdata hwrite
      have hvalid : (s.clock i).wvalid = true := by
        refine if_pos ?_
        rw [active.active, hinactive, Bool.not_false, Bool.or_true, Bool.and_true]
      have hlast : (s.clock i).beat + 1 = burstLength burstBits := by
        rw [hedges.beat_clock_of_not_last hb (takesLast_eq_false hdecided),
          takesBeat_eq_true hwvalid hready]
        exact hearly
      have hrest : (s.clock i).Resting := by
        refine ⟨?_, ?_, ?_, Or.inl ⟨hvalid, hlast⟩⟩
        · rw [active.burstActive_clock, hedge, if_pos rfl, hnext]
        · rw [active.nextBurst_clock, hdone, if_neg Bool.false_ne_true, hedge, if_pos rfl]
        · rw [active.dataActive_clock, hinactive, Bool.and_false]
      refine ⟨(s.clock i).wvalid.toNat, .idle ⟨hrest, ?_, ⟨htaken, ?_⟩, active.starting_clock,
        active.lastRequest_clock⟩, ?_⟩
      · rw [awvalid_clock, hwrite, Bool.false_and, if_neg Bool.false_ne_true, hawvalid, ite_self]
      · intro k
        have hk := k.isLt
        rw [active.firstDelay_clock, decide_eq_false (by omega)]
      · rw [hvalid, takesLast_eq_false hdecided, htaken]
        rfl
  | offered hvalid _ _ _ => exact absurd (hawvalid.symm.trans hvalid) Bool.false_ne_true
  | taken _ htrue _ _ => exact absurd (hdone.symm.trans htrue) Bool.false_ne_true
  | latched _ _ htrue _ => exact absurd (hnext.symm.trans htrue) Bool.false_ne_true

theorem Active.bursting (active : s.Active) (hedges : s.Edges) (hb : 2 ≤ burstBits)
    (hdecided : ¬s.Decided) {taken : ℕ} (next : s.NextAddress taken) (hends : s.EndsOnTime i) :
    s.Left i (taken + 1) := by
  cases hedge : s.wlastEarlyEdge i with
  | true =>
      cases hnext : s.nextBurst with
      | true => exact active.another hedges hb hdecided next hedge hnext
      | false =>
          rcases hends.last hedge active.active with htrue | ⟨hwvalid, _, hawvalid, hdone, hwrite⟩
          · exact absurd (hnext.symm.trans htrue) Bool.false_ne_true
          · exact active.finish hedges hb hdecided next hedge hnext hwvalid hawvalid hdone hwrite
  | false =>
      refine ⟨taken + (s.takesAddress i).toNat + 1, .bursting _ ⟨?_, active.firstDelay_clock⟩
        (not_decided_clock hedges hb hdecided hedge)
        (next.clock active (hedges.pastHalf_clock hb (takesLast_eq_false hdecided)) hedge), ?_⟩
      · rw [active.burstActive_clock, hedge, if_neg Bool.false_ne_true]
      · rw [takesLast_eq_false hdecided]
        exact Nat.add_right_comm _ _ 1

/-- The last beat of a burst, while the next burst goes on. -/
theorem Active.ending (active : s.Active) (hedges : s.Edges) (hb : 2 ≤ burstBits)
    (hdecided : s.Decided) (hvalid : s.awvalid = false) (hdone : s.writeDone = false)
    (hnext : s.nextBurst = false) (hends : s.EndsOnTime i) : s.Left i 2 := by
  have hfour := four_le hb
  have htaken : s.takesAddress i = false := takesAddress_eq_false hvalid
  have hlate : s.lastHalf = true := by
    rcases hdecided with hlast | ⟨_, hearly⟩
    · exact hedges.half (by omega)
    · exact hedges.early hearly
  have hedge : s.wlastEarlyEdge i = false := by
    rw [wlastEarlyEdge, wlastEarly_eq hb]
    rcases hdecided with hlast | ⟨_, hearly⟩
    · rw [decide_eq_false (by omega), Bool.false_and, Bool.false_and]
    · rw [hearly, Bool.not_true, Bool.and_false]
  have hactive : (s.clock i).Active := by
    refine ⟨?_, active.firstDelay_clock⟩
    rw [active.burstActive_clock, hedge, if_neg Bool.false_ne_true]
  have hawvalid : (s.clock i).awvalid = false := by
    rw [awvalid_clock, active.writeAddress, halfBurst, hlate, Bool.not_true, Bool.and_false,
      Bool.and_false, Bool.false_and, if_neg Bool.false_ne_true, hvalid, ite_self]
  have hnone : (s.clock i).nextBurst = false := by
    rw [active.nextBurst_clock, hdone, if_neg Bool.false_ne_true, hedge,
      if_neg Bool.false_ne_true, hnext]
  unfold Left
  rw [htaken]
  cases hlast : s.takesLast i with
  | true =>
      -- the next burst has no beat yet
      obtain ⟨htakes, hend⟩ := Bool.and_eq_true_iff.mp hlast
      have hbeat : (s.clock i).beat = 0 := by
        rw [hedges.beat_clock hb, if_pos htakes, if_pos (of_decide_eq_true hend)]
      exact ⟨1, .bursting 0 hactive (not_decided_of_zero hb hbeat)
        (.none hawvalid htaken hnone fun _ => pastHalf_of_zero hb hbeat), rfl⟩
  | false =>
      refine ⟨2, .ending hactive ?_ hawvalid htaken hnone, rfl⟩
      rcases hdecided with hend | ⟨hearly, hlastEarly⟩
      · rw [takesLast, decide_eq_true hend, Bool.and_true] at hlast
        refine Or.inl ?_
        rw [hedges.beat_clock hb, hlast, if_neg Bool.false_ne_true]
        exact hend
      · refine decided_clock_of_early hedges hb hearly (hends.ready active.active ?_ hlastEarly)
        change s.beat = _
        omega

/-- A clock goes from phase to phase. -/
theorem Phase.clock {ahead : ℕ} (phase : s.Phase ahead) (hedges : s.Edges) (hb : 2 ≤ burstBits)
    (hends : s.EndsOnTime i) : s.Left i ahead := by
  cases phase with
  | idle idle => exact idle.left hedges hb
  | requested rest hvalid token hstarting haddress =>
      exact rest.requested hedges hb hvalid token hstarting haddress
  | delayed place hplace rest hvalid token hstarting haddress =>
      exact rest.delayed hplace hedges hb hvalid token hstarting haddress
  | bursting taken active hdecided next => exact active.bursting hedges hb hdecided next hends
  | ending active hdecided hvalid hdone hnext =>
      exact active.ending hedges hb hdecided hvalid hdone hnext hends

/-- During a burst an address is offered once the middle is behind the burst. -/
theorem Phase.of_awvalid {ahead : ℕ} (phase : s.Phase ahead) (hactive : s.burstActive = true)
    (hvalid : s.awvalid = true) : s.pastHalf = true ∧ ahead = 1 := by
  cases phase with
  | idle idle => exact absurd (idle.rest.inactive.symm.trans hactive) Bool.false_ne_true
  | requested rest => exact absurd (rest.inactive.symm.trans hactive) Bool.false_ne_true
  | delayed place hplace rest => exact absurd (rest.inactive.symm.trans hactive) Bool.false_ne_true
  | bursting taken active hdecided next =>
      cases next with
      | none hnot => exact absurd (hnot.symm.trans hvalid) Bool.false_ne_true
      | offered _ _ _ hhalf => exact ⟨hhalf, rfl⟩
      | taken hnot => exact absurd (hnot.symm.trans hvalid) Bool.false_ne_true
      | latched hnot => exact absurd (hnot.symm.trans hvalid) Bool.false_ne_true
  | ending active hdecided hnot => exact absurd (hnot.symm.trans hvalid) Bool.false_ne_true

/-- While an address is offered it does not change. -/
theorem Phase.quiet_of_awvalid {ahead : ℕ} (phase : s.Phase ahead) (hedges : s.Edges)
    (hb : 2 ≤ burstBits) (hvalid : s.awvalid = true) :
    s.firstWrite i = false ∧ s.halfBurst = false := by
  cases phase with
  | idle idle => exact absurd (idle.noAddress.symm.trans hvalid) Bool.false_ne_true
  | requested rest _ token hstarting =>
      exact ⟨firstWrite_of_starting hstarting, rest.halfBurst hedges hb⟩
  | delayed place hplace rest hnot => exact absurd (hnot.symm.trans hvalid) Bool.false_ne_true
  | bursting taken active hdecided next =>
      have hpast := (Phase.of_awvalid (.bursting taken active hdecided next) active.active hvalid).1
      exact ⟨firstWrite_of_active active.active, halfBurst_of_pastHalf hpast⟩
  | ending active hdecided hnot => exact absurd (hnot.symm.trans hvalid) Bool.false_ne_true

/-- A capture starts with its first burst when the token comes out. -/
theorem Phase.of_firstBurst {ahead : ℕ} (phase : s.Phase ahead) (hfirst : s.firstBurst = true) :
    s.Resting ∧ s.starting = true ∧ s.awvalid = false ∧ s.burstAddress = 0 ∧
      ahead = s.wvalid.toNat + 1 := by
  cases phase with
  | idle idle => exact absurd (idle.token.firstBurst.symm.trans hfirst) Bool.false_ne_true
  | requested rest hvalid token =>
      exact absurd (token.firstBurst.symm.trans hfirst) Bool.false_ne_true
  | delayed place hplace rest hvalid token hstarting haddress =>
      exact ⟨rest, hstarting, hvalid, haddress, rfl⟩
  | bursting taken active => exact absurd ((active.delay 3).symm.trans hfirst) Bool.false_ne_true
  | ending active => exact absurd ((active.delay 3).symm.trans hfirst) Bool.false_ne_true

/-- Either a burst goes on or none does. -/
theorem Phase.resting_or_active {ahead : ℕ} (phase : s.Phase ahead) : s.Resting ∨ s.Active := by
  cases phase with
  | idle idle => exact Or.inl idle.rest
  | requested rest => exact Or.inl rest
  | delayed place hplace rest => exact Or.inl rest
  | bursting taken active => exact Or.inr active
  | ending active => exact Or.inr active

theorem Phase.resting {ahead : ℕ} (phase : s.Phase ahead) (hactive : s.burstActive = false) :
    s.Resting :=
  phase.resting_or_active.resolve_right fun active =>
    Bool.false_ne_true (hactive.symm.trans active.active)

theorem Phase.active {ahead : ℕ} (phase : s.Phase ahead) (hactive : s.burstActive = true) :
    s.Active :=
  phase.resting_or_active.resolve_left fun rest =>
    Bool.false_ne_true (rest.inactive.symm.trans hactive)

end BurstMaster

end Mbf.Axi
