import Mbf.Registers.StrobeCc

/-! # No strobe is left without its acknowledge

While the register side waits it is either in reset, and goes on by itself, or the other clock is
there, and the handshake goes on.  Each part of that settles: the register clock and the other clock
recur, and nothing undoes what they have done (`settles`).  So whatever the other clock does, the
acknowledge comes (`strobe_acknowledged`). -/

namespace Mbf.Registers

open Filter Handshake

namespace RegisterStrobeCc

section ticks
variable {t : ℕ → Tick}

/-! ### One tick -/

theorem dspRstN_succ (n : ℕ) : (run t (n + 1)).reg.dspRstN =
    if (t n).reg.isSome then (run t n).reg.dspRstN.clock (t n).clkOk else (run t n).reg.dspRstN := by
  obtain ⟨response, hreg⟩ := reg_succ (t := t) n
  rw [hreg, regNext]
  cases (t n).reg <;> rfl

/-- The register side stays in reset until it is idle. -/
theorem dspResetN_succ {n : ℕ} (h : (run t n).reg.state ≠ .idle) : (run t (n + 1)).reg.dspResetN =
    if (t n).reg.isSome then (run t n).reg.dspRstN.bitO && (run t n).reg.dspResetN
    else (run t n).reg.dspResetN := by
  obtain ⟨response, hreg⟩ := reg_succ (t := t) n
  rw [hreg, regNext]
  cases (t n).reg with
  | none => rfl
  | some strobe =>
      show (if !(run t n).reg.dspRstN.bitO then false else
        if (run t n).reg.state = .idle then true else (run t n).reg.dspResetN) = _
      rw [if_neg h, Option.isSome_some, if_pos rfl]
      cases (run t n).reg.dspRstN.bitO <;> rfl

theorem busy_succ {n : ℕ} (h : (run t n).reg.state = .busy) : (run t (n + 1)).reg.state =
    if (t n).reg.isSome && ((run t n).reg.response.bitO || !(run t n).reg.dspResetN) then .done
    else .busy := by
  obtain ⟨response, hreg⟩ := reg_succ (t := t) n
  rw [hreg, regNext]
  cases (t n).reg with
  | none => exact h
  | some strobe =>
      rw [Option.isSome_some, Bool.true_and]
      simp only [RegSide.clock, h]

theorem done_succ {n : ℕ} (h : (run t n).reg.state = .done) : (run t (n + 1)).reg.state =
    if (t n).reg.isSome && (!(run t n).reg.response.bitO || !(run t n).reg.dspResetN) then .idle
    else .done := by
  obtain ⟨response, hreg⟩ := reg_succ (t := t) n
  rw [hreg, regNext]
  cases (t n).reg with
  | none => exact h
  | some strobe =>
      rw [Option.isSome_some, Bool.true_and]
      simp only [RegSide.clock, h]

/-- What the register side sees of the response. -/
theorem response_succ (n : ℕ) : (run t (n + 1)).reg.response =
    if (t n).reg.isSome then
      (run t n).reg.response.clock
        (if (t n).regSees then (run t (n + 1)).out.response else (run t n).out.response)
    else (run t n).reg.response := by
  have hresponse : ∀ x y r, (((run t n).outNext (t n) x).resetBy r).response =
      (((run t n).outNext (t n) y).resetBy r).response := by
    intro x y r
    unfold outNext
    cases (t n).out <;> cases r <;> rfl
  show ((run t n).regNext (t n) _).response = _
  rw [regNext, show (run t (n + 1)).out.response = _ from hresponse _ (run t n).reg.request _]
  cases (t n).reg <;> rfl

theorem out_succ (n : ℕ) : ∃ request, (run t (n + 1)).out =
    ((run t n).outNext (t n) request).resetBy (run t (n + 1)).reg.dspResetN := by
  have hreset : ∀ x y, ((run t n).regNext (t n) x).dspResetN =
      ((run t n).regNext (t n) y).dspResetN := by
    intro x y
    unfold regNext
    cases (t n).reg <;> rfl
  exact ⟨_, congrArg (OutSide.resetBy _) (hreset _ _)⟩

/-- Out of reset the other side runs. -/
theorem reset_succ {n : ℕ} (h : (run t (n + 1)).reg.dspResetN = true) : (run t (n + 1)).out.reset =
    if (t n).out.isSome then (run t n).out.reset.clock else (run t n).out.reset := by
  obtain ⟨request, hout⟩ := out_succ (t := t) n
  rw [hout, h, OutSide.resetBy, if_pos rfl, outNext]
  cases (t n).out <;> rfl

theorem outState_succ {n : ℕ} (h : (run t (n + 1)).reg.dspResetN = true)
    (hok : (run t n).out.reset.syncClkOkO = true) : (run t (n + 1)).out.state =
      match (t n).out, (run t n).out.state with
      | none, state => state
      | some _, .idle => if (run t n).out.request.bitO then .busy else .idle
      | some ack, .busy => if ack then .done else .busy
      | some _, .done => if (run t n).out.request.bitO then .done else .idle := by
  obtain ⟨request, hout⟩ := out_succ (t := t) n
  rw [hout, h, OutSide.resetBy, if_pos rfl, outNext]
  cases (t n).out with
  | none => rfl
  | some ack =>
      simp only [OutSide.clock, hok, Bool.not_true, Bool.false_eq_true, if_false]
      cases (run t n).out.state <;> rfl

/-! ### Runs that wait -/

/-- The register clock runs on, and if the other clock is not lost it runs on too, and acknowledges. -/
structure Runs (t : ℕ → Tick) : Prop where
  reg : Clocked.Recurs fun n => (t n).reg.isSome = true
  out : ∀ N, (∀ n, N ≤ n → (t n).reg.isSome = true → (t n).clkOk = true) →
    (Clocked.Recurs fun n => (t n).out.isSome = true) ∧
      ∀ n, N ≤ n → (run t n).out.state = .busy → ∃ m, n ≤ m ∧ (t m).out = some true

section waits
variable (hreg : Clocked.Recurs fun n => (t n).reg.isSome = true)
  (hwaits : ∀ᶠ n in atTop, (run t n).reg.state ≠ .idle)
include hwaits

/-- It waits for the response or for its end. -/
theorem busy_or_done : (∀ᶠ n in atTop, (run t n).reg.state = .busy) ∨
    ∀ᶠ n in atTop, (run t n).reg.state = .done := by
  obtain ⟨N, hN⟩ := eventually_atTop.mp hwaits
  by_cases hdone : ∃ m, N ≤ m ∧ (run t m).reg.state = .done
  · obtain ⟨m, hm, hdone⟩ := hdone
    refine .inr (eventually_atTop.mpr ⟨m, fun n hn => ?_⟩)
    induction n, hn using Nat.le_induction with
    | base => exact hdone
    | succ n hn ih =>
        have hwait := hN (n + 1) (by omega)
        rw [done_succ ih] at hwait ⊢
        split_ifs at hwait ⊢
        · exact absurd rfl hwait
        · rfl
  · refine .inl (eventually_atTop.mpr ⟨N, fun n hn => ?_⟩)
    cases hstate : (run t n).reg.state with
    | idle => exact absurd hstate (hN n hn)
    | busy => rfl
    | done => exact absurd ⟨n, hn, hstate⟩ hdone

include hreg

/-- It does not wait for what is there. -/
theorem not_answered : ¬((∀ᶠ n in atTop, (run t n).reg.state = .busy →
      ((run t n).reg.response.bitO || !(run t n).reg.dspResetN) = true) ∧
    ∀ᶠ n in atTop, (run t n).reg.state = .done →
      (!(run t n).reg.response.bitO || !(run t n).reg.dspResetN) = true) := by
  rintro ⟨hresponse, hend⟩
  rcases busy_or_done hwaits with hbusy | hdone
  · obtain ⟨N, hN⟩ := eventually_atTop.mp (hbusy.and hresponse)
    obtain ⟨m, hm, hedge⟩ := hreg N
    obtain ⟨hstate, hanswer⟩ := hN m hm
    have hnext := (hN (m + 1) (by omega)).1
    rw [busy_succ hstate, hedge, hanswer hstate, if_pos (by decide)] at hnext
    cases hnext
  · obtain ⟨N, hN⟩ := eventually_atTop.mp ((hdone.and hend).and hwaits)
    obtain ⟨m, hm, hedge⟩ := hreg N
    obtain ⟨⟨hstate, hanswer⟩, -⟩ := hN m hm
    have hnext := (hN (m + 1) (by omega)).2
    rw [done_succ hstate, hedge, hanswer hstate, if_pos (by decide)] at hnext
    exact hnext rfl

/-- So it is out of reset. -/
theorem out_of_reset : ∀ᶠ n in atTop, (run t n).reg.dspResetN = true := by
  obtain ⟨N, hN⟩ := eventually_atTop.mp hwaits
  refine eventually_atTop.mpr ⟨N, fun m hm => by_contra fun hreset => ?_⟩
  have hin : ∀ᶠ n in atTop, (run t n).reg.dspResetN = false := by
    refine eventually_atTop.mpr ⟨m, fun n hn => ?_⟩
    induction n, hn using Nat.le_induction with
    | base => exact Bool.eq_false_iff.mpr hreset
    | succ n hn ih => rw [dspResetN_succ (hN n (by omega)), ih, Bool.and_false, ite_self]
  refine not_answered hreg hwaits ⟨?_, ?_⟩
  all_goals
    filter_upwards [hin] with n hfalse _
    rw [hfalse, Bool.not_false, Bool.or_true]

/-- And the other clock is there. -/
theorem clk_ok : ∀ᶠ n in atTop, (t n).reg.isSome = true → (t n).clkOk = true := by
  obtain ⟨N, hN⟩ := eventually_atTop.mp ((out_of_reset hreg hwaits).and hwaits)
  refine eventually_atTop.mpr ⟨N, fun m hm hedge => by_contra fun hlost => ?_⟩
  -- the loss goes through the synchroniser
  have hmeta : (run t (m + 1)).reg.dspRstN.bitMeta = false := by
    rw [dspRstN_succ, if_pos hedge]
    exact Bool.eq_false_iff.mpr hlost
  obtain ⟨k, hk, hseen, hedge'⟩ := hreg.meets (q := fun n => (run t n).reg.dspRstN.bitMeta = false)
    hmeta fun n _ hold hno => by rw [dspRstN_succ, if_neg hno, hold]
  have hout : (run t (k + 1)).reg.dspRstN.bitO = false := by
    rw [dspRstN_succ, if_pos hedge']
    exact hseen
  obtain ⟨l, hl, hseen', hedge''⟩ := hreg.meets (q := fun n => (run t n).reg.dspRstN.bitO = false)
    hout fun n _ hold hno => by rw [dspRstN_succ, if_neg hno, hold]
  have hreset := (hN (l + 1) (by omega)).1
  rw [dspResetN_succ (hN l (by omega)).2, if_pos hedge'', hseen', Bool.false_and] at hreset
  exact Bool.false_ne_true hreset

end waits

section settled
variable (hreset : ∀ᶠ n in atTop, (run t n).reg.dspResetN = true)
  (hout : Clocked.Recurs fun n => (t n).out.isSome = true)
include hout

/-- The other side sees the request as it is. -/
theorem request_settles {b : Bool} (h : ∀ᶠ n in atTop, (run t n).reg.request = b) :
    ∀ᶠ n in atTop, (run t n).out.request.bitO = b := by
  have hmeta : ∀ᶠ n in atTop, (run t n).out.request.bitMeta = b := by
    refine settles_to (fun n =>
      if (t n).outSees then (run t (n + 1)).reg.request else (run t n).reg.request) hout
      (Eventually.of_forall fun n => ?_) ?_
    · rw [request_succ]
      cases (t n).out <;> rfl
    · filter_upwards [h, (tendsto_add_atTop_nat 1).eventually h] with n hn hnext
      rw [hn, hnext, ite_self]
  refine settles_to _ hout (Eventually.of_forall fun n => ?_) hmeta
  rw [request_succ]
  cases (t n).out <;> rfl

include hreset

/-- And it comes out of its reset. -/
theorem reset_settles : ∀ᶠ n in atTop, (run t n).out.reset.syncClkOkO = true := by
  have hnext : ∀ᶠ n in atTop, (run t (n + 1)).out.reset =
      if (t n).out.isSome then (run t n).out.reset.clock else (run t n).out.reset :=
    ((tendsto_add_atTop_nat 1).eventually hreset).mono fun n h => reset_succ h
  have hmeta : ∀ᶠ n in atTop, (run t n).out.reset.clkOkMeta = true := by
    refine settles_to (fun _ => true) hout ?_ (Eventually.of_forall fun _ => rfl)
    filter_upwards [hnext] with n h
    rw [h]
    cases (t n).out <;> rfl
  have hdelay : ∀ᶠ n in atTop, (run t n).out.reset.clkOkDelay = true := by
    refine settles_to _ hout ?_ hmeta
    filter_upwards [hnext] with n h
    rw [h]
    cases (t n).out <;> rfl
  refine settles_to _ hout ?_ hdelay
  filter_upwards [hnext] with n h
  rw [h]
  cases (t n).out <;> rfl

variable (hack : ∀ᶠ n in atTop, (run t n).out.state = .busy →
  ∃ m, n ≤ m ∧ (t m).out = some true)
include hack

/-- It does not wait for the acknowledge. -/
theorem not_busy : ¬∀ᶠ n in atTop, (run t n).out.state = .busy := by
  intro hbusy
  obtain ⟨N, hN⟩ := eventually_atTop.mp
    (((hbusy.and hack).and (reset_settles hreset hout)).and
      ((tendsto_add_atTop_nat 1).eventually hreset))
  obtain ⟨m, hm, htick⟩ := (hN N le_rfl).1.1.2 (hN N le_rfl).1.1.1
  obtain ⟨⟨⟨hstate, -⟩, hok⟩, hnext⟩ := hN m hm
  have hafter := (hN (m + 1) (by omega)).1.1.1
  rw [outState_succ hnext hok, htick, hstate] at hafter
  cases hafter

/-- With the request the response comes. -/
theorem done_settles (hrequest : ∀ᶠ n in atTop, (run t n).reg.request = true) :
    ∀ᶠ n in atTop, (run t n).out.state = .done := by
  have hstep := ((reset_settles hreset hout).and (request_settles hout hrequest)).and
    ((tendsto_add_atTop_nat 1).eventually hreset)
  have hleaves : ∀ᶠ n in atTop, (run t n).out.state ≠ .idle := by
    refine settles hout ?_ ?_
    · filter_upwards [hstep] with n h htick
      obtain ⟨ack, hack⟩ := Option.isSome_iff_exists.mp htick
      rw [outState_succ h.2 h.1.1, h.1.2, hack]
      cases (run t n).out.state <;> cases ack <;> decide
    · filter_upwards [hstep] with n h hstate
      rw [outState_succ h.2 h.1.1, h.1.2]
      cases hn : (run t n).out.state <;> cases (t n).out <;> simp_all
      split_ifs <;> decide
  obtain ⟨N, hN⟩ := eventually_atTop.mp (hstep.and hleaves)
  have hsome : ∃ m, N ≤ m ∧ (run t m).out.state = .done := by
    by_contra hnever
    refine not_busy hreset hout hack (eventually_atTop.mpr ⟨N, fun n hn => ?_⟩)
    cases hstate : (run t n).out.state with
    | idle => exact absurd hstate (hN n hn).2
    | busy => rfl
    | done => exact absurd ⟨n, hn, hstate⟩ hnever
  obtain ⟨m, hm, hdone⟩ := hsome
  refine eventually_atTop.mpr ⟨m, fun n hn => ?_⟩
  induction n, hn using Nat.le_induction with
  | base => exact hdone
  | succ n hn ih =>
      obtain ⟨h, -⟩ := hN n (by omega)
      rw [outState_succ h.2 h.1.1, h.1.2, ih]
      cases (t n).out <;> rfl

/-- With the end of the request the response ends. -/
theorem idle_settles (hrequest : ∀ᶠ n in atTop, (run t n).reg.request = false) :
    ∀ᶠ n in atTop, (run t n).out.state = .idle := by
  have hstep := ((reset_settles hreset hout).and (request_settles hout hrequest)).and
    ((tendsto_add_atTop_nat 1).eventually hreset)
  have hleaves : ∀ᶠ n in atTop, (run t n).out.state ≠ .busy := by
    obtain ⟨N, hN⟩ := eventually_atTop.mp hstep
    have hsome : ∃ m, N ≤ m ∧ (run t m).out.state ≠ .busy := by
      by_contra hnever
      refine not_busy hreset hout hack (eventually_atTop.mpr ⟨N, fun n hn => ?_⟩)
      by_contra hstate
      exact hnever ⟨n, hn, hstate⟩
    obtain ⟨m, hm, hleft⟩ := hsome
    refine eventually_atTop.mpr ⟨m, fun n hn => ?_⟩
    induction n, hn using Nat.le_induction with
    | base => exact hleft
    | succ n hn ih =>
        have h := hN n (by omega)
        rw [outState_succ h.2 h.1.1, h.1.2]
        cases hn : (run t n).out.state <;> cases (t n).out <;> simp_all
  refine settles hout ?_ ?_
  · filter_upwards [hstep, hleaves] with n h hstate htick
    obtain ⟨ack, hack⟩ := Option.isSome_iff_exists.mp htick
    rw [outState_succ h.2 h.1.1, h.1.2, hack]
    cases hn : (run t n).out.state <;> simp_all
  · filter_upwards [hstep] with n h hstate
    rw [outState_succ h.2 h.1.1, h.1.2, hstate]
    cases (t n).out <;> rfl

end settled

/-- The register side sees the response as it is. -/
theorem response_settles (hreg : Clocked.Recurs fun n => (t n).reg.isSome = true) {b : Bool}
    (h : ∀ᶠ n in atTop, (run t n).out.response = b) :
    ∀ᶠ n in atTop, (run t n).reg.response.bitO = b := by
  have hmeta : ∀ᶠ n in atTop, (run t n).reg.response.bitMeta = b := by
    refine settles_to (fun n =>
      if (t n).regSees then (run t (n + 1)).out.response else (run t n).out.response) hreg
      (Eventually.of_forall fun n => ?_) ?_
    · rw [response_succ]
      cases (t n).reg <;> rfl
    · filter_upwards [h, (tendsto_add_atTop_nat 1).eventually h] with n hn hnext
      rw [hn, hnext, ite_self]
  refine settles_to _ hreg (Eventually.of_forall fun n => ?_) hmeta
  rw [response_succ]
  cases (t n).reg <;> rfl

/-- The register side does not wait for ever. -/
theorem not_waits (h : Runs t) : ¬∀ᶠ n in atTop, (run t n).reg.state ≠ .idle := by
  intro hwaits
  have hreset := out_of_reset h.reg hwaits
  obtain ⟨N, hN⟩ := eventually_atTop.mp (clk_ok h.reg hwaits)
  obtain ⟨hout, hacks⟩ := h.out N hN
  have hack := eventually_atTop.mpr ⟨N, hacks⟩
  refine not_answered h.reg hwaits ?_
  rcases busy_or_done hwaits with hbusy | hdone
  · have hstate := done_settles hreset hout hack (hbusy.mono fun n hn => decide_eq_true hn)
    have hresponse := response_settles h.reg (hstate.mono fun n hn => decide_eq_true hn)
    constructor
    · filter_upwards [hresponse] with n hn _
      rw [hn, Bool.true_or]
    · filter_upwards [hbusy] with n hn hdone
      exact absurd (hn.symm.trans hdone) (by decide)
  · have hstate := idle_settles hreset hout hack
      (hdone.mono fun n hn => decide_eq_false (by rw [hn]; decide))
    have hresponse := response_settles h.reg
      (hstate.mono fun n hn => decide_eq_false (by rw [hn]; decide))
    constructor
    · filter_upwards [hdone] with n hn hbusy
      exact absurd (hn.symm.trans hbusy) (by decide)
    · filter_upwards [hresponse] with n hn _
      rw [hn, Bool.not_false, Bool.true_or]

/-- Every request is acknowledged, even if the other clock is lost. -/
theorem strobe_acknowledged (h : Runs t) {n : ℕ} (hrequest : (trace t n).request = true) :
    ∃ m, n < m ∧ (t m).reg.isSome = true ∧ (run t m).reg.ackO = true := by
  obtain ⟨hidle, hstrobe⟩ := Bool.and_eq_true_iff.mp hrequest
  rw [decide_eq_true_iff] at hidle
  have hbusy : (run t (n + 1)).reg.state = .busy := by
    obtain ⟨response, hreg⟩ := reg_succ (t := t) n
    rw [hreg, regNext]
    cases hedge : (t n).reg with
    | none =>
        rw [hedge] at hstrobe
        cases hstrobe
    | some strobe =>
        rw [hedge] at hstrobe
        simp only [RegSide.clock, hidle]
        exact if_pos hstrobe
  -- the first time that it is idle again
  have hends : ∃ k, (run t (n + 1 + k)).reg.state = .idle := by
    by_contra hnever
    refine not_waits h (eventually_atTop.mpr ⟨n + 1, fun m hm heq => hnever ⟨m - (n + 1), ?_⟩⟩)
    rw [Nat.add_sub_cancel' hm]
    exact heq
  obtain ⟨k, hk⟩ : ∃ k, Nat.find hends = k + 1 := Nat.exists_eq_succ_of_ne_zero fun hzero => by
    have hfirst := Nat.find_spec hends
    rw [hzero, Nat.add_zero, hbusy] at hfirst
    cases hfirst
  have hfirst := Nat.find_spec hends
  have hbefore := Nat.find_min hends (m := k) (by omega)
  rw [hk, ← Nat.add_assoc] at hfirst
  have hdone : (trace t (n + 1 + k)).done = true := by
    refine Bool.and_eq_true_iff.mpr ⟨decide_eq_true ?_, decide_eq_true hfirst⟩
    cases hstate : (run t (n + 1 + k)).reg.state with
    | idle => exact absurd hstate hbefore
    | busy =>
        rw [busy_succ hstate] at hfirst
        split_ifs at hfirst
    | done => rfl
  have hack := (ackO_iff (t := t) (n + 1 + k + 1)).mpr
    (.inr ⟨n + 1 + k, Nat.lt_succ_self _, hdone, fun j hj hjk => by omega⟩)
  obtain ⟨m, hm, hacked, hedge⟩ := h.reg.meets (q := fun n => (run t n).reg.ackO = true) hack
    fun j _ hold hno => by
      obtain ⟨response, hreg⟩ := reg_succ (t := t) j
      rw [hreg, regNext, Option.not_isSome_iff_eq_none.mp hno, hold]
  exact ⟨m, by omega, hedge, hacked⟩

theorem strobe_acknowledged_lone : ∃ m, 20 < m ∧ (lone 20 m).reg.isSome = true ∧
    (run (lone 20) m).reg.ackO = true :=
  strobe_acknowledged ⟨fun n => ⟨n, le_rfl, rfl⟩, fun _ _ =>
    ⟨fun n => ⟨n, le_rfl, rfl⟩, fun n _ _ => ⟨n, le_rfl, rfl⟩⟩⟩ (by decide)

end ticks

end RegisterStrobeCc

end Mbf.Registers
