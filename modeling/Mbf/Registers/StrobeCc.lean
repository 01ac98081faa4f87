import Mathlib.Data.Nat.Count
import Mbf.Lib.Handshake

/-! # Strobes across clocks

`register_strobe_cc` takes a strobe from the register clock to another clock, and the acknowledge
back.  The two clocks are not related, and the other one may be lost; so the register side gives up
when it sees `out_clk_ok` go.  A step of the circuit (`RegisterStrobeCc.step`) is an edge of either
clock, or of both.

As long as the register side is not in reset the two sides follow the protocol of a handshake
(`step_next`), so a request is done after one strobe and one acknowledge (`register_strobe_cc`).
Even if clocks are lost there are never more strobes than requests (`strobes_le`). -/

namespace Mbf.Registers

/-! ### The synchronisers -/

/-- `sync_bit` -/
structure SyncBit where
  bitMeta : Bool
  bitO : Bool

def SyncBit.initial : SyncBit := ⟨false, false⟩

def SyncBit.clock (s : SyncBit) (bit : Bool) : SyncBit := ⟨bit, s.bitMeta⟩

/-- `sync_reset` -/
structure SyncReset where
  clkOkMeta : Bool
  clkOkDelay : Bool
  syncClkOkO : Bool

/-- What the reset makes of it at once. -/
def SyncReset.cleared : SyncReset := ⟨false, false, false⟩

def SyncReset.clock (s : SyncReset) : SyncReset := ⟨true, s.clkOkMeta, s.clkOkDelay⟩

/-! ### The two sides -/

/-- `reg_state_t` -/
inductive RegState
  | idle | busy | done
deriving DecidableEq

/-- `out_state_t` -/
inductive OutState
  | idle | busy | done
deriving DecidableEq

/-- The registers of `register_strobe_cc` on the register clock. -/
structure RegSide where
  dspRstN : SyncBit
  response : SyncBit
  state : RegState
  dspResetN : Bool
  lastAck : Bool

/-- Those on the other clock. -/
structure OutSide where
  request : SyncBit
  reset : SyncReset
  state : OutState
  lastRequest : Bool

namespace RegSide

def initial : RegSide := ⟨.initial, .initial, .idle, false, false⟩

/-- `reg_request` -/
def request (r : RegSide) : Bool := decide (r.state = .busy)

/-- `reg_ack_o` -/
def ackO (r : RegSide) : Bool := decide (r.state = .idle) && !r.lastAck

/-- One clock of the register side. -/
def clock (r : RegSide) (clkOk response strobe : Bool) : RegSide where
  dspRstN := r.dspRstN.clock clkOk
  response := r.response.clock response
  state :=
    match r.state with
    | .idle => if strobe then .busy else .idle
    | .busy => if r.response.bitO || !r.dspResetN then .done else .busy
    | .done => if !r.response.bitO || !r.dspResetN then .idle else .done
  dspResetN :=
    if !r.dspRstN.bitO then false
    -- out of reset only in idle
    else if r.state = .idle then true
    else r.dspResetN
  lastAck := decide (r.state = .idle)

end RegSide

namespace OutSide

def initial : OutSide := ⟨.initial, .cleared, .idle, false⟩

/-- `out_response` -/
def response (o : OutSide) : Bool := decide (o.state = .done)

/-- `out_strobe_o` -/
def strobeO (o : OutSide) : Bool := o.request.bitO && !o.lastRequest

/-- One clock of the other side. -/
def clock (o : OutSide) (request ack : Bool) : OutSide where
  request := o.request.clock request
  reset := o.reset.clock
  state :=
    if !o.reset.syncClkOkO then .idle
    else
      match o.state with
      | .idle => if o.request.bitO then .busy else .idle
      | .busy => if ack then .done else .busy
      | .done => if o.request.bitO then .done else .idle
  lastRequest := o.request.bitO

/-- The reset of the register side comes at once. -/
def resetBy (o : OutSide) (dspResetN : Bool) : OutSide :=
  if dspResetN then o else { o with reset := .cleared, state := .idle }

/-- Its reset comes to an end, once. -/
structure Filled (o : OutSide) : Prop where
  state : o.state ≠ .idle → o.reset.syncClkOkO = true
  syncClkOkO : o.reset.syncClkOkO = true → o.reset.clkOkDelay = true
  clkOkDelay : o.reset.clkOkDelay = true → o.reset.clkOkMeta = true

theorem Filled.clock {o : OutSide} (h : o.Filled) (request ack : Bool) :
    (o.clock request ack).Filled where
  state hne := by
    by_contra hdelay
    have hok : o.reset.syncClkOkO = false := by
      by_contra hok
      exact hdelay (h.syncClkOkO (Bool.eq_true_of_not_eq_false hok))
    exact hne (if_pos (by rw [hok]; rfl))
  syncClkOkO hdelay := h.clkOkDelay hdelay
  clkOkDelay _ := rfl

theorem Filled.resetBy {o : OutSide} (h : o.Filled) (dspResetN : Bool) :
    (o.resetBy dspResetN).Filled := by
  cases dspResetN
  · exact ⟨fun hne => absurd rfl hne, fun hfalse => hfalse, fun hfalse => hfalse⟩
  · exact h

end OutSide

/-! ### The circuit -/

structure RegisterStrobeCc where
  reg : RegSide
  out : OutSide

/-- What happens at one time.  `reg` is an edge of the register clock with the strobe, `out` one of
the other clock with the acknowledge.  On an edge of both clocks it is left open if the first register
of a synchroniser sees a change that the other clock makes. -/
structure Tick where
  clkOk : Bool
  reg : Option Bool
  out : Option Bool
  regSees : Bool
  outSees : Bool

namespace RegisterStrobeCc

def initial : RegisterStrobeCc := ⟨.initial, .initial⟩

/-- The register side after a tick. -/
def regNext (c : RegisterStrobeCc) (t : Tick) (response : Bool) : RegSide :=
  match t.reg with
  | some strobe => c.reg.clock t.clkOk response strobe
  | none => c.reg

/-- The other side after a tick, but for the reset. -/
def outNext (c : RegisterStrobeCc) (t : Tick) (request : Bool) : OutSide :=
  match t.out with
  | some ack => c.out.clock request ack
  | none => c.out

def step (c : RegisterStrobeCc) (t : Tick) : RegisterStrobeCc :=
  let reg := c.regNext t c.out.response
  let out := (c.outNext t c.reg.request).resetBy reg.dspResetN
  { reg := c.regNext t (if t.regSees then out.response else c.out.response)
    out := (c.outNext t (if t.outSees then reg.request else c.reg.request)).resetBy reg.dspResetN }

/-- A run from the start. -/
def run (t : ℕ → Tick) : ℕ → RegisterStrobeCc
  | 0 => initial
  | n + 1 => (run t n).step (t n)

/-- What happens on a tick. -/
def events (c : RegisterStrobeCc) (t : Tick) : Handshake.Events where
  reset := !(c.step t).reg.dspResetN
  request := decide (c.reg.state = .idle) && t.reg.getD false
  strobe := t.out.isSome && c.out.strobeO
  ack := decide (c.out.state = .busy) && t.out.getD false
  done := decide (c.reg.state = .done) && decide ((c.step t).reg.state = .idle)

/-! ### The protocol -/

open Handshake

/-- What the circuit is like in a phase of the handshake. -/
def Keeps (c : RegisterStrobeCc) : Phase → Prop
  | .reset => c.reg.dspResetN = false ∧ c.out.state = .idle ∧ c.out.reset = .cleared ∧
      (c.reg.state = .idle → c.reg.response.bitMeta = false)
  | .idle => c.reg.dspResetN = true ∧ c.reg.state = .idle ∧ c.reg.response = ⟨false, false⟩ ∧
      c.out.request = ⟨false, false⟩ ∧ c.out.state = .idle
  | .requested => c.reg.dspResetN = true ∧ c.reg.state = .busy ∧ c.reg.response = ⟨false, false⟩ ∧
      (c.out.request.bitO = true → c.out.request.bitMeta = true ∧ c.out.lastRequest = false) ∧
      c.out.state = .idle
  | .strobed => c.reg.dspResetN = true ∧ c.reg.state = .busy ∧ c.reg.response = ⟨false, false⟩ ∧
      c.out.request = ⟨true, true⟩ ∧ c.out.lastRequest = true ∧ c.out.state ≠ .done
  | .acked => c.reg.dspResetN = true ∧
      -- the response goes to the register side,
      (c.reg.state = .busy ∧ (c.reg.response.bitO = true → c.reg.response.bitMeta = true) ∧
          c.out.request = ⟨true, true⟩ ∧ c.out.lastRequest = true ∧ c.out.state = .done ∨
        -- then the request is withdrawn,
        c.reg.state = .done ∧ c.reg.response = ⟨true, true⟩ ∧
          (c.out.request.bitMeta = true → c.out.request.bitO = true) ∧
          (c.out.request.bitO = true → c.out.lastRequest = true) ∧ c.out.state = .done ∨
        -- and then the response
        c.reg.state = .done ∧ (c.reg.response.bitMeta = true → c.reg.response.bitO = true) ∧
          c.out.request = ⟨false, false⟩ ∧ c.out.state = .idle)

/-- The request is no longer seen on the other side, but for a new one. -/
def Flushed (c : RegisterStrobeCc) : Prop :=
  c.out.request.bitO = false ∧ (c.out.request.bitMeta = true → c.reg.state = .busy)

section step
variable {c : RegisterStrobeCc} {t : Tick}

theorem step_filled (h : c.out.Filled) : (c.step t).out.Filled := by
  refine OutSide.Filled.resetBy ?_ _
  unfold outNext
  split
  · exact h.clock _ _
  · exact h

-- a step is computed on the bits, case by case
attribute [local simp] events step regNext outNext RegSide.clock RegSide.request OutSide.clock
  OutSide.resetBy OutSide.strobeO OutSide.response SyncBit.clock SyncReset.cleared Keeps Flushed
  Phase.Allows Phase.after

/-- In idle only a request may come. -/
theorem next_idle (h : c.Keeps .idle) (hreset : (c.events t).reset = false) :
    Phase.idle.Allows (c.events t) ∧ (c.step t).Keeps (Phase.idle.after (c.events t)) := by
  obtain ⟨⟨⟨_, b⟩, _, _, _, _⟩, ⟨_, ⟨_, _, r⟩, _, _⟩⟩ := c
  obtain ⟨rfl, rfl, rfl, rfl, rfl⟩ := h
  obtain ⟨_, _ | _ | _, _ | _, _, _⟩ := t <;> cases r <;> cases b <;> simp_all

/-- Then the strobe, when the request has come through. -/
theorem next_requested (h : c.Keeps .requested) (hreset : (c.events t).reset = false) :
    Phase.requested.Allows (c.events t) ∧ (c.step t).Keeps (Phase.requested.after (c.events t)) := by
  obtain ⟨⟨⟨_, b⟩, _, _, _, _⟩, ⟨⟨_, o⟩, ⟨_, _, r⟩, _, l⟩⟩ := c
  obtain ⟨rfl, rfl, rfl, hstrobe, rfl⟩ := h
  obtain ⟨_, _ | _, _ | _, _, _⟩ := t <;> cases o <;> cases l <;> cases r <;> cases b <;> simp_all

/-- Then the acknowledge. -/
theorem next_strobed (h : c.Keeps .strobed) (hfilled : c.out.Filled)
    (hreset : (c.events t).reset = false) :
    Phase.strobed.Allows (c.events t) ∧ (c.step t).Keeps (Phase.strobed.after (c.events t)) := by
  obtain ⟨hstate, -, -⟩ := hfilled
  obtain ⟨⟨⟨_, b⟩, _, _, _, _⟩, ⟨_, ⟨_, _, r⟩, s, _⟩⟩ := c
  obtain ⟨rfl, rfl, rfl, rfl, rfl, hdone⟩ := h
  obtain ⟨_, _ | _, _ | _ | _, _, _⟩ := t <;> cases s <;> cases r <;> cases b <;> simp_all

/-- Then the response goes to the register side and back. -/
theorem next_acked (h : c.Keeps .acked) (hfilled : c.out.Filled)
    (hreset : (c.events t).reset = false) :
    Phase.acked.Allows (c.events t) ∧ (c.step t).Keeps (Phase.acked.after (c.events t)) := by
  obtain ⟨hstate, -, -⟩ := hfilled
  obtain ⟨⟨⟨_, b⟩, ⟨rm, ro⟩, _, _, _⟩, ⟨⟨m, o⟩, ⟨_, _, r⟩, _, _⟩⟩ := c
  obtain ⟨rfl, ⟨rfl, hr, ⟨rfl, rfl⟩, rfl, rfl⟩ | ⟨rfl, ⟨rfl, rfl⟩, hm, hl, rfl⟩ |
    ⟨rfl, hr, ⟨rfl, rfl⟩, rfl⟩⟩ := h
  · obtain ⟨_, _ | _, _ | _, _, _⟩ := t <;> cases ro <;> cases b <;> simp_all
  · obtain ⟨_, _ | _, _ | _, _, _⟩ := t <;> cases o <;> cases m <;> cases b <;> simp_all
  · obtain ⟨_, _ | _, _ | _, _, _⟩ := t <;> cases ro <;> cases rm <;> cases r <;> cases b <;>
    simp_all

/-- Out of reset the circuit is idle, or there is a new request. -/
theorem next_reset (h : c.Keeps .reset) (hreset : (c.events t).reset = false)
    (hflushed : (c.step t).Flushed) : (c.step t).Keeps (Phase.reset.after (c.events t)) := by
  obtain ⟨⟨⟨_, b⟩, ⟨_, _⟩, s, _, _⟩, ⟨⟨m, o⟩, _, _, _⟩⟩ := c
  obtain ⟨rfl, rfl, rfl, hresponse⟩ := h
  obtain ⟨_, _ | _ | _, _ | _, _, _⟩ := t <;> cases s <;> cases b <;> cases m <;> cases o <;>
    simp_all

/-- A reset comes at once. -/
theorem enters_reset {p : Phase} (h : c.Keeps p) (hreset : (c.events t).reset = true) :
    (c.step t).Keeps .reset := by
  obtain ⟨⟨⟨_, b⟩, ⟨rm, ro⟩, s, _, _⟩, ⟨_, _, _, _⟩⟩ := c
  cases p with
  | reset =>
      obtain ⟨rfl, rfl, rfl, hresponse⟩ := h
      obtain ⟨_, _ | _, _ | _, _, _⟩ := t <;> cases s <;> cases b <;> simp_all
  | idle =>
      obtain ⟨rfl, rfl, ⟨rfl, rfl⟩, -, rfl⟩ := h
      obtain ⟨_, _ | _, _ | _, _, _⟩ := t <;> cases b <;> simp_all
  | requested =>
      obtain ⟨rfl, rfl, ⟨rfl, rfl⟩, -, rfl⟩ := h
      obtain ⟨_, _ | _, _ | _, _, _⟩ := t <;> cases b <;> simp_all
  | strobed =>
      obtain ⟨rfl, rfl, ⟨rfl, rfl⟩, -⟩ := h
      obtain ⟨_, _ | _, _ | _, _, _⟩ := t <;> cases b <;> simp_all
  | acked =>
      obtain ⟨rfl, ⟨rfl, hr, -⟩ | ⟨rfl, ⟨rfl, rfl⟩, -⟩ | ⟨rfl, hr, -, rfl⟩⟩ := h
      · obtain ⟨_, _ | _, _ | _, _, _⟩ := t <;> cases ro <;> cases b <;> simp_all
      · obtain ⟨_, _ | _, _ | _, _, _⟩ := t <;> cases b <;> simp_all
      · obtain ⟨_, _ | _, _ | _, _, _⟩ := t <;> cases ro <;> cases b <;> simp_all

theorem keeps_reset {p : Phase} (h : c.Keeps p) : c.reg.dspResetN = false ↔ p = .reset := by
  cases p with
  | reset => exact ⟨fun _ => rfl, fun _ => h.1⟩
  | _ => exact ⟨fun hfalse => absurd (h.1.symm.trans hfalse) (by decide), fun hp => by cases hp⟩

/-- A step of the circuit is a step of the handshake. -/
theorem step_next {p : Phase} (h : c.Keeps p) (hfilled : c.out.Filled)
    (hflushed : p = .reset → (c.events t).reset = false → (c.step t).Flushed) :
    ∃ q, p.Next (c.events t) q ∧ (c.step t).Keeps q := by
  unfold Phase.Next
  by_cases hreset : (c.events t).reset = true
  · rw [hreset]
    exact ⟨.reset, rfl, enters_reset h hreset⟩
  · have hout := Bool.eq_false_iff.mpr hreset
    refine ⟨p.after (c.events t), ?_⟩
    rw [if_neg hreset]
    cases p with
    | reset => exact ⟨⟨trivial, rfl⟩, next_reset h hout (hflushed rfl hout)⟩
    | idle => exact ⟨⟨(next_idle h hout).1, rfl⟩, (next_idle h hout).2⟩
    | requested => exact ⟨⟨(next_requested h hout).1, rfl⟩, (next_requested h hout).2⟩
    | strobed => exact ⟨⟨(next_strobed h hfilled hout).1, rfl⟩, (next_strobed h hfilled hout).2⟩
    | acked => exact ⟨⟨(next_acked h hfilled hout).1, rfl⟩, (next_acked h hfilled hout).2⟩

end step

/-! ### Runs -/

section runs
variable {t : ℕ → Tick}

/-- Out of reset the other clock has run twice since the last request. -/
def ClockRuns (t : ℕ → Tick) : Prop :=
  ∀ n, (run t n).reg.dspResetN = false → (run t (n + 1)).reg.dspResetN = true →
    ∃ i j, i < j ∧ j ≤ n ∧ (t i).out.isSome = true ∧ (t j).out.isSome = true ∧
      ∀ k, i ≤ k → k ≤ n → (run t k).reg.state ≠ .busy

/-- What happens in a run. -/
def trace (t : ℕ → Tick) (n : ℕ) : Events := (run t n).events (t n)

theorem run_filled (n : ℕ) : (run t n).out.Filled := by
  induction n with
  | zero => exact ⟨fun hne => absurd rfl hne, fun hfalse => hfalse, fun hfalse => hfalse⟩
  | succ n ih => exact step_filled ih

/-- What the other side sees of the request. -/
theorem request_succ (n : ℕ) : (run t (n + 1)).out.request =
    if (t n).out.isSome then
      (run t n).out.request.clock
        (if (t n).outSees then (run t (n + 1)).reg.request else (run t n).reg.request)
    else (run t n).out.request := by
  have hreset : ∀ (o : OutSide) (r : Bool), (o.resetBy r).request = o.request := by
    intro o r
    cases r <;> rfl
  have hstate : ∀ x y, ((run t n).regNext (t n) x).request = ((run t n).regNext (t n) y).request := by
    intro x y
    unfold regNext
    cases (t n).reg <;> rfl
  show (((run t n).outNext (t n) _).resetBy _).request = _
  rw [hreset, outNext, hstate (run t n).out.response]
  cases (t n).out <;> rfl

/-- The other side has seen that there is no request, and there is none. -/
theorem bitMeta_false {i n : ℕ} (hi : (t i).out.isSome = true) (hin : i < n)
    (hidle : ∀ k, i ≤ k → k ≤ n → (run t k).reg.state ≠ .busy) :
    (run t n).out.request.bitMeta = false := by
  have hrequest : ∀ k, i ≤ k → k ≤ n → (run t k).reg.request = false := fun k hk hkn =>
    decide_eq_false (hidle k hk hkn)
  induction n, hin using Nat.le_induction with
  | base =>
      rw [request_succ, if_pos hi]
      show (if (t i).outSees then _ else _) = false
      rw [hrequest i le_rfl (Nat.le_succ i), hrequest (i + 1) (Nat.le_succ i) le_rfl, ite_self]
  | succ n hn ih =>
      have hbefore := ih (fun k hk hkn => hidle k hk (Nat.le_succ_of_le hkn))
        fun k hk hkn => hrequest k hk (Nat.le_succ_of_le hkn)
      rw [request_succ, hrequest n (Nat.le_of_succ_le hn) (Nat.le_succ n),
        hrequest (n + 1) (by omega) le_rfl, ite_self]
      split_ifs
      · rfl
      · exact hbefore

/-- So nothing of an old request is left when the reset ends. -/
theorem flushed (ht : ClockRuns t) {n : ℕ} (hbefore : (run t n).reg.dspResetN = false)
    (hafter : (run t (n + 1)).reg.dspResetN = true) : (run t (n + 1)).Flushed := by
  obtain ⟨i, j, hij, hjn, hi, hj, hidle⟩ := ht n hbefore hafter
  have hmeta : ∀ k, i < k → k ≤ n → (run t k).out.request.bitMeta = false := fun k hik hkn =>
    bitMeta_false hi hik fun l hl hlk => hidle l hl (hlk.trans hkn)
  constructor
  · clear hbefore hafter
    induction n, hjn using Nat.le_induction with
    | base =>
        rw [request_succ, if_pos hj]
        exact hmeta j hij le_rfl
    | succ n hjn ih =>
        rw [request_succ]
        by_cases hout : (t (n + 1)).out.isSome = true
        · rw [if_pos hout]
          exact hmeta (n + 1) (by omega) le_rfl
        · rw [if_neg hout]
          exact ih (fun k hk hkn => hidle k hk (Nat.le_succ_of_le hkn))
            fun k hk hkn => hmeta k hk (Nat.le_succ_of_le hkn)
  · intro hseen
    by_contra hstate
    have hrequest : (run t (n + 1)).reg.request = false := decide_eq_false hstate
    have hnone : (run t n).reg.request = false := decide_eq_false (hidle n (by omega) le_rfl)
    rw [request_succ, hrequest, hnone, ite_self] at hseen
    split_ifs at hseen
    · exact Bool.false_ne_true hseen
    · exact absurd hseen (by rw [hmeta n (by omega) le_rfl]; exact Bool.false_ne_true)

/-- The phases of a run. -/
theorem run_follows (ht : ClockRuns t) : ∃ phase, phase 0 = .reset ∧
    Follows phase (trace t) ∧ ∀ n, (run t n).Keeps (phase n) := by
  refine exists_phases Keeps ⟨rfl, rfl, rfl, fun _ => rfl⟩ fun n p hp => ?_
  refine step_next hp (run_filled n) fun hphase (hreset : (trace t n).reset = false) => ?_
  refine flushed ht ((keeps_reset hp).mpr hphase) ?_
  exact Bool.eq_true_of_not_eq_false fun hfalse => absurd hreset (by
    rw [show (trace t n).reset = !(run t (n + 1)).reg.dspResetN from rfl, hfalse]
    decide)

/-- The strobes that are still to come of what the other side sees. -/
def pending (c : RegisterStrobeCc) : ℕ :=
  (c.out.request.bitO && !c.out.lastRequest).toNat +
    (c.out.request.bitMeta && !c.out.request.bitO).toNat +
    (c.reg.request && !c.out.request.bitMeta).toNat

theorem lastRequest_succ (n : ℕ) : (run t (n + 1)).out.lastRequest =
    if (t n).out.isSome then (run t n).out.request.bitO else (run t n).out.lastRequest := by
  have hreset : ∀ (o : OutSide) (r : Bool), (o.resetBy r).lastRequest = o.lastRequest := by
    intro o r
    cases r <;> rfl
  show (((run t n).outNext (t n) _).resetBy _).lastRequest = _
  rw [hreset, outNext]
  cases (t n).out <;> rfl

/-- The register side after a tick. -/
theorem reg_succ (n : ℕ) : ∃ response, (run t (n + 1)).reg = (run t n).regNext (t n) response :=
  ⟨_, rfl⟩

theorem request_of_succ {n : ℕ} (h : (run t (n + 1)).reg.request = true) :
    (run t n).reg.request = true ∨ (trace t n).request = true := by
  obtain ⟨response, hreg⟩ := reg_succ (t := t) n
  have hbusy := of_decide_eq_true h
  rw [hreg, regNext] at hbusy
  cases hstate : (run t n).reg.state with
  | busy => exact .inl (decide_eq_true hstate)
  | idle =>
      refine .inr (Bool.and_eq_true_iff.mpr ⟨decide_eq_true hstate, ?_⟩)
      cases hstrobe : (t n).reg with
      | none =>
          rw [hstrobe, hstate] at hbusy
          cases hbusy
      | some strobe =>
          rw [hstrobe] at hbusy
          simp only [RegSide.clock, hstate] at hbusy
          split_ifs at hbusy with hstrobe
          exact hstrobe
  | done =>
      cases hstrobe : (t n).reg <;> rw [hstrobe] at hbusy <;>
        simp only [RegSide.clock, hstate] at hbusy
      · cases hbusy
      · split_ifs at hbusy

/-- A strobe takes one of these, and only a request brings one. -/
theorem pending_shift : ∀ l o m old new seen request : Bool, seen = old ∨ seen = new →
    (new = true → old = true ∨ request = true) →
    (o && !l).toNat + ((m && !o).toNat + (seen && !m).toNat + (new && !seen).toNat) ≤
      (o && !l).toNat + (m && !o).toNat + (old && !m).toNat + request.toNat := by decide

theorem pending_step (n : ℕ) :
    (trace t n).strobe.toNat + (run t (n + 1)).pending ≤
      (run t n).pending + (trace t n).request.toNat := by
  have hnew := request_of_succ (t := t) (n := n)
  rw [pending, request_succ, lastRequest_succ]
  by_cases hout : (t n).out.isSome = true
  · rw [if_pos hout, if_pos hout, show (trace t n).strobe = (run t n).out.strobeO from
      (congrArg (· && _) hout).trans (Bool.true_and _)]
    refine pending_shift _ _ _ _ _ _ _ ?_ hnew
    split_ifs
    · exact .inr rfl
    · exact .inl rfl
  · rw [if_neg hout, if_neg hout, show (trace t n).strobe = false from
      (congrArg (· && _) (Bool.eq_false_iff.mpr hout)).trans (Bool.false_and _)]
    have hless : ∀ m old new request : Bool, (new = true → old = true ∨ request = true) →
        (new && !m).toNat ≤ (old && !m).toNat + request.toNat := by decide
    have hrequest := hless (run t n).out.request.bitMeta _ _ _ hnew
    rw [pending]
    simp only [Bool.toNat_false]
    omega

/-- Whatever is lost, there are never more strobes than requests. -/
theorem strobes_le (n : ℕ) : Nat.count (fun k => (trace t k).strobe = true) n ≤
    Nat.count (fun k => (trace t k).request = true) n := by
  have hpending : Nat.count (fun k => (trace t k).strobe = true) n + (run t n).pending ≤
      Nat.count (fun k => (trace t k).request = true) n := by
    induction n with
    | zero => exact le_rfl
    | succ n ih =>
        have hstep := pending_step (t := t) n
        rw [Nat.count_succ, Nat.count_succ]
        cases hstrobe : (trace t n).strobe <;> cases hrequest : (trace t n).request <;>
          rw [hstrobe, hrequest] at hstep <;> simp at hstep ⊢ <;> omega
  exact (Nat.le_add_right _ _).trans hpending

/-- The acknowledge is for one clock. -/
theorem ackO_iff (n : ℕ) : (run t n).reg.ackO = true ↔ (∀ j < n, (t j).reg = none) ∨
    ∃ d < n, (trace t d).done = true ∧ ∀ j, d < j → j < n → (t j).reg = none := by
  induction n with
  | zero => exact ⟨fun _ => .inl fun j hj => absurd hj (Nat.not_lt_zero j), fun _ => rfl⟩
  | succ n ih =>
      obtain ⟨response, hreg⟩ := reg_succ (t := t) n
      cases hedge : (t n).reg with
      | none =>
          rw [hreg, regNext, hedge]
          refine ih.trans (or_congr ?_ ?_)
          · exact ⟨fun h j hj => (Nat.eq_or_lt_of_le (Nat.le_of_lt_succ hj)).elim
              (fun heq => heq ▸ hedge) (h j), fun h j hj => h j (Nat.lt_succ_of_lt hj)⟩
          · constructor
            · rintro ⟨d, hd, hdone, hnone⟩
              refine ⟨d, Nat.lt_succ_of_lt hd, hdone, fun j hj hjn => ?_⟩
              rcases Nat.eq_or_lt_of_le (Nat.le_of_lt_succ hjn) with rfl | hlt
              · exact hedge
              · exact hnone j hj hlt
            · rintro ⟨d, hd, hdone, hnone⟩
              refine ⟨d, Nat.lt_of_le_of_ne (Nat.le_of_lt_succ hd) ?_, hdone,
                fun j hj hjn => hnone j hj (Nat.lt_succ_of_lt hjn)⟩
              rintro rfl
              -- on no edge nothing is done
              obtain ⟨hbefore, hafter⟩ := Bool.and_eq_true_iff.mp hdone
              rw [decide_eq_true_iff] at hbefore hafter
              rw [show ((run t d).step (t d)).reg = (run t (d + 1)).reg from rfl, hreg, regNext, hedge,
                hbefore] at hafter
              cases hafter
      | some strobe =>
          have hack : (run t (n + 1)).reg.ackO = (trace t n).done := by
            rw [trace, events, show (run t n).step (t n) = run t (n + 1) from rfl, hreg, regNext,
              hedge]
            unfold RegSide.ackO
            cases hstate : (run t n).reg.state <;> simp [RegSide.clock, hstate]
            split_ifs <;> decide
          rw [hack]
          constructor
          · exact fun hdone => .inr ⟨n, Nat.lt_succ_self n, hdone, fun j hj hjn => by omega⟩
          · rintro (hnone | ⟨d, hd, hdone, hnone⟩)
            · exact absurd (hnone n (Nat.lt_succ_self n)) (by rw [hedge]; exact Option.some_ne_none _)
            · rcases Nat.eq_or_lt_of_le (Nat.le_of_lt_succ hd) with rfl | hlt
              · exact hdone
              · exact absurd (hnone n hlt (Nat.lt_succ_self n))
                  (by rw [hedge]; exact Option.some_ne_none _)

/-- The handshake across the clocks, out of reset: what is requested is strobed once, then
acknowledged, and then done; what is strobed has been requested. -/
theorem register_strobe_cc (ht : ClockRuns t) :
    (∀ n m, n < m → (trace t n).request = true → (trace t m).done = true →
      (∀ j, n < j → j < m → (trace t j).done = false) →
      (∀ j, n ≤ j → j ≤ m → (trace t j).reset = false) →
      ∃ s a, n < s ∧ s < a ∧ a < m ∧ ∀ j, n < j → j < m →
        ((trace t j).strobe = true ↔ j = s) ∧ ((trace t j).ack = true ↔ j = a) ∧
          (trace t j).request = false) ∧
    (∀ k, (trace t k).strobe = true → (run t k).reg.dspResetN = true → (trace t k).reset = false →
      ∃ n < k, (trace t n).request = true ∧ (trace t n).reset = false ∧ ∀ j, n < j → j < k →
        (trace t j).strobe = false ∧ (trace t j).done = false ∧ (trace t j).reset = false) ∧
    ∀ n, (run t n).reg.ackO = true ↔ (∀ j < n, (t j).reg = none) ∨
      ∃ d < n, (trace t d).done = true ∧ ∀ j, d < j → j < n → (t j).reg = none := by
  obtain ⟨phase, h₀, hfollows, hkeeps⟩ := run_follows ht
  refine ⟨fun n m hnm hrequest hdone hfirst hreset =>
    hfollows.exchange hrequest hdone hnm hreset hfirst, fun k hstrobe hout hreset => ?_, ackO_iff⟩
  refine hfollows.requested_by h₀ ?_
  obtain ⟨hallows, -⟩ := hfollows.step hreset
  cases hphase : phase k <;> rw [hphase] at hallows
  case reset =>
    have hkeep := hkeeps k
    rw [hphase] at hkeep
    exact absurd hout (by rw [hkeep.1]; exact Bool.false_ne_true)
  case idle => exact absurd hstrobe (by rw [hallows.1]; exact Bool.false_ne_true)
  all_goals exact absurd hstrobe (by rw [hallows.2.1]; exact Bool.false_ne_true)

/-- A request on its own, on clocks that run together. -/
def lone (r n : ℕ) : Tick := ⟨true, some (n == r), some true, false, false⟩

theorem lone_clockRuns : ClockRuns (lone 20) := by
  have hrun : ∀ n, (run (lone 20) (n + 3)).reg.dspRstN = ⟨true, true⟩ ∧
      (run (lone 20) (n + 3)).reg.dspResetN = true := by
    intro n
    induction n with
    | zero => exact ⟨rfl, rfl⟩
    | succ n ih =>
        obtain ⟨response, hreg⟩ := reg_succ (t := lone 20) (n + 3)
        rw [show n + 1 + 3 = n + 3 + 1 from rfl, hreg]
        refine ⟨congrArg (SyncBit.mk true) (congrArg SyncBit.bitMeta ih.1), ?_⟩
        show (if !(run (lone 20) (n + 3)).reg.dspRstN.bitO then false else
          if (run (lone 20) (n + 3)).reg.state = .idle then true
          else (run (lone 20) (n + 3)).reg.dspResetN) = true
        rw [ih.1, ih.2, ite_self]
        rfl
  intro n hbefore hafter
  match n with
  | 0 => exact absurd hafter (by decide)
  | 1 => exact absurd hafter (by decide)
  | 2 => exact ⟨0, 1, by decide, by decide, rfl, rfl, by decide⟩
  | n + 3 => exact absurd hbefore (by rw [(hrun n).2]; decide)

theorem register_strobe_cc_lone : ∃ s a, 20 < s ∧ s < a ∧ a < 33 ∧ ∀ j, 20 < j → j < 33 →
    ((trace (lone 20) j).strobe = true ↔ j = s) ∧ ((trace (lone 20) j).ack = true ↔ j = a) ∧
      (trace (lone 20) j).request = false :=
  (register_strobe_cc lone_clockRuns).1 20 33 (by decide) (by decide) (by decide)
    (by decide : ∀ j, 21 ≤ j → j < 33 → _) (by decide : ∀ j, 20 ≤ j → j ≤ 33 → _)

end runs

end RegisterStrobeCc

end Mbf.Registers
