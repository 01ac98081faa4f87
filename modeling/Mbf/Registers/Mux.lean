import Mbf.Lib.Requests
import Mathlib.Data.BitVec

/-! # The register multiplexer

`register_mux_strobe` passes a strobe on to the register of its address and waits for that register's
acknowledge; strobes beyond the registers are acknowledged at once.  `register_mux` does this for
writes and for reads, and gives the data of the register, or zero.

Each register has exactly the requests with its address, once each and in order, and answers them
(`register_mux`). -/

namespace Mbf.Registers

open Requests

/-! ### The circuit -/

/-- The registers of `register_mux_strobe`. -/
structure MuxStrobe (n : ℕ) where
  ackO : Bool
  busy : Bool
  strobe : Fin n → Bool

namespace MuxStrobe

variable {n : ℕ}

def initial : MuxStrobe n := ⟨false, false, fun _ => false⟩

/-- `ack_in` -/
def ackIn (address : ℕ) (ackI : Fin n → Bool) : Bool :=
  if h : address < n then ackI ⟨address, h⟩ else true

/-- One clock of `register_mux_strobe`. -/
def clock (m : MuxStrobe n) (strobeI : Bool) (address : ℕ) (ackI : Fin n → Bool) : MuxStrobe n where
  ackO := ackIn address ackI && m.busy
  strobe :=
    if strobeI then
      -- out of range the strobes stay as they are
      if address < n then fun k => k.val == address else m.strobe
    else fun _ => false
  busy := strobeI || (m.busy && !ackIn address ackI)

end MuxStrobe

/-- The inputs of `register_mux`. -/
structure MuxInputs (w n : ℕ) where
  writeStrobeI : Bool
  writeAddressI : BitVec w
  writeDataI : BitVec 32
  writeAckI : Fin n → Bool
  readStrobeI : Bool
  readAddressI : BitVec w
  readDataI : Fin n → BitVec 32
  readAckI : Fin n → Bool

/-- `register_mux` -/
structure RegisterMux (n : ℕ) where
  write : MuxStrobe n
  read : MuxStrobe n
  readData : BitVec 32
  readDataO : BitVec 32
  readAckO : Bool

namespace RegisterMux

variable {w n : ℕ}

def initial : RegisterMux n := ⟨.initial, .initial, 0, 0, false⟩

/-- One clock of `register_mux`. -/
def clock (m : RegisterMux n) (i : MuxInputs w n) : RegisterMux n where
  write := m.write.clock i.writeStrobeI i.writeAddressI.toNat i.writeAckI
  read := m.read.clock i.readStrobeI i.readAddressI.toNat i.readAckI
  readData := if h : i.readAddressI.toNat < n then i.readDataI ⟨_, h⟩ else 0
  readDataO := if m.read.ackO then m.readData else m.readDataO
  readAckO := m.read.ackO

end RegisterMux

/-! ### Requests through it -/

namespace MuxStrobe

section through
variable {α β : Type*} {n : ℕ} (p : Port α β) (m : ℕ → MuxStrobe n) (address : α → ℕ)
  (acks : ℕ → Fin n → Bool) (datas : ℕ → Fin n → β) (zero : β)

/-- The port of a register. -/
def register (k : Fin n) : Port α β where
  strobe t := (m t).strobe k
  arg := p.arg
  ack t := acks t k
  data t := datas t k

/-- The requests for a register. -/
def route (k : Fin n) (a : α) : Option α := if address a = k then some a else none

/-- What of a log is for a register. -/
def routedLog (k : Fin n) (l : List (α × β)) : List (α × β) :=
  l.filterMap (routed (route address k))

variable {p m address acks datas zero}

/-- The multiplexer runs between the port and the registers. -/
structure Connected (p : Port α β) (m : ℕ → MuxStrobe n) (address : α → ℕ)
    (acks : ℕ → Fin n → Bool) (datas : ℕ → Fin n → β) (zero : β) : Prop where
  start : m 0 = initial
  clock : ∀ t, m (t + 1) = (m t).clock (p.strobe t) (address (p.arg t)) (acks t)
  ack : ∀ t, p.ack t = (m t).ackO
  /-- The data is that of the register, a clock later. -/
  data : ∀ t, p.data (t + 1) =
    if h : address (p.arg t) < n then datas t ⟨address (p.arg t), h⟩ else zero

/-- Where a request is. -/
inductive Phase (p : Port α β) (m : ℕ → MuxStrobe n) (address : α → ℕ) (acks : ℕ → Fin n → Bool)
    (datas : ℕ → Fin n → β) (zero : β) (t : ℕ) : Prop
  /-- There is none. -/
  | idle (hbusy : (m t).busy = false) (hack : (m t).ackO = false)
      (hstrobe : ∀ k, (m t).strobe k = false) (hpending : p.pending t = false)
      (hdown : ∀ k, (register p m acks datas k).pending t = false)
      (hlog : ∀ k, (register p m acks datas k).log t = routedLog address k (p.log t))
  /-- It is with its register. -/
  | waiting (hbusy : (m t).busy = true) (hack : (m t).ackO = false) (hpending : p.pending t = true)
      (hdown : ∀ k, (register p m acks datas k).active t = decide (address (p.asked t) = k))
      (hasked : ∀ k : Fin n, address (p.asked t) = k →
        (register p m acks datas k).asked t = p.asked t)
      (hlog : ∀ k, (register p m acks datas k).log t = routedLog address k (p.log t))
  /-- The register has acknowledged. -/
  | answered (hbusy : (m t).busy = false) (hack : (m t).ackO = true)
      (hstrobe : ∀ k, (m t).strobe k = false) (hpending : p.pending t = true)
      (hdown : ∀ k, (register p m acks datas k).pending t = false)
      (hlog : ∀ k, (register p m acks datas k).log t =
        routedLog address k (p.log t ++ [(p.asked t, p.data t)]))
      (hzero : n ≤ address (p.asked t) → p.data t = zero)

theorem routedLog_append (k : Fin n) (l : List (α × β)) (e : α × β) :
    routedLog address k (l ++ [e]) =
      routedLog address k l ++ if address e.1 = k then [e] else [] := by
  rw [routedLog, routedLog, List.filterMap_append]
  congr 1
  simp only [List.filterMap_cons, List.filterMap_nil, routed, route]
  split_ifs <;> rfl

section steps
variable (hm : Connected p m address acks datas zero) {t : ℕ}
include hm

theorem strobe_none (h : p.strobe t = false) (k : Fin n) : (m (t + 1)).strobe k = false := by
  rw [hm.clock, clock, h, if_neg Bool.false_ne_true]

/-- What a waiting request has of its register. -/
theorem ack_next (hkeeps : ∀ s < t, p.Keeps s) (hbusy : (m t).busy = true)
    (hpending : p.pending t = true) :
    (m (t + 1)).ackO = ackIn (address (p.asked t)) (acks t) := by
  rw [hm.clock, clock, hbusy, Bool.and_true, Port.asked_eq hkeeps (Port.active_of_pending hpending)]

theorem step_idle (hkeeps : p.Keeps t) (hbusy : (m t).busy = false) (hno : (m t).ackO = false)
    (hstrobe : ∀ k, (m t).strobe k = false) (hpending : p.pending t = false)
    (hdown : ∀ k, (register p m acks datas k).pending t = false)
    (hlog : ∀ k, (register p m acks datas k).log t = routedLog address k (p.log t)) :
    Phase p m address acks datas zero (t + 1) := by
  have hno' : (m (t + 1)).ackO = false := by rw [hm.clock, clock, hbusy, Bool.and_false]
  have hback : p.ack t = false := (hm.ack t).trans hno
  have hoff : ∀ k, (register p m acks datas k).active t = false := by
    intro k
    rw [Port.active, hdown k]
    exact hstrobe k
  have hdown' := fun k => Port.pending_idle (hoff k)
  have hlog' : ∀ k, (register p m acks datas k).log (t + 1) =
      routedLog address k (p.log (t + 1)) := by
    intro k
    rw [Port.log_idle (hoff k), Port.log_wait hback, hlog]
  cases hstrobed : p.strobe t with
  | false =>
      have hidle : p.active t = false := by rw [Port.active, hpending, hstrobed, Bool.or_false]
      refine .idle ?_ hno' (strobe_none hm hstrobed) (Port.pending_idle hidle) hdown' hlog'
      rw [hm.clock, clock, hbusy, hstrobed, Bool.false_and, Bool.or_false]
  | true =>
      have hactive := Port.active_of_strobe hstrobed
      obtain ⟨hquiet, harg⟩ := hkeeps hactive hback
      have hasked : p.asked (t + 1) = p.arg t := by
        rw [Port.asked_succ hquiet, Port.asked_strobe hstrobed]
      have hpassed : ∀ k : Fin n, (m (t + 1)).strobe k = decide (address (p.arg t) = k) := by
        intro k
        rw [hm.clock, clock, hstrobed, if_pos rfl]
        split_ifs with hlt
        · exact BEq.comm
        · rw [hstrobe k, eq_comm, decide_eq_false_iff_not]
          omega
      refine .waiting ?_ hno' (Port.pending_wait hactive hback) (fun k => ?_) (fun k hk => ?_) hlog'
      · rw [hm.clock, clock, hstrobed, Bool.true_or]
      · rw [Port.active, hdown' k, hasked, Bool.false_or]
        exact hpassed k
      · rw [hasked] at hk ⊢
        rw [Port.asked_strobe ((hpassed k).trans (decide_eq_true hk)), ← harg]
        rfl

theorem step_waiting (hkeeps : ∀ s ≤ t, p.Keeps s) (hbusy : (m t).busy = true)
    (hno : (m t).ackO = false) (hpending : p.pending t = true)
    (hdown : ∀ k, (register p m acks datas k).active t = decide (address (p.asked t) = k))
    (hasked : ∀ k : Fin n, address (p.asked t) = k →
      (register p m acks datas k).asked t = p.asked t)
    (hlog : ∀ k, (register p m acks datas k).log t = routedLog address k (p.log t)) :
    Phase p m address acks datas zero (t + 1) := by
  have hback : p.ack t = false := (hm.ack t).trans hno
  have hactive := Port.active_of_pending hpending
  have hbefore : ∀ s < t, p.Keeps s := fun s hs => hkeeps s hs.le
  have hquiet := (hkeeps t le_rfl hactive hback).1
  have hsame : p.asked (t + 1) = p.asked t := Port.asked_succ hquiet
  have harg : p.arg t = p.asked t := (Port.asked_eq hbefore hactive).symm
  have hnone := strobe_none hm (Port.strobe_of_pending hbefore hpending)
  have hbusy' : (m (t + 1)).busy = !ackIn (address (p.asked t)) (acks t) := by
    rw [hm.clock, clock, hbusy, harg, Port.strobe_of_pending hbefore hpending, Bool.true_and,
      Bool.false_or]
  have hack' := ack_next hm hbefore hbusy hpending
  have hpending' := Port.pending_wait hactive hback
  cases hin : ackIn (address (p.asked t)) (acks t) with
  | false =>
      -- the register goes on waiting
      have hwait : ∀ k : Fin n, address (p.asked t) = k → acks t k = false := by
        intro k hk
        rw [ackIn, dif_pos (hk ▸ k.isLt)] at hin
        rw [← hin]
        exact congrArg (acks t) (Fin.ext hk.symm)
      refine .waiting (by rw [hbusy', hin]; rfl) (hack'.trans hin) hpending' (fun k => ?_)
        (fun k hk => ?_) (fun k => ?_)
      · rw [Port.active, Port.pending_succ, hdown k, hsame]
        show (_ && !acks t k || (m (t + 1)).strobe k) = _
        rw [hnone, Bool.or_false]
        by_cases hk : address (p.asked t) = k
        · rw [hwait k hk, Bool.not_false, Bool.and_true]
        · rw [decide_eq_false hk, Bool.false_and]
      · rw [Port.asked_succ (hnone k), hsame]
        exact hasked k (hsame ▸ hk)
      · rw [Port.log_wait hback, ← hlog k]
        by_cases hk : address (p.asked t) = k
        · exact Port.log_wait (hwait k hk)
        · exact Port.log_idle ((hdown k).trans (decide_eq_false hk))
  | true =>
      have hvalue : ∀ k : Fin n, address (p.asked t) = k → acks t k = true ∧
          p.data (t + 1) = datas t k := by
        intro k hk
        have hlt : address (p.asked t) < n := hk ▸ k.isLt
        have hfin : (⟨address (p.asked t), hlt⟩ : Fin n) = k := Fin.ext hk
        rw [ackIn, dif_pos hlt, hfin] at hin
        refine ⟨hin, ?_⟩
        rw [hm.data, harg, dif_pos hlt, hfin]
      refine .answered (by rw [hbusy', hin]; rfl) (hack'.trans hin) hnone hpending' (fun k => ?_)
        (fun k => ?_) (fun hge => ?_)
      · by_cases hk : address (p.asked t) = k
        · exact Port.pending_done (hvalue k hk).1
        · exact Port.pending_idle ((hdown k).trans (decide_eq_false hk))
      · rw [Port.log_wait hback, routedLog_append, hsame]
        by_cases hk : address (p.asked t) = k
        · rw [Port.log_done ((hdown k).trans (decide_eq_true hk)) (hvalue k hk).1, hlog k, if_pos hk,
            hasked k hk, (hvalue k hk).2]
          rfl
        · rw [Port.log_idle ((hdown k).trans (decide_eq_false hk)), hlog k, if_neg hk,
            List.append_nil]
      · rw [hsame] at hge
        rw [hm.data, harg, dif_neg hge.not_gt]

theorem step_answered (hkeeps : ∀ s < t, p.Keeps s) (hbusy : (m t).busy = false)
    (hyes : (m t).ackO = true) (hstrobe : ∀ k, (m t).strobe k = false)
    (hpending : p.pending t = true)
    (hdown : ∀ k, (register p m acks datas k).pending t = false)
    (hlog : ∀ k, (register p m acks datas k).log t =
      routedLog address k (p.log t ++ [(p.asked t, p.data t)])) :
    Phase p m address acks datas zero (t + 1) := by
  have hquiet := Port.strobe_of_pending hkeeps hpending
  have hback : p.ack t = true := (hm.ack t).trans hyes
  have hoff : ∀ k, (register p m acks datas k).active t = false := by
    intro k
    rw [Port.active, hdown k]
    exact hstrobe k
  refine .idle ?_ ?_ (strobe_none hm hquiet) (Port.pending_done hback)
    (fun k => Port.pending_idle (hoff k)) (fun k => ?_)
  · rw [hm.clock, clock, hbusy, hquiet, Bool.false_and, Bool.or_false]
  · rw [hm.clock, clock, hbusy, Bool.and_false]
  · rw [Port.log_idle (hoff k), hlog k, Port.log_done (Port.active_of_pending hpending) hback]

/-- A request goes from phase to phase. -/
theorem phase_run (hkeeps : ∀ s < t, p.Keeps s) :
    Phase p m address acks datas zero t := by
  induction t with
  | zero =>
      refine .idle ?_ ?_ (fun k => ?_) rfl (fun k => rfl) (fun k => rfl)
      all_goals rw [hm.start, initial]
  | succ t ih =>
      have hbefore : ∀ s < t, p.Keeps s := fun s hs => hkeeps s (Nat.lt_succ_of_lt hs)
      cases ih hbefore with
      | idle hbusy hno hstrobe hpending hdown hlog =>
          exact step_idle hm (hkeeps t (Nat.lt_succ_self t)) hbusy hno hstrobe hpending hdown
            hlog
      | waiting hbusy hno hpending hdown hasked hlog =>
          exact step_waiting hm (fun s hs => hkeeps s (Nat.lt_succ_of_le hs)) hbusy hno
            hpending hdown hasked hlog
      | answered hbusy hyes hstrobe hpending hdown hlog hzero =>
          exact step_answered hm hbefore hbusy hyes hstrobe hpending hdown hlog

end steps

section held
variable (hm : Connected p m address acks datas zero)
include hm

/-- It acknowledges only what it is asked. -/
theorem active_of_ack {t : ℕ} (hkeeps : ∀ s < t, p.Keeps s) (ht : p.ack t = true) :
    p.active t = true := by
  rw [hm.ack] at ht
  have hphase : Phase p m address acks datas zero t := phase_run hm hkeeps
  cases hphase with
  | idle _ hno _ _ _ _ => exact absurd (hno.symm.trans ht) Bool.false_ne_true
  | waiting _ hno _ _ _ _ => exact absurd (hno.symm.trans ht) Bool.false_ne_true
  | answered _ _ _ hpending _ _ _ => exact Port.active_of_pending hpending

variable (hheld : p.Held)
include hheld

/-- Each register has the requests with its address. -/
theorem through (k : Fin n) :
    Through p (register p m acks datas k) (route address k) := by
  have hphase : ∀ t, Phase p m address acks datas zero t :=
    fun t => phase_run hm fun s _ => hheld s
  refine ⟨fun t hon hno => ?_, fun t ht => ?_, fun t ht => ?_, fun t => ?_, fun t ht => ?_⟩
  · cases hphase t with
    | idle _ _ hstrobe _ hdown _ =>
        rw [Port.active, hdown k] at hon
        exact absurd ((hstrobe k).symm.trans hon) Bool.false_ne_true
    | waiting _ hback hpending _ _ _ =>
        have hquiet := Port.strobe_of_pending (fun s (_ : s < t) => hheld s) hpending
        obtain ⟨_, harg⟩ := hheld t (Port.active_of_pending hpending) ((hm.ack t).trans hback)
        exact ⟨strobe_none hm hquiet k, harg⟩
    | answered _ _ hstrobe _ hdown _ _ =>
        rw [Port.active, hdown k] at hon
        exact absurd ((hstrobe k).symm.trans hon) Bool.false_ne_true
  · cases hphase t with
    | idle _ _ _ _ hdown _ => exact absurd ((hdown k).symm.trans ht) Bool.false_ne_true
    | waiting _ _ hpending _ _ _ => exact hpending
    | answered _ _ _ hpending _ _ _ => exact hpending
  · cases hphase t with
    | idle _ _ hstrobe _ hdown _ =>
        rw [Port.active, hdown k] at ht
        exact absurd ((hstrobe k).symm.trans ht) Bool.false_ne_true
    | waiting _ _ hpending hdown hasked _ =>
        have hk := of_decide_eq_true ((hdown k).symm.trans ht)
        exact ⟨Port.active_of_pending hpending, by rw [route, if_pos hk, hasked k hk]⟩
    | answered _ _ hstrobe _ hdown _ _ =>
        rw [Port.active, hdown k] at ht
        exact absurd ((hstrobe k).symm.trans ht) Bool.false_ne_true
  · cases hphase t with
    | idle _ _ _ _ _ hlog => exact (hlog k).symm ▸ List.prefix_rfl
    | waiting _ _ _ _ _ hlog => exact (hlog k).symm ▸ List.prefix_rfl
    | answered _ _ _ _ _ hlog _ =>
        rw [hlog k, routedLog_append]
        exact List.prefix_append _ _
  · cases hphase t with
    | idle _ _ _ _ _ hlog => exact hlog k
    | waiting _ _ hpending _ _ _ => exact absurd (ht.symm.trans hpending) Bool.false_ne_true
    | answered _ _ _ hpending _ _ _ => exact absurd (ht.symm.trans hpending) Bool.false_ne_true

/-- Beyond the registers there is nothing. -/
theorem zero_of_ge (t : ℕ) : ∀ e ∈ p.log t, n ≤ address e.1 → e.2 = zero := by
  induction t with
  | zero => exact fun e he => absurd he List.not_mem_nil
  | succ t ih =>
      intro e he hge
      cases hback : p.ack t with
      | false => exact ih e (Port.log_wait hback ▸ he) hge
      | true =>
          have hkeeps : ∀ s < t, p.Keeps s := fun s _ => hheld s
          have hactive := active_of_ack hm hkeeps hback
          rw [Port.log_done hactive hback, List.mem_append, List.mem_singleton] at he
          rcases he with he | rfl
          · exact ih e he hge
          · have hphase : Phase p m address acks datas zero t := phase_run hm hkeeps
            rw [hm.ack] at hback
            cases hphase with
            | idle _ hno _ _ _ _ => exact absurd (hno.symm.trans hback) Bool.false_ne_true
            | waiting _ hno _ _ _ _ => exact absurd (hno.symm.trans hback) Bool.false_ne_true
            | answered _ _ _ _ _ _ hzero => exact hzero hge

/-- A request that is not answered yet goes on. -/
theorem ack_or_wait {t : ℕ} (hpending : p.pending t = true) :
    p.ack t = true ∨ p.pending (t + 1) = true ∧ p.asked (t + 1) = p.asked t ∧
      p.ack (t + 1) = ackIn (address (p.asked t)) (acks t) := by
  have hkeeps : ∀ s < t, p.Keeps s := fun s _ => hheld s
  have hphase : Phase p m address acks datas zero t := phase_run hm hkeeps
  have hactive := Port.active_of_pending hpending
  cases hphase with
  | idle _ _ _ hnone _ _ => exact absurd (hnone.symm.trans hpending) Bool.false_ne_true
  | waiting hbusy hno _ _ _ _ =>
      have hback : p.ack t = false := (hm.ack t).trans hno
      exact .inr ⟨Port.pending_wait hactive hback,
        Port.asked_succ (hheld t hactive hback).1,
        (hm.ack (t + 1)).trans (ack_next hm hkeeps hbusy hpending)⟩
  | answered _ hyes _ _ _ _ _ => exact .inl ((hm.ack t).trans hyes)

/-- Once the register of a request acknowledges, so does the multiplexer. -/
theorem ack_of_register {t d : ℕ} {k : Fin n} (hpending : p.pending t = true)
    (hk : address (p.asked t) = k) (hd : acks (t + d) k = true) : ∃ u ≥ t, p.ack u = true := by
  induction d generalizing t with
  | zero =>
      rcases ack_or_wait hm hheld hpending with hback | ⟨_, _, hnext⟩
      · exact ⟨t, le_rfl, hback⟩
      · refine ⟨t + 1, Nat.le_succ t, ?_⟩
        rw [hnext, ackIn, dif_pos (hk ▸ k.isLt), ← hd]
        exact congrArg (acks t) (Fin.ext hk)
  | succ d ih =>
      rcases ack_or_wait hm hheld hpending with hback | ⟨hwait, hasked, _⟩
      · exact ⟨t, le_rfl, hback⟩
      · obtain ⟨u, hu, hback⟩ := ih hwait (hasked ▸ hk) (by rwa [Nat.succ_add])
        exact ⟨u, (Nat.le_succ t).trans hu, hback⟩

theorem ack_of_pending (hregisters : ∀ k, (register p m acks datas k).Answers) {t : ℕ}
    (hpending : p.pending t = true) : ∃ u ≥ t, p.ack u = true := by
  have hphase : Phase p m address acks datas zero t :=
    phase_run hm fun s _ => hheld s
  by_cases hlt : address (p.asked t) < n
  · cases hphase with
    | idle _ _ _ hnone _ _ => exact absurd (hnone.symm.trans hpending) Bool.false_ne_true
    | waiting _ _ _ hdown _ _ =>
        obtain ⟨u, hu, hregister⟩ := hregisters ⟨_, hlt⟩ t ((hdown _).trans (decide_eq_true rfl))
        obtain ⟨d, rfl⟩ := Nat.exists_eq_add_of_le hu
        exact ack_of_register hm hheld hpending rfl hregister
    | answered _ hyes _ _ _ _ _ => exact ⟨t, le_rfl, (hm.ack t).trans hyes⟩
  · rcases ack_or_wait hm hheld hpending with hback | ⟨_, _, hnext⟩
    · exact ⟨t, le_rfl, hback⟩
    · exact ⟨t + 1, Nat.le_succ t, hnext.trans (dif_neg hlt)⟩

/-- If every register answers, so does the multiplexer. -/
theorem answers (hregisters : ∀ k, (register p m acks datas k).Answers) : p.Answers := by
  intro t hactive
  cases hback : p.ack t with
  | true => exact ⟨t, le_rfl, hback⟩
  | false =>
      obtain ⟨u, hu, hack'⟩ := ack_of_pending hm hheld hregisters
        (Port.pending_wait hactive hback)
      exact ⟨u, (Nat.le_succ t).trans hu, hack'⟩

end held

end through

end MuxStrobe

/-! ### Reads and writes -/

/-- What the multiplexer does for the requests of a port: each register has those with its address,
and where there is no register there is nothing. -/
structure Serves {α β : Type*} {n : ℕ} (p : Port α β) (registers : Fin n → Port α β)
    (address : α → ℕ) (zero : β) : Prop where
  /-- Once each and in order, with the answers of the register. -/
  through : ∀ k, Through p (registers k) (MuxStrobe.route address k)
  strobes : ∀ k t, Nat.count (fun s => (registers k).strobe s = true) t =
    ((registers k).log t).length + ((registers k).pending t).toNat
  beyond : ∀ t, ∀ e ∈ p.log t, n ≤ address e.1 → e.2 = zero
  answers : (∀ k, (registers k).Answers) → p.Answers

namespace RegisterMux

section ports
variable {w n : ℕ}

/-- The registers of `register_mux` before each clock. -/
def run (i : ℕ → MuxInputs w n) : ℕ → RegisterMux n
  | 0 => initial
  | t + 1 => (run i t).clock (i t)

variable (i : ℕ → MuxInputs w n)

/-- The requests to write, with the address and the data. -/
def writes : Port (BitVec w × BitVec 32) Unit where
  strobe t := (i t).writeStrobeI
  arg t := ((i t).writeAddressI, (i t).writeDataI)
  ack t := (run i t).write.ackO
  data _ := ()

/-- The requests to write to a register, with `write_data_o`. -/
def registerWrites (k : Fin n) : Port (BitVec w × BitVec 32) Unit where
  strobe t := (run i t).write.strobe k
  arg t := ((i t).writeAddressI, (i t).writeDataI)
  ack t := (i t).writeAckI k
  data _ := ()

/-- The requests to read. -/
def reads : Port (BitVec w) (BitVec 32) where
  strobe t := (i t).readStrobeI
  arg t := (i t).readAddressI
  ack t := (run i t).readAckO
  data t := (run i t).readDataO

/-- The requests to read a register. -/
def registerReads (k : Fin n) : Port (BitVec w) (BitVec 32) where
  strobe t := (run i t).read.strobe k
  arg t := (i t).readAddressI
  ack t := (i t).readAckI k
  data t := (i t).readDataI k

/-- The reads as the strobes have them, a clock before the data. -/
def earlyReads : Port (BitVec w) (BitVec 32) where
  strobe t := (i t).readStrobeI
  arg t := (i t).readAddressI
  ack t := (run i t).read.ackO
  data t := (run i t).readData

variable {i}

theorem connected_write :
    MuxStrobe.Connected (writes i) (fun t => (run i t).write) (fun a => a.1.toNat)
      (fun t => (i t).writeAckI) (fun _ _ => ()) () :=
  ⟨rfl, fun _ => rfl, fun _ => rfl, fun _ => rfl⟩

theorem connected_read :
    MuxStrobe.Connected (earlyReads i) (fun t => (run i t).read) BitVec.toNat
      (fun t => (i t).readAckI) (fun t => (i t).readDataI) 0 :=
  ⟨rfl, fun _ => rfl, fun _ => rfl, fun _ => rfl⟩

theorem serves_writes (hheld : (writes i).Held) :
    Serves (writes i) (registerWrites i) (fun a => a.1.toNat) () where
  through := MuxStrobe.through connected_write hheld
  strobes k := Port.count_strobe (MuxStrobe.through connected_write hheld k).held
  beyond := MuxStrobe.zero_of_ge connected_write hheld
  answers := MuxStrobe.answers connected_write hheld

section later
variable (hheld : (reads i).Held)
include hheld

/-- `read_data_o` and `read_ack_o` are a clock later. -/
theorem later_reads : Through (reads i) (earlyReads i) some ∧
    ((earlyReads i).Answers → (reads i).Answers) := by
  have hdata : ∀ t, (earlyReads i).ack t = true → (reads i).data (t + 1) = (earlyReads i).data t := by
    intro t ht
    show (run i (t + 1)).readDataO = _
    rw [run, clock, show (run i t).read.ackO = true from ht, if_pos rfl]
    rfl
  have honly : ∀ t, (∀ s < t, (earlyReads i).Keeps s) → (earlyReads i).ack t = true →
      (earlyReads i).active t = true := fun t => MuxStrobe.active_of_ack connected_read
  exact ⟨Through.later rfl rfl rfl (fun _ => rfl) hdata honly hheld,
    Port.Answers.later rfl rfl rfl (fun _ => rfl) hdata honly hheld⟩

theorem serves_reads : Serves (reads i) (registerReads i) BitVec.toNat 0 := by
  obtain ⟨hearly, hanswers⟩ := later_reads hheld
  have hthrough : ∀ k, Through (reads i) (registerReads i k) (MuxStrobe.route BitVec.toNat k) :=
    fun k => hearly.trans (MuxStrobe.through connected_read hearly.held k)
  refine ⟨hthrough, fun k => Port.count_strobe (hthrough k).held, fun t e he hge => ?_,
    fun hregisters => hanswers (MuxStrobe.answers connected_read hearly.held hregisters)⟩
  -- what has been read has been read a clock before
  have hbefore := hearly.log_prefix t
  rw [show routed some = (some : BitVec w × BitVec 32 → _) from rfl, List.filterMap_some] at hbefore
  exact MuxStrobe.zero_of_ge connected_read hearly.held t e (hbefore.subset he) hge

end later

/-- Each register has exactly the writes and the reads with its address, once each and in order, a
read gives what its register gave, and nothing else is given. -/
theorem register_mux (hwrites : (writes i).Held) (hreads : (reads i).Held) :
    Serves (writes i) (registerWrites i) (fun a => a.1.toNat) () ∧
      Serves (reads i) (registerReads i) BitVec.toNat 0 :=
  ⟨serves_writes hwrites, serves_reads hreads⟩

end ports

/-- A read of register 1, which waits for two clocks. -/
def lateRead : ℕ → MuxInputs 2 3 := fun t =>
  ⟨false, 0, 0, fun _ => true, t == 0, 1, fun k => BitVec.ofNat 32 (10 * k + t), fun _ => t == 3⟩

theorem register_mux_late :
    (∀ k, Through (reads lateRead) (registerReads lateRead k) (MuxStrobe.route BitVec.toNat k)) ∧
      (registerReads lateRead ⟨1, by decide⟩).log 6 = [(1, 13)] ∧
        (reads lateRead).log 6 = [(1, 13)] := by
  have hread := (register_mux (i := lateRead) (fun _ _ _ => ⟨rfl, rfl⟩)
    (fun _ _ _ => ⟨rfl, rfl⟩)).2
  exact ⟨hread.through, by decide, by decide⟩

end RegisterMux

end Mbf.Registers
