import Mbf.Lib.Clocked
import Mathlib.Order.Filter.AtTopBot.Basic

/-! # Handshakes

One party requests something of another one.  There the request comes as one strobe, is
acknowledged, and with that it is done.  `Phase.next` is this protocol, a step for what happens at
one time: what breaks the protocol has no next phase.  A reset may come at any time, and nothing
that happens in a reset breaks the protocol.

In a run that follows the protocol a request that is done has had one strobe and one acknowledge
(`Follows.exchange`), and a strobe has its own request (`Follows.requested_by`).

For what must happen there is `settles`: what recurrent clocks establish, and no clock undoes, holds
from some time on. -/

namespace Handshake

/-! ### The protocol -/

inductive Phase
  | reset | idle | requested | strobed | acked
deriving DecidableEq

/-- What happens at one time. -/
structure Events where
  reset : Bool
  request : Bool
  strobe : Bool
  ack : Bool
  done : Bool

/-- What may happen in a phase. -/
def Phase.Allows : Phase → Events → Prop
  | .reset, _ => True
  | .idle, e => e.strobe = false ∧ e.ack = false ∧ e.done = false
  | .requested, e => e.request = false ∧ e.ack = false ∧ e.done = false
  | .strobed, e => e.request = false ∧ e.strobe = false ∧ e.done = false
  | .acked, e => e.request = false ∧ e.strobe = false ∧ e.ack = false

/-- Where that leads to. -/
def Phase.after : Phase → Events → Phase
  | .reset, e => if e.request then .requested else .idle
  | .idle, e => if e.request then .requested else .idle
  | .requested, e => if e.strobe then .strobed else .requested
  | .strobed, e => if e.ack then .acked else .strobed
  | .acked, e => if e.done then .idle else .acked

theorem Phase.of_after_requested {p : Phase} {e : Events} (h : p.after e = .requested) :
    e.request = true ∨ p = .requested ∧ e.strobe = false := by
  cases p with
  | reset =>
      refine .inl (by_contra fun hno => ?_)
      rw [Phase.after, if_neg hno] at h
      cases h
  | idle =>
      refine .inl (by_contra fun hno => ?_)
      rw [Phase.after, if_neg hno] at h
      cases h
  | requested =>
      refine .inr ⟨rfl, Bool.eq_false_iff.mpr fun hstrobe => ?_⟩
      rw [Phase.after, if_pos hstrobe] at h
      cases h
  | strobed =>
      rw [Phase.after] at h
      split_ifs at h
  | acked =>
      rw [Phase.after] at h
      split_ifs at h

/-- One step of the protocol. -/
def Phase.Next (p : Phase) (e : Events) (q : Phase) : Prop :=
  if e.reset then q = .reset else p.Allows e ∧ q = p.after e

/-- All along what happens is allowed. -/
def Follows (phase : ℕ → Phase) (events : ℕ → Events) : Prop :=
  ∀ n, (phase n).Next (events n) (phase (n + 1))

/-- If each state is in some phase, and a step of the system is one of the protocol, then the phases
of a run follow the protocol. -/
theorem exists_phases {σ : Type*} {s : ℕ → σ} {events : ℕ → Events} (keeps : σ → Phase → Prop)
    {p : Phase} (h₀ : keeps (s 0) p)
    (hstep : ∀ n p, keeps (s n) p → ∃ q, p.Next (events n) q ∧ keeps (s (n + 1)) q) :
    ∃ phase, phase 0 = p ∧ Follows phase events ∧ ∀ n, keeps (s n) (phase n) := by
  choose next hnext hkeeps using hstep
  let phases : ∀ n, { q // keeps (s n) q } :=
    Nat.rec ⟨p, h₀⟩ fun n q => ⟨next n q.1 q.2, hkeeps n q.1 q.2⟩
  exact ⟨fun n => (phases n).1, rfl, fun n => hnext n _ (phases n).2, fun n => (phases n).2⟩

section follows
variable {phase : ℕ → Phase} {events : ℕ → Events} (h : Follows phase events)
include h

theorem Follows.step {n : ℕ} (hreset : (events n).reset = false) :
    (phase n).Allows (events n) ∧ phase (n + 1) = (phase n).after (events n) := by
  have hnext := h n
  rwa [Phase.Next, hreset, if_neg Bool.false_ne_true] at hnext

/-- A phase that has been entered with a request. -/
theorem Follows.after_request {n : ℕ} (hreset : (events n).reset = false)
    (hrequest : (events n).request = true) : phase (n + 1) = .requested := by
  obtain ⟨hallows, hafter⟩ := h.step hreset
  cases hphase : phase n <;> rw [hphase] at hallows hafter
  case reset => rw [hafter, Phase.after, hrequest, if_pos rfl]
  case idle => rw [hafter, Phase.after, hrequest, if_pos rfl]
  all_goals exact absurd hrequest (by rw [hallows.1]; exact Bool.false_ne_true)

/-- A strobe is in answer to its own request. -/
theorem Follows.requested_by (h₀ : phase 0 = .reset) {k : ℕ} (hk : phase k = .requested) :
    ∃ n < k, (events n).request = true ∧ (events n).reset = false ∧ ∀ j, n < j → j < k →
      (events j).strobe = false ∧ (events j).done = false ∧ (events j).reset = false := by
  induction k with
  | zero => exact absurd (h₀.symm.trans hk) (by decide)
  | succ k ih =>
      have hreset : (events k).reset = false := by
        by_contra hreset
        have hnext := h k
        rw [Phase.Next, if_pos (Bool.eq_true_of_not_eq_false hreset), hk] at hnext
        exact absurd hnext (by decide)
      obtain ⟨hallows, hafter⟩ := h.step hreset
      rcases Phase.of_after_requested (hafter.symm.trans hk) with hrequest | ⟨hphase, hstrobe⟩
      · exact ⟨k, Nat.lt_succ_self k, hrequest, hreset, fun j hj hjk => by omega⟩
      · rw [hphase] at hallows
        obtain ⟨n, hn, hrequest, hnreset, hquiet⟩ := ih hphase
        refine ⟨n, Nat.lt_succ_of_lt hn, hrequest, hnreset, fun j hj hjk => ?_⟩
        rcases Nat.eq_or_lt_of_le (Nat.le_of_lt_succ hjk) with rfl | hlt
        · exact ⟨hstrobe, hallows.2.2, hreset⟩
        · exact hquiet j hj hlt

/-! ### One exchange -/

/-- What has happened since a request, before the time `k`. -/
def Since (events : ℕ → Events) (n k : ℕ) : Phase → Prop
  | .requested => ∀ j, n < j → j < k →
      (events j).strobe = false ∧ (events j).ack = false ∧ (events j).request = false
  | .strobed => ∃ s, n < s ∧ s < k ∧ ∀ j, n < j → j < k →
      ((events j).strobe = true ↔ j = s) ∧ (events j).ack = false ∧ (events j).request = false
  | .acked => ∃ s a, n < s ∧ s < a ∧ a < k ∧ ∀ j, n < j → j < k →
      ((events j).strobe = true ↔ j = s) ∧ ((events j).ack = true ↔ j = a) ∧
        (events j).request = false
  | _ => False

/-- What has happened in a phase tells what has happened since the request. -/
theorem Follows.since {n k : ℕ} (hrequest : (events n).request = true) (hnk : n < k)
    (hreset : ∀ j, n ≤ j → j < k → (events j).reset = false)
    (hdone : ∀ j, n < j → j < k → (events j).done = false) : Since events n k (phase k) := by
  induction k, hnk using Nat.le_induction with
  | base =>
      rw [h.after_request (hreset n le_rfl (Nat.lt_succ_self n)) hrequest]
      intro j hj hjn
      omega
  | succ k hnk ih =>
      have hsince := ih (fun j hj hjk => hreset j hj (Nat.lt_succ_of_lt hjk))
        fun j hj hjk => hdone j hj (Nat.lt_succ_of_lt hjk)
      obtain ⟨hallows, hafter⟩ := h.step (hreset k (Nat.le_of_succ_le hnk) (Nat.lt_succ_self k))
      have hnot := hdone k hnk (Nat.lt_succ_self k)
      -- what holds of the times before `k` and of `k` itself
      have hlast : ∀ {P : ℕ → Prop}, (∀ j, n < j → j < k → P j) → P k →
          ∀ j, n < j → j < k + 1 → P j := by
        intro P hbefore hk j hj hjk
        rcases Nat.eq_or_lt_of_le (Nat.le_of_lt_succ hjk) with rfl | hlt
        · exact hk
        · exact hbefore j hj hlt
      rw [hafter]
      cases hphase : phase k <;> rw [hphase] at hallows hsince
      case reset => exact hsince.elim
      case idle => exact hsince.elim
      case requested =>
        obtain ⟨hr, ha, -⟩ := hallows
        cases hs : (events k).strobe
        · rw [Phase.after, hs, if_neg Bool.false_ne_true]
          exact hlast hsince ⟨hs, ha, hr⟩
        · rw [Phase.after, hs, if_pos rfl]
          refine ⟨k, hnk, Nat.lt_succ_self k, hlast (fun j hj hjk => ?_) ⟨?_, ha, hr⟩⟩
          · obtain ⟨hquiet, hack, hrequest⟩ := hsince j hj hjk
            refine ⟨⟨fun hstrobe => ?_, fun heq => absurd heq hjk.ne⟩, hack, hrequest⟩
            exact absurd hstrobe (by rw [hquiet]; exact Bool.false_ne_true)
          · exact ⟨fun _ => rfl, fun _ => hs⟩
      case strobed =>
        obtain ⟨hr, hs, -⟩ := hallows
        obtain ⟨s, hns, hsk, hevents⟩ := hsince
        have hstrobe : (events k).strobe = true ↔ k = s := by
          rw [hs]
          exact ⟨fun hfalse => absurd hfalse Bool.false_ne_true, fun heq => absurd heq hsk.ne'⟩
        cases ha : (events k).ack
        · rw [Phase.after, ha, if_neg Bool.false_ne_true]
          exact ⟨s, hns, Nat.lt_succ_of_lt hsk, hlast hevents ⟨hstrobe, ha, hr⟩⟩
        · rw [Phase.after, ha, if_pos rfl]
          refine ⟨s, k, hns, hsk, Nat.lt_succ_self k,
            hlast (fun j hj hjk => ?_) ⟨hstrobe, ⟨fun _ => rfl, fun _ => ha⟩, hr⟩⟩
          obtain ⟨hone, hack, hrequest⟩ := hevents j hj hjk
          refine ⟨hone, ⟨fun hacked => ?_, fun heq => absurd heq hjk.ne⟩, hrequest⟩
          exact absurd hacked (by rw [hack]; exact Bool.false_ne_true)
      case acked =>
        obtain ⟨hr, hs, ha⟩ := hallows
        obtain ⟨s, a, hns, hsa, hak, hevents⟩ := hsince
        rw [Phase.after, hnot, if_neg Bool.false_ne_true]
        refine ⟨s, a, hns, hsa, Nat.lt_succ_of_lt hak, hlast hevents ⟨?_, ?_, hr⟩⟩
        · rw [hs]
          exact ⟨fun hfalse => absurd hfalse Bool.false_ne_true,
            fun heq => absurd heq (hsa.trans hak).ne'⟩
        · rw [ha]
          exact ⟨fun hfalse => absurd hfalse Bool.false_ne_true, fun heq => absurd heq hak.ne'⟩

/-- A request that is done has had one strobe, and then one acknowledge. -/
theorem Follows.exchange {n m : ℕ} (hrequest : (events n).request = true)
    (hdone : (events m).done = true) (hnm : n < m)
    (hreset : ∀ j, n ≤ j → j ≤ m → (events j).reset = false)
    (hfirst : ∀ j, n < j → j < m → (events j).done = false) :
    ∃ s a, n < s ∧ s < a ∧ a < m ∧ ∀ j, n < j → j < m →
      ((events j).strobe = true ↔ j = s) ∧ ((events j).ack = true ↔ j = a) ∧
        (events j).request = false := by
  have hsince := h.since hrequest hnm (fun j hj hjm => hreset j hj hjm.le) hfirst
  obtain ⟨hallows, -⟩ := h.step (hreset m hnm.le le_rfl)
  cases hphase : phase m <;> rw [hphase] at hallows hsince
  case acked => exact hsince
  case reset => exact hsince.elim
  case idle => exact hsince.elim
  all_goals exact absurd hdone (by rw [hallows.2.2]; exact Bool.false_ne_true)

end follows

/-! ### What must happen -/

open Filter

/-- What a recurrent clock establishes, and nothing undoes, holds from some time on. -/
theorem settles {p q : ℕ → Prop} (h : Clocked.Recurs p) (hset : ∀ᶠ n in atTop, p n → q (n + 1))
    (hkeep : ∀ᶠ n in atTop, q n → q (n + 1)) : ∀ᶠ n in atTop, q n := by
  obtain ⟨N, hN⟩ := eventually_atTop.mp (hset.and hkeep)
  obtain ⟨m, hm, hp⟩ := h N
  refine eventually_atTop.mpr ⟨m + 1, fun n hn => ?_⟩
  induction n, hn using Nat.le_induction with
  | base => exact (hN m hm).1 hp
  | succ n hn ih => exact (hN n (by omega)).2 ih

/-- A register that takes what has settled settles to it. -/
theorem settles_to {α : Type*} {p : ℕ → Prop} [DecidablePred p] (source : ℕ → α)
    {register : ℕ → α} {a : α} (h : Clocked.Recurs p)
    (hregister : ∀ᶠ n in atTop, register (n + 1) = if p n then source n else register n)
    (hsource : ∀ᶠ n in atTop, source n = a) : ∀ᶠ n in atTop, register n = a := by
  refine settles h ?_ ?_
  · filter_upwards [hregister, hsource] with n hnext hvalue hp
    rw [hnext, if_pos hp, hvalue]
  · filter_upwards [hregister, hsource] with n hnext hvalue hold
    rw [hnext, hold, hvalue, ite_self]

end Handshake
